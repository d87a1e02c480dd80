import Koncepcja.Lib.ByteBuf

/-!
# Pixels

The pure half of `src/hw/video.cpp`: the display address of a character, the pens of a display
byte in each screen mode, the hardware palette, and the painting of one byte through the inks.
Painted pixels are the RGB bytes in the order in which they are stored.

## Main results

- `native_width`: at the native width a display byte is eight pixels.
-/

namespace Koncepcja.Video

open Koncepcja.Bytes

/-! ## Addresses and pens -/

def vidByteAddr (ma : UInt16) (ra k : UInt8) : UInt16 :=
  (ma &&& (0x3000 : UInt16)) <<< (2 : UInt16) ||| (ra &&& 0x07).toUInt16 <<< (11 : UInt16) |||
    (ma &&& (0x03FF : UInt16)) <<< (1 : UInt16) ||| (k &&& 1).toUInt16

def bit (byte n : UInt8) : UInt8 := byte >>> n &&& 1

/-- `vid_decode`: the pens of a display byte, from left to right. -/
def vidDecode (mode b : UInt8) : List UInt8 :=
  if mode = 0 then
    [bit b 1 <<< 3 ||| bit b 5 <<< 2 ||| bit b 3 <<< 1 ||| bit b 7,
      bit b 0 <<< 3 ||| bit b 4 <<< 2 ||| bit b 2 <<< 1 ||| bit b 6]
  else if mode = 1 then ([0, 1, 2, 3] : List UInt8).map fun k => bit b (3 - k) <<< 1 ||| bit b (7 - k)
  else if mode = 3 then [bit b 3 <<< 1 ||| bit b 7, bit b 2 <<< 1 ||| bit b 6]
  else ([0, 1, 2, 3, 4, 5, 6, 7] : List UInt8).map fun k => bit b (7 - k)

/-- `plus_decode_cell`: the sixteen columns of a cell, each with its background pen. -/
def plusDecodeCell (mode byte0 byte1 : UInt8) : List UInt8 :=
  let pens := [byte0, byte1].flatMap fun byte =>
    (vidDecode mode byte).flatMap fun pen => List.replicate (8 / (vidDecode mode byte).length) pen
  let filled := pens.take 16
  filled ++ List.replicate (16 - filled.length) 0

/-! ## The tables of `VidDecodeLut` -/

/-- `count`: the pens of a byte, which the mode alone decides; the last byte's stays. -/
def lutCount (m : UInt8) : Nat := (vidDecode m 255).length

/-- `pens`. -/
def lutPens (m byte : UInt8) : List UInt8 := vidDecode m byte

/-- `cols`: the half of the cell that the first byte fills. -/
def lutCols (m byte : UInt8) : List UInt8 := (plusDecodeCell m byte 0).take 8

theorem lutCount_cases (m : UInt8) : lutCount m = 2 ∨ lutCount m = 4 ∨ lutCount m = 8 := by
  unfold lutCount vidDecode
  split
  · exact .inl rfl
  · split
    · exact .inr (.inl rfl)
    · split
      · exact .inl rfl
      · exact .inr (.inr rfl)

/-! ## Colours -/

def kPalette : List (List UInt8) :=
  [[128, 128, 128], [128, 128, 128], [0, 255, 128], [255, 255, 128],
    [0, 0, 128], [255, 0, 128], [0, 128, 128], [255, 128, 128],
    [255, 0, 128], [255, 255, 128], [255, 255, 0], [255, 255, 255],
    [255, 0, 0], [255, 0, 255], [255, 128, 0], [255, 128, 255],
    [0, 0, 128], [0, 255, 128], [0, 255, 0], [0, 255, 255],
    [0, 0, 0], [0, 0, 255], [0, 128, 0], [0, 128, 255],
    [128, 0, 128], [128, 255, 128], [128, 255, 0], [128, 255, 255],
    [128, 0, 0], [128, 0, 255], [128, 128, 0], [128, 128, 255]]

def vidHwRgb (colour : UInt8) : List UInt8 := kPalette.getD (colour &&& 0x1F).toNat []

/-- What the video device reads of the Gate Array: the latched screen mode, and the hardware colour
    of each pen and of the border, which is pen 16. -/
structure GateArrayRegs where
  mode : UInt8 := 1
  ink : List UInt8 := List.replicate 17 0
  deriving DecidableEq, Repr

/-! ## The classic painters -/

/-- A run of pixels of one colour. -/
def fillRun (rgb : List UInt8) (w : Nat) : List UInt8 := (List.replicate w rgb).flatten

/-- `paint_byte_classic`: the pens of a byte through the inks, each `pw` pixels wide. -/
def paintByteClassic (g : GateArrayRegs) (m byte : UInt8) (pw : Nat) : List UInt8 :=
  ((lutPens m byte).take (lutCount m)).flatMap fun pen => fillRun (vidHwRgb (byteAt g.ink pen.toNat)) pw

/-- At the native width, sixteen pixels to a cell, the pens of a byte fill eight. -/
theorem native_width (m : UInt8) : lutCount m * (8 / lutCount m) = 8 := by
  rcases lutCount_cases m with h | h | h <;> rw [h]

end Koncepcja.Video
