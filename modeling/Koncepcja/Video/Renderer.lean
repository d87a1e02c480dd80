import Koncepcja.Lib.Memo
import Koncepcja.Video.Crtc
import Koncepcja.Video.Pixels

/-!
# The Video Device

The live half of `src/hw/video.cpp`: the beam that follows the sync edges, the Plus line snapshot,
the two cell painters, the tick on the bus, and the batch renderer that consumes a run of CRTC
character views.

The Gate Array and the ASIC are other devices: a call sees them as they stand when it is made.
-/

namespace Koncepcja.Video

open Koncepcja.Bytes

/-! ## The devices it reads -/

/-- The part of `asic_state` behind `asic_vid_active`, `asic_vid_gen`, `asic_vid_scroll`,
    `asic_vid_palette`, `asic_vid_palette_set`, `asic_vid_sprite_attr` and `asic_vid_sprite_pixel`. -/
structure AsicState where
  plugged : Bool := false
  vidGen : UInt32 := 1
  hscroll : UInt8 := 0
  palR : List UInt8 := List.replicate 32 0
  palG : List UInt8 := List.replicate 32 0
  palB : List UInt8 := List.replicate 32 0
  palSet : List UInt8 := List.replicate 32 0
  spriteX : List UInt16 := List.replicate 16 0
  spriteY : List UInt16 := List.replicate 16 0
  spriteMx : List UInt8 := List.replicate 16 0
  spriteMy : List UInt8 := List.replicate 16 0
  spritePx : Nat → Nat → Nat → UInt8 := fun _ _ _ => 0

/-- `asic_vid_palette`: an entry as 12-bit RGB. -/
def AsicState.vidPalette (a : AsicState) (index : Nat) : UInt16 :=
  (byteAt a.palR index).toUInt16 <<< (8 : UInt16) ||| (byteAt a.palG index).toUInt16 <<< (4 : UInt16) |||
    (byteAt a.palB index).toUInt16

/-- What the pointers of `video_attach` and `video_attach_asic` lead to. -/
structure Devices where
  gateArray : Option GateArrayRegs := none
  asic : Option AsicState := none

/-! ## State -/

/-- A sprite on the line, one entry of the `lc_` arrays. -/
structure LineSprite where
  sx : Int
  xend : Int
  id : Nat
  row : Nat
  shift : Nat
  deriving DecidableEq, Repr

/-- The beam and the Plus line snapshot; of the `lc_` arrays only the first `lc_n` entries. -/
structure VideoBeam where
  beamCol : Int := 0
  beamRow : Int := 0
  frames : UInt32 := 0
  plusActive : Bool := false
  dispChar : Int := 0
  firstActiveRow : Int := -1
  sprX : List UInt16 := List.replicate 16 0
  sprY : List UInt16 := List.replicate 16 0
  sprMx : List UInt8 := List.replicate 16 0
  sprMy : List UInt8 := List.replicate 16 0
  palR : List UInt8 := List.replicate 32 0
  palG : List UInt8 := List.replicate 32 0
  palB : List UInt8 := List.replicate 32 0
  palSet : List UInt8 := List.replicate 32 0
  hscroll : UInt8 := 0
  prevPen : List UInt8 := List.replicate 16 0
  lc : List LineSprite := []
  lineRgb : List (List UInt8) := List.replicate 32 [0, 0, 0]
  deriving DecidableEq, Repr

/-- `video_state`. The fields up to `snapGen` are the wiring and the caches, which a save leaves
    out; `cells` is `cc_rgb` with its fill bitmap `cc_valid`, by mode and byte. -/
structure VideoState where
  fb : Option (List UInt8) := none
  fbW : Nat := 0
  fbH : Nat := 0
  cells : Memo (UInt8 × UInt8) (List UInt8) := ⟨fun _ => List.replicate 24 0, fun _ => false⟩
  ccBorder : List UInt8 := List.replicate 48 0
  snapGen : UInt32 := 0xFFFFFFFF
  beam : VideoBeam := {}
  fetch0 : UInt8 := 0
  hsyncPrev : Bool := false
  vsyncPrev : Bool := false

/-- `kVisChars`: the visible columns. -/
def kVisChars : Nat := 48

/-- `kVBackPorch`: the scanlines above the visible window. -/
def kVBackPorch : Int := 36

/-! ## The Plus line -/

namespace VideoBeam

/-- The registers a new generation of the ASIC brings; an entry that is not programmed keeps its
    old expansion, which nothing reads. -/
def snapshot (b : VideoBeam) (a : AsicState) : VideoBeam :=
  let palR := (List.range 32).map fun e => (a.vidPalette e >>> (8 : UInt16) &&& (0x0F : UInt16)).toUInt8
  let palG := (List.range 32).map fun e => (a.vidPalette e >>> (4 : UInt16) &&& (0x0F : UInt16)).toUInt8
  let palB := (List.range 32).map fun e => (a.vidPalette e &&& (0x0F : UInt16)).toUInt8
  let palSet := (List.range 32).map fun e => byteAt a.palSet e
  { b with
    hscroll := a.hscroll
    sprX := (List.range 16).map fun i => a.spriteX.getD i 0
    sprY := (List.range 16).map fun i => a.spriteY.getD i 0
    sprMx := (List.range 16).map fun i => byteAt a.spriteMx i
    sprMy := (List.range 16).map fun i => byteAt a.spriteMy i
    palR := palR
    palG := palG
    palB := palB
    palSet := palSet
    lineRgb := (List.range 32).map fun e =>
      if byteAt palSet e ≠ 0 then [byteAt palR e * 17, byteAt palG e * 17, byteAt palB e * 17]
      else b.lineRgb.getD e [] }

/-- Sprite `i`, when it is switched on and scanline `py` of the picture crosses it. -/
def lineSprite (b : VideoBeam) (py : Int) (i : Nat) : Option LineSprite :=
  let mx : Int := (byteAt b.sprMx i).toNat
  let my : Int := (byteAt b.sprMy i).toNat
  let sy : Int := (b.sprY.getD i 0).toNat
  let sx : Int := (b.sprX.getD i 0).toNat
  if mx = 0 ∨ my = 0 then none
  else if py < sy ∨ sy + 16 * my ≤ py then none
  else
    some
      { sx := (Int16.ofInt sx).toInt
        xend := (Int16.ofInt (sx + 16 * mx)).toInt
        id := i
        row := ((py - sy) / my).toNat
        shift := if mx = 4 then 2 else if mx = 2 then 1 else 0 }

/-- The sprites of the line, sprite 0 first. -/
def cullSprites (b : VideoBeam) : VideoBeam :=
  let py := if b.firstActiveRow < 0 then 0 else b.beamRow - b.firstActiveRow
  { b with lc := (List.range 16).filterMap (b.lineSprite py) }

def plusIndexRgb (b : VideoBeam) (g : GateArrayRegs) (index : Nat) : List UInt8 :=
  if byteAt b.palSet index ≠ 0 then
    [byteAt b.palR index * 17, byteAt b.palG index * 17, byteAt b.palB index * 17]
  else if index ≤ 16 then vidHwRgb (byteAt g.ink index)
  else [0, 0, 0]

/-- The pixel of an index: the line's expansion of a programmed entry, else `plus_index_rgb`. -/
def lineIndexRgb (b : VideoBeam) (g : GateArrayRegs) (index : Nat) : List UInt8 :=
  if byteAt b.palSet index ≠ 0 then b.lineRgb.getD index [] else b.plusIndexRgb g index

/-- `paint_byte_plus`: a display byte through the line snapshot, and whether every pixel of it is a
    programmed entry. -/
def paintBytePlus (b : VideoBeam) (g : GateArrayRegs) (m byte : UInt8) : List UInt8 × Bool :=
  ((lutCols m byte).flatMap fun pen => b.lineIndexRgb g pen.toNat,
    (lutCols m byte).all fun pen => byteAt b.palSet pen.toNat != 0)

/-- The sprites that overlap the cell at the beam, `charW` pixels wide. -/
def cellSprites (b : VideoBeam) (charW : Nat) : List LineSprite :=
  b.lc.filter fun c => !(decide (b.dispChar * 16 + charW ≤ c.sx) || decide (c.xend ≤ b.dispChar * 16))

/-- The background pen of column `lx` under the horizontal soft scroll. -/
def backgroundPen (b : VideoBeam) (cellPen : List UInt8) (lx : Nat) : UInt8 :=
  let src : Int := lx - b.hscroll.toNat
  if 0 ≤ src then byteAt cellPen (if src < 16 then src.toNat else 15) else byteAt b.prevPen ((16 + src) % 16).toNat

/-- The palette index of column `lx`: the first sprite that is opaque there, else the background. -/
def pixelIndex (b : VideoBeam) (asic : Option AsicState) (sprites : List LineSprite) (cellPen : List UInt8)
    (lx : Nat) : Nat :=
  let opaqueAt := fun c : LineSprite =>
    let dx : Int := b.dispChar * 16 + lx - c.sx
    let col := dx.toNat >>> c.shift
    if dx < 0 ∨ 16 ≤ col then none
    else
      match asic with
      | some a => if a.spritePx c.id col c.row ≠ 0 then some (16 + (a.spritePx c.id col c.row).toNat) else none
      | none => none
  (sprites.findSome? opaqueAt).getD (b.backgroundPen cellPen lx).toNat

/-- The first active line of a frame is the origin of the sprites. -/
def markActiveRow (b : VideoBeam) : VideoBeam := if b.firstActiveRow < 0 then { b with firstActiveRow := b.beamRow } else b

/-- A frame starts at the rise of VSYNC, a scanline at the rise of HSYNC; VSYNC wins. -/
def rises (b : VideoBeam) (vsRise hsRise : Bool) : VideoBeam :=
  if vsRise then { b with frames := b.frames + 1, beamRow := -kVBackPorch, firstActiveRow := -1 }
  else if hsRise then { b with beamRow := b.beamRow + 1 }
  else b

/-- The left edge of a line. -/
def leftEdge (b : VideoBeam) : VideoBeam := { b with beamCol := 0, dispChar := 0, prevPen := List.replicate 16 0 }

@[simp] theorem plusActive_cullSprites (b : VideoBeam) : b.cullSprites.plusActive = b.plusActive := rfl

@[simp] theorem plusActive_snapshot (b : VideoBeam) (a : AsicState) : (b.snapshot a).plusActive = b.plusActive := rfl

@[simp] theorem plusActive_leftEdge (b : VideoBeam) : b.leftEdge.plusActive = b.plusActive := rfl

@[simp] theorem plusActive_markActiveRow (b : VideoBeam) : b.markActiveRow.plusActive = b.plusActive := by
  unfold markActiveRow
  split <;> rfl

@[simp] theorem plusActive_rises (b : VideoBeam) (vsRise hsRise : Bool) : (b.rises vsRise hsRise).plusActive = b.plusActive := by
  cases vsRise with
  | true => rfl
  | false => cases hsRise <;> rfl

end VideoBeam

namespace VideoState

/-- The width of a cell. -/
def charW (v : VideoState) : Nat := v.fbW / kVisChars

/-- Store pixels from a byte of the framebuffer on. -/
def blit (v : VideoState) (pos : Nat) (px : List UInt8) : VideoState :=
  { v with fb := v.fb.map fun fb => overwrite fb pos px }

/-- The first byte of column `x0` on the row of the beam. -/
def pixelAt (v : VideoState) (x0 : Nat) : Nat := (v.beam.beamRow.toNat * v.fbW + x0) * 3

/-- Paint a display byte from its cache slot, which is filled first where it is not held. -/
def paintCached (v : VideoState) (m byte : UInt8) (made : List UInt8 × Bool) (pos : Nat) : VideoState :=
  let cells := v.cells.fetch (m, byte) made
  { v with cells := cells }.blit pos (cells.slots (m, byte))

def plusRefreshLine (v : VideoState) (asic : Option AsicState) : VideoState :=
  match asic.filter (·.plugged) with
  | none =>
    -- the edge to a classic machine hands the cache back clean and drops the snapshot
    if v.beam.plusActive then
      { v with
        cells := v.cells.clear
        snapGen := 0xFFFFFFFF
        beam := { v.beam with plusActive := false } }
    else v
  | some a =>
    if v.beam.plusActive && a.vidGen == v.snapGen then { v with beam := v.beam.cullSprites }
    else
      { v with
        cells := v.cells.clear
        snapGen := a.vidGen
        beam := ({ v.beam with plusActive := true }.snapshot a).cullSprites }

/-! ## Cells -/

/-- `render_cell_plus`. The colours that a cell resolves lazily are not kept apart: each is a
    function of its index. -/
def renderCellPlus (v : VideoState) (g : GateArrayRegs) (asic : Option AsicState) (mode : UInt8) (dispen : Bool)
    (byte1 : UInt8) (x0 charW : Nat) : VideoState :=
  if dispen then
    let b := v.beam.markActiveRow
    let v := { v with beam := b }
    let pos := v.pixelAt x0
    let m := mode &&& 3
    let sprites := b.cellSprites charW
    if b.hscroll = 0 ∧ sprites = [] ∧ charW = 16 then
      let v := v.paintCached m v.fetch0 (b.paintBytePlus g m v.fetch0) pos
      let v := v.paintCached m byte1 (b.paintBytePlus g m byte1) (pos + 24)
      { v with beam := { b with dispChar := b.dispChar + 1 } }
    else
      let cellPen := lutCols m v.fetch0 ++ lutCols m byte1
      let v := v.blit pos
        ((List.range charW).flatMap fun lx => b.lineIndexRgb g (b.pixelIndex asic sprites cellPen lx))
      { v with beam := { b with prevPen := cellPen, dispChar := b.dispChar + 1 } }
  else v.blit (v.pixelAt x0) (fillRun (v.beam.lineIndexRgb g 16) charW)

def renderCellClassic (v : VideoState) (g : GateArrayRegs) (mode : UInt8) (dispen : Bool) (byte0 byte1 : UInt8)
    (x0 charW : Nat) : VideoState :=
  if dispen then
    let m := mode &&& 3
    let n := lutCount m
    let pw := charW / 2 / n
    (v.blit (v.pixelAt x0) (paintByteClassic g m byte0 pw)).blit (v.pixelAt x0 + n * pw * 3) (paintByteClassic g m byte1 pw)
  else v.blit (v.pixelAt x0) (fillRun (vidHwRgb (byteAt g.ink 16)) charW)

/-- Is the cell at the beam on the canvas? -/
def visible (v : VideoState) (hsync vsync : Bool) : Bool :=
  !hsync && !vsync && decide (0 ≤ v.beam.beamCol) && decide (v.beam.beamCol < kVisChars) && decide (0 ≤ v.beam.beamRow) &&
    decide (v.beam.beamRow < v.fbH)

/-- The beam moves by one column. -/
def nextCol (v : VideoState) : VideoState := { v with beam := { v.beam with beamCol := v.beam.beamCol + 1 } }

/-! ## Ticks -/

/-- What the device sees of the bus. -/
structure Bus where
  hsync : Bool := false
  vsync : Bool := false
  dispen : Bool := false
  phase : Nat := 0
  ramData : UInt8 := 0
  deriving DecidableEq, Repr

def renderChar (v : VideoState) (dev : Devices) (bus : Bus) (byte1 : UInt8) : VideoState :=
  if v.visible bus.hsync bus.vsync then
    match dev.gateArray with
    | none => v
    | some g =>
      let x0 := v.beam.beamCol.toNat * v.charW
      if v.beam.plusActive then v.renderCellPlus g dev.asic g.mode bus.dispen byte1 x0 v.charW
      else v.renderCellClassic g g.mode bus.dispen v.fetch0 byte1 x0 v.charW
  else v

/-- The edge rules: the rises, and at the fall of HSYNC the left edge and the snapshot of the line. -/
def moveBeam (v : VideoState) (asic : Option AsicState) (vsRise hsRise hsFall : Bool) : VideoState :=
  if hsFall then { v with beam := (v.beam.rises vsRise hsRise).leftEdge }.plusRefreshLine asic
  else { v with beam := v.beam.rises vsRise hsRise }

/-- `video_tick`. -/
def tick (v : VideoState) (dev : Devices) (bus : Bus) : VideoState :=
  if dev.gateArray.isNone || v.fb.isNone then v
  else
    let hsRise := bus.hsync && !v.hsyncPrev
    let hsFall := !bus.hsync && v.hsyncPrev
    let vsRise := bus.vsync && !v.vsyncPrev
    let v := { v with hsyncPrev := bus.hsync, vsyncPrev := bus.vsync }.moveBeam dev.asic vsRise hsRise hsFall
    let v := if bus.phase = 13 then { v with fetch0 := bus.ramData } else v
    if bus.phase = 15 then (v.renderChar dev bus bus.ramData).nextCol else v

/-! ## Batches -/

/-- `CrtcCharView` with the mode stamped into it. -/
structure StampedView extends Crtc.CharView where
  mode : UInt8
  deriving DecidableEq, Repr

/-- The display bytes of a view. -/
def viewByte (ram : UInt16 → UInt8) (view : StampedView) (k : UInt8) : UInt8 := ram (vidByteAddr view.ma view.ra k)

/-- A visible cell of a batch. -/
def batchPaint (v : VideoState) (g : GateArrayRegs) (asic : Option AsicState) (ram : UInt16 → UInt8) (ccOn : Bool)
    (view : StampedView) : VideoState :=
  let charW := v.charW
  let x0 := v.beam.beamCol.toNat * charW
  let byte0 := if view.dispen then viewByte ram view 0 else 0
  let byte1 := if view.dispen then viewByte ram view 1 else 0
  if v.beam.plusActive then
    let v := if view.dispen then { v with fetch0 := byte0 } else v
    v.renderCellPlus g asic view.mode view.dispen byte1 x0 charW
  else if ccOn then
    let pos := v.pixelAt (v.beam.beamCol.toNat * 16)
    if view.dispen then
      let m := view.mode &&& 3
      let made := fun byte => (paintByteClassic g m byte (8 / lutCount m), true)
      (v.paintCached m byte0 (made byte0) pos).paintCached m byte1 (made byte1) (pos + 24)
    else v.blit pos v.ccBorder
  else v.renderCellClassic g view.mode view.dispen byte0 byte1 x0 charW

/-- One view of a batch. -/
def batchCell (g : GateArrayRegs) (asic : Option AsicState) (ram : UInt16 → UInt8) (ccOn : Bool) (v : VideoState)
    (view : StampedView) : VideoState :=
  let v := v.moveBeam asic view.vsyncRise view.hsyncRise view.hsyncFall
  (if v.visible view.hsync view.vsync then v.batchPaint g asic ram ccOn view else v).nextCol

/-- Is the classic cell cache in use in a batch that starts here? -/
def ccOn (v : VideoState) : Bool := !v.beam.plusActive && v.charW == 16

/-- The caches of a batch: they belong to its inks. -/
def openCells (v : VideoState) (g : GateArrayRegs) : VideoState :=
  if v.ccOn then { v with cells := v.cells.clear, ccBorder := fillRun (vidHwRgb (byteAt g.ink 16)) 16 } else v

/-- `video_batch_cells`. -/
def batchCells (v : VideoState) (dev : Devices) (ram : UInt16 → UInt8) (views : List StampedView) : VideoState :=
  match dev.gateArray, views.getLast? with
  | some g, some last =>
    if v.fb.isNone then v
    else { views.foldl (batchCell g dev.asic ram v.ccOn) (v.openCells g) with fetch0 := viewByte ram last 0 }
  | _, _ => v

/-- `video_batch_set_sync`. -/
def batchSetSync (v : VideoState) (hsync vsync : Bool) : VideoState :=
  { v with hsyncPrev := hsync, vsyncPrev := vsync }

/-! ## Reset and saved states -/

/-- `video_reset`. -/
def reset (v : VideoState) : VideoState :=
  { v with
    hsyncPrev := false
    vsyncPrev := false
    beam :=
      { v.beam with
        beamCol := 0, beamRow := 0, frames := 0, plusActive := false, dispChar := 0, firstActiveRow := -1 } }

/-- What `video_save` writes: the fields from `beam_col` on. -/
structure Saved where
  beam : VideoBeam
  fetch0 : UInt8
  hsyncPrev : Bool
  vsyncPrev : Bool
  deriving DecidableEq

/-- `video_save`, without the byte layout. -/
def save (v : VideoState) : Saved := ⟨v.beam, v.fetch0, v.hsyncPrev, v.vsyncPrev⟩

/-- `video_load`. -/
def load (v : VideoState) (s : Saved) : VideoState :=
  { v with beam := s.beam, fetch0 := s.fetch0, hsyncPrev := s.hsyncPrev, vsyncPrev := s.vsyncPrev }

end VideoState

end Koncepcja.Video
