import Koncepcja.Lib.ByteBuf

/-!
# The CRTC

The 6845 of `src/hw/crtc.cpp`, types 0 to 3: the character step with its four nested counters, the
register file behind the bus, and the per-character views the batched renderer reads.

The ASIC is seen through the registers the CRTC asks it for. Its own behaviour, the light pen's
strobe line and the byte layout of a saved state are not modelled.
-/

namespace Koncepcja.Video

open Koncepcja.Bytes

/-! ## State -/

/-- What the CRTC asks of an attached ASIC: `asic_vid_active`, `asic_vid_split`,
    `asic_vid_extend_border` and `asic_vid_scroll`. -/
structure AsicVid where
  active : Bool := false
  splitLine : UInt8 := 0
  splitAddr : UInt16 := 0
  extendBorder : Bool := false
  vscroll : UInt8 := 0
  deriving DecidableEq, Repr

/-- `crtc_state`. -/
structure Crtc where
  reg : List UInt8 := List.replicate 18 0
  regSelect : UInt8 := 0
  type : UInt8 := 0
  hcc : UInt8 := 0
  ra : UInt8 := 0
  vcc : UInt8 := 0
  hsw : UInt8 := 0
  vsw : UInt8 := 0
  vta : UInt8 := 0
  inHsync : Bool := false
  inVsync : Bool := false
  inVta : Bool := false
  r7match : Bool := false
  dispen : Bool := false
  maRow : UInt16 := 0
  ma : UInt16 := 0
  asic : Option AsicVid := none
  scanline : UInt16 := 0
  plusSplit : Bool := false
  splitSlSnap : UInt16 := 0
  splitAddrSnap : UInt16 := 0
  deriving DecidableEq, Repr

/-- `kRegWMask`: the bits of each register that exist. -/
def kRegWMask : List UInt8 :=
  [0xFF, 0xFF, 0xFF, 0xFF, 0x7F, 0x1F, 0x7F, 0x7F, 0xFF, 0x1F, 0x7F, 0x1F, 0x3F, 0xFF, 0x3F, 0xFF]

namespace Crtc

/-- A register. -/
def r (c : Crtc) (i : Nat) : UInt8 := byteAt c.reg i

/-- The start address in R12 and R13. -/
def startAddr (c : Crtc) : UInt16 := ((c.r 12).toUInt16 <<< (8 : UInt16) ||| (c.r 13).toUInt16) &&& (0x3FFF : UInt16)

/-! ## What the type decides -/

/-- `hsync_width`: zero means sixteen on types 2 and 3, and no HSYNC at all on types 0 and 1. -/
def hsyncWidth (c : Crtc) : UInt8 :=
  let w := c.r 3 &&& 0x0F
  if w = 0 ∧ (c.type = 2 ∨ c.type = 3) then 16 else w

/-- `vsync_width`: sixteen lines on types 1 and 2, and where R3 has zero. -/
def vsyncWidth (c : Crtc) : UInt8 :=
  if c.type = 1 ∨ c.type = 2 then 16
  else
    let w := c.r 3 >>> 4
    if w = 0 then 16 else w

/-- The ASIC, when it is plugged in. -/
def activeAsic (c : Crtc) : Option AsicVid := c.asic.filter (·.active)

/-- `disp_skew`; `none` switches the display off. -/
def dispSkew (c : Crtc) : Option UInt8 :=
  if c.type = 1 ∨ c.type = 2 then some 0
  else
    let s := c.r 8 >>> 4 &&& 3
    if s = 3 then none
    else
      match c.activeAsic with
      | some a => some (if a.extendBorder then s + 1 else s)
      | none => some s

/-! ## Lines, rows and frames -/

/-- `check_vsync_start`: VSYNC starts when the row counter comes to equal R7. -/
def checkVsyncStart (c : Crtc) : Crtc :=
  let hit := c.vcc == c.r 7
  if hit && !c.r7match && !c.inVsync then { c with inVsync := true, vsw := 0, r7match := hit }
  else { c with r7match := hit }

def snapshotSplit (c : Crtc) : Crtc :=
  match c.activeAsic with
  | some a =>
    if a.splitLine = 0 then { c with plusSplit := false }
    else
      { c with
        plusSplit := true
        splitSlSnap := a.splitLine.toUInt16
        splitAddrSnap := a.splitAddr &&& (0x3FFF : UInt16) }
  | none => { c with plusSplit := false }

/-- `apply_vscroll`: the fetch address and row of the Plus vertical soft scroll. -/
def applyVscroll (c : Crtc) (ma : UInt16) (ra : UInt8) : UInt16 × UInt8 :=
  match c.activeAsic with
  | some a =>
    if a.vscroll = 0 then (ma, ra)
    else
      let raEff := ra.toNat + a.vscroll.toNat
      if raEff ≤ (c.r 9).toNat then (ma, UInt8.ofNat raEff)
      else ((ma + (c.r 1).toUInt16) &&& (0x3FFF : UInt16), UInt8.ofNat (raEff - ((c.r 9).toNat + 1)))
  | none => (ma, ra)

/-- `crtc_newframe`. -/
def newframe (c : Crtc) : Crtc :=
  ({ c with vcc := 0, ra := 0, inVta := false, vta := 0, scanline := 0, maRow := c.startAddr }).snapshotSplit.checkVsyncStart

/-- `crtc_newrow`: the row behind, and whether that restarted the frame. -/
def newrow (c : Crtc) : Crtc × Bool :=
  let c := { c with maRow := (c.maRow + (c.r 1).toUInt16) &&& (0x3FFF : UInt16) }
  if c.vcc = c.r 4 then
    if c.r 5 ≠ 0 then ({ c with inVta := true, vta := 0 }, false) else (c.newframe, true)
  else (({ c with vcc := (c.vcc + 1) &&& 0x7F }).checkVsyncStart, false)

/-- A scanline of a VSYNC under way. -/
def vsyncLine (c : Crtc) : Crtc :=
  if c.inVsync then { c with vsw := c.vsw + 1, inVsync := !decide (c.vsyncWidth ≤ c.vsw + 1) } else c

/-- The raster counter at the end of a scanline, and whether that restarted the frame. -/
def rasterLine (c : Crtc) : Crtc × Bool :=
  if c.ra = c.r 9 then ({ c with ra := 0 }).newrow else ({ c with ra := (c.ra + 1) &&& 0x1F }, false)

/-- A scanline of the vertical total adjust. -/
def adjustLine (c : Crtc) : Crtc :=
  let c := { c with vta := c.vta + 1 }
  if c.r 5 ≤ c.vta then c.newframe else c

/-- `crtc_newscanline`. -/
def newscanline (c : Crtc) : Crtc :=
  let c := { c with scanline := c.scanline + 1 }
  let splitHere := c.plusSplit && c.scanline == c.splitSlSnap
  let c := c.vsyncLine
  if c.inVta then c.adjustLine
  else
    let (c, restarted) := c.rasterLine
    -- type 1 reads the start address again at every line of the first row
    let c := if c.type = 1 ∧ c.vcc = 0 then { c with maRow := c.startAddr } else c
    if splitHere && !restarted then { c with maRow := c.splitAddrSnap } else c

/-! ## One character -/

/-- HSYNC starts at R2 and runs its width; on a width of zero it never starts. -/
def hsyncChar (c : Crtc) : Crtc :=
  if c.hcc = c.r 2 ∧ c.hsyncWidth ≠ 0 then { c with inHsync := true, hsw := 0 }
  else if c.inHsync then { c with hsw := c.hsw + 1, inHsync := !decide (c.hsyncWidth ≤ c.hsw + 1) }
  else c

/-- The display window at character `h`. -/
def displays (c : Crtc) (h : Nat) : Bool :=
  match c.dispSkew with
  | none => false
  | some skew => decide (skew.toNat ≤ h) && decide (h < skew.toNat + (c.r 1).toNat) && decide (c.vcc < c.r 6)

/-- The address and the display enable of a character. -/
def displayChar (c : Crtc) : Crtc :=
  { c with ma := (c.maRow + c.hcc.toUInt16) &&& (0x3FFF : UInt16), dispen := c.displays c.hcc.toNat }

/-- `crtc_char`. -/
def char (c : Crtc) : Crtc :=
  let c := c.hsyncChar.displayChar
  if c.hcc = c.r 0 then ({ c with hcc := 0 }).newscanline else { c with hcc := c.hcc + 1 }

/-- `n` characters. -/
def chars : Nat → Crtc → Crtc
  | 0, c => c
  | n + 1, c => chars n c.char

/-! ## The register file -/

/-- `crtc_io_write_decode`, without the edge mask it reports. -/
def ioWrite (c : Crtc) (addr : UInt16) (data : UInt8) : Crtc :=
  if addr &&& (0x4000 : UInt16) ≠ 0 then c
  else
    let fn := addr >>> (8 : UInt16) &&& (3 : UInt16)
    if fn = 0 then { c with regSelect := data &&& 0x1F }
    else if fn = 1 ∧ c.regSelect < 16 then
      let c' := { c with reg := c.reg.set c.regSelect.toNat (data &&& byteAt kRegWMask c.regSelect.toNat) }
      if c.regSelect = 7 then c'.checkVsyncStart else c'
    else c

/-- `crtc_reset`: the type and the ASIC stay. -/
def reset (c : Crtc) : Crtc := { type := c.type, asic := c.asic }

/-- `crtc_set_type`. -/
def setType (c : Crtc) (type : UInt8) : Crtc := { c with type := type &&& 3 }

/-- What happens to a CRTC between two characters, and a character. -/
inductive Op where
  | char
  | ioWrite (addr : UInt16) (data : UInt8)
  | setType (type : UInt8)
  | asic (a : Option AsicVid)
  | reset
  deriving DecidableEq, Repr

/-- One step of a run. -/
def step (c : Crtc) : Op → Crtc
  | .char => c.char
  | .ioWrite addr data => c.ioWrite addr data
  | .setType type => c.setType type
  | .asic a => { c with asic := a }
  | .reset => c.reset

/-- The states a CRTC comes to from power-on. -/
def Reachable (c : Crtc) : Prop := ∃ ops : List Op, c = ops.foldl step {}

/-! ## Views -/

/-- `CrtcCharView`, without the mode the caller stamps into it. -/
structure CharView where
  ma : UInt16
  ra : UInt8
  hsync : Bool
  vsync : Bool
  dispen : Bool
  hsyncRise : Bool := false
  hsyncFall : Bool := false
  vsyncRise : Bool := false
  vsyncFall : Bool := false
  frameLine : UInt16
  deriving DecidableEq, Repr

/-- The view of the character that led from `c` to `c'`. -/
def view (c c' : Crtc) : CharView where
  ma := (c'.applyVscroll c'.ma c'.ra).1
  ra := (c'.applyVscroll c'.ma c'.ra).2
  hsync := c'.inHsync
  vsync := c'.inVsync
  dispen := c'.dispen
  hsyncRise := !c.inHsync && c'.inHsync
  hsyncFall := c.inHsync && !c'.inHsync
  vsyncRise := !c.inVsync && c'.inVsync
  vsyncFall := c.inVsync && !c'.inVsync
  frameLine := c'.scanline

/-- The views of `n` characters, one at a time. -/
def views : Nat → Crtc → List CharView
  | 0, _ => []
  | n + 1, c => c.view c.char :: views n c.char

theorem chars_add (m n : Nat) (c : Crtc) : chars (m + n) c = chars n (chars m c) := by
  induction m generalizing c with
  | zero => rw [Nat.zero_add]; rfl
  | succ m ih => rw [Nat.succ_add]; exact ih c.char

theorem views_add (m n : Nat) (c : Crtc) : views (m + n) c = views m c ++ views n (chars m c) := by
  induction m generalizing c with
  | zero => rw [Nat.zero_add]; rfl
  | succ m ih =>
    rw [Nat.succ_add]
    exact congrArg (c.view c.char :: ·) (ih c.char)

end Crtc

end Koncepcja.Video
