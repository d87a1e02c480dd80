import Koncepcja.Asic.Knock
import Mathlib.Logic.Function.Basic

/-!
# The Plus ASIC

`src/hw/asic.cpp`: the register page and its decoders, the raster and DMA interrupts, the DMA sound engine,
one master cycle of all of them, and the seams through which the fast tier drives the same chip.

The arrays of the source are functions of an index; the sequencer's arrays over the channels are one record
for each channel.

## Main definitions

- `decodeWrite`: a write to the register page.
- `dmaExec`, `dmaService`: one instruction of a channel, and one cycle of the engine.
- `asicIrq`: one cycle of the interrupts.
- `Chip.tick`: one cycle of the chip.
- `Chip.fastIoWrite`, `Chip.fastMemRead`, `Chip.fastMemWrite`, `Chip.batchFrameLine`, `Chip.batchIntAck`: the seams.
-/

namespace Koncepcja.Asic

/-! ## State -/

/-- A DMA channel: the registers that are programmed, and what the sequencer keeps. -/
structure Channel where
  source : UInt16 := 0
  prescaler : UInt8 := 0
  enabled : Bool := false
  /-- Where LOOP goes. -/
  loopAddr : UInt16 := 0
  loops : UInt16 := 0
  pauseTicks : UInt16 := 0
  /-- The part of a pause tick that has passed. -/
  tickCycles : UInt16 := 0
  int : Bool := false
  deriving DecidableEq, Repr

inductive DmaPhase where
  | idle
  | waitBusak
  | fetch0
  | fetch0W
  | fetch1
  | fetch1W
  | exec
  | psgSel
  | psgWr
  | advance
  deriving DecidableEq, Repr

/-- The engine's view of the beam: `dma_hsync_prev`, `dma_prev_hsw`, `dma_fired_this_line`. -/
structure Sync where
  hsyncPrev : Bool := false
  prevHsw : UInt8 := 0
  fired : Bool := false
  deriving DecidableEq, Repr

/-- A sprite's decoded attributes. -/
structure Sprite where
  x : UInt16 := 0
  y : UInt16 := 0
  mx : UInt8 := 0
  my : UInt8 := 0
  deriving DecidableEq, Repr

/-- A palette entry, and whether the Plus has programmed it. -/
structure Ink where
  r : UInt8 := 0
  g : UInt8 := 0
  b : UInt8 := 0
  set : Bool := false
  deriving DecidableEq, Repr

/-- `asic_state`, over its lock. -/
structure Chip extends AsicState where
  pgwrPrev : Bool := false
  classicPen : UInt8 := 0
  /-- The register page, raw. -/
  page : Nat → UInt8 := fun _ => 0
  priLine : UInt8 := 0
  splitLine : UInt8 := 0
  splitAddr : UInt16 := 0
  hscroll : UInt8 := 0
  vscroll : UInt8 := 0
  extendBorder : UInt8 := 0
  intVector : UInt8 := 1
  /-- Sprite, column, row. -/
  spritePx : Nat → Nat → Nat → UInt8 := fun _ _ _ => 0
  sprite : Nat → Sprite := fun _ => {}
  palette : Nat → Ink := fun _ => {}
  dma : Nat → Channel := fun _ => {}
  dmaPhase : DmaPhase := .idle
  dmaCur : Nat := 0
  dmaLo : UInt8 := 0
  dmaPsgR : UInt8 := 0
  dmaPsgV : UInt8 := 0
  sync : Sync := {}
  priPrevLine : UInt16 := 0xFFFF
  priPending : Bool := false
  vidGen : UInt32 := 1

/-- The lines that the ASIC reads. -/
structure Bus extends BusIn where
  rfsh : Bool := false
  busak : Bool := false
  frameLine : UInt16 := 0
  hsync : Bool := false
  /-- The CRTC's character clock. -/
  crtc : Bool := false
  hsw : UInt8 := 0
  deriving DecidableEq, Repr

/-! ## The register page -/

def decodeMag (val : UInt8) : UInt8 :=
  let mag := val &&& 0x03
  if mag = 3 then 4 else mag

/-- `kClassic4`: the hardware colours, as red, green and blue. -/
def kClassic4 : List (UInt8 × UInt8 × UInt8) :=
  [(8, 8, 8), (8, 8, 8), (0, 15, 8), (15, 15, 8), (0, 0, 8), (15, 0, 8), (0, 8, 8), (15, 8, 8), (15, 0, 8), (15, 15, 8),
    (15, 15, 0), (15, 15, 15), (15, 0, 0), (15, 0, 15), (15, 8, 0), (15, 8, 15), (0, 0, 8), (0, 15, 8), (0, 15, 0),
    (0, 15, 15), (0, 0, 0), (0, 0, 15), (0, 8, 0), (0, 8, 15), (8, 0, 8), (8, 15, 8), (8, 15, 0), (8, 15, 15),
    (8, 0, 0), (8, 0, 15), (8, 8, 0), (8, 8, 15)]

namespace Chip

def decodeSpritePixel (a : Chip) (addr : UInt16) (val : UInt8) : Chip :=
  let id := ((addr &&& 0x0F00) >>> 8).toNat
  let y := ((addr &&& 0x00F0) >>> 4).toNat
  let x := (addr &&& 0x000F).toNat
  let column := Function.update (a.spritePx id x) y (val &&& 0x0F)
  { a with spritePx := Function.update a.spritePx id (Function.update (a.spritePx id) x column) }

def decodeSpriteAttr (a : Chip) (addr : UInt16) (val : UInt8) : Chip :=
  let id := ((addr - 0x6000) >>> 3).toNat
  if 16 ≤ id then a
  else
    let s := a.sprite id
    let s :=
      match (addr &&& 0x07).toNat with
      | 0 => { s with x := (s.x &&& 0xFF00) ||| val.toUInt16 }
      | 1 => { s with x := (s.x &&& (0x00FF : UInt16)) ||| (val &&& 0x03).toUInt16 <<< 8 }
      | 2 => { s with y := (s.y &&& 0xFF00) ||| val.toUInt16 }
      | 3 => { s with y := (s.y &&& (0x00FF : UInt16)) ||| (val &&& 0x01).toUInt16 <<< 8 }
      | 4 => { s with mx := decodeMag (val >>> 2), my := decodeMag val }
      | _ => s
    { a with sprite := Function.update a.sprite id s }

def decodePalette (a : Chip) (addr : UInt16) (val : UInt8) : Chip :=
  let idx := ((addr &&& 0x3F) >>> 1).toNat
  let ink := a.palette idx
  let ink : Ink := if addr &&& 1 ≠ 0 then { ink with g := val &&& 0x0F } else { ink with r := (val &&& 0xF0) >>> 4, b := val &&& 0x0F }
  { a with palette := Function.update a.palette idx { ink with set := true } }

/-- `snoop_classic_palette`: pen select, and ink. -/
def snoopClassicPalette (a : Chip) (addr : UInt16) (data : UInt8) : Chip :=
  if addr &&& 0xC000 ≠ 0x4000 then a
  else
    match (data >>> 6).toNat with
    | 0 => { a with classicPen := if data &&& 0x10 ≠ 0 then 16 else data &&& 0x0F }
    | 1 =>
      let hw := kClassic4.getD (data &&& 0x1F).toNat (0, 0, 0)
      { a with
        vidGen := a.vidGen + 1
        palette := Function.update a.palette a.classicPen.toNat { r := hw.1, g := hw.2.1, b := hw.2.2, set := true } }
    | _ => a

def decodeConfig (a : Chip) (addr : UInt16) (val : UInt8) : Chip :=
  match addr.toNat with
  | 0x6800 => { a with priLine := val }
  | 0x6801 => { a with splitLine := val }
  | 0x6802 => { a with splitAddr := (a.splitAddr &&& (0x00FF : UInt16)) ||| val.toUInt16 <<< 8 }
  | 0x6803 => { a with splitAddr := (a.splitAddr &&& 0x3F00) ||| val.toUInt16 }
  | 0x6804 => { a with hscroll := val &&& 0x0F, vscroll := (val >>> 4) &&& 0x07, extendBorder := (val >>> 7) &&& 1 }
  | 0x6805 => { a with intVector := val &&& 0xF8 }
  | _ => a

def decodeDma (a : Chip) (addr : UInt16) (val : UInt8) : Chip :=
  if addr = 0x6C0F then
    { a with dma := fun c => if c < 3 then { a.dma c with enabled := (val >>> UInt8.ofNat c) &&& 1 != 0 } else a.dma c }
  else
    let c := ((addr &&& 0x0C) >>> 2).toNat
    if 3 ≤ c then a
    else
      let ch := a.dma c
      let ch :=
        match (addr &&& 0x03).toNat with
        | 0 => { ch with source := (ch.source &&& 0xFF00) ||| (val &&& 0xFE).toUInt16 }
        | 1 => { ch with source := (ch.source &&& (0x00FF : UInt16)) ||| val.toUInt16 <<< 8 }
        | 2 => { ch with prescaler := val }
        | _ => ch
      { a with dma := Function.update a.dma c ch }

/-- The decoder of a region of the page. -/
def decodeRegion (a : Chip) (addr : UInt16) (val : UInt8) : Chip :=
  if 0x4000 ≤ addr ∧ addr < 0x5000 then a.decodeSpritePixel addr val
  else if 0x6000 ≤ addr ∧ addr < 0x6080 then { a with vidGen := a.vidGen + 1 }.decodeSpriteAttr addr val
  else if 0x6400 ≤ addr ∧ addr < 0x6440 then { a with vidGen := a.vidGen + 1 }.decodePalette addr val
  else if 0x6800 ≤ addr ∧ addr < 0x6806 then { a with vidGen := a.vidGen + 1 }.decodeConfig addr val
  else if 0x6C00 ≤ addr ∧ addr ≤ 0x6C0F then a.decodeDma addr val
  else a

/-- Where an address is in the page. -/
def pageOffset (addr : UInt16) : Nat := (addr &&& 0x3FFF).toNat

def decodeWrite (a : Chip) (addr : UInt16) (val : UInt8) : Chip :=
  { a with page := Function.update a.page (pageOffset addr) val }.decodeRegion addr val

end Chip

/-! ## The DMA sound engine -/

/-- The opcode of an instruction. -/
def opcode (instr : UInt16) : UInt16 := (instr &&& 0x7000) >>> 12

def isLoad (instr : UInt16) : Bool := opcode instr == 0
def isPause (instr : UInt16) : Bool := opcode instr &&& 1 != 0
def isRepeat (instr : UInt16) : Bool := opcode instr &&& 2 != 0
def isLoop (instr : UInt16) : Bool := opcode instr &&& 4 != 0 && instr &&& 0x0001 != 0
def isInt (instr : UInt16) : Bool := opcode instr &&& 4 != 0 && instr &&& 0x0010 != 0
def isStop (instr : UInt16) : Bool := opcode instr &&& 4 != 0 && instr &&& 0x0020 != 0

namespace Channel

/-- What an instruction does to its channel, LOAD apart. -/
def exec (ch : Channel) (instr : UInt16) : Channel :=
  let ch : Channel := if isPause instr then { ch with pauseTicks := instr &&& 0x0FFF, tickCycles := 0 } else ch
  let ch : Channel := if isRepeat instr then { ch with loops := instr &&& 0x0FFF, loopAddr := ch.source + 2 } else ch
  let ch : Channel := if isLoop instr && decide (0 < ch.loops) then { ch with source := ch.loopAddr, loops := ch.loops - 1 } else ch
  let ch : Channel := if isInt instr then { ch with int := true } else ch
  if isStop instr then { ch with enabled := false } else ch

section Exec

variable (ch : Channel) (instr : UInt16)

@[simp] theorem exec_int : (ch.exec instr).int = (ch.int || isInt instr) := by
  simp only [exec, apply_ite Channel.int, ite_self]
  cases isInt instr <;> simp

@[simp] theorem exec_enabled : (ch.exec instr).enabled = (ch.enabled && !isStop instr) := by
  simp only [exec, apply_ite Channel.enabled, ite_self]
  cases isStop instr <;> simp

end Exec

/-- The channel wants to fetch. -/
def ready (ch : Channel) : Bool := ch.enabled && ch.pauseTicks == 0

/-- The countdown of a pause, at the start of a scanline. -/
def countdown (ch : Channel) : Channel :=
  if ch.enabled && ch.pauseTicks != 0 then
    if ch.tickCycles.toNat < ch.prescaler.toNat then { ch with tickCycles := ch.tickCycles + 1 }
    else { ch with tickCycles := 0, pauseTicks := ch.pauseTicks - 1 }
  else ch

end Channel

/-- The AY bus under the ASIC. -/
structure AyDrive where
  bdir : Bool
  bc1 : Bool
  da : UInt8
  deriving DecidableEq, Repr

/-- What the engine drives: whether it is the bus master, its request, the address that it reads, the AY bus. -/
structure DmaDrive where
  master : Bool := false
  busrq : Bool := false
  read : Option UInt16 := none
  ay : Option AyDrive := none
  deriving DecidableEq, Repr

/-- The edges of the beam: whether the engine is triggered. -/
def Sync.see (s : Sync) (bus : Bus) : Bool × Sync :=
  let rise := bus.hsync && !s.hsyncPrev
  let edge := bus.crtc && bus.hsw == 3 && s.prevHsw != 3
  (if bus.crtc then edge else rise,
    { hsyncPrev := bus.hsync, prevHsw := if bus.crtc then bus.hsw else s.prevHsw, fired := s.fired && !rise })

/-- The first channel from `cur` on that is ready, or the end. -/
def seek (dma : Nat → Channel) : (left cur : Nat) → Nat
  | 0, cur => cur
  | left + 1, cur => if (dma cur).ready then cur else seek dma left (cur + 1)

namespace Chip

/-- `dma_exec`: whether a LOAD is pending. -/
def dmaExec (a : Chip) (c : Nat) (instr : UInt16) : Bool × Chip :=
  if isLoad instr then
    (true, { a with dmaPsgR := ((instr &&& 0x0F00) >>> 8).toUInt8, dmaPsgV := (instr &&& 0x00FF).toUInt8 })
  else (false, { a with dma := Function.update a.dma c ((a.dma c).exec instr) })

/-- The DCSR: the enables, the channels' flags, the raster's. -/
def dcsr (a : Chip) : UInt8 :=
  let enables := fun c : Nat => if (a.dma c).enabled then (0x01 : UInt8) <<< UInt8.ofNat c else 0
  let flags := fun c : Nat => if (a.dma c).int then (0x40 : UInt8) >>> UInt8.ofNat c else 0
  enables 0 ||| flags 0 ||| enables 1 ||| flags 1 ||| enables 2 ||| flags 2 ||| if a.priPending then 0x80 else 0

def dmaWriteback (a : Chip) (c : Nat) : Chip :=
  let base := 0x2C00 + 4 * c
  let page := Function.update a.page base ((a.dma c).source &&& 0xFF).toUInt8
  let page := Function.update page (base + 1) (((a.dma c).source >>> 8) &&& 0xFF).toUInt8
  { a with page := Function.update page 0x2C0F a.dcsr }

def dmaSeek (a : Chip) : Bool × Chip :=
  let cur := seek a.dma (3 - a.dmaCur) a.dmaCur
  (decide (cur < 3), { a with dmaCur := cur })

/-- The next channel of the burst, or its end. -/
def dmaNext (a : Chip) : Chip :=
  let r := a.dmaSeek
  { r.2 with dmaPhase := if r.1 then .fetch0 else .idle }

/-- A channel wants the bus. -/
def needBus (a : Chip) : Bool := (a.dma 0).ready || (a.dma 1).ready || (a.dma 2).ready

/-- The pauses of all channels count down. -/
def countPauses (a : Chip) : Chip := { a with dma := fun c => if c < 3 then (a.dma c).countdown else a.dma c }

/-- The instruction that is complete with the byte on the bus. -/
def instruction (a : Chip) (bus : Bus) : UInt16 := a.dmaLo.toUInt16 ||| bus.data.toUInt16 <<< 8

/-- The current channel's source moves past its instruction. -/
def stepSource (a : Chip) : Chip :=
  { a with dma := Function.update a.dma a.dmaCur { a.dma a.dmaCur with source := (a.dma a.dmaCur).source + 2 } }

/-- The cycles of a burst. -/
def dmaBurst (a : Chip) (bus : Bus) : DmaDrive × Chip :=
  let src := (a.dma a.dmaCur).source
  match a.dmaPhase with
  | .idle => ({ master := true, busrq := true }, a)
  | .waitBusak =>
    if !bus.busak then ({ busrq := true }, a)
    else ({ master := a.dmaNext.dmaPhase != .idle, busrq := true }, a.dmaNext)
  | .fetch0 => ({ master := true, busrq := true, read := some src }, { a with dmaPhase := .fetch0W })
  | .fetch0W => ({ master := true, busrq := true, read := some src }, { a with dmaPhase := .fetch1 })
  | .fetch1 => ({ master := true, busrq := true, read := some (src + 1) }, { a with dmaLo := bus.data, dmaPhase := .fetch1W })
  | .fetch1W => ({ master := true, busrq := true, read := some (src + 1) }, { a with dmaPhase := .exec })
  | .exec =>
    let r := a.stepSource.dmaExec a.dmaCur (a.instruction bus)
    ({ master := true, busrq := true }, { r.2.dmaWriteback a.dmaCur with dmaPhase := if r.1 then .psgSel else .advance })
  | .psgSel =>
    ({ master := true, busrq := true, ay := some { bdir := true, bc1 := true, da := a.dmaPsgR } }, { a with dmaPhase := .psgWr })
  | .psgWr =>
    ({ master := true, busrq := true, ay := some { bdir := true, bc1 := false, da := a.dmaPsgV } }, { a with dmaPhase := .advance })
  | .advance => ({ master := true, busrq := true }, { a with dmaCur := a.dmaCur + 1 }.dmaNext)

theorem dmaBurst_exec {a : Chip} (h : a.dmaPhase = .exec) (bus : Bus) : a.dmaBurst bus =
    ({ master := true, busrq := true },
      { (a.stepSource.dmaExec a.dmaCur (a.instruction bus)).2.dmaWriteback a.dmaCur with
        dmaPhase := if (a.stepSource.dmaExec a.dmaCur (a.instruction bus)).1 then .psgSel else .advance }) := by
  rw [dmaBurst, h]

/-- `dma_service`: once a scanline the pauses count down, and a burst begins if a channel is ready. -/
def dmaService (a : Chip) (bus : Bus) : DmaDrive × Chip :=
  let seen := a.sync.see bus
  let a : Chip := { a with sync := seen.2 }
  if a.dmaPhase = .idle then
    if !seen.1 || a.sync.fired then ({}, a)
    else
      let a : Chip := { a with sync := { a.sync with fired := true } }
      if a.needBus then { a.countPauses with dmaCur := 0, dmaPhase := .waitBusak }.dmaBurst bus else ({}, a.countPauses)
  else a.dmaBurst bus

end Chip

/-! ## Interrupts -/

namespace Chip

/-- The beam is on a line: the raster interrupt fires as its line is reached. -/
def reachLine (a : Chip) (line : UInt16) : Chip :=
  { a with
    priPending := a.priPending || (a.priLine != 0 && line == a.priLine.toUInt16 && a.priPrevLine != line)
    priPrevLine := line }

/-- Bit 7 of the DCSR is the raster's flag. -/
def mirrorRaster (a : Chip) : Chip :=
  { a with page := Function.update a.page 0x2C0F ((a.page 0x2C0F &&& 0x7F) ||| if a.priPending then 0x80 else 0) }

/-- A channel's flag is up. -/
def dmaInt (a : Chip) : Bool := (a.dma 0).int || (a.dma 1).int || (a.dma 2).int

/-- The code of the source that an acknowledge takes: raster before channel 2 before 1 before 0. -/
def irqSource (a : Chip) : UInt8 :=
  if a.priPending then 6 else if (a.dma 2).int then 0 else if (a.dma 1).int then 2 else if (a.dma 0).int then 4 else 0

/-- An acknowledge clears the sources. -/
def clearSources (a : Chip) : Chip :=
  { a with priPending := false, dma := fun c => if c < 3 then { a.dma c with int := false } else a.dma c }

end Chip

/-- What the interrupts drive: the vector, and the line. -/
structure IrqDrive where
  vector : Option UInt8 := none
  irq : Bool := false
  deriving DecidableEq, Repr

def asicIrq (a : Chip) (bus : Bus) : IrqDrive × Chip :=
  let a := (a.reachLine bus.frameLine).mirrorRaster
  if bus.m1 && bus.iorq then
    ({ vector := if a.priPending || a.dmaInt then some (a.intVector ||| a.irqSource) else none }, a.clearSources)
  else ({ irq := a.priPending || a.dmaInt }, a)

/-! ## One master cycle -/

structure ChipDrive where
  data : Option UInt8 := none
  ramdis : Bool := false
  irq : Bool := false
  dma : DmaDrive := {}
  deriving DecidableEq, Repr

namespace Chip

/-- The register page is unlocked and paged in. -/
def armed (a : Chip) : Bool := pageArmed a.toAsicState

/-- An address is in the page. -/
def inPage (addr : UInt16) : Bool := decide (0x4000 ≤ addr) && decide (addr < 0x8000)

/-- The knock, the classic inks and RMR2: what a cycle of a port write does. -/
def ioCycle (a : Chip) (bus : Bus) : Chip :=
  let a : Chip := if bus.knock && !a.knockPrev then { a with toAsicState := feedKnock a.toAsicState bus.data } else a
  let a : Chip := { a with knockPrev := bus.knock }
  let a := if bus.iorq && bus.wr then a.snoopClassicPalette bus.addr bus.data else a
  if bus.iorq && bus.wr then { a with toAsicState := mapPage a.toAsicState bus.addr bus.data } else a

/-- The overlay of the register page, on a cycle of its own. -/
def overlay (a : Chip) (bus : Bus) : Option UInt8 × Bool × Chip :=
  let read := bus.mreq && bus.rd && !bus.rfsh && inPage bus.addr
  let pgwr := bus.mreq && bus.wr && inPage bus.addr
  (if read then some (a.page (pageOffset bus.addr)) else none, read || pgwr,
    { (if pgwr && !a.pgwrPrev then a.decodeWrite bus.addr bus.data else a) with pgwrPrev := pgwr })

/-- `asic_tick`. -/
def tick (a : Chip) (bus : Bus) : ChipDrive × Chip :=
  if !a.plugged then ({}, a)
  else
    let irq := asicIrq (a.ioCycle bus) bus
    let dma := irq.2.dmaService bus
    if dma.1.master then ({ data := irq.1.vector, irq := irq.1.irq, dma := dma.1 }, dma.2)
    else if dma.2.armed then
      let page := dma.2.overlay bus
      ({ data := page.1 <|> irq.1.vector, ramdis := page.2.1, irq := irq.1.irq, dma := dma.1 }, page.2.2)
    else ({ data := irq.1.vector, irq := irq.1.irq, dma := dma.1 }, dma.2)

/-! ## The seams of the fast tier -/

/-- `asic_fast_io_write`. -/
def fastIoWrite (a : Chip) (port : UInt16) (val : UInt8) : Chip :=
  if !a.plugged then a
  else
    let a : Chip := if selects port then { a with toAsicState := feedKnock a.toAsicState val } else a
    let a := a.snoopClassicPalette port val
    { a with toAsicState := mapPage a.toAsicState port val }

/-- `asic_fast_mem_read`. -/
def fastMemRead (a : Chip) (addr : UInt16) : Option UInt8 :=
  if a.armed && inPage addr then some (a.page (pageOffset addr)) else none

/-- `asic_fast_mem_write`. -/
def fastMemWrite (a : Chip) (addr : UInt16) (val : UInt8) : Bool × Chip :=
  if a.armed && inPage addr then (true, a.decodeWrite addr val) else (false, a)

/-- `asic_batch_frame_line`. -/
def batchFrameLine (a : Chip) (line : UInt16) : Chip := (a.reachLine line).mirrorRaster

/-- `asic_irq_asserted`. -/
def irqAsserted (a : Chip) : Bool := a.plugged && (a.priPending || a.dmaInt)

/-- `asic_batch_int_ack`. -/
def batchIntAck (a : Chip) : UInt8 × Chip :=
  (if a.priPending || a.dmaInt then a.intVector ||| a.irqSource else 0xFF,
    { a.clearSources with page := Function.update a.page 0x2C0F (a.page 0x2C0F &&& 0x7F) })

end Chip

end Koncepcja.Asic
