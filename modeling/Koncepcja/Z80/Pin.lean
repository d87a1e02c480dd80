import Koncepcja.Z80.Batch

/-!
# The Pin-Level Engine

`src/hw/z80.cpp`, `z80_tick`: one master cycle of the CPU as a device on the two-phase bus, under
the clock and the WAIT line of the Gate Array (`gate_array.h`, `ga_clock_out`).

## Main definitions

- `z80Tick`: the CPU reads the committed bus and drives the next one.
- `Board.cycle`: one master cycle of the CPU, the Gate Array's clock and the far side of the bus.
-/

namespace Koncepcja.Z80

/-! ## The bus -/

/-- `CpuBus`, less the lines the CPU neither reads nor drives. -/
structure CpuBus where
  addr : Word
  data : Byte
  m1 : Bool
  mreq : Bool
  iorq : Bool
  rd : Bool
  wr : Bool
  rfsh : Bool
  halt : Bool
  wait : Bool
  irq : Bool
  nmi : Bool
  busrq : Bool
  busak : Bool
  deriving DecidableEq, Repr

/-- `bus_resting`: the data bus floats high. -/
def CpuBus.resting : CpuBus where
  addr := 0
  data := 0xFF
  m1 := false
  mreq := false
  iorq := false
  rd := false
  wr := false
  rfsh := false
  halt := false
  wait := false
  irq := false
  nmi := false
  busrq := false
  busak := false

/-- `Clocks`, as the CPU sees them. -/
structure Clocks where
  cpu : Bool
  phase : Nat
  deriving DecidableEq, Repr

structure Bus where
  cpu : CpuBus
  clk : Clocks
  deriving DecidableEq, Repr

/-- `ga_clock_out`, less the video side. -/
def gaClockOut (phase : Nat) (out : CpuBus) : Bus where
  clk :=
    { phase
      cpu := phase % 4 == 0 }
  cpu := { out with wait := phase / 4 != 1 }

/-! ## The CPU -/

structure Z80State where
  cpu : Cpu
  mc : MC
  /-- T-state within the current machine cycle. -/
  t : Nat
  /-- `mc_addr` of an opcode fetch. -/
  mcAddr : Word
  held : CpuBus
  heldValid : Bool
  nmiPrev : Bool
  deriving DecidableEq, Repr

namespace Z80State

/-- `run_micro()`: the next machine cycle starts at `t = 0`. -/
def runMicro (z : Z80State) : Z80State :=
  { z with
    cpu := { z.cpu with core := z.cpu.core.runMicro.1 }
    mc := z.cpu.core.runMicro.2
    t := 0 }

/-- `step++; run_micro();` -/
def nextMicro (z : Z80State) : Z80State := { z with cpu := z.cpu.bumpStep }.runMicro

/-- `step = 0; run_micro();` -/
def firstMicro (z : Z80State) : Z80State := { z with cpu := z.cpu.clearStep }.runMicro

/-- `tmp = in->cpu.data`. -/
def latchTmp (z : Z80State) (data : Byte) : Z80State :=
  { z with cpu := { z.cpu with core := { z.cpu.core with tmp := data } } }

/-- NMI is edge-triggered and watched on every master cycle. -/
def latchNmi (z : Z80State) (nmi : Bool) : Z80State :=
  { z with
    cpu := { z.cpu with nmiPending := z.cpu.nmiPending || (nmi && !z.nmiPrev) }
    nmiPrev := nmi }

/-- Drive-and-hold on the master cycles without a clock enable. -/
def redrive (z : Z80State) (out : CpuBus) : CpuBus :=
  if z.heldValid then
    { out with
      addr := z.held.addr
      m1 := z.held.m1
      mreq := z.held.mreq
      iorq := z.held.iorq
      rd := z.held.rd
      wr := z.held.wr
      rfsh := z.held.rfsh
      halt := z.held.halt
      busak := z.held.busak
      data := if z.held.wr then z.held.data else out.data }
  else out

/-- A halted T-state: R is refreshed once in four. -/
def haltTick (z : Z80State) : Z80State :=
  let cpu := { z.cpu with tstates := z.cpu.tstates + 1, haltT := z.cpu.haltT + 1 }
  { z with cpu := if 4 ≤ cpu.haltT then { cpu.refreshed with haltT := 0 } else cpu }

/-- The prefix dispatch of M1 T4. -/
def dispatchPrefix (c : Core) : Option Core :=
  let s := c.seq
  if s.prefixByte = 0 ∧ (s.opcode = 0xDD ∨ s.opcode = 0xFD) then
    some { c with seq := { s with index := prefixIndex s.opcode, prefixByte := 0 } }
  else if s.prefixByte = 0 ∧ s.opcode = 0xED then
    some { c with seq := { s with prefixByte := 0xED, index := .hl } }
  else if s.prefixByte = 0 ∧ s.opcode = 0xCB ∧ s.index = .hl then
    some { c with seq := { s with prefixByte := 0xCB } }
  else none

/-- A true instruction boundary, never between a prefix and its opcode. -/
def atBoundary (c : Core) : Bool := decide (c.seq.prefixByte = 0 ∧ c.seq.index = .hl)

/-- The Q scratch is cleared, and at a boundary the EI shadow is used up. -/
def openM1 (c : Core) : Core :=
  { c with qq := 0, eiDelay := if atBoundary c then false else c.eiDelay }

/-- M1 T1: at a boundary a pending interrupt is accepted, otherwise the opcode fetch starts. -/
def m1T1 (z : Z80State) (irq : Bool) (out : CpuBus) : Z80State × CpuBus :=
  let boundary := atBoundary z.cpu.core
  let wasEi := z.cpu.core.eiDelay
  let cpu := { z.cpu with core := openM1 z.cpu.core }
  if boundary && cpu.nmiPending then
    ({ z with cpu := cpu.refreshed.acceptNmi }.firstMicro, out)
  else if boundary && (cpu.core.iff1 && irq && !wasEi) then
    ({ z with cpu := cpu.refreshed.acceptInt }.firstMicro, out)
  else
    ({ z with
        mcAddr := cpu.core.pc
        cpu := { cpu with core := cpu.core.pcinc } },
      { out with addr := cpu.core.pc, m1 := true, mreq := true, rd := true })

/-- M1, T2 to T4. -/
def m1Rest (z : Z80State) (data : Byte) (out : CpuBus) : Z80State × CpuBus :=
  if z.t = 2 then (z, { out with addr := z.mcAddr, m1 := true, mreq := true, rd := true })
  else if z.t = 3 then
    let c := { z.cpu.core with seq := { z.cpu.core.seq with opcode := data } }.bumpRefresh
    ({ z with cpu := { z.cpu with core := c } },
      { out with addr := pair c.i c.r, mreq := true, rfsh := true })
  else
    let out := { out with addr := pair z.cpu.core.i z.cpu.core.r, rfsh := true }
    match dispatchPrefix z.cpu.core with
    | some c => ({ z with cpu := { z.cpu with core := c }, mc := .m1, t := 0 }, out)
    | none => (z.firstMicro, out)

/-- The machine cycle's own behaviour at T-state `z.t`. -/
def runCycle (z : Z80State) (inp : CpuBus) (out : CpuBus) : Z80State × CpuBus :=
  match z.mc with
  | .m1 => if z.t = 1 then z.m1T1 inp.irq out else z.m1Rest inp.data out
  | .read addr =>
    if z.t < 3 then
      let out := { out with addr, mreq := true, rd := true }
      -- T2 is repeated while WAIT is up
      (if z.t = 2 ∧ inp.wait then { z with t := 1 } else z, out)
    else ((z.latchTmp inp.data).nextMicro, out)
  | .write addr val =>
    if z.t = 1 then (z, { out with addr, data := val, mreq := true })
    else if z.t = 2 then
      let out := { out with addr, data := val, mreq := true, wr := true }
      (if inp.wait then { z with t := 1 } else z, out)
    else (z.nextMicro, out)
  | .internal len => if len ≤ z.t then (z.nextMicro, out) else (z, out)
  | .ioRead port =>
    if z.t < 4 then
      let out := { out with addr := port, iorq := true, rd := true }
      -- the automatic Tw is repeated until WAIT is released
      (if z.t = 3 ∧ inp.wait then { z with t := 2 } else z, out)
    else ((z.latchTmp inp.data).nextMicro, out)
  | .ioWrite port val =>
    if z.t < 4 then
      let out := { out with addr := port, iorq := true, wr := true, data := val }
      (if z.t = 3 ∧ inp.wait then { z with t := 2 } else z, out)
    else (z.nextMicro, out)
  | .ioack len =>
    let maskable := decide (z.cpu.core.seq.servicing = .maskable)
    let out :=
      { out with
        addr := z.cpu.core.pc
        m1 := true
        iorq := out.iorq || maskable
        mreq := out.mreq || !maskable }
    if len ≤ z.t then
      let vector := if maskable then inp.data else z.cpu.core.intVec
      let z := { z with cpu := { z.cpu with core := { z.cpu.core with intVec := vector } } }
      (z.nextMicro, out)
    else (z, out)

end Z80State

/-- Machine cycles whose T1 waits for the µs grid. -/
def MC.gridHeld : MC → Bool
  | .internal _ | .ioRead _ | .ioWrite _ _ => false
  | _ => true

namespace Z80State

/-- An enabled T-state past the halt and bus-request checks. -/
def runT (z : Z80State) (inp : Bus) (out : CpuBus) : Z80State × CpuBus :=
  let z := { z with cpu := { z.cpu with tstates := z.cpu.tstates + 1 }, t := z.t + 1 }
  let r :=
    if z.t = 1 ∧ z.mc.gridHeld ∧ inp.clk.phase ≠ 0 then ({ z with t := 0 }, out)
    else z.runCycle inp.cpu out
  (r.1, { r.2 with halt := r.1.cpu.halted })

/-- `z80_tick` on a master cycle with the clock enable. -/
def advance (z : Z80State) (inp : Bus) (out : CpuBus) : Z80State × CpuBus :=
  if z.cpu.halted ∧ ¬z.cpu.intReady inp.cpu.irq then (z.haltTick, { out with halt := true })
  else
    let z := if z.cpu.halted then { z with cpu := z.cpu.wake, mc := .m1, t := 0 } else z
    if z.t = 0 ∧ inp.cpu.busrq then (z, { out with busak := true })
    else z.runT inp out

end Z80State

/-- `z80_tick`. Every way out of an enabled cycle latches what was driven. -/
def z80Tick (z : Z80State) (inp : Bus) (out : CpuBus) : Z80State × CpuBus :=
  let z := z.latchNmi inp.cpu.nmi
  if inp.clk.cpu then
    let r := z.advance inp out
    ({ r.1 with held := r.2, heldValid := true }, r.2)
  else (z, z.redrive out)

/-! ## The far side of the bus -/

/-- What the lines of the bus ask for. -/
inductive Strobe where
  | idle
  | memRead
  | memWrite
  | ioRead
  | ioWrite
  | intAck
  deriving DecidableEq, Repr

def CpuBus.strobe (b : CpuBus) : Strobe :=
  if b.mreq && b.wr then .memWrite
  else if b.iorq && b.wr then .ioWrite
  else if b.mreq && b.rd then .memRead
  else if b.iorq && b.rd then .ioRead
  else if b.iorq && b.m1 then .intAck
  else .idle

/-- The far side, with the strobe of the previous master cycle: a transaction is one run of equal
strobes, and is carried out on its leading edge. -/
structure Peer (σ : Type) where
  world : World σ
  strobe : Strobe
  /-- The byte driven while a read lasts. -/
  latch : Byte

namespace Peer

variable {σ : Type} (agent : Agent σ)

/-- The leading edge of a transaction. -/
def start (p : Peer σ) (b : CpuBus) : Peer σ :=
  match b.strobe with
  | .memRead =>
    let (val, world) := p.world.memRead agent b.addr
    { world, strobe := .memRead, latch := val }
  | .memWrite => { p with world := p.world.memWrite agent b.addr b.data, strobe := .memWrite }
  | .ioRead =>
    let (val, world) := p.world.ioRead agent b.addr
    { world, strobe := .ioRead, latch := val }
  | .ioWrite => { p with world := p.world.ioWrite agent b.addr b.data, strobe := .ioWrite }
  | s => { p with strobe := s }

/-- One master cycle of the far side. -/
def tick (p : Peer σ) (b : CpuBus) : Peer σ :=
  if b.strobe = p.strobe then p else p.start agent b

/-- The byte it puts on the data bus; `irqVector` is what an acknowledge reads. -/
def drives (irqVector : Byte) (p : Peer σ) : Option Byte :=
  match p.strobe with
  | .memRead | .ioRead => some p.latch
  | .intAck => some irqVector
  | _ => none

end Peer

/-! ## The board -/

/-- The interrupt inputs, held constant over a run. -/
structure Inputs where
  irq : Bool
  nmi : Bool
  irqVector : Byte

structure Board (σ : Type) where
  z80 : Z80State
  peer : Peer σ
  /-- The divider value the Gate Array drives this cycle. -/
  phase : Nat
  bus : Bus

/-- The Gate Array and the interrupt sources, over what the others drove. -/
def commitBus (inputs : Inputs) (phase : Nat) (out : CpuBus) : Bus :=
  gaClockOut phase { out with irq := inputs.irq, nmi := inputs.nmi }

/-- One master cycle: every device reads the committed bus and drives the next one. -/
def Board.cycle {σ : Type} (agent : Agent σ) (inputs : Inputs) (b : Board σ) : Board σ :=
  let peer := b.peer.tick agent b.bus.cpu
  let out := { CpuBus.resting with data := (peer.drives inputs.irqVector).getD 0xFF }
  let r := z80Tick b.z80 b.bus out
  { z80 := r.1
    peer
    phase := (b.phase + 1) % 16
    bus := commitBus inputs b.phase r.2 }

/-! ## Reset -/

/-- `z80_reset`, on a state whose other registers are zero. -/
def z80Reset : Z80State where
  cpu :=
    { core :=
        { af := 0xFFFF, bc := 0, de := 0, hl := 0, af2 := 0, bc2 := 0, de2 := 0, hl2 := 0
          ix := 0, iy := 0, sp := 0xFFFF, pc := 0, wz := 0, i := 0, r := 0
          iff1 := false, iff2 := false, im := .im0, q := 0, qq := 0, eiDelay := false
          intVec := 0, memAddr := 0, tmp := 0, tmpl := 0, unimplemented := false
          seq :=
            { step := 0, prefixByte := 0, index := .hl, opcode := 0, servicing := .none
              halted := false, instrCount := 0 } }
      nmiPending := false
      haltT := 0
      tstates := 0 }
  mc := .m1
  t := 0
  mcAddr := 0
  held := CpuBus.resting
  heldValid := false
  nmiPrev := false

/-- The board out of reset, on the first clock enable of a µs. -/
def resetBoard {σ : Type} (state : σ) (inputs : Inputs) : Board σ where
  z80 := z80Reset
  peer := { world := { state, accesses := [] }, strobe := .idle, latch := 0xFF }
  phase := 1
  bus := commitBus inputs 0 CpuBus.resting

end Koncepcja.Z80
