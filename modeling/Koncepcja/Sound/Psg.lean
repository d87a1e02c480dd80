import Koncepcja.Lib.ByteBuf
import Koncepcja.Lib.Prescaler
import Mathlib.Data.Fintype.Pi

/-!
# The PSG

The AY-3-8912 of `src/hw/psg.cpp`: the register file behind the AY bus, three tone generators, the
noise generator, the envelope, and the mixer that gives each channel its level. One sound step is one
microsecond; the Fast tier skips over the steps on which no output can move.

A saved state is the state itself; its byte layout is not modelled.
-/

namespace Koncepcja.Sound

open Koncepcja.Bytes

/-- `kRegMask`: the bits of each register that exist. -/
def kRegMask : List UInt8 :=
  [0xFF, 0x0F, 0xFF, 0x0F, 0xFF, 0x0F, 0x1F, 0xFF, 0x1F, 0x1F, 0x1F, 0xFF, 0xFF, 0x0F, 0xFF, 0xFF]

/-- There are three channels. -/
scoped instance channels : NeZero 3 := ⟨by decide⟩

/-- `psg_state`. -/
structure Psg where
  reg : List UInt8 := List.replicate 16 0
  sel : UInt8 := 0
  bc1Prev : Bool := false
  bdirPrev : Bool := false
  daPrev : UInt8 := 0xFF
  scannedRows : UInt16 := 0
  toneDiv : UInt16 := 0
  toneCnt : Fin 3 → UInt16 := fun _ => 0
  toneOut : UInt8 := 0
  noiseDiv : UInt16 := 0
  noiseCnt : UInt16 := 0
  noiseLfsr : UInt32 := 1
  noiseOut : UInt8 := 0
  envDiv : UInt16 := 0
  envCnt : UInt16 := 0
  envStep : UInt8 := 0
  envLevel : UInt8 := 0
  envAttackSeg : Bool := false
  envHolding : Bool := false
  envDirection : UInt8 := 0
  chanLevel : Fin 3 → UInt8 := fun _ => 0
  keyMatrix : List UInt8 := List.replicate 16 0xFF
  deriving DecidableEq

namespace Psg

/-- A register. -/
def r (p : Psg) (i : Nat) : UInt8 := byteAt p.reg i

/-! ## Periods -/

/-- A period register pair, or one where it holds zero. -/
def orOne (period : UInt16) : UInt16 := if period ≠ 0 then period else 1

def tonePeriod (p : Psg) (chan : Fin 3) : UInt16 :=
  orOne ((p.r (2 * chan)).toUInt16 ||| (p.r (2 * chan + 1) &&& 0x0F).toUInt16 <<< (8 : UInt16))

def noisePeriod (p : Psg) : UInt16 := orOne (p.r 6 &&& 0x1F).toUInt16

/-- The envelope period. -/
def envPeriod (p : Psg) : UInt16 := orOne ((p.r 11).toUInt16 ||| (p.r 12).toUInt16 <<< (8 : UInt16))

/-! ## The envelope -/

/-- The direction of a ramp, as the snapshot format has it. -/
def direction (attack : Bool) : UInt8 := if attack then 0x01 else 0xFF

def envRestart (p : Psg) : Psg :=
  let attack := p.r 13 &&& 0x04 != 0
  { p with
    envHolding := false
    envStep := 0
    envAttackSeg := attack
    envLevel := if attack then 0 else 31
    envDirection := direction attack }

def envClock (p : Psg) : Psg :=
  let shape := p.r 13
  if p.envHolding then { p with envDirection := 0 }
  else if p.envStep < 31 then
    let step := p.envStep + 1
    { p with
      envStep := step
      envLevel := if p.envAttackSeg then step else 31 - step
      envDirection := direction p.envAttackSeg }
  -- the end of a segment: continue, alternate or hold
  else if shape &&& 0x08 = 0 then { p with envStep := 0, envHolding := true, envLevel := 0, envDirection := 0 }
  else if shape &&& 0x01 ≠ 0 then
    { p with
      envStep := 0
      envHolding := true
      envLevel := if shape &&& 0x02 ≠ 0 then (if p.envAttackSeg then 0 else 31) else if p.envAttackSeg then 31 else 0
      envDirection := 0 }
  else
    let attack := if shape &&& 0x02 ≠ 0 then !p.envAttackSeg else p.envAttackSeg
    { p with
      envStep := 0
      envAttackSeg := attack
      envLevel := if attack then 0 else 31
      envDirection := direction attack }

/-! ## One sound step -/

/-- The counter of a channel expires on this tick. -/
def toneExpires (p : Psg) (chan : Fin 3) : Bool := decide (p.tonePeriod chan ≤ p.toneCnt chan + 1)

/-- `tone_step`: every eighth step ticks the three counters, and one that expires toggles its output. -/
def toneStep (p : Psg) : Psg :=
  if p.toneDiv + 1 < 8 then { p with toneDiv := p.toneDiv + 1 }
  else
    { p with
      toneDiv := 0
      toneCnt := fun chan => if p.toneExpires chan then 0 else p.toneCnt chan + 1
      toneOut := [(0 : Fin 3), 1, 2].foldl
        (fun out chan => if p.toneExpires chan then out ^^^ (1 <<< UInt8.ofNat chan) else out) p.toneOut }

/-- `noise_step`: every sixteenth step ticks the counter, and its expiry shifts the register. -/
def noiseStep (p : Psg) : Psg :=
  if p.noiseDiv + 1 < 16 then { p with noiseDiv := p.noiseDiv + 1 }
  else if p.noiseCnt + 1 < p.noisePeriod then { p with noiseDiv := 0, noiseCnt := p.noiseCnt + 1 }
  else
    let tap := (p.noiseLfsr ^^^ (p.noiseLfsr >>> 3)) &&& 1
    let lfsr := p.noiseLfsr >>> 1 ||| tap <<< 16
    { p with noiseDiv := 0, noiseCnt := 0, noiseLfsr := lfsr, noiseOut := (lfsr &&& 1).toUInt8 }

def envelopeStep (p : Psg) : Psg :=
  if p.envDiv + 1 < 256 then { p with envDiv := p.envDiv + 1 }
  else if p.envCnt + 1 < p.envPeriod then { p with envDiv := 0, envCnt := p.envCnt + 1 }
  else ({ p with envDiv := 0, envCnt := 0 }).envClock

/-- Neither the tone nor the noise silences the channel. -/
def audible (p : Psg) (chan : Fin 3) : Bool :=
  let toneDis := p.r 7 >>> UInt8.ofNat chan &&& 1 != 0
  let noiseDis := p.r 7 >>> UInt8.ofNat (chan + 3) &&& 1 != 0
  let tbit := p.toneOut >>> UInt8.ofNat chan &&& 1 != 0
  (tbit || toneDis) && (p.noiseOut != 0 || noiseDis)

/-- The level of a channel, out of the live registers and outputs. -/
def mixed (p : Psg) (chan : Fin 3) : UInt8 :=
  let amp := p.r (8 + chan)
  if amp &&& 0x10 ≠ 0 then if p.audible chan then p.envLevel else 0
  else if p.audible chan then (amp &&& 0x0F) * 2 + 1 else 0

def mixerStep (p : Psg) : Psg := { p with chanLevel := p.mixed }

def soundStep (p : Psg) : Psg := p.toneStep.noiseStep.envelopeStep.mixerStep

/-- `n` sound steps. -/
def steps : Nat → Psg → Psg
  | 0, p => p
  | n + 1, p => steps n p.soundStep

/-! ## The AY bus -/

/-- `ay_apply`: latch the register address, or write the register. Writing the shape restarts the
    envelope. -/
def ayApply (p : Psg) (bdir bc1 : Bool) (da : UInt8) : Psg :=
  if bdir && bc1 then { p with sel := da &&& 0x0F }
  else if bdir && decide (p.sel < 16) then
    let p := { p with reg := p.reg.set p.sel.toNat (da &&& byteAt kRegMask p.sel.toNat) }
    if p.sel = 13 then p.envRestart else p
  else p

/-- Port A is an input: a read of it scans the keyboard. -/
def portAInput (p : Psg) : Bool := p.sel == 14 && p.r 7 &&& 0x40 == 0

def ayReadValue (p : Psg) (kbdRow rowExt : UInt8) : UInt8 :=
  if p.portAInput then byteAt p.keyMatrix (kbdRow &&& 0x0F).toNat &&& rowExt
  else if p.sel = 15 ∧ p.r 7 &&& 0x80 = 0 then 0xFF
  else p.r p.sel.toNat

/-- `psg_fast_lines`: one operation for each change of the lines. -/
def fastLines (p : Psg) (bdir bc1 : Bool) (da : UInt8) : Psg :=
  let p := if bdir ≠ p.bdirPrev ∨ bc1 ≠ p.bc1Prev ∨ da ≠ p.daPrev then p.ayApply bdir bc1 da else p
  { p with bdirPrev := bdir, bc1Prev := bc1, daPrev := da }

/-- `psg_fast_read`: the value, and the row marked as scanned. -/
def fastRead (p : Psg) (kbdRow rowExt : UInt8) : UInt8 × Psg :=
  (p.ayReadValue kbdRow rowExt,
    if p.portAInput then { p with scannedRows := p.scannedRows ||| 1 <<< (kbdRow &&& 0x0F).toUInt16 } else p)

/-- What the PSG reads off the bus. -/
structure BusIn where
  bdir : Bool
  bc1 : Bool
  da : UInt8
  kbdRow : UInt8
  rowExt : UInt8
  clk : Bool
  deriving DecidableEq, Repr

/-- `ay_bus`: the state behind, and what it drives on a read. -/
def ayBus (p : Psg) (bus : BusIn) : Psg × Option UInt8 :=
  let q := if bus.bdir ≠ p.bdirPrev ∨ bus.bc1 ≠ p.bc1Prev ∨ bus.da ≠ p.daPrev then p.ayApply bus.bdir bus.bc1 bus.da else p
  let (q, out) := if !bus.bdir && bus.bc1 then ((q.fastRead bus.kbdRow bus.rowExt).2, some (q.ayReadValue bus.kbdRow bus.rowExt))
    else (q, none)
  ({ q with bdirPrev := bus.bdir, bc1Prev := bus.bc1, daPrev := bus.da }, out)

/-- `psg_tick`. -/
def tick (p : Psg) (bus : BusIn) : Psg × Option UInt8 :=
  let (q, out) := p.ayBus bus
  (if bus.clk then q.soundStep else q, out)

/-! ## Reset, saved states and the host's entries -/

/-- `psg_reset`: the live key matrix stays. -/
def reset (p : Psg) : Psg := { keyMatrix := p.keyMatrix }

/-- `psg_save`, without what is live input. -/
def save (p : Psg) : Psg := { p with keyMatrix := List.replicate 16 0, scannedRows := 0 }

/-- `psg_load`: the live key matrix stays. -/
def load (p saved : Psg) : Psg := { saved with keyMatrix := p.keyMatrix }

/-- `psg_set_key_row`. -/
def setKeyRow (p : Psg) (row columns : UInt8) : Psg :=
  { p with keyMatrix := p.keyMatrix.set (row &&& 0x0F).toNat columns }

/-- `psg_poke_reg`: no mask, and no restart of the envelope. -/
def pokeReg (p : Psg) (n val : UInt8) : Psg := { p with reg := p.reg.set (n &&& 15).toNat val }

/-- `psg_poke_sel`. -/
def pokeSel (p : Psg) (sel : UInt8) : Psg := { p with sel := sel &&& 15 }

/-- `psg_poke_env`. -/
def pokeEnv (p : Psg) (halfLevel direction : UInt8) : Psg :=
  let level := (halfLevel &&& 15) <<< 1
  let p := { p with envLevel := level, envHolding := direction == 0, envDirection := direction }
  if direction = 0x01 then { p with envAttackSeg := true, envStep := level }
  else if direction = 0xFF then { p with envAttackSeg := false, envStep := 31 - level }
  else { p with envStep := 31 }

/-- `psg_take_scanned_rows`. -/
def takeScannedRows (p : Psg) : UInt16 × Psg := (p.scannedRows, { p with scannedRows := 0 })

/-! ## Quiet spans -/

/-- `psg_event_in`. -/
def eventIn (presc div cnt per : Nat) : Nat :=
  let ticks := if cnt < per then per - cnt else 1
  (presc - div) + (ticks - 1) * presc

/-- The steps up to the next expiry of a channel. -/
def toneEvent (p : Psg) (chan : Fin 3) : Nat :=
  eventIn 8 p.toneDiv.toNat (p.toneCnt chan).toNat (p.tonePeriod chan).toNat

def noiseEvent (p : Psg) : Nat := eventIn 16 p.noiseDiv.toNat p.noiseCnt.toNat p.noisePeriod.toNat

def envEvent (p : Psg) : Nat := eventIn 256 p.envDiv.toNat p.envCnt.toNat p.envPeriod.toNat

/-- `psg_batch_quiet_steps`. -/
def quietSteps (p : Psg) : Nat :=
  let quiet := [(1 : Fin 3), 2].foldl (fun quiet chan => min (p.toneEvent chan) quiet) (p.toneEvent 0)
  min p.envEvent (min p.noiseEvent quiet)

/-- `psg_batch_skip`. -/
def skip (n : Nat) (p : Psg) : Psg :=
  let toneTotal := p.toneDiv.toNat + n
  let noiseTotal := p.noiseDiv.toNat + n
  let envTotal := p.envDiv.toNat + n
  { p with
    toneDiv := UInt16.ofNat (toneTotal % 8)
    toneCnt := fun chan => p.toneCnt chan + UInt16.ofNat (toneTotal / 8)
    noiseCnt := p.noiseCnt + UInt16.ofNat (noiseTotal / 16)
    noiseDiv := UInt16.ofNat (noiseTotal % 16)
    envCnt := p.envCnt + UInt16.ofNat (envTotal / 256)
    envDiv := UInt16.ofNat (envTotal % 256) }

/-! ## Runs -/

/-- The states a PSG comes to. A span is only skipped where it is quiet, and only a saved state is loaded. -/
inductive Reachable : Psg → Prop
  | init : Reachable {}
  | tick {p : Psg} (bus : BusIn) (h : Reachable p) : Reachable (p.tick bus).1
  | reset {p : Psg} (h : Reachable p) : Reachable p.reset
  | load {p q : Psg} (h : Reachable p) (hq : Reachable q) : Reachable (p.load q.save)
  | setKeyRow {p : Psg} (row columns : UInt8) (h : Reachable p) : Reachable (p.setKeyRow row columns)
  | pokeReg {p : Psg} (n val : UInt8) (h : Reachable p) : Reachable (p.pokeReg n val)
  | pokeSel {p : Psg} (sel : UInt8) (h : Reachable p) : Reachable (p.pokeSel sel)
  | pokeEnv {p : Psg} (halfLevel direction : UInt8) (h : Reachable p) : Reachable (p.pokeEnv halfLevel direction)
  | fastLines {p : Psg} (bdir bc1 : Bool) (da : UInt8) (h : Reachable p) : Reachable (p.fastLines bdir bc1 da)
  | fastRead {p : Psg} (kbdRow rowExt : UInt8) (h : Reachable p) : Reachable (p.fastRead kbdRow rowExt).2
  | takeScannedRows {p : Psg} (h : Reachable p) : Reachable p.takeScannedRows.2
  | batchStep {p : Psg} (h : Reachable p) : Reachable p.soundStep
  | batchSkip {p : Psg} (n : Nat) (hn : n < p.quietSteps) (h : Reachable p) : Reachable (p.skip n)

end Psg

end Koncepcja.Sound
