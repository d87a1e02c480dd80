import Koncepcja.Lib.ByteBuf

/-!
# The Cassette Deck

The playback half of `src/hw/tape.cpp`: the block walker `start_block`, the pulse machine
`pulse_done`, and the per-cycle `tape_tick` that counts each pulse down. Offsets are the source's
32-bit ones, so every stored position is reduced by `u32`; `pulses_left` is a 16-bit register.

The decoded-bit ring of the host's scope is written here and read nowhere on the deck; it is left
out, as is the serialization.
-/

namespace Koncepcja.Tape

open Koncepcja.Bits Koncepcja.Bytes

/-! ## State -/

inductive Phase
  | idle
  | pilot
  | sync1
  | sync2
  | data
  | pulseSeq
  | direct
  | pause
  deriving DecidableEq, Repr

/-- `tape_state`; `cdt` is the attached image, `none` for the null pointer. -/
structure TapeState where
  cdt : Option (List UInt8) := none
  pos : Nat := 0
  block : Nat := 0
  phase : Phase := .idle
  level : Bool := false
  playing : Bool := false
  lineMode : Bool := false
  lineLevel : Bool := false
  motorSeen : Bool := false
  error : Bool := false
  dataOff : Nat := 0
  dataLen : Nat := 0
  byteIdx : Nat := 0
  bitIdx : Nat := 0
  lastUsed : Nat := 8
  pulseHalf : Bool := false
  pulsesLeft : BitVec 16 := 0
  seqIdx : Nat := 0
  tPilot : Nat := 2168
  tSync1 : Nat := 667
  tSync2 : Nat := 735
  tBit0 : Nat := 855
  tBit1 : Nat := 1710
  pauseMs : Nat := 0
  subRemaining : Int := 0
  pauseCycles : Nat := 0
  deriving DecidableEq, Repr

/-- `kSubPerCycle`: CDT durations are 3.5 MHz T-states, 7/32 of a master cycle each. -/
def kSubPerCycle : Int := 7
def kSubPerTs : Nat := 32
def kCyclesPerMs : Nat := 16000

/-- The count a pulse of `ts` T-states starts from, in 1/32 T-states. -/
def subUnits (ts : Nat) : Int := ((ts * kSubPerTs : Nat) : Int)

/-- A 32-bit offset. -/
def u32 (n : Nat) : Nat := n % 2 ^ 32

namespace TapeState

/-- `rd8`: zero past the end of the image. -/
def rd8 (t : TapeState) (off : Nat) : UInt8 := byteAt (t.cdt.getD []) (u32 off)

def rd16 (t : TapeState) (off : Nat) : Nat := (t.rd8 off).toNat + 256 * (t.rd8 (off + 1)).toNat

def rd24 (t : TapeState) (off : Nat) : Nat := t.rd16 off + 65536 * (t.rd8 (off + 2)).toNat

def loadPulse (t : TapeState) (ts : Nat) : TapeState := { t with subRemaining := subUnits ts }

def stop (t : TapeState) : TapeState := { t with playing := false, phase := .idle }

/-- The duration of a data bit's pulses. -/
def bitTime (t : TapeState) (bit : Bool) : Nat := if bit then t.tBit1 else t.tBit0

/-- The data bit under the cursor, most significant first. A shift by a negative count (more than
    eight used bits) is undefined in the source; here it reads the lowest bit. -/
def curBit (t : TapeState) : Bool := byteBit (t.rd8 (t.dataOff + t.byteIdx)) t.bitIdx

/-! ## Entering a block -/

/-- What `start_block`'s loop does with one block: return, or go round again. -/
inductive Entered
  | done (t : TapeState)
  | again (t : TapeState)

/-- Block 0x10, standard speed data. -/
def enterStandard (t : TapeState) (body : Nat) : TapeState :=
  let dataOff := u32 (body + 4)
  let dataLen := t.rd16 (body + 2)
  { t with
    pauseMs := t.rd16 body
    dataLen := dataLen
    dataOff := dataOff
    tPilot := 2168
    tSync1 := 667
    tSync2 := 735
    tBit0 := 855
    tBit1 := 1710
    lastUsed := 8
    pulsesLeft := if t.rd8 dataOff < 0x80 then 8063 else 3223
    phase := .pilot
    subRemaining := subUnits 2168
    byteIdx := 0
    bitIdx := 0
    pulseHalf := false
    pos := u32 (dataOff + dataLen) }

/-- Block 0x11, turbo speed data. -/
def enterTurbo (t : TapeState) (body : Nat) : TapeState :=
  let dataOff := u32 (body + 18)
  let dataLen := t.rd24 (body + 15)
  { t with
    tPilot := t.rd16 body
    tSync1 := t.rd16 (body + 2)
    tSync2 := t.rd16 (body + 4)
    tBit0 := t.rd16 (body + 6)
    tBit1 := t.rd16 (body + 8)
    pulsesLeft := BitVec.ofNat 16 (t.rd16 (body + 10))
    lastUsed := (t.rd8 (body + 12)).toNat
    pauseMs := t.rd16 (body + 13)
    dataLen := dataLen
    dataOff := dataOff
    phase := .pilot
    subRemaining := subUnits (t.rd16 body)
    byteIdx := 0
    bitIdx := 0
    pulseHalf := false
    pos := u32 (dataOff + dataLen) }

/-- Block 0x12, pure tone: the pilot stage with a "no data" marker. -/
def enterTone (t : TapeState) (body : Nat) : TapeState :=
  { t with
    tPilot := t.rd16 body
    pulsesLeft := BitVec.ofNat 16 (t.rd16 (body + 2))
    phase := .pilot
    dataLen := 0
    dataOff := 0
    pauseMs := 0
    subRemaining := subUnits (t.rd16 body)
    pos := u32 (body + 4) }

/-- Block 0x13, pulse sequence. `pause_ms` is not touched. -/
def enterPulseSeq (t : TapeState) (body : Nat) : TapeState :=
  let count := (t.rd8 body).toNat
  let dataOff := u32 (body + 1)
  { t with
    pulsesLeft := BitVec.ofNat 16 count
    seqIdx := 0
    dataOff := dataOff
    phase := .pulseSeq
    subRemaining := subUnits (t.rd16 dataOff)
    pos := u32 (body + 1 + count * 2) }

/-- Block 0x14, pure data. -/
def enterPureData (t : TapeState) (body : Nat) : TapeState :=
  let dataOff := u32 (body + 10)
  let dataLen := t.rd24 (body + 7)
  let bit := byteBit (t.rd8 dataOff) 0
  { t with
    tBit0 := t.rd16 body
    tBit1 := t.rd16 (body + 2)
    lastUsed := (t.rd8 (body + 4)).toNat
    pauseMs := t.rd16 (body + 5)
    dataLen := dataLen
    dataOff := dataOff
    phase := .data
    byteIdx := 0
    bitIdx := 0
    pulseHalf := false
    subRemaining := subUnits (if bit then t.rd16 (body + 2) else t.rd16 body)
    pos := u32 (dataOff + dataLen) }

/-- The fields of a block 0x15. -/
def readDirect (t : TapeState) (body : Nat) : TapeState :=
  let dataOff := u32 (body + 8)
  let dataLen := t.rd24 (body + 5)
  { t with
    tBit0 := t.rd16 body
    pauseMs := t.rd16 (body + 2)
    lastUsed := (t.rd8 (body + 4)).toNat
    dataLen := dataLen
    dataOff := dataOff
    pos := u32 (dataOff + dataLen) }

/-- The first sample of a direct recording; the line carries it at once. -/
def loadDirect (t : TapeState) : TapeState :=
  { t with
    phase := .direct
    byteIdx := 0
    bitIdx := 0
    level := byteBit (t.rd8 t.dataOff) 0
    subRemaining := subUnits t.tBit0 }

/-- Block 0x15, direct recording; an empty one is skipped. -/
def enterDirect (t : TapeState) (body : Nat) : Entered :=
  let t := t.readDirect body
  if t.dataLen = 0 then .again { t with block := u32 (t.block + 1) } else .done t.loadDirect

/-- Block 0x20: a pause, or the stop mark when it is zero. -/
def enterPause (t : TapeState) (body : Nat) : TapeState :=
  let ms := t.rd16 body
  if ms = 0 then { t with pos := u32 (body + 2) }.stop
  else { t with pos := u32 (body + 2), phase := .pause, pauseCycles := ms * kCyclesPerMs, level := false }

/-- The metadata blocks: go on `len` bytes behind the ID. -/
def skipBlock (t : TapeState) (body len : Nat) : Entered :=
  .again { t with pos := u32 (body + len), block := u32 (t.block + 1) }

/-- `start_block`'s switch. -/
def enterBlock (t : TapeState) (id : UInt8) (body : Nat) : Entered :=
  if id = 0x10 then .done (t.enterStandard body)
  else if id = 0x11 then .done (t.enterTurbo body)
  else if id = 0x12 then .done (t.enterTone body)
  else if id = 0x13 then .done (t.enterPulseSeq body)
  else if id = 0x14 then .done (t.enterPureData body)
  else if id = 0x15 then t.enterDirect body
  else if id = 0x20 then .done (t.enterPause body)
  else if id = 0x21 then t.skipBlock body (1 + (t.rd8 body).toNat)
  else if id = 0x22 then t.skipBlock body 0
  else if id = 0x30 then t.skipBlock body (1 + (t.rd8 body).toNat)
  else if id = 0x31 then t.skipBlock body (2 + (t.rd8 (body + 1)).toNat)
  else if id = 0x32 then t.skipBlock body (2 + t.rd16 body)
  else if id = 0x33 then t.skipBlock body (1 + (t.rd8 body).toNat * 3)
  else .done { t with error := true }.stop -- never guess a length

/-- `start_block`'s loop, `fuel` times round at most. Each round moves the cursor on, so one more
    than the image's length is enough while no offset wraps. -/
def startFrom : Nat → TapeState → TapeState
  | 0, t => t.stop
  | fuel + 1, t =>
    match t.cdt with
    | none => t.stop
    | some cdt =>
      if cdt.length ≤ t.pos then t.stop -- end of tape
      else
        match t.enterBlock (t.rd8 t.pos) (u32 (t.pos + 1)) with
        | .done t => t
        | .again t => startFrom fuel t

def startBlock (t : TapeState) : TapeState := startFrom ((t.cdt.getD []).length + 1) t

def nextBlock (t : TapeState) : TapeState :=
  let t := { t with block := u32 (t.block + 1) }
  if t.pauseMs ≠ 0 then
    { t with phase := .pause, pauseCycles := t.pauseMs * kCyclesPerMs, pauseMs := 0, level := false }
  else t.startBlock

/-! ## The pulse machine -/

/-- The cursor moved to the next data bit: `last_used` bits in the last byte, eight in the others. -/
def stepBit (t : TapeState) : TapeState :=
  let bitIdx := t.bitIdx + 1
  let bitsInByte := if t.byteIdx + 1 = t.dataLen then t.lastUsed else 8
  { t with
    bitIdx := if bitsInByte ≤ bitIdx then 0 else bitIdx
    byteIdx := if bitsInByte ≤ bitIdx then t.byteIdx + 1 else t.byteIdx }

/-- The tone is out: on to the sync pulses, or to the next block behind a pure tone. -/
def pilotDone (t : TapeState) : TapeState :=
  if t.dataOff = 0 ∧ t.dataLen = 0 then t.nextBlock else { t with phase := .sync1 }.loadPulse t.tSync1

/-- `pulse_done`: toggle and load the next pulse, or advance. -/
def pulseDone (t : TapeState) : TapeState :=
  let t := { t with level := !t.level }
  match t.phase with
  | .pilot =>
    -- the counter is decremented before the test, so zero counts down from 65535
    let t := { t with pulsesLeft := t.pulsesLeft - 1 }
    if t.pulsesLeft ≠ 0 then t.loadPulse t.tPilot else t.pilotDone
  | .sync1 => { t with phase := .sync2 }.loadPulse t.tSync2
  | .sync2 =>
    { t with phase := .data, pulseHalf := false }.loadPulse (t.bitTime (byteBit (t.rd8 t.dataOff) 0))
  | .data =>
    if t.pulseHalf = false then { t with pulseHalf := true }.loadPulse (t.bitTime t.curBit)
    else
      let t := { t with pulseHalf := false }.stepBit
      if t.dataLen ≤ t.byteIdx then t.nextBlock else t.loadPulse (t.bitTime t.curBit)
  | .pulseSeq =>
    let t := { t with pulsesLeft := t.pulsesLeft - 1 }
    if t.pulsesLeft ≠ 0 then
      let t := { t with seqIdx := t.seqIdx + 1 }
      t.loadPulse (t.rd16 (t.dataOff + t.seqIdx * 2))
    else t.nextBlock
  | .direct =>
    -- each sample sets the level from its own bit: the entry toggle is undone
    let t := { t with level := !t.level }.stepBit
    if t.dataLen ≤ t.byteIdx then t.nextBlock else { t with level := t.curBit }.loadPulse t.tBit0
  | _ => t

/-! ## The Device -/

/-- `tape_tick` on the cassette wires: the deck after one master cycle. `rdata` carries `level`. -/
def tick (motor : Bool) (t : TapeState) : TapeState :=
  let t := { t with motorSeen := motor }
  if t.lineMode then { t with level := motor && t.lineLevel }
  else if t.playing ∧ motor ∧ t.phase ≠ .idle then
    if t.phase = .pause then
      if 0 < t.pauseCycles then { t with pauseCycles := t.pauseCycles - 1 } else t.startBlock
    else
      let t := { t with subRemaining := t.subRemaining - kSubPerCycle }
      if t.subRemaining ≤ 0 then t.pulseDone else t
  else t

/-- `tape_play`. -/
def play (on : Bool) (t : TapeState) : TapeState :=
  if on ∧ t.playing = false ∧ t.cdt.isSome then
    let t := { t with playing := true }
    if t.phase = .idle then t.startBlock else t
  else if on = false then { t with playing := false }
  else t

/-- `tape_rewind`; the first block lies behind `ZXTape!\x1A` and the version. -/
def rewind (t : TapeState) : TapeState :=
  let wasPlaying := t.playing
  let t := { t with pos := 10, block := 0, phase := .idle, level := false, error := false, playing := false }
  if wasPlaying then t.play true else t

/-- `ZXTape!\x1A`. -/
def cdtMagic : List UInt8 := [0x5A, 0x58, 0x54, 0x61, 0x70, 0x65, 0x21, 0x1A]

/-- `tape_attach_cdt`; `none` is the rejected image. -/
def attachCdt (data : List UInt8) (t : TapeState) : Option TapeState :=
  if data.length < 10 ∨ slice data 0 8 ≠ cdtMagic then none else some { t with cdt := some data }.rewind

end TapeState

end Koncepcja.Tape
