import Koncepcja.Buses
import Koncepcja.Lib.ByteBuf

/-!
# Devices that Snoop the ROM Paging

`src/hw/smartwatch.cpp` and `src/hw/m4.cpp`: the clock in the upper ROM socket and the M4 board. Both
watch the writes that page the upper ROM, and answer reads there under `/ROMDIS`.

The M4's frames and buffers are as long as what is in them. Of its ROM it asks only whether there is one.

## Main definitions

- `fsmStep`, `SmartWatch.tick`, `SmartWatch.devReset`: the clock.
- `M4.tick`, `M4.devReset`: the board.
-/

namespace Koncepcja.Expansion

open Koncepcja.Bytes

/-! ## The bus -/

/-- The committed bus of one master cycle. -/
structure CpuBus extends CpuLines where
  rfsh : Bool := false
  romdis : Bool := false
  ramdis : Bool := false
  fetch : Bool := false
  fetchAddr : UInt16 := 0
  deriving DecidableEq, Repr

/-- What a device drives. -/
structure Drive where
  romdis : Bool := false
  data : Option UInt8 := none
  deriving DecidableEq, Repr

namespace CpuBus

/-- An I/O write is on the bus. -/
def ioWrite (bus : CpuBus) : Bool := bus.iorq && !bus.m1 && bus.wr

def memRead (bus : CpuBus) : Bool := bus.mreq && bus.rd && !bus.rfsh

/-- The Gate Array's mode register is written: address and function. -/
def modeWrite (bus : CpuBus) : Bool := bus.addr &&& 0xC000 == 0x4000 && bus.data >>> 6 == 2

end CpuBus

/-! ## The clock -/

/-- The DS1216's recognition pattern. -/
def kPattern : Nat := 0x5CA33AC55CA33AC5

inductive SwPhase where
  | idle
  | matching
  | reading
  deriving DecidableEq, Repr

/-- `sw_state`. -/
structure SmartWatch where
  state : SwPhase := .idle
  bitIndex : Nat := 0
  shift : Nat := 0
  timeBcd : List UInt8 := List.replicate 8 0
  snap : List UInt8 := List.replicate 8 0
  plugged : Bool := false
  upperRomOff : UInt8 := 0
  drive : Bool := false
  driveBit : UInt8 := 0
  haveByte : Bool := false
  romByte : UInt8 := 0
  accPrev : Bool := false
  ioPrev : Bool := false
  deriving DecidableEq, Repr

/-- `kPattern`'s register takes in the next bit, the lowest first. -/
def shiftIn (shift bitIndex : Nat) (a0 : Bool) : Nat := shift ||| a0.toNat <<< bitIndex

/-- Bit `i` of the eight bytes of a clock. -/
def clockBit (clock : List UInt8) (i : Nat) : UInt8 := (byteAt clock (i / 8) >>> UInt8.ofNat (i % 8)) &&& 1

namespace SmartWatch

/-- A read with A2 low begins a match with its bit. -/
def begin (w : SmartWatch) (a0 : Bool) : SmartWatch :=
  { w with state := .matching, shift := a0.toNat, bitIndex := 1 }

/-- `fsm_step`: whether the access must carry a time bit, and the state behind it. -/
def fsmStep (w : SmartWatch) (a0 a2 : Bool) : Bool × SmartWatch :=
  match w.state with
  | .idle => (false, if a2 then w else w.begin a0)
  | .matching =>
    if a2 then (false, { w with state := .idle, bitIndex := 0 })
    else
      let w : SmartWatch := { w with shift := shiftIn w.shift w.bitIndex a0, bitIndex := w.bitIndex + 1 }
      if w.bitIndex = 64 then
        if w.shift = kPattern then (false, { w with snap := w.timeBcd, state := .reading, bitIndex := 0 })
        else (false, { w with state := .idle, bitIndex := 0 })
      else (false, w)
  | .reading =>
    if a2 then
      let w : SmartWatch := { w with driveBit := clockBit w.snap w.bitIndex, bitIndex := w.bitIndex + 1 }
      (true, if 64 ≤ w.bitIndex then { w with state := .idle, bitIndex := 0 } else w)
    else (false, w.begin a0)

/-- The snooped `/CE` of the socket, once for each write. -/
def snoop (w : SmartWatch) (bus : CpuBus) : SmartWatch :=
  let w : SmartWatch :=
    if bus.ioWrite && !w.ioPrev && bus.modeWrite then { w with upperRomOff := (bus.data >>> 3) &&& 1 } else w
  { w with ioPrev := bus.ioWrite }

/-- The socket is read. -/
def accessed (w : SmartWatch) (bus : CpuBus) : Bool :=
  bus.memRead && decide (0xC000 ≤ bus.addr) && w.upperRomOff == 0

/-- The FSM's step at the edge of an access. -/
def edgeStep (w : SmartWatch) (bus : CpuBus) : SmartWatch :=
  let r := w.fsmStep (bus.addr &&& 0x01 != 0) (bus.addr &&& 0x04 != 0)
  { r.2 with drive := r.1 }

/-- What the access reads: the byte of the chip is latched a tick behind the strobes, and D0 is
    overridden from then on. -/
def answer (w : SmartWatch) (bus : CpuBus) (edge : Bool) : SmartWatch × Drive :=
  if w.drive then
    let w : SmartWatch := if !edge && !w.haveByte then { w with romByte := bus.data, haveByte := true } else w
    (w, { romdis := true, data := if w.haveByte then some ((w.romByte &&& 0xFE) ||| w.driveBit) else none })
  else (w, {})

/-- `sw_tick`. -/
def tick (w : SmartWatch) (bus : CpuBus) : SmartWatch × Drive :=
  if w.plugged then
    let w := w.snoop bus
    let access := w.accessed bus
    let edge := access && !w.accPrev
    let w : SmartWatch := { w with accPrev := access }
    if access then (if edge then w.edgeStep bus else w).answer bus edge
    else ({ w with drive := false, haveByte := false }, {})
  else (w, {})

/-- `sw_dev_reset`. -/
def devReset (w : SmartWatch) : SmartWatch :=
  { w with
    state := .idle
    bitIndex := 0
    shift := 0
    drive := false
    driveBit := 0
    haveByte := false
    accPrev := false
    ioPrev := false }

/-- `smartwatch_set_time`. -/
def setTime (w : SmartWatch) (bcd : List UInt8) : SmartWatch := { w with timeBcd := bcd }

end SmartWatch

/-! ## The M4 board -/

def m4FrameMax : Nat := 4096
def m4ResponseSize : Nat := 0x600
def m4ConfigSize : Nat := 128
/-- The response window. -/
def kRespBase : UInt16 := 0xE800
/-- The configuration window. -/
def kConfigBase : UInt16 := 0xF400

/-- `M4Pending`: a frame for the host. -/
structure M4Pending where
  cmd : Nat := 0
  frame : List UInt8 := []
  deriving DecidableEq, Repr

/-- `m4_state`. -/
structure M4 where
  plugged : Bool := false
  slot : UInt8 := 6
  upperRomOff : UInt8 := 0
  romSelect : UInt8 := 0
  ioPrev : Bool := false
  acc : List UInt8 := []
  busy : Bool := false
  pending : M4Pending := {}
  pendingValid : Bool := false
  lastCmd : Nat := 0
  response : List UInt8 := List.replicate m4ResponseSize 0
  responseLen : Nat := 0
  config : List UInt8 := List.replicate m4ConfigSize 0
  configLen : Nat := 0
  rom : Bool := false
  deriving DecidableEq, Repr

namespace M4

/-- `latch_execute`: a full mailbox drops the frame, and so does a frame without a command. -/
def latchExecute (m : M4) : M4 :=
  if m.pendingValid then { m with acc := [] }
  else if 3 ≤ m.acc.length then
    let cmd := (byteAt m.acc 1).toNat + 256 * (byteAt m.acc 2).toNat
    { m with pending := { cmd, frame := m.acc }, pendingValid := true, busy := true, lastCmd := cmd, acc := [] }
  else { m with acc := [] }

def romSelected (m : M4) : Bool := m.rom && m.upperRomOff == 0 && m.romSelect == m.slot

/-- The snooped ROM enable and ROM number, on every cycle of a write. -/
def snoop (m : M4) (bus : CpuBus) : M4 :=
  if bus.ioWrite then
    let m : M4 := if bus.modeWrite then { m with upperRomOff := (bus.data >>> 3) &&& 1 } else m
    if bus.addr &&& 0x2000 = 0 then { m with romSelect := bus.data } else m
  else m

/-- The command port, and the execute port. -/
def command (m : M4) (bus : CpuBus) : M4 :=
  let cmdWr := bus.ioWrite && bus.addr &&& 0xFF00 == 0xFE00 && bus.addr &&& 0xFF == 0
  let execWr := bus.ioWrite && bus.addr &&& 0xFF00 == 0xFC00
  let edge := (cmdWr || execWr) && !m.ioPrev
  let m : M4 := { m with ioPrev := cmdWr || execWr }
  if edge then
    if cmdWr then (if m.acc.length < m4FrameMax then { m with acc := m.acc ++ [bus.data] } else m)
    else m.latchExecute
  else m

/-- The overlays of the two windows; the whole response window is blank while the host is at work. -/
def overlay (m : M4) (bus : CpuBus) : Drive :=
  if bus.memRead && m.romSelected then
    let a := bus.addr
    if m.busy ∧ kRespBase ≤ a ∧ a.toNat - kRespBase.toNat < m4ResponseSize then { romdis := true, data := some 0xFF }
    else if kRespBase ≤ a ∧ a.toNat - kRespBase.toNat < m.responseLen then
      { romdis := true, data := some (byteAt m.response (a.toNat - kRespBase.toNat)) }
    else if kConfigBase ≤ a ∧ a.toNat - kConfigBase.toNat < m.configLen then
      { romdis := true, data := some (byteAt m.config (a.toNat - kConfigBase.toNat)) }
    else {}
  else {}

/-- `m4_tick`. -/
def tick (m : M4) (bus : CpuBus) : M4 × Drive :=
  if m.plugged then
    let m := (m.snoop bus).command bus
    (m, m.overlay bus)
  else (m, {})

/-- `m4_dev_reset`. -/
def devReset (m : M4) : M4 :=
  { m with
    acc := []
    busy := false
    pendingValid := false
    pending := {}
    lastCmd := 0
    response := List.replicate m4ResponseSize 0
    responseLen := 0
    config := List.replicate m4ConfigSize 0
    configLen := 0
    ioPrev := false }

end M4

end Koncepcja.Expansion
