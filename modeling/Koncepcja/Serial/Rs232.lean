import Koncepcja.Buses
import Koncepcja.Lib.StartStop

/-!
# The RS232 Card

`src/hw/rs232.cpp`: channel A of the DART with its two bit engines, and the 8253 whose counter 0 sets
the bit time. The card drives `txd` and hears `rxd`, and the processor reaches it at `$FADC`-`$FADF`
and `$FBDC`-`$FBDF`.

Of the host's side of the card, `rs232_host_rx` and the `host_tx` callback, nothing is modelled; nor
are reset, save and load.
-/

namespace Koncepcja.Serial

open Koncepcja.StartStop

/-- One counter of the 8253; `rlMode` is 1 for the low byte, 2 for the high one, 3 for both. -/
structure Counter where
  reload : UInt16 := 0
  latch : UInt16 := 0
  latched : Bool := false
  ctrMode : UInt8 := 0
  rlMode : UInt8 := 3
  wrToggle : Bool := false
  rdToggle : Bool := false
  deriving DecidableEq, Repr

/-- `rs232_state`. The receive FIFO is the list of its bytes, the oldest first. -/
structure Rs232 where
  plugged : Bool := false
  regPtrA : UInt8 := 0
  regPtrB : UInt8 := 0
  wrA : List UInt8 := List.replicate 6 0
  wrB : List UInt8 := List.replicate 6 0
  rr1Err : UInt8 := 0
  rxFifo : List UInt8 := []
  txBuf : UInt8 := 0
  txBufFull : Bool := false
  tx : Transmitter := {}
  rx : Receiver := {}
  counter : List Counter := [{}, {}, {}]
  modeReg : UInt8 := 0
  accessPrev : Bool := false
  outLatch : UInt8 := 0
  deriving DecidableEq, Repr

def rxFifoSize : Nat := 3

def rr1FramingError : UInt8 := 0x08
def rr1Overrun : UInt8 := 0x10

namespace Rs232

/-- The divisor: the reload value of counter 0. -/
def divisor (s : Rs232) : UInt16 := (s.counter.getD 0 {}).reload

/-- `bit_time`: 128 ticks for each unit of the divisor, and zero is one. -/
def bitTime (divisor : UInt16) : Nat := (if divisor = 0 then 1 else divisor.toNat) * 128

/-- `rr0_of`. -/
def rr0 (s : Rs232) : UInt8 :=
  0x20 ||| (if s.rxFifo = [] then 0 else 0x01) ||| (if s.txBufFull then 0 else 0x04 ||| 0x08)

/-- `rr1_of`. -/
def rr1 (s : Rs232) : UInt8 := s.rr1Err ||| (if !s.txBufFull ∧ s.tx.bitsLeft = 0 then 0x01 else 0)

/-- `fifo_push`: a byte that finds the FIFO full is lost. -/
def fifoPush (s : Rs232) (byte : UInt8) : Rs232 :=
  if rxFifoSize ≤ s.rxFifo.length then { s with rr1Err := s.rr1Err ||| rr1Overrun }
  else { s with rxFifo := s.rxFifo ++ [byte] }

def fifoPop (s : Rs232) : Rs232 × UInt8 := ({ s with rxFifo := s.rxFifo.tail }, s.rxFifo.headD 0)

def chanAReset (s : Rs232) : Rs232 :=
  { s with
    regPtrA := 0
    wrA := List.replicate 6 0
    rr1Err := 0
    rxFifo := []
    txBufFull := false
    tx := { s.tx with bitsLeft := 0, cycle := 0, level := true }
    rx := { s.rx with phase := .idle } }

/-- The command of a write to WR0. -/
def command (val : UInt8) : UInt8 := val >>> 3 &&& 0x07

/-- `dart_ctrl_write` on channel A. -/
def ctrlWriteA (s : Rs232) (val : UInt8) : Rs232 :=
  if s.regPtrA = 0 then
    let s := { s with wrA := s.wrA.set 0 val, regPtrA := val &&& 0x07 }
    if command val = 3 then s.chanAReset
    else if command val = 6 then { s with rr1Err := 0 }
    else s
  else if s.regPtrA < 6 then { s with wrA := s.wrA.set s.regPtrA.toNat val, regPtrA := 0 }
  else { s with regPtrA := 0 }

/-- `dart_ctrl_write` on channel B, which has no wires. -/
def ctrlWriteB (s : Rs232) (val : UInt8) : Rs232 :=
  if s.regPtrB = 0 then { s with wrB := s.wrB.set 0 val, regPtrB := val &&& 0x07 }
  else if s.regPtrB < 6 then { s with wrB := s.wrB.set s.regPtrB.toNat val, regPtrB := 0 }
  else { s with regPtrB := 0 }

/-- `dart_ctrl_read` on channel A. -/
def ctrlReadA (s : Rs232) : Rs232 × UInt8 :=
  ({ s with regPtrA := 0 }, if s.regPtrA = 1 then s.rr1 else if s.regPtrA = 2 then 0 else s.rr0)

/-! ## The 8253 -/

/-- A control word for one counter: latch its value, or set its mode. -/
def counterControl (val : UInt8) (c : Counter) : Counter :=
  let rl := val >>> 4 &&& 0x03
  if rl = 0 then { c with latch := c.reload, latched := true }
  else { c with rlMode := rl, ctrMode := val >>> 1 &&& 0x07, wrToggle := false, rdToggle := false }

/-- A reload byte for a counter, low or high as its mode has it. -/
def counterWrite (val : UInt8) (c : Counter) : Counter :=
  let low : UInt16 := c.reload &&& (0xFF00 : UInt16) ||| val.toUInt16
  let high : UInt16 := c.reload &&& (0x00FF : UInt16) ||| val.toUInt16 <<< (8 : UInt16)
  if c.rlMode = 1 then { c with reload := low }
  else if c.rlMode = 2 then { c with reload := high }
  else if c.wrToggle then { c with reload := high, wrToggle := false }
  else { c with reload := low, wrToggle := true }

def pitWrite (s : Rs232) (offset : Nat) (val : UInt8) : Rs232 :=
  if offset = 3 then
    let sel := (val >>> 6).toNat
    if sel = 3 then s
    else
      { s with
        counter := s.counter.modify sel (counterControl val)
        modeReg := if val >>> 4 &&& 0x03 = 0 then s.modeReg else val }
  else { s with counter := s.counter.modify offset (counterWrite val) }

def pitReadPeek (s : Rs232) (offset : Nat) : UInt8 :=
  if offset = 3 then 0
  else
    let c := s.counter.getD offset {}
    let value := if c.latched then c.latch else c.reload
    if c.rlMode = 2 ∨ (c.rlMode = 3 ∧ c.rdToggle) then (value >>> 8).toUInt8 else value.toUInt8

/-- A byte of a counter has been read. -/
def counterRead (c : Counter) : Counter :=
  if c.rlMode = 1 ∨ c.rlMode = 2 then { c with latched := false }
  else if c.rdToggle then { c with rdToggle := false, latched := false }
  else { c with rdToggle := true }

def pitReadAdvance (s : Rs232) (offset : Nat) : Rs232 :=
  if offset = 3 then s else { s with counter := s.counter.modify offset counterRead }

/-! ## The bit engines -/

/-- What waits for the shift register. -/
def waiting (s : Rs232) : Option UInt8 := if s.txBufFull then some s.txBuf else none

/-- `tx_advance`: the buffer is free again as soon as the shift register has taken it. -/
def txAdvance (s : Rs232) : Rs232 :=
  { s with
    tx := s.tx.advance (bitTime s.divisor) s.waiting
    txBufFull := s.txBufFull && (s.tx.takes s.waiting).isNone }

/-- What the receiver reports at a tick. -/
def rxEvent (s : Rs232) (rxd : Bool) : Event := (s.rx.advance (bitTime s.divisor) rxd).2

def rxAdvance (s : Rs232) (rxd : Bool) : Rs232 :=
  let s' := { s with rx := (s.rx.advance (bitTime s.divisor) rxd).1 }
  match s.rxEvent rxd with
  | .none => s'
  | .byte b => s'.fifoPush b
  | .framingError => { s' with rr1Err := s'.rr1Err ||| rr1FramingError }

/-! ## Port accesses -/

/-- The ports of the card. -/
inductive Port where
  | dart (offset : Nat)
  | pit (offset : Nat)
  deriving DecidableEq, Repr

/-- The port the processor selects. -/
def portOf (cpu : CpuLines) : Option Port :=
  let hi := cpu.addr.toNat / 256
  let lo := cpu.addr.toNat % 256
  if cpu.iorq ∧ ¬ cpu.m1 ∧ (cpu.rd ∨ cpu.wr) ∧ (hi = 0xFA ∨ hi = 0xFB) ∧ 0xDC ≤ lo ∧ lo ≤ 0xDF then
    some (if hi = 0xFA then .dart (lo - 0xDC) else .pit (lo - 0xDC))
  else none

/-- A read of a port, at the start of its strobe. -/
def portRead (s : Rs232) : Port → Rs232 × UInt8
  | .dart 0 => s.fifoPop
  | .dart 1 => (s, 0)
  | .dart 2 => s.ctrlReadA
  | .dart _ => (s, 0)
  | .pit offset => (s.pitReadAdvance offset, s.pitReadPeek offset)

/-- A write to a port, at the start of its strobe. -/
def portWrite (s : Rs232) (data : UInt8) : Port → Rs232
  | .dart 0 => { s with txBuf := data, txBufFull := true }
  | .dart 1 => s
  | .dart 2 => s.ctrlWriteA data
  | .dart _ => s.ctrlWriteB data
  | .pit offset => s.pitWrite offset data

/-- What a tick does to the ports: `some (port, write)` at the start of a strobe. -/
def strobe (s : Rs232) (cpu : CpuLines) : Option (Port × Bool) :=
  if s.accessPrev then none else (portOf cpu).map fun port => (port, !cpu.rd)

/-- The access of a tick. -/
def access (s : Rs232) (cpu : CpuLines) : Rs232 :=
  let s' := { s with accessPrev := (portOf cpu).isSome }
  match s.strobe cpu with
  | none => s'
  | some (port, true) => s'.portWrite cpu.data port
  | some (port, false) => { (s'.portRead port).1 with outLatch := (s'.portRead port).2 }

/-- `rs232_tick`, as far as the card's own state goes. -/
def tick (s : Rs232) (cpu : CpuLines) (rxd : Bool) : Rs232 :=
  if s.plugged then (s.txAdvance.rxAdvance rxd).access cpu else s

/-- The level a card drives: unplugged, the line rests at mark. The level is that of the tick's
    `tx_advance`, which comes before the access. -/
def txdOut (s : Rs232) : Bool := if s.plugged then s.txAdvance.tx.level else true

/-- The byte a card drives on a read. -/
def dataOut (s : Rs232) (cpu : CpuLines) : Option UInt8 :=
  if (portOf cpu).isSome ∧ cpu.rd then some s.outLatch else none

end Rs232

end Koncepcja.Serial
