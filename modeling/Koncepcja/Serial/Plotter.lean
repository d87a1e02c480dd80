import Koncepcja.Serial.Rs232

/-!
# The Plotter's Serial Side

`src/hw/plotter_hp7470a.cpp`, as far as the line goes: the two bit engines, which receive on `txd`
and transmit on `rxd`, the input buffer with its flow control, and the answers to queries. The HP-GL
parser that the input buffer feeds, and the page it draws, send nothing back and are left out.

The two rings are the lists of their bytes, the oldest first.
-/

namespace Koncepcja.Serial

open Koncepcja.StartStop

/-- `plotter_state`, without the parser and the page. -/
structure Plotter where
  plugged : Bool := false
  divisor : UInt16 := 1
  rx : Receiver := {}
  tx : Transmitter := {}
  inbuf : List UInt8 := []
  drainCnt : Nat := 0
  flowStopped : Bool := false
  flowPending : UInt8 := 0
  resp : List UInt8 := []
  qbuf : List UInt8 := []
  deriving DecidableEq, Repr

def inbufSize : Nat := 255
def respSize : Nat := 32
/-- `sizeof(qbuf)`. -/
def qbufSize : Nat := 64
def drainByteTimes : Nat := 2
def xon : UInt8 := 0x11
def xoff : UInt8 := 0x13
def enq : UInt8 := 0x05
def xoffBelowFree : Nat := 32
def xonAboveFree : Nat := 128

namespace Plotter

/-- `bit_time`, as the card's. -/
def bitTime (s : Plotter) : Nat := Rs232.bitTime s.divisor

/-! ## Queries -/

/-- `resp_push`: what does not fit the ring is dropped. -/
def respPush (s : Plotter) (answer : List UInt8) : Plotter :=
  { s with resp := s.resp ++ answer.take (respSize - s.resp.length) }

/-- A character of a query: upper case, and nothing for a blank. -/
def queryChar (c : UInt8) : Option UInt8 :=
  if 0x61 ≤ c ∧ c ≤ 0x7A then some (c - 32) else if 0x20 < c then some c else none

/-- `query_process`: `OS`, `OD` and `OI` are answered. -/
def queryProcess (s : Plotter) : Plotter :=
  match s.qbuf.filterMap queryChar with
  | 0x4F :: 0x53 :: _ => s.respPush [0x31, 0x36, 0x0D]
  | 0x4F :: 0x44 :: _ =>
    s.respPush [0x30, 0x2C, 0x30, 0x2C, 0x31, 0x30, 0x33, 0x30, 0x30, 0x2C, 0x37, 0x36, 0x35, 0x30, 0x0D]
  | 0x4F :: 0x49 :: _ => s.respPush [0x37, 0x34, 0x37, 0x30, 0x41, 0x0D]
  | _ => s

/-- A query is over at one of these. -/
def endsQuery (c : UInt8) : Bool := c == 0x3B || c == 0x3A || c == 0x0D || c == 0x0A

def queryFeed (s : Plotter) (byte : UInt8) : Plotter :=
  let s := if s.qbuf.length < qbufSize then { s with qbuf := s.qbuf ++ [byte] } else s
  let s := if endsQuery byte then { s.queryProcess with qbuf := [] } else s
  if qbufSize ≤ s.qbuf.length then { s with qbuf := [] } else s

/-! ## The input buffer -/

def inFree (s : Plotter) : Nat := inbufSize - s.inbuf.length

/-- A number in decimal and a carriage return. -/
def decimalLine (n : Nat) : List UInt8 := (Nat.toDigits 10 n).map (fun c => UInt8.ofNat c.toNat) ++ [0x0D]

/-- The time until the next byte of the buffer is served. -/
def drainTime (s : Plotter) : Nat := 10 * s.bitTime * drainByteTimes

/-- A byte into the input buffer; a full buffer loses it. -/
def bufferByte (s : Plotter) (byte : UInt8) : Plotter :=
  if s.inbuf.length < inbufSize then
    { s with inbuf := s.inbuf ++ [byte], drainCnt := if s.drainCnt = 0 then s.drainTime else s.drainCnt }
  else s

/-- `on_receive_byte`: `ENQ` asks for the free space, all else goes into the buffer. -/
def onReceiveByte (s : Plotter) (byte : UInt8) : Plotter :=
  if byte = enq then s.respPush (decimalLine (min s.inFree 128))
  else
    let s := s.bufferByte byte
    if !s.flowStopped ∧ s.inFree < xoffBelowFree then { s with flowStopped := true, flowPending := xoff } else s

def serviceInput (s : Plotter) : Plotter :=
  match s.inbuf with
  | [] => s
  | byte :: rest =>
    if 1 < s.drainCnt then { s with drainCnt := s.drainCnt - 1 }
    else
      let s := { s with drainCnt := if 1 < s.inbuf.length then s.drainTime else 0, inbuf := rest }
      let s := s.queryFeed (byte &&& 0x7F)
      if s.flowStopped ∧ xonAboveFree < s.inFree then { s with flowStopped := false, flowPending := xon } else s

/-! ## The bit engines -/

/-- What the transmitter sends next: flow control before answers. -/
def waiting (s : Plotter) : Option UInt8 := if s.flowPending ≠ 0 then some s.flowPending else s.resp.head?

/-- The queues without what the transmitter has taken. -/
def taken (s : Plotter) : Plotter :=
  if s.flowPending ≠ 0 then { s with flowPending := 0 } else { s with resp := s.resp.tail }

def txAdvance (s : Plotter) : Plotter :=
  let s' := if (s.tx.takes s.waiting).isSome then s.taken else s
  { s' with tx := s.tx.advance s.bitTime s.waiting }

/-- What the receiver reports at a tick. -/
def rxEvent (s : Plotter) (line : Bool) : Event := (s.rx.advance s.bitTime line).2

/-- `rx_advance`: a byte with a low stop bit is discarded. -/
def rxAdvance (s : Plotter) (line : Bool) : Plotter :=
  let s' := { s with rx := (s.rx.advance s.bitTime line).1 }
  match s.rxEvent line with
  | .byte b => s'.onReceiveByte b
  | _ => s'

/-- `plt_tick`. -/
def tick (s : Plotter) (txd : Bool) : Plotter := if s.plugged then (s.txAdvance.rxAdvance txd).serviceInput else s

/-- The level a plotter drives: unplugged, the line rests at mark. -/
def rxdOut (s : Plotter) : Bool := if s.plugged then s.txAdvance.tx.level else true

end Plotter

end Koncepcja.Serial
