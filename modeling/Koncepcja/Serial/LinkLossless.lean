import Koncepcja.Serial.Plotter

/-!
# The Card and the Plotter Joined

The card and the plotter on one board: at each tick each hears what the other drove at the tick
before, and the processor does what it likes. What the processor writes while the transmit buffer is
empty the plotter receives, in order and whatever the time between the writes; what the plotter sends
the processor reads, in order, as long as no byte finds the card's FIFO full.

## Main results

- `Joined.tick`: one tick keeps both lines and sees no framing error.
- `Down.tick`, `Up.tick`: one tick keeps the account of the bytes of each direction.
- `link_lossless`: over any run no byte is lost, doubled or reordered.
-/

namespace Koncepcja.Serial

open Koncepcja.StartStop

/-! ## The board -/

/-- The two devices and the wires between them. -/
structure Link where
  card : Rs232
  plotter : Plotter
  txd : Bool := true
  rxd : Bool := true
  deriving DecidableEq, Repr

namespace Link

/-- `board_tick`: both devices read the wires as they were and drive them anew. -/
def tick (l : Link) (cpu : CpuLines) : Link where
  card := l.card.tick cpu l.rxd
  plotter := l.plotter.tick l.txd
  txd := l.card.txdOut
  rxd := l.plotter.rxdOut

/-- The byte the processor writes to the data port at a tick. -/
def writtenAt (l : Link) (cpu : CpuLines) : List UInt8 :=
  if l.card.strobe cpu = some (.dart 0, true) then [cpu.data] else []

/-- The byte the plotter's receiver passes on at a tick. -/
def receivedAt (l : Link) : List UInt8 := (l.plotter.rxEvent l.txd).bytes

/-- The byte the plotter's transmitter takes at a tick. -/
def sentAt (l : Link) : List UInt8 := (l.plotter.tx.takes l.plotter.waiting).toList

/-- The byte the processor reads from the card's FIFO at a tick. -/
def readAt (l : Link) (cpu : CpuLines) : List UInt8 :=
  if l.card.strobe cpu = some (.dart 0, false) then (l.card.txAdvance.rxAdvance l.rxd).rxFifo.take 1 else []

/-- The framing errors of a tick, at either end. -/
def framingErrorsAt (l : Link) : Nat :=
  (if l.plotter.rxEvent l.txd = .framingError then 1 else 0) + (if l.card.rxEvent l.rxd = .framingError then 1 else 0)

end Link

/-- What went over the line in a run. -/
structure Log where
  written : List UInt8 := []
  received : List UInt8 := []
  sent : List UInt8 := []
  read : List UInt8 := []
  framingErrors : Nat := 0
  deriving DecidableEq, Repr

/-- The log after one more tick. -/
def Log.tick (log : Log) (l : Link) (cpu : CpuLines) : Log where
  written := log.written ++ l.writtenAt cpu
  received := log.received ++ l.receivedAt
  sent := log.sent ++ l.sentAt
  read := log.read ++ l.readAt cpu
  framingErrors := log.framingErrors + l.framingErrorsAt

/-- A run: the processor's bus at each tick. -/
def runLink : Link × Log → List CpuLines → Link × Log
  | state, [] => state
  | (l, log), cpu :: cpus => runLink (l.tick cpu, log.tick l cpu) cpus

theorem runLink_append (state : Link × Log) (cpus cpus' : List CpuLines) :
    runLink state (cpus ++ cpus') = runLink (runLink state cpus) cpus' := by
  induction cpus generalizing state with
  | nil => rfl
  | cons cpu cpus ih => exact ih _

/-- A condition on every tick of a run. -/
def Along (p : Link → CpuLines → Prop) : Link → List CpuLines → Prop
  | _, [] => True
  | l, cpu :: cpus => p l cpu ∧ Along p (l.tick cpu) cpus

theorem Along.append {p : Link → CpuLines → Prop} {l : Link} (log : Log) {cpus cpus' : List CpuLines}
    (h : Along p l (cpus ++ cpus')) : Along p l cpus ∧ Along p (runLink (l, log) cpus).1 cpus' := by
  induction cpus generalizing l log with
  | nil => exact ⟨trivial, h⟩
  | cons cpu cpus ih =>
    obtain ⟨hfirst, hrest⟩ := ih (log.tick l cpu) h.2
    exact ⟨⟨h.1, hfirst⟩, hrest⟩

/-! ## What a run assumes -/

/-- A write to WR0 of channel A with the command that resets the channel. -/
def Rs232.ResetsChannel (s : Rs232) (cpu : CpuLines) : Prop :=
  s.strobe cpu = some (.dart 2, true) ∧ s.regPtrA = 0 ∧ Rs232.command cpu.data = 3

/-- Both ends have one bit time, and the processor does not reset the channel. -/
def Programmed (l : Link) (cpu : CpuLines) : Prop :=
  Rs232.bitTime l.card.divisor = l.plotter.bitTime ∧ ¬ l.card.ResetsChannel cpu

/-- A write to the data port finds the transmit buffer empty. -/
def WritesToEmpty (l : Link) (cpu : CpuLines) : Prop :=
  l.card.strobe cpu = some (.dart 0, true) → l.card.txAdvance.txBufFull = false

/-- A byte that arrives at the card finds room in the FIFO. -/
def ArrivesToRoom (l : Link) (_ : CpuLines) : Prop :=
  (l.card.rxEvent l.rxd).bytes ≠ [] → l.card.rxFifo.length < rxFifoSize

instance (s : Rs232) (cpu : CpuLines) : Decidable (s.ResetsChannel cpu) := inferInstanceAs (Decidable (_ ∧ _ ∧ _))
instance (l : Link) (cpu : CpuLines) : Decidable (Programmed l cpu) := inferInstanceAs (Decidable (_ ∧ ¬ _))
instance (l : Link) (cpu : CpuLines) : Decidable (WritesToEmpty l cpu) := inferInstanceAs (Decidable (_ → _))
instance (l : Link) (cpu : CpuLines) : Decidable (ArrivesToRoom l cpu) := inferInstanceAs (Decidable (_ → _))

/-! ## One tick of the card -/

namespace Rs232

variable {s : Rs232} {cpu : CpuLines}

/-- The bytes of the transmit buffer. -/
def buffered (s : Rs232) : List UInt8 := s.waiting.toList

theorem buffered_txAdvance (s : Rs232) : (s.tx.takes s.waiting).toList ++ s.txAdvance.buffered = s.buffered := by
  rw [buffered, buffered, waiting, waiting, txAdvance, Transmitter.takes]
  cases hfull : s.txBufFull with
  | false => simp
  | true =>
    by_cases hleft : s.tx.bitsLeft = 0
    · simp [hleft, waiting, hfull, Transmitter.takes]
    · simp [hleft, Transmitter.takes]

/-- What the line and its user see of a card; the registers and counters are not in it. -/
def wire (s : Rs232) : Bool × Transmitter × Receiver × UInt8 × Bool × List UInt8 :=
  (s.plugged, s.tx, s.rx, s.txBuf, s.txBufFull, s.rxFifo)

theorem wire_fifoPush (s : Rs232) (b : UInt8) : (s.fifoPush b).wire =
    (s.plugged, s.tx, s.rx, s.txBuf, s.txBufFull,
      if rxFifoSize ≤ s.rxFifo.length then s.rxFifo else s.rxFifo ++ [b]) := by
  rw [fifoPush]
  split <;> rfl

theorem wire_rxAdvance (s : Rs232) (rxd : Bool)
    (hroom : (s.rxEvent rxd).bytes ≠ [] → s.rxFifo.length < rxFifoSize) : (s.rxAdvance rxd).wire =
      (s.plugged, s.tx, (s.rx.advance (bitTime s.divisor) rxd).1, s.txBuf, s.txBufFull,
        s.rxFifo ++ (s.rxEvent rxd).bytes) := by
  rw [rxAdvance]
  cases hevent : s.rxEvent rxd with
  | none => simp only [Event.bytes, List.append_nil, wire]
  | byte b =>
    rw [hevent] at hroom
    have hlt := hroom (by simp [Event.bytes])
    dsimp only
    rw [wire_fifoPush, if_neg (by dsimp only; omega)]
    rfl
  | framingError => simp only [Event.bytes, List.append_nil, wire]

theorem rxAdvance_engines (s : Rs232) (rxd : Bool) : (s.rxAdvance rxd).plugged = s.plugged ∧
    (s.rxAdvance rxd).tx = s.tx ∧ (s.rxAdvance rxd).rx = (s.rx.advance (bitTime s.divisor) rxd).1 ∧
    (s.rxAdvance rxd).waiting = s.waiting ∧ (s.rxAdvance rxd).accessPrev = s.accessPrev ∧
    (s.rxAdvance rxd).regPtrA = s.regPtrA := by
  rw [rxAdvance]
  cases s.rxEvent rxd with
  | none => exact ⟨rfl, rfl, rfl, rfl, rfl, rfl⟩
  | framingError => exact ⟨rfl, rfl, rfl, rfl, rfl, rfl⟩
  | byte b =>
    dsimp only
    rw [fifoPush]
    split <;> exact ⟨rfl, rfl, rfl, rfl, rfl, rfl⟩

/-! ### Accesses -/

theorem wire_ctrlWriteA {val : UInt8} (h : ¬ (s.regPtrA = 0 ∧ command val = 3)) :
    (s.ctrlWriteA val).wire = s.wire := by
  rw [ctrlWriteA]
  split
  · next hptr =>
    dsimp only
    rw [if_neg fun hcmd => h ⟨hptr, hcmd⟩]
    split <;> rfl
  · split <;> rfl

theorem wire_ctrlWriteB (val : UInt8) : (s.ctrlWriteB val).wire = s.wire := by
  rw [ctrlWriteB]
  split
  · rfl
  · split <;> rfl

theorem wire_pitWrite (offset : Nat) (val : UInt8) : (s.pitWrite offset val).wire = s.wire := by
  rw [pitWrite]
  split
  · dsimp only
    split <;> rfl
  · rfl

theorem wire_pitReadAdvance (offset : Nat) : (s.pitReadAdvance offset).wire = s.wire := by
  rw [pitReadAdvance]
  split <;> rfl

theorem wire_access_of_ne (hreset : ¬ s.ResetsChannel cpu) (hwrite : s.strobe cpu ≠ some (.dart 0, true))
    (hread : s.strobe cpu ≠ some (.dart 0, false)) : (s.access cpu).wire = s.wire := by
  rw [access]
  cases hstrobe : s.strobe cpu with
  | none => rfl
  | some strobe =>
    obtain ⟨port, write⟩ := strobe
    cases write with
    | true =>
      dsimp only
      match port, hstrobe with
      | .dart 0, hstrobe => exact absurd hstrobe hwrite
      | .dart 1, _ => rfl
      | .dart 2, hstrobe => exact wire_ctrlWriteA fun h => hreset ⟨hstrobe, h⟩
      | .dart (_ + 3), _ => exact wire_ctrlWriteB _
      | .pit offset, _ => exact wire_pitWrite offset _
    | false =>
      dsimp only
      match port, hstrobe with
      | .dart 0, hstrobe => exact absurd hstrobe hread
      | .dart 1, _ => rfl
      | .dart 2, _ => rfl
      | .dart (_ + 3), _ => rfl
      | .pit offset, _ => exact wire_pitReadAdvance offset

theorem wire_access_write (h : s.strobe cpu = some (.dart 0, true)) :
    (s.access cpu).wire = (s.plugged, s.tx, s.rx, cpu.data, true, s.rxFifo) := by
  rw [access, h]
  rfl

theorem wire_access_read (h : s.strobe cpu = some (.dart 0, false)) :
    (s.access cpu).wire = (s.plugged, s.tx, s.rx, s.txBuf, s.txBufFull, s.rxFifo.tail) := by
  rw [access, h]
  rfl

theorem access_engines (hreset : ¬ s.ResetsChannel cpu) : (s.access cpu).plugged = s.plugged ∧
    (s.access cpu).tx = s.tx ∧ (s.access cpu).rx = s.rx := by
  have hparts : ∀ a b : Rs232, a.wire = b.wire → a.plugged = b.plugged ∧ a.tx = b.tx ∧ a.rx = b.rx := by
    intro a b h
    simp only [wire, Prod.mk.injEq] at h
    exact ⟨h.1, h.2.1, h.2.2.1⟩
  by_cases hwrite : s.strobe cpu = some (.dart 0, true)
  · exact hparts _ { s with txBuf := cpu.data, txBufFull := true } (wire_access_write hwrite)
  · by_cases hread : s.strobe cpu = some (.dart 0, false)
    · exact hparts _ { s with rxFifo := s.rxFifo.tail } (wire_access_read hread)
    · exact hparts _ _ (wire_access_of_ne hreset hwrite hread)

theorem access_buffered (hreset : ¬ s.ResetsChannel cpu) : (s.access cpu).buffered =
    if s.strobe cpu = some (.dart 0, true) then [cpu.data] else s.buffered := by
  have hparts : ∀ a b : Rs232, a.wire = b.wire → a.buffered = b.buffered := by
    intro a b h
    simp only [wire, Prod.mk.injEq] at h
    rw [buffered, buffered, waiting, waiting, h.2.2.2.1, h.2.2.2.2.1]
  split
  · next hwrite => exact hparts _ { s with txBuf := cpu.data, txBufFull := true } (wire_access_write hwrite)
  · next hwrite =>
    by_cases hread : s.strobe cpu = some (.dart 0, false)
    · exact hparts _ { s with rxFifo := s.rxFifo.tail } (wire_access_read hread)
    · exact hparts _ _ (wire_access_of_ne hreset hwrite hread)

theorem access_rxFifo (hreset : ¬ s.ResetsChannel cpu) : (s.access cpu).rxFifo =
    if s.strobe cpu = some (.dart 0, false) then s.rxFifo.tail else s.rxFifo := by
  have hparts : ∀ a b : Rs232, a.wire = b.wire → a.rxFifo = b.rxFifo := by
    intro a b h
    simp only [wire, Prod.mk.injEq] at h
    exact h.2.2.2.2.2
  split
  · next hread => exact hparts _ { s with rxFifo := s.rxFifo.tail } (wire_access_read hread)
  · next hread =>
    by_cases hwrite : s.strobe cpu = some (.dart 0, true)
    · exact hparts _ { s with txBuf := cpu.data, txBufFull := true } (wire_access_write hwrite)
    · exact hparts _ _ (wire_access_of_ne hreset hwrite hread)

/-! ### A whole tick -/

variable (cpu) in
theorem tick_engines (rxd : Bool) (hplugged : s.plugged = true) (hreset : ¬ s.ResetsChannel cpu) :
    (s.tick cpu rxd).plugged = true ∧
    (s.tick cpu rxd).tx = s.tx.advance (bitTime s.divisor) s.waiting ∧
    (s.tick cpu rxd).rx = (s.rx.advance (bitTime s.divisor) rxd).1 ∧
    (s.tick cpu rxd).buffered =
      if s.strobe cpu = some (.dart 0, true) then [cpu.data] else s.txAdvance.buffered := by
  obtain ⟨hp, htx, hrx, hwaiting, hprev, hptr⟩ := rxAdvance_engines s.txAdvance rxd
  have hstrobe : (s.txAdvance.rxAdvance rxd).strobe cpu = s.strobe cpu := by
    rw [strobe, strobe, hprev]
    rfl
  have hreset' : ¬ (s.txAdvance.rxAdvance rxd).ResetsChannel cpu := by
    rw [ResetsChannel, hstrobe, hptr]
    exact hreset
  obtain ⟨hp', htx', hrx'⟩ := access_engines hreset'
  rw [tick, if_pos hplugged, hp', htx', hrx', hp, htx, hrx, access_buffered hreset', hstrobe, buffered, hwaiting]
  exact ⟨hplugged, rfl, rfl, rfl⟩

variable (cpu) in
theorem tick_rxFifo (rxd : Bool) (hplugged : s.plugged = true) (hreset : ¬ s.ResetsChannel cpu)
    (hroom : (s.rxEvent rxd).bytes ≠ [] → s.rxFifo.length < rxFifoSize) :
    (s.txAdvance.rxAdvance rxd).rxFifo = s.rxFifo ++ (s.rxEvent rxd).bytes ∧
    (s.tick cpu rxd).rxFifo =
      if s.strobe cpu = some (.dart 0, false) then (s.rxFifo ++ (s.rxEvent rxd).bytes).tail
      else s.rxFifo ++ (s.rxEvent rxd).bytes := by
  obtain ⟨-, -, -, -, hprev, hptr⟩ := rxAdvance_engines s.txAdvance rxd
  have hstrobe : (s.txAdvance.rxAdvance rxd).strobe cpu = s.strobe cpu := by
    rw [strobe, strobe, hprev]
    rfl
  have hreset' : ¬ (s.txAdvance.rxAdvance rxd).ResetsChannel cpu := by
    rw [ResetsChannel, hstrobe, hptr]
    exact hreset
  have hfifo : (s.txAdvance.rxAdvance rxd).rxFifo = s.rxFifo ++ (s.rxEvent rxd).bytes := by
    have h := wire_rxAdvance s.txAdvance rxd hroom
    simp only [wire, Prod.mk.injEq] at h
    exact h.2.2.2.2.2
  refine ⟨hfifo, ?_⟩
  rw [tick, if_pos hplugged, access_rxFifo hreset', hstrobe, hfifo]

end Rs232

/-! ## One tick of the plotter -/

namespace Plotter

variable {s : Plotter}

/-- What the line sees of a plotter; its buffers are not in it. -/
def wire (s : Plotter) : Bool × UInt16 × Receiver × Transmitter := (s.plugged, s.divisor, s.rx, s.tx)

theorem wire_queryProcess (s : Plotter) : s.queryProcess.wire = s.wire := by
  rw [queryProcess]
  split <;> rfl

theorem wire_queryFeed (s : Plotter) (byte : UInt8) : (s.queryFeed byte).wire = s.wire := by
  have hpush : (if s.qbuf.length < qbufSize then { s with qbuf := s.qbuf ++ [byte] } else s : Plotter).wire =
      s.wire := by
    split <;> rfl
  have hend : ∀ a : Plotter,
      (if endsQuery byte then { a.queryProcess with qbuf := [] } else a : Plotter).wire = a.wire := fun a => by
    split
    · exact wire_queryProcess a
    · rfl
  have hlong : ∀ a : Plotter, (if qbufSize ≤ a.qbuf.length then { a with qbuf := [] } else a : Plotter).wire =
      a.wire := fun a => by
    split <;> rfl
  exact (hlong _).trans ((hend _).trans hpush)

theorem wire_onReceiveByte (s : Plotter) (byte : UInt8) : (s.onReceiveByte byte).wire = s.wire := by
  have hbuffer : (s.bufferByte byte).wire = s.wire := by
    rw [bufferByte]
    split <;> rfl
  rw [onReceiveByte]
  split
  · rfl
  · dsimp only
    split <;> exact hbuffer

theorem wire_serviceInput (s : Plotter) : s.serviceInput.wire = s.wire := by
  have hflow : ∀ a : Plotter, (if a.flowStopped ∧ xonAboveFree < a.inFree then
      { a with flowStopped := false, flowPending := xon } else a : Plotter).wire = a.wire := fun a => by
    split <;> rfl
  rw [serviceInput]
  split
  · rfl
  · split
    · rfl
    · exact (hflow _).trans (wire_queryFeed _ _)

theorem tick_wire (txd : Bool) (hplugged : s.plugged = true) : (s.tick txd).wire =
    (true, s.divisor, (s.rx.advance s.bitTime txd).1, s.tx.advance s.bitTime s.waiting) := by
  have htx : s.txAdvance.wire = (s.plugged, s.divisor, s.rx, s.tx.advance s.bitTime s.waiting) := by
    rw [txAdvance]
    split
    · rw [taken]
      split <;> rfl
    · rfl
  have hrx : ∀ a : Plotter, (a.rxAdvance txd).wire =
      (a.plugged, a.divisor, (a.rx.advance a.bitTime txd).1, a.tx) := fun a => by
    rw [rxAdvance]
    cases a.rxEvent txd with
    | byte b => exact wire_onReceiveByte _ b
    | none | framingError => rfl
  simp only [wire, Prod.mk.injEq] at htx
  rw [tick, if_pos hplugged, wire_serviceInput, hrx, bitTime, htx.1, htx.2.1, htx.2.2.1, htx.2.2.2, hplugged]
  rfl

theorem tick_engines (txd : Bool) (hplugged : s.plugged = true) : (s.tick txd).plugged = true ∧
    (s.tick txd).bitTime = s.bitTime ∧ (s.tick txd).rx = (s.rx.advance s.bitTime txd).1 ∧
    (s.tick txd).tx = s.tx.advance s.bitTime s.waiting := by
  have h := tick_wire txd hplugged
  simp only [wire, Prod.mk.injEq] at h
  exact ⟨h.1, congrArg Rs232.bitTime h.2.1, h.2.2.1, h.2.2.2⟩

end Plotter

/-! ## The two lines -/

theorem Rs232.four_le_bitTime (divisor : UInt16) : 4 ≤ Rs232.bitTime divisor := by
  rw [Rs232.bitTime]
  split
  · decide
  · next h =>
    have hpos : 0 < divisor.toNat := Nat.pos_of_ne_zero fun h0 => h (UInt16.toNat_inj.mp h0)
    omega

/-- Both devices are plugged in, the wires carry the levels they drive, and each line is on its way. -/
structure Joined (l : Link) (down up : List UInt8) : Prop where
  card : l.card.plugged = true
  plotter : l.plotter.plugged = true
  txd : l.txd = l.card.tx.level
  rxd : l.rxd = l.plotter.tx.level
  down : Line l.plotter.bitTime l.card.tx l.plotter.rx down
  up : Line l.plotter.bitTime l.plotter.tx l.card.rx up

/-- One tick of both lines: what is taken at one end is passed on at the other or held, in order. -/
theorem Joined.tick {l : Link} {down up : List UInt8} (h : Joined l down up) {cpu : CpuLines} (hp : Programmed l cpu) :
    ∃ down' up', Joined (l.tick cpu) down' up' ∧ l.framingErrorsAt = 0 ∧
      down ++ (l.card.tx.takes l.card.waiting).toList = l.receivedAt ++ down' ∧
      up ++ l.sentAt = (l.card.rxEvent l.rxd).bytes ++ up' := by
  obtain ⟨hbt, hreset⟩ := hp
  have h4 : 4 ≤ l.plotter.bitTime := Rs232.four_le_bitTime _
  obtain ⟨hcard, hcardTx, hcardRx, -⟩ := Rs232.tick_engines cpu l.rxd h.card hreset
  obtain ⟨hplotter, hplotterBt, hplotterRx, hplotterTx⟩ := Plotter.tick_engines l.txd h.plotter
  have hcardRx' : (l.card.tick cpu l.rxd).rx = (l.card.rx.advance l.plotter.bitTime l.plotter.tx.level).1 := by
    rw [hcardRx, hbt, h.rxd]
  have hplotterRx' : (l.plotter.tick l.txd).rx = (l.plotter.rx.advance l.plotter.bitTime l.card.tx.level).1 := by
    rw [hplotterRx, h.txd]
  rw [hbt] at hcardTx
  -- Each direction is a line of its own, at one bit time.
  obtain ⟨down', hdown, hdownError, hdownBytes⟩ := h.down.advance h4 l.card.waiting
  obtain ⟨up', hup, hupError, hupBytes⟩ := h.up.advance h4 l.plotter.waiting
  have hcardEvent : l.card.rxEvent l.rxd = (l.card.rx.advance l.plotter.bitTime l.plotter.tx.level).2 := by
    rw [Rs232.rxEvent, hbt, h.rxd]
  have hplotterEvent : l.plotter.rxEvent l.txd = (l.plotter.rx.advance l.plotter.bitTime l.card.tx.level).2 := by
    rw [Plotter.rxEvent, h.txd]
  -- The ends stay plugged, the levels are those of the transmitters, and both lines go on.
  refine ⟨down', up', ⟨?_, ?_, ?_, ?_, ?_, ?_⟩, ?_, ?_, ?_⟩
  · exact hcard
  · exact hplotter
  · change l.card.txdOut = (l.card.tick cpu l.rxd).tx.level
    rw [Rs232.txdOut, if_pos h.card, (Rs232.tick_engines cpu l.rxd h.card hreset).2.1]
    rfl
  · change l.plotter.rxdOut = (l.plotter.tick l.txd).tx.level
    rw [Plotter.rxdOut, if_pos h.plotter, hplotterTx]
    rfl
  · change Line (l.plotter.tick l.txd).bitTime (l.card.tick cpu l.rxd).tx (l.plotter.tick l.txd).rx down'
    rw [hplotterBt, hcardTx, hplotterRx']
    exact hdown
  · change Line (l.plotter.tick l.txd).bitTime (l.plotter.tick l.txd).tx (l.card.tick cpu l.rxd).rx up'
    rw [hplotterBt, hplotterTx, hcardRx']
    exact hup
  · rw [Link.framingErrorsAt, hcardEvent, hplotterEvent, if_neg hdownError, if_neg hupError]
  · rw [Link.receivedAt, hplotterEvent]
    exact hdownBytes
  · rw [hcardEvent]
    exact hupBytes

/-! ## The bytes of each direction -/

/-- What was written is received, on the line or in the buffer. -/
def DownAccount (l : Link) (log : Log) (down : List UInt8) : Prop :=
  log.written = log.received ++ (down ++ l.card.buffered)

/-- What was in the FIFO or sent since is read, in the FIFO or on the line. -/
def UpAccount (fifo : List UInt8) (l : Link) (log : Log) (up : List UInt8) : Prop :=
  fifo ++ log.sent = log.read ++ (l.card.rxFifo ++ up)

section Accounts

variable {l : Link} {log : Log} {cpu : CpuLines} {fifo down up down' up' : List UInt8}

theorem DownAccount.tick (h : DownAccount l log down) (hplugged : l.card.plugged = true) (hp : Programmed l cpu)
    (hempty : WritesToEmpty l cpu) (hdown : down ++ (l.card.tx.takes l.card.waiting).toList = l.receivedAt ++ down') :
    DownAccount (l.tick cpu) (log.tick l cpu) down' := by
  obtain ⟨-, -, -, hbuffered⟩ := Rs232.tick_engines cpu l.rxd hplugged hp.2
  -- nothing is lost between the buffer and the line
  have hkept : log.written = log.received ++ l.receivedAt ++ down' ++ l.card.txAdvance.buffered := by
    rw [h, ← Rs232.buffered_txAdvance, ← List.append_assoc down, hdown]
    simp only [List.append_assoc]
  change log.written ++ l.writtenAt cpu =
    log.received ++ l.receivedAt ++ (down' ++ (l.card.tick cpu l.rxd).buffered)
  rw [hbuffered, Link.writtenAt, hkept]
  split
  · next hwrite =>
    have hnone : l.card.txAdvance.buffered = [] := by
      rw [Rs232.buffered, Rs232.waiting, hempty hwrite]
      rfl
    rw [hnone]
    simp only [List.append_assoc, List.nil_append]
  · simp only [List.append_assoc, List.append_nil]

theorem UpAccount.tick (h : UpAccount fifo l log up) (hplugged : l.card.plugged = true) (hp : Programmed l cpu)
    (hroom : ArrivesToRoom l cpu) (hup : up ++ l.sentAt = (l.card.rxEvent l.rxd).bytes ++ up') :
    UpAccount fifo (l.tick cpu) (log.tick l cpu) up' := by
  obtain ⟨harrived, hfifo⟩ := Rs232.tick_rxFifo cpu l.rxd hplugged hp.2 hroom
  have hkept : fifo ++ (log.sent ++ l.sentAt) = log.read ++ (l.card.rxFifo ++ (l.card.rxEvent l.rxd).bytes) ++ up' := by
    rw [← List.append_assoc, h, List.append_assoc, List.append_assoc, hup]
    simp only [List.append_assoc]
  change fifo ++ (log.sent ++ l.sentAt) =
    log.read ++ l.readAt cpu ++ ((l.card.tick cpu l.rxd).rxFifo ++ up')
  rw [hkept, hfifo, Link.readAt, harrived]
  split
  · have hsplit : ∀ bytes : List UInt8, bytes = bytes.take 1 ++ bytes.tail := fun bytes => by
      rw [← List.drop_one, List.take_append_drop]
    rw [List.append_assoc log.read (List.take 1 _), ← List.append_assoc (List.take 1 _), ← hsplit, List.append_assoc]
  · simp only [List.append_assoc, List.append_nil]

variable (log fifo) in
theorem Joined.run (h : Joined l down up) {cpus : List CpuLines} (hp : Along Programmed l cpus) :
    ∃ down' up', Joined (runLink (l, log) cpus).1 down' up' ∧
      (runLink (l, log) cpus).2.framingErrors = log.framingErrors ∧
      (Along WritesToEmpty l cpus → DownAccount l log down →
        DownAccount (runLink (l, log) cpus).1 (runLink (l, log) cpus).2 down') ∧
      (Along ArrivesToRoom l cpus → UpAccount fifo l log up →
        UpAccount fifo (runLink (l, log) cpus).1 (runLink (l, log) cpus).2 up') := by
  induction cpus generalizing l log down up with
  | nil => exact ⟨down, up, h, rfl, fun _ hdown => hdown, fun _ hup => hup⟩
  | cons cpu cpus ih =>
    obtain ⟨down₁, up₁, htick, herrors, hdown, hup⟩ := h.tick hp.1
    obtain ⟨down', up', hrun, herrors', hdown', hup'⟩ := ih (log.tick l cpu) htick hp.2
    refine ⟨down', up', hrun, ?_, fun hempty haccount => ?_, fun hroom haccount => ?_⟩
    · change (runLink (l.tick cpu, log.tick l cpu) cpus).2.framingErrors = _
      rw [herrors']
      change log.framingErrors + l.framingErrorsAt = _
      rw [herrors, Nat.add_zero]
    · exact hdown' hempty.2 (haccount.tick h.card hp.1 hempty.1 hdown)
    · exact hup' hroom.2 (haccount.tick h.card hp.1 hroom.1 hup)

end Accounts

/-! ## How long the line takes to settle -/

/-- The lines are up, and a bit takes `bt` ticks. -/
def Running (bt : Nat) (l : Link) : Prop := (∃ down up, Joined l down up) ∧ l.plotter.bitTime = bt

theorem Running.tick {bt : Nat} {l : Link} (h : Running bt l) {cpu : CpuLines} (hp : Programmed l cpu) :
    Running bt (l.tick cpu) := by
  obtain ⟨⟨down, up, hjoined⟩, hbt⟩ := h
  obtain ⟨down', up', htick, -⟩ := hjoined.tick hp
  exact ⟨⟨down', up', htick⟩, (Plotter.tick_engines l.txd hjoined.plotter).2.1.trans hbt⟩

theorem Running.run {bt : Nat} {l : Link} (h : Running bt l) {log : Log} {cpus : List CpuLines}
    (hp : Along Programmed l cpus) : Running bt (runLink (l, log) cpus).1 := by
  induction cpus generalizing l log with
  | nil => exact h
  | cons cpu cpus ih => exact ih (h.tick hp.1) hp.2

theorem Running.settles {bt : Nat} (measure : Link → Nat) {p : Link → CpuLines → Prop}
    (hstep : ∀ l cpu, Running bt l → Programmed l cpu → p l cpu → measure (l.tick cpu) ≤ measure l - 1)
    {l : Link} (h : Running bt l) (log : Log) {cpus : List CpuLines} (hp : Along Programmed l cpus) (hq : Along p l cpus) :
    measure (runLink (l, log) cpus).1 ≤ measure l - cpus.length := by
  induction cpus generalizing l log with
  | nil => exact Nat.le_refl _
  | cons cpu cpus ih =>
    have hrun := ih (h.tick hp.1) (log.tick l cpu) hp.2 hq.2
    have hfirst := hstep l cpu h hp.1 hq.1
    change measure (runLink (l.tick cpu, log.tick l cpu) cpus).1 ≤ _
    rw [List.length_cons]
    omega

/-- The ticks until what the card has to send is on the line and off it. -/
def cardLeft (bt : Nat) (l : Link) : Nat := l.card.tx.left bt + if l.card.txBufFull then 10 * bt else 0

/-- The ticks until the byte the plotter is sending is off the line. -/
def plotterLeft (bt : Nat) (l : Link) : Nat := l.plotter.tx.left bt

theorem Running.cardLeft_tick {bt : Nat} {l : Link} (h : Running bt l) {cpu : CpuLines} (hp : Programmed l cpu)
    (hwrite : l.writtenAt cpu = []) : cardLeft bt (l.tick cpu) ≤ cardLeft bt l - 1 := by
  obtain ⟨⟨down, up, hjoined⟩, hbt⟩ := h
  obtain ⟨-, htx, -, hbuffered⟩ := Rs232.tick_engines cpu l.rxd hjoined.card hp.2
  have hdown := hjoined.down
  have hpos : 0 < bt := by
    have := Rs232.four_le_bitTime l.plotter.divisor
    rw [← hbt, Plotter.bitTime]
    omega
  -- without a write the buffer only empties
  have hstrobe : ¬ l.card.strobe cpu = some (.dart 0, true) := fun hstrobe => by
    rw [Link.writtenAt, if_pos hstrobe] at hwrite
    cases hwrite
  have hfull : ∀ s s' : Rs232, s.buffered = s'.buffered → s.txBufFull = s'.txBufFull := fun s s' heq => by
    rw [Rs232.buffered, Rs232.buffered, Rs232.waiting, Rs232.waiting] at heq
    cases hs : s.txBufFull <;> cases hs' : s'.txBufFull <;> simp_all
  rw [if_neg hstrobe] at hbuffered
  have hfull' := hfull _ _ hbuffered
  change (l.card.tick cpu l.rxd).tx.left bt + (if (l.card.tick cpu l.rxd).txBufFull then 10 * bt else 0) ≤
    l.card.tx.left bt + (if l.card.txBufFull then 10 * bt else 0) - 1
  rw [htx, hfull', hp.1, hbt, Rs232.txAdvance]
  rw [hbt] at hdown
  dsimp only
  cases htakes : l.card.tx.takes l.card.waiting with
  | none =>
    rw [hdown.left_advance htakes, Option.isNone_none, Bool.and_true]
    cases hbuf : l.card.txBufFull with
    | false => rw [if_neg (by simp), Nat.add_zero, Nat.add_zero]
    | true =>
      -- a full buffer waits for a frame that is not over
      rw [if_pos rfl]
      have hbusy : 0 < l.card.tx.left bt := by
        by_contra hzero
        rw [Transmitter.takes, Rs232.waiting, hbuf, if_pos rfl] at htakes
        split at htakes
        · cases htakes
        · next hleft =>
          cases hdown with
          | idle hidle => exact hleft hidle
          | busy b k c hlevel hat hhears =>
            have := hat.left_shiftOut
            omega
      omega
  | some b =>
    rw [Option.isNone_some, Bool.and_false, if_neg (by simp), Nat.add_zero]
    rw [Transmitter.takes] at htakes
    split at htakes
    · next hidle =>
      have hbuf : l.card.txBufFull = true := by
        by_contra hempty
        rw [Rs232.waiting, if_neg hempty] at htakes
        cases htakes
      have hframe := Transmitter.left_advance_some hpos hidle b
      rw [htakes, if_pos hbuf]
      omega
    · cases htakes

theorem Running.plotterLeft_tick {bt : Nat} {l : Link} (h : Running bt l) {cpu : CpuLines}
    (hsent : l.sentAt = []) : plotterLeft bt (l.tick cpu) ≤ plotterLeft bt l - 1 := by
  obtain ⟨⟨down, up, hjoined⟩, hbt⟩ := h
  obtain ⟨-, -, -, htx⟩ := Plotter.tick_engines l.txd hjoined.plotter
  have hup := hjoined.up
  have htakes : l.plotter.tx.takes l.plotter.waiting = none := by
    rw [Link.sentAt] at hsent
    cases htakes : l.plotter.tx.takes l.plotter.waiting with
    | none => rfl
    | some b =>
      rw [htakes] at hsent
      cases hsent
  rw [hbt] at hup
  change (l.plotter.tick l.txd).tx.left bt ≤ l.plotter.tx.left bt - 1
  rw [htx, hbt, hup.left_advance htakes]

/-! ## Ticks without an access -/

theorem Rs232.tick_divisor {s : Rs232} {cpu : CpuLines} (rxd : Bool) (hport : portOf cpu = none) :
    (s.tick cpu rxd).divisor = s.divisor := by
  have hrx : ∀ a : Rs232, (a.rxAdvance rxd).counter = a.counter := fun a => by
    rw [Rs232.rxAdvance]
    cases a.rxEvent rxd with
    | none | framingError => rfl
    | byte b =>
      dsimp only
      rw [Rs232.fifoPush]
      split <;> rfl
  have haccess : ∀ a : Rs232, (a.access cpu).counter = a.counter := fun a => by
    have hstrobe : a.strobe cpu = none := by
      rw [Rs232.strobe, hport]
      split <;> rfl
    rw [Rs232.access, hstrobe]
  rw [Rs232.tick]
  split
  · rw [Rs232.divisor, haccess, hrx]
    rfl
  · rfl

theorem along_of_idle {l : Link} (hcard : l.card.plugged = true) (hplotter : l.plotter.plugged = true)
    (hbt : Rs232.bitTime l.card.divisor = l.plotter.bitTime) {cpus : List CpuLines}
    (hidle : ∀ cpu ∈ cpus, Rs232.portOf cpu = none) :
    Along Programmed l cpus ∧ Along WritesToEmpty l cpus ∧ Along (fun l cpu => l.writtenAt cpu = []) l cpus := by
  induction cpus generalizing l with
  | nil => exact ⟨trivial, trivial, trivial⟩
  | cons cpu cpus ih =>
    have hport := hidle cpu List.mem_cons_self
    have hstrobe : l.card.strobe cpu = none := by
      rw [Rs232.strobe, hport]
      split <;> rfl
    have hreset : ¬ l.card.ResetsChannel cpu := fun h => by
      rw [Rs232.ResetsChannel, hstrobe] at h
      cases h.1
    have hengines := Rs232.tick_engines cpu l.rxd hcard hreset
    have hengines' := Plotter.tick_engines l.txd hplotter
    have hbt' : Rs232.bitTime (l.tick cpu).card.divisor = (l.tick cpu).plotter.bitTime :=
      ((congrArg _ (Rs232.tick_divisor l.rxd hport)).trans hbt).trans hengines'.2.1.symm
    have hrest := ih hengines.1 hengines'.1 hbt' fun cpu h => hidle cpu (List.mem_cons_of_mem _ h)
    refine ⟨⟨⟨hbt, hreset⟩, hrest.1⟩, ⟨fun h => ?_, hrest.2.1⟩, ⟨?_, hrest.2.2⟩⟩
    · rw [hstrobe] at h
      cases h
    · change (if l.card.strobe cpu = some (.dart 0, true) then [cpu.data] else []) = []
      rw [if_neg (by rw [hstrobe]; exact Option.some_ne_none _ ∘ Eq.symm)]

/-! ## The link -/

/-- Both devices are plugged in and both lines are at mark, with nothing to send and no byte begun. -/
structure Link.Quiet (l : Link) : Prop where
  card : l.card.plugged = true
  plotter : l.plotter.plugged = true
  txd : l.txd = true
  rxd : l.rxd = true
  cardTx : l.card.tx.bitsLeft = 0 ∧ l.card.tx.level = true ∧ l.card.txBufFull = false
  cardRx : l.card.rx.phase = .idle ∧ l.card.rx.prev = true
  plotterTx : l.plotter.tx.bitsLeft = 0 ∧ l.plotter.tx.level = true
  plotterRx : l.plotter.rx.phase = .idle ∧ l.plotter.rx.prev = true

theorem Link.Quiet.joined {l : Link} (h : l.Quiet) : Joined l [] [] where
  card := h.card
  plotter := h.plotter
  txd := h.txd.trans h.cardTx.2.1.symm
  rxd := h.rxd.trans h.plotterTx.2.symm
  down := .idle h.cardTx.1 h.cardTx.2.1 h.plotterRx.1 h.plotterRx.2
  up := .idle h.plotterTx.1 h.plotterTx.2 h.cardRx.1 h.cardRx.2

theorem Rs232.buffered_of_empty {s : Rs232} (h : s.txBufFull = false) : s.buffered = [] := by
  rw [Rs232.buffered, Rs232.waiting, h]
  rfl

theorem Rs232.buffered_length_le (s : Rs232) : s.buffered.length ≤ 1 := by
  rw [Rs232.buffered]
  cases s.waiting with
  | none => exact Nat.zero_le _
  | some b => exact Nat.le_refl _

/-- From a quiet link, whatever the processor does at each tick but program an end anew: no framing
    error is seen. What it writes to the empty transmit buffer the plotter receives, in order, at most
    two bytes behind, and all of it once it has written nothing for twenty bits. What the plotter sends
    is read or still in the FIFO, in order, at most one byte behind, if each byte finds room there, and
    all of it once the plotter has begun no byte for ten bits. -/
theorem link_lossless {l : Link} (hquiet : l.Quiet) {work rest : List CpuLines}
    (hp : Along Programmed l (work ++ rest)) :
    (runLink (l, {}) (work ++ rest)).2.framingErrors = 0 ∧
    (Along WritesToEmpty l (work ++ rest) →
      (∃ behind, behind.length ≤ 2 ∧ (runLink (l, {}) (work ++ rest)).2.written =
        (runLink (l, {}) (work ++ rest)).2.received ++ behind) ∧
      (20 * l.plotter.bitTime ≤ rest.length →
        Along (fun l cpu => l.writtenAt cpu = []) (runLink (l, {}) work).1 rest →
        (runLink (l, {}) (work ++ rest)).2.received = (runLink (l, {}) (work ++ rest)).2.written)) ∧
    (Along ArrivesToRoom l (work ++ rest) →
      (∃ behind, behind.length ≤ 1 ∧ l.card.rxFifo ++ (runLink (l, {}) (work ++ rest)).2.sent =
        (runLink (l, {}) (work ++ rest)).2.read ++ (runLink (l, {}) (work ++ rest)).1.card.rxFifo ++ behind) ∧
      (10 * l.plotter.bitTime ≤ rest.length →
        Along (fun l _ => l.sentAt = []) (runLink (l, {}) work).1 rest →
        (runLink (l, {}) (work ++ rest)).2.read ++ (runLink (l, {}) (work ++ rest)).1.card.rxFifo =
          l.card.rxFifo ++ (runLink (l, {}) (work ++ rest)).2.sent)) := by
  have hstart := hquiet.joined
  obtain ⟨down, up, hend, herrors, hdown, hup⟩ := hstart.run {} l.card.rxFifo hp
  have hbuffered := Rs232.buffered_of_empty hquiet.cardTx.2.2
  -- what is left to send at the end of the work, the rest has brought down
  have hmiddle : Running l.plotter.bitTime (runLink (l, {}) work).1 :=
    Running.run ⟨⟨[], [], hstart⟩, rfl⟩ (hp.append {}).1
  have hlast : Running l.plotter.bitTime (runLink (l, {}) (work ++ rest)).1 := Running.run ⟨⟨[], [], hstart⟩, rfl⟩ hp
  have hrest := (hp.append {}).2
  refine ⟨herrors, fun hempty => ?_, fun hroom => ?_⟩
  · have haccount := hdown hempty (by rw [DownAccount, hbuffered]; rfl)
    rw [DownAccount] at haccount
    refine ⟨⟨_, ?_, haccount⟩, fun hlong hnone => ?_⟩
    · have := hend.down.held_length_le
      have := (runLink (l, {}) (work ++ rest)).1.card.buffered_length_le
      rw [List.length_append]
      omega
    · have hsettled := Running.settles (cardLeft l.plotter.bitTime) (fun _ _ h hp hwrite => h.cardLeft_tick hp hwrite)
        hmiddle (runLink (l, {}) work).2 hrest hnone
      have hstartLeft : cardLeft l.plotter.bitTime (runLink (l, {}) work).1 ≤ 20 * l.plotter.bitTime := by
        obtain ⟨⟨_, _, hjoined⟩, hbt⟩ := hmiddle
        have hleft := hjoined.down.left_le
        rw [hbt] at hleft
        rw [cardLeft]
        split <;> omega
      have hzero : cardLeft l.plotter.bitTime (runLink (l, {}) (work ++ rest)).1 = 0 := by
        rw [runLink_append]
        exact Nat.le_zero.mp (Nat.le_trans hsettled (by omega))
      rw [cardLeft] at hzero
      have hpos := Rs232.four_le_bitTime l.plotter.divisor
      have hfull : (runLink (l, {}) (work ++ rest)).1.card.txBufFull = false := by
        by_contra hfull
        rw [if_pos (by simpa using hfull), Plotter.bitTime] at hzero
        omega
      have hheld := hend.down.held_eq_nil (by rw [hlast.2]; omega)
      rw [haccount, hheld, Rs232.buffered_of_empty hfull, List.append_nil, List.append_nil]
  · have haccount := hup hroom rfl
    rw [UpAccount, ← List.append_assoc] at haccount
    refine ⟨⟨up, hend.up.held_length_le, haccount⟩, fun hlong hnone => ?_⟩
    have hsettled := Running.settles (plotterLeft l.plotter.bitTime) (fun _ _ h _ hsent => h.plotterLeft_tick hsent)
      hmiddle (runLink (l, {}) work).2 hrest hnone
    have hstartLeft : plotterLeft l.plotter.bitTime (runLink (l, {}) work).1 ≤ 10 * l.plotter.bitTime := by
      obtain ⟨⟨_, _, hjoined⟩, hbt⟩ := hmiddle
      have hleft := hjoined.up.left_le
      rwa [hbt] at hleft
    have hzero : plotterLeft l.plotter.bitTime (runLink (l, {}) (work ++ rest)).1 = 0 := by
      rw [runLink_append]
      exact Nat.le_zero.mp (Nat.le_trans hsettled (by omega))
    have hheld := hend.up.held_eq_nil (by rw [hlast.2]; exact hzero)
    rw [haccount, hheld, List.append_nil]

/-- A write of `A` to the data port of a link at 128 ticks a bit, and then twenty bits without an
    access: the plotter has what was written. -/
theorem link_lossless_one_byte :
    let l : Link := { card := { plugged := true }, plotter := { plugged := true } }
    let write : CpuLines := { iorq := true, wr := true, addr := 0xFADC, data := 0x41 }
    (runLink (l, {}) ([write] ++ List.replicate 2560 ({} : CpuLines))).2.received =
      (runLink (l, {}) ([write] ++ List.replicate 2560 ({} : CpuLines))).2.written := by
  intro l write
  have hquiet : l.Quiet := ⟨rfl, rfl, rfl, rfl, ⟨rfl, rfl, rfl⟩, ⟨rfl, rfl⟩, ⟨rfl, rfl⟩, ⟨rfl, rfl⟩⟩
  have hport : ∀ cpu ∈ List.replicate 2560 ({} : CpuLines), Rs232.portOf cpu = none := fun cpu h => by
    rw [List.eq_of_mem_replicate h]
    decide
  obtain ⟨hrest, hrestEmpty, hnone⟩ := along_of_idle (l := l.tick write) (by decide) (by decide) (by decide) hport
  have hp : Along Programmed l ([write] ++ List.replicate 2560 ({} : CpuLines)) := ⟨by decide, hrest⟩
  have hempty : Along WritesToEmpty l ([write] ++ List.replicate 2560 ({} : CpuLines)) := ⟨by decide, hrestEmpty⟩
  exact ((link_lossless hquiet hp).2.1 hempty).2 (by rw [List.length_replicate]; decide) hnone

end Koncepcja.Serial
