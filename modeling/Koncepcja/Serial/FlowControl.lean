import Koncepcja.Serial.Plotter

/-!
# The Plotter's Flow Control

`src/hw/plotter_hp7470a.cpp`, `on_receive_byte`, `service_input` and `tx_advance` in any order, and a
log of what was received, what the parser was fed, and which flow byte went out last. The log also
counts the bytes received since an XOFF was queued; the count stops where the XON that answers it is
sent.

## Main results

- `Controlled.act`: one action keeps the account of the bytes and of the flow bytes.
- `flow_control`: over any schedule nothing is lost as long as the count stays below 32.
- `runAll_tickActions`: a tick of the plotter is such a schedule.
-/

namespace Koncepcja.Serial

open Koncepcja.StartStop

set_option maxRecDepth 20000

/-! ## The log -/

/-- The parser is fed seven bits of each byte. -/
def sevenBits (b : UInt8) : UInt8 := b &&& 0x7F

/-- What happened in a run. -/
structure FlowLog where
  /-- What the receiver passed on, without `ENQ`. -/
  received : List UInt8 := []
  fed : List UInt8 := []
  /-- The flow byte transmitted last. -/
  flow : UInt8 := xon
  /-- The bytes received since an XOFF was queued, while its XON is still to be sent. -/
  window : Option Nat := none
  deriving DecidableEq, Repr

namespace Plotter

/-- The byte that `service_input` takes out of the buffer. -/
def serves (s : Plotter) : Option UInt8 := if 1 < s.drainCnt then none else s.inbuf.head?

/-- `tx_advance` takes the flow byte. -/
def sendsFlow (s : Plotter) : Bool := s.tx.bitsLeft == 0 && s.flowPending != 0

/-- The flow byte that says what `flow_stopped` says. -/
def flowByte (s : Plotter) : UInt8 := if s.flowStopped then xoff else xon

end Plotter

/-- `tx_advance` in the log. -/
def FlowLog.tx (log : FlowLog) (s : Plotter) : FlowLog :=
  if s.sendsFlow then
    { log with flow := s.flowPending, window := if s.flowPending = xon then none else log.window }
  else log

/-- `on_receive_byte` in the log. -/
def FlowLog.receive (log : FlowLog) (s : Plotter) (b : UInt8) : FlowLog :=
  if b = enq then log
  else
    { log with
      received := log.received ++ [b]
      window :=
        match log.window with
        | some n => some (n + 1)
        | none => if (s.onReceiveByte b).flowStopped then some 0 else none }

/-- `service_input` in the log. -/
def FlowLog.service (log : FlowLog) (s : Plotter) : FlowLog :=
  { log with fed := log.fed ++ s.serves.toList.map sevenBits }

/-- What a schedule is made of. -/
inductive Action where
  | transmit
  | receive (b : UInt8)
  | service
  /-- The receiver samples its line without passing on a byte, or the host sets the rate. -/
  | wire (rx : Receiver) (divisor : UInt16)
  deriving DecidableEq, Repr

def act (state : Plotter × FlowLog) : Action → Plotter × FlowLog
  | .transmit => (state.1.txAdvance, state.2.tx state.1)
  | .receive b => (state.1.onReceiveByte b, state.2.receive state.1 b)
  | .service => (state.1.serviceInput, state.2.service state.1)
  | .wire rx divisor => ({ state.1 with rx, divisor }, state.2)

/-- A schedule. -/
def runAll (state : Plotter × FlowLog) (xs : List Action) : Plotter × FlowLog := xs.foldl act state

/-- At most 31 bytes between the queueing of an XOFF and the sending of its XON. -/
def FlowLog.Restrained (log : FlowLog) : Prop := ∀ n ∈ log.window, n ≤ 31

instance (log : FlowLog) : Decidable log.Restrained := inferInstanceAs (Decidable (∀ n ∈ log.window, n ≤ 31))

theorem restrained_of_none {log : FlowLog} (h : log.window = none) : log.Restrained := fun n hn => by
  rw [h] at hn
  exact absurd hn (by simp)

/-- The sender keeps to that all along a schedule. -/
def RestrainedAlong : Plotter × FlowLog → List Action → Prop
  | state, [] => state.2.Restrained
  | state, x :: xs => state.2.Restrained ∧ RestrainedAlong (act state x) xs

/-! ## The invariant -/

/-- How full the buffer can be. -/
def bufferBound (s : Plotter) : Option Nat → Nat
  | none => inbufSize - xoffBelowFree
  | some n => (if s.flowStopped then inbufSize - xoffBelowFree + 1 else inbufSize - xonAboveFree) + n

/-- The bytes are accounted for, and so are the flow bytes. -/
structure Controlled (s : Plotter) (log : FlowLog) : Prop where
  bytes : log.fed ++ s.inbuf.map sevenBits = log.received.map sevenBits
  flow : s.flowPending = s.flowByte ∨ s.flowPending = 0 ∧ log.flow = s.flowByte
  window : log.window.isSome = (s.flowStopped || s.flowPending == xon)
  level : s.inbuf.length ≤ bufferBound s log.window
  restrained : log.Restrained

/-! ## The stages of a tick -/

namespace Plotter

variable {s : Plotter}

/-- The input buffer and the flow state, without the transmitter and the answers. -/
def input (s : Plotter) : List UInt8 × Nat × Bool × UInt8 := (s.inbuf, s.drainCnt, s.flowStopped, s.flowPending)

theorem input_queryProcess (s : Plotter) : s.queryProcess.input = s.input := by
  rw [queryProcess]
  split <;> rfl

theorem input_queryFeed (s : Plotter) (byte : UInt8) : (s.queryFeed byte).input = s.input := by
  have hpush : (if s.qbuf.length < qbufSize then { s with qbuf := s.qbuf ++ [byte] } else s : Plotter).input =
      s.input := by
    split <;> rfl
  have hend : ∀ a : Plotter,
      (if endsQuery byte then { a.queryProcess with qbuf := [] } else a : Plotter).input = a.input := fun a => by
    split
    · exact input_queryProcess a
    · rfl
  have hlong : ∀ a : Plotter, (if qbufSize ≤ a.qbuf.length then { a with qbuf := [] } else a : Plotter).input =
      a.input := fun a => by
    split <;> rfl
  exact (hlong _).trans ((hend _).trans hpush)

theorem input_txAdvance (s : Plotter) : s.txAdvance.input =
    (s.inbuf, s.drainCnt, s.flowStopped, if s.sendsFlow then 0 else s.flowPending) := by
  rw [txAdvance, sendsFlow, Transmitter.takes]
  by_cases hbusy : s.tx.bitsLeft = 0
  · rw [if_pos hbusy, waiting, taken]
    by_cases hflow : s.flowPending = 0
    · simp only [hflow, ne_eq, not_true_eq_false, if_false, bne_self_eq_false, Bool.and_false]
      split
      · simp only [input, Bool.false_eq_true, if_false]
      · simp only [input, hflow, Bool.false_eq_true, if_false]
    · simp [hbusy, hflow, input]
  · simp [hbusy, input]

end Plotter

variable {s : Plotter} {log : FlowLog}

theorem xon_ne_zero : xon ≠ 0 := by decide

theorem xoff_ne_zero : xoff ≠ 0 := by decide

theorem flowByte_ne_zero (s : Plotter) : s.flowByte ≠ 0 := by
  unfold Plotter.flowByte
  split
  · exact xoff_ne_zero
  · exact xon_ne_zero

theorem Controlled.congr {s' : Plotter} (h : Controlled s log) (hinput : s'.input = s.input) : Controlled s' log := by
  simp only [Plotter.input, Prod.mk.injEq] at hinput
  obtain ⟨hbuf, _, hstopped, hpending⟩ := hinput
  have hbyte : s'.flowByte = s.flowByte := by rw [Plotter.flowByte, Plotter.flowByte, hstopped]
  refine ⟨?_, ?_, ?_, ?_, h.restrained⟩
  · rw [hbuf]
    exact h.bytes
  · rw [hpending, hbyte]
    exact h.flow
  · rw [hstopped, hpending]
    exact h.window
  · rw [hbuf, show bufferBound s' log.window = bufferBound s log.window by
      cases log.window <;> simp only [bufferBound, hstopped]]
    exact h.level

theorem bufferBound_eq {s' : Plotter} (h : s'.flowStopped = s.flowStopped) (window : Option Nat) :
    bufferBound s' window = bufferBound s window := by
  cases window <;> simp only [bufferBound, h]

theorem Controlled.tx (h : Controlled s log) : Controlled s.txAdvance (log.tx s) := by
  have hinput := s.input_txAdvance
  unfold FlowLog.tx
  by_cases hsends : s.sendsFlow = true
  · rw [if_pos hsends]
    rw [if_pos hsends] at hinput
    simp only [Plotter.input, Prod.mk.injEq] at hinput
    obtain ⟨hbuf, _, hstopped, hpending⟩ := hinput
    have hne : s.flowPending ≠ 0 := by
      rw [Plotter.sendsFlow, Bool.and_eq_true] at hsends
      exact bne_iff_ne.1 hsends.2
    have hflow : s.flowPending = s.flowByte := h.flow.resolve_right fun hzero => hne hzero.1
    have hbyte : s.txAdvance.flowByte = s.flowByte := by rw [Plotter.flowByte, Plotter.flowByte, hstopped]
    have hwindow := h.window
    have hlevel := h.level
    cases hs : s.flowStopped with
    | true =>
      have hxoff : s.flowPending ≠ xon := by
        rw [hflow, Plotter.flowByte, hs]
        decide
      rw [if_neg hxoff]
      rw [hs, Bool.true_or] at hwindow
      refine ⟨by rw [hbuf]; exact h.bytes, .inr ⟨hpending, hflow.trans hbyte.symm⟩, ?_, ?_, h.restrained⟩
      · rw [hstopped, hs, Bool.true_or]
        exact hwindow
      · rw [hbuf, bufferBound_eq hstopped]
        exact hlevel
    | false =>
      have hxon : s.flowPending = xon := by
        rw [hflow, Plotter.flowByte, hs]
        rfl
      rw [if_pos hxon]
      rw [hs, hxon, beq_self_eq_true, Bool.or_true] at hwindow
      obtain ⟨n, hn⟩ := Option.isSome_iff_exists.1 hwindow
      have hle := h.restrained n hn
      refine ⟨by rw [hbuf]; exact h.bytes, .inr ⟨hpending, hflow.trans hbyte.symm⟩, ?_, ?_, ?_⟩
      · rw [hstopped, hs, hpending]
        rfl
      · -- the buffer has drained below the second threshold, and 31 bytes do not fill it up again
        rw [hn, bufferBound, hs] at hlevel
        rw [hbuf]
        show s.inbuf.length ≤ inbufSize - xoffBelowFree
        simp only [inbufSize, xoffBelowFree, xonAboveFree, Bool.false_eq_true, if_false] at hlevel ⊢
        omega
      · exact restrained_of_none rfl
  · rw [if_neg hsends]
    rw [if_neg hsends] at hinput
    exact h.congr hinput

theorem Controlled.receive (h : Controlled s log) (b : UInt8) (hr : (log.receive s b).Restrained) :
    Controlled (s.onReceiveByte b) (log.receive s b) := by
  unfold FlowLog.receive at hr ⊢
  by_cases henq : b = enq
  · rw [if_pos henq, Plotter.onReceiveByte, if_pos henq]
    exact h.congr rfl
  · rw [if_neg henq] at hr ⊢
    have hroom : s.inbuf.length < inbufSize := by
      have hlevel := h.level
      cases hw : log.window with
      | none =>
        rw [hw, bufferBound] at hlevel
        simp only [inbufSize, xoffBelowFree] at hlevel ⊢
        omega
      | some n =>
        have hn : n + 1 ≤ 31 := hr (n + 1) (by simp [hw])
        rw [hw, bufferBound] at hlevel
        simp only [inbufSize, xoffBelowFree, xonAboveFree] at hlevel ⊢
        split at hlevel <;> omega
    have hbuffer : (s.bufferByte b).inbuf = s.inbuf ++ [b] := by rw [Plotter.bufferByte, if_pos hroom]
    have hstopped : (s.bufferByte b).flowStopped = s.flowStopped := by rw [Plotter.bufferByte, if_pos hroom]
    have hpending : (s.bufferByte b).flowPending = s.flowPending := by rw [Plotter.bufferByte, if_pos hroom]
    have hbytes : log.fed ++ (s.inbuf ++ [b]).map sevenBits = (log.received ++ [b]).map sevenBits := by
      rw [List.map_append, List.map_append, ← List.append_assoc, h.bytes]
    rw [Plotter.onReceiveByte, if_neg henq] at hr ⊢
    dsimp only at hr ⊢
    by_cases hstop : (!(s.bufferByte b).flowStopped) = true ∧ (s.bufferByte b).inFree < xoffBelowFree
    · rw [if_pos hstop] at hr ⊢
      rw [hstopped, Plotter.inFree, hbuffer, List.length_append, Bool.not_eq_true'] at hstop
      have hlevel := h.level
      cases hw : log.window with
      | some n =>
        -- an XON is waiting, so the buffer is nowhere near full
        have hn := h.restrained n hw
        rw [hw, bufferBound, hstop.1] at hlevel
        simp only [inbufSize, xoffBelowFree, xonAboveFree, Bool.false_eq_true, if_false,
          List.length_singleton] at hlevel hstop
        omega
      | none =>
        rw [hw] at hr
        rw [hw, bufferBound] at hlevel
        refine ⟨?_, .inl rfl, rfl, ?_, hr⟩
        · show log.fed ++ (s.bufferByte b).inbuf.map sevenBits = _
          rw [hbuffer]
          exact hbytes
        · show (s.bufferByte b).inbuf.length ≤ _
          rw [hbuffer, List.length_append]
          simp only [inbufSize, xoffBelowFree, bufferBound, if_true, List.length_singleton] at hlevel ⊢
          omega
    · rw [if_neg hstop] at hr ⊢
      rw [hstopped, Plotter.inFree, hbuffer, List.length_append, List.length_singleton] at hstop
      have hbyte : (s.bufferByte b).flowByte = s.flowByte := by rw [Plotter.flowByte, Plotter.flowByte, hstopped]
      have hlevel := h.level
      have hwindow := h.window
      refine ⟨?_, ?_, ?_, ?_, hr⟩
      · rw [hbuffer]
        exact hbytes
      · rw [hpending, hbyte]
        exact h.flow
      · rw [hstopped, hpending, ← hwindow]
        cases hw : log.window with
        | some n => rfl
        | none =>
          rw [hw, Option.isSome_none] at hwindow
          rw [(Bool.or_eq_false_iff.1 hwindow.symm).1]
          rfl
      · rw [hbuffer, List.length_append, bufferBound_eq hstopped, List.length_singleton]
        cases hw : log.window with
        | some n =>
          rw [hw] at hlevel
          simp only [bufferBound] at hlevel ⊢
          omega
        | none =>
          rw [hw, Option.isSome_none] at hwindow
          have hgoing := (Bool.or_eq_false_iff.1 hwindow.symm).1
          rw [hgoing] at hstop
          simp only [hstopped, hgoing, Bool.false_eq_true, if_false, bufferBound]
          simp only [inbufSize, xoffBelowFree, Bool.not_false, true_and, not_lt] at hstop hroom ⊢
          omega

theorem Controlled.reopen (h : Controlled s log) : Controlled
    (if s.flowStopped ∧ xonAboveFree < s.inFree then { s with flowStopped := false, flowPending := xon } else s) log := by
  by_cases hopen : s.flowStopped = true ∧ xonAboveFree < s.inFree
  · rw [if_pos hopen]
    have hwindow := h.window
    rw [hopen.1, Bool.true_or] at hwindow
    obtain ⟨n, hn⟩ := Option.isSome_iff_exists.1 hwindow
    refine ⟨h.bytes, .inl rfl, ?_, ?_, h.restrained⟩
    · rw [hn]
      rfl
    · have hfree := hopen.2
      rw [Plotter.inFree] at hfree
      show s.inbuf.length ≤ _
      rw [hn]
      simp only [bufferBound, inbufSize, xonAboveFree, Bool.false_eq_true, if_false] at hfree ⊢
      omega
  · rw [if_neg hopen]
    exact h

theorem Controlled.service (h : Controlled s log) : Controlled s.serviceInput (log.service s) := by
  have hbytes := h.bytes
  have hlevel := h.level
  unfold FlowLog.service Plotter.serves Plotter.serviceInput
  cases hbuf : s.inbuf with
  | nil =>
    have hnone : (if 1 < s.drainCnt then none else ([] : List UInt8).head?) = none := by split <;> rfl
    rw [hnone, Option.toList_none, List.map_nil, List.append_nil]
    exact h
  | cons b rest =>
    rw [hbuf] at hbytes hlevel
    dsimp only
    by_cases hwait : 1 < s.drainCnt
    · rw [if_pos hwait, if_pos hwait, Option.toList_none, List.map_nil, List.append_nil]
      exact ⟨hbytes, h.flow, h.window, hlevel, h.restrained⟩
    · rw [if_neg hwait, if_neg hwait]
      apply Controlled.reopen
      refine Controlled.congr ?_ (Plotter.input_queryFeed _ _)
      refine ⟨?_, h.flow, h.window, Nat.le_of_succ_le hlevel, h.restrained⟩
      show log.fed ++ [sevenBits b] ++ rest.map sevenBits = log.received.map sevenBits
      rw [List.append_assoc]
      exact hbytes

/-! ## Whole runs -/

theorem RestrainedAlong.head {state : Plotter × FlowLog} {xs : List Action} (h : RestrainedAlong state xs) :
    state.2.Restrained := by
  cases xs with
  | nil => exact h
  | cons x xs => exact h.1

/-- One action. -/
theorem Controlled.act {state : Plotter × FlowLog} (h : Controlled state.1 state.2) (x : Action)
    (hr : (act state x).2.Restrained) : Controlled (act state x).1 (act state x).2 := by
  cases x with
  | transmit => exact h.tx
  | receive b => exact h.receive b hr
  | service => exact h.service
  | wire rx divisor => exact h.congr rfl

theorem Controlled.runAll {state : Plotter × FlowLog} (h : Controlled state.1 state.2) {xs : List Action}
    (hr : RestrainedAlong state xs) : Controlled (runAll state xs).1 (runAll state xs).2 := by
  induction xs generalizing state with
  | nil => exact h
  | cons x xs ih => exact ih (h.act x hr.2.head) hr.2

theorem runAll_append (state : Plotter × FlowLog) (xs ys : List Action) :
    runAll state (xs ++ ys) = runAll (runAll state xs) ys := List.foldl_append

/-! ## The buffer drains -/

theorem runAll_count (hbuf : s.inbuf ≠ []) (n : Nat) (hn : n < s.drainCnt) :
    runAll (s, log) (List.replicate n .service) = ({ s with drainCnt := s.drainCnt - n }, log) := by
  induction n with
  | zero => rfl
  | succ n ih =>
    obtain ⟨b, rest, hcons⟩ := List.exists_cons_of_ne_nil hbuf
    have hdue : 1 < s.drainCnt - n := by omega
    have hnone : ({ s with drainCnt := s.drainCnt - n } : Plotter).serves = none := if_pos hdue
    rw [List.replicate_succ', runAll_append, ih (by omega), runAll, List.foldl_cons, List.foldl_nil, act,
      FlowLog.service, hnone, Plotter.serviceInput]
    simp only [hcons, if_pos hdue, Option.toList_none, List.map_nil, List.append_nil, Nat.sub_sub]

theorem inbuf_service {b : UInt8} {rest : List UInt8} (hbuf : s.inbuf = b :: rest) (hdue : s.drainCnt ≤ 1) :
    s.serviceInput.inbuf = rest := by
  have hopen : ∀ a : Plotter, (if a.flowStopped ∧ xonAboveFree < a.inFree then
      { a with flowStopped := false, flowPending := xon } else a : Plotter).inbuf = a.inbuf := fun a => by
    split <;> rfl
  have hquery := congrArg Prod.fst (Plotter.input_queryFeed
    { s with drainCnt := if 1 < s.inbuf.length then s.drainTime else 0, inbuf := rest } (b &&& 0x7F))
  unfold Plotter.serviceInput
  rw [hbuf] at hquery ⊢
  dsimp only
  rw [if_neg (Nat.not_lt.2 hdue)]
  exact (hopen _).trans hquery

theorem exists_drained (state : Plotter × FlowLog) :
    ∃ n, (runAll state (List.replicate n .service)).1.inbuf = [] := by
  obtain ⟨s, log⟩ := state
  generalize hlen : s.inbuf.length = len
  induction len generalizing s log with
  | zero => exact ⟨0, List.eq_nil_of_length_eq_zero hlen⟩
  | succ len ih =>
    obtain ⟨b, rest, hcons⟩ := List.exists_cons_of_length_eq_add_one hlen
    -- count down to one, and serve
    have hserved : ∃ k, (runAll (s, log) (List.replicate k .service)).1.inbuf = rest := by
      by_cases hdue : s.drainCnt ≤ 1
      · exact ⟨1, inbuf_service hcons hdue⟩
      · have hcount := @runAll_count s log (by rw [hcons]; exact List.cons_ne_nil b rest) (s.drainCnt - 1) (by omega)
        refine ⟨s.drainCnt - 1 + 1, ?_⟩
        rw [List.replicate_succ', runAll_append, hcount]
        exact inbuf_service (b := b) hcons (by show s.drainCnt - (s.drainCnt - 1) ≤ 1; omega)
    obtain ⟨k, hrest⟩ := hserved
    obtain ⟨n, hn⟩ := ih _ (runAll (s, log) (List.replicate k .service)).2 (by
      rw [hrest]
      rw [hcons, List.length_cons] at hlen
      omega)
    refine ⟨k + n, ?_⟩
    rw [← List.replicate_append_replicate, runAll_append]
    exact hn

theorem received_services (state : Plotter × FlowLog) (n : Nat) :
    (runAll state (List.replicate n .service)).2.received = state.2.received := by
  induction n generalizing state with
  | zero => rfl
  | succ n ih => exact ih _

theorem RestrainedAlong.services {state : Plotter × FlowLog} {xs : List Action} (h : RestrainedAlong state xs) (n : Nat) :
    RestrainedAlong state (xs ++ List.replicate n .service) := by
  induction xs generalizing state with
  | nil =>
    rw [List.nil_append]
    induction n generalizing state with
    | zero => exact h
    | succ n ih => exact ⟨h, ih h⟩
  | cons x xs ih => exact ⟨h.1, ih h.2⟩

/-! ## The whole of it -/

theorem controlled_start (divisor : UInt16) : Controlled { plugged := true, divisor } {} :=
  ⟨rfl, .inr ⟨rfl, rfl⟩, rfl, Nat.zero_le _, restrained_of_none rfl⟩

/-- The plotter and its log after a schedule from power-on. -/
def fromPowerOn (divisor : UInt16) (xs : List Action) : Plotter × FlowLog :=
  runAll ({ plugged := true, divisor }, {}) xs

/-- As long as the sender stops within 31 bytes of an XOFF, the parser is fed what was received, in
    order and each byte cut to seven bits, up to what is still in the buffer, which drains; and with no
    flow byte waiting, the last one sent says what `flow_stopped` says. -/
theorem flow_control (divisor : UInt16) (xs : List Action)
    (hr : RestrainedAlong ({ plugged := true, divisor }, {}) xs) :
    (fromPowerOn divisor xs).2.fed ++ (fromPowerOn divisor xs).1.inbuf.map sevenBits =
        (fromPowerOn divisor xs).2.received.map sevenBits ∧
      (∃ n, (fromPowerOn divisor (xs ++ List.replicate n .service)).2.fed =
        (fromPowerOn divisor xs).2.received.map sevenBits) ∧
      ((fromPowerOn divisor xs).1.flowPending = 0 →
        (fromPowerOn divisor xs).2.flow = (fromPowerOn divisor xs).1.flowByte) := by
  have h := (controlled_start divisor).runAll hr
  refine ⟨h.bytes, ?_, fun hnone => ?_⟩
  · obtain ⟨n, hn⟩ := exists_drained (fromPowerOn divisor xs)
    have hlater := ((controlled_start divisor).runAll (hr.services n)).bytes
    refine ⟨n, ?_⟩
    rw [fromPowerOn, ← runAll_append] at hn
    rw [hn, List.map_nil, List.append_nil, runAll_append, received_services] at hlater
    rw [fromPowerOn, runAll_append]
    exact hlater
  · rcases h.flow with hpending | ⟨_, hflow⟩
    · exact absurd (hpending.symm.trans hnone) (flowByte_ne_zero _)
    · exact hflow

/-- A byte with its top bit set, and the time to serve it. -/
def eighthBit : List Action := .receive 0xC1 :: List.replicate 2560 .service

theorem eighthBit_restrained : RestrainedAlong ({ plugged := true, divisor := 1 }, {}) eighthBit :=
  @RestrainedAlong.services _ ([.receive 0xC1]) ⟨restrained_of_none rfl, restrained_of_none (by decide)⟩ 2560

theorem eighthBit_run : (fromPowerOn 1 eighthBit).2 = { received := [0xC1], fed := [0x41] } := by
  have hreceived : act ({ plugged := true, divisor := 1 }, {}) (.receive 0xC1) =
      ({ plugged := true, divisor := 1, inbuf := [0xC1], drainCnt := 2560 }, { received := [0xC1] }) := by decide
  rw [fromPowerOn, eighthBit, runAll, List.foldl_cons, hreceived, ← runAll, List.replicate_succ' (n := 2559),
    runAll_append, runAll_count (by decide) 2559 (by decide)]
  decide

/-- The parser is not fed that byte as it was received. -/
theorem eighthBit_masked : RestrainedAlong ({ plugged := true, divisor := 1 }, {}) eighthBit ∧
    (fromPowerOn 1 eighthBit).2.received = [0xC1] ∧ (fromPowerOn 1 eighthBit).2.fed = [0x41] :=
  ⟨eighthBit_restrained, congrArg FlowLog.received eighthBit_run, congrArg FlowLog.fed eighthBit_run⟩

/-! ### A full buffer -/

theorem act_receive {log : FlowLog} {b : UInt8} (hb : b ≠ enq) (hdrain : s.drainCnt ≠ 0) (hroom : s.inbuf.length < inbufSize)
    (hstill : s.flowStopped = true ∨ s.inbuf.length + 1 + xoffBelowFree ≤ inbufSize)
    (hwindow : log.window = none → s.flowStopped = false) : act (s, log) (.receive b) =
      ({ s with inbuf := s.inbuf ++ [b] },
        { log with received := log.received ++ [b], window := log.window.map (· + 1) }) := by
  have hplotter : s.onReceiveByte b = { s with inbuf := s.inbuf ++ [b] } := by
    have hbuffer : s.bufferByte b = { s with inbuf := s.inbuf ++ [b] } := by rw [Plotter.bufferByte, if_pos hroom, if_neg hdrain]
    have hflow : ¬((!s.flowStopped) = true ∧ inbufSize - (s.inbuf ++ [b]).length < xoffBelowFree) := by
      rintro ⟨hrunning, hfree⟩
      rw [List.length_append, List.length_singleton] at hfree
      rcases hstill with hstopped | hfar
      · rw [hstopped] at hrunning
        cases hrunning
      · omega
    rw [Plotter.onReceiveByte, if_neg hb, hbuffer]
    exact if_neg hflow
  have hlog : log.receive s b = { log with received := log.received ++ [b], window := log.window.map (· + 1) } := by
    rw [FlowLog.receive, if_neg hb, hplotter]
    cases hw : log.window with
    | none => simp only [hwindow hw, Option.map_none, Bool.false_eq_true, if_false]
    | some n => rfl
  rw [act, hplotter, hlog]

theorem runAll_receive (n : Nat) {log : FlowLog} {b : UInt8} (hb : b ≠ enq) (hdrain : s.drainCnt ≠ 0)
    (hroom : s.inbuf.length + n ≤ inbufSize)
    (hstill : s.flowStopped = true ∨ s.inbuf.length + n + xoffBelowFree ≤ inbufSize)
    (hwindow : log.window = none → s.flowStopped = false) (hfits : ∀ w ∈ log.window, w + n ≤ 31) :
    runAll (s, log) (List.replicate n (.receive b)) =
        ({ s with inbuf := s.inbuf ++ List.replicate n b },
          { log with received := log.received ++ List.replicate n b, window := log.window.map (· + n) }) ∧
      RestrainedAlong (s, log) (List.replicate n (.receive b)) := by
  have hhere : log.Restrained := fun w hw => Nat.le_trans (Nat.le_add_right w n) (hfits w hw)
  induction n generalizing s log with
  | zero =>
    refine ⟨?_, hhere⟩
    simp only [List.replicate_zero, List.append_nil, Nat.add_zero, Option.map_id']
    rfl
  | succ n ih =>
    -- One byte is buffered and asks for nothing; the window it counts in is one longer.
    have hone := act_receive hb hdrain (by omega) (hstill.imp_right fun h => by omega) hwindow
    have hlen : (s.inbuf ++ [b]).length = s.inbuf.length + 1 := by rw [List.length_append, List.length_singleton]
    have hfits' : ∀ w ∈ log.window.map (· + 1), w + n ≤ 31 := by
      intro w hw
      obtain ⟨v, hv, rfl⟩ := Option.mem_map.1 hw
      have := hfits v hv
      omega
    obtain ⟨hrun, hok⟩ := @ih { s with inbuf := s.inbuf ++ [b] }
      { log with received := log.received ++ [b], window := log.window.map (· + 1) } hdrain (by dsimp only; omega)
      (hstill.imp_right fun h => by dsimp only; omega) (fun hnone => hwindow (Option.map_eq_none_iff.1 hnone)) hfits'
      fun w hw => Nat.le_trans (Nat.le_add_right w n) (hfits' w hw)
    rw [← hone] at hrun hok
    refine ⟨?_, hhere, hok⟩
    have hsum : (log.window.map (· + 1)).map (· + n) = log.window.map (· + (n + 1)) := by
      cases log.window with
      | none => rfl
      | some w => exact congrArg some (Nat.add_right_comm w 1 n)
    rw [List.replicate_succ, runAll, List.foldl_cons, ← runAll, hrun]
    simp only [List.append_assoc, List.singleton_append, List.replicate_succ, hsum]

theorem RestrainedAlong.append {state : Plotter × FlowLog} {xs ys : List Action} (h : RestrainedAlong state xs)
    (hlater : RestrainedAlong (runAll state xs) ys) : RestrainedAlong state (xs ++ ys) := by
  induction xs generalizing state with
  | nil => exact hlater
  | cons x xs ih => exact ⟨h.1, ih h.2 hlater⟩

/-- 224 bytes, the XOFF that the last of them queues, and 31 more. -/
def fullBuffer : List Action :=
  [.receive 0xC1] ++ (List.replicate 222 (.receive 0xC1) ++ ([.receive 0xC1, .transmit] ++ List.replicate 31 (.receive 0xC1)))

/-- The buffer while the flow runs, and behind the XOFF. -/
def filling (n : Nat) : Plotter × FlowLog :=
  ({ plugged := true, divisor := 1, inbuf := List.replicate n 0xC1, drainCnt := 2560 }, { received := List.replicate n 0xC1 })
def stopped (n k : Nat) : Plotter × FlowLog :=
  ({ plugged := true, divisor := 1, inbuf := List.replicate n 0xC1, drainCnt := 2560, flowStopped := true
     tx := ({} : Transmitter).advance 128 (some xoff) },
    { received := List.replicate n 0xC1, flow := xoff, window := some k })

theorem fullBuffer_run : fromPowerOn 1 fullBuffer = stopped 255 31 ∧
    RestrainedAlong ({ plugged := true, divisor := 1 }, {}) fullBuffer := by
  have hfirst : runAll ({ plugged := true, divisor := 1 }, {}) [.receive 0xC1] = filling 1 := by decide
  obtain ⟨hrun, hfilledOk⟩ := @runAll_receive (filling 1).1 222 (filling 1).2 0xC1 (by decide) (by decide) (by decide)
    (.inr (by decide)) (fun _ => rfl) (fun _ hw => by cases hw)
  have hfilled : runAll (filling 1) (List.replicate 222 (.receive 0xC1)) = filling 223 := hrun.trans (by decide)
  have hstops : runAll (filling 223) [.receive 0xC1, .transmit] = stopped 224 0 := by decide
  obtain ⟨hrun', hmoreOk⟩ := @runAll_receive (stopped 224 0).1 31 (stopped 224 0).2 0xC1 (by decide) (by decide) (by decide)
    (.inl rfl) (fun hw => by cases hw) (fun _ hw => by cases hw; decide)
  have hmore : runAll (stopped 224 0) (List.replicate 31 (.receive 0xC1)) = stopped 255 31 := hrun'.trans (by decide)
  constructor
  · rw [fromPowerOn, fullBuffer, runAll_append, runAll_append, runAll_append, hfirst, hfilled, hstops, hmore]
  · refine .append ⟨restrained_of_none rfl, ?_⟩ ?_
    · show (runAll ({ plugged := true, divisor := 1 }, {}) [.receive 0xC1]).2.Restrained
      rw [hfirst]
      exact restrained_of_none rfl
    · rw [hfirst]
      refine hfilledOk.append ?_
      have hnone : (act (filling 223) (.receive 0xC1)).2.Restrained := by decide
      have hzero : (act (act (filling 223) (.receive 0xC1)) .transmit).2.Restrained := by decide
      refine .append ?_ ?_
      · exact hfilled.symm ▸ ⟨restrained_of_none rfl, hnone, hzero⟩
      · rw [show runAll ((filling 1).1, (filling 1).2) _ = filling 223 from hfilled, hstops]
        exact hmoreOk

/-- The buffer is full to its last byte, and the parser gets every one of them. -/
theorem flow_control_full :
    (∃ n, (fromPowerOn 1 (fullBuffer ++ List.replicate n .service)).2.fed = List.replicate 255 0x41) ∧
      (fromPowerOn 1 fullBuffer).2.flow = xoff := by
  have h := flow_control 1 fullBuffer fullBuffer_run.2
  rw [fullBuffer_run.1] at h
  refine ⟨?_, ?_⟩
  · obtain ⟨n, hn⟩ := h.2.1
    exact ⟨n, hn.trans List.map_replicate⟩
  · rw [fullBuffer_run.1]
    exact h.2.2 rfl

/-! ## A tick is a schedule -/

/-- `plt_tick`, in actions. -/
def Plotter.tickActions (s : Plotter) (line : Bool) : List Action :=
  .transmit :: .wire (s.rx.advance s.bitTime line).1 s.divisor ::
    ((s.rxEvent line).bytes.map .receive ++ [.service])

theorem Plotter.txAdvance_rx (s : Plotter) : s.txAdvance.rx = s.rx ∧ s.txAdvance.divisor = s.divisor := by
  rw [txAdvance]
  split
  · rw [taken]
    split <;> exact ⟨rfl, rfl⟩
  · exact ⟨rfl, rfl⟩

theorem runAll_tickActions (s : Plotter) (log : FlowLog) (line : Bool) (hplugged : s.plugged = true) :
    (runAll (s, log) (s.tickActions line)).1 = s.tick line := by
  obtain ⟨hrx, hdivisor⟩ := s.txAdvance_rx
  have hevent : s.txAdvance.rxEvent line = s.rxEvent line := by
    rw [Plotter.rxEvent, Plotter.rxEvent, Plotter.bitTime, Plotter.bitTime, hrx, hdivisor]
  have hwire : ({ s.txAdvance with rx := (s.rx.advance s.bitTime line).1, divisor := s.divisor } : Plotter) =
      { s.txAdvance with rx := (s.txAdvance.rx.advance s.txAdvance.bitTime line).1 } := by
    rw [Plotter.bitTime, Plotter.bitTime, hrx, ← hdivisor]
  rw [Plotter.tick, if_pos hplugged, Plotter.rxAdvance, hevent, Plotter.tickActions, runAll, List.foldl_cons,
    List.foldl_cons, act, act, hwire]
  cases s.rxEvent line with
  | byte b => rfl
  | none => rfl
  | framingError => rfl

end Koncepcja.Serial
