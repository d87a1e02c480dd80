import Koncepcja.Lib.SpscRing
import Koncepcja.Lib.Stepwise
import Mathlib.Data.UInt

/-!
# Telnet Output

`src/telnet_console.cpp`, `on_txt_output` and the flush of `run`: the processor's thread pushes characters
to a ring, the server's thread takes them from it, converts them into a staging buffer and hands that to
the client.

The two threads take turns at every access to what they share: the writer stores a character and then
publishes it, the reader loads the positions, takes characters one by one and then releases them.

## Main results

- `inv_step`: the ring between the threads holds what was pushed, at every step of either.
- `lost_add`: the bytes handed and staged are those of the characters taken, less the line feeds lost.
- `telnet_complete_iff`: nothing is lost exactly where no carriage return fills the staging buffer.
-/

namespace Koncepcja.Input

open SpscRing Stepwise

/-! ## The threads -/

def outputBufSize : Nat := 4096

/-- The server's variables in a flush: `tail`, `head` and the first `count` bytes of `flush_buf`. -/
structure Flush where
  tail : Nat
  head : Nat
  flushBuf : List UInt8
  deriving DecidableEq, Repr

/-- The ring, where each thread is, and what was pushed, taken, dropped and handed to the client. -/
structure Telnet where
  outputBuf : Nat → UInt8 := fun _ => 0
  outputHead : Nat := 0
  outputTail : Nat := 0
  storing : Option Nat := none
  flush : Option Flush := none
  pushed : List UInt8 := []
  taken : Nat := 0
  dropped : Bool := false
  handed : List UInt8 := []

/-- The bytes that one character is staged as, behind `count` others. -/
def staged (count : Nat) (ch : UInt8) : List UInt8 :=
  if ch = 0x0d then if count + 1 < outputBufSize - 1 then [0x0d, 0x0a] else [0x0d]
  else if ch = 0x0a then [0x0a]
  else if 0x20 ≤ ch ∧ ch < 0x7f then [ch]
  else if ch = 0x07 then [0x07]
  else []

/-- `while (tail != head && count < OUTPUT_BUF_SIZE - 1)`. -/
def Flush.going (f : Flush) : Bool := f.tail != f.head && f.flushBuf.length < outputBufSize - 1

namespace Telnet

/-- `on_txt_output`, up to the character in the buffer: the next position is in hand, if it is free. -/
def store (s : Telnet) (ch : UInt8) : Telnet :=
  let next := (s.outputHead + 1) % outputBufSize
  if next = s.outputTail then { s with pushed := s.pushed ++ [ch], dropped := true }
  else
    { s with
      outputBuf := Function.update s.outputBuf s.outputHead ch
      storing := some next
      pushed := s.pushed ++ [ch] }

/-- `output_tail` and `output_head` are loaded, and a flush begins if they differ. -/
def load (s : Telnet) : Telnet :=
  if s.outputTail = s.outputHead then s else { s with flush := some ⟨s.outputTail, s.outputHead, []⟩ }

/-- One turn of the flush's loop. -/
def take (s : Telnet) (f : Flush) : Telnet :=
  let ch := s.outputBuf f.tail
  { s with
    flush := some ⟨(f.tail + 1) % outputBufSize, f.head, f.flushBuf ++ staged f.flushBuf.length ch⟩
    taken := s.taken + 1 }

/-- `output_tail` is stored and the staging buffer is handed to the client. -/
def send (s : Telnet) (f : Flush) : Telnet :=
  { s with outputTail := f.tail, flush := none, handed := s.handed ++ f.flushBuf }

end Telnet

/-- The next step of a thread. -/
inductive TelnetStep
  | store (ch : UInt8)
  | publish
  | load
  | take
  | send
  deriving DecidableEq, Repr

/-- A step that the thread is not at changes nothing. -/
def Telnet.step (s : Telnet) : TelnetStep → Telnet
  | .store ch => if s.storing = none then s.store ch else s
  | .publish =>
    match s.storing with
    | some next => { s with outputHead := next, storing := none }
    | none => s
  | .load => if s.flush = none then s.load else s
  | .take =>
    match s.flush with
    | some f => if f.going then s.take f else s
    | none => s
  | .send =>
    match s.flush with
    | some f => if f.going then s else s.send f
    | none => s

def Telnet.run (s : Telnet) (steps : List TelnetStep) : Telnet := steps.foldl Telnet.step s

/-! ## What the client is to see -/

/-- The bytes of one character. -/
def converted (ch : UInt8) : List UInt8 :=
  if ch = 0x0d then [0x0d, 0x0a]
  else if ch = 0x0a then [0x0a]
  else if 0x20 ≤ ch ∧ ch < 0x7f then [ch]
  else if ch = 0x07 then [0x07]
  else []

/-- The bytes of the flush under way. -/
def Telnet.staging (s : Telnet) : List UInt8 :=
  match s.flush with
  | some f => f.flushBuf
  | none => []

/-- Neither thread is under way, and the ring is empty. -/
structure Telnet.Quiet (s : Telnet) : Prop where
  storing : s.storing = none
  flush : s.flush = none
  empty : s.outputTail = s.outputHead

/-- The bytes handed and staged are those of the characters taken, and of all of them where none is left. -/
def Telnet.Complete (s : Telnet) : Prop :=
  s.handed ++ s.staging = (s.pushed.take s.taken).flatMap converted ∧
    (s.Quiet → s.handed = s.pushed.flatMap converted)

/-- What a step takes: how much is staged ahead of it, and the character. -/
def Telnet.taking (s : Telnet) : TelnetStep → Option (Nat × UInt8)
  | .take => s.flush.bind fun f => if f.going then some (f.flushBuf.length, s.outputBuf f.tail) else none
  | _ => none

/-- A carriage return that is taken finds room for its line feed. -/
def PairFits (s : Telnet) (x : TelnetStep) : Prop :=
  ∀ count, s.taking x = some (count, 0x0d) → count + 2 < outputBufSize

/-- The line feeds that a run loses. -/
def lost : Telnet → List TelnetStep → Nat
  | _, [] => 0
  | s, x :: xs => ((s.taking x).elim 0 fun p => (converted p.2).length - (staged p.1 p.2).length) + lost (s.step x) xs

theorem step_take {s : Telnet} {f : Flush} (h : s.flush = some f) : s.step .take = if f.going then s.take f else s := by
  rw [Telnet.step, h]

theorem step_send {s : Telnet} {f : Flush} (h : s.flush = some f) : s.step .send = if f.going then s else s.send f := by
  rw [Telnet.step, h]

/-! ## The ring between the threads -/

/-- What was published is in the ring from what was released on; the writer may have one more character
    stored, the reader has taken some of what it saw published. -/
structure Inv (s : Telnet) (log : List UInt8) (released : Nat) : Prop where
  ring : Holds outputBufSize s.outputBuf s.outputHead s.outputTail log released
  published : s.storing = none → s.pushed = log
  stored : ∀ next, s.storing = some next → s.pushed = log ++ [s.outputBuf s.outputHead] ∧
    next = (s.outputHead + 1) % outputBufSize ∧ log.length + 1 - released < outputBufSize
  resting : s.flush = none → s.taken = released
  flushing : ∀ f, s.flush = some f → released ≤ s.taken ∧ f.tail = s.taken % outputBufSize ∧
    ∃ seen, s.taken ≤ seen ∧ seen ≤ log.length ∧ f.head = seen % outputBufSize

variable {s : Telnet} {log : List UInt8} {released : Nat}

theorem inv_start : Inv {} [] 0 where
  ring := holds_nil (by decide)
  published _ := rfl
  stored _ h := absurd h (Option.some_ne_none _).symm
  resting _ := rfl
  flushing _ h := absurd h (Option.some_ne_none _).symm

theorem Inv.taken_le (h : Inv s log released) : s.taken ≤ log.length := by
  cases hflush : s.flush with
  | none =>
    rw [h.resting hflush]
    exact h.ring.le
  | some f =>
    obtain ⟨-, -, seen, hseen, hlog, -⟩ := h.flushing f hflush
    exact Nat.le_trans hseen hlog

theorem Inv.log_prefix (h : Inv s log released) : ∃ rest, s.pushed = log ++ rest := by
  cases hstoring : s.storing with
  | none => exact ⟨[], by rw [List.append_nil]; exact h.published hstoring⟩
  | some next => exact ⟨_, (h.stored next hstoring).1⟩

theorem Inv.next_char (h : Inv s log released) {f : Flush} (hflush : s.flush = some f) (hgo : f.going = true) :
    ∃ hlt : s.taken < log.length, s.outputBuf f.tail = log[s.taken] ∧ ∀ seen, s.taken ≤ seen → seen ≤ log.length →
      f.head = seen % outputBufSize → s.taken + 1 ≤ seen := by
  obtain ⟨hrel, htail, seen, hseen, hlog, hhead⟩ := h.flushing f hflush
  have hmore : ∀ seen, s.taken ≤ seen → seen ≤ log.length → f.head = seen % outputBufSize → s.taken + 1 ≤ seen := by
    intro seen hseen hlog hhead
    by_contra hless
    have heq : s.taken = seen := by omega
    rw [Flush.going, htail, hhead, heq, bne_self_eq_false, Bool.false_and] at hgo
    exact Bool.noConfusion hgo
  have hlt : s.taken < log.length := by
    have hnext := hmore seen hseen hlog hhead
    omega
  refine ⟨hlt, ?_, hmore⟩
  rw [htail]
  exact h.ring.read hrel hlt

theorem inv_store (h : Inv s log released) (hstoring : s.storing = none) (ch : UInt8)
    (hkept : (s.store ch).dropped = false) : Inv (s.store ch) log released := by
  by_cases hfull : (s.outputHead + 1) % outputBufSize = s.outputTail
  · rw [Telnet.store, if_pos hfull] at hkept
    exact Bool.noConfusion hkept
  · have hroom := h.ring.room
    have hne : log.length + 1 - released ≠ outputBufSize := fun hlen => hfull (h.ring.full_iff.2 hlen)
    rw [Telnet.store, if_neg hfull]
    refine ⟨h.ring.store, fun hnone => absurd hnone (Option.some_ne_none _), ?_, h.resting, h.flushing⟩
    intro next hnext
    refine ⟨?_, (Option.some.inj hnext).symm, by omega⟩
    show s.pushed ++ [ch] = log ++ [Function.update s.outputBuf s.outputHead ch s.outputHead]
    rw [h.published hstoring, Function.update_self]

theorem inv_publish (h : Inv s log released) {next : Nat} (hstoring : s.storing = some next) :
    Inv { s with outputHead := next, storing := none } (log ++ [s.outputBuf s.outputHead]) released := by
  obtain ⟨hpushed, hnext, hroom⟩ := h.stored next hstoring
  subst hnext
  refine ⟨h.ring.publish hroom rfl, fun _ => hpushed, fun next hnone => absurd hnone (Option.some_ne_none _).symm,
    h.resting, fun f hflush => ?_⟩
  obtain ⟨hrel, htail, seen, hseen, hlog, hhead⟩ := h.flushing f hflush
  refine ⟨hrel, htail, seen, hseen, ?_, hhead⟩
  rw [List.length_append]
  exact Nat.le_add_right_of_le hlog

theorem inv_load (h : Inv s log released) (hflush : s.flush = none) : Inv s.load log released := by
  by_cases hempty : s.outputTail = s.outputHead
  · rw [Telnet.load, if_pos hempty]
    exact h
  · rw [Telnet.load, if_neg hempty]
    have htaken := h.resting hflush
    refine ⟨h.ring, h.published, h.stored, fun hnone => absurd hnone (Option.some_ne_none _), fun f hf => ?_⟩
    obtain rfl := Option.some.inj hf
    refine ⟨Nat.le_of_eq htaken.symm, ?_, log.length, h.taken_le, Nat.le_refl _, h.ring.head⟩
    show s.outputTail = s.taken % outputBufSize
    rw [htaken]
    exact h.ring.tail

theorem inv_take (h : Inv s log released) {f : Flush} (hflush : s.flush = some f) (hgo : f.going = true) :
    Inv (s.take f) log released := by
  obtain ⟨hrel, htail, seen, hseen, hlog, hhead⟩ := h.flushing f hflush
  obtain ⟨-, -, hmore⟩ := h.next_char hflush hgo
  refine ⟨h.ring, h.published, h.stored, fun hnone => absurd hnone (Option.some_ne_none _), fun f' hf => ?_⟩
  obtain rfl := Option.some.inj hf
  refine ⟨Nat.le_succ_of_le hrel, ?_, seen, hmore seen hseen hlog hhead, hlog, hhead⟩
  show (f.tail + 1) % outputBufSize = (s.taken + 1) % outputBufSize
  rw [htail, Nat.mod_add_mod]

theorem inv_send (h : Inv s log released) {f : Flush} (hflush : s.flush = some f) :
    Inv (s.send f) log s.taken := by
  obtain ⟨hrel, htail, -⟩ := h.flushing f hflush
  refine ⟨?_, h.published, fun next hnext => ?_, fun _ => rfl, fun f hnone => absurd hnone (Option.some_ne_none _).symm⟩
  · show Holds outputBufSize s.outputBuf s.outputHead f.tail log s.taken
    rw [htail]
    exact h.ring.release hrel h.taken_le
  · obtain ⟨hpushed, hnext, hroom⟩ := h.stored next hnext
    exact ⟨hpushed, hnext, by omega⟩

/-- **One step** of either thread keeps the ring between them, unless a character is dropped. -/
theorem inv_step (h : Inv s log released) (x : TelnetStep) (hkept : (s.step x).dropped = false) :
    ∃ log released, Inv (s.step x) log released := by
  -- A step of a side that cannot take it now leaves everything as it is.
  cases x with
  | store ch =>
    by_cases hstoring : s.storing = none
    · rw [Telnet.step, if_pos hstoring] at hkept ⊢
      exact ⟨log, released, inv_store h hstoring ch hkept⟩
    · rw [Telnet.step, if_neg hstoring]
      exact ⟨log, released, h⟩
  | publish =>
    cases hstoring : s.storing with
    | none =>
      rw [Telnet.step, hstoring]
      exact ⟨log, released, h⟩
    | some next =>
      rw [Telnet.step, hstoring]
      exact ⟨_, released, inv_publish h hstoring⟩
  | load =>
    by_cases hflush : s.flush = none
    · rw [Telnet.step, if_pos hflush]
      exact ⟨log, released, inv_load h hflush⟩
    · rw [Telnet.step, if_neg hflush]
      exact ⟨log, released, h⟩
  | take =>
    cases hflush : s.flush with
    | none =>
      rw [Telnet.step, hflush]
      exact ⟨log, released, h⟩
    | some f =>
      rw [step_take hflush]
      by_cases hgo : f.going = true
      · rw [if_pos hgo]
        exact ⟨log, released, inv_take h hflush hgo⟩
      · rw [if_neg hgo]
        exact ⟨log, released, h⟩
  | send =>
    cases hflush : s.flush with
    | none =>
      rw [Telnet.step, hflush]
      exact ⟨log, released, h⟩
    | some f =>
      rw [step_send hflush]
      by_cases hgo : f.going = true
      · rw [if_pos hgo]
        exact ⟨log, released, h⟩
      · rw [if_neg hgo]
        exact ⟨log, s.taken, inv_send h hflush⟩

theorem dropped_of_step (s : Telnet) (x : TelnetStep) (h : (s.step x).dropped = false) : s.dropped = false := by
  -- Only `store` sets the flag, and no step clears it.
  cases x with
  | store ch =>
    by_cases hstoring : s.storing = none
    · rw [Telnet.step, if_pos hstoring] at h
      by_cases hfull : (s.outputHead + 1) % outputBufSize = s.outputTail
      · rw [Telnet.store, if_pos hfull] at h
        exact Bool.noConfusion h
      · rwa [Telnet.store, if_neg hfull] at h
    · rwa [Telnet.step, if_neg hstoring] at h
  | publish => cases hstoring : s.storing <;> rwa [Telnet.step, hstoring] at h
  | load =>
    by_cases hflush : s.flush = none
    · rw [Telnet.step, if_pos hflush, Telnet.load] at h
      split at h <;> exact h
    · rwa [Telnet.step, if_neg hflush] at h
  | take =>
    cases hflush : s.flush with
    | none => rwa [Telnet.step, hflush] at h
    | some f =>
      rw [step_take hflush] at h
      split at h <;> exact h
  | send =>
    cases hflush : s.flush with
    | none => rwa [Telnet.step, hflush] at h
    | some f =>
      rw [step_send hflush] at h
      split at h <;> exact h

theorem dropped_of_run (s : Telnet) (xs : List TelnetStep) (h : (s.run xs).dropped = false) : s.dropped = false := by
  induction xs generalizing s with
  | nil => exact h
  | cons x xs ih => exact dropped_of_step s x (ih (s.step x) h)

/-! ## Bytes -/

/-- The bytes handed to the client and those on their way. -/
def Telnet.output (s : Telnet) : List UInt8 := s.handed ++ s.staging

/-- The bytes of the characters taken. -/
def Telnet.due (s : Telnet) : List UInt8 := (s.pushed.take s.taken).flatMap converted

/-- A step that takes nothing leaves both. -/
structure SameBytes (s t : Telnet) : Prop where
  output : t.output = s.output
  due : t.due = s.due

theorem sameBytes_store (h : Inv s log released) (ch : UInt8) : SameBytes s (s.store ch) := by
  have hdue : (s.pushed ++ [ch]).take s.taken = s.pushed.take s.taken := by
    obtain ⟨rest, hrest⟩ := h.log_prefix
    have htaken := h.taken_le
    refine List.take_append_of_le_length ?_
    rw [hrest, List.length_append]
    omega
  rw [Telnet.store]
  split
  · exact ⟨rfl, congrArg (List.flatMap converted) hdue⟩
  · exact ⟨rfl, congrArg (List.flatMap converted) hdue⟩

theorem sameBytes_send (s : Telnet) {f : Flush} (hflush : s.flush = some f) : SameBytes s (s.send f) := by
  refine ⟨?_, rfl⟩
  show (s.handed ++ f.flushBuf) ++ [] = s.handed ++ s.staging
  rw [List.append_nil, Telnet.staging, hflush]

theorem sameBytes_step (h : Inv s log released) {x : TelnetStep} (hnone : s.taking x = none) : SameBytes s (s.step x) := by
  cases x with
  | store ch =>
    by_cases hstoring : s.storing = none
    · rw [Telnet.step, if_pos hstoring]
      exact sameBytes_store h ch
    · rw [Telnet.step, if_neg hstoring]
      exact ⟨rfl, rfl⟩
  | publish => cases hstoring : s.storing <;> rw [Telnet.step, hstoring] <;> exact ⟨rfl, rfl⟩
  | load =>
    by_cases hflush : s.flush = none
    · rw [Telnet.step, if_pos hflush, Telnet.load]
      split
      · exact ⟨rfl, rfl⟩
      · refine ⟨?_, rfl⟩
        show s.handed ++ [] = s.handed ++ s.staging
        rw [Telnet.staging, hflush]
    · rw [Telnet.step, if_neg hflush]
      exact ⟨rfl, rfl⟩
  | take =>
    cases hflush : s.flush with
    | none =>
      rw [Telnet.step, hflush]
      exact ⟨rfl, rfl⟩
    | some f =>
      -- A flush that is going would take a byte.
      have hgo : ¬f.going = true := by
        intro hgo
        rw [Telnet.taking, hflush, Option.bind_some, if_pos hgo] at hnone
        exact Option.some_ne_none _ hnone
      rw [step_take hflush, if_neg hgo]
      exact ⟨rfl, rfl⟩
  | send =>
    cases hflush : s.flush with
    | none =>
      rw [Telnet.step, hflush]
      exact ⟨rfl, rfl⟩
    | some f =>
      rw [step_send hflush]
      split
      · exact ⟨rfl, rfl⟩
      · exact sameBytes_send s hflush

theorem taking_some {x : TelnetStep} {p : Nat × UInt8} (h : s.taking x = some p) :
    x = .take ∧ ∃ f, s.flush = some f ∧ f.going = true ∧ p = (f.flushBuf.length, s.outputBuf f.tail) := by
  cases x with
  | take =>
    obtain ⟨f, hflush, hf⟩ := Option.bind_eq_some_iff.1 h
    by_cases hgo : f.going = true
    · rw [if_pos hgo] at hf
      exact ⟨rfl, f, hflush, hgo, (Option.some.inj hf).symm⟩
    · rw [if_neg hgo] at hf
      exact absurd hf.symm (Option.some_ne_none p)
  | store ch => exact absurd h.symm (Option.some_ne_none p)
  | publish => exact absurd h.symm (Option.some_ne_none p)
  | load => exact absurd h.symm (Option.some_ne_none p)
  | send => exact absurd h.symm (Option.some_ne_none p)

theorem bytes_taking (h : Inv s log released) {x : TelnetStep} {p : Nat × UInt8} (hp : s.taking x = some p) :
    (s.step x).output = s.output ++ staged p.1 p.2 ∧ (s.step x).due = s.due ++ converted p.2 := by
  obtain ⟨rfl, f, hflush, hgo, rfl⟩ := taking_some hp
  obtain ⟨hlt, hchar, -⟩ := h.next_char hflush hgo
  obtain ⟨rest, hrest⟩ := h.log_prefix
  rw [step_take hflush, if_pos hgo]
  constructor
  · show s.handed ++ (f.flushBuf ++ staged f.flushBuf.length (s.outputBuf f.tail)) = s.handed ++ s.staging ++ _
    rw [Telnet.staging, hflush, List.append_assoc]
  · have hin : s.taken < s.pushed.length := by
      rw [hrest, List.length_append]
      omega
    have hget : s.pushed[s.taken] = s.outputBuf f.tail := by
      rw [hchar, List.getElem_of_eq hrest, List.getElem_append_left hlt]
    show (s.pushed.take (s.taken + 1)).flatMap converted = s.due ++ _
    rw [List.take_add_one, List.getElem?_eq_getElem hin, Option.toList_some, List.flatMap_append, List.flatMap_singleton,
      hget]
    rfl

theorem staged_length (count : Nat) (ch : UInt8) :
    staged count ch = converted ch ∧ (ch = 0x0d → count + 2 < outputBufSize) ∨
      (staged count ch).length + 1 = (converted ch).length ∧ ch = 0x0d ∧ outputBufSize ≤ count + 2 := by
  by_cases hcr : ch = 0x0d
  · by_cases hroom : count + 2 < outputBufSize
    · refine .inl ⟨?_, fun _ => hroom⟩
      rw [staged, converted, if_pos hcr, if_pos hcr, if_pos (by omega)]
    · refine .inr ⟨?_, hcr, by omega⟩
      rw [staged, converted, if_pos hcr, if_pos hcr, if_neg (by omega)]
      rfl
  · refine .inl ⟨?_, fun heq => absurd heq hcr⟩
    rw [staged, converted, if_neg hcr, if_neg hcr]

/-- **Bytes.** What a run puts out and what it loses are the bytes of the characters it takes. -/
theorem lost_add (h : Inv s log released) (xs : List TelnetStep) (hkept : (s.run xs).dropped = false) :
    (s.run xs).output.length + lost s xs + s.due.length = (s.run xs).due.length + s.output.length := by
  -- Along the steps: only a step that takes bytes can lose some.
  induction xs generalizing s log released with
  | nil =>
    show s.output.length + 0 + s.due.length = s.due.length + s.output.length
    omega
  | cons x xs ih =>
    have hstep := dropped_of_run (s.step x) xs hkept
    obtain ⟨log', released', hinv⟩ := inv_step h x hstep
    have hrest := ih hinv hkept
    show ((s.step x).run xs).output.length + lost s (x :: xs) + s.due.length = _
    rw [lost]
    cases hp : s.taking x with
    | none =>
      obtain ⟨houtput, hdue⟩ := sameBytes_step h hp
      rw [houtput, hdue] at hrest
      rw [Option.elim_none, Nat.zero_add]
      exact hrest
    | some p =>
      obtain ⟨houtput, hdue⟩ := bytes_taking h hp
      rw [houtput, hdue, List.length_append, List.length_append] at hrest
      rw [Option.elim_some]
      have hle : (staged p.1 p.2).length ≤ (converted p.2).length := by
        -- A conversion that does not fit leaves fewer bytes staged than it has.
        rcases staged_length p.1 p.2 with ⟨heq, -⟩ | ⟨hlen, -⟩
        · rw [heq]
        · omega
      show _ = ((s.step x).run xs).due.length + _
      omega

theorem lost_eq_zero (s : Telnet) (xs : List TelnetStep) : lost s xs = 0 ↔ AllOk Telnet.step PairFits s xs := by
  induction xs generalizing s with
  | nil => exact iff_of_true rfl trivial
  | cons x xs ih =>
    rw [lost, AllOk, Nat.add_eq_zero_iff, ih]
    refine and_congr_left' ?_
    cases hp : s.taking x with
    | none => exact iff_of_true rfl fun count hcount => absurd (hp.symm.trans hcount) (Option.some_ne_none _).symm
    | some p =>
      rw [Option.elim_some]
      rcases staged_length p.1 p.2 with ⟨heq, hfits⟩ | ⟨hlen, hcr, hfull⟩
      · refine iff_of_true (by rw [heq, Nat.sub_self]) fun count hcount => ?_
        obtain rfl := Option.some.inj (hp.symm.trans hcount)
        exact hfits rfl
      · refine iff_of_false (by omega) fun hfits => ?_
        have hroom := hfits p.1 (hp.trans (by rw [← hcr]))
        omega

theorem output_run (h : Inv s log released) (heq : s.output = s.due) {xs : List TelnetStep}
    (hok : AllOk Telnet.step PairFits s xs) (hkept : (s.run xs).dropped = false) : (s.run xs).output = (s.run xs).due := by
  induction xs generalizing s log released with
  | nil => exact heq
  | cons x xs ih =>
    obtain ⟨log', released', hinv⟩ := inv_step h x (dropped_of_run (s.step x) xs hkept)
    refine ih hinv ?_ hok.2 hkept
    cases hp : s.taking x with
    | none =>
      obtain ⟨houtput, hdue⟩ := sameBytes_step h hp
      rw [houtput, hdue, heq]
    | some p =>
      obtain ⟨houtput, hdue⟩ := bytes_taking h hp
      rw [houtput, hdue, heq]
      rcases staged_length p.1 p.2 with ⟨hsame, -⟩ | ⟨-, hcr, hfull⟩
      · rw [hsame]
      · -- the step that would be short is not there
        have hroom := hok.1 p.1 (hp.trans (by rw [← hcr]))
        omega

theorem inv_run (h : Inv s log released) (xs : List TelnetStep) (hkept : (s.run xs).dropped = false) :
    ∃ log released, Inv (s.run xs) log released := by
  induction xs generalizing s log released with
  | nil => exact ⟨log, released, h⟩
  | cons x xs ih =>
    obtain ⟨log', released', hinv⟩ := inv_step h x (dropped_of_run (s.step x) xs hkept)
    exact ih hinv hkept

theorem taken_of_quiet (h : Inv s log released) (hquiet : s.Quiet) : s.taken = s.pushed.length := by
  have hroom := h.ring.room
  have hempty : released % outputBufSize = log.length % outputBufSize :=
    h.ring.tail.symm.trans (hquiet.empty.trans h.ring.head)
  rw [h.published hquiet.storing, h.resting hquiet.flush]
  exact eq_of_mod_eq h.ring.le hroom hempty

theorem complete_iff (xs : List TelnetStep) (hkept : (Telnet.run {} xs).dropped = false) :
    (Telnet.run {} xs).Complete ↔ AllOk Telnet.step PairFits {} xs := by
  constructor
  · intro hcomplete
    have hlost := lost_add inv_start xs hkept
    have hsame : (Telnet.run {} xs).output = (Telnet.run {} xs).due := hcomplete.1
    have hstart : Telnet.output {} = Telnet.due {} := rfl
    rw [hsame, hstart] at hlost
    rw [← lost_eq_zero]
    omega
  · intro hok
    have hsame := output_run inv_start rfl hok hkept
    obtain ⟨log, released, hinv⟩ := inv_run inv_start xs hkept
    refine ⟨hsame, fun hquiet => ?_⟩
    have hall : (Telnet.run {} xs).due = (Telnet.run {} xs).pushed.flatMap converted := by
      rw [Telnet.due, taken_of_quiet hinv hquiet, List.take_length]
    rw [← hall, ← hsame, Telnet.output, Telnet.staging, hquiet.flush, List.append_nil]

/-- **Telnet output** is complete, in every run that drops no character, exactly where every carriage
    return is taken with room for its pair in the staging buffer. -/
theorem telnet_complete_iff (xs : List TelnetStep) (hkept : (Telnet.run {} xs).dropped = false) :
    (Telnet.run {} xs).Complete ↔ AllOk Telnet.step PairFits {} xs :=
  complete_iff xs hkept

/-! ## A full staging buffer -/

/-- Characters pushed one by one. -/
def pushAll (l : List UInt8) : List TelnetStep := l.flatMap fun ch => [.store ch, .publish]

/-- The writer is done with a text, and the reader has not begun. -/
structure Pushed (s : Telnet) (log : List UInt8) : Prop where
  inv : Inv s log 0
  storing : s.storing = none
  flush : s.flush = none
  dropped : s.dropped = false

theorem pushed_one (h : Pushed s log) {ch : UInt8} (hroom : log.length + 1 < outputBufSize) :
    Pushed (s.run [.store ch, .publish]) (log ++ [ch]) := by
  have hfull : ¬(s.outputHead + 1) % outputBufSize = s.outputTail := by
    intro heq
    have hlen := h.inv.ring.full_iff.1 heq
    omega
  have hkept : (s.store ch).dropped = false := by
    rw [Telnet.store, if_neg hfull]
    exact h.dropped
  have hstore := inv_store h.inv h.storing ch hkept
  rw [Telnet.store, if_neg hfull] at hstore
  have hpublish := inv_publish hstore rfl
  simp only [Function.update_self] at hpublish
  have hrun : s.run [.store ch, .publish] =
      { s with
        outputBuf := Function.update s.outputBuf s.outputHead ch
        outputHead := (s.outputHead + 1) % outputBufSize
        storing := none
        pushed := s.pushed ++ [ch] } := by
    show (s.step (.store ch)).step .publish = _
    rw [Telnet.step, if_pos h.storing, Telnet.store, if_neg hfull]
    rfl
  rw [hrun]
  exact ⟨hpublish, rfl, h.flush, h.dropped⟩

theorem pushed_all (h : Pushed s log) (l : List UInt8) (hroom : log.length + l.length < outputBufSize) :
    Pushed (s.run (pushAll l)) (log ++ l) := by
  induction l generalizing s log with
  | nil =>
    rw [List.append_nil]
    exact h
  | cons ch l ih =>
    rw [List.length_cons] at hroom
    have hone := @pushed_one s log h ch (by omega)
    have hrest := ih hone (by rw [List.length_append, List.length_singleton]; omega)
    rw [List.append_assoc, List.singleton_append] at hrest
    exact hrest

/-- A flush of everything that was pushed has taken `n` characters, each of one byte. -/
structure Flushing (s : Telnet) (log : List UInt8) (n : Nat) : Prop where
  inv : Inv s log 0
  taken : s.taken = n
  dropped : s.dropped = false
  flush : ∃ f, s.flush = some f ∧ f.head = log.length % outputBufSize ∧ f.flushBuf.length = n

theorem flushing_load (h : Pushed s log) (hne : 0 < log.length) : Flushing (s.run [.load]) log 0 := by
  have hroom := h.inv.ring.room
  have hbusy : ¬s.outputTail = s.outputHead := by
    rw [h.inv.ring.tail, h.inv.ring.head]
    intro heq
    have hzero := eq_of_mod_eq (Nat.zero_le _) hroom heq
    omega
  have hrun : s.run [.load] = { s with flush := some ⟨s.outputTail, s.outputHead, []⟩ } := by
    show s.step .load = _
    rw [Telnet.step, if_pos h.flush, Telnet.load, if_neg hbusy]
  have hinv := inv_load h.inv h.flush
  rw [Telnet.load, if_neg hbusy] at hinv
  rw [hrun]
  exact ⟨hinv, h.inv.resting h.flush, h.dropped, _, rfl, h.inv.ring.head, rfl⟩

theorem flushing_going {n : Nat} (h : Flushing s log n) (hlt : n < log.length) (hcount : n + 1 < outputBufSize) :
    ∃ f, s.flush = some f ∧ f.going = true ∧ f.flushBuf.length = n ∧ s.outputBuf f.tail = log[n] := by
  obtain ⟨f, hflush, hhead, hlen⟩ := h.flush
  obtain ⟨-, htail, -⟩ := h.inv.flushing f hflush
  have htaken := h.taken
  subst htaken
  have hroom := h.inv.ring.room
  have hgo : f.going = true := by
    have hne : f.tail ≠ f.head := by
      rw [htail, hhead]
      intro heq
      have hsame := eq_of_mod_eq (Nat.le_of_lt hlt) (by omega) heq
      omega
    rw [Flush.going, bne_iff_ne.2 hne, hlen, Bool.true_and]
    exact decide_eq_true (by omega)
  exact ⟨f, hflush, hgo, hlen, (h.inv.next_char hflush hgo).2.1⟩

theorem flushing_taking {n : Nat} (h : Flushing s log n) (hlt : n < log.length) (hcount : n + 1 < outputBufSize) :
    s.taking .take = some (n, log[n]) := by
  obtain ⟨f, hflush, hgo, hlen, hchar⟩ := flushing_going h hlt hcount
  rw [Telnet.taking, hflush, Option.bind_some, if_pos hgo, hlen, hchar]

theorem flushing_take {n : Nat} (h : Flushing s log n) (hlt : n < log.length) (hcount : n + 1 < outputBufSize)
    (hplain : log[n] = 0x41) : Flushing (s.run [.take]) log (n + 1) := by
  obtain ⟨f, hflush, hgo, hlen, hchar⟩ := flushing_going h hlt hcount
  have hrun : s.run [.take] = s.take f := by
    show s.step .take = _
    rw [step_take hflush, if_pos hgo]
  obtain ⟨f', hf', hhead, -⟩ := h.flush
  obtain rfl := Option.some.inj (hf'.symm.trans hflush)
  rw [hrun]
  refine ⟨inv_take h.inv hflush hgo, congrArg (· + 1) h.taken, h.dropped, _, rfl, hhead, ?_⟩
  rw [List.length_append, hlen, hchar, hplain]
  rfl

theorem flushing_takes {n : Nat} (k : Nat) (h : Flushing s log n) (hlt : n + k ≤ log.length)
    (hcount : n + k < outputBufSize) (hplain : ∀ i, ∀ hi : i < log.length, i < n + k → log[i] = 0x41) :
    Flushing (s.run (List.replicate k .take)) log (n + k) ∧ AllOk Telnet.step PairFits s (List.replicate k .take) := by
  induction k generalizing s n with
  | zero => exact ⟨h, trivial⟩
  | succ k ih =>
    have hchar := hplain n (by omega) (by omega)
    have hone := flushing_take h (by omega) (by omega) hchar
    obtain ⟨hrest, hok⟩ := ih hone (by omega) (by omega) fun i hi hik => hplain i hi (by omega)
    rw [Nat.add_right_comm] at hrest
    refine ⟨hrest, fun count htake => ?_, hok⟩
    rw [flushing_taking h (by omega) (by omega), hchar] at htake
    have heq : (0x41 : UInt8) = 0x0d := congrArg Prod.snd (Option.some.inj htake)
    exact absurd heq (by decide)

theorem pairFits_of_ne_take {x : TelnetStep} (h : x ≠ .take) : PairFits s x := by
  intro count htake
  cases x with
  | take => exact absurd rfl h
  | store ch => cases htake
  | publish => cases htake
  | load => cases htake
  | send => cases htake

theorem pushAll_fits (s : Telnet) (l : List UInt8) : AllOk Telnet.step PairFits s (pushAll l) := by
  induction l generalizing s with
  | nil => trivial
  | cons ch l ih =>
    refine ⟨pairFits_of_ne_take ?_, pairFits_of_ne_take ?_, ih _⟩
    · exact TelnetStep.noConfusion
    · exact TelnetStep.noConfusion

/-- Plain characters and a carriage return are pushed, and in one flush all but the return are taken. -/
def upToReturn (k : Nat) : List TelnetStep :=
  pushAll (List.replicate k 0x41 ++ [0x0d]) ++ [.load] ++ List.replicate k .take

theorem upToReturn_run {k : Nat} (hk : k + 2 ≤ outputBufSize) :
    AllOk Telnet.step PairFits {} (upToReturn k) ∧ (Telnet.run {} (upToReturn k)).taking .take = some (k, 0x0d) ∧
      (Telnet.run {} (upToReturn k ++ [.take])).dropped = false := by
  obtain ⟨text, htext⟩ : ∃ text : List UInt8, text = List.replicate k 0x41 ++ [0x0d] := ⟨_, rfl⟩
  have hlen : text.length = k + 1 := by rw [htext, List.length_append, List.length_replicate, List.length_singleton]
  have hplain : ∀ i, ∀ hi : i < text.length, i < 0 + k → text[i] = 0x41 := by
    intro i hi hlt
    have hleft : i < (List.replicate k (0x41 : UInt8)).length := by
      rw [List.length_replicate]
      omega
    rw [List.getElem_of_eq htext, List.getElem_append_left hleft, List.getElem_replicate]
  have hreturn : text[k] = 0x0d := by
    rw [List.getElem_of_eq htext, List.getElem_concat_length List.length_replicate.symm]
  -- the text is pushed, and all but its end is taken
  have hpushed := @pushed_all {} [] ⟨inv_start, rfl, rfl, rfl⟩ text (by rw [hlen, List.length_nil]; omega)
  rw [List.nil_append] at hpushed
  obtain ⟨htaken, hok⟩ := flushing_takes k (flushing_load hpushed (by omega)) (by omega) (by omega) hplain
  rw [Nat.zero_add] at htaken
  have hrun : Telnet.run {} (upToReturn k) = ((Telnet.run {} (pushAll text)).run [.load]).run (List.replicate k .take) := by
    rw [upToReturn, ← htext, Telnet.run, List.foldl_append, List.foldl_append]
    rfl
  rw [← hrun] at htaken
  refine ⟨?_, ?_, ?_⟩
  · rw [upToReturn, ← htext, allOk_append, allOk_append]
    refine ⟨⟨pushAll_fits _ _, pairFits_of_ne_take TelnetStep.noConfusion, trivial⟩, ?_⟩
    rw [List.foldl_append]
    exact hok
  · rw [flushing_taking htaken (by omega) (by omega), hreturn]
  · obtain ⟨f, hflush, hgo, -, -⟩ := flushing_going htaken (by omega) (by omega)
    have hlast : Telnet.run {} (upToReturn k ++ [.take]) = (Telnet.run {} (upToReturn k)).take f := by
      rw [Telnet.run, List.foldl_append]
      show (Telnet.run {} (upToReturn k)).step .take = _
      rw [step_take hflush, if_pos hgo]
    rw [hlast]
    exact htaken.dropped

/-- A carriage return behind 4093 other characters: its pair just fits, and the client gets everything. -/
theorem telnet_complete_iff_full : (Telnet.run {} (upToReturn 4093 ++ [.take])).Complete := by
  obtain ⟨hok, htaking, hkept⟩ := @upToReturn_run 4093 (by decide)
  refine (telnet_complete_iff _ hkept).2 (allOk_append.2 ⟨hok, fun count htake => ?_, trivial⟩)
  obtain rfl : 4093 = count := congrArg Prod.fst (Option.some.inj (htaking.symm.trans htake))
  decide

/-- A carriage return behind 4094 other characters in one flush: the client gets no line feed. -/
theorem telnet_loses_line_feed : ¬∀ xs, (Telnet.run {} xs).dropped = false → (Telnet.run {} xs).Complete := by
  intro hall
  obtain ⟨-, htaking, hkept⟩ := @upToReturn_run 4094 (by decide)
  have hfits := (allOk_append.1 ((complete_iff _ hkept).1 (hall _ hkept))).2.1 4094 htaking
  exact absurd hfits (by decide)

end Koncepcja.Input
