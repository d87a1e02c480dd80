import Mathlib.Data.List.Basic
import Mathlib.Data.List.Nodup
import Mathlib.Data.List.Range

/-!
# The Live Line-In

`src/subcycle/machine.cpp`: the host feeds the levels of its sound card in batches, and the machine
clocks them onto the tape deck one by one at the rate of the samples. The levels wait in a vector with
a read cursor.

## Main definitions

- `feedLineLevels`, `feedTapeLineIn`: the producer and the consumer.
- `number`: a run with its samples numbered in the order they are fed, so that each has a name.
- `Fifo`: what has been played is a subsequence of what has been fed, and drops are the cap's.

## Main results

- `played_number`: the numbers do not change the run.
- `run_sublist`: what is played and what is left to be played come in order out of what has been fed.
- `fifo_iff_feedsAtStart`: the queue is one exactly as long as no feed finds the cursor moved.
-/

namespace Koncepcja.LineIn

set_option maxRecDepth 20000

variable {α β : Type*}

/-! ## The queue -/

/-- The master clock. -/
def kMasterHz : Nat := 16000000

/-- `line_q_`, `line_q_pos_`, `line_acc_` and `line_rate_`. -/
structure Queue (α : Type*) where
  q : List α := []
  pos : Nat := 0
  acc : Nat := 0
  rate : Nat := 44100
  deriving DecidableEq, Repr

/-- The rate a feed sets. -/
def feedRate (sampleRate : Int) : Nat := if sampleRate > 0 then sampleRate.toNat else 44100

/-- The backlog a feed keeps. -/
def feedCap (sampleRate : Int) : Nat := feedRate sampleRate / 25

/-- `feed_line_levels`: no levels, no feed. -/
def feedLineLevels (m : Queue α) (levels : List α) (sampleRate : Int) : Queue α :=
  if levels.isEmpty then m
  else
    let pos := min m.pos 0
    let q := m.q.drop pos
    let q := if q.length > feedCap sampleRate then q.take (feedCap sampleRate) else q
    { m with q := q ++ levels, pos := pos, rate := feedRate sampleRate }

/-- `feed_tape_line_in`: a cycle, and the sample it clocks onto the deck. -/
def feedTapeLineIn (m : Queue α) : Queue α × Option α :=
  if h : m.pos < m.q.length then
    if m.acc + m.rate < kMasterHz then ({ m with acc := m.acc + m.rate }, none)
    else ({ m with acc := m.acc + m.rate - kMasterHz, pos := m.pos + 1 }, some m.q[m.pos])
  else (m, none)

/-- The level that the deck sees. -/
def lineLevel (level : UInt8) : Nat := if level ≠ 0 then 1 else 0

/-- What has not been played. -/
def Queue.unplayed (m : Queue α) : List α := m.q.drop m.pos

/-! ## Runs -/

/-- A batch from the host, or a master cycle. -/
inductive Op (α : Type*) where
  | feed (levels : List α) (sampleRate : Int)
  | cycle
  deriving DecidableEq, Repr

def Queue.step (m : Queue α) : Op α → Queue α × List α
  | .feed levels sampleRate => (feedLineLevels m levels sampleRate, [])
  | .cycle => ((feedTapeLineIn m).1, (feedTapeLineIn m).2.toList)

/-- A run: the queue it leaves, and the samples it has clocked onto the deck. -/
def Queue.run (m : Queue α) : List (Op α) → Queue α × List α
  | [] => (m, [])
  | op :: ops => (((m.step op).1.run ops).1, (m.step op).2 ++ ((m.step op).1.run ops).2)

/-- The samples of a batch. -/
def Op.samples : Op α → List α
  | .feed levels _ => levels
  | .cycle => []

/-- The concatenation of all batches. -/
def fed (ops : List (Op α)) : List α := ops.flatMap Op.samples

/-- The samples that a run from the start clocks onto the deck. -/
def played (ops : List (Op α)) : List α := (Queue.run {} ops).2

theorem Queue.run_append (m : Queue α) (xs ys : List (Op α)) :
    m.run (xs ++ ys) = (((m.run xs).1.run ys).1, (m.run xs).2 ++ ((m.run xs).1.run ys).2) := by
  induction xs generalizing m with
  | nil => rfl
  | cons op xs ih => rw [List.cons_append, run, ih, run, List.append_assoc]

theorem fed_cons (op : Op α) (ops : List (Op α)) : fed (op :: ops) = op.samples ++ fed ops := List.flatMap_cons

/-! ## Numbered samples -/

/-- The samples numbered in the order they are fed. -/
def numberFrom : Nat → List (Op α) → List (Op (Nat × α))
  | _, [] => []
  | n, .feed levels sampleRate :: ops =>
    .feed ((levels.zipIdx n).map Prod.swap) sampleRate :: numberFrom (n + levels.length) ops
  | n, .cycle :: ops => .cycle :: numberFrom n ops

/-- The numbers from zero on. -/
def number (ops : List (Op α)) : List (Op (Nat × α)) := numberFrom 0 ops

/-- An operation on other samples. -/
def Op.map (f : α → β) : Op α → Op β
  | .feed levels sampleRate => .feed (levels.map f) sampleRate
  | .cycle => .cycle

/-- A queue of other samples. -/
def Queue.map (f : α → β) (m : Queue α) : Queue β :=
  { q := m.q.map f, pos := m.pos, acc := m.acc, rate := m.rate }

theorem feedTapeLineIn_map (f : α → β) (m : Queue α) :
    feedTapeLineIn (m.map f) = ((feedTapeLineIn m).1.map f, (feedTapeLineIn m).2.map f) := by
  by_cases h : m.pos < m.q.length
  · have h' : (m.map f).pos < (m.map f).q.length := by simpa [Queue.map] using h
    rw [feedTapeLineIn, feedTapeLineIn, dif_pos h, dif_pos h']
    by_cases hwait : m.acc + m.rate < kMasterHz
    · rw [if_pos hwait, if_pos (show (m.map f).acc + (m.map f).rate < kMasterHz from hwait)]
      rfl
    · rw [if_neg hwait, if_neg (show ¬ (m.map f).acc + (m.map f).rate < kMasterHz from hwait)]
      simp [Queue.map]
  · have h' : ¬ (m.map f).pos < (m.map f).q.length := by simpa [Queue.map] using h
    rw [feedTapeLineIn, feedTapeLineIn, dif_neg h, dif_neg h']
    rfl

theorem Queue.step_map (f : α → β) (m : Queue α) (op : Op α) :
    (m.map f).step (op.map f) = ((m.step op).1.map f, (m.step op).2.map f) := by
  cases op with
  | feed levels sampleRate =>
    cases levels with
    | nil => rfl
    | cons x levels =>
      simp only [step, Op.map, feedLineLevels, List.map_cons, List.isEmpty_cons, Bool.false_eq_true, if_false,
        Queue.map, List.length_drop, List.length_map, List.map_nil, Prod.mk.injEq, and_true]
      split <;> simp
  | cycle =>
    rw [Op.map, step, step, feedTapeLineIn_map]
    cases (feedTapeLineIn m).2 <;> rfl

theorem Queue.run_map (f : α → β) (m : Queue α) (ops : List (Op α)) :
    (m.map f).run (ops.map (Op.map f)) = ((m.run ops).1.map f, (m.run ops).2.map f) := by
  induction ops generalizing m with
  | nil => rfl
  | cons op ops ih => rw [List.map_cons, run, step_map, ih, run, List.map_append]

theorem numberFrom_map_snd (n : Nat) (ops : List (Op α)) : (numberFrom n ops).map (Op.map Prod.snd) = ops := by
  induction ops generalizing n with
  | nil => rfl
  | cons op ops ih =>
    cases op with
    | feed levels sampleRate =>
      rw [numberFrom, List.map_cons, ih, Op.map, List.map_map]
      congr 2
      exact List.zipIdx_map_fst n levels
    | cycle => rw [numberFrom, List.map_cons, ih, Op.map]

theorem fed_numberFrom (n : Nat) (ops : List (Op α)) :
    (fed (numberFrom n ops)).map Prod.fst = List.range' n (fed ops).length := by
  induction ops generalizing n with
  | nil => rfl
  | cons op ops ih =>
    cases op with
    | feed levels sampleRate =>
      have hhead : (((levels.zipIdx n).map Prod.swap).map Prod.fst) = List.range' n levels.length := by
        rw [List.map_map]
        exact List.zipIdx_map_snd n levels
      rw [numberFrom, fed_cons, fed_cons, List.map_append, ih, Op.samples, Op.samples, hhead, List.length_append,
        List.range'_append_1]
    | cycle => exact ih n

theorem fed_number_nodup (ops : List (Op α)) : (fed (number ops)).Nodup := by
  refine List.Nodup.of_map Prod.fst ?_
  rw [number, fed_numberFrom]
  exact List.nodup_range'

/-! ## First in, first out -/

/-- A feed keeps what has not been played, unless that is more than its cap. -/
def KeepsBacklog (m : Queue α) (levels : List α) (sampleRate : Int) : Prop :=
  m.unplayed.length ≤ feedCap sampleRate → (feedLineLevels m levels sampleRate).unplayed = m.unplayed ++ levels

/-- What has been played is a subsequence of what has been fed, and no feed has dropped a sample within its cap. -/
structure Fifo (ops : List (Op UInt8)) : Prop where
  inOrder : (played (number ops)).Sublist (fed (number ops))
  noLoss : ∀ before levels sampleRate after, number ops = before ++ .feed levels sampleRate :: after →
    KeepsBacklog (Queue.run {} before).1 levels sampleRate

/-- A feed finds the cursor at the start, or keeps nothing of the queue. -/
def Op.AtStart (m : Queue α) : Op α → Prop
  | .feed levels sampleRate => levels = [] ∨ m.pos = 0 ∨ feedCap sampleRate = 0
  | .cycle => True

/-- Every feed of a run does. -/
def FeedsAtStart (m : Queue α) : List (Op α) → Prop
  | [] => True
  | op :: ops => op.AtStart m ∧ FeedsAtStart (m.step op).1 ops

theorem unplayed_feed_of_pos {m : Queue α} (levels : List α) (sampleRate : Int) (h : m.pos = 0) (hne : levels ≠ []) :
    (feedLineLevels m levels sampleRate).unplayed = m.unplayed.take (feedCap sampleRate) ++ levels := by
  have hne' : ¬ levels.isEmpty = true := by simpa using hne
  rw [feedLineLevels, if_neg hne', Queue.unplayed, Queue.unplayed, h]
  simp only [Nat.min_zero, List.drop_zero]
  split
  · rfl
  · rename_i hle
    rw [List.take_of_length_le (Nat.not_lt.mp hle)]

theorem unplayed_feed_of_cap {m : Queue α} (levels : List α) {sampleRate : Int} (h : feedCap sampleRate = 0)
    (hne : levels ≠ []) : (feedLineLevels m levels sampleRate).unplayed = levels := by
  have hne' : ¬ levels.isEmpty = true := by simpa using hne
  rw [feedLineLevels, if_neg hne', Queue.unplayed, h]
  simp only [Nat.min_zero, List.drop_zero, List.take_zero]
  split
  · rfl
  · rename_i hle
    rw [List.eq_nil_of_length_eq_zero (Nat.le_zero.mp (Nat.not_lt.mp hle)), List.nil_append]

theorem feedLineLevels_nil (m : Queue α) (sampleRate : Int) : feedLineLevels m [] sampleRate = m := rfl

theorem unplayed_cycle (m : Queue α) : (m.step .cycle).2 ++ (m.step .cycle).1.unplayed = m.unplayed := by
  rw [Queue.step, feedTapeLineIn]
  by_cases h : m.pos < m.q.length
  · rw [dif_pos h]
    split
    · rfl
    · rw [Queue.unplayed, Queue.unplayed, List.drop_eq_getElem_cons h]
      rfl
  · rw [dif_neg h]
    rfl

theorem step_sublist {m : Queue α} {op : Op α} (h : op.AtStart m) :
    ((m.step op).2 ++ (m.step op).1.unplayed).Sublist (m.unplayed ++ op.samples) := by
  cases op with
  | cycle =>
    rw [unplayed_cycle]
    exact List.sublist_append_left _ _
  | feed levels sampleRate =>
    rw [Queue.step, List.nil_append, Op.samples]
    by_cases hne : levels = []
    · subst hne
      rw [feedLineLevels_nil]
      exact List.sublist_append_left _ _
    · rcases h with h | h | h
      · exact absurd h hne
      · rw [unplayed_feed_of_pos levels sampleRate h hne]
        exact List.Sublist.append (List.take_sublist _ _) (List.Sublist.refl _)
      · rw [unplayed_feed_of_cap levels h hne]
        exact List.sublist_append_right _ _

/-- The run: what is played and what is left come in order out of what was there and what was fed. -/
theorem run_sublist {m : Queue α} {ops : List (Op α)} (h : FeedsAtStart m ops) :
    ((m.run ops).2 ++ (m.run ops).1.unplayed).Sublist (m.unplayed ++ fed ops) := by
  induction ops generalizing m with
  | nil => exact List.sublist_append_left _ _
  | cons op ops ih =>
    obtain ⟨hop, hops⟩ := h
    rw [Queue.run, fed_cons, ← List.append_assoc]
    calc
      ((m.step op).2 ++ ((m.step op).1.run ops).2 ++ ((m.step op).1.run ops).1.unplayed).Sublist
          ((m.step op).2 ++ ((m.step op).1.unplayed ++ fed ops)) := by
        rw [List.append_assoc]
        exact List.Sublist.append (List.Sublist.refl _) (ih hops)
      _ = (m.step op).2 ++ (m.step op).1.unplayed ++ fed ops := (List.append_assoc _ _ _).symm
      List.Sublist _ (m.unplayed ++ op.samples ++ fed ops) :=
        List.Sublist.append (step_sublist hop) (List.Sublist.refl _)

theorem feedsAtStart_append {m : Queue α} {xs ys : List (Op α)} :
    FeedsAtStart m (xs ++ ys) ↔ FeedsAtStart m xs ∧ FeedsAtStart (m.run xs).1 ys := by
  induction xs generalizing m with
  | nil => exact (and_iff_right trivial).symm
  | cons op xs ih =>
    rw [List.cons_append, FeedsAtStart, FeedsAtStart, ih, Queue.run, and_assoc]

theorem feedsAtStart_cycles (m : Queue α) (n : Nat) : FeedsAtStart m (List.replicate n .cycle) := by
  induction n generalizing m with
  | zero => trivial
  | succ n ih => exact ⟨trivial, ih _⟩

theorem atStart_map (f : α → β) (m : Queue α) (op : Op α) : (op.map f).AtStart (m.map f) ↔ op.AtStart m := by
  cases op with
  | feed levels sampleRate => simp [Op.map, Op.AtStart, Queue.map]
  | cycle => rfl

theorem feedsAtStart_map (f : α → β) (m : Queue α) (ops : List (Op α)) :
    FeedsAtStart (m.map f) (ops.map (Op.map f)) ↔ FeedsAtStart m ops := by
  induction ops generalizing m with
  | nil => rfl
  | cons op ops ih =>
    rw [List.map_cons, FeedsAtStart, FeedsAtStart, Queue.step_map, ih, atStart_map]

theorem feedsAtStart_number (ops : List (Op α)) : FeedsAtStart {} (number ops) ↔ FeedsAtStart {} ops := by
  have hmap := feedsAtStart_map Prod.snd {} (number ops)
  rw [number, numberFrom_map_snd] at hmap
  exact hmap.symm

theorem keepsBacklog_of_atStart {m : Queue α} {levels : List α} {sampleRate : Int}
    (h : (Op.feed levels sampleRate).AtStart m) : KeepsBacklog m levels sampleRate := by
  intro hcap
  by_cases hne : levels = []
  · rw [hne, feedLineLevels_nil, List.append_nil]
  · rcases h with h | h | h
    · exact absurd h hne
    · rw [unplayed_feed_of_pos levels sampleRate h hne, List.take_of_length_le hcap]
    · rw [h] at hcap
      rw [unplayed_feed_of_cap levels h hne, List.eq_nil_of_length_eq_zero (Nat.le_zero.mp hcap), List.nil_append]

theorem fifo_of_feedsAtStart {ops : List (Op UInt8)} (h : FeedsAtStart {} ops) : Fifo ops where
  inOrder := by
    have hsub := run_sublist ((feedsAtStart_number ops).mpr h)
    exact (List.sublist_append_left _ _).trans hsub
  noLoss before levels sampleRate after hsplit := by
    have hops := (feedsAtStart_number ops).mpr h
    rw [hsplit, feedsAtStart_append] at hops
    exact keepsBacklog_of_atStart hops.2.1

/-! ## A cursor that has moved -/

theorem mem_played_of_mem_take (ops : List (Op α)) {x : α}
    (hx : x ∈ (Queue.run {} ops).1.q.take (Queue.run {} ops).1.pos) : x ∈ played ops := by
  induction ops using List.reverseRecOn generalizing x with
  | nil => simp [Queue.run] at hx
  | append_singleton ops op ih =>
    rw [played]
    rw [Queue.run_append] at hx ⊢
    simp only [Queue.run, List.append_nil] at hx ⊢
    rw [List.mem_append]
    -- `feed` adds behind the position; `cycle` moves past one level, which it plays.
    cases op with
    | feed levels sampleRate =>
      rw [Queue.step, feedLineLevels] at hx
      split at hx
      · exact .inl (ih hx)
      · simp at hx
    | cycle =>
      rw [Queue.step, feedTapeLineIn] at hx ⊢
      by_cases h : (Queue.run {} ops).1.pos < (Queue.run {} ops).1.q.length
      · rw [dif_pos h] at hx ⊢
        split at hx
        · exact .inl (ih hx)
        · rename_i hplay
          rw [if_neg hplay]
          rw [List.take_succ_eq_append_getElem h, List.mem_append] at hx
          exact hx.imp ih id
      · rw [dif_neg h] at hx
        exact .inl (ih hx)

theorem cycles_play (m : Queue α) (hpos : m.pos < m.q.length) (hrate : 0 < m.rate) :
    ∃ n, m.q[m.pos] ∈ (m.run (List.replicate n .cycle)).2 := by
  induction hgap : kMasterHz - m.acc using Nat.strongRecOn generalizing m with
  | ind gap ih =>
    by_cases hwait : m.acc + m.rate < kMasterHz
    · have hstep : m.step .cycle = ({ m with acc := m.acc + m.rate }, []) := by
        rw [Queue.step, feedTapeLineIn, dif_pos hpos, if_pos hwait]
        rfl
      obtain ⟨n, hn⟩ := ih (kMasterHz - (m.acc + m.rate)) (by omega) { m with acc := m.acc + m.rate } hpos hrate rfl
      refine ⟨n + 1, ?_⟩
      rw [List.replicate_succ, Queue.run, hstep, List.nil_append]
      exact hn
    · refine ⟨1, ?_⟩
      have hstep : (m.step .cycle).2 = [m.q[m.pos]] := by
        rw [Queue.step, feedTapeLineIn, dif_pos hpos, if_neg hwait]
        rfl
      rw [List.replicate_one, Queue.run, hstep]
      simp

theorem step_pos_le {m : Queue α} (h : m.pos ≤ m.q.length) (op : Op α) : (m.step op).1.pos ≤ (m.step op).1.q.length := by
  cases op with
  | feed levels sampleRate =>
    rw [Queue.step, feedLineLevels]
    split
    · exact h
    · simp only [Nat.min_zero]
      exact Nat.zero_le _
  | cycle =>
    rw [Queue.step, feedTapeLineIn]
    by_cases hpos : m.pos < m.q.length
    · rw [dif_pos hpos]
      split
      · exact h
      · exact hpos
    · rw [dif_neg hpos]
      exact h

theorem run_pos_le {m : Queue α} (h : m.pos ≤ m.q.length) (ops : List (Op α)) :
    (m.run ops).1.pos ≤ (m.run ops).1.q.length := by
  induction ops generalizing m with
  | nil => exact h
  | cons op ops ih => exact ih (step_pos_le h op)

theorem feed_head {m : Queue α} {levels : List α} {sampleRate : Int} (hne : levels ≠ []) (hcap : feedCap sampleRate ≠ 0)
    (hq : 0 < m.q.length) :
    (feedLineLevels m levels sampleRate).pos = 0 ∧ (feedLineLevels m levels sampleRate).rate = feedRate sampleRate ∧
      (feedLineLevels m levels sampleRate).q[0]? = some m.q[0] := by
  have hne' : ¬ levels.isEmpty = true := by simpa using hne
  rw [feedLineLevels, if_neg hne']
  refine ⟨Nat.min_zero _, rfl, ?_⟩
  simp only [Nat.min_zero, List.drop_zero]
  split
  · rw [List.getElem?_append_left (by rw [List.length_take]; omega), List.getElem?_take_of_lt (Nat.pos_of_ne_zero hcap),
      List.getElem?_eq_getElem hq]
  · rw [List.getElem?_append_left hq, List.getElem?_eq_getElem hq]

theorem played_twice {before : List (Op α)} {levels : List α} {sampleRate : Int}
    (h : ¬ (Op.feed levels sampleRate).AtStart (Queue.run {} before).1) :
    ∃ n, ¬ (played (before ++ .feed levels sampleRate :: List.replicate n .cycle)).Nodup := by
  simp only [Op.AtStart, not_or] at h
  obtain ⟨hne, hpos, hcap⟩ := h
  have hle : (Queue.run {} before).1.pos ≤ (Queue.run {} before).1.q.length := run_pos_le (m := {}) (Nat.le_refl 0) before
  have hq : 0 < (Queue.run {} before).1.q.length := Nat.lt_of_lt_of_le (Nat.pos_of_ne_zero hpos) hle
  have hplayed : (Queue.run {} before).1.q[0] ∈ played before := by
    refine mem_played_of_mem_take before ?_
    rw [List.mem_take_iff_getElem]
    exact ⟨0, by omega, rfl⟩
  obtain ⟨hpos', hrate', hhead⟩ := feed_head hne hcap hq
  obtain ⟨hlen, hget⟩ := List.getElem?_eq_some_iff.mp hhead
  have hrate : 0 < feedRate sampleRate := by
    rw [feedCap] at hcap
    omega
  obtain ⟨n, hn⟩ := cycles_play (feedLineLevels (Queue.run {} before).1 levels sampleRate)
    (by rw [hpos']; exact hlen) (by rw [hrate']; exact hrate)
  refine ⟨n, fun hnodup => ?_⟩
  rw [played, Queue.run_append] at hnodup
  refine (List.nodup_append.mp hnodup).2.2 _ hplayed _ ?_ rfl
  rw [Queue.run, Queue.step, List.nil_append]
  simp only [hpos', hget] at hn
  exact hn

theorem numberFrom_append (n : Nat) (xs ys : List (Op α)) :
    numberFrom n (xs ++ ys) = numberFrom n xs ++ numberFrom (n + (fed xs).length) ys := by
  induction xs generalizing n with
  | nil => rfl
  | cons op xs ih =>
    cases op with
    | feed levels sampleRate =>
      rw [List.cons_append, numberFrom, numberFrom, ih, fed_cons, List.length_append, Op.samples, Nat.add_assoc,
        List.cons_append]
    | cycle => rw [List.cons_append, numberFrom, numberFrom, ih, fed_cons, Op.samples, List.nil_append, List.cons_append]

theorem numberFrom_cycles (n k : Nat) : numberFrom n (List.replicate k (.cycle : Op α)) = List.replicate k .cycle := by
  induction k with
  | zero => rfl
  | succ k ih => rw [List.replicate_succ, numberFrom, ih, List.replicate_succ]

theorem exists_not_atStart {m : Queue α} {ops : List (Op α)} (h : ¬ FeedsAtStart m ops) :
    ∃ before levels sampleRate after, ops = before ++ .feed levels sampleRate :: after ∧
      ¬ (Op.feed levels sampleRate).AtStart (m.run before).1 := by
  induction ops generalizing m with
  | nil => exact absurd trivial h
  | cons op ops ih =>
    by_cases hop : op.AtStart m
    · obtain ⟨before, levels, sampleRate, after, rfl, hbad⟩ := ih fun hops => h ⟨hop, hops⟩
      exact ⟨op :: before, levels, sampleRate, after, rfl, hbad⟩
    · cases op with
      | feed levels sampleRate => exact ⟨[], levels, sampleRate, ops, rfl, hop⟩
      | cycle => exact absurd trivial hop

/-- Whatever cycles follow, at every moment of a run the line-in is first in, first out: exactly the runs in which every
feed finds the cursor at the start. -/
theorem fifo_iff_feedsAtStart (ops : List (Op UInt8)) :
    (∀ before after n, ops = before ++ after → Fifo (before ++ List.replicate n .cycle)) ↔ FeedsAtStart {} ops := by
  constructor
  · intro hfifo
    by_contra hbad
    obtain ⟨before, levels, sampleRate, after, rfl, hfeed⟩ := exists_not_atStart hbad
    -- the same feed, with its samples numbered
    have hstate : (Queue.run {} (number before)).1.map Prod.snd = (Queue.run {} before).1 := by
      have hrun := Queue.run_map Prod.snd {} (number before)
      rw [number, numberFrom_map_snd] at hrun
      exact (congrArg Prod.fst hrun).symm
    have hop : (Op.feed ((levels.zipIdx (0 + (fed before).length)).map Prod.swap) sampleRate).map Prod.snd =
        .feed levels sampleRate := by
      rw [Op.map, List.map_map]
      exact congrArg (Op.feed · sampleRate) (List.zipIdx_map_fst _ levels)
    rw [← hstate, ← hop, atStart_map] at hfeed
    obtain ⟨n, hn⟩ := played_twice hfeed
    have hnumber : number (before ++ [.feed levels sampleRate] ++ List.replicate n .cycle) =
        number before ++ .feed ((levels.zipIdx (0 + (fed before).length)).map Prod.swap) sampleRate ::
          List.replicate n .cycle := by
      rw [List.append_assoc, List.singleton_append, number, numberFrom_append, numberFrom, numberFrom_cycles, number]
    have hsub := (hfifo (before ++ [.feed levels sampleRate]) after n (by simp)).inOrder
    rw [hnumber] at hsub
    exact hn (hsub.nodup (hnumber ▸ fed_number_nodup _))
  · rintro h before after n rfl
    refine fifo_of_feedsAtStart (feedsAtStart_append.mpr ⟨(feedsAtStart_append.mp h).1, feedsAtStart_cycles _ n⟩)

/-- A sample is clocked onto the deck every 363 cycles. -/
def fedBehind : List (Op UInt8) :=
  .feed [1, 0] 44100 :: List.replicate 363 .cycle ++ .feed [1] 44100 :: List.replicate 363 .cycle

/-- The second feed has the first sample played again. -/
theorem fedBehind_played_again : played (number fedBehind) = [(0, 1), (0, 1)] ∧ ¬ Fifo fedBehind := by
  have hplayed : played (number fedBehind) = [(0, 1), (0, 1)] := by decide
  refine ⟨hplayed, fun h => ?_⟩
  have hnodup := h.inOrder.nodup (fed_number_nodup fedBehind)
  rw [hplayed] at hnodup
  exact absurd hnodup (by decide)

end Koncepcja.LineIn
