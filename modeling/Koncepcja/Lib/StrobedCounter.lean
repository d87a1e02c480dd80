import Mathlib.Data.List.Basic

/-!
# Counters Shown on a Strobe

A counter is shown while it is strobed and not zero. It counts down by one where the strobe comes on
again behind a time it was off; counts are added at any time. Each count should light one period of the
strobe, and does, unless it is added to a counter at zero that counts down before it is lit.

## Main results

- `lit_add_missed`: in every run that ends at zero, the lit periods and the counts missed are the counts.
- `lit_eq_iff`: no count is missed exactly where each one added at zero is lit first.
-/

namespace StrobedCounter

/-- The counter, whether it is strobed, and whether the strobe was off since it last counted down. -/
structure Counter where
  pending : Nat
  strobed : Bool
  armed : Bool
  deriving DecidableEq, Repr

/-- Counts to be added, or a cycle with the strobe on or off. -/
inductive Input
  | add (n : Nat)
  | cycle (on : Bool)
  deriving DecidableEq, Repr

/-- A cycle with the strobe on again counts down. -/
def Counter.step (c : Counter) : Input → Counter
  | .add n => { c with pending := c.pending + n }
  | .cycle on =>
    let armed := c.armed || (!on && c.strobed)
    if on && !c.strobed && armed then ⟨c.pending - 1, on, false⟩ else ⟨c.pending, on, armed⟩

/-- The cycles of a run: whether the strobe is on, and whether the counter is shown. -/
def trace : Counter → List Input → List (Bool × Bool)
  | _, [] => []
  | c, .add n :: is => trace (c.step (.add n)) is
  | c, .cycle on :: is => (on, on && (c.step (.cycle on)).pending != 0) :: trace (c.step (.cycle on)) is

/-- The strobe's periods in which the counter is shown; `counted` of the present one. -/
def lit : Bool → List (Bool × Bool) → Nat
  | _, [] => 0
  | counted, (true, shown) :: cycles => (if shown && !counted then 1 else 0) + lit (counted || shown) cycles
  | _, (false, _) :: cycles => lit false cycles

/-- The counts that are added. -/
def total : List Input → Nat
  | [] => 0
  | .add n :: is => n + total is
  | .cycle _ :: is => total is

/-- The strobe is on at the next cycle, if there is one. -/
def nextOn : List Input → Bool
  | [] => true
  | .add _ :: is => nextOn is
  | .cycle on :: _ => on

/-- A count added to a counter at zero is counted down before it is lit. -/
def misses (c : Counter) (n : Nat) (is : List Input) : Bool :=
  c.pending == 0 && n != 0 && (c.armed || c.strobed && !nextOn is)

/-- The counts missed in a run. -/
def missed : Counter → List Input → Nat
  | _, [] => 0
  | c, .add n :: is => (if misses c n is then 1 else 0) + missed (c.step (.add n)) is
  | c, .cycle on :: is => missed (c.step (.cycle on)) is

/-- The strobe of an armed counter is off, and the present period was counted only if it was lit. -/
structure Kept (c : Counter) (counted : Bool) : Prop where
  armed : c.armed = true → c.strobed = false
  counted : counted = true → c.strobed = true ∧ c.pending ≠ 0

/-- One of the pending counts is lit or missed already. -/
def debt (c : Counter) (counted : Bool) (is : List Input) : Nat :=
  if c.pending = 0 then 0
  else if c.strobed then (if counted || !nextOn is then 1 else 0)
  else if c.armed then 1
  else 0

theorem kept_add {c : Counter} {counted : Bool} (h : Kept c counted) (n : Nat) : Kept (c.step (.add n)) counted :=
  ⟨h.armed, fun hc => ⟨(h.counted hc).1, fun hzero => (h.counted hc).2 (Nat.eq_zero_of_add_eq_zero_right hzero)⟩⟩

/-- Whether the present period is counted behind a cycle. -/
def countedAfter (c : Counter) (counted on : Bool) : Bool :=
  on && (counted || (c.step (.cycle on)).pending != 0)

theorem kept_cycle {c : Counter} {counted : Bool} (h : Kept c counted) (on : Bool) :
    Kept (c.step (.cycle on)) (countedAfter c counted on) := by
  obtain ⟨p, s, a⟩ := c
  cases on with
  | false => exact ⟨fun _ => by simp [Counter.step], fun hc => Bool.noConfusion hc⟩
  | true =>
    refine ⟨fun harmed => ?_, fun hc => ⟨?_, fun hzero => ?_⟩⟩
    · cases s <;> cases a
      · simp [Counter.step] at harmed
      · simp [Counter.step] at harmed
      · simp [Counter.step] at harmed
      · exact absurd (h.armed rfl) (by simp)
    · cases s <;> cases a <;> rfl
    · -- a period that is counted is lit, and nothing counts down before it is over
      simp only [countedAfter, Bool.true_and, hzero, bne_self_eq_false, Bool.or_false] at hc
      obtain ⟨hs, hp⟩ := h.counted hc
      have hs' : s = true := hs
      subst hs'
      simp only [Counter.step, Bool.not_true, Bool.and_false, Bool.false_and, Bool.false_eq_true, if_false] at hzero
      exact hp hzero

theorem debt_add {c : Counter} {counted : Bool} (h : Kept c counted) (n : Nat) (is : List Input) :
    (if misses c n is then 1 else 0) + debt c counted (.add n :: is) = debt (c.step (.add n)) counted is := by
  obtain ⟨p, s, a⟩ := c
  cases p with
  | zero =>
    have hcounted : counted = false := by
      cases counted with
      | false => rfl
      | true => exact absurd rfl (h.counted rfl).2
    subst hcounted
    have harmed : a = true → s = false := h.armed
    cases n with
    | zero => simp [misses, debt, Counter.step]
    | succ n => cases s <;> cases a <;> cases hnext : nextOn is <;> simp_all [misses, debt, Counter.step]
  | succ p =>
    have hpending : ¬p + 1 = 0 := Nat.succ_ne_zero p
    have hadd : ¬((⟨p + 1, s, a⟩ : Counter).step (.add n)).pending = 0 := by
      show ¬p + 1 + n = 0
      omega
    have hnone : misses ⟨p + 1, s, a⟩ n is = false := rfl
    have hnext : nextOn (.add n :: is) = nextOn is := rfl
    rw [hnone, if_neg Bool.false_ne_true, Nat.zero_add, debt, debt, if_neg hpending, if_neg hadd, hnext]
    rfl

theorem debt_cycle {c : Counter} {counted : Bool} (h : Kept c counted) (on : Bool) (is : List Input) :
    (if on && (c.step (.cycle on)).pending != 0 && !counted then 1 else 0) + debt c counted (.cycle on :: is) +
        (c.step (.cycle on)).pending =
      c.pending + debt (c.step (.cycle on)) (countedAfter c counted on) is := by
  obtain ⟨p, s, a⟩ := c
  have hoff : s = false → counted = false := by
    intro hs
    cases counted with
    | false => rfl
    | true => exact absurd (hs.symm.trans (h.counted rfl).1) (by simp)
  have hzero : p = 0 → counted = false := by
    intro hp
    cases counted with
    | false => rfl
    | true => exact absurd hp (h.counted rfl).2
  have harmed : a = true → s = false := h.armed
  rcases p with _ | _ | p <;> cases on <;> cases s <;> cases a <;> cases counted <;>
    simp_all [debt, Counter.step, countedAfter, nextOn] <;> omega

theorem lit_cycle (c : Counter) (counted on : Bool) (is : List Input) :
    lit counted (trace c (.cycle on :: is)) =
      (if on && (c.step (.cycle on)).pending != 0 && !counted then 1 else 0) +
        lit (countedAfter c counted on) (trace (c.step (.cycle on)) is) := by
  cases on with
  | false => rw [trace, lit, if_neg (by simp), Nat.zero_add]; rfl
  | true => rfl

/-- **Counts.** What is lit, what is missed and what is out of step make up the counts, once none is
    pending. -/
theorem lit_add_missed {c : Counter} {counted : Bool} (h : Kept c counted) (is : List Input)
    (hend : (is.foldl Counter.step c).pending = 0) :
    lit counted (trace c is) + missed c is + debt c counted is = c.pending + total is := by
  induction is generalizing c counted with
  | nil =>
    have hzero : c.pending = 0 := hend
    rw [debt, if_pos hzero, hzero]
    rfl
  | cons i is ih =>
    cases i with
    | add n =>
      have hrest := ih (kept_add h n) hend
      have hdebt := debt_add h n is
      have hpending : (c.step (.add n)).pending = c.pending + n := rfl
      rw [trace, missed, total]
      omega
    | cycle on =>
      have hrest := ih (kept_cycle h on) hend
      have hdebt := debt_cycle h on is
      rw [lit_cycle, missed, total]
      omega

/-- Every count that is added to a counter at zero is lit before it is counted down. -/
def Seen : Counter → List Input → Prop
  | _, [] => True
  | c, .add n :: is =>
    (c.pending = 0 → n ≠ 0 → c.armed = false ∧ (c.strobed = true → nextOn is = true)) ∧ Seen (c.step (.add n)) is
  | c, .cycle on :: is => Seen (c.step (.cycle on)) is

theorem misses_eq_false (c : Counter) (n : Nat) (is : List Input) :
    misses c n is = false ↔ (c.pending = 0 → n ≠ 0 → c.armed = false ∧ (c.strobed = true → nextOn is = true)) := by
  cases hs : c.strobed <;> cases ha : c.armed <;> cases hn : nextOn is <;> simp [misses, hs, ha, hn]

theorem missed_eq_zero (c : Counter) (is : List Input) : missed c is = 0 ↔ Seen c is := by
  induction is generalizing c with
  | nil => exact iff_of_true rfl trivial
  | cons i is ih =>
    cases i with
    | add n =>
      rw [missed, Seen, Nat.add_eq_zero_iff, ih, ← misses_eq_false]
      cases misses c n is <;> simp
    | cycle on => exact ih _

/-- **Conservation** from rest: the lit periods are the counts exactly where each one is seen. -/
theorem lit_eq_iff {c : Counter} (hc : c = ⟨0, false, false⟩) (is : List Input)
    (hend : (is.foldl Counter.step c).pending = 0) : lit false (trace c is) = total is ↔ Seen c is := by
  subst hc
  have hkept : Kept ⟨0, false, false⟩ false := ⟨fun _ => rfl, fun h => Bool.noConfusion h⟩
  have hsum := lit_add_missed hkept is hend
  have hdebt : debt ⟨0, false, false⟩ false is = 0 := rfl
  have hpending : (⟨0, false, false⟩ : Counter).pending = 0 := rfl
  rw [← missed_eq_zero]
  omega

end StrobedCounter
