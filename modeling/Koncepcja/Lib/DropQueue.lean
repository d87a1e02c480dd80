import Mathlib.Data.List.Basic

/-!
# Queues that Drop

A queue of at most `cap` entries that drops what does not fit. Nothing here knows what the entries are.

## Main results

- `offerAll_eq`: of a burst of entries the queue keeps as many as there is room for, the first ones.
-/

namespace Koncepcja.DropQueue

variable {α : Type*}

/-- One more entry, if there is room. -/
def offer (cap : Nat) (q : List α) (x : α) : List α := if q.length < cap then q ++ [x] else q

/-- A burst of entries. -/
def offerAll (cap : Nat) (q xs : List α) : List α := xs.foldl (offer cap) q

theorem offerAll_append (cap : Nat) (q xs ys : List α) :
    offerAll cap q (xs ++ ys) = offerAll cap (offerAll cap q xs) ys := List.foldl_append

theorem offerAll_singleton (cap : Nat) (q : List α) (x : α) : offerAll cap q [x] = offer cap q x := rfl

theorem offer_length_le {cap : Nat} {q : List α} (h : q.length ≤ cap) (x : α) : (offer cap q x).length ≤ cap := by
  unfold offer
  split
  · rw [List.length_append, List.length_singleton]
    omega
  · exact h

theorem offerAll_eq {cap : Nat} {q : List α} (h : q.length ≤ cap) (xs : List α) :
    offerAll cap q xs = q ++ xs.take (cap - q.length) := by
  induction xs generalizing q with
  | nil => rw [List.take_nil, List.append_nil, offerAll, List.foldl_nil]
  | cons x xs ih =>
    have hstep : offerAll cap q (x :: xs) = offerAll cap (offer cap q x) xs := rfl
    rw [hstep, ih (offer_length_le h x)]
    unfold offer
    by_cases hroom : q.length < cap
    · rw [if_pos hroom, List.append_assoc, List.length_append, List.length_singleton,
        show cap - q.length = (cap - (q.length + 1)) + 1 by omega, List.take_succ_cons, List.singleton_append]
    · rw [if_neg hroom, show cap - q.length = 0 by omega, List.take_zero, List.take_zero]

theorem offerAll_length_le {cap : Nat} {q : List α} (h : q.length ≤ cap) (xs : List α) :
    (offerAll cap q xs).length ≤ cap := by
  rw [offerAll_eq h, List.length_append, List.length_take]
  omega

end Koncepcja.DropQueue
