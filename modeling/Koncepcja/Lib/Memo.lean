import Mathlib.Logic.Function.Basic

/-!
# Memo Tables

A table of slots with a mark on each slot that holds a value: a value is read from a held slot, or
made, written to the slot and, when it may be kept, held there. What a slot contains while it is
not held is never read back, so `lookup` is all that two tables must share to serve alike.

## Main results

- `slots_fetch` and `lookup_fetch`: a fetch in terms of `lookup` alone.
- `Serves.fetch` and `Serves.slots_fetch`: a table that holds only values of a function serves
  that function, and still does behind the fetch.
-/

namespace Koncepcja

/-- Slots, and which of them are held. -/
structure Memo (κ α : Type*) where
  slots : κ → α
  held : κ → Bool

namespace Memo

variable {κ α : Type*}

/-- The value held for a key. -/
def lookup (m : Memo κ α) (k : κ) : Option α := if m.held k then some (m.slots k) else none

/-- Hold nothing; the slots keep what they contain. -/
def clear (m : Memo κ α) : Memo κ α := { m with held := fun _ => false }

variable [DecidableEq κ]

/-- Have a value in the slot of `k`: the held one, else the one made here, which stays held only
    when `made.2` says that it may. -/
def fetch (m : Memo κ α) (k : κ) (made : α × Bool) : Memo κ α :=
  if m.held k then m
  else
    { slots := Function.update m.slots k made.1
      held := if made.2 then Function.update m.held k true else m.held }

omit [DecidableEq κ] in
@[simp] theorem lookup_clear (m : Memo κ α) (k : κ) : m.clear.lookup k = none := rfl

/-! ## A fetch -/

/-- What a fetch leaves in its slot. -/
theorem slots_fetch (m : Memo κ α) (k : κ) (made : α × Bool) :
    (m.fetch k made).slots k = (m.lookup k).getD made.1 := by
  unfold fetch lookup
  split
  · rfl
  · exact Function.update_self k made.1 m.slots

/-- What a fetch leaves for later. -/
theorem lookup_fetch (m : Memo κ α) (k j : κ) (made : α × Bool) :
    (m.fetch k made).lookup j =
      if j = k ∧ m.lookup k = none ∧ made.2 = true then some made.1 else m.lookup j := by
  by_cases hheld : m.held k
  · simp [fetch, lookup, hheld]
  · by_cases hj : j = k
    · subst hj
      by_cases hkeep : made.2 = true <;> simp [fetch, lookup, hheld, hkeep]
    · -- another slot and its mark stay as they are
      have hheld' : (m.fetch k made).held j = m.held j := by
        by_cases hkeep : made.2 = true <;> simp [fetch, hheld, hkeep, hj]
      have hslot : (m.fetch k made).slots j = m.slots j := by simp [fetch, hheld, hj]
      rw [if_neg fun h => hj h.1, lookup, lookup, hheld', hslot]

theorem slots_fetch_congr {m m' : Memo κ α} (h : m.lookup = m'.lookup) (k : κ) (made : α × Bool) :
    (m.fetch k made).slots k = (m'.fetch k made).slots k := by
  rw [slots_fetch, slots_fetch, h]

theorem lookup_fetch_congr {m m' : Memo κ α} (h : m.lookup = m'.lookup) (k : κ) (made : α × Bool) :
    (m.fetch k made).lookup = (m'.fetch k made).lookup := by
  funext j
  rw [lookup_fetch, lookup_fetch, h]

/-! ## Serving a function -/

/-- Every value held is that of `f`. -/
def Serves (m : Memo κ α) (f : κ → α) : Prop := ∀ k a, m.lookup k = some a → a = f k

omit [DecidableEq κ] in
theorem serves_clear (m : Memo κ α) (f : κ → α) : m.clear.Serves f :=
  fun k _ h => nomatch (lookup_clear m k).symm.trans h

/-- A value made by `f` may be held. -/
theorem Serves.fetch {m : Memo κ α} {f : κ → α} (h : m.Serves f) (k : κ) (keep : Bool) :
    (m.fetch k (f k, keep)).Serves f := by
  intro j a hj
  rw [lookup_fetch] at hj
  split at hj
  · case _ hk =>
    rw [hk.1]
    exact (Option.some.inj hj).symm
  · exact h j a hj

/-- The value read is that of `f`, held or made. -/
theorem Serves.slots_fetch {m : Memo κ α} {f : κ → α} (h : m.Serves f) (k : κ) (keep : Bool) :
    (m.fetch k (f k, keep)).slots k = f k := by
  rw [Memo.slots_fetch]
  cases hk : m.lookup k with
  | none => rfl
  | some a => exact h k a hk

end Memo

end Koncepcja
