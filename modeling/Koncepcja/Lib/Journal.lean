import Mathlib.Logic.Function.Basic
import Mathlib.Data.List.Basic

/-!
# Writes and a Journal of What They Replace

Writes to the places of a memory, one after the other, and a journal that has what every write replaced. The journal
is written back from its first entry to its last, which is not the order in which the writes are undone: a place that
was written twice ends with what its last write replaced.

## Main results

- `writeAll_apply`: what a place holds after some writes.
- `valuesAt_journal`: the journal of a place.
- `replayed_eq_iff`: which places have their old contents after the journal was written back.
- `roundTrip_eq_iff`: the same for several lists of writes, the last one written back first.
-/

namespace Koncepcja.Journal

variable {α β : Type} [DecidableEq α]

/-- Writes to places, in their order. -/
def writeAll (m : α → β) : List (α × β) → α → β
  | [] => m
  | (a, v) :: ws => writeAll (Function.update m a v) ws

/-- What every write replaces. -/
def journal (m : α → β) : List (α × β) → List (α × β)
  | [] => []
  | (a, v) :: ws => (a, m a) :: journal (Function.update m a v) ws

/-- The values that a place is given. -/
def valuesAt (x : α) (ws : List (α × β)) : List β := (ws.filter fun w => w.1 = x).map Prod.snd

variable {m : α → β} {x a : α} {v : β} {ws : List (α × β)}

@[simp] theorem valuesAt_nil : valuesAt x ([] : List (α × β)) = [] := rfl

theorem valuesAt_cons_self : valuesAt x ((x, v) :: ws) = v :: valuesAt x ws := by
  simp [valuesAt]

theorem valuesAt_cons_other (h : a ≠ x) : valuesAt x ((a, v) :: ws) = valuesAt x ws := by
  simp [valuesAt, h]

/-- The last value that a place is given is what it holds. -/
theorem writeAll_apply (m : α → β) (ws : List (α × β)) (x : α) :
    writeAll m ws x = (valuesAt x ws).getLast?.getD (m x) := by
  induction ws generalizing m with
  | nil => rfl
  | cons w ws ih =>
    obtain ⟨a, v⟩ := w
    rw [writeAll, ih]
    by_cases h : a = x
    · subst h
      rw [valuesAt_cons_self, List.getLast?_cons, Function.update_self]
      cases (valuesAt a ws).getLast? <;> rfl
    · rw [valuesAt_cons_other h, Function.update_of_ne (Ne.symm h)]

theorem writeAll_of_untouched (h : valuesAt x ws = []) : writeAll m ws x = m x := by
  rw [writeAll_apply, h]
  rfl

/-- A place had its old contents, and then the values it was given, but for the last. -/
theorem valuesAt_journal (m : α → β) (ws : List (α × β)) (x : α) :
    valuesAt x (journal m ws) = (m x :: valuesAt x ws).dropLast := by
  induction ws generalizing m with
  | nil => rfl
  | cons w ws ih =>
    obtain ⟨a, v⟩ := w
    rw [journal]
    by_cases h : a = x
    · subst h
      rw [valuesAt_cons_self, valuesAt_cons_self, ih, Function.update_self]
      rfl
    · rw [valuesAt_cons_other h, valuesAt_cons_other h, ih, Function.update_of_ne (Ne.symm h)]

/-! ## The journal is written back -/

/-- The last but one of the values that a place was given is its old contents, if it was given two or more. -/
def Undone (old : β) (values : List β) : Prop := ∀ v, values.dropLast.getLast? = some v → v = old

/-- After the journal was written back, a place that was written has its old contents just when it is undone. -/
theorem replayed_eq_iff {m' : α → β} (htouched : valuesAt x ws ≠ []) :
    writeAll m' (journal m ws) x = m x ↔ Undone (m x) (valuesAt x ws) := by
  obtain ⟨first, rest, hvalues⟩ := List.exists_cons_of_ne_nil htouched
  rw [writeAll_apply, valuesAt_journal, hvalues, List.dropLast_cons_of_ne_nil (List.cons_ne_nil first rest),
    List.getLast?_cons, Undone]
  -- The journal of the place is its old contents, and then what it was given before its last write.
  cases (first :: rest).dropLast.getLast? with
  | none => simp
  | some v => simp

/-- The journals of several lists of writes are written back, the last one first. -/
def roundTrip (m : α → β) : List (List (α × β)) → α → β
  | [] => m
  | ws :: lists => writeAll (roundTrip (writeAll m ws) lists) (journal m ws)

/-- Whether a place is written. -/
def touches (x : α) (ws : List (α × β)) : Bool := ws.any fun w => w.1 = x

theorem valuesAt_eq_nil_iff : valuesAt x ws = [] ↔ touches x ws = false := by
  simp [valuesAt, touches]

/-- The first list that writes to a place decides whether the place has its old contents in the end. -/
theorem roundTrip_eq_iff (m : α → β) (lists : List (List (α × β))) (x : α) :
    roundTrip m lists x = m x ↔ ∀ ws, lists.find? (touches x) = some ws → Undone (m x) (valuesAt x ws) := by
  induction lists generalizing m with
  | nil => simp [roundTrip]
  | cons ws lists ih =>
    rw [roundTrip, List.find?_cons]
    cases htouches : touches x ws with
    | true =>
      have htouched : valuesAt x ws ≠ [] := fun h => by simp [valuesAt_eq_nil_iff.mp h] at htouches
      rw [replayed_eq_iff htouched]
      simp
    | false =>
      have huntouched := valuesAt_eq_nil_iff.mpr htouches
      have hjournal : valuesAt x (journal m ws) = [] := by rw [valuesAt_journal, huntouched]; rfl
      have hrest := ih (writeAll m ws)
      rw [writeAll_of_untouched huntouched] at hrest
      rw [writeAll_of_untouched hjournal]
      exact hrest

end Koncepcja.Journal
