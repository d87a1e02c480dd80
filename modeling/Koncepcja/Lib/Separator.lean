import Mathlib.Data.List.Basic

/-!
# The First Separator of a List

A list is cut at the first place where it has a separator: what comes before it, and what comes past it. A list
without the separator is all before it.

## Main results

- `upTo_append_past`: the two parts and the separator make the list.
- `upTo_join`, `past_join`: the parts of a list that was made so.
-/

namespace Koncepcja.Separator

variable {α : Type} [DecidableEq α] {sep : α} {l a b : List α}

/-- What comes before the first separator. -/
def upTo (sep : α) (l : List α) : List α := l.takeWhile (· ≠ sep)

/-- What comes past the first separator. -/
def past (sep : α) (l : List α) : List α := (l.dropWhile (· ≠ sep)).drop 1

@[simp] theorem upTo_nil : upTo sep [] = [] := rfl

@[simp] theorem past_nil : past sep [] = [] := rfl

theorem upTo_cons_other {x : α} (h : x ≠ sep) : upTo sep (x :: l) = x :: upTo sep l := by
  simp [upTo, h]

theorem past_cons_other {x : α} (h : x ≠ sep) : past sep (x :: l) = past sep l := by
  simp [past, h]

theorem upTo_of_notMem (h : sep ∉ l) : upTo sep l = l := by
  induction l with
  | nil => rfl
  | cons x l ih =>
    rw [List.mem_cons, not_or] at h
    rw [upTo_cons_other (Ne.symm h.1), ih h.2]

theorem past_of_notMem (h : sep ∉ l) : past sep l = [] := by
  induction l with
  | nil => rfl
  | cons x l ih =>
    rw [List.mem_cons, not_or] at h
    rw [past_cons_other (Ne.symm h.1), ih h.2]

theorem upTo_join (h : sep ∉ a) : upTo sep (a ++ sep :: b) = a := by
  induction a with
  | nil => simp [upTo]
  | cons x a ih =>
    rw [List.mem_cons, not_or] at h
    rw [List.cons_append, upTo_cons_other (Ne.symm h.1), ih h.2]

theorem past_join (h : sep ∉ a) : past sep (a ++ sep :: b) = b := by
  induction a with
  | nil => simp [past]
  | cons x a ih =>
    rw [List.mem_cons, not_or] at h
    rw [List.cons_append, past_cons_other (Ne.symm h.1), ih h.2]

theorem notMem_upTo : sep ∉ upTo sep l := by
  by_cases h : sep ∈ l
  · obtain ⟨a, b, rfl, ha⟩ := List.eq_append_cons_of_mem h
    rwa [upTo_join ha]
  · rwa [upTo_of_notMem h]

theorem upTo_subset {x : α} (h : x ∈ upTo sep l) : x ∈ l := (List.takeWhile_prefix _).subset h

theorem past_subset {x : α} (h : x ∈ past sep l) : x ∈ l := (List.dropWhile_suffix _).subset (List.mem_of_mem_drop h)

theorem upTo_append_past (h : sep ∈ l) : upTo sep l ++ sep :: past sep l = l := by
  obtain ⟨a, b, rfl, ha⟩ := List.eq_append_cons_of_mem h
  rw [upTo_join ha, past_join ha]

end Koncepcja.Separator
