import Mathlib.Data.List.Basic
import Mathlib.Data.List.Infix

/-!
# Searching a Text

The first occurrence of a pattern in a text, the lines of a text, and a fold whose steps touch the parts of its
result independently.

## Main results

- `find_append`: a search passes over what does not have the first letter of the pattern.
- `lines_append`: a line ends where the first separator is.
- `foldl_view`: a part of the result of a fold is the fold over the items that touch it.
-/

namespace Koncepcja.Search

variable {α : Type*} [DecidableEq α]

/-- What stands before the first occurrence of the pattern, and what stands after it. -/
def find (pattern : List α) : List α → Option (List α × List α)
  | [] => none
  | a :: text =>
    if pattern.isPrefixOf (a :: text) then some ([], (a :: text).drop pattern.length)
    else (find pattern text).map fun p => (a :: p.1, p.2)

/-- The lines of a text. There is no empty line behind the last separator. -/
def lines (sep : α) : List α → List (List α)
  | [] => []
  | a :: text =>
    if a = sep then [] :: lines sep text
    else
      match lines sep text with
      | [] => [[a]]
      | line :: rest => (a :: line) :: rest

/-! ## Patterns -/

theorem isPrefixOf_cons_of_ne {a b : α} (h : b ≠ a) (pattern text : List α) :
    (a :: pattern).isPrefixOf (b :: text) = false := by
  rw [List.isPrefixOf_cons_cons, beq_false_of_ne h.symm, Bool.false_and]

theorem find_self {pattern : List α} (h : pattern ≠ []) (text : List α) :
    find pattern (pattern ++ text) = some ([], text) := by
  obtain ⟨a, pattern, rfl⟩ := List.exists_cons_of_ne_nil h
  rw [List.cons_append, find, ← List.cons_append]
  rw [if_pos (List.isPrefixOf_iff_prefix.2 (List.prefix_append _ _)), List.drop_left]

theorem find_cons_of_ne {a b : α} (h : b ≠ a) (pattern text : List α) :
    find (a :: pattern) (b :: text) = (find (a :: pattern) text).map fun p => (b :: p.1, p.2) := by
  rw [find, if_neg (Bool.eq_false_iff.1 (isPrefixOf_cons_of_ne h pattern text))]

theorem find_append {a : α} {before : List α} (h : a ∉ before) (pattern text : List α) :
    find (a :: pattern) (before ++ text) = (find (a :: pattern) text).map fun p => (before ++ p.1, p.2) := by
  induction before with
  | nil => exact Option.map_id'.symm
  | cons b before ih =>
    rw [List.mem_cons, not_or] at h
    rw [List.cons_append, find_cons_of_ne (Ne.symm h.1), ih h.2, Option.map_map]
    rfl

theorem find_eq_none {a : α} {text : List α} (h : a ∉ text) (pattern : List α) :
    find (a :: pattern) text = none := by
  have hfind := find_append h pattern []
  rwa [List.append_nil] at hfind

theorem find_first {a : α} {before : List α} (h : a ∉ before) (pattern text : List α) :
    find (a :: pattern) (before ++ (a :: pattern ++ text)) = some (before, text) := by
  rw [find_append h, find_self (List.cons_ne_nil a pattern), Option.map_some, List.append_nil]

/-! ## Lines -/

theorem lines_append {sep : α} {line : List α} (h : sep ∉ line) (text : List α) :
    lines sep (line ++ sep :: text) = line :: lines sep text := by
  induction line with
  | nil => rw [List.nil_append, lines, if_pos rfl]
  | cons a line ih =>
    rw [List.mem_cons, not_or] at h
    rw [List.cons_append, lines, if_neg (Ne.symm h.1), ih h.2]

theorem lines_single {sep : α} {line : List α} (h : sep ∉ line) (hne : line ≠ []) : lines sep line = [line] := by
  induction line with
  | nil => exact absurd rfl hne
  | cons a line ih =>
    rw [List.mem_cons, not_or] at h
    rw [lines, if_neg (Ne.symm h.1)]
    cases line with
    | nil => rfl
    | cons b line => rw [ih h.2 (List.cons_ne_nil b line)]

/-! ## Folds -/

omit [DecidableEq α] in
/-- Where `view` shows of a step what `touch` makes of it, and nothing of the steps that do not satisfy `p`, it
    shows of a fold the fold over the rest. -/
theorem foldl_view {σ β : Type*} {step : σ → α → σ} (view : σ → β) (p : α → Bool) (touch : β → α → β)
    (hframe : ∀ s a, p a = false → view (step s a) = view s)
    (htouch : ∀ s a, p a = true → view (step s a) = touch (view s) a) (items : List α) (s : σ) :
    view (items.foldl step s) = (items.filter p).foldl touch (view s) := by
  induction items generalizing s with
  | nil => rfl
  | cons a items ih =>
    rw [List.foldl_cons, ih]
    cases hp : p a with
    | false => rw [hframe s a hp, List.filter_cons_of_neg (Bool.eq_false_iff.1 hp)]
    | true => rw [htouch s a hp, List.filter_cons_of_pos hp, List.foldl_cons]

end Koncepcja.Search
