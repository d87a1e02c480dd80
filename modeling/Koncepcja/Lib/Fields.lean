import Mathlib.Data.List.Basic

/-!
# Fields of a Text

A text is cut into fields at every delimiter. As with `std::getline`, a delimiter at the end does not make an empty
field after it, and an empty text has no fields.

## Main results

- `fields_join`: fields that were put together with delimiters are cut apart again.
- `fields_terminated`: lines that each end in the delimiter are, too.
-/

namespace Koncepcja.Fields

variable {α : Type} [DecidableEq α]

/-- The fields of the rest of a text, where the first of them has begun. -/
def fieldsFrom (delim : α) (field : List α) : List α → List (List α)
  | [] => if field = [] then [] else [field]
  | c :: s => if c = delim then field :: fieldsFrom delim [] s else fieldsFrom delim (field ++ [c]) s

def fields (delim : α) (s : List α) : List (List α) := fieldsFrom delim [] s

/-- Fields with delimiters between them. -/
def join (delim : α) (first : List α) (rest : List (List α)) : List α :=
  first ++ rest.flatMap fun field => delim :: field

variable {delim : α} {field t : List α}

theorem fieldsFrom_append (h : delim ∉ t) (field s : List α) :
    fieldsFrom delim field (t ++ s) = fieldsFrom delim (field ++ t) s := by
  induction t generalizing field with
  | nil => rw [List.nil_append, List.append_nil]
  | cons c t ih =>
    rw [List.mem_cons, not_or] at h
    rw [List.cons_append, fieldsFrom, if_neg (Ne.symm h.1), ih h.2, List.append_assoc, List.singleton_append]

/-- Fields without the delimiter, of which the last is not empty, are cut apart again. -/
theorem fields_join (first : List α) (rest : List (List α)) (hfirst : delim ∉ first)
    (hrest : ∀ field ∈ rest, delim ∉ field ∧ field ≠ []) (hne : rest = [] → first ≠ []) :
    fields delim (join delim first rest) = first :: rest := by
  induction rest generalizing first with
  | nil =>
    rw [fields, join, fieldsFrom_append hfirst, List.nil_append, List.flatMap_nil, fieldsFrom, if_neg (hne rfl)]
  | cons next rest ih =>
    obtain ⟨hnext, hnonempty⟩ := hrest next List.mem_cons_self
    have htail := ih next hnext (fun field hfield => hrest field (List.mem_cons_of_mem next hfield)) fun _ => hnonempty
    rw [fields, join, fieldsFrom_append hfirst, List.nil_append, List.flatMap_cons, List.cons_append, fieldsFrom,
      if_pos rfl]
    exact congrArg (first :: ·) htail

/-- Lines that each end in the delimiter are cut apart again, the empty ones too. -/
theorem fields_terminated {ls : List (List α)} (h : ∀ l ∈ ls, delim ∉ l) :
    fields delim (ls.flatMap (· ++ [delim])) = ls := by
  induction ls with
  | nil => rfl
  | cons l ls ih =>
    have htail := ih fun l' hl' => h l' (List.mem_cons_of_mem l hl')
    rw [fields, List.flatMap_cons, List.append_assoc, fieldsFrom_append (h l List.mem_cons_self), List.nil_append,
      List.singleton_append, fieldsFrom, if_pos rfl]
    exact congrArg (l :: ·) htail

theorem delim_notMem_fieldsFrom {s : List α} (hfield : delim ∉ field) (ht : t ∈ fieldsFrom delim field s) :
    delim ∉ t := by
  induction s generalizing field with
  | nil =>
    rw [fieldsFrom] at ht
    split at ht
    · cases ht
    · rwa [List.mem_singleton.mp ht]
  | cons c s ih =>
    rw [fieldsFrom] at ht
    split at ht
    · rcases List.mem_cons.mp ht with rfl | ht
      · exact hfield
      · exact ih List.not_mem_nil ht
    · rename_i hc
      refine ih ?_ ht
      rw [List.mem_append, List.mem_singleton]
      exact fun hmem => hmem.elim hfield fun heq => hc heq.symm

theorem delim_notMem_of_mem_fields {s : List α} (h : t ∈ fields delim s) : delim ∉ t :=
  delim_notMem_fieldsFrom List.not_mem_nil h

end Koncepcja.Fields
