import Mathlib

/-!
# Maps in the Order of Their Keys

A map is the list of its entries, in the strict order of their keys, as `std::map` walks it.

## Main results

- `find_insert`, `find_erase`: what is found behind an insertion and a removal.
- `mem_entries`: the entries are what is found.
-/

namespace Koncepcja

/-- Entries in the strict order of their keys. -/
structure KeyedMap (κ β : Type) [LinearOrder κ] where
  entries : List (κ × β) := []
  sorted : entries.Pairwise (fun a b => a.1 < b.1) := by exact List.Pairwise.nil

namespace KeyedMap

variable {κ β : Type} [LinearOrder κ]

def findEntry (k : κ) : List (κ × β) → Option β
  | [] => none
  | e :: es => if e.1 = k then some e.2 else findEntry k es

def find (m : KeyedMap κ β) (k : κ) : Option β := findEntry k m.entries

def insertEntry (k : κ) (v : β) : List (κ × β) → List (κ × β)
  | [] => [(k, v)]
  | e :: es => if k < e.1 then (k, v) :: e :: es else if e.1 = k then (k, v) :: es else e :: insertEntry k v es

theorem mem_insertEntry {k : κ} {v : β} {a : κ × β} {es : List (κ × β)} (h : a ∈ insertEntry k v es) :
    a = (k, v) ∨ a ∈ es := by
  induction es with
  | nil => exact .inl (List.mem_singleton.mp h)
  | cons e es ih =>
    rw [insertEntry] at h
    split at h
    · exact List.mem_cons.mp h
    · split at h
      · exact (List.mem_cons.mp h).imp_right (List.mem_cons_of_mem e)
      · rcases List.mem_cons.mp h with heq | hmem
        · exact .inr (heq ▸ List.mem_cons_self)
        · exact (ih hmem).imp_right (List.mem_cons_of_mem e)

theorem insertEntry_sorted (k : κ) (v : β) {es : List (κ × β)} (h : es.Pairwise fun a b => a.1 < b.1) :
    (insertEntry k v es).Pairwise fun a b => a.1 < b.1 := by
  -- The new entry goes before the first larger key, or replaces the equal one.
  induction es with
  | nil => exact List.pairwise_singleton _ _
  | cons e es ih =>
    obtain ⟨hhead, htail⟩ := List.pairwise_cons.mp h
    rw [insertEntry]
    split
    · rename_i hlt
      refine List.pairwise_cons.mpr ⟨?_, h⟩
      intro a ha
      rcases List.mem_cons.mp ha with rfl | hmem
      · exact hlt
      · exact lt_trans hlt (hhead a hmem)
    · rename_i hle
      split
      · rename_i heq
        refine List.pairwise_cons.mpr ⟨?_, htail⟩
        intro a ha
        exact heq ▸ hhead a ha
      · rename_i hne
        refine List.pairwise_cons.mpr ⟨?_, ih htail⟩
        intro a ha
        rcases mem_insertEntry ha with rfl | hmem
        · exact lt_of_le_of_ne (not_lt.mp hle) hne
        · exact hhead a hmem

/-- `m[k] = v`. -/
def insert (m : KeyedMap κ β) (k : κ) (v : β) : KeyedMap κ β where
  entries := insertEntry k v m.entries
  sorted := insertEntry_sorted k v m.sorted

def erase (m : KeyedMap κ β) (k : κ) : KeyedMap κ β where
  entries := m.entries.filter fun e => e.1 ≠ k
  sorted := m.sorted.filter _

@[simp] theorem find_empty (k : κ) : ({} : KeyedMap κ β).find k = none := rfl

theorem findEntry_insertEntry (k k' : κ) (v : β) (es : List (κ × β)) :
    findEntry k' (insertEntry k v es) = if k = k' then some v else findEntry k' es := by
  induction es with
  | nil => rfl
  | cons e es ih =>
    rw [insertEntry]
    split
    · rfl
    · split
      · rename_i heq
        simp only [findEntry, heq]
        split <;> rfl
      · rename_i hne
        simp only [findEntry, ih]
        by_cases hk : k = k'
        · rw [if_pos hk, if_pos hk, if_neg (hk ▸ hne)]
        · rw [if_neg hk, if_neg hk]

theorem find_insert (m : KeyedMap κ β) (k k' : κ) (v : β) :
    (m.insert k v).find k' = if k = k' then some v else m.find k' :=
  findEntry_insertEntry k k' v m.entries

theorem find_erase (m : KeyedMap κ β) (k k' : κ) :
    (m.erase k).find k' = if k = k' then none else m.find k' := by
  show findEntry k' (m.entries.filter _) = if k = k' then none else findEntry k' m.entries
  generalize m.entries = es
  induction es with
  | nil => exact (ite_self none).symm
  | cons e es ih =>
    by_cases hek : e.1 = k
    · rw [List.filter_cons_of_neg (by simpa using hek), ih, findEntry]
      by_cases hk : k = k'
      · rw [if_pos hk, if_pos hk]
      · rw [if_neg hk, if_neg hk, if_neg (hek ▸ hk)]
    · rw [List.filter_cons_of_pos (by simpa using hek), findEntry, findEntry, ih]
      by_cases hk : k = k'
      · rw [if_pos hk, if_pos hk, if_neg (hk ▸ hek)]
      · rw [if_neg hk, if_neg hk]

theorem mem_of_findEntry {k : κ} {v : β} {es : List (κ × β)} (h : findEntry k es = some v) : (k, v) ∈ es := by
  induction es with
  | nil => exact absurd h (Option.some_ne_none v).symm
  | cons e es ih =>
    rw [findEntry] at h
    split at h
    · rename_i heq
      have hpair : (k, v) = e := Prod.ext heq.symm (Option.some.inj h).symm
      exact hpair ▸ List.mem_cons_self
    · exact List.mem_cons_of_mem e (ih h)

/-- A key has one entry at most. -/
theorem mem_entries (m : KeyedMap κ β) (k : κ) (v : β) : (k, v) ∈ m.entries ↔ m.find k = some v := by
  refine ⟨?_, mem_of_findEntry⟩
  have hsorted := m.sorted
  show (k, v) ∈ m.entries → findEntry k m.entries = some v
  generalize m.entries = es at hsorted ⊢
  induction es with
  | nil => exact fun h => absurd h List.not_mem_nil
  | cons e es ih =>
    obtain ⟨hhead, htail⟩ := List.pairwise_cons.mp hsorted
    intro h
    rw [findEntry]
    rcases List.mem_cons.mp h with rfl | hmem
    · exact if_pos rfl
    · rw [if_neg (ne_of_lt (hhead (k, v) hmem))]
      exact ih htail hmem

end KeyedMap

end Koncepcja
