import Mathlib.Data.List.Basic

/-!
# Tables with Free Slots

A table is a list in which some slots are free. New elements go into the free slots one at a time,
the first slot first; what was in use stays where it was.

## Main results

- `fillFree_cons`: filling the table is putting the elements in one after another.
- `filter_fillFree_of_forall`: the new elements come out of the table in order.
- `filter_fillFree_of_not`: a question that only the old elements answer has its old answer.
- `filter_fillFree_perm`: the table in use is the old one and the new elements.
-/

namespace Koncepcja.FreeSlots

variable {α : Type*} {free : α → Bool}

/-- Put the elements of the second list into the free slots of the first. -/
def fillFree (free : α → Bool) : List α → List α → List α
  | [], _ => []
  | slot :: slots, news =>
    match news with
    | [] => slot :: slots
    | new :: news => if free slot then new :: fillFree free slots news else slot :: fillFree free slots (new :: news)

@[simp] theorem fillFree_nil (slots : List α) : fillFree free slots [] = slots := by
  cases slots <;> rfl

theorem fillFree_of_free {slot : α} (h : free slot = true) (slots : List α) (new : α) (news : List α) :
    fillFree free (slot :: slots) (new :: news) = new :: fillFree free slots news := by
  simp [fillFree, h]

theorem fillFree_of_used {slot : α} (h : free slot = false) (slots news : List α) :
    fillFree free (slot :: slots) news = slot :: fillFree free slots news := by
  cases news with
  | nil => simp
  | cons new news => simp [fillFree, h]

@[simp] theorem fillFree_length (slots news : List α) : (fillFree free slots news).length = slots.length := by
  induction slots generalizing news with
  | nil => rfl
  | cons slot slots ih =>
    cases news with
    | nil => rfl
    | cons new news =>
      cases h : free slot with
      | true => rw [fillFree_of_free h, List.length_cons, ih, List.length_cons]
      | false => rw [fillFree_of_used h, List.length_cons, ih, List.length_cons]

/-- Filling a table is putting the first element into the first free slot, and going on with the rest. -/
theorem fillFree_cons {slots : List α} {i : Nat} {new : α} (hi : slots.findIdx? free = some i)
    (hnew : free new = false) (news : List α) :
    fillFree free slots (new :: news) = fillFree free (slots.set i new) news := by
  induction slots generalizing i with
  | nil => cases hi
  | cons slot slots ih =>
    rw [List.findIdx?_cons] at hi
    cases h : free slot with
    | true =>
      -- the first slot takes the element, and is in use from here on
      rw [h] at hi
      cases hi
      rw [fillFree_of_free h, List.set_cons_zero, fillFree_of_used hnew]
    | false =>
      rw [h] at hi
      obtain ⟨j, hj, rfl⟩ := Option.map_eq_some_iff.mp hi
      rw [fillFree_of_used h, List.set_cons_succ, fillFree_of_used h, ih hj]

theorem findIdx?_of_countP_pos {slots : List α} (h : 0 < slots.countP free) :
    ∃ i, slots.findIdx? free = some i := by
  obtain ⟨slot, hmem, hfree⟩ := List.countP_pos_iff.mp h
  cases hi : slots.findIdx? free with
  | some i => exact ⟨i, rfl⟩
  | none => exact absurd hfree (by simp [List.findIdx?_eq_none_iff.mp hi slot hmem])

theorem countP_set_findIdx? {slots : List α} {i : Nat} (new : α) (hi : slots.findIdx? free = some i)
    (hnew : free new = false) : (slots.set i new).countP free + 1 = slots.countP free := by
  induction slots generalizing i with
  | nil => cases hi
  | cons slot slots ih =>
    rw [List.findIdx?_cons] at hi
    cases h : free slot with
    | true =>
      rw [h] at hi
      cases hi
      simp [h, hnew]
    | false =>
      rw [h] at hi
      obtain ⟨j, hj, rfl⟩ := Option.map_eq_some_iff.mp hi
      rw [List.set_cons_succ, List.countP_cons_of_neg (by simp [h]), List.countP_cons_of_neg (by simp [h]), ih hj]

/-! ## What a filled table holds -/

theorem mem_fillFree {slots news : List α} {a : α} (h : a ∈ fillFree free slots news) : a ∈ slots ∨ a ∈ news := by
  induction slots generalizing news with
  | nil => exact absurd h (by simp [fillFree])
  | cons slot slots ih =>
    cases news with
    | nil => exact Or.inl (by rwa [fillFree_nil] at h)
    | cons new news =>
      cases hfree : free slot with
      | true =>
        rw [fillFree_of_free hfree, List.mem_cons] at h
        rcases h with rfl | h
        · exact Or.inr List.mem_cons_self
        · exact (ih h).imp (List.mem_cons_of_mem _) (List.mem_cons_of_mem _)
      | false =>
        rw [fillFree_of_used hfree, List.mem_cons] at h
        rcases h with rfl | h
        · exact Or.inl List.mem_cons_self
        · exact (ih h).imp (List.mem_cons_of_mem _) id

variable {p : α → Bool}

/-- A question that neither the free slots nor the new elements answer has its old answer. -/
theorem filter_fillFree_of_not {slots news : List α} (hslots : ∀ s ∈ slots, free s = true → p s = false)
    (hnews : ∀ n ∈ news, p n = false) : (fillFree free slots news).filter p = slots.filter p := by
  induction slots generalizing news with
  | nil => rfl
  | cons slot slots ih =>
    have hrest : ∀ s ∈ slots, free s = true → p s = false := fun s hs => hslots s (List.mem_cons_of_mem _ hs)
    cases news with
    | nil => rw [fillFree_nil]
    | cons new news =>
      cases h : free slot with
      | true =>
        rw [fillFree_of_free h, List.filter_cons_of_neg (by simp [hnews new List.mem_cons_self]),
          List.filter_cons_of_neg (by simp [hslots slot List.mem_cons_self h]),
          ih hrest fun n hn => hnews n (List.mem_cons_of_mem _ hn)]
      | false => rw [fillFree_of_used h, List.filter_cons, List.filter_cons, ih hrest hnews]

/-- What only the new elements answer to comes out in their order. -/
theorem filter_fillFree_of_forall {slots news : List α} (hslots : ∀ s ∈ slots, p s = false)
    (hnews : ∀ n ∈ news, p n = true) (hroom : news.length ≤ slots.countP free) :
    (fillFree free slots news).filter p = news := by
  induction slots generalizing news with
  | nil =>
    rw [List.countP_nil, Nat.le_zero, List.length_eq_zero_iff] at hroom
    rw [hroom, fillFree_nil, List.filter_nil]
  | cons slot slots ih =>
    have hrest : ∀ s ∈ slots, p s = false := fun s hs => hslots s (List.mem_cons_of_mem _ hs)
    have hslot := hslots slot List.mem_cons_self
    cases news with
    | nil => rw [fillFree_nil, List.filter_cons_of_neg (by simp [hslot]), List.filter_eq_nil_iff]; simpa using hrest
    | cons new news =>
      cases h : free slot with
      | true =>
        rw [List.countP_cons_of_pos h, List.length_cons] at hroom
        rw [fillFree_of_free h, List.filter_cons_of_pos (hnews new List.mem_cons_self),
          ih hrest (fun n hn => hnews n (List.mem_cons_of_mem _ hn)) (Nat.le_of_succ_le_succ hroom)]
      | false =>
        rw [List.countP_cons_of_neg (by simp [h])] at hroom
        rw [fillFree_of_used h, List.filter_cons_of_neg (by simp [hslot]), ih hrest hnews hroom]

/-- The part of the table in use is the old one with the new elements. -/
theorem filter_fillFree_perm {slots news : List α} (hslots : ∀ s ∈ slots, free s = true → p s = false)
    (hnews : ∀ n ∈ news, p n = true) (hroom : news.length ≤ slots.countP free) :
    ((fillFree free slots news).filter p).Perm (news ++ slots.filter p) := by
  -- Along the slots: a free one takes the next value, a used one stays.
  induction slots generalizing news with
  | nil =>
    rw [List.countP_nil, Nat.le_zero, List.length_eq_zero_iff] at hroom
    rw [hroom, fillFree_nil]
    exact List.Perm.refl _
  | cons slot slots ih =>
    have hrest : ∀ s ∈ slots, free s = true → p s = false := fun s hs => hslots s (List.mem_cons_of_mem _ hs)
    cases news with
    | nil => rw [fillFree_nil]; exact List.Perm.refl _
    | cons new news =>
      have hnews' : ∀ n ∈ news, p n = true := fun n hn => hnews n (List.mem_cons_of_mem _ hn)
      cases h : free slot with
      | true =>
        rw [List.countP_cons_of_pos h, List.length_cons] at hroom
        rw [fillFree_of_free h, List.filter_cons_of_pos (hnews new List.mem_cons_self),
          List.filter_cons_of_neg (by simp [hslots slot List.mem_cons_self h]), List.cons_append]
        exact (ih hrest hnews' (Nat.le_of_succ_le_succ hroom)).cons new
      | false =>
        rw [List.countP_cons_of_neg (by simp [h])] at hroom
        rw [fillFree_of_used h]
        cases hp : p slot with
        | true =>
          rw [List.filter_cons_of_pos hp, List.filter_cons_of_pos hp]
          -- A kept slot stands before the values that come later; as a permutation it may move behind them.
          exact ((ih hrest hnews hroom).cons slot).trans List.perm_middle.symm
        | false =>
          rw [List.filter_cons_of_neg (by simp [hp]), List.filter_cons_of_neg (by simp [hp])]
          exact ih hrest hnews hroom

end Koncepcja.FreeSlots
