import Mathlib.Data.List.TakeWhile
import Mathlib.Data.List.Perm.Basic
import Mathlib.Order.Lattice

/-!
# Agendas

Entries with a date are put in the order of their dates and handed out as time goes on: at each call
those that are due by then and have not been handed out before. One pass over the ordered list does it.

## Main results

- `inOrder_stable`: entries of one date stay in the order they came in.
- `handOut_getElem?`: an entry is handed out at the first call that is not before its date, and at no other.
-/

namespace Koncepcja.Agenda

variable {α κ : Type*} [LinearOrder κ] (date : α → κ)

/-! ## The order -/

def dueBy (a b : α) : Bool := decide (date a ≤ date b)

theorem dueBy_trans (a b c : α) (hab : dueBy date a b = true) (hbc : dueBy date b c = true) : dueBy date a c = true :=
  decide_eq_true ((of_decide_eq_true hab).trans (of_decide_eq_true hbc))

theorem dueBy_total (a b : α) : (dueBy date a b || dueBy date b a) = true := by
  rcases le_total (date a) (date b) with h | h
  · simp [dueBy, h]
  · simp [dueBy, h]

/-- The entries in the order of their dates, equal dates in the order they came in. -/
def inOrder (entries : List α) : List α := entries.mergeSort (dueBy date)

/-- A list is in order: what comes later is not due before. -/
def Ordered (entries : List α) : Prop := entries.Pairwise fun a b => date a ≤ date b

theorem inOrder_perm (entries : List α) : (inOrder date entries).Perm entries := List.mergeSort_perm entries _

theorem inOrder_ordered (entries : List α) : Ordered date (inOrder date entries) := by
  have hsorted := List.pairwise_mergeSort (dueBy_trans date) (dueBy_total date) entries
  exact hsorted.imp fun h => of_decide_eq_true h

/-- The entries of one date are those they were, in the order they were. -/
theorem inOrder_stable (entries : List α) (k : κ) :
    (inOrder date entries).filter (date · = k) = entries.filter (date · = k) := by
  have hperm := (inOrder_perm date entries).filter (date · = k)
  have hsame : (entries.filter (date · = k)).Pairwise fun a b => dueBy date a b = true := by
    rw [List.pairwise_filter]
    refine List.pairwise_of_forall fun a b ha hb => decide_eq_true ?_
    rw [of_decide_eq_true ha, of_decide_eq_true hb]
  have hsub : (entries.filter (date · = k)).Sublist (inOrder date entries) :=
    List.sublist_mergeSort (dueBy_trans date) (dueBy_total date) hsame List.filter_sublist
  have hsub' := hsub.filter (date · = k)
  rw [List.filter_filter] at hsub'
  simp only [Bool.and_self] at hsub'
  exact (hsub'.eq_of_length hperm.length_eq.symm).symm

/-! ## Handing out -/

/-- What each call hands out of an ordered list. -/
def handOut : List α → List κ → List (List α)
  | _, [] => []
  | rest, now :: later =>
    rest.takeWhile (date · ≤ now) :: handOut (rest.dropWhile (date · ≤ now)) later

variable {date}

theorem Ordered.takeWhile_eq_filter {rest : List α} (h : Ordered date rest) (now : κ) :
    rest.takeWhile (date · ≤ now) = rest.filter (date · ≤ now) := by
  induction rest with
  | nil => rfl
  | cons a rest ih =>
    obtain ⟨ha, hrest⟩ := List.pairwise_cons.mp h
    by_cases hdue : date a ≤ now
    · rw [List.takeWhile_cons_of_pos (by simpa using hdue), List.filter_cons_of_pos (by simpa using hdue), ih hrest]
    · rw [List.takeWhile_cons_of_neg (by simpa using hdue), List.filter_cons_of_neg (by simpa using hdue)]
      refine (List.filter_eq_nil_iff.mpr fun b hb hdue' => hdue ?_).symm
      exact (ha b hb).trans (of_decide_eq_true hdue')

theorem Ordered.dropWhile_eq_filter {rest : List α} (h : Ordered date rest) (now : κ) :
    rest.dropWhile (date · ≤ now) = rest.filter (now < date ·) := by
  induction rest with
  | nil => rfl
  | cons a rest ih =>
    obtain ⟨ha, hrest⟩ := List.pairwise_cons.mp h
    by_cases hdue : date a ≤ now
    · rw [List.dropWhile_cons_of_pos (by simpa using hdue), List.filter_cons_of_neg (by simpa using hdue), ih hrest]
    · rw [List.dropWhile_cons_of_neg (by simpa using hdue)]
      refine (List.filter_eq_self.mpr fun b hb => decide_eq_true ?_).symm
      rcases List.mem_cons.mp hb with rfl | hb
      · exact not_le.mp hdue
      · exact (not_le.mp hdue).trans_le (ha b hb)

/-- Each call hands out the entries it is the first for, and these only. -/
theorem Ordered.handOut_getElem? {rest : List α} (h : Ordered date rest) (calls : List κ) (i : Nat) :
    (handOut date rest calls)[i]? = calls[i]?.map fun now =>
      rest.filter fun a => date a ≤ now ∧ ∀ before ∈ calls.take i, before < date a := by
  induction calls generalizing rest i with
  | nil => rfl
  | cons now later ih =>
    rw [handOut]
    cases i with
    | zero =>
      rw [List.getElem?_cons_zero, List.getElem?_cons_zero, h.takeWhile_eq_filter, Option.map_some]
      simp
    | succ i =>
      have hrest : Ordered date (rest.dropWhile (date · ≤ now)) := h.sublist (List.dropWhile_sublist _)
      rw [List.getElem?_cons_succ, List.getElem?_cons_succ, ih hrest, h.dropWhile_eq_filter]
      refine congrArg (Option.map · later[i]?) (funext fun t => ?_)
      rw [List.filter_filter]
      refine List.filter_congr fun a _ => ?_
      simp only [List.take_succ_cons, List.forall_mem_cons, ← Bool.decide_and]
      refine decide_eq_decide.mpr ?_
      constructor
      · exact fun ⟨⟨ht, hbefore⟩, hnow⟩ => ⟨ht, hnow, hbefore⟩
      · exact fun ⟨ht, hnow, hbefore⟩ => ⟨⟨ht, hbefore⟩, hnow⟩

end Koncepcja.Agenda
