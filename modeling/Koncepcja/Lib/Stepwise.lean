import Mathlib.Data.List.Basic

/-!
# Properties of Every Prefix of a Run

A property that each step keeps exactly under a condition holds after every part of a run exactly where
the condition is met at every step of it.

## Main results

- `forall_prefix_iff_within`, `forall_prefix_iff`: the exact condition for a property of all prefixes.
- `run_of_steps`, `run_of_allOk`: a property that every step keeps, or every step that meets a condition.
-/

namespace Stepwise

variable {σ α : Type*} {step : σ → α → σ} {Good Inv : σ → Prop} {Ok : σ → α → Prop}

/-- The condition is met at every step of a run. -/
def AllOk (step : σ → α → σ) (Ok : σ → α → Prop) : σ → List α → Prop
  | _, [] => True
  | s, x :: xs => Ok s x ∧ AllOk step Ok (step s x) xs

instance decidableAllOk [∀ s x, Decidable (Ok s x)] : ∀ s xs, Decidable (AllOk step Ok s xs)
  | _, [] => isTrue trivial
  | s, x :: xs => @instDecidableAnd _ _ inferInstance (decidableAllOk (step s x) xs)

theorem allOk_append {s : σ} {xs ys : List α} :
    AllOk step Ok s (xs ++ ys) ↔ AllOk step Ok s xs ∧ AllOk step Ok (xs.foldl step s) ys := by
  induction xs generalizing s with
  | nil => exact (and_iff_right trivial).symm
  | cons x xs ih =>
    rw [List.cons_append, AllOk, AllOk, ih, and_assoc]
    rfl

/-- What every step keeps holds after a run. -/
theorem run_of_steps (hstep : ∀ s x, Good s → Good (step s x)) {s : σ} (h : Good s) (xs : List α) :
    Good (xs.foldl step s) := by
  induction xs generalizing s with
  | nil => exact h
  | cons x xs ih => exact ih (hstep s x h)

/-- What the steps that are `Ok` keep holds after a run of them. -/
theorem run_of_allOk (hstep : ∀ s x, Good s → Ok s x → Good (step s x)) {s : σ} (h : Good s) {xs : List α}
    (hok : AllOk step Ok s xs) : Good (xs.foldl step s) := by
  induction xs generalizing s with
  | nil => exact h
  | cons x xs ih => exact ih (hstep s x h hok.1) hok.2

/-- Over the steps of a domain `Inv` is kept by those that are `Ok` and by no others: then `Inv` holds after each
    part of a run in the domain exactly where all its steps are `Ok`. -/
theorem forall_prefix_iff_within {Dom : σ → α → Prop} (hstep : ∀ s x, Inv s → Dom s x → (Inv (step s x) ↔ Ok s x))
    {s : σ} (hinv : Inv s) {xs : List α} (hdom : AllOk step Dom s xs) :
    (∀ ys, ys <+: xs → Inv (ys.foldl step s)) ↔ AllOk step Ok s xs := by
  induction xs generalizing s with
  | nil =>
    refine iff_of_true (fun ys hys => ?_) trivial
    rw [List.prefix_nil.1 hys]
    exact hinv
  | cons x xs ih =>
    constructor
    · intro hall
      have hnext : Inv (step s x) := hall [x] ((List.prefix_cons_inj x).2 List.nil_prefix)
      refine ⟨(hstep s x hinv hdom.1).1 hnext, (ih hnext hdom.2).1 fun ys hys => ?_⟩
      exact hall (x :: ys) ((List.prefix_cons_inj x).2 hys)
    · rintro ⟨hok, hrest⟩ ys hys
      have hnext := (hstep s x hinv hdom.1).2 hok
      cases ys with
      | nil => exact hinv
      | cons y ys =>
        obtain ⟨rfl, htail⟩ := List.cons_prefix_cons.1 hys
        exact (ih hnext hdom.2).2 hrest ys htail

/-- `Good` is kept by every step, and over it `Inv` by the steps that are `Ok` and by no others: then
    `Inv` holds after each part of a run exactly where all its steps are `Ok`. -/
theorem forall_prefix_iff (hgood : ∀ s x, Good s → Good (step s x))
    (hstep : ∀ s x, Good s → Inv s → (Inv (step s x) ↔ Ok s x)) {s : σ} (hs : Good s) (hinv : Inv s) (xs : List α) :
    (∀ ys, ys <+: xs → Inv (ys.foldl step s)) ↔ AllOk step Ok s xs := by
  have hdom : AllOk step (fun s _ => Good s) s xs := by
    clear hinv
    induction xs generalizing s with
    | nil => trivial
    | cons x xs ih => exact ⟨hs, ih (hgood s x hs)⟩
  exact forall_prefix_iff_within (fun s x hinv hs => hstep s x hs hinv) hinv hdom

end Stepwise
