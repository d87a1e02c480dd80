import Mathlib.Logic.Function.Iterate

/-!
# Runs up to an Observable Change

A step function is iterated until an observable of the state changes. Runs over which it has not
changed yet compose, and the first change is at one step only.

## Main results

- `Reaches.trans`: composition.
-/

namespace Koncepcja.Runs

variable {α β : Type*} {f : α → α} {g : α → β} {n m : Nat} {x y z : α}

/-- `f` takes `x` to `y` in `n` steps, and `g` keeps its value before the last of them. -/
structure Reaches (f : α → α) (g : α → β) (n : Nat) (x y : α) : Prop where
  iterate : f^[n] x = y
  quiet : ∀ j < n, g (f^[j] x) = g x

theorem Reaches.refl (x : α) : Reaches f g 0 x x :=
  ⟨rfl, fun _ h => absurd h (Nat.not_lt_zero _)⟩

theorem Reaches.single (x : α) : Reaches f g 1 x (f x) :=
  ⟨rfl, fun j h => by
    obtain rfl : j = 0 := by omega
    rfl⟩

/-- A run goes on as long as nothing has changed where the first part ends. -/
theorem Reaches.trans (h : Reaches f g n x y) (hg : g y = g x) (h' : Reaches f g m y z) :
    Reaches f g (n + m) x z where
  iterate := by rw [Nat.add_comm, Function.iterate_add_apply, h.iterate, h'.iterate]
  quiet j hj := by
    rcases Nat.lt_or_ge j n with hlt | hge
    · exact h.quiet j hlt
    · obtain ⟨k, rfl⟩ := Nat.exists_eq_add_of_le hge
      rw [Nat.add_comm n k, Function.iterate_add_apply, h.iterate, h'.quiet k (by omega), hg]

theorem Reaches.tail (h : Reaches f g n x y) (hg : g y = g x) :
    Reaches f g (n + 1) x (f y) :=
  h.trans hg (.single y)

theorem Reaches.congr_left (h : Reaches f g (n + 1) x y) (hf : f z = f x) (hg : g z = g x) :
    Reaches f g (n + 1) z y where
  iterate := by
    have := h.iterate
    rw [Function.iterate_succ_apply] at this ⊢
    rw [hf, this]
  quiet j hj := by
    cases j with
    | zero => rfl
    | succ j =>
      have := h.quiet _ hj
      rw [Function.iterate_succ_apply] at this ⊢
      rw [hf, this, hg]

end Koncepcja.Runs
