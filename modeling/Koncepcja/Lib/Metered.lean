import Koncepcja.Lib.Checked

/-!
# Counting the Steps of a Program

A program that may fail and counts its steps as it goes. It costs at most so many when it ends with a known result, from
every count, and no further than that above it; it is doomed when it fails from every count.

## Main results

- `Costs.bind`, `Doomed.bind`, `Costs.doomed`: one program after the other.
- `Doomed.not_ok`: it has no result.
-/

namespace Koncepcja.Metered

open Koncepcja.Checked

variable {ε α β : Type}

/-- A program over its count of steps. -/
abbrev Counted (ε α : Type) := Program ε Nat α

/-- `n` steps. -/
def ticks (n : Nat) : Counted ε PUnit := modify (· + n)

/-- One step. -/
def tick : Counted ε PUnit := ticks 1

/-- The program ends with `a`, in at most `n` steps. -/
def Costs (m : Counted ε α) (n : Nat) (a : α) : Prop := ∀ count, ∃ k ≤ n, m count = .ok (a, count + k)

/-- The program fails. -/
def Doomed (m : Counted ε α) : Prop := ∀ count, ∃ e, m count = .error e

variable {m : Counted ε α} {f : α → Counted ε β} {n k : Nat} {a : α} {b : β}

theorem Costs.ret (a : α) : Costs (pure a : Counted ε α) 0 a := fun _ => ⟨0, Nat.le_refl 0, rfl⟩

theorem Costs.ticks (n : Nat) : Costs (ticks n : Counted ε PUnit) n ⟨⟩ := fun _ => ⟨n, Nat.le_refl n, rfl⟩

theorem Costs.tick : Costs (tick : Counted ε PUnit) 1 ⟨⟩ := Costs.ticks 1

theorem Costs.mono (hm : Costs m n a) (hle : n ≤ k) : Costs m k a := by
  intro count
  obtain ⟨j, hj, hrun⟩ := hm count
  exact ⟨j, Nat.le_trans hj hle, hrun⟩

/-- The steps of the one and of the other. -/
theorem Costs.bind (hm : Costs m n a) (hf : Costs (f a) k b) : Costs (m >>= f) (n + k) b := by
  intro count
  obtain ⟨i, hi, hrun⟩ := hm count
  obtain ⟨j, hj, hrun'⟩ := hf (count + i)
  refine ⟨i + j, Nat.add_le_add hi hj, ?_⟩
  rw [run_bind hrun, hrun', Nat.add_assoc]

theorem Costs.map {g : α → β} (hm : Costs m n a) : Costs (do let x ← m; return g x) n (g a) :=
  hm.bind (f := fun x => pure (g x)) (Costs.ret (g a))

theorem Costs.check {c : Prop} [Decidable c] {fault : ε} (hc : c) (hm : Costs m n a) : Costs (check c fault m) n a := by
  intro count
  rw [run_check hc]
  exact hm count

theorem Costs.ite_pos {c : Prop} [Decidable c] {m' : Counted ε α} (hc : c) (hm : Costs m n a) :
    Costs (if c then m else m') n a := by
  rw [if_pos hc]
  exact hm

theorem Costs.ite_neg {c : Prop} [Decidable c] {m' : Counted ε α} (hc : ¬c) (hm : Costs m n a) :
    Costs (if c then m' else m) n a := by
  rw [if_neg hc]
  exact hm

theorem Doomed.ite_neg {c : Prop} [Decidable c] {m' : Counted ε α} (hc : ¬c) (hm : Doomed m) :
    Doomed (if c then m' else m) := by
  rw [if_neg hc]
  exact hm

theorem Doomed.bind (hm : Doomed m) : Doomed (m >>= f) := by
  intro count
  obtain ⟨e, hrun⟩ := hm count
  exact ⟨e, run_bind_error hrun⟩

/-- It fails after what came to an end. -/
theorem Costs.doomed (hm : Costs m n a) (hf : Doomed (f a)) : Doomed (m >>= f) := by
  intro count
  obtain ⟨i, -, hrun⟩ := hm count
  obtain ⟨e, hrun'⟩ := hf (count + i)
  refine ⟨e, ?_⟩
  rw [run_bind hrun, hrun']

theorem Doomed.check {c : Prop} [Decidable c] {fault : ε} (hc : ¬c) : Doomed (check c fault m) :=
  fun _ => ⟨fault, run_check_error hc⟩

theorem Doomed.not_ok (hm : Doomed m) {count : Nat} {r : α × Nat} : m count ≠ .ok r := by
  intro hrun
  obtain ⟨e, herror⟩ := hm count
  rw [herror] at hrun
  cases hrun

end Koncepcja.Metered
