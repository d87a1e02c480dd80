import Mathlib.Data.Nat.Basic

/-!
# Counted Loops

A loop over the numbers from one on, whose body changes a state. The body may return from the loop with a result, and
it may fail.

## Main results

- `loop_add`: a loop in two parts.
- `loop_nested`: a loop in a loop is one loop.
- `loop_invariant`, `loop_invariant_of_first`: what a body preserves.
-/

namespace Koncepcja.CountedLoop

variable {φ ε σ : Type}

/-- What a step of a loop comes to: a failure, or a state and the result that it returns with, if it does. -/
abbrev Outcome (φ ε σ : Type) := Except φ (Option ε × σ)

/-- The steps from `i` on, `n` of them. -/
def loop (body : Nat → σ → Outcome φ ε σ) : Nat → Nat → σ → Outcome φ ε σ
  | 0, _, s => .ok (none, s)
  | n + 1, i, s =>
    match body i s with
    | .ok (none, s) => loop body n (i + 1) s
    | outcome => outcome

variable {body body' : Nat → σ → Outcome φ ε σ} {n i : Nat} {s s' : σ}

@[simp] theorem loop_zero : loop body 0 i s = .ok (none, s) := rfl

theorem loop_succ_next (h : body i s = .ok (none, s')) : loop body (n + 1) i s = loop body n (i + 1) s' := by
  rw [loop, h]

theorem loop_succ_return {e : ε} (h : body i s = .ok (some e, s')) : loop body (n + 1) i s = .ok (some e, s') := by
  rw [loop, h]

theorem loop_succ_error {f : φ} (h : body i s = .error f) : loop body (n + 1) i s = .error f := by
  rw [loop, h]

/-- A loop is its first part and then, where that has not returned, its second. -/
theorem loop_add (body : Nat → σ → Outcome φ ε σ) (n m i : Nat) (s : σ) :
    loop body (n + m) i s =
      match loop body n i s with
      | .ok (none, s) => loop body m (i + n) s
      | outcome => outcome := by
  induction n generalizing i s with
  | zero => rw [Nat.zero_add, Nat.add_zero, loop_zero]
  | succ n ih =>
    rw [show n + 1 + m = n + m + 1 by omega]
    match h : body i s with
    | .error f => rw [loop_succ_error h, loop_succ_error h]
    | .ok (some e, s') => rw [loop_succ_return h, loop_succ_return h]
    | .ok (none, s') => rw [loop_succ_next h, loop_succ_next h, ih, show i + 1 + n = i + (n + 1) by omega]

theorem loop_congr {j : Nat} (h : ∀ k < n, ∀ s, body (i + k) s = body' (j + k) s) (s : σ) :
    loop body n i s = loop body' n j s := by
  induction n generalizing i j s with
  | zero => rfl
  | succ n ih =>
    have hfirst := h 0 (Nat.succ_pos n) s
    rw [Nat.add_zero, Nat.add_zero] at hfirst
    have hrest (s : σ) : loop body n (i + 1) s = loop body' n (j + 1) s := ih (fun k hk s => by
      have hnext := h (k + 1) (Nat.succ_lt_succ hk) s
      rwa [show i + (k + 1) = i + 1 + k by omega, show j + (k + 1) = j + 1 + k by omega] at hnext) s
    rw [loop, loop, hfirst]
    simp only [hrest]

/-- A loop of `n` times `m` steps in two levels is one loop. -/
theorem loop_nested (body : Nat → Nat → σ → Outcome φ ε σ) {m : Nat} (hm : 0 < m) (n i : Nat) (s : σ) :
    loop (fun t => loop (body t) m 0) n i s = loop (fun k => body (k / m) (k % m)) (n * m) (i * m) s := by
  induction n generalizing i s with
  | zero => rw [Nat.zero_mul, loop_zero, loop_zero]
  | succ n ih =>
    have hinner : loop (body i) m 0 s = loop (fun k => body (k / m) (k % m)) m (i * m) s :=
      loop_congr (fun k hk s => by
        rw [Nat.zero_add, Nat.mul_comm i m, Nat.mul_add_div hm, Nat.mul_add_mod, Nat.div_eq_of_lt hk,
          Nat.mod_eq_of_lt hk, Nat.add_zero]) s
    rw [show (n + 1) * m = m + n * m by rw [Nat.succ_mul, Nat.add_comm],
      loop_add (fun k => body (k / m) (k % m)) m (n * m), ← hinner]
    rw [loop]
    match loop (body i) m 0 s with
    | .error f => rfl
    | .ok (some e, s') => rfl
    | .ok (none, s') =>
      dsimp only
      rw [ih, show (i + 1) * m = i * m + m from Nat.succ_mul i m]

/-- What every step preserves, the loop preserves. -/
theorem loop_invariant {P : σ → Prop} (h : ∀ i s e s', P s → body i s = .ok (e, s') → P s') {e : Option ε} (hs : P s)
    (hloop : loop body n i s = .ok (e, s')) : P s' := by
  induction n generalizing i s with
  | zero =>
    cases hloop
    exact hs
  | succ n ih =>
    match hbody : body i s with
    | .error f => rw [loop_succ_error hbody] at hloop; cases hloop
    | .ok (some e', s'') =>
      rw [loop_succ_return hbody] at hloop
      cases hloop
      exact h i s _ _ hs hbody
    | .ok (none, s'') =>
      rw [loop_succ_next hbody] at hloop
      exact ih (h i s _ _ hs hbody) hloop

/-- The same, from the first step on. -/
theorem loop_invariant_of_first {P : σ → Prop} (h : ∀ i s e s', P s → body i s = .ok (e, s') → P s')
    (hfirst : ∀ e s', body i s = .ok (e, s') → P s') {e : Option ε} (hloop : loop body (n + 1) i s = .ok (e, s')) :
    P s' := by
  match hbody : body i s with
  | .error f => rw [loop_succ_error hbody] at hloop; cases hloop
  | .ok (some e', s'') =>
    rw [loop_succ_return hbody] at hloop
    cases hloop
    exact hfirst _ _ hbody
  | .ok (none, s'') =>
    rw [loop_succ_next hbody] at hloop
    exact loop_invariant h (hfirst _ _ hbody) hloop

end Koncepcja.CountedLoop
