import Mathlib.Data.List.Basic
import Mathlib.Data.Nat.ModEq
import Mathlib.Logic.Function.Basic

/-!
# A Ring Between One Writer and One Reader

A ring of `n` cells with the position of the next write and of the oldest entry that is not released. One
cell stays empty: the ring is full where the next write would reach the oldest entry.

The ring is compared with the log of everything that was ever written to it.

## Main results

- `Holds.full_iff`: what the test for a full ring says.
- `Holds.store`, `Holds.publish`: a write is outside what is held, until it is published.
- `Holds.read`, `Holds.release`: the reader finds the log, and what it releases may be overwritten.
-/

namespace SpscRing

variable {α : Type*} {n head tail released k j : Nat} {cells : Nat → α} {log : List α} {x : α}

theorem eq_of_mod_eq (hle : k ≤ j) (hlt : j - k < n) (h : k % n = j % n) : k = j := by
  have hdvd : n ∣ j - k := (Nat.modEq_iff_dvd' hle).1 h
  have hzero := Nat.eq_zero_of_dvd_of_lt hdvd hlt
  omega

/-- The ring holds what was logged and not released. -/
structure Holds (n : Nat) (cells : Nat → α) (head tail : Nat) (log : List α) (released : Nat) : Prop where
  head : head = log.length % n
  tail : tail = released % n
  le : released ≤ log.length
  room : log.length - released < n
  cells : ∀ k, released ≤ k → ∀ h : k < log.length, cells (k % n) = log[k]

theorem holds_nil (hn : 0 < n) : Holds n cells 0 0 ([] : List α) 0 where
  head := (Nat.zero_mod n).symm
  tail := (Nat.zero_mod n).symm
  le := Nat.le_refl 0
  room := hn
  cells _ _ h := absurd h (Nat.not_lt_zero _)

theorem next_head (h : Holds n cells head tail log released) : (head + 1) % n = (log.length + 1) % n := by
  rw [h.head, Nat.mod_add_mod]

/-- The ring is full where a round but one is held. -/
theorem Holds.full_iff (h : Holds n cells head tail log released) :
    (head + 1) % n = tail ↔ log.length + 1 - released = n := by
  have hroom := h.room
  have hle := h.le
  rw [next_head h, h.tail]
  constructor
  · intro heq
    by_contra hne
    have hsame := eq_of_mod_eq (n := n) (k := released) (j := log.length + 1) (by omega) (by omega) heq.symm
    omega
  · intro heq
    have hlen : log.length + 1 = released + n := by omega
    rw [hlen, Nat.add_mod_right]

/-- The next write is to a cell that holds nothing. -/
theorem Holds.store (h : Holds n cells head tail log released) :
    Holds n (Function.update cells head x) head tail log released where
  head := h.head
  tail := h.tail
  le := h.le
  room := h.room
  cells k hk hlt := by
    have hroom := h.room
    have hne : k % n ≠ head := by
      intro heq
      rw [h.head] at heq
      have hsame := eq_of_mod_eq (n := n) (Nat.le_of_lt hlt) (by omega) heq
      omega
    rw [Function.update_of_ne hne]
    exact h.cells k hk hlt

/-- A stored entry joins the log, if the ring was not full. -/
theorem Holds.publish (h : Holds n cells head tail log released) (hroom : log.length + 1 - released < n)
    (hx : cells head = x) : Holds n cells ((head + 1) % n) tail (log ++ [x]) released where
  head := by rw [next_head h, List.length_append, List.length_singleton]
  tail := h.tail
  le := by
    rw [List.length_append]
    exact Nat.le_add_right_of_le h.le
  room := by
    rw [List.length_append, List.length_singleton]
    exact hroom
  cells k hk hlt := by
    by_cases hold : k < log.length
    · rw [List.getElem_append_left hold]
      exact h.cells k hk hold
    · rw [List.length_append, List.length_singleton] at hlt
      have hlast : k = log.length := by omega
      subst hlast
      rw [List.getElem_concat_length rfl, ← h.head]
      exact hx

/-- What is held is what was logged. -/
theorem Holds.read (h : Holds n cells head tail log released) (hk : released ≤ k) (hlt : k < log.length) :
    cells (k % n) = log[k] := h.cells k hk hlt

/-- The entries ahead of a position are released. -/
theorem Holds.release (h : Holds n cells head tail log released) (hk : released ≤ k) (hle : k ≤ log.length) :
    Holds n cells head (k % n) log k where
  head := h.head
  tail := rfl
  le := hle
  room := by
    have hroom := h.room
    omega
  cells i hi hlt := h.cells i (Nat.le_trans hk hi) hlt

end SpscRing
