import Koncepcja.Lib.Bits
import Mathlib.Data.List.Basic
import Mathlib.Tactic.Common

/-!
# Modified Frequency Modulation

Data bits become (clock, data) cell pairs, the clock cell set only between two zero data bits. A
sync mark breaks that rule on purpose: it is a word with one clock missing, so it cannot occur in
encoded data at any alignment.

## Main results

- `hunt_of_clockKept`: a register hunting for the sync mark never fires on a stream that misses no clock.
- `hunt_gap_sync`: behind any encoded gap that ends in a run of zero bytes, the hunt stops exactly at
  the end of the sync mark.
-/

namespace Koncepcja.Mfm

open Koncepcja.Bits

/-! ## Cells of a bit sequence -/

/-- The cell pairs of a data bit sequence after the data bit `prev`. -/
def expandBits : Bool → List Bool → List Bool
  | _, [] => []
  | prev, d :: ds => (!prev && !d) :: d :: expandBits d ds

/-- The data bit in force after a sequence. -/
def lastBit : Bool → List Bool → Bool
  | prev, [] => prev
  | _, d :: ds => lastBit d ds

@[simp] theorem expandBits_length (prev : Bool) (ds : List Bool) :
    (expandBits prev ds).length = 2 * ds.length := by
  induction ds generalizing prev with
  | nil => rfl
  | cons d ds ih => simp [expandBits, ih, Nat.mul_add]

theorem lastBit_append (prev : Bool) (a b : List Bool) :
    lastBit prev (a ++ b) = lastBit (lastBit prev a) b := by
  induction a generalizing prev with
  | nil => rfl
  | cons d a ih => exact ih d

theorem expandBits_append (prev : Bool) (a b : List Bool) :
    expandBits prev (a ++ b) = expandBits prev a ++ expandBits (lastBit prev a) b := by
  induction a generalizing prev with
  | nil => rfl
  | cons d a ih => simp [expandBits, lastBit, ih]

theorem expandBits_data (prev : Bool) (ds : List Bool) (k : Nat) :
    (expandBits prev ds)[2 * k + 1]? = ds[k]? := by
  induction ds generalizing prev k with
  | nil => simp [expandBits]
  | cons d ds ih =>
    cases k with
    | zero => simp [expandBits]
    | succ k =>
      have hidx : 2 * (k + 1) + 1 = (2 * k + 1) + 1 + 1 := by omega
      simp only [expandBits, hidx, List.getElem?_cons_succ, ih]

theorem expandBits_clock (prev : Bool) (ds : List Bool) (k : Nat) (a b : Bool)
    (ha : ds[k]? = some a) (hb : ds[k + 1]? = some b) :
    (expandBits prev ds)[2 * k + 2]? = some (!a && !b) := by
  induction ds generalizing prev k with
  | nil => simp at ha
  | cons d ds ih =>
    cases k with
    | zero =>
      cases ds with
      | nil => simp at hb
      | cons e ds =>
        simp only [List.getElem?_cons_zero, List.getElem?_cons_succ, Option.some.injEq,
          Nat.zero_add] at ha hb
        subst ha hb
        simp [expandBits]
    | succ k =>
      have hidx : 2 * (k + 1) + 2 = (2 * k + 2) + 1 + 1 := by omega
      simp only [List.getElem?_cons_succ] at ha hb
      simp only [expandBits, hidx, List.getElem?_cons_succ]
      exact ih d k ha hb

/-! ## The missing clock -/

/-- No clock is missing: a clock cell between two zero data bits is set. -/
def ClockKept (cells : List Bool) : Prop :=
  ∀ k, cells[2 * k + 1]? = some false → cells[2 * k + 3]? = some false →
    cells[2 * k + 2]? ≠ some false

theorem expandBits_clockKept (prev : Bool) (ds : List Bool) : ClockKept (expandBits prev ds) := by
  intro k ha hb
  rw [expandBits_data] at ha
  have hidx : 2 * k + 3 = 2 * (k + 1) + 1 := by omega
  rw [hidx, expandBits_data] at hb
  rw [expandBits_clock prev ds k false false ha hb]
  simp

/-- The sync mark: the cells of 0xA1 with the clock between data bits 3 and 2 missing. -/
def syncWord : UInt16 := 0x4489

/-- Slide the register over a stream; the number of cells up to and including the first sync mark. -/
def hunt : UInt16 → List Bool → Option Nat
  | _, [] => none
  | sr, b :: l =>
    if shiftIn sr b = syncWord then some 1 else (hunt (shiftIn sr b) l).map (· + 1)

/-- No prefix of `cells` completes a sync mark in a register that starts at `sr`. -/
def Quiet (sr : UInt16) (cells : List Bool) : Prop :=
  ∀ m, m < cells.length → (cells.take (m + 1)).foldl shiftIn sr ≠ syncWord

theorem quiet_cons {sr : UInt16} {b : Bool} {l : List Bool} (h : Quiet sr (b :: l)) :
    shiftIn sr b ≠ syncWord ∧ Quiet (shiftIn sr b) l := by
  constructor
  · simpa using h 0 (by simp)
  · intro m hm
    simpa using h (m + 1) (by simp; omega)

theorem hunt_append_of_quiet {sr : UInt16} {a : List Bool} (b : List Bool) (h : Quiet sr a) :
    hunt sr (a ++ b) = (hunt (a.foldl shiftIn sr) b).map (· + a.length) := by
  induction a generalizing sr with
  | nil => simp
  | cons x a ih =>
    obtain ⟨hx, ha⟩ := quiet_cons h
    simp only [List.cons_append, hunt, hx, if_false, ih ha, List.foldl_cons, List.length_cons,
      Option.map_map]
    congr 1

theorem hunt_of_quiet {sr : UInt16} {a : List Bool} (h : Quiet sr a) : hunt sr a = none := by
  have := hunt_append_of_quiet [] h
  simpa [hunt] using this

private theorem syncWord_bits :
    syncWord.toBitVec.getLsbD 14 = true ∧
      (syncWord.toBitVec.getLsbD 4 = false ∧ syncWord.toBitVec.getLsbD 5 = false ∧
        syncWord.toBitVec.getLsbD 6 = false) ∧
      (syncWord.toBitVec.getLsbD 11 = false ∧ syncWord.toBitVec.getLsbD 12 = false ∧
        syncWord.toBitVec.getLsbD 13 = false) := by
  decide

/-- **A stream that misses no clock never completes a sync mark.** The mark has three zero cells
    in a row twice, once around a clock cell at either alignment. -/
theorem quiet_of_clockKept {cells : List Bool} (h : ClockKept cells) : Quiet 0 cells := by
  intro m hm heq
  have hbit : ∀ i, i < 16 → syncWord.toBitVec.getLsbD i =
      if i ≤ m then cells[m - i]?.getD false else false := by
    intro i hi
    rw [← heq, shiftIn_foldl_getLsbD _ _ _ hi]
    have hlen : (cells.take (m + 1)).length = m + 1 := by
      rw [List.length_take]
      omega
    by_cases hle : i ≤ m
    · have hlt : i < (cells.take (m + 1)).length := by omega
      rw [dif_pos hlt, if_pos hle, List.getElem_take]
      have hidx : (cells.take (m + 1)).length - 1 - i = m - i := by omega
      simp only [hidx]
      rw [List.getElem?_eq_getElem (by omega)]
      rfl
    · have hlt : ¬ i < (cells.take (m + 1)).length := by omega
      rw [dif_neg hlt, if_neg hle]
      simp
  obtain ⟨h14, ⟨h4, h5, h6⟩, h11, h12, h13⟩ := syncWord_bits
  have hm14 : 14 ≤ m := by
    by_contra hlt
    rw [hbit 14 (by omega), if_neg hlt] at h14
    exact Bool.false_ne_true h14
  have hzero : ∀ i, i < 14 → syncWord.toBitVec.getLsbD i = false → cells[m - i]? = some false := by
    intro i hi h0
    rw [hbit i (by omega), if_pos (by omega)] at h0
    rw [List.getElem?_eq_getElem (by omega)] at h0 ⊢
    simpa using h0
  obtain ⟨c, hc | hc⟩ : ∃ c, m = 2 * c ∨ m = 2 * c + 1 := ⟨m / 2, by omega⟩
  · -- an odd number of cells went through: the newest is a clock cell
    have hk := h (c - 7)
    rw [show 2 * (c - 7) + 1 = m - 13 by omega, show 2 * (c - 7) + 3 = m - 11 by omega,
      show 2 * (c - 7) + 2 = m - 12 by omega] at hk
    exact hk (hzero 13 (by decide) h13) (hzero 11 (by decide) h11) (hzero 12 (by decide) h12)
  · -- an even number: the newest is a data cell
    have hk := h (c - 3)
    rw [show 2 * (c - 3) + 1 = m - 6 by omega, show 2 * (c - 3) + 3 = m - 4 by omega,
      show 2 * (c - 3) + 2 = m - 5 by omega] at hk
    exact hk (hzero 6 (by decide) h6) (hzero 4 (by decide) h4) (hzero 5 (by decide) h5)

/-- A hunt over a stream that misses no clock runs off its end. -/
theorem hunt_of_clockKept {cells : List Bool} (h : ClockKept cells) : hunt 0 cells = none :=
  hunt_of_quiet (quiet_of_clockKept h)

/-! ## Finding the mark behind a run of zeros -/

/-- The cells of a zero byte behind a zero bit. -/
def zeroCells : UInt16 := 0xAAAA

private theorem expandBits_zero_byte :
    expandBits false (List.replicate 8 false) = wordBits zeroCells := by decide

private theorem lastBit_replicate_false (prev : Bool) (n : Nat) :
    lastBit prev (List.replicate (n + 1) false) = false := by
  induction n generalizing prev with
  | zero => rfl
  | succ n ih => exact ih false

theorem foldl_zero_run (prev : Bool) (g : List Bool) (n : Nat) (sr : UInt16) :
    (expandBits prev (g ++ List.replicate (n + 9) false)).foldl shiftIn sr = zeroCells := by
  have hsplit : g ++ List.replicate (n + 9) false =
      (g ++ List.replicate (n + 1) false) ++ List.replicate 8 false := by
    rw [List.append_assoc, List.replicate_append_replicate]
  rw [hsplit, expandBits_append, lastBit_append, lastBit_replicate_false, expandBits_zero_byte,
    List.foldl_append, wordBits_foldl]

private theorem hunt_sync_of_zeroCells (rest : List Bool) :
    hunt zeroCells (wordBits syncWord ++ rest) = some 16 := by
  have hq : Quiet zeroCells ((wordBits syncWord).take 15) := by
    intro m hm
    have key : ∀ m : Fin 15,
        (((wordBits syncWord).take 15).take (m.val + 1)).foldl shiftIn zeroCells ≠ syncWord := by
      decide
    exact key ⟨m, by simpa using hm⟩
  have hsplit : wordBits syncWord ++ rest =
      (wordBits syncWord).take 15 ++ ((wordBits syncWord).drop 15 ++ rest) := by
    rw [← List.append_assoc, List.take_append_drop]
  have hlast : (wordBits syncWord).drop 15 = [true] := by decide
  have hfire : shiftIn (((wordBits syncWord).take 15).foldl shiftIn zeroCells) true = syncWord := by
    decide
  rw [hsplit, hunt_append_of_quiet _ hq, hlast, List.singleton_append, hunt, if_pos hfire]
  simp

/-- **The hunt finds the mark**: behind a stream that misses no clock and leaves zero cells in the
    register, it stops at the last cell of the sync mark. -/
theorem hunt_sync_of_quiet {gap : List Bool} (rest : List Bool) (hq : Quiet 0 gap)
    (hz : gap.foldl shiftIn 0 = zeroCells) :
    hunt 0 (gap ++ (wordBits syncWord ++ rest)) = some (gap.length + 16) := by
  rw [hunt_append_of_quiet _ hq, hz, hunt_sync_of_zeroCells]
  simp [Nat.add_comm]

/-- The hunt over an encoded gap that ends in a run of zero bits stops at the sync mark behind it. -/
theorem hunt_gap_sync (prev : Bool) (g : List Bool) (n : Nat) (rest : List Bool) :
    hunt 0 (expandBits prev (g ++ List.replicate (n + 9) false) ++ (wordBits syncWord ++ rest)) =
      some ((expandBits prev (g ++ List.replicate (n + 9) false)).length + 16) :=
  hunt_sync_of_quiet rest (quiet_of_clockKept (expandBits_clockKept _ _)) (foldl_zero_run _ _ _ _)

end Koncepcja.Mfm
