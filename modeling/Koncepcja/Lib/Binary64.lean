import Mathlib.Data.Int.Log
import Mathlib.Data.Rat.Floor
import Mathlib.Tactic.Linarith
import Mathlib.Tactic.Positivity
import Mathlib.Tactic.NormNum
import Mathlib.Tactic.FieldSimp
import Mathlib.Tactic.Ring

/-!
# Binary64 Rounding

The value of a binary64 operation as the exact result rounded to nearest, ties to even: a 53-bit
significand on the grid of the result's own binade, down to the subnormal grid `2 ^ -1074`. Results
are taken to be finite, so every operation here stays below the overflow threshold.

## Main results

- `rnd_intCast` and `rnd_add_half`: small integers and half-integers are their own rounding.
- `rnd_le_natCast` and `natCast_le_rnd`: rounding does not cross a small integer.
- `rnd_mono`: rounding keeps the order of values.
-/

namespace Koncepcja.Binary64

/-! ## Nearest integer -/

/-- The nearest integer, ties to even. -/
def roundEven (q : ℚ) : ℤ :=
  if q - ⌊q⌋ < 1 / 2 then ⌊q⌋
  else if 1 / 2 < q - ⌊q⌋ then ⌊q⌋ + 1
  else if ⌊q⌋ % 2 = 0 then ⌊q⌋
  else ⌊q⌋ + 1

theorem roundEven_intCast (n : ℤ) : roundEven (n : ℚ) = n := by
  have hsmall : (n : ℚ) - ⌊(n : ℚ)⌋ < 1 / 2 := by
    rw [Int.floor_intCast]
    norm_num
  rw [roundEven, if_pos hsmall, Int.floor_intCast]

theorem roundEven_le {q : ℚ} {n : ℤ} (h : q ≤ n) : roundEven q ≤ n := by
  have hfloor : ⌊q⌋ ≤ n := by
    rw [← Int.floor_intCast (R := ℚ) n]
    exact Int.floor_le_floor h
  rcases hfloor.lt_or_eq with hlt | heq
  · have hsucc : ⌊q⌋ + 1 ≤ n := hlt
    unfold roundEven
    split_ifs <;> omega
  · -- the floor is already at the bound, so nothing rounds up
    have hexact : q - ⌊q⌋ < 1 / 2 := by
      rw [heq]
      linarith
    rw [roundEven, if_pos hexact, heq]

theorem le_roundEven {q : ℚ} {n : ℤ} (h : (n : ℚ) ≤ q) : n ≤ roundEven q := by
  have hfloor : n ≤ ⌊q⌋ := Int.le_floor.mpr h
  unfold roundEven
  split_ifs <;> omega

/-! ## Rounding to the grid -/

/-- The exponent of the grid a value is rounded to. -/
def ulpExp (q : ℚ) : ℤ := max (Int.log 2 |q| - 52) (-1074)

/-- The binary64 value nearest to `q`, ties to even. -/
def rnd (q : ℚ) : ℚ := roundEven (q / 2 ^ ulpExp q) * 2 ^ ulpExp q

/-- `y` lies on the grid `q` is rounded to. -/
def OnGrid (q y : ℚ) : Prop := ∃ m : ℤ, y / 2 ^ ulpExp q = m

theorem ulp_pos (q : ℚ) : (0 : ℚ) < 2 ^ ulpExp q := zpow_pos (by norm_num) _

theorem rnd_of_onGrid {q : ℚ} (h : OnGrid q q) : rnd q = q := by
  obtain ⟨m, hm⟩ := h
  rw [rnd, hm, roundEven_intCast, ← hm, div_mul_cancel₀ _ (ulp_pos q).ne']

theorem rnd_le_of_onGrid {q y : ℚ} (hgrid : OnGrid q y) (h : q ≤ y) : rnd q ≤ y := by
  obtain ⟨m, hm⟩ := hgrid
  have hscaled : q / 2 ^ ulpExp q ≤ (m : ℚ) := by
    rw [← hm]
    exact div_le_div_of_nonneg_right h (ulp_pos q).le
  have hround : ((roundEven (q / 2 ^ ulpExp q) : ℤ) : ℚ) ≤ m := by exact_mod_cast roundEven_le hscaled
  calc rnd q ≤ m * 2 ^ ulpExp q := mul_le_mul_of_nonneg_right hround (ulp_pos q).le
    _ = y := by rw [← hm, div_mul_cancel₀ _ (ulp_pos q).ne']

theorem le_rnd_of_onGrid {q y : ℚ} (hgrid : OnGrid q y) (h : y ≤ q) : y ≤ rnd q := by
  obtain ⟨m, hm⟩ := hgrid
  have hscaled : (m : ℚ) ≤ q / 2 ^ ulpExp q := by
    rw [← hm]
    exact div_le_div_of_nonneg_right h (ulp_pos q).le
  have hround : (m : ℚ) ≤ ((roundEven (q / 2 ^ ulpExp q) : ℤ) : ℚ) := by exact_mod_cast le_roundEven hscaled
  calc y = m * 2 ^ ulpExp q := by rw [← hm, div_mul_cancel₀ _ (ulp_pos q).ne']
    _ ≤ rnd q := mul_le_mul_of_nonneg_right hround (ulp_pos q).le

/-! ## Small integers -/

theorem ulpExp_le {q : ℚ} {k : ℤ} (hq : |q| < 2 ^ (k + 53)) (hk : -1074 ≤ k) (hbig : -52 ≤ k) :
    ulpExp q ≤ k := by
  have hlog : Int.log 2 |q| - 52 ≤ k := by
    by_cases hzero : |q| = 0
    · rw [hzero, Int.log_zero_right]
      omega
    · have hpos : (0 : ℚ) < |q| := lt_of_le_of_ne (abs_nonneg q) (Ne.symm hzero)
      have hlt : Int.log 2 |q| < k + 53 := (Int.lt_zpow_iff_log_lt (by norm_num) hpos).mp (by exact_mod_cast hq)
      omega
  exact max_le hlog hk

theorem onGrid_intCast {q : ℚ} (hq : |q| < 2 ^ 53) (n : ℤ) : OnGrid q n := by
  have hexp : ulpExp q ≤ 0 := ulpExp_le (by norm_num at hq ⊢; exact hq) (by norm_num) (by norm_num)
  obtain ⟨k, hk⟩ := Int.eq_ofNat_of_zero_le (neg_nonneg.mpr hexp)
  refine ⟨n * 2 ^ k, ?_⟩
  have hneg : ulpExp q = -(k : ℤ) := by omega
  rw [hneg, zpow_neg, zpow_natCast, div_inv_eq_mul]
  push_cast
  ring

theorem onGrid_half {q : ℚ} (hq : |q| < 2 ^ 52) (n : ℤ) : OnGrid q (n + 1 / 2) := by
  have hexp : ulpExp q ≤ -1 := ulpExp_le (by norm_num at hq ⊢; exact hq) (by norm_num) (by norm_num)
  obtain ⟨k, hk⟩ := Int.eq_ofNat_of_zero_le (show 0 ≤ -1 - ulpExp q by omega)
  refine ⟨(2 * n + 1) * 2 ^ k, ?_⟩
  have hneg : ulpExp q = -((k + 1 : ℕ) : ℤ) := by
    push_cast
    omega
  rw [hneg, zpow_neg, zpow_natCast, div_inv_eq_mul, pow_succ]
  push_cast
  ring

theorem rnd_natCast {n : ℕ} (h : n < 2 ^ 53) : rnd (n : ℚ) = n := by
  apply rnd_of_onGrid
  have hq : |(n : ℚ)| < 2 ^ 53 := by
    rw [Nat.abs_cast]
    exact_mod_cast h
  exact_mod_cast onGrid_intCast hq n

@[simp] theorem rnd_zero : rnd 0 = 0 := by
  exact_mod_cast @rnd_natCast 0 (by norm_num)

/-- Half-integers below `2 ^ 52` are their own rounding. -/
theorem rnd_add_half {n : ℕ} (h : n + 1 < 2 ^ 52) : rnd ((n : ℚ) + 1 / 2) = n + 1 / 2 := by
  apply rnd_of_onGrid
  have hcast : (n : ℚ) + 1 < 2 ^ 52 := by exact_mod_cast h
  have hpos : (0 : ℚ) ≤ n := Nat.cast_nonneg n
  have hq : |(n : ℚ) + 1 / 2| < 2 ^ 52 := by
    rw [abs_of_nonneg (by linarith)]
    linarith
  exact_mod_cast onGrid_half hq n

/-- Rounding a non-negative value does not go past a small integer above it. -/
theorem rnd_le_natCast {q : ℚ} {n : ℕ} (hpos : 0 ≤ q) (h : q ≤ n) (hn : n < 2 ^ 53) : rnd q ≤ n := by
  have hq : |q| < 2 ^ 53 := by
    rw [abs_of_nonneg hpos]
    exact lt_of_le_of_lt h (by exact_mod_cast hn)
  exact rnd_le_of_onGrid (by exact_mod_cast onGrid_intCast hq n) h

/-- Rounding does not go past a small integer below. -/
theorem natCast_le_rnd {q : ℚ} {n : ℕ} (h : (n : ℚ) ≤ q) (hq : q < 2 ^ 53) : (n : ℚ) ≤ rnd q := by
  have hpos : (0 : ℚ) ≤ q := le_trans (Nat.cast_nonneg n) h
  have habs : |q| < 2 ^ 53 := by rwa [abs_of_nonneg hpos]
  exact le_rnd_of_onGrid (by exact_mod_cast onGrid_intCast habs n) h

/-! ## Rounding is monotone -/

theorem roundEven_mono {q r : ℚ} (h : q ≤ r) : roundEven q ≤ roundEven r := by
  rcases (Int.floor_le_floor h).lt_or_eq with hlt | heq
  · have hup : roundEven q ≤ ⌊q⌋ + 1 := by
      unfold roundEven
      split_ifs <;> omega
    have hdown : ⌊r⌋ ≤ roundEven r := by
      unfold roundEven
      split_ifs <;> omega
    omega
  · -- on one integer the fractions decide, and that of `r` is not below
    unfold roundEven
    rw [heq]
    have hfrac : q - (⌊r⌋ : ℚ) ≤ r - ⌊r⌋ := sub_le_sub_right h _
    split_ifs
    all_goals first | omega | (exfalso; linarith)

theorem rnd_nonneg {q : ℚ} (h : 0 ≤ q) : 0 ≤ rnd q := le_rnd_of_onGrid ⟨0, by simp⟩ h

theorem ulpExp_mono {q r : ℚ} (hpos : 0 < q) (h : q ≤ r) : ulpExp q ≤ ulpExp r := by
  rw [ulpExp, ulpExp, abs_of_pos hpos, abs_of_pos (hpos.trans_le h)]
  exact max_le_max (sub_le_sub_right (Int.log_mono_right hpos h) _) le_rfl

theorem onGrid_zpow {q : ℚ} {k : ℤ} (h : ulpExp q ≤ k) : OnGrid q (2 ^ k) := by
  obtain ⟨n, hn⟩ := Int.eq_ofNat_of_zero_le (sub_nonneg.mpr h)
  refine ⟨2 ^ n, ?_⟩
  rw [← zpow_sub₀ (by norm_num : (2 : ℚ) ≠ 0), hn]
  push_cast
  exact zpow_natCast 2 n

/-- Where the grids differ, a power of two that is on both of them is between the values. -/
theorem rnd_mono {q r : ℚ} (hq : 0 ≤ q) (h : q ≤ r) : rnd q ≤ rnd r := by
  rcases hq.lt_or_eq with hpos | rfl
  · -- Across a power of two that power lies between them; inside one binade the rounding is that of integers.
    rcases (ulpExp_mono hpos h).lt_or_eq with hlt | heq
    · have hr : 0 < r := hpos.trans_le h
      have hlow : -1074 ≤ ulpExp q := le_max_right _ _
      have hlog : Int.log 2 q - 52 ≤ ulpExp q := by
        rw [ulpExp, abs_of_pos hpos]
        exact le_max_left _ _
      have hmax : ulpExp r = max (Int.log 2 r - 52) (-1074) := by rw [ulpExp, abs_of_pos hr]
      have hexp : ulpExp r = Int.log 2 r - 52 := by
        rcases le_total (Int.log 2 r - 52) (-1074) with hle | hle
        · rw [max_eq_right hle] at hmax
          omega
        · rw [hmax, max_eq_left hle]
      have hlogs : Int.log 2 q < Int.log 2 r := by omega
      have hbelow : q ≤ 2 ^ Int.log 2 r := ((Int.lt_zpow_iff_log_lt (by norm_num) hpos).mpr hlogs).le
      have habove : (2 : ℚ) ^ Int.log 2 r ≤ r := by exact_mod_cast Int.zpow_log_le_self (b := 2) (by norm_num) hr
      exact (rnd_le_of_onGrid (onGrid_zpow (by omega)) (by exact_mod_cast hbelow)).trans
        (le_rnd_of_onGrid (onGrid_zpow (by omega)) habove)
    · rw [rnd, rnd, heq]
      have hscaled : q / 2 ^ ulpExp r ≤ r / 2 ^ ulpExp r := div_le_div_of_nonneg_right h (ulp_pos r).le
      have hround : ((roundEven (q / 2 ^ ulpExp r) : ℤ) : ℚ) ≤ roundEven (r / 2 ^ ulpExp r) := by
        exact_mod_cast roundEven_mono hscaled
      exact mul_le_mul_of_nonneg_right hround (ulp_pos r).le
  · have hzero : rnd 0 = 0 := rnd_of_onGrid ⟨0, by simp⟩
    rw [hzero]
    exact rnd_nonneg h

end Koncepcja.Binary64
