import Koncepcja.Lib.Binary64
import Koncepcja.Disk.FluxScan

/-!
# The Flux PLL

The software PLL of `src/hw/flux.cpp`: flux words to intervals, intervals to bit cells. The half-cell
width is estimated from the revolution's own intervals, then every interval is rounded to a whole
number of cells while the clock follows by 2 % of the per-cell error.

`double` arithmetic is `Binary64.rnd` of the exact rational result, operation by operation.

## Main results

- `pllDecode_exact`: intervals that are whole multiples of the nominal 80 ticks decode to exactly
  those multiples, with the clock never leaving 80.
-/

namespace Koncepcja.Disk

open Koncepcja.Bits Koncepcja.Binary64

/-- The `FLUX_E_*` codes of the decoder. -/
inductive FluxError where
  | notScp
  | geometry
  | truncated
  | tooLong
  deriving DecidableEq, Repr

/-! ## Intervals -/

/-- The tick intervals a run of flux words spells: 0x0000 carries 65536 ticks into the next word, and
    a trailing unterminated carry is discarded. -/
def fluxIntervals (carry : Nat) : List Nat → List Nat
  | [] => []
  | w :: words =>
    if w = 0 then fluxIntervals ((carry + 0x10000) % 2 ^ 32) words
    else (carry + w) :: fluxIntervals 0 words

/-! ## The clock -/

/-- `static_cast<long>((t / clock) + 0.5)`: the whole cells nearest to an interval. -/
def nearestCells (t : Nat) (clock : ℚ) : Nat := ⌊rnd (rnd (t / clock) + 1 / 2)⌋.toNat

/-- One reclassification pass of `estimate_cell`: the ticks and cells of the intervals that look like
    legal MFM. -/
def estimatePass (cell : ℚ) (ts : List Nat) : ℚ × Nat :=
  ts.foldl
    (fun acc t =>
      let n := nearestCells t cell
      if 2 ≤ n ∧ n ≤ 4 then (rnd (acc.1 + t), acc.2 + n) else acc)
    (0, 0)

/-- A pass's mean, when there is enough signal. -/
def refineCell (ts : List Nat) (cell : ℚ) : ℚ :=
  let sums := estimatePass cell ts
  if 128 ≤ sums.2 then rnd (sums.1 / sums.2) else cell

/-- Keep a value between two bounds. -/
def clampTo (lo hi x : ℚ) : ℚ := if x < lo then lo else if hi < x then hi else x

/-- `estimate_cell`: two passes, clamped to nominal ±15 %. -/
def estimateCell (ts : List Nat) (nominal : ℚ) : ℚ :=
  clampTo (rnd (nominal * rnd (85 / 100))) (rnd (nominal * rnd (115 / 100)))
    (refineCell ts (refineCell ts nominal))

/-- The clock after an interval of `n` cells, before the clamp. -/
def nextClock (clock : ℚ) (t n : Nat) : ℚ :=
  rnd (clock + rnd (rnd (rnd (t - rnd (n * clock)) / n) * rnd (2 / 100)))

/-! ## Bit cells -/

/-- The cells of an interval: zeros, then the transition. -/
def intervalCells (n : Nat) : List Bool := List.replicate (n - 1) false ++ [true]

namespace BitBuf

/-- The cleared buffer. -/
def empty : BitBuf where
  bits := List.replicate (kMaxBits / 8) 0
  n := 0
  sized := List.length_replicate
  bounded := Nat.zero_le _

/-- Nothing is set behind the last cell. -/
def Clear (bb : BitBuf) : Prop := ∀ i, bb.n ≤ i → Bits.bitAt bb.bits i = false

/-- Append an interval of `n` cells: the zeros are there already, the transition is set. -/
def transition (bb : BitBuf) (n : Nat) (h : bb.n + n ≤ kMaxBits) : BitBuf where
  bits := bb.bits.modify ((bb.n + n - 1) / 8) (· ||| bitMask ((bb.n + n - 1) % 8))
  n := bb.n + n
  sized := by rw [List.length_modify, bb.sized]
  bounded := h

theorem empty_clear : empty.Clear := by
  intro i _
  simp only [empty, Bits.bitAt, List.getD_eq_getElem?_getD, List.getElem?_replicate]
  split <;> simp [byteBit_zero]

@[simp] theorem empty_cells : empty.cells = [] := rfl

theorem bitAt_transition {bb : BitBuf} {n : Nat} (h : bb.n + n ≤ kMaxBits) (hn : 0 < n) (i : Nat) :
    Bits.bitAt (bb.transition n h).bits i = (Bits.bitAt bb.bits i || decide (i = bb.n + n - 1)) := by
  have hbyte : (bb.n + n - 1) / 8 < bb.bits.length := by
    rw [bb.sized]
    simp only [kMaxBits] at h ⊢
    omega
  exact bitAt_modify _ _ _ hbyte

theorem transition_clear {bb : BitBuf} {n : Nat} (h : bb.n + n ≤ kMaxBits) (hn : 0 < n)
    (hclear : bb.Clear) : (bb.transition n h).Clear := by
  intro i hi
  have hge : bb.n + n ≤ i := hi
  have hne : i ≠ bb.n + n - 1 := by omega
  rw [bitAt_transition h hn, hclear i (by omega)]
  simp [hne]

theorem transition_cells {bb : BitBuf} {n : Nat} (h : bb.n + n ≤ kMaxBits) (hn : 0 < n)
    (hclear : bb.Clear) : (bb.transition n h).cells = bb.cells ++ intervalCells n := by
  apply List.ext_getElem?
  intro i
  have hcell : ∀ (b : BitBuf) (j : Nat), b.cells[j]? = if j < b.n then some (Bits.bitAt b.bits j) else none := by
    intro b j
    by_cases hj : j < b.n
    · rw [if_pos hj]
      exact cells_getElem? b j hj
    · rw [if_neg hj, List.getElem?_eq_none (by rw [cells_length]; omega)]
  rw [hcell, bitAt_transition h hn, List.getElem?_append, hcell, cells_length]
  show (if i < bb.n + n then _ else none) = _
  -- below the old end the cell is kept; behind it the buffer was clear
  by_cases hold : i < bb.n
  · have hne : i ≠ bb.n + n - 1 := by omega
    rw [if_pos (by omega), if_pos hold, if_pos hold]
    simp [hne]
  · rw [if_neg hold, intervalCells, List.getElem?_append, List.length_replicate,
      hclear i (by omega), Bool.false_or]
    by_cases hzero : i - bb.n < n - 1
    · have hne : i ≠ bb.n + n - 1 := by omega
      rw [if_pos (by omega), if_pos hzero, List.getElem?_replicate, if_pos hzero]
      simp [hne]
    · rw [if_neg hzero]
      by_cases hlast : i = bb.n + n - 1
      · have hidx : i - bb.n - (n - 1) = 0 := by omega
        rw [if_pos (by omega), hidx]
        simp [hlast]
      · rw [if_neg (by omega), List.getElem?_eq_none (by simp only [List.length_singleton]; omega)]

end BitBuf

/-! ## The loop -/

/-- `pll_decode`'s loop from the interval the clock stands at. -/
def pllLoop (lo hi : ℚ) : ℚ → List Nat → BitBuf → Except FluxError BitBuf
  | _, [], bb => .ok bb
  | clock, t :: ts, bb =>
    let n := max (nearestCells t clock) 1
    if h : bb.n + n ≤ kMaxBits then
      pllLoop lo hi (clampTo lo hi (nextClock clock t n)) ts (bb.transition n h)
    else .error .tooLong

/-- `pll_decode`: one revolution's flux words appended to a buffer. -/
def pllDecode (words : List Nat) (nominal : ℚ) (bb : BitBuf) : Except FluxError BitBuf :=
  let ts := fluxIntervals 0 words
  let cell := estimateCell ts nominal
  pllLoop (rnd (cell * rnd (985 / 1000))) (rnd (cell * rnd (1015 / 1000))) cell ts bb

/-! ## Exact multiples of the nominal cell -/

/-- The nominal half-cell, 80 ticks of 25 ns. -/
def kNominalTicks : Nat := 80

/-- An interval of whole nominal cells. -/
def WholeCells (t : Nat) : Prop := 0 < t ∧ t < 2 ^ 32 ∧ kNominalTicks ∣ t

theorem nearestCells_whole {t : Nat} (h : WholeCells t) : nearestCells t 80 = t / kNominalTicks := by
  obtain ⟨-, hlt, n, rfl⟩ := h
  simp only [kNominalTicks] at hlt ⊢
  have hn : n < 2 ^ 32 := by omega
  have hquot : (((80 * n : Nat) : ℚ) / 80) = (n : ℚ) := by
    push_cast
    field_simp
  rw [nearestCells, hquot, rnd_natCast (by omega), rnd_add_half (by omega)]
  have hfloor : ⌊(n : ℚ) + 1 / 2⌋ = (n : ℤ) := by
    rw [Int.floor_eq_iff]
    constructor
    · push_cast
      linarith
    · push_cast
      linarith
  rw [hfloor, Int.toNat_natCast, Nat.mul_div_cancel_left _ (by decide)]

theorem nextClock_whole {t : Nat} (h : WholeCells t) : nextClock 80 t (t / kNominalTicks) = 80 := by
  obtain ⟨-, hlt, n, rfl⟩ := h
  simp only [kNominalTicks] at hlt ⊢
  rw [Nat.mul_div_cancel_left _ (by decide)]
  have hprod : (n : ℚ) * 80 = ((80 * n : Nat) : ℚ) := by
    push_cast
    ring
  have heighty : rnd 80 = 80 := by exact_mod_cast @rnd_natCast 80 (by norm_num)
  rw [nextClock, hprod, rnd_natCast (by omega), sub_self, rnd_zero, zero_div, rnd_zero, zero_mul, rnd_zero,
    add_zero, heighty]

theorem clampTo_self {lo hi x : ℚ} (hlo : lo ≤ x) (hhi : x ≤ hi) : clampTo lo hi x = x := by
  rw [clampTo, if_neg (not_lt.mpr hlo), if_neg (not_lt.mpr hhi)]

theorem lower_bound_le {c : ℚ} (hpos : 0 ≤ c) (hc : c ≤ 1) : rnd (80 * rnd c) ≤ 80 := by
  have hone : rnd c ≤ 1 := by exact_mod_cast @rnd_le_natCast c 1 hpos (by exact_mod_cast hc) (by norm_num)
  have hzero : 0 ≤ rnd c := by exact_mod_cast @natCast_le_rnd c 0 (by exact_mod_cast hpos) (by linarith)
  exact_mod_cast @rnd_le_natCast (80 * rnd c) 80 (by linarith) (by push_cast; linarith) (by norm_num)

theorem le_upper_bound {c : ℚ} (hc : 1 ≤ c) (htwo : c ≤ 2) : 80 ≤ rnd (80 * rnd c) := by
  have hone : 1 ≤ rnd c := by exact_mod_cast @natCast_le_rnd c 1 (by exact_mod_cast hc) (by linarith)
  have hbound : rnd c ≤ 2 := by
    exact_mod_cast @rnd_le_natCast c 2 (by linarith) (by exact_mod_cast htwo) (by norm_num)
  exact_mod_cast @natCast_le_rnd (80 * rnd c) 80 (by push_cast; linarith) (by linarith)

theorem estimatePass_whole {ts : List Nat} (hts : ∀ t ∈ ts, WholeCells t) (hcount : ts.length < 2 ^ 32) :
    ∃ n, estimatePass 80 ts = (((80 * n : Nat) : ℚ), n) ∧ n ≤ 4 * ts.length := by
  -- On the last interval; a whole number of cells keeps the sum on the grid, so nothing is rounded.
  induction ts using List.reverseRecOn with
  | nil => exact ⟨0, by simp [estimatePass], Nat.zero_le _⟩
  | append_singleton ts t ih =>
    rw [List.length_append, List.length_singleton] at hcount
    obtain ⟨n, hpass, hn⟩ := ih (fun x hx => hts x (List.mem_append_left _ hx)) (by omega)
    have ht := hts t (by simp)
    have hstep : estimatePass 80 (ts ++ [t]) =
        if 2 ≤ nearestCells t 80 ∧ nearestCells t 80 ≤ 4 then
          (rnd ((estimatePass 80 ts).1 + t), (estimatePass 80 ts).2 + nearestCells t 80)
        else estimatePass 80 ts := by
      rw [estimatePass, List.foldl_append, ← estimatePass]
      rfl
    rw [hstep, hpass, nearestCells_whole ht, List.length_append, List.length_singleton]
    obtain ⟨-, -, k, rfl⟩ := ht
    simp only [kNominalTicks, Nat.mul_div_cancel_left k (by decide : 0 < 80)]
    split
    · rename_i hlegal
      have hsum : (((80 * n : Nat) : ℚ) + ((80 * k : Nat) : ℚ)) = ((80 * (n + k) : Nat) : ℚ) := by
        push_cast
        ring
      refine ⟨n + k, ?_, by omega⟩
      rw [hsum, rnd_natCast (by omega)]
    · exact ⟨n, rfl, by omega⟩

theorem refineCell_whole {ts : List Nat} (hts : ∀ t ∈ ts, WholeCells t) (hcount : ts.length < 2 ^ 32) :
    refineCell ts 80 = 80 := by
  obtain ⟨n, hpass, -⟩ := estimatePass_whole hts hcount
  rw [refineCell, hpass]
  simp only
  split
  · rename_i hsignal
    have hquot : (((80 * n : Nat) : ℚ) / (n : ℚ)) = ((80 : Nat) : ℚ) := by
      have hne : (n : ℚ) ≠ 0 := by
        have : n ≠ 0 := by omega
        exact_mod_cast this
      push_cast
      field_simp
    rw [hquot, rnd_natCast (by norm_num)]
    norm_num
  · rfl

theorem estimateCell_whole {ts : List Nat} (hts : ∀ t ∈ ts, WholeCells t) (hcount : ts.length < 2 ^ 32) :
    estimateCell ts 80 = 80 := by
  rw [estimateCell, refineCell_whole hts hcount, refineCell_whole hts hcount]
  exact clampTo_self (lower_bound_le (by norm_num) (by norm_num))
    (le_upper_bound (by norm_num) (by norm_num))

theorem pllLoop_whole {lo hi : ℚ} (hlo : lo ≤ 80) (hhi : 80 ≤ hi) (ts : List Nat) {bb : BitBuf}
    (hts : ∀ t ∈ ts, WholeCells t) (hclear : bb.Clear)
    (hfits : bb.n + (ts.map (· / kNominalTicks)).sum ≤ kMaxBits) :
    ∃ bb', pllLoop lo hi 80 ts bb = .ok bb' ∧ bb'.Clear ∧
      bb'.cells = bb.cells ++ ts.flatMap fun t => intervalCells (t / kNominalTicks) := by
  induction ts generalizing bb with
  | nil => exact ⟨bb, rfl, hclear, by simp⟩
  | cons t ts ih =>
    have ht := hts t List.mem_cons_self
    have hpos : 0 < t / kNominalTicks := Nat.div_pos (Nat.le_of_dvd ht.1 ht.2.2) (by decide)
    rw [List.map_cons, List.sum_cons] at hfits
    have hroom : bb.n + t / kNominalTicks ≤ kMaxBits := by omega
    obtain ⟨bb', hrun, hclear', hcells⟩ := ih (fun x hx => hts x (List.mem_cons_of_mem _ hx))
      (BitBuf.transition_clear hroom hpos hclear)
      (by
        show bb.n + t / kNominalTicks + _ ≤ kMaxBits
        omega)
    refine ⟨bb', ?_, hclear', ?_⟩
    · have hmax : max (t / kNominalTicks) 1 = t / kNominalTicks := by omega
      rw [pllLoop]
      simp only [nearestCells_whole ht, hmax, nextClock_whole ht, clampTo_self hlo hhi, dif_pos hroom, hrun]
    · rw [hcells, BitBuf.transition_cells hroom hpos hclear, List.flatMap_cons, List.append_assoc]

/-- **Whole cells decode exactly**: a revolution whose intervals are multiples of the nominal 80 ticks
    becomes exactly those cells. -/
theorem pllDecode_exact {words : List Nat} (hwords : words.length < 2 ^ 32)
    (hts : ∀ t ∈ fluxIntervals 0 words, WholeCells t)
    (hfits : ((fluxIntervals 0 words).map (· / kNominalTicks)).sum ≤ kMaxBits) :
    ∃ bb, pllDecode words 80 BitBuf.empty = .ok bb ∧ bb.Clear ∧
      bb.cells = (fluxIntervals 0 words).flatMap fun t => intervalCells (t / kNominalTicks) := by
  have hcount : ∀ (carry : Nat) (ws : List Nat), (fluxIntervals carry ws).length ≤ ws.length := by
    intro carry ws
    induction ws generalizing carry with
    | nil => exact Nat.le_refl _
    | cons w ws ih =>
      rw [fluxIntervals]
      split
      · exact Nat.le_succ_of_le (ih _)
      · exact Nat.succ_le_succ (ih _)
  have hlen : (fluxIntervals 0 words).length < 2 ^ 32 := Nat.lt_of_le_of_lt (hcount 0 words) hwords
  obtain ⟨bb, hrun, hclear, hcells⟩ := pllLoop_whole
    (lower_bound_le (c := 985 / 1000) (by norm_num) (by norm_num))
    (le_upper_bound (c := 1015 / 1000) (by norm_num) (by norm_num)) (fluxIntervals 0 words) hts
    BitBuf.empty_clear (by simpa [BitBuf.empty] using hfits)
  refine ⟨bb, ?_, hclear, by simpa using hcells⟩
  rw [pllDecode]
  simp only [estimateCell_whole hts hlen, hrun]

end Koncepcja.Disk
