import Koncepcja.Disk.FluxRecover

/-!
# The PLL in Exact Arithmetic

The PLL of `src/hw/flux.cpp` with the rounding of its arithmetic as a parameter: `Binary64.rnd` gives the code's own
`double`s, and the identity the exact rationals. Over these it recovers a legal track from the flux that
`src/ipf.cpp` emits for it, though a first interval that no words can spell leaves the clock a little off.

## Main results

- `pllDecodeBy_rnd`: the code's PLL is one of the family.
- `pllLoopBy_legal`: a clock near 80 ticks classifies every legal interval, and comes nearer to 80.
- `exactPll_pushFluxRev`: the cells come back, up to the last transition, if the buffer holds them.
-/

namespace Koncepcja.Disk

open Koncepcja.Bits Koncepcja.Binary64

/-! ## The PLL over a rounding -/

section Rounding

variable (round : ℚ → ℚ)

/-- `static_cast<long>((t / clock) + 0.5)`. -/
def nearestCellsBy (t : Nat) (clock : ℚ) : Nat := ⌊round (round (t / clock) + 1 / 2)⌋.toNat

/-- One pass of `estimate_cell`. -/
def estimatePassBy (cell : ℚ) (ts : List Nat) : ℚ × Nat :=
  ts.foldl
    (fun acc t =>
      let n := nearestCellsBy round t cell
      if 2 ≤ n ∧ n ≤ 4 then (round (acc.1 + t), acc.2 + n) else acc)
    (0, 0)

/-- A pass's mean, when there is enough signal. -/
def refineCellBy (ts : List Nat) (cell : ℚ) : ℚ :=
  let sums := estimatePassBy round cell ts
  if 128 ≤ sums.2 then round (sums.1 / sums.2) else cell

/-- `estimate_cell`. -/
def estimateCellBy (ts : List Nat) (nominal : ℚ) : ℚ :=
  clampTo (round (nominal * round (85 / 100))) (round (nominal * round (115 / 100)))
    (refineCellBy round ts (refineCellBy round ts nominal))

/-- The clock after an interval of `n` cells, before the clamp. -/
def nextClockBy (clock : ℚ) (t n : Nat) : ℚ :=
  round (clock + round (round (round (t - round (n * clock)) / n) * round (2 / 100)))

/-- `pll_decode`'s loop. -/
def pllLoopBy (lo hi : ℚ) : ℚ → List Nat → BitBuf → Except FluxError BitBuf
  | _, [], bb => .ok bb
  | clock, t :: ts, bb =>
    let n := max (nearestCellsBy round t clock) 1
    if h : bb.n + n ≤ kMaxBits then
      pllLoopBy lo hi (clampTo lo hi (nextClockBy round clock t n)) ts (bb.transition n h)
    else .error .tooLong

/-- `pll_decode`. -/
def pllDecodeBy (words : List Nat) (nominal : ℚ) (bb : BitBuf) : Except FluxError BitBuf :=
  let ts := fluxIntervals 0 words
  let cell := estimateCellBy round ts nominal
  pllLoopBy round (round (cell * round (985 / 1000))) (round (cell * round (1015 / 1000))) cell ts bb

end Rounding

theorem pllLoopBy_rnd (lo hi clock : ℚ) (ts : List Nat) (bb : BitBuf) :
    pllLoopBy rnd lo hi clock ts bb = pllLoop lo hi clock ts bb := by
  induction ts generalizing clock bb with
  | nil => rfl
  | cons t ts ih =>
    have hnear : nearestCellsBy rnd t clock = nearestCells t clock := rfl
    have hnext : ∀ n, nextClockBy rnd clock t n = nextClock clock t n := fun _ => rfl
    rw [pllLoopBy, pllLoop]
    simp only [hnear, hnext, ih]

/-- The PLL over exact rationals. -/
def exactPll (words : List Nat) (nominal : ℚ) (bb : BitBuf) : Except FluxError BitBuf := pllDecodeBy id words nominal bb

/-! ## What the emitter spells -/

/-- The interval that the words of `t` ticks stand for: an exact multiple of the word range loses one tick. -/
def spelled (t : Nat) : Nat := if t % 0x10000 = 0 then t - 1 else t

theorem fluxIntervals_spelled {t carry : Nat} (rest : List Nat) (ht : 0 < t) (hsum : carry + t < 2 ^ 32) :
    fluxIntervals carry (fluxWords t ++ rest) = (carry + spelled t) :: fluxIntervals 0 rest := by
  by_cases hmod : t % 0x10000 = 0
  · rw [spelled, if_pos hmod]
    induction t using fluxWords.induct generalizing carry with
    | case1 t hlt => omega
    | case2 =>
      rw [fluxWords, if_neg (Nat.lt_irrefl _), if_pos rfl]
      rfl
    | case3 t hge hne ih =>
      have hcarry : (carry + 0x10000) % 2 ^ 32 = carry + 0x10000 := Nat.mod_eq_of_lt (by omega)
      have htotal : carry + 0x10000 + (t - 0x10000 - 1) = carry + (t - 1) := by omega
      rw [fluxWords, if_neg hge, if_neg hne, List.cons_append, fluxIntervals, if_pos rfl, hcarry,
        ih (by omega) (by omega) (by omega), htotal]
  · rw [spelled, if_neg hmod]
    exact fluxIntervals_fluxWords rest hsum hmod

theorem fluxIntervals_gaps {gaps : List Nat} (hpos : ∀ gap ∈ gaps, 0 < gap) (hlt : ∀ gap ∈ gaps, gap * kTicksPerCell < 2 ^ 32) :
    fluxIntervals 0 (gaps.flatMap fun gap => fluxWords (gap * kTicksPerCell % 2 ^ 32)) =
      gaps.map fun gap => spelled (gap * kTicksPerCell) := by
  induction gaps with
  | nil => rfl
  | cons gap gaps ih =>
    have hgap := hlt gap List.mem_cons_self
    have hticks : 0 < gap * kTicksPerCell := Nat.mul_pos (hpos gap List.mem_cons_self) (by decide)
    rw [List.flatMap_cons, Nat.mod_eq_of_lt hgap, fluxIntervals_spelled _ hticks (by omega), Nat.zero_add,
      ih (fun g hg => hpos g (List.mem_cons_of_mem _ hg)) (fun g hg => hlt g (List.mem_cons_of_mem _ hg)), List.map_cons]

theorem spelled_cases {gap : Nat} (hgap : 0 < gap) : spelled (gap * kTicksPerCell) = 80 * gap ∨
    4 < gap ∧ spelled (gap * kTicksPerCell) + 1 = 80 * gap := by
  rw [spelled, kTicksPerCell]
  split
  · right
    omega
  · left
    omega

/-! ## The clock over exact rationals -/

theorem nearestCellsBy_id {t n : Nat} {clock : ℚ} (hclock : 0 < clock) (hlo : ((n : ℚ) - 1 / 2) * clock ≤ t)
    (hhi : (t : ℚ) < ((n : ℚ) + 1 / 2) * clock) : nearestCellsBy id t clock = n := by
  have hbelow : (n : ℚ) - 1 / 2 ≤ t / clock := (le_div_iff₀ hclock).mpr hlo
  have habove : t / clock < (n : ℚ) + 1 / 2 := (div_lt_iff₀ hclock).mpr hhi
  have hfloor : ⌊(t : ℚ) / clock + 1 / 2⌋ = (n : ℤ) := by
    rw [Int.floor_eq_iff]
    constructor
    · push_cast
      linarith
    · push_cast
      linarith
  rw [nearestCellsBy]
  simp only [id]
  rw [hfloor, Int.toNat_natCast]

theorem nearestCellsBy_spelled {gap : Nat} (hgap : 0 < gap) : nearestCellsBy id (spelled (gap * kTicksPerCell)) 80 = gap := by
  have hspelled : (80 * gap : ℚ) - 1 ≤ (spelled (gap * kTicksPerCell) : ℚ) ∧ (spelled (gap * kTicksPerCell) : ℚ) ≤ 80 * gap := by
    rcases spelled_cases hgap with h | h
    · rw [h]
      push_cast
      constructor <;> linarith
    · have hcast : (spelled (gap * kTicksPerCell) : ℚ) + 1 = 80 * gap := by exact_mod_cast h.2
      constructor <;> linarith
  apply nearestCellsBy_id (by norm_num)
  · linarith [hspelled.1]
  · linarith [hspelled.2]

theorem estimatePassBy_spelled {gaps : List Nat} (hpos : ∀ gap ∈ gaps, 0 < gap) :
    ∃ n : Nat, estimatePassBy id 80 (gaps.map fun gap => spelled (gap * kTicksPerCell)) = (80 * (n : ℚ), n) := by
  induction gaps using List.reverseRecOn with
  | nil => exact ⟨0, by simp [estimatePassBy]⟩
  | append_singleton gaps gap ih =>
    obtain ⟨n, hpass⟩ := ih fun g hg => hpos g (List.mem_append_left _ hg)
    have hgap : 0 < gap := hpos gap (List.mem_append_right _ (List.mem_singleton.mpr rfl))
    have hstep : estimatePassBy id 80 ((gaps ++ [gap]).map fun gap => spelled (gap * kTicksPerCell)) =
        if 2 ≤ gap ∧ gap ≤ 4 then (80 * (n : ℚ) + (spelled (gap * kTicksPerCell) : ℚ), n + gap) else (80 * (n : ℚ), n) := by
      rw [List.map_append, estimatePassBy, List.foldl_append, ← estimatePassBy, hpass]
      simp only [List.map_cons, List.map_nil, List.foldl_cons, List.foldl_nil, nearestCellsBy_spelled hgap, id]
    rw [hstep]
    split
    · rename_i hlegal
      have hexact : spelled (gap * kTicksPerCell) = 80 * gap := by
        rcases spelled_cases hgap with h | h
        · exact h
        · omega
      refine ⟨n + gap, ?_⟩
      rw [hexact]
      push_cast
      rw [mul_add]
    · exact ⟨n, rfl⟩

theorem refineCellBy_spelled {gaps : List Nat} (hpos : ∀ gap ∈ gaps, 0 < gap) :
    refineCellBy id (gaps.map fun gap => spelled (gap * kTicksPerCell)) 80 = 80 := by
  obtain ⟨n, hpass⟩ := estimatePassBy_spelled hpos
  rw [refineCellBy, hpass]
  dsimp only
  split
  · rename_i hsignal
    have hne : (n : ℚ) ≠ 0 := by
      have hpos : n ≠ 0 := by omega
      exact_mod_cast hpos
    exact mul_div_cancel_right₀ 80 hne
  · rfl

theorem estimateCellBy_spelled {gaps : List Nat} (hpos : ∀ gap ∈ gaps, 0 < gap) :
    estimateCellBy id (gaps.map fun gap => spelled (gap * kTicksPerCell)) 80 = 80 := by
  rw [estimateCellBy, refineCellBy_spelled hpos, refineCellBy_spelled hpos]
  apply clampTo_self
  · norm_num
  · norm_num

theorem nextClockBy_id {clock : ℚ} {t n : Nat} (hn : 0 < n) :
    nextClockBy id clock t n = clock + (t / n - clock) * (2 / 100) := by
  have hne : (n : ℚ) ≠ 0 := by
    have hpos : n ≠ 0 := by omega
    exact_mod_cast hpos
  rw [nextClockBy]
  simp only [id]
  rw [sub_div, mul_div_cancel_left₀ _ hne]

theorem pllLoopBy_cons {lo hi clock : ℚ} {t n : Nat} (ts : List Nat) (bb : BitBuf) (hn : 0 < n)
    (hnear : nearestCellsBy id t clock = n) :
    pllLoopBy id lo hi clock (t :: ts) bb =
      if h : bb.n + n ≤ kMaxBits then pllLoopBy id lo hi (clampTo lo hi (nextClockBy id clock t n)) ts (bb.transition n h)
      else .error .tooLong := by
  have hmax : max (nearestCellsBy id t clock) 1 = n := by
    rw [hnear]
    exact max_eq_left hn
  rw [pllLoopBy]
  simp only [hmax]

/-! ## The loop -/

/-- The cells of the gaps are appended, or the buffer is full. -/
structure Appends (gaps : List Nat) (bb : BitBuf) (r : Except FluxError BitBuf) : Prop where
  fits : bb.n + gaps.sum ≤ kMaxBits → ∃ bb', r = .ok bb' ∧ bb'.cells = bb.cells ++ gaps.flatMap intervalCells
  full : kMaxBits < bb.n + gaps.sum → r = .error .tooLong

theorem Appends.nil (bb : BitBuf) : Appends [] bb (.ok bb) where
  fits _ := ⟨bb, rfl, (List.append_nil _).symm⟩
  full hfull := absurd bb.bounded (Nat.not_le.mpr hfull)

theorem Appends.cons {gap : Nat} {gaps : List Nat} {bb : BitBuf} (hgap : 0 < gap) (hclear : bb.Clear)
    {rest : BitBuf → Except FluxError BitBuf} (hrest : ∀ bb', bb'.Clear → Appends gaps bb' (rest bb')) :
    Appends (gap :: gaps) bb (if h : bb.n + gap ≤ kMaxBits then rest (bb.transition gap h) else .error .tooLong) := by
  by_cases hroom : bb.n + gap ≤ kMaxBits
  · have hnext := hrest (bb.transition gap hroom) (BitBuf.transition_clear hroom hgap hclear)
    have hn : (bb.transition gap hroom).n = bb.n + gap := rfl
    rw [dif_pos hroom]
    refine ⟨fun hfits => ?_, fun hfull => ?_⟩
    · rw [List.sum_cons] at hfits
      obtain ⟨bb', hrun, hcells⟩ := hnext.fits (by rw [hn]; omega)
      refine ⟨bb', hrun, ?_⟩
      rw [hcells, BitBuf.transition_cells hroom hgap hclear, List.flatMap_cons, List.append_assoc]
    · rw [List.sum_cons] at hfull
      exact hnext.full (by rw [hn]; omega)
  · rw [dif_neg hroom]
    refine ⟨fun hfits => ?_, fun _ => rfl⟩
    rw [List.sum_cons] at hfits
    omega

/-- **A clock near the nominal cell stays near it**, and counts every legal gap as itself. -/
theorem pllLoopBy_legal {lo hi clock : ℚ} (hlo : lo ≤ 79) (hhi : 80 ≤ hi) (hslow : 79 ≤ clock) (hfast : clock ≤ 80)
    {gaps : List Nat} (hgaps : ∀ gap ∈ gaps, 2 ≤ gap ∧ gap ≤ 4) {bb : BitBuf} (hclear : bb.Clear) :
    Appends gaps bb (pllLoopBy id lo hi clock (gaps.map fun gap => spelled (gap * kTicksPerCell)) bb) := by
  induction gaps generalizing clock bb with
  | nil => exact Appends.nil bb
  | cons gap gaps ih =>
    obtain ⟨htwo, hfour⟩ := hgaps gap List.mem_cons_self
    have hpos : 0 < gap := by omega
    have hexact : spelled (gap * kTicksPerCell) = 80 * gap := by
      rcases spelled_cases hpos with h | h
      · exact h
      · omega
    have hfourq : (gap : ℚ) ≤ 4 := by exact_mod_cast hfour
    have htwoq : (2 : ℚ) ≤ gap := by exact_mod_cast htwo
    have hnear : nearestCellsBy id (80 * gap) clock = gap := by
      apply nearestCellsBy_id (by linarith)
      · push_cast
        nlinarith
      · push_cast
        nlinarith
    -- the error of the clock shrinks by 2 %
    have hnext : nextClockBy id clock (80 * gap) gap = clock + (80 - clock) * (2 / 100) := by
      have hne : (gap : ℚ) ≠ 0 := by linarith
      rw [nextClockBy_id hpos]
      push_cast
      rw [mul_div_cancel_right₀ 80 hne]
    rw [List.map_cons, hexact, pllLoopBy_cons _ _ hpos hnear, hnext]
    apply Appends.cons hpos hclear
    intro bb' hclear'
    rw [clampTo_self (by linarith) (by linarith)]
    exact ih (by linarith) (by linarith) (fun g hg => hgaps g (List.mem_cons_of_mem gap hg)) hclear'

theorem pllLoopBy_first {lo hi : ℚ} (hlo : lo ≤ 79) (hhi : 80 ≤ hi) {gaps : List Nat} (hpos : ∀ gap ∈ gaps, 0 < gap)
    (hgaps : ∀ gap ∈ gaps.tail, 2 ≤ gap ∧ gap ≤ 4) {bb : BitBuf} (hclear : bb.Clear) :
    Appends gaps bb (pllLoopBy id lo hi 80 (gaps.map fun gap => spelled (gap * kTicksPerCell)) bb) := by
  cases gaps with
  | nil => exact Appends.nil bb
  | cons gap gaps =>
    have hgap : 0 < gap := hpos gap List.mem_cons_self
    have hgapq : (1 : ℚ) ≤ gap := by exact_mod_cast hgap
    -- One gap of whole ticks leaves the clock between 79 and 80.
    have hnext : 79 ≤ nextClockBy id 80 (spelled (gap * kTicksPerCell)) gap ∧
        nextClockBy id 80 (spelled (gap * kTicksPerCell)) gap ≤ 80 := by
      have hper : (79 : ℚ) ≤ (spelled (gap * kTicksPerCell) : ℚ) / gap ∧ (spelled (gap * kTicksPerCell) : ℚ) / gap ≤ 80 := by
        rw [le_div_iff₀ (by linarith), div_le_iff₀ (by linarith)]
        rcases spelled_cases hgap with h | h
        · rw [h]
          push_cast
          constructor <;> linarith
        · have hcast : (spelled (gap * kTicksPerCell) : ℚ) + 1 = 80 * gap := by exact_mod_cast h.2
          constructor <;> linarith
      rw [nextClockBy_id hgap]
      constructor
      · linarith [hper.1]
      · linarith [hper.2]
    rw [List.map_cons, pllLoopBy_cons _ _ hgap (nearestCellsBy_spelled hgap)]
    -- From here on every gap is a legal one.
    apply Appends.cons hgap hclear
    intro bb' hclear'
    rw [clampTo_self (by linarith [hnext.1]) (by linarith [hnext.2])]
    exact pllLoopBy_legal hlo hhi hnext.1 hnext.2 hgaps hclear'

/-! ## The round trip -/

/-- Legal MFM: one to three clear cells between two transitions. -/
def LegalRuns (cells : List Bool) : Prop := ∀ gap ∈ (fluxGaps 0 cells).tail, 2 ≤ gap ∧ gap ≤ 4

instance legalRunsDecidable (cells : List Bool) : Decidable (LegalRuns cells) :=
  inferInstanceAs (Decidable (∀ gap ∈ (fluxGaps 0 cells).tail, 2 ≤ gap ∧ gap ≤ 4))

/-- The cells up to the last transition. -/
def cellsToLast (cells : List Bool) : Nat := (fluxGaps 0 cells).sum

theorem exactPll_appends {rev : MfmRev} (hlegal : LegalRuns rev.cells)
    (hlt : ∀ gap ∈ fluxGaps 0 rev.cells, gap * kTicksPerCell < 2 ^ 32) :
    Appends (fluxGaps 0 rev.cells) BitBuf.empty (exactPll (pushFluxRev rev) kTicksPerCell BitBuf.empty) := by
  have hpos := fluxGaps_pos 0 rev.cells
  have hnominal : ((kTicksPerCell : Nat) : ℚ) = 80 := by norm_num [kTicksPerCell]
  rw [exactPll, pllDecodeBy, pushFluxRev, fluxIntervals_gaps hpos hlt, hnominal, estimateCellBy_spelled hpos]
  exact pllLoopBy_first (by norm_num) (by norm_num) hpos hlegal BitBuf.empty_clear

theorem gap_lt {rev : MfmRev} (hduration : rev.nbits * kTicksPerCell < 2 ^ 32) :
    ∀ gap ∈ fluxGaps 0 rev.cells, gap * kTicksPerCell < 2 ^ 32 := by
  intro gap hgap
  have hle := fluxGaps_le 0 rev.cells gap hgap
  rw [MfmRev.cells_length, Nat.zero_add] at hle
  exact Nat.lt_of_le_of_lt (Nat.mul_le_mul_right _ hle) hduration

theorem cellsToLast_eq (cells : List Bool) : BitBuf.empty.n + (fluxGaps 0 cells).sum = cellsToLast cells := Nat.zero_add _

/-- **The emitted flux of a legal track decodes to its cells**, up to the last transition; where these are more than the
    buffer holds, the decoder says so. -/
theorem exactPll_pushFluxRev (rev : MfmRev) (hlegal : LegalRuns rev.cells) :
    (cellsToLast rev.cells ≤ kMaxBits →
      ∃ bb k, exactPll (pushFluxRev rev) kTicksPerCell BitBuf.empty = .ok bb ∧
        rev.cells = bb.cells ++ List.replicate k false) ∧
    (kMaxBits < cellsToLast rev.cells → rev.nbits * kTicksPerCell < 2 ^ 32 →
      exactPll (pushFluxRev rev) kTicksPerCell BitBuf.empty = .error .tooLong) := by
  refine ⟨fun hfits => ?_, fun hfull hduration => ?_⟩
  · have hlt : ∀ gap ∈ fluxGaps 0 rev.cells, gap * kTicksPerCell < 2 ^ 32 := by
      intro gap hgap
      have hle : gap ≤ kMaxBits := Nat.le_trans (List.le_sum_of_mem hgap) hfits
      exact Nat.lt_of_le_of_lt (Nat.mul_le_mul_right _ hle) (by decide)
    obtain ⟨bb, hrun, hcells⟩ := (exactPll_appends hlegal hlt).fits (cellsToLast_eq rev.cells ▸ hfits)
    obtain ⟨k, hk⟩ := cells_of_fluxGaps 0 rev.cells
    have hempty : BitBuf.empty.cells = [] := rfl
    refine ⟨bb, k, hrun, ?_⟩
    rw [hcells, hempty, List.nil_append]
    exact hk
  · exact (exactPll_appends hlegal (gap_lt hduration)).full (cellsToLast_eq rev.cells ▸ hfull)

/-- A transition in every other cell. -/
theorem exactPll_short : ∃ bb k, exactPll (pushFluxRev ⟨[0x55], 8, Nat.le_refl _⟩) kTicksPerCell BitBuf.empty = .ok bb ∧
    MfmRev.cells ⟨[0x55], 8, Nat.le_refl _⟩ = bb.cells ++ List.replicate k false :=
  (exactPll_pushFluxRev ⟨[0x55], 8, Nat.le_refl _⟩ (by decide)).1 (by decide)

/-! ## A track beyond the buffer -/

/-- 262152 cells, every other one a transition. -/
def longTrack : MfmRev where
  bits := List.replicate 32769 0x55
  nbits := 8 * 32769
  covered := Nat.le_of_eq (by rw [List.length_replicate])

theorem bitAt_longTrack {i : Nat} (hi : i < 8 * 32769) : bitAt longTrack.bits i = decide (i % 2 = 1) := by
  have hbit : ∀ k < 8, byteBit 0x55 k = decide (k % 2 = 1) := by decide
  have hbyte : longTrack.bits.getD (i / 8) 0 = 0x55 := by
    rw [longTrack, List.getD_eq_getElem?_getD, List.getElem?_replicate, if_pos (by omega)]
    rfl
  rw [bitAt, hbyte, hbit _ (Nat.mod_lt _ (by decide)), Nat.mod_mod_of_dvd _ (by decide)]

theorem trailGap_append (gap : Nat) (a b : List Bool) : trailGap gap (a ++ b) = trailGap (trailGap gap a) b := by
  induction a generalizing gap with
  | nil => rfl
  | cons x a ih =>
    cases x with
    | false => exact ih (gap + 1)
    | true => exact ih 0

theorem fluxGaps_longTrack {m : Nat} (hm : 2 * m ≤ 8 * 32769) :
    fluxGaps 0 (unpack longTrack.bits (2 * m)) = List.replicate m 2 ∧ trailGap 0 (unpack longTrack.bits (2 * m)) = 0 := by
  induction m with
  | zero => exact ⟨rfl, rfl⟩
  | succ m ih =>
    obtain ⟨hgaps, htrail⟩ := ih (by omega)
    have hpair : unpack longTrack.bits (2 * (m + 1)) = unpack longTrack.bits (2 * m) ++ [false, true] := by
      rw [Nat.mul_succ, unpack_succ, unpack_succ, bitAt_longTrack (by omega), bitAt_longTrack (by omega), List.append_assoc,
        decide_eq_false (by omega), decide_eq_true (by omega)]
      rfl
    rw [hpair, fluxGaps_append, hgaps, htrail, trailGap_append, htrail, List.replicate_succ']
    exact ⟨rfl, rfl⟩

theorem replicate_two_gaps {gaps : List Nat} {m : Nat} (hgaps : gaps = List.replicate m 2) :
    (∀ gap ∈ gaps.tail, 2 ≤ gap ∧ gap ≤ 4) ∧ gaps.sum = m * 2 := by
  constructor
  · intro gap hgap
    rw [hgaps] at hgap
    rw [List.eq_of_mem_replicate (List.mem_of_mem_tail hgap)]
    decide
  · rw [hgaps, List.sum_replicate_nat]

theorem full_of_replicate {gaps : List Nat} {m : Nat} (hgaps : gaps = List.replicate m 2) (hcells : kMaxBits < m * 2) :
    kMaxBits < BitBuf.empty.n + gaps.sum := by
  have hempty : BitBuf.empty.n = 0 := rfl
  rw [hempty, Nat.zero_add, (replicate_two_gaps hgaps).2]
  exact hcells

/-- It is legal, and does not decode. -/
theorem longTrack_tooLong : LegalRuns longTrack.cells ∧
    ¬ ∃ bb k, exactPll (pushFluxRev longTrack) kTicksPerCell BitBuf.empty = .ok bb ∧
      longTrack.cells = bb.cells ++ List.replicate k false := by
  have hgaps : fluxGaps 0 longTrack.cells = List.replicate 131076 2 :=
    (@fluxGaps_longTrack 131076 (by decide)).1
  have hlegal : LegalRuns longTrack.cells := (replicate_two_gaps hgaps).1
  have hfull := full_of_replicate hgaps (by decide)
  have hduration : longTrack.nbits * kTicksPerCell < 2 ^ 32 := by
    have hticks : 262152 * 80 < 2 ^ 32 := by decide
    exact hticks
  have herror := (exactPll_appends hlegal (gap_lt hduration)).full hfull
  refine ⟨hlegal, ?_⟩
  rintro ⟨bb, k, hrun, -⟩
  rw [herror] at hrun
  cases hrun

end Koncepcja.Disk
