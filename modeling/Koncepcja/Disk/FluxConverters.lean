import Koncepcja.Disk.FluxRecover
import Mathlib.Data.Bool.AllAny

/-!
# The Flux Converters

Three converters write SCP flux words from intervals: `src/kryoflux_stream.cpp` and `src/hw/a2r.cpp`
with one loop, `src/ipf.cpp` with another that looks out for exact multiples of 65536. The SCP reader
takes a zero word for 65536 ticks that belong to the next word.

## Main definitions

- `emitFluxWords`, `emitRev`: the KryoFlux and the A2R emitter; the IPF emitter is `pushFluxRev`.
- `readWords`: the reader on the bytes of an emitter.
- `Faithful`: the three emitters keep the transitions of an interval list and their times.

## Main results

- `emitRev_intervals`: the A2R emitter writes the words of the intervals of one revolution.
- `readWords_fluxWords`: what the IPF emitter writes reads back, a tick less for an exact multiple.
- `faithful_iff`: the converters are faithful exactly where no interval is an exact multiple.
-/

namespace Koncepcja.Disk

open Koncepcja.Bits Koncepcja.Bytes

set_option maxRecDepth 20000

/-! ## The emitters -/

/-- The loop of the KryoFlux and the A2R emitter: carries while the interval is above 0xFFFF, and the rest. -/
def carryWords (x : Nat) : List Nat := if x ≤ 0xFFFF then [x] else 0 :: carryWords (x - 0x10000)

def emitFluxWords (ivs : List UInt32) : List Nat :=
  ivs.flatMap fun iv => carryWords (if iv ≠ 0 then iv.toNat else 1)

/-- The loop of `emit_rev`: the words, and the ticks counted for them. The count takes what the carries
    have left of an interval. -/
def emitRevFrom (indexTicks : Nat) : Nat → Nat → List UInt8 → List Nat × Nat
  | _, cum, [] => ([], cum)
  | acc, cum, f :: flux =>
    let acc := (acc + f.toNat) % 2 ^ 32
    if f = 0xFF then emitRevFrom indexTicks acc cum flux
    else if indexTicks ≠ 0 ∧ cum ≥ indexTicks then ([], cum)
    else
      let iv := if acc ≠ 0 then acc else 1
      let rest := emitRevFrom indexTicks 0 ((cum + iv % 0x10000) % 2 ^ 32) flux
      (carryWords iv ++ rest.1, rest.2)

/-- `emit_rev`: the words of one revolution and its index time. -/
def emitRev (flux : List UInt8) (indexTicks : Nat) : List Nat × Nat :=
  let rev := emitRevFrom indexTicks 0 0 flux
  (rev.1, if indexTicks ≠ 0 then indexTicks else rev.2)

/-- The A2R bytes of an interval: a byte 0xFF counts 255 ticks and no transition. -/
def fluxBytes (iv : Nat) : List UInt8 := List.replicate (iv / 255) 0xFF ++ [UInt8.ofNat (iv % 255)]

/-! ## The reader -/

/-- What the reader makes of emitted words: their bytes, big end first, then the intervals. -/
def readWords (words : List Nat) : List Nat := fluxIntervals 0 (be16Words (words.flatMap be16))

theorem fluxIntervals_length (carry : Nat) (words : List Nat) :
    (fluxIntervals carry words).length = words.countP (· ≠ 0) := by
  induction words generalizing carry with
  | nil => rfl
  | cons w words ih =>
    rw [fluxIntervals]
    by_cases hw : w = 0
    · rw [if_pos hw, ih, List.countP_cons_of_neg (by simp [hw])]
    · rw [if_neg hw, List.length_cons, ih, List.countP_cons_of_pos (by simp [hw])]

theorem carryWords_lt (x : Nat) : ∀ w ∈ carryWords x, w < 0x10000 := by
  induction x using carryWords.induct with
  | case1 x h =>
    rw [carryWords, if_pos h]
    simpa using Nat.lt_succ_of_le h
  | case2 x h ih =>
    rw [carryWords, if_neg h]
    intro w hw
    rcases List.mem_cons.mp hw with rfl | hw
    · decide
    · exact ih w hw

theorem carryWords_eq_fluxWords {x : Nat} (h : x % 0x10000 ≠ 0) : carryWords x = fluxWords x := by
  induction x using carryWords.induct with
  | case1 x hle => rw [carryWords, if_pos hle, fluxWords, if_pos (by omega)]
  | case2 x hgt ih =>
    have hne : x ≠ 0x10000 := by
      rintro rfl
      exact h (Nat.mod_self _)
    rw [carryWords, if_neg hgt, fluxWords, if_neg (by omega), if_neg hne, ih (by omega)]

theorem carryWords_countP (x : Nat) : (carryWords x).countP (· ≠ 0) = if x % 0x10000 = 0 then 0 else 1 := by
  induction x using carryWords.induct with
  | case1 x h =>
    rw [carryWords, if_pos h, List.countP_singleton, Nat.mod_eq_of_lt (by omega)]
    by_cases hx : x = 0 <;> simp [hx]
  | case2 x h ih =>
    have hmod : (x - 0x10000) % 0x10000 = x % 0x10000 := by omega
    rw [carryWords, if_neg h, List.countP_cons_of_neg (by simp), ih, hmod]

theorem fluxIntervals_fluxWords_multiple {t carry : Nat} (rest : List Nat) (hsum : carry + t < 2 ^ 32) (hpos : 0 < t)
    (hmod : t % 0x10000 = 0) : fluxIntervals carry (fluxWords t ++ rest) = (carry + (t - 1)) :: fluxIntervals 0 rest := by
  induction t using fluxWords.induct generalizing carry with
  | case1 t hlt =>
    rw [Nat.mod_eq_of_lt hlt] at hmod
    exact absurd hmod (Nat.ne_of_gt hpos)
  | case2 =>
    rw [fluxWords, if_neg (by decide), if_pos rfl, List.singleton_append, fluxIntervals, if_neg (by decide)]
  | case3 t hge hne ih =>
    have hcarry : (carry + 0x10000) % 2 ^ 32 = carry + 0x10000 := Nat.mod_eq_of_lt (by omega)
    have htotal : carry + 0x10000 + (t - 0x10000 - 1) = carry + (t - 1) := by omega
    rw [fluxWords, if_neg hge, if_neg hne, List.cons_append, fluxIntervals, if_pos rfl, hcarry,
      ih (by omega) (by omega) (by omega), htotal]

/-- What an interval of the IPF emitter reads back as. -/
def shaved (t : Nat) : Nat := if t % 0x10000 = 0 then t - 1 else t

theorem fluxIntervals_fluxWords_shaved {t : Nat} (rest : List Nat) (hlt : t < 2 ^ 32) (hpos : 0 < t) :
    fluxIntervals 0 (fluxWords t ++ rest) = shaved t :: fluxIntervals 0 rest := by
  by_cases hmod : t % 0x10000 = 0
  · rw [fluxIntervals_fluxWords_multiple rest (by omega) hpos hmod, shaved, if_pos hmod, Nat.zero_add]
  · rw [fluxIntervals_fluxWords rest (by omega) hmod, shaved, if_neg hmod, Nat.zero_add]

/-! ## The A2R bytes -/

theorem emitRevFrom_fluxBytes (indexTicks : Nat) {iv acc cum : Nat} (flux : List UInt8) (hlt : acc + iv < 2 ^ 32) (hpos : 0 < acc + iv)
    (hcut : ¬ (indexTicks ≠ 0 ∧ cum ≥ indexTicks)) :
    emitRevFrom indexTicks acc cum (fluxBytes iv ++ flux) =
      (carryWords (acc + iv) ++
          (emitRevFrom indexTicks 0 ((cum + (acc + iv) % 0x10000) % 2 ^ 32) flux).1,
        (emitRevFrom indexTicks 0 ((cum + (acc + iv) % 0x10000) % 2 ^ 32) flux).2) := by
  rw [fluxBytes]
  -- The induction is on the 255s that the interval is spelled with.
  induction hk : iv / 255 generalizing acc iv with
  | zero =>
    have hsmall : iv < 255 := by omega
    have hmod : iv % 255 = iv := Nat.mod_eq_of_lt hsmall
    have hbyte : (UInt8.ofNat iv).toNat = iv := by
      rw [UInt8.toNat_ofNat']
      omega
    have hne : UInt8.ofNat iv ≠ 0xFF := by
      intro h
      have := congrArg UInt8.toNat h
      rw [hbyte] at this
      exact absurd this (Nat.ne_of_lt hsmall)
    rw [List.replicate_zero, List.nil_append, List.singleton_append, hmod, emitRevFrom]
    dsimp only
    rw [if_neg hne, if_neg hcut, hbyte, Nat.mod_eq_of_lt hlt, if_pos (Nat.ne_of_gt hpos)]
  | succ k ih =>
    have hstep : (acc + (0xFF : UInt8).toNat) % 2 ^ 32 = acc + 255 := Nat.mod_eq_of_lt (by
      have : (0xFF : UInt8).toNat = 255 := rfl
      omega)
    have hrest := @ih (iv - 255) (acc + 255) (by omega) (by omega) (by omega)
    have hiv : (iv - 255) % 255 = iv % 255 := by omega
    have hsum : acc + 255 + (iv - 255) = acc + iv := by omega
    rw [hiv, hsum] at hrest
    rw [List.replicate_succ, List.cons_append, List.cons_append, emitRevFrom]
    dsimp only
    rw [if_pos rfl, hstep]
    exact hrest

theorem emitRevFrom_cut {indexTicks cum : Nat} (acc iv : Nat) (flux : List UInt8) (hcut : indexTicks ≠ 0 ∧ cum ≥ indexTicks) :
    emitRevFrom indexTicks acc cum (fluxBytes iv ++ flux) = ([], cum) := by
  have hne : UInt8.ofNat (iv % 255) ≠ 0xFF := by
    intro h
    have := congrArg UInt8.toNat h
    rw [UInt8.toNat_ofNat'] at this
    have h255 : (0xFF : UInt8).toNat = 255 := rfl
    omega
  rw [fluxBytes]
  generalize iv / 255 = k
  induction k generalizing acc with
  | zero =>
    rw [List.replicate_zero, List.nil_append, List.singleton_append, emitRevFrom]
    dsimp only
    rw [if_neg hne, if_pos hcut]
  | succ k ih =>
    rw [List.replicate_succ, List.cons_append, List.cons_append, emitRevFrom]
    dsimp only
    rw [if_pos rfl]
    exact ih _

theorem emitRevFrom_tail (indexTicks acc cum k : Nat) : emitRevFrom indexTicks acc cum (List.replicate k 0xFF) = ([], cum) := by
  induction k generalizing acc with
  | zero => rfl
  | succ k ih =>
    rw [List.replicate_succ, emitRevFrom]
    dsimp only
    rw [if_pos rfl]
    exact ih _

/-- The emitter writes the words of some of the intervals, from the first on, and of all if the revolution does not end
before them. -/
theorem emitRevFrom_intervals {indexTicks : Nat} {ivs : List Nat} (hivs : ∀ iv ∈ ivs, 0 < iv ∧ iv < 2 ^ 32) (cum k : Nat) :
    ∃ n, (emitRevFrom indexTicks 0 cum (ivs.flatMap fluxBytes ++ List.replicate k 0xFF)).1 =
        (ivs.take n).flatMap carryWords ∧
      (indexTicks = 0 ∨ cum + ivs.sum ≤ indexTicks → n = ivs.length) := by
  induction ivs generalizing cum with
  | nil =>
    rw [List.flatMap_nil, List.nil_append, emitRevFrom_tail]
    exact ⟨0, rfl, fun _ => rfl⟩
  | cons iv ivs ih =>
    obtain ⟨hpos, hlt⟩ := hivs iv List.mem_cons_self
    rw [List.flatMap_cons, List.append_assoc]
    -- Once the sum is past the index time, nothing more of the revolution is written.
    by_cases hcut : indexTicks ≠ 0 ∧ cum ≥ indexTicks
    · rw [emitRevFrom_cut 0 iv _ hcut]
      refine ⟨0, rfl, fun hwhole => absurd hwhole ?_⟩
      rw [List.sum_cons]
      omega
    · obtain ⟨n, hwords, hwhole⟩ := ih (fun x hx => hivs x (List.mem_cons_of_mem _ hx))
        ((cum + (0 + iv) % 0x10000) % 2 ^ 32)
      rw [emitRevFrom_fluxBytes indexTicks _ (by omega) (by omega) hcut, hwords]
      refine ⟨n + 1, ?_, fun hall => ?_⟩
      · rw [List.take_succ_cons, List.flatMap_cons, Nat.zero_add]
      · rw [List.length_cons, hwhole]
        rw [List.sum_cons] at hall
        rcases hall with hall | hall
        · exact .inl hall
        · refine .inr (Nat.le_trans ?_ hall)
          -- The 32-bit sum may wrap, which only makes it smaller.
          have hmod : (cum + (0 + iv) % 0x10000) % 2 ^ 32 ≤ cum + (0 + iv) % 0x10000 := Nat.mod_le _ _
          have hlow : (0 + iv) % 0x10000 ≤ 0 + iv := Nat.mod_le _ _
          omega

theorem emitRev_intervals {ivs : List Nat} (hivs : ∀ iv ∈ ivs, 0 < iv ∧ iv < 2 ^ 32) (indexTicks k : Nat) :
    ∃ n, (emitRev (ivs.flatMap fluxBytes ++ List.replicate k 0xFF) indexTicks).1 = (ivs.take n).flatMap carryWords ∧
      (indexTicks = 0 ∨ ivs.sum ≤ indexTicks → n = ivs.length) := by
  obtain ⟨n, hwords, hwhole⟩ := @emitRevFrom_intervals indexTicks _ hivs 0 k
  rw [Nat.zero_add] at hwhole
  exact ⟨n, hwords, hwhole⟩

/-! ## Faithfulness -/

/-- The same number of transitions at the same cumulative times. -/
structure SameTimes (ts ivs : List Nat) : Prop where
  count : ts.length = ivs.length
  times : ∀ n, (ts.take n).sum = (ivs.take n).sum

theorem SameTimes.refl (ivs : List Nat) : SameTimes ivs ivs := ⟨rfl, fun _ => rfl⟩

/-- The same number of transitions at the same cumulative times, less a tick for each exact multiple of 65536. -/
structure ShavedTimes (ts ivs : List Nat) : Prop where
  count : ts.length = ivs.length
  times : ∀ n, (ts.take n).sum + (ivs.take n).countP (· % 0x10000 = 0) = (ivs.take n).sum

/-- The ticks of an interval list. -/
def ticks (ivs : List UInt32) : List Nat := ivs.map UInt32.toNat

/-- What the three emitters write of an interval list reads back as that list. -/
structure Faithful (ivs : List UInt32) : Prop where
  kryoFlux : SameTimes (readWords (emitFluxWords ivs)) (ticks ivs)
  a2r : ∀ (indexTicks : UInt32) (k : Nat), indexTicks = 0 ∨ (ticks ivs).sum ≤ indexTicks.toNat →
    SameTimes (readWords (emitRev ((ticks ivs).flatMap fluxBytes ++ List.replicate k 0xFF) indexTicks.toNat).1) (ticks ivs)
  /-- A revolution that ends before the last transition is cut there. -/
  a2rCut : ∀ (indexTicks : UInt32) (k : Nat), ∃ n,
    SameTimes (readWords (emitRev ((ticks ivs).flatMap fluxBytes ++ List.replicate k 0xFF) indexTicks.toNat).1)
      ((ticks ivs).take n)
  ipf : ∀ rev : MfmRev, (fluxGaps 0 rev.cells).map (· * kTicksPerCell) = ticks ivs →
    ShavedTimes (readWords (pushFluxRev rev)) (ticks ivs)

theorem readWords_eq {words : List Nat} (h : ∀ w ∈ words, w < 0x10000) : readWords words = fluxIntervals 0 words := by
  rw [readWords, be16Words_be16 h]

/-- Any intervals the IPF loop writes read back, an exact multiple a tick short. -/
theorem readWords_fluxWords {ts : List Nat} (h : ∀ t ∈ ts, 0 < t ∧ t < 2 ^ 32) :
    readWords (ts.flatMap fluxWords) = ts.map shaved := by
  rw [readWords_eq fun w hw => by
    obtain ⟨t, -, ht⟩ := List.mem_flatMap.mp hw
    exact fluxWords_lt t w ht]
  induction ts with
  | nil => rfl
  | cons t ts ih =>
    obtain ⟨hpos, hlt⟩ := h t List.mem_cons_self
    rw [List.flatMap_cons, fluxIntervals_fluxWords_shaved _ hlt hpos, ih fun x hx => h x (List.mem_cons_of_mem _ hx),
      List.map_cons]

theorem readWords_carryWords {ts : List Nat} (h : ∀ t ∈ ts, 0 < t ∧ t < 2 ^ 32) (hmod : ∀ t ∈ ts, t % 0x10000 ≠ 0) :
    readWords (ts.flatMap carryWords) = ts := by
  have hwords : ts.flatMap carryWords = ts.flatMap fluxWords :=
    List.flatMap_congr fun t ht => carryWords_eq_fluxWords (hmod t ht)
  have hshaved : ts.map shaved = ts := by
    conv_rhs => rw [← List.map_id ts]
    exact List.map_congr_left fun t ht => if_neg (hmod t ht)
  rw [hwords, readWords_fluxWords h, hshaved]

theorem readWords_carryWords_length (ts : List Nat) :
    (readWords (ts.flatMap carryWords)).length = ts.countP (· % 0x10000 ≠ 0) := by
  rw [readWords_eq fun w hw => by
    obtain ⟨t, -, ht⟩ := List.mem_flatMap.mp hw
    exact carryWords_lt t w ht, fluxIntervals_length]
  induction ts with
  | nil => rfl
  | cons t ts ih =>
    rw [List.flatMap_cons, List.countP_append, carryWords_countP, ih, List.countP_cons]
    by_cases hmod : t % 0x10000 = 0 <;> simp [hmod, Nat.add_comm]

theorem shavedTimes_map (ts : List Nat) (h : ∀ t ∈ ts, 0 < t) : ShavedTimes (ts.map shaved) ts := by
  refine ⟨List.length_map _, fun n => ?_⟩
  rw [← List.map_take]
  have htake : ∀ t ∈ ts.take n, 0 < t := fun t ht => h t (List.mem_of_mem_take ht)
  generalize ts.take n = ts at htake
  induction ts with
  | nil => rfl
  | cons t ts ih =>
    have hpos := htake t List.mem_cons_self
    have hrest := ih fun x hx => htake x (List.mem_cons_of_mem _ hx)
    rw [List.map_cons, List.sum_cons, List.sum_cons, List.countP_cons, shaved]
    by_cases hmod : t % 0x10000 = 0
    · simp only [hmod, if_true, decide_true]
      omega
    · simp only [hmod, if_false, decide_false, Bool.false_eq_true]
      omega

theorem emitFluxWords_eq {ivs : List UInt32} (hpos : ∀ iv ∈ ivs, 0 < iv) : emitFluxWords ivs = (ticks ivs).flatMap carryWords := by
  rw [ticks, List.flatMap_map, emitFluxWords]
  refine List.flatMap_congr fun iv hiv => ?_
  rw [if_pos (UInt32.pos_iff_ne_zero.mp (hpos iv hiv))]

theorem ticks_bounds {ivs : List UInt32} (hpos : ∀ iv ∈ ivs, 0 < iv) : ∀ t ∈ ticks ivs, 0 < t ∧ t < 2 ^ 32 := by
  intro t ht
  obtain ⟨iv, hiv, rfl⟩ := List.mem_map.mp ht
  exact ⟨UInt32.lt_iff_toNat_lt.mp (hpos iv hiv), iv.toNat_lt⟩

/-- The three converters keep the transitions of an interval list and their times exactly when none of the intervals is a
multiple of 65536. -/
theorem faithful_iff (ivs : List UInt32) (hpos : ∀ iv ∈ ivs, 0 < iv) : Faithful ivs ↔ ∀ iv ∈ ivs, iv % 0x10000 ≠ 0 := by
  have hmods : (∀ iv ∈ ivs, iv % 0x10000 ≠ 0) ↔ ∀ t ∈ ticks ivs, t % 0x10000 ≠ 0 := by
    rw [ticks, List.forall_mem_map]
    refine forall₂_congr fun iv _ => not_congr ?_
    rw [← UInt32.toNat_inj, UInt32.toNat_mod]
    rfl
  have hbounds := ticks_bounds hpos
  rw [hmods]
  constructor
  · -- A multiple of 0x10000 is written as zero words only, and the count of the readings tells.
    intro h
    have hcount := h.kryoFlux.count
    rw [emitFluxWords_eq hpos, readWords_carryWords_length] at hcount
    simpa using List.countP_eq_length.mp hcount
  · intro hmod
    -- The four converters: the stream, a whole capture, a cut one, and an encoded track.
    refine ⟨?_, fun indexTicks k hwhole => ?_, fun indexTicks k => ?_, fun rev hrev => ?_⟩
    · rw [emitFluxWords_eq hpos, readWords_carryWords hbounds hmod]
      exact .refl _
    · obtain ⟨n, hwords, hall⟩ := emitRev_intervals hbounds indexTicks.toNat k
      have hn : n = (ticks ivs).length := hall (hwhole.imp_left fun h0 => by rw [h0]; rfl)
      rw [hwords, hn, List.take_length, readWords_carryWords hbounds hmod]
      exact .refl _
    · obtain ⟨n, hwords, -⟩ := emitRev_intervals hbounds indexTicks.toNat k
      refine ⟨n, ?_⟩
      rw [hwords, readWords_carryWords (fun t ht => hbounds t (List.mem_of_mem_take ht))
        (fun t ht => hmod t (List.mem_of_mem_take ht))]
      exact .refl _
    · have hgaps : pushFluxRev rev = (ticks ivs).flatMap fluxWords := by
        rw [pushFluxRev, ← hrev, List.flatMap_map]
        refine List.flatMap_congr fun gap hgap => ?_
        rw [Nat.mod_eq_of_lt (hbounds _ (hrev ▸ List.mem_map_of_mem hgap)).2]
      rw [hgaps, readWords_fluxWords hbounds]
      exact shavedTimes_map _ fun t ht => (hbounds t ht).1

theorem faithful_small_and_carried : Faithful [100, 70000] :=
  (faithful_iff [100, 70000] (List.all_iff_forall_prop.mp (by decide))).mpr (List.all_iff_forall_prop.mp (by decide))

/-- A gap of 65536 ticks before one of 100: two transitions become one, 131172 ticks in. -/
theorem multiple_merges_transitions :
    readWords (emitFluxWords [0x10000, 100]) = [131172] ∧
      readWords (emitRev ([0x10000, 100].flatMap fluxBytes) 0).1 = [131172] ∧ ¬ Faithful [0x10000, 100] := by
  have hkryo : readWords (emitFluxWords [0x10000, 100]) = [131172] := by with_unfolding_all decide
  have ha2r : readWords (emitRev ([0x10000, 100].flatMap fluxBytes) 0).1 = [131172] := by with_unfolding_all decide
  refine ⟨hkryo, ha2r, fun h => ?_⟩
  have hcount := h.kryoFlux.count
  rw [hkryo] at hcount
  exact absurd hcount (by decide)

end Koncepcja.Disk
