import Koncepcja.Disk.KryoFluxScan

/-!
# The Revolutions of a KryoFlux Stream

A revolution is what lies between two indices, on a clock that starts at the first of them: its words are the
differences of rounded times, so that they add up to the time of a transition whatever was rounded on the way. Only a
transition that rounds to the time of the one ahead of it is put one tick later.

## Main definitions

- `fluxTime`, `indexTime`: the time of a transition, and that of an index pulse.
- `RevOf`: a revolution is the one between two indices.

## Main results

- `ticks25ns_mono`: the conversion of times is monotone.
- `decodeStream_revolutions`: the revolutions of a stream of blocks.
-/

namespace Koncepcja.Disk.KryoFlux

open Koncepcja.Binary64 Koncepcja.Bytes

/-! ## Times -/

/-- The time of the transition ahead of which there are `k - 1` others, in ticks of the sample clock. -/
def fluxTime (flux : List Transition) (k : Nat) : Nat := ((flux.take k).map Transition.interval).sum

/-- The transitions ahead of a position of the stream. -/
def ahead (flux : List Transition) (sp : Nat) : Nat := flux.countP fun t => decide (t.pos < sp)

/-- An index pulse comes `sampleCounter` ticks behind the last transition ahead of it. -/
def indexTime (flux : List Transition) (ir : IndexRec) : Nat :=
  fluxTime flux (ahead flux ir.streamPos) + ir.sampleCounter

/-- The time from an index to the `j`th transition behind it, in ticks of 25 ns. -/
def elapsed (sckHz : ℚ) (flux : List Transition) (a : IndexRec) (j : Nat) : Nat :=
  ticks25ns sckHz (fluxTime flux (ahead flux a.streamPos + j) - indexTime flux a)

/-- The transitions up to the `j`th that round to the time of the one ahead. -/
def stalls (e : Nat → Nat) (j : Nat) : Nat := (List.range j).countP fun i => decide (e (i + 1) = e i)

/-- The revolution from the index `a` to the index `b`. -/
structure RevOf (sckHz : ℚ) (flux : List Transition) (a b : IndexRec) (rev : Rev) : Prop where
  duration : rev.duration25ns = ticks25ns sckHz (indexTime flux b - indexTime flux a)
  transitions : rev.flux25ns.length = flux.countP fun t => decide (a.streamPos ≤ t.pos ∧ t.pos < b.streamPos)
  times : ∀ j ≤ rev.flux25ns.length,
    (rev.flux25ns.take j).sum = elapsed sckHz flux a j + stalls (elapsed sckHz flux a) j
  positive : ∀ w ∈ rev.flux25ns, 0 < w

/-- There is a transition between the indices, and the second comes later. -/
def Apart (flux : List Transition) (p : IndexRec × IndexRec) : Prop :=
  ahead flux p.1.streamPos < ahead flux p.2.streamPos ∧ indexTime flux p.1 < indexTime flux p.2

instance (flux : List Transition) : DecidablePred (Apart flux) := fun _ =>
  inferInstanceAs (Decidable (_ ∧ _))

/-- The times of the stream are below 2^32 ticks of 25 ns. -/
structure Fits (sckHz : ℚ) (flux : List Transition) (idx : List IndexRec) : Prop where
  last : ticks25ns sckHz (fluxTime flux flux.length) < 2 ^ 32
  pulses : ∀ ir ∈ idx, ticks25ns sckHz (indexTime flux ir) < 2 ^ 32

/-! ## The conversion -/

theorem defaultSckHz_pos : 0 < defaultSckHz := by
  have hle : ((1 : ℕ) : ℚ) ≤ rnd (24027428571428571 / 1000000000) := natCast_le_rnd (by norm_num) (by norm_num)
  exact lt_of_lt_of_le (by norm_num) hle

theorem ticks25ns_mono (sckHz : ℚ) {m n : Nat} (h : m ≤ n) : ticks25ns sckHz m ≤ ticks25ns sckHz n := by
  rw [ticks25ns, ticks25ns]
  have hclock : 0 ≤ if sckHz ≤ 0 then defaultSckHz else sckHz := by
    split
    · exact defaultSckHz_pos.le
    · next hpos => exact (not_le.mp hpos).le
  generalize (if sckHz ≤ 0 then defaultSckHz else sckHz) = hz at hclock ⊢
  have hm : (0 : ℚ) ≤ m := Nat.cast_nonneg m
  have hmul : rnd m * 40000000 ≤ rnd n * 40000000 :=
    mul_le_mul_of_nonneg_right (rnd_mono hm (Nat.cast_le.mpr h)) (by norm_num)
  have hmul₀ : 0 ≤ rnd m * 40000000 := mul_nonneg (rnd_nonneg hm) (by norm_num)
  have hdiv : rnd (rnd m * 40000000) / hz ≤ rnd (rnd n * 40000000) / hz :=
    div_le_div_of_nonneg_right (rnd_mono hmul₀ hmul) hclock
  have hdiv₀ : 0 ≤ rnd (rnd m * 40000000) / hz := div_nonneg (rnd_nonneg hmul₀) hclock
  have hhalf : 0 ≤ rnd (rnd (rnd m * 40000000) / hz) + 1 / 2 := add_nonneg (rnd_nonneg hdiv₀) (by norm_num)
  have hsum := rnd_mono hhalf (add_le_add_left (rnd_mono hdiv₀ hdiv) (1 / 2))
  exact Int.toNat_le_toNat (Int.floor_le_floor (by simpa [add_comm] using hsum))

theorem ticks25ns_zero (sckHz : ℚ) : ticks25ns sckHz 0 = 0 := by
  have hzero : rnd 0 = 0 := rnd_of_onGrid ⟨0, by simp⟩
  have hhalf : rnd (1 / 2) = 1 / 2 := by simpa using rnd_add_half (n := 0) (by norm_num)
  rw [ticks25ns]
  norm_num [hzero, hhalf]

/-! ## The bisection -/

variable {flux : List Transition}

theorem countP_of_sorted {α : Type} {p : α → Bool} {l : List α} (h : l.Pairwise fun a b => p b = true → p a = true)
    {k : Nat} (hk : k < l.length) : p l[k] = true ↔ k < l.countP p := by
  induction l generalizing k with
  | nil => exact absurd hk (Nat.not_lt_zero k)
  | cons a l ih =>
    obtain ⟨hhead, htail⟩ := List.pairwise_cons.mp h
    by_cases ha : p a = true
    · rw [List.countP_cons_of_pos ha]
      cases k with
      | zero => simp [ha]
      | succ k =>
        rw [List.getElem_cons_succ, ih htail (Nat.lt_of_succ_lt_succ hk)]
        omega
    · -- nothing behind an element that fails holds
      have hnone : ∀ b ∈ a :: l, ¬p b = true := by
        intro b hb
        rcases List.mem_cons.mp hb with rfl | hb
        · exact ha
        · exact fun hpb => ha (hhead b hb hpb)
      have hcount : (a :: l).countP p = 0 := List.countP_eq_zero.mpr hnone
      rw [hcount]
      exact ⟨fun hp => absurd hp (hnone _ (List.getElem_mem hk)), fun hlt => absurd hlt (Nat.not_lt_zero k)⟩

theorem lt_ahead_iff (hsorted : flux.Pairwise fun t u => t.pos < u.pos) (sp : Nat) {k : Nat} (hk : k < flux.length) :
    flux[k].pos < sp ↔ k < ahead flux sp := by
  have hmono : flux.Pairwise fun t u => decide (u.pos < sp) = true → decide (t.pos < sp) = true := by
    refine hsorted.imp fun h hu => ?_
    exact decide_eq_true (h.trans (of_decide_eq_true hu))
  have hcount := countP_of_sorted hmono hk
  rwa [decide_eq_true_eq] at hcount

theorem resolveIndex_eq (hsorted : flux.Pairwise fun t u => t.pos < u.pos) (sp : Nat) {lo hi : Nat}
    (hlo : lo ≤ ahead flux sp) (hhi : ahead flux sp ≤ hi) (hlen : hi ≤ flux.length) :
    resolveIndex flux.toArray sp lo hi = ahead flux sp := by
  have hmid : ∀ {lo hi : Nat}, lo < hi → hi ≤ flux.length →
      ((flux.toArray.getD (lo + (hi - lo) / 2) ⟨0, 0⟩).pos < sp ↔ lo + (hi - lo) / 2 < ahead flux sp) := by
    intro lo hi hlt hle
    have hk : lo + (hi - lo) / 2 < flux.length := by omega
    rw [← lt_ahead_iff hsorted sp hk, Array.getD_eq_getD_getElem?, List.getElem?_toArray, List.getElem?_eq_getElem hk]
    rfl
  fun_induction resolveIndex flux.toArray sp lo hi with
  | case1 lo hi hlt hbelow ih =>
    have hpos := (hmid hlt hlen).mp hbelow
    exact ih hpos hhi hlen
  | case2 lo hi hlt hbelow ih =>
    have hpos := mt (hmid hlt hlen).mpr hbelow
    exact ih hlo (by omega) (by omega)
  | case3 lo hi hge => omega

/-! ## The clock -/

theorem cumulative_getD {ivs : List Nat} {acc : Nat} (hfits : acc + ivs.sum < 2 ^ 64) {k : Nat} (hk : k < ivs.length) :
    (cumulative acc ivs).getD k 0 = acc + (ivs.take (k + 1)).sum := by
  induction ivs generalizing acc k with
  | nil => exact absurd hk (Nat.not_lt_zero k)
  | cons iv ivs ih =>
    rw [List.sum_cons] at hfits
    have hmod : (acc + iv) % 2 ^ 64 = acc + iv := Nat.mod_eq_of_lt (by omega)
    rw [cumulative, hmod]
    cases k with
    | zero => simp
    | succ k =>
      rw [List.getD_cons_succ, ih (by omega) (Nat.lt_of_succ_lt_succ hk), List.take_succ_cons, List.sum_cons, Nat.add_assoc]

theorem length_cumulative (acc : Nat) (ivs : List Nat) : (cumulative acc ivs).length = ivs.length := by
  induction ivs generalizing acc with
  | nil => rfl
  | cons iv ivs ih => rw [cumulative, List.length_cons, List.length_cons, ih]

theorem fluxTime_mono (flux : List Transition) {j k : Nat} (h : j ≤ k) : fluxTime flux j ≤ fluxTime flux k := by
  rw [fluxTime, fluxTime]
  have htake : flux.take j <+: flux.take k := List.take_prefix_take_left h
  exact (htake.sublist.map _).sum_le_sum (fun _ _ => Nat.zero_le _)

/-! ## A revolution -/

theorem stalls_succ (e : Nat → Nat) (j : Nat) :
    stalls e (j + 1) = (if e 1 = e 0 then 1 else 0) + stalls (fun i => e (i + 1)) j := by
  rw [stalls, stalls, List.range_succ_eq_map, List.countP_cons, List.countP_map, Nat.add_comm]
  simp only [Nat.zero_add, decide_eq_true_eq]
  rfl

/-- By induction on the transitions: the words up to one of them and the time that was reached ahead of them make up
    its time, but for the ticks that were added. -/
theorem revWords_times {sckHz : ℚ} {ia prev : Nat} {ts : List Nat} {e : Nat → Nat} (hprev : e 0 = prev)
    (htime : ∀ i < ts.length, kryofluxSckTo25ns sckHz (if ia ≤ ts.getD i 0 then ts.getD i 0 - ia else 0) = e (i + 1))
    (hmono : ∀ i < ts.length, e i ≤ e (i + 1)) :
    (revWords sckHz ia prev ts).length = ts.length ∧ (∀ w ∈ revWords sckHz ia prev ts, 0 < w) ∧
      ∀ j ≤ ts.length, prev + ((revWords sckHz ia prev ts).take j).sum = e j + stalls e j := by
  -- Along the pulses, with the time `e 0` that the word before ended at.
  induction ts generalizing prev e with
  | nil =>
    refine ⟨rfl, by simp [revWords], fun j hj => ?_⟩
    obtain rfl := Nat.le_zero.mp hj
    simp [stalls, hprev]
  | cons t ts ih =>
    have hfirst := htime 0 (Nat.succ_pos _)
    have hle := hmono 0 (Nat.succ_pos _)
    rw [List.getD_cons_zero] at hfirst
    obtain ⟨hlen, hpos, hsums⟩ := @ih (e 1) (fun i => e (i + 1)) rfl
      (fun i hi => htime (i + 1) (Nat.succ_lt_succ hi)) (fun i hi => hmono (i + 1) (Nat.succ_lt_succ hi))
    rw [revWords, hfirst]
    refine ⟨by rw [List.length_cons, List.length_cons, hlen], ?_, ?_⟩
    · intro w hw
      rcases List.mem_cons.mp hw with rfl | hw
      · split <;> omega
      · exact hpos w hw
    · intro j hj
      cases j with
      | zero => simp [stalls, hprev]
      | succ j =>
        have hj' := hsums j (Nat.le_of_succ_le_succ hj)
        rw [List.take_succ_cons, List.sum_cons, stalls_succ]
        simp only [Nat.zero_add] at hle hj' ⊢
        -- A pulse in the same tick as the one before becomes a word of one tick: one more stall.
        split <;> split <;> omega

theorem countP_between {a b : Nat} (h : a ≤ b) (flux : List Transition) :
    (flux.countP fun t => decide (a ≤ t.pos ∧ t.pos < b)) = ahead flux b - ahead flux a ∧ ahead flux a ≤ ahead flux b := by
  rw [ahead, ahead]
  induction flux with
  | nil => exact ⟨rfl, Nat.le_refl _⟩
  | cons t flux ih =>
    simp only [List.countP_cons, decide_eq_true_eq]
    split_ifs <;> omega

section Bound

variable {ir a b : IndexRec} {sckHz : ℚ}

/-- The transitions of a stream, in their order, with sums that are below 2^64. -/
structure InOrder (flux : List Transition) : Prop where
  sorted : flux.Pairwise fun t u => t.pos < u.pos
  clock : fluxTime flux flux.length + 2 ^ 32 ≤ 2 ^ 64

theorem ahead_le (flux : List Transition) (sp : Nat) : ahead flux sp ≤ flux.length := List.countP_le_length

theorem cumulative_fluxTime (h : InOrder flux) {k : Nat} (hk : k < flux.length) :
    (cumulative 0 (flux.map Transition.interval)).getD k 0 = fluxTime flux (k + 1) := by
  have hall : fluxTime flux flux.length = (flux.map Transition.interval).sum := by rw [fluxTime, List.take_length]
  have hclock := h.clock
  rw [cumulative_getD (by omega) (by rwa [List.length_map]), Nat.zero_add, fluxTime, List.map_take]

theorem bind_eq (h : InOrder flux) (hir : ir.sampleCounter < 2 ^ 32) :
    bind flux (cumulative 0 (flux.map Transition.interval)) ir =
      { fi := ahead flux ir.streamPos, iabs := indexTime flux ir } := by
  have hfi := resolveIndex_eq h.sorted ir.streamPos (Nat.zero_le _) (ahead_le flux _) (Nat.le_refl _)
  have hle := ahead_le flux ir.streamPos
  have hprev : (if ahead flux ir.streamPos = 0 then 0
      else (cumulative 0 (flux.map Transition.interval)).getD (ahead flux ir.streamPos - 1) 0) =
      fluxTime flux (ahead flux ir.streamPos) := by
    split
    case isTrue hzero => rw [hzero]; rfl
    case isFalse hpos =>
      rw [cumulative_fluxTime h (by omega), Nat.sub_add_cancel (Nat.pos_of_ne_zero hpos)]
  have hclock := h.clock
  have hmono := fluxTime_mono flux hle
  rw [bind, hfi, hprev, Nat.mod_eq_of_lt (by omega)]
  rfl

theorem times_between (h : InOrder flux) {fa fb : Nat} (hfb : fb ≤ flux.length) :
    (((cumulative 0 (flux.map Transition.interval)).drop fa).take (fb - fa)).length = fb - fa ∧
      ∀ i < fb - fa, (((cumulative 0 (flux.map Transition.interval)).drop fa).take (fb - fa)).getD i 0 =
        fluxTime flux (fa + (i + 1)) := by
  constructor
  · rw [List.length_take, List.length_drop, length_cumulative, List.length_map]
    omega
  · intro i hi
    have hk : fa + i < flux.length := by omega
    rw [← Nat.add_assoc, ← cumulative_fluxTime h hk]
    simp only [List.getD_eq_getElem?_getD]
    rw [List.getElem?_take_of_lt hi, List.getElem?_drop]

theorem kryofluxSckTo25ns_eq {m n : Nat} (hle : m ≤ n) (hn : ticks25ns sckHz n < 2 ^ 32) :
    kryofluxSckTo25ns sckHz m = ticks25ns sckHz m :=
  Nat.mod_eq_of_lt (Nat.lt_of_le_of_lt (ticks25ns_mono sckHz hle) hn)

theorem revBetween_spec (h : InOrder flux) (hfits : ticks25ns sckHz (fluxTime flux flux.length) < 2 ^ 32)
    (hb : ticks25ns sckHz (indexTime flux b) < 2 ^ 32) (hapart : Apart flux (a, b)) :
    ∃ rev, revBetween sckHz (cumulative 0 (flux.map Transition.interval))
        { fi := ahead flux a.streamPos, iabs := indexTime flux a }
        { fi := ahead flux b.streamPos, iabs := indexTime flux b } = some rev ∧ RevOf sckHz flux a b rev := by
  obtain ⟨hflux, htime⟩ := hapart
  dsimp only at hflux htime
  have hsp : a.streamPos ≤ b.streamPos := by
    by_contra hlt
    exact absurd (countP_between (Nat.le_of_not_le hlt) flux).2 (Nat.not_le.mpr hflux)
  have hstart : elapsed sckHz flux a 0 = 0 := by
    rw [elapsed, indexTime, Nat.add_zero, Nat.sub_eq_zero_of_le (Nat.le_add_right _ _), ticks25ns_zero]
  obtain ⟨hlen, htimes⟩ := @times_between _ h (ahead flux a.streamPos) _ (ahead_le flux b.streamPos)
  have hle := ahead_le flux b.streamPos
  refine ⟨_, if_neg (by simp only; omega), ?_⟩
  dsimp only
  generalize ((cumulative 0 (flux.map Transition.interval)).drop (ahead flux a.streamPos)).take
    (ahead flux b.streamPos - ahead flux a.streamPos) = ts at hlen htimes ⊢
  -- on the clock of the revolution, a time ahead of the index is zero
  have hclock : ∀ i < ts.length, kryofluxSckTo25ns sckHz
      (if indexTime flux a ≤ ts.getD i 0 then ts.getD i 0 - indexTime flux a else 0) = elapsed sckHz flux a (i + 1) := by
    intro i hi
    rw [hlen] at hi
    have hlast : fluxTime flux (ahead flux a.streamPos + (i + 1)) ≤ fluxTime flux flux.length :=
      fluxTime_mono flux (by omega)
    have hsub : (if indexTime flux a ≤ ts.getD i 0 then ts.getD i 0 - indexTime flux a else 0) =
        ts.getD i 0 - indexTime flux a := by
      split <;> omega
    rw [hsub, htimes i hi, elapsed]
    exact kryofluxSckTo25ns_eq ((Nat.sub_le _ _).trans hlast) hfits
  have hmono : ∀ i < ts.length, elapsed sckHz flux a i ≤ elapsed sckHz flux a (i + 1) := fun i _ =>
    ticks25ns_mono sckHz (Nat.sub_le_sub_right (fluxTime_mono flux (by omega)) _)
  obtain ⟨hcount, hpositive, hsums⟩ := revWords_times hstart hclock hmono
  refine ⟨kryofluxSckTo25ns_eq (Nat.sub_le _ _) hb, ?_, ?_, hpositive⟩
  · rw [hcount, hlen, (countP_between hsp flux).1]
  · intro j hj
    rw [hcount] at hj
    rw [← hsums j hj, Nat.zero_add]

theorem revBetween_none {cum : List Nat} (hapart : ¬Apart flux (a, b)) :
    revBetween sckHz cum { fi := ahead flux a.streamPos, iabs := indexTime flux a }
      { fi := ahead flux b.streamPos, iabs := indexTime flux b } = none := by
  refine if_pos ?_
  by_contra hnot
  refine hapart ⟨?_, ?_⟩ <;> dsimp only at hnot ⊢ <;> omega

end Bound

/-! ## The transitions of a stream -/

theorem leadPos_le (p : Nat) (lead : List Block) : leadPos p lead ≤ p + (lead.map Block.inBand).sum := by
  rw [leadPos]
  have hsub := ((List.takeWhile_prefix (l := lead) fun b => !b.isOvl).sublist.map Block.inBand).sum_le_sum
    (fun _ _ => Nat.zero_le _)
  omega

theorem le_leadPos (p : Nat) (lead : List Block) : p ≤ leadPos p lead := Nat.le_add_right _ _

theorem inBand_pos {b : Block} {v : Nat} (h : b.flux = some v) : 0 < b.inBand := by
  cases b with
  | oob type body => cases h
  | _ => exact Nat.succ_pos _

theorem transitions_sorted (p : Nat) (lead blocks : List Block) :
    (transitions p lead blocks).Pairwise (fun t u => t.pos < u.pos) ∧
      (∀ t ∈ transitions p lead blocks, p ≤ t.pos ∧ t.interval < 2 ^ 32) ∧
      (transitions p lead blocks).length ≤ blocks.length := by
  -- Along the blocks; the overflow blocks in `lead` belong to the next pulse.
  induction blocks generalizing p lead with
  | nil => exact ⟨List.Pairwise.nil, by simp [transitions], Nat.le_refl _⟩
  | cons b blocks ih =>
    rw [transitions]
    cases hb : b.flux with
    | none =>
      obtain ⟨hsorted, hall, hlen⟩ := ih p (lead ++ [b])
      exact ⟨hsorted, hall, Nat.le_succ_of_le hlen⟩
    | some v =>
      obtain ⟨hsorted, hall, hlen⟩ := ih (p + ((lead ++ [b]).map Block.inBand).sum) []
      -- A pulse takes at least one byte of the stream, so the next one lies further on.
      have hpos := inBand_pos hb
      have hlead := leadPos_le p lead
      have hge := le_leadPos p lead
      have hsum : ((lead ++ [b]).map Block.inBand).sum = (lead.map Block.inBand).sum + b.inBand := by simp
      rw [hsum] at hall hsorted hlen ⊢
      refine ⟨List.pairwise_cons.mpr ⟨fun t ht => ?_, hsorted⟩, ?_, Nat.succ_le_succ hlen⟩
      · have ht' := (hall t ht).1
        dsimp only
        omega
      · intro t ht
        rcases List.mem_cons.mp ht with rfl | ht
        · exact ⟨hge, Nat.mod_lt _ (by decide)⟩
        · have ht' := hall t ht
          exact ⟨by omega, ht'.2⟩

theorem length_blocks_le (blocks : List Block) : blocks.length ≤ (blocks.flatMap Block.bytes).length := by
  have hpos : ∀ b : Block, 0 < b.bytes.length := by
    intro b
    cases b <;> exact Nat.succ_pos _
  induction blocks with
  | nil => exact Nat.le_refl _
  | cons b blocks ih =>
    have hb := hpos b
    rw [List.flatMap_cons, List.length_append, List.length_cons]
    omega

theorem inOrder_of_blocks {blocks : List Block} (h : blocks.length ≤ 2 ^ 32) : InOrder (transitions 0 [] blocks) := by
  obtain ⟨hsorted, hall, hlen⟩ := transitions_sorted 0 [] blocks
  refine ⟨hsorted, ?_⟩
  have hsum : ((transitions 0 [] blocks).map Transition.interval).sum ≤
      (transitions 0 [] blocks).length * (2 ^ 32 - 1) := by
    have hle := List.sum_le_card_nsmul ((transitions 0 [] blocks).map Transition.interval) (2 ^ 32 - 1) fun x hx => by
      obtain ⟨t, ht, rfl⟩ := List.mem_map.mp hx
      exact Nat.le_pred_of_lt (hall t ht).2
    rwa [List.length_map, nsmul_eq_mul, Nat.cast_id] at hle
  have hcount : (transitions 0 [] blocks).length * (2 ^ 32 - 1) ≤ 2 ^ 32 * (2 ^ 32 - 1) :=
    Nat.mul_le_mul_right _ (hlen.trans h)
  rw [fluxTime, List.take_length]
  omega

theorem sampleCounter_lt {blocks : List Block} {ir : IndexRec} (h : ir ∈ blocks.filterMap Block.index) :
    ir.sampleCounter < 2 ^ 32 := by
  obtain ⟨b, -, hb⟩ := List.mem_filterMap.mp h
  cases b with
  | oob type body =>
    rw [Block.index] at hb
    split at hb
    · exact Option.some.inj hb ▸ rd32le_lt body 4
    · cases hb
  | _ => cases hb

/-! ## The revolutions of a stream -/

theorem forall₂_filterMap {α β : Type} {P : α → Prop} [DecidablePred P] {R : α → β → Prop} {f : α → Option β}
    {l : List α} (hsome : ∀ a ∈ l, P a → ∃ b, f a = some b ∧ R a b) (hnone : ∀ a ∈ l, ¬P a → f a = none) :
    List.Forall₂ R (l.filter fun a => decide (P a)) (l.filterMap f) := by
  induction l with
  | nil => exact List.Forall₂.nil
  | cons a l ih =>
    have hrest := ih (fun b hb => hsome b (List.mem_cons_of_mem a hb)) (fun b hb => hnone b (List.mem_cons_of_mem a hb))
    by_cases ha : P a
    · obtain ⟨b, hb, hR⟩ := hsome a List.mem_cons_self ha
      rw [List.filter_cons, if_pos (decide_eq_true ha), List.filterMap_cons_some hb]
      exact List.Forall₂.cons hR hrest
    · rw [List.filter_cons, if_neg (by simpa using ha), List.filterMap_cons_none (hnone a List.mem_cons_self ha)]
      exact hrest

theorem consecutive_map {α β : Type} (f : α → β) (l : List α) :
    consecutive (l.map f) = (consecutive l).map (Prod.map f f) := by
  rw [consecutive, consecutive, List.map_tail.symm, List.zip_map]

theorem mem_of_consecutive {α : Type} {l : List α} {p : α × α} (h : p ∈ consecutive l) : p.1 ∈ l ∧ p.2 ∈ l := by
  obtain ⟨hfst, hsnd⟩ := List.of_mem_zip h
  exact ⟨hfst, List.mem_of_mem_tail hsnd⟩

theorem scan_collects {strtod : List UInt8 → Option ℚ} {data : List UInt8} {s : Scan}
    (hs : scanStream strtod {} data = .ok s) (hlen : data.length ≤ 2 ^ 32) :
    InOrder s.flux ∧ ∀ ir ∈ s.idx, ir.sampleCounter < 2 ^ 32 := by
  obtain ⟨blocks, tail, -, -, hdata, hflux, hidx, -⟩ :=
    (scanStream_iff strtod data s.flux s.idx s.sckHz).mp ⟨s, hs, rfl, rfl, rfl⟩
  have hcount := length_blocks_le blocks
  rw [hdata, List.length_append] at hlen
  rw [← hflux, ← hidx]
  exact ⟨inOrder_of_blocks (by omega), fun ir => sampleCounter_lt⟩

/-- The revolutions of a stream are those between one index and the next, in their order, wherever these are apart:
    each has the transitions between the two positions, at their times on a clock that starts at the first pulse, and
    lasts until the second. -/
theorem decodeStream_revolutions {strtod : List UInt8 → Option ℚ} {data : List UInt8} {s : Scan} {track : Track}
    (h : decodeStream strtod data = .ok track) (hlen : data.length ≤ 2 ^ 32)
    (hs : scanStream strtod {} data = .ok s) (hfits : Fits s.sckHz s.flux s.idx) :
    track.sckHz = s.sckHz ∧ List.Forall₂ (fun p rev => RevOf s.sckHz s.flux p.1 p.2 rev)
      ((consecutive s.idx).filter fun p => decide (Apart s.flux p)) track.revs := by
  -- The scan puts every index in front of the pulse whose cell it falls into.
  obtain ⟨horder, hcounters⟩ := scan_collects hs hlen
  rw [decodeStream, hs] at h
  split at h
  case isTrue => cases h
  case isFalse =>
    dsimp only at h
    split at h
    case isTrue => cases h
    case isFalse =>
      split at h
      case isTrue => cases h
      case isFalse =>
        split at h
        case isTrue => cases h
        case isFalse =>
          obtain rfl := Except.ok.inj h
          refine ⟨rfl, ?_⟩
          rw [consecutive_map, List.filterMap_map]
          refine forall₂_filterMap (fun p hp hapart => ?_) (fun p hp hapart => ?_)
          · -- Two index pulses with a pulse between them bound a revolution; see `revBetween`.
            obtain ⟨ha, hb⟩ := mem_of_consecutive hp
            rw [Function.comp_apply, Prod.map, bind_eq horder (hcounters p.1 ha), bind_eq horder (hcounters p.2 hb)]
            exact revBetween_spec horder hfits.last (hfits.pulses p.2 hb) hapart
          · obtain ⟨ha, hb⟩ := mem_of_consecutive hp
            rw [Function.comp_apply, Prod.map, bind_eq horder (hcounters p.1 ha), bind_eq horder (hcounters p.2 hb)]
            exact revBetween_none hapart

/-! A stream of two transitions between two pulses. -/

def sampleBlocks : List Block :=
  [.oob 0x02 (List.replicate 12 0), .flux1 0x50, .flux1 0x60, .oob 0x02 (2 :: List.replicate 11 0)]

def sampleStream : List UInt8 := sampleBlocks.flatMap Block.bytes

def sampleScan : Scan := sampleBlocks.foldl (Scan.step fun _ => none) {}

theorem sampleStream_scan : scanStream (fun _ => none) {} sampleStream = .ok sampleScan := by
  have hvalid : ∀ b ∈ sampleBlocks, b.Valid := by
    simp [sampleBlocks, Block.Valid]
  have hscan : scanStream (fun _ => none) {} (sampleStream ++ []) = scanStream (fun _ => none) sampleScan [] :=
    scanStream_blocks hvalid
  rw [List.append_nil, scanStream_stop (Or.inl rfl)] at hscan
  exact hscan

theorem ticks25ns_default_le {n : Nat} (h : n < 2 ^ 20) : ticks25ns defaultSckHz n ≤ 2 * n + 1 := by
  have hclock : ((24027428 : ℕ) : ℚ) ≤ defaultSckHz := natCast_le_rnd (by norm_num) (by norm_num)
  have hn : rnd (n : ℚ) = n := rnd_natCast (by omega)
  have hmul : rnd ((n : ℚ) * 40000000) = ((n * 40000000 : ℕ) : ℚ) := by
    rw [← rnd_natCast (n := n * 40000000) (by omega)]
    push_cast
    rfl
  have hquot : ((n * 40000000 : ℕ) : ℚ) / defaultSckHz ≤ ((2 * n : ℕ) : ℚ) := by
    rw [div_le_iff₀ defaultSckHz_pos]
    push_cast at hclock ⊢
    nlinarith [Nat.cast_nonneg (α := ℚ) n]
  have hquot₀ : 0 ≤ ((n * 40000000 : ℕ) : ℚ) / defaultSckHz := div_nonneg (Nat.cast_nonneg _) defaultSckHz_pos.le
  have hround := rnd_le_natCast hquot₀ hquot (by omega)
  have hhalf : rnd (((n * 40000000 : ℕ) : ℚ) / defaultSckHz) + 1 / 2 ≤ ((2 * n + 1 : ℕ) : ℚ) := by
    push_cast at hround ⊢
    linarith
  have hsum := rnd_le_natCast (add_nonneg (rnd_nonneg hquot₀) (by norm_num)) hhalf (by omega)
  rw [ticks25ns, if_neg (not_le.mpr defaultSckHz_pos), hn, hmul]
  refine Int.toNat_le.mpr ?_
  exact_mod_cast Int.floor_le_floor hsum |>.trans (Int.floor_natCast _).le

theorem sampleScan_idx : sampleScan.idx = [⟨0, 0⟩, ⟨2, 0⟩] := rfl

theorem sampleScan_fits : Fits sampleScan.sckHz sampleScan.flux sampleScan.idx where
  last := (ticks25ns_default_le (n := 176) (by decide)).trans_lt (by decide)
  pulses := by
    intro ir hir
    rw [sampleScan_idx] at hir
    rcases List.mem_pair.mp hir with rfl | rfl
    · exact (ticks25ns_default_le (n := 0) (by decide)).trans_lt (by decide)
    · exact (ticks25ns_default_le (n := 176) (by decide)).trans_lt (by decide)

theorem sampleStream_decoded : ∃ track, decodeStream (fun _ => none) sampleStream = .ok track := by
  obtain ⟨horder, -⟩ := scan_collects sampleStream_scan (by decide)
  have hapart : Apart sampleScan.flux (⟨0, 0⟩, ⟨2, 0⟩) := by decide
  obtain ⟨rev, hrev, -⟩ := revBetween_spec horder sampleScan_fits.last
    (sampleScan_fits.pulses ⟨2, 0⟩ (by rw [sampleScan_idx]; simp)) hapart
  have hflux : sampleScan.flux ≠ [] := by decide
  have hidx : ¬sampleScan.idx.length < 2 := by decide
  have hrevs : ((consecutive (sampleScan.idx.map (bind sampleScan.flux
      (cumulative 0 (sampleScan.flux.map Transition.interval))))).filterMap fun p =>
        revBetween sampleScan.sckHz (cumulative 0 (sampleScan.flux.map Transition.interval)) p.1 p.2) = [rev] := by
    rw [sampleScan_idx, List.map_cons, List.map_cons, bind_eq horder (by decide), bind_eq horder (by decide)]
    exact List.filterMap_cons_some hrev
  rw [decodeStream, if_neg (by decide), sampleStream_scan]
  dsimp only
  rw [if_neg hflux, if_neg hidx, hrevs, if_neg (List.cons_ne_nil _ _)]
  exact ⟨_, rfl⟩

theorem decodeStream_revolutions_sample :
    ∃ track, decodeStream (fun _ => none) sampleStream = .ok track ∧ track.sckHz = sampleScan.sckHz ∧
      List.Forall₂ (fun p rev => RevOf sampleScan.sckHz sampleScan.flux p.1 p.2 rev)
        ((consecutive sampleScan.idx).filter fun p => decide (Apart sampleScan.flux p)) track.revs := by
  obtain ⟨track, htrack⟩ := sampleStream_decoded
  exact ⟨track, htrack, decodeStream_revolutions htrack (by decide) sampleStream_scan sampleScan_fits⟩

end Koncepcja.Disk.KryoFlux
