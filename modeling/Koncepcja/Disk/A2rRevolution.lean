import Koncepcja.Disk.FluxConverters

/-!
# One Revolution of an A2R Capture

`emit_rev` of `src/hw/a2r.cpp` writes the intervals of a capture up to its index time. It splits an
interval above 0xFFFF by taking 65536 from the loop variable, and adds what is left of that variable
to the running time: the revolution is cut by a clock that runs behind.

## Main definitions

- `captured`: the intervals a capture's bytes record.
- `beforeIndex`: those that start before the index.
- `ReadsAs`: flux words that read back as given intervals, with no carry left over.

## Main results

- `emitRevFrom_captured`: the loop over the bytes is a loop over the intervals.
- `emitRev_exact_iff`: exactly when the revolution is cut where the index is.
-/

namespace Koncepcja.Disk

open Koncepcja.Bits Koncepcja.Bytes

set_option maxRecDepth 20000

/-! ## Captures -/

/-- The intervals of a capture, `acc` ticks into the first. Two transitions on one tick count as one
    tick apart, and a run of counts without a transition is no interval. -/
def captured : Nat → List UInt8 → List Nat
  | _, [] => []
  | acc, f :: flux =>
    if f = 0xFF then captured (acc + 255) flux else max 1 (acc + f.toNat) :: captured 0 flux

/-- The intervals that start before the index, when the first starts at `t`. -/
def startingBefore (indexTicks : Nat) : Nat → List Nat → List Nat
  | _, [] => []
  | t, iv :: ivs => if t < indexTicks then iv :: startingBefore indexTicks (t + iv) ivs else []

/-- The intervals of one revolution: all of them when no index was recorded. -/
def beforeIndex (indexTicks : Nat) (ivs : List Nat) : List Nat :=
  if indexTicks = 0 then ivs else startingBefore indexTicks 0 ivs

/-- The words read back as these intervals, and there is no carry behind the last. -/
def ReadsAs (words ivs : List Nat) : Prop := readWords words = ivs ∧ words.getLast? ≠ some 0

/-- A revolution is exact: its words are the intervals that start before the index, and its time is
    the index time, or the sum of the intervals where there is none. -/
structure RevExact (flux : List UInt8) (indexTicks : Nat) : Prop where
  words : ReadsAs (emitRev flux indexTicks).1 (beforeIndex indexTicks (captured 0 flux))
  time : (emitRev flux indexTicks).2 = if indexTicks ≠ 0 then indexTicks else (captured 0 flux).sum

/-! ## The loop over intervals -/

/-- The 32-bit loop variable of an interval. -/
def held (iv : Nat) : Nat := if iv % 2 ^ 32 ≠ 0 then iv % 2 ^ 32 else 1

/-- `emit_rev`'s loop, an interval at a time. -/
def emitIntervals (indexTicks : Nat) : Nat → List Nat → List Nat × Nat
  | cum, [] => ([], cum)
  | cum, iv :: ivs =>
    if indexTicks ≠ 0 ∧ cum ≥ indexTicks then ([], cum)
    else
      let rest := emitIntervals indexTicks ((cum + held iv % 0x10000) % 2 ^ 32) ivs
      (carryWords (held iv) ++ rest.1, rest.2)

theorem held_max (v : Nat) : held (max 1 v) = if v % 2 ^ 32 ≠ 0 then v % 2 ^ 32 else 1 := by
  rcases Nat.eq_zero_or_pos v with rfl | hpos
  · rfl
  · rw [Nat.max_eq_right hpos, held]

/-- **Captures.** The loop over the bytes of a capture is the loop over its intervals. -/
theorem emitRevFrom_captured (indexTicks acc cum : Nat) (flux : List UInt8) :
    emitRevFrom indexTicks (acc % 2 ^ 32) cum flux = emitIntervals indexTicks cum (captured acc flux) := by
  induction flux generalizing acc cum with
  | nil => rfl
  | cons f flux ih =>
    have hacc : (acc % 2 ^ 32 + f.toNat) % 2 ^ 32 = (acc + f.toNat) % 2 ^ 32 := Nat.mod_add_mod _ _ _
    rw [emitRevFrom, captured]
    dsimp only
    rw [hacc]
    by_cases hcount : f = 0xFF
    · rw [if_pos hcount, if_pos hcount, ih]
      subst hcount
      rfl
    · rw [if_neg hcount, if_neg hcount, emitIntervals, held_max]
      by_cases hcut : indexTicks ≠ 0 ∧ cum ≥ indexTicks
      · rw [if_pos hcut, if_pos hcut]
      · rw [if_neg hcut, if_neg hcut, ← ih]
        rfl

theorem emitRev_captured (flux : List UInt8) (indexTicks : Nat) :
    emitRev flux indexTicks = ((emitIntervals indexTicks 0 (captured 0 flux)).1,
      if indexTicks ≠ 0 then indexTicks else (emitIntervals indexTicks 0 (captured 0 flux)).2) := by
  rw [emitRev, ← emitRevFrom_captured]
  rfl

theorem captured_pos (acc : Nat) (flux : List UInt8) : ∀ iv ∈ captured acc flux, 0 < iv := by
  induction flux generalizing acc with
  | nil => exact fun iv hiv => absurd hiv List.not_mem_nil
  | cons f flux ih =>
    rw [captured]
    split
    · exact ih _
    · intro iv hiv
      rcases List.mem_cons.mp hiv with rfl | hiv
      · exact Nat.lt_of_lt_of_le Nat.one_pos (Nat.le_max_left 1 _)
      · exact ih 0 iv hiv

/-! ## Words that spell -/

theorem emitIntervals_lt (indexTicks cum : Nat) (ivs : List Nat) :
    ∀ w ∈ (emitIntervals indexTicks cum ivs).1, w < 0x10000 := by
  induction ivs generalizing cum with
  | nil => exact fun w hw => absurd hw List.not_mem_nil
  | cons iv ivs ih =>
    rw [emitIntervals]
    split
    · exact fun w hw => absurd hw List.not_mem_nil
    · intro w hw
      rcases List.mem_append.mp hw with hw | hw
      · exact carryWords_lt _ w hw
      · exact ih _ w hw

/-- An interval the words can carry: of 32 bits, and with a rest that is not a carry itself. -/
def Carried (iv : Nat) : Prop := iv < 2 ^ 32 ∧ iv % 0x10000 ≠ 0

theorem Carried.held_eq {iv : Nat} (h : Carried iv) : held iv = iv := by
  rw [held, Nat.mod_eq_of_lt h.1, if_pos]
  rintro rfl
  exact h.2 rfl

theorem fluxIntervals_carryWords {iv : Nat} (h : Carried iv) (rest : List Nat) :
    fluxIntervals 0 (carryWords iv ++ rest) = iv :: fluxIntervals 0 rest := by
  rw [carryWords_eq_fluxWords h.2, fluxIntervals_fluxWords rest (by rw [Nat.zero_add]; exact h.1) h.2, Nat.zero_add]

theorem carryWords_ne_nil (x : Nat) : carryWords x ≠ [] := by
  rw [carryWords]
  split <;> exact List.cons_ne_nil _ _

theorem carryWords_getLast (x : Nat) : (carryWords x).getLast? = some (x % 0x10000) := by
  induction x using carryWords.induct with
  | case1 x h => rw [carryWords, if_pos h, List.getLast?_singleton, Nat.mod_eq_of_lt (by omega)]
  | case2 x h ih =>
    have hmod : (x - 0x10000) % 0x10000 = x % 0x10000 := by omega
    rw [carryWords, if_neg h, List.getLast?_cons_of_ne_nil (carryWords_ne_nil _), ih, hmod]

theorem fluxIntervals_head_mod {words : List Nat} (hlt : ∀ w ∈ words, w < 0x10000) {carry h : Nat}
    (hcarry : carry % 0x10000 = 0) (hhead : (fluxIntervals carry words).head? = some h) : h % 0x10000 ≠ 0 := by
  induction words generalizing carry with
  | nil => exact absurd hhead (by simp [fluxIntervals])
  | cons w words ih =>
    rw [fluxIntervals] at hhead
    split at hhead
    · exact ih (fun x hx => hlt x (List.mem_cons_of_mem _ hx)) (by omega) hhead
    · have hw := hlt w List.mem_cons_self
      rw [List.head?_cons, Option.some.injEq] at hhead
      omega

theorem readsAs_nil : ReadsAs [] [] := ⟨rfl, by simp⟩

theorem not_readsAs_nil {words : List Nat} (hlt : ∀ w ∈ words, w < 0x10000) (hne : words ≠ []) : ¬ ReadsAs words [] := by
  rintro ⟨hread, hlast⟩
  rw [readWords_eq hlt] at hread
  have hzero : ∀ w ∈ words, w = 0 := by
    have hcount := (fluxIntervals_length 0 words).symm.trans (congrArg List.length hread)
    intro w hw
    by_contra hw0
    exact absurd hcount (Nat.ne_of_gt (List.countP_pos_iff.mpr ⟨w, hw, decide_eq_true hw0⟩))
  apply hlast
  rw [List.getLast?_eq_some_getLast hne, hzero _ (List.getLast_mem hne)]

theorem readsAs_carried {iv : Nat} (h : Carried iv) {rest ivs : List Nat} (hlt : ∀ w ∈ rest, w < 0x10000) :
    ReadsAs (carryWords iv ++ rest) (iv :: ivs) ↔ ReadsAs rest ivs := by
  have hall : ∀ w ∈ carryWords iv ++ rest, w < 0x10000 := by
    intro w hw
    rcases List.mem_append.mp hw with hw | hw
    · exact carryWords_lt _ w hw
    · exact hlt w hw
  rw [ReadsAs, ReadsAs, readWords_eq hall, readWords_eq hlt, fluxIntervals_carryWords h, List.cons_inj_right]
  refine and_congr_right fun _ => not_congr ?_
  cases rest with
  | nil =>
    rw [List.append_nil, carryWords_getLast]
    exact iff_of_false (fun hzero => h.2 (Option.some.inj hzero)) (by simp)
  | cons w rest => rw [List.getLast?_append_of_ne_nil _ (List.cons_ne_nil w rest)]

theorem not_readsAs {iv : Nat} (h : ¬ Carried iv) {rest ivs : List Nat} (hlt : ∀ w ∈ rest, w < 0x10000) :
    ¬ ReadsAs (carryWords (held iv) ++ rest) (iv :: ivs) := by
  have hall : ∀ w ∈ carryWords (held iv) ++ rest, w < 0x10000 := by
    intro w hw
    rcases List.mem_append.mp hw with hw | hw
    · exact carryWords_lt _ w hw
    · exact hlt w hw
  rintro ⟨hread, -⟩
  rw [readWords_eq hall] at hread
  by_cases hmod : iv % 0x10000 = 0
  · -- a multiple of 65536 runs into the next interval
    have hhead : (fluxIntervals 0 (carryWords (held iv) ++ rest)).head? = some iv := by
      rw [hread]
      rfl
    exact fluxIntervals_head_mod hall (Nat.zero_mod _) hhead hmod
  · -- one of more than 32 bits has lost its upper part
    have hheld : held iv = iv % 2 ^ 32 := if_pos (by omega)
    have hcarried : Carried (held iv) := by
      rw [Carried, hheld]
      omega
    have hbig : 2 ^ 32 ≤ iv := Nat.not_lt.mp fun hsmall => h ⟨hsmall, hmod⟩
    rw [fluxIntervals_carryWords hcarried, List.cons.injEq] at hread
    have hlow := hcarried.1
    omega

/-! ## Where the cut falls -/

/-- The ticks the loop counts for the intervals: what the carries leave of each. -/
def counted (ivs : List Nat) : Nat := (ivs.map (· % 0x10000)).sum

/-- **With an index**, from any place in the capture: `cum` is the loop's clock, and `t` the time. -/
theorem readsAs_startingBefore {indexTicks : Nat} (hindex : indexTicks ≠ 0) {ivs : List Nat} {cum t : Nat}
    (hcum : cum ≤ t) (hbound : cum < 2 ^ 32) :
    ReadsAs (emitIntervals indexTicks cum ivs).1 (startingBefore indexTicks t ivs) ↔
      (∀ iv ∈ startingBefore indexTicks t ivs, Carried iv) ∧
        (startingBefore indexTicks t ivs = ivs ∨
          indexTicks ≤ (cum + counted (startingBefore indexTicks t ivs)) % 2 ^ 32) := by
  induction ivs generalizing cum t with
  | nil => exact iff_of_true readsAs_nil ⟨fun _ h => absurd h List.not_mem_nil, .inl rfl⟩
  | cons iv ivs ih =>
    rw [startingBefore]
    by_cases hstart : t < indexTicks
    · have hrest := emitIntervals_lt indexTicks ((cum + held iv % 0x10000) % 2 ^ 32) ivs
      rw [if_pos hstart, emitIntervals, if_neg fun h => absurd h.2 (Nat.not_le.mpr (Nat.lt_of_le_of_lt hcum hstart))]
      dsimp only
      by_cases hcarried : Carried iv
      · -- the clock falls behind by the carries
        have hnext : (cum + iv % 0x10000) % 2 ^ 32 ≤ t + iv :=
          Nat.le_trans (Nat.mod_le _ _) (Nat.add_le_add hcum (Nat.mod_le _ _))
        have hclock : (cum + counted (iv :: startingBefore indexTicks (t + iv) ivs)) % 2 ^ 32 =
            ((cum + iv % 0x10000) % 2 ^ 32 + counted (startingBefore indexTicks (t + iv) ivs)) % 2 ^ 32 := by
          rw [Nat.mod_add_mod, counted, List.map_cons, List.sum_cons, ← Nat.add_assoc]
          rfl
        rw [hcarried.held_eq] at hrest ⊢
        rw [readsAs_carried hcarried hrest, ih hnext (Nat.mod_lt _ (by decide)), List.forall_mem_cons, hclock,
          List.cons_inj_right]
        exact ⟨fun h => ⟨⟨hcarried, h.1⟩, h.2⟩, fun h => ⟨h.1.2, h.2⟩⟩
      · exact iff_of_false (not_readsAs hcarried hrest) fun h => hcarried (h.1 iv List.mem_cons_self)
    · rw [if_neg hstart]
      have hclock : (cum + counted []) % 2 ^ 32 = cum := Nat.mod_eq_of_lt hbound
      rw [hclock]
      by_cases hcut : indexTicks ≤ cum
      · rw [emitIntervals, if_pos ⟨hindex, hcut⟩]
        exact iff_of_true readsAs_nil ⟨fun _ h => absurd h List.not_mem_nil, .inr hcut⟩
      · refine iff_of_false (not_readsAs_nil (emitIntervals_lt _ _ _) ?_) ?_
        · rw [emitIntervals, if_neg fun h => hcut h.2]
          exact List.append_ne_nil_of_left_ne_nil (carryWords_ne_nil _) _
        · rintro ⟨-, hwhole | hindexed⟩
          · exact List.cons_ne_nil _ _ hwhole.symm
          · exact hcut hindexed

/-- **Without an index** all the intervals are written. -/
theorem readsAs_all {ivs : List Nat} (cum : Nat) :
    ReadsAs (emitIntervals 0 cum ivs).1 ivs ↔ ∀ iv ∈ ivs, Carried iv := by
  induction ivs generalizing cum with
  | nil => exact iff_of_true readsAs_nil fun _ h => absurd h List.not_mem_nil
  | cons iv ivs ih =>
    have hrest := emitIntervals_lt 0 ((cum + held iv % 0x10000) % 2 ^ 32) ivs
    rw [emitIntervals, if_neg fun h => h.1 rfl, List.forall_mem_cons]
    dsimp only
    by_cases hcarried : Carried iv
    · rw [hcarried.held_eq] at hrest ⊢
      rw [readsAs_carried hcarried hrest, ih]
      exact (and_iff_right hcarried).symm
    · exact iff_of_false (not_readsAs hcarried hrest) fun h => hcarried h.1

theorem emitIntervals_time {ivs : List Nat} (hcarried : ∀ iv ∈ ivs, Carried iv) {cum : Nat} (hcum : cum < 2 ^ 32) :
    (emitIntervals 0 cum ivs).2 = (cum + counted ivs) % 2 ^ 32 := by
  induction ivs generalizing cum with
  | nil => exact (Nat.mod_eq_of_lt hcum).symm
  | cons iv ivs ih =>
    obtain ⟨hiv, hivs⟩ := List.forall_mem_cons.mp hcarried
    rw [emitIntervals, if_neg fun h => h.1 rfl]
    dsimp only
    rw [ih hivs (Nat.mod_lt _ (by decide)), hiv.held_eq, Nat.mod_add_mod, counted, counted, List.map_cons, List.sum_cons,
      ← Nat.add_assoc]

theorem counted_le (ivs : List Nat) : counted ivs ≤ ivs.sum := by
  induction ivs with
  | nil => exact Nat.le_refl 0
  | cons iv ivs ih => exact Nat.add_le_add (Nat.mod_le _ _) ih

theorem counted_eq_iff (ivs : List Nat) : counted ivs = ivs.sum ↔ ∀ iv ∈ ivs, iv < 0x10000 := by
  induction ivs with
  | nil => exact iff_of_true rfl fun _ h => absurd h List.not_mem_nil
  | cons iv ivs ih =>
    have hle := counted_le ivs
    have hmod := Nat.mod_le iv 0x10000
    rw [List.forall_mem_cons, ← ih, List.sum_cons]
    change iv % 0x10000 + counted ivs = iv + ivs.sum ↔ _
    omega

/-! ## The revolution -/

/-- What `emit_rev` needs of a capture. With an index, the intervals ahead of it have 32 bits and are no
    multiples of 65536, and either none starts behind the index or what the carries leave of them
    still adds up to the index time. Without one, no interval carries, and the sum has 32 bits. -/
def CutRight (ivs : List Nat) (indexTicks : Nat) : Prop :=
  if indexTicks = 0 then (∀ iv ∈ ivs, iv < 0x10000) ∧ ivs.sum < 2 ^ 32
  else (∀ iv ∈ beforeIndex indexTicks ivs, iv < 2 ^ 32 ∧ iv % 0x10000 ≠ 0) ∧
    (beforeIndex indexTicks ivs = ivs ∨ indexTicks ≤ counted (beforeIndex indexTicks ivs) % 2 ^ 32)

theorem emitRev_all_iff {ivs : List Nat} (hpos : ∀ iv ∈ ivs, 0 < iv) :
    ReadsAs (emitIntervals 0 0 ivs).1 ivs ∧ (emitIntervals 0 0 ivs).2 = ivs.sum ↔
      (∀ iv ∈ ivs, iv < 0x10000) ∧ ivs.sum < 2 ^ 32 := by
  rw [readsAs_all]
  constructor
  · rintro ⟨hcarried, htime⟩
    rw [emitIntervals_time hcarried (by decide), Nat.zero_add] at htime
    have hlt : ivs.sum < 2 ^ 32 := htime ▸ Nat.mod_lt _ (by decide)
    rw [Nat.mod_eq_of_lt (Nat.lt_of_le_of_lt (counted_le ivs) hlt)] at htime
    exact ⟨(counted_eq_iff ivs).mp htime, hlt⟩
  · rintro ⟨hsmall, hlt⟩
    have hcarried : ∀ iv ∈ ivs, Carried iv := by
      intro iv hiv
      have := hpos iv hiv
      have := hsmall iv hiv
      exact ⟨by omega, by omega⟩
    refine ⟨hcarried, ?_⟩
    rw [emitIntervals_time hcarried (by decide), Nat.zero_add, (counted_eq_iff ivs).mpr hsmall, Nat.mod_eq_of_lt hlt]

/-- **Revolutions.** `emit_rev` is exact just where its clock, which loses the carries, still cuts at the index. -/
theorem emitRev_exact_iff (flux : List UInt8) (indexTicks : UInt32) :
    RevExact flux indexTicks.toNat ↔ CutRight (captured 0 flux) indexTicks.toNat := by
  have hrev := emitRev_captured flux indexTicks.toNat
  have hsplit : RevExact flux indexTicks.toNat ↔
      ReadsAs (emitRev flux indexTicks.toNat).1 (beforeIndex indexTicks.toNat (captured 0 flux)) ∧
        (emitRev flux indexTicks.toNat).2 = if indexTicks.toNat ≠ 0 then indexTicks.toNat else (captured 0 flux).sum :=
    ⟨fun h => ⟨h.words, h.time⟩, fun h => ⟨h.1, h.2⟩⟩
  rw [hsplit, hrev, CutRight]
  dsimp only
  by_cases hindex : indexTicks.toNat = 0
  · rw [if_pos hindex, if_neg (not_not.mpr hindex), if_neg (not_not.mpr hindex), beforeIndex, if_pos hindex, hindex]
    exact emitRev_all_iff (captured_pos 0 flux)
  · rw [if_neg hindex, if_pos hindex, if_pos hindex, beforeIndex, if_neg hindex,
      readsAs_startingBefore hindex (Nat.le_refl 0) (by decide), Nat.zero_add]
    exact and_iff_left rfl

/-- An interval of 65546 ticks counts as 10: the second one starts behind an index at 100 and is written all the same. -/
theorem emitRev_late_cut :
    ¬ RevExact ([65546, 20].flatMap fluxBytes) 100 ∧ readWords (emitRev ([65546, 20].flatMap fluxBytes) 100).1 = [65546, 20] ∧
      beforeIndex 100 (captured 0 ([65546, 20].flatMap fluxBytes)) = [65546] := by
  have hread : readWords (emitRev ([65546, 20].flatMap fluxBytes) 100).1 = [65546, 20] := by with_unfolding_all decide
  have hbefore : beforeIndex 100 (captured 0 ([65546, 20].flatMap fluxBytes)) = [65546] := by decide
  refine ⟨fun h => ?_, hread, hbefore⟩
  have hwords := h.words.1
  rw [hread, hbefore] at hwords
  exact absurd hwords (by decide)

end Koncepcja.Disk
