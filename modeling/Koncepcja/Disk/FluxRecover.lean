import Koncepcja.Disk.FluxEmit
import Koncepcja.Disk.ScpDecode

/-!
# Recovering Bit Cells from Emitted Flux

The flux emitter and the PLL are inverse on tracks whose transitions are not too far apart: the
intervals the decoder reads are the gaps the emitter wrote, and the cells come back up to the clear cells
behind the last transition.

## Main results

- `fluxIntervals_pushFluxRev`: the emitted words spell the gaps, 80 ticks a cell.
- `decodeFlux_mfmEncodeTrack`: an encoded track of well-formed sectors decodes from its flux to those
  sectors.
-/

namespace Koncepcja.Disk

open Koncepcja.Bits Koncepcja.Bytes Koncepcja.Mfm

/-! ## Words -/

theorem be16Words_be16 {ws : List Nat} (h : ∀ w ∈ ws, w < 0x10000) : be16Words (ws.flatMap be16) = ws := by
  induction ws with
  | nil => rfl
  | cons w ws ih =>
    have hw : w < 0x10000 := h w List.mem_cons_self
    have hread : 256 * (UInt8.ofNat (w / 256)).toNat + (UInt8.ofNat w).toNat = w := by
      rw [UInt8.toNat_ofNat', UInt8.toNat_ofNat']
      omega
    rw [List.flatMap_cons, be16, List.cons_append, List.cons_append, List.nil_append, be16Words, hread,
      ih fun x hx => h x (List.mem_cons_of_mem _ hx)]

/-- An interval the flux words can spell: no exact multiple of the 16-bit range. -/
def Spellable (t : Nat) : Prop := t < 2 ^ 32 ∧ t % 0x10000 ≠ 0

theorem fluxWords_lt (t : Nat) : ∀ w ∈ fluxWords t, w < 0x10000 := by
  induction t using fluxWords.induct with
  | case1 t hlt =>
    rw [fluxWords, if_pos hlt]
    simpa using hlt
  | case2 => simp [fluxWords]
  | case3 t hge hne ih =>
    rw [fluxWords, if_neg hge, if_neg hne]
    intro w hw
    rcases List.mem_cons.mp hw with rfl | hw
    · decide
    · exact ih w hw

theorem fluxIntervals_fluxWords {t carry : Nat} (rest : List Nat) (hsum : carry + t < 2 ^ 32)
    (hmod : t % 0x10000 ≠ 0) :
    fluxIntervals carry (fluxWords t ++ rest) = (carry + t) :: fluxIntervals 0 rest := by
  induction t using fluxWords.induct generalizing carry with
  | case1 t hlt =>
    have hne : t ≠ 0 := by
      rintro rfl
      exact hmod rfl
    rw [fluxWords, if_pos hlt, List.singleton_append, fluxIntervals, if_neg hne]
  | case2 => exact absurd (Nat.mod_self _) hmod
  | case3 t hge hne ih =>
    have hcarry : (carry + 0x10000) % 2 ^ 32 = carry + 0x10000 := Nat.mod_eq_of_lt (by omega)
    have htotal : carry + 0x10000 + (t - 0x10000) = carry + t := by omega
    rw [fluxWords, if_neg hge, if_neg hne, List.cons_append, fluxIntervals, if_pos rfl, hcarry,
      ih (by omega) (by omega), htotal]

/-- **The emitted words spell the gaps.** -/
theorem fluxIntervals_pushFluxRev {rev : MfmRev}
    (h : ∀ gap ∈ fluxGaps 0 rev.cells, Spellable (gap * kTicksPerCell)) :
    fluxIntervals 0 (pushFluxRev rev) = (fluxGaps 0 rev.cells).map (· * kTicksPerCell) := by
  rw [pushFluxRev]
  generalize fluxGaps 0 rev.cells = gaps at h
  induction gaps with
  | nil => rfl
  | cons gap gaps ih =>
    obtain ⟨hlt, hmod⟩ := h gap List.mem_cons_self
    rw [List.flatMap_cons, Nat.mod_eq_of_lt hlt, fluxIntervals_fluxWords _ (by omega) hmod, Nat.zero_add,
      ih fun x hx => h x (List.mem_cons_of_mem _ hx), List.map_cons]

theorem pushFluxRev_lt (rev : MfmRev) : ∀ w ∈ pushFluxRev rev, w < 0x10000 := by
  intro w hw
  obtain ⟨gap, -, hmem⟩ := List.mem_flatMap.mp hw
  exact fluxWords_lt _ w hmem

theorem be16Words_flux (rev : MfmRev) : be16Words rev.flux.words = pushFluxRev rev :=
  be16Words_be16 (pushFluxRev_lt rev)

/-! ## Gaps and cells -/

theorem fluxGaps_pos (gap : Nat) (cells : List Bool) : ∀ n ∈ fluxGaps gap cells, 0 < n := by
  induction cells generalizing gap with
  | nil => simp [fluxGaps]
  | cons b cells ih =>
    cases b with
    | false => exact ih _
    | true =>
      intro n hn
      rcases List.mem_cons.mp hn with rfl | hn
      · exact Nat.succ_pos _
      · exact ih _ n hn

theorem cells_of_fluxGaps (gap : Nat) (cells : List Bool) :
    ∃ k, List.replicate gap false ++ cells =
      (fluxGaps gap cells).flatMap intervalCells ++ List.replicate k false := by
  induction cells generalizing gap with
  | nil => exact ⟨gap, by simp [fluxGaps]⟩
  | cons b cells ih =>
    cases b with
    | false =>
      obtain ⟨k, hk⟩ := ih (gap + 1)
      refine ⟨k, ?_⟩
      rw [fluxGaps, ← hk, List.replicate_succ', List.append_assoc]
      rfl
    | true =>
      obtain ⟨k, hk⟩ := ih 0
      refine ⟨k, ?_⟩
      rw [fluxGaps, List.flatMap_cons, List.append_assoc, ← hk, intervalCells]
      simp

theorem fluxGaps_intervalCells {ns : List Nat} (h : ∀ n ∈ ns, 0 < n) (k : Nat) :
    fluxGaps 0 (ns.flatMap intervalCells ++ List.replicate k false) = ns := by
  have hclear : ∀ (m gap : Nat) (rest : List Bool),
      fluxGaps gap (List.replicate m false ++ rest) = fluxGaps (gap + m) rest := by
    intro m
    induction m with
    | zero => exact fun gap rest => rfl
    | succ m ih =>
      intro gap rest
      rw [List.replicate_succ, List.cons_append, fluxGaps, ih]
      congr 1
      omega
  induction ns with
  | nil =>
    have htail := hclear k 0 []
    rw [List.append_nil] at htail
    rw [List.flatMap_nil, List.nil_append, htail]
    rfl
  | cons n ns ih =>
    have hn : 0 < n := h n List.mem_cons_self
    rw [List.flatMap_cons, intervalCells, List.append_assoc, List.append_assoc, hclear, List.singleton_append,
      fluxGaps, ih fun x hx => h x (List.mem_cons_of_mem _ hx)]
    congr 1
    omega

theorem trim_clear_run {a b : List Bool} {k m : Nat} (ha : a = [] ∨ ∃ a', a = a' ++ [true])
    (hb : ∃ b', b = b' ++ [true])
    (h : a ++ List.replicate k false = b ++ List.replicate m false) : a = b := by
  -- Both end in clear cells; they come off together until one list ends in a set cell.
  induction k generalizing m with
  | zero =>
    obtain ⟨b', rfl⟩ := hb
    rw [List.replicate_zero, List.append_nil] at h
    cases m with
    | zero => simpa using h
    | succ m =>
      rcases ha with rfl | ⟨a', rfl⟩
      · simp at h
      · rw [List.replicate_succ', ← List.append_assoc] at h
        have hlast := congrArg List.getLast? h
        rw [List.getLast?_concat, List.getLast?_concat] at hlast
        cases hlast
  | succ k ih =>
    cases m with
    | zero =>
      obtain ⟨b', rfl⟩ := hb
      rw [List.replicate_zero, List.append_nil, List.replicate_succ', ← List.append_assoc] at h
      have hlast := congrArg List.getLast? h
      rw [List.getLast?_concat, List.getLast?_concat] at hlast
      cases hlast
    | succ m =>
      rw [List.replicate_succ', List.replicate_succ', ← List.append_assoc, ← List.append_assoc] at h
      exact ih (List.append_cancel_right h)

/-! ## How far apart transitions are -/

/-- The clear cells at the end, with `gap` of them gone by before. -/
def trailGap (gap : Nat) : List Bool → Nat
  | [] => gap
  | true :: cells => trailGap 0 cells
  | false :: cells => trailGap (gap + 1) cells

theorem fluxGaps_append (gap : Nat) (a b : List Bool) :
    fluxGaps gap (a ++ b) = fluxGaps gap a ++ fluxGaps (trailGap gap a) b := by
  induction a generalizing gap with
  | nil => rfl
  | cons x a ih => cases x <;> simp [fluxGaps, trailGap, ih]

theorem fluxGaps_le (gap : Nat) (cells : List Bool) : ∀ n ∈ fluxGaps gap cells, n ≤ gap + cells.length := by
  induction cells generalizing gap with
  | nil => simp [fluxGaps]
  | cons b cells ih =>
    rw [List.length_cons]
    cases b with
    | false =>
      intro n hn
      have := ih (gap + 1) n hn
      omega
    | true =>
      intro n hn
      rcases List.mem_cons.mp hn with rfl | hn
      · omega
      · have := ih 0 n hn
        omega

theorem trailGap_le (gap : Nat) (cells : List Bool) : trailGap gap cells ≤ gap + cells.length := by
  induction cells generalizing gap with
  | nil => exact Nat.le_refl _
  | cons b cells ih =>
    rw [List.length_cons]
    cases b with
    | false =>
      have := ih (gap + 1)
      rw [trailGap]
      omega
    | true =>
      have := ih 0
      rw [trailGap]
      omega

theorem trailGap_lt {cells : List Bool} (h : true ∈ cells) (gap : Nat) : trailGap gap cells < cells.length := by
  induction cells generalizing gap with
  | nil => cases h
  | cons b cells ih =>
    rw [List.length_cons]
    cases b with
    | true =>
      have := trailGap_le 0 cells
      rw [trailGap]
      omega
    | false =>
      have hrest : true ∈ cells := by simpa using h
      have := ih hrest (gap + 1)
      rw [trailGap]
      omega

theorem true_mem_expandBits (prev a b : Bool) (ds : List Bool) : true ∈ expandBits prev (a :: b :: ds) := by
  cases a <;> cases b <;> simp [expandBits]

theorem fluxGaps_items (prev : Bool) (items : List TrackItem) {gap : Nat} (hgap : gap ≤ 15) :
    ∀ n ∈ fluxGaps gap (itemsCells prev items), n ≤ 31 := by
  -- sixteen cells with a transition leave at most fifteen clear ones behind
  have hstep : ∀ {cells : List Bool} {gap : Nat} {rest : List Bool}, cells.length = 16 → true ∈ cells → gap ≤ 15 →
      (∀ n ∈ fluxGaps (trailGap gap cells) rest, n ≤ 31) → ∀ n ∈ fluxGaps gap (cells ++ rest), n ≤ 31 := by
    intro cells gap rest hlen _ hgap hrest n hn
    rw [fluxGaps_append] at hn
    rcases List.mem_append.mp hn with hn | hn
    · have := fluxGaps_le gap cells n hn
      omega
    · exact hrest n hn
  induction items generalizing prev gap with
  | nil => simp [itemsCells, fluxGaps]
  | cons item items ih =>
    cases item with
    | byte b =>
      have hmem : true ∈ expandBits prev (byteBits b) := by
        have hbits : byteBits b = byteBit b 0 :: byteBit b 1 :: (byteBits b).drop 2 := by
          simp [byteBits, List.range_succ]
        rw [hbits]
        exact true_mem_expandBits _ _ _ _
      have hlen : (expandBits prev (byteBits b)).length = 16 := by simp
      exact hstep hlen hmem hgap (ih _ (by have := trailGap_lt hmem gap; omega))
    | mark =>
      have hmem : true ∈ wordBits syncWord := by decide
      have hlen : (wordBits syncWord).length = 16 := by simp
      exact hstep hlen hmem hgap (ih _ (by have := trailGap_lt hmem gap; omega))

theorem fluxGaps_mfmEncodeTrack (desc : MfmTrackDesc) :
    ∀ gap ∈ fluxGaps 0 (mfmEncodeTrack desc).cells, gap ≤ 31 := by
  obtain ⟨n, hcells⟩ := mfmEncodeTrack_cells desc
  rw [hcells]
  exact fluxGaps_items _ _ (Nat.zero_le _)

/-! ## An encoded track through its flux -/

theorem intervalCells_ends {ns : List Nat} :
    ns.flatMap intervalCells = [] ∨ ∃ cells, ns.flatMap intervalCells = cells ++ [true] := by
  induction ns using List.reverseRecOn with
  | nil => exact Or.inl rfl
  | append_singleton ns n _ =>
    refine Or.inr ⟨ns.flatMap intervalCells ++ List.replicate (n - 1) false, ?_⟩
    simp [intervalCells]

theorem intervalCells_length {ns : List Nat} (h : ∀ n ∈ ns, 0 < n) :
    (ns.flatMap intervalCells).length = ns.sum := by
  induction ns with
  | nil => rfl
  | cons n ns ih =>
    have hn : 0 < n := h n List.mem_cons_self
    rw [List.flatMap_cons, List.length_append, ih fun x hx => h x (List.mem_cons_of_mem _ hx), intervalCells,
      List.length_append, List.length_replicate, List.length_singleton, List.sum_cons]
    omega

theorem fluxGaps_sum_le (rev : MfmRev) : (fluxGaps 0 rev.cells).sum ≤ rev.nbits := by
  obtain ⟨k, hk⟩ := cells_of_fluxGaps 0 rev.cells
  have hlen := congrArg List.length hk
  rw [List.replicate_zero, List.nil_append, MfmRev.cells_length, List.length_append,
    intervalCells_length (fluxGaps_pos 0 rev.cells), List.length_replicate] at hlen
  omega

theorem fluxWords_length_le (t : Nat) : (fluxWords t).length ≤ t / 0x10000 + 1 := by
  induction t using fluxWords.induct with
  | case1 t hlt =>
    rw [fluxWords, if_pos hlt, List.length_singleton]
    omega
  | case2 => simp [fluxWords]
  | case3 t hge hne ih =>
    rw [fluxWords, if_neg hge, if_neg hne, List.length_cons]
    omega

theorem pushFluxRev_length_le (rev : MfmRev) : (pushFluxRev rev).length ≤ rev.nbits := by
  refine Nat.le_trans ?_ (fluxGaps_sum_le rev)
  have hpos := fluxGaps_pos 0 rev.cells
  rw [pushFluxRev]
  generalize fluxGaps 0 rev.cells = gaps at hpos ⊢
  induction gaps with
  | nil => exact Nat.le_refl _
  | cons gap gaps ih =>
    have hgap : 0 < gap := hpos gap List.mem_cons_self
    have hwords := fluxWords_length_le (gap * kTicksPerCell % 2 ^ 32)
    have hmod := Nat.mod_le (gap * kTicksPerCell) (2 ^ 32)
    have hrest := ih fun n hn => hpos n (List.mem_cons_of_mem _ hn)
    simp only [kTicksPerCell] at hwords hmod hrest ⊢
    rw [List.flatMap_cons, List.length_append, List.sum_cons]
    omega

theorem blockBytes_single {trk : MfmTrack} {cells : Nat} (hsingle : trk.length ≤ 1)
    (hcells : ∀ rev ∈ trk, rev.nbits ≤ cells) : blockBytes (cylinderFlux trk) ≤ 16 + 2 * cells := by
  match trk, hsingle, hcells with
  | [], _, _ => exact Nat.zero_le _
  | [rev], _, hrev =>
    have hwords := pushFluxRev_length_le rev
    have hcount := hrev rev List.mem_cons_self
    have hbytes : rev.flux.words.length = 2 * (pushFluxRev rev).length := be16s_length _
    simp only [cylinderFlux, List.isEmpty_cons, Bool.false_eq_true, if_false, List.map_cons, List.map_nil,
      blockBytes, List.length_singleton, List.sum_cons, List.sum_nil, hbytes]
    omega

theorem scpFromMfmTracks_length_le {cyls : List MfmTrack} {cells : Nat} (hsingle : ∀ trk ∈ cyls, trk.length ≤ 1)
    (hcells : ∀ trk ∈ cyls, ∀ rev ∈ trk, rev.nbits ≤ cells) :
    (scpFromMfmTracks cyls).length ≤ kScpTlutEnd + (16 + 2 * cells) * cyls.length := by
  have hblocks : ((cyls.map cylinderFlux).map blockBytes).sum ≤ (16 + 2 * cells) * cyls.length := by
    induction cyls with
    | nil => exact Nat.zero_le _
    | cons trk cyls ih =>
      have hfirst := blockBytes_single (hsingle trk List.mem_cons_self) (hcells trk List.mem_cons_self)
      have hrest := ih (fun t ht => hsingle t (List.mem_cons_of_mem _ ht))
        (fun t ht => hcells t (List.mem_cons_of_mem _ ht))
      rw [List.map_cons, List.map_cons, List.sum_cons, List.length_cons, Nat.mul_add]
      omega
  by_cases hnil : scpFromMfmTracks cyls = []
  · rw [hnil]
    exact Nat.zero_le _
  · obtain ⟨hassemble, -⟩ := scpFromMfmTracks_assemble hnil
    have hlen := assemble_length_add (cyls.map cylinderFlux) (revolutionCount cyls)
    rw [hassemble]
    omega

theorem pllDecode_pushFluxRev {rev : MfmRev} (hgaps : ∀ gap ∈ fluxGaps 0 rev.cells, gap ≤ 31)
    (hfits : rev.nbits ≤ kMaxBits) :
    ∃ bb, pllDecode (pushFluxRev rev) 80 .empty = .ok bb ∧
      bb.cells = (fluxGaps 0 rev.cells).flatMap intervalCells := by
  have hpos := fluxGaps_pos 0 rev.cells
  -- Gaps of at most 31 cells fit one word, and the words spell exact multiples of the cell.
  have hspell : ∀ gap ∈ fluxGaps 0 rev.cells, Spellable (gap * kTicksPerCell) := by
    intro gap hgap
    have hle := hgaps gap hgap
    have hlt := hpos gap hgap
    simp only [Spellable, kTicksPerCell]
    omega
  have hintervals := fluxIntervals_pushFluxRev hspell
  have hdiv : ∀ gap : Nat, gap * kTicksPerCell / kNominalTicks = gap := fun gap => by
    simp only [kTicksPerCell, kNominalTicks]
    omega
  have hsum := fluxGaps_sum_le rev
  have hwords : (pushFluxRev rev).length < 2 ^ 32 := by
    have hlen := pushFluxRev_length_le rev
    simp only [kMaxBits] at hfits
    omega
  obtain ⟨bb, hdecode, -, hcells⟩ := pllDecode_exact hwords
    (by
      rw [hintervals]
      intro t ht
      obtain ⟨gap, hgap, rfl⟩ := List.mem_map.mp ht
      exact ⟨Nat.mul_pos (hpos gap hgap) (by decide), (hspell gap hgap).1, Dvd.intro_left _ rfl⟩)
    (by
      rw [hintervals, List.map_map]
      simp only [Function.comp_def, hdiv, List.map_id']
      omega)
  refine ⟨bb, hdecode, ?_⟩
  rw [hcells, hintervals, List.flatMap_map]
  simp only [hdiv]

/-- **An encoded track comes back from its flux**: a well-formed track that ends in a gap and fits the
    decoder decodes from its emitted flux to its own sectors. -/
theorem decodeFlux_mfmEncodeTrack (desc : MfmTrackDesc) (hwf : WellFormedSectors desc.sectors)
    (hgap3 : desc.gap3 ≠ 0) (hfits : (mfmEncodeTrack desc).nbits ≤ kMaxBits) {payloadCap : Nat}
    (hcap : kMaxTrackBytes ≤ payloadCap) :
    (decodeFlux payloadCap (80, pushFluxRev (mfmEncodeTrack desc))).contents =
      desc.sectors.map MfmSector.scanned := by
  obtain ⟨g, l, hcells, hsec, hends⟩ := mfmEncodeTrack_layout desc hwf
  obtain ⟨g', l', cells, hsec', htrim, htail⟩ := layout_trim false (hends hgap3)
  obtain ⟨bb, hdecode, hbb⟩ := pllDecode_pushFluxRev (fluxGaps_mfmEncodeTrack desc) hfits
  -- the last gap byte's clear data bit is all the flux cannot carry
  obtain ⟨k, hk⟩ := cells_of_fluxGaps 0 (mfmEncodeTrack desc).cells
  rw [List.replicate_zero, List.nil_append] at hk
  have hsame := trim_clear_run (m := 2) intervalCells_ends ⟨cells, rfl⟩ (hk.symm.trans (hcells.trans htail))
  have hlayout : bb.cells = expandBits false g' ++ layoutCells (lastBit false g') l' := by
    rw [hbb, hsame, htrim]
  have hne : bb.n ≠ 0 := by
    rw [← bb.cells_length, hlayout, htrim]
    simp
  have hwf' : WellFormedSectors (l'.map Prod.fst) := by
    rw [hsec', hsec]
    exact hwf
  rw [decodeFlux, hdecode]
  simp only [Except.toOption, Option.map_some, Option.getD_some, trackOfCells, if_neg hne]
  rw [fluxTrackOf_contents bb hcap, scanTrack_layout hwf' hlayout, hsec', hsec]

end Koncepcja.Disk
