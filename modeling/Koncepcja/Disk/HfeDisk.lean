import Koncepcja.Disk.HfeRoundTrip
import Koncepcja.Disk.ScpWrite

/-!
# Saving a Written Flux Disc as HFE

The disk-level half of `src/hfe_write.cpp`: clean cylinders are rebuilt from revolution 0 of the capture,
dirty ones synthesized from the sectors, and all of them encoded as one HFE image.

## Main results

- `fluxIntervals_reconstructRev`: flux of whole 80-tick cells is rebuilt to the very same intervals.
- `hfeFromDisk_preserves`: the image read back decodes clean cylinders as the capture's revolution 0 and
  the others as their sectors.
-/

namespace Koncepcja.Disk

open Koncepcja.Bits Koncepcja.Bytes

set_option maxRecDepth 20000

/-! ## The source -/

/-- This writer's `ScpReader` over a source buffer. -/
structure HfeScpReader where
  legacy : Bool
  cyls : Nat

/-- `ScpReader::track_offset`; past the table nothing is present. -/
def HfeScpReader.trackOffset (reader : HfeScpReader) (scp : List UInt8) (cyl : Nat) : Nat :=
  if kScpTlutSlots ≤ (if reader.legacy then cyl else cyl * 2) then 0
  else Disk.trackOffset scp reader.legacy cyl

/-- This writer's `read_scp`; it does not look at the word width. -/
def hfeReadScp (scp : List UInt8) : Option HfeScpReader :=
  if scp.length < kScpTlutEnd ∨ scp.take 3 ≠ scpMagic then none
  else if byteAt scp 0x05 = 0 ∨ byteAt scp 0x0A = 2 then none
  else
    let legacy := legacyLayout scp
    let cyls := presentCyls scp legacy
    if 0 < cyls then some { legacy, cyls } else none

/-- The revolution a writer has emitted. -/
def CellWriter.rev (w : CellWriter) : MfmRev where
  bits := w.bits
  nbits := w.count
  covered := by
    have hsized := w.sized
    omega

/-- Clear cells up to a whole byte. -/
def CellWriter.padByte (w : CellWriter) : CellWriter :=
  (List.replicate ((8 - w.count % 8) % 8) false).foldl cell w

/-- The whole cells nearest to an interval, in 32-bit arithmetic at the fixed 80 ticks. -/
def wholeCells (interval : Nat) : Nat :=
  max ((interval + kTicksPerCell / 2) % 2 ^ 32 / kTicksPerCell) 1

/-- `reconstruct_rev`: revolution 0 of the block at `toff` as bit cells, a whole number of bytes. -/
def reconstructRev (scp : List UInt8) (toff : Nat) : MfmRev :=
  let entry := toff + 4
  if scp.length < entry + 12 then CellWriter.empty.rev
  else
    let words := rd32le scp (entry + 4)
    let start := toff + rd32le scp (entry + 8)
    if scp.length < start + 2 * words then CellWriter.empty.rev
    else
      let intervals := fluxIntervals 0 (be16Words (slice scp start (2 * words)))
      ((intervals.flatMap fun t => intervalCells (wholeCells t)).foldl CellWriter.cell .empty).padByte.rev

/-! ## The image -/

/-- What is encoded for a cylinder. -/
def hfeCylinder (scp : List UInt8) (reader : HfeScpReader) (synth : List MfmTrack) (dirty : Bool) (cyl : Nat) :
    MfmTrack :=
  if dirty then synth.getD cyl []
  else
    let toff := reader.trackOffset scp cyl
    if toff ≠ 0 then
      let rev := reconstructRev scp toff
      if rev.nbits ≠ 0 then [rev] else []
    else synth.getD cyl []

/-- The cylinders of the output image. -/
def hfeCylinders (scp : List UInt8) (reader : HfeScpReader) (synth : List MfmTrack)
    (trackDirty : Option (List Bool)) (ntracks : Nat) : List MfmTrack :=
  (List.range (min (max (max reader.cyls ntracks) synth.length) kMaxCyls)).map fun cyl =>
    hfeCylinder scp reader synth (isDirty trackDirty ntracks cyl) cyl

/-- `hfe_from_disk`; no source is a new flux disc. -/
def hfeFromDisk (orig : Option (List UInt8)) (dsk : List UInt8) (trackDirty : Option (List Bool))
    (ntracks : Nat) : Except HfeError (List UInt8) :=
  let synth := mfmTracksFromDsk dsk
  match orig with
  | none => hfeFromMfmTracks synth
  | some scp =>
    if !(scpGeometry scp).isOk then hfeFromMfmTracks synth
    else
      match hfeReadScp scp with
      | none => hfeFromMfmTracks synth
      | some reader => hfeFromMfmTracks (hfeCylinders scp reader synth trackDirty ntracks)

theorem hfeReadScp_of_geometry {scp : List UInt8} {g : ScpGeom} (h : scpGeometry scp = .ok g) :
    hfeReadScp scp = some ⟨g.legacy, g.cyls⟩ := by
  obtain ⟨⟨hlong, hmagic⟩, -, hrevs, hheads, hcyls, rfl⟩ := scpGeometry_ok h
  have hmagic' : ¬ (scp.length < kScpTlutEnd ∨ scp.take 3 ≠ scpMagic) := by
    rintro (hlt | hbad)
    · omega
    · exact hbad hmagic
  rw [hfeReadScp, if_neg hmagic', if_neg (not_or.mpr ⟨hrevs, hheads⟩)]
  exact if_pos (Nat.pos_of_ne_zero hcyls)

theorem hfeFromDisk_cylinders {scp : List UInt8} {g : ScpGeom} (hgeom : scpGeometry scp = .ok g) (dsk : List UInt8)
    (trackDirty : Option (List Bool)) (ntracks : Nat) :
    hfeFromDisk (some scp) dsk trackDirty ntracks =
      hfeFromMfmTracks (hfeCylinders scp ⟨g.legacy, g.cyls⟩ (mfmTracksFromDsk dsk) trackDirty ntracks) := by
  have hok : (scpGeometry scp).isOk = true := by
    rw [hgeom]
    rfl
  simp only [hfeFromDisk, hok, hfeReadScp_of_geometry hgeom]
  rfl

/-! ## Rebuilding whole cells -/

theorem fluxIntervals_spellable {words : List Nat} (hwords : ∀ w ∈ words, w < 0x10000) {carry : Nat}
    (hcarry : carry < 2 ^ 32) (haligned : carry % 0x10000 = 0) :
    ∀ t ∈ fluxIntervals carry words, Spellable t := by
  induction words generalizing carry with
  | nil => simp [fluxIntervals]
  | cons w words ih =>
    have hw := hwords w List.mem_cons_self
    have hrest : ∀ x ∈ words, x < 0x10000 := fun x hx => hwords x (List.mem_cons_of_mem _ hx)
    rw [fluxIntervals]
    split
    · exact ih hrest (Nat.mod_lt _ (by decide)) (by omega)
    · intro t ht
      rcases List.mem_cons.mp ht with rfl | ht
      · simp only [Spellable]
        omega
      · exact ih hrest (by decide) rfl t ht

theorem be16Words_lt (bytes : List UInt8) : ∀ w ∈ be16Words bytes, w < 0x10000 := by
  induction bytes using be16Words.induct with
  | case1 hi lo bytes ih =>
    intro w hw
    have hhi := hi.toNat_lt
    have hlo := lo.toNat_lt
    rcases List.mem_cons.mp hw with rfl | hw
    · omega
    · exact ih w hw
  | case2 bytes hshort =>
    intro w hw
    rw [be16Words] at hw
    · cases hw
    · exact hshort

theorem decodeFlux_congr {words words' : List Nat} (h : fluxIntervals 0 words = fluxIntervals 0 words')
    (payloadCap : Nat) (nominal : ℚ) :
    decodeFlux payloadCap (nominal, words) = decodeFlux payloadCap (nominal, words') := by
  rw [decodeFlux, decodeFlux, pllDecode, pllDecode, h]

theorem CellWriter.padByte_cells (w : CellWriter) :
    ∃ k, w.padByte.rev.cells = w.cells ++ List.replicate k false ∧ w.padByte.rev.nbits % 8 = 0 := by
  refine ⟨(8 - w.count % 8) % 8, cells_foldl_cell _ _, ?_⟩
  have hlen := congrArg List.length (cells_foldl_cell (List.replicate ((8 - w.count % 8) % 8) false) w)
  rw [List.length_append, List.length_replicate, cells_length, cells_length] at hlen
  show w.padByte.count % 8 = 0
  rw [padByte, hlen]
  omega

/-- Flux of whole 80-tick cells, no interval longer than a track. -/
def WholeFlux (words : List Nat) : Prop :=
  ∀ t ∈ fluxIntervals 0 words, kTicksPerCell ∣ t ∧ t ≤ kTicksPerCell * kMaxBits

theorem wholeCells_exact {t : Nat} (hmod : t % 0x10000 ≠ 0) (hwhole : kTicksPerCell ∣ t)
    (hle : t ≤ kTicksPerCell * kMaxBits) : 0 < wholeCells t ∧ wholeCells t * kTicksPerCell = t := by
  obtain ⟨n, rfl⟩ := hwhole
  simp only [kTicksPerCell, kMaxBits] at hmod hle
  -- far below the 32-bit wrap the rounding is exact
  have hwrap : (80 * n + 80 / 2) % 2 ^ 32 = 80 * n + 40 := Nat.mod_eq_of_lt (by omega)
  have hcells : wholeCells (80 * n) = n := by
    simp only [wholeCells, kTicksPerCell, hwrap]
    omega
  rw [kTicksPerCell, hcells]
  omega

theorem reconstructRev_cells {scp : List UInt8} {g : ScpGeom} {toff : Nat}
    (hintact : IntactTrack scp g.revs.toNat toff) (hpos : 0 < g.revs.toNat) {words : List Nat}
    (hrun : fluxRun scp g toff 0 = .ok words) :
    ∃ k, (reconstructRev scp toff).cells =
      (fluxIntervals 0 words).flatMap (fun t => intervalCells (wholeCells t)) ++ List.replicate k false := by
  have htable := hintact.table
  have hin := hintact.runs 0 hpos
  have hhead : ¬ (scp.length < toff + 4 + 12 * g.revs.toNat ∨ slice scp toff 3 ≠ trkMark) := by
    rintro (hlt | hbad)
    · omega
    · exact hbad hintact.mark
  rw [fluxRun, if_neg hhead] at hrun
  simp only [Nat.mul_zero, Nat.add_zero] at hrun hin
  rw [if_neg (by omega)] at hrun
  obtain rfl := Except.ok.inj hrun
  rw [reconstructRev]
  simp only
  rw [if_neg (by omega), if_neg (by omega)]
  obtain ⟨k, hcells, -⟩ := CellWriter.padByte_cells (((fluxIntervals 0 (be16Words (slice scp
    (toff + rd32le scp (toff + 4 + 8)) (2 * rd32le scp (toff + 4 + 4))))).flatMap
      fun t => intervalCells (wholeCells t)).foldl CellWriter.cell .empty)
  refine ⟨k, ?_⟩
  rw [hcells, CellWriter.cells_foldl_cell, CellWriter.cells_empty, List.nil_append]

/-- **Whole cells are rebuilt to the same intervals.** -/
theorem fluxIntervals_reconstructRev {scp : List UInt8} {g : ScpGeom} {toff : Nat}
    (hintact : IntactTrack scp g.revs.toNat toff) (hpos : 0 < g.revs.toNat) {words : List Nat}
    (hrun : fluxRun scp g toff 0 = .ok words) (hlt : ∀ w ∈ words, w < 0x10000) (hwhole : WholeFlux words) :
    fluxIntervals 0 (pushFluxRev (reconstructRev scp toff)) = fluxIntervals 0 words ∧
      ((reconstructRev scp toff).nbits = 0 → fluxIntervals 0 words = []) := by
  obtain ⟨k, hcells⟩ := reconstructRev_cells hintact hpos hrun
  have hspell := fluxIntervals_spellable hlt (by decide : 0 < 2 ^ 32) rfl
  have hexact : ∀ t ∈ fluxIntervals 0 words, 0 < wholeCells t ∧ wholeCells t * kTicksPerCell = t := fun t ht =>
    wholeCells_exact (hspell t ht).2 (hwhole t ht).1 (hwhole t ht).2
  have hgaps : fluxGaps 0 (reconstructRev scp toff).cells = (fluxIntervals 0 words).map wholeCells := by
    rw [hcells, ← List.flatMap_map]
    exact fluxGaps_intervalCells (fun n hn => by
      obtain ⟨t, ht, rfl⟩ := List.mem_map.mp hn
      exact (hexact t ht).1) k
  refine ⟨?_, fun hzero => ?_⟩
  · rw [fluxIntervals_pushFluxRev, hgaps, List.map_map]
    · -- every gap is its interval's own cells
      exact (List.map_congr_left fun t ht => (hexact t ht).2).trans (List.map_id' _)
    · rw [hgaps]
      intro gap hgap
      obtain ⟨t, ht, rfl⟩ := List.mem_map.mp hgap
      rw [(hexact t ht).2]
      exact hspell t ht
  · have hnil : (reconstructRev scp toff).cells = [] := by
      rw [← List.length_eq_zero_iff, MfmRev.cells_length, hzero]
    rw [hnil] at hgaps
    exact List.map_eq_nil_iff.mp hgaps.symm

/-! ## Reading the image back -/

theorem HfeScpReader.trackOffset_eq (reader : HfeScpReader) (scp : List UInt8) {cyl : Nat}
    (hcyl : cyl < kScpMaxCyls) : reader.trackOffset scp cyl = Disk.trackOffset scp reader.legacy cyl := by
  simp only [kScpMaxCyls] at hcyl
  rw [HfeScpReader.trackOffset, if_neg]
  simp only [kScpTlutSlots]
  split <;> omega

theorem readFlux_intact {scp : List UInt8} {g : ScpGeom} (hgeom : scpGeometry scp = .ok g)
    (hres : byteAt scp 0x0B = 0) {cyl : Nat} (hcyl : cyl < g.cyls) (hoff : trackOffset scp g.legacy cyl ≠ 0)
    (hintact : IntactTrack scp g.revs.toNat (trackOffset scp g.legacy cyl)) :
    ∃ words, fluxRun scp g (trackOffset scp g.legacy cyl) 0 = .ok words ∧
      readFlux scp cyl 0 = some (80, words) ∧ ∀ w ∈ words, w < 0x10000 := by
  obtain ⟨flux, -, hrun⟩ := hintact.fluxRun (g := g) (revs_bounds hgeom).1
  obtain ⟨-, -, -, -, -, hg⟩ := scpGeometry_ok hgeom
  have hnominal : g.nominal = 80 := by rw [hg, hres, nominalCell_zero]
  have hne : ¬ (g.cyls ≤ cyl ∨ trackOffset scp g.legacy cyl = 0) := not_or.mpr ⟨by omega, hoff⟩
  refine ⟨_, hrun, ?_, be16Words_lt _⟩
  rw [readFlux, hgeom]
  simp only
  rw [if_neg hne, Nat.zero_mod, hrun, hnominal]
  rfl

theorem hfeCylinders_getD (scp : List UInt8) (reader : HfeScpReader) (synth : List MfmTrack)
    (trackDirty : Option (List Bool)) (ntracks : Nat) {cyl : Nat}
    (hcyl : cyl < max (max reader.cyls ntracks) synth.length) (hmax : cyl < kScpMaxCyls) :
    (hfeCylinders scp reader synth trackDirty ntracks).getD cyl [] =
      hfeCylinder scp reader synth (isDirty trackDirty ntracks cyl) cyl := by
  have hrange : cyl < min (max (max reader.cyls ntracks) synth.length) kMaxCyls := lt_min hcyl hmax
  rw [hfeCylinders, List.getD_eq_getElem?_getD, List.getElem?_map, List.getElem?_range hrange]
  rfl

theorem hfeCylinder_single {scp : List UInt8} {reader : HfeScpReader} {dsk : List UInt8} {dirty : Bool} {cyl : Nat} :
    (hfeCylinder scp reader (mfmTracksFromDsk dsk) dirty cyl).length ≤ 1 := by
  have hsynth : ((mfmTracksFromDsk dsk).getD cyl []).length ≤ 1 := by
    rw [mfmTracksFromDsk_getD]
    split <;> simp
  rw [hfeCylinder]
  split
  · exact hsynth
  · simp only
    split
    · split <;> simp
    · exact hsynth

theorem hfeCylinder_pos {scp : List UInt8} {reader : HfeScpReader} {dsk : List UInt8} {dirty : Bool} {cyl : Nat} :
    ∀ rev ∈ hfeCylinder scp reader (mfmTracksFromDsk dsk) dirty cyl, 0 < rev.nbits := by
  have hsynth : ∀ rev ∈ (mfmTracksFromDsk dsk).getD cyl [], 0 < rev.nbits := by
    rw [mfmTracksFromDsk_getD]
    split
    · simp
    · rename_i desc _
      simp only [List.mem_singleton, forall_eq, mfmEncodeTrack_nbits, kRevCells]
      omega
  rw [hfeCylinder]
  split
  · exact hsynth
  · simp only
    split
    · split
      · rename_i hne
        simp only [List.mem_singleton, forall_eq]
        exact Nat.pos_of_ne_zero hne
      · simp
    · exact hsynth

theorem hfeToScp_saved {scp : List UInt8} {reader : HfeScpReader} {dsk : List UInt8} {trackDirty : Option (List Bool)}
    {ntracks : Nat} {hfe : List UInt8}
    (h : hfeFromMfmTracks (hfeCylinders scp reader (mfmTracksFromDsk dsk) trackDirty ntracks) = .ok hfe)
    (hfits : ∀ trk ∈ hfeCylinders scp reader (mfmTracksFromDsk dsk) trackDirty ntracks, ∀ rev ∈ trk,
      rev.nbits ≤ 8 * kMaxSide0Bytes) :
    ∃ out, hfeToScp hfe = .ok out ∧ ∀ cyl payloadCap, readTrack out cyl 0 payloadCap =
      (((hfeCylinders scp reader (mfmTracksFromDsk dsk) trackDirty ntracks).getD cyl []).head?.map fun rev =>
        decodeFlux payloadCap (80, pushFluxRev rev)).getD {} := by
  have hmem : ∀ trk ∈ hfeCylinders scp reader (mfmTracksFromDsk dsk) trackDirty ntracks,
      trk.length ≤ 1 ∧ ∀ rev ∈ trk, 0 < rev.nbits := by
    intro trk htrk
    obtain ⟨cyl, -, rfl⟩ := List.mem_map.mp htrk
    exact ⟨hfeCylinder_single, hfeCylinder_pos⟩
  generalize hfeCylinders scp reader (mfmTracksFromDsk dsk) trackDirty ntracks = cyls at h hfits hmem ⊢
  have hcarries := hfeCarries_of_countable h fun trk htrk rev hrev =>
    ⟨(hmem trk htrk).2 rev (List.mem_of_mem_head? hrev), hfits trk htrk rev (List.mem_of_mem_head? hrev)⟩
  obtain ⟨tracks, -, -, hscp⟩ := hcarries
  -- Each cylinder was saved with one revolution, which is its first.
  have hfirst : firstRevs cyls = cyls := by
    rw [firstRevs]
    exact (List.map_congr_left fun trk htrk => List.take_of_length_le (hmem trk htrk).1).trans (List.map_id' _)
  rw [hfirst] at hscp
  refine ⟨_, hscp, fun cyl payloadCap => ?_⟩
  obtain ⟨-, hmany, hpresent, -⟩ := hfeFromMfmTracks_ok h
  have hsingle : ∀ trk ∈ cyls, trk.length ≤ 1 := fun trk htrk => (hmem trk htrk).1
  have hsome : ∃ trk ∈ cyls, trk ≠ [] := by
    obtain ⟨trk, htrk, hp⟩ := List.any_eq_true.mp hpresent
    exact ⟨trk, htrk, by rintro rfl; cases hp⟩
  have hcount := revolutionCount_single hsingle hsome
  obtain ⟨hassemble, -⟩ := scpFromMfmTracks_assemble (scpFromMfmTracks_ne_nil hsingle hsome hmany)
  rw [hcount] at hassemble
  -- At most 84 side-0 tracks of the largest size: the offsets do not wrap.
  have hsize : (assemble (cyls.map cylinderFlux) 1).length < 2 ^ 32 := by
    have hlen := scpFromMfmTracks_length_le hsingle hfits
    rw [hassemble] at hlen
    simp only [kMaxSide0Bytes, kSideChunk, kScpTlutEnd, kScpTlutOff, kScpTlutSlots, kMaxCyls] at hlen hmany
    omega
  rw [hassemble, readTrack_assembled (by decide) (by decide) (by rw [List.length_map]; exact hmany) hsize,
    writtenFlux, List.getD_eq_getElem?_getD, List.getElem?_map, List.getD_eq_getElem?_getD]
  -- A cylinder behind the last one, without flux, or with its one revolution.
  cases hget : cyls[cyl]? with
  | none => rfl
  | some trk =>
    have hone := hsingle trk (List.mem_of_getElem? hget)
    rcases trk with _ | ⟨rev, _ | ⟨second, rest⟩⟩
    · rfl
    · rw [Nat.mod_one]
      show (some (decodeFlux payloadCap (80, be16Words rev.flux.words))).getD {} = _
      rw [be16Words_flux]
      rfl
    · simp only [List.length_cons] at hone
      omega

private theorem getD_mem {α : Type} {l : List α} {i : Nat} {d x : α} (h : l.getD i d = x) (hne : x ≠ d) : x ∈ l := by
  rw [List.getD_eq_getElem?_getD] at h
  cases hget : l[i]? with
  | none =>
    rw [hget] at h
    exact absurd h.symm hne
  | some y =>
    rw [hget] at h
    obtain rfl : y = x := h
    exact List.mem_of_getElem? hget

theorem hfeCylinders_synth {scp : List UInt8} {g : ScpGeom} (hgeom : scpGeometry scp = .ok g) {dsk : List UInt8}
    {trackDirty : Option (List Bool)} {ntracks cyl : Nat}
    (h : isDirty trackDirty ntracks cyl = true ∨ g.cyls ≤ cyl ∨ trackOffset scp g.legacy cyl = 0) :
    (hfeCylinders scp ⟨g.legacy, g.cyls⟩ (mfmTracksFromDsk dsk) trackDirty ntracks).getD cyl [] =
      (mfmTracksFromDsk dsk).getD cyl [] := by
  have hlen : (mfmTracksFromDsk dsk).length ≤ kScpMaxCyls := by
    rw [mfmTracksFromDsk_length]
    exact dskCylinders_length_le dsk
  by_cases hin : cyl < max (max g.cyls ntracks) (mfmTracksFromDsk dsk).length ∧ cyl < kScpMaxCyls
  · obtain ⟨hcyl, hmax⟩ := hin
    rw [hfeCylinders_getD _ _ _ _ _ hcyl hmax, hfeCylinder]
    cases hdirty : isDirty trackDirty ntracks cyl with
    | true => rfl
    | false =>
      have hzero : trackOffset scp g.legacy cyl = 0 := by
        rcases h with hd | hle | hzero
        · rw [hdirty] at hd
          cases hd
        · by_contra hne
          have hlt := lt_presentCyls hmax hne
          obtain ⟨-, -, -, -, -, hg⟩ := scpGeometry_ok hgeom
          have hcyls : g.cyls = presentCyls scp g.legacy := by rw [hg]
          omega
        · exact hzero
      simp only [Bool.false_eq_true, if_false, HfeScpReader.trackOffset_eq _ _ hmax, hzero, ne_eq,
        not_true_eq_false]
  · -- past the image and past the disc alike
    rw [List.getD_eq_default, List.getD_eq_default]
    · by_contra hlt
      exact hin ⟨lt_max_of_lt_right (by omega), by omega⟩
    · rw [hfeCylinders, List.length_map, List.length_range]
      by_contra hlt
      rw [not_le, lt_min_iff] at hlt
      exact hin hlt

/-! ## The image as a whole -/

/-- **Saving as HFE keeps clean cylinders and rewrites the others.** From a 25 ns capture, in an image
    whose tracks fit the byte count of the track table, a clean cylinder whose block is intact and whose
    revolution 0 is made of whole cells decodes as that revolution; a dirty cylinder, or one the capture
    does not have, decodes to its sectors where they are well formed. -/
theorem hfeFromDisk_preserves {scp : List UInt8} {g : ScpGeom} (hgeom : scpGeometry scp = .ok g)
    (hres : byteAt scp 0x0B = 0) (dsk : List UInt8) (trackDirty : Option (List Bool)) (ntracks : Nat)
    {hfe : List UInt8} (h : hfeFromDisk (some scp) dsk trackDirty ntracks = .ok hfe)
    (hfits : ∀ trk ∈ hfeCylinders scp ⟨g.legacy, g.cyls⟩ (mfmTracksFromDsk dsk) trackDirty ntracks, ∀ rev ∈ trk,
      rev.nbits ≤ 8 * kMaxSide0Bytes) :
    ∃ out, hfeToScp hfe = .ok out ∧ ∀ cyl payloadCap,
      (isDirty trackDirty ntracks cyl = false → cyl < g.cyls → trackOffset scp g.legacy cyl ≠ 0 →
        IntactTrack scp g.revs.toNat (trackOffset scp g.legacy cyl) →
        (∀ flux ∈ readFlux scp cyl 0, WholeFlux flux.2) →
          readTrack out cyl 0 payloadCap = readTrack scp cyl 0 payloadCap) ∧
      (isDirty trackDirty ntracks cyl = true ∨ g.cyls ≤ cyl ∨ trackOffset scp g.legacy cyl = 0 →
        WellFormedSectors (synthSectors dsk cyl) → kMaxTrackBytes ≤ payloadCap →
          (readTrack out cyl 0 payloadCap).contents = (synthSectors dsk cyl).map MfmSector.scanned) := by
  rw [hfeFromDisk_cylinders hgeom] at h
  obtain ⟨out, hscp, hread⟩ := hfeToScp_saved h hfits
  refine ⟨out, hscp, fun cyl payloadCap => ⟨fun hclean hcyl hoff hintact hwhole => ?_, fun hrest hwf hcap => ?_⟩⟩
  · obtain ⟨hpos, -⟩ := revs_bounds hgeom
    have hmax : cyl < kScpMaxCyls := by
      have hle := presentCyls_le scp g.legacy
      obtain ⟨-, -, -, -, -, hg⟩ := scpGeometry_ok hgeom
      have hcyls : g.cyls = presentCyls scp g.legacy := by rw [hg]
      omega
    obtain ⟨words, hrun, hsource, hlt⟩ := readFlux_intact hgeom hres hcyl hoff hintact
    obtain ⟨hintervals, hempty⟩ := fluxIntervals_reconstructRev hintact hpos hrun hlt (hwhole _ hsource)
    rw [hread, readTrack_eq, hsource, Option.map_some, Option.getD_some,
      hfeCylinders_getD _ _ _ _ _ (lt_max_of_lt_left (lt_max_of_lt_left hcyl)) hmax, hfeCylinder, hclean]
    simp only [Bool.false_eq_true, if_false, HfeScpReader.trackOffset_eq _ _ hmax, if_pos hoff]
    by_cases hzero : (reconstructRev scp (trackOffset scp g.legacy cyl)).nbits = 0
    · -- nothing rebuilt, nothing to decode
      have hnone := hempty hzero
      rw [if_neg (not_not_intro hzero), show decodeFlux payloadCap (80, _) = decodeFlux payloadCap (80, []) from
        decodeFlux_congr hnone payloadCap 80]
      rfl
    · rw [if_pos hzero]
      exact decodeFlux_congr hintervals payloadCap 80
  · have hsynth := @hfeCylinders_synth _ _ hgeom dsk _ _ _ hrest
    rw [hread, hsynth]
    rw [mfmTracksFromDsk_getD] at hsynth ⊢
    rw [synthSectors] at hwf ⊢
    cases hdesc : (dskCylinders dsk).getD cyl none with
    | none => rfl
    | some desc =>
      rw [hdesc] at hwf hsynth
      simp only at hwf hsynth ⊢
      have hmem : [mfmEncodeTrack desc] ∈
          hfeCylinders scp ⟨g.legacy, g.cyls⟩ (mfmTracksFromDsk dsk) trackDirty ntracks :=
        getD_mem hsynth (by simp)
      have hdescs : some desc ∈ dskCylinders dsk := getD_mem hdesc (by simp)
      exact decodeFlux_mfmEncodeTrack desc hwf (dskCylinders_gap3 hdescs)
        (hfits _ hmem _ List.mem_cons_self) hcap

/-! ## Which images are made -/

theorem mfmEncodeTrack_whole (desc : MfmTrackDesc) : (mfmEncodeTrack desc).nbits % 8 = 0 := by
  rw [mfmEncodeTrack_nbits]
  simp only [kRevCells]
  omega

theorem reconstructRev_whole (scp : List UInt8) (toff : Nat) : (reconstructRev scp toff).nbits % 8 = 0 := by
  rw [reconstructRev]
  simp only
  split
  · rfl
  · split
    · rfl
    · obtain ⟨k, -, hwhole⟩ := CellWriter.padByte_cells (((fluxIntervals 0 (be16Words (slice scp
        (toff + rd32le scp (toff + 4 + 8)) (2 * rd32le scp (toff + 4 + 4))))).flatMap
          fun t => intervalCells (wholeCells t)).foldl CellWriter.cell .empty)
      exact hwhole

theorem hfeFromDisk_isOk {scp : List UInt8} {g : ScpGeom} (hgeom : scpGeometry scp = .ok g) (dsk : List UInt8)
    {trackDirty : Option (List Bool)} {ntracks cyl : Nat} (hclean : isDirty trackDirty ntracks cyl = false)
    (hcyl : cyl < g.cyls) (hmax : cyl < kScpMaxCyls) (hoff : trackOffset scp g.legacy cyl ≠ 0)
    (hcells : (reconstructRev scp (trackOffset scp g.legacy cyl)).nbits ≠ 0) :
    ∃ hfe, hfeFromDisk (some scp) dsk trackDirty ntracks = .ok hfe := by
  rw [hfeFromDisk_cylinders hgeom]
  have hrange : cyl < max (max g.cyls ntracks) (mfmTracksFromDsk dsk).length :=
    lt_max_of_lt_left (lt_max_of_lt_left hcyl)
  have htrk : hfeCylinder scp ⟨g.legacy, g.cyls⟩ (mfmTracksFromDsk dsk) false cyl =
      [reconstructRev scp (trackOffset scp g.legacy cyl)] := by
    rw [hfeCylinder]
    simp only [Bool.false_eq_true, if_false, HfeScpReader.trackOffset_eq _ _ hmax, if_pos hoff, if_pos hcells]
  -- The clean cylinder is present in the image.
  have hget := hfeCylinders_getD scp ⟨g.legacy, g.cyls⟩ (mfmTracksFromDsk dsk) trackDirty ntracks hrange hmax
  rw [hclean, htrk] at hget
  apply hfeFromMfmTracks_isOk
  · rw [hfeCylinders, List.length_map, List.length_range]
    exact Nat.min_le_right _ _
  · refine List.any_eq_true.mpr ⟨_, getD_mem hget (by simp), ?_⟩
    simpa [hfePresent] using hcells
  · intro trk htrk' rev hrev
    obtain ⟨c, -, rfl⟩ := List.mem_map.mp htrk'
    have hmem := List.mem_of_mem_head? hrev
    -- Synthesized and reconstructed tracks are whole bytes.
    have hsynth : ∀ r ∈ (mfmTracksFromDsk dsk).getD c [], r.nbits % 8 = 0 := by
      rw [mfmTracksFromDsk_getD]
      split
      · simp
      · simpa using mfmEncodeTrack_whole _
    rw [hfeCylinder] at hmem
    split at hmem
    · exact hsynth rev hmem
    · simp only at hmem
      split at hmem
      · split at hmem
        · obtain rfl := List.mem_singleton.mp hmem
          exact reconstructRev_whole _ _
        · cases hmem
      · exact hsynth rev hmem

/-! ### The two-cylinder capture as HFE -/

theorem samples_rebuilt : trackOffset sampleCapture false 1 = 708 ∧
    (reconstructRev sampleCapture (trackOffset sampleCapture false 1)).nbits = 8 ∧
      (mfmTracksFromDsk (oneSectorDsk 0)).length = 1 :=
  ⟨by decide, by decide, (mfmTracksFromDsk_length _).trans (by decide)⟩

theorem sampleCapture_offset : trackOffset sampleCapture false 1 = 708 := samples_rebuilt.1

theorem sampleCapture_rebuilt : (reconstructRev sampleCapture (trackOffset sampleCapture false 1)).nbits = 8 :=
  samples_rebuilt.2.1

theorem sampleCapture_hfe (dsk : List UInt8) :
    ∃ hfe, hfeFromDisk (some sampleCapture) dsk (some [true, false]) 2 = .ok hfe :=
  @hfeFromDisk_isOk _ _ sampleCapture_geometry dsk _ _ 1 rfl (by decide) (by decide)
    (by
      show trackOffset sampleCapture false 1 ≠ 0
      rw [sampleCapture_offset]
      decide)
    (by
      show (reconstructRev sampleCapture (trackOffset sampleCapture false 1)).nbits ≠ 0
      rw [sampleCapture_rebuilt]
      decide)

theorem sampleCapture_hfe_fits : ∀ trk ∈ hfeCylinders sampleCapture ⟨sampleGeom.legacy, sampleGeom.cyls⟩
    (mfmTracksFromDsk (oneSectorDsk 0)) (some [true, false]) 2, ∀ rev ∈ trk, rev.nbits ≤ 8 * kMaxSide0Bytes := by
  have htracks := samples_rebuilt.2.2
  intro trk htrk rev hrev
  obtain ⟨cyl, hcyl, rfl⟩ := List.mem_map.mp htrk
  rw [htracks] at hcyl
  have hcase : cyl = 0 ∨ cyl = 1 := by
    have hlt : cyl < 2 := List.mem_range.mp hcyl
    omega
  rcases hcase with rfl | rfl
  · exact oneSectorDsk_cells rev hrev
  · rw [hfeCylinder] at hrev
    have hrebuilt := sampleCapture_rebuilt
    rw [sampleCapture_offset] at hrebuilt
    have hoff : (⟨sampleGeom.legacy, sampleGeom.cyls⟩ : HfeScpReader).trackOffset sampleCapture 1 = 708 := by
      rw [HfeScpReader.trackOffset_eq _ _ (by decide)]
      exact sampleCapture_offset
    have hclean : isDirty (some [true, false]) 2 1 = false := rfl
    simp only [hclean, Bool.false_eq_true, if_false, hoff, hrebuilt, ne_eq, OfNat.ofNat_ne_zero,
      not_false_eq_true, if_true, List.mem_singleton] at hrev
    rw [hrev, hrebuilt]
    decide

theorem hfeFromDisk_preserves_sample :
    ∃ hfe out, hfeFromDisk (some sampleCapture) (oneSectorDsk 0) (some [true, false]) 2 = .ok hfe ∧
      hfeToScp hfe = .ok out ∧
      readTrack out 1 0 kMaxTrackBytes = readTrack sampleCapture 1 0 kMaxTrackBytes ∧
      (readTrack out 0 0 kMaxTrackBytes).contents = [⟨⟨0, 0, 0xC1, 0⟩, List.replicate 128 0xE5, 0, 0⟩] := by
  obtain ⟨hfe, hsaved⟩ := sampleCapture_hfe (oneSectorDsk 0)
  obtain ⟨out, hscp, hread⟩ := hfeFromDisk_preserves sampleCapture_geometry (by decide) (oneSectorDsk 0)
    (some [true, false]) 2 hsaved sampleCapture_hfe_fits
  have hne : trackOffset sampleCapture sampleGeom.legacy 1 ≠ 0 := by
    show trackOffset sampleCapture false 1 ≠ 0
    rw [sampleCapture_offset]
    decide
  -- The clean track of the capture: two intervals, both whole cells.
  have hwhole : ∀ flux ∈ readFlux sampleCapture 1 0, WholeFlux flux.2 := by
    obtain ⟨words, hrun, hflux, -⟩ := @readFlux_intact _ _ sampleCapture_geometry (by decide) 1
      (by decide) hne sampleCapture_intact
    have hwords : (fluxRun sampleCapture sampleGeom 708 0).toOption = some [160, 240] := by decide
    have hoff : trackOffset sampleCapture sampleGeom.legacy 1 = 708 := sampleCapture_offset
    rw [hoff] at hrun
    rw [hrun] at hwords
    obtain rfl : words = [160, 240] := Option.some.inj hwords
    intro flux hmem
    rw [hflux] at hmem
    obtain rfl := Option.some.inj hmem
    intro t ht
    have hcase : t = 160 ∨ t = 240 := by simpa [fluxIntervals] using ht
    rcases hcase with rfl | rfl <;> decide
  -- The dirty cylinder is read back as the sector of the DSK.
  have hdirty := (hread 0 kMaxTrackBytes).2 (Or.inl rfl) (oneSectorDsk_sectors ▸ oneSector_wellFormed) (Nat.le_refl _)
  rw [oneSectorDsk_sectors] at hdirty
  exact ⟨hfe, out, hsaved, hscp, (hread 1 kMaxTrackBytes).1 rfl (by decide) hne sampleCapture_intact hwhole, hdirty⟩

/-- Preservation without exception: read back, every clean cylinder decodes as revolution 0 of the source,
    every dirty one to the sectors the controller finds on the disc image. -/
def HfeSavesEverything (scp : List UInt8) (m : FdcMedia) (trackDirty : Option (List Bool)) (ntracks : Nat)
    (hfe : List UInt8) : Prop :=
  ∃ out, hfeToScp hfe = .ok out ∧ ∀ cyl,
    (isDirty trackDirty ntracks cyl = false →
      (readTrack out cyl 0 kMaxTrackBytes).contents = (readTrack scp cyl 0 kMaxTrackBytes).contents) ∧
    (isDirty trackDirty ntracks cyl = true →
      (readTrack out cyl 0 kMaxTrackBytes).sec.map (·.chrn) = (m.trackAt cyl 0).sec.map (·.chrn))

/-- The 8192-byte sector is on no HFE image either. -/
theorem oversized_sector_not_in_hfe :
    parseDsk (oneSectorDsk 6) = some (oneSectorMedia 6) ∧
      ∃ hfe, hfeFromDisk (some sampleCapture) (oneSectorDsk 6) (some [true, false]) 2 = .ok hfe ∧
        ¬ HfeSavesEverything sampleCapture (oneSectorMedia 6) (some [true, false]) 2 hfe := by
  obtain ⟨hfe, hsaved⟩ := sampleCapture_hfe (oneSectorDsk 6)
  refine ⟨by decide, hfe, hsaved, ?_⟩
  rintro ⟨out, -, hsaves⟩
  have hids := (hsaves 0).2 rfl
  have hmedia : ((oneSectorMedia 6).trackAt 0 0).sec.map (·.chrn) = [⟨0, 0, 0xC1, 6⟩] := rfl
  exact readTrack_ne_oversized out 0 0 kMaxTrackBytes (hids.trans hmedia)

end Koncepcja.Disk
