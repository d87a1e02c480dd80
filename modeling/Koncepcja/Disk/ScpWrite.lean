import Koncepcja.Disk.DskAgreement
import Koncepcja.Disk.FluxRecover

/-!
# Saving a Written Flux Disc

`src/scp_write.cpp`: an SCP image from the current sector image and the original capture. Clean
cylinders are spliced out of the capture, dirty ones synthesized from the sectors.

## Main results

- `readFlux_clean`: a clean cylinder's flux words come through unchanged, under the 25 ns resolution.
- `readTrack_dirty`: a dirty cylinder decodes to the sectors it was synthesized from.
- `scpFromDisk_preserves`: both for a whole image.
-/

namespace Koncepcja.Disk

open Koncepcja.Bytes Koncepcja.Binary64

set_option maxRecDepth 20000

/-! ## The source -/

/-- `ScpReader` over a source buffer. -/
structure ScpReader where
  revs : UInt8
  legacy : Bool
  cyls : Nat

/-- `ScpReader::track_offset`; past the table nothing is present. -/
def ScpReader.trackOffset (reader : ScpReader) (scp : List UInt8) (cyl : Nat) : Nat :=
  if kScpTlutSlots ≤ (if reader.legacy then cyl else cyl * 2) then 0
  else Disk.trackOffset scp reader.legacy cyl

def readScp (scp : List UInt8) : Option ScpReader :=
  if scp.length < kScpTlutEnd ∨ scp.take 3 ≠ scpMagic then none
  else if byteAt scp 0x09 ≠ 0 ∧ byteAt scp 0x09 ≠ 16 then none
  else if byteAt scp 0x05 = 0 then none
  else if byteAt scp 0x0A = 2 then none
  else
    let legacy := legacyLayout scp
    let cyls := presentCyls scp legacy
    if 0 < cyls then some { revs := byteAt scp 0x05, legacy, cyls } else none

/-- `extract_rev`: revolution `rev` of the block at `toff`. -/
def extractRev (scp : List UInt8) (toff rev : Nat) : Option FluxRev :=
  let tdh := toff + 4 + 12 * rev
  if scp.length < tdh + 12 then none
  else
    let words := rd32le scp (tdh + 4)
    let start := toff + rd32le scp (tdh + 8)
    if h : start + 2 * words ≤ scp.length then
      some
        { duration := rd32le scp tdh
          words := slice scp start (2 * words)
          whole := by
            rw [slice_length h]
            omega }
    else none

/-- Revolutions `rev`, `rev + 1`, … of a block, `count` of them. -/
def extractRevs (scp : List UInt8) (toff : Nat) : Nat → Nat → Option (List FluxRev)
  | _, 0 => some []
  | rev, count + 1 =>
    match extractRev scp toff rev with
    | none => none
    | some flux => (extractRevs scp toff (rev + 1) count).map (flux :: ·)

/-- `synth_rev`: one revolution's flux by way of a throwaway container. -/
def synthRev (rev : MfmRev) : Option FluxRev :=
  let mini := scpFromMfmTracks [[rev]]
  (readScp mini).bind fun reader =>
    let toff := reader.trackOffset mini 0
    if toff = 0 then none else extractRev mini toff 0

/-! ## The image -/

/-- The dirty map at a cylinder; no map means everything is clean. -/
def isDirty (trackDirty : Option (List Bool)) (ntracks cyl : Nat) : Bool :=
  match trackDirty with
  | none => false
  | some dirty => cyl < ntracks && dirty.getD cyl false

/-- `resolve_cylinder`: what is written for a cylinder. -/
def resolveCylinder (scp : List UInt8) (reader : ScpReader) (synth : List MfmTrack) (dirty : Bool) (cyl : Nat) :
    Option (List FluxRev) :=
  if dirty then
    match synth.getD cyl [] with
    | [] => none
    | rev :: _ => (synthRev rev).map (List.replicate reader.revs.toNat)
  else
    let toff := reader.trackOffset scp cyl
    if toff = 0 then none else extractRevs scp toff 0 reader.revs.toNat

/-- The cylinders of the output image. -/
def totalCyls (reader : ScpReader) (ntracks synth : Nat) : Nat :=
  min (max (max reader.cyls ntracks) synth) kScpMaxCyls

/-- `scp_from_disk`; no source is a new flux disc. -/
def scpFromDisk (orig : Option (List UInt8)) (dsk : List UInt8) (trackDirty : Option (List Bool))
    (ntracks : Nat) : List UInt8 :=
  let synth := mfmTracksFromDsk dsk
  match orig with
  | none => scpFromMfmTracks synth
  | some scp =>
    if !(scpGeometry scp).isOk then scpFromMfmTracks synth
    else if !(List.range ntracks).any (isDirty trackDirty ntracks) then scp
    else
      match readScp scp with
      | none => scpFromMfmTracks synth
      | some reader =>
        let total := totalCyls reader ntracks synth.length
        assemble
          ((List.range total).map fun cyl =>
            resolveCylinder scp reader synth (isDirty trackDirty ntracks cyl) cyl)
          reader.revs.toNat

/-! ## The two readers agree -/

theorem readScp_of_geometry {scp : List UInt8} {g : ScpGeom} (h : scpGeometry scp = .ok g) :
    readScp scp = some ⟨g.revs, g.legacy, g.cyls⟩ := by
  obtain ⟨⟨hlong, hmagic⟩, hwidth, hrevs, hheads, hcyls, rfl⟩ := scpGeometry_ok h
  have hmagic' : ¬ (scp.length < kScpTlutEnd ∨ scp.take 3 ≠ scpMagic) := by
    rintro (hlt | hbad)
    · omega
    · exact hbad hmagic
  have hwidth' : ¬ (byteAt scp 0x09 ≠ 0 ∧ byteAt scp 0x09 ≠ 16) := by
    rintro ⟨hzero, hsixteen⟩
    exact hwidth.elim hzero hsixteen
  rw [readScp, if_neg hmagic', if_neg hwidth', if_neg hrevs, if_neg hheads]
  have hpos := Nat.pos_of_ne_zero hcyls
  rw [if_pos hpos]

theorem ScpReader.trackOffset_eq (reader : ScpReader) (scp : List UInt8) {cyl : Nat} (hcyl : cyl < kScpMaxCyls) :
    reader.trackOffset scp cyl = Disk.trackOffset scp reader.legacy cyl := by
  simp only [kScpMaxCyls] at hcyl
  rw [ScpReader.trackOffset, if_neg]
  simp only [kScpTlutSlots]
  split <;> omega

/-- A block every revolution of which lies inside the file behind its mark. -/
structure IntactTrack (scp : List UInt8) (revs toff : Nat) : Prop where
  mark : slice scp toff 3 = trkMark
  table : toff + 4 + 12 * revs ≤ scp.length
  runs : ∀ r < revs, toff + rd32le scp (toff + 4 + 12 * r + 8) + 2 * rd32le scp (toff + 4 + 12 * r + 4) ≤
    scp.length

theorem IntactTrack.fluxRun {scp : List UInt8} {g : ScpGeom} {toff r : Nat}
    (h : IntactTrack scp g.revs.toNat toff) (hr : r < g.revs.toNat) :
    ∃ flux, extractRev scp toff r = some flux ∧ Disk.fluxRun scp g toff r = .ok (be16Words flux.words) := by
  have htable := h.table
  have hrun := h.runs r hr
  have hhead : ¬ (scp.length < toff + 4 + 12 * g.revs.toNat ∨ slice scp toff 3 ≠ trkMark) := by
    rintro (hlt | hbad)
    · omega
    · exact hbad h.mark
  rw [Disk.fluxRun, extractRev, if_neg hhead]
  simp only
  rw [if_neg (by omega), dif_pos hrun, if_neg (by omega)]
  exact ⟨_, rfl, rfl⟩

theorem extractRevs_run {scp : List UInt8} {toff count rev : Nat} {words : Nat → List Nat}
    (h : ∀ r, rev ≤ r → r < rev + count → ∃ flux, extractRev scp toff r = some flux ∧ be16Words flux.words = words r) :
    ∃ fluxes, extractRevs scp toff rev count = some fluxes ∧ fluxes.length = count ∧
      ∀ k < count, ∃ flux, fluxes[k]? = some flux ∧ be16Words flux.words = words (rev + k) := by
  induction count generalizing rev with
  | zero => exact ⟨[], rfl, rfl, fun k hk => absurd hk (Nat.not_lt_zero k)⟩
  | succ count ih =>
    obtain ⟨flux, hflux, hwords⟩ := h rev (Nat.le_refl _) (by omega)
    obtain ⟨fluxes, hrest, hlen, hget⟩ := @ih (rev + 1) fun r hlo hhi => h r (by omega) (by omega)
    refine ⟨flux :: fluxes, ?_, by rw [List.length_cons, hlen], fun k hk => ?_⟩
    · rw [extractRevs, hflux]
      simp only [hrest, Option.map_some]
    · match k with
      | 0 => exact ⟨flux, rfl, hwords⟩
      | k + 1 =>
        obtain ⟨flux', hk', hwords'⟩ := hget k (by omega)
        refine ⟨flux', by rw [List.getElem?_cons_succ, hk'], ?_⟩
        rw [hwords']
        congr 1
        omega

/-! ## Synthesized cylinders -/

theorem synthRev_words {rev : MfmRev} (hfits : rev.nbits ≤ kMaxBits) :
    ∃ flux, synthRev rev = some flux ∧ flux.words = rev.flux.words := by
  -- One revolution of at most `kMaxBits` cells makes a dump whose offsets do not wrap.
  have hsize := @scpFromMfmTracks_length_le [[rev]] kMaxBits (by simp) (by simpa using hfits)
  replace hsize : (scpFromMfmTracks [[rev]]).length < 2 ^ 32 := by
    simp only [kScpTlutEnd, kScpTlutOff, kScpTlutSlots, kMaxBits, List.length_singleton] at hsize
    omega
  have hne : scpFromMfmTracks [[rev]] ≠ [] :=
    scpFromMfmTracks_ne_nil (by simp) ⟨[rev], by simp, by simp⟩ (by simp [kScpMaxCyls])
  obtain ⟨hassemble, -, -, -, -⟩ := scpFromMfmTracks_assemble hne
  have hcount : revolutionCount [[rev]] = 1 := rfl
  have hflux : [[rev]].map cylinderFlux = [some [rev.flux]] := rfl
  rw [hcount, hflux] at hassemble
  rw [hassemble] at hsize
  simp only [synthRev, hassemble]
  generalize hscp : assemble [some [rev.flux]] 1 = scp at hsize
  -- So the words that are read back from the dump are those that were put in.
  have hcont : Assembled scp 1 [some [rev.flux]] := by
    rw [← hscp] at hsize ⊢
    exact assemble_assembled (by simp [kScpMaxCyls]) hsize
  have hwritten : writtenFlux 1 [some [rev.flux]] 0 = some [rev.flux] := rfl
  obtain ⟨g, hg, -, hlegacy, -, -⟩ := hcont.geometry (by decide) (by decide) hwritten
  obtain ⟨-, htrack⟩ := hcont.present 0 _ hwritten
  have hoff : (⟨g.revs, g.legacy, g.cyls⟩ : ScpReader).trackOffset scp 0 = rd32le scp (kScpTlutOff + 8 * 0) := by
    rw [ScpReader.trackOffset_eq _ _ (by decide), hlegacy]
    rfl
  generalize rd32le scp (kScpTlutOff + 8 * 0) = toff at htrack hoff
  have hbehind := htrack.behind
  have htoff : toff ≠ 0 := by
    simp only [kScpTlutEnd, kScpTlutOff, kScpTlutSlots] at hbehind
    omega
  have htable := htrack.inside
  obtain ⟨hwords, hinside, hdata⟩ := htrack.revs 0 rev.flux rfl
  have hwhole := rev.flux.whole
  have hdouble : 2 * (rev.flux.words.length / 2) = rev.flux.words.length := by omega
  rw [List.length_singleton] at htable
  simp only [readScp_of_geometry hg, Option.bind_some, hoff, if_neg htoff, extractRev, hwords, hdouble]
  rw [if_neg (by omega), dif_pos hinside]
  exact ⟨_, rfl, hdata⟩

theorem dskCylinders_gap3 {dsk : List UInt8} {desc : MfmTrackDesc} (h : some desc ∈ dskCylinders dsk) :
    desc.gap3 ≠ 0 := by
  rw [dskCylinders] at h
  split at h
  · cases h
  · split at h
    · cases h
    · rename_i extended _
      simp only at h
      split at h
      · cases h
      · obtain ⟨cyl, -, hcyl⟩ := List.mem_map.mp h
        rw [dskCylinder] at hcyl
        split at hcyl
        · cases hcyl
        · split at hcyl
          · cases hcyl
          · split at hcyl
            · cases hcyl
            · obtain rfl := Option.some.inj hcyl
              rw [parseDskTrack]
              simp only
              split
              · assumption
              · decide

theorem dskCylinders_length_le (dsk : List UInt8) : (dskCylinders dsk).length ≤ kScpMaxCyls := by
  rw [dskCylinders]
  split
  · exact Nat.zero_le _
  · split
    · exact Nat.zero_le _
    · simp only
      split
      · exact Nat.zero_le _
      · rw [List.length_map, List.length_range]
        exact Nat.min_le_right _ _

theorem mfmTracksFromDsk_getD (dsk : List UInt8) (cyl : Nat) :
    (mfmTracksFromDsk dsk).getD cyl [] =
      match (dskCylinders dsk).getD cyl none with
      | none => []
      | some desc => [mfmEncodeTrack desc] := by
  rw [mfmTracksFromDsk, List.getD_eq_getElem?_getD, List.getElem?_map, List.getD_eq_getElem?_getD]
  cases (dskCylinders dsk)[cyl]? with
  | none => rfl
  | some desc =>
    cases desc with
    | none => rfl
    | some desc =>
      have hpos : (mfmEncodeTrack desc).nbits ≠ 0 := by
        rw [mfmEncodeTrack_nbits]
        simp only [kRevCells]
        omega
      simp [hpos]

theorem mfmTracksFromDsk_length (dsk : List UInt8) : (mfmTracksFromDsk dsk).length = (dskCylinders dsk).length := by
  rw [mfmTracksFromDsk, List.length_map]

theorem mfmTracksFromDsk_fits {dsk : List UInt8} {cyl : Nat} {desc : MfmTrackDesc}
    (hdesc : (dskCylinders dsk).getD cyl none = some desc) (hbytes : 16 * trackBytes desc ≤ kMaxBits) :
    ∀ rev ∈ (mfmTracksFromDsk dsk).getD cyl [], rev.nbits ≤ kMaxBits := by
  rw [mfmTracksFromDsk_getD, hdesc]
  simp only [List.mem_singleton, forall_eq, mfmEncodeTrack_nbits]
  simp only [kRevCells, kMaxBits] at hbytes ⊢
  omega

/-! ## What is written -/

/-- The cylinders of a mixed image, clean ones spliced and dirty ones synthesized. -/
def resolvedCylinders (scp : List UInt8) (g : ScpGeom) (dsk : List UInt8) (trackDirty : Option (List Bool))
    (ntracks : Nat) : List (Option (List FluxRev)) :=
  (List.range (totalCyls ⟨g.revs, g.legacy, g.cyls⟩ ntracks (mfmTracksFromDsk dsk).length)).map fun cyl =>
    resolveCylinder scp ⟨g.revs, g.legacy, g.cyls⟩ (mfmTracksFromDsk dsk) (isDirty trackDirty ntracks cyl) cyl

theorem scpFromDisk_assemble {scp : List UInt8} {g : ScpGeom} (hgeom : scpGeometry scp = .ok g) (dsk : List UInt8)
    {trackDirty : Option (List Bool)} {ntracks : Nat}
    (hdirty : (List.range ntracks).any (isDirty trackDirty ntracks) = true) :
    scpFromDisk (some scp) dsk trackDirty ntracks =
      assemble (resolvedCylinders scp g dsk trackDirty ntracks) g.revs.toNat := by
  have hok : (scpGeometry scp).isOk = true := by
    rw [hgeom]
    rfl
  simp only [scpFromDisk, hok, hdirty, readScp_of_geometry hgeom]
  rfl

theorem scpFromDisk_copy {scp : List UInt8} {g : ScpGeom} (hgeom : scpGeometry scp = .ok g) (dsk : List UInt8)
    {trackDirty : Option (List Bool)} {ntracks : Nat}
    (hclean : (List.range ntracks).any (isDirty trackDirty ntracks) = false) :
    scpFromDisk (some scp) dsk trackDirty ntracks = scp := by
  have hok : (scpGeometry scp).isOk = true := by
    rw [hgeom]
    rfl
  simp only [scpFromDisk, hok, hclean]
  rfl

theorem any_isDirty {trackDirty : Option (List Bool)} {ntracks cyl : Nat}
    (h : isDirty trackDirty ntracks cyl = true) : cyl < ntracks ∧ (List.range ntracks).any (isDirty trackDirty ntracks) = true := by
  have hlt : cyl < ntracks := by
    cases trackDirty with
    | none => cases h
    | some dirty =>
      rw [isDirty, Bool.and_eq_true] at h
      exact of_decide_eq_true h.1
  exact ⟨hlt, List.any_eq_true.mpr ⟨cyl, List.mem_range.mpr hlt, h⟩⟩

theorem resolvedCylinders_getD (scp : List UInt8) (g : ScpGeom) (dsk : List UInt8) (trackDirty : Option (List Bool))
    (ntracks cyl : Nat) :
    (resolvedCylinders scp g dsk trackDirty ntracks).getD cyl none =
      if cyl < totalCyls ⟨g.revs, g.legacy, g.cyls⟩ ntracks (mfmTracksFromDsk dsk).length then
        resolveCylinder scp ⟨g.revs, g.legacy, g.cyls⟩ (mfmTracksFromDsk dsk) (isDirty trackDirty ntracks cyl) cyl
      else none := by
  rw [resolvedCylinders, List.getD_eq_getElem?_getD, List.getElem?_map]
  split
  · rename_i hlt
    rw [List.getElem?_range hlt]
    rfl
  · rename_i hge
    rw [List.getElem?_eq_none (by rw [List.length_range]; omega)]
    rfl

theorem resolvedCylinders_length_le (scp : List UInt8) (g : ScpGeom) (dsk : List UInt8)
    (trackDirty : Option (List Bool)) (ntracks : Nat) :
    (resolvedCylinders scp g dsk trackDirty ntracks).length ≤ kScpMaxCyls := by
  rw [resolvedCylinders, List.length_map, List.length_range]
  exact Nat.min_le_right _ _

theorem revs_bounds {scp : List UInt8} {g : ScpGeom} (hgeom : scpGeometry scp = .ok g) :
    0 < g.revs.toNat ∧ g.revs.toNat ≤ 255 := by
  obtain ⟨-, -, hrevs, -, -, rfl⟩ := scpGeometry_ok hgeom
  have hlt := (byteAt scp 0x05).toNat_lt
  have hne : (byteAt scp 0x05).toNat ≠ 0 := fun h => hrevs (UInt8.toNat_inj.mp h)
  exact ⟨Nat.pos_of_ne_zero hne, Nat.le_of_lt_succ hlt⟩

theorem readFlux_nominal {scp : List UInt8} {g : ScpGeom} (hgeom : scpGeometry scp = .ok g) {cyl rev : Nat}
    {flux : ℚ × List Nat} (h : readFlux scp cyl rev = some flux) :
    (nominalCell (byteAt scp 0x0B), flux.2) = flux := by
  obtain ⟨-, -, -, -, -, hg⟩ := scpGeometry_ok hgeom
  rw [readFlux, hgeom] at h
  simp only at h
  split at h
  · cases h
  · obtain ⟨words, -, rfl⟩ := Option.map_eq_some_iff.mp h
    rw [hg]

/-! ## Clean cylinders -/

/-- **A clean cylinder's flux words come through unchanged**, under the 25 ns resolution of the new
    header. -/
theorem readFlux_clean {scp : List UInt8} {g : ScpGeom} (hgeom : scpGeometry scp = .ok g) (dsk : List UInt8)
    {trackDirty : Option (List Bool)} {ntracks : Nat}
    (hsize : (assemble (resolvedCylinders scp g dsk trackDirty ntracks) g.revs.toNat).length < 2 ^ 32)
    {cyl : Nat} (hclean : isDirty trackDirty ntracks cyl = false)
    (hintact : cyl < g.cyls → trackOffset scp g.legacy cyl ≠ 0 →
      IntactTrack scp g.revs.toNat (trackOffset scp g.legacy cyl)) (rev : Nat) :
    readFlux (assemble (resolvedCylinders scp g dsk trackDirty ntracks) g.revs.toNat) cyl rev =
      (readFlux scp cyl rev).map fun flux => (80, flux.2) := by
  obtain ⟨hpos, hrevs⟩ := revs_bounds hgeom
  obtain ⟨-, -, -, -, -, hg⟩ := scpGeometry_ok hgeom
  have hcyls : g.cyls = presentCyls scp g.legacy := by rw [hg]
  have hmax : g.cyls ≤ kScpMaxCyls := by
    rw [hcyls]
    exact presentCyls_le _ _
  rw [readFlux_assembled (assemble_assembled (resolvedCylinders_length_le _ _ _ _ _) hsize) hpos hrevs,
    writtenFlux, resolvedCylinders_getD, hclean, readFlux, hgeom]
  simp only
  by_cases hpresent : g.cyls ≤ cyl ∨ trackOffset scp g.legacy cyl = 0
  · -- nothing in the source, nothing written
    rw [if_pos hpresent]
    split
    · rename_i htotal
      have hcyl : cyl < kScpMaxCyls := Nat.lt_of_lt_of_le htotal (Nat.min_le_right _ _)
      have hzero : trackOffset scp g.legacy cyl = 0 := by
        rcases hpresent with hle | hzero
        · by_contra hne
          have := lt_presentCyls hcyl hne
          omega
        · exact hzero
      rw [resolveCylinder, ScpReader.trackOffset_eq _ _ hcyl]
      simp [hzero]
    · rfl
  · rw [if_neg hpresent]
    rw [not_or, not_le] at hpresent
    obtain ⟨hlt, hne⟩ := hpresent
    have hint := hintact hlt hne
    have htotal : cyl < totalCyls ⟨g.revs, g.legacy, g.cyls⟩ ntracks (mfmTracksFromDsk dsk).length := by
      simp only [totalCyls]
      omega
    obtain ⟨fluxes, hextract, hlen, hget⟩ := @extractRevs_run scp (trackOffset scp g.legacy cyl)
      g.revs.toNat 0
      (fun r => (fluxRun scp g (trackOffset scp g.legacy cyl) r).toOption.getD [])
      (by
        intro r _ hr
        obtain ⟨flux, hflux, hrun⟩ := hint.fluxRun (g := g) (r := r) (by omega)
        exact ⟨flux, hflux, by rw [hrun]; rfl⟩)
    obtain ⟨flux, hflux, hwords⟩ := hget (rev % g.revs.toNat) (Nat.mod_lt _ hpos)
    obtain ⟨flux', -, hrun⟩ := hint.fluxRun (g := g) (Nat.mod_lt rev hpos)
    rw [if_pos htotal, resolveCylinder, ScpReader.trackOffset_eq _ _ (Nat.lt_of_lt_of_le hlt hmax)]
    simp only [Bool.false_eq_true, if_false, if_neg hne, hextract, Option.filter_some, hlen, decide_true,
      if_true, Option.bind_some, hflux, Option.map_some, hrun]
    rw [hwords, Nat.zero_add, hrun]
    rfl

/-! ## Dirty cylinders -/

/-- **A dirty cylinder decodes to its sectors**, in every revolution. -/
theorem readTrack_dirty {scp : List UInt8} {g : ScpGeom} (hgeom : scpGeometry scp = .ok g) (dsk : List UInt8)
    {trackDirty : Option (List Bool)} {ntracks : Nat}
    (hsize : (assemble (resolvedCylinders scp g dsk trackDirty ntracks) g.revs.toNat).length < 2 ^ 32)
    {cyl : Nat} (hdirty : isDirty trackDirty ntracks cyl = true) (hwf : WellFormedSectors (synthSectors dsk cyl))
    (hfits : ∀ rev ∈ (mfmTracksFromDsk dsk).getD cyl [], rev.nbits ≤ kMaxBits) (rev : Nat) {payloadCap : Nat}
    (hcap : kMaxTrackBytes ≤ payloadCap) :
    (readTrack (assemble (resolvedCylinders scp g dsk trackDirty ntracks) g.revs.toNat) cyl rev
      payloadCap).contents = (synthSectors dsk cyl).map MfmSector.scanned := by
  obtain ⟨hpos, hrevs⟩ := revs_bounds hgeom
  obtain ⟨hcyl, -⟩ := any_isDirty hdirty
  rw [readTrack_assembled hpos hrevs (resolvedCylinders_length_le _ _ _ _ _) hsize, writtenFlux,
    resolvedCylinders_getD, hdirty]
  have hsynth := mfmTracksFromDsk_getD dsk cyl
  rw [synthSectors] at hwf ⊢
  cases hdesc : (dskCylinders dsk).getD cyl none with
  | none =>
    -- erased: nothing is written
    rw [hdesc] at hsynth
    simp only at hsynth ⊢
    split
    · rw [resolveCylinder, hsynth]
      rfl
    · rfl
  | some desc =>
    rw [hdesc] at hsynth hwf
    simp only at hsynth hwf ⊢
    rw [hsynth] at hfits
    have hfit : (mfmEncodeTrack desc).nbits ≤ kMaxBits := hfits _ List.mem_cons_self
    have hin : cyl < (dskCylinders dsk).length := by
      by_contra hout
      rw [List.getD_eq_default _ _ (by omega)] at hdesc
      cases hdesc
    have hmem : some desc ∈ dskCylinders dsk := by
      rw [← hdesc, List.getD_eq_getElem _ _ hin]
      exact List.getElem_mem hin
    obtain ⟨flux, hflux, hwords⟩ := synthRev_words hfit
    have htotal : cyl < totalCyls ⟨g.revs, g.legacy, g.cyls⟩ ntracks (mfmTracksFromDsk dsk).length := by
      have hmax := dskCylinders_length_le dsk
      simp only [totalCyls]
      omega
    have hget : (List.replicate g.revs.toNat flux)[rev % g.revs.toNat]? = some flux := by
      rw [List.getElem?_replicate, if_pos (Nat.mod_lt _ hpos)]
    rw [if_pos htotal, resolveCylinder, hsynth]
    simp only [if_true, hflux, Option.map_some, Option.filter_some, List.length_replicate, decide_true,
      Option.bind_some, hget, Option.getD_some]
    rw [hwords, be16Words_flux]
    exact decodeFlux_mfmEncodeTrack desc hwf (dskCylinders_gap3 hmem) hfit hcap

/-! ## The image as a whole -/

theorem blockBytes_extractRevs (scp : List UInt8) (toff rev count : Nat) :
    blockBytes (extractRevs scp toff rev count) ≤ 4 + count * (12 + scp.length) := by
  -- The words of a revolution are a slice of the dump.
  have hrev : ∀ r flux, extractRev scp toff r = some flux → flux.words.length ≤ scp.length := by
    intro r flux h
    rw [extractRev] at h
    simp only at h
    split at h
    · cases h
    · split at h
      · rename_i hin
        obtain rfl := Option.some.inj h
        show (slice scp _ _).length ≤ scp.length
        rw [slice_length hin]
        omega
      · cases h
  induction count generalizing rev with
  | zero => simp [extractRevs, blockBytes]
  | succ count ih =>
    rw [extractRevs]
    cases hflux : extractRev scp toff rev with
    | none => exact Nat.zero_le _
    | some flux =>
      have hlen := hrev rev flux hflux
      have hrest := ih (rev + 1)
      simp only
      cases hrevs : extractRevs scp toff (rev + 1) count with
      | none => exact Nat.zero_le _
      | some fluxes =>
        rw [hrevs] at hrest
        simp only [Option.map_some, blockBytes, List.length_cons, List.map_cons, List.sum_cons] at hrest ⊢
        rw [Nat.add_mul, Nat.one_mul]
        omega

theorem blockBytes_replicate (count : Nat) (flux : FluxRev) :
    blockBytes (some (List.replicate count flux)) = 4 + count * (12 + flux.words.length) := by
  rw [blockBytes, List.length_replicate, List.map_replicate, List.sum_replicate_nat, Nat.mul_add]
  omega

theorem blockBytes_dirty {scp : List UInt8} {reader : ScpReader} {synth : List MfmTrack} {cyl : Nat}
    (hfits : ∀ rev ∈ synth.getD cyl [], rev.nbits ≤ kMaxBits) :
    blockBytes (resolveCylinder scp reader synth true cyl) ≤ 4 + reader.revs.toNat * (12 + 2 * kMaxBits) := by
  rw [resolveCylinder, if_pos rfl]
  cases htrk : synth.getD cyl [] with
  | nil => exact Nat.zero_le _
  | cons rev revs =>
    rw [htrk] at hfits
    have hfit := hfits rev List.mem_cons_self
    obtain ⟨flux, hflux, hwords⟩ := synthRev_words hfit
    have hlen : flux.words.length ≤ 2 * kMaxBits := by
      have hcount := pushFluxRev_length_le rev
      have hbytes : rev.flux.words.length = 2 * (pushFluxRev rev).length := be16s_length _
      rw [hwords, hbytes]
      omega
    simp only [hflux, Option.map_some, blockBytes_replicate]
    exact Nat.add_le_add_left (Nat.mul_le_mul_left _ (Nat.add_le_add_left hlen _)) _

theorem scpFromDisk_length_le {scp : List UInt8} {g : ScpGeom} (hgeom : scpGeometry scp = .ok g) {dsk : List UInt8}
    {trackDirty : Option (List Bool)} {ntracks : Nat}
    (hfits : ∀ cyl, isDirty trackDirty ntracks cyl = true →
      ∀ rev ∈ (mfmTracksFromDsk dsk).getD cyl [], rev.nbits ≤ kMaxBits) :
    (scpFromDisk (some scp) dsk trackDirty ntracks).length ≤
      kScpTlutEnd + kScpMaxCyls * (4 + g.revs.toNat * (12 + max scp.length (2 * kMaxBits))) + scp.length := by
  cases hany : (List.range ntracks).any (isDirty trackDirty ntracks) with
  | false =>
    rw [scpFromDisk_copy hgeom dsk hany]
    exact Nat.le_add_left _ _
  | true =>
    rw [scpFromDisk_assemble hgeom dsk hany]
    refine Nat.le_trans (assemble_length_add _ _) (Nat.le_trans (Nat.add_le_add_left ?_ _) (Nat.le_add_right _ _))
    set bound := 4 + g.revs.toNat * (12 + max scp.length (2 * kMaxBits)) with hbound
    -- A clean cylinder is no longer than the dump, and a dirty one than its cells.
    have hentry : ∀ cyl, blockBytes (resolveCylinder scp ⟨g.revs, g.legacy, g.cyls⟩ (mfmTracksFromDsk dsk)
        (isDirty trackDirty ntracks cyl) cyl) ≤ bound := by
      intro cyl
      have hclean : 4 + g.revs.toNat * (12 + scp.length) ≤ bound :=
        Nat.add_le_add_left (Nat.mul_le_mul_left _ (Nat.add_le_add_left (Nat.le_max_left _ _) _)) _
      have hdirty : 4 + g.revs.toNat * (12 + 2 * kMaxBits) ≤ bound :=
        Nat.add_le_add_left (Nat.mul_le_mul_left _ (Nat.add_le_add_left (Nat.le_max_right _ _) _)) _
      cases hcyl : isDirty trackDirty ntracks cyl with
      | true => exact Nat.le_trans (blockBytes_dirty (hfits cyl hcyl)) hdirty
      | false =>
        rw [resolveCylinder]
        simp only [Bool.false_eq_true, if_false]
        split
        · exact Nat.zero_le _
        · exact Nat.le_trans (blockBytes_extractRevs _ _ _ _) hclean
    -- So the blocks together are no longer than the bound for each cylinder.
    have hsum : ∀ cyls : List Nat, ((cyls.map fun cyl => resolveCylinder scp ⟨g.revs, g.legacy, g.cyls⟩
        (mfmTracksFromDsk dsk) (isDirty trackDirty ntracks cyl) cyl).map blockBytes).sum ≤ cyls.length * bound := by
      intro cyls
      induction cyls with
      | nil => exact Nat.zero_le _
      | cons cyl cyls ih =>
        rw [List.map_cons, List.map_cons, List.sum_cons, List.length_cons, Nat.succ_mul]
        have := hentry cyl
        omega
    refine Nat.le_trans (hsum _) (Nat.mul_le_mul_right _ ?_)
    rw [List.length_range]
    exact Nat.min_le_right _ _

/-- **Saving splices clean cylinders and synthesizes dirty ones.** In an image under 4 GiB a clean cylinder
    whose block is intact in the source keeps its flux words in every revolution, and from a 25 ns source
    decodes as it did there; a dirty cylinder of well-formed sectors that fits the decoder decodes to those
    sectors. -/
theorem scpFromDisk_preserves {scp : List UInt8} {g : ScpGeom} (hgeom : scpGeometry scp = .ok g)
    (dsk : List UInt8) (trackDirty : Option (List Bool)) (ntracks : Nat)
    (hsize : (scpFromDisk (some scp) dsk trackDirty ntracks).length < 2 ^ 32) (cyl rev payloadCap : Nat) :
    (isDirty trackDirty ntracks cyl = false →
      (cyl < g.cyls → trackOffset scp g.legacy cyl ≠ 0 →
        IntactTrack scp g.revs.toNat (trackOffset scp g.legacy cyl)) →
      (readFlux (scpFromDisk (some scp) dsk trackDirty ntracks) cyl rev).map Prod.snd =
          (readFlux scp cyl rev).map Prod.snd ∧
        (byteAt scp 0x0B = 0 →
          readFlux (scpFromDisk (some scp) dsk trackDirty ntracks) cyl rev = readFlux scp cyl rev ∧
            readTrack (scpFromDisk (some scp) dsk trackDirty ntracks) cyl rev payloadCap =
              readTrack scp cyl rev payloadCap)) ∧
    (isDirty trackDirty ntracks cyl = true → WellFormedSectors (synthSectors dsk cyl) →
      (∀ r ∈ (mfmTracksFromDsk dsk).getD cyl [], r.nbits ≤ kMaxBits) → kMaxTrackBytes ≤ payloadCap →
      (readTrack (scpFromDisk (some scp) dsk trackDirty ntracks) cyl rev payloadCap).contents =
        (synthSectors dsk cyl).map MfmSector.scanned) := by
  cases hany : (List.range ntracks).any (isDirty trackDirty ntracks) with
  | false =>
    rw [scpFromDisk_copy hgeom dsk hany]
    refine ⟨fun _ _ => ⟨rfl, fun _ => ⟨rfl, rfl⟩⟩, fun hdirty => ?_⟩
    rw [(any_isDirty hdirty).2] at hany
    cases hany
  | true =>
    rw [scpFromDisk_assemble hgeom dsk hany] at hsize ⊢
    refine ⟨fun hclean hintact => ?_, fun hdirty hwf hfits hcap => ?_⟩
    · have hflux := readFlux_clean hgeom dsk hsize hclean hintact rev
      refine ⟨?_, fun hres => ?_⟩
      · rw [hflux, Option.map_map]
        rfl
      · -- a 25 ns source decodes at 80 ticks too
        have hnominal : (readFlux scp cyl rev).map (fun flux => ((80 : ℚ), flux.2)) = readFlux scp cyl rev := by
          cases hread : readFlux scp cyl rev with
          | none => rfl
          | some flux =>
            rw [Option.map_some, ← readFlux_nominal hgeom hread, hres, nominalCell_zero]
        rw [hnominal] at hflux
        exact ⟨hflux, by rw [readTrack_eq, readTrack_eq, hflux]⟩
    · exact readTrack_dirty hgeom dsk hsize hdirty hwf hfits rev hcap

/-! ### A two-cylinder capture -/

/-- A block of one revolution with two transitions. -/
def sampleBlock (slot : UInt8) : List UInt8 :=
  [0x54, 0x52, 0x4B, slot, 0x90, 0x01, 0, 0, 2, 0, 0, 0, 16, 0, 0, 0, 0, 160, 0, 240]

/-- A 25 ns capture of two cylinders, one revolution each. -/
def sampleCapture : List UInt8 :=
  [0x53, 0x43, 0x50, 0x19, 0x80, 1, 0, 2, 1, 16, 0, 0, 0, 0, 0, 0, 0xB0, 0x02, 0, 0, 0, 0, 0, 0, 0xC4, 0x02, 0, 0]
    ++ (List.replicate 660 0 ++ (sampleBlock 0 ++ sampleBlock 2))

theorem sampleCapture_table {i : Nat} (hlo : 28 ≤ i) (hhi : i < 688) : byteAt sampleCapture i = 0 := by
  rw [byteAt, sampleCapture, List.getD_append_right _ _ _ _ hlo,
    List.getD_append _ _ _ _ (by rw [List.length_replicate]; simp only [List.length_cons, List.length_nil]; omega)]
  simp only [List.getD_eq_getElem?_getD, List.getElem?_replicate]
  split <;> rfl

/-- Its geometry. -/
def sampleGeom : ScpGeom := { revs := 1, legacy := false, nominal := 80, cyls := 2 }

theorem sampleCapture_geometry : scpGeometry sampleCapture = .ok sampleGeom := by
  have hrevs : byteAt sampleCapture 0x05 = 1 := by decide
  have hres : byteAt sampleCapture 0x0B = 0 := by decide
  have hlegacy : legacyLayout sampleCapture = false := by decide
  have hcyls : presentCyls sampleCapture false = 2 :=
    presentCyls_of_last (by decide) (by decide) fun cyl hlo hhi => by
      simp only [kScpMaxCyls] at hhi
      simp only [trackOffset, Bool.false_eq_true, if_false, rd32le, rd16le, kScpTlutOff]
      rw [sampleCapture_table (by omega) (by omega), sampleCapture_table (by omega) (by omega),
        sampleCapture_table (by omega) (by omega), sampleCapture_table (by omega) (by omega)]
      rfl
  rw [scpGeometry, if_neg (by decide), if_neg (by decide), if_neg (by decide),
    if_neg (by decide), if_neg (by decide), hrevs, hres, hlegacy, nominalCell_zero]
  simp only [hcyls]
  rfl

/-- The sector of the one-sector image. -/
def oneSector : MfmSector :=
  { cyl := 0, head := 0, secId := 0xC1, sizeCode := 0, payload := List.replicate 128 0xE5, dam := 0xFB }

theorem samples_hold :
    IntactTrack sampleCapture 1 (trackOffset sampleCapture false 1) ∧ sampleCapture.length = 728 ∧
      synthSectors (oneSectorDsk 0) 0 = [oneSector] ∧
      ∀ rev ∈ (mfmTracksFromDsk (oneSectorDsk 0)).getD 0 [], rev.nbits ≤ kMaxBits := by
  refine ⟨⟨by decide, by decide, ?_⟩, by decide, by decide, ?_⟩
  · intro r hr
    obtain rfl : r = 0 := by omega
    decide
  · exact @mfmTracksFromDsk_fits _ _ { sectors := [oneSector], gap3 := 0x4E } (by decide) (by decide)

theorem sampleCapture_intact : IntactTrack sampleCapture 1 (trackOffset sampleCapture false 1) := samples_hold.1

theorem oneSectorDsk_sectors : synthSectors (oneSectorDsk 0) 0 = [oneSector] := samples_hold.2.2.1

theorem oneSector_wellFormed : WellFormedSectors [oneSector] where
  count := by decide
  readable := by
    intro s hs
    obtain rfl := List.mem_singleton.mp hs
    exact ⟨by decide, by simp [-List.reduceReplicate, oneSector], Or.inl rfl⟩
  distinct := by simp
  total := by simp [-List.reduceReplicate, oneSector, kMaxTrackBytes]

theorem oneSectorDsk_cells : ∀ rev ∈ (mfmTracksFromDsk (oneSectorDsk 0)).getD 0 [], rev.nbits ≤ kMaxBits :=
  samples_hold.2.2.2

theorem sampleCapture_saved_length :
    (scpFromDisk (some sampleCapture) (oneSectorDsk 0) (some [true, false]) 2).length < 2 ^ 32 := by
  have hfits : ∀ cyl, isDirty (some [true, false]) 2 cyl = true →
      ∀ rev ∈ (mfmTracksFromDsk (oneSectorDsk 0)).getD cyl [], rev.nbits ≤ kMaxBits := by
    intro cyl hdirty
    have hcase : cyl = 0 ∨ cyl = 1 := by
      have := (any_isDirty hdirty).1
      omega
    rcases hcase with rfl | rfl
    · exact oneSectorDsk_cells
    · cases hdirty
  have hlen := samples_hold.2.1
  have hbound := scpFromDisk_length_le sampleCapture_geometry hfits
  rw [hlen] at hbound
  exact Nat.lt_of_le_of_lt hbound (by decide)

theorem scpFromDisk_preserves_sample :
    readFlux (scpFromDisk (some sampleCapture) (oneSectorDsk 0) (some [true, false]) 2) 1 0 =
        readFlux sampleCapture 1 0 ∧
      (readTrack (scpFromDisk (some sampleCapture) (oneSectorDsk 0) (some [true, false]) 2) 0 0
        kMaxTrackBytes).contents = [⟨⟨0, 0, 0xC1, 0⟩, List.replicate 128 0xE5, 0, 0⟩] := by
  have hclean := (scpFromDisk_preserves sampleCapture_geometry (oneSectorDsk 0) (some [true, false]) 2
    sampleCapture_saved_length 1 0 kMaxTrackBytes).1 rfl fun _ _ => sampleCapture_intact
  have hdirty := (scpFromDisk_preserves sampleCapture_geometry (oneSectorDsk 0) (some [true, false]) 2
    sampleCapture_saved_length 0 0 kMaxTrackBytes).2 rfl (oneSectorDsk_sectors ▸ oneSector_wellFormed)
    oneSectorDsk_cells (Nat.le_refl _)
  rw [oneSectorDsk_sectors] at hdirty
  exact ⟨(hclean.2 (by decide)).1, hdirty⟩

/-- Preservation without exception: every clean cylinder decodes as in the source, every dirty one to the
    sectors the controller finds on the disc image. -/
def SavesEverything (scp dsk : List UInt8) (m : FdcMedia) (trackDirty : Option (List Bool)) (ntracks : Nat) : Prop :=
  ∀ cyl rev,
    (isDirty trackDirty ntracks cyl = false →
      readTrack (scpFromDisk (some scp) dsk trackDirty ntracks) cyl rev kMaxTrackBytes =
        readTrack scp cyl rev kMaxTrackBytes) ∧
    (isDirty trackDirty ntracks cyl = true →
      (readTrack (scpFromDisk (some scp) dsk trackDirty ntracks) cyl rev kMaxTrackBytes).sec.map (·.chrn) =
        (m.trackAt cyl 0).sec.map (·.chrn))

theorem readTrack_ne_oversized (scp : List UInt8) (cyl rev payloadCap : Nat) :
    (readTrack scp cyl rev payloadCap).sec.map (·.chrn) ≠ [⟨0, 0, 0xC1, 6⟩] := by
  intro hids
  have hmem : (⟨0, 0, 0xC1, 6⟩ : Chrn) ∈ (readTrack scp cyl rev payloadCap).sec.map (·.chrn) := by
    rw [hids]
    exact List.mem_cons_self
  obtain ⟨s, hs, hchrn⟩ := List.mem_map.mp hmem
  have hcode := readTrack_codes scp cyl rev payloadCap s hs
  rw [hchrn] at hcode
  exact absurd hcode (by decide)

/-- An 8192-byte sector is on the disc image and on no saved cylinder. -/
theorem oversized_sector_not_saved :
    scpGeometry sampleCapture = .ok sampleGeom ∧ parseDsk (oneSectorDsk 6) = some (oneSectorMedia 6) ∧
      scpFromDisk (some sampleCapture) (oneSectorDsk 6) (some [true, false]) 2 ≠ [] ∧
      ¬ SavesEverything sampleCapture (oneSectorDsk 6) (oneSectorMedia 6) (some [true, false]) 2 := by
  refine ⟨sampleCapture_geometry, by decide, fun hnil => ?_, fun hsaves => ?_⟩
  · have hlen := congrArg List.length hnil
    rw [scpFromDisk_assemble sampleCapture_geometry _ (by decide)] at hlen
    have hlong := assemble_length_le (resolvedCylinders sampleCapture sampleGeom (oneSectorDsk 6)
      (some [true, false]) 2) sampleGeom.revs.toNat
    rw [hlen] at hlong
    exact absurd hlong (by decide)
  · have hids := (hsaves 0 0).2 rfl
    have hmedia : ((oneSectorMedia 6).trackAt 0 0).sec.map (·.chrn) = [⟨0, 0, 0xC1, 6⟩] := rfl
    exact readTrack_ne_oversized _ 0 0 kMaxTrackBytes (hids.trans hmedia)

end Koncepcja.Disk
