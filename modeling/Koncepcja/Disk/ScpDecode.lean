import Koncepcja.Disk.FluxPll
import Koncepcja.Disk.ScpContainer
import Koncepcja.Disk.TrackRoundTrip

/-!
# The SCP Decoder

The reading side of `src/hw/flux.cpp`: header and table validation, one revolution of one cylinder from
its flux words to sectors, with the angular positions the disc controller rotates past.

## Main results

- `scanTrack_bounds`: whatever is decoded holds at most 29 sectors in 8192 bytes, with size codes the
  scanner accepts.
- `readTrack_assembled`: an assembled container decodes, cylinder by cylinder and revolution by
  revolution, as the flux it was assembled from.
-/

namespace Koncepcja.Disk

open Koncepcja.Bytes Koncepcja.Binary64

/-! ## Geometry -/

structure ScpGeom where
  revs : UInt8
  legacy : Bool
  nominal : ℚ
  cyls : Nat

/-- The old consecutive single-sided layout: the header names one head and an odd slot is in use. -/
def legacyLayout (scp : List UInt8) : Bool :=
  byteAt scp 0x0A ≠ 0 &&
    (List.range (kScpTlutSlots / 2)).any fun k => rd32le scp (kScpTlutOff + 4 * (2 * k + 1)) ≠ 0

/-- `track_offset`: the side-0 table entry of a cylinder (0 = absent). -/
def trackOffset (scp : List UInt8) (legacy : Bool) (cyl : Nat) : Nat :=
  rd32le scp (kScpTlutOff + 4 * (if legacy then cyl else cyl * 2))

/-- The last present cylinder + 1. -/
def presentCyls (scp : List UInt8) (legacy : Bool) : Nat :=
  (List.range kScpMaxCyls).foldl (fun cyls cyl => if trackOffset scp legacy cyl ≠ 0 then cyl + 1 else cyls) 0

/-- The half-cell in ticks at a resolution byte. -/
def nominalCell (resolution : UInt8) : ℚ := rnd (80 / (resolution.toNat + 1))

def scpGeometry (scp : List UInt8) : Except FluxError ScpGeom :=
  if scp.length < kScpTlutEnd ∨ scp.take 3 ≠ scpMagic then .error .notScp
  else if byteAt scp 0x09 ≠ 0 ∧ byteAt scp 0x09 ≠ 16 then .error .geometry
  else if byteAt scp 0x05 = 0 then .error .geometry
  else if byteAt scp 0x0A = 2 then .error .geometry
  else if byteAt scp 0x07 < byteAt scp 0x06 then .error .geometry
  else
    let legacy := legacyLayout scp
    let cyls := presentCyls scp legacy
    if cyls = 0 then .error .geometry
    else .ok { revs := byteAt scp 0x05, legacy, nominal := nominalCell (byteAt scp 0x0B), cyls }

theorem scpGeometry_ok {scp : List UInt8} {g : ScpGeom} (h : scpGeometry scp = .ok g) :
    (kScpTlutEnd ≤ scp.length ∧ scp.take 3 = scpMagic) ∧ (byteAt scp 0x09 = 0 ∨ byteAt scp 0x09 = 16) ∧
      byteAt scp 0x05 ≠ 0 ∧ byteAt scp 0x0A ≠ 2 ∧ presentCyls scp (legacyLayout scp) ≠ 0 ∧
      g = { revs := byteAt scp 0x05, legacy := legacyLayout scp
            nominal := nominalCell (byteAt scp 0x0B), cyls := presentCyls scp (legacyLayout scp) } := by
  rw [scpGeometry] at h
  split at h
  · cases h
  · rename_i hmagic
    split at h
    · cases h
    · rename_i hwidth
      split at h
      · cases h
      · rename_i hrevs
        split at h
        · cases h
        · rename_i hheads
          split at h
          · cases h
          · simp only at h
            split at h
            · cases h
            · rename_i hcyls
              rw [not_or, not_lt, not_not] at hmagic
              rw [not_and_or, not_not, not_not] at hwidth
              exact ⟨hmagic, hwidth, hrevs, hheads, hcyls, (Except.ok.inj h).symm⟩

/-! ## One revolution -/

/-- Raw bytes as big-endian words. -/
def be16Words : List UInt8 → List Nat
  | hi :: lo :: bytes => (256 * hi.toNat + lo.toNat) :: be16Words bytes
  | _ => []

/-- The flux words of revolution `r` of the block at `toff`, behind `decode_one_rev`'s bounds checks. -/
def fluxRun (scp : List UInt8) (g : ScpGeom) (toff r : Nat) : Except FluxError (List Nat) :=
  if scp.length < toff + 4 + 12 * g.revs.toNat ∨ slice scp toff 3 ≠ trkMark then .error .truncated
  else
    let words := rd32le scp (toff + 4 + 12 * r + 4)
    let doff := rd32le scp (toff + 4 + 12 * r + 8)
    if scp.length < toff + doff + 2 * words then .error .truncated
    else .ok (be16Words (slice scp (toff + doff) (2 * words)))

/-- `decode_one_rev`: one revolution appended to a buffer. -/
def decodeOneRev (scp : List UInt8) (g : ScpGeom) (toff r : Nat) (bb : BitBuf) : Except FluxError BitBuf := do
  let words ← fluxRun scp g toff r
  pllDecode words g.nominal bb

structure FluxSector where
  chrn : Chrn
  st1 : UInt8
  st2 : UInt8
  len : Nat
  off : Nat
  idamCell : Nat
  dataCell : Nat
  deriving DecidableEq

/-- `FluxTrack` with the part of the caller's payload buffer that is in use. -/
structure FluxTrack where
  sec : List FluxSector := []
  payload : List UInt8 := []
  deriving DecidableEq

/-- The angular unit: byte cells per revolution. -/
def kByteCells : Nat := 6250

/-- A bit position of a revolution of `n` cells in byte cells. -/
def byteCell (n bit : Nat) : Nat := bit * kByteCells / n % kByteCells

/-- The public view of a scanned revolution; a payload that does not fit is dropped with its sector. -/
def fluxTrackOf (bb : BitBuf) (payloadCap : Nat) : FluxTrack :=
  let ts := scanTrack bb
  let payload := ts.data.take payloadCap
  { payload
    sec := ((ts.sec.filter fun s => s.off + s.len ≤ payload.length).take kMaxSectors).map fun s =>
      { chrn := s.chrn, st1 := s.st1, st2 := s.st2, len := s.len, off := s.off
        idamCell := byteCell bb.n s.idamBit, dataCell := byteCell bb.n s.dataBit } }

/-- A revolution's buffer to its track; a buffer without cells is an empty track. -/
def trackOfCells (bb : BitBuf) (payloadCap : Nat) : FluxTrack :=
  if bb.n = 0 then {} else fluxTrackOf bb payloadCap

/-- `flux_decode_track_rev`: an absent cylinder is an empty track, captures repeat. -/
def fluxDecodeTrackRev (scp : List UInt8) (cyl rev payloadCap : Nat) : Except FluxError FluxTrack := do
  let g ← scpGeometry scp
  if g.cyls ≤ cyl then return {}
  let toff := trackOffset scp g.legacy cyl
  if toff = 0 then return {}
  let bb ← decodeOneRev scp g toff (rev % g.revs.toNat) .empty
  return trackOfCells bb payloadCap

/-- What the controller sees under the head: decode errors leave an unformatted track. -/
def readTrack (scp : List UInt8) (cyl rev payloadCap : Nat) : FluxTrack :=
  (fluxDecodeTrackRev scp cyl rev payloadCap).toOption.getD {}

/-- What a decoded track holds, in the order of its sectors. -/
def FluxTrack.contents (trk : FluxTrack) : List ScannedSector :=
  trk.sec.map fun s => ⟨s.chrn, slice trk.payload s.off s.len, s.st1, s.st2⟩

/-! ## What a scan can hold -/

/-- The bounds every scan keeps. -/
structure ScanBounds (ts : TrackScan) : Prop where
  inside : ts.Inside
  count : ts.sec.length ≤ kMaxSectors
  room : ts.data.length ≤ kMaxTrackBytes
  codes : ∀ s ∈ ts.sec, s.chrn.n ≤ kScanMaxSizeCode

/-- The bounds between two fields: the pending header's size code is an accepted one. -/
def ScanState.Bounded (st : ScanState) : Prop :=
  ScanBounds st.scan ∧ ∀ hdr hdrEnd, st.hdr = some (hdr, hdrEnd) → hdr.n ≤ kScanMaxSizeCode

theorem collect_bounds {ts : TrackScan} (h : ScanBounds ts) {hdr : Chrn} (hcode : hdr.n ≤ kScanMaxSizeCode)
    (hdrEnd dataStart : Nat) (mark : UInt8) (payload : List UInt8) (crcOk : Bool) :
    ScanBounds (collect ts hdr hdrEnd dataStart mark payload crcOk) := by
  unfold collect
  split
  next i _ =>
    split
    next ex hex =>
      split
      · -- a second sighting marks its record and nothing else
        have hmem : ex ∈ ts.sec := List.mem_of_getElem? hex
        have hset : ∀ s ∈ ts.sec.set i { ex with differs := true }, ∃ s' ∈ ts.sec,
            s.off = s'.off ∧ s.len = s'.len ∧ s.chrn = s'.chrn := by
          intro s hs
          rcases List.mem_or_eq_of_mem_set hs with hold | rfl
          · exact ⟨s, hold, rfl, rfl, rfl⟩
          · exact ⟨ex, hmem, rfl, rfl, rfl⟩
        constructor
        · intro s hs
          obtain ⟨s', hs', hoff, hlen, -⟩ := hset s hs
          rw [hoff, hlen]
          exact h.inside s' hs'
        · rw [List.length_set]
          exact h.count
        · exact h.room
        · intro s hs
          obtain ⟨s', hs', -, -, hchrn⟩ := hset s hs
          rw [hchrn]
          exact h.codes s' hs'
      · exact h
    next => exact h
  next =>
    split
    · rename_i hroom
      constructor
      · intro s hs
        rw [List.length_append]
        rcases List.mem_append.mp hs with hold | hnew
        · have := h.inside s hold
          omega
        · obtain rfl := List.mem_singleton.mp hnew
          exact Nat.le_refl _
      · rw [List.length_append, List.length_singleton]
        exact hroom.1
      · rw [List.length_append]
        exact hroom.2
      · intro s hs
        rcases List.mem_append.mp hs with hold | hnew
        · exact h.codes s hold
        · obtain rfl := List.mem_singleton.mp hnew
          exact hcode
    · exact h

theorem readMfmBytes_length {bb : BitBuf} {p k q : Nat} {bytes : List UInt8}
    (h : readMfmBytes bb p k = (some bytes, q)) : bytes.length = k := by
  induction k generalizing p q bytes with
  | zero =>
    obtain rfl := Option.some.inj (Prod.mk.inj h).1
    rfl
  | succ k ih =>
    rw [readMfmBytes] at h
    split at h
    next => cases (Prod.mk.inj h).1
    next b p' _ =>
      obtain ⟨htail, -⟩ := Prod.mk.inj h
      obtain ⟨rest, hrest, rfl⟩ := Option.map_eq_some_iff.mp htail
      have hread : readMfmBytes bb p' k = (some rest, (readMfmBytes bb p' k).2) := Prod.ext hrest rfl
      rw [List.length_cons, ih hread]

/-! ### What every field keeps -/

/-- A property of a scan that a complete data field keeps. -/
structure CollectKeeps (P : TrackScan → Prop) : Prop where
  empty : P {}
  collect : ∀ {ts : TrackScan} {hdr : Chrn} {payload : List UInt8} (hdrEnd dataStart : Nat) (mark : UInt8) (crcOk : Bool),
    P ts → hdr.n ≤ kScanMaxSizeCode → payload.length = 128 <<< hdr.n.toNat →
      P (collect ts hdr hdrEnd dataStart mark payload crcOk)

/-- It holds between two fields; the pending header's size code is an accepted one. -/
def ScanState.Has (P : TrackScan → Prop) (st : ScanState) : Prop :=
  P st.scan ∧ ∀ hdr hdrEnd, st.hdr = some (hdr, hdrEnd) → hdr.n ≤ kScanMaxSizeCode

section Keeps

variable {P : TrackScan → Prop}

theorem scanIdField_has (bb : BitBuf) (p : Nat) {st : ScanState} (h : st.Has P) : (scanIdField bb p st).1.Has P := by
  unfold scanIdField
  split
  next => exact h
  next id q _ =>
    split
    next => exact h
    next crc q' _ =>
      split
      · rename_i hok
        refine ⟨h.1, fun hdr hdrEnd heq => ?_⟩
        obtain ⟨rfl, -⟩ := Prod.mk.inj (Option.some.inj heq)
        exact hok.2
      · exact h

theorem scanDataField_has (hP : CollectKeeps P) (bb : BitBuf) (p : Nat) {st : ScanState} (h : st.Has P) {hdr : Chrn}
    (hcode : hdr.n ≤ kScanMaxSizeCode) (hdrEnd : Nat) (mark : UInt8) :
    (scanDataField bb p st hdr hdrEnd mark).1.Has P := by
  unfold scanDataField
  split
  next => exact h
  next payload q hread =>
    split
    next => exact h
    next crc q' _ =>
      exact ⟨hP.collect _ _ _ _ h.1 hcode (readMfmBytes_length hread), fun hdr hdrEnd heq => by cases heq⟩

theorem scanField_has (hP : CollectKeeps P) {bb : BitBuf} {p p' : Nat} {st st' : ScanState} (h : st.Has P)
    (hfield : scanField bb p st = some (st', p')) : st'.Has P := by
  unfold scanField at hfield
  split at hfield
  next => cases hfield
  next mark q _ =>
    split at hfield
    · have hid := scanIdField_has bb q h
      rw [Option.some.inj hfield] at hid
      exact hid
    · split at hfield
      · split at hfield
        next hdr hdrEnd heq =>
          split at hfield
          · have hdata := scanDataField_has hP bb q h (h.2 hdr hdrEnd heq) hdrEnd mark
            rw [Option.some.inj hfield] at hdata
            exact hdata
          · cases hfield
            exact h
        next =>
          cases hfield
          exact h
      · cases hfield
        exact h

theorem scanFrom_has (hP : CollectKeeps P) (bb : BitBuf) (pos : Nat) {st : ScanState} (h : st.Has P) :
    (scanFrom bb pos st).Has P := by
  induction pos, st using scanFrom.induct bb with
  | case1 pos st hhunt =>
    rw [scanFrom_done hhunt]
    exact h
  | case2 pos st p hhunt hfield =>
    have hstop : scanFrom bb pos st = st := by
      rw [scanFrom]
      split
      next => rfl
      next q heq =>
        rw [hhunt] at heq
        cases heq
        split
        next => rfl
        next st' p' heq' =>
          rw [hfield] at heq'
          cases heq'
    rw [hstop]
    exact h
  | case3 pos st p hhunt st' p' hfield ih =>
    rw [scanFrom_step hhunt hfield]
    exact ih (scanField_has hP h hfield)

theorem CollectKeeps.scanTrack (hP : CollectKeeps P) (bb : BitBuf) : P (scanTrack bb) := by
  have hstart : ScanState.Has P {} := ⟨hP.empty, fun hdr hdrEnd heq => by cases heq⟩
  exact (scanFrom_has hP bb 0 hstart).1

end Keeps

theorem scanBounds_kept : CollectKeeps ScanBounds where
  empty := by constructor <;> simp [TrackScan.Inside]
  collect hdrEnd dataStart mark crcOk h hcode _ := collect_bounds h hcode hdrEnd dataStart mark _ crcOk

theorem scanFrom_bounds (bb : BitBuf) (pos : Nat) {st : ScanState} (h : st.Bounded) : (scanFrom bb pos st).Bounded :=
  scanFrom_has scanBounds_kept bb pos h

/-- **Every scan is within its bounds**, whatever the cells. -/
theorem scanTrack_bounds (bb : BitBuf) : ScanBounds (scanTrack bb) :=
  (scanFrom_bounds bb 0 ⟨scanBounds_kept.empty, fun hdr hdrEnd heq => by cases heq⟩).1

theorem fluxTrackOf_contents (bb : BitBuf) {payloadCap : Nat} (hcap : kMaxTrackBytes ≤ payloadCap) :
    (fluxTrackOf bb payloadCap).contents = (scanTrack bb).contents := by
  have hb := scanTrack_bounds bb
  have htake : (scanTrack bb).data.take payloadCap = (scanTrack bb).data :=
    List.take_of_length_le (Nat.le_trans hb.room hcap)
  have hfilter : ((scanTrack bb).sec.filter fun s => s.off + s.len ≤ (scanTrack bb).data.length) =
      (scanTrack bb).sec :=
    List.filter_eq_self.mpr fun s hs => decide_eq_true (hb.inside s hs)
  rw [FluxTrack.contents, fluxTrackOf]
  simp only [htake, hfilter, List.take_of_length_le hb.count, List.map_map]
  rfl

theorem fluxTrackOf_codes (bb : BitBuf) (payloadCap : Nat) :
    ∀ s ∈ (fluxTrackOf bb payloadCap).sec, s.chrn.n ≤ kScanMaxSizeCode := by
  intro s hs
  obtain ⟨r, hr, rfl⟩ := List.mem_map.mp hs
  exact (scanTrack_bounds bb).codes r (List.mem_of_mem_filter (List.mem_of_mem_take hr))

/-! ## What the decoder is given -/

/-- The tick resolution and the flux words the decoder is given for one revolution of a cylinder. -/
def readFlux (scp : List UInt8) (cyl rev : Nat) : Option (ℚ × List Nat) :=
  match scpGeometry scp with
  | .error _ => none
  | .ok g =>
    let toff := trackOffset scp g.legacy cyl
    if g.cyls ≤ cyl ∨ toff = 0 then none
    else (fluxRun scp g toff (rev % g.revs.toNat)).toOption.map fun words => (g.nominal, words)

/-- A revolution's track by its resolution and words alone. -/
def decodeFlux (payloadCap : Nat) (flux : ℚ × List Nat) : FluxTrack :=
  ((pllDecode flux.2 flux.1 .empty).toOption.map (trackOfCells · payloadCap)).getD {}

theorem readTrack_eq (scp : List UInt8) (cyl rev payloadCap : Nat) :
    readTrack scp cyl rev payloadCap = ((readFlux scp cyl rev).map (decodeFlux payloadCap)).getD {} := by
  rw [readTrack, fluxDecodeTrackRev, readFlux]
  cases scpGeometry scp with
  | error e => rfl
  | ok g =>
    simp only [bind, Except.bind, pure, Except.pure]
    by_cases hcyl : g.cyls ≤ cyl
    · simp [hcyl, Except.toOption]
    · by_cases htoff : trackOffset scp g.legacy cyl = 0
      · simp [hcyl, htoff, Except.toOption]
      · simp only [hcyl, htoff, if_false, or_self, decodeOneRev, bind, Except.bind]
        cases fluxRun scp g (trackOffset scp g.legacy cyl) (rev % g.revs.toNat) with
        | error e => rfl
        | ok words =>
          simp only [Except.toOption, Option.map_some, Option.getD_some, decodeFlux]
          cases pllDecode words g.nominal .empty <;> rfl

theorem readTrack_ind {payloadCap : Nat} (P : FluxTrack → Prop) (hempty : P {})
    (hcells : ∀ bb, P (fluxTrackOf bb payloadCap)) (scp : List UInt8) (cyl rev : Nat) :
    P (readTrack scp cyl rev payloadCap) := by
  rw [readTrack_eq]
  cases readFlux scp cyl rev with
  | none => exact hempty
  | some flux =>
    rw [Option.map_some, Option.getD_some, decodeFlux]
    cases pllDecode flux.2 flux.1 .empty with
    | error e => exact hempty
    | ok bb =>
      simp only [Except.toOption, Option.map_some, Option.getD_some, trackOfCells]
      split
      · exact hempty
      · exact hcells bb

theorem readTrack_codes (scp : List UInt8) (cyl rev payloadCap : Nat) :
    ∀ s ∈ (readTrack scp cyl rev payloadCap).sec, s.chrn.n ≤ kScanMaxSizeCode :=
  readTrack_ind (fun trk => ∀ s ∈ trk.sec, s.chrn.n ≤ kScanMaxSizeCode) (fun _ hs => absurd hs List.not_mem_nil)
    (fun bb => fluxTrackOf_codes bb payloadCap) scp cyl rev

theorem readTrack_payload_length (scp : List UInt8) (cyl rev payloadCap : Nat) :
    (readTrack scp cyl rev payloadCap).payload.length ≤ payloadCap :=
  readTrack_ind (·.payload.length ≤ payloadCap) (Nat.zero_le _) (fun _ => List.length_take_le _ _) scp cyl rev

/-! ## Reading an assembled container -/

private theorem foldl_last_present (p : Nat → Prop) [DecidablePred p] (n : Nat) :
    let last := (List.range n).foldl (fun cyls cyl => if p cyl then cyl + 1 else cyls) 0
    (∀ cyl < n, p cyl → cyl < last) ∧ last ≤ n ∧ ∀ cyl, last = cyl + 1 → p cyl := by
  induction n with
  | zero => simp
  | succ n ih =>
    obtain ⟨hlt, hle, hlast⟩ := ih
    simp only [List.range_succ, List.foldl_append, List.foldl_cons, List.foldl_nil]
    split
    · rename_i hn
      refine ⟨fun cyl hcyl _ => hcyl, Nat.le_refl _, fun cyl h => ?_⟩
      obtain rfl : n = cyl := by omega
      exact hn
    · rename_i hn
      refine ⟨fun cyl hcyl hp => ?_, by omega, hlast⟩
      have hcase : cyl = n ∨ cyl < n := by omega
      rcases hcase with rfl | hlow
      · exact absurd hp hn
      · exact hlt cyl hlow hp

theorem lt_presentCyls {scp : List UInt8} {legacy : Bool} {cyl : Nat} (hcyl : cyl < kScpMaxCyls)
    (h : trackOffset scp legacy cyl ≠ 0) : cyl < presentCyls scp legacy :=
  (foldl_last_present (fun cyl => trackOffset scp legacy cyl ≠ 0) kScpMaxCyls).1 cyl hcyl h

theorem presentCyls_le (scp : List UInt8) (legacy : Bool) : presentCyls scp legacy ≤ kScpMaxCyls :=
  (foldl_last_present (fun cyl => trackOffset scp legacy cyl ≠ 0) kScpMaxCyls).2.1

theorem presentCyls_of_last {scp : List UInt8} {legacy : Bool} {last : Nat} (hlast : last < kScpMaxCyls)
    (hne : trackOffset scp legacy last ≠ 0)
    (hrest : ∀ cyl, last < cyl → cyl < kScpMaxCyls → trackOffset scp legacy cyl = 0) :
    presentCyls scp legacy = last + 1 := by
  obtain ⟨-, hle, hpred⟩ := foldl_last_present (fun cyl => trackOffset scp legacy cyl ≠ 0) kScpMaxCyls
  have hlt := lt_presentCyls hlast hne
  by_contra hbig
  exact hpred (presentCyls scp legacy - 1) (by rw [← presentCyls]; omega)
    (hrest _ (by omega) (by rw [← presentCyls] at hle; omega))

-- The count is a search over the table; no unification should run it.
attribute [irreducible] presentCyls

/-- The revolutions a container assembled with `revs` of them holds for a cylinder. -/
def writtenFlux (revs : Nat) (cyls : List (Option (List FluxRev))) (cyl : Nat) : Option (List FluxRev) :=
  (cyls.getD cyl none).filter fun fluxes => fluxes.length = revs

theorem byteAt_scpHeader (revs cyls : Nat) {i : Nat} (hi : 12 ≤ i) : byteAt (scpHeader revs cyls) i = 0 := by
  rw [byteAt, scpHeader, List.getD_append_right _ _ _ _ hi, List.getD_eq_getElem?_getD,
    List.getElem?_replicate]
  split <;> rfl

theorem scpHeader_length (revs cyls : Nat) : (scpHeader revs cyls).length = kScpTlutEnd := by
  simp only [scpHeader, List.length_append, List.length_cons, List.length_nil, List.length_replicate,
    kScpTlutEnd, kScpTlutOff, kScpTlutSlots]

theorem assemble_length_add (cyls : List (Option (List FluxRev))) (revs : Nat) :
    (assemble cyls revs).length ≤ kScpTlutEnd + (cyls.map blockBytes).sum := by
  have hgrow := assembleTracks_length_add revs 0 (scpHeader revs cyls.length) cyls
  rwa [scpHeader_length, ← put32le_length _ 0x0C (scpChecksum _)] at hgrow

theorem assemble_length_le (cyls : List (Option (List FluxRev))) (revs : Nat) :
    kScpTlutEnd ≤ (assemble cyls revs).length := by
  have hgrow := assembleTracks_length_le revs 0 (scpHeader revs cyls.length) cyls
  rwa [scpHeader_length, ← put32le_length _ 0x0C (scpChecksum _)] at hgrow

/-- A container that was assembled: its fixed fields and, slot by slot, its blocks. -/
structure Assembled (scp : List UInt8) (revs : Nat) (cyls : List (Option (List FluxRev))) : Prop where
  long : kScpTlutEnd ≤ scp.length
  fields : ∀ i < 12, byteAt scp i = byteAt (scpHeader revs cyls.length) i
  absent : ∀ cyl < kScpMaxCyls, writtenFlux revs cyls cyl = none → rd32le scp (kScpTlutOff + 8 * cyl) = 0
  present : ∀ cyl fluxes, writtenFlux revs cyls cyl = some fluxes →
    cyl < kScpMaxCyls ∧ TrackAt scp (rd32le scp (kScpTlutOff + 8 * cyl)) fluxes

theorem assemble_assembled {cyls : List (Option (List FluxRev))} {revs : Nat}
    (hcyls : cyls.length ≤ kScpMaxCyls) (hsize : (assemble cyls revs).length < 2 ^ 32) :
    Assembled (assemble cyls revs) revs cyls := by
  have hbase := scpHeader_length revs cyls.length
  have hzero : ∀ k, rd32le (scpHeader revs cyls.length) (kScpTlutOff + 8 * k) = 0 := by
    intro k
    simp only [rd32le, rd16le, kScpTlutOff]
    rw [byteAt_scpHeader _ _ (by omega), byteAt_scpHeader _ _ (by omega), byteAt_scpHeader _ _ (by omega),
      byteAt_scpHeader _ _ (by omega)]
    rfl
  rw [assemble, put32le_length] at hsize
  obtain ⟨hkeeps, hslots⟩ := assembleTracks_run cyls (Nat.le_of_eq hbase.symm) (by omega)
    (fun k _ _ => hzero k) hsize
  have hlong : kScpTlutEnd ≤ (assembleTracks revs 0 (scpHeader revs cyls.length) cyls).length :=
    Nat.le_trans (Nat.le_of_eq hbase.symm) hkeeps.length_le
  -- the checksum field is the last write; it lies before the table
  have hsum : Keeps (fun i => i < 12 ∨ 16 ≤ i) (assembleTracks revs 0 (scpHeader revs cyls.length) cyls)
      (assemble cyls revs) := (Keeps.put32le _ 0x0C _).mono fun i hi => by omega
  have hread : ∀ k, k < kScpMaxCyls → rd32le (assemble cyls revs) (kScpTlutOff + 8 * k) =
      rd32le (assembleTracks revs 0 (scpHeader revs cyls.length) cyls) (kScpTlutOff + 8 * k) := by
    intro k hk
    simp only [kScpTlutEnd, kScpTlutOff, kScpTlutSlots, kScpMaxCyls] at hlong hk
    exact hsum.rd32le (by simp only [kScpTlutOff]; omega)
      fun i hi _ => Or.inr (by simp only [kScpTlutOff] at hi; omega)
  have hslot : ∀ k entry, cyls[k]? = some entry → SlotHolds (assemble cyls revs) revs k entry := by
    intro k entry hk
    have hlt : k < cyls.length := (List.getElem?_eq_some_iff.mp hk).1
    have h := hslots k entry hk
    rw [Nat.zero_add] at h
    exact h.keeps hsum (by omega) hlong (fun i hi _ => Or.inr (by simp only [kScpTlutOff] at hi; omega))
      (fun i hi => Or.inr (by simp only [kScpTlutEnd, kScpTlutOff, kScpTlutSlots] at hi; omega))
  refine ⟨?_, fun i hi => ?_, fun cyl hcyl hnone => ?_, fun cyl fluxes hsome => ?_⟩
  · rw [assemble, put32le_length]
    exact hlong
  · have hlt : i < kScpTlutEnd := Nat.lt_of_lt_of_le hi (by decide)
    rw [hsum.byteAt i (Nat.lt_of_lt_of_le hlt hlong) (Or.inl hi),
      hkeeps.byteAt i (by rwa [hbase]) (Or.inl (by simp only [kScpTlutOff]; omega))]
  · by_cases hin : cyl < cyls.length
    · have hget : cyls[cyl]? = some cyls[cyl] := List.getElem?_eq_getElem hin
      have h := hslot cyl _ hget
      rw [writtenFlux, List.getD_eq_getElem?_getD, hget, Option.getD_some] at hnone
      unfold SlotHolds at h
      cases hentry : cyls[cyl] with
      | none =>
        rw [hentry] at h
        exact h
      | some fluxes =>
        rw [hentry] at h hnone
        have hlen : ¬ fluxes.length = revs := by simpa [Option.filter] using hnone
        simp only [if_neg hlen] at h
        exact h
    · rw [hread cyl hcyl, hkeeps.rd32le
        (by simp only [kScpTlutEnd, kScpTlutOff, kScpTlutSlots, kScpMaxCyls] at hbase hcyl ⊢; omega)
        (fun i hi _ => Or.inr (by omega)), hzero]
  · have hin : cyl < cyls.length := by
      by_contra hout
      rw [writtenFlux, List.getD_eq_default _ _ (by omega)] at hsome
      cases hsome
    have hget : cyls[cyl]? = some cyls[cyl] := List.getElem?_eq_getElem hin
    have h := hslot cyl _ hget
    rw [writtenFlux, List.getD_eq_getElem?_getD, hget, Option.getD_some] at hsome
    obtain ⟨hentry, hlen⟩ := Option.filter_eq_some_iff.mp hsome
    rw [hentry, SlotHolds] at h
    simp only [decide_eq_true_eq] at hlen
    simp only [if_pos hlen] at h
    exact ⟨by omega, h⟩

theorem nominalCell_zero : nominalCell 0 = 80 := by
  have hquot : ((80 : ℚ) / ((0 : UInt8).toNat + 1)) = ((80 : Nat) : ℚ) := by norm_num
  rw [nominalCell, hquot, rnd_natCast (by norm_num)]
  norm_num

theorem Assembled.geometry {scp : List UInt8} {revs : Nat} {cyls : List (Option (List FluxRev))}
    (h : Assembled scp revs cyls) (hpos : 0 < revs) (hrevs : revs ≤ 255) {cyl : Nat} {fluxes : List FluxRev}
    (hwritten : writtenFlux revs cyls cyl = some fluxes) :
    ∃ g, scpGeometry scp = .ok g ∧ g.revs.toNat = revs ∧ g.legacy = false ∧ g.nominal = 80 ∧ cyl < g.cyls := by
  obtain ⟨hcyl, htrack⟩ := h.present cyl fluxes hwritten
  have hmagic : scp.take 3 = scpMagic := by
    have h0 : byteAt scp 0 = 0x53 := h.fields 0 (by decide)
    have h1 : byteAt scp 1 = 0x43 := h.fields 1 (by decide)
    have h2 : byteAt scp 2 = 0x50 := h.fields 2 (by decide)
    match scp, h.long, h0, h1, h2 with
    | a :: b :: c :: rest, _, h0, h1, h2 =>
      obtain rfl : a = 0x53 := h0
      obtain rfl : b = 0x43 := h1
      obtain rfl : c = 0x50 := h2
      rfl
  -- The fields of the header that the geometry is read from.
  have hfive : byteAt scp 0x05 = UInt8.ofNat revs := h.fields 5 (by decide)
  have hsix : byteAt scp 0x06 = 0 := h.fields 6 (by decide)
  have hnine : byteAt scp 0x09 = 16 := h.fields 9 (by decide)
  have hten : byteAt scp 0x0A = 0 := h.fields 10 (by decide)
  have heleven : byteAt scp 0x0B = 0 := h.fields 11 (by decide)
  have hcount : (UInt8.ofNat revs).toNat = revs := by
    rw [UInt8.toNat_ofNat']
    omega
  have hne : UInt8.ofNat revs ≠ 0 := by
    intro hzero
    rw [hzero] at hcount
    exact absurd hcount.symm (by simpa using Nat.pos_iff_ne_zero.mp hpos)
  have hlegacy : legacyLayout scp = false := by
    rw [legacyLayout, hten]
    rfl
  -- The track of a written cylinder has an offset, so the count of cylinders includes it.
  have htoff : trackOffset scp false cyl ≠ 0 := by
    have hbehind := htrack.behind
    simp only [kScpTlutEnd, kScpTlutOff, kScpTlutSlots] at hbehind
    have hslot : kScpTlutOff + 4 * (cyl * 2) = kScpTlutOff + 8 * cyl := by omega
    rw [trackOffset]
    simp only [Bool.false_eq_true, if_false, hslot]
    simp only [kScpTlutOff]
    omega
  have hpresent := lt_presentCyls hcyl htoff
  refine ⟨⟨UInt8.ofNat revs, false, 80, presentCyls scp false⟩, ?_, hcount, rfl, rfl, hpresent⟩
  have hshort : ¬ (scp.length < kScpTlutEnd ∨ scp.take 3 ≠ scpMagic) := by
    have := h.long
    rintro (hlt | hbad)
    · omega
    · exact hbad hmagic
  rw [scpGeometry, if_neg hshort, hnine, hfive, hten, hsix, heleven, hlegacy, nominalCell_zero]
  simp [hne, Nat.ne_of_gt (Nat.lt_of_le_of_lt (Nat.zero_le _) hpresent)]

theorem fluxRun_trackAt {scp : List UInt8} {g : ScpGeom} {toff r : Nat} {fluxes : List FluxRev} {flux : FluxRev}
    (h : TrackAt scp toff fluxes) (hrevs : fluxes.length = g.revs.toNat) (hr : fluxes[r]? = some flux) :
    fluxRun scp g toff r = .ok (be16Words flux.words) := by
  have hin := h.inside
  rw [hrevs] at hin
  obtain ⟨hwords, hinside, hdata⟩ := h.revs r flux hr
  have hwhole := flux.whole
  have hdouble : 2 * (flux.words.length / 2) = flux.words.length := by omega
  have hhead : ¬ (scp.length < toff + 4 + 12 * g.revs.toNat ∨ slice scp toff 3 ≠ trkMark) := by
    rintro (hlt | hbad)
    · omega
    · exact hbad h.mark
  rw [fluxRun, if_neg hhead]
  simp only [hwords, hdouble]
  rw [if_neg (by omega), hdata]

theorem readFlux_assembled {scp : List UInt8} {revs : Nat} {cyls : List (Option (List FluxRev))}
    (h : Assembled scp revs cyls) (hpos : 0 < revs) (hrevs : revs ≤ 255) (cyl rev : Nat) :
    readFlux scp cyl rev =
      (writtenFlux revs cyls cyl).bind fun fluxes =>
        (fluxes[rev % revs]?).map fun flux => (80, be16Words flux.words) := by
  have hslot : kScpTlutOff + 4 * (cyl * 2) = kScpTlutOff + 8 * cyl := by omega
  cases hwritten : writtenFlux revs cyls cyl with
  | none =>
    rw [readFlux, Option.bind_none]
    cases hg : scpGeometry scp with
    | error e => rfl
    | ok g =>
      simp only
      -- a container without a second head has no legacy layout
      have hten : byteAt scp 0x0A = 0 := h.fields 10 (by decide)
      obtain ⟨-, -, -, -, -, rfl⟩ := scpGeometry_ok hg
      have hmodern : legacyLayout scp = false := by
        rw [legacyLayout, hten]
        rfl
      rw [if_pos]
      by_cases hcyl : cyl < kScpMaxCyls
      · refine Or.inr ?_
        rw [hmodern, trackOffset]
        simp only [Bool.false_eq_true, if_false, hslot]
        exact h.absent cyl hcyl hwritten
      · have hle := presentCyls_le scp (legacyLayout scp)
        exact Or.inl (Nat.le_trans hle (by omega))
  | some fluxes =>
    obtain ⟨g, hg, hcount, hlegacy, hnominal, hcyl⟩ := h.geometry hpos hrevs hwritten
    obtain ⟨-, htrack⟩ := h.present cyl fluxes hwritten
    have hlen : fluxes.length = revs := by
      rw [writtenFlux] at hwritten
      simpa using (Option.filter_eq_some_iff.mp hwritten).2
    have hin : rev % revs < fluxes.length := by
      rw [hlen]
      exact Nat.mod_lt _ hpos
    have hget : fluxes[rev % revs]? = some fluxes[rev % revs] := List.getElem?_eq_getElem hin
    have htoff : trackOffset scp g.legacy cyl = rd32le scp (kScpTlutOff + 8 * cyl) := by
      rw [hlegacy, trackOffset]
      simp only [Bool.false_eq_true, if_false, hslot]
    have hne : ¬ (g.cyls ≤ cyl ∨ rd32le scp (kScpTlutOff + 8 * cyl) = 0) := by
      have hbehind := htrack.behind
      simp only [kScpTlutEnd, kScpTlutOff, kScpTlutSlots] at hbehind ⊢
      omega
    rw [readFlux, hg]
    simp only [htoff]
    rw [if_neg hne, hcount, fluxRun_trackAt htrack (by omega) hget, Option.bind_some, hget, hnominal]
    rfl

/-- **An assembled container decodes as its flux**, cylinder by cylinder and revolution by revolution. -/
theorem readTrack_assembled {cyls : List (Option (List FluxRev))} {revs : Nat} (hpos : 0 < revs)
    (hrevs : revs ≤ 255) (hcyls : cyls.length ≤ kScpMaxCyls) (hsize : (assemble cyls revs).length < 2 ^ 32)
    (cyl rev payloadCap : Nat) :
    readTrack (assemble cyls revs) cyl rev payloadCap =
      (((writtenFlux revs cyls cyl).bind fun fluxes => fluxes[rev % revs]?).map fun flux =>
        decodeFlux payloadCap (80, be16Words flux.words)).getD {} := by
  rw [readTrack_eq, readFlux_assembled (assemble_assembled hcyls hsize) hpos hrevs]
  cases writtenFlux revs cyls cyl with
  | none => rfl
  | some fluxes => rw [Option.bind_some, Option.bind_some, Option.map_map]; rfl

end Koncepcja.Disk
