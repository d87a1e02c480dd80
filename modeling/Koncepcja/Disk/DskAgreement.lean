import Koncepcja.Disk.DskImage
import Koncepcja.Disk.TrackRoundTrip

/-!
# The Controller and the Synthesizer on One Image

Where the two DSK walkers agree. On a track whose sectors both walkers place alike, the synthesizer
encodes exactly the sectors READ DATA serves, less those too large for a double-density track.

## Main results

- `synthesizer_agrees`: the synthesized sectors of a cylinder are the controller's sectors with
  N ≤ 5, in order, each with the bytes READ DATA serves for it.
- `oversized_sector_dropped`: an accepted image whose one sector is not synthesized at all.
-/

namespace Koncepcja.Disk

open Koncepcja.Bits Koncepcja.Bytes

set_option maxRecDepth 20000

/-! ## §1 Serving a sector -/

theorem serve_eq_slice {image : List UInt8} (n : Nat) {x : Transfer} (hin : x.dataPos + n ≤ x.trkEnd)
    (hend : x.trkEnd ≤ image.length) : serve image n x = slice image x.dataPos n := by
  induction n generalizing x with
  | zero => simp [serve, slice]
  | succ n ih =>
    have hpos : x.dataPos < image.length := by omega
    have hbyte : (dataRead image x).1 = image[x.dataPos] := by
      simp [dataRead, hpos, byteAt, List.getD_eq_getElem?_getD]
    have hslice : slice image x.dataPos (n + 1) = image[x.dataPos] :: slice image (x.dataPos + 1) n := by
      rw [slice, slice, List.drop_eq_getElem_cons hpos, List.take_succ_cons]
    rw [serve, hbyte, hslice]
    cases n with
    | zero => simp [serve, slice]
    | succ n =>
      have hnext : (dataRead image x).2 = { x with dataPos := x.dataPos + 1 } := by
        rw [dataRead]
        simp only
        rw [if_neg (by omega)]
      rw [hnext, ih (by simp only; omega) (by simp only; omega)]

theorem findSector_at {trk : FdcTrack} {i : Nat} {f : FdcSector} (h : trk.sec[i]? = some f) (st2 : UInt8) :
    (findSector trk f.chrn i st2).1 = some f := by
  obtain ⟨hi, hf⟩ := List.getElem?_eq_some_iff.mp h
  have hdrop : trk.sec.drop i = f :: trk.sec.drop (i + 1) := by
    rw [List.drop_eq_getElem_cons hi, hf]
  rw [findSector]
  simp only
  rw [if_neg (by omega), hdrop, List.cons_append, findSectorScan, if_pos rfl]

/-- The bytes of a sector's own size from its window on. -/
def FdcSector.window (image : List UInt8) (f : FdcSector) : List UInt8 :=
  slice image f.off (128 <<< f.chrn.n.toNat)

theorem xferLength_eq {n : UInt8} (dtl : UInt8) (hn : n ≤ kMaxSizeCode) :
    xferLength n dtl ≤ 128 <<< n.toNat ∧ (dtl ≠ 0 → xferLength n dtl ≠ 0) := by
  have hle : n.toNat ≤ 5 := UInt8.le_iff_toNat_le.mp hn
  rw [xferLength]
  split
  · rename_i hzero
    subst hzero
    refine ⟨?_, fun hdtl => ?_⟩
    · split
      · decide
      · rename_i hcap
        have := UInt8.lt_iff_toNat_lt.not.mp hcap
        simpa using this
    · split
      · decide
      · intro h
        exact hdtl (UInt8.toNat_inj.mp h)
  · -- Up to size code 5 the mask of three bits changes nothing.
    have hmask : (n &&& 7).toNat = n.toNat := by
      rw [UInt8.toNat_and]
      have hmod := Nat.and_two_pow_sub_one_eq_mod n.toNat 3
      have hseven : (7 : UInt8).toNat = 2 ^ 3 - 1 := rfl
      rw [hseven, hmod]
      omega
    rw [hmask]
    refine ⟨Nat.le_refl _, fun _ => ?_⟩
    rw [Nat.shiftLeft_eq]
    have := Nat.two_pow_pos n.toNat
    omega

theorem readData_found {image : List UInt8} {trk : FdcTrack} {idx : Nat} {f : FdcSector} {dtl : UInt8}
    (hfind : (findSector trk f.chrn idx 0).1 = some f) (hn : f.chrn.n ≤ kMaxSizeCode) (hne : xferLength f.chrn.n dtl ≠ 0)
    (hin : f.off + 128 <<< f.chrn.n.toNat ≤ trk.dataOff + trk.dataLen)
    (hend : trk.dataOff + trk.dataLen ≤ image.length) :
    readData image trk f.chrn dtl idx = some ((f.window image).take (xferLength f.chrn.n dtl)) := by
  obtain ⟨hle, -⟩ := xferLength_eq dtl hn
  rw [readData, startSector]
  generalize findSector trk f.chrn idx 0 = found at hfind
  obtain ⟨sec, st2⟩ := found
  obtain rfl := hfind
  simp only [Option.map_some, Option.some.injEq]
  rw [if_neg hne, serve_eq_slice _ (by simp only; omega) (by simp only; omega)]
  rw [FdcSector.window, slice, slice, List.take_take, Nat.min_eq_left hle]

theorem readData_at {image : List UInt8} {trk : FdcTrack} {i : Nat} {f : FdcSector} {dtl : UInt8}
    (hget : trk.sec[i]? = some f) (hn : f.chrn.n ≤ kMaxSizeCode) (hdtl : dtl ≠ 0)
    (hin : f.off + 128 <<< f.chrn.n.toNat ≤ trk.dataOff + trk.dataLen)
    (hend : trk.dataOff + trk.dataLen ≤ image.length) :
    readData image trk f.chrn dtl i = some ((f.window image).take (xferLength f.chrn.n dtl)) :=
  readData_found (findSector_at hget 0) hn ((xferLength_eq dtl hn).2 hdtl) hin hend

/-! ## §2 The two sector walks -/

/-- The synthesizer's sector for a controller's sector. -/
def FdcSector.synthesized (image : List UInt8) (f : FdcSector) : MfmSector :=
  { cyl := f.chrn.c
    head := f.chrn.h
    secId := f.chrn.r
    sizeCode := f.chrn.n
    payload := f.window image
    dam := if f.st2 &&& 0x40 ≠ 0 then 0xF8 else 0xFB }

theorem logicalLen_eq {s : SectorInfo} (hn : s.chrn.n ≤ kMaxSizeCode) :
    logicalLen s = 128 <<< s.chrn.n.toNat := by
  have hle : s.chrn.n.toNat ≤ 5 := UInt8.le_iff_toNat_le.mp hn
  have hmask : (s.chrn.n &&& 0x07).toNat = s.chrn.n.toNat := by
    rw [UInt8.toNat_and]
    have hmod := Nat.and_two_pow_sub_one_eq_mod s.chrn.n.toNat 3
    have hseven : (0x07 : UInt8).toNat = 2 ^ 3 - 1 := rfl
    rw [hseven, hmod]
    omega
  rw [logicalLen, hmask]

theorem placeSectors_succ {p : List UInt8} {extended : Bool} {sizeCode : UInt8} {th count i pos pos' : Nat}
    {secs : List FdcSector}
    (h : placeSectors p extended sizeCode th (count + 1) i pos = some (secs, pos')) :
    ∃ rest, placeSectors p extended sizeCode th count (i + 1) (pos + dskStored extended sizeCode (sectorInfo p th i))
        = some (rest, pos') ∧
      secs = ⟨(sectorInfo p th i).chrn, (sectorInfo p th i).st1, (sectorInfo p th i).st2, pos,
        dskStored extended sizeCode (sectorInfo p th i)⟩ :: rest := by
  rw [placeSectors] at h
  split at h
  · cases h
  · cases hrest : placeSectors p extended sizeCode th count (i + 1)
      (pos + dskStored extended sizeCode (sectorInfo p th i)) with
    | none =>
      rw [hrest] at h
      cases h
    | some r =>
      rw [hrest] at h
      obtain ⟨rfl, rfl⟩ := Prod.mk.inj (Option.some.inj h)
      exact ⟨r.1, rfl, rfl⟩

theorem placeSectors_chrn {p : List UInt8} {extended : Bool} {sizeCode : UInt8} {th count i pos pos' : Nat}
    {secs : List FdcSector} (h : placeSectors p extended sizeCode th count i pos = some (secs, pos')) :
    ∀ f ∈ secs, ∃ k, i ≤ k ∧ k < i + count ∧ f.chrn = (sectorInfo p th k).chrn := by
  induction count generalizing i pos secs with
  | zero =>
    obtain ⟨rfl, -⟩ := Prod.mk.inj (Option.some.inj h)
    simp
  | succ count ih =>
    obtain ⟨rest, hrest, rfl⟩ := placeSectors_succ h
    intro f hf
    rcases List.mem_cons.mp hf with rfl | hf
    · exact ⟨i, Nat.le_refl _, by omega, rfl⟩
    · obtain ⟨k, hk, hk', hchrn⟩ := ih hrest f hf
      exact ⟨k, by omega, by omega, hchrn⟩

theorem placeSectors_length {p : List UInt8} {extended : Bool} {sizeCode : UInt8} {th count i pos pos' : Nat}
    {secs : List FdcSector} (h : placeSectors p extended sizeCode th count i pos = some (secs, pos')) :
    secs.length = count ∧ pos ≤ pos' := by
  induction count generalizing i pos secs with
  | zero =>
    obtain ⟨rfl, rfl⟩ := Prod.mk.inj (Option.some.inj h)
    exact ⟨rfl, Nat.le_refl _⟩
  | succ count ih =>
    obtain ⟨rest, hrest, rfl⟩ := placeSectors_succ h
    obtain ⟨hlen, hpos⟩ := ih hrest
    exact ⟨by rw [List.length_cons, hlen], by omega⟩

theorem dskTrackSectors_eq_nil {dsk : List UInt8} {extended : Bool} {off count i rel : Nat}
    (h : ∀ k, i ≤ k → k < i + count → ¬ (sectorInfo dsk off k).chrn.n ≤ kMaxSizeCode) :
    dskTrackSectors dsk extended off count i rel = [] := by
  induction count generalizing i rel with
  | zero => rfl
  | succ count ih =>
    have hfirst := h i (Nat.le_refl _) (by omega)
    have hrest : dskTrackSectors dsk extended off count (i + 1)
        (rel + dskAdvance extended (sectorInfo dsk off i)) = [] :=
      ih fun k hk hk' => h k (by omega) (by omega)
    rw [dskTrackSectors]
    split
    · rfl
    · simp only [hfirst, and_false, if_false, hrest]

/-- **The two walks agree** as long as every sector in front of a small one takes the same room in
    both and every small one lies inside the track's data. -/
theorem walks_agree {p : List UInt8} {extended : Bool} {sizeCode : UInt8} {off count i rel pos' trkEnd : Nat}
    {secs : List FdcSector}
    (hplace : placeSectors p extended sizeCode off count i (off + rel) = some (secs, pos'))
    (htable : i + count ≤ kMaxSectors) (hinfo : off + 0x100 ≤ p.length) (hend : trkEnd ≤ p.length)
    (hadvance : ∀ a b, i ≤ a → a < b → b < i + count → (sectorInfo p off b).chrn.n ≤ kMaxSizeCode →
      dskAdvance extended (sectorInfo p off a) = dskStored extended sizeCode (sectorInfo p off a))
    (hinside : ∀ f ∈ secs, f.chrn.n ≤ kMaxSizeCode → f.off + 128 <<< f.chrn.n.toNat ≤ trkEnd) :
    dskTrackSectors p extended off count i rel =
      (secs.filter fun f => f.chrn.n ≤ kMaxSizeCode).map (FdcSector.synthesized p) := by
  induction count generalizing i rel secs with
  | zero =>
    obtain ⟨rfl, -⟩ := Prod.mk.inj (Option.some.inj hplace)
    rfl
  | succ count ih =>
    obtain ⟨rest, hrest, rfl⟩ := placeSectors_succ hplace
    have hroom : ¬ p.length < off + (0x18 + i * 8) + 8 := by
      simp only [kMaxSectors] at htable
      omega
    have htail : dskTrackSectors p extended off count (i + 1) (rel + dskAdvance extended (sectorInfo p off i)) =
        (rest.filter fun f => f.chrn.n ≤ kMaxSizeCode).map (FdcSector.synthesized p) := by
      -- If a later sector is small enough, both walks are at one place behind this one; if none is, neither matters.
      by_cases hsmall : ∃ b, i < b ∧ b < i + (count + 1) ∧ (sectorInfo p off b).chrn.n ≤ kMaxSizeCode
      · obtain ⟨b, hib, hb, hn⟩ := hsmall
        have hsame := hadvance i b (Nat.le_refl _) hib hb hn
        rw [← hsame, Nat.add_assoc] at hrest
        exact ih hrest (by omega)
          (fun a b ha hab hb hn => hadvance a b (by omega) hab (by omega) hn)
          (fun f hf => hinside f (List.mem_cons_of_mem _ hf))
      · have hnone : ∀ k, i + 1 ≤ k → k < i + 1 + count → ¬ (sectorInfo p off k).chrn.n ≤ kMaxSizeCode :=
          fun k hk hk' hn => hsmall ⟨k, by omega, by omega, hn⟩
        rw [dskTrackSectors_eq_nil hnone]
        have hfilter : (rest.filter fun f => f.chrn.n ≤ kMaxSizeCode) = [] := by
          rw [List.filter_eq_nil_iff]
          intro f hf
          obtain ⟨k, hk, hk', hchrn⟩ := placeSectors_chrn hrest f hf
          rw [hchrn, decide_eq_true_eq]
          exact hnone k hk hk'
        rw [hfilter, List.map_nil]
    rw [dskTrackSectors, if_neg hroom]
    simp only [htail]
    by_cases hn : (sectorInfo p off i).chrn.n ≤ kMaxSizeCode
    · have hlen := logicalLen_eq hn
      have hfits := hinside _ List.mem_cons_self hn
      simp only at hfits
      rw [if_pos ⟨by omega, hn⟩, List.filter_cons_of_pos (by simpa using hn), List.map_cons]
      congr 1
      rw [synthSector, FdcSector.synthesized, FdcSector.window, hlen]
    · rw [if_neg (fun h => hn h.2), List.filter_cons_of_neg (by simpa using hn)]

/-! ## §3 The two track walks -/

/-- What `parse_dsk` makes of track block `index`. -/
def TrackParsed (p : List UInt8) (extended : Bool) (index : Nat) (trk : FdcTrack) : Prop :=
  if extended ∧ blockLen p extended index = 0 then trk = {}
  else parseTrackBlock p extended (blockOffset p extended index) = some trk

theorem parseTracks_succ {p : List UInt8} {extended : Bool} {count index : Nat} {trks : List FdcTrack}
    (h : parseTracks p extended (count + 1) index (blockOffset p extended index) = some trks) :
    ∃ trk rest, trks = trk :: rest ∧ TrackParsed p extended index trk ∧
      parseTracks p extended count (index + 1) (blockOffset p extended (index + 1)) = some rest := by
  rw [parseTracks] at h
  split at h
  · -- An absent entry is an empty track, and the offset stays.
    rename_i habsent
    have hoff : blockOffset p extended (index + 1) = blockOffset p extended index := by
      rw [blockOffset, habsent.2, Nat.add_zero]
    cases hrest : parseTracks p extended count (index + 1) (blockOffset p extended index) with
    | none =>
      rw [hrest] at h
      cases h
    | some rest =>
      rw [hrest] at h
      refine ⟨{}, rest, (Option.some.inj h).symm, ?_, by rw [hoff, hrest]⟩
      rw [TrackParsed, if_pos habsent]
  · -- A present one is parsed, and the next is behind its block.
    rename_i hpresent
    cases htrk : parseTrackBlock p extended (blockOffset p extended index) with
    | none =>
      rw [htrk] at h
      cases h
    | some trk =>
      rw [htrk] at h
      simp only at h
      cases hrest : parseTracks p extended count (index + 1)
        (blockOffset p extended index + blockLen p extended index) with
      | none =>
        rw [hrest] at h
        cases h
      | some rest =>
        rw [hrest] at h
        refine ⟨trk, rest, (Option.some.inj h).symm, ?_, hrest⟩
        rw [TrackParsed, if_neg hpresent, htrk]

theorem parseTracks_get {p : List UInt8} {extended : Bool} {count index : Nat} {trks : List FdcTrack}
    (h : parseTracks p extended count index (blockOffset p extended index) = some trks) :
    ∀ k < count, TrackParsed p extended (index + k) (trks.getD k {}) := by
  induction count generalizing index trks with
  | zero => exact fun k hk => absurd hk (Nat.not_lt_zero k)
  | succ count ih =>
    obtain ⟨trk, rest, rfl, hfirst, hrest⟩ := parseTracks_succ h
    intro k hk
    cases k with
    | zero => exact hfirst
    | succ k =>
      have htail := ih hrest k (by omega)
      rw [Nat.add_right_comm] at htail
      exact htail

theorem parseTrackBlock_some {p : List UInt8} {extended : Bool} {off : Nat} {trk : FdcTrack}
    (h : parseTrackBlock p extended off = some trk) :
    off + 0x100 ≤ p.length ∧ slice p off 10 = trackInfoMagic ∧
      (byteAt p (off + 0x15)).toNat ≤ kMaxSectors ∧
      placeSectors p extended (byteAt p (off + 0x14)) off (byteAt p (off + 0x15)).toNat 0 (off + 0x100)
        = some (trk.sec, trk.dataOff + trk.dataLen) ∧
      trk.dataOff + trk.dataLen ≤ p.length := by
  rw [parseTrackBlock] at h
  split at h
  · cases h
  · split at h
    · cases h
    · simp only at h
      split at h
      · cases h
      · rename_i hlen hmagic hlimits
        cases hplace : placeSectors p extended (byteAt p (off + 0x14)) off (byteAt p (off + 0x15)).toNat 0
          (off + 0x100) with
        | none =>
          rw [hplace] at h
          cases h
        | some r =>
          obtain ⟨sec, pos⟩ := r
          rw [hplace] at h
          simp only at h
          split at h
          · cases h
          · rename_i hpos
            obtain rfl := Option.some.inj h
            obtain ⟨-, hge⟩ := placeSectors_length hplace
            -- The track's length is what was stored behind its header.
            have hback : off + 0x100 + (pos - (off + 0x100)) = pos := by omega
            refine ⟨by omega, by simpa using hmagic, by omega, ?_, ?_⟩
            · simp only [hback]
            · simp only [hback]
              omega

/-! ## §4 Agreement -/

/-- Both walkers place track block `index` alike: a sector in front of a small one takes the same
    room in both, and a small one lies inside the track's data. -/
structure PlacedAlike (p : List UInt8) (extended : Bool) (index : Nat) (trk : FdcTrack) : Prop where
  advance : ∀ a b, a < b → b < trk.sec.length →
    (sectorInfo p (blockOffset p extended index) b).chrn.n ≤ kMaxSizeCode →
    dskAdvance extended (sectorInfo p (blockOffset p extended index) a) =
      dskStored extended (byteAt p (blockOffset p extended index + 0x14))
        (sectorInfo p (blockOffset p extended index) a)
  inside : ∀ f ∈ trk.sec, f.chrn.n ≤ kMaxSizeCode →
    f.off + 128 <<< f.chrn.n.toNat ≤ trk.dataOff + trk.dataLen

theorem dskCylinder_sectors {p : List UInt8} {extended : Bool} {sides cyl : Nat} {trk : FdcTrack}
    (hblock : extended = false → blockLen p extended (cyl * sides) ≠ 0)
    (hparsed : TrackParsed p extended (cyl * sides) trk) (halike : PlacedAlike p extended (cyl * sides) trk) :
    ((dskCylinder p extended sides cyl).map (·.sectors)).getD [] =
      (trk.sec.filter fun f => f.chrn.n ≤ kMaxSizeCode).map (FdcSector.synthesized p) := by
  rw [TrackParsed] at hparsed
  rw [dskCylinder]
  split at hparsed
  · rename_i habsent
    subst hparsed
    rw [if_pos habsent.2]
    rfl
  · rename_i hpresent
    have hne : blockLen p extended (cyl * sides) ≠ 0 := by
      cases extended with
      | false => exact hblock rfl
      | true => exact fun hzero => hpresent ⟨rfl, hzero⟩
    obtain ⟨hinfo, hmagic, hcount, hplace, hend⟩ := parseTrackBlock_some hparsed
    obtain ⟨hlen, -⟩ := placeSectors_length hplace
    rw [if_neg hne, if_neg (by omega), if_neg (by simp [hmagic])]
    refine walks_agree hplace (by omega) hinfo hend ?_ halike.inside
    intro a b _ hab hb hn
    exact halike.advance a b hab (by omega) hn

theorem parseDsk_some {p : List UInt8} {m : FdcMedia} (h : parseDsk p = some m) :
    ∃ extended, dskKind p = some extended ∧ 0x100 ≤ p.length ∧ (byteAt p 0x30).toNat ≠ 0 ∧
      m.tracks = min (byteAt p 0x30).toNat kMaxTracks ∧ m.sides = fdcSides p extended ∧ 1 ≤ m.sides ∧
      (extended = false → 0x100 ≤ rd16le p 0x32) ∧
      parseTracks p extended (m.tracks * m.sides) 0 0x100 = some m.track := by
  rw [parseDsk] at h
  split at h
  · cases h
  · rename_i hlen
    -- Each refusal of the parser contradicts `h`; only the last branch is a medium.
    cases hkind : dskKind p with
    | none =>
      rw [hkind] at h
      cases h
    | some extended =>
      rw [hkind] at h
      simp only at h
      split at h
      · cases h
      · rename_i hgeom
        split at h
        · cases h
        · rename_i hblock
          cases htracks : parseTracks p extended (min (byteAt p 0x30).toNat kMaxTracks * fdcSides p extended) 0 0x100 with
          | none =>
            rw [htracks] at h
            cases h
          | some track =>
            rw [htracks] at h
            obtain rfl := Option.some.inj h
            refine ⟨extended, rfl, by omega, by omega, rfl, rfl, by simp only; omega, ?_, htracks⟩
            intro hext
            subst hext
            simp only [Bool.not_false, true_and] at hblock
            omega

/-- **The controller and the synthesizer agree** on side 0 of every cylinder below 84 whose track
    both walkers place alike, when the synthesizer reads the controller's side count: the
    synthesized sectors are the controller's sectors with N ≤ 5 in order, and the payload of each is
    what READ DATA serves for it, as far as the command's DTL asks. -/
theorem synthesizer_agrees (image : List UInt8) (m : FdcMedia) (hparse : parseDsk image = some m)
    (extended : Bool) (hkind : dskKind image = some extended)
    (hsides : (byteAt image 0x31).toNat = m.sides) (cyl : Nat) (hcyl : cyl < m.tracks)
    (hslot : cyl < kDskMaxCyls)
    (halike : PlacedAlike image extended (cyl * m.sides) (m.trackAt cyl 0)) (dtl : UInt8) (hdtl : dtl ≠ 0) :
    (synthSectors image cyl).map
        (fun s => (s.chrn, some (s.payload.take (xferLength s.sizeCode dtl)))) =
      ((m.trackAt cyl 0).sec.zipIdx.filter fun fi => fi.1.chrn.n ≤ kMaxSizeCode).map
        (fun fi => (fi.1.chrn, readData image (m.trackAt cyl 0) fi.1.chrn dtl fi.2)) := by
  obtain ⟨extended', hkind', hlen, htracks, hcount, -, hone, hstd, hrun⟩ := parseDsk_some hparse
  obtain rfl : extended' = extended := Option.some.inj (hkind'.symm.trans hkind)
  have hindex : cyl * m.sides < m.tracks * m.sides := Nat.mul_lt_mul_of_pos_right hcyl hone
  have hparsed : TrackParsed image extended' (cyl * m.sides) (m.trackAt cyl 0) := by
    have hget := parseTracks_get hrun _ hindex
    rwa [Nat.zero_add] at hget
  have hblock : extended' = false → blockLen image extended' (cyl * m.sides) ≠ 0 := by
    intro hfalse
    have hsize := hstd hfalse
    rw [hfalse, blockLen, if_neg (by decide)]
    omega
  have hsynth : synthSectors image cyl =
      ((m.trackAt cyl 0).sec.filter fun f => f.chrn.n ≤ kMaxSizeCode).map (FdcSector.synthesized image) := by
    have hrange : cyl < min (byteAt image 0x30).toNat kDskMaxCyls := by omega
    have hslots : (dskCylinders image).getD cyl none = dskCylinder image extended' m.sides cyl := by
      rw [dskCylinders, if_neg (by simp only [kDskHeaderSize]; omega), hkind]
      simp only [hsides]
      rw [if_neg (by omega), List.getD_eq_getElem?_getD, List.getElem?_map,
        List.getElem?_range hrange]
      rfl
    rw [← dskCylinder_sectors hblock hparsed halike, synthSectors, hslots]
    cases dskCylinder image extended' m.sides cyl <;> rfl
  -- every controller sector that is kept serves its window
  have hserve : ∀ fi ∈ (m.trackAt cyl 0).sec.zipIdx, fi.1.chrn.n ≤ kMaxSizeCode →
      readData image (m.trackAt cyl 0) fi.1.chrn dtl fi.2 =
        some ((fi.1.window image).take (xferLength fi.1.chrn.n dtl)) := by
    intro fi hfi hn
    have hget := List.mem_zipIdx_iff_getElem?.mp hfi
    have hmem := List.mem_of_getElem? hget
    refine readData_at hget hn hdtl (halike.inside _ hmem hn) ?_
    rw [TrackParsed] at hparsed
    split at hparsed
    · rw [hparsed] at hmem
      cases hmem
    · exact (parseTrackBlock_some hparsed).2.2.2.2
  have hzip : ((m.trackAt cyl 0).sec.filter fun f => f.chrn.n ≤ kMaxSizeCode) =
      ((m.trackAt cyl 0).sec.zipIdx.filter fun fi => fi.1.chrn.n ≤ kMaxSizeCode).map Prod.fst := by
    conv_lhs => rw [← List.zipIdx_map_fst 0 (m.trackAt cyl 0).sec, List.filter_map]
    rfl
  rw [hsynth, hzip, List.map_map, List.map_map]
  apply List.map_congr_left
  intro fi hfi
  obtain ⟨hmem, hn⟩ := List.mem_filter.mp hfi
  rw [hserve fi hmem (by simpa using hn)]
  rfl

/-! ### Two one-sector images -/

/-- An extended image of one single-sided track with one sector of size code `n`, 128 bytes stored. -/
def oneSectorDsk (n : UInt8) : List UInt8 :=
  extendedMagic ++ List.replicate 0x28 0 ++ [1, 1, 0, 0, 2] ++ List.replicate 0xCB 0 ++
    trackInfoMagic ++ List.replicate 10 0 ++ [2, 1, 0x4E, 0xE5] ++ [0, 0, 0xC1, n, 0, 0, 128, 0] ++
    List.replicate 0xE0 0 ++ List.replicate 128 0xE5

/-- The controller's geometry of it. -/
def oneSectorMedia (n : UInt8) : FdcMedia :=
  { tracks := 1
    sides := 1
    track := [{ dataOff := 0x200, dataLen := 128, sec := [⟨⟨0, 0, 0xC1, n⟩, 0, 0, 0x200, 128⟩] }] }

theorem synthesizer_agrees_one_sector :
    (synthSectors (oneSectorDsk 0) 0).map
        (fun s => (s.chrn, some (s.payload.take (xferLength s.sizeCode 0xFF)))) =
      ((oneSectorMedia 0).trackAt 0 0).sec.zipIdx.map
        (fun fi => (fi.1.chrn, readData (oneSectorDsk 0) ((oneSectorMedia 0).trackAt 0 0) fi.1.chrn 0xFF fi.2)) :=
  synthesizer_agrees (oneSectorDsk 0) (oneSectorMedia 0) (by decide) true (by decide)
    (by decide) 0 (by decide) (by decide)
    { advance := by
        intro a b hab hb
        have hlen : ((oneSectorMedia 0).trackAt 0 0).sec.length = 1 := rfl
        omega
      inside := by decide }
    0xFF (by decide)

/-- Agreement without exception: every cylinder's synthesized IDs are the controller's, and every
    payload up to N = 5 is what READ DATA serves. -/
def SynthesizerMatches (image : List UInt8) (m : FdcMedia) : Prop :=
  ∀ cyl < m.tracks, (synthSectors image cyl).map (·.chrn) = (m.trackAt cyl 0).sec.map (·.chrn) ∧
    ∀ i s, (synthSectors image cyl)[i]? = some s → s.sizeCode ≤ kMaxSizeCode →
      readData image (m.trackAt cyl 0) s.chrn 0xFF i = some s.payload

theorem oversized_sector_dropped :
    parseDsk (oneSectorDsk 6) = some (oneSectorMedia 6) ∧
      ¬ SynthesizerMatches (oneSectorDsk 6) (oneSectorMedia 6) := by
  refine ⟨by decide, fun hmatches => ?_⟩
  have hids := (hmatches 0 (by decide)).1
  have hsynth : (synthSectors (oneSectorDsk 6) 0).map (·.chrn) = [] := by decide
  rw [hsynth] at hids
  simp [FdcMedia.trackAt, oneSectorMedia] at hids

end Koncepcja.Disk
