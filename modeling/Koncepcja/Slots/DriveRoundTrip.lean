import Koncepcja.Slots.DiskDrive

/-!
# Saving a Drive and Loading it Again

`dsk_to_bytes` writes the length of a track as a byte of 256-byte pages and a sector's stored size
as two bytes. A drive whose tracks and sectors fit these fields comes back as it was.

## Main results

- `loadTracks_saved`: the blocks of storable tracks read back.
- `storable_of_loadTracks`: blocks that read back the same contents were storable.
- `drive_round_trip_iff`: a drive is saved and comes back the same exactly when its tracks fit.
-/

namespace Koncepcja.Slots

open Koncepcja.Bytes Koncepcja.Disk

set_option maxRecDepth 20000

/-! ## Drives as they are built -/

/-- The sectors of a track lie one behind the other from `off` on. -/
def Chained : Nat → List Sector → Prop
  | _, [] => True
  | off, s :: rest => s.off = off ∧ Chained (off + s.totalSize) rest

/-- What every track of a loaded or formatted drive is like. -/
structure Track.Built (trk : Track) : Prop where
  data : trk.data.length = trk.size
  sectors : trk.sector.length ≤ dskSectorMax
  chained : Chained 0 trk.sector

/-- What every loaded or formatted drive is like. -/
structure Drive.Built (d : Drive) : Prop where
  tracks : d.tracks ≤ dskTrackMax
  sides : d.sides < dskSideMax
  randomDEs : d.randomDEs = 0 ∨ d.randomDEs = 0x80
  length : d.track.length = d.tracks * (d.sides + 1)
  track : ∀ trk ∈ d.track, trk.Built

theorem readExact_eq {n : Nat} {file a rest : List UInt8} (h : readExact n file = some (a, rest)) :
    a.length = n ∧ file = a ++ rest := by
  rw [readExact] at h
  split at h
  · exact absurd h (by simp)
  · rename_i hlen
    obtain ⟨rfl, rfl⟩ := Prod.mk.inj (Option.some.inj h)
    exact ⟨by rw [List.length_take]; omega, (List.take_append_drop n file).symm⟩

theorem readExact_append {n : Nat} {a : List UInt8} (rest : List UInt8) (ha : a.length = n) :
    readExact n (a ++ rest) = some (a, rest) := by
  subst ha
  rw [readExact, if_neg (by rw [List.length_append]; omega), List.take_left, List.drop_left]

theorem loadSectors_length (header : List UInt8) (extended : Bool) (count i off : Nat) :
    (loadSectors header extended count i off).length = count := by
  induction count generalizing i off with
  | zero => rfl
  | succ count ih => rw [loadSectors, List.length_cons, ih]

theorem loadSectors_chained (header : List UInt8) (extended : Bool) (count i off : Nat) :
    Chained off (loadSectors header extended count i off) := by
  induction count generalizing i off with
  | zero => exact trivial
  | succ count ih => exact ⟨rfl, ih _ _⟩

theorem dskLoadTrack_built {extended : Bool} {trackSize : Nat} {file rest : List UInt8} {trk : Track}
    (h : dskLoadTrack extended trackSize file = some (trk, rest)) : trk.Built := by
  rw [dskLoadTrack] at h
  -- Every failure returns no track; the one exit that is left gives a built one.
  cases hheader : readExact 0x100 file with
  | none =>
    rw [hheader] at h
    cases h
  | some r =>
    obtain ⟨header, file'⟩ := r
    rw [hheader] at h
    dsimp only at h
    split at h
    · cases h
    · split at h
      · cases h
      · rename_i hcount
        cases hdata : readExact trackSize file' with
        | none =>
          rw [hdata] at h
          cases h
        | some r =>
          obtain ⟨data, file''⟩ := r
          rw [hdata] at h
          obtain ⟨rfl, -⟩ := Prod.mk.inj (Option.some.inj h)
          refine ⟨(readExact_eq hdata).1, ?_, loadSectors_chained _ _ _ _ _⟩
          rw [loadSectors_length]
          exact Nat.not_lt.mp hcount

theorem loadTracks_built {extended : Bool} {sizes : List Nat} {file : List UInt8} {tracks : List Track}
    (h : loadTracks extended sizes file = some tracks) :
    tracks.length = sizes.length ∧ ∀ trk ∈ tracks, trk.Built := by
  induction sizes generalizing file tracks with
  | nil =>
    obtain rfl := Option.some.inj h
    exact ⟨rfl, by simp⟩
  | cons size sizes ih =>
    rw [loadTracks] at h
    split at h
    · -- An entry without a block is an empty track.
      cases hrest : loadTracks extended sizes file with
      | none =>
        rw [hrest] at h
        cases h
      | some rest =>
        rw [hrest] at h
        obtain rfl := Option.some.inj h
        obtain ⟨hlen, hbuilt⟩ := ih hrest
        refine ⟨by rw [List.length_cons, List.length_cons, hlen], ?_⟩
        rintro trk (_ | ⟨_, htrk⟩)
        · exact ⟨rfl, Nat.zero_le _, trivial⟩
        · exact hbuilt trk htrk
    · split at h
      · cases h
      · -- A block is loaded, and the others from behind it.
        cases htrk : dskLoadTrack extended (size - 0x100) file with
        | none =>
          rw [htrk] at h
          cases h
        | some r =>
          obtain ⟨first, file'⟩ := r
          rw [htrk] at h
          dsimp only at h
          cases hrest : loadTracks extended sizes file' with
          | none =>
            rw [hrest] at h
            cases h
          | some rest =>
            rw [hrest] at h
            obtain rfl := Option.some.inj h
            obtain ⟨hlen, hbuilt⟩ := ih hrest
            refine ⟨by rw [List.length_cons, List.length_cons, hlen], ?_⟩
            rintro trk (_ | ⟨_, hmem⟩)
            · exact dskLoadTrack_built htrk
            · exact hbuilt trk hmem

theorem and_0x80 (b : UInt8) : b &&& 0x80 = 0 ∨ b &&& 0x80 = 0x80 := by
  have hbits : ∀ v : BitVec 8, v &&& 0x80#8 = 0#8 ∨ v &&& 0x80#8 = 0x80#8 := by decide
  rcases hbits b.toBitVec with h | h
  · exact .inl (UInt8.eq_of_toBitVec_eq h)
  · exact .inr (UInt8.eq_of_toBitVec_eq h)

theorem dskParse_built {file : List UInt8} {d : Drive} (h : dskParse file = some d) (hne : d.tracks ≠ 0) : d.Built := by
  rw [dskParse] at h
  cases hheader : readExact 0x100 file with
  | none =>
    rw [hheader] at h
    cases h
  | some r =>
    obtain ⟨header, file'⟩ := r
    rw [hheader] at h
    dsimp only at h
    cases hkind : dskKind header with
    | none =>
      rw [hkind] at h
      cases h
    | some extended =>
      rw [hkind] at h
      dsimp only at h
      split at h
      · cases h
      · rename_i hsides
        cases htracks : loadTracks extended (trackSizes header extended
            (min (byteAt header 0x30).toNat dskTrackMax * fdcSides header extended)) file' with
        | none =>
          rw [htracks] at h
          cases h
        | some tracks =>
          rw [htracks] at h
          obtain rfl := Option.some.inj h
          obtain ⟨hlen, hbuilt⟩ := loadTracks_built htracks
          -- The check of the sides refuses none, where there are tracks, and more than a drive has.
          have hpos : 1 ≤ fdcSides header extended := by
            by_contra hzero
            exact hsides (.inr ⟨by omega, hne⟩)
          have hmax : fdcSides header extended ≤ dskSideMax := by
            by_contra hgt
            exact hsides (.inl (Nat.not_le.mp hgt))
          refine ⟨Nat.min_le_right _ _, ?_, ?_, ?_, hbuilt⟩
          · simp only
            omega
          · dsimp only
            cases extended
            · exact .inl rfl
            · exact and_0x80 _
          · dsimp only
            rw [hlen, trackSizes, List.length_map, List.length_range, Nat.sub_add_cancel hpos]

theorem chained_map (size : Nat) {f : Nat → Sector} (hoff : ∀ i, (f i).off = i * size)
    (hsize : ∀ i, (f i).totalSize = size) (i n : Nat) : Chained (i * size) ((List.range' i n).map f) := by
  induction n generalizing i with
  | zero => exact trivial
  | succ n ih =>
    rw [List.range'_succ, List.map_cons]
    refine ⟨hoff i, ?_⟩
    rw [hsize, ← Nat.succ_mul]
    exact ih (i + 1)

theorem formatTrack_built (fmt : DiskFormat) (track side : Nat) (hsectors : fmt.sectors ≤ dskSectorMax) :
    (formatTrack fmt track side).Built := by
  refine ⟨List.length_replicate, ?_, ?_⟩
  · rw [formatTrack, List.length_map, List.length_range]
    exact hsectors
  · rw [formatTrack, List.range_eq_range']
    have hchained := chained_map (0x80 <<< fmt.sectorSize) (f := fun i =>
      { chrn := ⟨UInt8.ofNat track, UInt8.ofNat side, fmt.sectorIds side i, UInt8.ofNat fmt.sectorSize⟩
        size := 0x80 <<< fmt.sectorSize
        totalSize := 0x80 <<< fmt.sectorSize
        off := i * 0x80 <<< fmt.sectorSize }) (fun _ => rfl) (fun _ => rfl) 0 fmt.sectors
    rw [Nat.zero_mul] at hchained
    exact hchained

theorem dskFormat_built {fmt : DiskFormat} {d : Drive} (h : dskFormat fmt = some d) : d.Built := by
  rw [dskFormat] at h
  split at h
  · cases h
  · rename_i hsides
    split at h
    · cases h
    · rename_i hsectors
      obtain rfl := Option.some.inj h
      refine ⟨Nat.min_le_right _ _, ?_, .inl rfl, ?_, ?_⟩
      · dsimp only
        omega
      · dsimp only
        rw [List.length_map, List.length_range, Nat.sub_add_cancel (by omega)]
      · intro trk htrk
        obtain ⟨i, -, rfl⟩ := List.mem_map.mp htrk
        exact formatTrack_built fmt _ _ (Nat.not_lt.mp hsectors)

/-! ## Fields that fit -/

/-- A track the image format has room for: whole pages of data, at most 254 of them, none only where
    there are no sectors, and stored sizes of two bytes. -/
structure Track.Storable (trk : Track) : Prop where
  pages : trk.size % 0x100 = 0
  short : trk.size / 0x100 < 0xFF
  empty : trk.size = 0 → trk.sector = []
  stored : ∀ s ∈ trk.sector, s.totalSize < 0x10000

/-- A sector as an extended image gives it back: one version's size by its own N. -/
def Sector.reloaded (s : Sector) : Sector := { s with size := sizeOfCode s.chrn.n }

/-- A track as an extended image gives it back. -/
def Track.reloaded (trk : Track) : Track := { trk with sector := trk.sector.map Sector.reloaded }

/-! ## The track header -/

theorem sectorEntry_length (s : Sector) : (sectorEntry s).length = 8 := rfl

theorem flatMap_sectorEntry_length (secs : List Sector) : (secs.flatMap sectorEntry).length = 8 * secs.length := by
  induction secs with
  | nil => rfl
  | cons s secs ih =>
    rw [List.flatMap_cons, List.length_append, ih, sectorEntry_length, List.length_cons]
    omega

theorem trackHeader_length (t s : Nat) {src : Track} (h : src.sector.length ≤ dskSectorMax) :
    (trackHeader t s src).length = 0x100 := by
  simp only [trackHeader, List.length_append, List.length_replicate, flatMap_sectorEntry_length, trackInfoMagic,
    List.length_cons, List.length_nil, dskSectorMax] at h ⊢
  omega

theorem sectorInfo_entry {header rest : List UInt8} {i : Nat} {s : Sector} (hs : s.totalSize < 0x10000)
    (h : header.drop (0x18 + 8 * i) = sectorEntry s ++ rest) :
    sectorInfo header 0 i = ⟨s.chrn, s.st1, s.st2, s.totalSize⟩ := by
  have hbyte : ∀ j, byteAt header (0 + 0x18 + 8 * i + j) = byteAt (sectorEntry s ++ rest) j := by
    intro j
    rw [← h, byteAt_drop, Nat.zero_add]
  have hsize : rd16le header (0 + 0x18 + 8 * i + 6) = s.totalSize := by
    rw [rd16le, hbyte 6, Nat.add_assoc _ 6 1, hbyte 7]
    change (UInt8.ofNat s.totalSize).toNat + 256 * (UInt8.ofNat (s.totalSize / 256)).toNat = s.totalSize
    simp only [UInt8.toNat_ofNat']
    omega
  rw [sectorInfo, hsize, hbyte 1, hbyte 2, hbyte 3, hbyte 4, hbyte 5]
  have h0 := hbyte 0
  rw [Nat.add_zero] at h0
  rw [h0]
  rfl

theorem loadSectors_saved {header rest : List UInt8} {secs : List Sector} {i off : Nat}
    (h : header.drop (0x18 + 8 * i) = secs.flatMap sectorEntry ++ rest) (hchained : Chained off secs)
    (hstored : ∀ s ∈ secs, s.totalSize < 0x10000) :
    loadSectors header true secs.length i off = secs.map Sector.reloaded := by
  induction secs generalizing i off with
  | nil => rfl
  | cons s secs ih =>
    rw [List.flatMap_cons, List.append_assoc] at h
    have hinfo := sectorInfo_entry (hstored s List.mem_cons_self) h
    have hdrop : header.drop (0x18 + 8 * (i + 1)) = secs.flatMap sectorEntry ++ rest := by
      rw [Nat.mul_succ, ← Nat.add_assoc, ← List.drop_drop, h, List.drop_append_of_le_length (Nat.le_of_eq (sectorEntry_length s).symm),
        List.drop_of_length_le (Nat.le_of_eq (sectorEntry_length s)), List.nil_append]
    obtain ⟨hoff, htail⟩ := hchained
    rw [List.length_cons, loadSectors, hinfo]
    dsimp only
    rw [if_pos rfl, if_pos rfl, ih hdrop htail fun x hx => hstored x (List.mem_cons_of_mem s hx), List.map_cons,
      Sector.reloaded, ← hoff]

theorem dskLoadTrack_saved (t s : Nat) {src : Track} (hbuilt : src.Built) (hstorable : src.Storable)
    (rest : List UInt8) :
    dskLoadTrack true src.size (trackHeader t s src ++ src.data ++ rest) = some (src.reloaded, rest) := by
  have hlen := trackHeader_length t s hbuilt.sectors
  have hmagic : slice (trackHeader t s src) 0 10 = trackInfoMagic := rfl
  have hcount : (byteAt (trackHeader t s src) 0x15).toNat = src.sector.length := by
    change (UInt8.ofNat src.sector.length).toNat = src.sector.length
    have hle := hbuilt.sectors
    rw [UInt8.toNat_ofNat', Nat.mod_eq_of_lt (by simp only [dskSectorMax] at hle; omega)]
  have hsectors : loadSectors (trackHeader t s src) true src.sector.length 0 0 = src.sector.map Sector.reloaded :=
    loadSectors_saved (i := 0) rfl hbuilt.chained hstorable.stored
  rw [dskLoadTrack, List.append_assoc, readExact_append _ hlen]
  dsimp only
  rw [hmagic, if_neg (by simp), hcount, if_neg (Nat.not_lt.mpr hbuilt.sectors), readExact_append _ hbuilt.data]
  dsimp only
  rw [hsectors]
  rfl

/-! ## The whole image -/

theorem trackPages_storable {trk : Track} (h : trk.Storable) :
    (trackPages trk).toNat * 256 = if trk.size = 0 then 0 else trk.size + 0x100 := by
  have hpages := h.pages
  have hshort := h.short
  rw [trackPages]
  split
  · rfl
  · rw [UInt8.toNat_ofNat']
    omega

/-- The track blocks read back by the lengths of the table. -/
theorem loadTracks_saved (side : Nat) (tracks : List Track) (i : Nat) (hbuilt : ∀ trk ∈ tracks, trk.Built)
    (hstorable : ∀ trk ∈ tracks, trk.Storable) :
    loadTracks true (tracks.map fun trk => (trackPages trk).toNat * 256)
        ((tracks.zipIdx i).flatMap fun (src, i) => trackBytes (i / side) (i % side) src) =
      some (tracks.map Track.reloaded) := by
  induction tracks generalizing i with
  | nil => rfl
  | cons trk tracks ih =>
    have hrest := ih (i + 1) (fun x hx => hbuilt x (List.mem_cons_of_mem _ hx))
      fun x hx => hstorable x (List.mem_cons_of_mem _ hx)
    have hfirst := hbuilt trk List.mem_cons_self
    have hfits := hstorable trk List.mem_cons_self
    rw [List.map_cons, List.zipIdx_cons, List.flatMap_cons, loadTracks, trackPages_storable hfits]
    dsimp only
    by_cases hsize : trk.size = 0
    · -- an unformatted track has no block, and no sectors that could be lost
      have hsame : trk.reloaded = {} := by
        have hdata : trk.data = [] := List.length_eq_zero_iff.mp (hfirst.data.trans hsize)
        have hsector := hfits.empty hsize
        cases trk
        simp only at hsize hdata hsector
        subst hsize hdata hsector
        rfl
      rw [if_pos hsize, if_pos ⟨rfl, rfl⟩, trackBytes, if_pos hsize, List.nil_append, hrest, List.map_cons, hsame]
    · rw [if_neg hsize, if_neg (by omega), if_neg (by omega), Nat.add_sub_cancel, trackBytes, if_neg hsize,
        dskLoadTrack_saved _ _ hfirst hfits]
      dsimp only
      rw [hrest, List.map_cons]

theorem dskHeader_length {d : Drive} (h : d.Built) : (dskHeader d).length = 0x100 := by
  have hlen : d.track.length ≤ dskTrackMax * dskSideMax := by
    rw [h.length]
    exact Nat.mul_le_mul h.tracks h.sides
  simp only [dskHeader, List.length_append, List.length_replicate, List.length_map, dskId, dskCreator, extendedMagic,
    List.length_cons, List.length_nil, dskTrackMax, dskSideMax] at hlen ⊢
  omega

theorem trackSizes_saved {d : Drive} (h : d.Built) :
    trackSizes (dskHeader d) true (d.tracks * (d.sides + 1)) = d.track.map fun trk => (trackPages trk).toNat * 256 := by
  have hbyte : ∀ i, byteAt (dskHeader d) (0x34 + i) =
      byteAt (d.track.map trackPages ++ List.replicate (dskTrackMax * dskSideMax - d.track.length) 0) i := by
    intro i
    rw [← byteAt_drop]
    rfl
  apply List.ext_getElem
  · rw [trackSizes, List.length_map, List.length_range, List.length_map, h.length]
  · intro i hi hi'
    rw [List.length_map] at hi'
    simp only [trackSizes, List.getElem_map, List.getElem_range, if_true]
    rw [hbyte, byteAt_append_of_lt _ _ (by rw [List.length_map]; exact hi'), byteAt,
      List.getD_eq_getElem _ _ (by rw [List.length_map]; exact hi'), List.getElem_map]

theorem sides_byte {sides : Nat} {randomDEs : UInt8} (hsides : sides < dskSideMax)
    (hrandom : randomDEs = 0 ∨ randomDEs = 0x80) :
    ((UInt8.ofNat (sides + 1) ||| randomDEs) &&& 3).toNat = sides + 1 ∧
      (UInt8.ofNat (sides + 1) ||| randomDEs) &&& 0x80 = randomDEs := by
  have hcases : sides = 0 ∨ sides = 1 := by
    simp only [dskSideMax] at hsides
    omega
  rcases hcases with rfl | rfl <;> rcases hrandom with rfl | rfl <;> decide

theorem dskParse_header {d : Drive} (h : d.Built) (blocks : List UInt8) :
    dskParse (dskHeader d ++ blocks) =
      (loadTracks true (d.track.map fun trk => (trackPages trk).toNat * 256) blocks).map fun ts =>
        { d with track := ts } := by
  have hkind : dskKind (dskHeader d) = some true := rfl
  -- The two counts of the header come back, with the random flag beside the sides.
  have htracks : min (byteAt (dskHeader d) 0x30).toNat dskTrackMax = d.tracks := by
    have hle := h.tracks
    change min (UInt8.ofNat d.tracks).toNat dskTrackMax = d.tracks
    rw [UInt8.toNat_ofNat', Nat.mod_eq_of_lt (by simp only [dskTrackMax] at hle; omega), Nat.min_eq_left hle]
  obtain ⟨hlow, hhigh⟩ := sides_byte h.sides h.randomDEs
  have hsides : fdcSides (dskHeader d) true = d.sides + 1 := hlow
  have hrandom : byteAt (dskHeader d) 0x31 &&& 0x80 = d.randomDEs := hhigh
  have hlimits : ¬ (dskSideMax < d.sides + 1 ∨ d.sides + 1 = 0 ∧ d.tracks ≠ 0) := by
    have hlt := h.sides
    omega
  rw [dskParse, readExact_append _ (dskHeader_length h)]
  dsimp only
  rw [hkind]
  dsimp only
  rw [htracks, hsides, if_neg hlimits, trackSizes_saved h]
  cases loadTracks true (d.track.map fun trk => (trackPages trk).toNat * 256) blocks with
  | none => rfl
  | some ts =>
    dsimp only
    rw [if_pos rfl, hrandom, Nat.add_sub_cancel]
    rfl

/-! ## Contents -/

/-- What a reader of a track sees: its data, and every sector's ID, status, stored size and bytes. -/
def Track.contents (trk : Track) : List UInt8 × List (Chrn × UInt8 × UInt8 × Nat × List UInt8) :=
  (trk.data, trk.sector.map fun s => (s.chrn, s.st1, s.st2, s.totalSize, slice trk.data s.off s.totalSize))

theorem Track.contents_reloaded (trk : Track) : trk.reloaded.contents = trk.contents := by
  rw [Track.contents, Track.contents, Track.reloaded, List.map_map]
  rfl

theorem loadSectors_totalSize (header : List UInt8) (count i off : Nat) :
    ∀ s ∈ loadSectors header true count i off, s.totalSize < 0x10000 := by
  induction count generalizing i off with
  | zero => simp [loadSectors]
  | succ count ih =>
    rintro s (_ | ⟨_, hs⟩)
    · exact rd16le_lt header _
    · exact ih _ _ s hs

theorem dskLoadTrack_loaded {size : Nat} {header data rest rest' : List UInt8} {trk : Track}
    (hheader : header.length = 0x100)
    (h : dskLoadTrack true size (header ++ data ++ rest) = some (trk, rest')) :
    trk.data.length = size ∧ data ++ rest = trk.data ++ rest' ∧ ∀ s ∈ trk.sector, s.totalSize < 0x10000 := by
  rw [dskLoadTrack, List.append_assoc, readExact_append _ hheader] at h
  dsimp only at h
  split at h
  · cases h
  · split at h
    · cases h
    · cases hdata : readExact size (data ++ rest) with
      | none =>
        rw [hdata] at h
        cases h
      | some r =>
        obtain ⟨read, file⟩ := r
        rw [hdata] at h
        obtain ⟨rfl, rfl⟩ := Prod.mk.inj (Option.some.inj h)
        obtain ⟨hlen, heq⟩ := readExact_eq hdata
        exact ⟨hlen, heq, loadSectors_totalSize _ _ _ _⟩

/-- Blocks that read back the same contents were storable: a length that its byte cannot hold reads
    another amount of data, and a stored size of more than two bytes another size. -/
theorem storable_of_loadTracks {side : Nat} {tracks loaded : List Track} {i : Nat}
    (hbuilt : ∀ trk ∈ tracks, trk.Built)
    (h : loadTracks true (tracks.map fun trk => (trackPages trk).toNat * 256)
        ((tracks.zipIdx i).flatMap fun (src, i) => trackBytes (i / side) (i % side) src) = some loaded)
    (hsame : loaded.map Track.contents = tracks.map Track.contents) : ∀ trk ∈ tracks, trk.Storable := by
  induction tracks generalizing i loaded with
  | nil => simp
  | cons trk tracks ih =>
    have hfirst := hbuilt trk List.mem_cons_self
    have htail := fun x hx => hbuilt x (List.mem_cons_of_mem trk hx)
    rw [List.map_cons, List.zipIdx_cons, List.flatMap_cons, loadTracks] at h
    dsimp only at h
    -- the first block is storable, and the others are read from where it ends
    suffices hsplit : trk.Storable ∧ ∃ first rest, loaded = first :: rest ∧
        loadTracks true (tracks.map fun trk => (trackPages trk).toNat * 256)
          ((tracks.zipIdx (i + 1)).flatMap fun (src, i) => trackBytes (i / side) (i % side) src) = some rest by
      obtain ⟨hstorable, first, rest, rfl, hrest⟩ := hsplit
      rintro x (_ | ⟨_, hx⟩)
      · exact hstorable
      · exact ih htail hrest (List.cons.inj hsame).2 x hx
    by_cases hpages : (trackPages trk).toNat * 256 = 0
    · -- no block is read for the track: it must be an unformatted one
      rw [if_pos ⟨rfl, hpages⟩] at h
      cases hrest : loadTracks true (tracks.map fun trk => (trackPages trk).toNat * 256)
          (trackBytes (i / side) (i % side) trk ++
            (tracks.zipIdx (i + 1)).flatMap fun (src, i) => trackBytes (i / side) (i % side) src) with
      | none =>
        rw [hrest] at h
        cases h
      | some rest =>
        rw [hrest] at h
        obtain rfl := Option.some.inj h
        obtain ⟨hdata, hsector⟩ := Prod.mk.inj (List.cons.inj hsame).1
        have hsize : trk.size = 0 := by
          rw [← hfirst.data, ← hdata]
          rfl
        have hnone : trk.sector = [] := List.map_eq_nil_iff.mp hsector.symm
        rw [trackBytes, if_pos hsize, List.nil_append] at hrest
        refine ⟨⟨by rw [hsize], by rw [hsize]; decide, fun _ => hnone, ?_⟩, _, rest, rfl, hrest⟩
        rw [hnone]
        simp
    · have hsize : trk.size ≠ 0 := by
        intro hzero
        rw [trackPages, if_pos hzero] at hpages
        exact hpages rfl
      rw [if_neg fun hc => hpages hc.2, if_neg (by omega), trackBytes, if_neg hsize] at h
      cases hload : dskLoadTrack true ((trackPages trk).toNat * 256 - 0x100)
          (trackHeader (i / side) (i % side) trk ++ trk.data ++
            (tracks.zipIdx (i + 1)).flatMap fun (src, i) => trackBytes (i / side) (i % side) src) with
      | none =>
        rw [hload] at h
        cases h
      | some r =>
        obtain ⟨first, file⟩ := r
        obtain ⟨hlen, hfile, htotal⟩ := dskLoadTrack_loaded (trackHeader_length _ _ hfirst.sectors) hload
        rw [hload] at h
        dsimp only at h
        cases hrest : loadTracks true (tracks.map fun trk => (trackPages trk).toNat * 256) file with
        | none =>
          rw [hrest] at h
          cases h
        | some rest =>
          rw [hrest] at h
          obtain rfl := Option.some.inj h
          obtain ⟨hdata, hsector⟩ := Prod.mk.inj (List.cons.inj hsame).1
          have hread : trk.size = (trackPages trk).toNat * 256 - 0x100 := by
            rw [← hfirst.data, ← hdata, hlen]
          have hbyte := (trackPages trk).toNat_lt
          have halign : (tracks.zipIdx (i + 1)).flatMap (fun (src, i) => trackBytes (i / side) (i % side) src) = file := by
            rw [hdata] at hfile
            exact List.append_cancel_left hfile
          refine ⟨⟨by omega, by omega, fun hzero => absurd hzero hsize, ?_⟩, first, rest, rfl, halign ▸ hrest⟩
          intro s hs
          -- every size of the track is one that was read as two bytes
          have hmem := List.mem_map_of_mem (f := fun s : Sector =>
            (s.chrn, s.st1, s.st2, s.totalSize, slice trk.data s.off s.totalSize)) hs
          rw [← hsector] at hmem
          obtain ⟨s', hs', heq⟩ := List.mem_map.mp hmem
          have htotal' : s'.totalSize = s.totalSize := congrArg (fun x => x.2.2.2.1) heq
          exact htotal' ▸ htotal s' hs'

/-- **Round trip**: a drive loaded from an image or formatted is saved, and loads again with the same
    tracks, sides and contents, exactly when it has tracks and they fit the image format. -/
theorem drive_round_trip_iff (d : Drive)
    (hd : (∃ file, dskParse file = some d) ∨ ∃ fmt : DiskFormat, fmt.Accepted ∧ dskFormat fmt = some d) :
    (∃ bytes d', dskToBytes d = some bytes ∧ dskParse bytes = some d' ∧ d'.tracks = d.tracks ∧ d'.sides = d.sides ∧
      d'.track.map Track.contents = d.track.map Track.contents) ↔
    d.tracks ≠ 0 ∧ ∀ trk ∈ d.track, trk.Storable := by
  -- A drive that was parsed or formatted has tracks as the loader builds them.
  have hbuilt : d.tracks ≠ 0 → d.Built := by
    intro hne
    rcases hd with ⟨file, hfile⟩ | ⟨fmt, -, hfmt⟩
    · exact dskParse_built hfile hne
    · exact dskFormat_built hfmt
  constructor
  · rintro ⟨bytes, d', hbytes, hparse, -, -, hsame⟩
    have hne : d.tracks ≠ 0 := by
      intro hzero
      rw [dskToBytes, if_pos hzero] at hbytes
      cases hbytes
    rw [dskToBytes, if_neg hne] at hbytes
    obtain rfl := Option.some.inj hbytes
    rw [dskParse_header (hbuilt hne)] at hparse
    obtain ⟨loaded, hloaded, rfl⟩ := Option.map_eq_some_iff.mp hparse
    exact ⟨hne, storable_of_loadTracks (hbuilt hne).track hloaded hsame⟩
  · rintro ⟨hne, hstorable⟩
    refine ⟨_, { d with track := d.track.map Track.reloaded }, by rw [dskToBytes, if_neg hne], ?_, rfl, rfl, ?_⟩
    · rw [dskParse_header (hbuilt hne), loadTracks_saved _ _ 0 (hbuilt hne).track hstorable]
      rfl
    · rw [List.map_map]
      exact List.map_congr_left fun trk _ => trk.contents_reloaded

/-- A format of one track with two sectors of 512 bytes. -/
def smallFormat : DiskFormat :=
  { tracks := 1, sides := 1, sectors := 2, sectorSize := 2, fillerByte := 0xE5, sectorIds := fun _ i => UInt8.ofNat (0xC1 + i) }

theorem drive_round_trip_small :
    ∃ d, dskFormat smallFormat = some d ∧ ∃ bytes d', dskToBytes d = some bytes ∧ dskParse bytes = some d' ∧
      d'.tracks = d.tracks ∧ d'.sides = d.sides ∧ d'.track.map Track.contents = d.track.map Track.contents := by
  have haccepted : smallFormat.Accepted := by
    constructor <;> exact ⟨by decide, by decide⟩
  refine ⟨_, rfl, (drive_round_trip_iff _ (.inr ⟨smallFormat, haccepted, rfl⟩)).mpr ⟨by decide, ?_⟩⟩
  rintro trk (_ | ⟨_, htrk⟩)
  · exact ⟨by decide, by decide, fun hzero => absurd hzero (by decide), by decide⟩
  · cases htrk

/-- A standard image of one track of half a page: one sector of 128 bytes. -/
def halfPageImage : List UInt8 :=
  overwrite (overwrite (overwrite (overwrite (overwrite (List.replicate 0x280 0xE5) 0 standardMagic) 0x30
    [1, 1, 0x80, 0x01]) 0x100 trackInfoMagic) 0x114 [0, 1]) 0x118 [0, 0, 0xC1, 0, 0, 0]

/-- The drive it loads as, and the one its saved image loads as: the sector has lost its data. -/
def halfPageDrive (data : List UInt8) : Drive :=
  { tracks := 1, sides := 0, randomDEs := 0
    track := [{ size := data.length, data := data, sector := [⟨⟨0, 0, 0xC1, 0⟩, 0, 0, 0x80, 0x80, 0⟩] }] }

theorem half_page_lost :
    ∃ d, dskParse halfPageImage = some d ∧
      ¬ ∃ bytes d', dskToBytes d = some bytes ∧ dskParse bytes = some d' ∧ d'.tracks = d.tracks ∧ d'.sides = d.sides ∧
        d'.track.map Track.contents = d.track.map Track.contents := by
  have hsaved : (dskToBytes (halfPageDrive (List.replicate 0x80 0xE5))).bind dskParse = some (halfPageDrive []) := by
    decide
  refine ⟨halfPageDrive (List.replicate 0x80 0xE5), by decide, ?_⟩
  rintro ⟨bytes, d', hbytes, hparse, -, -, hsame⟩
  rw [hbytes, Option.bind_some, hparse] at hsaved
  obtain rfl := Option.some.inj hsaved
  have hdata := congrArg (List.map fun c => c.1.length) hsame
  exact absurd hdata (by decide)

end Koncepcja.Slots
