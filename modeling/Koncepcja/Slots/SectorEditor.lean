import Koncepcja.Cpm.Blocks
import Koncepcja.Slots.ParseBounds

/-!
# Sectors Under the Editor

`src/disk_sector_editor.cpp`: one sector of a drive is read or written, as many bytes as the size code of its ID says.
A read of a sector with several stored versions goes on to the next of them, and a write replaces the first.

## Main results

- `diskSectorRead_of_single`: a read of a sector with one version.
- `readTimes_version`: which version comes next after a number of reads.
- `writesReadBack_of_stable`: where a written sector reads back.
- `writesReadBack_iff`: and it does nowhere else.
-/

namespace Koncepcja.Slots

open Koncepcja.Bytes Koncepcja.Disk Koncepcja.Cpm

set_option maxRecDepth 20000

/-! ## The editor -/

/-- A drive in use: `version i k` is `weak_read_version_` of sector `k` of entry `i`, zero where nothing was read. -/
structure LoadedDrive where
  drive : Drive
  version : Nat → Nat → Nat := fun _ _ => 0

/-- Why a sector is not read or written. -/
inductive SectorError where
  | noDisc
  | track (track max : Nat)
  | side (side max : Nat)
  | notFound (sectorId : UInt8) (track side : Nat)
  | size (expected got : Nat)
  deriving DecidableEq

/-- A number in upper-case hexadecimal digits. -/
def hexUppercase (n : Nat) : String := String.ofList ((Nat.toDigits 16 n).map Char.toUpper)

def SectorError.text : SectorError → String
  | .noDisc => "no disc in drive"
  | .track t max => "track " ++ toString t ++ " out of range (max " ++ toString max ++ ")"
  | .side s max => "side " ++ toString s ++ " out of range (max " ++ toString max ++ ")"
  | .notFound sectorId t s =>
    "sector " ++ hexUppercase sectorId.toNat ++ " not found on track " ++ toString t ++ " side " ++ toString s
  | .size expected got =>
    "data size mismatch: expected " ++ toString expected ++ " bytes, got " ++ toString got

/-- An access past the data of an entry of the track table. -/
structure Overrun where
  entry : Nat
  off : Nat
  deriving DecidableEq

def sectorSizeFromN (n : UInt8) : Nat := sizeOfCode n

/-- The entry of a track and a side. -/
def Drive.entry (drive : Drive) (track side : Nat) : Nat := track * (drive.sides + 1) + side

/-- `find_sector`: the first sector with the ID, and its place in the table of the entry. -/
def findSector (drive : Drive) (track side : Nat) (sectorId : UInt8) : Option (Sector × Nat) :=
  if drive.tracks = 0 then none
  else if drive.tracks ≤ track then none
  else if drive.sides < side then none
  else (drive.track.getD (drive.entry track side) {}).sector.zipIdx.find? fun p => p.1.chrn.r == sectorId

/-- What both functions check before anything else. -/
def lookupSector (drive : Drive) (track side : Nat) (sectorId : UInt8) : Except SectorError (Sector × Nat) :=
  if drive.tracks = 0 then .error .noDisc
  else if drive.tracks ≤ track then .error (.track track (drive.tracks - 1))
  else if drive.sides < side then .error (.side side drive.sides)
  else
    match findSector drive track side sectorId with
    | none => .error (.notFound sectorId track side)
    | some found => .ok found

/-- The bytes are there. None are missing where none are accessed. -/
def Reaches (trk : Track) (off size : Nat) : Prop := size = 0 ∨ off + size ≤ trk.data.length

instance (trk : Track) (off size : Nat) : Decidable (Reaches trk off size) := inferInstanceAs (Decidable (_ ∨ _))

/-- `getDataForRead`: the version of a sector that is read next. -/
def LoadedDrive.nextVersion (d : LoadedDrive) (i : Nat) (found : Sector × Nat) : Nat :=
  (d.version i found.2 + 1) % found.1.weakVersions

def LoadedDrive.advance (d : LoadedDrive) (i : Nat) (found : Sector × Nat) : LoadedDrive :=
  { d with version := fun i' k' => if i' = i ∧ k' = found.2 then d.nextVersion i found else d.version i' k' }

def diskSectorRead (track side : Nat) (sectorId : UInt8) (d : LoadedDrive) :
    Except Overrun (Except SectorError (List UInt8) × LoadedDrive) :=
  match lookupSector d.drive track side sectorId with
  | .error err => .ok (.error err, d)
  | .ok found =>
    let i := d.drive.entry track side
    let size := sectorSizeFromN found.1.chrn.n
    -- The versions are `size_` apart, and as long as the ID says.
    let off := found.1.off + d.nextVersion i found * found.1.size
    if Reaches (d.drive.track.getD i {}) off size then
      .ok (.ok (slice (d.drive.track.getD i {}).data off size), d.advance i found)
    else .error ⟨i, off⟩

/-- `disk_sector_write`: the error, and the drive afterwards. -/
def diskSectorWrite (track side : Nat) (sectorId : UInt8) (data : List UInt8) (d : LoadedDrive) :
    Except Overrun (Option SectorError × LoadedDrive) :=
  match lookupSector d.drive track side sectorId with
  | .error err => .ok (some err, d)
  | .ok found =>
    let i := d.drive.entry track side
    let size := sectorSizeFromN found.1.chrn.n
    if data.length ≠ size then .ok (some (.size size data.length), d)
    -- `getDataForWrite` is the first version.
    else if Reaches (d.drive.track.getD i {}) found.1.off size then
      .ok (none, { d with drive := patchTrack d.drive i found.1.off data })
    else .error ⟨i, found.1.off⟩

/-- So many reads of one sector. -/
def readTimes (track side : Nat) (sectorId : UInt8) : Nat → LoadedDrive →
    Except Overrun (List (Except SectorError (List UInt8)) × LoadedDrive)
  | 0, d => .ok ([], d)
  | n + 1, d =>
    match readTimes track side sectorId n d with
    | .error fault => .error fault
    | .ok (results, d) =>
      match diskSectorRead track side sectorId d with
      | .error fault => .error fault
      | .ok (result, d) => .ok (results ++ [result], d)

/-- The stored bytes of a sector, all its versions. -/
def storedBytes (drive : Drive) (i : Nat) (sec : Sector) : List UInt8 :=
  slice (drive.track.getD i {}).data sec.off sec.totalSize

/-- What was written: it reads back each time, and the bytes of every other sector are as before. -/
structure ReadsBack (track side : Nat) (sectorId : UInt8) (data : List UInt8) (d d' : LoadedDrive) : Prop where
  reads : ∀ n, (readTimes track side sectorId n d').map Prod.fst = .ok (List.replicate n (.ok data))
  frame : ∀ i k sec, (d.drive.track.getD i {}).sector[k]? = some sec →
    ¬(i = d.drive.entry track side ∧ (findSector d.drive track side sectorId).map Prod.snd = some k) →
      storedBytes d'.drive i sec = storedBytes d.drive i sec

/-- Whatever is written to a sector reads back, and nothing is written past the data of its track. -/
def WritesReadBack (track side : Nat) (sectorId : UInt8) (d : LoadedDrive) : Prop :=
  ∀ data, ∃ err d', diskSectorWrite track side sectorId data d = .ok (err, d') ∧
    (err = none → ReadsBack track side sectorId data d d')

/-- No byte of the sector is one of another sector's. -/
def Apart (trk : Track) (found : Sector × Nat) : Prop :=
  ∀ k sec, trk.sector[k]? = some sec → k ≠ found.2 →
    ∀ p, found.1.off ≤ p → p < found.1.off + sectorSizeFromN found.1.chrn.n → ¬(sec.off ≤ p ∧ p < sec.off + sec.totalSize)

/-- The sector is all there, in one version and apart from the others, or holds nothing. -/
def Stable (trk : Track) (found : Sector × Nat) : Prop :=
  sectorSizeFromN found.1.chrn.n = 0 ∨
    (found.1.off + sectorSizeFromN found.1.chrn.n ≤ trk.data.length ∧ found.1.weakVersions = 1 ∧ Apart trk found)

/-! ## Finding a sector -/

section Found

variable {drive drive' : Drive} {track side : Nat} {sectorId : UInt8} {found : Sector × Nat}

theorem findSector_getElem? (h : findSector drive track side sectorId = some found) :
    (drive.track.getD (drive.entry track side) {}).sector[found.2]? = some found.1 := by
  unfold findSector at h
  split at h
  · cases h
  split at h
  · cases h
  split at h
  · cases h
  · exact List.mem_zipIdx_iff_getElem?.mp (List.mem_of_find?_eq_some h)

theorem lookupSector_eq_ok : lookupSector drive track side sectorId = .ok found ↔
    findSector drive track side sectorId = some found := by
  by_cases h₀ : drive.tracks = 0
  · simp [lookupSector, findSector, h₀]
  by_cases h₁ : drive.tracks ≤ track
  · simp [lookupSector, findSector, h₀, h₁]
  by_cases h₂ : drive.sides < side
  · simp [lookupSector, findSector, h₀, h₁, h₂]
  · rw [lookupSector, if_neg h₀, if_neg h₁, if_neg h₂]
    cases findSector drive track side sectorId with
    | none => exact ⟨(nomatch ·), (nomatch ·)⟩
    | some found' => simp

theorem findSector_congr (htracks : drive'.tracks = drive.tracks) (hsides : drive'.sides = drive.sides)
    (hsector : ∀ i, (drive'.track.getD i {}).sector = (drive.track.getD i {}).sector) :
    findSector drive' track side sectorId = findSector drive track side sectorId := by
  simp only [findSector, Drive.entry, htracks, hsides, hsector]

theorem patchTrack_nil (drive : Drive) (i off : Nat) : patchTrack drive i off [] = drive := by
  have hid : (fun trk : Track => { trk with data := overwrite trk.data off [] }) = id := by
    funext trk
    rw [overwrite, List.append_nil, List.length_nil, Nat.add_zero, List.take_append_drop]
    rfl
  rw [patchTrack, hid, List.modify_id]

theorem findSector_patchTrack (i off : Nat) (data : List UInt8) :
    findSector (patchTrack drive i off data) track side sectorId = findSector drive track side sectorId := by
  refine findSector_congr rfl rfl fun j => ?_
  rw [patchTrack, List.getD_eq_getElem?_getD, List.getElem?_modify, List.getD_eq_getElem?_getD]
  split
  · cases drive.track[j]? <;> rfl
  · cases drive.track[j]? <;> rfl

end Found

/-! ## Reading -/

section Reads

variable {track side : Nat} {sectorId : UInt8} {d d' : LoadedDrive} {found : Sector × Nat}

theorem diskSectorRead_found (h : findSector d.drive track side sectorId = some found) :
    diskSectorRead track side sectorId d =
      if Reaches (d.drive.track.getD (d.drive.entry track side) {})
          (found.1.off + d.nextVersion (d.drive.entry track side) found * found.1.size)
          (sectorSizeFromN found.1.chrn.n) then
        .ok (.ok (slice (d.drive.track.getD (d.drive.entry track side) {}).data
          (found.1.off + d.nextVersion (d.drive.entry track side) found * found.1.size)
          (sectorSizeFromN found.1.chrn.n)), d.advance (d.drive.entry track side) found)
      else .error ⟨d.drive.entry track side,
        found.1.off + d.nextVersion (d.drive.entry track side) found * found.1.size⟩ := by
  rw [diskSectorRead, lookupSector_eq_ok.mpr h]

/-- A sector of one version, or of no bytes, reads the same whatever was read before. -/
theorem diskSectorRead_of_single (h : findSector d.drive track side sectorId = some found)
    (hsingle : sectorSizeFromN found.1.chrn.n = 0 ∨
      (found.1.off + sectorSizeFromN found.1.chrn.n ≤ (d.drive.track.getD (d.drive.entry track side) {}).data.length ∧
        found.1.weakVersions = 1)) {bytes : List UInt8}
    (hbytes : slice (d.drive.track.getD (d.drive.entry track side) {}).data found.1.off
      (sectorSizeFromN found.1.chrn.n) = bytes) :
    diskSectorRead track side sectorId d = .ok (.ok bytes, d.advance (d.drive.entry track side) found) := by
  subst hbytes
  rw [diskSectorRead_found h]
  rcases hsingle with hzero | ⟨hinside, hone⟩
  · have hreach (off : Nat) :
        Reaches (d.drive.track.getD (d.drive.entry track side) {}) off (sectorSizeFromN found.1.chrn.n) := Or.inl hzero
    rw [if_pos (hreach _), hzero]
    rfl
  · have hnext : d.nextVersion (d.drive.entry track side) found = 0 := by
      rw [LoadedDrive.nextVersion, hone, Nat.mod_one]
    have hreach : Reaches (d.drive.track.getD (d.drive.entry track side) {}) found.1.off
        (sectorSizeFromN found.1.chrn.n) := Or.inr hinside
    rw [hnext, Nat.zero_mul, Nat.add_zero, if_pos hreach]

theorem readTimes_of_same {result : Except SectorError (List UInt8)}
    (hsame : ∀ d' : LoadedDrive, d'.drive = d.drive →
      ∃ d'', diskSectorRead track side sectorId d' = .ok (result, d'') ∧ d''.drive = d.drive) (n : Nat) :
    ∃ d', readTimes track side sectorId n d = .ok (List.replicate n result, d') ∧ d'.drive = d.drive := by
  induction n with
  | zero => exact ⟨d, rfl, rfl⟩
  | succ n ih =>
    obtain ⟨d', hrun, hdrive⟩ := ih
    obtain ⟨d'', hread, hdrive'⟩ := hsame d' hdrive
    refine ⟨d'', ?_, hdrive'⟩
    rw [readTimes, hrun]
    dsimp only
    rw [hread, List.replicate_succ']

/-- The reads go through the versions, one after the other. -/
theorem readTimes_version (h : findSector d.drive track side sectorId = some found) (n : Nat)
    {results : List (Except SectorError (List UInt8))} (hrun : readTimes track side sectorId n d = .ok (results, d')) :
    d'.drive = d.drive ∧ d'.version (d.drive.entry track side) found.2 % found.1.weakVersions =
      (d.version (d.drive.entry track side) found.2 + n) % found.1.weakVersions := by
  induction n generalizing d' results with
  | zero =>
    cases hrun
    exact ⟨rfl, rfl⟩
  | succ n ih =>
    rw [readTimes] at hrun
    split at hrun
    · cases hrun
    · next results₁ d₁ hrun₁ =>
      obtain ⟨hdrive, hversion⟩ := ih hrun₁
      rw [@diskSectorRead_found _ _ _ _ found (by rw [hdrive]; exact h)] at hrun
      split at hrun
      · cases hrun
      · next hread =>
        split at hread
        · cases hread
          cases hrun
          refine ⟨hdrive, ?_⟩
          -- Each read moves the weak sector on by one version, round the ring.
          rw [LoadedDrive.advance]
          dsimp only
          rw [hdrive, if_pos ⟨rfl, rfl⟩, LoadedDrive.nextVersion, Nat.mod_mod, Nat.add_mod, hversion,
            Nat.mod_add_mod, Nat.add_mod_mod, Nat.add_assoc]
        · cases hread

end Reads

/-! ## Writing -/

section Writes

variable {track side : Nat} {sectorId : UInt8} {data : List UInt8} {d d' : LoadedDrive} {found : Sector × Nat}

theorem diskSectorWrite_found (h : findSector d.drive track side sectorId = some found) :
    diskSectorWrite track side sectorId data d =
      if data.length ≠ sectorSizeFromN found.1.chrn.n then
        .ok (some (.size (sectorSizeFromN found.1.chrn.n) data.length), d)
      else if Reaches (d.drive.track.getD (d.drive.entry track side) {}) found.1.off (sectorSizeFromN found.1.chrn.n) then
        .ok (none, { d with drive := patchTrack d.drive (d.drive.entry track side) found.1.off data })
      else .error ⟨d.drive.entry track side, found.1.off⟩ := by
  rw [diskSectorWrite, lookupSector_eq_ok.mpr h]

theorem writesReadBack_of_none (h : findSector d.drive track side sectorId = none) :
    WritesReadBack track side sectorId d := by
  intro data
  cases hlookup : lookupSector d.drive track side sectorId with
  | ok found =>
    rw [lookupSector_eq_ok, h] at hlookup
    cases hlookup
  | error err => exact ⟨some err, d, by rw [diskSectorWrite, hlookup], fun h => nomatch h⟩

theorem diskSectorWrite_ok (h : findSector d.drive track side sectorId = some found)
    (hlen : data.length = sectorSizeFromN found.1.chrn.n)
    (hreach : Reaches (d.drive.track.getD (d.drive.entry track side) {}) found.1.off data.length) :
    diskSectorWrite track side sectorId data d =
      .ok (none, { d with drive := patchTrack d.drive (d.drive.entry track side) found.1.off data }) := by
  rw [diskSectorWrite_found h, if_neg (not_not.mpr hlen), ← hlen, if_pos hreach]

theorem readsBack_of_stable (h : findSector d.drive track side sectorId = some found)
    (hlen : data.length = sectorSizeFromN found.1.chrn.n)
    (hstable : Stable (d.drive.track.getD (d.drive.entry track side) {}) found) :
    ReadsBack track side sectorId data d
      { d with drive := patchTrack d.drive (d.drive.entry track side) found.1.off data } := by
  rcases Nat.eq_zero_or_pos data.length with hzero | hpos
  · -- Nothing is written, and nothing is read.
    obtain rfl := List.eq_nil_of_length_eq_zero hzero
    rw [patchTrack_nil]
    refine ⟨fun n => ?_, fun _ _ _ _ _ => rfl⟩
    have hsame (d' : LoadedDrive) (hdrive : d'.drive = d.drive) :
        ∃ d'', diskSectorRead track side sectorId d' = .ok (.ok [], d'') ∧ d''.drive = d.drive := by
      have hread : diskSectorRead track side sectorId d' = .ok (.ok [], _) :=
        diskSectorRead_of_single (by rw [hdrive]; exact h) (Or.inl hlen.symm) (by rw [← hlen]; rfl)
      exact ⟨_, hread, hdrive⟩
    obtain ⟨d', hrun, -⟩ := readTimes_of_same hsame n
    rw [hrun]
    rfl
  · obtain ⟨hinside, hone, hapart⟩ := hstable.resolve_left (by omega)
    rw [← hlen] at hinside
    have hdata (j : Nat) := patchTrack_getD (d := d.drive) hinside hpos j
    refine ⟨fun n => ?_, fun i k sec hsec hother => ?_⟩
    · let after : LoadedDrive :=
        { d with drive := patchTrack d.drive (d.drive.entry track side) found.1.off data }
      have hsame (d' : LoadedDrive) (hdrive : d'.drive = after.drive) :
          ∃ d'', diskSectorRead track side sectorId d' = .ok (.ok data, d'') ∧ d''.drive = after.drive := by
        have hentry : d'.drive.entry track side = d.drive.entry track side := by rw [hdrive]; rfl
        have htrack : (d'.drive.track.getD (d'.drive.entry track side) {}).data =
            overwrite (d.drive.track.getD (d.drive.entry track side) {}).data found.1.off data := by
          rw [hentry, hdrive, hdata, if_pos rfl]
        have hfind : findSector d'.drive track side sectorId = some found := by
          rw [hdrive, findSector_patchTrack, h]
        refine ⟨_, diskSectorRead_of_single hfind (Or.inr ⟨?_, hone⟩) ?_, hdrive⟩
        · rw [htrack, overwrite_length hinside, ← hlen]
          exact hinside
        · rw [htrack, ← hlen, slice_overwrite_self _ (by omega)]
      obtain ⟨d', hrun, -⟩ := readTimes_of_same hsame n
      rw [hrun]
      rfl
    · rw [storedBytes, storedBytes, hdata]
      split
      · next hi =>
        subst hi
        have hk : k ≠ found.2 := by
          rintro rfl
          exact hother ⟨rfl, by rw [h]; rfl⟩
        dsimp only
        -- One byte of the window after the other.
        refine List.ext_getElem ?_ fun j hj hj' => ?_
        · simp only [slice, List.length_take, List.length_drop, overwrite_length hinside]
        · have hlt : j < sec.totalSize := by
            simp only [slice, List.length_take] at hj
            omega
          have hbyte := byteAt_overwrite data (by omega :
            found.1.off ≤ (d.drive.track.getD (d.drive.entry track side) {}).data.length) (sec.off + j)
          rw [if_neg fun hp => hapart k sec hsec hk (sec.off + j) hp.1 (by rw [← hlen]; exact hp.2)
            ⟨Nat.le_add_right _ _, Nat.add_lt_add_left hlt _⟩, byteAt_of_slice hlt, byteAt_of_slice hlt] at hbyte
          rwa [byteAt, byteAt, List.getD_eq_getElem _ _ hj, List.getD_eq_getElem _ _ hj'] at hbyte
      · rfl

theorem writesReadBack_of_stable (h : findSector d.drive track side sectorId = some found)
    (hstable : Stable (d.drive.track.getD (d.drive.entry track side) {}) found) :
    WritesReadBack track side sectorId d := by
  intro data
  by_cases hlen : data.length = sectorSizeFromN found.1.chrn.n
  · have hreach : Reaches (d.drive.track.getD (d.drive.entry track side) {}) found.1.off data.length := by
      rw [hlen]
      exact hstable.imp id And.left
    exact ⟨none, _, diskSectorWrite_ok h hlen hreach, fun _ => readsBack_of_stable h hlen hstable⟩
  · exact ⟨some _, _, by rw [diskSectorWrite_found h, if_pos hlen], (nomatch ·)⟩

theorem readsBack_of_writesReadBack (h : findSector d.drive track side sectorId = some found)
    (hall : WritesReadBack track side sectorId d) (hlen : data.length = sectorSizeFromN found.1.chrn.n) :
    Reaches (d.drive.track.getD (d.drive.entry track side) {}) found.1.off data.length ∧
      ReadsBack track side sectorId data d
        { d with drive := patchTrack d.drive (d.drive.entry track side) found.1.off data } := by
  obtain ⟨err, d', hwrite, hback⟩ := hall data
  by_cases hreach : Reaches (d.drive.track.getD (d.drive.entry track side) {}) found.1.off data.length
  · rw [diskSectorWrite_ok h hlen hreach] at hwrite
    cases hwrite
    exact ⟨hreach, hback rfl⟩
  · rw [diskSectorWrite_found h, if_neg (not_not.mpr hlen), ← hlen, if_neg hreach] at hwrite
    cases hwrite

private theorem add_one_ne (b : UInt8) : b + 1 ≠ b := by
  rw [Ne, UInt8.add_eq_left]
  decide

theorem weakVersions_of_reads (h : findSector d.drive track side sectorId = some found)
    (hpos : 0 < sectorSizeFromN found.1.chrn.n)
    (hinside : found.1.off + sectorSizeFromN found.1.chrn.n ≤
      (d.drive.track.getD (d.drive.entry track side) {}).data.length)
    (hreads : ∀ data, data.length = sectorSizeFromN found.1.chrn.n → ∀ n,
      (readTimes track side sectorId n
        { d with drive := patchTrack d.drive (d.drive.entry track side) found.1.off data }).map Prod.fst =
          .ok (List.replicate n (.ok data))) :
    found.1.weakVersions = 1 := by
  by_contra hone
  obtain ⟨hsize, hweak⟩ : 0 < found.1.size ∧ 2 ≤ found.1.weakVersions := by
    rw [Sector.weakVersions] at hone ⊢
    split
    · next hc =>
      rw [if_pos hc] at hone
      have hdiv := Nat.div_pos hc.2 hc.1
      exact ⟨hc.1, by omega⟩
    · next hc => exact absurd (if_neg hc) hone
  -- What is written differs from the last byte of the second version.
  let size := sectorSizeFromN found.1.chrn.n
  let i := d.drive.entry track side
  let b := byteAt (d.drive.track.getD i {}).data (found.1.off + found.1.size + (size - 1))
  let data := List.replicate size (b + 1)
  have hlen : data.length = size := List.length_replicate
  let d₁ : LoadedDrive := { d with drive := patchTrack d.drive i found.1.off data }
  have hfind : findSector d₁.drive track side sectorId = some found := (findSector_patchTrack _ _ _).trans h
  let n := found.1.weakVersions - d.version i found.2 % found.1.weakVersions
  have hrun := hreads data hlen (n + 1)
  rw [readTimes] at hrun
  cases hn : readTimes track side sectorId n d₁ with
  | error fault =>
    rw [hn] at hrun
    cases hrun
  | ok after =>
    obtain ⟨results, d₂⟩ := after
    rw [hn] at hrun
    dsimp only at hrun
    obtain ⟨hdrive, hversion⟩ := readTimes_version hfind n hn
    have hnext : d₂.nextVersion i found = 1 := by
      have hlt := Nat.mod_lt (d.version i found.2) (by omega : 0 < found.1.weakVersions)
      have hzero : (d.version i found.2 + n) % found.1.weakVersions = 0 := by
        rw [← Nat.mod_add_mod, Nat.add_sub_cancel' hlt.le, Nat.mod_self]
      rw [LoadedDrive.nextVersion, ← Nat.mod_add_mod, show d₂.version i found.2 % _ = _ from hversion]
      show ((d.version i found.2 + n) % _ + 1) % _ = 1
      rw [hzero]
      exact Nat.mod_eq_of_lt (by omega)
    have hentry : d₂.drive.entry track side = i := by rw [hdrive]; rfl
    have htrack : (d₂.drive.track.getD i {}).data =
        overwrite (d.drive.track.getD i {}).data found.1.off data := by
      rw [hdrive]
      show ((patchTrack d.drive i found.1.off data).track.getD i {}).data = _
      rw [patchTrack_getD (by rw [hlen]; exact hinside) (by rw [hlen]; exact hpos), if_pos rfl]
    rw [@diskSectorRead_found _ _ _ _ found (by rw [hdrive]; exact hfind), hentry, hnext, Nat.one_mul] at hrun
    split at hrun
    · cases hrun
    · next hread =>
      split at hread
      · cases hread
        injection hrun with hlist
        rw [List.replicate_succ'] at hlist
        have hlast := Except.ok.inj (List.singleton_inj.mp (List.append_inj_right' hlist rfl))
        -- The last byte of the version read is the one that was there.
        have hbyte : byteAt (slice _ _ size) (size - 1) = byteAt data (size - 1) := congrArg (byteAt · (size - 1)) hlast
        have hoff : found.1.off ≤ (d.drive.track.getD i {}).data.length := Nat.le_of_add_right_le hinside
        have hlast : size - 1 < size := Nat.sub_lt hpos Nat.one_pos
        have hbehind : ¬(found.1.off ≤ found.1.off + found.1.size + (size - 1) ∧
            found.1.off + found.1.size + (size - 1) < found.1.off + data.length) := by
          rw [hlen]
          omega
        rw [← byteAt_of_slice hlast, htrack, byteAt_overwrite _ hoff, if_neg hbehind, byteAt_replicate _ hlast] at hbyte
        exact add_one_ne b hbyte.symm
      · cases hread

theorem apart_of_frame (h : findSector d.drive track side sectorId = some found)
    (hinside : found.1.off + sectorSizeFromN found.1.chrn.n ≤
      (d.drive.track.getD (d.drive.entry track side) {}).data.length)
    (hback : ∀ data, data.length = sectorSizeFromN found.1.chrn.n → ReadsBack track side sectorId data d
      { d with drive := patchTrack d.drive (d.drive.entry track side) found.1.off data }) :
    Apart (d.drive.track.getD (d.drive.entry track side) {}) found := by
  intro k sec hsec hk p hle hlt hp
  let b := byteAt (d.drive.track.getD (d.drive.entry track side) {}).data p
  let data := List.replicate (sectorSizeFromN found.1.chrn.n) (b + 1)
  have hlen : data.length = sectorSizeFromN found.1.chrn.n := List.length_replicate
  have hsame := (hback data hlen).frame _ k sec hsec fun hboth => by
    rw [h, Option.map_some, Option.some_inj] at hboth
    exact hk hboth.2.symm
  rw [storedBytes, storedBytes] at hsame
  rw [patchTrack_getD (by rw [hlen]; exact hinside) (by rw [hlen]; omega), if_pos rfl] at hsame
  have hbyte : byteAt (slice _ _ sec.totalSize) (p - sec.off) = byteAt (slice _ _ sec.totalSize) (p - sec.off) :=
    congrArg (byteAt · (p - sec.off)) hsame
  rw [← byteAt_of_slice (by omega), ← byteAt_of_slice (by omega), Nat.add_sub_cancel' hp.1,
    byteAt_overwrite _ (by omega), if_pos ⟨hle, by rw [hlen]; exact hlt⟩, byteAt_replicate _ (by omega)] at hbyte
  exact add_one_ne b hbyte

/-- What is written reads back, and nothing else changes, just when the bytes of the size code are there, there is no
    other version of them and no other sector has any. -/
theorem writesReadBack_iff (track side : Nat) (sectorId : UInt8) (d : LoadedDrive) :
    WritesReadBack track side sectorId d ↔ ∀ found, findSector d.drive track side sectorId = some found →
      Stable (d.drive.track.getD (d.drive.entry track side) {}) found := by
  constructor
  · intro hall found h
    by_cases hzero : sectorSizeFromN found.1.chrn.n = 0
    · exact Or.inl hzero
    · have hpos := Nat.pos_of_ne_zero hzero
      have hback (data : List UInt8) (hlen : data.length = sectorSizeFromN found.1.chrn.n) :=
        readsBack_of_writesReadBack h hall hlen
      have hinside := (hback (List.replicate (sectorSizeFromN found.1.chrn.n) 0) List.length_replicate).1.resolve_left
        (by rwa [List.length_replicate])
      rw [List.length_replicate] at hinside
      exact Or.inr ⟨hinside, weakVersions_of_reads h hpos hinside fun data hlen => (hback data hlen).2.reads,
        apart_of_frame h hinside fun data hlen => (hback data hlen).2⟩
  · intro h
    cases hfind : findSector d.drive track side sectorId with
    | none => exact writesReadBack_of_none hfind
    | some found => exact writesReadBack_of_stable hfind (h found hfind)

end Writes

/-! ## Formatted discs -/

theorem sectorSizeFromN_ofNat {n : Nat} (hn : n ≤ 6) : sectorSizeFromN (UInt8.ofNat n) = 0x80 <<< n :=
  (by decide : ∀ n < 7, sectorSizeFromN (UInt8.ofNat n) = 0x80 <<< n) n (Nat.lt_succ_of_le hn)

theorem stable_formatTrack {fmt : DiskFormat} (hfmt : fmt.Accepted) (track side : Nat) {found : Sector × Nat}
    (h : (formatTrack fmt track side).sector[found.2]? = some found.1) : Stable (formatTrack fmt track side) found := by
  have hsec (k : Nat) (sec : Sector) (hk : (formatTrack fmt track side).sector[k]? = some sec) :
      k < fmt.sectors ∧ sec.off = k * 0x80 <<< fmt.sectorSize ∧ sec.totalSize = 0x80 <<< fmt.sectorSize ∧
        sec.size = 0x80 <<< fmt.sectorSize ∧ sectorSizeFromN sec.chrn.n = 0x80 <<< fmt.sectorSize := by
    rw [formatTrack, List.getElem?_map] at hk
    obtain ⟨k', hk', rfl⟩ := Option.map_eq_some_iff.mp hk
    obtain ⟨hlt, rfl⟩ := List.getElem?_eq_some_iff.mp hk'
    rw [List.length_range] at hlt
    rw [List.getElem_range]
    exact ⟨hlt, rfl, rfl, rfl, sectorSizeFromN_ofNat hfmt.sectorSize.2⟩
  have hpos : 0 < 0x80 <<< fmt.sectorSize := by
    rw [Nat.shiftLeft_eq]
    exact Nat.mul_pos (by decide) (Nat.two_pow_pos _)
  obtain ⟨hlt, hoff, htotal, hsize, hn⟩ := hsec found.2 found.1 h
  refine Or.inr ⟨?_, ?_, ?_⟩
  · rw [hoff, hn, formatTrack, List.length_replicate, ← Nat.succ_mul, Nat.mul_comm]
    exact Nat.mul_le_mul_left _ hlt
  · rw [Sector.weakVersions, hsize, htotal, if_pos ⟨hpos, Nat.le_refl _⟩, Nat.div_self hpos]
  · intro k sec hk hne p hle hltp hother
    obtain ⟨hle', hltp'⟩ := hother
    obtain ⟨-, hoff', htotal', -, -⟩ := hsec k sec hk
    rw [hoff] at hle hltp
    rw [hn] at hltp
    rw [hoff'] at hle' hltp'
    rw [htotal'] at hltp'
    -- A byte belongs to one sector only, by its quotient.
    have hdiv (j : Nat) (h₁ : j * 0x80 <<< fmt.sectorSize ≤ p) (h₂ : p < j * 0x80 <<< fmt.sectorSize + 0x80 <<< fmt.sectorSize) :
        p / 0x80 <<< fmt.sectorSize = j :=
      (Nat.div_eq_iff hpos).mpr ⟨h₁, by omega⟩
    exact hne ((hdiv k hle' hltp').symm.trans (hdiv found.2 hle hltp))

/-- On a formatted disc whatever is written to a sector reads back. -/
theorem writesReadBack_of_dskFormat {fmt : DiskFormat} (hfmt : fmt.Accepted) {drive : Drive}
    (h : dskFormat fmt = some drive) (track side : Nat) (sectorId : UInt8) (version : Nat → Nat → Nat) :
    WritesReadBack track side sectorId ⟨drive, version⟩ := by
  cases hfind : findSector drive track side sectorId with
  | none => exact writesReadBack_of_none hfind
  | some found =>
    refine writesReadBack_of_stable hfind ?_
    have hget := findSector_getElem? hfind
    rw [dskFormat] at h
    split at h
    · cases h
    split at h
    · cases h
    · cases h
      dsimp only at hget ⊢
      rw [List.getD_eq_getElem?_getD, List.getElem?_map] at hget ⊢
      generalize (List.range (min fmt.tracks dskTrackMax * fmt.sides))[Drive.entry _ track side]? = entry at hget ⊢
      cases entry with
      | none =>
        cases hget
      | some i =>
        exact stable_formatTrack hfmt _ _ hget

theorem writesReadBack_of_dskFormat_data :
    ∃ drive, dskFormat dataFormat = some drive ∧ WritesReadBack 0 0 0xC1 ⟨drive, fun _ _ => 0⟩ := by
  have haccepted : dataFormat.Accepted := by
    constructor <;> exact ⟨by decide, by decide⟩
  exact ⟨_, rfl, writesReadBack_of_dskFormat haccepted rfl 0 0 0xC1 _⟩

/-! ## Sectors that are shorter than their ID says -/

/-- An extended image of one track, with 128 bytes for each of two sectors of 256. -/
def shortSectorsImage : List UInt8 :=
  extendedMagic ++ List.replicate 40 0 ++ [1, 1, 0, 0, 2] ++ List.replicate 203 0 ++
    trackInfoMagic ++ List.replicate 11 0 ++ [2, 0, 0, 0, 0, 0xC1, 1, 0, 0, 0x80, 0, 0, 0, 0xC2, 1, 0, 0, 0x80, 0] ++
    List.replicate 216 0 ++ List.replicate 256 0xE5

/-- What is parsed of it. -/
def shortSectors : Drive where
  tracks := 1
  sides := 0
  randomDEs := 0
  track := [{
    size := 256
    data := List.replicate 256 0xE5
    sector := [{ chrn := ⟨0, 0, 0xC1, 1⟩, size := 256, totalSize := 128, off := 0 },
      { chrn := ⟨0, 0, 0xC2, 1⟩, size := 256, totalSize := 128, off := 128 }] }]

/-- A write to the first of them goes over the second. -/
theorem shortSectors_not_writesReadBack :
    ¬∀ file drive, dskParse file = some drive → ∀ track side sectorId, WritesReadBack track side sectorId { drive } := by
  intro h
  have hparse : dskParse shortSectorsImage = some shortSectors := by decide
  have hfind : findSector shortSectors 0 0 0xC1 =
      some ({ chrn := ⟨0, 0, 0xC1, 1⟩, size := 256, totalSize := 128, off := 0 }, 0) := by decide
  have hlen : (List.replicate 256 0 : List UInt8).length = sectorSizeFromN 1 := List.length_replicate
  have hback := (readsBack_of_writesReadBack (d := { drive := shortSectors }) hfind (h _ _ hparse 0 0 0xC1) hlen).2
  have hsame := hback.frame 0 1 { chrn := ⟨0, 0, 0xC2, 1⟩, size := 256, totalSize := 128, off := 128 } rfl
    (by decide)
  exact absurd hsame (by decide)

end Koncepcja.Slots
