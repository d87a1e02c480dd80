import Koncepcja.Lib.CountedLoop
import Koncepcja.Slots.DriveRoundTrip

/-!
# What Parsing an Image Touches

`dsk_parse` of `src/slotshandler.cpp` once more, with what it asks the machine for: the entries of the track table that
it writes, the bytes of the disc header that it reads as track lengths, and the buffers that it requests. The numbers
of sides and the track lengths wrap in 32 bits, as they do in the source.

## Main results

- `visit_present`, `visit_absent`: one entry of the track table.
- `loop_visit`: the entries of all tracks.
- `parse_inBounds_iff`: the images for which nothing is touched that should not be.
-/

namespace Koncepcja.Slots

open Koncepcja.Bytes Koncepcja.Disk Koncepcja.CountedLoop

set_option maxRecDepth 20000

/-! ## The parser -/

/-- An access outside of the track table, or a track length read past the disc header. -/
inductive ParseFault where
  | entry (p : Nat × Nat)
  | trackSize (index : Nat)
  deriving DecidableEq

/-- `ERR_DSK_INVALID`, `ERR_DSK_SIDES` and `ERR_DSK_SECTORS`. -/
inductive DskError where
  | invalid
  | sides
  | sectors
  deriving DecidableEq

/-- What has been read and touched. -/
structure ParseState where
  /-- The rest of the file. -/
  file : List UInt8
  /-- The next of the track lengths. -/
  sizeIndex : Nat := 0
  /-- The sizes of the buffers, the last first. -/
  requests : List Nat := []
  /-- The entries of the track table that were written, the last first. -/
  entries : List ((Nat × Nat) × Track) := []

/-- `track[DSK_TRACKMAX][DSK_SIDEMAX]` has the entry. -/
def EntryExists (p : Nat × Nat) : Prop := p.1 < dskTrackMax ∧ p.2 < dskSideMax

instance (p : Nat × Nat) : Decidable (EntryExists p) := inferInstanceAs (Decidable (_ ∧ _))

/-- The track of a block, with as much of its data as the file has. -/
def trackOf (extended : Bool) (trackSize : Nat) (file : List UInt8) : Track where
  size := trackSize
  data := (file.drop 0x100).take trackSize
  sector := loadSectors (file.take 0x100) extended (byteAt (file.take 0x100) 0x15).toNat 0 0

/-- `dsk_load_track`. -/
def loadTrackInto (extended : Bool) (trackSize : Nat) (p : Nat × Nat) (s : ParseState) :
    Outcome ParseFault DskError ParseState :=
  match readExact 0x100 s.file with
  | none => .ok (some .invalid, s)
  | some (header, file) =>
    if slice header 0 10 ≠ trackInfoMagic then .ok (some .invalid, { s with file })
    else if dskSectorMax < (byteAt header 0x15).toNat then .ok (some .sectors, { s with file })
    else if ¬EntryExists p then .error (.entry p)
    else
      -- The entry is filled before the data is read.
      let requests := trackSize :: s.requests
      let entries := (p, trackOf extended trackSize s.file) :: s.entries
      match readExact trackSize file with
      | none => .ok (some .invalid, { s with file, requests, entries })
      | some (_, file) => .ok (none, { s with file, requests, entries })

/-- One side of a track. -/
def visit (header : List UInt8) (extended : Bool) (track side : Nat) (s : ParseState) :
    Outcome ParseFault DskError ParseState :=
  if extended then
    if 0x100 ≤ 0x34 + s.sizeIndex then .error (.trackSize s.sizeIndex)
    else
      let trackSize := (byteAt header (0x34 + s.sizeIndex)).toNat * 256
      let s := { s with sizeIndex := s.sizeIndex + 1 }
      if trackSize = 0 then
        if EntryExists (track, side) then .ok (none, { s with entries := ((track, side), {}) :: s.entries })
        else .error (.entry (track, side))
      else loadTrackInto extended ((trackSize + 2 ^ 32 - 0x100) % 2 ^ 32) (track, side) s
  else loadTrackInto extended ((rd16le header 0x32 + 2 ^ 32 - 0x100) % 2 ^ 32) (track, side) s

/-- What has been parsed, with the zero-based number of sides. -/
structure Parsed where
  tracks : Nat := 0
  sides : Nat := 0
  randomDEs : UInt8 := 0
  state : ParseState

/-- The loops over the tracks and the sides. -/
def visitAll (header : List UInt8) (extended : Bool) (tracks sides : Nat) (rest : List UInt8) :
    Outcome ParseFault DskError ParseState :=
  loop (fun track => loop (visit header extended track) sides 0) tracks 0 { file := rest }

/-- A drive whose tracks were visited. -/
def Parsed.ofVisited (drive : ParseState → Parsed) :
    Outcome ParseFault DskError ParseState → Outcome ParseFault DskError Parsed
  | .error fault => .error fault
  | .ok (err, state) => .ok (err, drive state)

/-- `dsk_parse`. An image without sides has 2^32 of them here, where the source starts over after these. -/
def dskParseInto (file : List UInt8) : Outcome ParseFault DskError Parsed :=
  match readExact 0x100 file with
  | none => .ok (some .invalid, { state := { file } })
  | some (header, rest) =>
    match dskKind header with
    | none => .ok (some .invalid, { state := { file := rest } })
    | some extended =>
      let tracks := min (byteAt header 0x30).toNat dskTrackMax
      let sides := fdcSides header extended
      if dskSideMax < sides then .ok (some .sides, { tracks, sides, state := { file := rest } })
      else
        let sides := (sides + 2 ^ 32 - 1) % 2 ^ 32
        let randomDEs := if extended then byteAt header 0x31 &&& 0x80 else 0
        Parsed.ofVisited (fun state => { tracks, sides, randomDEs, state })
          (visitAll header extended tracks (sides + 1) rest)

/-- The most that a track length leaves for the data: the length is 16 bits, and the header is part of it. -/
def bufferMax : Nat := 0xFFFF - 0x100

/-- Only existing entries were written, no buffer is larger than a track length allows and, if the image was parsed,
    the tracks and sides are those of a drive and the sectors lie in the buffers of their tracks. -/
def InBounds : Outcome ParseFault DskError Parsed → Prop
  | .error _ => False
  | .ok (err, d) =>
    (∀ request ∈ d.state.requests, request ≤ bufferMax) ∧
      (err = none → d.tracks ≤ dskTrackMax ∧ d.sides + 1 ≤ dskSideMax ∧
        ∀ entry ∈ d.state.entries, ∀ sec ∈ entry.2.sector, sec.off + sec.totalSize ≤ entry.2.size)

/-! ## The blocks of a file -/

/-- The file goes on with a track header. -/
structure HasTrackInfo (file : List UInt8) : Prop where
  length : 0x100 ≤ file.length
  magic : slice (file.take 0x100) 0 10 = trackInfoMagic
  sectors : (byteAt (file.take 0x100) 0x15).toNat ≤ dskSectorMax

/-- The bytes that the sectors of the track header take. -/
def storedTotal (extended : Bool) (file : List UInt8) : Nat :=
  ((trackOf extended 0 file).sector.map Sector.totalSize).sum

/-- The length of the block of an entry, with its header. Only extended images have entries without a block. -/
def blockSize (header : List UInt8) (extended : Bool) (k : Nat) : Nat :=
  if extended then (byteAt header (0x34 + k)).toNat * 256 else rd16le header 0x32

/-- An entry without a block. -/
def NoBlock (header : List UInt8) (extended : Bool) (k : Nat) : Prop := extended = true ∧ blockSize header extended k = 0

instance (header : List UInt8) (extended : Bool) (k : Nat) : Decidable (NoBlock header extended k) :=
  inferInstanceAs (Decidable (_ ∧ _))

/-- The file has the blocks of `n` entries from `k` on. -/
def Present (header : List UInt8) (extended : Bool) : Nat → Nat → List UInt8 → Prop
  | 0, _, _ => True
  | n + 1, k, file =>
    if NoBlock header extended k then Present header extended n (k + 1) file
    else (HasTrackInfo file ∧ blockSize header extended k ≤ file.length) ∧
      Present header extended n (k + 1) (file.drop (blockSize header extended k))

/-- And the sectors of each of them take no more than its length leaves. -/
def Fit (header : List UInt8) (extended : Bool) : Nat → Nat → List UInt8 → Prop
  | 0, _, _ => True
  | n + 1, k, file =>
    if NoBlock header extended k then Fit header extended n (k + 1) file
    else 0x100 + storedTotal extended file ≤ blockSize header extended k ∧
      Fit header extended n (k + 1) (file.drop (blockSize header extended k))

/-- The file behind the blocks of `n` entries from `k` on. -/
def behind (header : List UInt8) (extended : Bool) : Nat → Nat → List UInt8 → List UInt8
  | 0, _, file => file
  | n + 1, k, file =>
    if NoBlock header extended k then behind header extended n (k + 1) file
    else behind header extended n (k + 1) (file.drop (blockSize header extended k))

/-- The images that are parsed in bounds: a track length of a standard image is not below the length of its header if a
    track header follows, an image without sides has tracks, and does not come to the third entry, and the sectors of an
    image with sides are inside its blocks, if it has all of these. -/
def SafelyParsed (file : List UInt8) : Prop :=
  ∀ header rest extended, readExact 0x100 file = some (header, rest) → dskKind header = some extended →
    fdcSides header extended ≤ dskSideMax →
      ¬(extended = false ∧ byteAt header 0x30 ≠ 0 ∧ rd16le header 0x32 < 0x100 ∧ HasTrackInfo rest) ∧
      if fdcSides header extended = 0 then
        byteAt header 0x30 ≠ 0 ∧ ¬(Present header extended 2 0 rest ∧
          (NoBlock header extended 2 ∨ HasTrackInfo (behind header extended 2 0 rest)))
      else
        Present header extended (min (byteAt header 0x30).toNat dskTrackMax * fdcSides header extended) 0 rest →
          Fit header extended (min (byteAt header 0x30).toNat dskTrackMax * fdcSides header extended) 0 rest

/-! ## One track -/

section Track

variable {extended : Bool} {t : Nat} {p : Nat × Nat} {s : ParseState}

theorem loadTrackInto_no_info (h : ¬HasTrackInfo s.file) :
    ∃ err s', loadTrackInto extended t p s = .ok (some err, s') ∧ s'.requests = s.requests := by
  by_cases hlen : s.file.length < 0x100
  · rw [loadTrackInto, readExact, if_pos hlen]
    exact ⟨_, _, rfl, rfl⟩
  · rw [loadTrackInto, readExact, if_neg hlen]
    dsimp only
    by_cases hmagic : slice (s.file.take 0x100) 0 10 = trackInfoMagic
    · have hsectors : dskSectorMax < (byteAt (s.file.take 0x100) 0x15).toNat := by
        by_contra hsectors
        exact h ⟨not_lt.mp hlen, hmagic, not_lt.mp hsectors⟩
      rw [if_neg (not_not.mpr hmagic), if_pos hsectors]
      exact ⟨_, _, rfl, rfl⟩
    · rw [if_pos hmagic]
      exact ⟨_, _, rfl, rfl⟩

theorem loadTrackInto_of_info (h : HasTrackInfo s.file) :
    loadTrackInto extended t p s =
      if ¬EntryExists p then .error (.entry p)
      else
        match readExact t (s.file.drop 0x100) with
        | none => .ok (some .invalid, { s with
            file := s.file.drop 0x100, requests := t :: s.requests
            entries := (p, trackOf extended t s.file) :: s.entries })
        | some (_, file) => .ok (none, { s with
            file, requests := t :: s.requests, entries := (p, trackOf extended t s.file) :: s.entries }) := by
  rw [loadTrackInto, readExact, if_neg (not_lt.mpr h.length)]
  dsimp only
  rw [if_neg (not_not.mpr h.magic), if_neg (not_lt.mpr h.sectors)]

theorem loadTrackInto_outside (h : HasTrackInfo s.file) (hp : ¬EntryExists p) :
    loadTrackInto extended t p s = .error (.entry p) := by
  rw [loadTrackInto_of_info h, if_pos hp]

theorem loadTrackInto_short (h : HasTrackInfo s.file) (hp : EntryExists p) (hlen : s.file.length < 0x100 + t) :
    ∃ err s', loadTrackInto extended t p s = .ok (some err, s') ∧ s'.requests = t :: s.requests := by
  have hheader := h.length
  rw [loadTrackInto_of_info h, if_neg (not_not.mpr hp), readExact, if_pos (by rw [List.length_drop]; omega)]
  exact ⟨_, _, rfl, rfl⟩

theorem loadTrackInto_present (h : HasTrackInfo s.file) (hp : EntryExists p) (hlen : 0x100 + t ≤ s.file.length) :
    loadTrackInto extended t p s = .ok (none, { s with
      file := s.file.drop (0x100 + t), requests := t :: s.requests
      entries := (p, trackOf extended t s.file) :: s.entries }) := by
  rw [loadTrackInto_of_info h, if_neg (not_not.mpr hp), readExact, if_neg (by rw [List.length_drop]; omega)]
  dsimp only
  rw [List.drop_drop]

end Track

/-! ## The sectors of a track -/

theorem loadSectors_inside_iff (header : List UInt8) (extended : Bool) (count i off size : Nat) :
    (∀ sec ∈ loadSectors header extended count i off, sec.off + sec.totalSize ≤ size) ↔
      (count = 0 ∨ off + ((loadSectors header extended count i off).map Sector.totalSize).sum ≤ size) := by
  induction count generalizing i off with
  | zero => simp [loadSectors]
  | succ count ih =>
    rw [loadSectors, List.forall_mem_cons, ih, List.map_cons, List.sum_cons]
    dsimp only
    generalize hrest : (List.map Sector.totalSize (loadSectors header extended count (i + 1) _)).sum = sum
    rcases Nat.eq_zero_or_pos count with rfl | hpos
    · rw [← hrest]
      simp [loadSectors]
    · omega

theorem trackOf_inside_iff (extended : Bool) (t : Nat) (file : List UInt8) :
    (∀ sec ∈ (trackOf extended t file).sector, sec.off + sec.totalSize ≤ (trackOf extended t file).size) ↔
      storedTotal extended file ≤ t := by
  refine (loadSectors_inside_iff _ _ _ _ _ _).trans ?_
  rw [Nat.zero_add, storedTotal]
  refine or_iff_right_of_imp fun hnone => ?_
  show ((loadSectors (file.take 0x100) extended (byteAt (file.take 0x100) 0x15).toNat 0 0).map Sector.totalSize).sum ≤ t
  rw [hnone]
  exact Nat.zero_le t

/-! ## One entry -/

section Visit

variable {header : List UInt8} {extended : Bool} {track side k : Nat} {s : ParseState}

theorem blockSize_le (header : List UInt8) (extended : Bool) (k : Nat) : blockSize header extended k ≤ 0xFFFF := by
  unfold blockSize
  split
  · have hlt := (byteAt header (0x34 + k)).toNat_lt
    omega
  · exact Nat.le_of_lt_succ (rd16le_lt header 0x32)

/-- The state in which an entry is visited. -/
def ParseState.at (s : ParseState) (extended : Bool) : ParseState :=
  if extended then { s with sizeIndex := s.sizeIndex + 1 } else s

theorem ParseState.at_eq (s : ParseState) (extended : Bool) :
    (s.at extended).file = s.file ∧ (s.at extended).requests = s.requests ∧ (s.at extended).entries = s.entries ∧
      (s.at extended).sizeIndex = s.sizeIndex + if extended then 1 else 0 := by
  cases extended <;> exact ⟨rfl, rfl, rfl, rfl⟩

theorem visit_eq (hindex : extended = true → s.sizeIndex = k ∧ 0x34 + k < 0x100) :
    visit header extended track side s =
      if NoBlock header extended k then
        if EntryExists (track, side) then
          .ok (none, { s.at extended with entries := ((track, side), {}) :: s.entries })
        else .error (.entry (track, side))
      else
        loadTrackInto extended ((blockSize header extended k + 2 ^ 32 - 0x100) % 2 ^ 32) (track, side)
          (s.at extended) := by
  cases extended with
  | false => rfl
  | true =>
    obtain ⟨rfl, hlt⟩ := hindex rfl
    rw [visit, if_pos rfl, if_neg (not_le.mpr hlt)]
    dsimp only
    by_cases hzero : (byteAt header (0x34 + s.sizeIndex)).toNat * 256 = 0
    · rw [if_pos hzero, if_pos (show NoBlock header true s.sizeIndex from ⟨rfl, hzero⟩)]
      rfl
    · rw [if_neg hzero, if_neg (show ¬NoBlock header true s.sizeIndex from fun h => hzero h.2)]
      rfl

end Visit

/-! ## All entries -/

section Loop

variable {header : List UInt8} {extended : Bool}

/-- What is known after the entries from `k` on were visited. -/
structure Visited (header : List UInt8) (extended : Bool) (n k : Nat) (s : ParseState) (err : Option DskError)
    (s' : ParseState) : Prop where
  present : err = none ↔ Present header extended n k s.file
  requests : (∀ request ∈ s.requests, request ≤ bufferMax) → ∀ request ∈ s'.requests, request ≤ bufferMax
  fit : err = none → ((∀ entry ∈ s'.entries, ∀ sec ∈ entry.2.sector, sec.off + sec.totalSize ≤ entry.2.size) ↔
    (∀ entry ∈ s.entries, ∀ sec ∈ entry.2.sector, sec.off + sec.totalSize ≤ entry.2.size) ∧
      Fit header extended n k s.file)
  file : err = none → s'.file = behind header extended n k s.file
  index : err = none → s'.sizeIndex = s.sizeIndex + if extended then n else 0

section Steps

variable {n k : Nat} {s s₁ s' : ParseState} {p : Nat × Nat} {err : Option DskError}

theorem Visited.noBlock (hv : Visited header extended n (k + 1) s₁ err s') (hblock : NoBlock header extended k)
    (hfile : s₁.file = s.file) (hrequests : s₁.requests = s.requests) (hentries : s₁.entries = (p, {}) :: s.entries)
    (hnext : s₁.sizeIndex = s.sizeIndex + if extended then 1 else 0) :
    Visited header extended (n + 1) k s err s' where
  present := by rw [Present, if_pos hblock, hv.present, hfile]
  requests := hrequests ▸ hv.requests
  fit h := by
    rw [Fit, if_pos hblock, hv.fit h, hentries, List.forall_mem_cons, hfile]
    exact and_congr_left fun _ => and_iff_right fun sec hsec => absurd hsec List.not_mem_nil
  file h := by rw [behind, if_pos hblock, hv.file h, hfile]
  index h := by
    rw [hv.index h, hnext]
    cases extended <;> simp
    omega

theorem Visited.block (hv : Visited header extended n (k + 1) s₁ err s') (hblock : ¬NoBlock header extended k)
    (hge : 0x100 ≤ blockSize header extended k)
    (hpresent : HasTrackInfo s.file ∧ blockSize header extended k ≤ s.file.length)
    (hfile : s₁.file = s.file.drop (blockSize header extended k))
    (hrequests : s₁.requests = (blockSize header extended k - 0x100) :: s.requests)
    (hentries : s₁.entries = (p, trackOf extended (blockSize header extended k - 0x100) s.file) :: s.entries)
    (hnext : s₁.sizeIndex = s.sizeIndex + if extended then 1 else 0) :
    Visited header extended (n + 1) k s err s' where
  present := by rw [Present, if_neg hblock, hv.present, hfile, and_iff_right hpresent]
  requests h := by
    have hle := blockSize_le header extended k
    have hmax : blockSize header extended k - 0x100 ≤ bufferMax := by
      rw [bufferMax]
      omega
    exact hv.requests (hrequests ▸ List.forall_mem_cons.mpr ⟨hmax, h⟩)
  fit h := by
    -- The block fits iff its own sectors do and the rest fits.
    rw [Fit, if_neg hblock, hv.fit h, hentries, List.forall_mem_cons, hfile, trackOf_inside_iff]
    constructor
    · rintro ⟨⟨hfits, hall⟩, hfit⟩
      exact ⟨hall, by omega, hfit⟩
    · rintro ⟨hall, hfits, hfit⟩
      exact ⟨⟨by omega, hall⟩, hfit⟩
  file h := by rw [behind, if_neg hblock, hv.file h, hfile]
  index h := by
    rw [hv.index h, hnext]
    cases extended <;> simp
    omega

theorem Visited.missing {e : DskError} (hblock : ¬NoBlock header extended k)
    (hmissing : ¬(HasTrackInfo s.file ∧ blockSize header extended k ≤ s.file.length))
    (hrequests : ∀ request ∈ s'.requests, request ∈ s.requests ∨ request ≤ bufferMax) :
    Visited header extended (n + 1) k s (some e) s' where
  present := by
    rw [Present, if_neg hblock]
    exact iff_of_false (Option.some_ne_none e) fun h => hmissing h.1
  requests h request hmem := (hrequests request hmem).elim (h request) id
  fit h := absurd h (Option.some_ne_none e)
  file h := absurd h (Option.some_ne_none e)
  index h := absurd h (Option.some_ne_none e)

theorem blockSize_ge (hsizes : extended = false → 0x100 ≤ rd16le header 0x32) (hblock : ¬NoBlock header extended k) :
    0x100 ≤ blockSize header extended k := by
  cases extended with
  | false => exact hsizes rfl
  | true =>
    have hzero : (byteAt header (0x34 + k)).toNat * 256 ≠ 0 := fun h => hblock ⟨rfl, h⟩
    show 0x100 ≤ (byteAt header (0x34 + k)).toNat * 256
    omega

theorem loadTrackInto_missing (hp : EntryExists p) (hge : 0x100 ≤ blockSize header extended k)
    (hmissing : ¬(HasTrackInfo s.file ∧ blockSize header extended k ≤ s.file.length)) :
    ∃ e s', loadTrackInto extended (blockSize header extended k - 0x100) p s = .ok (some e, s') ∧
      ∀ request ∈ s'.requests, request ∈ s.requests ∨ request ≤ bufferMax := by
  by_cases hinfo : HasTrackInfo s.file
  · have hshort : s.file.length < blockSize header extended k := not_le.mp fun h => hmissing ⟨hinfo, h⟩
    obtain ⟨e, s', h, hreq⟩ := @loadTrackInto_short extended (blockSize header extended k - 0x100) p s hinfo hp
      (by omega)
    refine ⟨e, s', h, fun request hmem => ?_⟩
    rw [hreq, List.mem_cons] at hmem
    refine hmem.symm.imp_right fun h => ?_
    have hle := blockSize_le header extended k
    rw [h, bufferMax]
    omega
  · obtain ⟨e, s', h, hreq⟩ := @loadTrackInto_no_info extended (blockSize header extended k - 0x100) p s hinfo
    exact ⟨e, s', h, fun request hmem => .inl (hreq ▸ hmem)⟩

end Steps

/-- Entries that exist, in blocks of a length that is not below that of their headers, are visited without a
    failure. -/
theorem loop_visit (hsizes : extended = false → 0x100 ≤ rd16le header 0x32) {pos : Nat → Nat × Nat} {n k : Nat}
    {s : ParseState} (hpos : ∀ j, j < k + n → EntryExists (pos j))
    (hindex : extended = true → s.sizeIndex = k ∧ 0x34 + (k + n) ≤ 0x100) :
    ∃ err s', loop (fun j => visit header extended (pos j).1 (pos j).2) n k s = .ok (err, s') ∧
      Visited header extended n k s err s' := by
  induction n generalizing k s with
  | zero =>
    refine ⟨none, s, rfl, ⟨iff_of_true rfl trivial, fun h => h, fun _ => ?_, fun _ => rfl, fun _ => ?_⟩⟩
    · exact (and_iff_left trivial).symm
    · rw [ite_self, Nat.add_zero]
  | succ n ih =>
    have hvisit := @visit_eq header _ (pos k).1 (pos k).2 _ _ fun h =>
      ⟨(hindex h).1, by have := (hindex h).2; omega⟩
    have hexists : EntryExists ((pos k).1, (pos k).2) := hpos k (by omega)
    obtain ⟨hfile, hrequests, hentries, hnext⟩ := s.at_eq extended
    -- The entries behind this one, from a state whose size index has moved on.
    have hrest (s₁ : ParseState) (hs₁ : s₁.sizeIndex = s.sizeIndex + if extended then 1 else 0) :=
      ih (k := k + 1) (s := s₁) (fun j hj => hpos j (by omega)) fun h => by
        rw [hs₁, h, if_pos rfl]
        have := hindex h
        omega
    by_cases hblock : NoBlock header extended k
    · rw [if_pos hblock, if_pos hexists] at hvisit
      obtain ⟨err, s', hloop, hv⟩ := hrest
        { s.at extended with entries := (((pos k).1, (pos k).2), {}) :: s.entries } hnext
      refine ⟨err, s', ?_, hv.noBlock hblock hfile hrequests rfl hnext⟩
      rw [loop, hvisit]
      exact hloop
    · have hge := blockSize_ge hsizes hblock
      have hle := blockSize_le header extended k
      -- The length of the data does not wrap.
      have ht : (blockSize header extended k + 2 ^ 32 - 0x100) % 2 ^ 32 = blockSize header extended k - 0x100 := by
        omega
      rw [if_neg hblock, ht] at hvisit
      by_cases hpresent : HasTrackInfo s.file ∧ blockSize header extended k ≤ s.file.length
      · rw [loadTrackInto_present (by rw [hfile]; exact hpresent.1) hexists (by rw [hfile]; omega),
          Nat.add_sub_cancel' hge, hfile, hrequests, hentries] at hvisit
        obtain ⟨err, s', hloop, hv⟩ := hrest
          { file := s.file.drop (blockSize header extended k)
            sizeIndex := (s.at extended).sizeIndex
            requests := (blockSize header extended k - 0x100) :: s.requests
            entries := (((pos k).1, (pos k).2), trackOf extended (blockSize header extended k - 0x100) s.file) ::
              s.entries } hnext
        refine ⟨err, s', ?_, hv.block hblock hge hpresent rfl rfl rfl hnext⟩
        rw [loop, hvisit]
        exact hloop
      · obtain ⟨e, s', hload, hreq⟩ := @loadTrackInto_missing header extended k (s.at extended) _ hexists hge
          (by rw [hfile]; exact hpresent)
        rw [hrequests] at hreq
        refine ⟨some e, s', ?_, Visited.missing hblock hpresent hreq⟩
        rw [loop, hvisit, hload]

variable {tracks sides : Nat} {rest : List UInt8}

theorem visit_requests {track side request : Nat} {s s' : ParseState} {err : Option DskError}
    (hmem : request ∈ s.requests) (h : visit header extended track side s = .ok (err, s')) :
    request ∈ s'.requests := by
  -- A request that was made stays on record, whatever becomes of the track.
  have hload {t : Nat} {s : ParseState} (hmem : request ∈ s.requests)
      (h : loadTrackInto extended t (track, side) s = .ok (err, s')) : request ∈ s'.requests := by
    by_cases hinfo : HasTrackInfo s.file
    · by_cases hexists : EntryExists (track, side)
      · by_cases hlen : 0x100 + t ≤ s.file.length
        · rw [loadTrackInto_present hinfo hexists hlen] at h
          cases h
          exact List.mem_cons_of_mem t hmem
        · obtain ⟨e, s'', hs'', hreq⟩ := @loadTrackInto_short extended _ _ _ hinfo hexists (not_le.mp hlen)
          rw [hs''] at h
          cases h
          rw [hreq]
          exact List.mem_cons_of_mem t hmem
      · rw [loadTrackInto_outside hinfo hexists] at h
        cases h
    · obtain ⟨e, s'', hs'', hreq⟩ := @loadTrackInto_no_info extended t (track, side) _ hinfo
      rw [hs''] at h
      cases h
      rwa [hreq]
  unfold visit at h
  split at h
  · split at h
    · cases h
    · dsimp only at h
      split at h
      · split at h
        · cases h
          exact hmem
        · cases h
      · refine hload ?_ h
        exact hmem
  · exact hload hmem h

theorem visit_standard (track side : Nat) (s : ParseState) : visit header false track side s =
    loadTrackInto false ((rd16le header 0x32 + 2 ^ 32 - 0x100) % 2 ^ 32) (track, side) s := rfl

theorem visitAll_oversize (hshort : rd16le header 0x32 < 0x100) (hinfo : HasTrackInfo rest) {err : Option DskError}
    {s' : ParseState} (h : visitAll header false (tracks + 1) (sides + 1) rest = .ok (err, s')) :
    ∃ request ∈ s'.requests, bufferMax < request := by
  -- The track length in the header is below 0x100, so its difference wraps.
  obtain ⟨t, ht⟩ : ∃ t, t = (rd16le header 0x32 + 2 ^ 32 - 0x100) % 2 ^ 32 := ⟨_, rfl⟩
  have hbig : bufferMax < t := by
    rw [bufferMax]
    omega
  have hpreserved (track : Nat) (i : Nat) (s : ParseState) (e : Option DskError) (s' : ParseState)
      (hmem : t ∈ s.requests) (h : visit header false track i s = .ok (e, s')) : t ∈ s'.requests :=
    visit_requests hmem h
  have hexists : EntryExists (0, 0) := by decide
  -- The first track asks for it, whether or not the file has that many bytes.
  have hfirst (e : Option DskError) (s' : ParseState) (h : visit header false 0 0 { file := rest } = .ok (e, s')) :
      t ∈ s'.requests := by
    rw [visit_standard, ← ht] at h
    by_cases hlen : 0x100 + t ≤ rest.length
    · rw [loadTrackInto_present hinfo hexists hlen] at h
      cases h
      exact List.mem_cons_self
    · obtain ⟨e', s'', hs'', hreq⟩ := @loadTrackInto_short false t _ { file := rest } hinfo hexists (not_le.mp hlen)
      rw [hs''] at h
      cases h
      rw [hreq]
      exact List.mem_cons_self
  refine ⟨t, ?_, hbig⟩
  rw [visitAll] at h
  refine loop_invariant_of_first (P := fun s : ParseState => t ∈ s.requests) (fun track s e s' hmem hrun => ?_)
    (fun e s' hrun => ?_) h
  · exact loop_invariant (P := fun s : ParseState => t ∈ s.requests) (hpreserved track) hmem hrun
  · exact loop_invariant_of_first (P := fun s : ParseState => t ∈ s.requests) (hpreserved 0) hfirst hrun

theorem visitAll_no_info (hinfo : ¬HasTrackInfo rest) :
    ∃ err s', visitAll header false (tracks + 1) (sides + 1) rest = .ok (some err, s') ∧ s'.requests = [] := by
  obtain ⟨err, s', h, hreq⟩ := @loadTrackInto_no_info false ((rd16le header 0x32 + 2 ^ 32 - 0x100) % 2 ^ 32) (0, 0)
    { file := rest } hinfo
  have hvisit : visit header false 0 0 { file := rest } = .ok (some err, s') := by rw [visit_standard, h]
  refine ⟨err, s', ?_, hreq⟩
  rw [visitAll, loop, loop, hvisit]

theorem visitAll_sides (hsizes : extended = false → 0x100 ≤ rd16le header 0x32) (hpos : 0 < sides)
    (hsides : sides ≤ dskSideMax) (htracks : tracks ≤ dskTrackMax) :
    ∃ err s', visitAll header extended tracks sides rest = .ok (err, s') ∧
      Visited header extended (tracks * sides) 0 { file := rest } err s' := by
  have hle : tracks * sides ≤ 204 := Nat.mul_le_mul htracks hsides
  rw [visitAll, loop_nested (visit header extended) hpos tracks 0, Nat.zero_mul]
  exact @loop_visit _ _ hsizes (fun k => (k / sides, k % sides)) _ _ _
    (fun j hj => ⟨Nat.lt_of_lt_of_le (Nat.div_lt_of_lt_mul (by rw [Nat.mul_comm]; omega)) htracks,
      Nat.lt_of_lt_of_le (Nat.mod_lt j hpos) hsides⟩)
    fun _ => ⟨rfl, by omega⟩

theorem visitAll_no_sides (hsizes : extended = false → 0x100 ≤ rd16le header 0x32) :
    (Present header extended 2 0 rest ∧
        (NoBlock header extended 2 ∨ HasTrackInfo (behind header extended 2 0 rest)) ∧
        ∃ fault, visitAll header extended (tracks + 1) (sides + 3) rest = .error fault) ∨
      (¬(Present header extended 2 0 rest ∧
          (NoBlock header extended 2 ∨ HasTrackInfo (behind header extended 2 0 rest))) ∧
        ∃ err s', visitAll header extended (tracks + 1) (sides + 3) rest = .ok (some err, s') ∧
          ∀ request ∈ s'.requests, request ≤ bufferMax) := by
  obtain ⟨err, s', hloop, hv⟩ := @loop_visit _ _ hsizes (fun k => (0, k)) 2 0 { file := rest }
    (fun j hj => ⟨Nat.zero_lt_succ 101, by rw [dskSideMax]; omega⟩) fun _ => ⟨rfl, by decide⟩
  have hrequests := hv.requests fun _ h => absurd h List.not_mem_nil
  have htwo : loop (visit header extended 0) 2 0 { file := rest } = .ok (err, s') := hloop
  cases err with
  | some err =>
    have hinner : loop (visit header extended 0) (sides + 3) 0 { file := rest } = .ok (some err, s') := by
      rw [show sides + 3 = 2 + (sides + 1) by omega, loop_add, htwo]
    refine .inr ⟨(fun h => by cases hv.present.mpr h.1), err, s', ?_, hrequests⟩
    rw [visitAll, loop, hinner]
  | none =>
    have hpresent := hv.present.mp rfl
    have hfile := hv.file rfl
    have hindex := hv.index rfl
    -- The first round of the third side.
    have hinner {outcome : Outcome ParseFault DskError ParseState} (h : visit header extended 0 2 s' = outcome)
        (hends : ∀ s, outcome ≠ .ok (none, s)) :
        loop (visit header extended 0) (sides + 3) 0 { file := rest } = outcome := by
      rw [show sides + 3 = 2 + (sides + 1) by omega, loop_add, htwo]
      rcases outcome with fault | ⟨_ | err, s⟩
      · exact loop_succ_error h
      · exact absurd rfl (hends s)
      · exact loop_succ_return h
    have hvisit := @visit_eq header _ 0 2 2 s' fun h : extended = true => by
      rw [hindex, h]
      exact ⟨rfl, by decide⟩
    have hmissing : ¬EntryExists (0, 2) := by decide
    obtain ⟨hfile', hrequests', -, -⟩ := s'.at_eq extended
    by_cases hblock : NoBlock header extended 2
    · rw [if_pos hblock, if_neg hmissing] at hvisit
      refine .inl ⟨hpresent, .inl hblock, .entry (0, 2), ?_⟩
      rw [visitAll, loop, hinner hvisit fun _ h => by cases h]
    · rw [if_neg hblock] at hvisit
      by_cases hinfo : HasTrackInfo (behind header extended 2 0 rest)
      · rw [loadTrackInto_outside (by rw [hfile', hfile]; exact hinfo) hmissing] at hvisit
        refine .inl ⟨hpresent, .inr hinfo, .entry (0, 2), ?_⟩
        rw [visitAll, loop, hinner hvisit fun _ h => by cases h]
      · obtain ⟨err, s'', h, hreq⟩ := @loadTrackInto_no_info extended
          ((blockSize header extended 2 + 2 ^ 32 - 0x100) % 2 ^ 32) (0, 2) (s'.at extended)
          (by rw [hfile', hfile]; exact hinfo)
        refine .inr ⟨fun h => h.2.elim hblock hinfo, err, s'', ?_, by rw [hreq, hrequests']; exact hrequests⟩
        rw [visitAll, loop, hinner (hvisit.trans h) fun _ h => by cases h]

end Loop

/-! ## The image -/

section Image

variable {header rest : List UInt8} {extended : Bool} {tracks sides : Nat} {drive : ParseState → Parsed}

theorem inBounds_error {err : DskError} {d : Parsed} (h : ∀ request ∈ d.state.requests, request ≤ bufferMax) :
    InBounds (.ok (some err, d)) :=
  ⟨h, nofun⟩

theorem inBounds_short (hdrive : ∀ s, (drive s).state = s) (hshort : rd16le header 0x32 < 0x100) :
    InBounds (Parsed.ofVisited drive (visitAll header false (tracks + 1) (sides + 1) rest)) ↔ ¬HasTrackInfo rest := by
  by_cases hinfo : HasTrackInfo rest
  · refine iff_of_false (fun h => ?_) (not_not.mpr hinfo)
    match hrun : visitAll header false (tracks + 1) (sides + 1) rest with
    | .error fault => rw [hrun] at h; exact h
    | .ok (err, s') =>
      rw [hrun] at h
      obtain ⟨request, hmem, hbig⟩ := visitAll_oversize hshort hinfo hrun
      have hle := h.1 request (by rw [hdrive]; exact hmem)
      omega
  · obtain ⟨err, s', hrun, hreq⟩ := @visitAll_no_info header tracks sides _ hinfo
    rw [hrun]
    refine iff_of_true (inBounds_error fun request hmem => ?_) hinfo
    rw [hdrive, hreq] at hmem
    cases hmem

theorem inBounds_no_sides (hdrive : ∀ s, (drive s).state = s)
    (hsizes : extended = false → 0x100 ≤ rd16le header 0x32) :
    InBounds (Parsed.ofVisited drive (visitAll header extended (tracks + 1) (sides + 3) rest)) ↔
      ¬(Present header extended 2 0 rest ∧
        (NoBlock header extended 2 ∨ HasTrackInfo (behind header extended 2 0 rest))) := by
  rcases @visitAll_no_sides _ _ tracks sides rest hsizes with
    ⟨hpresent, hthird, fault, hrun⟩ | ⟨hnot, err, s', hrun, hreq⟩
  · rw [hrun]
    exact iff_of_false id (not_not.mpr ⟨hpresent, hthird⟩)
  · rw [hrun]
    exact iff_of_true (inBounds_error fun request hmem => hreq request (by rwa [hdrive] at hmem)) hnot

theorem inBounds_sides (hdrive : ∀ s, (drive s).state = s ∧ (drive s).tracks = tracks ∧ (drive s).sides + 1 = sides)
    (hsizes : extended = false → 0x100 ≤ rd16le header 0x32) (hpos : 0 < sides) (hsides : sides ≤ dskSideMax)
    (htracks : tracks ≤ dskTrackMax) :
    InBounds (Parsed.ofVisited drive (visitAll header extended tracks sides rest)) ↔
      (Present header extended (tracks * sides) 0 rest → Fit header extended (tracks * sides) 0 rest) := by
  obtain ⟨err, s', hrun, hv⟩ := @visitAll_sides _ _ _ _ rest hsizes hpos hsides htracks
  have hreq := hv.requests fun _ h => nomatch h
  rw [hrun]
  -- An error means that a track is missing, so `Present` fails.
  cases err with
  | some err =>
    exact iff_of_true (inBounds_error fun request hmem => hreq request (by rwa [(hdrive s').1] at hmem))
      fun hpresent => nomatch hv.present.mpr hpresent
  | none =>
    have hfit := hv.fit rfl
    rw [imp_iff_right (hv.present.mp rfl)]
    constructor
    · intro h
      have hinside := (h.2 rfl).2.2
      rw [(hdrive s').1] at hinside
      exact (hfit.mp hinside).2
    · intro h
      refine ⟨fun request hmem => hreq request (by rwa [(hdrive s').1] at hmem), fun _ => ⟨?_, ?_, ?_⟩⟩
      · rw [(hdrive s').2.1]
        exact htracks
      · rw [(hdrive s').2.2]
        exact hsides
      · rw [(hdrive s').1]
        exact hfit.mpr ⟨(fun _ hentry => nomatch hentry), h⟩

theorem inBounds_no_tracks {randomDEs : UInt8} : InBounds (Parsed.ofVisited
    (fun state => { tracks := 0, sides, randomDEs, state }) (visitAll header extended 0 (sides + 1) rest)) ↔
      sides + 1 ≤ dskSideMax := by
  constructor
  · exact fun h => (h.2 rfl).2.1
  · exact fun h => ⟨(fun _ hmem => absurd hmem List.not_mem_nil), fun _ =>
      ⟨Nat.zero_le _, h, fun _ hmem => absurd hmem List.not_mem_nil⟩⟩

/-- What is asked of the tracks of an image whose header is known. -/
def SafelyVisited (header : List UInt8) (extended : Bool) (tracks sides : Nat) (rest : List UInt8) : Prop :=
  ¬(extended = false ∧ tracks ≠ 0 ∧ rd16le header 0x32 < 0x100 ∧ HasTrackInfo rest) ∧
  if sides = 0 then
    tracks ≠ 0 ∧ ¬(Present header extended 2 0 rest ∧
      (NoBlock header extended 2 ∨ HasTrackInfo (behind header extended 2 0 rest)))
  else Present header extended (tracks * sides) 0 rest → Fit header extended (tracks * sides) 0 rest

theorem safelyParsed_iff {file : List UInt8} (hread : readExact 0x100 file = some (header, rest))
    (hkind : dskKind header = some extended) : SafelyParsed file ↔ (fdcSides header extended ≤ dskSideMax →
      SafelyVisited header extended (min (byteAt header 0x30).toNat dskTrackMax) (fdcSides header extended) rest) := by
  have hzero : byteAt header 0x30 ≠ 0 ↔ min (byteAt header 0x30).toNat dskTrackMax ≠ 0 := by
    rw [ne_eq, ← UInt8.toNat_inj, dskTrackMax, show (0 : UInt8).toNat = 0 from rfl]
    omega
  rw [SafelyVisited, ← hzero]
  constructor
  · exact fun h => h header rest extended hread hkind
  · intro h header' rest' extended' hread' hkind'
    cases hread.symm.trans hread'
    cases hkind.symm.trans hkind'
    exact h

theorem inBounds_long {randomDEs : UInt8} (htracks : tracks ≤ dskTrackMax) (hsides : sides ≤ dskSideMax)
    (hsizes : extended = false → 0x100 ≤ rd16le header 0x32) : InBounds (Parsed.ofVisited
      (fun state => { tracks, sides := (sides + 2 ^ 32 - 1) % 2 ^ 32, randomDEs, state })
      (visitAll header extended tracks ((sides + 2 ^ 32 - 1) % 2 ^ 32 + 1) rest)) ↔
        SafelyVisited header extended tracks sides rest := by
  have hlong : ¬(extended = false ∧ tracks ≠ 0 ∧ rd16le header 0x32 < 0x100 ∧ HasTrackInfo rest) :=
    fun h => absurd (hsizes h.1) (not_le.mpr h.2.2.1)
  rw [SafelyVisited, and_iff_right hlong]
  rcases Nat.eq_zero_or_pos sides with rfl | hpos
  · rw [if_pos rfl, show (0 + 2 ^ 32 - 1) % 2 ^ 32 = 4294967295 from rfl]
    cases tracks with
    | zero =>
      rw [inBounds_no_tracks]
      exact iff_of_false (by decide) fun h => h.1 rfl
    | succ tracks =>
      rw [and_iff_right (Nat.succ_ne_zero tracks)]
      exact inBounds_no_sides (fun _ => rfl) hsizes
  · rw [if_neg (by omega), show (sides + 2 ^ 32 - 1) % 2 ^ 32 + 1 = sides by rw [dskSideMax] at hsides; omega]
    refine inBounds_sides (fun _ => ⟨rfl, rfl, ?_⟩) hsizes hpos hsides htracks
    dsimp only
    rw [dskSideMax] at hsides
    omega

theorem inBounds_tooShort {randomDEs : UInt8} (hsides : sides ≤ dskSideMax) (hshort : rd16le header 0x32 < 0x100) :
    InBounds (Parsed.ofVisited (fun state => { tracks, sides := (sides + 2 ^ 32 - 1) % 2 ^ 32, randomDEs, state })
      (visitAll header false tracks ((sides + 2 ^ 32 - 1) % 2 ^ 32 + 1) rest)) ↔
        SafelyVisited header false tracks sides rest := by
  have hnone (k : Nat) : ¬NoBlock header false k := fun h => Bool.false_ne_true h.1
  rw [SafelyVisited]
  cases tracks with
  | zero =>
    rw [inBounds_no_tracks, dskSideMax]
    rw [dskSideMax] at hsides
    rcases Nat.eq_zero_or_pos sides with rfl | hpos
    · exact iff_of_false (by decide) fun h => h.2.1 rfl
    · rw [if_neg (by omega), Nat.zero_mul]
      exact iff_of_true (by omega) ⟨fun h => h.2.1 rfl, fun _ => trivial⟩
  | succ tracks =>
    refine (inBounds_short (fun _ => rfl) hshort).trans ?_
    constructor
    · intro hinfo
      refine ⟨fun h => hinfo h.2.2.2, ?_⟩
      split
      · refine ⟨Nat.succ_ne_zero tracks, fun h => hinfo ?_⟩
        have hpresent := h.1
        rw [Present, if_neg (hnone 0)] at hpresent
        exact hpresent.1.1
      · rename_i hne
        intro hpresent
        obtain ⟨n, hn⟩ := Nat.exists_eq_succ_of_ne_zero (Nat.mul_ne_zero (Nat.succ_ne_zero tracks) hne)
        rw [hn, Present, if_neg (hnone 0)] at hpresent
        exact absurd hpresent.1.1 hinfo
    · exact fun h hinfo => h.1 ⟨rfl, Nat.succ_ne_zero tracks, hshort, hinfo⟩

end Image

/-- Nothing is touched that should not be just when the image is one of these. -/
theorem parse_inBounds_iff (file : List UInt8) : InBounds (dskParseInto file) ↔ SafelyParsed file := by
  -- Before the first track no buffer has been asked for.
  have hquiet (e : DskError) (d : Parsed) (h : d.state.requests = []) : InBounds (.ok (some e, d)) :=
    inBounds_error fun request hmem => by
      rw [h] at hmem
      cases hmem
  rw [dskParseInto]
  cases hread : readExact 0x100 file with
  | none => exact iff_of_true (hquiet _ _ rfl) fun _ _ _ h => by cases hread.symm.trans h
  | some r =>
    obtain ⟨header, rest⟩ := r
    dsimp only
    cases hkind : dskKind header with
    | none =>
      refine iff_of_true (hquiet _ _ rfl) fun header' rest' _ h hkind' => ?_
      cases hread.symm.trans h
      cases hkind.symm.trans hkind'
    | some extended =>
      dsimp only
      rw [safelyParsed_iff hread hkind]
      generalize fdcSides header extended = sides
      by_cases hsides : dskSideMax < sides
      · rw [if_pos hsides]
        exact iff_of_true (hquiet _ _ rfl) fun h => absurd h (not_le.mpr hsides)
      · rw [if_neg hsides, imp_iff_right (not_lt.mp hsides)]
        -- A standard image whose track length is below 0x100 asks for a huge buffer.
        by_cases hsizes : extended = false → 0x100 ≤ rd16le header 0x32
        · exact inBounds_long (Nat.min_le_right _ _) (not_lt.mp hsides) hsizes
        · obtain ⟨rfl, hshort⟩ := Classical.not_imp.mp hsizes
          exact inBounds_tooShort (not_lt.mp hsides) (not_le.mp hshort)

/-- An extended image of one track, which has 256 bytes for a sector of 512. -/
def longSectorImage : List UInt8 :=
  extendedMagic ++ List.replicate 40 0 ++ [1, 1, 0, 0, 2] ++ List.replicate 203 0 ++
    trackInfoMagic ++ List.replicate 11 0 ++ [1, 0, 0, 0, 0, 0xC1, 2, 0, 0, 0, 2] ++ List.replicate 224 0 ++
    List.replicate 256 0xE5

/-- Whether an image was parsed and a sector is not inside the buffer of its track. -/
def overruns : Outcome ParseFault DskError Parsed → Bool
  | .ok (none, d) =>
    d.state.entries.any fun entry => entry.2.sector.any fun sec => decide (¬sec.off + sec.totalSize ≤ entry.2.size)
  | _ => false

theorem not_inBounds_of_overruns {outcome : Outcome ParseFault DskError Parsed} (h : overruns outcome = true) :
    ¬InBounds outcome := by
  rcases outcome with fault | ⟨err, d⟩
  · cases h
  · cases err with
    | some err => cases h
    | none =>
      obtain ⟨entry, hentry, hany⟩ := List.any_eq_true.mp h
      obtain ⟨sec, hsec, hout⟩ := List.any_eq_true.mp hany
      exact fun hinside => of_decide_eq_true hout ((hinside.2 rfl).2.2 entry hentry sec hsec)

/-- It is parsed, and the sector is not inside the buffer of its track. -/
theorem longSectorImage_not_inBounds : ¬InBounds (dskParseInto longSectorImage) :=
  not_inBounds_of_overruns (by decide)

end Koncepcja.Slots
