import Koncepcja.Cpm.FileEditor

/-!
# Blocks of a Formatted Drive

Reads and writes of 1K blocks as a store: what was written to a block reads back, and no other block
changes. It takes a drive on which the nine sectors of every track lie apart.

## Main results

- `readBlock_writeBlock`: a written block reads back.
- `writeBlock_frame`, `writeDirectory_frame`: which blocks a write leaves alone.
- `readDirectory_writeDirectory`: the directory reads back.
- `formatted_of_dskFormat`: what `dsk_format` makes with sectors of 512 bytes or more qualifies.
-/

namespace Koncepcja.Cpm

open Koncepcja.Bytes Koncepcja.Disk Koncepcja.Slots

/-! ## Formatted drives -/

/-- A sector with one of the IDs of the data format. -/
def isDataSector (s : Sector) : Prop := ∃ n, s.chrn.r = sectorId n

/-- The data sectors of a track hold 512 bytes each, and no two with different IDs share any. -/
structure SectorsApart (trk : Track) : Prop where
  inside : ∀ s ∈ trk.sector, isDataSector s → s.off + cpmSectorSize ≤ trk.data.length
  apart : ∀ s ∈ trk.sector, ∀ s' ∈ trk.sector, isDataSector s → isDataSector s' → s.chrn.r ≠ s'.chrn.r →
    s.off + cpmSectorSize ≤ s'.off ∨ s'.off + cpmSectorSize ≤ s.off

/-- A drive whose tracks are all laid out so. -/
def Formatted (drive : Slots.Drive) : Prop := ∀ i, SectorsApart (drive.track.getD i {})

theorem sectorsApart_formatTrack {fmt : DiskFormat} (hsize : 2 ≤ fmt.sectorSize) (track side : Nat) :
    SectorsApart (formatTrack fmt track side) := by
  -- N counts doublings of 128 bytes, so two of them give a whole sector
  have h512 : cpmSectorSize ≤ 0x80 <<< fmt.sectorSize := by
    rw [Nat.shiftLeft_eq]
    calc cpmSectorSize = 0x80 * 2 ^ 2 := rfl
      _ ≤ 0x80 * 2 ^ fmt.sectorSize := Nat.mul_le_mul_left _ (Nat.pow_le_pow_right (by decide) hsize)
  constructor
  · intro s hs _
    obtain ⟨i, hi, rfl⟩ := List.mem_map.mp hs
    have hlt : i < fmt.sectors := List.mem_range.mp hi
    simp only [formatTrack, List.length_replicate]
    calc i * 0x80 <<< fmt.sectorSize + cpmSectorSize ≤ (i + 1) * 0x80 <<< fmt.sectorSize := by
          rw [Nat.succ_mul]; exact Nat.add_le_add_left h512 _
      _ ≤ 0x80 <<< fmt.sectorSize * fmt.sectors := by rw [Nat.mul_comm]; exact Nat.mul_le_mul_left _ hlt
  · intro s hs s' hs' _ _ hne
    obtain ⟨i, _, rfl⟩ := List.mem_map.mp hs
    obtain ⟨j, _, rfl⟩ := List.mem_map.mp hs'
    have step : ∀ {a b : Nat}, a < b →
        a * 0x80 <<< fmt.sectorSize + cpmSectorSize ≤ b * 0x80 <<< fmt.sectorSize := fun {a b} hab => by
      calc a * 0x80 <<< fmt.sectorSize + cpmSectorSize ≤ (a + 1) * 0x80 <<< fmt.sectorSize := by
            rw [Nat.succ_mul]; exact Nat.add_le_add_left h512 _
        _ ≤ b * 0x80 <<< fmt.sectorSize := Nat.mul_le_mul_right _ hab
    rcases Nat.lt_trichotomy i j with h | h | h
    · exact Or.inl (step h)
    · subst h
      exact absurd rfl hne
    · exact Or.inr (step h)

/-- What `dsk_format` makes with sectors of 512 bytes or more, AMSDOS data and system discs among it. -/
theorem formatted_of_dskFormat {fmt : DiskFormat} {drive : Slots.Drive} (hsize : 2 ≤ fmt.sectorSize)
    (h : dskFormat fmt = some drive) : Formatted drive := by
  intro i
  rw [dskFormat] at h
  split at h
  · cases h
  · split at h
    · cases h
    · cases h
      rw [List.getD_eq_getElem?_getD, List.getElem?_map]
      cases hi : (List.range (min fmt.tracks dskTrackMax * fmt.sides))[i]? with
      | none => exact ⟨fun s hs => absurd hs (by simp), fun s hs => absurd hs (by simp)⟩
      | some t => exact sectorsApart_formatTrack hsize _ _

/-! ## Where a sector lies -/

theorem findSectorData_spec {drive : Slots.Drive} {track side : Nat} {id : UInt8} {i off : Nat}
    (h : findSectorData drive track side id = some (i, off)) :
    i = track * (drive.sides + 1) + side ∧
      ∃ s ∈ (drive.track.getD i {}).sector, s.chrn.r = id ∧ s.off = off := by
  rw [findSectorData] at h
  split at h
  · cases h
  · split at h
    · cases h
    · obtain ⟨s, hs, hpair⟩ := Option.map_eq_some_iff.mp h
      cases hpair
      exact ⟨rfl, s, List.mem_of_find?_eq_some hs, by simpa using List.find?_some hs, rfl⟩

theorem Formatted.inside {drive : Slots.Drive} (hd : Formatted drive) {a i off : Nat}
    (h : findSectorData drive (a / sectorsPerTrack) 0 (sectorId a) = some (i, off)) :
    off + cpmSectorSize ≤ (drive.track.getD i {}).data.length := by
  obtain ⟨-, s, hs, hr, rfl⟩ := findSectorData_spec h
  exact (hd i).inside s hs ⟨a, hr⟩

theorem Formatted.apart {drive : Slots.Drive} (hd : Formatted drive) {a b i j off off' : Nat} (hab : a ≠ b)
    (ha : findSectorData drive (a / sectorsPerTrack) 0 (sectorId a) = some (i, off))
    (hb : findSectorData drive (b / sectorsPerTrack) 0 (sectorId b) = some (j, off')) :
    i ≠ j ∨ off + cpmSectorSize ≤ off' ∨ off' + cpmSectorSize ≤ off := by
  obtain ⟨hi, s, hs, hr, rfl⟩ := findSectorData_spec ha
  obtain ⟨hj, s', hs', hr', rfl⟩ := findSectorData_spec hb
  by_cases hij : i = j
  · right
    subst hij
    -- one track, so the sector numbers on it differ, and with them the IDs
    have htrack : a / 9 = b / 9 := Nat.eq_of_mul_eq_mul_right (Nat.succ_pos drive.sides) (by
      simpa [sectorsPerTrack] using hi.symm.trans hj)
    have hid : sectorId a ≠ sectorId b := by
      intro h
      rw [sectorId, sectorId, UInt8.add_right_inj] at h
      have h' := congrArg UInt8.toNat h
      rw [UInt8.toNat_ofNat', UInt8.toNat_ofNat'] at h'
      simp only [sectorsPerTrack] at h'
      omega
    exact (hd i).apart s hs s' hs' ⟨a, hr⟩ ⟨b, hr'⟩ (by rw [hr, hr']; exact hid)
  · exact Or.inl hij

/-! ## Drives of one layout -/

/-- The sector tables and the sizes are the same. -/
structure SameLayout (d d' : Slots.Drive) : Prop where
  tracks : d'.tracks = d.tracks
  sides : d'.sides = d.sides
  sector : ∀ i, (d'.track.getD i {}).sector = (d.track.getD i {}).sector
  length : ∀ i, (d'.track.getD i {}).data.length = (d.track.getD i {}).data.length

theorem SameLayout.refl (d : Slots.Drive) : SameLayout d d := ⟨rfl, rfl, fun _ => rfl, fun _ => rfl⟩

theorem SameLayout.trans {d d' d'' : Slots.Drive} (h₁ : SameLayout d d') (h₂ : SameLayout d' d'') : SameLayout d d'' :=
  ⟨h₂.tracks.trans h₁.tracks, h₂.sides.trans h₁.sides, fun i => (h₂.sector i).trans (h₁.sector i),
    fun i => (h₂.length i).trans (h₁.length i)⟩

theorem SameLayout.findSectorData_eq {d d' : Slots.Drive} (h : SameLayout d d') (track side : Nat) (id : UInt8) :
    findSectorData d' track side id = findSectorData d track side id := by
  simp only [findSectorData, h.tracks, h.sides, h.sector]

theorem SameLayout.formatted {d d' : Slots.Drive} (h : SameLayout d d') (hd : Formatted d) : Formatted d' := by
  intro i
  constructor
  · rw [h.sector i, h.length i]
    exact (hd i).inside
  · rw [h.sector i]
    exact (hd i).apart

theorem SameLayout.readHalf_isSome {d d' : Slots.Drive} (h : SameLayout d d') (a : Nat) :
    (readHalf d' a).isSome = (readHalf d a).isSome := by
  rw [readHalf, readHalf, h.findSectorData_eq, Option.isSome_map, Option.isSome_map]

/-! ## Patched tracks -/

theorem patchTrack_getD {d : Slots.Drive} {i off : Nat} {bytes : List UInt8}
    (hin : off + bytes.length ≤ (d.track.getD i {}).data.length) (hpos : 0 < bytes.length) (j : Nat) :
    (patchTrack d i off bytes).track.getD j {} =
      if i = j then { d.track.getD j {} with data := overwrite (d.track.getD j {}).data off bytes }
      else d.track.getD j {} := by
  rw [patchTrack, List.getD_eq_getElem?_getD, List.getElem?_modify, List.getD_eq_getElem?_getD]
  split
  · next h =>
    subst h
    cases hi : d.track[i]? with
    | some trk => rfl
    | none =>
      -- past the track table there is no data to patch
      rw [List.getD_eq_getElem?_getD, hi] at hin
      simp only [Option.getD_none, List.length_nil] at hin
      omega
  · cases d.track[j]? <;> rfl

theorem patchTrack_sameLayout {d : Slots.Drive} {i off : Nat} {bytes : List UInt8}
    (hin : off + bytes.length ≤ (d.track.getD i {}).data.length) (hpos : 0 < bytes.length) :
    SameLayout d (patchTrack d i off bytes) where
  tracks := rfl
  sides := rfl
  sector j := by
    rw [patchTrack_getD hin hpos]
    split <;> rfl
  length j := by
    rw [patchTrack_getD hin hpos]
    split
    · next h =>
      subst h
      exact overwrite_length hin
    · rfl

/-! ## Halves of blocks -/

theorem readHalf_length {d : Slots.Drive} (hd : Formatted d) {a : Nat} {bytes : List UInt8}
    (h : readHalf d a = some bytes) : bytes.length = cpmSectorSize := by
  obtain ⟨⟨i, off⟩, hfind, rfl⟩ := Option.map_eq_some_iff.mp h
  exact slice_length (hd.inside hfind)

theorem writeHalf_isSome (d : Slots.Drive) (a : Nat) (bytes : List UInt8) :
    (writeHalf d a bytes).isSome = (readHalf d a).isSome := by
  rw [writeHalf, readHalf, Option.isSome_map, Option.isSome_map]

section Half

variable {d d' : Slots.Drive} {a : Nat} {bytes : List UInt8}

theorem writeHalf_sameLayout (hd : Formatted d) (hlen : bytes.length = cpmSectorSize)
    (h : writeHalf d a bytes = some d') : SameLayout d d' := by
  obtain ⟨⟨i, off⟩, hfind, rfl⟩ := Option.map_eq_some_iff.mp h
  exact patchTrack_sameLayout (by rw [hlen]; exact hd.inside hfind) (by rw [hlen]; decide)

theorem readHalf_writeHalf (hd : Formatted d) (hlen : bytes.length = cpmSectorSize)
    (h : writeHalf d a bytes = some d') : readHalf d' a = some bytes := by
  have hlay := writeHalf_sameLayout hd hlen h
  obtain ⟨⟨i, off⟩, hfind, rfl⟩ := Option.map_eq_some_iff.mp h
  have hin := hd.inside hfind
  rw [readHalf, hlay.findSectorData_eq, hfind, Option.map_some]
  dsimp only
  rw [patchTrack_getD (by rw [hlen]; exact hin) (by rw [hlen]; decide), if_pos rfl, ← hlen,
    slice_overwrite_self _ (by omega)]

theorem readHalf_writeHalf_of_ne (hd : Formatted d) (hlen : bytes.length = cpmSectorSize)
    (h : writeHalf d a bytes = some d') {b : Nat} (hb : b ≠ a) : readHalf d' b = readHalf d b := by
  have hlay := writeHalf_sameLayout hd hlen h
  obtain ⟨⟨i, off⟩, hfind, rfl⟩ := Option.map_eq_some_iff.mp h
  have hin := hd.inside hfind
  rw [readHalf, readHalf, hlay.findSectorData_eq]
  cases hfind' : findSectorData d (b / sectorsPerTrack) 0 (sectorId b) with
  | none => rfl
  | some place =>
    obtain ⟨j, off'⟩ := place
    rw [Option.map_some, Option.map_some]
    dsimp only
    rw [patchTrack_getD (by rw [hlen]; exact hin) (by rw [hlen]; decide)]
    split
    · next hij =>
      subst hij
      rcases hd.apart hb hfind' hfind with hne | hbefore | hafter
      · exact absurd rfl hne
      · rw [slice_overwrite_of_le _ hbefore (by omega)]
      · rw [slice_overwrite_of_ge _ (by rw [hlen]; exact hafter) (by omega)]
    · rfl

end Half

/-! ## Blocks -/

theorem readBlock_congr {d d' : Slots.Drive} {b : Nat} (h₁ : readHalf d' (b * 2) = readHalf d (b * 2))
    (h₂ : readHalf d' (b * 2 + 1) = readHalf d (b * 2 + 1)) : readBlock d' b = readBlock d b := by
  rw [readBlock, readBlock, h₁, h₂]

theorem readBlock_eq_some {d : Slots.Drive} {b : Nat} {bytes : List UInt8} (h : readBlock d b = some bytes) :
    b < totalBlocks ∧ ∃ first second, readHalf d (b * 2) = some first ∧ readHalf d (b * 2 + 1) = some second ∧
      bytes = first ++ second := by
  rw [readBlock] at h
  split at h
  · cases h
  · next hb =>
    cases h₁ : readHalf d (b * 2) with
    | none => rw [h₁] at h; cases h
    | some first =>
      cases h₂ : readHalf d (b * 2 + 1) with
      | none => rw [h₁, h₂] at h; cases h
      | some second =>
        rw [h₁, h₂] at h
        cases h
        exact ⟨Nat.lt_of_not_le hb, first, second, rfl, rfl, rfl⟩

theorem readBlock_length {d : Slots.Drive} (hd : Formatted d) {b : Nat} {bytes : List UInt8}
    (h : readBlock d b = some bytes) : bytes.length = blockSize := by
  obtain ⟨-, first, second, h₁, h₂, rfl⟩ := readBlock_eq_some h
  rw [List.length_append, readHalf_length hd h₁, readHalf_length hd h₂]
  rfl

/-- `d'` is `d` with at most the `touched` blocks rewritten. -/
structure Frame (touched : Nat → Prop) (d d' : Slots.Drive) : Prop where
  layout : SameLayout d d'
  block : ∀ b, ¬ touched b → readBlock d' b = readBlock d b

namespace Frame

variable {touched touched' : Nat → Prop} {d d' d'' : Slots.Drive}

theorem refl (touched : Nat → Prop) (d : Slots.Drive) : Frame touched d d := ⟨.refl d, fun _ _ => rfl⟩

theorem trans (h₁ : Frame touched d d') (h₂ : Frame touched d' d'') : Frame touched d d'' :=
  ⟨h₁.layout.trans h₂.layout, fun b hb => (h₂.block b hb).trans (h₁.block b hb)⟩

theorem mono (h : Frame touched d d') (hsub : ∀ b, touched b → touched' b) : Frame touched' d d' :=
  ⟨h.layout, fun b hb => h.block b fun ht => hb (hsub b ht)⟩

theorem formatted (h : Frame touched d d') (hd : Formatted d) : Formatted d' := h.layout.formatted hd

end Frame

section Block

variable {d : Slots.Drive} {bytes : List UInt8}

theorem slice_half_length (hlen : bytes.length = blockSize) :
    (slice bytes 0 cpmSectorSize).length = cpmSectorSize ∧ (slice bytes cpmSectorSize cpmSectorSize).length = cpmSectorSize :=
  ⟨slice_length (by rw [hlen]; decide), slice_length (by rw [hlen]; decide)⟩

/-- A block write, failed or not, leaves every other block alone. -/
theorem writeBlock_frame (block : Nat) (hd : Formatted d) (hlen : bytes.length = blockSize) :
    Frame (· = block) d (writeBlock d block bytes).1 := by
  obtain ⟨hlen₁, hlen₂⟩ := slice_half_length hlen
  rw [writeBlock]
  split
  · exact Frame.refl _ d
  · cases h₁ : writeHalf d (block * 2) (slice bytes 0 cpmSectorSize) with
    | none => exact Frame.refl _ d
    | some d₁ =>
      have hlay₁ := writeHalf_sameLayout hd hlen₁ h₁
      have hother₁ : ∀ b, b ≠ block → readBlock d₁ b = readBlock d b := fun b hb =>
        readBlock_congr (readHalf_writeHalf_of_ne hd hlen₁ h₁ (by omega))
          (readHalf_writeHalf_of_ne hd hlen₁ h₁ (by omega))
      dsimp only
      cases h₂ : writeHalf d₁ (block * 2 + 1) (slice bytes cpmSectorSize cpmSectorSize) with
      | none => exact ⟨hlay₁, hother₁⟩
      | some d₂ =>
        have hd₁ := hlay₁.formatted hd
        refine ⟨hlay₁.trans (writeHalf_sameLayout hd₁ hlen₂ h₂), fun b hb => Eq.trans ?_ (hother₁ b hb)⟩
        exact readBlock_congr (readHalf_writeHalf_of_ne hd₁ hlen₂ h₂ (by omega))
          (readHalf_writeHalf_of_ne hd₁ hlen₂ h₂ (by omega))

/-- A written block reads back. -/
theorem readBlock_writeBlock {block : Nat} (hd : Formatted d) (hlen : bytes.length = blockSize)
    (hok : (writeBlock d block bytes).2 = true) : readBlock (writeBlock d block bytes).1 block = some bytes := by
  obtain ⟨hlen₁, hlen₂⟩ := slice_half_length hlen
  rw [writeBlock] at hok ⊢
  split at hok
  · cases hok
  · next hb =>
    rw [if_neg hb]
    cases h₁ : writeHalf d (block * 2) (slice bytes 0 cpmSectorSize) with
    | none => rw [h₁] at hok; cases hok
    | some d₁ =>
      rw [h₁] at hok
      dsimp only at hok ⊢
      cases h₂ : writeHalf d₁ (block * 2 + 1) (slice bytes cpmSectorSize cpmSectorSize) with
      | none => rw [h₂] at hok; cases hok
      | some d₂ =>
        have hd₁ := (writeHalf_sameLayout hd hlen₁ h₁).formatted hd
        -- The second half is another sector, so the first one stands.
        have hfirst : readHalf d₂ (block * 2) = some (slice bytes 0 cpmSectorSize) := by
          rw [readHalf_writeHalf_of_ne hd₁ hlen₂ h₂ (by omega), readHalf_writeHalf hd hlen₁ h₁]
        have hsecond := readHalf_writeHalf hd₁ hlen₂ h₂
        dsimp only
        rw [readBlock, if_neg hb, hfirst]
        dsimp only
        rw [hsecond]
        dsimp only
        rw [slice, slice, List.drop_zero, List.take_of_length_le (l := bytes.drop cpmSectorSize)
          (by rw [List.length_drop, hlen]; decide), List.take_append_drop]

theorem writeBlock_ok {block : Nat} (hd : Formatted d) (hlen : bytes.length = blockSize) (h : (readBlock d block).isSome) :
    (writeBlock d block bytes).2 = true := by
  obtain ⟨hlen₁, -⟩ := slice_half_length hlen
  obtain ⟨old, hold⟩ := Option.isSome_iff_exists.mp h
  obtain ⟨hb, first, second, hfirst, hsecond, -⟩ := readBlock_eq_some hold
  rw [writeBlock, if_neg (by omega)]
  cases h₁ : writeHalf d (block * 2) (slice bytes 0 cpmSectorSize) with
  | none =>
    have := writeHalf_isSome d (block * 2) (slice bytes 0 cpmSectorSize)
    rw [h₁, hfirst] at this
    cases this
  | some d₁ =>
    dsimp only
    cases h₂ : writeHalf d₁ (block * 2 + 1) (slice bytes cpmSectorSize cpmSectorSize) with
    | none =>
      have := writeHalf_isSome d₁ (block * 2 + 1) (slice bytes cpmSectorSize cpmSectorSize)
      rw [h₂, (writeHalf_sameLayout hd hlen₁ h₁).readHalf_isSome, hsecond] at this
      cases this
    | some d₂ => rfl

end Block

theorem SameLayout.readBlock_isSome {d d' : Slots.Drive} (h : SameLayout d d') {b : Nat} (hb : (readBlock d b).isSome) :
    (readBlock d' b).isSome := by
  obtain ⟨old, hold⟩ := Option.isSome_iff_exists.mp hb
  obtain ⟨hlt, first, second, hfirst, hsecond, -⟩ := readBlock_eq_some hold
  obtain ⟨first', hfirst'⟩ := Option.isSome_iff_exists.mp ((h.readHalf_isSome (b * 2)).trans (by rw [hfirst]; rfl))
  obtain ⟨second', hsecond'⟩ :=
    Option.isSome_iff_exists.mp ((h.readHalf_isSome (b * 2 + 1)).trans (by rw [hsecond]; rfl))
  rw [readBlock, if_neg (by omega), hfirst']
  dsimp only
  rw [hsecond']
  rfl

/-! ## The directory -/

/-- A directory as it is read: 64 entries of 32 bytes. -/
structure DirShaped (dir : Dir) : Prop where
  length : dir.length = cpmDirEntries
  entry : ∀ e ∈ dir, e.length = dirEntrySize

theorem flatten_length {size : Nat} {chunks : List (List UInt8)} (h : ∀ c ∈ chunks, c.length = size) :
    chunks.flatten.length = chunks.length * size := by
  induction chunks with
  | nil => simp
  | cons c chunks ih =>
    rw [List.flatten_cons, List.length_append, h c List.mem_cons_self,
      ih fun d hd => h d (List.mem_cons_of_mem _ hd), List.length_cons, Nat.succ_mul, Nat.add_comm]

theorem takeEntries_flatten {entries : Dir} (h : ∀ e ∈ entries, e.length = dirEntrySize) :
    takeEntries entries.length entries.flatten = entries := by
  induction entries with
  | nil => rfl
  | cons e entries ih =>
    have he := h e List.mem_cons_self
    rw [List.length_cons, List.flatten_cons, takeEntries, List.take_left' he, List.drop_left' he,
      ih fun e' he' => h e' (List.mem_cons_of_mem _ he')]

theorem dirEntries_flatten {dir : Dir} (h : DirShaped dir) : dirEntries dir.flatten = dir := by
  rw [dirEntries, ← h.length, takeEntries_flatten h.entry]

theorem takeEntries_shaped (n : Nat) {bytes : List UInt8} (h : bytes.length = n * dirEntrySize) :
    (takeEntries n bytes).length = n ∧ ∀ e ∈ takeEntries n bytes, e.length = dirEntrySize := by
  induction n generalizing bytes with
  | zero => exact ⟨rfl, fun e he => absurd he (by simp [takeEntries])⟩
  | succ n ih =>
    rw [Nat.succ_mul] at h
    have hrest : (bytes.drop dirEntrySize).length = n * dirEntrySize := by
      rw [List.length_drop, h]
      omega
    obtain ⟨hlen, hentry⟩ := ih hrest
    refine ⟨by rw [takeEntries, List.length_cons, hlen], fun e he => ?_⟩
    rcases List.mem_cons.mp he with rfl | he
    · rw [List.length_take, h]
      omega
    · exact hentry e he

theorem dirEntries_shaped {bytes : List UInt8} (h : bytes.length = 2 * blockSize) : DirShaped (dirEntries bytes) :=
  have ⟨hlen, hentry⟩ := takeEntries_shaped cpmDirEntries (h.trans (by decide))
  ⟨hlen, hentry⟩

theorem readDirectory_eq_some {d : Slots.Drive} {dir : Dir} (h : readDirectory d = some dir) :
    ∃ first second, readBlock d 0 = some first ∧ readBlock d 1 = some second ∧ dir = dirEntries (first ++ second) := by
  rw [readDirectory] at h
  cases h₀ : readBlock d 0 with
  | none => rw [h₀] at h; cases h
  | some first =>
    cases h₁ : readBlock d 1 with
    | none => rw [h₀, h₁] at h; cases h
    | some second =>
      rw [h₀, h₁] at h
      cases h
      exact ⟨first, second, rfl, rfl, rfl⟩

theorem readDirectory_shaped {d : Slots.Drive} (hd : Formatted d) {dir : Dir} (h : readDirectory d = some dir) :
    DirShaped dir := by
  obtain ⟨first, second, h₀, h₁, rfl⟩ := readDirectory_eq_some h
  refine dirEntries_shaped ?_
  rw [List.length_append, readBlock_length hd h₀, readBlock_length hd h₁]
  rfl

theorem Frame.readDirectory_eq {touched : Nat → Prop} {d d' : Slots.Drive} (h : Frame touched d d') (h₀ : ¬ touched 0)
    (h₁ : ¬ touched 1) : readDirectory d' = readDirectory d := by
  rw [readDirectory, readDirectory, h.block 0 h₀, h.block 1 h₁]

section Directory

variable {d : Slots.Drive} {dir : Dir}

theorem slice_dir_length (hdir : DirShaped dir) : (slice dir.flatten 0 blockSize).length = blockSize ∧
    (slice dir.flatten blockSize blockSize).length = blockSize := by
  have hlen := flatten_length hdir.entry
  rw [hdir.length] at hlen
  exact ⟨slice_length (by rw [hlen]; decide), slice_length (by rw [hlen]; decide)⟩

/-- A directory write, failed or not, leaves the blocks after the directory alone. -/
theorem writeDirectory_frame (hd : Formatted d) (hdir : DirShaped dir) :
    Frame (· < 2) d (writeDirectory d dir).1 := by
  obtain ⟨hlen₀, hlen₁⟩ := slice_dir_length hdir
  have h₀ := writeBlock_frame 0 hd hlen₀
  rw [writeDirectory]
  generalize writeBlock d 0 (slice dir.flatten 0 blockSize) = result at h₀ ⊢
  obtain ⟨d₀, ok⟩ := result
  have h₀' : Frame (· < 2) d d₀ := h₀.mono fun b hb => by rw [hb]; decide
  cases ok with
  | false => exact h₀'
  | true =>
    have h₁ := writeBlock_frame 1 (h₀.formatted hd) hlen₁
    exact h₀'.trans (h₁.mono fun b hb => by rw [hb]; decide)

/-- A written directory reads back. -/
theorem readDirectory_writeDirectory (hd : Formatted d) (hdir : DirShaped dir)
    (hok : (writeDirectory d dir).2 = true) : readDirectory (writeDirectory d dir).1 = some dir := by
  obtain ⟨hlen₀, hlen₁⟩ := slice_dir_length hdir
  have hframe₀ := writeBlock_frame 0 hd hlen₀
  have hread₀ : (writeBlock d 0 (slice dir.flatten 0 blockSize)).2 = true → _ := readBlock_writeBlock hd hlen₀
  rw [writeDirectory] at hok ⊢
  generalize writeBlock d 0 (slice dir.flatten 0 blockSize) = result at hframe₀ hread₀ hok ⊢
  obtain ⟨d₀, ok⟩ := result
  cases ok with
  | false => cases hok
  | true =>
    have hd₀ := hframe₀.formatted hd
    have hfirst : readBlock (writeBlock d₀ 1 (slice dir.flatten blockSize blockSize)).1 0 =
        some (slice dir.flatten 0 blockSize) := by
      rw [(writeBlock_frame 1 hd₀ hlen₁).block 0 (by decide)]
      exact hread₀ rfl
    have hsecond := readBlock_writeBlock hd₀ hlen₁ hok
    dsimp only at hok ⊢
    rw [readDirectory, hfirst]
    dsimp only
    rw [hsecond]
    dsimp only
    -- the two blocks are the two halves of the directory's bytes
    have hlen : dir.flatten.length = 2 * blockSize := by
      rw [flatten_length hdir.entry, hdir.length]
      rfl
    rw [slice, slice, List.drop_zero, List.take_of_length_le (l := dir.flatten.drop blockSize)
      (by rw [List.length_drop, hlen]; decide), List.take_append_drop, dirEntries_flatten hdir]

theorem writeDirectory_ok (hd : Formatted d) (hdir : DirShaped dir) {old : Dir} (h : readDirectory d = some old) :
    (writeDirectory d dir).2 = true := by
  obtain ⟨hlen₀, hlen₁⟩ := slice_dir_length hdir
  obtain ⟨first, second, h₀, h₁, -⟩ := readDirectory_eq_some h
  have hframe₀ := writeBlock_frame 0 hd hlen₀
  have hok₀ : (writeBlock d 0 (slice dir.flatten 0 blockSize)).2 = true :=
    writeBlock_ok hd hlen₀ (by rw [h₀]; rfl)
  rw [writeDirectory]
  generalize writeBlock d 0 (slice dir.flatten 0 blockSize) = result at hframe₀ hok₀ ⊢
  obtain ⟨d₀, ok⟩ := result
  cases hok₀
  exact writeBlock_ok (hframe₀.formatted hd) hlen₁ (hframe₀.layout.readBlock_isSome (by rw [h₁]; rfl))

end Directory

end Koncepcja.Cpm
