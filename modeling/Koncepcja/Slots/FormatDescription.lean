import Koncepcja.Lib.Fields
import Koncepcja.Lib.Numerals
import Koncepcja.Slots.DiskDrive
import Mathlib.Data.List.Nodup

/-!
# Disk Format Descriptions

The texts of the `[file]` section that describe disk formats, of `src/slotshandler.cpp`: `parseDiskFormat` reads one
and `serializeDiskFormat` writes it, and `dsk_format` makes an empty disk from it. The identifiers of the sectors are
stored in a table of two sides with sixteen sectors each, and a description may have up to 29 sectors.

An access outside of the table is a failure here, and so is reading an identifier for a disk that was not stored.

## Main results

- `storeIds_spec`: the identifiers inside the table are stored, and are the same when they are read from the text again.
- `roundTripsSafely_iff`: which descriptions are read, written and used without leaving the table.
-/

namespace Koncepcja.Slots

open Koncepcja.Fields Koncepcja.Numerals

/-! ## The identifier table -/

/-- `sector_ids`, by side and sector: what was stored. The table starts with zeroes, for which nothing was stored. -/
abbrev IdTable := Nat × Nat → Option UInt8

/-- `sector_ids[2][16]` has the element. -/
def IdTable.Inside (p : Nat × Nat) : Prop := p.1 < 2 ∧ p.2 < 16

instance (p : Nat × Nat) : Decidable (IdTable.Inside p) := inferInstanceAs (Decidable (_ ∧ _))

/-- `sector_ids[side][sector] = id`. -/
def IdTable.store (ids : IdTable) (p : Nat × Nat) (id : UInt8) : Option IdTable :=
  if Inside p then some (Function.update ids p (some id)) else none

/-- `sector_ids[side][sector]`. -/
def IdTable.load (ids : IdTable) (p : Nat × Nat) : Option UInt8 := if Inside p then some ((ids p).getD 0) else none

/-- The same, where the element has to have been stored. -/
def IdTable.loadStored (ids : IdTable) (p : Nat × Nat) : Option UInt8 := if Inside p then ids p else none

/-- The sectors of all sides, in their order. -/
def positions (sides sectors : Nat) : List (Nat × Nat) := List.range sides ×ˢ List.range sectors

/-! ## Parsing -/

/-- `t_disk_format`. -/
structure FormatDescription where
  label : List UInt8 := []
  tracks : Nat := 0
  sides : Nat := 0
  sectors : Nat := 0
  sectorSize : Nat := 0
  gap3Length : Nat := 0
  fillerByte : UInt8 := 0
  sectorIds : IdTable := fun _ => none

/-- `field_in_range`: the value of a field, if it is in the range. -/
def fieldInRange (tokens : List (List UInt8)) (index min max : Nat) : Option Nat :=
  let value := strtoul (tokens.getD index []) % 2 ^ 32
  if value < min ∨ max < value then none else some value

/-- The fields with a range, up to the first that is out of it, and whether all are in theirs. -/
def parseRanges (tokens : List (List UInt8)) : FormatDescription × Bool :=
  match fieldInRange tokens 1 1 dskTrackMax with
  | none => ({}, false)
  | some tracks =>
    match fieldInRange tokens 2 1 dskSideMax with
    | none => ({ tracks }, false)
    | some sides =>
      match fieldInRange tokens 3 1 dskSectorMax with
      | none => ({ tracks, sides }, false)
      | some sectors =>
        match fieldInRange tokens 4 1 6 with
        | none => ({ tracks, sides, sectors }, false)
        | some sectorSize =>
          match fieldInRange tokens 5 1 255 with
          | none => ({ tracks, sides, sectors, sectorSize }, false)
          | some gap3Length => ({ tracks, sides, sectors, sectorSize, gap3Length }, true)

/-- The identifier of a sector: the next token or, where there is none left, the index of the sector and one. -/
def nextId (sector : Nat) : List (List UInt8) → UInt8
  | [] => UInt8.ofNat (sector + 1)
  | token :: _ => UInt8.ofNat (strtoul token)

/-- The identifiers of some sectors are stored. -/
def storeIds : List (Nat × Nat) → List (List UInt8) → IdTable → Option IdTable
  | [], _, ids => some ids
  | p :: ps, tokens, ids =>
    match ids.store p (nextId p.2 tokens) with
    | none => none
    | some ids => storeIds ps (tokens.drop 1) ids

/-- `parseDiskFormat`. A description that is not valid gives a format without a label. -/
def parseDiskFormat (format : List UInt8) : Option FormatDescription :=
  let tokens := fields 0x2C format
  if tokens.length < 7 then some {}
  else
    match parseRanges tokens with
    | (result, false) => some result
    | (result, true) =>
      (storeIds (positions result.sides result.sectors) (tokens.drop 7) fun _ => none).map fun ids =>
        { result with
          label := tokens.getD 0 []
          fillerByte := UInt8.ofNat (strtoul (tokens.getD 6 []))
          sectorIds := ids }

/-! ## Writing -/

def serializeDiskFormat (format : FormatDescription) : Option (List UInt8) :=
  if format.label = [] then some []
  else
    ((positions format.sides format.sectors).mapM format.sectorIds.load).map fun ids =>
      join 0x2C format.label
        (([format.tracks, format.sides, format.sectors, format.sectorSize, format.gap3Length,
          format.fillerByte.toNat] ++ ids.map UInt8.toNat).map decimal)

/-! ## Formatting -/

def FormatDescription.formatTrack (fmt : FormatDescription) (track side : Nat) : Option Track :=
  let sectorSize := 0x80 <<< fmt.sectorSize
  ((List.range fmt.sectors).mapM fun i =>
    (fmt.sectorIds.loadStored (side, i)).map fun id =>
      { chrn := ⟨UInt8.ofNat track, UInt8.ofNat side, id, UInt8.ofNat fmt.sectorSize⟩
        size := sectorSize
        totalSize := sectorSize
        off := i * sectorSize : Sector }).map fun sectors =>
    { size := sectorSize * fmt.sectors
      data := List.replicate (sectorSize * fmt.sectors) fmt.fillerByte
      sector := sectors }

/-- `dsk_format` with a described format, on an empty drive. -/
def FormatDescription.dskFormat (fmt : FormatDescription) : Option Drive :=
  if fmt.sides = 0 ∨ dskSideMax < fmt.sides then none
  else if dskSectorMax < fmt.sectors then none
  else
    let tracks := min fmt.tracks dskTrackMax
    ((List.range (tracks * fmt.sides)).mapM fun i => fmt.formatTrack (i / fmt.sides) (i % fmt.sides)).map fun track =>
      { tracks, sides := fmt.sides - 1, randomDEs := 0, track }

/-! ## Storing the identifiers -/

section Store

variable {ids : IdTable} {p : Nat × Nat} {ps : List (Nat × Nat)}

theorem mem_positions {sides sectors : Nat} : p ∈ positions sides sectors ↔ p.1 < sides ∧ p.2 < sectors := by
  rw [positions, List.mem_product, List.mem_range, List.mem_range]

theorem positions_nodup (sides sectors : Nat) : (positions sides sectors).Nodup :=
  List.nodup_range.product List.nodup_range

theorem storeIds_eq_none (hp : p ∈ ps) (hout : ¬IdTable.Inside p) (tokens : List (List UInt8)) (ids : IdTable) :
    storeIds ps tokens ids = none := by
  induction ps generalizing tokens ids with
  | nil => cases hp
  | cons q ps ih =>
    rw [storeIds]
    by_cases hq : IdTable.Inside q
    · rw [IdTable.store, if_pos hq]
      rcases List.mem_cons.mp hp with rfl | hp
      · exact absurd hq hout
      · exact ih hp _ _
    · rw [IdTable.store, if_neg hq]

/-- The identifiers inside the table are stored, and from the numerals of what was stored the same are stored. -/
theorem storeIds_spec (hinside : ∀ p ∈ ps, IdTable.Inside p) (hnodup : ps.Nodup) (tokens : List (List UInt8))
    (ids : IdTable) : ∃ ids', storeIds ps tokens ids = some ids' ∧ (∀ p ∉ ps, ids' p = ids p) ∧
      ∃ stored : List UInt8, ps.map ids' = stored.map some ∧
        storeIds ps ((stored.map UInt8.toNat).map decimal) ids = some ids' := by
  induction ps generalizing tokens ids with
  | nil => exact ⟨ids, rfl, fun _ _ => rfl, [], rfl, rfl⟩
  | cons q ps ih =>
    obtain ⟨hq, hnodup⟩ := List.nodup_cons.mp hnodup
    have hqin := hinside q List.mem_cons_self
    generalize hid : nextId q.2 tokens = id
    obtain ⟨ids', hstore, hother, stored, hstored, hagain⟩ := ih
      (fun p hp => hinside p (List.mem_cons_of_mem q hp)) hnodup (tokens.drop 1) (Function.update ids q (some id))
    have hkept : ids' q = some id := by rw [hother q hq, Function.update_self]
    refine ⟨ids', ?_, fun p hp => ?_, id :: stored, ?_, ?_⟩
    · rw [storeIds, hid, IdTable.store, if_pos hqin]
      exact hstore
    · rw [List.mem_cons, not_or] at hp
      rw [hother p hp.2, Function.update_of_ne hp.1]
    · rw [List.map_cons, List.map_cons, hkept, hstored]
    · -- The numeral of the identifier is read as the identifier.
      have hread (tokens : List (List UInt8)) : nextId q.2 (decimal id.toNat :: tokens) = id := by
        rw [nextId, strtoul_decimal (Nat.lt_trans id.toNat_lt (by decide)), UInt8.ofNat_toNat]
      rw [List.map_cons, List.map_cons, storeIds, hread, IdTable.store, if_pos hqin]
      exact hagain

end Store

/-! ## Reading what was written -/

theorem fieldInRange_eq {tokens : List (List UInt8)} {index min max value : Nat} (hmax : max < 2 ^ 32)
    (htoken : tokens.getD index [] = decimal value) (hmin : min ≤ value) (hle : value ≤ max) :
    fieldInRange tokens index min max = some value := by
  rw [fieldInRange, htoken, strtoul_decimal (by omega), Nat.mod_eq_of_lt (by omega), if_neg (by omega)]

theorem fieldInRange_bounds {tokens : List (List UInt8)} {index min max value : Nat}
    (h : fieldInRange tokens index min max = some value) : min ≤ value ∧ value ≤ max := by
  rw [fieldInRange] at h
  split at h
  · cases h
  · cases h
    omega

/-- The fields of a valid description are in their ranges. -/
structure FormatDescription.Ranged (fmt : FormatDescription) : Prop where
  tracks : 1 ≤ fmt.tracks ∧ fmt.tracks ≤ dskTrackMax
  sides : 1 ≤ fmt.sides ∧ fmt.sides ≤ dskSideMax
  sectors : 1 ≤ fmt.sectors ∧ fmt.sectors ≤ dskSectorMax
  sectorSize : 1 ≤ fmt.sectorSize ∧ fmt.sectorSize ≤ 6
  gap3Length : 1 ≤ fmt.gap3Length ∧ fmt.gap3Length ≤ 255

theorem parseRanges_ranged {tokens : List (List UInt8)} {fmt : FormatDescription}
    (h : parseRanges tokens = (fmt, true)) : fmt.Ranged := by
  unfold parseRanges at h
  split at h
  · cases h
  split at h
  · cases h
  split at h
  · cases h
  split at h
  · cases h
  split at h
  · cases h
  rename_i h₁ _ _ h₂ _ _ h₃ _ _ h₄ _ _ h₅
  cases h
  exact ⟨fieldInRange_bounds h₁, fieldInRange_bounds h₂, fieldInRange_bounds h₃, fieldInRange_bounds h₄,
    fieldInRange_bounds h₅⟩

theorem parseRanges_decimal {fmt : FormatDescription} (h : fmt.Ranged) (label : List UInt8)
    (rest : List (List UInt8)) :
    parseRanges (label :: decimal fmt.tracks :: decimal fmt.sides :: decimal fmt.sectors :: decimal fmt.sectorSize ::
      decimal fmt.gap3Length :: rest) =
      ({ tracks := fmt.tracks, sides := fmt.sides, sectors := fmt.sectors, sectorSize := fmt.sectorSize,
         gap3Length := fmt.gap3Length }, true) := by
  rw [parseRanges, fieldInRange_eq (by decide) rfl h.tracks.1 h.tracks.2]
  dsimp only
  rw [fieldInRange_eq (by decide) rfl h.sides.1 h.sides.2]
  dsimp only
  rw [fieldInRange_eq (by decide) rfl h.sectors.1 h.sectors.2]
  dsimp only
  rw [fieldInRange_eq (by decide) rfl h.sectorSize.1 h.sectorSize.2]
  dsimp only
  rw [fieldInRange_eq (by decide) rfl h.gap3Length.1 h.gap3Length.2]

theorem comma_notMem_decimal (n : Nat) : 0x2C ∉ decimal n := by
  intro h
  obtain ⟨d, hd, hcomma⟩ := mem_decimal h
  have hall : ∀ d < 10, (0x2C : UInt8) ≠ UInt8.ofNat (0x30 + d) := by decide
  exact hall d hd hcomma

/-! ## Formatting with the identifiers -/

theorem mapM_eq_some_map {α β : Type} {f : α → Option β} {g : α → β} {l : List α} (h : ∀ a ∈ l, f a = some (g a)) :
    l.mapM f = some (l.map g) := by
  induction l with
  | nil => rfl
  | cons a l ih =>
    rw [List.mapM_cons, h a List.mem_cons_self, ih fun b hb => h b (List.mem_cons_of_mem a hb)]
    rfl

/-- The format, with the identifiers as they were stored. -/
def FormatDescription.toDiskFormat (fmt : FormatDescription) : DiskFormat where
  tracks := fmt.tracks
  sides := fmt.sides
  sectors := fmt.sectors
  sectorSize := fmt.sectorSize
  fillerByte := fmt.fillerByte
  sectorIds side sector := (fmt.sectorIds (side, sector)).getD 0

/-- A format whose identifiers are all stored inside the table. -/
def FormatDescription.AllStored (fmt : FormatDescription) : Prop :=
  ∀ p ∈ positions fmt.sides fmt.sectors, IdTable.Inside p ∧ (fmt.sectorIds p).isSome

theorem dskFormat_eq {fmt : FormatDescription} (h : fmt.AllStored) : fmt.dskFormat = dskFormat fmt.toDiskFormat := by
  -- A track reads its sector IDs from the table, and all of them are stored.
  have htrack (track side : Nat) (hside : side < fmt.sides) :
      fmt.formatTrack track side = some (formatTrack fmt.toDiskFormat track side) := by
    rw [FormatDescription.formatTrack]
    rw [mapM_eq_some_map (g := fun i =>
      { chrn := ⟨UInt8.ofNat track, UInt8.ofNat side, fmt.toDiskFormat.sectorIds side i, UInt8.ofNat fmt.sectorSize⟩
        size := 0x80 <<< fmt.sectorSize
        totalSize := 0x80 <<< fmt.sectorSize
        off := i * (0x80 <<< fmt.sectorSize) }) fun i hi => ?_]
    · rfl
    · obtain ⟨hinside, hsome⟩ := h (side, i) (mem_positions.mpr ⟨hside, List.mem_range.mp hi⟩)
      obtain ⟨id, hid⟩ := Option.isSome_iff_exists.mp hsome
      have hget : fmt.toDiskFormat.sectorIds side i = id := by
        show (fmt.sectorIds (side, i)).getD 0 = id
        rw [hid]
        rfl
      rw [IdTable.loadStored, if_pos hinside, hid, hget]
      rfl
  rw [FormatDescription.dskFormat, dskFormat]
  by_cases hsides : fmt.sides = 0 ∨ dskSideMax < fmt.sides
  · rw [if_pos hsides]
    exact (if_pos hsides).symm
  · rw [if_neg hsides]
    refine Eq.trans ?_ (if_neg hsides).symm
    by_cases hsectors : dskSectorMax < fmt.sectors
    · rw [if_pos hsectors]
      exact (if_pos hsectors).symm
    · rw [if_neg hsectors]
      refine Eq.trans ?_ (if_neg hsectors).symm
      have htracks (n : Nat) : (List.range n).mapM (fun i => fmt.formatTrack (i / fmt.sides) (i % fmt.sides)) =
          some ((List.range n).map fun i => formatTrack fmt.toDiskFormat (i / fmt.sides) (i % fmt.sides)) :=
        mapM_eq_some_map fun i _ => htrack _ _ (Nat.mod_lt _ (by omega))
      show Option.map _ _ = _
      rw [htracks]
      rfl

/-! ## The round trip -/

/-- A description that is valid: its fields are in their ranges, and it has a label. -/
def Accepts (format : List UInt8) : Prop :=
  7 ≤ (fields 0x2C format).length ∧ (parseRanges (fields 0x2C format)).2 = true ∧ (fields 0x2C format).getD 0 [] ≠ []

instance (format : List UInt8) : Decidable (Accepts format) := inferInstanceAs (Decidable (_ ∧ _ ∧ _))

/-- The number of sectors that a description gives. -/
def sectorsOf (format : List UInt8) : Nat := (parseRanges (fields 0x2C format)).1.sectors

/-- The identifiers are stored inside the table, the format is the same when it was written and read again, and a disk
    can be made from it, with identifiers that were stored. -/
def RoundTripsSafely (format : List UInt8) : Prop :=
  ∃ fmt, parseDiskFormat format = some fmt ∧
    (∃ text, serializeDiskFormat fmt = some text ∧ parseDiskFormat text = some fmt) ∧
    fmt.AllStored ∧ ∃ drive, fmt.dskFormat = some drive

theorem parseDiskFormat_of_accepts {format : List UInt8} (h : Accepts format) : ∃ header : FormatDescription,
    header.Ranged ∧ header.sectors = sectorsOf format ∧ header.sides ≤ 2 ∧ parseDiskFormat format =
      (storeIds (positions header.sides header.sectors) ((fields 0x2C format).drop 7) fun _ => none).map fun ids =>
        { header with
          label := (fields 0x2C format).getD 0 []
          fillerByte := UInt8.ofNat (strtoul ((fields 0x2C format).getD 6 []))
          sectorIds := ids } := by
  obtain ⟨hlength, hranges, -⟩ := h
  rw [sectorsOf, parseDiskFormat, if_neg (not_lt.mpr hlength)]
  generalize hparse : parseRanges (fields 0x2C format) = result at hranges ⊢
  obtain ⟨header, ok⟩ := result
  cases hranges
  have hranged := parseRanges_ranged hparse
  exact ⟨header, hranged, rfl, hranged.sides.2, rfl⟩

theorem parseDiskFormat_join {header : FormatDescription} (hranged : header.Ranged) {label : List UInt8}
    (hcomma : 0x2C ∉ label) (filler : UInt8) {stored : List UInt8} {ids : IdTable}
    (hstore : storeIds (positions header.sides header.sectors) ((stored.map UInt8.toNat).map decimal) (fun _ => none) =
      some ids) :
    parseDiskFormat (join 0x2C label (([header.tracks, header.sides, header.sectors, header.sectorSize,
      header.gap3Length, filler.toNat] ++ stored.map UInt8.toNat).map decimal)) =
      some ⟨label, header.tracks, header.sides, header.sectors, header.sectorSize, header.gap3Length, filler, ids⟩ := by
  -- The fields of the text are the label and the numerals.
  have hfields := fields_join label (([header.tracks, header.sides, header.sectors, header.sectorSize,
    header.gap3Length, filler.toNat] ++ stored.map UInt8.toNat).map decimal) hcomma
    (fun field hfield => by
      obtain ⟨n, -, rfl⟩ := List.mem_map.mp hfield
      exact ⟨comma_notMem_decimal n, decimal_ne_nil n⟩)
    fun hnil => nomatch hnil
  have hfiller : UInt8.ofNat (strtoul (decimal filler.toNat)) = filler := by
    rw [strtoul_decimal (Nat.lt_trans filler.toNat_lt (by decide)), UInt8.ofNat_toNat]
  have hranges := parseRanges_decimal hranged label (decimal filler.toNat :: (stored.map UInt8.toNat).map decimal)
  rw [parseDiskFormat, hfields, if_neg (by simp)]
  show (match parseRanges (label :: decimal header.tracks :: decimal header.sides :: decimal header.sectors ::
    decimal header.sectorSize :: decimal header.gap3Length :: decimal filler.toNat ::
    (stored.map UInt8.toNat).map decimal) with
    | (result, false) => some result
    | (result, true) =>
      (storeIds (positions result.sides result.sectors) ((stored.map UInt8.toNat).map decimal) fun _ => none).map
        fun ids => { result with
          label := label, fillerByte := UInt8.ofNat (strtoul (decimal filler.toNat)), sectorIds := ids }) = _
  rw [hranges]
  dsimp only
  rw [hstore, hfiller]
  rfl

/-- A valid description is read, written and used without leaving the table just when it has sixteen sectors or
    fewer. -/
theorem roundTripsSafely_iff {format : List UInt8} (h : Accepts format) :
    RoundTripsSafely format ↔ sectorsOf format ≤ 16 := by
  obtain ⟨header, hranged, hsectors, hsides, hparse⟩ := parseDiskFormat_of_accepts h
  rw [← hsectors]
  constructor
  · rintro ⟨fmt, hfmt, -⟩
    by_contra hmany
    -- The seventeenth sector of the first side.
    have hmem : (0, 16) ∈ positions header.sides header.sectors :=
      mem_positions.mpr ⟨hranged.sides.1, not_le.mp hmany⟩
    rw [hparse, storeIds_eq_none hmem (by decide)] at hfmt
    cases hfmt
  · intro hfew
    have hinside (p : Nat × Nat) (hp : p ∈ positions header.sides header.sectors) : IdTable.Inside p := by
      obtain ⟨hside, hsector⟩ := mem_positions.mp hp
      exact ⟨by omega, by omega⟩
    obtain ⟨ids, hstore, -, stored, hstored, hagain⟩ := storeIds_spec hinside (positions_nodup _ _)
      ((fields 0x2C format).drop 7) fun _ => none
    rw [hstore, Option.map_some] at hparse
    generalize hlabel : (fields 0x2C format).getD 0 [] = label at hparse
    generalize UInt8.ofNat (strtoul ((fields 0x2C format).getD 6 [])) = filler at hparse
    have hnonempty : label ≠ [] := hlabel ▸ h.2.2
    have hcomma : 0x2C ∉ label := by
      have hmem : label ∈ fields 0x2C format := by
        rw [← hlabel, List.getD_eq_getElem _ _ (Nat.lt_of_lt_of_le (by decide) h.1)]
        exact List.getElem_mem _
      exact delim_notMem_of_mem_fields hmem
    have hload (p : Nat × Nat) (hp : p ∈ positions header.sides header.sectors) : ∃ id, ids p = some id := by
      have hmem := List.mem_map_of_mem (f := ids) hp
      rw [hstored] at hmem
      obtain ⟨id, -, hid⟩ := List.mem_map.mp hmem
      exact ⟨id, hid.symm⟩
    have hall : (positions header.sides header.sectors).mapM (IdTable.load ids) = some stored := by
      rw [mapM_eq_some_map (g := fun p => (ids p).getD 0) fun p hp => by rw [IdTable.load, if_pos (hinside p hp)]]
      have hget := congrArg (List.map fun o : Option UInt8 => o.getD 0) hstored
      rw [List.map_map, List.map_map] at hget
      rw [show (fun p => (ids p).getD 0) = (fun o : Option UInt8 => o.getD 0) ∘ ids from rfl, hget]
      exact congrArg some (List.map_id stored)
    have hstoredAll : (⟨label, header.tracks, header.sides, header.sectors, header.sectorSize, header.gap3Length, filler,
        ids⟩ : FormatDescription).AllStored := fun p hp => by
      obtain ⟨id, hid⟩ := hload p hp
      exact ⟨hinside p hp, by show (ids p).isSome = true; rw [hid]; rfl⟩
    refine ⟨_, hparse, ⟨_, by rw [serializeDiskFormat, if_neg hnonempty, hall]; rfl, ?_⟩, hstoredAll, ?_⟩
    · exact parseDiskFormat_join hranged hcomma filler hagain
    · rw [dskFormat_eq hstoredAll, dskFormat, if_neg (by
        have h1 := hranged.sides
        show ¬(header.sides = 0 ∨ dskSideMax < header.sides)
        omega), if_neg (by exact not_lt.mpr hranged.sectors.2)]
      exact ⟨_, rfl⟩

/-- The description of a format with three sectors, two of which have identifiers: `T,40,1,3,2,82,229,193,0xC6`. -/
def threeSectors : List UInt8 :=
  [0x54, 0x2C, 0x34, 0x30, 0x2C, 0x31, 0x2C, 0x33, 0x2C, 0x32, 0x2C, 0x38, 0x32, 0x2C, 0x32, 0x32, 0x39, 0x2C,
    0x31, 0x39, 0x33, 0x2C, 0x30, 0x78, 0x43, 0x36]

theorem threeSectors_roundTripsSafely : RoundTripsSafely threeSectors :=
  (roundTripsSafely_iff (by decide)).mpr (by decide)

/-- The description of a format with two sides of seventeen sectors: `T,40,2,17,1,82,229`. -/
def seventeenSectors : List UInt8 :=
  [0x54, 0x2C, 0x34, 0x30, 0x2C, 0x32, 0x2C, 0x31, 0x37, 0x2C, 0x31, 0x2C, 0x38, 0x32, 0x2C, 0x32, 0x32, 0x39]

/-- It is valid, and its identifiers do not fit. -/
theorem seventeenSectors_not_roundTripsSafely : Accepts seventeenSectors ∧ ¬RoundTripsSafely seventeenSectors := by
  refine ⟨by decide, ?_⟩
  rintro ⟨fmt, hfmt, -⟩
  have hnone : (parseDiskFormat seventeenSectors).isNone = true := by decide
  rw [hfmt] at hnone
  cases hnone

end Koncepcja.Slots
