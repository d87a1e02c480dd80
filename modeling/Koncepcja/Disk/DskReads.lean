import Koncepcja.Lib.Metered
import Koncepcja.Disk.DskImage

/-!
# What the Synthesizer Reads of a DSK Image

`mfm_tracks_from_dsk` of `src/mfm_encode.cpp` once more, with every read of the image, of the size table in an extended
header and of the offsets it adds up checked, and every byte read and round of a loop counted. Where no check fails the
result is the one of `mfmTracksFromDsk`.

The controller's own parser rejects more than two sides and stops at 102 cylinders, which is what the table has room for.
This walk takes 84 cylinders, but as many sides as the header says.

## Main results

- `costs_readSectors`, `costs_readCylinder`: the reads of a track block stay inside the image.
- `readTracks_inBounds_iff`: no read goes wrong just where the table has an entry for every track.
-/

namespace Koncepcja.Disk

open Koncepcja.Bits Koncepcja.Bytes Koncepcja.Checked Koncepcja.Metered

set_option maxRecDepth 20000

/-- A read outside of the image, of the header's table or of the offsets. -/
inductive DskFault where
  | image
  | table
  | offsets
  deriving DecidableEq

/-- The entries of the size table: it runs from 0x34 to the end of the header. -/
def kTrackTable : Nat := kDskHeaderSize - 0x34

/-! ## Checked reads -/

section Reads

variable (dsk : List UInt8)

def readByte (i : Nat) : Counted DskFault UInt8 :=
  check (i < dsk.length) .image do
    tick
    return byteAt dsk i

def readBytes (i n : Nat) : Counted DskFault (List UInt8) :=
  check (i + n ≤ dsk.length) .image do
    ticks n
    return slice dsk i n

/-- `rd16le`. -/
def readWord (i : Nat) : Counted DskFault Nat :=
  check (i + 2 ≤ dsk.length) .image do
    ticks 2
    return rd16le dsk i

/-- `block_len`. -/
def readBlockLen (extended : Bool) (stdTrackSize index : Nat) : Counted DskFault Nat :=
  if extended then
    check (index < kTrackTable) .table do
      let units ← readByte dsk (0x34 + index)
      return units.toNat * 256
  else return stdTrackSize

/-- `offsets`, from entry `index` on. -/
def readOffsets (extended : Bool) (stdTrackSize : Nat) : Nat → Nat → Nat → Counted DskFault (List Nat)
  | 0, _, off => return [off]
  | count + 1, index, off => do
    tick
    let block ← readBlockLen dsk extended stdTrackSize index
    let rest ← readOffsets extended stdTrackSize count (index + 1) (off + block)
    return off :: rest

def readOffset (offsets : List Nat) (index : Nat) : Counted DskFault Nat :=
  check (index < offsets.length) .offsets (return offsets.getD index 0)

/-! ## The walk -/

/-- `actual_len`: the length field of an extended image. -/
def readActualLen (extended : Bool) (i logicalLen : Nat) : Counted DskFault Nat :=
  if extended then readWord dsk i else return logicalLen

/-- `parse_dsk_track`'s loop from entry `sec` on. -/
def readSectors (extended : Bool) (off : Nat) : Nat → Nat → Nat → Counted DskFault (List MfmSector)
  | 0, _, _ => return []
  | count + 1, sec, dataRel => do
    tick
    let infoOff := 0x18 + sec * 8
    if dsk.length < off + infoOff + 8 then return []
    else
      let cyl ← readByte dsk (off + infoOff)
      let head ← readByte dsk (off + infoOff + 1)
      let secId ← readByte dsk (off + infoOff + 2)
      let sizeCode ← readByte dsk (off + infoOff + 3)
      let status2 ← readByte dsk (off + infoOff + 5)
      let logicalLen := 128 <<< (sizeCode &&& 0x07).toNat
      let actualLen ← readActualLen dsk extended (off + infoOff + 6) logicalLen
      let next := dataRel + if actualLen ≠ 0 then actualLen else logicalLen
      if off + dataRel + logicalLen ≤ dsk.length ∧ sizeCode ≤ kMaxSizeCode then
        let payload ← readBytes dsk (off + dataRel) logicalLen
        let rest ← readSectors extended off count (sec + 1) next
        return { cyl, head, secId, sizeCode, payload, dam := if status2 &&& 0x40 ≠ 0 then 0xF8 else 0xFB } :: rest
      else readSectors extended off count (sec + 1) next

/-- `parse_dsk_track`. -/
def readTrackDesc (extended : Bool) (off : Nat) : Counted DskFault MfmTrackDesc := do
  let numSectors ← readByte dsk (off + 0x15)
  let gap3 ← readByte dsk (off + 0x16)
  let sectors ← readSectors dsk extended off numSectors.toNat 0 0x100
  return { sectors, gap3 := if gap3 ≠ 0 then gap3 else 0x52 }

def readCylinder (extended : Bool) (stdTrackSize numSides : Nat) (offsets : List Nat) (cyl : Nat) :
    Counted DskFault MfmTrack := do
  tick
  let trackIndex := cyl * numSides
  let off ← readOffset offsets trackIndex
  let blk ← readBlockLen dsk extended stdTrackSize trackIndex
  if blk = 0 then return []
  else if dsk.length < off + 0x100 then return []
  else
    let magic ← readBytes dsk off 10
    if magic ≠ trackInfoMagic then return []
    else
      let desc ← readTrackDesc dsk extended off
      let rev := mfmEncodeTrack desc
      return if rev.nbits ≠ 0 then [rev] else []

/-- The cylinders from `cyl` on. -/
def readCylinders (extended : Bool) (stdTrackSize numSides : Nat) (offsets : List Nat) :
    Nat → Nat → Counted DskFault (List MfmTrack)
  | 0, _ => return []
  | count + 1, cyl => do
    let track ← readCylinder dsk extended stdTrackSize numSides offsets cyl
    let rest ← readCylinders extended stdTrackSize numSides offsets count (cyl + 1)
    return track :: rest

/-- `mfm_tracks_from_dsk`, behind the magic. -/
def readImage (extended : Bool) : Counted DskFault (List MfmTrack) := do
  let numCyls ← readByte dsk 0x30
  let numSides ← readByte dsk 0x31
  if numSides = 0 ∨ numCyls = 0 then return []
  else
    let numCyls := min numCyls.toNat kDskMaxCyls
    let numSides := numSides.toNat
    let stdTrackSize ← readWord dsk 0x32
    let offsets ← readOffsets dsk extended stdTrackSize (numCyls * numSides) 0 kDskHeaderSize
    readCylinders dsk extended stdTrackSize numSides offsets numCyls 0

/-- `mfm_tracks_from_dsk`. -/
def readTracksFromDsk : Counted DskFault (List MfmTrack) :=
  if dsk.length < kDskHeaderSize then return []
  else do
    let extended := (← readBytes dsk 0 8) == extendedMagic
    let standard := (← readBytes dsk 0 8) == standardMagic
    if !extended && !standard then return []
    else readImage dsk extended

end Reads

/-! ## One read -/

section Costs

variable {dsk : List UInt8} {extended : Bool}

theorem costs_readByte {i : Nat} (h : i < dsk.length) : Costs (readByte dsk i) 1 (byteAt dsk i) :=
  Costs.check h Costs.tick.map

theorem costs_readBytes {i n : Nat} (h : i + n ≤ dsk.length) : Costs (readBytes dsk i n) n (slice dsk i n) :=
  Costs.check h (Costs.ticks n).map

theorem costs_readWord {i : Nat} (h : i + 2 ≤ dsk.length) : Costs (readWord dsk i) 2 (rd16le dsk i) :=
  Costs.check h (Costs.ticks 2).map

theorem costs_readBlockLen (hlen : kDskHeaderSize ≤ dsk.length) (index : Nat)
    (hfit : extended = true → index < kTrackTable) :
    Costs (readBlockLen dsk extended (rd16le dsk 0x32) index) 1 (blockLen dsk extended index) := by
  cases extended with
  | false => exact (Costs.ret _).mono (Nat.zero_le 1)
  | true =>
    have hindex := hfit rfl
    apply Costs.check hindex
    have hin : 0x34 + index < dsk.length := by
      have htable : 0x34 + kTrackTable = kDskHeaderSize := rfl
      omega
    exact (costs_readByte hin).map

theorem doomed_readBlockLen {stdTrackSize index : Nat} (hindex : ¬index < kTrackTable) :
    Doomed (readBlockLen dsk true stdTrackSize index) :=
  Doomed.check hindex

/-! ## The offsets -/

theorem costs_readOffsets (hlen : kDskHeaderSize ≤ dsk.length) {count index : Nat}
    (hfit : extended = true → index + count ≤ kTrackTable) :
    Costs (readOffsets dsk extended (rd16le dsk 0x32) count index (blockOffset dsk extended index)) (2 * count)
      ((List.range' index (count + 1)).map (blockOffset dsk extended)) := by
  induction count generalizing index with
  | zero => exact Costs.ret _
  | succ count ih =>
    have hblock := costs_readBlockLen hlen index fun h => by have := hfit h; omega
    have hrest := @ih (index + 1) fun h => by have := hfit h; omega
    have hcons := hrest.map (g := (blockOffset dsk extended index :: ·))
    apply Costs.mono (Costs.tick.bind (hblock.bind hcons))
    omega

theorem doomed_readOffsets (hlen : kDskHeaderSize ≤ dsk.length) {count index : Nat} (hroom : index ≤ kTrackTable)
    (hfit : kTrackTable < index + count) :
    Doomed (readOffsets dsk true (rd16le dsk 0x32) count index (blockOffset dsk true index)) := by
  induction count generalizing index with
  | zero => omega
  | succ count ih =>
    apply Costs.tick.doomed
    by_cases hindex : index < kTrackTable
    · apply (costs_readBlockLen hlen index fun _ => hindex).doomed
      apply Doomed.bind
      apply ih hindex
      omega
    · apply Doomed.bind
      exact doomed_readBlockLen hindex

theorem costs_readOffset {total index : Nat} (hindex : index ≤ total) :
    Costs (readOffset ((List.range' 0 (total + 1)).map (blockOffset dsk extended)) index) 0
      (blockOffset dsk extended index) := by
  have hlt : index < ((List.range' 0 (total + 1)).map (blockOffset dsk extended)).length := by
    rw [List.length_map, List.length_range']
    omega
  have hentry : ((List.range' 0 (total + 1)).map (blockOffset dsk extended)).getD index 0 =
      blockOffset dsk extended index := by
    rw [List.getD_eq_getElem _ _ hlt, List.getElem_map, List.getElem_range', Nat.one_mul, Nat.zero_add]
  rw [readOffset, hentry]
  exact Costs.check hlt (Costs.ret _)

/-! ## A track block -/

theorem logicalLen_le {s : SectorInfo} (h : s.chrn.n ≤ kMaxSizeCode) : logicalLen s ≤ 4096 := by
  have hn : (s.chrn.n &&& 0x07).toNat ≤ 5 := by
    have hle : s.chrn.n.toNat ≤ 5 := h
    rw [UInt8.toNat_and]
    exact Nat.le_trans Nat.and_le_left hle
  rw [logicalLen, Nat.shiftLeft_eq]
  exact Nat.mul_le_mul_left 128 (Nat.pow_le_pow_right (by decide) hn)

theorem costs_readActualLen {i logicalLen : Nat} (h : i + 2 ≤ dsk.length) :
    Costs (readActualLen dsk extended i logicalLen) 2 (if extended then rd16le dsk i else logicalLen) := by
  cases extended with
  | false => exact (Costs.ret _).mono (Nat.zero_le 2)
  | true => exact costs_readWord h

/-- The steps of one round: seven bytes of the table and a payload. -/
theorem costs_readSectors {off count sec dataRel : Nat} :
    Costs (readSectors dsk extended off count sec dataRel) (4104 * count)
      (dskTrackSectors dsk extended off count sec dataRel) := by
  induction count generalizing sec dataRel with
  | zero => exact Costs.ret _
  | succ count ih =>
    rw [readSectors, dskTrackSectors, show off + (0x18 + sec * 8) = off + 0x18 + 8 * sec by omega]
    apply Costs.mono (n := 1 + (4103 + 4104 * count)) ?_ (by omega)
    apply Costs.tick.bind
    dsimp only
    rw [show off + (0x18 + sec * 8) = off + 0x18 + 8 * sec by omega]
    by_cases hin : dsk.length < off + 0x18 + 8 * sec + 8
    · rw [if_pos hin, if_pos hin]
      exact (Costs.ret _).mono (Nat.zero_le _)
    · rw [if_neg hin, if_neg hin]
      apply Costs.mono (n := 1 + (1 + (1 + (1 + (1 + (2 + (4096 + 4104 * count))))))) ?_ (by omega)
      -- the fields of the entry, in the order they are read
      apply (costs_readByte (by omega)).bind
      apply (costs_readByte (by omega)).bind
      apply (costs_readByte (by omega)).bind
      apply (costs_readByte (by omega)).bind
      apply (costs_readByte (by omega)).bind
      apply (costs_readActualLen (by omega)).bind
      by_cases htake : off + dataRel + logicalLen (sectorInfo dsk off sec) ≤ dsk.length ∧
          (sectorInfo dsk off sec).chrn.n ≤ kMaxSizeCode
      · rw [if_pos htake]
        apply Costs.ite_pos htake
        apply ((costs_readBytes htake.1).mono (logicalLen_le htake.2)).bind
        exact ih.map
      · rw [if_neg htake]
        apply Costs.ite_neg htake
        exact ih.mono (by omega)

theorem costs_readTrackDesc {off : Nat} (h : off + 0x100 ≤ dsk.length) :
    Costs (readTrackDesc dsk extended off) (2 + 4104 * 255) (parseDskTrack dsk extended off) := by
  have hcount : (byteAt dsk (off + 0x15)).toNat ≤ 255 := Nat.le_of_lt_succ (byteAt dsk (off + 0x15)).toNat_lt
  apply Costs.mono (n := 1 + (1 + 4104 * 255)) ?_ (Nat.le_of_eq (Nat.add_assoc 1 1 _).symm)
  apply (costs_readByte (by omega)).bind
  apply (costs_readByte (by omega)).bind
  exact (costs_readSectors.mono (Nat.mul_le_mul_left 4104 hcount)).map

/-! ## The cylinders -/

/-- What is made of a cylinder. -/
def synthTrack : Option MfmTrackDesc → MfmTrack
  | none => []
  | some desc => let rev := mfmEncodeTrack desc; if rev.nbits ≠ 0 then [rev] else []

theorem mfmTracksFromDsk_eq (dsk : List UInt8) : mfmTracksFromDsk dsk = (dskCylinders dsk).map synthTrack := by
  apply List.map_congr_left
  intro desc _
  cases desc <;> rfl

def kCylinderSteps : Nat := 14 + 4104 * 255

theorem costs_readCylinder (hlen : kDskHeaderSize ≤ dsk.length) {numSides total cyl : Nat}
    (htotal : cyl * numSides < total) (hfit : extended = true → total ≤ kTrackTable) :
    Costs (readCylinder dsk extended (rd16le dsk 0x32) numSides
        ((List.range' 0 (total + 1)).map (blockOffset dsk extended)) cyl) kCylinderSteps
      (synthTrack (dskCylinder dsk extended numSides cyl)) := by
  have hblock := costs_readBlockLen hlen (cyl * numSides) fun h => Nat.lt_of_lt_of_le htotal (hfit h)
  apply Costs.mono (n := 1 + (0 + (1 + (10 + (2 + 4104 * 255))))) ?_ (by unfold kCylinderSteps; omega)
  apply Costs.tick.bind
  apply (costs_readOffset (Nat.le_of_lt htotal)).bind
  apply hblock.bind
  rw [dskCylinder]
  dsimp only
  by_cases habsent : blockLen dsk extended (cyl * numSides) = 0
  · rw [if_pos habsent, if_pos habsent]
    exact (Costs.ret _).mono (Nat.zero_le _)
  rw [if_neg habsent, if_neg habsent]
  by_cases hshort : dsk.length < blockOffset dsk extended (cyl * numSides) + 0x100
  · rw [if_pos hshort, if_pos hshort]
    exact (Costs.ret _).mono (Nat.zero_le _)
  rw [if_neg hshort, if_neg hshort]
  apply (costs_readBytes (by omega)).bind
  by_cases hmagic : slice dsk (blockOffset dsk extended (cyl * numSides)) 10 ≠ trackInfoMagic
  · rw [if_pos hmagic, if_pos hmagic]
    exact (Costs.ret _).mono (Nat.zero_le _)
  · rw [if_neg hmagic, if_neg hmagic]
    exact (costs_readTrackDesc (by omega)).map

theorem costs_readCylinders (hlen : kDskHeaderSize ≤ dsk.length) {numSides total : Nat} (hsides : 0 < numSides)
    (hfit : extended = true → total ≤ kTrackTable) {count cyl : Nat} (htotal : (cyl + count) * numSides ≤ total) :
    Costs (readCylinders dsk extended (rd16le dsk 0x32) numSides
        ((List.range' 0 (total + 1)).map (blockOffset dsk extended)) count cyl) (kCylinderSteps * count)
      (((List.range' cyl count).map (dskCylinder dsk extended numSides)).map synthTrack) := by
  induction count generalizing cyl with
  | zero => exact Costs.ret _
  | succ count ih =>
    have hcyl : cyl * numSides < total := by
      have hlast : cyl * numSides < (cyl + (count + 1)) * numSides := Nat.mul_lt_mul_of_pos_right (by omega) hsides
      exact Nat.lt_of_lt_of_le hlast htotal
    have hrest := @ih (cyl + 1) (by rw [Nat.add_assoc, Nat.add_comm 1]; exact htotal)
    have hcons := hrest.map (g := (synthTrack (dskCylinder dsk extended numSides cyl) :: ·))
    apply Costs.mono ((costs_readCylinder hlen hcyl hfit).bind hcons)
    exact Nat.le_of_eq (by rw [Nat.mul_succ, Nat.add_comm])

/-! ## The image -/

/-- The steps of the whole walk. -/
def kMostSteps : Nat := 20 + 2 * (84 * 255) + kCylinderSteps * 84

/-- An extended header has an entry for every track that is walked. -/
def TableFits (dsk : List UInt8) : Prop :=
  dsk.length < kDskHeaderSize ∨ slice dsk 0 8 ≠ extendedMagic ∨
    min (byteAt dsk 0x30).toNat kDskMaxCyls * (byteAt dsk 0x31).toNat ≤ kTrackTable

instance tableFitsDecidable (dsk : List UInt8) : Decidable (TableFits dsk) :=
  inferInstanceAs (Decidable (dsk.length < kDskHeaderSize ∨ slice dsk 0 8 ≠ extendedMagic ∨
    min (byteAt dsk 0x30).toNat kDskMaxCyls * (byteAt dsk 0x31).toNat ≤ kTrackTable))

/-- The tracks of an image with a magic. -/
def imageTracks (dsk : List UInt8) (extended : Bool) : List MfmTrack :=
  if byteAt dsk 0x31 = 0 ∨ byteAt dsk 0x30 = 0 then []
  else ((List.range (min (byteAt dsk 0x30).toNat kDskMaxCyls)).map
    (dskCylinder dsk extended (byteAt dsk 0x31).toNat)).map synthTrack

theorem toNat_eq_zero {b : UInt8} : b.toNat = 0 ↔ b = 0 := ⟨fun h => UInt8.toNat_inj.mp h, fun h => h ▸ rfl⟩

theorem mfmTracksFromDsk_of_kind (hlen : kDskHeaderSize ≤ dsk.length) (hkind : dskKind dsk = some extended) :
    mfmTracksFromDsk dsk = imageTracks dsk extended := by
  rw [mfmTracksFromDsk_eq, dskCylinders, if_neg (Nat.not_lt.mpr hlen), hkind, imageTracks]
  dsimp only
  simp only [toNat_eq_zero]
  split <;> rfl

theorem costs_readImage (hlen : kDskHeaderSize ≤ dsk.length)
    (hfit : extended = true → min (byteAt dsk 0x30).toNat kDskMaxCyls * (byteAt dsk 0x31).toNat ≤ kTrackTable) :
    Costs (readImage dsk extended) (4 + 2 * (84 * 255) + kCylinderSteps * 84) (imageTracks dsk extended) := by
  have hheader : kDskHeaderSize = 0x100 := rfl
  have hcyls : min (byteAt dsk 0x30).toNat kDskMaxCyls ≤ 84 := Nat.min_le_right _ _
  have hsides : (byteAt dsk 0x31).toNat ≤ 255 := Nat.le_of_lt_succ (byteAt dsk 0x31).toNat_lt
  apply Costs.mono (n := 1 + (1 + (2 + (2 * (84 * 255) + kCylinderSteps * 84)))) ?_ (by omega)
  -- The two counts of the header, the track sizes, then the cylinders.
  apply (costs_readByte (by omega)).bind
  apply (costs_readByte (by omega)).bind
  rw [imageTracks]
  by_cases hempty : byteAt dsk 0x31 = 0 ∨ byteAt dsk 0x30 = 0
  · rw [if_pos hempty, if_pos hempty]
    exact (Costs.ret _).mono (Nat.zero_le _)
  rw [if_neg hempty, if_neg hempty]
  have hpos : 0 < (byteAt dsk 0x31).toNat := by
    apply Nat.pos_of_ne_zero
    intro hzero
    exact hempty (Or.inl (toNat_eq_zero.mp hzero))
  apply (costs_readWord (by omega)).bind
  have hoffsets := @costs_readOffsets dsk extended hlen (min (byteAt dsk 0x30).toNat kDskMaxCyls *
    (byteAt dsk 0x31).toNat) 0 fun h => by rw [Nat.zero_add]; exact hfit h
  apply (hoffsets.mono (Nat.mul_le_mul_left 2 (Nat.mul_le_mul hcyls hsides))).bind
  rw [List.range_eq_range']
  have hall : (0 + min (byteAt dsk 0x30).toNat kDskMaxCyls) * (byteAt dsk 0x31).toNat ≤
      min (byteAt dsk 0x30).toNat kDskMaxCyls * (byteAt dsk 0x31).toNat := Nat.le_of_eq (by rw [Nat.zero_add])
  exact (costs_readCylinders hlen hpos hfit hall).mono (Nat.mul_le_mul_left _ hcyls)

theorem doomed_readImage (hlen : kDskHeaderSize ≤ dsk.length)
    (hfit : kTrackTable < min (byteAt dsk 0x30).toNat kDskMaxCyls * (byteAt dsk 0x31).toNat) :
    Doomed (readImage dsk true) := by
  have hheader : kDskHeaderSize = 0x100 := rfl
  have hsome : ¬(byteAt dsk 0x31 = 0 ∨ byteAt dsk 0x30 = 0) := by
    rintro (hzero | hzero)
    · rw [hzero] at hfit
      exact Nat.not_lt_zero _ hfit
    · rw [hzero] at hfit
      rw [show (0 : UInt8).toNat = 0 from rfl, Nat.zero_min, Nat.zero_mul] at hfit
      exact Nat.not_lt_zero _ hfit
  apply (costs_readByte (by omega)).doomed
  apply (costs_readByte (by omega)).doomed
  apply Doomed.ite_neg hsome
  apply (costs_readWord (by omega)).doomed
  apply Doomed.bind
  apply doomed_readOffsets hlen (Nat.zero_le _)
  rw [Nat.zero_add]
  exact hfit

theorem dskKind_extended (h : slice dsk 0 8 = extendedMagic) : dskKind dsk = some true := by
  have hother : slice dsk 0 8 ≠ standardMagic := by rw [h]; decide
  rw [dskKind, if_neg hother, if_pos h]

theorem dskKind_standard (h : slice dsk 0 8 = standardMagic) : dskKind dsk = some false := by
  rw [dskKind, if_pos h]

theorem dskKind_none (hext : slice dsk 0 8 ≠ extendedMagic) (hstd : slice dsk 0 8 ≠ standardMagic) :
    dskKind dsk = none := by
  rw [dskKind, if_neg hstd, if_neg hext]

theorem costs_readTracks (hfit : TableFits dsk) : Costs (readTracksFromDsk dsk) kMostSteps (mfmTracksFromDsk dsk) := by
  have hheader : kDskHeaderSize = 0x100 := rfl
  by_cases hlen : dsk.length < kDskHeaderSize
  · have hnone : mfmTracksFromDsk dsk = [] := by
      rw [mfmTracksFromDsk_eq, dskCylinders, if_pos hlen]
      rfl
    rw [readTracksFromDsk, if_pos hlen, hnone]
    exact (Costs.ret _).mono (Nat.zero_le _)
  rw [readTracksFromDsk, if_neg hlen]
  have hlen' := Nat.not_lt.mp hlen
  -- The bound is summed up first: the header, the counts and the table, and the cylinders.
  apply Costs.mono (n := 8 + (8 + (4 + 2 * (84 * 255) + kCylinderSteps * 84))) ?_ (by rw [kMostSteps]; omega)
  apply (costs_readBytes (by omega)).bind
  apply (costs_readBytes (by omega)).bind
  by_cases hext : slice dsk 0 8 = extendedMagic
  · rw [mfmTracksFromDsk_of_kind hlen' (dskKind_extended hext), hext]
    apply Costs.ite_neg (by decide)
    apply costs_readImage hlen'
    intro _
    rcases hfit with h | h | h
    · exact absurd h hlen
    · exact absurd hext h
    · exact h
  have hbeq : (slice dsk 0 8 == extendedMagic) = false := beq_eq_false_iff_ne.mpr hext
  rw [hbeq]
  by_cases hstd : slice dsk 0 8 = standardMagic
  · rw [mfmTracksFromDsk_of_kind hlen' (dskKind_standard hstd), hstd]
    apply Costs.ite_neg (by decide)
    apply costs_readImage hlen'
    intro h
    cases h
  · have hnone : mfmTracksFromDsk dsk = [] := by
      rw [mfmTracksFromDsk_eq, dskCylinders, if_neg hlen, dskKind_none hext hstd]
      rfl
    rw [hnone, show (slice dsk 0 8 == standardMagic) = false from beq_eq_false_iff_ne.mpr hstd]
    exact (Costs.ret _).mono (Nat.zero_le _)

theorem doomed_readTracks (hfit : ¬TableFits dsk) : Doomed (readTracksFromDsk dsk) := by
  rw [TableFits, not_or, not_or, Decidable.not_not] at hfit
  obtain ⟨hlen, hext, hover⟩ := hfit
  have hheader : kDskHeaderSize = 0x100 := rfl
  rw [readTracksFromDsk, if_neg hlen]
  apply (costs_readBytes (by omega)).doomed
  apply (costs_readBytes (by omega)).doomed
  rw [hext]
  apply Doomed.ite_neg (by decide)
  exact doomed_readImage (Nat.not_lt.mp hlen) (Nat.not_le.mp hover)

end Costs

/-- **Where the table has an entry for every track**, the walk reads the image and its tables only inside, and ends after a
    bounded number of steps with the tracks; where it has not, a read goes wrong. -/
theorem readTracks_inBounds_iff (dsk : List UInt8) :
    (∃ steps ≤ kMostSteps, readTracksFromDsk dsk 0 = .ok (mfmTracksFromDsk dsk, steps)) ↔ TableFits dsk := by
  constructor
  · rintro ⟨steps, -, hrun⟩
    apply Decidable.byContradiction
    intro hfit
    exact (doomed_readTracks hfit).not_ok hrun
  · intro hfit
    obtain ⟨steps, hle, hrun⟩ := costs_readTracks hfit 0
    rw [Nat.zero_add] at hrun
    exact ⟨steps, hle, hrun⟩

/-- An extended header of 84 cylinders and three sides, and no more. -/
def threeSided : List UInt8 :=
  extendedMagic ++ List.replicate 40 0 ++ [84, 3, 0, 0] ++ List.replicate 204 0

/-- The 205th entry lies behind its last byte. -/
theorem threeSided_outOfBounds :
    ¬∃ steps ≤ kMostSteps, readTracksFromDsk threeSided 0 = .ok (mfmTracksFromDsk threeSided, steps) := by
  have hfit : ¬TableFits threeSided := by decide
  rintro ⟨steps, -, hrun⟩
  exact (doomed_readTracks hfit).not_ok hrun

end Koncepcja.Disk
