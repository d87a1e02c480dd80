import Koncepcja.Cpm.WriteFile

/-!
# Writing a File and Reading It

What `disk_read_file` gives for a file that `disk_write_file` wrote: the content, filled with `0xE5`
to whole records, with the AMSDOS header in front when one was asked for. The exceptions are an
empty content, which gets no directory entry, and a name with bytes over `0x7F`, which no entry's
stripped name equals.

## Main results

- `parseAmsdosHeader_makeAmsdosHeader`: a header parses back, whatever follows it.
- `readBlocks_eq`: reading blocks in order gives the data they hold.
- `writeFile_readFile_iff`: a written file reads back exactly when it has content and a 7-bit name.
-/

namespace Koncepcja.Cpm

open Koncepcja.Bytes Koncepcja.Disk Koncepcja.Slots Koncepcja.FreeSlots

set_option maxRecDepth 20000

/-! ## AMSDOS headers -/

section Header

variable {name : List UInt8}

theorem headerFields_length (hname : name.length = 11) (type : AmsdosFileType) (loadAddr execAddr : UInt16)
    (dataLength : Nat) :
    (headerFields name type loadAddr execAddr dataLength).length = 67 := by
  simp [headerFields, hname]

theorem headerChecksum_append {fields : List UInt8} (h : fields.length = 67) (rest : List UInt8) :
    headerChecksum (fields ++ rest) = headerChecksum fields := by
  rw [headerChecksum, headerChecksum, List.take_left' h, List.take_of_length_le (Nat.le_of_eq h)]

theorem rd16le_ofNat {v : Nat} (hv : v < 65536) (rest : List UInt8) :
    rd16le (UInt8.ofNat v :: UInt8.ofNat (v / 256) :: rest) 0 = v := by
  change (UInt8.ofNat v).toNat + 256 * (UInt8.ofNat (v / 256)).toNat = v
  rw [UInt8.toNat_ofNat', UInt8.toNat_ofNat']
  omega

theorem rd16le_drop (buf : List UInt8) (n : Nat) : rd16le (buf.drop n) 0 = rd16le buf n := by
  rw [rd16le, rd16le, byteAt_drop, byteAt_drop, Nat.add_zero]

theorem headerFields_drop_18 (hname : name.length = 11) (type : AmsdosFileType) (loadAddr execAddr : UInt16)
    (dataLength : Nat) :
    (headerFields name type loadAddr execAddr dataLength).drop 18 =
      [type.byte, 0, 0, UInt8.ofNat loadAddr.toNat, UInt8.ofNat (loadAddr.toNat / 256), 0, UInt8.ofNat dataLength,
        UInt8.ofNat (dataLength / 256), UInt8.ofNat execAddr.toNat, UInt8.ofNat (execAddr.toNat / 256)] ++
        (List.replicate 36 0 ++ [UInt8.ofNat dataLength, UInt8.ofNat (dataLength / 256),
          UInt8.ofNat (dataLength / 65536)]) := by
  rw [headerFields, List.append_assoc, List.append_assoc, List.drop_left' (by simp [hname])]

/-- A header parses back to what it was made from, whatever follows it. -/
theorem parseAmsdosHeader_makeAmsdosHeader {filename : List UInt8} {type : AmsdosFileType}
    {loadAddr execAddr : UInt16} {dataLength : Nat} (hparse : parseCpmName filename = some name)
    (hlength : dataLength < 2 ^ 24) (rest : List UInt8) :
    parseAmsdosHeader (makeAmsdosHeader filename type loadAddr execAddr dataLength ++ rest) =
      { valid := true, type := type, loadAddr := loadAddr, execAddr := execAddr, fileLength := dataLength } := by
  have hname := parseCpmName_length hparse
  rw [makeAmsdosHeader, hparse, Option.getD_some]
  have h67 : (headerFields name type loadAddr execAddr dataLength).length = 67 :=
    headerFields_length hname _ _ _ _
  have h18 := headerFields_drop_18 hname type loadAddr execAddr dataLength
  generalize headerFields name type loadAddr execAddr dataLength = fields at h67 h18 ⊢
  generalize hfile : fields ++ [UInt8.ofNat (headerChecksum fields), UInt8.ofNat (headerChecksum fields / 256)] ++
    List.replicate 59 0 ++ rest = file
  have hsplit : file = fields ++ (UInt8.ofNat (headerChecksum fields) :: UInt8.ofNat (headerChecksum fields / 256) ::
      (List.replicate 59 0 ++ rest)) := by
    rw [← hfile, List.append_assoc, List.append_assoc]
    rfl
  have hlen : ¬ file.length < 128 := by
    rw [hsplit, List.length_append, h67, List.length_cons, List.length_cons, List.length_append, List.length_replicate]
    omega
  have hsum : headerChecksum file = rd16le file 67 := by
    rw [hsplit, headerChecksum_append h67, ← rd16le_drop, List.drop_left' h67,
      rd16le_ofNat (v := headerChecksum fields) (Nat.mod_lt _ (by decide))]
  -- the fields read back from the file's bytes from 18 on
  have hdrop : file.drop 18 = [type.byte, 0, 0, UInt8.ofNat loadAddr.toNat, UInt8.ofNat (loadAddr.toNat / 256), 0,
      UInt8.ofNat dataLength, UInt8.ofNat (dataLength / 256), UInt8.ofNat execAddr.toNat,
      UInt8.ofNat (execAddr.toNat / 256)] ++ (List.replicate 36 0 ++ [UInt8.ofNat dataLength,
        UInt8.ofNat (dataLength / 256), UInt8.ofNat (dataLength / 65536)]) ++
      (UInt8.ofNat (headerChecksum fields) :: UInt8.ofNat (headerChecksum fields / 256) ::
        (List.replicate 59 0 ++ rest)) := by
    rw [hsplit, List.drop_append_of_le_length (by rw [h67]; decide), h18]
  have htype : byteAt file 18 = type.byte := by
    rw [← Nat.add_zero 18, ← byteAt_drop, hdrop]
    rfl
  have hload : rd16le file 21 = loadAddr.toNat := by
    rw [← rd16le_drop, ← List.drop_drop (i := 3) (j := 18), hdrop]
    exact rd16le_ofNat loadAddr.toNat_lt _
  have hexec : rd16le file 26 = execAddr.toNat := by
    rw [← rd16le_drop, ← List.drop_drop (i := 8) (j := 18), hdrop]
    exact rd16le_ofNat execAddr.toNat_lt _
  have hlength' : rd16le file 64 + 65536 * (byteAt file 66).toNat = dataLength := by
    have h64 : file.drop 64 = [UInt8.ofNat dataLength, UInt8.ofNat (dataLength / 256),
        UInt8.ofNat (dataLength / 65536)] ++ (UInt8.ofNat (headerChecksum fields) ::
        UInt8.ofNat (headerChecksum fields / 256) :: (List.replicate 59 0 ++ rest)) := by
      rw [← List.drop_drop (i := 46) (j := 18), hdrop]
      rfl
    rw [← rd16le_drop, ← Nat.add_zero 66, show 66 + 0 = 64 + 2 from rfl, ← byteAt_drop, h64]
    change (UInt8.ofNat dataLength).toNat + 256 * (UInt8.ofNat (dataLength / 256)).toNat +
      65536 * (UInt8.ofNat (dataLength / 65536)).toNat = dataLength
    rw [UInt8.toNat_ofNat', UInt8.toNat_ofNat', UInt8.toNat_ofNat']
    omega
  rw [parseAmsdosHeader, if_neg hlen, if_neg (not_not.mpr hsum), htype, hload, hexec, hlength', UInt16.ofNat_toNat,
    UInt16.ofNat_toNat]

end Header

/-! ## Reading blocks -/

theorem slice_append_slice (bytes : List UInt8) (off m n : Nat) :
    slice bytes off m ++ slice bytes (off + m) n = slice bytes off (m + n) := by
  rw [slice, slice, slice, ← List.drop_drop, List.take_add]

/-- Blocks that hold the parts of `bytes` in order read as `bytes`, up to the file's size. -/
theorem readBlocks_eq {d : Slots.Drive} (bytes : List UInt8) {fileSize : Nat} (blocks : List UInt8) {done : Nat}
    (hblocks : ∀ i b, blocks[i]? = some b →
      readBlock d b.toNat = some (slice bytes (done + i * blockSize) blockSize))
    (hbytes : done + blocks.length * blockSize ≤ bytes.length) (hdone : done < fileSize)
    (hsize : fileSize ≤ done + blocks.length * blockSize) :
    readBlocks d fileSize blocks done = .ok (slice bytes done (fileSize - done)) := by
  induction blocks generalizing done with
  | nil => exact absurd hsize (by simpa using hdone)
  | cons block blocks ih =>
    rw [List.length_cons, Nat.succ_mul] at hbytes hsize
    have hfirst := hblocks 0 block rfl
    rw [Nat.zero_mul, Nat.add_zero] at hfirst
    rw [readBlocks, hfirst]
    dsimp only
    by_cases hlast : fileSize < done + blockSize
    · -- the file ends inside this block
      rw [if_pos hlast, if_pos (by omega), slice, slice, List.take_take, Nat.min_eq_left (by omega)]
    · rw [if_neg hlast]
      have hwhole : (slice bytes done blockSize).take blockSize = slice bytes done blockSize := by
        rw [slice, List.take_take, Nat.min_self]
      by_cases hend : fileSize ≤ done + blockSize
      · rw [if_pos hend, hwhole, show fileSize - done = blockSize by omega]
      · rw [if_neg hend]
        have hrest : readBlocks d fileSize blocks (done + blockSize) = _ :=
          ih (fun i b hi => by
            rw [hblocks (i + 1) b (by simpa using hi), Nat.succ_mul, Nat.add_assoc, Nat.add_comm blockSize])
            (by omega) (by omega) (by omega)
        rw [hrest]
        dsimp only
        rw [hwhole, slice_append_slice, show blockSize + (fileSize - (done + blockSize)) = fileSize - done by omega]

/-! ## The written file in the directory -/

/-- Content as whole records: filled with `0xE5`. -/
def paddedRecords (full : List UInt8) : List UInt8 :=
  full ++ List.replicate ((full.length + 127) / 128 * 128 - full.length) 0xE5

section NewEntries

variable {name blocks : List UInt8} {total : Nat} {dir : Dir}

theorem isNamed_newEntry (hname : name.length = 11) (h7 : name.map (· &&& 0x7F) = name) (k : Nat) :
    isNamed name (newEntry name blocks total k) = true := by
  rw [isNamed, newEntry, isLive_extentEntry, nameOf_extentEntry hname, h7, Bool.true_and]
  exact beq_self_eq_true name

theorem filter_isNamed_newEntries (hname : name.length = 11) (h7 : name.map (· &&& 0x7F) = name)
    (hfresh : dir.any (isNamed name) = false) (hroom : extentsNeeded blocks.length ≤ dir.countP isDeleted) :
    (fillFree isDeleted dir (newEntries name blocks total)).filter (isNamed name) = newEntries name blocks total := by
  refine filter_fillFree_of_forall (by simpa using hfresh) ?_ ?_
  · intro e he
    obtain ⟨k, _, rfl⟩ := List.mem_map.mp he
    exact isNamed_newEntry hname h7 k
  · rw [newEntries, List.length_map, List.length_range]
    exact hroom

theorem filter_sameFile_newEntries (hname : name.length = 11) (h7 : name.map (· &&& 0x7F) = name)
    (hfresh : dir.any (isNamed name) = false) (hroom : extentsNeeded blocks.length ≤ dir.countP isDeleted) (k : Nat) :
    (fillFree isDeleted dir (newEntries name blocks total)).filter
      (fun e => !isDeleted e && sameFile e (newEntry name blocks total k)) = newEntries name blocks total := by
  have hnameOf : nameOf (newEntry name blocks total k) = name := by rw [newEntry, nameOf_extentEntry hname, h7]
  refine filter_fillFree_of_forall ?_ ?_ ?_
  · -- an old entry of the file would be one of the name, and there is none
    intro e he
    have hnot : isNamed name e = false := by
      have := List.any_eq_false.mp hfresh e he
      simpa using this
    by_contra hsame
    simp only [sameFile, Bool.not_eq_false, Bool.and_eq_true, beq_iff_eq, Bool.not_eq_true'] at hsame
    obtain ⟨hused, huser, hsameName⟩ := hsame
    have hnamed : isNamed name e = true := by
      rw [isNamed, isLive, hused, huser, hsameName, hnameOf]
      exact Bool.and_eq_true_iff.mpr ⟨rfl, beq_self_eq_true name⟩
    rw [hnamed] at hnot
    cases hnot
  · intro e he
    obtain ⟨j, _, rfl⟩ := List.mem_map.mp he
    rw [sameFile, hnameOf, newEntry, nameOf_extentEntry hname, h7]
    exact Bool.and_eq_true_iff.mpr ⟨rfl, Bool.and_eq_true_iff.mpr ⟨rfl, beq_self_eq_true name⟩⟩
  · rw [newEntries, List.length_map, List.length_range]
    exact hroom

theorem newEntries_sorted (hname : name.length = 11) (hcount : extentsNeeded blocks.length ≤ 2048) :
    (newEntries name blocks total).Pairwise fun a b => extentNum a ≤ extentNum b := by
  rw [newEntries, List.pairwise_map]
  refine List.Pairwise.imp_of_mem ?_ List.pairwise_lt_range
  intro a b ha hb hab
  have ha' := List.mem_range.mp ha
  have hb' := List.mem_range.mp hb
  simp only [extentsNeeded, blocksPerExtent] at hcount
  rw [newEntry, newEntry, extentNum_extentEntry hname (by omega), extentNum_extentEntry hname (by omega)]
  omega

theorem flatMap_blocksOf_newEntries (hname : name.length = 11) (hzero : ∀ b ∈ blocks, b ≠ 0) :
    (newEntries name blocks total).flatMap blocksOf = blocks := by
  rw [newEntries, List.flatMap_map]
  have heach : ∀ k, blocksOf (newEntry name blocks total k) = extentBlocks blocks k := fun k =>
    blocksOf_extentEntry hname (extentBlocks_length_le _ _) fun b hb => hzero b (mem_of_mem_extentBlocks hb)
  rw [List.flatMap_congr fun k _ => heach k, flatMap_extentBlocks, List.take_of_length_le (by omega)]

theorem size_newEntries (hname : name.length = 11) (hblocks : blocks.length = (total + 1023) / 1024)
    (hpos : 0 < total) : ∃ last, (newEntries name blocks total).getLast? = some last ∧
      ((newEntries name blocks total).length - 1) * extentSize + (recordCount last).toNat * recordSize =
        (total + 127) / 128 * 128 := by
  refine ⟨newEntry name blocks total ((blocks.length + 15) / 16 - 1), ?_, ?_⟩
  · rw [newEntries, List.getLast?_map, List.getLast?_range, if_neg (by omega)]
    rfl
  · rw [newEntries, List.length_map, List.length_range, newEntry, recordCount_extentEntry hname]
    simp only [extentBlocks, List.length_take, List.length_drop, extentSize, recordSize, blockSize]
    omega

end NewEntries

/-! ## Seven-bit names -/

theorem and_7F_eq_iff (b : UInt8) : b &&& 0x7F = b ↔ b < 0x80 := by
  have h := (by decide : ∀ v : BitVec 8, v &&& 0x7F#8 = v ↔ v < 0x80#8) b.toBitVec
  rw [← UInt8.toBitVec_inj, UInt8.lt_iff_toBitVec_lt]
  exact h

theorem toUpper_lt_iff (c : UInt8) : toUpper c < 0x80 ↔ c < 0x80 := by
  have h := (by decide : ∀ v : BitVec 8, (0x61#8 ≤ v ∧ v ≤ 0x7A#8 → (v - 0x20#8 < 0x80#8 ↔ v < 0x80#8))) c.toBitVec
  rw [toUpper]
  split
  · next hc =>
    rw [UInt8.lt_iff_toBitVec_lt, UInt8.lt_iff_toBitVec_lt]
    exact h hc
  · exact Iff.rfl

theorem map_and_7F_eq_iff (name : List UInt8) : name.map (· &&& 0x7F) = name ↔ ∀ b ∈ name, b < 0x80 := by
  conv_lhs => rhs; rw [← List.map_id name]
  rw [List.map_inj_left]
  exact forall₂_congr fun b _ => and_7F_eq_iff b

theorem mem_padName {size : Nat} {part : List UInt8} {b : UInt8} (h : b ∈ padName size part) : b ∈ part ∨ b = 0x20 := by
  rcases List.mem_append.mp h with h | h
  · exact Or.inl h
  · exact Or.inr (List.eq_of_mem_replicate h)

theorem parseCpmName_lt_iff {display name : List UInt8} (h : parseCpmName display = some name) :
    (∀ b ∈ name, b < 0x80) ↔ ∀ c ∈ display, c < 0x80 := by
  simp only [parseCpmName] at h
  split at h
  · cases h
  · cases h
    have hupper : (∀ c ∈ display, c < 0x80) ↔ ∀ c ∈ display.map toUpper, c < 0x80 := by
      simp only [List.forall_mem_map, toUpper_lt_iff]
    rw [hupper]
    generalize display.map toUpper = upper
    constructor
    · intro hname c hc
      rw [← List.takeWhile_append_dropWhile (p := fun c => decide (c ≠ 0x2E)) (l := upper)] at hc
      rcases List.mem_append.mp hc with hc | hc
      · exact hname c (List.mem_append_left _ (List.mem_append_left _ hc))
      · cases hdrop : upper.dropWhile fun c => decide (c ≠ 0x2E) with
        | nil => rw [hdrop] at hc; cases hc
        | cons dot ext =>
          rw [hdrop] at hc hname
          rcases List.mem_cons.mp hc with rfl | hc
          · -- the byte the name stops at is the dot
            have hdot := List.head?_dropWhile_not (fun c => decide (c ≠ 0x2E)) upper
            rw [hdrop] at hdot
            simp only [List.head?_cons] at hdot
            have : c = 0x2E := by simpa using hdot
            rw [this]
            decide
          · exact hname c (List.mem_append_right _ (List.mem_append_left _ hc))
    · intro hall b hb
      have hspace : (0x20 : UInt8) < 0x80 := by decide
      rcases List.mem_append.mp hb with hb | hb
      · rcases mem_padName hb with hb | rfl
        · exact hall b ((List.takeWhile_sublist _).mem hb)
        · exact hspace
      · rcases mem_padName hb with hb | rfl
        · exact hall b ((List.dropWhile_sublist _).mem (List.mem_of_mem_drop hb))
        · exact hspace

theorem find?_isNamed_of_high {name : List UInt8} (hhigh : ¬ ∀ b ∈ name, b < 0x80) (dir : Dir) :
    dir.find? (isNamed name) = none := by
  rw [List.find?_eq_none]
  intro e _ hnamed
  rw [isNamed, Bool.and_eq_true, beq_iff_eq] at hnamed
  refine hhigh fun b hb => ?_
  rw [← hnamed.2] at hb
  obtain ⟨c, _, rfl⟩ := List.mem_map.mp hb
  rw [← and_7F_eq_iff, UInt8.and_assoc, UInt8.and_self]

/-! ## The round trip -/

theorem tracks_ne_zero {d : Slots.Drive} {dir : Dir} (h : readDirectory d = some dir) : d.tracks ≠ 0 := by
  intro hzero
  obtain ⟨first, _, h₀, _, _⟩ := readDirectory_eq_some h
  obtain ⟨_, _, _, hhalf, _, _⟩ := readBlock_eq_some h₀
  obtain ⟨place, hfind, _⟩ := Option.map_eq_some_iff.mp hhalf
  rw [findSectorData, hzero, if_pos (Nat.zero_le _)] at hfind
  cases hfind

theorem diskReadFile_eq {d : Slots.Drive} {dir : Dir} {filename name : List UInt8} (hdir : readDirectory d = some dir)
    (hname : parseCpmName filename = some name) : diskReadFile d filename =
      match dir.find? (isNamed name) with
      | none => .error (.notFound filename)
      | some found => readBlocks d (computeFileSize dir found) (getFileBlocks dir found) 0 := by
  rw [diskReadFile, if_neg (tracks_ne_zero hdir), hdir]
  dsimp only
  generalize parseCpmName filename = parsed at hname ⊢
  subst hname
  rfl

section RoundTrip

variable {d d' : Slots.Drive} {filename full name blocks : List UInt8} {dir : Dir}

theorem WriteDone.readFile_eq (h : WriteDone d d' filename full name dir blocks) (hd : Formatted d)
    (hsmall : full.length + blockSize ≤ 2 ^ 32) (hfull : full ≠ []) (h7 : ∀ b ∈ name, b < 0x80) :
    diskReadFile d' filename = .ok (paddedRecords full) := by
  have hname := parseCpmName_length h.parsed
  have hmap := (map_and_7F_eq_iff name).mpr h7
  have hpos : 0 < full.length := List.length_pos_of_ne_nil hfull
  have hmod : full.length % 2 ^ 32 = full.length :=
    Nat.mod_eq_of_lt (Nat.lt_of_lt_of_le (Nat.lt_add_of_pos_right (by decide)) hsmall)
  have hcount : blocks.length = (full.length + 1023) / 1024 := by
    rw [h.enough, hmod, blocksNeeded_of_small hsmall]
  have hafter := h.after
  rw [hmod] at hafter
  have hfree : ∀ b ∈ blocks, b ∈ findFreeBlocks dir := fun b hb => by
    rw [h.taken] at hb
    exact List.mem_of_mem_take hb
  have hzero : ∀ b ∈ blocks, b ≠ 0 := by
    rintro b hb rfl
    have := (findFreeBlocks_bounds (hfree 0 hb)).1
    exact absurd this (by decide)
  have hextents : extentsNeeded blocks.length ≤ 2048 := by
    have hshape := readDirectory_shaped hd h.before
    have hle : dir.countP isDeleted ≤ 64 := Nat.le_trans List.countP_le_length (Nat.le_of_eq hshape.length)
    exact Nat.le_trans h.room (Nat.le_trans hle (by decide))
  -- the first entry found is the first of the new ones, and all of its file's are the new ones
  have hfind : (fillFree isDeleted dir (newEntries name blocks full.length)).find? (isNamed name) =
      some (newEntry name blocks full.length 0) := by
    rw [← List.head?_filter, filter_isNamed_newEntries hname hmap h.fresh h.room, newEntries, List.head?_map,
      List.head?_range, if_neg (by omega)]
    rfl
  have hexts : fileExtents (fillFree isDeleted dir (newEntries name blocks full.length))
      (newEntry name blocks full.length 0) = newEntries name blocks full.length := by
    rw [fileExtents, filter_sameFile_newEntries hname hmap h.fresh h.room]
    exact (newEntries_sorted hname hextents).insertionSort_eq
  obtain ⟨last, hlast, hsize⟩ := size_newEntries hname hcount hpos
  have hfileSize : computeFileSize (fillFree isDeleted dir (newEntries name blocks full.length))
      (newEntry name blocks full.length 0) = (full.length + 127) / 128 * 128 := by
    rw [computeFileSize, hexts, hlast]
    exact hsize
  have hfileBlocks : getFileBlocks (fillFree isDeleted dir (newEntries name blocks full.length))
      (newEntry name blocks full.length 0) = blocks := by
    rw [getFileBlocks, hexts, flatMap_blocksOf_newEntries hname hzero]
  have hpadded : (paddedData full blocks.length).length = blocks.length * blockSize := by
    rw [paddedData, List.length_append, List.length_replicate, blockSize, hcount]
    omega
  rw [diskReadFile_eq hafter h.parsed, hfind]
  dsimp only
  rw [hfileSize, hfileBlocks, readBlocks_eq (paddedData full blocks.length) blocks
    (fun i b hi => by rw [Nat.zero_add]; exact h.data hsmall i b hi) (by rw [hpadded, Nat.zero_add]) (by omega)
    (by rw [hcount, blockSize]; omega)]
  -- the padding up to the record is a part of the padding up to the block
  rw [slice, List.drop_zero, Nat.sub_zero, paddedData, paddedRecords, List.take_append, List.take_replicate,
    List.take_of_length_le (by omega)]
  congr 3
  rw [hcount, blockSize]
  omega

theorem WriteDone.readFile_of_empty (h : WriteDone d d' filename full name dir blocks) (hfull : full = []) :
    diskReadFile d' filename = .error (.notFound filename) := by
  have hnone : blocks.length = 0 := by
    rw [h.enough, hfull]
    rfl
  have hfind : (fillFree isDeleted dir (newEntries name blocks (full.length % 2 ^ 32))).find? (isNamed name) = none := by
    rw [newEntries, hnone, List.range_zero, List.map_nil, fillFree_nil, List.find?_eq_none]
    simpa using h.fresh
  rw [diskReadFile_eq h.after h.parsed, hfind]

theorem WriteDone.readFile_of_high (h : WriteDone d d' filename full name dir blocks)
    (hhigh : ¬ ∀ b ∈ name, b < 0x80) : diskReadFile d' filename = .error (.notFound filename) := by
  rw [diskReadFile_eq h.after h.parsed, find?_isNamed_of_high hhigh]

end RoundTrip

theorem writeDone_of_ok {d d' : Slots.Drive} {filename data : List UInt8} {addHeader : Bool} {loadAddr execAddr : UInt16}
    {type : AmsdosFileType} (hd : Formatted d)
    (hok : diskWriteFile d filename data addHeader loadAddr execAddr type = (d', none)) : ∃ name dir blocks,
      WriteDone d d' filename (fullData filename data addHeader loadAddr execAddr type) name dir blocks := by
  rcases diskWriteFile_cases hd filename data addHeader loadAddr execAddr type with
    ⟨err, herr⟩ | ⟨dir, d₁, err, -, -, herr⟩ | ⟨d₁, name, dir, blocks, h, hrun⟩
  · rw [hok] at herr
    cases herr
  · rw [hok] at herr
    cases herr
  · rw [hok] at hrun
    cases hrun
    exact ⟨name, dir, blocks, h⟩

/-- The bytes the free blocks of a drive hold. -/
def freeSpace (d : Slots.Drive) : Nat :=
  match readDirectory d with
  | none => 0
  | some dir => (findFreeBlocks dir).length * blockSize

theorem freeSpace_le (d : Slots.Drive) : freeSpace d ≤ 2 ^ 18 := by
  rw [freeSpace]
  split
  · exact Nat.zero_le _
  · have hle : ∀ dir, (findFreeBlocks dir).length ≤ 178 := fun dir =>
      Nat.le_trans (List.length_filter_le _ _) (by rw [List.length_map, List.length_range']; decide)
    exact Nat.le_trans (Nat.mul_le_mul_right _ (hle _)) (by decide)

/-- The file reads back as its content in whole records, and its header, if it has one, as what it was
    made from. -/
def ReadsBack (d : Slots.Drive) (filename data : List UInt8) (addHeader : Bool) (loadAddr execAddr : UInt16)
    (type : AmsdosFileType) : Prop :=
  diskReadFile d filename = .ok (paddedRecords (fullData filename data addHeader loadAddr execAddr type)) ∧
  (addHeader = true →
    parseAmsdosHeader (paddedRecords (fullData filename data addHeader loadAddr execAddr type)) =
      { valid := true, type := type, loadAddr := loadAddr, execAddr := execAddr, fileLength := data.length })

/-- A file that fits and is reported written reads back exactly when there is something to write and its
    name is in seven bits. -/
theorem writeFile_readFile_iff {d d' : Slots.Drive} {filename data : List UInt8} {addHeader : Bool}
    {loadAddr execAddr : UInt16} {type : AmsdosFileType} (hd : Formatted d)
    (hfit : (fullData filename data addHeader loadAddr execAddr type).length ≤ freeSpace d)
    (hok : diskWriteFile d filename data addHeader loadAddr execAddr type = (d', none)) :
    ReadsBack d' filename data addHeader loadAddr execAddr type ↔
      fullData filename data addHeader loadAddr execAddr type ≠ [] ∧ ∀ c ∈ filename, c < 0x80 := by
  obtain ⟨name, dir, blocks, h⟩ := writeDone_of_ok hd hok
  have hsmall := Nat.le_trans hfit (freeSpace_le d)
  rw [← parseCpmName_lt_iff h.parsed]
  constructor
  · -- without content or with a high bit in the name, no entry is found
    rintro ⟨hread, -⟩
    refine ⟨fun hempty => ?_, ?_⟩
    · rw [h.readFile_of_empty hempty] at hread
      cases hread
    · by_contra hhigh
      rw [h.readFile_of_high hhigh] at hread
      cases hread
  · rintro ⟨hfull, h7⟩
    refine ⟨h.readFile_eq hd (Nat.le_trans (Nat.add_le_add_right hsmall _) (by decide)) hfull h7, ?_⟩
    intro hheader
    have hdata : data.length < 2 ^ 24 := by
      rw [fullData, List.length_append] at hsmall
      omega
    rw [fullData, hheader, if_pos rfl, paddedRecords, List.append_assoc, Nat.mod_eq_of_lt (by omega)]
    exact parseAmsdosHeader_makeAmsdosHeader h.parsed hdata _

/-! ## A blank disc -/

theorem eq_of_snd_none {α β : Type} {result : α × Option β} (h : result.2 = none) : result = (result.1, none) := by
  rw [← h]

theorem dskFormat_dataFormat_isSome : (dskFormat dataFormat).isSome := by decide

/-- A data disc as it is formatted. -/
def blankDisc : Slots.Drive := (dskFormat dataFormat).get dskFormat_dataFormat_isSome

theorem blankDisc_formatted : Formatted blankDisc :=
  @formatted_of_dskFormat dataFormat _ (by decide) (Option.some_get dskFormat_dataFormat_isSome).symm

/-- One byte, as file `A` of a blank disc, reads back. -/
theorem writeFile_readFile_one_byte : ReadsBack (diskWriteFile blankDisc [0x41] [7] false 0 0 .binary).1 [0x41] [7]
    false 0 0 .binary :=
  (writeFile_readFile_iff blankDisc_formatted (by decide)
    (eq_of_snd_none (by decide))).mpr ⟨by decide, List.forall_mem_singleton.mpr (by decide)⟩

/-- No bytes, as file `A` of a blank disc: the write reports success, and the read finds no such file. -/
theorem empty_file_not_found : Formatted blankDisc ∧
    (diskWriteFile blankDisc [0x41] [] false 0 0 .binary).2 = none ∧
    diskReadFile (diskWriteFile blankDisc [0x41] [] false 0 0 .binary).1 [0x41] = .error (.notFound [0x41]) := by
  have hok : (diskWriteFile blankDisc [0x41] [] false 0 0 .binary).2 = none := by decide
  refine ⟨blankDisc_formatted, hok, ?_⟩
  obtain ⟨name, dir, blocks, h⟩ := writeDone_of_ok blankDisc_formatted (eq_of_snd_none hok)
  exact h.readFile_of_empty rfl

end Koncepcja.Cpm
