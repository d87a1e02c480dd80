import Koncepcja.Cpm.Blocks
import Koncepcja.Lib.FreeSlots

/-!
# What a File Write Leaves on the Disc

`disk_write_file` and `disk_delete_file` as their effects: which blocks they may touch, and what the
directory and the data blocks hold when they report success.

## Main results

- `addExtents_eq`: the directory entries go into the free slots in order.
- `writeData_spec`: the data blocks hold the data, filled up with `0xE5`.
- `diskWriteFile_ok`, `diskWriteFile_error`: a write that succeeds, and one that does not.
- `diskDeleteFile_ok`, `diskDeleteFile_error`: the same for a deletion.
-/

namespace Koncepcja.Cpm

open Koncepcja.Bytes Koncepcja.Disk Koncepcja.Slots Koncepcja.FreeSlots

/-! ## Names -/

theorem parseCpmName_length {display name : List UInt8} (h : parseCpmName display = some name) : name.length = 11 := by
  simp only [parseCpmName] at h
  split at h
  · cases h
  · next hshort =>
    cases h
    simp only [padName, List.length_append, List.length_replicate]
    omega

/-! ## New entries -/

section Entry

variable {name blocks : List UInt8} {ext bytes : Nat}

theorem extentEntry_length (hname : name.length = 11) (hblocks : blocks.length ≤ 16) :
    (extentEntry name ext bytes blocks).length = dirEntrySize := by
  simp only [extentEntry, List.length_append, List.length_cons, List.length_nil, List.length_replicate, hname,
    dirEntrySize]
  omega

@[simp] theorem isLive_extentEntry : isLive (extentEntry name ext bytes blocks) = true := rfl

theorem nameOf_extentEntry (hname : name.length = 11) :
    nameOf (extentEntry name ext bytes blocks) = name.map (· &&& 0x7F) := by
  rw [nameOf, slice, extentEntry, List.append_assoc, List.append_assoc, List.cons_append, List.drop_succ_cons,
    List.drop_zero, List.take_left' hname]

theorem byteAt_extentEntry (hname : name.length = 11) {i : Nat} (hi : i < 4) :
    byteAt (extentEntry name ext bytes blocks) (12 + i) =
      byteAt [UInt8.ofNat (ext % 32), 0, UInt8.ofNat (ext / 32 % 64),
        UInt8.ofNat (min ((bytes + recordSize - 1) / recordSize) recordsPerExtent)] i := by
  have hdrop : (extentEntry name ext bytes blocks).drop 12 =
      [UInt8.ofNat (ext % 32), 0, UInt8.ofNat (ext / 32 % 64),
        UInt8.ofNat (min ((bytes + recordSize - 1) / recordSize) recordsPerExtent)] ++
        (blocks ++ List.replicate (16 - blocks.length) 0) := by
    rw [extentEntry, List.append_assoc, List.append_assoc, List.drop_left' (by rw [List.length_cons, hname])]
  rw [← byteAt_drop, hdrop, byteAt_append_of_lt _ _ hi]

theorem extentNum_extentEntry (hname : name.length = 11) (hext : ext < 2048) :
    extentNum (extentEntry name ext bytes blocks) = ext := by
  rw [extentNum, byteAt_extentEntry (i := 0) hname (by decide), byteAt_extentEntry (i := 2) hname (by decide)]
  change (UInt8.ofNat (ext % 32)).toNat + (UInt8.ofNat (ext / 32 % 64)).toNat * 32 = ext
  rw [UInt8.toNat_ofNat', UInt8.toNat_ofNat']
  omega

theorem recordCount_extentEntry (hname : name.length = 11) :
    (recordCount (extentEntry name ext bytes blocks)).toNat = min ((bytes + recordSize - 1) / recordSize) 128 := by
  rw [recordCount, byteAt_extentEntry (i := 3) hname (by decide)]
  change (UInt8.ofNat (min ((bytes + recordSize - 1) / recordSize) 128)).toNat = _
  rw [UInt8.toNat_ofNat']
  exact Nat.mod_eq_of_lt (Nat.lt_of_le_of_lt (Nat.min_le_right _ _) (by decide))

theorem blocksOf_extentEntry (hname : name.length = 11) (hblocks : blocks.length ≤ 16) (hzero : ∀ b ∈ blocks, b ≠ 0) :
    blocksOf (extentEntry name ext bytes blocks) = blocks := by
  have hdrop : (extentEntry name ext bytes blocks).drop 16 = blocks ++ List.replicate (16 - blocks.length) 0 := by
    rw [extentEntry, List.append_assoc, List.drop_left' (by simp [hname])]
  rw [blocksOf, slice, hdrop, List.take_of_length_le (by simp; omega), List.filter_append,
    List.filter_eq_self.mpr (by simpa using hzero), List.filter_eq_nil_iff.mpr (by simp), List.append_nil]

end Entry

/-! ## The extents of a file -/

theorem extentBytes_eq (n remaining : Nat) :
    extentBytes n remaining = (min (n * blockSize) remaining, remaining - n * blockSize) := by
  induction n generalizing remaining with
  | zero => simp [extentBytes]
  | succ n ih =>
    rw [extentBytes, ih]
    simp only [blockSize, Prod.mk.injEq]
    omega

/-- The `k`-th sixteen of a file's blocks. -/
def extentBlocks (blocks : List UInt8) (k : Nat) : List UInt8 := (blocks.drop (k * 16)).take 16

/-- The `k`-th directory entry of a file. -/
def newEntry (name blocks : List UInt8) (total k : Nat) : List UInt8 :=
  extentEntry name k (min ((extentBlocks blocks k).length * blockSize) (total - k * extentSize)) (extentBlocks blocks k)

/-- The directory entries of a file. -/
def newEntries (name blocks : List UInt8) (total : Nat) : List (List UInt8) :=
  (List.range ((blocks.length + 15) / 16)).map (newEntry name blocks total)

theorem extentBlocks_length_le (blocks : List UInt8) (k : Nat) : (extentBlocks blocks k).length ≤ 16 := by
  rw [extentBlocks, List.length_take]
  exact Nat.min_le_left _ _

theorem mem_of_mem_extentBlocks {blocks : List UInt8} {k : Nat} {b : UInt8} (h : b ∈ extentBlocks blocks k) :
    b ∈ blocks := List.mem_of_mem_drop (List.mem_of_mem_take h)

theorem flatMap_extentBlocks (blocks : List UInt8) (n : Nat) :
    (List.range n).flatMap (extentBlocks blocks) = blocks.take (n * 16) := by
  induction n with
  | zero => simp
  | succ n ih =>
    rw [List.range_succ, List.flatMap_append, ih, List.flatMap_singleton, extentBlocks, Nat.succ_mul, List.take_add]

/-- The entries go into the free slots one after another. The loop has `blocks.drop (ext * 16)` and
    `total - ext * 16384` bytes left when it makes entry `ext`. -/
theorem addExtents_eq (name : List UInt8) {blocks : List UInt8} {total : Nat} (htotal : total ≤ blocks.length * blockSize)
    (count ext : Nat) (dir : Dir) (hroom : count ≤ dir.countP isDeleted) :
    addExtents name count ext (total - ext * extentSize) (blocks.drop (ext * 16)) dir =
      some (fillFree isDeleted dir ((List.range' ext count).map (newEntry name blocks total))) := by
  induction count generalizing ext dir with
  | zero => rw [addExtents, List.range'_zero, List.map_nil, fillFree_nil]
  | succ count ih =>
    obtain ⟨slot, hslot⟩ := findIdx?_of_countP_pos (Nat.lt_of_lt_of_le (Nat.succ_pos _) hroom)
    have hcount := countP_set_findIdx? (newEntry name blocks total ext) hslot rfl
    rw [addExtents, hslot]
    dsimp only
    rw [extentBytes_eq]
    dsimp only
    -- a short extent is the last: nothing remains after it
    have hleft : total - ext * extentSize - ((blocks.drop (ext * 16)).take blocksPerExtent).length * blockSize =
        total - (ext + 1) * extentSize := by
      simp only [List.length_take, List.length_drop, blocksPerExtent, blockSize, extentSize] at htotal ⊢
      omega
    have hdrop : (blocks.drop (ext * 16)).drop blocksPerExtent = blocks.drop ((ext + 1) * 16) := by
      rw [List.drop_drop, Nat.succ_mul]
      rfl
    rw [hleft, hdrop]
    have hstep := ih (ext + 1) (dir.set slot (newEntry name blocks total ext)) (by omega)
    rw [List.range'_succ, List.map_cons, fillFree_cons hslot rfl]
    exact hstep

/-! ## Free blocks -/

theorem findFreeBlocks_bounds {dir : Dir} {b : UInt8} (h : b ∈ findFreeBlocks dir) :
    2 ≤ b.toNat ∧ b.toNat < totalBlocks := by
  obtain ⟨n, hn, rfl⟩ := List.mem_map.mp (List.mem_filter.mp h).1
  rw [List.mem_range'_1] at hn
  simp only [totalBlocks] at hn ⊢
  rw [UInt8.toNat_ofNat']
  omega

theorem findFreeBlocks_nodup (dir : Dir) : (findFreeBlocks dir).Nodup := by
  refine List.Nodup.filter _ ((List.nodup_range' (s := 2) (n := totalBlocks - 2)).map_on ?_)
  intro a ha b hb hab
  rw [List.mem_range'_1] at ha hb
  have h := congrArg UInt8.toNat hab
  rw [UInt8.toNat_ofNat', UInt8.toNat_ofNat'] at h
  simp only [totalBlocks] at ha hb
  omega

theorem findFreeBlocks_unclaimed {dir : Dir} {b : UInt8} (h : b ∈ findFreeBlocks dir) {e : List UInt8} (he : e ∈ dir)
    (hlive : isLive e = true) : b ∉ blocksOf e := by
  intro hb
  have hfree := (List.mem_filter.mp h).2
  simp only [decide_eq_true_eq] at hfree
  exact hfree (List.mem_flatMap.mpr ⟨e, List.mem_filter.mpr ⟨he, hlive⟩, hb⟩)

/-! ## The data -/

/-- `bytes`, filled up with `0xE5` to whole blocks. -/
def paddedData (bytes : List UInt8) (blocks : Nat) : List UInt8 :=
  bytes ++ List.replicate (blocks * blockSize - bytes.length) 0xE5

/-- Blocks a list of block numbers names. -/
def blocksIn (blocks : List UInt8) (b : Nat) : Prop := ∃ x ∈ blocks, x.toNat = b

/-- `to_copy`. -/
def copySize (total offset : Nat) : Nat := if total < offset + blockSize then total - offset else blockSize

/-- What one turn of the loop writes. -/
def blockData (full : List UInt8) (total offset : Nat) : List UInt8 :=
  slice full offset (copySize total offset) ++ List.replicate (blockSize - copySize total offset) 0xE5

theorem copySize_le (total offset : Nat) : copySize total offset ≤ blockSize := by
  rw [copySize]
  split <;> omega

theorem offset_add_copySize_le {total offset : Nat} (h : offset ≤ total) : offset + copySize total offset ≤ total := by
  rw [copySize]
  split <;> omega

theorem blockData_length {full : List UInt8} {total offset : Nat} (htotal : total ≤ full.length)
    (hoff : offset ≤ total) : (blockData full total offset).length = blockSize := by
  have hle := copySize_le total offset
  have hend := offset_add_copySize_le hoff
  rw [blockData, List.length_append, List.length_replicate, slice_length (by omega)]
  omega

theorem blockData_eq {full : List UInt8} {offset n : Nat} (hoff : offset ≤ full.length)
    (hend : offset + blockSize ≤ n * blockSize) :
    blockData full full.length offset = slice (paddedData full n) offset blockSize := by
  rw [blockData, slice, slice, paddedData, List.drop_append_of_le_length hoff, List.take_append, List.take_replicate,
    List.length_drop, copySize]
  split
  · -- the last block: the data runs out, and the padding fills it
    rw [List.take_of_length_le (Nat.le_of_eq List.length_drop),
      List.take_of_length_le (by rw [List.length_drop]; omega)]
    congr 2
    omega
  · rw [Nat.sub_self, List.replicate_zero]
    congr 1
    rw [Nat.sub_eq_zero_of_le (by omega), Nat.zero_min, List.replicate_zero]

theorem writeData_cons (full : List UInt8) (total : Nat) (block : UInt8) (blocks : List UInt8) (offset : Nat)
    (d : Slots.Drive) : writeData full total (block :: blocks) offset d =
      match writeBlock d block.toNat (blockData full total offset) with
      | (d', false) => (d', some block)
      | (d', true) => writeData full total blocks (offset + copySize total offset) d' := rfl

theorem writeData_frame {full : List UInt8} {total : Nat} (htotal : total ≤ full.length) (blocks : List UInt8)
    {offset : Nat} (hoff : offset ≤ total) {d : Slots.Drive} (hd : Formatted d) :
    Frame (blocksIn blocks) d (writeData full total blocks offset d).1 := by
  induction blocks generalizing offset d with
  | nil => exact Frame.refl _ d
  | cons block blocks ih =>
    have hframe := writeBlock_frame block.toNat hd (blockData_length htotal hoff)
    rw [writeData_cons]
    generalize writeBlock d block.toNat (blockData full total offset) = result at hframe ⊢
    obtain ⟨d₁, ok⟩ := result
    have hfirst : Frame (blocksIn (block :: blocks)) d d₁ :=
      hframe.mono fun b hb => ⟨block, List.mem_cons_self, hb.symm⟩
    cases ok with
    | false => exact hfirst
    | true =>
      refine hfirst.trans ((ih (offset_add_copySize_le hoff) (hframe.formatted hd)).mono ?_)
      rintro b ⟨x, hx, rfl⟩
      exact ⟨x, List.mem_cons_of_mem _ hx, rfl⟩

/-- Once the data is written, each block holds its part of the padded data. Only the last block can be
    short, which is what the bound on `full.length` says. -/
theorem writeData_spec {full : List UInt8} (n : Nat) (blocks : List UInt8) (hnodup : blocks.Nodup) {offset : Nat}
    (hoff : offset ≤ full.length) (hn : offset + blocks.length * blockSize ≤ n * blockSize)
    (hlast : offset + blocks.length * blockSize < full.length + blockSize) {d : Slots.Drive} (hd : Formatted d)
    (hok : (writeData full full.length blocks offset d).2 = none) {i : Nat} {b : UInt8} (hi : blocks[i]? = some b) :
    readBlock (writeData full full.length blocks offset d).1 b.toNat =
      some (slice (paddedData full n) (offset + i * blockSize) blockSize) := by
  induction blocks generalizing offset d i with
  | nil => cases hi
  | cons block blocks ih =>
    obtain ⟨hnew, hnodup'⟩ := List.nodup_cons.mp hnodup
    have hlen := blockData_length (Nat.le_refl full.length) hoff
    have hframe := writeBlock_frame block.toNat hd hlen
    have hread : (writeBlock d block.toNat (blockData full full.length offset)).2 = true → _ :=
      readBlock_writeBlock hd hlen
    rw [List.length_cons, Nat.succ_mul] at hn hlast
    rw [writeData_cons] at hok ⊢
    generalize writeBlock d block.toNat (blockData full full.length offset) = result at hframe hread hok ⊢
    obtain ⟨d₁, ok⟩ := result
    cases ok with
    | false => cases hok
    | true =>
      have hd₁ := hframe.formatted hd
      dsimp only at hok hread ⊢
      cases i with
      | zero =>
        -- the blocks after it are others, so it keeps what was written
        cases hi
        have hrest := writeData_frame (Nat.le_refl full.length) blocks (offset_add_copySize_le hoff) hd₁
        rw [hrest.block _ ?_, hread rfl, blockData_eq (n := n) hoff (by omega), Nat.zero_mul, Nat.add_zero]
        rintro ⟨x, hx, hxb⟩
        rw [UInt8.toNat_inj.mp hxb] at hx
        exact hnew hx
      | succ i =>
        have hpos : 0 < blocks.length := by
          cases blocks with
          | nil => cases hi
          | cons c cs => exact Nat.succ_pos _
        have hlt : blockSize ≤ blocks.length * blockSize := Nat.le_mul_of_pos_left _ hpos
        have hcopy : copySize full.length offset = blockSize := if_neg (by omega)
        rw [hcopy] at hok ⊢
        rw [ih hnodup' (by omega) (by omega) (by omega) hd₁ hok (by simpa using hi), Nat.succ_mul, Nat.add_assoc,
          Nat.add_comm blockSize]

/-! ## Writing a file -/

theorem blocksNeeded_spec {total : Nat} (h : total < 2 ^ 32) :
    blocksNeeded total = 0 ∨ total ≤ blocksNeeded total * blockSize := by
  simp only [blocksNeeded, blockSize]
  omega

theorem blocksNeeded_of_small {total : Nat} (h : total + blockSize ≤ 2 ^ 32) :
    blocksNeeded total = (total + 1023) / 1024 := by
  simp only [blocksNeeded, blockSize] at h ⊢
  omega

/-- What a write that reports success has done. -/
structure WriteDone (d d' : Slots.Drive) (filename full name : List UInt8) (dir : Dir) (blocks : List UInt8) : Prop where
  parsed : parseCpmName filename = some name
  before : readDirectory d = some dir
  fresh : dir.any (isNamed name) = false
  taken : blocks = (findFreeBlocks dir).take (blocksNeeded (full.length % 2 ^ 32))
  enough : blocks.length = blocksNeeded (full.length % 2 ^ 32)
  room : extentsNeeded blocks.length ≤ dir.countP isDeleted
  after : readDirectory d' = some (fillFree isDeleted dir (newEntries name blocks (full.length % 2 ^ 32)))
  frame : Frame (fun b => b < 2 ∨ blocksIn blocks b) d d'
  data : full.length + blockSize ≤ 2 ^ 32 → ∀ i b, blocks[i]? = some b →
    readBlock d' b.toNat = some (slice (paddedData full blocks.length) (i * blockSize) blockSize)

theorem fillFree_shaped {dir : Dir} (hdir : DirShaped dir) {name : List UInt8} (hname : name.length = 11)
    (blocks : List UInt8) (total : Nat) : DirShaped (fillFree isDeleted dir (newEntries name blocks total)) where
  length := by rw [fillFree_length, hdir.length]
  entry e he := by
    rcases mem_fillFree he with h | h
    · exact hdir.entry e h
    · obtain ⟨k, _, rfl⟩ := List.mem_map.mp h
      exact extentEntry_length hname (extentBlocks_length_le _ _)

theorem addExtents_newEntries {dir : Dir} (name : List UInt8) {blocks : List UInt8} {total : Nat}
    (htotal : blocks.length = 0 ∨ total ≤ blocks.length * blockSize)
    (hroom : extentsNeeded blocks.length ≤ dir.countP isDeleted) :
    addExtents name (extentsNeeded blocks.length) 0 total blocks dir =
      some (fillFree isDeleted dir (newEntries name blocks total)) := by
  rcases htotal with hnone | htotal
  · rw [hnone, newEntries, hnone, List.range_zero, List.map_nil, fillFree_nil]
    rfl
  · have h := addExtents_eq name htotal _ 0 dir hroom
    rw [Nat.zero_mul, Nat.sub_zero, Nat.zero_mul, List.drop_zero] at h
    rw [h, newEntries, List.range_eq_range']
    rfl

section Write

variable {d : Slots.Drive}

theorem blocksIn_ge_two {dir : Dir} {blocks : List UInt8} (hfree : ∀ b ∈ blocks, b ∈ findFreeBlocks dir) {b : Nat}
    (hb : b < 2) : ¬ blocksIn blocks b := by
  rintro ⟨x, hx, rfl⟩
  have := (findFreeBlocks_bounds (hfree x hx)).1
  omega

theorem writtenData {full blocks : List UInt8} (hnodup : blocks.Nodup)
    (hlen : blocks.length = blocksNeeded (full.length % 2 ^ 32)) (hd : Formatted d)
    (hsmall : full.length + blockSize ≤ 2 ^ 32) (hok : (writeData full (full.length % 2 ^ 32) blocks 0 d).2 = none)
    {i : Nat} {b : UInt8} (hi : blocks[i]? = some b) :
    readBlock (writeData full (full.length % 2 ^ 32) blocks 0 d).1 b.toNat =
      some (slice (paddedData full blocks.length) (i * blockSize) blockSize) := by
  have hmod : full.length % 2 ^ 32 = full.length :=
    Nat.mod_eq_of_lt (Nat.lt_of_lt_of_le (Nat.lt_add_of_pos_right (by decide)) hsmall)
  rw [hmod] at hlen hok ⊢
  rw [blocksNeeded_of_small hsmall] at hlen
  have hlast : 0 + blocks.length * blockSize < full.length + blockSize := by
    rw [hlen, blockSize]
    omega
  rw [writeData_spec blocks.length blocks hnodup (Nat.zero_le _) (by rw [Nat.zero_add]) hlast hd hok hi, Nat.zero_add]

/-- What a write can do: it changes nothing and reports an error, it reports an error with at most free
    blocks written, or it succeeds. -/
theorem diskWriteFile_cases (hd : Formatted d) (filename data : List UInt8) (addHeader : Bool)
    (loadAddr execAddr : UInt16) (type : AmsdosFileType) :
    (∃ err, diskWriteFile d filename data addHeader loadAddr execAddr type = (d, some err)) ∨
    (∃ dir d' err, readDirectory d = some dir ∧ Frame (blocksIn (findFreeBlocks dir)) d d' ∧
      diskWriteFile d filename data addHeader loadAddr execAddr type = (d', some err)) ∨
    ∃ d' name dir blocks,
      WriteDone d d' filename (fullData filename data addHeader loadAddr execAddr type) name dir blocks ∧
      diskWriteFile d filename data addHeader loadAddr execAddr type = (d', none) := by
  rw [diskWriteFile]
  generalize fullData filename data addHeader loadAddr execAddr type = full
  split
  · exact Or.inl ⟨_, rfl⟩
  · cases hname : parseCpmName filename with
    | none => exact Or.inl ⟨_, rfl⟩
    | some name =>
      cases hdir : readDirectory d with
      | none => exact Or.inl ⟨_, rfl⟩
      | some dir =>
        dsimp only
        split
        · exact Or.inl ⟨_, rfl⟩
        · next hfresh =>
          split
          · exact Or.inl ⟨_, rfl⟩
          · next henough =>
            split
            · exact Or.inl ⟨_, rfl⟩
            · next hroom =>
              right
              have henough' := Nat.not_lt.mp henough
              generalize hblocks : (findFreeBlocks dir).take (blocksNeeded (full.length % 2 ^ 32)) = blocks
              have hlen : blocks.length = blocksNeeded (full.length % 2 ^ 32) := by
                rw [← hblocks, List.length_take, Nat.min_eq_left henough']
              rw [← hlen] at hroom ⊢
              have hfree : ∀ b ∈ blocks, b ∈ findFreeBlocks dir := fun b hb =>
                List.mem_of_mem_take (by rw [hblocks]; exact hb)
              have hnodup : blocks.Nodup := by
                rw [← hblocks]
                exact (List.take_sublist _ _).nodup (findFreeBlocks_nodup dir)
              have hframe := writeData_frame (Nat.mod_le full.length (2 ^ 32)) blocks (Nat.zero_le _) hd
              have hspec := writtenData hnodup hlen hd
              generalize writeData full (full.length % 2 ^ 32) blocks 0 d = written at hframe hspec ⊢
              obtain ⟨d₁, failed⟩ := written
              cases failed with
              | some block =>
                exact Or.inl ⟨dir, d₁, _, rfl, hframe.mono fun b ⟨x, hx, hxb⟩ => ⟨x, hfree x hx, hxb⟩, rfl⟩
              | none =>
                right
                have htotal : blocks.length = 0 ∨ full.length % 2 ^ 32 ≤ blocks.length * blockSize := by
                  rw [hlen]
                  exact blocksNeeded_spec (Nat.mod_lt _ (by decide))
                rw [addExtents_newEntries name htotal (Nat.not_lt.mp hroom)]
                dsimp only
                have hd₁ := hframe.formatted hd
                have hshape := fillFree_shaped (readDirectory_shaped hd hdir) (parseCpmName_length hname) blocks
                  (full.length % 2 ^ 32)
                -- the blocks written lie past the directory, which can still be read and so be written
                have hold : readDirectory d₁ = some dir := by
                  rw [hframe.readDirectory_eq (blocksIn_ge_two hfree (by decide)) (blocksIn_ge_two hfree (by decide)),
                    hdir]
                have hok := writeDirectory_ok hd₁ hshape hold
                have hframe' := writeDirectory_frame hd₁ hshape
                have hread := readDirectory_writeDirectory hd₁ hshape hok
                generalize writeDirectory d₁ (fillFree isDeleted dir (newEntries name blocks (full.length % 2 ^ 32))) =
                  result at hok hframe' hread ⊢
                obtain ⟨d₂, ok⟩ := result
                cases hok
                refine ⟨d₂, name, dir, blocks, ?_, rfl⟩
                exact
                  { parsed := hname
                    before := hdir
                    fresh := by simpa using hfresh
                    taken := hblocks.symm
                    enough := hlen
                    room := Nat.not_lt.mp hroom
                    after := hread
                    frame := (hframe.mono fun b hb => Or.inr hb).trans (hframe'.mono fun b hb => Or.inl hb)
                    data := fun hsmall i b hi => by
                      have hb := (findFreeBlocks_bounds (hfree b (List.mem_of_getElem? hi))).1
                      rw [hframe'.block _ (by omega)]
                      exact hspec hsmall rfl hi }

end Write

/-! ## Deleting a file -/

/-- The directory with every entry of a name freed. -/
def deletedDir (name : List UInt8) (dir : Dir) : Dir :=
  dir.map fun e => if isNamed name e then e.set 0 deletedEntry else e

theorem deletedDir_shaped {dir : Dir} (hdir : DirShaped dir) (name : List UInt8) : DirShaped (deletedDir name dir) where
  length := by rw [deletedDir, List.length_map, hdir.length]
  entry e he := by
    obtain ⟨e', he', rfl⟩ := List.mem_map.mp he
    split
    · rw [List.length_set, hdir.entry e' he']
    · exact hdir.entry e' he'

theorem diskDeleteFile_cases {d : Slots.Drive} (hd : Formatted d) (filename : List UInt8) :
    (∃ err, diskDeleteFile d filename = (d, some err)) ∨
    ∃ d' name dir, diskDeleteFile d filename = (d', none) ∧ parseCpmName filename = some name ∧
      readDirectory d = some dir ∧ readDirectory d' = some (deletedDir name dir) ∧ Frame (· < 2) d d' := by
  rw [diskDeleteFile]
  split
  · exact Or.inl ⟨_, rfl⟩
  · cases hname : parseCpmName filename with
    | none => exact Or.inl ⟨_, rfl⟩
    | some name =>
      cases hdir : readDirectory d with
      | none => exact Or.inl ⟨_, rfl⟩
      | some dir =>
        dsimp only
        split
        · exact Or.inl ⟨_, rfl⟩
        · right
          -- The directory keeps its shape, so it goes back into the two blocks it came from.
          have hshape := deletedDir_shaped (readDirectory_shaped hd hdir) name
          have hok := writeDirectory_ok hd hshape hdir
          have hframe := writeDirectory_frame hd hshape
          have hread := readDirectory_writeDirectory hd hshape hok
          rw [← deletedDir]
          generalize writeDirectory d (deletedDir name dir) = result at hok hframe hread ⊢
          obtain ⟨d', ok⟩ := result
          cases hok
          exact ⟨d', name, dir, rfl, rfl, rfl, hread, hframe⟩

end Koncepcja.Cpm
