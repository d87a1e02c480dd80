import Koncepcja.Lib.ByteBuf
import Koncepcja.Lib.LittleEndian

/-!
# Cartridges

`src/cartridge.cpp`: a RIFF file of the form `AMS!` becomes an image of 32 pages, one for each chunk that is not empty,
and a table of pointers to them.

The bound of the loop counts the chunks without their pad bytes, so that nine of these make it look for one more
chunk. The image of the previous cartridge is given up before the file is looked at.

## Main results

- `walk_chunks`: what becomes of the chunks of a file.
- `slice_imageOf`: where a chunk is in the image.
- `cprLoad_riff`: which well-formed files are loaded, and with what image.
- `cprLoad_replaces`: after a load the table is that of the image, and the image is a new one or none.
- `cprLoad_spec`: both.
-/

namespace Koncepcja.Slots

open Koncepcja.Bytes

/-! ## The image -/

def cartridgeNbPages : Nat := 32
def cartridgePageSize : Nat := 16 * 1024
def cartridgeMaxSize : Nat := cartridgeNbPages * cartridgePageSize

/-- A place in an allocated image. -/
structure ImagePtr where
  allocation : Nat
  off : Nat
  deriving DecidableEq

/-- `pbCartridgeImage`, with the number of its allocation, `pbCartridgePages` and `pbROMlo`, as far as it points to a
    cartridge. -/
structure Cartridge where
  image : Option (Nat × List UInt8) := none
  pages : List (Option ImagePtr) := List.replicate cartridgeNbPages none
  romLo : Option ImagePtr := none
  /-- How many images have been allocated. -/
  allocations : Nat := 0

/-- `ERR_CPR_INVALID`: what a file that cannot be loaded is answered with. -/
inductive CprError where
  | cprInvalid
  deriving DecidableEq

def cprEject (s : Cartridge) : Cartridge :=
  { s with image := none, pages := List.replicate cartridgeNbPages none }

/-- The pointers to the pages of an image. -/
def pageTable (allocation : Nat) : List (Option ImagePtr) :=
  (List.range cartridgeNbPages).map fun i => some ⟨allocation, i * cartridgePageSize⟩

def cartridgeInit (s : Cartridge) : Cartridge :=
  { s with
    image := some (s.allocations, List.replicate cartridgeMaxSize 0)
    pages := pageTable s.allocations
    allocations := s.allocations + 1 }

/-! ## Loading -/

def readLe32 (p : List UInt8) : Nat := ofLe (p.take 4)

/-- `RIFF`. -/
def riffMagic : List UInt8 := [0x52, 0x49, 0x46, 0x46]
/-- `AMS!`. -/
def amsMagic : List UInt8 := [0x41, 0x4D, 0x53, 0x21]

/-- How much of a chunk of this size is kept, with the pad byte of an odd one. -/
def chunkKept (chunkSize : Nat) : Nat :=
  let kept := min chunkSize cartridgePageSize
  if kept % 2 ≠ 0 then kept + 1 else kept

/-- And what is skipped of a larger one, with its pad byte. -/
def chunkExcess (chunkSize : Nat) : Nat :=
  if cartridgePageSize ≤ chunkKept chunkSize ∧ chunkKept chunkSize < chunkSize then
    (chunkSize + 1) / 2 * 2 - chunkKept chunkSize
  else 0

/-- The walk over the chunks: `rest` is what is behind `cursor`. It ends with the image, and whether all was well. -/
def walk (totalSize offset cartridgeOffset : Nat) (rest image : List UInt8) : Bool × List UInt8 :=
  if offset < totalSize then
    if rest.length < 8 then (false, image)
    else
      let chunkSize := readLe32 (rest.drop 4)
      let offset := (offset + 8) % 2 ^ 32
      let kept := chunkKept chunkSize
      if kept = 0 then walk totalSize offset cartridgeOffset (rest.drop 8) image
      else if cartridgeMaxSize < cartridgeOffset + cartridgePageSize then (false, image)
      else if (rest.drop 8).length < kept then (false, image)
      else
        let image := overwrite image cartridgeOffset ((rest.drop 8).take kept)
        if ((rest.drop 8).drop kept).length < chunkExcess chunkSize then (false, image)
        else
          walk totalSize ((offset + chunkSize) % 2 ^ 32) (cartridgeOffset + cartridgePageSize)
            (((rest.drop 8).drop kept).drop (chunkExcess chunkSize)) image
  else (true, image)
termination_by rest.length
decreasing_by all_goals simp only [List.length_drop] at *; omega

/-- `cpr_load`, of an open file. -/
def cprLoad (file : List UInt8) (s : Cartridge) : Option CprError × Cartridge :=
  let s := cprEject s
  if file.length < 12 then (some .cprInvalid, s)
  else if file.take 4 ≠ riffMagic then (some .cprInvalid, s)
  else if slice file 8 4 ≠ amsMagic then (some .cprInvalid, s)
  else
    let s := cartridgeInit s
    let (ok, image) := walk (readLe32 (file.drop 4)) 12 0 (file.drop 12) (List.replicate cartridgeMaxSize 0)
    let s := { s with image := s.image.map fun p => (p.1, image) }
    if ok then (none, { s with romLo := s.image.map fun p => ⟨p.1, 0⟩ }) else (some .cprInvalid, s)

/-! ## Well-formed files -/

/-- A chunk of a RIFF file, and the byte that pads an odd one. -/
structure Chunk where
  id : List UInt8
  data : List UInt8
  pad : UInt8 := 0
  id_length : id.length = 4

/-- The data with its padding. -/
def Chunk.body (c : Chunk) : List UInt8 := if c.data.length % 2 = 0 then c.data else c.data ++ [c.pad]

def Chunk.bytes (c : Chunk) : List UInt8 := c.id ++ leBytes 4 c.data.length ++ c.body

/-- The file of some chunks. -/
def riff (chunks : List Chunk) : List UInt8 :=
  riffMagic ++ leBytes 4 (4 + (chunks.flatMap Chunk.bytes).length) ++ amsMagic ++ chunks.flatMap Chunk.bytes

/-- The chunks that get a page. -/
def pageChunks (chunks : List Chunk) : List Chunk := chunks.filter fun c => c.data.length ≠ 0

/-- The chunks with a pad byte. -/
def oddChunks (chunks : List Chunk) : List Chunk := chunks.filter fun c => c.data.length % 2 ≠ 0

/-- A chunk cut to a page, or filled up with zeros. -/
def Chunk.page (c : Chunk) : List UInt8 := growTo (c.body.take cartridgePageSize) cartridgePageSize 0

/-- The image of some chunks: their pages, and zeros behind them. -/
def imageOf (chunks : List Chunk) : List UInt8 :=
  growTo ((pageChunks chunks).flatMap Chunk.page) cartridgeMaxSize 0

/-! ## One chunk -/

theorem chunkKept_eq (n : Nat) : chunkKept n = min (n + n % 2) cartridgePageSize := by
  have hpage : cartridgePageSize = 16384 := rfl
  rw [chunkKept]
  split <;> omega

theorem chunkKept_add_chunkExcess (n : Nat) : chunkKept n + chunkExcess n = n + n % 2 := by
  have hpage : cartridgePageSize = 16384 := rfl
  rw [chunkExcess, chunkKept_eq]
  split <;> omega

theorem Chunk.body_length (c : Chunk) : c.body.length = c.data.length + c.data.length % 2 := by
  rw [Chunk.body]
  split
  · next h => rw [h, Nat.add_zero]
  · next h => rw [List.length_append, List.length_singleton, Nat.mod_two_ne_zero.mp h]

theorem Chunk.bytes_length (c : Chunk) : c.bytes.length = 8 + (c.data.length + c.data.length % 2) := by
  rw [Chunk.bytes, List.length_append, List.length_append, c.id_length, leBytes_length, c.body_length]

theorem Chunk.page_length (c : Chunk) : c.page.length = cartridgePageSize := by
  rw [Chunk.page, growTo_length, List.length_take]
  omega

theorem readLe32_leBytes {n : Nat} (h : n < 2 ^ 32) (rest : List UInt8) : readLe32 (leBytes 4 n ++ rest) = n := by
  rw [readLe32, List.take_left' (leBytes_length 4 n), ofLe_leBytes_of_lt h]

theorem walk_chunk {totalSize offset cartridgeOffset : Nat} {c : Chunk} {rest image : List UInt8}
    (hoffset : offset < totalSize) (hsize : c.data.length < 2 ^ 32) :
    walk totalSize offset cartridgeOffset (c.bytes ++ rest) image =
      if c.data.length = 0 then walk totalSize ((offset + 8) % 2 ^ 32) cartridgeOffset rest image
      else if cartridgeMaxSize < cartridgeOffset + cartridgePageSize then (false, image)
      else walk totalSize (((offset + 8) % 2 ^ 32 + c.data.length) % 2 ^ 32) (cartridgeOffset + cartridgePageSize) rest
        (overwrite image cartridgeOffset (c.body.take cartridgePageSize)) := by
  have hlen : 8 ≤ (c.bytes ++ rest).length := by
    rw [List.length_append, c.bytes_length]
    omega
  have hhead : (c.bytes ++ rest).drop 4 = leBytes 4 c.data.length ++ (c.body ++ rest) := by
    rw [Chunk.bytes, List.append_assoc, List.append_assoc, List.drop_left' c.id_length]
  have hbody : (c.bytes ++ rest).drop 8 = c.body ++ rest := by
    rw [← List.drop_drop (i := 4) (j := 4), hhead, List.drop_left' (leBytes_length 4 _)]
  have hkept : chunkKept c.data.length ≤ c.body.length := by
    rw [c.body_length, chunkKept_eq]
    exact min_le_left _ _
  -- The size is rounded up to pages, so it is zero only for an empty chunk.
  have hzero : chunkKept c.data.length = 0 ↔ c.data.length = 0 := by
    rw [chunkKept_eq, cartridgePageSize]
    omega
  have htake : (c.body ++ rest).take (chunkKept c.data.length) = c.body.take cartridgePageSize := by
    rw [List.take_append_of_le_length hkept, chunkKept_eq, ← c.body_length, min_comm, ← List.take_take, List.take_length]
  have hdrop : ((c.body ++ rest).drop (chunkKept c.data.length)).drop (chunkExcess c.data.length) = rest := by
    rw [List.drop_drop, chunkKept_add_chunkExcess, List.drop_left' c.body_length]
  -- The chunk is all there: neither its page nor what goes beyond is cut off.
  have hexcess : ¬((c.body ++ rest).drop (chunkKept c.data.length)).length < chunkExcess c.data.length := by
    have hsum := chunkKept_add_chunkExcess c.data.length
    rw [List.length_drop, List.length_append, c.body_length]
    omega
  have hroom : ¬(c.body ++ rest).length < chunkKept c.data.length := by
    rw [List.length_append]
    omega
  rw [walk, if_pos hoffset, if_neg (not_lt.mpr hlen)]
  dsimp only
  rw [hhead, readLe32_leBytes hsize, hbody, htake, hdrop, if_neg hexcess, if_neg hroom]
  simp only [hzero]
  split
  · next hempty =>
    have hnil : c.body = [] := List.eq_nil_of_length_eq_zero (by rw [c.body_length, hempty])
    rw [hnil, List.nil_append]
  · rfl

/-! ## The image -/

theorem overwrite_growTo {placed block : List UInt8} {page size : Nat} (hblock : block.length ≤ page)
    (hroom : placed.length + page ≤ size) :
    overwrite (growTo placed size 0) placed.length block = growTo (placed ++ growTo block page 0) size 0 := by
  have hdrop : (growTo placed size 0).drop (placed.length + block.length) =
      List.replicate (page - block.length) 0 ++ List.replicate (size - (placed.length + page)) 0 := by
    rw [growTo, ← List.drop_drop, List.drop_left, List.drop_replicate, ← List.replicate_add]
    congr 1
    omega
  have hlen : (placed ++ growTo block page 0).length = placed.length + page := by
    rw [List.length_append, growTo_length, max_eq_right hblock]
  rw [overwrite, hdrop, growTo, List.take_left, growTo, hlen, growTo]
  simp only [List.append_assoc]

theorem pages_length (chunks : List Chunk) : (chunks.flatMap Chunk.page).length = chunks.length * cartridgePageSize := by
  induction chunks with
  | nil => rw [List.flatMap_nil, List.length_nil, List.length_nil, Nat.zero_mul]
  | cons c chunks ih =>
    rw [List.flatMap_cons, List.length_append, c.page_length, ih, List.length_cons, Nat.succ_mul, Nat.add_comm]

theorem slice_pages {chunks : List Chunk} {i : Nat} {c : Chunk} (h : chunks[i]? = some c) (tail : List UInt8) :
    slice (chunks.flatMap Chunk.page ++ tail) (i * cartridgePageSize) cartridgePageSize = c.page := by
  induction chunks generalizing i with
  | nil => cases h
  | cons c₀ chunks ih =>
    rw [List.flatMap_cons, List.append_assoc]
    cases i with
    | zero =>
      cases h
      rw [Nat.zero_mul, slice, List.drop_zero, List.take_left' c.page_length]
    | succ i =>
      rw [slice, Nat.succ_mul, Nat.add_comm, ← List.drop_drop, List.drop_left' c₀.page_length]
      exact ih h

/-- Page `i` of the image is that of the chunk. -/
theorem slice_imageOf {chunks : List Chunk} {i : Nat} {c : Chunk} (h : (pageChunks chunks)[i]? = some c) :
    slice (imageOf chunks) (i * cartridgePageSize) cartridgePageSize = c.page :=
  slice_pages h _

/-! ## All chunks -/

theorem flatMap_bytes_length (chunks : List Chunk) :
    (chunks.flatMap Chunk.bytes).length = (chunks.map fun c => 8 + c.data.length).sum + (oddChunks chunks).length := by
  induction chunks with
  | nil => rfl
  | cons c chunks ih =>
    rw [List.flatMap_cons, List.length_append, c.bytes_length, ih, List.map_cons, List.sum_cons, oddChunks, oddChunks,
      List.filter_cons]
    rcases Nat.mod_two_eq_zero_or_one c.data.length with h | h
    · rw [h, if_neg (by decide)]
      omega
    · rw [h, if_pos (by decide), List.length_cons]
      omega

/-- The walk over the chunks of a file, of which `odd` pad bytes are behind it and `placed` in the image: the bound lags
    behind by the pad bytes, and is eight bytes ahead of the chunks. -/
theorem walk_chunks (chunks : List Chunk) {totalSize offset odd : Nat} (placed : List Chunk)
    (htotal : totalSize + 8 = offset + odd + (chunks.flatMap Chunk.bytes).length)
    (hoffset : offset + (chunks.map fun c => 8 + c.data.length).sum < 2 ^ 32)
    (hroom : placed.length + (pageChunks chunks).length ≤ cartridgeNbPages) :
    walk totalSize offset (placed.length * cartridgePageSize) (chunks.flatMap Chunk.bytes)
        (growTo (placed.flatMap Chunk.page) cartridgeMaxSize 0) =
      (decide (odd + (oddChunks chunks).length ≤ 8),
        growTo ((placed ++ pageChunks chunks).flatMap Chunk.page) cartridgeMaxSize 0) := by
  induction chunks generalizing offset odd placed with
  | nil =>
    rw [List.flatMap_nil, List.length_nil, Nat.add_zero] at htotal
    rw [walk, pageChunks, List.filter_nil, List.append_nil, oddChunks, List.filter_nil, List.length_nil, Nat.add_zero]
    by_cases hlt : offset < totalSize
    · -- The bound is not reached, and there is nothing left to read.
      rw [if_pos hlt, if_pos (by decide), decide_eq_false (by omega)]
    · rw [if_neg hlt, decide_eq_true (by omega)]
  | cons c chunks ih =>
    rw [List.flatMap_cons, List.length_append, c.bytes_length] at htotal
    rw [List.map_cons, List.sum_cons] at hoffset
    rw [List.flatMap_cons]
    by_cases hlt : offset < totalSize
    · rw [walk_chunk hlt (by omega)]
      rw [Nat.mod_eq_of_lt (by omega : offset + 8 < 2 ^ 32)]
      by_cases hempty : c.data.length = 0
      · have hpages : pageChunks (c :: chunks) = pageChunks chunks := List.filter_cons_of_neg (by simp [hempty])
        have hodds : oddChunks (c :: chunks) = oddChunks chunks := List.filter_cons_of_neg (by simp [hempty])
        rw [hpages] at hroom ⊢
        rw [if_pos hempty, hodds]
        rw [hempty] at htotal hoffset
        exact ih placed (by omega) (by omega) hroom
      · have hpages : pageChunks (c :: chunks) = c :: pageChunks chunks := List.filter_cons_of_pos (by simpa using hempty)
        have hodds : (oddChunks (c :: chunks)).length = (oddChunks chunks).length + c.data.length % 2 := by
          rw [oddChunks, List.filter_cons]
          rcases Nat.mod_two_eq_zero_or_one c.data.length with h | h
          · rw [h, if_neg (by decide)]
            rfl
          · rw [h, if_pos (by decide)]
            rfl
        rw [hpages, List.length_cons] at hroom
        have hfull : ¬cartridgeMaxSize < placed.length * cartridgePageSize + cartridgePageSize := by
          rw [← Nat.succ_mul]
          exact not_lt.mpr (Nat.mul_le_mul_right _ (by omega))
        have hblock : (c.body.take cartridgePageSize).length ≤ cartridgePageSize := by
          rw [List.length_take]
          exact min_le_left _ _
        have hsum : totalSize + 8 = offset + 8 + c.data.length + (odd + c.data.length % 2) +
            (chunks.flatMap Chunk.bytes).length := by omega
        rw [if_neg hempty, if_neg hfull, Nat.mod_eq_of_lt (by omega), ← pages_length,
          overwrite_growTo hblock (by rw [pages_length]; omega)]
        have hnext := ih (placed ++ [c]) hsum (by omega) (by rw [List.length_append, List.length_singleton]; omega)
        rw [List.length_append, List.length_singleton, Nat.succ_mul, List.flatMap_append, List.flatMap_singleton,
          ← pages_length, List.append_assoc, List.singleton_append] at hnext
        rw [hpages, hodds, Nat.add_comm (oddChunks chunks).length, ← Nat.add_assoc]
        exact hnext
    · -- The bound is reached only before a last chunk that is empty.
      have hempty : c.data.length = 0 := by omega
      have hnil : chunks = [] := by
        cases chunks with
        | nil => rfl
        | cons c' chunks =>
          rw [List.flatMap_cons, List.length_append, c'.bytes_length] at htotal
          omega
      subst hnil
      have hpages : pageChunks [c] = [] := List.filter_cons_of_neg (by simp [hempty])
      have hodds : oddChunks [c] = [] := List.filter_cons_of_neg (by simp [hempty])
      rw [walk, if_neg hlt, hpages, hodds, List.append_nil, List.length_nil, decide_eq_true (by omega)]

theorem walk_full (chunks : List Chunk) {totalSize offset odd placed : Nat} {image : List UInt8}
    (htotal : totalSize + 8 = offset + odd + (chunks.flatMap Chunk.bytes).length)
    (hoffset : offset + (chunks.map fun c => 8 + c.data.length).sum < 2 ^ 32) (hplaced : placed ≤ cartridgeNbPages)
    (hfull : cartridgeNbPages < placed + (pageChunks chunks).length) :
    (walk totalSize offset (placed * cartridgePageSize) (chunks.flatMap Chunk.bytes) image).1 = false := by
  induction chunks generalizing offset odd placed image with
  | nil =>
    rw [pageChunks, List.filter_nil, List.length_nil] at hfull
    omega
  | cons c chunks ih =>
    rw [List.flatMap_cons, List.length_append, c.bytes_length] at htotal
    rw [List.map_cons, List.sum_cons] at hoffset
    by_cases hempty : c.data.length = 0
    · have hpages : pageChunks (c :: chunks) = pageChunks chunks := List.filter_cons_of_neg (by simp [hempty])
      rw [hpages] at hfull
      have hlt : offset < totalSize := by
        -- More than one chunk is left.
        cases chunks with
        | nil =>
          rw [pageChunks, List.filter_nil, List.length_nil] at hfull
          omega
        | cons c' chunks =>
          rw [List.flatMap_cons, List.length_append, c'.bytes_length] at htotal
          omega
      rw [List.flatMap_cons, walk_chunk hlt (by omega), if_pos hempty, Nat.mod_eq_of_lt (by omega)]
      rw [hempty] at htotal hoffset
      have hsum : totalSize + 8 = offset + 8 + odd + (chunks.flatMap Chunk.bytes).length := by omega
      exact ih hsum (by omega) hplaced hfull
    · have hpages : pageChunks (c :: chunks) = c :: pageChunks chunks := List.filter_cons_of_pos (by simpa using hempty)
      rw [hpages, List.length_cons] at hfull
      rw [List.flatMap_cons, walk_chunk (by omega) (by omega), if_neg hempty]
      split
      · rfl
      · next hroom =>
        have hnext : placed + 1 ≤ cartridgeNbPages := by
          rw [cartridgeMaxSize, ← Nat.succ_mul] at hroom
          exact Nat.le_of_mul_le_mul_right (not_lt.mp hroom) (by decide)
        rw [← Nat.succ_mul, Nat.mod_eq_of_lt (by omega : offset + 8 < 2 ^ 32), Nat.mod_eq_of_lt (by omega)]
        have hsum : totalSize + 8 = offset + 8 + c.data.length + (odd + c.data.length % 2) +
            (chunks.flatMap Chunk.bytes).length := by omega
        exact ih hsum (by omega) hnext (by omega)

/-! ## Files -/

/-- The first twelve bytes of a CPR file. -/
structure HasHeader (file : List UInt8) : Prop where
  length : 12 ≤ file.length
  riff : file.take 4 = riffMagic
  ams : slice file 8 4 = amsMagic

theorem cprLoad_no_header {file : List UInt8} (h : ¬HasHeader file) (s : Cartridge) :
    cprLoad file s = (some .cprInvalid, cprEject s) := by
  rw [cprLoad]
  dsimp only
  by_cases hlen : file.length < 12
  · rw [if_pos hlen]
  · rw [if_neg hlen]
    by_cases hriff : file.take 4 = riffMagic
    · have hams : slice file 8 4 ≠ amsMagic := fun hams => h ⟨not_lt.mp hlen, hriff, hams⟩
      rw [if_neg (not_not.mpr hriff), if_pos hams]
    · rw [if_pos hriff]

theorem cprLoad_header {file : List UInt8} (h : HasHeader file) (s : Cartridge) {ok : Bool} {image : List UInt8}
    (hwalk : walk (readLe32 (file.drop 4)) 12 0 (file.drop 12) (List.replicate cartridgeMaxSize 0) = (ok, image)) :
    cprLoad file s =
      (if ok then none else some .cprInvalid,
        { s with
          image := some (s.allocations, image)
          pages := pageTable s.allocations
          allocations := s.allocations + 1
          romLo := if ok then some ⟨s.allocations, 0⟩ else s.romLo }) := by
  rw [cprLoad]
  dsimp only
  rw [if_neg (not_lt.mpr h.length), if_neg (not_not.mpr h.riff), if_neg (not_not.mpr h.ams), hwalk]
  cases ok <;> rfl

/-- After a load there is no cartridge, or one that was not there before and to whose pages the table points. -/
theorem cprLoad_replaces (file : List UInt8) (s : Cartridge) :
    ((cprLoad file s).2.image = none ∧ (cprLoad file s).2.pages = List.replicate cartridgeNbPages none) ∨
      ∃ image, (cprLoad file s).2.image = some (s.allocations, image) ∧
        (cprLoad file s).2.pages = pageTable s.allocations := by
  by_cases h : HasHeader file
  · rw [cprLoad_header h s rfl]
    exact Or.inr ⟨_, rfl, rfl⟩
  · rw [cprLoad_no_header h]
    exact Or.inl ⟨rfl, rfl⟩

section Riff

variable (chunks : List Chunk)

theorem riff_length : (riff chunks).length = 12 + (chunks.flatMap Chunk.bytes).length := by
  simp only [riff, List.length_append, leBytes_length, riffMagic, amsMagic, List.length_cons, List.length_nil]

theorem riff_hasHeader : HasHeader (riff chunks) where
  length := by
    rw [riff_length]
    omega
  riff := rfl
  ams := rfl

theorem readLe32_riff (hsize : (riff chunks).length < 2 ^ 32) :
    readLe32 ((riff chunks).drop 4) = 4 + (chunks.flatMap Chunk.bytes).length := by
  rw [riff_length] at hsize
  rw [riff, List.append_assoc, List.append_assoc, List.drop_left' (by rfl : riffMagic.length = 4)]
  exact readLe32_leBytes (by omega) _

theorem riff_drop : (riff chunks).drop 12 = chunks.flatMap Chunk.bytes := rfl

variable {chunks}

/-- A well-formed file is loaded if there are pages enough and pad bytes few enough. -/
theorem cprLoad_riff (hsize : (riff chunks).length < 2 ^ 32) (s : Cartridge) :
    ((cprLoad (riff chunks) s).1 = none ↔
      (pageChunks chunks).length ≤ cartridgeNbPages ∧ (oddChunks chunks).length ≤ 8) ∧
    ((pageChunks chunks).length ≤ cartridgeNbPages →
      (cprLoad (riff chunks) s).2.image = some (s.allocations, imageOf chunks)) := by
  have hlen := riff_length chunks
  have hbytes := flatMap_bytes_length chunks
  have htotal := readLe32_riff chunks hsize
  have hsum : 4 + (chunks.flatMap Chunk.bytes).length + 8 = 12 + 0 + (chunks.flatMap Chunk.bytes).length := by omega
  -- The walk stops with the first page chunk that has no room left.
  by_cases hroom : (pageChunks chunks).length ≤ cartridgeNbPages
  · have hwalk : walk (readLe32 ((riff chunks).drop 4)) 12 0 ((riff chunks).drop 12)
        (List.replicate cartridgeMaxSize 0) = (decide ((oddChunks chunks).length ≤ 8), imageOf chunks) := by
      have h := walk_chunks chunks [] hsum (by omega) (by rw [List.length_nil, Nat.zero_add]; exact hroom)
      rw [List.nil_append, Nat.zero_add, List.length_nil, Nat.zero_mul] at h
      rw [htotal, riff_drop]
      exact h
    rw [cprLoad_header (riff_hasHeader chunks) s hwalk]
    refine ⟨?_, fun _ => rfl⟩
    -- The pad byte of an odd chunk is not counted; up to eight of them pass the size check.
    by_cases hodd : (oddChunks chunks).length ≤ 8
    · simp [hodd, hroom]
    · simp [hodd]
  · have hwalk : (walk _ 12 (0 * cartridgePageSize) (chunks.flatMap Chunk.bytes)
        (List.replicate cartridgeMaxSize 0)).1 = false :=
      walk_full chunks hsum (by omega) (Nat.zero_le _) (by omega)
    rw [Nat.zero_mul, ← htotal, ← riff_drop] at hwalk
    rw [cprLoad_header (riff_hasHeader chunks) s (Prod.ext hwalk rfl)]
    exact ⟨⟨(nomatch ·), fun h => absurd h.1 hroom⟩, fun h => absurd h hroom⟩

end Riff

/-! ## What a load does -/

/-- The image of a cartridge has these chunks in its pages, and the table points to them. -/
structure Loaded (chunks : List Chunk) (s : Cartridge) (allocation : Nat) (image : List UInt8) : Prop where
  isImage : s.image = some (allocation, image)
  isTable : s.pages = pageTable allocation
  page : ∀ i c, (pageChunks chunks)[i]? = some c →
    slice image (i * cartridgePageSize) cartridgePageSize = c.page

/-- A well-formed file below four gigabytes is loaded just when it has no more than 32 chunks that are not empty, and no
    more than eight odd ones. Without its header a file is not loaded. And whatever the file, the cartridge before it is
    given up: after the load there is none, or a new one to whose pages the table points. -/
theorem cprLoad_spec (s : Cartridge) :
    (∀ chunks, (riff chunks).length < 2 ^ 32 →
      ((cprLoad (riff chunks) s).1 = none ↔
        (pageChunks chunks).length ≤ cartridgeNbPages ∧ (oddChunks chunks).length ≤ 8) ∧
      ((cprLoad (riff chunks) s).1 = none →
        ∃ image, Loaded chunks (cprLoad (riff chunks) s).2 s.allocations image)) ∧
    (∀ file, ¬HasHeader file → cprLoad file s = (some .cprInvalid, cprEject s)) ∧
    ∀ file, ((cprLoad file s).2.image = none ∧ (cprLoad file s).2.pages = List.replicate cartridgeNbPages none) ∨
      ∃ image, (cprLoad file s).2.image = some (s.allocations, image) ∧
        (cprLoad file s).2.pages = pageTable s.allocations := by
  refine ⟨fun chunks hsize => ?_, fun file h => cprLoad_no_header h s, fun file => cprLoad_replaces file s⟩
  obtain ⟨hiff, himage⟩ := cprLoad_riff hsize s
  refine ⟨hiff, fun hok => ⟨imageOf chunks, himage (hiff.mp hok).1, ?_, fun i c h => slice_imageOf h⟩⟩
  rcases cprLoad_replaces (riff chunks) s with ⟨hnone, -⟩ | ⟨image, -, hpages⟩
  · rw [himage (hiff.mp hok).1] at hnone
    cases hnone
  · exact hpages

/-- A page of one byte. -/
def onePage : Chunk where
  id := [0x63, 0x62, 0x30, 0x30]
  data := [0x76]
  id_length := rfl

/-- Nine such pages are not loaded, and a file without a header leaves nothing of a cartridge that was. -/
theorem ninePages_not_loaded :
    (¬∀ s chunks, (riff chunks).length < 2 ^ 32 → (pageChunks chunks).length ≤ cartridgeNbPages →
      (cprLoad (riff chunks) s).1 = none) ∧
    ¬∀ s file, (∀ chunks, file ≠ riff chunks) →
      (cprLoad file s).1 ≠ none ∧ (cprLoad file s).2.image = s.image ∧ (cprLoad file s).2.pages = s.pages := by
  constructor
  · intro h
    have hnine := h {} (List.replicate 9 onePage) (by decide) (by decide)
    exact absurd ((cprLoad_riff (by decide) _).1.mp hnine).2 (by decide)
  · intro h
    have hone : (cprLoad (riff [onePage]) {}).2.image = some (0, imageOf [onePage]) :=
      (cprLoad_riff (by decide) {}).2 (by decide)
    have hkept := (h (cprLoad (riff [onePage]) {}).2 [] fun chunks hnil => by
      have hlen := congrArg List.length hnil
      rw [riff_length, List.length_nil] at hlen
      omega).2.1
    rw [hone, cprLoad_no_header fun header => absurd header.length (by decide)] at hkept
    cases hkept

end Koncepcja.Slots
