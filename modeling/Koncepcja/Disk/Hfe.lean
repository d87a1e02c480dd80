import Koncepcja.Disk.FluxEmit

/-!
# The HFE v1 Container

`src/hfe_write.cpp` (bit cells to an HFE image) and `src/hfe.cpp` (an HFE image to an SCP flux
image). An HFE file holds side 0 and side 1 in alternating 256-byte chunks, least significant bit
first, behind a track table of 16-bit block offsets and 16-bit combined lengths.

## Main results

- `deinterleave_interleave`: the reader's walk over the two sides undoes the writer's.
- `lsbFirst_side0Byte`: the reader's bit order undoes the writer's.
- `hfeReadTrack_cells`: no track read from an image has more cells than its 16-bit length field
  can count.
-/

namespace Koncepcja.Disk

open Koncepcja.Bits Koncepcja.Bytes

/-! ## Constants -/

/-- `kHeaderSize`. -/
def kHfeHeaderSize : Nat := 512
def kBlockSize : Nat := 512
/-- Bytes of one side per 512-byte block. -/
def kSideChunk : Nat := 256
/-- kbit/s, 2 µs cells. -/
def kCpcBitRate : Nat := 250
/-- `kCpcTicksPerCell`: 2 µs / 25 ns. -/
def kCpcTicksPerCell : Nat := 80
/-- Side-0 SCP slot space. -/
def kMaxCyls : Nat := 84
/-- `HXCPICFE`. -/
def hfeMagic : List UInt8 := [0x48, 0x58, 0x43, 0x50, 0x49, 0x43, 0x46, 0x45]
/-- `HXCHFEV3`. -/
def hfeV3Magic : List UInt8 := [0x48, 0x58, 0x43, 0x48, 0x46, 0x45, 0x56, 0x33]

/-- The `HFE_E_*` codes. -/
inductive HfeError where
  | notHfe
  | unsupported
  | truncated
  | geometry
  deriving DecidableEq, Repr

/-! ## The writer -/

/-- One side-0 byte: bit `i` of the cell stream is bit `i & 7` of byte `i >> 3`. -/
def side0Byte (rev : MfmRev) (i : Nat) : UInt8 :=
  (List.range 8).foldl
    (fun value bit => if bitAt rev.bits (i * 8 + bit) then value ||| (1 <<< UInt8.ofNat bit) else value)
    0

/-- `side0_bytes`: a revolution's cells as side-0 bytes. -/
def side0Bytes (rev : MfmRev) : List UInt8 := (List.range (rev.nbits / 8)).map (side0Byte rev)

/-- `interleave`: 256-byte side-0 chunks with a side-1 filler between two of them, none at the end. -/
def interleave (side0 : List UInt8) : List UInt8 :=
  if kSideChunk < side0.length then
    side0.take kSideChunk ++ List.replicate kSideChunk 0xFF ++ interleave (side0.drop kSideChunk)
  else side0
termination_by side0.length
decreasing_by
  rw [List.length_drop]
  simp only [kSideChunk] at *
  omega

/-- The output buffer and the block the next track goes to, a 16-bit counter. -/
structure HfeWriter where
  out : List UInt8
  nextBlock : UInt16

/-- The header (unused fields 0xFF) and the zeroed track table block. -/
def hfeHeader (numTracks : Nat) : List UInt8 :=
  hfeMagic ++ [0, UInt8.ofNat numTracks, 1, 0, UInt8.ofNat kCpcBitRate, 0, 0x2C, 0x01, 0x06, 0xFF, 1, 0,
    0xFF, 0xFF] ++ List.replicate (kHfeHeaderSize - 22) 0xFF ++ List.replicate kBlockSize 0

/-- A present track's data: grow the file to whole blocks, copy the interleaved bytes, and enter
    the block and the byte count in the track table. Both fields are 16 bits wide. -/
def hfePutData (w : HfeWriter) (lut : Nat) (combined : List UInt8) : HfeWriter :=
  let byteOff := w.nextBlock.toNat * kBlockSize
  let blocks := (combined.length + kBlockSize - 1) / kBlockSize
  let out := growTo w.out (byteOff + blocks * kBlockSize) 0xFF
  let out := overwrite out byteOff combined
  let out := put16le out lut w.nextBlock.toNat
  { out := put16le out (lut + 2) combined.length
    nextBlock := UInt16.ofNat (w.nextBlock.toNat + blocks) }

/-- One track of the writer's loop; `none` where revolution 0 is not whole bytes. -/
def hfePutTrack (w : HfeWriter) (lut : Nat) (trk : MfmTrack) : Option HfeWriter :=
  match trk with
  | [] => some { w with out := put16le (put16le w.out lut 0) (lut + 2) 0 }
  | rev :: _ =>
    if rev.nbits = 0 then some { w with out := put16le (put16le w.out lut 0) (lut + 2) 0 }
    else if rev.nbits % 8 ≠ 0 then none
    else some (hfePutData w lut (interleave (side0Bytes rev)))

/-- The writer's loop from track `track` on. -/
def hfePutTracks (w : HfeWriter) (track : Nat) : List MfmTrack → Option HfeWriter
  | [] => some w
  | trk :: cyls =>
    match hfePutTrack w (kBlockSize + 4 * track) trk with
    | none => none
    | some w' => hfePutTracks w' (track + 1) cyls

/-- A cylinder the writer stores. -/
def hfePresent : MfmTrack → Bool
  | [] => false
  | rev :: _ => rev.nbits ≠ 0

def hfeFromMfmTracks (cyls : List MfmTrack) : Except HfeError (List UInt8) :=
  if cyls.length = 0 then .error .geometry
  else if kMaxCyls < cyls.length then .error .unsupported
  else if cyls.any hfePresent = false then .error .geometry
  else
    match hfePutTracks ⟨hfeHeader cyls.length, 2⟩ 0 cyls with
    | none => .error .geometry
    | some w => .ok w.out

/-! ## The reader -/

def hfeTicksPerCell (bitRate : Nat) : Nat := if bitRate = 0 then 0 else 20000 / bitRate

/-- The side-0 bytes of a track's combined bytes: up to 256, then up to 256 skipped. -/
def deinterleave (combined : List UInt8) : List UInt8 :=
  if combined = [] then []
  else combined.take kSideChunk ++ deinterleave (combined.drop (2 * kSideChunk))
termination_by combined.length
decreasing_by
  have hpos := List.length_pos_iff.mpr ‹¬combined = []›
  rw [List.length_drop]
  simp only [kSideChunk]
  omega

/-- A byte transmitted least significant bit first, packed most significant bit first. -/
def lsbFirst (byte : UInt8) : UInt8 :=
  (List.range 8).foldl
    (fun bits b => if (byte >>> UInt8.ofNat b) &&& 1 ≠ 0 then bits ||| bitMask b else bits) 0

/-- The revolution that side-0 bytes hold. -/
def revOfSide0 (side0 : List UInt8) : MfmRev where
  bits := side0.map lsbFirst
  nbits := side0.length * 8
  covered := by
    rw [List.length_map]
    omega

/-- One track table entry: an empty slot, or the single revolution its data block holds. -/
def hfeReadTrack (hfe : List UInt8) (entryOff : Nat) : Except HfeError MfmTrack :=
  let trkOffBlocks := rd16le hfe entryOff
  let trkLen := rd16le hfe (entryOff + 2)
  if trkLen = 0 then .ok []
  else if hfe.length < trkOffBlocks * kBlockSize + trkLen then .error .truncated
  else .ok [revOfSide0 (deinterleave (slice hfe (trkOffBlocks * kBlockSize) trkLen))]

/-- The reader's loop: `count` entries of the track table from `entryOff` on. -/
def hfeReadEntries (hfe : List UInt8) : Nat → Nat → Except HfeError (List MfmTrack)
  | _, 0 => .ok []
  | entryOff, count + 1 => do
    let trk ← hfeReadTrack hfe entryOff
    let cyls ← hfeReadEntries hfe (entryOff + 4) count
    return trk :: cyls

/-- The cylinders an HFE image holds. -/
def hfeReadTracks (hfe : List UInt8) : Except HfeError (List MfmTrack) :=
  if hfe.length < kHfeHeaderSize then .error .truncated
  else if hfe.take 8 ≠ hfeMagic then
    if hfe.take 8 = hfeV3Magic then .error .unsupported else .error .notHfe
  else if byteAt hfe 0x08 ≠ 0 then .error .unsupported
  else
    let numberOfTrack := (byteAt hfe 0x09).toNat
    let lutByteOff := rd16le hfe 0x12 * kBlockSize
    if numberOfTrack = 0 then .error .geometry
    else if kMaxCyls < numberOfTrack then .error .unsupported
    else if hfeTicksPerCell (rd16le hfe 0x0C) ≠ kCpcTicksPerCell then .error .unsupported
    else if hfe.length < lutByteOff + numberOfTrack * 4 then .error .truncated
    else hfeReadEntries hfe lutByteOff numberOfTrack

def hfeToScp (hfe : List UInt8) : Except HfeError (List UInt8) := do
  let cyls ← hfeReadTracks hfe
  let out := scpFromMfmTracks cyls
  if out = [] then .error .geometry else .ok out

/-! ## The two sides -/

theorem interleave_short {side0 : List UInt8} (h : side0.length ≤ kSideChunk) :
    interleave side0 = side0 := by
  rw [interleave, if_neg (by omega)]

theorem interleave_long {side0 : List UInt8} (h : kSideChunk < side0.length) :
    interleave side0 = side0.take kSideChunk ++ List.replicate kSideChunk 0xFF ++
      interleave (side0.drop kSideChunk) := by
  rw [interleave, if_pos h]

theorem interleave_length (side0 : List UInt8) :
    (interleave side0).length = side0.length + kSideChunk * ((side0.length - 1) / kSideChunk) := by
  induction side0 using interleave.induct with
  | case1 side0 h ih =>
    rw [interleave_long h, List.length_append, List.length_append, List.length_take,
      List.length_replicate, ih, List.length_drop]
    simp only [kSideChunk] at h ⊢
    omega
  | case2 side0 h =>
    rw [interleave_short (by omega)]
    simp only [kSideChunk] at h ⊢
    omega

/-- **The two walks agree**: de-interleaving gives the interleaved side back. -/
theorem deinterleave_interleave (side0 : List UInt8) : deinterleave (interleave side0) = side0 := by
  -- By chunks of 256 bytes: full ones, then what is left.
  induction side0 using interleave.induct with
  | case1 side0 h ih =>
    have htake : (side0.take kSideChunk).length = kSideChunk := by
      rw [List.length_take]
      omega
    have hfirst : (interleave side0).take kSideChunk = side0.take kSideChunk := by
      rw [interleave_long h, List.append_assoc, List.take_left' htake]
    have hrest : (interleave side0).drop (2 * kSideChunk) = interleave (side0.drop kSideChunk) := by
      rw [interleave_long h]
      apply List.drop_left'
      rw [List.length_append, htake, List.length_replicate, Nat.two_mul]
    have hne : interleave side0 ≠ [] := by
      intro hnil
      rw [hnil, List.take_nil] at hfirst
      rw [← hfirst] at htake
      exact absurd htake (by simp [kSideChunk])
    rw [deinterleave, if_neg hne, hfirst, hrest, ih, List.take_append_drop]
  | case2 side0 h =>
    rw [interleave_short (by omega), deinterleave]
    split
    · symm
      assumption
    · rw [List.take_of_length_le (by omega), List.drop_eq_nil_of_le (by omega), deinterleave,
        if_pos rfl, List.append_nil]

theorem deinterleave_length_le (combined : List UInt8) :
    (deinterleave combined).length ≤ kSideChunk * ((combined.length + 2 * kSideChunk - 1) / (2 * kSideChunk)) := by
  induction combined using deinterleave.induct with
  | case1 =>
    rw [deinterleave, if_pos rfl]
    simp
  | case2 combined h ih =>
    have hpos := List.length_pos_iff.mpr h
    rw [deinterleave, if_neg h, List.length_append, List.length_take]
    rw [List.length_drop] at ih
    simp only [kSideChunk] at ih ⊢
    omega

/-! ## Bit order -/

theorem byteBit_foldl_or (mask : Nat → UInt8) (p : Nat → Prop) [DecidablePred p] (j : Nat) (bits : List Nat)
    (v : UInt8) : byteBit (bits.foldl (fun value b => if p b then value ||| mask b else value) v) j =
      (byteBit v j || bits.any fun b => decide (p b) && byteBit (mask b) j) := by
  induction bits generalizing v with
  | nil => simp
  | cons b bits ih =>
    rw [List.foldl_cons, ih, List.any_cons, ← Bool.or_assoc]
    congr 1
    by_cases hp : p b
    · simp [hp, byteBit_or]
    · simp [hp]

theorem byteBit_setBits (mask : Nat → UInt8) (p : Nat → Prop) [DecidablePred p] {i j : Nat} (hi : i < 8)
    (hmask : ∀ b < 8, byteBit (mask b) j = decide (b = i)) :
    byteBit ((List.range 8).foldl (fun value b => if p b then value ||| mask b else value) 0) j = decide (p i) := by
  rw [byteBit_foldl_or, byteBit_zero, Bool.false_or, Bool.eq_iff_iff, List.any_eq_true]
  simp only [List.mem_range, Bool.and_eq_true, decide_eq_true_eq]
  constructor
  · rintro ⟨b, hb, hp, hbit⟩
    rw [hmask b hb, decide_eq_true_eq] at hbit
    exact hbit ▸ hp
  · intro hp
    exact ⟨i, hi, hp, by rw [hmask i hi, decide_eq_true rfl]⟩

theorem shiftRight_and_one (v : UInt8) (i : Nat) (hi : i < 8) :
    decide ((v >>> UInt8.ofNat i) &&& 1 ≠ 0) = byteBit v (7 - i) := by
  have hsub : 7 - (7 - i) = i := by omega
  have hmod : i % 256 % 8 = i := by omega
  rw [byteBit, hsub, Bool.eq_iff_iff, decide_eq_true_eq, Ne, ← UInt8.toNat_inj]
  simp [UInt8.toNat_and, UInt8.toNat_shiftRight, Nat.and_one_is_mod, BitVec.getLsbD, Nat.testBit, hmod,
    Nat.one_and_eq_mod_two]

theorem byteBit_lsbFirst (v : UInt8) (i : Nat) (hi : i < 8) :
    byteBit (lsbFirst v) i = byteBit v (7 - i) := by
  rw [lsbFirst, byteBit_setBits bitMask _ hi fun b hb => byteBit_bitMask b i hb hi, shiftRight_and_one v i hi]

theorem byteBit_side0Byte (rev : MfmRev) (k i : Nat) (hi : i < 8) :
    byteBit (side0Byte rev k) (7 - i) = bitAt rev.bits (k * 8 + i) := by
  have hmask : ∀ b : Fin 8, ∀ i : Fin 8, byteBit (1 <<< UInt8.ofNat b) (7 - i) = decide (b.val = i.val) := by decide
  rw [side0Byte, byteBit_setBits (fun b => 1 <<< UInt8.ofNat b) _ hi fun b hb => hmask ⟨b, hb⟩ ⟨i, hi⟩, Bool.decide_eq_true]

/-- **The two bit orders agree**: cell `i` of the read-back revolution is cell `i` of the written one. -/
theorem revOfSide0_cells {rev : MfmRev} (hwhole : rev.nbits % 8 = 0) :
    (revOfSide0 (side0Bytes rev)).cells = rev.cells := by
  have hlen : (side0Bytes rev).length * 8 = rev.nbits := by
    rw [side0Bytes, List.length_map, List.length_range]
    omega
  rw [MfmRev.cells, MfmRev.cells]
  show unpack ((side0Bytes rev).map lsbFirst) ((side0Bytes rev).length * 8) = _
  rw [hlen]
  apply unpack_congr
  intro i hi
  have hbyte : ((side0Bytes rev).map lsbFirst).getD (i / 8) 0 = lsbFirst (side0Byte rev (i / 8)) := by
    have hrange : i / 8 < rev.nbits / 8 := by omega
    simp [side0Bytes, List.getD_eq_getElem?_getD, hrange]
  have hmod : i % 8 < 8 := Nat.mod_lt _ (by decide)
  rw [bitAt, hbyte, byteBit_lsbFirst _ _ hmod, byteBit_side0Byte _ _ _ hmod]
  congr 1
  omega

/-! ## What a length field can count -/

/-- The largest number of side-0 bytes a 16-bit combined length covers: 128 chunks. -/
def kMaxSide0Bytes : Nat := 128 * kSideChunk

theorem interleave_length_lt_iff (side0 : List UInt8) :
    (interleave side0).length < 65536 ↔ side0.length ≤ kMaxSide0Bytes := by
  rw [interleave_length, kMaxSide0Bytes]
  simp only [kSideChunk]
  omega

theorem deinterleave_ne_nil {combined : List UInt8} (h : combined ≠ []) : deinterleave combined ≠ [] := by
  rw [deinterleave, if_neg h]
  cases combined with
  | nil => exact absurd rfl h
  | cons b rest => simp [kSideChunk]

/-- A track read from an image has cells, and no more of them than a 16-bit length can count. -/
theorem hfeReadTrack_cells {hfe : List UInt8} {entryOff : Nat} {trk : MfmTrack}
    (h : hfeReadTrack hfe entryOff = .ok trk) :
    ∀ rev ∈ trk, 0 < rev.nbits ∧ rev.nbits ≤ 8 * kMaxSide0Bytes := by
  have hfield := rd16le_lt hfe (entryOff + 2)
  rw [hfeReadTrack] at h
  split at h
  · obtain rfl := Except.ok.inj h
    simp
  · split at h
    · cases h
    · rename_i hlen hin
      obtain rfl := Except.ok.inj h
      intro rev hrev
      obtain rfl := List.mem_singleton.mp hrev
      generalize hdata : slice hfe (rd16le hfe entryOff * kBlockSize) (rd16le hfe (entryOff + 2)) = data
      have hslice : data.length = rd16le hfe (entryOff + 2) := by
        rw [← hdata, slice_length (by omega)]
      have hne : data ≠ [] := List.ne_nil_of_length_pos (by omega)
      have hpos := List.length_pos_iff.mpr (deinterleave_ne_nil hne)
      have hside := deinterleave_length_le data
      show 0 < (deinterleave data).length * 8 ∧ (deinterleave data).length * 8 ≤ _
      simp only [kSideChunk, kMaxSide0Bytes] at hside ⊢
      omega

end Koncepcja.Disk
