import Koncepcja.Lib.Mfm

/-!
# The MFM Track Synthesizer

`src/mfm_encode.cpp`: sectors to the bit cells of one double-density revolution. A track is laid
down as GAP4a, then for every sector sync, A1 marks, the ID field, GAP2, sync, A1 marks, the data
field and GAP3, then GAP4b out to the nominal revolution.

The cell writer carries its buffer discipline as fields, so that every writer denotes a cell list
(`CellWriter.cells`), and `trackItems` is the layout the track's cells are proved to spell
(`mfmEncodeTrack_cells`).
-/

namespace Koncepcja.Disk

open Koncepcja.Bits Koncepcja.Mfm

/-! ## Captured revolutions -/

/-- `t_mfm_rev`: one captured revolution of one cylinder, bit cells packed MSB-first. Every cell
    lies inside the buffer. -/
structure MfmRev where
  bits : List UInt8
  nbits : Nat
  covered : nbits ≤ 8 * bits.length

/-- `t_mfm_track`: one entry per revolution. -/
abbrev MfmTrack := List MfmRev

/-- The cells of a revolution. -/
def MfmRev.cells (rev : MfmRev) : List Bool := unpack rev.bits rev.nbits

@[simp] theorem MfmRev.cells_length (rev : MfmRev) : rev.cells.length = rev.nbits := by
  simp [MfmRev.cells]

/-! ## The cell writer -/

/-- `CellWriter`: appends bit cells MSB-first into a growing packed buffer. The buffer is as long
    as the cells need and clear behind the last one. -/
structure CellWriter where
  bits : List UInt8
  count : Nat
  sized : bits.length = (count + 7) / 8
  clear : ∀ i, count ≤ i → bitAt bits i = false

namespace CellWriter

/-- A writer that has emitted nothing. -/
def empty : CellWriter where
  bits := []
  count := 0
  sized := rfl
  clear := fun i _ => bitAt_of_length_le [] i (by simp)

/-- The buffer with room for one more cell. -/
def grown (w : CellWriter) : List UInt8 :=
  if w.bits.length ≤ w.count / 8 then w.bits ++ [0] else w.bits

theorem bitAt_grown (w : CellWriter) (i : Nat) : bitAt w.grown i = bitAt w.bits i := by
  unfold grown
  split
  · exact bitAt_append_zero _ _
  · rfl

theorem grown_length (w : CellWriter) : w.grown.length = (w.count + 1 + 7) / 8 := by
  have hsized := w.sized
  unfold grown
  split
  · rw [List.length_append, List.length_singleton]
    omega
  · omega

/-- The grown buffer with the next cell written. -/
def written (w : CellWriter) (bit : Bool) : List UInt8 :=
  if bit then w.grown.modify (w.count / 8) (· ||| bitMask (w.count % 8)) else w.grown

theorem bitAt_written (w : CellWriter) (bit : Bool) (i : Nat) :
    bitAt (w.written bit) i = (bitAt w.bits i || (bit && decide (i = w.count))) := by
  cases bit with
  | false => simp [written, bitAt_grown]
  | true =>
    have hlt : w.count / 8 < w.grown.length := by
      rw [grown_length]
      omega
    simp only [written, if_true]
    rw [bitAt_modify _ _ _ hlt, bitAt_grown]
    simp

/-- Append one cell. -/
def cell (w : CellWriter) (bit : Bool) : CellWriter where
  bits := w.written bit
  count := w.count + 1
  sized := by
    have hlen := w.grown_length
    unfold written
    split
    · rw [List.length_modify, hlen]
    · exact hlen
  clear := fun i hi => by
    rw [bitAt_written, w.clear i (by omega)]
    have hne : i ≠ w.count := by omega
    simp [hne]

/-- Emit a raw 16-cell pattern MSB-first (used for the A1 missing-clock mark). -/
def raw16 (w : CellWriter) (pattern : UInt16) : CellWriter := (wordBits pattern).foldl cell w

/-- The cells a writer has emitted. -/
def cells (w : CellWriter) : List Bool := unpack w.bits w.count

@[simp] theorem cells_empty : empty.cells = [] := rfl

@[simp] theorem cells_length (w : CellWriter) : w.cells.length = w.count := by simp [cells]

@[simp] theorem cells_cell (w : CellWriter) (bit : Bool) : (w.cell bit).cells = w.cells ++ [bit] := by
  show unpack (w.written bit) (w.count + 1) = unpack w.bits w.count ++ [bit]
  have hlast : bitAt (w.written bit) w.count = bit := by
    rw [bitAt_written, w.clear w.count (Nat.le_refl _)]
    simp
  have hrest : unpack (w.written bit) w.count = unpack w.bits w.count := by
    apply unpack_congr
    intro i hi
    have hne : i ≠ w.count := by omega
    rw [bitAt_written]
    simp [hne]
  rw [unpack_succ, hlast, hrest]

theorem cells_foldl_cell (l : List Bool) (w : CellWriter) : (l.foldl cell w).cells = w.cells ++ l := by
  induction l generalizing w with
  | nil => simp
  | cons b l ih => simp [ih]

@[simp] theorem cells_raw16 (w : CellWriter) (pattern : UInt16) :
    (w.raw16 pattern).cells = w.cells ++ wordBits pattern :=
  cells_foldl_cell _ _

@[simp] theorem count_raw16 (w : CellWriter) (pattern : UInt16) :
    (w.raw16 pattern).count = w.count + 16 := by
  have h := congrArg List.length (cells_raw16 w pattern)
  rwa [cells_length, List.length_append, cells_length, wordBits_length] at h

end CellWriter

/-! ## Constants -/

/-- MFM gap filler. -/
def kGapByte : UInt8 := 0x4E
/-- Sync field (encodes to 0xAAAA cells). -/
def kSyncByte : UInt8 := 0x00
/-- ID address mark. -/
def kIdMark : UInt8 := 0xFE
/-- The sync byte the A1 cells encode. -/
def kAoneByte : UInt8 := 0xA1
/-- Post-index gap. -/
def kGap4aBytes : Nat := 80
/-- Zero bytes before each A1 run. -/
def kSyncBytes : Nat := 12
/-- ID-field to data-field gap. -/
def kGap2Bytes : Nat := 22
/-- 128 << 5 = 4096, the double-density ceiling. -/
def kMaxSizeCode : UInt8 := 5
/-- One double-density revolution at 300 RPM, in cells. -/
def kRevCells : Nat := 6250 * 16
/-- The fixed 16-cell A1 missing-clock sync mark. -/
def kMfmA1SyncCells : UInt16 := 0x4489

/-! ## Bytes and fields -/

/-- `mfm_crc_ccitt`, one byte of it: poly 0x1021, most significant bit first. -/
def mfmCrcStep (crc : UInt16) (b : UInt8) : UInt16 :=
  (List.range 8).foldl
    (fun c _ => if c &&& 0x8000 ≠ 0 then (c <<< 1) ^^^ 0x1021 else c <<< 1)
    (crc ^^^ (b.toUInt16 <<< 8))

/-- `mfm_crc_ccitt`: CRC-CCITT, init 0xFFFF, no bit reflection. -/
def mfmCrcCcitt (data : List UInt8) : UInt16 := data.foldl mfmCrcStep 0xFFFF

/-- `mfm_expand_byte`: the 16 cells of a byte and the data bit it leaves behind. -/
def mfmExpandByte (value : UInt8) (prevDataBit : Bool) : UInt16 × Bool :=
  (byteBits value).foldl
    (fun (acc : UInt16 × Bool) (dataBit : Bool) =>
      (shiftIn (shiftIn acc.1 (!acc.2 && !dataBit)) dataBit, dataBit))
    (0, prevDataBit)

/-- The cell writer with the running previous data bit the clock rule needs. -/
abbrev Encoder := CellWriter × Bool

/-- `put_byte`: one data byte as 16 cells through the normal clock rule. -/
def putByte (e : Encoder) (value : UInt8) : Encoder :=
  let x := mfmExpandByte value e.2
  (e.1.raw16 x.1, x.2)

/-- `put_fill`: copies of the same gap or sync byte. -/
def putFill (e : Encoder) (value : UInt8) (copies : Nat) : Encoder :=
  (List.replicate copies value).foldl putByte e

/-- `put_sync_marks`: the three-A1 run verbatim; its last data cell is a 1. -/
def putSyncMarks (e : Encoder) : Encoder :=
  (((e.1.raw16 kMfmA1SyncCells).raw16 kMfmA1SyncCells).raw16 kMfmA1SyncCells, true)

/-- `put_crc`: high byte first, the on-disk order. -/
def putCrc (e : Encoder) (crc : UInt16) : Encoder :=
  putByte (putByte e (crc >>> 8).toUInt8) (crc &&& 0xFF).toUInt8

/-- `MfmSector`: one sector to synthesize. -/
structure MfmSector where
  cyl : UInt8 := 0
  head : UInt8 := 0
  secId : UInt8 := 0
  sizeCode : UInt8 := 2
  payload : List UInt8 := []
  dam : UInt8 := 0xFB
  deriving DecidableEq

/-- `MfmTrackDesc`: one track's sectors and its inter-sector GAP3 length. -/
structure MfmTrackDesc where
  sectors : List MfmSector := []
  gap3 : UInt8 := 0x52
  deriving DecidableEq

/-- The bytes the ID-field CRC covers. -/
def idCrcInput (s : MfmSector) : List UInt8 :=
  [kAoneByte, kAoneByte, kAoneByte, kIdMark, s.cyl, s.head, s.secId, s.sizeCode]

/-- The bytes the data-field CRC covers. -/
def dataCrcInput (s : MfmSector) : List UInt8 :=
  [kAoneByte, kAoneByte, kAoneByte, s.dam] ++ s.payload

/-- The sectors `encode_sector` lays down; the others are skipped whole. -/
def MfmSector.encodable (s : MfmSector) : Bool :=
  s.sizeCode ≤ kMaxSizeCode && s.payload.length == 128 <<< s.sizeCode.toNat

/-- The ID field: sync, 3x A1, IDAM, C H R N, CRC. -/
def putIdField (e : Encoder) (s : MfmSector) : Encoder :=
  let e := putSyncMarks (putFill e kSyncByte kSyncBytes)
  let e := [kIdMark, s.cyl, s.head, s.secId, s.sizeCode].foldl putByte e
  putCrc e (mfmCrcCcitt (idCrcInput s))

/-- GAP2 and the data field: sync, 3x A1, DAM, payload, CRC. -/
def putDataField (e : Encoder) (s : MfmSector) : Encoder :=
  let e := putFill e kGapByte kGap2Bytes
  let e := putSyncMarks (putFill e kSyncByte kSyncBytes)
  let e := s.payload.foldl putByte (putByte e s.dam)
  putCrc e (mfmCrcCcitt (dataCrcInput s))

/-- `encode_sector`: `none` (nothing emitted) for a malformed sector. -/
def encodeSector (e : Encoder) (s : MfmSector) (gap3 : UInt8) : Option Encoder :=
  if ¬ s.sizeCode ≤ kMaxSizeCode then none
  else if s.payload.length ≠ 128 <<< s.sizeCode.toNat then none
  else some (putFill (putDataField (putIdField e s) s) kGapByte gap3.toNat)

@[simp] theorem putByte_count (e : Encoder) (b : UInt8) : (putByte e b).1.count = e.1.count + 16 := by
  simp [putByte]

/-- GAP4b: pad the revolution out to its nominal cell length. -/
def padRevolution (e : Encoder) : Encoder :=
  if e.1.count < kRevCells then padRevolution (putByte e kGapByte) else e
termination_by kRevCells - e.1.count
decreasing_by
  rw [putByte_count]
  omega

/-- `mfm_encode_track`: one revolution of one track from its sector list. -/
def mfmEncodeTrack (desc : MfmTrackDesc) : MfmRev :=
  let e := putFill (CellWriter.empty, false) kGapByte kGap4aBytes
  let e := desc.sectors.foldl (fun e s => (encodeSector e s desc.gap3).getD e) e
  let e := padRevolution e
  { bits := e.1.bits
    nbits := e.1.count
    covered := by
      have hsized := e.1.sized
      omega }

/-! ## What a track spells -/

/-- One item of a track's layout: a byte through the clock rule, or a verbatim A1 mark. -/
inductive TrackItem where
  | byte (b : UInt8)
  | mark
  deriving DecidableEq

/-- The cells of a layout behind the data bit `prev`. -/
def itemsCells : Bool → List TrackItem → List Bool
  | _, [] => []
  | prev, .byte b :: items =>
    expandBits prev (byteBits b) ++ itemsCells (lastBit prev (byteBits b)) items
  | _, .mark :: items => wordBits syncWord ++ itemsCells true items

/-- The data bit in force behind a layout. -/
def itemsLast : Bool → List TrackItem → Bool
  | prev, [] => prev
  | prev, .byte b :: items => itemsLast (lastBit prev (byteBits b)) items
  | _, .mark :: items => itemsLast true items

theorem itemsLast_append (prev : Bool) (a b : List TrackItem) :
    itemsLast prev (a ++ b) = itemsLast (itemsLast prev a) b := by
  induction a generalizing prev with
  | nil => rfl
  | cons x a ih => cases x <;> simp [itemsLast, ih]

theorem itemsCells_append (prev : Bool) (a b : List TrackItem) :
    itemsCells prev (a ++ b) = itemsCells prev a ++ itemsCells (itemsLast prev a) b := by
  induction a generalizing prev with
  | nil => rfl
  | cons x a ih => cases x <;> simp [itemsCells, itemsLast, ih]

theorem itemsCells_bytes (prev : Bool) (bs : List UInt8) (items : List TrackItem) :
    itemsCells prev (bs.map .byte ++ items) =
      expandBits prev (bs.flatMap byteBits) ++
        itemsCells (lastBit prev (bs.flatMap byteBits)) items := by
  induction bs generalizing prev with
  | nil => rfl
  | cons b bs ih => simp [itemsCells, ih, expandBits_append, lastBit_append]

/-- `e` has emitted the layout `items` behind `e₀`. -/
def Spells (e₀ e : Encoder) (items : List TrackItem) : Prop :=
  e.1.cells = e₀.1.cells ++ itemsCells e₀.2 items ∧ e.2 = itemsLast e₀.2 items

theorem Spells.refl (e : Encoder) : Spells e e [] := by simp [Spells, itemsCells, itemsLast]

theorem Spells.trans {e₀ e₁ e₂ : Encoder} {a b : List TrackItem} (h₁ : Spells e₀ e₁ a)
    (h₂ : Spells e₁ e₂ b) : Spells e₀ e₂ (a ++ b) := by
  obtain ⟨hc₁, hp₁⟩ := h₁
  obtain ⟨hc₂, hp₂⟩ := h₂
  constructor
  · rw [hc₂, hc₁, hp₁, itemsCells_append, List.append_assoc]
  · rw [hp₂, hp₁, itemsLast_append]

theorem expand_foldl (ds : List Bool) (w : UInt16) (prev : Bool) :
    ds.foldl (fun (acc : UInt16 × Bool) (dataBit : Bool) =>
        (shiftIn (shiftIn acc.1 (!acc.2 && !dataBit)) dataBit, dataBit)) (w, prev) =
      ((expandBits prev ds).foldl shiftIn w, lastBit prev ds) := by
  induction ds generalizing w prev with
  | nil => rfl
  | cons d ds ih => rw [List.foldl_cons, ih]; rfl

theorem wordBits_foldl_bits {l : List Bool} (sr : UInt16) (h : l.length = 16) : wordBits (l.foldl shiftIn sr) = l := by
  refine List.ext_getElem (by rw [wordBits_length, h]) fun i hi hi' => ?_
  rw [wordBits_length] at hi
  rw [wordBits_getElem, shiftIn_foldl_getLsbD _ _ _ (by omega), dif_pos (by omega)]
  congr 1
  omega

theorem mfmExpandByte_spec (b : UInt8) (prev : Bool) :
    wordBits (mfmExpandByte b prev).1 = expandBits prev (byteBits b) ∧
      (mfmExpandByte b prev).2 = lastBit prev (byteBits b) := by
  rw [mfmExpandByte, expand_foldl]
  exact ⟨wordBits_foldl_bits _ (by rw [expandBits_length, byteBits_length]), rfl⟩

theorem putByte_spells (e : Encoder) (b : UInt8) : Spells e (putByte e b) [.byte b] := by
  obtain ⟨hcells, hlast⟩ := mfmExpandByte_spec b e.2
  constructor
  · simp [putByte, itemsCells, hcells]
  · exact hlast

theorem foldl_putByte_spells (e : Encoder) (bs : List UInt8) :
    Spells e (bs.foldl putByte e) (bs.map .byte) := by
  induction bs generalizing e with
  | nil => exact Spells.refl e
  | cons b bs ih => exact (putByte_spells e b).trans (ih _)

theorem putFill_spells (e : Encoder) (b : UInt8) (n : Nat) :
    Spells e (putFill e b n) ((List.replicate n b).map .byte) :=
  foldl_putByte_spells e _

theorem putSyncMarks_spells (e : Encoder) : Spells e (putSyncMarks e) [.mark, .mark, .mark] := by
  have hsync : kMfmA1SyncCells = syncWord := rfl
  constructor
  · simp [putSyncMarks, itemsCells, hsync]
  · rfl

/-- A CRC as the two bytes on disk. -/
def crcBytes (crc : UInt16) : List UInt8 := [(crc >>> 8).toUInt8, (crc &&& 0xFF).toUInt8]

theorem putCrc_spells (e : Encoder) (crc : UInt16) :
    Spells e (putCrc e crc) ((crcBytes crc).map .byte) :=
  (putByte_spells e _).trans (putByte_spells _ _)

/-- Sync, the A1 run and the bytes of one field. -/
def fieldItems (bs : List UInt8) : List TrackItem :=
  (List.replicate kSyncBytes kSyncByte).map .byte ++ ([.mark, .mark, .mark] ++ bs.map .byte)

/-- The bytes of a sector's ID field, mark to CRC. -/
def idBytes (s : MfmSector) : List UInt8 :=
  [kIdMark, s.cyl, s.head, s.secId, s.sizeCode] ++ crcBytes (mfmCrcCcitt (idCrcInput s))

/-- The bytes of a sector's data field, mark to CRC. -/
def dataBytes (s : MfmSector) : List UInt8 :=
  (s.dam :: s.payload) ++ crcBytes (mfmCrcCcitt (dataCrcInput s))

/-- The gap bytes of a layout. -/
def gapItems (n : Nat) : List TrackItem := (List.replicate n kGapByte).map .byte

/-- The layout of one sector. -/
def sectorItems (gap3 : UInt8) (s : MfmSector) : List TrackItem :=
  fieldItems (idBytes s) ++ (gapItems kGap2Bytes ++ (fieldItems (dataBytes s) ++ gapItems gap3.toNat))

theorem putIdField_spells (e : Encoder) (s : MfmSector) :
    Spells e (putIdField e s) (fieldItems (idBytes s)) := by
  have h := ((putFill_spells e kSyncByte kSyncBytes).trans (putSyncMarks_spells _)).trans
    ((foldl_putByte_spells _ [kIdMark, s.cyl, s.head, s.secId, s.sizeCode]).trans
      (putCrc_spells _ (mfmCrcCcitt (idCrcInput s))))
  simpa only [putIdField, fieldItems, idBytes, List.map_append, List.append_assoc] using h

theorem putDataField_spells (e : Encoder) (s : MfmSector) :
    Spells e (putDataField e s) (gapItems kGap2Bytes ++ fieldItems (dataBytes s)) := by
  have h := (putFill_spells e kGapByte kGap2Bytes).trans
    (((putFill_spells _ kSyncByte kSyncBytes).trans (putSyncMarks_spells _)).trans
      ((foldl_putByte_spells _ (s.dam :: s.payload)).trans
        (putCrc_spells _ (mfmCrcCcitt (dataCrcInput s)))))
  rw [List.foldl_cons] at h
  simpa only [putDataField, fieldItems, dataBytes, gapItems, List.map_append, List.append_assoc] using h

theorem encodeSector_of_encodable (e : Encoder) (s : MfmSector) (gap3 : UInt8)
    (h : s.encodable = true) :
    encodeSector e s gap3 = some (putFill (putDataField (putIdField e s) s) kGapByte gap3.toNat) := by
  simp only [MfmSector.encodable, Bool.and_eq_true, decide_eq_true_eq, beq_iff_eq] at h
  simp [encodeSector, h.1, h.2]

theorem encodeSector_of_not_encodable (e : Encoder) (s : MfmSector) (gap3 : UInt8)
    (h : s.encodable = false) : encodeSector e s gap3 = none := by
  simp only [MfmSector.encodable, Bool.and_eq_false_imp, decide_eq_true_eq, beq_eq_false_iff_ne] at h
  by_cases hcode : s.sizeCode ≤ kMaxSizeCode
  · simp [encodeSector, hcode, h hcode]
  · simp [encodeSector, hcode]

/-- The layout of a sector list: malformed sectors leave nothing behind. -/
def sectorsItems (gap3 : UInt8) (sectors : List MfmSector) : List TrackItem :=
  (sectors.filter (·.encodable)).flatMap (sectorItems gap3)

theorem encodeSectors_spells (gap3 : UInt8) (sectors : List MfmSector) (e : Encoder) :
    Spells e (sectors.foldl (fun e s => (encodeSector e s gap3).getD e) e)
      (sectorsItems gap3 sectors) := by
  induction sectors generalizing e with
  | nil => exact Spells.refl e
  | cons s sectors ih =>
    cases hs : s.encodable with
    | false =>
      simpa [sectorsItems, hs, encodeSector_of_not_encodable e s gap3 hs] using ih e
    | true =>
      have hsec : Spells e (putFill (putDataField (putIdField e s) s) kGapByte gap3.toNat)
          (sectorItems gap3 s) := by
        have h := ((putIdField_spells e s).trans (putDataField_spells _ s)).trans
          (putFill_spells _ kGapByte gap3.toNat)
        simpa only [sectorItems, gapItems, List.append_assoc] using h
      have h := hsec.trans (ih _)
      simpa [sectorsItems, hs, encodeSector_of_encodable e s gap3 hs] using h

theorem padRevolution_spells (e : Encoder) :
    ∃ n, Spells e (padRevolution e) (gapItems n) := by
  induction e using padRevolution.induct with
  | case1 e hlt ih =>
    obtain ⟨n, hn⟩ := ih
    refine ⟨n + 1, ?_⟩
    rw [padRevolution, if_pos hlt]
    exact (putByte_spells e kGapByte).trans hn
  | case2 e hge =>
    refine ⟨0, ?_⟩
    rw [padRevolution, if_neg hge]
    exact Spells.refl e

/-- **The cells of an encoded track** are those of its layout: GAP4a, the sectors, GAP4b. -/
theorem mfmEncodeTrack_cells (desc : MfmTrackDesc) :
    ∃ n, (mfmEncodeTrack desc).cells =
      itemsCells false (gapItems kGap4aBytes ++ (sectorsItems desc.gap3 desc.sectors ++ gapItems n)) := by
  have hgap := putFill_spells (CellWriter.empty, false) kGapByte kGap4aBytes
  have hsec := encodeSectors_spells desc.gap3 desc.sectors
    (putFill (CellWriter.empty, false) kGapByte kGap4aBytes)
  obtain ⟨n, hpad⟩ := padRevolution_spells
    (desc.sectors.foldl (fun e s => (encodeSector e s desc.gap3).getD e)
      (putFill (CellWriter.empty, false) kGapByte kGap4aBytes))
  refine ⟨n, ?_⟩
  have h := (hgap.trans (hsec.trans hpad)).1
  rw [CellWriter.cells_empty, List.nil_append] at h
  exact h

/-! ## How long a track is -/

theorem itemsCells_length (prev : Bool) (items : List TrackItem) :
    (itemsCells prev items).length = 16 * items.length := by
  induction items generalizing prev with
  | nil => rfl
  | cons x items ih => cases x <;> simp [itemsCells, ih] <;> omega

theorem Spells.count {e₀ e : Encoder} {items : List TrackItem} (h : Spells e₀ e items) :
    e.1.count = e₀.1.count + 16 * items.length := by
  have hlen := congrArg List.length h.1
  rwa [CellWriter.cells_length, List.length_append, CellWriter.cells_length, itemsCells_length] at hlen

theorem padRevolution_count (e : Encoder) (h : 16 ∣ e.1.count) :
    (padRevolution e).1.count = max e.1.count kRevCells := by
  induction e using padRevolution.induct with
  | case1 e hlt ih =>
    have hstep := putByte_count e kGapByte
    rw [padRevolution, if_pos hlt, ih (by rw [hstep]; omega), hstep]
    simp only [kRevCells] at hlt ⊢
    omega
  | case2 e hge =>
    rw [padRevolution, if_neg hge]
    omega

/-- The bytes a sector occupies on the track, GAP3 included. -/
def sectorBytes (gap3 : UInt8) (s : MfmSector) : Nat := 62 + s.payload.length + gap3.toNat

/-- The bytes a track's GAP4a and sectors occupy. -/
def trackBytes (desc : MfmTrackDesc) : Nat :=
  kGap4aBytes + ((desc.sectors.filter (·.encodable)).map (sectorBytes desc.gap3)).sum

theorem sectorItems_length (gap3 : UInt8) (s : MfmSector) :
    (sectorItems gap3 s).length = sectorBytes gap3 s := by
  simp only [sectorItems, fieldItems, idBytes, dataBytes, crcBytes, gapItems, kSyncBytes, kGap2Bytes,
    List.length_append, List.length_map, List.length_replicate, List.length_cons, List.length_nil,
    sectorBytes]
  omega

theorem sectorsItems_length (gap3 : UInt8) (sectors : List MfmSector) :
    (sectorsItems gap3 sectors).length =
      ((sectors.filter (·.encodable)).map (sectorBytes gap3)).sum := by
  simp [sectorsItems, List.length_flatMap, sectorItems_length]

/-- **The length of a track**: its sectors, or the nominal revolution when they leave room. -/
theorem mfmEncodeTrack_nbits (desc : MfmTrackDesc) :
    (mfmEncodeTrack desc).nbits = max (16 * trackBytes desc) kRevCells := by
  have hgap := (putFill_spells (CellWriter.empty, false) kGapByte kGap4aBytes).count
  have hsec := (encodeSectors_spells desc.gap3 desc.sectors
    (putFill (CellWriter.empty, false) kGapByte kGap4aBytes)).count
  have hempty : (CellWriter.empty, false).1.count = 0 := rfl
  rw [hgap, hempty, sectorsItems_length, List.length_map, List.length_replicate] at hsec
  have htotal : 0 + 16 * kGap4aBytes +
      16 * ((desc.sectors.filter (·.encodable)).map (sectorBytes desc.gap3)).sum =
      16 * trackBytes desc := by
    rw [trackBytes]
    omega
  rw [htotal] at hsec
  have hpad := padRevolution_count _ ⟨_, hsec⟩
  rw [hsec] at hpad
  exact hpad

end Koncepcja.Disk
