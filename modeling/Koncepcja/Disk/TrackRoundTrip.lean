import Koncepcja.Disk.MfmEncode
import Koncepcja.Disk.FluxScan

/-!
# Encode Then Scan

The synthesizer's tracks read back through the scanner: `scanTrack_mfmEncodeTrack` says that the
scan of an encoded track collects exactly the encoded sectors.

## Architecture

- **Fields**: what the scanner does at each piece of a sector's layout (`hunt_field`,
  `scanField_id`, `scanField_data`).
- **Sectors**: one sector of layout is one `collect` (`scanFrom_sector`), a sector list is a fold of
  them (`scanFrom_layout`).
- **Contents**: what a fold of `collect` holds (`contents_collectAll`), on a first and on a second
  pass over the same sectors.
-/

namespace Koncepcja.Disk

open Koncepcja.Bits Koncepcja.Mfm

/-! ## §1 Reading fields -/

private theorem mfmExpandByte_ne_sync (b : UInt8) (prev : Bool) : (mfmExpandByte b prev).1 ≠ 0x4489 := by
  intro hsync
  have hcells := (mfmExpandByte_spec b prev).1
  rw [hsync] at hcells
  -- The data bits 4 and 5 of the sync word are clear, and so is the clock cell between them.
  have hcell (i : Nat) (hi : i < 16) :
      (wordBits 0x4489)[i]? = (expandBits prev (byteBits b))[i]? := congrArg (·[i]?) hcells
  have h4 := hcell 9 (by decide)
  have h5 := hcell 11 (by decide)
  have hclock := hcell 10 (by decide)
  simp [byteBits, expandBits, wordBits, List.range_succ] at h4 h5 hclock
  rw [h5] at hclock
  exact Bool.false_ne_true (hclock h4)

private theorem crcBytes_join (crc : UInt16) :
    ((crc >>> 8).toUInt8.toUInt16 <<< 8) ||| (crc &&& 0xFF).toUInt8.toUInt16 = crc := by
  obtain ⟨v⟩ := crc
  apply UInt16.eq_of_toBitVec_eq
  apply BitVec.eq_of_getLsbD_eq
  intro i hi
  have h255 : (255#16).getLsbD i = decide (i < 8) := by
    have key : ∀ i : Fin 16, (255#16).getLsbD i.val = decide (i.val < 8) := by decide
    exact key ⟨i, hi⟩
  by_cases h8 : i < 8
  · simp [h8, h255]
    exact fun _ => hi
  · have hidx : 8 + (i - 8) = i := by omega
    have hmod : (v >>> 8) % 256#16 = v >>> 8 := by
      apply BitVec.eq_of_toNat_eq
      have hv := v.isLt
      simp only [BitVec.toNat_umod, BitVec.toNat_ushiftRight, BitVec.toNat_ofNat,
        Nat.shiftRight_eq_div_pow]
      show v.toNat / 256 % 256 = v.toNat / 256
      omega
    simp [h8, hi, hmod, hidx, BitVec.getLsbD_eq_getElem]

theorem flatMap_byteBits_length (bs : List UInt8) : (bs.flatMap byteBits).length = 8 * bs.length := by
  induction bs with
  | nil => rfl
  | cons b bs ih => simp [ih, Nat.mul_add, Nat.add_comm]

theorem readMfmBytes_ahead {bb : BitBuf} {pos : Nat} {prev : Bool} {bs : List UInt8} {rest : List Bool}
    (h : bb.Ahead pos (expandBits prev (bs.flatMap byteBits) ++ rest)) :
    readMfmBytes bb pos bs.length = (some bs, pos + 16 * bs.length) := by
  induction bs generalizing pos prev with
  | nil => rfl
  | cons b bs ih =>
    rw [List.flatMap_cons, expandBits_append, List.append_assoc] at h
    have htail := h.advance
    simp only [expandBits_length, byteBits_length] at htail
    rw [List.length_cons, readMfmBytes, readMfmByte_ahead h]
    simp only [ih htail, Option.map_some]
    congr 1
    omega

theorem readCrc_ahead {bb : BitBuf} {pos : Nat} {prev : Bool} {crc : UInt16} {rest : List Bool}
    (h : bb.Ahead pos (expandBits prev ((crcBytes crc).flatMap byteBits) ++ rest)) :
    readCrc bb pos = (some crc, pos + 32) := by
  simp only [crcBytes, List.flatMap_cons, List.flatMap_nil, List.append_nil, expandBits_append,
    List.append_assoc] at h
  have htail := h.advance
  simp only [expandBits_length, byteBits_length] at htail
  have hhi := readMfmByte_ahead h
  have hlo := readMfmByte_ahead htail
  simp only [readCrc, hhi, hlo, Option.bind_some, Option.map_some, crcBytes_join]

theorem skipSyncRun_of_sync {bb : BitBuf} {p : Nat} {rest : List Bool}
    (h : bb.Ahead p (wordBits syncWord ++ rest)) : skipSyncRun bb p = skipSyncRun bb (p + 16) := by
  have hlen := h.length
  simp only [List.length_append, wordBits_length] at hlen
  rw [skipSyncRun, readRaw16_ahead h]
  exact if_pos ⟨rfl, by omega⟩

theorem skipSyncRun_of_byte {bb : BitBuf} {p : Nat} {prev : Bool} {b : UInt8} {rest : List Bool}
    (h : bb.Ahead p (expandBits prev (byteBits b) ++ rest)) : skipSyncRun bb p = p := by
  rw [← (mfmExpandByte_spec b prev).1] at h
  rw [skipSyncRun, readRaw16_ahead h]
  exact if_neg fun hsync => mfmExpandByte_ne_sync b prev hsync.1

/-- The cells behind the first A1 of a field: two more, then the field's bytes. -/
def fieldCells (bs : List UInt8) : List Bool :=
  wordBits syncWord ++ (wordBits syncWord ++ expandBits true (bs.flatMap byteBits))

theorem readMark_ahead {bb : BitBuf} {p : Nat} (mark : UInt8) (bs : List UInt8) {rest : List Bool}
    (h : bb.Ahead p (fieldCells (mark :: bs) ++ rest)) :
    readMfmByte bb (skipSyncRun bb p) = (some mark, p + 48) ∧
      bb.Ahead (p + 48)
        (expandBits (lastBit true (byteBits mark)) (bs.flatMap byteBits) ++ rest) := by
  simp only [fieldCells, List.flatMap_cons, expandBits_append, List.append_assoc] at h
  have h₁ := h.advance
  have h₂ := h₁.advance
  have h₃ := h₂.advance
  simp only [wordBits_length, expandBits_length, byteBits_length] at h₁ h₂ h₃
  rw [skipSyncRun_of_sync h, skipSyncRun_of_sync h₁, skipSyncRun_of_byte h₂, readMfmByte_ahead h₂]
  exact ⟨rfl, h₃⟩

/-! ## §2 The hunt to a field -/

private theorem flatMap_replicate_zero (n : Nat) :
    (List.replicate n (0 : UInt8)).flatMap byteBits = List.replicate (8 * n) false := by
  induction n with
  | zero => rfl
  | succ n ih =>
    have hzero : byteBits 0 = List.replicate 8 false := by decide
    rw [List.replicate_succ, List.flatMap_cons, ih, hzero, List.replicate_append_replicate]
    congr 1
    omega

theorem itemsCells_field (prev : Bool) (bs : List UInt8) :
    itemsCells prev (fieldItems bs) =
      expandBits prev (List.replicate 96 false) ++ (wordBits syncWord ++ fieldCells bs) := by
  have hzeros : (List.replicate kSyncBytes kSyncByte).flatMap byteBits = List.replicate 96 false :=
    flatMap_replicate_zero 12
  have hbytes := itemsCells_bytes true bs []
  rw [List.append_nil, itemsCells, List.append_nil] at hbytes
  rw [fieldItems, itemsCells_bytes, hzeros]
  simp only [List.cons_append, List.nil_append, itemsCells, hbytes, fieldCells]

/-- From anywhere in a gap the hunt stops behind the first A1 of the next field. -/
theorem hunt_field {bb : BitBuf} {pos : Nat} {prev : Bool} {g : List Bool} {bs : List UInt8}
    {rest : List Bool}
    (h : bb.Ahead pos (expandBits prev g ++ (itemsCells (lastBit prev g) (fieldItems bs) ++ rest))) :
    huntSync bb pos 0 = some (pos + 2 * g.length + 208) ∧
      bb.Ahead (pos + 2 * g.length + 208) (fieldCells bs ++ rest) := by
  rw [itemsCells_field, List.append_assoc, List.append_assoc, ← List.append_assoc,
    ← expandBits_append] at h
  have hhunt := hunt_gap_sync prev g 87 (fieldCells bs ++ rest)
  have hpos : pos + ((expandBits prev (g ++ List.replicate 96 false)).length + 16) =
      pos + 2 * g.length + 208 := by
    simp only [expandBits_length, List.length_append, List.length_replicate]
    omega
  constructor
  · rw [huntSync_eq_hunt 0 h, hhunt, Option.map_some, hpos]
  · have hnext := h.advance.advance
    rw [wordBits_length] at hnext
    rwa [Nat.add_assoc, hpos] at hnext

/-! ## §3 The two fields -/

/-- The ID field of a sector to synthesize. -/
def MfmSector.chrn (s : MfmSector) : Chrn := ⟨s.cyl, s.head, s.secId, s.sizeCode⟩

theorem mfmCrcStep_eq_crcByte : mfmCrcStep = crcByte := rfl

private theorem idCrc_eq (s : MfmSector) :
    [s.cyl, s.head, s.secId, s.sizeCode].foldl crcByte (crcByte crcSyncPreset 0xFE) =
      mfmCrcCcitt (idCrcInput s) := by
  simp only [mfmCrcCcitt, idCrcInput, mfmCrcStep_eq_crcByte, crcSyncPreset, kAoneByte, kIdMark,
    List.foldl_cons, List.foldl_nil]

private theorem dataCrc_eq (s : MfmSector) :
    s.payload.foldl crcByte (crcByte crcSyncPreset s.dam) = mfmCrcCcitt (dataCrcInput s) := by
  simp only [mfmCrcCcitt, dataCrcInput, mfmCrcStep_eq_crcByte, crcSyncPreset, kAoneByte,
    List.foldl_append, List.foldl_cons, List.foldl_nil]

/-- An encoded ID field becomes the pending header. -/
theorem scanField_id {bb : BitBuf} {p : Nat} {s : MfmSector} {rest : List Bool} (st : ScanState)
    (hcode : s.sizeCode ≤ kMaxSizeCode) (h : bb.Ahead p (fieldCells (idBytes s) ++ rest)) :
    scanField bb p st = some ({ st with hdr := some (s.chrn, p + 144) }, p + 144) := by
  obtain ⟨hmark, hbytes⟩ := readMark_ahead kIdMark
    ([s.cyl, s.head, s.secId, s.sizeCode] ++ crcBytes (mfmCrcCcitt (idCrcInput s))) h
  rw [List.flatMap_append, expandBits_append, List.append_assoc] at hbytes
  have hcrc := hbytes.advance
  simp only [expandBits_length, flatMap_byteBits_length, List.length_cons, List.length_nil] at hcrc
  have hread := readMfmBytes_ahead hbytes
  have hreadCrc := readCrc_ahead hcrc
  simp only [List.length_cons, List.length_nil] at hread
  -- The checksum agrees and the size code is one that the scanner takes.
  have hcond : mfmCrcCcitt (idCrcInput s) =
        [s.cyl, s.head, s.secId, s.sizeCode].foldl crcByte (crcByte crcSyncPreset 0xFE) ∧
      (Chrn.ofBytes [s.cyl, s.head, s.secId, s.sizeCode]).n ≤ kScanMaxSizeCode :=
    ⟨(idCrc_eq s).symm, hcode⟩
  have hid : scanIdField bb (p + 48) st = ({ st with hdr := some (s.chrn, p + 144) }, p + 144) := by
    unfold scanIdField
    rw [hread]
    dsimp only
    rw [hreadCrc]
    dsimp only
    rw [if_pos hcond]
    rfl
  unfold scanField
  rw [hmark]
  dsimp only
  rw [if_pos (show kIdMark = 0xFE from rfl), hid]

/-- An encoded data field close behind its header is collected. -/
theorem scanField_data {bb : BitBuf} {p : Nat} {s : MfmSector} {rest : List Bool} (st : ScanState)
    {hdrEnd : Nat} (hpayload : s.payload.length = 128 <<< s.sizeCode.toNat)
    (hdam : s.dam = 0xFB ∨ s.dam = 0xF8) (hhdr : st.hdr = some (s.chrn, hdrEnd))
    (hwindow : p + 48 - hdrEnd ≤ kDamWindow) (h : bb.Ahead p (fieldCells (dataBytes s) ++ rest)) :
    scanField bb p st =
      some ({ scan := collect st.scan s.chrn hdrEnd (p + 48) s.dam s.payload true, hdr := none },
        p + 80 + 16 * s.payload.length) := by
  obtain ⟨hmark, hbytes⟩ := readMark_ahead s.dam
    (s.payload ++ crcBytes (mfmCrcCcitt (dataCrcInput s))) h
  rw [List.flatMap_append, expandBits_append, List.append_assoc] at hbytes
  have hcrc := hbytes.advance
  simp only [expandBits_length, flatMap_byteBits_length] at hcrc
  have hread := readMfmBytes_ahead hbytes
  have hreadCrc := readCrc_ahead hcrc
  rw [hpayload] at hread
  have hlen : 2 * (8 * s.payload.length) = 16 * (128 <<< s.sizeCode.toNat) := by
    rw [hpayload]
    omega
  rw [hlen] at hreadCrc
  -- The payload and its checksum follow the mark, and the checksum is right.
  have hdata : scanDataField bb (p + 48) st s.chrn hdrEnd s.dam =
      ({ scan := collect st.scan s.chrn hdrEnd (p + 48) s.dam s.payload true, hdr := none },
        p + 80 + 16 * s.payload.length) := by
    unfold scanDataField
    rw [show s.chrn.n = s.sizeCode from rfl, hread]
    dsimp only
    rw [hreadCrc]
    dsimp only
    rw [dataCrc_eq, decide_eq_true rfl, hpayload]
    congr 1
    omega
  have hne : ¬ s.dam = 0xFE := by
    rcases hdam with hd | hd <;> rw [hd] <;> decide
  unfold scanField
  rw [hmark]
  dsimp only
  rw [if_neg hne, if_pos hdam, hhdr]
  dsimp only
  rw [if_pos hwindow, hdata]

/-! ## §4 Sectors -/

/-- A sector with the two cell positions its record carries. -/
structure PlacedSector where
  sector : MfmSector
  idamBit : Nat
  dataBit : Nat

/-- Collect a run of sectors read without CRC error. -/
def collectAll (ts : TrackScan) (l : List PlacedSector) : TrackScan :=
  l.foldl (fun ts x => collect ts x.sector.chrn x.idamBit x.dataBit x.sector.dam x.sector.payload true) ts

/-- A sector the scanner can read back: encodable, under one of the two data marks. -/
structure Readable (s : MfmSector) : Prop where
  code : s.sizeCode ≤ kMaxSizeCode
  size : s.payload.length = 128 <<< s.sizeCode.toNat
  mark : s.dam = 0xFB ∨ s.dam = 0xF8

theorem Readable.encodable {s : MfmSector} (h : Readable s) : s.encodable = true := by
  simp [MfmSector.encodable, h.code, h.size]

def gapBits (n : Nat) : List Bool := (List.replicate n kGapByte).flatMap byteBits

theorem gapBits_add (m n : Nat) : gapBits (m + n) = gapBits m ++ gapBits n := by
  rw [gapBits, gapBits, gapBits, ← List.flatMap_append, List.replicate_append_replicate]

theorem itemsCells_gap (prev : Bool) (n : Nat) (items : List TrackItem) :
    itemsCells prev (gapItems n ++ items) =
      expandBits prev (gapBits n) ++ itemsCells (lastBit prev (gapBits n)) items :=
  itemsCells_bytes prev _ items

/-- The layout of one sector without the gap behind it. -/
def sectorCore (s : MfmSector) : List TrackItem :=
  fieldItems (idBytes s) ++ (gapItems kGap2Bytes ++ fieldItems (dataBytes s))

theorem sectorItems_core (gap3 : UInt8) (s : MfmSector) :
    sectorItems gap3 s = sectorCore s ++ gapItems gap3.toNat := by
  simp only [sectorItems, sectorCore, List.append_assoc]

/-- Sectors, each with the data bits of the gap behind it, as cells. -/
def layoutCells (prev : Bool) : List (MfmSector × List Bool) → List Bool
  | [] => []
  | (s, g) :: l =>
    itemsCells prev (sectorCore s) ++ (expandBits (itemsLast prev (sectorCore s)) g ++
      layoutCells (lastBit (itemsLast prev (sectorCore s)) g) l)

/-- **One sector of layout is one `collect`**: from a gap in front of it the scanner reaches what is
    behind it. -/
theorem scanFrom_sector {bb : BitBuf} {pos : Nat} {prev : Bool} {g : List Bool} {s : MfmSector}
    {rest : List Bool} (st : ScanState) (hs : Readable s)
    (h : bb.Ahead pos (expandBits prev g ++ (itemsCells (lastBit prev g) (sectorCore s) ++ rest))) :
    ∃ x : PlacedSector, x.sector = s ∧ ∃ pos',
      scanFrom bb pos st = scanFrom bb pos' { scan := collectAll st.scan [x], hdr := none } ∧
      bb.Ahead pos' rest := by
  -- the ID field
  rw [sectorCore, itemsCells_append, List.append_assoc] at h
  obtain ⟨hhunt₁, hfield₁⟩ := hunt_field h
  have hscan₁ := scanField_id st hs.code hfield₁
  rw [scanFrom_step hhunt₁ hscan₁]
  have hgap₂ := hfield₁.advance
  have hid : (fieldCells (idBytes s)).length = 144 := by
    simp [fieldCells, idBytes, crcBytes]
  rw [hid, itemsCells_gap, List.append_assoc] at hgap₂
  -- GAP2 and the data field
  generalize hp₁ : pos + 2 * g.length + 208 = p₁ at hgap₂
  obtain ⟨hhunt₂, hfield₂⟩ := hunt_field hgap₂
  have hwindow : p₁ + 144 + 2 * (gapBits kGap2Bytes).length + 208 + 48 - (p₁ + 144) ≤ kDamWindow := by
    have hlen : (gapBits kGap2Bytes).length = 176 := by
      rw [gapBits, flatMap_byteBits_length, List.length_replicate]
      rfl
    rw [hlen, kDamWindow]
    omega
  have hscan₂ := scanField_data { st with hdr := some (s.chrn, p₁ + 144) } hs.size hs.mark rfl
    hwindow hfield₂
  rw [scanFrom_step hhunt₂ hscan₂]
  -- what is behind the data field
  have hrest := hfield₂.advance
  have hdata : (fieldCells (dataBytes s)).length = 80 + 16 * s.payload.length := by
    simp only [fieldCells, dataBytes, crcBytes, List.length_append, wordBits_length, expandBits_length,
      flatMap_byteBits_length, List.length_cons, List.length_nil]
    omega
  rw [hdata, ← Nat.add_assoc] at hrest
  exact ⟨⟨s, _, _⟩, rfl, _, rfl, hrest⟩

/-- A sector list is a fold of `collect`. -/
theorem scanFrom_layout {bb : BitBuf} (l : List (MfmSector × List Bool)) {pos : Nat} {prev : Bool}
    {g : List Bool} (st : ScanState) (hl : ∀ x ∈ l, Readable x.1) (hhdr : st.hdr = none)
    (h : bb.Ahead pos (expandBits prev g ++ layoutCells (lastBit prev g) l)) :
    ∃ ps : List PlacedSector, ps.map (·.sector) = l.map Prod.fst ∧ ∃ pos' prev' g',
      scanFrom bb pos st = scanFrom bb pos' { scan := collectAll st.scan ps, hdr := none } ∧
      bb.Ahead pos' (expandBits prev' g') := by
  induction l generalizing pos prev g st with
  | nil =>
    obtain ⟨scan, hdr⟩ := st
    obtain rfl : hdr = none := hhdr
    rw [layoutCells, List.append_nil] at h
    exact ⟨[], rfl, pos, prev, g, rfl, h⟩
  | cons x l ih =>
    obtain ⟨s, g₁⟩ := x
    rw [layoutCells] at h
    obtain ⟨x, hx, pos₁, hscan, hrest⟩ := scanFrom_sector st (hl (s, g₁) (by simp)) h
    obtain ⟨ps, hps, pos', prev', g', hscan', hrest'⟩ :=
      ih { scan := collectAll st.scan [x], hdr := none } (fun y hy => hl y (by simp [hy])) rfl hrest
    refine ⟨x :: ps, by simp [hx, hps], pos', prev', g', ?_, hrest'⟩
    rw [hscan, hscan']
    rfl

/-! ## §5 Contents -/

/-- What a scanned sector holds. -/
structure ScannedSector where
  chrn : Chrn
  payload : List UInt8
  st1 : UInt8
  st2 : UInt8
  deriving DecidableEq

/-- What a scan holds, in the order of its sectors. -/
def TrackScan.contents (ts : TrackScan) : List ScannedSector :=
  ts.sec.map fun s => ⟨s.chrn, ts.payloadOf s, s.st1, s.st2⟩

/-- A sector as an error-free scan reports it. -/
def MfmSector.scanned (s : MfmSector) : ScannedSector :=
  ⟨s.chrn, s.payload, 0, if s.dam = 0xF8 then 0x40 else 0⟩

/-- Every record's payload lies inside the used part of the track buffer. -/
def TrackScan.Inside (ts : TrackScan) : Prop := ∀ s ∈ ts.sec, s.off + s.len ≤ ts.data.length

private theorem findSec_none {ts : TrackScan} {c : Chrn} (h : c ∉ ts.contents.map (·.chrn)) :
    findSec ts c = none := by
  rw [findSec, List.findIdx?_eq_none_iff]
  intro s hs
  rw [decide_eq_false_iff_not]
  rintro rfl
  exact h (by simpa [TrackScan.contents] using ⟨s, hs, rfl⟩)

theorem contents_collect_new {ts : TrackScan} (s : MfmSector) (idamBit dataBit : Nat) (hin : ts.Inside)
    (hnew : s.chrn ∉ ts.contents.map (·.chrn)) (hcount : ts.sec.length < kMaxSectors)
    (hroom : ts.data.length + s.payload.length ≤ kMaxTrackBytes) :
    (collect ts s.chrn idamBit dataBit s.dam s.payload true).contents = ts.contents ++ [s.scanned] ∧
      (collect ts s.chrn idamBit dataBit s.dam s.payload true).Inside ∧
      (collect ts s.chrn idamBit dataBit s.dam s.payload true).data.length =
        ts.data.length + s.payload.length := by
  unfold collect
  rw [findSec_none hnew]
  dsimp only
  rw [if_pos ⟨hcount, hroom⟩]
  refine ⟨?_, ?_, by simp⟩
  · simp only [TrackScan.contents, List.map_append, List.map_cons, List.map_nil]
    congr 1
    · apply List.map_congr_left
      intro r hr
      have hr' := hin r hr
      simp only [TrackScan.payloadOf]
      -- The sectors collected before lie in front of the new payload.
      rw [List.drop_append_of_le_length (by omega), List.take_append_of_le_length (by simp; omega)]
    · simp [TrackScan.payloadOf, MfmSector.scanned]
  · intro r hr
    simp only [List.mem_append, List.mem_singleton] at hr
    rcases hr with hr | rfl
    · have := hin r hr
      simp only [List.length_append]
      omega
    · simp

/-- A sector list a track can carry: readable sectors with distinct IDs, within the scanner's
    sector count and payload bounds. -/
structure WellFormedSectors (ss : List MfmSector) : Prop where
  count : ss.length ≤ kMaxSectors
  readable : ∀ s ∈ ss, Readable s
  distinct : (ss.map MfmSector.chrn).Nodup
  total : (ss.map (·.payload.length)).sum ≤ kMaxTrackBytes

/-- A first pass over distinct sectors collects them all, in order. -/
theorem contents_collectAll (l : List PlacedSector) (ts : TrackScan) (hin : ts.Inside)
    (hdistinct : (ts.contents.map (·.chrn) ++ l.map (·.sector.chrn)).Nodup)
    (hcount : ts.sec.length + l.length ≤ kMaxSectors)
    (hroom : ts.data.length + (l.map (·.sector.payload.length)).sum ≤ kMaxTrackBytes) :
    (collectAll ts l).contents = ts.contents ++ l.map (·.sector.scanned) ∧
      (collectAll ts l).Inside := by
  induction l generalizing ts with
  | nil => simpa [collectAll] using hin
  | cons x l ih =>
    simp only [List.map_cons, List.sum_cons, List.length_cons] at hcount hroom hdistinct
    -- The IDs are distinct, so the scan has not met this one and adds it.
    have hnew : x.sector.chrn ∉ ts.contents.map (·.chrn) := by
      intro hmem
      exact (List.nodup_append.mp hdistinct).2.2 _ hmem _ (by simp) rfl
    obtain ⟨hcont, hin', hlen⟩ := contents_collect_new x.sector x.idamBit x.dataBit hin hnew
      (by omega) (by omega)
    have hcount' : (collect ts x.sector.chrn x.idamBit x.dataBit x.sector.dam x.sector.payload true).sec.length
        = ts.sec.length + 1 := by
      have := congrArg List.length hcont
      simpa [TrackScan.contents] using this
    -- The rest is collected on top of the scan that holds `x`.
    obtain ⟨hall, hinAll⟩ := ih
      (collect ts x.sector.chrn x.idamBit x.dataBit x.sector.dam x.sector.payload true) hin'
      (by
        rw [hcont, List.map_append, List.append_assoc]
        simpa [MfmSector.scanned] using hdistinct)
      (by omega) (by omega)
    refine ⟨?_, hinAll⟩
    rw [collectAll, List.foldl_cons]
    rw [collectAll] at hall
    rw [hall, hcont]
    simp

/-! ## §6 The round trip -/

theorem scanTrack_layout {bb : BitBuf} {g : List Bool} {l : List (MfmSector × List Bool)}
    (hwf : WellFormedSectors (l.map Prod.fst))
    (hbb : bb.cells = expandBits false g ++ layoutCells (lastBit false g) l) :
    (scanTrack bb).contents = (l.map Prod.fst).map MfmSector.scanned := by
  have hahead : bb.Ahead 0 (expandBits false g ++ layoutCells (lastBit false g) l) := by
    rw [BitBuf.Ahead, List.drop_zero, hbb]
  obtain ⟨ps, hps, pos', prev', g', hscan, htail⟩ := scanFrom_layout l {}
    (fun x hx => hwf.readable x.1 (List.mem_map_of_mem hx)) rfl hahead
  -- the last gap holds no further mark
  have hdone : huntSync bb pos' 0 = none := by
    rw [huntSync_eq_hunt 0 htail, hunt_of_clockKept (expandBits_clockKept _ _)]
    rfl
  have hmap : ∀ {α : Type} (f : MfmSector → α), ps.map (fun x => f x.sector) = (l.map Prod.fst).map f := by
    intro α f
    rw [← hps, List.map_map]
    rfl
  obtain ⟨hcont, -⟩ := contents_collectAll ps {} (fun s hs => by simp at hs)
    (by
      rw [hmap MfmSector.chrn]
      simpa [TrackScan.contents] using hwf.distinct)
    (by
      have hlen := congrArg List.length hps
      have hcount := hwf.count
      rw [List.length_map] at hlen
      simp only [List.length_nil]
      omega)
    (by
      rw [hmap fun s => s.payload.length]
      simpa using hwf.total)
  rw [scanTrack, hscan, scanFrom_done hdone, hcont, hmap MfmSector.scanned]
  rfl

/-- The last gap of a layout ends in a set and a clear data bit, as the gap byte does. -/
def EndsInGap : List Bool → List (MfmSector × List Bool) → Prop
  | g, [] => ∃ bits, g = bits ++ [true, false]
  | _, (_, g) :: l => EndsInGap g l

theorem layout_trim (prev : Bool) {g : List Bool} {l : List (MfmSector × List Bool)}
    (hends : EndsInGap g l) :
    ∃ g' l' cells, l'.map Prod.fst = l.map Prod.fst ∧
      expandBits prev g' ++ layoutCells (lastBit prev g') l' = cells ++ [true] ∧
      expandBits prev g ++ layoutCells (lastBit prev g) l = cells ++ [true] ++ [false, false] := by
  induction l generalizing prev g with
  | nil =>
    obtain ⟨bits, rfl⟩ := hends
    refine ⟨bits ++ [true], [], expandBits prev bits ++ [false], rfl, ?_, ?_⟩
    · simp [layoutCells, expandBits_append, expandBits]
    · simp [layoutCells, expandBits_append, expandBits]
  | cons x l ih =>
    obtain ⟨s, g₁⟩ := x
    obtain ⟨g', l', cells, hsec, htrim, hcells⟩ := ih (itemsLast (lastBit prev g) (sectorCore s)) hends
    refine ⟨g, (s, g') :: l', expandBits prev g ++ (itemsCells (lastBit prev g) (sectorCore s) ++ cells),
      by simp [hsec], ?_, ?_⟩
    · rw [layoutCells, htrim]
      simp only [List.append_assoc]
    · rw [layoutCells, hcells]
      simp only [List.append_assoc]

/-- The sectors of a track, each with GAP3 behind it, the last also with the bits `tail`. -/
def gapped (gap3 : UInt8) (tail : List Bool) : List MfmSector → List (MfmSector × List Bool)
  | [] => []
  | [s] => [(s, gapBits gap3.toNat ++ tail)]
  | s :: s' :: ss => (s, gapBits gap3.toNat) :: gapped gap3 tail (s' :: ss)

theorem gapped_sectors (gap3 : UInt8) (tail : List Bool) (ss : List MfmSector) :
    (gapped gap3 tail ss).map Prod.fst = ss := by
  induction ss using gapped.induct with
  | case1 => rfl
  | case2 s => rfl
  | case3 s s' ss ih => rw [gapped, List.map_cons, ih]

theorem gapped_cells (gap3 : UInt8) (prev : Bool) (n : Nat) (s : MfmSector) (ss : List MfmSector) :
    layoutCells prev (gapped gap3 (gapBits n) (s :: ss)) =
      itemsCells prev ((s :: ss).flatMap (sectorItems gap3) ++ gapItems n) := by
  induction ss generalizing prev s with
  | nil =>
    have htail := itemsCells_gap (lastBit (itemsLast prev (sectorCore s)) (gapBits gap3.toNat)) n []
    rw [List.append_nil, itemsCells, List.append_nil] at htail
    simp only [gapped, layoutCells, List.append_nil, List.flatMap_cons, List.flatMap_nil,
      sectorItems_core, List.append_assoc, itemsCells_append _ (sectorCore s), itemsCells_gap, htail,
      expandBits_append]
  | cons s' ss ih =>
    rw [gapped, layoutCells, ih]
    conv_rhs =>
      rw [List.flatMap_cons, sectorItems_core, List.append_assoc, List.append_assoc, itemsCells_append,
        itemsCells_gap]

theorem gapBits_succ (n : Nat) : gapBits (n + 1) = (gapBits n ++ [false, true, false, false, true, true]) ++
    [true, false] := by
  have hbyte : gapBits 1 = [false, true, false, false, true, true, true, false] := by decide
  rw [gapBits_add, hbyte, List.append_assoc]
  rfl

theorem gapped_endsInGap {gap3 : UInt8} {g : List Bool} {n : Nat} {ss : List MfmSector}
    (hgap : ss = [] → ∃ bits, g = bits ++ [true, false]) (hgap3 : gap3 ≠ 0) :
    EndsInGap g (gapped gap3 (gapBits n) ss) := by
  induction ss using gapped.induct generalizing g with
  | case1 => exact hgap rfl
  | case2 s =>
    have hpos : gap3.toNat ≠ 0 := fun h => hgap3 (UInt8.toNat_inj.mp h)
    obtain ⟨k, hk⟩ := Nat.exists_eq_succ_of_ne_zero hpos
    have htotal : gap3.toNat + n = (k + n) + 1 := by omega
    rw [gapped, EndsInGap, EndsInGap, ← gapBits_add, htotal, gapBits_succ]
    exact ⟨_, rfl⟩
  | case3 s s' ss ih =>
    rw [gapped, EndsInGap]
    exact ih fun h => absurd h (by simp)

theorem mfmEncodeTrack_layout (desc : MfmTrackDesc) (hwf : WellFormedSectors desc.sectors) :
    ∃ g l, (mfmEncodeTrack desc).cells = expandBits false g ++ layoutCells (lastBit false g) l ∧
      l.map Prod.fst = desc.sectors ∧ (desc.gap3 ≠ 0 → EndsInGap g l) := by
  obtain ⟨n, hcells⟩ := mfmEncodeTrack_cells desc
  have hitems : sectorsItems desc.gap3 desc.sectors = desc.sectors.flatMap (sectorItems desc.gap3) := by
    rw [sectorsItems, List.filter_eq_self.mpr fun s hs => (hwf.readable s hs).encodable]
  rw [hitems] at hcells
  -- A track without sectors is one long gap.
  cases hss : desc.sectors with
  | nil =>
    rw [hss, List.flatMap_nil, List.nil_append] at hcells
    have htail := itemsCells_gap (lastBit false (gapBits kGap4aBytes)) n []
    rw [List.append_nil, itemsCells, List.append_nil] at htail
    rw [itemsCells_gap, htail, ← expandBits_append, ← gapBits_add] at hcells
    refine ⟨gapBits (kGap4aBytes + n), [], ?_, rfl, fun _ => ?_⟩
    · rw [hcells, layoutCells, List.append_nil]
    · have htotal : kGap4aBytes + n = (79 + n) + 1 := by
        simp only [kGap4aBytes]
        omega
      rw [EndsInGap, htotal, gapBits_succ]
      exact ⟨_, rfl⟩
  | cons s ss =>
    rw [hss] at hcells
    refine ⟨gapBits kGap4aBytes, gapped desc.gap3 (gapBits n) (s :: ss), ?_, gapped_sectors _ _ _,
      gapped_endsInGap (fun h => absurd h (by simp))⟩
    rw [hcells, itemsCells_gap, gapped_cells]

/-- **Encode then scan is the identity on sector content**: a scanner buffer that holds an encoded
    track's cells gives back the track's sectors in order, each with its own ID, its payload, ST1 = 0
    and ST2 = 0x40 exactly under the deleted data mark. -/
theorem scanTrack_mfmEncodeTrack (desc : MfmTrackDesc) (hwf : WellFormedSectors desc.sectors)
    (bb : BitBuf) (hbb : bb.cells = (mfmEncodeTrack desc).cells) :
    (scanTrack bb).contents = desc.sectors.map MfmSector.scanned := by
  obtain ⟨g, l, hcells, hsec, -⟩ := mfmEncodeTrack_layout desc hwf
  rw [← hsec] at hwf ⊢
  exact scanTrack_layout hwf (hbb.trans hcells)

/-! ### A buffer for a track -/

/-- The scanner's buffer filled with a revolution that fits it. -/
def BitBuf.ofRev (rev : MfmRev) (h : rev.nbits ≤ kMaxBits) : BitBuf where
  bits := (rev.bits ++ List.replicate (kMaxBits / 8) 0).take (kMaxBits / 8)
  n := rev.nbits
  sized := by simp
  bounded := h

theorem BitBuf.ofRev_cells (rev : MfmRev) (h : rev.nbits ≤ kMaxBits) :
    (BitBuf.ofRev rev h).cells = rev.cells := by
  apply unpack_congr
  intro i hi
  have hcov := rev.covered
  have hbyte : i / 8 < rev.bits.length := by
    simp only [BitBuf.ofRev] at hi
    omega
  have hroom : i / 8 < kMaxBits / 8 := by
    simp only [BitBuf.ofRev, kMaxBits] at hi h ⊢
    omega
  simp only [BitBuf.ofRev, Bits.bitAt, List.getD_eq_getElem?_getD]
  rw [List.getElem?_take_of_lt hroom, List.getElem?_append_left hbyte]

/-- One 128-byte sector under the deleted data mark, default GAP3. -/
def sampleTrack : MfmTrackDesc :=
  { sectors := [{ cyl := 3, secId := 0xC1, sizeCode := 0, payload := List.replicate 128 0xE5,
                  dam := 0xF8 }] }

theorem sampleTrack_wellFormed : WellFormedSectors sampleTrack.sectors where
  count := by simp [sampleTrack, kMaxSectors]
  readable := by
    intro s hs
    simp only [sampleTrack, List.mem_singleton] at hs
    subst hs
    exact ⟨by decide, by simp, Or.inr rfl⟩
  distinct := by simp [sampleTrack]
  total := by simp [sampleTrack, kMaxTrackBytes]

theorem sampleTrack_fits : (mfmEncodeTrack sampleTrack).nbits ≤ kMaxBits := by
  have hencodable : sampleTrack.sectors.filter (·.encodable) = sampleTrack.sectors :=
    List.filter_eq_self.mpr fun s hs => (sampleTrack_wellFormed.readable s hs).encodable
  rw [mfmEncodeTrack_nbits, trackBytes, hencodable]
  simp [-List.reduceReplicate, sampleTrack, sectorBytes, kGap4aBytes, kRevCells, kMaxBits]

theorem scanTrack_mfmEncodeTrack_sample :
    (scanTrack (BitBuf.ofRev (mfmEncodeTrack sampleTrack) sampleTrack_fits)).contents =
      [⟨⟨3, 0, 0xC1, 0⟩, List.replicate 128 0xE5, 0, 0x40⟩] := by
  rw [scanTrack_mfmEncodeTrack sampleTrack sampleTrack_wellFormed _ (BitBuf.ofRev_cells _ _)]
  simp [-List.reduceReplicate, sampleTrack, MfmSector.scanned, MfmSector.chrn]

end Koncepcja.Disk
