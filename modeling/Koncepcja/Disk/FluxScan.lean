import Koncepcja.Lib.Mfm

/-!
# The Track Scanner

The MFM half of `src/hw/flux.cpp`: a packed bit-cell buffer is hunted for 0x4489 sync marks, and the
ID and data fields behind them are read, CRC-checked and collected as sectors.

The source's single scan loop is split at its `continue`: `huntSync` is the bit-by-bit hunt,
`scanField` what happens behind a match, and `scanFrom` alternates the two.
-/

namespace Koncepcja.Disk

open Koncepcja.Bits Koncepcja.Mfm

/-! ## Bounds -/

/-- What a DSK Track-Info block holds. -/
def kMaxSectors : Nat := 29
/-- Larger size codes cannot fit double density. -/
def kScanMaxSizeCode : UInt8 := 5
/-- Bit cells: two revolutions and tolerance. -/
def kMaxBits : Nat := 262144
/-- The track payload buffer. -/
def kMaxTrackBytes : Nat := 8192
/-- The longest ID-end to data-mark gap, in bit cells. -/
def kDamWindow : Nat := 1280

/-! ## The bit-cell buffer -/

/-- `BitBuf`: packed bit cells, MSB-first, in a buffer of fixed size. -/
structure BitBuf where
  bits : List UInt8
  n : Nat
  sized : bits.length = kMaxBits / 8
  bounded : n ≤ kMaxBits

namespace BitBuf

def bitAt (bb : BitBuf) (i : Nat) : Bool := Bits.bitAt bb.bits i

/-- The decoded cells. -/
def cells (bb : BitBuf) : List Bool := unpack bb.bits bb.n

@[simp] theorem cells_length (bb : BitBuf) : bb.cells.length = bb.n := by simp [cells]

theorem cells_getElem? (bb : BitBuf) (i : Nat) (h : i < bb.n) : bb.cells[i]? = some (bb.bitAt i) := by
  rw [List.getElem?_eq_getElem (by simpa using h)]
  simp [cells, unpack, bitAt]

/-- The cells from position `pos` on are exactly `l`. -/
def Ahead (bb : BitBuf) (pos : Nat) (l : List Bool) : Prop := bb.cells.drop pos = l

theorem Ahead.length {bb : BitBuf} {pos : Nat} {l : List Bool} (h : bb.Ahead pos l) :
    l.length = bb.n - pos := by
  rw [← h, List.length_drop, cells_length]

theorem Ahead.advance {bb : BitBuf} {pos : Nat} {a b : List Bool} (h : bb.Ahead pos (a ++ b)) :
    bb.Ahead (pos + a.length) b := by
  unfold Ahead at h ⊢
  rw [← List.drop_drop, h, List.drop_left]

theorem Ahead.bitAt {bb : BitBuf} {pos i : Nat} {l : List Bool} {x : Bool} (h : bb.Ahead pos l)
    (hx : l[i]? = some x) : bb.bitAt (pos + i) = x := by
  have hlen : i < l.length := (List.getElem?_eq_some_iff.mp hx).1
  have hn := h.length
  have hcell : bb.cells[pos + i]? = some x := by
    rw [← hx, ← h, List.getElem?_drop]
  rw [cells_getElem? bb _ (by omega)] at hcell
  exact Option.some.inj hcell

end BitBuf

/-! ## MFM byte extraction -/

/-- `read_mfm_byte`: sixteen raw cells as one byte, data bits at the odd offsets; `none` past the
    end, with the position unmoved. -/
def readMfmByte (bb : BitBuf) (pos : Nat) : Option UInt8 × Nat :=
  if pos + 16 ≤ bb.n then
    (some (((List.range 8).map fun k => bb.bitAt (pos + 2 * k + 1)).foldl shiftInByte 0), pos + 16)
  else (none, pos)

/-- `read_raw16`: sixteen raw cells as a word (sync detection). -/
def readRaw16 (bb : BitBuf) (pos : Nat) : Option UInt16 × Nat :=
  if pos + 16 ≤ bb.n then
    (some (((List.range 16).map fun k => bb.bitAt (pos + k)).foldl shiftIn 0), pos + 16)
  else (none, pos)

/-- `crc_byte`: CRC-CCITT, poly 0x1021, MSB-first. -/
def crcByte (crc : UInt16) (b : UInt8) : UInt16 :=
  (List.range 8).foldl
    (fun c _ => if c &&& 0x8000 ≠ 0 then (c <<< 1) ^^^ 0x1021 else c <<< 1)
    (crc ^^^ (b.toUInt16 <<< 8))

/-- `crc_sync_preset`: init 0xFFFF over A1 A1 A1. -/
def crcSyncPreset : UInt16 := [0xA1, 0xA1, 0xA1].foldl crcByte 0xFFFF

/-- Read `k` bytes; `none` when the stream ends first, with the position where it stopped. -/
def readMfmBytes (bb : BitBuf) (pos : Nat) : Nat → Option (List UInt8) × Nat
  | 0 => (some [], pos)
  | k + 1 =>
    match readMfmByte bb pos with
    | (none, p) => (none, p)
    | (some b, p) =>
      let r := readMfmBytes bb p k
      (r.1.map (b :: ·), r.2)

/-- Read a stored CRC, high byte first. -/
def readCrc (bb : BitBuf) (pos : Nat) : Option UInt16 × Nat :=
  let hi := readMfmByte bb pos
  let lo := readMfmByte bb hi.2
  (hi.1.bind fun h => lo.1.map fun l => (h.toUInt16 <<< 8) ||| l.toUInt16, lo.2)

/-! ## Track scan -/

/-- The ID field of a sector. -/
structure Chrn where
  c : UInt8
  h : UInt8
  r : UInt8
  n : UInt8
  deriving DecidableEq, Repr

/-- The ID field four bytes spell. -/
def Chrn.ofBytes (id : List UInt8) : Chrn := ⟨id.getD 0 0, id.getD 1 0, id.getD 2 0, id.getD 3 0⟩

/-- `SecRec`: one collected sector; `len` bytes of payload at `off` in the track buffer. -/
structure SecRec where
  chrn : Chrn
  st1 : UInt8
  st2 : UInt8
  len : Nat
  off : Nat
  crcBad : Bool
  differs : Bool
  idamBit : Nat
  dataBit : Nat
  deriving DecidableEq

/-- `TrackScan` with the used part of the track payload buffer. -/
structure TrackScan where
  sec : List SecRec := []
  data : List UInt8 := []
  deriving DecidableEq

/-- The scanner between two fields: what was collected and the pending header with the cell its ID
    field ended at. -/
structure ScanState where
  scan : TrackScan := {}
  hdr : Option (Chrn × Nat) := none
  deriving DecidableEq

def findSec (ts : TrackScan) (chrn : Chrn) : Option Nat := ts.sec.findIdx? (·.chrn = chrn)

/-- The payload of a collected sector. -/
def TrackScan.payloadOf (ts : TrackScan) (s : SecRec) : List UInt8 := (ts.data.drop s.off).take s.len

/-- The bit-by-bit hunt; the position behind the completed sync mark. -/
def huntSync (bb : BitBuf) (pos : Nat) (sr : UInt16) : Option Nat :=
  if pos < bb.n then
    let sr' := shiftIn sr (bb.bitAt pos)
    if sr' = 0x4489 then some (pos + 1) else huntSync bb (pos + 1) sr'
  else none
termination_by bb.n - pos

/-- Consume the rest of the A1 sync run. -/
def skipSyncRun (bb : BitBuf) (p : Nat) : Nat :=
  match readRaw16 bb p with
  | (some w, _) =>
    if w = 0x4489 ∧ p + 16 ≤ bb.n then skipSyncRun bb (p + 16) else p
  | (none, _) => p
termination_by bb.n - p

/-- The ID field behind an IDAM: a CRC-valid header becomes pending. -/
def scanIdField (bb : BitBuf) (p : Nat) (st : ScanState) : ScanState × Nat :=
  match readMfmBytes bb p 4 with
  | (none, q) => (st, q)
  | (some id, q) =>
    match readCrc bb q with
    | (none, q) => (st, q)
    | (some crc, q) =>
      if crc = id.foldl crcByte (crcByte crcSyncPreset 0xFE) ∧
          (Chrn.ofBytes id).n ≤ kScanMaxSizeCode then
        ({ st with hdr := some (Chrn.ofBytes id, q) }, q)
      else (st, q)

/-- A complete data field under the header `hdr`: a second sighting feeds the weak comparison, a
    first one is collected within the bounds. -/
def collect (ts : TrackScan) (hdr : Chrn) (hdrEnd dataStart : Nat) (mark : UInt8) (payload : List UInt8)
    (crcOk : Bool) : TrackScan :=
  match findSec ts hdr with
  | some i =>
    match ts.sec[i]? with
    | some ex =>
      if ex.len ≠ payload.length ∨ (ts.data.drop ex.off).take payload.length ≠ payload then
        { ts with sec := ts.sec.set i { ex with differs := true } }
      else ts
    | none => ts
  | none =>
    if ts.sec.length < kMaxSectors ∧ ts.data.length + payload.length ≤ kMaxTrackBytes then
      { sec := ts.sec ++
          [{ chrn := hdr
             len := payload.length
             off := ts.data.length
             crcBad := !crcOk
             differs := false
             idamBit := hdrEnd
             dataBit := dataStart
             st1 := if crcOk then 0 else 0x20
             st2 := (if crcOk then 0 else 0x20) ||| (if mark = 0xF8 then 0x40 else 0) }]
        data := ts.data ++ payload }
    else ts

/-- The data field behind a data mark, under the pending header. -/
def scanDataField (bb : BitBuf) (p : Nat) (st : ScanState) (hdr : Chrn) (hdrEnd : Nat) (mark : UInt8) :
    ScanState × Nat :=
  match readMfmBytes bb p (128 <<< hdr.n.toNat) with
  | (none, q) => (st, q)
  | (some payload, q) =>
    match readCrc bb q with
    | (none, q) => (st, q)
    | (some crc, q) =>
      let crcOk := decide (crc = payload.foldl crcByte (crcByte crcSyncPreset mark))
      ({ scan := collect st.scan hdr hdrEnd p mark payload crcOk, hdr := none }, q)

/-- What the scanner does behind a sync match at `p`; `none` when the stream ends before the mark. -/
def scanField (bb : BitBuf) (p : Nat) (st : ScanState) : Option (ScanState × Nat) :=
  match readMfmByte bb (skipSyncRun bb p) with
  | (none, _) => none
  | (some mark, p) =>
    if mark = 0xFE then some (scanIdField bb p st)
    else if mark = 0xFB ∨ mark = 0xF8 then
      match st.hdr with
      | some (hdr, hdrEnd) =>
        if p - hdrEnd ≤ kDamWindow then some (scanDataField bb p st hdr hdrEnd mark) else some (st, p)
      | none => some (st, p)
    else some (st, p)

/-! ## Progress -/

theorem huntSync_bounds (bb : BitBuf) (pos : Nat) (sr : UInt16) {p : Nat}
    (h : huntSync bb pos sr = some p) : pos < p ∧ p ≤ bb.n := by
  induction pos, sr using huntSync.induct bb with
  | case1 pos sr hlt sr' hsync =>
    rw [huntSync, if_pos hlt, if_pos hsync] at h
    cases h
    omega
  | case2 pos sr hlt sr' hsync ih =>
    rw [huntSync, if_pos hlt, if_neg hsync] at h
    have := ih h
    omega
  | case3 pos sr hge =>
    rw [huntSync, if_neg hge] at h
    cases h

theorem readMfmByte_le (bb : BitBuf) (pos : Nat) : pos ≤ (readMfmByte bb pos).2 := by
  unfold readMfmByte
  split <;> simp

theorem readMfmBytes_le (bb : BitBuf) (pos k : Nat) : pos ≤ (readMfmBytes bb pos k).2 := by
  induction k generalizing pos with
  | zero => exact Nat.le_refl _
  | succ k ih =>
    have hle := readMfmByte_le bb pos
    rw [readMfmBytes]
    split
    next p heq =>
      rw [heq] at hle
      exact hle
    next b p heq =>
      rw [heq] at hle
      exact Nat.le_trans hle (ih p)

theorem readCrc_le (bb : BitBuf) (pos : Nat) : pos ≤ (readCrc bb pos).2 :=
  Nat.le_trans (readMfmByte_le bb pos) (readMfmByte_le bb _)

theorem skipSyncRun_le (bb : BitBuf) (p : Nat) : p ≤ skipSyncRun bb p := by
  induction p using skipSyncRun.induct bb with
  | case1 p w _ heq hsync ih =>
    rw [skipSyncRun, heq]
    simp only [if_pos hsync]
    omega
  | case2 p w _ heq hsync =>
    rw [skipSyncRun, heq]
    simp only [if_neg hsync]
    exact Nat.le_refl _
  | case3 p _ heq =>
    exact Nat.le_of_eq (by rw [skipSyncRun, heq])

theorem scanIdField_le (bb : BitBuf) (p : Nat) (st : ScanState) : p ≤ (scanIdField bb p st).2 := by
  have hbytes := readMfmBytes_le bb p 4
  unfold scanIdField
  split
  next q heq => rwa [heq] at hbytes
  next id q heq =>
    rw [heq] at hbytes
    have hcrc := readCrc_le bb q
    split
    next q' heq' =>
      rw [heq'] at hcrc
      exact Nat.le_trans hbytes hcrc
    next crc q' heq' =>
      rw [heq'] at hcrc
      split <;> exact Nat.le_trans hbytes hcrc

theorem scanDataField_le (bb : BitBuf) (p : Nat) (st : ScanState) (hdr : Chrn) (hdrEnd : Nat)
    (mark : UInt8) : p ≤ (scanDataField bb p st hdr hdrEnd mark).2 := by
  have hbytes := readMfmBytes_le bb p (128 <<< hdr.n.toNat)
  unfold scanDataField
  split
  next q heq => rwa [heq] at hbytes
  next payload q heq =>
    rw [heq] at hbytes
    have hcrc := readCrc_le bb q
    split
    next q' heq' =>
      rw [heq'] at hcrc
      exact Nat.le_trans hbytes hcrc
    next crc q' heq' =>
      rw [heq'] at hcrc
      exact Nat.le_trans hbytes hcrc

theorem scanField_le (bb : BitBuf) (p : Nat) (st : ScanState) {st' : ScanState} {p' : Nat}
    (h : scanField bb p st = some (st', p')) : p ≤ p' := by
  have hskip := skipSyncRun_le bb p
  have hmark := readMfmByte_le bb (skipSyncRun bb p)
  unfold scanField at h
  split at h
  next => cases h
  next mark q heq =>
    rw [heq] at hmark
    -- An ID field or a data field starts behind the mark, and ends behind its start.
    have hid := scanIdField_le bb q st
    split at h
    · obtain ⟨rfl, rfl⟩ := Prod.mk.inj (Option.some.inj h)
      exact Nat.le_trans hskip (Nat.le_trans hmark hid)
    · split at h
      · split at h
        next hdr hdrEnd _ =>
          have hdata := scanDataField_le bb q st hdr hdrEnd mark
          split at h
          · obtain ⟨rfl, rfl⟩ := Prod.mk.inj (Option.some.inj h)
            exact Nat.le_trans hskip (Nat.le_trans hmark hdata)
          · cases h
            exact Nat.le_trans hskip hmark
        next =>
          cases h
          exact Nat.le_trans hskip hmark
      · cases h
        exact Nat.le_trans hskip hmark

/-! ## The loop -/

/-- `scan_track`'s loop from a position between two fields. -/
def scanFrom (bb : BitBuf) (pos : Nat) (st : ScanState) : ScanState :=
  match _hhunt : huntSync bb pos 0 with
  | none => st
  | some p =>
    match _hfield : scanField bb p st with
    | none => st
    | some (st', p') => scanFrom bb p' st'
termination_by bb.n - pos
decreasing_by
  have hp := huntSync_bounds bb pos 0 _hhunt
  have hp' := scanField_le bb p st _hfield
  omega

def scanTrack (bb : BitBuf) : TrackScan := (scanFrom bb 0 {}).scan

theorem scanFrom_step {bb : BitBuf} {pos p p' : Nat} {st st' : ScanState}
    (hhunt : huntSync bb pos 0 = some p) (hfield : scanField bb p st = some (st', p')) :
    scanFrom bb pos st = scanFrom bb p' st' := by
  rw [scanFrom]
  split
  next heq =>
    rw [hhunt] at heq
    cases heq
  next q heq =>
    rw [hhunt] at heq
    cases heq
    split
    next heq' =>
      rw [hfield] at heq'
      cases heq'
    next st'' p'' heq' =>
      rw [hfield] at heq'
      cases heq'
      rfl

theorem scanFrom_done {bb : BitBuf} {pos : Nat} {st : ScanState} (hhunt : huntSync bb pos 0 = none) :
    scanFrom bb pos st = st := by
  rw [scanFrom]
  split
  next => rfl
  next p heq =>
    rw [hhunt] at heq
    cases heq

/-! ## Reading what lies ahead -/

theorem huntSync_eq_hunt {bb : BitBuf} {pos : Nat} {l : List Bool} (sr : UInt16) (h : bb.Ahead pos l) :
    huntSync bb pos sr = (hunt sr l).map (pos + ·) := by
  induction l generalizing pos sr with
  | nil =>
    have hlen := h.length
    rw [huntSync, if_neg (by simp at hlen; omega)]
    rfl
  | cons b l ih =>
    have hlen := h.length
    have hbit : bb.bitAt pos = b := h.bitAt (i := 0) rfl
    have htail : bb.Ahead (pos + 1) l := h.advance (a := [b])
    rw [huntSync, if_pos (by simp at hlen; omega), hbit, hunt]
    simp only [syncWord]
    by_cases hsync : shiftIn sr b = 0x4489
    · simp [hsync]
    · simp only [hsync, if_false, ih _ htail, Option.map_map]
      congr 1
      funext k
      simp only [Function.comp_apply]
      omega

private theorem map_range_eq {l : List Bool} {n : Nat} {f : Nat → Bool} (hlen : l.length = n)
    (h : ∀ k x, l[k]? = some x → f k = x) : (List.range n).map f = l := by
  apply List.ext_getElem?
  intro k
  rw [List.getElem?_map]
  by_cases hk : k < n
  · obtain ⟨x, hx⟩ : ∃ x, l[k]? = some x := ⟨_, List.getElem?_eq_getElem (by omega)⟩
    rw [List.getElem?_range hk, hx, Option.map_some, h k x hx]
  · rw [List.getElem?_eq_none (by simp; omega), List.getElem?_eq_none (by omega)]
    rfl

theorem readMfmByte_ahead {bb : BitBuf} {pos : Nat} {prev : Bool} {b : UInt8} {rest : List Bool}
    (h : bb.Ahead pos (expandBits prev (byteBits b) ++ rest)) :
    readMfmByte bb pos = (some b, pos + 16) := by
  have hlen := h.length
  simp only [List.length_append, expandBits_length, byteBits_length] at hlen
  have hbits : ((List.range 8).map fun k => bb.bitAt (pos + 2 * k + 1)) = byteBits b := by
    apply map_range_eq (byteBits_length b)
    intro k x hx
    have hcell : (expandBits prev (byteBits b) ++ rest)[2 * k + 1]? = some x := by
      have hk := (List.getElem?_eq_some_iff.mp hx).1
      rw [List.getElem?_append_left (by simp at hk ⊢; omega), expandBits_data, hx]
    have hbit := h.bitAt hcell
    rwa [← Nat.add_assoc] at hbit
  rw [readMfmByte, if_pos (by omega), hbits, byteBits_foldl]

theorem readRaw16_ahead {bb : BitBuf} {pos : Nat} {w : UInt16} {rest : List Bool}
    (h : bb.Ahead pos (wordBits w ++ rest)) : readRaw16 bb pos = (some w, pos + 16) := by
  have hlen := h.length
  simp only [List.length_append, wordBits_length] at hlen
  have hbits : ((List.range 16).map fun k => bb.bitAt (pos + k)) = wordBits w := by
    apply map_range_eq (wordBits_length w)
    intro k x hx
    have hcell : (wordBits w ++ rest)[k]? = some x := by
      rw [List.getElem?_append_left (List.getElem?_eq_some_iff.mp hx).1, hx]
    exact h.bitAt hcell
  rw [readRaw16, if_pos (by omega), hbits, wordBits_foldl]

end Koncepcja.Disk
