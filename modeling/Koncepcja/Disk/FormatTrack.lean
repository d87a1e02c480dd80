import Koncepcja.Disk.DiskWindows

/-!
# Formatted Tracks

FORMAT TRACK rewrites a track inside its own block of the image and parses the whole image again.
The room it checks is the block's, as the disc header declares it. Two things are left to the image:
that the block lies inside the image, and that no other track's data reaches into it.

## Main results

- `byteAt_formatImage`: the bytes a FORMAT rewrites, and that it leaves the others alone.
- `parseDsk_formatImage`: the image parses again with the requested track in its place, unless the
  new data would end behind the image.
- `formatted_iff`: the medium is formatted exactly when the image has the room.
-/

namespace Koncepcja.Disk

open Koncepcja.Bits Koncepcja.Bytes

/-! ## The rewritten block -/

/-- The bytes of the data area. -/
def formatLen (n sc : UInt8) : Nat := sc.toNat * (128 <<< n.toNat)

/-- The offset a FORMAT writes from: the size code in the track's header. -/
def formatStart (trk : FdcTrack) : Nat := trk.dataOff - 0x100 + 0x14

/-- What a FORMAT writes from there on: the rest of the header, and the filler of the data area. -/
def formatBlock (n sc gpl fill : UInt8) (ids : List UInt8) : List UInt8 :=
  formatHeader n sc gpl fill ids ++ List.replicate (formatLen n sc) fill

/-- Entry `i` of the IDs the CPU sent. -/
def fmtChrn (ids : List UInt8) (i : Nat) : Chrn :=
  ⟨byteAt ids (4 * i), byteAt ids (4 * i + 1), byteAt ids (4 * i + 2), byteAt ids (4 * i + 3)⟩

/-- The track a FORMAT asks for: its IDs, clear status, and sectors of one size behind each other. -/
def requestedTrack (dataOff : Nat) (n sc : UInt8) (ids : List UInt8) : FdcTrack :=
  { dataOff := dataOff
    dataLen := formatLen n sc
    sec := (List.range sc.toNat).map fun i =>
      ⟨fmtChrn ids i, 0, 0, dataOff + i * (128 <<< n.toNat), 128 <<< n.toNat⟩ }

/-- The parameters of a FORMAT as far as `cmd_format_track` checks them, and its ID buffer. -/
structure FormatArgs (n sc : UInt8) (ids : List UInt8) : Prop where
  count : sc.toNat ≤ kMaxSectors
  size : n ≤ 7
  ids : ids.length = 116

section
variable {n sc gpl fill : UInt8} {ids : List UInt8}

theorem formatEntry_length (h : FormatArgs n sc ids) (secSize i : Nat) :
    (formatEntry ids sc.toNat secSize i).length = 8 := by
  have hcount := h.count
  simp only [kMaxSectors] at hcount
  rw [formatEntry]
  split
  · rw [List.length_append, slice_length (by rw [h.ids]; omega)]
    rfl
  · exact List.length_replicate

theorem formatHeader_length (h : FormatArgs n sc ids) : (formatHeader n sc gpl fill ids).length = 236 := by
  have hflat : ((List.range kMaxSectors).flatMap (formatEntry ids sc.toNat (128 <<< n.toNat))).length = 232 := by
    rw [List.length_flatMap, List.map_congr_left fun i _ => formatEntry_length h _ i]
    decide
  rw [formatHeader, List.length_append, hflat]
  rfl

theorem byteAt_formatBlock_data (h : FormatArgs n sc ids) {k : Nat} (hlo : 236 ≤ k) (hhi : k < 236 + formatLen n sc) :
    byteAt (formatBlock n sc gpl fill ids) k = fill := by
  rw [formatBlock, byteAt_append_of_ge _ _ (by rw [formatHeader_length h]; exact hlo), formatHeader_length h]
  exact byteAt_replicate fill (by omega)

theorem byteAt_formatBlock_entry (h : FormatArgs n sc ids) {i j : Nat} (hi : i < kMaxSectors) (hj : j < 8) :
    byteAt (formatBlock n sc gpl fill ids) (4 + (8 * i + j)) =
      byteAt (formatEntry ids sc.toNat (128 <<< n.toNat) i) j := by
  have hin : 4 + (8 * i + j) < (formatHeader n sc gpl fill ids).length := by
    rw [formatHeader_length h]
    simp only [kMaxSectors] at hi
    omega
  rw [formatBlock, byteAt_append_of_lt _ _ hin, formatHeader, byteAt_append_of_ge _ _ (Nat.le_add_right 4 _)]
  have hback : 4 + (8 * i + j) - ([n, sc, gpl, fill] : List UInt8).length = 8 * i + j := Nat.add_sub_cancel_left 4 _
  rw [hback]
  exact byteAt_flatMap_range (formatEntry_length h _) hi hj

theorem byteAt_formatEntry (h : FormatArgs n sc ids) {i : Nat} (hi : i < sc.toNat) (secSize : Nat) :
    (∀ j < 4, byteAt (formatEntry ids sc.toNat secSize i) j = byteAt ids (4 * i + j)) ∧
      byteAt (formatEntry ids sc.toNat secSize i) 4 = 0 ∧ byteAt (formatEntry ids sc.toNat secSize i) 5 = 0 ∧
      byteAt (formatEntry ids sc.toNat secSize i) 6 = UInt8.ofNat secSize ∧
      byteAt (formatEntry ids sc.toNat secSize i) 7 = UInt8.ofNat (secSize / 256) := by
  have hcount := h.count
  simp only [kMaxSectors] at hcount
  have hlen : (slice ids (4 * i) 4).length = 4 := slice_length (by rw [h.ids]; omega)
  have htail : ∀ j, byteAt (slice ids (4 * i) 4 ++ [0, 0, UInt8.ofNat secSize, UInt8.ofNat (secSize / 256)]) (4 + j) =
      byteAt [0, 0, UInt8.ofNat secSize, UInt8.ofNat (secSize / 256)] j := by
    intro j
    rw [byteAt_append_of_ge _ _ (by omega), hlen, Nat.add_sub_cancel_left]
  rw [formatEntry, if_pos hi]
  refine ⟨fun j hj => ?_, htail 0, htail 1, htail 2, htail 3⟩
  rw [byteAt_append_of_lt _ _ (by omega)]
  exact (byteAt_of_slice hj).symm

theorem sectorSize_lt (hn : n ≤ 7) : 128 <<< n.toNat < 65536 := by
  have hle : n.toNat ≤ 7 := UInt8.le_iff_toNat_le.mp hn
  rw [Nat.shiftLeft_eq]
  calc 128 * 2 ^ n.toNat ≤ 128 * 2 ^ 7 := Nat.mul_le_mul_left _ (Nat.pow_le_pow_right (by decide) hle)
    _ < 65536 := by decide

theorem bytes_of_word {w : Nat} (h : w < 65536) : w % 2 ^ 8 + 256 * (w / 256 % 2 ^ 8) = w := by omega

end

/-! ## The rewritten image -/

section
variable {image : List UInt8} {trk : FdcTrack} {n sc gpl fill : UInt8} {ids : List UInt8}

variable (gpl fill) in
theorem formatImage_length (hoff : 0x100 ≤ trk.dataOff) (hin : trk.dataOff ≤ image.length) (h : FormatArgs n sc ids) :
    (formatImage image trk n sc gpl fill ids).length = image.length := by
  have hheader : (overwrite image (trk.dataOff - 0x100 + 0x14) (formatHeader n sc gpl fill ids)).length = image.length :=
    overwrite_length (by rw [formatHeader_length h]; omega)
  have hdata : image.length ≤ (overwrite (overwrite image (trk.dataOff - 0x100 + 0x14) (formatHeader n sc gpl fill ids))
      trk.dataOff (List.replicate (sc.toNat * 128 <<< n.toNat) fill)).length := by
    generalize List.replicate (sc.toNat * 128 <<< n.toNat) fill = data
    rw [overwrite, List.length_append, List.length_append, List.length_take, hheader, List.length_drop, hheader]
    omega
  rw [formatImage, List.length_take, Nat.min_eq_left hdata]

variable (gpl fill) in
/-- **The bytes of a FORMAT**: the block from the size code on, as far as the image reaches. -/
theorem byteAt_formatImage (hoff : 0x100 ≤ trk.dataOff) (hin : trk.dataOff ≤ image.length) (h : FormatArgs n sc ids)
    (k : Nat) :
    byteAt (formatImage image trk n sc gpl fill ids) k =
      if formatStart trk ≤ k ∧ k < trk.dataOff + formatLen n sc ∧ k < image.length then
        byteAt (formatBlock n sc gpl fill ids) (k - formatStart trk)
      else byteAt image k := by
  have hheader : (overwrite image (trk.dataOff - 0x100 + 0x14) (formatHeader n sc gpl fill ids)).length = image.length :=
    overwrite_length (by rw [formatHeader_length h]; omega)
  rw [formatStart]
  by_cases hk : k < image.length
  · have hdata : (List.replicate (sc.toNat * 128 <<< n.toNat) fill).length = formatLen n sc := List.length_replicate
    rw [formatImage, byteAt_take hk, byteAt_overwrite _ (by omega), hdata]
    by_cases hfill : trk.dataOff ≤ k ∧ k < trk.dataOff + formatLen n sc
    · rw [if_pos hfill, if_pos ⟨by omega, hfill.2, hk⟩, byteAt_replicate fill (by rw [← formatLen]; omega)]
      exact (byteAt_formatBlock_data h (by omega) (by omega)).symm
    · rw [if_neg hfill, byteAt_overwrite _ (by omega), formatHeader_length h]
      by_cases hhead : trk.dataOff - 0x100 + 0x14 ≤ k ∧ k < trk.dataOff
      · rw [if_pos ⟨hhead.1, by omega⟩, if_pos ⟨hhead.1, by omega, hk⟩, formatBlock,
          byteAt_append_of_lt _ _ (by rw [formatHeader_length h]; omega)]
      · rw [if_neg (by omega), if_neg (by omega)]
  · rw [if_neg (fun hc => hk hc.2.2), byteAt_of_length_le (Nat.not_lt.mp hk),
      byteAt_of_length_le (by rw [formatImage_length gpl fill hoff hin h]; exact Nat.not_lt.mp hk)]

variable (gpl fill) in
theorem byteAt_formatImage_outside (hoff : 0x100 ≤ trk.dataOff) (hin : trk.dataOff ≤ image.length)
    (h : FormatArgs n sc ids) {k : Nat} (hk : k < formatStart trk ∨ trk.dataOff + formatLen n sc ≤ k) :
    byteAt (formatImage image trk n sc gpl fill ids) k = byteAt image k := by
  rw [byteAt_formatImage gpl fill hoff hin h, if_neg (by omega)]

theorem byteAt_formatImage_header (hoff : 0x100 ≤ trk.dataOff) (hin : trk.dataOff ≤ image.length)
    (h : FormatArgs n sc ids) {j : Nat} (hj : j < 236) :
    byteAt (formatImage image trk n sc gpl fill ids) (trk.dataOff - 0x100 + (0x14 + j)) =
      byteAt (formatBlock n sc gpl fill ids) j := by
  have hback : trk.dataOff - 0x100 + (0x14 + j) - (trk.dataOff - 0x100 + 0x14) = j := by omega
  rw [byteAt_formatImage gpl fill hoff hin h, formatStart, if_pos (by omega), hback]

theorem sectorInfo_formatImage (hoff : 0x100 ≤ trk.dataOff) (hin : trk.dataOff ≤ image.length)
    (h : FormatArgs n sc ids) {i : Nat} (hi : i < sc.toNat) :
    sectorInfo (formatImage image trk n sc gpl fill ids) (trk.dataOff - 0x100) i =
      ⟨fmtChrn ids i, 0, 0, 128 <<< n.toNat⟩ := by
  have hcount := h.count
  simp only [kMaxSectors] at hcount
  -- Each of the eight bytes lies in the header that FORMAT wrote.
  have hbyte : ∀ j < 8, byteAt (formatImage image trk n sc gpl fill ids) (trk.dataOff - 0x100 + 0x18 + 8 * i + j) =
      byteAt (formatEntry ids sc.toNat (128 <<< n.toNat) i) j := by
    intro j hj
    have hpos : trk.dataOff - 0x100 + 0x18 + 8 * i + j = trk.dataOff - 0x100 + (0x14 + (4 + (8 * i + j))) := by omega
    rw [hpos, byteAt_formatImage_header hoff hin h (by omega)]
    exact byteAt_formatBlock_entry h (by simp only [kMaxSectors]; omega) hj
  obtain ⟨hid, hst1, hst2, hlo, hhi⟩ := byteAt_formatEntry h hi (128 <<< n.toNat)
  have hword : rd16le (formatImage image trk n sc gpl fill ids) (trk.dataOff - 0x100 + 0x18 + 8 * i + 6) =
      128 <<< n.toNat := by
    rw [rd16le, hbyte 6 (by omega), Nat.add_assoc _ 6 1, hbyte 7 (by omega), hlo, hhi, UInt8.toNat_ofNat',
      UInt8.toNat_ofNat']
    exact bytes_of_word (sectorSize_lt h.size)
  have hc := (hbyte 0 (by omega)).trans (hid 0 (by omega))
  have hh := (hbyte 1 (by omega)).trans (hid 1 (by omega))
  have hr := (hbyte 2 (by omega)).trans (hid 2 (by omega))
  have hn := (hbyte 3 (by omega)).trans (hid 3 (by omega))
  have h4 := (hbyte 4 (by omega)).trans hst1
  have h5 := (hbyte 5 (by omega)).trans hst2
  rw [Nat.add_zero] at hc
  rw [sectorInfo, hc, hh, hr, hn, h4, h5, hword]
  rfl

/-! ## Parsing it again -/

theorem placeSectors_same {p : List UInt8} {extended : Bool} {sizeCode : UInt8} {th size : Nat} {id : Nat → Chrn}
    (hsize : size ≤ 0xFFFF) {count : Nat} (i pos : Nat)
    (hinfo : ∀ k, i ≤ k → k < i + count → sectorInfo p th k = ⟨id k, 0, 0, size⟩)
    (hstored : ∀ k, i ≤ k → k < i + count → dskStored extended sizeCode (sectorInfo p th k) = size) :
    placeSectors p extended sizeCode th count i pos =
      some ((List.range' i count).map fun k => ⟨id k, 0, 0, pos + (k - i) * size, size⟩, pos + count * size) := by
  induction count generalizing i pos with
  | zero => rw [placeSectors, List.range'_zero, List.map_nil, Nat.zero_mul, Nat.add_zero]
  | succ count ih =>
    have hfirst := hinfo i (Nat.le_refl _) (by omega)
    have hlen := hstored i (Nat.le_refl _) (by omega)
    have hrest := ih (i + 1) (pos + size) (fun k hk hk' => hinfo k (by omega) (by omega))
      (fun k hk hk' => hstored k (by omega) (by omega))
    rw [placeSectors]
    rw [hlen, if_neg (Nat.not_lt.mpr hsize), hrest, hfirst, List.range'_succ, List.map_cons]
    dsimp only
    -- The sectors lie one behind the other, all of one size.
    have htail : ∀ k ∈ List.range' (i + 1) count, pos + size + (k - (i + 1)) * size = pos + (k - i) * size := by
      intro k hk
      obtain ⟨hlo, -⟩ := List.mem_range'_1.mp hk
      have hstep : k - i = k - (i + 1) + 1 := by omega
      rw [hstep, Nat.succ_mul]
      omega
    rw [List.map_congr_left fun k hk => by rw [htail k hk], Nat.sub_self, Nat.zero_mul, Nat.add_zero, Nat.succ_mul]
    congr 2
    omega

variable (gpl fill) in
theorem parseTrackBlock_format (extended : Bool) (hoff : 0x100 ≤ trk.dataOff) (hin : trk.dataOff ≤ image.length)
    (h : FormatArgs n sc ids) (hmagic : slice image (trk.dataOff - 0x100) 10 = trackInfoMagic) :
    parseTrackBlock (formatImage image trk n sc gpl fill ids) extended (trk.dataOff - 0x100) =
      if trk.dataOff + formatLen n sc ≤ image.length then some (requestedTrack trk.dataOff n sc ids) else none := by
  have hlen := formatImage_length gpl fill hoff hin h
  have hback : trk.dataOff - 0x100 + 0x100 = trk.dataOff := by omega
  have hmagic' : slice (formatImage image trk n sc gpl fill ids) (trk.dataOff - 0x100) 10 = trackInfoMagic := by
    rw [← hmagic]
    -- The header's text is in front of what FORMAT writes.
    have hkeeps : Keeps (fun i => i < formatStart trk) image (formatImage image trk n sc gpl fill ids) := by
      refine ⟨Nat.le_of_eq hlen.symm, fun i _ hi => ?_⟩
      exact byteAt_formatImage_outside gpl fill hoff hin h (.inl hi)
    refine hkeeps.slice (by omega) ?_
    intro i _ hi
    rw [formatStart]
    omega
  have hsize : byteAt (formatImage image trk n sc gpl fill ids) (trk.dataOff - 0x100 + 0x14) = n :=
    byteAt_formatImage_header (j := 0) hoff hin h (by decide)
  have hcount : byteAt (formatImage image trk n sc gpl fill ids) (trk.dataOff - 0x100 + 0x15) = sc :=
    byteAt_formatImage_header (j := 1) hoff hin h (by decide)
  have hinfo : ∀ k, 0 ≤ k → k < 0 + sc.toNat →
      sectorInfo (formatImage image trk n sc gpl fill ids) (trk.dataOff - 0x100) k =
        ⟨fmtChrn ids k, 0, 0, 128 <<< n.toNat⟩ := fun k _ hk =>
    sectorInfo_formatImage hoff hin h (Nat.zero_add sc.toNat ▸ hk)
  -- All sectors are stored with the same size, so they lie one behind the other.
  have hstored : ∀ k, 0 ≤ k → k < 0 + sc.toNat →
      dskStored extended n (sectorInfo (formatImage image trk n sc gpl fill ids) (trk.dataOff - 0x100) k) =
        128 <<< n.toNat := by
    intro k hk hk'
    rw [dskStored, hinfo k hk hk']
    split <;> rfl
  have hplace := placeSectors_same (Nat.le_of_lt_succ (sectorSize_lt h.size)) 0 trk.dataOff hinfo hstored
  have hlimits : ¬ (kMaxSectors < sc.toNat ∨ 7 < n) := by
    rw [not_or]
    exact ⟨Nat.not_lt.mpr h.count, UInt8.not_lt.mpr h.size⟩
  rw [parseTrackBlock, hlen, if_neg (by omega), if_neg (not_not.mpr hmagic')]
  dsimp only
  rw [hsize, hcount, if_neg hlimits, hback, hplace]
  dsimp only
  rw [← formatLen]
  by_cases hroom : trk.dataOff + formatLen n sc ≤ image.length
  · rw [if_neg (Nat.not_lt.mpr hroom), if_pos hroom, requestedTrack, Nat.add_sub_cancel_left, List.range_eq_range']
    rfl
  · rw [if_pos (Nat.not_le.mp hroom), if_neg hroom]

end

theorem parseTrackBlock_congr {p p' : List UInt8} {extended : Bool} {off : Nat} (hlen : p'.length = p.length)
    (hbytes : ∀ k, off ≤ k → k < off + 0x100 → byteAt p' k = byteAt p k) :
    parseTrackBlock p' extended off = parseTrackBlock p extended off := by
  by_cases hroom : p.length < off + 0x100
  · rw [parseTrackBlock, parseTrackBlock, hlen, if_pos hroom, if_pos hroom]
  have hkeeps : Keeps (fun k => off ≤ k ∧ k < off + 0x100) p p' :=
    ⟨Nat.le_of_eq hlen.symm, fun i _ hi => hbytes i hi.1 hi.2⟩
  have hmagic : slice p' off 10 = slice p off 10 := hkeeps.slice (by omega) fun i hi hi' => ⟨hi, by omega⟩
  -- All entries lie in the header: 0x18 bytes, and eight for each of 29 sectors.
  have hinfo : ∀ k < kMaxSectors, sectorInfo p' off k = sectorInfo p off k := by
    intro k hk
    simp only [kMaxSectors] at hk
    have hbyte : ∀ j < 8, byteAt p' (off + 0x18 + 8 * k + j) = byteAt p (off + 0x18 + 8 * k + j) := fun j hj =>
      hbytes _ (by omega) (by omega)
    rw [sectorInfo, sectorInfo, hbyte 1 (by omega), hbyte 2 (by omega), hbyte 3 (by omega), hbyte 4 (by omega),
      hbyte 5 (by omega), rd16le_congr (hbyte 6 (by omega)) (hbyte 7 (by omega))]
    have hzero := hbyte 0 (by omega)
    rw [Nat.add_zero] at hzero
    rw [hzero]
  have hplace : ∀ (sizeCode : UInt8) (count i pos : Nat), i + count ≤ kMaxSectors →
      placeSectors p' extended sizeCode off count i pos = placeSectors p extended sizeCode off count i pos := by
    intro sizeCode count
    induction count with
    | zero => exact fun _ _ _ => rfl
    | succ count ih =>
      intro i pos hi
      rw [placeSectors, placeSectors, hinfo i (by omega)]
      rw [ih _ _ (by omega)]
  rw [parseTrackBlock, parseTrackBlock, hlen, hmagic, hbytes (off + 0x14) (by omega) (by omega),
    hbytes (off + 0x15) (by omega) (by omega)]
  dsimp only
  by_cases hlimits : kMaxSectors < (byteAt p (off + 0x15)).toNat ∨ 7 < byteAt p (off + 0x14)
  · rw [if_pos hlimits, if_pos hlimits]
  · rw [hplace _ _ 0 _ (by omega)]

theorem parseTracks_of_succ {p : List UInt8} {extended : Bool} {count index : Nat} (hpresent : ¬ (extended = true ∧ blockLen p extended index = 0)) :
    parseTracks p extended (count + 1) index (blockOffset p extended index) =
      (parseTrackBlock p extended (blockOffset p extended index)).bind fun trk =>
        (parseTracks p extended count (index + 1) (blockOffset p extended (index + 1))).map (trk :: ·) := by
  rw [parseTracks, if_neg hpresent]
  cases parseTrackBlock p extended (blockOffset p extended index) with
  | none => rfl
  | some trk =>
    dsimp only [Option.bind_some]
    rw [← blockOffset]
    cases parseTracks p extended count (index + 1) (blockOffset p extended (index + 1)) <;> rfl

theorem parseTracks_of_absent {p : List UInt8} {extended : Bool} {count index : Nat}
    (habsent : extended = true ∧ blockLen p extended index = 0) :
    parseTracks p extended (count + 1) index (blockOffset p extended index) =
      (parseTracks p extended count (index + 1) (blockOffset p extended (index + 1))).map (({} : FdcTrack) :: ·) := by
  have hoff : blockOffset p extended (index + 1) = blockOffset p extended index := by
    rw [blockOffset, habsent.2, Nat.add_zero]
  rw [parseTracks, if_pos habsent, hoff]
  cases parseTracks p extended count (index + 1) (blockOffset p extended index) <;> rfl

/-- Two images of the same block lengths, whose blocks up to `count` parse alike but for one. -/
structure AlikeBut (slot : Nat) (extended : Bool) (p p' : List UInt8) (count : Nat) : Prop where
  length : ∀ i < count, blockLen p' extended i = blockLen p extended i
  block : ∀ i < count, i ≠ slot → ¬ (extended = true ∧ blockLen p extended i = 0) →
    parseTrackBlock p' extended (blockOffset p extended i) = parseTrackBlock p extended (blockOffset p extended i)
  present : ¬ (extended = true ∧ blockLen p extended slot = 0)

section
variable {p p' : List UInt8} {extended : Bool} {slot total : Nat}

theorem AlikeBut.offset (h : AlikeBut slot extended p p' total) {i : Nat} (hi : i ≤ total) :
    blockOffset p' extended i = blockOffset p extended i := by
  induction i with
  | zero => rfl
  | succ i ih => rw [blockOffset, blockOffset, ih (by omega), h.length i (by omega)]

/-- **The walk over the new image** gives the old tracks with the one block's in its place, or fails
    with it. -/
theorem AlikeBut.parseTracks (h : AlikeBut slot extended p p' total) {count index : Nat} {trks : List FdcTrack}
    (hrun : Disk.parseTracks p extended count index (blockOffset p extended index) = some trks)
    (htotal : index + count = total) :
    Disk.parseTracks p' extended count index (blockOffset p extended index) =
      if index ≤ slot ∧ slot < total then
        (parseTrackBlock p' extended (blockOffset p extended slot)).map (trks.set (slot - index) ·)
      else some trks := by
  induction count generalizing index trks with
  | zero =>
    rw [if_neg (by omega)]
    exact hrun
  | succ count ih =>
    obtain ⟨trk, rest, rfl, hfirst, hrest⟩ := parseTracks_succ hrun
    have htail := ih hrest (by omega)
    rw [← h.offset (i := index + 1) (by omega)] at htail
    rw [← h.offset (i := index) (by omega)]
    rw [TrackParsed] at hfirst
    by_cases hpresent : extended = true ∧ blockLen p extended index = 0
    · -- no block here, so it is not the one that changed
      have hne : index ≠ slot := fun heq => h.present (heq ▸ hpresent)
      rw [if_pos hpresent] at hfirst
      subst hfirst
      rw [parseTracks_of_absent (by rw [h.length index (by omega)]; exact hpresent), htail]
      by_cases hin : index ≤ slot ∧ slot < total
      · have hstep : slot - index = slot - (index + 1) + 1 := by omega
        rw [if_pos hin, if_pos ⟨by omega, hin.2⟩, hstep, Option.map_map]
        rfl
      · rw [if_neg hin, if_neg (by omega)]
        rfl
    · rw [if_neg hpresent] at hfirst
      rw [parseTracks_of_succ (by rw [h.length index (by omega)]; exact hpresent), htail,
        h.offset (i := index) (by omega)]
      by_cases heq : index = slot
      · -- the changed block, and the old ones behind it
        subst heq
        rw [if_neg (by omega), if_pos ⟨Nat.le_refl _, by omega⟩, Nat.sub_self]
        cases parseTrackBlock p' extended (blockOffset p extended index) <;> rfl
      · rw [h.block index (by omega) heq hpresent, hfirst]
        dsimp only [Option.bind_some]
        by_cases hin : index ≤ slot ∧ slot < total
        · have hstep : slot - index = slot - (index + 1) + 1 := by omega
          rw [if_pos hin, if_pos ⟨by omega, hin.2⟩, hstep, Option.map_map]
          rfl
        · rw [if_neg hin, if_neg (by omega)]
          rfl

end

theorem parseDsk_sides_le {p : List UInt8} {geo : FdcMedia} (h : parseDsk p = some geo) :
    geo.tracks * geo.sides ≤ 204 := by
  rw [parseDsk] at h
  split at h
  · cases h
  · split at h
    · cases h
    · rename_i extended _
      dsimp only at h
      split at h
      · cases h
      · rename_i hgeom
        split at h
        · cases h
        · split at h
          · cases h
          · obtain rfl := Option.some.inj h
            have hsides : fdcSides p extended ≤ 2 := by
              simp only [kMaxSides] at hgeom
              omega
            exact Nat.mul_le_mul (Nat.min_le_right _ kMaxTracks) hsides

theorem parseDsk_of_header {p p' : List UInt8} {geo : FdcMedia} (hlen : p'.length = p.length)
    (hhead : ∀ k < 0x100, byteAt p' k = byteAt p k) (h : parseDsk p = some geo) {extended : Bool}
    (hkind : dskKind p = some extended) :
    parseDsk p' = (parseTracks p' extended (geo.tracks * geo.sides) 0 0x100).map fun track => { geo with track := track } := by
  obtain ⟨extended', hkind', hroom, hzero, htracks, hsides, hone, hblock, -⟩ := parseDsk_some h
  obtain rfl : extended' = extended := Option.some.inj (hkind'.symm.trans hkind)
  have hkeeps : Keeps (fun k => k < 0x100) p p' := ⟨Nat.le_of_eq hlen.symm, fun i _ hi => hhead i hi⟩
  have hmagic : slice p' 0 8 = slice p 0 8 := hkeeps.slice (by omega) fun i _ hi => by omega
  have hkindEq : dskKind p' = some extended' := by
    rw [dskKind, hmagic, ← dskKind]
    exact hkind
  have hsidesEq : fdcSides p' extended' = geo.sides := by
    rw [hsides, fdcSides, fdcSides, hhead 0x31 (by omega)]
  have hsizeEq : rd16le p' 0x32 = rd16le p 0x32 := rd16le_congr (hhead _ (by omega)) (hhead _ (by omega))
  have hmax : geo.sides ≤ kMaxSides := by
    -- `parse_dsk` checked it for the old image
    rw [parseDsk] at h
    rw [if_neg (by omega), hkind'] at h
    dsimp only at h
    split at h
    · cases h
    · rename_i hgeom
      rw [hsides]
      omega
  have hgeom : ¬ ((byteAt p 0x30).toNat = 0 ∨ geo.sides < 1 ∨ kMaxSides < geo.sides) := by omega
  have hstd : ¬ ((!extended') = true ∧ rd16le p 0x32 < 0x100) := by
    rintro ⟨hext, hlt⟩
    have hge := hblock (by simpa using hext)
    omega
  rw [parseDsk, hlen, if_neg (by omega), hkindEq]
  dsimp only
  rw [hhead 0x30 (by omega), hsidesEq, if_neg hgeom, hsizeEq, if_neg hstd, ← htracks]
  cases parseTracks p' extended' (geo.tracks * geo.sides) 0 0x100 <;> rfl

theorem isExtended_eq {p : List UInt8} {extended : Bool} (h : dskKind p = some extended) : isExtended p = extended := by
  rw [dskKind] at h
  rw [isExtended]
  split at h
  · rename_i hstd
    rw [hstd, ← Option.some.inj h]
    decide
  · split at h
    · rename_i hext
      rw [← Option.some.inj h]
      exact decide_eq_true hext
    · cases h

theorem blockOffset_le (p : List UInt8) (extended : Bool) {i j : Nat} (h : i < j) :
    blockOffset p extended i + blockLen p extended i ≤ blockOffset p extended j := by
  induction j with
  | zero => exact absurd h (Nat.not_lt_zero i)
  | succ j ih =>
    rw [blockOffset]
    rcases Nat.lt_succ_iff_lt_or_eq.mp h with hlt | heq
    · exact Nat.le_trans (ih hlt) (Nat.le_add_right _ _)
    · subst heq
      exact Nat.le_refl _

theorem blockLen_ge {p : List UInt8} {extended : Bool} {i : Nat} (hstd : extended = false → 0x100 ≤ rd16le p 0x32)
    (hpresent : ¬ (extended = true ∧ blockLen p extended i = 0)) : 0x100 ≤ blockLen p extended i := by
  cases extended with
  | false => exact hstd rfl
  | true =>
    have hne : blockLen p true i ≠ 0 := fun hzero => hpresent ⟨rfl, hzero⟩
    rw [blockLen, if_pos rfl] at hne ⊢
    omega

/-- A track of the table that is there: a block of the image that begins with its header. -/
structure TrackPlace (image : List UInt8) (extended : Bool) (slot total : Nat) (trk : FdcTrack) : Prop where
  inTable : slot < total
  present : ¬ (extended = true ∧ blockLen image extended slot = 0)
  dataOff : trk.dataOff = blockOffset image extended slot + 0x100
  header : trk.dataOff ≤ image.length
  magic : slice image (trk.dataOff - 0x100) 10 = trackInfoMagic

/-- Where a formatted track lies: its block has room for the new data. -/
structure FormatPlace (image : List UInt8) (extended : Bool) (slot total : Nat) (trk : FdcTrack) (n sc : UInt8) : Prop
    extends TrackPlace image extended slot total trk where
  room : formatLen n sc ≤ blockLen image extended slot - 0x100

section
variable {image : List UInt8} {geo : FdcMedia} {trk : FdcTrack} {extended : Bool} {slot : Nat} {n sc gpl fill : UInt8}
  {ids : List UInt8}

theorem trackPlace (hparse : parseDsk image = some geo) (hkind : dskKind image = some extended)
    (htrk : geo.track.getD slot {} = trk) (hoff : trk.dataOff ≠ 0) :
    TrackPlace image extended slot (geo.tracks * geo.sides) trk := by
  obtain ⟨extended', hkind', -, -, -, -, -, -, hrun⟩ := parseDsk_some hparse
  obtain rfl : extended' = extended := Option.some.inj (hkind'.symm.trans hkind)
  have hslot : slot < geo.tracks * geo.sides := by
    by_contra hge
    rw [← parseTracks_length hrun] at hge
    rw [List.getD_eq_default _ _ (Nat.not_lt.mp hge)] at htrk
    exact hoff (htrk ▸ rfl)
  have hparsed := parseTracks_get hrun slot hslot
  rw [Nat.zero_add, htrk, TrackParsed] at hparsed
  split at hparsed
  · rw [hparsed] at hoff
    exact absurd rfl hoff
  · rename_i hpresent
    obtain ⟨hheader, hmagic, -, -, -⟩ := parseTrackBlock_some hparsed
    have hdata := parseTrackBlock_dataOff hparsed
    refine ⟨hslot, hpresent, hdata, by omega, ?_⟩
    rw [hdata, Nat.add_sub_cancel]
    exact hmagic

theorem formatPlace (hparse : parseDsk image = some geo) (hkind : dskKind image = some extended)
    (htrk : geo.track.getD slot {} = trk) (hfits : formatFits image slot trk n sc = true) :
    FormatPlace image extended slot (geo.tracks * geo.sides) trk n sc := by
  rw [formatFits, decide_eq_true_eq, isExtended_eq hkind] at hfits
  obtain ⟨hoff, hblock, hroom, -⟩ := hfits
  exact ⟨trackPlace hparse hkind htrk hoff, hroom⟩

variable (gpl fill) in
theorem alikeBut_formatImage (hparse : parseDsk image = some geo) (hkind : dskKind image = some extended)
    (hargs : FormatArgs n sc ids)
    (hplace : FormatPlace image extended slot (geo.tracks * geo.sides) trk n sc) :
    AlikeBut slot extended image (formatImage image trk n sc gpl fill ids) (geo.tracks * geo.sides) := by
  obtain ⟨extended', hkind', hhead, -, -, -, -, hstd, -⟩ := parseDsk_some hparse
  obtain rfl : extended' = extended := Option.some.inj (hkind'.symm.trans hkind)
  have hge := blockOffset_ge image extended' slot
  have hdata := hplace.dataOff
  have hoff : 0x100 ≤ trk.dataOff := by omega
  have houtside := fun k => byteAt_formatImage_outside gpl fill (k := k) hoff hplace.header hargs
  have htotal := parseDsk_sides_le hparse
  refine ⟨fun i hi => ?_, fun i hi hne hpresent => ?_, hplace.present⟩
  · -- the block lengths are in the disc header
    rw [blockLen, blockLen]
    split
    · rw [houtside _ (.inl (by rw [formatStart]; omega))]
    · exact rd16le_congr (houtside _ (.inl (by rw [formatStart]; omega))) (houtside _ (.inl (by rw [formatStart]; omega)))
  · -- another block's header is in front of this block or behind it
    refine parseTrackBlock_congr (formatImage_length gpl fill hoff hplace.header hargs) fun k hk hk' => houtside k ?_
    have hlen := blockLen_ge hstd hpresent
    have hlen' := blockLen_ge hstd hplace.present
    have hroom := hplace.room
    rcases Nat.lt_or_gt_of_ne hne with hlt | hgt
    · have hbefore := blockOffset_le image extended' hlt
      rw [formatStart]
      omega
    · have hbehind := blockOffset_le image extended' hgt
      omega

variable (gpl fill) in
/-- **Parsing again**: the requested track in the place of the old one, or nothing where its data
    would end behind the image. -/
theorem parseDsk_formatImage (hparse : parseDsk image = some geo) (hkind : dskKind image = some extended)
    (hargs : FormatArgs n sc ids)
    (hplace : FormatPlace image extended slot (geo.tracks * geo.sides) trk n sc) :
    parseDsk (formatImage image trk n sc gpl fill ids) =
      if trk.dataOff + formatLen n sc ≤ image.length then
        some { geo with track := geo.track.set slot (requestedTrack trk.dataOff n sc ids) }
      else none := by
  obtain ⟨extended', hkind', -, -, -, -, -, -, hrun⟩ := parseDsk_some hparse
  obtain rfl : extended' = extended := Option.some.inj (hkind'.symm.trans hkind)
  have hge := blockOffset_ge image extended' slot
  have hdata := hplace.dataOff
  have hoff : 0x100 ≤ trk.dataOff := by omega
  have hhead : ∀ k < 0x100, byteAt (formatImage image trk n sc gpl fill ids) k = byteAt image k :=
    fun k hk => byteAt_formatImage_outside gpl fill hoff hplace.header hargs (.inl (by rw [formatStart]; omega))
  have halike := alikeBut_formatImage gpl fill hparse hkind hargs hplace
  have hwalk := halike.parseTracks hrun (Nat.zero_add _)
  have hblock := parseTrackBlock_format gpl fill extended' hoff hplace.header hargs hplace.magic
  rw [hdata, Nat.add_sub_cancel, ← hdata] at hblock
  rw [if_pos ⟨Nat.zero_le _, hplace.inTable⟩, hblock, Nat.sub_zero] at hwalk
  rw [parseDsk_of_header (formatImage_length gpl fill hoff hplace.header hargs) hhead hparse hkind]
  change Option.map _ (parseTracks _ extended' (geo.tracks * geo.sides) 0 (blockOffset image extended' 0)) = _
  rw [hwalk]
  split <;> rfl

theorem header_outside {q : Nat} {other : FdcTrack} (hparse : parseDsk image = some geo) (hkind : dskKind image = some extended)
    (hplace : FormatPlace image extended slot (geo.tracks * geo.sides) trk n sc)
    (hother : TrackPlace image extended q (geo.tracks * geo.sides) other) (hne : q ≠ slot) {k : Nat}
    (hlo : other.dataOff - 0x100 ≤ k) (hhi : k < other.dataOff) :
    k < formatStart trk ∨ trk.dataOff + formatLen n sc ≤ k := by
  obtain ⟨extended', hkind', -, -, -, -, -, hstd, -⟩ := parseDsk_some hparse
  obtain rfl : extended' = extended := Option.some.inj (hkind'.symm.trans hkind)
  have hlen := blockLen_ge hstd hother.present
  have hlen' := blockLen_ge hstd hplace.present
  have hroom := hplace.room
  have hdata := hplace.dataOff
  have hdata' := hother.dataOff
  rw [formatStart]
  rcases Nat.lt_or_gt_of_ne hne with hlt | hgt
  · have hbefore := blockOffset_le image extended' hlt
    omega
  · have hbehind := blockOffset_le image extended' hgt
    omega

end

/-! ## A formatted medium -/

/-- What a successful FORMAT should leave of a medium: the image mounted and parsed anew, the requested
    track with its header and filler in the old one's place and inside the image, and the tables and
    bytes of all other tracks as they were. -/
structure Formatted (m m' : Media) (slot : Nat) (n sc gpl fill : UInt8) (ids : List UInt8) : Prop where
  mounted : ∃ image, m'.image = some image ∧ parseDsk image = some m'.geo
  length : m'.bytes.length = m.bytes.length
  inside : (m.trk slot).dataOff + formatLen n sc ≤ m.bytes.length
  track : m'.trk slot = requestedTrack (m.trk slot).dataOff n sc ids
  block : ∀ k, formatStart (m.trk slot) ≤ k → k < (m.trk slot).dataOff + formatLen n sc →
    byteAt m'.bytes k = byteAt (formatBlock n sc gpl fill ids) (k - formatStart (m.trk slot))
  others : ∀ q ≠ slot, m'.trk q = m.trk q ∧ ((m.trk q).dataOff ≠ 0 → ∀ k, (m.trk q).dataOff - 0x100 ≤ k →
    k < (m.trk q).dataOff + (m.trk q).dataLen → byteAt m'.bytes k = byteAt m.bytes k)

/-- What a FORMAT needs of the image: the new data ends inside it, and no other track's data reaches
    into the bytes it rewrites, unless it holds there what is written anyway. -/
structure FormatRoom (m : Media) (slot : Nat) (n sc gpl fill : UInt8) (ids : List UInt8) : Prop where
  inside : (m.trk slot).dataOff + formatLen n sc ≤ m.bytes.length
  apart : ∀ q ≠ slot, (m.trk q).dataOff ≠ 0 → ∀ k, (m.trk q).dataOff ≤ k → k < (m.trk q).dataOff + (m.trk q).dataLen →
    formatStart (m.trk slot) ≤ k → k < (m.trk slot).dataOff + formatLen n sc →
    byteAt m.bytes k = byteAt (formatBlock n sc gpl fill ids) (k - formatStart (m.trk slot))

section
variable {m : Media} {image : List UInt8} {slot : Nat} {n sc gpl fill : UInt8} {ids : List UInt8}

variable (gpl fill) in
/-- **A medium is formatted** exactly when the image has the room. -/
theorem formatted_iff (himage : m.image = some image) (hparse : parseDsk image = some m.geo) (hargs : FormatArgs n sc ids)
    (hfits : formatFits image slot (m.trk slot) n sc = true) :
    Formatted m { parseMedia (formatImage image (m.trk slot) n sc gpl fill ids) with dirty := true } slot n sc gpl fill ids ↔
      FormatRoom m slot n sc gpl fill ids := by
  obtain ⟨extended, hkind, -, -, -, -, -, -, hrun⟩ := parseDsk_some hparse
  have hplace : FormatPlace image extended slot (m.geo.tracks * m.geo.sides) (m.trk slot) n sc :=
    formatPlace hparse hkind rfl hfits
  have hge := blockOffset_ge image extended slot
  have hdata : (m.trk slot).dataOff = blockOffset image extended slot + 0x100 := hplace.dataOff
  have hoff : 0x100 ≤ (m.trk slot).dataOff := by omega
  have hbytes : m.bytes = image := by rw [Media.bytes, himage, Option.getD_some]
  constructor
  · intro h
    refine ⟨h.inside, fun q hq hpresent k hlo hhi hstart hend => ?_⟩
    rw [← (h.others q hq).2 hpresent k (by omega) hhi]
    exact h.block k hstart hend
  · rintro ⟨hinside, hapart⟩
    rw [hbytes] at hinside
    have hagain := parseDsk_formatImage gpl fill hparse hkind hargs hplace
    rw [if_pos hinside] at hagain
    have hbyte := byteAt_formatImage gpl fill hoff hplace.header hargs
    have hlen := formatImage_length gpl fill hoff hplace.header hargs
    rw [parseMedia, hagain]
    refine ⟨⟨_, rfl, hagain⟩, ?_, ?_, ?_, fun k hlo hhi => ?_, fun q hq => ⟨?_, fun hpresent k hlo hhi => ?_⟩⟩
    · rw [hbytes]
      exact hlen
    · rw [hbytes]
      exact hinside
    · have htable : slot < m.geo.track.length := by
        rw [parseTracks_length hrun]
        exact hplace.inTable
      simp only [Media.trk, List.getD_eq_getElem?_getD, List.getElem?_set_self htable, Option.getD_some]
    · exact (hbyte k).trans (if_pos ⟨hlo, hhi, Nat.lt_of_lt_of_le hhi hinside⟩)
    · simp only [Media.trk, List.getD_eq_getElem?_getD, List.getElem?_set_ne (Ne.symm hq)]
    · -- a byte of another track: in its header, or of its data
      have hother : TrackPlace image extended q (m.geo.tracks * m.geo.sides) (m.trk q) := trackPlace hparse hkind rfl hpresent
      refine (hbyte k).trans ?_
      rw [hbytes] at hapart ⊢
      split
      · rename_i hin
        by_cases hhead : k < (m.trk q).dataOff
        · have hout := header_outside hparse hkind hplace hother hq hlo hhead
          omega
        · exact (hapart q hq hpresent k (Nat.not_lt.mp hhead) hhi hin.1 hin.2.1).symm
      · rfl

end

end Koncepcja.Disk
