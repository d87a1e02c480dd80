import Koncepcja.Disk.Hfe

/-!
# The HFE Round Trip

What `hfe_to_scp` reads back from what `hfe_from_mfm_tracks` wrote. The writer stores revolution 0
of every track and a 16-bit byte count, so the round trip is exact as long as no track needs a
larger count.

## Architecture

- **Frame** (`Extends`): a step of the writer changes nothing below its own table entry and no
  block already in the file.
- **Step** (`hfePutTrack_step`): a step enters its track (`EntryHolds`) and extends the file.
- **Run** (`hfePutTracks_run`): after the loop every entry of the table holds.
- **Read back** (`hfeReadTracks_written`): the reader walks that table to the written cells.

## Main results

- `hfe_round_trip_iff`: the image carries the tracks exactly when none is empty of cells or longer
  than 32768 side-0 bytes.
-/

namespace Koncepcja.Disk

open Koncepcja.Bits Koncepcja.Bytes

/-! ## §1 What the round trip promises -/

/-- The captures an HFE image can hold: revolution 0 of each track. -/
def firstRevs (cyls : List MfmTrack) : List MfmTrack := cyls.map (·.take 1)

/-- The image carries the tracks: what is read back has the same cells, track for track, and
    becomes the flux image of the same captures. -/
def HfeCarries (cyls : List MfmTrack) (hfe : List UInt8) : Prop :=
  ∃ tracks, hfeReadTracks hfe = .ok tracks ∧ SameTracks tracks (firstRevs cyls) ∧
    hfeToScp hfe = .ok (scpFromMfmTracks (firstRevs cyls))

/-- Tracks whose byte count fits the 16-bit field of the track table. -/
def Countable (trk : MfmTrack) : Prop :=
  ∀ rev ∈ trk.head?, 0 < rev.nbits ∧ rev.nbits ≤ 8 * kMaxSide0Bytes

/-! ## §2 Frame -/

/-- `b` grows `a`, with everything below `lut` and every block behind the track table kept. -/
structure Extends (a b : List UInt8) (lut : Nat) : Prop where
  length_le : a.length ≤ b.length
  head : slice b 0 lut = slice a 0 lut
  blocks : ∀ off len, 2 * kBlockSize ≤ off → off + len ≤ a.length → slice b off len = slice a off len

theorem slice_zero_mono {a b : List UInt8} {n m : Nat} (h : slice a 0 m = slice b 0 m) (hnm : n ≤ m) :
    slice a 0 n = slice b 0 n := by
  have hn := congrArg (List.take n) h
  simpa [slice, List.take_take, Nat.min_eq_left hnm] using hn

theorem Extends.trans {a b c : List UInt8} {lut lut' : Nat} (hab : Extends a b lut)
    (hbc : Extends b c lut') (hle : lut ≤ lut') : Extends a c lut where
  length_le := Nat.le_trans hab.length_le hbc.length_le
  head := (slice_zero_mono hbc.head hle).trans hab.head
  blocks off len hoff hlen :=
    (hbc.blocks off len hoff (Nat.le_trans hlen hab.length_le)).trans (hab.blocks off len hoff hlen)

theorem Extends.byteAt {a b : List UInt8} {lut i : Nat} (h : Extends a b lut) (hi : i < lut) :
    byteAt b i = byteAt a i := by
  have ha := @byteAt_of_slice a 0 lut i hi
  have hb := @byteAt_of_slice b 0 lut i hi
  rw [Nat.zero_add] at ha hb
  rw [ha, hb, h.head]

theorem Extends.rd16le {a b : List UInt8} {lut i : Nat} (h : Extends a b lut) (hi : i + 2 ≤ lut) :
    rd16le b i = rd16le a i :=
  rd16le_congr (h.byteAt (by omega)) (h.byteAt (by omega))

/-! ## §3 Track table entries -/

/-- The combined bytes the writer stores for a track; `none` for one it stores as absent. -/
def combinedOf : MfmTrack → Option (List UInt8)
  | [] => none
  | rev :: _ => if rev.nbits = 0 then none else some (interleave (side0Bytes rev))

/-- The table entry at `lut` points at the track's combined bytes. -/
def EntryHolds (out : List UInt8) (lut : Nat) (trk : MfmTrack) : Prop :=
  match combinedOf trk with
  | none => rd16le out (lut + 2) = 0
  | some combined =>
    2 ≤ rd16le out lut ∧ rd16le out (lut + 2) = combined.length ∧
      rd16le out lut * kBlockSize + combined.length ≤ out.length ∧
      slice out (rd16le out lut * kBlockSize) combined.length = combined

/-- Consecutive table entries from `lut` on. -/
def EntriesHold (out : List UInt8) : Nat → List MfmTrack → Prop
  | _, [] => True
  | lut, trk :: cyls => EntryHolds out lut trk ∧ EntriesHold out (lut + 4) cyls

theorem EntryHolds.extend {a b : List UInt8} {lut : Nat} {trk : MfmTrack} (h : EntryHolds a lut trk)
    (hext : Extends a b (lut + 4)) : EntryHolds b lut trk := by
  have hoff : rd16le b lut = rd16le a lut := hext.rd16le (by omega)
  have hlen : rd16le b (lut + 2) = rd16le a (lut + 2) := hext.rd16le (by omega)
  unfold EntryHolds at h ⊢
  cases hc : combinedOf trk with
  | none =>
    rw [hc] at h
    simp only at h ⊢
    rw [hlen, h]
  | some combined =>
    rw [hc] at h
    obtain ⟨hblock, hcount, hin, hdata⟩ := h
    simp only
    rw [hoff, hlen]
    have hroom : 2 * kBlockSize ≤ rd16le a lut * kBlockSize := Nat.mul_le_mul_right _ hblock
    refine ⟨hblock, hcount, Nat.le_trans hin hext.length_le, ?_⟩
    rw [hext.blocks _ _ hroom hin, hdata]

/-! ## §4 The writer's steps -/

/-- The writer before the tracks from `track` on: the file ends where the next block starts, the
    table has room, and neither the block counter nor a byte count can overflow. -/
structure Ready (w : HfeWriter) (track : Nat) (cyls : List MfmTrack) : Prop where
  aligned : w.out.length = w.nextBlock.toNat * kBlockSize
  behind : 2 ≤ w.nextBlock.toNat
  blocks : w.nextBlock.toNat + 128 * cyls.length < 65536
  table : track + cyls.length ≤ 128
  countable : ∀ trk ∈ cyls, Countable trk

theorem Extends.put16le {a b : List UInt8} {lut pos v : Nat} (h : Extends a b lut) (hpos : lut ≤ pos)
    (htable : pos + 2 ≤ 2 * kBlockSize) : Extends a (put16le b pos v) lut where
  length_le := by
    rw [put16le_length]
    exact h.length_le
  head := by rw [slice_put16le_of_ge _ _ (by omega), h.head]
  blocks off len hoff hlen := by
    rw [slice_put16le_of_le _ _ _ (by omega), h.blocks off len hoff hlen]

theorem Extends.refl (a : List UInt8) (lut : Nat) : Extends a a lut :=
  ⟨Nat.le_refl _, rfl, fun _ _ _ _ => rfl⟩

theorem extends_data {out combined : List UInt8} {lut size : Nat} (fill : UInt8)
    (hlut : lut ≤ out.length) (hsize : out.length + combined.length ≤ size) :
    Extends out (overwrite (growTo out size fill) out.length combined) lut := by
  have hgrow : (growTo out size fill).length = size := by
    rw [growTo_length]
    omega
  refine ⟨?_, ?_, fun off len _ hlen => ?_⟩
  · rw [overwrite_length (by omega)]
    omega
  · rw [slice_overwrite_of_le _ (by omega) (by omega), slice_growTo_of_le _ _ _ (by omega)]
  · rw [slice_overwrite_of_le _ (by omega) (by omega), slice_growTo_of_le _ _ _ (by omega)]

theorem combined_length {rev : MfmRev} (hpos : 0 < rev.nbits) (hwhole : rev.nbits % 8 = 0)
    (hle : rev.nbits ≤ 8 * kMaxSide0Bytes) :
    0 < (interleave (side0Bytes rev)).length ∧ (interleave (side0Bytes rev)).length < 65536 := by
  have hside : (side0Bytes rev).length = rev.nbits / 8 := by
    rw [side0Bytes, List.length_map, List.length_range]
  refine ⟨?_, (interleave_length_lt_iff _).mpr (by omega)⟩
  rw [interleave_length, hside]
  omega

theorem hfePutData_step {w : HfeWriter} (lut : Nat) {combined : List UInt8}
    (haligned : w.out.length = w.nextBlock.toNat * kBlockSize) (hbehind : 2 ≤ w.nextBlock.toNat)
    (hnext : w.nextBlock.toNat + 128 < 65536) (hcount : combined.length < 65536)
    (hlut : lut + 4 ≤ 2 * kBlockSize) :
    let w' := hfePutData w lut combined
    (w'.out.length = w'.nextBlock.toNat * kBlockSize ∧ w.nextBlock.toNat ≤ w'.nextBlock.toNat ∧
      w'.nextBlock.toNat ≤ w.nextBlock.toNat + 128) ∧
    Extends w.out w'.out lut ∧
    (rd16le w'.out lut = w.nextBlock.toNat ∧ rd16le w'.out (lut + 2) = combined.length ∧
      w.nextBlock.toNat * kBlockSize + combined.length ≤ w'.out.length ∧
      slice w'.out (w.nextBlock.toNat * kBlockSize) combined.length = combined) := by
  intro w'
  have hblocks : (combined.length + kBlockSize - 1) / kBlockSize ≤ 128 := by
    simp only [kBlockSize]
    omega
  have hcover : combined.length ≤ (combined.length + kBlockSize - 1) / kBlockSize * kBlockSize := by
    simp only [kBlockSize]
    omega
  have hword := w.nextBlock.toNat_lt
  -- The header and the track table fill the first two blocks, so `lut` is in front of the data.
  have hout : 2 * kBlockSize ≤ w.out.length := by
    rw [haligned]
    exact Nat.mul_le_mul_right _ hbehind
  generalize hb : (combined.length + kBlockSize - 1) / kBlockSize = blocks at hblocks hcover
  generalize hd : overwrite (growTo w.out (w.nextBlock.toNat * kBlockSize + blocks * kBlockSize) 0xFF)
    (w.nextBlock.toNat * kBlockSize) combined = data
  -- The two fields of the table are written after the data, and outside of it.
  have hw' : w' = ⟨put16le (put16le data lut w.nextBlock.toNat) (lut + 2) combined.length,
      UInt16.ofNat (w.nextBlock.toNat + blocks)⟩ := by
    show hfePutData w lut combined = _
    rw [hfePutData]
    simp only [hb, hd]
  have hnext' : w'.nextBlock.toNat = w.nextBlock.toNat + blocks := by
    rw [hw', UInt16.toNat_ofNat']
    omega
  have hdata : Extends w.out data lut := by
    rw [← hd, ← haligned]
    exact extends_data _ (by omega) (by omega)
  have hlen : data.length = w.nextBlock.toNat * kBlockSize + blocks * kBlockSize := by
    rw [← hd, overwrite_length] <;> rw [growTo_length] <;> omega
  have hread : slice data (w.nextBlock.toNat * kBlockSize) combined.length = combined := by
    rw [← hd]
    exact slice_overwrite_self _ (by rw [growTo_length]; omega)
  have hlen' : w'.out.length = data.length := by simp [hw']
  refine ⟨⟨?_, by omega, by omega⟩, ?_, ?_, ?_, by omega, ?_⟩
  · rw [hlen', hlen, hnext', Nat.add_mul]
  · rw [hw']
    exact (hdata.put16le (Nat.le_refl _) (by omega)).put16le (by omega) (by omega)
  · rw [hw']
    simp only
    rw [rd16le_put16le_of_le _ _ (by omega), rd16le_put16le _ (by omega)]
    omega
  · rw [hw']
    simp only
    rw [rd16le_put16le _ (by rw [put16le_length]; omega)]
    omega
  · rw [hw']
    simp only
    rw [slice_put16le_of_le _ _ _ (by omega), slice_put16le_of_le _ _ _ (by omega), hread]

theorem putAbsent_step {out : List UInt8} {lut : Nat} (hout : 2 * kBlockSize ≤ out.length)
    (hlut : lut + 4 ≤ 2 * kBlockSize) :
    Extends out (put16le (put16le out lut 0) (lut + 2) 0) lut ∧
      rd16le (put16le (put16le out lut 0) (lut + 2) 0) (lut + 2) = 0 := by
  refine ⟨((Extends.refl out lut).put16le (Nat.le_refl _) (by omega)).put16le (by omega) (by omega), ?_⟩
  rw [rd16le_put16le _ (by rw [put16le_length]; omega)]

/-- **One step of the writer** enters its track, keeps what is there, and is ready for the rest. -/
theorem hfePutTrack_step {w w' : HfeWriter} {track : Nat} {trk : MfmTrack} {cyls : List MfmTrack}
    (hready : Ready w track (trk :: cyls))
    (hput : hfePutTrack w (kBlockSize + 4 * track) trk = some w') :
    Ready w' (track + 1) cyls ∧ Extends w.out w'.out (kBlockSize + 4 * track) ∧
      EntryHolds w'.out (kBlockSize + 4 * track) trk := by
  have hblocks := hready.blocks
  have htable := hready.table
  rw [List.length_cons] at hblocks htable
  have hlut : kBlockSize + 4 * track + 4 ≤ 2 * kBlockSize := by
    simp only [kBlockSize]
    omega
  have hout : 2 * kBlockSize ≤ w.out.length := by
    rw [hready.aligned]
    exact Nat.mul_le_mul_right _ hready.behind
  have hrest : ∀ trk ∈ cyls, Countable trk := fun t ht =>
    hready.countable t (List.mem_cons_of_mem _ ht)
  obtain ⟨habsent, hzero⟩ := putAbsent_step hout hlut
  -- An absent track has a zero entry, and takes no block.
  have hstay : Ready ⟨put16le (put16le w.out (kBlockSize + 4 * track) 0) (kBlockSize + 4 * track + 2) 0,
      w.nextBlock⟩ (track + 1) cyls := by
    refine ⟨?_, hready.behind, by simp only; omega, by omega, hrest⟩
    simp only [put16le_length]
    exact hready.aligned
  cases trk with
  | nil =>
    obtain rfl := Option.some.inj hput
    exact ⟨hstay, habsent, hzero⟩
  | cons rev revs =>
    rw [hfePutTrack] at hput
    obtain ⟨hpos, hle⟩ := hready.countable (rev :: revs) List.mem_cons_self rev rfl
    rw [if_neg (by omega)] at hput
    -- A present track is written only as whole bytes.
    by_cases hwhole : rev.nbits % 8 = 0
    · rw [if_neg (by omega)] at hput
      obtain rfl := Option.some.inj hput
      obtain ⟨-, hcount⟩ := combined_length hpos hwhole hle
      obtain ⟨⟨haligned, hmono, hgrow⟩, hext, hoff, hlen, hin, hdata⟩ :=
        hfePutData_step (kBlockSize + 4 * track) hready.aligned hready.behind (by omega) hcount hlut
      have hbehind := hready.behind
      refine ⟨⟨haligned, by omega, by omega, by omega, hrest⟩, hext, ?_⟩
      rw [EntryHolds, combinedOf, if_neg (by omega)]
      simp only [hoff]
      exact ⟨hbehind, hlen, hin, hdata⟩
    · rw [if_pos hwhole] at hput
      cases hput

/-- **The writer's run**: after the loop every entry holds and everything before the loop's part
    of the table is kept. -/
theorem hfePutTracks_run (cyls : List MfmTrack) {w w' : HfeWriter} {track : Nat}
    (hready : Ready w track cyls) (hput : hfePutTracks w track cyls = some w') :
    Extends w.out w'.out (kBlockSize + 4 * track) ∧
      EntriesHold w'.out (kBlockSize + 4 * track) cyls := by
  induction cyls generalizing w track with
  | nil =>
    obtain rfl := Option.some.inj hput
    exact ⟨Extends.refl _ _, trivial⟩
  | cons trk cyls ih =>
    rw [hfePutTracks] at hput
    cases hstep : hfePutTrack w (kBlockSize + 4 * track) trk with
    | none =>
      rw [hstep] at hput
      cases hput
    | some w₁ =>
      rw [hstep] at hput
      obtain ⟨hready₁, hext₁, hentry⟩ := hfePutTrack_step hready hstep
      obtain ⟨hext, hentries⟩ := ih hready₁ hput
      have hnext : kBlockSize + 4 * (track + 1) = kBlockSize + 4 * track + 4 := by omega
      rw [hnext] at hext hentries
      exact ⟨hext₁.trans hext (by omega), hentry.extend hext, hentries⟩

/-! ## §5 Reading back -/

/-- What the reader makes of a stored track. -/
def readBack (trk : MfmTrack) : MfmTrack :=
  match trk with
  | [] => []
  | rev :: _ => [revOfSide0 (side0Bytes rev)]

theorem EntryHolds.read {out : List UInt8} {lut : Nat} {trk : MfmTrack} (h : EntryHolds out lut trk)
    (hwhole : ∀ rev ∈ trk.head?, rev.nbits % 8 = 0) (hcount : Countable trk) :
    hfeReadTrack out lut = .ok (readBack trk) := by
  cases trk with
  | nil =>
    rw [hfeReadTrack]
    exact if_pos h
  | cons rev revs =>
    obtain ⟨hpos, hle⟩ := hcount rev rfl
    obtain ⟨hne, -⟩ := combined_length hpos (hwhole rev rfl) hle
    rw [EntryHolds, combinedOf, if_neg (by omega)] at h
    obtain ⟨-, hlen, hin, hdata⟩ := h
    rw [hfeReadTrack]
    simp only [hlen]
    rw [if_neg (by omega), if_neg (by omega), hdata, deinterleave_interleave, readBack]

theorem EntriesHold.read {out : List UInt8} (cyls : List MfmTrack) {lut : Nat}
    (h : EntriesHold out lut cyls) (hwhole : ∀ trk ∈ cyls, ∀ rev ∈ trk.head?, rev.nbits % 8 = 0)
    (hcount : ∀ trk ∈ cyls, Countable trk) :
    hfeReadEntries out lut cyls.length = .ok (cyls.map readBack) := by
  induction cyls generalizing lut with
  | nil => rfl
  | cons trk cyls ih =>
    have hfirst := h.1.read (hwhole trk List.mem_cons_self) (hcount trk List.mem_cons_self)
    have hrest := ih h.2 (fun t ht => hwhole t (List.mem_cons_of_mem _ ht))
      (fun t ht => hcount t (List.mem_cons_of_mem _ ht))
    rw [List.length_cons, hfeReadEntries, hfirst, hrest]
    rfl

theorem hfeHeader_length (n : Nat) : (hfeHeader n).length = 2 * kBlockSize := by
  simp only [hfeHeader, hfeMagic, List.length_append, List.length_cons, List.length_nil,
    List.length_replicate, kHfeHeaderSize, kBlockSize]

theorem header_fields {n : Nat} {out : List UInt8} (h : Extends (hfeHeader n) out kBlockSize) :
    out.take 8 = hfeMagic ∧ byteAt out 0x08 = 0 ∧ byteAt out 0x09 = UInt8.ofNat n ∧
      rd16le out 0x0C = kCpcBitRate ∧ rd16le out 0x12 = 1 := by
  have hfixed : ∀ i < 22, byteAt out i = byteAt (hfeMagic ++ [0, UInt8.ofNat n, 1, 0,
      UInt8.ofNat kCpcBitRate, 0, 0x2C, 0x01, 0x06, 0xFF, 1, 0, 0xFF, 0xFF]) i := by
    intro i hi
    rw [h.byteAt (by simp only [kBlockSize]; omega), hfeHeader, List.append_assoc,
      byteAt_append_of_lt _ _ (by simpa [hfeMagic] using hi)]
  refine ⟨?_, ?_, ?_, ?_, ?_⟩
  · have htake := slice_zero_mono h.head (n := 8) (by simp [kBlockSize])
    simpa [slice, hfeHeader, hfeMagic] using htake
  · rw [hfixed _ (by decide)]
    rfl
  · rw [hfixed _ (by decide)]
    rfl
  · rw [rd16le, hfixed _ (by decide), hfixed _ (by decide)]
    rfl
  · rw [rd16le, hfixed _ (by decide), hfixed _ (by decide)]
    rfl

/-! ## §6 Success of the writer -/

theorem hfePutTracks_whole (cyls : List MfmTrack) {w w' : HfeWriter} {track : Nat}
    (h : hfePutTracks w track cyls = some w') :
    ∀ trk ∈ cyls, ∀ rev ∈ trk.head?, rev.nbits % 8 = 0 := by
  induction cyls generalizing w track with
  | nil => simp
  | cons trk cyls ih =>
    rw [hfePutTracks] at h
    cases hstep : hfePutTrack w (kBlockSize + 4 * track) trk with
    | none =>
      rw [hstep] at h
      cases h
    | some w₁ =>
      rw [hstep] at h
      intro t ht
      rcases List.mem_cons.mp ht with rfl | ht
      · intro rev hrev
        cases t with
        | nil => cases hrev
        | cons r revs =>
          obtain rfl := Option.some.inj hrev
          rw [hfePutTrack] at hstep
          -- The writer refuses a revolution that is no whole number of bytes.
          by_contra hodd
          rw [if_neg (by omega), if_pos hodd] at hstep
          cases hstep
      · exact ih h t ht

theorem hfePutTracks_isSome (cyls : List MfmTrack)
    (hwhole : ∀ trk ∈ cyls, ∀ rev ∈ trk.head?, rev.nbits % 8 = 0) (w : HfeWriter) (track : Nat) :
    ∃ w', hfePutTracks w track cyls = some w' := by
  induction cyls generalizing w track with
  | nil => exact ⟨w, rfl⟩
  | cons trk cyls ih =>
    have hrest := ih fun t ht => hwhole t (List.mem_cons_of_mem _ ht)
    have hstep : ∃ w₁, hfePutTrack w (kBlockSize + 4 * track) trk = some w₁ := by
      cases trk with
      | nil => exact ⟨_, rfl⟩
      | cons rev revs =>
        have hrev := hwhole (rev :: revs) List.mem_cons_self rev rfl
        rw [hfePutTrack]
        split
        · exact ⟨_, rfl⟩
        · rw [if_neg (by omega)]
          exact ⟨_, rfl⟩
    obtain ⟨w₁, hw₁⟩ := hstep
    obtain ⟨w', hw'⟩ := hrest w₁ (track + 1)
    refine ⟨w', ?_⟩
    rw [hfePutTracks, hw₁]
    exact hw'

theorem hfeFromMfmTracks_isOk (cyls : List MfmTrack) (hcyls : cyls.length ≤ kMaxCyls)
    (hpresent : cyls.any hfePresent = true)
    (hwhole : ∀ trk ∈ cyls, ∀ rev ∈ trk.head?, rev.nbits % 8 = 0) :
    ∃ hfe, hfeFromMfmTracks cyls = .ok hfe := by
  have hne : cyls.length ≠ 0 := by
    intro hzero
    rw [List.length_eq_zero_iff.mp hzero] at hpresent
    cases hpresent
  obtain ⟨w, hw⟩ := hfePutTracks_isSome cyls hwhole ⟨hfeHeader cyls.length, 2⟩ 0
  refine ⟨w.out, ?_⟩
  rw [hfeFromMfmTracks, if_neg hne, if_neg (by omega), if_neg (by rw [hpresent]; decide), hw]

theorem hfeFromMfmTracks_ok {cyls : List MfmTrack} {hfe : List UInt8}
    (h : hfeFromMfmTracks cyls = .ok hfe) :
    cyls.length ≠ 0 ∧ cyls.length ≤ kMaxCyls ∧ cyls.any hfePresent = true ∧
      ∃ w, hfePutTracks ⟨hfeHeader cyls.length, 2⟩ 0 cyls = some w ∧ hfe = w.out := by
  rw [hfeFromMfmTracks] at h
  split at h
  · cases h
  · split at h
    · cases h
    · split at h
      · cases h
      · rename_i hzero hmany hpresent
        cases hput : hfePutTracks ⟨hfeHeader cyls.length, 2⟩ 0 cyls with
        | none =>
          rw [hput] at h
          cases h
        | some w =>
          rw [hput] at h
          exact ⟨hzero, by omega, by simpa using hpresent, w, rfl, (Except.ok.inj h).symm⟩

/-! ## §7 The round trip -/

/-- The cylinders read back from a written file. -/
theorem hfeReadTracks_written {cyls : List MfmTrack} {hfe : List UInt8}
    (h : hfeFromMfmTracks cyls = .ok hfe) (hcount : ∀ trk ∈ cyls, Countable trk) :
    hfeReadTracks hfe = .ok (cyls.map readBack) := by
  obtain ⟨hzero, hmany, -, w, hput, rfl⟩ := hfeFromMfmTracks_ok h
  simp only [kMaxCyls] at hmany
  have hready : Ready ⟨hfeHeader cyls.length, 2⟩ 0 cyls := by
    refine ⟨?_, Nat.le_refl 2, ?_, by omega, hcount⟩
    · simp only [hfeHeader_length]
      rfl
    · show 2 + 128 * cyls.length < 65536
      omega
  obtain ⟨hext, hentries⟩ := hfePutTracks_run cyls hready hput
  rw [Nat.mul_zero, Nat.add_zero] at hext hentries
  -- The header stands as written, for the tracks go behind it.
  obtain ⟨hmagic, hrev, htracks, hrate, hlut⟩ := header_fields hext
  have hlen := hext.length_le
  simp only [hfeHeader_length, kBlockSize] at hlen
  have hn : (UInt8.ofNat cyls.length).toNat = cyls.length := by
    rw [UInt8.toNat_ofNat']
    omega
  rw [hfeReadTracks, hmagic, hrev, htracks, hrate, hlut, hn]
  rw [if_neg (by simp only [kHfeHeaderSize]; omega), if_neg (by simp), if_neg (by simp)]
  simp only
  rw [if_neg hzero, if_neg (by simp only [kMaxCyls]; omega), if_neg (by decide),
    if_neg (by simp only [kBlockSize]; omega), Nat.one_mul]
  exact hentries.read cyls (hfePutTracks_whole cyls hput) hcount

theorem readBack_same {trk : MfmTrack} (hwhole : ∀ rev ∈ trk.head?, rev.nbits % 8 = 0) :
    List.Forall₂ SameCells (readBack trk) (trk.take 1) := by
  cases trk with
  | nil => exact .nil
  | cons rev revs => exact .cons (revOfSide0_cells (hwhole rev rfl)) .nil

theorem sameTracks_readBack {cyls : List MfmTrack}
    (hwhole : ∀ trk ∈ cyls, ∀ rev ∈ trk.head?, rev.nbits % 8 = 0) :
    SameTracks (cyls.map readBack) (firstRevs cyls) := by
  rw [SameTracks, firstRevs, List.forall₂_map_left_iff, List.forall₂_map_right_iff]
  exact List.forall₂_same.mpr fun trk htrk => readBack_same (hwhole trk htrk)

/-- **Countable tracks survive the round trip.** -/
theorem hfeCarries_of_countable {cyls : List MfmTrack} {hfe : List UInt8}
    (h : hfeFromMfmTracks cyls = .ok hfe) (hcount : ∀ trk ∈ cyls, Countable trk) :
    HfeCarries cyls hfe := by
  have hread := hfeReadTracks_written h hcount
  obtain ⟨-, hmany, hpresent, w, hput, -⟩ := hfeFromMfmTracks_ok h
  have hsame := sameTracks_readBack (hfePutTracks_whole cyls hput)
  have hne : scpFromMfmTracks (firstRevs cyls) ≠ [] := by
    apply scpFromMfmTracks_ne_nil
    · intro trk htrk
      obtain ⟨trk, -, rfl⟩ := List.mem_map.mp htrk
      rw [List.length_take]
      omega
    · obtain ⟨trk, htrk, hp⟩ := List.any_eq_true.mp hpresent
      refine ⟨trk.take 1, List.mem_map_of_mem htrk, ?_⟩
      cases trk with
      | nil => cases hp
      | cons rev revs => simp
    · rw [firstRevs, List.length_map]
      exact hmany
  refine ⟨_, hread, hsame, ?_⟩
  rw [hfeToScp, hread]
  show (if scpFromMfmTracks (cyls.map readBack) = [] then _ else _) = _
  rw [scpFromMfmTracks_congr hsame, if_neg hne]

/-! ### Only countable tracks survive it -/

theorem hfeReadEntries_mem {hfe : List UInt8} {entryOff count : Nat} {tracks : List MfmTrack}
    (h : hfeReadEntries hfe entryOff count = .ok tracks) :
    ∀ trk ∈ tracks, ∃ off, hfeReadTrack hfe off = .ok trk := by
  induction count generalizing entryOff tracks with
  | zero =>
    obtain rfl := Except.ok.inj h
    simp
  | succ count ih =>
    rw [hfeReadEntries] at h
    cases hfirst : hfeReadTrack hfe entryOff with
    | error e =>
      rw [hfirst] at h
      cases h
    | ok trk =>
      rw [hfirst] at h
      cases hrest : hfeReadEntries hfe (entryOff + 4) count with
      | error e =>
        rw [hrest] at h
        cases h
      | ok rest =>
        rw [hrest] at h
        obtain rfl := Except.ok.inj h
        -- The first entry is read at `entryOff`, the others four bytes on each.
        intro t ht
        rcases List.mem_cons.mp ht with rfl | ht
        · exact ⟨entryOff, hfirst⟩
        · exact ih hrest t ht

theorem hfeReadTracks_mem {hfe : List UInt8} {tracks : List MfmTrack}
    (h : hfeReadTracks hfe = .ok tracks) :
    ∀ trk ∈ tracks, ∃ off, hfeReadTrack hfe off = .ok trk := by
  rw [hfeReadTracks] at h
  simp only at h
  split at h
  · cases h
  · split at h
    · split at h <;> cases h
    · iterate 5
        split at h
        · cases h
      exact hfeReadEntries_mem h

theorem countable_of_sameTracks {tracks cyls : List MfmTrack}
    (hread : ∀ trk ∈ tracks, Countable trk) (hsame : SameTracks tracks (firstRevs cyls)) :
    ∀ trk ∈ cyls, Countable trk := by
  rw [SameTracks, firstRevs, List.forall₂_map_right_iff] at hsame
  induction hsame with
  | nil => simp
  | @cons t c tracks cyls htrk _ ih =>
    intro trk hmem
    rcases List.mem_cons.mp hmem with rfl | hmem
    · intro rev hrev
      cases trk with
      | nil => cases hrev
      | cons r revs =>
        obtain rfl := Option.some.inj hrev
        cases htrk with
        | cons hcells _ =>
          rw [← hcells.nbits]
          exact hread _ List.mem_cons_self _ rfl
    · exact ih (fun t ht => hread t (List.mem_cons_of_mem _ ht)) trk hmem

theorem countable_of_hfeCarries {cyls : List MfmTrack} {hfe : List UInt8} (h : HfeCarries cyls hfe) :
    ∀ trk ∈ cyls, Countable trk := by
  obtain ⟨tracks, hread, hsame, -⟩ := h
  refine countable_of_sameTracks (fun trk htrk rev hrev => ?_) hsame
  obtain ⟨off, hoff⟩ := hfeReadTracks_mem hread trk htrk
  exact hfeReadTrack_cells hoff rev (List.mem_of_mem_head? hrev)

/-- **The round trip, exactly**: a written image carries its tracks if and only if no present track
    is empty of cells or longer than the 32768 side-0 bytes a 16-bit length can count. -/
theorem hfe_round_trip_iff (cyls : List MfmTrack) (hfe : List UInt8)
    (h : hfeFromMfmTracks cyls = .ok hfe) :
    HfeCarries cyls hfe ↔
      ∀ trk ∈ cyls, ∀ rev ∈ trk.head?, 0 < rev.nbits ∧ rev.nbits ≤ 8 * kMaxSide0Bytes :=
  ⟨countable_of_hfeCarries, hfeCarries_of_countable h⟩

/-- Sixteen cells: two bytes, one of them all transitions. -/
def shortRev : MfmRev := ⟨[0xAA, 0xFF], 16, by decide⟩

theorem hfe_round_trip_short :
    ∃ hfe, hfeFromMfmTracks [[shortRev], []] = .ok hfe ∧ HfeCarries [[shortRev], []] hfe := by
  obtain ⟨hfe, h⟩ := hfeFromMfmTracks_isOk [[shortRev], []] (by decide) (by decide)
    (by simp [shortRev])
  refine ⟨hfe, h, (hfe_round_trip_iff _ _ h).mpr ?_⟩
  simp [shortRev, kMaxSide0Bytes, kSideChunk]

/-! ### A track that does not survive -/

/-- A 4096-byte sector. -/
def bigSector (secId : UInt8) : MfmSector :=
  { secId := secId, sizeCode := 5, payload := List.replicate 4096 0xE5 }

/-- Four 4096-byte sectors: more than 16384 byte cells. -/
def bigTrack : MfmTrackDesc := { sectors := [bigSector 1, bigSector 2, bigSector 3, bigSector 4] }

theorem bigSector_encodable (secId : UInt8) : (bigSector secId).encodable = true := by
  simp [-List.reduceReplicate, MfmSector.encodable, bigSector, kMaxSizeCode]

theorem bigTrack_nbits : (mfmEncodeTrack bigTrack).nbits = 16 * 17040 := by
  rw [mfmEncodeTrack_nbits, trackBytes]
  simp only [bigTrack, List.filter_cons, bigSector_encodable, if_true, List.filter_nil, List.map_cons,
    List.map_nil, List.sum_cons, List.sum_nil]
  simp [-List.reduceReplicate, sectorBytes, bigSector, kGap4aBytes, kRevCells]

theorem hfe_round_trip_truncates :
    ∃ hfe, hfeFromMfmTracks [[mfmEncodeTrack bigTrack]] = .ok hfe ∧
      ¬ HfeCarries [[mfmEncodeTrack bigTrack]] hfe := by
  obtain ⟨hfe, h⟩ := hfeFromMfmTracks_isOk [[mfmEncodeTrack bigTrack]] (by decide)
    (by simp [hfePresent, bigTrack_nbits]) (by simp [bigTrack_nbits])
  refine ⟨hfe, h, fun hcarries => ?_⟩
  have hle := (countable_of_hfeCarries hcarries _ List.mem_cons_self _ rfl).2
  rw [bigTrack_nbits] at hle
  simp [kMaxSide0Bytes, kSideChunk] at hle

end Koncepcja.Disk
