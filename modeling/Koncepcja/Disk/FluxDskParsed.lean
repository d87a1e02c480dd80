import Koncepcja.Disk.FluxToDsk
import Koncepcja.Disk.DiskWindows

/-!
# The Synthesized Image Read Back

The image `flux_scp_to_dsk` leaves is read by the controller's `parse_dsk`, which knows nothing of the capture: it finds the
blocks by the size table or by the one block length, and the sectors by their stored lengths. It comes to the sectors that
were scanned, at the places where their bytes were written.

## Main results

- `scanTrack_packed`: the payloads of a scan stand one behind the other, and no ID comes twice.
- `parseDsk_finishedImage`: what `parse_dsk` makes of the image.
- `fluxScpToDsk_reparses`: every cylinder is served as it was scanned.
-/

namespace Koncepcja.Disk

open Koncepcja.Bits Koncepcja.Bytes

/-! ## How a scan packs its payloads -/

/-- The records' payloads run from `pos` to `stop` without a gap. -/
def Packed (pos : Nat) : List SecRec → Nat → Prop
  | [], stop => pos = stop
  | s :: secs, stop => s.off = pos ∧ Packed (pos + s.len) secs stop

/-- The order of a scan's track buffer. -/
structure ScanPacked (ts : TrackScan) : Prop where
  packed : Packed 0 ts.sec ts.data.length
  sized : ∀ s ∈ ts.sec, s.len = 128 <<< s.chrn.n.toNat
  distinct : (ts.sec.map (·.chrn)).Nodup

theorem Packed.append {pos stop : Nat} {secs : List SecRec} {s : SecRec} (h : Packed pos secs stop) (hoff : s.off = stop) :
    Packed pos (secs ++ [s]) (stop + s.len) := by
  induction secs generalizing pos with
  | nil =>
    obtain rfl : pos = stop := h
    exact ⟨hoff, rfl⟩
  | cons first secs ih => exact ⟨h.1, ih h.2⟩

theorem Packed.congr {pos stop : Nat} {secs secs' : List SecRec} (h : Packed pos secs stop)
    (hsame : secs'.map (fun s => (s.off, s.len)) = secs.map (fun s => (s.off, s.len))) : Packed pos secs' stop := by
  induction secs generalizing pos secs' with
  | nil =>
    obtain rfl := List.map_eq_nil_iff.mp hsame
    exact h
  | cons s secs ih =>
    cases secs' with
    | nil => cases hsame
    | cons s' secs' =>
      rw [List.map_cons, List.map_cons, List.cons.injEq, Prod.mk.injEq] at hsame
      obtain ⟨⟨hoff, hlen⟩, hrest⟩ := hsame
      refine ⟨hoff.trans h.1, ?_⟩
      rw [hlen]
      exact ih h.2 hrest

theorem set_differs_map {β : Type} {secs : List SecRec} {i : Nat} {ex : SecRec} (hex : secs[i]? = some ex) (f : SecRec → β)
    (hf : ∀ s : SecRec, f { s with differs := true } = f s) :
    (secs.set i { ex with differs := true }).map f = secs.map f := by
  obtain ⟨hi, rfl⟩ := List.getElem?_eq_some_iff.mp hex
  rw [List.map_set, hf, ← List.getElem_map f (h := by rw [List.length_map]; exact hi), List.set_getElem_self]

theorem scanPacked_kept : CollectKeeps ScanPacked where
  empty := by
    refine ⟨rfl, ?_, List.nodup_nil⟩
    intro s hs
    cases hs
  collect := by
    intro ts hdr payload hdrEnd dataStart mark crcOk h _ hlen
    unfold collect
    split
    next i _ =>
      split
      next ex hex =>
        split
        · -- a second sighting changes no place, no length and no ID
          refine ⟨h.packed.congr (set_differs_map hex _ fun _ => rfl), ?_, ?_⟩
          · intro s hs
            rcases List.mem_or_eq_of_mem_set hs with hold | rfl
            · exact h.sized s hold
            · exact h.sized ex (List.mem_of_getElem? hex)
          · rw [set_differs_map hex _ fun _ => rfl]
            exact h.distinct
        · exact h
      next => exact h
    next hnew =>
      split
      · have hfresh : hdr ∉ ts.sec.map (·.chrn) := by
          intro hmem
          obtain ⟨s, hs, hsame⟩ := List.mem_map.mp hmem
          rw [findSec, List.findIdx?_eq_none_iff] at hnew
          have hne := hnew s hs
          rw [decide_eq_false_iff_not] at hne
          exact hne hsame
        refine ⟨?_, ?_, ?_⟩
        · rw [List.length_append]
          exact h.packed.append rfl
        · intro s hs
          rcases List.mem_append.mp hs with hold | hlast
          · exact h.sized s hold
          · rw [List.mem_singleton.mp hlast]
            exact hlen
        · rw [List.map_append, List.map_singleton]
          refine List.nodup_append.mpr ⟨h.distinct, List.nodup_singleton _, ?_⟩
          intro a ha b hb hsame
          have hid : a = hdr := hsame.trans (List.mem_singleton.mp hb)
          rw [hid] at ha
          exact hfresh ha
      · exact h

/-- What the two parsers and the writer rely on. -/
structure Sound (ts : TrackScan) : Prop extends ScanBounds ts, ScanPacked ts

theorem scanCylinder_sound {scp : List UInt8} {g : ScpGeom} {cyl : Nat} {scan : TrackScan}
    (h : scanCylinder scp g cyl = .ok scan) : Sound scan :=
  ⟨scanCylinder_has scanBounds_kept h, scanCylinder_has scanPacked_kept h⟩

theorem Sound.len_lt {ts : TrackScan} (h : Sound ts) {s : SecRec} (hs : s ∈ ts.sec) : s.len ≤ 8192 :=
  Nat.le_trans (Nat.le_trans (Nat.le_add_left _ _) (h.inside s hs)) h.room

/-! ## The sectors of a block -/

/-- An entry whose length field is `size`. -/
def entryWith (size : Nat) (s : SecRec) : List UInt8 :=
  [s.chrn.c, s.chrn.h, s.chrn.r, s.chrn.n, s.st1, s.st2, UInt8.ofNat (size &&& 0xFF), UInt8.ofNat (size >>> 8)]

theorem sectorInfo_entryWith {p pre post : List UInt8} {th i size : Nat} {s : SecRec} (hsize : size < 65536)
    (hp : p = pre ++ (entryWith size s ++ post)) (hpre : pre.length = th + 0x18 + 8 * i) :
    sectorInfo p th i = ⟨s.chrn, s.st1, s.st2, size⟩ := by
  have hbyte : ∀ k < 8, byteAt p (th + 0x18 + 8 * i + k) = byteAt (entryWith size s) k := by
    intro k hk
    rw [hp, ← hpre]
    exact byteAt_inside pre post hk
  have hlen : rd16le p (th + 0x18 + 8 * i + 6) = size := by
    have hlow : size &&& 0xFF = size % 256 := Nat.and_two_pow_sub_one_eq_mod size 8
    rw [rd16le, hbyte 6 (by decide), Nat.add_assoc _ 6 1, hbyte 7 (by decide)]
    change (UInt8.ofNat (size &&& 0xFF)).toNat + 256 * (UInt8.ofNat (size >>> 8)).toNat = size
    rw [hlow, Nat.shiftRight_eq_div_pow, UInt8.toNat_ofNat', UInt8.toNat_ofNat']
    omega
  have hfirst := hbyte 0 (by decide)
  rw [Nat.add_zero] at hfirst
  rw [sectorInfo, hlen, hfirst, hbyte 1 (by decide), hbyte 2 (by decide), hbyte 3 (by decide), hbyte 4 (by decide),
    hbyte 5 (by decide)]
  rfl

/-- The sector `parse_dsk` makes of a record; its payload's place counts from `base`. -/
def fdcSectorOf (base : Nat) (s : SecRec) : FdcSector := ⟨s.chrn, s.st1, s.st2, base + s.off, s.len⟩

theorem placeSectors_entries {p pre post : List UInt8} {extended : Bool} {sizeCode : UInt8} {th i rel stop : Nat}
    {secs : List SecRec} {size : SecRec → Nat} (base : Nat) (hsize : ∀ s ∈ secs, size s < 65536)
    (hp : p = pre ++ (secs.flatMap (fun s => entryWith (size s) s) ++ post)) (hpre : pre.length = th + 0x18 + 8 * i)
    (hstored : ∀ s ∈ secs, dskStored extended sizeCode ⟨s.chrn, s.st1, s.st2, size s⟩ = s.len)
    (hlen : ∀ s ∈ secs, s.len ≤ 0xFFFF) (hpacked : Packed rel secs stop) :
    placeSectors p extended sizeCode th secs.length i (base + rel) = some (secs.map (fdcSectorOf base), base + stop) := by
  induction secs generalizing pre i rel with
  | nil =>
    obtain rfl : rel = stop := hpacked
    rfl
  | cons s secs ih =>
    obtain ⟨hoff, hrest⟩ := hpacked
    rw [List.flatMap_cons, List.append_assoc] at hp
    have hinfo := sectorInfo_entryWith (hsize s List.mem_cons_self) hp hpre
    have hnext : (pre ++ entryWith (size s) s).length = th + 0x18 + 8 * (i + 1) := by
      have height : (entryWith (size s) s).length = 8 := rfl
      rw [List.length_append, hpre, height]
      omega
    have htail := ih (fun t ht => hsize t (List.mem_cons_of_mem s ht)) (hp.trans (List.append_assoc _ _ _).symm) hnext
      (fun t ht => hstored t (List.mem_cons_of_mem s ht)) (fun t ht => hlen t (List.mem_cons_of_mem s ht)) hrest
    rw [List.length_cons, placeSectors, hinfo, hstored s List.mem_cons_self, if_neg (Nat.not_lt.mpr (hlen s List.mem_cons_self)), Nat.add_assoc, htail,
      List.map_cons, fdcSectorOf, hoff]

/-! ## The blocks -/

/-- The size code in a block's header. -/
def headCode (scan : TrackScan) : UInt8 := (scan.sec.head?.map (·.chrn.n)).getD 2

theorem headCode_le {scan : TrackScan} (h : Sound scan) : headCode scan ≤ 5 := by
  rw [headCode]
  cases hsec : scan.sec with
  | nil => decide
  | cons s secs => exact h.codes s (by rw [hsec]; exact List.mem_cons_self)

/-- The track `parse_dsk` makes of a block at `off`. -/
def fdcTrackOf (off : Nat) (scan : TrackScan) : FdcTrack where
  dataOff := off + 0x100
  dataLen := scan.data.length
  sec := scan.sec.map (fdcSectorOf (off + 0x100))

/-- How the stored lengths are told: by the length fields `size` leaves, or by the block's size code. -/
structure Told (extended : Bool) (size : SecRec → Nat) (scan : TrackScan) : Prop where
  small : ∀ s ∈ scan.sec, size s < 65536
  stored : ∀ s ∈ scan.sec, dskStored extended (headCode scan) ⟨s.chrn, s.st1, s.st2, size s⟩ = s.len

/-- The block of a cylinder with the length fields `size`. -/
abbrev sizedBlock (size : SecRec → Nat) (cyl : Nat) (scan : TrackScan) : List UInt8 :=
  trackBlock (fun s => entryWith (size s) s) cyl scan

theorem entryWith_eight (size : SecRec → Nat) : EightBytes fun s => entryWith (size s) s := fun _ => rfl

theorem parseTrackBlock_block {p pre post : List UInt8} {extended : Bool} {size : SecRec → Nat} {cyl : Nat}
    {scan : TrackScan} (h : Sound scan) (htold : Told extended size scan)
    (hp : p = pre ++ (sizedBlock size cyl scan ++ post)) :
    parseTrackBlock p extended pre.length = some (fdcTrackOf pre.length scan) := by
  have hblock := trackBlock_length (entryWith_eight size) cyl h.count
  have hge := blockBytesOf_ge scan.data.length
  have hplen : pre.length + 0x100 + scan.data.length ≤ p.length := by
    rw [hp, List.length_append, List.length_append, hblock]
    omega
  have hmagic : slice p pre.length 10 = trackInfoMagic := by
    have hin := slice_inside pre post (show 0 + 10 ≤ (sizedBlock size cyl scan).length by rw [hblock]; omega)
    rw [hp, ← Nat.add_zero pre.length, hin]
    rfl
  -- The head of the block is read where it was put.
  have hhead : ∀ k < 0x18, byteAt p (pre.length + k) = byteAt (trackHead cyl scan) k := by
    intro k hk
    rw [hp, sizedBlock, trackBlock, List.append_assoc]
    exact byteAt_inside pre _ hk
  have hcode : byteAt p (pre.length + 0x14) = headCode scan := hhead 0x14 (by decide)
  have hcount : (byteAt p (pre.length + 0x15)).toNat = scan.sec.length := by
    rw [hp]
    exact byteAt_count cyl h.count
  -- The entries, in front of the data.
  have hentries : p = (pre ++ trackHead cyl scan) ++ (scan.sec.flatMap (fun s => entryWith (size s) s) ++
      ((List.replicate (0xE8 - 8 * scan.sec.length) 0 ++ (scan.data ++
        List.replicate (blockBytesOf scan.data.length - 0x100 - scan.data.length) 0)) ++ post)) := by
    rw [hp, sizedBlock, trackBlock]
    simp only [List.append_assoc]
  have hbehind : (pre ++ trackHead cyl scan).length = pre.length + 0x18 + 8 * 0 := by
    rw [List.length_append, trackHead_length]
  have hplace := placeSectors_entries (pre.length + 0x100) htold.small hentries hbehind htold.stored
    (fun s hs => Nat.le_trans (h.len_lt hs) (by decide)) h.packed
  -- The limits of the parser hold of every sound track.
  have hlimits : ¬(kMaxSectors < scan.sec.length ∨ 7 < headCode scan) := by
    rintro (hmany | hcode')
    · exact Nat.not_lt.mpr h.count hmany
    · exact absurd (UInt8.le_trans (UInt8.le_of_lt hcode') (headCode_le h)) (by decide)
  rw [parseTrackBlock, if_neg (by omega), if_neg (not_not_intro hmagic)]
  dsimp only
  rw [hcode, hcount, if_neg hlimits, hplace]
  dsimp only
  rw [if_neg (by omega), Nat.add_sub_cancel_left]
  rfl

/-- The tracks of the blocks from `off` on. -/
def fdcTracksOf (off : Nat) : List TrackScan → List FdcTrack
  | [] => []
  | scan :: scans => fdcTrackOf off scan :: fdcTracksOf (off + blockBytesOf scan.data.length) scans

/-- **The loop over the blocks**: each is found behind the last. -/
theorem parseTracks_blocks {p pre : List UInt8} {extended : Bool} {cyl : Nat} {scans : List TrackScan}
    (size : SecRec → Nat) (hsound : ∀ scan ∈ scans, Sound scan) (htold : ∀ scan ∈ scans, Told extended size scan)
    (hblocks : ∀ j scan, scans[j]? = some scan → blockLen p extended (cyl + j) = blockBytesOf scan.data.length)
    (hp : p = pre ++ trackBlocks (fun s => entryWith (size s) s) cyl scans) :
    parseTracks p extended scans.length cyl pre.length = some (fdcTracksOf pre.length scans) := by
  induction scans generalizing pre cyl with
  | nil => rfl
  | cons scan scans ih =>
    have hfirst := hsound scan List.mem_cons_self
    have hlen := hblocks 0 scan rfl
    rw [Nat.add_zero] at hlen
    rw [trackBlocks] at hp
    -- The block of this cylinder stands at the front of what is left.
    have hblock := parseTrackBlock_block hfirst (htold scan List.mem_cons_self) hp
    have hnext : (pre ++ sizedBlock size cyl scan).length = pre.length + blockBytesOf scan.data.length := by
      rw [List.length_append, trackBlock_length (entryWith_eight size) cyl hfirst.count]
    have hrest := ih (fun t ht => hsound t (List.mem_cons_of_mem _ ht)) (fun t ht => htold t (List.mem_cons_of_mem _ ht))
      (fun j t hj => by rw [Nat.add_assoc, Nat.add_comm 1]; exact hblocks (j + 1) t hj) (hp.trans (List.append_assoc _ _ _).symm)
    rw [hnext] at hrest
    have hne : ¬(extended = true ∧ blockBytesOf scan.data.length = 0) := by
      rintro ⟨-, hzero⟩
      have hge := blockBytesOf_ge scan.data.length
      omega
    rw [List.length_cons, parseTracks, hlen, if_neg hne, hblock]
    dsimp only
    rw [hrest, fdcTracksOf]

/-! ## The header -/

theorem byteAt_discHeader {text table body : List UInt8} (htext : text.length = 0x22) (cyls sides lo hi : UInt8) (k : Nat)
    (hk : k < 4) : byteAt (discHeader text cyls sides lo hi table ++ body) (0x30 + k) = byteAt [cyls, sides, lo, hi] k := by
  have hpre : (text ++ creatorText).length = 0x30 := by rw [List.length_append, htext]; rfl
  have hlt : k < [cyls, sides, lo, hi].length := hk
  have hsplit : discHeader text cyls sides lo hi table ++ body = (text ++ creatorText) ++
      ([cyls, sides, lo, hi] ++ ((table ++ List.replicate (0xCC - table.length) 0) ++ body)) := by
    rw [discHeader]
    simp only [List.append_assoc]
  rw [hsplit, ← hpre]
  exact byteAt_inside _ _ hlt

theorem byteAt_table {text table body : List UInt8} (htext : text.length = 0x22) (cyls sides lo hi : UInt8) {k : Nat}
    (hk : k < table.length) :
    byteAt (discHeader text cyls sides lo hi table ++ body) (0x34 + k) = byteAt table k := by
  have hpre : ((text ++ creatorText) ++ [cyls, sides, lo, hi]).length = 0x34 := by
    rw [List.length_append, List.length_append, htext]
    rfl
  have hsplit : discHeader text cyls sides lo hi table ++ body = ((text ++ creatorText) ++ [cyls, sides, lo, hi]) ++
      (table ++ (List.replicate (0xCC - table.length) 0 ++ body)) := by
    rw [discHeader]
    simp only [List.append_assoc]
  rw [hsplit, ← hpre]
  exact byteAt_inside _ _ hk

theorem tableByte_pages {scan : TrackScan} (h : Sound scan) : (tableByte scan).toNat * 256 = blockBytesOf scan.data.length := by
  have hroom : scan.data.length ≤ 8192 := h.room
  rw [tableByte, Nat.shiftRight_eq_div_pow, UInt8.toNat_ofNat', blockBytesOf]
  omega

theorem dskKind_discHeader (cyls sides lo hi : UInt8) (table body : List UInt8) :
    dskKind (discHeader extendedText cyls sides lo hi table ++ body) = some true ∧
      dskKind (discHeader standardText cyls sides lo hi table ++ body) = some false := by
  constructor <;> rfl

theorem rd16le_discHeader {text table body : List UInt8} (htext : text.length = 0x22) (cyls sides : UInt8) {block : Nat}
    (hblock : block < 65536) :
    rd16le (discHeader text cyls sides (UInt8.ofNat (block &&& 0xFF)) (UInt8.ofNat (block >>> 8)) table ++ body) 0x32 = block := by
  have hlow : block &&& 0xFF = block % 256 := Nat.and_two_pow_sub_one_eq_mod block 8
  have hlo := @byteAt_discHeader text table body htext cyls sides (UInt8.ofNat (block &&& 0xFF)) (UInt8.ofNat (block >>> 8)) 2
    (by decide)
  have hhi := @byteAt_discHeader text table body htext cyls sides (UInt8.ofNat (block &&& 0xFF)) (UInt8.ofNat (block >>> 8)) 3
    (by decide)
  rw [rd16le, hlo, hhi]
  change (UInt8.ofNat (block &&& 0xFF)).toNat + 256 * (UInt8.ofNat (block >>> 8)).toNat = block
  rw [hlow, Nat.shiftRight_eq_div_pow, UInt8.toNat_ofNat', UInt8.toNat_ofNat']
  omega

theorem Sound.told_extended {scan : TrackScan} (h : Sound scan) : Told true (fun s => s.len) scan where
  small s hs := Nat.lt_of_le_of_lt (h.len_lt hs) (by decide)
  stored _ _ := rfl

theorem Sound.told_standard {scan : TrackScan} (h : Sound scan) {commonN : Option UInt8}
    (halike : ∀ s ∈ scan.sec, commonN = some s.chrn.n) : Told false (fun _ => 0) scan where
  small _ _ := by decide
  stored s hs := by
    have hcode : headCode scan = s.chrn.n := by
      rw [headCode]
      cases hsec : scan.sec with
      | nil =>
        rw [hsec] at hs
        cases hs
      | cons first secs =>
        have hfirst := halike first (by rw [hsec]; exact List.mem_cons_self)
        exact Option.some.inj (hfirst.symm.trans (halike s hs))
    rw [dskStored, if_neg (by decide), hcode]
    exact (h.sized s hs).symm

/-! ## The whole image -/

theorem parseDsk_header {p : List UInt8} {extended : Bool} {cyls : Nat} {trks : List FdcTrack} (hlong : 0x100 ≤ p.length)
    (hkind : dskKind p = some extended) (hcyls : byteAt p 0x30 = UInt8.ofNat cyls) (hsides : byteAt p 0x31 = 1)
    (hpos : 0 < cyls) (hle : cyls ≤ kMaxTracks) (hblock : extended = false → 0x100 ≤ rd16le p 0x32)
    (htracks : parseTracks p extended cyls 0 0x100 = some trks) :
    parseDsk p = some { tracks := cyls, sides := 1, track := trks } := by
  have hmax : kMaxTracks = 102 := rfl
  have hcount : (byteAt p 0x30).toNat = cyls := by
    rw [hcyls, UInt8.toNat_ofNat', Nat.mod_eq_of_lt (by omega)]
  have hone : fdcSides p extended = 1 := by
    rw [fdcSides, hsides]
    cases extended <;> rfl
  have hrange : ¬(cyls = 0 ∨ 1 < 1 ∨ kMaxSides < 1) := by
    rintro (h | h | h)
    · omega
    · omega
    · exact absurd h (by decide)
  have hstd : ¬((!extended) = true ∧ rd16le p 0x32 < 0x100) := by
    rintro ⟨hext, hshort⟩
    cases extended with
    | false => exact Nat.not_lt.mpr (hblock rfl) hshort
    | true => cases hext
  rw [parseDsk, if_neg (Nat.not_lt.mpr hlong), hkind]
  dsimp only
  rw [hcount, hone, if_neg hrange, if_neg hstd, Nat.min_eq_left hle, Nat.mul_one, htracks]

/-- **What `parse_dsk` makes of the image.** -/
theorem parseDsk_finishedImage {extended : Bool} {commonBlock : Nat} {scans : List TrackScan}
    (hsound : ∀ scan ∈ scans, Sound scan) (hpos : 0 < scans.length) (hle : scans.length ≤ kMaxTracks)
    (halike : extended = false → AllAlike commonBlock scans) :
    parseDsk (finishedImage extended commonBlock scans) =
      some { tracks := scans.length, sides := 1, track := fdcTracksOf 0x100 scans } := by
  have hmax : kMaxTracks = 102 := rfl
  have hlong : 0x100 ≤ (finishedImage extended commonBlock scans).length := by
    rw [finishedImage_length extended commonBlock (by omega) fun scan hscan => (hsound scan hscan).count]
    exact Nat.le_add_right _ _
  cases extended with
  | true =>
    have htable : (scans.map tableByte).length ≤ 0xCC := by
      rw [List.length_map]
      omega
    have himage : finishedImage true commonBlock scans = discHeader extendedText (UInt8.ofNat scans.length) 1 0 0
        (scans.map tableByte) ++ trackBlocks sectorEntry 0 scans := if_pos rfl
    rw [himage] at hlong ⊢
    refine parseDsk_header hlong (dskKind_discHeader _ _ _ _ _ _).1 (byteAt_discHeader rfl _ _ _ _ 0 (by decide))
      (byteAt_discHeader rfl _ _ _ _ 1 (by decide)) hpos hle (fun h => by cases h) ?_
    -- The length of a block is in the table of the header, in pages.
    have hblocks : ∀ j scan, scans[j]? = some scan → blockLen (discHeader extendedText (UInt8.ofNat scans.length) 1 0 0
        (scans.map tableByte) ++ trackBlocks sectorEntry 0 scans) true (0 + j) = blockBytesOf scan.data.length := by
      intro j scan hj
      obtain ⟨hlt, rfl⟩ := List.getElem?_eq_some_iff.mp hj
      have hin : j < (scans.map tableByte).length := by
        rw [List.length_map]
        exact hlt
      rw [blockLen, if_pos rfl, Nat.zero_add, byteAt_table rfl _ _ _ _ hin, byteAt, List.getD_eq_getElem _ _ hin,
        List.getElem_map]
      exact tableByte_pages (hsound _ (List.getElem_mem hlt))
    have hparse := parseTracks_blocks (fun s => s.len) hsound
      (fun scan hscan => (hsound scan hscan).told_extended) hblocks rfl
    rw [discHeader_length rfl htable] at hparse
    exact hparse
  | false =>
    obtain ⟨commonN, halike⟩ := halike rfl
    have hzeros : (List.replicate scans.length (0 : UInt8)).length ≤ 0xCC := by
      rw [List.length_replicate]
      omega
    have himage : finishedImage false commonBlock scans = discHeader standardText (UInt8.ofNat scans.length) 1
        (UInt8.ofNat (commonBlock &&& 0xFF)) (UInt8.ofNat (commonBlock >>> 8)) (List.replicate scans.length 0) ++
          trackBlocks standardEntry 0 scans := if_neg (by decide)
    -- All blocks have one length, which is in the header.
    have hcommon : 0x100 ≤ commonBlock ∧ commonBlock < 65536 := by
      have hmem := List.getElem_mem hpos
      have hroom : scans[0].data.length ≤ 8192 := (hsound _ hmem).room
      rw [(halike _ hmem).1, blockBytesOf]
      omega
    have hfield := @rd16le_discHeader standardText (List.replicate scans.length 0) (trackBlocks standardEntry 0 scans) rfl
      (UInt8.ofNat scans.length) 1 commonBlock hcommon.2
    rw [himage] at hlong ⊢
    refine parseDsk_header hlong (dskKind_discHeader _ _ _ _ _ _).2 (byteAt_discHeader rfl _ _ _ _ 0 (by decide))
      (byteAt_discHeader rfl _ _ _ _ 1 (by decide)) hpos hle (fun _ => by rw [hfield]; exact hcommon.1) ?_
    have hblocks : ∀ j scan, scans[j]? = some scan → blockLen (discHeader standardText (UInt8.ofNat scans.length) 1
        (UInt8.ofNat (commonBlock &&& 0xFF)) (UInt8.ofNat (commonBlock >>> 8)) (List.replicate scans.length 0) ++
          trackBlocks standardEntry 0 scans) false (0 + j) = blockBytesOf scan.data.length := by
      intro j scan hj
      rw [blockLen, if_neg (by decide), hfield]
      exact (halike scan (List.mem_of_getElem? hj)).1
    have hparse := parseTracks_blocks (fun _ => 0) hsound
      (fun scan hscan => (hsound scan hscan).told_standard (halike scan hscan).2) hblocks rfl
    rw [discHeader_length rfl hzeros] at hparse
    exact hparse

/-! ## What is served -/

/-- A track serves a scan: its sectors are the scan's, with the bytes in the image, and READ DATA gives these bytes for each
    ID wherever the head is. -/
structure Serves (image : List UInt8) (trk : FdcTrack) (scan : TrackScan) : Prop where
  contents : (trk.sec.map fun f => (⟨f.chrn, slice image f.off f.stored, f.st1, f.st2⟩ : ScannedSector)) = scan.contents
  read : ∀ s ∈ scan.sec, ∀ dtl, xferLength s.chrn.n dtl ≠ 0 → ∀ idx,
    readData image trk s.chrn dtl idx = some ((scan.payloadOf s).take (xferLength s.chrn.n dtl))

theorem findSectorScan_some {want : Chrn} {secs : List FdcSector} (h : ∃ f ∈ secs, f.chrn = want) (st2 : UInt8) :
    ∃ f ∈ secs, f.chrn = want ∧ (findSectorScan want st2 secs).1 = some f := by
  induction secs generalizing st2 with
  | nil =>
    obtain ⟨f, hf, -⟩ := h
    cases hf
  | cons first secs ih =>
    -- The first sector with the ID ends the scan; any other sector only sets status bits.
    by_cases hfirst : first.chrn = want
    · refine ⟨first, List.mem_cons_self, hfirst, ?_⟩
      rw [findSectorScan, if_pos hfirst]
    · have hrest : ∃ f ∈ secs, f.chrn = want := by
        obtain ⟨f, hf, hid⟩ := h
        rcases List.mem_cons.mp hf with rfl | hf
        · exact absurd hid hfirst
        · exact ⟨f, hf, hid⟩
      have hnext : ∀ st2, ∃ f ∈ first :: secs, f.chrn = want ∧ (findSectorScan want st2 secs).1 = some f := by
        intro st2
        obtain ⟨f, hf, hid, hfind⟩ := ih hrest st2
        exact ⟨f, List.mem_cons_of_mem _ hf, hid, hfind⟩
      rw [findSectorScan, if_neg hfirst]
      split
      · exact hnext _
      · split
        · exact hnext _
        · exact hnext _

theorem findSector_distinct {trk : FdcTrack} (hdistinct : (trk.sec.map (·.chrn)).Nodup) {f : FdcSector} (hf : f ∈ trk.sec)
    (idx : Nat) : (findSector trk f.chrn idx 0).1 = some f := by
  rw [findSector]
  dsimp only
  generalize (if trk.sec.length ≤ idx then 0 else idx) = from'
  obtain ⟨f', hf', hid, hfind⟩ := @findSectorScan_some f.chrn (trk.sec.drop from' ++ trk.sec)
    ⟨f, List.mem_append_right _ hf, rfl⟩ 0
  have hmem : f' ∈ trk.sec := by
    rcases List.mem_append.mp hf' with hdrop | hmem
    · exact List.mem_of_mem_drop hdrop
    · exact hmem
  rw [hfind, List.inj_on_of_nodup_map hdistinct hmem hf hid]

theorem serves_block {p pre post : List UInt8} {entry : SecRec → List UInt8} (hentry : EightBytes entry) {cyl : Nat}
    {scan : TrackScan} (h : Sound scan) (hp : p = pre ++ (trackBlock entry cyl scan ++ post)) :
    Serves p (fdcTrackOf pre.length scan) scan := by
  have hmax : kMaxSectors = 29 := rfl
  have hcount := h.count
  have hbefore : (pre ++ (trackHead cyl scan ++ (scan.sec.flatMap entry ++ List.replicate (0xE8 - 8 * scan.sec.length) 0))).length =
      pre.length + 0x100 := by
    simp only [List.length_append, trackHead_length, hentry.flatMap_length, List.length_replicate]
    omega
  -- The image around the data of this track.
  have hsplit : p = (pre ++ (trackHead cyl scan ++ (scan.sec.flatMap entry ++ List.replicate (0xE8 - 8 * scan.sec.length) 0))) ++
      (scan.data ++ (List.replicate (blockBytesOf scan.data.length - 0x100 - scan.data.length) 0 ++ post)) := by
    rw [hp, trackBlock]
    simp only [List.append_assoc]
  have hslice : ∀ s ∈ scan.sec, slice p (pre.length + 0x100 + s.off) s.len = scan.payloadOf s := by
    intro s hs
    rw [hsplit, ← hbefore]
    exact slice_inside _ _ (h.inside s hs)
  have hend : pre.length + 0x100 + scan.data.length ≤ p.length := by
    have hlen := congrArg List.length hsplit
    rw [List.length_append, hbefore, List.length_append] at hlen
    omega
  constructor
  · rw [fdcTrackOf, List.map_map, TrackScan.contents]
    apply List.map_congr_left
    intro s hs
    rw [← hslice s hs]
    rfl
  · -- A command that names the sector finds it, and reads its window of the image.
    intro s hs dtl hne idx
    have hmem : fdcSectorOf (pre.length + 0x100) s ∈ (fdcTrackOf pre.length scan).sec := List.mem_map_of_mem hs
    have hdistinct : ((fdcTrackOf pre.length scan).sec.map (·.chrn)).Nodup := by
      rw [fdcTrackOf, List.map_map]
      exact h.distinct
    have hcode : s.chrn.n ≤ kMaxSizeCode := h.codes s hs
    have hlen := h.sized s hs
    have hinside := h.inside s hs
    have hin : pre.length + 0x100 + s.off + 128 <<< s.chrn.n.toNat ≤ pre.length + 0x100 + scan.data.length := by
      rw [← hlen]
      omega
    have hread := readData_found (findSector_distinct hdistinct hmem idx) hcode hne hin hend
    rw [FdcSector.window] at hread
    have hwindow : slice p (fdcSectorOf (pre.length + 0x100) s).off (128 <<< (fdcSectorOf (pre.length + 0x100) s).chrn.n.toNat) =
        scan.payloadOf s := by
      rw [← hslice s hs, hlen]
      rfl
    rw [hwindow] at hread
    exact hread

theorem fdcTracksOf_getElem {p pre : List UInt8} {entry : SecRec → List UInt8} (hentry : EightBytes entry) {cyl : Nat}
    {scans : List TrackScan} (hsound : ∀ scan ∈ scans, Sound scan) (hp : p = pre ++ trackBlocks entry cyl scans) {j : Nat}
    {scan : TrackScan} (hj : scans[j]? = some scan) :
    ∃ trk, (fdcTracksOf pre.length scans)[j]? = some trk ∧ Serves p trk scan := by
  induction scans generalizing pre cyl j with
  | nil => cases hj
  | cons first scans ih =>
    have hfirst := hsound first List.mem_cons_self
    rw [trackBlocks] at hp
    cases j with
    | zero =>
      obtain rfl : first = scan := Option.some.inj hj
      exact ⟨_, rfl, serves_block hentry hfirst hp⟩
    | succ j =>
      have hnext : (pre ++ trackBlock entry cyl first).length = pre.length + blockBytesOf first.data.length := by
        rw [List.length_append, trackBlock_length hentry cyl hfirst.count]
      have hrest := ih (fun t ht => hsound t (List.mem_cons_of_mem _ ht)) (hp.trans (List.append_assoc _ _ _).symm) hj
      rw [hnext] at hrest
      exact hrest

theorem finishedImage_serves {extended : Bool} {commonBlock : Nat} {scans : List TrackScan}
    (hsound : ∀ scan ∈ scans, Sound scan) (hle : scans.length ≤ kMaxTracks) {cyl : Nat} {scan : TrackScan}
    (hcyl : scans[cyl]? = some scan) :
    Serves (finishedImage extended commonBlock scans) ((fdcTracksOf 0x100 scans).getD cyl {}) scan := by
  have hmax : kMaxTracks = 102 := rfl
  rw [finishedImage]
  split
  · have hlen := @discHeader_length extendedText (scans.map tableByte) rfl (by rw [List.length_map]; omega)
      (UInt8.ofNat scans.length) 1 0 0
    obtain ⟨trk, htrk, hserves⟩ := fdcTracksOf_getElem sectorEntry_eight hsound rfl hcyl
    rw [hlen] at htrk
    rw [List.getD_eq_getElem?_getD, htrk]
    exact hserves
  · have hlen := @discHeader_length standardText (List.replicate scans.length 0) rfl (by rw [List.length_replicate]; omega)
      (UInt8.ofNat scans.length) 1 (UInt8.ofNat (commonBlock &&& 0xFF)) (UInt8.ofNat (commonBlock >>> 8))
    obtain ⟨trk, htrk, hserves⟩ := fdcTracksOf_getElem standardEntry_eight hsound rfl hcyl
    rw [hlen] at htrk
    rw [List.getD_eq_getElem?_getD, htrk]
    exact hserves

/-- **The image re-parses to what was scanned.** No write misses the buffer; where the conversion succeeds, `parse_dsk`
    accepts the image and serves every cylinder as its scan. -/
theorem fluxScpToDsk_reparses (scp out : List UInt8) :
    fluxScpToDsk scp out ≠ .error .outside ∧
      ∀ n image weak, fluxScpToDsk scp out = .ok (n, image, weak) →
        n ≤ out.length ∧ image.length = out.length ∧
        ∃ g m, scpGeometry scp = .ok g ∧ parseDsk (image.take n) = some m ∧ m.tracks = g.cyls ∧ m.sides = 1 ∧
          ∀ cyl < g.cyls, ∃ scan, scanCylinder scp g cyl = .ok scan ∧ Serves (image.take n) (m.trackAt cyl 0) scan := by
  rcases fluxScpToDsk_cases scp out with
    ⟨err, hrun, hne⟩ | ⟨g, extended, commonBlock, scans, post, weak, hgeom, hrun, hsize, hlen, hscanned, halike⟩
  · rw [hrun]
    refine ⟨fun heq => hne (Except.error.inj heq), ?_⟩
    intro n image weak heq
    cases heq
  · rw [hrun]
    constructor
    · intro heq
      cases heq
    intro n image weak' heq
    obtain ⟨rfl, hrest⟩ := Prod.mk.inj (Except.ok.inj heq)
    obtain ⟨rfl, -⟩ := Prod.mk.inj hrest
    have hgeometry := scpGeometry_ok hgeom
    have hpos : 0 < scans.length := by
      obtain ⟨-, -, -, -, hcyls, rfl⟩ := hgeometry
      rw [hlen]
      exact Nat.pos_of_ne_zero hcyls
    have hle : scans.length ≤ kMaxTracks := by
      obtain ⟨-, -, -, -, -, rfl⟩ := hgeometry
      rw [hlen]
      exact Nat.le_trans (presentCyls_le scp _) (by decide)
    -- Every scan that went into the image is sound, so its block can be read back.
    have hsound : ∀ scan ∈ scans, Sound scan := by
      intro scan hscan
      obtain ⟨cyl, hcyl⟩ := List.mem_iff_getElem?.mp hscan
      exact scanCylinder_sound (hscanned cyl scan hcyl)
    -- The image ends where the size says; what is behind it in the buffer is not looked at.
    have htake : (finishedImage extended commonBlock scans ++ post).take (finishedImage extended commonBlock scans).length =
        finishedImage extended commonBlock scans := List.take_left
    rw [htake]
    refine ⟨?_, hsize, g, _, hgeom, parseDsk_finishedImage hsound hpos hle halike, hlen, rfl, ?_⟩
    · rw [← hsize, List.length_append]
      exact Nat.le_add_right _ _
    · intro cyl hcyl
      have hget : scans[cyl]? = some scans[cyl] := List.getElem?_eq_getElem (by rw [hlen]; exact hcyl)
      have hserves := @finishedImage_serves extended commonBlock scans hsound hle cyl _ hget
      refine ⟨_, hscanned cyl _ hget, ?_⟩
      rw [FdcMedia.trackAt, Nat.mul_one, Nat.add_zero]
      exact hserves

end Koncepcja.Disk
