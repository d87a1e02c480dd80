import Koncepcja.Lib.Segments
import Koncepcja.Disk.DskAgreement
import Koncepcja.Disk.ScpDecode

/-!
# A DSK Image from a Flux Capture

`flux_scp_to_dsk` of `src/hw/flux.cpp`: the cylinders of an SCP image are decoded and scanned one by one, and each is
written as a Track-Info block behind the last. Only at the end is it known whether the blocks are all alike, and so whether
the image is a standard one or an extended one.

The output is the caller's buffer. Every write is checked against its end; a write that fails the check is an error of its
own, which the source does not have.

## Main results

- `emitTrack_eq`, `emitTracks_run`: where the blocks fit, the buffer holds them one behind the other.
- `fluxScpToDsk_cases`: the image that is left in the buffer, or the error.
- `fluxScpToDsk_isOk`: when there is an image.
-/

namespace Koncepcja.Disk

open Koncepcja.Bits Koncepcja.Bytes

/-! ## What is written -/

/-- The errors of `flux_scp_to_dsk`; `outside` is a write behind the buffer's end. -/
inductive ToDskError where
  | flux (e : FluxError)
  | dskOverflow
  | noSectors
  | outside
  deriving DecidableEq

structure FluxWeakSector where
  cyl : UInt8
  side : UInt8
  sectorId : UInt8
  reason : UInt8
  deriving DecidableEq

/-- `FluxWeakReport`, less the unused part of its array. -/
structure FluxWeakReport where
  count : Nat := 0
  sec : List FluxWeakSector := []
  deriving DecidableEq

def fluxWeakMax : Nat := 16

/-- The buffer, and the loop's own variables. -/
structure DskEmit where
  out : List UInt8
  off : Nat := 0x100
  totalSectors : Nat := 0
  uniform : Bool := true
  commonBlock : Nat := 0
  commonN : Option UInt8 := none
  blockOf : List Nat := []
  weak : FluxWeakReport := {}
  deriving DecidableEq

/-- `Track-Info\r\n`. -/
def trackInfoText : List UInt8 := trackInfoMagic ++ [0x0D, 0x0A]

/-- `MV - CPCEMU Disk-File\r\nDisk-Info\r\n`. -/
def standardText : List UInt8 := standardMagic ++
  [0x45, 0x4D, 0x55, 0x20, 0x44, 0x69, 0x73, 0x6B, 0x2D, 0x46, 0x69, 0x6C, 0x65, 0x0D, 0x0A,
    0x44, 0x69, 0x73, 0x6B, 0x2D, 0x49, 0x6E, 0x66, 0x6F, 0x0D, 0x0A]

/-- `EXTENDED CPC DSK File\r\nDisk-Info\r\n`. -/
def extendedText : List UInt8 := extendedMagic ++
  [0x20, 0x43, 0x50, 0x43, 0x20, 0x44, 0x53, 0x4B, 0x20, 0x46, 0x69, 0x6C, 0x65, 0x0D, 0x0A,
    0x44, 0x69, 0x73, 0x6B, 0x2D, 0x49, 0x6E, 0x66, 0x6F, 0x0D, 0x0A]

/-- `konCePCja-flux`. -/
def creatorText : List UInt8 := [0x6B, 0x6F, 0x6E, 0x43, 0x65, 0x50, 0x43, 0x6A, 0x61, 0x2D, 0x66, 0x6C, 0x75, 0x78]

/-- A sector's entry in the Track-Info block. -/
def sectorEntry (s : SecRec) : List UInt8 :=
  [s.chrn.c, s.chrn.h, s.chrn.r, s.chrn.n, s.st1, s.st2, UInt8.ofNat (s.len &&& 0xFF), UInt8.ofNat (s.len >>> 8)]

/-- The length of a track's block: its header and its data, up to a multiple of 256. -/
def blockBytesOf (used : Nat) : Nat := (0x100 + used + 0xFF) / 0x100 * 0x100

namespace DskEmit

/-- One `memcpy` or `memset`, or one byte. -/
def put (e : DskEmit) (off : Nat) (block : List UInt8) : Except ToDskError DskEmit :=
  if off + block.length ≤ e.out.length then .ok { e with out := overwrite e.out off block } else .error .outside

/-- Several of them, from `base` on. -/
def puts (e : DskEmit) (base : Nat) (writes : List (Nat × List UInt8)) : Except ToDskError DskEmit :=
  writes.foldlM (fun e write => e.put (base + write.1) write.2) e

/-- `common_n` and what it says of `uniform`. -/
def noteSize (e : DskEmit) (n : UInt8) : DskEmit :=
  match e.commonN with
  | none => { e with commonN := some n }
  | some common => if common ≠ n then { e with uniform := false } else e

/-- A line of the weak report. -/
def noteWeak (e : DskEmit) (cyl : Nat) (s : SecRec) : DskEmit :=
  if s.crcBad ∨ s.differs then
    let line : FluxWeakSector :=
      { cyl := UInt8.ofNat cyl, side := 0, sectorId := s.chrn.r
        reason := (if s.crcBad then 1 else 0) ||| (if s.differs then 2 else 0) }
    let sec := if e.weak.count < fluxWeakMax then e.weak.sec ++ [line] else e.weak.sec
    { e with weak := { count := e.weak.count + 1, sec } }
  else e

/-- The cylinder's part of `uniform`, and its sums. -/
def noteBlock (e : DskEmit) (cyl block sectors : Nat) : DskEmit :=
  let e := { e with blockOf := e.blockOf ++ [block] }
  let e :=
    if cyl = 0 then { e with commonBlock := block }
    else if block ≠ e.commonBlock then { e with uniform := false }
    else e
  { e with totalSectors := e.totalSectors + sectors, off := e.off + block }

/-- The loop over a cylinder's sectors from `i` on. -/
def emitSectors (e : DskEmit) (cyl th : Nat) : Nat → List SecRec → Except ToDskError DskEmit
  | _, [] => .ok e
  | i, s :: rest => do
    let e ← e.put (th + (0x18 + 8 * i)) (sectorEntry s)
    emitSectors ((e.noteSize s.chrn.n).noteWeak cyl s) cyl th (i + 1) rest

/-- What is written of a cylinder before its sectors. -/
def headWrites (cyl : Nat) (scan : TrackScan) : List (Nat × List UInt8) :=
  [(0, trackInfoText), (0x10, [UInt8.ofNat cyl]), (0x11, [0]),
    (0x14, [(scan.sec.head?.map (·.chrn.n)).getD 2]), (0x15, [UInt8.ofNat scan.sec.length]), (0x16, [0x4E]), (0x17, [0xE5])]

/-- One cylinder. -/
def emitTrack (e : DskEmit) (cyl : Nat) (scan : TrackScan) : Except ToDskError DskEmit :=
  let used := scan.data.length
  let block := blockBytesOf used
  if e.out.length < e.off + block then .error .dskOverflow
  else do
    let th := e.off
    let e ← e.put th (List.replicate block 0)
    let e ← e.puts th (headWrites cyl scan)
    let e ← e.emitSectors cyl th 0 scan.sec
    let e ← e.put (th + 0x100) scan.data
    let e ← e.put (0x34 + cyl) [UInt8.ofNat (block >>> 8)]
    return e.noteBlock cyl block scan.sec.length

/-- The length fields of a track's entries, which a standard image leaves unused. -/
def clearSizes (e : DskEmit) (th : Nat) : Nat → Nat → Except ToDskError DskEmit
  | 0, _ => .ok e
  | count + 1, i => do
    let e ← e.puts (th + (0x18 + 8 * i)) [(7, [0]), (6, [0])]
    clearSizes e th count (i + 1)

/-- All tracks' length fields. -/
def clearAllSizes (e : DskEmit) (tOff : Nat) : List Nat → Except ToDskError DskEmit
  | [] => .ok e
  | block :: blocks => do
    let e ← e.clearSizes tOff (byteAt e.out (tOff + 0x15)).toNat 0
    clearAllSizes e (tOff + block) blocks

/-- The disc header. -/
def emitHeader (e : DskEmit) (cyls : Nat) : Except ToDskError DskEmit :=
  if e.uniform then do
    let e ← e.puts 0 [(0, standardText), (0x22, creatorText), (0x32, [UInt8.ofNat (e.commonBlock &&& 0xFF)]),
      (0x33, [UInt8.ofNat (e.commonBlock >>> 8)]), (0x34, List.replicate cyls 0)]
    e.clearAllSizes 0x100 e.blockOf
  else e.puts 0 [(0, extendedText), (0x22, creatorText)]

end DskEmit

/-! ## The capture -/

/-- `decode_track`: revolution 0, and revolution 1 behind it where there is one. -/
def decodeTrack (scp : List UInt8) (g : ScpGeom) (toff : Nat) : Except FluxError BitBuf := do
  let bb ← decodeOneRev scp g toff 0 .empty
  if 2 ≤ g.revs then decodeOneRev scp g toff 1 bb else return bb

/-- The scan of a cylinder; an absent one is empty. -/
def scanCylinder (scp : List UInt8) (g : ScpGeom) (cyl : Nat) : Except FluxError TrackScan :=
  let toff := trackOffset scp g.legacy cyl
  if toff = 0 then return {}
  else do
    let bb ← decodeTrack scp g toff
    return scanTrack bb

/-- The loop over the cylinders from `cyl` on. -/
def emitTracks (scp : List UInt8) (g : ScpGeom) : Nat → Nat → DskEmit → Except ToDskError DskEmit
  | 0, _, e => .ok e
  | count + 1, cyl, e => do
    let scan ← (scanCylinder scp g cyl).mapError .flux
    let e ← e.emitTrack cyl scan
    emitTracks scp g count (cyl + 1) e

/-- `flux_scp_to_dsk`: the size of the image, the buffer it was written to and the weak report. -/
def fluxScpToDsk (scp out : List UInt8) : Except ToDskError (Nat × List UInt8 × FluxWeakReport) := do
  let g ← (scpGeometry scp).mapError .flux
  if out.length < 0x100 then throw .dskOverflow
  else
    let e ← DskEmit.put { out } 0 (List.replicate 0x100 0)
    let e ← emitTracks scp g g.cyls 0 e
    if e.totalSectors = 0 then throw .noSectors
    else
      let e ← e.emitHeader g.cyls
      let e ← e.puts 0 [(0x30, [UInt8.ofNat g.cyls]), (0x31, [1])]
      return (e.off, e.out, e.weak)

/-! ## Writes inside a segment -/

theorem ok_bind {α β : Type} (a : α) (f : α → Except ToDskError β) : (Except.ok a >>= f) = f a := rfl

section Writes

variable {e : DskEmit} {pre seg post : List UInt8} {off : Nat} {writes : List (Nat × List UInt8)}

theorem DskEmit.put_inside {block : List UInt8} (hout : e.out = pre ++ (seg ++ post)) (h : off + block.length ≤ seg.length) :
    e.put (pre.length + off) block = .ok { e with out := pre ++ (overwrite seg off block ++ post) } := by
  have hfits : pre.length + off + block.length ≤ e.out.length := by
    rw [hout, List.length_append, List.length_append]
    omega
  rw [DskEmit.put, if_pos hfits, hout, overwrite_inside pre post h]

theorem DskEmit.put_segment (block : List UInt8) (hout : e.out = pre ++ (seg ++ post)) (h : block.length = seg.length) :
    e.put pre.length block = .ok { e with out := pre ++ (block ++ post) } := by
  have hfits : 0 + block.length ≤ seg.length := Nat.le_of_eq ((Nat.zero_add _).trans h)
  have hput := DskEmit.put_inside hout hfits
  rw [overwrite_whole h] at hput
  exact hput

theorem DskEmit.puts_inside (hout : e.out = pre ++ (seg ++ post)) (h : WritesFit seg.length writes) :
    e.puts pre.length writes = .ok { e with out := pre ++ (overwriteAll seg writes ++ post) } := by
  induction writes generalizing e seg with
  | nil =>
    have hsame : { e with out := pre ++ (seg ++ post) } = e := by rw [← hout]
    exact congrArg Except.ok hsame.symm
  | cons write writes ih =>
    have hfits := h write List.mem_cons_self
    have hrest : WritesFit (overwrite seg write.1 write.2).length writes := by
      intro w hw
      rw [overwrite_length hfits]
      exact h w (List.mem_cons_of_mem _ hw)
    have hstep := @ih { e with out := pre ++ (overwrite seg write.1 write.2 ++ post) } _ rfl hrest
    rw [DskEmit.puts, List.foldlM_cons, DskEmit.put_inside hout hfits]
    exact hstep

theorem DskEmit.puts_front (hout : e.out = seg ++ post) (h : WritesFit seg.length writes) :
    e.puts 0 writes = .ok { e with out := overwriteAll seg writes ++ post } := by
  have hputs := @DskEmit.puts_inside e [] seg post writes hout h
  rw [List.length_nil, List.nil_append] at hputs
  exact hputs

end Writes

/-! ## A cylinder's block -/

/-- The first bytes of a Track-Info block. -/
def trackHead (cyl : Nat) (scan : TrackScan) : List UInt8 :=
  trackInfoText ++ [0, 0, 0, 0, UInt8.ofNat cyl, 0, 0, 0, (scan.sec.head?.map (·.chrn.n)).getD 2,
    UInt8.ofNat scan.sec.length, 0x4E, 0xE5]

/-- The whole block, with its entries as `entry` has them. -/
def trackBlock (entry : SecRec → List UInt8) (cyl : Nat) (scan : TrackScan) : List UInt8 :=
  trackHead cyl scan ++ (scan.sec.flatMap entry ++ (List.replicate (0xE8 - 8 * scan.sec.length) 0 ++
    (scan.data ++ List.replicate (blockBytesOf scan.data.length - 0x100 - scan.data.length) 0)))

/-- The blocks of the cylinders from `cyl` on. -/
def trackBlocks (entry : SecRec → List UInt8) : Nat → List TrackScan → List UInt8
  | _, [] => []
  | cyl, scan :: scans => trackBlock entry cyl scan ++ trackBlocks entry (cyl + 1) scans

theorem trackBlocks_append (entry : SecRec → List UInt8) (cyl : Nat) (scans : List TrackScan) (scan : TrackScan) :
    trackBlocks entry cyl (scans ++ [scan]) = trackBlocks entry cyl scans ++ trackBlock entry (cyl + scans.length) scan := by
  induction scans generalizing cyl with
  | nil => exact List.append_nil _
  | cons first scans ih =>
    rw [List.cons_append, trackBlocks, trackBlocks, ih, List.append_assoc, List.length_cons, Nat.add_assoc cyl 1,
      Nat.add_comm 1]

@[simp] theorem trackHead_length (cyl : Nat) (scan : TrackScan) : (trackHead cyl scan).length = 0x18 := rfl

/-- An entry takes eight bytes. -/
def EightBytes (entry : SecRec → List UInt8) : Prop := ∀ s, (entry s).length = 8

theorem sectorEntry_eight : EightBytes sectorEntry := fun _ => rfl

theorem EightBytes.flatMap_length {entry : SecRec → List UInt8} (h : EightBytes entry) (secs : List SecRec) :
    (secs.flatMap entry).length = 8 * secs.length := by
  induction secs with
  | nil => rfl
  | cons s secs ih =>
    rw [List.flatMap_cons, List.length_append, h, ih, List.length_cons]
    omega

/-- The header while the blocks are written: only the size table is filled in. -/
def tableHeader (table : List UInt8) : List UInt8 :=
  List.replicate 0x34 0 ++ (table ++ List.replicate (0xCC - table.length) 0)

theorem tableHeader_length {table : List UInt8} (h : table.length ≤ 0xCC) : (tableHeader table).length = 0x100 := by
  simp only [tableHeader, List.length_append, List.length_replicate]
  omega

/-- A cylinder's byte in the size table. -/
def tableByte (scan : TrackScan) : UInt8 := UInt8.ofNat (blockBytesOf scan.data.length >>> 8)

theorem blockBytesOf_ge (used : Nat) : 0x100 + used ≤ blockBytesOf used := by
  rw [blockBytesOf]
  omega

theorem trackBlock_length {entry : SecRec → List UInt8} (h : EightBytes entry) (cyl : Nat) {scan : TrackScan}
    (hcount : scan.sec.length ≤ kMaxSectors) : (trackBlock entry cyl scan).length = blockBytesOf scan.data.length := by
  have hge := blockBytesOf_ge scan.data.length
  have hmax : kMaxSectors = 29 := rfl
  simp only [trackBlock, List.length_append, List.length_replicate, trackHead_length, h.flatMap_length]
  omega

theorem trackBlocks_length {entry : SecRec → List UInt8} (h : EightBytes entry) (cyl : Nat) {scans : List TrackScan}
    (hcounts : ∀ scan ∈ scans, scan.sec.length ≤ kMaxSectors) :
    (trackBlocks entry cyl scans).length = (scans.map fun scan => blockBytesOf scan.data.length).sum := by
  induction scans generalizing cyl with
  | nil => rfl
  | cons scan scans ih =>
    rw [trackBlocks, List.length_append, trackBlock_length h cyl (hcounts scan List.mem_cons_self),
      ih (cyl + 1) fun t ht => hcounts t (List.mem_cons_of_mem _ ht), List.map_cons, List.sum_cons]

theorem overwriteAll_head (cyl sizeCode sectors : UInt8) :
    overwriteAll (List.replicate 0x18 0) [(0, trackInfoText), (0x10, [cyl]), (0x11, [0]), (0x14, [sizeCode]),
      (0x15, [sectors]), (0x16, [0x4E]), (0x17, [0xE5])] =
    trackInfoText ++ [0, 0, 0, 0, cyl, 0, 0, 0, sizeCode, sectors, 0x4E, 0xE5] := by
  simp [overwriteAll, overwrite, trackInfoText, trackInfoMagic, List.replicate]

theorem headWrites_fit (cyl : Nat) (scan : TrackScan) :
    WritesFit (List.replicate 0x18 (0 : UInt8)).length (DskEmit.headWrites cyl scan) := by
  simp [WritesFit, DskEmit.headWrites, trackInfoText, trackInfoMagic]

theorem overwriteAll_headWrites (cyl : Nat) (scan : TrackScan) (rest : List UInt8) :
    overwriteAll (List.replicate 0x18 0 ++ rest) (DskEmit.headWrites cyl scan) = trackHead cyl scan ++ rest := by
  rw [overwriteAll_append (headWrites_fit cyl scan), DskEmit.headWrites, overwriteAll_head]
  rfl

/-! ## The sectors of a cylinder -/

/-- What the loop over the sectors leaves of the state. -/
structure SectorsNoted (e e' : DskEmit) (secs : List SecRec) : Prop where
  off : e'.off = e.off
  totalSectors : e'.totalSectors = e.totalSectors
  commonBlock : e'.commonBlock = e.commonBlock
  blockOf : e'.blockOf = e.blockOf
  keeps : ∀ n, e.commonN = some n → e'.commonN = some n
  uniform : e'.uniform = true → e.uniform = true ∧ ∀ s ∈ secs, e'.commonN = some s.chrn.n

theorem DskEmit.noteWeak_eq (e : DskEmit) (cyl : Nat) (s : SecRec) :
    ∃ weak, e.noteWeak cyl s = { e with weak } := by
  rw [DskEmit.noteWeak]
  split
  · exact ⟨_, rfl⟩
  · exact ⟨e.weak, rfl⟩

theorem DskEmit.noteSize_eq (e : DskEmit) (n : UInt8) :
    ∃ uniform commonN, e.noteSize n = { e with uniform, commonN } ∧ (∀ m, e.commonN = some m → commonN = some m) ∧
      (uniform = true → e.uniform = true ∧ commonN = some n) := by
  rw [DskEmit.noteSize]
  cases hn : e.commonN with
  | none =>
    refine ⟨e.uniform, some n, rfl, ?_, fun h => ⟨h, rfl⟩⟩
    intro m h
    cases h
  | some common =>
    dsimp only
    by_cases hsame : common = n
    · rw [if_neg (not_not_intro hsame)]
      refine ⟨e.uniform, some common, ?_, fun m h => h, fun h => ⟨h, congrArg some hsame⟩⟩
      rw [← hn]
    · rw [if_pos hsame]
      refine ⟨false, some common, ?_, fun m h => h, ?_⟩
      · rw [← hn]
      · intro h
        cases h

theorem sectorNoted (e : DskEmit) (out : List UInt8) (cyl : Nat) (s : SecRec) :
    (({ e with out }.noteSize s.chrn.n).noteWeak cyl s).out = out ∧
      SectorsNoted e (({ e with out }.noteSize s.chrn.n).noteWeak cyl s) [s] := by
  obtain ⟨uniform, commonN, hsize, hkeeps, huniform⟩ := DskEmit.noteSize_eq { e with out } s.chrn.n
  rw [hsize]
  obtain ⟨weak, hweak⟩ := DskEmit.noteWeak_eq { e with out, uniform, commonN } cyl s
  rw [hweak]
  refine ⟨rfl, rfl, rfl, rfl, rfl, hkeeps, ?_⟩
  intro h
  obtain ⟨hstart, hcommon⟩ := huniform h
  refine ⟨hstart, ?_⟩
  intro t ht
  rw [List.mem_singleton.mp ht]
  exact hcommon

theorem SectorsNoted.cons {e e' e'' : DskEmit} {s : SecRec} {secs : List SecRec} (h : SectorsNoted e e' [s])
    (h' : SectorsNoted e' e'' secs) : SectorsNoted e e'' (s :: secs) where
  off := h'.off.trans h.off
  totalSectors := h'.totalSectors.trans h.totalSectors
  commonBlock := h'.commonBlock.trans h.commonBlock
  blockOf := h'.blockOf.trans h.blockOf
  keeps n hn := h'.keeps n (h.keeps n hn)
  uniform huniform := by
    obtain ⟨hfirst, hrest⟩ := h'.uniform huniform
    obtain ⟨hstart, hs⟩ := h.uniform hfirst
    refine ⟨hstart, ?_⟩
    intro t ht
    rcases List.mem_cons.mp ht with rfl | ht
    · exact h'.keeps _ (hs t List.mem_cons_self)
    · exact hrest t ht

theorem emitSectors_run {e : DskEmit} {cyl th i : Nat} {secs : List SecRec} {pre post : List UInt8}
    (hpre : pre.length = th + (0x18 + 8 * i)) (hout : e.out = pre ++ (List.replicate (8 * secs.length) 0 ++ post)) :
    ∃ e', e.emitSectors cyl th i secs = .ok e' ∧ e'.out = pre ++ (secs.flatMap sectorEntry ++ post) ∧
      SectorsNoted e e' secs := by
  -- Along the sectors: each entry goes into the next eight bytes of the header.
  induction secs generalizing e i pre with
  | nil =>
    refine ⟨e, rfl, hout, rfl, rfl, rfl, rfl, fun n h => h, ?_⟩
    intro h
    refine ⟨h, ?_⟩
    intro s hs
    cases hs
  | cons s secs ih =>
    have hsplit : e.out = pre ++ (List.replicate 8 0 ++ (List.replicate (8 * secs.length) 0 ++ post)) := by
      rw [hout, List.length_cons, Nat.mul_succ, Nat.add_comm, List.replicate_add, List.append_assoc]
    have hput : e.put (th + (0x18 + 8 * i)) (sectorEntry s) =
        .ok { e with out := pre ++ sectorEntry s ++ (List.replicate (8 * secs.length) 0 ++ post) } := by
      rw [← hpre, List.append_assoc]
      exact DskEmit.put_segment _ hsplit rfl
    obtain ⟨hkept, hnoted⟩ :=
      sectorNoted e (pre ++ sectorEntry s ++ (List.replicate (8 * secs.length) 0 ++ post)) cyl s
    have hnext : (pre ++ sectorEntry s).length = th + (0x18 + 8 * (i + 1)) := by
      rw [List.length_append, hpre, sectorEntry_eight s]
      omega
    obtain ⟨e', hrun, hout', hnoted'⟩ := ih hnext hkept
    refine ⟨e', ?_, ?_, hnoted.cons hnoted'⟩
    · rw [DskEmit.emitSectors, hput]
      exact hrun
    · rw [hout', List.flatMap_cons, List.append_assoc, List.append_assoc]

/-! ## The cylinders -/

theorem put_table {e : DskEmit} {table body : List UInt8} (b : UInt8) (htable : table.length < 0xCC)
    (hout : e.out = tableHeader table ++ body) :
    e.put (0x34 + table.length) [b] = .ok { e with out := tableHeader (table ++ [b]) ++ body } := by
  have hsplit : e.out = (List.replicate 0x34 0 ++ table) ++ ([0] ++ (List.replicate (0xCC - (table.length + 1)) 0 ++ body)) := by
    have hrest : List.replicate (0xCC - table.length) (0 : UInt8) = [0] ++ List.replicate (0xCC - (table.length + 1)) 0 := by
      rw [show 0xCC - table.length = 1 + (0xCC - (table.length + 1)) by omega, List.replicate_add]
      rfl
    rw [hout, tableHeader, hrest]
    simp only [List.append_assoc]
  have hput := DskEmit.put_segment [b] hsplit rfl
  rw [List.length_append, List.length_replicate] at hput
  rw [hput, tableHeader, List.length_append, List.length_singleton]
  simp only [List.append_assoc]

/-- What a cylinder leaves of the state. -/
structure TrackNoted (e e' : DskEmit) (cyl : Nat) (scan : TrackScan) : Prop where
  off : e'.off = e.off + blockBytesOf scan.data.length
  totalSectors : e'.totalSectors = e.totalSectors + scan.sec.length
  blockOf : e'.blockOf = e.blockOf ++ [blockBytesOf scan.data.length]
  commonBlock : cyl ≠ 0 → e'.commonBlock = e.commonBlock
  keeps : ∀ n, e.commonN = some n → e'.commonN = some n
  uniform : e'.uniform = true → e.uniform = true ∧ e'.commonBlock = blockBytesOf scan.data.length ∧
    ∀ s ∈ scan.sec, e'.commonN = some s.chrn.n

theorem DskEmit.noteBlock_out (e : DskEmit) (cyl block sectors : Nat) : (e.noteBlock cyl block sectors).out = e.out := by
  rw [DskEmit.noteBlock]
  dsimp only
  split
  · rfl
  · split <;> rfl

theorem SectorsNoted.trackNoted {e e' : DskEmit} {cyl : Nat} {scan : TrackScan} (h : SectorsNoted e e' scan.sec)
    (out : List UInt8) :
    TrackNoted e ({ e' with out }.noteBlock cyl (blockBytesOf scan.data.length) scan.sec.length) cyl scan := by
  rw [DskEmit.noteBlock]
  -- The first cylinder sets the common block size; a later one keeps it or ends the uniform image.
  by_cases hcyl : cyl = 0
  · simp only [if_pos hcyl]
    refine ⟨?_, ?_, ?_, fun hne => absurd hcyl hne, h.keeps, ?_⟩
    · rw [h.off]
    · rw [h.totalSectors]
    · rw [h.blockOf]
    · intro huniform
      obtain ⟨hstart, hsecs⟩ := h.uniform huniform
      exact ⟨hstart, rfl, hsecs⟩
  · simp only [if_neg hcyl]
    by_cases hblock : blockBytesOf scan.data.length = e'.commonBlock
    · simp only [if_neg (not_not_intro hblock)]
      refine ⟨?_, ?_, ?_, fun _ => h.commonBlock, h.keeps, ?_⟩
      · rw [h.off]
      · rw [h.totalSectors]
      · rw [h.blockOf]
      · intro huniform
        obtain ⟨hstart, hsecs⟩ := h.uniform huniform
        exact ⟨hstart, hblock.symm, hsecs⟩
    · simp only [ne_eq, hblock, not_false_eq_true, if_true]
      refine ⟨?_, ?_, ?_, fun _ => h.commonBlock, h.keeps, ?_⟩
      · rw [h.off]
      · rw [h.totalSectors]
      · rw [h.blockOf]
      · intro huniform
        cases huniform

theorem replicate_block {scan : TrackScan} (hcount : scan.sec.length ≤ kMaxSectors) :
    List.replicate (blockBytesOf scan.data.length) (0 : UInt8) =
      List.replicate 0x18 0 ++ (List.replicate (8 * scan.sec.length) 0 ++ (List.replicate (0xE8 - 8 * scan.sec.length) 0 ++
        (List.replicate scan.data.length 0 ++ List.replicate (blockBytesOf scan.data.length - 0x100 - scan.data.length) 0))) := by
  have hge := blockBytesOf_ge scan.data.length
  have hmax : kMaxSectors = 29 := rfl
  rw [← List.replicate_add, ← List.replicate_add, ← List.replicate_add, ← List.replicate_add]
  congr 1
  omega

/-- **One cylinder**: where its block fits, it is written behind the blocks that are there. -/
theorem emitTrack_eq {e : DskEmit} {table body post : List UInt8} {scan : TrackScan} (htable : table.length < 0xCC)
    (hout : e.out = tableHeader table ++ (body ++ post)) (hoff : e.off = 0x100 + body.length)
    (hcount : scan.sec.length ≤ kMaxSectors) (hfits : e.off + blockBytesOf scan.data.length ≤ e.out.length) :
    ∃ e', e.emitTrack table.length scan = .ok e' ∧ TrackNoted e e' table.length scan ∧
      e'.out = tableHeader (table ++ [tableByte scan]) ++
        ((body ++ trackBlock sectorEntry table.length scan) ++ post.drop (blockBytesOf scan.data.length)) := by
  have hheader := tableHeader_length (Nat.le_of_lt htable)
  have hmax : kMaxSectors = 29 := rfl
  have hpre : (tableHeader table ++ body).length = e.off := by rw [List.length_append, hheader, hoff]
  have hroom : blockBytesOf scan.data.length ≤ post.length := by
    rw [hout, List.length_append, List.length_append, hheader, hoff] at hfits
    omega
  have htake : (post.take (blockBytesOf scan.data.length)).length = blockBytesOf scan.data.length := by
    rw [List.length_take, Nat.min_eq_left hroom]
  generalize hrest : post.drop (blockBytesOf scan.data.length) = rest
  -- the block is cleared
  have hcut : e.out = (tableHeader table ++ body) ++ (post.take (blockBytesOf scan.data.length) ++ rest) := by
    rw [hout, ← hrest, List.take_append_drop, List.append_assoc]
  have hclear := DskEmit.put_segment (List.replicate (blockBytesOf scan.data.length) 0) hcut
    (by rw [htake, List.length_replicate])
  rw [hpre, replicate_block hcount] at hclear
  generalize htail : List.replicate (blockBytesOf scan.data.length - 0x100 - scan.data.length) (0 : UInt8) = tail
  rw [htail] at hclear
  generalize hpad : List.replicate (0xE8 - 8 * scan.sec.length) (0 : UInt8) = pad
  rw [hpad] at hclear
  have hpadlen : pad.length = 0xE8 - 8 * scan.sec.length := by rw [← hpad, List.length_replicate]
  -- the head is written, then the entries behind it
  have hhead := @DskEmit.puts_inside { e with out := (tableHeader table ++ body) ++ ((List.replicate 0x18 0 ++
    (List.replicate (8 * scan.sec.length) 0 ++ (pad ++ (List.replicate scan.data.length 0 ++ tail)))) ++ rest) } _ _ _
    (DskEmit.headWrites table.length scan) rfl fun write hwrite => by
      have hfit := headWrites_fit table.length scan write hwrite
      rw [List.length_append]
      omega
  have hjoin : (tableHeader table ++ body) ++ ((trackHead table.length scan ++ (List.replicate (8 * scan.sec.length) 0 ++
      (pad ++ (List.replicate scan.data.length 0 ++ tail)))) ++ rest) = (tableHeader table ++ body ++
        trackHead table.length scan) ++ (List.replicate (8 * scan.sec.length) 0 ++ (pad ++ (List.replicate scan.data.length 0 ++
          (tail ++ rest)))) := by
    simp only [List.append_assoc]
  rw [overwriteAll_headWrites, hpre, hjoin] at hhead
  obtain ⟨e3, hsectors, hout3, hnoted⟩ := @emitSectors_run { e with out := (tableHeader table ++ body ++
      trackHead table.length scan) ++ (List.replicate (8 * scan.sec.length) 0 ++ (pad ++ (List.replicate scan.data.length 0 ++
        (tail ++ rest)))) } table.length e.off 0 scan.sec _ _
    (by rw [List.length_append, hpre, trackHead_length]) rfl
  -- the payload stands at the end of the 256 bytes
  have hbehind : ((tableHeader table ++ body ++ trackHead table.length scan) ++ (scan.sec.flatMap sectorEntry ++ pad)).length =
      e.off + 0x100 := by
    rw [List.length_append, List.length_append, hpre, trackHead_length, List.length_append,
      sectorEntry_eight.flatMap_length, hpadlen]
    omega
  have hdata := @DskEmit.put_segment e3 ((tableHeader table ++ body ++ trackHead table.length scan) ++
      (scan.sec.flatMap sectorEntry ++ pad)) (List.replicate scan.data.length 0) (tail ++ rest) scan.data
    (by rw [hout3]; simp only [List.append_assoc]) (by rw [List.length_replicate])
  have hwhole : ((tableHeader table ++ body ++ trackHead table.length scan) ++ (scan.sec.flatMap sectorEntry ++ pad)) ++
      (scan.data ++ (tail ++ rest)) =
        tableHeader table ++ ((body ++ trackBlock sectorEntry table.length scan) ++ rest) := by
    rw [trackBlock, hpad, htail]
    simp only [List.append_assoc]
  rw [hbehind, hwhole] at hdata
  have htableput := @put_table { e3 with out := tableHeader table ++ ((body ++ trackBlock sectorEntry table.length scan) ++ rest) }
    table _ (tableByte scan) htable rfl
  have hnoted' : SectorsNoted e e3 scan.sec :=
    ⟨hnoted.off, hnoted.totalSectors, hnoted.commonBlock, hnoted.blockOf, hnoted.keeps, hnoted.uniform⟩
  refine ⟨_, ?_, hnoted'.trackNoted (tableHeader (table ++ [tableByte scan]) ++
    ((body ++ trackBlock sectorEntry table.length scan) ++ rest)), DskEmit.noteBlock_out _ _ _ _⟩
  rw [DskEmit.emitTrack]
  dsimp only
  rw [if_neg (Nat.not_lt.mpr hfits), replicate_block hcount, hpad, htail, hclear, ok_bind, hhead, ok_bind, hsectors, ok_bind, hdata, ok_bind]
  exact congrArg (· >>= _) htableput

/-- What the buffer and the state hold once the cylinders of `scans` are written. -/
structure Emitted (scp : List UInt8) (g : ScpGeom) (cap : Nat) (e : DskEmit) (scans : List TrackScan) (post : List UInt8) :
    Prop where
  out : e.out = tableHeader (scans.map tableByte) ++ (trackBlocks sectorEntry 0 scans ++ post)
  size : e.out.length = cap
  off : e.off = 0x100 + (trackBlocks sectorEntry 0 scans).length
  blockOf : e.blockOf = scans.map fun scan => blockBytesOf scan.data.length
  totalSectors : e.totalSectors = (scans.map fun scan => scan.sec.length).sum
  uniform : e.uniform = true → ∀ scan ∈ scans, e.commonBlock = blockBytesOf scan.data.length ∧
    ∀ s ∈ scan.sec, e.commonN = some s.chrn.n
  scanned : ∀ cyl scan, scans[cyl]? = some scan → scanCylinder scp g cyl = .ok scan

theorem scanCylinder_scan {scp : List UInt8} {g : ScpGeom} {cyl : Nat} {scan : TrackScan}
    (h : scanCylinder scp g cyl = .ok scan) : scan = {} ∨ ∃ bb, scan = scanTrack bb := by
  rw [scanCylinder] at h
  split at h
  · exact Or.inl (Except.ok.inj h).symm
  · cases hdecode : decodeTrack scp g (trackOffset scp g.legacy cyl) with
    | error err =>
      rw [hdecode] at h
      cases h
    | ok bb =>
      rw [hdecode] at h
      exact Or.inr ⟨bb, (Except.ok.inj h).symm⟩

theorem scanCylinder_has {P : TrackScan → Prop} (hP : CollectKeeps P) {scp : List UInt8} {g : ScpGeom} {cyl : Nat}
    {scan : TrackScan} (h : scanCylinder scp g cyl = .ok scan) : P scan := by
  rcases scanCylinder_scan h with rfl | ⟨bb, rfl⟩
  · exact hP.empty
  · exact hP.scanTrack bb

theorem Emitted.counts {scp : List UInt8} {g : ScpGeom} {cap : Nat} {e : DskEmit} {scans : List TrackScan}
    {post : List UInt8} (h : Emitted scp g cap e scans post) : ∀ scan ∈ scans, scan.sec.length ≤ kMaxSectors := by
  intro scan hscan
  obtain ⟨cyl, hcyl⟩ := List.mem_iff_getElem?.mp hscan
  exact (scanCylinder_has scanBounds_kept (h.scanned cyl scan hcyl)).count

theorem Emitted.step {scp : List UInt8} {g : ScpGeom} {cap : Nat} {e : DskEmit} {scans : List TrackScan}
    {post : List UInt8} (h : Emitted scp g cap e scans post) (hcyl : scans.length < 0xCC) {scan : TrackScan}
    (hscan : scanCylinder scp g scans.length = .ok scan) :
    e.emitTrack scans.length scan = .error .dskOverflow ∨
      ∃ e' post', e.emitTrack scans.length scan = .ok e' ∧ Emitted scp g cap e' (scans ++ [scan]) post' := by
  have hbounds := scanCylinder_has scanBounds_kept hscan
  have hlen : (scans.map tableByte).length = scans.length := List.length_map _
  by_cases hroom : e.out.length < e.off + blockBytesOf scan.data.length
  · left
    rw [DskEmit.emitTrack]
    exact if_pos hroom
  right
  have hfits := Nat.not_lt.mp hroom
  obtain ⟨e', hrun, hnoted, hout⟩ := emitTrack_eq (by rw [hlen]; exact hcyl) h.out h.off hbounds.count hfits
  rw [hlen] at hrun hnoted hout
  refine ⟨e', post.drop (blockBytesOf scan.data.length), hrun, ?_⟩
  -- The new block goes behind the others, and takes their place in what was left of the buffer.
  have hblocks : trackBlocks sectorEntry 0 (scans ++ [scan]) =
      trackBlocks sectorEntry 0 scans ++ trackBlock sectorEntry scans.length scan := by
    rw [trackBlocks_append, Nat.zero_add]
  have hblock := trackBlock_length sectorEntry_eight scans.length hbounds.count
  constructor
  · rw [hout, hblocks, List.map_append]
    rfl
  · have hold := h.size
    have hoff := h.off
    have hheader := @tableHeader_length (scans.map tableByte) (by rw [hlen]; exact Nat.le_of_lt hcyl)
    have hheader' := @tableHeader_length (scans.map tableByte ++ [tableByte scan])
      (by rw [List.length_append, hlen, List.length_singleton]; exact hcyl)
    rw [h.out, List.length_append, List.length_append, hheader] at hold hfits
    rw [hout, List.length_append, List.length_append, List.length_append, List.length_drop, hheader', hblock]
    omega
  · rw [hnoted.off, h.off, hblocks, List.length_append, hblock, Nat.add_assoc]
  · rw [hnoted.blockOf, h.blockOf, List.map_append]
    rfl
  · rw [hnoted.totalSectors, h.totalSectors, List.map_append, List.sum_append, List.map_singleton, List.sum_singleton]
  · -- Still uniform: so were the tracks before, and this one is like them.
    intro huniform t ht
    obtain ⟨hstart, hcommon, hsecs⟩ := hnoted.uniform huniform
    rcases List.mem_append.mp ht with hold | hnew
    · obtain ⟨hblockt, hsecst⟩ := h.uniform hstart t hold
      have hne : scans.length ≠ 0 := by
        intro hzero
        rw [List.length_eq_zero_iff.mp hzero] at hold
        cases hold
      exact ⟨(hnoted.commonBlock hne).trans hblockt, fun s hs => hnoted.keeps _ (hsecst s hs)⟩
    · rw [List.mem_singleton.mp hnew]
      exact ⟨hcommon, hsecs⟩
  · intro cyl t ht
    rw [List.getElem?_append] at ht
    split at ht
    · exact h.scanned cyl t ht
    · obtain ⟨hlt, rfl⟩ := List.getElem?_eq_some_iff.mp ht
      have hcase : cyl = scans.length := by
        rw [List.length_singleton] at hlt
        omega
      rw [List.getElem_singleton, hcase]
      exact hscan

/-- **All cylinders**: an error that the source has, or the blocks of all scans. -/
theorem emitTracks_run {scp : List UInt8} {g : ScpGeom} {cap count : Nat} {e : DskEmit} {scans : List TrackScan}
    {post : List UInt8} (h : Emitted scp g cap e scans post) (hcount : scans.length + count ≤ 0xCC) :
    (∃ err, emitTracks scp g count scans.length e = .error err ∧ err ≠ .outside) ∨
      ∃ e' scans' post', emitTracks scp g count scans.length e = .ok e' ∧ Emitted scp g cap e' scans' post' ∧
        scans'.length = scans.length + count := by
  induction count generalizing e scans post with
  | zero => exact Or.inr ⟨e, scans, post, rfl, h, rfl⟩
  | succ count ih =>
    rw [emitTracks]
    cases hscan : scanCylinder scp g scans.length with
    | error err => exact Or.inl ⟨.flux err, rfl, fun hne => by cases hne⟩
    | ok scan =>
      -- The cylinder overflows the image or is noted and emitted.
      rcases h.step (by omega) hscan with hfull | ⟨e', post', hrun, hnext⟩
      · left
        refine ⟨.dskOverflow, ?_, fun hne => by cases hne⟩
        exact congrArg (· >>= emitTracks scp g count (scans.length + 1)) hfull
      · have hlen : (scans ++ [scan]).length = scans.length + 1 := by rw [List.length_append, List.length_singleton]
        have hrest := ih hnext (by rw [hlen]; omega)
        rw [hlen, Nat.add_assoc, Nat.add_comm 1] at hrest
        have hstep : (Except.mapError ToDskError.flux (Except.ok scan) >>= fun scan => do
            let e ← e.emitTrack scans.length scan
            emitTracks scp g count (scans.length + 1) e) = emitTracks scp g count (scans.length + 1) e' :=
          congrArg (· >>= emitTracks scp g count (scans.length + 1)) hrun
        rw [hstep]
        exact hrest

/-! ## The disc header -/

/-- The first 256 bytes of an image. -/
def discHeader (text : List UInt8) (cyls sides lo hi : UInt8) (table : List UInt8) : List UInt8 :=
  (text ++ creatorText) ++ ([cyls, sides, lo, hi] ++ (table ++ List.replicate (0xCC - table.length) 0))

theorem discHeader_length {text table : List UInt8} (htext : text.length = 0x22) (htable : table.length ≤ 0xCC)
    (cyls sides lo hi : UInt8) : (discHeader text cyls sides lo hi table).length = 0x100 := by
  simp only [discHeader, List.length_append, htext, creatorText, List.length_cons, List.length_nil, List.length_replicate]
  omega

theorem overwriteAll_extended (table : List UInt8) :
    overwriteAll (tableHeader table) [(0, extendedText), (0x22, creatorText)] = discHeader extendedText 0 0 0 0 table := by
  have hfit : WritesFit (List.replicate 0x34 (0 : UInt8)).length [(0, extendedText), (0x22, creatorText)] := by
    simp [WritesFit, extendedText, extendedMagic, creatorText]
  rw [tableHeader, overwriteAll_append hfit]
  simp [overwriteAll, overwrite, extendedText, extendedMagic, creatorText, List.replicate, discHeader]

theorem overwriteAll_standard (lo hi : UInt8) (table : List UInt8) :
    overwriteAll (tableHeader table) [(0, standardText), (0x22, creatorText), (0x32, [lo]), (0x33, [hi]),
      (0x34, List.replicate table.length 0)] = discHeader standardText 0 0 lo hi (List.replicate table.length 0) := by
  have hfit : WritesFit (List.replicate 0x34 (0 : UInt8)).length [(0, standardText), (0x22, creatorText), (0x32, [lo]),
      (0x33, [hi])] := by
    simp [WritesFit, standardText, standardMagic, creatorText]
  have hhead : overwriteAll (List.replicate 0x34 0) [(0, standardText), (0x22, creatorText), (0x32, [lo]), (0x33, [hi])] =
      (standardText ++ creatorText) ++ [0, 0, lo, hi] := by
    simp [overwriteAll, overwrite, standardText, standardMagic, creatorText, List.replicate]
  have htable := @overwrite_segment table (List.replicate table.length 0) ((standardText ++ creatorText) ++ [0, 0, lo, hi])
    (List.replicate (0xCC - table.length) 0) List.length_replicate
  calc
    overwriteAll (tableHeader table) [(0, standardText), (0x22, creatorText), (0x32, [lo]), (0x33, [hi]),
        (0x34, List.replicate table.length 0)]
      = overwrite (overwriteAll (tableHeader table) [(0, standardText), (0x22, creatorText), (0x32, [lo]), (0x33, [hi])])
          0x34 (List.replicate table.length 0) := rfl
    _ = overwrite (((standardText ++ creatorText) ++ [0, 0, lo, hi]) ++ (table ++ List.replicate (0xCC - table.length) 0))
          0x34 (List.replicate table.length 0) := by rw [tableHeader, overwriteAll_append hfit, hhead]
    _ = ((standardText ++ creatorText) ++ [0, 0, lo, hi]) ++
          (List.replicate table.length 0 ++ List.replicate (0xCC - table.length) 0) := htable
    _ = discHeader standardText 0 0 lo hi (List.replicate table.length 0) := by
      rw [discHeader, List.length_replicate, List.append_assoc]

theorem overwriteAll_counts {text table : List UInt8} (htext : text.length = 0x22) (cyls lo hi : UInt8) :
    overwriteAll (discHeader text 0 0 lo hi table) [(0x30, [cyls]), (0x31, [1])] = discHeader text cyls 1 lo hi table := by
  have hpre : (text ++ creatorText).length = 0x30 := by rw [List.length_append, htext]; rfl
  have hfirst := @overwrite_prepend ([0, 0, lo, hi] ++ (table ++ List.replicate (0xCC - table.length) 0)) [cyls] 0
    (text ++ creatorText)
  have hsecond := @overwrite_prepend ([cyls, 0, lo, hi] ++ (table ++ List.replicate (0xCC - table.length) 0)) [1] 1
    (text ++ creatorText)
  rw [hpre] at hfirst hsecond
  calc
    overwriteAll (discHeader text 0 0 lo hi table) [(0x30, [cyls]), (0x31, [1])]
      = overwrite (overwrite (discHeader text 0 0 lo hi table) 0x30 [cyls]) 0x31 [1] := rfl
    _ = overwrite (discHeader text cyls 0 lo hi table) 0x31 [1] := congrArg (overwrite · 0x31 [1]) hfirst
    _ = discHeader text cyls 1 lo hi table := hsecond

/-- The entry of a standard image. -/
def standardEntry (s : SecRec) : List UInt8 := [s.chrn.c, s.chrn.h, s.chrn.r, s.chrn.n, s.st1, s.st2, 0, 0]

theorem standardEntry_eight : EightBytes standardEntry := fun _ => rfl

theorem clearSizes_run {e : DskEmit} {th i : Nat} {secs : List SecRec} {pre post : List UInt8}
    (hpre : pre.length = th + (0x18 + 8 * i)) (hout : e.out = pre ++ (secs.flatMap sectorEntry ++ post)) :
    e.clearSizes th secs.length i = .ok { e with out := pre ++ (secs.flatMap standardEntry ++ post) } := by
  induction secs generalizing e i pre with
  | nil => exact congrArg (fun out => Except.ok { e with out }) hout
  | cons s secs ih =>
    have hsplit : e.out = pre ++ (sectorEntry s ++ (secs.flatMap sectorEntry ++ post)) := by
      rw [hout, List.flatMap_cons, List.append_assoc]
    have hfit : WritesFit (sectorEntry s).length [(7, [0]), (6, [0])] := by simp [WritesFit, sectorEntry]
    have hclear : overwriteAll (sectorEntry s) [(7, [0]), (6, [0])] = standardEntry s := by
      simp [overwriteAll, overwrite, sectorEntry, standardEntry]
    have hputs := DskEmit.puts_inside hsplit hfit
    rw [hclear, hpre, ← List.append_assoc] at hputs
    have hnext : (pre ++ standardEntry s).length = th + (0x18 + 8 * (i + 1)) := by
      rw [List.length_append, hpre, standardEntry_eight s]
      omega
    have hrest := @ih { e with out := pre ++ standardEntry s ++ (secs.flatMap sectorEntry ++ post) } (i + 1) _ hnext rfl
    rw [List.length_cons, DskEmit.clearSizes, hputs, ok_bind, hrest, List.flatMap_cons]
    simp only [List.append_assoc]

theorem byteAt_count {pre post : List UInt8} {entry : SecRec → List UInt8} (cyl : Nat) {scan : TrackScan}
    (hcount : scan.sec.length ≤ kMaxSectors) :
    (byteAt (pre ++ (trackBlock entry cyl scan ++ post)) (pre.length + 0x15)).toNat = scan.sec.length := by
  have hbyte : byteAt (pre ++ (trackBlock entry cyl scan ++ post)) (pre.length + 0x15) = UInt8.ofNat scan.sec.length := by
    rw [trackBlock, List.append_assoc, byteAt_inside pre _ (by rw [trackHead_length]; decide)]
    rfl
  have hmax : kMaxSectors = 29 := rfl
  rw [hbyte, UInt8.toNat_ofNat', Nat.mod_eq_of_lt (by omega)]

theorem clearAllSizes_run {e : DskEmit} {cyl : Nat} {scans : List TrackScan} {pre post : List UInt8}
    (hcounts : ∀ scan ∈ scans, scan.sec.length ≤ kMaxSectors) (hout : e.out = pre ++ (trackBlocks sectorEntry cyl scans ++ post)) :
    e.clearAllSizes pre.length (scans.map fun scan => blockBytesOf scan.data.length) =
      .ok { e with out := pre ++ (trackBlocks standardEntry cyl scans ++ post) } := by
  induction scans generalizing e cyl pre with
  | nil => exact congrArg (fun out => Except.ok { e with out }) hout
  | cons scan scans ih =>
    have hcount := hcounts scan List.mem_cons_self
    have hbyte := @byteAt_count pre (trackBlocks sectorEntry (cyl + 1) scans ++ post) sectorEntry cyl scan hcount
    have hsplit : e.out = pre ++ (trackBlock sectorEntry cyl scan ++ (trackBlocks sectorEntry (cyl + 1) scans ++ post)) := by
      rw [hout, trackBlocks, List.append_assoc]
    have hentries : e.out = (pre ++ trackHead cyl scan) ++ (scan.sec.flatMap sectorEntry ++
        ((List.replicate (0xE8 - 8 * scan.sec.length) 0 ++ (scan.data ++
          List.replicate (blockBytesOf scan.data.length - 0x100 - scan.data.length) 0)) ++
            (trackBlocks sectorEntry (cyl + 1) scans ++ post))) := by
      rw [hsplit, trackBlock]
      simp only [List.append_assoc]
    -- The loop over the entries of this track turns each into one of a standard image.
    have hclear := @clearSizes_run e pre.length 0 scan.sec _ _ (by rw [List.length_append, trackHead_length]) hentries
    have hjoin : (pre ++ trackHead cyl scan) ++ (scan.sec.flatMap standardEntry ++
        ((List.replicate (0xE8 - 8 * scan.sec.length) 0 ++ (scan.data ++
          List.replicate (blockBytesOf scan.data.length - 0x100 - scan.data.length) 0)) ++
            (trackBlocks sectorEntry (cyl + 1) scans ++ post))) =
        (pre ++ trackBlock standardEntry cyl scan) ++ (trackBlocks sectorEntry (cyl + 1) scans ++ post) := by
      rw [trackBlock]
      simp only [List.append_assoc]
    rw [hjoin] at hclear
    have hnext : (pre ++ trackBlock standardEntry cyl scan).length = pre.length + blockBytesOf scan.data.length := by
      rw [List.length_append, trackBlock_length standardEntry_eight cyl hcount]
    have hrest := @ih { e with out := (pre ++ trackBlock standardEntry cyl scan) ++
      (trackBlocks sectorEntry (cyl + 1) scans ++ post) } (cyl + 1) (pre ++ trackBlock standardEntry cyl scan)
      (fun t ht => hcounts t (List.mem_cons_of_mem _ ht)) rfl
    rw [hnext] at hrest
    rw [List.map_cons, DskEmit.clearAllSizes, hsplit, hbyte, hclear, ok_bind, hrest, trackBlocks]
    simp only [List.append_assoc]

/-! ## The finished image -/

/-- The image that is left in the buffer: a standard one where everything is alike, else an extended one. -/
def finishedImage (extended : Bool) (commonBlock : Nat) (scans : List TrackScan) : List UInt8 :=
  if extended then
    discHeader extendedText (UInt8.ofNat scans.length) 1 0 0 (scans.map tableByte) ++ trackBlocks sectorEntry 0 scans
  else
    discHeader standardText (UInt8.ofNat scans.length) 1 (UInt8.ofNat (commonBlock &&& 0xFF)) (UInt8.ofNat (commonBlock >>> 8))
      (List.replicate scans.length 0) ++ trackBlocks standardEntry 0 scans

/-- All blocks and all sector sizes agree. -/
def AllAlike (commonBlock : Nat) (scans : List TrackScan) : Prop :=
  ∃ commonN : Option UInt8, ∀ scan ∈ scans, commonBlock = blockBytesOf scan.data.length ∧
    ∀ s ∈ scan.sec, commonN = some s.chrn.n

theorem put_counts {e : DskEmit} {text table body : List UInt8} {cyls lo hi : UInt8} (htext : text.length = 0x22)
    (htable : table.length ≤ 0xCC) (hout : e.out = discHeader text 0 0 lo hi table ++ body) :
    e.puts 0 [(0x30, [cyls]), (0x31, [1])] = .ok { e with out := discHeader text cyls 1 lo hi table ++ body } := by
  have hfit : WritesFit (discHeader text 0 0 lo hi table).length [(0x30, [cyls]), (0x31, [1])] := by
    rw [discHeader_length htext htable]
    simp [WritesFit]
  rw [DskEmit.puts_front hout hfit, overwriteAll_counts htext]

theorem emitHeader_extended {e : DskEmit} {scans : List TrackScan} {post : List UInt8} (hcount : scans.length ≤ 0xCC)
    (hout : e.out = tableHeader (scans.map tableByte) ++ (trackBlocks sectorEntry 0 scans ++ post))
    (huniform : e.uniform = false) :
    (do
        let e ← e.emitHeader scans.length
        e.puts 0 [(0x30, [UInt8.ofNat scans.length]), (0x31, [1])]) =
      .ok { e with out := finishedImage true e.commonBlock scans ++ post } := by
  have htable : (scans.map tableByte).length ≤ 0xCC := by rw [List.length_map]; exact hcount
  have hfit : WritesFit (tableHeader (scans.map tableByte)).length [(0, extendedText), (0x22, creatorText)] := by
    rw [tableHeader_length htable]
    simp [WritesFit, extendedText, extendedMagic, creatorText]
  have htext := DskEmit.puts_front hout hfit
  rw [overwriteAll_extended] at htext
  have hput := @put_counts { e with out := discHeader extendedText 0 0 0 0 (scans.map tableByte) ++
    (trackBlocks sectorEntry 0 scans ++ post) } extendedText _ _ (UInt8.ofNat scans.length) 0 0 rfl htable rfl
  have himage : finishedImage true e.commonBlock scans ++ post = discHeader extendedText (UInt8.ofNat scans.length) 1 0 0
      (scans.map tableByte) ++ (trackBlocks sectorEntry 0 scans ++ post) := by
    rw [finishedImage, if_pos rfl, List.append_assoc]
  rw [DskEmit.emitHeader, if_neg (by rw [huniform]; decide), himage, htext, ok_bind, hput]

theorem emitHeader_standard {e : DskEmit} {scans : List TrackScan} {post : List UInt8} (hcount : scans.length ≤ 0xCC)
    (hout : e.out = tableHeader (scans.map tableByte) ++ (trackBlocks sectorEntry 0 scans ++ post))
    (hblocks : e.blockOf = scans.map fun scan => blockBytesOf scan.data.length)
    (hcounts : ∀ scan ∈ scans, scan.sec.length ≤ kMaxSectors) (huniform : e.uniform = true) :
    (do
        let e ← e.emitHeader scans.length
        e.puts 0 [(0x30, [UInt8.ofNat scans.length]), (0x31, [1])]) =
      .ok { e with out := finishedImage false e.commonBlock scans ++ post } := by
  have htable : (scans.map tableByte).length ≤ 0xCC := by rw [List.length_map]; exact hcount
  have hzeros : (List.replicate scans.length (0 : UInt8)).length ≤ 0xCC := by rw [List.length_replicate]; exact hcount
  -- The writes stay in the header, and go over the sizes of an extended image.
  have hfit : WritesFit (tableHeader (scans.map tableByte)).length [(0, standardText), (0x22, creatorText),
      (0x32, [UInt8.ofNat (e.commonBlock &&& 0xFF)]), (0x33, [UInt8.ofNat (e.commonBlock >>> 8)]),
      (0x34, List.replicate scans.length 0)] := by
    rw [tableHeader_length htable]
    simp [WritesFit, standardText, standardMagic, creatorText]
    omega
  have htext := DskEmit.puts_front hout hfit
  have hover := overwriteAll_standard (UInt8.ofNat (e.commonBlock &&& 0xFF)) (UInt8.ofNat (e.commonBlock >>> 8))
    (scans.map tableByte)
  rw [List.length_map] at hover
  rw [hover] at htext
  generalize hlo : UInt8.ofNat (e.commonBlock &&& 0xFF) = lo at htext
  generalize hhi : UInt8.ofNat (e.commonBlock >>> 8) = hi at htext
  -- Then the stored sizes of the sectors are cleared, track by track.
  have hclear := @clearAllSizes_run { e with out := discHeader standardText 0 0 lo hi (List.replicate scans.length 0) ++
    (trackBlocks sectorEntry 0 scans ++ post) } 0 scans _ _ hcounts rfl
  rw [discHeader_length rfl hzeros] at hclear
  -- And the counts of the tracks and the sides are put in last.
  have hput := @put_counts { e with out := discHeader standardText 0 0 lo hi (List.replicate scans.length 0) ++
    (trackBlocks standardEntry 0 scans ++ post) } standardText _ _ (UInt8.ofNat scans.length) lo hi rfl hzeros rfl
  have himage : finishedImage false e.commonBlock scans ++ post = discHeader standardText (UInt8.ofNat scans.length) 1 lo hi
      (List.replicate scans.length 0) ++ (trackBlocks standardEntry 0 scans ++ post) := by
    rw [finishedImage, if_neg (by decide), hlo, hhi, List.append_assoc]
  rw [DskEmit.emitHeader, if_pos huniform, hlo, hhi, himage]
  have hrun : (do
      let e ← e.puts 0 [(0, standardText), (0x22, creatorText), (0x32, [lo]), (0x33, [hi]), (0x34, List.replicate scans.length 0)]
      e.clearAllSizes 0x100 e.blockOf) =
        .ok { e with out := discHeader standardText 0 0 lo hi (List.replicate scans.length 0) ++
          (trackBlocks standardEntry 0 scans ++ post) } := by
    rw [htext, ok_bind]
    exact (congrArg (DskEmit.clearAllSizes _ 0x100) hblocks).trans hclear
  rw [hrun, ok_bind, hput]

theorem fluxScpToDsk_geometry {scp out : List UInt8} {g : ScpGeom} (hgeom : scpGeometry scp = .ok g) :
    fluxScpToDsk scp out =
      if out.length < 0x100 then throw .dskOverflow
      else do
        let e ← DskEmit.put { out } 0 (List.replicate 0x100 0)
        let e ← emitTracks scp g g.cyls 0 e
        if e.totalSectors = 0 then throw .noSectors
        else
          let e ← e.emitHeader g.cyls
          let e ← e.puts 0 [(0x30, [UInt8.ofNat g.cyls]), (0x31, [1])]
          return (e.off, e.out, e.weak) := by
  rw [fluxScpToDsk, hgeom]
  rfl

theorem Emitted.finished {scp : List UInt8} {g : ScpGeom} {cap : Nat} {e : DskEmit} {scans : List TrackScan}
    {post : List UInt8} (h : Emitted scp g cap e scans post) (hcount : scans.length ≤ 0xCC) :
    ∃ extended, (do
        let e ← e.emitHeader scans.length
        e.puts 0 [(0x30, [UInt8.ofNat scans.length]), (0x31, [1])]) =
      .ok { e with out := finishedImage extended e.commonBlock scans ++ post } ∧
      (extended = false → AllAlike e.commonBlock scans) := by
  rcases Bool.eq_false_or_eq_true e.uniform with huniform | huniform
  · exact ⟨false, emitHeader_standard hcount h.out h.blockOf h.counts huniform, fun _ => ⟨e.commonN, h.uniform huniform⟩⟩
  · refine ⟨true, emitHeader_extended hcount h.out huniform, ?_⟩
    intro hne
    cases hne

theorem finishedImage_length (extended : Bool) (commonBlock : Nat) {scans : List TrackScan} (hcount : scans.length ≤ 0xCC)
    (hcounts : ∀ scan ∈ scans, scan.sec.length ≤ kMaxSectors) :
    (finishedImage extended commonBlock scans).length = 0x100 + (trackBlocks sectorEntry 0 scans).length := by
  rw [finishedImage]
  split
  · rw [List.length_append, discHeader_length rfl (by rw [List.length_map]; exact hcount)]
  · rw [List.length_append, discHeader_length rfl (by rw [List.length_replicate]; exact hcount),
      trackBlocks_length standardEntry_eight 0 hcounts, trackBlocks_length sectorEntry_eight 0 hcounts]

theorem Emitted.start (scp : List UInt8) (g : ScpGeom) {out : List UInt8} (hlong : 0x100 ≤ out.length) :
    DskEmit.put { out } 0 (List.replicate 0x100 0) = .ok { out := tableHeader [] ++ out.drop 0x100 } ∧
      Emitted scp g out.length { out := tableHeader [] ++ out.drop 0x100 } [] (out.drop 0x100) := by
  constructor
  · exact @DskEmit.put_segment { out } [] (out.take 0x100) (out.drop 0x100) (List.replicate 0x100 0)
      (List.take_append_drop _ _).symm (by rw [List.length_replicate, List.length_take, Nat.min_eq_left hlong])
  constructor
  · rfl
  · rw [List.length_append, tableHeader_length (Nat.zero_le _), List.length_drop]
    omega
  · rfl
  · rfl
  · rfl
  · intro _ scan hscan
    cases hscan
  · intro cyl scan hscan
    cases hscan

/-- **What `flux_scp_to_dsk` does**: an error that the source has, or an image of the scans, the rest of the buffer behind
    it. No write misses the buffer. -/
theorem fluxScpToDsk_cases (scp out : List UInt8) :
    (∃ err, fluxScpToDsk scp out = .error err ∧ err ≠ .outside) ∨
      ∃ g extended commonBlock scans post weak, scpGeometry scp = .ok g ∧
        fluxScpToDsk scp out = .ok ((finishedImage extended commonBlock scans).length,
          finishedImage extended commonBlock scans ++ post, weak) ∧
        (finishedImage extended commonBlock scans ++ post).length = out.length ∧ scans.length = g.cyls ∧
        (∀ cyl scan, scans[cyl]? = some scan → scanCylinder scp g cyl = .ok scan) ∧
        (extended = false → AllAlike commonBlock scans) := by
  cases hgeom : scpGeometry scp with
  | error err =>
    left
    refine ⟨.flux err, ?_, fun hne => by cases hne⟩
    rw [fluxScpToDsk, hgeom]
    rfl
  | ok g =>
    rw [fluxScpToDsk_geometry hgeom]
    by_cases hshort : out.length < 0x100
    · left
      refine ⟨.dskOverflow, ?_, fun hne => by cases hne⟩
      rw [if_pos hshort]
      rfl
    rw [if_neg hshort]
    have hlong := Nat.not_lt.mp hshort
    -- The table of the header has room for every cylinder.
    have hcyls : g.cyls ≤ 0xCC := by
      obtain ⟨-, -, -, -, -, rfl⟩ := scpGeometry_ok hgeom
      exact Nat.le_trans (presentCyls_le scp _) (by decide)
    obtain ⟨hclear, hstart⟩ := Emitted.start scp g hlong
    rw [hclear, ok_bind]
    have hall : ([] : List TrackScan).length + g.cyls ≤ 0xCC := by
      rw [List.length_nil, Nat.zero_add]
      exact hcyls
    -- The loop over the cylinders, from an image that holds the cleared header.
    rcases emitTracks_run hstart hall with
      ⟨err, hrun, hne⟩ | ⟨e, scans, post, hrun, hemitted, hlen⟩
    · left
      refine ⟨err, ?_, hne⟩
      rw [List.length_nil] at hrun
      rw [hrun]
      rfl
    rw [List.length_nil] at hrun hlen
    rw [Nat.zero_add] at hlen
    rw [hrun, ok_bind]
    by_cases hempty : e.totalSectors = 0
    · left
      refine ⟨.noSectors, ?_, fun hne => by cases hne⟩
      rw [if_pos hempty]
      rfl
    right
    rw [if_neg hempty]
    have hcount : scans.length ≤ 0xCC := by rw [hlen]; exact hcyls
    obtain ⟨extended, hfinish, halike⟩ := hemitted.finished hcount
    refine ⟨g, extended, e.commonBlock, scans, post, e.weak, rfl, ?_, ?_, hlen, hemitted.scanned, halike⟩
    · -- The size that is returned is the offset behind the last track block.
      have hoff : (finishedImage extended e.commonBlock scans).length = e.off := by
        rw [finishedImage_length extended _ hcount hemitted.counts, hemitted.off]
      rw [hlen] at hfinish
      cases hhead : e.emitHeader g.cyls with
      | error err =>
        rw [hhead] at hfinish
        cases hfinish
      | ok e1 =>
        rw [hhead, ok_bind] at hfinish
        rw [ok_bind, hfinish, hoff]
        rfl
    · have hsize := hemitted.size
      have hheader := @tableHeader_length (scans.map tableByte) (by rw [List.length_map]; exact hcount)
      rw [hemitted.out, List.length_append, List.length_append, hheader] at hsize
      rw [List.length_append, finishedImage_length extended _ hcount hemitted.counts, Nat.add_assoc]
      exact hsize

/-! ## When it succeeds -/

theorem emitTracks_fits {scp : List UInt8} {g : ScpGeom} {cap : Nat} {e : DskEmit} {scans more : List TrackScan}
    {post : List UInt8} (h : Emitted scp g cap e scans post) (hcount : scans.length + more.length ≤ 0xCC)
    (hmore : ∀ j scan, more[j]? = some scan → scanCylinder scp g (scans.length + j) = .ok scan)
    (hroom : e.off + (more.map fun scan => blockBytesOf scan.data.length).sum ≤ cap) :
    ∃ e' post', emitTracks scp g more.length scans.length e = .ok e' ∧ Emitted scp g cap e' (scans ++ more) post' := by
  induction more generalizing e scans post with
  | nil =>
    refine ⟨e, post, rfl, ?_⟩
    rw [List.append_nil]
    exact h
  | cons scan more ih =>
    have hscan : scanCylinder scp g scans.length = .ok scan := hmore 0 scan rfl
    rw [List.map_cons, List.sum_cons] at hroom
    rw [List.length_cons] at hcount
    rcases h.step (by omega) hscan with hfull | ⟨e', post', hrun, hnext⟩
    · -- the block has room, so this is not the overflow
      obtain ⟨e', hrun, -⟩ := emitTrack_eq (by rw [List.length_map]; omega) h.out h.off
        (scanCylinder_has scanBounds_kept hscan).count (by rw [h.size]; omega)
      rw [List.length_map, hfull] at hrun
      cases hrun
    · have hlen : (scans ++ [scan]).length = scans.length + 1 := by rw [List.length_append, List.length_singleton]
      have hoff : e'.off = e.off + blockBytesOf scan.data.length := by
        have hblock := trackBlock_length sectorEntry_eight scans.length (scanCylinder_has scanBounds_kept hscan).count
        rw [hnext.off, h.off, trackBlocks_append, List.length_append, Nat.zero_add, hblock, Nat.add_assoc]
      obtain ⟨e'', post'', hrest, hend⟩ := ih hnext (by rw [hlen]; omega)
        (fun j t hj => by rw [hlen, Nat.add_assoc, Nat.add_comm 1]; exact hmore (j + 1) t hj) (by rw [hoff]; omega)
      refine ⟨e'', post'', ?_, ?_⟩
      · rw [hlen] at hrest
        rw [List.length_cons, emitTracks, hscan]
        exact (congrArg (· >>= emitTracks scp g more.length (scans.length + 1)) hrun).trans hrest
      · rw [List.append_assoc] at hend
        exact hend

end Koncepcja.Disk
