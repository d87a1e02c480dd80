import Mathlib.Data.List.Forall2
import Koncepcja.Lib.BitPacker
import Koncepcja.Tape.BlockSizes

/-!
# Imported Voice Files

`src/voc_import.cpp`: a Creative Voice File becomes a tape of direct recordings, one for each run of sound, and pauses,
one for each silence, behind a pause for the firmware to settle.

A pause is counted in whole milliseconds, from one to 65535 of them. The count of the samples of a run wraps in 32 bits.

## Main results

- `flush_plays`: a run is recorded as it sounds.
- `importBlocks_plays`: what the loop over the blocks leaves behind.
- `vocToTzx_plays`: the tape plays what the file sounds like.
-/

namespace Koncepcja.Tape

open Koncepcja.Bits Koncepcja.Bytes

/-! ## The importer -/

def kLevelThreshold : UInt8 := 0x80
def kZ80Hz : Nat := 3500000
def kLeaderPauseMs : Nat := 2000
def kDirectDataMax : Nat := 0x00FFFFFF

def rdU24 (p : List UInt8) : Nat := rd16le p 0 + 65536 * (byteAt p 2).toNat

def putPause (v : List UInt8) (ms : Nat) : List UInt8 := v ++ [0x20] ++ le16 ms

structure DirectRun extends Packer where
  nsamples : Nat := 0

namespace DirectRun

def add (run : DirectRun) (sample : UInt8) : DirectRun :=
  { toPacker := run.toPacker.add (decide (kLevelThreshold < sample)), nsamples := (run.nsamples + 1) % 2 ^ 32 }

/-- The block is written, and the run starts anew. Nothing is written of a run that is too long. -/
def flush (run : DirectRun) (out : List UInt8) (tstatesPerSample : Nat) : Option (List UInt8 × DirectRun) :=
  if run.nsamples = 0 then some (out, run)
  else
    let packed := run.toPacker.finish
    if kDirectDataMax < packed.length then none
    else
      let used := if run.nsamples % 8 ≠ 0 then run.nsamples % 8 else 8
      some (out ++ [0x15] ++ le16 tstatesPerSample ++ le16 0 ++ [UInt8.ofNat used] ++ le24 packed.length ++ packed, {})

end DirectRun

/-- What `voc_to_tzx` carries from block to block; `rate` is none until there is one. -/
structure VocState where
  out : List UInt8
  rate : Option UInt8 := none
  sampleHz : Nat := 0
  tstates : Nat := 0
  run : DirectRun := {}

/-- The samples of a second. -/
def hzOf (rate : UInt8) : Nat := 1000000 / (256 - rate.toNat)

def setRate (r : UInt8) (s : VocState) : Option VocState :=
  match s.rate with
  | some rate => if r ≠ rate then none else some s
  | none => some { s with rate := some r, sampleHz := hzOf r, tstates := kZ80Hz / hzOf r }

/-- The milliseconds of a silence. -/
def silenceMs (samples hz : Nat) : Nat :=
  let ms := min (samples * 1000 / hz) 0xFFFF
  if ms = 0 then 1 else ms -- a pause of none stops the tape

/-- One block of the file. -/
def importBlock (type : UInt8) (body : List UInt8) (s : VocState) : Option VocState :=
  if type = 0x01 then
    if body.length < 2 then none
    else if byteAt body 1 ≠ 0 then none
    else (setRate (byteAt body 0) s).map fun s => { s with run := (body.drop 2).foldl DirectRun.add s.run }
  else if type = 0x02 then
    if s.rate = none then none else some { s with run := body.foldl DirectRun.add s.run }
  else if type = 0x03 then
    if body.length < 3 then none
    else
      (setRate (byteAt body 2) s).bind fun s =>
        (s.run.flush s.out s.tstates).map fun (out, run) =>
          { s with out := putPause out (silenceMs (rd16le body 0 + 1) s.sampleHz), run }
  else if type = 0x04 ∨ type = 0x05 then some s
  else none

/-- The loop over the blocks. -/
def importBlocks : List UInt8 → VocState → Option VocState
  | [], s => some s
  | type :: rest, s =>
    if type = 0x00 then some s
    else if rest.length < 3 then none
    else if (rest.drop 3).length < rdU24 rest then none
    else
      match importBlock type ((rest.drop 3).take (rdU24 rest)) s with
      | none => none
      | some s => importBlocks ((rest.drop 3).drop (rdU24 rest)) s
termination_by rest => rest.length
decreasing_by simp only [List.length_drop, List.length_cons] at *; omega

/-- `Creative Voice File\x1a`. -/
def vocMagic : List UInt8 :=
  [0x43, 0x72, 0x65, 0x61, 0x74, 0x69, 0x76, 0x65, 0x20, 0x56, 0x6F, 0x69, 0x63, 0x65, 0x20, 0x46, 0x69, 0x6C, 0x65, 0x1A]

/-- `voc_to_tzx`. A file that is not accepted gives none. -/
def vocToTzx (data : List UInt8) : Option (List UInt8) :=
  if data.length < 26 ∨ data.take 20 ≠ vocMagic then none
  else
    let off := rd16le data 0x14
    if off < 26 ∨ data.length < off then none
    else
      match importBlocks (data.drop off) { out := putPause (tapeHeader 1 20) kLeaderPauseMs } with
      | none => none
      | some s => (s.run.flush s.out s.tstates).map Prod.fst

/-! ## What a file sounds like -/

/-- A block of a voice file. -/
@[ext]
structure VocBlock where
  type : UInt8
  body : List UInt8

/-- The blocks that the data stand for. They end at a terminator, or with the data. -/
inductive Blocks : List UInt8 → List VocBlock → Prop
  | done : Blocks [] []
  | terminator (rest : List UInt8) : Blocks (0x00 :: rest) []
  | block {b : VocBlock} {rest : List UInt8} {blocks : List VocBlock} (htype : b.type ≠ 0x00)
      (hsize : b.body.length < 2 ^ 24) (h : Blocks rest blocks) :
      Blocks (b.type :: (le24 b.body.length ++ (b.body ++ rest))) (b :: blocks)

/-- A run of samples, or as many samples of silence at a rate. -/
inductive VocItem where
  | sound (samples : List UInt8)
  | silence (samples : Nat) (rate : UInt8)

/-- A run of sound, if there is any. -/
def soundItems (samples : List UInt8) : List VocItem := if samples = [] then [] else [.sound samples]

/-- The runs and silences of a file, the run that is going on first. Only a silence ends a run. -/
def vocItems : List UInt8 → List VocBlock → List VocItem
  | pending, [] => soundItems pending
  | pending, b :: blocks =>
    if b.type = 0x01 then vocItems (pending ++ b.body.drop 2) blocks
    else if b.type = 0x02 then vocItems (pending ++ b.body) blocks
    else if b.type = 0x03 then
      soundItems pending ++ .silence (rd16le b.body 0 + 1) (byteAt b.body 2) :: vocItems [] blocks
    else vocItems pending blocks

/-- The level of the line at a sample. -/
def levels (samples : List UInt8) : List Bool := samples.map fun sample => decide (kLevelThreshold < sample)

/-- A tape block plays a run at its levels, and a silence for its milliseconds. -/
inductive PlaysItem : Block → VocItem → Prop
  | sound {ts : UInt16} {used : UInt8} {data : Payload 24} {samples : List UInt8}
      (h : dataBits data.bytes used.toNat = levels samples) : PlaysItem (.direct ts 0 used data) (.sound samples)
  | silence {ms : UInt16} {samples : Nat} {rate : UInt8} (h : ms.toNat = silenceMs samples (hzOf rate)) :
      PlaysItem (.pause ms) (.silence samples rate)

/-! ## Fields -/

theorem le16_ofNat (n : Nat) : le16 (UInt16.ofNat n).toNat = le16 n := by
  have hlo : UInt8.ofNat (n % 65536) = UInt8.ofNat n := UInt8.toNat_inj.mp (by
    rw [UInt8.toNat_ofNat', UInt8.toNat_ofNat']
    omega)
  have hhi : UInt8.ofNat (n % 65536 / 256) = UInt8.ofNat (n / 256) := UInt8.toNat_inj.mp (by
    rw [UInt8.toNat_ofNat', UInt8.toNat_ofNat']
    omega)
  rw [le16_eq, le16_eq, UInt16.toNat_ofNat', hlo, hhi]

theorem le24_rdU24 {p : List UInt8} (h : 3 ≤ p.length) : le24 (rdU24 p) = p.take 3 := by
  match p, h with
  | a :: b :: c :: p, _ =>
    have ha := a.toNat_lt
    have hb := b.toNat_lt
    have hc := c.toNat_lt
    have hvalue : rdU24 (a :: b :: c :: p) = a.toNat + 256 * b.toNat + 65536 * c.toNat := rfl
    have hlo : UInt8.ofNat (rdU24 (a :: b :: c :: p)) = a := UInt8.toNat_inj.mp (by
      rw [UInt8.toNat_ofNat', hvalue]
      omega)
    have hmid : UInt8.ofNat (rdU24 (a :: b :: c :: p) / 256) = b := UInt8.toNat_inj.mp (by
      rw [UInt8.toNat_ofNat', hvalue]
      omega)
    have hhi : UInt8.ofNat (rdU24 (a :: b :: c :: p) / 256 / 256) = c := UInt8.toNat_inj.mp (by
      rw [UInt8.toNat_ofNat', hvalue]
      omega)
    rw [le24_eq, hlo, hmid, hhi]
    rfl

theorem rdU24_lt (p : List UInt8) : rdU24 p < 2 ^ 24 := by
  have hlo := rd16le_lt p 0
  have hhi := (byteAt p 2).toNat_lt
  rw [rdU24]
  omega

theorem silenceMs_bounds (samples hz : Nat) : 1 ≤ silenceMs samples hz ∧ silenceMs samples hz < 65536 := by
  rw [silenceMs]
  generalize samples * 1000 / hz = ms
  split <;> omega

theorem levels_length (samples : List UInt8) : (levels samples).length = samples.length := List.length_map _

/-! ## One block -/

/-- What the importer has done when a run is going on: the blocks behind the leading pause play the items before it. -/
structure Imported (pending : List UInt8) (tape : List Block) (items : List VocItem) (s : VocState) : Prop where
  out : s.out = encodeTape 1 20 (.pause (UInt16.ofNat kLeaderPauseMs) :: tape)
  plays : List.Forall₂ PlaysItem tape items
  packs : Packs (levels pending) s.run.toPacker
  nsamples : s.run.nsamples = pending.length
  hz : ∀ r, s.rate = some r → s.sampleHz = hzOf r

section Block

variable {pending samples body : List UInt8} {tape : List Block} {items : List VocItem} {s s' : VocState} {r type : UInt8}

theorem Imported.add (h : Imported pending tape items s) (hlen : pending.length + samples.length < 2 ^ 32) :
    Imported (pending ++ samples) tape items { s with run := samples.foldl DirectRun.add s.run } := by
  induction samples generalizing pending s with
  | nil => rwa [List.append_nil]
  | cons sample samples ih =>
    rw [List.length_cons] at hlen
    have hone : Imported (pending ++ [sample]) tape items { s with run := s.run.add sample } :=
      { h with
        packs := by
          rw [levels, List.map_append]
          exact h.packs.add _
        nsamples := by
          rw [List.length_append, List.length_singleton, ← h.nsamples]
          have hcount := h.nsamples
          exact Nat.mod_eq_of_lt (by omega) }
    have hall := ih hone (by rw [List.length_append, List.length_singleton]; omega)
    rwa [List.append_assoc, List.singleton_append] at hall

theorem Imported.setRate (h : Imported pending tape items s) (hrate : Tape.setRate r s = some s') :
    Imported pending tape items s' ∧ s'.sampleHz = hzOf r := by
  rw [Tape.setRate] at hrate
  cases hr : s.rate with
  | some rate =>
    rw [hr] at hrate
    dsimp only at hrate
    split at hrate
    · cases hrate
    · next heq =>
      cases hrate
      exact ⟨h, by rw [not_not.mp heq]; exact h.hz rate hr⟩
  | none =>
    rw [hr] at hrate
    cases hrate
    exact ⟨{ h with hz := fun r' hr' => by cases hr'; rfl }, rfl⟩

/-- A run is recorded as it sounds. -/
theorem flush_plays (h : Imported pending tape items s) {out : List UInt8} {run : DirectRun}
    (hflush : s.run.flush s.out s.tstates = some (out, run)) :
    ∃ tape', Imported [] (tape ++ tape') (items ++ soundItems pending) { s with out, run } := by
  rw [DirectRun.flush] at hflush
  by_cases hzero : pending.length = 0
  · rw [if_pos (h.nsamples.trans hzero)] at hflush
    cases hflush
    obtain rfl := List.eq_nil_of_length_eq_zero hzero
    refine ⟨[], ?_⟩
    rw [soundItems, if_pos rfl, List.append_nil, List.append_nil]
    exact h
  · rw [if_neg (by rw [h.nsamples]; exact hzero)] at hflush
    dsimp only at hflush
    split at hflush
    · cases hflush
    · next hmax =>
      cases hflush
      have hlength := h.packs.finish_length
      rw [levels_length] at hlength
      let used := if pending.length % 8 ≠ 0 then pending.length % 8 else 8
      have hused : used < 256 := by
        show (if pending.length % 8 ≠ 0 then pending.length % 8 else 8) < 256
        split <;> omega
      -- The used bits of the last byte make up for the count of bytes.
      have hbits : bitCount s.run.finish (UInt8.ofNat used).toNat = (levels pending).length := by
        have hne : s.run.finish ≠ [] := List.ne_nil_of_length_pos (by omega)
        rw [bitCount, if_neg hne, hlength, UInt8.toNat_ofNat', Nat.mod_eq_of_lt hused, levels_length]
        show 8 * ((pending.length + 7) / 8 - 1) + (if pending.length % 8 ≠ 0 then pending.length % 8 else 8) = _
        split <;> omega
      have hdata : dataBits s.run.finish (UInt8.ofNat used).toNat = levels pending := by
        rw [dataBits, hbits]
        exact h.packs.unpack_finish
      have hfits : s.run.finish.length < 2 ^ 24 := by
        rw [kDirectDataMax] at hmax
        omega
      have hne : pending ≠ [] := fun hnil => hzero (by rw [hnil]; rfl)
      refine ⟨[.direct (UInt16.ofNat s.tstates) 0 (UInt8.ofNat used) ⟨s.run.finish, hfits⟩],
        ?_, ?_, packs_nil, rfl, h.hz⟩
      · show s.out ++ [0x15] ++ le16 s.tstates ++ le16 0 ++
          [UInt8.ofNat (if s.run.nsamples % 8 ≠ 0 then s.run.nsamples % 8 else 8)] ++ le24 s.run.finish.length ++
            s.run.finish = _
        rw [h.out, h.nsamples, ← List.cons_append, encodeTape, encodeTape, List.flatMap_append, List.flatMap_singleton,
          Block.encode, Block.body, le16_ofNat]
        simp only [List.append_assoc, List.cons_append, List.nil_append]
        rfl
      · rw [soundItems, if_neg hne]
        exact List.rel_append h.plays (.cons (.sound hdata) .nil)

theorem Imported.pause (h : Imported [] tape items s) {n : Nat} {rate : UInt8} (hhz : s.sampleHz = hzOf rate) :
    Imported [] (tape ++ [.pause (UInt16.ofNat (silenceMs n s.sampleHz))]) (items ++ [.silence n rate])
      { s with out := putPause s.out (silenceMs n s.sampleHz) } :=
  { h with
    out := by
      show putPause s.out (silenceMs n s.sampleHz) = _
      rw [putPause, h.out, ← List.cons_append, encodeTape, encodeTape, List.flatMap_append, List.flatMap_singleton,
        Block.encode, Block.body, le16_ofNat]
      simp only [List.append_assoc, List.cons_append, List.nil_append]
      rfl
    plays := by
      refine List.rel_append h.plays (.cons (.silence ?_) .nil)
      rw [UInt16.toNat_ofNat', Nat.mod_eq_of_lt (silenceMs_bounds _ _).2, hhz] }

theorem importBlock_plays (h : Imported pending tape items s) (hblock : importBlock type body s = some s')
    (hlen : pending.length + body.length < 2 ^ 32) :
    ∃ pending' tape' items', Imported pending' tape' items' s' ∧ pending'.length ≤ pending.length + body.length ∧
      ∀ blocks, items ++ vocItems pending (⟨type, body⟩ :: blocks) = items' ++ vocItems pending' blocks := by
  rw [importBlock] at hblock
  -- Sound data set the rate and join the run.
  by_cases hsound : type = 0x01
  · rw [if_pos hsound] at hblock
    split at hblock
    · cases hblock
    split at hblock
    · cases hblock
    obtain ⟨s₁, hrate, rfl⟩ := Option.map_eq_some_iff.mp hblock
    have hdrop : (body.drop 2).length ≤ body.length := by
      rw [List.length_drop]
      omega
    refine ⟨_, _, _, (h.setRate hrate).1.add (by omega), by rw [List.length_append]; omega, fun blocks => ?_⟩
    rw [vocItems, if_pos hsound]
  rw [if_neg hsound] at hblock
  -- A continuation joins the run at the rate it has.
  by_cases hcontinue : type = 0x02
  · rw [if_pos hcontinue] at hblock
    split at hblock
    · cases hblock
    cases hblock
    refine ⟨_, _, _, h.add hlen, Nat.le_of_eq List.length_append, fun blocks => ?_⟩
    rw [vocItems, if_neg hsound, if_pos hcontinue]
  rw [if_neg hcontinue] at hblock
  -- Silence ends the run, and is a pause behind it.
  by_cases hsilence : type = 0x03
  · rw [if_pos hsilence] at hblock
    split at hblock
    · cases hblock
    obtain ⟨s₁, hrate, hblock⟩ := Option.bind_eq_some_iff.mp hblock
    obtain ⟨⟨out, run⟩, hflush, rfl⟩ := Option.map_eq_some_iff.mp hblock
    obtain ⟨h₁, hhz⟩ := h.setRate hrate
    obtain ⟨tape', h₂⟩ := flush_plays h₁ hflush
    refine ⟨[], _, _, h₂.pause hhz, Nat.zero_le _, fun blocks => ?_⟩
    rw [vocItems, if_neg hsound, if_neg hcontinue, if_pos hsilence, List.append_assoc, List.append_assoc,
      List.singleton_append]
  rw [if_neg hsilence] at hblock
  split at hblock
  · cases hblock
    refine ⟨_, _, _, h, Nat.le_add_right _ _, fun blocks => ?_⟩
    rw [vocItems, if_neg hsound, if_neg hcontinue, if_neg hsilence]
  · cases hblock

end Block

/-! ## The whole file -/

section File

variable {rest pending : List UInt8} {tape : List Block} {items : List VocItem} {s s' : VocState}

theorem Blocks.unique {blocks blocks' : List VocBlock} (h : Blocks rest blocks) (h' : Blocks rest blocks') :
    blocks = blocks' := by
  induction h generalizing blocks' with
  | done => cases h'; rfl
  | terminator rest =>
    generalize hfile : 0x00 :: rest = file at h'
    cases h' with
    | done => cases hfile
    | terminator => rfl
    | block htype hsize h =>
      injection hfile with hzero
      exact absurd hzero.symm htype
  | @block b rest blocks htype hsize h ih =>
    generalize hfile : b.type :: (le24 b.body.length ++ (b.body ++ rest)) = file at h'
    cases h' with
    | done => cases hfile
    | terminator rest' =>
      injection hfile with hzero
      exact absurd hzero htype
    | @block b' rest' blocks' htype' hsize' h' =>
      injection hfile with htypes hbytes
      -- Two blocks with the same bytes have the same size field, and so the same body.
      obtain ⟨hsizes, hbodies⟩ := List.append_inj hbytes rfl
      have hlength : b.body.length = b'.body.length := by
        have hvalue := le24_value hsize
        have hvalue' := le24_value hsize'
        rw [le24_eq, le24_eq] at hsizes
        injection hsizes with hlo hrest
        injection hrest with hmid hrest
        injection hrest with hhi
        rw [← hvalue, ← hvalue', hlo, hmid, hhi]
      obtain ⟨hbody, rfl⟩ := List.append_inj hbodies hlength
      rw [ih h', VocBlock.ext htypes hbody]

/-- What is left behind the loop plays the blocks that it went through, but for the run that goes on. -/
theorem importBlocks_plays (hrun : importBlocks rest s = some s') (h : Imported pending tape items s)
    (hlen : pending.length + rest.length < 2 ^ 32) :
    ∃ blocks pending' tape' items', Blocks rest blocks ∧ Imported pending' tape' items' s' ∧
      items ++ vocItems pending blocks = items' ++ soundItems pending' := by
  induction hn : rest.length using Nat.strongRecOn generalizing rest pending tape items s with
  | ind n ih =>
    cases rest with
    | nil =>
      rw [importBlocks] at hrun
      cases hrun
      exact ⟨[], _, _, _, .done, h, by rw [vocItems]⟩
    | cons type rest =>
      rw [importBlocks] at hrun
      rw [List.length_cons] at hlen hn
      split at hrun
      · next hzero =>
        cases hrun
        subst hzero
        exact ⟨[], _, _, _, .terminator rest, h, by rw [vocItems]⟩
      next htype =>
      split at hrun
      · cases hrun
      next hheader =>
      split at hrun
      · cases hrun
      next hbody =>
      split at hrun
      · cases hrun
      next s₁ hblock =>
      have hsize : ((rest.drop 3).take (rdU24 rest)).length = rdU24 rest := by
        rw [List.length_take]
        omega
      have hdrop : ((rest.drop 3).drop (rdU24 rest)).length = rest.length - 3 - rdU24 rest := by
        rw [List.length_drop, List.length_drop]
      rw [List.length_drop] at hbody
      obtain ⟨pending₁, tape₁, items₁, h₁, hpending, hitems⟩ := importBlock_plays h hblock (by omega)
      obtain ⟨blocks, pending', tape', items', hblocks, h', hitems'⟩ := ih _ (by omega) hrun h₁ (by omega) hdrop
      refine ⟨⟨type, (rest.drop 3).take (rdU24 rest)⟩ :: blocks, pending', tape', items', ?_, h', ?_⟩
      · -- The size and the bytes of the block are those that were read.
        have hrest : rest = le24 ((rest.drop 3).take (rdU24 rest)).length ++
            ((rest.drop 3).take (rdU24 rest) ++ (rest.drop 3).drop (rdU24 rest)) := by
          rw [hsize, le24_rdU24 (by omega), List.take_append_drop, List.take_append_drop]
        have hblock' := Blocks.block (b := ⟨type, (rest.drop 3).take (rdU24 rest)⟩) htype
          (by rw [hsize]; exact rdU24_lt rest) hblocks
        rw [← hrest] at hblock'
        exact hblock'
      · rw [hitems, hitems']

/-- The tape of an accepted file: a pause for the firmware, and then what the file sounds like. The walker comes to each
    of its blocks, and to its end. -/
theorem vocToTzx_plays {data out : List UInt8} (h : vocToTzx data = some out) (hdata : data.length < 2 ^ 32)
    (hout : out.length < 2 ^ 32) :
    ∃ blocks tape, Blocks (data.drop (rd16le data 0x14)) blocks ∧
      out = encodeTape 1 20 (.pause 2000 :: tape) ∧ List.Forall₂ PlaysItem tape (vocItems [] blocks) ∧
      (∀ n ≤ tape.length + 1, walk out n = some (encodeTape 1 20 ((.pause 2000 :: tape).take n)).length) ∧
      walk out (tape.length + 1) = some out.length := by
  rw [vocToTzx] at h
  split at h
  · cases h
  dsimp only at h
  split at h
  · cases h
  split at h
  · cases h
  next s hrun =>
  obtain ⟨⟨out', run⟩, hflush, rfl⟩ := Option.map_eq_some_iff.mp h
  -- The importer starts behind the leading pause, with no run open.
  have hfirst : Imported [] [] [] { out := putPause (tapeHeader 1 20) kLeaderPauseMs } :=
    ⟨rfl, .nil, packs_nil, rfl, fun r hr => nomatch hr⟩
  obtain ⟨blocks, pending, tape₁, items, hblocks, h₁, hitems⟩ := importBlocks_plays hrun hfirst (by
    rw [List.length_nil, List.length_drop]
    omega)
  -- A run that is still open at the end becomes the last block.
  obtain ⟨tape₂, h₂⟩ := flush_plays h₁ hflush
  rw [← hitems, List.nil_append] at h₂
  have heq : out' = encodeTape 1 20 (.pause 2000 :: (tape₁ ++ tape₂)) := h₂.out
  subst heq
  have hwalk : ∀ n ≤ (tape₁ ++ tape₂).length + 1,
      walk (encodeTape 1 20 (.pause 2000 :: (tape₁ ++ tape₂))) n =
        some (encodeTape 1 20 ((.pause 2000 :: (tape₁ ++ tape₂)).take n)).length :=
    fun n hn => walk_encodeTape hout (by rwa [List.length_cons])
  refine ⟨blocks, tape₁ ++ tape₂, hblocks, rfl, h₂.plays, hwalk, ?_⟩
  have hend := hwalk _ (Nat.le_refl _)
  rwa [List.take_of_length_le (Nat.le_of_eq List.length_cons)] at hend

end File

/-- A file of nine samples at 4000 Hz, and one of silence. -/
def nineSamples : List UInt8 :=
  vocMagic ++ [26, 0, 0x0A, 0x01, 0x29, 0x11, 0x01, 11, 0, 0, 0x06, 0, 0xFF, 0xFF, 0, 0, 0x81, 0x80, 0xFF, 0, 0xFF] ++
    [0x03, 3, 0, 0, 0, 0, 0x06, 0x00]

def nineSamplesTape : List UInt8 :=
  tapeHeader 1 20 ++ [0x20, 0xD0, 0x07, 0x15, 0x6B, 0x03, 0, 0, 1, 2, 0, 0, 0xCA, 0x80, 0x20, 1, 0]

theorem vocToTzx_plays_nineSamples :
    ∃ blocks tape, Blocks (nineSamples.drop 26) blocks ∧
      nineSamplesTape = encodeTape 1 20 (.pause 2000 :: tape) ∧ List.Forall₂ PlaysItem tape (vocItems [] blocks) ∧
      (∀ n ≤ tape.length + 1,
        walk nineSamplesTape n = some (encodeTape 1 20 ((.pause 2000 :: tape).take n)).length) ∧
      walk nineSamplesTape (tape.length + 1) = some nineSamplesTape.length :=
  vocToTzx_plays (by with_unfolding_all decide : vocToTzx nineSamples = some nineSamplesTape) (by decide) (by decide)

/-- A file of one sample of silence. -/
def oneSilence : List UInt8 :=
  vocMagic ++ [26, 0, 0x0A, 0x01, 0x29, 0x11, 0x03, 3, 0, 0, 0, 0, 0x06, 0x00]

/-- Its tape has a pause that is none of its silences, and no pause is as short as the silence is. -/
theorem oneSilence_not_played :
    (¬∀ data out, vocToTzx data = some out → ∃ blocks tape, Blocks (data.drop (rd16le data 0x14)) blocks ∧
      out = encodeTape 1 20 tape ∧ List.Forall₂ PlaysItem tape (vocItems [] blocks)) ∧
    ¬∀ data out, vocToTzx data = some out → ∃ blocks tape, Blocks (data.drop (rd16le data 0x14)) blocks ∧
      out = encodeTape 1 20 (.pause 2000 :: tape) ∧
        List.Forall₂ (fun b item => PlaysItem b item ∧ ∀ ms samples rate, b = .pause ms →
          item = .silence samples rate → ms.toNat * hzOf rate = samples * 1000) tape (vocItems [] blocks) := by
  -- The leader is a block of its own, and a quarter of a millisecond becomes a whole one.
  have haccepted : vocToTzx oneSilence = some (tapeHeader 1 20 ++ [0x20, 0xD0, 0x07, 0x20, 1, 0]) := by
    with_unfolding_all decide
  have hblocks : Blocks (oneSilence.drop (rd16le oneSilence 0x14)) [⟨0x03, [0, 0, 0x06]⟩] :=
    .block (b := ⟨0x03, [0, 0, 0x06]⟩) (by decide) (by decide) (.terminator [])
  have hitems : vocItems [] [⟨0x03, [0, 0, 0x06]⟩] = [.silence 1 0x06] := rfl
  constructor
  · intro h
    obtain ⟨blocks, tape, hblocks', hout, hplays⟩ := h _ _ haccepted
    rw [hblocks'.unique hblocks, hitems] at hplays
    obtain ⟨b, hb, rfl⟩ : ∃ b, PlaysItem b (.silence 1 0x06) ∧ tape = [b] := by
      cases hplays with
      | cons hb hnil => cases hnil; exact ⟨_, hb, rfl⟩
    cases hb
    -- The leader makes the file longer than its items.
    have hlength : (16 : Nat) = 13 := congrArg List.length hout
    exact absurd hlength (by decide)
  · intro h
    obtain ⟨blocks, tape, hblocks', -, hplays⟩ := h _ _ haccepted
    rw [hblocks'.unique hblocks, hitems] at hplays
    cases hplays with
    | cons hb _ =>
      obtain ⟨hb, hexact⟩ := hb
      cases hb with
      | @silence ms =>
        have hms : ms.toNat * 4000 = 1 * 1000 := hexact ms 1 0x06 rfl rfl
        omega

end Koncepcja.Tape
