import Koncepcja.Tape.Deck

/-!
# Block Ordinals

The block table of the host and the deck's counter: `tape_cdt_block_len`, `tape_seek`, and the
ordinal a run leaves behind. `start_block` counts the blocks it skips and `next_block` the block
just played; neither counts a block 0x20.

## Main results

- `enterBlock_outcome`: every way into a block moves the head as `tape_cdt_block_len` says.
- `startFrom_rests`: what `start_block` skips before it comes to rest, with any ordinal.
- `ordinals_iff`: which images keep the ordinal right in every run.
-/

namespace Koncepcja.Tape

open Koncepcja.Bits Koncepcja.Bytes

/-! ## The block table -/

/-- `tape_cdt_block_len`'s `b8`. -/
def cdtByte (cdt : List UInt8) (off : Nat) : UInt8 :=
  if u32 off < u32 cdt.length then byteAt cdt (u32 off) else 0

/-- `b16`. -/
def cdtWord (cdt : List UInt8) (off : Nat) : Nat :=
  (cdtByte cdt off).toNat + 256 * (cdtByte cdt (off + 1)).toNat

/-- `b24`. -/
def cdtTriple (cdt : List UInt8) (off : Nat) : Nat :=
  cdtWord cdt off + 65536 * (cdtByte cdt (off + 2)).toNat

/-- `b32`. -/
def cdtLong (cdt : List UInt8) (off : Nat) : Nat :=
  cdtTriple cdt off + 16777216 * (cdtByte cdt (off + 3)).toNat

def tapeCdtBlockLen (cdt : List UInt8) (pos : Nat) : Nat :=
  let id := cdtByte cdt pos
  u32 (if id = 0x10 then cdtWord cdt (pos + 3) + 4 + 1
    else if id = 0x11 then cdtTriple cdt (pos + 0x10) + 0x12 + 1
    else if id = 0x12 then 4 + 1
    else if id = 0x13 then (cdtByte cdt (pos + 1)).toNat * 2 + 1 + 1
    else if id = 0x14 then cdtTriple cdt (pos + 8) + 0x0A + 1
    else if id = 0x15 then cdtTriple cdt (pos + 6) + 8 + 1
    else if id = 0x20 then 2 + 1
    else if id = 0x21 then (cdtByte cdt (pos + 1)).toNat + 1 + 1
    else if id = 0x22 then 1
    else if id = 0x30 then (cdtByte cdt (pos + 1)).toNat + 1 + 1
    else if id = 0x31 then (cdtByte cdt (pos + 2)).toNat + 2 + 1
    else if id = 0x32 then cdtWord cdt (pos + 1) + 2 + 1
    else if id = 0x33 then (cdtByte cdt (pos + 1)).toNat * 3 + 1 + 1
    else if id = 0x34 then 8 + 1
    else if id = 0x35 then cdtLong cdt (pos + 0x11) + 0x14 + 1
    else if id = 0x40 then cdtTriple cdt (pos + 2) + 4 + 1
    else if id = 0x5A then 9 + 1
    else cdtLong cdt (pos + 1) + 4 + 1) -- unknown: 4-byte length

/-- One round of `tape_seek`'s walk; `none` where it breaks off. -/
def nextPos (cdt : List UInt8) (pos : Nat) : Option Nat :=
  if cdt.length ≤ pos then none
  else
    let sz := tapeCdtBlockLen cdt pos
    if sz = 0 ∨ u32 (pos + sz) ≤ pos then none else some (u32 (pos + sz))

/-- `tape_seek`'s walk from `pos`. -/
def walkFrom (cdt : List UInt8) : Nat → Nat → Option Nat
  | 0, pos => some pos
  | n + 1, pos => (nextPos cdt pos).bind (walkFrom cdt n)

/-- The offset `n` blocks behind `ZXTape!\x1A` and the version. -/
def walk (cdt : List UInt8) (n : Nat) : Option Nat := walkFrom cdt n 10

/-- Every block of the walk has a size. -/
def Sizable (cdt : List UInt8) : Prop :=
  ∀ n pos, walk cdt n = some pos → pos < cdt.length → (nextPos cdt pos).isSome

namespace TapeState

/-- The head set down at the header of block `n`. -/
def restart (t : TapeState) (pos n : Nat) : TapeState :=
  let wasPlaying := t.playing
  let t := { t with pos, block := n, phase := .idle, level := false, error := false, playing := false }
  if wasPlaying then t.play true else t

/-- `tape_seek`; an ordinal out of reach is ignored. -/
def seek (blockOrdinal : Nat) (t : TapeState) : TapeState :=
  let blockOrdinal := u32 blockOrdinal
  match t.cdt with
  | none => t
  | some cdt =>
    match walk cdt blockOrdinal with
    | none => t
    | some pos => if pos < 10 ∨ cdt.length ≤ pos then t else t.restart pos blockOrdinal

/-- What the machine and the host do to the deck once a tape is in. -/
inductive Op
  | tick (motor : Bool)
  | play (on : Bool)
  | rewind
  | seek (blockOrdinal : Nat)
  | lineMode (on : Bool)
  | lineLevel (level : Bool)
  deriving DecidableEq, Repr

def Op.apply (t : TapeState) : Op → TapeState
  | tick motor => t.tick motor
  | play on => t.play on
  | rewind => t.rewind
  | seek n => t.seek n
  | lineMode on => { t with lineMode := on }
  | lineLevel level => { t with lineLevel := level }

def run (t : TapeState) (ops : List Op) : TapeState := ops.foldl Op.apply t

end TapeState

/-! ## Where the deck is -/

/-- The kinds of block a phase plays. -/
def PhaseFits (id : UInt8) : Phase → Prop
  | .pilot | .sync1 | .sync2 => id = 0x10 ∨ id = 0x11 ∨ id = 0x12
  | .data => id = 0x10 ∨ id = 0x11 ∨ id = 0x12 ∨ id = 0x14
  | .pulseSeq => id = 0x13
  | .direct => id = 0x15
  | .pause => id = 0x20
  | .idle => False

/-- The deck is inside block `n`, whose header is at `p`, or about to enter it. Inside a block the
    cursor is already behind it; the pause behind a data block belongs to no block. -/
inductive At (cdt : List UInt8) (t : TapeState) : Nat → Nat → Prop
  | inside {n p : Nat} : walk cdt n = some p → walk cdt (n + 1) = some t.pos →
      PhaseFits (cdtByte cdt p) t.phase → At cdt t n p
  | next {n : Nat} : walk cdt n = some t.pos → (t.phase = .idle ∨ t.phase = .pause ∧
      ∀ m q, walk cdt m = some q → walk cdt (m + 1) = some t.pos → cdtByte cdt q ≠ 0x20) →
      At cdt t n t.pos

/-- The ordinal is that of the block the deck is at, and seeking to it sets the head down on the
    header of the same block. Nothing is asked at the end of the tape. -/
def Agrees (cdt : List UInt8) (t : TapeState) : Prop :=
  t.phase ≠ .idle ∨ t.pos < cdt.length →
    ∃ p, At cdt t t.block p ∧ (p < cdt.length → t.seek t.block = t.restart p t.block)

/-- Blocks `start_block` passes over: metadata and direct recordings without data. -/
def Skipped (cdt : List UInt8) (p : Nat) : Prop :=
  cdtByte cdt p = 0x21 ∨ cdtByte cdt p = 0x22 ∨ cdtByte cdt p = 0x30 ∨ cdtByte cdt p = 0x31 ∨
    cdtByte cdt p = 0x32 ∨ cdtByte cdt p = 0x33 ∨ cdtByte cdt p = 0x15 ∧ cdtTriple cdt (p + 6) = 0

def StopMark (cdt : List UInt8) (p : Nat) : Prop := cdtByte cdt p = 0x20 ∧ cdtWord cdt (p + 1) = 0

/-- **No block 0x20 has anything left to count behind it**: a stop mark is the last block, and a
    pause is followed by skipped blocks only, a last stop mark apart. -/
def PausesLast (cdt : List UInt8) : Prop :=
  ∀ n p, walk cdt n = some p → p < cdt.length → cdtByte cdt p = 0x20 →
    ∀ m q, n < m → walk cdt m = some q → q < cdt.length →
      cdtWord cdt (p + 1) ≠ 0 ∧ (Skipped cdt q ∨ StopMark cdt q)

/-! ## The walk -/

section Walk

variable {cdt : List UInt8} {n m p q : Nat}

theorem u32_lt (n : Nat) : u32 n < 2 ^ 32 := Nat.mod_lt _ (by decide)

theorem u32_of_lt {n : Nat} (h : n < 2 ^ 32) : u32 n = n := Nat.mod_eq_of_lt h

@[simp] theorem u32_u32_add (a b : Nat) : u32 (u32 a + b) = u32 (a + b) := Nat.mod_add_mod a _ b

@[simp] theorem u32_add_u32 (a b : Nat) : u32 (a + u32 b) = u32 (a + b) := Nat.add_mod_mod a b _

@[simp] theorem u32_u32 (a : Nat) : u32 (u32 a) = u32 a := Nat.mod_mod a _

theorem nextPos_eq_some : nextPos cdt p = some q ↔
    p < cdt.length ∧ p < q ∧ q = u32 (p + tapeCdtBlockLen cdt p) := by
  unfold nextPos
  dsimp only
  split_ifs with hend hbreak
  · simp only [false_iff]
    omega
  · simp only [false_iff]
    rintro ⟨-, hlt, hq⟩
    rcases hbreak with h0 | hle
    · have hu : u32 p ≤ p := Nat.mod_le _ _
      rw [h0, Nat.add_zero] at hq
      omega
    · omega
  · rw [not_or] at hbreak
    simp only [Option.some.injEq]
    constructor
    · rintro rfl
      exact ⟨by omega, by omega, rfl⟩
    · rintro ⟨-, -, hq⟩
      exact hq.symm

theorem walkFrom_succ (cdt : List UInt8) (n p : Nat) :
    walkFrom cdt (n + 1) p = (walkFrom cdt n p).bind (nextPos cdt) := by
  induction n generalizing p with
  | zero =>
    simp only [walkFrom, Option.bind_some]
    cases nextPos cdt p <;> rfl
  | succ n ih =>
    rw [walkFrom, walkFrom, Option.bind_assoc]
    congr 1
    funext q
    exact ih q

theorem walk_succ (cdt : List UInt8) (n : Nat) :
    walk cdt (n + 1) = (walk cdt n).bind (nextPos cdt) := walkFrom_succ cdt n 10

theorem walk_succ_eq_some : walk cdt (n + 1) = some q ↔
    ∃ p, walk cdt n = some p ∧ p < cdt.length ∧ p < q ∧ q = u32 (p + tapeCdtBlockLen cdt p) := by
  rw [walk_succ, Option.bind_eq_some_iff]
  simp only [nextPos_eq_some]

theorem walk_bounds (h : walk cdt n = some p) : n + 10 ≤ p ∧ p < 2 ^ 32 := by
  induction n generalizing p with
  | zero =>
    obtain rfl : 10 = p := by simpa [walk, walkFrom] using h
    decide
  | succ n ih =>
    obtain ⟨q, hq, -, hlt, hp⟩ := walk_succ_eq_some.1 h
    have hb := ih hq
    have hp32 := u32_lt (q + tapeCdtBlockLen cdt q)
    omega

theorem walk_lt (h : n < m) (hn : walk cdt n = some p) (hm : walk cdt m = some q) : p < q := by
  induction m generalizing q with
  | zero => omega
  | succ m ih =>
    obtain ⟨r, hr, -, hlt, -⟩ := walk_succ_eq_some.1 hm
    rcases Nat.lt_succ_iff_lt_or_eq.1 h with hlt' | rfl
    · exact Nat.lt_trans (ih hlt' hr) hlt
    · rw [hn] at hr
      cases hr
      exact hlt

theorem walk_injective (hn : walk cdt n = some p) (hm : walk cdt m = some p) : n = m := by
  rcases Nat.lt_trichotomy n m with h | h | h
  · exact absurd (walk_lt h hn hm) (Nat.lt_irrefl p)
  · exact h
  · exact absurd (walk_lt h hm hn) (Nat.lt_irrefl p)

theorem Sizable.walk_succ (hsize : Sizable cdt) (hn : walk cdt n = some p) (hp : p < cdt.length) :
    walk cdt (n + 1) = some (u32 (p + tapeCdtBlockLen cdt p)) := by
  obtain ⟨q, hq⟩ := Option.isSome_iff_exists.1 (hsize n p hn hp)
  rw [Tape.walk_succ, hn, Option.bind_some, hq, (nextPos_eq_some.1 hq).2.2]

theorem Sizable.length_lt (hsize : Sizable cdt) : cdt.length < 2 ^ 32 := by
  by_contra hlen
  -- a longer image would go on for ever
  have hall : ∀ n, ∃ p, walk cdt n = some p := by
    intro n
    induction n with
    | zero => exact ⟨10, rfl⟩
    | succ n ih =>
      obtain ⟨p, hp⟩ := ih
      have hb := (walk_bounds hp).2
      exact ⟨_, hsize.walk_succ hp (by omega)⟩
  obtain ⟨p, hp⟩ := hall (2 ^ 32)
  have hb := walk_bounds hp
  omega

theorem cdtByte_eq (hlen : cdt.length < 2 ^ 32) (off : Nat) :
    cdtByte cdt off = byteAt cdt (u32 off) := by
  unfold cdtByte
  rw [u32_of_lt hlen]
  split
  · rfl
  · next h => exact (byteAt_of_length_le (Nat.le_of_not_lt h)).symm

@[simp] theorem cdtByte_u32_add (cdt : List UInt8) (a i : Nat) :
    cdtByte cdt (u32 a + i) = cdtByte cdt (a + i) := by
  simp only [cdtByte, u32_u32_add]

@[simp] theorem cdtByte_u32 (cdt : List UInt8) (a : Nat) : cdtByte cdt (u32 a) = cdtByte cdt a := by
  simp only [cdtByte, u32_u32]

end Walk

/-! ## Entering a block -/

/-- What no way into a block touches. -/
structure Keeps (t t' : TapeState) : Prop where
  cdt : t'.cdt = t.cdt
  lineMode : t'.lineMode = t.lineMode

/-- What `start_block`'s switch can do at a header. -/
inductive Outcome (cdt : List UInt8) (t : TapeState) : TapeState.Entered → Prop
  | skipped {t' : TapeState} : Skipped cdt t.pos → t'.pos = u32 (t.pos + tapeCdtBlockLen cdt t.pos) →
      t'.block = u32 (t.block + 1) → t'.playing = t.playing → Outcome cdt t (.again t')
  | plays {t' : TapeState} : ¬Skipped cdt t.pos → cdtByte cdt t.pos ≠ 0x20 →
      PhaseFits (cdtByte cdt t.pos) t'.phase → t'.pos = u32 (t.pos + tapeCdtBlockLen cdt t.pos) →
      t'.block = t.block → Outcome cdt t (.done t')
  | pauses {t' : TapeState} : cdtByte cdt t.pos = 0x20 → cdtWord cdt (t.pos + 1) ≠ 0 → t'.phase = .pause →
      t'.pauseCycles = cdtWord cdt (t.pos + 1) * kCyclesPerMs →
      t'.pos = u32 (t.pos + tapeCdtBlockLen cdt t.pos) → t'.block = t.block → t'.playing = t.playing →
      Outcome cdt t (.done t')
  | stops {t' : TapeState} : StopMark cdt t.pos → t'.phase = .idle →
      t'.pos = u32 (t.pos + tapeCdtBlockLen cdt t.pos) → t'.block = t.block → Outcome cdt t (.done t')
  /-- An unknown block: the head stays in front of it. -/
  | unknown {t' : TapeState} : ¬Skipped cdt t.pos → cdtByte cdt t.pos ≠ 0x20 → t'.phase = .idle →
      t'.pos = t.pos → t'.block = t.block → Outcome cdt t (.done t')

section Enter

variable {cdt : List UInt8} {t : TapeState}

theorem rd8_eq (hcdt : t.cdt = some cdt) (hlen : cdt.length < 2 ^ 32) (off : Nat) :
    t.rd8 off = cdtByte cdt off := by
  rw [cdtByte_eq hlen, TapeState.rd8, hcdt, Option.getD_some]

theorem rd16_eq (hcdt : t.cdt = some cdt) (hlen : cdt.length < 2 ^ 32) (off : Nat) :
    t.rd16 off = cdtWord cdt off := by
  rw [TapeState.rd16, rd8_eq hcdt hlen, rd8_eq hcdt hlen, cdtWord]

theorem rd24_eq (hcdt : t.cdt = some cdt) (hlen : cdt.length < 2 ^ 32) (off : Nat) :
    t.rd24 off = cdtTriple cdt off := by
  rw [TapeState.rd24, rd16_eq hcdt hlen, rd8_eq hcdt hlen, cdtTriple]

@[simp] theorem cdtWord_u32_add (cdt : List UInt8) (a i : Nat) :
    cdtWord cdt (u32 a + i) = cdtWord cdt (a + i) := by
  simp only [cdtWord, cdtByte_u32_add, Nat.add_assoc]

@[simp] theorem cdtTriple_u32_add (cdt : List UInt8) (a i : Nat) :
    cdtTriple cdt (u32 a + i) = cdtTriple cdt (a + i) := by
  simp only [cdtTriple, cdtWord_u32_add, cdtByte_u32_add, Nat.add_assoc]

@[simp] theorem cdtWord_u32 (cdt : List UInt8) (a : Nat) : cdtWord cdt (u32 a) = cdtWord cdt a :=
  cdtWord_u32_add cdt a 0

theorem u32_congr {a b : Nat} (h : a = b) : u32 a = u32 b := by rw [h]

section Kinds

variable (hcdt : t.cdt = some cdt) (hlen : cdt.length < 2 ^ 32)

include hcdt hlen

theorem outcome_standard (hid : cdtByte cdt t.pos = 0x10) :
    Outcome cdt t (.done (t.enterStandard (u32 (t.pos + 1)))) := by
  refine .plays (by simp [Skipped, hid]) (by simp [hid]) (by simp [PhaseFits, hid, TapeState.enterStandard]) ?_ rfl
  have hsize : tapeCdtBlockLen cdt t.pos = u32 (cdtWord cdt (t.pos + 3) + 4 + 1) := by
    simp [tapeCdtBlockLen, hid]
  simp only [TapeState.enterStandard, rd16_eq hcdt hlen, hsize, u32_u32_add, u32_add_u32,
    cdtWord_u32_add, Nat.add_assoc, Nat.reduceAdd]
  exact u32_congr (by omega)

theorem outcome_turbo (hid : cdtByte cdt t.pos = 0x11) :
    Outcome cdt t (.done (t.enterTurbo (u32 (t.pos + 1)))) := by
  refine .plays (by simp [Skipped, hid]) (by simp [hid]) (by simp [PhaseFits, hid, TapeState.enterTurbo]) ?_ rfl
  have hsize : tapeCdtBlockLen cdt t.pos = u32 (cdtTriple cdt (t.pos + 0x10) + 0x12 + 1) := by
    simp [tapeCdtBlockLen, hid]
  simp only [TapeState.enterTurbo, rd24_eq hcdt hlen, hsize, u32_u32_add, u32_add_u32,
    cdtTriple_u32_add, Nat.add_assoc, Nat.reduceAdd]
  exact u32_congr (by omega)

omit hcdt hlen in
theorem outcome_tone (hid : cdtByte cdt t.pos = 0x12) :
    Outcome cdt t (.done (t.enterTone (u32 (t.pos + 1)))) := by
  refine .plays (by simp [Skipped, hid]) (by simp [hid]) (by simp [PhaseFits, hid, TapeState.enterTone]) ?_ rfl
  have hsize : tapeCdtBlockLen cdt t.pos = u32 (4 + 1) := by
    simp [tapeCdtBlockLen, hid]
  simp only [TapeState.enterTone, hsize, u32_u32_add, u32_add_u32]

theorem outcome_pulseSeq (hid : cdtByte cdt t.pos = 0x13) :
    Outcome cdt t (.done (t.enterPulseSeq (u32 (t.pos + 1)))) := by
  refine .plays (by simp [Skipped, hid]) (by simp [hid]) (by simp [PhaseFits, hid, TapeState.enterPulseSeq]) ?_ rfl
  have hsize : tapeCdtBlockLen cdt t.pos = u32 ((cdtByte cdt (t.pos + 1)).toNat * 2 + 1 + 1) := by
    simp [tapeCdtBlockLen, hid]
  simp only [TapeState.enterPulseSeq, rd8_eq hcdt hlen, hsize, Nat.add_assoc, u32_u32_add, u32_add_u32,
    cdtByte_u32]
  exact u32_congr (by omega)

theorem outcome_pureData (hid : cdtByte cdt t.pos = 0x14) :
    Outcome cdt t (.done (t.enterPureData (u32 (t.pos + 1)))) := by
  refine .plays (by simp [Skipped, hid]) (by simp [hid]) (by simp [PhaseFits, hid, TapeState.enterPureData]) ?_ rfl
  have hsize : tapeCdtBlockLen cdt t.pos = u32 (cdtTriple cdt (t.pos + 8) + 0x0A + 1) := by
    simp [tapeCdtBlockLen, hid]
  simp only [TapeState.enterPureData, rd24_eq hcdt hlen, hsize, u32_u32_add, u32_add_u32,
    cdtTriple_u32_add, Nat.add_assoc, Nat.reduceAdd]
  exact u32_congr (by omega)

theorem outcome_direct (hid : cdtByte cdt t.pos = 0x15) :
    Outcome cdt t (t.enterDirect (u32 (t.pos + 1))) := by
  have hsize : tapeCdtBlockLen cdt t.pos = u32 (cdtTriple cdt (t.pos + 6) + 8 + 1) := by
    simp [tapeCdtBlockLen, hid]
  have hdata : (t.readDirect (u32 (t.pos + 1))).dataLen = cdtTriple cdt (t.pos + 6) := by
    simp only [TapeState.readDirect, rd24_eq hcdt hlen, cdtTriple_u32_add, Nat.add_assoc, Nat.reduceAdd]
  have hpos : (t.readDirect (u32 (t.pos + 1))).pos = u32 (t.pos + tapeCdtBlockLen cdt t.pos) := by
    simp only [TapeState.readDirect, rd24_eq hcdt hlen, hsize, u32_u32_add, u32_add_u32,
      cdtTriple_u32_add, Nat.add_assoc, Nat.reduceAdd]
    exact u32_congr (by omega)
  unfold TapeState.enterDirect
  dsimp only
  rw [hdata]
  split
  · next hempty => exact .skipped (by simp [Skipped, hid, hempty]) hpos rfl rfl
  · next hfull =>
    exact .plays (by simp [Skipped, hid, hfull]) (by simp [hid]) (by simp [PhaseFits, hid, TapeState.loadDirect]) hpos rfl

theorem outcome_pause (hid : cdtByte cdt t.pos = 0x20) :
    Outcome cdt t (.done (t.enterPause (u32 (t.pos + 1)))) := by
  have hsize : tapeCdtBlockLen cdt t.pos = u32 (2 + 1) := by
    simp [tapeCdtBlockLen, hid]
  have hpos : u32 (u32 (t.pos + 1) + 2) = u32 (t.pos + tapeCdtBlockLen cdt t.pos) := by
    rw [hsize, u32_u32_add, u32_add_u32]
  unfold TapeState.enterPause
  dsimp only
  rw [rd16_eq hcdt hlen, cdtWord_u32]
  split
  · next hzero => exact .stops ⟨hid, hzero⟩ rfl hpos rfl
  · next hms => exact .pauses hid hms rfl rfl hpos rfl rfl

omit hcdt hlen in
theorem outcome_skip {len : Nat} (sz : Nat) (hskip : Skipped cdt t.pos)
    (hsize : tapeCdtBlockLen cdt t.pos = u32 sz) (hsz : sz = 1 + len) :
    Outcome cdt t (t.skipBlock (u32 (t.pos + 1)) len) := by
  refine .skipped hskip ?_ rfl rfl
  rw [hsize, u32_add_u32, hsz, ← Nat.add_assoc]
  exact u32_u32_add _ _

/-- Every way into a block moves the head as `tape_cdt_block_len` says. -/
theorem enterBlock_outcome : Outcome cdt t (t.enterBlock (t.rd8 t.pos) (u32 (t.pos + 1))) := by
  rw [rd8_eq hcdt hlen]
  unfold TapeState.enterBlock
  by_cases h10 : cdtByte cdt t.pos = 0x10
  · rw [if_pos h10]
    exact outcome_standard hcdt hlen h10
  by_cases h11 : cdtByte cdt t.pos = 0x11
  · rw [if_neg h10, if_pos h11]
    exact outcome_turbo hcdt hlen h11
  by_cases h12 : cdtByte cdt t.pos = 0x12
  · rw [if_neg h10, if_neg h11, if_pos h12]
    exact outcome_tone h12
  by_cases h13 : cdtByte cdt t.pos = 0x13
  · rw [if_neg h10, if_neg h11, if_neg h12, if_pos h13]
    exact outcome_pulseSeq hcdt hlen h13
  by_cases h14 : cdtByte cdt t.pos = 0x14
  · rw [if_neg h10, if_neg h11, if_neg h12, if_neg h13, if_pos h14]
    exact outcome_pureData hcdt hlen h14
  rw [if_neg h10, if_neg h11, if_neg h12, if_neg h13, if_neg h14]
  by_cases h15 : cdtByte cdt t.pos = 0x15
  · rw [if_pos h15]
    exact outcome_direct hcdt hlen h15
  by_cases h20 : cdtByte cdt t.pos = 0x20
  · rw [if_neg h15, if_pos h20]
    exact outcome_pause hcdt hlen h20
  rw [if_neg h15, if_neg h20]
  -- the metadata blocks, each by its own length rule
  by_cases h21 : cdtByte cdt t.pos = 0x21
  · rw [if_pos h21, rd8_eq hcdt hlen, cdtByte_u32]
    exact outcome_skip ((cdtByte cdt (t.pos + 1)).toNat + 1 + 1) (by simp [Skipped, h21])
      (by simp [tapeCdtBlockLen, h21]) (by omega)
  by_cases h22 : cdtByte cdt t.pos = 0x22
  · rw [if_neg h21, if_pos h22]
    exact outcome_skip 1 (by simp [Skipped, h22])
      (by simp [tapeCdtBlockLen, h22]) rfl
  rw [if_neg h21, if_neg h22]
  by_cases h30 : cdtByte cdt t.pos = 0x30
  · rw [if_pos h30, rd8_eq hcdt hlen, cdtByte_u32]
    exact outcome_skip ((cdtByte cdt (t.pos + 1)).toNat + 1 + 1) (by simp [Skipped, h30])
      (by simp [tapeCdtBlockLen, h30]) (by omega)
  by_cases h31 : cdtByte cdt t.pos = 0x31
  · have h2 : t.pos + 1 + 1 = t.pos + 2 := rfl
    rw [if_neg h30, if_pos h31, rd8_eq hcdt hlen, cdtByte_u32_add, h2]
    exact outcome_skip ((cdtByte cdt (t.pos + 2)).toNat + 2 + 1) (by simp [Skipped, h31])
      (by simp [tapeCdtBlockLen, h31]) (by omega)
  rw [if_neg h30, if_neg h31]
  by_cases h32 : cdtByte cdt t.pos = 0x32
  · rw [if_pos h32, rd16_eq hcdt hlen, cdtWord_u32]
    exact outcome_skip (cdtWord cdt (t.pos + 1) + 2 + 1) (by simp [Skipped, h32])
      (by simp [tapeCdtBlockLen, h32]) (by omega)
  by_cases h33 : cdtByte cdt t.pos = 0x33
  · rw [if_neg h32, if_pos h33, rd8_eq hcdt hlen, cdtByte_u32]
    exact outcome_skip ((cdtByte cdt (t.pos + 1)).toNat * 3 + 1 + 1) (by simp [Skipped, h33])
      (by simp [tapeCdtBlockLen, h33]) (by omega)
  · rw [if_neg h32, if_neg h33]
    exact .unknown (by simp [Skipped, *]) h20 rfl rfl rfl

end Kinds

/-- The deck on the way out of the switch. -/
def TapeState.Entered.deck : TapeState.Entered → TapeState
  | .done t => t
  | .again t => t

theorem keeps_ite {c : Prop} [Decidable c] {a b : TapeState.Entered} (ha : Keeps t a.deck)
    (hb : Keeps t b.deck) : Keeps t (if c then a else b).deck := by
  split
  · exact ha
  · exact hb

theorem enterBlock_keeps (t : TapeState) (id : UInt8) (body : Nat) :
    Keeps t (t.enterBlock id body).deck := by
  have hdirect : Keeps t (t.enterDirect body).deck := by
    unfold TapeState.enterDirect
    exact keeps_ite ⟨rfl, rfl⟩ ⟨rfl, rfl⟩
  have hpause : Keeps t (t.enterPause body) := by
    unfold TapeState.enterPause
    dsimp only
    split <;> exact ⟨rfl, rfl⟩
  unfold TapeState.enterBlock
  -- ten of the branches are one record update each
  iterate 5 refine keeps_ite ⟨rfl, rfl⟩ ?_
  refine keeps_ite hdirect (keeps_ite hpause ?_)
  iterate 6 refine keeps_ite ⟨rfl, rfl⟩ ?_
  exact ⟨rfl, rfl⟩

/-! ## Coming to rest -/

/-- Where `start_block` ends: at the end of the tape, or in a block that is not skipped. -/
inductive Rests (cdt : List UInt8) (t t' : TapeState) : Prop
  | ended : cdt.length ≤ t.pos → t' = t.stop → Rests cdt t t'
  | entered : t.pos < cdt.length → Outcome cdt t (.done t') → Keeps t t' → Rests cdt t t'

/-- What `start_block` skips before it comes to rest, from the header of block `n` on; the ordinal may
    lag behind. -/
theorem startFrom_rests {n : Nat} (hsize : Sizable cdt) (hcdt : t.cdt = some cdt)
    (hn : walk cdt n = some t.pos) (hblock : t.block ≤ n) (fuel : Nat)
    (hfuel : cdt.length < fuel + t.pos) :
    ∃ m s, n ≤ m ∧ walk cdt m = some s.pos ∧ s.block = t.block + (m - n) ∧ s.playing = t.playing ∧
      Keeps t s ∧ (∀ i q, n ≤ i → i < m → walk cdt i = some q → Skipped cdt q) ∧
      Rests cdt s (TapeState.startFrom fuel t) := by
  induction fuel generalizing t n with
  | zero =>
    refine ⟨n, t, Nat.le_refl n, hn, by omega, rfl, ⟨rfl, rfl⟩, ?_, .ended (by omega) rfl⟩
    intro i q h1 h2
    omega
  | succ fuel ih =>
    have hnone : ∀ i q, n ≤ i → i < n → walk cdt i = some q → Skipped cdt q := by
      intro i q h1 h2
      omega
    -- Behind the last block the deck stops.
    by_cases hend : cdt.length ≤ t.pos
    · have hstop : TapeState.startFrom (fuel + 1) t = t.stop := by
        rw [TapeState.startFrom, hcdt]
        exact if_pos hend
      exact ⟨n, t, Nat.le_refl n, hn, by omega, rfl, ⟨rfl, rfl⟩, hnone, .ended hend hstop⟩
    have hout := enterBlock_outcome hcdt hsize.length_lt
    have hkeeps := enterBlock_keeps t (t.rd8 t.pos) (u32 (t.pos + 1))
    cases henter : t.enterBlock (t.rd8 t.pos) (u32 (t.pos + 1)) with
    -- A block with pulses: the deck rests in it.
    | done t' =>
      have hstart : TapeState.startFrom (fuel + 1) t = t' := by
        rw [TapeState.startFrom, hcdt]
        dsimp only
        rw [if_neg hend, henter]
      rw [henter] at hout hkeeps
      rw [hstart]
      exact ⟨n, t, Nat.le_refl n, hn, by omega, rfl, ⟨rfl, rfl⟩, hnone,
        .entered (by omega) hout hkeeps⟩
    | again t' =>
      have hstart : TapeState.startFrom (fuel + 1) t = TapeState.startFrom fuel t' := by
        rw [TapeState.startFrom, hcdt]
        dsimp only
        rw [if_neg hend, henter]
      rw [henter] at hout hkeeps
      change Keeps t t' at hkeeps
      cases hout with
      | skipped hskip hpos hcount hplaying =>
        -- A block without pulses: the walk goes on to the next, and the count with it.
        have hnext := hsize.walk_succ hn (by omega)
        rw [← hpos] at hnext
        have hlt := walk_lt (Nat.lt_succ_self n) hn hnext
        have hb := walk_bounds hnext
        have hcount' : t'.block = t.block + 1 := by
          rw [hcount]
          exact u32_of_lt (by omega)
        obtain ⟨m, s, hle, hm, hs, hp, hk, hall, hrest⟩ :=
          ih (hkeeps.cdt.trans hcdt) hnext (by omega) (by omega)
        refine ⟨m, s, by omega, hm, by omega, hp.trans hplaying,
          ⟨hk.cdt.trans hkeeps.cdt, hk.lineMode.trans hkeeps.lineMode⟩, ?_, ?_⟩
        · intro i q h1 h2 hq
          rcases Nat.eq_or_lt_of_le h1 with rfl | hlt'
          · rw [hn] at hq
            cases hq
            exact hskip
          · exact hall i q hlt' h2 hq
        · rw [hstart]
          exact hrest

theorem startBlock_rests {n : Nat} (hsize : Sizable cdt) (hcdt : t.cdt = some cdt)
    (hn : walk cdt n = some t.pos) (hblock : t.block ≤ n) :
    ∃ m s, n ≤ m ∧ walk cdt m = some s.pos ∧ s.block = t.block + (m - n) ∧ s.playing = t.playing ∧
      Keeps t s ∧ (∀ i q, n ≤ i → i < m → walk cdt i = some q → Skipped cdt q) ∧
      Rests cdt s t.startBlock := by
  rw [TapeState.startBlock, hcdt, Option.getD_some]
  exact startFrom_rests hsize hcdt hn hblock _ (by omega)

end Enter

/-! ## What a step preserves -/

/-- The ordinal is that of the block the deck is at. -/
def Placed (cdt : List UInt8) (t : TapeState) : Prop :=
  t.phase ≠ .idle ∨ t.pos < cdt.length → ∃ p, At cdt t t.block p

/-- The deck with this tape in it. -/
structure Inserted (cdt : List UInt8) (t : TapeState) : Prop where
  media : t.cdt = some cdt
  placed : Placed cdt t

section Steps

variable {cdt : List UInt8} {t t' : TapeState} {p : Nat}

theorem At.congr {n : Nat} (h : At cdt t n p) (hphase : t'.phase = t.phase) (hpos : t'.pos = t.pos) :
    At cdt t' n p := by
  cases h with
  | inside hp hnext hplays => exact .inside hp (hpos ▸ hnext) (hphase ▸ hplays)
  | next hn hphase' =>
    rw [← hpos]
    exact .next (hpos ▸ hn) (by rw [hphase, hpos]; exact hphase')

theorem Inserted.congr (h : Inserted cdt t) (hcdt : t'.cdt = t.cdt) (hphase : t'.phase = t.phase)
    (hpos : t'.pos = t.pos) (hblock : t'.block = t.block) : Inserted cdt t' where
  media := hcdt.trans h.media
  placed := by
    intro hat
    rw [hphase, hpos] at hat
    obtain ⟨p, hp⟩ := h.placed hat
    exact ⟨p, hblock ▸ hp.congr hphase hpos⟩

theorem placed_end (hphase : t.phase = .idle) (hpos : cdt.length ≤ t.pos) : Placed cdt t := by
  rintro (hne | hlt)
  · exact absurd hphase hne
  · omega

theorem startBlock_end (hcdt : t.cdt = some cdt) (hend : cdt.length ≤ t.pos) : t.startBlock = t.stop := by
  rw [TapeState.startBlock, TapeState.startFrom, hcdt]
  exact if_pos hend

theorem inserted_startBlock_end (hcdt : t.cdt = some cdt) (hend : cdt.length ≤ t.pos) :
    Inserted cdt t.startBlock := by
  rw [startBlock_end hcdt hend]
  exact ⟨hcdt, placed_end rfl hend⟩

theorem end_of_stopMark {n : Nat} (hlast : PausesLast cdt) (hsize : Sizable cdt)
    (hn : walk cdt n = some t.pos) (hlt : t.pos < cdt.length) (hstop : StopMark cdt t.pos) :
    cdt.length ≤ u32 (t.pos + tapeCdtBlockLen cdt t.pos) := by
  by_contra hmore
  have hnext := hsize.walk_succ hn hlt
  exact (hlast n _ hn hlt hstop.1 (n + 1) _ (by omega) hnext (by omega)).1 hstop.2

theorem inserted_startBlock (hlast : PausesLast cdt) (hsize : Sizable cdt) (hcdt : t.cdt = some cdt)
    (hn : walk cdt t.block = some t.pos) : Inserted cdt t.startBlock := by
  obtain ⟨m, s, hle, hm, hblock, -, hkeeps, -, hrest⟩ :=
    startBlock_rests hsize hcdt hn (Nat.le_refl _)
  have hsm : s.block = m := by omega
  have hscdt : s.cdt = some cdt := hkeeps.cdt.trans hcdt
  -- The deck has come to rest at the end of the tape or in the block `m`.
  cases hrest with
  | ended hend hstop =>
    rw [hstop]
    exact ⟨hscdt, placed_end rfl hend⟩
  | entered hlt hout hkeeps' =>
    have hnext := hsize.walk_succ hm hlt
    refine ⟨hkeeps'.cdt.trans hscdt, ?_⟩
    -- What the block does on entry: it plays, pauses, stops the tape, or is passed over.
    cases hout with
    | plays _ _ hplays hpos hblock' =>
      rintro -
      rw [hblock', hsm]
      exact ⟨s.pos, .inside hm (by rw [hpos]; exact hnext) hplays⟩
    | pauses hid _ hphase _ hpos hblock' _ =>
      rintro -
      rw [hblock', hsm]
      exact ⟨s.pos, .inside hm (by rw [hpos]; exact hnext) (by rw [hphase]; exact hid)⟩
    | stops hmark hphase hpos hblock' =>
      exact placed_end hphase (by rw [hpos]; exact end_of_stopMark hlast hsize hm hlt hmark)
    | unknown _ _ hphase hpos hblock' =>
      rintro -
      rw [hblock', hsm]
      exact ⟨t.startBlock.pos, .next (by rw [hpos]; exact hm) (.inl hphase)⟩

theorem inserted_startBlock_pause (hlast : PausesLast cdt) (hsize : Sizable cdt)
    (hcdt : t.cdt = some cdt) (hp : walk cdt t.block = some p) (hid : cdtByte cdt p = 0x20)
    (hnext : walk cdt (t.block + 1) = some t.pos) : Inserted cdt t.startBlock := by
  obtain ⟨m, s, hle, hm, -, -, hkeeps, -, hrest⟩ := startBlock_rests hsize hcdt hnext (by omega)
  have hscdt : s.cdt = some cdt := hkeeps.cdt.trans hcdt
  have hplt : p < cdt.length := by
    obtain ⟨q, hq, hlt, -⟩ := walk_succ_eq_some.1 hnext
    rw [hp] at hq
    cases hq
    exact hlt
  cases hrest with
  | ended hend hstop =>
    rw [hstop]
    exact ⟨hscdt, placed_end rfl hend⟩
  | entered hlt hout hkeeps' =>
    refine ⟨hkeeps'.cdt.trans hscdt, ?_⟩
    -- what it comes to rest in is neither skipped nor a stop mark, unless it is the last one
    have hsilent := (hlast _ _ hp hplt hid m _ (by omega) hm hlt).2
    cases hout with
    | plays hskip h20 _ _ _ =>
      rcases hsilent with h | h
      · exact absurd h hskip
      · exact absurd h.1 h20
    | pauses h20 hms _ _ _ _ _ =>
      rcases hsilent with h | h
      · simp [Skipped, h20] at h
      · exact absurd h.2 hms
    | stops hmark hphase hpos _ =>
      exact placed_end hphase (by rw [hpos]; exact end_of_stopMark hlast hsize hm hlt hmark)
    | unknown hskip h20 _ _ _ =>
      rcases hsilent with h | h
      · exact absurd h hskip
      · exact absurd h.1 h20

/-- The cursor behind the block that plays, whatever its phase does next. -/
structure Playing (cdt : List UInt8) (t : TapeState) (p : Nat) : Prop where
  media : t.cdt = some cdt
  header : walk cdt t.block = some p
  behind : walk cdt (t.block + 1) = some t.pos

theorem Playing.congr (h : Playing cdt t p) (hcdt : t'.cdt = t.cdt) (hpos : t'.pos = t.pos)
    (hblock : t'.block = t.block) : Playing cdt t' p where
  media := hcdt.trans h.media
  header := by rw [hblock]; exact h.header
  behind := by rw [hblock, hpos]; exact h.behind

theorem Playing.inserted (h : Playing cdt t p) (hplays : PhaseFits (cdtByte cdt p) t.phase) :
    Inserted cdt t :=
  ⟨h.media, fun _ => ⟨p, .inside h.header h.behind hplays⟩⟩

theorem Inserted.playing (h : Inserted cdt t) (hidle : t.phase ≠ .idle) (hpause : t.phase ≠ .pause) :
    ∃ p, Playing cdt t p ∧ PhaseFits (cdtByte cdt p) t.phase := by
  obtain ⟨p, hat⟩ := h.placed (.inl hidle)
  cases hat with
  | inside hp hnext hplays => exact ⟨p, ⟨h.media, hp, hnext⟩, hplays⟩
  | next _ hphase =>
    rcases hphase with hphase | ⟨hphase, -⟩
    · exact absurd hphase hidle
    · exact absurd hphase hpause

theorem PhaseFits.ne_pause {id : UInt8} {phase : Phase} (h : PhaseFits id phase) (hpause : phase ≠ .pause) :
    id ≠ 0x20 := by
  rintro rfl
  cases phase <;> simp_all [PhaseFits]

theorem inserted_nextBlock (hlast : PausesLast cdt) (hsize : Sizable cdt) (h : Playing cdt t p)
    (hid : cdtByte cdt p ≠ 0x20) : Inserted cdt t.nextBlock := by
  have hb := walk_bounds h.behind
  have hcount : u32 (t.block + 1) = t.block + 1 := u32_of_lt (by omega)
  unfold TapeState.nextBlock
  dsimp only
  rw [hcount]
  split
  · refine ⟨h.media, fun _ => ⟨t.pos, ?_⟩⟩
    refine .next h.behind (.inr ⟨rfl, ?_⟩)
    -- the block in front of the pause is the one just played
    intro m q hm hm'
    have hmn : m + 1 = t.block + 1 := walk_injective hm' h.behind
    obtain rfl : m = t.block := by omega
    rw [h.header] at hm
    cases hm
    exact hid
  · exact inserted_startBlock hlast hsize h.media h.behind

theorem Playing.inserted_of (h : Playing cdt t p) (t' : TapeState) (hcdt : t'.cdt = t.cdt)
    (hpos : t'.pos = t.pos) (hblock : t'.block = t.block) (hplays : PhaseFits (cdtByte cdt p) t'.phase) :
    Inserted cdt t' := (h.congr hcdt hpos hblock).inserted hplays

theorem inserted_pilotDone (hlast : PausesLast cdt) (hsize : Sizable cdt) (h : Playing cdt t p)
    (hplays : PhaseFits (cdtByte cdt p) .pilot) : Inserted cdt t.pilotDone := by
  unfold TapeState.pilotDone
  split
  · exact inserted_nextBlock hlast hsize h (hplays.ne_pause (by decide))
  · exact h.inserted_of _ rfl rfl rfl hplays

theorem inserted_pulseDone (hlast : PausesLast cdt) (hsize : Sizable cdt) (h : Playing cdt t p)
    (hplays : PhaseFits (cdtByte cdt p) t.phase) (hpause : t.phase ≠ .pause) :
    Inserted cdt t.pulseDone := by
  -- A block with pulses is none of the pauses, so its end is followed by another block.
  have hid := hplays.ne_pause hpause
  have hnext : ∀ t' : TapeState, t'.cdt = t.cdt → t'.pos = t.pos → t'.block = t.block →
      Inserted cdt t'.nextBlock := fun t' hcdt hpos hblock =>
    inserted_nextBlock hlast hsize (h.congr hcdt hpos hblock) hid
  have hstay := h.inserted_of
  unfold TapeState.pulseDone
  dsimp only
  cases hphase : t.phase with
  | idle =>
    rw [hphase] at hplays
    exact absurd hplays id
  | pause => exact absurd hphase hpause
  | pilot =>
    rw [hphase] at hplays
    dsimp only
    split
    · exact hstay _ rfl rfl rfl hplays
    · refine inserted_pilotDone hlast hsize (h.congr ?_ ?_ ?_) hplays <;> rfl
  | sync1 =>
    rw [hphase] at hplays
    exact hstay _ rfl rfl rfl hplays
  | sync2 =>
    rw [hphase] at hplays
    refine hstay _ rfl rfl rfl ?_
    rcases hplays with hid | hid | hid
    · exact .inl hid
    · exact .inr (.inl hid)
    · exact .inr (.inr (.inl hid))
  | data =>
    rw [hphase] at hplays
    dsimp only
    split
    · exact hstay _ rfl rfl rfl hplays
    · split
      · exact hnext _ rfl rfl rfl
      · exact hstay _ rfl rfl rfl hplays
  | pulseSeq =>
    rw [hphase] at hplays
    dsimp only
    split
    · exact hstay _ rfl rfl rfl hplays
    · exact hnext _ rfl rfl rfl
  | direct =>
    rw [hphase] at hplays
    dsimp only
    split
    · exact hnext _ rfl rfl rfl
    · exact hstay _ rfl rfl rfl hplays

theorem inserted_pauseDone (hlast : PausesLast cdt) (hsize : Sizable cdt) (h : Inserted cdt t)
    (hphase : t.phase = .pause) : Inserted cdt t.startBlock := by
  obtain ⟨p, hat⟩ := h.placed (.inl (by rw [hphase]; decide))
  cases hat with
  | inside hp hnext hplays =>
    rw [hphase] at hplays
    exact inserted_startBlock_pause hlast hsize h.media hp hplays hnext
  | next hn _ => exact inserted_startBlock hlast hsize h.media hn

theorem inserted_tick (hlast : PausesLast cdt) (hsize : Sizable cdt) (h : Inserted cdt t)
    (motor : Bool) : Inserted cdt (t.tick motor) := by
  unfold TapeState.tick
  dsimp only
  split
  · exact h.congr rfl rfl rfl rfl
  · split
    · next hrun =>
      split
      · next hphase =>
        split
        · exact h.congr rfl rfl rfl rfl
        · exact inserted_pauseDone hlast hsize (h.congr rfl rfl rfl rfl) hphase
      · next hphase =>
        split
        · obtain ⟨p, hp, hplays⟩ := h.playing hrun.2.2 hphase
          refine inserted_pulseDone hlast hsize (p := p) (hp.congr ?_ ?_ ?_) hplays hphase <;> rfl
        · exact h.congr rfl rfl rfl rfl
    · exact h.congr rfl rfl rfl rfl

theorem inserted_play (hlast : PausesLast cdt) (hsize : Sizable cdt) (h : Inserted cdt t) (on : Bool) :
    Inserted cdt (t.play on) := by
  unfold TapeState.play
  split
  · dsimp only
    split
    · next hphase =>
      by_cases hend : cdt.length ≤ t.pos
      · exact inserted_startBlock_end h.media hend
      · obtain ⟨p, hat⟩ := h.placed (.inr (by omega))
        cases hat with
        | inside _ _ hplays =>
          rw [hphase] at hplays
          exact absurd hplays id
        | next hn _ => exact inserted_startBlock hlast hsize h.media hn
    · exact h.congr rfl rfl rfl rfl
  · split
    · exact h.congr rfl rfl rfl rfl
    · exact h

theorem inserted_restart (hlast : PausesLast cdt) (hsize : Sizable cdt) (hcdt : t.cdt = some cdt)
    {n : Nat} (hn : walk cdt n = some p) : Inserted cdt (t.restart p n) := by
  unfold TapeState.restart
  dsimp only
  have hdown : Inserted cdt { t with
      pos := p, block := n, phase := .idle, level := false, error := false, playing := false } :=
    ⟨hcdt, fun _ => ⟨p, .next hn (.inl rfl)⟩⟩
  split
  · exact inserted_play hlast hsize hdown true
  · exact hdown

theorem inserted_seek (hlast : PausesLast cdt) (hsize : Sizable cdt) (h : Inserted cdt t) (n : Nat) :
    Inserted cdt (t.seek n) := by
  unfold TapeState.seek
  dsimp only
  rw [h.media]
  dsimp only
  cases hn : walk cdt (u32 n) with
  | none => exact h
  | some pos =>
    dsimp only
    split
    · exact h
    · exact inserted_restart hlast hsize h.media hn

theorem inserted_apply (hlast : PausesLast cdt) (hsize : Sizable cdt) (h : Inserted cdt t)
    (op : TapeState.Op) : Inserted cdt (op.apply t) := by
  cases op with
  | tick motor => exact inserted_tick hlast hsize h motor
  | play on => exact inserted_play hlast hsize h on
  | rewind => exact inserted_restart hlast hsize h.media (n := 0) rfl
  | seek n => exact inserted_seek hlast hsize h n
  | lineMode on => exact h.congr rfl rfl rfl rfl
  | lineLevel level => exact h.congr rfl rfl rfl rfl

theorem inserted_run (hlast : PausesLast cdt) (hsize : Sizable cdt) (h : Inserted cdt t)
    (ops : List TapeState.Op) : Inserted cdt (t.run ops) := by
  unfold TapeState.run
  induction ops generalizing t with
  | nil => exact h
  | cons op ops ih => exact ih (inserted_apply hlast hsize h op)

theorem inserted_attach (hlast : PausesLast cdt) (hsize : Sizable cdt)
    (h : t.attachCdt cdt = some t') : Inserted cdt t' := by
  unfold TapeState.attachCdt at h
  split at h
  · cases h
  · cases h
    exact inserted_restart hlast hsize rfl (n := 0) rfl

theorem seek_eq {n : Nat} (hcdt : t.cdt = some cdt) (hn : walk cdt n = some p) (hp : p < cdt.length) :
    t.seek n = t.restart p n := by
  have hb := walk_bounds hn
  have hu : u32 n = n := u32_of_lt (by omega)
  unfold TapeState.seek
  rw [hcdt, hu]
  dsimp only
  rw [hn]
  dsimp only
  rw [if_neg (by omega)]

theorem At.walk {n : Nat} (h : At cdt t n p) : walk cdt n = some p := by
  cases h with
  | inside hp _ _ => exact hp
  | next hn _ => exact hn

theorem Inserted.agrees (h : Inserted cdt t) : Agrees cdt t := by
  intro hat
  obtain ⟨p, hp⟩ := h.placed hat
  exact ⟨p, hp, fun hlt => seek_eq h.media hp.walk hlt⟩

/-! ## A block behind a pause block -/

theorem run_pause (c : Nat) (hphase : t.phase = .pause) (hplaying : t.playing = true)
    (hline : t.lineMode = false) (hc : t.pauseCycles = c) :
    t.run (List.replicate (c + 1) (.tick true)) =
      TapeState.startBlock { t with motorSeen := true, pauseCycles := 0 } := by
  unfold TapeState.run
  induction c generalizing t with
  | zero => simp [TapeState.Op.apply, TapeState.tick, hphase, hplaying, hline, hc]
  | succ c ih =>
    have hstep : t.tick true = { t with motorSeen := true, pauseCycles := c } := by
      simp [TapeState.tick, hphase, hplaying, hline, hc]
    rw [List.replicate_succ, List.foldl_cons]
    simp only [TapeState.Op.apply]
    rw [hstep]
    rw [ih] <;> first | rfl | assumption

/-- PLAY pressed at the header of block `n`. -/
def pressedAt (n : Nat) : List TapeState.Op := [.lineMode false, .play false, .seek n, .play true]

theorem run_pressedAt {n : Nat} (hcdt : t.cdt = some cdt) (hn : walk cdt n = some p)
    (hp : p < cdt.length) :
    ∃ s : TapeState, s.cdt = some cdt ∧ s.pos = p ∧ s.block = n ∧ s.playing = true ∧
      s.lineMode = false ∧ t.run (pressedAt n) = s.startBlock := by
  refine ⟨{ t with
    lineMode := false, pos := p, block := n, phase := .idle, level := false, error := false,
    playing := true }, hcdt, rfl, rfl, rfl, rfl, ?_⟩
  have hstop : TapeState.play false { t with lineMode := false } =
      { t with lineMode := false, playing := false } := by
    simp [TapeState.play]
  have hseek := seek_eq (t := { t with lineMode := false, playing := false }) hcdt hn hp
  simp only [TapeState.run, pressedAt, List.foldl_cons, List.foldl_nil, TapeState.Op.apply]
  rw [hstop, hseek]
  simp [TapeState.restart, TapeState.play, hcdt]

theorem Agrees.cursor (h : Agrees cdt t) (hat : t.phase ≠ .idle ∨ t.pos < cdt.length) :
    walk cdt t.block = some t.pos ∧ (t.phase = .idle ∨ t.phase = .pause) ∨
      walk cdt (t.block + 1) = some t.pos ∧ t.phase ≠ .idle := by
  obtain ⟨p, hp, -⟩ := h hat
  cases hp with
  | inside _ hnext hplays =>
    refine .inr ⟨hnext, ?_⟩
    intro hidle
    rw [hidle] at hplays
    exact hplays
  | next hn hphase => exact .inl ⟨hn, hphase.imp id And.left⟩

theorem pressed_pause {n : Nat} (hsize : Sizable cdt) (hcdt : t.cdt = some cdt)
    (hn : walk cdt n = some p) (hp : p < cdt.length) (hid : cdtByte cdt p = 0x20) :
    ∃ s, t.run (pressedAt n) = s ∧ s.cdt = some cdt ∧ s.block = n ∧ walk cdt (n + 1) = some s.pos ∧
      (cdtWord cdt (p + 1) = 0 ∧ s.phase = .idle ∨
        cdtWord cdt (p + 1) ≠ 0 ∧ s.phase = .pause ∧ s.playing = true ∧ s.lineMode = false) := by
  obtain ⟨s, hscdt, hspos, hsblock, hplaying, hline, hrun⟩ := run_pressedAt hcdt hn hp
  rw [hrun]
  obtain ⟨m, r, hle, hm, hblock, hplay, hkeeps, hall, hrest⟩ :=
    startBlock_rests hsize hscdt (by rw [hspos]; exact hn) (Nat.le_of_eq hsblock)
  -- a block 0x20 is not skipped
  have hmn : m = n := by
    by_contra hne
    have hskip := hall n p (Nat.le_refl n) (by omega) hn
    simp [Skipped, hid] at hskip
  subst hmn
  rw [hn] at hm
  cases hm
  have hnext := hsize.walk_succ hn hp
  have hrb : r.block = m := by omega
  refine ⟨_, rfl, ?_⟩
  cases hrest with
  | ended hend _ => omega
  | entered _ hout hkeeps' =>
    refine ⟨hkeeps'.cdt.trans (hkeeps.cdt.trans hscdt), ?_⟩
    cases hout with
    | plays _ h20 _ _ _ => exact absurd hid h20
    | pauses _ hms hphase _ hpos hblock' hplay' =>
      refine ⟨hblock'.trans hrb, by rw [hpos]; exact hnext, .inr ⟨hms, hphase, ?_, ?_⟩⟩
      · rw [hplay', hplay, hplaying]
      · rw [hkeeps'.lineMode, hkeeps.lineMode, hline]
    | stops hmark hphase hpos hblock' =>
      exact ⟨hblock'.trans hrb, by rw [hpos]; exact hnext, .inl ⟨hmark.2, hphase⟩⟩
    | unknown _ h20 _ _ _ => exact absurd hid h20

theorem not_agrees_startBlock {m : Nat} {q : Nat} (hsize : Sizable cdt) (hcdt : t.cdt = some cdt)
    (hn : walk cdt (t.block + 1) = some t.pos) (hlt : t.block < m) (hm : walk cdt m = some q)
    (hq : q < cdt.length) (hrest : ¬(Skipped cdt q ∨ StopMark cdt q)) : ¬Agrees cdt t.startBlock := by
  intro hagrees
  rw [not_or] at hrest
  obtain ⟨k, s, hle, hk, hblock, -, -, hall, hr⟩ := startBlock_rests hsize hcdt hn (Nat.le_succ _)
  have hkm : k ≤ m := by
    by_contra hgt
    exact hrest.1 (hall m q hlt (by omega) hm)
  have hsb : s.block + 1 = k := by omega
  -- it rests at block `k`, which is not behind `m`
  have hkq : s.pos ≤ q := by
    rcases Nat.eq_or_lt_of_le hkm with rfl | hlt'
    · rw [hk] at hm
      cases hm
      exact Nat.le_refl _
    · exact Nat.le_of_lt (walk_lt hlt' hk hm)
  cases hr with
  | ended hend _ => omega
  | entered hslt hout _ =>
    have hnext := hsize.walk_succ hk hslt
    -- with the cursor behind block `k`, neither the header nor the end of block `k - 1` is under it
    have hbehind : ∀ u : TapeState, u.block = s.block →
        u.pos = u32 (s.pos + tapeCdtBlockLen cdt s.pos) →
        ¬(walk cdt u.block = some u.pos ∨ walk cdt (u.block + 1) = some u.pos) := by
      intro u hub hup hcur
      rw [hub, hup, hsb] at hcur
      rcases hcur with h | h
      · have := walk_injective h hnext
        omega
      · have := walk_injective h hnext
        omega
    cases hout with
    | plays _ _ hplays hpos hblock' =>
      have hidle : t.startBlock.phase ≠ .idle := by
        intro hidle
        rw [hidle] at hplays
        exact hplays
      exact hbehind _ hblock' hpos ((hagrees.cursor (.inl hidle)).imp And.left And.left)
    | pauses _ _ hphase _ hpos hblock' _ =>
      have hidle : t.startBlock.phase ≠ .idle := by
        rw [hphase]
        decide
      exact hbehind _ hblock' hpos ((hagrees.cursor (.inl hidle)).imp And.left And.left)
    | stops hmark hphase hpos hblock' =>
      have hkm' : k < m := by
        rcases Nat.eq_or_lt_of_le hkm with rfl | hlt'
        · rw [hk] at hm
          cases hm
          exact absurd hmark hrest.2
        · exact hlt'
      have hle' : t.startBlock.pos ≤ q := by
        rw [hpos]
        rcases Nat.eq_or_lt_of_le hkm' with rfl | hlt'
        · rw [hnext] at hm
          cases hm
          exact Nat.le_refl _
        · exact Nat.le_of_lt (walk_lt hlt' hnext hm)
      exact hbehind _ hblock' hpos ((hagrees.cursor (.inr (by omega))).imp And.left And.left)
    | unknown _ _ hphase hpos hblock' =>
      rcases hagrees.cursor (.inr (by omega)) with ⟨h, -⟩ | ⟨-, hne⟩
      · rw [hblock', hpos] at h
        have := walk_injective h hk
        omega
      · exact hne hphase

theorem startFrom_cdt (fuel : Nat) (t : TapeState) : (TapeState.startFrom fuel t).cdt = t.cdt := by
  induction fuel generalizing t with
  | zero => rfl
  | succ fuel ih =>
    have hkeeps := enterBlock_keeps t (t.rd8 t.pos) (u32 (t.pos + 1))
    rw [TapeState.startFrom]
    split
    · rfl
    · split
      · rfl
      · split
        · next henter =>
          rw [henter] at hkeeps
          exact hkeeps.cdt
        · next henter =>
          rw [henter] at hkeeps
          exact (ih _).trans hkeeps.cdt

theorem attachCdt_cdt (h : t'.attachCdt cdt = some t) : t.cdt = some cdt := by
  unfold TapeState.attachCdt at h
  split at h
  · cases h
  · cases h
    unfold TapeState.rewind TapeState.play
    dsimp only
    split
    · split
      · exact startFrom_cdt _ _
      · rfl
    · rfl

/-! ## The images that keep the ordinal right -/

/-- Every run agrees exactly when no block 0x20 has anything left to count behind it. -/
theorem ordinals_iff (hsize : Sizable cdt) (hattach : t'.attachCdt cdt = some t) :
    (∀ ops, Agrees cdt (t.run ops)) ↔ PausesLast cdt := by
  have hcdt := attachCdt_cdt hattach
  constructor
  · intro hall n p hn hp hid m q hnm hm hq
    obtain ⟨s, hrun, hscdt, hblock, hnext, hphase⟩ := pressed_pause hsize hcdt hn hp hid
    have hle : s.pos ≤ q := by
      rcases Nat.eq_or_lt_of_le hnm with rfl | hlt
      · rw [hnext] at hm
        cases hm
        exact Nat.le_refl _
      · exact Nat.le_of_lt (walk_lt hlt hnext hm)
    have hagrees : Agrees cdt s := by
      rw [← hrun]
      exact hall _
    rcases hphase with ⟨hzero, hidle⟩ | ⟨hms, hpause, hplaying, hline⟩
    · -- behind a stop mark the deck waits at the next block with the mark's ordinal
      exfalso
      rcases hagrees.cursor (.inr (by omega)) with ⟨h, -⟩ | ⟨-, hne⟩
      · rw [hblock] at h
        have := walk_injective h hnext
        omega
      · exact hne hidle
    · refine ⟨hms, ?_⟩
      by_contra hrest
      have hafter := hall (pressedAt n ++ List.replicate (s.pauseCycles + 1) (.tick true))
      have hsplit : t.run (pressedAt n ++ List.replicate (s.pauseCycles + 1) (.tick true)) =
          (t.run (pressedAt n)).run (List.replicate (s.pauseCycles + 1) (.tick true)) :=
        List.foldl_append
      rw [hsplit, hrun, run_pause s.pauseCycles hpause hplaying hline rfl] at hafter
      have hnext' : walk cdt (s.block + 1) = some s.pos := by
        rw [hblock]
        exact hnext
      revert hafter
      apply not_agrees_startBlock hsize _ _ _ hm hq hrest
      · exact hscdt
      · exact hnext'
      · exact Nat.lt_of_le_of_lt (Nat.le_of_eq hblock) hnm
  · intro hlast ops
    exact (inserted_run hlast hsize (inserted_attach hlast hsize hattach) ops).agrees

end Steps

/-- The blocks of a short image, by their bytes. -/
def shortTape (blocks : List UInt8) : List UInt8 := TapeState.cdtMagic ++ [1, 20] ++ blocks

/-- A text, a tone, two pulses, a pause of half a second, and one more text. -/
def mixedTape : List UInt8 :=
  shortTape [0x30, 1, 0x41, 0x12, 0x78, 0x08, 0x04, 0x00, 0x13, 2, 0x9B, 0x02, 0xDF, 0x02, 0x20, 0xF4, 0x01, 0x30, 1, 0x42]

/-- Where its blocks begin. -/
def mixedStarts : List Nat := [10, 13, 18, 24, 27]

theorem mixedTape_walk {n p : Nat} (hn : walk mixedTape n = some p) (hp : p < mixedTape.length) :
    n < 5 ∧ p = mixedStarts.getD n 0 := by
  have hend : walk mixedTape 5 = some mixedTape.length := by decide
  have hstarts : ∀ n < 5, walk mixedTape n = some (mixedStarts.getD n 0) := by decide
  have hlt : n < 5 := by
    by_contra hge
    rcases Nat.eq_or_lt_of_le (Nat.not_lt.1 hge) with rfl | hlt
    · obtain rfl := Option.some.inj (hend.symm.trans hn)
      exact Nat.lt_irrefl _ hp
    · exact Nat.lt_asymm hp (walk_lt hlt hend hn)
  exact ⟨hlt, (Option.some.inj ((hstarts n hlt).symm.trans hn)).symm⟩

theorem ordinals_iff_mixedTape :
    ∃ t, TapeState.attachCdt mixedTape {} = some t ∧ ∀ ops, Agrees mixedTape (t.run ops) := by
  have hsize : Sizable mixedTape := by
    intro n p hn hp
    obtain ⟨hlt, rfl⟩ := mixedTape_walk hn hp
    revert n
    decide
  have hlast : PausesLast mixedTape := by
    intro n p hn hp hid m q hnm hm hq
    obtain ⟨hlt, rfl⟩ := mixedTape_walk hn hp
    obtain ⟨hlt', rfl⟩ := mixedTape_walk hm hq
    -- only the text is behind the pause
    have hpause : ∀ n < 5, ∀ m < 5, n < m ∧ cdtByte mixedTape (mixedStarts.getD n 0) = 0x20 →
        cdtWord mixedTape (mixedStarts.getD n 0 + 1) ≠ 0 ∧ cdtByte mixedTape (mixedStarts.getD m 0) = 0x30 := by decide
    obtain ⟨hms, htext⟩ := hpause n hlt m hlt' ⟨hnm, hid⟩
    exact ⟨hms, .inl (.inr (.inr (.inl htext)))⟩
  exact ⟨_, rfl, (ordinals_iff hsize rfl).2 hlast⟩

/-- A stop mark in front of a tone. -/
def markedTape : List UInt8 := shortTape [0x20, 0x00, 0x00, 0x12, 0x78, 0x08, 0x04, 0x00]

/-- PLAY stops at the mark; the deck waits at block 1 and reports block 0. -/
theorem markedTape_disagrees :
    ¬ ∀ (cdt : List UInt8) (t t' : TapeState), Sizable cdt → t'.attachCdt cdt = some t →
      ∀ ops, Agrees cdt (t.run ops) := by
  intro h
  have h2 : walk markedTape 2 = some 18 := by decide
  have hsize : Sizable markedTape := by
    intro n p hn hp
    have hlen : markedTape.length = 18 := rfl
    have hlt : n < 2 := by
      by_contra hge
      rcases Nat.eq_or_lt_of_le (Nat.not_lt.1 hge) with rfl | hlt
      · rw [h2] at hn
        cases hn
        omega
      · have := walk_lt hlt h2 hn
        omega
    have h1 : walk markedTape 1 = some 13 := by decide
    -- The tape holds two blocks, the mark and the tone.
    obtain rfl | rfl : n = 0 ∨ n = 1 := by omega
    · cases hn
      decide
    · rw [h1] at hn
      cases hn
      decide
  -- After one PLAY the deck stands behind the mark with the ordinal of the mark.
  have hagrees := h markedTape _ {} hsize rfl [.play true]
  have hcursor := hagrees.cursor (.inr (by decide))
  revert hcursor
  decide

end Koncepcja.Tape
