import Koncepcja.Debug.OpcodeTable
import Koncepcja.Lib.Search
import Mathlib.Data.Bool.AllAny
import Mathlib.Data.Nat.Bitwise
import Mathlib.Data.List.Pairwise

/-!
# The Disassembler

An instruction is decoded, its template filled in with its operands, and the code that it refers to is put on the
list of what is to be disassembled. From there the disassembler goes on to the next instruction, up to a return
or to the end of the memory.

## Main results

- `Size_eq`: the size of a line is the length of its instruction.
- `disassembleOne_eq`: what a line says does not depend on the lines there are.
- `mem_targets`: the jumps and the calls are followed.
-/

namespace Koncepcja.Debug

open Search (find)

set_option maxRecDepth 20000

/-- What the processor sees of the memory. -/
abbrev Memory := UInt16 → UInt8

/-! ## Decoding -/

/-- The raw bytes of an instruction, before any text. -/
structure RawInstr where
  op : Option Z80Opcode := none
  length : Nat := 1
  bytes : List UInt8 := []
  /-- Where the operands start. -/
  operands : Nat := 0
  operandCount : Nat := 0

/-- The prefix, the opcode, and which of the bytes is the opcode. -/
def decodePrefix (mem : Memory) (pos : UInt16) : OpcodePrefix × UInt8 × Nat :=
  let b0 := mem pos
  if b0 = 0xCB then
    (.CB, mem (pos + 1), 1)
  else if b0 = 0xED then
    (.ED, mem (pos + 1), 1)
  else if b0 = 0xDD ∨ b0 = 0xFD then
    let b1 := mem (pos + 1)
    if b1 = 0xCB then
      -- The displacement precedes the opcode.
      (if b0 = 0xDD then .DDCB else .FDCB, mem (pos + 3), 3)
    else
      (if b0 = 0xDD then .DD else .FD, b1, 1)
  else
    (.NONE, b0, 0)

def decodeAt (mem : Memory) (pos : UInt16) : RawInstr :=
  match decodePrefix mem pos with
  | (group, opcode, opcodeIndex) =>
  match z80OpcodeLookup group opcode with
  | none => { bytes := [mem pos] }
  | some entry =>
    { op := some entry
      length := entry.length
      bytes := (List.range (min entry.length 4)).map fun i => mem (pos + UInt16.ofNat i)
      operands := if group = .DDCB ∨ group = .FDCB then 2 else opcodeIndex + 1
      operandCount := entry.operandBytes }

/-- The bytes of the instruction as one number. -/
def packBytes (r : RawInstr) : Nat := (r.bytes.take r.length).foldl (fun packed b => (packed <<< 8) ||| b.toNat) 0

/-! ## Lines -/

/-- `%0<width>x` -/
def hex (width n : Nat) : List Char :=
  let digits := Nat.toDigits 16 n
  List.replicate (width - digits.length) '0' ++ digits

structure DisassembledLine where
  address_ : UInt16
  opcode_ : Nat
  instruction_ : List Char
  refAddress : UInt16 := 0
  refAddressString : List Char := []
  deriving DecidableEq

/-- The constructor. There is no reference where the source has -1. -/
def disassembledLine (address : UInt16) (opcode : Nat) (instruction : List Char) (refAddress : Option UInt16) :
    DisassembledLine :=
  match refAddress with
  | none => { address_ := address, opcode_ := opcode, instruction_ := instruction }
  | some refAddress =>
    { address_ := address
      opcode_ := opcode
      instruction_ := instruction
      refAddress := refAddress
      refAddressString := '$' :: hex 4 refAddress.toNat }

/-- The loop of `Size`, with the rounds that are left. -/
def sizeLoop (opcode : Nat) : Nat → Nat → Nat → Nat
  | 0, _, size => size
  | rounds + 1, limit, size => if limit ≤ opcode then sizeLoop opcode rounds (limit <<< 8) (size + 1) else size

/-- The number of significant bytes. -/
def DisassembledLine.Size (line : DisassembledLine) : Nat := sizeLoop line.opcode_ 7 0x100 1

/-- `std::set::insert`. A line at the same address stays. -/
def insertLine (line : DisassembledLine) : List DisassembledLine → List DisassembledLine
  | [] => [line]
  | l :: lines =>
    if line.address_ < l.address_ then line :: l :: lines
    else if l.address_ < line.address_ then l :: insertLine line lines
    else l :: lines

/-! ## One instruction -/

def addIfNew (address : UInt16) (result : List DisassembledLine) (worklist : List UInt16) : List UInt16 :=
  if result.any (·.address_ = address) then worklist else worklist ++ [address]

/-- The variables of `disassemble_one`. -/
structure Formatting where
  text : List Char
  oi : Nat := 0
  refAddress : Option UInt16 := none
  calledPoints : List UInt16

section Operands

variable (start : UInt16) (r : RawInstr) (result : List DisassembledLine)

def operand (i : Nat) : UInt8 := r.bytes.getD (r.operands + i) 0

def wordOperand (f : Formatting) : Formatting :=
  match find ['*', '*'] f.text with
  | none => f
  | some (before, after) =>
    let value := (operand r 0).toUInt16 ||| ((operand r 1).toUInt16 <<< 8)
    let text := before ++ '$' :: hex 4 value.toNat ++ after
    -- Only the targets of jumps and of calls are recorded.
    if ['c', 'a', 'l', 'l'].isPrefixOf text || ['j', 'p'].isPrefixOf text then
      { text, oi := 2, refAddress := some value, calledPoints := addIfNew value result f.calledPoints }
    else
      { f with text, oi := 2 }

/-- The byte operands, of which there are not more than the rounds that are left. -/
def byteOperands (isRelative : Bool) : Nat → Formatting → Formatting
  | 0, f => f
  | rounds + 1, f =>
    match find ['*'] f.text with
    | none => f
    | some (before, after) =>
      let value := operand r f.oi
      let text := before ++ '$' :: hex 2 value.toNat ++ after
      if isRelative then
        let target := start + UInt16.ofNat r.length + value.toInt8.toInt16.toUInt16
        byteOperands isRelative rounds
          { text := text ++ [' ', ' ', ';', ' ', '$'] ++ hex 4 target.toNat
            oi := f.oi + 1
            refAddress := some target
            calledPoints := addIfNew target result f.calledPoints }
      else
        byteOperands isRelative rounds { f with text, oi := f.oi + 1 }

end Operands

/-- The operands of a template, first the word and then the bytes. -/
def operands (start : UInt16) (r : RawInstr) (result : List DisassembledLine) (entry : Z80Opcode)
    (calledPoints : List UInt16) : Formatting :=
  let f := wordOperand r result { text := entry.mnemonic, calledPoints }
  byteOperands start r result entry.isRelative (f.text.count '*') f

def disassembleOne (mem : Memory) (start : UInt16) (result : List DisassembledLine) (calledPoints : List UInt16) :
    DisassembledLine × List UInt16 :=
  let r := decodeAt mem start
  match r.op with
  | none =>
    let b0 := (r.bytes.getD 0 0).toNat
    (disassembledLine start b0 (['d', 'b', ' ', '$'] ++ hex 1 b0) none, calledPoints)
  | some entry =>
    let f := operands start r result entry calledPoints
    (disassembledLine start (packBytes r) f.text f.refAddress, f.calledPoints)

def z80InstructionLength (mem : Memory) (pc : UInt16) : Nat := (decodeAt mem pc).length

def z80IsCallOrRst (mem : Memory) (pc : UInt16) : Bool :=
  match (decodeAt mem pc).op with
  | none => false
  | some entry => ['c', 'a', 'l', 'l'].isPrefixOf entry.mnemonic || ['r', 's', 't'].isPrefixOf entry.mnemonic

/-! ## The size of a line -/

theorem shiftLeft_or_byte (packed : Nat) (b : UInt8) : (packed <<< 8) ||| b.toNat = packed * 256 + b.toNat :=
  (Nat.shiftLeft_add_eq_or_of_lt b.toNat_lt packed).symm.trans (by rw [Nat.shiftLeft_eq])

theorem one_le_sizeLoop (opcode rounds limit : Nat) {size : Nat} (h : 1 ≤ size) :
    1 ≤ sizeLoop opcode rounds limit size := by
  induction rounds generalizing limit size with
  | zero => exact h
  | succ rounds ih =>
    rw [sizeLoop]
    split
    · exact ih _ (Nat.le_succ_of_le h)
    · exact h

theorem DisassembledLine.one_le_Size (line : DisassembledLine) : 1 ≤ line.Size :=
  one_le_sizeLoop line.opcode_ 7 0x100 le_rfl

theorem sizeLoop_eq {opcode n : Nat} (hlow : ∀ m < n, 1 ≤ m → 256 ^ m ≤ opcode) (hhigh : opcode < 256 ^ n)
    (rounds size : Nat) (hsize : 1 ≤ size) (hle : size ≤ n) (hrounds : n ≤ size + rounds) :
    sizeLoop opcode rounds (256 ^ size) size = n := by
  induction rounds generalizing size with
  | zero => exact Nat.le_antisymm hle hrounds
  | succ rounds ih =>
    rw [sizeLoop]
    rcases Nat.eq_or_lt_of_le hle with rfl | hlt
    · exact if_neg (Nat.not_le.2 hhigh)
    · have hlimit : (256 ^ size) <<< 8 = 256 ^ (size + 1) := Nat.shiftLeft_eq _ 8
      rw [if_pos (hlow size hlt hsize), hlimit]
      exact ih (size + 1) (Nat.le_add_left 1 size) hlt (by omega)

theorem packed_lt (bytes : List UInt8) {packed k : Nat} (h : packed < 256 ^ k) :
    bytes.foldl (fun packed b => (packed <<< 8) ||| b.toNat) packed < 256 ^ (k + bytes.length) := by
  induction bytes generalizing packed k with
  | nil => exact h
  | cons b bytes ih =>
    have hb := b.toNat_lt
    rw [List.foldl_cons, List.length_cons, Nat.add_comm bytes.length, ← Nat.add_assoc]
    refine ih ?_
    rw [shiftLeft_or_byte, Nat.pow_succ]
    omega

theorem le_packed (bytes : List UInt8) {packed k : Nat} (h : 256 ^ k ≤ packed) :
    256 ^ (k + bytes.length) ≤ bytes.foldl (fun packed b => (packed <<< 8) ||| b.toNat) packed := by
  induction bytes generalizing packed k with
  | nil => exact h
  | cons b bytes ih =>
    rw [List.foldl_cons, List.length_cons, Nat.add_comm bytes.length, ← Nat.add_assoc]
    refine ih ?_
    rw [shiftLeft_or_byte, Nat.pow_succ]
    omega

theorem sizeLoop_packed {bytes : List UInt8} (hpos : 1 ≤ bytes.length) (hle : bytes.length ≤ 4)
    (hfirst : bytes.length = 1 ∨ bytes.getD 0 0 ≠ 0) :
    sizeLoop (bytes.foldl (fun packed b => (packed <<< 8) ||| b.toNat) 0) 7 0x100 1 = bytes.length := by
  refine sizeLoop_eq (fun m hm hm1 => ?_) ?_ 7 1 le_rfl hpos (by omega)
  · obtain ⟨b, rest, rfl⟩ := List.exists_cons_of_length_pos hpos
    have hb : b.toNat ≠ 0 := fun hb => (hfirst.resolve_left (by omega)) (UInt8.toNat_inj.1 hb)
    have hpacked := @le_packed rest b.toNat 0 (by omega)
    rw [Nat.zero_add] at hpacked
    rw [List.foldl_cons, Nat.zero_shiftLeft, Nat.zero_or]
    exact (Nat.pow_le_pow_right (by decide) (Nat.le_of_lt_succ hm)).trans hpacked
  · have hpacked := @packed_lt bytes 0 0 Nat.one_pos
    rwa [Nat.zero_add] at hpacked

section Decode

variable {mem : Memory} {pos : UInt16} {group : OpcodePrefix} {opcode : UInt8} {index : Nat}

theorem decodeAt_none (h : decodePrefix mem pos = (group, opcode, index))
    (hentry : z80OpcodeLookup group opcode = none) : decodeAt mem pos = { bytes := [mem pos] } := by
  simp only [decodeAt, h, hentry]

theorem decodeAt_some (h : decodePrefix mem pos = (group, opcode, index)) {entry : Z80Opcode}
    (hentry : z80OpcodeLookup group opcode = some entry) : decodeAt mem pos =
      { op := some entry
        length := entry.length
        bytes := (List.range entry.length).map fun i => mem (pos + UInt16.ofNat i)
        operands := if group = .DDCB ∨ group = .FDCB then 2 else index + 1
        operandCount := entry.operandBytes } := by
  simp only [decodeAt, h, hentry, Nat.min_eq_left (lookup_length hentry).2]

end Decode

theorem decode_bytes (mem : Memory) (pos : UInt16) :
    1 ≤ (decodeAt mem pos).length ∧ (decodeAt mem pos).length ≤ 4 ∧
      (decodeAt mem pos).bytes = (List.range (decodeAt mem pos).length).map fun i => mem (pos + UInt16.ofNat i) := by
  rcases hp : decodePrefix mem pos with ⟨group, opcode, index⟩
  cases hentry : z80OpcodeLookup group opcode with
  | none =>
    rw [decodeAt_none hp hentry]
    exact ⟨le_rfl, (by decide : 1 ≤ 4), congrArg (fun a => [mem a]) (UInt16.add_zero pos).symm⟩
  | some entry =>
    rw [decodeAt_some hp hentry]
    exact ⟨(lookup_length hentry).1, (lookup_length hentry).2, rfl⟩

theorem decode_first (mem : Memory) (pos : UInt16) : (decodeAt mem pos).length = 1 ∨ mem pos ≠ 0 := by
  by_cases h0 : mem pos = 0
  · have hp : decodePrefix mem pos = (.NONE, 0, 0) := by
      rw [ decodePrefix, h0]
      rfl
    have hnop : ∃ entry, z80OpcodeLookup .NONE 0 = some entry ∧ entry.length = 1 :=
      ⟨row 1 ['n', 'o', 'p'], by decide, by decide⟩
    obtain ⟨entry, hentry, hlength⟩ := hnop
    left
    rw [decodeAt_some hp hentry]
    exact hlength
  · exact Or.inr h0

/-! ## The line of an address -/

/-- The line that is made where there are none. -/
def lineAt (mem : Memory) (a : UInt16) : DisassembledLine := (disassembleOne mem a [] []).1

/-- The code that the instruction refers to. -/
def targets (mem : Memory) (a : UInt16) : List UInt16 := (disassembleOne mem a [] []).2

@[simp] theorem disassembledLine_address (a : UInt16) (opcode : Nat) (text : List Char) (ref : Option UInt16) :
    (disassembledLine a opcode text ref).address_ = a := by cases ref <;> rfl

@[simp] theorem disassembledLine_opcode (a : UInt16) (opcode : Nat) (text : List Char) (ref : Option UInt16) :
    (disassembledLine a opcode text ref).opcode_ = opcode := by cases ref <;> rfl

@[simp] theorem disassembledLine_instruction (a : UInt16) (opcode : Nat) (text : List Char) (ref : Option UInt16) :
    (disassembledLine a opcode text ref).instruction_ = text := by cases ref <;> rfl

theorem lineAt_address (mem : Memory) (a : UInt16) : (lineAt mem a).address_ = a := by
  rw [lineAt, disassembleOne]
  cases (decodeAt mem a).op <;> exact disassembledLine_address _ _ _ _

theorem bytes_getD (mem : Memory) (a : UInt16) : (decodeAt mem a).bytes.getD 0 0 = mem a := by
  obtain ⟨hpos, -, hbytes⟩ := decode_bytes mem a
  rw [hbytes, List.getD_eq_getElem _ _ (by rw [List.length_map, List.length_range]; exact hpos),
    List.getElem_map, List.getElem_range]
  exact congrArg mem (UInt16.add_zero a)

theorem decode_op_none {mem : Memory} {a : UInt16} (h : (decodeAt mem a).op = none) :
    (decodeAt mem a).length = 1 := by
  rcases hp : decodePrefix mem a with ⟨group, opcode, index⟩
  cases hentry : z80OpcodeLookup group opcode with
  | none => rw [decodeAt_none hp hentry]
  | some entry =>
    rw [decodeAt_some hp hentry] at h
    cases h

/-- The size of a line is the length of its instruction. -/
theorem Size_eq (mem : Memory) (a : UInt16) : (lineAt mem a).Size = z80InstructionLength mem a := by
  obtain ⟨hpos, hle, hbytes⟩ := decode_bytes mem a
  have hlength : (decodeAt mem a).bytes.length = (decodeAt mem a).length := by
    rw [hbytes, List.length_map, List.length_range]
  rw [DisassembledLine.Size, lineAt, disassembleOne, z80InstructionLength]
  cases hop : (decodeAt mem a).op with
  | none =>
    rw [decode_op_none hop]
    exact sizeLoop_eq (fun m hm hm1 => absurd hm (Nat.not_lt.2 hm1)) (UInt8.toNat_lt _) 7 1 le_rfl le_rfl (by decide)
  | some entry =>
    show sizeLoop (disassembledLine _ _ _ _).opcode_ 7 0x100 1 = _
    rw [disassembledLine_opcode, packBytes, ← hlength, List.take_length]
    refine sizeLoop_packed (hlength ▸ hpos) (hlength ▸ hle) ?_
    rw [bytes_getD, hlength]
    exact decode_first mem a

/-! ## The lines there are -/

/-- The addresses that have no line yet. -/
def fresh (result : List DisassembledLine) (points : List UInt16) : List UInt16 :=
  points.filter fun a => !result.any (·.address_ = a)

/-- The formatting goes on the same where there are lines, except that some of the code is known. -/
structure Alike (result : List DisassembledLine) (calledPoints : List UInt16) (f f₀ : Formatting) : Prop where
  text : f.text = f₀.text
  oi : f.oi = f₀.oi
  refAddress : f.refAddress = f₀.refAddress
  calledPoints : f.calledPoints = calledPoints ++ fresh result f₀.calledPoints

theorem addIfNew_eq (a : UInt16) (result : List DisassembledLine) (worklist : List UInt16) :
    addIfNew a result worklist = worklist ++ fresh result [a] := by
  rw [addIfNew, fresh]
  cases h : result.any (·.address_ = a) with
  | true => rw [if_pos rfl, List.filter_singleton, h]; exact (List.append_nil _).symm
  | false => rw [if_neg Bool.false_ne_true, List.filter_singleton, h]; rfl

section Alike

variable {result : List DisassembledLine} {calledPoints : List UInt16} {f f₀ : Formatting}

theorem Alike.add (h : Alike result calledPoints f f₀) (text : List Char) (oi : Nat) (ref : Option UInt16)
    (a : UInt16) : Alike result calledPoints ⟨text, oi, ref, addIfNew a result f.calledPoints⟩
      ⟨text, oi, ref, addIfNew a [] f₀.calledPoints⟩ := by
  refine ⟨rfl, rfl, rfl, ?_⟩
  show addIfNew a result f.calledPoints = calledPoints ++ fresh result (addIfNew a [] f₀.calledPoints)
  rw [addIfNew_eq, addIfNew_eq, h.calledPoints, List.append_assoc, fresh, fresh, fresh, ← List.filter_append]
  rfl

theorem Alike.wordOperand (h : Alike result calledPoints f f₀) (r : RawInstr) :
    Alike result calledPoints (wordOperand r result f) (wordOperand r [] f₀) := by
  rw [Debug.wordOperand, Debug.wordOperand, h.text]
  cases find ['*', '*'] f₀.text with
  | none => exact h
  | some p =>
    simp only
    split
    · exact h.add _ _ _ _
    · exact ⟨rfl, rfl, h.refAddress, h.calledPoints⟩

theorem Alike.byteOperands (start : UInt16) (r : RawInstr) (isRelative : Bool) (rounds : Nat)
    (h : Alike result calledPoints f f₀) :
    Alike result calledPoints (byteOperands start r result isRelative rounds f)
      (byteOperands start r [] isRelative rounds f₀) := by
  induction rounds generalizing f f₀ with
  | zero => exact h
  | succ rounds ih =>
    rw [Debug.byteOperands, Debug.byteOperands, h.text, h.oi]
    cases find ['*'] f₀.text with
    | none => exact h
    | some p =>
      cases isRelative with
      | true => exact ih (h.add _ _ _ _)
      | false => exact ih ⟨rfl, rfl, h.refAddress, h.calledPoints⟩

end Alike

/-- What a line says does not depend on the lines there are, and of the code that it refers to that is put on the
    list which has no line. -/
theorem disassembleOne_eq (mem : Memory) (a : UInt16) (result : List DisassembledLine) (calledPoints : List UInt16) :
    disassembleOne mem a result calledPoints = (lineAt mem a, calledPoints ++ fresh result (targets mem a)) := by
  rw [lineAt, targets, disassembleOne, disassembleOne]
  cases (decodeAt mem a).op with
  | none => exact Prod.ext rfl (List.append_nil _).symm
  | some entry =>
    have hstart : Alike result calledPoints ⟨entry.mnemonic, 0, none, calledPoints⟩ ⟨entry.mnemonic, 0, none, []⟩ :=
      ⟨rfl, rfl, rfl, (List.append_nil _).symm⟩
    have hword := hstart.wordOperand (decodeAt mem a)
    have hend := hword.byteOperands a (decodeAt mem a) entry.isRelative
      ((wordOperand (decodeAt mem a) result ⟨entry.mnemonic, 0, none, calledPoints⟩).text.count '*')
    nth_rewrite 2 [hword.text] at hend
    refine Prod.ext ?_ hend.calledPoints
    exact congrArg₂ (disassembledLine a (packBytes (decodeAt mem a))) hend.text hend.refAddress

/-! ## The return -/

/-- A template whose operands have been filled in has a dollar in it. -/
def Filled (template text : List Char) : Prop := text = template ∨ '$' ∈ text

theorem wordOperand_filled (r : RawInstr) (result : List DisassembledLine) {template : List Char} {f : Formatting}
    (h : Filled template f.text) : Filled template (wordOperand r result f).text := by
  rw [wordOperand]
  cases find ['*', '*'] f.text with
  | none => exact h
  | some p =>
    simp only
    split <;> exact Or.inr (List.mem_append_left _ (List.mem_append_right _ List.mem_cons_self))

theorem byteOperands_filled (start : UInt16) (r : RawInstr) (result : List DisassembledLine) (isRelative : Bool)
    (rounds : Nat) {template : List Char} {f : Formatting} (h : Filled template f.text) :
    Filled template (byteOperands start r result isRelative rounds f).text := by
  induction rounds generalizing f with
  | zero => exact h
  | succ rounds ih =>
    rw [byteOperands]
    cases find ['*'] f.text with
    | none => exact h
    | some p =>
      have hdollar : '$' ∈ p.1 ++ '$' :: hex 2 (operand r f.oi).toNat ++ p.2 :=
        List.mem_append_left _ (List.mem_append_right _ List.mem_cons_self)
      cases isRelative with
      | true => exact ih (Or.inr (List.mem_append_left _ (List.mem_append_left _ hdollar)))
      | false => exact ih (Or.inr hdollar)

theorem lineAt_ret {mem : Memory} {a : UInt16} (h : (lineAt mem a).instruction_ = ['r', 'e', 't']) :
    mem a = 0xC9 := by
  rcases hp : decodePrefix mem a with ⟨group, opcode, index⟩
  rw [lineAt, disassembleOne] at h
  cases hentry : z80OpcodeLookup group opcode with
  | none =>
    rw [decodeAt_none hp hentry] at h
    cases h
  | some entry =>
    rw [decodeAt_some hp hentry] at h
    have htext := (disassembledLine_instruction _ _ _ _).symm.trans h
    have hfilled : Filled entry.mnemonic ['r', 'e', 't'] :=
      htext ▸ byteOperands_filled _ _ _ _ _ (wordOperand_filled _ _ (Or.inl rfl))
    obtain ⟨rfl, rfl⟩ := lookup_ret hentry (hfilled.resolve_right (by decide)).symm
    -- Without a prefix the opcode is the first byte.
    have hopcode : ( decodePrefix mem a).1 = .NONE → ( decodePrefix mem a).2.1 = mem a := by
      unfold decodePrefix
      dsimp only
      split_ifs <;> intro hgroup
      all_goals first | rfl | cases hgroup
    rw [hp] at hopcode
    exact (hopcode rfl).symm

/-! ## Jumps and calls -/

/-- `jp` and `call`, with and without a condition. -/
def isAbsolute (b : UInt8) : Bool := b = 0xC3 || b &&& 0xC7 = 0xC2 || b = 0xCD || b &&& 0xC7 = 0xC4

/-- `djnz` and `jr`, with and without a condition. -/
def isRelative (b : UInt8) : Bool := b = 0x10 || b = 0x18 || b &&& 0xE7 = 0x20

/-- The operand of the instruction at `a` is the address `t`, or the way there. -/
def StaticTarget (mem : Memory) (a t : UInt16) : Prop :=
  isAbsolute (mem a) ∧ t = (mem (a + 1)).toUInt16 ||| ((mem (a + 2)).toUInt16 <<< 8) ∨
    isRelative (mem a) ∧ t = a + 2 + (mem (a + 1)).toInt8.toInt16.toUInt16

/-- A row that the word operand is recorded for. -/
def absoluteRow (entry : Z80Opcode) : Bool :=
  entry.length = 3 && (find ['*', '*'] entry.mnemonic).any fun p =>
    ['c', 'a', 'l', 'l'].isPrefixOf p.1 || ['j', 'p'].isPrefixOf p.1

/-- A row that a byte operand is recorded for. -/
def relativeRow (entry : Z80Opcode) : Bool :=
  entry.length = 2 && entry.isRelative && entry.mnemonic.count '*' = 1 && find ['*', '*'] entry.mnemonic = none &&
    (find ['*'] entry.mnemonic).isSome

theorem rows : ∀ n < 256,
    (isAbsolute (UInt8.ofNat n) → (z80OpcodeLookup .NONE (UInt8.ofNat n)).any absoluteRow) ∧
      (isRelative (UInt8.ofNat n) → (z80OpcodeLookup .NONE (UInt8.ofNat n)).any relativeRow) := by
  decide

theorem row_of_absolute {b : UInt8} (h : isAbsolute b) :
    ∃ entry, z80OpcodeLookup .NONE b = some entry ∧ absoluteRow entry := by
  have hrow := (rows b.toNat b.toNat_lt).1
  rw [UInt8.ofNat_toNat] at hrow
  exact (Option.any_eq_true _ _).1 (hrow h)

theorem row_of_relative {b : UInt8} (h : isRelative b) :
    ∃ entry, z80OpcodeLookup .NONE b = some entry ∧ relativeRow entry := by
  have hrow := (rows b.toNat b.toNat_lt).2
  rw [UInt8.ofNat_toNat] at hrow
  exact (Option.any_eq_true _ _).1 (hrow h)

theorem decodePrefix_none {mem : Memory} {a : UInt16}
    (h : mem a ∉ ([0xCB, 0xED, 0xDD, 0xFD] : List UInt8)) : decodePrefix mem a = (.NONE, mem a, 0) := by
  simp only [List.mem_cons, List.not_mem_nil, or_false, not_or] at h
  obtain ⟨hcb, hed, hdd, hfd⟩ := h
  simp only [ decodePrefix, hcb, hed, hdd, hfd, or_self, if_false]

theorem byteOperands_mono (start : UInt16) (r : RawInstr) (isRelative : Bool) (rounds : Nat) {f : Formatting}
    {t : UInt16} (h : t ∈ f.calledPoints) : t ∈ (byteOperands start r [] isRelative rounds f).calledPoints := by
  induction rounds generalizing f with
  | zero => exact h
  | succ rounds ih =>
    rw [byteOperands]
    cases find ['*'] f.text with
    | none => exact h
    | some p =>
      cases isRelative with
      | true => exact ih (List.mem_append_left _ h)
      | false => exact ih h

theorem prefixes_not_static : ∀ b ∈ ([0xCB, 0xED, 0xDD, 0xFD] : List UInt8), ¬isAbsolute b ∧ ¬isRelative b :=
  List.all_iff_forall_prop.mp (by decide)

theorem operand_none {mem : Memory} {a : UInt16} {opcode : UInt8} {entry : Z80Opcode}
    (hp : decodePrefix mem a = (.NONE, opcode, 0)) (hentry : z80OpcodeLookup .NONE opcode = some entry) {i : Nat}
    (hi : i + 1 < entry.length) : operand (decodeAt mem a) i = mem (a + UInt16.ofNat (i + 1)) := by
  have hlength : 1 + i < ((List.range entry.length).map fun i => mem (a + UInt16.ofNat i)).length := by
    rwa [List.length_map, List.length_range, Nat.add_comm]
  rw [decodeAt_some hp hentry]
  refine (List.getD_eq_getElem _ _ hlength).trans ?_
  rw [List.getElem_map, List.getElem_range, Nat.add_comm]

theorem wordOperand_recorded (r : RawInstr) {f : Formatting} {before after : List Char}
    (hfind : find ['*', '*'] f.text = some (before, after))
    (hname : ['c', 'a', 'l', 'l'].isPrefixOf before || ['j', 'p'].isPrefixOf before) :
    (operand r 0).toUInt16 ||| ((operand r 1).toUInt16 <<< 8) ∈ (wordOperand r [] f).calledPoints := by
  -- What is put in the place of the stars does not change how the text begins.
  have hbegins (name value : List Char) (hpre : name.isPrefixOf before) :
      name.isPrefixOf (before ++ value ++ after) := by
    rw [List.isPrefixOf_iff_prefix] at hpre ⊢
    exact (hpre.trans (List.prefix_append _ _)).trans (List.prefix_append _ _)
  have htext (value : List Char) : (['c', 'a', 'l', 'l'].isPrefixOf (before ++ value ++ after) ||
      ['j', 'p'].isPrefixOf (before ++ value ++ after)) = true :=
    Bool.or_eq_true_iff.2 ((Bool.or_eq_true_iff.1 hname).imp (hbegins _ value) (hbegins _ value))
  rw [wordOperand, hfind]
  simp only [htext, if_true]
  exact List.mem_append_right _ List.mem_cons_self

theorem byteOperands_recorded (start : UInt16) (r : RawInstr) (rounds : Nat) {f : Formatting}
    (hfind : (find ['*'] f.text).isSome) :
    start + UInt16.ofNat r.length + (operand r f.oi).toInt8.toInt16.toUInt16 ∈
      (byteOperands start r [] true (rounds + 1) f).calledPoints := by
  obtain ⟨⟨before, after⟩, hfind⟩ := Option.isSome_iff_exists.1 hfind
  rw [byteOperands, hfind]
  exact byteOperands_mono _ _ _ _ (List.mem_append_right _ List.mem_cons_self)

/-- The jumps and the calls are followed. -/
theorem mem_targets {mem : Memory} {a t : UInt16} (h : StaticTarget mem a t) : t ∈ targets mem a := by
  rw [targets, disassembleOne]
  rcases h with ⟨hb, rfl⟩ | ⟨hb, rfl⟩
  · obtain ⟨entry, hentry, hrow⟩ := row_of_absolute hb
    have hp := decodePrefix_none fun hmem => (prefixes_not_static _ hmem).1 hb
    have hop : (decodeAt mem a).op = some entry := by rw [decodeAt_some hp hentry]
    simp only [absoluteRow, Bool.and_eq_true, decide_eq_true_eq, Option.any_eq_true] at hrow
    obtain ⟨hlength, ⟨before, after⟩, hfind, hname⟩ := hrow
    have hrecorded := wordOperand_recorded (decodeAt mem a) (f := ⟨entry.mnemonic, 0, none, []⟩) hfind hname
    rw [operand_none hp hentry (by omega), operand_none hp hentry (by omega)] at hrecorded
    simp only [hop]
    exact byteOperands_mono _ _ _ _ hrecorded
  · obtain ⟨entry, hentry, hrow⟩ := row_of_relative hb
    have hp := decodePrefix_none fun hmem => (prefixes_not_static _ hmem).2 hb
    have hop : (decodeAt mem a).op = some entry := by rw [decodeAt_some hp hentry]
    simp only [relativeRow, Bool.and_eq_true, decide_eq_true_eq] at hrow
    obtain ⟨⟨⟨⟨hlength, hrel⟩, hcount⟩, hword⟩, hfind⟩ := hrow
    have hbytes : (decodeAt mem a).length = 2 := by rw [decodeAt_some hp hentry, ← hlength]
    have hrecorded := byteOperands_recorded a (decodeAt mem a) 0 (f := ⟨entry.mnemonic, 0, none, []⟩) hfind
    rw [operand_none hp hentry (i := 0) (by omega), hbytes] at hrecorded
    simp only [hop, operands, wordOperand, hword, hrel, hcount]
    exact hrecorded

end Koncepcja.Debug
