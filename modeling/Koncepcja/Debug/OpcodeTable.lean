import Mathlib.Data.List.Basic
import Mathlib.Data.UInt

/-!
# The Master Opcode Table

The mnemonic of an instruction is a template: a star stands for an operand byte, two stars for a word.

## Main results

- `lookup_length`: an instruction is between one and four bytes long.
- `lookup_ret`: one opcode alone is the plain return.
-/

namespace Koncepcja.Debug

set_option maxRecDepth 20000

/-- The characters of a C string, one for each byte. -/
def chars (s : String) : List Char := s.toUTF8.data.toList.map fun b => Char.ofNat b.toNat

/-- Prefix group for the opcode. -/
inductive OpcodePrefix where
  | NONE | CB | ED | DD | FD | DDCB | FDCB
  deriving DecidableEq

structure Z80Opcode where
  mnemonic : List Char
  length : Nat
  operandBytes : Nat
  isRelative : Bool
  deriving DecidableEq

/-- A row of the table. The operands are the stars, and the relative jumps are those of `jr` and `djnz`. -/
def row (prefixBytes : Nat) (mnemonic : List Char) : Z80Opcode where
  mnemonic
  length := prefixBytes + mnemonic.count '*'
  operandBytes := mnemonic.count '*'
  isRelative := ['j', 'r'].isPrefixOf mnemonic || ['d', 'j', 'n', 'z'].isPrefixOf mnemonic

/-- The opcodes without a prefix. The four prefixes are no opcodes. -/
def baseTable : List String := [
    "nop", "ld bc,**", "ld (bc),a", "inc bc", "inc b", "dec b", "ld b,*", "rlca",
    "ex af,af'", "add hl,bc", "ld a,(bc)", "dec bc", "inc c", "dec c", "ld c,*", "rrca",
    "djnz *", "ld de,**", "ld (de),a", "inc de", "inc d", "dec d", "ld d,*", "rla",
    "jr *", "add hl,de", "ld a,(de)", "dec de", "inc e", "dec e", "ld e,*", "rra",
    "jr nz,*", "ld hl,**", "ld (**),hl", "inc hl", "inc h", "dec h", "ld h,*", "daa",
    "jr z,*", "add hl,hl", "ld hl,(**)", "dec hl", "inc l", "dec l", "ld l,*", "cpl",
    "jr nc,*", "ld sp,**", "ld (**),a", "inc sp", "inc (hl)", "dec (hl)", "ld (hl),*", "scf",
    "jr c,*", "add hl,sp", "ld a,(**)", "dec sp", "inc a", "dec a", "ld a,*", "ccf",
    "ld b,b", "ld b,c", "ld b,d", "ld b,e", "ld b,h", "ld b,l", "ld b,(hl)", "ld b,a",
    "ld c,b", "ld c,c", "ld c,d", "ld c,e", "ld c,h", "ld c,l", "ld c,(hl)", "ld c,a",
    "ld d,b", "ld d,c", "ld d,d", "ld d,e", "ld d,h", "ld d,l", "ld d,(hl)", "ld d,a",
    "ld e,b", "ld e,c", "ld e,d", "ld e,e", "ld e,h", "ld e,l", "ld e,(hl)", "ld e,a",
    "ld h,b", "ld h,c", "ld h,d", "ld h,e", "ld h,h", "ld h,l", "ld h,(hl)", "ld h,a",
    "ld l,b", "ld l,c", "ld l,d", "ld l,e", "ld l,h", "ld l,l", "ld l,(hl)", "ld l,a",
    "ld (hl),b", "ld (hl),c", "ld (hl),d", "ld (hl),e", "ld (hl),h", "ld (hl),l", "halt", "ld (hl),a",
    "ld a,b", "ld a,c", "ld a,d", "ld a,e", "ld a,h", "ld a,l", "ld a,(hl)", "ld a,a",
    "add a,b", "add a,c", "add a,d", "add a,e", "add a,h", "add a,l", "add a,(hl)", "add a,a",
    "adc a,b", "adc a,c", "adc a,d", "adc a,e", "adc a,h", "adc a,l", "adc a,(hl)", "adc a,a",
    "sub b", "sub c", "sub d", "sub e", "sub h", "sub l", "sub (hl)", "sub a",
    "sbc a,b", "sbc a,c", "sbc a,d", "sbc a,e", "sbc a,h", "sbc a,l", "sbc a,(hl)", "sbc a,a",
    "and b", "and c", "and d", "and e", "and h", "and l", "and (hl)", "and a",
    "xor b", "xor c", "xor d", "xor e", "xor h", "xor l", "xor (hl)", "xor a",
    "or b", "or c", "or d", "or e", "or h", "or l", "or (hl)", "or a",
    "cp b", "cp c", "cp d", "cp e", "cp h", "cp l", "cp (hl)", "cp a",
    "ret nz", "pop bc", "jp nz,**", "jp **", "call nz,**", "push bc", "add a,*", "rst 00h",
    "ret z", "ret", "jp z,**", "", "call z,**", "call **", "adc a,*", "rst 08h",
    "ret nc", "pop de", "jp nc,**", "out (*),a", "call nc,**", "push de", "sub *", "rst 10h",
    "ret c", "exx", "jp c,**", "in a,(*)", "call c,**", "", "sbc a,*", "rst 18h",
    "ret po", "pop hl", "jp po,**", "ex (sp),hl", "call po,**", "push hl", "and *", "rst 20h",
    "ret pe", "jp (hl)", "jp pe,**", "ex de,hl", "call pe,**", "", "xor *", "rst 28h",
    "ret p", "pop af", "jp p,**", "di", "call p,**", "push af", "or *", "rst 30h",
    "ret m", "ld sp,hl", "jp m,**", "ei", "call m,**", "", "cp *", "rst 38h"]

/-- The opcodes after `ED`. -/
def edTable : List (Nat × String) := [
    (0x40, "in b,(c)"), (0x41, "out (c),b"), (0x42, "sbc hl,bc"), (0x43, "ld (**),bc"), (0x44, "neg"),
    (0x45, "retn"), (0x46, "im 0"), (0x47, "ld i,a"), (0x48, "in c,(c)"), (0x49, "out (c),c"), (0x4a, "adc hl,bc"),
    (0x4b, "ld bc,(**)"), (0x4c, "neg"), (0x4d, "reti"), (0x4e, "im 0/1"), (0x4f, "ld r,a"), (0x50, "in d,(c)"),
    (0x51, "out (c),d"), (0x52, "sbc hl,de"), (0x53, "ld (**),de"), (0x54, "neg"), (0x55, "retn"), (0x56, "im 1"),
    (0x57, "ld a,i"), (0x58, "in e,(c)"), (0x59, "out (c),e"), (0x5a, "adc hl,de"), (0x5b, "ld de,(**)"),
    (0x5c, "neg"), (0x5d, "retn"), (0x5e, "im 2"), (0x5f, "ld a,r"), (0x60, "in h,(c)"), (0x61, "out (c),h"),
    (0x62, "sbc hl,hl"), (0x63, "ld (**),hl"), (0x64, "neg"), (0x65, "retn"), (0x66, "im 0"), (0x67, "rrd"),
    (0x68, "in l,(c)"), (0x69, "out (c),l"), (0x6a, "adc hl,hl"), (0x6b, "ld hl,(**)"), (0x6c, "neg"),
    (0x6d, "retn"), (0x6e, "im 0/1"), (0x6f, "rld"), (0x70, "in (c)"), (0x71, "out (c),0"), (0x72, "sbc hl,sp"),
    (0x73, "ld (**),sp"), (0x74, "neg"), (0x75, "retn"), (0x76, "im 1"), (0x78, "in a,(c)"), (0x79, "out (c),a"),
    (0x7a, "adc hl,sp"), (0x7b, "ld sp,(**)"), (0x7c, "neg"), (0x7d, "retn"), (0x7e, "im 2"), (0xa0, "ldi"),
    (0xa1, "cpi"), (0xa2, "ini"), (0xa3, "outi"), (0xa8, "ldd"), (0xa9, "cpd"), (0xaa, "ind"), (0xab, "outd"),
    (0xb0, "ldir"), (0xb1, "cpir"), (0xb2, "inir"), (0xb3, "otir"), (0xb8, "lddr"), (0xb9, "cpdr"), (0xba, "indr"),
    (0xbb, "otdr")]

/-- The opcodes after `DD`. -/
def ddTable : List (Nat × String) := [
    (0x09, "add ix,bc"), (0x19, "add ix,de"), (0x21, "ld ix,**"), (0x22, "ld (**),ix"), (0x23, "inc ix"),
    (0x24, "inc ixh"), (0x25, "dec ixh"), (0x26, "ld ixh,*"), (0x29, "add ix,ix"), (0x2a, "ld ix,(**)"),
    (0x2b, "dec ix"), (0x2c, "inc ixl"), (0x2d, "dec ixl"), (0x2e, "ld ixl,*"), (0x34, "inc (ix+*)"),
    (0x35, "dec (ix+*)"), (0x36, "ld (ix+*),*"), (0x39, "add ix,sp"), (0x44, "ld b,ixh"), (0x45, "ld b,ixl"),
    (0x46, "ld b,(ix+*)"), (0x4c, "ld c,ixh"), (0x4d, "ld c,ixl"), (0x4e, "ld c,(ix+*)"), (0x54, "ld d,ixh"),
    (0x55, "ld d,ixl"), (0x56, "ld d,(ix+*)"), (0x5c, "ld e,ixh"), (0x5d, "ld e,ixl"), (0x5e, "ld e,(ix+*)"),
    (0x60, "ld ixh,b"), (0x61, "ld ixh,c"), (0x62, "ld ixh,d"), (0x63, "ld ixh,e"), (0x64, "ld ixh,ixh"),
    (0x65, "ld ixh,ixl"), (0x66, "ld h,(ix+*)"), (0x67, "ld ixh,a"), (0x68, "ld ixl,b"), (0x69, "ld ixl,c"),
    (0x6a, "ld ixl,d"), (0x6b, "ld ixl,e"), (0x6c, "ld ixl,ixh"), (0x6d, "ld ixl,ixl"), (0x6e, "ld l,(ix+*)"),
    (0x6f, "ld ixl,a"), (0x70, "ld (ix+*),b"), (0x71, "ld (ix+*),c"), (0x72, "ld (ix+*),d"), (0x73, "ld (ix+*),e"),
    (0x74, "ld (ix+*),h"), (0x75, "ld (ix+*),l"), (0x77, "ld (ix+*),a"), (0x7c, "ld a,ixh"), (0x7d, "ld a,ixl"),
    (0x7e, "ld a,(ix+*)"), (0x84, "add a,ixh"), (0x85, "add a,ixl"), (0x86, "add a,(ix+*)"), (0x8c, "adc a,ixh"),
    (0x8d, "adc a,ixl"), (0x8e, "adc a,(ix+*)"), (0x94, "sub ixh"), (0x95, "sub ixl"), (0x96, "sub (ix+*)"),
    (0x9c, "sbc a,ixh"), (0x9d, "sbc a,ixl"), (0x9e, "sbc a,(ix+*)"), (0xa4, "and ixh"), (0xa5, "and ixl"),
    (0xa6, "and (ix+*)"), (0xac, "xor ixh"), (0xad, "xor ixl"), (0xae, "xor (ix+*)"), (0xb4, "or ixh"),
    (0xb5, "or ixl"), (0xb6, "or (ix+*)"), (0xbc, "cp ixh"), (0xbd, "cp ixl"), (0xbe, "cp (ix+*)"), (0xe1, "pop ix"),
    (0xe3, "ex (sp),ix"), (0xe5, "push ix"), (0xe9, "jp (ix)"), (0xf9, "ld sp,ix")]

def registers : List String := ["b", "c", "d", "e", "h", "l", "(hl)", "a"]

def rotations : List String := ["rlc", "rrc", "rl", "rr", "sla", "sra", "sll", "srl"]

/-- The operation of an opcode after `CB`, up to its operand. -/
def bitOperation (opcode : Nat) : List Char :=
  let y := opcode / 8 % 8
  match opcode / 64 with
  | 0 => chars (rotations.getD y "") ++ [' ']
  | 1 => chars "bit " ++ [Nat.digitChar y, ',']
  | 2 => chars "res " ++ [Nat.digitChar y, ',']
  | _ => chars "set " ++ [Nat.digitChar y, ',']

/-- The opcodes after `CB`. -/
def cbMnemonic (opcode : Nat) : List Char := bitOperation opcode ++ chars (registers.getD (opcode % 8) "")

/-- The opcodes after `DD CB`. The result goes to a register as well, except for `bit`. -/
def ddcbMnemonic (opcode : Nat) : List Char :=
  bitOperation opcode ++ chars "(ix+*)" ++
    (if opcode % 8 = 6 ∨ opcode / 64 = 1 then [] else ',' :: chars (registers.getD (opcode % 8) ""))

/-- The mnemonic with `iy` in the place of `ix`. -/
def withIY : List Char → List Char
  | 'i' :: 'x' :: text => 'i' :: 'y' :: withIY text
  | c :: text => c :: withIY text
  | [] => []

/-- The template of an opcode. -/
def z80Mnemonic (group : OpcodePrefix) (opcode : UInt8) : Option (List Char) :=
  match group with
  | .NONE => (baseTable[opcode.toNat]?.map chars).filter (· ≠ [])
  | .CB => some (cbMnemonic opcode.toNat)
  | .ED => (edTable.lookup opcode.toNat).map chars
  | .DD => (ddTable.lookup opcode.toNat).map chars
  | .FD => (ddTable.lookup opcode.toNat).map fun mnemonic => withIY (chars mnemonic)
  | .DDCB => some (ddcbMnemonic opcode.toNat)
  | .FDCB => some (withIY (ddcbMnemonic opcode.toNat))

def prefixBytes : OpcodePrefix → Nat
  | .NONE => 1
  | .CB | .ED | .DD | .FD => 2
  | .DDCB | .FDCB => 3

def z80OpcodeLookup (group : OpcodePrefix) (opcode : UInt8) : Option Z80Opcode :=
  (z80Mnemonic group opcode).map (row (prefixBytes group))

/-! ## What the table says -/

/-- A template with so many operands at most, which is not the plain return. -/
def Template (operands : Nat) (m : List Char) : Prop := m.count '*' ≤ operands ∧ m ≠ ['r', 'e', 't']

instance (operands : Nat) (m : List Char) : Decidable (Template operands m) :=
  inferInstanceAs (Decidable (_ ∧ _))

theorem base_templates : ∀ p ∈ baseTable.zipIdx,
    (chars p.1).count '*' ≤ 2 ∧ (chars p.1 = ['r', 'e', 't'] → p.2 = 0xC9) := by decide

theorem ed_templates : ∀ p ∈ edTable, Template 2 (chars p.2) := by decide

theorem dd_templates : ∀ p ∈ ddTable, Template 2 (chars p.2) ∧ Template 2 (withIY (chars p.2)) := by
  decide

theorem bitOperation_eq (n : Nat) : bitOperation n = bitOperation (8 * (n / 8)) := by
  have hy : 8 * (n / 8) / 8 = n / 8 := Nat.mul_div_cancel_left _ (by decide)
  have hx : 8 * (n / 8) / 64 = n / 64 := by omega
  rw [bitOperation, bitOperation, hy, hx]

theorem count_bitOperation {n : Nat} (hn : n < 256) : (bitOperation n).count '*' = 0 ∧ ' ' ∈ bitOperation n := by
  have hall : ∀ k < 32, (bitOperation (8 * k)).count '*' = 0 ∧ ' ' ∈ bitOperation (8 * k) := by decide
  rw [bitOperation_eq]
  exact hall _ (by omega)

theorem count_register (n : Nat) : (chars (registers.getD (n % 8) "")).count '*' = 0 := by
  have hall : ∀ r < 8, (chars (registers.getD r "")).count '*' = 0 := by decide
  exact hall _ (Nat.mod_lt _ (by decide))

theorem count_withIY {c : Char} (hx : c ≠ 'i') (hy : c ≠ 'y') (hx' : c ≠ 'x') (m : List Char) :
    (withIY m).count c = m.count c := by
  induction m using withIY.induct with
  | case1 text ih =>
    rw [withIY, List.count_cons_of_ne hx.symm, List.count_cons_of_ne hy.symm, List.count_cons_of_ne hx.symm,
      List.count_cons_of_ne hx'.symm, ih]
  | case2 ch text hne ih =>
    rw [withIY, List.count_cons, List.count_cons, ih]
    exact hne
  | case3 => rfl

theorem template_of_blank {operands : Nat} {m : List Char} (hcount : m.count '*' ≤ operands) (hblank : ' ' ∈ m) :
    Template operands m := by
  refine ⟨hcount, ?_⟩
  rintro rfl
  exact absurd hblank (by decide)

theorem cb_templates : ∀ n < 256,
    Template 0 (cbMnemonic n) ∧ Template 1 (ddcbMnemonic n) ∧ Template 1 (withIY (ddcbMnemonic n)) := by
  intro n hn
  obtain ⟨hcount, hblank⟩ := count_bitOperation hn
  have hindexed : (ddcbMnemonic n).count '*' = 1 := by
    have hplace : (chars "(ix+*)").count '*' = 1 := by decide
    rw [ddcbMnemonic, List.count_append, List.count_append, hcount, hplace]
    split
    · rfl
    · rw [List.count_cons_of_ne (by decide), count_register]
  have hblank' : ' ' ∈ ddcbMnemonic n := List.mem_append_left _ (List.mem_append_left _ hblank)
  refine ⟨template_of_blank ?_ (List.mem_append_left _ hblank), template_of_blank (Nat.le_of_eq hindexed) hblank', ?_⟩
  · rw [cbMnemonic, List.count_append, hcount, count_register]
  · have hsame := count_withIY (c := ' ') (by decide) (by decide) (by decide) (ddcbMnemonic n)
    refine template_of_blank ?_ ?_
    · rw [count_withIY (by decide) (by decide) (by decide), hindexed]
    · rw [← List.count_pos_iff, hsame, List.count_pos_iff]
      exact hblank'

theorem mem_of_lookup_eq_some {table : List (Nat × String)} {n : Nat} {s : String}
    (h : table.lookup n = some s) : (n, s) ∈ table := by
  obtain ⟨before, after, rfl, -⟩ := List.lookup_eq_some_iff.1 h
  exact List.mem_append_right _ List.mem_cons_self

theorem templates {group : OpcodePrefix} {opcode : UInt8} {m : List Char}
    (h : z80Mnemonic group opcode = some m) : prefixBytes group + m.count '*' ≤ 4 ∧
      (m = ['r', 'e', 't'] → group = .NONE ∧ opcode = 0xC9) := by
  -- Away from the base table no template is the plain return.
  have hother (operands : Nat) (hm : Template operands m) (hle : prefixBytes group + operands ≤ 4) :
      prefixBytes group + m.count '*' ≤ 4 ∧ (m = ['r', 'e', 't'] → group = .NONE ∧ opcode = 0xC9) :=
    ⟨(Nat.add_le_add_left hm.1 _).trans hle, fun hret => absurd hret hm.2⟩
  cases group with
  | NONE =>
    obtain ⟨s, hs, rfl⟩ := Option.map_eq_some_iff.1 (Option.filter_eq_some_iff.1 h).1
    have hrow := base_templates (s, opcode.toNat) (List.mem_zipIdx_iff_getElem?.2 hs)
    exact ⟨(Nat.add_le_add_left hrow.1 1).trans (by decide), fun hret => ⟨rfl, UInt8.toNat_inj.1 (hrow.2 hret)⟩⟩
  | ED =>
    obtain ⟨s, hs, rfl⟩ := Option.map_eq_some_iff.1 h
    exact hother 2 (ed_templates _ (mem_of_lookup_eq_some hs)) (by decide)
  | DD =>
    obtain ⟨s, hs, rfl⟩ := Option.map_eq_some_iff.1 h
    exact hother 2 (dd_templates _ (mem_of_lookup_eq_some hs)).1 (by decide)
  | FD =>
    obtain ⟨s, hs, rfl⟩ := Option.map_eq_some_iff.1 h
    exact hother 2 (dd_templates _ (mem_of_lookup_eq_some hs)).2 (by decide)
  | CB =>
    cases h
    exact hother 0 (cb_templates _ opcode.toNat_lt).1 (by decide)
  | DDCB =>
    cases h
    exact hother 1 (cb_templates _ opcode.toNat_lt).2.1 (by decide)
  | FDCB =>
    cases h
    exact hother 1 (cb_templates _ opcode.toNat_lt).2.2 (by decide)

theorem lookup_length {group : OpcodePrefix} {opcode : UInt8} {entry : Z80Opcode}
    (h : z80OpcodeLookup group opcode = some entry) : 1 ≤ entry.length ∧ entry.length ≤ 4 := by
  obtain ⟨m, hm, rfl⟩ := Option.map_eq_some_iff.1 h
  refine ⟨?_, (templates hm).1⟩
  cases group <;> exact Nat.le_add_right_of_le (by decide)

/-- The plain return has an opcode of its own. -/
theorem lookup_ret {group : OpcodePrefix} {opcode : UInt8} {entry : Z80Opcode}
    (h : z80OpcodeLookup group opcode = some entry) (hret : entry.mnemonic = ['r', 'e', 't']) :
    group = .NONE ∧ opcode = 0xC9 := by
  obtain ⟨m, hm, rfl⟩ := Option.map_eq_some_iff.1 h
  exact (templates hm).2 hret

end Koncepcja.Debug
