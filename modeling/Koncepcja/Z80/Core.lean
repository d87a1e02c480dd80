import Mathlib.Tactic.SplitIfs

/-!
# The Z80 Register File and Arithmetic

`src/hw/z80.cpp`: the part of `z80_state` that the micro-operations of an instruction read and
write, its accessors and its flag arithmetic. The two timing engines share all of it.

## Main results

- `Seq`: the fields that say where in the instruction the CPU is. Every accessor and every
  arithmetic operation leaves it alone, and is a simp lemma saying so.
-/

namespace Koncepcja.Z80

abbrev Byte := BitVec 8

abbrev Word := BitVec 16

/-! ## Flag bits -/

def SF : Byte := 0x80
def ZF : Byte := 0x40
def YF : Byte := 0x20
def HF : Byte := 0x10
def XF : Byte := 0x08
def PF : Byte := 0x04
def NF : Byte := 0x02
def CF : Byte := 0x01

/-- `if (cond) flags |= bit`, as the term or'ed in. -/
def flagIf (cond : Bool) (bit : Byte) : Byte := if cond then bit else 0

/-- A byte used as a condition. -/
def isSet (value : Byte) : Bool := value != 0

def parityEven (value : Byte) : Bool :=
  let value := value ^^^ (value >>> 4)
  let value := value ^^^ (value >>> 2)
  let value := value ^^^ (value >>> 1)
  value &&& 1 == 0

def sz53 (r : Byte) : Byte := (r &&& (SF ||| YF ||| XF)) ||| flagIf (r == 0) ZF

def sz53p (r : Byte) : Byte := sz53 r ||| flagIf (parityEven r) PF

/-! ## Register pairs (`Reg16`) -/

def hi (v : Word) : Byte := (v >>> 8).setWidth 8

def lo (v : Word) : Byte := v.setWidth 8

/-- `(h << 8) | l`. -/
def pair (h l : Byte) : Word := (h.setWidth 16 <<< 8) ||| l.setWidth 16

/-- `Reg16::set_hi`. -/
def withHi (v : Word) (h : Byte) : Word := pair h (lo v)

/-- `Reg16::set_lo`. -/
def withLo (v : Word) (l : Byte) : Word := pair (hi v) l

/-- `pc + static_cast<int8_t>(d)`. -/
def displace (v : Word) (d : Byte) : Word := v + d.signExtend 16

/-! ## State -/

inductive IndexReg where
  | hl
  | ix
  | iy
  deriving DecidableEq, Repr

inductive Servicing where
  | none
  | nmi
  | maskable
  deriving DecidableEq, Repr

inductive IntMode where
  | im0
  | im1
  | im2
  deriving DecidableEq, Repr

/-- Where in the instruction the CPU is. -/
structure Seq where
  /-- Micro-step within the instruction. -/
  step : Nat
  /-- `prefix`: 0xCB, 0xED or 0. -/
  prefixByte : Byte
  index : IndexReg
  opcode : Byte
  servicing : Servicing
  halted : Bool
  /-- Completed instructions, one per `finish()`. -/
  instrCount : Nat
  deriving DecidableEq, Repr

/-- `z80_state` as the micro-operations see it. -/
structure Core where
  af : Word
  bc : Word
  de : Word
  hl : Word
  af2 : Word
  bc2 : Word
  de2 : Word
  hl2 : Word
  ix : Word
  iy : Word
  sp : Word
  pc : Word
  wz : Word
  i : Byte
  r : Byte
  iff1 : Bool
  iff2 : Bool
  im : IntMode
  /-- Committed flags-written latch. -/
  q : Byte
  /-- F whenever F is written this instruction, else 0. -/
  qq : Byte
  eiDelay : Bool
  intVec : Byte
  memAddr : Word
  /-- Last byte read; survives WRITE and INTERNAL cycles. -/
  tmp : Byte
  tmpl : Byte
  unimplemented : Bool
  seq : Seq
  deriving DecidableEq, Repr

namespace Core

/-! ## Accessors -/

def a (c : Core) : Byte := hi c.af

def f (c : Core) : Byte := lo c.af

def setA (c : Core) (v : Byte) : Core := { c with af := withHi c.af v }

/-- Every write of F also goes to the Q scratch latch. -/
def setF (c : Core) (v : Byte) : Core := { c with af := withLo c.af v, qq := v }

/-- The carry flag as a number. -/
def carry (c : Core) : Byte := c.f &&& CF

def idxHl (c : Core) : Word :=
  match c.seq.index with
  | .ix => c.ix
  | .iy => c.iy
  | .hl => c.hl

def setIdxHl (c : Core) (v : Word) : Core :=
  match c.seq.index with
  | .ix => { c with ix := v }
  | .iy => { c with iy := v }
  | .hl => { c with hl := v }

def idxH (c : Core) : Byte := hi c.idxHl

def idxL (c : Core) : Byte := lo c.idxHl

def setIdxH (c : Core) (v : Byte) : Core := c.setIdxHl (withHi c.idxHl v)

def setIdxL (c : Core) (v : Byte) : Core := c.setIdxHl (withLo c.idxHl v)

/-- `get_r_real`: byte register by octal index, H and L never substituted. -/
def getRReal (c : Core) : Nat → Byte
  | 0 => hi c.bc
  | 1 => lo c.bc
  | 2 => hi c.de
  | 3 => lo c.de
  | 4 => hi c.hl
  | 5 => lo c.hl
  | 7 => hi c.af
  | _ => 0

def setRReal (c : Core) (idx : Nat) (v : Byte) : Core :=
  match idx with
  | 0 => { c with bc := withHi c.bc v }
  | 1 => { c with bc := withLo c.bc v }
  | 2 => { c with de := withHi c.de v }
  | 3 => { c with de := withLo c.de v }
  | 4 => { c with hl := withHi c.hl v }
  | 5 => { c with hl := withLo c.hl v }
  | 7 => { c with af := withHi c.af v }
  | _ => c

/-- `get_r`: H and L become the index register's halves under a DD/FD prefix. -/
def getR (c : Core) (idx : Nat) : Byte :=
  if idx = 4 then c.idxH
  else if idx = 5 then c.idxL
  else c.getRReal idx

def setR (c : Core) (idx : Nat) (v : Byte) : Core :=
  if idx = 4 then c.setIdxH v
  else if idx = 5 then c.setIdxL v
  else c.setRReal idx v

/-- `bump_refresh`: the low seven bits of R count, the top bit stays. -/
def bumpRefresh (c : Core) : Core := { c with r := (c.r &&& 0x80) ||| ((c.r + 1) &&& 0x7F) }

def pcinc (c : Core) : Core := { c with pc := c.pc + 1 }

/-- `assemble16`: the byte read last over the byte read first. -/
def assemble16 (c : Core) : Word := pair c.tmp c.tmpl

def getRp (c : Core) : Nat → Word
  | 0 => c.bc
  | 1 => c.de
  | 2 => c.idxHl
  | 3 => c.sp
  | _ => 0

def setRp (c : Core) (p : Nat) (v : Word) : Core :=
  match p with
  | 0 => { c with bc := v }
  | 1 => { c with de := v }
  | 2 => c.setIdxHl v
  | 3 => { c with sp := v }
  | _ => c

/-- `get_rp2`: the PUSH/POP table, AF in place of SP. -/
def getRp2 (c : Core) : Nat → Word
  | 0 => c.bc
  | 1 => c.de
  | 2 => c.idxHl
  | 3 => c.af
  | _ => 0

def setRp2 (c : Core) (p : Nat) (v : Word) : Core :=
  match p with
  | 0 => { c with bc := v }
  | 1 => { c with de := v }
  | 2 => c.setIdxHl v
  | 3 => { c with af := v }
  | _ => c

/-- Branch condition: NZ, Z, NC, C, PO, PE, P, M. -/
def cond (c : Core) : Nat → Bool
  | 0 => !isSet (c.f &&& ZF)
  | 1 => isSet (c.f &&& ZF)
  | 2 => !isSet (c.f &&& CF)
  | 3 => isSet (c.f &&& CF)
  | 4 => !isSet (c.f &&& PF)
  | 5 => isSet (c.f &&& PF)
  | 6 => !isSet (c.f &&& SF)
  | 7 => isSet (c.f &&& SF)
  | _ => false

/-! ## Arithmetic and flags -/

/-- ADD and ADC: `carryIn` is 0 for ADD. -/
def aluAdd (c : Core) (val carryIn : Byte) : Core :=
  let acc := c.a
  let res : Word := acc.setWidth 16 + val.setWidth 16 + carryIn.setWidth 16
  let r8 := lo res
  let flags := sz53 r8 ||| flagIf (res &&& 0x100 != 0) CF
    ||| flagIf (isSet ((acc ^^^ val ^^^ r8) &&& 0x10)) HF
    ||| flagIf (isSet ((~~~(acc ^^^ val) &&& (acc ^^^ r8)) &&& 0x80)) PF
  (c.setA r8).setF flags

/-- SUB, SBC and CP; CP takes its undocumented flags from the operand and keeps A. -/
def aluSub (c : Core) (val carryIn : Byte) (compare : Bool) : Core :=
  let acc := c.a
  let res : Word := acc.setWidth 16 - val.setWidth 16 - carryIn.setWidth 16
  let r8 := lo res
  let flags := (r8 &&& SF) ||| flagIf (r8 == 0) ZF ||| NF
    ||| flagIf (res &&& 0x100 != 0) CF
    ||| flagIf (isSet ((acc ^^^ val ^^^ r8) &&& 0x10)) HF
    ||| flagIf (isSet (((acc ^^^ val) &&& (acc ^^^ r8)) &&& 0x80)) PF
  if compare then c.setF (flags ||| (val &&& (YF ||| XF)))
  else (c.setA r8).setF (flags ||| (r8 &&& (YF ||| XF)))

/-- `alu`: ADD, ADC, SUB, SBC, AND, XOR, OR, CP by octal kind. -/
def alu (c : Core) (kind : Nat) (val : Byte) : Core :=
  match kind with
  | 0 => c.aluAdd val 0
  | 1 => c.aluAdd val c.carry
  | 2 => c.aluSub val 0 false
  | 3 => c.aluSub val c.carry false
  | 4 =>
    let res := c.a &&& val
    (c.setA res).setF (sz53p res ||| HF)
  | 5 =>
    let res := c.a ^^^ val
    (c.setA res).setF (sz53p res)
  | 6 =>
    let res := c.a ||| val
    (c.setA res).setF (sz53p res)
  | 7 => c.aluSub val 0 true
  | _ => c.setF 0

/-- `inc8`: the incremented byte, and the CPU with its flags. -/
def inc8 (c : Core) (val : Byte) : Byte × Core :=
  let r8 := val + 1
  let flags := (c.f &&& CF) ||| sz53 r8 ||| flagIf (r8 &&& 0x0F == 0) HF
    ||| flagIf (r8 == 0x80) PF
  (r8, c.setF flags)

def dec8 (c : Core) (val : Byte) : Byte × Core :=
  let r8 := val - 1
  let flags := (c.f &&& CF) ||| sz53 r8 ||| NF ||| flagIf (r8 &&& 0x0F == 0x0F) HF
    ||| flagIf (r8 == 0x7F) PF
  (r8, c.setF flags)

/-- `acc_rot`: RLCA, RRCA, RLA, RRA. -/
def accRot (c : Core) (op : Nat) : Core :=
  let av := c.a
  let oldc := c.carry
  let (carry, na) : Byte × Byte :=
    match op with
    | 0 => (av >>> 7, (av <<< 1) ||| (av >>> 7))
    | 1 => (av &&& 1, (av >>> 1) ||| ((av &&& 1) <<< 7))
    | 2 => (av >>> 7, (av <<< 1) ||| oldc)
    | 3 => (av &&& 1, (av >>> 1) ||| (oldc <<< 7))
    | _ => (0, 0)
  let c := c.setA na
  c.setF ((c.f &&& (SF ||| ZF ||| PF)) ||| (na &&& (YF ||| XF)) ||| flagIf (isSet carry) CF)

def daa (c : Core) : Core :=
  let av := c.a
  let low := isSet (c.f &&& HF) || (av &&& 0x0F).toNat > 0x09
  let carry := isSet (c.f &&& CF) || av.toNat > 0x99
  let correction := flagIf low 0x06 ||| flagIf carry 0x60
  let na := if isSet (c.f &&& NF) then av - correction else av + correction
  let flags := sz53p na ||| flagIf carry CF ||| (c.f &&& NF) ||| ((av ^^^ na) &&& HF)
  (c.setA na).setF flags

def cpl (c : Core) : Core :=
  let c := c.setA (~~~c.a)
  c.setF ((c.f &&& (SF ||| ZF ||| PF ||| CF)) ||| HF ||| NF ||| (c.a &&& (YF ||| XF)))

/-- `scf_ccf_xy`: the undocumented bits depend on the previous instruction's Q. -/
def scfCcfXy (c : Core) : Byte := ((c.q ^^^ c.f) ||| c.a) &&& (YF ||| XF)

def scf (c : Core) : Core := c.setF ((c.f &&& (SF ||| ZF ||| PF)) ||| CF ||| c.scfCcfXy)

def ccf (c : Core) : Core :=
  let oldc := isSet (c.f &&& CF)
  c.setF ((c.f &&& (SF ||| ZF ||| PF)) ||| flagIf (!oldc) CF ||| flagIf oldc HF ||| c.scfCcfXy)

/-- `add16`: ADD HL/IX/IY,rr. -/
def add16 (c : Core) (val : Word) : Core :=
  let dst := c.idxHl
  let res : BitVec 32 := dst.setWidth 32 + val.setWidth 32
  let r16 : Word := res.setWidth 16
  let flags := (c.f &&& (SF ||| ZF ||| PF)) ||| (hi r16 &&& (YF ||| XF))
    ||| flagIf ((dst ^^^ val ^^^ r16) &&& 0x1000 != 0) HF
    ||| flagIf (res &&& 0x10000 != 0) CF
  (({ c with wz := dst + 1 }).setIdxHl r16).setF flags

/-- `adc16`: ADC HL,rr, never index-aware. -/
def adc16 (c : Core) (val : Word) : Core :=
  let hl := c.hl
  let res : BitVec 32 := hl.setWidth 32 + val.setWidth 32 + c.carry.setWidth 32
  let r16 : Word := res.setWidth 16
  let flags := (hi r16 &&& (SF ||| YF ||| XF)) ||| flagIf (r16 == 0) ZF
    ||| flagIf ((hl ^^^ val ^^^ r16) &&& 0x1000 != 0) HF
    ||| flagIf (res &&& 0x10000 != 0) CF
    ||| flagIf ((~~~(hl ^^^ val) &&& (hl ^^^ r16)) &&& 0x8000 != 0) PF
  ({ c with wz := hl + 1, hl := r16 }).setF flags

/-- `sbc16`: SBC HL,rr. -/
def sbc16 (c : Core) (val : Word) : Core :=
  let hl := c.hl
  let res : BitVec 32 := hl.setWidth 32 - val.setWidth 32 - c.carry.setWidth 32
  let r16 : Word := res.setWidth 16
  let flags := (hi r16 &&& (SF ||| YF ||| XF)) ||| flagIf (r16 == 0) ZF ||| NF
    ||| flagIf ((hl ^^^ val ^^^ r16) &&& 0x1000 != 0) HF
    ||| flagIf (res &&& 0x10000 != 0) CF
    ||| flagIf (((hl ^^^ val) &&& (hl ^^^ r16)) &&& 0x8000 != 0) PF
  ({ c with wz := hl + 1, hl := r16 }).setF flags

def neg (c : Core) : Core :=
  let old := c.a
  let res : Word := 0 - old.setWidth 16
  let r8 := lo res
  let flags := (r8 &&& (SF ||| YF ||| XF)) ||| flagIf (r8 == 0) ZF ||| NF
    ||| flagIf (res &&& 0x100 != 0) CF
    ||| flagIf (isSet ((old ^^^ r8) &&& 0x10)) HF
    ||| flagIf (isSet ((old &&& r8) &&& 0x80)) PF
  (c.setA r8).setF flags

/-- `ld_a_ir`: LD A,I and LD A,R; P/V is IFF2. -/
def ldAIr (c : Core) (val : Byte) : Core :=
  let c := c.setA val
  c.setF ((c.f &&& CF) ||| sz53 val ||| flagIf c.iff2 PF)

/-- `cb_shift`: RLC, RRC, RL, RR, SLA, SRA, SLL, SRL. -/
def cbShift (c : Core) (op : Nat) (val : Byte) : Byte × Core :=
  let oldc := c.carry
  let (carry, res) : Byte × Byte :=
    match op with
    | 0 => (val >>> 7, (val <<< 1) ||| (val >>> 7))
    | 1 => (val &&& 1, (val >>> 1) ||| ((val &&& 1) <<< 7))
    | 2 => (val >>> 7, (val <<< 1) ||| oldc)
    | 3 => (val &&& 1, (val >>> 1) ||| (oldc <<< 7))
    | 4 => (val >>> 7, val <<< 1)
    | 5 => (val &&& 1, (val >>> 1) ||| (val &&& 0x80))
    | 6 => (val >>> 7, (val <<< 1) ||| 1)
    | 7 => (val &&& 1, val >>> 1)
    | _ => (0, 0)
  (res, c.setF (sz53p res ||| flagIf (isSet carry) CF))

/-- `cb_bit`: the undocumented bits come from `xy`. -/
def cbBit (c : Core) (n : Nat) (val xy : Byte) : Core :=
  let bit := val &&& ((1 : Byte) <<< n)
  let flags := (c.f &&& CF) ||| HF ||| (xy &&& (YF ||| XF)) ||| flagIf (bit == 0) (ZF ||| PF)
    ||| flagIf (n == 7 && isSet bit) SF
  c.setF flags

/-- `RES n` of a byte. -/
def resBit (n : Nat) (val : Byte) : Byte := val &&& ~~~((1 : Byte) <<< n)

/-- `SET n` of a byte. -/
def setBit (n : Nat) (val : Byte) : Byte := val ||| ((1 : Byte) <<< n)

/-- `blkio_corrected_f`: F of a repeating block I/O iteration, with PC already rewound. -/
def blkioCorrectedF (c : Core) (val : Byte) (k : Nat) (bdec : Byte) : Byte :=
  let p : Byte := BitVec.ofNat 8 (k % 8) ^^^ bdec
  let negative := isSet (val &&& 0x80)
  let flags := (bdec &&& SF) ||| (hi c.pc &&& (YF ||| XF)) ||| flagIf negative NF
  if k > 0xFF then
    if negative then
      flags ||| CF ||| flagIf (bdec &&& 0x0F == 0) HF
        ||| flagIf (parityEven (p ^^^ ((bdec - 1) &&& 7))) PF
    else
      flags ||| CF ||| flagIf (bdec &&& 0x0F == 0x0F) HF
        ||| flagIf (parityEven (p ^^^ ((bdec + 1) &&& 7))) PF
  else flags ||| flagIf (parityEven (p ^^^ (bdec &&& 7))) PF

/-! ## Nothing here moves the instruction along -/

@[simp] theorem seq_setA (c : Core) (v : Byte) : (c.setA v).seq = c.seq := rfl

@[simp] theorem seq_setF (c : Core) (v : Byte) : (c.setF v).seq = c.seq := rfl

@[simp] theorem seq_setIdxHl (c : Core) (v : Word) : (c.setIdxHl v).seq = c.seq := by
  unfold setIdxHl
  split <;> rfl

@[simp] theorem seq_setIdxH (c : Core) (v : Byte) : (c.setIdxH v).seq = c.seq := by
  simp [setIdxH]

@[simp] theorem seq_setIdxL (c : Core) (v : Byte) : (c.setIdxL v).seq = c.seq := by
  simp [setIdxL]

@[simp] theorem seq_setRReal (c : Core) (idx : Nat) (v : Byte) :
    (c.setRReal idx v).seq = c.seq := by
  unfold setRReal
  split <;> rfl

@[simp] theorem seq_setR (c : Core) (idx : Nat) (v : Byte) : (c.setR idx v).seq = c.seq := by
  unfold setR
  split_ifs <;> simp

@[simp] theorem seq_bumpRefresh (c : Core) : c.bumpRefresh.seq = c.seq := rfl

@[simp] theorem seq_pcinc (c : Core) : c.pcinc.seq = c.seq := rfl

@[simp] theorem seq_setRp (c : Core) (p : Nat) (v : Word) : (c.setRp p v).seq = c.seq := by
  unfold setRp
  split <;> simp

@[simp] theorem seq_setRp2 (c : Core) (p : Nat) (v : Word) : (c.setRp2 p v).seq = c.seq := by
  unfold setRp2
  split <;> simp

@[simp] theorem seq_alu (c : Core) (kind : Nat) (val : Byte) : (c.alu kind val).seq = c.seq := by
  unfold alu aluAdd aluSub
  split <;> simp

@[simp] theorem seq_inc8 (c : Core) (val : Byte) : (c.inc8 val).2.seq = c.seq := rfl

@[simp] theorem seq_dec8 (c : Core) (val : Byte) : (c.dec8 val).2.seq = c.seq := rfl

@[simp] theorem seq_accRot (c : Core) (op : Nat) : (c.accRot op).seq = c.seq := rfl

@[simp] theorem seq_daa (c : Core) : c.daa.seq = c.seq := rfl

@[simp] theorem seq_cpl (c : Core) : c.cpl.seq = c.seq := rfl

@[simp] theorem seq_scf (c : Core) : c.scf.seq = c.seq := rfl

@[simp] theorem seq_ccf (c : Core) : c.ccf.seq = c.seq := rfl

@[simp] theorem seq_add16 (c : Core) (val : Word) : (c.add16 val).seq = c.seq := by
  simp [add16]

@[simp] theorem seq_adc16 (c : Core) (val : Word) : (c.adc16 val).seq = c.seq := rfl

@[simp] theorem seq_sbc16 (c : Core) (val : Word) : (c.sbc16 val).seq = c.seq := rfl

@[simp] theorem seq_neg (c : Core) : c.neg.seq = c.seq := rfl

@[simp] theorem seq_ldAIr (c : Core) (val : Byte) : (c.ldAIr val).seq = c.seq := rfl

@[simp] theorem seq_cbShift (c : Core) (op : Nat) (val : Byte) :
    (c.cbShift op val).2.seq = c.seq := rfl

@[simp] theorem seq_cbBit (c : Core) (n : Nat) (val xy : Byte) : (c.cbBit n val xy).seq = c.seq :=
  rfl

end Core

end Koncepcja.Z80
