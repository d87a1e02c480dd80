import Koncepcja.Z80.Core

/-!
# The Instruction Step Machine

`src/hw/z80.cpp`: the micro-operations of every instruction. Each call processes the machine cycle
that just ended and either requests the next one or finishes the instruction.

## Main results

- `runMicro_spec`: what one micro-operation can do to the sequencer.
- `runMicro_finishes`: no instruction has more than six machine cycles after its fetch.
-/

namespace Koncepcja.Z80

/-- The machine cycle requested, with its address, value and length (`mc`, `mc_addr`, `mc_wval`,
`mc_io_read`, `mc_ilen`). -/
inductive MC where
  | m1
  | read (addr : Word)
  | write (addr : Word) (val : Byte)
  | internal (len : Nat)
  | ioRead (port : Word)
  | ioWrite (port : Word) (val : Byte)
  | ioack (len : Nat)
  deriving DecidableEq, Repr

/-- Machine cycles the engines can run: an internal cycle takes time, and an acknowledge lasts
long enough for the vector to come back. -/
def MC.Valid : MC → Prop
  | .m1 => False
  | .internal len => 1 ≤ len
  | .ioack len => 2 ≤ len
  | _ => True

/-- The sequencer at the next instruction boundary. -/
structure Seq.Finished (s s' : Seq) : Prop where
  step : s'.step = 0
  prefixByte : s'.prefixByte = 0
  index : s'.index = .hl
  servicing : s'.servicing = .none
  instrCount : s'.instrCount = s.instrCount + 1

theorem Seq.Finished.congr {s s' t : Seq} (h : s.Finished t) (hs : s.instrCount = s'.instrCount) :
    s'.Finished t :=
  { h with instrCount := by rw [h.instrCount, hs] }

namespace Core

/-! ## Requests -/

def reqRead (c : Core) (addr : Word) : Core × MC := (c, .read addr)

def reqWrite (c : Core) (addr : Word) (val : Byte) : Core × MC := (c, .write addr val)

def reqInternal (c : Core) (len : Nat) : Core × MC := (c, .internal len)

def reqIoRead (c : Core) (port : Word) : Core × MC := (c, .ioRead port)

def reqIoWrite (c : Core) (port : Word) (val : Byte) : Core × MC := (c, .ioWrite port val)

def reqIoack (c : Core) (len : Nat) : Core × MC := (c, .ioack len)

def finish (c : Core) : Core × MC :=
  ({ c with
      q := c.qq
      seq :=
        { c.seq with
          step := 0
          prefixByte := 0
          index := .hl
          instrCount := c.seq.instrCount + 1 } }, .m1)

/-- `req_read(pc.v); pcinc();` -/
def readPc (c : Core) : Core × MC := c.pcinc.reqRead c.pc

/-- `req_read(sp.v); sp.v++;` -/
def readSp (c : Core) : Core × MC := { c with sp := c.sp + 1 }.reqRead c.sp

/-- `sp.v--; req_write(sp.v, val);` -/
def pushByte (c : Core) (val : Byte) : Core × MC :=
  { c with sp := c.sp - 1 }.reqWrite (c.sp - 1) val

/-- `tmpl = tmp`. -/
def latchLow (c : Core) : Core := { c with tmpl := c.tmp }

/-- `pc.v = wz.v = v`. -/
def jump (c : Core) (v : Word) : Core := { c with pc := v, wz := v }

/-- `mem_addr = idx_hl() + (int8_t)tmp; wz.v = mem_addr;` -/
def latchIndexed (c : Core) : Core :=
  let addr := displace c.idxHl c.tmp
  { c with memAddr := addr, wz := addr }

/-- `unimplemented = true; finish();` -/
def undecoded (c : Core) : Core × MC := { c with unimplemented := true }.finish

/-! ## Interrupts -/

/-- `servicing = NONE; finish();` -/
def endInterrupt (c : Core) : Core × MC :=
  { c with seq := { c.seq with servicing := .none } }.finish

/-- `micro_interrupt`. One T-state of the acknowledge cycle is already spent when it is entered. -/
def microInterrupt (c : Core) : Core × MC :=
  match c.seq.step with
  | 0 => c.reqIoack (if c.seq.servicing = .nmi then 4 else 6)
  | 1 => c.pushByte (hi c.pc)
  | 2 => c.pushByte (lo c.pc)
  | step + 3 =>
    if c.seq.servicing = .nmi then (c.jump 0x0066).endInterrupt
    else
      match c.im with
      | .im2 =>
        match step with
        | 0 =>
          let addr := pair c.i c.intVec
          { c with memAddr := addr }.reqRead addr
        | 1 => c.latchLow.reqRead (c.memAddr + 1)
        | _ => (c.jump c.assemble16).endInterrupt
      | .im0 => (c.jump ((c.intVec &&& 0x38).setWidth 16)).endInterrupt
      | .im1 => (c.jump 0x0038).endInterrupt

/-! ## Block operations -/

/-- The pointer step of an I- or D-variant. -/
def stride (inc : Bool) : Word := if inc then 1 else -1

/-- `pc -= 2; wz = pc + 1`: back onto the ED prefix. -/
def rewind (c : Core) : Core := { c with pc := c.pc - 2, wz := c.pc - 2 + 1 }

/-- `block_ld`: LDI, LDD, LDIR, LDDR. -/
def blockLd (c : Core) (inc rep : Bool) : Core × MC :=
  match c.seq.step with
  | 0 => c.reqRead c.hl
  | 1 => c.reqWrite c.de c.tmp
  | 2 =>
    let c : Core := { c with hl := c.hl + stride inc, de := c.de + stride inc, bc := c.bc - 1 }
    let n := c.a + c.tmp
    let flags := (c.f &&& (SF ||| ZF ||| CF)) ||| flagIf (c.bc != 0) PF
      ||| flagIf (isSet (n &&& 0x02)) YF ||| flagIf (isSet (n &&& 0x08)) XF
    (c.setF flags).reqInternal 2
  | 3 =>
    if rep && c.bc != 0 then
      -- a repeating iteration takes YF/XF from the rewound PC
      let c := c.rewind
      (c.setF ((c.f &&& (SF ||| ZF ||| CF)) ||| PF ||| (hi c.pc &&& (YF ||| XF)))).reqInternal 5
    else c.finish
  | _ => c.finish

/-- `block_cp`: CPI, CPD, CPIR, CPDR. -/
def blockCp (c : Core) (inc rep : Bool) : Core × MC :=
  match c.seq.step with
  | 0 => c.reqRead c.hl
  | 1 =>
    let val := c.tmp
    let res := c.a - val
    let hf := isSet ((c.a ^^^ val ^^^ res) &&& 0x10)
    let c : Core := { c with hl := c.hl + stride inc, bc := c.bc - 1, wz := c.wz + stride inc }
    let n := res - flagIf hf 1
    let flags := (c.f &&& CF) ||| (res &&& SF) ||| NF ||| flagIf (res == 0) ZF ||| flagIf hf HF
      ||| flagIf (c.bc != 0) PF ||| flagIf (isSet (n &&& 0x02)) YF
      ||| flagIf (isSet (n &&& 0x08)) XF
    (c.setF flags).reqInternal 5
  | 2 =>
    if rep && c.bc != 0 && c.f &&& ZF == 0 then
      let c := c.rewind
      (c.setF ((c.f &&& ~~~(YF ||| XF)) ||| (hi c.pc &&& (YF ||| XF)))).reqInternal 5
    else c.finish
  | _ => c.finish

/-- The flags and the loop-back both block I/O families end on: `k` is the carry scratch. -/
def blockIoTail (c : Core) (rep : Bool) (val : Byte) (k : Nat) : Core × MC :=
  let bdec := hi c.bc
  if rep && bdec != 0 then
    let c := c.rewind
    (c.setF (c.blkioCorrectedF val k bdec)).reqInternal 5
  else
    let flags := sz53 bdec ||| flagIf (isSet (val &&& 0x80)) NF ||| flagIf (k > 0xFF) (HF ||| CF)
      ||| flagIf (parityEven (BitVec.ofNat 8 (k % 8) ^^^ bdec)) PF
    (c.setF flags).finish

/-- `block_in`: INI, IND, INIR, INDR. -/
def blockIn (c : Core) (inc rep : Bool) : Core × MC :=
  match c.seq.step with
  | 0 => c.reqInternal 1
  | 1 => { c with wz := c.bc + stride inc }.reqIoRead c.bc
  | 2 => c.reqWrite c.hl c.tmp
  | 3 =>
    let c : Core := { c with hl := c.hl + stride inc, bc := withHi c.bc (hi c.bc - 1) }
    c.blockIoTail rep c.tmp (c.tmp.toNat + (lo c.bc + lo (stride inc)).toNat)
  | _ => c.finish

/-- `block_out`: OUTI, OUTD, OTIR, OTDR. B is decremented before the output. -/
def blockOut (c : Core) (inc rep : Bool) : Core × MC :=
  match c.seq.step with
  | 0 => c.reqInternal 1
  | 1 => c.reqRead c.hl
  | 2 =>
    let bc := withHi c.bc (hi c.bc - 1)
    { c with bc, wz := bc + stride inc }.reqIoWrite bc c.tmp
  | 3 =>
    let c : Core := { c with hl := c.hl + stride inc }
    c.blockIoTail rep c.tmp (c.tmp.toNat + (lo c.hl).toNat)
  | _ => c.finish

/-! ## Opcode fields -/

def opX (opcode : Byte) : Nat := opcode.toNat / 64

def opY (opcode : Byte) : Nat := opcode.toNat / 8 % 8

def opZ (opcode : Byte) : Nat := opcode.toNat % 8

/-! ## ED -/

/-- Reads the operand word `nn` over two machine cycles, then hands on to `next`. -/
def withOperand (c : Core) (next : Core → Nat → Core × MC) : Core × MC :=
  match c.seq.step with
  | 0 => c.readPc
  | 1 => c.latchLow.readPc
  | step + 2 => next c step

/-- Pops a word over two machine cycles, then hands it to `next`. -/
def withPopped (c : Core) (next : Core → Word → Core × MC) : Core × MC :=
  match c.seq.step with
  | 0 => c.readSp
  | 1 => c.latchLow.readSp
  | _ => next c c.assemble16

/-- `req_internal(len)` first, then `next`. -/
def afterInternal (c : Core) (len : Nat) (next : Core → Core) : Core × MC :=
  match c.seq.step with
  | 0 => c.reqInternal len
  | _ => (next c).finish

/-- RRD (`y = 4`) and RLD: the nibble rotation through A and the byte just read. -/
def rotateDigit (c : Core) (y : Nat) : Core × MC :=
  match c.seq.step with
  | 0 => c.reqRead c.hl
  | 1 => c.reqInternal 4
  | 2 =>
    let old := c.tmp
    let (newhl, newa) : Byte × Byte :=
      if y = 4 then ((c.a <<< 4) ||| (old >>> 4), (c.a &&& 0xF0) ||| (old &&& 0x0F))
      else ((old <<< 4) ||| (c.a &&& 0x0F), (c.a &&& 0xF0) ||| (old >>> 4))
    let c := c.setA newa
    let c := c.setF ((c.f &&& CF) ||| sz53p newa)
    { c with wz := c.hl + 1 }.reqWrite c.hl newhl
  | _ => c.finish

/-- `micro_ed`, `x = 1`. -/
def microEd1 (c : Core) (y z : Nat) : Core × MC :=
  match z with
  | 0 =>
    match c.seq.step with
    | 0 => { c with wz := c.bc + 1 }.reqIoRead c.bc
    | _ =>
      let c := c.setF ((c.f &&& CF) ||| sz53p c.tmp)
      (if y = 6 then c else c.setR y c.tmp).finish
  | 1 =>
    match c.seq.step with
    | 0 => { c with wz := c.bc + 1 }.reqIoWrite c.bc (if y = 6 then 0 else c.getR y)
    | _ => c.finish
  | 2 =>
    c.afterInternal 7 fun c =>
      if y % 2 = 0 then c.sbc16 (c.getRp (y / 2)) else c.adc16 (c.getRp (y / 2))
  | 3 =>
    c.withOperand fun c step =>
      match y % 2, step with
      | 0, 0 =>
        let nn := c.assemble16
        { c with wz := nn + 1 }.reqWrite nn (lo (c.getRp (y / 2)))
      | 0, 1 => c.reqWrite c.wz (hi (c.getRp (y / 2)))
      | 0, _ => c.finish
      | _, 0 =>
        let nn := c.assemble16
        { c with wz := nn + 1 }.reqRead nn
      | _, 1 => c.latchLow.reqRead c.wz
      | _, _ => (c.setRp (y / 2) c.assemble16).finish
  | 4 => c.neg.finish
  | 5 => c.withPopped fun c nn => { c.jump nn with iff1 := c.iff2 }.finish
  | 6 =>
    -- `kImTable`
    { c with
      im := match y with
        | 2 | 6 => .im1
        | 3 | 7 => .im2
        | _ => .im0 }.finish
  | _ =>
    match y with
    | 0 => c.afterInternal 1 fun c => { c with i := c.a }
    | 1 => c.afterInternal 1 fun c => { c with r := c.a }
    | 2 => c.afterInternal 1 fun c => c.ldAIr c.i
    | 3 => c.afterInternal 1 fun c => c.ldAIr c.r
    | 4 => c.rotateDigit 4
    | 5 => c.rotateDigit 5
    | _ => c.undecoded

def microEd (c : Core) : Core × MC :=
  let x := opX c.seq.opcode
  let y := opY c.seq.opcode
  let z := opZ c.seq.opcode
  if x = 1 then c.microEd1 y z
  else if x = 2 ∧ z < 4 ∧ 4 ≤ y then
    let inc := decide (y = 4 ∨ y = 6)
    let rep := decide (6 ≤ y)
    match z with
    | 0 => c.blockLd inc rep
    | 1 => c.blockCp inc rep
    | 2 => c.blockIn inc rep
    | _ => c.blockOut inc rep
  else c.undecoded

/-! ## CB -/

/-- Rotate, RES or SET of a byte; BIT is handled apart. -/
def cbResult (c : Core) (x y : Nat) (val : Byte) : Byte × Core :=
  if x = 0 then c.cbShift y val
  else if x = 2 then (resBit y val, c)
  else (setBit y val, c)

def microCb (c : Core) : Core × MC :=
  let x := opX c.seq.opcode
  let y := opY c.seq.opcode
  let z := opZ c.seq.opcode
  if z ≠ 6 then
    let val := c.getR z
    if x = 1 then (c.cbBit y val val).finish
    else
      let (res, c) := c.cbResult x y val
      (c.setR z res).finish
  else
    match c.seq.step with
    | 0 => c.reqRead c.hl
    | 1 => c.reqInternal 1
    | 2 =>
      if x = 1 then (c.cbBit y c.tmp (hi c.wz)).finish
      else
        let (res, c) := c.cbResult x y c.tmp
        c.reqWrite c.hl res
    | _ => c.finish

/-! ## DD and FD -/

/-- `idx_uses_mem`: the opcode addresses memory through `(HL)`, HALT apart. -/
def idxUsesMem (opcode : Byte) : Bool :=
  let x := opX opcode
  let y := opY opcode
  let z := opZ opcode
  if x = 1 then (z == 6) != (y == 6)
  else if x = 2 then z == 6
  else if x = 0 ∧ (z = 4 ∨ z = 5 ∨ z = 6) then y == 6
  else false

/-- INC (`z = 4`) or DEC of the byte just read. -/
def incDec (c : Core) (z : Nat) (val : Byte) : Byte × Core :=
  if z = 4 then c.inc8 val else c.dec8 val

/-- `micro_index`: the register operand keeps its true H or L. -/
def microIndex (c : Core) : Core × MC :=
  let x := opX c.seq.opcode
  let y := opY c.seq.opcode
  let z := opZ c.seq.opcode
  if x = 0 ∧ z = 6 ∧ y = 6 then
    match c.seq.step with
    | 0 => c.readPc
    | 1 => c.latchIndexed.readPc
    | 2 => c.latchLow.reqInternal 2
    | 3 => c.reqWrite c.memAddr c.tmpl
    | _ => c.finish
  else
    match c.seq.step with
    | 0 => c.readPc
    | 1 => c.latchIndexed.reqInternal 5
    | step + 2 =>
      if x = 1 then
        if z = 6 then
          match step with
          | 0 => c.reqRead c.memAddr
          | _ => (c.setRReal y c.tmp).finish
        else
          match step with
          | 0 => c.reqWrite c.memAddr (c.getRReal z)
          | _ => c.finish
      else if x = 2 then
        match step with
        | 0 => c.reqRead c.memAddr
        | _ => (c.alu y c.tmp).finish
      else
        match step with
        | 0 => c.reqRead c.memAddr
        | 1 => c.reqInternal 1
        | 2 =>
          let (res, c) := c.incDec z c.tmp
          c.reqWrite c.memAddr res
        | _ => c.finish

/-- `micro_ddcb`: displacement and sub-opcode are plain reads, the latter kept in `tmpl`. -/
def microDdcb (c : Core) : Core × MC :=
  match c.seq.step with
  | 0 => c.readPc
  | 1 => c.latchIndexed.readPc
  | 2 => c.latchLow.reqInternal 3
  | 3 => c.reqRead c.memAddr
  | 4 =>
    let cbx := opX c.tmpl
    let cby := opY c.tmpl
    let cbz := opZ c.tmpl
    if cbx = 1 then (c.cbBit cby c.tmp (hi c.memAddr)).finish
    else
      let (res, c) := c.cbResult cbx cby c.tmp
      let c := if cbz = 6 then c else c.setRReal cbz res
      c.reqWrite c.memAddr res
  | _ => c.finish

/-! ## The plain opcodes -/

def microX0 (c : Core) (y z : Nat) : Core × MC :=
  let p := y / 2
  let qbit := y % 2
  match z with
  | 0 =>
    match y with
    | 0 => c.finish
    | 1 => { c with af := c.af2, af2 := c.af }.finish
    | 2 =>
      match c.seq.step with
      | 0 => c.reqInternal 1
      | 1 => c.readPc
      | 2 =>
        let c : Core := { c with bc := withHi c.bc (hi c.bc - 1) }
        if hi c.bc = 0 then c.finish else c.reqInternal 5
      | _ => (c.jump (displace c.pc c.tmp)).finish
    | _ =>
      match c.seq.step with
      | 0 => c.readPc
      | 1 => if y = 3 || c.cond (y - 4) then c.reqInternal 5 else c.finish
      | _ => (c.jump (displace c.pc c.tmp)).finish
  | 1 =>
    if qbit = 0 then c.withOperand fun c _ => (c.setRp p c.assemble16).finish
    else c.afterInternal 7 fun c => c.add16 (c.getRp p)
  | 2 =>
    if p < 2 then
      let rp := if p = 0 then c.bc else c.de
      match c.seq.step with
      | 0 => if qbit = 1 then c.reqRead rp else c.reqWrite rp c.a
      | _ =>
        if qbit = 1 then { c.setA c.tmp with wz := rp + 1 }.finish
        else { c with wz := pair c.a (lo rp + 1) }.finish
    else
      c.withOperand fun c step =>
        let nn := c.assemble16
        if p = 2 ∧ qbit = 0 then
          match step with
          | 0 => { c with wz := nn + 1 }.reqWrite nn c.idxL
          | 1 => c.reqWrite c.wz c.idxH
          | _ => c.finish
        else if p = 2 then
          match step with
          | 0 => { c with wz := nn + 1 }.reqRead nn
          | 1 => (c.setIdxL c.tmp).reqRead c.wz
          | _ => (c.setIdxH c.tmp).finish
        else if qbit = 0 then
          match step with
          | 0 => { c with wz := pair c.a (lo nn + 1) }.reqWrite nn c.a
          | _ => c.finish
        else
          match step with
          | 0 => { c with wz := nn + 1 }.reqRead nn
          | _ => (c.setA c.tmp).finish
  | 3 =>
    c.afterInternal 2 fun c =>
      c.setRp p (if qbit = 1 then c.getRp p - 1 else c.getRp p + 1)
  | 4 | 5 =>
    if y = 6 then
      match c.seq.step with
      | 0 => c.reqRead c.hl
      | 1 => c.reqInternal 1
      | 2 =>
        let (res, c) := c.incDec z c.tmp
        c.reqWrite c.hl res
      | _ => c.finish
    else
      let (res, c) := c.incDec z (c.getR y)
      (c.setR y res).finish
  | 6 =>
    match c.seq.step with
    | 0 => c.readPc
    | step + 1 =>
      if y = 6 then
        match step with
        | 0 => c.reqWrite c.hl c.tmp
        | _ => c.finish
      else (c.setR y c.tmp).finish
  | _ =>
    match y with
    | 0 | 1 | 2 | 3 => (c.accRot y).finish
    | 4 => c.daa.finish
    | 5 => c.cpl.finish
    | 6 => c.scf.finish
    | _ => c.ccf.finish

/-- `micro_x1`: LD r,r' and HALT, which leaves PC on its own opcode. -/
def microX1 (c : Core) (y z : Nat) : Core × MC :=
  if y = 6 ∧ z = 6 then
    { c with pc := c.pc - 1, seq := { c.seq with halted := true } }.finish
  else if z = 6 then
    match c.seq.step with
    | 0 => c.reqRead c.hl
    | _ => (c.setR y c.tmp).finish
  else if y = 6 then
    match c.seq.step with
    | 0 => c.reqWrite c.hl (c.getR z)
    | _ => c.finish
  else (c.setR y (c.getR z)).finish

/-- The tail of CALL: one internal T-state is already requested, push PC and jump to WZ. -/
def callTail (c : Core) (step : Nat) : Core × MC :=
  match step with
  | 0 => c.pushByte (hi c.pc)
  | 1 => c.pushByte (lo c.pc)
  | _ => { c with pc := c.wz }.finish

/-- EX (SP),HL and its index forms. -/
def exSpHl (c : Core) : Core × MC :=
  match c.seq.step with
  | 0 => c.reqRead c.sp
  | 1 => c.latchLow.reqRead (c.sp + 1)
  | 2 => c.reqInternal 1
  | 3 => c.reqWrite (c.sp + 1) c.idxH
  | 4 => c.reqWrite c.sp c.idxL
  | 5 =>
    let c := (c.setIdxL c.tmpl).setIdxH c.tmp
    { c with wz := c.idxHl }.reqInternal 2
  | _ => c.finish

/-- `micro_x3`, `z = 3`. The CB prefix never comes here. -/
def microX33 (c : Core) (y : Nat) : Core × MC :=
  match y with
  | 0 => c.withOperand fun c _ => (c.jump c.assemble16).finish
  | 2 =>
    match c.seq.step with
    | 0 => c.readPc
    | 1 => { c with wz := pair c.a (c.tmp + 1) }.reqIoWrite (pair c.a c.tmp) c.a
    | _ => c.finish
  | 3 =>
    match c.seq.step with
    | 0 => c.readPc
    | 1 => { c with wz := pair c.a c.tmp + 1 }.reqIoRead (pair c.a c.tmp)
    | _ => (c.setA c.tmp).finish
  | 4 => c.exSpHl
  | 5 => { c with de := c.hl, hl := c.de }.finish
  | 6 => { c with iff1 := false, iff2 := false }.finish
  | 7 => { c with iff1 := true, iff2 := true, eiDelay := true }.finish
  | _ => c.undecoded

def microX3 (c : Core) (y z : Nat) : Core × MC :=
  let p := y / 2
  let qbit := y % 2
  match z with
  | 0 =>
    match c.seq.step with
    | 0 => c.reqInternal 1
    | 1 => if c.cond y then c.readSp else c.finish
    | 2 => c.latchLow.readSp
    | _ => (c.jump c.assemble16).finish
  | 1 =>
    if qbit = 0 then c.withPopped fun c nn => (c.setRp2 p nn).finish
    else
      match p with
      | 0 => c.withPopped fun c nn => (c.jump nn).finish
      | 1 =>
        { c with
          bc := c.bc2, de := c.de2, hl := c.hl2
          bc2 := c.bc, de2 := c.de, hl2 := c.hl }.finish
      | 2 => { c with pc := c.idxHl }.finish
      | _ => c.afterInternal 2 fun c => { c with sp := c.idxHl }
  | 2 =>
    c.withOperand fun c _ =>
      let c : Core := { c with wz := c.assemble16 }
      (if c.cond y then { c with pc := c.wz } else c).finish
  | 3 => c.microX33 y
  | 4 =>
    c.withOperand fun c step =>
      match step with
      | 0 =>
        let c : Core := { c with wz := c.assemble16 }
        if c.cond y then c.reqInternal 1 else c.finish
      | step + 1 => c.callTail step
  | 5 =>
    if qbit = 0 then
      match c.seq.step with
      | 0 => c.reqInternal 1
      | 1 => c.pushByte (hi (c.getRp2 p))
      | 2 => c.pushByte (lo (c.getRp2 p))
      | _ => c.finish
    else if p = 0 then
      c.withOperand fun c step =>
        match step with
        | 0 => { c with wz := c.assemble16 }.reqInternal 1
        | step + 1 => c.callTail step
    else c.undecoded
  | 6 =>
    match c.seq.step with
    | 0 => c.readPc
    | _ => (c.alu y c.tmp).finish
  | _ =>
    match c.seq.step with
    | 0 => c.reqInternal 1
    | 1 => c.pushByte (hi c.pc)
    | 2 => c.pushByte (lo c.pc)
    | _ => (c.jump (BitVec.ofNat 16 (y * 8))).finish

def micro (c : Core) : Core × MC :=
  let y := opY c.seq.opcode
  let z := opZ c.seq.opcode
  match opX c.seq.opcode with
  | 0 => c.microX0 y z
  | 1 => c.microX1 y z
  | 2 =>
    if z = 6 then
      match c.seq.step with
      | 0 => c.reqRead c.hl
      | _ => (c.alu y c.tmp).finish
    else (c.alu y (c.getR z)).finish
  | _ => c.microX3 y z

/-- `run_micro`: dispatch on the interrupt, prefix and index state. -/
def runMicro (c : Core) : Core × MC :=
  if c.seq.servicing ≠ .none then c.microInterrupt
  else if c.seq.prefixByte = 0xCB then c.microCb
  else if c.seq.prefixByte = 0xED then c.microEd
  else if c.seq.index ≠ .hl ∧ c.seq.opcode = 0xCB then c.microDdcb
  else if c.seq.index ≠ .hl ∧ idxUsesMem c.seq.opcode then c.microIndex
  else c.micro

/-! ## What a micro-operation can do to the sequencer -/

/-- What a micro-operation may return to an instruction at `s`. -/
def Ends (s : Seq) (r : Core × MC) : Prop :=
  r.2 = .m1 ∧ s.Finished r.1.seq ∨ r.1.seq = s ∧ r.2.Valid ∧ s.step < 6

variable {s : Seq} {c : Core}

@[simp] theorem ends_finish :
    Ends s c.finish ↔ c.seq.servicing = .none ∧ c.seq.instrCount = s.instrCount := by
  simp only [Ends, finish, MC.Valid, true_and, false_and, and_false, or_false]
  constructor
  · rintro ⟨-, -, -, hs, hn⟩
    exact ⟨hs, by simpa using hn⟩
  · rintro ⟨hs, hn⟩
    exact ⟨rfl, rfl, rfl, hs, by simp [hn]⟩

@[simp] theorem ends_reqRead {a : Word} : Ends s (c.reqRead a) ↔ c.seq = s ∧ s.step < 6 := by
  simp [Ends, reqRead, MC.Valid]

@[simp] theorem ends_reqWrite {a : Word} {v : Byte} :
    Ends s (c.reqWrite a v) ↔ c.seq = s ∧ s.step < 6 := by
  simp [Ends, reqWrite, MC.Valid]

@[simp] theorem ends_reqInternal {n : Nat} :
    Ends s (c.reqInternal n) ↔ c.seq = s ∧ 1 ≤ n ∧ s.step < 6 := by
  simp [Ends, reqInternal, MC.Valid]

@[simp] theorem ends_reqIoRead {a : Word} : Ends s (c.reqIoRead a) ↔ c.seq = s ∧ s.step < 6 := by
  simp [Ends, reqIoRead, MC.Valid]

@[simp] theorem ends_reqIoWrite {a : Word} {v : Byte} :
    Ends s (c.reqIoWrite a v) ↔ c.seq = s ∧ s.step < 6 := by
  simp [Ends, reqIoWrite, MC.Valid]

@[simp] theorem ends_reqIoack {n : Nat} :
    Ends s (c.reqIoack n) ↔ c.seq = s ∧ 2 ≤ n ∧ s.step < 6 := by
  simp [Ends, reqIoack, MC.Valid]

@[simp] theorem ends_readPc : Ends s c.readPc ↔ c.seq = s ∧ s.step < 6 := by
  simp [readPc]

@[simp] theorem ends_readSp : Ends s c.readSp ↔ c.seq = s ∧ s.step < 6 := by
  simp [readSp]

@[simp] theorem ends_pushByte {v : Byte} : Ends s (c.pushByte v) ↔ c.seq = s ∧ s.step < 6 := by
  simp [pushByte]

@[simp] theorem ends_undecoded :
    Ends s c.undecoded ↔ c.seq.servicing = .none ∧ c.seq.instrCount = s.instrCount := by
  simp [undecoded]

@[simp] theorem ends_endInterrupt : Ends s c.endInterrupt ↔ c.seq.instrCount = s.instrCount := by
  simp [endInterrupt]

@[simp] theorem seq_latchLow : c.latchLow.seq = c.seq := rfl

@[simp] theorem seq_latchIndexed : c.latchIndexed.seq = c.seq := rfl

@[simp] theorem seq_jump {v : Word} : (c.jump v).seq = c.seq := rfl

@[simp] theorem seq_rewind : c.rewind.seq = c.seq := rfl

@[simp] theorem seq_incDec {z : Nat} {v : Byte} : (c.incDec z v).2.seq = c.seq := by
  unfold incDec
  split_ifs <;> simp

@[simp] theorem seq_cbResult {x y : Nat} {v : Byte} : (c.cbResult x y v).2.seq = c.seq := by
  unfold cbResult
  split_ifs <;> simp

theorem ends_microInterrupt : Ends c.seq c.microInterrupt := by
  unfold microInterrupt
  repeat' split
  all_goals simp [*]

/-! Outside the interrupt sequence `servicing` is clear, so every handler may finish. -/

variable {y z : Nat} {inc rep : Bool}

theorem ends_blockLd (hs : c.seq.servicing = .none) : Ends c.seq (c.blockLd inc rep) := by
  unfold blockLd
  repeat' split
  all_goals simp [*]

theorem ends_blockCp (hs : c.seq.servicing = .none) : Ends c.seq (c.blockCp inc rep) := by
  unfold blockCp
  repeat' split
  all_goals simp [*]

theorem ends_blockIoTail {val : Byte} {k : Nat} (hc : c.seq = s) (hs : s.servicing = .none)
    (hstep : s.step < 6) : Ends s (c.blockIoTail rep val k) := by
  unfold blockIoTail
  dsimp only
  split <;> simp [*]

theorem ends_blockIn (hs : c.seq.servicing = .none) : Ends c.seq (c.blockIn inc rep) := by
  unfold blockIn
  split
  case h_4 h => exact ends_blockIoTail rfl hs (by omega)
  all_goals simp [*]

theorem ends_blockOut (hs : c.seq.servicing = .none) : Ends c.seq (c.blockOut inc rep) := by
  unfold blockOut
  split
  case h_4 h => exact ends_blockIoTail rfl hs (by omega)
  all_goals simp [*]

theorem ends_microEd1 (hs : c.seq.servicing = .none) : Ends c.seq (c.microEd1 y z) := by
  unfold microEd1 withOperand withPopped afterInternal rotateDigit
  dsimp only
  repeat' split
  all_goals simp [*]

theorem ends_microEd (hs : c.seq.servicing = .none) : Ends c.seq c.microEd := by
  unfold microEd
  dsimp only
  repeat' split
  · exact ends_microEd1 hs
  · exact ends_blockLd hs
  · exact ends_blockCp hs
  · exact ends_blockIn hs
  · exact ends_blockOut hs
  · simp [hs]

theorem ends_microCb (hs : c.seq.servicing = .none) : Ends c.seq c.microCb := by
  unfold microCb
  dsimp only
  repeat' split
  all_goals simp [*]

theorem ends_microIndex (hs : c.seq.servicing = .none) : Ends c.seq c.microIndex := by
  unfold microIndex
  dsimp only
  repeat' split
  all_goals simp [*]

theorem ends_microDdcb (hs : c.seq.servicing = .none) : Ends c.seq c.microDdcb := by
  unfold microDdcb
  dsimp only
  repeat' split
  all_goals simp [*]

theorem ends_microX0 (hs : c.seq.servicing = .none) : Ends c.seq (c.microX0 y z) := by
  unfold microX0 withOperand afterInternal
  dsimp only
  repeat' split
  all_goals simp [*]

theorem ends_microX1 (hs : c.seq.servicing = .none) : Ends c.seq (c.microX1 y z) := by
  unfold microX1
  repeat' split
  all_goals simp [*]

theorem ends_microX3 (hs : c.seq.servicing = .none) : Ends c.seq (c.microX3 y z) := by
  unfold microX3 microX33 exSpHl callTail withOperand withPopped afterInternal
  dsimp only
  repeat' split
  all_goals simp [*]

theorem ends_micro (hs : c.seq.servicing = .none) : Ends c.seq c.micro := by
  unfold micro
  dsimp only
  split
  · exact ends_microX0 hs
  · exact ends_microX1 hs
  · repeat' split
    all_goals simp [*]
  · exact ends_microX3 hs

/-- Either the instruction finishes, or the sequencer waits where it was for a machine cycle. -/
theorem runMicro_spec (c : Core) : Ends c.seq c.runMicro := by
  unfold runMicro
  split_ifs with hint hcb hed hdd hix
  · exact ends_microInterrupt
  all_goals rw [Decidable.not_not] at hint
  · exact ends_microCb hint
  · exact ends_microEd hint
  · exact ends_microDdcb hint
  · exact ends_microIndex hint
  · exact ends_micro hint

/-- No instruction has more than six machine cycles after its fetch. -/
theorem runMicro_finishes (c : Core) (h : 6 ≤ c.seq.step) : c.runMicro.2 = .m1 := by
  rcases c.runMicro_spec with ⟨hm, -⟩ | ⟨-, -, hstep⟩
  · exact hm
  · omega

end Core

end Koncepcja.Z80
