import Koncepcja.Z80.Batch

/-!
# The Interrupt Flip-Flops

`src/hw/z80.cpp`: what the micro-operations do to `iff1`, `iff2` and the shadow of EI. EI, DI and
RETN write them and nothing else does.

## Main results

- `runMicro_ei`, `runMicro_di`, `enable_runMicro_retn`: the three writers.
- `enable_runMicro_other`: every other micro-operation leaves the flip-flops alone.
-/

namespace Koncepcja.Z80

/-- `iff1`, `iff2` and `ei_delay`. -/
structure Enable where
  iff1 : Bool
  iff2 : Bool
  eiDelay : Bool
  deriving DecidableEq, Repr

namespace Core

def enable (c : Core) : Enable := ⟨c.iff1, c.iff2, c.eiDelay⟩

/-! ## Nothing in the register file touches them -/

@[simp] theorem enable_setA (c : Core) (v : Byte) : (c.setA v).enable = c.enable := rfl

@[simp] theorem enable_setF (c : Core) (v : Byte) : (c.setF v).enable = c.enable := rfl

@[simp] theorem enable_setIdxHl (c : Core) (v : Word) : (c.setIdxHl v).enable = c.enable := by
  unfold setIdxHl
  split <;> rfl

@[simp] theorem enable_setIdxH (c : Core) (v : Byte) : (c.setIdxH v).enable = c.enable := by
  simp [setIdxH]

@[simp] theorem enable_setIdxL (c : Core) (v : Byte) : (c.setIdxL v).enable = c.enable := by
  simp [setIdxL]

@[simp] theorem enable_setRReal (c : Core) (idx : Nat) (v : Byte) :
    (c.setRReal idx v).enable = c.enable := by
  unfold setRReal
  split <;> rfl

@[simp] theorem enable_setR (c : Core) (idx : Nat) (v : Byte) :
    (c.setR idx v).enable = c.enable := by
  unfold setR
  split_ifs <;> simp

@[simp] theorem enable_setRp (c : Core) (p : Nat) (v : Word) :
    (c.setRp p v).enable = c.enable := by
  unfold setRp
  split
  · rfl
  · rfl
  · exact c.enable_setIdxHl v
  · rfl
  · rfl

@[simp] theorem enable_setRp2 (c : Core) (p : Nat) (v : Word) :
    (c.setRp2 p v).enable = c.enable := by
  unfold setRp2
  split
  · rfl
  · rfl
  · exact c.enable_setIdxHl v
  · rfl
  · rfl

@[simp] theorem enable_alu (c : Core) (kind : Nat) (val : Byte) :
    (c.alu kind val).enable = c.enable := by
  unfold alu aluAdd aluSub
  split <;> simp

@[simp] theorem enable_accRot (c : Core) (op : Nat) : (c.accRot op).enable = c.enable := rfl

@[simp] theorem enable_daa (c : Core) : c.daa.enable = c.enable := rfl

@[simp] theorem enable_cpl (c : Core) : c.cpl.enable = c.enable := rfl

@[simp] theorem enable_scf (c : Core) : c.scf.enable = c.enable := rfl

@[simp] theorem enable_ccf (c : Core) : c.ccf.enable = c.enable := rfl

@[simp] theorem enable_add16 (c : Core) (val : Word) : (c.add16 val).enable = c.enable := by
  simp only [add16, enable_setF, enable_setIdxHl]
  rfl

@[simp] theorem enable_adc16 (c : Core) (val : Word) : (c.adc16 val).enable = c.enable := rfl

@[simp] theorem enable_sbc16 (c : Core) (val : Word) : (c.sbc16 val).enable = c.enable := rfl

@[simp] theorem enable_neg (c : Core) : c.neg.enable = c.enable := rfl

@[simp] theorem enable_ldAIr (c : Core) (val : Byte) : (c.ldAIr val).enable = c.enable := rfl

@[simp] theorem enable_cbBit (c : Core) (n : Nat) (val xy : Byte) :
    (c.cbBit n val xy).enable = c.enable := rfl

@[simp] theorem enable_cbResult (c : Core) (x y : Nat) (v : Byte) :
    (c.cbResult x y v).2.enable = c.enable := by
  unfold cbResult
  split_ifs <;> rfl

@[simp] theorem enable_incDec (c : Core) (z : Nat) (v : Byte) :
    (c.incDec z v).2.enable = c.enable := by
  unfold incDec
  split_ifs <;> rfl

@[simp] theorem enable_bumpRefresh (c : Core) : c.bumpRefresh.enable = c.enable := rfl

@[simp] theorem enable_pcinc (c : Core) : c.pcinc.enable = c.enable := rfl

@[simp] theorem enable_latchLow (c : Core) : c.latchLow.enable = c.enable := rfl

@[simp] theorem enable_latchIndexed (c : Core) : c.latchIndexed.enable = c.enable := rfl

@[simp] theorem enable_jump (c : Core) (v : Word) : (c.jump v).enable = c.enable := rfl

@[simp] theorem enable_rewind (c : Core) : c.rewind.enable = c.enable := rfl

/-! ## Nor does a request, or the end of the instruction -/

@[simp] theorem enable_finish (c : Core) : c.finish.1.enable = c.enable := rfl

@[simp] theorem enable_reqRead (c : Core) (a : Word) : (c.reqRead a).1.enable = c.enable := rfl

@[simp] theorem enable_reqWrite (c : Core) (a : Word) (v : Byte) :
    (c.reqWrite a v).1.enable = c.enable := rfl

@[simp] theorem enable_reqInternal (c : Core) (n : Nat) :
    (c.reqInternal n).1.enable = c.enable := rfl

@[simp] theorem enable_reqIoRead (c : Core) (a : Word) : (c.reqIoRead a).1.enable = c.enable :=
  rfl

@[simp] theorem enable_reqIoWrite (c : Core) (a : Word) (v : Byte) :
    (c.reqIoWrite a v).1.enable = c.enable := rfl

@[simp] theorem enable_reqIoack (c : Core) (n : Nat) : (c.reqIoack n).1.enable = c.enable := rfl

@[simp] theorem enable_readPc (c : Core) : c.readPc.1.enable = c.enable := rfl

@[simp] theorem enable_readSp (c : Core) : c.readSp.1.enable = c.enable := rfl

@[simp] theorem enable_pushByte (c : Core) (v : Byte) : (c.pushByte v).1.enable = c.enable := rfl

@[simp] theorem enable_undecoded (c : Core) : c.undecoded.1.enable = c.enable := rfl

@[simp] theorem enable_endInterrupt (c : Core) : c.endInterrupt.1.enable = c.enable := rfl

/-! ## Handlers without EI, DI and RETN -/

theorem enable_microInterrupt (c : Core) : c.microInterrupt.1.enable = c.enable := by
  unfold microInterrupt
  repeat' split
  all_goals rfl

theorem enable_blockLd (c : Core) (inc rep : Bool) : (c.blockLd inc rep).1.enable = c.enable := by
  unfold blockLd
  dsimp only
  repeat' split
  all_goals rfl

theorem enable_blockCp (c : Core) (inc rep : Bool) : (c.blockCp inc rep).1.enable = c.enable := by
  unfold blockCp
  dsimp only
  repeat' split
  all_goals rfl

theorem enable_blockIoTail (c : Core) (rep : Bool) (val : Byte) (k : Nat) :
    (c.blockIoTail rep val k).1.enable = c.enable := by
  unfold blockIoTail
  dsimp only
  split <;> rfl

theorem enable_blockIn (c : Core) (inc rep : Bool) : (c.blockIn inc rep).1.enable = c.enable := by
  unfold blockIn
  dsimp only
  split
  case h_4 => exact enable_blockIoTail ..
  all_goals rfl

theorem enable_blockOut (c : Core) (inc rep : Bool) :
    (c.blockOut inc rep).1.enable = c.enable := by
  unfold blockOut
  dsimp only
  split
  case h_4 => exact enable_blockIoTail ..
  all_goals rfl

theorem enable_microCb (c : Core) : c.microCb.1.enable = c.enable := by
  unfold microCb
  dsimp only
  repeat' split
  all_goals simp

theorem enable_microIndex (c : Core) : c.microIndex.1.enable = c.enable := by
  unfold microIndex
  dsimp only
  repeat' split
  all_goals simp

theorem enable_microDdcb (c : Core) : c.microDdcb.1.enable = c.enable := by
  unfold microDdcb
  dsimp only
  repeat' split
  all_goals simp

theorem enable_microX0 (c : Core) (y z : Nat) : (c.microX0 y z).1.enable = c.enable := by
  unfold microX0 withOperand afterInternal
  dsimp only
  repeat' split
  all_goals first | rfl | simp

theorem enable_microX1 (c : Core) (y z : Nat) : (c.microX1 y z).1.enable = c.enable := by
  unfold microX1
  repeat' split
  all_goals first | rfl | simp

theorem enable_rotateDigit (c : Core) (y : Nat) : (c.rotateDigit y).1.enable = c.enable := by
  unfold rotateDigit
  dsimp only
  repeat' split
  all_goals rfl

@[simp] theorem enable_withWz (c : Core) (v : Word) : { c with wz := v }.enable = c.enable := rfl

theorem enable_exSpHl (c : Core) : c.exSpHl.1.enable = c.enable := by
  unfold exSpHl
  split
  case h_6 => rw [enable_reqInternal, enable_withWz, enable_setIdxH, enable_setIdxL]
  all_goals rfl

theorem enable_callTail (c : Core) (step : Nat) : (c.callTail step).1.enable = c.enable := by
  unfold callTail
  split <;> rfl

theorem enable_microEd1 (c : Core) (y : Nat) {z : Nat} (hz : z ≠ 5) :
    (c.microEd1 y z).1.enable = c.enable := by
  unfold microEd1 withOperand afterInternal
  split
  case h_6 => exact absurd rfl hz
  case h_4 =>
    split
    · rfl
    · rfl
    · dsimp only
      split <;> first | rfl | simp
  case h_8 =>
    split
    case h_5 => exact c.enable_rotateDigit 4
    case h_6 => exact c.enable_rotateDigit 5
    all_goals
      repeat' split
      all_goals rfl
  all_goals
    repeat' split
    all_goals first | rfl | simp

theorem enable_microX33 (c : Core) {y : Nat} (hdi : y ≠ 6) (hei : y ≠ 7) :
    (c.microX33 y).1.enable = c.enable := by
  unfold microX33 withOperand
  split
  case h_4 => exact c.enable_exSpHl
  case h_6 => exact absurd rfl hdi
  case h_7 => exact absurd rfl hei
  all_goals
    repeat' split
    all_goals rfl

theorem enable_microX3 (c : Core) {y z : Nat} (h : z = 3 → y ≠ 6 ∧ y ≠ 7) :
    (c.microX3 y z).1.enable = c.enable := by
  unfold microX3 withOperand withPopped afterInternal
  dsimp only
  split
  case h_4 => exact c.enable_microX33 (h rfl).1 (h rfl).2
  all_goals
    repeat' split
    all_goals first | rfl | simp [enable_callTail]

/-! ## Every micro-operation -/

/-- The opcode is one of the plain table, under an index prefix or not. -/
def Plain (c : Core) : Prop :=
  c.seq.servicing = .none ∧ c.seq.prefixByte ≠ 0xCB ∧ c.seq.prefixByte ≠ 0xED

/-- RETN, RETI and their mirrors: the whole column of the ED table. -/
def AtRetn (c : Core) : Prop :=
  c.seq.servicing = .none ∧ c.seq.prefixByte = 0xED ∧ opX c.seq.opcode = 1 ∧
    opZ c.seq.opcode = 5

theorem runMicro_of_plain {c : Core} (h : c.Plain) (hcb : c.seq.opcode ≠ 0xCB)
    (hmem : idxUsesMem c.seq.opcode = false) : c.runMicro = c.micro := by
  obtain ⟨hs, hnotCb, hnotEd⟩ := h
  rw [runMicro, if_neg fun hne => hne hs, if_neg hnotCb, if_neg hnotEd,
    if_neg fun hix => hcb hix.2, if_neg fun hix => by simp [hmem] at hix]

/-- EI. -/
theorem runMicro_ei {c : Core} (h : c.Plain) (hop : c.seq.opcode = 0xFB) :
    c.runMicro = { c with iff1 := true, iff2 := true, eiDelay := true }.finish := by
  rw [runMicro_of_plain h (by rw [hop]; decide) (by rw [hop]; decide)]
  simp only [micro, hop]
  rfl

/-- DI. -/
theorem runMicro_di {c : Core} (h : c.Plain) (hop : c.seq.opcode = 0xF3) :
    c.runMicro = { c with iff1 := false, iff2 := false }.finish := by
  rw [runMicro_of_plain h (by rw [hop]; decide) (by rw [hop]; decide)]
  simp only [micro, hop]
  rfl

/-- RETN copies IFF2 on its last machine cycle. -/
theorem enable_runMicro_retn {c : Core} (h : c.AtRetn) :
    c.runMicro.1.enable =
      if c.runMicro.2 = .m1 then ⟨c.iff2, c.iff2, c.eiDelay⟩ else c.enable := by
  obtain ⟨hs, hed, hx, hz⟩ := h
  have hrun : c.runMicro = c.microEd1 (opY c.seq.opcode) 5 := by
    simp [runMicro, hs, hed, microEd, hx, hz]
  rw [hrun]
  change (c.withPopped _).1.enable = if (c.withPopped _).2 = .m1 then _ else _
  unfold withPopped
  split <;> rfl

theorem enable_microEd (c : Core) (h : ¬(opX c.seq.opcode = 1 ∧ opZ c.seq.opcode = 5)) :
    c.microEd.1.enable = c.enable := by
  unfold microEd
  dsimp only
  split
  · next hx => exact c.enable_microEd1 _ fun hz => h ⟨hx, hz⟩
  · split
    · split
      · exact c.enable_blockLd ..
      · exact c.enable_blockCp ..
      · exact c.enable_blockIn ..
      · exact c.enable_blockOut ..
    · rfl

theorem opcode_eq (op : Byte) : op.toNat = 64 * opX op + 8 * opY op + opZ op := by
  simp only [opX, opY, opZ]
  omega

theorem enable_micro (c : Core) (hei : c.seq.opcode ≠ 0xFB) (hdi : c.seq.opcode ≠ 0xF3) :
    c.micro.1.enable = c.enable := by
  unfold micro
  dsimp only
  split
  · exact c.enable_microX0 _ _
  · exact c.enable_microX1 _ _
  · repeat' split
    all_goals simp
  · -- Only in the last quarter of the opcodes can `ei` and `di` be; `hei` and `hdi` rule them out.
    next h0 h1 h2 =>
    apply enable_microX3
    intro hz
    have hlt := c.seq.opcode.isLt
    have hop := opcode_eq c.seq.opcode
    have hx : opX c.seq.opcode = 3 := by
      have hx4 : opX c.seq.opcode < 4 := by
        simp only [opX]
        omega
      have h0 : opX c.seq.opcode ≠ 0 := h0
      have h1 : opX c.seq.opcode ≠ 1 := h1
      have h2 : opX c.seq.opcode ≠ 2 := h2
      omega
    constructor
    · intro hy
      exact hdi (BitVec.eq_of_toNat_eq (by rw [hop, hx, hy, hz]; rfl))
    · intro hy
      exact hei (BitVec.eq_of_toNat_eq (by rw [hop, hx, hy, hz]; rfl))

/-- Every other micro-operation leaves the flip-flops and the shadow of EI alone. -/
theorem enable_runMicro_other {c : Core} (hei : c.Plain → c.seq.opcode ≠ 0xFB)
    (hdi : c.Plain → c.seq.opcode ≠ 0xF3) (hretn : ¬c.AtRetn) :
    c.runMicro.1.enable = c.enable := by
  unfold runMicro
  split_ifs with hint hcb hed hdd hix
  · exact c.enable_microInterrupt
  all_goals rw [Decidable.not_not] at hint
  · exact c.enable_microCb
  · exact c.enable_microEd fun h => hretn ⟨hint, hed, h⟩
  · exact c.enable_microDdcb
  · exact c.enable_microIndex
  · exact c.enable_micro (hei ⟨hint, hcb, hed⟩) (hdi ⟨hint, hcb, hed⟩)

end Core

end Koncepcja.Z80
