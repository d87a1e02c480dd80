import Koncepcja.Z80.BatchEnds

/-!
# Block Copy

LDIR and LDDR of `src/hw/z80.cpp` copy one byte in each batch step, and rewind onto themselves as long as BC is not
zero. Over all of the steps they copy byte by byte, upwards or downwards, each byte read from the memory the bytes
before it have left.

## Main results

- `z80BatchStep_blockLd`: one iteration.
- `batchRun_blockLd`: all of them.
-/

namespace Koncepcja.Z80

/-! ## The copy -/

/-- A pointer `n` bytes on, upwards or downwards. -/
def stepped (inc : Bool) (n : Nat) (w : Word) : Word := if inc then w + BitVec.ofNat 16 n else w - BitVec.ofNat 16 n

/-- `n` bytes, one after the other, each from the memory the ones before have left. -/
def copyBytes (inc : Bool) : Nat → Word → Word → (Word → Byte) → Word → Byte
  | 0, _, _, mem => mem
  | n + 1, src, dst, mem => copyBytes inc n (stepped inc 1 src) (stepped inc 1 dst) (Function.update mem dst (mem src))

/-- The number of bytes that BC asks for. -/
def byteCount (bc : Word) : Nat := if bc = 0 then 0x10000 else bc.toNat

/-- LDIR or LDDR, after its ED. -/
def blockOpcode (inc : Bool) : Byte := if inc then 0xB0 else 0xB8

/-- The instruction is in the memory. -/
def InPlace (inc : Bool) (pc : Word) (mem : Word → Byte) : Prop := mem pc = 0xED ∧ mem (pc + 1) = blockOpcode inc

variable {inc : Bool} {pc src dst bc : Word} {mem : Word → Byte}

theorem stepped_zero (w : Word) : stepped inc 0 w = w := by
  cases inc
  · exact BitVec.sub_zero w
  · exact BitVec.add_zero w

theorem stepped_succ (n : Nat) (w : Word) : stepped inc n (stepped inc 1 w) = stepped inc (n + 1) w := by
  have hsum : BitVec.ofNat 16 (n + 1) = BitVec.ofNat 16 1 + BitVec.ofNat 16 n := by
    rw [Nat.add_comm, BitVec.ofNat_add]
  cases inc
  · exact (BitVec.sub_sub _ _ _).trans (congrArg (w - ·) hsum.symm)
  · exact (BitVec.add_assoc _ _ _).trans (congrArg (w + ·) hsum.symm)

theorem stepped_one (w : Word) : stepped inc 1 w = w + Core.stride inc := by
  cases inc
  · exact BitVec.sub_eq_add_neg w 1
  · rfl

theorem byteCount_pos (bc : Word) : 0 < byteCount bc := by
  rw [byteCount]
  split
  · decide
  · rename_i hne
    exact Nat.pos_of_ne_zero fun h0 => hne (BitVec.eq_of_toNat_eq h0)

theorem byteCount_last (h : bc - 1 = 0) : byteCount bc = 1 := by
  have hone : bc = 1 := (BitVec.sub_eq_iff_eq_add.mp h).trans (BitVec.zero_add 1)
  rw [hone]
  rfl

theorem byteCount_more (h : bc - 1 ≠ 0) : byteCount bc = byteCount (bc - 1) + 1 := by
  rw [byteCount, byteCount, if_neg h]
  by_cases hbc : bc = 0
  · rw [if_pos hbc, hbc]
    rfl
  · have hpos : 0 < bc.toNat := Nat.pos_of_ne_zero fun h0 => hbc (BitVec.eq_of_toNat_eq h0)
    have hlt := bc.isLt
    have hone : (1 : Word).toNat = 1 := rfl
    rw [if_neg hbc, BitVec.toNat_sub, hone]
    omega

theorem InPlace.update (h : InPlace inc pc mem) (val : Byte) (hpc : dst ≠ pc) (hop : dst ≠ pc + 1) :
    InPlace inc pc (Function.update mem dst val) := by
  refine ⟨?_, ?_⟩
  · rw [Function.update_of_ne hpc.symm]
    exact h.1
  · rw [Function.update_of_ne hop.symm]
    exact h.2

theorem InPlace.copyBytes (h : InPlace inc pc mem) (n : Nat)
    (hapart : ∀ i < n, stepped inc i dst ≠ pc ∧ stepped inc i dst ≠ pc + 1) :
    InPlace inc pc (copyBytes inc n src dst mem) := by
  induction n generalizing src dst mem with
  | zero => exact h
  | succ n ih =>
    have hfirst := hapart 0 (Nat.zero_lt_succ n)
    rw [stepped_zero] at hfirst
    rw [Z80.copyBytes]
    apply ih
    · exact h.update _ hfirst.1 hfirst.2
    · intro i hi
      rw [stepped_succ]
      exact hapart (i + 1) (Nat.succ_lt_succ hi)

/-! ## One iteration -/

/-- An instruction boundary, with nothing to wake up for or to accept. -/
structure Boundary (cpu : Cpu) : Prop where
  nmiPending : cpu.nmiPending = false
  halted : cpu.core.seq.halted = false
  prefixByte : cpu.core.seq.prefixByte = 0
  index : cpu.core.seq.index = .hl
  servicing : cpu.core.seq.servicing = .none

/-- What one iteration does. -/
structure Iterated (inc : Bool) (cpu cpu' : Cpu) : Prop where
  boundary : Boundary cpu'
  hl : cpu'.core.hl = stepped inc 1 cpu.core.hl
  de : cpu'.core.de = stepped inc 1 cpu.core.de
  bc : cpu'.core.bc = cpu.core.bc - 1
  pc : cpu'.core.pc = if cpu.core.bc - 1 = 0 then cpu.core.pc + 2 else cpu.core.pc
  wz : cpu'.core.wz = if cpu.core.bc - 1 = 0 then cpu.core.wz else cpu.core.pc + 1
  a : cpu'.core.a = cpu.core.a
  kept : cpu'.core.f &&& (SF ||| ZF ||| CF) = cpu.core.f &&& (SF ||| ZF ||| CF)
  cleared : cpu'.core.f &&& (HF ||| NF) = 0
  parity : cpu'.core.f &&& PF = if cpu.core.bc - 1 = 0 then 0 else PF
  iff1 : cpu'.core.iff1 = cpu.core.iff1
  instrCount : cpu'.core.seq.instrCount = cpu.core.seq.instrCount + 1
  tstates : cpu'.tstates = cpu.tstates + if cpu.core.bc - 1 = 0 then 16 else 21

/-- Between two machine cycles of the instruction. -/
structure InCopy (inc : Bool) (step : Nat) (c : Core) : Prop where
  step : c.seq.step = step
  prefixByte : c.seq.prefixByte = 0xED
  opcode : c.seq.opcode = blockOpcode inc
  servicing : c.seq.servicing = .none

theorem InCopy.runMicro {step : Nat} {c : Core} (h : InCopy inc step c) : c.runMicro = c.blockLd inc true := by
  have hmicro : c.runMicro = c.microEd := by
    rw [Core.runMicro, if_neg (not_not.mpr h.servicing), h.prefixByte]
    rfl
  rw [hmicro, Core.microEd, h.opcode]
  cases inc <;> rfl

namespace Core

/-- The pointers and the count moved on, and the flags of the byte just copied. -/
def moved (c : Core) (inc : Bool) : Core :=
  let c : Core := { c with hl := c.hl + stride inc, de := c.de + stride inc, bc := c.bc - 1 }
  let n := c.a + c.tmp
  c.setF ((c.f &&& (SF ||| ZF ||| CF)) ||| flagIf (c.bc != 0) PF
    ||| flagIf (isSet (n &&& 0x02)) YF ||| flagIf (isSet (n &&& 0x08)) XF)

/-- The flags of an iteration that repeats. -/
def rewound (c : Core) : Core :=
  c.rewind.setF ((c.rewind.f &&& (SF ||| ZF ||| CF)) ||| PF ||| (hi c.rewind.pc &&& (YF ||| XF)))

end Core

/-- One machine cycle of the instruction, of a given length, which left `c`. -/
def Cpu.cycle (cpu : Cpu) (c : Core) (len : Nat) : Cpu :=
  Cpu.bumpStep { cpu with core := c, tstates := cpu.tstates + len }

/-- An instruction that finishes here leaves everything else as it is. -/
def Cpu.finished (cpu : Cpu) : Cpu := { cpu with core := cpu.core.finish.1 }

section Iteration

variable {irqVector : Byte} {fuel : Nat} {cpu : Cpu} {w : World (Word → Byte)}

theorem runToFinish_read (h : InCopy inc 0 cpu.core) : runToFinish flatMemory irqVector false (fuel + 1) cpu w =
    runToFinish flatMemory irqVector false fuel (cpu.cycle { cpu.core with tmp := w.state cpu.core.hl } 3)
      (w.memRead flatMemory cpu.core.hl).2 := by
  rw [runToFinish, h.runMicro, Core.blockLd, h.step]
  rfl

theorem runToFinish_write (h : InCopy inc 1 cpu.core) : runToFinish flatMemory irqVector false (fuel + 1) cpu w =
    runToFinish flatMemory irqVector false fuel (cpu.cycle cpu.core 3)
      (w.memWrite flatMemory cpu.core.de cpu.core.tmp) := by
  rw [runToFinish, h.runMicro, Core.blockLd, h.step]
  rfl

theorem runToFinish_move (h : InCopy inc 2 cpu.core) : runToFinish flatMemory irqVector false (fuel + 1) cpu w =
    runToFinish flatMemory irqVector false fuel (cpu.cycle (cpu.core.moved inc) 2) w := by
  rw [runToFinish, h.runMicro, Core.blockLd, h.step]
  rfl

theorem runToFinish_rewind (h : InCopy inc 3 cpu.core) (hbc : cpu.core.bc ≠ 0) :
    runToFinish flatMemory irqVector false (fuel + 1) cpu w =
      runToFinish flatMemory irqVector false fuel (cpu.cycle cpu.core.rewound 5) w := by
  have hmore : (true && cpu.core.bc != 0) = true := (Bool.true_and _).trans (bne_iff_ne.mpr hbc)
  rw [runToFinish, h.runMicro, Core.blockLd, h.step]
  dsimp only
  rw [if_pos hmore]
  rfl

theorem runToFinish_last (h : InCopy inc 3 cpu.core) (hbc : cpu.core.bc = 0) :
    runToFinish flatMemory irqVector false (fuel + 1) cpu w = some (cpu.finished, w) := by
  have hlast : ¬ (true && cpu.core.bc != 0) = true := by rw [hbc]; decide
  rw [runToFinish, h.runMicro, Core.blockLd, h.step]
  dsimp only
  rw [if_neg hlast]
  rfl

theorem runToFinish_again (h : InCopy inc 4 cpu.core) :
    runToFinish flatMemory irqVector false (fuel + 1) cpu w = some (cpu.finished, w) := by
  rw [runToFinish, h.runMicro, Core.blockLd, h.step]
  rfl

theorem InCopy.cycle {step : Nat} {c : Core} (h : InCopy inc step cpu.core) (hseq : c.seq = cpu.core.seq) (len : Nat) :
    InCopy inc (step + 1) (cpu.cycle c len).core where
  step := by rw [← h.step]; exact congrArg (fun seq => seq.step + 1) hseq
  prefixByte := (congrArg Seq.prefixByte hseq).trans h.prefixByte
  opcode := (congrArg Seq.opcode hseq).trans h.opcode
  servicing := (congrArg Seq.servicing hseq).trans h.servicing

/-- The CPU after the byte is copied and the pointers are moved. -/
def Cpu.copied (cpu : Cpu) (inc : Bool) (val : Byte) : Cpu :=
  let cpu := cpu.cycle { cpu.core with tmp := val } 3
  let cpu := cpu.cycle cpu.core 3
  cpu.cycle (cpu.core.moved inc) 2

/-- The memory the byte was copied in. -/
def World.copied (w : World (Word → Byte)) (src dst : Word) : World (Word → Byte) :=
  (w.memRead flatMemory src).2.memWrite flatMemory dst (w.state src)

theorem runToFinish_copied (h : InCopy inc 0 cpu.core) : runToFinish flatMemory irqVector false (fuel + 3) cpu w =
    runToFinish flatMemory irqVector false fuel (cpu.copied inc (w.state cpu.core.hl))
      (w.copied cpu.core.hl cpu.core.de) := by
  have hread := h.cycle (c := { cpu.core with tmp := w.state cpu.core.hl }) rfl 3
  rw [runToFinish_read h, runToFinish_write hread, runToFinish_move (hread.cycle rfl 3)]
  rfl

/-! ## The flags -/

theorem hi_pair (h l : Byte) : hi (pair h l) = h := by
  unfold hi pair
  ext i hlt
  simp [show 8 + i < 16 by omega, show i < 16 by omega, BitVec.getLsbD_eq_getElem hlt]

theorem lo_pair (h l : Byte) : lo (pair h l) = l := by
  unfold lo pair
  ext i hlt
  simp

theorem flagIf_and (cond : Bool) {bit mask : Byte} (h : bit &&& mask = 0#8) : flagIf cond bit &&& mask = 0#8 := by
  cases cond
  · exact BitVec.zero_and
  · exact h

namespace Core

variable {c : Core}

theorem moved_f (c : Core) (inc : Bool) : (c.moved inc).f = (c.f &&& (SF ||| ZF ||| CF)) ||| flagIf (c.bc - 1 != 0) PF
    ||| flagIf (isSet ((c.a + c.tmp) &&& 0x02)) YF ||| flagIf (isSet ((c.a + c.tmp) &&& 0x08)) XF :=
  lo_pair _ _

theorem moved_a (c : Core) (inc : Bool) : (c.moved inc).a = c.a := hi_pair _ _

theorem moved_f_and (c : Core) (inc : Bool) {mask : Byte} (hy : YF &&& mask = 0#8) (hx : XF &&& mask = 0#8) :
    (c.moved inc).f &&& mask = (c.f &&& ((SF ||| ZF ||| CF) &&& mask)) ||| (flagIf (c.bc - 1 != 0) PF &&& mask) := by
  rw [moved_f, BitVec.and_or_distrib_right, BitVec.and_or_distrib_right, BitVec.and_or_distrib_right, flagIf_and _ hy,
    flagIf_and _ hx, BitVec.or_zero, BitVec.or_zero, BitVec.and_assoc]

theorem rewound_f (c : Core) : c.rewound.f =
    (c.f &&& (SF ||| ZF ||| CF)) ||| PF ||| (hi (c.pc - 2) &&& (YF ||| XF)) :=
  lo_pair _ _

theorem rewound_a (c : Core) : c.rewound.a = c.a := hi_pair _ _

theorem rewound_f_and (c : Core) {mask : Byte} (hundocumented : (YF ||| XF) &&& mask = 0#8) :
    c.rewound.f &&& mask = (c.f &&& ((SF ||| ZF ||| CF) &&& mask)) ||| (PF &&& mask) := by
  rw [rewound_f, BitVec.and_or_distrib_right, BitVec.and_or_distrib_right, BitVec.and_assoc,
    BitVec.and_assoc, hundocumented, BitVec.and_zero, BitVec.or_zero]

end Core

/-! ## The step -/

/-- The CPU with the instruction fetched: only PC and the sequencer matter. -/
structure Fetched (inc : Bool) (cpu cpu' : Cpu) : Prop where
  inCopy : InCopy inc 0 cpu'.core
  pc : cpu'.core.pc = cpu.core.pc + 2
  af : cpu'.core.af = cpu.core.af
  bc : cpu'.core.bc = cpu.core.bc
  de : cpu'.core.de = cpu.core.de
  hl : cpu'.core.hl = cpu.core.hl
  wz : cpu'.core.wz = cpu.core.wz
  iff1 : cpu'.core.iff1 = cpu.core.iff1
  halted : cpu'.core.seq.halted = cpu.core.seq.halted
  instrCount : cpu'.core.seq.instrCount = cpu.core.seq.instrCount
  tstates : cpu'.tstates = cpu.tstates + 8
  nmiPending : cpu'.nmiPending = cpu.nmiPending

theorem fetchM1_core (cpu : Cpu) (w : World (Word → Byte)) : (fetchM1 flatMemory false cpu w).1.core =
    { cpu.core with
      pc := cpu.core.pc + 1
      r := cpu.core.bumpRefresh.r
      seq := { cpu.core.seq with opcode := w.state cpu.core.pc } } := rfl

theorem fetchM1_nmiPending (cpu : Cpu) (w : World (Word → Byte)) :
    (fetchM1 flatMemory false cpu w).1.nmiPending = cpu.nmiPending := by
  dsimp only [fetchM1]

theorem fetchChain_block (hcpu : Boundary cpu) (hplace : InPlace inc cpu.core.pc w.state) :
    ∃ fetched, fetchChain flatMemory false (fuel + 2) cpu.beginM1 w = some fetched ∧
      Fetched inc cpu fetched.1.clearStep ∧ fetched.2.state = w.state := by
  let first := fetchM1 flatMemory false cpu.beginM1 w
  let core : Core := { first.1.core with seq := { first.1.core.seq with prefixByte := 0xED, index := .hl } }
  let second := fetchM1 flatMemory false { first.1 with core := core } first.2
  -- ED asks for another fetch, and no opcode behind it does.
  have hchain : chainPrefix first.1.core = some core := by
    have hop : first.1.core.seq.opcode = 0xED := hplace.1
    have hbyte : first.1.core.seq.prefixByte = 0 := hcpu.prefixByte
    rw [chainPrefix, hop, hbyte]
    rfl
  have hlast : chainPrefix second.1.core = none := chainPrefix_of_prefixByte (show (0xED : Byte) ≠ 0 by decide)
  have hrun : fetchChain flatMemory false (fuel + 2) cpu.beginM1 w = some second := by
    rw [fetchChain]
    dsimp only
    rw [hchain]
    dsimp only
    rw [fetchChain]
    dsimp only
    rw [hlast]
  have htwo : (1 : Word) + 1 = 2 := rfl
  -- Two fetches: the counter moves on by two, and R is bumped for each.
  have hcore : second.1.clearStep.core =
      { cpu.core with
        pc := cpu.core.pc + 2
        r := core.bumpRefresh.r
        qq := 0
        eiDelay := false
        seq :=
          { cpu.core.seq with step := 0, prefixByte := 0xED, index := .hl, opcode := w.state (cpu.core.pc + 1) } } := by
    rw [Cpu.clearStep, fetchM1_core, ← htwo, ← BitVec.add_assoc]
    dsimp only [core]
    rw [fetchM1_core]
    rfl
  refine ⟨second, hrun, ?_, rfl⟩
  exact
    { inCopy :=
        { step := by rw [hcore]
          prefixByte := by rw [hcore]
          opcode := by rw [hcore]; exact hplace.2
          servicing := by rw [hcore]; exact hcpu.servicing }
      pc := by rw [hcore]
      af := by rw [hcore]
      bc := by rw [hcore]
      de := by rw [hcore]
      hl := by rw [hcore]
      wz := by rw [hcore]
      iff1 := by rw [hcore]
      halted := by rw [hcore]
      instrCount := by rw [hcore]
      tstates := rfl
      nmiPending := by rw [Cpu.clearStep, fetchM1_nmiPending, fetchM1_nmiPending, Cpu.beginM1] }

/-- The byte is copied and the pointers are moved. -/
structure Moved (inc : Bool) (cpu cpu' : Cpu) : Prop where
  inCopy : InCopy inc 3 cpu'.core
  pc : cpu'.core.pc = cpu.core.pc + 2
  hl : cpu'.core.hl = stepped inc 1 cpu.core.hl
  de : cpu'.core.de = stepped inc 1 cpu.core.de
  bc : cpu'.core.bc = cpu.core.bc - 1
  wz : cpu'.core.wz = cpu.core.wz
  a : cpu'.core.a = cpu.core.a
  kept : cpu'.core.f &&& (SF ||| ZF ||| CF) = cpu.core.f &&& (SF ||| ZF ||| CF)
  cleared : cpu'.core.f &&& (HF ||| NF) = 0
  parity : cpu'.core.f &&& PF = flagIf (cpu.core.bc - 1 != 0) PF
  iff1 : cpu'.core.iff1 = cpu.core.iff1
  halted : cpu'.core.seq.halted = cpu.core.seq.halted
  instrCount : cpu'.core.seq.instrCount = cpu.core.seq.instrCount
  tstates : cpu'.tstates = cpu.tstates + 16
  nmiPending : cpu'.nmiPending = cpu.nmiPending

theorem Fetched.moved {cpu' : Cpu} (h : Fetched inc cpu cpu') (val : Byte) : Moved inc cpu (cpu'.copied inc val) := by
  let core : Core := { cpu'.core with tmp := val, seq := { cpu'.core.seq with step := cpu'.core.seq.step + 1 + 1 } }
  have hcore : (cpu'.copied inc val).core =
      { core.moved inc with seq := { core.seq with step := core.seq.step + 1 } } := rfl
  -- The read and the write leave the flags as they were fetched.
  have hf : core.f = cpu.core.f := congrArg lo h.af
  have hbc : core.bc = cpu.core.bc := h.bc
  have hflags : (cpu'.copied inc val).core.f = (core.moved inc).f := rfl
  exact
    { inCopy := ⟨congrArg (· + 3) h.inCopy.step, h.inCopy.prefixByte, h.inCopy.opcode, h.inCopy.servicing⟩
      pc := h.pc
      hl := (congrArg (· + Core.stride inc) h.hl).trans (stepped_one _).symm
      de := (congrArg (· + Core.stride inc) h.de).trans (stepped_one _).symm
      bc := congrArg (· - 1) h.bc
      wz := h.wz
      a := (core.moved_a inc).trans (congrArg hi h.af)
      kept := by
        rw [hflags, core.moved_f_and inc (by decide) (by decide), BitVec.and_self, hf, flagIf_and _ (by decide), BitVec.or_zero]
      cleared := by
        rw [hflags, core.moved_f_and inc (by decide) (by decide), flagIf_and _ (by decide), BitVec.or_zero]
        exact BitVec.and_zero
      parity := by
        have hnone : (SF ||| ZF ||| CF) &&& PF = 0#8 := by decide
        rw [hflags, core.moved_f_and inc (by decide) (by decide), hnone, BitVec.and_zero, BitVec.zero_or, hbc]
        cases cpu.core.bc - 1 != 0 <;> rfl
      iff1 := h.iff1
      halted := h.halted
      instrCount := h.instrCount
      tstates := by
        have htime : (cpu'.copied inc val).tstates = cpu'.tstates + 8 := rfl
        rw [htime, h.tstates]
      nmiPending := h.nmiPending }

variable {cpu' : Cpu}

theorem Moved.last (hcpu : Boundary cpu) (h : Moved inc cpu cpu') (hbc : cpu.core.bc - 1 = 0) :
    Iterated inc cpu cpu'.finished where
  boundary :=
    { nmiPending := h.nmiPending.trans hcpu.nmiPending
      halted := h.halted.trans hcpu.halted
      prefixByte := rfl
      index := rfl
      servicing := h.inCopy.servicing }
  hl := h.hl
  de := h.de
  bc := h.bc
  pc := by rw [if_pos hbc]; exact h.pc
  wz := by rw [if_pos hbc]; exact h.wz
  a := h.a
  kept := h.kept
  cleared := h.cleared
  parity := by
    rw [if_pos hbc]
    refine h.parity.trans ?_
    rw [hbc]
    rfl
  iff1 := h.iff1
  instrCount := congrArg (· + 1) h.instrCount
  tstates := by rw [if_pos hbc]; exact h.tstates

theorem Moved.again (hcpu : Boundary cpu) (h : Moved inc cpu cpu') (hbc : cpu.core.bc - 1 ≠ 0) :
    Iterated inc cpu (cpu'.cycle cpu'.core.rewound 5).finished := by
  -- Five more T-states put the counter back onto the ED.
  have hback : cpu'.core.pc - 2 = cpu.core.pc := by rw [h.pc, BitVec.add_sub_cancel]
  have hf : (cpu'.cycle cpu'.core.rewound 5).finished.core.f = cpu'.core.rewound.f := rfl
  exact
    { boundary :=
        { nmiPending := h.nmiPending.trans hcpu.nmiPending
          halted := h.halted.trans hcpu.halted
          prefixByte := rfl
          index := rfl
          servicing := h.inCopy.servicing }
      hl := h.hl
      de := h.de
      bc := h.bc
      pc := by rw [if_neg hbc]; exact hback
      wz := by rw [if_neg hbc]; exact congrArg (· + 1) hback
      a := cpu'.core.rewound_a.trans h.a
      kept := by
        rw [hf, cpu'.core.rewound_f_and (by decide), BitVec.and_self, h.kept]
        exact BitVec.or_zero
      cleared := by
        rw [hf, cpu'.core.rewound_f_and (by decide)]
        exact BitVec.or_zero.trans BitVec.and_zero
      parity := by
        have hnone : (SF ||| ZF ||| CF) &&& PF = 0#8 := by decide
        rw [if_neg hbc, hf, cpu'.core.rewound_f_and (by decide), hnone, BitVec.and_zero, BitVec.zero_or]
        rfl
      iff1 := h.iff1
      instrCount := congrArg (· + 1) h.instrCount
      tstates := by
        have htime : (cpu'.cycle cpu'.core.rewound 5).finished.tstates = cpu'.tstates + 5 := rfl
        rw [if_neg hbc, htime, h.tstates] }

/-- **One iteration**: a batch step copies one byte. -/
theorem z80BatchStep_blockLd {irq : Bool} (hfuel : 7 ≤ fuel) (hcpu : Boundary cpu) (hirq : (cpu.core.iff1 && irq) = false)
    (hplace : InPlace inc cpu.core.pc w.state) :
    ∃ cpu' w', z80BatchStep flatMemory irqVector false fuel irq cpu w =
        some (cpu', w', if cpu.core.bc - 1 = 0 then 16 else 21) ∧
      Iterated inc cpu cpu' ∧ w'.state = Function.update w.state cpu.core.de (w.state cpu.core.hl) := by
  -- No interrupt comes first: none is pending, and none is enabled.
  have hfetched : ¬ Unfetched irq cpu := by
    rintro (hhalted | hready)
    · exact absurd (hcpu.halted.symm.trans hhalted) Bool.false_ne_true
    · rw [Cpu.intReady, hcpu.nmiPending, hirq] at hready
      exact absurd hready Bool.false_ne_true
  obtain ⟨rest, rfl⟩ := Nat.exists_eq_add_of_le' hfuel
  obtain ⟨⟨fcpu, fw⟩, hchain, hfetch, hstate⟩ := @fetchChain_block inc (rest + 5) cpu w hcpu hplace
  have hmoved := hfetch.moved (w.state cpu.core.hl)
  have hcopied : (fw.copied cpu.core.hl cpu.core.de).state = Function.update w.state cpu.core.de (w.state cpu.core.hl) := by
    rw [← hstate]
    rfl
  have hrun := @runToFinish_copied inc irqVector (rest + 4) fcpu.clearStep fw hfetch.inCopy
  rw [hfetch.hl, hfetch.de, hstate] at hrun
  rw [z80BatchStep_fetched hfetched, hchain, Option.bind_some, hrun]
  -- The last iteration falls through, and any other rewinds the counter in five more T-states.
  by_cases hbc : cpu.core.bc - 1 = 0
  · have hlast := hmoved.last hcpu hbc
    have htime := hlast.tstates
    rw [if_pos hbc] at htime ⊢
    rw [runToFinish_last hmoved.inCopy (hmoved.bc.trans hbc), Option.map_some, htime, Nat.add_sub_cancel_left]
    exact ⟨_, _, rfl, hlast, hcopied⟩
  · have hagain := hmoved.again hcpu hbc
    have htime := hagain.tstates
    rw [if_neg hbc] at htime ⊢
    rw [runToFinish_rewind hmoved.inCopy (hmoved.bc.trans_ne hbc),
      runToFinish_again (hmoved.inCopy.cycle (c := Core.rewound _) rfl 5), Option.map_some, htime, Nat.add_sub_cancel_left]
    exact ⟨_, _, rfl, hagain, hcopied⟩

/-! ## The run -/

/-- A batch step for each level of the interrupt line: the CPU and the far side afterwards, and the T-states of each. -/
def batchRun {σ : Type} (agent : Agent σ) (irqVector : Byte) (grid : Bool) (fuel : Nat) :
    List Bool → Cpu → World σ → Option (Cpu × World σ × List Nat)
  | [], cpu, w => some (cpu, w, [])
  | irq :: irqs, cpu, w => do
    let (cpu, w, spent) ← z80BatchStep agent irqVector grid fuel irq cpu w
    let (cpu, w, rest) ← batchRun agent irqVector grid fuel irqs cpu w
    return (cpu, w, spent :: rest)

/-- What the whole copy does, in `n` iterations. -/
structure BlockCopied (inc : Bool) (n : Nat) (cpu cpu' : Cpu) : Prop where
  boundary : Boundary cpu'
  hl : cpu'.core.hl = stepped inc n cpu.core.hl
  de : cpu'.core.de = stepped inc n cpu.core.de
  bc : cpu'.core.bc = 0
  pc : cpu'.core.pc = cpu.core.pc + 2
  wz : cpu'.core.wz = if n = 1 then cpu.core.wz else cpu.core.pc + 1
  a : cpu'.core.a = cpu.core.a
  kept : cpu'.core.f &&& (SF ||| ZF ||| CF) = cpu.core.f &&& (SF ||| ZF ||| CF)
  cleared : cpu'.core.f &&& (HF ||| NF) = 0
  parity : cpu'.core.f &&& PF = 0
  iff1 : cpu'.core.iff1 = cpu.core.iff1
  instrCount : cpu'.core.seq.instrCount = cpu.core.seq.instrCount + n
  tstates : cpu'.tstates = cpu.tstates + (21 * (n - 1) + 16)

theorem Iterated.blockCopied_one (h : Iterated inc cpu cpu') (hbc : cpu.core.bc - 1 = 0) : BlockCopied inc 1 cpu cpu' where
  boundary := h.boundary
  hl := h.hl
  de := h.de
  bc := h.bc.trans hbc
  pc := h.pc.trans (if_pos hbc)
  wz := h.wz.trans (if_pos hbc)
  a := h.a
  kept := h.kept
  cleared := h.cleared
  parity := h.parity.trans (if_pos hbc)
  iff1 := h.iff1
  instrCount := h.instrCount
  tstates := by rw [h.tstates, if_pos hbc]

theorem Iterated.blockCopied {cpu'' : Cpu} {n : Nat} (hn : 0 < n) (h : Iterated inc cpu cpu') (hbc : cpu.core.bc - 1 ≠ 0)
    (hrest : BlockCopied inc n cpu' cpu'') : BlockCopied inc (n + 1) cpu cpu'' := by
  have hpc : cpu'.core.pc = cpu.core.pc := h.pc.trans (if_neg hbc)
  have hwz : cpu'.core.wz = cpu.core.pc + 1 := h.wz.trans (if_neg hbc)
  have htime : cpu'.tstates = cpu.tstates + 21 := by rw [h.tstates, if_neg hbc]
  exact
    { boundary := hrest.boundary
      hl := by rw [hrest.hl, h.hl, stepped_succ]
      de := by rw [hrest.de, h.de, stepped_succ]
      bc := hrest.bc
      pc := by rw [hrest.pc, hpc]
      wz := by
        rw [hrest.wz, hwz, hpc, if_neg (show n + 1 ≠ 1 by omega)]
        exact ite_self _
      a := hrest.a.trans h.a
      kept := hrest.kept.trans h.kept
      cleared := hrest.cleared
      parity := hrest.parity
      iff1 := hrest.iff1.trans h.iff1
      instrCount := by rw [hrest.instrCount, h.instrCount, Nat.add_right_comm, Nat.add_assoc]
      tstates := by
        rw [hrest.tstates, htime]
        omega }

/-- **LDIR and LDDR copy byte by byte**: as many iterations as BC asks for, wherever the copy does not change the
    instruction itself before the last of them. -/
theorem batchRun_blockLd (inc : Bool) (irqVector : Byte) {fuel : Nat} (hfuel : 7 ≤ fuel) (irqs : List Bool) (cpu : Cpu)
    (w : World (Word → Byte)) (hcpu : Boundary cpu) (hirqs : ∀ irq ∈ irqs, (cpu.core.iff1 && irq) = false)
    (hcount : irqs.length = byteCount cpu.core.bc)
    (hkept : ∀ i < byteCount cpu.core.bc, InPlace inc cpu.core.pc (copyBytes inc i cpu.core.hl cpu.core.de w.state)) :
    ∃ cpu' w', batchRun flatMemory irqVector false fuel irqs cpu w =
        some (cpu', w', List.replicate (byteCount cpu.core.bc - 1) 21 ++ [16]) ∧
      BlockCopied inc (byteCount cpu.core.bc) cpu cpu' ∧
      w'.state = copyBytes inc (byteCount cpu.core.bc) cpu.core.hl cpu.core.de w.state := by
  induction irqs generalizing cpu w with
  | nil => exact absurd hcount (Nat.ne_of_lt (byteCount_pos _))
  | cons irq irqs ih =>
    have hplace := hkept 0 (byteCount_pos _)
    obtain ⟨cpu₁, w₁, hstep, hiterated, hstate⟩ :=
      @z80BatchStep_blockLd inc irqVector fuel cpu w irq hfuel hcpu (hirqs irq List.mem_cons_self) hplace
    rw [batchRun, hstep]
    by_cases hbc : cpu.core.bc - 1 = 0
    · have hone := byteCount_last hbc
      rw [hone] at hcount ⊢
      rw [List.length_eq_zero_iff.mp (Nat.succ.inj hcount), if_pos hbc]
      exact ⟨cpu₁, w₁, rfl, hiterated.blockCopied_one hbc, hstate⟩
    · have hmore : byteCount cpu.core.bc = byteCount cpu₁.core.bc + 1 := by rw [hiterated.bc, byteCount_more hbc]
      have hpc : cpu₁.core.pc = cpu.core.pc := hiterated.pc.trans (if_neg hbc)
      have hpos := byteCount_pos cpu₁.core.bc
      -- the rest of the copy starts at the next byte, in the memory this one was copied in
      have hcopy : ∀ i, copyBytes inc i cpu₁.core.hl cpu₁.core.de w₁.state =
          copyBytes inc (i + 1) cpu.core.hl cpu.core.de w.state := by
        intro i
        rw [hiterated.hl, hiterated.de, hstate]
        rfl
      obtain ⟨cpu₂, w₂, hrest, hcopied, hend⟩ := ih cpu₁ w₁ hiterated.boundary
        (fun level hlevel => by rw [hiterated.iff1]; exact hirqs level (List.mem_cons_of_mem _ hlevel))
        (Nat.succ.inj (hcount.trans hmore))
        (fun i hi => by rw [hpc, hcopy]; exact hkept (i + 1) (by omega))
      refine ⟨cpu₂, w₂, ?_, ?_, ?_⟩
      · have htimes : 21 :: (List.replicate (byteCount cpu₁.core.bc - 1) 21 ++ [16]) =
            List.replicate (byteCount cpu.core.bc - 1) 21 ++ [16] := by
          rw [hmore, Nat.add_sub_cancel, ← List.cons_append, ← List.replicate_succ, Nat.sub_add_cancel hpos]
        rw [if_neg hbc, ← htimes, Option.bind_eq_bind, Option.bind_some]
        dsimp only
        rw [hrest]
        rfl
      · rw [hmore]
        exact hiterated.blockCopied hpos hbc hcopied
      · rw [hend, hcopy, hmore]

end Iteration

/-! ## A fill -/

/-- LDIR at 4000, and a byte at 8000. -/
def fillMemory (addr : Word) : Byte :=
  if addr = 0x4000 then 0xED else if addr = 0x4001 then 0xB0 else if addr = 0x8000 then 0x55 else 0

/-- At the LDIR, with the destination one behind the source. -/
def fillCpu : Cpu :=
  { resetCpu with core := { resetCpu.core with pc := 0x4000, hl := 0x8000, de := 0x8001, bc := 3 } }

/-- Each byte is read where the one before was written. -/
theorem fill_batchRun : ∃ cpu' w', batchRun flatMemory 0xFF false 7 [false, true, false] fillCpu ⟨fillMemory, []⟩ =
      some (cpu', w', [21, 21, 16]) ∧ BlockCopied true 3 fillCpu cpu' ∧
    w'.state = copyBytes true 3 0x8000 0x8001 fillMemory := by
  refine batchRun_blockLd true 0xFF (Nat.le_refl 7) [false, true, false] fillCpu ⟨fillMemory, []⟩ ⟨rfl, rfl, rfl, rfl, rfl⟩
    (fun _ _ => rfl) rfl ?_
  intro i hi
  apply InPlace.copyBytes ⟨rfl, rfl⟩
  intro j hj
  have hj' : j < 3 := Nat.lt_trans hj hi
  obtain rfl | rfl | rfl : j = 0 ∨ j = 1 ∨ j = 2 := by omega
  · decide
  · decide
  · decide

/-- The byte is in all of the cells that were filled. -/
example : copyBytes true 3 0x8000 0x8001 fillMemory 0x8003 = 0x55 := by decide

end Koncepcja.Z80
