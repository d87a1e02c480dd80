import Koncepcja.Z80.Micro

/-!
# The Batch Engine

`src/hw/z80.cpp`, `BatchEngine` and `z80_batch_step`: one instruction at a time, every machine
cycle satisfied at once through the caller's seams and timed in closed form.

## Main results

- `runToFinish_isSome`: the step machine always finishes.
- `fetchChain_isSome`: the fetch ends at the first byte that is not DD or FD, whatever follows.
-/

namespace Koncepcja.Z80

/-! ## The far side of the bus -/

/-- One transaction, with the value transferred. -/
inductive Access where
  | memRead (addr : Word) (val : Byte)
  | memWrite (addr : Word) (val : Byte)
  | ioRead (port : Word) (val : Byte)
  | ioWrite (port : Word) (val : Byte)
  deriving DecidableEq, Repr

/-- The memory and the I/O devices, as `Z80BatchIO` reaches them. -/
structure Agent (σ : Type) where
  memRead : σ → Word → Byte
  memWrite : σ → Word → Byte → σ
  ioRead : σ → Word → Byte × σ
  ioWrite : σ → Word → Byte → σ

/-- Their state, and every transaction so far, newest first. -/
structure World (σ : Type) where
  state : σ
  accesses : List Access

namespace World

variable {σ : Type}

def memRead (agent : Agent σ) (w : World σ) (addr : Word) : Byte × World σ :=
  let val := agent.memRead w.state addr
  (val, { w with accesses := .memRead addr val :: w.accesses })

def memWrite (agent : Agent σ) (w : World σ) (addr : Word) (val : Byte) : World σ :=
  { state := agent.memWrite w.state addr val, accesses := .memWrite addr val :: w.accesses }

def ioRead (agent : Agent σ) (w : World σ) (port : Word) : Byte × World σ :=
  let reply := agent.ioRead w.state port
  (reply.1, { state := reply.2, accesses := .ioRead port reply.1 :: w.accesses })

def ioWrite (agent : Agent σ) (w : World σ) (port : Word) (val : Byte) : World σ :=
  { state := agent.ioWrite w.state port val, accesses := .ioWrite port val :: w.accesses }

end World

/-! ## State common to both engines -/

/-- `z80_state` less the micro-state of the per-cycle engine. -/
structure Cpu where
  core : Core
  nmiPending : Bool
  /-- 4T HALT cadence. -/
  haltT : Nat
  tstates : Nat
  deriving DecidableEq, Repr

namespace Cpu

def halted (cpu : Cpu) : Bool := cpu.core.seq.halted

/-- `int_ready`: an interrupt the CPU would accept at its next boundary. -/
def intReady (cpu : Cpu) (irq : Bool) : Bool :=
  cpu.nmiPending || (cpu.core.iff1 && irq && !cpu.core.eiDelay)

/-- Leaving HALT, past its opcode. -/
def wake (cpu : Cpu) : Cpu :=
  { cpu with
    haltT := 0
    core := { cpu.core with pc := cpu.core.pc + 1, seq := { cpu.core.seq with halted := false } } }

/-- Nothing to do: halted, and no interrupt to accept. -/
def waiting (cpu : Cpu) (irq : Bool) : Bool := cpu.halted && !cpu.intReady irq

/-- The CPU about to run an instruction, out of HALT. -/
def roused (cpu : Cpu) : Cpu := if cpu.halted then cpu.wake else cpu

/-- The start of an instruction: Q scratch cleared, EI shadow consumed. -/
def beginM1 (cpu : Cpu) : Cpu :=
  { cpu with core := { cpu.core with qq := 0, eiDelay := false } }

/-- The CPU at T-state count `n`. -/
def atTime (cpu : Cpu) (n : Nat) : Cpu := { cpu with tstates := n }

/-- `step++`. -/
def bumpStep (cpu : Cpu) : Cpu :=
  { cpu with
    core := { cpu.core with seq := { cpu.core.seq with step := cpu.core.seq.step + 1 } } }

/-- `step = 0`. -/
def clearStep (cpu : Cpu) : Cpu :=
  { cpu with core := { cpu.core with seq := { cpu.core.seq with step := 0 } } }

/-- The register side of an accepted NMI: IFF1 cleared, IFF2 preserved. -/
def acceptNmi (cpu : Cpu) : Cpu :=
  { cpu with
    nmiPending := false
    core :=
      { cpu.core with
        iff1 := false
        seq := { cpu.core.seq with servicing := .nmi } } }

/-- The register side of an accepted maskable interrupt. -/
def acceptInt (cpu : Cpu) : Cpu :=
  { cpu with
    core :=
      { cpu.core with
        iff1 := false
        iff2 := false
        seq := { cpu.core.seq with servicing := .maskable } } }

/-- An opcode fetched: `opcode` set and one refresh. -/
def refreshed (cpu : Cpu) : Cpu := { cpu with core := cpu.core.bumpRefresh }

end Cpu

/-! ## The engine -/

section BatchEngine

variable {σ : Type} (agent : Agent σ) (irqVector : Byte) (grid : Bool)

/-- `align_mem`: a memory-class T1 waits for the µs grid. -/
def alignMem (tstates : Nat) : Nat :=
  if grid then tstates + (4 - tstates % 4) % 4 else tstates

/-- `fetch_m1`, with the opcode already in its latch. -/
def fetchM1 (cpu : Cpu) (w : World σ) : Cpu × World σ :=
  let (op, w) := w.memRead agent cpu.core.pc
  let c := cpu.core.pcinc.bumpRefresh
  ({ cpu with
      core := { c with seq := { c.seq with opcode := op } }
      tstates := alignMem grid cpu.tstates + 4 }, w)

/-- When the automatic Tw of an I/O cycle started at `t1` is released. -/
def ioSample (t1 : Nat) : Nat :=
  if grid then
    let sample := t1 + 2
    sample + (5 - sample % 4) % 4
  else t1 + 2

/-- `satisfy`: run the machine cycle just requested. -/
def satisfy (m : MC) (cpu : Cpu) (w : World σ) : Cpu × World σ :=
  let aligned := alignMem grid cpu.tstates
  match m with
  | .read addr =>
    let (val, w) := w.memRead agent addr
    ({ cpu with core := { cpu.core with tmp := val }, tstates := aligned + 3 }, w)
  | .write addr val => ({ cpu with tstates := aligned + 3 }, w.memWrite agent addr val)
  | .internal len => ({ cpu with tstates := cpu.tstates + len }, w)
  | .ioRead port =>
    let (val, w) := w.ioRead agent port
    ({ cpu with
        core := { cpu.core with tmp := val }
        tstates := ioSample grid cpu.tstates + 2 }, w)
  | .ioWrite port val =>
    ({ cpu with tstates := ioSample grid cpu.tstates + 2 }, w.ioWrite agent port val)
  | .ioack len =>
    let vector :=
      if cpu.core.seq.servicing = .maskable then irqVector else cpu.core.intVec
    ({ cpu with core := { cpu.core with intVec := vector }, tstates := aligned + len }, w)
  | .m1 => (cpu, w)

def runToFinish : Nat → Cpu → World σ → Option (Cpu × World σ)
  | 0, _, _ => none
  | fuel + 1, cpu, w =>
    let r := cpu.core.runMicro
    if r.2 = .m1 then some ({ cpu with core := r.1 }, w)
    else
      let done := satisfy agent irqVector grid r.2 { cpu with core := r.1 } w
      runToFinish fuel done.1.bumpStep done.2

/-- The register a DD or FD prefix selects. -/
def prefixIndex (opcode : Byte) : IndexReg := if opcode = 0xDD then .ix else .iy

/-- Is the opcode just fetched one more prefix? The CPU ready for the next fetch if so. -/
def chainPrefix (c : Core) : Option Core :=
  if c.seq.prefixByte = 0 ∧ (c.seq.opcode = 0xDD ∨ c.seq.opcode = 0xFD) then
    some { c with seq := { c.seq with index := prefixIndex c.seq.opcode } }
  else if c.seq.prefixByte = 0 ∧ c.seq.opcode = 0xED then
    some { c with seq := { c.seq with prefixByte := 0xED, index := .hl } }
  else if c.seq.prefixByte = 0 ∧ c.seq.opcode = 0xCB ∧ c.seq.index = .hl then
    some { c with seq := { c.seq with prefixByte := 0xCB } }
  else none

/-- The fetch and prefix chain of `z80_batch_step`. -/
def fetchChain : Nat → Cpu → World σ → Option (Cpu × World σ)
  | 0, _, _ => none
  | fuel + 1, cpu, w =>
    let fetched := fetchM1 agent grid cpu w
    match chainPrefix fetched.1.core with
    | some c => fetchChain fuel { fetched.1 with core := c } fetched.2
    | none => some fetched

/-- `z80_batch_step`: the CPU and the far side afterwards, and the T-states consumed. -/
def z80BatchStep (fuel : Nat) (irq : Bool) (cpu : Cpu) (w : World σ) :
    Option (Cpu × World σ × Nat) :=
  if cpu.waiting irq then some (cpu, w, 0)
  else
    let t0 := cpu.tstates
    let cpu := cpu.roused
    let wasEi := cpu.core.eiDelay
    let cpu := cpu.beginM1
    let done :=
      if cpu.nmiPending || (cpu.core.iff1 && irq && !wasEi) then
        -- the acceptance tick is a memory-class M1 T1 of its own
        let cpu := cpu.refreshed.atTime (alignMem grid cpu.tstates + 1)
        let cpu := if cpu.nmiPending then cpu.acceptNmi else cpu.acceptInt
        runToFinish agent irqVector grid fuel cpu.clearStep w
      else
        (fetchChain agent grid fuel cpu w).bind fun fetched =>
          runToFinish agent irqVector grid fuel fetched.1.clearStep fetched.2
    done.map fun done => (done.1, done.2, done.1.tstates - t0)

/-! ## Termination -/

variable {agent irqVector grid}

theorem satisfy_seq (m : MC) (cpu : Cpu) (w : World σ) :
    (satisfy agent irqVector grid m cpu w).1.core.seq = cpu.core.seq := by
  cases m <;> rfl

/-- The step machine always finishes. -/
theorem runToFinish_isSome (fuel : Nat) (cpu : Cpu) (w : World σ) (hstep : cpu.core.seq.step ≤ 6)
    (h : 7 ≤ fuel + cpu.core.seq.step) :
    (runToFinish agent irqVector grid fuel cpu w).isSome := by
  induction fuel generalizing cpu w with
  | zero => omega
  | succ fuel ih =>
    simp only [runToFinish]
    rcases cpu.core.runMicro_spec with ⟨hm, -⟩ | ⟨hseq, hvalid, hlt⟩
    · simp [hm]
    · have hm : cpu.core.runMicro.2 ≠ .m1 := by
        rintro hm
        simp [hm, MC.Valid] at hvalid
      rw [if_neg hm]
      -- the machine cycle leaves the micro-step alone, so one more of the six is used up
      have hnext : ∀ w', (satisfy agent irqVector grid cpu.core.runMicro.2
          { cpu with core := cpu.core.runMicro.1 } w').1.bumpStep.core.seq.step
            = cpu.core.seq.step + 1 := by
        intro w'
        simp only [Cpu.bumpStep, satisfy_seq, hseq]
      apply ih
      · rw [hnext]
        omega
      · rw [hnext]
        omega

theorem fetchM1_pc (cpu : Cpu) (w : World σ) :
    (fetchM1 agent grid cpu w).1.core.pc = cpu.core.pc + 1 := rfl

theorem fetchM1_opcode (cpu : Cpu) (w : World σ) :
    (fetchM1 agent grid cpu w).1.core.seq.opcode = agent.memRead w.state cpu.core.pc := rfl

theorem fetchM1_seq (cpu : Cpu) (w : World σ) :
    (fetchM1 agent grid cpu w).1.core.seq =
      { cpu.core.seq with opcode := agent.memRead w.state cpu.core.pc } := rfl

theorem fetchM1_halted (cpu : Cpu) (w : World σ) :
    (fetchM1 agent grid cpu w).1.halted = cpu.halted := by
  rw [Cpu.halted, fetchM1_seq, Cpu.halted]

theorem fetchM1_state (cpu : Cpu) (w : World σ) :
    (fetchM1 agent grid cpu w).2.state = w.state := rfl

theorem chainPrefix_of_prefixByte {c : Core} (h : c.seq.prefixByte ≠ 0) : chainPrefix c = none := by
  simp only [chainPrefix, h, false_and, if_false]

theorem chainPrefix_some {c c' : Core} (h : chainPrefix c = some c') :
    ∃ s, c' = { c with seq := s } ∧ s.halted = c.seq.halted ∧ s.instrCount = c.seq.instrCount ∧
      (s.prefixByte ≠ 0 ∨ s.index ≠ .hl) := by
  unfold chainPrefix at h
  split_ifs at h with hdd <;> cases h
  · refine ⟨_, rfl, rfl, rfl, Or.inr ?_⟩
    dsimp only
    unfold prefixIndex
    split_ifs <;> decide
  · exact ⟨_, rfl, rfl, rfl, Or.inl (show (0xED : Byte) ≠ 0 by decide)⟩
  · exact ⟨_, rfl, rfl, rfl, Or.inl (show (0xCB : Byte) ≠ 0 by decide)⟩

theorem chainPrefix_prefixByte {c c' : Core} (h : chainPrefix c = some c')
    (hop : c.seq.opcode ≠ 0xDD ∧ c.seq.opcode ≠ 0xFD) : c'.seq.prefixByte ≠ 0 := by
  unfold chainPrefix at h
  split_ifs at h with hdd
  · exact absurd hdd.2 (not_or.mpr hop)
  · cases h
    exact show (0xED : Byte) ≠ 0 by decide
  · cases h
    exact show (0xCB : Byte) ≠ 0 by decide

/-- The fetch ends at the first byte that is not DD or FD: whatever that byte is, the one after it
is the last. -/
theorem fetchChain_isSome (agent : Agent σ) (grid : Bool) (k fuel : Nat) (cpu : Cpu) (w : World σ)
    (hop : agent.memRead w.state (cpu.core.pc + BitVec.ofNat 16 k) ≠ 0xDD ∧
      agent.memRead w.state (cpu.core.pc + BitVec.ofNat 16 k) ≠ 0xFD)
    (hfuel : k + 2 ≤ fuel) : (fetchChain agent grid fuel cpu w).isSome := by
  -- On the number of prefixes before the opcode; the opcode itself may be an `ED` or `CB` of its own.
  induction k generalizing fuel cpu w with
  | zero =>
    obtain ⟨fuel, rfl⟩ : ∃ n, fuel = n + 2 := ⟨fuel - 2, by omega⟩
    simp only [fetchChain]
    cases hc : chainPrefix (fetchM1 agent grid cpu w).1.core with
    | none => simp
    | some c =>
      have hpre := chainPrefix_prefixByte hc (by simpa only [fetchM1_opcode, BitVec.add_zero] using hop)
      have hlast : chainPrefix (fetchM1 agent grid
          { (fetchM1 agent grid cpu w).1 with core := c } (fetchM1 agent grid cpu w).2).1.core
            = none := chainPrefix_of_prefixByte hpre
      simp [hlast]
  | succ k ih =>
    obtain ⟨fuel, rfl⟩ : ∃ n, fuel = n + 1 := ⟨fuel - 1, by omega⟩
    simp only [fetchChain]
    cases hc : chainPrefix (fetchM1 agent grid cpu w).1.core with
    | none => simp
    | some c =>
      apply ih
      · -- The prefix moved the counter by one, so what is left of the chain starts one byte on.
        have hpc : c.pc + BitVec.ofNat 16 k = cpu.core.pc + BitVec.ofNat 16 (k + 1) := by
          obtain ⟨s, rfl, -⟩ := chainPrefix_some hc
          rw [fetchM1_pc, BitVec.ofNat_add, BitVec.add_assoc]
          congr 1
          exact BitVec.add_comm _ _
        simpa [hpc, fetchM1_state] using hop
      · omega

end BatchEngine

end Koncepcja.Z80
