import Koncepcja.Z80.Instruction

/-!
# The Two Engines Agree

`z80_batch_step` on the CPC grid against `z80_tick` under the Gate Array's clock and WAIT line,
between two clean instruction boundaries.

## Main results

- `z80BatchStep_agrees`: one step is the per-cycle engine run to its next instruction boundary:
  the same registers, the same transactions in the same order, the same T-states.
-/

namespace Koncepcja.Z80

open Koncepcja.Runs Z80State

variable {σ : Type} {agent : Agent σ} {inputs : Inputs} {b : Board σ} {cpu : Cpu} {w : World σ}

/-- `z80_batch_ready`: a fresh M1 with no prefix, index or interrupt sequence under way. -/
def z80BatchReady (z : Z80State) : Bool :=
  decide (z.mc = .m1 ∧ z.t = 0 ∧ z.cpu.core.seq.step = 0 ∧ z.cpu.core.seq.prefixByte = 0 ∧
    z.cpu.core.seq.index = .hl ∧ z.cpu.core.seq.servicing = .none)

/-- A clean instruction boundary in lockstep with the clock, with no transaction on the bus. -/
structure AtBoundary (inputs : Inputs) (b : Board σ) : Prop where
  locked : Locked inputs b
  ready : z80BatchReady b.z80 = true
  quiet : b.peer.Quiet

theorem Cpu.halted_roused (cpu : Cpu) : cpu.roused.halted = false := by
  unfold Cpu.roused
  split_ifs with h
  · rfl
  · simpa using h

theorem Cpu.intReady_roused (cpu : Cpu) (irq : Bool) : cpu.roused.intReady irq = cpu.intReady irq := by
  unfold Cpu.roused
  split_ifs <;> rfl

theorem Cpu.tstates_roused (cpu : Cpu) : cpu.roused.tstates = cpu.tstates := by
  unfold Cpu.roused
  split_ifs <;> rfl

theorem Cpu.instrCount_roused (cpu : Cpu) :
    cpu.roused.core.seq.instrCount = cpu.core.seq.instrCount := by
  unfold Cpu.roused
  split_ifs <;> rfl

theorem Cpu.atBoundary_roused (cpu : Cpu) : atBoundary cpu.roused.core = atBoundary cpu.core := by
  unfold Cpu.roused
  split_ifs <;> rfl

/-! ## The batch step by cases -/

theorem Cpu.opened_of_atBoundary (h : atBoundary cpu.core = true) :
    cpu.opened = cpu.beginM1 := by
  simp [Cpu.opened, Cpu.beginM1, openM1, h]

/-- What the batch step does past HALT: the interrupt sequence, or the chain and the instruction. -/
def instruction (agent : Agent σ) (irqVector : Byte) (grid : Bool) (fuel : Nat) (irq : Bool)
    (cpu : Cpu) (w : World σ) : Option (Cpu × World σ) :=
  if cpu.intReady irq then
    runToFinish agent irqVector grid fuel
      (cpu.accepted.atTime (alignMem grid cpu.tstates + 1)).clearStep w
  else
    (fetchChain agent grid fuel cpu.opened w).bind fun fetched =>
      runToFinish agent irqVector grid fuel fetched.1.clearStep fetched.2

theorem z80BatchStep_eq {grid irq : Bool} {irqVector : Byte} (fuel : Nat)
    (hb : atBoundary cpu.core = true) :
    z80BatchStep agent irqVector grid fuel irq cpu w =
      if cpu.waiting irq then some (cpu, w, 0)
      else
        (instruction agent irqVector grid fuel irq cpu.roused w).map
          fun done => (done.1, done.2, done.1.tstates - cpu.tstates) := by
  have hopen := Cpu.opened_of_atBoundary (cpu.atBoundary_roused.trans hb)
  by_cases hwait : cpu.waiting irq = true
  · rw [z80BatchStep, if_pos hwait, if_pos hwait]
  · rw [z80BatchStep, if_neg hwait, if_neg hwait, instruction]
    dsimp only
    rw [← hopen]
    have hready : (cpu.roused.opened.nmiPending ||
        (cpu.roused.opened.core.iff1 && irq && !cpu.roused.core.eiDelay)) =
          cpu.roused.intReady irq := rfl
    have htime : cpu.roused.opened.tstates = cpu.roused.tstates := rfl
    have hpending : (cpu.roused.opened.refreshed.atTime
        (alignMem grid cpu.roused.tstates + 1)).nmiPending = cpu.roused.nmiPending := rfl
    rw [hready, htime, hpending, Cpu.accepted]
    cases cpu.roused.nmiPending <;> rfl

/-! ## The first T-state -/

theorem advance_roused {z : Z80State} {inp : Bus} (out : CpuBus) (hmc : z.mc = .m1) (ht : z.t = 0)
    (hwait : z.cpu.waiting inp.cpu.irq = false) :
    z.advance inp out = { z with cpu := z.cpu.roused }.advance inp out := by
  cases hh : z.cpu.halted with
  | false =>
    have hsame : z.cpu.roused = z.cpu := by simp [Cpu.roused, hh]
    rw [hsame]
  | true =>
    have hready : z.cpu.intReady inp.cpu.irq = true := by simpa [Cpu.waiting, hh] using hwait
    have hrouse : z.cpu.roused = z.cpu.wake := by simp [Cpu.roused, hh]
    have hawake : z.cpu.wake.halted = false := rfl
    unfold advance
    rw [hrouse, hh, hready, hawake, ← hmc, ← ht]
    simp

/-- The board with the NMI edge latched and the CPU out of HALT, as the first T-state finds it. -/
def Board.primed (inputs : Inputs) (b : Board σ) : Board σ :=
  { b with
    z80 :=
      { b.z80.latchNmi inputs.nmi with cpu := (b.z80.latchNmi inputs.nmi).cpu.roused } }

theorem tState_primed (h : AtBoundary inputs b)
    (hwait : (b.z80.latchNmi inputs.nmi).cpu.waiting inputs.irq = false) :
    (b.primed inputs).tState agent inputs = b.tState agent inputs := by
  have hready := of_decide_eq_true h.ready
  have hlatch : (b.primed inputs).z80.latchNmi inputs.nmi = (b.primed inputs).z80 :=
    latchNmi_of_nmiPrev rfl
  have hclk : b.bus.clk.cpu = true := by rw [h.locked.clk]
  have htick (out : CpuBus) : z80Tick (b.primed inputs).z80 b.bus out = z80Tick b.z80 b.bus out := by
    have hadv := advance_roused (z := b.z80.latchNmi inputs.nmi) out hready.1 hready.2.1
      (by rw [h.locked.irq]; exact hwait)
    unfold z80Tick
    rw [h.locked.nmi, hlatch, hclk]
    dsimp only
    rw [if_pos rfl, if_pos rfl, hadv]
    rfl
  have hcycle : (b.primed inputs).cycle agent inputs = b.cycle agent inputs := by
    unfold Board.cycle
    dsimp only
    rw [show (b.primed inputs).bus = b.bus from rfl, htick]
    rfl
  exact congrArg (Board.cycle agent inputs)^[3] hcycle

theorem instrCount_primed (b : Board σ) : (b.primed inputs).instrCount = b.instrCount :=
  Cpu.instrCount_roused _

theorem between_primed (h : AtBoundary inputs b) :
    Between inputs (b.primed inputs) (b.z80.latchNmi inputs.nmi).cpu.roused .m1 b.peer.world := by
  have hready := of_decide_eq_true h.ready
  have htime : (b.primed inputs).z80.cpu.tstates = b.z80.cpu.tstates := Cpu.tstates_roused _
  have hlocked : Locked inputs (b.primed inputs) :=
    { clk := by rw [htime]; exact h.locked.clk
      phase := by rw [htime]; exact h.locked.phase
      wait := by rw [htime]; exact h.locked.wait
      irq := h.locked.irq
      nmi := h.locked.nmi
      busrq := h.locked.busrq
      strobe := h.locked.strobe }
  exact ⟨b.peer,
    { synced := ⟨hlocked, rfl⟩
      cpu_eq := rfl
      mc_eq := hready.1
      t_eq := hready.2.1
      peer_eq := rfl
      data_eq := fun h0 => absurd rfl h0 }, rfl, h.quiet⟩

/-! ## The instruction -/

theorem Cpu.seq_accepted (cpu : Cpu) :
    cpu.accepted.core.seq.instrCount = cpu.core.seq.instrCount ∧
      cpu.accepted.halted = cpu.halted := by
  unfold Cpu.accepted
  split_ifs <;> exact ⟨rfl, rfl⟩

theorem instruction_run {fuel : Nat} {cpu' : Cpu} {w' : World σ} (hb : Between inputs b cpu .m1 w)
    (hhalt : cpu.halted = false) (hbound : atBoundary cpu.core = true)
    (hrun : instruction agent inputs.irqVector true fuel inputs.irq cpu w = some (cpu', w')) :
    ∃ n b', cpu'.tstates = cpu.tstates + n ∧ Ticks agent inputs n b b' ∧
      Between inputs b' cpu' .m1 w' ∧ cpu.core.seq.Finished cpu'.core.seq := by
  have hcount := hb.instrCount_eq.symm
  unfold instruction at hrun
  split_ifs at hrun with hready
  · -- An interrupt is accepted: the acknowledge, then the cycles of the answer.
    have hacc : cpu.accepts inputs.irq = true := by rw [Cpu.accepts, hbound, hready]; rfl
    obtain ⟨n, b₁, hn, hticks, hb₁⟩ := hb.accept agent hhalt hacc
    obtain ⟨m, b', hm, hticks', hb', hfin⟩ := finish_run hticks hb₁
      (cpu.seq_accepted.1.trans hcount) (cpu.seq_accepted.2.trans hhalt) hrun
    have htime : (cpu.accepted.atTime (alignMem true cpu.tstates + 1)).clearStep.tstates
        = cpu.tstates + n := hn
    exact ⟨n + m, b', by omega, hticks', hb', hfin.congr cpu.seq_accepted.1⟩
  · have hno : cpu.accepts inputs.irq = false := by
      rw [Cpu.accepts, hbound]
      simpa using hready
    -- The opcode with its prefixes is fetched first, then its cycles run.
    have hchain := fetch_run agent fuel (.refl b) hb hcount hhalt hno
    obtain ⟨⟨fetched, w₁⟩, hf, hrun⟩ := Option.bind_eq_some_iff.mp hrun
    simp only [hf] at hchain
    obtain ⟨n, b₁, hn, hticks, hb₁, hfcount, hfhalt⟩ := hchain
    obtain ⟨m, b', hm, hticks', hb', hfin⟩ := finish_run hticks hb₁ hfcount hfhalt hrun
    have htime : fetched.clearStep.tstates = cpu.tstates + n := hn
    rw [Nat.zero_add] at hticks'
    exact ⟨n + m, b', by omega, hticks', hb', hfin.congr (hfcount.trans hcount.symm)⟩

theorem runToFinish_clearStep_isSome (agent : Agent σ) (irqVector : Byte) (grid : Bool) {fuel : Nat}
    (hfuel : 7 ≤ fuel) (cpu : Cpu) (w : World σ) :
    (runToFinish agent irqVector grid fuel cpu.clearStep w).isSome :=
  runToFinish_isSome fuel cpu.clearStep w (Nat.zero_le 6) hfuel

theorem instruction_diverges (hb : Between inputs b cpu .m1 w) (hhalt : cpu.halted = false)
    (hbound : atBoundary cpu.core = true)
    (hnone : ∀ fuel, instruction agent inputs.irqVector true fuel inputs.irq cpu w = none) (n : Nat) :
    ∃ m b', n ≤ m ∧ Ticks agent inputs m b b' := by
  have hfuel := hnone (n + 7)
  unfold instruction at hfuel
  split_ifs at hfuel with hready
  · -- An accepted interrupt always comes to an end, so this case is out.
    have hsome := runToFinish_clearStep_isSome agent inputs.irqVector true (by omega : 7 ≤ n + 7)
      (cpu.accepted.atTime (alignMem true cpu.tstates + 1)) w
    rw [hfuel] at hsome
    exact nomatch hsome
  · have hno : cpu.accepts inputs.irq = false := by
      rw [Cpu.accepts, hbound]
      simpa using hready
    have hchain := fetch_run agent (n + 7) (.refl b) hb hb.instrCount_eq.symm hhalt hno
    cases hf : fetchChain agent true (n + 7) cpu.opened w with
    | some fetched =>
      have hsome := runToFinish_clearStep_isSome agent inputs.irqVector true
        (by omega : 7 ≤ n + 7) fetched.1 fetched.2
      rw [hf, Option.bind_some] at hfuel
      rw [hfuel] at hsome
      exact nomatch hsome
    -- The fuel went into prefixes, and each of them took its ticks.
    | none =>
      simp only [hf] at hchain
      obtain ⟨m, b', hm, hticks, -⟩ := hchain
      exact ⟨0 + m, b', by omega, hticks⟩

theorem instruction_isSome {irqVector : Byte} {grid irq : Bool} {k : Nat}
    (hop : agent.memRead w.state (cpu.core.pc + BitVec.ofNat 16 k) ≠ 0xDD ∧
      agent.memRead w.state (cpu.core.pc + BitVec.ofNat 16 k) ≠ 0xFD) :
    (instruction agent irqVector grid (k + 7) irq cpu w).isSome := by
  unfold instruction
  split_ifs
  · exact runToFinish_clearStep_isSome _ _ _ (by omega) _ _
  · have hfetch := fetchChain_isSome agent grid k (k + 7) cpu.opened w hop
      (by omega)
    obtain ⟨fetched, hf⟩ := Option.isSome_iff_exists.mp hfetch
    rw [hf, Option.bind_some]
    exact runToFinish_clearStep_isSome _ _ _ (by omega) _ _

/-! ## Main result -/

theorem latchNmi_of_waiting {z : Z80State} {irq nmi : Bool}
    (h : (z.latchNmi nmi).cpu.waiting irq = true) : (z.latchNmi nmi).cpu = z.cpu := by
  have hn : (z.latchNmi nmi).cpu.nmiPending = false := by
    simp only [Cpu.waiting, Cpu.intReady, Bool.and_eq_true, Bool.not_eq_true',
      Bool.or_eq_false_iff] at h
    exact h.2.1
  have hz : z.cpu.nmiPending = (z.latchNmi nmi).cpu.nmiPending := by
    rw [hn]
    exact (Bool.or_eq_false_iff.mp hn).1
  obtain ⟨⟨core, nmiPending, haltT, tstates⟩, mc, t, mcAddr, held, heldValid, nmiPrev⟩ := z
  exact congrArg (Cpu.mk core · haltT tstates) hz.symm

theorem Between.atBoundary {s : Seq} (h : Between inputs b cpu .m1 w)
    (hfin : s.Finished cpu.core.seq) : AtBoundary inputs b := by
  obtain ⟨p, hp, -, hq⟩ := h.peer
  refine ⟨hp.synced.toLocked, decide_eq_true ?_, by rw [hp.peer_eq]; exact hq⟩
  rw [hp.cpu_eq]
  exact ⟨hp.mc_eq, hp.t_eq, hfin.step, hfin.prefixByte, hfin.index, hfin.servicing⟩

theorem Ticks.of_primed {n : Nat} {b' : Board σ} (h : AtBoundary inputs b)
    (hwait : (b.z80.latchNmi inputs.nmi).cpu.waiting inputs.irq = false)
    (hticks : Ticks agent inputs (n + 1) (b.primed inputs) b') :
    Ticks agent inputs (n + 1) b b' :=
  hticks.congr_left (tState_primed h hwait).symm (instrCount_primed b).symm

section MainResult

variable (h : AtBoundary inputs b)

include h

theorem atBoundary_latchNmi : atBoundary (b.z80.latchNmi inputs.nmi).cpu.core = true := by
  have hready := of_decide_eq_true h.ready
  exact decide_eq_true ⟨hready.2.2.2.1, hready.2.2.2.2.1⟩

theorem z80BatchStep_reaches {fuel n : Nat} {cpu' : Cpu} {w' : World σ}
    (hcpu : (b.z80.latchNmi inputs.nmi).cpu = cpu)
    (hrun : z80BatchStep agent inputs.irqVector true fuel inputs.irq cpu b.peer.world =
      some (cpu', w', n)) :
    ∃ b', Ticks agent inputs n b b' ∧ AtBoundary inputs b' ∧ b'.z80.cpu = cpu' ∧
      b'.peer.world = w' ∧ cpu'.tstates = cpu.tstates + n ∧
      if cpu.waiting inputs.irq then n = 0 else b'.instrCount = b.instrCount + 1 := by
  have hbound := atBoundary_latchNmi h
  have hprimed := between_primed h
  rw [hcpu] at hbound hprimed
  rw [z80BatchStep_eq fuel hbound] at hrun
  by_cases hwait : cpu.waiting inputs.irq = true
  · rw [if_pos hwait] at hrun
    simp only [hwait, if_true]
    cases hrun
    exact ⟨b, .refl b, h, (latchNmi_of_waiting (by rw [hcpu]; exact hwait)).symm.trans hcpu, rfl,
      rfl, rfl⟩
  · rw [if_neg hwait] at hrun
    simp only [hwait]
    obtain ⟨⟨cpu₁, w₁⟩, hinstr, hdone⟩ := Option.map_eq_some_iff.mp hrun
    cases hdone
    obtain ⟨m, b', hm, hticks, hb', hfin⟩ := instruction_run hprimed cpu.halted_roused
      (cpu.atBoundary_roused.trans hbound) hinstr
    rw [cpu.tstates_roused] at hm
    have hcount : b'.instrCount = b.instrCount + 1 := by
      rw [hb'.instrCount_eq, hfin.instrCount, ← hprimed.instrCount_eq, instrCount_primed]
    -- an instruction takes at least one T-state: it changes the count
    obtain ⟨k, rfl⟩ : ∃ k, m = k + 1 := by
      rcases m with _ | k
      · have hsame : b.primed inputs = b' := hticks.iterate
        rw [← hsame, instrCount_primed] at hcount
        omega
      · exact ⟨k, rfl⟩
    obtain ⟨p, hp, hw, -⟩ := hb'.peer
    have hticks' := Ticks.of_primed h (by rw [hcpu]; simpa using hwait) hticks
    have hlen : cpu₁.tstates - cpu.tstates = k + 1 := by omega
    rw [hlen]
    exact ⟨b', hticks', hb'.atBoundary hfin, hp.cpu_eq, by rw [hp.peer_eq, hw], hm, hcount⟩

theorem z80BatchStep_diverges (hcpu : (b.z80.latchNmi inputs.nmi).cpu = cpu)
    (hnone : ∀ fuel,
      z80BatchStep agent inputs.irqVector true fuel inputs.irq cpu b.peer.world = none) (n : Nat) :
    Board.instrCount ((Board.tState agent inputs)^[n] b) = b.instrCount := by
  have hbound := atBoundary_latchNmi h
  have hprimed := between_primed h
  rw [hcpu] at hbound hprimed
  have hwait : cpu.waiting inputs.irq = false := by
    by_contra hwait
    have h0 := hnone 0
    rw [z80BatchStep_eq 0 hbound, if_pos (by simpa using hwait)] at h0
    exact nomatch h0
  have hinstr (fuel : Nat) :
      instruction agent inputs.irqVector true fuel inputs.irq cpu.roused b.peer.world = none := by
    have hf := hnone fuel
    rw [z80BatchStep_eq fuel hbound, if_neg (by simp [hwait])] at hf
    exact Option.map_eq_none_iff.mp hf
  obtain ⟨m, b', hm, hticks⟩ := instruction_diverges hprimed cpu.halted_roused
    (cpu.atBoundary_roused.trans hbound) hinstr (n + 1)
  obtain ⟨k, rfl⟩ : ∃ k, m = k + 1 := ⟨m - 1, by omega⟩
  exact (Ticks.of_primed h (by rw [hcpu]; exact hwait) hticks).quiet n (by omega)

theorem z80BatchStep_isSome {k : Nat} (hcpu : (b.z80.latchNmi inputs.nmi).cpu = cpu)
    (hop : agent.memRead w.state (cpu.core.pc + BitVec.ofNat 16 k) ≠ 0xDD ∧
      agent.memRead w.state (cpu.core.pc + BitVec.ofNat 16 k) ≠ 0xFD) :
    ∃ fuel, (z80BatchStep agent inputs.irqVector true fuel inputs.irq cpu w).isSome := by
  have hbound := atBoundary_latchNmi h
  rw [hcpu] at hbound
  refine ⟨k + 7, ?_⟩
  rw [z80BatchStep_eq _ hbound]
  split_ifs with hwait
  · rfl
  · rw [Option.isSome_map]
    cases hh : cpu.halted with
    | false =>
      have hsame : cpu.roused = cpu := by simp [Cpu.roused, hh]
      rw [hsame]
      exact instruction_isSome hop
    | true =>
      have hready : cpu.roused.intReady inputs.irq = true := by
        rw [cpu.intReady_roused]
        simpa [Cpu.waiting, hh] using hwait
      rw [instruction, if_pos hready]
      exact runToFinish_clearStep_isSome _ _ _ (by omega) _ _

end MainResult

/-- One batch step from a clean boundary is the per-cycle engine, master cycle by master cycle, up
to its next instruction boundary. Whatever the batch step returns the per-cycle engine reaches, at
the first T-state that completes an instruction: the same CPU, the same far side with the same
transactions, the same T-states. A halted CPU with nothing to accept takes no time in either. Where
the batch step never returns the per-cycle engine completes nothing, and it does return unless
every byte from PC on is DD or FD. -/
theorem z80BatchStep_agrees (agent : Agent σ) (inputs : Inputs) (b : Board σ)
    (h : AtBoundary inputs b) :
    let cpu := (b.z80.latchNmi inputs.nmi).cpu
    let step := fun fuel =>
      z80BatchStep agent inputs.irqVector true fuel inputs.irq cpu b.peer.world
    (∀ fuel cpu' w' n, step fuel = some (cpu', w', n) →
      ∃ b', Ticks agent inputs n b b' ∧ AtBoundary inputs b' ∧ b'.z80.cpu = cpu' ∧
        b'.peer.world = w' ∧ cpu'.tstates = cpu.tstates + n ∧
        if cpu.waiting inputs.irq then n = 0 else b'.instrCount = b.instrCount + 1) ∧
    ((∀ fuel, step fuel = none) →
      ∀ n, Board.instrCount ((Board.tState agent inputs)^[n] b) = b.instrCount) ∧
    ((∃ k, agent.memRead b.peer.world.state (cpu.core.pc + BitVec.ofNat 16 k) ≠ 0xDD ∧
        agent.memRead b.peer.world.state (cpu.core.pc + BitVec.ofNat 16 k) ≠ 0xFD) →
      ∃ fuel, (step fuel).isSome) :=
  ⟨fun _ _ _ _ => z80BatchStep_reaches h rfl, z80BatchStep_diverges h rfl,
    fun ⟨_, hop⟩ => z80BatchStep_isSome h rfl hop⟩

theorem atBoundary_resetBoard (state : σ) (inputs : Inputs) :
    AtBoundary inputs (resetBoard state inputs) :=
  ⟨⟨rfl, rfl, rfl, rfl, rfl, rfl, rfl⟩, rfl, Or.inl rfl⟩

/-- `PUSH HL` at address 0. -/
def pushAgent : Agent Unit where
  memRead _ addr := if addr = 0 then 0xE5 else 0
  memWrite s _ _ := s
  ioRead s _ := (0xFF, s)
  ioWrite s _ _ := s

/-- `PUSH HL` out of reset: 4 T-states, one internal, and two writes on the next µs each. -/
theorem z80BatchStep_agrees_push :
    ∃ b' : Board Unit,
      Ticks pushAgent ⟨false, false, 0xFF⟩ 15 (resetBoard () ⟨false, false, 0xFF⟩) b' ∧
      b'.z80.cpu.core.sp = 0xFFFD ∧
      b'.peer.world.accesses = [.memWrite 0xFFFD 0, .memWrite 0xFFFE 0, .memRead 0 0xE5] := by
  obtain ⟨b', hticks, -, hcpu, hworld, -⟩ :=
    (z80BatchStep_agrees pushAgent ⟨false, false, 0xFF⟩ (resetBoard () ⟨false, false, 0xFF⟩)
      (atBoundary_resetBoard () _)).1 4 _ _ 15 rfl
  refine ⟨b', hticks, ?_, ?_⟩
  · rw [hcpu]
    rfl
  · rw [hworld]
    rfl

end Koncepcja.Z80
