import Koncepcja.Z80.MachineCycle

/-!
# One Instruction

The batch engine's instruction step against the per-cycle engine, from one instruction boundary to
the next.

## Main results

- `Between.fetch`, `Between.accept`: the two things an opcode-fetch cycle can be.
- `finish_run`: `run_to_finish`, machine cycle by machine cycle.
- `fetch_run`: the prefix chain, fetch by fetch, whether it ends or not.
- `z80BatchStep_agrees`: the whole step.
-/

namespace Koncepcja.Z80

open Koncepcja.Runs Z80State

variable {σ : Type} {agent : Agent σ} {inputs : Inputs} {b : Board σ} {cpu : Cpu} {w : World σ}
  {peer : Peer σ}

/-! ## The opcode-fetch cycle -/

/-- M1 T1 has run: the Q scratch and, at a boundary, the EI shadow are gone. -/
def Cpu.opened (cpu : Cpu) : Cpu := { cpu with core := openM1 cpu.core }

/-- An interrupt is accepted in place of a fetch. -/
def Cpu.accepts (cpu : Cpu) (irq : Bool) : Bool := atBoundary cpu.core && cpu.intReady irq

/-- The CPU an accepted interrupt leaves to the step machine. -/
def Cpu.accepted (cpu : Cpu) : Cpu :=
  if cpu.nmiPending then cpu.opened.refreshed.acceptNmi else cpu.opened.refreshed.acceptInt

theorem m1T1_of_accepts {z : Z80State} {irq : Bool} {out : CpuBus}
    (h : z.cpu.accepts irq = true) :
    z.m1T1 irq out = ({ z with cpu := z.cpu.accepted }.firstMicro, out) := by
  obtain ⟨hb, hready⟩ : atBoundary z.cpu.core = true ∧ z.cpu.intReady irq = true := by
    simpa [Cpu.accepts] using h
  cases hn : z.cpu.nmiPending with
  | true => simp [m1T1, Cpu.accepted, hb, hn, Cpu.opened]
  | false =>
    have hint : (z.cpu.core.iff1 && irq && !z.cpu.core.eiDelay) = true := by
      simpa [Cpu.intReady, hn] using hready
    have hiff : (openM1 z.cpu.core).iff1 = z.cpu.core.iff1 := rfl
    simp only [m1T1, Cpu.accepted, hb, hn, hiff, hint, Cpu.opened]
    rfl

theorem m1T1_of_not_accepts {z : Z80State} {irq : Bool} {out : CpuBus}
    (h : z.cpu.accepts irq = false) :
    z.m1T1 irq out =
      ({ z with
          mcAddr := z.cpu.core.pc
          cpu := { z.cpu.opened with core := z.cpu.opened.core.pcinc } },
        { out with addr := z.cpu.core.pc, m1 := true, mreq := true, rd := true }) := by
  cases hb : atBoundary z.cpu.core with
  | false => simp [m1T1, hb, Cpu.opened, openM1]
  | true =>
    have hready : z.cpu.intReady irq = false := by simpa [Cpu.accepts, hb] using h
    simp only [Cpu.intReady, Bool.or_eq_false_iff] at hready
    have hiff : (openM1 z.cpu.core).iff1 = z.cpu.core.iff1 := rfl
    simp only [m1T1, hb, hready.1, hiff, hready.2, Cpu.opened]
    rfl

/-! M1 by T-state. -/

theorem runCycle_m1_T1 {z : Z80State} {inp out : CpuBus} (hmc : z.mc = .m1) (ht : z.t = 0 + 1) :
    z.runCycle inp out = z.m1T1 inp.irq out := by
  simp [runCycle, hmc, ht]

theorem runCycle_m1_T2 {z : Z80State} {inp out : CpuBus} (hmc : z.mc = .m1) (ht : z.t = 1 + 1) :
    z.runCycle inp out = (z, { out with addr := z.mcAddr, m1 := true, mreq := true, rd := true }) := by
  simp [runCycle, m1Rest, hmc, ht]

theorem runCycle_m1_T3 {z : Z80State} {inp out : CpuBus} (hmc : z.mc = .m1) (ht : z.t = 2 + 1) :
    z.runCycle inp out =
      let c := { z.cpu.core with seq := { z.cpu.core.seq with opcode := inp.data } }.bumpRefresh
      ({ z with cpu := { z.cpu with core := c } },
        { out with addr := pair c.i c.r, mreq := true, rfsh := true }) := by
  simp [runCycle, m1Rest, hmc, ht]

theorem runCycle_m1_T4 {z : Z80State} {inp out : CpuBus} (hmc : z.mc = .m1) (ht : z.t = 3 + 1) :
    z.runCycle inp out =
      let out := { out with addr := pair z.cpu.core.i z.cpu.core.r, rfsh := true }
      match dispatchPrefix z.cpu.core with
      | some c => ({ z with cpu := { z.cpu with core := c }, mc := .m1, t := 0 }, out)
      | none => (z.firstMicro, out) := by
  simp only [runCycle, m1Rest, hmc, ht]
  rfl

theorem Cpu.accepted_atTime (cpu : Cpu) (n : Nat) :
    (cpu.atTime n).accepted = cpu.accepted.atTime n := by
  have hn : (cpu.atTime n).nmiPending = cpu.nmiPending := rfl
  unfold Cpu.accepted
  rw [hn]
  split_ifs <;> rfl

/-- The T-state that accepts an interrupt. -/
theorem Between.accept (agent : Agent σ) (h : Between inputs b cpu .m1 w) (hhalt : cpu.halted = false)
    (hacc : cpu.accepts inputs.irq = true) :
    ∃ n b', alignMem true cpu.tstates + 1 = cpu.tstates + n ∧ Ticks agent inputs n b b' ∧
      Between inputs b'
        (cpu.accepted.atTime (alignMem true cpu.tstates + 1)).clearStep.micro.1
        (cpu.accepted.atTime (alignMem true cpu.tstates + 1)).clearStep.micro.2 w := by
  obtain ⟨n, b₁, hticks, hb₁, hn⟩ := h.align agent hhalt rfl
  obtain ⟨p, hp, rfl, -⟩ := hb₁.peer
  rw [← Cpu.accepted_atTime]
  have hlast := hp.step agent
    ((cpu.atTime (alignMem true cpu.tstates + 1)).accepted.clearStep.micro.1)
    ((cpu.atTime (alignMem true cpu.tstates + 1)).accepted.clearStep.micro.2)
    0 p.rest hhalt (fun _ _ => alignMem_mod _) (fun z inp hs => by
      have hz : z.cpu.accepts inp.irq = true := by
        rw [hs.cpu_eq, hs.irq_eq]
        exact hacc
      rw [runCycle_m1_T1 hs.mc_eq hs.t_eq, m1T1_of_accepts hz, hs.cpu_eq]
      exact ⟨rfl, rfl, rfl, Peer.tick_idle _ rfl⟩) (by rw [Cpu.accepted_atTime]; rfl)
  refine ⟨n + 1, _, by omega, hticks.tail ?_, hlast.between rfl (Peer.quiet_rest _)⟩
  rw [hb₁.instrCount_eq, h.instrCount_eq]
  rfl

theorem At.fetch (agent : Agent σ) (h : At inputs b cpu .m1 0 peer) (hq : peer.Quiet) (hhalt : cpu.halted = false)
    (hslot : cpu.tstates % 4 = 0) (hno : cpu.accepts inputs.irq = false) :
    let fetched := fetchM1 agent true cpu.opened peer.world
    ∃ b', Ticks agent inputs 4 b b' ∧
      match dispatchPrefix fetched.1.core with
      | some c => Between inputs b' { fetched.1 with core := c } .m1 fetched.2
      | none => Between inputs b' fetched.1.clearStep.micro.1 fetched.1.clearStep.micro.2
          fetched.2 := by
  intro fetched
  -- T1: the address goes out, and the fetch starts.
  have h1 := h.step agent
    { cpu.tick.opened with core := cpu.opened.core.pcinc } .m1 1
    (peer.start agent
      { offered inputs peer with addr := cpu.core.pc, m1 := true, mreq := true, rd := true })
    hhalt (fun _ _ => hslot) (fun z inp hs => by
      have hz : z.cpu.accepts inp.irq = false := by
        rw [hs.cpu_eq, hs.irq_eq]
        exact hno
      rw [runCycle_m1_T1 hs.mc_eq hs.t_eq, m1T1_of_not_accepts hz, hs.cpu_eq]
      exact ⟨rfl, hs.mc_eq, hs.t_eq, Peer.tick_start .memRead hq rfl (by decide)⟩) rfl
  generalize hp : peer.start agent _ = p at h1
  obtain ⟨hstrobe, hdrives, hworld⟩ : p.strobe = .memRead ∧
      p.drives inputs.irqVector = some (peer.world.memRead agent cpu.core.pc).1 ∧
      p.world = (peer.world.memRead agent cpu.core.pc).2 := by
    subst hp
    exact ⟨rfl, rfl, rfl⟩
  -- T2: the peer holds what it drives.
  have h2 := h1.step agent
    { cpu.tick.tick.opened with core := cpu.opened.core.pcinc } .m1 2
    p hhalt (fun h0 => absurd h0 (by decide)) (fun z inp hs => by
      rw [runCycle_m1_T2 hs.mc_eq hs.t_eq]
      exact ⟨hs.cpu_eq, hs.mc_eq, hs.t_eq, Peer.tick_same hstrobe.symm⟩) rfl
  -- T3: the opcode is latched.
  have h3 := h2.step agent
    { fetched.1 with tstates := cpu.tstates + 3 } .m1 3
    p.rest hhalt (fun h0 => absurd h0 (by decide)) (fun z inp hs => by
      rw [runCycle_m1_T3 hs.mc_eq hs.t_eq, hs.data_eq (by decide) _ hdrives, hs.cpu_eq]
      exact ⟨rfl, hs.mc_eq, hs.t_eq, Peer.tick_idle _ rfl⟩) rfl
  have htime : fetched.1.tstates = cpu.tstates + 4 := by
    have halign : alignMem true cpu.tstates = cpu.tstates := by simp [alignMem, hslot]
    exact congrArg (· + 4) halign
  have hcount {t : Nat} {c : Cpu} {b₁ : Board σ} {q : Peer σ} (hb : At inputs b₁ c .m1 t q)
      (hc : c.core.seq.instrCount = cpu.core.seq.instrCount) : b₁.instrCount = b.instrCount := by
    rw [hb.instrCount_eq, h.instrCount_eq, hc]
  have hticks := (((Ticks.one b).succ (hcount h1 rfl)).succ (hcount h2 rfl)).succ (hcount h3 rfl)
  refine ⟨_, hticks, ?_⟩
  have hhalt3 : fetched.1.halted = false := (fetchM1_halted cpu.opened peer.world).trans hhalt
  -- T4: a prefix asks for another fetch, and an opcode runs its first micro-operation.
  cases hd : dispatchPrefix fetched.1.core with
  | some c =>
    have h4 := h3.step agent { fetched.1 with core := c } .m1
      0 p.rest hhalt3 (fun h0 => absurd h0 (by decide)) (fun z inp hs => by
        have hz : dispatchPrefix z.cpu.core = some c := by rw [hs.cpu_eq, ← hd]; rfl
        rw [runCycle_m1_T4 hs.mc_eq hs.t_eq, hz, hs.cpu_eq]
        refine ⟨?_, rfl, rfl, Peer.tick_idle _ rfl⟩
        simp [Cpu.tick, htime]) (by rw [htime])
    exact h4.between hworld (Peer.quiet_rest _)
  | none =>
    have h4 := h3.step agent fetched.1.clearStep.micro.1
      fetched.1.clearStep.micro.2 0 p.rest hhalt3
      (fun h0 => absurd h0 (by decide)) (fun z inp hs => by
        have hz : dispatchPrefix z.cpu.core = none := by rw [hs.cpu_eq, ← hd]; rfl
        have hcpu : z.cpu = fetched.1 := by
          rw [hs.cpu_eq]
          simp [Cpu.tick, ← htime]
        rw [runCycle_m1_T4 hs.mc_eq hs.t_eq, hz, ← hcpu]
        exact ⟨rfl, rfl, rfl, Peer.tick_idle _ rfl⟩) (by exact htime)
    exact h4.between hworld (Peer.quiet_rest _)

/-- A fetch cycle of the prefix chain. -/
theorem Between.fetch (agent : Agent σ) (h : Between inputs b cpu .m1 w) (hhalt : cpu.halted = false)
    (hno : cpu.accepts inputs.irq = false) :
    let fetched := fetchM1 agent true cpu.opened w
    ∃ n b', fetched.1.tstates = cpu.tstates + n ∧ 4 ≤ n ∧ Ticks agent inputs n b b' ∧
      match dispatchPrefix fetched.1.core with
      | some c => Between inputs b' { fetched.1 with core := c } .m1 fetched.2
      | none => Between inputs b' fetched.1.clearStep.micro.1 fetched.1.clearStep.micro.2
          fetched.2 := by
  intro fetched
  obtain ⟨n, b₁, hticks, hb₁, hn⟩ := h.align agent hhalt rfl
  obtain ⟨p, hp, rfl, hq⟩ := hb₁.peer
  obtain ⟨b', hticks', hb'⟩ := hp.fetch agent hq hhalt (alignMem_mod _) hno
  have hfetched : fetchM1 agent true (cpu.atTime (alignMem true cpu.tstates)).opened p.world
      = fetched := by
    simp only [fetched, fetchM1, Cpu.opened, Cpu.atTime, alignMem_alignMem]
  rw [hfetched] at hb'
  refine ⟨n + 4, b', ?_, by omega, hticks.trans ?_ hticks', hb'⟩
  · exact (congrArg (· + 4) hn).trans (Nat.add_assoc _ _ _)
  · rw [hb₁.instrCount_eq, h.instrCount_eq]
    rfl

theorem dispatchPrefix_eq_chainPrefix (c : Core) : dispatchPrefix c = chainPrefix c := by
  unfold dispatchPrefix chainPrefix
  dsimp only
  split_ifs with h <;> first | rfl | rw [h.1]

/-! ## The step machine -/

/-- `run_to_finish`, machine cycle by machine cycle. -/
theorem finish_run {b₀ : Board σ} {n fuel : Nat} {cpu' : Cpu} {w' : World σ}
    (hticks : Ticks agent inputs n b₀ b) (hb : Between inputs b cpu.micro.1 cpu.micro.2 w)
    (hcount : cpu.core.seq.instrCount = b₀.instrCount) (hhalt : cpu.halted = false)
    (hrun : runToFinish agent inputs.irqVector true fuel cpu w = some (cpu', w')) :
    ∃ m b', cpu'.tstates = cpu.tstates + m ∧ Ticks agent inputs (n + m) b₀ b' ∧
      Between inputs b' cpu' .m1 w' ∧ cpu.core.seq.Finished cpu'.core.seq := by
  induction fuel generalizing n b cpu w with
  | zero => exact nomatch hrun
  | succ fuel ih =>
    simp only [runToFinish] at hrun
    rcases cpu.core.runMicro_spec with ⟨hm, hfin⟩ | ⟨hseq, hvalid, -⟩
    · -- the micro-operation that finishes takes no time of its own
      rw [if_pos hm] at hrun
      cases hrun
      exact ⟨0, b, rfl, hticks, by rw [← hm]; exact hb, hfin⟩
    · have hm : cpu.core.runMicro.2 ≠ .m1 := by
        intro hm
        rw [hm] at hvalid
        exact hvalid
      rw [if_neg hm] at hrun
      have hhalt' : cpu.micro.1.halted = false := by
        rw [Cpu.halted, Cpu.micro, hseq]
        exact hhalt
      obtain ⟨k, hk, b₁, hticks₁, hb₁⟩ := hb.run agent hhalt' hvalid
      have hbcount : b.instrCount = b₀.instrCount := by
        rw [hb.instrCount_eq, Cpu.micro, hseq, hcount]
      generalize hdone : satisfy agent inputs.irqVector true cpu.micro.2 cpu.micro.1 w = done
        at hk hb₁
      have hdseq : done.1.core.seq = cpu.core.seq := by
        rw [← hdone, satisfy_seq]
        exact hseq
      obtain ⟨m, b', hm', hticks', hb', hfin⟩ := ih (hticks.trans hbcount hticks₁) hb₁
        (by rw [Cpu.bumpStep, hdseq, hcount]) (by rw [Cpu.halted, Cpu.bumpStep, hdseq]; exact hhalt)
        (by rw [← hdone]; exact hrun)
      have htime : done.1.bumpStep.tstates = cpu.tstates + k := hk
      refine ⟨k + m, b', by omega, by rwa [← Nat.add_assoc], hb', hfin.congr ?_⟩
      rw [Cpu.bumpStep, hdseq]

/-! ## The prefix chain -/

theorem opened_of_chainPrefix {c c' : Core} (cpu : Cpu) (irq : Bool) (h : chainPrefix c = some c')
    (hcpu : cpu.core = c') (hqq : c.qq = 0) :
    cpu.opened = cpu ∧ cpu.accepts irq = false := by
  obtain ⟨s, rfl, -, -, hs⟩ := chainPrefix_some h
  have hb : atBoundary cpu.core = false := by
    rw [hcpu]
    exact decide_eq_false fun hb => hs.elim (· hb.1) (· hb.2)
  refine ⟨?_, by rw [Cpu.accepts, hb]; rfl⟩
  rw [Cpu.opened, openM1, hb, hcpu]
  obtain ⟨core, nmiPending, haltT, tstates⟩ := cpu
  subst hcpu
  simp [← hqq]

/-- The prefix chain, fetch by fetch: where the batch engine's ends, the per-cycle engine starts
the same instruction; while it goes on, no instruction completes. -/
theorem fetch_run (agent : Agent σ) {b₀ : Board σ} {n : Nat} (fuel : Nat) (hticks : Ticks agent inputs n b₀ b)
    (hb : Between inputs b cpu .m1 w) (hcount : cpu.core.seq.instrCount = b₀.instrCount)
    (hhalt : cpu.halted = false) (hno : cpu.accepts inputs.irq = false) :
    match fetchChain agent true fuel cpu.opened w with
    | some (cpu', w') => ∃ m b', cpu'.tstates = cpu.tstates + m ∧
        Ticks agent inputs (n + m) b₀ b' ∧
        Between inputs b' cpu'.clearStep.micro.1 cpu'.clearStep.micro.2 w' ∧
        cpu'.core.seq.instrCount = b₀.instrCount ∧ cpu'.halted = false
    | none => ∃ m b', fuel ≤ m ∧ Ticks agent inputs (n + m) b₀ b' ∧
        b'.instrCount = b₀.instrCount := by
  -- One M1 cycle a turn: an opcode ends the chain, and a prefix goes on with less fuel.
  induction fuel generalizing n b cpu w with
  | zero => exact ⟨0, b, Nat.le_refl 0, hticks, hb.instrCount_eq.trans hcount⟩
  | succ fuel ih =>
    obtain ⟨k, b₁, hk, hpos, hticks₁, hb₁⟩ := hb.fetch agent hhalt hno
    have hticks' := hticks.trans (hb.instrCount_eq.trans hcount) hticks₁
    have hfcount : (fetchM1 agent true cpu.opened w).1.core.seq.instrCount = b₀.instrCount := by
      rw [fetchM1_seq]
      exact hcount
    have hfhalt : (fetchM1 agent true cpu.opened w).1.halted = false :=
      (fetchM1_halted cpu.opened w).trans hhalt
    have hqq : (fetchM1 agent true cpu.opened w).1.core.qq = 0 := rfl
    simp only [fetchChain]
    rw [dispatchPrefix_eq_chainPrefix] at hb₁
    generalize fetchM1 agent true cpu.opened w = fetched at hk hb₁ hfcount hfhalt hqq
    cases hc : chainPrefix fetched.1.core with
    | none =>
      rw [hc] at hb₁
      exact ⟨k, b₁, hk, hticks', hb₁, hfcount, hfhalt⟩
    | some c =>
      rw [hc] at hb₁
      obtain ⟨hopen, hno'⟩ := opened_of_chainPrefix { fetched.1 with core := c }
        inputs.irq hc rfl hqq
      obtain ⟨s, hs, hshalt, hscount, -⟩ := chainPrefix_some hc
      have hnext := ih hticks' hb₁ (by rw [hs, hscount, hfcount])
        (by rw [Cpu.halted, hs, hshalt]; exact hfhalt) hno'
      rw [hopen] at hnext
      cases hf : fetchChain agent true fuel { fetched.1 with core := c } fetched.2 with
      | some done =>
        simp only [hf] at hnext ⊢
        obtain ⟨m, b', hm, hticks'', hb', hdone⟩ := hnext
        exact ⟨k + m, b', by omega, by rwa [← Nat.add_assoc], hb', hdone⟩
      | none =>
        simp only [hf] at hnext ⊢
        obtain ⟨m, b', hm, hticks'', hb'⟩ := hnext
        exact ⟨k + m, b', by omega, by rwa [← Nat.add_assoc], hb'⟩

end Koncepcja.Z80
