import Koncepcja.Lib.Runs
import Koncepcja.Z80.TState

/-!
# One Machine Cycle

From the T-state a machine cycle is requested to the T-state it ends, the per-cycle engine does
what the batch engine's `satisfy` does in one go, in as many T-states as `satisfy` counts.

## Main results

- `Between.run`: every bus, internal and acknowledge cycle.
- `Between.fetch`: an opcode fetch.
- `Between.accept`: the T-state that accepts an interrupt.
-/

namespace Koncepcja.Z80

open Koncepcja.Runs

variable {σ : Type} {agent : Agent σ} {inputs : Inputs}

/-- Instructions completed so far. -/
def Board.instrCount (b : Board σ) : Nat := b.z80.cpu.core.seq.instrCount

/-- `n` T-states take `b` to `b'`, and no instruction completes before the last of them. -/
abbrev Ticks (agent : Agent σ) (inputs : Inputs) (n : Nat) (b b' : Board σ) : Prop :=
  Reaches (Board.tState agent inputs) Board.instrCount n b b'

theorem Ticks.one (b : Board σ) : Ticks agent inputs 1 b (b.tState agent inputs) := .single b

theorem Ticks.succ {n : Nat} {b b' : Board σ} (h : Ticks agent inputs n b b')
    (hcount : b'.instrCount = b.instrCount) :
    Ticks agent inputs (n + 1) b (b'.tState agent inputs) :=
  h.tail hcount

/-- `run_micro()` on the state both engines share. -/
def Cpu.micro (cpu : Cpu) : Cpu × MC :=
  ({ cpu with core := cpu.core.runMicro.1 }, cpu.core.runMicro.2)

/-- No transaction is under way. -/
def Peer.Quiet (p : Peer σ) : Prop := p.strobe = .idle ∨ p.strobe = .intAck

theorem Peer.quiet_rest (p : Peer σ) : p.rest.Quiet := Or.inl rfl

/-- The board at the start of machine cycle `mc`. -/
structure Between (inputs : Inputs) (b : Board σ) (cpu : Cpu) (mc : MC) (w : World σ) : Prop where
  peer : ∃ p, At inputs b cpu mc 0 p ∧ p.world = w ∧ p.Quiet

variable {b : Board σ} {cpu : Cpu} {mc : MC} {w : World σ} {peer : Peer σ} {addr : Word} {val : Byte}

theorem At.instrCount_eq {t : Nat} (h : At inputs b cpu mc t peer) :
    b.instrCount = cpu.core.seq.instrCount := by
  rw [Board.instrCount, h.cpu_eq]

theorem Between.instrCount_eq (h : Between inputs b cpu mc w) :
    b.instrCount = cpu.core.seq.instrCount := by
  obtain ⟨p, hp, -, -⟩ := h.peer
  exact hp.instrCount_eq

theorem At.between {w' : World σ} (h : At inputs b cpu mc 0 peer) (hw : peer.world = w')
    (hq : peer.Quiet) : Between inputs b cpu mc w' :=
  ⟨peer, h, hw, hq⟩

/-! ## Waiting for the grid -/

theorem Between.align (agent : Agent σ) (h : Between inputs b cpu mc w) (hhalt : cpu.halted = false)
    (hgrid : mc.gridHeld = true) :
    ∃ n b', Ticks agent inputs n b b' ∧
      Between inputs b' (cpu.atTime (alignMem true cpu.tstates)) mc w ∧
      alignMem true cpu.tstates = cpu.tstates + n := by
  obtain ⟨n, hn⟩ : ∃ n, (4 - cpu.tstates % 4) % 4 = n := ⟨_, rfl⟩
  have halign : alignMem true cpu.tstates = cpu.tstates + n := by simp [alignMem, hn]
  rw [halign]
  clear halign
  induction n generalizing b cpu with
  | zero => exact ⟨0, b, .refl b, h, rfl⟩
  | succ n ih =>
    obtain ⟨p, hp, hw, -⟩ := h.peer
    have hheld := hp.hold agent hhalt hgrid (by omega)
    obtain ⟨m, b', hrun, hb', hm⟩ := ih (hheld.between hw p.quiet_rest) hhalt
      (by rw [Cpu.tstates_tick]; omega)
    refine ⟨1 + m, b', (Ticks.one b).trans ?_ hrun, ?_, ?_⟩
    · rw [hheld.instrCount_eq, hp.instrCount_eq, Cpu.core_tick]
    · rwa [Cpu.tstates_tick, Nat.add_right_comm] at hb'
    · rw [Cpu.tstates_tick] at hm
      omega

/-! ## One T-state of a machine cycle -/

namespace At

variable {t : Nat}

theorem drive (agent : Agent σ) (out : CpuBus) (h : At inputs b cpu mc t peer) (hhalt : cpu.halted = false)
    (hgrid : t = 0 → mc.gridHeld = true → cpu.tstates % 4 = 0)
    (hr : ∀ z inp, Sees inputs cpu mc t peer z inp →
      z.runCycle inp (offered inputs peer) = (z, out)) :
    At inputs (b.tState agent inputs) cpu.tick mc (t + 1) (peer.tick agent out) := by
  refine h.step agent _ _ _ _ hhalt hgrid (fun z inp hs => ?_) rfl
  rw [hr z inp hs]
  exact ⟨hs.cpu_eq, hs.mc_eq, hs.t_eq, rfl⟩

theorem stretch (agent : Agent σ) (out : CpuBus) (h : At inputs b cpu mc t peer) (hhalt : cpu.halted = false)
    (hgrid : t = 0 → mc.gridHeld = true → cpu.tstates % 4 = 0)
    (hr : ∀ z inp, Sees inputs cpu mc t peer z inp →
      z.runCycle inp (offered inputs peer) = ({ z with t }, out)) :
    At inputs (b.tState agent inputs) cpu.tick mc t (peer.tick agent out) := by
  refine h.step agent _ _ _ _ hhalt hgrid (fun z inp hs => ?_) rfl
  rw [hr z inp hs]
  exact ⟨hs.cpu_eq, hs.mc_eq, rfl, rfl⟩

theorem last (agent : Agent σ) (out : CpuBus) (cpu' : Cpu) (h : At inputs b cpu mc t peer) (hhalt : cpu.halted = false)
    (hgrid : t = 0 → mc.gridHeld = true → cpu.tstates % 4 = 0)
    (hr : ∀ z inp, Sees inputs cpu mc t peer z inp →
      ∃ z' : Z80State, z.runCycle inp (offered inputs peer) = (z'.nextMicro, out) ∧ z'.cpu = cpu')
    (hts : cpu'.tstates = cpu.tstates + 1) :
    At inputs (b.tState agent inputs) cpu'.bumpStep.micro.1 cpu'.bumpStep.micro.2 0
      (peer.tick agent out) := by
  refine h.step agent _ _ _ _ hhalt hgrid (fun z inp hs => ?_) hts
  obtain ⟨z', hz, rfl⟩ := hr z inp hs
  rw [hz]
  exact ⟨rfl, rfl, rfl, rfl⟩

end At

/-- `n` T-states on, the machine cycle is over with the CPU at `cpu'` and the far side at `w'`, and
the next micro-operation has run. -/
def Satisfied (agent : Agent σ) (inputs : Inputs) (b : Board σ) (n : Nat) (cpu' : Cpu)
    (w' : World σ) : Prop :=
  ∃ b', Ticks agent inputs n b b' ∧
    Between inputs b' cpu'.bumpStep.micro.1 cpu'.bumpStep.micro.2 w'

theorem Satisfied.after {n m : Nat} {b₁ : Board σ} {cpu' : Cpu} {w' : World σ}
    (h : Ticks agent inputs n b b₁) (hcount : b₁.instrCount = b.instrCount)
    (hs : Satisfied agent inputs b₁ m cpu' w') : Satisfied agent inputs b (n + m) cpu' w' := by
  obtain ⟨b', hrun, hb'⟩ := hs
  exact ⟨b', h.trans hcount hrun, hb'⟩

/-! ## Memory cycles -/

theorem Peer.tick_start {p : Peer σ} {out : CpuBus} (s : Strobe) (hq : p.Quiet)
    (h : out.strobe = s) (hs : s ≠ .idle ∧ s ≠ .intAck) : p.tick agent out = p.start agent out := by
  subst h
  refine if_neg ?_
  rcases hq with hp | hp <;> rw [hp]
  exacts [hs.1, hs.2]

theorem Peer.tick_same {p : Peer σ} {out : CpuBus} (h : out.strobe = p.strobe) :
    p.tick agent out = p :=
  if_pos h

theorem At.read (h : At inputs b cpu (.read addr) 0 peer) (hq : peer.Quiet)
    (hhalt : cpu.halted = false) (hslot : cpu.tstates % 4 = 0) :
    Satisfied agent inputs b 3
      { cpu with
        core := { cpu.core with tmp := (peer.world.memRead agent addr).1 }
        tstates := cpu.tstates + 3 }
      (peer.world.memRead agent addr).2 := by
  let lines := fun p : Peer σ => { offered inputs p with addr, mreq := true, rd := true }
  -- T1: the address goes out.
  have h1 := h.drive agent (lines peer) hhalt (fun _ _ => hslot)
    fun z inp hs => by
      simp only [Z80State.runCycle, hs.mc_eq, hs.t_eq]
      rfl
  rw [Peer.tick_start .memRead hq rfl (by decide)] at h1
  -- T2: in the slot of the CPU there is no wait.
  have h2 := h1.drive agent (lines (peer.start agent (lines peer))) hhalt
    (fun h0 => absurd h0 (by decide)) fun z inp hs => by
      have hwait : inp.wait = false := by
        rw [hs.wait_eq, Cpu.tstates_tick]
        simp [Nat.add_mod, hslot]
      simp only [Z80State.runCycle, hs.mc_eq, hs.t_eq, hwait]
      rfl
  rw [Peer.tick_same rfl] at h2
  -- T3: the byte is latched.
  have h3 := h2.last agent (offered inputs (peer.start agent (lines peer)))
    { cpu with
        core := { cpu.core with tmp := (peer.world.memRead agent addr).1 }
        tstates := cpu.tstates + 3 }
    hhalt (fun h0 => absurd h0 (by decide)) (fun z inp hs => by
      refine ⟨z.latchTmp inp.data, ?_, ?_⟩
      · simp only [Z80State.runCycle, hs.mc_eq, hs.t_eq]
        rfl
      · rw [Z80State.latchTmp, hs.data_eq (by decide) _ rfl, hs.cpu_eq]
        rfl) rfl
  rw [Peer.tick_idle _ rfl] at h3
  have hcount1 := h1.instrCount_eq.trans h.instrCount_eq.symm
  have hcount2 := h2.instrCount_eq.trans h.instrCount_eq.symm
  exact ⟨_, ((Ticks.one b).succ hcount1).succ hcount2, h3.between rfl (Peer.quiet_rest _)⟩

theorem At.write (h : At inputs b cpu (.write addr val) 0 peer)
    (hhalt : cpu.halted = false) (hslot : cpu.tstates % 4 = 0) :
    Satisfied agent inputs b 3 { cpu with tstates := cpu.tstates + 3 }
      (peer.world.memWrite agent addr val) := by
  -- T1 puts address and data out, T2 strobes the write, T3 ends the cycle.
  have h1 := h.drive agent
    { offered inputs peer with addr, data := val, mreq := true } hhalt
    (fun _ _ => hslot) fun z inp hs => by
      simp only [Z80State.runCycle, hs.mc_eq, hs.t_eq]
      rfl
  rw [Peer.tick_idle _ rfl] at h1
  have h2 := h1.drive agent
    { offered inputs peer.rest with addr, data := val, mreq := true, wr := true } hhalt
    (fun h0 => absurd h0 (by decide)) fun z inp hs => by
      have hwait : inp.wait = false := by
        rw [hs.wait_eq, Cpu.tstates_tick]
        simp [Nat.add_mod, hslot]
      simp only [Z80State.runCycle, hs.mc_eq, hs.t_eq, hwait]
      rfl
  -- The peer takes the write with the strobe, and only once.
  rw [Peer.tick_start .memWrite peer.quiet_rest rfl (by decide)] at h2
  have h3 := h2.last agent (offered inputs _)
    { cpu with tstates := cpu.tstates + 3 } hhalt (fun h0 => absurd h0 (by decide))
    (fun z inp hs => by
      refine ⟨z, ?_, hs.cpu_eq⟩
      simp only [Z80State.runCycle, hs.mc_eq, hs.t_eq]
      rfl) rfl
  rw [Peer.tick_idle _ rfl] at h3
  have hcount1 := h1.instrCount_eq.trans h.instrCount_eq.symm
  have hcount2 := h2.instrCount_eq.trans h.instrCount_eq.symm
  exact ⟨_, ((Ticks.one b).succ hcount1).succ hcount2, h3.between rfl (Peer.quiet_rest _)⟩

/-! ## Internal and I/O cycles -/

theorem At.internal {len t : Nat} (h : At inputs b cpu (.internal len) t peer)
    (hhalt : cpu.halted = false) (n : Nat) (hn : t + n + 1 = len) :
    Satisfied agent inputs b (n + 1) { cpu with tstates := cpu.tstates + (n + 1) } peer.world := by
  -- On the T-states left; nothing is on the bus.
  induction n generalizing b cpu peer t with
  | zero =>
    have hlast := h.last agent (offered inputs peer)
      { cpu with tstates := cpu.tstates + 1 } hhalt (fun _ hg => nomatch hg)
      (fun z inp hs => by
        refine ⟨z, ?_, hs.cpu_eq⟩
        simp only [Z80State.runCycle, hs.mc_eq, hs.t_eq]
        rw [if_pos (by omega)]) rfl
    rw [Peer.tick_idle _ rfl] at hlast
    exact ⟨_, Ticks.one b, hlast.between rfl (Peer.quiet_rest _)⟩
  | succ n ih =>
    have h1 := h.drive agent (offered inputs peer) hhalt (fun _ hg => nomatch hg)
      fun z inp hs => by
        simp only [Z80State.runCycle, hs.mc_eq, hs.t_eq]
        rw [if_neg (by omega)]
    rw [Peer.tick_idle _ rfl] at h1
    have hrest := ih h1 hhalt (by omega)
    have htime : cpu.tick.tstates + (n + 1) = cpu.tstates + (n + 1 + 1) := by
      rw [Cpu.tstates_tick]
      omega
    have hsat := hrest.after (Ticks.one b) (h1.instrCount_eq.trans h.instrCount_eq.symm)
    rw [htime, Nat.add_comm 1 (n + 1)] at hsat
    exact hsat

theorem At.ioWait (agent : Agent σ) (out : CpuBus) (h : At inputs b cpu mc 2 peer) (hhalt : cpu.halted = false)
    (hout : out.strobe = peer.strobe)
    (hr : ∀ cpu z inp, Sees inputs cpu mc 2 peer z inp → inp.wait = true →
      z.runCycle inp (offered inputs peer) = ({ z with t := 2 }, out))
    (n : Nat) (hn : (5 - cpu.tstates % 4) % 4 = n) :
    ∃ b', Ticks agent inputs n b b' ∧
      At inputs b' (cpu.atTime (cpu.tstates + n)) mc 2 peer := by
  induction n generalizing b cpu with
  | zero => exact ⟨b, .refl b, h⟩
  | succ n ih =>
    have h1 := h.stretch agent (out) hhalt (fun h0 => absurd h0 (by decide))
      fun z inp hs => hr _ z inp hs (by
        rw [hs.wait_eq]
        have : cpu.tstates % 4 ≠ 1 := by omega
        simpa using this)
    rw [Peer.tick_same hout] at h1
    obtain ⟨b', hrun, hb'⟩ := ih h1 hhalt (by rw [Cpu.tstates_tick]; omega)
    refine ⟨b', ?_, ?_⟩
    · rw [Nat.add_comm]
      exact (Ticks.one b).trans (h1.instrCount_eq.trans h.instrCount_eq.symm) hrun
    · rw [Cpu.tstates_tick, Nat.add_right_comm, Nat.add_assoc] at hb'
      exact hb'

theorem At.ioDrive (agent : Agent σ) (s : Strobe) (lines : Peer σ → CpuBus)
    (h : At inputs b cpu mc 0 peer)
    (hq : peer.Quiet) (hhalt : cpu.halted = false) (hfree : mc.gridHeld = false)
    (hlines : ∀ p, (lines p).strobe = s) (hs : s ≠ .idle ∧ s ≠ .intAck)
    (hr : ∀ cpu t p z inp, t < 3 → Sees inputs cpu mc t p z inp →
      z.runCycle inp (offered inputs p) = (if t = 2 ∧ inp.wait then { z with t := 2 } else z, lines p)) :
    ∃ n b', Ticks agent inputs n b b' ∧ b'.instrCount = b.instrCount ∧
      cpu.tstates + n = ioSample true cpu.tstates + 1 ∧
      At inputs b' (cpu.atTime (ioSample true cpu.tstates + 1)) mc 3
        (peer.start agent (lines peer)) := by
  have hgrid : ∀ {t n : Nat}, t = 0 → mc.gridHeld = true → n % 4 = 0 := fun _ hg => by
    rw [hfree] at hg
    exact nomatch hg
  -- T1 and T2: the lines go out and are held.
  have h1 := h.drive agent (lines peer) hhalt hgrid fun z inp hz => by
    simpa using hr _ _ _ z inp (by decide) hz
  rw [Peer.tick_start s hq (hlines peer) hs] at h1
  have hstrobe : (peer.start agent (lines peer)).strobe = s := by
    rw [Peer.strobe_start, hlines]
  generalize peer.start agent (lines peer) = p at h1 hstrobe
  have hsame : (lines p).strobe = p.strobe := (hlines p).trans hstrobe.symm
  have h2 := h1.drive agent (lines p) hhalt hgrid fun z inp hz => by
    simpa using hr _ _ _ z inp (by decide) hz
  rw [Peer.tick_same hsame] at h2
  -- The wait states, up to the slot in which the gate array lets go.
  obtain ⟨b', hrun, h3⟩ := h2.ioWait agent (lines p) hhalt hsame
    (fun _ z inp hz hwait => by simpa [hwait] using hr _ _ _ z inp (by decide) hz) _ rfl
  have hsample : cpu.tick.tick.tstates + (5 - cpu.tick.tick.tstates % 4) % 4
      = ioSample true cpu.tstates := by
    simp [ioSample]
  have hslot : ioSample true cpu.tstates % 4 = 1 := by
    simp only [ioSample, if_true]
    omega
  rw [hsample] at h3
  -- The T-state that samples the bus, one past that slot.
  have h4 := h3.drive agent (lines p) hhalt hgrid fun z inp hz => by
    have hwait : inp.wait = false := by
      rw [hz.wait_eq]
      simp [Cpu.atTime, hslot]
    simpa [hwait] using hr _ _ _ z inp (by decide) hz
  rw [Peer.tick_same hsame] at h4
  have hcount {t : Nat} {c : Cpu} {b₁ : Board σ} {q : Peer σ} (hb : At inputs b₁ c mc t q)
      (hc : c.core = cpu.core) : b₁.instrCount = b.instrCount := by
    rw [hb.instrCount_eq, h.instrCount_eq, hc]
  refine ⟨_, _, (((Ticks.one b).succ (hcount h1 rfl)).trans (hcount h2 rfl) hrun).tail
    (hcount h3 rfl), hcount h4 rfl, ?_, h4⟩
  rw [← hsample]
  simp only [Cpu.tstates_tick]
  omega

theorem At.ioRead (agent : Agent σ) (h : At inputs b cpu (.ioRead addr) 0 peer) (hq : peer.Quiet)
    (hhalt : cpu.halted = false) :
    ∃ n, cpu.tstates + n = ioSample true cpu.tstates + 2 ∧
      Satisfied agent inputs b n
        { cpu with
          core := { cpu.core with tmp := (peer.world.ioRead agent addr).1 }
          tstates := ioSample true cpu.tstates + 2 }
        (peer.world.ioRead agent addr).2 := by
  -- The drive part waits for the grid; the last T-state latches the byte.
  obtain ⟨n, b', hrun, hcount, hn, h3⟩ := h.ioDrive agent .ioRead
    (fun p => { offered inputs p with addr, iorq := true, rd := true }) hq hhalt rfl
    (fun _ => rfl) (by decide) fun _ t p z inp ht hs => by
      simp only [Z80State.runCycle, hs.mc_eq, hs.t_eq]
      rw [if_pos (by omega)]
      simp
  have h4 := h3.last agent (offered inputs _)
    { cpu with
        core := { cpu.core with tmp := (peer.world.ioRead agent addr).1 }
        tstates := ioSample true cpu.tstates + 2 } hhalt (fun h0 => absurd h0 (by decide))
    (fun z inp hs => by
      refine ⟨z.latchTmp inp.data, ?_, ?_⟩
      · simp only [Z80State.runCycle, hs.mc_eq, hs.t_eq]
        rfl
      · rw [Z80State.latchTmp, hs.data_eq (by decide) _ rfl, hs.cpu_eq]
        rfl) rfl
  rw [Peer.tick_idle _ rfl] at h4
  exact ⟨n + 1, by omega, _, hrun.tail hcount, h4.between rfl (Peer.quiet_rest _)⟩

theorem At.ioWrite (agent : Agent σ) (h : At inputs b cpu (.ioWrite addr val) 0 peer) (hq : peer.Quiet)
    (hhalt : cpu.halted = false) :
    ∃ n, cpu.tstates + n = ioSample true cpu.tstates + 2 ∧
      Satisfied agent inputs b n { cpu with tstates := ioSample true cpu.tstates + 2 }
        (peer.world.ioWrite agent addr val) := by
  obtain ⟨n, b', hrun, hcount, hn, h3⟩ := h.ioDrive agent .ioWrite
    (fun p => { offered inputs p with addr, iorq := true, wr := true, data := val })
    hq hhalt rfl (fun _ => rfl) (by decide) fun _ t p z inp ht hs => by
      simp only [Z80State.runCycle, hs.mc_eq, hs.t_eq]
      rw [if_pos (by omega)]
      simp
  have h4 := h3.last agent (offered inputs _)
    { cpu with tstates := ioSample true cpu.tstates + 2 } hhalt
    (fun h0 => absurd h0 (by decide))
    (fun z inp hs => by
      refine ⟨z, ?_, hs.cpu_eq⟩
      simp only [Z80State.runCycle, hs.mc_eq, hs.t_eq]
      rfl) rfl
  rw [Peer.tick_idle _ rfl] at h4
  exact ⟨n + 1, by omega, _, hrun.tail hcount, h4.between rfl (Peer.quiet_rest _)⟩

/-! ## Acknowledge cycles -/

/-- The lines of an acknowledge. -/
def ackLines (cpu : Cpu) (out : CpuBus) : CpuBus :=
  let maskable := decide (cpu.core.seq.servicing = .maskable)
  { out with
    addr := cpu.core.pc
    m1 := true
    iorq := out.iorq || maskable
    mreq := out.mreq || !maskable }

theorem strobe_ackLines (inputs : Inputs) (cpu : Cpu) (p : Peer σ) :
    (ackLines cpu (offered inputs p)).strobe =
      if cpu.core.seq.servicing = .maskable then .intAck else .idle := by
  by_cases h : cpu.core.seq.servicing = .maskable <;>
    simp [ackLines, CpuBus.strobe, offered, CpuBus.resting, h]

/-- The vector an acknowledge latches. -/
def ackVector (inputs : Inputs) (cpu : Cpu) : Byte :=
  if cpu.core.seq.servicing = .maskable then inputs.irqVector else cpu.core.intVec

theorem At.ioackRest (agent : Agent σ) {len t : Nat} (h : At inputs b cpu (.ioack len) t peer) (ht : 0 < t)
    (hp : peer.strobe = if cpu.core.seq.servicing = .maskable then .intAck else .idle)
    (hhalt : cpu.halted = false) (n : Nat) (hn : t + n + 1 = len) :
    Satisfied agent inputs b (n + 1)
      { cpu with
        core := { cpu.core with intVec := ackVector inputs cpu }
        tstates := cpu.tstates + (n + 1) } peer.world := by
  have hsame : (ackLines cpu (offered inputs peer)).strobe = peer.strobe := by
    rw [strobe_ackLines, hp]
  have hq : peer.Quiet := by
    unfold Peer.Quiet
    split_ifs at hp
    · exact Or.inr hp
    · exact Or.inl hp
  induction n generalizing b cpu t with
  | zero =>
    have hlast := h.last agent (ackLines cpu (offered inputs peer))
      { cpu with
          core := { cpu.core with intVec := ackVector inputs cpu }
          tstates := cpu.tstates + 1 } hhalt (fun h0 => absurd h0 (by omega))
      (fun z inp hs => by
        simp only [Z80State.runCycle, hs.mc_eq, hs.t_eq]
        rw [if_pos (by omega)]
        refine ⟨_, by rw [hs.cpu_eq]; rfl, ?_⟩
        -- the vector on the bus is the one the far side has been driving since T2
        by_cases hm : cpu.core.seq.servicing = .maskable
        · rw [if_pos hm] at hp
          have hdata := hs.data_eq (by omega) inputs.irqVector (by rw [Peer.drives, hp])
          simp [ackVector, Cpu.tick, hm, hdata]
        · simp [ackVector, Cpu.tick, hm]) rfl
    rw [Peer.tick_same hsame] at hlast
    exact ⟨_, Ticks.one b, hlast.between rfl hq⟩
  | succ n ih =>
    have h1 := h.drive agent (ackLines cpu (offered inputs peer)) hhalt
      (fun h0 => absurd h0 (by omega)) fun z inp hs => by
        simp only [Z80State.runCycle, hs.mc_eq, hs.t_eq]
        rw [if_neg (by omega), hs.cpu_eq]
        rfl
    rw [Peer.tick_same hsame] at h1
    have hrest := ih h1 (by omega) hp hhalt (by omega) hsame
    have htime : cpu.tick.tstates + (n + 1) = cpu.tstates + (n + 1 + 1) := by
      rw [Cpu.tstates_tick]
      omega
    have hsat := hrest.after (Ticks.one b) (h1.instrCount_eq.trans h.instrCount_eq.symm)
    rw [htime, Nat.add_comm 1 (n + 1)] at hsat
    exact hsat

theorem At.ioack {len : Nat} (h : At inputs b cpu (.ioack len) 0 peer)
    (hhalt : cpu.halted = false) (hslot : cpu.tstates % 4 = 0) (hlen : 2 ≤ len) :
    Satisfied agent inputs b len
      { cpu with
        core := { cpu.core with intVec := ackVector inputs cpu }
        tstates := cpu.tstates + len } peer.world := by
  obtain ⟨n, rfl⟩ : ∃ n, len = n + 2 := ⟨len - 2, by omega⟩
  have h1 := h.drive agent (ackLines cpu (offered inputs peer)) hhalt
    (fun _ _ => hslot) fun z inp hs => by
      simp only [Z80State.runCycle, hs.mc_eq, hs.t_eq]
      rw [if_neg (by omega), hs.cpu_eq]
      rfl
  have hstrobe := (Peer.strobe_tick agent peer (ackLines cpu (offered inputs peer))).trans
    (strobe_ackLines inputs cpu peer)
  -- The acknowledge is no transfer: the peer does nothing.
  have hworld : (peer.tick agent (ackLines cpu (offered inputs peer))).world = peer.world := by
    unfold Peer.tick Peer.start
    rw [strobe_ackLines]
    split_ifs <;> rfl
  have hrest := h1.ioackRest agent (by decide) hstrobe hhalt n (by omega)
  have htime : cpu.tick.tstates + (n + 1) = cpu.tstates + (n + 2) := by
    rw [Cpu.tstates_tick]
    omega
  have hsat := hrest.after (Ticks.one b) (h1.instrCount_eq.trans h.instrCount_eq.symm)
  rw [htime, Nat.add_comm 1 (n + 1), hworld] at hsat
  exact hsat

/-! ## Every cycle -/

theorem alignMem_mod (n : Nat) : alignMem true n % 4 = 0 := by
  simp only [alignMem, if_true]
  omega

theorem alignMem_alignMem (n : Nat) : alignMem true (alignMem true n) = alignMem true n := by
  simp only [alignMem, if_true]
  omega

theorem Between.afterAlign (h : Between inputs b cpu mc w) (hhalt : cpu.halted = false)
    (hgrid : mc.gridHeld = true) {len : Nat} {cpu' : Cpu} {w' : World σ}
    (hts : cpu'.tstates = alignMem true cpu.tstates + len)
    (hrun : ∀ b₁ p, At inputs b₁ (cpu.atTime (alignMem true cpu.tstates)) mc 0 p → p.world = w →
      p.Quiet → Satisfied agent inputs b₁ len cpu' w') :
    ∃ n, cpu'.tstates = cpu.tstates + n ∧ Satisfied agent inputs b n cpu' w' := by
  obtain ⟨n, b₁, hticks, hb₁, hn⟩ := h.align agent hhalt hgrid
  obtain ⟨p, hp, hw, hq⟩ := hb₁.peer
  refine ⟨n + len, by omega, (hrun b₁ p hp hw hq).after hticks ?_⟩
  rw [hb₁.instrCount_eq, h.instrCount_eq]
  rfl

/-- A machine cycle of the step machine takes the per-cycle engine as many T-states as `satisfy`
counts, and leaves the CPU and the far side as `satisfy` does. -/
theorem Between.run (agent : Agent σ) (h : Between inputs b cpu mc w) (hhalt : cpu.halted = false)
    (hmc : mc.Valid) :
    ∃ n, (satisfy agent inputs.irqVector true mc cpu w).1.tstates = cpu.tstates + n ∧
      Satisfied agent inputs b n (satisfy agent inputs.irqVector true mc cpu w).1
        (satisfy agent inputs.irqVector true mc cpu w).2 := by
  -- A memory cycle and an acknowledge wait for their slot first; an I/O cycle waits inside.
  cases mc with
  | m1 => exact hmc.elim
  | read addr =>
    refine h.afterAlign hhalt rfl rfl fun b₁ p hp hw hq => ?_
    subst hw
    exact hp.read hq hhalt (alignMem_mod _)
  | write addr val =>
    refine h.afterAlign hhalt rfl rfl fun b₁ p hp hw hq => ?_
    subst hw
    exact hp.write hhalt (alignMem_mod _)
  | internal len =>
    obtain ⟨p, hp, rfl, -⟩ := h.peer
    obtain ⟨n, rfl⟩ : ∃ n, len = n + 1 := Nat.exists_eq_add_of_le' hmc
    exact ⟨n + 1, rfl, hp.internal hhalt n (by omega)⟩
  | ioRead port =>
    obtain ⟨p, hp, rfl, hq⟩ := h.peer
    obtain ⟨n, hn, hsat⟩ := hp.ioRead agent hq hhalt
    exact ⟨n, hn.symm, hsat⟩
  | ioWrite port val =>
    obtain ⟨p, hp, rfl, hq⟩ := h.peer
    obtain ⟨n, hn, hsat⟩ := hp.ioWrite agent hq hhalt
    exact ⟨n, hn.symm, hsat⟩
  | ioack len =>
    refine h.afterAlign hhalt rfl rfl fun b₁ p hp hw hq => ?_
    subst hw
    exact hp.ioack hhalt (alignMem_mod _) hmc

end Koncepcja.Z80
