import Koncepcja.Z80.Pin
import Mathlib.Logic.Function.Iterate

/-!
# One T-State on the Bus

Four master cycles make a T-state: the CPU advances on the first, the far side answers on the
second, and both hold their lines until the next clock enable.

## Main results

- `tState_eq`: four master cycles in lockstep with the clock, as one step.
- `At.step`, `At.hold`: what the T-state does to what the engine can see.
-/

namespace Koncepcja.Z80

variable {σ : Type} {agent : Agent σ} {inputs : Inputs}

/-! ## Lockstep -/

/-- The bus at a clock enable, with `tstates` locked to the µs grid, the interrupt inputs at their
constant levels and no bus request. -/
structure Locked (inputs : Inputs) (b : Board σ) : Prop where
  clk : b.bus.clk = { cpu := true, phase := 4 * (b.z80.cpu.tstates % 4) }
  phase : b.phase = 4 * (b.z80.cpu.tstates % 4) + 1
  wait : b.bus.cpu.wait = (b.z80.cpu.tstates % 4 != 1)
  irq : b.bus.cpu.irq = inputs.irq
  nmi : b.bus.cpu.nmi = inputs.nmi
  busrq : b.bus.cpu.busrq = false
  strobe : b.peer.strobe = b.bus.cpu.strobe

/-- Lockstep once the NMI edge detector has seen the level. -/
structure Synced (inputs : Inputs) (b : Board σ) : Prop extends Locked inputs b where
  nmiPrev : b.z80.nmiPrev = inputs.nmi

/-- What the CPU finds on its output bus before it drives anything. -/
def offered (inputs : Inputs) (p : Peer σ) : CpuBus :=
  { CpuBus.resting with data := (p.drives inputs.irqVector).getD 0xFF }

namespace Z80State

@[simp] theorem latchNmi_of_nmiPrev {z : Z80State} {nmi : Bool} (h : z.nmiPrev = nmi) :
    z.latchNmi nmi = z := by
  subst h
  cases z with
  | mk cpu mc t mcAddr held heldValid nmiPrev =>
    cases cpu with
    | mk core nmiPending haltT tstates =>
      cases nmiPrev <;> simp [latchNmi]

/-! The engine never touches the edge detector or the hold latch itself. -/

@[simp] theorem nmiPrev_firstMicro (z : Z80State) : z.firstMicro.nmiPrev = z.nmiPrev := rfl

@[simp] theorem nmiPrev_nextMicro (z : Z80State) : z.nextMicro.nmiPrev = z.nmiPrev := rfl

theorem nmiPrev_m1T1 (z : Z80State) (irq : Bool) (out : CpuBus) :
    (z.m1T1 irq out).1.nmiPrev = z.nmiPrev := by
  unfold m1T1
  dsimp only
  split
  · exact nmiPrev_firstMicro _
  · split
    · exact nmiPrev_firstMicro _
    · rfl

theorem nmiPrev_m1Rest (z : Z80State) (data : Byte) (out : CpuBus) :
    (z.m1Rest data out).1.nmiPrev = z.nmiPrev := by
  unfold m1Rest
  dsimp only
  repeat' split
  all_goals rfl

theorem nmiPrev_runCycle (z : Z80State) (inp out : CpuBus) :
    (z.runCycle inp out).1.nmiPrev = z.nmiPrev := by
  unfold runCycle
  dsimp only
  split
  · split
    · exact z.nmiPrev_m1T1 inp.irq out
    · exact z.nmiPrev_m1Rest inp.data out
  all_goals
    repeat' split
    all_goals rfl

theorem nmiPrev_runT (z : Z80State) (inp : Bus) (out : CpuBus) :
    (z.runT inp out).1.nmiPrev = z.nmiPrev := by
  unfold runT
  dsimp only
  split
  · rfl
  · rw [nmiPrev_runCycle]

theorem nmiPrev_advance (z : Z80State) (inp : Bus) (out : CpuBus) :
    (z.advance inp out).1.nmiPrev = z.nmiPrev := by
  unfold advance
  dsimp only
  split
  · rfl
  · split_ifs <;> simp [nmiPrev_runT]

theorem strobe_redrive (z : Z80State) (out : CpuBus) (h : z.heldValid = true) :
    (z.redrive out).strobe = z.held.strobe := by
  simp [redrive, h, CpuBus.strobe]

end Z80State

@[simp] theorem strobe_commitBus (phase : Nat) (out : CpuBus) :
    (commitBus inputs phase out).cpu.strobe = out.strobe := rfl

theorem Peer.tick_commitBus (p : Peer σ) (phase : Nat) (out : CpuBus) :
    p.tick agent (commitBus inputs phase out).cpu = p.tick agent out := rfl

theorem Peer.tick_of_strobe {p : Peer σ} {b : CpuBus} (h : p.strobe = b.strobe) :
    p.tick agent b = p :=
  if_pos h.symm

theorem Peer.strobe_start (p : Peer σ) (b : CpuBus) : (p.start agent b).strobe = b.strobe := by
  unfold Peer.start
  cases b.strobe <;> rfl

theorem Peer.strobe_tick (agent : Agent σ) (p : Peer σ) (b : CpuBus) : (p.tick agent b).strobe = b.strobe := by
  unfold Peer.tick
  split
  · next h => exact h.symm
  · exact p.strobe_start b

/-! ## Four master cycles -/

def Board.tState (agent : Agent σ) (inputs : Inputs) (b : Board σ) : Board σ :=
  (Board.cycle agent inputs)^[4] b

theorem cycle_enabled (agent : Agent σ) {b : Board σ} (h : Synced inputs b) :
    b.cycle agent inputs =
      { z80 :=
          { (b.z80.advance b.bus (offered inputs b.peer)).1 with
            held := (b.z80.advance b.bus (offered inputs b.peer)).2
            heldValid := true }
        peer := b.peer
        phase := 4 * (b.z80.cpu.tstates % 4) + 2
        bus := commitBus inputs (4 * (b.z80.cpu.tstates % 4) + 1)
          (b.z80.advance b.bus (offered inputs b.peer)).2 } := by
  have hpeer : b.peer.tick agent b.bus.cpu = b.peer := Peer.tick_of_strobe h.strobe
  have hz : b.z80.latchNmi b.bus.cpu.nmi = b.z80 :=
    Z80State.latchNmi_of_nmiPrev (h.nmiPrev.trans h.nmi.symm)
  have hphase : (4 * (b.z80.cpu.tstates % 4) + 1 + 1) % 16 = 4 * (b.z80.cpu.tstates % 4) + 2 := by
    omega
  simp only [Board.cycle, hpeer, z80Tick, hz, h.clk, if_true, h.phase, hphase]
  rfl

theorem cycle_held {z : Z80State} {peer : Peer σ} {p q : Nat} {out : CpuBus} (hp : p % 4 ≠ 0)
    (hprev : z.nmiPrev = inputs.nmi) :
    Board.cycle agent inputs { z80 := z, peer, phase := q, bus := commitBus inputs p out } =
      { z80 := z
        peer := peer.tick agent out
        phase := (q + 1) % 16
        bus := commitBus inputs q (z.redrive (offered inputs (peer.tick agent out))) } := by
  have hz : z.latchNmi (commitBus inputs p out).cpu.nmi = z :=
    Z80State.latchNmi_of_nmiPrev hprev
  have hclk : (commitBus inputs p out).clk.cpu = false := by
    simpa [commitBus, gaClockOut] using hp
  simp only [Board.cycle, z80Tick, hz, hclk, Peer.tick_commitBus]
  rfl

/-- Four master cycles from a clock enable. -/
theorem tState_eq {b : Board σ} (h : Synced inputs b) :
    b.tState agent inputs =
      let r := b.z80.advance b.bus (offered inputs b.peer)
      let z := { r.1 with held := r.2, heldValid := true }
      let peer := b.peer.tick agent r.2
      let phase := 4 * ((b.z80.cpu.tstates + 1) % 4)
      { z80 := z
        peer
        phase := phase + 1
        bus := commitBus inputs phase (z.redrive (offered inputs peer)) } := by
  have hprev := (b.z80.nmiPrev_advance b.bus (offered inputs b.peer)).trans h.nmiPrev
  have h1 := cycle_enabled agent h
  generalize b.z80.advance b.bus (offered inputs b.peer) = r at hprev h1
  obtain ⟨z, out⟩ := r
  have hz : { z with held := out, heldValid := true }.nmiPrev = inputs.nmi := hprev
  -- once the far side has seen the lines, further cycles show it nothing new
  have hquiet : ∀ offer, (b.peer.tick agent out).tick agent
      (Z80State.redrive { z with held := out, heldValid := true } offer)
        = b.peer.tick agent out := by
    intro offer
    apply Peer.tick_of_strobe
    rw [Peer.strobe_tick, Z80State.strobe_redrive _ _ rfl]
  simp only [Board.tState, Function.iterate_succ, Function.comp_apply, Function.iterate_zero, id]
  rw [h1, cycle_held (by omega) hz, cycle_held (by omega) hz, hquiet, cycle_held (by omega) hz,
    hquiet]
  have hbus : (4 * (b.z80.cpu.tstates % 4) + 2 + 1 + 1) % 16
      = 4 * ((b.z80.cpu.tstates + 1) % 4) := by omega
  have hphase : ((4 * (b.z80.cpu.tstates % 4) + 2 + 1) % 16 + 1) % 16
      = 4 * ((b.z80.cpu.tstates + 1) % 4) := by omega
  have hnext : (4 * ((b.z80.cpu.tstates + 1) % 4) + 1) % 16
      = 4 * ((b.z80.cpu.tstates + 1) % 4) + 1 := by omega
  simp only [hphase, hnext]

/-! ## What the engine can see -/

/-- A T-state on the clock. -/
def Cpu.tick (cpu : Cpu) : Cpu := { cpu with tstates := cpu.tstates + 1 }

@[simp] theorem Cpu.tstates_tick (cpu : Cpu) : cpu.tick.tstates = cpu.tstates + 1 := rfl

@[simp] theorem Cpu.core_tick (cpu : Cpu) : cpu.tick.core = cpu.core := rfl

@[simp] theorem Cpu.halted_tick (cpu : Cpu) : cpu.tick.halted = cpu.halted := rfl

/-- The far side with no transaction on the bus. -/
def Peer.rest (p : Peer σ) : Peer σ := { p with strobe := .idle }

theorem Peer.tick_idle (p : Peer σ) {out : CpuBus} (h : out.strobe = .idle) :
    p.tick agent out = p.rest := by
  obtain ⟨world, strobe, latch⟩ := p
  unfold Peer.tick Peer.start
  rw [h]
  split
  · next hs =>
    subst hs
    rfl
  · rfl

theorem Z80State.runT_hold {z : Z80State} {inp : Bus} (out : CpuBus) (ht : z.t = 0)
    (hgrid : z.mc.gridHeld = true) (hphase : inp.clk.phase ≠ 0) :
    z.runT inp out = ({ z with cpu := z.cpu.tick }, { out with halt := z.cpu.halted }) := by
  unfold runT
  dsimp only
  rw [if_pos ⟨by rw [ht], hgrid, hphase⟩, ← ht]
  rfl

theorem Z80State.runT_run {z : Z80State} {inp : Bus} (out : CpuBus)
    (h : z.t = 0 → z.mc.gridHeld = true → inp.clk.phase = 0) :
    z.runT inp out =
      let r := { z with cpu := z.cpu.tick, t := z.t + 1 }.runCycle inp.cpu out
      (r.1, { r.2 with halt := r.1.cpu.halted }) := by
  unfold runT
  dsimp only
  rw [if_neg]
  · rfl
  · rintro ⟨ht, hgrid, hphase⟩
    exact hphase (h (by omega) hgrid)

theorem wr_of_drives {p : Peer σ} {out : CpuBus} {v irqVector : Byte} (h : p.strobe = out.strobe)
    (hd : p.drives irqVector = some v) : out.wr = false := by
  cases hwr : out.wr with
  | false => rfl
  | true =>
    cases hm : out.mreq <;> cases hi : out.iorq <;>
      simp [Peer.drives, h, CpuBus.strobe, hwr, hm, hi] at hd

/-- The board between T-states: CPU, machine cycle, T-state within it and the far side. -/
structure At (inputs : Inputs) (b : Board σ) (cpu : Cpu) (mc : MC) (t : Nat) (peer : Peer σ) :
    Prop where
  synced : Synced inputs b
  cpu_eq : b.z80.cpu = cpu
  mc_eq : b.z80.mc = mc
  t_eq : b.z80.t = t
  peer_eq : b.peer = peer
  data_eq : t ≠ 0 → ∀ v, peer.drives inputs.irqVector = some v → b.bus.cpu.data = v

/-- What a T-state of machine cycle `mc` may rely on. -/
structure Sees (inputs : Inputs) (cpu : Cpu) (mc : MC) (t : Nat) (peer : Peer σ) (z : Z80State)
    (inp : CpuBus) : Prop where
  cpu_eq : z.cpu = cpu.tick
  mc_eq : z.mc = mc
  t_eq : z.t = t + 1
  irq_eq : inp.irq = inputs.irq
  wait_eq : inp.wait = (cpu.tstates % 4 != 1)
  data_eq : t ≠ 0 → ∀ v, peer.drives inputs.irqVector = some v → inp.data = v

namespace At

variable {b : Board σ} {cpu cpu' : Cpu} {mc mc' : MC} {t t' : Nat} {peer peer' : Peer σ}

theorem of_advance (agent : Agent σ) (h : At inputs b cpu mc t peer) {r : Z80State × CpuBus}
    (hr : b.z80.advance b.bus (offered inputs b.peer) = r)
    (hts : r.1.cpu.tstates = cpu.tstates + 1) :
    At inputs (b.tState agent inputs) r.1.cpu r.1.mc r.1.t (peer.tick agent r.2) := by
  have hprev : r.1.nmiPrev = inputs.nmi := by
    rw [← hr, Z80State.nmiPrev_advance, h.synced.nmiPrev]
  have htick : b.z80.cpu.tstates + 1 = r.1.cpu.tstates := by rw [h.cpu_eq, hts]
  have hstrobe := Peer.strobe_tick agent peer r.2
  rw [tState_eq h.synced, hr, htick, h.peer_eq]
  refine ⟨⟨⟨?_, rfl, ?_, rfl, rfl, rfl, ?_⟩, hprev⟩, rfl, rfl, rfl, rfl, ?_⟩
  · simp [commitBus, gaClockOut]
  · simp [commitBus, gaClockOut]
  · rw [hstrobe, strobe_commitBus, Z80State.strobe_redrive _ _ rfl]
  · intro _ v hv
    simp [commitBus, gaClockOut, Z80State.redrive, wr_of_drives hstrobe hv, offered, hv]

theorem advance_eq (h : At inputs b cpu mc t peer) (hhalt : cpu.halted = false) (out : CpuBus) :
    b.z80.advance b.bus out = b.z80.runT b.bus out := by
  simp [Z80State.advance, h.cpu_eq, hhalt, h.synced.busrq]

theorem phase_eq (h : At inputs b cpu mc t peer) : b.bus.clk.phase = 4 * (cpu.tstates % 4) := by
  rw [h.synced.clk, h.cpu_eq]

theorem hold (agent : Agent σ) (h : At inputs b cpu mc 0 peer) (hhalt : cpu.halted = false)
    (hgrid : mc.gridHeld = true) (hslot : cpu.tstates % 4 ≠ 0) :
    At inputs (b.tState agent inputs) cpu.tick mc 0 peer.rest := by
  have hr := (h.advance_eq hhalt (offered inputs b.peer)).trans <|
    Z80State.runT_hold _ h.t_eq (by rwa [h.mc_eq]) (by rw [h.phase_eq]; omega)
  have hnext := h.of_advance agent hr (by simp [h.cpu_eq])
  rwa [Peer.tick_idle _ rfl, h.cpu_eq, h.mc_eq, h.t_eq] at hnext

theorem step (agent : Agent σ) (cpu' : Cpu) (mc' : MC) (t' : Nat) (peer' : Peer σ)
    (h : At inputs b cpu mc t peer) (hhalt : cpu.halted = false)
    (hgrid : t = 0 → mc.gridHeld = true → cpu.tstates % 4 = 0)
    (hr : ∀ z inp, Sees inputs cpu mc t peer z inp →
      (z.runCycle inp (offered inputs peer)).1.cpu = cpu' ∧
      (z.runCycle inp (offered inputs peer)).1.mc = mc' ∧
      (z.runCycle inp (offered inputs peer)).1.t = t' ∧
      peer.tick agent (z.runCycle inp (offered inputs peer)).2 = peer')
    (hts : cpu'.tstates = cpu.tstates + 1) :
    At inputs (b.tState agent inputs) cpu' mc' t' peer' := by
  -- What the processor sees on the bus is what the batch tier would have given it.
  have hsees : Sees inputs cpu mc t peer
      { b.z80 with cpu := b.z80.cpu.tick, t := b.z80.t + 1 } b.bus.cpu :=
    { cpu_eq := by rw [h.cpu_eq]
      mc_eq := h.mc_eq
      t_eq := by rw [h.t_eq]
      irq_eq := h.synced.irq
      wait_eq := by rw [h.synced.wait, h.cpu_eq]
      data_eq := h.data_eq }
  obtain rfl := h.peer_eq
  have hadv := (h.advance_eq hhalt (offered inputs b.peer)).trans <|
    Z80State.runT_run _ fun h0 hg => by
      rw [h.phase_eq, hgrid (by rw [← h.t_eq, h0]) (by rw [← h.mc_eq, hg])]
  have hcycle := hr _ _ hsees
  generalize Z80State.runCycle _ b.bus.cpu (offered inputs b.peer) = r at hadv hcycle
  obtain ⟨rfl, rfl, rfl, rfl⟩ := hcycle
  have hnext := h.of_advance agent hadv hts
  exact hnext

end At

end Koncepcja.Z80
