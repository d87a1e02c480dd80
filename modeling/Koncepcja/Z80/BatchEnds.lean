import Koncepcja.Z80.Batch
import Mathlib.Logic.Basic
import Mathlib.Logic.Function.Basic

/-!
# When a Batch Step Returns

`src/hw/z80.cpp`, `z80_batch_step`: DD and FD prefixes are fetched in one loop, which only a byte other than these ends.
The step machine ends by itself.

## Main results

- `runToFinish_accesses`: the step machine makes at most six accesses.
- `fetchChain_none`: a memory of prefixes keeps the fetch going for good.
- `endsBounded_iff`: a step returns after a bounded number of accesses, except in such a memory.
-/

namespace Koncepcja.Z80

section Steps

variable {σ : Type} {agent : Agent σ} {irqVector : Byte} {grid irq : Bool} {fuel : Nat} {cpu : Cpu} {w : World σ}

/-! ## The step machine -/

theorem satisfy_accesses (m : MC) (cpu : Cpu) (w : World σ) :
    (satisfy agent irqVector grid m cpu w).2.accesses.length ≤ w.accesses.length + 1 := by
  cases m with
  | read addr => exact Nat.le_refl _
  | write addr val => exact Nat.le_refl _
  | ioRead port => exact Nat.le_refl _
  | ioWrite port val => exact Nat.le_refl _
  | internal len => exact Nat.le_succ _
  | ioack len => exact Nat.le_succ _
  | m1 => exact Nat.le_succ _

/-- What is left of the six machine cycles bounds the accesses. -/
theorem runToFinish_accesses {r : Cpu × World σ} (hstep : cpu.core.seq.step ≤ 6)
    (h : runToFinish agent irqVector grid fuel cpu w = some r) :
    r.2.accesses.length + cpu.core.seq.step ≤ w.accesses.length + 6 := by
  induction fuel generalizing cpu w with
  | zero => cases h
  | succ fuel ih =>
    rw [runToFinish] at h
    dsimp only at h
    rcases cpu.core.runMicro_spec with ⟨hm, -⟩ | ⟨hseq, hvalid, hlt⟩
    · rw [if_pos hm] at h
      cases h
      exact Nat.add_le_add_left hstep _
    · have hm : cpu.core.runMicro.2 ≠ .m1 := fun hm => by
        rw [hm] at hvalid
        exact hvalid
      rw [if_neg hm] at h
      have hone := @satisfy_accesses _ agent irqVector grid cpu.core.runMicro.2 { cpu with core := cpu.core.runMicro.1 } w
      have hnext : (satisfy agent irqVector grid cpu.core.runMicro.2
          { cpu with core := cpu.core.runMicro.1 } w).1.bumpStep.core.seq.step = cpu.core.seq.step + 1 := by
        simp only [Cpu.bumpStep, satisfy_seq, hseq]
      have hrest := ih (by rw [hnext]; omega) h
      rw [hnext] at hrest
      omega

/-! ## The fetch -/

theorem fetchChain_accesses {r : Cpu × World σ} (h : fetchChain agent grid fuel cpu w = some r) :
    r.2.accesses.length ≤ w.accesses.length + fuel := by
  induction fuel generalizing cpu w with
  | zero => cases h
  | succ fuel ih =>
    rw [fetchChain] at h
    dsimp only at h
    have hone : (fetchM1 agent grid cpu w).2.accesses.length = w.accesses.length + 1 := rfl
    cases hc : chainPrefix (fetchM1 agent grid cpu w).1.core with
    | none =>
      rw [hc] at h
      cases h
      omega
    | some c =>
      rw [hc] at h
      have hrest := ih h
      omega

theorem fetchChain_mono {r : Cpu × World σ} {n : Nat} (h : fetchChain agent grid n cpu w = some r) (hn : n ≤ fuel) :
    fetchChain agent grid fuel cpu w = some r := by
  induction n generalizing cpu w fuel with
  | zero => cases h
  | succ n ih =>
    obtain ⟨fuel, rfl⟩ := Nat.exists_eq_add_of_le' (show 1 ≤ fuel by omega)
    rw [fetchChain] at h ⊢
    dsimp only at h ⊢
    cases hc : chainPrefix (fetchM1 agent grid cpu w).1.core with
    | none =>
      rw [hc] at h
      exact h
    | some c =>
      rw [hc] at h
      exact ih h (by omega)

/-- Nothing but DD and FD, wherever the fetch comes to. -/
def OnlyPrefixes (agent : Agent σ) (state : σ) : Prop := ∀ addr, agent.memRead state addr = 0xDD ∨ agent.memRead state addr = 0xFD

/-- A memory of prefixes keeps the fetch going. -/
theorem fetchChain_none (hprefixes : OnlyPrefixes agent w.state) (hcpu : cpu.core.seq.prefixByte = 0) :
    fetchChain agent grid fuel cpu w = none := by
  induction fuel generalizing cpu w with
  | zero => rfl
  | succ fuel ih =>
    have hchain : chainPrefix (fetchM1 agent grid cpu w).1.core =
        some { (fetchM1 agent grid cpu w).1.core with
          seq := { (fetchM1 agent grid cpu w).1.core.seq with
            index := prefixIndex (agent.memRead w.state cpu.core.pc) } } :=
      if_pos ⟨hcpu, hprefixes cpu.core.pc⟩
    rw [fetchChain]
    dsimp only
    rw [hchain]
    exact ih hprefixes hcpu

theorem fetchChain_ends (hends : cpu.core.seq.prefixByte ≠ 0 ∨ ¬ OnlyPrefixes agent w.state) :
    ∃ n r, n ≤ 0x10001 ∧ fetchChain agent grid n cpu w = some r := by
  rcases hends with hcpu | hother
  · refine ⟨1, fetchM1 agent grid cpu w, by omega, ?_⟩
    have hlast : chainPrefix (fetchM1 agent grid cpu w).1.core = none := chainPrefix_of_prefixByte hcpu
    rw [fetchChain]
    dsimp only
    rw [hlast]
  · obtain ⟨addr, haddr⟩ := not_forall.mp hother
    have hlt := (addr - cpu.core.pc).isLt
    have hwhere : cpu.core.pc + BitVec.ofNat 16 (addr - cpu.core.pc).toNat = addr := by
      rw [BitVec.ofNat_toNat, BitVec.setWidth_eq, BitVec.add_comm, BitVec.sub_add_cancel]
    have hsome := fetchChain_isSome agent grid (addr - cpu.core.pc).toNat ((addr - cpu.core.pc).toNat + 2) cpu w
      (by rw [hwhere]; exact not_or.mp haddr) (Nat.le_refl _)
    obtain ⟨r, hr⟩ := Option.isSome_iff_exists.mp hsome
    exact ⟨_, r, by omega, hr⟩

/-! ## The step -/

/-- A chain all the way round the address space, the byte behind an ED or CB, and six machine cycles. -/
def kMaxAccesses : Nat := 0x10000 + 7

/-- The step returns, and has made a bounded number of accesses. -/
def EndsBounded (agent : Agent σ) (irqVector : Byte) (grid irq : Bool) (cpu : Cpu) (w : World σ) : Prop :=
  ∃ fuel r, z80BatchStep agent irqVector grid fuel irq cpu w = some r ∧
    r.2.1.accesses.length ≤ w.accesses.length + kMaxAccesses

/-- The step does not come to a fetch: the CPU sleeps, or accepts an interrupt. -/
def Unfetched (irq : Bool) (cpu : Cpu) : Prop := cpu.halted = true ∨ cpu.intReady irq = true

theorem runToFinish_ends (hfuel : 7 ≤ fuel) (cpu : Cpu) (w : World σ) :
    ∃ r, runToFinish agent irqVector grid fuel cpu.clearStep w = some r ∧
      r.2.accesses.length ≤ w.accesses.length + 6 := by
  have hsome := @runToFinish_isSome _ agent irqVector grid fuel cpu.clearStep w (Nat.zero_le 6) hfuel
  obtain ⟨r, hr⟩ := Option.isSome_iff_exists.mp hsome
  exact ⟨r, hr, runToFinish_accesses (Nat.zero_le 6) hr⟩

theorem endsBounded_of_unfetched (h : Unfetched irq cpu) : EndsBounded agent irqVector grid irq cpu w := by
  by_cases hwait : cpu.waiting irq = true
  · refine ⟨0, (cpu, w, 0), ?_, Nat.le_add_right _ _⟩
    rw [z80BatchStep, if_pos hwait]
  · have hready : cpu.intReady irq = true := by
      rcases h with h | h
      · rw [Cpu.waiting, h] at hwait
        simpa using hwait
      · exact h
    have haccept : (cpu.roused.beginM1.nmiPending ||
        (cpu.roused.beginM1.core.iff1 && irq && !cpu.roused.core.eiDelay)) = true := by
      rw [Cpu.intReady] at hready
      unfold Cpu.roused
      split <;> exact hready
    refine ⟨7, ?_⟩
    rw [z80BatchStep, if_neg hwait]
    dsimp only
    rw [if_pos haccept]
    obtain ⟨r, hr, hlen⟩ := runToFinish_ends (Nat.le_refl 7)
      (if (cpu.roused.beginM1.refreshed.atTime (alignMem grid cpu.roused.beginM1.tstates + 1)).nmiPending then
        (cpu.roused.beginM1.refreshed.atTime (alignMem grid cpu.roused.beginM1.tstates + 1)).acceptNmi
      else (cpu.roused.beginM1.refreshed.atTime (alignMem grid cpu.roused.beginM1.tstates + 1)).acceptInt) w
    refine ⟨_, by rw [hr]; rfl, Nat.le_trans hlen ?_⟩
    exact Nat.add_le_add_left (by decide) _

theorem z80BatchStep_fetched (h : ¬ Unfetched irq cpu) :
    z80BatchStep agent irqVector grid fuel irq cpu w =
      ((fetchChain agent grid fuel cpu.beginM1 w).bind fun fetched =>
        runToFinish agent irqVector grid fuel fetched.1.clearStep fetched.2).map
          fun done => (done.1, done.2, done.1.tstates - cpu.tstates) := by
  obtain ⟨hhalted, hready⟩ := not_or.mp h
  have hrun : cpu.roused = cpu := if_neg hhalted
  have hwait : ¬ cpu.waiting irq = true := by simp [Cpu.waiting, hhalted]
  rw [z80BatchStep, if_neg hwait, hrun]
  dsimp only
  rw [if_neg]
  exact hready

theorem not_endsBounded (hfetch : ¬ Unfetched irq cpu) (hcpu : cpu.core.seq.prefixByte = 0)
    (hprefixes : OnlyPrefixes agent w.state) : ¬ EndsBounded agent irqVector grid irq cpu w := by
  rintro ⟨fuel, r, hr, -⟩
  rw [z80BatchStep_fetched hfetch, @fetchChain_none _ agent grid fuel cpu.beginM1 w hprefixes hcpu] at hr
  cases hr

theorem endsBounded_of_fetched (hfetch : ¬ Unfetched irq cpu)
    (hends : cpu.core.seq.prefixByte ≠ 0 ∨ ¬ OnlyPrefixes agent w.state) :
    EndsBounded agent irqVector grid irq cpu w := by
  obtain ⟨n, fetched, hn, hfetched⟩ := @fetchChain_ends _ agent grid cpu.beginM1 w hends
  have hlen := fetchChain_accesses hfetched
  obtain ⟨r, hr, hlen'⟩ := @runToFinish_ends _ agent irqVector grid (n + 7) (by omega) fetched.1 fetched.2
  refine ⟨n + 7, (r.1, r.2, r.1.tstates - cpu.tstates), ?_, ?_⟩
  · rw [z80BatchStep_fetched hfetch, fetchChain_mono hfetched (by omega), Option.bind_some, hr]
    rfl
  · dsimp only [kMaxAccesses]
    omega

/-- **A step returns after a bounded number of accesses** unless it fetches from a memory of prefixes. -/
theorem endsBounded_iff (agent : Agent σ) (irqVector : Byte) (grid irq : Bool) (cpu : Cpu) (w : World σ) :
    EndsBounded agent irqVector grid irq cpu w ↔
      Unfetched irq cpu ∨ cpu.core.seq.prefixByte ≠ 0 ∨ ¬ OnlyPrefixes agent w.state := by
  by_cases hfetch : Unfetched irq cpu
  · exact iff_of_true (endsBounded_of_unfetched hfetch) (.inl hfetch)
  rw [or_iff_right hfetch]
  constructor
  · intro hbounded
    by_cases hcpu : cpu.core.seq.prefixByte = 0
    · exact .inr fun hprefixes => not_endsBounded hfetch hcpu hprefixes hbounded
    · exact .inl hcpu
  · exact endsBounded_of_fetched hfetch

end Steps

/-! ## A memory of prefixes -/

/-- 64 KB of memory, and nothing on the I/O bus. -/
def flatMemory : Agent (Word → Byte) where
  memRead mem addr := mem addr
  memWrite mem addr val := Function.update mem addr val
  ioRead mem _ := (0xFF, mem)
  ioWrite mem _ _ := mem

def resetCpu : Cpu where
  core :=
    { af := 0xFFFF, bc := 0, de := 0, hl := 0, af2 := 0, bc2 := 0, de2 := 0, hl2 := 0, ix := 0, iy := 0, sp := 0xFFFF
      pc := 0, wz := 0, i := 0, r := 0, iff1 := false, iff2 := false, im := .im0, q := 0, qq := 0, eiDelay := false
      intVec := 0, memAddr := 0, tmp := 0, tmpl := 0, unimplemented := false
      seq :=
        { step := 0, prefixByte := 0, index := .hl, opcode := 0, servicing := .none, halted := false, instrCount := 0 } }
  nmiPending := false
  haltT := 0
  tstates := 0

/-- With DD in all of the memory a step from reset does not return. -/
theorem prefixMemory_hangs :
    ¬ EndsBounded flatMemory 0xFF true false resetCpu { state := fun _ => 0xDD, accesses := [] } := by
  apply not_endsBounded
  · rintro (hhalted | hready)
    · exact absurd hhalted (by decide)
    · exact absurd hready (by decide)
  · rfl
  · exact fun _ => .inl rfl

end Koncepcja.Z80
