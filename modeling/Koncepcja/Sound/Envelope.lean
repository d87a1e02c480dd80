import Koncepcja.Sound.QuietSkip
import Mathlib.Data.Bool.Basic

/-!
# The Shape of the Envelope

`env_clock` of `src/hw/psg.cpp` moves a level, a step and two flags on at each envelope clock. After `n` clocks the
level has a closed form, in the segment `n / 32` of the shape and the position `n % 32` within it; and the clocks that
`k` sound steps contain follow from the period and the phase of the prescaler.

## Main results

- `Psg.envClock_atClock`: one clock keeps to the closed form.
- `Psg.steps_atClock`: so does every sound step.
- `Psg.steps_envLevel`: the level any number of steps after the shape is written.
-/

namespace Koncepcja.Sound

open Koncepcja.Bytes

namespace Psg

variable {p q : Psg} {shape : UInt8} {n : Nat}

/-! ## The closed form -/

def continues (shape : UInt8) : Bool := shape &&& 0x08 != 0

def attacks (shape : UInt8) : Bool := shape &&& 0x04 != 0

def alternates (shape : UInt8) : Bool := shape &&& 0x02 != 0

def holds (shape : UInt8) : Bool := shape &&& 0x01 != 0

/-- A sawtooth or a triangle: one segment follows another for good. -/
def repeats (shape : UInt8) : Bool := continues shape && !holds shape

/-- A segment ramps up. -/
def segmentAttack (shape : UInt8) (seg : Nat) : Bool := attacks shape ^^ (alternates shape && seg % 2 == 1)

/-- The level in a segment, at a position of it. -/
def envelopeLevel (shape : UInt8) (seg pos : Nat) : Nat :=
  if seg = 0 ∨ repeats shape then if segmentAttack shape seg then pos else 31 - pos
  else if continues shape && (attacks shape ^^ alternates shape) then 31 else 0

/-- The shape has come to its end by the clock `n`. -/
def ended (shape : UInt8) (n : Nat) : Bool := decide (32 ≤ n) && !repeats shape

theorem segmentAttack_zero (shape : UInt8) : segmentAttack shape 0 = attacks shape := by
  rw [segmentAttack, Nat.zero_mod]
  exact (congrArg _ (Bool.and_false _)).trans (Bool.xor_false _)

theorem segmentAttack_succ (shape : UInt8) (seg : Nat) :
    segmentAttack shape (seg + 1) = (segmentAttack shape seg ^^ alternates shape) := by
  rcases Nat.mod_two_eq_zero_or_one seg with hseg | hseg
  · rw [segmentAttack, segmentAttack, hseg, show (seg + 1) % 2 = 1 by omega]
    cases attacks shape <;> cases alternates shape <;> rfl
  · rw [segmentAttack, segmentAttack, hseg, show (seg + 1) % 2 = 0 by omega]
    cases attacks shape <;> cases alternates shape <;> rfl

theorem envelopeLevel_running (h : ended shape n = false) :
    envelopeLevel shape (n / 32) (n % 32) = if segmentAttack shape (n / 32) then n % 32 else 31 - n % 32 := by
  rw [envelopeLevel, if_pos]
  cases hrepeats : repeats shape with
  | true => exact .inr rfl
  | false =>
    rw [ended, hrepeats, Bool.not_false, Bool.and_true, decide_eq_false_iff_not] at h
    exact .inl (by omega)

theorem envelopeLevel_ended (h : ended shape n = true) :
    envelopeLevel shape (n / 32) (n % 32) = if continues shape && (attacks shape ^^ alternates shape) then 31 else 0 := by
  rw [ended, Bool.and_eq_true, decide_eq_true_eq, Bool.not_eq_true'] at h
  rw [envelopeLevel, if_neg]
  rintro (hseg | hrepeats)
  · omega
  · rw [h.2] at hrepeats
    cases hrepeats

/-! ## One clock -/

/-- The envelope is where `n` clocks from a restart bring it. -/
structure AtClock (shape : UInt8) (n : Nat) (p : Psg) : Prop where
  register : p.r 13 = shape
  holding : p.envHolding = ended shape n
  step : p.envHolding = false → p.envStep.toNat = n % 32
  attack : p.envHolding = false → p.envAttackSeg = segmentAttack shape (n / 32)
  level : p.envLevel.toNat = envelopeLevel shape (n / 32) (n % 32)

theorem AtClock.copy (h : AtClock shape n p) (hreg : q.reg = p.reg) (hholding : q.envHolding = p.envHolding)
    (hstep : q.envStep = p.envStep) (hattack : q.envAttackSeg = p.envAttackSeg) (hlevel : q.envLevel = p.envLevel) :
    AtClock shape n q where
  register := by rw [r, hreg]; exact h.register
  holding := hholding.trans h.holding
  step hrun := by rw [hstep]; exact h.step (hholding ▸ hrun)
  attack hrun := by rw [hattack]; exact h.attack (hholding ▸ hrun)
  level := by rw [hlevel]; exact h.level

theorem envRestart_atClock (p : Psg) : AtClock (p.r 13) 0 p.envRestart where
  register := rfl
  holding := rfl
  step _ := rfl
  attack _ := (segmentAttack_zero _).symm
  level := by
    rw [envelopeLevel_running rfl, segmentAttack_zero, envRestart, attacks]
    dsimp only
    split <;> rfl

theorem ended_eq_false (h : ended shape n = false) : n < 32 ∨ repeats shape = true := by
  rw [ended, Bool.and_eq_false_iff, decide_eq_false_iff_not, Bool.not_eq_false'] at h
  exact h.imp_left Nat.lt_of_not_le

theorem ended_succ (h : ended shape n = true) : ended shape (n + 1) = true := by
  rw [ended, Bool.and_eq_true, decide_eq_true_eq] at h ⊢
  exact ⟨Nat.le_succ_of_le h.1, h.2⟩

theorem envClock_of_holding (h : AtClock shape n p) (hhold : p.envHolding = true) : AtClock shape (n + 1) p.envClock := by
  have hended : ended shape n = true := h.holding.symm.trans hhold
  have hnext := ended_succ hended
  have heq : p.envClock = { p with envDirection := 0 } := if_pos hhold
  rw [heq]
  exact
    { register := h.register
      holding := hhold.trans hnext.symm
      step := fun hrun => absurd (hhold.symm.trans hrun) Bool.noConfusion
      attack := fun hrun => absurd (hhold.symm.trans hrun) Bool.noConfusion
      level := by rw [envelopeLevel_ended hnext, ← envelopeLevel_ended hended]; exact h.level }

theorem envClock_of_within (h : AtClock shape n p) (hrun : p.envHolding = false) (hstep : n % 32 < 31) :
    AtClock shape (n + 1) p.envClock := by
  -- Within a segment only the position moves.
  have hseg : (n + 1) / 32 = n / 32 := by omega
  have hpos : (n + 1) % 32 = n % 32 + 1 := by omega
  have hended : ended shape (n + 1) = false := by
    have hnow := h.holding.symm.trans hrun
    rw [ended, Bool.and_eq_false_iff, decide_eq_false_iff_not] at hnow ⊢
    exact hnow.imp_left fun hlt => by omega
  have hcount : (p.envStep + 1).toNat = n % 32 + 1 := by
    rw [UInt8.toNat_add, h.step hrun]
    exact Nat.mod_eq_of_lt (show n % 32 + 1 < 256 by omega)
  have hlt : p.envStep < 31 := by
    rw [UInt8.lt_iff_toNat_lt, h.step hrun]
    exact hstep
  have heq : p.envClock = { p with
      envStep := p.envStep + 1
      envLevel := if p.envAttackSeg then p.envStep + 1 else 31 - (p.envStep + 1)
      envDirection := direction p.envAttackSeg } := by
    rw [envClock, hrun]
    exact if_pos hlt
  rw [heq]
  exact
    { register := h.register
      holding := hrun.trans hended.symm
      step := fun _ => hcount.trans hpos.symm
      attack := fun _ => by rw [hseg]; exact h.attack hrun
      level := by
        rw [envelopeLevel_running hended, hseg, hpos, ← h.attack hrun]
        dsimp only
        split
        · exact hcount
        · have hle : p.envStep + 1 ≤ 31 := by
            rw [UInt8.le_iff_toNat_le, hcount]
            exact Nat.succ_le_of_lt hstep
          rw [UInt8.toNat_sub_of_le _ _ hle, hcount]
          rfl }

theorem envClock_of_end (h : AtClock shape n p) (hrun : p.envHolding = false) (hstep : n % 32 = 31) :
    AtClock shape (n + 1) p.envClock := by
  have hseg : (n + 1) / 32 = n / 32 + 1 := by omega
  have hpos : (n + 1) % 32 = 0 := by omega
  have hlast : ¬ p.envStep < 31 := by
    rw [UInt8.lt_iff_toNat_lt, h.step hrun, hstep]
    exact Nat.lt_irrefl 31
  -- a shape that does not repeat is at the end of its only segment
  have hfirst : repeats shape = false → ended shape (n + 1) = true ∧ p.envAttackSeg = attacks shape := by
    intro hrepeats
    rcases ended_eq_false (h.holding.symm.trans hrun) with hn | hn
    · refine ⟨?_, ?_⟩
      · rw [ended, hrepeats, decide_eq_true (show 32 ≤ n + 1 by omega)]
        rfl
      · rw [h.attack hrun, show n / 32 = 0 by omega, segmentAttack_zero]
    · exact absurd (hrepeats.symm.trans hn) Bool.noConfusion
  rw [envClock, hrun, if_neg Bool.false_ne_true, if_neg hlast]
  dsimp only
  rw [h.register]
  by_cases hcontinue : shape &&& 0x08 = 0
  · have hcont : continues shape = false := by rw [continues, hcontinue]; rfl
    obtain ⟨hended, -⟩ := hfirst (by rw [repeats, hcont]; rfl)
    rw [if_pos hcontinue]
    exact
      { register := h.register
        holding := hended.symm
        step := fun hno => absurd hno Bool.noConfusion
        attack := fun hno => absurd hno Bool.noConfusion
        level := by rw [envelopeLevel_ended hended, hcont]; rfl }
  · have hcont : continues shape = true := bne_iff_ne.mpr hcontinue
    rw [if_neg hcontinue]
    by_cases hhold : shape &&& 0x01 ≠ 0
    · have hholds : holds shape = true := bne_iff_ne.mpr hhold
      obtain ⟨hended, hattack⟩ := hfirst (by rw [repeats, hcont, hholds]; rfl)
      rw [if_pos hhold]
      exact
        { register := h.register
          holding := hended.symm
          step := fun hno => absurd hno Bool.noConfusion
          attack := fun hno => absurd hno Bool.noConfusion
          level := by
            rw [envelopeLevel_ended hended, hcont, hattack]
            by_cases halternate : shape &&& 0x02 ≠ 0
            · rw [if_pos halternate, show alternates shape = true from bne_iff_ne.mpr halternate]
              cases attacks shape <;> rfl
            · rw [if_neg halternate, show alternates shape = false from bne_eq_false_iff_eq.mpr (not_not.mp halternate)]
              cases attacks shape <;> rfl }
    · have hholds : holds shape = false := bne_eq_false_iff_eq.mpr (not_not.mp hhold)
      have hended : ended shape (n + 1) = false := by
        rw [ended, repeats, hcont, hholds]
        exact Bool.and_false _
      rw [if_neg hhold]
      have hattack : (if shape &&& 0x02 ≠ 0 then !p.envAttackSeg else p.envAttackSeg) = segmentAttack shape (n / 32 + 1) := by
        rw [segmentAttack_succ, ← h.attack hrun]
        by_cases halternate : shape &&& 0x02 ≠ 0
        · rw [if_pos halternate, show alternates shape = true from bne_iff_ne.mpr halternate, Bool.xor_true]
        · rw [if_neg halternate, show alternates shape = false from bne_eq_false_iff_eq.mpr (not_not.mp halternate),
            Bool.xor_false]
      rw [hattack]
      exact
        { register := h.register
          holding := hended.symm
          step := fun _ => hpos.symm
          attack := fun _ => by rw [hseg]
          level := by
            rw [envelopeLevel_running hended, hseg, hpos]
            cases segmentAttack shape (n / 32 + 1) <;> rfl }

/-- **One clock** brings the envelope from one clock of the closed form to the next. -/
theorem envClock_atClock (h : AtClock shape n p) : AtClock shape (n + 1) p.envClock := by
  cases hhold : p.envHolding with
  | true => exact envClock_of_holding h hhold
  | false =>
    rcases Nat.lt_or_ge (n % 32) 31 with hstep | hstep
    · exact envClock_of_within h hhold hstep
    · exact envClock_of_end h hhold (by omega)

/-! ## The steps -/

theorem envelopeStep_atClock (hdiv : p.envDiv.toNat < 256) (hcnt : p.envCnt.toNat < 65535) (h : AtClock shape n p) :
    AtClock shape (n + (p.env.tick 256 p.envPeriod.toNat).2.toNat) p.envelopeStep := by
  have hwrap : p.envDiv.toNat + 1 < 65536 := by omega
  have hlt : p.envDiv + 1 < 256 ↔ p.envDiv.toNat + 1 < 256 := @succ_lt_iff _ 256 hwrap
  have hwrap' : p.envCnt.toNat + 1 < 65536 := by omega
  rw [envelopeStep, Prescaled.tick, env]
  by_cases hphase : p.envDiv.toNat + 1 < 256
  · rw [if_pos (hlt.mpr hphase), if_pos hphase]
    exact h.copy rfl rfl rfl rfl rfl
  · rw [if_neg (mt hlt.mp hphase), if_neg hphase]
    by_cases hlast : p.envCnt.toNat + 1 < p.envPeriod.toNat
    · rw [if_pos ((succ_lt_iff hwrap').mpr hlast), if_pos hlast]
      exact h.copy rfl rfl rfl rfl rfl
    · rw [if_neg (mt (succ_lt_iff hwrap').mp hlast), if_neg hlast]
      exact envClock_atClock (h.copy rfl rfl rfl rfl rfl)

theorem soundStep_atClock (hvalid : p.Valid) (h : AtClock shape n p) :
    AtClock shape (n + (p.env.tick 256 p.envPeriod.toNat).2.toNat) p.soundStep := by
  obtain ⟨div, cnt, out, heq, -, -⟩ := toneStep_eq hvalid.toneDiv hvalid.toneCnt
  rw [soundStep, heq]
  let q : Psg := { p with toneDiv := div, toneCnt := cnt, toneOut := out }
  obtain ⟨ndiv, ncnt, lfsr, nout, heq', -, -⟩ := @noiseStep_eq q hvalid.noiseDiv hvalid.noiseCnt
  rw [heq']
  let q' : Psg := { q with noiseDiv := ndiv, noiseCnt := ncnt, noiseLfsr := lfsr, noiseOut := nout }
  have hq' : AtClock shape n q' := h.copy rfl rfl rfl rfl rfl
  exact (@envelopeStep_atClock q' _ _ hvalid.envDiv hvalid.envCnt hq').copy rfl rfl rfl rfl rfl

theorem soundStep_reg (hvalid : p.Valid) : p.soundStep.reg = p.reg := by
  obtain ⟨div, cnt, out, heq, -, -⟩ := toneStep_eq hvalid.toneDiv hvalid.toneCnt
  rw [soundStep, heq]
  let q : Psg := { p with toneDiv := div, toneCnt := cnt, toneOut := out }
  obtain ⟨ndiv, ncnt, lfsr, nout, heq', -, -⟩ := @noiseStep_eq q hvalid.noiseDiv hvalid.noiseCnt
  rw [heq']
  let q' : Psg := { q with noiseDiv := ndiv, noiseCnt := ncnt, noiseLfsr := lfsr, noiseOut := nout }
  obtain ⟨ediv, ecnt, step, level, attack, holding, dir, heq'', -, -⟩ := @envelopeStep_eq q' hvalid.envDiv hvalid.envCnt
  rw [heq'']
  rfl

theorem soundStep_envPeriod (hvalid : p.Valid) : p.soundStep.envPeriod = p.envPeriod := by
  rw [envPeriod, envPeriod, r, r, soundStep_reg hvalid]
  rfl

/-- **Any number of sound steps** brings the envelope on by the clocks they contain. -/
theorem steps_atClock (hvalid : p.Valid) (h : AtClock shape n p) (k : Nat) :
    AtClock shape (n + Prescaled.expiries 256 p.envPeriod.toNat k p.env) (steps k p) := by
  induction k generalizing p n with
  | zero => exact h
  | succ k ih =>
    have hrest := ih (soundStep_valid hvalid) (soundStep_atClock hvalid h)
    rw [soundStep_envPeriod hvalid, (soundStep_clock hvalid).2.2] at hrest
    rw [steps, Prescaled.expiries, Nat.add_comm (Prescaled.expiries _ _ _ _), ← Nat.add_assoc]
    exact hrest

/-! ## The write of a shape -/

/-- What the period registers hold. -/
def envPeriodReg (p : Psg) : Nat := (p.r 11).toNat + 256 * (p.r 12).toNat

theorem envPeriod_eq (p : Psg) : p.envPeriod.toNat = max p.envPeriodReg 1 := by
  have hlo := (p.r 11).toNat_lt
  have hhi := (p.r 12).toNat_lt
  have hpair : ((p.r 11).toUInt16 ||| (p.r 12).toUInt16 <<< (8 : UInt16)).toNat = p.envPeriodReg := by
    rw [UInt16.toNat_or, UInt16.toNat_shiftLeft, UInt8.toNat_toUInt16, UInt8.toNat_toUInt16, Nat.or_comm,
      Nat.mod_eq_of_lt (show (p.r 12).toNat <<< ((8 : UInt16).toNat % 16) < 2 ^ 16 by
        rw [show (8 : UInt16).toNat % 16 = 8 from rfl, Nat.shiftLeft_eq]; omega),
      show (8 : UInt16).toNat % 16 = 8 from rfl, Nat.shiftLeft_eq, Nat.mul_comm,
      ← Nat.two_pow_add_eq_or_of_lt hlo, envPeriodReg, Nat.add_comm]
  rw [envPeriod, orOne]
  split
  · rename_i hne
    have hpos : 0 < p.envPeriodReg := by
      rw [← hpair]
      exact Nat.pos_of_ne_zero fun h0 => hne (UInt16.toNat_inj.mp h0)
    rw [hpair, Nat.max_eq_left hpos]
  · rename_i heq
    rw [not_not.mp heq] at hpair
    rw [← hpair]
    rfl

/-- The envelope clocks that `k` sound steps contain: one for each period, after the one the phase is on the way to. -/
def envClocks (p : Psg) (k : Nat) : Nat :=
  if k < p.envEvent then 0 else 1 + (k - p.envEvent) / (256 * max p.envPeriodReg 1)

theorem expiries_envClocks (hvalid : p.Valid) (k : Nat) :
    Prescaled.expiries 256 p.envPeriod.toNat k p.env = p.envClocks k := by
  rw [Prescaled.expiries_eq hvalid.envDiv (show 0 < p.envPeriod.toNat from orOne_pos _), envClocks, ← envPeriod_eq]
  rfl

theorem ayApply_reg_length (p : Psg) (bdir bc1 : Bool) (da : UInt8) : (p.ayApply bdir bc1 da).reg.length = p.reg.length := by
  rw [ayApply]
  split
  · rfl
  · split
    · dsimp only
      split <;> exact List.length_set
    · rfl

theorem fastRead_reg (p : Psg) (kbdRow rowExt : UInt8) : (p.fastRead kbdRow rowExt).2.reg = p.reg := by
  rw [fastRead]
  dsimp only
  split <;> rfl

theorem ayBus_reg_length (p : Psg) (bus : BusIn) : (p.ayBus bus).1.reg.length = p.reg.length := by
  have hedge : ∀ (c : Prop) [Decidable c],
      (if c then p.ayApply bus.bdir bus.bc1 bus.da else p).reg.length = p.reg.length := by
    intro c _
    split
    · exact ayApply_reg_length p _ _ _
    · rfl
  rw [ayBus]
  dsimp only
  split
  · exact (congrArg List.length (fastRead_reg _ bus.kbdRow bus.rowExt)).trans (hedge _)
  · exact hedge _

theorem pokeEnv_reg (p : Psg) (halfLevel direction : UInt8) : (p.pokeEnv halfLevel direction).reg = p.reg := by
  rw [pokeEnv]
  dsimp only
  split
  · rfl
  · split <;> rfl

theorem Reachable.reg_length (h : p.Reachable) : p.reg.length = 16 := by
  -- Every step sets registers in place or leaves them alone.
  induction h with
  | init => rfl
  | @tick p bus h ih =>
    rw [Psg.tick]
    dsimp only
    split
    · rw [soundStep_reg (ayBus_valid h.valid bus), ayBus_reg_length, ih]
    · exact (ayBus_reg_length p bus).trans ih
  | reset _ _ => rfl
  | load _ _ _ ihq => exact ihq
  | setKeyRow _ _ _ ih => exact ih
  | pokeReg _ _ _ ih => exact List.length_set.trans ih
  | pokeSel _ _ ih => exact ih
  | pokeEnv halfLevel direction _ ih => exact (congrArg List.length (pokeEnv_reg _ halfLevel direction)).trans ih
  | @fastLines p bdir bc1 da _ ih =>
    rw [Psg.fastLines]
    dsimp only
    split
    · exact (ayApply_reg_length p bdir bc1 da).trans ih
    · exact ih
  | fastRead kbdRow rowExt _ ih => exact (congrArg List.length (fastRead_reg _ kbdRow rowExt)).trans ih
  | takeScannedRows _ ih => exact ih
  | batchStep h ih => exact (congrArg List.length (soundStep_reg h.valid)).trans ih
  | batchSkip _ _ _ ih => exact ih

theorem ayApply_atClock (h : p.Reachable) (hsel : p.sel = 13) (shape : UInt8) :
    AtClock (shape &&& 0x0F) 0 (p.ayApply true false shape) := by
  have hwrite : p.ayApply true false shape = { p with reg := p.reg.set 13 (shape &&& 0x0F) }.envRestart := by
    rw [ayApply, hsel]
    rfl
  have hregister : ({ p with reg := p.reg.set 13 (shape &&& 0x0F) } : Psg).r 13 = shape &&& 0x0F := by
    rw [r, byteAt, List.getD_eq_getElem?_getD, List.getElem?_set_self (by rw [h.reg_length]; decide)]
    rfl
  rw [hwrite]
  have hrestart := envRestart_atClock { p with reg := p.reg.set 13 (shape &&& 0x0F) }
  rwa [hregister] at hrestart

theorem envelopeLevel_and (shape : UInt8) (seg pos : Nat) :
    envelopeLevel (shape &&& 0x0F) seg pos = envelopeLevel shape seg pos := by
  have hmask : ∀ bit : UInt8, 0x0F &&& bit = bit → shape &&& 0x0F &&& bit = shape &&& bit := by
    intro bit hbit
    rw [UInt8.and_assoc, hbit]
  have hcontinues : continues (shape &&& 0x0F) = continues shape := by rw [continues, hmask _ (by decide), continues]
  have hattacks : attacks (shape &&& 0x0F) = attacks shape := by rw [attacks, hmask _ (by decide), attacks]
  have halternates : alternates (shape &&& 0x0F) = alternates shape := by rw [alternates, hmask _ (by decide), alternates]
  have hholds : holds (shape &&& 0x0F) = holds shape := by rw [holds, hmask _ (by decide), holds]
  rw [envelopeLevel, segmentAttack, repeats, hcontinues, hattacks, halternates, hholds, envelopeLevel, segmentAttack,
    repeats]

/-- **The envelope has a closed form**: any number of sound steps after a shape is written. -/
theorem steps_envLevel (h : p.Reachable) (hsel : p.sel = 13) (shape : UInt8) (k : Nat) :
    let q := p.ayApply true false shape
    (steps k q).envLevel.toNat = envelopeLevel shape (q.envClocks k / 32) (q.envClocks k % 32) := by
  intro q
  have hvalid : q.Valid := ayApply_valid h.valid true false shape
  have hclocks := steps_atClock hvalid (ayApply_atClock h hsel shape) k
  rw [Nat.zero_add, expiries_envClocks hvalid] at hclocks
  rw [hclocks.level, envelopeLevel_and]

/-- 40 clocks into a triangle, where the period is 2 and the prescaler is at its start. -/
theorem triangle_envLevel :
    (steps 20480 ((pokeSel (pokeReg {} 11 2) 13).ayApply true false 0x0E)).envLevel.toNat = 23 := by
  have hstart : (pokeSel (pokeReg {} 11 2) 13).Reachable := .pokeSel 13 (.pokeReg 11 2 .init)
  exact (steps_envLevel hstart rfl 0x0E 20480).trans (by decide)

end Psg

end Koncepcja.Sound
