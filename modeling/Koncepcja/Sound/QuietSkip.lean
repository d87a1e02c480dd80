import Koncepcja.Sound.Psg
import Mathlib.Data.List.Basic

/-!
# Skipping Quiet Spans

Each generator of the PSG is a prescaled counter, and a span is quiet while none of the five expires. A
sound step refines a clock of each; on a quiet span the five closed forms are `psg_batch_skip`, and all
that is left of the steps is the mixer's last word on the channel levels.

## Main results

- `Psg.Reachable.valid`: the phases and counts stay in range.
- `Psg.soundStep_of_quiet`: a quiet step.
- `Psg.steps_eq_skip`: `n` quiet steps.
-/

namespace Koncepcja.Sound

open Koncepcja.Bytes

namespace Psg

variable {p q : Psg} {n : Nat}

/-! ## The counters -/

/-- The counter of a tone generator. -/
def tone (p : Psg) (chan : Fin 3) : Prescaled := ⟨p.toneDiv.toNat, (p.toneCnt chan).toNat⟩

/-- The counter of the noise generator. -/
def noise (p : Psg) : Prescaled := ⟨p.noiseDiv.toNat, p.noiseCnt.toNat⟩

/-- The counter of the envelope. -/
def env (p : Psg) : Prescaled := ⟨p.envDiv.toNat, p.envCnt.toNat⟩

/-- The phases and counts are in range, so that none wraps. -/
structure Valid (p : Psg) : Prop where
  toneDiv : p.toneDiv.toNat < 8
  toneCnt : ∀ chan, (p.toneCnt chan).toNat < 4096
  noiseDiv : p.noiseDiv.toNat < 16
  noiseCnt : p.noiseCnt.toNat < 32
  envDiv : p.envDiv.toNat < 256
  envCnt : p.envCnt.toNat < 65535

theorem toNat_succ {x : UInt16} (h : x.toNat + 1 < 65536) : (x + 1).toNat = x.toNat + 1 := by
  rw [UInt16.toNat_add]
  exact Nat.mod_eq_of_lt h

theorem succ_lt_iff {x y : UInt16} (h : x.toNat + 1 < 65536) : x + 1 < y ↔ x.toNat + 1 < y.toNat := by
  rw [UInt16.lt_iff_toNat_lt, toNat_succ h]

theorem orOne_pos (x : UInt16) : 0 < (orOne x).toNat := by
  rw [orOne]
  split
  · rename_i h
    exact Nat.pos_of_ne_zero fun h0 => h (UInt16.toNat_inj.mp h0)
  · decide

theorem orOne_lt {x : UInt16} {b : Nat} (hb : 1 < b) (h : x.toNat < b) : (orOne x).toNat < b := by
  rw [orOne]
  split
  · exact h
  · exact hb

theorem tonePeriod_lt (p : Psg) (chan : Fin 3) : (p.tonePeriod chan).toNat < 4096 := by
  refine orOne_lt (by decide) ?_
  have hlo := (p.r (2 * chan)).toNat_lt
  have hhi : (p.r (2 * chan + 1) &&& 0x0F).toNat < 16 := by
    rw [UInt8.toNat_and]
    exact Nat.lt_succ_of_le Nat.and_le_right
  rw [UInt16.toNat_or, UInt16.toNat_shiftLeft, UInt8.toNat_toUInt16, UInt8.toNat_toUInt16]
  refine Nat.or_lt_two_pow (n := 12) (by omega) ?_
  change (p.r (2 * chan + 1) &&& 0x0F).toNat <<< 8 % 65536 < 2 ^ 12
  rw [Nat.shiftLeft_eq]
  omega

theorem noisePeriod_lt (p : Psg) : p.noisePeriod.toNat < 32 := by
  refine orOne_lt (by decide) ?_
  rw [UInt8.toNat_toUInt16, UInt8.toNat_and]
  exact Nat.lt_succ_of_le Nat.and_le_right

/-! ## A step of each generator -/

theorem toneStep_eq (hdiv : p.toneDiv.toNat < 8) (hcnt : ∀ chan, (p.toneCnt chan).toNat < 4096) : ∃ div cnt out, p.toneStep = { p with toneDiv := div, toneCnt := cnt, toneOut := out } ∧
    (∀ chan, (⟨div.toNat, (cnt chan).toNat⟩ : Prescaled) = ((p.tone chan).tick 8 (p.tonePeriod chan).toNat).1) ∧
    ((∀ chan, ((p.tone chan).tick 8 (p.tonePeriod chan).toNat).2 = false) → out = p.toneOut) := by
  have hwrap : p.toneDiv.toNat + 1 < 65536 := by omega
  have hlt : p.toneDiv + 1 < 8 ↔ p.toneDiv.toNat + 1 < 8 := succ_lt_iff (y := 8) hwrap
  by_cases hphase : p.toneDiv.toNat + 1 < 8
  · refine ⟨p.toneDiv + 1, p.toneCnt, p.toneOut, ?_, fun chan => ?_, fun _ => rfl⟩
    · rw [toneStep, if_pos (hlt.mpr hphase)]
    · rw [Prescaled.tick, tone, if_pos hphase, toNat_succ hwrap]
  · have hexpires : ∀ chan, p.toneExpires chan = true ↔ ¬ (p.toneCnt chan).toNat + 1 < (p.tonePeriod chan).toNat := by
      intro chan
      have hcnt := hcnt chan
      rw [toneExpires, decide_eq_true_iff, UInt16.le_iff_toNat_le, toNat_succ (by omega), Nat.not_lt]
    rw [toneStep, if_neg (mt hlt.mp hphase)]
    refine ⟨_, _, _, rfl, fun chan => ?_, fun hall => ?_⟩
    · have hcnt := hcnt chan
      rw [Prescaled.tick, tone, if_neg hphase]
      dsimp only
      by_cases hexp : p.toneExpires chan = true
      · rw [if_pos hexp, if_neg ((hexpires chan).mp hexp)]
        rfl
      · rw [if_neg hexp, if_pos (not_not.mp fun hn => hexp ((hexpires chan).mpr hn)), toNat_succ (by omega)]
        rfl
    · -- no counter expired, so that nothing is toggled
      have hnone : ∀ chan, p.toneExpires chan = false := by
        intro chan
        rw [Bool.eq_false_iff]
        intro hexp
        have hfire := hall chan
        rw [Prescaled.tick, tone, if_neg hphase, if_neg ((hexpires chan).mp hexp)] at hfire
        exact Bool.false_ne_true hfire.symm
      rw [List.foldl_cons, List.foldl_cons, List.foldl_cons, List.foldl_nil, hnone, hnone, hnone]
      rfl

theorem noiseStep_eq (hdiv : p.noiseDiv.toNat < 16) (hcnt : p.noiseCnt.toNat < 32) : ∃ div cnt lfsr out,
    p.noiseStep = { p with noiseDiv := div, noiseCnt := cnt, noiseLfsr := lfsr, noiseOut := out } ∧
    (⟨div.toNat, cnt.toNat⟩ : Prescaled) = (p.noise.tick 16 p.noisePeriod.toNat).1 ∧
    ((p.noise.tick 16 p.noisePeriod.toNat).2 = false → lfsr = p.noiseLfsr ∧ out = p.noiseOut) := by
  have hwrap : p.noiseDiv.toNat + 1 < 65536 := by omega
  have hlt : p.noiseDiv + 1 < 16 ↔ p.noiseDiv.toNat + 1 < 16 := succ_lt_iff (y := 16) hwrap
  have hwrap' : p.noiseCnt.toNat + 1 < 65536 := by omega
  rw [noiseStep, Prescaled.tick, noise]
  by_cases hphase : p.noiseDiv.toNat + 1 < 16
  · rw [if_pos (hlt.mpr hphase), if_pos hphase]
    refine ⟨_, _, _, _, rfl, ?_, fun _ => ⟨rfl, rfl⟩⟩
    rw [toNat_succ hwrap]
  · rw [if_neg (mt hlt.mp hphase), if_neg hphase]
    by_cases hlast : p.noiseCnt.toNat + 1 < p.noisePeriod.toNat
    · rw [if_pos ((succ_lt_iff hwrap').mpr hlast), if_pos hlast]
      refine ⟨_, _, _, _, rfl, ?_, fun _ => ⟨rfl, rfl⟩⟩
      rw [toNat_succ hwrap']
      rfl
    · rw [if_neg (mt (succ_lt_iff hwrap').mp hlast), if_neg hlast]
      exact ⟨_, _, _, _, rfl, rfl, fun hfire => absurd hfire.symm Bool.false_ne_true⟩

theorem envClock_eq (p : Psg) : ∃ step level attack holding dir, p.envClock =
    { p with envStep := step, envLevel := level, envAttackSeg := attack, envHolding := holding, envDirection := dir } := by
  rw [envClock]
  dsimp only
  split
  · exact ⟨_, _, _, _, _, rfl⟩
  · split
    · exact ⟨_, _, _, _, _, rfl⟩
    · split
      · exact ⟨_, _, _, _, _, rfl⟩
      · split <;> exact ⟨_, _, _, _, _, rfl⟩

theorem envelopeStep_eq (hdiv : p.envDiv.toNat < 256) (hcnt : p.envCnt.toNat < 65535) : ∃ div cnt step level attack holding dir, p.envelopeStep =
    { p with envDiv := div, envCnt := cnt, envStep := step, envLevel := level, envAttackSeg := attack, envHolding := holding, envDirection := dir } ∧
    (⟨div.toNat, cnt.toNat⟩ : Prescaled) = (p.env.tick 256 p.envPeriod.toNat).1 ∧
    ((p.env.tick 256 p.envPeriod.toNat).2 = false →
      step = p.envStep ∧ level = p.envLevel ∧ attack = p.envAttackSeg ∧ holding = p.envHolding ∧ dir = p.envDirection) := by
  have hwrap : p.envDiv.toNat + 1 < 65536 := by omega
  have hlt : p.envDiv + 1 < 256 ↔ p.envDiv.toNat + 1 < 256 := succ_lt_iff (y := 256) hwrap
  have hwrap' : p.envCnt.toNat + 1 < 65536 := by omega
  rw [envelopeStep, Prescaled.tick, env]
  by_cases hphase : p.envDiv.toNat + 1 < 256
  · rw [if_pos (hlt.mpr hphase), if_pos hphase]
    refine ⟨_, _, _, _, _, _, _, rfl, ?_, fun _ => ⟨rfl, rfl, rfl, rfl, rfl⟩⟩
    rw [toNat_succ hwrap]
  · rw [if_neg (mt hlt.mp hphase), if_neg hphase]
    by_cases hlast : p.envCnt.toNat + 1 < p.envPeriod.toNat
    · rw [if_pos ((succ_lt_iff hwrap').mpr hlast), if_pos hlast]
      refine ⟨_, _, _, _, _, _, _, rfl, ?_, fun _ => ⟨rfl, rfl, rfl, rfl, rfl⟩⟩
      rw [toNat_succ hwrap']
      rfl
    · rw [if_neg (mt (succ_lt_iff hwrap').mp hlast), if_neg hlast]
      obtain ⟨step, level, attack, holding, dir, heq⟩ := envClock_eq { p with envDiv := 0, envCnt := 0 }
      exact ⟨0, 0, step, level, attack, holding, dir, heq, rfl, fun hfire => absurd hfire.symm Bool.false_ne_true⟩

/-! ## Valid states -/

theorem Valid.copy (h : p.Valid) (htone : ∀ chan, q.tone chan = p.tone chan) (hnoise : q.noise = p.noise)
    (henv : q.env = p.env) : q.Valid where
  toneDiv := (congrArg Prescaled.div (htone 0)).trans_lt h.toneDiv
  toneCnt chan := (congrArg Prescaled.cnt (htone chan)).trans_lt (h.toneCnt chan)
  noiseDiv := (congrArg Prescaled.div hnoise).trans_lt h.noiseDiv
  noiseCnt := (congrArg Prescaled.cnt hnoise).trans_lt h.noiseCnt
  envDiv := (congrArg Prescaled.div henv).trans_lt h.envDiv
  envCnt := (congrArg Prescaled.cnt henv).trans_lt h.envCnt

theorem Valid.of_clock (h : p.Valid) (htone : ∀ chan, q.tone chan = ((p.tone chan).tick 8 (p.tonePeriod chan).toNat).1)
    (hnoise : q.noise = (p.noise.tick 16 p.noisePeriod.toNat).1) (henv : q.env = (p.env.tick 256 p.envPeriod.toNat).1) :
    q.Valid where
  toneDiv := (congrArg Prescaled.div (htone 0)).trans_lt (Prescaled.tick_div_lt _ h.toneDiv)
  toneCnt chan := by
    have hcnt := h.toneCnt chan
    have hper := p.tonePeriod_lt chan
    refine (congrArg Prescaled.cnt (htone chan)).trans_lt ((Prescaled.tick_cnt_le _ _ _).trans_lt (max_lt hcnt ?_))
    omega
  noiseDiv := (congrArg Prescaled.div hnoise).trans_lt (Prescaled.tick_div_lt _ h.noiseDiv)
  noiseCnt := by
    have hper := p.noisePeriod_lt
    refine (congrArg Prescaled.cnt hnoise).trans_lt ((Prescaled.tick_cnt_le _ _ _).trans_lt (max_lt h.noiseCnt ?_))
    omega
  envDiv := (congrArg Prescaled.div henv).trans_lt (Prescaled.tick_div_lt _ h.envDiv)
  envCnt := by
    have hper := p.envPeriod.toNat_lt
    refine (congrArg Prescaled.cnt henv).trans_lt ((Prescaled.tick_cnt_le _ _ _).trans_lt (max_lt h.envCnt ?_))
    omega

theorem soundStep_clock (h : p.Valid) : (∀ chan, p.soundStep.tone chan = ((p.tone chan).tick 8 (p.tonePeriod chan).toNat).1) ∧
    p.soundStep.noise = (p.noise.tick 16 p.noisePeriod.toNat).1 ∧ p.soundStep.env = (p.env.tick 256 p.envPeriod.toNat).1 := by
  obtain ⟨div, cnt, out, heq, htone, -⟩ := toneStep_eq h.toneDiv h.toneCnt
  rw [soundStep, heq]
  let q : Psg := { p with toneDiv := div, toneCnt := cnt, toneOut := out }
  obtain ⟨ndiv, ncnt, lfsr, nout, heq', hnoise, -⟩ := noiseStep_eq (p := q) h.noiseDiv h.noiseCnt
  rw [heq']
  let q' : Psg := { q with noiseDiv := ndiv, noiseCnt := ncnt, noiseLfsr := lfsr, noiseOut := nout }
  obtain ⟨ediv, ecnt, step, level, attack, holding, dir, heq'', henv, -⟩ := envelopeStep_eq (p := q') h.envDiv h.envCnt
  rw [heq'']
  exact ⟨htone, hnoise, henv⟩

theorem soundStep_levels (p : Psg) : p.soundStep.chanLevel = p.soundStep.mixed := by
  rw [soundStep]
  generalize p.toneStep.noiseStep.envelopeStep = q
  rfl

theorem soundStep_valid (h : p.Valid) : p.soundStep.Valid :=
  h.of_clock (soundStep_clock h).1 (soundStep_clock h).2.1 (soundStep_clock h).2.2

/-! ## A quiet step -/

/-- None of the counters expires on the next `n` steps. -/
structure Quiet (n : Nat) (p : Psg) : Prop where
  tone : ∀ chan, n < Prescaled.eventIn 8 (p.tonePeriod chan).toNat (p.tone chan)
  noise : n < Prescaled.eventIn 16 p.noisePeriod.toNat p.noise
  env : n < Prescaled.eventIn 256 p.envPeriod.toNat p.env

theorem eq_of_skip {presc : Nat} {div cnt d c : UInt16}
    (h : (⟨div.toNat, cnt.toNat⟩ : Prescaled) = Prescaled.skip presc n ⟨d.toNat, c.toNat⟩) :
    div = UInt16.ofNat ((d.toNat + n) % presc) ∧ cnt = c + UInt16.ofNat ((d.toNat + n) / presc) := by
  have hdiv : div.toNat = (d.toNat + n) % presc := congrArg Prescaled.div h
  have hcnt : cnt.toNat = c.toNat + (d.toNat + n) / presc := congrArg Prescaled.cnt h
  rw [← hdiv, UInt16.ofNat_toNat]
  refine ⟨rfl, ?_⟩
  calc cnt = UInt16.ofNat cnt.toNat := UInt16.ofNat_toNat.symm
    _ = UInt16.ofNat c.toNat + UInt16.ofNat ((d.toNat + n) / presc) := by rw [hcnt, UInt16.ofNat_add]
    _ = c + UInt16.ofNat ((d.toNat + n) / presc) := by rw [UInt16.ofNat_toNat]

/-- **A quiet step** moves the counters in closed form and lets the mixer run. -/
theorem soundStep_of_quiet (h : p.Valid) (hq : Quiet 1 p) : p.soundStep = { p.skip 1 with chanLevel := p.mixed } := by
  have htick : ∀ chan, (p.tone chan).tick 8 (p.tonePeriod chan).toNat = ((p.tone chan).skip 8 1, false) :=
    fun chan => Prescaled.tick_of_quiet h.toneDiv (hq.tone chan)
  have htickn : p.noise.tick 16 p.noisePeriod.toNat = (p.noise.skip 16 1, false) :=
    Prescaled.tick_of_quiet h.noiseDiv hq.noise
  have hticke : p.env.tick 256 p.envPeriod.toNat = (p.env.skip 256 1, false) :=
    Prescaled.tick_of_quiet h.envDiv hq.env
  obtain ⟨div, cnt, out, heq, htone, hout⟩ := toneStep_eq h.toneDiv h.toneCnt
  obtain rfl := hout fun chan => congrArg Prod.snd (htick chan)
  rw [soundStep, heq]
  let q : Psg := { p with toneDiv := div, toneCnt := cnt, toneOut := p.toneOut }
  obtain ⟨ndiv, ncnt, lfsr, nout, heq', hnoise, hsame⟩ := noiseStep_eq (p := q) h.noiseDiv h.noiseCnt
  obtain ⟨rfl, rfl⟩ := hsame (congrArg Prod.snd htickn)
  rw [heq']
  let q' : Psg := { q with noiseDiv := ndiv, noiseCnt := ncnt }
  obtain ⟨ediv, ecnt, step, level, attack, holding, dir, heq'', henv, hsame'⟩ := envelopeStep_eq (p := q') h.envDiv h.envCnt
  obtain ⟨rfl, rfl, rfl, rfl, rfl⟩ := hsame' (congrArg Prod.snd hticke)
  rw [heq'']
  -- the counters are where the closed forms have them
  have hdiv := (eq_of_skip ((htone 0).trans (congrArg Prod.fst (htick 0)))).1
  have hcnt : cnt = fun chan => p.toneCnt chan + UInt16.ofNat ((p.toneDiv.toNat + 1) / 8) :=
    funext fun chan => (eq_of_skip ((htone chan).trans (congrArg Prod.fst (htick chan)))).2
  obtain ⟨hndiv, hncnt⟩ := eq_of_skip (hnoise.trans (congrArg Prod.fst htickn))
  obtain ⟨hediv, hecnt⟩ := eq_of_skip (henv.trans (congrArg Prod.fst hticke))
  subst hdiv hcnt hndiv hncnt hediv hecnt
  rfl

/-! ## Quiet spans -/

theorem quiet_of_lt (h : n < p.quietSteps) : Quiet n p := by
  have hdef : p.quietSteps = min p.envEvent (min p.noiseEvent (min (p.toneEvent 2) (min (p.toneEvent 1) (p.toneEvent 0)))) := rfl
  rw [hdef, lt_min_iff, lt_min_iff, lt_min_iff, lt_min_iff] at h
  obtain ⟨henv, hnoise, hc, hb, ha⟩ := h
  refine ⟨fun chan => ?_, hnoise, henv⟩
  match chan with
  | 0 => exact ha
  | 1 => exact hb
  | 2 => exact hc

theorem Quiet.mono {m : Nat} (h : Quiet n p) (hm : m ≤ n) : Quiet m p :=
  ⟨fun chan => hm.trans_lt (h.tone chan), hm.trans_lt h.noise, hm.trans_lt h.env⟩

theorem Quiet.next (h : p.Valid) (hq : Quiet (n + 1) p) : Quiet n p.soundStep := by
  have hone := hq.mono (show 1 ≤ n + 1 by omega)
  have hstep := soundStep_of_quiet h hone
  obtain ⟨htone, hnoise, henv⟩ := soundStep_clock h
  refine ⟨fun chan => ?_, ?_, ?_⟩
  · rw [htone, Prescaled.tick_of_quiet h.toneDiv (hone.tone chan), hstep]
    have hnext := Prescaled.eventIn_skip_one h.toneDiv (hone.tone chan)
    exact Nat.lt_of_succ_lt_succ ((hq.tone chan).trans_eq hnext.symm)
  · rw [hnoise, Prescaled.tick_of_quiet h.noiseDiv hone.noise, hstep]
    have hnext := Prescaled.eventIn_skip_one h.noiseDiv hone.noise
    exact Nat.lt_of_succ_lt_succ (hq.noise.trans_eq hnext.symm)
  · rw [henv, Prescaled.tick_of_quiet h.envDiv hone.env, hstep]
    have hnext := Prescaled.eventIn_skip_one h.envDiv hone.env
    exact Nat.lt_of_succ_lt_succ (hq.env.trans_eq hnext.symm)

theorem roll_add (presc m n : Nat) (d c : UInt16) (hpresc : 0 < presc) (hfits : presc ≤ 65536) :
    UInt16.ofNat (((UInt16.ofNat ((d.toNat + m) % presc)).toNat + n) % presc) = UInt16.ofNat ((d.toNat + (m + n)) % presc) ∧
    c + UInt16.ofNat ((d.toNat + m) / presc) + UInt16.ofNat (((UInt16.ofNat ((d.toNat + m) % presc)).toNat + n) / presc) =
      c + UInt16.ofNat ((d.toNat + (m + n)) / presc) := by
  have hphase : (UInt16.ofNat ((d.toNat + m) % presc)).toNat = (d.toNat + m) % presc :=
    UInt16.toNat_ofNat_of_lt' ((Nat.mod_lt _ hpresc).trans_le hfits)
  have hadd := Prescaled.skip_add presc m n ⟨d.toNat, 0⟩
  have hdiv : ((d.toNat + m) % presc + n) % presc = (d.toNat + (m + n)) % presc := congrArg Prescaled.div hadd
  have hcnt : 0 + (d.toNat + m) / presc + ((d.toNat + m) % presc + n) / presc = 0 + (d.toNat + (m + n)) / presc :=
    congrArg Prescaled.cnt hadd
  rw [Nat.zero_add, Nat.zero_add] at hcnt
  rw [hphase, hdiv, UInt16.add_assoc, ← UInt16.ofNat_add, hcnt]
  exact ⟨rfl, rfl⟩

theorem skip_skip (m n : Nat) (p : Psg) (levels : Fin 3 → UInt8) :
    skip n { skip m p with chanLevel := levels } = { skip (m + n) p with chanLevel := levels } := by
  obtain ⟨htdiv, -⟩ := roll_add 8 m n p.toneDiv 0 (by decide) (by decide)
  have htcnt := fun chan => (roll_add 8 m n p.toneDiv (p.toneCnt chan) (by decide) (by decide)).2
  obtain ⟨hndiv, hncnt⟩ := roll_add 16 m n p.noiseDiv p.noiseCnt (by decide) (by decide)
  obtain ⟨hediv, hecnt⟩ := roll_add 256 m n p.envDiv p.envCnt (by decide) (by decide)
  simp only [skip, htdiv, htcnt, hndiv, hncnt, hediv, hecnt]

theorem skip_zero (h : p.Valid) : skip 0 p = p := by
  have hfit : ∀ {presc : Nat} {d : UInt16}, d.toNat < presc →
      UInt16.ofNat ((d.toNat + 0) % presc) = d ∧ UInt16.ofNat ((d.toNat + 0) / presc) = 0 := by
    intro presc d hd
    rw [Nat.add_zero, Nat.mod_eq_of_lt hd, Nat.div_eq_of_lt hd, UInt16.ofNat_toNat]
    exact ⟨rfl, rfl⟩
  obtain ⟨htdiv, htcnt⟩ := hfit h.toneDiv
  obtain ⟨hndiv, hncnt⟩ := hfit h.noiseDiv
  obtain ⟨hediv, hecnt⟩ := hfit h.envDiv
  simp only [skip, htdiv, htcnt, hndiv, hncnt, hediv, hecnt, UInt16.add_zero]

/-- **Quiet steps.** They move the counters in closed form, and all the mixer's work comes to its last. -/
theorem steps_eq_skip (h : p.Valid) (n : Nat) (hq : Quiet n p) :
    steps n p = { skip n p with chanLevel := if n = 0 then p.chanLevel else p.mixed } := by
  induction n generalizing p with
  | zero =>
    rw [if_pos rfl, skip_zero h]
    rfl
  | succ n ih =>
    have hstep := soundStep_of_quiet h (hq.mono (show 1 ≤ n + 1 by omega))
    have hrest := ih (soundStep_valid h) (hq.next h)
    have hlevels : (if n = 0 then p.soundStep.chanLevel else p.soundStep.mixed) = p.mixed := by
      rw [hstep]
      split <;> rfl
    rw [hlevels, hstep, skip_skip, Nat.add_comm] at hrest
    rw [steps, if_neg (Nat.succ_ne_zero n)]
    rw [hstep]
    exact hrest

theorem steps_valid (h : p.Valid) (n : Nat) : (steps n p).Valid := by
  induction n generalizing p with
  | zero => exact h
  | succ n ih => exact ih (soundStep_valid h)

theorem skip_valid (h : p.Valid) (hq : Quiet n p) : (skip n p).Valid := by
  have hsteps := steps_valid h n
  rw [steps_eq_skip h n hq] at hsteps
  exact hsteps.copy (fun _ => rfl) rfl rfl

/-! ## Every state a PSG comes to -/

theorem ayApply_valid (h : p.Valid) (bdir bc1 : Bool) (da : UInt8) : (p.ayApply bdir bc1 da).Valid := by
  rw [ayApply]
  split
  · exact h.copy (fun _ => rfl) rfl rfl
  · split
    · dsimp only
      split <;> exact h.copy (fun _ => rfl) rfl rfl
    · exact h

theorem fastRead_valid (h : p.Valid) (kbdRow rowExt : UInt8) : (p.fastRead kbdRow rowExt).2.Valid := by
  rw [fastRead]
  dsimp only
  split
  · exact h.copy (fun _ => rfl) rfl rfl
  · exact h

theorem ayBus_valid (h : p.Valid) (bus : BusIn) : (p.ayBus bus).1.Valid := by
  have hedge : ∀ (c : Prop) [Decidable c], (if c then p.ayApply bus.bdir bus.bc1 bus.da else p).Valid := by
    intro c _
    split
    · exact ayApply_valid h _ _ _
    · exact h
  rw [ayBus]
  dsimp only
  split
  · exact (fastRead_valid (hedge _) bus.kbdRow bus.rowExt).copy (fun _ => rfl) rfl rfl
  · exact (hedge _).copy (fun _ => rfl) rfl rfl

theorem tick_valid (h : p.Valid) (bus : BusIn) : (p.tick bus).1.Valid := by
  have hbus := ayBus_valid h bus
  rw [tick]
  dsimp only
  split
  · exact soundStep_valid hbus
  · exact hbus

theorem pokeEnv_valid (h : p.Valid) (halfLevel direction : UInt8) : (p.pokeEnv halfLevel direction).Valid := by
  rw [pokeEnv]
  dsimp only
  split
  · exact h.copy (fun _ => rfl) rfl rfl
  · split <;> exact h.copy (fun _ => rfl) rfl rfl

theorem fastLines_valid (h : p.Valid) (bdir bc1 : Bool) (da : UInt8) : (p.fastLines bdir bc1 da).Valid := by
  rw [fastLines]
  split
  · exact (ayApply_valid h bdir bc1 da).copy (fun _ => rfl) rfl rfl
  · exact h.copy (fun _ => rfl) rfl rfl

theorem reset_valid (p : Psg) : p.reset.Valid := by
  have hfresh : Valid {} := ⟨by decide, fun _ => (by decide : (0 : UInt16).toNat < 4096), by decide, by decide, by decide, by decide⟩
  exact hfresh.copy (fun _ => rfl) rfl rfl

/-- **Whatever is done to a PSG, its counters stay in range.** -/
theorem Reachable.valid (h : p.Reachable) : p.Valid := by
  induction h with
  | init => exact reset_valid {}
  | tick bus _ ih => exact tick_valid ih bus
  | reset _ _ => exact reset_valid _
  | load _ _ _ ihq => exact ihq.copy (fun _ => rfl) rfl rfl
  | setKeyRow _ _ _ ih => exact ih.copy (fun _ => rfl) rfl rfl
  | pokeReg _ _ _ ih => exact ih.copy (fun _ => rfl) rfl rfl
  | pokeSel _ _ ih => exact ih.copy (fun _ => rfl) rfl rfl
  | pokeEnv halfLevel direction _ ih => exact pokeEnv_valid ih halfLevel direction
  | fastLines bdir bc1 da _ ih => exact fastLines_valid ih bdir bc1 da
  | fastRead kbdRow rowExt _ ih => exact fastRead_valid ih kbdRow rowExt
  | takeScannedRows _ ih => exact ih.copy (fun _ => rfl) rfl rfl
  | batchStep _ ih => exact soundStep_valid ih
  | batchSkip _ hn _ ih => exact skip_valid ih (quiet_of_lt hn)

end Psg

end Koncepcja.Sound
