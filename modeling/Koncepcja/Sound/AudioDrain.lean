import Koncepcja.Sound.QuietSkip

/-!
# The Audio Drain

The Fast tier catches its audio up in one loop: accumulate the levels of the step before, take the
next sound step, and fold a quiet span of such pairs into one bulk accumulate and one skip. The sample
emission is the host's: what it does with a sum is a parameter, because the filter is floating point.

## Main results

- `Mix.accumulateBulk_eq`: a bulk accumulate is so many single ones.
- `Audio.quiet_skip_exact`: skips are steps, and the drain is the alternation of accumulate and step.
-/

namespace Koncepcja.Sound

def kPsgHz : Nat := 1000000

def kAudioHz : Nat := 44100

/-- The accumulators of a machine, and what its samples go to. The phase stays below the rate of the PSG. -/
structure Mix (φ ε : Type) where
  digiblaster : Option UInt8
  amdrum : Option UInt8
  phase : Nat
  phase_lt : phase < kPsgHz
  accL : Int
  accR : Int
  n : Nat
  dcL : φ
  dcR : φ
  fdcEvents : List ε
  overlay : Option (List ε)
  audio : List Int

namespace Mix

variable {φ ε : Type}

/-- `emit_sample`: the sample of a sum of so many steps, and the filter behind it. -/
abbrev Emit (φ : Type) := Int → Nat → φ → Int × φ

variable (emit : Emit φ) (lv : Fin 3 → UInt8)

/-- What a DAC adds. -/
def dac (latch : Option UInt8) : Int :=
  match latch with
  | some v => Int.tdiv (((v.toNat : Int) - 128) * 31) 128
  | none => 0

/-- What a step adds on the left: channels A and B, and the DACs. -/
def addL (x : Mix φ ε) : Int := (lv 0).toNat + (lv 1).toNat + dac x.digiblaster + dac x.amdrum

/-- What a step adds on the right: channels C and B. -/
def addR : Int := (lv 2).toNat + (lv 1).toNat

/-- The steps up to the next sample. -/
def toBoundary (x : Mix φ ε) : Nat := ((kPsgHz - x.phase) + kAudioHz - 1) / kAudioHz

/-- A 16-bit sample. -/
def clamp (v : Int) : Int := max (-32768) (min v 32767)

/-- One stereo pair out, the drive's events to the overlay, and the sums at zero. -/
def emitPair (x : Mix φ ε) : Mix φ ε :=
  let (left, dcL) := emit x.accL x.n x.dcL
  let (right, dcR) := emit x.accR x.n x.dcR
  { x with
    dcL := dcL
    dcR := dcR
    overlay := x.overlay.map (· ++ x.fdcEvents)
    fdcEvents := if x.overlay.isSome then [] else x.fdcEvents
    audio := x.audio ++ [clamp left, clamp right]
    accL := 0
    accR := 0
    n := 0 }

theorem phase_sub_lt {x : Mix φ ε} {c : Nat} (hc : c ≤ x.toBoundary) : x.phase + kAudioHz * c - kPsgHz < kPsgHz := by
  have hle : kAudioHz * c ≤ kAudioHz * x.toBoundary := Nat.mul_le_mul_left _ hc
  have hdiv : kAudioHz * x.toBoundary ≤ (kPsgHz - x.phase) + kAudioHz - 1 := Nat.mul_div_le _ _
  have hphase := x.phase_lt
  rw [kPsgHz, kAudioHz] at *
  omega

/-- `c` steps, none of them past the next sample. -/
def chunk (x : Mix φ ε) (c : Nat) (hc : c ≤ x.toBoundary) : Mix φ ε :=
  let accL := x.accL + x.addL lv * c
  let accR := x.accR + addR lv * c
  if h : x.phase + kAudioHz * c < kPsgHz then
    { x with accL := accL, accR := accR, n := x.n + c, phase := x.phase + kAudioHz * c, phase_lt := h }
  else
    emitPair emit { x with
      accL := accL, accR := accR, n := x.n + c, phase := x.phase + kAudioHz * c - kPsgHz, phase_lt := phase_sub_lt hc }

theorem toBoundary_pos (x : Mix φ ε) : 0 < x.toBoundary := by
  have hphase := x.phase_lt
  rw [toBoundary]
  refine Nat.div_pos ?_ (by decide)
  omega

/-- `accumulate_audio_bulk`. -/
def accumulateBulk (k : Nat) (x : Mix φ ε) : Mix φ ε :=
  if k = 0 then x
  else
    let c := min k x.toBoundary
    accumulateBulk (k - c) (x.chunk emit lv c (Nat.min_le_right _ _))
termination_by k
decreasing_by
  have := x.toBoundary_pos
  omega

/-- `accumulate_audio`. -/
def accumulate (x : Mix φ ε) : Mix φ ε := accumulateBulk emit lv 1 x

/-- `k` single accumulates. -/
def accumulates (k : Nat) (x : Mix φ ε) : Mix φ ε := (accumulate emit lv)^[k] x

variable {emit lv}

theorem accumulate_eq (x : Mix φ ε) : x.accumulate emit lv = x.chunk emit lv 1 x.toBoundary_pos := by
  have hone : min 1 x.toBoundary = 1 := Nat.min_eq_left x.toBoundary_pos
  rw [accumulate, accumulateBulk, if_neg Nat.one_ne_zero]
  simp only [hone]
  rw [accumulateBulk, if_pos (Nat.sub_self 1)]

theorem chunk_one (emit : Emit φ) (lv : Fin 3 → UInt8) {x : Mix φ ε} (h : 1 < x.toBoundary) : ∃ hphase, x.chunk emit lv 1 x.toBoundary_pos =
    { x with accL := x.accL + x.addL lv, accR := x.accR + addR lv, n := x.n + 1, phase := x.phase + kAudioHz, phase_lt := hphase } := by
  have hlt : x.phase + kAudioHz * 1 < kPsgHz := by
    have hdiv : kAudioHz * x.toBoundary ≤ (kPsgHz - x.phase) + kAudioHz - 1 := Nat.mul_div_le _ _
    have htwo : kAudioHz * 2 ≤ kAudioHz * x.toBoundary := Nat.mul_le_mul_left _ h
    have hphase := x.phase_lt
    rw [kPsgHz, kAudioHz] at *
    omega
  refine ⟨hlt, ?_⟩
  rw [chunk, dif_pos hlt]
  simp only [Int.natCast_one, Int.mul_one, Nat.mul_one]

theorem toBoundary_chunk_one (emit : Emit φ) (lv : Fin 3 → UInt8) {x : Mix φ ε} (h : 1 < x.toBoundary) :
    (x.chunk emit lv 1 x.toBoundary_pos).toBoundary + 1 = x.toBoundary := by
  obtain ⟨hphase, heq⟩ := chunk_one emit lv h
  have hsum : (kPsgHz - x.phase) + kAudioHz - 1 = (kPsgHz - (x.phase + kAudioHz)) + kAudioHz - 1 + kAudioHz := by
    rw [kPsgHz, kAudioHz] at *
    omega
  rw [heq, toBoundary, toBoundary, hsum, Nat.add_div_right _ (show 0 < kAudioHz by decide)]

theorem chunk_succ {x : Mix φ ε} (c : Nat) (hc : c + 1 ≤ x.toBoundary) (hpos : 0 < c)
    (hc' : c ≤ (x.chunk emit lv 1 x.toBoundary_pos).toBoundary) :
    x.chunk emit lv (c + 1) hc = (x.chunk emit lv 1 x.toBoundary_pos).chunk emit lv c hc' := by
  obtain ⟨hphase, heq⟩ := chunk_one emit lv (show 1 < x.toBoundary by omega)
  generalize x.chunk emit lv 1 x.toBoundary_pos = y at heq hc' ⊢
  subst heq
  have hsum : ∀ a d : Int, a + d * ((c + 1 : Nat) : Int) = a + d + d * c := by
    intro a d
    rw [Int.natCast_add, Int.natCast_one, Int.mul_add, Int.mul_one]
    omega
  have hn : x.n + (c + 1) = x.n + 1 + c := by omega
  have hp : x.phase + kAudioHz * (c + 1) = x.phase + kAudioHz + kAudioHz * c := by
    rw [Nat.mul_add, Nat.mul_one]
    omega
  rw [chunk, chunk]
  simp only [hsum, hn, hp]
  rfl

theorem accumulates_succ (k : Nat) (x : Mix φ ε) :
    accumulates emit lv (k + 1) x = accumulates emit lv k (x.accumulate emit lv) :=
  Function.iterate_succ_apply (accumulate emit lv) k x

theorem accumulates_one (x : Mix φ ε) : accumulates emit lv 1 x = x.accumulate emit lv :=
  congrFun (Function.iterate_one (accumulate emit lv)) x

theorem chunk_eq (c : Nat) (x : Mix φ ε) (hc : c + 1 ≤ x.toBoundary) :
    x.chunk emit lv (c + 1) hc = accumulates emit lv (c + 1) x := by
  induction c generalizing x with
  | zero => exact (accumulate_eq x).symm.trans (accumulates_one x).symm
  | succ c ih =>
    have hone : 1 < x.toBoundary := Nat.lt_of_lt_of_le (Nat.succ_lt_succ (Nat.succ_pos c)) hc
    have hc' : c + 1 ≤ (x.chunk emit lv 1 x.toBoundary_pos).toBoundary :=
      Nat.le_of_succ_le_succ (hc.trans_eq (toBoundary_chunk_one emit lv hone).symm)
    rw [chunk_succ (c + 1) hc (Nat.succ_pos c) hc', ih _ hc', ← accumulate_eq]
    exact (accumulates_succ (c + 1) x).symm

theorem accumulates_add (m k : Nat) (x : Mix φ ε) :
    accumulates emit lv (k + m) x = accumulates emit lv k (accumulates emit lv m x) :=
  Function.iterate_add_apply (accumulate emit lv) k m x

/-- **A bulk accumulate is so many single ones**, with every sample at its own step. -/
theorem accumulateBulk_eq (k : Nat) (x : Mix φ ε) : accumulateBulk emit lv k x = accumulates emit lv k x := by
  induction k using Nat.strongRecOn generalizing x with
  | ind k ih =>
    rw [accumulateBulk]
    split
    · rename_i h0
      rw [h0]
      rfl
    · rename_i hpos
      have hb := x.toBoundary_pos
      obtain ⟨c, hc⟩ : ∃ c, min k x.toBoundary = c + 1 := ⟨min k x.toBoundary - 1, by omega⟩
      simp only [hc]
      rw [ih (k - (c + 1)) (by omega), chunk_eq, ← accumulates_add]
      congr 1
      omega

end Mix

/-! ## The drain -/

/-- The audio side of the Fast tier: the PSG, the mix, and how far steps and accumulates are. -/
structure Audio (φ ε : Type) where
  psg : Psg
  mix : Mix φ ε
  steps : Nat
  accs : Nat

namespace Audio

open Mix

variable {φ ε : Type} (emit : Emit φ)

/-- The deferred accumulate of the step before, if there is one. -/
def catchUp (m : Audio φ ε) : Audio φ ε :=
  if m.accs < m.steps then { m with mix := m.mix.accumulate emit m.psg.chanLevel, accs := m.accs + 1 } else m

/-- `psg_batch_step`. -/
def batchStep (m : Audio φ ε) : Audio φ ε := { m with psg := m.psg.soundStep, steps := m.steps + 1 }

/-- The steps a drain to `target` folds into one. -/
def foldable (target : Nat) (m : Audio φ ε) : Nat :=
  if m.steps < target ∧ m.accs < m.steps then
    let want := target - m.steps
    if want < m.psg.quietSteps - 1 then want else m.psg.quietSteps - 1
  else 0

/-- `k` accumulates in bulk and `k` steps skipped. -/
def fold (k : Nat) (m : Audio φ ε) : Audio φ ε where
  psg := m.psg.skip k
  mix := accumulateBulk emit m.psg.chanLevel k m.mix
  steps := m.steps + k
  accs := m.accs + k

theorem catchUp_steps (m : Audio φ ε) : (m.catchUp emit).steps = m.steps := by
  rw [catchUp]
  split <;> rfl

theorem catchUp_psg (m : Audio φ ε) : (m.catchUp emit).psg = m.psg := by
  rw [catchUp]
  split <;> rfl

/-- One turn of the drain: a pair for real, and the quiet pairs behind it in one. -/
def turn (target : Nat) (m : Audio φ ε) : Audio φ ε :=
  let m := (m.catchUp emit).batchStep
  let k := m.foldable target
  if 0 < k then m.fold emit k else m

theorem turn_steps (target : Nat) (m : Audio φ ε) : m.steps < (m.turn emit target).steps := by
  have hstep : (m.catchUp emit).batchStep.steps = m.steps + 1 := congrArg (· + 1) (catchUp_steps emit m)
  have hle : (m.catchUp emit).batchStep.steps ≤ (m.turn emit target).steps := by
    rw [turn]
    split
    · exact Nat.le_add_right _ _
    · exact Nat.le_refl _
  omega

def fsAudioSteps (target : Nat) (m : Audio φ ε) : Audio φ ε :=
  if m.steps < target then fsAudioSteps target (m.turn emit target) else m
termination_by target - m.steps
decreasing_by
  have := turn_steps emit target m
  omega

/-- One accumulate and one step, as the drain takes them one at a time. -/
def alternation (m : Audio φ ε) : Audio φ ε := (m.catchUp emit).batchStep

/-- `n` of them. -/
def alternations (n : Nat) (m : Audio φ ε) : Audio φ ε := (alternation emit)^[n] m

variable {emit} {m : Audio φ ε}

theorem alternations_succ (k : Nat) (m : Audio φ ε) :
    alternations emit (k + 1) m = alternations emit k (m.alternation emit) :=
  Function.iterate_succ_apply (alternation emit) k m

theorem alternations_add (j k : Nat) (m : Audio φ ε) :
    alternations emit (k + j) m = alternations emit k (alternations emit j m) :=
  Function.iterate_add_apply (alternation emit) k j m

theorem fold_eq (hv : m.psg.Valid) (hlevels : m.psg.chanLevel = m.psg.mixed) (haccs : m.accs < m.steps) (k : Nat)
    (hk : k < m.psg.quietSteps) : alternations emit k m = m.fold emit k := by
  rw [fold, accumulateBulk_eq]
  have hq := Psg.quiet_of_lt hk
  clear hk
  induction k generalizing m with
  | zero =>
    rw [Psg.skip_zero hv]
    rfl
  | succ k ih =>
    have hstep := Psg.soundStep_of_quiet hv (hq.mono (show 1 ≤ k + 1 by omega))
    have hnext : m.alternation emit =
        ⟨m.psg.soundStep, m.mix.accumulate emit m.psg.chanLevel, m.steps + 1, m.accs + 1⟩ := by
      rw [alternation, catchUp, if_pos haccs]
      rfl
    have hrest := ih (m := m.alternation emit) (by rw [hnext]; exact Psg.soundStep_valid hv) (by rw [hnext]; exact Psg.soundStep_levels m.psg)
      (by rw [hnext]; exact Nat.succ_lt_succ haccs) (by rw [hnext]; exact hq.next hv)
    rw [alternations_succ, hrest, hnext]
    dsimp only
    have hlevel : m.psg.soundStep.chanLevel = m.psg.chanLevel := by rw [hstep, hlevels]
    have hpsg : Psg.skip k m.psg.soundStep = Psg.skip (k + 1) m.psg := by
      rw [hstep, Psg.skip_skip, ← hlevels, Nat.add_comm 1 k]
      rfl
    rw [hlevel, hpsg, accumulates_succ, Nat.add_assoc, Nat.add_assoc, Nat.add_comm 1 k]

variable (emit) in
theorem turn_eq (target : Nat) (hlt : m.steps < target) (hv : m.psg.Valid) : ∃ k, m.turn emit target = alternations emit (k + 1) m ∧
    m.steps + (k + 1) ≤ target ∧ (m.turn emit target).steps = m.steps + (k + 1) ∧ (m.turn emit target).psg.Valid := by
  -- the pair for real, after which the levels are the mixer's
  have hsteps : (m.alternation emit).steps = m.steps + 1 := congrArg (· + 1) (catchUp_steps emit m)
  have hpsg : (m.alternation emit).psg = m.psg.soundStep := congrArg Psg.soundStep (catchUp_psg emit m)
  have hlevels : (m.alternation emit).psg.chanLevel = (m.alternation emit).psg.mixed := by
    rw [hpsg]
    exact Psg.soundStep_levels m.psg
  have hva : (m.alternation emit).psg.Valid := by
    rw [hpsg]
    exact Psg.soundStep_valid hv
  have hall : ∀ k, alternations emit (k + 1) m = alternations emit k (m.alternation emit) := fun k => alternations_succ k m
  have hturn : m.turn emit target = if 0 < (m.alternation emit).foldable target
      then (m.alternation emit).fold emit ((m.alternation emit).foldable target) else m.alternation emit := rfl
  generalize m.alternation emit = a at *
  rw [hturn]
  by_cases hpos : 0 < a.foldable target
  · -- then the quiet pairs
    rw [if_pos hpos]
    have hcan : a.steps < target ∧ a.accs < a.steps := by
      by_contra hnot
      rw [foldable, if_neg hnot] at hpos
      exact Nat.lt_irrefl 0 hpos
    have hk : a.foldable target < a.psg.quietSteps ∧ a.foldable target ≤ target - a.steps := by
      rw [foldable, if_pos hcan] at hpos ⊢
      dsimp only at hpos ⊢
      split at hpos <;> split <;> omega
    generalize a.foldable target = k at hk
    refine ⟨k, ((hall k).trans (fold_eq hva hlevels hcan.2 k hk.1)).symm, by omega, ?_, Psg.skip_valid hva (Psg.quiet_of_lt hk.1)⟩
    change a.steps + k = _
    omega
  · rw [if_neg hpos]
    exact ⟨0, (hall 0).symm, by omega, hsteps, hva⟩

/-- **The drain takes the pairs one at a time, in effect.** -/
theorem fsAudioSteps_eq (target : Nat) (hv : m.psg.Valid) :
    fsAudioSteps emit target m = alternations emit (target - m.steps) m := by
  induction hleft : target - m.steps using Nat.strongRecOn generalizing m with
  | ind left ih =>
    rw [fsAudioSteps]
    by_cases hlt : m.steps < target
    · obtain ⟨k, heq, hle, hsteps, hvt⟩ := turn_eq emit target hlt hv
      rw [if_pos hlt, ih (target - (m.turn emit target).steps) (by omega) hvt rfl, hsteps, heq, ← alternations_add]
      congr 1
      omega
    · obtain rfl : left = 0 := by omega
      rw [if_neg hlt]
      rfl

/-- **Skipping quiet spans is exact.** A skip leaves what so many steps leave, but for the channel levels,
    which the steps set to the mixer's; where they are the mixer's already, as they are after a step, it
    leaves the same state. The drain, which skips behind a step only, emits what the pairs of accumulate
    and step emit. -/
theorem quiet_skip_exact {p : Psg} (hp : p.Reachable) :
    (∀ n < p.quietSteps, Psg.steps n p = { Psg.skip n p with chanLevel := if n = 0 then p.chanLevel else p.mixed }) ∧
    (∀ n < p.quietSteps, p.chanLevel = p.mixed → Psg.skip n p = Psg.steps n p) ∧
    p.soundStep.chanLevel = p.soundStep.mixed ∧
    ∀ (φ ε : Type) (emit : Emit φ) (target : Nat) (m : Audio φ ε), m.psg = p →
      fsAudioSteps emit target m = alternations emit (target - m.steps) m := by
  have hsteps := fun n (hn : n < p.quietSteps) => Psg.steps_eq_skip hp.valid n (Psg.quiet_of_lt hn)
  refine ⟨hsteps, fun n hn hlevels => ?_, Psg.soundStep_levels p, fun φ ε emit target m hm => ?_⟩
  · rw [hsteps n hn, ← hlevels, ite_self]
    rfl
  · exact fsAudioSteps_eq target (hm ▸ hp.valid)

/-- A register written over the lines of the AY. -/
def write (p : Psg) (reg val : UInt8) : Psg := (p.fastLines true true reg).fastLines true false val

/-- Three tones, noise on channel B and an envelope on channel A, one step after they were programmed. -/
def programmed : Psg :=
  ([(1, 0x01), (3, 0x02), (5, 0x03), (6, 0x1F), (7, 0x2E), (8, 0x10), (9, 0x0C), (10, 0x0F), (12, 0x01), (13, 0x0A)].foldl
    (fun p reg => write p reg.1 reg.2) {}).soundStep

theorem programmed_reachable : programmed.Reachable := by
  have hwrites : ∀ (regs : List (UInt8 × UInt8)) (p : Psg), p.Reachable →
      (regs.foldl (fun p reg => write p reg.1 reg.2) p).Reachable := by
    intro regs
    induction regs with
    | nil => exact fun _ hp => hp
    | cons reg regs ih => exact fun p hp => ih _ (.fastLines _ _ _ (.fastLines _ _ _ hp))
  exact .batchStep (hwrites _ _ .init)

/-- Two hundred steps, skipped. -/
theorem quiet_skip_programmed : Psg.skip 200 programmed = Psg.steps 200 programmed :=
  (quiet_skip_exact programmed_reachable).2.1 200 (by decide) (Psg.soundStep_levels _)

/-- A PSG on which the mixer register has just been written. -/
def mixerWritten : Psg := (({} : Psg).fastLines true true 7).fastLines true false 0x3F

/-- The step sets the level of channel A, and the skip leaves it. -/
theorem skip_stale_level : ¬ ∀ p : Psg, p.Reachable → ∀ n < p.quietSteps, Psg.skip n p = Psg.steps n p := by
  intro hall
  have heq := hall mixerWritten (.fastLines _ _ _ (.fastLines _ _ _ .init)) 1 (by decide)
  exact absurd (congrArg (fun p => p.chanLevel 0) heq) (by decide)

end Audio

end Koncepcja.Sound
