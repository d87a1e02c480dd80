import Mathlib.Logic.Function.Iterate
import Koncepcja.Tape.Deck
import Koncepcja.Tape.Tzx

/-!
# Playback is the Pulse Expansion

A deck plays an image pulse by pulse: `Plays t l` says that from `t` on the deck loads the pulses
and pauses of `l`, in this order and at these levels, and then stops. The stages of a block (tone,
sync, data bits, samples, pulse table) are followed one at a time, each lemma handing over to
whatever plays behind it.

## Main results

- `tick_run`: a loaded pulse is held for its time and then expires, whatever the level does.
- `resumes_block`: a regular block plays its expansion and leaves the deck at the next block.
- `playback_expands`: an image of regular blocks plays its expansion.
-/

namespace Koncepcja.Tape

open Koncepcja.Bits Koncepcja.Bytes

/-! ## Runs of the deck -/

namespace TapeState

/-- The deck has just loaded a pulse, or a pause. -/
def Starts (t : TapeState) (p : Pulse) : Prop :=
  t.level = p.level ∧
    match p.span with
    | .tstates ts => t.phase ≠ .idle ∧ t.phase ≠ .pause ∧ t.subRemaining = subUnits ts
    | .millis ms => t.phase = .pause ∧ t.pauseCycles = ms * kCyclesPerMs

/-- What `tape_tick` does when the count of the pulse or the pause has run out. -/
def expire (t : TapeState) : TapeState := if t.phase = .pause then t.startBlock else t.pulseDone

end TapeState

/-- From `t` on the deck plays exactly the pulses and pauses of the list, and stops. -/
inductive Plays : TapeState → List Pulse → Prop
  | stopped {t : TapeState} (h : t.phase = .idle) : Plays t []
  | next {t : TapeState} {p : Pulse} {l : List Pulse} (h : t.Starts p) (h' : Plays t.expire l) :
      Plays t (p :: l)

/-- Whatever deck stands before the block at `pos` plays `l`. -/
def Resumes (image : List UInt8) (pos : Nat) (level : Bool) (stale : Nat) (l : List Pulse) : Prop :=
  ∀ (fuel : Nat) (t : TapeState), t.cdt = some image → t.pos = pos → t.level = level → t.pauseMs = stale →
    image.length < pos + fuel → Plays (t.startFrom fuel) l

section
variable {image : List UInt8} {pos : Nat} {level : Bool} {stale : Nat} {l : List Pulse}

theorem Resumes.startBlock (h : Resumes image pos level stale l) {t : TapeState} (hcdt : t.cdt = some image)
    (hpos : t.pos = pos) (hlevel : t.level = level) (hstale : t.pauseMs = stale) : Plays t.startBlock l := by
  refine h _ t hcdt hpos hlevel hstale ?_
  rw [hcdt, Option.getD_some]
  omega

theorem resumes_end (hpos : image.length ≤ pos) : Resumes image pos level stale [] := by
  intro fuel t hcdt hp _ _ hfuel
  cases fuel with
  | zero => exact .stopped rfl
  | succ fuel =>
    rw [TapeState.startFrom, hcdt]
    simp only [hp, hpos, if_true]
    exact .stopped rfl

theorem plays_nextBlock {t : TapeState} (hcdt : t.cdt = some image) (hpos : t.pos = pos)
    (h : Resumes image pos (pauseLevel t.pauseMs t.level) 0 l) :
    Plays t.nextBlock (pausePulses t.pauseMs ++ l) := by
  by_cases hms : t.pauseMs = 0
  · rw [pausePulses, if_pos hms, List.nil_append]
    rw [pauseLevel, if_pos hms] at h
    simp only [TapeState.nextBlock, hms, ne_eq, not_true, if_false]
    exact h.startBlock hcdt hpos rfl rfl
  · rw [pausePulses, if_neg hms]
    rw [pauseLevel, if_neg hms] at h
    simp only [TapeState.nextBlock, ne_eq, hms, not_false_eq_true, if_true]
    exact .next ⟨rfl, rfl, rfl⟩ (h.startBlock hcdt hpos rfl rfl)

end

/-! ## The count of a pulse -/

section
variable {t : TapeState}

theorem tick_pulse (hplaying : t.playing = true) (hline : t.lineMode = false) (hidle : t.phase ≠ .idle)
    (hpause : t.phase ≠ .pause) :
    t.tick true =
      let u : TapeState := { t with motorSeen := true, subRemaining := t.subRemaining - kSubPerCycle }
      if u.subRemaining ≤ 0 then u.pulseDone else u := by
  simp only [TapeState.tick, hplaying, hline, hidle, hpause, ne_eq, not_false_eq_true, and_self, if_true, if_false,
    Bool.false_eq_true]

/-- The deck `k` cycles into a pulse. -/
def TapeState.held (t : TapeState) (ts k : Nat) : TapeState :=
  { t with motorSeen := t.motorSeen || 0 < k, subRemaining := subUnits ts - kSubPerCycle * k }

/-- A loaded pulse is held for ⌈32·ts/7⌉ master cycles, one at least, and then expires. -/
theorem tick_run {ts : Nat} {level : Bool} (hstart : t.Starts ⟨.tstates ts, level⟩) (hplaying : t.playing = true)
    (hline : t.lineMode = false) :
    (∀ k ≤ (kSubPerTs * ts - 1) / 7, (TapeState.tick true)^[k] t = t.held ts k) ∧
    (TapeState.tick true)^[(kSubPerTs * ts - 1) / 7 + 1] t = (t.held ts ((kSubPerTs * ts - 1) / 7 + 1)).pulseDone := by
  obtain ⟨-, hidle, hpause, hsub⟩ := hstart
  -- one cycle more: the count goes down by seven whether or not it runs out
  have hcount : ∀ k, ({ t.held ts k with
      motorSeen := true, subRemaining := (t.held ts k).subRemaining - kSubPerCycle } : TapeState) = t.held ts (k + 1) := by
    intro k
    simp only [TapeState.held]
    congr 1
    · simp
    · simp only [kSubPerCycle]
      omega
  have hstep : ∀ k, (t.held ts k).tick true =
      if (t.held ts (k + 1)).subRemaining ≤ 0 then (t.held ts (k + 1)).pulseDone else t.held ts (k + 1) := by
    intro k
    rw [← hcount k]
    exact @tick_pulse (t.held ts k) hplaying hline hidle hpause
  have hheld : ∀ k ≤ (kSubPerTs * ts - 1) / 7, (TapeState.tick true)^[k] t = t.held ts k := by
    intro k
    induction k with
    | zero =>
      intro _
      rw [Function.iterate_zero, id_eq, TapeState.held, ← hsub]
      simp [kSubPerCycle]
    | succ k ih =>
      intro hk
      have hleft : ¬ (t.held ts (k + 1)).subRemaining ≤ 0 := by
        simp only [TapeState.held, subUnits, kSubPerCycle, kSubPerTs] at hk ⊢
        omega
      rw [Function.iterate_succ_apply', ih (by omega), hstep, if_neg hleft]
  refine ⟨hheld, ?_⟩
  have hout : (t.held ts ((kSubPerTs * ts - 1) / 7 + 1)).subRemaining ≤ 0 := by
    simp only [TapeState.held, subUnits, kSubPerCycle, kSubPerTs]
    omega
  rw [Function.iterate_succ_apply', hheld _ (Nat.le_refl _), hstep, if_pos hout]

theorem tick_run_pilot :
    let t : TapeState := { phase := .pilot, playing := true, subRemaining := 32 }
    (TapeState.tick true)^[5] t = (t.held 1 5).pulseDone :=
  (@tick_run { phase := .pilot, playing := true, subRemaining := 32 } 1 false (by simp [TapeState.Starts, subUnits, kSubPerTs])
    rfl rfl).2

end

/-! ## Stages of a block -/

theorem ofNat_succ_sub_one (n : Nat) : BitVec.ofNat 16 (n + 1) - 1#16 = BitVec.ofNat 16 n := by
  rw [BitVec.ofNat_add, BitVec.add_sub_cancel]

theorem ofNat_succ_ne_zero {n : Nat} (h : n + 1 < 65536) : BitVec.ofNat 16 (n + 1) ≠ 0#16 := by
  intro heq
  have hnat := congrArg BitVec.toNat heq
  rw [BitVec.toNat_ofNat, Nat.mod_eq_of_lt h] at hnat
  exact absurd hnat (Nat.succ_ne_zero n)

theorem starts_of_phase {t : TapeState} {ts : Nat} (hidle : t.phase ≠ .idle) (hpause : t.phase ≠ .pause)
    (hsub : t.subRemaining = subUnits ts) : t.Starts ⟨.tstates ts, t.level⟩ :=
  ⟨rfl, hidle, hpause, hsub⟩

section
variable {t : TapeState} {l : List Pulse}

theorem plays_tone {n : Nat} (hphase : t.phase = .pilot) (hleft : t.pulsesLeft = BitVec.ofNat 16 (n + 1))
    (hn : n + 1 < 65536) (hsub : t.subRemaining = subUnits t.tPilot)
    (h : Plays (TapeState.pilotDone { t with
      level := flips t.level (n + 1), pulsesLeft := 0#16, subRemaining := subUnits t.tPilot }) l) :
    Plays t (alternate t.level (List.replicate (n + 1) t.tPilot) ++ l) := by
  have hstart : t.Starts ⟨.tstates t.tPilot, t.level⟩ :=
    starts_of_phase (by rw [hphase]; decide) (by rw [hphase]; decide) hsub
  induction n generalizing t with
  | zero =>
    refine .next hstart ?_
    have hexp : t.expire = TapeState.pilotDone { t with
        level := flips t.level (0 + 1), pulsesLeft := 0#16, subRemaining := subUnits t.tPilot } := by
      simp [TapeState.expire, TapeState.pulseDone, hphase, hleft, hsub, flips]
    rw [hexp]
    exact h
  | succ n ih =>
    refine .next hstart ?_
    have hexp : t.expire = { t with
        level := !t.level, pulsesLeft := BitVec.ofNat 16 (n + 1), subRemaining := subUnits t.tPilot } := by
      have hdec := ofNat_succ_sub_one (n + 1)
      have hne := ofNat_succ_ne_zero (n := n) (by omega)
      simp only [TapeState.expire, TapeState.pulseDone, TapeState.loadPulse, hphase, hleft]
      simp [hdec, hne]
    rw [hexp]
    refine ih hphase rfl (by omega) rfl ?_ ?_
    · rw [flips_succ] at h
      exact h
    · exact starts_of_phase (by rw [hphase]; decide) (by rw [hphase]; decide) rfl

theorem plays_sync (hphase : t.phase = .sync1) (hsub : t.subRemaining = subUnits t.tSync1)
    (h : Plays { t with
      phase := .data, pulseHalf := false
      subRemaining := subUnits (t.bitTime (byteBit (t.rd8 t.dataOff) 0)) } l) :
    Plays t (alternate t.level [t.tSync1, t.tSync2] ++ l) := by
  refine .next (starts_of_phase (by rw [hphase]; decide) (by rw [hphase]; decide) hsub) ?_
  have hfirst : t.expire = { t with
      level := !t.level, phase := .sync2, subRemaining := subUnits t.tSync2 } := by
    simp [TapeState.expire, TapeState.pulseDone, TapeState.loadPulse, hphase]
  rw [hfirst]
  refine .next ⟨rfl, Phase.noConfusion, Phase.noConfusion, rfl⟩ ?_
  have hsecond : TapeState.expire { t with
      level := !t.level, phase := .sync2, subRemaining := subUnits t.tSync2 } = { t with
      phase := .data, pulseHalf := false
      subRemaining := subUnits (t.bitTime (byteBit (t.rd8 t.dataOff) 0)) } := by
    simp only [TapeState.expire, TapeState.pulseDone, TapeState.loadPulse, Bool.not_not]
    rfl
  rw [hsecond]
  exact h

/-! ## Data bits -/

/-- `m` bits of a packed field from bit `k` on. -/
def bitsFrom (data : List UInt8) (k m : Nat) : List Bool := (List.range' k m).map (bitAt data)

theorem unpack_eq_bitsFrom (data : List UInt8) (n : Nat) : unpack data n = bitsFrom data 0 n := by
  rw [unpack, bitsFrom, List.range_eq_range']

theorem bitsFrom_succ (data : List UInt8) (k m : Nat) :
    bitsFrom data k (m + 1) = bitAt data k :: bitsFrom data (k + 1) m := rfl

/-- The data field of the block under way, and how many bits of it count. -/
structure DataField (t : TapeState) (data : List UInt8) (used : Nat) : Prop where
  length : t.dataLen = data.length
  used_eq : t.lastUsed = used
  bytes : ∀ i < data.length, t.rd8 (t.dataOff + i) = byteAt data i
  pos : 0 < data.length
  used_pos : 0 < used
  used_le : used ≤ 8

theorem DataField.congr {s : TapeState} {data : List UInt8} {used : Nat} (hf : DataField t data used)
    (hcdt : s.cdt = t.cdt) (hoff : s.dataOff = t.dataOff) (hlen : s.dataLen = t.dataLen)
    (hused : s.lastUsed = t.lastUsed) : DataField s data used where
  length := hlen.trans hf.length
  used_eq := hused.trans hf.used_eq
  bytes := fun i hi => by
    rw [TapeState.rd8, hcdt, hoff]
    exact hf.bytes i hi
  pos := hf.pos
  used_pos := hf.used_pos
  used_le := hf.used_le

theorem DataField.bitCount_eq {data : List UInt8} {used : Nat} (hf : DataField t data used) :
    bitCount data used = 8 * (data.length - 1) + used :=
  if_neg (List.ne_nil_of_length_pos hf.pos)

/-- The cursor stands at bit `k` of the field. -/
structure AtBit (t : TapeState) (data : List UInt8) (used k : Nat) : Prop extends DataField t data used where
  byteIdx : t.byteIdx = k / 8
  bitIdx : t.bitIdx = k % 8

section
variable {data : List UInt8} {used k : Nat}

theorem AtBit.congr {s : TapeState} (ha : AtBit t data used k) (hcdt : s.cdt = t.cdt) (hoff : s.dataOff = t.dataOff)
    (hlen : s.dataLen = t.dataLen) (hused : s.lastUsed = t.lastUsed) (hbyte : s.byteIdx = t.byteIdx)
    (hbit : s.bitIdx = t.bitIdx) : AtBit s data used k where
  toDataField := ha.toDataField.congr hcdt hoff hlen hused
  byteIdx := hbyte.trans ha.byteIdx
  bitIdx := hbit.trans ha.bitIdx

theorem AtBit.curBit (ha : AtBit t data used k) (hk : k < bitCount data used) : t.curBit = bitAt data k := by
  have hle := ha.used_le
  have hpos := ha.pos
  rw [ha.bitCount_eq] at hk
  rw [TapeState.curBit, ha.byteIdx, ha.bitIdx, ha.bytes (k / 8) (by omega)]
  rfl

theorem AtBit.next (ha : AtBit t data used k) (hk : k + 1 < bitCount data used) :
    AtBit t.stepBit data used (k + 1) := by
  have hle := ha.used_le
  rw [ha.bitCount_eq] at hk
  refine ⟨ha.toDataField.congr rfl rfl rfl rfl, ?_, ?_⟩ <;>
    simp only [TapeState.stepBit, ha.byteIdx, ha.bitIdx, ha.length, ha.used_eq] <;>
    by_cases hlast : k / 8 + 1 = data.length
  · rw [if_pos hlast, if_neg (by omega)]
    omega
  · rw [if_neg hlast]
    split <;> omega
  · rw [if_pos hlast, if_neg (by omega)]
    omega
  · rw [if_neg hlast]
    split <;> omega

theorem AtBit.stays (ha : AtBit t data used k) (hk : k + 1 < bitCount data used) :
    ¬ t.stepBit.dataLen ≤ t.stepBit.byteIdx := by
  have hnext := ha.next hk
  have hle := ha.used_le
  have hpos := ha.pos
  rw [ha.bitCount_eq] at hk
  rw [hnext.length, hnext.byteIdx]
  omega

theorem AtBit.leaves (ha : AtBit t data used k) (hk : k + 1 = bitCount data used) :
    t.stepBit.dataLen ≤ t.stepBit.byteIdx := by
  have hle := ha.used_le
  have hpos := ha.pos
  have hused := ha.used_pos
  rw [ha.bitCount_eq] at hk
  have hlast : k / 8 + 1 = data.length := by omega
  simp only [TapeState.stepBit, ha.byteIdx, ha.bitIdx, ha.length, ha.used_eq]
  rw [if_pos hlast, if_pos (by omega)]
  exact Nat.le_of_eq hlast.symm

end

/-- The block's stage is over: the deck goes on with the pause or the next block. -/
def Ends (t : TapeState) (level : Bool) (l : List Pulse) : Prop :=
  ∀ s : TapeState, s.cdt = t.cdt → s.pos = t.pos → s.level = level → s.pauseMs = t.pauseMs → Plays s.nextBlock l

theorem expire_data_first (hphase : t.phase = .data) (hhalf : t.pulseHalf = false) :
    t.expire = { t with
      level := !t.level, pulseHalf := true, subRemaining := subUnits (t.bitTime t.curBit) } := by
  simp only [TapeState.expire, TapeState.pulseDone, TapeState.loadPulse, hphase, hhalf]
  rfl

theorem expire_data_second (hphase : t.phase = .data) (hhalf : t.pulseHalf = true) :
    t.expire =
      let u := TapeState.stepBit { t with level := !t.level, pulseHalf := false }
      if u.dataLen ≤ u.byteIdx then u.nextBlock else u.loadPulse (u.bitTime u.curBit) := by
  simp only [TapeState.expire, TapeState.pulseDone, hphase, hhalf]
  rfl

theorem plays_bit {data : List UInt8} {used k : Nat} (ha : AtBit t data used k) (hphase : t.phase = .data)
    (hhalf : t.pulseHalf = false) (hsub : t.subRemaining = subUnits (t.bitTime (bitAt data k)))
    (hk : k < bitCount data used)
    (h : Plays (if t.stepBit.dataLen ≤ t.stepBit.byteIdx then t.stepBit.nextBlock
      else t.stepBit.loadPulse (t.stepBit.bitTime t.stepBit.curBit)) l) :
    Plays t (⟨.tstates (t.bitTime (bitAt data k)), t.level⟩ ::
      ⟨.tstates (t.bitTime (bitAt data k)), !t.level⟩ :: l) := by
  have hnext : ∀ s : TapeState, s.phase = .data → s.subRemaining = subUnits (t.bitTime (bitAt data k)) →
      s.Starts ⟨.tstates (t.bitTime (bitAt data k)), s.level⟩ := fun s hs hsub' =>
    starts_of_phase (by rw [hs]; decide) (by rw [hs]; decide) hsub'
  refine .next (hnext t hphase hsub) ?_
  rw [expire_data_first hphase hhalf, ha.curBit hk]
  refine .next (hnext _ hphase rfl) ?_
  rw [expire_data_second (by exact hphase) rfl]
  have hsame : ({ t with
      level := !!t.level, pulseHalf := false, subRemaining := subUnits (t.bitTime (bitAt data k)) } : TapeState) = t := by
    rw [Bool.not_not, ← hsub, ← hhalf]
  rw [hsame]
  exact h

theorem plays_data {data : List UInt8} {used k m : Nat} (ha : AtBit t data used k) (hphase : t.phase = .data)
    (hhalf : t.pulseHalf = false) (hsub : t.subRemaining = subUnits (t.bitTime (bitAt data k)))
    (hk : k + m + 1 = bitCount data used) (h : Ends t t.level l) :
    Plays t (alternate t.level (bitPulses t.tBit0 t.tBit1 (bitsFrom data k (m + 1))) ++ l) := by
  rw [bitsFrom_succ, bitPulses_cons, alternate, alternate, Bool.not_not, List.cons_append, List.cons_append]
  induction m generalizing t k with
  | zero =>
    refine plays_bit ha hphase hhalf hsub (by omega) ?_
    rw [if_pos (ha.leaves (by omega))]
    exact h _ rfl rfl rfl rfl
  | succ m ih =>
    refine plays_bit ha hphase hhalf hsub (by omega) ?_
    have hnext := ha.next (by omega)
    rw [if_neg (ha.stays (by omega)), hnext.curBit (by omega), bitsFrom_succ, bitPulses_cons, alternate, alternate,
      Bool.not_not]
    exact @ih (t.stepBit.loadPulse (t.stepBit.bitTime (bitAt data (k + 1)))) (k + 1)
      (hnext.congr rfl rfl rfl rfl rfl rfl) hphase hhalf rfl (by omega) h

/-! ## Samples -/

theorem expire_direct (hphase : t.phase = .direct) :
    t.expire = if t.stepBit.dataLen ≤ t.stepBit.byteIdx then t.stepBit.nextBlock
      else ({ t.stepBit with level := t.stepBit.curBit } : TapeState).loadPulse t.tBit0 := by
  cases t
  cases hphase
  simp only [TapeState.expire, TapeState.pulseDone, Bool.not_not]
  rfl

theorem plays_direct {data : List UInt8} {used k m : Nat} (ha : AtBit t data used k) (hphase : t.phase = .direct)
    (hlevel : t.level = bitAt data k) (hsub : t.subRemaining = subUnits t.tBit0)
    (hk : k + m + 1 = bitCount data used) (h : Ends t (bitAt data (k + m)) l) :
    Plays t ((bitsFrom data k (m + 1)).map (fun bit => ⟨.tstates t.tBit0, bit⟩) ++ l) := by
  have hstart : t.Starts ⟨.tstates t.tBit0, bitAt data k⟩ :=
    hlevel ▸ starts_of_phase (by rw [hphase]; decide) (by rw [hphase]; decide) hsub
  induction m generalizing t k with
  | zero =>
    refine .next hstart ?_
    rw [expire_direct hphase, if_pos (ha.leaves (by omega))]
    exact h _ rfl rfl hlevel rfl
  | succ m ih =>
    have hnext := ha.next (by omega)
    rw [bitsFrom_succ, List.map_cons, List.cons_append]
    refine .next hstart ?_
    rw [expire_direct hphase, if_neg (ha.stays (by omega)), hnext.curBit (by omega)]
    have hend : Ends t (bitAt data (k + 1 + m)) l := by
      rw [Nat.add_right_comm, Nat.add_assoc]
      exact h
    exact ih (hnext.congr rfl rfl rfl rfl rfl rfl) hphase rfl rfl (by omega) hend
      (starts_of_phase (fun hc => absurd (hphase.symm.trans hc) (by decide))
        (fun hc => absurd (hphase.symm.trans hc) (by decide)) rfl)

/-! ## The pulse table -/

theorem expire_pulseSeq (hphase : t.phase = .pulseSeq) :
    t.expire =
      if t.pulsesLeft - 1 ≠ 0 then
        ({ t with level := !t.level, pulsesLeft := t.pulsesLeft - 1, seqIdx := t.seqIdx + 1 } : TapeState).loadPulse
          (t.rd16 (t.dataOff + (t.seqIdx + 1) * 2))
      else ({ t with level := !t.level, pulsesLeft := t.pulsesLeft - 1 } : TapeState).nextBlock := by
  simp only [TapeState.expire, TapeState.pulseDone, hphase]
  rfl

theorem plays_pulseSeq {m : Nat} (hphase : t.phase = .pulseSeq) (hleft : t.pulsesLeft = BitVec.ofNat 16 (m + 1))
    (hm : m + 1 < 65536) (hsub : t.subRemaining = subUnits (t.rd16 (t.dataOff + t.seqIdx * 2)))
    (h : Ends t (flips t.level (m + 1)) l) :
    Plays t (alternate t.level ((List.range' t.seqIdx (m + 1)).map fun i => t.rd16 (t.dataOff + i * 2)) ++ l) := by
  have hstart : t.Starts ⟨.tstates (t.rd16 (t.dataOff + t.seqIdx * 2)), t.level⟩ :=
    starts_of_phase (by rw [hphase]; decide) (by rw [hphase]; decide) hsub
  induction m generalizing t with
  | zero =>
    refine .next hstart ?_
    rw [expire_pulseSeq hphase, if_neg (by rw [hleft]; decide)]
    exact h _ rfl rfl rfl rfl
  | succ m ih =>
    rw [List.range'_succ, List.map_cons, alternate, List.cons_append]
    refine .next hstart ?_
    have hdec := ofNat_succ_sub_one (m + 1)
    have hne := @ofNat_succ_ne_zero m (by omega)
    rw [expire_pulseSeq hphase, if_pos (by rw [hleft]; exact hdec ▸ hne)]
    rw [flips_succ] at h
    exact @ih (({ t with level := !t.level, pulsesLeft := t.pulsesLeft - 1, seqIdx := t.seqIdx + 1 } :
        TapeState).loadPulse (t.rd16 (t.dataOff + (t.seqIdx + 1) * 2)))
      hphase (by rw [← hdec, ← hleft]; rfl) (by omega) rfl h
      (starts_of_phase (fun hc => absurd (hphase.symm.trans hc) (by decide))
        (fun hc => absurd (hphase.symm.trans hc) (by decide)) rfl)

/-! ## Whole blocks of data -/

theorem ends_of_resumes {image : List UInt8} {pos : Nat} {level : Bool} (hcdt : t.cdt = some image)
    (hpos : t.pos = pos) (h : Resumes image pos (pauseLevel t.pauseMs level) 0 l) :
    Ends t level (pausePulses t.pauseMs ++ l) := by
  intro s hscdt hspos hslevel hspause
  rw [← hspause]
  apply plays_nextBlock (hscdt.trans hcdt) (hspos.trans hpos)
  rw [hspause, hslevel]
  exact h

theorem plays_field {data : List UInt8} {used : Nat} (hf : DataField t data used) (hbyte : t.byteIdx = 0)
    (hbit : t.bitIdx = 0) (hphase : t.phase = .data) (hhalf : t.pulseHalf = false)
    (hsub : t.subRemaining = subUnits (t.bitTime (byteBit (t.rd8 t.dataOff) 0))) (h : Ends t t.level l) :
    Plays t (alternate t.level (bitPulses t.tBit0 t.tBit1 (dataBits data used)) ++ l) := by
  have hfirst : byteBit (t.rd8 t.dataOff) 0 = bitAt data 0 := by
    have hbyte0 := hf.bytes 0 hf.pos
    rw [Nat.add_zero] at hbyte0
    rw [hbyte0]
    rfl
  obtain ⟨m, hm⟩ : ∃ m, bitCount data used = m + 1 := by
    have hused := hf.used_pos
    exact ⟨bitCount data used - 1, by rw [hf.bitCount_eq]; omega⟩
  rw [dataBits, unpack_eq_bitsFrom, hm]
  exact plays_data ⟨hf, hbyte, hbit⟩ hphase hhalf (hfirst ▸ hsub) (by omega) h

theorem plays_loader {data : List UInt8} {used n : Nat} (hf : DataField t data used) (hbyte : t.byteIdx = 0)
    (hbit : t.bitIdx = 0) (hphase : t.phase = .pilot) (hleft : t.pulsesLeft = BitVec.ofNat 16 (n + 1))
    (hn : n + 1 < 65536) (hsub : t.subRemaining = subUnits t.tPilot) (h : Ends t (flips t.level (n + 1)) l) :
    Plays t (alternate t.level (List.replicate (n + 1) t.tPilot ++ [t.tSync1, t.tSync2] ++
      bitPulses t.tBit0 t.tBit1 (dataBits data used)) ++ l) := by
  have hdata : ¬ (t.dataOff = 0 ∧ t.dataLen = 0) := by
    have hpos := hf.pos
    rw [hf.length]
    omega
  have hsync : flips t.level (n + 1 + 2) = flips t.level (n + 1) := by
    rw [flips_add, flips_succ, flips_succ, flips_zero, Bool.not_not]
  rw [alternate_append, alternate_append, List.length_append, List.length_replicate, List.append_assoc,
    List.append_assoc]
  refine plays_tone hphase hleft hn hsub ?_
  simp only [TapeState.pilotDone, hdata, if_false]
  refine plays_sync rfl rfl ?_
  rw [show n + 1 + [t.tSync1, t.tSync2].length = n + 1 + 2 from rfl, hsync]
  exact plays_field (hf.congr rfl rfl rfl rfl) hbyte hbit rfl rfl rfl h

end

/-! ## Reading a stored block -/

theorem le16_value {n : Nat} (h : n < 65536) :
    (UInt8.ofNat n).toNat + 256 * (UInt8.ofNat (n / 256)).toNat = n := by
  simp only [UInt8.toNat_ofNat']
  omega

theorem le24_value {n : Nat} (h : n < 2 ^ 24) :
    (UInt8.ofNat n).toNat + 256 * (UInt8.ofNat (n / 256)).toNat + 65536 * (UInt8.ofNat (n / 256 / 256)).toNat = n := by
  simp only [UInt8.toNat_ofNat']
  omega

/-- The deck holds an image, cut at some offset; offsets do not wrap. -/
structure Cut (t : TapeState) (front tail : List UInt8) : Prop where
  cdt : t.cdt = some (front ++ tail)
  length_lt : (front ++ tail).length < 2 ^ 32

section
variable {t : TapeState} {front tail : List UInt8}

theorem Cut.rd8 (h : Cut t front tail) {i : Nat} (hi : i < tail.length) :
    t.rd8 (front.length + i) = byteAt tail i := by
  have hlen := h.length_lt
  rw [List.length_append] at hlen
  have hu : u32 (front.length + i) = front.length + i := Nat.mod_eq_of_lt (by omega)
  rw [TapeState.rd8, h.cdt, Option.getD_some, hu, byteAt, byteAt, List.getD_append_right _ _ _ _ (by omega),
    Nat.add_sub_cancel_left]

theorem byteAt_of_drop {i : Nat} {b : UInt8} {rest : List UInt8} (h : tail.drop i = b :: rest) :
    i < tail.length ∧ byteAt tail i = b := by
  have hi : i < tail.length := by
    by_contra hge
    rw [List.drop_eq_nil_of_le (by omega)] at h
    exact absurd h (by simp)
  refine ⟨hi, ?_⟩
  rw [List.drop_eq_getElem_cons hi] at h
  rw [byteAt, List.getD_eq_getElem _ _ hi]
  exact (List.cons.inj h).1

theorem drop_succ_of_drop {i : Nat} {b : UInt8} {rest : List UInt8} (h : tail.drop i = b :: rest) :
    tail.drop (i + 1) = rest := by
  rw [← List.drop_drop, h, List.drop_one, List.tail_cons]

theorem Cut.rd8_of_drop (h : Cut t front tail) {i : Nat} {b : UInt8} {rest : List UInt8}
    (hi : tail.drop i = b :: rest) : t.rd8 (front.length + i) = b := by
  obtain ⟨hlt, hb⟩ := byteAt_of_drop hi
  rw [h.rd8 hlt, hb]

theorem Cut.rd16_of_drop (h : Cut t front tail) {i n : Nat} {rest : List UInt8} (hi : tail.drop i = le16 n ++ rest)
    (hn : n < 65536) : t.rd16 (front.length + i) = n := by
  have hsucc := drop_succ_of_drop hi
  rw [TapeState.rd16, h.rd8_of_drop hi, Nat.add_assoc, h.rd8_of_drop hsucc]
  exact le16_value hn

theorem Cut.rd24_of_drop (h : Cut t front tail) {i n : Nat} {rest : List UInt8} (hi : tail.drop i = le24 n ++ rest)
    (hn : n < 2 ^ 24) : t.rd24 (front.length + i) = n := by
  have hsucc := drop_succ_of_drop hi
  have hsucc' := drop_succ_of_drop hsucc
  rw [TapeState.rd24, TapeState.rd16, h.rd8_of_drop hi, Nat.add_assoc front.length, h.rd8_of_drop hsucc,
    Nat.add_assoc front.length, h.rd8_of_drop hsucc']
  exact le24_value hn

theorem Cut.bytes (h : Cut t front tail) {i : Nat} {data rest : List UInt8} (hi : tail.drop i = data ++ rest) :
    ∀ j < data.length, t.rd8 (front.length + i + j) = byteAt data j := by
  intro j hj
  have hlen : (tail.drop i).length = (data ++ rest).length := congrArg List.length hi
  rw [List.length_drop, List.length_append] at hlen
  rw [Nat.add_assoc, h.rd8 (by omega), ← byteAt_append_of_lt data rest hj, ← hi, byteAt, byteAt,
    List.getD_eq_getElem?_getD, List.getD_eq_getElem?_getD, List.getElem?_drop]

end

/-! ## Regular blocks -/

namespace Block

/-- What a block must be for the deck to play it as it stands: no pulse count, data length or
    used-bits field that is zero, and no pulse sequence behind a pause the deck still remembers. -/
def Regular (stale : Nat) : Block → Prop
  | standard _ data => data.bytes ≠ []
  | turbo _ _ _ _ _ pulses used _ data => pulses ≠ 0 ∧ data.bytes ≠ [] ∧ 1 ≤ used ∧ used ≤ 8
  | tone _ pulses => pulses ≠ 0
  | pulseSeq durations _ => durations ≠ [] ∧ stale = 0
  | pureData _ _ used _ data => data.bytes ≠ [] ∧ 1 ≤ used ∧ used ≤ 8
  | direct _ pauseMs used data => if data.bytes = [] then pauseMs = 0 else 1 ≤ used ∧ used ≤ 8
  | _ => True

/-- The pause length the deck remembers behind a regular block: those with pulses of their own
    leave none, the others keep it. -/
def staleAfter (stale : Nat) : Block → Nat
  | standard .. | turbo .. | tone .. | pulseSeq .. | pureData .. | direct .. => 0
  | _ => stale

end Block

/-- Every block up to the end, or up to a stop, is regular. -/
def RegularTape : Nat → List Block → Prop
  | _, [] => True
  | stale, b :: bs => b.stops ∨ (b.Regular stale ∧ RegularTape (b.staleAfter stale) bs)

/-! ## Block by block -/

section
variable {t : TapeState} {front rest : List UInt8} {l : List Pulse} {level : Bool}

theorem flips_add_double (level : Bool) (n m : Nat) : flips level (n + 2 * m) = flips level n := by
  have heq : (n + 2 * m) % 2 = n % 2 := by omega
  rw [flips, flips, heq]

theorem toNat_lt_65536 (v : UInt16) : v.toNat < 65536 := v.toNat_lt

theorem succ_of_ne_zero {v : UInt16} (h : v ≠ 0) : ∃ n, v.toNat = n + 1 := by
  have hne : v.toNat ≠ 0 := fun hz => h (UInt16.toNat_inj.mp hz)
  exact ⟨v.toNat - 1, by omega⟩

theorem Cut.dataField {tail : List UInt8} {w i : Nat} {data : Payload w} {used : UInt8} (h : Cut t front tail)
    (hi : tail.drop i = data.bytes ++ rest) {s : TapeState} (hcdt : s.cdt = t.cdt)
    (hoff : s.dataOff = u32 (front.length + i)) (hlen : s.dataLen = data.bytes.length)
    (hused : s.lastUsed = used.toNat) (hne : data.bytes ≠ []) (hlo : 1 ≤ used) (hhi : used ≤ 8) :
    DataField s data.bytes used.toNat := by
  have hfit : front.length + i < 2 ^ 32 := by
    have hlt := h.length_lt
    have hdrop := congrArg List.length hi
    have hpos := List.length_pos_of_ne_nil hne
    rw [List.length_drop, List.length_append] at hdrop
    rw [List.length_append] at hlt
    omega
  have hbase : s.dataOff = front.length + i := hoff.trans (Nat.mod_eq_of_lt hfit)
  refine ⟨hlen, hused, fun j hj => ?_, List.length_pos_of_ne_nil hne, ?_, UInt8.le_iff_toNat_le.mp hhi⟩
  · rw [hbase, TapeState.rd8, hcdt]
    exact h.bytes hi j hj
  · exact UInt8.le_iff_toNat_le.mp hlo

theorem Cut.u32_of_le {tail : List UInt8} (h : Cut t front tail) {n : Nat} (hn : n ≤ front.length + tail.length) :
    u32 n = n := by
  have hlt := h.length_lt
  rw [List.length_append] at hlt
  exact Nat.mod_eq_of_lt (by omega)

theorem Cut.next_pos {tail : List UInt8} {w i : Nat} {data : Payload w} (h : Cut t front tail)
    (hi : i + data.bytes.length ≤ tail.length) :
    u32 (u32 (front.length + i) + data.bytes.length) = front.length + (i + data.bytes.length) := by
  rw [h.u32_of_le (by omega : front.length + i ≤ front.length + tail.length), Nat.add_assoc]
  exact h.u32_of_le (by omega)

theorem plays_expand {b : Block} {image : List UInt8} {pos : Nat} (hsamples : b.samples = [])
    (hcdt : t.cdt = some image) (hpos : t.pos = pos) (hpause : t.pauseMs = b.pauseAfter)
    (h : Resumes image pos (b.levelAfter t.level) 0 l)
    (hplays : ∀ l', Ends t (flips t.level b.pulses.length) l' → Plays t (alternate t.level b.pulses ++ l')) :
    Plays t (b.expand t.level ++ l) := by
  rw [Block.expand, hsamples, List.map_nil, List.append_nil, List.append_assoc, ← hpause]
  apply hplays
  apply ends_of_resumes hcdt hpos
  rw [Block.levelAfter, hsamples, List.getLast?_nil, Option.getD_none, ← hpause] at h
  exact h

theorem plays_loaded {b : Block} {image data : List UInt8} {pos used n : Nat} (hf : DataField t data used)
    (hbyte : t.byteIdx = 0) (hbit : t.bitIdx = 0) (hphase : t.phase = .pilot)
    (hleft : t.pulsesLeft = BitVec.ofNat 16 (n + 1)) (hn : n + 1 < 65536) (hsub : t.subRemaining = subUnits t.tPilot)
    (hpulses : b.pulses = List.replicate (n + 1) t.tPilot ++ [t.tSync1, t.tSync2] ++
      bitPulses t.tBit0 t.tBit1 (dataBits data used))
    (hsamples : b.samples = []) (hcdt : t.cdt = some image) (hpos : t.pos = pos) (hpause : t.pauseMs = b.pauseAfter)
    (h : Resumes image pos (b.levelAfter t.level) 0 l) : Plays t (b.expand t.level ++ l) := by
  refine plays_expand hsamples hcdt hpos hpause h fun l' hl' => ?_
  have hlen : b.pulses.length = n + 1 + 2 * (1 + (dataBits data used).length) := by
    rw [hpulses, List.length_append, List.length_append, List.length_replicate, bitPulses_length]
    simp only [List.length_cons, List.length_nil]
    omega
  rw [hlen, flips_add_double] at hl'
  rw [hpulses]
  exact plays_loader hf hbyte hbit hphase hleft hn hsub hl'

theorem plays_turbo {pilot sync1 sync2 bit0 bit1 pulses : UInt16} {used : UInt8} {pauseMs : UInt16}
    {data : Payload 24} {stale : Nat} {b : Block}
    (hb : b = .turbo pilot sync1 sync2 bit0 bit1 pulses used pauseMs data)
    (hcut : Cut t front (b.body ++ rest)) (hreg : b.Regular stale)
    (h : Resumes (front ++ (b.body ++ rest)) (front.length + b.body.length) (b.levelAfter t.level) 0 l) :
    Plays (t.enterTurbo front.length) (b.expand t.level ++ l) := by
  subst hb
  obtain ⟨hpulses, hne, hlo, hhi⟩ := hreg
  obtain ⟨n, hn⟩ := succ_of_ne_zero hpulses
  -- The header of the block, field by field, at the offsets that `enterTurbo` reads.
  have hbody : (Block.turbo pilot sync1 sync2 bit0 bit1 pulses used pauseMs data).body ++ rest =
      le16 pilot.toNat ++ (le16 sync1.toNat ++ (le16 sync2.toNat ++ (le16 bit0.toNat ++ (le16 bit1.toNat ++
        (le16 pulses.toNat ++ used :: (le16 pauseMs.toNat ++ (le24 data.bytes.length ++ (data.bytes ++ rest)))))))) := by
    simp only [Block.body, List.append_assoc, List.cons_append, List.nil_append]
  have hread := hcut
  rw [hbody] at hread
  have h0 : t.rd16 front.length = pilot.toNat := hread.rd16_of_drop (i := 0) rfl (toNat_lt_65536 pilot)
  have h2 : t.rd16 (front.length + 2) = sync1.toNat := hread.rd16_of_drop rfl (toNat_lt_65536 sync1)
  have h4 : t.rd16 (front.length + 4) = sync2.toNat := hread.rd16_of_drop rfl (toNat_lt_65536 sync2)
  have h6 : t.rd16 (front.length + 6) = bit0.toNat := hread.rd16_of_drop rfl (toNat_lt_65536 bit0)
  have h8 : t.rd16 (front.length + 8) = bit1.toNat := hread.rd16_of_drop rfl (toNat_lt_65536 bit1)
  have h10 : t.rd16 (front.length + 10) = pulses.toNat := hread.rd16_of_drop rfl (toNat_lt_65536 pulses)
  have h12 : t.rd8 (front.length + 12) = used := hread.rd8_of_drop rfl
  have h13 : t.rd16 (front.length + 13) = pauseMs.toNat := hread.rd16_of_drop rfl (toNat_lt_65536 pauseMs)
  have h15 : t.rd24 (front.length + 15) = data.bytes.length := hread.rd24_of_drop rfl data.length_lt
  -- Behind the eighteen bytes stands the data field.
  have hfield : DataField (t.enterTurbo front.length) data.bytes used.toNat :=
    @Cut.dataField _ _ rest _ _ 18 _ _ hcut rfl _ rfl rfl h15 (congrArg UInt8.toNat h12) hne hlo hhi
  have hlen : (Block.turbo pilot sync1 sync2 bit0 bit1 pulses used pauseMs data).body.length =
      18 + data.bytes.length := by
    simp only [Block.body, le16_eq, le24_eq, List.length_append, List.length_cons, List.length_nil]
  have hpos : (t.enterTurbo front.length).pos = front.length + (18 + data.bytes.length) := by
    simp only [TapeState.enterTurbo, h15]
    exact hcut.next_pos (by rw [List.length_append, hlen]; omega)
  refine plays_loaded hfield rfl rfl rfl ((congrArg (BitVec.ofNat 16) h10).trans (congrArg (BitVec.ofNat 16) hn))
    (hn ▸ toNat_lt_65536 pulses) rfl ?_ rfl hcut.cdt (hpos.trans (by rw [hlen])) h13 h
  simp only [TapeState.enterTurbo, Block.pulses, h0, h2, h4, h6, h8, hn]

theorem plays_standard {pauseMs : UInt16} {data : Payload 16} {stale : Nat} {b : Block}
    (hb : b = .standard pauseMs data) (hcut : Cut t front (b.body ++ rest)) (hreg : b.Regular stale)
    (h : Resumes (front ++ (b.body ++ rest)) (front.length + b.body.length) (b.levelAfter t.level) 0 l) :
    Plays (t.enterStandard front.length) (b.expand t.level ++ l) := by
  subst hb
  have h0 : t.rd16 front.length = pauseMs.toNat := hcut.rd16_of_drop (i := 0) rfl (toNat_lt_65536 pauseMs)
  have h2 : t.rd16 (front.length + 2) = data.bytes.length := hcut.rd16_of_drop rfl data.length_lt
  have hfield : DataField (t.enterStandard front.length) data.bytes (8 : UInt8).toNat :=
    @Cut.dataField _ _ rest _ _ 4 _ _ hcut rfl _ rfl rfl h2 rfl hreg (by decide) (by decide)
  have hlen : (Block.standard pauseMs data).body.length = 4 + data.bytes.length := by
    simp only [Block.body, le16_eq, List.length_append, List.length_cons, List.length_nil]
  have hpos : (t.enterStandard front.length).pos = front.length + (4 + data.bytes.length) := by
    simp only [TapeState.enterStandard, h2]
    exact hcut.next_pos (by rw [List.length_append, hlen]; omega)
  -- the flag byte that picks the length of the tone
  have hflag : t.rd8 (u32 (front.length + 4)) = byteAt data.bytes 0 := by
    have hlt := hfield.bytes 0 hfield.pos
    exact hlt
  obtain ⟨n, hn, hlt⟩ : ∃ n, (if byteAt data.bytes 0 < 0x80 then 8063 else 3223) = n + 1 ∧ n + 1 < 65536 := by
    split
    · exact ⟨8062, rfl, by decide⟩
    · exact ⟨3222, rfl, by decide⟩
  have hleft : (t.enterStandard front.length).pulsesLeft = BitVec.ofNat 16 (n + 1) := by
    simp only [TapeState.enterStandard, hflag]
    rw [← hn]
    split <;> rfl
  refine plays_loaded hfield rfl rfl rfl hleft hlt rfl ?_ rfl hcut.cdt (hpos.trans (by rw [hlen])) h0 h
  rw [← hn]
  rfl

theorem plays_pureData {bit0 bit1 : UInt16} {used : UInt8} {pauseMs : UInt16} {data : Payload 24} {stale : Nat}
    {b : Block} (hb : b = .pureData bit0 bit1 used pauseMs data) (hcut : Cut t front (b.body ++ rest))
    (hreg : b.Regular stale)
    (h : Resumes (front ++ (b.body ++ rest)) (front.length + b.body.length) (b.levelAfter t.level) 0 l) :
    Plays (t.enterPureData front.length) (b.expand t.level ++ l) := by
  subst hb
  obtain ⟨hne, hlo, hhi⟩ := hreg
  -- The header of the block at the offsets that `enterPureData` reads; no pilot, no sync.
  have h0 : t.rd16 front.length = bit0.toNat := hcut.rd16_of_drop (i := 0) rfl (toNat_lt_65536 bit0)
  have h2 : t.rd16 (front.length + 2) = bit1.toNat := hcut.rd16_of_drop rfl (toNat_lt_65536 bit1)
  have h4 : t.rd8 (front.length + 4) = used := hcut.rd8_of_drop rfl
  have h5 : t.rd16 (front.length + 5) = pauseMs.toNat := hcut.rd16_of_drop rfl (toNat_lt_65536 pauseMs)
  have h7 : t.rd24 (front.length + 7) = data.bytes.length := hcut.rd24_of_drop rfl data.length_lt
  have hfield : DataField (t.enterPureData front.length) data.bytes used.toNat :=
    @Cut.dataField _ _ rest _ _ 10 _ _ hcut rfl _ rfl rfl h7 (congrArg UInt8.toNat h4) hne hlo hhi
  have hlen : (Block.pureData bit0 bit1 used pauseMs data).body.length = 10 + data.bytes.length := by
    simp only [Block.body, le16_eq, le24_eq, List.length_append, List.length_cons, List.length_nil]
  have hpos : (t.enterPureData front.length).pos = front.length + (10 + data.bytes.length) := by
    simp only [TapeState.enterPureData, h7]
    exact hcut.next_pos (by rw [List.length_append, hlen]; omega)
  refine plays_expand rfl hcut.cdt (hpos.trans (by rw [hlen])) h5 h fun l' hl' => ?_
  -- Two pulses a bit: the level behind the data is the level before it.
  have heven : (Block.pureData bit0 bit1 used pauseMs data).pulses.length =
      0 + 2 * (dataBits data.bytes used.toNat).length := by
    rw [Block.pulses, bitPulses_length, Nat.zero_add]
  rw [heven, flips_add_double] at hl'
  have hplay := plays_field hfield rfl rfl rfl rfl rfl hl'
  rw [show (t.enterPureData front.length).tBit0 = bit0.toNat from h0,
    show (t.enterPureData front.length).tBit1 = bit1.toNat from h2] at hplay
  exact hplay

theorem plays_toneBlock {ts pulses : UInt16} {stale : Nat} {b : Block} (hb : b = .tone ts pulses)
    (hcut : Cut t front (b.body ++ rest)) (hreg : b.Regular stale)
    (h : Resumes (front ++ (b.body ++ rest)) (front.length + b.body.length) (b.levelAfter t.level) 0 l) :
    Plays (t.enterTone front.length) (b.expand t.level ++ l) := by
  subst hb
  obtain ⟨n, hn⟩ := succ_of_ne_zero hreg
  have h0 : t.rd16 front.length = ts.toNat := hcut.rd16_of_drop (i := 0) rfl (toNat_lt_65536 ts)
  have h2 : t.rd16 (front.length + 2) = pulses.toNat := hcut.rd16_of_drop rfl (toNat_lt_65536 pulses)
  have hpos : (t.enterTone front.length).pos = front.length + 4 := by
    refine hcut.u32_of_le ?_
    simp only [Block.body, le16_eq, List.length_append, List.length_cons, List.length_nil]
    omega
  refine plays_expand rfl hcut.cdt hpos rfl h fun l' hl' => ?_
  rw [Block.pulses, hn, List.length_replicate] at hl'
  rw [Block.pulses, hn, ← h0]
  refine plays_tone rfl ((congrArg (BitVec.ofNat 16) h2).trans (congrArg (BitVec.ofNat 16) hn))
    (hn ▸ toNat_lt_65536 pulses) rfl ?_
  rw [TapeState.pilotDone, if_pos ⟨rfl, rfl⟩]
  exact hl' _ rfl rfl rfl rfl

theorem drop_flatMap_le16 {durations : List UInt16} {k : Nat} (hk : k < durations.length) :
    ∃ tl, (durations.flatMap fun d => le16 d.toNat).drop (2 * k) = le16 durations[k].toNat ++ tl := by
  induction durations generalizing k with
  | nil => exact absurd hk (Nat.not_lt_zero k)
  | cons d ds ih =>
    cases k with
    | zero => exact ⟨_, rfl⟩
    | succ k =>
      obtain ⟨tl, htl⟩ := @ih k (Nat.lt_of_succ_lt_succ hk)
      exact ⟨tl, htl⟩

theorem flatMap_le16_length (durations : List UInt16) :
    (durations.flatMap fun d => le16 d.toNat).length = 2 * durations.length := by
  induction durations with
  | nil => rfl
  | cons d ds ih =>
    rw [List.flatMap_cons, List.length_append, ih, List.length_cons]
    simp only [le16_eq, List.length_cons, List.length_nil]
    omega

theorem plays_pulseSeqBlock {durations : List UInt16} {hcount : durations.length < 256} {b : Block}
    (hb : b = .pulseSeq durations hcount) (hcut : Cut t front (b.body ++ rest)) (hreg : b.Regular t.pauseMs)
    (h : Resumes (front ++ (b.body ++ rest)) (front.length + b.body.length) (b.levelAfter t.level) 0 l) :
    Plays (t.enterPulseSeq front.length) (b.expand t.level ++ l) := by
  subst hb
  obtain ⟨hne, hstale⟩ := hreg
  have hlen : (Block.pulseSeq durations hcount).body.length = 1 + 2 * durations.length := by
    rw [Block.body, List.length_cons, flatMap_le16_length, Nat.add_comm]
  have h0 : (t.rd8 front.length).toNat = durations.length := by
    have hbyte : t.rd8 front.length = UInt8.ofNat durations.length := hcut.rd8_of_drop (i := 0) rfl
    rw [hbyte, UInt8.toNat_ofNat', Nat.mod_eq_of_lt hcount]
  have hoff : (t.enterPulseSeq front.length).dataOff = front.length + 1 := by
    refine hcut.u32_of_le ?_
    rw [List.length_append, hlen]
    omega
  -- The table of the durations follows the count byte.
  have htab : ∀ i (hi : i < durations.length),
      (t.enterPulseSeq front.length).rd16 ((t.enterPulseSeq front.length).dataOff + i * 2) = durations[i].toNat := by
    intro i hi
    obtain ⟨tl, htl⟩ := drop_flatMap_le16 hi
    rw [hoff, Nat.add_assoc, Nat.mul_comm]
    have hdrop : List.drop (1 + 2 * i) ((Block.pulseSeq durations hcount).body ++ rest) =
        le16 durations[i].toNat ++ (tl ++ rest) := by
      rw [List.drop_append_of_le_length (by rw [hlen]; omega), Block.body, Nat.add_comm, List.drop_succ_cons, htl,
        List.append_assoc]
    exact hcut.rd16_of_drop hdrop (toNat_lt_65536 _)
  have hpos : (t.enterPulseSeq front.length).pos = front.length + (1 + 2 * durations.length) := by
    simp only [TapeState.enterPulseSeq, h0]
    rw [Nat.add_assoc, Nat.mul_comm]
    refine hcut.u32_of_le ?_
    rw [List.length_append, hlen]
    omega
  -- The block plays its own pulses, and what comes behind it is `l'`.
  refine plays_expand rfl hcut.cdt (hpos.trans (by rw [hlen])) hstale h fun l' hl' => ?_
  obtain ⟨m, hm⟩ : ∃ m, durations.length = m + 1 :=
    ⟨durations.length - 1, by have := List.length_pos_of_ne_nil hne; omega⟩
  have htable : (List.range' 0 (m + 1)).map (fun i =>
      (t.enterPulseSeq front.length).rd16 ((t.enterPulseSeq front.length).dataOff + i * 2)) =
      durations.map UInt16.toNat := by
    apply List.ext_getElem
    · rw [List.length_map, List.length_map, List.length_range', hm]
    · intro i hi _
      rw [List.length_map, List.length_range', ← hm] at hi
      rw [List.getElem_map, List.getElem_map, List.getElem_range', Nat.zero_add, Nat.one_mul]
      exact htab i hi
  rw [Block.pulses, List.length_map, hm] at hl'
  have hplay := @plays_pulseSeq _ l' m rfl ((congrArg (BitVec.ofNat 16) h0).trans (congrArg (BitVec.ofNat 16) hm))
    (by omega) rfl hl'
  rw [show (t.enterPulseSeq front.length).seqIdx = 0 from rfl, htable] at hplay
  exact hplay

theorem plays_loadDirect {data : List UInt8} {used : Nat} {b : Block} {image : List UInt8} {pos : Nat}
    (hf : DataField t data used) (hpulses : b.pulses = []) (hsamples : b.samples = dataBits data used)
    (htime : b.sampleTime = t.tBit0) (hcdt : t.cdt = some image) (hpos : t.pos = pos)
    (hpause : t.pauseMs = b.pauseAfter) (h : Resumes image pos (b.levelAfter level) 0 l) :
    Plays t.loadDirect (b.expand level ++ l) := by
  have hfirst : byteBit (t.rd8 t.dataOff) 0 = bitAt data 0 := by
    have hbyte0 := hf.bytes 0 hf.pos
    rw [Nat.add_zero] at hbyte0
    rw [hbyte0]
    rfl
  obtain ⟨m, hm⟩ : ∃ m, bitCount data used = m + 1 := by
    have hused := hf.used_pos
    exact ⟨bitCount data used - 1, by rw [hf.bitCount_eq]; omega⟩
  have hbits : b.samples = bitsFrom data 0 (m + 1) := by
    rw [hsamples, dataBits, unpack_eq_bitsFrom, hm]
  have hlast : b.levelAfter level = pauseLevel b.pauseAfter (bitAt data (0 + m)) := by
    rw [Block.levelAfter, hbits, bitsFrom, List.getLast?_map, List.getLast?_range', if_neg (Nat.succ_ne_zero m),
      Option.map_some, Option.getD_some, Nat.add_succ_sub_one]
  rw [hlast, ← hpause] at h
  have hend : Ends t.loadDirect (bitAt data (0 + m)) (pausePulses b.pauseAfter ++ l) :=
    hpause ▸ ends_of_resumes (t := t.loadDirect) hcdt hpos h
  rw [Block.expand, hpulses, alternate, List.nil_append, List.append_assoc, hbits, htime]
  exact plays_direct (t := t.loadDirect) ⟨hf.congr rfl rfl rfl rfl, rfl, rfl⟩ rfl hfirst rfl (by omega) hend

theorem plays_directBlock {ts pauseMs : UInt16} {used : UInt8} {data : Payload 24} {stale : Nat} {b : Block}
    (hb : b = .direct ts pauseMs used data) (hcut : Cut t front (b.body ++ rest)) (hreg : b.Regular stale)
    (hne : data.bytes ≠ [])
    (h : Resumes (front ++ (b.body ++ rest)) (front.length + b.body.length) (b.levelAfter t.level) 0 l) :
    Plays (t.readDirect front.length).loadDirect (b.expand t.level ++ l) := by
  subst hb
  rw [Block.Regular, if_neg hne] at hreg
  have h0 : t.rd16 front.length = ts.toNat := hcut.rd16_of_drop (i := 0) rfl (toNat_lt_65536 ts)
  have h2 : t.rd16 (front.length + 2) = pauseMs.toNat := hcut.rd16_of_drop rfl (toNat_lt_65536 pauseMs)
  have h4 : t.rd8 (front.length + 4) = used := hcut.rd8_of_drop rfl
  have h5 : t.rd24 (front.length + 5) = data.bytes.length := hcut.rd24_of_drop rfl data.length_lt
  have hlen : (Block.direct ts pauseMs used data).body.length = 8 + data.bytes.length := by
    simp only [Block.body, le16_eq, le24_eq, List.length_append, List.length_cons, List.length_nil]
  have hpos : (t.readDirect front.length).pos = front.length + (8 + data.bytes.length) := by
    simp only [TapeState.readDirect, h5]
    exact hcut.next_pos (by rw [List.length_append, hlen]; omega)
  have hfield : DataField (t.readDirect front.length) data.bytes used.toNat :=
    @Cut.dataField _ _ rest _ _ 8 _ _ hcut rfl _ rfl rfl h5 (congrArg UInt8.toNat h4) hne hreg.1 hreg.2
  exact plays_loadDirect hfield rfl rfl h0.symm hcut.cdt (hpos.trans (by rw [hlen])) h2 h

theorem plays_pauseBlock {ms : UInt16} {b : Block} (hb : b = .pause ms) (hcut : Cut t front (b.body ++ rest))
    (hstop : b.stops = false)
    (h : Resumes (front ++ (b.body ++ rest)) (front.length + b.body.length) (b.levelAfter t.level) t.pauseMs l) :
    Plays (t.enterPause front.length) (b.expand t.level ++ l) := by
  subst hb
  -- A pause of zero is the stop mark, which `hstop` excludes.
  have hms : ms ≠ 0 := fun hz => Bool.noConfusion (hstop.symm.trans (beq_iff_eq.mpr hz))
  obtain ⟨n, hn⟩ := succ_of_ne_zero hms
  have hne : ms.toNat ≠ 0 := by
    rw [hn]
    exact Nat.succ_ne_zero n
  have h0 : t.rd16 front.length = ms.toNat := hcut.rd16_of_drop (i := 0) rfl (toNat_lt_65536 ms)
  have hpos : u32 (front.length + 2) = front.length + 2 := by
    refine hcut.u32_of_le ?_
    simp only [Block.body, le16_eq, List.length_append, List.length_cons, List.length_nil]
    omega
  have hexpand : (Block.pause ms).expand t.level = [⟨.millis ms.toNat, false⟩] := by
    rw [Block.expand, Block.pauseAfter, pausePulses, if_neg hne]
    rfl
  have hafter : (Block.pause ms).levelAfter t.level = false := by
    rw [Block.levelAfter, Block.pauseAfter, pauseLevel, if_neg hne]
  rw [hafter] at h
  rw [hexpand]
  simp only [TapeState.enterPause, h0, hne, if_false, hpos]
  refine .next ⟨rfl, rfl, rfl⟩ ?_
  exact h.startBlock hcut.cdt rfl rfl rfl

theorem plays_skip {b : Block} {fuel : Nat} (hcut : Cut t front (b.body ++ rest)) (hexpand : b.expand t.level = [])
    (hafter : b.levelAfter t.level = t.level) (hfuel : (front ++ (b.body ++ rest)).length < front.length + fuel)
    {t' : TapeState} (hcdt : t'.cdt = t.cdt) (hpos : t'.pos = front.length + b.body.length)
    (hlevel : t'.level = t.level) {stale : Nat} (hstale : t'.pauseMs = stale)
    (h : Resumes (front ++ (b.body ++ rest)) (front.length + b.body.length) (b.levelAfter t.level) stale l) :
    Plays (t'.startFrom fuel) (b.expand t.level ++ l) := by
  rw [hexpand, List.nil_append]
  rw [hafter] at h
  exact h fuel t' (hcdt.trans hcut.cdt) hpos hlevel hstale (by omega)

theorem ofNat_length_toNat (data : Payload 8) : (UInt8.ofNat data.bytes.length).toNat = data.bytes.length := by
  rw [UInt8.toNat_ofNat', Nat.mod_eq_of_lt data.length_lt]

theorem flatMap_entry_length (entries : List (UInt8 × UInt8 × UInt8)) :
    (entries.flatMap fun (a, b, c) => [a, b, c]).length = entries.length * 3 := by
  induction entries with
  | nil => rfl
  | cons e es ih =>
    rw [List.flatMap_cons, List.length_append, ih, List.length_cons]
    simp only [List.length_cons, List.length_nil]
    omega

/-- The deck standing before a block's body, its ID read. -/
def dispatch (fuel : Nat) : TapeState.Entered → TapeState
  | .done t => t
  | .again t => t.startFrom fuel

theorem plays_skipBlock {b : Block} {fuel len : Nat} (hcut : Cut t front (b.body ++ rest))
    (hexpand : b.expand t.level = []) (hafter : b.levelAfter t.level = t.level)
    (hfuel : (front ++ (b.body ++ rest)).length < front.length + fuel) (hlen : len = b.body.length)
    (h : Resumes (front ++ (b.body ++ rest)) (front.length + b.body.length) (b.levelAfter t.level) t.pauseMs l) :
    Plays (dispatch fuel (t.skipBlock front.length len)) (b.expand t.level ++ l) := by
  have hpos : u32 (front.length + len) = front.length + b.body.length := by
    rw [hlen]
    refine hcut.u32_of_le ?_
    rw [List.length_append]
    omega
  exact plays_skip hcut hexpand hafter hfuel rfl hpos rfl rfl h

theorem plays_enterDirect {ts pauseMs : UInt16} {used : UInt8} {data : Payload 24} {stale fuel : Nat} {b : Block}
    (hb : b = .direct ts pauseMs used data) (hcut : Cut t front (b.body ++ rest)) (hreg : b.Regular stale)
    (hfuel : (front ++ (b.body ++ rest)).length < front.length + fuel)
    (h : Resumes (front ++ (b.body ++ rest)) (front.length + b.body.length) (b.levelAfter t.level) 0 l) :
    Plays (dispatch fuel (t.enterDirect front.length)) (b.expand t.level ++ l) := by
  -- A block without samples is skipped without its pause, which is regular only if there is none.
  by_cases hne : data.bytes = []
  · subst hb
    have h2 : t.rd16 (front.length + 2) = pauseMs.toNat := hcut.rd16_of_drop rfl (toNat_lt_65536 pauseMs)
    have h5 : t.rd24 (front.length + 5) = data.bytes.length := hcut.rd24_of_drop rfl data.length_lt
    rw [Block.Regular, if_pos hne] at hreg
    have hlen : (Block.direct ts pauseMs used data).body.length = 8 + data.bytes.length := by
      simp only [Block.body, le16_eq, le24_eq, List.length_append, List.length_cons, List.length_nil]
    have hpos : (t.readDirect front.length).pos = front.length + (8 + data.bytes.length) := by
      simp only [TapeState.readDirect, h5]
      exact hcut.next_pos (by rw [List.length_append, hlen]; omega)
    have hempty : (t.readDirect front.length).dataLen = 0 := by
      refine Eq.trans h5 ?_
      rw [hne, List.length_nil]
    have hpause : (t.readDirect front.length).pauseMs = 0 := by
      refine Eq.trans h2 ?_
      rw [hreg]
      rfl
    have hsamples : (Block.direct ts pauseMs used data).samples = [] := by
      rw [Block.samples, dataBits, bitCount, if_pos hne]
      rfl
    have hafter : (Block.direct ts pauseMs used data).pauseAfter = 0 := by
      rw [Block.pauseAfter, hreg]
      rfl
    rw [TapeState.enterDirect, if_pos hempty]
    refine plays_skip hcut ?_ ?_ hfuel rfl (hpos.trans (by rw [hlen])) rfl hpause h
    · rw [Block.expand, hsamples, hafter]
      rfl
    · rw [Block.levelAfter, hsamples, hafter]
      rfl
  · have hloaded := plays_directBlock hb hcut hreg hne h
    subst hb
    have h5 : t.rd24 (front.length + 5) = data.bytes.length := hcut.rd24_of_drop rfl data.length_lt
    have hlen : ¬ (t.readDirect front.length).dataLen = 0 := fun hz =>
      hne (List.length_eq_zero_iff.mp (h5.symm.trans hz))
    rw [TapeState.enterDirect, if_neg hlen]
    exact hloaded

theorem plays_enterBlock {b : Block} {fuel : Nat} (hcut : Cut t front (b.body ++ rest))
    (hreg : b.Regular t.pauseMs) (hstop : b.stops = false)
    (hfuel : (front ++ (b.body ++ rest)).length < front.length + fuel)
    (h : Resumes (front ++ (b.body ++ rest)) (front.length + b.body.length) (b.levelAfter t.level)
      (b.staleAfter t.pauseMs) l) :
    Plays (dispatch fuel (t.enterBlock b.id front.length)) (b.expand t.level ++ l) := by
  cases b with
  | standard pauseMs data => exact plays_standard rfl hcut hreg h
  | turbo pilot sync1 sync2 bit0 bit1 pulses used pauseMs data => exact plays_turbo rfl hcut hreg h
  | tone ts pulses => exact plays_toneBlock rfl hcut hreg h
  | pulseSeq durations hcount => exact plays_pulseSeqBlock rfl hcut hreg h
  | pureData bit0 bit1 used pauseMs data => exact plays_pureData rfl hcut hreg h
  | direct ts pauseMs used data => exact plays_enterDirect rfl hcut hreg hfuel h
  | pause ms => exact plays_pauseBlock rfl hcut hstop h
  -- The blocks without pulses are skipped: what is checked is where the next one begins.
  | groupStart name =>
    have h0 : t.rd8 front.length = UInt8.ofNat name.bytes.length := hcut.rd8_of_drop (i := 0) rfl
    refine plays_skipBlock hcut rfl rfl hfuel ?_ h
    rw [h0, ofNat_length_toNat, Block.body, List.length_cons, Nat.add_comm]
  | groupEnd => exact plays_skipBlock hcut rfl rfl hfuel rfl h
  | text msg =>
    have h0 : t.rd8 front.length = UInt8.ofNat msg.bytes.length := hcut.rd8_of_drop (i := 0) rfl
    refine plays_skipBlock hcut rfl rfl hfuel ?_ h
    rw [h0, ofNat_length_toNat, Block.body, List.length_cons, Nat.add_comm]
  | message seconds msg =>
    have h1 : t.rd8 (front.length + 1) = UInt8.ofNat msg.bytes.length := hcut.rd8_of_drop rfl
    refine plays_skipBlock hcut rfl rfl hfuel ?_ h
    rw [h1, ofNat_length_toNat, Block.body, List.length_cons, List.length_cons, Nat.add_comm]
  | archive info =>
    have h0 : t.rd16 front.length = info.bytes.length := hcut.rd16_of_drop (i := 0) rfl info.length_lt
    refine plays_skipBlock hcut rfl rfl hfuel ?_ h
    rw [h0, Block.body, List.length_append]
    rfl
  | hardware entries hcount =>
    have h0 : t.rd8 front.length = UInt8.ofNat entries.length := hcut.rd8_of_drop (i := 0) rfl
    refine plays_skipBlock hcut rfl rfl hfuel ?_ h
    rw [h0, UInt8.toNat_ofNat', Nat.mod_eq_of_lt hcount, Block.body, List.length_cons, flatMap_entry_length,
      Nat.add_comm]

end

/-! ## The whole tape -/

section
variable {b : Block} {front rest : List UInt8} {level : Bool} {stale : Nat} {l : List Pulse}

theorem encode_shift : front ++ (b.encode ++ rest) = (front ++ [b.id]) ++ (b.body ++ rest) := by
  rw [Block.encode, List.append_assoc, List.cons_append, List.singleton_append]

theorem startFrom_encode {t : TapeState} {fuel : Nat} (hlt : (front ++ (b.encode ++ rest)).length < 2 ^ 32)
    (hcdt : t.cdt = some (front ++ (b.encode ++ rest))) (hpos : t.pos = front.length) :
    t.startFrom (fuel + 1) = dispatch fuel (t.enterBlock b.id (front ++ [b.id]).length) := by
  have hin : ¬ (front ++ (b.encode ++ rest)).length ≤ t.pos := by
    rw [hpos, List.length_append, Block.encode, List.cons_append, List.length_cons]
    omega
  have hid : t.rd8 t.pos = b.id := by
    rw [hpos]
    exact Cut.rd8_of_drop (i := 0) ⟨hcdt, hlt⟩ rfl
  have hbody : u32 (t.pos + 1) = (front ++ [b.id]).length := by
    rw [hpos, List.length_append, List.length_singleton]
    refine Nat.mod_eq_of_lt ?_
    rw [encode_shift, List.length_append, List.length_append, List.length_singleton] at hlt
    omega
  rw [TapeState.startFrom, hcdt]
  simp only [hin, if_false, hid, hbody]
  rfl

/-- A regular block at the cursor plays its expansion, and the block behind it follows. -/
theorem resumes_block (hlt : (front ++ (b.encode ++ rest)).length < 2 ^ 32) (hreg : b.Regular stale)
    (hstop : b.stops = false)
    (h : Resumes (front ++ (b.encode ++ rest)) (front.length + b.encode.length) (b.levelAfter level)
      (b.staleAfter stale) l) :
    Resumes (front ++ (b.encode ++ rest)) front.length level stale (b.expand level ++ l) := by
  intro fuel t hcdt hpos hlevel hstale hfuel
  subst hlevel
  subst hstale
  cases fuel with
  | zero =>
    rw [List.length_append] at hfuel
    exact absurd hfuel (by omega)
  | succ fuel =>
    have hfront : (front ++ [b.id]).length = front.length + 1 := List.length_append
    have hnext : front.length + b.encode.length = (front ++ [b.id]).length + b.body.length := by
      rw [Block.encode, List.length_cons, hfront]
      omega
    rw [startFrom_encode hlt hcdt hpos]
    rw [encode_shift] at hcdt hlt hfuel h
    rw [hnext] at h
    exact plays_enterBlock ⟨hcdt, hlt⟩ hreg hstop (by rw [hfront]; omega) h

theorem resumes_stop (hlt : (front ++ (b.encode ++ rest)).length < 2 ^ 32) (hstop : b.stops = true) :
    Resumes (front ++ (b.encode ++ rest)) front.length level stale [] := by
  intro fuel t hcdt hpos _ _ hfuel
  cases fuel with
  | zero =>
    rw [List.length_append] at hfuel
    exact absurd hfuel (by omega)
  | succ fuel =>
    rw [startFrom_encode hlt hcdt hpos]
    rw [encode_shift] at hcdt hlt
    cases b with
    | pause ms =>
      have hzero : ms = 0 := beq_iff_eq.mp hstop
      have h0 : t.rd16 (front ++ [(Block.pause ms).id]).length = 0 := by
        have hread := Cut.rd16_of_drop (i := 0) (n := ms.toNat) ⟨hcdt, hlt⟩ rfl (toNat_lt_65536 ms)
        rw [Nat.add_zero] at hread
        rw [hread, hzero]
        rfl
      have henter : dispatch fuel (t.enterBlock (Block.pause ms).id (front ++ [(Block.pause ms).id]).length) =
          t.enterPause (front ++ [(Block.pause ms).id]).length := rfl
      rw [henter, TapeState.enterPause]
      simp only [h0, if_true]
      exact .stopped rfl
    | _ => exact Bool.noConfusion hstop

end

theorem resumes_tape (bs : List Block) {front : List UInt8} {level : Bool} {stale : Nat}
    (hlt : (front ++ bs.flatMap Block.encode).length < 2 ^ 32) (hreg : RegularTape stale bs) :
    Resumes (front ++ bs.flatMap Block.encode) front.length level stale (expandTape level bs) := by
  induction bs generalizing front level stale with
  | nil => exact resumes_end (Nat.le_of_eq (by rw [List.flatMap_nil, List.append_nil]))
  | cons b bs ih =>
    rw [List.flatMap_cons] at hlt ⊢
    rw [expandTape]
    rcases hreg with hstop | ⟨hb, hrest⟩
    · rw [if_pos hstop]
      exact resumes_stop hlt hstop
    · by_cases hstop : b.stops = true
      · rw [if_pos hstop]
        exact resumes_stop hlt hstop
      · rw [if_neg hstop]
        apply resumes_block hlt hb (Bool.eq_false_iff.mpr hstop)
        rw [← List.append_assoc, ← List.length_append]
        rw [← List.append_assoc] at hlt
        exact ih hlt hrest

/-- The deck with an image attached and the play button down. -/
def TapeState.insert (s : TapeState) (image : List UInt8) : Option TapeState :=
  (s.attachCdt image).map fun t => if s.playing then t else t.play true

theorem insert_eq {s t : TapeState} {image : List UInt8} (ht : s.insert image = some t) :
    ∃ u : TapeState, t = u.startBlock ∧ u.cdt = some image ∧ u.pos = 10 ∧ u.level = false ∧ u.pauseMs = s.pauseMs := by
  rw [TapeState.insert, TapeState.attachCdt] at ht
  by_cases hbad : image.length < 10 ∨ slice image 0 8 ≠ TapeState.cdtMagic
  · rw [if_pos hbad] at ht
    exact absurd ht (by simp)
  · rw [if_neg hbad] at ht
    have heq := Option.some.inj ht
    refine ⟨{ s with
      cdt := some image, pos := 10, block := 0, phase := .idle, level := false, error := false, playing := true },
      ?_, rfl, rfl, rfl, rfl⟩
    rw [← heq]
    -- rewinding a playing deck starts it again by itself
    cases hplaying : s.playing <;> simp [TapeState.rewind, TapeState.play]

/-- **A tape of regular blocks plays its pulse expansion.** -/
theorem playback_expands (major minor : UInt8) (bs : List Block) (s t : TapeState)
    (hlt : (encodeTape major minor bs).length < 2 ^ 32) (hreg : RegularTape s.pauseMs bs)
    (ht : s.insert (encodeTape major minor bs) = some t) : Plays t (expandTape false bs) := by
  obtain ⟨u, rfl, hcdt, hpos, hlevel, hpause⟩ := insert_eq ht
  exact (resumes_tape bs hlt hreg).startBlock hcdt hpos hlevel hpause

/-- A loader tape: a tone, a data block and the stop behind it. -/
def sampleTape : List Block := [.tone 2168 3, .standard 1000 ⟨[0x00, 0x01], by decide⟩, .pause 0]

theorem playback_expands_sample :
    ∃ t, ({} : TapeState).insert (encodeTape 1 20 sampleTape) = some t ∧ Plays t (expandTape false sampleTape) := by
  refine ⟨_, rfl, playback_expands 1 20 sampleTape {} _ (by decide) ?_ rfl⟩
  have htone : (3 : UInt16) ≠ 0 := by decide
  have hdata : ([0x00, 0x01] : List UInt8) ≠ [] := by decide
  exact .inr ⟨htone, .inr ⟨hdata, .inl rfl⟩⟩

/-- A tone of no pulses stands for nothing, and the deck starts to play one. -/
theorem playback_empty_tone :
    ∃ t, ({} : TapeState).insert (encodeTape 1 20 [.tone 2168 0]) = some t ∧
      ¬ Plays t (expandTape false [.tone 2168 0]) := by
  refine ⟨_, rfl, fun h => ?_⟩
  cases h with
  | stopped hidle => exact absurd hidle (by decide)

end Koncepcja.Tape
