import Koncepcja.Tape.Playback

/-!
# The Time Base of the Deck

The deck counts a pulse down by seven sub-units a master cycle, and loads the next one when the count
has run out. What the count has gone below zero by is not carried on, so every pulse takes a whole
number of cycles. A meter beside the deck keeps the cycles of each pulse.

## Main definitions

- `Meter.run`: the deck with its motor on, and the pulses that have run out with the cycles they took.
- `NoDrift`: after any number of pulses the cycles are within one of the exact total.

## Main results

- `fresh_pulseDone`: at a pulse boundary the deck has loaded a pulse afresh, or pauses, or has stopped.
- `Meter.Sound.tick`: every pulse takes its T-states rounded up to whole cycles.
- `noDrift_iff`: there is no drift exactly as long as what the rounding adds stays below one cycle.
-/

namespace Koncepcja.Tape

/-! ## Pulse boundaries -/

/-- A deck between two pulses: it has stopped, or pauses, or has just loaded a pulse. -/
def Fresh (t : TapeState) : Prop := t.phase = .idle ∨ t.phase = .pause ∨ ∃ ts, t.subRemaining = subUnits ts

/-- What a block leaves behind when the deck does not go round again. -/
def FreshEntered : TapeState.Entered → Prop
  | .done t => Fresh t
  | .again _ => True

theorem freshEntered_ite {c : Prop} [Decidable c] {a b : TapeState.Entered} (ha : FreshEntered a) (hb : FreshEntered b) :
    FreshEntered (if c then a else b) := by
  by_cases h : c
  · rwa [if_pos h]
  · rwa [if_neg h]

theorem fresh_enterBlock (t : TapeState) (id : UInt8) (body : Nat) : FreshEntered (t.enterBlock id body) := by
  have hpulse (s : TapeState) (ts : Nat) (h : s.subRemaining = subUnits ts) : FreshEntered (.done s) := .inr (.inr ⟨ts, h⟩)
  have hskip (len : Nat) : FreshEntered (t.skipBlock body len) := trivial
  have hdirect : FreshEntered (t.enterDirect body) := by
    rw [TapeState.enterDirect]
    exact freshEntered_ite trivial (hpulse _ _ rfl)
  have hpause : FreshEntered (.done (t.enterPause body)) := by
    rw [TapeState.enterPause]
    split
    · exact .inl rfl
    · exact .inr (.inl rfl)
  rw [TapeState.enterBlock]
  refine freshEntered_ite (hpulse _ _ rfl) (freshEntered_ite (hpulse _ _ rfl) (freshEntered_ite (hpulse _ _ rfl) ?_))
  refine freshEntered_ite (hpulse _ _ rfl) (freshEntered_ite (hpulse _ _ rfl) (freshEntered_ite hdirect ?_))
  refine freshEntered_ite hpause (freshEntered_ite (hskip _) (freshEntered_ite (hskip _) (freshEntered_ite (hskip _) ?_)))
  exact freshEntered_ite (hskip _) (freshEntered_ite (hskip _) (freshEntered_ite (hskip _) (.inl rfl)))

theorem fresh_startFrom (fuel : Nat) (t : TapeState) : Fresh (t.startFrom fuel) := by
  induction fuel generalizing t with
  | zero => exact .inl rfl
  | succ fuel ih =>
    rw [TapeState.startFrom]
    split
    · exact .inl rfl
    · split
      · exact .inl rfl
      · have hentered := fresh_enterBlock t (t.rd8 t.pos) (u32 (t.pos + 1))
        split
        · rename_i hdone
          rwa [hdone] at hentered
        · exact ih _

theorem fresh_startBlock (t : TapeState) : Fresh t.startBlock := fresh_startFrom _ t

theorem fresh_nextBlock (t : TapeState) : Fresh t.nextBlock := by
  rw [TapeState.nextBlock]
  dsimp only
  split
  · exact .inr (.inl rfl)
  · exact fresh_startBlock _

theorem fresh_loadPulse (t : TapeState) (ts : Nat) : Fresh (t.loadPulse ts) := .inr (.inr ⟨ts, rfl⟩)

/-- At a pulse boundary nothing is left of the pulse before. -/
theorem fresh_pulseDone {t : TapeState} (hidle : t.phase ≠ .idle) (hpause : t.phase ≠ .pause) : Fresh t.pulseDone := by
  rw [TapeState.pulseDone]
  -- In every phase the next pulse comes from `loadPulse`, or from the block that follows.
  cases hphase : t.phase with
  | idle => exact absurd hphase hidle
  | pause => exact absurd hphase hpause
  | pilot =>
    dsimp only
    split
    · exact fresh_loadPulse _ _
    · rw [TapeState.pilotDone]
      split
      · exact fresh_nextBlock _
      · exact fresh_loadPulse _ _
  | sync1 => exact fresh_loadPulse _ _
  | sync2 => exact fresh_loadPulse _ _
  | data =>
    dsimp only
    split
    · exact fresh_loadPulse _ _
    · split
      · exact fresh_nextBlock _
      · exact fresh_loadPulse _ _
  | pulseSeq =>
    dsimp only
    split
    · exact fresh_loadPulse _ _
    · exact fresh_nextBlock _
  | direct =>
    dsimp only
    split
    · exact fresh_nextBlock _
    · exact fresh_loadPulse _ _

/-! ## The meter -/

/-- The deck counts a pulse down at this cycle, if its motor is on. -/
def Running (t : TapeState) : Prop := t.playing = true ∧ t.lineMode = false ∧ t.phase ≠ .idle ∧ t.phase ≠ .pause

instance (t : TapeState) : Decidable (Running t) := inferInstanceAs (Decidable (_ ∧ _))

/-- The T-states of a pulse that has just been loaded. -/
def loadedTs (t : TapeState) : Nat := (t.subRemaining / kSubPerTs).toNat

@[simp] theorem loadedTs_of_eq {t : TapeState} {ts : Nat} (h : t.subRemaining = subUnits ts) : loadedTs t = ts := by
  rw [loadedTs, h, subUnits, kSubPerTs]
  omega

/-- A deck with a meter: the T-states and the cycles of the pulse in flight, and of those that have run out. -/
structure Meter where
  deck : TapeState
  current : Nat
  elapsed : Nat
  finished : List (Nat × Nat)

namespace Meter

/-- A meter that starts at a pulse boundary. -/
def start (t : TapeState) : Meter := { deck := t, current := loadedTs t, elapsed := 0, finished := [] }

/-- One master cycle with the motor on. -/
def tick (m : Meter) : Meter :=
  let deck := m.deck.tick true
  if Running m.deck then
    if m.deck.subRemaining ≤ kSubPerCycle then
      { deck := deck, current := loadedTs deck, elapsed := 0, finished := m.finished ++ [(m.current, m.elapsed + 1)] }
    else { m with deck := deck, elapsed := m.elapsed + 1 }
  else if m.deck.phase = .pause then { m with deck := deck, current := loadedTs deck }
  else { m with deck := deck }

/-- So many master cycles with the motor on. -/
def run (n : Nat) (t : TapeState) : Meter := tick^[n] (start t)

end Meter

/-- The cycles of a pulse: its T-states rounded up, and one at least. -/
def pulseCycles (ts : Nat) : Nat := (kSubPerTs * ts - 1) / 7 + 1

/-- The meter shows what has gone by. -/
structure Meter.Sound (m : Meter) : Prop where
  finished : ∀ p ∈ m.finished, p.2 = pulseCycles p.1
  still : m.deck.phase = .idle ∨ m.deck.phase = .pause → m.elapsed = 0
  held : m.deck.phase ≠ .idle → m.deck.phase ≠ .pause →
    m.deck.subRemaining = subUnits m.current - kSubPerCycle * m.elapsed ∧ (m.elapsed = 0 ∨ 0 < m.deck.subRemaining)

theorem Meter.Sound.of_fresh {t : TapeState} {finished : List (Nat × Nat)} (ht : Fresh t)
    (hfinished : ∀ p ∈ finished, p.2 = pulseCycles p.1) :
    Meter.Sound { deck := t, current := loadedTs t, elapsed := 0, finished := finished } where
  finished := hfinished
  still _ := rfl
  held hidle hpause := by
    rcases ht with h | h | ⟨ts, h⟩
    · exact absurd h hidle
    · exact absurd h hpause
    · refine ⟨?_, .inl rfl⟩
      simp only [loadedTs_of_eq h, h, kSubPerCycle]
      omega

theorem fresh_tick_pause {t : TapeState} (h : t.phase = .pause) : Fresh (t.tick true) := by
  have hidle : t.phase ≠ .idle := by
    rw [h]
    decide
  rw [TapeState.tick]
  dsimp only
  by_cases hline : t.lineMode = true
  · rw [if_pos hline]
    exact .inr (.inl h)
  · by_cases hplay : t.playing = true
    · rw [if_neg hline, if_pos ⟨hplay, rfl, hidle⟩, if_pos h]
      split
      · exact .inr (.inl h)
      · exact fresh_startBlock _
    · rw [if_neg hline, if_neg fun h' => hplay h'.1]
      exact .inr (.inl h)

theorem tick_not_running {t : TapeState} (hrun : ¬ Running t) (hpause : t.phase ≠ .pause) :
    (t.tick true).phase = t.phase ∧ (t.tick true).subRemaining = t.subRemaining := by
  rw [TapeState.tick]
  dsimp only
  split
  · exact ⟨rfl, rfl⟩
  · rename_i hline
    split
    · rename_i hplay
      exact absurd ⟨hplay.1, by simpa using hline, hplay.2.2, hpause⟩ hrun
    · exact ⟨rfl, rfl⟩

theorem elapsed_eq_pulseCycles {sub : Int} {current elapsed : Nat}
    (hsub : sub = subUnits current - kSubPerCycle * elapsed) (hheld : elapsed = 0 ∨ 0 < sub) (hout : sub ≤ kSubPerCycle) :
    elapsed + 1 = pulseCycles current := by
  rw [subUnits, kSubPerCycle, kSubPerTs] at hsub
  rw [kSubPerCycle] at hout
  rw [pulseCycles, kSubPerTs]
  omega

/-- The step: every pulse takes its T-states rounded up to whole cycles. -/
theorem Meter.Sound.tick {m : Meter} (h : m.Sound) : m.tick.Sound := by
  rw [Meter.tick]
  -- A running pulse takes one step, or ends and is counted in full.
  by_cases hrun : Running m.deck
  · obtain ⟨hplaying, hline, hidle, hpause⟩ := hrun
    obtain ⟨hsub, hheld⟩ := h.held hidle hpause
    rw [if_pos ⟨hplaying, hline, hidle, hpause⟩, tick_pulse hplaying hline hidle hpause]
    by_cases hout : m.deck.subRemaining ≤ kSubPerCycle
    · rw [if_pos hout, if_pos (by exact Int.sub_nonpos_of_le hout)]
      refine .of_fresh (fresh_pulseDone hidle hpause) fun p hp => ?_
      rcases List.mem_append.mp hp with hp | hp
      · exact h.finished p hp
      · rw [List.mem_singleton.mp hp]
        exact elapsed_eq_pulseCycles hsub hheld hout
    · rw [if_neg hout, if_neg (by simp only; omega)]
      refine ⟨h.finished, fun hstill => ?_, fun _ _ => ⟨?_, .inr ?_⟩⟩
      · rcases hstill with h' | h'
        · exact absurd h' hidle
        · exact absurd h' hpause
      · simp only [hsub, kSubPerCycle]
        omega
      · simp only
        omega
  · rw [if_neg hrun]
    -- A pause and a deck that stands still count nothing.
    by_cases hpause : m.deck.phase = .pause
    · rw [if_pos hpause]
      have hzero := h.still (.inr hpause)
      have hfresh := Meter.Sound.of_fresh (fresh_tick_pause hpause) h.finished
      rw [← hzero] at hfresh
      exact hfresh
    · rw [if_neg hpause]
      obtain ⟨hphase, hsub⟩ := tick_not_running hrun hpause
      refine ⟨h.finished, fun hstill => h.still ?_, fun hi hp => ?_⟩
      · rwa [hphase] at hstill
      · rw [hphase] at hi hp
        simp only [hsub]
        exact h.held hi hp

theorem Meter.run_sound {t : TapeState} (ht : Fresh t) (n : Nat) : (Meter.run n t).Sound := by
  induction n with
  | zero => exact .of_fresh ht (by simp)
  | succ n ih =>
    rw [Meter.run, Function.iterate_succ_apply']
    exact ih.tick

/-! ## Drift -/

/-- After any number of pulses their cycles differ by less than one from the exact total, 32/7 of a cycle a T-state. -/
def NoDrift (pulses : List (Nat × Nat)) : Prop :=
  ∀ n,
    let ts := ((pulses.take n).map Prod.fst).sum
    let cycles := ((pulses.take n).map Prod.snd).sum
    7 * cycles < 32 * ts + 7 ∧ 32 * ts < 7 * cycles + 7

/-- What rounding a pulse up adds to it, in sevenths of a cycle. -/
def surplus (ts : Nat) : Nat := if ts = 0 then 7 else 3 * ts % 7

theorem pulseCycles_surplus (ts : Nat) : 7 * pulseCycles ts = 32 * ts + surplus ts := by
  rw [pulseCycles, surplus, kSubPerTs]
  split <;> omega

theorem cycles_sum {pulses : List (Nat × Nat)} (h : ∀ p ∈ pulses, p.2 = pulseCycles p.1) :
    7 * (pulses.map Prod.snd).sum = 32 * (pulses.map Prod.fst).sum + (pulses.map fun p => surplus p.1).sum := by
  induction pulses with
  | nil => rfl
  | cons p pulses ih =>
    have hp := pulseCycles_surplus p.1
    have hrest := ih fun x hx => h x (List.mem_cons_of_mem _ hx)
    rw [← h p List.mem_cons_self] at hp
    simp only [List.map_cons, List.sum_cons]
    omega

theorem noDrift_iff_surplus {pulses : List (Nat × Nat)} (h : ∀ p ∈ pulses, p.2 = pulseCycles p.1) :
    NoDrift pulses ↔ (pulses.map fun p => surplus p.1).sum < 7 := by
  have hsum (n : Nat) : 7 * ((pulses.take n).map Prod.snd).sum =
      32 * ((pulses.take n).map Prod.fst).sum + ((pulses.take n).map fun p => surplus p.1).sum :=
    cycles_sum fun p hp => h p (List.mem_of_mem_take hp)
  constructor
  · intro hall
    have hlast := (hall pulses.length).1
    rw [hsum, List.take_length] at hlast
    omega
  · intro htotal n
    have hsplit : ((pulses.take n).map fun p => surplus p.1).sum + ((pulses.drop n).map fun p => surplus p.1).sum =
        (pulses.map fun p => surplus p.1).sum := by
      rw [← List.sum_append, ← List.map_append, List.take_append_drop]
    have hn := hsum n
    dsimp only
    omega

/-- With its motor on from a pulse boundary the deck does not drift exactly as long as what the rounding has added to its
pulses is less than one cycle. -/
theorem noDrift_iff (t : TapeState) (ht : Fresh t) (n : Nat) :
    NoDrift (Meter.run n t).finished ↔ ((Meter.run n t).finished.map fun p => surplus p.1).sum < 7 :=
  noDrift_iff_surplus (Meter.run_sound ht n).finished

/-- A tape of one tone, three pulses of a T-state each: they take five cycles each, and the third ends more than a cycle late. -/
def shortTone : TapeState :=
  ((({} : TapeState).attachCdt (encodeTape 1 20 [.tone 1 3])).getD {}).play true

theorem noDrift_iff_shortTone :
    Fresh shortTone ∧
      (NoDrift (Meter.run 10 shortTone).finished ↔ ((Meter.run 10 shortTone).finished.map fun p => surplus p.1).sum < 7) := by
  have hfresh : Fresh shortTone := .inr (.inr ⟨1, by decide⟩)
  exact ⟨hfresh, noDrift_iff shortTone hfresh 10⟩

theorem shortTone_drifts : (Meter.run 15 shortTone).finished = [(1, 5), (1, 5), (1, 5)] ∧
    ¬ NoDrift (Meter.run 15 shortTone).finished := by
  have hfinished : (Meter.run 15 shortTone).finished = [(1, 5), (1, 5), (1, 5)] := by decide
  refine ⟨hfinished, fun h => ?_⟩
  rw [hfinished] at h
  exact absurd (h 3).1 (by decide)

end Koncepcja.Tape
