import Koncepcja.Asic.DmaBurst

/-!
# DMA Programs

What the scanlines make of one channel. A channel executes its own program and no other channel has a part in it but for
the time: a pause ends, and the bus is already wanted by another channel or it is not.

## Main definitions

- `Channel.lineStep`: a scanline of one channel.
- `Channel.trace`: the program of a channel, as the addresses of the instructions that it executes.

## Main results

- `fetched_program`: over any number of scanlines a channel executes its program, and it gets as far as one likes.
- `fetched_pause`: how many scanlines a pause lasts.
- `fetched_repeat`: the instruction behind a REPEAT is executed once, those up to the LOOP once more than the count.
-/

namespace Koncepcja.Asic

namespace Channel

variable (mem : UInt16 → UInt8)

/-- The channel fetches and executes an instruction. -/
def step (ch : Channel) : Channel :=
  let next : Channel := { ch with source := ch.source + 2 }
  if isLoad (instrAt mem ch.source) then next else next.exec (instrAt mem ch.source)

/-- It does so on a scanline if it is ready once the pauses have counted down, and there is a burst. -/
def fetches (burst : Bool) (ch : Channel) : Bool := burst && ch.countdown.ready

/-- A scanline of the channel. -/
def lineStep (burst : Bool) (ch : Channel) : Channel := if ch.fetches burst then ch.countdown.step mem else ch.countdown

/-- The program of the channel: the addresses of the next instructions, up to a STOP. -/
def trace : Nat → Channel → List UInt16
  | 0, _ => []
  | k + 1, ch => if ch.enabled then ch.source :: trace k (ch.step mem) else []

/-- The channel after so many of them. -/
def steps : Nat → Channel → Channel
  | 0, ch => ch
  | k + 1, ch => if ch.enabled then steps k (ch.step mem) else ch

end Channel

namespace Chip

variable (mem : UInt16 → UInt8)

/-- Scanline after scanline. -/
def lines : Nat → Chip → Chip
  | 0, a => a
  | n + 1, a => lines n (a.line mem)

/-- The addresses of the instructions that the channel `c` executes on these scanlines. -/
def fetched (c : Nat) : Nat → Chip → List UInt16
  | 0, _ => []
  | n + 1, a => (if (a.dma c).fetches a.needBus then [(a.dma c).source] else []) ++ fetched c n (a.line mem)

variable {mem}

/-! ## A scanline, channel by channel -/

theorem fetch_dma (a : Chip) (c d : Nat) :
    (a.fetch mem c).dma d = if d = c then (a.dma c).step mem else a.dma d := by
  rw [fetch, dmaExec]
  by_cases hd : d = c
  · subst hd
    rw [if_pos rfl, Channel.step]
    split <;> simp [stepSource, dmaWriteback]
  · rw [if_neg hd]
    split <;> simp [stepSource, dmaWriteback, hd]

theorem serve_dma (a : Chip) (c d : Nat) :
    (a.serve mem c).dma d = if d = c ∧ (a.dma c).ready then (a.dma c).step mem else a.dma d := by
  rw [serve]
  split
  case isTrue h =>
    rw [fetch_dma]
    simp [h]
  case isFalse h => rw [if_neg fun hd => h hd.2]

theorem serveAll_dma (a : Chip) {c : Nat} (hc : c < 3) :
    ([0, 1, 2].foldl (serve mem) a).dma c = if (a.dma c).ready then (a.dma c).step mem else a.dma c := by
  simp only [List.foldl_cons, List.foldl_nil, serve_dma]
  obtain rfl | rfl | rfl : c = 0 ∨ c = 1 ∨ c = 2 := by omega
  all_goals simp

theorem line_dma (a : Chip) {c : Nat} (hc : c < 3) : (a.line mem).dma c = (a.dma c).lineStep mem a.needBus := by
  have hcount : a.countPauses.dma c = (a.dma c).countdown := if_pos hc
  rw [line, Channel.lineStep, Channel.fetches]
  cases a.needBus with
  | false => simpa using hcount
  | true => rw [if_pos rfl, serveAll_dma _ hc, hcount, Bool.true_and]

theorem needBus_of_ready {a : Chip} {c : Nat} (hc : c < 3) (h : (a.dma c).ready = true) : a.needBus = true := by
  rw [needBus]
  obtain rfl | rfl | rfl : c = 0 ∨ c = 1 ∨ c = 2 := by omega
  all_goals simp [h]

end Chip

/-! ## Programs do not depend on pauses -/

namespace Channel

variable {mem : UInt16 → UInt8} {ch ch' : Channel}

/-- The channel but for its pause. -/
def core (ch : Channel) : Channel := { ch with pauseTicks := 0, tickCycles := 0 }

theorem countdown_core (ch : Channel) : ch.countdown.core = ch.core := by
  rw [countdown]
  split_ifs <;> rfl

theorem source_of_core (h : ch.core = ch'.core) : ch.source = ch'.source := by
  have hsource := congrArg Channel.source h
  exact hsource

theorem enabled_of_core (h : ch.core = ch'.core) : ch.enabled = ch'.enabled := by
  have henabled := congrArg Channel.enabled h
  exact henabled

/-- One step of `exec`: what an instruction does that asks for it. -/
def when (ch : Channel) (b : Channel → Bool) (f : Channel → Channel) : Channel := if b ch then f ch else ch

theorem exec_eq (ch : Channel) (instr : UInt16) : ch.exec instr =
    ((((ch.when (fun _ => isPause instr) fun ch => { ch with pauseTicks := instr &&& 0x0FFF, tickCycles := 0 }).when
      (fun _ => isRepeat instr) fun ch => { ch with loops := instr &&& 0x0FFF, loopAddr := ch.source + 2 }).when
      (fun ch => isLoop instr && decide (0 < ch.loops)) fun ch => { ch with source := ch.loopAddr, loops := ch.loops - 1 }).when
      (fun _ => isInt instr) fun ch => { ch with int := true }).when
      (fun _ => isStop instr) fun ch => { ch with enabled := false } := rfl

variable {b : Channel → Bool} {f : Channel → Channel}

theorem when_of_true (h : b ch = true) : ch.when b f = f ch := if_pos h

theorem when_of_false (h : b ch = false) : ch.when b f = ch := if_neg (Bool.eq_false_iff.mp h)

theorem when_core (hb : ∀ ch, b ch = b ch.core)
    (hf : ∀ ch, (f ch).core = (f ch.core).core) (h : ch.core = ch'.core) : (ch.when b f).core = (ch'.when b f).core := by
  have hsame : b ch = b ch' := by rw [hb, h, ← hb]
  rw [when, when, hsame]
  split
  · rw [hf, h, ← hf]
  · exact h

theorem exec_core (ch : Channel) (instr : UInt16) : (ch.exec instr).core = (ch.core.exec instr).core := by
  rw [exec_eq, exec_eq]
  refine when_core (fun _ => rfl) (fun _ => rfl) ?_
  refine when_core (fun _ => rfl) (fun _ => rfl) ?_
  refine when_core (fun _ => rfl) (fun _ => rfl) ?_
  refine when_core (fun _ => rfl) (fun _ => rfl) ?_
  exact when_core (fun _ => rfl) (fun _ => rfl) rfl

theorem step_core (h : ch.core = ch'.core) : (ch.step mem).core = (ch'.step mem).core := by
  have hone : ∀ ch : Channel, (ch.step mem).core = (ch.core.step mem).core := by
    intro ch
    rw [step, step]
    have hsource : ch.core.source = ch.source := rfl
    rw [hsource]
    split
    · rfl
    · exact exec_core _ _
  rw [hone ch, h, ← hone]

theorem trace_core (k : Nat) (h : ch.core = ch'.core) : trace mem k ch = trace mem k ch' := by
  induction k generalizing ch ch' with
  | zero => rfl
  | succ k ih => rw [trace, trace, enabled_of_core h, source_of_core h, ih (step_core h)]

theorem steps_core (k : Nat) (h : ch.core = ch'.core) : (steps mem k ch).core = (steps mem k ch').core := by
  induction k generalizing ch ch' with
  | zero => exact h
  | succ k ih =>
    rw [steps, steps, enabled_of_core h]
    split
    · exact ih (step_core h)
    · exact h

theorem enabled_of_fetches {burst : Bool} (h : ch.fetches burst = true) : ch.enabled = true := by
  rw [fetches, Bool.and_eq_true, ready, Bool.and_eq_true] at h
  rw [enabled_of_core (countdown_core ch).symm]
  exact h.2.1

end Channel

/-! ## Scanlines execute the program -/

namespace Chip

variable {mem : UInt16 → UInt8}

theorem line_core (a : Chip) {c : Nat} (hc : c < 3) :
    ((a.line mem).dma c).core =
      if (a.dma c).fetches a.needBus then ((a.dma c).step mem).core else (a.dma c).core := by
  rw [line_dma a hc, Channel.lineStep]
  split
  · exact Channel.step_core (Channel.countdown_core _)
  · exact Channel.countdown_core _

theorem fetched_begins (a : Chip) {c : Nat} (hc : c < 3) (n : Nat) :
    fetched mem c n a = (a.dma c).trace mem (fetched mem c n a).length ∧
      ((lines mem n a).dma c).core = ((a.dma c).steps mem (fetched mem c n a).length).core := by
  induction n generalizing a with
  | zero => exact ⟨rfl, rfl⟩
  | succ n ih =>
    obtain ⟨htrace, hsteps⟩ := ih (a.line mem)
    have hcore := @line_core mem a c hc
    rw [fetched, lines]
    by_cases hfetch : (a.dma c).fetches a.needBus = true
    · rw [if_pos hfetch] at hcore ⊢
      rw [List.singleton_append, List.length_cons, Channel.trace, Channel.steps, if_pos (Channel.enabled_of_fetches hfetch),
        if_pos (Channel.enabled_of_fetches hfetch), hsteps, Channel.steps_core _ hcore, ← Channel.trace_core _ hcore, ← htrace]
      exact ⟨rfl, rfl⟩
    · rw [if_neg hfetch] at hcore ⊢
      rw [List.nil_append, hsteps, Channel.steps_core _ hcore, ← Channel.trace_core _ hcore, ← htrace]
      exact ⟨rfl, rfl⟩

end Chip

/-! ## Pauses -/

namespace Channel

variable {mem : UInt16 → UInt8} {ch : Channel}

/-- The scanlines that are left of a pause. -/
def pauseLines (ch : Channel) : Nat :=
  ch.pauseTicks.toNat * (ch.prescaler.toNat + 1) - min ch.tickCycles.toNat ch.prescaler.toNat

theorem pauseLines_eq_zero : ch.pauseLines = 0 ↔ ch.pauseTicks = 0 := by
  rw [← UInt16.toNat_inj, pauseLines]
  constructor
  · intro h
    by_contra hne
    have hpos : 1 ≤ ch.pauseTicks.toNat := Nat.pos_of_ne_zero hne
    have hmul := Nat.mul_le_mul_right (ch.prescaler.toNat + 1) hpos
    omega
  · intro h
    rw [h]
    simp

theorem ready_iff (h : ch.enabled = true) : ch.ready = true ↔ ch.pauseLines = 0 := by
  rw [pauseLines_eq_zero, ready, h, Bool.true_and, beq_iff_eq]

theorem countdown_pauseLines (h : ch.enabled = true) (hpause : ch.pauseLines ≠ 0) :
    ch.countdown.pauseLines + 1 = ch.pauseLines := by
  have hne : ch.pauseTicks ≠ 0 := fun h => hpause (pauseLines_eq_zero.mpr h)
  have hpos : 1 ≤ ch.pauseTicks.toNat := Nat.pos_of_ne_zero fun h => hne (UInt16.toNat_inj.mp h)
  have hmul := Nat.mul_le_mul_right (ch.prescaler.toNat + 1) hpos
  have hprescaler := ch.prescaler.toNat_lt
  rw [countdown, if_pos (by simp [h, hne])]
  split
  case isTrue hlt =>
    have hnext : (ch.tickCycles + 1).toNat = ch.tickCycles.toNat + 1 := by
      rw [UInt16.toNat_add]
      exact Nat.mod_eq_of_lt (by simp; omega)
    simp only [pauseLines, hnext]
    omega
  case isFalse hge =>
    have hprev : (ch.pauseTicks - 1).toNat = ch.pauseTicks.toNat - 1 :=
      UInt16.toNat_sub_of_le _ _ (UInt16.le_iff_toNat_le.mpr hpos)
    have hzero : (0 : UInt16).toNat = 0 := rfl
    simp only [pauseLines, hprev, hzero, Nat.sub_mul, Nat.one_mul]
    omega

end Channel

namespace Chip

variable {mem : UInt16 → UInt8}

/-- Another channel wants the bus. -/
def othersReady (a : Chip) (c : Nat) : Prop := ∃ d < 3, d ≠ c ∧ (a.dma d).ready = true

theorem needBus_iff {a : Chip} {c : Nat} (h : (a.dma c).ready = false) : a.needBus = true ↔ a.othersReady c := by
  constructor
  · intro hneed
    rw [needBus, Bool.or_eq_true, Bool.or_eq_true] at hneed
    have hne : ∀ d, (a.dma d).ready = true → d ≠ c := by
      rintro d hd rfl
      rw [h] at hd
      cases hd
    rcases hneed with (hd | hd) | hd
    · exact ⟨0, by decide, hne 0 hd, hd⟩
    · exact ⟨1, by decide, hne 1 hd, hd⟩
    · exact ⟨2, by decide, hne 2 hd, hd⟩
  · rintro ⟨d, hd, -, hready⟩
    exact needBus_of_ready hd hready

theorem fetched_ready {a : Chip} {c : Nat} (hc : c < 3) (henabled : (a.dma c).enabled = true)
    (h : (a.dma c).pauseLines = 0) : fetched mem c 1 a = [(a.dma c).source] := by
  have hready := (Channel.ready_iff henabled).mpr h
  have hcount : (a.countPauses.dma c).ready = true := ready_countPauses hready
  rw [countPauses] at hcount
  simp only [if_pos hc] at hcount
  rw [fetched, fetched, if_pos, List.append_nil]
  rw [Channel.fetches, needBus_of_ready hc hready, hcount]
  rfl

theorem line_paused {a : Chip} {c : Nat} (hc : c < 3) (henabled : (a.dma c).enabled = true) {n : Nat}
    (h : (a.dma c).pauseLines = n + 2) :
    (∀ k, fetched mem c (k + 1) a = fetched mem c k (a.line mem)) ∧ ((a.line mem).dma c).core = (a.dma c).core ∧
      ((a.line mem).dma c).pauseLines = n + 1 := by
  have hdown := Channel.countdown_pauseLines henabled (by omega)
  have hwaits : (a.dma c).fetches a.needBus = false := by
    rw [Channel.fetches, Bool.and_eq_false_iff]
    refine Or.inr (Bool.eq_false_iff.mpr fun hready => ?_)
    have hzero := (Channel.ready_iff (by rw [Channel.enabled_of_core (Channel.countdown_core _), henabled])).mp hready
    omega
  refine ⟨fun k => ?_, ?_, ?_⟩
  · rw [fetched, hwaits, if_neg Bool.false_ne_true, List.nil_append]
  · rw [line_core a hc, hwaits, if_neg Bool.false_ne_true]
  · rw [line_dma a hc, Channel.lineStep, hwaits, if_neg Bool.false_ne_true]
    omega

theorem line_resumes {a : Chip} {c : Nat} (hc : c < 3) (henabled : (a.dma c).enabled = true)
    (h : (a.dma c).pauseLines = 1) :
    fetched mem c 1 a = (if a.needBus then [(a.dma c).source] else []) ∧
      (a.needBus = false → fetched mem c 2 a = [(a.dma c).source]) := by
  have hdown := Channel.countdown_pauseLines henabled (by omega)
  have henabled' : (a.dma c).countdown.enabled = true := by
    rw [Channel.enabled_of_core (Channel.countdown_core _), henabled]
  have hready : (a.dma c).countdown.ready = true := (Channel.ready_iff henabled').mpr (by omega)
  have hfetches : (a.dma c).fetches a.needBus = a.needBus := by rw [Channel.fetches, hready, Bool.and_true]
  constructor
  · rw [fetched, fetched, hfetches, List.append_nil]
  · intro hneed
    have hline : (a.line mem).dma c = (a.dma c).countdown := by
      rw [line_dma a hc, Channel.lineStep, hfetches, hneed, if_neg Bool.false_ne_true]
    have hnext := @fetched_ready mem (a.line mem) c hc (by rw [hline, henabled']) (by rw [hline]; omega)
    rw [fetched, hfetches, hneed, if_neg Bool.false_ne_true, List.nil_append, hnext, hline,
      Channel.source_of_core (Channel.countdown_core _)]

/-- A pause lasts as long as its registers say, whatever the other channels do; on its last scanline the channel goes on
if another one takes the bus anyway, else on the scanline behind it. -/
theorem fetched_pause {a : Chip} {c : Nat} (hc : c < 3) (henabled : (a.dma c).enabled = true)
    (hpause : (a.dma c).pauseTicks ≠ 0) :
    let last := lines mem ((a.dma c).pauseLines - 1) a
    fetched mem c ((a.dma c).pauseLines - 1) a = [] ∧
      (last.othersReady c → fetched mem c (a.dma c).pauseLines a = [(a.dma c).source]) ∧
      (¬last.othersReady c → fetched mem c (a.dma c).pauseLines a = [] ∧
        fetched mem c ((a.dma c).pauseLines + 1) a = [(a.dma c).source]) := by
  obtain ⟨n, hn⟩ : ∃ n, (a.dma c).pauseLines = n + 1 :=
    Nat.exists_eq_succ_of_ne_zero fun h => hpause (Channel.pauseLines_eq_zero.mp h)
  rw [hn, Nat.add_sub_cancel]
  clear hpause
  -- On the lines of the pause but the last.
  induction n generalizing a with
  | zero =>
    -- In the last line the channel is served only if another one asks for the bus.
    obtain ⟨hlast, hnext⟩ := @line_resumes mem a c hc henabled hn
    have hwaits : (a.dma c).ready = false := by
      rw [← Bool.not_eq_true, Channel.ready_iff henabled]
      omega
    refine ⟨rfl, fun h => ?_, fun h => ?_⟩
    · rw [hlast, (needBus_iff hwaits).mpr h, if_pos rfl]
    · have hneed : a.needBus = false := Bool.eq_false_iff.mpr fun hneed => h ((needBus_iff hwaits).mp hneed)
      rw [hlast, hneed, if_neg Bool.false_ne_true]
      exact ⟨rfl, hnext hneed⟩
  | succ n ih =>
    obtain ⟨hfetched, hcore, hpause⟩ := @line_paused mem a c hc henabled n hn
    have hrest := ih (by rw [Channel.enabled_of_core hcore, henabled]) hpause
    rw [Channel.source_of_core hcore] at hrest
    rw [hfetched n, hfetched (n + 1), hfetched (n + 1 + 1)]
    exact hrest

theorem lines_add (a : Chip) (m n : Nat) : lines mem (m + n) a = lines mem n (lines mem m a) := by
  induction m generalizing a with
  | zero => rw [Nat.zero_add, lines]
  | succ m ih => rw [Nat.succ_add, lines, lines, ih]

theorem fetched_add (a : Chip) (c m n : Nat) :
    fetched mem c (m + n) a = fetched mem c m a ++ fetched mem c n (lines mem m a) := by
  induction m generalizing a with
  | zero => rw [Nat.zero_add, fetched, lines, List.nil_append]
  | succ m ih => rw [Nat.succ_add, fetched, fetched, lines, ih, List.append_assoc]

theorem fetched_next (a : Chip) {c : Nat} (hc : c < 3) (henabled : (a.dma c).enabled = true) :
    ∃ n, fetched mem c n a = [(a.dma c).source] := by
  by_cases hpause : (a.dma c).pauseTicks = 0
  · exact ⟨1, fetched_ready hc henabled (Channel.pauseLines_eq_zero.mpr hpause)⟩
  · obtain ⟨-, hothers, halone⟩ := @fetched_pause mem a c hc henabled hpause
    by_cases h : (lines mem ((a.dma c).pauseLines - 1) a).othersReady c
    · exact ⟨_, hothers h⟩
    · exact ⟨_, (halone h).2⟩

/-- Over any number of scanlines a channel executes the instructions of its program, in order and none twice, and there are
scanlines enough to get as far in it as one likes. -/
theorem fetched_program (a : Chip) {c : Nat} (hc : c < 3) :
    (∀ n, ∃ k ≤ n, fetched mem c n a = (a.dma c).trace mem k ∧ ((lines mem n a).dma c).core = ((a.dma c).steps mem k).core) ∧
      ∀ k, ∃ n, fetched mem c n a = (a.dma c).trace mem k ∧ ((lines mem n a).dma c).core = ((a.dma c).steps mem k).core := by
  constructor
  · -- In `n` lines at most `n` instructions are fetched, and they are a start of the program's.
    intro n
    refine ⟨_, ?_, fetched_begins a hc n⟩
    induction n generalizing a with
    | zero => exact Nat.le_refl 0
    | succ n ih =>
      rw [fetched, List.length_append]
      have hrest := ih (a.line mem)
      split <;> simp only [List.length_singleton, List.length_nil] <;> omega
  · intro k
    induction k generalizing a with
    | zero => exact ⟨0, rfl, rfl⟩
    | succ k ih =>
      rw [Channel.trace, Channel.steps]
      cases henabled : (a.dma c).enabled with
      | false => exact ⟨0, rfl, rfl⟩
      | true =>
        -- The pause runs out: within `m` lines the next instruction is fetched.
        obtain ⟨m, hfirst⟩ := @fetched_next mem a c hc henabled
        have hcore := (@fetched_begins mem a c hc m).2
        rw [hfirst, List.length_singleton, Channel.steps, henabled, if_pos rfl, Channel.steps] at hcore
        obtain ⟨n, hrest, hend⟩ := ih (lines mem m a)
        refine ⟨m + n, ?_, ?_⟩
        · rw [fetched_add, hfirst, hrest, Channel.trace_core k hcore, if_pos rfl]
          rfl
        · rw [lines_add, hend, if_pos rfl]
          exact Channel.steps_core k hcore

end Chip

/-! ## Loops -/

namespace Channel

variable {mem : UInt16 → UInt8} {ch : Channel}

/-- The address of an instruction behind another. -/
def behind (addr : UInt16) (i : Nat) : UInt16 := addr + 2 * UInt16.ofNat i

/-- The instructions from an address on. -/
def block (addr : UInt16) (m : Nat) : List UInt16 := (List.range m).map (behind addr)

/-- The instruction goes on to the one behind it, and leaves the loop alone. -/
def Plain (instr : UInt16) : Prop := isRepeat instr = false ∧ isLoop instr = false ∧ isStop instr = false

theorem behind_zero (addr : UInt16) : behind addr 0 = addr := by
  simp [behind]

theorem behind_succ (addr : UInt16) (i : Nat) : behind addr (i + 1) = behind (addr + 2) i := by
  have hsucc : UInt16.ofNat (i + 1) = UInt16.ofNat i + 1 := UInt16.ofNat_add i 1
  rw [behind, behind, hsucc, UInt16.mul_add, UInt16.mul_one, UInt16.add_comm (2 * _) 2, ← UInt16.add_assoc]

theorem block_succ (addr : UInt16) (m : Nat) : block addr (m + 1) = addr :: block (addr + 2) m := by
  rw [block, List.range_succ_eq_map, List.map_cons, behind_zero, List.map_map, block]
  simp only [Function.comp_def, behind_succ]

theorem trace_add (j k : Nat) (ch : Channel) : trace mem (j + k) ch = trace mem j ch ++ trace mem k (steps mem j ch) := by
  induction j generalizing ch with
  | zero => rw [Nat.zero_add, trace, steps, List.nil_append]
  | succ j ih =>
    rw [Nat.succ_add, trace, trace, steps]
    cases henabled : ch.enabled with
    | true => simp [ih]
    | false =>
      cases k <;> simp [trace, henabled]

theorem steps_add (j k : Nat) (ch : Channel) : steps mem (j + k) ch = steps mem k (steps mem j ch) := by
  induction j generalizing ch with
  | zero => rw [Nat.zero_add, steps]
  | succ j ih =>
    rw [Nat.succ_add, steps, steps]
    cases henabled : ch.enabled with
    | true => simp [ih]
    | false => cases k <;> simp [steps, henabled]

theorem not_load {instr : UInt16} (h : isRepeat instr = true ∨ isLoop instr = true) : isLoad instr = false := by
  rw [isLoad, beq_eq_false_iff_ne]
  intro hzero
  rw [isRepeat, isLoop, hzero] at h
  simp at h

theorem step_loops (ch : Channel) (h : isLoad (instrAt mem ch.source) = false) (hstop : isStop (instrAt mem ch.source) = false) :
    ch.step mem = ({ ch with source := ch.source + 2 } : Channel).exec (instrAt mem ch.source) ∧
      (ch.step mem).enabled = ch.enabled := by
  have hstep : ch.step mem = ({ ch with source := ch.source + 2 } : Channel).exec (instrAt mem ch.source) := by
    rw [step, h, if_neg Bool.false_ne_true]
  refine ⟨hstep, ?_⟩
  rw [hstep, exec_enabled, hstop, Bool.not_false, Bool.and_true]

theorem when_keeps {b : Channel → Bool} {f : Channel → Channel}
    (hf : ∀ ch, (f ch).source = ch.source ∧ (f ch).loops = ch.loops ∧ (f ch).loopAddr = ch.loopAddr) :
    (ch.when b f).source = ch.source ∧ (ch.when b f).loops = ch.loops ∧ (ch.when b f).loopAddr = ch.loopAddr := by
  rw [when]
  split
  · exact hf ch
  · exact ⟨rfl, rfl, rfl⟩

theorem exec_loop (ch : Channel) (instr : UInt16) : ∃ x y : Channel,
    (x.source = ch.source ∧ x.loops = ch.loops ∧ x.loopAddr = ch.loopAddr) ∧
      y = (x.when (fun _ => isRepeat instr) fun ch => { ch with loops := instr &&& 0x0FFF, loopAddr := ch.source + 2 }).when
        (fun ch => isLoop instr && decide (0 < ch.loops)) (fun ch => { ch with source := ch.loopAddr, loops := ch.loops - 1 }) ∧
      (ch.exec instr).source = y.source ∧ (ch.exec instr).loops = y.loops ∧ (ch.exec instr).loopAddr = y.loopAddr := by
  rw [exec_eq]
  have hpause := @when_keeps ch (fun _ => isPause instr) (fun ch => { ch with pauseTicks := instr &&& 0x0FFF, tickCycles := 0 })
    fun _ => ⟨rfl, rfl, rfl⟩
  refine ⟨_, _, hpause, rfl, ?_⟩
  obtain ⟨hsource, hloops, hloopAddr⟩ := @when_keeps _ (fun _ => isStop instr) (fun ch => { ch with enabled := false })
    fun _ => ⟨rfl, rfl, rfl⟩
  rw [hsource, hloops, hloopAddr]
  exact when_keeps fun _ => ⟨rfl, rfl, rfl⟩

theorem step_plain (h : Plain (instrAt mem ch.source)) :
    (ch.step mem).source = ch.source + 2 ∧ (ch.step mem).loops = ch.loops ∧ (ch.step mem).loopAddr = ch.loopAddr ∧
      (ch.step mem).enabled = ch.enabled := by
  obtain ⟨hrepeat, hloop, hstop⟩ := h
  by_cases hload : isLoad (instrAt mem ch.source) = true
  · rw [step, if_pos hload]
    exact ⟨rfl, rfl, rfl, rfl⟩
  · obtain ⟨hstep, henabled⟩ := step_loops ch (Bool.eq_false_iff.mpr hload) hstop
    obtain ⟨x, y, ⟨hsource, hloops, hloopAddr⟩, hy, hexec⟩ :=
      exec_loop { ch with source := ch.source + 2 } (instrAt mem ch.source)
    rw [when_of_false (by rw [hloop, Bool.false_and]), when_of_false (b := fun _ => isRepeat _) hrepeat] at hy
    rw [hy, hsource, hloops, hloopAddr] at hexec
    refine ⟨?_, ?_, ?_, henabled⟩
    · rw [hstep, hexec.1]
    · rw [hstep, hexec.2.1]
    · rw [hstep, hexec.2.2]

theorem step_repeat (hrepeat : isRepeat (instrAt mem ch.source) = true) (hloop : isLoop (instrAt mem ch.source) = false)
    (hstop : isStop (instrAt mem ch.source) = false) :
    (ch.step mem).source = ch.source + 2 ∧ (ch.step mem).loops = instrAt mem ch.source &&& 0x0FFF ∧
      (ch.step mem).loopAddr = ch.source + 2 + 2 ∧ (ch.step mem).enabled = ch.enabled := by
  obtain ⟨hstep, henabled⟩ := step_loops ch (not_load (Or.inl hrepeat)) hstop
  obtain ⟨x, y, ⟨hsource, -, -⟩, hy, hexec⟩ := exec_loop { ch with source := ch.source + 2 } (instrAt mem ch.source)
  rw [when_of_false (by rw [hloop, Bool.false_and]), when_of_true (b := fun _ => isRepeat _) hrepeat] at hy
  rw [hy] at hexec
  dsimp only at hexec
  rw [hsource] at hexec
  refine ⟨?_, ?_, ?_, henabled⟩
  · rw [hstep, hexec.1]
  · rw [hstep, hexec.2.1]
  · rw [hstep, hexec.2.2]

/-- The instruction closes a loop. -/
def Closes (instr : UInt16) : Prop := isLoop instr = true ∧ isRepeat instr = false ∧ isStop instr = false

theorem step_closes (h : Closes (instrAt mem ch.source)) :
    (ch.step mem).source = (if 0 < ch.loops then ch.loopAddr else ch.source + 2) ∧
      (ch.step mem).loops = (if 0 < ch.loops then ch.loops - 1 else ch.loops) ∧
      (ch.step mem).loopAddr = ch.loopAddr ∧ (ch.step mem).enabled = ch.enabled := by
  obtain ⟨hloop, hrepeat, hstop⟩ := h
  obtain ⟨hstep, henabled⟩ := step_loops ch (not_load (Or.inr hloop)) hstop
  obtain ⟨x, y, ⟨hsource, hloops, hloopAddr⟩, hy, hexec⟩ :=
    exec_loop { ch with source := ch.source + 2 } (instrAt mem ch.source)
  rw [when_of_false (b := fun _ => isRepeat _) hrepeat, when, hloop, Bool.true_and, hloops] at hy
  rw [hstep, hexec.1, hexec.2.1, hexec.2.2, ← hstep, henabled, hy]
  by_cases hpos : 0 < ch.loops
  · rw [if_pos (decide_eq_true hpos), if_pos hpos, if_pos hpos]
    exact ⟨hloopAddr, rfl, hloopAddr, rfl⟩
  · rw [if_neg (by rwa [decide_eq_true_iff]), if_neg hpos, if_neg hpos]
    exact ⟨hsource, hloops, hloopAddr, rfl⟩

theorem trace_plain (m : Nat) (henabled : ch.enabled = true)
    (h : ∀ i < m, Plain (instrAt mem (behind ch.source i))) :
    trace mem m ch = block ch.source m ∧ (steps mem m ch).source = behind ch.source m ∧
      (steps mem m ch).loops = ch.loops ∧ (steps mem m ch).loopAddr = ch.loopAddr ∧ (steps mem m ch).enabled = true := by
  induction m generalizing ch with
  | zero => exact ⟨rfl, (behind_zero _).symm, rfl, rfl, henabled⟩
  | succ m ih =>
    have hfirst := h 0 (Nat.succ_pos m)
    rw [behind_zero] at hfirst
    obtain ⟨hsource, hloops, hloopAddr, hon⟩ := step_plain hfirst
    have hrest := ih (hon.trans henabled) fun i hi => by
      rw [hsource, ← behind_succ]
      exact h (i + 1) (Nat.succ_lt_succ hi)
    rw [hsource, hloops, hloopAddr] at hrest
    rw [trace, steps, if_pos henabled, if_pos henabled, block_succ, behind_succ, hrest.1]
    exact ⟨rfl, hrest.2⟩

theorem trace_body (m : Nat) (henabled : ch.enabled = true) (h : ∀ i < m, Plain (instrAt mem (behind ch.source i)))
    (hloop : Closes (instrAt mem (behind ch.source m))) :
    trace mem (m + 1) ch = block ch.source (m + 1) ∧
      (steps mem (m + 1) ch).source = (if 0 < ch.loops then ch.loopAddr else behind ch.source (m + 1)) ∧
      (steps mem (m + 1) ch).loops = (if 0 < ch.loops then ch.loops - 1 else ch.loops) ∧
      (steps mem (m + 1) ch).loopAddr = ch.loopAddr ∧ (steps mem (m + 1) ch).enabled = true := by
  obtain ⟨htrace, hsource, hloops, hloopAddr, hon⟩ := trace_plain m henabled h
  rw [← hsource] at hloop
  have hclose := step_closes hloop
  have hlast : block ch.source (m + 1) = block ch.source m ++ [behind ch.source m] := by
    rw [block, List.range_succ, List.map_append, block]
    rfl
  have hend : behind ch.source m + 2 = behind ch.source (m + 1) := by
    have hsucc : UInt16.ofNat (m + 1) = UInt16.ofNat m + 1 := UInt16.ofNat_add m 1
    rw [behind, behind, hsucc, UInt16.mul_add, UInt16.mul_one, UInt16.add_assoc]
  rw [hsource, hloops, hloopAddr, hon, hend] at hclose
  rw [trace_add, steps_add, htrace, hlast, trace, steps, hon, if_pos rfl, if_pos rfl, hsource]
  exact ⟨rfl, hclose⟩

theorem trace_loop (m n : Nat) (henabled : ch.enabled = true) (h : ∀ i < m, Plain (instrAt mem (behind ch.source i)))
    (hloop : Closes (instrAt mem (behind ch.source m))) (hcount : ch.loops.toNat = n) (hback : ch.loopAddr = ch.source) :
    trace mem ((n + 1) * (m + 1)) ch = (List.replicate (n + 1) (block ch.source (m + 1))).flatten ∧
      (steps mem ((n + 1) * (m + 1)) ch).source = behind ch.source (m + 1) ∧
      (steps mem ((n + 1) * (m + 1)) ch).loops = 0 ∧ (steps mem ((n + 1) * (m + 1)) ch).enabled = true := by
  -- On the passes left: each runs the body once and takes one off the loop counter.
  induction n generalizing ch with
  | zero =>
    obtain ⟨htrace, hsource, hloops, -, hon⟩ := trace_body m henabled h hloop
    have hzero : ch.loops = 0 := UInt16.toNat_inj.mp hcount
    rw [hzero, if_neg (by decide)] at hsource hloops
    rw [Nat.zero_add, Nat.one_mul, htrace]
    exact ⟨by simp, hsource, hloops, hon⟩
  | succ n ih =>
    obtain ⟨htrace, hsource, hloops, hloopAddr, hon⟩ := trace_body m henabled h hloop
    have hpos : 0 < ch.loops := by
      rw [UInt16.lt_iff_toNat_lt, hcount]
      exact Nat.succ_pos n
    have hless : (ch.loops - 1).toNat = n := by
      rw [UInt16.toNat_sub_of_le _ _ (UInt16.le_iff_toNat_le.mpr (by rw [hcount]; exact Nat.succ_pos n)), hcount]
      rfl
    rw [if_pos hpos, hback] at hsource
    rw [if_pos hpos] at hloops
    have hrest := @ih (steps mem (m + 1) ch) hon
    rw [hsource, hloops, hloopAddr] at hrest
    obtain ⟨htrace', hsource', hloops', hon'⟩ := hrest h hloop hless hback
    have hlen : (n + 1 + 1) * (m + 1) = m + 1 + (n + 1) * (m + 1) := by
      rw [Nat.succ_mul, Nat.add_comm]
    -- The first pass, then the passes of the induction.
    rw [hlen, trace_add (m + 1), steps_add (m + 1), htrace, htrace', List.replicate_succ (n := n + 1), List.flatten_cons]
    exact ⟨rfl, hsource', hloops', hon'⟩

/-- The channel is at a REPEAT, and the instruction that closes the loop comes behind `m` others. -/
structure AtRepeat (mem : UInt16 → UInt8) (ch : Channel) (m : Nat) : Prop where
  opens : isRepeat (instrAt mem ch.source) = true
  noLoop : isLoop (instrAt mem ch.source) = false
  noStop : isStop (instrAt mem ch.source) = false
  pos : 0 < m
  plain : ∀ i < m, Plain (instrAt mem (behind (ch.source + 2) i))
  closes : Closes (instrAt mem (behind (ch.source + 2) m))

variable (mem ch) in
/-- What the loop executes. The instruction behind the REPEAT is executed once, for the loop goes back to the one behind it;
that one and the others, up to the LOOP, are executed once more than the count says. -/
def unrolled (m : Nat) : List UInt16 :=
  ch.source :: block (ch.source + 2) (m + 1) ++
    (List.replicate (instrAt mem ch.source &&& 0x0FFF).toNat (block (ch.source + 2 + 2) m)).flatten

theorem trace_repeat {m : Nat} (henabled : ch.enabled = true) (h : AtRepeat mem ch m) :
    ∃ k, trace mem k ch = unrolled mem ch m ∧ (steps mem k ch).source = behind (ch.source + 2) (m + 1) ∧
      (steps mem k ch).loops = 0 ∧ (steps mem k ch).enabled = true := by
  obtain ⟨hrepeat, hnoLoop, hnoStop, hm, hplain, hloop⟩ := h
  rw [unrolled]
  obtain ⟨m, rfl⟩ := Nat.exists_eq_succ_of_ne_zero (Nat.pos_iff_ne_zero.mp hm)
  obtain ⟨hsource, hloops, hloopAddr, hon⟩ := step_repeat hrepeat hnoLoop hnoStop
  have hbody := @trace_body mem (ch.step mem) (m + 1) (hon.trans henabled)
  rw [hsource, hloops, hloopAddr] at hbody
  obtain ⟨htrace, hsource', hloops', hloopAddr', hon'⟩ := hbody hplain hloop
  have hfirst : ∀ k, trace mem (k + 1) ch = ch.source :: trace mem k (ch.step mem) ∧
      steps mem (k + 1) ch = steps mem k (ch.step mem) := by
    intro k
    rw [trace, steps, if_pos henabled, if_pos henabled]
    exact ⟨rfl, rfl⟩
  -- `count` is what the REPEAT puts into the loop counter: how often the LOOP goes back.
  generalize hcount : instrAt mem ch.source &&& 0x0FFF = count at *
  by_cases hzero : 0 < count
  · rw [if_pos hzero] at hsource' hloops'
    obtain ⟨n, hn⟩ := Nat.exists_eq_succ_of_ne_zero (Nat.pos_iff_ne_zero.mp (UInt16.lt_iff_toNat_lt.mp hzero))
    have hone : (1 : UInt16).toNat ≤ count.toNat := UInt16.lt_iff_toNat_lt.mp hzero
    have hless : (count - 1).toNat = n := by
      rw [UInt16.toNat_sub_of_le _ _ (UInt16.le_iff_toNat_le.mpr hone), hn]
      rfl
    -- Behind the first pass over the body, the LOOP runs it as often as is still due.
    have hrest := @trace_loop mem (steps mem (m + 1 + 1) (ch.step mem)) m n hon'
    rw [hsource', hloops', hloopAddr'] at hrest
    have hbehind : ∀ i, behind (ch.source + 2 + 2) i = behind (ch.source + 2) (i + 1) := fun i => (behind_succ _ i).symm
    obtain ⟨htrace'', hsource'', hloops'', hon''⟩ := hrest
      (fun i hi => by rw [hbehind]; exact hplain (i + 1) (Nat.succ_lt_succ hi)) (by rw [hbehind]; exact hloop) hless rfl
    refine ⟨m + 1 + 1 + (n + 1) * (m + 1) + 1, ?_⟩
    rw [(hfirst _).1, (hfirst _).2, trace_add (m + 1 + 1), steps_add (m + 1 + 1), htrace, htrace'', hn]
    exact ⟨rfl, by rw [hsource'', hbehind], hloops'', hon''⟩
  · rw [if_neg hzero] at hsource' hloops'
    have hcount0 : count = 0 := UInt16.toNat_inj.mp (Nat.eq_zero_of_not_pos fun h => hzero (UInt16.lt_iff_toNat_lt.mpr h))
    refine ⟨m + 1 + 1 + 1, ?_⟩
    rw [(hfirst _).1, (hfirst _).2, htrace, hcount0]
    exact ⟨by simp, hsource', hloops'.trans hcount0, hon'⟩

end Channel

namespace Chip

variable {mem : UInt16 → UInt8}

/-- The scanlines execute a loop to its end, and the channel goes on behind it. -/
theorem fetched_repeat {a : Chip} {c m : Nat} (hc : c < 3) (henabled : (a.dma c).enabled = true)
    (h : (a.dma c).AtRepeat mem m) :
    ∃ n, fetched mem c n a = (a.dma c).unrolled mem m ∧
      ((lines mem n a).dma c).source = Channel.behind ((a.dma c).source + 2) (m + 1) ∧
      ((lines mem n a).dma c).loops = 0 ∧ ((lines mem n a).dma c).enabled = true := by
  obtain ⟨k, htrace, hsource, hloops, hon⟩ := Channel.trace_repeat henabled h
  obtain ⟨n, hfetched, hcore⟩ := (@fetched_program mem a c hc).2 k
  have hloops' : ((lines mem n a).dma c).core.loops = ((a.dma c).steps mem k).core.loops := congrArg Channel.loops hcore
  exact ⟨n, hfetched.trans htrace, (Channel.source_of_core hcore).trans hsource, hloops'.trans hloops,
    (Channel.enabled_of_core hcore).trans hon⟩

/-- A REPEAT of 2 with two LOADs behind it and a LOOP. -/
def loopMem (addr : UInt16) : UInt8 :=
  if addr = 0 then 0x02 else if addr = 1 then 0x20 else if addr = 6 then 0x01 else if addr = 7 then 0x40 else 0

def oneChannel : Chip := { dma := fun c => if c = 0 then { enabled := true } else {} }

theorem fetched_program_loopMem : ∃ n, fetched loopMem 0 n oneChannel = [0, 2, 4] := by
  obtain ⟨n, hfetched, -⟩ := (@fetched_program loopMem oneChannel 0 (by decide)).2 3
  exact ⟨n, hfetched⟩

theorem fetched_repeat_loopMem : ∃ n, fetched loopMem 0 n oneChannel = [0, 2, 4, 6, 4, 6, 4, 6] := by
  have hrepeat : (oneChannel.dma 0).AtRepeat loopMem 2 :=
    ⟨by decide, by decide, by decide, by decide, by unfold Channel.Plain; decide, by unfold Channel.Closes; decide⟩
  obtain ⟨n, hfetched, -⟩ := @fetched_repeat loopMem oneChannel 0 2 (by decide) rfl hrepeat
  exact ⟨n, hfetched⟩

/-- A pause of two ticks of two scanlines each. -/
def pausedChannel : Chip := { dma := fun c => if c = 0 then { enabled := true, pauseTicks := 2, prescaler := 1 } else {} }

theorem fetched_pause_pausedChannel : fetched loopMem 0 3 pausedChannel = [] ∧ fetched loopMem 0 5 pausedChannel = [0] := by
  obtain ⟨hwaits, -, halone⟩ := @fetched_pause loopMem pausedChannel 0 (by decide) rfl (by decide)
  have hnone : ¬(lines loopMem ((pausedChannel.dma 0).pauseLines - 1) pausedChannel).othersReady 0 := by
    rintro ⟨d, hd, hne, hready⟩
    obtain rfl | rfl : d = 1 ∨ d = 2 := by omega
    all_goals exact absurd hready (by decide)
  exact ⟨hwaits, (halone hnone).2⟩

end Chip

end Koncepcja.Asic
