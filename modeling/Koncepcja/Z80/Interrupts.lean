import Koncepcja.Z80.Enable
import Koncepcja.Z80.TState

/-!
# The Interrupt Discipline

A run of `z80_tick` seen from outside: a watch beside the CPU follows the opcode bytes on the bus
and the interrupts accepted, without looking at the prefix latches or the shadow of EI. Every
acceptance and every RETN of the run is judged by what the watch has seen.

## Main results

- `kept_tick`: what the watch knows agrees with the CPU, tick after tick.
- `disciplined_of_run`: no acceptance inside an instruction or, for a maskable interrupt, after EI;
  IFF1 implies IFF2; RETN puts IFF2 back, which nothing but EI, DI and a maskable interrupt has
  changed since the NMI.
-/

namespace Koncepcja.Z80

set_option maxRecDepth 20000

/-! ## The watch -/

/-- The prefixes in front of the next opcode byte, as far as they decide how it is read. -/
inductive Pre where
  | none
  | index
  | ed
  | cb
  deriving DecidableEq, Repr

/-- The instructions that have to do with the interrupt flip-flops. -/
inductive Kind where
  | ei
  | di
  /-- RETN with its mirrors, RETI among them. -/
  | retn
  | other
  deriving DecidableEq, Repr

namespace Pre

/-- The prefixes after one more opcode byte. The bytes after DD CB and FD CB are operands. -/
def next (p : Pre) (op : Byte) : Pre :=
  match p with
  | .ed | .cb => .none
  | p =>
    if op = 0xDD ∨ op = 0xFD then .index
    else if op = 0xED then .ed
    else if op = 0xCB ∧ p = .none then .cb
    else .none

/-- The instruction an opcode byte is, read after these prefixes. -/
def kind (p : Pre) (op : Byte) : Kind :=
  match p with
  | .ed => if op &&& 0xC7 = 0x45 then .retn else .other
  | .cb => .other
  | _ => if op = 0xFB then .ei else if op = 0xF3 then .di else .other

end Pre

structure Watch where
  pre : Pre
  /-- The opcode fetched last, `other` once an interrupt is accepted. -/
  last : Kind
  /-- IFF1 and IFF2 as the last NMI found them, until EI, DI or a maskable interrupt. -/
  saved : Option (Bool × Bool)
  deriving DecidableEq, Repr

/-- The tick is T3 of an opcode fetch. -/
def Z80State.fetches (z : Z80State) (inp : Bus) : Bool :=
  inp.clk.cpu && !z.cpu.halted && z.mc = .m1 && z.t = 2

/-- The interrupt accepted by a tick from `z` to `z'`. -/
def accepted (z z' : Z80State) : Servicing :=
  if z.cpu.core.seq.servicing = .none then z'.cpu.core.seq.servicing else .none

namespace Watch

def fetch (w : Watch) (op : Byte) : Watch where
  pre := w.pre.next op
  last := w.pre.kind op
  saved := if w.pre.kind op = .ei ∨ w.pre.kind op = .di then none else w.saved

def observe (w : Watch) (z : Z80State) (inp : Bus) (z' : Z80State) : Watch :=
  match accepted z z' with
  | .nmi => { w with last := .other, saved := some (z.cpu.core.iff1, z.cpu.core.iff2) }
  | .maskable => { w with last := .other, saved := none }
  | .none => if z.fetches inp then w.fetch inp.cpu.data else w

end Watch

/-- The CPU and the watch. -/
structure Observed where
  z80 : Z80State
  watch : Watch

/-- The CPU out of reset, before it has fetched anything. -/
def Observed.reset : Observed where
  z80 := z80Reset
  watch := { pre := .none, last := .other, saved := none }

/-- One master cycle, with the committed bus and what the others drive on the next one. -/
def Observed.tick (o : Observed) (io : Bus × CpuBus) : Observed where
  z80 := (z80Tick o.z80 io.1 io.2).1
  watch := o.watch.observe o.z80 io.1 (z80Tick o.z80 io.1 io.2).1

/-- A run out of reset. -/
def observedRun (ticks : List (Bus × CpuBus)) : Observed := ticks.foldl Observed.tick .reset

/-! ## The discipline -/

/-- The tick from `z` to `z'` completes a RETN. -/
def Watch.CompletesRetn (w : Watch) (z z' : Z80State) : Prop :=
  w.last = .retn ∧ z'.cpu.core.seq.instrCount ≠ z.cpu.core.seq.instrCount

/-- What the watch asks of a tick from `z` to `z'`. -/
structure Disciplined (w : Watch) (z z' : Z80State) : Prop where
  /-- No interrupt is accepted between a prefix and its opcode. -/
  wholeInstruction : accepted z z' ≠ .none → w.pre = .none
  /-- No maskable interrupt is accepted directly after EI. -/
  shadow : accepted z z' = .maskable → w.last ≠ .ei
  iff : z'.cpu.core.iff1 = true → z'.cpu.core.iff2 = true
  /-- RETN copies IFF2 to IFF1. -/
  retn : w.CompletesRetn z z' →
    z'.cpu.core.iff1 = z.cpu.core.iff2 ∧ z'.cpu.core.iff2 = z.cpu.core.iff2
  /-- IFF2 is still as the NMI found it. -/
  kept : ∀ i1 i2, w.saved = some (i1, i2) → z.cpu.core.iff2 = i2

/-! ## What the CPU knows of the same -/

/-- The prefix latches after these prefixes. -/
def Follows (p : Pre) (s : Seq) : Prop :=
  match p with
  | .none => s.prefixByte = 0 ∧ s.index = .hl
  | .index => s.prefixByte = 0 ∧ s.index ≠ .hl
  | .ed => s.prefixByte = 0xED
  | .cb => s.prefixByte = 0xCB

/-- The opcode latch holds the byte the watch saw last. -/
def Reads (w : Watch) (s : Seq) : Prop :=
  ∃ p, Follows p s ∧ w.pre = p.next s.opcode ∧ w.last = p.kind s.opcode

/-- An instruction past its fetch has no prefix left to come, and an interrupt sequence forgets the
instruction before it. -/
def Executing (w : Watch) (s : Seq) : Prop :=
  w.pre = .none ∧ if s.servicing = .none then Reads w s else w.last = .other

/-- The watch beside the CPU's core, machine cycle and T-state. -/
structure Sound (w : Watch) (c : Core) (mc : MC) (t : Nat) : Prop where
  iff : c.iff1 = true → c.iff2 = true
  saved : ∀ i1 i2, w.saved = some (i1, i2) → c.iff2 = i2 ∧ w.last ≠ .ei ∧ w.last ≠ .di
  halted : c.seq.halted = true → mc = .m1 ∧ t = 0
  /-- In an opcode fetch no interrupt is being serviced. -/
  idle : mc = .m1 → c.seq.servicing = .none
  /-- Up to T2 the latches are those of the bytes seen; the shadow of EI lasts until T1. -/
  fetching : mc = .m1 → t < 3 → Follows w.pre c.seq ∧ (t = 0 → w.last = .ei → c.eiDelay = true)
  fetched : mc = .m1 → 3 ≤ t → Reads w c.seq
  executing : mc ≠ .m1 → Executing w c.seq

/-! ## One micro-operation -/

theorem retn_byte (op : Byte) : op &&& 0xC7 = 0x45 ↔ Core.opX op = 1 ∧ Core.opZ op = 5 := by
  revert op
  decide

theorem follows_plain {c : Core} {p : Pre} (hs : c.seq.servicing = .none)
    (h : Follows p c.seq) (hp : p = .none ∨ p = .index) : c.Plain := by
  have hzero : c.seq.prefixByte = 0 := by rcases hp with rfl | rfl <;> exact h.1
  refine ⟨hs, ?_, ?_⟩ <;> rw [hzero] <;> decide

theorem enable_runMicro {c : Core} {p : Pre} (hs : c.seq.servicing = .none)
    (h : Follows p c.seq) :
    c.runMicro.1.enable =
      match p.kind c.seq.opcode with
      | .ei => ⟨true, true, true⟩
      | .di => ⟨false, false, c.eiDelay⟩
      | .retn => if c.runMicro.2 = .m1 then ⟨c.iff2, c.iff2, c.eiDelay⟩ else c.enable
      | .other => c.enable := by
  -- Behind ED only RETN and its copies move the flip-flops, and behind CB nothing does.
  cases p with
  | ed =>
    have hed : c.seq.prefixByte = 0xED := h
    have hplain : ¬c.Plain := fun hp => hp.2.2 hed
    by_cases hop : c.seq.opcode &&& 0xC7 = 0x45
    · rw [show Pre.kind .ed c.seq.opcode = .retn from if_pos hop]
      obtain ⟨hx, hz⟩ := (retn_byte _).1 hop
      exact Core.enable_runMicro_retn ⟨hs, hed, hx, hz⟩
    · rw [show Pre.kind .ed c.seq.opcode = .other from if_neg hop]
      apply Core.enable_runMicro_other (fun hp => absurd hp hplain) (fun hp => absurd hp hplain)
      rintro ⟨-, -, hx, hz⟩
      exact hop ((retn_byte _).2 ⟨hx, hz⟩)
  | cb =>
    have hcb : c.seq.prefixByte = 0xCB := h
    have hplain : ¬c.Plain := fun hp => hp.2.1 hcb
    apply Core.enable_runMicro_other (fun hp => absurd hp hplain) (fun hp => absurd hp hplain)
    rintro ⟨-, hed, -⟩
    rw [hcb] at hed
    exact absurd hed (by decide)
  | _ =>
    -- Behind any other prefix, or none, EI and DI do.
    have hplain := follows_plain hs h (by simp)
    dsimp only [Pre.kind]
    by_cases hei : c.seq.opcode = 0xFB
    · rw [if_pos hei, Core.runMicro_ei hplain hei]
      rfl
    by_cases hdi : c.seq.opcode = 0xF3
    · rw [if_neg hei, if_pos hdi, Core.runMicro_di hplain hdi]
      rfl
    · rw [if_neg hei, if_neg hdi]
      exact Core.enable_runMicro_other (fun _ => hei) (fun _ => hdi)
        fun hretn => hplain.2.2 hretn.2.1

section Micro

variable {w : Watch} {c : Core}

theorem enable_executing (h : Executing w c.seq) :
    c.runMicro.1.enable =
      match w.last with
      | .ei => ⟨true, true, true⟩
      | .di => ⟨false, false, c.eiDelay⟩
      | .retn => if c.runMicro.2 = .m1 then ⟨c.iff2, c.iff2, c.eiDelay⟩ else c.enable
      | .other => c.enable := by
  obtain ⟨-, hexec⟩ := h
  by_cases hs : c.seq.servicing = .none
  · rw [if_pos hs] at hexec
    obtain ⟨p, hp, -, hlast⟩ := hexec
    rw [hlast]
    exact enable_runMicro hs hp
  · rw [if_neg hs] at hexec
    rw [hexec, show c.runMicro = c.microInterrupt from if_pos hs]
    exact c.enable_microInterrupt

theorem iff1_of_enable {e : Enable} (h : c.enable = e) : c.iff1 = e.iff1 := congrArg Enable.iff1 h

theorem iff2_of_enable {e : Enable} (h : c.enable = e) : c.iff2 = e.iff2 := congrArg Enable.iff2 h

theorem eiDelay_of_enable {e : Enable} (h : c.enable = e) : c.eiDelay = e.eiDelay :=
  congrArg Enable.eiDelay h

theorem iff_runMicro (h : Executing w c.seq) (hiff : c.iff1 = true → c.iff2 = true) :
    c.runMicro.1.iff1 = true → c.runMicro.1.iff2 = true := by
  have henable := enable_executing h
  rw [iff1_of_enable henable, iff2_of_enable henable]
  cases w.last with
  | ei => exact id
  | di => exact id
  | other => exact hiff
  | retn =>
    dsimp only
    split_ifs
    · exact id
    · exact hiff

theorem iff2_runMicro (h : Executing w c.seq) (hei : w.last ≠ .ei) (hdi : w.last ≠ .di) :
    c.runMicro.1.iff2 = c.iff2 := by
  rw [iff2_of_enable (enable_executing h)]
  cases hlast : w.last with
  | ei => exact absurd hlast hei
  | di => exact absurd hlast hdi
  | other => rfl
  | retn =>
    dsimp only
    split_ifs <;> rfl

theorem eiDelay_runMicro (h : Executing w c.seq) (hei : w.last = .ei) :
    c.runMicro.1.eiDelay = true := by
  rw [eiDelay_of_enable (enable_executing h), hei]

theorem retn_runMicro (h : Executing w c.seq) (hretn : w.last = .retn)
    (hcount : c.runMicro.1.seq.instrCount ≠ c.seq.instrCount) :
    c.runMicro.1.iff1 = c.iff2 ∧ c.runMicro.1.iff2 = c.iff2 := by
  have hm : c.runMicro.2 = .m1 := by
    rcases c.runMicro_spec with ⟨hm, -⟩ | ⟨hseq, -⟩
    · exact hm
    · exact absurd (congrArg Seq.instrCount hseq) hcount
  have henable := enable_executing h
  rw [hretn] at henable
  dsimp only at henable
  rw [if_pos hm] at henable
  exact ⟨iff1_of_enable henable, iff2_of_enable henable⟩

theorem servicing_runMicro (h : c.seq.servicing = .none) :
    c.runMicro.1.seq.servicing = .none := by
  rcases c.runMicro_spec with ⟨-, hfin⟩ | ⟨hseq, -⟩
  · exact hfin.servicing
  · rw [hseq, h]

theorem Sound.runMicro (h : Executing w c.seq) (hhalted : c.seq.halted = false)
    (hiff : c.iff1 = true → c.iff2 = true)
    (hsaved : ∀ i1 i2, w.saved = some (i1, i2) → c.iff2 = i2 ∧ w.last ≠ .ei ∧ w.last ≠ .di) :
    Sound w c.runMicro.1 c.runMicro.2 0 := by
  have hsaved' : ∀ i1 i2, w.saved = some (i1, i2) →
      c.runMicro.1.iff2 = i2 ∧ w.last ≠ .ei ∧ w.last ≠ .di := by
    intro i1 i2 hw
    obtain ⟨hi2, hei, hdi⟩ := hsaved i1 i2 hw
    exact ⟨(iff2_runMicro h hei hdi).trans hi2, hei, hdi⟩
  -- Either the instruction is done and the fetch of the next stands, or a cycle of it is due.
  rcases c.runMicro_spec with ⟨hm, hfin⟩ | ⟨hseq, hvalid, -⟩
  · exact {
      iff := iff_runMicro h hiff
      saved := hsaved'
      halted := fun _ => ⟨hm, rfl⟩
      idle := fun _ => hfin.servicing
      fetching := fun _ _ =>
        ⟨by rw [h.1]; exact ⟨hfin.prefixByte, hfin.index⟩, fun _ hei => eiDelay_runMicro h hei⟩
      fetched := fun _ h3 => absurd h3 (by decide)
      executing := fun hne => absurd hm hne }
  · have hne : c.runMicro.2 ≠ .m1 := by
      intro hm
      simp [hm, MC.Valid] at hvalid
    exact {
      iff := iff_runMicro h hiff
      saved := hsaved'
      halted := fun hh => absurd (hseq ▸ hh) (by simp [hhalted])
      idle := fun hm => absurd hm hne
      fetching := fun hm => absurd hm hne
      fetched := fun hm => absurd hm hne
      executing := fun _ => by rw [hseq]; exact h }

end Micro

/-! ## One T-state -/

def SoundAt (w : Watch) (z : Z80State) : Prop := Sound w z.cpu.core z.mc z.t

/-- A tick that keeps the watch in step and satisfies it. -/
def Kept (w : Watch) (z : Z80State) (inp : Bus) (z' : Z80State) : Prop :=
  SoundAt (w.observe z inp z') z' ∧ Disciplined w z z'

section Tick

variable {w : Watch} {z z' : Z80State} {inp : Bus}

theorem observe_of_accepted_none (hacc : accepted z z' = .none) :
    w.observe z inp z' = if z.fetches inp then w.fetch inp.cpu.data else w := by
  simp [Watch.observe, hacc]

theorem accepted_of_servicing (h : z'.cpu.core.seq.servicing = z.cpu.core.seq.servicing) :
    accepted z z' = .none := by
  unfold accepted
  split
  · next hs => rw [h, hs]
  · rfl

theorem kept_of_quiet (h : SoundAt w z) (hacc : accepted z z' = .none)
    (hfetch : z.fetches inp = false) (h' : SoundAt w z')
    (hretn : w.CompletesRetn z z' →
      z'.cpu.core.iff1 = z.cpu.core.iff2 ∧ z'.cpu.core.iff2 = z.cpu.core.iff2) :
    Kept w z inp z' := by
  refine ⟨?_, ?_⟩
  · rw [observe_of_accepted_none hacc, hfetch]
    exact h'
  · exact {
      wholeInstruction := fun hne => absurd hacc hne
      shadow := fun hm => by rw [hacc] at hm; cases hm
      iff := h'.iff
      retn := hretn
      kept := fun i1 i2 hw => (h.saved i1 i2 hw).1 }

theorem kept_of_core (h : SoundAt w z) (hseq : z'.cpu.core.seq = z.cpu.core.seq)
    (hfetch : z.fetches inp = false) (h' : SoundAt w z') : Kept w z inp z' :=
  kept_of_quiet h (accepted_of_servicing (by rw [hseq])) hfetch h' fun hdone =>
    absurd (by rw [hseq]) hdone.2

theorem fetches_of_mc (h : z.mc ≠ .m1) : z.fetches inp = false := by
  simp [Z80State.fetches, h]

theorem fetches_of_t (h : z.t ≠ 2) : z.fetches inp = false := by
  simp [Z80State.fetches, h]

theorem fetches_of_halted (h : z.cpu.halted = true) : z.fetches inp = false := by
  simp [Z80State.fetches, h]

theorem iff_congr {c c' : Core} (henable : c'.enable = c.enable)
    (h : c.iff1 = true → c.iff2 = true) : c'.iff1 = true → c'.iff2 = true := by
  have h1 : c'.iff1 = c.iff1 := congrArg Enable.iff1 henable
  have h2 : c'.iff2 = c.iff2 := congrArg Enable.iff2 henable
  rw [h1, h2]
  exact h

theorem Sound.congr {c c' : Core} {mc : MC} {t : Nat} (h : Sound w c mc t)
    (henable : c'.enable = c.enable) (hseq : c'.seq = c.seq) : Sound w c' mc t := by
  have h2 : c'.iff2 = c.iff2 := congrArg Enable.iff2 henable
  have he : c'.eiDelay = c.eiDelay := congrArg Enable.eiDelay henable
  exact {
    iff := iff_congr henable h.iff
    saved := by rw [h2]; exact h.saved
    halted := by rw [hseq]; exact h.halted
    idle := by rw [hseq]; exact h.idle
    fetching := by rw [hseq, he]; exact h.fetching
    fetched := by rw [hseq]; exact h.fetched
    executing := by rw [hseq]; exact h.executing }

theorem Sound.at_t {c : Core} {mc : MC} {t : Nat} (h : Sound w c mc t) (hm : mc ≠ .m1)
    (t' : Nat) : Sound w c mc t' where
  iff := h.iff
  saved := h.saved
  halted := fun hh => absurd (h.halted hh).1 hm
  idle := h.idle
  fetching := fun hm1 => absurd hm1 hm
  fetched := fun hm1 => absurd hm1 hm
  executing := h.executing

theorem kept_runMicro {c : Core} (h : SoundAt w z) (hfetch : z.fetches inp = false)
    (hexec : Executing w c.seq) (hhalted : c.seq.halted = false)
    (henable : c.enable = z.cpu.core.enable)
    (hservicing : c.seq.servicing = z.cpu.core.seq.servicing)
    (hcount : c.seq.instrCount = z.cpu.core.seq.instrCount)
    (hcore : z'.cpu.core = c.runMicro.1) (hmc : z'.mc = c.runMicro.2) (ht : z'.t = 0) :
    Kept w z inp z' := by
  have hiff2 : c.iff2 = z.cpu.core.iff2 := congrArg Enable.iff2 henable
  have h' : SoundAt w z' := by
    rw [SoundAt, hcore, hmc, ht]
    exact Sound.runMicro hexec hhalted (iff_congr henable h.iff) (by rw [hiff2]; exact h.saved)
  refine kept_of_quiet h ?_ hfetch h' ?_
  · unfold accepted
    split
    · next hn => rw [hcore, servicing_runMicro (hservicing.trans hn)]
    · rfl
  · rintro ⟨hretn, hne⟩
    rw [hcore, ← hcount] at hne
    rw [hcore, ← hiff2]
    exact retn_runMicro hexec hretn hne

theorem kept_next {z1 : Z80State} (h : SoundAt w z) (hm : z.mc ≠ .m1)
    (henable : z1.cpu.core.enable = z.cpu.core.enable)
    (hseq : z1.cpu.core.seq = z.cpu.core.seq) : Kept w z inp z1.nextMicro := by
  have hs : Sound w z1.cpu.core z.mc z.t := Sound.congr h henable hseq
  -- the step counter is not part of what the watch and the CPU agree on
  have hexec : Executing w z1.cpu.bumpStep.core.seq := hs.executing hm
  have hhalted : z1.cpu.bumpStep.core.seq.halted = false := by
    rw [Bool.eq_false_iff]
    intro hh
    exact hm (hs.halted hh).1
  have hservicing : z1.cpu.core.seq.servicing = z.cpu.core.seq.servicing := by rw [hseq]
  have hcount : z1.cpu.core.seq.instrCount = z.cpu.core.seq.instrCount := by rw [hseq]
  exact kept_runMicro h (fetches_of_mc hm) hexec hhalted henable hservicing hcount rfl rfl rfl

theorem pre_of_boundary {p : Pre} {c : Core} (h : Follows p c.seq)
    (hb : Z80State.atBoundary c = true) : p = .none := by
  simp only [Z80State.atBoundary, decide_eq_true_eq] at hb
  obtain ⟨hpre, hix⟩ := hb
  cases p with
  | none => rfl
  | index => exact absurd hix h.2
  | ed =>
    have h : c.seq.prefixByte = 0xED := h
    rw [hpre] at h
    exact absurd h (by decide)
  | cb =>
    have h : c.seq.prefixByte = 0xCB := h
    rw [hpre] at h
    exact absurd h (by decide)

theorem runMicro_accepted {c : Core} (hs : c.seq.servicing ≠ .none) (hstep : c.seq.step = 0) :
    c.runMicro = (c, .ioack (if c.seq.servicing = .nmi then 4 else 6)) := by
  rw [show c.runMicro = c.microInterrupt from if_pos hs]
  simp [Core.microInterrupt, hstep, Core.reqIoack]

theorem kept_of_accepted (c : Core) (kind : Servicing) {len : Nat} (h : SoundAt w z)
    (hm : z.mc = .m1) (ht : z.t = 0) (hhalted : z.cpu.core.seq.halted = false)
    (hb : Z80State.atBoundary z.cpu.core = true)
    (hkind : kind = .nmi ∧ c.iff2 = z.cpu.core.iff2 ∨
      kind = .maskable ∧ z.cpu.core.eiDelay = false)
    (hseq : c.seq = { z.cpu.core.seq with servicing := kind, step := 0 })
    (hiff1 : c.iff1 = false) (hcore : z'.cpu.core = c) (hmc : z'.mc = .ioack len) :
    Kept w z inp z' := by
  have hidle := h.idle hm
  have hacc : accepted z z' = kind := by
    rw [accepted, if_pos hidle, hcore, hseq]
  obtain ⟨hfollows, hshadow⟩ := h.fetching hm (by omega)
  have hpre : w.pre = .none := pre_of_boundary hfollows hb
  have hne : kind ≠ .none := by
    rcases hkind with ⟨rfl, -⟩ | ⟨rfl, -⟩ <;> decide
  -- either way the watch forgets the instruction before
  have hobs : (w.observe z inp z').pre = .none ∧ (w.observe z inp z').last = .other ∧
      ∀ i1 i2, (w.observe z inp z').saved = some (i1, i2) → c.iff2 = i2 := by
    rcases hkind with ⟨rfl, hiff2⟩ | ⟨rfl, -⟩
    · simp only [Watch.observe, hacc]
      refine ⟨hpre, trivial, ?_⟩
      rintro i1 i2 ⟨⟩
      exact hiff2
    · simp only [Watch.observe, hacc]
      exact ⟨hpre, trivial, fun _ _ hw => by cases hw⟩
  refine ⟨?_, ?_⟩
  · rw [SoundAt, hcore, hmc]
    exact {
      iff := fun h1 => by rw [hiff1] at h1; cases h1
      saved := fun i1 i2 hw => ⟨hobs.2.2 i1 i2 hw, by simp [hobs.2.1], by simp [hobs.2.1]⟩
      halted := fun hh => by rw [hseq] at hh; rw [hhalted] at hh; cases hh
      idle := fun hio => by cases hio
      fetching := fun hio => by cases hio
      fetched := fun hio => by cases hio
      executing := fun _ => by
        refine ⟨hobs.1, ?_⟩
        rw [hseq, if_neg hne]
        exact hobs.2.1 }
  · exact {
      wholeInstruction := fun _ => hpre
      shadow := fun hmask hei => by
        rcases hkind with ⟨rfl, -⟩ | ⟨rfl, hdelay⟩
        · rw [hacc] at hmask
          cases hmask
        · rw [hshadow ht hei] at hdelay
          cases hdelay
      iff := fun h1 => by rw [hcore, hiff1] at h1; cases h1
      retn := fun hdone => absurd (by rw [hcore, hseq]) hdone.2
      kept := fun i1 i2 hw => (h.saved i1 i2 hw).1 }

theorem kept_m1T1 {z1 : Z80State} (h : SoundAt w z) (hm : z.mc = .m1) (ht : z.t = 0)
    (hhalted : z.cpu.core.seq.halted = false) (hcore : z1.cpu.core = z.cpu.core)
    (hmc : z1.mc = .m1) (ht1 : z1.t = 1) (irq : Bool) (out : CpuBus) :
    Kept w z inp (z1.m1T1 irq out).1 := by
  have hfetch : z.fetches inp = false := fetches_of_t (by omega)
  unfold Z80State.m1T1
  rw [hcore]
  dsimp only
  split
  · next hnmi =>
    rw [Bool.and_eq_true] at hnmi
    -- the NMI leaves IFF2 for the RETN to come
    let c : Core :=
      { (Z80State.openM1 z.cpu.core).bumpRefresh with
        iff1 := false
        seq := { z.cpu.core.seq with servicing := .nmi, step := 0 } }
    have hmicro : c.runMicro = (c, .ioack 4) := runMicro_accepted (by simp [c]) rfl
    apply kept_of_accepted c .nmi h hm ht hhalted hnmi.1
      (Or.inl ⟨rfl, rfl⟩) rfl rfl
    · exact congrArg Prod.fst hmicro
    · exact congrArg Prod.snd hmicro
  · split
    · next hint =>
      simp only [Bool.and_eq_true, Bool.not_eq_true'] at hint
      obtain ⟨hb, -, hdelay⟩ := hint
      let c : Core :=
        { (Z80State.openM1 z.cpu.core).bumpRefresh with
          iff1 := false
          iff2 := false
          seq := { z.cpu.core.seq with servicing := .maskable, step := 0 } }
      have hmicro : c.runMicro = (c, .ioack 6) := runMicro_accepted (by simp [c]) rfl
      apply kept_of_accepted c .maskable h hm ht hhalted hb
        (Or.inr ⟨rfl, hdelay⟩) rfl rfl
      · exact congrArg Prod.fst hmicro
      · exact congrArg Prod.snd hmicro
    · -- the fetch starts; the shadow of EI is over, and so is T1
      refine kept_of_core h rfl hfetch ?_
      have hfollows := (h.fetching hm (by omega)).1
      exact {
        iff := h.iff
        saved := h.saved
        halted := fun hh => absurd (hhalted.symm.trans hh) (by decide)
        idle := fun _ => h.idle hm
        fetching := fun _ _ => ⟨hfollows, fun h0 => absurd (ht1.symm.trans h0) (by decide)⟩
        fetched := fun _ h3 => absurd h3 (by rw [ht1]; decide)
        executing := fun hne => absurd hmc hne }

theorem prefixByte_of_follows {p : Pre} {s : Seq} (h : Follows p s) (hp : p ≠ .none)
    (hix : p ≠ .index) : s.prefixByte ≠ 0 := by
  cases p with
  | none => exact absurd rfl hp
  | index => exact absurd rfl hix
  | ed => rw [show s.prefixByte = 0xED from h]; decide
  | cb => rw [show s.prefixByte = 0xCB from h]; decide

theorem dispatchPrefix_some {c c' : Core} {p : Pre} (h : Follows p c.seq)
    (hc : Z80State.dispatchPrefix c = some c') :
    Follows (p.next c.seq.opcode) c'.seq ∧ c'.enable = c.enable ∧
      c'.seq.servicing = c.seq.servicing ∧ c'.seq.instrCount = c.seq.instrCount := by
  have hp : c.seq.prefixByte = 0 → p = .none ∨ p = .index := by
    intro hzero
    by_contra hp
    rw [not_or] at hp
    exact prefixByte_of_follows h hp.1 hp.2 hzero
  unfold Z80State.dispatchPrefix at hc
  dsimp only at hc
  -- DD or FD, ED, or CB without an index; each moves the source program's prefix as it moves the latch.
  split_ifs at hc with hdd hed hcb <;> cases hc
  · have hnext : p.next c.seq.opcode = .index := by
      rcases hp hdd.1 with rfl | rfl <;> exact if_pos hdd.2
    rw [hnext]
    refine ⟨⟨rfl, ?_⟩, rfl, rfl, rfl⟩
    dsimp only
    unfold prefixIndex
    split_ifs <;> decide
  · have hnot : ¬(c.seq.opcode = 0xDD ∨ c.seq.opcode = 0xFD) := fun hop => hdd ⟨hed.1, hop⟩
    have hnext : p.next c.seq.opcode = .ed := by
      rcases hp hed.1 with rfl | rfl <;> exact (if_neg hnot).trans (if_pos hed.2)
    rw [hnext]
    exact ⟨rfl, rfl, rfl, rfl⟩
  · have hnot : ¬(c.seq.opcode = 0xDD ∨ c.seq.opcode = 0xFD) := fun hop => hdd ⟨hcb.1, hop⟩
    have hnot' : c.seq.opcode ≠ 0xED := fun hop => hed ⟨hcb.1, hop⟩
    have hnone : p = .none := by
      rcases hp hcb.1 with rfl | rfl
      · rfl
      · exact absurd hcb.2.2 h.2
    subst hnone
    have hnext : Pre.next .none c.seq.opcode = .cb :=
      (if_neg hnot).trans ((if_neg hnot').trans (if_pos ⟨hcb.2.1, rfl⟩))
    rw [hnext]
    exact ⟨rfl, rfl, rfl, rfl⟩

theorem kind_of_dispatchPrefix {c c' : Core} (hc : Z80State.dispatchPrefix c = some c')
    (p : Pre) : p.kind c.seq.opcode ≠ .ei := by
  have hop : c.seq.opcode ≠ 0xFB := by
    unfold Z80State.dispatchPrefix at hc
    dsimp only at hc
    split_ifs at hc with hdd hed hcb
    · rcases hdd.2 with hop | hop <;> rw [hop] <;> decide
    · rw [hed.2]
      decide
    · rw [hcb.2.1]
      decide
  unfold Pre.kind
  split
  · split_ifs <;> decide
  · decide
  · rw [if_neg hop]
    split_ifs <;> decide

theorem dispatchPrefix_none {c : Core} {p : Pre} (h : Follows p c.seq)
    (hc : Z80State.dispatchPrefix c = none) : p.next c.seq.opcode = .none := by
  unfold Z80State.dispatchPrefix at hc
  dsimp only at hc
  split_ifs at hc with hdd hed hcb
  cases p with
  | ed => rfl
  | cb => rfl
  | none =>
    have hdd' : ¬(c.seq.opcode = 0xDD ∨ c.seq.opcode = 0xFD) := fun hop => hdd ⟨h.1, hop⟩
    have hed' : c.seq.opcode ≠ 0xED := fun hop => hed ⟨h.1, hop⟩
    have hcb' : c.seq.opcode ≠ 0xCB := fun hop => hcb ⟨h.1, hop, h.2⟩
    exact (if_neg hdd').trans ((if_neg hed').trans (if_neg fun hop => hcb' hop.1))
  | index =>
    have hdd' : ¬(c.seq.opcode = 0xDD ∨ c.seq.opcode = 0xFD) := fun hop => hdd ⟨h.1, hop⟩
    have hed' : c.seq.opcode ≠ 0xED := fun hop => hed ⟨h.1, hop⟩
    exact (if_neg hdd').trans ((if_neg hed').trans (if_neg fun hop => by cases hop.2))

theorem kept_latch (h : SoundAt w z) (hm : z.mc = .m1) (ht : z.t = 2)
    (hhalted : z.cpu.core.seq.halted = false) (hclk : inp.clk.cpu = true)
    (hseq : z'.cpu.core.seq = { z.cpu.core.seq with opcode := inp.cpu.data })
    (henable : z'.cpu.core.enable = z.cpu.core.enable) (hmc : z'.mc = .m1) (ht' : z'.t = 3) :
    Kept w z inp z' := by
  have hacc : accepted z z' = .none := accepted_of_servicing (by rw [hseq])
  -- The latch is what the observer takes for a fetch.
  have hfetch : z.fetches inp = true := by
    simp [Z80State.fetches, hm, ht, hclk, Cpu.halted, hhalted]
  have hobs : w.observe z inp z' = w.fetch inp.cpu.data := by
    rw [observe_of_accepted_none hacc, if_pos hfetch]
  have hfollows := (h.fetching hm (by omega)).1
  have hiff := iff_congr henable h.iff
  refine ⟨?_, ?_⟩
  · rw [hobs]
    exact {
      iff := hiff
      saved := fun i1 i2 hw => by
        dsimp only [Watch.fetch] at hw ⊢
        split_ifs at hw with hk
        rw [not_or] at hk
        exact ⟨(congrArg Enable.iff2 henable).trans (h.saved i1 i2 hw).1, hk⟩
      halted := fun hh => by rw [hseq] at hh; exact absurd (hhalted.symm.trans hh) (by decide)
      idle := fun _ => by rw [hseq]; exact h.idle hm
      fetching := fun _ hlt => absurd hlt (by rw [ht']; decide)
      fetched := fun _ _ => by rw [hseq]; exact ⟨w.pre, hfollows, rfl, rfl⟩
      executing := fun hne => absurd hmc hne }
  · exact {
      wholeInstruction := fun hne => absurd hacc hne
      shadow := fun hmask => by rw [hacc] at hmask; cases hmask
      iff := hiff
      retn := fun hdone => absurd (by rw [hseq]) hdone.2
      kept := fun i1 i2 hw => (h.saved i1 i2 hw).1 }

theorem kept_dispatch {z1 : Z80State} (h : SoundAt w z) (hm : z.mc = .m1) (ht : 3 ≤ z.t)
    (hhalted : z.cpu.core.seq.halted = false) (hcore : z1.cpu.core = z.cpu.core)
    (ht1 : 4 ≤ z1.t) (data : Byte) (out : CpuBus) :
    Kept w z inp (z1.m1Rest data out).1 := by
  have hfetch : z.fetches inp = false := fetches_of_t (by omega)
  obtain ⟨p, hfollows, hpre, hlast⟩ := h.fetched hm ht
  have hidle := h.idle hm
  unfold Z80State.m1Rest
  rw [if_neg (by omega), if_neg (by omega)]
  dsimp only
  rw [hcore]
  cases hc : Z80State.dispatchPrefix z.cpu.core with
  | some c =>
    obtain ⟨hnext, henable, hservicing, hcount⟩ := dispatchPrefix_some hfollows hc
    refine kept_of_quiet h (accepted_of_servicing hservicing) hfetch ?_
      fun hdone => absurd hcount hdone.2
    -- A prefix: the next fetch belongs to the same instruction, so nothing is accepted before it.
    have hsound : Sound w c .m1 0 := {
      iff := iff_congr henable h.iff
      saved := fun i1 i2 hw =>
        ⟨(congrArg Enable.iff2 henable).trans (h.saved i1 i2 hw).1, (h.saved i1 i2 hw).2⟩
      halted := fun _ => ⟨rfl, rfl⟩
      idle := fun _ => hservicing.trans hidle
      fetching := fun _ _ => ⟨by rw [hpre]; exact hnext, fun _ hei =>
        absurd (hlast.symm.trans hei) (kind_of_dispatchPrefix hc p)⟩
      fetched := fun _ h3 => absurd h3 (by decide)
      executing := fun hne => absurd rfl hne }
    exact hsound
  | none =>
    have hpre' : w.pre = .none := hpre.trans (dispatchPrefix_none hfollows hc)
    -- An opcode: it runs its first micro-operation on what the source program says.
    have hexec : Executing w z.cpu.core.seq := by
      refine ⟨hpre', ?_⟩
      rw [if_pos hidle]
      exact ⟨p, hfollows, hpre, hlast⟩
    have hexec' : Executing w z1.cpu.clearStep.core.seq := by
      dsimp only [Cpu.clearStep]
      rw [hcore]
      exact hexec
    have hstep : z1.cpu.clearStep.core =
        { z.cpu.core with seq := { z.cpu.core.seq with step := 0 } } := by
      dsimp only [Cpu.clearStep]
      rw [hcore]
    exact kept_runMicro h hfetch hexec' (by rw [hstep]; exact hhalted) (by rw [hstep]; rfl)
      (by rw [hstep]) (by rw [hstep]) rfl rfl rfl

theorem kept_wait (h : SoundAt w z) (hm : z.mc ≠ .m1) (hcore : z'.cpu.core = z.cpu.core)
    (hmc : z'.mc = z.mc) : Kept w z inp z' := by
  refine kept_of_core h (by rw [hcore]) (fetches_of_mc hm) ?_
  rw [SoundAt, hcore, hmc]
  exact Sound.at_t h hm _

theorem kept_m1 {z1 : Z80State} (h : SoundAt w z) (hm : z.mc = .m1)
    (hhalted : z.cpu.core.seq.halted = false) (hclk : inp.clk.cpu = true)
    (hcore : z1.cpu.core = z.cpu.core) (hmc : z1.mc = .m1) (ht : z1.t = z.t + 1)
    (out : CpuBus) :
    Kept w z inp
      (if z1.t = 1 then z1.m1T1 inp.cpu.irq out else z1.m1Rest inp.cpu.data out).1 := by
  by_cases h1 : z1.t = 1
  · rw [if_pos h1]
    exact kept_m1T1 h hm (by omega) hhalted hcore hmc h1 _ _
  rw [if_neg h1]
  by_cases h2 : z1.t = 2
  · -- T2 only holds the address
    rw [Z80State.m1Rest, if_pos h2]
    refine kept_of_core h (by rw [hcore]) (fetches_of_t (by omega)) ?_
    have hf := h.fetching hm (by omega)
    rw [SoundAt, hcore, hmc, h2]
    exact {
      iff := h.iff
      saved := h.saved
      halted := fun hh => absurd (hhalted.symm.trans hh) (by decide)
      idle := fun _ => h.idle hm
      fetching := fun _ _ => ⟨hf.1, fun h0 => absurd h0 (by decide)⟩
      fetched := fun _ h3 => absurd h3 (by decide)
      executing := fun hne => absurd rfl hne }
  by_cases h3 : z1.t = 3
  · rw [Z80State.m1Rest, if_neg h2, if_pos h3]
    refine kept_latch h hm (by omega) hhalted hclk ?_ ?_ hmc h3
    · dsimp only
      rw [hcore]
      rfl
    · dsimp only
      rw [hcore]
      rfl
  · exact kept_dispatch h hm (by omega) hhalted hcore (by omega) _ _

theorem kept_runCycle {z1 : Z80State} (h : SoundAt w z)
    (hhalted : z.cpu.core.seq.halted = false) (hclk : inp.clk.cpu = true)
    (hcore : z1.cpu.core = z.cpu.core) (hmc : z1.mc = z.mc) (ht : z1.t = z.t + 1)
    (out : CpuBus) : Kept w z inp (z1.runCycle inp.cpu out).1 := by
  have hnext : z.mc ≠ .m1 → Kept w z inp z1.nextMicro := fun hm =>
    kept_next h hm (by rw [hcore]) (by rw [hcore])
  have hread : z.mc ≠ .m1 → Kept w z inp (z1.latchTmp inp.cpu.data).nextMicro := fun hm =>
    kept_next h hm (by rw [← hcore]; rfl) (by rw [← hcore]; rfl)
  have hne : z1.mc ≠ .m1 → z.mc ≠ .m1 := fun hm => by rwa [← hmc]
  unfold Z80State.runCycle
  cases hm1 : z1.mc with
  | m1 => exact kept_m1 h (hmc.symm.trans hm1) hhalted hclk hcore hm1 ht out
  | read addr =>
    have hm := hne (by rw [hm1]; exact MC.noConfusion)
    dsimp only
    split
    · split
      -- WAIT repeats a T-state, and that is all it does
      · exact kept_wait h hm hcore (hm1.symm.trans hmc)
      · exact kept_wait h hm hcore hmc
    · exact hread hm
  | write addr val =>
    have hm := hne (by rw [hm1]; exact MC.noConfusion)
    dsimp only
    split
    · exact kept_wait h hm hcore hmc
    · split
      · split
        · exact kept_wait h hm hcore (hm1.symm.trans hmc)
        · exact kept_wait h hm hcore hmc
      · exact hnext hm
  | internal len =>
    have hm := hne (by rw [hm1]; exact MC.noConfusion)
    dsimp only
    split
    · exact hnext hm
    · exact kept_wait h hm hcore hmc
  | ioRead port =>
    have hm := hne (by rw [hm1]; exact MC.noConfusion)
    dsimp only
    split
    · split
      · exact kept_wait h hm hcore (hm1.symm.trans hmc)
      · exact kept_wait h hm hcore hmc
    · exact hread hm
  | ioWrite port val =>
    have hm := hne (by rw [hm1]; exact MC.noConfusion)
    dsimp only
    split
    · split
      · exact kept_wait h hm hcore (hm1.symm.trans hmc)
      · exact kept_wait h hm hcore hmc
    · exact hnext hm
  | ioack len =>
    have hm := hne (by rw [hm1]; exact MC.noConfusion)
    dsimp only
    split
    · exact kept_next h hm (by rw [← hcore]; rfl) (by rw [← hcore])
    · exact kept_wait h hm hcore hmc

theorem kept_runT {z1 : Z80State} (h : SoundAt w z) (hhalted : z.cpu.core.seq.halted = false)
    (hclk : inp.clk.cpu = true) (hcore : z1.cpu.core = z.cpu.core) (hmc : z1.mc = z.mc)
    (ht : z1.t = z.t) (out : CpuBus) : Kept w z inp (z1.runT inp out).1 := by
  unfold Z80State.runT
  dsimp only
  split
  · next hhold =>
    -- T1 waits for the grid
    have h0 : z.t = 0 := by omega
    refine kept_of_core h (by rw [hcore]) (fetches_of_t (by omega)) ?_
    have hsame : Sound w z1.cpu.core z1.mc 0 := by
      rw [hcore, hmc, ← h0]
      exact h
    exact hsame
  · refine kept_runCycle h hhalted hclk ?_ ?_ ?_ out
    · exact hcore
    · exact hmc
    · exact congrArg (· + 1) ht

theorem Kept.transfer {z2 z2' : Z80State} (h : Kept w z2 inp z2')
    (hservicing : z2.cpu.core.seq.servicing = z.cpu.core.seq.servicing)
    (hcount : z2.cpu.core.seq.instrCount = z.cpu.core.seq.instrCount)
    (henable : z2.cpu.core.enable = z.cpu.core.enable)
    (hfetch : z2.fetches inp = z.fetches inp) (hcore : z2'.cpu.core = z'.cpu.core)
    (hmc : z2'.mc = z'.mc) (ht : z2'.t = z'.t) : Kept w z inp z' := by
  have hiff1 : z2.cpu.core.iff1 = z.cpu.core.iff1 := congrArg Enable.iff1 henable
  have hiff2 : z2.cpu.core.iff2 = z.cpu.core.iff2 := congrArg Enable.iff2 henable
  have hacc : accepted z2 z2' = accepted z z' := by
    simp only [accepted, hservicing, hcore]
  have hobs : w.observe z2 inp z2' = w.observe z inp z' := by
    simp only [Watch.observe, hacc, hiff1, hiff2, hfetch]
  obtain ⟨hsound, hd⟩ := h
  refine ⟨?_, ?_⟩
  · rw [SoundAt, ← hobs, ← hcore, ← hmc, ← ht]
    exact hsound
  · exact {
      wholeInstruction := by rw [← hacc]; exact hd.wholeInstruction
      shadow := by rw [← hacc]; exact hd.shadow
      iff := by rw [← hcore]; exact hd.iff
      retn := by
        rw [Watch.CompletesRetn, ← hcore, ← hcount, ← hiff2]
        exact hd.retn
      kept := by rw [← hiff2]; exact hd.kept }

theorem kept_advance (h : SoundAt w z) (hclk : inp.clk.cpu = true) (out : CpuBus) :
    Kept w z inp (z.advance inp out).1 := by
  -- from here on the CPU is awake
  have hawake : ∀ z2 : Z80State, SoundAt w z2 → z2.cpu.core.seq.halted = false →
      Kept w z2 inp
        (if z2.t = 0 ∧ inp.cpu.busrq then (z2, { out with busak := true })
          else z2.runT inp out).1 := by
    intro z2 h2 hhalted
    split
    · next hbus =>
      exact kept_of_core h2 rfl (fetches_of_t (by omega)) h2
    · exact kept_runT h2 hhalted hclk rfl rfl rfl out
  unfold Z80State.advance
  dsimp only
  split
  · next hsleep =>
    have hseq : z.haltTick.cpu.core.seq = z.cpu.core.seq := by
      unfold Z80State.haltTick
      dsimp only
      split <;> rfl
    have henable : z.haltTick.cpu.core.enable = z.cpu.core.enable := by
      unfold Z80State.haltTick
      dsimp only
      split <;> rfl
    exact kept_of_core h hseq (fetches_of_halted hsleep.1) (Sound.congr h henable hseq)
  · by_cases hh : z.cpu.halted = true
    · obtain ⟨hm, ht⟩ := h.halted hh
      have hwoken : Sound w z.cpu.wake.core .m1 0 := {
        iff := h.iff
        saved := h.saved
        halted := fun _ => ⟨rfl, rfl⟩
        idle := fun _ => h.idle hm
        fetching := fun _ _ => ⟨(h.fetching hm (by omega)).1, fun _ => (h.fetching hm (by omega)).2 ht⟩
        fetched := fun _ h3 => absurd h3 (by decide)
        executing := fun hne => absurd rfl hne }
      rw [if_pos hh]
      refine (hawake { z with cpu := z.cpu.wake, mc := .m1, t := 0 } hwoken rfl).transfer
        rfl rfl rfl ?_ rfl rfl rfl
      rw [fetches_of_halted hh]
      exact fetches_of_t (by simp)
    · rw [if_neg hh]
      exact hawake z h (by simpa [Cpu.halted] using hh)

/-- One master cycle, whatever the bus and the other devices do. -/
theorem kept_tick (h : SoundAt w z) (inp : Bus) (out : CpuBus) :
    Kept w z inp (z80Tick z inp out).1 := by
  have hlatched : SoundAt w (z.latchNmi inp.cpu.nmi) := h
  unfold z80Tick
  dsimp only
  split
  · next hclk =>
    exact (kept_advance hlatched hclk out).transfer rfl rfl rfl rfl rfl rfl rfl
  · next hclk =>
    have hfetch : z.fetches inp = false := by simp [Z80State.fetches, hclk]
    exact kept_of_core h rfl hfetch hlatched

end Tick

/-! ## Runs -/

theorem Observed.sound_tick {o : Observed} (h : SoundAt o.watch o.z80) (io : Bus × CpuBus) :
    SoundAt (o.tick io).watch (o.tick io).z80 :=
  (kept_tick h io.1 io.2).1

theorem sound_observedRun (ticks : List (Bus × CpuBus)) :
    SoundAt (observedRun ticks).watch (observedRun ticks).z80 := by
  have hreset : SoundAt Observed.reset.watch Observed.reset.z80 := {
    iff := by decide
    saved := fun _ _ hw => by cases hw
    halted := by decide
    idle := by decide
    fetching := fun _ _ => ⟨⟨rfl, rfl⟩, fun _ hei => by cases hei⟩
    fetched := fun _ h3 => absurd h3 (by decide)
    executing := fun hne => absurd rfl hne }
  unfold observedRun
  -- the induction is on the ticks, from any state the watch is in step with
  generalize Observed.reset = o at hreset
  induction ticks generalizing o with
  | nil => exact hreset
  | cons io ticks ih => exact ih _ (o.sound_tick hreset io)

/-- Every tick of every run satisfies the watch; and a RETN leaves IFF1 as the last NMI found both
flip-flops. -/
theorem disciplined_of_run (ticks : List (Bus × CpuBus)) (io : Bus × CpuBus) :
    let o := observedRun ticks
    Disciplined o.watch o.z80 (o.tick io).z80 ∧
      ∀ i, o.watch.saved = some (i, i) → o.watch.CompletesRetn o.z80 (o.tick io).z80 →
        (o.tick io).z80.cpu.core.iff1 = i := by
  have h := (kept_tick (sound_observedRun ticks) io.1 io.2).2
  refine ⟨h, ?_⟩
  intro i hsaved hdone
  exact (h.retn hdone).1.trans (h.kept i i hsaved)

/-! ## An NMI inside an NMI -/

/-- A clock enable on the µs grid, with the byte on the data bus and the level of NMI. -/
def clocked (data : Byte) (nmi : Bool) : Bus × CpuBus :=
  ({ cpu := { CpuBus.resting with data, nmi }, clk := { cpu := true, phase := 0 } },
    CpuBus.resting)

/-- EI; an NMI; a second one before the handler has fetched anything; and there a RETN, less its
last T-state. -/
def nestedNmi : List (Bus × CpuBus) :=
  [clocked 0xFB false, clocked 0xFB true, clocked 0xFB false, clocked 0xFB false]
    ++ clocked 0xFF false :: clocked 0xFF true :: List.replicate 9 (clocked 0xFF false)
    ++ List.replicate 11 (clocked 0xFF false)
    ++ List.replicate 4 (clocked 0xED false) ++ List.replicate 4 (clocked 0x45 false)
    ++ List.replicate 5 (clocked 0 false)

/-- The second NMI finds IFF1 cleared by the first, and the RETN sets it. -/
theorem nestedNmi_sets_iff1 :
    ¬ ∀ (ticks : List (Bus × CpuBus)) (io : Bus × CpuBus) (i1 i2 : Bool),
      (observedRun ticks).watch.saved = some (i1, i2) →
      (observedRun ticks).watch.CompletesRetn (observedRun ticks).z80
        ((observedRun ticks).tick io).z80 →
      ((observedRun ticks).tick io).z80.cpu.core.iff1 = i1 := by
  intro h
  have hsaved : (observedRun nestedNmi).watch.saved = some (false, true) := by decide
  have hdone : (observedRun nestedNmi).watch.last = .retn ∧
      ((observedRun nestedNmi).tick (clocked 0 false)).z80.cpu.core.seq.instrCount ≠
        (observedRun nestedNmi).z80.cpu.core.seq.instrCount := by decide
  have hset : ((observedRun nestedNmi).tick (clocked 0 false)).z80.cpu.core.iff1 = true := by
    decide
  have hkept := h nestedNmi (clocked 0 false) false true hsaved hdone
  rw [hset] at hkept
  cases hkept

end Koncepcja.Z80
