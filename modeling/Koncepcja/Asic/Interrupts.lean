import Koncepcja.Asic.Chip

/-!
# Raster and DMA Interrupts

Four sources share the ASIC's line: the raster and the INT instructions of three channels. A source that is
raised stays up, with the line asserted, until an acknowledge. The acknowledge drives the vector of the first
source in the order of priority, and then every source that was up is down: the others are not delivered.

## Main results

- `pending_cycle`: the flags behind a master cycle.
- `irqSource_spec`: the code that is driven is that of the first source.
- `stays_until_ack`: what becomes of a raised source in a run, in both tiers.
- `raster_drops_channel`: two sources and one acknowledge.
-/

namespace Koncepcja.Asic

/-! ## The sources -/

inductive Source where
  | raster
  | channel (c : Fin 3)
  deriving DecidableEq, Repr

namespace Source

/-- The low bits of the vector. -/
def code : Source → UInt8
  | .raster => 6
  | .channel 0 => 4
  | .channel 1 => 2
  | .channel 2 => 0

/-- The order of the sources: the higher goes first. -/
def rank : Source → Nat
  | .raster => 3
  | .channel c => c

end Source

namespace Chip

/-- A source is up. -/
def pending (a : Chip) : Source → Bool
  | .raster => a.priPending
  | .channel c => (a.dma c).int

/-- Some source is. -/
def anyPending (a : Chip) : Bool := a.priPending || a.dmaInt

variable (a : Chip)

theorem anyPending_iff : a.anyPending = true ↔ ∃ s, a.pending s = true := by
  rw [anyPending, dmaInt, Bool.or_eq_true, Bool.or_eq_true, Bool.or_eq_true]
  constructor
  · rintro (h | (h | h) | h)
    · exact ⟨.raster, h⟩
    · exact ⟨.channel 0, h⟩
    · exact ⟨.channel 1, h⟩
    · exact ⟨.channel 2, h⟩
  · rintro ⟨_ | c, h⟩
    · exact .inl h
    · match c, h with
      | 0, h => exact .inr (.inl (.inl h))
      | 1, h => exact .inr (.inl (.inr h))
      | 2, h => exact .inr (.inr h)

/-- The code is that of a source that is up, and no source before it is. -/
theorem irqSource_spec (h : a.anyPending = true) :
    ∃ s, a.pending s = true ∧ (∀ t, a.pending t = true → t.rank ≤ s.rank) ∧ a.irqSource = s.code := by
  have hrank : ∀ c : Fin 3, (c : Nat) ≤ 2 := fun c => Nat.le_of_lt_succ c.isLt
  by_cases hpri : a.priPending = true
  · refine ⟨.raster, hpri, fun t _ => ?_, by rw [irqSource, if_pos hpri]; rfl⟩
    cases t with
    | raster => exact Nat.le_refl _
    | channel c => exact Nat.le_succ_of_le (hrank c)
  -- no raster: the channels from the last on
  have hno : ∀ t, a.pending t = true → ∃ c : Fin 3, t = .channel c := by
    rintro (_ | c) ht
    · exact absurd ht hpri
    · exact ⟨c, rfl⟩
  rw [irqSource, if_neg hpri]
  by_cases h2 : (a.dma 2).int = true
  · refine ⟨.channel 2, h2, fun t ht => ?_, by rw [if_pos h2]; rfl⟩
    obtain ⟨c, rfl⟩ := hno t ht
    exact hrank c
  rw [if_neg h2]
  by_cases h1 : (a.dma 1).int = true
  · refine ⟨.channel 1, h1, fun t ht => ?_, by rw [if_pos h1]; rfl⟩
    obtain ⟨c, rfl⟩ := hno t ht
    match c, ht with
    | 0, _ => exact Nat.zero_le _
    | 1, _ => exact Nat.le_refl _
    | 2, ht => exact absurd ht h2
  rw [if_neg h1]
  obtain ⟨s, hs⟩ := a.anyPending_iff.1 h
  obtain ⟨c, rfl⟩ := hno s hs
  match c, hs with
  | 0, hs =>
    have h0 : (a.dma 0).int = true := hs
    refine ⟨.channel 0, hs, fun t ht => ?_, by rw [if_pos h0]; rfl⟩
    obtain ⟨c, rfl⟩ := hno t ht
    match c, ht with
    | 0, _ => exact Nat.le_refl _
    | 1, ht => exact absurd ht h1
    | 2, ht => exact absurd ht h2
  | 1, hs => exact absurd hs h1
  | 2, hs => exact absurd hs h2

/-! ## What leaves the flags alone -/

/-- Two chips with the same flags. -/
structure SameFlags (a b : Chip) : Prop where
  pending : ∀ s, a.pending s = b.pending s
  plugged : a.plugged = b.plugged

theorem SameFlags.trans {a b c : Chip} (h : SameFlags a b) (h' : SameFlags b c) : SameFlags a c :=
  ⟨fun s => (h.pending s).trans (h'.pending s), h.plugged.trans h'.plugged⟩

theorem SameFlags.of_eq {a b : Chip} (hpri : a.priPending = b.priPending) (hint : ∀ c < 3, (a.dma c).int = (b.dma c).int)
    (hplug : a.plugged = b.plugged) : SameFlags a b := by
  refine ⟨?_, hplug⟩
  rintro (_ | c)
  · exact hpri
  · exact hint c c.isLt

theorem SameFlags.of_dma {a b : Chip} (hpri : a.priPending = b.priPending) (hdma : a.dma = b.dma)
    (hplug : a.plugged = b.plugged) : SameFlags a b :=
  .of_eq hpri (fun c _ => by rw [hdma]) hplug

theorem snoopClassicPalette_cases (addr : UInt16) (data : UInt8) :
    (∀ b : Chip, b.snoopClassicPalette addr data = b) ∨
      (∃ pen, ∀ b : Chip, b.snoopClassicPalette addr data = { b with classicPen := pen }) ∨
        ∃ ink, ∀ b : Chip, b.snoopClassicPalette addr data =
          { b with vidGen := b.vidGen + 1, palette := Function.update b.palette b.classicPen.toNat ink } := by
  by_cases hport : addr &&& 0xC000 = 0x4000
  · let pen : UInt8 := if data &&& 0x10 ≠ 0 then 16 else data &&& 0x0F
    let hw := kClassic4.getD (data &&& 0x1F).toNat (0, 0, 0)
    let ink : Ink := { r := hw.1, g := hw.2.1, b := hw.2.2, set := true }
    have hopen := not_not.2 hport
    match hval : (data >>> 6).toNat with
    | 0 => exact .inr (.inl ⟨pen, fun b => by rw [snoopClassicPalette, if_neg hopen, hval]; rfl⟩)
    | 1 => exact .inr (.inr ⟨ink, fun b => by rw [snoopClassicPalette, if_neg hopen, hval]; rfl⟩)
    | n + 2 => exact .inl fun b => by rw [snoopClassicPalette, if_neg hopen, hval]; rfl
  · exact .inl fun b => by rw [snoopClassicPalette, if_pos hport]

theorem snoopClassicPalette_eq (addr : UInt16) (data : UInt8) : ∃ pen gen pal,
    a.snoopClassicPalette addr data = { a with classicPen := pen, vidGen := gen, palette := pal } := by
  rcases snoopClassicPalette_cases addr data with h | ⟨pen, h⟩ | ⟨ink, h⟩ <;> exact ⟨_, _, _, h a⟩

/-- The byte goes to the knock, on the first cycle of a strobe. -/
def knockCycle (bus : Bus) : Chip :=
  { a with toAsicState := { (if bus.knock && !a.knockPrev then feedKnock a.toAsicState bus.data else a.toAsicState) with
      knockPrev := bus.knock } }

theorem ioCycle_split (bus : Bus) : a.ioCycle bus =
    if bus.iorq && bus.wr then
      { (a.knockCycle bus).snoopClassicPalette bus.addr bus.data with
        toAsicState := mapPage ((a.knockCycle bus).snoopClassicPalette bus.addr bus.data).toAsicState bus.addr bus.data }
    else a.knockCycle bus := by
  have hknock : ({ (if bus.knock && !a.knockPrev then { a with toAsicState := feedKnock a.toAsicState bus.data } else a : Chip) with
      knockPrev := bus.knock } : Chip) = a.knockCycle bus := by
    rw [knockCycle]
    split <;> rfl
  rw [ioCycle]
  dsimp only at hknock ⊢
  rw [hknock]
  split <;> rfl

theorem ioCycle_eq (bus : Bus) : ∃ lock pen gen pal, lock.plugged = a.plugged ∧
    a.ioCycle bus = { a with toAsicState := lock, classicPen := pen, vidGen := gen, palette := pal } := by
  have hknock : (a.knockCycle bus).plugged = a.plugged := by
    rw [knockCycle]
    dsimp only
    split
    · exact feedKnock_plugged _ _
    · rfl
  rw [ioCycle_split]
  split
  · obtain ⟨pen, gen, pal, hsnoop⟩ := (a.knockCycle bus).snoopClassicPalette_eq bus.addr bus.data
    rw [hsnoop]
    exact ⟨_, pen, gen, pal, (mapPage_frame (a.knockCycle bus).toAsicState bus.addr bus.data).2.1.trans hknock, rfl⟩
  · exact ⟨(a.knockCycle bus).toAsicState, _, _, _, hknock, rfl⟩

theorem decodeDma_flags (addr : UInt16) (val : UInt8) : SameFlags (a.decodeDma addr val) a := by
  rw [decodeDma]
  split
  · refine .of_eq rfl (fun c hc => ?_) rfl
    dsimp only
    rw [if_pos hc]
  · dsimp only
    split
    · exact .of_dma rfl rfl rfl
    · refine .of_eq rfl (fun c _ => ?_) rfl
      dsimp only
      by_cases hsame : c = ((addr &&& 0x0C) >>> 2).toNat
      · subst hsame
        rw [Function.update_self]
        split <;> rfl
      · rw [Function.update_of_ne hsame]

theorem decodeConfig_flags (addr : UInt16) (val : UInt8) : SameFlags (a.decodeConfig addr val) a := by
  rw [decodeConfig]
  split <;> exact .of_dma rfl rfl rfl

theorem decodeSpriteAttr_flags (addr : UInt16) (val : UInt8) : SameFlags (a.decodeSpriteAttr addr val) a := by
  rw [decodeSpriteAttr]
  dsimp only
  split <;> exact .of_dma rfl rfl rfl

theorem decodeWrite_flags (addr : UInt16) (val : UInt8) : SameFlags (a.decodeWrite addr val) a := by
  rw [decodeWrite, decodeRegion]
  split
  · exact .of_dma rfl rfl rfl
  split
  · exact (decodeSpriteAttr_flags _ addr val).trans (.of_dma rfl rfl rfl)
  split
  · exact .of_dma rfl rfl rfl
  split
  · exact (decodeConfig_flags _ addr val).trans (.of_dma rfl rfl rfl)
  split
  · exact (decodeDma_flags _ addr val).trans (.of_dma rfl rfl rfl)
  · exact .of_dma rfl rfl rfl

theorem overlay_flags (bus : Bus) : SameFlags (a.overlay bus).2.2 a := by
  rw [overlay]
  dsimp only
  split
  · have hwrite := a.decodeWrite_flags bus.addr bus.data
    exact ⟨fun s => Eq.trans (by cases s <;> rfl) (hwrite.pending s), hwrite.plugged⟩
  · exact .of_dma rfl rfl rfl

/-! ## What raises a source -/

/-- The beam reaches the line of the raster interrupt. -/
def reaches (line : UInt16) : Bool := a.priLine != 0 && line == a.priLine.toUInt16 && a.priPrevLine != line

/-- The engine executes an INT on a channel. -/
def executesInt (bus : Bus) (c : Nat) : Bool := a.dmaPhase == .exec && a.dmaCur == c && isInt (a.instruction bus)

theorem not_isLoad_of_isInt {instr : UInt16} (h : isInt instr = true) : isLoad instr = false := by
  rw [isInt, Bool.and_eq_true] at h
  cases hload : isLoad instr with
  | false => rfl
  | true =>
    rw [isLoad, beq_iff_eq] at hload
    rw [hload] at h
    exact absurd h.1 (by decide)

theorem countdown_int (ch : Channel) : ch.countdown.int = ch.int := by
  rw [Channel.countdown]
  split
  · split <;> rfl
  · rfl

theorem countPauses_flags : SameFlags a.countPauses a := by
  refine .of_eq rfl (fun c hc => ?_) rfl
  rw [countPauses]
  dsimp only
  rw [if_pos hc, countdown_int]

theorem dmaExec_int (c d : Nat) (instr : UInt16) :
    ((a.dmaExec c instr).2.dma d).int = ((a.dma d).int || (d == c && isInt instr)) := by
  rw [dmaExec]
  split
  · next hload =>
    have hint : isInt instr = false := by
      cases hint : isInt instr with
      | false => rfl
      | true => exact absurd hload (by rw [not_isLoad_of_isInt hint]; decide)
    rw [hint, Bool.and_false, Bool.or_false]
  · dsimp only
    by_cases hd : d = c
    · subst hd
      rw [Function.update_self, Channel.exec_int, beq_self_eq_true, Bool.true_and]
    · rw [Function.update_of_ne hd, beq_false_of_ne hd, Bool.false_and, Bool.or_false]

theorem dmaExec_priPending (c : Nat) (instr : UInt16) : (a.dmaExec c instr).2.priPending = a.priPending := by
  rw [dmaExec]
  split <;> rfl

/-- What a cycle of the engine raises. -/
def raises (bus : Bus) : Source → Bool
  | .raster => false
  | .channel c => a.executesInt bus c

theorem raises_of_phase {bus : Bus} (h : a.dmaPhase ≠ .exec) (s : Source) : a.raises bus s = false := by
  cases s with
  | raster => rfl
  | channel c => rw [raises, executesInt, beq_false_of_ne h, Bool.false_and, Bool.false_and]

theorem dmaBurst_flags (bus : Bus) (s : Source) : (a.dmaBurst bus).2.pending s = (a.pending s || a.raises bus s) := by
  by_cases hexec : a.dmaPhase = .exec
  · rw [dmaBurst_exec hexec]
    cases s with
    | raster => exact (dmaExec_priPending _ _ _).trans (Bool.or_false _).symm
    | channel c =>
      have hint := dmaExec_int a.stepSource a.dmaCur c (a.instruction bus)
      refine hint.trans ?_
      rw [raises, executesInt, hexec, beq_self_eq_true, Bool.true_and, pending, stepSource]
      dsimp only
      by_cases hc : (c : Nat) = a.dmaCur
      · rw [hc, Function.update_self, beq_self_eq_true]
      · rw [Function.update_of_ne hc, beq_false_of_ne hc, beq_false_of_ne (Ne.symm hc)]
  · -- the flags are not touched
    rw [a.raises_of_phase hexec, Bool.or_false, dmaBurst]
    cases hphase : a.dmaPhase with
    | exec => exact absurd hphase hexec
    | waitBusak =>
      dsimp only
      split <;> cases s <;> rfl
    | idle => cases s <;> rfl
    | fetch0 => cases s <;> rfl
    | fetch0W => cases s <;> rfl
    | fetch1 => cases s <;> rfl
    | fetch1W => cases s <;> rfl
    | psgSel => cases s <;> rfl
    | psgWr => cases s <;> rfl
    | advance => cases s <;> rfl

theorem dmaService_flags (bus : Bus) (s : Source) : (a.dmaService bus).2.pending s = (a.pending s || a.raises bus s) := by
  have hsync : ∀ (b : Chip) (v : Sync), ({ b with sync := v } : Chip).pending s = b.pending s := fun b v => by cases s <;> rfl
  rw [dmaService]
  dsimp only
  by_cases hidle : a.dmaPhase = .idle
  · rw [if_pos hidle, a.raises_of_phase (by rw [hidle]; decide), Bool.or_false]
    split
    · exact hsync a _
    · have hcount : ∀ b : Chip, b.countPauses.pending s = b.pending s := fun b => b.countPauses_flags.pending s
      split
      · rw [dmaBurst_flags, raises_of_phase _ (show DmaPhase.waitBusak ≠ .exec by decide), Bool.or_false]
        cases s with
        | raster => rfl
        | channel c => exact (hcount _).trans (hsync a _)
      · exact (hcount _).trans (hsync a _)
  · rw [if_neg hidle, dmaBurst_flags, hsync]
    cases s <;> rfl

theorem dmaBurst_plugged (bus : Bus) : (a.dmaBurst bus).2.plugged = a.plugged := by
  rw [dmaBurst]
  split
  · rfl
  · split <;> rfl
  · rfl
  · rfl
  · rfl
  · rfl
  · dsimp only
    rw [dmaExec]
    split <;> rfl
  · rfl
  · rfl
  · rfl

theorem dmaService_plugged (bus : Bus) : (a.dmaService bus).2.plugged = a.plugged := by
  rw [dmaService]
  dsimp only
  split
  · split
    · rfl
    · split
      · exact dmaBurst_plugged _ bus
      · rfl
  · exact dmaBurst_plugged _ bus

end Chip

/-! ## One event -/

/-- What reaches the interrupts: a master cycle, or what the fast tier makes of a line and of an acknowledge. -/
inductive IrqEvent where
  | cycle (bus : Bus)
  | frameLine (line : UInt16)
  | intAck
  deriving DecidableEq, Repr

/-- The CPU acknowledges. -/
def IrqEvent.isAck : IrqEvent → Bool
  | .cycle bus => bus.m1 && bus.iorq
  | .frameLine _ => false
  | .intAck => true

namespace Chip

def irqEvent (a : Chip) : IrqEvent → Chip
  | .cycle bus => (a.tick bus).2
  | .frameLine line => a.batchFrameLine line
  | .intAck => a.batchIntAck.2

def irqRun (a : Chip) (xs : List IrqEvent) : Chip := xs.foldl irqEvent a

/-- A source is up as an event looks at it: it was, or the beam has reached its line. -/
def sees (a : Chip) : IrqEvent → Source → Bool
  | .cycle bus, .raster => a.priPending || a.reaches bus.frameLine
  | .frameLine line, .raster => a.priPending || a.reaches line
  | _, s => a.pending s

/-- A source is raised by an instruction, behind what the event does to the line. -/
def raisesIn (a : Chip) : IrqEvent → Source → Bool
  | .cycle bus, s => a.raises bus s
  | .frameLine _, _ => false
  | .intAck, _ => false

/-- The line is asserted: on the bus, or as the fast tier asks for it. -/
def asserts (a : Chip) : IrqEvent → Bool
  | .cycle bus => (a.tick bus).1.irq
  | .frameLine line => (a.batchFrameLine line).irqAsserted
  | .intAck => a.batchIntAck.2.irqAsserted

/-- The vector on the data bus. -/
def vector (a : Chip) : IrqEvent → Option UInt8
  | .cycle bus => (a.tick bus).1.data
  | .frameLine _ => none
  | .intAck => some a.batchIntAck.1

/-- The chip as a cycle looks at its sources. -/
def looked (a : Chip) (bus : Bus) : Chip := ((a.ioCycle bus).reachLine bus.frameLine).mirrorRaster

theorem pending_looked (a : Chip) (bus : Bus) (s : Source) : (a.looked bus).pending s = a.sees (.cycle bus) s := by
  obtain ⟨lock, pen, gen, pal, _, heq⟩ := a.ioCycle_eq bus
  rw [looked, heq]
  cases s <;> rfl

theorem clearSources_pending (a : Chip) (s : Source) : a.clearSources.pending s = false := by
  cases s with
  | raster => rfl
  | channel c =>
    rw [pending, clearSources]
    dsimp only
    rw [if_pos c.isLt]

/-- The flags behind a master cycle. -/
theorem pending_cycle {a : Chip} (hp : a.plugged = true) (bus : Bus) (s : Source) : (a.tick bus).2.pending s =
    ((!(bus.m1 && bus.iorq) && a.sees (.cycle bus) s) || a.raises bus s) := by
  have hirq : (asicIrq (a.ioCycle bus) bus).2.pending s = (!(bus.m1 && bus.iorq) && a.sees (.cycle bus) s) := by
    rw [asicIrq]
    cases bus.m1 && bus.iorq with
    | true => exact clearSources_pending _ s
    | false => exact (a.pending_looked bus s).trans (Bool.true_and _).symm
  have hraise : (asicIrq (a.ioCycle bus) bus).2.raises bus s = a.raises bus s := by
    obtain ⟨lock, pen, gen, pal, _, heq⟩ := a.ioCycle_eq bus
    rw [asicIrq, heq]
    split <;> cases s <;> rfl
  have hdma := dmaService_flags (asicIrq (a.ioCycle bus) bus).2 bus s
  rw [hirq, hraise] at hdma
  rw [tick, hp, Bool.not_true, if_neg Bool.false_ne_true]
  dsimp only
  split
  · exact hdma
  · split
    · exact ((overlay_flags _ bus).pending s).trans hdma
    · exact hdma

theorem plugged_tick (a : Chip) (bus : Bus) : (a.tick bus).2.plugged = a.plugged := by
  have hirq : (asicIrq (a.ioCycle bus) bus).2.plugged = a.plugged := by
    obtain ⟨lock, pen, gen, pal, hplug, heq⟩ := a.ioCycle_eq bus
    rw [asicIrq, heq]
    split <;> exact hplug
  have hdma := (dmaService_plugged (asicIrq (a.ioCycle bus) bus).2 bus).trans hirq
  rw [tick]
  split
  · rfl
  · dsimp only
    split
    · exact hdma
    · split
      · exact (overlay_flags _ bus).plugged.trans hdma
      · exact hdma

theorem anyPending_looked (a : Chip) (bus : Bus) : (a.looked bus).anyPending = true ↔ ∃ s, a.sees (.cycle bus) s = true := by
  rw [anyPending_iff]
  exact exists_congr fun s => by rw [pending_looked]

theorem irq_tick {a : Chip} (hp : a.plugged = true) (bus : Bus) :
    (a.tick bus).1.irq = (asicIrq (a.ioCycle bus) bus).1.irq := by
  rw [tick, hp, Bool.not_true, if_neg Bool.false_ne_true]
  dsimp only
  split
  · rfl
  · split <;> rfl

theorem data_tick {a : Chip} (hp : a.plugged = true) {bus : Bus} (hmreq : bus.mreq = false) :
    (a.tick bus).1.data = (asicIrq (a.ioCycle bus) bus).1.vector := by
  rw [tick, hp, Bool.not_true, if_neg Bool.false_ne_true]
  dsimp only
  split
  · rfl
  · split
    · rw [overlay, hmreq]
      rfl
    · rfl

theorem irqAsserted_eq {a : Chip} (hp : a.plugged = true) : a.irqAsserted = a.anyPending := by
  rw [irqAsserted, hp, Bool.true_and]
  rfl

theorem pending_irqEvent {a : Chip} (hp : a.plugged = true) (e : IrqEvent) (s : Source) :
    (a.irqEvent e).pending s = ((!e.isAck && a.sees e s) || a.raisesIn e s) := by
  cases e with
  | cycle bus => exact pending_cycle hp bus s
  | frameLine line =>
    rw [raisesIn, Bool.or_false]
    cases s <;> exact (Bool.true_and _).symm
  | intAck =>
    have hclear := a.clearSources_pending s
    cases s <;> exact hclear

theorem plugged_irqEvent (a : Chip) (e : IrqEvent) : (a.irqEvent e).plugged = a.plugged := by
  cases e with
  | cycle bus => exact a.plugged_tick bus
  | frameLine line => rfl
  | intAck => rfl

theorem plugged_irqRun (a : Chip) (xs : List IrqEvent) : (a.irqRun xs).plugged = a.plugged := by
  induction xs generalizing a with
  | nil => rfl
  | cons e xs ih => exact (ih (a.irqEvent e)).trans (a.plugged_irqEvent e)

theorem sees_of_pending {a : Chip} {s : Source} (h : a.pending s = true) (e : IrqEvent) : a.sees e s = true := by
  cases e with
  | cycle bus =>
    cases s with
    | raster => rw [sees, show a.priPending = true from h, Bool.true_or]
    | channel c => exact h
  | frameLine line =>
    cases s with
    | raster => rw [sees, show a.priPending = true from h, Bool.true_or]
    | channel c => exact h
  | intAck => cases s <;> exact h

theorem pending_irqRun {a : Chip} (hp : a.plugged = true) {s : Source} (h : a.pending s = true) {ys : List IrqEvent}
    (hys : ∀ e ∈ ys, e.isAck = false) : (a.irqRun ys).pending s = true := by
  induction ys generalizing a with
  | nil => exact h
  | cons e ys ih =>
    obtain ⟨he, hrest⟩ := List.forall_mem_cons.1 hys
    refine ih ((a.plugged_irqEvent e).trans hp) ?_ hrest
    rw [pending_irqEvent hp, he, sees_of_pending h]
    rfl

theorem asserts_of_pending {a : Chip} (hp : a.plugged = true) {s : Source} (h : a.pending s = true) {e : IrqEvent}
    (he : e.isAck = false) : a.asserts e = true := by
  cases e with
  | cycle bus =>
    have hany : (a.looked bus).anyPending = true := (a.anyPending_looked bus).2 ⟨s, sees_of_pending h _⟩
    rw [asserts, irq_tick hp, asicIrq, show (bus.m1 && bus.iorq) = false from he, if_neg Bool.false_ne_true]
    exact hany
  | frameLine line =>
    rw [asserts, irqAsserted_eq (a := a.batchFrameLine line) hp, anyPending_iff]
    have hstay : (a.irqEvent (.frameLine line)).pending s = true := by
      rw [pending_irqEvent hp, he, sees_of_pending h]
      rfl
    exact ⟨s, hstay⟩
  | intAck => exact absurd he (by decide)

/-- There is no memory cycle in an acknowledge. -/
def NoMemory : IrqEvent → Prop
  | .cycle bus => bus.mreq = false
  | _ => True

theorem vector_of_sees {a : Chip} (hp : a.plugged = true) {e : IrqEvent} (he : e.isAck = true) (hmem : NoMemory e)
    {s : Source} (h : a.sees e s = true) : ∃ t, a.sees e t = true ∧ (∀ u, a.sees e u = true → u.rank ≤ t.rank) ∧
      a.vector e = some (a.intVector ||| t.code) := by
  cases e with
  | cycle bus =>
    have hany : (a.looked bus).anyPending = true := (a.anyPending_looked bus).2 ⟨s, h⟩
    obtain ⟨t, ht, hfirst, hcode⟩ := (a.looked bus).irqSource_spec hany
    refine ⟨t, (a.pending_looked bus t).symm.trans ht, fun u hu => hfirst u ((a.pending_looked bus u).trans hu), ?_⟩
    have hbase : (a.looked bus).intVector = a.intVector := by
      obtain ⟨lock, pen, gen, pal, _, heq⟩ := a.ioCycle_eq bus
      rw [looked, heq]
      rfl
    rw [vector, data_tick hp hmem, asicIrq, show (bus.m1 && bus.iorq) = true from he, if_pos rfl, ← hcode, ← hbase]
    exact if_pos hany
  | frameLine line => exact absurd he Bool.false_ne_true
  | intAck =>
    have hsees : ∀ u, a.sees .intAck u = a.pending u := fun u => by cases u <;> rfl
    have hany : a.anyPending = true := a.anyPending_iff.2 ⟨s, (hsees s).symm.trans h⟩
    obtain ⟨t, ht, hfirst, hcode⟩ := a.irqSource_spec hany
    refine ⟨t, (hsees t).trans ht, fun u hu => hfirst u ((hsees u).symm.trans hu), ?_⟩
    rw [vector, batchIntAck, ← hcode]
    exact congrArg some (if_pos hany)

end Chip

open Chip

/-- The sources in a run of either tier. An event leaves up what it sees and what is raised in it, and an
acknowledge only what is raised in it; a source that is up stays up until an acknowledge, and asserts the line;
the acknowledge drives the code of the first source that is up. -/
theorem stays_until_ack {a : Chip} (hp : a.plugged = true) (xs : List IrqEvent) :
    (∀ e s, ((a.irqRun xs).irqEvent e).pending s =
        ((!e.isAck && (a.irqRun xs).sees e s) || (a.irqRun xs).raisesIn e s)) ∧
      (∀ s, (a.irqRun xs).pending s = true → ∀ ys, (∀ e ∈ ys, e.isAck = false) →
        (a.irqRun (xs ++ ys)).pending s = true ∧ ∀ e, e.isAck = false → (a.irqRun (xs ++ ys)).asserts e = true) ∧
      ∀ e, e.isAck = true → NoMemory e → ∀ s, (a.irqRun xs).sees e s = true →
        ∃ t, (a.irqRun xs).sees e t = true ∧ (∀ u, (a.irqRun xs).sees e u = true → u.rank ≤ t.rank) ∧
          (a.irqRun xs).vector e = some ((a.irqRun xs).intVector ||| t.code) := by
  have hplug : (a.irqRun xs).plugged = true := (a.plugged_irqRun xs).trans hp
  refine ⟨fun e s => pending_irqEvent hplug e s, fun s hs ys hys => ?_, fun e he hmem s hs => vector_of_sees hplug he hmem hs⟩
  have hrun : a.irqRun (xs ++ ys) = (a.irqRun xs).irqRun ys := List.foldl_append
  have hstay := pending_irqRun hplug hs hys
  rw [hrun]
  exact ⟨hstay, fun e he => asserts_of_pending (((a.irqRun xs).plugged_irqRun ys).trans hplug) hstay he⟩

/-- The beam is before line 5, and channel 0 is about to execute an INT. -/
def beforeLine : Chip :=
  { plugged := true, priLine := 5, dmaPhase := .exec, dmaLo := 0x10, dma := fun _ => { enabled := true } }

/-- The cycle that brings both, with the instruction's high byte on the bus; and an acknowledge. -/
def bothRaised : IrqEvent := .cycle { addr := 0, data := 0x40, m1 := false, iorq := false, wr := false, frameLine := 5 }
def acknowledge : IrqEvent := .cycle { addr := 0, data := 0xFF, m1 := true, iorq := true, wr := false, frameLine := 5 }

theorem stays_until_ack_both : beforeLine.plugged = true ∧
    ((beforeLine.irqRun [bothRaised]).irqRun []).pending (.channel 0) = true := by
  have hrun := (stays_until_ack (a := beforeLine) rfl [bothRaised]).2.1 (.channel 0) (by decide) [] (by simp)
  exact ⟨rfl, hrun.1⟩

/-- Two sources and one acknowledge: the raster's code is driven, and the channel's interrupt is gone. -/
theorem raster_drops_channel :
    (beforeLine.irqRun [bothRaised]).pending .raster = true ∧
      (beforeLine.irqRun [bothRaised]).pending (.channel 0) = true ∧
      (beforeLine.irqRun [bothRaised]).vector acknowledge = some (beforeLine.intVector ||| Source.raster.code) ∧
      (beforeLine.irqRun [bothRaised, acknowledge]).pending (.channel 0) = false ∧
      (beforeLine.irqRun [bothRaised, acknowledge]).vector acknowledge = none := by
  decide

end Koncepcja.Asic
