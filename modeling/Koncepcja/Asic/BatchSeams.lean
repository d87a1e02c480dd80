import Koncepcja.Asic.Interrupts
import Koncepcja.Lib.Stepwise

/-!
# The Batch Seams and the Cycles

The fast tier hands the ASIC one event where the per-cycle tier ticks it over the strobes of the event. What
the chip keeps besides (the shadows of the beam, the countdown of the pauses, the generation of the snapshot)
is taken away by `visible`, and the two tiers are compared on the rest, event after event.

They part in two places. A write to the DCSR stores bit 7 as it is written, and only the per-cycle chip puts
the raster's flag back; and an acknowledge that is held drives its vector in the first of its cycles only.

## Main definitions

- `visible`: a chip without what is not compared.
- `Chip.fastEvent`, `Chip.slowEvent`: an event in the two tiers.
- `EventOk`: the events that the tiers agree on.

## Main results

- `core_first`, `core_again`, `slowEvent_follows`: the cycles of an event, and where they end.
- `seams_agree_iff`: when all of a run agrees.
-/

namespace Koncepcja.Asic

set_option maxRecDepth 20000

/-! ## What is compared -/

/-- The registers of a channel, without the countdown of a pause. -/
def Channel.registers (ch : Channel) : Channel := { ch with pauseTicks := 0, tickCycles := 0 }

namespace Chip

/-- The chip without its view of the beam, the pauses, the burst and the snapshot's generation. -/
def visible (a : Chip) : Chip :=
  { a with vidGen := 0, sync := {}, dmaPhase := .idle, dmaCur := 0, dma := fun c => (a.dma c).registers }

section Visible

variable (a : Chip)

theorem congr_of_visible {f : Chip → Chip} (hf : ∀ b, (f b).visible = (f b.visible).visible) {b c : Chip}
    (h : b.visible = c.visible) : (f b).visible = (f c).visible :=
  (hf b).trans ((congrArg (fun d => (f d).visible) h).trans (hf c).symm)

theorem registers_update (dma : Nat → Channel) (c : Nat) (ch : Channel) :
    (fun d => (Function.update dma c ch d).registers) = Function.update (fun d => (dma d).registers) c ch.registers := by
  funext d
  by_cases hd : d = c
  · subst hd
    rw [Function.update_self, Function.update_self]
  · rw [Function.update_of_ne hd, Function.update_of_ne hd]

theorem decodeDma_visible (addr : UInt16) (val : UInt8) : (a.decodeDma addr val).visible = (a.visible.decodeDma addr val).visible := by
  rw [decodeDma, decodeDma]
  split
  · rw [visible, visible]
    congr 1
    funext c
    dsimp only [visible]
    split <;> rfl
  · dsimp only
    split
    · rfl
    · rw [visible, visible]
      congr 1
      rw [registers_update, registers_update]
      congr 1
      split <;> rfl

theorem decodeConfig_visible (addr : UInt16) (val : UInt8) :
    (a.decodeConfig addr val).visible = (a.visible.decodeConfig addr val).visible := by
  rw [decodeConfig, decodeConfig]
  split <;> rfl

theorem decodeSpriteAttr_visible (addr : UInt16) (val : UInt8) :
    (a.decodeSpriteAttr addr val).visible = (a.visible.decodeSpriteAttr addr val).visible := by
  rw [decodeSpriteAttr, decodeSpriteAttr]
  dsimp only
  split <;> rfl

theorem decodeWrite_visible (addr : UInt16) (val : UInt8) :
    (a.decodeWrite addr val).visible = (a.visible.decodeWrite addr val).visible := by
  rw [decodeWrite, decodeWrite, decodeRegion, decodeRegion]
  split
  · rfl
  split
  · exact congr_of_visible (fun b => b.decodeSpriteAttr_visible addr val) rfl
  split
  · rfl
  split
  · exact congr_of_visible (fun b => b.decodeConfig_visible addr val) rfl
  split
  · exact congr_of_visible (fun b => b.decodeDma_visible addr val) rfl
  · rfl

theorem snoopClassicPalette_visible (addr : UInt16) (data : UInt8) :
    (a.snoopClassicPalette addr data).visible = (a.visible.snoopClassicPalette addr data).visible := by
  rcases snoopClassicPalette_cases addr data with h | ⟨pen, h⟩ | ⟨ink, h⟩ <;> rw [h, h] <;> rfl

theorem ioCycle_visible (bus : Bus) : (a.ioCycle bus).visible = (a.visible.ioCycle bus).visible := by
  rw [ioCycle_split, ioCycle_split]
  split
  · have hsnoop : ((a.knockCycle bus).snoopClassicPalette bus.addr bus.data).visible =
        ((a.visible.knockCycle bus).snoopClassicPalette bus.addr bus.data).visible :=
      congr_of_visible (fun b => b.snoopClassicPalette_visible bus.addr bus.data) rfl
    exact congr_of_visible (f := fun b => { b with toAsicState := mapPage b.toAsicState bus.addr bus.data }) (fun _ => rfl) hsnoop
  · rfl

theorem mirrorRaster_visible : a.mirrorRaster.visible = a.visible.mirrorRaster.visible := rfl

theorem clearSources_visible : a.clearSources.visible = a.visible.clearSources.visible := by
  rw [visible, visible]
  congr 1
  funext c
  dsimp only [clearSources, visible]
  split <;> rfl

theorem asicIrq_visible (bus : Bus) : (asicIrq a bus).2.visible = (asicIrq a.visible bus).2.visible := by
  rw [asicIrq, asicIrq]
  split
  · exact congr_of_visible clearSources_visible rfl
  · rfl

theorem overlay_visible (bus : Bus) : (a.overlay bus).2.2.visible = (a.visible.overlay bus).2.2.visible := by
  rw [overlay, overlay]
  dsimp only
  have hprev : a.visible.pgwrPrev = a.pgwrPrev := rfl
  rw [hprev]
  have hpgwr : ∀ b c : Chip, b.visible = c.visible →
      ({ b with pgwrPrev := bus.mreq && bus.wr && inPage bus.addr } : Chip).visible =
        ({ c with pgwrPrev := bus.mreq && bus.wr && inPage bus.addr } : Chip).visible := fun b c h =>
    congr_of_visible (f := fun d => { d with pgwrPrev := bus.mreq && bus.wr && inPage bus.addr }) (fun _ => rfl) h
  split
  · exact hpgwr _ _ (a.decodeWrite_visible _ _)
  · rfl

end Visible

/-! ## A cycle without the engine -/

/-- The engine is not on the bus: it rests, or waits to be granted it. -/
def Calm (a : Chip) : Prop := a.dmaPhase = .idle ∨ a.dmaPhase = .waitBusak

theorem registers_countdown (ch : Channel) : ch.countdown.registers = ch.registers := by
  rw [Channel.countdown]
  split
  · split <;> rfl
  · rfl

theorem countPauses_visible (a : Chip) : a.countPauses.visible = a.visible := by
  rw [visible, visible]
  congr 1
  funext c
  dsimp only [countPauses]
  split
  · exact registers_countdown _
  · rfl

theorem dmaService_calm {a : Chip} (h : a.Calm) {bus : Bus} (hbus : bus.busak = false) :
    (a.dmaService bus).1.master = false ∧ (a.dmaService bus).2.Calm ∧ (a.dmaService bus).2.visible = a.visible := by
  have hwait : ∀ b : Chip, b.dmaPhase = .waitBusak → b.dmaBurst bus = ({ busrq := true }, b) := by
    intro b hb
    rw [dmaBurst, hb]
    dsimp only
    rw [hbus]
    rfl
  have hcount := countPauses_visible { a with sync := { (a.sync.see bus).2 with fired := true } }
  rw [dmaService]
  dsimp only
  rcases h with h | h
  · rw [if_pos h]
    split
    · exact ⟨rfl, .inl h, rfl⟩
    · split
      · rw [hwait _ rfl]
        exact ⟨rfl, .inr rfl, hcount⟩
      · exact ⟨rfl, .inl h, hcount⟩
  · rw [if_neg (by rw [h]; decide), hwait { a with sync := (a.sync.see bus).2 } h]
    exact ⟨rfl, .inr h, rfl⟩

/-- A cycle, the engine apart. -/
def core (a : Chip) (bus : Bus) : Chip :=
  let b := (asicIrq (a.ioCycle bus) bus).2
  if b.armed then (b.overlay bus).2.2 else b

/-- What it drives: the byte, and whether the page claims the access. -/
def coreDrive (a : Chip) (bus : Bus) : Option UInt8 × Bool :=
  let r := asicIrq (a.ioCycle bus) bus
  if r.2.armed then ((r.2.overlay bus).1 <|> r.1.vector, (r.2.overlay bus).2.1) else (r.1.vector, false)

theorem armed_of_visible {a b : Chip} (h : a.visible = b.visible) : a.armed = b.armed := by
  have harmed := congrArg armed h
  exact harmed

theorem overlay_of_visible {a b : Chip} (h : a.visible = b.visible) (bus : Bus) :
    (a.overlay bus).1 = (b.overlay bus).1 ∧ (a.overlay bus).2.1 = (b.overlay bus).2.1 := by
  have hpage := congrArg page h
  refine ⟨?_, rfl⟩
  rw [overlay, overlay, show a.page = b.page from hpage]

/-- A write to the page leaves the lock, the raster's flag and the engine's phase. -/
structure PageFrame (a b : Chip) : Prop where
  lock : a.toAsicState = b.toAsicState
  phase : a.dmaPhase = b.dmaPhase
  pending : a.priPending = b.priPending
  line : a.priPrevLine = b.priPrevLine
  pgwr : a.pgwrPrev = b.pgwrPrev
  page : a.page = b.page

theorem decodeWrite_frame (a : Chip) (addr : UInt16) (val : UInt8) :
    PageFrame (a.decodeWrite addr val) { a with page := Function.update a.page (pageOffset addr) val } := by
  -- Each region of the page sets registers of its own, and no flag or page byte besides.
  have hattr : ∀ b : Chip, PageFrame (b.decodeSpriteAttr addr val) b := fun b => by
    rw [decodeSpriteAttr]
    dsimp only
    split <;> exact ⟨rfl, rfl, rfl, rfl, rfl, rfl⟩
  have hconfig : ∀ b : Chip, PageFrame (b.decodeConfig addr val) b := fun b => by
    rw [decodeConfig]
    split <;> exact ⟨rfl, rfl, rfl, rfl, rfl, rfl⟩
  have hdma : ∀ b : Chip, PageFrame (b.decodeDma addr val) b := fun b => by
    rw [decodeDma]
    split
    · exact ⟨rfl, rfl, rfl, rfl, rfl, rfl⟩
    · dsimp only
      split <;> exact ⟨rfl, rfl, rfl, rfl, rfl, rfl⟩
  rw [decodeWrite, decodeRegion]
  split
  · exact ⟨rfl, rfl, rfl, rfl, rfl, rfl⟩
  split
  · obtain ⟨h1, h2, h3, h4, h5, h6⟩ := hattr
      { a with page := Function.update a.page (pageOffset addr) val, vidGen := a.vidGen + 1 }
    exact ⟨h1, h2, h3, h4, h5, h6⟩
  split
  · exact ⟨rfl, rfl, rfl, rfl, rfl, rfl⟩
  split
  · obtain ⟨h1, h2, h3, h4, h5, h6⟩ := hconfig
      { a with page := Function.update a.page (pageOffset addr) val, vidGen := a.vidGen + 1 }
    exact ⟨h1, h2, h3, h4, h5, h6⟩
  split
  · exact hdma _
  · exact ⟨rfl, rfl, rfl, rfl, rfl, rfl⟩

theorem core_visible (a : Chip) (bus : Bus) : (a.core bus).visible = (a.visible.core bus).visible := by
  have hirq : (asicIrq (a.ioCycle bus) bus).2.visible = (asicIrq (a.visible.ioCycle bus) bus).2.visible :=
    congr_of_visible (f := fun b => (asicIrq b bus).2) (fun b => b.asicIrq_visible bus) (a.ioCycle_visible bus)
  rw [core, core, armed_of_visible hirq]
  split
  · exact congr_of_visible (f := fun b => (b.overlay bus).2.2) (fun b => b.overlay_visible bus) hirq
  · exact hirq

theorem coreDrive_visible (a : Chip) (bus : Bus) : a.coreDrive bus = a.visible.coreDrive bus := by
  have hirq : (asicIrq (a.ioCycle bus) bus).2.visible = (asicIrq (a.visible.ioCycle bus) bus).2.visible :=
    congr_of_visible (f := fun b => (asicIrq b bus).2) (fun b => b.asicIrq_visible bus) (a.ioCycle_visible bus)
  have hvector : (asicIrq (a.ioCycle bus) bus).1 = (asicIrq (a.visible.ioCycle bus) bus).1 := by
    have hone : ∀ b : Chip, (asicIrq b bus).1 = (asicIrq b.visible bus).1 := fun b => by
      rw [asicIrq, asicIrq]
      split <;> rfl
    rw [hone, a.ioCycle_visible, ← hone]
  rw [coreDrive, coreDrive, armed_of_visible hirq, hvector, (overlay_of_visible hirq bus).1, (overlay_of_visible hirq bus).2]

theorem tick_core {a : Chip} (hp : a.plugged = true) (h : a.Calm) {bus : Bus} (hbus : bus.busak = false) :
    (a.tick bus).2.visible = (a.core bus).visible ∧ (a.tick bus).2.Calm ∧
      ((a.tick bus).1.data, (a.tick bus).1.ramdis) = a.coreDrive bus := by
  have hcalm : (asicIrq (a.ioCycle bus) bus).2.Calm := by
    obtain ⟨lock, pen, gen, pal, _, heq⟩ := a.ioCycle_eq bus
    rw [asicIrq, heq]
    split <;> exact h
  -- A calm sound DMA does not ask for the bus.
  obtain ⟨hmaster, hcalm', hvisible⟩ := dmaService_calm hcalm hbus
  have harmed := armed_of_visible hvisible
  rw [tick, hp, Bool.not_true, if_neg Bool.false_ne_true, core, coreDrive]
  dsimp only
  rw [hmaster, if_neg Bool.false_ne_true, harmed]
  split
  · refine ⟨congr_of_visible (f := fun b => (b.overlay bus).2.2) (fun b => b.overlay_visible bus) hvisible, ?_, ?_⟩
    · have hphase : ((dmaService (asicIrq (a.ioCycle bus) bus).2 bus).2.overlay bus).2.2.dmaPhase =
          (dmaService (asicIrq (a.ioCycle bus) bus).2 bus).2.dmaPhase := by
        rw [overlay]
        dsimp only
        split
        · exact (decodeWrite_frame _ _ _).phase
        · rfl
      rw [Calm, hphase]
      exact hcalm'
    · rw [(overlay_of_visible hvisible bus).1, (overlay_of_visible hvisible bus).2]
  · exact ⟨hvisible, hcalm', rfl⟩

/-! ## The raster's flag in the page -/

theorem flag_set (p : UInt8) (on : Bool) : (((p &&& 0x7F) ||| if on then 0x80 else 0) &&& 0x7F) = p &&& 0x7F := by
  have hall : ∀ (n : Fin 256) (on : Bool),
      (((UInt8.ofNat n &&& 0x7F) ||| if on then 0x80 else 0) &&& 0x7F) = UInt8.ofNat n &&& 0x7F := by
    decide
  simpa using hall ⟨p.toNat, p.toNat_lt⟩ on

theorem flag_set_eq_iff (p : UInt8) (on : Bool) : ((p &&& 0x7F) ||| if on then 0x80 else 0) = p ↔ (p &&& 0x80 != 0) = on := by
  have hall : ∀ (n : Fin 256) (on : Bool),
      ((UInt8.ofNat n &&& 0x7F) ||| if on then 0x80 else 0) = UInt8.ofNat n ↔ (UInt8.ofNat n &&& 0x80 != 0) = on := by
    decide
  simpa using hall ⟨p.toNat, p.toNat_lt⟩ on

theorem page_mirrorRaster (a : Chip) : a.mirrorRaster.page =
    Function.update a.page 0x2C0F ((a.page 0x2C0F &&& 0x7F) ||| if a.priPending then 0x80 else 0) := rfl

/-- Bit 7 of the DCSR is the raster's flag. -/
def Mirrored (a : Chip) : Prop := a.mirrorRaster = a

theorem mirrored_mirrorRaster (a : Chip) : a.mirrorRaster.Mirrored := by
  rw [Mirrored, mirrorRaster, mirrorRaster]
  dsimp only
  rw [Function.update_self, Function.update_idem, flag_set]

theorem mirrored_iff (a : Chip) : a.Mirrored ↔ (a.page 0x2C0F &&& 0x80 != 0) = a.priPending := by
  rw [← flag_set_eq_iff, Mirrored]
  constructor
  · intro h
    have hpage := congrFun (congrArg page h) 0x2C0F
    rwa [page_mirrorRaster, Function.update_self] at hpage
  · intro h
    rw [mirrorRaster, h, Function.update_eq_self]

theorem Mirrored.of_frame {a b : Chip} (h : a.Mirrored) (hpage : b.page = a.page) (hpri : b.priPending = a.priPending) :
    b.Mirrored := by
  rw [mirrored_iff] at h ⊢
  rw [hpage, hpri]
  exact h

theorem reachLine_same (a : Chip) : a.reachLine a.priPrevLine = a := by
  rw [reachLine, bne_self_eq_false, Bool.and_false, Bool.or_false]

theorem reachLine_mirrorRaster (a : Chip) (line : UInt16) :
    (a.mirrorRaster.reachLine line).mirrorRaster = (a.reachLine line).mirrorRaster := by
  rw [mirrorRaster, mirrorRaster, mirrorRaster, reachLine, reachLine]
  dsimp only
  rw [Function.update_self, Function.update_idem, flag_set]

theorem asicIrq_mirrorRaster (a : Chip) (bus : Bus) : asicIrq a.mirrorRaster bus = asicIrq a bus := by
  rw [asicIrq, asicIrq, reachLine_mirrorRaster]

theorem ioCycle_mirrorRaster (a : Chip) (bus : Bus) : a.mirrorRaster.ioCycle bus = (a.ioCycle bus).mirrorRaster := by
  have hsnoop : ∀ b : Chip, b.mirrorRaster.snoopClassicPalette bus.addr bus.data =
      (b.snoopClassicPalette bus.addr bus.data).mirrorRaster := fun b => by
    rcases snoopClassicPalette_cases bus.addr bus.data with h | ⟨pen, h⟩ | ⟨ink, h⟩ <;> rw [h, h] <;> rfl
  have hknock : a.mirrorRaster.knockCycle bus = (a.knockCycle bus).mirrorRaster := rfl
  rw [ioCycle_split, ioCycle_split, hknock, hsnoop]
  split <;> rfl

theorem core_mirrorRaster (a : Chip) (bus : Bus) : a.mirrorRaster.core bus = a.core bus := by
  rw [core, core, ioCycle_mirrorRaster, asicIrq_mirrorRaster]

theorem coreDrive_mirrorRaster (a : Chip) (bus : Bus) : a.mirrorRaster.coreDrive bus = a.coreDrive bus := by
  rw [coreDrive, coreDrive, ioCycle_mirrorRaster, asicIrq_mirrorRaster]

end Chip

/-! ## The events -/

/-- An event as the CPU and the beam make it. -/
inductive SeamEvent where
  | ioWrite (port : UInt16) (val : UInt8)
  | memRead (addr : UInt16) (m1 : Bool)
  | memWrite (addr : UInt16) (val : UInt8)
  | frameLine (line : UInt16)
  | intAck (pc : UInt16)
  deriving DecidableEq, Repr

/-- What the CPU gets from it: the byte of a read, if the page has it; whether the page has claimed a write;
    the vector. -/
inductive Answer where
  | nothing
  | read (byte : Option UInt8)
  | write (claimed : Bool)
  | vector (byte : UInt8)
  deriving DecidableEq, Repr

/-- The beam in a cycle. -/
structure Beam where
  hsync : Bool := false
  crtc : Bool := false
  hsw : UInt8 := 0
  deriving DecidableEq, Repr

/-- The cycles of an event: the strobes are held for one or more, and released for one or more. -/
structure Timing where
  before : List Beam := []
  last : Beam := {}
  idle : Beam := {}
  more : List Beam := []
  deriving DecidableEq, Repr

/-- The bus without strobes. -/
def restBus : Bus := { addr := 0, data := 0xFF, m1 := false, iorq := false, wr := false }

namespace SeamEvent

/-- The strobes of an event; the frame line has none. -/
def strobes : SeamEvent → Bus
  | .ioWrite port val => { addr := port, data := val, m1 := false, iorq := true, wr := true }
  | .memRead addr m1 => { addr, data := 0xFF, m1, iorq := false, wr := false, mreq := true, rd := true }
  | .memWrite addr val => { addr, data := val, m1 := false, iorq := false, wr := true, mreq := true }
  | .frameLine _ => restBus
  | .intAck pc => { addr := pc, data := 0xFF, m1 := true, iorq := true, wr := false }

/-- The line that is on the bus. -/
def line (e : SeamEvent) (a : Chip) : UInt16 :=
  match e with
  | .frameLine line => line
  | .ioWrite _ _ => a.priPrevLine
  | .memRead _ _ => a.priPrevLine
  | .memWrite _ _ => a.priPrevLine
  | .intAck _ => a.priPrevLine

/-- What the CPU samples in the last cycle of the strobes; a bus that nothing drives floats. -/
def answer (e : SeamEvent) (data : Option UInt8) (ramdis : Bool) : Answer :=
  match e with
  | .ioWrite _ _ => .nothing
  | .memRead _ _ => .read data
  | .memWrite _ _ => .write ramdis
  | .frameLine _ => .nothing
  | .intAck _ => .vector (data.getD 0xFF)

end SeamEvent

/-- The strobes under a beam, while the CPU keeps the bus. -/
def Bus.onBeam (bus : Bus) (line : UInt16) (b : Beam) : Bus :=
  { bus with frameLine := line, busak := false, hsync := b.hsync, crtc := b.crtc, hsw := b.hsw }

namespace Chip

/-- The event in the fast tier. -/
def fastEvent (a : Chip) : SeamEvent → Answer × Chip
  | .ioWrite port val => (.nothing, a.fastIoWrite port val)
  | .memRead addr _ => (.read (a.fastMemRead addr), a)
  | .memWrite addr val => (.write (a.fastMemWrite addr val).1, (a.fastMemWrite addr val).2)
  | .frameLine line => (.nothing, a.batchFrameLine line)
  | .intAck _ => (.vector a.batchIntAck.1, a.batchIntAck.2)

/-- Cycles of one bus. -/
def cycles (a : Chip) (bus : Bus) (line : UInt16) (beams : List Beam) : Chip :=
  beams.foldl (fun a b => (a.tick (bus.onBeam line b)).2) a

/-- The event in the per-cycle tier. -/
def slowEvent (a : Chip) (e : SeamEvent) (t : Timing) : Answer × Chip :=
  let line := e.line a
  let held := a.cycles e.strobes line t.before
  let r := held.tick (e.strobes.onBeam line t.last)
  (e.answer r.1.data r.1.ramdis, r.2.cycles restBus line (t.idle :: t.more))

/-! ## One cycle of an event -/

/-- The chip between two accesses. -/
structure Still (a : Chip) : Prop where
  plugged : a.plugged = true
  knock : a.knockPrev = false
  pgwr : a.pgwrPrev = false
  mirrored : a.Mirrored

/-- The chip under the strobes of an event. -/
def strobed (a : Chip) (knock pgwr : Bool) : Chip := { a with knockPrev := knock, pgwrPrev := pgwr }

theorem strobed_still {a : Chip} (h : a.Still) : a.strobed false false = a := by
  obtain ⟨lock, pgwrPrev⟩ := a
  obtain ⟨plugged, locked, pageOn, lockpos, knockPrev⟩ := lock
  obtain rfl : knockPrev = false := h.knock
  obtain rfl : pgwrPrev = false := h.pgwr
  rfl

theorem ioCycle_quiet (a : Chip) {bus : Bus} (h : bus.iorq = false) : a.ioCycle bus = { a with knockPrev := false } := by
  have hknock : bus.knock = false := by rw [BusIn.knock, h]; rfl
  rw [ioCycle_split, h, Bool.false_and, if_neg Bool.false_ne_true, knockCycle, hknock]
  rfl

theorem asicIrq_quiet {a : Chip} (hm : a.Mirrored) {bus : Bus} (hline : bus.frameLine = a.priPrevLine)
    (hack : (bus.m1 && bus.iorq) = false) : asicIrq a bus = ({ irq := a.anyPending }, a) := by
  rw [asicIrq, hack, if_neg Bool.false_ne_true, hline, reachLine_same]
  exact congrArg₂ Prod.mk (by rw [show a.mirrorRaster = a from hm]; rfl) hm

theorem core_quiet {a : Chip} (hm : a.Mirrored) {bus : Bus} (hline : bus.frameLine = a.priPrevLine)
    (hiorq : bus.iorq = false) : a.core bus =
      if a.armed then (({ a with knockPrev := false } : Chip).overlay bus).2.2 else { a with knockPrev := false } := by
  have hm' : ({ a with knockPrev := false } : Chip).Mirrored := hm.of_frame rfl rfl
  rw [core, a.ioCycle_quiet hiorq, asicIrq_quiet hm' hline (by rw [hiorq, Bool.and_false])]
  rfl

theorem overlay_quiet (a : Chip) {bus : Bus} (h : (bus.mreq && bus.wr) = false) :
    (a.overlay bus).2.2 = { a with pgwrPrev := false } := by
  rw [overlay, h, Bool.false_and]
  rfl

theorem core_rest {a : Chip} (h : a.Still) {knock pgwr : Bool} (hpgwr : pgwr = true → a.armed = true) {bus : Bus}
    (hiorq : bus.iorq = false) (hwr : (bus.mreq && bus.wr) = false) (hline : bus.frameLine = a.priPrevLine) :
    (a.strobed knock pgwr).core bus = a := by
  have hm : (a.strobed knock pgwr).Mirrored := h.mirrored.of_frame rfl rfl
  rw [core_quiet hm hline hiorq, overlay_quiet _ hwr]
  have harmed : (a.strobed knock pgwr).armed = a.armed := rfl
  rw [harmed]
  cases ha : a.armed with
  | true => exact strobed_still h
  | false =>
    cases pgwr with
    | true => exact absurd (ha.symm.trans (hpgwr rfl)) Bool.false_ne_true
    | false => exact strobed_still h

end Chip

namespace SeamEvent

/-- The event is a write to the select port. -/
def knocks : SeamEvent → Bool
  | .ioWrite port _ => selects port
  | .memRead _ _ => false
  | .memWrite _ _ => false
  | .frameLine _ => false
  | .intAck _ => false

/-- The event is a write that the page claims. -/
def pageWrite (a : Chip) : SeamEvent → Bool
  | .ioWrite _ _ => false
  | .memRead _ _ => false
  | .memWrite addr _ => a.armed && Chip.inPage addr
  | .frameLine _ => false
  | .intAck _ => false

end SeamEvent

namespace Chip

/-- Where the cycles of an event lead: the event of the fast tier, and the raster's flag in the page. -/
def settled (a : Chip) (e : SeamEvent) : Chip := (a.fastEvent e).2.mirrorRaster

theorem fastIoWrite_eq (a : Chip) (port : UInt16) (val : UInt8) : ∃ lock pen gen pal, lock.plugged = a.plugged ∧
    lock.knockPrev = a.knockPrev ∧
      a.fastIoWrite port val = { a with toAsicState := lock, classicPen := pen, vidGen := gen, palette := pal } := by
  rw [fastIoWrite]
  split
  · exact ⟨_, _, _, _, rfl, rfl, rfl⟩
  · let b : Chip := if selects port then { a with toAsicState := feedKnock a.toAsicState val } else a
    have hb : ∃ lock, lock.plugged = a.plugged ∧ lock.knockPrev = a.knockPrev ∧ b = { a with toAsicState := lock } := by
      dsimp only [b]
      split
      · exact ⟨_, feedKnock_plugged _ _, feedKnock_knockPrev _ _, rfl⟩
      · exact ⟨_, rfl, rfl, rfl⟩
    obtain ⟨lock, hplug, hprev, hlock⟩ := hb
    obtain ⟨pen, gen, pal, hsnoop⟩ := b.snoopClassicPalette_eq port val
    have hmap := mapPage_frame b.toAsicState port val
    rw [hlock] at hmap
    refine ⟨_, pen, gen, pal, hmap.2.1.trans hplug, hmap.2.2.trans hprev, ?_⟩
    dsimp only
    rw [show (if selects port then { a with toAsicState := feedKnock a.toAsicState val } else a : Chip) = b from rfl, hsnoop, hlock]

theorem fastMemWrite_frame (a : Chip) (addr : UInt16) (val : UInt8) :
    (a.fastMemWrite addr val).2.toAsicState = a.toAsicState ∧ (a.fastMemWrite addr val).2.priPrevLine = a.priPrevLine ∧
      (a.fastMemWrite addr val).2.pgwrPrev = a.pgwrPrev ∧ (a.fastMemWrite addr val).2.priPending = a.priPending := by
  rw [fastMemWrite]
  split
  · have hframe := a.decodeWrite_frame addr val
    exact ⟨hframe.lock, hframe.line, hframe.pgwr, hframe.pending⟩
  · exact ⟨rfl, rfl, rfl, rfl⟩

theorem Still.settled {a : Chip} (h : a.Still) (e : SeamEvent) : (a.settled e).Still ∧ (a.settled e).priPrevLine = e.line a ∧
    (e.pageWrite a = true → (a.settled e).armed = true) := by
  have hm : ∀ b : Chip, b.mirrorRaster.Mirrored := mirrored_mirrorRaster
  cases e with
  | ioWrite port val =>
    obtain ⟨lock, pen, gen, pal, hplug, hprev, heq⟩ := a.fastIoWrite_eq port val
    rw [Chip.settled, fastEvent, heq]
    exact ⟨⟨hplug.trans h.plugged, hprev.trans h.knock, h.pgwr, hm _⟩, rfl, fun h' => absurd h' Bool.false_ne_true⟩
  | memRead addr m1 =>
    exact ⟨⟨h.plugged, h.knock, h.pgwr, hm _⟩, rfl, fun h' => absurd h' Bool.false_ne_true⟩
  | memWrite addr val =>
    obtain ⟨hlock, hline, hpgwr, _⟩ := a.fastMemWrite_frame addr val
    refine ⟨⟨?_, ?_, hpgwr.trans h.pgwr, hm _⟩, hline, fun h' => ?_⟩
    · exact (congrArg AsicState.plugged hlock).trans h.plugged
    · exact (congrArg AsicState.knockPrev hlock).trans h.knock
    · rw [SeamEvent.pageWrite, Bool.and_eq_true] at h'
      exact (congrArg pageArmed hlock).trans h'.1
  | frameLine line =>
    exact ⟨⟨h.plugged, h.knock, h.pgwr, hm _⟩, rfl, fun h' => absurd h' Bool.false_ne_true⟩
  | intAck pc =>
    exact ⟨⟨h.plugged, h.knock, h.pgwr, hm _⟩, rfl, fun h' => absurd h' Bool.false_ne_true⟩

theorem ioCycle_strobe {a : Chip} (h : a.Still) (port : UInt16) (val : UInt8) (line : UInt16) (b : Beam) :
    a.ioCycle ((SeamEvent.ioWrite port val).strobes.onBeam line b) =
      { a.fastIoWrite port val with knockPrev := selects port } := by
  have hbus : ((SeamEvent.ioWrite port val).strobes.onBeam line b).knock = selects port := rfl
  have hknock : a.knockCycle ((SeamEvent.ioWrite port val).strobes.onBeam line b) =
      { (if selects port then { a with toAsicState := feedKnock a.toAsicState val } else a : Chip) with
        knockPrev := selects port } := by
    rw [knockCycle, hbus, h.knock, Bool.not_false, Bool.and_true]
    split <;> rfl
  have hsnoop : ∀ c : Chip, ({ c with knockPrev := selects port } : Chip).snoopClassicPalette port val =
      { c.snoopClassicPalette port val with knockPrev := selects port } := fun c => by
    rcases snoopClassicPalette_cases port val with h | ⟨pen, h⟩ | ⟨ink, h⟩ <;> rw [h, h]
  have hmap : ∀ l : AsicState, mapPage { l with knockPrev := selects port } port val =
      { mapPage l port val with knockPrev := selects port } := fun l => by
    rw [mapPage, mapPage]
    dsimp only
    split <;> rfl
  rw [ioCycle_split, hknock]
  refine (if_pos rfl).trans ?_
  have hdata : ((SeamEvent.ioWrite port val).strobes.onBeam line b).addr = port ∧
      ((SeamEvent.ioWrite port val).strobes.onBeam line b).data = val := ⟨rfl, rfl⟩
  rw [hdata.1, hdata.2, hsnoop, fastIoWrite, h.plugged, Bool.not_true, if_neg Bool.false_ne_true]
  dsimp only
  rw [hmap]

/-- Other values for what the classic palette port has nothing to do with. -/
def besides (a : Chip) (lock : AsicState) (page : Nat → UInt8) (pgwr : Bool) : Chip :=
  { a with toAsicState := lock, page := page, pgwrPrev := pgwr }

theorem besides_snoop (a : Chip) (lock : AsicState) (page : Nat → UInt8) (pgwr : Bool) (port : UInt16) (val : UInt8) :
    (a.besides lock page pgwr).snoopClassicPalette port val = (a.snoopClassicPalette port val).besides lock page pgwr := by
  rcases snoopClassicPalette_cases port val with h | ⟨pen, h⟩ | ⟨ink, h⟩ <;> rw [h, h] <;> rfl

theorem snoop_snoop (a : Chip) (port : UInt16) (val : UInt8) :
    ((a.snoopClassicPalette port val).snoopClassicPalette port val).visible = (a.snoopClassicPalette port val).visible := by
  rcases snoopClassicPalette_cases port val with h | ⟨pen, h⟩ | ⟨ink, h⟩
  · rw [h, h]
  · rw [h, h]
  · rw [h, h]
    dsimp only [visible]
    rw [Function.update_idem]

theorem mapPage_mapPage (l : AsicState) (port : UInt16) (val : UInt8) (knock : Bool) :
    mapPage { mapPage l port val with knockPrev := knock } port val = { mapPage l port val with knockPrev := knock } := by
  rw [mapPage, mapPage]
  split <;> rfl

theorem core_ioWrite {a : Chip} (h : a.Still) (port : UInt16) (val : UInt8) (b : Beam) :
    a.core ((SeamEvent.ioWrite port val).strobes.onBeam a.priPrevLine b) = (a.fastIoWrite port val).strobed (selects port) false := by
  obtain ⟨lock, pen, gen, pal, _, _, heq⟩ := a.fastIoWrite_eq port val
  have hm : ({ a.fastIoWrite port val with knockPrev := selects port } : Chip).Mirrored := by
    rw [heq]
    exact h.mirrored.of_frame rfl rfl
  have hline : ((SeamEvent.ioWrite port val).strobes.onBeam a.priPrevLine b).frameLine =
      ({ a.fastIoWrite port val with knockPrev := selects port } : Chip).priPrevLine := by
    rw [heq]
    rfl
  have hpgwr : (a.fastIoWrite port val).pgwrPrev = false := by
    rw [heq]
    exact h.pgwr
  rw [core, ioCycle_strobe h, asicIrq_quiet hm hline rfl]
  dsimp only
  rw [overlay_quiet _ rfl, strobed, ← hpgwr, ite_self]

theorem knockCycle_held {a : Chip} {bus : Bus} (h : a.knockPrev = bus.knock) : a.knockCycle bus = a := by
  rw [knockCycle, h, Bool.and_not_self, if_neg Bool.false_ne_true, ← h]

theorem core_ioWrite_held {a : Chip} (h : a.Still) (port : UInt16) (val : UInt8) (b : Beam) :
    (((a.fastIoWrite port val).strobed (selects port) false).core
        ((SeamEvent.ioWrite port val).strobes.onBeam a.priPrevLine b)).visible =
      ((a.fastIoWrite port val).strobed (selects port) false).visible := by
  let bus := (SeamEvent.ioWrite port val).strobes.onBeam a.priPrevLine b
  let fed : Chip := if selects port then { a with toAsicState := feedKnock a.toAsicState val } else a
  let inked := fed.snoopClassicPalette port val
  let lock : AsicState := { mapPage inked.toAsicState port val with knockPrev := selects port }
  have hfast : a.fastIoWrite port val = { inked with toAsicState := mapPage inked.toAsicState port val } := by
    rw [fastIoWrite, h.plugged, Bool.not_true, if_neg Bool.false_ne_true]
  have hheld : (a.fastIoWrite port val).strobed (selects port) false = inked.besides lock inked.page false := by
    rw [hfast]
    rfl
  obtain ⟨_, pen, gen, pal, _, _, heq⟩ := a.fastIoWrite_eq port val
  have hm : ((a.fastIoWrite port val).strobed (selects port) false).Mirrored := by
    rw [heq]
    exact h.mirrored.of_frame rfl rfl
  have hline : bus.frameLine = ((a.fastIoWrite port val).strobed (selects port) false).priPrevLine := by
    rw [heq]
    rfl
  rw [hheld] at hm hline ⊢
  -- the byte is not fed again, and the rest is what it was
  have hknock : (inked.besides lock inked.page false).knockCycle bus = inked.besides lock inked.page false :=
    knockCycle_held rfl
  have hio : ((inked.besides lock inked.page false).ioCycle bus).visible = (inked.besides lock inked.page false).visible := by
    rw [ioCycle_split, hknock]
    refine (congrArg visible (if_pos rfl)).trans ?_
    rw [show bus.addr = port from rfl, show bus.data = val from rfl, besides_snoop]
    have hlock : mapPage lock port val = lock := mapPage_mapPage _ port val _
    have hsnoop := congr_of_visible (f := fun c => c.besides lock inked.page false) (fun _ => rfl) (snoop_snoop fed port val)
    refine Eq.trans ?_ hsnoop
    rw [show ((inked.snoopClassicPalette port val).besides lock inked.page false).toAsicState = lock from rfl, hlock]
    rfl
  have hirq := congr_of_visible (f := fun c => (asicIrq c bus).2) (fun c => c.asicIrq_visible bus) hio
  rw [asicIrq_quiet hm hline rfl] at hirq
  have hover := congr_of_visible (f := fun c => (c.overlay bus).2.2) (fun c => c.overlay_visible bus) hirq
  rw [core]
  split
  · rw [hover, overlay_quiet _ rfl]
    rfl
  · exact hirq

theorem asicIrq_ack {a : Chip} (hm : a.Mirrored) {bus : Bus} (hline : bus.frameLine = a.priPrevLine)
    (hack : (bus.m1 && bus.iorq) = true) : asicIrq a bus =
      ({ vector := if a.anyPending then some (a.intVector ||| a.irqSource) else none }, a.clearSources) := by
  rw [asicIrq, hack, if_pos rfl, hline, reachLine_same, show a.mirrorRaster = a from hm]
  rfl

theorem asicIrq_line (a : Chip) {bus : Bus} (hack : (bus.m1 && bus.iorq) = false) :
    asicIrq a bus = ({ irq := (a.batchFrameLine bus.frameLine).anyPending }, a.batchFrameLine bus.frameLine) := by
  rw [asicIrq, hack, if_neg Bool.false_ne_true]
  rfl

theorem ioCycle_intAck {a : Chip} (h : a.Still) (pc line : UInt16) (b : Beam) :
    a.ioCycle ((SeamEvent.intAck pc).strobes.onBeam line b) = a := by
  rw [ioCycle_split]
  exact knockCycle_held h.knock

theorem core_intAck {a : Chip} (h : a.Still) (pc : UInt16) (b : Beam) :
    a.core ((SeamEvent.intAck pc).strobes.onBeam a.priPrevLine b) = a.clearSources := by
  have hstill : ({ a.clearSources with pgwrPrev := false } : Chip) = a.clearSources := by
    rw [← h.pgwr]
    rfl
  rw [core, ioCycle_intAck h, asicIrq_ack h.mirrored rfl rfl, overlay_quiet _ rfl, hstill, ite_self]

theorem batchIntAck_mirrorRaster (a : Chip) : a.batchIntAck.2.mirrorRaster = a.clearSources.mirrorRaster := by
  have hflag := flag_set (a.page 0x2C0F) false
  rw [if_neg Bool.false_ne_true, UInt8.or_zero] at hflag
  rw [mirrorRaster, mirrorRaster, batchIntAck]
  dsimp only [clearSources]
  rw [Function.update_self, Function.update_idem, hflag]

theorem core_memWrite {a : Chip} (h : a.Still) (addr : UInt16) (val : UInt8) (b : Beam) :
    a.core ((SeamEvent.memWrite addr val).strobes.onBeam a.priPrevLine b) =
      (a.fastMemWrite addr val).2.strobed false (a.armed && inPage addr) := by
  have hstill : ({ a with knockPrev := false } : Chip) = a := by rw [← h.knock]
  have hpgwr : a.strobed false false = a := strobed_still h
  rw [core_quiet h.mirrored rfl rfl, hstill, fastMemWrite]
  cases harmed : a.armed with
  | false =>
    rw [if_neg Bool.false_ne_true, Bool.false_and, if_neg Bool.false_ne_true, hpgwr]
  | true =>
    rw [if_pos rfl, Bool.true_and, overlay, h.pgwr]
    have hbus : (((SeamEvent.memWrite addr val).strobes.onBeam a.priPrevLine b).mreq &&
        ((SeamEvent.memWrite addr val).strobes.onBeam a.priPrevLine b).wr &&
          inPage ((SeamEvent.memWrite addr val).strobes.onBeam a.priPrevLine b).addr) = inPage addr := rfl
    dsimp only
    rw [hbus]
    cases hpage : inPage addr with
    | false => exact (congrArg (fun c : Chip => { c with pgwrPrev := false }) hpgwr.symm).trans rfl
    | true =>
      have hlock := (a.decodeWrite_frame addr val).lock
      have hprev : (a.decodeWrite addr val).knockPrev = false := (congrArg AsicState.knockPrev hlock).trans h.knock
      refine Eq.trans (b := ({ a.decodeWrite addr val with pgwrPrev := true } : Chip)) rfl ?_
      rw [if_pos rfl, strobed, ← hprev]

/-- The first cycle of an event. -/
theorem core_first {a : Chip} (h : a.Still) (e : SeamEvent) (b : Beam) :
    (a.core (e.strobes.onBeam (e.line a) b)).mirrorRaster = (a.settled e).strobed e.knocks (e.pageWrite a) := by
  have hstill := strobed_still (h.settled e).1
  -- Each event beside the one tick that sees its line rise.
  cases e with
  | ioWrite port val =>
    have hcore := core_ioWrite h port val b
    exact congrArg mirrorRaster hcore
  | memRead addr m1 =>
    have hcore := @core_rest _ h false false (fun h' => absurd h' Bool.false_ne_true)
      ((SeamEvent.memRead addr m1).strobes.onBeam a.priPrevLine b) rfl rfl rfl
    rw [strobed_still h] at hcore
    exact (congrArg mirrorRaster hcore).trans hstill.symm
  | memWrite addr val =>
    have hcore := core_memWrite h addr val b
    exact congrArg mirrorRaster hcore
  | frameLine line =>
    have hprev : ({ a with knockPrev := false } : Chip) = a := by rw [← h.knock]
    have hpgwr : ({ a.batchFrameLine line with pgwrPrev := false } : Chip) = a.batchFrameLine line := by
      rw [← h.pgwr]
      rfl
    have hcore : a.core ((SeamEvent.frameLine line).strobes.onBeam line b) = a.batchFrameLine line := by
      have hirq := @asicIrq_line a ((SeamEvent.frameLine line).strobes.onBeam line b) rfl
      rw [show ((SeamEvent.frameLine line).strobes.onBeam line b).frameLine = line from rfl] at hirq
      rw [core, a.ioCycle_quiet rfl, hprev, hirq, overlay_quiet _ rfl, hpgwr, ite_self]
    exact (congrArg mirrorRaster hcore).trans hstill.symm
  | intAck pc =>
    have hcore := core_intAck h pc b
    exact (congrArg mirrorRaster hcore).trans ((batchIntAck_mirrorRaster a).symm.trans hstill.symm)

theorem settled_intAck_clear (a : Chip) (pc : UInt16) : (a.settled (.intAck pc)).clearSources = a.settled (.intAck pc) := by
  rw [settled, fastEvent, batchIntAck_mirrorRaster]
  have hdma : ∀ c, (if c < 3 then { (a.clearSources.dma c) with int := false } else a.clearSources.dma c) = a.clearSources.dma c := by
    intro c
    dsimp only [clearSources]
    split <;> rfl
  rw [clearSources]
  exact congrArg (fun dma => { a.clearSources.mirrorRaster with dma := dma }) (funext hdma)

theorem core_memWrite_held {a : Chip} (h : a.Still) (addr : UInt16) (val : UInt8) (b : Beam) :
    ((a.settled (.memWrite addr val)).strobed false (a.armed && inPage addr)).core
        ((SeamEvent.memWrite addr val).strobes.onBeam a.priPrevLine b) =
      (a.settled (.memWrite addr val)).strobed false (a.armed && inPage addr) := by
  obtain ⟨hsettled, hline, _⟩ := h.settled (.memWrite addr val)
  have hm : ((a.settled (.memWrite addr val)).strobed false (a.armed && inPage addr)).Mirrored :=
    hsettled.mirrored.of_frame rfl rfl
  have harmed : ((a.settled (.memWrite addr val)).strobed false (a.armed && inPage addr)).armed = a.armed := by
    have hlock := congrArg pageArmed (a.fastMemWrite_frame addr val).1
    exact hlock
  rw [core_quiet hm hline.symm rfl, harmed]
  cases ha : a.armed with
  | false => rfl
  | true =>
    -- the write has been decoded, and its strobe goes on
    rw [if_pos rfl, overlay]
    have hbus : (((SeamEvent.memWrite addr val).strobes.onBeam a.priPrevLine b).mreq &&
        ((SeamEvent.memWrite addr val).strobes.onBeam a.priPrevLine b).wr &&
          inPage ((SeamEvent.memWrite addr val).strobes.onBeam a.priPrevLine b).addr) = inPage addr := rfl
    dsimp only
    rw [hbus]
    cases inPage addr <;> rfl

/-- The cycles behind the first. -/
theorem core_again {a : Chip} (h : a.Still) (e : SeamEvent) (b : Beam) :
    (((a.settled e).strobed e.knocks (e.pageWrite a)).core (e.strobes.onBeam (e.line a) b)).visible =
      ((a.settled e).strobed e.knocks (e.pageWrite a)).visible := by
  obtain ⟨hsettled, hline, _⟩ := h.settled e
  have hstill := strobed_still hsettled
  have hno : false = true → (a.settled e).armed = true := fun h' => absurd h' Bool.false_ne_true
  -- The line of the event is up still: a second tick finds no edge, so nothing visible moves.
  cases e with
  | ioWrite port val =>
    obtain ⟨lock, pen, gen, pal, _, _, heq⟩ := a.fastIoWrite_eq port val
    have hm : (a.fastIoWrite port val).Mirrored := by
      rw [heq]
      exact h.mirrored.of_frame rfl rfl
    rw [settled, fastEvent, show (a.fastIoWrite port val).mirrorRaster = a.fastIoWrite port val from hm]
    exact core_ioWrite_held h port val b
  | memRead addr m1 =>
    have hcore := @core_rest _ hsettled false false hno ((SeamEvent.memRead addr m1).strobes.onBeam a.priPrevLine b)
      rfl rfl hline.symm
    exact congrArg visible (hcore.trans hstill.symm)
  | memWrite addr val => exact congrArg visible (core_memWrite_held h addr val b)
  | frameLine line =>
    have hcore := @core_rest _ hsettled false false hno ((SeamEvent.frameLine line).strobes.onBeam line b) rfl rfl
      hline.symm
    exact congrArg visible (hcore.trans hstill.symm)
  | intAck pc =>
    have hcore := core_intAck hsettled pc b
    rw [hline, settled_intAck_clear] at hcore
    have hsame : (a.settled (.intAck pc)).strobed false false = a.settled (.intAck pc) := hstill
    rw [SeamEvent.knocks, SeamEvent.pageWrite, hsame]
    exact congrArg visible hcore

/-! ## The cycles of an event -/

/-- A chip of the per-cycle tier whose cycle begins like that of another chip. -/
structure Follows (a X : Chip) : Prop where
  calm : a.Calm
  visible : a.mirrorRaster.visible = X.visible

theorem Follows.plugged {a X : Chip} (h : a.Follows X) : a.plugged = X.plugged := by
  have hplug := congrArg (fun c : Chip => c.plugged) h.visible
  exact hplug

theorem Follows.tick {a X : Chip} (h : a.Follows X) (hp : X.plugged = true) (bus : Bus) (line : UInt16) (b : Beam) :
    (a.tick (bus.onBeam line b)).2.visible = (X.core (bus.onBeam line b)).visible ∧ (a.tick (bus.onBeam line b)).2.Calm ∧
      ((a.tick (bus.onBeam line b)).1.data, (a.tick (bus.onBeam line b)).1.ramdis) = X.coreDrive (bus.onBeam line b) := by
  obtain ⟨hvisible, hcalm, hdrive⟩ := @tick_core _ (h.plugged.trans hp) h.calm (bus.onBeam line b) rfl
  refine ⟨?_, hcalm, ?_⟩
  · rw [hvisible, ← core_mirrorRaster]
    exact congr_of_visible (f := fun c => c.core (bus.onBeam line b)) (fun c => c.core_visible _) h.visible
  · rw [hdrive, ← coreDrive_mirrorRaster, coreDrive_visible, h.visible, ← coreDrive_visible]

theorem Follows.next {a X Y : Chip} (h : a.Follows X) (hp : X.plugged = true) {bus : Bus} {line : UInt16} {b : Beam}
    (hcore : (X.core (bus.onBeam line b)).mirrorRaster.visible = Y.visible) : (a.tick (bus.onBeam line b)).2.Follows Y := by
  obtain ⟨hvisible, hcalm, _⟩ := h.tick hp bus line b
  exact ⟨hcalm, (congr_of_visible mirrorRaster_visible hvisible).trans hcore⟩

theorem Follows.cycles {a X : Chip} (h : a.Follows X) (hp : X.plugged = true) {bus : Bus} {line : UInt16}
    (hcore : ∀ b, (X.core (bus.onBeam line b)).mirrorRaster.visible = X.visible) (beams : List Beam) :
    (a.cycles bus line beams).Follows X := by
  induction beams generalizing a with
  | nil => exact h
  | cons b beams ih => exact ih (h.next hp (hcore b))

/-- Between two events, in the per-cycle tier. -/
structure Resting (a : Chip) : Prop extends Still a where
  calm : a.Calm

theorem Resting.follows {a : Chip} (h : a.Resting) : a.Follows a := ⟨h.calm, congrArg visible h.mirrored⟩

theorem Resting.before {a : Chip} (h : a.Resting) (e : SeamEvent) (beams : List Beam) :
    (beams = [] ∧ a.cycles e.strobes (e.line a) beams = a) ∨
      (beams ≠ [] ∧ (a.cycles e.strobes (e.line a) beams).Follows ((a.settled e).strobed e.knocks (e.pageWrite a))) := by
  have hplug : ((a.settled e).strobed e.knocks (e.pageWrite a)).plugged = true := (h.toStill.settled e).1.plugged
  have hstay : ∀ b, (((a.settled e).strobed e.knocks (e.pageWrite a)).core (e.strobes.onBeam (e.line a) b)).mirrorRaster.visible =
      ((a.settled e).strobed e.knocks (e.pageWrite a)).visible := fun b => by
    rw [congr_of_visible mirrorRaster_visible (core_again h.toStill e b)]
    exact congrArg visible ((h.toStill.settled e).1.mirrored.of_frame rfl rfl)
  cases beams with
  | nil => exact .inl ⟨rfl, rfl⟩
  | cons b beams =>
    have hfirst := h.follows.next h.plugged (Y := (a.settled e).strobed e.knocks (e.pageWrite a))
      (congrArg visible (core_first h.toStill e b))
    exact .inr ⟨List.cons_ne_nil _ _, hfirst.cycles hplug hstay beams⟩

/-- All the cycles of an event. -/
theorem slowEvent_follows {a : Chip} (h : a.Resting) (e : SeamEvent) (t : Timing) :
    (a.slowEvent e t).2.visible = (a.settled e).visible ∧ (a.slowEvent e t).2.Calm := by
  obtain ⟨hsettled, hline, hpgwr⟩ := h.toStill.settled e
  have hplug : ((a.settled e).strobed e.knocks (e.pageWrite a)).plugged = true := hsettled.plugged
  -- the strobes
  have hlast : (((a.cycles e.strobes (e.line a) t.before).tick (e.strobes.onBeam (e.line a) t.last)).2).Follows
      ((a.settled e).strobed e.knocks (e.pageWrite a)) := by
    rcases h.before e t.before with ⟨_, hnone⟩ | ⟨_, hheld⟩
    · rw [hnone]
      exact h.follows.next h.plugged (congrArg visible (core_first h.toStill e t.last))
    · refine hheld.next hplug ?_
      rw [congr_of_visible mirrorRaster_visible (core_again h.toStill e t.last)]
      exact congrArg visible (hsettled.mirrored.of_frame rfl rfl)
  -- and the cycles without
  have hrest : ∀ (knock pgwr : Bool), (pgwr = true → (a.settled e).armed = true) → ∀ b,
      (((a.settled e).strobed knock pgwr).core (restBus.onBeam (e.line a) b)) = a.settled e := fun knock pgwr hp b =>
    core_rest hsettled hp rfl rfl hline.symm
  have hidle := hlast.tick hplug restBus (e.line a) t.idle
  rw [hrest _ _ hpgwr] at hidle
  have hfollows : ((((a.cycles e.strobes (e.line a) t.before).tick (e.strobes.onBeam (e.line a) t.last)).2).tick
      (restBus.onBeam (e.line a) t.idle)).2.Follows (a.settled e) :=
    ⟨hidle.2.1, (congr_of_visible mirrorRaster_visible hidle.1).trans (congrArg visible hsettled.mirrored)⟩
  have hsame : ∀ b, ((a.settled e).core (restBus.onBeam (e.line a) b)) = a.settled e := fun b => by
    have hcore := hrest false false (fun h' => absurd h' Bool.false_ne_true) b
    rwa [strobed_still hsettled] at hcore
  -- each of them shows what the event has settled to
  have hmore : ∀ (beams : List Beam) (c : Chip), c.visible = (a.settled e).visible → c.Follows (a.settled e) →
      (c.cycles restBus (e.line a) beams).visible = (a.settled e).visible ∧ (c.cycles restBus (e.line a) beams).Calm := by
    intro beams
    induction beams with
    | nil => exact fun c hc hf => ⟨hc, hf.calm⟩
    | cons b beams ih =>
      intro c _ hf
      have htick := hf.tick hsettled.plugged restBus (e.line a) b
      rw [hsame] at htick
      refine ih _ htick.1 (hf.next hsettled.plugged ?_)
      rw [hsame]
      exact congrArg visible hsettled.mirrored
  exact hmore t.more _ hidle.1 hfollows

theorem Resting.slowEvent {a : Chip} (h : a.Resting) (e : SeamEvent) (t : Timing) : (a.slowEvent e t).2.Resting := by
  obtain ⟨hvisible, hcalm⟩ := slowEvent_follows h e t
  have hsettled := (h.toStill.settled e).1
  have hplug := congrArg (fun c : Chip => c.plugged) hvisible
  have hknock := congrArg (fun c : Chip => c.knockPrev) hvisible
  have hpgwr := congrArg (fun c : Chip => c.pgwrPrev) hvisible
  have hpage := congrArg (fun c : Chip => c.page) hvisible
  have hpri := congrArg (fun c : Chip => c.priPending) hvisible
  exact ⟨⟨hplug.trans hsettled.plugged, hknock.trans hsettled.knock, hpgwr.trans hsettled.pgwr,
    hsettled.mirrored.of_frame hpage hpri⟩, hcalm⟩

/-! ## What the CPU gets -/

theorem coreDrive_memRead {a : Chip} (h : a.Still) (addr : UInt16) (m1 : Bool) (b : Beam) :
    (a.coreDrive ((SeamEvent.memRead addr m1).strobes.onBeam a.priPrevLine b)).1 = a.fastMemRead addr := by
  have hprev : ({ a with knockPrev := false } : Chip) = a := by rw [← h.knock]
  rw [coreDrive, a.ioCycle_quiet rfl, hprev, asicIrq_quiet h.mirrored rfl (Bool.and_false _), fastMemRead]
  cases harmed : a.armed with
  | false => rfl
  | true =>
    rw [if_pos rfl, Bool.true_and, overlay]
    -- Only a read of the register page is answered, and only while the ASIC is armed.
    cases hpage : inPage addr with
    | false =>
      have hno : (((SeamEvent.memRead addr m1).strobes.onBeam a.priPrevLine b).mreq &&
          ((SeamEvent.memRead addr m1).strobes.onBeam a.priPrevLine b).rd &&
            !((SeamEvent.memRead addr m1).strobes.onBeam a.priPrevLine b).rfsh &&
              inPage ((SeamEvent.memRead addr m1).strobes.onBeam a.priPrevLine b).addr) = false := hpage
      dsimp only
      rw [hno]
      rfl
    | true =>
      have hyes : (((SeamEvent.memRead addr m1).strobes.onBeam a.priPrevLine b).mreq &&
          ((SeamEvent.memRead addr m1).strobes.onBeam a.priPrevLine b).rd &&
            !((SeamEvent.memRead addr m1).strobes.onBeam a.priPrevLine b).rfsh &&
              inPage ((SeamEvent.memRead addr m1).strobes.onBeam a.priPrevLine b).addr) = true := hpage
      dsimp only
      rw [hyes]
      rfl

theorem coreDrive_memWrite {a : Chip} (hm : a.Mirrored) (addr : UInt16) (val : UInt8) {line : UInt16}
    (hline : line = a.priPrevLine) (b : Beam) :
    (a.coreDrive ((SeamEvent.memWrite addr val).strobes.onBeam line b)).2 = (a.armed && inPage addr) := by
  have hm' : ({ a with knockPrev := false } : Chip).Mirrored := hm.of_frame rfl rfl
  rw [coreDrive, a.ioCycle_quiet rfl, asicIrq_quiet hm' hline rfl]
  have harmed : ({ a with knockPrev := false } : Chip).armed = a.armed := rfl
  dsimp only
  rw [harmed]
  cases a.armed with
  | false => rfl
  | true => exact (Bool.true_and _).symm

theorem coreDrive_intAck {a : Chip} (h : a.Still) (pc : UInt16) (b : Beam) :
    (a.coreDrive ((SeamEvent.intAck pc).strobes.onBeam a.priPrevLine b)).1 =
      if a.anyPending then some (a.intVector ||| a.irqSource) else none := by
  rw [coreDrive, ioCycle_intAck h, asicIrq_ack h.mirrored rfl rfl]
  dsimp only
  split <;> rfl

theorem settled_intAck_quiet (a : Chip) (pc : UInt16) : (a.settled (.intAck pc)).anyPending = false := by
  cases hany : (a.settled (.intAck pc)).anyPending with
  | false => rfl
  | true =>
    obtain ⟨s, hs⟩ := (anyPending_iff _).1 hany
    rw [← settled_intAck_clear, clearSources_pending] at hs
    exact absurd hs Bool.false_ne_true

end Chip

/-- What the two tiers agree on: a write to the DCSR gives bit 7 the value of the raster's flag, and an
    acknowledge with a source up is a single cycle (or its vector is what a floating bus reads as). -/
def EventOk (a : Chip) (x : SeamEvent × Timing) : Prop :=
  match x.1 with
  | .ioWrite _ _ => True
  | .memRead _ _ => True
  | .memWrite addr val => a.armed = true → addr = 0x6C0F → (val &&& 0x80 != 0) = a.priPending
  | .frameLine _ => True
  | .intAck _ => x.2.before = [] ∨ a.anyPending = false ∨ a.intVector ||| a.irqSource = 0xFF

namespace Chip

theorem slow_drive {a : Chip} (h : a.Resting) (e : SeamEvent) (t : Timing) :
    ∃ Y : Chip, (t.before = [] ∧ Y = a ∨ t.before ≠ [] ∧ Y = (a.settled e).strobed e.knocks (e.pageWrite a)) ∧
      (a.slowEvent e t).1 = e.answer (Y.coreDrive (e.strobes.onBeam (e.line a) t.last)).1
        (Y.coreDrive (e.strobes.onBeam (e.line a) t.last)).2 := by
  have hplug : ((a.settled e).strobed e.knocks (e.pageWrite a)).plugged = true := (h.toStill.settled e).1.plugged
  have hanswer : ∀ Y : Chip, Y.plugged = true → (a.cycles e.strobes (e.line a) t.before).Follows Y →
      (a.slowEvent e t).1 = e.answer (Y.coreDrive (e.strobes.onBeam (e.line a) t.last)).1
        (Y.coreDrive (e.strobes.onBeam (e.line a) t.last)).2 := fun Y hY hf => by
    rw [← (hf.tick hY e.strobes (e.line a) t.last).2.2]
    rfl
  rcases h.before e t.before with ⟨hnil, hnone⟩ | ⟨hne, hheld⟩
  · refine ⟨a, .inl ⟨hnil, rfl⟩, hanswer a h.plugged ?_⟩
    rw [hnone]
    exact h.follows
  · exact ⟨_, .inr ⟨hne, rfl⟩, hanswer _ hplug hheld⟩

theorem answer_memRead {a : Chip} (h : a.Resting) (addr : UInt16) (m1 : Bool) (t : Timing) :
    (a.slowEvent (.memRead addr m1) t).1 = .read (a.fastMemRead addr) := by
  obtain ⟨Y, hY, hanswer⟩ := slow_drive h (.memRead addr m1) t
  have hsame : Y = a := by
    rcases hY with ⟨_, rfl⟩ | ⟨_, rfl⟩
    · rfl
    · have hm : a.mirrorRaster = a := h.mirrored
      exact (congrArg (fun c : Chip => c.strobed false false) hm).trans (strobed_still h.toStill)
  rw [hanswer, hsame]
  exact congrArg Answer.read (coreDrive_memRead h.toStill addr m1 t.last)

theorem answer_memWrite {a : Chip} (h : a.Resting) (addr : UInt16) (val : UInt8) (t : Timing) :
    (a.slowEvent (.memWrite addr val) t).1 = .write (a.fastMemWrite addr val).1 := by
  obtain ⟨Y, hY, hanswer⟩ := slow_drive h (.memWrite addr val) t
  obtain ⟨hsettled, hline, _⟩ := h.toStill.settled (.memWrite addr val)
  have hclaim : (Y.coreDrive ((SeamEvent.memWrite addr val).strobes.onBeam a.priPrevLine t.last)).2 = (a.armed && inPage addr) := by
    rcases hY with ⟨_, rfl⟩ | ⟨_, rfl⟩
    · exact coreDrive_memWrite h.mirrored addr val rfl t.last
    · have harmed : ((a.settled (.memWrite addr val)).strobed false (a.armed && inPage addr)).armed = a.armed := by
        have hlock := congrArg pageArmed (a.fastMemWrite_frame addr val).1
        exact hlock
      have hmirrored : ((a.settled (.memWrite addr val)).strobed false (a.armed && inPage addr)).Mirrored :=
        hsettled.mirrored.of_frame rfl rfl
      have hsame : a.priPrevLine = ((a.settled (.memWrite addr val)).strobed false (a.armed && inPage addr)).priPrevLine :=
        hline.symm
      rw [SeamEvent.knocks, SeamEvent.pageWrite, coreDrive_memWrite hmirrored addr val hsame, harmed]
  rw [hanswer, fastMemWrite]
  refine (congrArg Answer.write hclaim).trans ?_
  split
  · next hyes => rw [hyes]
  · next hno => rw [Bool.eq_false_iff.2 hno]

theorem answer_intAck {a : Chip} (h : a.Resting) (pc : UInt16) (t : Timing) : (a.slowEvent (.intAck pc) t).1 =
    .vector (if t.before = [] then a.batchIntAck.1 else 0xFF) := by
  obtain ⟨Y, hY, hanswer⟩ := slow_drive h (.intAck pc) t
  obtain ⟨hsettled, hline, _⟩ := h.toStill.settled (.intAck pc)
  rw [hanswer]
  refine congrArg Answer.vector ?_
  rcases hY with ⟨hnil, rfl⟩ | ⟨hne, rfl⟩
  · rw [if_pos hnil, show SeamEvent.line (.intAck pc) Y = Y.priPrevLine from rfl, coreDrive_intAck h.toStill, batchIntAck]
    dsimp only
    rw [show (Y.priPending || Y.dmaInt) = Y.anyPending from rfl]
    split <;> rfl
  · have hstill : (a.settled (.intAck pc)).strobed false false = a.settled (.intAck pc) := strobed_still hsettled
    rw [if_neg hne, ← hline, SeamEvent.knocks, SeamEvent.pageWrite, hstill, coreDrive_intAck hsettled, settled_intAck_quiet,
      if_neg Bool.false_ne_true]
    rfl

theorem mirrored_fastMemWrite {a : Chip} (h : a.Still) (addr : UInt16) (val : UInt8) : (a.fastMemWrite addr val).2.Mirrored ↔
    (a.armed = true → addr = 0x6C0F → (val &&& 0x80 != 0) = a.priPending) := by
  have hmask : ∀ x : UInt16, (x &&& 0x3FFF).toNat = x.toNat % 0x4000 := fun x => by
    rw [UInt16.toNat_and]
    exact Nat.and_two_pow_sub_one_eq_mod x.toNat 14
  rw [fastMemWrite]
  -- A write outside the page, or to a locked one, does not reach it.
  by_cases hclaim : (a.armed && inPage addr) = true
  · obtain ⟨harmed, hpage⟩ := Bool.and_eq_true_iff.1 hclaim
    rw [inPage, Bool.and_eq_true, decide_eq_true_eq, decide_eq_true_eq, UInt16.le_iff_toNat_le, UInt16.lt_iff_toNat_lt] at hpage
    have hframe := a.decodeWrite_frame addr val
    rw [if_pos hclaim, mirrored_iff, hframe.page, hframe.pending]
    dsimp only
    -- In the page, only the byte of the DCSR has the flag.
    by_cases hdcsr : addr = 0x6C0F
    · subst hdcsr
      have hoff : pageOffset 0x6C0F = 0x2C0F := by decide
      rw [hoff, Function.update_self]
      exact ⟨fun h' _ _ => h', fun h' => h' harmed rfl⟩
    · have hne : (0x2C0F : Nat) ≠ pageOffset addr := by
        intro heq
        rw [pageOffset, hmask] at heq
        refine hdcsr (UInt16.toNat_inj.1 ?_)
        have hlow : (0x4000 : UInt16).toNat = 0x4000 := rfl
        have hhigh : (0x8000 : UInt16).toNat = 0x8000 := rfl
        have hval : (0x6C0F : UInt16).toNat = 0x6C0F := rfl
        omega
      rw [Function.update_of_ne hne]
      exact iff_of_true ((mirrored_iff a).1 h.mirrored) fun _ h' => absurd h' hdcsr
  · rw [if_neg hclaim]
    refine iff_of_true h.mirrored fun harmed hdcsr => absurd ?_ hclaim
    rw [harmed, hdcsr]
    decide

theorem visible_iff {a : Chip} (h : a.Resting) (e : SeamEvent) (t : Timing) :
    (a.fastEvent e).2.visible = (a.slowEvent e t).2.visible ↔ (a.fastEvent e).2.Mirrored := by
  rw [(slowEvent_follows h e t).1, settled]
  constructor
  · intro hvisible
    have hpage := congrArg (fun c : Chip => c.page) hvisible
    exact (mirrored_mirrorRaster _).of_frame hpage rfl
  · intro hm
    exact congrArg visible hm.symm

theorem event_agrees_iff {a : Chip} (h : a.Resting) (x : SeamEvent × Timing) :
    ((a.fastEvent x.1).1 = (a.slowEvent x.1 x.2).1 ∧ (a.fastEvent x.1).2.visible = (a.slowEvent x.1 x.2).2.visible) ↔
      EventOk a x := by
  obtain ⟨e, t⟩ := x
  rw [visible_iff h]
  cases e with
  | ioWrite port val =>
    obtain ⟨lock, pen, gen, pal, _, _, heq⟩ := a.fastIoWrite_eq port val
    refine iff_of_true ⟨rfl, ?_⟩ trivial
    rw [fastEvent, heq]
    exact h.mirrored.of_frame rfl rfl
  | memRead addr m1 => exact iff_of_true ⟨(answer_memRead h addr m1 t).symm, h.mirrored⟩ trivial
  | memWrite addr val =>
    refine Iff.trans (and_iff_right ?_) (mirrored_fastMemWrite h.toStill addr val)
    exact (answer_memWrite h addr val t).symm
  | frameLine line => exact iff_of_true ⟨rfl, mirrored_mirrorRaster _⟩ trivial
  -- In one cycle both answer alike; a second cycle of the acknowledge finds its sources cleared by the first.
  | intAck pc =>
    have hm : (a.fastEvent (.intAck pc)).2.Mirrored := by
      rw [mirrored_iff, fastEvent, batchIntAck]
      dsimp only
      rw [Function.update_self]
      have hall : ∀ n : Fin 256, ((UInt8.ofNat n &&& 0x7F) &&& 0x80 != 0) = false := by decide
      have hbit : ((a.page 0x2C0F &&& 0x7F) &&& 0x80 != 0) = false := by
        simpa using hall ⟨(a.page 0x2C0F).toNat, (a.page 0x2C0F).toNat_lt⟩
      exact hbit
    refine Iff.trans (and_iff_left hm) ?_
    rw [answer_intAck h pc t, fastEvent, EventOk, Answer.vector.injEq]
    dsimp only
    by_cases hnil : t.before = []
    · rw [if_pos hnil]
      exact iff_of_true rfl (.inl hnil)
    · rw [if_neg hnil, batchIntAck, or_iff_right hnil]
      dsimp only
      rw [show (a.priPending || a.dmaInt) = a.anyPending from rfl]
      cases a.anyPending with
      | false => exact iff_of_true rfl (.inl rfl)
      | true =>
        rw [if_pos rfl, or_iff_right (by decide)]

end Chip

/-! ## Runs -/

/-- The two tiers, and whether all their answers have been the same. -/
structure Tiers where
  fast : Chip
  slow : Chip
  same : Bool := true

namespace Tiers

/-- An event in both. -/
def step (p : Tiers) (x : SeamEvent × Timing) : Tiers where
  fast := (p.fast.fastEvent x.1).2
  slow := (p.slow.slowEvent x.1 x.2).2
  same := p.same && decide ((p.fast.fastEvent x.1).1 = (p.slow.slowEvent x.1 x.2).1)

/-- They agree: the answers, and what is compared of the chip. -/
def Agree (p : Tiers) : Prop := p.same = true ∧ p.fast.visible = p.slow.visible

end Tiers

namespace Chip

theorem fastIoWrite_visible (a : Chip) (port : UInt16) (val : UInt8) :
    (a.fastIoWrite port val).visible = (a.visible.fastIoWrite port val).visible := by
  have hfed : (if selects port then { a with toAsicState := feedKnock a.toAsicState val } else a : Chip).visible =
      (if selects port then { a.visible with toAsicState := feedKnock a.toAsicState val } else a.visible : Chip).visible := by
    split <;> rfl
  have hsnoop := congr_of_visible (fun b => b.snoopClassicPalette_visible port val) hfed
  rw [fastIoWrite, fastIoWrite, show a.visible.plugged = a.plugged from rfl]
  split
  · rfl
  · exact congr_of_visible (f := fun b => { b with toAsicState := mapPage b.toAsicState port val }) (fun _ => rfl) hsnoop

theorem fastMemWrite_visible (a : Chip) (addr : UInt16) (val : UInt8) :
    (a.fastMemWrite addr val).1 = (a.visible.fastMemWrite addr val).1 ∧
      (a.fastMemWrite addr val).2.visible = (a.visible.fastMemWrite addr val).2.visible := by
  rw [fastMemWrite, fastMemWrite, show a.visible.armed = a.armed from rfl]
  split
  · exact ⟨rfl, a.decodeWrite_visible addr val⟩
  · exact ⟨rfl, rfl⟩

theorem fastEvent_visible (a : Chip) (e : SeamEvent) :
    (a.fastEvent e).1 = (a.visible.fastEvent e).1 ∧ (a.fastEvent e).2.visible = (a.visible.fastEvent e).2.visible := by
  cases e with
  | ioWrite port val => exact ⟨rfl, a.fastIoWrite_visible port val⟩
  | memRead addr m1 => exact ⟨rfl, rfl⟩
  | memWrite addr val => exact ⟨congrArg Answer.write (a.fastMemWrite_visible addr val).1, (a.fastMemWrite_visible addr val).2⟩
  | frameLine line => exact ⟨rfl, rfl⟩
  | intAck pc =>
    refine ⟨rfl, ?_⟩
    exact congr_of_visible (f := fun b => { b with page := Function.update a.page 0x2C0F (a.page 0x2C0F &&& 0x7F) })
      (fun _ => rfl) a.clearSources_visible

theorem fastEvent_congr {a b : Chip} (h : a.visible = b.visible) (e : SeamEvent) :
    (a.fastEvent e).1 = (b.fastEvent e).1 ∧ (a.fastEvent e).2.visible = (b.fastEvent e).2.visible := by
  obtain ⟨ha, ha'⟩ := a.fastEvent_visible e
  obtain ⟨hb, hb'⟩ := b.fastEvent_visible e
  rw [h] at ha ha'
  exact ⟨ha.trans hb.symm, ha'.trans hb'.symm⟩

end Chip

theorem EventOk.congr {a b : Chip} (h : a.visible = b.visible) (x : SeamEvent × Timing) : EventOk a x ↔ EventOk b x := by
  have hread : EventOk a.visible x ↔ EventOk b.visible x := by rw [h]
  exact hread

theorem agree_step {p : Tiers} (hslow : p.slow.Resting) (h : p.Agree) (x : SeamEvent × Timing) :
    (p.step x).Agree ↔ EventOk p.fast x := by
  obtain ⟨hsame, hvisible⟩ := h
  obtain ⟨hanswer, hnext⟩ := Chip.fastEvent_congr hvisible x.1
  rw [EventOk.congr hvisible, ← Chip.event_agrees_iff hslow x, Tiers.Agree, Tiers.step]
  dsimp only
  rw [hsame, Bool.true_and, decide_eq_true_eq, hanswer, hnext]

/-- The two tiers agree after each part of a run exactly where each of its events is `EventOk` for the fast tier. -/
theorem seams_agree_iff {a : Chip} (h : a.Resting) (xs : List (SeamEvent × Timing)) :
    (∀ ys, ys <+: xs → (ys.foldl Tiers.step { fast := a, slow := a }).Agree) ↔
      Stepwise.AllOk Tiers.step (fun p x => EventOk p.fast x) { fast := a, slow := a } xs :=
  @Stepwise.forall_prefix_iff _ _ _ (fun p : Tiers => p.slow.Resting) _ _ (fun _ x hp => hp.slowEvent x.1 x.2)
    (fun _ x hp hagree => agree_step hp hagree x) _ h ⟨rfl, rfl⟩ xs

/-- An ASIC on the board, unlocked and paged in. -/
def pagedIn : Chip := { plugged := true, locked := false, pageOn := true, priLine := 5 }

theorem resting_pagedIn : pagedIn.Resting :=
  ⟨⟨rfl, rfl, rfl, (Chip.mirrored_iff _).2 (by decide)⟩, .inl rfl⟩

theorem seams_agree_iff_pagedIn : pagedIn.Resting ∧
    ((∀ ys, ys <+: [(SeamEvent.frameLine 5, {}), (.intAck 0, {})] →
        (ys.foldl Tiers.step { fast := pagedIn, slow := pagedIn }).Agree) ↔
      Stepwise.AllOk Tiers.step (fun p x => EventOk p.fast x) { fast := pagedIn, slow := pagedIn }
        [(.frameLine 5, {}), (.intAck 0, {})]) :=
  ⟨resting_pagedIn, seams_agree_iff resting_pagedIn _⟩

/-- Bit 7 is written to the DCSR with no interrupt pending: the fast tier keeps it. And the raster's interrupt
    is acknowledged by a strobe of two cycles: the bus floats in the second. -/
theorem tiers_part :
    (pagedIn.fastEvent (.memWrite 0x6C0F 0x80)).2.page 0x2C0F = 0x80 ∧
      (pagedIn.slowEvent (.memWrite 0x6C0F 0x80) {}).2.page 0x2C0F = 0x00 ∧
      ((pagedIn.fastEvent (.frameLine 5)).2.fastEvent (.intAck 0)).1 = .vector 0x07 ∧
      ((pagedIn.slowEvent (.frameLine 5) {}).2.slowEvent (.intAck 0) { before := [{}] }).1 = .vector 0xFF := by
  decide

end Koncepcja.Asic
