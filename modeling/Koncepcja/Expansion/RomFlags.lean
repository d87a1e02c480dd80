import Koncepcja.Asic.Knock
import Koncepcja.Expansion.Snoopers
import Koncepcja.Lib.Stepwise
import Koncepcja.Memory.Map

/-!
# The Snooped ROM Flags

The memory, the clock in the ROM socket and the M4 board decode the same writes on their own. They differ
in two places: the memory takes no ROM enable from an RMR2 write of an unlocked Plus, and a machine reset
clears the memory's latches but not the copies.

## Main results

- `snoopers_agree_iff`: the copies agree with the memory after each part of a run exactly where no reset
  finds a latch set, and no RMR2 write has another ROM enable than the one in force.
-/

namespace Koncepcja.Expansion

open Koncepcja.Memory Koncepcja.Asic Stepwise

set_option maxRecDepth 20000

/-! ## The board -/

/-- The memory, the ASIC that it asks, and the two snoopers. -/
structure Board where
  mem : Mem
  asic : AsicState := {}
  sw : SmartWatch := {}
  m4 : M4 := {}

def asicUnlocked (a : AsicState) : Bool := a.plugged && !a.locked

/-- What the memory reads off the bus. -/
def CpuBus.toMem (bus : CpuBus) (unlocked : Bool) : Mem.BusIn where
  toCpuLines := bus.toCpuLines
  ramdis := bus.ramdis
  romdis := bus.romdis
  fetch := bus.fetch
  fetchAddr := bus.fetchAddr
  unlocked := unlocked

/-- What the ASIC's lock does. -/
def CpuBus.toAsic (bus : CpuBus) : Asic.BusIn where
  toCpuLines := bus.toCpuLines

/-- A cycle without an I/O write. -/
def CpuBus.quiet (bus : CpuBus) : CpuBus := { bus with wr := bus.wr && !bus.iorq }

/-- A cycle of an I/O write. -/
def CpuBus.strobe (bus : CpuBus) (addr : UInt16) (data : UInt8) : CpuBus :=
  { bus with addr, data, iorq := true, wr := true, m1 := false, mreq := false, rd := false }

namespace Board

/-- One master cycle. All devices see the same committed bus. -/
def tick (s : Board) (bus : CpuBus) : Board where
  mem := (s.mem.tick (bus.toMem (asicUnlocked s.asic))).1
  asic := Asic.tick s.asic bus.toAsic
  sw := (s.sw.tick bus).1
  m4 := (s.m4.tick bus).1

/-- `board_reset`. -/
def reset (s : Board) : Board where
  mem := s.mem.reset
  asic := Asic.devReset s.asic
  sw := s.sw.devReset
  m4 := s.m4.devReset

end Board

/-- What happens to the board: a cycle without an I/O write; an I/O write, whose strobes are held for a
    cycle or more and then released; a machine reset. -/
inductive BoardEvent where
  | quiet (bus : CpuBus)
  | ioWrite (addr : UInt16) (data : UInt8) (first : CpuBus) (more : List CpuBus) (release : CpuBus)
  | reset
  deriving DecidableEq, Repr

namespace Board

/-- The strobes of a write, held. -/
def hold (s : Board) (addr : UInt16) (data : UInt8) (buses : List CpuBus) : Board :=
  buses.foldl (fun s bus => s.tick (bus.strobe addr data)) s

def event (s : Board) : BoardEvent → Board
  | .quiet bus => s.tick bus.quiet
  | .ioWrite addr data first more release => (s.hold addr data (first :: more)).tick release.quiet
  | .reset => s.reset

def run (s : Board) (xs : List BoardEvent) : Board := xs.foldl event s

/-- The copy of the upper ROM enable that the memory's latch asks for. -/
def romOff (s : Board) : UInt8 := if s.mem.upperRomOn then 0 else 1

/-- The board at power-on, over any memory, any ASIC and any attachments. -/
def powerOn (mem : Mem) (asic : AsicState) (m4 : M4) : Board where
  mem := mem.reset
  asic := Asic.devReset asic
  sw := { plugged := true }
  m4 := { plugged := true, slot := m4.slot, rom := m4.rom }

end Board

/-- The clock's copy agrees. -/
def SwAgrees (s : Board) : Prop := s.sw.upperRomOff = s.romOff

instance (s : Board) : Decidable (SwAgrees s) := inferInstanceAs (Decidable (_ = _))

/-- The M4's two copies agree. -/
def M4Agrees (s : Board) : Prop := s.m4.upperRomOff = s.romOff ∧ s.m4.romSelect = s.mem.romSelect

instance (s : Board) : Decidable (M4Agrees s) := inferInstanceAs (Decidable (_ ∧ _))

def modeWrite (addr : UInt16) (data : UInt8) : Prop := addr &&& 0xC000 = 0x4000 ∧ data >>> 6 = 2

instance (addr : UInt16) (data : UInt8) : Decidable (modeWrite addr data) := inferInstanceAs (Decidable (_ ∧ _))

/-- A mode write is taken for RMR2: a cartridge, bit 5, and an unlocked ASIC. -/
def Rmr2 (s : Board) (data : UInt8) : Prop :=
  s.mem.cart.isSome ∧ data &&& 0x20 ≠ 0 ∧ s.mem.asic = true ∧ asicUnlocked s.asic = true

instance (s : Board) (data : UInt8) : Decidable (Rmr2 s data) := inferInstanceAs (Decidable (_ ∧ _ ∧ _ ∧ _))

/-- A reset finds the upper ROM enabled, and RMR2 has the ROM enable that is in force. -/
def SwOk (s : Board) : BoardEvent → Prop
  | .quiet _ => True
  | .ioWrite addr data _ _ _ => modeWrite addr data → Rmr2 s data → (data >>> 3) &&& 1 = s.romOff
  | .reset => s.mem.upperRomOn = true

/-- And the reset finds ROM 0 selected. -/
def M4Ok (s : Board) : BoardEvent → Prop
  | .reset => s.mem.upperRomOn = true ∧ s.mem.romSelect = 0
  | x => SwOk s x

/-! ## What a cycle does to each device -/

section Devices

variable (bus : CpuBus)

theorem quiet_lines : (bus.quiet.iorq && bus.quiet.wr) = false := by
  cases hiorq : bus.iorq <;> simp [CpuBus.quiet, hiorq]

@[simp] theorem quiet_ioWrite : bus.quiet.ioWrite = false := by
  cases hiorq : bus.iorq <;> simp [CpuBus.ioWrite, CpuBus.quiet, hiorq]

@[simp] theorem strobe_ioWrite (addr : UInt16) (data : UInt8) : (bus.strobe addr data).ioWrite = true := rfl

theorem modeWrite_iff (addr : UInt16) (data : UInt8) :
    (bus.strobe addr data).modeWrite = true ↔ modeWrite addr data := by
  rw [CpuBus.modeWrite, modeWrite, Bool.and_eq_true, beq_iff_eq, beq_iff_eq]
  exact Iff.rfl

namespace SmartWatch

variable (w : SmartWatch)

theorem fsmStep_frame (a0 a2 : Bool) : (w.fsmStep a0 a2).2.upperRomOff = w.upperRomOff ∧
    (w.fsmStep a0 a2).2.ioPrev = w.ioPrev ∧ (w.fsmStep a0 a2).2.plugged = w.plugged := by
  rw [fsmStep]
  split
  · dsimp only
    split <;> exact ⟨rfl, rfl, rfl⟩
  · split
    · exact ⟨rfl, rfl, rfl⟩
    · dsimp only
      split
      · split <;> exact ⟨rfl, rfl, rfl⟩
      · exact ⟨rfl, rfl, rfl⟩
  · split
    · dsimp only
      split <;> exact ⟨rfl, rfl, rfl⟩
    · exact ⟨rfl, rfl, rfl⟩

theorem answer_frame (edge : Bool) : (w.answer bus edge).1.upperRomOff = w.upperRomOff ∧
    (w.answer bus edge).1.ioPrev = w.ioPrev ∧ (w.answer bus edge).1.plugged = w.plugged := by
  rw [answer]
  split
  · dsimp only
    split <;> exact ⟨rfl, rfl, rfl⟩
  · exact ⟨rfl, rfl, rfl⟩

theorem tick_frame (hp : w.plugged = true) : (w.tick bus).1.upperRomOff = (w.snoop bus).upperRomOff ∧
    (w.tick bus).1.ioPrev = bus.ioWrite ∧ (w.tick bus).1.plugged = true := by
  have hsnoop : (w.snoop bus).ioPrev = bus.ioWrite ∧ (w.snoop bus).plugged = true := by
    rw [snoop]
    dsimp only
    split <;> exact ⟨rfl, hp⟩
  rw [tick, if_pos hp]
  dsimp only
  split
  · obtain ⟨hoff, hio, hplug⟩ := answer_frame bus
      (if ((w.snoop bus).accessed bus && !(w.snoop bus).accPrev) = true then
        edgeStep { w.snoop bus with accPrev := (w.snoop bus).accessed bus } bus
      else { w.snoop bus with accPrev := (w.snoop bus).accessed bus })
      ((w.snoop bus).accessed bus && !(w.snoop bus).accPrev)
    rw [hoff, hio, hplug]
    split
    · obtain ⟨hoff', hio', hplug'⟩ := fsmStep_frame { w.snoop bus with accPrev := (w.snoop bus).accessed bus }
        (bus.addr &&& 0x01 != 0) (bus.addr &&& 0x04 != 0)
      exact ⟨hoff', hio'.trans hsnoop.1, hplug'.trans hsnoop.2⟩
    · exact ⟨rfl, hsnoop⟩
  · exact ⟨rfl, hsnoop⟩

theorem tick_quiet (hp : w.plugged = true) : (w.tick bus.quiet).1.upperRomOff = w.upperRomOff ∧
    (w.tick bus.quiet).1.ioPrev = false ∧ (w.tick bus.quiet).1.plugged = true := by
  obtain ⟨hoff, hio, hplug⟩ := w.tick_frame bus.quiet hp
  refine ⟨hoff.trans ?_, hio.trans (quiet_ioWrite bus), hplug⟩
  rw [snoop, quiet_ioWrite]
  rfl

theorem tick_strobe (hp : w.plugged = true) (addr : UInt16) (data : UInt8) :
    (w.tick (bus.strobe addr data)).1.upperRomOff =
        (if w.ioPrev = false ∧ modeWrite addr data then (data >>> 3) &&& 1 else w.upperRomOff) ∧
      (w.tick (bus.strobe addr data)).1.ioPrev = true ∧ (w.tick (bus.strobe addr data)).1.plugged = true := by
  obtain ⟨hoff, hio, hplug⟩ := w.tick_frame (bus.strobe addr data) hp
  refine ⟨hoff.trans ?_, hio, hplug⟩
  rw [snoop]
  dsimp only
  by_cases hmode : w.ioPrev = false ∧ modeWrite addr data
  · have hon : ((bus.strobe addr data).ioWrite && !w.ioPrev && (bus.strobe addr data).modeWrite) = true := by
      rw [strobe_ioWrite, hmode.1, (modeWrite_iff bus addr data).2 hmode.2]
      rfl
    rw [if_pos hmode, if_pos hon]
    rfl
  · have hoff' : ¬ ((bus.strobe addr data).ioWrite && !w.ioPrev && (bus.strobe addr data).modeWrite) = true := by
      rw [strobe_ioWrite, Bool.true_and, Bool.and_eq_true, modeWrite_iff, Bool.not_eq_true']
      exact hmode
    rw [if_neg hmode, if_neg hoff']

end SmartWatch

namespace M4

variable (m : M4)

theorem command_frame : (m.command bus).upperRomOff = m.upperRomOff ∧ (m.command bus).romSelect = m.romSelect ∧
    (m.command bus).plugged = m.plugged := by
  rw [command]
  dsimp only
  split
  · split
    · split <;> exact ⟨rfl, rfl, rfl⟩
    · rw [latchExecute]
      split
      · exact ⟨rfl, rfl, rfl⟩
      · split <;> exact ⟨rfl, rfl, rfl⟩
  · exact ⟨rfl, rfl, rfl⟩

theorem tick_quiet (hp : m.plugged = true) : (m.tick bus.quiet).1.upperRomOff = m.upperRomOff ∧
    (m.tick bus.quiet).1.romSelect = m.romSelect ∧ (m.tick bus.quiet).1.plugged = true := by
  obtain ⟨hoff, hrom, hplug⟩ := (m.snoop bus.quiet).command_frame bus.quiet
  have hsnoop : m.snoop bus.quiet = m := by
    rw [snoop, quiet_ioWrite]
    rfl
  rw [tick, if_pos hp]
  exact ⟨hoff.trans (by rw [hsnoop]), hrom.trans (by rw [hsnoop]), hplug.trans (by rw [hsnoop, hp])⟩

theorem tick_strobe (hp : m.plugged = true) (addr : UInt16) (data : UInt8) :
    (m.tick (bus.strobe addr data)).1.upperRomOff =
        (if modeWrite addr data then (data >>> 3) &&& 1 else m.upperRomOff) ∧
      (m.tick (bus.strobe addr data)).1.romSelect = (if addr &&& 0x2000 = 0 then data else m.romSelect) ∧
      (m.tick (bus.strobe addr data)).1.plugged = true := by
  obtain ⟨hoff, hrom, hplug⟩ := (m.snoop (bus.strobe addr data)).command_frame (bus.strobe addr data)
  have hsnoop : (m.snoop (bus.strobe addr data)).upperRomOff =
        (if modeWrite addr data then (data >>> 3) &&& 1 else m.upperRomOff) ∧
      (m.snoop (bus.strobe addr data)).romSelect = (if addr &&& 0x2000 = 0 then data else m.romSelect) ∧
      (m.snoop (bus.strobe addr data)).plugged = m.plugged := by
    rw [snoop, if_pos (strobe_ioWrite bus addr data)]
    dsimp only
    simp only [modeWrite_iff]
    by_cases hmode : modeWrite addr data
    · rw [if_pos hmode, if_pos hmode]
      change (if addr &&& 0x2000 = 0 then _ else _ : M4).upperRomOff = _ ∧ (if addr &&& 0x2000 = 0 then _ else _ : M4).romSelect = _ ∧
        (if addr &&& 0x2000 = 0 then _ else _ : M4).plugged = _
      split <;> exact ⟨rfl, rfl, rfl⟩
    · rw [if_neg hmode, if_neg hmode]
      change (if addr &&& 0x2000 = 0 then _ else _ : M4).upperRomOff = _ ∧ (if addr &&& 0x2000 = 0 then _ else _ : M4).romSelect = _ ∧
        (if addr &&& 0x2000 = 0 then _ else _ : M4).plugged = _
      split <;> exact ⟨rfl, rfl, rfl⟩
  rw [tick, if_pos hp]
  exact ⟨hoff.trans hsnoop.1, hrom.trans hsnoop.2.1, hplug.trans (hsnoop.2.2.trans hp)⟩

end M4

end Devices

/-! ## What an event does to the copies -/

/-- Nothing is on the bus, and both snoopers are plugged. -/
structure Settled (s : Board) : Prop where
  sw : s.sw.plugged = true
  m4 : s.m4.plugged = true
  ioPrev : s.sw.ioPrev = false

/-- The latches and their copies. -/
structure SameFlags (s t : Board) : Prop where
  romOff : t.romOff = s.romOff
  romSelect : t.mem.romSelect = s.mem.romSelect
  sw : t.sw.upperRomOff = s.sw.upperRomOff
  m4 : t.m4.upperRomOff = s.m4.upperRomOff
  m4Select : t.m4.romSelect = s.m4.romSelect

section Events

variable {s t : Board}

theorem romOff_of_config (h : t.mem.romConfig = s.mem.romConfig) : t.romOff = s.romOff := by
  rw [Board.romOff, Board.romOff, Banking.upperRomOn, Banking.upperRomOn, h]

theorem romOff_of_data {data : UInt8} (h : t.mem.romConfig = data) : t.romOff = (data >>> 3) &&& 1 := by
  have hall : ∀ n : Fin 256, (if (UInt8.ofNat n &&& 0x08 == 0) = true then (0 : UInt8) else 1) =
      (UInt8.ofNat n >>> 3) &&& 1 := by
    decide
  have hdata := hall ⟨data.toNat, data.toNat_lt⟩
  rw [UInt8.ofNat_toNat] at hdata
  rw [Board.romOff, Banking.upperRomOn, h]
  exact hdata

theorem tick_quiet (hsw : s.sw.plugged = true) (hm4 : s.m4.plugged = true) (bus : CpuBus) :
    Settled (s.tick bus.quiet) ∧ SameFlags s (s.tick bus.quiet) := by
  obtain ⟨hoff, hio, hplug⟩ := s.sw.tick_quiet bus hsw
  obtain ⟨hoff', hselect, hplug'⟩ := s.m4.tick_quiet bus hm4
  have hmem : (s.tick bus.quiet).mem.toBanking = s.mem.toBanking := by
    refine (s.mem.toBanking_tick _).trans (if_neg ?_)
    exact Bool.not_eq_true _ ▸ quiet_lines bus
  exact ⟨⟨hplug, hplug', hio⟩, ⟨romOff_of_config (congrArg Banking.romConfig hmem), congrArg Banking.romSelect hmem,
    hoff, hoff', hselect⟩⟩

theorem tick_unlocked {addr : UInt16} {data : UInt8} (hmode : modeWrite addr data) (a : AsicState) (bus : CpuBus) :
    asicUnlocked (Asic.tick a (bus.strobe addr data).toAsic) = asicUnlocked a := by
  have hselects : selects addr = false := by
    have h14 : addr &&& 0x4000 = 0x4000 := by
      calc addr &&& 0x4000 = addr &&& 0xC000 &&& 0x4000 := by rw [UInt16.and_assoc]; rfl
        _ = 0x4000 := by rw [hmode.1]; rfl
    rw [selects, h14]
    rfl
  have hknock : (bus.strobe addr data).toAsic.knock = false := by
    rw [Asic.BusIn.knock]
    exact Bool.and_eq_false_iff.2 (.inr hselects)
  rw [Asic.tick, hknock]
  by_cases hp : a.plugged = true
  · rw [if_neg (by rw [hp]; decide)]
    simp only [Bool.false_and, Bool.false_eq_true, if_false]
    rw [if_pos (by rfl)]
    obtain ⟨⟨hlocked, _⟩, hplug, _⟩ := mapPage_frame { a with knockPrev := false }
      (bus.strobe addr data).toAsic.addr (bus.strobe addr data).toAsic.data
    rw [asicUnlocked, hplug, hlocked, asicUnlocked]
  · rw [if_pos (by rw [Bool.not_eq_true] at hp; rw [hp]; rfl)]

/-- Where the strobes of a write are held: what the latches and the copies have become since `s`. -/
structure Held (s t : Board) (addr : UInt16) (data : UInt8) : Prop where
  sw : t.sw.plugged = true
  m4 : t.m4.plugged = true
  ioPrev : t.sw.ioPrev = true
  config : t.mem.romConfig = if modeWrite addr data ∧ ¬ Rmr2 s data then data else s.mem.romConfig
  select : t.mem.romSelect = if addr &&& 0x2000 = 0 then data else s.mem.romSelect
  swOff : t.sw.upperRomOff = if modeWrite addr data then (data >>> 3) &&& 1 else s.sw.upperRomOff
  m4Off : t.m4.upperRomOff = if modeWrite addr data then (data >>> 3) &&& 1 else s.m4.upperRomOff
  m4Select : t.m4.romSelect = if addr &&& 0x2000 = 0 then data else s.m4.romSelect
  rmr2 : modeWrite addr data → (Rmr2 t data ↔ Rmr2 s data)

theorem mem_strobe (s : Board) (bus : CpuBus) (addr : UInt16) (data : UInt8) :
    (s.tick (bus.strobe addr data)).mem.romConfig =
        (if modeWrite addr data ∧ ¬ Rmr2 s data then data else s.mem.romConfig) ∧
      (s.tick (bus.strobe addr data)).mem.romSelect = (if addr &&& 0x2000 = 0 then data else s.mem.romSelect) ∧
      (modeWrite addr data → (Rmr2 (s.tick (bus.strobe addr data)) data ↔ Rmr2 s data)) := by
  have hmem : (s.tick (bus.strobe addr data)).mem.toBanking =
      (s.mem.ioWriteDecode addr data (asicUnlocked s.asic)).toBanking := (s.mem.toBanking_tick _).trans (if_pos rfl)
  obtain ⟨hconfig, hselect, hcart⟩ := s.mem.rom_ioWriteDecode addr data (asicUnlocked s.asic)
  have hasic : (s.tick (bus.strobe addr data)).mem.asic = s.mem.asic := s.mem.asic_tick _
  refine ⟨(congrArg Banking.romConfig hmem).trans hconfig, (congrArg Banking.romSelect hmem).trans hselect, fun hmode => ?_⟩
  have hunlocked : asicUnlocked (s.tick (bus.strobe addr data)).asic = asicUnlocked s.asic := tick_unlocked hmode _ _
  rw [Rmr2, Rmr2, hasic, hunlocked, (congrArg Banking.cart hmem).trans hcart]

theorem held_first (hs : Settled s) (bus : CpuBus) (addr : UInt16) (data : UInt8) :
    Held s (s.tick (bus.strobe addr data)) addr data := by
  obtain ⟨hoff, hio, hplug⟩ := s.sw.tick_strobe bus hs.sw addr data
  obtain ⟨hoff', hselect', hplug'⟩ := s.m4.tick_strobe bus hs.m4 addr data
  obtain ⟨hconfig, hselect, hrmr2⟩ := mem_strobe s bus addr data
  refine ⟨hplug, hplug', hio, hconfig, hselect, hoff.trans ?_, hoff', hselect', hrmr2⟩
  simp only [hs.ioPrev, true_and]

theorem Held.next {addr : UInt16} {data : UInt8} (h : Held s t addr data) (bus : CpuBus) :
    Held s (t.tick (bus.strobe addr data)) addr data := by
  obtain ⟨hoff, hio, hplug⟩ := t.sw.tick_strobe bus h.sw addr data
  obtain ⟨hoff', hselect', hplug'⟩ := t.m4.tick_strobe bus h.m4 addr data
  obtain ⟨hconfig, hselect, hrmr2⟩ := mem_strobe t bus addr data
  refine ⟨hplug, hplug', hio, hconfig.trans ?_, hselect.trans ?_, hoff.trans ?_, hoff'.trans ?_, hselect'.trans ?_,
    fun hmode => (hrmr2 hmode).trans (h.rmr2 hmode)⟩
  · rw [h.config]
    by_cases hmode : modeWrite addr data
    · simp only [h.rmr2 hmode]
      split <;> rfl
    · rw [if_neg fun hm => hmode hm.1]
  · rw [h.select]
    split <;> rfl
  · rw [if_neg fun hm => by rw [h.ioPrev] at hm; exact Bool.noConfusion hm.1, h.swOff]
  · rw [h.m4Off]
    split <;> rfl
  · rw [h.m4Select]
    split <;> rfl

theorem held_hold (hs : Settled s) (addr : UInt16) (data : UInt8) (first : CpuBus) (more : List CpuBus) :
    Held s (s.hold addr data (first :: more)) addr data := by
  suffices hmore : ∀ t, Held s t addr data → Held s (t.hold addr data more) addr data from
    hmore _ (held_first hs first addr data)
  induction more with
  | nil => exact fun t ht => ht
  | cons bus more ih => exact fun t ht => ih _ (ht.next bus)

theorem Settled.event (hs : Settled s) (x : BoardEvent) : Settled (s.event x) := by
  cases x with
  | quiet bus => exact (tick_quiet hs.sw hs.m4 bus).1
  | ioWrite addr data first more release =>
    have hheld := held_hold hs addr data first more
    exact (tick_quiet hheld.sw hheld.m4 release).1
  | reset => exact ⟨hs.sw, hs.m4, rfl⟩

theorem romOff_le (s : Board) : s.romOff = 0 ↔ s.mem.upperRomOn = true := by
  rw [Board.romOff]
  split
  · next h => exact iff_of_true rfl h
  · next h => exact iff_of_false (by decide) h

theorem romOff_reset (mem : Mem) (hmem : t.mem = mem.reset) : t.romOff = 0 := by
  rw [romOff_le, hmem]
  have hzero : (0 : UInt8) &&& 0x08 = 0 := by decide
  exact beq_iff_eq.2 hzero

theorem Held.romOff {addr : UInt16} {data : UInt8} (h : Held s t addr data) :
    t.romOff = if modeWrite addr data ∧ ¬ Rmr2 s data then (data >>> 3) &&& 1 else s.romOff := by
  have hconfig := h.config
  split at hconfig
  · next hm =>
    rw [if_pos hm]
    exact romOff_of_data hconfig
  · next hm =>
    rw [if_neg hm]
    exact romOff_of_config hconfig

theorem swAgrees_event (hs : Settled s) (h : SwAgrees s) (x : BoardEvent) : SwAgrees (s.event x) ↔ SwOk s x := by
  cases x with
  | quiet bus =>
    obtain ⟨_, hsame⟩ := tick_quiet hs.sw hs.m4 bus
    exact iff_of_true (hsame.sw.trans (h.trans hsame.romOff.symm)) trivial
  | ioWrite addr data first more release =>
    have hheld := held_hold hs addr data first more
    obtain ⟨_, hsame⟩ := tick_quiet hheld.sw hheld.m4 release
    have hoff : SwAgrees (s.event (.ioWrite addr data first more release)) ↔
        (s.hold addr data (first :: more)).sw.upperRomOff = (s.hold addr data (first :: more)).romOff :=
      iff_of_eq (congrArg₂ (· = ·) hsame.sw hsame.romOff)
    rw [hoff, hheld.swOff, hheld.romOff, SwOk]
    by_cases hmode : modeWrite addr data
    · by_cases hrmr2 : Rmr2 s data
      · rw [if_pos hmode, if_neg fun hm => hm.2 hrmr2]
        exact ⟨fun heq _ _ => heq, fun heq => heq hmode hrmr2⟩
      · rw [if_pos hmode, if_pos ⟨hmode, hrmr2⟩]
        exact iff_of_true rfl fun _ hr => absurd hr hrmr2
    · rw [if_neg hmode, if_neg fun hm => hmode hm.1]
      exact iff_of_true h fun hm => absurd hm hmode
  | reset =>
    -- the memory's enable is on, the copy is what it was
    have hreset : SwAgrees (s.event .reset) ↔ s.sw.upperRomOff = 0 := by
      rw [SwAgrees, romOff_reset s.mem rfl]
      exact Iff.rfl
    rw [hreset, show s.sw.upperRomOff = s.romOff from h, romOff_le]
    exact Iff.rfl

theorem m4Agrees_event (hs : Settled s) (h : M4Agrees s) (x : BoardEvent) : M4Agrees (s.event x) ↔ M4Ok s x := by
  cases x with
  | quiet bus =>
    obtain ⟨_, hsame⟩ := tick_quiet hs.sw hs.m4 bus
    exact iff_of_true ⟨hsame.m4.trans (h.1.trans hsame.romOff.symm), hsame.m4Select.trans (h.2.trans hsame.romSelect.symm)⟩
      trivial
  | ioWrite addr data first more release =>
    have hheld := held_hold hs addr data first more
    obtain ⟨_, hsame⟩ := tick_quiet hheld.sw hheld.m4 release
    -- The bank select is the same: both take it from the same writes.
    have hselect : (s.event (.ioWrite addr data first more release)).m4.romSelect =
        (s.event (.ioWrite addr data first more release)).mem.romSelect := by
      refine hsame.m4Select.trans (Eq.trans ?_ hsame.romSelect.symm)
      rw [hheld.m4Select, hheld.select, h.2]
    have hoff : M4Agrees (s.event (.ioWrite addr data first more release)) ↔
        (s.hold addr data (first :: more)).m4.upperRomOff = (s.hold addr data (first :: more)).romOff :=
      (and_iff_left hselect).trans (iff_of_eq (congrArg₂ (· = ·) hsame.m4 hsame.romOff))
    rw [hoff, hheld.m4Off, hheld.romOff]
    change _ ↔ (modeWrite addr data → Rmr2 s data → (data >>> 3) &&& 1 = s.romOff)
    -- A mode write sets the board's copy of the enable; a write that goes to RMR2 passes the memory's own latch by.
    by_cases hmode : modeWrite addr data
    · by_cases hrmr2 : Rmr2 s data
      · rw [if_pos hmode, if_neg fun hm => hm.2 hrmr2]
        exact ⟨fun heq _ _ => heq, fun heq => heq hmode hrmr2⟩
      · rw [if_pos hmode, if_pos ⟨hmode, hrmr2⟩]
        exact iff_of_true rfl fun _ hr => absurd hr hrmr2
    · rw [if_neg hmode, if_neg fun hm => hmode hm.1]
      exact iff_of_true h.1 fun hm => absurd hm hmode
  | reset =>
    have hreset : M4Agrees (s.event .reset) ↔ s.m4.upperRomOff = 0 ∧ s.m4.romSelect = 0 := by
      rw [M4Agrees, romOff_reset s.mem rfl]
      exact Iff.rfl
    rw [hreset, h.1, h.2, romOff_le]
    exact Iff.rfl

end Events

/-! ## The whole of it -/

theorem settled_powerOn (mem : Mem) (asic : AsicState) (m4 : M4) : Settled (.powerOn mem asic m4) := ⟨rfl, rfl, rfl⟩

/-- After a run from power-on, and after each part of it, the clock's copy of the ROM enable agrees with
    the memory exactly where every reset finds the upper ROM enabled and every RMR2 write has the enable
    that is in force; and the M4's two copies agree exactly where the resets find ROM 0 selected too. -/
theorem snoopers_agree_iff (mem : Mem) (asic : AsicState) (m4 : M4) (xs : List BoardEvent) :
    ((∀ ys, ys <+: xs → SwAgrees ((Board.powerOn mem asic m4).run ys)) ↔
        AllOk Board.event SwOk (.powerOn mem asic m4) xs) ∧
      ((∀ ys, ys <+: xs → M4Agrees ((Board.powerOn mem asic m4).run ys)) ↔
        AllOk Board.event M4Ok (.powerOn mem asic m4) xs) :=
  ⟨forall_prefix_iff (fun (s : Board) x (hs : Settled s) => hs.event x) (fun _ x hs h => swAgrees_event hs h x)
      (settled_powerOn mem asic m4) (romOff_reset mem rfl).symm xs,
    forall_prefix_iff (fun (s : Board) x (hs : Settled s) => hs.event x) (fun _ x hs h => m4Agrees_event hs h x)
      (settled_powerOn mem asic m4) ⟨(romOff_reset mem rfl).symm, rfl⟩ xs⟩

/-- The upper ROM is disabled and ROM 7 selected, and then the machine is reset. -/
def pagedReset : List BoardEvent := [.ioWrite 0x7F00 0x88 {} [] {}, .ioWrite 0xDF00 0x07 {} [] {}, .reset]

/-- The memory is back at BASIC, and the copies are not. -/
theorem pagedReset_stale :
    ¬ SwAgrees ((Board.powerOn {} {} {}).run pagedReset) ∧ ¬ M4Agrees ((Board.powerOn {} {} {}).run pagedReset) ∧
      ((Board.powerOn {} {} {}).run pagedReset).m4.romSelect ≠ ((Board.powerOn {} {} {}).run pagedReset).mem.romSelect := by
  decide

end Koncepcja.Expansion
