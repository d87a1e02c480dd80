import Koncepcja.Lib.DropQueue
import Koncepcja.Lib.SpscRing
import Mathlib.Algebra.GroupWithZero.Nat
import Mathlib.Algebra.Ring.Int.Defs

/-!
# The Symbiface Mouse

`src/hw/symbiface.cpp`, `fifo_push`, `fifo_pop` and `sf2_mouse_feed`: the host's motion and buttons
become packets in a FIFO that drops what does not fit, and the guest reads them one byte at a time.

The FIFO is a list of at most 63 bytes, the oldest first. The board keeps it in a ring of 64 cells, of which one stays
empty; the ring shows the list.

## Main results

- `Fifo.Shows.mouseFeed`, `Fifo.Shows.fifoPop`: the ring of the board shows the list behind a feed and behind a read.
- `sum_steps`: the packets of a motion add up to it.
- `mouse_converges`: the guest ends with the host's buttons exactly where every button packet fitted,
  and with the host's motion where nothing was dropped.
-/

namespace Koncepcja.Symbiface

open DropQueue

set_option maxRecDepth 20000

def kFifoSize : Nat := 64

/-- The mouse's part of `sf2_state`. -/
structure Mouse where
  fifo : List UInt8 := []
  lastButtons : UInt8 := 0
  deriving DecidableEq, Repr

/-! ## Packets -/

/-- The motion of one packet. -/
def stepOf (x : Int) : Int := if 31 < x then 31 else if x < -32 then -32 else x

/-- `while (x != 0)`, at most `fuel` times. -/
def chunks : Nat → Int → List Int
  | 0, _ => []
  | fuel + 1, x => if x = 0 then [] else stepOf x :: chunks fuel (x - stepOf x)

/-- The chunks of a motion. -/
def steps (x : Int) : List Int := chunks x.natAbs x

/-- A packet: the mode in the top two bits, six bits of the step below. -/
def packet (mode : UInt8) (step : Int) : UInt8 := mode ||| UInt8.ofNat (step % 64).toNat

/-- The host's buttons in the order of the board. -/
def sf2Buttons (buttons : UInt8) : UInt8 :=
  (if buttons &&& 1 ≠ 0 then 0x01 else 0) ||| (if buttons &&& 4 ≠ 0 then 0x02 else 0) |||
    (if buttons &&& 2 ≠ 0 then 0x04 else 0)

def buttonPacket (btn : UInt8) : UInt8 := 0xC0 ||| (btn &&& 0x1F)

/-! ## The board's side -/

namespace Mouse

/-- `fifo_push`, on the list. -/
def fifoPush (m : Mouse) (val : UInt8) : Mouse := { m with fifo := offer (kFifoSize - 1) m.fifo val }

/-- `fifo_pop`, on the list. -/
def fifoPop (m : Mouse) : UInt8 × Mouse :=
  match m.fifo with
  | [] => (0x00, m)
  | val :: rest => (val, { m with fifo := rest })

/-- `sf2_mouse_feed`. -/
def mouseFeed (m : Mouse) (dx dy : Int) (buttons : UInt8) : Mouse :=
  let m := (steps dx).foldl (fun m step => m.fifoPush (packet 0x40 step)) m
  let m := (steps (-dy)).foldl (fun m step => m.fifoPush (packet 0x80 step)) m
  let btn := sf2Buttons buttons
  if btn ≠ m.lastButtons then { m.fifoPush (buttonPacket btn) with lastButtons := btn } else m

end Mouse

/-! ## The guest's side -/

/-- Bits 7 and 6 of a packet: 1 and 2 are the axes, 3 the buttons, 0 is no data. -/
def modeOf (p : UInt8) : UInt8 := p >>> 6

/-- The signed offset of a packet. -/
def offsetOf (p : UInt8) : Int := if (p &&& 0x3F).toNat < 32 then (p &&& 0x3F).toNat else (p &&& 0x3F).toNat - 64

/-- The motion on one axis. -/
def motion (mode : UInt8) (read : List UInt8) : Int := ((read.filter (modeOf · == mode)).map offsetOf).sum

/-- The buttons as the last button packet has them; none is pressed before the first. -/
def buttonsOf (read : List UInt8) : UInt8 := ((read.filter (modeOf · == 3)).map (· &&& 0x3F)).getLastD 0

/-! ## Runs -/

/-- The host feeds, the guest reads. -/
inductive MouseOp where
  | feed (dx dy : Int) (buttons : UInt8)
  | read
  deriving DecidableEq, Repr

/-- What the guest has read, what the host has fed, and whether a packet was dropped. -/
structure MouseLog where
  read : List UInt8 := []
  host : UInt8 := 0
  fedX : Int := 0
  fedY : Int := 0
  dropped : Bool := false
  deriving DecidableEq, Repr

/-- The packets of a feed. -/
def Mouse.packets (m : Mouse) (dx dy : Int) (buttons : UInt8) : List UInt8 :=
  (steps dx).map (packet 0x40) ++ (steps (-dy)).map (packet 0x80) ++
    if sf2Buttons buttons ≠ m.lastButtons then [buttonPacket (sf2Buttons buttons)] else []

/-- One access of either side. -/
def mouseOp (state : Mouse × MouseLog) : MouseOp → Mouse × MouseLog
  | .feed dx dy buttons =>
    (state.1.mouseFeed dx dy buttons,
      { state.2 with
        host := sf2Buttons buttons
        fedX := state.2.fedX + dx
        fedY := state.2.fedY - dy
        dropped := state.2.dropped ||
          decide (kFifoSize - 1 < state.1.fifo.length + (state.1.packets dx dy buttons).length) })
  | .read => (state.1.fifoPop.2, { state.2 with read := state.2.read ++ [state.1.fifoPop.1] })

def mouseRun (state : Mouse × MouseLog) (xs : List MouseOp) : Mouse × MouseLog := xs.foldl mouseOp state

/-- A feed that changes the buttons finds room for its button packet, behind the motion. -/
def ButtonFits (state : Mouse × MouseLog) : MouseOp → Prop
  | .feed dx dy buttons => sf2Buttons buttons ≠ state.1.lastButtons →
      state.1.fifo.length + (steps dx).length + (steps (-dy)).length + 1 < kFifoSize
  | .read => True

/-- Every feed of a run does. -/
def ButtonsFit : Mouse × MouseLog → List MouseOp → Prop
  | _, [] => True
  | state, x :: xs => ButtonFits state x ∧ ButtonsFit (mouseOp state x) xs

/-! ## What the packets say -/

theorem stepOf_bounds (x : Int) : -32 ≤ stepOf x ∧ stepOf x ≤ 31 := by
  unfold stepOf
  split
  · omega
  · split <;> omega

theorem natAbs_sub_stepOf {x : Int} (h : x ≠ 0) : (x - stepOf x).natAbs < x.natAbs := by
  unfold stepOf
  split
  · omega
  · split <;> omega

theorem mem_chunks {fuel : Nat} {x step : Int} (h : step ∈ chunks fuel x) : -32 ≤ step ∧ step ≤ 31 := by
  induction fuel generalizing x with
  | zero => exact absurd h List.not_mem_nil
  | succ fuel ih =>
    rw [chunks] at h
    split at h
    · exact absurd h List.not_mem_nil
    · rcases List.mem_cons.1 h with rfl | h
      · exact stepOf_bounds x
      · exact ih h

theorem sum_chunks {fuel : Nat} {x : Int} (h : x.natAbs ≤ fuel) : (chunks fuel x).sum = x := by
  induction fuel generalizing x with
  | zero =>
    rw [chunks, List.sum_nil]
    omega
  | succ fuel ih =>
    rw [chunks]
    by_cases hx : x = 0
    · rw [if_pos hx, List.sum_nil, hx]
    · have hless := natAbs_sub_stepOf hx
      rw [if_neg hx, List.sum_cons, ih (by omega)]
      omega

/-- The packets of a motion add up to it. -/
theorem sum_steps (x : Int) : (steps x).sum = x := sum_chunks (Nat.le_refl _)

theorem packet_reads : ∀ mode ∈ [(0x40 : UInt8), 0x80], ∀ k : Nat, k < 64 →
    modeOf (packet mode ((k : Int) - 32)) = mode >>> 6 ∧ offsetOf (packet mode ((k : Int) - 32)) = (k : Int) - 32 := by
  decide

theorem packet_of_mem {mode : UInt8} (hmode : mode ∈ [(0x40 : UInt8), 0x80]) {x step : Int} (h : step ∈ steps x) :
    modeOf (packet mode step) = mode >>> 6 ∧ offsetOf (packet mode step) = step := by
  have hbounds := mem_chunks h
  have hread := packet_reads mode hmode (step + 32).toNat (by omega)
  rwa [show ((step + 32).toNat : Int) - 32 = step by omega] at hread

theorem sf2Buttons_lt (buttons : UInt8) : (sf2Buttons buttons).toNat < 8 := by
  unfold sf2Buttons
  split <;> split <;> split <;> decide

theorem buttonPacket_reads : ∀ k < 8, modeOf (buttonPacket (UInt8.ofNat k)) = 3 ∧
    buttonPacket (UInt8.ofNat k) &&& 0x3F = UInt8.ofNat k := by
  decide

theorem buttonPacket_sf2Buttons (buttons : UInt8) : modeOf (buttonPacket (sf2Buttons buttons)) = 3 ∧
    buttonPacket (sf2Buttons buttons) &&& 0x3F = sf2Buttons buttons := by
  have h := buttonPacket_reads _ (sf2Buttons_lt buttons)
  rwa [UInt8.ofNat_toNat] at h

/-! ## What the guest makes of them -/

theorem motion_append (mode : UInt8) (a b : List UInt8) : motion mode (a ++ b) = motion mode a + motion mode b := by
  rw [motion, motion, motion, List.filter_append, List.map_append, List.sum_append]

theorem motion_of_ne {mode : UInt8} {ps : List UInt8} (h : ∀ p ∈ ps, modeOf p ≠ mode) : motion mode ps = 0 := by
  rw [motion, List.filter_eq_nil_iff.2 fun p hp heq => h p hp (eq_of_beq heq)]
  rfl

theorem motion_packets {mode : UInt8} (hmode : mode ∈ [(0x40 : UInt8), 0x80]) (x : Int) :
    motion (mode >>> 6) ((steps x).map (packet mode)) = x := by
  have hall : ((steps x).map (packet mode)).filter (modeOf · == mode >>> 6) = (steps x).map (packet mode) := by
    rw [List.filter_eq_self]
    intro p hp
    obtain ⟨step, hstep, rfl⟩ := List.mem_map.1 hp
    exact beq_iff_eq.2 (packet_of_mem hmode hstep).1
  have hoffsets : ((steps x).map (packet mode)).map offsetOf = steps x := by
    rw [List.map_map]
    exact (List.map_congr_left fun step hstep => (packet_of_mem hmode hstep).2).trans (List.map_id _)
  rw [motion, hall, hoffsets, sum_steps]

theorem buttonsOf_append_of_ne {a ps : List UInt8} (h : ∀ p ∈ ps, modeOf p ≠ 3) : buttonsOf (a ++ ps) = buttonsOf a := by
  rw [buttonsOf, buttonsOf, List.filter_append, List.filter_eq_nil_iff.2 fun p hp heq => h p hp (eq_of_beq heq),
    List.append_nil]

theorem buttonsOf_concat (a : List UInt8) (buttons : UInt8) :
    buttonsOf (a ++ [buttonPacket (sf2Buttons buttons)]) = sf2Buttons buttons := by
  obtain ⟨hmode, hpayload⟩ := buttonPacket_sf2Buttons buttons
  have hkept : [buttonPacket (sf2Buttons buttons)].filter (modeOf · == 3) = [buttonPacket (sf2Buttons buttons)] := by
    rw [List.filter_cons, if_pos (beq_iff_eq.2 hmode), List.filter_nil]
  rw [buttonsOf, List.filter_append, hkept, List.map_append, List.map_singleton, hpayload, List.getLastD_concat]

theorem modeOf_motion {mode : UInt8} (hmode : mode ∈ [(0x40 : UInt8), 0x80]) {x : Int} {p : UInt8}
    (h : p ∈ (steps x).map (packet mode)) : modeOf p = mode >>> 6 := by
  obtain ⟨step, hstep, rfl⟩ := List.mem_map.1 h
  exact (packet_of_mem hmode hstep).1

/-! ## A feed -/

namespace Mouse

variable {m : Mouse}

theorem foldl_fifoPush (m : Mouse) (mode : UInt8) (xs : List Int) :
    xs.foldl (fun m step => m.fifoPush (packet mode step)) m =
      { m with fifo := offerAll (kFifoSize - 1) m.fifo (xs.map (packet mode)) } := by
  induction xs generalizing m with
  | nil => rfl
  | cons x xs ih => exact ih _

theorem mouseFeed_eq (m : Mouse) (dx dy : Int) (buttons : UInt8) : m.mouseFeed dx dy buttons =
    { fifo := offerAll (kFifoSize - 1) m.fifo (m.packets dx dy buttons), lastButtons := sf2Buttons buttons } := by
  unfold mouseFeed packets
  simp only [foldl_fifoPush]
  by_cases hbtn : sf2Buttons buttons = m.lastButtons
  · rw [if_neg (not_not.2 hbtn), if_neg (not_not.2 hbtn), List.append_nil, offerAll_append, hbtn]
  · rw [if_pos hbtn, if_pos hbtn, offerAll_append, offerAll_append, offerAll_singleton]
    rfl

end Mouse

/-! ## The ring -/

/-- The FIFO in `sf2_state`: the cells, the one to write next, and the oldest one. -/
structure Fifo where
  cell : Nat → UInt8 := fun _ => 0
  head : Nat := 0
  tail : Nat := 0

namespace Fifo

def fifoPush (f : Fifo) (val : UInt8) : Fifo :=
  let next := (f.head + 1) % kFifoSize
  if next = f.tail then f else { f with cell := Function.update f.cell f.head val, head := next }

def fifoPop (f : Fifo) : UInt8 × Fifo :=
  if f.head = f.tail then (0x00, f) else (f.cell f.tail, { f with tail := (f.tail + 1) % kFifoSize })

/-- The ring holds the bytes of a list, the oldest first. -/
def Shows (f : Fifo) (q : List UInt8) : Prop :=
  ∃ log released, SpscRing.Holds kFifoSize f.cell f.head f.tail log released ∧ log.drop released = q

variable {f : Fifo}

theorem shows_nil : Shows {} [] := ⟨[], 0, SpscRing.holds_nil (by decide), rfl⟩

theorem Shows.push {q : List UInt8} (h : f.Shows q) (val : UInt8) : (f.fifoPush val).Shows (offer (kFifoSize - 1) q val) := by
  obtain ⟨log, released, hring, rfl⟩ := h
  have hroom := hring.room
  have hle := hring.le
  rw [fifoPush, offer, List.length_drop]
  by_cases hfull : (f.head + 1) % kFifoSize = f.tail
  · -- the ring is full where 63 bytes are held
    have hlen := hring.full_iff.1 hfull
    rw [if_pos hfull, if_neg (by omega)]
    exact ⟨log, released, hring, rfl⟩
  · have hlen : log.length + 1 - released ≠ kFifoSize := fun heq => hfull (hring.full_iff.2 heq)
    rw [if_neg hfull, if_pos (by omega)]
    exact ⟨log ++ [val], released, hring.store.publish (by omega) (Function.update_self ..), List.drop_append_of_le_length hle⟩

theorem Shows.fifoPop {m : Mouse} (h : f.Shows m.fifo) : f.fifoPop.1 = m.fifoPop.1 ∧ f.fifoPop.2.Shows m.fifoPop.2.fifo := by
  obtain ⟨log, released, hring, hq⟩ := h
  rw [Fifo.fifoPop, Mouse.fifoPop]
  by_cases hempty : f.head = f.tail
  · have hall : released = log.length :=
      SpscRing.eq_of_mod_eq hring.le hring.room (hring.tail.symm.trans (hempty.symm.trans hring.head))
    rw [hall, List.drop_length] at hq
    rw [if_pos hempty, ← hq]
    exact ⟨rfl, log, released, hring, by rw [hall, List.drop_length]; exact hq⟩
  · have hlt : released < log.length := by
      refine Nat.lt_of_le_of_ne hring.le fun heq => hempty ?_
      rw [hring.head, hring.tail, heq]
    rw [List.drop_eq_getElem_cons hlt] at hq
    rw [if_neg hempty, ← hq]
    refine ⟨hring.tail ▸ hring.read (Nat.le_refl released) hlt, log, released + 1, ?_, rfl⟩
    have hnext := hring.release (Nat.le_succ released) hlt
    rwa [show (released + 1) % kFifoSize = (f.tail + 1) % kFifoSize by rw [hring.tail, Nat.mod_add_mod]] at hnext

theorem Shows.pushAll {q : List UInt8} (h : f.Shows q) (vals : List UInt8) :
    (vals.foldl Fifo.fifoPush f).Shows (offerAll (kFifoSize - 1) q vals) := by
  induction vals generalizing f q with
  | nil => exact h
  | cons val vals ih => exact ih (h.push val)

theorem Shows.mouseFeed {m : Mouse} (h : f.Shows m.fifo) (dx dy : Int) (buttons : UInt8) :
    ((m.packets dx dy buttons).foldl Fifo.fifoPush f).Shows (m.mouseFeed dx dy buttons).fifo := by
  rw [Mouse.mouseFeed_eq]
  exact h.pushAll _

end Fifo

/-! ## What is on its way to the guest -/

/-- What the guest has read, and what it will read next. -/
def onTheWay (state : Mouse × MouseLog) : List UInt8 := state.2.read ++ state.1.fifo

theorem onTheWay_read (state : Mouse × MouseLog) :
    onTheWay (mouseOp state .read) = onTheWay state ++ if state.1.fifo = [] then [0] else [] := by
  obtain ⟨⟨fifo, lastButtons⟩, log⟩ := state
  cases fifo with
  | nil => simp [onTheWay, mouseOp, Mouse.fifoPop]
  | cons p rest => simp [onTheWay, mouseOp, Mouse.fifoPop]

theorem buttonsOf_read (state : Mouse × MouseLog) :
    buttonsOf (onTheWay (mouseOp state .read)) = buttonsOf (onTheWay state) := by
  rw [onTheWay_read]
  apply buttonsOf_append_of_ne
  split
  · exact List.forall_mem_singleton.mpr (by decide)
  · exact fun p hp => absurd hp List.not_mem_nil

theorem motion_read {mode : UInt8} (hmode : mode ≠ 0) (state : Mouse × MouseLog) :
    motion mode (onTheWay (mouseOp state .read)) = motion mode (onTheWay state) := by
  rw [onTheWay_read, motion_append, @motion_of_ne mode (if state.1.fifo = [] then [0] else []), Int.add_zero]
  split
  · intro p hp heq
    rw [List.mem_singleton.1 hp] at heq
    exact hmode heq.symm
  · exact fun p hp => absurd hp List.not_mem_nil

/-- The FIFO holds at most 63 packets, and the board has noted the host's buttons. -/
structure Noted (state : Mouse × MouseLog) : Prop where
  length : state.1.fifo.length ≤ kFifoSize - 1
  last : state.1.lastButtons = state.2.host

theorem Noted.op {state : Mouse × MouseLog} (h : Noted state) (x : MouseOp) : Noted (mouseOp state x) := by
  cases x with
  | feed dx dy buttons =>
    rw [mouseOp, Mouse.mouseFeed_eq]
    exact ⟨offerAll_length_le h.length _, rfl⟩
  | read =>
    obtain ⟨⟨fifo, lastButtons⟩, log⟩ := state
    cases fifo with
    | nil => exact ⟨h.length, h.last⟩
    | cons p rest => exact ⟨Nat.le_of_succ_le h.length, h.last⟩

theorem onTheWay_feed {state : Mouse × MouseLog} (h : Noted state) (dx dy : Int) (buttons : UInt8) :
    onTheWay (mouseOp state (.feed dx dy buttons)) =
      onTheWay state ++ (state.1.packets dx dy buttons).take (kFifoSize - 1 - state.1.fifo.length) := by
  rw [onTheWay, onTheWay, mouseOp, Mouse.mouseFeed_eq]
  dsimp only
  rw [offerAll_eq h.length, List.append_assoc]

/-! ## The buttons -/

/-- The guest is shown the host's buttons. -/
def Shown (state : Mouse × MouseLog) : Prop := buttonsOf (onTheWay state) = state.2.host

theorem length_motion (dx dy : Int) :
    ((steps dx).map (packet 0x40) ++ (steps (-dy)).map (packet 0x80)).length = (steps dx).length + (steps (-dy)).length := by
  rw [List.length_append, List.length_map, List.length_map]

theorem Shown.op_iff {state : Mouse × MouseLog} (h : Shown state) (hn : Noted state) (x : MouseOp) :
    Shown (mouseOp state x) ↔ ButtonFits state x := by
  cases x with
  | read =>
    refine iff_of_true ?_ trivial
    rw [Shown, buttonsOf_read]
    exact h
  | feed dx dy buttons =>
    rw [Shown, onTheWay_feed hn]
    unfold ButtonFits Mouse.packets
    have hmotion : ∀ n, ∀ p ∈ ((steps dx).map (packet 0x40) ++ (steps (-dy)).map (packet 0x80)).take n, modeOf p ≠ 3 := by
      intro n p hp
      rcases List.mem_append.1 (List.mem_of_mem_take hp) with hp | hp
      · rw [modeOf_motion (by decide) hp]
        decide
      · rw [modeOf_motion (by decide) hp]
        decide
    have hhost : (mouseOp state (.feed dx dy buttons)).2.host = sf2Buttons buttons := rfl
    have hlength := hn.length
    rw [hhost]
    by_cases hsame : sf2Buttons buttons = state.1.lastButtons
    · rw [if_neg (not_not.2 hsame), List.append_nil, buttonsOf_append_of_ne (hmotion _)]
      exact iff_of_true (h.trans (hn.last.symm.trans hsame.symm)) fun hne => absurd hsame hne
    · rw [if_pos hsame]
      by_cases hfits : state.1.fifo.length + (steps dx).length + (steps (-dy)).length + 1 < kFifoSize
      · rw [List.take_of_length_le (by
          rw [List.length_append, length_motion, List.length_singleton]
          omega), ← List.append_assoc, buttonsOf_concat]
        exact iff_of_true rfl fun _ => hfits
      · -- the packet is dropped, but the board has noted the buttons
        have hroom : kFifoSize - 1 - state.1.fifo.length ≤
            ((steps dx).map (packet 0x40) ++ (steps (-dy)).map (packet 0x80)).length := by
          rw [length_motion]
          omega
        rw [List.take_append_of_le_length hroom, buttonsOf_append_of_ne (hmotion _)]
        refine iff_of_false (fun heq => hsame ?_) fun hall => hfits (hall hsame)
        exact heq.symm.trans (h.trans hn.last.symm)

/-- Once the FIFO is empty, the last button packet read has the host's buttons. -/
def Converged (state : Mouse × MouseLog) : Prop := state.1.fifo = [] → buttonsOf state.2.read = state.2.host

/-- The guest reads on. -/
def reads (state : Mouse × MouseLog) (n : Nat) : Mouse × MouseLog := mouseRun state (List.replicate n .read)

theorem reads_succ (state : Mouse × MouseLog) (n : Nat) : reads state (n + 1) = reads (mouseOp state .read) n := rfl

theorem shown_reads (state : Mouse × MouseLog) (n : Nat) : Shown (reads state n) ↔ Shown state := by
  induction n generalizing state with
  | zero => exact Iff.rfl
  | succ n ih =>
    rw [reads_succ, ih, Shown, buttonsOf_read]
    exact Iff.rfl

theorem exists_read_empty (state : Mouse × MouseLog) : ∃ n, (reads state n).1.fifo = [] := by
  obtain ⟨⟨fifo, lastButtons⟩, log⟩ := state
  induction fifo generalizing log with
  | nil => exact ⟨0, rfl⟩
  | cons p rest ih =>
    obtain ⟨n, hn⟩ := ih { log with read := log.read ++ [p] }
    exact ⟨n + 1, hn⟩

theorem converged_reads_iff (state : Mouse × MouseLog) : (∀ n, Converged (reads state n)) ↔ Shown state := by
  have hempty : ∀ s : Mouse × MouseLog, s.1.fifo = [] → (Shown s ↔ buttonsOf s.2.read = s.2.host) := by
    intro s hs
    rw [Shown, onTheWay, hs, List.append_nil]
  constructor
  · intro h
    obtain ⟨n, hn⟩ := exists_read_empty state
    exact (shown_reads state n).1 ((hempty _ hn).2 (h n hn))
  · exact fun h n hn => (hempty _ hn).1 ((shown_reads state n).2 h)

theorem converged_iff {state : Mouse × MouseLog} (h : Shown state) (hn : Noted state) (xs : List MouseOp) :
    (∀ ys, ys <+: xs → ∀ n, Converged (reads (mouseRun state ys) n)) ↔ ButtonsFit state xs := by
  induction xs generalizing state with
  | nil =>
    refine iff_of_true (fun ys hys => ?_) trivial
    rw [List.prefix_nil.1 hys]
    exact (converged_reads_iff state).2 h
  | cons x xs ih =>
    constructor
    · intro hall
      have hfits : ButtonFits state x :=
        (h.op_iff hn x).1 ((converged_reads_iff _).1 (hall [x] (List.prefix_cons_inj x |>.2 List.nil_prefix)))
      have hnext := (h.op_iff hn x).2 hfits
      exact ⟨hfits, (ih hnext (hn.op x)).1 fun ys hys => hall (x :: ys) ((List.prefix_cons_inj x).2 hys)⟩
    · rintro ⟨hfits, hrest⟩ ys hys
      have hnext := (h.op_iff hn x).2 hfits
      cases ys with
      | nil => exact (converged_reads_iff state).2 h
      | cons y ys =>
        obtain ⟨rfl, htail⟩ := List.cons_prefix_cons.1 hys
        exact (ih hnext (hn.op y)).2 hrest ys htail

/-! ## The motion -/

/-- As long as nothing was dropped, what is on its way adds up to what was fed. -/
structure Summed (state : Mouse × MouseLog) : Prop extends Noted state where
  x : state.2.dropped = false → motion 1 (onTheWay state) = state.2.fedX
  y : state.2.dropped = false → motion 2 (onTheWay state) = state.2.fedY

theorem motion_other {mode mode' : UInt8} (hmode : mode' ∈ [(0x40 : UInt8), 0x80]) (hne : mode' >>> 6 ≠ mode) (x : Int) :
    motion mode ((steps x).map (packet mode')) = 0 := by
  apply motion_of_ne
  intro p hp
  rw [modeOf_motion hmode hp]
  exact hne

theorem motion_button {mode : UInt8} (hmode : mode ≠ 3) (m : Mouse) (buttons : UInt8) :
    motion mode (if sf2Buttons buttons ≠ m.lastButtons then [buttonPacket (sf2Buttons buttons)] else []) = 0 := by
  apply motion_of_ne
  split
  · intro p hp
    rw [List.mem_singleton.1 hp, (buttonPacket_sf2Buttons buttons).1]
    exact hmode.symm
  · exact fun p hp => absurd hp List.not_mem_nil

theorem motion_feed (m : Mouse) (dx dy : Int) (buttons : UInt8) :
    motion 1 (m.packets dx dy buttons) = dx ∧ motion 2 (m.packets dx dy buttons) = -dy := by
  have hx : motion 1 ((steps dx).map (packet 0x40)) = dx := @motion_packets 0x40 (by decide) dx
  have hy : motion 2 ((steps (-dy)).map (packet 0x80)) = -dy := @motion_packets 0x80 (by decide) (-dy)
  constructor
  · rw [Mouse.packets, motion_append, motion_append, hx, motion_other (by decide) (by decide),
      motion_button (by decide), Int.add_zero, Int.add_zero]
  · rw [Mouse.packets, motion_append, motion_append, hy, motion_other (by decide) (by decide),
      motion_button (by decide), Int.zero_add, Int.add_zero]

theorem Summed.op {state : Mouse × MouseLog} (h : Summed state) (x : MouseOp) : Summed (mouseOp state x) := by
  cases x with
  | read =>
    refine ⟨h.toNoted.op .read, fun hd => ?_, fun hd => ?_⟩
    · rw [motion_read (by decide)]
      exact h.x hd
    · rw [motion_read (by decide)]
      exact h.y hd
  | feed dx dy buttons =>
    have hon : state.2.dropped = false ∧ state.1.fifo.length + (state.1.packets dx dy buttons).length ≤ kFifoSize - 1 →
        onTheWay (mouseOp state (.feed dx dy buttons)) = onTheWay state ++ state.1.packets dx dy buttons := by
      rintro ⟨_, hfits⟩
      rw [onTheWay_feed h.toNoted, List.take_of_length_le (by omega)]
    have hdropped : (mouseOp state (.feed dx dy buttons)).2.dropped = false →
        state.2.dropped = false ∧ state.1.fifo.length + (state.1.packets dx dy buttons).length ≤ kFifoSize - 1 := by
      intro hd
      obtain ⟨hold, hnew⟩ := Bool.or_eq_false_iff.1 hd
      exact ⟨hold, Nat.not_lt.1 (of_decide_eq_false hnew)⟩
    obtain ⟨hx, hy⟩ := motion_feed state.1 dx dy buttons
    refine ⟨h.toNoted.op _, fun hd => ?_, fun hd => ?_⟩
    · rw [hon (hdropped hd), motion_append, hx, h.x (hdropped hd).1]
      rfl
    · rw [hon (hdropped hd), motion_append, hy, h.y (hdropped hd).1]
      rfl

theorem Summed.run {state : Mouse × MouseLog} (h : Summed state) (xs : List MouseOp) : Summed (mouseRun state xs) := by
  induction xs generalizing state with
  | nil => exact h
  | cons x xs ih => exact ih (h.op x)

/-! ## The whole of it -/

theorem noted_start : Noted ({}, {}) := ⟨Nat.zero_le _, rfl⟩

theorem shown_start : Shown ({}, {}) := rfl

theorem summed_start : Summed ({}, {}) := ⟨noted_start, fun _ => rfl, fun _ => rfl⟩

/-- After a run, and after each part of it, a guest that drains the FIFO has read the host's buttons
    exactly where every feed that changed them found room for its button packet; and a guest that has
    drained it has read the motion that was fed wherever no packet was dropped. -/
theorem mouse_converges (xs : List MouseOp) :
    ((∀ ys, ys <+: xs → ∀ n, Converged (reads (mouseRun ({}, {}) ys) n)) ↔ ButtonsFit ({}, {}) xs) ∧
      ((mouseRun ({}, {}) xs).2.dropped = false → (mouseRun ({}, {}) xs).1.fifo = [] →
        motion 1 (mouseRun ({}, {}) xs).2.read = (mouseRun ({}, {}) xs).2.fedX ∧
          motion 2 (mouseRun ({}, {}) xs).2.read = (mouseRun ({}, {}) xs).2.fedY) := by
  refine ⟨converged_iff shown_start noted_start xs, fun hdropped hempty => ?_⟩
  have h := summed_start.run xs
  have hon : onTheWay (mouseRun ({}, {}) xs) = (mouseRun ({}, {}) xs).2.read := by
    rw [onTheWay, hempty, List.append_nil]
  rw [← hon]
  exact ⟨h.x hdropped, h.y hdropped⟩

/-- A fast move with the left button going down, and the guest reads what there is. -/
def fastClick : List MouseOp := .feed 1953 0 1 :: List.replicate 63 .read

/-- The motion fills the FIFO; the button is noted, but its packet is gone. -/
theorem fastClick_stuck : (mouseRun ({}, {}) fastClick).1.fifo = [] ∧ (mouseRun ({}, {}) fastClick).2.host = 1 ∧
    buttonsOf (mouseRun ({}, {}) fastClick).2.read = 0 := by
  decide

end Koncepcja.Symbiface
