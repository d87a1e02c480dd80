import Koncepcja.Lib.StrobedCounter
import Mathlib.Algebra.Ring.Int.Defs
import Mathlib.Data.UInt

/-!
# The AMX Mouse

`src/hw/amx.cpp`: the host feeds whole mickeys and a button mask, the guest sees direction lines in
row 9 of the keyboard matrix while it selects that row.

- `Amx.amxTick`: one master cycle. A deselect arms the interface, the next select takes one mickey of
  each axis.
- `Amx.amxFeed`: the host's motion, inside 16 bits.

Each direction of an axis is a counter shown on a strobe.

## Main results

- `feed_shown`, `tick_shown`: one event is one input of the counter.
- `amx_conserves_iff`: a run that ends with no mickey pending has shown them all exactly where no mickey
  reaches an axis at rest ahead of a select that takes it.
-/

namespace Koncepcja.Input

open StrobedCounter

/-! ## The device -/

/-- `amx_state`. -/
structure Amx where
  mickeysX : Int := 0
  mickeysY : Int := 0
  buttons : UInt8 := 0
  plugged : Bool := false
  row9Now : Bool := false
  row9Armed : Bool := false
  deriving DecidableEq, Repr

/-- One mickey less, on either side. -/
def consumed (mickeys : Int) : Int := if 0 < mickeys then mickeys - 1 else if mickeys < 0 then mickeys + 1 else mickeys

/-- `static_cast<int16_t>` behind the two comparisons. -/
def clamped (x : Int) : Int := if x < -32768 then -32768 else if 32767 < x then 32767 else x

/-- `lines &= ~(1u << k)`, where the line is driven. -/
def pull (low : Bool) (k : UInt8) (lines : UInt8) : UInt8 := if low then lines &&& ~~~(1 <<< k) else lines

/-- The lines of row 9, low where they are driven. -/
def linesOf (up down left right fire2 fire1 fire3 : Bool) : UInt8 :=
  pull fire3 6 (pull fire1 5 (pull fire2 4 (pull right 3 (pull left 2 (pull down 1 (pull up 0 0xFF))))))

namespace Amx

/-- `lines` of a master cycle. -/
def lines (a : Amx) : UInt8 :=
  linesOf (a.mickeysY < 0) (0 < a.mickeysY) (a.mickeysX < 0) (0 < a.mickeysX)
    (a.buttons &&& 1 != 0) (a.buttons &&& 4 != 0) (a.buttons &&& 2 != 0)

/-- `sel`: the row on the bus is row 9. -/
def selected (row : UInt8) : Bool := row &&& 0x0F == 9

/-- `amx_tick`: the device behind a master cycle and the external column lines it leaves. -/
def amxTick (a : Amx) (row rowExt : UInt8) : Amx × UInt8 :=
  if !a.plugged then (a, rowExt)
  else
    let sel := selected row
    let a := if !sel && a.row9Now then { a with row9Armed := true } else a
    let a :=
      if sel && !a.row9Now && a.row9Armed then
        { a with mickeysX := consumed a.mickeysX, mickeysY := consumed a.mickeysY, row9Armed := false }
      else a
    let a := { a with row9Now := sel }
    if !sel then (a, rowExt) else (a, rowExt &&& a.lines)

def amxFeed (a : Amx) (dx dy : Int) (buttons : UInt8) : Amx :=
  { a with mickeysX := clamped (a.mickeysX + dx), mickeysY := clamped (a.mickeysY + dy), buttons := buttons }

def amxDevReset (a : Amx) : Amx :=
  { a with mickeysX := 0, mickeysY := 0, buttons := 0, row9Now := false, row9Armed := false }

end Amx

/-! ## Runs -/

/-- The host feeds, or a master cycle passes with a row selected and the column lines at rest. -/
inductive AmxEvent
  | feed (dx dy : Int) (buttons : UInt8)
  | tick (row : UInt8)
  deriving DecidableEq, Repr

def Amx.event (a : Amx) : AmxEvent → Amx
  | .feed dx dy buttons => a.amxFeed dx dy buttons
  | .tick row => (a.amxTick row 0xFF).1

def Amx.run (a : Amx) (es : List AmxEvent) : Amx := es.foldl Amx.event a

inductive Direction
  | up
  | down
  | left
  | right
  deriving DecidableEq, Repr

namespace Direction

/-- The axis of a direction. -/
def axis (d : Direction) (x y : Int) : Int :=
  match d with
  | .up | .down => y
  | .left | .right => x

/-- A motion, counted in a direction. -/
def along (d : Direction) (x y : Int) : Int :=
  match d with
  | .up | .left => -d.axis x y
  | .down | .right => d.axis x y

/-- The direction's column line. -/
def line : Direction → UInt8
  | .up => 0
  | .down => 1
  | .left => 2
  | .right => 3

end Direction

/-- The mickeys pending in a direction. -/
def Amx.pending (a : Amx) (d : Direction) : Int := d.along a.mickeysX a.mickeysY

/-- The master cycles of a run: whether row 9 is selected, and whether the direction's line is low. -/
def Amx.shown (d : Direction) : Amx → List AmxEvent → List (Bool × Bool)
  | _, [] => []
  | a, .feed dx dy buttons :: es => Amx.shown d (a.amxFeed dx dy buttons) es
  | a, .tick row :: es =>
    (Amx.selected row, (a.amxTick row 0xFF).2 &&& (1 <<< d.line) == 0) :: Amx.shown d (a.amxTick row 0xFF).1 es

/-- The motion fed, counted in a direction. -/
def fed (d : Direction) : List AmxEvent → Int
  | [] => 0
  | .feed dx dy _ :: es => d.along dx dy + fed d es
  | .tick _ :: es => fed d es

/-- Every feed moves an axis in this direction, or not at all, and the axis stays inside 16 bits. -/
def Backlog (d : Direction) : Amx → List AmxEvent → Prop
  | _, [] => True
  | a, .feed dx dy buttons :: es =>
    (0 ≤ d.along dx dy ∧ -32768 ≤ d.axis a.mickeysX a.mickeysY + d.axis dx dy ∧
      d.axis a.mickeysX a.mickeysY + d.axis dx dy ≤ 32767) ∧ Backlog d (a.amxFeed dx dy buttons) es
  | a, .tick row :: es => Backlog d (a.amxTick row 0xFF).1 es

/-- Row 9 is selected at the next master cycle, if there is one. -/
def nextSelected : List AmxEvent → Bool
  | [] => true
  | .feed _ _ _ :: es => nextSelected es
  | .tick row :: _ => Amx.selected row

/-- A mickey that reaches an axis at rest finds the interface not armed, and a select it comes in lasts
    for another master cycle. -/
def ShownFirst (d : Direction) : Amx → List AmxEvent → Prop
  | _, [] => True
  | a, .feed dx dy buttons :: es =>
    (a.pending d = 0 → d.along dx dy ≠ 0 → a.row9Armed = false ∧ (a.row9Now = true → nextSelected es = true)) ∧
      ShownFirst d (a.amxFeed dx dy buttons) es
  | a, .tick row :: es => ShownFirst d (a.amxTick row 0xFF).1 es

/-! ## One direction is a strobed counter -/

/-- The counter of a direction. -/
def Amx.counter (a : Amx) (d : Direction) : Counter := ⟨(a.pending d).toNat, a.row9Now, a.row9Armed⟩

/-- An event, as the counter takes it. -/
def AmxEvent.input (d : Direction) : AmxEvent → Input
  | .feed dx dy _ => .add (d.along dx dy).toNat
  | .tick row => .cycle (Amx.selected row)

/-- The mouse is plugged, and nothing is pending the other way. -/
structure OneWay (d : Direction) (a : Amx) : Prop where
  plugged : a.plugged = true
  pending : 0 ≤ a.pending d

theorem clamped_of_mem {x : Int} (hlow : -32768 ≤ x) (hhigh : x ≤ 32767) : clamped x = x := by
  rw [clamped, if_neg (by omega), if_neg (by omega)]

theorem feed_pending {d : Direction} {a : Amx} {dx dy : Int} (buttons : UInt8)
    (hlow : -32768 ≤ d.axis a.mickeysX a.mickeysY + d.axis dx dy)
    (hhigh : d.axis a.mickeysX a.mickeysY + d.axis dx dy ≤ 32767) :
    (a.amxFeed dx dy buttons).pending d = a.pending d + d.along dx dy := by
  cases d with
  | up =>
    have hy : clamped (a.mickeysY + dy) = a.mickeysY + dy := clamped_of_mem hlow hhigh
    show -clamped (a.mickeysY + dy) = -a.mickeysY + -dy
    omega
  | down => exact clamped_of_mem hlow hhigh
  | left =>
    have hx : clamped (a.mickeysX + dx) = a.mickeysX + dx := clamped_of_mem hlow hhigh
    show -clamped (a.mickeysX + dx) = -a.mickeysX + -dx
    omega
  | right => exact clamped_of_mem hlow hhigh

/-- A feed inside the bounds adds to the counter. -/
theorem feed_shown {d : Direction} {a : Amx} (h : OneWay d a) {dx dy : Int} (buttons : UInt8)
    (hway : 0 ≤ d.along dx dy) (hlow : -32768 ≤ d.axis a.mickeysX a.mickeysY + d.axis dx dy)
    (hhigh : d.axis a.mickeysX a.mickeysY + d.axis dx dy ≤ 32767) :
    OneWay d (a.amxFeed dx dy buttons) ∧
      (a.amxFeed dx dy buttons).counter d = (a.counter d).step (.add (d.along dx dy).toNat) := by
  have hpending := feed_pending buttons hlow hhigh
  have hnonneg := h.pending
  refine ⟨⟨h.plugged, by omega⟩, ?_⟩
  have hsum : ((a.amxFeed dx dy buttons).pending d).toNat = (a.pending d).toNat + (d.along dx dy).toNat := by
    rw [hpending]
    omega
  rw [Amx.counter, hsum]
  rfl

theorem along_consumed (d : Direction) {x y : Int} (h : 0 ≤ d.along x y) :
    0 ≤ d.along (consumed x) (consumed y) ∧ (d.along (consumed x) (consumed y)).toNat = (d.along x y).toNat - 1 := by
  cases d <;> simp only [Direction.along, Direction.axis, consumed] at h ⊢ <;> split <;> omega

theorem linesOf_line : ∀ up down left right fire2 fire1 fire3 : Bool,
    (linesOf up down left right fire2 fire1 fire3 &&& (1 <<< Direction.up.line) == 0) = up ∧
    (linesOf up down left right fire2 fire1 fire3 &&& (1 <<< Direction.down.line) == 0) = down ∧
    (linesOf up down left right fire2 fire1 fire3 &&& (1 <<< Direction.left.line) == 0) = left ∧
    (linesOf up down left right fire2 fire1 fire3 &&& (1 <<< Direction.right.line) == 0) = right := by
  decide

theorem decide_pos (n : Int) : decide (0 < n) = (n.toNat != 0) := by
  rw [Bool.eq_iff_iff, decide_eq_true_iff, bne_iff_ne]
  omega

theorem lines_line (a : Amx) (d : Direction) : (a.lines &&& (1 <<< d.line) == 0) = ((a.counter d).pending != 0) := by
  have hline := linesOf_line (a.mickeysY < 0) (0 < a.mickeysY) (a.mickeysX < 0) (0 < a.mickeysX)
    (a.buttons &&& 1 != 0) (a.buttons &&& 4 != 0) (a.buttons &&& 2 != 0)
  refine Eq.trans ?_ (decide_pos (a.pending d))
  cases d with
  | up => exact hline.1.trans (decide_eq_decide.2 Int.neg_pos.symm)
  | down => exact hline.2.1
  | left => exact hline.2.2.1.trans (decide_eq_decide.2 Int.neg_pos.symm)
  | right => exact hline.2.2.2

theorem rest_and (x : UInt8) : 0xFF &&& x = x := UInt8.eq_of_toBitVec_eq (BitVec.allOnes_and (x := x.toBitVec))

theorem rest_line (d : Direction) : ((0xFF : UInt8) &&& (1 <<< d.line) == 0) = false := by
  cases d <;> decide

/-- A master cycle strobes the counter, and the line shows it. -/
theorem tick_shown {d : Direction} {a : Amx} (h : OneWay d a) (row : UInt8) :
    OneWay d (a.amxTick row 0xFF).1 ∧
      (a.amxTick row 0xFF).1.counter d = (a.counter d).step (.cycle (Amx.selected row)) ∧
      ((a.amxTick row 0xFF).2 &&& (1 <<< d.line) == 0) =
        (Amx.selected row && ((a.counter d).step (.cycle (Amx.selected row))).pending != 0) := by
  obtain ⟨x, y, buttons, plugged, now, armed⟩ := a
  have hplugged : plugged = true := h.plugged
  subst hplugged
  have hpending : 0 ≤ d.along x y := h.pending
  obtain ⟨hnonneg, hcount⟩ := along_consumed d hpending
  have hkept : ∀ now armed, OneWay d ⟨x, y, buttons, true, now, armed⟩ := fun _ _ => ⟨rfl, hpending⟩
  have htaken : OneWay d ⟨consumed x, consumed y, buttons, true, true, false⟩ := ⟨rfl, hnonneg⟩
  cases hsel : Amx.selected row with
  | false =>
    -- the interface may be armed, and nothing is driven
    cases now <;> cases armed <;>
      simp [Amx.amxTick, hsel, Amx.counter, Counter.step, Amx.pending, rest_line, hkept]
  | true =>
    -- only a select of an armed interface takes a mickey; the lines show what is left
    cases now <;> cases armed <;>
      simp [Amx.amxTick, hsel, Amx.counter, Counter.step, Amx.pending, rest_and, lines_line, hkept, htaken, hcount]

/-! ## Runs are runs of the counter -/

section

variable {d : Direction} {a : Amx} (h : OneWay d a) {es : List AmxEvent}

theorem nextSelected_eq (d : Direction) (es : List AmxEvent) : nextSelected es = nextOn (es.map (AmxEvent.input d)) := by
  induction es with
  | nil => rfl
  | cons e es ih =>
    cases e with
    | feed dx dy buttons => exact ih
    | tick row => rfl

include h

theorem run_counter (hfit : Backlog d a es) :
    (a.run es).counter d = (es.map (AmxEvent.input d)).foldl Counter.step (a.counter d) := by
  induction es generalizing a with
  | nil => rfl
  | cons e es ih =>
    cases e with
    | feed dx dy buttons =>
      obtain ⟨hkept, hstep⟩ := feed_shown h buttons hfit.1.1 hfit.1.2.1 hfit.1.2.2
      exact (ih hkept hfit.2).trans (congrArg (List.foldl Counter.step · (es.map (AmxEvent.input d))) hstep)
    | tick row =>
      obtain ⟨hkept, hstep, -⟩ := tick_shown h row
      exact (ih hkept hfit).trans (congrArg (List.foldl Counter.step · (es.map (AmxEvent.input d))) hstep)

theorem shown_eq (hfit : Backlog d a es) : a.shown d es = trace (a.counter d) (es.map (AmxEvent.input d)) := by
  induction es generalizing a with
  | nil => rfl
  | cons e es ih =>
    cases e with
    | feed dx dy buttons =>
      obtain ⟨hkept, hstep⟩ := feed_shown h buttons hfit.1.1 hfit.1.2.1 hfit.1.2.2
      exact (ih hkept hfit.2).trans (congrArg (trace · _) hstep)
    | tick row =>
      obtain ⟨hkept, hstep, hline⟩ := tick_shown h row
      rw [Amx.shown, ih hkept hfit, hstep, hline]
      rfl

theorem fed_eq (hfit : Backlog d a es) : fed d es = total (es.map (AmxEvent.input d)) := by
  induction es generalizing a with
  | nil => rfl
  | cons e es ih =>
    cases e with
    | feed dx dy buttons =>
      obtain ⟨hkept, -⟩ := feed_shown h buttons hfit.1.1 hfit.1.2.1 hfit.1.2.2
      have hway := hfit.1.1
      have hrest := ih hkept hfit.2
      rw [fed, hrest, List.map_cons, AmxEvent.input, total]
      omega
    | tick row => exact ih (tick_shown h row).1 hfit

theorem shownFirst_iff (hfit : Backlog d a es) :
    ShownFirst d a es ↔ Seen (a.counter d) (es.map (AmxEvent.input d)) := by
  induction es generalizing a with
  | nil => exact Iff.rfl
  | cons e es ih =>
    cases e with
    | feed dx dy buttons =>
      obtain ⟨hkept, hstep⟩ := feed_shown h buttons hfit.1.1 hfit.1.2.1 hfit.1.2.2
      have hway := hfit.1.1
      have hnonneg := h.pending
      have hrest : (a.counter d).pending = 0 ↔ a.pending d = 0 := by
        show (a.pending d).toNat = 0 ↔ _
        omega
      have hmoves : (d.along dx dy).toNat ≠ 0 ↔ d.along dx dy ≠ 0 := by omega
      rw [ShownFirst, List.map_cons, AmxEvent.input, Seen, hrest, hmoves, ← nextSelected_eq, ← hstep, ih hkept hfit.2]
      rfl
    | tick row =>
      obtain ⟨hkept, hstep, -⟩ := tick_shown h row
      rw [ShownFirst, List.map_cons, AmxEvent.input, Seen, ← hstep]
      exact ih hkept hfit

end

theorem oneWay_reset (d : Direction) {a : Amx} (h : a.plugged = true) : OneWay d a.amxDevReset :=
  ⟨h, Int.le_of_eq (by cases d <;> rfl)⟩

/-- **Movement.** From reset with the mouse plugged, and with no mickey pending at the end, row 9 shows a
    direction's line in as many selects as mickeys were fed, exactly where each mickey that reaches the
    axis at rest is shown ahead of the select that takes it. -/
theorem amx_conserves_iff (d : Direction) {a : Amx} (hplugged : a.plugged = true) {es : List AmxEvent}
    (hfit : Backlog d a.amxDevReset es) (hend : (a.amxDevReset.run es).pending d = 0) :
    (lit false (a.amxDevReset.shown d es) : Int) = fed d es ↔ ShownFirst d a.amxDevReset es := by
  have h := oneWay_reset d hplugged
  have hrest : a.amxDevReset.counter d = ⟨0, false, false⟩ := by cases d <;> rfl
  have hcount : ((es.map (AmxEvent.input d)).foldl Counter.step (a.amxDevReset.counter d)).pending = 0 := by
    rw [← run_counter h hfit]
    exact congrArg Int.toNat hend
  rw [shown_eq h hfit, fed_eq h hfit, shownFirst_iff h hfit, ← lit_eq_iff hrest _ hcount]
  exact Int.ofNat_inj

/-- Two mickeys of motion, each shown once. -/
theorem amx_conserves_iff_scan :
    let a : Amx := { plugged := true }
    let es := [.feed 2 0 0, .tick 9, .tick 0, .tick 9, .tick 0, .tick 9]
    (lit false (a.amxDevReset.shown .right es) : Int) = fed .right es ↔ ShownFirst .right a.amxDevReset es :=
  amx_conserves_iff .right rfl ⟨⟨by decide, by decide, by decide⟩, trivial⟩ rfl

/-- A mickey fed between two selects is taken by the second, and no line was ever low. -/
theorem amx_takes_unshown : ¬∀ (d : Direction) (a : Amx) (es : List AmxEvent), a.plugged = true →
    Backlog d a.amxDevReset es → (a.amxDevReset.run es).pending d = 0 →
    (lit false (a.amxDevReset.shown d es) : Int) = fed d es := by
  intro hall
  have hrun := hall .right { plugged := true } [.tick 9, .tick 0, .feed 1 0 0, .tick 9] rfl
    ⟨⟨by decide, by decide, by decide⟩, trivial⟩ rfl
  exact absurd hrun (by decide)

end Koncepcja.Input
