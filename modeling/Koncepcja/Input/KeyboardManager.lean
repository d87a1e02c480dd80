import Mathlib.Data.List.Basic
import Mathlib.Data.Nat.Bitwise
import Mathlib.Logic.Function.Basic

/-!
# The Keyboard Manager

`src/keyboard_manager.cpp`, and `applyKeypressDirect` of `src/keyboard.cpp`: the events of the host's keys
on their way into the keyboard matrix, where a bit is clear while its key is down. Which rows were
scanned at all is noted in the source and read by nothing, and is left out.

## Main definitions

- `Matrix.applyKeypressDirect`: a key and its modifiers in the matrix.
- `Keyboard.handleKeydown`, `handleKeyup`, `notifyScanned`, `update`: the manager.

## Main results

- `pressed_setLine`, `pressed_applyUp`: which bits an event touches.
-/

namespace Koncepcja.Input

set_option maxRecDepth 20000

/-! ## The matrix -/

/-- `CPCScancode`: the byte at the bottom names the bit of the matrix, two bits above it the modifiers. -/
abbrev CPCScancode := UInt32

/-- A place in the matrix. -/
abbrev MatrixBit := Fin 16 × Fin 8

/-- `keyboard_matrix`: 16 rows. -/
abbrev Matrix := Fin 16 → UInt8

/-- The row of a byte. -/
def rowOf (b : UInt8) : Fin 16 := Fin.ofNat 16 (b.toNat / 16)

/-- The bit of a byte. -/
def columnOf (b : UInt8) : Fin 8 := Fin.ofNat 8 b.toNat

/-- The place that a scancode names. -/
def bitOf (sc : CPCScancode) : MatrixBit := (rowOf sc.toUInt8, columnOf sc.toUInt8)

/-- `bit_values`. -/
def bitValue (i : Fin 8) : UInt8 := 1 <<< UInt8.ofNat i

def modCpcShift : CPCScancode := 0x100
def modCpcCtrl : CPCScancode := 0x200
def kShiftScancode : UInt8 := 0x25
def kControlScancode : UInt8 := 0x27

/-- The line of SHIFT. -/
def shiftBit : MatrixBit := (rowOf kShiftScancode, columnOf kShiftScancode)
/-- The line of CONTROL. -/
def controlBit : MatrixBit := (rowOf kControlScancode, columnOf kControlScancode)

namespace Matrix

/-- A bit is clear: its key is down. -/
def pressed (m : Matrix) (b : MatrixBit) : Bool := m b.1 &&& bitValue b.2 == 0

def setMatrixLine (m : Matrix) (scancode : UInt8) (down : Bool) : Matrix :=
  Function.update m (rowOf scancode)
    (if down then m (rowOf scancode) &&& ~~~ bitValue (columnOf scancode)
      else m (rowOf scancode) ||| bitValue (columnOf scancode))

/-- `applyKeypressDirect`: a key that goes down drives the two modifiers as well. -/
def applyKeypressDirect (m : Matrix) (key : CPCScancode) (down releaseModifiers : Bool) : Matrix :=
  let m' := m.setMatrixLine key.toUInt8 down
  if down then
    (m'.setMatrixLine kShiftScancode (key &&& modCpcShift != 0)).setMatrixLine kControlScancode
      (key &&& modCpcCtrl != 0)
  else if releaseModifiers then (m'.setMatrixLine kShiftScancode false).setMatrixLine kControlScancode false
  else m'

theorem and_bitValue (v : UInt8) (j : Fin 8) : (v &&& bitValue j == 0) = !v.toNat.testBit j := by
  have hbit : ∀ j : Fin 8, (bitValue j).toNat = 2 ^ j.val := by decide
  have hand : (v &&& bitValue j).toNat = (v.toNat.testBit j).toNat * 2 ^ j.val := by
    rw [UInt8.toNat_and, hbit, Nat.and_two_pow]
  cases htest : v.toNat.testBit j with
  | false =>
    rw [htest, Bool.toNat_false, Nat.zero_mul] at hand
    exact beq_iff_eq.mpr (UInt8.toNat_inj.mp hand)
  | true =>
    rw [htest, Bool.toNat_true, Nat.one_mul] at hand
    refine beq_eq_false_iff_ne.mpr fun hzero => ?_
    rw [hzero] at hand
    exact Nat.ne_of_gt (Nat.two_pow_pos j.val) hand.symm

theorem bit_set (v : UInt8) (i j : Fin 8) (down : Bool) :
    ((if down then v &&& ~~~ bitValue i else v ||| bitValue i) &&& bitValue j == 0) =
      if i = j then down else v &&& bitValue j == 0 := by
  have hset : ∀ i j : Fin 8, (bitValue i).toNat.testBit j = decide (i = j) := by decide
  have hclear : ∀ i j : Fin 8, (~~~ bitValue i).toNat.testBit j = !decide (i = j) := by decide
  rw [and_bitValue, and_bitValue]
  cases down with
  | true =>
    rw [if_pos rfl, UInt8.toNat_and, Nat.testBit_and, hclear]
    by_cases hij : i = j <;> simp [hij]
  | false =>
    rw [if_neg Bool.false_ne_true, UInt8.toNat_or, Nat.testBit_or, hset]
    by_cases hij : i = j <;> simp [hij]

/-- One line is driven, the others stay. -/
theorem pressed_setLine (m : Matrix) (scancode : UInt8) (down : Bool) (b : MatrixBit) :
    (m.setMatrixLine scancode down).pressed b =
      if (rowOf scancode, columnOf scancode) = b then down else m.pressed b := by
  unfold pressed setMatrixLine
  by_cases hrow : b.1 = rowOf scancode
  · rw [hrow, Function.update_self, bit_set]
    refine if_congr ⟨fun hcol => ?_, fun heq => congrArg Prod.snd heq⟩ rfl rfl
    rw [hcol, ← hrow]
  · rw [Function.update_of_ne hrow, if_neg fun heq => hrow (congrArg Prod.fst heq).symm]

theorem not_pressed_applyUp {m : Matrix} {b : MatrixBit} (key : CPCScancode) (mods : Bool)
    (h : m.pressed b = false) : (m.applyKeypressDirect key false mods).pressed b = false := by
  unfold applyKeypressDirect
  rw [if_neg Bool.false_ne_true]
  cases mods with
  | true =>
    rw [if_pos rfl, pressed_setLine, pressed_setLine, pressed_setLine, h]
    simp only [ite_self]
  | false =>
    rw [if_neg Bool.false_ne_true, pressed_setLine, h]
    simp only [ite_self]

theorem pressed_applyUp_self (m : Matrix) (key : CPCScancode) (mods : Bool) :
    (m.applyKeypressDirect key false mods).pressed (bitOf key) = false := by
  have hself : (m.setMatrixLine key.toUInt8 false).pressed (bitOf key) = false := by
    rw [pressed_setLine]
    exact if_pos rfl
  unfold applyKeypressDirect
  rw [if_neg Bool.false_ne_true]
  cases mods with
  | true =>
    rw [if_pos rfl, pressed_setLine, pressed_setLine, hself]
    simp only [ite_self]
  | false => rw [if_neg Bool.false_ne_true, hself]

theorem pressed_applyUp_of_ne (m : Matrix) {key : CPCScancode} (mods : Bool) {b : MatrixBit} (hb : bitOf key ≠ b)
    (hshift : b ≠ shiftBit) (hctrl : b ≠ controlBit) :
    (m.applyKeypressDirect key false mods).pressed b = m.pressed b := by
  have hself : (m.setMatrixLine key.toUInt8 false).pressed b = m.pressed b := by
    rw [pressed_setLine]
    exact if_neg hb
  unfold applyKeypressDirect
  rw [if_neg Bool.false_ne_true]
  cases mods with
  | true =>
    rw [if_pos rfl, pressed_setLine, pressed_setLine, hself]
    exact (if_neg (Ne.symm hctrl)).trans (if_neg (Ne.symm hshift))
  | false => rw [if_neg Bool.false_ne_true, hself]

theorem pressed_applyDown (m : Matrix) (key : CPCScancode) {b : MatrixBit} (hshift : b ≠ shiftBit)
    (hctrl : b ≠ controlBit) (mods : Bool) :
    (m.applyKeypressDirect key true mods).pressed b = if bitOf key = b then true else m.pressed b := by
  unfold applyKeypressDirect
  rw [if_pos rfl, pressed_setLine, pressed_setLine, pressed_setLine]
  exact (if_neg (Ne.symm hctrl)).trans (if_neg (Ne.symm hshift))

end Matrix

/-! ## The manager -/

inductive KeyboardSupportMode where
  | direct | bufferedUntilRead | min2Frames
  deriving DecidableEq, Repr

structure PendingKeyRelease where
  scancode : CPCScancode
  releaseFrame : UInt32
  releaseModifiers : Bool
  deriving DecidableEq, Repr

/-- `KeyboardManager` with the matrix it works on. -/
structure Keyboard where
  matrix : Matrix
  pendingReleases : List PendingKeyRelease := []
  keyNeedsScan : CPCScancode → Option Bool := fun _ => none

namespace Keyboard

def handleKeydown (k : Keyboard) (mode : KeyboardSupportMode) (scancode : CPCScancode) : Keyboard :=
  if scancode.toUInt8 = 0xFF then k
  else
    { matrix := k.matrix.applyKeypressDirect scancode true false
      pendingReleases := k.pendingReleases.filter fun p => p.scancode != scancode
      keyNeedsScan :=
        if mode = .bufferedUntilRead then Function.update k.keyNeedsScan scancode (some true) else k.keyNeedsScan }

/-- `release_key`, and the entry of the scan map erased. -/
def releaseKey (k : Keyboard) (scancode : CPCScancode) (releaseModifiers : Bool) : Keyboard :=
  { k with
    matrix := k.matrix.applyKeypressDirect scancode false releaseModifiers
    keyNeedsScan := Function.update k.keyNeedsScan scancode none }

def handleKeyup (k : Keyboard) (mode : KeyboardSupportMode) (scancode : CPCScancode) (releaseModifiers : Bool)
    (currentFrame : UInt32) : Keyboard :=
  if scancode.toUInt8 = 0xFF then k
  else
    match mode with
    | .direct => k.releaseKey scancode releaseModifiers
    | .bufferedUntilRead =>
      if k.keyNeedsScan scancode = some true then
        { k with pendingReleases := k.pendingReleases ++ [⟨scancode, 0, releaseModifiers⟩] }
      else k.releaseKey scancode releaseModifiers
    | .min2Frames =>
      { k with pendingReleases := k.pendingReleases ++ [⟨scancode, currentFrame + 2, releaseModifiers⟩] }

/-- `notify_scanned`, of a row. -/
def notifyScanned (k : Keyboard) (mode : KeyboardSupportMode) (line : Fin 16) : Keyboard :=
  if mode = .bufferedUntilRead then
    { k with
      keyNeedsScan := fun sc =>
        (k.keyNeedsScan sc).map fun needs => needs && rowOf sc.toUInt8 != line }
  else k

/-- `notify_scanned`, of a row and the byte that was read there. The bit is taken from four bits of the
    scancode, so one from 8 on lies outside the byte. -/
def notifyScannedValue (k : Keyboard) (mode : KeyboardSupportMode) (line : Fin 16) (readValue : UInt8) : Keyboard :=
  if mode = .bufferedUntilRead then
    { k with
      keyNeedsScan := fun sc =>
        (k.keyNeedsScan sc).map fun needs =>
          needs && !(rowOf sc.toUInt8 == line && !readValue.toNat.testBit (sc.toUInt8.toNat % 16)) }
  else k

/-- Whether a release is due. -/
def shouldRelease (k : Keyboard) (mode : KeyboardSupportMode) (currentFrame : UInt32) (p : PendingKeyRelease) : Bool :=
  match mode with
  | .bufferedUntilRead => k.keyNeedsScan p.scancode != some true
  | .min2Frames => p.releaseFrame ≤ currentFrame
  | .direct => true

/-- `update`, over the releases that are left to look at. -/
def updateLoop (mode : KeyboardSupportMode) (currentFrame : UInt32) : List PendingKeyRelease → Keyboard → Keyboard
  | [], k => k
  | p :: ps, k =>
    if k.shouldRelease mode currentFrame p then
      updateLoop mode currentFrame ps (k.releaseKey p.scancode p.releaseModifiers)
    else
      updateLoop mode currentFrame ps { k with pendingReleases := k.pendingReleases ++ [p] }

def update (k : Keyboard) (mode : KeyboardSupportMode) (currentFrame : UInt32) : Keyboard :=
  updateLoop mode currentFrame k.pendingReleases { k with pendingReleases := [] }

end Keyboard

end Koncepcja.Input
