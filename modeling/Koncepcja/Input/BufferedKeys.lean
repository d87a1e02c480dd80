import Koncepcja.Input.KeyboardManager
import Koncepcja.Lib.Stepwise

/-!
# Keys that Wait for their Scan

The keyboard manager when it buffers until read. A key that goes up before the machine has seen it stays
down until a scan of its row has. The scan is noted for each scancode, and two scancodes may share a bit of
the matrix; and every key that goes down drives the lines of SHIFT and CONTROL, seen or not.

## Main results

- `buffered_keeps_keys`: no bit but those of the two modifiers goes up before it was seen, where no scancode
  is released over another of its bit that waits; and after the first update that follows the scan no key
  that went up is still held.
-/

namespace Koncepcja.Input

open Stepwise

/-! ## Runs -/

/-- An event for the manager. -/
inductive KeyCall where
  | keyDown (scancode : CPCScancode)
  | keyUp (scancode : CPCScancode) (releaseModifiers : Bool) (frame : UInt32)
  | scanned (line : Fin 16)
  | scannedValue (line : Fin 16) (readValue : UInt8)
  | update (frame : UInt32)

/-- The manager after an event. -/
def Keyboard.call (k : Keyboard) : KeyCall → Keyboard
  | .keyDown sc => k.handleKeydown .bufferedUntilRead sc
  | .keyUp sc mods frame => k.handleKeyup .bufferedUntilRead sc mods frame
  | .scanned line => k.notifyScanned .bufferedUntilRead line
  | .scannedValue line v => k.notifyScannedValue .bufferedUntilRead line v
  | .update frame => k.update .bufferedUntilRead frame

/-- A key goes down that presses a bit, as its own or as a modifier. -/
def KeyCall.downs (b : MatrixBit) : KeyCall → Bool
  | .keyDown sc =>
    sc.toUInt8 != 0xFF &&
      (bitOf sc == b || (sc &&& modCpcShift != 0 && b == shiftBit) || (sc &&& modCpcCtrl != 0 && b == controlBit))
  | _ => false

/-- A scan of its row finds a bit pressed: in the byte that was read, or where none is given in the matrix. -/
def KeyCall.observes (k : Keyboard) (b : MatrixBit) : KeyCall → Bool
  | .scanned line => line == b.1 && k.matrix.pressed b
  | .scannedValue line v => line == b.1 && v &&& bitValue b.2 == 0
  | _ => false

/-- The keys that have been let go: one that goes down again has not. -/
def KeyCall.letGo (due : CPCScancode → Bool) (key : CPCScancode) : KeyCall → Bool
  | .keyDown sc => due key && sc != key
  | .keyUp sc _ _ => due key || (sc == key && sc.toUInt8 != 0xFF)
  | _ => due key

/-- The manager with what an observer knows: the bits that a scan has found pressed since their last key
    down, and the keys that were let go while their bit has not gone up. -/
structure Watched where
  board : Keyboard
  seen : MatrixBit → Bool := fun _ => true
  due : CPCScancode → Bool := fun _ => false

namespace Watched

/-- One event. -/
def step (w : Watched) (c : KeyCall) : Watched where
  board := w.board.call c
  seen b := !c.downs b && (w.seen b || c.observes w.board b)
  due key := c.letGo w.due key && (w.board.call c).matrix.pressed (bitOf key)

/-- The manager after some events. -/
def run (w : Watched) (calls : List KeyCall) : Watched := calls.foldl step w

end Watched

/-- No other scancode of the same bit waits for its scan. -/
def Keyboard.Alone (k : Keyboard) (sc : CPCScancode) : Prop :=
  ∀ sc', sc' ≠ sc → bitOf sc' = bitOf sc → k.keyNeedsScan sc' ≠ some true

/-- Scancodes name one of the eight bits of a row, and none is released over another that waits. -/
def CallFits (w : Watched) : KeyCall → Prop
  | .keyDown sc => sc.toUInt8.toNat % 16 < 8
  | .keyUp sc _ _ => w.board.keyNeedsScan sc ≠ some true → w.board.Alone sc
  | .update _ => ∀ p ∈ w.board.pendingReleases, w.board.keyNeedsScan p.scancode ≠ some true → w.board.Alone p.scancode
  | _ => True

/-! ## Updates -/

namespace Keyboard

variable {frame : UInt32}

theorem releaseKey_needs {k : Keyboard} {sc sc' : CPCScancode} (h : sc' ≠ sc) (mods : Bool) :
    (k.releaseKey sc mods).keyNeedsScan sc' = k.keyNeedsScan sc' := Function.update_of_ne h ..

theorem releaseKey_needs_self (k : Keyboard) (sc : CPCScancode) (mods : Bool) :
    (k.releaseKey sc mods).keyNeedsScan sc = none := Function.update_self ..

theorem updateLoop_not_pressed {ps : List PendingKeyRelease} {k : Keyboard} {b : MatrixBit}
    (h : k.matrix.pressed b = false) : (updateLoop .bufferedUntilRead frame ps k).matrix.pressed b = false := by
  induction ps generalizing k with
  | nil => exact h
  | cons p ps ih =>
    rw [updateLoop]
    split
    · exact ih (Matrix.not_pressed_applyUp _ _ h)
    · exact ih h

theorem mem_updateLoop_of_mem {ps : List PendingKeyRelease} {k : Keyboard} {p : PendingKeyRelease}
    (h : p ∈ k.pendingReleases) : p ∈ (updateLoop .bufferedUntilRead frame ps k).pendingReleases := by
  induction ps generalizing k with
  | nil => exact h
  | cons q ps ih =>
    rw [updateLoop]
    split
    · exact ih h
    · exact ih (List.mem_append_left _ h)

theorem updateLoop_mem {ps : List PendingKeyRelease} {k : Keyboard} {p : PendingKeyRelease} (hp : p ∈ ps) :
    p ∈ (updateLoop .bufferedUntilRead frame ps k).pendingReleases ∨
      (updateLoop .bufferedUntilRead frame ps k).matrix.pressed (bitOf p.scancode) = false := by
  induction ps generalizing k with
  | nil => cases hp
  | cons q ps ih =>
    rw [updateLoop]
    split
    · rcases List.mem_cons.1 hp with rfl | hp
      · exact Or.inr (updateLoop_not_pressed (Matrix.pressed_applyUp_self _ _ _))
      · exact ih hp
    · rcases List.mem_cons.1 hp with rfl | hp
      · exact Or.inl (mem_updateLoop_of_mem (List.mem_append_right _ List.mem_cons_self))
      · exact ih hp

theorem updateLoop_released {ps : List PendingKeyRelease} {k : Keyboard} {p : PendingKeyRelease} (hp : p ∈ ps)
    (hseen : k.keyNeedsScan p.scancode ≠ some true) :
    (updateLoop .bufferedUntilRead frame ps k).matrix.pressed (bitOf p.scancode) = false := by
  induction ps generalizing k with
  | nil => cases hp
  | cons q ps ih =>
    rw [updateLoop]
    rcases List.mem_cons.1 hp with rfl | hp
    · have hdue : k.shouldRelease .bufferedUntilRead frame p = true := bne_iff_ne.2 hseen
      rw [if_pos hdue]
      exact updateLoop_not_pressed (Matrix.pressed_applyUp_self _ _ _)
    · split
      · refine ih hp ?_
        by_cases hsame : p.scancode = q.scancode
        · rw [hsame, releaseKey_needs_self]
          exact (Option.some_ne_none true).symm
        · rwa [releaseKey_needs hsame]
      · exact ih hp hseen

theorem updateLoop_needs {ps : List PendingKeyRelease} {k : Keyboard} {sc : CPCScancode}
    (h : k.keyNeedsScan sc = some true) :
    (updateLoop .bufferedUntilRead frame ps k).keyNeedsScan sc = some true := by
  induction ps generalizing k with
  | nil => exact h
  | cons p ps ih =>
    rw [updateLoop]
    split
    · next hrelease =>
      have hne : sc ≠ p.scancode := by
        rintro rfl
        exact bne_iff_ne.1 hrelease h
      exact ih (by rwa [releaseKey_needs hne])
    · exact ih h

theorem needs_of_updateLoop {ps : List PendingKeyRelease} {k : Keyboard} {sc : CPCScancode}
    (h : (updateLoop .bufferedUntilRead frame ps k).keyNeedsScan sc = some true) : k.keyNeedsScan sc = some true := by
  induction ps generalizing k with
  | nil => exact h
  | cons p ps ih =>
    rw [updateLoop] at h
    split at h
    · have hrest := ih h
      by_cases hsame : sc = p.scancode
      · rw [hsame, releaseKey_needs_self] at hrest
        cases hrest
      · rwa [releaseKey_needs hsame] at hrest
    · have hrest := ih h
      exact hrest

theorem updateLoop_pressed {ps : List PendingKeyRelease} {k : Keyboard} {b : MatrixBit} (hshift : b ≠ shiftBit)
    (hctrl : b ≠ controlBit)
    (h : ∀ p ∈ ps, k.keyNeedsScan p.scancode ≠ some true → bitOf p.scancode ≠ b) :
    (updateLoop .bufferedUntilRead frame ps k).matrix.pressed b = k.matrix.pressed b := by
  induction ps generalizing k with
  | nil => rfl
  | cons p ps ih =>
    rw [updateLoop]
    split
    · next hrelease =>
      have hp := h p List.mem_cons_self (bne_iff_ne.1 hrelease)
      rw [ih fun q hq hneeds => ?_, releaseKey, Matrix.pressed_applyUp_of_ne _ _ hp hshift hctrl]
      by_cases hsame : q.scancode = p.scancode
      · rwa [hsame]
      · rw [releaseKey_needs hsame] at hneeds
        exact h q (List.mem_cons_of_mem p hq) hneeds
    · exact ih fun q hq => h q (List.mem_cons_of_mem p hq)

end Keyboard

/-! ## What the observer knows -/

/-- What the observer's notes and the manager's have to do with each other. -/
structure Watched.Sound (w : Watched) : Prop where
  /-- A key that was let go and is still held has its release noted. -/
  pending : ∀ key, w.due key = true → ∃ p ∈ w.board.pendingReleases, p.scancode = key
  /-- The bit of a key that waits has not been seen. -/
  waiting : ∀ key, w.board.keyNeedsScan key = some true → w.seen (bitOf key) = false

/-- Of each bit that was not seen a key waits; the modifiers are no such bits. -/
def Watched.Held (w : Watched) : Prop :=
  ∀ b, b ≠ shiftBit → b ≠ controlBit → w.seen b = false →
    w.board.matrix.pressed b = true ∧
      ∃ sc, bitOf sc = b ∧ sc.toUInt8.toNat % 16 < 8 ∧ w.board.keyNeedsScan sc = some true

theorem Watched.seen_of_step {w : Watched} {c : KeyCall} {b : MatrixBit} (hdown : c.downs b = false)
    (h : (w.step c).seen b = false) : w.seen b = false ∧ c.observes w.board b = false := by
  have h' : (!c.downs b && (w.seen b || c.observes w.board b)) = false := h
  rw [hdown, Bool.not_false, Bool.true_and, Bool.or_eq_false_iff] at h'
  exact h'

theorem testBit_of_observed {sc : CPCScancode} {v : UInt8} (hv : (v &&& bitValue (bitOf sc).2 == 0) = true) :
    v.toNat.testBit (sc.toUInt8.toNat % 16) = false := by
  rw [Matrix.and_bitValue, Bool.not_eq_true'] at hv
  rcases Nat.lt_or_ge (sc.toUInt8.toNat % 16) 8 with hlt | hge
  · rwa [show ((bitOf sc).2 : Nat) = sc.toUInt8.toNat % 16 from
      (show sc.toUInt8.toNat % 8 = _ by omega)] at hv
  · refine Nat.testBit_lt_two_pow (Nat.lt_of_lt_of_le v.toNat_lt ?_)
    exact Nat.pow_le_pow_right (by decide) hge

namespace Keyboard

theorem handleKeydown_needs {k : Keyboard} {sc key : CPCScancode} (h : key ≠ sc) :
    (k.handleKeydown .bufferedUntilRead sc).keyNeedsScan key = k.keyNeedsScan key := by
  unfold handleKeydown
  split
  · rfl
  · show (if KeyboardSupportMode.bufferedUntilRead = .bufferedUntilRead then
      Function.update k.keyNeedsScan sc (some true) else k.keyNeedsScan) key = _
    rw [if_pos rfl, Function.update_of_ne h]

theorem handleKeydown_needs_self {k : Keyboard} {sc : CPCScancode} (h : sc.toUInt8 ≠ 0xFF) :
    (k.handleKeydown .bufferedUntilRead sc).keyNeedsScan sc = some true := by
  rw [handleKeydown, if_neg h]
  show (if KeyboardSupportMode.bufferedUntilRead = .bufferedUntilRead then
    Function.update k.keyNeedsScan sc (some true) else k.keyNeedsScan) sc = _
  rw [if_pos rfl, Function.update_self]

theorem handleKeyup_cases (k : Keyboard) (sc : CPCScancode) (mods : Bool) (frame : UInt32) :
    (sc.toUInt8 = 0xFF ∧ k.handleKeyup .bufferedUntilRead sc mods frame = k) ∨
    (k.keyNeedsScan sc = some true ∧ k.handleKeyup .bufferedUntilRead sc mods frame =
      { k with pendingReleases := k.pendingReleases ++ [⟨sc, 0, mods⟩] }) ∨
    (k.keyNeedsScan sc ≠ some true ∧ k.handleKeyup .bufferedUntilRead sc mods frame = k.releaseKey sc mods) := by
  unfold handleKeyup
  split
  · next hff => exact Or.inl ⟨hff, rfl⟩
  · show _ ∨ (_ ∧ (if _ then _ else _) = _) ∨ (_ ∧ (if _ then _ else _) = _)
    by_cases hneeds : k.keyNeedsScan sc = some true
    · exact Or.inr (Or.inl ⟨hneeds, if_pos hneeds⟩)
    · exact Or.inr (Or.inr ⟨hneeds, if_neg hneeds⟩)

theorem notifyScanned_needs {k : Keyboard} {line : Fin 16} {sc : CPCScancode} :
    (k.notifyScanned .bufferedUntilRead line).keyNeedsScan sc = some true ↔
      k.keyNeedsScan sc = some true ∧ (bitOf sc).1 ≠ line := by
  show Option.map _ (k.keyNeedsScan sc) = some true ↔ _
  rw [Option.map_eq_some_iff]
  constructor
  · rintro ⟨needs, hneeds, h⟩
    rw [Bool.and_eq_true, bne_iff_ne] at h
    exact ⟨by rw [hneeds, h.1], h.2⟩
  · rintro ⟨hneeds, hline⟩
    exact ⟨true, hneeds, by rw [Bool.true_and, bne_iff_ne]; exact hline⟩

theorem notifyScannedValue_needs {k : Keyboard} {line : Fin 16} {v : UInt8} {sc : CPCScancode} :
    (k.notifyScannedValue .bufferedUntilRead line v).keyNeedsScan sc = some true ↔
      k.keyNeedsScan sc = some true ∧ ((bitOf sc).1 = line → v.toNat.testBit (sc.toUInt8.toNat % 16) = true) := by
  show Option.map _ (k.keyNeedsScan sc) = some true ↔ _
  rw [Option.map_eq_some_iff]
  constructor
  · rintro ⟨needs, hneeds, h⟩
    rw [Bool.and_eq_true, Bool.not_eq_true', Bool.and_eq_false_iff, beq_eq_false_iff_ne, Bool.not_eq_false'] at h
    exact ⟨by rw [hneeds, h.1], fun hline => h.2.resolve_left (fun hne => hne hline)⟩
  · rintro ⟨hneeds, hline⟩
    refine ⟨true, hneeds, ?_⟩
    rw [Bool.true_and, Bool.not_eq_true', Bool.and_eq_false_iff, beq_eq_false_iff_ne, Bool.not_eq_false']
    by_cases hrow : (bitOf sc).1 = line
    · exact Or.inr (hline hrow)
    · exact Or.inl hrow

theorem handleKeyup_needs {k : Keyboard} {sc sc' : CPCScancode} {mods : Bool} (frame : UInt32)
    (h : (k.handleKeyup .bufferedUntilRead sc' mods frame).keyNeedsScan sc = some true) :
    k.keyNeedsScan sc = some true := by
  rcases k.handleKeyup_cases sc' mods frame with ⟨-, hcall⟩ | ⟨-, hcall⟩ | ⟨-, hcall⟩ <;> rw [hcall] at h
  · exact h
  · exact h
  · by_cases hsame : sc = sc'
    · rw [hsame, releaseKey_needs_self] at h
      cases h
    · exact (releaseKey_needs hsame mods).symm.trans h

theorem waits_of_call {k : Keyboard} {c : KeyCall} {sc : CPCScancode} (h : (k.call c).keyNeedsScan sc = some true) :
    k.keyNeedsScan sc = some true ∨ c = .keyDown sc := by
  cases c with
  | keyDown sc' =>
    by_cases hsame : sc = sc'
    · exact .inr (congrArg KeyCall.keyDown hsame.symm)
    · exact .inl ((handleKeydown_needs hsame).symm.trans h)
  | keyUp sc' mods frame => exact .inl (handleKeyup_needs frame h)
  | scanned line => exact .inl (notifyScanned_needs.1 h).1
  | scannedValue line v => exact .inl (notifyScannedValue_needs.1 h).1
  | update frame => exact .inl (needs_of_updateLoop (k := { k with pendingReleases := [] }) h)

end Keyboard

namespace Watched

variable {w : Watched}

theorem due_of_step {c : KeyCall} {key : CPCScancode} (h : (w.step c).due key = true) :
    c.letGo w.due key = true ∧ (w.board.call c).matrix.pressed (bitOf key) = true :=
  Bool.and_eq_true_iff.1 h

theorem seen_step_of_not_seen {c : KeyCall} {b : MatrixBit} (h : w.seen b = false)
    (hobs : c.observes w.board b = false) : (w.step c).seen b = false := by
  show (!c.downs b && (w.seen b || c.observes w.board b)) = false
  rw [h, hobs, Bool.or_false, Bool.and_false]

theorem Sound.keyDown (h : w.Sound) (sc : CPCScancode) : (w.step (.keyDown sc)).Sound where
  pending key hdue := by
    obtain ⟨hlet, -⟩ := due_of_step hdue
    obtain ⟨hold, hne⟩ := Bool.and_eq_true_iff.1 hlet
    obtain ⟨p, hp, rfl⟩ := h.pending key hold
    refine ⟨p, ?_, rfl⟩
    show p ∈ (w.board.handleKeydown .bufferedUntilRead sc).pendingReleases
    unfold Keyboard.handleKeydown
    split
    · exact hp
    · exact List.mem_filter.2 ⟨hp, bne_iff_ne.2 fun heq => bne_iff_ne.1 hne heq.symm⟩
  waiting key hneeds := by
    by_cases hkey : key = sc
    · subst hkey
      by_cases hff : key.toUInt8 = 0xFF
      · have hsame : (w.board.handleKeydown .bufferedUntilRead key) = w.board := if_pos hff
        refine seen_step_of_not_seen (h.waiting key ?_) rfl
        rw [← hsame]
        exact hneeds
      · -- The key itself: its own bit has just gone down.
        show (!KeyCall.downs (bitOf key) (.keyDown key) && _) = false
        have hdown : KeyCall.downs (bitOf key) (.keyDown key) = true := by
          simp only [KeyCall.downs, beq_self_eq_true, Bool.true_or, Bool.and_true]
          exact bne_iff_ne.2 hff
        rw [hdown, Bool.not_true, Bool.false_and]
    · refine seen_step_of_not_seen (h.waiting key ?_) rfl
      rw [← Keyboard.handleKeydown_needs hkey]
      exact hneeds

theorem Sound.keyUp (h : w.Sound) (sc : CPCScancode) (mods : Bool) (frame : UInt32) :
    (w.step (.keyUp sc mods frame)).Sound where
  pending key hdue := by
    obtain ⟨hlet, hpressed⟩ := due_of_step hdue
    change (w.board.handleKeyup .bufferedUntilRead sc mods frame).matrix.pressed (bitOf key) = true at hpressed
    show ∃ p ∈ (w.board.handleKeyup .bufferedUntilRead sc mods frame).pendingReleases, _
    rcases Bool.or_eq_true_iff.1 hlet with hold | hup
    · -- It was due before, and no pending release goes away.
      obtain ⟨p, hp, hkey⟩ := h.pending key hold
      refine ⟨p, ?_, hkey⟩
      rcases w.board.handleKeyup_cases sc mods frame with ⟨-, hcall⟩ | ⟨-, hcall⟩ | ⟨-, hcall⟩ <;> rw [hcall]
      · exact hp
      · exact List.mem_append_left _ hp
      · exact hp
    · obtain ⟨hsame, hkey⟩ := Bool.and_eq_true_iff.1 hup
      obtain rfl : sc = key := eq_of_beq hsame
      rcases w.board.handleKeyup_cases sc mods frame with ⟨hff, -⟩ | ⟨-, hcall⟩ | ⟨-, hcall⟩
      · exact absurd hff (bne_iff_ne.1 hkey)
      · rw [hcall]
        exact ⟨_, List.mem_append_right _ List.mem_cons_self, rfl⟩
      · -- The key that was let go has been released, and its bit is up.
        rw [hcall, Keyboard.releaseKey, Matrix.pressed_applyUp_self] at hpressed
        cases hpressed
  waiting key hneeds := seen_step_of_not_seen (h.waiting key (Keyboard.handleKeyup_needs frame hneeds)) rfl

theorem Sound.scanned (h : w.Sound) (line : Fin 16) : (w.step (.scanned line)).Sound where
  pending key hdue := h.pending key (due_of_step hdue).1
  waiting key hneeds := by
    obtain ⟨hold, hline⟩ := Keyboard.notifyScanned_needs.1 hneeds
    refine seen_step_of_not_seen (h.waiting key hold) ?_
    exact Bool.and_eq_false_iff.2 (Or.inl (beq_eq_false_iff_ne.2 hline.symm))

theorem Sound.scannedValue (h : w.Sound) (line : Fin 16) (v : UInt8) : (w.step (.scannedValue line v)).Sound where
  pending key hdue := h.pending key (due_of_step hdue).1
  waiting key hneeds := by
    obtain ⟨hold, hline⟩ := Keyboard.notifyScannedValue_needs.1 hneeds
    refine seen_step_of_not_seen (h.waiting key hold) (Bool.eq_false_iff.2 fun hobs => ?_)
    obtain ⟨hrow, hclear⟩ := Bool.and_eq_true_iff.1 hobs
    have hset := hline (eq_of_beq hrow).symm
    rw [testBit_of_observed hclear] at hset
    cases hset

theorem Sound.update (h : w.Sound) (frame : UInt32) : (w.step (.update frame)).Sound where
  pending key hdue := by
    obtain ⟨hlet, hpressed⟩ := due_of_step hdue
    obtain ⟨p, hp, rfl⟩ := h.pending key hlet
    refine ⟨p, (Keyboard.updateLoop_mem hp).resolve_right fun hup => ?_, rfl⟩
    exact absurd hpressed (Bool.eq_false_iff.1 hup)
  waiting key hneeds := seen_step_of_not_seen
    (h.waiting key (Keyboard.needs_of_updateLoop (k := { w.board with pendingReleases := [] }) hneeds)) rfl

theorem Sound.step (h : w.Sound) (c : KeyCall) : (w.step c).Sound := by
  cases c with
  | keyDown sc => exact h.keyDown sc
  | keyUp sc mods frame => exact h.keyUp sc mods frame
  | scanned line => exact h.scanned line
  | scannedValue line v => exact h.scannedValue line v
  | update frame => exact h.update frame

theorem Sound.due_update (h : w.Sound) (frame : UInt32) {key : CPCScancode} (hseen : w.seen (bitOf key) = true) :
    (w.step (.update frame)).due key = false := by
  refine Bool.eq_false_iff.2 fun hdue => ?_
  obtain ⟨hlet, hpressed⟩ := due_of_step hdue
  obtain ⟨p, hp, rfl⟩ := h.pending key hlet
  have hneeds : w.board.keyNeedsScan p.scancode ≠ some true := fun hneeds => by
    rw [h.waiting _ hneeds] at hseen
    cases hseen
  exact Bool.eq_false_iff.1 (Keyboard.updateLoop_released (k := { w.board with pendingReleases := [] }) hp hneeds) hpressed

theorem Held.step (h : w.Held) {c : KeyCall} (hfits : CallFits w c) : (w.step c).Held := by
  intro b hshift hctrl hunseen
  cases c with
  | keyDown sc =>
    by_cases hff : sc.toUInt8 = 0xFF
    · -- No key at all.
      have hdown : KeyCall.downs b (.keyDown sc) = false := by
        simp only [KeyCall.downs, hff, bne_self_eq_false, Bool.false_and]
      have hsame : w.board.handleKeydown .bufferedUntilRead sc = w.board := if_pos hff
      show (w.board.handleKeydown .bufferedUntilRead sc).matrix.pressed b = true ∧
        ∃ sc', _ ∧ _ ∧ (w.board.handleKeydown .bufferedUntilRead sc).keyNeedsScan sc' = some true
      rw [hsame]
      exact h b hshift hctrl (seen_of_step hdown hunseen).1
    have hpressed : (w.board.handleKeydown .bufferedUntilRead sc).matrix.pressed b =
        if bitOf sc = b then true else w.board.matrix.pressed b := by
      rw [Keyboard.handleKeydown, if_neg hff]
      exact Matrix.pressed_applyDown _ sc hshift hctrl false
    by_cases hbit : bitOf sc = b
    · rw [if_pos hbit] at hpressed
      exact ⟨hpressed, sc, hbit, hfits, Keyboard.handleKeydown_needs_self hff⟩
    · rw [if_neg hbit] at hpressed
      have hdown : KeyCall.downs b (.keyDown sc) = false := by
        simp only [KeyCall.downs, beq_eq_false_iff_ne.2 hbit, beq_eq_false_iff_ne.2 hshift,
          beq_eq_false_iff_ne.2 hctrl, Bool.and_false, Bool.or_false]
      obtain ⟨hold, sc', hsc', hlow, hneeds⟩ := h b hshift hctrl (seen_of_step hdown hunseen).1
      refine ⟨hpressed.trans hold, sc', hsc', hlow, ?_⟩
      have hne : sc' ≠ sc := fun heq => hbit (heq ▸ hsc')
      exact (Keyboard.handleKeydown_needs hne).trans hneeds
  | keyUp sc mods frame =>
    obtain ⟨hold, sc', hsc', hlow, hneeds'⟩ := h b hshift hctrl (seen_of_step rfl hunseen).1
    show (w.board.handleKeyup .bufferedUntilRead sc mods frame).matrix.pressed b = true ∧
      ∃ sc', _ ∧ _ ∧ (w.board.handleKeyup .bufferedUntilRead sc mods frame).keyNeedsScan sc' = some true
    rcases w.board.handleKeyup_cases sc mods frame with ⟨-, hcall⟩ | ⟨-, hcall⟩ | ⟨hneeds, hcall⟩
    · rw [hcall]
      exact ⟨hold, sc', hsc', hlow, hneeds'⟩
    · rw [hcall]
      exact ⟨hold, sc', hsc', hlow, hneeds'⟩
    · -- The key that is released is another one, and since it is alone on its bit, on another bit.
      have hne : sc' ≠ sc := fun heq => hneeds (heq ▸ hneeds')
      have hbit : bitOf sc ≠ b := fun heq => hfits hneeds sc' hne (hsc'.trans heq.symm) hneeds'
      rw [hcall]
      refine ⟨?_, sc', hsc', hlow, (Keyboard.releaseKey_needs hne mods).trans hneeds'⟩
      exact (Matrix.pressed_applyUp_of_ne _ mods hbit hshift hctrl).trans hold
  | scanned line =>
    obtain ⟨hold, hobs⟩ := seen_of_step rfl hunseen
    obtain ⟨hpressed, sc', hsc', hlow, hneeds⟩ := h b hshift hctrl hold
    refine ⟨hpressed, sc', hsc', hlow, Keyboard.notifyScanned_needs.2 ⟨hneeds, fun hline => ?_⟩⟩
    have hobs' : (line == b.1 && w.board.matrix.pressed b) = false := hobs
    rw [hpressed, Bool.and_true, ← hsc', hline, beq_self_eq_true] at hobs'
    cases hobs'
  | scannedValue line v =>
    obtain ⟨hold, hobs⟩ := seen_of_step rfl hunseen
    obtain ⟨hpressed, sc', hsc', hlow, hneeds⟩ := h b hshift hctrl hold
    refine ⟨hpressed, sc', hsc', hlow, Keyboard.notifyScannedValue_needs.2 ⟨hneeds, fun hline => ?_⟩⟩
    have hobs' : (line == b.1 && v &&& bitValue b.2 == 0) = false := hobs
    have hcol : ((bitOf sc').2 : Nat) = sc'.toUInt8.toNat % 16 := by
      show sc'.toUInt8.toNat % 8 = _
      omega
    rw [← hsc', hline, beq_self_eq_true, Bool.true_and, Matrix.and_bitValue, Bool.not_eq_false', hcol] at hobs'
    exact hobs'
  | update frame =>
    obtain ⟨hold, sc', hsc', hlow, hneeds⟩ := h b hshift hctrl (seen_of_step rfl hunseen).1
    have hother : ∀ p ∈ w.board.pendingReleases, w.board.keyNeedsScan p.scancode ≠ some true →
        bitOf p.scancode ≠ b := by
      intro p hp hdue heq
      have hne : sc' ≠ p.scancode := fun hsame => hdue (hsame ▸ hneeds)
      exact hfits p hp hdue sc' hne (hsc'.trans heq.symm) hneeds
    refine ⟨?_, sc', hsc', hlow, Keyboard.updateLoop_needs hneeds⟩
    exact (Keyboard.updateLoop_pressed (k := { w.board with pendingReleases := [] }) hshift hctrl hother).trans hold

theorem run_sound (m : Matrix) (calls : List KeyCall) : (run { board := { matrix := m } } calls).Sound := by
  have hstart : Sound { board := { matrix := m } } :=
    ⟨fun _ hdue => absurd hdue Bool.false_ne_true, fun _ hneeds => absurd hneeds (Option.some_ne_none _).symm⟩
  exact run_of_steps (fun _ c h => h.step c) hstart calls

theorem run_held {w : Watched} (h : w.Held) {calls : List KeyCall} (hfits : AllOk Watched.step CallFits w calls) :
    (w.run calls).Held := by
  induction calls generalizing w with
  | nil => exact h
  | cons c calls ih => exact ih (h.step hfits.1) hfits.2

end Watched

/-! ## The claimed properties -/

/-- A bit goes up only after it was seen: over a run from a matrix, no event takes it from pressed to
    released that does not find it seen. -/
def SeenBeforeUp (m : Matrix) (calls : List KeyCall) (b : MatrixBit) : Prop :=
  ∀ before c after, calls = before ++ c :: after →
    (Watched.run { board := { matrix := m } } before).board.matrix.pressed b = true →
    (Watched.run { board := { matrix := m } } (before ++ [c])).board.matrix.pressed b = false →
    (Watched.run { board := { matrix := m } } before).seen b = true

/-- A key that was let go is up by the first update after its bit was seen. -/
def UpAfterSeen (m : Matrix) (calls : List KeyCall) (key : CPCScancode) : Prop :=
  ∀ before frame after, calls = before ++ .update frame :: after →
    (Watched.run { board := { matrix := m } } before).seen (bitOf key) = true →
    (Watched.run { board := { matrix := m } } (before ++ [.update frame])).due key = false

theorem Watched.run_snoc (w : Watched) (calls : List KeyCall) (c : KeyCall) :
    w.run (calls ++ [c]) = (w.run calls).step c := List.foldl_concat ..

theorem call_pressed {k : Keyboard} {b : MatrixBit} (hshift : b ≠ shiftBit) (hctrl : b ≠ controlBit)
    (h : k.matrix.pressed b = true) {c : KeyCall} (hup : (k.call c).matrix.pressed b = false) :
    ∃ sc mods frame, c = .keyUp sc mods frame ∨ c = .update frame := by
  cases c with
  | keyDown sc =>
    have hup' : (k.handleKeydown .bufferedUntilRead sc).matrix.pressed b = false := hup
    unfold Keyboard.handleKeydown at hup'
    split at hup'
    · rw [h] at hup'
      cases hup'
    · rw [Matrix.pressed_applyDown _ sc hshift hctrl, h, ite_self] at hup'
      cases hup'
  | keyUp sc mods frame => exact ⟨sc, mods, frame, Or.inl rfl⟩
  | scanned line => exact absurd (h.symm.trans hup) Bool.noConfusion
  | scannedValue line v => exact absurd (h.symm.trans hup) Bool.noConfusion
  | update frame => exact ⟨0, false, frame, Or.inr rfl⟩

/-- Over every run of events, from any matrix: no bit but those of SHIFT and CONTROL goes up before a scan
    has seen it since its last key down, where the scancodes that go down name one of the eight bits and
    none is released over another of its bit that waits for its scan; and every key that was let go is up
    by the first update after such a scan. -/
theorem buffered_keeps_keys (m : Matrix) (calls : List KeyCall) :
    (AllOk Watched.step CallFits { board := { matrix := m } } calls →
      ∀ b, b ≠ shiftBit → b ≠ controlBit → SeenBeforeUp m calls b) ∧
    ∀ key, UpAfterSeen m calls key := by
  constructor
  · intro hfits b hshift hctrl before c after hcalls hpressed hup
    rw [hcalls, allOk_append] at hfits
    have hstart : Watched.Held { board := { matrix := m } } := fun _ _ _ hunseen => by cases hunseen
    have hbefore := Watched.run_held hstart hfits.1
    rw [Watched.run_snoc] at hup
    by_contra hunseen
    obtain ⟨sc, mods, frame, hc⟩ := call_pressed hshift hctrl hpressed hup
    have hobs : c.observes (Watched.run { board := { matrix := m } } before).board b = false := by
      rcases hc with rfl | rfl <;> rfl
    have hafter := hbefore.step hfits.2.1 b hshift hctrl
      (Watched.seen_step_of_not_seen (Bool.eq_false_iff.2 hunseen) hobs)
    exact Bool.eq_false_iff.1 hup hafter.1
  · intro key before frame after _ hseen
    rw [Watched.run_snoc]
    exact (Watched.run_sound m before).due_update frame hseen

theorem down_of_waits {w : Watched} {calls : List KeyCall} {sc : CPCScancode}
    (h : (w.run calls).board.keyNeedsScan sc = some true) :
    w.board.keyNeedsScan sc = some true ∨ KeyCall.keyDown sc ∈ calls := by
  induction calls generalizing w with
  | nil => exact .inl h
  | cons c calls ih =>
    rcases ih h with hstep | hmem
    · refine (Keyboard.waits_of_call hstep).imp_right fun hc => ?_
      rw [hc]
      exact List.mem_cons_self
    · exact .inr (List.mem_cons_of_mem c hmem)

/-- A letter and a shifted digit, both let go before their rows are scanned. -/
def typedKeys : List KeyCall :=
  [.keyDown 0x66, .keyUp 0x66 false 1, .keyDown 0x185, .update 1, .scanned ⟨6, by decide⟩, .update 2,
    .keyUp 0x185 true 3, .scannedValue ⟨8, by decide⟩ 0xDF, .update 4]

theorem typedKeys_downs : ∀ sc, KeyCall.keyDown sc ∈ typedKeys → sc = 0x66 ∨ sc = 0x185 := by
  intro sc hmem
  simpa [typedKeys] using hmem

theorem typedKeys_alone {calls : List KeyCall} (hcalls : ∀ sc, KeyCall.keyDown sc ∈ calls → sc = 0x66 ∨ sc = 0x185)
    {sc : CPCScancode} (hsc : sc = 0x66 ∨ sc = 0x185) :
    (Watched.run { board := { matrix := fun _ => 0xFF } } calls).board.Alone sc := by
  intro sc' hne hbit hwaits
  rcases down_of_waits hwaits with hstart | hmem
  · cases hstart
  · rcases hsc with rfl | rfl <;> rcases hcalls sc' hmem with rfl | rfl
    · exact hne rfl
    · exact absurd hbit (by decide)
    · exact absurd hbit (by decide)
    · exact hne rfl

/-- The two keys are up at the end, and no bit but those of SHIFT and CONTROL went up unseen. -/
theorem buffered_keeps_typed :
    (∀ b, b ≠ shiftBit → b ≠ controlBit → SeenBeforeUp (fun _ => 0xFF) typedKeys b) ∧
      (Watched.run { board := { matrix := fun _ => 0xFF } } typedKeys).board.matrix.pressed (bitOf 0x66) = false := by
  have hup (n : Nat) {sc : CPCScancode} (hsc : sc = 0x66 ∨ sc = 0x185) :
      (Watched.run { board := { matrix := fun _ => 0xFF } } (typedKeys.take n)).board.Alone sc :=
    typedKeys_alone (fun sc' hmem => typedKeys_downs sc' (List.mem_of_mem_take hmem)) hsc
  have hpending : ∀ n < 9, ∀ p ∈ (Watched.run { board := { matrix := fun _ => 0xFF } } (typedKeys.take n)).board.pendingReleases,
      p.scancode = 0x66 ∨ p.scancode = 0x185 := by decide
  have hbits : (0x66 : CPCScancode).toUInt8.toNat % 16 < 8 ∧ (0x185 : CPCScancode).toUInt8.toNat % 16 < 8 := by decide
  refine ⟨(buffered_keeps_keys (fun _ => 0xFF) typedKeys).1 ?_, by decide⟩
  exact ⟨hbits.1, fun _ => hup 1 (.inl rfl), hbits.2, fun p hp _ => hup 3 (hpending 3 (by decide) p hp), trivial,
    fun p hp _ => hup 5 (hpending 5 (by decide) p hp), fun _ => hup 6 (.inr rfl), trivial,
    fun p hp _ => hup 8 (hpending 8 (by decide) p hp), trivial⟩

/-- A shifted key goes down and then an unshifted one: the line of SHIFT goes up unseen. -/
theorem shift_goes_up_unseen :
    ¬ ∀ b, SeenBeforeUp (fun _ => 0xFF) [.keyDown 0x185, .keyDown 0x66] b := by
  intro h
  have hseen := h shiftBit [.keyDown 0x185] (.keyDown 0x66) [] rfl (by decide) (by decide)
  revert hseen
  decide

end Koncepcja.Input
