import Mathlib.Data.Nat.Bits
import Mathlib.Tactic.IntervalCases

/-!
# Start-Stop Serial Lines

A byte on an asynchronous line is ten bits: a start bit of zero, the byte with its lowest bit first,
and a stop bit of one, each held for `bt` ticks. A transmitter shifts them out; a receiver waits for
the falling edge, samples in the middle of each bit and reports the byte at the stop bit.

Here the receiver hears at each tick the level the transmitter drove at the tick before. `Line` is
the invariant of the two engines so joined: the receiver's state follows from the tick of the frame
that is on the line.

## Main results

- `Transmitter.advance_sends`: a transmitter drives each bit for `bt` ticks.
- `Receiver.advance_hears`: a receiver follows a frame, and reports its byte in the stop bit.
- `Line.advance`: the joined engines neither lose nor make up a byte.
-/

namespace Koncepcja.StartStop

set_option maxRecDepth 20000

/-! ## Frames -/

/-- The ten bits of a byte on the line, the first one lowest. -/
def frame (b : UInt8) : Nat := (b.toNat <<< 1) ||| 0x200

/-- Bit `k` of a frame. -/
def frameBit (b : UInt8) (k : Nat) : Bool := (frame b).testBit k

@[simp] theorem frameBit_zero (b : UInt8) : frameBit b 0 = false := by
  simp [frameBit, frame]

theorem frameBit_nine (b : UInt8) : frameBit b 9 = true := by
  have hstop : (0x200 : Nat).testBit 9 = true := by decide
  rw [frameBit, frame, Nat.testBit_or, hstop, Bool.or_true]

/-! ## Transmitters -/

/-- A transmitter: the bits still to send, how many, the ticks of the current one, and the level. -/
structure Transmitter where
  shift : Nat := 0
  bitsLeft : Nat := 0
  cycle : Nat := 0
  level : Bool := true
  deriving DecidableEq, Repr

/-- Take a byte to send. -/
def Transmitter.load (tx : Transmitter) (b : UInt8) : Transmitter :=
  { tx with shift := frame b, bitsLeft := 10, cycle := 0 }

/-- One tick of the bit on the line; the last one leaves it at mark. -/
def Transmitter.shiftOut (bt : Nat) (tx : Transmitter) : Transmitter :=
  if bt ≤ tx.cycle + 1 then
    { shift := tx.shift >>> 1
      bitsLeft := tx.bitsLeft - 1
      cycle := 0
      level := if tx.bitsLeft - 1 = 0 then true else tx.shift.testBit 0 }
  else { tx with level := tx.shift.testBit 0, cycle := tx.cycle + 1 }

/-- One tick of a transmitter with `next` waiting. -/
def Transmitter.advance (bt : Nat) (next : Option UInt8) (tx : Transmitter) : Transmitter :=
  if tx.bitsLeft = 0 then
    match next with
    | none => { tx with level := true }
    | some b => (tx.load b).shiftOut bt
  else tx.shiftOut bt

theorem Transmitter.advance_of_busy {bt : Nat} {tx : Transmitter} (h : ¬ tx.bitsLeft = 0) (next : Option UInt8) :
    tx.advance bt next = tx.shiftOut bt := if_neg h

theorem Transmitter.advance_some {bt : Nat} {tx : Transmitter} (h : tx.bitsLeft = 0) (b : UInt8) :
    tx.advance bt (some b) = (tx.load b).shiftOut bt := if_pos h

theorem Transmitter.advance_none {bt : Nat} {tx : Transmitter} (h : tx.bitsLeft = 0) :
    tx.advance bt none = { tx with level := true } := if_pos h

/-- What a tick takes of what is waiting. -/
def Transmitter.takes (next : Option UInt8) (tx : Transmitter) : Option UInt8 :=
  if tx.bitsLeft = 0 then next else none

/-- The ticks a transmitter still needs for the byte on the line. -/
def Transmitter.left (bt : Nat) (tx : Transmitter) : Nat := tx.bitsLeft * bt - tx.cycle

/-! ## Receivers -/

/-- Where a receiver is in a frame. -/
inductive Phase where
  | idle
  | start
  | data
  | stop
  deriving DecidableEq, Repr

/-- A receiver: its phase, the bits sampled so far and how many, the ticks since, and the last level. -/
structure Receiver where
  phase : Phase := .idle
  shift : UInt8 := 0
  bits : Nat := 0
  cycle : Nat := 0
  prev : Bool := true
  deriving DecidableEq, Repr

/-- What a receiver reports at a tick. -/
inductive Event where
  | none
  | byte (b : UInt8)
  | framingError
  deriving DecidableEq, Repr

/-- The byte a receiver reports, if it reports one. -/
def Event.bytes : Event → List UInt8
  | .byte b => [b]
  | _ => []

/-- One data bit into the shift register. -/
def shiftIn (shift : UInt8) (line : Bool) : UInt8 := shift >>> 1 ||| (if line then 0x80 else 0)

/-- One tick of a receiver. -/
def Receiver.advance (bt : Nat) (line : Bool) (rx : Receiver) : Receiver × Event :=
  match rx.phase with
  | .idle =>
    if rx.prev ∧ ¬ line then ({ rx with phase := .start, cycle := 0, prev := line }, .none)
    else ({ rx with prev := line }, .none)
  | .start =>
    if bt / 2 ≤ rx.cycle + 1 then
      if line then ({ rx with phase := .idle, cycle := rx.cycle + 1, prev := line }, .none)
      else ({ phase := .data, cycle := 0, shift := 0, bits := 0, prev := line }, .none)
    else ({ rx with cycle := rx.cycle + 1, prev := line }, .none)
  | .data =>
    if bt ≤ rx.cycle + 1 then
      ({ phase := if rx.bits + 1 = 8 then .stop else .data
         cycle := 0
         shift := shiftIn rx.shift line
         bits := rx.bits + 1
         prev := line }, .none)
    else ({ rx with cycle := rx.cycle + 1, prev := line }, .none)
  | .stop =>
    if bt ≤ rx.cycle + 1 then
      ({ rx with phase := .idle, cycle := 0, prev := line }, if line then .byte rx.shift else .framingError)
    else ({ rx with cycle := rx.cycle + 1, prev := line }, .none)

/-! ## A transmitter on a frame -/

/-- The transmitter has sent `k` bits of `b` and `c` ticks of the next one. -/
structure Transmitter.At (bt : Nat) (b : UInt8) (k c : Nat) (tx : Transmitter) : Prop where
  shift : tx.shift = frame b >>> k
  bitsLeft : tx.bitsLeft = 10 - k
  cycle : tx.cycle = c
  bit : k < 10
  tick : c < bt

theorem Transmitter.at_load (bt : Nat) (hbt : 0 < bt) (tx : Transmitter) (b : UInt8) : (tx.load b).At bt b 0 0 :=
  ⟨rfl, rfl, rfl, by decide, hbt⟩

section Transmitter

variable {bt k c : Nat} {b : UInt8} {tx : Transmitter}

theorem Transmitter.At.testBit (h : tx.At bt b k c) : tx.shift.testBit 0 = frameBit b k := by
  rw [h.shift, frameBit, Nat.testBit_shiftRight, Nat.add_zero]

theorem Transmitter.At.shiftOut_tick (h : tx.At bt b k c) (hc : c + 1 < bt) :
    (tx.shiftOut bt).level = frameBit b k ∧ (tx.shiftOut bt).At bt b k (c + 1) := by
  rw [Transmitter.shiftOut, if_neg (by rw [h.cycle]; omega)]
  exact ⟨h.testBit, h.shift, h.bitsLeft, congrArg (· + 1) h.cycle, h.bit, hc⟩

theorem Transmitter.At.shiftOut_bit (h : tx.At bt b k c) (hc : c + 1 = bt) (hk : k < 9) :
    (tx.shiftOut bt).level = frameBit b k ∧ (tx.shiftOut bt).At bt b (k + 1) 0 := by
  have hleft := h.bitsLeft
  rw [Transmitter.shiftOut, if_pos (by rw [h.cycle]; omega)]
  refine ⟨?_, ?_, ?_, rfl, by omega, by omega⟩
  · change (if tx.bitsLeft - 1 = 0 then true else tx.shift.testBit 0) = _
    rw [if_neg (by omega), h.testBit]
  · change tx.shift >>> 1 = frame b >>> (k + 1)
    rw [h.shift, Nat.shiftRight_add]
  · change tx.bitsLeft - 1 = 10 - (k + 1)
    omega

theorem Transmitter.At.shiftOut_last (h : tx.At bt b 9 c) (hc : c + 1 = bt) :
    (tx.shiftOut bt).level = true ∧ (tx.shiftOut bt).bitsLeft = 0 := by
  have hleft := h.bitsLeft
  rw [Transmitter.shiftOut, if_pos (by rw [h.cycle]; omega)]
  refine ⟨?_, ?_⟩
  · change (if tx.bitsLeft - 1 = 0 then true else _) = true
    rw [if_pos (by omega)]
  · change tx.bitsLeft - 1 = 0
    omega

end Transmitter

/-! ## A receiver on a frame -/

/-- The first `k` bits of a byte in a shift register that had been clear. -/
def sampled (b : UInt8) (k : Nat) : UInt8 := UInt8.ofNat (b.toNat <<< (8 - k))

theorem sampled_zero (b : UInt8) : sampled b 0 = 0 := by
  rw [sampled, ← UInt8.toNat_inj, UInt8.toNat_ofNat', Nat.shiftLeft_eq]
  change b.toNat * 256 % 256 = 0
  omega

theorem sampled_eight (b : UInt8) : sampled b 8 = b := by
  rw [sampled, Nat.sub_self, Nat.shiftLeft_zero, UInt8.ofNat_toNat]

theorem frameBit_succ (b : UInt8) {k : Nat} (hk : k < 8) : frameBit b (k + 1) = b.toNat.testBit k := by
  have hstop : Nat.testBit 0x200 (k + 1) = false := by
    rw [show (0x200 : Nat) = 2 ^ 9 from rfl, Nat.testBit_two_pow]
    exact decide_eq_false (by omega)
  rw [frameBit, frame, Nat.testBit_or, hstop, Bool.or_false, Nat.testBit_shiftLeft, Nat.add_sub_cancel]
  simp

theorem testBit_sampled (b : UInt8) {k i : Nat} (hi : i < 8) :
    (sampled b k).toNat.testBit i = (decide (8 - k ≤ i) && b.toNat.testBit (i - (8 - k))) := by
  rw [sampled, UInt8.toNat_ofNat', Nat.testBit_mod_two_pow, decide_eq_true hi, Bool.true_and, Nat.testBit_shiftLeft]

theorem testBit_shiftIn (shift : UInt8) (line : Bool) (i : Nat) :
    (shiftIn shift line).toNat.testBit i = if i = 7 then line else shift.toNat.testBit (i + 1) := by
  have htop : shift.toNat.testBit 8 = false := Nat.testBit_lt_two_pow shift.toNat_lt
  have hline : (if line then 0x80 else 0 : UInt8).toNat.testBit i = (line && decide (i = 7)) := by
    cases line with
    | false => exact Nat.zero_testBit i
    | true =>
      change Nat.testBit (2 ^ 7) i = _
      rw [Nat.testBit_two_pow, Bool.true_and, decide_eq_decide]
      exact eq_comm
  rw [shiftIn, UInt8.toNat_or, Nat.testBit_or, hline, UInt8.toNat_shiftRight]
  change ((shift.toNat >>> 1).testBit i || _) = _
  rw [Nat.testBit_shiftRight, Nat.add_comm 1]
  by_cases h7 : i = 7
  · rw [if_pos h7, h7, htop, Bool.false_or, decide_eq_true rfl, Bool.and_true]
  · rw [if_neg h7, decide_eq_false h7, Bool.and_false, Bool.or_false]

theorem shiftIn_sampled (b : UInt8) {k : Nat} (hk : k < 8) :
    shiftIn (sampled b k) (frameBit b (k + 1)) = sampled b (k + 1) := by
  apply UInt8.toNat_inj.mp
  apply Nat.eq_of_testBit_eq
  intro i
  by_cases hi : i < 8
  · rw [testBit_shiftIn, testBit_sampled b hi, frameBit_succ b hk]
    by_cases h7 : i = 7
    · have hlast : i - (8 - (k + 1)) = k := by omega
      rw [if_pos h7, hlast, decide_eq_true (by omega), Bool.true_and]
    · have hsame : i + 1 - (8 - k) = i - (8 - (k + 1)) := by omega
      have hreached : 8 - k ≤ i + 1 ↔ 8 - (k + 1) ≤ i := by omega
      rw [if_neg h7, testBit_sampled b (by omega), hsame, decide_eq_decide.mpr hreached]
  · have hlong (v : UInt8) : v.toNat.testBit i = false :=
      Nat.testBit_lt_two_pow (Nat.lt_of_lt_of_le v.toNat_lt (Nat.pow_le_pow_right (by decide) (Nat.not_lt.mp hi)))
    rw [hlong, hlong]

/-- The receiver has heard the frame of `b` up to tick `c` of bit `k`, not included. Bit `k` is sampled
    at tick `bt / 2`. -/
inductive Receiver.Hears (bt : Nat) (b : UInt8) : Nat → Nat → Receiver → Prop where
  | edge {rx : Receiver} : rx.phase = .idle → rx.prev = true → Hears bt b 0 0 rx
  | start {rx : Receiver} {c : Nat} : rx.phase = .start → rx.cycle + 1 = c → c ≤ bt / 2 → Hears bt b 0 c rx
  | before {rx : Receiver} {k c : Nat} : k < 8 → rx.phase = .data → rx.bits = k → rx.shift = sampled b k →
      rx.cycle + 1 + bt / 2 = bt + c → c ≤ bt / 2 → Hears bt b (k + 1) c rx
  | after {rx : Receiver} {k c : Nat} : k < 8 → rx.phase = .data → rx.bits = k → rx.shift = sampled b k →
      rx.cycle + 1 + bt / 2 = c → c < bt → Hears bt b k c rx
  | stopAfter {rx : Receiver} {c : Nat} : rx.phase = .stop → rx.shift = b → rx.cycle + 1 + bt / 2 = c → c < bt →
      Hears bt b 8 c rx
  | stopBefore {rx : Receiver} {c : Nat} : rx.phase = .stop → rx.shift = b → rx.cycle + 1 + bt / 2 = bt + c →
      c ≤ bt / 2 → Hears bt b 9 c rx
  | done {rx : Receiver} {c : Nat} : rx.phase = .idle → rx.prev = true → bt / 2 < c → Hears bt b 9 c rx

/-- The tick after tick `c` of bit `k`. -/
def nextTick (bt k c : Nat) : Nat × Nat := if c + 1 < bt then (k, c + 1) else (k + 1, 0)

theorem nextTick_of_lt {bt k c : Nat} (h : c + 1 < bt) : nextTick bt k c = (k, c + 1) := if_pos h

theorem nextTick_of_eq {bt k c : Nat} (h : c + 1 = bt) : nextTick bt k c = (k + 1, 0) := if_neg (by omega)

section Receiver

variable {bt : Nat} {b : UInt8}

private theorem Receiver.advance_sample {rx : Receiver} {line : Bool} (hphase : rx.phase = .data)
    (hc : bt ≤ rx.cycle + 1) : rx.advance bt line =
      ({ phase := if rx.bits + 1 = 8 then .stop else .data
         cycle := 0
         shift := shiftIn rx.shift line
         bits := rx.bits + 1
         prev := line }, .none) := by
  rw [Receiver.advance, hphase]
  exact if_pos hc

private theorem Receiver.advance_wait {rx : Receiver} {line : Bool} (hphase : rx.phase = .data ∨ rx.phase = .stop)
    (hc : rx.cycle + 1 < bt) : rx.advance bt line = ({ rx with cycle := rx.cycle + 1, prev := line }, .none) := by
  rw [Receiver.advance]
  rcases hphase with h | h <;> rw [h] <;> exact if_neg (by omega)

theorem Receiver.advance_mark (bt : Nat) {rx : Receiver} (hphase : rx.phase = .idle) :
    (rx.advance bt true).1.phase = .idle ∧ (rx.advance bt true).1.prev = true ∧ (rx.advance bt true).2 = .none := by
  rw [Receiver.advance, hphase]
  dsimp only
  rw [if_neg (by simp)]
  exact ⟨rfl, rfl, rfl⟩

/-- The receiver hears one more tick of a frame. It reports the byte in the middle of the stop bit, and
    nothing at any other tick. -/
theorem Receiver.Hears.advance (hbt : 4 ≤ bt) {k c : Nat} {rx : Receiver} (h : rx.Hears bt b k c)
    (hlast : k = 9 → c + 1 < bt) :
    (rx.advance bt (frameBit b k)).1.Hears bt b (nextTick bt k c).1 (nextTick bt k c).2 ∧
    (rx.advance bt (frameBit b k)).2 = if k = 9 ∧ c = bt / 2 then .byte b else .none := by
  cases h with
  | edge hphase hprev =>
    rw [Receiver.advance, hphase, frameBit_zero, nextTick_of_lt (by omega)]
    dsimp only
    rw [hprev, if_pos (by simp), if_neg (by omega)]
    exact ⟨.start rfl rfl (by omega), rfl⟩
  | start hphase hcycle hc =>
    rw [Receiver.advance, hphase, frameBit_zero, nextTick_of_lt (by omega),
      if_neg (show ¬ (0 = 9 ∧ c = bt / 2) by omega)]
    dsimp only
    by_cases hmid : bt / 2 ≤ rx.cycle + 1
    · rw [if_pos hmid, if_neg Bool.false_ne_true]
      exact ⟨.after (by decide) rfl rfl (sampled_zero b).symm (show 0 + 1 + bt / 2 = _ by omega) (by omega), rfl⟩
    · rw [if_neg hmid]
      exact ⟨.start rfl (show rx.cycle + 1 + 1 = _ by omega) (by omega), rfl⟩
  | @before _ j _ hj hphase hbits hshift hcycle hc =>
    rw [if_neg (by omega), nextTick_of_lt (by omega)]
    by_cases hmid : bt ≤ rx.cycle + 1
    · rw [Receiver.advance_sample hphase hmid, hshift, shiftIn_sampled b hj, hbits]
      refine ⟨?_, rfl⟩
      by_cases hall : j + 1 = 8
      · -- the eighth data bit: what is left is the stop bit
        rw [if_pos hall, hall, sampled_eight]
        exact .stopAfter rfl rfl (show 0 + 1 + bt / 2 = _ by omega) (by omega)
      · rw [if_neg hall]
        exact .after (by omega) rfl rfl rfl (show 0 + 1 + bt / 2 = _ by omega) (by omega)
    · rw [Receiver.advance_wait (.inl hphase) (by omega)]
      exact ⟨.before hj hphase hbits hshift (show rx.cycle + 1 + 1 + bt / 2 = _ by omega) (by omega), rfl⟩
  | after hk hphase hbits hshift hcycle hc =>
    rw [if_neg (by omega), Receiver.advance_wait (.inl hphase) (by omega)]
    refine ⟨?_, rfl⟩
    by_cases hend : c + 1 < bt
    · rw [nextTick_of_lt hend]
      exact .after hk hphase hbits hshift (show rx.cycle + 1 + 1 + bt / 2 = _ by omega) hend
    · rw [nextTick_of_eq (by omega)]
      exact .before hk hphase hbits hshift (show rx.cycle + 1 + 1 + bt / 2 = _ by omega) (by omega)
  | stopAfter hphase hshift hcycle hc =>
    rw [if_neg (by omega), Receiver.advance_wait (.inr hphase) (by omega)]
    refine ⟨?_, rfl⟩
    by_cases hend : c + 1 < bt
    · rw [nextTick_of_lt hend]
      exact .stopAfter hphase hshift (show rx.cycle + 1 + 1 + bt / 2 = _ by omega) hend
    · rw [nextTick_of_eq (by omega)]
      exact .stopBefore hphase hshift (show rx.cycle + 1 + 1 + bt / 2 = _ by omega) (by omega)
  | stopBefore hphase hshift hcycle hc =>
    rw [nextTick_of_lt (by omega), frameBit_nine]
    by_cases hmid : c = bt / 2
    · rw [Receiver.advance, hphase, if_pos (show 9 = 9 ∧ c = bt / 2 from ⟨rfl, hmid⟩)]
      dsimp only
      rw [if_pos (by omega), if_pos rfl, hshift]
      exact ⟨.done rfl rfl (by omega), rfl⟩
    · rw [Receiver.advance_wait (.inr hphase) (by omega), if_neg (by omega)]
      exact ⟨.stopBefore hphase hshift (show rx.cycle + 1 + 1 + bt / 2 = _ by omega) (by omega), rfl⟩
  | done hphase hprev hc =>
    obtain ⟨hphase', hprev', hevent⟩ := Receiver.advance_mark bt hphase
    rw [nextTick_of_lt (hlast rfl), frameBit_nine, hevent, if_neg (show ¬ (9 = 9 ∧ c = bt / 2) by omega)]
    exact ⟨.done hphase' hprev' (by omega), rfl⟩

theorem Receiver.Hears.idle_of_last {k c : Nat} {rx : Receiver} (h : rx.Hears bt b k c) (hk : k = 9)
    (hc : c + 1 = bt) (hbt : 4 ≤ bt) : rx.phase = .idle ∧ rx.prev = true := by
  cases h with
  | edge | start | before | after | stopAfter | stopBefore => omega
  | done hphase hprev _ => exact ⟨hphase, hprev⟩

end Receiver

/-! ## The two joined -/

/-- A transmitter and a receiver one tick behind it. `held` is the byte that is on the line and not yet
    reported. -/
inductive Line (bt : Nat) (tx : Transmitter) (rx : Receiver) : List UInt8 → Prop where
  | idle : tx.bitsLeft = 0 → tx.level = true → rx.phase = .idle → rx.prev = true → Line bt tx rx []
  | busy (b : UInt8) (k c : Nat) : tx.level = frameBit b k → tx.At bt b (nextTick bt k c).1 (nextTick bt k c).2 →
      rx.Hears bt b k c → Line bt tx rx (if k = 9 ∧ bt / 2 < c then [] else [b])

variable {bt : Nat} {tx : Transmitter} {rx : Receiver} {held : List UInt8}

theorem nextTick_last {bt k c : Nat} (h : (nextTick bt k c).1 < 10) : k = 9 → c + 1 < bt := by
  intro hk
  by_contra hge
  rw [nextTick, if_neg hge] at h
  omega

/-- A transmitter at a tick of a frame sends it, and is at the next or done. -/
theorem Transmitter.advance_sends {b : UInt8} {k c : Nat} (h : tx.At bt b k c) :
    (tx.shiftOut bt).level = frameBit b k ∧
    ((tx.shiftOut bt).At bt b (nextTick bt k c).1 (nextTick bt k c).2 ∨
      k = 9 ∧ c + 1 = bt ∧ (tx.shiftOut bt).bitsLeft = 0) := by
  have hk := h.bit
  have hc := h.tick
  by_cases hend : c + 1 < bt
  · rw [nextTick_of_lt hend]
    exact ⟨(h.shiftOut_tick hend).1, .inl (h.shiftOut_tick hend).2⟩
  · rw [nextTick_of_eq (by omega)]
    by_cases hlast : k = 9
    · subst hlast
      obtain ⟨hlevel, hleft⟩ := h.shiftOut_last (by omega)
      exact ⟨by rw [hlevel, frameBit_nine], .inr ⟨rfl, by omega, hleft⟩⟩
    · exact ⟨(h.shiftOut_bit (by omega) (by omega)).1, .inl (h.shiftOut_bit (by omega) (by omega)).2⟩

/-- One tick of both ends: what the transmitter takes is reported or held on the line, in order, and no
    framing error is seen. -/
theorem Line.advance (hbt : 4 ≤ bt) (h : Line bt tx rx held) (next : Option UInt8) :
    ∃ held', Line bt (tx.advance bt next) (rx.advance bt tx.level).1 held' ∧
      (rx.advance bt tx.level).2 ≠ .framingError ∧
      held ++ (tx.takes next).toList = (rx.advance bt tx.level).2.bytes ++ held' := by
  cases h with
  | idle hleft hlevel hphase hprev =>
    obtain ⟨hphase', hprev', hevent⟩ := Receiver.advance_mark bt hphase
    rw [hlevel, hevent, Transmitter.takes, if_pos hleft]
    cases next with
    | none =>
      rw [Transmitter.advance_none hleft]
      exact ⟨[], .idle hleft rfl hphase' hprev', by simp, rfl⟩
    | some b =>
      rw [Transmitter.advance_some hleft]
      -- the start bit goes out; the receiver, a tick behind, has yet to hear it
      have hat := Transmitter.at_load bt (by omega) tx b
      obtain ⟨hlow, hnext⟩ := Transmitter.advance_sends hat
      rcases hnext with hnext | ⟨hk, -⟩
      · refine ⟨[b], ?_, by simp, rfl⟩
        have hbusy : Line bt ((tx.load b).shiftOut bt) (rx.advance bt true).1 _ :=
          .busy b 0 0 hlow hnext (.edge hphase' hprev')
        rwa [if_neg (by omega)] at hbusy
      · omega
  | busy b k c hlevel hat hhears =>
    have hlast := nextTick_last hat.bit
    obtain ⟨hhears', hevent⟩ := hhears.advance hbt hlast
    have hleft : ¬ tx.bitsLeft = 0 := by
      have := hat.bitsLeft
      have := hat.bit
      omega
    rw [hlevel, Transmitter.takes, if_neg hleft, Transmitter.advance_of_busy hleft, Option.toList_none,
      List.append_nil, hevent]
    obtain ⟨hlevel', hnext⟩ := Transmitter.advance_sends hat
    -- what is held after the tick: nothing more once the byte is reported
    have hheld : (if k = 9 ∧ bt / 2 < c then [] else [b]) =
        (if k = 9 ∧ c = bt / 2 then Event.byte b else Event.none).bytes ++
          (if (nextTick bt k c).1 = 9 ∧ bt / 2 < (nextTick bt k c).2 then [] else [b]) := by
      by_cases hend : c + 1 < bt
      · rw [nextTick_of_lt hend]
        dsimp only
        by_cases hk : k = 9
        · rcases Nat.lt_trichotomy c (bt / 2) with hc | hc | hc
          · rw [if_neg (by omega), if_neg (by omega), if_neg (by omega)]
            rfl
          · rw [if_neg (by omega), if_pos ⟨hk, hc⟩, if_pos (by omega)]
            rfl
          · rw [if_pos ⟨hk, hc⟩, if_neg (by omega), if_pos (by omega)]
            rfl
        · rw [if_neg (by omega), if_neg (by omega), if_neg (by omega)]
          rfl
      · have hk : k ≠ 9 := fun hk => hend (hlast hk)
        rw [nextTick, if_neg hend]
        dsimp only
        rw [if_neg (by omega), if_neg (by omega), if_neg (by omega)]
        rfl
    have hnoError : (if k = 9 ∧ c = bt / 2 then Event.byte b else Event.none) ≠ .framingError := by
      split <;> simp
    rcases hnext with hnext | ⟨hk, hc, hdone⟩
    · exact ⟨_, .busy b _ _ hlevel' hnext hhears', hnoError, hheld⟩
    · -- the frame is over: the receiver waits at mark for the next start bit
      refine ⟨[], ?_, hnoError, ?_⟩
      · have hidle := hhears'.idle_of_last hk hc hbt
        exact .idle hdone (by rw [hlevel', hk, frameBit_nine]) hidle.1 hidle.2
      · rw [hheld, if_pos (show (nextTick bt k c).1 = 9 ∧ bt / 2 < (nextTick bt k c).2 by omega)]

/-! ## How long a byte takes -/

theorem Transmitter.At.left_shiftOut {b : UInt8} {k c : Nat} (h : tx.At bt b k c) :
    (tx.shiftOut bt).left bt + 1 = tx.left bt := by
  have hk := h.bit
  have hc := h.tick
  obtain ⟨n, hn⟩ : ∃ n, tx.bitsLeft = n + 1 := ⟨9 - k, by rw [h.bitsLeft]; omega⟩
  have hmul : (n + 1) * bt = n * bt + bt := Nat.succ_mul n bt
  rw [Transmitter.left, Transmitter.left, Transmitter.shiftOut, h.cycle, hn]
  split
  · change (n + 1 - 1) * bt - 0 + 1 = (n + 1) * bt - c
    rw [Nat.add_sub_cancel]
    omega
  · change (n + 1) * bt - (c + 1) + 1 = (n + 1) * bt - c
    omega

theorem Transmitter.left_advance_some (hbt : 0 < bt) (h : tx.bitsLeft = 0) (b : UInt8) :
    (tx.advance bt (some b)).left bt + 1 = 10 * bt := by
  rw [Transmitter.advance_some h, (Transmitter.at_load bt hbt tx b).left_shiftOut]
  rfl

theorem Line.left_advance (h : Line bt tx rx held) {next : Option UInt8} (hnext : tx.takes next = none) :
    (tx.advance bt next).left bt = tx.left bt - 1 := by
  cases h with
  | idle hleft hlevel hphase hprev =>
    rw [Transmitter.takes, if_pos hleft] at hnext
    rw [hnext, Transmitter.advance_none hleft, Transmitter.left, Transmitter.left, hleft, Nat.zero_mul]
    omega
  | busy b k c hlevel hat hhears =>
    have hleft : ¬ tx.bitsLeft = 0 := by
      have := hat.bitsLeft
      have := hat.bit
      omega
    rw [Transmitter.advance_of_busy hleft, ← hat.left_shiftOut, Nat.add_sub_cancel]

theorem Line.left_le (h : Line bt tx rx held) : tx.left bt ≤ 10 * bt := by
  cases h with
  | idle hleft hlevel hphase hprev =>
    rw [Transmitter.left, hleft, Nat.zero_mul, Nat.zero_sub]
    exact Nat.zero_le _
  | busy b k c hlevel hat hhears =>
    rw [Transmitter.left, hat.bitsLeft]
    exact Nat.le_trans (Nat.sub_le _ _) (Nat.mul_le_mul_right _ (Nat.sub_le _ _))

theorem Line.held_eq_nil (h : Line bt tx rx held) (hleft : tx.left bt = 0) : held = [] := by
  cases h with
  | idle => rfl
  | busy b k c hlevel hat hhears =>
    have hpos := hat.left_shiftOut
    omega

theorem Line.held_length_le (h : Line bt tx rx held) : held.length ≤ 1 := by
  cases h with
  | idle => exact Nat.zero_le _
  | busy b k c hlevel hat hhears =>
    split
    · exact Nat.zero_le _
    · exact Nat.le_refl _

end Koncepcja.StartStop
