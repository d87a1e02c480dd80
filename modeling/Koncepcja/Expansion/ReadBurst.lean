import Koncepcja.Expansion.RomFlags

/-!
# The SmartWatch Read Burst

The clock in the ROM socket is a chip that sees one access for each read of the upper ROM: 64 accesses
that spell the pattern, and 64 more that each take a bit of the clock out on D0. The chip is stated here
by itself; the device on the bus is shown to behave as the chip does, between a memory that answers a
tick behind the strobes and a CPU that samples later.

## Main results

- `Chip.bit_of_burst`, `Chip.burst_of_bit`: when an access of the chip has a bit, and which.
- `read_eq`: what a read of the socket returns.
- `read_burst`: the bursts of a run, and that every other read is the memory's own byte.
-/

namespace Koncepcja.Expansion

open Koncepcja.Memory

set_option maxRecDepth 20000

/-! ## The chip -/

/-- What the chip keeps. -/
structure Chip where
  state : SwPhase := .idle
  bitIndex : Nat := 0
  shift : Nat := 0
  time : List UInt8 := []
  snap : List UInt8 := []
  deriving DecidableEq, Repr

/-- An access has A0 and A2; the host sets the clock. -/
inductive ChipEvent where
  | access (a0 a2 : Bool)
  | setTime (bcd : List UInt8)
  deriving DecidableEq, Repr

namespace Chip

/-- A match begins with its first bit. -/
def begun (c : Chip) (a0 : Bool) : Chip := { c with state := .matching, shift := a0.toNat, bitIndex := 1 }

/-- One access: the bit that goes out on D0, if there is one. -/
def access (c : Chip) (a0 a2 : Bool) : Option UInt8 × Chip :=
  match c.state, a2 with
  | .idle, true => (none, c)
  | .matching, true => (none, { c with state := .idle, bitIndex := 0 })
  | .reading, true =>
    (some (clockBit c.snap c.bitIndex),
      if c.bitIndex + 1 = 64 then { c with state := .idle, bitIndex := 0 } else { c with bitIndex := c.bitIndex + 1 })
  | .matching, false =>
    let shift := shiftIn c.shift c.bitIndex a0
    (none,
      if c.bitIndex + 1 < 64 then { c with shift, bitIndex := c.bitIndex + 1 }
      else if shift = kPattern then { c with shift, snap := c.time, state := .reading, bitIndex := 0 }
      else { c with shift, state := .idle, bitIndex := 0 })
  | .idle, false => (none, c.begun a0)
  | .reading, false => (none, c.begun a0)

def event (c : Chip) : ChipEvent → Chip
  | .access a0 a2 => (c.access a0 a2).2
  | .setTime bcd => { c with time := bcd }

def run (c : Chip) (xs : List ChipEvent) : Chip := xs.foldl event c

end Chip

/-- The accesses of a run. -/
def accesses (xs : List ChipEvent) : List (Bool × Bool) :=
  xs.filterMap fun
    | .access a0 a2 => some (a0, a2)
    | .setTime _ => none

/-- The accesses that spell the pattern. -/
def patternAccesses : List (Bool × Bool) := (List.range 64).map fun i => (kPattern.testBit i, false)

/-! ## The shift register -/

/-- The register behind a match of some bits. -/
def shifted (bits : List Bool) : Nat := bits.zipIdx.foldl (fun v b => shiftIn v b.2 b.1) 0

theorem shifted_concat (bits : List Bool) (b : Bool) : shifted (bits ++ [b]) = shiftIn (shifted bits) bits.length b := by
  rw [shifted, List.zipIdx_append, List.foldl_append, Nat.zero_add]
  rfl

theorem shifted_singleton (b : Bool) : shifted [b] = b.toNat := by
  cases b <;> rfl

theorem testBit_shiftIn (v i k : Nat) (b : Bool) : (shiftIn v k b).testBit i = (v.testBit i || (decide (i = k) && b)) := by
  rw [shiftIn, Nat.testBit_or, Nat.testBit_shiftLeft]
  congr 1
  cases b with
  | false => simp
  | true =>
    rcases Nat.lt_trichotomy i k with h | h | h
    · simp [Nat.not_le.2 h, Nat.ne_of_lt h]
    · simp [h]
    · have hone : Nat.testBit 1 (i - k) = false :=
        Nat.testBit_lt_two_pow (Nat.one_lt_two_pow (Nat.sub_ne_zero_of_lt h))
      simp [Nat.le_of_lt h, Nat.ne_of_gt h, hone]

theorem testBit_shifted (bits : List Bool) (i : Nat) : (shifted bits).testBit i = bits.getD i false := by
  induction bits using List.reverseRecOn with
  | nil => simp [shifted]
  | append_singleton bits b ih =>
    rw [shifted_concat, testBit_shiftIn, ih]
    rcases Nat.lt_trichotomy i bits.length with h | h | h
    · rw [List.getD_append _ _ _ _ h, decide_eq_false (Nat.ne_of_lt h), Bool.false_and, Bool.or_false]
    · rw [h, List.getD_append_right _ _ _ _ (Nat.le_refl _), Nat.sub_self, List.getD_eq_default _ _ (Nat.le_refl _)]
      simp
    · rw [List.getD_append_right _ _ _ _ (Nat.le_of_lt h), List.getD_eq_default _ _ (Nat.le_of_lt h),
        decide_eq_false (Nat.ne_of_gt h), Bool.false_and, Bool.or_false, List.getD_eq_default]
      rw [List.length_singleton]
      omega

theorem shifted_eq_pattern_iff {bits : List Bool} (hlen : bits.length = 64) :
    shifted bits = kPattern ↔ bits = (List.range 64).map fun i => kPattern.testBit i := by
  constructor
  · intro h
    refine List.ext_getElem (by rw [hlen, List.length_map, List.length_range]) fun i hi _ => ?_
    rw [List.getElem_map, List.getElem_range, ← h, testBit_shifted, List.getD_eq_getElem _ _ hi]
  · rintro rfl
    decide

/-! ## Bursts of the chip -/

section Accesses

variable (xs ys : List ChipEvent) (a0 a2 : Bool) (bcd : List UInt8)

@[simp] theorem accesses_append : accesses (xs ++ ys) = accesses xs ++ accesses ys := List.filterMap_append

@[simp] theorem accesses_access : accesses [.access a0 a2] = [(a0, a2)] := rfl

@[simp] theorem accesses_setTime : accesses [.setTime bcd] = [] := rfl

end Accesses

namespace Chip

variable {c : Chip}

theorem run_concat (c : Chip) (xs : List ChipEvent) (x : ChipEvent) : c.run (xs ++ [x]) = (c.run xs).event x :=
  List.foldl_concat ..

theorem run_append (c : Chip) (xs ys : List ChipEvent) : c.run (xs ++ ys) = (c.run xs).run ys := List.foldl_append

theorem state_of_no_access {zs : List ChipEvent} (h : accesses zs = []) : (c.run zs).state = c.state := by
  induction zs using List.reverseRecOn with
  | nil => rfl
  | append_singleton zs x ih =>
    rw [accesses_append] at h
    obtain ⟨hzs, hx⟩ := List.append_eq_nil_iff.1 h
    rw [run_concat]
    cases x with
    | access a0 a2 => exact absurd hx (List.cons_ne_nil _ _)
    | setTime bcd => exact ih hzs

theorem event_begin (h : c.state ≠ .matching) (a0 : Bool) : c.event (.access a0 false) = c.begun a0 := by
  obtain ⟨state, bitIndex, shift, time, snap⟩ := c
  cases state with
  | matching => exact absurd rfl h
  | idle => rfl
  | reading => rfl

theorem event_match (h : c.state = .matching) (hlt : c.bitIndex + 1 < 64) (a0 : Bool) :
    c.event (.access a0 false) = { c with shift := shiftIn c.shift c.bitIndex a0, bitIndex := c.bitIndex + 1 } := by
  obtain ⟨state, bitIndex, shift, time, snap⟩ := c
  obtain rfl : state = .matching := h
  exact if_pos hlt

theorem event_last (h : c.state = .matching) (hlast : ¬ c.bitIndex + 1 < 64) (a0 : Bool) :
    c.event (.access a0 false) =
      if shiftIn c.shift c.bitIndex a0 = kPattern then
        { c with shift := shiftIn c.shift c.bitIndex a0, snap := c.time, state := .reading, bitIndex := 0 }
      else { c with shift := shiftIn c.shift c.bitIndex a0, state := .idle, bitIndex := 0 } := by
  obtain ⟨state, bitIndex, shift, time, snap⟩ := c
  obtain rfl : state = .matching := h
  exact if_neg hlast

theorem access_reading (h : c.state = .reading) (a0 : Bool) : c.access a0 true =
    (some (clockBit c.snap c.bitIndex),
      if c.bitIndex + 1 = 64 then { c with state := .idle, bitIndex := 0 } else { c with bitIndex := c.bitIndex + 1 }) := by
  obtain ⟨state, bitIndex, shift, time, snap⟩ := c
  obtain rfl : state = .reading := h
  rfl

theorem access_idle (h : c.state ≠ .reading) (a0 : Bool) : (c.access a0 true).1 = none ∧ (c.access a0 true).2.state = .idle := by
  obtain ⟨state, bitIndex, shift, time, snap⟩ := c
  cases state with
  | idle => exact ⟨rfl, rfl⟩
  | matching => exact ⟨rfl, rfl⟩
  | reading => exact absurd rfl h

theorem access_false (c : Chip) (a0 : Bool) : (c.access a0 false).1 = none := by
  obtain ⟨state, bitIndex, shift, time, snap⟩ := c
  cases state <;> rfl

theorem matching_of_accesses (hc : c.state ≠ .matching) {zs : List ChipEvent} {bits : List Bool}
    (h : accesses zs = bits.map (·, false)) (hpos : bits ≠ []) (hlen : bits.length < 64) :
    (c.run zs).state = .matching ∧ (c.run zs).bitIndex = bits.length ∧ (c.run zs).shift = shifted bits := by
  induction zs using List.reverseRecOn generalizing bits with
  | nil => exact absurd (List.map_eq_nil_iff.1 h.symm) hpos
  | append_singleton zs x ih =>
    rw [run_concat]
    rw [accesses_append] at h
    cases x with
    | setTime bcd =>
      rw [accesses_setTime, List.append_nil] at h
      exact ih h hpos hlen
    | access a0 a2 =>
      -- the access is the last bit
      rcases List.eq_nil_or_concat bits with rfl | ⟨front, b, rfl⟩
      · exact absurd rfl hpos
      rw [List.concat_eq_append] at h hlen ⊢
      rw [List.map_append, accesses_access] at h
      obtain ⟨hfront, hb⟩ := List.append_inj' h rfl
      obtain ⟨rfl, rfl⟩ := Prod.mk.inj (List.cons.inj hb).1
      rw [List.length_append, List.length_singleton] at hlen ⊢
      by_cases hempty : front = []
      · subst hempty
        have hstate := state_of_no_access (c := c) (show accesses zs = [] from hfront)
        rw [event_begin (by rwa [hstate])]
        exact ⟨rfl, rfl, (shifted_singleton a0).symm⟩
      · obtain ⟨hstate, hindex, hshift⟩ := ih hfront hempty (by omega)
        rw [event_match hstate (by rw [hindex]; exact hlen), hindex, hshift]
        exact ⟨hstate, rfl, (shifted_concat front a0).symm⟩

theorem reading_of_pattern (hc : c.state ≠ .matching) {zs : List ChipEvent} {a0 : Bool}
    (h : accesses zs ++ [(a0, false)] = patternAccesses) :
    ((c.run zs).event (.access a0 false)).state = .reading ∧ ((c.run zs).event (.access a0 false)).bitIndex = 0 ∧
      ((c.run zs).event (.access a0 false)).snap = (c.run zs).time := by
  have hsplit : patternAccesses =
      ((List.range 63).map fun i => kPattern.testBit i).map (·, false) ++ [(kPattern.testBit 63, false)] := by
    decide
  rw [hsplit] at h
  obtain ⟨hzs, hlast⟩ := List.append_inj' h rfl
  have ha0 : a0 = kPattern.testBit 63 := (Prod.mk.inj (List.cons.inj hlast).1).1
  obtain ⟨hstate, hindex, hshift⟩ := matching_of_accesses hc hzs (by decide) (by decide)
  have hwhole : shiftIn (c.run zs).shift (c.run zs).bitIndex a0 = kPattern := by
    rw [hindex, hshift, ha0]
    decide
  rw [event_last hstate (by rw [hindex]; decide), if_pos hwhole]
  exact ⟨rfl, rfl, rfl⟩

theorem reading_of_accesses (hc : c.state = .reading) {ws : List ChipEvent} (h : ∀ a ∈ accesses ws, a.2 = true)
    (hlen : c.bitIndex + (accesses ws).length < 64) :
    (c.run ws).state = .reading ∧ (c.run ws).bitIndex = c.bitIndex + (accesses ws).length ∧ (c.run ws).snap = c.snap := by
  induction ws using List.reverseRecOn with
  | nil => exact ⟨hc, rfl, rfl⟩
  | append_singleton ws x ih =>
    rw [run_concat]
    rw [accesses_append] at h hlen ⊢
    rw [List.length_append] at hlen ⊢
    have hws := ih (fun a ha => h a (List.mem_append_left _ ha)) (by omega)
    cases x with
    | setTime bcd => exact hws
    | access a0 a2 =>
      have ha2 : a2 = true := h (a0, a2) (List.mem_append_right _ (List.mem_singleton.2 rfl))
      subst ha2
      rw [accesses_access, List.length_singleton] at hlen ⊢
      obtain ⟨hstate, hindex, hsnap⟩ := hws
      rw [event, access_reading hstate, if_neg (by omega)]
      exact ⟨hstate, by rw [hindex]; rfl, hsnap⟩

theorem bit_of_burst (hc : c.state ≠ .matching) {zs ws : List ChipEvent} {a0 : Bool}
    (hpattern : accesses zs ++ [(a0, false)] = patternAccesses) (hburst : ∀ a ∈ accesses ws, a.2 = true)
    (hlen : (accesses ws).length < 64) (b0 : Bool) :
    ((c.run (zs ++ .access a0 false :: ws)).access b0 true).1 =
      some (clockBit (c.run zs).time (accesses ws).length) := by
  obtain ⟨hstate, hindex, hsnap⟩ := reading_of_pattern hc hpattern
  have hrun : c.run (zs ++ .access a0 false :: ws) = ((c.run zs).event (.access a0 false)).run ws := run_append ..
  obtain ⟨hstate', hindex', hsnap'⟩ := reading_of_accesses hstate hburst (by rw [hindex, Nat.zero_add]; exact hlen)
  rw [hrun, access_reading hstate', hindex', hindex, Nat.zero_add, hsnap', hsnap]

/-- The end of a run has been a match, from a chip that was in none. -/
def Spelling (c : Chip) (xs : List ChipEvent) : Prop :=
  ∃ (ys zs : List ChipEvent) (bits : List Bool), xs = ys ++ zs ∧ (c.run ys).state ≠ .matching ∧
    accesses zs = bits.map (·, false) ∧ bits.length = (c.run xs).bitIndex ∧ bits.length < 64 ∧
    (c.run xs).shift = shifted bits

/-- The end of a run has been the pattern and a burst. -/
def Bursting (c : Chip) (xs : List ChipEvent) : Prop :=
  ∃ (ys zs : List ChipEvent) (a0 : Bool) (ws : List ChipEvent), xs = ys ++ (zs ++ .access a0 false :: ws) ∧
    (c.run ys).state ≠ .matching ∧ accesses zs ++ [(a0, false)] = patternAccesses ∧
    (∀ a ∈ accesses ws, a.2 = true) ∧ (accesses ws).length = (c.run xs).bitIndex ∧ (accesses ws).length < 64 ∧
    (c.run xs).snap = (c.run (ys ++ zs)).time

theorem spelling_begin {xs : List ChipEvent} (h : (c.run xs).state ≠ .matching) (a0 : Bool) :
    Spelling c (xs ++ [.access a0 false]) := by
  refine ⟨xs, [.access a0 false], [a0], rfl, h, rfl, ?_, by simp, ?_⟩
  · rw [run_concat, event_begin h]
    rfl
  · rw [run_concat, event_begin h]
    exact (shifted_singleton a0).symm

theorem Spelling.setTime {xs : List ChipEvent} (h : Spelling c xs) (bcd : List UInt8) :
    Spelling c (xs ++ [.setTime bcd]) := by
  obtain ⟨ys, zs, bits, rfl, hys, hzs, hindex, hlen, hshift⟩ := h
  refine ⟨ys, zs ++ [.setTime bcd], bits, List.append_assoc .., hys, ?_, ?_, hlen, ?_⟩
  · rw [accesses_append, accesses_setTime, List.append_nil, hzs]
  · rw [run_concat]
    exact hindex
  · rw [run_concat]
    exact hshift

theorem Bursting.setTime {xs : List ChipEvent} (h : Bursting c xs) (bcd : List UInt8) :
    Bursting c (xs ++ [.setTime bcd]) := by
  obtain ⟨ys, zs, a0, ws, rfl, hys, hpattern, hburst, hindex, hlen, hsnap⟩ := h
  refine ⟨ys, zs, a0, ws ++ [.setTime bcd], by simp, hys, hpattern, ?_, ?_, ?_, ?_⟩
  · simpa using hburst
  · rw [run_concat, accesses_append, accesses_setTime, List.append_nil]
    exact hindex
  · rwa [accesses_append, accesses_setTime, List.append_nil]
  · rw [run_concat]
    exact hsnap

theorem Spelling.access {xs : List ChipEvent} (h : Spelling c xs) (hstate : (c.run xs).state = .matching) (a0 : Bool) :
    ((c.run (xs ++ [.access a0 false])).state = .matching ∧ Spelling c (xs ++ [.access a0 false])) ∨
      ((c.run (xs ++ [.access a0 false])).state = .reading ∧ Bursting c (xs ++ [.access a0 false])) ∨
      (c.run (xs ++ [.access a0 false])).state = .idle := by
  obtain ⟨ys, zs, bits, hxs, hys, hzs, hindex, hlen, hshift⟩ := h
  have hmore : accesses (zs ++ [.access a0 false]) = (bits ++ [a0]).map (·, false) := by
    rw [accesses_append, hzs, List.map_append, accesses_access]
    rfl
  have hnext : shiftIn (c.run xs).shift (c.run xs).bitIndex a0 = shifted (bits ++ [a0]) := by
    rw [hshift, ← hindex, shifted_concat]
  have hone : (bits ++ [a0]).length = bits.length + 1 := by rw [List.length_append, List.length_singleton]
  -- The last of the 64 bits decides; before it one more bit is spelled.
  by_cases hlt : (c.run xs).bitIndex + 1 < 64
  · refine .inl ⟨?_, ys, zs ++ [.access a0 false], bits ++ [a0], by rw [hxs, List.append_assoc], hys, hmore, ?_, ?_, ?_⟩
    · rw [run_concat, event_match hstate hlt]
      exact hstate
    · rw [run_concat, event_match hstate hlt, hone, hindex]
    · rw [hone, hindex]
      exact hlt
    · rw [run_concat, event_match hstate hlt]
      exact hnext
  · rw [run_concat, event_last hstate hlt, hnext]
    have h64 : (bits ++ [a0]).length = 64 := by omega
    by_cases hpattern : shifted (bits ++ [a0]) = kPattern
    · rw [if_pos hpattern]
      refine .inr (.inl ⟨rfl, ys, zs, a0, [], by rw [hxs, List.append_assoc], hys, ?_, ?_, ?_, by decide, ?_⟩)
      · rw [← accesses_access, ← accesses_append, hmore, (shifted_eq_pattern_iff h64).1 hpattern, List.map_map]
        rfl
      · exact fun a ha => absurd ha List.not_mem_nil
      · rw [run_concat, event_last hstate hlt, hnext, if_pos hpattern]
        rfl
      · rw [run_concat, event_last hstate hlt, hnext, if_pos hpattern, hxs]
    · rw [if_neg hpattern]
      exact .inr (.inr rfl)

theorem Bursting.access {xs : List ChipEvent} (h : Bursting c xs) (hstate : (c.run xs).state = .reading) (a0 : Bool) :
    ((c.run (xs ++ [.access a0 true])).state = .reading ∧ Bursting c (xs ++ [.access a0 true])) ∨
      (c.run (xs ++ [.access a0 true])).state = .idle := by
  obtain ⟨ys, zs, b0, ws, hxs, hys, hpattern, hburst, hindex, hlen, hsnap⟩ := h
  have hone : (accesses (ws ++ [.access a0 true])).length = (accesses ws).length + 1 := by
    rw [accesses_append, List.length_append, accesses_access, List.length_singleton]
  have hevent : c.run (xs ++ [.access a0 true]) = ((c.run xs).access a0 true).2 := run_concat ..
  rw [access_reading hstate] at hevent
  by_cases hlast : (c.run xs).bitIndex + 1 = 64
  · rw [if_pos hlast] at hevent
    exact .inr (by rw [hevent])
  · rw [if_neg hlast] at hevent
    refine .inl ⟨by rw [hevent]; exact hstate, ys, zs, b0, ws ++ [.access a0 true], by rw [hxs]; simp, hys, hpattern, ?_,
      ?_, ?_, ?_⟩
    · intro a ha
      rw [accesses_append, accesses_access] at ha
      rcases List.mem_append.1 ha with ha | ha
      · exact hburst a ha
      · rw [List.mem_singleton.1 ha]
    · rw [hone, hevent, hindex]
    · omega
    · rw [hevent]
      exact hsnap

/-- What the state behind a run says of the run. -/
structure Accounted (c : Chip) (xs : List ChipEvent) : Prop where
  matching : (c.run xs).state = .matching → Spelling c xs
  reading : (c.run xs).state = .reading → Bursting c xs

section Accounted

variable {xs : List ChipEvent}

theorem Accounted.of_idle (h : (c.run xs).state = .idle) : Accounted c xs :=
  ⟨fun h' => absurd (h.symm.trans h') (by decide), fun h' => absurd (h.symm.trans h') (by decide)⟩

theorem Accounted.of_spelling (h : (c.run xs).state = .matching) (hs : Spelling c xs) : Accounted c xs :=
  ⟨fun _ => hs, fun h' => absurd (h.symm.trans h') (by decide)⟩

theorem Accounted.of_bursting (h : (c.run xs).state = .reading) (hb : Bursting c xs) : Accounted c xs :=
  ⟨fun h' => absurd (h.symm.trans h') (by decide), fun _ => hb⟩

theorem Accounted.begin (h : (c.run xs).state ≠ .matching) (a0 : Bool) : Accounted c (xs ++ [.access a0 false]) := by
  refine .of_spelling ?_ (spelling_begin h a0)
  rw [run_concat, event_begin h]
  rfl

end Accounted

theorem accounted (hc : c.state = .idle) (xs : List ChipEvent) : Accounted c xs := by
  -- On the last event: an access that the state does not wait for starts over or is ignored.
  induction xs using List.reverseRecOn with
  | nil => exact .of_idle hc
  | append_singleton xs x ih =>
    cases x with
    | setTime bcd =>
      have hsame : (c.run (xs ++ [.setTime bcd])).state = (c.run xs).state := by
        rw [run_concat]
        rfl
      exact ⟨fun h => (ih.matching (hsame.symm.trans h)).setTime bcd, fun h => (ih.reading (hsame.symm.trans h)).setTime bcd⟩
    | access a0 a2 =>
      cases a2 with
      | true =>
        by_cases hstate : (c.run xs).state = .reading
        · rcases (ih.reading hstate).access hstate a0 with ⟨hs, h⟩ | hs
          · exact .of_bursting hs h
          · exact .of_idle hs
        · refine .of_idle ?_
          rw [run_concat]
          exact (access_idle hstate a0).2
      | false =>
        by_cases hstate : (c.run xs).state = .matching
        · rcases (ih.matching hstate).access hstate a0 with ⟨hs, h⟩ | ⟨hs, h⟩ | hs
          · exact .of_spelling hs h
          · exact .of_bursting hs h
          · exact .of_idle hs
        · exact .begin hstate a0

theorem burst_of_bit (hc : c.state = .idle) {xs : List ChipEvent} {b0 b2 : Bool} {bit : UInt8}
    (h : ((c.run xs).access b0 b2).1 = some bit) :
    b2 = true ∧ ∃ (ys zs : List ChipEvent) (a0 : Bool) (ws : List ChipEvent),
      xs = ys ++ (zs ++ .access a0 false :: ws) ∧ (c.run ys).state ≠ .matching ∧
        accesses zs ++ [(a0, false)] = patternAccesses ∧ (∀ a ∈ accesses ws, a.2 = true) ∧ (accesses ws).length < 64 ∧
        bit = clockBit (c.run (ys ++ zs)).time (accesses ws).length := by
  cases b2 with
  | false => exact absurd ((access_false _ b0).symm.trans h) (by simp)
  | true =>
    by_cases hstate : (c.run xs).state = .reading
    · rw [access_reading hstate] at h
      obtain ⟨ys, zs, a0, ws, hxs, hys, hpattern, hburst, hindex, hlen, hsnap⟩ := (accounted hc xs).reading hstate
      refine ⟨rfl, ys, zs, a0, ws, hxs, hys, hpattern, hburst, hlen, ?_⟩
      rw [hindex, ← hsnap]
      exact (Option.some.inj h).symm
    · exact absurd ((access_idle hstate b0).1.symm.trans h) (by simp)

end Chip

/-! ## The device as the chip -/

namespace SmartWatch

/-- The chip in the device. -/
def chip (w : SmartWatch) : Chip where
  state := w.state
  bitIndex := w.bitIndex
  shift := w.shift
  time := w.timeBcd
  snap := w.snap

theorem chip_fsmStep (w : SmartWatch) (hindex : w.bitIndex < 64) (a0 a2 : Bool) :
    (w.fsmStep a0 a2).2.chip = (w.chip.access a0 a2).2 ∧
      (w.chip.access a0 a2).1 = (if (w.fsmStep a0 a2).1 then some (w.fsmStep a0 a2).2.driveBit else none) ∧
      (w.fsmStep a0 a2).2.bitIndex < 64 := by
  cases w with
  | mk state bitIndex shift timeBcd snap plugged off drive driveBit haveByte romByte accPrev ioPrev =>
    have hindex' : bitIndex < 64 := hindex
    -- One case per state of the machine, then by the address line that the state looks at.
    cases state with
    | idle =>
      cases a2 with
      | false => exact ⟨rfl, rfl, show 1 < 64 by decide⟩
      | true => exact ⟨rfl, rfl, hindex'⟩
    | matching =>
      cases a2 with
      | true => exact ⟨rfl, rfl, show 0 < 64 by decide⟩
      | false =>
        by_cases hlast : bitIndex + 1 = 64
        · by_cases hpattern : shiftIn shift bitIndex a0 = kPattern <;>
            simp [fsmStep, chip, Chip.access, hlast, hpattern]
        · have hlt : bitIndex + 1 < 64 := by omega
          simp [fsmStep, chip, Chip.access, hlast, hlt]
    | reading =>
      cases a2 with
      | false => exact ⟨rfl, rfl, show 1 < 64 by decide⟩
      | true =>
        by_cases hlast : bitIndex + 1 = 64
        · simp [fsmStep, chip, Chip.access, hlast]
        · have hlt : ¬ 64 ≤ bitIndex + 1 := by omega
          have hlt' : bitIndex + 1 < 64 := by omega
          simp [fsmStep, chip, Chip.access, hlast, hlt, hlt']

theorem fsmStep_lines (w : SmartWatch) (a0 a2 : Bool) :
    (w.fsmStep a0 a2).2.haveByte = w.haveByte ∧ (w.fsmStep a0 a2).2.accPrev = w.accPrev := by
  rw [fsmStep]
  split
  · dsimp only
    split <;> exact ⟨rfl, rfl⟩
  · split
    · exact ⟨rfl, rfl⟩
    · dsimp only
      split
      · split <;> exact ⟨rfl, rfl⟩
      · exact ⟨rfl, rfl⟩
  · split
    · dsimp only
      split <;> exact ⟨rfl, rfl⟩
    · exact ⟨rfl, rfl⟩

end SmartWatch

/-! ## The socket -/

/-- The memory, the device in the socket, and what the devices have committed to the bus. -/
structure Socket where
  mem : Mem
  sw : SmartWatch
  data : UInt8 := 0xFF
  romdis : Bool := false

/-- The strobes of a memory read. -/
def readStrobe (addr : UInt16) (m1 : Bool) : CpuBus := { addr, m1, mreq := true, rd := true }

/-- A cycle that neither reads memory nor writes to a port: idle, a refresh, a write to memory, a port that is
    read. -/
def CpuBus.off (bus : CpuBus) : CpuBus := { bus with rd := bus.rd && !bus.mreq, wr := bus.wr && !bus.iorq }

namespace Socket

/-- The committed bus: the CPU's lines, and its byte in a write; else what the devices have driven. -/
def committed (s : Socket) (lines : CpuBus) : CpuBus :=
  { lines with data := if lines.wr then lines.data else s.data, romdis := s.romdis, ramdis := false }

/-- One master cycle. There is no I/O write for the memory to ask the ASIC about. -/
def tick (s : Socket) (lines : CpuBus) : Socket :=
  let m := s.mem.tick ((s.committed lines).toMem false)
  let w := s.sw.tick (s.committed lines)
  { mem := m.1, sw := w.1, data := w.2.data.getD (m.2.cpuData.getD 0xFF), romdis := w.2.romdis }

/-- The strobes of a read, held for some cycles. -/
def hold (s : Socket) (addr : UInt16) (m1 : Bool) : Nat → Socket
  | 0 => s
  | held + 1 => (s.hold addr m1 held).tick (readStrobe addr m1)

/-- What the CPU reads: it samples at least two cycles behind the strobes. -/
def read (s : Socket) (addr : UInt16) (m1 : Bool) (held : Nat) : UInt8 := (s.hold addr m1 (held + 2)).data

/-- The memory's own byte for a read. -/
def answer (s : Socket) (addr : UInt16) : UInt8 := (s.mem.commitWrite false).read addr

end Socket

/-- What happens at the socket: a read, whose strobes are held and then released; any other cycle; the host
    sets the clock. -/
inductive SocketEvent where
  | read (addr : UInt16) (m1 : Bool) (held : Nat) (release : CpuBus)
  | other (lines : CpuBus)
  | setTime (bcd : List UInt8)
  deriving DecidableEq, Repr

namespace Socket

def event (s : Socket) : SocketEvent → Socket
  | .read addr m1 held release => (s.hold addr m1 (held + 2)).tick release.off
  | .other lines => s.tick lines.off
  | .setTime bcd => { s with sw := s.sw.setTime bcd }

def run (s : Socket) (xs : List SocketEvent) : Socket := xs.foldl event s

end Socket

/-- The address is in the upper ROM. -/
def inRom (addr : UInt16) : Bool := decide (0xC000 ≤ addr)

/-- A0 and A2 of an address. -/
def lineA0 (addr : UInt16) : Bool := addr &&& 0x01 != 0
def lineA2 (addr : UInt16) : Bool := addr &&& 0x04 != 0

/-- What the chip sees of an event. -/
def SocketEvent.toChip : SocketEvent → Option ChipEvent
  | .read addr _ _ _ => if inRom addr then some (.access (lineA0 addr) (lineA2 addr)) else none
  | .other _ => none
  | .setTime bcd => some (.setTime bcd)

/-- The reads of the upper ROM, as A0 and A2. -/
def romReads (xs : List SocketEvent) : List (Bool × Bool) := accesses (xs.filterMap SocketEvent.toChip)

/-- Nothing is on the bus, the upper ROM is paged in, and the device is plugged and knows it. -/
structure Ready (s : Socket) : Prop where
  rom : s.mem.upperRomOn = true
  plugged : s.sw.plugged = true
  off : s.sw.upperRomOff = 0
  index : s.sw.bitIndex < 64
  drive : s.sw.drive = false
  haveByte : s.sw.haveByte = false
  accPrev : s.sw.accPrev = false
  romdis : s.romdis = false

/-! ## One read -/

section Read

variable {s t : Socket} {addr : UInt16} {m1 : Bool}

/-- The bit that a read takes out of the chip. -/
def Socket.bitOf (s : Socket) (addr : UInt16) : Option UInt8 :=
  if inRom addr then (s.sw.chip.access (lineA0 addr) (lineA2 addr)).1 else none

/-- The chip behind a read. -/
def Socket.chipAfter (s : Socket) (addr : UInt16) : Chip :=
  if inRom addr then (s.sw.chip.access (lineA0 addr) (lineA2 addr)).2 else s.sw.chip

/-- A read in progress since `s`: the memory holds its answer, and the chip has made its step. Before the
    byte is latched the memory's answer is on the bus, from then on what the device makes of it. -/
structure Reading (s t : Socket) (addr : UInt16) (latched : Bool) : Prop where
  rom : t.mem.upperRomOn = true
  armed : t.mem.wrArmed = false
  mem : t.mem.read addr = s.answer addr
  plugged : t.sw.plugged = true
  off : t.sw.upperRomOff = 0
  index : t.sw.bitIndex < 64
  ioPrev : t.sw.ioPrev = false
  accPrev : t.sw.accPrev = inRom addr
  chip : t.sw.chip = s.chipAfter addr
  bit : s.bitOf addr = if t.sw.drive then some t.sw.driveBit else none
  outside : inRom addr = false → t.sw.drive = false
  romdis : t.romdis = t.sw.drive
  haveByte : t.sw.haveByte = (latched && t.sw.drive)
  romByte : latched = true → t.sw.drive = true → t.sw.romByte = s.answer addr
  data : t.data = if latched && t.sw.drive then (s.answer addr &&& 0xFE) ||| t.sw.driveBit else s.answer addr

theorem mem_tick_read (m : Mem) (bus : Mem.BusIn) (hiorq : bus.iorq = false) (hmreq : bus.mreq = true)
    (hrd : bus.rd = true) (hwr : bus.wr = false) (hramdis : bus.ramdis = false) :
    (m.tick bus).1 = { m.commitWrite false with wrPrev := false } ∧
      (m.tick bus).2.cpuData =
        if (m.lowerRomServes bus.addr || decide (0xC000 ≤ bus.addr) && m.upperRomOn) && bus.romdis then none
        else some ((m.commitWrite false).read bus.addr) := by
  have hlatch : ∀ k : Mem, k.latchWrite bus = { k with wrPrev := false } := by
    intro k
    rw [Mem.latchWrite, hwr, Bool.and_false]
    rfl
  have hserves : (m.commitWrite false).lowerRomServes bus.addr = m.lowerRomServes bus.addr ∧
      (m.commitWrite false).upperRomOn = m.upperRomOn := by
    rw [m.toBanking_commitWrite false]
    exact ⟨rfl, rfl⟩
  rw [Mem.tick, hiorq, hramdis]
  dsimp only
  rw [Bool.false_and, if_neg Bool.false_ne_true, hlatch]
  refine ⟨rfl, ?_⟩
  rw [hserves.1, hserves.2, hmreq, hrd]
  cases hrom : (m.lowerRomServes bus.addr || decide (0xC000 ≤ bus.addr) && m.upperRomOn) with
  | false => rfl
  | true => cases hdis : bus.romdis <;> simp

theorem sw_tick_read (w : SmartWatch) (bus : CpuBus) (hplugged : w.plugged = true) (hoff : w.upperRomOff = 0)
    (hread : bus.memRead = true) (hio : bus.ioWrite = false) :
    w.tick bus =
      if inRom bus.addr then
        (if !w.accPrev then ({ w with ioPrev := false, accPrev := true } : SmartWatch).edgeStep bus
          else { w with ioPrev := false, accPrev := true }).answer bus (!w.accPrev)
      else ({ w with ioPrev := false, accPrev := false, drive := false, haveByte := false }, {}) := by
  have hsnoop : w.snoop bus = { w with ioPrev := false } := by
    rw [SmartWatch.snoop, hio]
    rfl
  have haccess : (w.snoop bus).accessed bus = inRom bus.addr := by
    rw [hsnoop, SmartWatch.accessed, hread]
    dsimp only
    rw [hoff, Bool.true_and, inRom]
    exact Bool.and_true _
  rw [SmartWatch.tick, if_pos hplugged]
  dsimp only
  rw [haccess, hsnoop]
  cases hrom : inRom bus.addr with
  | false => rfl
  | true => rfl

theorem committed_readStrobe (s : Socket) (addr : UInt16) (m1 : Bool) :
    (s.committed (readStrobe addr m1)).memRead = true ∧ (s.committed (readStrobe addr m1)).ioWrite = false ∧
      (s.committed (readStrobe addr m1)).addr = addr ∧ (s.committed (readStrobe addr m1)).data = s.data := ⟨rfl, rfl, rfl, rfl⟩

theorem disarmed_commitWrite (m : Mem) : (m.commitWrite false).wrArmed = false := by
  rw [Mem.commitWrite]
  split
  · rfl
  · next hne => exact Bool.not_eq_true _ ▸ hne

theorem commitWrite_of_disarmed (m : Mem) (h : m.wrArmed = false) : m.commitWrite false = m := by
  rw [Mem.commitWrite, h]
  rfl

theorem answer_edge (w : SmartWatch) (bus : CpuBus) (h : w.haveByte = false) :
    w.answer bus true = (w, { romdis := w.drive }) := by
  cases w with
  | mk state bitIndex shift timeBcd snap plugged off drive driveBit haveByte romByte accPrev ioPrev =>
    obtain rfl : haveByte = false := h
    cases drive <;> rfl

theorem answer_later (w : SmartWatch) (bus : CpuBus) : w.answer bus false =
    if w.drive then
      ({ w with haveByte := true, romByte := if w.haveByte then w.romByte else bus.data },
        { romdis := true, data := some (((if w.haveByte then w.romByte else bus.data) &&& 0xFE) ||| w.driveBit) })
    else (w, {}) := by
  cases w with
  | mk state bitIndex shift timeBcd snap plugged off drive driveBit haveByte romByte accPrev ioPrev =>
    cases drive <;> cases haveByte <;> rfl

theorem Ready.first (h : Ready s) (addr : UInt16) (m1 : Bool) : Reading s (s.tick (readStrobe addr m1)) addr false := by
  obtain ⟨hread, hio, haddr, _⟩ := committed_readStrobe s addr m1
  obtain ⟨hmem, hbyte⟩ := mem_tick_read s.mem ((s.committed (readStrobe addr m1)).toMem false) rfl rfl rfl rfl rfl
  have hsw := sw_tick_read s.sw (s.committed (readStrobe addr m1)) h.plugged h.off hread hio
  have hnodis : ((s.committed (readStrobe addr m1)).toMem false).romdis = false := h.romdis
  rw [hnodis, Bool.and_false, if_neg Bool.false_ne_true] at hbyte
  have hromOn : (s.mem.commitWrite false).upperRomOn = true := by
    rw [s.mem.toBanking_commitWrite false]
    exact h.rom
  have harmed := disarmed_commitWrite s.mem
  rw [haddr, h.accPrev] at hsw
  cases hrom : inRom addr with
  | false =>
    -- the chip does not see the read
    rw [hrom, if_neg Bool.false_ne_true] at hsw
    rw [Socket.tick, hmem, hbyte, hsw]
    exact {
      rom := hromOn, armed := harmed, mem := rfl, plugged := h.plugged, off := h.off, index := h.index, ioPrev := rfl
      accPrev := hrom.symm, chip := by rw [Socket.chipAfter, hrom]; rfl, bit := by rw [Socket.bitOf, hrom]; rfl
      outside := fun _ => rfl, romdis := rfl, haveByte := rfl, romByte := fun h' => absurd h' Bool.false_ne_true
      data := rfl }
  | true =>
    -- the edge of an access
    rw [hrom, if_pos rfl, Bool.not_false, if_pos rfl] at hsw
    let w : SmartWatch := { s.sw with ioPrev := false, accPrev := true }
    obtain ⟨hchip, hbit, hindex⟩ := w.chip_fsmStep h.index (lineA0 addr) (lineA2 addr)
    obtain ⟨hoff, hioPrev, hplug⟩ := w.fsmStep_frame (lineA0 addr) (lineA2 addr)
    obtain ⟨hhave, hacc⟩ := w.fsmStep_lines (lineA0 addr) (lineA2 addr)
    have hedge : w.edgeStep (s.committed (readStrobe addr m1)) =
        { (w.fsmStep (lineA0 addr) (lineA2 addr)).2 with drive := (w.fsmStep (lineA0 addr) (lineA2 addr)).1 } := rfl
    have hempty : (w.edgeStep (s.committed (readStrobe addr m1))).haveByte = false := hhave.trans h.haveByte
    rw [answer_edge _ _ hempty, hedge] at hsw
    rw [Socket.tick, hmem, hbyte, hsw]
    exact {
      rom := hromOn, armed := harmed, mem := rfl, plugged := hplug.trans h.plugged, off := hoff.trans h.off
      index := hindex, ioPrev := hioPrev, accPrev := hacc.trans hrom.symm
      chip := by rw [Socket.chipAfter, hrom]; exact hchip
      bit := by rw [Socket.bitOf, hrom]; exact hbit
      outside := fun h' => absurd (hrom.symm.trans h') (by decide), romdis := rfl
      haveByte := hhave.trans h.haveByte, romByte := fun h' => absurd h' Bool.false_ne_true, data := rfl }

theorem Reading.next {latched : Bool} (h : Reading s t addr latched) (m1 : Bool) :
    Reading s (t.tick (readStrobe addr m1)) addr true := by
  obtain ⟨hread, hio, haddr, hdata⟩ := committed_readStrobe t addr m1
  obtain ⟨hmem, hbyte⟩ := mem_tick_read t.mem ((t.committed (readStrobe addr m1)).toMem false) rfl rfl rfl rfl rfl
  have hsw := sw_tick_read t.sw (t.committed (readStrobe addr m1)) h.plugged h.off hread hio
  have hdis : ((t.committed (readStrobe addr m1)).toMem false).romdis = t.sw.drive := h.romdis
  have haddrIn : ((t.committed (readStrobe addr m1)).toMem false).addr = addr := rfl
  rw [commitWrite_of_disarmed t.mem h.armed] at hmem hbyte
  rw [hdis, haddrIn, h.mem, h.rom, Bool.and_true] at hbyte
  rw [haddr, h.accPrev] at hsw
  have hchip := h.chip
  have hbit := h.bit
  cases hrom : inRom addr with
  | false =>
    have hdrive : t.sw.drive = false := h.outside hrom
    rw [hrom, if_neg Bool.false_ne_true] at hsw
    rw [hdrive, Bool.and_false, if_neg Bool.false_ne_true] at hbyte
    rw [hdrive] at hbit
    rw [Socket.tick, hmem, hbyte, hsw]
    exact {
      rom := h.rom, armed := h.armed, mem := h.mem, plugged := h.plugged, off := h.off, index := h.index, ioPrev := rfl
      accPrev := hrom.symm, chip := hchip, bit := hbit, outside := fun _ => rfl, romdis := rfl, haveByte := rfl
      romByte := fun _ h' => absurd h' Bool.false_ne_true, data := rfl }
  | true =>
    rw [hrom, if_pos rfl, Bool.not_true, if_neg Bool.false_ne_true, answer_later] at hsw
    have hhigh : decide (0xC000 ≤ addr) = true := hrom
    rw [hhigh, Bool.or_true, Bool.true_and] at hbyte
    cases hdrive : t.sw.drive with
    | false =>
      -- nothing to override: the memory goes on answering
      rw [hdrive, if_neg Bool.false_ne_true] at hsw hbyte
      rw [hdrive] at hbit
      rw [Socket.tick, hmem, hbyte, hsw]
      have hempty : t.sw.haveByte = false := by rw [h.haveByte, hdrive, Bool.and_false]
      exact {
        rom := h.rom, armed := h.armed, mem := h.mem, plugged := h.plugged, off := h.off, index := h.index, ioPrev := rfl
        accPrev := hrom.symm, chip := hchip, bit := hbit, outside := fun _ => rfl, romdis := rfl, haveByte := hempty
        romByte := fun _ h' => absurd h' Bool.false_ne_true, data := rfl }
    | true =>
      rw [hdrive, if_pos rfl] at hsw hbyte
      rw [hdrive] at hbit
      -- the byte that the device has: latched before, or on the bus now
      have hlatch : (if t.sw.haveByte then t.sw.romByte else (t.committed (readStrobe addr m1)).data) = s.answer addr := by
        rw [h.haveByte, hdrive, hdata, h.data, hdrive]
        cases latched with
        | false => rfl
        | true => exact h.romByte rfl hdrive
      rw [hlatch] at hsw
      rw [Socket.tick, hmem, hbyte, hsw]
      exact {
        rom := h.rom, armed := h.armed, mem := h.mem, plugged := h.plugged, off := h.off, index := h.index, ioPrev := rfl
        accPrev := hrom.symm, chip := hchip, bit := hbit, outside := fun h' => absurd (hrom.symm.trans h') (by decide)
        romdis := rfl, haveByte := rfl, romByte := fun _ _ => rfl, data := rfl }

theorem Ready.hold (h : Ready s) (addr : UInt16) (m1 : Bool) (held : Nat) : Reading s (s.hold addr m1 (held + 2)) addr true := by
  induction held with
  | zero => exact (h.first addr m1).next m1
  | succ held ih => exact ih.next m1

/-- A read returns the memory's byte, under the bit that the chip has for it. -/
theorem read_eq (h : Ready s) (addr : UInt16) (m1 : Bool) (held : Nat) : s.read addr m1 held =
    match s.bitOf addr with
    | some bit => (s.answer addr &&& 0xFE) ||| bit
    | none => s.answer addr := by
  have hheld := h.hold addr m1 held
  rw [Socket.read, hheld.data, hheld.bit]
  cases (s.hold addr m1 (held + 2)).sw.drive <;> rfl

end Read

/-! ## Runs -/

section Runs

variable {s t : Socket}

theorem tick_off (hplugged : t.sw.plugged = true) (lines : CpuBus) :
    (t.tick lines.off).sw = { t.sw with ioPrev := false, accPrev := false, drive := false, haveByte := false } ∧
      (t.tick lines.off).romdis = false ∧ (t.tick lines.off).mem.toBanking = t.mem.toBanking := by
  have hread : (t.committed lines.off).memRead = false := by
    rw [CpuBus.memRead, Socket.committed, CpuBus.off]
    cases lines.mreq <;> cases lines.rd <;> rfl
  have hio : ((t.committed lines.off).iorq && (t.committed lines.off).wr) = false := by
    rw [Socket.committed, CpuBus.off]
    cases lines.iorq <;> cases lines.wr <;> rfl
  have hioWrite : (t.committed lines.off).ioWrite = false := by
    rw [CpuBus.ioWrite, Bool.and_right_comm, hio, Bool.false_and]
  have hsw : t.sw.tick (t.committed lines.off) =
      ({ t.sw with ioPrev := false, accPrev := false, drive := false, haveByte := false }, {}) := by
    have hsnoop : t.sw.snoop (t.committed lines.off) = { t.sw with ioPrev := false } := by
      rw [SmartWatch.snoop, hioWrite]
      rfl
    rw [SmartWatch.tick, if_pos hplugged, hsnoop]
    dsimp only
    rw [SmartWatch.accessed, hread]
    rfl
  have hbanking := Mem.toBanking_tick t.mem ((t.committed lines.off).toMem false)
  rw [show (((t.committed lines.off).toMem false).iorq && ((t.committed lines.off).toMem false).wr) = false from hio,
    if_neg Bool.false_ne_true] at hbanking
  exact ⟨congrArg Prod.fst hsw, by rw [Socket.tick, hsw], hbanking⟩

theorem Reading.release {addr : UInt16} (h : Reading s t addr true) (lines : CpuBus) :
    Ready (t.tick lines.off) ∧ (t.tick lines.off).sw.chip = s.chipAfter addr := by
  obtain ⟨hsw, hdis, hbanking⟩ := tick_off h.plugged lines
  have hrom : (t.tick lines.off).mem.upperRomOn = true := by
    rw [hbanking]
    exact h.rom
  refine ⟨⟨hrom, ?_, ?_, ?_, ?_, ?_, ?_, hdis⟩, ?_⟩
  · rw [hsw]
    exact h.plugged
  · rw [hsw]
    exact h.off
  · rw [hsw]
    exact h.index
  · rw [hsw]
  · rw [hsw]
  · rw [hsw]
  · rw [hsw]
    exact h.chip

theorem Ready.event (h : Ready s) (x : SocketEvent) : Ready (s.event x) ∧
    (s.event x).sw.chip = (match x.toChip with
      | some a => s.sw.chip.event a
      | none => s.sw.chip) := by
  -- A ROM read moves the chip as `Chip.event` says; other traffic and a new time do not.
  cases x with
  | read addr m1 held release =>
    obtain ⟨hready, hchip⟩ := (h.hold addr m1 held).release release
    refine ⟨hready, hchip.trans ?_⟩
    rw [Socket.chipAfter, SocketEvent.toChip]
    cases inRom addr <;> rfl
  | other lines =>
    obtain ⟨hsw, hdis, hbanking⟩ := tick_off h.plugged lines
    have hrom : (s.tick lines.off).mem.upperRomOn = true := by
      rw [hbanking]
      exact h.rom
    rw [Socket.event, SocketEvent.toChip]
    refine ⟨⟨hrom, ?_, ?_, ?_, ?_, ?_, ?_, hdis⟩, ?_⟩
    · rw [hsw]
      exact h.plugged
    · rw [hsw]
      exact h.off
    · rw [hsw]
      exact h.index
    · rw [hsw]
    · rw [hsw]
    · rw [hsw]
    · rw [hsw]
      rfl
  | setTime bcd => exact ⟨⟨h.rom, h.plugged, h.off, h.index, h.drive, h.haveByte, h.accPrev, h.romdis⟩, rfl⟩

theorem Ready.run (h : Ready s) (xs : List SocketEvent) :
    Ready (s.run xs) ∧ (s.run xs).sw.chip = s.sw.chip.run (xs.filterMap SocketEvent.toChip) := by
  induction xs generalizing s with
  | nil => exact ⟨h, rfl⟩
  | cons x xs ih =>
    obtain ⟨hready, hchip⟩ := h.event x
    obtain ⟨hrun, hrest⟩ := ih hready
    refine ⟨hrun, hrest.trans ?_⟩
    rw [hchip, List.filterMap_cons]
    cases x.toChip <;> rfl

theorem Ready.run_time (h : Ready s) (xs : List SocketEvent) :
    (s.run xs).sw.timeBcd = (s.sw.chip.run (xs.filterMap SocketEvent.toChip)).time := congrArg Chip.time (h.run xs).2

theorem toChip_eq_access {x : SocketEvent} {a0 a2 : Bool} (h : x.toChip = some (.access a0 a2)) :
    ∃ addr m1 held release, x = .read addr m1 held release ∧ inRom addr = true ∧ a0 = lineA0 addr ∧ a2 = lineA2 addr := by
  cases x with
  | read addr m1 held release =>
    rw [SocketEvent.toChip] at h
    split at h
    · next hrom =>
      obtain ⟨ha0, ha2⟩ := ChipEvent.access.inj (Option.some.inj h)
      exact ⟨addr, m1, held, release, rfl, hrom, ha0.symm, ha2.symm⟩
    · exact absurd h (by simp)
  | other lines => exact absurd h (by simp [SocketEvent.toChip])
  | setTime bcd => exact absurd (Option.some.inj h) (by simp)

end Runs

/-! ## The bursts -/

/-- `ws` begins behind the read at `addr₀` that ended the pattern, is inside the burst, and the reads of the
    ROM since `zs` began are the pattern. -/
structure InBurst (zs : List SocketEvent) (addr₀ : UInt16) (ws : List SocketEvent) : Prop where
  rom : inRom addr₀ = true
  pattern : romReads zs ++ [(lineA0 addr₀, lineA2 addr₀)] = patternAccesses
  burst : ∀ a ∈ romReads ws, a.2 = true
  short : (romReads ws).length < 64

/-- The reads of the socket: from a state in no match, the pattern and then 64 reads with A2 high that take out
    the clock of the moment of the match, under the other bits of the memory's own byte, whatever is between
    them; and every other read of a run from an idle chip is the memory's own byte. -/
theorem read_burst (s : Socket) (hs : Ready s) :
    (∀ zs addr₀ m1₀ held₀ release₀ ws addr m1 held, s.sw.state ≠ .matching → InBurst zs addr₀ ws →
        inRom addr = true → lineA2 addr = true →
      (s.run (zs ++ .read addr₀ m1₀ held₀ release₀ :: ws)).read addr m1 held =
        ((s.run (zs ++ .read addr₀ m1₀ held₀ release₀ :: ws)).answer addr &&& 0xFE) |||
          clockBit (s.run zs).sw.timeBcd (romReads ws).length) ∧
      (s.sw.state = .idle → ∀ xs addr m1 held, (s.run xs).read addr m1 held = (s.run xs).answer addr ∨
        (inRom addr = true ∧ lineA2 addr = true ∧ ∃ ys zs addr₀ m1₀ held₀ release₀ ws,
          xs = ys ++ (zs ++ .read addr₀ m1₀ held₀ release₀ :: ws) ∧ (s.run ys).sw.state ≠ .matching ∧
            InBurst zs addr₀ ws)) := by
  constructor
  · intro zs addr₀ m1₀ held₀ release₀ ws addr m1 held hstate hb hrom ha2
    obtain ⟨hready, hchip⟩ := hs.run (zs ++ .read addr₀ m1₀ held₀ release₀ :: ws)
    have htime := hs.run_time zs
    have hlow : lineA2 addr₀ = false := by
      have hlast := congrArg List.getLast? hb.pattern
      rw [List.getLast?_concat] at hlast
      exact congrArg Prod.snd (Option.some.inj hlast)
    have hevents : (zs ++ .read addr₀ m1₀ held₀ release₀ :: ws).filterMap SocketEvent.toChip =
        zs.filterMap SocketEvent.toChip ++ .access (lineA0 addr₀) false :: ws.filterMap SocketEvent.toChip := by
      rw [List.filterMap_append, List.filterMap_cons, SocketEvent.toChip, if_pos hb.rom, hlow]
    have hpattern := hb.pattern
    rw [hlow] at hpattern
    have hbit := Chip.bit_of_burst (c := s.sw.chip) hstate hpattern hb.burst hb.short (lineA0 addr)
    rw [read_eq hready, Socket.bitOf, hrom, if_pos rfl, hchip, hevents, ha2, hbit, htime]
    rfl
  · intro hidle xs addr m1 held
    obtain ⟨hready, hchip⟩ := hs.run xs
    rw [read_eq hready]
    cases hbit : (s.run xs).bitOf addr with
    | none => exact .inl rfl
    | some bit =>
      refine .inr ?_
      rw [Socket.bitOf] at hbit
      split at hbit
      · next hrom =>
        rw [hchip] at hbit
        obtain ⟨ha2, ysc, zsc, a0, wsc, hxs, hys, hpattern, hburst, hlen, _⟩ := Chip.burst_of_bit hidle hbit
        -- the parts of the chip's run are those of the socket's
        obtain ⟨ys, rest, rfl, rfl, hrest⟩ := List.filterMap_eq_append_iff.1 hxs
        obtain ⟨zs, tail, rfl, rfl, htail⟩ := List.filterMap_eq_append_iff.1 hrest
        obtain ⟨skip, x, ws, rfl, hskip, hx, rfl⟩ := List.filterMap_eq_cons_iff.1 htail
        obtain ⟨addr₀, m1₀, held₀, release₀, rfl, hrom₀, rfl, hlow⟩ := toChip_eq_access hx
        have hnone : skip.filterMap SocketEvent.toChip = [] := List.filterMap_eq_nil_iff.2 hskip
        refine ⟨hrom, ha2, ys, zs ++ skip, addr₀, m1₀, held₀, release₀, ws, by simp, ?_, hrom₀, ?_, hburst, hlen⟩
        · have hstate := congrArg Chip.state (hs.run ys).2
          exact fun h => hys (hstate.symm.trans h)
        · rw [romReads, List.filterMap_append, hnone, List.append_nil, ← hlow]
          exact hpattern
      · exact absurd hbit (by simp)

/-- A plugged clock that shows 37 hundredths. -/
def board : Socket := { mem := {}, sw := { plugged := true, timeBcd := [0x37, 0, 0, 0, 0, 0, 0, 0] } }

/-- The reads that spell the first bits of the pattern. -/
def spell (n : Nat) : List SocketEvent :=
  (List.range n).map fun i => .read (if kPattern.testBit i then 0xC001 else 0xC000) false 0 {}

theorem read_burst_board : Ready board ∧ InBurst (spell 63) 0xC000 [] ∧
    (board.run (spell 63 ++ [.read 0xC000 true 3 {}])).read 0xC004 false 1 =
      ((board.run (spell 63 ++ [.read 0xC000 true 3 {}])).answer 0xC004 &&& 0xFE) ||| 1 := by
  have hready : Ready board := ⟨rfl, rfl, rfl, by decide, rfl, rfl, rfl, rfl⟩
  have hburst : InBurst (spell 63) 0xC000 [] := ⟨by decide, by decide, by decide, by decide⟩
  have htime : (board.run (spell 63)).sw.timeBcd = [0x37, 0, 0, 0, 0, 0, 0, 0] := by
    rw [hready.run_time]
    decide
  have hread := (read_burst board hready).1 (spell 63) 0xC000 true 3 {} [] 0xC004 false 1 (by decide) hburst (by decide) (by decide)
  rw [htime] at hread
  exact ⟨hready, hburst, hread⟩

end Koncepcja.Expansion
