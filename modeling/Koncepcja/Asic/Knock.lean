import Koncepcja.Buses
import Koncepcja.Lib.Keyword

/-!
# The Unlock Knock

`src/hw/asic.cpp`: the ASIC watches the bytes written to the register-select port of the CRTC, opens
its register page on one sequence of them and closes it on another. Both tiers feed the same machine,
the per-cycle one once for each strobe and the fast one once for each access.

## Main definitions

- `feedKnock`: one byte into the knock machine.
- `tick`, `fastIoWrite`: what the two tiers do with an access.
- `history`: the bytes that a run writes to the select port.

## Main results

- `run_eq_feed`: a run leaves the lock as its history does.
- `Tracks.feed`: the machine follows the keyword recogniser.
- `unlocked_iff`: when the register page is open.
-/

namespace Koncepcja.Asic

open Keyword

/-! ## The lock -/

def kLockSeq : List UInt8 :=
  [0x00, 0x00, 0xFF, 0x77, 0xB3, 0x51, 0xA8, 0xD4, 0x62, 0x39, 0x9C, 0x46, 0x2B, 0x15, 0x8A, 0xCD]

def kLockLen : Nat := 16

/-- `asic_state`, as far as the lock reaches. -/
structure AsicState where
  plugged : Bool := false
  /-- The register page is hidden. -/
  locked : Bool := true
  pageOn : Bool := false
  lockpos : Nat := 0
  /-- The cycle before was a write to the select port. -/
  knockPrev : Bool := false
  deriving DecidableEq, Repr

/-- `asic_dev_reset`. -/
def devReset (a : AsicState) : AsicState :=
  { a with locked := true, pageOn := false, lockpos := 0, knockPrev := false }

/-- `asic_set_plugged`. -/
def setPlugged (a : AsicState) (on : Bool) : AsicState := { a with plugged := on }

def feedKnock (a : AsicState) (val : UInt8) : AsicState :=
  if a.lockpos = 0 then
    if val > 0 then { a with lockpos := 1 } else a
  else if a.lockpos < kLockLen then
    if val = kLockSeq.getD a.lockpos 0 then { a with lockpos := a.lockpos + 1 }
    else
      { a with
        locked := if a.lockpos + 1 = kLockLen then true else a.locked
        lockpos := if val = 0 then 2 else 1 }
  else { a with locked := false, lockpos := if val = 0 then 0 else 1 }

/-! ## The two tiers -/

/-- The lines the ASIC reads for its lock. -/
structure BusIn extends CpuLines
  deriving DecidableEq, Repr

/-- The decode of the register-select port. -/
def selects (port : UInt16) : Bool := port &&& 0x4000 == 0 && (port >>> 8) &&& 3 == 0

/-- A write to the select port is on the bus. -/
def BusIn.knock (bus : BusIn) : Bool := bus.iorq && !bus.m1 && bus.wr && selects bus.addr

/-- The RMR2 write: honoured only while unlocked. -/
def mapPage (a : AsicState) (port : UInt16) (val : UInt8) : AsicState :=
  if !a.locked && port &&& 0xC000 == 0x4000 && val >>> 6 == 2 && val &&& 0x20 != 0 then
    { a with pageOn := (val >>> 3) &&& 3 == 3 }
  else a

/-- `asic_tick`. -/
def tick (a : AsicState) (bus : BusIn) : AsicState :=
  if !a.plugged then a
  else
    let a := if bus.knock && !a.knockPrev then feedKnock a bus.data else a
    let a := { a with knockPrev := bus.knock }
    if bus.iorq && bus.wr then mapPage a bus.addr bus.data else a

/-- `asic_fast_io_write`. -/
def fastIoWrite (a : AsicState) (port : UInt16) (val : UInt8) : AsicState :=
  if !a.plugged then a
  else
    let a := if selects port then feedKnock a val else a
    mapPage a port val

/-- `asic_page_armed`. -/
def pageArmed (a : AsicState) : Bool := a.plugged && !a.locked && a.pageOn

/-! ## Runs -/

/-- What reaches the ASIC: a master cycle, or an access of the fast tier. -/
inductive Access where
  | cycle (bus : BusIn)
  | io (port : UInt16) (val : UInt8)
  deriving DecidableEq, Repr

def AsicState.access (a : AsicState) : Access → AsicState
  | .cycle bus => tick a bus
  | .io port val => fastIoWrite a port val

def AsicState.run (a : AsicState) (xs : List Access) : AsicState := xs.foldl AsicState.access a

/-- The byte that an access hands to the knock machine: a strobe held over several cycles is one write. -/
def Access.byte (prev : Bool) : Access → Option UInt8
  | .cycle bus => if bus.knock && !prev then some bus.data else none
  | .io port val => if selects port then some val else none

/-- The strobe that the next cycle is compared with. -/
def Access.strobe (prev : Bool) : Access → Bool
  | .cycle bus => bus.knock
  | .io _ _ => prev

/-- The bytes written to the select port. -/
def history : Bool → List Access → List UInt8
  | _, [] => []
  | prev, x :: xs => (x.byte prev).toList ++ history (x.strobe prev) xs

/-- The history of a run from reset. -/
abbrev written (xs : List Access) : List UInt8 := history false xs

/-- Lock and position agree. -/
structure SameLock (a b : AsicState) : Prop where
  locked : a.locked = b.locked
  lockpos : a.lockpos = b.lockpos

theorem SameLock.feed {a b : AsicState} (h : SameLock a b) (val : UInt8) :
    SameLock (feedKnock a val) (feedKnock b val) := by
  obtain ⟨aPlugged, locked, aPageOn, lockpos, aPrev⟩ := a
  obtain ⟨bPlugged, _, bPageOn, _, bPrev⟩ := b
  obtain ⟨rfl, rfl⟩ := h
  rw [feedKnock, feedKnock]
  constructor <;> dsimp only <;> split <;> split <;> (try split) <;> rfl

theorem SameLock.feeds {a b : AsicState} (h : SameLock a b) (bytes : List UInt8) :
    SameLock (bytes.foldl feedKnock a) (bytes.foldl feedKnock b) := by
  induction bytes generalizing a b with
  | nil => exact h
  | cons val bytes ih => exact ih (h.feed val)

@[simp] theorem feedKnock_plugged (a : AsicState) (val : UInt8) : (feedKnock a val).plugged = a.plugged := by
  rw [feedKnock]
  split <;> split <;> (try split) <;> rfl

@[simp] theorem feedKnock_knockPrev (a : AsicState) (val : UInt8) : (feedKnock a val).knockPrev = a.knockPrev := by
  rw [feedKnock]
  split <;> split <;> (try split) <;> rfl

theorem mapPage_frame (a : AsicState) (port : UInt16) (val : UInt8) :
    SameLock (mapPage a port val) a ∧ (mapPage a port val).plugged = a.plugged ∧
      (mapPage a port val).knockPrev = a.knockPrev := by
  rw [mapPage]
  split <;> exact ⟨⟨rfl, rfl⟩, rfl, rfl⟩

theorem access_spec {a : AsicState} (hp : a.plugged = true) (x : Access) :
    SameLock (a.access x) ((x.byte a.knockPrev).toList.foldl feedKnock a) ∧
      (a.access x).plugged = true ∧ (a.access x).knockPrev = x.strobe a.knockPrev := by
  -- The bus cycle and the fast OUT feed the same byte; the page that is mapped behind it leaves the lock alone.
  cases x with
  | cycle bus =>
    rw [AsicState.access, tick, hp, Access.byte, Access.strobe]
    by_cases hk : (bus.knock && !a.knockPrev) = true
    · simp only [hk, Bool.not_true, Bool.false_eq_true, if_false, if_true, Option.toList_some,
        List.foldl_cons, List.foldl_nil]
      split
      · obtain ⟨⟨hl, hpos⟩, hplug, hprev⟩ :=
          mapPage_frame { feedKnock a bus.data with knockPrev := bus.knock } bus.addr bus.data
        exact ⟨⟨hl, hpos⟩, by rw [hplug, feedKnock_plugged, hp], hprev⟩
      · exact ⟨⟨rfl, rfl⟩, by rw [feedKnock_plugged, hp], rfl⟩
    · simp only [hk, Bool.not_true, Bool.false_eq_true, if_false, Option.toList_none, List.foldl_nil]
      split
      · obtain ⟨⟨hl, hpos⟩, hplug, hprev⟩ := mapPage_frame { a with knockPrev := bus.knock } bus.addr bus.data
        exact ⟨⟨hl, hpos⟩, by rw [hplug, hp], hprev⟩
      · exact ⟨⟨rfl, rfl⟩, hp, rfl⟩
  | io port val =>
    rw [AsicState.access, fastIoWrite, hp, Access.byte, Access.strobe]
    by_cases hk : selects port = true
    · simp only [hk, Bool.not_true, Bool.false_eq_true, if_false, if_true, Option.toList_some,
        List.foldl_cons, List.foldl_nil]
      obtain ⟨hsame, hplug, hprev⟩ := mapPage_frame (feedKnock a val) port val
      refine ⟨hsame, by rw [hplug, feedKnock_plugged, hp], ?_⟩
      rw [hprev, feedKnock_knockPrev]
    · simp only [hk, Bool.not_true, Bool.false_eq_true, if_false, Option.toList_none, List.foldl_nil]
      obtain ⟨hsame, hplug, hprev⟩ := mapPage_frame a port val
      exact ⟨hsame, by rw [hplug, hp], hprev⟩

/-- A run leaves the lock as the bytes it writes to the select port do, one after another. -/
theorem run_eq_feed {a b : AsicState} (hp : a.plugged = true) (hab : SameLock a b) (xs : List Access) :
    SameLock (a.run xs) ((history a.knockPrev xs).foldl feedKnock b) := by
  induction xs generalizing a b with
  | nil => exact hab
  | cons x xs ih =>
    obtain ⟨⟨hl, hpos⟩, hplug, hprev⟩ := access_spec hp x
    rw [AsicState.run, List.foldl_cons, ← AsicState.run, history, List.foldl_append, ← hprev]
    have hfed := hab.feeds (x.byte a.knockPrev).toList
    exact ih hplug ⟨hl.trans hfed.locked, hpos.trans hfed.lockpos⟩

/-! ## The machine and the recogniser -/

/-- The keyword of the knock: the two zeros before it are its synchronisation. -/
def knock : List UInt8 := kLockSeq.drop 2

theorem zero_not_mem_knock : (0 : UInt8) ∉ knock := by decide

/-- The last byte of the keyword. -/
def lastByte : UInt8 := 0xCD

/-- An attempt whose synchronisation is the byte that ended the attempt before it. -/
def Overlap (h : List UInt8) (n : Nat) : Prop :=
  ∃ p k, Since 0 p knock ∧ h = p ++ (List.replicate (k + 1) 0 ++ knock.take n)

theorem Overlap.concat {h : List UInt8} {n : Nat} {val : UInt8} (ho : Overlap h n) (hval : knock[n]? = some val) :
    Overlap (h ++ [val]) (n + 1) := by
  obtain ⟨p, k, hp, rfl⟩ := ho
  refine ⟨p, k, hp, ?_⟩
  rw [← take_concat_of_getElem? hval]
  simp only [List.append_assoc]

theorem Overlap.concat_zero {h : List UInt8} (ho : Overlap h 0) : Overlap (h ++ [0]) 0 := by
  obtain ⟨p, k, hp, rfl⟩ := ho
  refine ⟨p, k + 1, hp, ?_⟩
  simp only [List.take_zero, List.append_nil, List.append_assoc, List.replicate_succ' (n := k + 1)]

/-- The machine is where the recogniser is, or the recogniser is in an overlap that the machine has not taken up. -/
def Tracks (h : List UInt8) (a : AsicState) : Scan → Prop
  | .idle => a.lockpos = 0
  | .primed => a.lockpos = 1
  | .matched n =>
    a.lockpos = n + 2 ∨ (a.lockpos = if n = 0 then 0 else 1) ∧ a.locked = false ∧ Overlap h n

theorem kLockSeq_getD {m : Nat} (hm : m < knock.length) : knock[m]? = some (kLockSeq.getD (m + 2) 0) := by
  rw [List.getElem?_eq_getElem hm]
  revert m
  decide

section Positions

variable {a : AsicState} (val : UInt8)

theorem feedKnock_idle (h : a.lockpos = 0) :
    (feedKnock a val).lockpos = (if val = 0 then 0 else 1) ∧ (feedKnock a val).locked = a.locked := by
  rw [feedKnock, if_pos h]
  by_cases hval : val = 0
  · subst hval
    simp [h]
  · rw [if_pos (UInt8.pos_iff_ne_zero.mpr hval), if_neg hval]
    exact ⟨rfl, rfl⟩

theorem feedKnock_matched {m : Nat} (h : a.lockpos = m + 2) (hm : m < knock.length) :
    (feedKnock a val).lockpos =
        (if knock[m]? = some val then m + 3 else if val = 0 then 2 else 1) ∧
      (feedKnock a val).locked = (if m = 13 ∧ val ≠ lastByte then true else a.locked) := by
  have hlt : a.lockpos < kLockLen := by
    rw [h]
    exact Nat.add_lt_add_right hm 2
  -- The byte the lock wants next is the byte of the knock, two places on.
  have hexpect : (val = kLockSeq.getD a.lockpos 0) ↔ knock[m]? = some val := by
    rw [h, kLockSeq_getD hm, Option.some_inj, eq_comm]
  rw [feedKnock, if_neg (by omega), if_pos hlt]
  by_cases hval : knock[m]? = some val
  · rw [if_pos (hexpect.mpr hval), if_pos hval]
    refine ⟨by rw [h], (if_neg ?_).symm⟩
    rintro ⟨rfl, hne⟩
    exact hne (Option.some_inj.mp hval).symm
  · rw [if_neg (mt hexpect.mp hval), if_neg hval]
    refine ⟨rfl, ?_⟩
    dsimp only
    -- Only at the last place does a wrong byte lock the ASIC again.
    by_cases h13 : m = 13
    · subst h13
      have hne : val ≠ lastByte := fun heq => hval (by rw [heq]; rfl)
      have hlen : a.lockpos + 1 = kLockLen := by
        rw [h]
        rfl
      rw [if_pos hlen, if_pos ⟨rfl, hne⟩]
    · have hlen : ¬ a.lockpos + 1 = kLockLen := by
        rw [h, kLockLen]
        omega
      rw [if_neg hlen, if_neg (fun h' => h13 h'.1)]

theorem feedKnock_primed (h : a.lockpos = 1) :
    (feedKnock a val).lockpos = (if val = 0 then 2 else 1) ∧ (feedKnock a val).locked = a.locked := by
  rw [feedKnock, if_neg (by omega), if_pos (by rw [h]; decide)]
  have hexpect : kLockSeq.getD a.lockpos 0 = 0 := by rw [h]; rfl
  rw [hexpect]
  by_cases hval : val = 0
  · rw [if_pos hval, if_pos hval]
    exact ⟨by rw [h], rfl⟩
  · rw [if_neg hval, if_neg hval]
    refine ⟨rfl, if_neg ?_⟩
    rw [h]
    decide

theorem feedKnock_full (h : a.lockpos = knock.length + 2) :
    (feedKnock a val).lockpos = (if val = 0 then 0 else 1) ∧ (feedKnock a val).locked = false := by
  rw [feedKnock, if_neg (by rw [h]; decide), if_neg (by rw [h]; decide)]
  exact ⟨rfl, rfl⟩

end Positions

theorem knock_getElem?_ne_zero (n : Nat) : knock[n]? ≠ some 0 :=
  fun h => zero_not_mem_knock (List.mem_of_getElem? h)

/-- The step: the machine goes on tracking the recogniser. -/
theorem Tracks.feed {h : List UInt8} {a : AsicState} {q : Scan} (ht : Tracks h a q) (hq : q.Says 0 knock h)
    (val : UInt8) : Tracks (h ++ [val]) (feedKnock a val) (q.next 0 knock val) := by
  cases q with
  | idle =>
    obtain ⟨hpos, -⟩ := feedKnock_idle val ht
    rw [Scan.next]
    by_cases hval : val = 0
    · rw [if_pos hval] at hpos ⊢
      exact hpos
    · rw [if_neg hval] at hpos ⊢
      exact hpos
  | primed =>
    obtain ⟨hpos, -⟩ := feedKnock_primed val ht
    rw [Scan.next]
    by_cases hval : val = 0
    · rw [if_pos hval] at hpos ⊢
      exact .inl hpos
    · rw [if_neg hval] at hpos ⊢
      exact hpos
  | matched n =>
    obtain ⟨hn, hsince⟩ := hq
    rw [Scan.next]
    rcases ht with hpos | ⟨hpos, hlock, ho⟩
    · rcases Nat.lt_or_eq_of_le hn with hlt | rfl
      · obtain ⟨hpos', -⟩ := feedKnock_matched val hpos hlt
        by_cases hval : knock[n]? = some val
        · rw [if_pos hval] at hpos' ⊢
          exact .inl hpos'
        · rw [if_neg hval] at hpos' ⊢
          by_cases hzero : val = 0
          · rw [if_pos hzero] at hpos' ⊢
            exact .inl hpos'
          · rw [if_neg hzero] at hpos' ⊢
            exact hpos'
      · -- the byte that unlocks: as a zero it synchronises the next attempt, which the machine does not see
        obtain ⟨hpos', hlock'⟩ := feedKnock_full val hpos
        rw [List.getElem?_eq_none (Nat.le_refl _), if_neg (by simp)]
        by_cases hzero : val = 0
        · subst hzero
          rw [if_pos rfl] at hpos' ⊢
          refine .inr ⟨hpos', hlock', h, 0, ?_, by simp⟩
          rwa [List.take_length] at hsince
        · rw [if_neg hzero] at hpos' ⊢
          exact hpos'
    · -- an attempt that the machine has missed: it waits for a byte to synchronise after
      cases n with
      | zero =>
        rw [if_pos rfl] at hpos
        obtain ⟨hpos', hlock'⟩ := feedKnock_idle val hpos
        by_cases hval : knock[0]? = some val
        · have hzero : val ≠ 0 := fun h0 => knock_getElem?_ne_zero 0 (h0 ▸ hval)
          rw [if_neg hzero] at hpos'
          rw [if_pos hval]
          exact .inr ⟨hpos', hlock'.trans hlock, ho.concat hval⟩
        · rw [if_neg hval]
          by_cases hzero : val = 0
          · subst hzero
            rw [if_pos rfl] at hpos' ⊢
            exact .inr ⟨hpos', hlock'.trans hlock, ho.concat_zero⟩
          · rw [if_neg hzero] at hpos' ⊢
            exact hpos'
      | succ n =>
        rw [if_neg (Nat.succ_ne_zero n)] at hpos
        obtain ⟨hpos', hlock'⟩ := feedKnock_primed val hpos
        by_cases hval : knock[n + 1]? = some val
        · have hzero : val ≠ 0 := fun h0 => knock_getElem?_ne_zero (n + 1) (h0 ▸ hval)
          rw [if_neg hzero] at hpos'
          rw [if_pos hval]
          exact .inr ⟨hpos', hlock'.trans hlock, ho.concat hval⟩
        · rw [if_neg hval]
          by_cases hzero : val = 0
          · rw [if_pos hzero] at hpos' ⊢
            exact .inl hpos'
          · rw [if_neg hzero] at hpos' ⊢
            exact hpos'

theorem Tracks.locked {h : List UInt8} {a : AsicState} {q : Scan} (ht : Tracks h a q) (hq : q.Says 0 knock h) {val : UInt8}
    (hov : val ≠ lastByte → ¬ Overlap h 13) :
    (feedKnock a val).locked = false ↔
      q = .matched 14 ∨ (a.locked = false ∧ ¬ (q = .matched 13 ∧ val ≠ lastByte)) := by
  cases q with
  | idle => simp [(feedKnock_idle val ht).2]
  | primed => simp [(feedKnock_primed val ht).2]
  | matched n =>
    have hn : n ≤ 14 := hq.1
    rcases ht with hpos | ⟨hpos, hlock, ho⟩
    · rcases Nat.lt_or_eq_of_le hn with hlt | rfl
      · rw [(feedKnock_matched val hpos hlt).2]
        -- Thirteen bytes matched and the last one not: the lock closes.
        by_cases hrelock : n = 13 ∧ val ≠ lastByte
        · rw [if_pos hrelock]
          simp [hrelock]
        · rw [if_neg hrelock]
          simp [hrelock, Nat.ne_of_lt hlt]
      · simp [(feedKnock_full val hpos).2]
    · -- Behind an overlap the lock may be a byte ahead, and stays as it is.
      have hlock' : (feedKnock a val).locked = a.locked := by
        cases n with
        | zero => exact (feedKnock_idle val hpos).2
        | succ n => exact (feedKnock_primed val hpos).2
      rw [hlock', hlock]
      refine iff_of_true rfl (.inr ⟨rfl, ?_⟩)
      rintro ⟨hn, hval⟩
      cases hn
      exact hov hval ho

/-! ## Histories -/

/-- The lock after a history from reset, as the machine keeps it. -/
def fed (h : List UInt8) : AsicState := h.foldl feedKnock {}

theorem fed_concat (h : List UInt8) (val : UInt8) : fed (h ++ [val]) = feedKnock (fed h) val := by
  rw [fed, List.foldl_append, ← fed, List.foldl_cons, List.foldl_nil]

theorem fed_tracks (h : List UInt8) : Tracks h (fed h) (scan 0 knock h) := by
  induction h using List.reverseRecOn with
  | nil => rfl
  | append_singleton h val ih =>
    rw [fed_concat, scan_concat]
    exact ih.feed (scan_spec zero_not_mem_knock h) val

/-- The next byte, whatever it is, unlocks: the bytes since the last synchronisation are the keyword. -/
def Unlocks (h : List UInt8) : Prop := Since 0 h knock

/-- The next byte locks: only the last byte of the keyword is missing, and it is not that. -/
def Relocks (h : List UInt8) (val : UInt8) : Prop := Since 0 h knock.dropLast ∧ val ≠ lastByte

/-- An attempt to lock is synchronised by the very zero that ended a knock. -/
def Overlaps (h : List UInt8) : Prop :=
  ∃ p k val, Since 0 p knock ∧ val ≠ lastByte ∧ p ++ (List.replicate (k + 1) 0 ++ knock.dropLast) ++ [val] <+: h

/-- Some byte has unlocked, and none has locked after it. -/
def Unlocked (h : List UInt8) : Prop :=
  ∃ g val t, h = g ++ val :: t ∧ Unlocks g ∧
    ∀ g' val' t', h = g' ++ val' :: t' → g.length < g'.length → ¬ Relocks g' val'

theorem not_unlocked_nil : ¬ Unlocked [] := by
  rintro ⟨g, val, t, hg, -⟩
  simp at hg

theorem concat_eq_append_cons {h g t : List UInt8} {val v : UInt8} (hg : h ++ [val] = g ++ v :: t) :
    (g = h ∧ v = val ∧ t = []) ∨ ∃ t', t = t' ++ [val] ∧ h = g ++ v :: t' := by
  rcases List.eq_nil_or_concat t with rfl | ⟨t', x, rfl⟩
  · obtain ⟨rfl, hlast⟩ := List.append_inj' hg rfl
    exact .inl ⟨rfl, (List.singleton_inj.mp hlast).symm, rfl⟩
  · rw [List.concat_eq_append] at hg ⊢
    have hg' : h ++ [val] = (g ++ v :: t') ++ [x] := by
      rw [hg, List.append_assoc, List.cons_append]
    obtain ⟨rfl, hlast⟩ := List.append_inj' hg' rfl
    obtain rfl : val = x := List.singleton_inj.mp hlast
    exact .inr ⟨t', rfl, rfl⟩

theorem unlocked_concat (h : List UInt8) (val : UInt8) :
    Unlocked (h ++ [val]) ↔ Unlocks h ∨ (Unlocked h ∧ ¬ Relocks h val) := by
  constructor
  · rintro ⟨g, v, t, hg, hunlocks, hlater⟩
    rcases concat_eq_append_cons hg with ⟨rfl, rfl, rfl⟩ | ⟨t', rfl, rfl⟩
    · exact .inl hunlocks
    · refine .inr ⟨⟨g, v, t', rfl, hunlocks, fun g' v' s hs hlt => ?_⟩, hlater _ val [] rfl ?_⟩
      · exact hlater g' v' (s ++ [val]) (by rw [hs, List.append_assoc, List.cons_append]) hlt
      · rw [List.length_append, List.length_cons]
        omega
  · rintro (hunlocks | ⟨⟨g, v, t, rfl, hunlocks, hlater⟩, hkeep⟩)
    · refine ⟨h, val, [], rfl, hunlocks, fun g' v' s hs hlt => absurd hlt ?_⟩
      have hlen := congrArg List.length hs
      simp only [List.length_append, List.length_cons, List.length_nil] at hlen
      omega
    · refine ⟨g, v, t ++ [val], by rw [List.append_assoc, List.cons_append], hunlocks, fun g' v' s hs hlt => ?_⟩
      rcases concat_eq_append_cons hs with ⟨rfl, rfl, rfl⟩ | ⟨s', -, hs'⟩
      · exact hkeep
      · exact hlater g' v' s' hs' hlt

theorem fed_locked_iff {h : List UInt8} (hov : ¬ Overlaps h) : (fed h).locked = false ↔ Unlocked h := by
  induction h using List.reverseRecOn with
  | nil => exact iff_of_false (by decide) not_unlocked_nil
  | append_singleton h val ih =>
    have hov' : ¬ Overlaps h := by
      rintro ⟨p, k, v, hp, hv, hpre⟩
      exact hov ⟨p, k, v, hp, hv, hpre.trans (List.prefix_append h [val])⟩
    have hov13 : val ≠ lastByte → ¬ Overlap h 13 := by
      rintro hval ⟨p, k, hp, rfl⟩
      exact hov ⟨p, k, val, hp, hval, List.prefix_refl _⟩
    have hunlocks : scan 0 knock h = .matched 14 ↔ Unlocks h := scan_eq_matched_iff zero_not_mem_knock (by decide)
    have hrelocks : scan 0 knock h = .matched 13 ↔ Since 0 h knock.dropLast :=
      scan_eq_matched_iff zero_not_mem_knock (by decide)
    rw [fed_concat, (fed_tracks h).locked (scan_spec zero_not_mem_knock h) hov13, ih hov', hunlocks, hrelocks,
      unlocked_concat, Relocks]

/-- The ASIC from reset, on the board. -/
def powerOn : AsicState := setPlugged (devReset {}) true

/-- The ASIC is open exactly when a knock has been followed by a byte and no lock has come after it: in every run, in
which no lock attempt starts from the byte that ended a knock. -/
theorem unlocked_iff (xs : List Access) (hov : ¬ Overlaps (written xs)) :
    (powerOn.run xs).locked = false ↔ Unlocked (written xs) := by
  have hrun : SameLock (powerOn.run xs) (fed (written xs)) := run_eq_feed (a := powerOn) (b := {}) rfl ⟨rfl, rfl⟩ xs
  rw [hrun.locked]
  exact fed_locked_iff hov

/-- The bytes of the knock with the non-zero byte and the zero that synchronise it, one access each. -/
def knocks : List Access := (0xFF :: 0x00 :: knock).map (.io 0xBC00)

theorem unlocked_iff_knocks :
    ¬ Overlaps (written (knocks ++ [.io 0xBC00 0x01])) ∧
      ((powerOn.run (knocks ++ [.io 0xBC00 0x01])).locked = false ↔ Unlocked (written (knocks ++ [.io 0xBC00 0x01]))) := by
  have hov : ¬ Overlaps (written (knocks ++ [.io 0xBC00 0x01])) := by
    rintro ⟨p, k, v, hp, -, hpre⟩
    have hlong := hp.length_le
    have hle := hpre.length_le
    have hshort : (written (knocks ++ [.io 0xBC00 0x01])).length = 17 := by decide
    have hknock : knock.length = 14 := rfl
    simp only [List.length_append, List.length_replicate, List.length_dropLast, List.length_singleton] at hle
    omega
  exact ⟨hov, unlocked_iff _ hov⟩

/-- The bytes alone do not open it: one more has to come. And it opens after a synchronisation of two zeros. -/
theorem complete_knock_still_locked :
    written knocks = 0xFF :: 0x00 :: knock ∧ (powerOn.run knocks).locked = true ∧
      (powerOn.run ((0xFF :: 0x00 :: 0x00 :: knock ++ [0x01]).map (.io 0xBC00))).locked = false := by
  decide

end Koncepcja.Asic
