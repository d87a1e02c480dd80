import Koncepcja.Lib.Agenda
import Koncepcja.Lib.LittleEndian

/-!
# Record and Replay

`src/subcycle/record_replay.cpp`: the inputs of a session, each tagged with the master cycle it applies
at, written to a trace and played back through the cycle hook of the machine.

## Main definitions

- `serialize`, `deserialize`: the trace.
- `Player.applyPending`: what the hook does at a master cycle.
- `Replays`: each event once, in cycle order, at the first hook that is not before it.

## Main results

- `deserialize_serialize`: what comes back of any list of events.
- `Player.run_eq_handOut`: the cursor of the player hands the events out.
- `roundTrip_and_replays_iff`: a recording survives exactly when its length fits the count field.
-/

namespace Koncepcja.RecordReplay

open Bytes

/-! ## Events -/

inductive EventKind where
  | keyRow
  | key
  | amxMouse
  | symMouse
  deriving DecidableEq, Repr

/-- The byte of a kind. -/
def EventKind.code : EventKind → UInt8
  | .keyRow => 0
  | .key => 1
  | .amxMouse => 2
  | .symMouse => 3

/-- `valid_kind`, and the kind. -/
def EventKind.ofCode? (k : UInt8) : Option EventKind :=
  if k = 0 then some .keyRow
  else if k = 1 then some .key
  else if k = 2 then some .amxMouse
  else if k = 3 then some .symMouse
  else none

@[simp] theorem EventKind.ofCode?_code (k : EventKind) : EventKind.ofCode? k.code = some k := by
  cases k <;> rfl

structure InputEvent where
  cycle : UInt64 := 0
  kind : EventKind := .keyRow
  a : UInt8 := 0
  b : UInt8 := 0
  dx : Int16 := 0
  dy : Int16 := 0
  deriving DecidableEq, Repr

/-! ## The trace -/

def kMagic : List UInt8 := [0x4B, 0x52, 0x50, 0x4C]

def kFormatVersion : Nat := 1

def kHeaderBytes : Nat := 12

def kRecordBytes : Nat := 15

def record (ev : InputEvent) : List UInt8 :=
  leBytes 8 ev.cycle.toNat ++ [ev.kind.code, ev.a, ev.b] ++
    leBytes 2 ev.dx.toUInt16.toNat ++ leBytes 2 ev.dy.toUInt16.toNat

/-- `Recorder::serialize`: the count is a 32-bit field. -/
def serialize (events : List InputEvent) : List UInt8 :=
  kMagic ++ leBytes 4 kFormatVersion ++ leBytes 4 (events.length % 2 ^ 32) ++ events.flatMap record

/-- The record at the head of the bytes. -/
def readRecord (p : List UInt8) : Option InputEvent := do
  let kind ← EventKind.ofCode? (p.getD 8 0)
  return {
    cycle := UInt64.ofNat (ofLe (p.take 8))
    kind := kind
    a := p.getD 9 0
    b := p.getD 10 0
    dx := (UInt16.ofNat (ofLe ((p.drop 11).take 2))).toInt16
    dy := (UInt16.ofNat (ofLe ((p.drop 13).take 2))).toInt16 }

/-- So many records, one after another. -/
def readRecords : Nat → List UInt8 → Option (List InputEvent)
  | 0, _ => some []
  | count + 1, p => do
    let ev ← readRecord p
    let parsed ← readRecords count (p.drop kRecordBytes)
    return ev :: parsed

def deserialize (data : List UInt8) : Option (List InputEvent) :=
  if data.length < kHeaderBytes then none
  else if data.take 4 ≠ kMagic then none
  else if ofLe ((data.drop 4).take 4) ≠ kFormatVersion then none
  else
    let count := ofLe ((data.drop 8).take 4)
    if data.length < kHeaderBytes + count * kRecordBytes then none
    else readRecords count (data.drop kHeaderBytes)

@[simp] theorem record_length (ev : InputEvent) : (record ev).length = kRecordBytes := by
  simp [record, kRecordBytes]

theorem records_length (events : List InputEvent) : (events.flatMap record).length = events.length * kRecordBytes := by
  induction events with
  | nil => rfl
  | cons ev events ih =>
    rw [List.flatMap_cons, List.length_append, record_length, ih, List.length_cons, Nat.succ_mul, Nat.add_comm]

theorem record_append (ev : InputEvent) (tail : List UInt8) :
    record ev ++ tail =
      leBytes 8 ev.cycle.toNat ++
        ev.kind.code :: ev.a :: ev.b :: (leBytes 2 ev.dx.toUInt16.toNat ++ (leBytes 2 ev.dy.toUInt16.toNat ++ tail)) := by
  simp only [record, List.append_assoc, List.cons_append, List.nil_append]

theorem readRecord_record (ev : InputEvent) (tail : List UInt8) : readRecord (record ev ++ tail) = some ev := by
  have hcycle : ofLe (leBytes 8 ev.cycle.toNat) = ev.cycle.toNat := ofLe_leBytes_of_lt ev.cycle.toNat_lt
  have hdx : ofLe (leBytes 2 ev.dx.toUInt16.toNat) = ev.dx.toUInt16.toNat := ofLe_leBytes_of_lt ev.dx.toUInt16.toNat_lt
  have hdy : ofLe (leBytes 2 ev.dy.toUInt16.toNat) = ev.dy.toUInt16.toNat := ofLe_leBytes_of_lt ev.dy.toUInt16.toNat_lt
  rw [readRecord, record_append]
  have hlen := leBytes_length 8 ev.cycle.toNat
  have hfield (i : Nat) (rest : List UInt8) : (leBytes 8 ev.cycle.toNat ++ rest).getD (8 + i) 0 = rest.getD i 0 := by
    rw [List.getD_eq_getElem?_getD, List.getElem?_append_right (by omega), hlen, Nat.add_sub_cancel_left,
      List.getD_eq_getElem?_getD]
  have hdrop (i : Nat) (rest : List UInt8) : (leBytes 8 ev.cycle.toNat ++ rest).drop (8 + i) = rest.drop i := by
    rw [List.drop_append, List.drop_of_length_le (by omega), hlen, Nat.add_sub_cancel_left, List.nil_append]
  rw [hfield 0, hfield 1, hfield 2, hdrop 3, hdrop 5, List.take_left' hlen, hcycle]
  simp [hdx, hdy, List.take_left', List.drop_left']

theorem readRecords_records {events : List InputEvent} {n : Nat} (h : n ≤ events.length) (tail : List UInt8) :
    readRecords n (events.flatMap record ++ tail) = some (events.take n) := by
  induction n generalizing events with
  | zero => rfl
  | succ n ih =>
    cases events with
    | nil => simp at h
    | cons ev events =>
      rw [readRecords, List.flatMap_cons, List.append_assoc, readRecord_record,
        List.drop_left' (record_length ev), ih (Nat.le_of_succ_le_succ h), List.take_succ_cons]
      rfl

/-- What comes back of a trace: as many events as its count field says. -/
theorem deserialize_serialize (events : List InputEvent) :
    deserialize (serialize events) = some (events.take (events.length % 2 ^ 32)) := by
  have hle : events.length % 2 ^ 32 ≤ events.length := Nat.mod_le _ _
  have hlen : (serialize events).length = kHeaderBytes + events.length * kRecordBytes := by
    simp only [serialize, List.length_append, leBytes_length, records_length]
    rfl
  have hversion : ofLe (leBytes 4 kFormatVersion) = kFormatVersion := rfl
  have hcount : ofLe (leBytes 4 (events.length % 2 ^ 32)) = events.length % 2 ^ 32 :=
    ofLe_leBytes_of_lt (Nat.mod_lt _ (by decide))
  -- The stream as its fields in order, then what is left behind each of them.
  have hparts : serialize events =
      kMagic ++ (leBytes 4 kFormatVersion ++ (leBytes 4 (events.length % 2 ^ 32) ++ events.flatMap record)) := by
    simp only [serialize, List.append_assoc]
  have h4 : (serialize events).drop 4 =
      leBytes 4 kFormatVersion ++ (leBytes 4 (events.length % 2 ^ 32) ++ events.flatMap record) := by
    rw [hparts, List.drop_left' (show kMagic.length = 4 from rfl)]
  have h8 : (serialize events).drop 8 = leBytes 4 (events.length % 2 ^ 32) ++ events.flatMap record := by
    rw [show 8 = 4 + 4 from rfl, ← List.drop_drop, h4, List.drop_left' (leBytes_length _ _)]
  have h12 : (serialize events).drop kHeaderBytes = events.flatMap record := by
    rw [show kHeaderBytes = 8 + 4 from rfl, ← List.drop_drop, h8, List.drop_left' (leBytes_length _ _)]
  have hmagic : (serialize events).take 4 = kMagic := by
    rw [hparts, List.take_left' (show kMagic.length = 4 from rfl)]
  rw [deserialize, if_neg (by omega), if_neg (not_not.mpr hmagic), h4, List.take_left' (leBytes_length _ _),
    if_neg (not_not.mpr hversion), h8, List.take_left' (leBytes_length _ _), hcount, h12]
  -- The records that the 32-bit count asks for are all there.
  have hfits : ¬ (serialize events).length < kHeaderBytes + events.length % 2 ^ 32 * kRecordBytes := by
    rw [hlen, Nat.not_lt]
    exact Nat.add_le_add_left (Nat.mul_le_mul_right _ hle) _
  have hread := readRecords_records hle []
  rw [List.append_nil] at hread
  dsimp only
  rw [if_neg hfits, hread]

/-! ## Replay -/

/-- What an event calls on the machine. -/
inductive Call where
  | setKeyRow (row columns : UInt8)
  | key (code : UInt8) (down : Bool)
  | amxMouseFeed (dx dy : Int16) (buttons : UInt8)
  | symbifaceMousePacket (packet : UInt8)
  deriving DecidableEq, Repr

/-- The switch of `apply_pending`. -/
def InputEvent.call (ev : InputEvent) : Call :=
  match ev.kind with
  | .keyRow => .setKeyRow ev.a ev.b
  | .key => .key ev.a (ev.b != 0)
  | .amxMouse => .amxMouseFeed ev.dx ev.dy ev.b
  | .symMouse => .symbifaceMousePacket ev.b

/-- When an event is due. -/
def InputEvent.date (ev : InputEvent) : Nat := ev.cycle.toNat

structure Player where
  events : List InputEvent
  cursor : Nat := 0
  deriving DecidableEq, Repr

/-- `Player::Player`: a stable sort by cycle. -/
def Player.ofEvents (events : List InputEvent) : Player :=
  { events := events.mergeSort fun l r => !decide (r.cycle < l.cycle) }

/-- `Player::apply_pending`, and the events it applies, each by its call. -/
def Player.applyPending (p : Player) (masterCycle : UInt64) : Player × List InputEvent :=
  if h : p.cursor < p.events.length then
    if p.events[p.cursor].cycle ≤ masterCycle then
      let rest := applyPending { p with cursor := p.cursor + 1 } masterCycle
      (rest.1, p.events[p.cursor] :: rest.2)
    else (p, [])
  else (p, [])
termination_by p.events.length - p.cursor

/-- The hook, at one master cycle after another: the events applied at each. -/
def Player.run : Player → List UInt64 → List (List InputEvent)
  | _, [] => []
  | p, masterCycle :: later => (p.applyPending masterCycle).2 :: Player.run (p.applyPending masterCycle).1 later

theorem Player.ofEvents_events (events : List InputEvent) :
    (Player.ofEvents events).events = Agenda.inOrder InputEvent.date events := by
  have hle : (fun l r : InputEvent => !decide (r.cycle < l.cycle)) = Agenda.dueBy InputEvent.date := by
    funext l r
    rw [Agenda.dueBy, ← decide_not]
    refine decide_eq_decide.mpr ?_
    rw [UInt64.lt_iff_toNat_lt, Nat.not_lt]
    rfl
  rw [Player.ofEvents, hle, Agenda.inOrder]

theorem Player.applyPending_spec (p : Player) (masterCycle : UInt64) :
    (p.applyPending masterCycle).1.events = p.events ∧
      (p.applyPending masterCycle).2 =
        (p.events.drop p.cursor).takeWhile (·.date ≤ masterCycle.toNat) ∧
      p.events.drop (p.applyPending masterCycle).1.cursor =
        (p.events.drop p.cursor).dropWhile (·.date ≤ masterCycle.toNat) := by
  -- Along the calls of `applyPending`: an event that is due is taken, the first that is not stops it.
  induction p using Player.applyPending.induct masterCycle with
  | case1 p h hdue ih =>
    rw [Player.applyPending, dif_pos h, if_pos hdue]
    obtain ⟨hevents, hcalls, hcursor⟩ := ih
    have hdate : decide (p.events[p.cursor].date ≤ masterCycle.toNat) = true :=
      decide_eq_true (UInt64.le_iff_toNat_le.mp hdue)
    rw [List.drop_eq_getElem_cons h,
      List.takeWhile_cons_of_pos (p := fun ev : InputEvent => decide (ev.date ≤ masterCycle.toNat)) hdate,
      List.dropWhile_cons_of_pos (p := fun ev : InputEvent => decide (ev.date ≤ masterCycle.toNat)) hdate]
    exact ⟨hevents, congrArg _ hcalls, hcursor⟩
  | case2 p h hdue =>
    rw [Player.applyPending, dif_pos h, if_neg hdue]
    have hdate : ¬ decide (p.events[p.cursor].date ≤ masterCycle.toNat) = true := fun hd =>
      hdue (UInt64.le_iff_toNat_le.mpr (of_decide_eq_true hd))
    refine ⟨rfl, ?_, ?_⟩
    · rw [List.drop_eq_getElem_cons h,
        List.takeWhile_cons_of_neg (p := fun ev : InputEvent => decide (ev.date ≤ masterCycle.toNat)) hdate]
    · rw [List.drop_eq_getElem_cons h,
        List.dropWhile_cons_of_neg (p := fun ev : InputEvent => decide (ev.date ≤ masterCycle.toNat)) hdate]
  | case3 p h =>
    rw [Player.applyPending, dif_neg h, List.drop_of_length_le (Nat.not_lt.mp h)]
    exact ⟨rfl, rfl, rfl⟩

/-- The cursor hands the events out. -/
theorem Player.run_eq_handOut (p : Player) (hooks : List UInt64) :
    p.run hooks = Agenda.handOut InputEvent.date (p.events.drop p.cursor) (hooks.map UInt64.toNat) := by
  induction hooks generalizing p with
  | nil => rfl
  | cons masterCycle later ih =>
    obtain ⟨hevents, hcalls, hcursor⟩ := p.applyPending_spec masterCycle
    rw [Player.run, ih, hevents, hcursor, hcalls, List.map_cons, Agenda.handOut]

/-- What the machine is called with at each hook. -/
def replay (events : List InputEvent) (hooks : List UInt64) : List (List Call) :=
  ((Player.ofEvents events).run hooks).map (·.map InputEvent.call)

/-- A list of events in stable cycle order. -/
structure StableOrder (events order : List InputEvent) : Prop where
  perm : order.Perm events
  sorted : order.Pairwise fun l r => l.cycle ≤ r.cycle
  stable : ∀ cycle, order.filter (·.cycle = cycle) = events.filter (·.cycle = cycle)

/-- Each hook calls, in stable cycle order, the events it is the first hook for that is not before them. -/
def Replays (events : List InputEvent) (hooks : List UInt64) (calls : List (List Call)) : Prop :=
  ∃ order, StableOrder events order ∧ ∀ i, calls[i]? = hooks[i]?.map fun now =>
    (order.filter fun ev => decide (ev.cycle ≤ now) && (hooks.take i).all (decide <| · < ev.cycle)).map InputEvent.call

theorem ofEvents_stableOrder (events : List InputEvent) : StableOrder events (Player.ofEvents events).events := by
  rw [Player.ofEvents_events]
  have hsorted := Agenda.inOrder_ordered InputEvent.date events
  refine ⟨Agenda.inOrder_perm _ _, hsorted.imp fun h => UInt64.le_iff_toNat_le.mpr h, fun cycle => ?_⟩
  have hcycle (ev : InputEvent) : decide (ev.cycle = cycle) = decide (ev.date = cycle.toNat) :=
    decide_eq_decide.mpr UInt64.toNat_inj.symm
  simp only [hcycle]
  exact Agenda.inOrder_stable _ _ _

theorem replay_replays (events : List InputEvent) (hooks : List UInt64) :
    Replays events hooks (replay events hooks) := by
  refine ⟨_, ofEvents_stableOrder events, fun i => ?_⟩
  have hordered : Agenda.Ordered InputEvent.date (Player.ofEvents events).events :=
    Player.ofEvents_events events ▸ Agenda.inOrder_ordered _ _
  rw [replay, List.getElem?_map, Player.run_eq_handOut]
  have hcursor : (Player.ofEvents events).cursor = 0 := rfl
  rw [hcursor, List.drop_zero, hordered.handOut_getElem?, List.getElem?_map, Option.map_map, Option.map_map]
  refine congrArg (Option.map · hooks[i]?) (funext fun now => ?_)
  refine congrArg (List.map InputEvent.call) (List.filter_congr fun ev _ => Bool.eq_iff_iff.mpr ?_)
  rw [← List.map_take]
  simp only [Bool.and_eq_true, List.all_eq_true, decide_eq_true_eq, List.forall_mem_map, UInt64.le_iff_toNat_le,
    UInt64.lt_iff_toNat_lt]
  rfl

/-- A recording is read back as it was written and replayed as it was recorded exactly when it has fewer than 2^32 events. -/
theorem roundTrip_and_replays_iff (events : List InputEvent) :
    (deserialize (serialize events) = some events ∧ ∀ hooks, Replays events hooks (replay events hooks)) ↔
      events.length < 2 ^ 32 := by
  rw [deserialize_serialize, Option.some_inj, and_iff_left (fun hooks => replay_replays events hooks)]
  constructor
  · intro h
    have hlen := congrArg List.length h
    rw [List.length_take, Nat.min_eq_left (Nat.mod_le _ _)] at hlen
    rw [← hlen]
    exact Nat.mod_lt _ (by decide)
  · intro h
    rw [Nat.mod_eq_of_lt h, List.take_length]

/-- One event too many for the count field: the trace reads back empty. -/
theorem deserialize_serialize_pow :
    deserialize (serialize (List.replicate (2 ^ 32) {})) = some [] ∧
      deserialize (serialize (List.replicate (2 ^ 32) {})) ≠ some (List.replicate (2 ^ 32) {}) := by
  have hempty : deserialize (serialize (List.replicate (2 ^ 32) {})) = some [] := by
    rw [deserialize_serialize, List.length_replicate, Nat.mod_self, List.take_zero]
  refine ⟨hempty, fun h => ?_⟩
  rw [hempty, Option.some_inj] at h
  exact absurd (congrArg List.length h) (by rw [List.length_replicate]; decide)

end Koncepcja.RecordReplay
