import Koncepcja.Expansion.Snoopers
import Koncepcja.Lib.DropQueue
import Koncepcja.Lib.OneSlot

/-!
# The M4 Board's Mailbox

The host side of `src/hw/m4.cpp`, and `sync_m4_command` of `src/subcycle_bridge.cpp`: the host takes the
frame that waits, executes it and answers, between two cycles of the machine. What it makes of a frame is
its own affair.

## Main results

- `mailbox_faithful`: over every run the frames that the host gets are the ones that the ledger of the
  writes names, and the window shows the answer to the last of them unless it reads as busy.
-/

namespace Koncepcja.Expansion

open Koncepcja.Bytes OneSlot

/-! ## The host's side -/

/-- What the host makes of a frame. -/
structure Answer where
  response : List UInt8
  responseLen : UInt16
  config : List UInt8

/-- What stands in the response window at an offset once the host has answered. -/
def Answer.window (a : Answer) (off : Nat) : Drive :=
  if off < a.responseLen.toNat then { romdis := true, data := some (byteAt a.response off) } else {}

namespace M4

/-- `m4_set_plugged`. -/
def setPlugged (m : M4) (on : Bool) : M4 := { m with plugged := on }

/-- `m4_pending_command`: the frame that waits, taken out of the mailbox. -/
def pendingCommand (m : M4) : Option M4Pending × M4 :=
  if m.pendingValid then (some m.pending, { m with pendingValid := false }) else (none, m)

/-- `m4_complete_response`. -/
def completeResponse (m : M4) (buf : List UInt8) (len : UInt16) : M4 :=
  let n := min len.toNat m4ResponseSize
  { m with
    response := (List.range m4ResponseSize).map fun i => if i < n then byteAt buf i else 0
    responseLen := n
    busy := false }

/-- `m4_write_config`. -/
def writeConfig (m : M4) (buf : List UInt8) (len : Nat) : M4 :=
  let n := min len m4ConfigSize
  { m with
    config := (List.range m4ConfigSize).map fun i => if i < n then byteAt buf i else byteAt m.config i
    configLen := n }

/-- `sync_m4_command`, with what `m4board_execute` leaves in the response. -/
def syncCommand (m : M4) (enabled : Bool) (execute : M4Pending → Answer) : M4 :=
  if enabled then
    match m.pendingCommand with
    | (none, m) => m
    | (some pc, m) =>
      let a := execute pc
      (m.completeResponse a.response a.responseLen).writeConfig a.config m4ConfigSize
  else m

end M4

/-! ## Runs -/

/-- A cycle of the machine, or the host between two of them. -/
inductive Move where
  | cycle (bus : CpuBus)
  | service (enabled : Bool) (execute : M4Pending → Answer)

/-- The command port is written. -/
def CpuBus.commandWrite (bus : CpuBus) : Bool :=
  bus.ioWrite && bus.addr &&& 0xFF00 == 0xFE00 && bus.addr &&& 0xFF == 0

/-- The execute port is. -/
def CpuBus.executeWrite (bus : CpuBus) : Bool := bus.ioWrite && bus.addr &&& 0xFF00 == 0xFC00

/-- One move of the board. -/
def M4.move (m : M4) : Move → M4
  | .cycle bus => (m.tick bus).1
  | .service enabled execute => m.syncCommand enabled execute

/-- The board after some moves. -/
def M4.run (m : M4) (moves : List Move) : M4 := moves.foldl M4.move m

/-- What the host has of a move: the frame and its answer. -/
def M4.drain (m : M4) : Move → List (List UInt8 × Answer)
  | .cycle _ => []
  | .service enabled execute =>
    if enabled then (m.pendingCommand.1.map fun pc => (pc.frame, execute pc)).toList else []

/-- The frames that the host has got over some moves, each with its answer. -/
def M4.drained (m : M4) : List Move → List (List UInt8 × Answer)
  | [] => []
  | mv :: moves => m.drain mv ++ (m.move mv).drained moves

/-- The accesses of the two ports: a write held over several cycles is one, by its first cycle. -/
def portAccesses : Bool → List Move → List (Event UInt8)
  | _, [] => []
  | held, .cycle bus :: moves =>
    (if (bus.commandWrite || bus.executeWrite) && !held then
      (if bus.commandWrite then [.put bus.data] else [.cut]) else []) ++
      portAccesses (bus.commandWrite || bus.executeWrite) moves
  | held, .service enabled _ :: moves => (if enabled then [.take] else []) ++ portAccesses held moves

/-! ## The accesses of one move -/

/-- Whether a port is being written after a move. -/
def heldAfter (held : Bool) : Move → Bool
  | .cycle bus => bus.commandWrite || bus.executeWrite
  | .service _ _ => held

theorem portAccesses_cons (held : Bool) (mv : Move) (moves : List Move) :
    portAccesses held (mv :: moves) = portAccesses held [mv] ++ portAccesses (heldAfter held mv) moves := by
  cases mv <;> simp only [portAccesses, heldAfter, List.append_nil]

/-- What stands in the response window at an offset. -/
def M4.window (m : M4) (off : Nat) : Drive :=
  if off < m.responseLen then { romdis := true, data := some (byteAt m.response off) } else {}

/-- What the window shows when the last answer is `o`; before the first one the ROM shows through. -/
def answerWindow (o : Option (List UInt8 × Answer)) (off : Nat) : Drive :=
  match o with
  | none => {}
  | some (_, a) => a.window off

namespace M4

theorem snoop_eq (m : M4) (bus : CpuBus) : ∃ u r, m.snoop bus = { m with upperRomOff := u, romSelect := r } := by
  unfold snoop
  split_ifs
  · exact ⟨_, _, rfl⟩
  · exact ⟨_, m.romSelect, rfl⟩
  · exact ⟨m.upperRomOff, _, rfl⟩
  · exact ⟨m.upperRomOff, m.romSelect, rfl⟩
  · exact ⟨m.upperRomOff, m.romSelect, rfl⟩

theorem tick_of_plugged {m : M4} (h : m.plugged = true) (bus : CpuBus) :
    m.tick bus = ((m.snoop bus).command bus, ((m.snoop bus).command bus).overlay bus) := by
  rw [tick, if_pos h]

theorem byteAt_map_range (f : Nat → UInt8) {n i : Nat} (h : i < n) : byteAt ((List.range n).map f) i = f i := by
  rw [byteAt, List.getD_eq_getElem?_getD, List.getElem?_map, List.getElem?_range h]
  rfl

theorem writeConfig_window (m : M4) (buf : List UInt8) (len off : Nat) :
    (m.writeConfig buf len).window off = m.window off := rfl

theorem completeResponse_window (m : M4) (a : Answer) {off : Nat} (h : off < m4ResponseSize) :
    (m.completeResponse a.response a.responseLen).window off = a.window off := by
  have hmin : off < min a.responseLen.toNat m4ResponseSize ↔ off < a.responseLen.toNat :=
    ⟨fun hlt => (Nat.lt_min.1 hlt).1, fun hlt => Nat.lt_min.2 ⟨hlt, h⟩⟩
  unfold window Answer.window completeResponse
  by_cases hlt : off < a.responseLen.toNat
  · rw [if_pos (hmin.2 hlt), if_pos hlt, byteAt_map_range _ h, if_pos (hmin.2 hlt)]
  · rw [if_neg (mt hmin.1 hlt), if_neg hlt]

theorem latchExecute_ioPrev (m : M4) : m.latchExecute.ioPrev = m.ioPrev := by
  unfold latchExecute
  split_ifs
  · rfl
  · rfl
  · rfl

theorem command_eq (m : M4) (bus : CpuBus) : m.command bus =
    if (bus.commandWrite || bus.executeWrite) && !m.ioPrev then
      if bus.commandWrite then
        if m.acc.length < m4FrameMax then
          { m with ioPrev := bus.commandWrite || bus.executeWrite, acc := m.acc ++ [bus.data] }
        else { m with ioPrev := bus.commandWrite || bus.executeWrite }
      else latchExecute { m with ioPrev := bus.commandWrite || bus.executeWrite }
    else { m with ioPrev := bus.commandWrite || bus.executeWrite } := rfl

theorem command_ioPrev (m : M4) (bus : CpuBus) :
    (m.command bus).ioPrev = (bus.commandWrite || bus.executeWrite) := by
  rw [command_eq]
  split_ifs
  · rfl
  · rfl
  · rw [latchExecute_ioPrev]
  · rfl

theorem move_ioPrev {m : M4} (h : m.plugged = true) (mv : Move) : (m.move mv).ioPrev = heldAfter m.ioPrev mv := by
  cases mv with
  | cycle bus =>
    rw [move, tick_of_plugged h]
    exact command_ioPrev _ bus
  | service enabled execute =>
    rw [move, syncCommand, pendingCommand, heldAfter]
    split_ifs
    · rfl
    · rfl
    · rfl

theorem run_snoc (m : M4) (moves : List Move) (mv : Move) : m.run (moves ++ [mv]) = (m.run moves).move mv :=
  List.foldl_concat ..

theorem overlay_window (m : M4) {bus : CpuBus} {off : Nat} (hread : bus.memRead = true) (hrom : m.romSelected = true)
    (hoff : off < m4ResponseSize) (haddr : bus.addr.toNat = kRespBase.toNat + off) :
    m.overlay bus = if m.busy then { romdis := true, data := some 0xFF } else m.window off := by
  have hbase : kRespBase ≤ bus.addr := UInt16.le_iff_toNat_le.2 (by omega)
  have hoffset : bus.addr.toNat - kRespBase.toNat = off := by omega
  have hconfig : ¬ kConfigBase ≤ bus.addr := by
    rw [UInt16.le_iff_toNat_le, haddr, show kConfigBase.toNat = 0xF400 from rfl, show kRespBase.toNat = 0xE800 from rfl]
    unfold m4ResponseSize at hoff
    omega
  rw [overlay, if_pos (by rw [hread, hrom]; rfl)]
  simp only [hoffset, hbase, true_and, hconfig, false_and, if_false, and_true, hoff, window]

end M4

/-! ## The board keeps the ledger -/

/-- The board stands where the ledger of the accesses does, and `got` is what the host has got so far. -/
structure Tracks (m : M4) (log : List (Event UInt8)) (got : List (List UInt8 × Answer)) (taken : List Nat)
    (waiting : Option Nat) : Prop where
  plugged : m.plugged = true
  acc : m.acc = (pieces log).take m4FrameMax
  ledger : Ledger m4FrameMax 3 log taken waiting
  frames : got.map Prod.fst = taken.map (frameAt m4FrameMax log)
  valid : m.pendingValid = waiting.isSome
  pending : ∀ i ∈ waiting, m.pending.frame = frameAt m4FrameMax log i
  busy : m.busy = waiting.isSome
  answer : waiting = none → ∀ off < m4ResponseSize, m.window off = answerWindow got.getLast? off

namespace Tracks

variable {m : M4} {log : List (Event UInt8)} {got : List (List UInt8 × Answer)} {taken : List Nat}
  {waiting : Option Nat}

theorem devReset (m : M4) : Tracks (m.setPlugged true).devReset [] [] [] none where
  plugged := rfl
  acc := rfl
  ledger := Ledger.nil
  frames := rfl
  valid := rfl
  pending i hi := absurd hi (Option.not_mem_none i)
  busy := rfl
  answer _ _ _ := rfl

theorem paging (h : Tracks m log got taken waiting) (u r : UInt8) :
    Tracks { m with upperRomOff := u, romSelect := r } log got taken waiting := { h with }

theorem held (h : Tracks m log got taken waiting) (held : Bool) :
    Tracks { m with ioPrev := held } log got taken waiting := { h with }

theorem frames_snoc (h : Tracks m log got taken waiting) (e : Event UInt8) :
    got.map Prod.fst = taken.map (frameAt m4FrameMax (log ++ [e])) := by
  rw [h.frames]
  refine List.map_congr_left fun i hi => (frameAt_snoc _ _ _ ?_).symm
  exact Nat.le_of_lt (h.ledger.lt_length (List.mem_append_left _ hi))

theorem pending_snoc (h : Tracks m log got taken waiting) (e : Event UInt8) :
    ∀ i ∈ waiting, m.pending.frame = frameAt m4FrameMax (log ++ [e]) i := by
  intro i hi
  rw [h.pending i hi, frameAt_snoc]
  refine Nat.le_of_lt (h.ledger.lt_length (List.mem_append_right _ ?_))
  exact Option.mem_toList.2 hi

theorem put (h : Tracks m log got taken waiting) (b : UInt8) :
    Tracks (if m.acc.length < m4FrameMax then { m with acc := m.acc ++ [b] } else m) (log ++ [.put b]) got taken
      waiting := by
  have hacc : DropQueue.offer m4FrameMax m.acc b = (pieces (log ++ [.put b])).take m4FrameMax := by
    have hall (bytes : List UInt8) : DropQueue.offerAll m4FrameMax [] bytes = bytes.take m4FrameMax := by
      rw [DropQueue.offerAll_eq (q := []) (Nat.zero_le _), List.nil_append, List.length_nil, Nat.sub_zero]
    rw [pieces_snoc, Event.onPieces, ← hall, DropQueue.offerAll_append, hall, ← h.acc]
    rfl
  have hbase : Tracks { m with acc := DropQueue.offer m4FrameMax m.acc b } (log ++ [.put b]) got taken waiting :=
    { h with
      acc := hacc
      ledger := h.ledger.put b
      frames := h.frames_snoc _
      pending := h.pending_snoc _ }
  rw [DropQueue.offer] at hbase
  split
  · next hroom => rwa [if_pos hroom] at hbase
  · next hfull => rwa [if_neg hfull] at hbase

theorem latch (h : Tracks m log got taken waiting) :
    ∃ waiting', Tracks m.latchExecute (log ++ [.cut]) got taken waiting' := by
  have hempty : ([] : List UInt8) = (pieces (log ++ [.cut])).take m4FrameMax := by
    rw [pieces_snoc]
    rfl
  unfold M4.latchExecute
  -- With a frame waiting, this one is dropped whole; else it waits, unless it is too short.
  cases waiting with
  | some w =>
    have hvalid : m.pendingValid = true := h.valid
    rw [if_pos hvalid]
    exact ⟨some w, { h with
      acc := hempty
      ledger := h.ledger.cut_dropped
      frames := h.frames_snoc _
      pending := h.pending_snoc _ }⟩
  | none =>
    have hvalid : m.pendingValid = false := h.valid
    rw [if_neg (Bool.eq_false_iff.1 hvalid)]
    split
    · next hlong =>
      rw [h.acc] at hlong
      refine ⟨some log.length, { h with
        acc := hempty
        ledger := h.ledger.cut_accepted hlong
        frames := h.frames_snoc _
        valid := rfl
        pending := fun i hi => ?_
        busy := rfl
        answer := fun hnone => absurd hnone (Option.some_ne_none _) }⟩
      rw [← Option.mem_some.1 hi, frameAt_snoc _ _ _ (Nat.le_refl _), frameAt_length]
      exact h.acc
    · next hshort =>
      rw [h.acc] at hshort
      exact ⟨none, { h with
        acc := hempty
        ledger := h.ledger.cut_short (Nat.lt_of_not_le hshort)
        frames := h.frames_snoc _
        pending := h.pending_snoc _ }⟩

theorem take (h : Tracks m log got taken waiting) (execute : M4Pending → Answer) :
    ∃ taken', Tracks (m.syncCommand true execute) (log ++ [.take]) (got ++ m.drain (.service true execute)) taken'
      none := by
  have hacc : m.acc = (pieces (log ++ [.take])).take m4FrameMax := by
    rw [pieces_snoc]
    exact h.acc
  have hvalid := h.valid
  cases waiting with
  | none =>
    rw [Option.isSome_none] at hvalid
    -- Nothing waits, and nothing is handed over.
    have hnothing : m.pendingCommand = (none, m) := by rw [M4.pendingCommand, hvalid, if_neg Bool.false_ne_true]
    rw [M4.syncCommand, if_pos rfl, hnothing, M4.drain, if_pos rfl, hnothing]
    rw [show got ++ (Option.map (fun pc : M4Pending => (pc.frame, execute pc)) none).toList = got from
      List.append_nil got]
    exact ⟨taken, { h with
      acc := hacc
      ledger := h.ledger.take_nothing
      frames := h.frames_snoc _
      pending := h.pending_snoc _ }⟩
  | some w =>
    rw [Option.isSome_some] at hvalid
    -- The frame that waits is handed over, and answered in the ROM.
    have hframe : m.pendingCommand = (some m.pending, { m with pendingValid := false }) := by
      rw [M4.pendingCommand, hvalid, if_pos rfl]
    rw [M4.syncCommand, if_pos rfl, hframe, M4.drain, if_pos rfl, hframe]
    refine ⟨taken ++ [w], ?_⟩
    refine ⟨h.plugged, hacc, h.ledger.take_waiting, ?_, rfl, fun i hi => absurd hi (Option.not_mem_none i), rfl, ?_⟩
    · rw [List.map_append, List.map_append, h.frames_snoc .take]
      exact congrArg _ (congrArg (· :: []) (h.pending_snoc .take w rfl))
    · intro _ off hoff
      rw [show (Option.map (fun pc : M4Pending => (pc.frame, execute pc)) (some m.pending)).toList =
        [(m.pending.frame, execute m.pending)] from rfl, List.getLast?_concat, M4.writeConfig_window]
      exact M4.completeResponse_window { m with pendingValid := false } (execute m.pending) hoff

theorem command (h : Tracks m log got taken waiting) (bus : CpuBus) :
    ∃ waiting', Tracks (m.command bus) (log ++ portAccesses m.ioPrev [.cycle bus]) got taken waiting' := by
  have hheld := h.held (bus.commandWrite || bus.executeWrite)
  rw [M4.command_eq, portAccesses, portAccesses, List.append_nil]
  by_cases hedge : ((bus.commandWrite || bus.executeWrite) && !m.ioPrev) = true
  · rw [if_pos hedge, if_pos hedge]
    by_cases hput : bus.commandWrite = true
    · rw [if_pos hput, if_pos hput]
      exact ⟨waiting, hheld.put bus.data⟩
    · rw [if_neg hput, if_neg hput]
      exact hheld.latch
  · rw [if_neg hedge, if_neg hedge, List.append_nil]
    exact ⟨waiting, hheld⟩

theorem move (h : Tracks m log got taken waiting) (mv : Move) :
    ∃ taken' waiting', Tracks (m.move mv) (log ++ portAccesses m.ioPrev [mv]) (got ++ m.drain mv) taken' waiting' := by
  cases mv with
  | cycle bus =>
    obtain ⟨u, r, hsnoop⟩ := m.snoop_eq bus
    obtain ⟨waiting', h'⟩ := (h.paging u r).command bus
    refine ⟨taken, waiting', ?_⟩
    rw [M4.move, M4.tick_of_plugged h.plugged, hsnoop, M4.drain, List.append_nil]
    exact h'
  | service enabled execute =>
    cases enabled with
    | true =>
      obtain ⟨taken', h'⟩ := h.take execute
      exact ⟨taken', none, h'⟩
    | false =>
      refine ⟨taken, waiting, ?_⟩
      rw [show log ++ portAccesses m.ioPrev [.service false execute] = log from List.append_nil log,
        show got ++ m.drain (.service false execute) = got from List.append_nil got]
      exact h

theorem run (h : Tracks m log got taken waiting) (moves : List Move) :
    ∃ taken' waiting',
      Tracks (m.run moves) (log ++ portAccesses m.ioPrev moves) (got ++ m.drained moves) taken' waiting' := by
  induction moves generalizing m log got taken waiting with
  | nil =>
    refine ⟨taken, waiting, ?_⟩
    rw [portAccesses, M4.drained, List.append_nil, List.append_nil]
    exact h
  | cons mv moves ih =>
    obtain ⟨taken', waiting', hmove⟩ := h.move mv
    rw [portAccesses_cons, M4.drained, ← List.append_assoc, ← List.append_assoc, ← M4.move_ioPrev h.plugged]
    exact ih hmove

end Tracks

/-! ## The mailbox -/

/-- Over every run of cycles and services from a reset on, let `taken` be the cuts of the command stream
    whose frames were taken, and `waiting` the one whose frame waits, as the ledger of the accesses has it.
    Then the frames the host gets are those that `taken` names, in that order; and a read of the response
    window at the end of the run finds it busy where a frame waits, else the answer to the frame that was
    accepted last. -/
theorem mailbox_faithful (m : M4) (moves : List Move) :
    ∃ taken waiting,
      Ledger m4FrameMax 3 (portAccesses false moves) taken waiting ∧
      ((m.setPlugged true).devReset.drained moves).map Prod.fst =
        taken.map (frameAt m4FrameMax (portAccesses false moves)) ∧
      ∀ before bus off, moves = before ++ [.cycle bus] → off < m4ResponseSize → bus.memRead = true →
        bus.addr.toNat = kRespBase.toNat + off → ((m.setPlugged true).devReset.run moves).romSelected = true →
        (((m.setPlugged true).devReset.run before).tick bus).2 =
          if waiting.isSome then { romdis := true, data := some 0xFF }
          else answerWindow ((m.setPlugged true).devReset.drained moves).getLast? off := by
  obtain ⟨taken, waiting, h⟩ := (Tracks.devReset m).run moves
  rw [List.nil_append, List.nil_append] at h
  refine ⟨taken, waiting, h.ledger, h.frames, ?_⟩
  intro before bus off hmoves hoff hread haddr hrom
  obtain ⟨_, _, hbefore⟩ := (Tracks.devReset m).run before
  have hlast : (((m.setPlugged true).devReset.run before).tick bus).2 =
      ((m.setPlugged true).devReset.run moves).overlay bus := by
    rw [hmoves, M4.run_snoc, M4.move, M4.tick_of_plugged hbefore.plugged]
  rw [hlast, M4.overlay_window _ hread hrom hoff haddr, h.busy]
  cases hw : waiting with
  | some w => rfl
  | none => exact h.answer hw off hoff

end Koncepcja.Expansion
