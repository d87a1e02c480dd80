import Koncepcja.Lib.ByteBuf
import Mathlib.Data.List.Basic

/-!
# Session Recordings

`src/session_recording.cpp`: a `.ksr` file holds a snapshot and then, frame by frame, the input events of a session. The
recorder writes a record for each event and a marker at the end of each frame; the player reads all of the records and
hands them out frame by frame.

Files that cannot be opened or written are not modelled, and a path is the bytes of the file.

## Main results

- `readEvents_flatMap`: the player reads the records the recorder wrote.
- `playback_frames`: it hands them out on the frames they were recorded on.
- `playback_recorded`: a recording, read back.
-/

namespace Koncepcja.Input

open Koncepcja.Bytes

/-- `SessionEventType`, and any other byte read from a file. -/
inductive SessionEventType where
  | frameSync
  | keyDown
  | keyUp
  | joyState
  | unknown (byte : UInt8)
  deriving DecidableEq, Repr

/-- `static_cast<uint8_t>(type)`. -/
def SessionEventType.toByte : SessionEventType → UInt8
  | frameSync => 0x00
  | keyDown => 0x01
  | keyUp => 0x02
  | joyState => 0x03
  | unknown byte => byte

/-- `static_cast<SessionEventType>(type_byte)`. -/
def SessionEventType.ofByte (byte : UInt8) : SessionEventType :=
  if byte = 0x00 then frameSync
  else if byte = 0x01 then keyDown
  else if byte = 0x02 then keyUp
  else if byte = 0x03 then joyState
  else unknown byte

/-- `SessionEvent`: key code or joystick state. -/
structure SessionEvent where
  type : SessionEventType
  data : UInt16
  deriving DecidableEq, Repr

inductive SessionState where
  | idle
  | recording
  | playing
  deriving DecidableEq, Repr

structure SessionRecorder where
  state : SessionState := .idle
  frameCount : UInt32 := 0
  eventCount : UInt32 := 0
  totalFrames : UInt32 := 0
  recFile : Option (List UInt8) := none
  events : List SessionEvent := []
  playPos : Nat := 0
  deriving DecidableEq, Repr

/-! ## The file -/

def ksrVersion : UInt8 := 1

def ksrHeaderSize : Nat := 32

/-- `"KSR\x1A"` and the version. -/
def magic : List UInt8 := [0x4B, 0x53, 0x52, 0x1A, ksrVersion]

/-- The header, with no events counted yet. -/
def header (snaSize : Nat) : List UInt8 :=
  put32le (overwrite (List.replicate ksrHeaderSize 0) 0 magic) 8 snaSize

/-- The record of an event: a frame marker has no data. -/
def record (type : SessionEventType) (data : UInt16) : List UInt8 :=
  if type ≠ .frameSync then [type.toByte, data.toUInt8, (data >>> 8).toUInt8] else [type.toByte]

/-- The records up to the end of the file, or up to one that is cut off. -/
def readEvents : List UInt8 → List SessionEvent
  | [] => []
  | byte :: bytes =>
    if SessionEventType.ofByte byte ≠ .frameSync then
      match bytes with
      | lo :: hi :: bytes => ⟨.ofByte byte, lo.toUInt16 ||| hi.toUInt16 <<< 8⟩ :: readEvents bytes
      | _ => []
    else ⟨.ofByte byte, 0⟩ :: readEvents bytes

namespace SessionRecorder

/-! ## The recorder -/

/-- `start_recording`, with the bytes of the snapshot saved before. -/
def startRecording (s : SessionRecorder) (snap : List UInt8) : Option SessionRecorder :=
  if s.state ≠ .idle then none
  else if snap.length = 0 then none
  else
    some { s with
      recFile := some (header snap.length ++ snap)
      state := .recording
      frameCount := 0
      eventCount := 0 }

def recordEvent (s : SessionRecorder) (type : SessionEventType) (data : UInt16) : SessionRecorder :=
  match s.recFile with
  | some file =>
    if s.state = .recording then { s with recFile := some (file ++ record type data), eventCount := s.eventCount + 1 } else s
  | none => s

def recordFrameSync (s : SessionRecorder) : SessionRecorder :=
  let s := s.recordEvent .frameSync 0
  { s with frameCount := s.frameCount + 1 }

/-- `stop_recording`: the file it leaves behind. -/
def stopRecording (s : SessionRecorder) : Option (Option (List UInt8) × SessionRecorder) :=
  if s.state ≠ .recording then none
  else
    some (s.recFile.map fun file => put32le file 12 s.eventCount.toNat, { s with recFile := none, state := .idle })

/-! ## The player -/

def stopPlayback (s : SessionRecorder) : Bool × SessionRecorder :=
  if s.state ≠ .playing ∧ s.state ≠ .idle then (false, s)
  else (true, { s with events := [], playPos := 0, state := .idle })

/-- `start_playback`: the snapshot to load, and the player at the start of the events. -/
def startPlayback (s : SessionRecorder) (file : List UInt8) : Option (List UInt8 × SessionRecorder) :=
  if s.state ≠ .idle then none
  else if file.length < ksrHeaderSize then none
  else if file.take 5 ≠ magic then none
  else
    let snaSize := rd32le file 8
    if file.length < ksrHeaderSize + snaSize then none
    else
      let events := readEvents (file.drop (ksrHeaderSize + snaSize))
      some (slice file ksrHeaderSize snaSize,
        { s with
          events
          totalFrames := UInt32.ofNat (events.countP fun evt => evt.type = .frameSync)
          state := .playing
          frameCount := 0
          eventCount := UInt32.ofNat events.length
          playPos := 0 })

/-- `next_event`: the next event of the frame, if there is one. -/
def nextEvent (s : SessionRecorder) : Option SessionEvent × SessionRecorder :=
  if s.state ≠ .playing then (none, s)
  else
    match s.events[s.playPos]? with
    | some evt => if evt.type = .frameSync then (none, s) else (some evt, { s with playPos := s.playPos + 1 })
    | none => (none, s)

/-- Past the next frame marker, from `pos`. -/
def pastSync : List SessionEvent → Nat → Option Nat
  | [], _ => none
  | evt :: events, pos => if evt.type = .frameSync then some (pos + 1) else pastSync events (pos + 1)

/-- `advance_frame`: whether the recording goes on. -/
def advanceFrame (s : SessionRecorder) : Bool × SessionRecorder :=
  if s.state ≠ .playing then (false, s)
  else
    match pastSync (s.events.drop s.playPos) s.playPos with
    | some pos =>
      let s := { s with playPos := pos, frameCount := s.frameCount + 1 }
      if s.events.length ≤ pos then (false, s.stopPlayback.2) else (true, s)
    | none => (false, s.stopPlayback.2)

/-! ## The emulator's frames -/

/-- `while (g_session.next_event(evt))`, as far as the fuel lasts. -/
def drain : Nat → SessionRecorder → Option (List SessionEvent × SessionRecorder)
  | 0, _ => none
  | fuel + 1, s =>
    match s.nextEvent with
    | (some evt, s) => (drain fuel s).map fun (events, s) => (evt :: events, s)
    | (none, s) => some ([], s)

/-- The events of each frame, as long as the recording goes on. -/
def playback : Nat → SessionRecorder → Option (List (List SessionEvent) × SessionRecorder)
  | 0, _ => none
  | fuel + 1, s => do
    let (events, s) ← drain (fuel + 1) s
    match s.advanceFrame with
    | (true, s) => (playback fuel s).map fun (frames, s) => (events :: frames, s)
    | (false, s) => some ([events], s)

/-- A frame of the session: its events, and the marker behind them. -/
def recordFrame (s : SessionRecorder) (events : List SessionEvent) : SessionRecorder :=
  (events.foldl (fun s evt => s.recordEvent evt.type evt.data) s).recordFrameSync

/-- A session from its start to its stop: whole frames, and the events of one that has not ended. -/
def recordSession (s : SessionRecorder) (snap : List UInt8) (frames : List (List SessionEvent)) (rest : List SessionEvent) :
    Option (Option (List UInt8) × SessionRecorder) := do
  let s ← s.startRecording snap
  let s := frames.foldl recordFrame s
  (rest.foldl (fun s evt => s.recordEvent evt.type evt.data) s).stopRecording

end SessionRecorder

/-! ## Records -/

/-- A snapshot: not empty, and its size fits into the header. -/
structure Snapshot where
  bytes : List UInt8
  nonempty : bytes.length ≠ 0
  small : bytes.length < 2 ^ 32

/-- An input event, which is no frame marker. -/
structure InputEvent extends SessionEvent where
  input : type = .keyDown ∨ type = .keyUp ∨ type = .joyState

/-- The marker at the end of a frame. -/
def syncEvent : SessionEvent := ⟨.frameSync, 0⟩

/-- The record reads back. -/
def Recordable (evt : SessionEvent) : Prop :=
  .ofByte evt.type.toByte = evt.type ∧ (evt.type = .frameSync → evt.data = 0)

theorem InputEvent.ne_frameSync (evt : InputEvent) : evt.type ≠ .frameSync := by
  intro hsync
  rcases evt.input with h | h | h <;> cases hsync.symm.trans h

theorem InputEvent.recordable (evt : InputEvent) : Recordable evt.toSessionEvent := by
  refine ⟨?_, fun hsync => absurd hsync evt.ne_frameSync⟩
  rcases evt.input with h | h | h <;> rw [h] <;> rfl

theorem syncEvent_recordable : Recordable syncEvent := ⟨rfl, fun _ => rfl⟩

theorem bytes_word (data : UInt16) : data.toUInt8.toUInt16 ||| (data >>> 8).toUInt8.toUInt16 <<< 8 = data := by
  have hlt := data.toNat_lt
  have hlo : data.toUInt8.toUInt16.toNat = data.toNat % 256 := by
    rw [UInt8.toNat_toUInt16, UInt16.toNat_toUInt8]
  have hhi : ((data >>> 8).toUInt8.toUInt16 <<< 8).toNat = 2 ^ 8 * (data.toNat / 256) := by
    have hshift : (data >>> 8).toNat = data.toNat / 256 := by
      rw [UInt16.toNat_shiftRight, Nat.shiftRight_eq_div_pow]
      rfl
    have hmod : (8 : UInt16).toNat % 16 = 8 := rfl
    rw [UInt16.toNat_shiftLeft, UInt8.toNat_toUInt16, UInt16.toNat_toUInt8, hshift, hmod, Nat.shiftLeft_eq]
    omega
  apply UInt16.toNat_inj.mp
  rw [UInt16.toNat_or, hlo, hhi, Nat.or_comm, ← Nat.two_pow_add_eq_or_of_lt (Nat.mod_lt _ (by decide))]
  omega

theorem readEvents_record {evt : SessionEvent} (h : Recordable evt) (bytes : List UInt8) :
    readEvents (record evt.type evt.data ++ bytes) = evt :: readEvents bytes := by
  by_cases hsync : evt.type = .frameSync
  · have hdata := h.2 hsync
    have hbyte : SessionEventType.ofByte SessionEventType.frameSync.toByte = .frameSync := rfl
    rw [record, if_neg (not_not.mpr hsync), hsync, List.cons_append, List.nil_append, readEvents.eq_def]
    dsimp only
    rw [hbyte, if_neg (not_not.mpr rfl), ← hsync, ← hdata]
  · rw [record, if_pos hsync, List.cons_append, List.cons_append, List.cons_append, List.nil_append, readEvents, h.1,
      if_pos hsync, bytes_word]

/-- **The player reads what the recorder wrote.** -/
theorem readEvents_flatMap (events : List SessionEvent) (h : ∀ evt ∈ events, Recordable evt) :
    readEvents (events.flatMap fun evt => record evt.type evt.data) = events := by
  induction events with
  | nil => rfl
  | cons evt events ih =>
    have hevt := h evt List.mem_cons_self
    have hrest := ih fun evt' hmem => h evt' (List.mem_cons_of_mem evt hmem)
    rw [List.flatMap_cons, readEvents_record hevt, hrest]

/-! ## The header -/

theorem put32le_append {a : List UInt8} (tail : List UInt8) {off : Nat} (v : Nat) (h : off + 4 ≤ a.length) :
    put32le (a ++ tail) off v = put32le a off v ++ tail := by
  have hset : ∀ (b : List UInt8) (i : Nat) (x : UInt8), i < b.length → (b ++ tail).set i x = b.set i x ++ tail :=
    fun b i x hi => List.set_append_left i x hi
  have hfield : ∀ (b : List UInt8) (i v : Nat), i + 2 ≤ b.length → put16le (b ++ tail) i v = put16le b i v ++ tail := by
    intro b i v hi
    rw [put16le, hset b i _ (by omega), hset _ (i + 1) _ (by rw [List.length_set]; omega), put16le]
  rw [put32le, hfield a off v (by omega), hfield _ (off + 2) _ (by rw [put16le_length]; omega), put32le]

theorem header_length (snaSize : Nat) : (header snaSize).length = ksrHeaderSize := put32le_length _ 8 snaSize

theorem header_counted (snaSize count : Nat) (tail : List UInt8) : ∃ hdr, put32le (header snaSize ++ tail) 12 count = hdr ++ tail ∧
    hdr.length = ksrHeaderSize ∧ hdr.take 5 = magic ∧ rd32le (hdr ++ tail) 8 = snaSize % 2 ^ 32 := by
  have hlen : 12 + 4 ≤ (header snaSize).length := by rw [header_length]; decide
  refine ⟨put32le (header snaSize) 12 count, put32le_append tail count hlen, ?_, rfl, ?_⟩
  · rw [put32le_length, header_length]
  · have hkeep := (Keeps.put32le (header snaSize) 12 count).trans (Keeps.append _ _ tail)
    rw [hkeep.rd32le (by rw [header_length]; decide) (fun i hi => by omega), header, rd32le_put32le _ (by decide)]

namespace SessionRecorder

/-! ## Recording -/

/-- The recorder has written its start, and the records of some events, in some number of frames. -/
structure Recorded (start : List UInt8) (events : List SessionEvent) (frames : Nat) (s : SessionRecorder) : Prop where
  state : s.state = .recording
  recFile : s.recFile = some (start ++ events.flatMap fun evt => record evt.type evt.data)
  eventCount : s.eventCount = UInt32.ofNat events.length
  frameCount : s.frameCount = UInt32.ofNat frames

variable {start : List UInt8} {events : List SessionEvent} {frames : Nat} {s : SessionRecorder}

theorem Recorded.recordEvent (h : Recorded start events frames s) (evt : SessionEvent) :
    Recorded start (events ++ [evt]) frames (s.recordEvent evt.type evt.data) := by
  rw [SessionRecorder.recordEvent, h.recFile]
  dsimp only
  rw [if_pos h.state]
  exact
    { state := h.state
      recFile := by
        rw [List.flatMap_append, List.flatMap_singleton, List.append_assoc]
      eventCount := by
        rw [List.length_append, UInt32.ofNat_add, h.eventCount]
        rfl
      frameCount := h.frameCount }

theorem Recorded.recordEvents (h : Recorded start events frames s) (more : List SessionEvent) :
    Recorded start (events ++ more) frames (more.foldl (fun s evt => s.recordEvent evt.type evt.data) s) := by
  induction more generalizing events s with
  | nil => rwa [List.append_nil]
  | cons evt more ih =>
    have hrest := ih (h.recordEvent evt)
    rwa [List.append_assoc] at hrest

theorem Recorded.recordFrame (h : Recorded start events frames s) (frame : List SessionEvent) :
    Recorded start (events ++ (frame ++ [syncEvent])) (frames + 1) (s.recordFrame frame) := by
  have hsync := (h.recordEvents frame).recordEvent syncEvent
  rw [List.append_assoc] at hsync
  exact
    { state := hsync.state
      recFile := hsync.recFile
      eventCount := hsync.eventCount
      frameCount := by
        rw [UInt32.ofNat_add, ← hsync.frameCount]
        rfl }

/-- The events of a session, with a marker behind each frame. -/
def sessionEvents (frames : List (List SessionEvent)) (rest : List SessionEvent) : List SessionEvent :=
  (frames.flatMap fun frame => frame ++ [syncEvent]) ++ rest

theorem Recorded.recordFrames (h : Recorded start events frames s) (more : List (List SessionEvent)) :
    Recorded start (events ++ more.flatMap fun frame => frame ++ [syncEvent]) (frames + more.length)
      (more.foldl SessionRecorder.recordFrame s) := by
  induction more generalizing events frames s with
  | nil => rwa [List.flatMap_nil, List.append_nil]
  | cons frame more ih =>
    have hrest := ih (h.recordFrame frame)
    rwa [List.append_assoc, Nat.add_assoc, Nat.add_comm 1] at hrest

/-- **A recording**: the file, and the counts when it stops. -/
theorem recordSession_eq (recorder : SessionRecorder) (hidle : recorder.state = .idle) (snap : Snapshot)
    (frames : List (List SessionEvent)) (rest : List SessionEvent) :
    ∃ stopped, recordSession recorder snap.bytes frames rest =
        some (some (put32le (header snap.bytes.length ++ snap.bytes ++
          (sessionEvents frames rest).flatMap fun evt => record evt.type evt.data) 12 stopped.eventCount.toNat), stopped) ∧
      stopped.state = .idle ∧ stopped.eventCount = UInt32.ofNat (sessionEvents frames rest).length ∧
      stopped.frameCount = UInt32.ofNat frames.length := by
  have hstart : ∃ s, recorder.startRecording snap.bytes = some s ∧
      Recorded (header snap.bytes.length ++ snap.bytes) [] 0 s := by
    rw [startRecording, if_neg (not_not.mpr hidle), if_neg snap.nonempty]
    exact ⟨_, rfl, rfl, congrArg some (List.append_nil _).symm, rfl, rfl⟩
  obtain ⟨s, hs, hrecorded⟩ := hstart
  have hend := (hrecorded.recordFrames frames).recordEvents rest
  rw [List.nil_append, Nat.zero_add] at hend
  let last := rest.foldl (fun s evt => s.recordEvent evt.type evt.data) (frames.foldl recordFrame s)
  refine ⟨{ last with recFile := none, state := .idle }, ?_, rfl, hend.eventCount, hend.frameCount⟩
  rw [recordSession, hs, Option.bind_eq_bind, Option.bind_some]
  dsimp only
  rw [stopRecording, if_neg (not_not.mpr hend.state), hend.recFile]
  rfl

/-! ## Playing -/

/-- The groups the events come in: those of the frames, and those of the frame that has not ended. With no such events
    the recording is over behind its last marker. -/
def playedFrames (frames : List (List SessionEvent)) (rest : List SessionEvent) : List (List SessionEvent) :=
  if rest = [] ∧ frames ≠ [] then frames else frames ++ [rest]

/-- The player is at some events, which are the last of the file. -/
structure PlayingAt (events : List SessionEvent) (s : SessionRecorder) : Prop where
  state : s.state = .playing
  le : s.playPos ≤ s.events.length
  events : s.events.drop s.playPos = events

variable {evt : SessionEvent} {fuel : Nat}

theorem PlayingAt.head (h : PlayingAt (evt :: events) s) :
    s.events[s.playPos]? = some evt ∧ PlayingAt events { s with playPos := s.playPos + 1 } := by
  have hlen := congrArg List.length h.events
  rw [List.length_drop, List.length_cons] at hlen
  have hhead : s.events[s.playPos]? = some evt := by
    rw [← List.head?_drop, h.events]
    rfl
  refine ⟨hhead, h.state, ?_, ?_⟩
  · change s.playPos + 1 ≤ s.events.length
    omega
  · change s.events.drop (s.playPos + 1) = events
    rw [← List.drop_drop, h.events]
    rfl

theorem PlayingAt.nil (h : PlayingAt [] s) : s.events.length ≤ s.playPos := List.drop_eq_nil_iff.mp h.events

theorem PlayingAt.nextEvent_cons (h : PlayingAt (evt :: events) s) (hevt : evt.type ≠ .frameSync) :
    s.nextEvent = (some evt, { s with playPos := s.playPos + 1 }) := by
  rw [nextEvent, if_neg (not_not.mpr h.state), h.head.1]
  exact if_neg hevt

theorem PlayingAt.nextEvent_none (h : PlayingAt events s) (hstop : ∀ evt ∈ events.head?, evt.type = .frameSync) :
    s.nextEvent = (none, s) := by
  rw [nextEvent, if_neg (not_not.mpr h.state)]
  cases events with
  | nil =>
    rw [List.getElem?_eq_none h.nil]
  | cons evt events =>
    rw [h.head.1]
    exact if_pos (hstop evt rfl)

theorem PlayingAt.drain {frame : List SessionEvent} (hframe : ∀ evt ∈ frame, evt.type ≠ .frameSync)
    (hstop : ∀ evt ∈ events.head?, evt.type = .frameSync) (hfuel : frame.length < fuel) (h : PlayingAt (frame ++ events) s) :
    ∃ s', SessionRecorder.drain fuel s = some (frame, s') ∧ PlayingAt events s' ∧
      s' = { s with playPos := s.playPos + frame.length } := by
  induction frame generalizing fuel s with
  | nil =>
    obtain ⟨fuel, rfl⟩ := Nat.exists_eq_add_one_of_ne_zero (Nat.ne_zero_of_lt hfuel)
    refine ⟨s, ?_, h, rfl⟩
    rw [SessionRecorder.drain, h.nextEvent_none hstop]
  | cons evt frame ih =>
    obtain ⟨fuel, rfl⟩ := Nat.exists_eq_add_one_of_ne_zero (Nat.ne_zero_of_lt hfuel)
    have hevt := hframe evt List.mem_cons_self
    have hnext := h.head.2
    obtain ⟨s', hdrain, hat, heq⟩ := ih (fun e he => hframe e (List.mem_cons_of_mem evt he))
      (Nat.lt_of_succ_lt_succ hfuel) hnext
    refine ⟨s', ?_, hat, ?_⟩
    · rw [SessionRecorder.drain, h.nextEvent_cons hevt]
      dsimp only
      rw [hdrain]
      rfl
    · rw [heq, List.length_cons, Nat.add_comm frame.length, ← Nat.add_assoc]

theorem PlayingAt.advanceFrame_cons (h : PlayingAt (syncEvent :: events) s) :
    s.advanceFrame =
      if events = [] then (false, { s with events := [], playPos := 0, state := .idle, frameCount := s.frameCount + 1 })
      else (true, { s with playPos := s.playPos + 1, frameCount := s.frameCount + 1 }) := by
  have hnext := h.head.2
  rw [advanceFrame, if_neg (not_not.mpr h.state), h.events, pastSync, if_pos (show syncEvent.type = .frameSync from rfl)]
  dsimp only
  by_cases hempty : events = []
  · have hend : s.events.length ≤ s.playPos + 1 := PlayingAt.nil (hempty ▸ hnext)
    rw [if_pos hend, if_pos hempty, stopPlayback, if_neg (fun hno => hno.1 h.state)]
  · have hmore : ¬ s.events.length ≤ s.playPos + 1 := fun hend => hempty (hnext.events.symm.trans (List.drop_eq_nil_iff.mpr hend))
    rw [if_neg hmore, if_neg hempty]

theorem PlayingAt.advanceFrame_nil (h : PlayingAt [] s) :
    s.advanceFrame = (false, { s with events := [], playPos := 0, state := .idle }) := by
  rw [advanceFrame, if_neg (not_not.mpr h.state), h.events, pastSync, stopPlayback, if_neg (fun hno => hno.1 h.state)]

theorem sessionEvents_cons (frame : List SessionEvent) (frames : List (List SessionEvent)) (rest : List SessionEvent) :
    sessionEvents (frame :: frames) rest = frame ++ syncEvent :: sessionEvents frames rest := by
  rw [sessionEvents, List.flatMap_cons, List.append_assoc, List.append_assoc]
  rfl

theorem sessionEvents_eq_nil {frames : List (List SessionEvent)} {rest : List SessionEvent} :
    sessionEvents frames rest = [] ↔ rest = [] ∧ frames = [] := by
  cases frames with
  | nil => exact ⟨fun h => ⟨h, rfl⟩, fun h => h.1⟩
  | cons frame frames =>
    rw [sessionEvents_cons]
    exact iff_of_false (fun h => List.cons_ne_nil _ _ (List.append_eq_nil_iff.mp h).2) (fun h => List.cons_ne_nil _ _ h.2)

theorem playedFrames_cons (frame : List SessionEvent) {frames : List (List SessionEvent)} {rest : List SessionEvent}
    (hmore : sessionEvents frames rest ≠ []) :
    playedFrames (frame :: frames) rest = frame :: playedFrames frames rest := by
  rw [playedFrames, playedFrames]
  by_cases hrest : rest = []
  · have hframes : frames ≠ [] := fun h => hmore (sessionEvents_eq_nil.mpr ⟨hrest, h⟩)
    rw [if_pos ⟨hrest, List.cons_ne_nil _ _⟩, if_pos ⟨hrest, hframes⟩]
  · rw [if_neg (fun h => hrest h.1), if_neg (fun h => hrest h.1), List.cons_append]

/-- **The events come on the frames they were recorded on**, and the recording ends behind the last. -/
theorem playback_frames (frames : List (List SessionEvent)) (rest : List SessionEvent)
    (hframes : ∀ frame ∈ frames, ∀ evt ∈ frame, evt.type ≠ .frameSync) (hrest : ∀ evt ∈ rest, evt.type ≠ .frameSync)
    (hfuel : (sessionEvents frames rest).length < fuel) (h : PlayingAt (sessionEvents frames rest) s) :
    playback fuel s = some (playedFrames frames rest,
      { s with
        events := []
        playPos := 0
        state := .idle
        frameCount := s.frameCount + UInt32.ofNat frames.length }) := by
  induction frames generalizing fuel s with
  | nil =>
    obtain ⟨fuel, rfl⟩ := Nat.exists_eq_add_one_of_ne_zero (Nat.ne_zero_of_lt hfuel)
    -- Behind the last frame the rest is drained, and the session ends.
    have hat : PlayingAt (rest ++ []) s := by rwa [List.append_nil]
    obtain ⟨s', hdrain, hend, heq⟩ := hat.drain hrest (fun _ hno => absurd hno (Option.not_mem_none _)) hfuel
    rw [playback, hdrain, Option.bind_eq_bind, Option.bind_some]
    dsimp only
    rw [hend.advanceFrame_nil, heq, playedFrames, if_neg (fun hno => hno.2 rfl), List.nil_append]
    dsimp only
    rw [List.length_nil, show UInt32.ofNat 0 = 0 from rfl, UInt32.add_zero]
  | cons frame frames ih =>
    have hlen : (sessionEvents (frame :: frames) rest).length = frame.length + ((sessionEvents frames rest).length + 1) := by
      rw [sessionEvents_cons, List.length_append, List.length_cons]
    rw [hlen] at hfuel
    obtain ⟨fuel, rfl⟩ := Nat.exists_eq_add_one_of_ne_zero (Nat.ne_zero_of_lt hfuel)
    have hat : PlayingAt (frame ++ syncEvent :: sessionEvents frames rest) s := by rwa [← sessionEvents_cons]
    obtain ⟨s', hdrain, hend, heq⟩ := hat.drain (hframes frame List.mem_cons_self)
      (fun evt hevt => by cases hevt; rfl) (Nat.lt_of_le_of_lt (Nat.le_add_right _ _) hfuel)
    rw [playback, hdrain, Option.bind_eq_bind, Option.bind_some]
    dsimp only
    rw [hend.advanceFrame_cons]
    -- A sync event with nothing behind it ends the session with its frame.
    by_cases hmore : sessionEvents frames rest = []
    · obtain ⟨rfl, rfl⟩ := sessionEvents_eq_nil.mp hmore
      rw [if_pos hmore, heq, playedFrames, if_pos ⟨rfl, List.cons_ne_nil _ _⟩]
      rfl
    · have hnext : PlayingAt (sessionEvents frames rest) { s' with playPos := s'.playPos + 1, frameCount := s'.frameCount + 1 } :=
        ⟨hend.head.2.state, hend.head.2.le, hend.head.2.events⟩
      have hcount : s.frameCount + 1 + UInt32.ofNat frames.length = s.frameCount + UInt32.ofNat (frame :: frames).length := by
        rw [List.length_cons, UInt32.ofNat_add, UInt32.add_assoc, UInt32.add_comm 1]
        rfl
      have hrun := ih (fun f hf => hframes f (List.mem_cons_of_mem frame hf)) (show _ < fuel by omega) hnext
      rw [if_neg hmore, playedFrames_cons frame hmore]
      dsimp only
      rw [hrun, heq, Option.map_some]
      dsimp only
      rw [hcount]

/-! ## A recording, read back -/

theorem sessionEvents_recordable (frames : List (List InputEvent)) (rest : List InputEvent) :
    ∀ evt ∈ sessionEvents (frames.map (·.map InputEvent.toSessionEvent)) (rest.map InputEvent.toSessionEvent), Recordable evt := by
  have hinput : ∀ (inputs : List InputEvent), ∀ evt ∈ inputs.map InputEvent.toSessionEvent, Recordable evt := by
    intro inputs evt hevt
    obtain ⟨input, -, rfl⟩ := List.mem_map.mp hevt
    exact input.recordable
  intro evt hevt
  rcases List.mem_append.mp hevt with hframe | hrest
  · obtain ⟨frame, hframe, hmem⟩ := List.mem_flatMap.mp hframe
    obtain ⟨inputs, -, rfl⟩ := List.mem_map.mp hframe
    rcases List.mem_append.mp hmem with hmem | hmem
    · exact hinput inputs evt hmem
    · rw [List.mem_singleton.mp hmem]
      exact syncEvent_recordable
  · exact hinput rest evt hrest

theorem ne_frameSync_of_mem {inputs : List InputEvent} {evt : SessionEvent}
    (hevt : evt ∈ inputs.map InputEvent.toSessionEvent) : evt.type ≠ .frameSync := by
  obtain ⟨input, -, rfl⟩ := List.mem_map.mp hevt
  exact input.ne_frameSync

theorem length_sessionEvents (frames : List (List InputEvent)) (rest : List InputEvent) :
    (sessionEvents (frames.map (·.map InputEvent.toSessionEvent)) (rest.map InputEvent.toSessionEvent)).length =
      (frames.map List.length).sum + frames.length + rest.length := by
  induction frames with
  | nil => exact (List.length_map _).trans (Nat.zero_add _).symm
  | cons frame frames ih =>
    rw [List.map_cons, sessionEvents_cons, List.length_append, List.length_cons, ih, List.length_map, List.map_cons,
      List.sum_cons, List.length_cons]
    omega

theorem countP_sessionEvents (frames : List (List InputEvent)) (rest : List InputEvent) :
    (sessionEvents (frames.map (·.map InputEvent.toSessionEvent)) (rest.map InputEvent.toSessionEvent)).countP
      (fun evt => evt.type = .frameSync) = frames.length := by
  have hinput : ∀ inputs : List InputEvent,
      (inputs.map InputEvent.toSessionEvent).countP (fun evt => evt.type = .frameSync) = 0 := by
    intro inputs
    exact List.countP_eq_zero.mpr fun evt hevt => by rw [decide_eq_true_eq]; exact ne_frameSync_of_mem hevt
  induction frames with
  | nil => exact hinput rest
  | cons frame frames ih =>
    have hsync : decide (syncEvent.type = .frameSync) = true := rfl
    rw [List.map_cons, sessionEvents_cons, List.countP_append, hinput frame, List.countP_cons, ih, if_pos hsync,
      List.length_cons, Nat.zero_add]

/-- **The start of playback** on a file that the recorder wrote. -/
theorem startPlayback_counted (player : SessionRecorder) (hidle : player.state = .idle) (snap : Snapshot)
    (events : List SessionEvent) (hevents : ∀ evt ∈ events, Recordable evt) (count : Nat) :
    player.startPlayback (put32le (header snap.bytes.length ++ snap.bytes ++
        events.flatMap fun evt => record evt.type evt.data) 12 count) =
      some (snap.bytes,
        { player with
          events
          totalFrames := UInt32.ofNat (events.countP fun evt => evt.type = .frameSync)
          state := .playing
          frameCount := 0
          eventCount := UInt32.ofNat events.length
          playPos := 0 }) := by
  let records := events.flatMap fun evt => record evt.type evt.data
  -- The event count patched into the header leaves magic and sizes alone.
  obtain ⟨hdr, hfile, hlen, hmagic, hsize⟩ := header_counted snap.bytes.length count (snap.bytes ++ records)
  rw [Nat.mod_eq_of_lt snap.small] at hsize
  have hbody : (hdr ++ (snap.bytes ++ records)).drop ksrHeaderSize = snap.bytes ++ records := List.drop_left' hlen
  have htail : (hdr ++ (snap.bytes ++ records)).drop (ksrHeaderSize + snap.bytes.length) = records := by
    rw [← List.drop_drop, hbody, List.drop_left' rfl]
  have hall : (hdr ++ (snap.bytes ++ records)).length = ksrHeaderSize + (snap.bytes.length + records.length) := by
    rw [List.length_append, List.length_append, hlen]
  have hfive : (hdr ++ (snap.bytes ++ records)).take 5 = magic := by
    rw [List.take_append_of_le_length (by rw [hlen]; decide), hmagic]
  rw [List.append_assoc, hfile, startPlayback, if_neg (not_not.mpr hidle), hall, if_neg (by omega), hfive,
    if_neg (not_not.mpr rfl), hsize]
  dsimp only
  rw [if_neg (by omega), htail, readEvents_flatMap events hevents, slice, hbody, List.take_left' rfl]

/-- **A recording, read back**: the same snapshot, the same events on the same frames in the same order, and the end of
    the recording after as many frames. -/
theorem playback_recorded (recorder player : SessionRecorder) (hrecorder : recorder.state = .idle) (hplayer : player.state = .idle)
    (snap : Snapshot) (frames : List (List InputEvent)) (rest : List InputEvent) {fuel : Nat}
    (hfuel : (frames.map List.length).sum + frames.length + rest.length < fuel) :
    let frames' := frames.map (·.map InputEvent.toSessionEvent)
    let rest' := rest.map InputEvent.toSessionEvent
    ∃ file stopped started done, recordSession recorder snap.bytes frames' rest' = some (some file, stopped) ∧
      player.startPlayback file = some (snap.bytes, started) ∧
      playback fuel started = some (playedFrames frames' rest', done) ∧ done.state = .idle ∧
      started.eventCount = stopped.eventCount ∧ started.totalFrames = stopped.frameCount ∧
      done.frameCount = stopped.frameCount := by
  intro frames' rest'
  have hlen : (sessionEvents frames' rest').length = (frames.map List.length).sum + frames.length + rest.length :=
    length_sessionEvents frames rest
  obtain ⟨stopped, hrecord, -, hevents, hframes⟩ := recordSession_eq recorder hrecorder snap frames' rest'
  rw [List.length_map] at hframes
  -- The file holds the events of the session with the frame marks between them.
  have hstart := startPlayback_counted player hplayer snap (sessionEvents frames' rest')
    (sessionEvents_recordable frames rest) stopped.eventCount.toNat
  refine ⟨_, stopped, _, _, hrecord, hstart, playback_frames frames' rest' ?_ ?_ (hlen ▸ hfuel) ⟨rfl, Nat.zero_le _, rfl⟩,
    rfl, hevents.symm, ?_, ?_⟩
  · intro frame hframe evt hevt
    obtain ⟨inputs, -, rfl⟩ := List.mem_map.mp hframe
    exact ne_frameSync_of_mem hevt
  · exact fun evt hevt => ne_frameSync_of_mem hevt
  · exact (congrArg UInt32.ofNat (countP_sessionEvents frames rest)).trans hframes.symm
  · rw [hframes, List.length_map]
    exact UInt32.zero_add _

/-- Two frames, the first without events, and an event behind them. -/
theorem playback_recorded_partial :
    let frames : List (List InputEvent) := [[], [⟨⟨.keyDown, 0x05FE⟩, .inl rfl⟩, ⟨⟨.joyState, 0x0011⟩, .inr (.inr rfl)⟩]]
    let rest : List InputEvent := [⟨⟨.keyUp, 0x05FF⟩, .inr (.inl rfl)⟩]
    let frames' := frames.map (·.map InputEvent.toSessionEvent)
    let rest' := rest.map InputEvent.toSessionEvent
    ∃ file stopped started done, recordSession {} [0x4D] frames' rest' = some (some file, stopped) ∧
      startPlayback {} file = some ([0x4D], started) ∧ playback 6 started = some (frames' ++ [rest'], done) ∧
      done.state = .idle ∧ started.eventCount = stopped.eventCount ∧ started.totalFrames = stopped.frameCount ∧
      done.frameCount = stopped.frameCount :=
  playback_recorded {} {} rfl rfl ⟨[0x4D], by decide, by decide⟩
    [[], [⟨⟨.keyDown, 0x05FE⟩, .inl rfl⟩, ⟨⟨.joyState, 0x0011⟩, .inr (.inr rfl)⟩]] [⟨⟨.keyUp, 0x05FF⟩, .inr (.inl rfl)⟩]
    (by decide)

end SessionRecorder

end Koncepcja.Input
