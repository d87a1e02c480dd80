import Koncepcja.M4.Commands

/-!
# Commands Stay Inside the Buffers

Every handler but one stays inside the buffers, for every frame and every board. The one that configures the board
computes the room that is left as a difference of an `int`, and converts it to `size_t`: when the configuration is to
start behind the buffer, the difference is negative, and what is left is no limit.

## Main results

- `handler_safe`: the other commands.
- `cmdConfig_safe`, `cmdConfig_faults`: the configuration.
- `out_handler_in_bounds_iff`: what is executed stays in bounds unless a configuration starts behind its buffer.
-/

namespace Koncepcja.M4

open Checked

variable {ω : Type} {w : Host ω} {f : Bytes} {b : Board ω}

/-! ## The configuration -/

/-- The frame has bytes for the configuration, from an offset on that is behind its buffer. -/
def ConfiguresBehind (f : Bytes) : Prop := 4 < f.length ∧ configSize < (f.getD 3 0).toNat

theorem sizeT_of_le {offset : Nat} (h : offset ≤ configSize) :
    sizeT ((configSize : Int) - offset) = configSize - offset := by
  have hsize : configSize = 128 := rfl
  unfold sizeT
  omega

theorem sizeT_of_lt {offset : Nat} (h : configSize < offset) (hbyte : offset < 256) :
    0 < sizeT ((configSize : Int) - offset) := by
  have hsize : configSize = 128 := rfl
  unfold sizeT
  omega

theorem cmdConfig_safe (h : ¬ConfiguresBehind f) : InBounds f (cmdConfig : Handler ω Unit) := by
  refine size_safe <| .ite (fun _ => respondError_safe) fun hlong => ?_
  refine (frame_returns (by omega)).bind fun offset hoffset => ?_
  have hsize : configSize = 128 := rfl
  have hrom : romSize = 0x4000 := rfl
  -- Either there is nothing to be copied, or the offset is inside the buffer.
  have hroom : 0 < f.length - 4 → offset.toNat ≤ configSize := by
    intro hdata
    by_contra hbehind
    exact h ⟨by omega, by rw [← hoffset]; omega⟩
  refine Safe.seq (when_safe fun hpos => ?_) (Safe.get fun b _ => ?_)
  · refine (frameBytes_returns (by omega)).bind fun data hdata => copyToConfig_safe ?_
    have hle := hroom (by omega)
    rw [hdata, sizeT_of_le hle]
    omega
  · cases b.rom with
    | none => exact respondOk_safe
    | some rom =>
      refine (when_safe fun hfits => ?_).seq respondOk_safe
      exact (frameBytes_returns (by omega)).bind fun data hdata => copyToRom_safe (by omega)

/-- Behind the buffer, every byte is outside of it. -/
theorem cmdConfig_faults (h : ConfiguresBehind b.cmdBuf) : cmdConfig b = .error .config := by
  obtain ⟨hlong, hbehind⟩ := h
  have hbyte := (b.cmdBuf.getD 3 0).toNat_lt
  have hroom := sizeT_of_lt hbehind (by omega)
  have hframe : frame 3 b = .ok (b.cmdBuf.getD 3 0, b) := run_frame (by omega)
  rw [cmdConfig, run_bind run_size, if_neg (by omega), run_bind hframe]
  refine run_bind_error ?_
  have hpos : 0 < min (b.cmdBuf.length - 4) (sizeT ((configSize : Int) - (b.cmdBuf.getD 3 0).toNat)) := by omega
  rw [when, if_pos hpos]
  obtain ⟨data, b', hdata, _, hlen⟩ := @frameBytes_returns ω b.cmdBuf 4
    (min (b.cmdBuf.length - 4) (sizeT ((configSize : Int) - (b.cmdBuf.getD 3 0).toNat))) (by omega) b rfl
  rw [run_bind hdata]
  exact run_check_error (by omega)

/-! ## The table -/

theorem commands_safe : ∀ entry ∈ commands w, entry.1 ≠ cConfig → InBounds f entry.2 := by
  simp only [commands, List.forall_mem_cons]
  refine ⟨fun _ => cmdVersion_safe, fun _ => cmdCd_safe, fun _ => cmdReaddir_safe, fun _ => cmdOpen_safe,
    fun _ => cmdClose_safe, fun _ => cmdRead_safe, fun _ => cmdRead2_safe, fun _ => cmdReadsector_safe,
    fun _ => cmdWritesector_safe, fun _ => cmdFormattrack_safe, fun _ => cmdWrite_safe, fun _ => cmdWrite2_safe,
    fun _ => cmdSeek_safe, fun _ => cmdEof_safe, fun _ => cmdFree_safe, fun _ => cmdFsize_safe,
    fun _ => cmdFstat_safe, fun _ => cmdFtell_safe, fun _ => cmdErasefile_safe, fun _ => cmdRename_safe,
    fun _ => cmdMakedir_safe, fun _ => cmdGetpath_safe, fun _ => cmdHttpget_safe, fun _ => cmdHttpgetmem_safe,
    fun _ => cmdDirsetargs_safe, fun _ => cmdSdread_safe, fun _ => cmdSdwrite_safe, fun _ => respondOk_safe,
    fun _ => cmdM4off_safe, fun _ => cmdNetstat_safe, fun _ => cmdTime_safe, fun _ => cmdNetsocket_safe,
    fun _ => cmdNetconnect_safe, fun _ => cmdNetclose_safe, fun _ => cmdNetsend_safe, fun _ => cmdNetrecv_safe,
    fun _ => cmdNethostip_safe, fun _ => reply_byte_safe, fun _ => cmdNetbind_safe, fun _ => cmdNetlisten_safe,
    fun _ => cmdNetaccept_safe, fun _ => cmdGetnetwork_safe, fun _ => cmdWifipow_safe, fun _ => cmdNmi_safe,
    fun _ => respondOk_safe, fun _ => cmdCopybuf_safe, fun _ => cmdCopyfile_safe, fun _ => cmdRomlow_safe,
    fun _ => cmdRomcp_safe, fun _ => respondOk_safe, fun h => absurd rfl h, fun _ => respondOk_safe,
    fun _ h => absurd h List.not_mem_nil⟩

/-- Also the response to a command that is not known. -/
theorem handler_safe {cmd : UInt16} (h : cmd ≠ cConfig) : InBounds f (handler w cmd) := by
  rw [handler]
  cases hlookup : (commands w).lookup cmd with
  | none => exact @respondError_safe _ _ none
  | some m =>
    obtain ⟨before, after, hsplit, _⟩ := List.lookup_eq_some_iff.mp hlookup
    refine commands_safe (w := w) (cmd, m) ?_ h
    rw [hsplit]
    exact List.mem_append_right _ List.mem_cons_self

theorem handler_config : handler w cConfig = cmdConfig := rfl

/-! ## The port -/

/-- The frame configures the board from an offset on that is behind the buffer. -/
def Overruns (f : Bytes) : Prop :=
  UInt16.ofNat (word (f.getD 1 0) (f.getD 2 0)) = cConfig ∧ ConfiguresBehind f

theorem m4boardExecute_eq (h : 3 ≤ b.cmdBuf.length) :
    m4boardExecute w b =
      (handler w (UInt16.ofNat (word (b.cmdBuf.getD 1 0) (b.cmdBuf.getD 2 0))) >>= fun _ => clearFrame)
        (cleared b) := by
  have hone : frame 1 b = .ok (b.cmdBuf.getD 1 0, b) := run_frame (by omega)
  have htwo : frame 2 b = .ok (b.cmdBuf.getD 2 0, b) := run_frame (by omega)
  rw [m4boardExecute, run_bind run_size, if_neg (by omega), run_bind hone, run_bind htwo]
  rfl

theorem execute_runs (h : ¬Overruns b.cmdBuf) : ∃ b', m4boardExecute w b = .ok ((), b') := by
  by_cases hlong : 3 ≤ b.cmdBuf.length
  · have hhandler : InBounds b.cmdBuf (handler w (UInt16.ofNat (word (b.cmdBuf.getD 1 0) (b.cmdBuf.getD 2 0)))) := by
      by_cases hcmd : UInt16.ofNat (word (b.cmdBuf.getD 1 0) (b.cmdBuf.getD 2 0)) = cConfig
      · rw [hcmd, handler_config]
        exact cmdConfig_safe fun hbehind => h ⟨hcmd, hbehind⟩
      · exact handler_safe hcmd
    rw [m4boardExecute_eq hlong]
    have hholds : Holds b.cmdBuf (cleared b) := rfl
    obtain ⟨_, b', hrun⟩ := hhandler.run_bind (f := fun _ => clearFrame) hholds
      fun _ s' _ => ⟨(), { s' with cmdBuf := [] }, rfl⟩
    exact ⟨b', hrun⟩
  · refine ⟨{ b with cmdBuf := [] }, ?_⟩
    rw [m4boardExecute, run_bind run_size, if_pos (by omega)]
    rfl

theorem execute_faults (h : Overruns b.cmdBuf) : m4boardExecute w b = .error .config := by
  obtain ⟨hcmd, hbehind⟩ := h
  have hlong := hbehind.1
  rw [m4boardExecute_eq (by omega), hcmd, handler_config]
  exact run_bind_error (cmdConfig_faults (b := cleared b) hbehind)

theorem m4boardWriteResponse_safe {rom : Fin romSize → UInt8} :
    InBounds f (m4boardWriteResponse rom : Handler ω Unit) := by
  refine Safe.get fun b _ => when_safe fun _ => ?_
  have hsize : responseSize = 0x600 := rfl
  have hrom : romSize = 0x4000 := rfl
  exact (responseBytes_returns (by omega)).bind fun data hdata => copyToRom_safe (by omega)

/-- For every frame and every board, executing the frame stays inside the buffers, and what is declared of the response
    is not more than the buffer, unless the frame configures the board from an offset on that is behind the buffer. -/
theorem out_handler_in_bounds_iff (w : Host ω) (b : Board ω) :
    (∃ b', m4boardOutHandlerFc w b = .ok ((), b')) ↔ ¬Overruns b.cmdBuf := by
  constructor
  · rintro ⟨b', hrun⟩ h
    rw [m4boardOutHandlerFc, run_bind_error (execute_faults h)] at hrun
    cases hrun
  · intro h
    obtain ⟨b₁, hexec⟩ := execute_runs (w := w) h
    rw [m4boardOutHandlerFc, run_bind hexec, run_get]
    cases b₁.rom with
    | none => exact ⟨b₁, rfl⟩
    | some rom =>
      obtain ⟨_, b', hwrite, _⟩ := @m4boardWriteResponse_safe _ b₁.cmdBuf rom b₁ rfl
      exact ⟨b', hwrite⟩

/-- A computer without a card; its network has one server, which sends what it is given to send. -/
def bareHost (served : Bytes) : Host Unit where
  weaklyCanonical path _ := .ok path
  lexicallyRelative path _ := path
  isDirectory _ _ := .ok false
  directoryIterator _ _ := []
  fileSize _ _ := .error (ascii "No such file")
  remove _ _ := (.ok false, ())
  createDirectories _ _ := (.error (ascii "No card"), ())
  rename _ _ _ := (.error (ascii "No such file"), ())
  existsFile _ _ := .ok false
  copyFile _ _ _ := (.error (ascii "No such file"), ())
  space _ _ := .error (ascii "No card")
  fopen _ _ _ := (none, ())
  tmpfile _ := (none, ())
  fclose _ _ := ()
  fread _ _ _ := ([], ())
  fwrite _ _ _ := (0, ())
  fseek _ _ _ := (false, ())
  ftell _ _ := -1
  feof _ _ := true
  dskLoad _ _ := (none, ())
  dskEject _ _ := ()
  diskListFiles _ _ := .error (ascii "no disc in drive")
  diskReadFile _ _ _ := .error (ascii "no disc in drive")
  tracks _ _ := 0
  sector _ _ _ _ := none
  curlEasyInit _ := (true, ())
  curlEasyStrerror _ := ascii "Couldn't connect to server"
  curlToFile _ _ _ := (curleWriteError, ())
  curlPieces _ _ := (([served], curleOk), ())
  getHostIp _ := []
  getHostSsid _ := []
  socket _ := (none, ())
  close _ _ := ()
  setNonblocking _ _ := ()
  connect _ _ _ _ := (false, ())
  getsockname _ _ := none
  send _ _ _ := (-1, ())
  recv _ _ _ := ([], ())
  getaddrinfo _ _ := none
  bind _ _ _ := (false, ())
  listen _ _ := (false, ())
  accept _ _ := (none, ())
  resolveHostPort port _ := port
  setPortMapping _ _ _ _ := ()
  setInactive _ _ := ()
  localtime _ := ⟨12, 0, 0, 90, 0, 1⟩
  mf2stop _ := ()

/-- One byte for the offset 200 is written behind the configuration. -/
theorem configuration_overruns :
    ¬∃ b', m4boardOutHandlerFc (bareHost []) { host := (), cmdBuf := [0, 0xFE, 0x43, 200, 7] } = .ok ((), b') := by
  have hrun : m4boardOutHandlerFc (bareHost []) { host := (), cmdBuf := [0, 0xFE, 0x43, 200, 7] } = .error .config :=
    rfl
  rw [hrun]
  rintro ⟨b', h⟩
  cases h

end Koncepcja.M4
