import Koncepcja.Lib.Checked
import Koncepcja.Lib.LittleEndian
import Mathlib.Algebra.Group.Int.Defs
import Mathlib.Algebra.GroupWithZero.Nat

/-!
# The M4 Board

The M4 board gives the CPC a disc on a memory card and a network. A program sends a frame byte by byte and has it
executed; the board puts a response into its buffer, from where the response is copied into the ROM of the board.

An access to a buffer is checked here, and one outside of the buffer is a fault.

## Main results

- `respondOk_safe`, `respondError_safe`, `respondErrorCode_safe`: the plain responses fit.
- `answer_safe`: a response fits when its data does.
- `extractString_safe`: a string is read inside the frame.
-/

namespace Koncepcja.M4

open Checked

abbrev Bytes := List UInt8

/-- The bytes of a text. -/
def ascii (text : String) : Bytes := text.toUTF8.data.toList

def responseSize : Nat := 0x600

instance (priority := 2000) responseRoom : @NeZero Nat Zero.ofOfNat0 (responseSize + 1) := ⟨Nat.succ_ne_zero responseSize⟩

def configSize : Nat := 128
def maxSockets : Nat := 4
/-- The size of a ROM image. -/
def romSize : Nat := 0x4000

def m4Ok : UInt8 := 0x00
def m4Error : UInt8 := 0xFF

/-! ## The computer around the board -/

/-- `FILE*` -/
abbrev FilePtr := Nat
/-- `t_drive*` -/
abbrev DrivePtr := Nat
/-- A socket that is not `INVALID_SOCK`. -/
abbrev Socket := Nat
/-- The text of an exception. -/
abbrev What := Bytes
abbrev CURLcode := Nat

def curleOk : CURLcode := 0
def curleWriteError : CURLcode := 23

structure DirEntry where
  name : Bytes
  isDir : Bool
  size : UInt32

/-- A file of a disk image. -/
structure DiskFile where
  displayName : Bytes
  sizeBytes : UInt32

/-- `struct tm`, as far as it is printed. -/
structure Tm where
  tmHour : Nat
  tmMin : Nat
  tmSec : Nat
  tmYear : Nat
  tmMon : Nat
  tmMday : Nat

/-- The libraries and the operating system: `ω` is what they remember. -/
structure Host (ω : Type) where
  -- `std::filesystem`
  weaklyCanonical : Bytes → ω → Except What Bytes
  /-- The normal form of the first path, relative to that of the second. -/
  lexicallyRelative : Bytes → Bytes → Bytes
  isDirectory : Bytes → ω → Except What Bool
  /-- The entries of a directory up to the first error. -/
  directoryIterator : Bytes → ω → List DirEntry
  fileSize : Bytes → ω → Except What Nat
  remove : Bytes → ω → Except What Bool × ω
  createDirectories : Bytes → ω → Except What Unit × ω
  rename : Bytes → Bytes → ω → Except What Unit × ω
  existsFile : Bytes → ω → Except What Bool
  copyFile : Bytes → Bytes → ω → Except What Unit × ω
  space : Bytes → ω → Except What Nat
  -- The streams of C
  fopen : Bytes → Bytes → ω → Option FilePtr × ω
  tmpfile : ω → Option FilePtr × ω
  fclose : FilePtr → ω → ω
  fread : FilePtr → Nat → ω → Bytes × ω
  fwrite : FilePtr → Bytes → ω → Nat × ω
  /-- Whether it succeeds. -/
  fseek : FilePtr → Nat → ω → Bool × ω
  ftell : FilePtr → ω → Int
  feof : FilePtr → ω → Bool
  -- Disk images
  dskLoad : Bytes → ω → Option DrivePtr × ω
  dskEject : DrivePtr → ω → ω
  diskListFiles : DrivePtr → ω → Except What (List DiskFile)
  diskReadFile : DrivePtr → Bytes → ω → Except What Bytes
  tracks : DrivePtr → ω → Nat
  /-- The 512 bytes from the start of a sector's data on, by the track and the number in the sector's header. -/
  sector : DrivePtr → UInt8 → UInt8 → ω → Option (Fin 512 → UInt8)
  -- `libcurl`
  curlEasyInit : ω → Bool × ω
  curlEasyStrerror : CURLcode → Bytes
  /-- Writes what it receives to a file. -/
  curlToFile : Bytes → FilePtr → ω → CURLcode × ω
  /-- The pieces that are received, and the result when all of them are taken. -/
  curlPieces : Bytes → ω → (List Bytes × CURLcode) × ω
  -- Sockets
  getHostIp : ω → Bytes
  getHostSsid : ω → Bytes
  socket : ω → Option Socket × ω
  close : Socket → ω → ω
  setNonblocking : Socket → ω → ω
  /-- Whether it is connected, or being connected. -/
  connect : Socket → Nat → Nat → ω → Bool × ω
  getsockname : Socket → ω → Option Nat
  send : Socket → Bytes → ω → Int × ω
  recv : Socket → Nat → ω → Bytes × ω
  getaddrinfo : Bytes → ω → Option Nat
  bind : Socket → UInt16 → ω → Bool × ω
  listen : Socket → ω → Bool × ω
  accept : Socket → ω → Option Socket × ω
  -- The ports that are forwarded
  resolveHostPort : UInt16 → ω → UInt16
  setPortMapping : UInt16 → UInt16 → Bool → ω → ω
  setInactive : Nat → ω → ω
  -- The rest of the emulator
  localtime : ω → Tm
  mf2stop : ω → ω

/-! ## The board -/

inductive ContainerType where
  | NONE | DSK
  deriving DecidableEq

structure Board (ω : Type) where
  /-- What the computer around the board remembers. -/
  host : ω
  enabled : Bool := true
  networkEnabled : Bool := true
  sdRootPath : Bytes := []
  currentDir : Bytes := ascii "/"
  cmdBuf : Bytes := []
  response : Fin responseSize → UInt8 := fun _ => 0
  responseLen : Fin (responseSize + 1) := 0
  openFiles : Fin 4 → Option FilePtr := fun _ => none
  configBuf : Fin configSize → UInt8 := fun _ => 0
  /-- `memmap_ROM[rom_slot]` -/
  rom : Option (Fin romSize → UInt8) := none
  dirEntries : List DirEntry := []
  dirIndex : Nat := 0
  containerType : ContainerType := .NONE
  containerHostPath : Bytes := []
  containerParentDir : Bytes := []
  containerDrive : Option DrivePtr := none
  sockets : Fin maxSockets → Option Socket := fun _ => none

/-- The buffer that an access is outside of; `length` is a declared length that is larger than the response buffer. -/
inductive Fault where
  | frame | response | length | config | rom
  deriving DecidableEq

/-- What a handler does. -/
abbrev Handler (ω α : Type) := Program Fault (Board ω) α

variable {ω α β : Type}

/-- Asks the host for something. -/
def ask (f : ω → α) : Handler ω α := do return f (← get).host

/-- Has the host do something. -/
def act (f : ω → ω) : Handler ω Unit := modify fun b => { b with host := f b.host }

/-- Has the host do something that has a result. -/
def call (f : ω → α × ω) : Handler ω α := do
  let r ← ask f
  act fun _ => r.2
  return r.1

/-! ## Buffers -/

/-- `cmd_buf.size()` -/
def size : Handler ω Nat := do return (← get).cmdBuf.length

/-- `cmd_buf[i]` -/
def frame (i : Nat) : Handler ω UInt8 := do
  let b ← get
  check (i < b.cmdBuf.length) .frame (pure (b.cmdBuf.getD i 0))

/-- The bytes of the frame that are passed on by their address and number. -/
def frameBytes (start len : Nat) : Handler ω Bytes := do
  let b ← get
  check (start + len ≤ b.cmdBuf.length) .frame (pure ((b.cmdBuf.drop start).take len))

/-- A buffer with data copied into it. -/
def overwrite {n : Nat} (buf : Fin n → UInt8) (start : Nat) (data : Bytes) : Fin n → UInt8 := fun i =>
  if start ≤ i then data.getD (i - start) (buf i) else buf i

/-- Bytes of a buffer. -/
def window {n : Nat} (buf : Fin n → UInt8) (start len : Nat) : Bytes := ((List.ofFn buf).drop start).take len

def responseBytes (start len : Nat) : Handler ω Bytes := do
  let b ← get
  check (start + len ≤ responseSize) .response (pure (window b.response start len))

/-- Bytes of a ROM image. -/
def romBytes (rom : Fin romSize → UInt8) (start len : Nat) : Handler ω Bytes :=
  check (start + len ≤ romSize) .rom (pure (window rom start len))

/-- Copies data into the response. -/
def copyTo (start : Nat) (data : Bytes) : Handler ω Unit :=
  check (start + data.length ≤ responseSize) .response do
    modify fun b => { b with response := overwrite b.response start data }

/-- `response_len = len` -/
def setLen (len : Nat) : Handler ω Unit :=
  check (len ≤ responseSize) .length do
    modify fun b => { b with responseLen := Fin.ofNat _ len }

/-- Copies data into the configuration. -/
def copyToConfig (start : Nat) (data : Bytes) : Handler ω Unit :=
  check (start + data.length ≤ configSize) .config do
    modify fun b => { b with configBuf := overwrite b.configBuf start data }

/-- Copies data into a ROM image. -/
def copyToRom (rom : Fin romSize → UInt8) (start : Nat) (data : Bytes) : Handler ω Unit :=
  check (start + data.length ≤ romSize) .rom do
    modify fun b => { b with rom := some (overwrite rom start data) }

/-- Two bytes of the frame as a number. -/
def word (lo hi : UInt8) : Nat := Bytes.ofLe [lo, hi]

/-- Four bytes, the highest first. -/
def be32 (n : Nat) : Bytes := (Bytes.le32 n).reverse

/-! ## Responses -/

/-- A response of a status, two bytes and the data. -/
def answer (status : UInt8) (data : Bytes) : Handler ω Unit := do
  copyTo 0 [status, 0, 0]
  copyTo 3 data
  setLen (3 + data.length)

/-- The response of a command that was executed. -/
def reply (data : Bytes) : Handler ω Unit := answer m4Ok data

def respondOk : Handler ω Unit := reply [0]

def respondError (msg : Option Bytes) : Handler ω Unit := do
  copyTo 0 [m4Error, 0, 0, 0xFF]
  match msg with
  | some msg => do
    let msg := msg.take (responseSize - 5)
    copyTo 4 (msg ++ [0])
    setLen (5 + msg.length)
  | none => setLen 4

/-- An error with its text. -/
def refuse (msg : String) : Handler ω Unit := respondError (some (ascii msg))

def respondErrorCode (code : UInt8) : Handler ω Unit := do
  copyTo 0 [m4Error, 0, 0, 0xFF, code]
  setLen 5

/-- What is done with the result of a call, and the response to an exception. -/
def attempt (result : Except What α) (k : α → Handler ω Unit) : Handler ω Unit :=
  match result with
  | .ok a => k a
  | .error what => respondError (some what)

/-! ## Strings -/

/-- The bytes of a string that starts at `i`, when `n` bytes of the frame are left. -/
def stringAt : Nat → Nat → Handler ω Bytes
  | 0, _ => pure []
  | n + 1, i => do
    let c ← frame i
    if c = 0 then pure []
    else do
      let s ← stringAt n (i + 1)
      return c :: s

def extractString (offset : Nat) : Handler ω Bytes := do
  let n ← size
  stringAt (n - offset) offset

/-- The text that `snprintf` leaves in a buffer. -/
def snprintf (bufSize : Nat) (text : Bytes) : Bytes := text.take (bufSize - 1)

/-- `%u` with a width, filled up with a character. -/
def padLeft (fill : UInt8) (width n : Nat) : Bytes :=
  let digits := ascii (toString n)
  List.replicate (width - digits.length) fill ++ digits

def toupper (c : UInt8) : UInt8 := if 97 ≤ c ∧ c ≤ 122 then c - 32 else c
def tolower (c : UInt8) : UInt8 := if 65 ≤ c ∧ c ≤ 90 then c + 32 else c

/-- What stands before and after the last place of a character (`rfind`). -/
def splitLast (c : UInt8) (s : Bytes) : Option (Bytes × Bytes) :=
  if c ∈ s then
    let after := (s.reverse.takeWhile (· ≠ c)).reverse
    some (s.take (s.length - after.length - 1), after)
  else none

/-! ## Safe handlers -/

/-- The frame that is being executed. -/
def Holds (f : Bytes) (b : Board ω) : Prop := b.cmdBuf = f

/-- Every access that is made for the frame is inside its buffer. -/
abbrev InBounds (f : Bytes) (m : Handler ω α) : Prop := Safe (Holds f) m

variable {f : Bytes}

theorem ask_safe {g : ω → α} : InBounds f (ask g) := Safe.get fun b _ => .pure (g b.host)

theorem act_safe {g : ω → ω} : InBounds f (act g) := .modify fun _ hb => hb

theorem call_safe {g : ω → α × ω} : InBounds f (call g) :=
  ask_safe.bind fun r => act_safe.bind fun _ => .pure r.1

theorem size_safe {k : Nat → Handler ω α} (h : InBounds f (k f.length)) : InBounds f (size >>= k) := by
  rintro b rfl
  exact h b rfl

theorem run_size {b : Board ω} : size b = .ok (b.cmdBuf.length, b) := rfl

theorem run_frame {i : Nat} {b : Board ω} (hi : i < b.cmdBuf.length) : frame i b = .ok (b.cmdBuf.getD i 0, b) :=
  run_check (m := (pure (b.cmdBuf.getD i 0) : Handler ω UInt8)) hi

theorem frame_safe {i : Nat} (hi : i < f.length) : InBounds f (frame i : Handler ω UInt8) := by
  refine Safe.get fun b hb => ?_
  rw [show b.cmdBuf = f from hb]
  exact .check hi (.pure _)

theorem frame_returns {i : Nat} (hi : i < f.length) :
    Returns (Holds f) (fun v => v = f.getD i 0) (frame i : Handler ω UInt8) := by
  refine Returns.get fun b hb => ?_
  rw [show b.cmdBuf = f from hb]
  exact .check hi (.pure rfl)

theorem frameBytes_returns {start len : Nat} (h : start + len ≤ f.length) :
    Returns (Holds f) (fun data => data.length = len) (frameBytes start len : Handler ω Bytes) := by
  refine Returns.get fun b hb => ?_
  rw [show b.cmdBuf = f from hb]
  refine .check h (.pure ?_)
  rw [List.length_take, List.length_drop]
  omega

theorem length_window {n : Nat} {buf : Fin n → UInt8} {start len : Nat} (h : start + len ≤ n) :
    (window buf start len).length = len := by
  rw [window, List.length_take, List.length_drop, List.length_ofFn]
  omega

theorem responseBytes_returns {start len : Nat} (h : start + len ≤ responseSize) :
    Returns (Holds f) (fun data => data.length = len) (responseBytes start len : Handler ω Bytes) :=
  Returns.get fun _ _ => .check h (.pure (length_window h))

theorem romBytes_returns {rom : Fin romSize → UInt8} {start len : Nat} (h : start + len ≤ romSize) :
    Returns (Holds f) (fun data => data.length = len) (romBytes rom start len : Handler ω Bytes) :=
  .check h (.pure (length_window h))

theorem copyTo_safe {start : Nat} {data : Bytes} (h : start + data.length ≤ responseSize) :
    InBounds f (copyTo start data : Handler ω Unit) :=
  .check h (.modify fun _ hb => hb)

theorem setLen_safe {len : Nat} (h : len ≤ responseSize) : InBounds f (setLen len : Handler ω Unit) :=
  .check h (.modify fun _ hb => hb)

theorem copyToConfig_safe {start : Nat} {data : Bytes} (h : start + data.length ≤ configSize) :
    InBounds f (copyToConfig start data : Handler ω Unit) :=
  .check h (.modify fun _ hb => hb)

theorem copyToRom_safe {rom : Fin romSize → UInt8} {start : Nat} {data : Bytes}
    (h : start + data.length ≤ romSize) : InBounds f (copyToRom rom start data : Handler ω Unit) :=
  .check h (.modify fun _ hb => hb)

theorem answer_safe {status : UInt8} {data : Bytes} (h : 3 + data.length ≤ responseSize) :
    InBounds f (answer status data : Handler ω Unit) :=
  (copyTo_safe (show 3 ≤ responseSize by decide)).seq <| (copyTo_safe h).seq (setLen_safe h)

theorem reply_safe {data : Bytes} (h : 3 + data.length ≤ responseSize) : InBounds f (reply data : Handler ω Unit) :=
  answer_safe h

theorem respondOk_safe : InBounds f (respondOk : Handler ω Unit) := reply_safe (by decide)

/-- However long the text is. -/
theorem respondError_safe {msg : Option Bytes} : InBounds f (respondError msg : Handler ω Unit) := by
  refine (copyTo_safe (by decide)).seq ?_
  cases msg with
  | none => exact setLen_safe (by decide)
  | some msg =>
    have hlen : (msg.take (responseSize - 5)).length ≤ responseSize - 5 := List.length_take_le _ _
    have hsize : 5 ≤ responseSize := by decide
    refine (copyTo_safe ?_).seq (setLen_safe (by omega))
    rw [List.length_append, List.length_singleton]
    omega

theorem refuse_safe {msg : String} : InBounds f (refuse msg : Handler ω Unit) := respondError_safe

theorem respondErrorCode_safe {code : UInt8} : InBounds f (respondErrorCode code : Handler ω Unit) :=
  (copyTo_safe (show 5 ≤ responseSize by decide)).seq (setLen_safe (by decide))

theorem attempt_safe {result : Except What α} {k : α → Handler ω Unit} (hk : ∀ a, InBounds f (k a)) :
    InBounds f (attempt result k) := by
  cases result with
  | ok a => exact hk a
  | error what =>
    show InBounds f (respondError (some what))
    exact respondError_safe

theorem stringAt_safe (n i : Nat) (h : i + n ≤ f.length) : InBounds f (stringAt n i : Handler ω Bytes) := by
  induction n generalizing i with
  | zero => exact .pure []
  | succ n ih =>
    refine (frame_safe (by omega)).bind fun c => .ite (fun _ => .pure []) fun _ => ?_
    exact (ih (i + 1) (by omega)).bind fun s => .pure (c :: s)

/-- Whatever the offset is. -/
theorem extractString_safe {offset : Nat} : InBounds f (extractString offset : Handler ω Bytes) := by
  refine size_safe ?_
  by_cases h : offset ≤ f.length
  · exact stringAt_safe _ _ (by omega)
  · rw [Nat.sub_eq_zero_of_le (by omega)]
    exact .pure []

end Koncepcja.M4
