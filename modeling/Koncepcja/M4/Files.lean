import Koncepcja.M4.Board

/-!
# Commands for Files and Directories

## Main results

- `withFile_safe`: what the commands with a file handle have in common.
- `cmdRead_safe`, `cmdRead2_safe`: as many bytes are read as fit into the response.
- `cmdReaddir_safe`: a name is cut off where the response ends.
-/

namespace Koncepcja.M4

open Checked

variable {ω : Type} (w : Host ω) {f : Bytes}

/-! ## Paths -/

/-- A path that ends in a slash. -/
def slashed (path : Bytes) : Bytes := if path.getLast? = some '/'.toUInt8 then path else path ++ ascii "/"

/-- `operator/` of paths -/
def pathJoin (dir path : Bytes) : Bytes :=
  if path.head? = some '/'.toUInt8 ∨ dir = [] then path else slashed dir ++ path

/-- Whether a relative path leads out of the directory. -/
def leavesDir (rel : Bytes) : Bool := rel.takeWhile (· ≠ '/'.toUInt8) = ascii ".."

/-- The path on the host; empty when the path leaves the card. -/
def resolvePath (relPath : Bytes) : Handler ω Bytes := do
  let b ← get
  let base := b.sdRootPath
  if base = [] then pure []
  else do
    let full :=
      if relPath.head? = some '/'.toUInt8 then base ++ relPath
      else slashed (base ++ b.currentDir) ++ relPath
    match ← ask (w.weaklyCanonical full), ← ask (w.weaklyCanonical base) with
    | .ok canonical, .ok root =>
      let rel := w.lexicallyRelative canonical root
      if rel = [] ∨ leavesDir rel then pure [] else pure canonical
    | _, _ => pure []

/-- What is done with the path on the host that a path in the frame has. -/
def withPath (relPath : Bytes) (k : Bytes → Handler ω Unit) : Handler ω Unit := do
  let resolved ← resolvePath w relPath
  if resolved = [] then refuse "Invalid path" else k resolved

/-! ## Containers -/

def inContainer : Handler ω Bool := do return (← get).containerType ≠ .NONE

/-- Nothing is changed inside a container. -/
def readOnly (k : Handler ω Unit) : Handler ω Unit := do
  if ← inContainer then refuse "Read-only container" else k

/-- Does something under a condition. -/
def when (c : Prop) [Decidable c] (m : Handler ω Unit) : Handler ω Unit := if c then m else pure ()

def containerExit : Handler ω Unit := do
  let b ← get
  act fun host => match b.containerDrive with
    | some drive => w.dskEject drive host
    | none => host
  modify fun b => { b with
    containerDrive := none
    currentDir := b.containerParentDir
    containerParentDir := []
    containerHostPath := []
    containerType := .NONE }

/-- `std::filesystem::path::filename` -/
def filename (path : Bytes) : Bytes := (path.reverse.takeWhile (· ≠ '/'.toUInt8)).reverse

def containerEnterDsk (hostPath parentDir : Bytes) : Handler ω Bool := do
  match ← call (w.dskLoad hostPath) with
  | none => pure false
  | some drive => do
    modify fun b => { b with
      containerDrive := some drive
      containerType := .DSK
      containerHostPath := hostPath
      containerParentDir := parentDir
      currentDir := parentDir ++ filename hostPath ++ ascii "/" }
    pure true

/-! ## Directories -/

def cmdCd : Handler ω Unit := do
  let path ← extractString 3
  let inside ← inContainer
  if path = ascii "/" then do
    when inside (containerExit w)
    modify fun b => { b with currentDir := ascii "/" }
    respondOk
  else if (path = ascii ".." ∨ path = ascii "../") ∧ inside then do
    containerExit w
    respondOk
  else if inside then refuse "Not a directory"
  else withPath w path fun resolved => do
    let b ← get
    attempt (← ask (w.isDirectory resolved)) fun isDirectory =>
      if isDirectory then do
        attempt (← ask (w.weaklyCanonical b.sdRootPath)) fun root => do
          let rel := w.lexicallyRelative resolved root
          let relStr := if rel = ascii "." then ascii "/" else slashed (ascii "/" ++ rel)
          modify fun b => { b with currentDir := relStr }
          respondOk
      else
        let lower := path.map tolower
        -- A disk image is entered like a directory.
        if 4 ≤ lower.length ∧ lower.drop (lower.length - 4) = ascii ".dsk" then do
          if ← containerEnterDsk w resolved b.currentDir then respondOk else refuse "Cannot open DSK"
        else refuse "Not a directory"

def dirPopulate : Handler ω Unit := do
  modify fun b => { b with dirEntries := [], dirIndex := 0 }
  let b ← get
  match b.containerType, b.containerDrive with
  | .DSK, some drive => do
    match ← ask (w.diskListFiles drive) with
    | .error _ => pure ()
    | .ok files => modify fun b => { b with
        dirEntries := files.map fun file => ⟨file.displayName, false, file.sizeBytes⟩ }
  | _, _ => do
    let resolved ← resolvePath w b.currentDir
    if resolved = [] then pure ()
    else do
      let entries ← ask (w.directoryIterator resolved)
      modify fun b => { b with
        dirEntries := entries.filter fun entry => entry.name ≠ [] ∧ entry.name.head? ≠ some '.'.toUInt8 }

/-- A part of a name, filled up with blanks. -/
def padded (width : Nat) (s : Bytes) : Bytes :=
  (s.map toupper ++ List.replicate width ' '.toUInt8).take width

def formatAmsdos83 (name : Bytes) (isDir : Bool) : Bytes :=
  let parts := match splitLast '.'.toUInt8 name with
    | some (base, ext) => if base ≠ [] ∧ ¬isDir then (base, ext) else (name, [])
    | none => (name, [])
  padded 8 parts.1 ++ ascii "." ++ padded 3 parts.2

/-- The size of a file as it is printed. -/
def sizebuf (entry : DirEntry) : Bytes :=
  let size := entry.size.toNat
  let text :=
    if entry.isDir then ascii "<DIR>"
    else if size < 1024 then padLeft ' '.toUInt8 4 size ++ ascii "B"
    else if size < 1024 * 1024 then padLeft ' '.toUInt8 4 ((size + 1023) / 1024) ++ ascii "K"
    else if size < 1024 * 1024 * 1024 then
      padLeft ' '.toUInt8 4 ((size + (1024 * 1024 - 1)) % 2 ^ 32 / (1024 * 1024)) ++ ascii "M"
    else padLeft ' '.toUInt8 4 ((size + (1024 * 1024 * 1024 - 1)) % 2 ^ 32 / (1024 * 1024 * 1024)) ++ ascii "G"
  (snprintf 12 text ++ List.replicate 12 0).take 12

/-- The bytes of an entry, with its name in full or as `CAT` prints it. -/
def entryBytes (lsMode : Bool) (entry : DirEntry) : Bytes :=
  if lsMode then
    let mark := if entry.isDir then ascii ">" else []
    mark ++ entry.name.take (responseSize - (3 + mark.length) - 1) ++ [0]
  else
    let kb := min (entry.size.toNat / 1024) 0xFFFF
    formatAmsdos83 entry.name entry.isDir ++ (sizebuf entry).take 5 ++
      [0, UInt8.ofNat kb, UInt8.ofNat (kb >>> 8)]

def cmdReaddir : Handler ω Unit := do
  let before ← get
  when (before.dirEntries = [] ∧ before.dirIndex = 0) (dirPopulate w)
  let b ← get
  match b.dirEntries[b.dirIndex]? with
  | none => answer 2 []
  | some entry => do
    modify fun b => { b with dirIndex := b.dirIndex + 1 }
    let n ← size
    answer 1 (entryBytes (3 < n) entry)

def cmdGetpath : Handler ω Unit := do
  let b ← get
  reply (b.currentDir.take (responseSize - 4) ++ [0])

def cmdDirsetargs : Handler ω Unit := do
  dirPopulate w
  respondOk

/-- The free space of the card, 0 when it is not known. -/
def freeKb : Handler ω Nat := do
  let resolved ← resolvePath w (ascii "/")
  if resolved = [] then pure 0
  else do
    match ← ask (w.space resolved) with
    | .ok available => pure (available / 1024)
    | .error _ => pure 0

def cmdFree : Handler ω Unit := do
  let kbFree ← freeKb w
  let text :=
    if 1048576 ≤ kbFree then ascii (toString (kbFree / 1048576)) ++ ascii "G free"
    else if 1024 ≤ kbFree then ascii (toString (kbFree / 1024)) ++ ascii "M free"
    else ascii (toString kbFree) ++ ascii "K free"
  reply (snprintf 32 text ++ [0])

/-! ## Open files -/

/-- The file of a handle. -/
def fileOf (b : Board ω) (handle : Nat) : Option FilePtr :=
  if h : handle < 4 then b.openFiles ⟨handle, h⟩ else none

def setFile (handle : Fin 4) (file : Option FilePtr) : Handler ω Unit :=
  modify fun b => { b with openFiles := Function.update b.openFiles handle file }

/-- Closes the file of a handle, if there is one. -/
def closeFile (handle : Fin 4) : Handler ω Unit := do
  match (← get).openFiles handle with
  | some file => do
    act (w.fclose file)
    setFile handle none
  | none => pure ()

/-- What is done with the file of the handle in the frame, when the frame is as long as it needs to be. -/
def withFile (needed : Nat) (k : FilePtr → Handler ω Unit) : Handler ω Unit := do
  if (← size) < needed then respondError none
  else do
    let handle ← frame 3
    match fileOf (← get) handle.toNat with
    | none => refuse "Bad handle"
    | some file => k file

/-- `fread`, which stores no more than was asked for. -/
def fread (file : FilePtr) (count : Nat) : Handler ω Bytes := do
  let data ← call (w.fread file count)
  return data.take count

/-- The names that a program may mean. -/
def candidates (name : Bytes) : List Bytes :=
  if '.'.toUInt8 ∈ name then [name]
  else name :: [".BAS", ".BIN", ".", ""].map fun ext => name ++ ascii ext

/-- The first file that can be opened. -/
def firstOpened : List (Handler ω (Option FilePtr)) → Handler ω (Option FilePtr)
  | [] => pure none
  | attempt :: attempts => do
    match ← attempt with
    | some file => pure (some file)
    | none => firstOpened attempts

def fopenReadWrite (full : Bytes) : Handler ω (Option FilePtr) :=
  firstOpened [call (w.fopen full (ascii "r+b")), call (w.fopen full (ascii "rb"))]

def tryOpenCpc (dirPath name : Bytes) : Handler ω (Option FilePtr) := do
  let entries ← ask (w.directoryIterator dirPath)
  let matching := entries.flatMap fun entry =>
    (candidates name).filterMap fun cand =>
      if entry.name.map toupper = cand.map toupper then some entry.name else none
  firstOpened (matching.map fun entryName => fopenReadWrite w (dirPath ++ ascii "/" ++ entryName))

/-- The contents of a file of a disk image, also when its name is written in another way. -/
def containerRead (drive : DrivePtr) (name : Bytes) : Handler ω (Option Bytes) := do
  match ← ask (w.diskReadFile drive name) with
  | .ok data => pure (some data)
  | .error _ => do
    match ← ask (w.diskListFiles drive) with
    | .error _ => pure none
    | .ok files => do
      let matching := (candidates name).flatMap fun cand =>
        files.filter fun file => file.displayName.map toupper = cand.map toupper
      let reads ← ask fun host => matching.map fun file => w.diskReadFile drive file.displayName host
      pure (reads.findSome? fun read => read.toOption)

def containerOpenFile (name : Bytes) : Handler ω (Option FilePtr) := do
  match (← get).containerDrive with
  | none => pure none
  | some drive => do
    match ← containerRead w drive name with
    | none => pure none
    | some data => do
      match ← call w.tmpfile with
      | none => pure none
      | some file => do
        let _ ← call (w.fwrite file data)
        let _ ← call (w.fseek file 0)
        pure (some file)

/-- Opens a file for a handle; what is opened is told the program, and else the error is. -/
def openFor (handle : Fin 4) (error : UInt8) (opened : Handler ω (Option FilePtr)) : Handler ω Unit := do
  match ← opened with
  | none => do
    setFile handle none
    respondErrorCode error
  | some file => do
    setFile handle (some file)
    reply [UInt8.ofNat handle, 0]

def freeHandle (b : Board ω) : Option (Fin 4) := (List.finRange 4).find? fun i => (b.openFiles i).isNone

def openMode : Handler ω UInt8 := do
  if 3 < (← size) then frame 3 else pure 0x01

/-- The name stands after the mode, or in its place. -/
def openName : Handler ω Bytes := do
  let name ← extractString 4
  if name = [] then extractString 3 else pure name

/-- The handle for a mode: the ROM reads with the handle 1 and writes with the handle 2, and these are closed. -/
def handleFor (mode : UInt8) : Handler ω (Option (Fin 4)) := do
  if mode &&& 0x02 ≠ 0 then do
    closeFile w 2
    pure (some 2)
  else if mode = 0x01 then do
    closeFile w 1
    pure (some 1)
  else do
    return freeHandle (← get)

def cmdOpen : Handler ω Unit := do
  let mode ← openMode
  let isWrite := mode &&& 0x02 ≠ 0
  let isCreate := mode &&& 0x08 ≠ 0
  let rawName ← openName
  if ← inContainer then
    if isWrite then respondErrorCode 7
    else do
      closeFile w 1
      openFor 1 4 (containerOpenFile w rawName)
  else do
    let dir ← resolvePath w (← get).currentDir
    if dir = [] then respondErrorCode 5
    else do
      match ← handleFor w mode with
      | none => respondErrorCode 255
      | some handle => do
        let resolved ← resolvePath w rawName
        if isWrite ∧ isCreate then
          if resolved = [] then respondErrorCode 6
          else openFor handle 7 (call (w.fopen resolved (ascii "w+b")))
        else
          let direct := if resolved = [] then [] else
            [call (w.fopen resolved (if isWrite then ascii "r+b" else ascii "rb"))]
          openFor handle 4 (firstOpened (direct ++ [tryOpenCpc w dir rawName]))

/-- Closes the file of a handle, if it is one. -/
def closeHandle (handle : Nat) : Handler ω Unit := if h : handle < 4 then closeFile w ⟨handle, h⟩ else pure ()

def cmdClose : Handler ω Unit := do
  if (← size) < 4 then respondError none
  else do
    let handle ← frame 3
    closeHandle w handle.toNat
    respondOk

def cmdRead : Handler ω Unit := withFile 6 fun file => do
  let count := word (← frame 4) (← frame 5)
  let data ← fread w file (min count (responseSize - 4))
  reply (0 :: data)

def cmdRead2 : Handler ω Unit := withFile 6 fun file => do
  let count := word (← frame 4) (← frame 5)
  let data ← fread w file (min count (responseSize - 8))
  let atEof ← ask (w.feof file)
  reply ([if atEof then 0x14 else 0, UInt8.ofNat data.length, UInt8.ofNat (data.length >>> 8), 0, 0] ++ data)

/-- The data of an empty sector. -/
def filler : Bytes := List.replicate 512 0xE5

/-- Where a sector is in a file, by its track and its number. -/
def sectorOffset (track sector : UInt8) : Nat :=
  (track.toNat * 9 + if 0xC1 ≤ sector.toNat then sector.toNat - 0xC1 else sector.toNat) * 512

def cmdReadsector : Handler ω Unit := do
  if (← size) < 6 then respondError none
  else do
    let track ← frame 3
    let sector ← frame 4
    let b ← get
    match b.containerType, b.containerDrive with
    | .DSK, some drive => do
      if (← ask (w.tracks drive)) ≤ track.toNat then reply (1 :: filler)
      else do
        match ← ask (w.sector drive track sector) with
        | some data => reply (0 :: List.ofFn data)
        | none => reply (0 :: filler)
    | _, _ => do
      match b.openFiles 1 with
      | none => reply (1 :: filler)
      | some file => do
        let _ ← call (w.fseek file (sectorOffset track sector))
        let data ← fread w file 512
        reply (0 :: (data ++ List.replicate (512 - data.length) 0xE5))

def cmdWritesector : Handler ω Unit := readOnly do
  if (← size) < 6 + 512 then respondError none
  else do
    let track ← frame 3
    let sector ← frame 4
    match (← get).openFiles 2 with
    | none => refuse "No file open for write"
    | some file => do
      let _ ← call (w.fseek file (sectorOffset track sector))
      let data ← frameBytes 6 512
      let written ← call (w.fwrite file data)
      if written = 512 then respondOk else refuse "Write sector failed"

def cmdFormattrack : Handler ω Unit := refuse "Format not supported"

def cmdSdread : Handler ω Unit := do
  if (← size) < 8 then respondError none
  else do
    -- The block and the number of blocks are taken from the frame, and not used.
    let _ ← frame 3
    let _ ← frame 4
    let _ ← frame 5
    let _ ← frame 6
    let _ ← frame 7
    reply [1]

def cmdSdwrite : Handler ω Unit := reply [1]

def cmdWrite : Handler ω Unit := readOnly <| withFile 5 fun file => do
  let n ← size
  let data ← frameBytes 4 (n - 4)
  let written ← call (w.fwrite file data)
  if written = n - 4 then respondOk else refuse "Write failed"

def cmdWrite2 : Handler ω Unit := readOnly (cmdWrite w)

def cmdSeek : Handler ω Unit := withFile 8 fun file => do
  let offset := word (← frame 4) (← frame 5) ||| word (← frame 6) (← frame 7) <<< 16
  if ← call (w.fseek file offset) then respondOk else refuse "Seek failed"

def cmdEof : Handler ω Unit := withFile 4 fun file => do
  let atEof ← ask (w.feof file)
  reply [if atEof then 1 else 0]

def cmdFtell : Handler ω Unit := withFile 4 fun file => do
  let pos ← ask (w.ftell file)
  if pos < 0 then refuse "ftell failed" else reply (Bytes.le32 pos.toNat)

def cmdFstat : Handler ω Unit := withFile 4 fun _ => reply [0]

/-! ## Names -/

/-- The file of a disk image that has a name, whatever the case. -/
def findFile (name : Bytes) (files : List DiskFile) : Option DiskFile :=
  files.find? fun file => file.displayName.map toupper = name.map toupper

def cmdFsize : Handler ω Unit := do
  let path ← extractString 3
  let b ← get
  match b.containerType, b.containerDrive with
  | .DSK, some drive => do
    let files ← ask (w.diskListFiles drive)
    match findFile path (files.toOption.getD []) with
    | some file => reply (Bytes.le32 file.sizeBytes.toNat)
    | none => refuse "File not found"
  | _, _ => withPath w path fun resolved => do
    attempt (← ask (w.fileSize resolved)) fun fsize => reply (Bytes.le32 fsize)

def cmdErasefile : Handler ω Unit := readOnly do
  let path ← extractString 3
  withPath w path fun resolved => do
    attempt (← call (w.remove resolved)) fun removed => if removed then respondOk else refuse "File not found"

def cmdMakedir : Handler ω Unit := readOnly do
  let path ← extractString 3
  withPath w path fun resolved => do
    attempt (← call (w.createDirectories resolved)) fun _ => respondOk

def cmdRename : Handler ω Unit := readOnly do
  let newname ← extractString 3
  let oldOffset := 3 + newname.length + 1
  if (← size) ≤ oldOffset then refuse "Missing old name"
  else do
    let oldname ← extractString oldOffset
    let resolvedOld ← resolvePath w oldname
    let resolvedNew ← resolvePath w newname
    if resolvedOld = [] ∨ resolvedNew = [] then refuse "Invalid path"
    else do
      attempt (← call (w.rename resolvedOld resolvedNew)) fun _ => respondOk

/-- A string that may be missing. -/
def extractMore (offset : Nat) : Handler ω Bytes := do
  if offset < (← size) then extractString offset else pure []

def cmdCopyfile : Handler ω Unit := do
  let b ← get
  if b.sdRootPath = [] then refuse "No SD path"
  else do
    let src ← extractString 3
    let dst ← extractMore (3 + src.length + 1)
    if src = [] ∨ dst = [] then refuse "Missing src or dest filename"
    else do
      match ← ask (w.weaklyCanonical b.sdRootPath) with
      -- This exception is not caught, and nothing comes after it.
      | .error _ => pure ()
      | .ok root => do
        let dir := pathJoin root (b.currentDir.drop 1)
        attempt (← ask (w.weaklyCanonical (pathJoin dir src))) fun srcFull => do
          attempt (← ask (w.weaklyCanonical (pathJoin dir dst))) fun dstFull => do
            if leavesDir (w.lexicallyRelative srcFull root) ∨ leavesDir (w.lexicallyRelative dstFull root) then
              refuse "Path traversal blocked"
            else do
              attempt (← ask (w.existsFile srcFull)) fun there => do
                if there then do
                  attempt (← call (w.copyFile srcFull dstFull)) fun _ => respondOk
                else refuse "Source not found"

/-! ## Safe parts -/

section

variable {w}

theorem resolvePath_safe {path : Bytes} : InBounds f (resolvePath w path) := by
  refine Safe.get fun b _ => .ite (fun _ => .pure []) fun _ => ?_
  refine ask_safe.bind fun canonical => ask_safe.bind fun root => ?_
  split
  · exact .ite (fun _ => .pure _) fun _ => .pure _
  · exact .pure _

theorem withPath_safe {path : Bytes} {k : Bytes → Handler ω Unit} (hk : ∀ p, InBounds f (k p)) :
    InBounds f (withPath w path k) :=
  resolvePath_safe.bind fun p => .ite (fun _ => refuse_safe) fun _ => hk p

theorem inContainer_safe : InBounds f (inContainer : Handler ω Bool) := Safe.get fun _ _ => .pure _

theorem readOnly_safe {k : Handler ω Unit} (hk : InBounds f k) : InBounds f (readOnly k) :=
  inContainer_safe.bind fun _ => .ite (fun _ => refuse_safe) fun _ => hk

theorem when_safe {c : Prop} [Decidable c] {m : Handler ω Unit} (hm : c → InBounds f m) :
    InBounds f (when c m) :=
  .ite hm fun _ => .pure ()

theorem run_when {c : Prop} [Decidable c] {m : Handler ω Unit} {b : Board ω} (hc : ¬c) : when c m b = .ok ((), b) := by
  rw [when, if_neg hc]
  rfl

theorem containerExit_safe : InBounds f (containerExit w) :=
  Safe.get fun _ _ => act_safe.seq (.modify fun _ hb => hb)

theorem containerEnterDsk_safe {hostPath parentDir : Bytes} :
    InBounds f (containerEnterDsk w hostPath parentDir) := by
  refine call_safe.bind fun drive => ?_
  cases drive with
  | none => exact .pure false
  | some drive => exact Safe.seq (.modify fun _ hb => hb) (.pure true)

theorem dirPopulate_safe : InBounds f (dirPopulate w) := by
  refine Safe.seq (.modify fun _ hb => hb) (Safe.get fun b _ => ?_)
  split
  · refine ask_safe.bind fun files => ?_
    cases files with
    | error what => exact .pure ()
    | ok files => exact .modify fun _ hb => hb
  · exact resolvePath_safe.bind fun _ => .ite (fun _ => .pure ()) fun _ =>
      ask_safe.bind fun _ => .modify fun _ hb => hb

theorem setFile_safe {handle : Fin 4} {file : Option FilePtr} : InBounds f (setFile (ω := ω) handle file) :=
  .modify fun _ hb => hb

theorem closeFile_safe {handle : Fin 4} : InBounds f (closeFile w handle) := by
  refine Safe.get fun b _ => ?_
  cases b.openFiles handle with
  | none => exact .pure ()
  | some file => exact act_safe.seq setFile_safe

/-- The handle is read, and then the file is there. -/
theorem withFile_safe {needed : Nat} {k : FilePtr → Handler ω Unit} (hneeded : 4 ≤ needed)
    (hk : needed ≤ f.length → ∀ file, InBounds f (k file)) : InBounds f (withFile needed k) := by
  refine size_safe <| .ite (fun _ => respondError_safe) fun hlong => ?_
  refine (frame_safe (by omega)).bind fun handle => Safe.get fun b _ => ?_
  cases fileOf b handle.toNat with
  | none => exact refuse_safe
  | some file => exact hk (by omega) file

theorem fread_returns {file : FilePtr} {count : Nat} :
    Returns (Holds f) (fun data => data.length ≤ count) (fread w file count) :=
  call_safe.bind_returns fun data => .pure (List.length_take_le count data)

theorem firstOpened_safe {attempts : List (Handler ω (Option FilePtr))} (h : ∀ m ∈ attempts, InBounds f m) :
    InBounds f (firstOpened attempts) := by
  induction attempts with
  | nil => exact .pure none
  | cons m attempts ih =>
    refine (h m List.mem_cons_self).bind fun file => ?_
    cases file with
    | none => exact ih fun m' hm' => h m' (List.mem_cons_of_mem _ hm')
    | some file => exact .pure (some file)

theorem tryOpenCpc_safe {dirPath name : Bytes} : InBounds f (tryOpenCpc w dirPath name) := by
  refine ask_safe.bind fun entries => firstOpened_safe fun m hm => ?_
  obtain ⟨entryName, _, rfl⟩ := List.mem_map.mp hm
  refine firstOpened_safe fun m' hm' => ?_
  rcases List.mem_pair.mp hm' with rfl | rfl <;> exact call_safe

theorem containerRead_safe {drive : DrivePtr} {name : Bytes} : InBounds f (containerRead w drive name) := by
  refine ask_safe.bind fun data => ?_
  cases data with
  | ok data => exact .pure _
  | error what =>
    refine ask_safe.bind fun files => ?_
    cases files with
    | error what => exact .pure none
    | ok files => exact ask_safe.bind fun reads => .pure _

theorem containerOpenFile_safe {name : Bytes} : InBounds f (containerOpenFile w name) := by
  refine Safe.get fun b _ => ?_
  cases b.containerDrive with
  | none => exact .pure none
  | some drive =>
    refine containerRead_safe.bind fun data => ?_
    cases data with
    | none => exact .pure none
    | some data =>
      refine call_safe.bind fun file => ?_
      cases file with
      | none => exact .pure none
      | some file => exact call_safe.bind fun _ => call_safe.bind fun _ => .pure (some file)

theorem openFor_safe {handle : Fin 4} {error : UInt8} {opened : Handler ω (Option FilePtr)}
    (h : InBounds f opened) : InBounds f (openFor handle error opened) := by
  refine h.bind fun file => ?_
  cases file with
  | none => exact setFile_safe.seq respondErrorCode_safe
  | some file => exact setFile_safe.seq (reply_safe (show 5 ≤ responseSize by decide))

/-! ## The commands -/

theorem cmdCd_safe : InBounds f (cmdCd w) := by
  refine extractString_safe.bind fun path => inContainer_safe.bind fun inside => .ite (fun _ => ?_) fun _ =>
    .ite (fun _ => containerExit_safe.seq respondOk_safe) fun _ => .ite (fun _ => refuse_safe) fun _ =>
      withPath_safe fun resolved => Safe.get fun b _ => ?_
  · exact (when_safe fun _ => containerExit_safe).seq <| Safe.seq (.modify fun _ hb => hb) respondOk_safe
  · refine ask_safe.bind fun r => attempt_safe fun isDirectory => .ite (fun _ => ?_) fun _ => ?_
    · exact ask_safe.bind fun root => attempt_safe fun _ => Safe.seq (.modify fun _ hb => hb) respondOk_safe
    · refine .ite (fun _ => ?_) fun _ => refuse_safe
      exact containerEnterDsk_safe.bind fun _ => .ite (fun _ => respondOk_safe) fun _ => refuse_safe

theorem length_padded {width : Nat} {s : Bytes} : (padded width s).length = width := by
  simp [padded]

theorem length_formatAmsdos83 {name : Bytes} {isDir : Bool} : (formatAmsdos83 name isDir).length = 12 := by
  unfold formatAmsdos83
  simp only [List.length_append, length_padded]
  rfl

theorem length_entryBytes {lsMode : Bool} {entry : DirEntry} :
    3 + (entryBytes lsMode entry).length ≤ responseSize := by
  have hsize : 23 ≤ responseSize := by decide
  have hmark : (if entry.isDir then ascii ">" else []).length ≤ 1 := by split <;> decide
  unfold entryBytes
  cases lsMode with
  | true =>
    have := List.length_take_le (responseSize - (3 + (if entry.isDir then ascii ">" else []).length) - 1) entry.name
    simp only [↓reduceIte, List.length_append, List.length_singleton]
    omega
  | false =>
    have := List.length_take_le 5 (sizebuf entry)
    simp only [Bool.false_eq_true, ↓reduceIte, List.length_append, length_formatAmsdos83, List.length_cons,
      List.length_nil]
    omega

theorem cmdReaddir_safe : InBounds f (cmdReaddir w) := by
  refine Safe.get fun before _ => (when_safe fun _ => dirPopulate_safe).seq <| Safe.get fun b _ => ?_
  cases b.dirEntries[b.dirIndex]? with
  | none => exact answer_safe (by decide)
  | some entry => exact Safe.seq (.modify fun _ hb => hb) (size_safe (answer_safe length_entryBytes))

theorem cmdGetpath_safe : InBounds f (cmdGetpath : Handler ω Unit) := by
  refine Safe.get fun b _ => reply_safe ?_
  have := List.length_take_le (responseSize - 4) b.currentDir
  have hsize : 4 ≤ responseSize := by decide
  rw [List.length_append, List.length_singleton]
  omega

theorem cmdDirsetargs_safe : InBounds f (cmdDirsetargs w) := dirPopulate_safe.seq respondOk_safe

theorem reply_snprintf_safe {bufSize : Nat} {text : Bytes} (h : bufSize ≤ 64) :
    InBounds f (reply (snprintf bufSize text ++ [0]) : Handler ω Unit) := by
  refine reply_safe ?_
  have := List.length_take_le (bufSize - 1) text
  have hsize : 80 ≤ responseSize := by decide
  rw [List.length_append, List.length_singleton, snprintf]
  omega

theorem freeKb_safe : InBounds f (freeKb w) := by
  refine resolvePath_safe.bind fun resolved => .ite (fun _ => .pure 0) fun _ => ask_safe.bind fun r => ?_
  cases r <;> exact .pure _

theorem cmdFree_safe : InBounds f (cmdFree w) :=
  freeKb_safe.bind fun _ => reply_snprintf_safe (show 32 ≤ 64 by decide)

theorem openMode_safe : InBounds f (openMode : Handler ω UInt8) :=
  size_safe <| .ite (fun h => frame_safe h) fun _ => .pure _

theorem openName_safe : InBounds f (openName : Handler ω Bytes) :=
  extractString_safe.bind fun _ => .ite (fun _ => extractString_safe) fun _ => .pure _

theorem handleFor_safe {mode : UInt8} : InBounds f (handleFor w mode) := by
  refine .ite (fun _ => closeFile_safe.seq (.pure _)) fun _ => .ite (fun _ => closeFile_safe.seq (.pure _)) fun _ => ?_
  exact Safe.get fun b _ => .pure _

theorem cmdOpen_safe : InBounds f (cmdOpen w) := by
  refine openMode_safe.bind fun mode => openName_safe.bind fun rawName => inContainer_safe.bind fun _ =>
    .ite (fun _ => .ite (fun _ => respondErrorCode_safe) fun _ => ?_) fun _ => ?_
  · exact closeFile_safe.seq (openFor_safe containerOpenFile_safe)
  refine Safe.get fun b _ => resolvePath_safe.bind fun dir => .ite (fun _ => respondErrorCode_safe) fun _ => ?_
  refine handleFor_safe.bind fun handle => ?_
  cases handle with
  | none => exact respondErrorCode_safe
  | some handle =>
    refine resolvePath_safe.bind fun resolved => .ite (fun _ => .ite (fun _ => respondErrorCode_safe) fun _ => ?_)
      fun _ => openFor_safe (firstOpened_safe fun m hm => ?_)
    · exact openFor_safe call_safe
    · rcases List.mem_append.mp hm with hm | hm
      · split at hm
        · exact absurd hm List.not_mem_nil
        · rw [List.mem_singleton.mp hm]
          exact call_safe
      · rw [List.mem_singleton.mp hm]
        exact tryOpenCpc_safe

theorem closeHandle_safe {handle : Nat} : InBounds f (closeHandle w handle) := by
  unfold closeHandle
  split
  · exact closeFile_safe
  · exact .pure ()

theorem cmdClose_safe : InBounds f (cmdClose w) :=
  size_safe <| .ite (fun _ => respondError_safe) fun _ => (frame_safe (by omega)).bind fun _ =>
    closeHandle_safe.seq respondOk_safe

theorem cmdRead_safe : InBounds f (cmdRead w) := by
  refine withFile_safe (by decide) fun hlong file => ?_
  refine (frame_safe (by omega)).bind fun lo => (frame_safe (by omega)).bind fun hi => fread_returns.bind fun data hdata => ?_
  have hsize : 4 ≤ responseSize := by decide
  refine reply_safe ?_
  rw [List.length_cons]
  omega

theorem cmdRead2_safe : InBounds f (cmdRead2 w) := by
  refine withFile_safe (by decide) fun hlong file => ?_
  refine (frame_safe (by omega)).bind fun lo => (frame_safe (by omega)).bind fun hi => fread_returns.bind fun data hdata => ?_
  have hsize : 8 ≤ responseSize := by decide
  refine ask_safe.bind fun atEof => reply_safe ?_
  rw [List.length_append, List.length_cons, List.length_cons, List.length_cons, List.length_cons, List.length_cons,
    List.length_nil]
  omega

theorem reply_sector_safe {status : UInt8} {data : Bytes} (h : data.length = 512) :
    InBounds f (reply (status :: data) : Handler ω Unit) := by
  refine reply_safe ?_
  rw [List.length_cons, h]
  decide

theorem cmdReadsector_safe : InBounds f (cmdReadsector w) := by
  refine size_safe <| .ite (fun _ => respondError_safe) fun hlong => ?_
  refine (frame_safe (by omega)).bind fun track => (frame_safe (by omega)).bind fun sector => Safe.get fun b _ => ?_
  split
  · refine ask_safe.bind fun tracks => .ite (fun _ => reply_sector_safe List.length_replicate) fun _ => ?_
    refine ask_safe.bind fun data => ?_
    cases data with
    | none => exact reply_sector_safe List.length_replicate
    | some data => exact reply_sector_safe List.length_ofFn
  · cases b.openFiles 1 with
    | none => exact reply_sector_safe List.length_replicate
    | some file =>
      refine call_safe.bind fun _ => fread_returns.bind fun data hdata => reply_sector_safe ?_
      rw [List.length_append, List.length_replicate]
      omega

theorem cmdWritesector_safe : InBounds f (cmdWritesector w) := by
  refine readOnly_safe <| size_safe <| .ite (fun _ => respondError_safe) fun hlong => ?_
  refine (frame_safe (by omega)).bind fun track => (frame_safe (by omega)).bind fun sector => Safe.get fun b _ => ?_
  cases b.openFiles 2 with
  | none => exact refuse_safe
  | some file =>
    refine call_safe.bind fun _ => (frameBytes_returns (by omega)).bind fun data _ => call_safe.bind fun written => ?_
    exact .ite (fun _ => respondOk_safe) fun _ => refuse_safe

theorem cmdFormattrack_safe : InBounds f (cmdFormattrack : Handler ω Unit) := refuse_safe

theorem reply_byte_safe {status : UInt8} : InBounds f (reply [status] : Handler ω Unit) :=
  reply_safe (show 4 ≤ responseSize by decide)

theorem cmdSdread_safe : InBounds f (cmdSdread : Handler ω Unit) := by
  refine size_safe <| .ite (fun _ => respondError_safe) fun hlong => ?_
  refine (frame_safe (by omega)).bind fun _ => (frame_safe (by omega)).bind fun _ => ?_
  refine (frame_safe (by omega)).bind fun _ => (frame_safe (by omega)).bind fun _ => ?_
  exact (frame_safe (by omega)).bind fun _ => reply_byte_safe

theorem cmdSdwrite_safe : InBounds f (cmdSdwrite : Handler ω Unit) := reply_byte_safe

theorem cmdWrite_safe : InBounds f (cmdWrite w) := by
  refine readOnly_safe <| withFile_safe (by decide) fun hlong file => size_safe ?_
  refine (frameBytes_returns (by omega)).bind fun data _ => call_safe.bind fun written => ?_
  exact .ite (fun _ => respondOk_safe) fun _ => refuse_safe

theorem cmdWrite2_safe : InBounds f (cmdWrite2 w) := readOnly_safe cmdWrite_safe

theorem cmdSeek_safe : InBounds f (cmdSeek w) := by
  refine withFile_safe (by decide) fun hlong file => ?_
  refine (frame_safe (by omega)).bind fun _ => (frame_safe (by omega)).bind fun _ => ?_
  refine (frame_safe (by omega)).bind fun _ => (frame_safe (by omega)).bind fun _ => ?_
  exact call_safe.bind fun _ => .ite (fun _ => respondOk_safe) fun _ => refuse_safe

theorem cmdEof_safe : InBounds f (cmdEof w) :=
  withFile_safe (by decide) fun _ _ => ask_safe.bind fun _ => reply_byte_safe

theorem reply_le32_safe {n : Nat} : InBounds f (reply (Bytes.le32 n) : Handler ω Unit) :=
  reply_safe (show 7 ≤ responseSize by decide)

theorem cmdFtell_safe : InBounds f (cmdFtell w) :=
  withFile_safe (by decide) fun _ _ => ask_safe.bind fun _ => .ite (fun _ => refuse_safe) fun _ => reply_le32_safe

theorem cmdFstat_safe : InBounds f (cmdFstat : Handler ω Unit) :=
  withFile_safe (by decide) fun _ _ => reply_byte_safe

theorem cmdFsize_safe : InBounds f (cmdFsize w) := by
  refine extractString_safe.bind fun path => Safe.get fun b _ => ?_
  split
  · refine ask_safe.bind fun files => ?_
    cases findFile path (files.toOption.getD []) with
    | none => exact refuse_safe
    | some file => exact reply_le32_safe
  · exact withPath_safe fun resolved => ask_safe.bind fun r => attempt_safe fun fsize => reply_le32_safe

theorem cmdErasefile_safe : InBounds f (cmdErasefile w) :=
  readOnly_safe <| extractString_safe.bind fun _ => withPath_safe fun _ => call_safe.bind fun _ =>
    attempt_safe fun _ => .ite (fun _ => respondOk_safe) fun _ => refuse_safe

theorem cmdMakedir_safe : InBounds f (cmdMakedir w) :=
  readOnly_safe <| extractString_safe.bind fun _ => withPath_safe fun _ => call_safe.bind fun _ =>
    attempt_safe fun _ => respondOk_safe

theorem cmdRename_safe : InBounds f (cmdRename w) := by
  refine readOnly_safe <| extractString_safe.bind fun newname => size_safe <| .ite (fun _ => refuse_safe) fun _ => ?_
  refine extractString_safe.bind fun oldname => resolvePath_safe.bind fun _ => resolvePath_safe.bind fun _ => ?_
  exact .ite (fun _ => refuse_safe) fun _ => call_safe.bind fun _ => attempt_safe fun _ => respondOk_safe

theorem extractMore_safe {offset : Nat} : InBounds f (extractMore offset : Handler ω Bytes) :=
  size_safe <| .ite (fun _ => extractString_safe) fun _ => .pure []

theorem cmdCopyfile_safe : InBounds f (cmdCopyfile w) := by
  refine Safe.get fun b _ => .ite (fun _ => refuse_safe) fun _ => extractString_safe.bind fun src => ?_
  refine extractMore_safe.bind fun dst => ?_
  refine .ite (fun _ => refuse_safe) fun _ => ask_safe.bind fun root => ?_
  cases root with
  | error what => exact .pure ()
  | ok root =>
    refine ask_safe.bind fun _ => attempt_safe fun srcFull => ask_safe.bind fun _ => attempt_safe fun dstFull => ?_
    refine .ite (fun _ => refuse_safe) fun _ => ask_safe.bind fun _ => attempt_safe fun there => ?_
    refine .ite (fun _ => ?_) fun _ => refuse_safe
    exact call_safe.bind fun _ => attempt_safe fun _ => respondOk_safe

end

end Koncepcja.M4
