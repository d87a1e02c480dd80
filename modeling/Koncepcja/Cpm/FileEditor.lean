import Koncepcja.Slots.DiskDrive
import Mathlib.Data.List.Sort

/-!
# CP/M Files on a Drive

`src/disk_file_editor.cpp`: listing, reading, writing and deleting the files of an AMSDOS data disc.
The directory is the first two 1K blocks, as 64 entries of 32 bytes; a file is the entries that
share its user number and its name, each with up to sixteen block numbers.

A name is the bytes of its string. `altered`, which nothing here reads, is left out.
-/

namespace Koncepcja.Cpm

open Koncepcja.Bytes Koncepcja.Disk Koncepcja.Slots

/-! ## Constants -/

/-- `CPM_BLOCK_SIZE`. -/
def blockSize : Nat := 1024
def cpmSectorSize : Nat := 512
/-- `CPM_SECTORS_PER_TRACK`. -/
def sectorsPerTrack : Nat := 9
def cpmDirEntries : Nat := 64
/-- `CPM_DIR_ENTRY_SIZE`. -/
def dirEntrySize : Nat := 32
/-- `CPM_RECORDS_PER_EXTENT`. -/
def recordsPerExtent : Nat := 128
/-- `CPM_RECORD_SIZE`. -/
def recordSize : Nat := 128
/-- `CPM_TOTAL_BLOCKS`. -/
def totalBlocks : Nat := 180
/-- `CPM_EXTENT_SIZE`. -/
def extentSize : Nat := 16384
def blocksPerExtent : Nat := 16
/-- `CPM_DELETED_ENTRY`. -/
def deletedEntry : UInt8 := 0xE5

/-! ## Sectors and blocks -/

/-- `find_sector_data`: which entry of the track table, and where in its data the sector starts. -/
def findSectorData (drive : Slots.Drive) (track side : Nat) (sectorId : UInt8) : Option (Nat × Nat) :=
  if drive.tracks ≤ track then none
  else if drive.sides < side then none
  else
    let i := track * (drive.sides + 1) + side
    ((drive.track.getD i {}).sector.find? fun s => s.chrn.r == sectorId).map fun s => (i, s.off)

/-- The sector ID of an absolute sector number: `0xC1` to `0xC9`. -/
def sectorId (absSector : Nat) : UInt8 := 0xC1 + UInt8.ofNat (absSector % sectorsPerTrack)

/-- One half of `read_block`. -/
def readHalf (drive : Slots.Drive) (absSector : Nat) : Option (List UInt8) :=
  (findSectorData drive (absSector / sectorsPerTrack) 0 (sectorId absSector)).map fun (i, off) =>
    slice (drive.track.getD i {}).data off cpmSectorSize

def readBlock (drive : Slots.Drive) (block : Nat) : Option (List UInt8) :=
  if totalBlocks ≤ block then none
  else
    match readHalf drive (block * 2) with
    | none => none
    | some first =>
      match readHalf drive (block * 2 + 1) with
      | none => none
      | some second => some (first ++ second)

/-- A drive with `bytes` copied into entry `i` of its track table, from `off` on. -/
def patchTrack (drive : Slots.Drive) (i off : Nat) (bytes : List UInt8) : Slots.Drive :=
  { drive with track := drive.track.modify i fun trk => { trk with data := overwrite trk.data off bytes } }

/-- One half of `write_block`. -/
def writeHalf (drive : Slots.Drive) (absSector : Nat) (bytes : List UInt8) : Option Slots.Drive :=
  (findSectorData drive (absSector / sectorsPerTrack) 0 (sectorId absSector)).map fun (i, off) =>
    patchTrack drive i off bytes

/-- `write_block`: the drive afterwards, and whether both halves were written. -/
def writeBlock (drive : Slots.Drive) (block : Nat) (bytes : List UInt8) : Slots.Drive × Bool :=
  if totalBlocks ≤ block then (drive, false)
  else
    match writeHalf drive (block * 2) (slice bytes 0 cpmSectorSize) with
    | none => (drive, false)
    | some drive =>
      match writeHalf drive (block * 2 + 1) (slice bytes cpmSectorSize cpmSectorSize) with
      | none => (drive, false)
      | some drive => (drive, true)

/-! ## The directory -/

/-- The directory as its 32-byte entries. -/
abbrev Dir := List (List UInt8)

/-- The first entries of a stretch of the directory. -/
def takeEntries : Nat → List UInt8 → Dir
  | 0, _ => []
  | n + 1, bytes => bytes.take dirEntrySize :: takeEntries n (bytes.drop dirEntrySize)

/-- The entries of two directory blocks. -/
def dirEntries (bytes : List UInt8) : Dir := takeEntries cpmDirEntries bytes

def readDirectory (drive : Slots.Drive) : Option Dir :=
  match readBlock drive 0 with
  | none => none
  | some first =>
    match readBlock drive 1 with
    | none => none
    | some second => some (dirEntries (first ++ second))

def writeDirectory (drive : Slots.Drive) (dir : Dir) : Slots.Drive × Bool :=
  match writeBlock drive 0 (slice dir.flatten 0 blockSize) with
  | (drive, false) => (drive, false)
  | (drive, true) => writeBlock drive 1 (slice dir.flatten blockSize blockSize)

/-- The user number. -/
def userOf (entry : List UInt8) : UInt8 := byteAt entry 0
/-- The name and the extension, attribute bits stripped. -/
def nameOf (entry : List UInt8) : List UInt8 := (slice entry 1 11).map (· &&& 0x7F)
/-- EX and S2, as one extent number. -/
def extentNum (entry : List UInt8) : Nat := (byteAt entry 12).toNat + (byteAt entry 14).toNat * 32
def recordCount (entry : List UInt8) : UInt8 := byteAt entry 15
/-- The block numbers in use; zero is none. -/
def blocksOf (entry : List UInt8) : List UInt8 := (slice entry 16 16).filter (· ≠ 0)

/-- A free directory slot. -/
def isDeleted (entry : List UInt8) : Bool := userOf entry == deletedEntry
/-- A file's entry: in use, and under a user number that is not reserved. -/
def isLive (entry : List UInt8) : Bool := !isDeleted entry && userOf entry ≤ 15

def sameFile (a b : List UInt8) : Bool := userOf a == userOf b && nameOf a == nameOf b

/-- The entries of a file in extent order, as `compute_file_size` and `get_file_blocks` collect them.
    Where two have one number, which `std::sort` leaves open, they stay in directory order. -/
def fileExtents (dir : Dir) (first : List UInt8) : List (List UInt8) :=
  (dir.filter fun e => !isDeleted e && sameFile e first).insertionSort fun a b => extentNum a ≤ extentNum b

def computeFileSize (dir : Dir) (first : List UInt8) : Nat :=
  match (fileExtents dir first).getLast? with
  | none => 0
  | some last => ((fileExtents dir first).length - 1) * extentSize + (recordCount last).toNat * recordSize

def getFileBlocks (dir : Dir) (first : List UInt8) : List UInt8 := (fileExtents dir first).flatMap blocksOf

/-! ## Names -/

/-- `std::toupper`. -/
def toUpper (c : UInt8) : UInt8 := if 0x61 ≤ c ∧ c ≤ 0x7A then c - 0x20 else c

/-- A name part, padded with spaces. -/
def padName (size : Nat) (part : List UInt8) : List UInt8 := part ++ List.replicate (size - part.length) 0x20

/-- `parse_cpm_name`: eight and three bytes, split at the first dot. -/
def parseCpmName (display : List UInt8) : Option (List UInt8) :=
  let upper := display.map toUpper
  let namePart := upper.takeWhile (· ≠ 0x2E)
  let extPart := (upper.dropWhile (· ≠ 0x2E)).drop 1
  if 8 < namePart.length ∨ 3 < extPart.length then none else some (padName 8 namePart ++ padName 3 extPart)

/-- Trailing spaces cut off. -/
def trimSpaces (part : List UInt8) : List UInt8 := (part.reverse.dropWhile (· = 0x20)).reverse

/-- `format_cpm_name`, of the eleven bytes of a name. -/
def formatCpmName (name : List UInt8) : List UInt8 :=
  let ext := trimSpaces (name.drop 8)
  trimSpaces (name.take 8) ++ if ext = [] then [] else 0x2E :: ext

/-! ## Errors -/

/-- What the operations report. -/
inductive FileError where
  | noDisc
  | invalidFilename
  | readDirectory
  | fileExists (name : List UInt8)
  | discFull (need free : Nat)
  | directoryFull
  | writeBlock (block : UInt8)
  | writeDirectory
  | notFound (name : List UInt8)
  | readBlock (block : UInt8)
  deriving DecidableEq, Repr

/-- An ASCII text as bytes. -/
def ascii (text : String) : List UInt8 := text.toList.map fun c => UInt8.ofNat c.toNat

def FileError.text : FileError → List UInt8
  | .noDisc => ascii "no disc in drive"
  | .invalidFilename => ascii "invalid filename"
  | .readDirectory => ascii "failed to read directory"
  | .fileExists name => ascii "file already exists: " ++ name
  | .discFull need free => ascii ("disc full (need " ++ toString need ++ " blocks, have " ++ toString free ++ " free)")
  | .directoryFull => ascii "directory full"
  | .writeBlock block => ascii ("failed to write block " ++ toString block)
  | .writeDirectory => ascii "failed to write directory"
  | .notFound name => ascii "file not found: " ++ name
  | .readBlock block => ascii ("failed to read block " ++ toString block)

/-! ## Listing -/

structure DiskFileEntry where
  filename : List UInt8
  displayName : List UInt8
  sizeBytes : Nat
  readOnly : Bool
  system : Bool
  user : UInt8
  deriving DecidableEq, Repr

/-- The listing of a file, from its lowest entry. -/
def listEntry (dir : Dir) (entry : List UInt8) : DiskFileEntry where
  filename := (nameOf entry).take 8 ++ 0x2E :: (nameOf entry).drop 8
  displayName := formatCpmName (nameOf entry)
  sizeBytes := computeFileSize dir entry
  readOnly := byteAt entry 9 &&& 0x80 != 0
  system := byteAt entry 10 &&& 0x80 != 0
  user := userOf entry

/-- Whether the file has an entry below this one. The source passes over the entry itself, which is
    not below itself. -/
def hasLower (dir : Dir) (entry : List UInt8) : Bool :=
  dir.any fun other => !isDeleted other && sameFile entry other && extentNum other < extentNum entry

/-- What a listed file is remembered by: its user number and its display name. -/
def listKey (entry : List UInt8) : UInt8 × List UInt8 := (userOf entry, formatCpmName (nameOf entry))

instance listKey_lawful : LawfulBEq (UInt8 × List UInt8) := inferInstance

/-- `disk_list_files`' loop over the directory. -/
def listFrom (dir : Dir) : List (UInt8 × List UInt8) → List (List UInt8) → List DiskFileEntry
  | _, [] => []
  | seen, entry :: rest =>
    if !isLive entry then listFrom dir seen rest
    else if listKey entry ∈ seen then listFrom dir seen rest
    else if hasLower dir entry then listFrom dir seen rest
    else listEntry dir entry :: listFrom dir (listKey entry :: seen) rest

def diskListFiles (drive : Slots.Drive) : Except FileError (List DiskFileEntry) :=
  if drive.tracks = 0 then .error .noDisc
  else
    match readDirectory drive with
    | none => .error .readDirectory
    | some dir => .ok (listFrom dir [] dir)

/-! ## Reading -/

/-- A file's entry under a name: in use, not reserved, and the name's bytes match. -/
def isNamed (name : List UInt8) (entry : List UInt8) : Bool := isLive entry && nameOf entry == name

/-- `disk_read_file`'s loop over the blocks. -/
def readBlocks (drive : Slots.Drive) (fileSize : Nat) : List UInt8 → Nat → Except FileError (List UInt8)
  | [], _ => .ok []
  | block :: blocks, bytesRead =>
    match readBlock drive block.toNat with
    | none => .error (.readBlock block)
    | some buf =>
      let toCopy := if fileSize < bytesRead + blockSize then fileSize - bytesRead else blockSize
      if fileSize ≤ bytesRead + toCopy then .ok (buf.take toCopy)
      else
        match readBlocks drive fileSize blocks (bytesRead + toCopy) with
        | .error err => .error err
        | .ok rest => .ok (buf.take toCopy ++ rest)

def diskReadFile (drive : Slots.Drive) (filename : List UInt8) : Except FileError (List UInt8) :=
  if drive.tracks = 0 then .error .noDisc
  else
    match readDirectory drive with
    | none => .error .readDirectory
    | some dir =>
      match parseCpmName filename with
      | none => .error .invalidFilename
      | some name =>
        match dir.find? (isNamed name) with
        | none => .error (.notFound filename)
        | some found => readBlocks drive (computeFileSize dir found) (getFileBlocks dir found) 0

/-! ## AMSDOS headers -/

/-- `AmsdosFileType`, an enumeration over a byte that may hold any. -/
structure AmsdosFileType where
  byte : UInt8
  deriving DecidableEq, Repr

/-- `AmsdosFileType::BINARY`. -/
def AmsdosFileType.binary : AmsdosFileType := ⟨2⟩
/-- `AmsdosFileType::UNKNOWN`. -/
def AmsdosFileType.unknown : AmsdosFileType := ⟨0xFF⟩

structure AmsdosHeaderInfo where
  valid : Bool := false
  type : AmsdosFileType := .unknown
  loadAddr : UInt16 := 0
  execAddr : UInt16 := 0
  fileLength : Nat := 0
  deriving DecidableEq, Repr

/-- The sum of a header's first 67 bytes, in 16 bits. -/
def headerChecksum (header : List UInt8) : Nat := ((header.take 67).map UInt8.toNat).sum % 65536

/-- `disk_parse_amsdos_header`. -/
def parseAmsdosHeader (data : List UInt8) : AmsdosHeaderInfo :=
  if data.length < 128 then {}
  else if headerChecksum data ≠ rd16le data 67 then {}
  else
    { valid := true
      type := ⟨byteAt data 18⟩
      loadAddr := UInt16.ofNat (rd16le data 21)
      execAddr := UInt16.ofNat (rd16le data 26)
      fileLength := rd16le data 64 + 65536 * (byteAt data 66).toNat }

/-- The bytes of a header before its checksum. -/
def headerFields (name : List UInt8) (type : AmsdosFileType) (loadAddr execAddr : UInt16) (dataLength : Nat) :
    List UInt8 :=
  0 :: name ++ List.replicate 6 0 ++ [type.byte, 0, 0, UInt8.ofNat loadAddr.toNat, UInt8.ofNat (loadAddr.toNat / 256),
    0, UInt8.ofNat dataLength, UInt8.ofNat (dataLength / 256), UInt8.ofNat execAddr.toNat,
    UInt8.ofNat (execAddr.toNat / 256)] ++ List.replicate 36 0 ++
    [UInt8.ofNat dataLength, UInt8.ofNat (dataLength / 256), UInt8.ofNat (dataLength / 65536)]

/-- `disk_make_amsdos_header`. -/
def makeAmsdosHeader (filename : List UInt8) (type : AmsdosFileType) (loadAddr execAddr : UInt16) (dataLength : Nat) :
    List UInt8 :=
  let name := (parseCpmName filename).getD (List.replicate 11 0x20)
  let fields := headerFields name type loadAddr execAddr dataLength
  fields ++ [UInt8.ofNat (headerChecksum fields), UInt8.ofNat (headerChecksum fields / 256)] ++ List.replicate 59 0

/-! ## Writing -/

def findFreeBlocks (dir : Dir) : List UInt8 :=
  ((List.range' 2 (totalBlocks - 2)).map UInt8.ofNat).filter fun b => b ∉ (dir.filter isLive).flatMap blocksOf

/-- `full_data`: the header when one is asked for, then the data. -/
def fullData (filename data : List UInt8) (addHeader : Bool) (loadAddr execAddr : UInt16) (type : AmsdosFileType) :
    List UInt8 :=
  (if addHeader then makeAmsdosHeader filename type loadAddr execAddr (data.length % 2 ^ 32) else []) ++ data

/-- The loop that writes the data blocks: the drive afterwards, and the block that failed. -/
def writeData (full : List UInt8) (totalBytes : Nat) : List UInt8 → Nat → Slots.Drive → Slots.Drive × Option UInt8
  | [], _, drive => (drive, none)
  | block :: blocks, offset, drive =>
    let toCopy := if totalBytes < offset + blockSize then totalBytes - offset else blockSize
    match writeBlock drive block.toNat (slice full offset toCopy ++ List.replicate (blockSize - toCopy) 0xE5) with
    | (drive, false) => (drive, some block)
    | (drive, true) => writeData full totalBytes blocks (offset + toCopy) drive

/-- The inner loop over an extent's blocks: what they hold of the remaining bytes, and what is left. -/
def extentBytes : Nat → Nat → Nat × Nat
  | 0, remaining => (0, remaining)
  | n + 1, remaining =>
    let blockBytes := min blockSize remaining
    let (bytes, left) := extentBytes n (remaining - blockBytes)
    (blockBytes + bytes, left)

/-- A new directory entry. -/
def extentEntry (name : List UInt8) (ext bytes : Nat) (blocks : List UInt8) : List UInt8 :=
  0 :: name ++ [UInt8.ofNat (ext % 32), 0, UInt8.ofNat (ext / 32 % 64),
    UInt8.ofNat (min ((bytes + recordSize - 1) / recordSize) recordsPerExtent)] ++ blocks ++
    List.replicate (16 - blocks.length) 0

/-- The loop that makes the directory entries, one an extent, each in the first free slot. -/
def addExtents (name : List UInt8) : Nat → Nat → Nat → List UInt8 → Dir → Option Dir
  | 0, _, _, _, dir => some dir
  | count + 1, ext, remaining, blocks, dir =>
    match dir.findIdx? isDeleted with
    | none => none
    | some slot =>
      let mine := blocks.take blocksPerExtent
      let (bytes, left) := extentBytes mine.length remaining
      addExtents name count (ext + 1) left (blocks.drop blocksPerExtent)
        (dir.set slot (extentEntry name ext bytes mine))

/-- `blocks_needed`, in 32 bits. -/
def blocksNeeded (totalBytes : Nat) : Nat := (totalBytes + blockSize - 1) % 2 ^ 32 / blockSize

def extentsNeeded (blocks : Nat) : Nat := (blocks + blocksPerExtent - 1) / blocksPerExtent

/-- `disk_write_file`: the drive afterwards, and the error. -/
def diskWriteFile (drive : Slots.Drive) (filename data : List UInt8) (addHeader : Bool) (loadAddr execAddr : UInt16)
    (type : AmsdosFileType) : Slots.Drive × Option FileError :=
  if drive.tracks = 0 then (drive, some .noDisc)
  else
    match parseCpmName filename with
    | none => (drive, some .invalidFilename)
    | some name =>
      let full := fullData filename data addHeader loadAddr execAddr type
      match readDirectory drive with
      | none => (drive, some .readDirectory)
      | some dir =>
        if dir.any (isNamed name) then (drive, some (.fileExists filename))
        else
          let freeBlocks := findFreeBlocks dir
          let totalBytes := full.length % 2 ^ 32
          let needed := blocksNeeded totalBytes
          if freeBlocks.length < needed then (drive, some (.discFull needed freeBlocks.length))
          else if dir.countP isDeleted < extentsNeeded needed then (drive, some .directoryFull)
          else
            match writeData full totalBytes (freeBlocks.take needed) 0 drive with
            | (drive, some block) => (drive, some (.writeBlock block))
            | (drive, none) =>
              match addExtents name (extentsNeeded needed) 0 totalBytes (freeBlocks.take needed) dir with
              | none => (drive, some .directoryFull)
              | some dir =>
                match writeDirectory drive dir with
                | (drive, false) => (drive, some .writeDirectory)
                | (drive, true) => (drive, none)

/-! ## Deleting -/

/-- `disk_delete_file`: the drive afterwards, and the error. -/
def diskDeleteFile (drive : Slots.Drive) (filename : List UInt8) : Slots.Drive × Option FileError :=
  if drive.tracks = 0 then (drive, some .noDisc)
  else
    match parseCpmName filename with
    | none => (drive, some .invalidFilename)
    | some name =>
      match readDirectory drive with
      | none => (drive, some .readDirectory)
      | some dir =>
        if !dir.any (isNamed name) then (drive, some (.notFound filename))
        else
          match writeDirectory drive (dir.map fun e => if isNamed name e then e.set 0 deletedEntry else e) with
          | (drive, false) => (drive, some .writeDirectory)
          | (drive, true) => (drive, none)

end Koncepcja.Cpm
