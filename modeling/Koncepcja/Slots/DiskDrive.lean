import Koncepcja.Disk.DskImage

/-!
# Drives and their DSK Images

The disc half of `src/slotshandler.cpp`: `dsk_parse` builds a drive from a standard or an extended
image, `dsk_format` builds an empty one from a format description, and `dsk_to_bytes` writes a drive
back as an extended image.

The data of a sector is a window of its track's buffer; the version a weak sector's next read
returns is the reader's and left out. An image without sides, or a format of none, makes the source
run past its tables and is refused here.
-/

namespace Koncepcja.Slots

open Koncepcja.Bytes Koncepcja.Disk

/-! ## Drives -/

/-- `DSK_TRACKMAX`: what fits in a DSK header. -/
def dskTrackMax : Nat := 102
def dskSideMax : Nat := 2
/-- `DSK_SECTORMAX`: what fits in a track header. -/
def dskSectorMax : Nat := 29

/-- `t_sector`: the ID, ST1 and ST2, one version's size, all versions' size, and where its data
    starts in the track's. -/
structure Sector where
  chrn : Chrn
  st1 : UInt8 := 0
  st2 : UInt8 := 0
  size : Nat
  totalSize : Nat
  off : Nat
  deriving DecidableEq, Repr

/-- `t_track`. -/
structure Track where
  size : Nat := 0
  data : List UInt8 := []
  sector : List Sector := []
  deriving DecidableEq, Repr

/-- `t_drive`: `sides` is zero-based, and track `t` of side `s` is entry `t * (sides + 1) + s`. -/
structure Drive where
  tracks : Nat
  sides : Nat
  randomDEs : UInt8
  track : List Track
  deriving DecidableEq, Repr

/-- `setSizes`' count of stored versions. -/
def Sector.weakVersions (s : Sector) : Nat :=
  if 0 < s.size ∧ s.size ≤ s.totalSize then s.totalSize / s.size else 1

/-! ## Reading an image -/

/-- `read_exact`: the next `n` bytes of a file and the rest of it. -/
def readExact (n : Nat) (file : List UInt8) : Option (List UInt8 × List UInt8) :=
  if file.length < n then none else some (file.take n, file.drop n)

/-- `0x80 << n`, in 32 bits with the count of a 32-bit shift. -/
def sizeOfCode (n : UInt8) : Nat := 0x80 <<< (n.toNat % 32) % 2 ^ 32

/-- `dsk_load_track`'s sector table, from entry `i` on, with the sectors in their places from `off` on.
    On a standard image every sector has the size of the header's code. -/
def loadSectors (header : List UInt8) (extended : Bool) : Nat → Nat → Nat → List Sector
  | 0, _, _ => []
  | count + 1, i, off =>
    let info := sectorInfo header 0 i
    let standardSize := sizeOfCode (byteAt header 0x14)
    let storedSize := if extended then info.size else standardSize
    { chrn := info.chrn
      st1 := info.st1
      st2 := info.st2
      size := if extended then sizeOfCode info.chrn.n else standardSize
      totalSize := storedSize
      off := off } :: loadSectors header extended count (i + 1) (off + storedSize)

def dskLoadTrack (extended : Bool) (trackSize : Nat) (file : List UInt8) : Option (Track × List UInt8) :=
  match readExact 0x100 file with
  | none => none
  | some (header, file) =>
    if slice header 0 10 ≠ trackInfoMagic then none
    else
      let sectors := (byteAt header 0x15).toNat
      if dskSectorMax < sectors then none
      else
        match readExact trackSize file with
        | none => none
        | some (data, file) =>
          some ({ size := trackSize, data := data, sector := loadSectors header extended sectors 0 0 }, file)

/-- `dsk_parse`'s loop over the track lengths. A length below the header's own wraps to 4 GiB, which
    no file holds. -/
def loadTracks (extended : Bool) : List Nat → List UInt8 → Option (List Track)
  | [], _ => some []
  | trackSize :: sizes, file =>
    if extended ∧ trackSize = 0 then
      match loadTracks extended sizes file with
      | none => none
      | some tracks => some ({} :: tracks)
    else if trackSize < 0x100 then none
    else
      match dskLoadTrack extended (trackSize - 0x100) file with
      | none => none
      | some (track, file) =>
        match loadTracks extended sizes file with
        | none => none
        | some tracks => some (track :: tracks)

/-- The track lengths of an image: one for all, or a table of 256-byte pages. -/
def trackSizes (header : List UInt8) (extended : Bool) (count : Nat) : List Nat :=
  (List.range count).map fun i => if extended then (byteAt header (0x34 + i)).toNat * 256 else rd16le header 0x32

def dskParse (file : List UInt8) : Option Drive :=
  match readExact 0x100 file with
  | none => none
  | some (header, file) =>
    match dskKind header with
    | none => none
    | some extended =>
      let tracks := min (byteAt header 0x30).toNat dskTrackMax
      let sides := fdcSides header extended
      if dskSideMax < sides ∨ (sides = 0 ∧ tracks ≠ 0) then none
      else
        match loadTracks extended (trackSizes header extended (tracks * sides)) file with
        | none => none
        | some track =>
          some
            { tracks := tracks
              sides := sides - 1
              randomDEs := if extended then byteAt header 0x31 &&& 0x80 else 0
              track := track }

/-! ## Formatting -/

/-- `t_disk_format`; `sectorSize` is the N value. -/
structure DiskFormat where
  tracks : Nat
  sides : Nat
  sectors : Nat
  sectorSize : Nat
  fillerByte : UInt8
  sectorIds : Nat → Nat → UInt8

/-- What `parseDiskFormat` accepts. -/
structure DiskFormat.Accepted (fmt : DiskFormat) : Prop where
  tracks : 1 ≤ fmt.tracks ∧ fmt.tracks ≤ dskTrackMax
  sides : 1 ≤ fmt.sides ∧ fmt.sides ≤ dskSideMax
  sectors : 1 ≤ fmt.sectors ∧ fmt.sectors ≤ dskSectorMax
  sectorSize : 1 ≤ fmt.sectorSize ∧ fmt.sectorSize ≤ 6

/-- `disk_format[0]`: `178K Data Format`. -/
def dataFormat : DiskFormat where
  tracks := 40
  sides := 1
  sectors := 9
  sectorSize := 2
  fillerByte := 0xE5
  sectorIds _ i := [0xC1, 0xC6, 0xC2, 0xC7, 0xC3, 0xC8, 0xC4, 0xC9, 0xC5].getD i 0

def formatTrack (fmt : DiskFormat) (track side : Nat) : Track :=
  let sectorSize := 0x80 <<< fmt.sectorSize
  { size := sectorSize * fmt.sectors
    data := List.replicate (sectorSize * fmt.sectors) fmt.fillerByte
    sector := (List.range fmt.sectors).map fun i =>
      { chrn := ⟨UInt8.ofNat track, UInt8.ofNat side, fmt.sectorIds side i, UInt8.ofNat fmt.sectorSize⟩
        size := sectorSize
        totalSize := sectorSize
        off := i * sectorSize } }

/-- `dsk_format`, on an empty drive. -/
def dskFormat (fmt : DiskFormat) : Option Drive :=
  if fmt.sides = 0 ∨ dskSideMax < fmt.sides then none
  else if dskSectorMax < fmt.sectors then none
  else
    let tracks := min fmt.tracks dskTrackMax
    some
      { tracks := tracks
        sides := fmt.sides - 1
        randomDEs := 0
        track := (List.range (tracks * fmt.sides)).map fun i => formatTrack fmt (i / fmt.sides) (i % fmt.sides) }

/-! ## Writing an image -/

/-- `EXTENDED CPC DSK File\r\nDisk-Info\r\n`. -/
def dskId : List UInt8 :=
  extendedMagic ++ [0x20, 0x43, 0x50, 0x43, 0x20, 0x44, 0x53, 0x4B, 0x20, 0x46, 0x69, 0x6C, 0x65, 0x0D, 0x0A, 0x44,
    0x69, 0x73, 0x6B, 0x2D, 0x49, 0x6E, 0x66, 0x6F, 0x0D, 0x0A]

/-- `konCePCja\r\n`, in fourteen bytes. -/
def dskCreator : List UInt8 := [0x6B, 0x6F, 0x6E, 0x43, 0x65, 0x50, 0x43, 0x6A, 0x61, 0x0D, 0x0A, 0, 0, 0]

/-- The length byte of a track: 256-byte pages, the header's included. An unformatted one has none. -/
def trackPages (track : Track) : UInt8 := if track.size = 0 then 0 else UInt8.ofNat ((track.size + 0x100) / 256)

/-- `t_DSK_header`, filled. -/
def dskHeader (drive : Drive) : List UInt8 :=
  dskId ++ dskCreator ++ [UInt8.ofNat drive.tracks, UInt8.ofNat (drive.sides + 1) ||| drive.randomDEs, 0, 0] ++
    drive.track.map trackPages ++ List.replicate (dskTrackMax * dskSideMax - drive.track.length) 0

/-- One entry of a track header's sector list. -/
def sectorEntry (s : Sector) : List UInt8 :=
  [s.chrn.c, s.chrn.h, s.chrn.r, s.chrn.n, s.st1, s.st2, UInt8.ofNat s.totalSize, UInt8.ofNat (s.totalSize / 256)]

/-- `t_track_header`, filled. -/
def trackHeader (track side : Nat) (src : Track) : List UInt8 :=
  trackInfoMagic ++ [0x0D, 0x0A, 0, 0, 0, 0, UInt8.ofNat track, UInt8.ofNat side, 0, 0, 2,
    UInt8.ofNat src.sector.length, 0x4E, 0xE5] ++ src.sector.flatMap sectorEntry ++
    List.replicate (8 * (dskSectorMax - src.sector.length)) 0

/-- What a track adds to the image: nothing when it is unformatted. -/
def trackBytes (track side : Nat) (src : Track) : List UInt8 :=
  if src.size = 0 then [] else trackHeader track side src ++ src.data

def dskToBytes (drive : Drive) : Option (List UInt8) :=
  if drive.tracks = 0 then none
  else
    some (dskHeader drive ++
      drive.track.zipIdx.flatMap fun (src, i) => trackBytes (i / (drive.sides + 1)) (i % (drive.sides + 1)) src)

end Koncepcja.Slots
