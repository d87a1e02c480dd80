import Koncepcja.Lib.ByteBuf
import Koncepcja.Disk.FluxScan
import Koncepcja.Disk.MfmEncode

/-!
# The Two DSK Walkers

A DSK image is read twice in the program: `parse_dsk` of `src/hw/fdc.cpp` places every sector as a
window into the image that READ DATA serves from, and `mfm_tracks_from_dsk` of `src/mfm_encode.cpp`
copies payloads out of the image to synthesize cells. Each walker computes sector offsets in its
own way; this module has both, and `DskAgreement` compares them.

The controller's angular layout (`idam_at`, `data_at`) only times a transfer and is left out.
-/

namespace Koncepcja.Disk

open Koncepcja.Bits Koncepcja.Bytes

/-! ## Headers -/

/-- `MV - CPC`. -/
def standardMagic : List UInt8 := [0x4D, 0x56, 0x20, 0x2D, 0x20, 0x43, 0x50, 0x43]
/-- `EXTENDED`. -/
def extendedMagic : List UInt8 := [0x45, 0x58, 0x54, 0x45, 0x4E, 0x44, 0x45, 0x44]
/-- `Track-Info`. -/
def trackInfoMagic : List UInt8 := [0x54, 0x72, 0x61, 0x63, 0x6B, 0x2D, 0x49, 0x6E, 0x66, 0x6F]

/-- What fits in a DSK header. -/
def kMaxTracks : Nat := 102
/-- The controller's sides. -/
def kMaxSides : Nat := 2
/-- Side-0 slots of a flux image. -/
def kDskMaxCyls : Nat := 84
/-- The disc header, and each Track-Info block. -/
def kDskHeaderSize : Nat := 0x100

/-- One entry of a Track-Info block's sector list. -/
structure SectorInfo where
  chrn : Chrn
  st1 : UInt8
  st2 : UInt8
  size : Nat
  deriving DecidableEq

/-- Entry `i` of the Track-Info block at `th`. -/
def sectorInfo (p : List UInt8) (th i : Nat) : SectorInfo :=
  let si := th + 0x18 + 8 * i
  { chrn := ⟨byteAt p si, byteAt p (si + 1), byteAt p (si + 2), byteAt p (si + 3)⟩
    st1 := byteAt p (si + 4)
    st2 := byteAt p (si + 5)
    size := rd16le p (si + 6) }

/-! ## The controller's walk -/

/-- `fdc_sector`: the ID field, the status and the window into the image. -/
structure FdcSector where
  chrn : Chrn
  st1 : UInt8
  st2 : UInt8
  off : Nat
  stored : Nat
  deriving DecidableEq

/-- `fdc_track`: no sectors when unformatted. `cells` has the angles of a flux track, as measured;
    those of an image's track follow from its layout. -/
structure FdcTrack where
  dataOff : Nat := 0
  dataLen : Nat := 0
  sec : List FdcSector := []
  cells : Option (List (Nat × Nat)) := none
  deriving DecidableEq

/-- `fdc_media`: track `t` of side `s` is entry `t * sides + s`. What backs it by flux is the controller's. -/
structure FdcMedia where
  tracks : Nat
  sides : Nat
  track : List FdcTrack
  deriving DecidableEq

/-- The track under the head at cylinder `t`, side `s`. -/
def FdcMedia.trackAt (m : FdcMedia) (t s : Nat) : FdcTrack := m.track.getD (t * m.sides + s) {}

/-- The bytes `parse_dsk` takes a sector to occupy: its own length field, or 128 shifted by the
    track's size code on a standard image. -/
def dskStored (extended : Bool) (sizeCode : UInt8) (s : SectorInfo) : Nat :=
  if extended then s.size else 0x80 <<< sizeCode.toNat

/-- `parse_dsk`'s sector loop from entry `i` on: the sectors and the position behind them. -/
def placeSectors (p : List UInt8) (extended : Bool) (sizeCode : UInt8) (th : Nat) :
    Nat → Nat → Nat → Option (List FdcSector × Nat)
  | 0, _, pos => some ([], pos)
  | count + 1, i, pos =>
    let si := sectorInfo p th i
    let stored := dskStored extended sizeCode si
    if 0xFFFF < stored then none
    else
      match placeSectors p extended sizeCode th count (i + 1) (pos + stored) with
      | none => none
      | some (secs, pos') => some (⟨si.chrn, si.st1, si.st2, pos, stored⟩ :: secs, pos')

/-- `parse_dsk`, one present track block at `off`. -/
def parseTrackBlock (p : List UInt8) (extended : Bool) (off : Nat) : Option FdcTrack :=
  if p.length < off + 0x100 then none
  else if slice p off 10 ≠ trackInfoMagic then none
  else
    let sizeCode := byteAt p (off + 0x14)
    let sectors := (byteAt p (off + 0x15)).toNat
    if kMaxSectors < sectors ∨ 7 < sizeCode then none
    else
      match placeSectors p extended sizeCode off sectors 0 (off + 0x100) with
      | none => none
      | some (sec, pos) =>
        if p.length < pos then none
        else some { dataOff := off + 0x100, dataLen := pos - (off + 0x100), sec := sec }

/-- The byte length of track block `index` (cylinder * sides + side); zero for an unformatted track
    of an extended image. -/
def blockLen (p : List UInt8) (extended : Bool) (index : Nat) : Nat :=
  if extended then (byteAt p (0x34 + index)).toNat * 256 else rd16le p 0x32

/-- `parse_dsk`'s track loop from block `index` on. -/
def parseTracks (p : List UInt8) (extended : Bool) : Nat → Nat → Nat → Option (List FdcTrack)
  | 0, _, _ => some []
  | count + 1, index, off =>
    let block := blockLen p extended index
    if extended ∧ block = 0 then
      match parseTracks p extended count (index + 1) off with
      | none => none
      | some trks => some ({} :: trks)
    else
      match parseTrackBlock p extended off with
      | none => none
      | some trk =>
        match parseTracks p extended count (index + 1) (off + block) with
        | none => none
        | some trks => some (trk :: trks)

/-- Whether an image is a standard or an extended one. -/
def dskKind (p : List UInt8) : Option Bool :=
  if slice p 0 8 = standardMagic then some false
  else if slice p 0 8 = extendedMagic then some true
  else none

/-- The controller's side count: an extended image's is masked to two bits. -/
def fdcSides (p : List UInt8) (extended : Bool) : Nat :=
  if extended then (byteAt p 0x31 &&& 3).toNat else (byteAt p 0x31).toNat

def parseDsk (p : List UInt8) : Option FdcMedia :=
  if p.length < 0x100 then none
  else
    match dskKind p with
    | none => none
    | some extended =>
      let tracks := (byteAt p 0x30).toNat
      let sides := fdcSides p extended
      if tracks = 0 ∨ sides < 1 ∨ kMaxSides < sides then none
      else
        let tracks := min tracks kMaxTracks
        if !extended ∧ rd16le p 0x32 < 0x100 then none
        else
          match parseTracks p extended (tracks * sides) 0 0x100 with
          | none => none
          | some track => some { tracks := tracks, sides := sides, track := track }

/-! ## READ DATA -/

/-- `xfer_length`: 128 << N, or DTL (capped at 128) when N = 0. -/
def xferLength (n dtl : UInt8) : Nat :=
  if n = 0 then (if 0x80 < dtl then 0x80 else dtl.toNat) else 128 <<< (n &&& 7).toNat

/-- `find_sector`'s scan over the IDs that pass under the head; ST2 gathers Bad/No Cylinder. -/
def findSectorScan (want : Chrn) (st2 : UInt8) : List FdcSector → Option FdcSector × UInt8
  | [] => (none, st2)
  | s :: rest =>
    if s.chrn = want then (some s, st2 &&& ~~~(0x02 ||| 0x10))
    else if s.chrn.c = 0xFF then findSectorScan want (st2 ||| 0x02) rest
    else if s.chrn.c ≠ want.c then findSectorScan want (st2 ||| 0x10) rest
    else findSectorScan want st2 rest

/-- `find_sector`: from the rotational index to the second index pass. -/
def findSector (trk : FdcTrack) (want : Chrn) (idx : Nat) (st2 : UInt8) : Option FdcSector × UInt8 :=
  let idx := if trk.sec.length ≤ idx then 0 else idx
  let (found, st2) := findSectorScan want st2 (trk.sec.drop idx ++ trk.sec)
  (found, if st2 &&& 0x02 ≠ 0 then st2 &&& ~~~0x10 else st2)

/-- The transfer a command has under way. -/
structure Transfer where
  dataPos : Nat
  remaining : Nat
  trkBegin : Nat
  trkEnd : Nat
  st1 : UInt8
  st2 : UInt8

/-- `start_sector` on a sector image; `none` is No Data. -/
def startSector (trk : FdcTrack) (want : Chrn) (dtl : UInt8) (idx : Nat) (st2 : UInt8) :
    Option Transfer :=
  let (found, st2) := findSector trk want idx st2
  found.map fun sec =>
    { dataPos := sec.off
      remaining := xferLength want.n dtl
      trkBegin := trk.dataOff
      trkEnd := trk.dataOff + trk.dataLen
      st1 := sec.st1 &&& 0x25
      st2 := (st2 &&& 0x12) ||| (sec.st2 &&& 0x61) }

/-- `data_read`, the next byte of the sector: past the track's data it wraps inside it. -/
def dataRead (image : List UInt8) (x : Transfer) : UInt8 × Transfer :=
  let val := if x.dataPos < image.length then byteAt image x.dataPos else 0xFF
  let next := if x.trkEnd ≤ x.dataPos + 1 then x.trkBegin else x.dataPos + 1
  (val, { x with dataPos := next })

/-- `n` bytes of the transfer. -/
def serve (image : List UInt8) : Nat → Transfer → List UInt8
  | 0, _ => []
  | n + 1, x => (dataRead image x).1 :: serve image n (dataRead image x).2

/-- The bytes READ DATA serves for the ID `want` with the head just before sector `idx`. The
    32-bit countdown is tested after the decrement, so an empty request runs it all round. -/
def readData (image : List UInt8) (trk : FdcTrack) (want : Chrn) (dtl : UInt8) (idx : Nat) :
    Option (List UInt8) :=
  (startSector trk want dtl idx 0).map fun x =>
    serve image (if x.remaining = 0 then 2 ^ 32 else x.remaining) x

/-! ## The synthesizer's walk -/

/-- A sector's full length by its own size code. -/
def logicalLen (s : SectorInfo) : Nat := 128 <<< (s.chrn.n &&& 0x07).toNat

/-- How far `parse_dsk_track` moves past a sector: its length field on an extended image, its own
    size code where that field is zero or the image is a standard one. -/
def dskAdvance (extended : Bool) (s : SectorInfo) : Nat :=
  let actualLen := if extended then s.size else logicalLen s
  if actualLen ≠ 0 then actualLen else logicalLen s

/-- The sector a table entry and its payload window make. -/
def synthSector (dsk : List UInt8) (pos : Nat) (s : SectorInfo) : MfmSector :=
  { cyl := s.chrn.c
    head := s.chrn.h
    secId := s.chrn.r
    sizeCode := s.chrn.n
    payload := slice dsk pos (logicalLen s)
    dam := if s.st2 &&& 0x40 ≠ 0 then 0xF8 else 0xFB }

/-- `parse_dsk_track`'s loop from entry `sec` on. -/
def dskTrackSectors (dsk : List UInt8) (extended : Bool) (off : Nat) : Nat → Nat → Nat → List MfmSector
  | 0, _, _ => []
  | count + 1, sec, dataRel =>
    if dsk.length < off + (0x18 + sec * 8) + 8 then []
    else
      let s := sectorInfo dsk off sec
      let rest := dskTrackSectors dsk extended off count (sec + 1) (dataRel + dskAdvance extended s)
      if off + dataRel + logicalLen s ≤ dsk.length ∧ s.chrn.n ≤ kMaxSizeCode then
        synthSector dsk (off + dataRel) s :: rest
      else rest

def parseDskTrack (dsk : List UInt8) (extended : Bool) (off : Nat) : MfmTrackDesc :=
  let gap3 := byteAt dsk (off + 0x16)
  { sectors := dskTrackSectors dsk extended off (byteAt dsk (off + 0x15)).toNat 0 0x100
    gap3 := if gap3 ≠ 0 then gap3 else 0x52 }

/-- The file offset of track block `index`. -/
def blockOffset (dsk : List UInt8) (extended : Bool) : Nat → Nat
  | 0 => kDskHeaderSize
  | index + 1 => blockOffset dsk extended index + blockLen dsk extended index

/-- What is synthesized for side 0 of a cylinder; `none` leaves its slot empty. -/
def dskCylinder (dsk : List UInt8) (extended : Bool) (numSides cyl : Nat) : Option MfmTrackDesc :=
  let trackIndex := cyl * numSides
  let off := blockOffset dsk extended trackIndex
  if blockLen dsk extended trackIndex = 0 then none
  else if dsk.length < off + 0x100 then none
  else if slice dsk off 10 ≠ trackInfoMagic then none
  else some (parseDskTrack dsk extended off)

/-- The per-cylinder descriptions `mfm_tracks_from_dsk` encodes. -/
def dskCylinders (dsk : List UInt8) : List (Option MfmTrackDesc) :=
  if dsk.length < kDskHeaderSize then []
  else
    match dskKind dsk with
    | none => []
    | some extended =>
      let numCyls := (byteAt dsk 0x30).toNat
      let numSides := (byteAt dsk 0x31).toNat
      if numSides = 0 ∨ numCyls = 0 then []
      else (List.range (min numCyls kDskMaxCyls)).map (dskCylinder dsk extended numSides)

def mfmTracksFromDsk (dsk : List UInt8) : List MfmTrack :=
  (dskCylinders dsk).map fun desc =>
    match desc with
    | none => []
    | some desc =>
      let rev := mfmEncodeTrack desc
      if rev.nbits ≠ 0 then [rev] else []

/-- The sectors synthesized for side 0 of a cylinder. -/
def synthSectors (dsk : List UInt8) (cyl : Nat) : List MfmSector :=
  match (dskCylinders dsk).getD cyl none with
  | none => []
  | some desc => desc.sectors

end Koncepcja.Disk
