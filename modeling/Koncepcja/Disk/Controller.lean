import Koncepcja.Buses
import Koncepcja.Disk.DskImage
import Koncepcja.Disk.ScpDecode

/-!
# The Disc Controller

The µPD765A of `src/hw/fdc.cpp` on sector images and flux dumps: the rotating medium, the command,
execution, result and busy phases, and every command handler. `tick` is one master cycle of the device.

The event ring of the host's audio and the introspection counters, which no handler reads, are left
out. The clock `now` does not wrap, nor does the count of revolutions, which is taken modulo one or
two. Offsets into an image are the source's 32-bit ones: an image has at most 204 blocks of less than
64 KiB, so none of them wraps; the one that does on a flux track is in `st2Off`.
-/

namespace Koncepcja.Disk

open Koncepcja.Bits Koncepcja.Bytes

/-! ## The rotating medium -/

/-- 200 ms a revolution, in master cycles. -/
def kRevCycles : Nat := 3200000
/-- 32 µs a byte cell. -/
def kByteCycles : Nat := 512
/-- The byte cells of a revolution. -/
def kCellsPerTrack : Nat := kRevCycles / kByteCycles
/-- 500 ms of spin-up. -/
def kSpinUpCycles : Nat := 8000000
/-- Master cycles a millisecond. -/
def kCyclesPerMs : Nat := 16000

/-- Where each sector's ID field and data field pass the head, from `cell` on. -/
def placeAngles (gap3 : Nat) : Nat → List FdcSector → List (Nat × Nat)
  | _, [] => []
  | cell, s :: rest =>
    ((cell + 22) % kCellsPerTrack, (cell + 60) % kCellsPerTrack) ::
      placeAngles gap3 ((cell + 62 + s.stored + gap3) % kCellsPerTrack) rest

/-- `idam_at` and `data_at` of every sector: measured from the flux, or the angular layout `parse_dsk`
    gives a track. -/
def FdcTrack.angles (trk : FdcTrack) : List (Nat × Nat) :=
  let sectors := trk.sec.length
  let fixed := 146 + (trk.sec.map fun s => 62 + s.stored).sum
  let gap3 := if 0 < sectors ∧ fixed + 2 * sectors < kCellsPerTrack then (kCellsPerTrack - fixed) / sectors else 2
  match trk.cells with
  | some cells => cells
  | none => placeAngles gap3 146 trk.sec

def FdcTrack.idamAt (trk : FdcTrack) (i : Nat) : Nat := (trk.angles.getD i (0, 0)).1

def FdcTrack.dataAt (trk : FdcTrack) (i : Nat) : Nat := (trk.angles.getD i (0, 0)).2

/-! ## State -/

/-- `PH_CMD`, `PH_EXEC`, `PH_RESULT`, `PH_BUSY`. -/
inductive FdcPhase
  | cmd
  | exec
  | result
  | busy
  deriving DecidableEq, Repr

/-- The motor: `M_OFF`, `M_SPINUP`, `M_READY`. -/
inductive MotorSt
  | off
  | spinup
  | ready
  deriving DecidableEq, Repr

/-- A scheduled completion: `P_NONE` and its siblings. -/
inductive Pending
  | none
  | readId
  | dataStart
  | fail
  | formatDone
  deriving DecidableEq, Repr

/-- `fdc_media`, its sector half: the image, whether it was written to, and its parsed geometry. -/
structure Media where
  image : Option (List UInt8) := none
  dirty : Bool := false
  geo : FdcMedia := ⟨0, 0, []⟩
  deriving DecidableEq

/-- A revolution holds about 6250 bytes. -/
def kFluxPayload : Nat := 8192
/-- The revolutions of a track that are cached. -/
def kFluxRevs : Nat := 2

/-- A cached revolution: `cache_trk` and `cache_pay`. -/
structure CachedRev where
  trk : FdcTrack := {}
  pay : List UInt8 := List.replicate kFluxPayload 0
  deriving DecidableEq

/-- `fdc_media`, its flux half: the dump, the cylinders that were written since, and the cylinder
    that was decoded last. Only drive A's is ever filled, and it has a dump where `backing` says flux. -/
structure FluxBack where
  scp : Option (List UInt8) := none
  revs : UInt8 := 0
  trackDirty : List Bool := List.replicate kMaxTracks false
  cacheCyl : UInt8 := 0xFF
  cacheRevs : Nat := 1
  cache : List CachedRev := List.replicate kFluxRevs {}
  deriving DecidableEq

/-- What the controller keeps for each unit. -/
structure Drive where
  trackPos : UInt8 := 0
  seekDone : Bool := false
  statusChanged : Bool := false
  seeking : Bool := false
  seekTarget : UInt8 := 0
  nextStepAt : Nat := 0
  stepPeriod : Nat := 0
  media : Media := {}
  deriving DecidableEq

structure FdcState where
  phase : FdcPhase := .cmd
  cmd : List UInt8 := List.replicate 9 0
  cmdLen : Nat := 0
  cmdCount : Nat := 0
  mt : UInt8 := 0
  mf : UInt8 := 0
  sk : UInt8 := 0
  res : List UInt8 := List.replicate 7 0
  resLen : Nat := 0
  resCount : Nat := 0
  dirToCpu : Bool := false
  motor : Bool := false
  driveA : Drive := {}
  driveB : Drive := {}
  flux : FluxBack := {}
  sectorIdx : Nat := 0
  srtHut : UInt8 := 0
  hltNd : UInt8 := 0
  dataPos : Nat := 0
  remaining : Nat := 0
  trkBegin : Nat := 0
  trkEnd : Nat := 0
  now : Nat := 0
  rot : Nat := 0
  revCount : Nat := 0
  fromFlux : Bool := false
  serveRev : Nat := 0
  motorSt : MotorSt := .off
  motorReadyAt : Nat := 0
  pending : Pending := .none
  pendIdx : Nat := 0
  dueAt : Nat := 0
  nextByteAt : Nat := 0
  outLatch : UInt8 := 0xFF
  accessPrev : Bool := false
  wrDeleted : Bool := false
  wrSt2Off : Nat := 0
  fmtIds : List UInt8 := List.replicate 116 0
  fmtPos : Nat := 0
  deriving DecidableEq

/-! ## Media -/

/-- The image byte at `off`, set. Past the end nothing is written. -/
def Media.poke (m : Media) (off : Nat) (v : UInt8) : Media :=
  match m.image with
  | some image => if off < image.length then { m with image := some (image.set off v), dirty := true } else m
  | none => m

/-- A sector's Control Mark in the parsed table. -/
def Media.markDeleted (m : Media) (slot i : Nat) : Media :=
  { m with geo := { m.geo with track := m.geo.track.modify slot fun trk =>
      { trk with sec := trk.sec.modify i fun s => { s with st2 := s.st2 ||| 0x40 } } } }

/-- An extended image. -/
def isExtended (image : List UInt8) : Bool := slice image 0 8 = extendedMagic

/-- One entry of the sector list a FORMAT writes. -/
def formatEntry (ids : List UInt8) (sc secSize i : Nat) : List UInt8 :=
  if i < sc then
    slice ids (4 * i) 4 ++ [0, 0, UInt8.ofNat secSize, UInt8.ofNat (secSize / 256)]
  else List.replicate 8 0

/-- The Track-Info block from the size code on, as a FORMAT leaves it. -/
def formatHeader (n sc gpl fill : UInt8) (ids : List UInt8) : List UInt8 :=
  [n, sc, gpl, fill] ++ (List.range kMaxSectors).flatMap (formatEntry ids sc.toNat (128 <<< n.toNat))

/-- Whether the track's own block can hold the layout: the capacity, and on a standard image the
    size code all sectors share. -/
def formatFits (image : List UInt8) (slot : Nat) (trk : FdcTrack) (n sc : UInt8) : Bool :=
  let block := if isExtended image then (byteAt image (0x34 + slot)).toNat * 256 else rd16le image 0x32
  trk.dataOff ≠ 0 ∧ 0x100 < block ∧ sc.toNat * (128 <<< n.toNat) ≤ block - 0x100 ∧
    (isExtended image ∨ byteAt image (trk.dataOff - 0x100 + 0x14) = n)

/-- The image with a track rewritten. A block may reach past the end of the image; what the source
    writes there is outside its buffer and is cut off. -/
def formatImage (image : List UInt8) (trk : FdcTrack) (n sc gpl fill : UInt8) (ids : List UInt8) : List UInt8 :=
  (overwrite (overwrite image (trk.dataOff - 0x100 + 0x14) (formatHeader n sc gpl fill ids)) trk.dataOff
    (List.replicate (sc.toNat * (128 <<< n.toNat)) fill)).take image.length

/-- `parse_dsk` into a medium, which is cleared when the image is malformed. -/
def parseMedia (image : List UInt8) : Media :=
  match parseDsk image with
  | some geo => { image := some image, geo := geo }
  | none => {}

/-! ## Flux -/

/-- The track of a decoded revolution. Its windows are windows into the payload. -/
def fluxTrack (ft : FluxTrack) : FdcTrack :=
  { dataLen := ft.payload.length
    sec := ft.sec.map fun s => ⟨s.chrn, s.st1, s.st2, s.off, s.len⟩
    cells := some (ft.sec.map fun s => (s.idamCell, s.dataCell)) }

/-- A revolution decoded over the one that was cached: what does not decode leaves its payload. -/
def CachedRev.decode (scp : List UInt8) (cyl rev : Nat) (old : CachedRev) : CachedRev :=
  let ft := readTrack scp cyl rev kFluxPayload
  { trk := fluxTrack ft, pay := overwrite old.pay 0 ft.payload }

namespace FluxBack

/-- The cached revolution `rev`. -/
def rev (m : FluxBack) (rev : Nat) : CachedRev := m.cache.getD rev {}

/-- `ensure_flux_cache`: the cylinder is decoded, unless it is the cached one. -/
def fetch (m : FluxBack) (cyl : UInt8) : FluxBack :=
  match m.scp with
  | none => m
  | some scp =>
    if m.cacheCyl = cyl then m
    else
      let revs := if kFluxRevs ≤ m.revs.toNat then kFluxRevs else 1
      { m with
        cacheCyl := cyl
        cacheRevs := revs
        cache := m.cache.zipIdx.map fun (old, r) => if r < revs then old.decode scp cyl.toNat r else old }

/-- `serve_from_flux` of drive A: a cylinder nothing was written to. -/
def serves (m : FluxBack) (t : UInt8) : Bool := m.scp.isSome && m.trackDirty.getD t.toNat true == false

/-- `promote_flux_track`: from now on the cylinder is the image's. -/
def promote (m : FluxBack) (t : UInt8) : FluxBack :=
  if m.scp.isSome then { m with trackDirty := m.trackDirty.set t.toNat true } else m

/-- The Control Mark of a sector in a cached track. -/
def markDeleted (m : FluxBack) (rev i : Nat) : FluxBack :=
  { m with cache := m.cache.modify rev fun c =>
      { c with trk := { c.trk with sec := c.trk.sec.modify i fun s => { s with st2 := s.st2 ||| 0x40 } } } }

/-- What a FORMAT keeps of the flux of a medium that is parsed anew. -/
def reparsed (m : FluxBack) (t : UInt8) : FluxBack :=
  if m.scp.isSome then FluxBack.promote { scp := m.scp, revs := m.revs, trackDirty := m.trackDirty } t else m

end FluxBack

/-! ## Sectors and commands -/

/-- `find_sector`'s scan over numbered sectors; ST2 gathers Bad/No Cylinder. -/
def scanIds (want : Chrn) (st2 : UInt8) : List (Nat × FdcSector) → Option (Nat × FdcSector) × UInt8
  | [] => (none, st2)
  | (i, s) :: rest =>
    if s.chrn = want then (some (i, s), st2 &&& ~~~(0x02 ||| 0x10))
    else if s.chrn.c = 0xFF then scanIds want (st2 ||| 0x02) rest
    else if s.chrn.c ≠ want.c then scanIds want (st2 ||| 0x10) rest
    else scanIds want st2 rest

/-- The sectors in the order the head meets them: from `idx` to the second index pass. -/
def passing (trk : FdcTrack) (idx : Nat) : List (Nat × FdcSector) :=
  let numbered := trk.sec.zipIdx.map fun (s, i) => (i, s)
  numbered.drop (if trk.sec.length ≤ idx then 0 else idx) ++ numbered

/-- The image offset of the ST2 byte in entry `i` of a track's sector list. A flux track has no such
    list; its offset wraps at 32 bits to one behind every image. -/
def st2Off (trk : FdcTrack) (i : Nat) : Nat :=
  (if trk.dataOff < 0x100 then trk.dataOff + (2 ^ 32 - 0x100) else trk.dataOff - 0x100) + 0x18 + 8 * i + 5

/-- A 32-bit count one lower. -/
def pred32 (n : Nat) : Nat := (n + (2 ^ 32 - 1)) % 2 ^ 32

/-- `kCommands`: the bytes of a command and of its result. -/
def lookupCmd (op : UInt8) : Option (Nat × Nat) :=
  if op = 0x03 then some (3, 0)
  else if op = 0x04 then some (2, 1)
  else if op = 0x05 then some (9, 7)
  else if op = 0x06 then some (9, 7)
  else if op = 0x07 then some (2, 0)
  else if op = 0x08 then some (1, 2)
  else if op = 0x09 then some (9, 7)
  else if op = 0x0A then some (2, 7)
  else if op = 0x0C then some (9, 7)
  else if op = 0x0D then some (6, 7)
  else if op = 0x0F then some (3, 0)
  else none

/-! ## Heads -/

/-- One physical step towards the target. -/
def Drive.nextTrack (d : Drive) : UInt8 := if d.trackPos < d.seekTarget then d.trackPos + 1 else d.trackPos - 1

/-- One master cycle of a unit's head. -/
def Drive.step (now : Nat) (d : Drive) : Drive :=
  if d.seeking ∧ d.nextStepAt ≤ now then
    let d := { d with trackPos := d.nextTrack }
    if d.trackPos = d.seekTarget then { d with seeking := false, seekDone := true }
    else { d with nextStepAt := d.nextStepAt + d.stepPeriod }
  else d

namespace FdcState

/-- The drive of a unit: `false` is drive A. -/
def drive (f : FdcState) (unit : Bool) : Drive := if unit then f.driveB else f.driveA

/-- The state with a unit's drive replaced. -/
def setDrive (f : FdcState) (unit : Bool) (d : Drive) : FdcState :=
  { f with driveA := if unit then f.driveA else d, driveB := if unit then d else f.driveB }

/-- The opcode of the command. -/
def code (f : FdcState) : UInt8 := byteAt f.cmd 0

/-- The unit the command addresses. -/
def unit (f : FdcState) : Bool := byteAt f.cmd 1 &&& 1 ≠ 0

/-- The head the command addresses. -/
def head (f : FdcState) : UInt8 := (byteAt f.cmd 1 >>> 2) &&& 1

/-- The ID the command names. -/
def want (f : FdcState) : Chrn := ⟨byteAt f.cmd 2, byteAt f.cmd 3, byteAt f.cmd 4, byteAt f.cmd 5⟩

/-- A result byte. -/
def resAt (f : FdcState) (i : Nat) : UInt8 := byteAt f.res i

/-- A result byte stored. -/
def setRes (f : FdcState) (i : Nat) (v : UInt8) : FdcState := { f with res := f.res.set i v }

/-- Status bits added to a result byte. -/
def orRes (f : FdcState) (i : Nat) (v : UInt8) : FdcState := f.setRes i (f.resAt i ||| v)

/-- An image or a flux dump in a drive. -/
def discIn (f : FdcState) (unit : Bool) : Bool :=
  ((f.drive unit).media.image.isSome || !unit && f.flux.scp.isSome) && 0 < (f.drive unit).media.geo.tracks

/-- `drive_ready`: a disc in and the motor up to speed. -/
def driveReady (f : FdcState) (unit : Bool) : Bool := f.discIn unit && f.motorSt == .ready

/-! ## Angular position -/

def cyclesUntilCell (f : FdcState) (cell : Nat) : Nat :=
  let target := cell * kByteCycles
  let delta := if f.rot ≤ target then target - f.rot else kRevCycles - f.rot + target
  if delta = 0 then kRevCycles else delta

/-- `next_idam_index`: the first sector whose ID field arrives soonest. -/
def nextIdamIndex (f : FdcState) (trk : FdcTrack) : Nat :=
  ((List.range trk.sec.length).foldl (fun (best, bestDt) i =>
    let dt := f.cyclesUntilCell (trk.idamAt i)
    if dt < bestDt then (i, dt) else (best, bestDt)) (0, 2 ^ 64 - 1)).1

/-- `passing_rev`: the cached revolution that passes the head. -/
def passingRev (f : FdcState) : Nat := f.revCount % f.flux.cacheRevs

/-- `rev_at_cell`: the one that will pass when `cell` arrives; the index hole brings the next. -/
def revAtCell (f : FdcState) (cell : Nat) : Nat :=
  if cell * kByteCycles ≤ f.rot then (f.passingRev + 1) % f.flux.cacheRevs else f.passingRev

/-- `serve_from_flux`: the cylinder under the head of the addressed unit is read from the flux. -/
def servesFlux (f : FdcState) : Bool := !f.unit && f.flux.serves (f.drive f.unit).trackPos

/-- The flux behind `head_track`, which decodes the cylinder where it is to be served. -/
def fetched (f : FdcState) : FluxBack :=
  if f.servesFlux ∧ (f.drive f.unit).trackPos.toNat < (f.drive f.unit).media.geo.tracks then
    f.flux.fetch (f.drive f.unit).trackPos
  else f.flux

/-- The controller behind `head_track`. -/
def fetchTrack (f : FdcState) : FdcState := { f with flux := f.fetched }

/-- The table entry under the head. Single-sided images ignore the head bit. -/
def headSlot (f : FdcState) : Nat :=
  let geo := (f.drive f.unit).media.geo
  (f.drive f.unit).trackPos.toNat * geo.sides + (if 1 < geo.sides then f.head.toNat else 0)

/-- `head_track` behind `fetchTrack`: the entry under the head and its track, unless there is nothing
    to read. On flux it is the passing revolution's. -/
def headTrack (f : FdcState) : Option (Nat × FdcTrack) :=
  let m := (f.drive f.unit).media
  let entry := if f.servesFlux then f.passingRev else f.headSlot
  let trk := if f.servesFlux then (f.flux.rev f.passingRev).trk else m.geo.track.getD f.headSlot {}
  if m.image = none ∧ f.servesFlux = false then none
  else if m.geo.tracks ≤ (f.drive f.unit).trackPos.toNat then none
  else if trk.sec = [] then none
  else some (entry, trk)

/-! ## Results -/

/-- `init_status`: a clear result buffer with the unit and head, and Not Ready where it applies. -/
def initStatus (f : FdcState) : FdcState :=
  let st0 := byteAt f.cmd 1 &&& 7
  { f with res := (List.replicate 7 0).set 0 (if f.driveReady f.unit then st0 else st0 ||| 0x48) }

/-- The result bytes with the command's ID in the place of the last four. -/
def resultChrn (cmd res : List UInt8) : List UInt8 :=
  (((res.set 3 (byteAt cmd 2)).set 4 (byteAt cmd 3)).set 5 (byteAt cmd 4)).set 6 (byteAt cmd 5)

def loadResultChrn (f : FdcState) : FdcState := { f with res := resultChrn f.cmd f.res }

def enterResult (f : FdcState) : FdcState := { f with phase := .result, resCount := 0 }

def enterCmd (f : FdcState) : FdcState := { f with phase := .cmd, cmdCount := 0 }

/-- The masking of `finish_with_status`: an error outweighs the end of the cylinder, a data error
    the control mark. -/
def maskStatus (res : List UInt8) : List UInt8 :=
  if byteAt res 1 &&& 0x7F ≠ 0 ∨ byteAt res 2 &&& 0x7F ≠ 0 then
    let res := res.set 1 (byteAt res 1 &&& 0x7F)
    if byteAt res 1 &&& 0x20 ≠ 0 ∨ byteAt res 2 &&& 0x20 ≠ 0 then res.set 2 (byteAt res 2 &&& 0xBF)
    else if byteAt res 2 &&& 0x40 ≠ 0 then
      let res := res.set 0 (byteAt res 0 &&& 0x3F)
      res.set 1 (byteAt res 1 &&& 0x7F)
    else res
  else res

def finishWithStatus (f : FdcState) : FdcState :=
  let f := (f.orRes 0 0x40).orRes 1 0x80
  { f with res := maskStatus f.res }.loadResultChrn.enterResult

/-- An immediate abnormal end with a bit of ST1. -/
def failNow (f : FdcState) (st1 : UInt8) : FdcState :=
  ((f.orRes 0 0x40).orRes 1 st1).loadResultChrn.enterResult

/-- An end that is reported after two index pulses. -/
def failLater (f : FdcState) : FdcState :=
  { f with pending := .fail, dueAt := f.now + 2 * kRevCycles, phase := .busy }

/-! ## Sector transfers -/

/-- `xfer_length`. -/
def xferLen (f : FdcState) : Nat := xferLength (byteAt f.cmd 5) (byteAt f.cmd 8)

/-- Two index pulses without the sector: No Data. -/
def noData (f : FdcState) (st2 : UInt8) : FdcState :=
  { f with
    res := resultChrn f.cmd (((f.res.set 0 (f.resAt 0 ||| 0x40)).set 1 (f.resAt 1 ||| 0x04)).set 2 st2)
    sectorIdx := 0
    pending := .fail
    dueAt := f.now + 2 * kRevCycles
    phase := .busy }

/-- The scan stopped at sector `i`; a write notes where its ST2 byte is. -/
def foundSector (f : FdcState) (trk : FdcTrack) (toCpu : Bool) (i : Nat) : FdcState :=
  { f with
    sectorIdx := i, fromFlux := f.servesFlux, wrSt2Off := if toCpu then f.wrSt2Off else st2Off trk i }

/-- The revolution whose payload is read. -/
def serveFrom (f : FdcState) (rev : Nat) : FdcState := { f with serveRev := rev }

/-- A sector's copy on another revolution, or the scanned one where the revolution lacks it. -/
def servedCopy (served trk : FdcTrack) (i : Nat) (sec : FdcSector) : FdcTrack × Nat × FdcSector :=
  match served.sec.zipIdx.find? fun (s, _) => s.chrn = sec.chrn with
  | some (s, j) => (served, j, s)
  | none => (trk, i, sec)

/-- The transfer of sector `i` of a track, once its data field reaches the head. -/
def beginTransfer (f : FdcState) (trk : FdcTrack) (toCpu : Bool) (i : Nat) (sec : FdcSector) (st2 : UInt8) : FdcState :=
  { f with
    res := (f.res.set 1 (sec.st1 &&& 0x25)).set 2 ((st2 &&& 0x12) ||| (sec.st2 &&& 0x61))
    dataPos := sec.off
    remaining := f.xferLen
    trkBegin := trk.dataOff
    trkEnd := trk.dataOff + trk.dataLen
    dirToCpu := toCpu
    pending := .dataStart
    dueAt := f.now + f.cyclesUntilCell (trk.dataAt i)
    phase := .busy }

def startSector (f : FdcState) (trk : FdcTrack) (toCpu : Bool) : FdcState :=
  let (found, st2) := scanIds f.want (f.resAt 2) (passing trk (f.nextIdamIndex trk))
  let st2 := if st2 &&& 0x02 ≠ 0 then st2 &&& ~~~0x10 else st2
  match found with
  | none => f.noData st2
  | some (i, sec) =>
    let f := f.foundSector trk toCpu i
    if f.fromFlux then
      -- the revolution that passes when the data field arrives has the bytes
      let rev := f.revAtCell (trk.dataAt i)
      let (trk, i, sec) := servedCopy (f.flux.rev rev).trk trk i sec
      (f.serveFrom rev).beginTransfer trk toCpu i sec st2
    else f.beginTransfer trk toCpu i sec st2

/-- The command goes on with the next sector number. -/
def bumpSector (f : FdcState) : FdcState := { f with cmd := f.cmd.set 4 (byteAt f.cmd 4 + 1) }

/-- The multi-sector step behind a transferred sector: the next one, or the end of the cylinder. -/
def chainSector (f : FdcState) (toCpu : Bool) : FdcState :=
  if byteAt f.cmd 4 = byteAt f.cmd 6 then f.finishWithStatus
  else
    match f.bumpSector.fetchTrack.headTrack with
    | some (_, trk) => f.bumpSector.fetchTrack.startSector trk toCpu
    | none => f.bumpSector.fetchTrack.finishWithStatus

/-! ## FORMAT TRACK -/

/-- The medium of the addressed unit, its rewritten image parsed anew. -/
def remount (f : FdcState) (image : List UInt8) : FdcState :=
  { f.setDrive f.unit { f.drive f.unit with media := { parseMedia image with dirty := true } } with
    flux := if f.unit then f.flux else f.flux.reparsed (f.drive f.unit).trackPos, sectorIdx := 0 }

/-- The end of a FORMAT that the disc's container cannot hold. -/
def notWritable (f : FdcState) : FdcState := ((f.orRes 0 0x40).orRes 1 0x02).enterResult

/-- The normal end of a FORMAT. -/
def formatResult (f : FdcState) (st0 c h n : UInt8) : FdcState :=
  ((((f.setRes 0 st0).setRes 3 c).setRes 4 h).setRes 6 n).enterResult

def doFormat (f : FdcState) : FdcState :=
  let d := f.drive f.unit
  let m := d.media
  let n := byteAt f.cmd 2
  let sc := byteAt f.cmd 3
  let trk := m.geo.track.getD f.headSlot {}
  match m.image with
  | none => f.notWritable
  | some image =>
    if d.trackPos.toNat < m.geo.tracks ∧ formatFits image f.headSlot trk n sc then
      let f := f.remount (formatImage image trk n sc (byteAt f.cmd 4) (byteAt f.cmd 5) f.fmtIds)
      f.formatResult (byteAt f.cmd 1 &&& 7) d.trackPos f.head n
    else f.notWritable

/-! ## Commands -/

def cmdSpecify (f : FdcState) : FdcState := { f with srtHut := byteAt f.cmd 1, hltNd := byteAt f.cmd 2 }.enterCmd

def cmdDriveStatus (f : FdcState) : FdcState :=
  let d := f.drive f.unit
  let writable := d.media.image.isSome && 0 < d.media.geo.tracks
  let st3 := byteAt f.cmd 1 &&& 0x07
  let st3 := if writable then st3 else st3 ||| 0x40
  let st3 := if f.discIn f.unit && f.motorSt == .ready then st3 ||| 0x20 else st3
  let st3 := if d.trackPos = 0 then st3 ||| 0x10 else st3
  (f.setRes 0 st3).enterResult

/-- The head stops at the last track. -/
def clampTrack (target : UInt8) : UInt8 := if kMaxTracks ≤ target.toNat then UInt8.ofNat (kMaxTracks - 1) else target

/-- `cmd_seek_to`, which RECALIBRATE and SEEK share. -/
def cmdSeekTo (f : FdcState) (target : UInt8) : FdcState :=
  let f := f.initStatus
  let d := f.drive f.unit
  let tgt := clampTrack target
  if f.driveReady f.unit then
    if tgt = d.trackPos then (f.setDrive f.unit { d with seekDone := true }).enterCmd
    else
      let period := (16 - ((f.srtHut >>> 4) &&& 0x0F).toNat) * 2 * kCyclesPerMs
      (f.setDrive f.unit { d with
        seeking := true, seekTarget := tgt, stepPeriod := period, nextStepAt := f.now + period }).enterCmd
  else (f.setDrive f.unit { d with seekDone := true }).enterCmd

def cmdSenseInterrupt (f : FdcState) : FdcState :=
  let st0 := f.resAt 0 &&& 0x48
  if f.driveA.seekDone then
    let f := { f with driveA := { f.driveA with seekDone := false, statusChanged := false } }
    ((f.setRes 0 (st0 ||| 0x20)).setRes 1 f.driveA.trackPos).enterResult
  else if f.driveB.seekDone then
    let f := { f with driveB := { f.driveB with seekDone := false, statusChanged := false } }
    ((f.setRes 0 (st0 ||| 0x21)).setRes 1 f.driveB.trackPos).enterResult
  else if f.driveA.statusChanged then
    let f := { f with driveA := { f.driveA with statusChanged := false } }
    ((f.setRes 0 (if f.driveReady false then 0xC0 else 0xC8)).setRes 1 f.driveA.trackPos).enterResult
  else if f.driveB.statusChanged then
    let f := { f with driveB := { f.driveB with statusChanged := false } }
    ((f.setRes 0 (if f.driveReady true then 0xC1 else 0xC9)).setRes 1 f.driveB.trackPos).enterResult
  else { f.setRes 0 0x80 with resLen := 1 }.enterResult

/-- The head's cylinder and side in the result. -/
def loadHead (f : FdcState) : FdcState := (f.setRes 3 (f.drive f.unit).trackPos).setRes 4 f.head

/-- The wait for the next ID field. -/
def awaitId (f : FdcState) (trk : FdcTrack) : FdcState :=
  { f with
    pendIdx := f.nextIdamIndex trk, pending := .readId
    dueAt := f.now + f.cyclesUntilCell (trk.idamAt (f.nextIdamIndex trk)), phase := .busy }

def cmdReadId (f : FdcState) : FdcState :=
  let f := f.initStatus
  if f.driveReady f.unit then
    match f.fetchTrack.headTrack with
    | some (_, trk) => f.fetchTrack.awaitId trk
    | none => ((f.fetchTrack.orRes 0 0x40).orRes 1 0x01).loadHead.failLater
  else f.loadHead.enterResult

def cmdReadData (f : FdcState) : FdcState :=
  let f := f.initStatus
  if f.driveReady f.unit then
    match f.fetchTrack.headTrack with
    | some (_, trk) => f.fetchTrack.startSector trk true
    | none => f.fetchTrack.failNow 0x01
  else f.loadResultChrn.enterResult

/-- `promote_flux_track` for the addressed unit. -/
def promoteTrack (f : FdcState) : FdcState :=
  { f with flux := if f.unit then f.flux else f.flux.promote (f.drive f.unit).trackPos }

/-- `cmd_write_data`, for WRITE DATA and WRITE DELETED DATA. -/
def cmdWriteData (f : FdcState) : FdcState :=
  let f := { f with wrDeleted := f.code = 0x09 }.initStatus
  if f.driveReady f.unit then
    if (f.drive f.unit).media.image = none then f.failNow 0x02
    else
      -- what is written is the image's from now on
      match f.promoteTrack.fetchTrack.headTrack with
      | some (_, trk) => f.promoteTrack.fetchTrack.startSector trk false
      | none => f.promoteTrack.fetchTrack.failNow 0x01
  else f.loadResultChrn.enterResult

def cmdReadDeletedStub (f : FdcState) : FdcState := f.initStatus.failNow 0x04

/-- The execution phase begins: the first byte is under the head. -/
def beginExec (f : FdcState) : FdcState := { f with phase := .exec, nextByteAt := f.now }

def cmdFormatTrack (f : FdcState) : FdcState :=
  let f := f.initStatus
  if f.driveReady f.unit then
    let f := f.loadHead.setRes 6 (byteAt f.cmd 2)
    let sc := byteAt f.cmd 3
    if (f.drive f.unit).media.image = none ∨ sc = 0 ∨ kMaxSectors < sc.toNat ∨ 7 < byteAt f.cmd 2 then
      f.notWritable
    else { f with fmtPos := 0, dirToCpu := false }.beginExec
  else f.enterResult

/-- `dispatch`; only opcodes of the table come here. -/
def dispatch (f : FdcState) : FdcState :=
  if f.code = 0x07 then f.cmdSeekTo 0
  else if f.code = 0x0F then f.cmdSeekTo (byteAt f.cmd 2)
  else if f.code = 0x03 then f.cmdSpecify
  else if f.code = 0x04 then f.cmdDriveStatus
  else if f.code = 0x05 ∨ f.code = 0x09 then f.cmdWriteData
  else if f.code = 0x06 then f.cmdReadData
  else if f.code = 0x08 then f.cmdSenseInterrupt
  else if f.code = 0x0A then f.cmdReadId
  else if f.code = 0x0C then f.cmdReadDeletedStub
  else if f.code = 0x0D then f.cmdFormatTrack
  else f

/-! ## The data register -/

/-- The ID field under the head, in the result. -/
def loadId (f : FdcState) (id : Chrn) : FdcState :=
  (((f.setRes 3 id.c).setRes 4 id.h).setRes 5 id.r).setRes 6 id.n

/-- READ ID's moment: the field that was waited for passes, if it is still there. -/
def readIdDone (f : FdcState) : FdcState :=
  match f.headTrack with
  | some (_, trk) =>
    match trk.sec[f.pendIdx]? with
    | some sec => ({ f.loadId sec.chrn with sectorIdx := f.pendIdx + 1 } : FdcState).enterResult
    | none => f.enterResult
  | none => f.enterResult

/-- No completion is scheduled. -/
def unscheduled (f : FdcState) : FdcState := { f with pending := .none }

/-- `complete_pending`: the scheduled moment has come. -/
def completePending (f : FdcState) : FdcState :=
  match f.pending with
  | .readId => f.unscheduled.fetchTrack.readIdDone
  | .dataStart => f.unscheduled.beginExec
  | .formatDone => f.unscheduled.doFormat
  | _ => f.unscheduled.enterResult

/-- The medium of the addressed unit, changed. -/
def mapMedia (f : FdcState) (g : Media → Media) : FdcState :=
  f.setDrive f.unit { f.drive f.unit with media := g (f.drive f.unit).media }

/-- The Control Mark of WRITE DELETED DATA in the track under the head: in the parsed table, or in the
    cache where the head has stepped on to a flux track since. -/
def markTable (f : FdcState) : FdcState :=
  match f.headTrack with
  | some (entry, trk) =>
    if 1 ≤ f.sectorIdx ∧ f.sectorIdx ≤ trk.sec.length then
      if f.servesFlux then { f with flux := f.flux.markDeleted entry (f.sectorIdx - 1) }
      else f.mapMedia (Media.markDeleted · entry (f.sectorIdx - 1))
    else f
  | none => f

/-- The Control Mark in the image's own Track-Info entry. -/
def markImage (f : FdcState) : FdcState :=
  if f.wrSt2Off = 0 then f
  else f.mapMedia fun m => m.poke f.wrSt2Off (byteAt (m.image.getD []) f.wrSt2Off ||| 0x40)

/-- The position behind a transferred byte: past the track's data it wraps inside it. -/
def nextPos (f : FdcState) : Nat := if f.trkEnd ≤ f.dataPos + 1 then f.trkBegin else f.dataPos + 1

/-- A byte of the transfer has passed the head. -/
def advance (f : FdcState) : FdcState :=
  { f with dataPos := f.nextPos, nextByteAt := f.nextByteAt + kByteCycles, remaining := pred32 f.remaining }

/-- `exec_write_byte` in FORMAT TRACK: an ID byte joins the stream. -/
def formatByte (f : FdcState) (val : UInt8) : FdcState :=
  let f := { f with
    fmtIds := f.fmtIds.set f.fmtPos val, fmtPos := f.fmtPos + 1, nextByteAt := f.nextByteAt + kByteCycles }
  if f.fmtPos = (byteAt f.cmd 3).toNat * 4 then
    { f with pending := .formatDone, dueAt := f.now + (kRevCycles - f.rot), phase := .busy }
  else f

/-- The head has rotated past a sector. -/
def pastSector (f : FdcState) : FdcState := { f with sectorIdx := f.sectorIdx + 1 }

/-- The last byte of a written sector is out. -/
def sectorWritten (f : FdcState) : FdcState :=
  (if f.wrDeleted then f.pastSector.fetchTrack.markTable.markImage else f.pastSector).chainSector false

/-- A byte lands in the image under the head. -/
def pokeByte (f : FdcState) (val : UInt8) : FdcState := (f.mapMedia fun m => m.poke f.dataPos val).advance

/-- `exec_write_byte` in WRITE DATA and WRITE DELETED DATA. -/
def writeByte (f : FdcState) (val : UInt8) : FdcState :=
  if (f.pokeByte val).remaining = 0 then (f.pokeByte val).sectorWritten else f.pokeByte val

def execWriteByte (f : FdcState) (val : UInt8) : FdcState :=
  if f.code = 0x0D then f.formatByte val else f.writeByte val

def dataWrite (f : FdcState) (val : UInt8) : FdcState :=
  if f.phase = .exec ∧ f.dirToCpu = false then f.execWriteByte val
  else if f.phase ≠ .cmd then f
  else if f.cmdCount = 0 then
    let f := { f with mt := val &&& 0x80, mf := val &&& 0x40, sk := val &&& 0x20 }
    match lookupCmd (val &&& 0x1F) with
    | none => { f.setRes 0 0x80 with resLen := 1 }.enterResult
    | some (cmdBytes, resBytes) =>
      let f := { f with cmd := f.cmd.set 0 (val &&& 0x1F), cmdCount := 1, cmdLen := cmdBytes, resLen := resBytes }
      if f.cmdCount = f.cmdLen then { f with cmdCount := 0 }.dispatch else f
  else
    let f := { f with cmd := f.cmd.set f.cmdCount val, cmdCount := f.cmdCount + 1 }
    if f.cmdCount = f.cmdLen then { f with cmdCount := 0 }.dispatch else f

/-- The last byte of a read sector is out. -/
def sectorRead (f : FdcState) : FdcState :=
  let f := f.pastSector
  if f.resAt 1 &&& 0x31 ≠ 0 ∨ f.resAt 2 &&& 0x21 ≠ 0 then f.finishWithStatus else f.chainSector true

/-- The byte under the head: of the payload of the revolution that is served, or of the image. -/
def headByte (f : FdcState) : UInt8 :=
  if f.fromFlux then
    if f.dataPos < kFluxPayload then byteAt (f.flux.rev (f.serveRev % kFluxRevs)).pay f.dataPos else 0xFF
  else
    match (f.drive f.unit).media.image with
    | some image => if f.dataPos < image.length then byteAt image f.dataPos else 0xFF
    | none => 0xFF

/-- `data_read`: the byte and the state behind the access. -/
def dataRead (f : FdcState) : UInt8 × FdcState :=
  match f.phase with
  | .exec =>
    if f.dirToCpu = false then (0xFF, f)
    else (f.headByte, if f.advance.remaining = 0 then f.advance.sectorRead else f.advance)
  | .result =>
    (f.resAt f.resCount,
      let f := { f with resCount := f.resCount + 1 }
      if f.resLen ≤ f.resCount then f.enterCmd else f)
  | _ => (0xFF, f)

def msrValue (f : FdcState) : UInt8 :=
  let seekBits := (if f.driveA.seeking then 0x01 else 0) ||| (if f.driveB.seeking then 0x02 else 0)
  match f.phase with
  | .exec =>
    (if f.nextByteAt ≤ f.now then 0x80 else 0) ||| (0x30 ||| (if f.dirToCpu then 0x40 else 0x00)) ||| seekBits
  | .result => 0xD0 ||| seekBits
  | .busy => 0x10 ||| seekBits
  | .cmd => 0x80 ||| (if f.cmdCount ≠ 0 then 0x10 else 0x00) ||| seekBits

/-! ## The device -/

/-- The bus wires the controller looks at. -/
abbrev FdcBus := CpuLines

/-- One master cycle of the clock and the platter. -/
def spin (f : FdcState) : FdcState :=
  let f := { f with now := f.now + 1 }
  if f.motorSt = .off then f
  else
    let f := { f with
      rot := if kRevCycles ≤ f.rot + 1 then 0 else f.rot + 1
      revCount := if kRevCycles ≤ f.rot + 1 then f.revCount + 1 else f.revCount }
    if f.motorSt = .spinup ∧ f.motorReadyAt ≤ f.now then
      { f with
        motorSt := .ready
        driveA := { f.driveA with statusChanged := true }
        driveB := { f.driveB with statusChanged := true } }
    else f

/-- The mechanics of `fdc_tick`: platter and heads. -/
def mechanics (f : FdcState) : FdcState :=
  let f := f.spin
  { f with driveA := Drive.step f.now f.driveA, driveB := Drive.step f.now f.driveB }

/-- The timed events of `fdc_tick`: a scheduled completion, and the overrun of a byte. -/
def timers (f : FdcState) : FdcState :=
  let f := if f.phase = .busy ∧ f.dueAt ≤ f.now then f.completePending else f
  if f.phase = .exec ∧ f.nextByteAt + kByteCycles < f.now then (f.orRes 1 0x10).finishWithStatus else f

/-- A write to the motor latch. -/
def motorWrite (f : FdcState) (on : Bool) : FdcState :=
  let f := { f with motor := on }
  if on ∧ f.motorSt = .off then { f with motorSt := .spinup, motorReadyAt := f.now + kSpinUpCycles }
  else if on = false ∧ f.motorSt ≠ .off then
    { f with
      motorSt := .off
      driveA := { f.driveA with statusChanged := true }
      driveB := { f.driveB with statusChanged := true } }
  else f

/-- The bus half of `fdc_tick`: the value the controller drives, if any, and the state. -/
def access (b : FdcBus) (f : FdcState) : Option UInt8 × FdcState :=
  let sel := b.iorq && !b.m1 && b.addr &&& 0x0480 == 0
  let access := sel && (b.rd || b.wr)
  let edge := access && !f.accessPrev
  let f := { f with accessPrev := access }
  if sel = false then (none, f)
  else if b.addr &&& 0x0100 = 0 then
    (none, if b.wr ∧ edge then f.motorWrite (b.data &&& 0x01 ≠ 0) else f)
  else if b.rd then
    if b.addr &&& 0x0001 = 0 then (some f.msrValue, f)
    else
      let f := if edge then { f.dataRead.2 with outLatch := f.dataRead.1 } else f
      (some f.outLatch, f)
  else if b.wr ∧ b.addr &&& 0x0001 ≠ 0 ∧ edge then (none, f.dataWrite b.data)
  else (none, f)

/-- `fdc_tick`. -/
def tick (b : FdcBus) (f : FdcState) : Option UInt8 × FdcState := f.mechanics.timers.access b

/-- Another medium in a drive; the flux of drive A goes with its old one. -/
def insert (f : FdcState) (unit : Bool) (media : Media) (flux : FluxBack) : FdcState :=
  { f.setDrive unit { f.drive unit with media, statusChanged := true } with
    flux := if unit then f.flux else flux, sectorIdx := 0 }

/-- `fdc_attach_disk`. -/
def attachDisk (f : FdcState) (unit : Bool) (image : List UInt8) : FdcState := f.insert unit (parseMedia image) {}

/-- `fdc_attach_flux`: a read-only dump; one that cannot be used leaves the drive as it is. -/
def attachFlux (f : FdcState) (scp : List UInt8) : FdcState :=
  match scpGeometry scp with
  | .error _ => f
  | .ok g => f.insert false { geo := ⟨min g.cyls kMaxTracks, 1, []⟩ } { scp := some scp, revs := g.revs }

/-- `flux_scp_revolutions`, and one where there are none. -/
def fluxRevs (scp : List UInt8) : UInt8 :=
  match scpGeometry scp with
  | .error _ => 1
  | .ok g => g.revs

/-- `fdc_attach_flux_writable`: a dump with the image that takes its written tracks. A malformed image
    leaves the drive empty, and nothing is reported. -/
def attachFluxWritable (f : FdcState) (scp dsk : List UInt8) : FdcState :=
  if (parseDsk dsk).isSome then f.insert false (parseMedia dsk) { scp := some scp, revs := fluxRevs scp }
  else { f with driveA := { f.driveA with media := {} }, flux := {} }

/-- The state behind a run of master cycles. -/
def runBus (f : FdcState) (bs : List FdcBus) : FdcState := bs.foldl (fun f b => (f.tick b).2) f

end FdcState

end Koncepcja.Disk
