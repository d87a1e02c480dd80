import Koncepcja.Lib.ByteBuf
import Mathlib.Logic.Function.Basic

/-!
# The Symbiface IDE Channel

`src/hw/symbiface.cpp`: two ATA drives over images of the caller, with one register file, one sector
buffer and one position for each. A register access answers at once.

The master is drive `false`, the slave drive `true`. What the caller's buffers hold is part of the
state; an image is as long as when it was attached.

## Main definitions

- `ideRead`, `ideWrite`, `boardReset`: what reaches the channel.
- `sector`: a sector of an attached image.
-/

namespace Koncepcja.Symbiface

open Koncepcja.Bytes

def kSrDrdy : UInt8 := 0x40
def kSrDrq : UInt8 := 0x08
def kSrErr : UInt8 := 0x01

def kCmdReadSectors : UInt8 := 0x20
def kCmdWriteSectors : UInt8 := 0x30
def kCmdIdentify : UInt8 := 0xEC
def kCmdIdleImmediate : UInt8 := 0xE1
def kCmdInitParams : UInt8 := 0x91

structure IdeDrive where
  error : UInt8 := 0
  features : UInt8 := 0
  sectorCount : UInt8 := 0
  lbaLow : UInt8 := 0
  lbaMid : UInt8 := 0
  lbaHigh : UInt8 := 0
  driveHead : UInt8 := 0
  status : UInt8 := 0
  command : UInt8 := 0
  sectorBuf : List UInt8 := List.replicate 512 0
  bufPos : Nat := 0
  dataReady : Bool := false
  writePending : Bool := false
  deriving DecidableEq, Repr

/-- The IDE part of `sf2_state`. -/
structure Sf2Ide where
  ide : Bool → IdeDrive := fun _ => {}
  activeDrive : Bool := false
  dirty : Bool := false
  img : Bool → Option (List UInt8) := fun _ => none

/-! ## The registers of a drive -/

namespace IdeDrive

/-- `ide_lba`: 28 bits over four registers. -/
def lba (d : IdeDrive) : Nat :=
  (d.driveHead &&& 0x0F).toNat * 2 ^ 24 + d.lbaHigh.toNat * 2 ^ 16 + d.lbaMid.toNat * 2 ^ 8 + d.lbaLow.toNat

def setLba (d : IdeDrive) (lba : Nat) : IdeDrive :=
  { d with
    lbaLow := UInt8.ofNat lba
    lbaMid := UInt8.ofNat (lba / 2 ^ 8)
    lbaHigh := UInt8.ofNat (lba / 2 ^ 16)
    driveHead := (d.driveHead &&& 0xF0) ||| UInt8.ofNat (lba / 2 ^ 24 % 16) }

/-- One byte into the sector buffer. -/
def put (d : IdeDrive) (val : UInt8) : IdeDrive :=
  { d with sectorBuf := d.sectorBuf.set d.bufPos val, bufPos := d.bufPos + 1 }

/-- Behind a sector that was stored: the next one of the command, or the end of it. -/
def chain (d : IdeDrive) : IdeDrive :=
  let next : IdeDrive := { d with writePending := false, sectorCount := d.sectorCount - 1 }
  if 0 < next.sectorCount then
    { next.setLba (d.lba + 1) with bufPos := 0, writePending := true, status := kSrDrdy ||| kSrDrq }
  else { next with status := kSrDrdy }

/-- A command that failed. -/
def fail (d : IdeDrive) (error : UInt8) : IdeDrive := { d with status := kSrDrdy ||| kSrErr, error }

end IdeDrive

/-! ## The identity block -/

def putWord (buf : List UInt8) (word val : Nat) : List UInt8 := put16le buf (word * 2) val

/-- `ide_set_string`: the characters of a word change places, the rest is blank. -/
def ideSetString (buf : List UInt8) (wordStart wordCount : Nat) (str : List UInt8) : List UInt8 :=
  (List.range wordCount).foldl
    (fun buf w => (buf.set ((wordStart + w) * 2) (str.getD (w * 2 + 1) 0x20)).set ((wordStart + w) * 2 + 1)
      (str.getD (w * 2) 0x20)) buf

/-- `"KONCEPCJA001"`. -/
def serialNumber : List UInt8 := [0x4B, 0x4F, 0x4E, 0x43, 0x45, 0x50, 0x43, 0x4A, 0x41, 0x30, 0x30, 0x31]
/-- `"1.00"`. -/
def firmware : List UInt8 := [0x31, 0x2E, 0x30, 0x30]
/-- `"konCePCja Virtual CF"`. -/
def modelName : List UInt8 :=
  [0x6B, 0x6F, 0x6E, 0x43, 0x65, 0x50, 0x43, 0x6A, 0x61, 0x20, 0x56, 0x69, 0x72, 0x74, 0x75, 0x61, 0x6C, 0x20, 0x43, 0x46]

/-- The block for a drive of `total` sectors. -/
def identity (total : Nat) : List UInt8 :=
  let cyls := min (total / (16 * 63)) 16383
  let chs := cyls * 16 * 63
  let b := List.replicate 512 0
  let b := putWord (putWord (putWord (putWord b 0 0x0040) 1 cyls) 3 16) 6 63
  let b := ideSetString (ideSetString (ideSetString b 10 10 serialNumber) 23 4 firmware) 27 20 modelName
  let b := putWord (putWord (putWord b 47 1) 49 0x0200) 53 0x0001
  let b := putWord (putWord (putWord b 54 cyls) 55 16) 56 63
  let b := putWord (putWord b 57 (chs % 0x10000)) 58 (chs / 0x10000)
  putWord (putWord b 60 (total % 0x10000)) 61 (total / 0x10000)

/-- What reaches the channel. Drives are selected through register 6. -/
inductive IdeAccess where
  | read (reg : UInt8)
  | write (reg val : UInt8)
  | reset
  deriving DecidableEq, Repr

/-! ## The channel -/

namespace Sf2Ide

def present (f : Sf2Ide) (n : Bool) : Bool := (f.img n).isSome

def totalSectors (f : Sf2Ide) (n : Bool) : Nat := ((f.img n).getD []).length / 512 % 2 ^ 32

def active (f : Sf2Ide) : IdeDrive := f.ide f.activeDrive

/-- Write through `active`. -/
def setActive (f : Sf2Ide) (d : IdeDrive) : Sf2Ide := { f with ide := Function.update f.ide f.activeDrive d }

/-- `ide_do_identify`. -/
def doIdentify (f : Sf2Ide) : Sf2Ide :=
  f.setActive
    { f.active with
      sectorBuf := identity (f.totalSectors f.activeDrive)
      bufPos := 0
      dataReady := true
      status := kSrDrdy ||| kSrDrq }

/-- `ide_do_read`. -/
def doRead (f : Sf2Ide) : Sf2Ide :=
  match f.img f.activeDrive with
  | none => f.setActive (f.active.fail 0x04)
  | some img =>
    if f.totalSectors f.activeDrive ≤ f.active.lba then f.setActive (f.active.fail 0x10)
    else
      f.setActive
        { f.active with
          sectorBuf := slice img (f.active.lba * 512) 512
          bufPos := 0
          dataReady := true
          status := kSrDrdy ||| kSrDrq }

/-- `ide_do_write_commit`. -/
def doWriteCommit (f : Sf2Ide) : Sf2Ide :=
  match f.img f.activeDrive with
  | none => f.setActive (f.active.fail 0x04)
  | some img =>
    if f.totalSectors f.activeDrive ≤ f.active.lba then f.setActive (f.active.fail 0x10)
    else
      { f.setActive f.active.chain with
        img := Function.update f.img f.activeDrive (some (overwrite img (f.active.lba * 512) f.active.sectorBuf))
        dirty := true }

/-- `ide_execute`. -/
def execute (f : Sf2Ide) : Sf2Ide :=
  if f.active.command = kCmdIdentify then f.doIdentify
  else if f.active.command = kCmdReadSectors then f.doRead
  else if f.active.command = kCmdWriteSectors then
    f.setActive
      { f.active with
        bufPos := 0
        writePending := true
        dataReady := false
        sectorBuf := List.replicate 512 0
        status := kSrDrdy ||| kSrDrq }
  else if f.active.command = kCmdIdleImmediate ∨ f.active.command = kCmdInitParams then
    f.setActive { f.active with status := kSrDrdy }
  else f.setActive (f.active.fail 0x04)

/-- Behind the last byte of a sector that was read. -/
def nextRead (f : Sf2Ide) : Sf2Ide :=
  let d : IdeDrive := { f.active with dataReady := false }
  if d.command = kCmdReadSectors then
    let d : IdeDrive := { d with sectorCount := d.sectorCount - 1 }
    if 0 < d.sectorCount then (f.setActive (d.setLba (d.lba + 1))).doRead
    else f.setActive { d with status := kSrDrdy }
  else f.setActive { d with status := kSrDrdy }

/-- The data register, read. -/
def readData (f : Sf2Ide) : UInt8 × Sf2Ide :=
  let d := f.active
  if d.dataReady ∧ d.bufPos < 512 then
    let f := f.setActive { d with bufPos := d.bufPos + 1 }
    (byteAt d.sectorBuf d.bufPos, if 512 ≤ d.bufPos + 1 then f.nextRead else f)
  else (0xFF, f)

def ideRead (f : Sf2Ide) (reg : UInt8) : UInt8 × Sf2Ide :=
  if f.present f.activeDrive then
    match (reg &&& 0x07).toNat with
    | 0 => f.readData
    | 1 => (f.active.error, f)
    | 2 => (f.active.sectorCount, f)
    | 3 => (f.active.lbaLow, f)
    | 4 => (f.active.lbaMid, f)
    | 5 => (f.active.lbaHigh, f)
    | 6 => (f.active.driveHead, f)
    | _ => (f.active.status, f)
  else (0xFF, f)

/-- The data register, written. -/
def writeData (f : Sf2Ide) (val : UInt8) : Sf2Ide :=
  let d := f.active
  if d.writePending ∧ d.bufPos < 512 then
    let f := f.setActive (d.put val)
    if 512 ≤ d.bufPos + 1 then f.doWriteCommit else f
  else f

/-- The command register. -/
def writeCommand (f : Sf2Ide) (val : UInt8) : Sf2Ide := (f.setActive { f.active with command := val, error := 0 }).execute

/-- `ide_write`. Register 6 chooses the drive before it is written. -/
def ideWrite (f : Sf2Ide) (reg val : UInt8) : Sf2Ide :=
  if (reg &&& 0x07).toNat = 6 then
    let f := { f with activeDrive := (val >>> 4) &&& 1 == 1 }
    f.setActive { f.active with driveHead := val }
  else if f.present f.activeDrive then
    match (reg &&& 0x07).toNat with
    | 0 => f.writeData val
    | 1 => f.setActive { f.active with features := val }
    | 2 => f.setActive { f.active with sectorCount := val }
    | 3 => f.setActive { f.active with lbaLow := val }
    | 4 => f.setActive { f.active with lbaMid := val }
    | 5 => f.setActive { f.active with lbaHigh := val }
    | _ => f.writeCommand val
  else f

/-- `sf2_board_reset`. -/
def boardReset (f : Sf2Ide) : Sf2Ide :=
  { f with
    activeDrive := false
    ide := fun n =>
      { f.ide n with
        status := if f.present n then kSrDrdy else 0
        error := 0
        bufPos := 0
        dataReady := false
        writePending := false } }

/-- One access to the channel. -/
def access (f : Sf2Ide) : IdeAccess → Sf2Ide
  | .read reg => (f.ideRead reg).2
  | .write reg val => f.ideWrite reg val
  | .reset => f.boardReset

/-- Two drives as they are attached. -/
def attached (img : Bool → Option (List UInt8)) : Sf2Ide where
  img
  ide n := { status := if (img n).isSome then kSrDrdy else 0 }

/-- A sector of an image. -/
def sector (f : Sf2Ide) (n : Bool) (k : Nat) : List UInt8 := slice ((f.img n).getD []) (k * 512) 512

/-! ## Writing through `active` -/

variable {f : Sf2Ide} {d : IdeDrive} {n : Bool}

@[simp] theorem activeDrive_setActive : (f.setActive d).activeDrive = f.activeDrive := rfl

@[simp] theorem img_setActive : (f.setActive d).img = f.img := rfl

@[simp] theorem active_setActive : (f.setActive d).active = d := Function.update_self _ _ _

@[simp] theorem setActive_setActive (d' : IdeDrive) : (f.setActive d).setActive d' = f.setActive d' := by
  rw [setActive, setActive, setActive, Function.update_idem]

theorem ide_setActive_of_ne (h : n ≠ f.activeDrive) : (f.setActive d).ide n = f.ide n := Function.update_of_ne h _ _

@[simp] theorem present_setActive : (f.setActive d).present n = f.present n := rfl

@[simp] theorem totalSectors_setActive : (f.setActive d).totalSectors n = f.totalSectors n := rfl

@[simp] theorem sector_setActive (k : Nat) : (f.setActive d).sector n k = f.sector n k := rfl

theorem present_iff : f.present n = true ↔ ∃ img, f.img n = some img := Option.isSome_iff_exists

/-! ## The data register, written -/

theorem writeData_ignored (val : UInt8) (h : ¬ (f.active.writePending = true ∧ f.active.bufPos < 512)) :
    f.writeData val = f := if_neg h

theorem writeData_of_lt (val : UInt8) (hpending : f.active.writePending = true) (h : f.active.bufPos + 1 < 512) :
    f.writeData val = f.setActive (f.active.put val) := by
  rw [writeData]
  dsimp only
  rw [if_pos ⟨hpending, by omega⟩, if_neg (by omega)]

theorem writeData_of_eq (val : UInt8) (hpending : f.active.writePending = true) (h : f.active.bufPos + 1 = 512) :
    f.writeData val = (f.setActive (f.active.put val)).doWriteCommit := by
  rw [writeData]
  dsimp only
  rw [if_pos ⟨hpending, by omega⟩, if_pos (by omega)]

theorem doWriteCommit_of_le {img : List UInt8} (himg : f.img f.activeDrive = some img)
    (h : f.totalSectors f.activeDrive ≤ f.active.lba) : f.doWriteCommit = f.setActive (f.active.fail 0x10) := by
  rw [doWriteCommit, himg]
  exact if_pos h

theorem doWriteCommit_of_lt {img : List UInt8} (himg : f.img f.activeDrive = some img)
    (h : f.active.lba < f.totalSectors f.activeDrive) : f.doWriteCommit =
      { f.setActive f.active.chain with
        img := Function.update f.img f.activeDrive (some (overwrite img (f.active.lba * 512) f.active.sectorBuf))
        dirty := true } := by
  rw [doWriteCommit, himg]
  exact if_neg (Nat.not_le.2 h)

theorem lba_put (d : IdeDrive) (val : UInt8) : (d.put val).lba = d.lba := rfl

theorem writeData_stores {img : List UInt8} (val : UInt8) (hpending : f.active.writePending = true)
    (hlast : f.active.bufPos + 1 = 512) (himg : f.img f.activeDrive = some img)
    (hlba : f.active.lba < f.totalSectors f.activeDrive) : f.writeData val =
      { f.setActive (f.active.put val).chain with
        img := Function.update f.img f.activeDrive
          (some (overwrite img (f.active.lba * 512) (f.active.put val).sectorBuf))
        dirty := true } := by
  have himg' : (f.setActive (f.active.put val)).img f.activeDrive = some img := himg
  rw [writeData_of_eq val hpending hlast, doWriteCommit_of_lt himg' (by rwa [active_setActive])]
  simp only [active_setActive, setActive_setActive, activeDrive_setActive, img_setActive, lba_put]

theorem writeData_fails {img : List UInt8} (val : UInt8) (hpending : f.active.writePending = true)
    (hlast : f.active.bufPos + 1 = 512) (himg : f.img f.activeDrive = some img)
    (hlba : f.totalSectors f.activeDrive ≤ f.active.lba) :
    f.writeData val = f.setActive ((f.active.put val).fail 0x10) := by
  have himg' : (f.setActive (f.active.put val)).img f.activeDrive = some img := himg
  rw [writeData_of_eq val hpending hlast, doWriteCommit_of_le himg' (by rwa [active_setActive]), active_setActive,
    setActive_setActive]

@[simp] theorem setActive_active (f : Sf2Ide) : f.setActive f.active = f := by
  rw [setActive, active, Function.update_eq_self]

theorem foldl_writeData (vals : List UInt8) (hpending : f.active.writePending = true)
    (hroom : f.active.bufPos + vals.length < 512) (hbuf : f.active.sectorBuf.length = 512) :
    vals.foldl writeData f = f.setActive
      { f.active with
        sectorBuf := overwrite f.active.sectorBuf f.active.bufPos vals
        bufPos := f.active.bufPos + vals.length } := by
  -- Along the bytes; there is room for them all, so no sector is completed.
  induction vals generalizing f with
  | nil =>
    rw [List.foldl_nil, overwrite, List.append_nil, List.length_nil, Nat.add_zero, List.take_append_drop]
    exact (setActive_active f).symm
  | cons val vals ih =>
    rw [List.length_cons] at hroom
    rw [List.foldl_cons, writeData_of_lt val hpending (by omega)]
    refine (ih ?_ ?_ ?_).trans ?_
    · rwa [active_setActive]
    · rw [active_setActive]
      change f.active.bufPos + 1 + vals.length < 512
      omega
    · rw [active_setActive]
      exact (List.length_set).trans hbuf
    · rw [active_setActive, setActive_setActive]
      have hset : overwrite (f.active.sectorBuf.set f.active.bufPos val) (f.active.bufPos + 1) vals =
          overwrite f.active.sectorBuf f.active.bufPos (val :: vals) := overwrite_set (by omega) val vals
      have hpos : f.active.bufPos + 1 + vals.length = f.active.bufPos + (val :: vals).length := by
        rw [List.length_cons]
        omega
      rw [← hset, ← hpos]
      rfl

theorem totalSectors_le (f : Sf2Ide) (n : Bool) : f.totalSectors n * 512 ≤ ((f.img n).getD []).length := by
  have hmod := Nat.mod_le (((f.img n).getD []).length / 512) (2 ^ 32)
  rw [totalSectors]
  omega

theorem sector_end_le {k l : Nat} (h : k < l) : k * 512 + 512 ≤ l * 512 := by
  omega

theorem sector_of_overwrite {g : Sf2Ide} {img block : List UInt8} {lba : Nat} (himg : f.img n = some img)
    (hg : g.img = Function.update f.img n (some (overwrite img (lba * 512) block))) (hblock : block.length = 512)
    (hlba : lba < f.totalSectors n) (m : Bool) (k : Nat) :
    g.sector m k = if m = n ∧ k = lba then block else f.sector m k := by
  have htotal := f.totalSectors_le n
  rw [himg, Option.getD_some] at htotal
  have hstart : lba * 512 ≤ img.length :=
    Nat.le_trans (Nat.le_add_right _ 512) (Nat.le_trans (sector_end_le hlba) htotal)
  rw [sector, sector, hg]
  by_cases hm : m = n
  · subst hm
    rw [Function.update_self, Option.getD_some, himg, Option.getD_some]
    rcases Nat.lt_trichotomy k lba with hk | hk | hk
    · rw [if_neg fun h => (Nat.ne_of_lt hk) h.2]
      exact slice_overwrite_of_le _ (sector_end_le hk) hstart
    · have hself := slice_overwrite_self block hstart
      rw [hblock] at hself
      rw [if_pos ⟨rfl, hk⟩, hk, hself]
    · rw [if_neg fun h => (Nat.ne_of_gt hk) h.2]
      exact slice_overwrite_of_ge _ (by rw [hblock]; exact sector_end_le hk) hstart
  · rw [if_neg fun h => hm h.1, Function.update_of_ne hm]

theorem totalSectors_of_overwrite {g : Sf2Ide} {img block : List UInt8} {lba : Nat} (himg : f.img n = some img)
    (hg : g.img = Function.update f.img n (some (overwrite img (lba * 512) block))) (hblock : block.length = 512)
    (hlba : lba < f.totalSectors n) (m : Bool) : g.totalSectors m = f.totalSectors m := by
  have htotal := f.totalSectors_le n
  rw [himg, Option.getD_some] at htotal
  have hend : lba * 512 + block.length ≤ img.length := by
    rw [hblock]
    exact Nat.le_trans (sector_end_le hlba) htotal
  rw [totalSectors, totalSectors, hg]
  by_cases hm : m = n
  · subst hm
    rw [Function.update_self, Option.getD_some, himg, Option.getD_some, overwrite_length hend]
  · rw [Function.update_of_ne hm]

theorem present_of_overwrite {g : Sf2Ide} {img img' : List UInt8} (himg : f.img n = some img)
    (hg : g.img = Function.update f.img n (some img')) (m : Bool) : g.present m = f.present m := by
  rw [present, present, hg]
  by_cases hm : m = n
  · subst hm
    rw [Function.update_self, himg]
    rfl
  · rw [Function.update_of_ne hm]

theorem set_overwrite_last {buf vals : List UInt8} (val : UInt8) (h : buf.length = vals.length + 1) :
    (overwrite buf 0 vals).set vals.length val = vals ++ [val] := by
  have htail : (buf.drop vals.length).length = 1 := by
    rw [List.length_drop]
    omega
  obtain ⟨b, hb⟩ := List.length_eq_one_iff.1 htail
  rw [overwrite, List.take_zero, List.nil_append, Nat.zero_add, hb, List.set_append_right _ _ (Nat.le_refl _),
    Nat.sub_self, List.set_cons_zero]

theorem foldl_writeData_block {img block : List UInt8} (hblock : block.length = 512)
    (hpending : f.active.writePending = true) (hpos : f.active.bufPos = 0) (hbuf : f.active.sectorBuf.length = 512)
    (himg : f.img f.activeDrive = some img) (hlba : f.active.lba < f.totalSectors f.activeDrive) :
    block.foldl writeData f =
      { f.setActive ({ f.active with sectorBuf := block, bufPos := 512 } : IdeDrive).chain with
        img := Function.update f.img f.activeDrive (some (overwrite img (f.active.lba * 512) block))
        dirty := true } := by
  rcases List.eq_nil_or_concat block with hnil | ⟨vals, val, hconcat⟩
  · rw [hnil] at hblock
    exact absurd hblock (by decide)
  subst hconcat
  rw [List.concat_eq_append] at hblock ⊢
  have hlen : vals.length = 511 := by
    rw [List.length_append, List.length_singleton] at hblock
    omega
  rw [List.foldl_append, foldl_writeData vals hpending (by rw [hpos, hlen]; decide) hbuf, List.foldl_cons, List.foldl_nil]
  -- before its last byte the sector is in the buffer, on top of what was there
  generalize hd : ({ f.active with
    sectorBuf := overwrite f.active.sectorBuf f.active.bufPos vals
    bufPos := f.active.bufPos + vals.length } : IdeDrive) = d
  have hput : d.put val = { f.active with sectorBuf := vals ++ [val], bufPos := 512 } := by
    rw [← hd, IdeDrive.put, hpos, Nat.zero_add, set_overwrite_last val (by rw [hbuf, hlen]), hlen]
  have hpend : (f.setActive d).active.writePending = true := by
    rw [active_setActive, ← hd]
    exact hpending
  have hlast : (f.setActive d).active.bufPos + 1 = 512 := by
    rw [active_setActive, ← hd]
    change f.active.bufPos + vals.length + 1 = 512
    rw [hpos, hlen]
  have hsame : (f.setActive d).active.lba = f.active.lba := by
    rw [active_setActive, ← hd]
    rfl
  have himg' : (f.setActive d).img (f.setActive d).activeDrive = some img := himg
  rw [writeData_stores val hpend hlast himg' (by rw [hsame]; exact hlba), hsame, active_setActive, hput,
    setActive_setActive]
  rfl

/-! ## The registers of a drive that is there -/

theorem ideWrite_data {reg : UInt8} (val : UInt8) (hpresent : f.present f.activeDrive = true)
    (hreg : (reg &&& 0x07).toNat = 0) : f.ideWrite reg val = f.writeData val := by
  rw [ideWrite, if_neg (by omega), if_pos hpresent]
  split
  · rfl
  all_goals first | omega | exact absurd hreg (by assumption)

theorem ideWrite_absent {reg : UInt8} (val : UInt8) (habsent : ¬ f.present f.activeDrive = true)
    (hreg : (reg &&& 0x07).toNat ≠ 6) : f.ideWrite reg val = f := (if_neg hreg).trans (if_neg habsent)

theorem ideWrite_command {reg : UInt8} (val : UInt8) (hpresent : f.present f.activeDrive = true)
    (hreg : (reg &&& 0x07).toNat = 7) : f.ideWrite reg val = f.writeCommand val := by
  rw [ideWrite, if_neg (by omega), if_pos hpresent]
  split <;> first | rfl | omega

theorem writeCommand_write (f : Sf2Ide) : f.writeCommand kCmdWriteSectors =
    f.setActive
      { f.active with
        command := kCmdWriteSectors
        error := 0
        bufPos := 0
        writePending := true
        dataReady := false
        sectorBuf := List.replicate 512 0
        status := kSrDrdy ||| kSrDrq } := by
  rw [writeCommand, execute, active_setActive, setActive_setActive]
  rfl

/-! ## What an access leaves alone -/

theorem doRead_cases (f : Sf2Ide) :
    (∃ error, f.doRead = f.setActive (f.active.fail error)) ∨
      ∃ block : List UInt8, block.length = 512 ∧ f.active.lba < f.totalSectors f.activeDrive ∧
        f.doRead = f.setActive
          { f.active with sectorBuf := block, bufPos := 0, dataReady := true, status := kSrDrdy ||| kSrDrq } := by
  rw [doRead]
  cases himg : f.img f.activeDrive with
  | none => exact .inl ⟨0x04, rfl⟩
  | some img =>
    by_cases hlba : f.totalSectors f.activeDrive ≤ f.active.lba
    · exact .inl ⟨0x10, if_pos hlba⟩
    · refine .inr ⟨slice img (f.active.lba * 512) 512, slice_length ?_, Nat.not_le.1 hlba, if_neg hlba⟩
      have htotal := f.totalSectors_le f.activeDrive
      rw [himg, Option.getD_some] at htotal
      exact Nat.le_trans (sector_end_le (Nat.not_le.1 hlba)) htotal

theorem img_doRead (f : Sf2Ide) : f.doRead.img = f.img := by
  rcases f.doRead_cases with ⟨_, h⟩ | ⟨_, _, _, h⟩
  · rw [h, img_setActive]
  · rw [h, img_setActive]

theorem img_nextRead (f : Sf2Ide) : f.nextRead.img = f.img := by
  rw [nextRead]
  dsimp only
  split
  · split
    · exact img_doRead _
    · rfl
  · rfl

theorem img_readData (f : Sf2Ide) : f.readData.2.img = f.img := by
  rw [readData]
  dsimp only
  split
  · dsimp only
    split
    · exact img_nextRead _
    · rfl
  · rfl

theorem ideRead_cases (f : Sf2Ide) (reg : UInt8) : (f.ideRead reg).2 = f ∨ (f.ideRead reg).2 = f.readData.2 := by
  rw [ideRead]
  split
  · split
    · exact .inr rfl
    all_goals exact .inl rfl
  · exact .inl rfl

theorem img_execute (f : Sf2Ide) : f.execute.img = f.img := by
  rw [execute]
  split
  · rfl
  · split
    · exact img_doRead f
    · split
      · rfl
      · split
        · rfl
        · rfl

theorem ideWrite_other {reg : UInt8} (val : UInt8)
    (h : f.present f.activeDrive = true → (reg &&& 0x07).toNat ≠ 0 ∧ (reg &&& 0x07).toNat ≠ 7) :
    ∃ g : Sf2Ide, g.ide = f.ide ∧ g.img = f.img ∧ ∃ d : IdeDrive, f.ideWrite reg val = g.setActive d ∧
      d.command = g.active.command ∧ d.sectorBuf = g.active.sectorBuf ∧ d.bufPos = g.active.bufPos ∧ d.writePending = g.active.writePending ∧
      d.dataReady = g.active.dataReady ∧ d.status = g.active.status ∧ d.error = g.active.error := by
  rw [ideWrite]
  have hlt : (reg &&& 0x07).toNat < 8 := by
    rw [UInt8.toNat_and]
    exact Nat.lt_of_le_of_lt Nat.and_le_right (by decide)
  split
  · exact ⟨{ f with activeDrive := (val >>> 4) &&& 1 == 1 }, rfl, rfl, _, rfl, rfl, rfl, rfl, rfl, rfl, rfl, rfl⟩
  · split
    · obtain ⟨h0, h7⟩ := h (by assumption)
      split
      · omega
      all_goals first | exact ⟨f, rfl, rfl, _, rfl, rfl, rfl, rfl, rfl, rfl, rfl, rfl⟩ | (exfalso; grind)
    · exact ⟨f, rfl, rfl, f.active, (setActive_active f).symm, rfl, rfl, rfl, rfl, rfl, rfl, rfl⟩

theorem ide_doRead_of_ne (h : n ≠ f.activeDrive) : f.doRead.ide n = f.ide n := by
  rcases f.doRead_cases with ⟨_, heq⟩ | ⟨_, _, _, heq⟩
  · rw [heq, ide_setActive_of_ne h]
  · rw [heq, ide_setActive_of_ne h]

theorem ide_readData_of_ne (h : n ≠ f.activeDrive) : f.readData.2.ide n = f.ide n := by
  rw [readData]
  dsimp only
  split
  · dsimp only
    split
    · rw [nextRead]
      dsimp only
      split
      · split
        · rw [ide_doRead_of_ne (by exact h), ide_setActive_of_ne (by exact h), ide_setActive_of_ne h]
        · rw [ide_setActive_of_ne (by exact h), ide_setActive_of_ne h]
      · rw [ide_setActive_of_ne (by exact h), ide_setActive_of_ne h]
    · rw [ide_setActive_of_ne h]
  · rfl

theorem ide_execute_of_ne (h : n ≠ f.activeDrive) : f.execute.ide n = f.ide n := by
  rw [execute]
  split
  · exact ide_setActive_of_ne h
  · split
    · exact ide_doRead_of_ne h
    · split
      · exact ide_setActive_of_ne h
      · split
        · exact ide_setActive_of_ne h
        · exact ide_setActive_of_ne h

theorem ideRead_of_ne {reg : UInt8} (hreg : (reg &&& 0x07).toNat ≠ 0) : (f.ideRead reg).2 = f := by
  rw [ideRead]
  split
  · split
    · exact absurd (by assumption) hreg
    all_goals rfl
  · rfl

theorem activeDrive_doRead (f : Sf2Ide) : f.doRead.activeDrive = f.activeDrive := by
  rcases f.doRead_cases with ⟨_, heq⟩ | ⟨_, _, _, heq⟩
  · rw [heq, activeDrive_setActive]
  · rw [heq, activeDrive_setActive]

theorem doRead_of_lt (hpresent : f.present f.activeDrive = true) (hlba : f.active.lba < f.totalSectors f.activeDrive) :
    f.doRead = f.setActive
      { f.active with
        sectorBuf := f.sector f.activeDrive f.active.lba
        bufPos := 0
        dataReady := true
        status := kSrDrdy ||| kSrDrq } := by
  obtain ⟨img, himg⟩ := present_iff.1 hpresent
  rw [doRead, sector, himg]
  exact if_neg (Nat.not_le.2 hlba)

theorem activeDrive_writeData (f : Sf2Ide) (val : UInt8) : (f.writeData val).activeDrive = f.activeDrive := by
  rw [writeData]
  dsimp only
  split
  · split
    · rw [doWriteCommit]
      split
      · rfl
      · split <;> rfl
    · rfl
  · rfl

theorem present_writeData (f : Sf2Ide) (val : UInt8) (n : Bool) : (f.writeData val).present n = f.present n := by
  rw [writeData]
  dsimp only
  split
  · split
    · rw [doWriteCommit]
      cases himg : f.img f.activeDrive with
      | none =>
        rw [show (f.setActive (f.active.put val)).img (f.setActive (f.active.put val)).activeDrive = none from himg]
        rfl
      | some img =>
        rw [show (f.setActive (f.active.put val)).img (f.setActive (f.active.put val)).activeDrive = some img from himg]
        dsimp only
        split
        · rfl
        · exact present_of_overwrite himg rfl n
    · rfl
  · rfl

theorem writeCommand_read (f : Sf2Ide) :
    f.writeCommand kCmdReadSectors = (f.setActive { f.active with command := kCmdReadSectors, error := 0 }).doRead := by
  rw [writeCommand, execute, active_setActive]
  rfl

end Sf2Ide

end Koncepcja.Symbiface
