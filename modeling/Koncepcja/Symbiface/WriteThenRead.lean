import Koncepcja.Symbiface.Ide

/-!
# Writing Sectors and Reading Them Back

A transfer moves the sector count and the LBA registers of its drive on, sector by sector. In the middle
of it the guest may look at registers, or select the other drive and come back.

## Main results

- `Alike.dataOut`, `Alike.dataIn`: what the guest does aside makes no difference to a transfer.
- `Stored.write`: what WRITE SECTORS leaves in the images.
- `write_then_read`: READ SECTORS returns what WRITE SECTORS was given, and no other sector changes.
-/

namespace Koncepcja.Symbiface

open Koncepcja.Bytes

set_option maxRecDepth 20000

/-- The number of sectors a count register asks for. -/
def sectors (count : UInt8) : Nat := if count = 0 then 256 else count.toNat

/-- The `i`-th sector from `lba` on; 28 bits wrap. -/
def addr (lba i : Nat) : Nat := (lba + i) % 2 ^ 28

theorem addr_succ (lba i : Nat) : addr (addr lba 1) i = addr lba (i + 1) := by
  rw [addr, addr, addr, Nat.mod_add_mod, Nat.add_assoc, Nat.add_comm 1 i]

theorem addr_inj {lba i j : Nat} (hi : i < 2 ^ 28) (hj : j < 2 ^ 28) (h : addr lba i = addr lba j) : i = j := by
  rw [addr, addr] at h
  omega

theorem sectors_pos (count : UInt8) : 0 < sectors count := by
  rw [sectors]
  split
  · decide
  · next h => exact Nat.pos_of_ne_zero fun h0 => h (UInt8.toNat_inj.1 h0)

theorem sectors_le (count : UInt8) : sectors count ≤ 256 := by
  rw [sectors]
  split
  · exact Nat.le_refl _
  · exact Nat.le_of_lt count.toNat_lt

theorem sectors_sub_one {count : UInt8} (h : 0 < count - 1) : sectors (count - 1) + 1 = sectors count := by
  have hne : count - 1 ≠ 0 := fun h0 => by
    rw [h0] at h
    exact absurd h (by decide)
  rw [sectors, sectors, if_neg hne]
  by_cases hzero : count = 0
  · rw [if_pos hzero, hzero]
    rfl
  · rw [if_neg hzero, UInt8.toNat_sub]
    have hpos : 0 < count.toNat := Nat.pos_of_ne_zero fun h0 => hzero (UInt8.toNat_inj.1 h0)
    have hlt := count.toNat_lt
    have hone : (1 : UInt8).toNat = 1 := rfl
    omega

theorem sectors_eq_one {count : UInt8} (h : ¬ 0 < count - 1) : sectors count = 1 := by
  have hzero : count - 1 = 0 := UInt8.le_antisymm (UInt8.not_lt.1 h) (UInt8.zero_le)
  have hone : count = 1 := by
    have hadd := congrArg (· + 1) hzero
    simpa using hadd
  rw [hone]
  rfl

/-! ## What the guest does -/

namespace Sf2Ide

def accesses (f : Sf2Ide) (xs : List IdeAccess) : Sf2Ide := xs.foldl access f

/-- Bytes to the data register, each with what is done aside before it. -/
def dataOut (f : Sf2Ide) (steps : List (List IdeAccess × UInt8)) : Sf2Ide :=
  steps.foldl (fun f step => (f.accesses step.1).ideWrite 0 step.2) f

/-- Reads of the data register, each with what is done aside before it. -/
def dataIn : Sf2Ide → List (List IdeAccess) → List UInt8 × Sf2Ide
  | f, [] => ([], f)
  | f, aside :: rest =>
    let r := (f.accesses aside).ideRead 0
    let last := dataIn r.2 rest
    (r.1 :: last.1, last.2)

/-- WRITE SECTORS and its data. -/
def writeSectors (f : Sf2Ide) (steps : List (List IdeAccess × UInt8)) : Sf2Ide :=
  (f.ideWrite 7 kCmdWriteSectors).dataOut steps

/-- READ SECTORS and its data. -/
def readSectors (f : Sf2Ide) (asides : List (List IdeAccess)) : List UInt8 × Sf2Ide :=
  (f.ideWrite 7 kCmdReadSectors).dataIn asides

end Sf2Ide

/-- An access that takes no part in a transfer of drive `n`: neither data nor a command to it, and no
    data write to the other drive. -/
def Quiet (n : Bool) (f : Sf2Ide) : IdeAccess → Prop
  | .read reg => f.activeDrive = n → (reg &&& 0x07).toNat ≠ 0
  | .write reg _ => (reg &&& 0x07).toNat ≠ 0 ∧ (f.activeDrive = n → (reg &&& 0x07).toNat ≠ 7)
  | .reset => False

def QuietRun (n : Bool) : Sf2Ide → List IdeAccess → Prop
  | _, [] => True
  | f, x :: xs => Quiet n f x ∧ QuietRun n (f.access x) xs

/-- Drive `n` is selected, and its registers ask for `count` sectors from `lba` on. -/
structure Addressed (f : Sf2Ide) (n : Bool) (lba : Nat) (count : UInt8) : Prop where
  selected : f.activeDrive = n
  lba : f.active.lba = lba
  count : f.active.sectorCount = count

/-- What is done aside comes back to drive `n` with the address that was there. -/
structure Aside (n : Bool) (f : Sf2Ide) (xs : List IdeAccess) : Prop where
  quiet : QuietRun n f xs
  back : Addressed (f.accesses xs) n (f.ide n).lba (f.ide n).sectorCount

def AsidesOut (n : Bool) : Sf2Ide → List (List IdeAccess × UInt8) → Prop
  | _, [] => True
  | f, step :: rest => Aside n f step.1 ∧ AsidesOut n ((f.accesses step.1).ideWrite 0 step.2) rest

def AsidesIn (n : Bool) : Sf2Ide → List (List IdeAccess) → Prop
  | _, [] => True
  | f, aside :: rest => Aside n f aside ∧ AsidesIn n ((f.accesses aside).ideRead 0).2 rest

/-! ## What a transfer depends on -/

/-- The part of a drive that a transfer reads and writes. -/
structure Transfer where
  lba : Nat
  sectorCount : UInt8
  command : UInt8
  sectorBuf : List UInt8
  bufPos : Nat
  dataReady : Bool
  writePending : Bool
  deriving DecidableEq, Repr

namespace IdeDrive

def transfer (d : IdeDrive) : Transfer where
  lba := d.lba
  sectorCount := d.sectorCount
  command := d.command
  sectorBuf := d.sectorBuf
  bufPos := d.bufPos
  dataReady := d.dataReady
  writePending := d.writePending

theorem transfer_eq {d d' : IdeDrive} (hlba : d.lba = d'.lba) (hcount : d.sectorCount = d'.sectorCount)
    (hcommand : d.command = d'.command) (hbuf : d.sectorBuf = d'.sectorBuf) (hpos : d.bufPos = d'.bufPos)
    (hready : d.dataReady = d'.dataReady) (hpending : d.writePending = d'.writePending) : d.transfer = d'.transfer := by
  rw [transfer, hlba, hcount, hcommand, hbuf, hpos, hready, hpending]
  rfl

theorem head_nibble (head : UInt8) {x : Nat} (h : x < 16) : (((head &&& 0xF0) ||| UInt8.ofNat x) &&& 0x0F).toNat = x := by
  rw [UInt8.toNat_and, UInt8.toNat_or, UInt8.toNat_and, Nat.and_or_distrib_right, Nat.and_assoc,
    UInt8.toNat_ofNat', Nat.mod_eq_of_lt (by omega)]
  have hlow : x &&& (0x0F : UInt8).toNat = x % 16 := Nat.and_two_pow_sub_one_eq_mod x 4
  rw [hlow, Nat.mod_eq_of_lt h]
  exact (congrArg (· ||| x) (Nat.and_zero head.toNat)).trans (Nat.zero_or x)

theorem lba_setLba (d : IdeDrive) (lba : Nat) : (d.setLba lba).lba = lba % 2 ^ 28 := by
  rw [IdeDrive.lba, setLba]
  dsimp only
  rw [head_nibble _ (Nat.mod_lt _ (by decide)), UInt8.toNat_ofNat', UInt8.toNat_ofNat', UInt8.toNat_ofNat']
  omega

theorem transfer_chain (d : IdeDrive) : d.chain.transfer =
    if 0 < d.sectorCount - 1 then
      { d.transfer with
        lba := addr d.lba 1, sectorCount := d.sectorCount - 1, bufPos := 0, writePending := true }
    else { d.transfer with sectorCount := d.sectorCount - 1, writePending := false } := by
  rw [chain]
  dsimp only
  split
  · rw [transfer]
    have hlba := lba_setLba { d with writePending := false, sectorCount := d.sectorCount - 1 } (d.lba + 1)
    exact congrArg (fun l => ({ transfer d with
      lba := l, sectorCount := d.sectorCount - 1, bufPos := 0, writePending := true } : Transfer)) hlba
  · rfl

end IdeDrive

/-! ## What is done aside -/

/-- The images, and what a transfer of drive `n` keeps between two bytes. -/
structure Kept (n : Bool) (f g : Sf2Ide) : Prop where
  img : g.img = f.img
  command : (g.ide n).command = (f.ide n).command
  sectorBuf : (g.ide n).sectorBuf = (f.ide n).sectorBuf
  bufPos : (g.ide n).bufPos = (f.ide n).bufPos
  dataReady : (g.ide n).dataReady = (f.ide n).dataReady
  writePending : (g.ide n).writePending = (f.ide n).writePending

section Kept

variable {n : Bool} {f g k : Sf2Ide}

theorem Kept.refl (n : Bool) (f : Sf2Ide) : Kept n f f := ⟨rfl, rfl, rfl, rfl, rfl, rfl⟩

theorem Kept.trans (h : Kept n f g) (h' : Kept n g k) : Kept n f k where
  img := h'.img.trans h.img
  command := h'.command.trans h.command
  sectorBuf := h'.sectorBuf.trans h.sectorBuf
  bufPos := h'.bufPos.trans h.bufPos
  dataReady := h'.dataReady.trans h.dataReady
  writePending := h'.writePending.trans h.writePending

theorem Kept.of_ide (himg : g.img = f.img) (hide : g.ide n = f.ide n) : Kept n f g := by
  refine ⟨himg, ?_, ?_, ?_, ?_, ?_⟩ <;> rw [hide]

theorem Kept.setActive {d : IdeDrive} (hcommand : d.command = f.active.command) (hbuf : d.sectorBuf = f.active.sectorBuf)
    (hpos : d.bufPos = f.active.bufPos) (hready : d.dataReady = f.active.dataReady)
    (hpending : d.writePending = f.active.writePending) : Kept n f (f.setActive d) := by
  by_cases hn : n = f.activeDrive
  · subst hn
    have hself : (f.setActive d).ide f.activeDrive = d := Sf2Ide.active_setActive
    refine ⟨rfl, ?_, ?_, ?_, ?_, ?_⟩ <;> rw [hself] <;> assumption
  · exact .of_ide rfl (Sf2Ide.ide_setActive_of_ne hn)

theorem kept_access {x : IdeAccess} (h : Quiet n f x) : Kept n f (f.access x) := by
  cases x with
  | reset => exact h.elim
  | read reg =>
    change Kept n f (f.ideRead reg).2
    by_cases hn : f.activeDrive = n
    · rw [Sf2Ide.ideRead_of_ne (h hn)]
      exact .refl n f
    · rcases f.ideRead_cases reg with heq | heq
      · rw [heq]
        exact .refl n f
      · rw [heq]
        exact .of_ide f.img_readData (Sf2Ide.ide_readData_of_ne (Ne.symm hn))
  | write reg val =>
    change Kept n f (f.ideWrite reg val)
    by_cases hother : f.present f.activeDrive = true → (reg &&& 0x07).toNat ≠ 0 ∧ (reg &&& 0x07).toNat ≠ 7
    · obtain ⟨g, hide, himg, d, heq, hcommand, hbuf, hpos, hpending, hready, _⟩ := f.ideWrite_other val hother
      rw [heq]
      exact (Kept.of_ide himg (congrFun hide n)).trans (.setActive hcommand hbuf hpos hready hpending)
    · -- a command to the other drive
      obtain ⟨hpresent, hnot⟩ := Classical.not_imp.1 hother
      have hreg : (reg &&& 0x07).toNat = 7 := by
        by_contra hne
        exact hnot ⟨h.1, hne⟩
      have hn : n ≠ f.activeDrive := fun hn => h.2 hn.symm hreg
      rw [Sf2Ide.ideWrite_command val hpresent hreg, Sf2Ide.writeCommand]
      refine .of_ide (Sf2Ide.img_execute _) ?_
      rw [Sf2Ide.ide_execute_of_ne (by exact hn), Sf2Ide.ide_setActive_of_ne hn]

theorem QuietRun.kept {xs : List IdeAccess} (h : QuietRun n f xs) : Kept n f (f.accesses xs) := by
  induction xs generalizing f with
  | nil => exact .refl n f
  | cons x xs ih => exact (kept_access h.1).trans (ih h.2)

end Kept

/-! ## Two channels that transfer alike -/

/-- The same drive is selected, over the same images, and its transfer stands at the same place. -/
structure Alike (f g : Sf2Ide) : Prop where
  activeDrive : g.activeDrive = f.activeDrive
  img : g.img = f.img
  transfer : g.active.transfer = f.active.transfer

section Alike

variable {f g : Sf2Ide}

theorem Alike.refl (f : Sf2Ide) : Alike f f := ⟨rfl, rfl, rfl⟩

theorem Alike.trans {k : Sf2Ide} (h : Alike f g) (h' : Alike g k) : Alike f k :=
  ⟨h'.activeDrive.trans h.activeDrive, h'.img.trans h.img, h'.transfer.trans h.transfer⟩

theorem Aside.alike {xs : List IdeAccess} (h : Aside f.activeDrive f xs) : Alike f (f.accesses xs) := by
  have hkept := h.quiet.kept
  have hactive : (f.accesses xs).active = (f.accesses xs).ide f.activeDrive := by rw [Sf2Ide.active, h.back.selected]
  refine ⟨h.back.selected, hkept.img, ?_⟩
  rw [IdeDrive.transfer, h.back.lba, h.back.count, hactive, hkept.command, hkept.sectorBuf, hkept.bufPos,
    hkept.dataReady, hkept.writePending]
  rfl

theorem Alike.setActive (h : Alike f g) {d d' : IdeDrive} (ht : d'.transfer = d.transfer) :
    Alike (f.setActive d) (g.setActive d') :=
  ⟨h.activeDrive, h.img, by rw [Sf2Ide.active_setActive, Sf2Ide.active_setActive, ht]⟩

theorem Alike.present (h : Alike f g) : g.present g.activeDrive = f.present f.activeDrive := by
  rw [Sf2Ide.present, Sf2Ide.present, h.img, h.activeDrive]

theorem Alike.totalSectors (h : Alike f g) : g.totalSectors g.activeDrive = f.totalSectors f.activeDrive := by
  rw [Sf2Ide.totalSectors, Sf2Ide.totalSectors, h.img, h.activeDrive]

theorem Alike.lba (h : Alike f g) : g.active.lba = f.active.lba := congrArg Transfer.lba h.transfer

theorem Alike.sectorCount (h : Alike f g) : g.active.sectorCount = f.active.sectorCount :=
  congrArg Transfer.sectorCount h.transfer

theorem Alike.command (h : Alike f g) : g.active.command = f.active.command := congrArg Transfer.command h.transfer

theorem Alike.sectorBuf (h : Alike f g) : g.active.sectorBuf = f.active.sectorBuf :=
  congrArg Transfer.sectorBuf h.transfer

theorem Alike.bufPos (h : Alike f g) : g.active.bufPos = f.active.bufPos := congrArg Transfer.bufPos h.transfer

theorem Alike.dataReady (h : Alike f g) : g.active.dataReady = f.active.dataReady :=
  congrArg Transfer.dataReady h.transfer

theorem Alike.writePending (h : Alike f g) : g.active.writePending = f.active.writePending :=
  congrArg Transfer.writePending h.transfer

theorem Alike.doRead (h : Alike f g) : Alike f.doRead g.doRead := by
  have hfail : ∀ error, Alike (f.setActive (f.active.fail error)) (g.setActive (g.active.fail error)) :=
    fun error => h.setActive h.transfer
  rw [Sf2Ide.doRead, Sf2Ide.doRead, h.totalSectors, h.img, h.activeDrive, h.lba]
  split
  · exact hfail 0x04
  · split
    · exact hfail 0x10
    · refine h.setActive ?_
      exact IdeDrive.transfer_eq h.lba h.sectorCount h.command rfl rfl rfl h.writePending

theorem Alike.nextRead (h : Alike f g) : Alike f.nextRead g.nextRead := by
  rw [Sf2Ide.nextRead, Sf2Ide.nextRead]
  dsimp only
  rw [h.command, h.sectorCount]
  split
  · split
    · refine Alike.doRead (h.setActive (IdeDrive.transfer_eq ?_ rfl rfl h.sectorBuf h.bufPos rfl h.writePending))
      rw [IdeDrive.lba_setLba, IdeDrive.lba_setLba]
      exact congrArg (fun lba => (lba + 1) % 2 ^ 28) h.lba
    · refine h.setActive ?_
      exact IdeDrive.transfer_eq h.lba rfl rfl h.sectorBuf h.bufPos rfl h.writePending
  · refine h.setActive ?_
    exact IdeDrive.transfer_eq h.lba rfl rfl h.sectorBuf h.bufPos rfl h.writePending

theorem Alike.readData (h : Alike f g) : g.readData.1 = f.readData.1 ∧ Alike f.readData.2 g.readData.2 := by
  rw [Sf2Ide.readData, Sf2Ide.readData]
  dsimp only
  rw [h.sectorBuf, h.bufPos, h.dataReady]
  split
  · refine ⟨rfl, ?_⟩
    dsimp only
    split
    · refine Alike.nextRead (h.setActive ?_)
      exact IdeDrive.transfer_eq h.lba h.sectorCount h.command rfl rfl rfl h.writePending
    · refine h.setActive ?_
      exact IdeDrive.transfer_eq h.lba h.sectorCount h.command rfl rfl rfl h.writePending
  · exact ⟨rfl, h⟩

theorem Alike.put (h : Alike f g) (val : UInt8) : (g.active.put val).transfer = (f.active.put val).transfer := by
  rw [IdeDrive.put, IdeDrive.put, h.sectorBuf, h.bufPos]
  exact IdeDrive.transfer_eq h.lba h.sectorCount h.command rfl rfl h.dataReady h.writePending

theorem Alike.doWriteCommit (h : Alike f g) : Alike f.doWriteCommit g.doWriteCommit := by
  have hfail : ∀ error, Alike (f.setActive (f.active.fail error)) (g.setActive (g.active.fail error)) :=
    fun error => h.setActive h.transfer
  have hchain : g.active.chain.transfer = f.active.chain.transfer := by
    rw [IdeDrive.transfer_chain, IdeDrive.transfer_chain, h.sectorCount, h.lba, h.transfer]
  rw [Sf2Ide.doWriteCommit, Sf2Ide.doWriteCommit, h.totalSectors, h.img, h.activeDrive, h.lba, h.sectorBuf]
  split
  · exact hfail 0x04
  · split
    · exact hfail 0x10
    · exact ⟨h.activeDrive, rfl, (h.setActive hchain).transfer⟩

theorem Alike.writeData (h : Alike f g) (val : UInt8) : Alike (f.writeData val) (g.writeData val) := by
  have hput : Alike (f.setActive (f.active.put val)) (g.setActive (g.active.put val)) := h.setActive (h.put val)
  rw [Sf2Ide.writeData, Sf2Ide.writeData]
  dsimp only
  rw [h.bufPos, h.writePending]
  split
  · split
    · exact hput.doWriteCommit
    · exact hput
  · exact h

theorem Alike.write_aside (h : Alike f g) {xs : List IdeAccess} (hxs : Aside f.activeDrive g xs) (val : UInt8) :
    Alike (f.ideWrite 0 val) ((g.accesses xs).ideWrite 0 val) := by
  have hboth : Alike f (g.accesses xs) := h.trans (Aside.alike (by rwa [h.activeDrive]))
  by_cases hpresent : f.present f.activeDrive = true
  · rw [Sf2Ide.ideWrite_data val hpresent rfl, Sf2Ide.ideWrite_data val (hboth.present.trans hpresent) rfl]
    exact hboth.writeData val
  · rw [Sf2Ide.ideWrite_absent val hpresent (by decide), Sf2Ide.ideWrite_absent val (by rwa [hboth.present]) (by decide)]
    exact hboth

theorem Alike.read_aside (h : Alike f g) {xs : List IdeAccess} (hxs : Aside f.activeDrive g xs)
    (hpresent : f.present f.activeDrive = true) :
    ((g.accesses xs).ideRead 0).1 = f.readData.1 ∧ Alike f.readData.2 ((g.accesses xs).ideRead 0).2 := by
  have hboth : Alike f (g.accesses xs) := h.trans (Aside.alike (by rwa [h.activeDrive]))
  have hread : (g.accesses xs).ideRead 0 = (g.accesses xs).readData := if_pos (hboth.present.trans hpresent)
  rw [hread]
  exact hboth.readData

end Alike

/-! ## Transfers with nothing aside -/

namespace Sf2Ide

variable {f g : Sf2Ide}

/-- The bytes of `count` data reads. -/
def readBytes : Nat → Sf2Ide → List UInt8
  | 0, _ => []
  | count + 1, f => f.readData.1 :: readBytes count f.readData.2

theorem activeDrive_readData (f : Sf2Ide) : f.readData.2.activeDrive = f.activeDrive := by
  rw [readData]
  dsimp only
  split
  · dsimp only
    split
    · rw [nextRead]
      dsimp only
      split
      · split
        · exact activeDrive_doRead _
        · rfl
      · rfl
    · rfl
  · rfl

theorem present_readData (f : Sf2Ide) (n : Bool) : f.readData.2.present n = f.present n := by
  rw [present, present, img_readData]

end Sf2Ide

theorem Alike.dataOut {f g : Sf2Ide} (h : Alike f g) (hpresent : f.present f.activeDrive = true)
    {steps : List (List IdeAccess × UInt8)} (hok : AsidesOut f.activeDrive g steps) :
    Alike ((steps.map Prod.snd).foldl Sf2Ide.writeData f) (g.dataOut steps) := by
  induction steps generalizing f g with
  | nil => exact h
  | cons step steps ih =>
    have hstep := h.write_aside hok.1 step.2
    rw [Sf2Ide.ideWrite_data step.2 hpresent rfl] at hstep
    refine ih hstep ?_ ?_
    · rw [Sf2Ide.activeDrive_writeData, Sf2Ide.present_writeData, hpresent]
    · rw [Sf2Ide.activeDrive_writeData]
      exact hok.2

theorem Alike.dataIn {f g : Sf2Ide} (h : Alike f g) (hpresent : f.present f.activeDrive = true)
    {asides : List (List IdeAccess)} (hok : AsidesIn f.activeDrive g asides) :
    (g.dataIn asides).1 = f.readBytes asides.length ∧ (g.dataIn asides).2.img = g.img := by
  induction asides generalizing f g with
  | nil => exact ⟨rfl, rfl⟩
  | cons aside asides ih =>
    obtain ⟨hbyte, hstep⟩ := h.read_aside hok.1 hpresent
    have hrest := ih hstep (by rw [Sf2Ide.activeDrive_readData, Sf2Ide.present_readData, hpresent])
      (by rw [Sf2Ide.activeDrive_readData]; exact hok.2)
    constructor
    · exact congr (congrArg List.cons hbyte) hrest.1
    · refine hrest.2.trans (hstep.img.trans ?_)
      rw [Sf2Ide.img_readData, h.img]

/-! ## Writing -/

/-- What a transfer of `m` sectors from `lba` on leaves in the images. -/
structure Stored (f g : Sf2Ide) (lba m : Nat) (data : List UInt8) : Prop where
  activeDrive : g.activeDrive = f.activeDrive
  present : ∀ n, g.present n = f.present n
  totalSectors : ∀ n, g.totalSectors n = f.totalSectors n
  written : ∀ i, i < m → g.sector f.activeDrive (addr lba i) = slice data (i * 512) 512
  others : ∀ n k, (n = f.activeDrive → ∀ i, i < m → k ≠ addr lba i) → g.sector n k = f.sector n k

theorem lba_lt (d : IdeDrive) : d.lba < 2 ^ 28 := by
  have hhead : (d.driveHead &&& 0x0F).toNat < 16 := by
    rw [UInt8.toNat_and]
    exact Nat.lt_of_le_of_lt Nat.and_le_right (by decide)
  have hhigh := d.lbaHigh.toNat_lt
  have hmid := d.lbaMid.toNat_lt
  have hlow := d.lbaLow.toNat_lt
  rw [IdeDrive.lba]
  omega

theorem addr_zero {lba : Nat} (h : lba < 2 ^ 28) : addr lba 0 = lba := Nat.mod_eq_of_lt h

theorem Stored.cons {f g k : Sf2Ide} {lba m : Nat} {block data : List UInt8} (hlba : lba < 2 ^ 28) (hm : m < 256)
    (hblock : block.length = 512) (hactive : g.activeDrive = f.activeDrive) (hpresent : ∀ n, g.present n = f.present n)
    (htotal : ∀ n, g.totalSectors n = f.totalSectors n)
    (hsector : ∀ n s, g.sector n s = if n = f.activeDrive ∧ s = lba then block else f.sector n s)
    (h : Stored g k (addr lba 1) m data) : Stored f k lba (m + 1) (block ++ data) where
  activeDrive := h.activeDrive.trans hactive
  present n := (h.present n).trans (hpresent n)
  totalSectors n := (h.totalSectors n).trans (htotal n)
  written i hi := by
    cases i with
    | zero =>
      -- the later sectors are others
      have hother := h.others f.activeDrive lba fun _ j hj heq => by
        rw [addr_succ] at heq
        have := @addr_inj lba 0 (j + 1) (by decide) (by omega) ((addr_zero hlba).trans heq)
        omega
      rw [addr_zero hlba, hother, hsector, if_pos ⟨rfl, rfl⟩, slice, Nat.zero_mul, List.drop_zero,
        List.take_append_of_le_length (Nat.le_of_eq hblock.symm), List.take_of_length_le (Nat.le_of_eq hblock)]
    | succ i =>
      have hwritten := h.written i (by omega)
      rw [addr_succ, hactive] at hwritten
      have hdrop : (block ++ data).drop ((i + 1) * 512) = data.drop (i * 512) := by
        rw [List.drop_append, List.drop_eq_nil_of_le (by rw [hblock]; omega), List.nil_append]
        congr 1
        rw [hblock]
        omega
      rw [hwritten, slice, slice, hdrop]
  others n s hs := by
    rw [h.others n s fun hn i hi => by rw [addr_succ]; exact hs (hn.trans hactive) (i + 1) (by omega), hsector]
    refine if_neg fun hhere => ?_
    have hne := hs hhere.1 0 (Nat.succ_pos m)
    rw [addr_zero hlba] at hne
    exact hne hhere.2

/-- A drive that waits for the data of its sectors. -/
structure Accepting (f : Sf2Ide) : Prop where
  present : f.present f.activeDrive = true
  pending : f.active.writePending = true
  pos : f.active.bufPos = 0
  length : f.active.sectorBuf.length = 512

theorem Accepting.stored {m : Nat} {f : Sf2Ide} {data : List UInt8} (h : Accepting f)
    (hm : m = sectors f.active.sectorCount) (hlen : data.length = 512 * m)
    (hinside : ∀ i, i < m → addr f.active.lba i < f.totalSectors f.activeDrive) :
    Stored f (data.foldl Sf2Ide.writeData f) f.active.lba m data := by
  induction m generalizing f data with
  | zero => exact absurd hm (Nat.ne_of_lt (sectors_pos _))
  | succ m ih =>
    obtain ⟨img, himg⟩ := Sf2Ide.present_iff.1 h.present
    have hlba := lba_lt f.active
    have hsmall : m < 256 := by
      have hle := sectors_le f.active.sectorCount
      omega
    have hfirst : f.active.lba < f.totalSectors f.activeDrive := by
      have h0 := hinside 0 (Nat.succ_pos m)
      rwa [addr_zero hlba] at h0
    have hblock : (data.take 512).length = 512 := by
      rw [List.length_take]
      omega
    have hrest : (data.drop 512).length = 512 * m := by
      rw [List.length_drop]
      omega
    have hstep := Sf2Ide.foldl_writeData_block hblock h.pending h.pos h.length himg hfirst
    generalize hg : (data.take 512).foldl Sf2Ide.writeData f = g at hstep
    have hgimg : g.img = Function.update f.img f.activeDrive (some (overwrite img (f.active.lba * 512) (data.take 512))) := by
      rw [hstep]
    have hactive : g.activeDrive = f.activeDrive := by
      rw [hstep]
      rfl
    have hdrive : g.active = ({ f.active with sectorBuf := data.take 512, bufPos := 512 } : IdeDrive).chain := by
      rw [hstep]
      exact Function.update_self _ _ _
    have hpresent := fun n => Sf2Ide.present_of_overwrite himg hgimg n
    have htotal := fun n => Sf2Ide.totalSectors_of_overwrite himg hgimg hblock hfirst n
    have hchain := IdeDrive.transfer_chain { f.active with sectorBuf := data.take 512, bufPos := 512 }
    rw [← hdrive] at hchain
    have hfold : data.foldl Sf2Ide.writeData f = (data.drop 512).foldl Sf2Ide.writeData g := by
      rw [← hg, ← List.foldl_append, List.take_append_drop]
    have hcons := @Stored.cons f g ((data.drop 512).foldl Sf2Ide.writeData g) _ m _ (data.drop 512) hlba hsmall hblock
      hactive hpresent htotal
      (Sf2Ide.sector_of_overwrite himg hgimg hblock hfirst)
    rw [List.take_append_drop] at hcons
    rw [hfold]
    refine hcons ?_
    by_cases hmore : 0 < f.active.sectorCount - 1
    · -- the drive goes on with the next sector
      rw [if_pos hmore] at hchain
      have hnext : g.active.lba = addr f.active.lba 1 := congrArg Transfer.lba hchain
      have haccepting : Accepting g :=
        ⟨by rw [hactive, hpresent, h.present], congrArg Transfer.writePending hchain, congrArg Transfer.bufPos hchain,
          (congrArg (fun t : Transfer => t.sectorBuf.length) hchain).trans hblock⟩
      have hcount : g.active.sectorCount = f.active.sectorCount - 1 := congrArg Transfer.sectorCount hchain
      have hsectors := sectors_sub_one hmore
      rw [← hnext]
      refine ih haccepting (by rw [hcount]; omega) hrest fun i hi => ?_
      rw [hnext, addr_succ, htotal, hactive]
      exact hinside (i + 1) (by omega)
    · -- it was the last one
      have hone := sectors_eq_one hmore
      obtain rfl : m = 0 := by omega
      rw [List.length_eq_zero_iff.1 hrest]
      exact ⟨rfl, fun _ => rfl, fun _ => rfl, fun i hi => absurd hi (Nat.not_lt_zero i), fun _ _ _ => rfl⟩

/-! ## Reading -/

theorem readBytes_of_lt {f : Sf2Ide} (hready : f.active.dataReady = true) {count : Nat} (rest : Nat)
    (hroom : f.active.bufPos + count < 512) (hlen : f.active.sectorBuf.length = 512) :
    f.readBytes (count + rest) = slice f.active.sectorBuf f.active.bufPos count ++
      (f.setActive { f.active with bufPos := f.active.bufPos + count }).readBytes rest := by
  induction count generalizing f with
  | zero =>
    rw [Nat.zero_add, slice, List.take_zero, List.nil_append]
    exact congrArg (Sf2Ide.readBytes rest) (Sf2Ide.setActive_active f).symm
  | succ count ih =>
    -- Before the last byte of the buffer a read only moves the position.
    have hone : f.readData = (byteAt f.active.sectorBuf f.active.bufPos,
        f.setActive { f.active with bufPos := f.active.bufPos + 1 }) := by
      rw [Sf2Ide.readData]
      dsimp only
      rw [if_pos ⟨hready, by omega⟩, if_neg (by omega)]
    have hnext := ih (f := f.setActive { f.active with bufPos := f.active.bufPos + 1 })
      (by rw [Sf2Ide.active_setActive]; exact hready)
      (by
        rw [Sf2Ide.active_setActive]
        change f.active.bufPos + 1 + count < 512
        omega)
      (by rw [Sf2Ide.active_setActive]; exact hlen)
    have hcons : slice f.active.sectorBuf f.active.bufPos (count + 1) =
        byteAt f.active.sectorBuf f.active.bufPos :: slice f.active.sectorBuf (f.active.bufPos + 1) count := by
      have hin : f.active.bufPos < f.active.sectorBuf.length := by
        rw [hlen]
        omega
      rw [slice, List.drop_eq_getElem_cons hin, List.take_succ_cons, byteAt, List.getD_eq_getElem _ _ hin]
      rfl
    rw [show count + 1 + rest = (count + rest) + 1 by omega, Sf2Ide.readBytes, hone, hnext, Sf2Ide.active_setActive,
      Sf2Ide.setActive_setActive, hcons, List.cons_append]
    dsimp only
    rw [show f.active.bufPos + 1 + count = f.active.bufPos + (count + 1) by omega]

theorem readBytes_sector {f : Sf2Ide} (hready : f.active.dataReady = true) (hpos : f.active.bufPos = 0)
    (hlen : f.active.sectorBuf.length = 512) (rest : Nat) :
    f.readBytes (512 + rest) =
      f.active.sectorBuf ++ (f.setActive { f.active with bufPos := 512 }).nextRead.readBytes rest := by
  have hfirst := @readBytes_of_lt _ hready 511 (rest + 1) (by rw [hpos]; decide) hlen
  have hlast : (f.setActive { f.active with bufPos := 511 }).readData =
      (byteAt f.active.sectorBuf 511, (f.setActive { f.active with bufPos := 512 }).nextRead) := by
    rw [Sf2Ide.readData, Sf2Ide.active_setActive]
    dsimp only
    rw [if_pos ⟨hready, by decide⟩, if_pos (by decide), Sf2Ide.setActive_setActive]
  have hwhole : slice f.active.sectorBuf 0 511 ++ [byteAt f.active.sectorBuf 511] = f.active.sectorBuf := by
    have hin : 511 < f.active.sectorBuf.length := by
      rw [hlen]
      decide
    rw [slice, List.drop_zero, byteAt, List.getD_eq_getElem _ _ hin, List.take_append_getElem hin]
    exact List.take_of_length_le (Nat.le_of_eq hlen)
  rw [hpos, Nat.zero_add] at hfirst
  rw [show 512 + rest = 511 + (rest + 1) by omega, hfirst, Sf2Ide.readBytes, hlast]
  conv_rhs => rw [← hwhole]
  rw [List.append_assoc, List.singleton_append]

/-- A drive that delivers its sectors. -/
structure Delivering (f : Sf2Ide) : Prop where
  present : f.present f.activeDrive = true
  command : f.active.command = kCmdReadSectors
  ready : f.active.dataReady = true
  pos : f.active.bufPos = 0
  buf : f.active.sectorBuf = f.sector f.activeDrive f.active.lba

theorem length_sector {f : Sf2Ide} {n : Bool} {k : Nat} (h : k < f.totalSectors n) : (f.sector n k).length = 512 :=
  slice_length (Nat.le_trans (Sf2Ide.sector_end_le h) (f.totalSectors_le n))

theorem Delivering.next {f : Sf2Ide} (h : Delivering f) (hmore : 0 < f.active.sectorCount - 1)
    (hinside : addr f.active.lba 1 < f.totalSectors f.activeDrive) {g : Sf2Ide}
    (hg : g = (f.setActive { f.active with bufPos := 512 }).nextRead) :
    Delivering g ∧ g.activeDrive = f.activeDrive ∧ g.img = f.img ∧ g.active.lba = addr f.active.lba 1 ∧
      g.active.sectorCount = f.active.sectorCount - 1 := by
  -- The sector has been read: the drive goes on to the next one, as the count says.
  have hnext : (f.setActive { f.active with bufPos := 512 }).nextRead =
      (f.setActive (IdeDrive.setLba
        { f.active with bufPos := 512, dataReady := false, sectorCount := f.active.sectorCount - 1 }
        (f.active.lba + 1))).doRead := by
    rw [Sf2Ide.nextRead, Sf2Ide.active_setActive]
    dsimp only
    rw [if_pos h.command, if_pos hmore, Sf2Ide.setActive_setActive]
    rfl
  have hlba := IdeDrive.lba_setLba
    { f.active with bufPos := 512, dataReady := false, sectorCount := f.active.sectorCount - 1 } (f.active.lba + 1)
  -- `d` is the drive with the next address; only its address matters from here.
  generalize hd : IdeDrive.setLba
    { f.active with bufPos := 512, dataReady := false, sectorCount := f.active.sectorCount - 1 } (f.active.lba + 1) = d
    at hnext hlba
  have hselected : (f.setActive d).active = d := Sf2Ide.active_setActive
  rw [Sf2Ide.doRead_of_lt (f := f.setActive d) h.present (by rw [hselected, hlba]; exact hinside), hselected,
    Sf2Ide.setActive_setActive, ← hg] at hnext
  have hactive : g.active = _ := (congrArg Sf2Ide.active hnext).trans Sf2Ide.active_setActive
  have hdrive : g.activeDrive = f.activeDrive := by
    rw [hnext]
    rfl
  have himg : g.img = f.img := by
    rw [hnext]
    rfl
  have hsame : g.active.lba = addr f.active.lba 1 := by
    rw [hactive]
    exact hlba
  refine ⟨⟨?_, ?_, ?_, ?_, ?_⟩, hdrive, himg, hsame, ?_⟩
  · rw [Sf2Ide.present, himg, hdrive]
    exact h.present
  · rw [hactive, ← hd]
    exact h.command
  · rw [hactive]
  · rw [hactive]
  · rw [hsame, hdrive, Sf2Ide.sector, himg, hactive]
    dsimp only
    rw [hlba]
    rfl
  · rw [hactive, ← hd]
    rfl

theorem Delivering.readBytes {m : Nat} {f : Sf2Ide} (h : Delivering f) (hm : m = sectors f.active.sectorCount)
    (hinside : ∀ i, i < m → addr f.active.lba i < f.totalSectors f.activeDrive) :
    f.readBytes (512 * m) = (List.range m).flatMap fun i => f.sector f.activeDrive (addr f.active.lba i) := by
  induction m generalizing f with
  | zero => rfl
  | succ m ih =>
    have hlba := lba_lt f.active
    have hfirst : f.active.lba < f.totalSectors f.activeDrive := by
      have h0 := hinside 0 (Nat.succ_pos m)
      rwa [addr_zero hlba] at h0
    have hlen : f.active.sectorBuf.length = 512 := by
      rw [h.buf]
      exact length_sector hfirst
    rw [Nat.mul_succ, Nat.add_comm, readBytes_sector h.ready h.pos hlen, List.range_succ_eq_map, List.flatMap_cons,
      List.flatMap_map, addr_zero hlba, ← h.buf]
    congr 1
    by_cases hmore : 0 < f.active.sectorCount - 1
    · -- the drive goes on with the next sector
      have hsectors := sectors_sub_one hmore
      have hmpos : 0 < m := by
        have hpos := sectors_pos (f.active.sectorCount - 1)
        omega
      obtain ⟨hg, hdrive, himg, hnext, hcount⟩ := h.next hmore (hinside 1 (by omega)) rfl
      have htotal : ∀ n, Sf2Ide.totalSectors (f.setActive { f.active with bufPos := 512 }).nextRead n = f.totalSectors n :=
        fun n => by rw [Sf2Ide.totalSectors, himg, Sf2Ide.totalSectors]
      have hrest := ih hg (by rw [hcount]; omega) fun i hi => by
        rw [hnext, addr_succ, htotal, hdrive]
        exact hinside (i + 1) (by omega)
      have hsector : ∀ i, Sf2Ide.sector (f.setActive { f.active with bufPos := 512 }).nextRead f.activeDrive
          (addr f.active.lba (i + 1)) = f.sector f.activeDrive (addr f.active.lba (i + 1)) :=
        fun i => by rw [Sf2Ide.sector, himg, Sf2Ide.sector]
      rw [hrest, hdrive, hnext]
      simp only [addr_succ, hsector, Nat.succ_eq_add_one]
    · -- it was the last one
      have hone := sectors_eq_one hmore
      obtain rfl : m = 0 := by omega
      rfl

/-! ## Whole transfers -/

theorem flatMap_slice (data : List UInt8) {m : Nat} (hlen : data.length = 512 * m) :
    ((List.range m).flatMap fun i => slice data (i * 512) 512) = data := by
  induction m generalizing data with
  | zero => exact (List.length_eq_zero_iff.1 hlen).symm
  | succ m ih =>
    have hrest := ih (data.drop 512) (by rw [List.length_drop]; omega)
    rw [List.range_succ_eq_map, List.flatMap_cons, List.flatMap_map]
    have hslice : ∀ i, slice (data.drop 512) (i * 512) 512 = slice data ((i + 1) * 512) 512 := fun i => by
      rw [slice, slice, List.drop_drop, Nat.succ_mul, Nat.add_comm]
    simp only [hslice] at hrest
    have hfirst : slice data (0 * 512) 512 = data.take 512 := by
      rw [Nat.zero_mul]
      rfl
    rw [hfirst]
    exact (congrArg (data.take 512 ++ ·) hrest).trans (List.take_append_drop 512 data)

theorem sector_congr {f g : Sf2Ide} (h : g.img = f.img) (n : Bool) (k : Nat) : g.sector n k = f.sector n k := by
  rw [Sf2Ide.sector, h, Sf2Ide.sector]

theorem writeSectors_stored {f : Sf2Ide} (hpresent : f.present f.activeDrive = true)
    (hinside : ∀ i, i < sectors f.active.sectorCount → addr f.active.lba i < f.totalSectors f.activeDrive)
    {writes : List (List IdeAccess × UInt8)} (hlen : writes.length = 512 * sectors f.active.sectorCount)
    (hwrites : AsidesOut f.activeDrive (f.ideWrite 7 kCmdWriteSectors) writes) :
    Stored f (f.writeSectors writes) f.active.lba (sectors f.active.sectorCount) (writes.map Prod.snd) := by
  have hcommand := (Sf2Ide.ideWrite_command kCmdWriteSectors hpresent (by decide : (7 &&& 0x07 : UInt8).toNat = 7)).trans f.writeCommand_write
  rw [Sf2Ide.writeSectors]
  generalize hg : f.ideWrite 7 kCmdWriteSectors = g at hcommand hwrites ⊢
  have hactive : g.active = _ := (congrArg Sf2Ide.active hcommand).trans Sf2Ide.active_setActive
  have hdrive : g.activeDrive = f.activeDrive := by
    rw [hcommand]
    rfl
  have himg : g.img = f.img := by
    rw [hcommand]
    rfl
  have hp : ∀ n, g.present n = f.present n := fun n => by rw [Sf2Ide.present, himg, Sf2Ide.present]
  have htotal : ∀ n, g.totalSectors n = f.totalSectors n := fun n => by
    rw [Sf2Ide.totalSectors, himg, Sf2Ide.totalSectors]
  have hlba : g.active.lba = f.active.lba := by
    rw [hactive]
    rfl
  have hcount : g.active.sectorCount = f.active.sectorCount := by
    rw [hactive]
  have haccepting : Accepting g := by
    refine ⟨by rw [hdrive, hp, hpresent], ?_, ?_, ?_⟩
    · rw [hactive]
    · rw [hactive]
    · rw [hactive]
      exact List.length_replicate
  have hstored := @Accepting.stored _ _ (writes.map Prod.snd) haccepting rfl (by rw [List.length_map, hcount, hlen])
    (by rw [hcount, hlba, hdrive, htotal]; exact hinside)
  have halike := (Alike.refl g).dataOut haccepting.present (by rwa [hdrive])
  rw [hlba, hcount] at hstored
  -- what is done aside leaves the images that the plain transfer leaves
  exact
    { activeDrive := halike.activeDrive.trans (hstored.activeDrive.trans hdrive)
      present := fun n => by
        rw [← hp n, ← hstored.present n, Sf2Ide.present, halike.img, Sf2Ide.present]
      totalSectors := fun n => by
        rw [← htotal n, ← hstored.totalSectors n, Sf2Ide.totalSectors, halike.img, Sf2Ide.totalSectors]
      written := fun i hi => by
        rw [sector_congr halike.img, ← hdrive]
        exact hstored.written i hi
      others := fun n k hk => by
        rw [sector_congr halike.img, ← sector_congr himg]
        exact hstored.others n k fun hn => hk (hn.trans hdrive) }

theorem readSectors_eq {f : Sf2Ide} (hpresent : f.present f.activeDrive = true)
    (hinside : ∀ i, i < sectors f.active.sectorCount → addr f.active.lba i < f.totalSectors f.activeDrive)
    {reads : List (List IdeAccess)} (hlen : reads.length = 512 * sectors f.active.sectorCount)
    (hreads : AsidesIn f.activeDrive (f.ideWrite 7 kCmdReadSectors) reads) :
    (f.readSectors reads).1 =
        ((List.range (sectors f.active.sectorCount)).flatMap fun i => f.sector f.activeDrive (addr f.active.lba i)) ∧
      (f.readSectors reads).2.img = f.img := by
  have hfirst : f.active.lba < f.totalSectors f.activeDrive := by
    have h0 := hinside 0 (sectors_pos _)
    rwa [addr_zero (lba_lt _)] at h0
  have hcommand := (Sf2Ide.ideWrite_command kCmdReadSectors hpresent (by decide : (7 &&& 0x07 : UInt8).toNat = 7)).trans f.writeCommand_read
  -- The command itself fetches the first sector.
  rw [Sf2Ide.doRead_of_lt (f := f.setActive { f.active with command := kCmdReadSectors, error := 0 }) hpresent
    (by rw [Sf2Ide.active_setActive]; exact hfirst), Sf2Ide.active_setActive, Sf2Ide.setActive_setActive] at hcommand
  rw [Sf2Ide.readSectors]
  generalize hg : f.ideWrite 7 kCmdReadSectors = g at hcommand hreads ⊢
  have hactive : g.active = _ := (congrArg Sf2Ide.active hcommand).trans Sf2Ide.active_setActive
  have hdrive : g.activeDrive = f.activeDrive := by
    rw [hcommand]
    rfl
  have himg : g.img = f.img := by
    rw [hcommand]
    rfl
  have hlba : g.active.lba = f.active.lba := by
    rw [hactive]
    rfl
  have hcount : g.active.sectorCount = f.active.sectorCount := by
    rw [hactive]
  -- From here each sector is delivered in turn.
  have hdelivering : Delivering g := by
    refine ⟨by rw [Sf2Ide.present, himg, hdrive]; exact hpresent, ?_, ?_, ?_, ?_⟩
    · rw [hactive]
    · rw [hactive]
    · rw [hactive]
    · rw [hlba, hdrive, sector_congr himg, hactive]
      rfl
  have hbytes := hdelivering.readBytes rfl
    (by rw [hcount, hlba, hdrive, Sf2Ide.totalSectors, himg]; exact hinside)
  obtain ⟨hread, hsame⟩ := (Alike.refl g).dataIn hdelivering.present (by rwa [hdrive])
  rw [hcount] at hbytes
  rw [hread, hlen, hbytes, hlba, hdrive]
  refine ⟨?_, hsame.trans himg⟩
  simp only [sector_congr himg]

/-! ## Setting an address up -/

/-- The registers of an address. -/
def setup (head count low mid high : UInt8) : List IdeAccess :=
  [.write 6 head, .write 2 count, .write 3 low, .write 4 mid, .write 5 high]

theorem accesses_setup {f : Sf2Ide} {head : UInt8} (hpresent : f.present ((head >>> 4) &&& 1 == 1) = true)
    (count low mid high : UInt8) : f.accesses (setup head count low mid high) =
      Sf2Ide.setActive { f with activeDrive := (head >>> 4) &&& 1 == 1 }
        { f.ide ((head >>> 4) &&& 1 == 1) with
          driveHead := head, sectorCount := count, lbaLow := low, lbaMid := mid, lbaHigh := high } := by
  have h2 : ∀ (g : Sf2Ide) (val : UInt8), g.present g.activeDrive = true →
      g.ideWrite 2 val = g.setActive { g.active with sectorCount := val } := fun g val hp =>
    (if_neg (by decide)).trans (if_pos hp)
  have h3 : ∀ (g : Sf2Ide) (val : UInt8), g.present g.activeDrive = true →
      g.ideWrite 3 val = g.setActive { g.active with lbaLow := val } := fun g val hp =>
    (if_neg (by decide)).trans (if_pos hp)
  have h4 : ∀ (g : Sf2Ide) (val : UInt8), g.present g.activeDrive = true →
      g.ideWrite 4 val = g.setActive { g.active with lbaMid := val } := fun g val hp =>
    (if_neg (by decide)).trans (if_pos hp)
  have h5 : ∀ (g : Sf2Ide) (val : UInt8), g.present g.activeDrive = true →
      g.ideWrite 5 val = g.setActive { g.active with lbaHigh := val } := fun g val hp =>
    (if_neg (by decide)).trans (if_pos hp)
  rw [setup, Sf2Ide.accesses]
  simp only [List.foldl_cons, List.foldl_nil, Sf2Ide.access]
  have hselect : f.ideWrite 6 head = Sf2Ide.setActive { f with activeDrive := (head >>> 4) &&& 1 == 1 }
      { f.ide ((head >>> 4) &&& 1 == 1) with driveHead := head } := if_pos (by decide)
  rw [hselect, h2 _ count hpresent, h3 _ low hpresent, h4 _ mid hpresent, h5 _ high hpresent]
  simp only [Sf2Ide.setActive_setActive, Sf2Ide.active_setActive]

theorem addressed_setup {f : Sf2Ide} {head : UInt8} {n : Bool} (hn : ((head >>> 4) &&& 1 == 1) = n)
    (hpresent : f.present n = true) (count low mid high : UInt8) :
    Addressed (f.accesses (setup head count low mid high)) n
      ((head &&& 0x0F).toNat * 2 ^ 24 + high.toNat * 2 ^ 16 + mid.toNat * 2 ^ 8 + low.toNat) count := by
  subst hn
  rw [accesses_setup hpresent]
  refine ⟨rfl, ?_, ?_⟩
  · rw [Sf2Ide.active_setActive]
    rfl
  · rw [Sf2Ide.active_setActive]

theorem quietRun_setup (n : Bool) (f : Sf2Ide) (head count low mid high : UInt8) :
    QuietRun n f (setup head count low mid high) :=
  ⟨⟨by decide, fun _ => by decide⟩, ⟨by decide, fun _ => by decide⟩, ⟨by decide, fun _ => by decide⟩,
    ⟨by decide, fun _ => by decide⟩, ⟨by decide, fun _ => by decide⟩, trivial⟩

theorem aside_nil {f : Sf2Ide} {n : Bool} (hn : f.activeDrive = n) : Aside n f [] := by
  subst hn
  exact ⟨trivial, rfl, rfl, rfl⟩

theorem asidesOut_plain {f : Sf2Ide} {n : Bool} (hn : f.activeDrive = n) (hpresent : f.present n = true)
    (vals : List UInt8) : AsidesOut n f (vals.map fun val => ([], val)) := by
  induction vals generalizing f with
  | nil => trivial
  | cons val vals ih =>
    have hdata : f.ideWrite 0 val = f.writeData val := Sf2Ide.ideWrite_data val (by rw [hn, hpresent]) (by decide)
    refine ⟨aside_nil hn, ih ?_ ?_⟩
    · change (f.ideWrite 0 val).activeDrive = n
      rw [hdata, Sf2Ide.activeDrive_writeData, hn]
    · change (f.ideWrite 0 val).present n = true
      rw [hdata, Sf2Ide.present_writeData, hpresent]

theorem asidesIn_plain {f : Sf2Ide} {n : Bool} (hn : f.activeDrive = n) (hpresent : f.present n = true) (count : Nat) :
    AsidesIn n f (List.replicate count []) := by
  induction count generalizing f with
  | zero => trivial
  | succ count ih =>
    have hdata : f.ideRead 0 = f.readData := if_pos (by rw [hn, hpresent])
    refine ⟨aside_nil hn, ih ?_ ?_⟩
    · change (f.ideRead 0).2.activeDrive = n
      rw [hdata, Sf2Ide.activeDrive_readData, hn]
    · change (f.ideRead 0).2.present n = true
      rw [hdata, Sf2Ide.present_readData, hpresent]

theorem ideWrite_read {f : Sf2Ide} {n : Bool} (hn : f.activeDrive = n) (hpresent : f.present n = true) :
    (f.ideWrite 7 kCmdReadSectors).activeDrive = n ∧ (f.ideWrite 7 kCmdReadSectors).present n = true := by
  have hcommand := (Sf2Ide.ideWrite_command kCmdReadSectors (by rw [hn, hpresent])
    (by decide : (7 &&& 0x07 : UInt8).toNat = 7)).trans f.writeCommand_read
  rw [hcommand]
  refine ⟨(Sf2Ide.activeDrive_doRead _).trans hn, ?_⟩
  rw [Sf2Ide.present, Sf2Ide.img_doRead]
  exact hpresent

/-! ## The whole of it -/

/-- WRITE SECTORS with as many bytes as its count asks for, and then READ SECTORS of the same address,
    each with whatever is done aside: the bytes come back, the sectors that were addressed hold them, and
    every other sector of the two images is as it was. -/
theorem write_then_read (f : Sf2Ide) {n : Bool} {lba : Nat} {count : UInt8} (hpresent : f.present n = true)
    (haddr : Addressed f n lba count) (hinside : ∀ i, i < sectors count → addr lba i < f.totalSectors n)
    {writes : List (List IdeAccess × UInt8)} (hlen : writes.length = 512 * sectors count)
    (hwrites : AsidesOut n (f.ideWrite 7 kCmdWriteSectors) writes)
    {between : List IdeAccess} (hbetween : QuietRun n (f.writeSectors writes) between)
    (haddr' : Addressed ((f.writeSectors writes).accesses between) n lba count)
    {reads : List (List IdeAccess)} (hlen' : reads.length = 512 * sectors count)
    (hreads : AsidesIn n (((f.writeSectors writes).accesses between).ideWrite 7 kCmdReadSectors) reads) :
    (((f.writeSectors writes).accesses between).readSectors reads).1 = writes.map Prod.snd ∧
      (∀ i, i < sectors count →
        (((f.writeSectors writes).accesses between).readSectors reads).2.sector n (addr lba i) =
          slice (writes.map Prod.snd) (i * 512) 512) ∧
      ∀ m k, (m = n → ∀ i, i < sectors count → k ≠ addr lba i) →
        (((f.writeSectors writes).accesses between).readSectors reads).2.sector m k = f.sector m k := by
  obtain ⟨rfl, rfl, rfl⟩ := haddr
  have hstored := writeSectors_stored hpresent hinside hlen hwrites
  have himg : ((f.writeSectors writes).accesses between).img = (f.writeSectors writes).img := hbetween.kept.img
  -- `g` is the device behind the writes, and `k` that behind what comes between.
  generalize f.writeSectors writes = g at hstored haddr' hreads himg ⊢
  generalize g.accesses between = k at haddr' hreads himg ⊢
  -- What comes between leaves the image as it is.
  have htotal : k.totalSectors f.activeDrive = f.totalSectors f.activeDrive := by
    rw [← hstored.totalSectors, Sf2Ide.totalSectors, himg, Sf2Ide.totalSectors]
  have hp : k.present f.activeDrive = true := by
    rw [← hpresent, ← hstored.present, Sf2Ide.present, himg, Sf2Ide.present]
  obtain ⟨hbytes, hsame⟩ := @readSectors_eq k (by rw [haddr'.selected]; exact hp)
    (by rw [haddr'.count, haddr'.lba, haddr'.selected, htotal]; exact hinside) reads (by rw [haddr'.count, hlen'])
    (by rw [haddr'.selected]; exact hreads)
  have hsectors : ∀ m s, (k.readSectors reads).2.sector m s = g.sector m s :=
    fun m s => sector_congr (hsame.trans himg) m s
  refine ⟨?_, fun i hi => (hsectors _ _).trans (hstored.written i hi), fun m s hs => (hsectors m s).trans (hstored.others m s hs)⟩
  rw [hbytes, haddr'.count, haddr'.lba, haddr'.selected]
  conv_rhs => rw [← flatMap_slice (writes.map Prod.snd) (m := sectors f.active.sectorCount) (by rw [List.length_map, hlen])]
  refine List.flatMap_congr fun i hi => ?_
  rw [sector_congr himg]
  exact hstored.written i (List.mem_range.1 hi)

/-- A master of two blank sectors, and no slave, with sector 1 addressed. -/
def secondSector : Sf2Ide :=
  (Sf2Ide.attached fun n => if n then none else some (List.replicate 1024 0)).accesses (setup 0xE0 1 1 0 0)

theorem write_then_read_secondSector :
    (((secondSector.writeSectors ((List.replicate 512 0x55).map fun val => ([], val))).accesses
        (setup 0xE0 1 1 0 0)).readSectors (List.replicate 512 [])).1 =
      ((List.replicate 512 (0x55 : UInt8)).map fun val => (([] : List IdeAccess), val)).map Prod.snd := by
  have hpresent : secondSector.present false = true := rfl
  have haddr : Addressed secondSector false 1 1 := addressed_setup rfl rfl 1 1 0 0
  have hcommand := (@Sf2Ide.ideWrite_command secondSector 7 kCmdWriteSectors rfl rfl).trans
    secondSector.writeCommand_write
  have hasides := asidesOut_plain (f := secondSector.ideWrite 7 kCmdWriteSectors) (n := false)
    (by rw [hcommand]; rfl) (by rw [hcommand]; rfl) (List.replicate 512 0x55)
  -- The image of the sample holds two sectors; the second is the one written.
  have hinside : ∀ i, i < sectors 1 → addr 1 i < secondSector.totalSectors false := by
    have htotal : secondSector.totalSectors false = 2 := by
      rw [Sf2Ide.totalSectors, secondSector, (quietRun_setup false _ 0xE0 1 1 0 0).kept.img, Sf2Ide.attached]
      simp
    rw [htotal]
    decide
  have hlen : ((List.replicate 512 (0x55 : UInt8)).map fun val => (([] : List IdeAccess), val)).length = 512 * sectors 1 := by
    rw [List.length_map, List.length_replicate]
    rfl
  have hstored := writeSectors_stored (f := secondSector) hpresent
    (by rw [haddr.count, haddr.lba, haddr.selected]; exact hinside) (by rw [haddr.count]; exact hlen) hasides
  have hthere : (secondSector.writeSectors ((List.replicate 512 0x55).map fun val => ([], val))).present false = true :=
    hstored.present false
  -- The same sector is addressed again, then read.
  have haddr' := @addressed_setup _ 0xE0 false rfl hthere 1 1 0 0
  have hquiet := quietRun_setup false (secondSector.writeSectors ((List.replicate 512 0x55).map fun val => ([], val)))
    0xE0 1 1 0 0
  have hread := ideWrite_read haddr'.selected (by rw [Sf2Ide.present, hquiet.kept.img]; exact hthere)
  exact (write_then_read secondSector hpresent haddr hinside hlen hasides hquiet haddr' List.length_replicate
    (asidesIn_plain hread.1 hread.2 512)).1

end Koncepcja.Symbiface
