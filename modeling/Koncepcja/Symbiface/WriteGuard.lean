import Koncepcja.Symbiface.Ide

/-!
# Sectors Change under a Write Command

Reads and writes share the buffer, its position and two flags of a drive. WRITE SECTORS clears the flag
of the read phase; READ SECTORS and IDENTIFY leave the flag of the write phase, and so do the commands
that transfer nothing.

## Main results

- `write_guard`: along a run in which nothing is commanded over a write in progress, a sector changes
  only by the 512 bytes written for it, under WRITE SECTORS, while the drive shows DRQ and no error.
- `idleOverWrite_stores`: under IDLE IMMEDIATE given over a write, the bytes still reach the image.
-/

namespace Koncepcja.Symbiface

open Koncepcja.Bytes

set_option maxRecDepth 20000

/-! ## Runs -/

/-- For each drive the last command given to it, and the bytes written to its data register since then,
    or since the last sector it stored. -/
structure IdeLog where
  command : Bool → Option UInt8 := fun _ => none
  data : Bool → List UInt8 := fun _ => []

namespace Sf2Ide

/-- The next data write completes a sector, and the image has it. -/
def Completes (f : Sf2Ide) : Prop :=
  f.active.writePending = true ∧ f.active.bufPos + 1 = 512 ∧ f.active.lba < f.totalSectors f.activeDrive

instance (f : Sf2Ide) : Decidable f.Completes := inferInstanceAs (Decidable (_ ∧ _ ∧ _))

end Sf2Ide

/-- What an access adds to the log. An absent drive takes neither commands nor data. -/
def IdeLog.note (log : IdeLog) (f : Sf2Ide) : IdeAccess → IdeLog
  | .write reg val =>
    if f.present f.activeDrive then
      if (reg &&& 0x07).toNat = 0 then
        { log with
          data := Function.update log.data f.activeDrive
            (if f.Completes then [] else log.data f.activeDrive ++ [val]) }
      else if (reg &&& 0x07).toNat = 7 then
        { command := Function.update log.command f.activeDrive (some val)
          data := Function.update log.data f.activeDrive [] }
      else log
    else log
  | _ => log

def ideOp (s : Sf2Ide × IdeLog) (x : IdeAccess) : Sf2Ide × IdeLog := (s.1.access x, s.2.note s.1 x)

def ideRun (s : Sf2Ide × IdeLog) (xs : List IdeAccess) : Sf2Ide × IdeLog := xs.foldl ideOp s

/-- What is asked of an access `x` that changes sector `k` of drive `n`. -/
structure Authorised (s : Sf2Ide × IdeLog) (x : IdeAccess) (n : Bool) (k : Nat) : Prop where
  command : s.2.command n = some kCmdWriteSectors
  drq : (s.1.ide n).status &&& kSrDrq ≠ 0
  err : (s.1.ide n).status &&& kSrErr = 0
  error : (s.1.ide n).error = 0
  data : ∃ reg val, x = .write reg val ∧ (reg &&& 0x07).toNat = 0 ∧ s.1.activeDrive = n ∧
    (s.2.data n ++ [val]).length = 512 ∧ (s.1.access x).sector n k = s.2.data n ++ [val]

/-- A drive with a write in progress is given no command but WRITE SECTORS; where the write has failed
    with a full buffer, none that loads the buffer again. -/
def CommandOk (f : Sf2Ide) : IdeAccess → Prop
  | .write reg val =>
    (reg &&& 0x07).toNat = 7 → f.present f.activeDrive = true → f.active.writePending = true →
      val ≠ kCmdWriteSectors → 512 ≤ f.active.bufPos ∧ val ≠ kCmdIdentify ∧
        (val = kCmdReadSectors → f.totalSectors f.activeDrive ≤ f.active.lba)
  | _ => True

/-- Every command of a run is so. -/
def CommandsOk : Sf2Ide → List IdeAccess → Prop
  | _, [] => True
  | f, x :: xs => CommandOk f x ∧ CommandsOk (f.access x) xs

/-! ## A drive with a write in progress -/

/-- A write in progress: the command, the status it shows, and where the bytes are. -/
structure Armed (d : IdeDrive) (command : Option UInt8) (data : List UInt8) : Prop where
  command : command = some kCmdWriteSectors
  reading : d.dataReady = false
  status : d.status = kSrDrdy ||| kSrDrq
  error : d.error = 0
  data : data = d.sectorBuf.take d.bufPos

/-- A drive that takes data is armed. -/
structure GuardedDrive (d : IdeDrive) (command : Option UInt8) (data : List UInt8) : Prop where
  length : d.sectorBuf.length = 512
  armed : d.writePending = true → d.bufPos < 512 → Armed d command data

/-- Both drives are guarded. -/
def Guarded (s : Sf2Ide × IdeLog) : Prop := ∀ n, GuardedDrive (s.1.ide n) (s.2.command n) (s.2.data n)

section GuardedDrive

variable {d d' : IdeDrive} {command : Option UInt8} {data : List UInt8}

theorem GuardedDrive.of_idle (hlength : d.sectorBuf.length = 512) (hidle : d.writePending = false) :
    GuardedDrive d command data :=
  ⟨hlength, fun hpending => absurd hpending (by rw [hidle]; exact Bool.false_ne_true)⟩

theorem GuardedDrive.of_full (hlength : d.sectorBuf.length = 512) (hfull : 512 ≤ d.bufPos) :
    GuardedDrive d command data :=
  ⟨hlength, fun _ hpos => absurd hpos (Nat.not_lt.2 hfull)⟩

theorem GuardedDrive.congr (h : GuardedDrive d command data) (hbuf : d'.sectorBuf = d.sectorBuf)
    (hpos : d'.bufPos = d.bufPos) (hpending : d'.writePending = d.writePending) (hreading : d'.dataReady = d.dataReady)
    (hstatus : d'.status = d.status) (herror : d'.error = d.error) : GuardedDrive d' command data where
  length := by rw [hbuf, h.length]
  armed hp hlt := by
    rw [hpending] at hp
    rw [hpos] at hlt
    obtain ⟨hcommand, hr, hs, he, hdata⟩ := h.armed hp hlt
    exact ⟨hcommand, hreading.trans hr, hstatus.trans hs, herror.trans he, by rw [hbuf, hpos, hdata]⟩

theorem Armed.put (h : Armed d command data) (hroom : d.bufPos < d.sectorBuf.length) (val : UInt8) :
    Armed (d.put val) command (data ++ [val]) where
  command := h.command
  reading := h.reading
  status := h.status
  error := h.error
  data := by
    rw [h.data, IdeDrive.put]
    dsimp only
    rw [List.take_add_one, List.take_set_of_le (Nat.le_refl _), List.getElem?_set_self hroom]
    rfl

theorem GuardedDrive.put (h : GuardedDrive d command data) (hpending : d.writePending = true) (hroom : d.bufPos < 512)
    (val : UInt8) : GuardedDrive (d.put val) command (data ++ [val]) where
  length := by
    rw [IdeDrive.put, List.length_set, h.length]
  armed _ _ := (h.armed hpending hroom).put (by rwa [h.length]) val

theorem GuardedDrive.chain (hlength : d.sectorBuf.length = 512) (hcommand : command = some kCmdWriteSectors)
    (hreading : d.dataReady = false) (herror : d.error = 0) : GuardedDrive d.chain command [] := by
  rw [IdeDrive.chain]
  dsimp only
  split
  · exact ⟨hlength, fun _ _ => ⟨hcommand, hreading, rfl, herror, rfl⟩⟩
  · exact .of_idle hlength rfl

end GuardedDrive

/-! ## What an access does to the log -/

section Log

variable {f : Sf2Ide} {log : IdeLog} {reg val : UInt8}

theorem note_data (hpresent : f.present f.activeDrive = true) (hreg : (reg &&& 0x07).toNat = 0) :
    log.note f (.write reg val) =
      { log with
        data := Function.update log.data f.activeDrive
          (if f.Completes then [] else log.data f.activeDrive ++ [val]) } :=
  (if_pos hpresent).trans (if_pos hreg)

theorem note_command (hpresent : f.present f.activeDrive = true) (hreg : (reg &&& 0x07).toNat = 7) :
    log.note f (.write reg val) =
      { command := Function.update log.command f.activeDrive (some val)
        data := Function.update log.data f.activeDrive [] } :=
  (if_pos hpresent).trans ((if_neg (by omega)).trans (if_pos hreg))

theorem note_other (h : f.present f.activeDrive = true → (reg &&& 0x07).toNat ≠ 0 ∧ (reg &&& 0x07).toNat ≠ 7) :
    log.note f (.write reg val) = log := by
  by_cases hpresent : f.present f.activeDrive = true
  · exact (if_pos hpresent).trans ((if_neg (h hpresent).1).trans (if_neg (h hpresent).2))
  · exact if_neg hpresent

theorem Guarded.setActive (h : Guarded (f, log)) {d : IdeDrive} {command : Bool → Option UInt8} {data : Bool → List UInt8}
    (hd : GuardedDrive d (command f.activeDrive) (data f.activeDrive))
    (hother : ∀ n, n ≠ f.activeDrive → command n = log.command n ∧ data n = log.data n) :
    Guarded (f.setActive d, { command, data }) := by
  intro n
  by_cases hn : n = f.activeDrive
  · subst hn
    have hself : (f.setActive d).ide f.activeDrive = d := Sf2Ide.active_setActive
    rw [hself]
    exact hd
  · change GuardedDrive ((f.setActive d).ide n) (command n) (data n)
    rw [Sf2Ide.ide_setActive_of_ne hn, (hother n hn).1, (hother n hn).2]
    exact h n

theorem Guarded.setActive_same (h : Guarded (f, log)) {d : IdeDrive}
    (hd : GuardedDrive d (log.command f.activeDrive) (log.data f.activeDrive)) : Guarded (f.setActive d, log) :=
  h.setActive hd fun _ _ => ⟨rfl, rfl⟩

end Log

/-! ## The identity block -/

theorem length_foldl_ideSetString (wordStart : Nat) (str : List UInt8) (words : List Nat) (buf : List UInt8) :
    (words.foldl (fun buf w => (buf.set ((wordStart + w) * 2) (str.getD (w * 2 + 1) 0x20)).set ((wordStart + w) * 2 + 1)
      (str.getD (w * 2) 0x20)) buf).length = buf.length := by
  induction words generalizing buf with
  | nil => rfl
  | cons w words ih => rw [List.foldl_cons, ih, List.length_set, List.length_set]

@[simp] theorem length_ideSetString (buf : List UInt8) (wordStart wordCount : Nat) (str : List UInt8) :
    (ideSetString buf wordStart wordCount str).length = buf.length :=
  length_foldl_ideSetString wordStart str _ buf

@[simp] theorem length_putWord (buf : List UInt8) (word val : Nat) : (putWord buf word val).length = buf.length :=
  put16le_length buf _ val

theorem length_identity (total : Nat) : (identity total).length = 512 := by
  rw [identity]
  simp only [length_putWord, length_ideSetString, List.length_replicate]

/-! ## What an access preserves -/

section Steps

variable {f : Sf2Ide} {log : IdeLog}

theorem Guarded.active (h : Guarded (f, log)) :
    GuardedDrive f.active (log.command f.activeDrive) (log.data f.activeDrive) := h f.activeDrive

theorem Guarded.idle_of_dataReady (h : Guarded (f, log)) (hreading : f.active.dataReady = true)
    (hroom : f.active.bufPos < 512) : f.active.writePending = false := by
  by_contra hne
  have harmed := h.active.armed (by simpa using hne) hroom
  exact absurd hreading (by rw [harmed.reading]; exact Bool.false_ne_true)

theorem Guarded.doRead (h : Guarded (f, log)) (hidle : f.active.writePending = false) : Guarded (f.doRead, log) := by
  rcases f.doRead_cases with ⟨error, heq⟩ | ⟨block, hlength, _, heq⟩
  · rw [heq]
    exact h.setActive_same (.of_idle h.active.length hidle)
  · rw [heq]
    exact h.setActive_same (.of_idle hlength hidle)

theorem Guarded.nextRead (h : Guarded (f, log)) (hidle : f.active.writePending = false) : Guarded (f.nextRead, log) := by
  rw [Sf2Ide.nextRead]
  dsimp only
  split
  · split
    · refine Guarded.doRead (h.setActive_same (.of_idle h.active.length hidle)) ?_
      rw [Sf2Ide.active_setActive]
      exact hidle
    · exact h.setActive_same (.of_idle h.active.length hidle)
  · exact h.setActive_same (.of_idle h.active.length hidle)

theorem Guarded.readData (h : Guarded (f, log)) : Guarded (f.readData.2, log) := by
  rw [Sf2Ide.readData]
  dsimp only
  split
  · next hready =>
    have hidle := h.idle_of_dataReady hready.1 hready.2
    have hnext : Guarded (f.setActive { f.active with bufPos := f.active.bufPos + 1 }, log) :=
      h.setActive_same (.of_idle h.active.length hidle)
    dsimp only
    split
    · refine hnext.nextRead ?_
      rw [Sf2Ide.active_setActive]
      exact hidle
    · exact hnext
  · exact h

theorem Guarded.setActive_command (h : Guarded (f, log)) (val : UInt8) {d : IdeDrive}
    (hd : GuardedDrive d (some val) []) :
    Guarded (f.setActive d,
      { command := Function.update log.command f.activeDrive (some val)
        data := Function.update log.data f.activeDrive [] }) := by
  refine h.setActive ?_ fun n hn => ⟨Function.update_of_ne hn _ _, Function.update_of_ne hn _ _⟩
  rwa [Function.update_self, Function.update_self]

theorem GuardedDrive.identified (d : IdeDrive) (total : Nat) {command : Option UInt8} {data : List UInt8}
    (hidle : d.writePending = false) :
    GuardedDrive { d with sectorBuf := identity total, bufPos := 0, dataReady := true, status := kSrDrdy ||| kSrDrq }
      command data := by
  refine .of_idle ?_ hidle
  dsimp only
  exact length_identity total

theorem Guarded.writeCommand (h : Guarded (f, log)) {val : UInt8}
    (hok : f.active.writePending = true → val ≠ kCmdWriteSectors → 512 ≤ f.active.bufPos ∧ val ≠ kCmdIdentify ∧
      (val = kCmdReadSectors → f.totalSectors f.activeDrive ≤ f.active.lba)) :
    Guarded (f.writeCommand val,
      { command := Function.update log.command f.activeDrive (some val)
        data := Function.update log.data f.activeDrive [] }) := by
  -- a drive that keeps its buffer under another command has no write in progress, or a full buffer
  have hkeep : val ≠ kCmdWriteSectors → ∀ d : IdeDrive, d.sectorBuf = f.active.sectorBuf → d.bufPos = f.active.bufPos →
      d.writePending = f.active.writePending → GuardedDrive d (some val) [] := by
    intro hne d hbuf hpos hpend
    have hlength : d.sectorBuf.length = 512 := by rw [hbuf, h.active.length]
    cases hp : f.active.writePending with
    | false => exact .of_idle hlength (hpend.trans hp)
    | true => exact .of_full hlength (hpos ▸ (hok hp hne).1)
  rw [Sf2Ide.writeCommand, Sf2Ide.execute, Sf2Ide.active_setActive]
  dsimp only
  by_cases hidentify : val = kCmdIdentify
  · rw [if_pos hidentify, Sf2Ide.doIdentify, Sf2Ide.setActive_setActive, Sf2Ide.active_setActive]
    have hidle : f.active.writePending = false := by
      by_contra hp
      exact (hok (by simpa using hp) (by rw [hidentify]; decide)).2.1 hidentify
    refine h.setActive_command val ?_
    exact GuardedDrive.identified { f.active with command := val, error := 0 } _ hidle
  rw [if_neg hidentify]
  by_cases hread : val = kCmdReadSectors
  · have hne : val ≠ kCmdWriteSectors := by
      rw [hread]
      decide
    rw [if_pos hread]
    rcases (f.setActive { f.active with command := val, error := 0 }).doRead_cases with
      ⟨error, heq⟩ | ⟨block, hlength, hlba, heq⟩
    · rw [heq, Sf2Ide.setActive_setActive, Sf2Ide.active_setActive]
      exact h.setActive_command val (hkeep hne _ rfl rfl rfl)
    · rw [heq, Sf2Ide.setActive_setActive, Sf2Ide.active_setActive]
      rw [Sf2Ide.active_setActive] at hlba
      have hidle : f.active.writePending = false := by
        by_contra hp
        exact Nat.not_le.2 hlba ((hok (by simpa using hp) hne).2.2 hread)
      exact h.setActive_command val (.of_idle hlength hidle)
  rw [if_neg hread]
  by_cases hwrite : val = kCmdWriteSectors
  · rw [if_pos hwrite, Sf2Ide.setActive_setActive]
    exact h.setActive_command val
      ⟨List.length_replicate, fun _ _ => ⟨congrArg some hwrite, rfl, rfl, rfl, rfl⟩⟩
  rw [if_neg hwrite]
  split
  · rw [Sf2Ide.setActive_setActive]
    exact h.setActive_command val (hkeep hwrite _ rfl rfl rfl)
  · rw [Sf2Ide.setActive_setActive]
    exact h.setActive_command val (hkeep hwrite _ rfl rfl rfl)

theorem Guarded.ideWrite_other (h : Guarded (f, log)) {reg : UInt8} (val : UInt8)
    (hreg : f.present f.activeDrive = true → (reg &&& 0x07).toNat ≠ 0 ∧ (reg &&& 0x07).toNat ≠ 7) :
    Guarded (f.ideWrite reg val, log) := by
  obtain ⟨g, hide, _, d, heq, _, hbuf, hpos, hpending, hreading, hstatus, herror⟩ := f.ideWrite_other val hreg
  have hg : Guarded (g, log) := by
    intro n
    change GuardedDrive (g.ide n) _ _
    rw [hide]
    exact h n
  rw [heq]
  exact hg.setActive_same (hg.active.congr hbuf hpos hpending hreading hstatus herror)

theorem Guarded.setActive_data (h : Guarded (f, log)) {data : List UInt8} {d : IdeDrive}
    (hd : GuardedDrive d (log.command f.activeDrive) data) :
    Guarded (f.setActive d, { log with data := Function.update log.data f.activeDrive data }) := by
  refine h.setActive ?_ fun n hn => ⟨rfl, Function.update_of_ne hn _ _⟩
  rwa [Function.update_self]

theorem Guarded.writeData (h : Guarded (f, log)) (hpresent : f.present f.activeDrive = true) (val : UInt8) :
    Guarded (f.writeData val,
      { log with
        data := Function.update log.data f.activeDrive
          (if f.Completes then [] else log.data f.activeDrive ++ [val]) }) := by
  obtain ⟨img, himg⟩ := Sf2Ide.present_iff.1 hpresent
  by_cases hpending : f.active.writePending = true ∧ f.active.bufPos < 512
  · obtain ⟨hp, hroom⟩ := hpending
    have hput := h.active.put hp hroom val
    by_cases hlast : f.active.bufPos + 1 = 512
    · by_cases hlba : f.active.lba < f.totalSectors f.activeDrive
      · -- the sector is stored, and the next one is empty
        obtain ⟨hcommand, hreading, _, herror, _⟩ := h.active.armed hp hroom
        have hchain : Guarded (f.setActive (f.active.put val).chain, _) :=
          h.setActive_data (.chain hput.length hcommand hreading herror)
        rw [if_pos ⟨hp, hlast, hlba⟩, Sf2Ide.writeData_stores val hp hlast himg hlba]
        exact hchain
      · rw [if_neg fun hc => hlba hc.2.2, Sf2Ide.writeData_fails val hp hlast himg (Nat.not_lt.1 hlba)]
        exact h.setActive_data (.of_full hput.length (Nat.le_of_eq hlast.symm))
    · rw [Sf2Ide.writeData_of_lt val hp (by omega), if_neg fun hc => hlast hc.2.1]
      exact h.setActive_data hput
  · rw [Sf2Ide.writeData_ignored val hpending, if_neg fun hc => hpending ⟨hc.1, by have := hc.2.1; omega⟩]
    have hsame := @Guarded.setActive_data _ _ h (log.data f.activeDrive ++ [val]) f.active
      ⟨h.active.length, fun hp hroom => absurd ⟨hp, hroom⟩ hpending⟩
    rwa [Sf2Ide.setActive_active] at hsame

theorem Guarded.boardReset (h : Guarded (f, log)) : Guarded (f.boardReset, log) :=
  fun n => .of_idle (h n).length rfl

theorem Guarded.op {s : Sf2Ide × IdeLog} (h : Guarded s) {x : IdeAccess} (hok : CommandOk s.1 x) :
    Guarded (ideOp s x) := by
  obtain ⟨f, log⟩ := s
  cases x with
  | reset => exact h.boardReset
  | read reg =>
    change Guarded ((f.ideRead reg).2, log)
    rcases f.ideRead_cases reg with heq | heq
    · rwa [heq]
    · rw [heq]
      exact h.readData
  | write reg val =>
    change Guarded (f.ideWrite reg val, log.note f (.write reg val))
    by_cases hpresent : f.present f.activeDrive = true
    · by_cases hdata : (reg &&& 0x07).toNat = 0
      · rw [Sf2Ide.ideWrite_data val hpresent hdata, note_data hpresent hdata]
        exact h.writeData hpresent val
      by_cases hcommand : (reg &&& 0x07).toNat = 7
      · rw [Sf2Ide.ideWrite_command val hpresent hcommand, note_command hpresent hcommand]
        exact h.writeCommand (hok hcommand hpresent)
      rw [note_other fun _ => ⟨hdata, hcommand⟩]
      exact h.ideWrite_other val fun _ => ⟨hdata, hcommand⟩
    · rw [note_other fun hp => absurd hp hpresent]
      exact h.ideWrite_other val fun hp => absurd hp hpresent

theorem Guarded.run {s : Sf2Ide × IdeLog} (h : Guarded s) {xs : List IdeAccess} (hok : CommandsOk s.1 xs) :
    Guarded (ideRun s xs) := by
  induction xs generalizing s with
  | nil => exact h
  | cons x xs ih => exact ih (h.op hok.1) hok.2

theorem guarded_attached (img : Bool → Option (List UInt8)) : Guarded (Sf2Ide.attached img, {}) :=
  fun _ => .of_idle List.length_replicate rfl

end Steps

/-! ## What changes an image -/

namespace Sf2Ide

variable {f : Sf2Ide}

theorem img_writeData_of_not_completes (hpresent : f.present f.activeDrive = true) (h : ¬ f.Completes) (val : UInt8) :
    (f.writeData val).img = f.img := by
  obtain ⟨img, himg⟩ := present_iff.1 hpresent
  by_cases hpending : f.active.writePending = true ∧ f.active.bufPos < 512
  · by_cases hlast : f.active.bufPos + 1 = 512
    · rw [writeData_fails val hpending.1 hlast himg (Nat.not_lt.1 fun hlba => h ⟨hpending.1, hlast, hlba⟩)]
      rfl
    · rw [writeData_of_lt val hpending.1 (by omega)]
      rfl
  · rw [writeData_ignored val hpending]

theorem exists_of_img_access {x : IdeAccess} (h : (f.access x).img ≠ f.img) :
    ∃ reg val, x = .write reg val ∧ (reg &&& 0x07).toNat = 0 ∧ f.present f.activeDrive = true ∧ f.Completes := by
  cases x with
  | reset => exact absurd rfl h
  | read reg =>
    refine absurd ?_ h
    change (f.ideRead reg).2.img = f.img
    rcases f.ideRead_cases reg with heq | heq
    · rw [heq]
    · rw [heq, img_readData]
  | write reg val =>
    have himg : (f.ideWrite reg val).img ≠ f.img := h
    -- Neither a register write nor a command touches an image.
    by_cases hreg : f.present f.activeDrive = true → (reg &&& 0x07).toNat ≠ 0 ∧ (reg &&& 0x07).toNat ≠ 7
    · obtain ⟨g, _, hg, d, heq, _⟩ := f.ideWrite_other val hreg
      exact absurd (by rw [heq, img_setActive, hg]) himg
    · obtain ⟨hpresent, hnot⟩ := Classical.not_imp.1 hreg
      by_cases hdata : (reg &&& 0x07).toNat = 0
      · refine ⟨reg, val, rfl, hdata, hpresent, ?_⟩
        by_contra hcompletes
        rw [ideWrite_data val hpresent hdata] at himg
        exact himg (img_writeData_of_not_completes hpresent hcompletes val)
      · have hcommand : (reg &&& 0x07).toNat = 7 := by
          by_contra hne
          exact hnot ⟨hdata, hne⟩
        rw [ideWrite_command val hpresent hcommand, writeCommand] at himg
        exact absurd (img_execute _) himg

end Sf2Ide

/-! ## The whole of it -/

theorem Guarded.authorised {s : Sf2Ide × IdeLog} (h : Guarded s) {x : IdeAccess} {n : Bool} {k : Nat}
    (hchange : (s.1.access x).sector n k ≠ s.1.sector n k) : Authorised s x n k := by
  obtain ⟨f, log⟩ := s
  have himages : (f.access x).img ≠ f.img := fun heq => hchange (by rw [Sf2Ide.sector, Sf2Ide.sector, heq])
  -- Only the data byte that completes a sector changes an image.
  obtain ⟨reg, val, rfl, hreg, hpresent, hcompletes⟩ := Sf2Ide.exists_of_img_access himages
  obtain ⟨img, himg⟩ := Sf2Ide.present_iff.1 hpresent
  have haccess : f.access (.write reg val) = f.writeData val := Sf2Ide.ideWrite_data val hpresent hreg
  have hroom : f.active.bufPos < 512 := by
    have hlast := hcompletes.2.1
    omega
  have harmed := h.active.armed hcompletes.1 hroom
  have hput := (h.active.put hcompletes.1 hroom val).length
  -- The buffer is the log: all the bytes the host gave since the command.
  have hbuf : log.data f.activeDrive ++ [val] = (f.active.put val).sectorBuf := by
    rw [(harmed.put (by rw [h.active.length]; exact hroom) val).data]
    exact List.take_of_length_le (by rw [hput]; exact Nat.le_of_eq hcompletes.2.1.symm)
  have hsector := Sf2Ide.sector_of_overwrite (g := f.access (.write reg val)) himg
    (by rw [haccess, Sf2Ide.writeData_stores val hcompletes.1 hcompletes.2.1 himg hcompletes.2.2]) hput hcompletes.2.2 n k
  -- The sector written is the one addressed; no other sector changes.
  by_cases hhere : n = f.activeDrive ∧ k = f.active.lba
  · obtain ⟨rfl, rfl⟩ := hhere
    rw [if_pos ⟨rfl, rfl⟩, ← hbuf] at hsector
    refine ⟨harmed.command, ?_, ?_, harmed.error, reg, val, rfl, hreg, rfl, by rw [hbuf, hput], hsector⟩
    · change f.active.status &&& kSrDrq ≠ 0
      rw [harmed.status]
      decide
    · change f.active.status &&& kSrErr = 0
      rw [harmed.status]
      decide
  · rw [if_neg hhere] at hsector
    exact absurd hsector hchange

theorem CommandsOk.append_left {f : Sf2Ide} {xs ys : List IdeAccess} (h : CommandsOk f (xs ++ ys)) : CommandsOk f xs := by
  induction xs generalizing f with
  | nil => trivial
  | cons x xs ih => exact ⟨h.1, ih h.2⟩

/-- From attached images on, along any run of accesses that gives no other command over a write in
    progress: an access that changes a sector finds WRITE SECTORS as the last command of the drive, DRQ
    without an error, and stores the 512 bytes written since that command or the sector before. -/
theorem write_guard (img : Bool → Option (List UInt8)) (xs : List IdeAccess) (x : IdeAccess) (n : Bool) (k : Nat)
    (hok : CommandsOk (Sf2Ide.attached img) (xs ++ [x]))
    (hchange : ((ideRun (Sf2Ide.attached img, {}) xs).1.access x).sector n k ≠
      (ideRun (Sf2Ide.attached img, {}) xs).1.sector n k) :
    Authorised (ideRun (Sf2Ide.attached img, {}) xs) x n k :=
  ((guarded_attached img).run hok.append_left).authorised hchange

/-! ## A sector of data writes -/

/-- Data writes one after another. -/
def dataWrites (vals : List UInt8) : List IdeAccess := vals.map (.write 0)

theorem commandsOk_dataWrites (f : Sf2Ide) (vals : List UInt8) : CommandsOk f (dataWrites vals) := by
  induction vals generalizing f with
  | nil => trivial
  | cons val vals ih => exact ⟨fun hreg => absurd hreg (by decide), ih _⟩

theorem command_ideRun_dataWrites (s : Sf2Ide × IdeLog) (vals : List UInt8) :
    (ideRun s (dataWrites vals)).2.command = s.2.command := by
  induction vals generalizing s with
  | nil => rfl
  | cons val vals ih =>
    refine (ih (ideOp s (.write 0 val))).trans ?_
    by_cases hpresent : s.1.present s.1.activeDrive = true
    · change (s.2.note s.1 (.write 0 val)).command = s.2.command
      rw [note_data hpresent rfl]
    · change (s.2.note s.1 (.write 0 val)).command = s.2.command
      rw [note_other fun hp => absurd hp hpresent]

theorem fst_ideRun_dataWrites {s : Sf2Ide × IdeLog} (hpresent : s.1.present s.1.activeDrive = true)
    (hpending : s.1.active.writePending = true) {vals : List UInt8} (hroom : s.1.active.bufPos + vals.length < 512) :
    (ideRun s (dataWrites vals)).1 = vals.foldl Sf2Ide.writeData s.1 := by
  induction vals generalizing s with
  | nil => rfl
  | cons val vals ih =>
    rw [List.length_cons] at hroom
    have hone : s.1.access (.write 0 val) = s.1.setActive (s.1.active.put val) :=
      (Sf2Ide.ideWrite_data val hpresent rfl).trans (Sf2Ide.writeData_of_lt val hpending (by omega))
    have hstep : (ideOp s (.write 0 val)).1 = s.1.setActive (s.1.active.put val) := hone
    have hrest := ih (s := ideOp s (.write 0 val)) (by rw [hstep]; exact hpresent)
      (by rw [hstep, Sf2Ide.active_setActive]; exact hpending)
      (by
        rw [hstep, Sf2Ide.active_setActive]
        change s.1.active.bufPos + 1 + vals.length < 512
        omega)
    refine hrest.trans ?_
    rw [hstep, List.foldl_cons, Sf2Ide.writeData_of_lt val hpending (by omega)]

theorem sector_changes {s : Sf2Ide × IdeLog} (hpresent : s.1.present s.1.activeDrive = true)
    (hpending : s.1.active.writePending = true) (hpos : s.1.active.bufPos = 0)
    (hbuf : s.1.active.sectorBuf.length = 512) (hlba : s.1.active.lba < s.1.totalSectors s.1.activeDrive)
    {vals : List UInt8} {val : UInt8} (hlen : vals.length = 511)
    (hne : vals ++ [val] ≠ s.1.sector s.1.activeDrive s.1.active.lba) :
    ((ideRun s (dataWrites vals)).1.access (.write 0 val)).sector s.1.activeDrive s.1.active.lba ≠
      (ideRun s (dataWrites vals)).1.sector s.1.activeDrive s.1.active.lba := by
  obtain ⟨img, himg⟩ := Sf2Ide.present_iff.1 hpresent
  have hroom : s.1.active.bufPos + vals.length < 512 := by
    rw [hpos, hlen]
    decide
  -- All bytes but the last only fill the buffer; the last stores it.
  have hbefore := Sf2Ide.foldl_writeData vals hpending hroom hbuf
  have hpresent' : (vals.foldl Sf2Ide.writeData s.1).present (vals.foldl Sf2Ide.writeData s.1).activeDrive = true := by
    rw [hbefore]
    exact hpresent
  have hafter : (vals.foldl Sf2Ide.writeData s.1).access (.write 0 val) = (vals ++ [val]).foldl Sf2Ide.writeData s.1 := by
    rw [List.foldl_append]
    exact Sf2Ide.ideWrite_data val hpresent' rfl
  have htotal := s.1.totalSectors_le s.1.activeDrive
  rw [himg, Option.getD_some] at htotal
  have hstart : s.1.active.lba * 512 ≤ img.length :=
    Nat.le_trans (Nat.le_add_right _ 512) (Nat.le_trans (Sf2Ide.sector_end_le hlba) htotal)
  have hblock : (vals ++ [val]).length = 512 := by
    rw [List.length_append, hlen, List.length_singleton]
  rw [fst_ideRun_dataWrites hpresent hpending hroom, hafter,
    Sf2Ide.foldl_writeData_block hblock hpending hpos hbuf himg hlba, hbefore, Sf2Ide.sector_setActive]
  rw [Sf2Ide.sector]
  dsimp only
  have hself := slice_overwrite_self (vals ++ [val]) hstart
  rw [hblock] at hself
  rwa [Function.update_self, Option.getD_some, hself]

/-- A master of one blank sector, and no slave. -/
def oneSector : Bool → Option (List UInt8)
  | false => some (List.replicate 512 0)
  | true => none

/-- 511 bytes of a sector. -/
def fill : List UInt8 := List.replicate 511 0x55

theorem fill_ne : fill ++ [0x55] ≠ List.replicate 512 0 := by
  decide

/-- The commands of `cmds`, given to the master over `oneSector`. -/
def commanded (cmds : List UInt8) : Sf2Ide × IdeLog :=
  ideRun (Sf2Ide.attached oneSector, {}) (cmds.map (.write 7))

theorem ideRun_commanded (cmd : UInt8) (xs : List IdeAccess) :
    ideRun (Sf2Ide.attached oneSector, {}) (.write 7 cmd :: xs) = ideRun (commanded [cmd]) xs := rfl

theorem commanded_changes {cmds : List UInt8}
    (hcmds : cmds = [kCmdWriteSectors] ∨ cmds = [kCmdWriteSectors, kCmdIdleImmediate]) :
    ((ideRun (commanded cmds) (dataWrites fill)).1.access (.write 0 0x55)).sector false 0 ≠
      (ideRun (commanded cmds) (dataWrites fill)).1.sector false 0 := by
  have hactive : (commanded cmds).1.activeDrive = false := by
    rcases hcmds with rfl | rfl <;> rfl
  have hlba : (commanded cmds).1.active.lba = 0 := by
    rcases hcmds with rfl | rfl <;> decide
  have hsector : (commanded cmds).1.sector false 0 = List.replicate 512 0 := by
    rcases hcmds with rfl | rfl <;> decide
  have hchanges := @sector_changes (commanded cmds) (by rcases hcmds with rfl | rfl <;> decide)
    (by rcases hcmds with rfl | rfl <;> decide) (by rcases hcmds with rfl | rfl <;> decide)
    (by rcases hcmds with rfl | rfl <;> decide) (by rcases hcmds with rfl | rfl <;> decide) fill 0x55
    List.length_replicate (by rw [hactive, hlba, hsector]; exact fill_ne)
  rwa [hactive, hlba] at hchanges

theorem write_guard_oneSector :
    Authorised (ideRun (Sf2Ide.attached oneSector, {}) (.write 7 kCmdWriteSectors :: dataWrites fill)) (.write 0 0x55)
      false 0 := by
  refine write_guard oneSector (.write 7 kCmdWriteSectors :: dataWrites fill) (.write 0 0x55) false 0 ?_ ?_
  · refine ⟨fun _ _ hpending => absurd hpending (by decide), ?_⟩
    have hdata := commandsOk_dataWrites ((Sf2Ide.attached oneSector).access (.write 7 kCmdWriteSectors)) (fill ++ [0x55])
    rwa [dataWrites, List.map_append] at hdata
  · rw [ideRun_commanded]
    exact commanded_changes (.inl rfl)

/-- IDLE IMMEDIATE over a write: the status shows no DRQ any more, and the data still changes the image. -/
theorem idleOverWrite_stores :
    ((ideRun (commanded [kCmdWriteSectors, kCmdIdleImmediate]) (dataWrites fill)).1.access (.write 0 0x55)).sector false 0 ≠
        (ideRun (commanded [kCmdWriteSectors, kCmdIdleImmediate]) (dataWrites fill)).1.sector false 0 ∧
      ¬ Authorised (ideRun (commanded [kCmdWriteSectors, kCmdIdleImmediate]) (dataWrites fill)) (.write 0 0x55) false 0 := by
  refine ⟨commanded_changes (.inr rfl), fun h => ?_⟩
  have hcommand := h.command
  rw [command_ideRun_dataWrites] at hcommand
  exact absurd hcommand (by decide)

end Koncepcja.Symbiface
