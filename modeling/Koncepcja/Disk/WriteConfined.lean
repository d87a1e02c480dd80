import Koncepcja.Disk.DiskWindows

/-!
# Writes Stay in their Track

A WRITE DATA or WRITE DELETED DATA changes only bytes of the addressed sector's own track and the
ST2 byte of its own sector-list entry. The controller follows the windows an image declares, so
this holds while the addressed sector has its place: it starts before its track's data ends, and the
bytes its transfer passes over belong to no other track's block.

## Main results

- `dispatch_ind`: what holds behind every command handler holds behind `dispatch`.
- `changes_writeByte`: where a sector byte lands.
- `known_tick`: one master cycle keeps what is known of a write under way.
- `writes_confined`: in every run, a byte written to a well placed sector is confined to its track.
-/

namespace Koncepcja.Disk

open Koncepcja.Bits Koncepcja.Bytes

set_option maxRecDepth 20000

/-! ## Places on a medium -/

/-- The bytes the transfer of `len` bytes from a sector on passes over: its own, or the whole of the
    track's data where it runs into the end and wraps. -/
def FdcTrack.span (trk : FdcTrack) (sec : FdcSector) (len : Nat) : Nat × Nat :=
  if 0 < len ∧ sec.off + len ≤ trk.dataOff + trk.dataLen then (sec.off, sec.off + len)
  else (trk.dataOff, trk.dataOff + trk.dataLen)

/-- The bytes from `lo` to `hi` lie outside another track's header and data. -/
def FdcTrack.Clear (trk : FdcTrack) (lo hi : Nat) : Prop :=
  trk.dataOff ≠ 0 → hi ≤ trk.dataOff - 0x100 ∨ trk.dataOff + trk.dataLen ≤ lo

/-- What `parse_dsk` does not check of a sector: that it starts before its track's data ends (or behind
    the image, where nothing is written), and that its bytes and its ST2 byte are no other track's. -/
structure Media.Places (m : Media) (slot i : Nat) (sec : FdcSector) (len : Nat) (deleted : Bool) : Prop where
  starts : sec.off < (m.trk slot).dataOff + (m.trk slot).dataLen ∨ m.bytes.length ≤ sec.off
  apart : ∀ q ≠ slot, (m.trk q).Clear ((m.trk slot).span sec len).1 ((m.trk slot).span sec len).2
  mark : deleted = true → ∀ q ≠ slot, (m.trk q).Clear (st2Off (m.trk slot) i) (st2Off (m.trk slot) i + 1)

/-! ## Writes under way -/

namespace FdcState

/-- The medium of a unit. -/
def medium (f : FdcState) (unit : Bool) : Media := (f.drive unit).media

/-- A sector write is under way: its bytes are due, or will be once the data field arrives. -/
def Writing (f : FdcState) : Prop :=
  f.dirToCpu = false ∧ f.code ≠ 0x0D ∧ (f.phase = .exec ∨ f.phase = .busy ∧ f.pending = .dataStart)

/-- The write under way addresses sector `i` of a track: the sector has the ID the command names,
    and the window and the ST2 offset are the track's own. -/
structure Addresses (f : FdcState) (slot i : Nat) (sec : FdcSector) : Prop where
  sector : ((f.medium f.unit).trk slot).sec[i]? = some sec
  id : sec.chrn = f.want
  trkBegin : f.trkBegin = ((f.medium f.unit).trk slot).dataOff
  trkEnd : f.trkEnd = ((f.medium f.unit).trk slot).dataOff + ((f.medium f.unit).trk slot).dataLen
  wrSt2Off : f.wrSt2Off = st2Off ((f.medium f.unit).trk slot) i

/-- What is known of a write under way. A transfer that ends inside the track's data counts its bytes
    from the sector's start; in any other the position stays in the window once it has left the start. -/
structure InFlight (f : FdcState) (slot i : Nat) (sec : FdcSector) : Prop extends f.Addresses slot i sec where
  command : f.code = 0x05 ∨ f.code = 0x09
  fits : 0 < f.xferLen ∧ sec.off + f.xferLen ≤ f.trkEnd →
    f.dataPos + f.remaining = sec.off + f.xferLen ∧ sec.off ≤ f.dataPos ∧ 0 < f.remaining
  pos : f.trkBegin ≤ f.dataPos ∧ f.dataPos ≤ f.trkEnd ∧ (f.dataPos = f.trkEnd → sec.off = f.trkEnd)

/-- A write that is under way addresses a sector. -/
def Accounted (f : FdcState) : Prop := f.Writing → ∃ slot i sec, f.InFlight slot i sec

/-- What is now under way is accounted for, and nothing happened to the media. -/
structure Follows (f g : FdcState) : Prop where
  mediaA : g.driveA.media = f.driveA.media
  mediaB : g.driveB.media = f.driveB.media
  scp : g.flux.scp = f.flux.scp
  writing : g.Accounted

section
variable {f g h : FdcState}

theorem medium_eq (hA : g.driveA.media = f.driveA.media) (hB : g.driveB.media = f.driveB.media) (unit : Bool) :
    g.medium unit = f.medium unit := by
  cases unit
  · exact hA
  · exact hB

theorem not_writing_of_result (hphase : f.phase = .result) : ¬ f.Writing := by
  rintro ⟨-, -, hexec | ⟨hbusy, -⟩⟩
  · exact absurd (hphase.symm.trans hexec) (by decide)
  · exact absurd (hphase.symm.trans hbusy) (by decide)

theorem not_writing_of_cmd (hphase : f.phase = .cmd) : ¬ f.Writing := by
  rintro ⟨-, -, hexec | ⟨hbusy, -⟩⟩
  · exact absurd (hphase.symm.trans hexec) (by decide)
  · exact absurd (hphase.symm.trans hbusy) (by decide)

theorem not_writing_of_busy (hphase : f.phase = .busy) (hpending : f.pending ≠ .dataStart) : ¬ f.Writing := by
  rintro ⟨-, -, hexec | ⟨-, hstart⟩⟩
  · exact absurd (hphase.symm.trans hexec) (by decide)
  · exact hpending hstart

theorem follows_of_not_writing (hA : g.driveA.media = f.driveA.media) (hB : g.driveB.media = f.driveB.media)
    (hscp : g.flux.scp = f.flux.scp) (hw : ¬ g.Writing) : f.Follows g := ⟨hA, hB, hscp, fun h => absurd h hw⟩

theorem Follows.congr_left {f' : FdcState} (hfg : f'.Follows g) (hA : f'.driveA.media = f.driveA.media)
    (hB : f'.driveB.media = f.driveB.media) (hscp : f'.flux.scp = f.flux.scp) : f.Follows g :=
  ⟨hfg.mediaA.trans hA, hfg.mediaB.trans hB, hfg.scp.trans hscp, hfg.writing⟩

/-! ### Flux -/

theorem fetchTrack_scp (f : FdcState) : f.fetchTrack.flux.scp = f.flux.scp := by
  rw [fetchTrack, fetched]
  split
  · exact f.flux.fetch_scp _
  · rfl

theorem servesFlux_of_none (hscp : f.flux.scp = none) : f.servesFlux = false := by
  rw [servesFlux, FluxBack.serves, hscp]
  exact Bool.and_false _

theorem fetchTrack_of_none (hscp : f.flux.scp = none) : f.fetchTrack = f := by
  rw [fetchTrack, fetched, servesFlux_of_none hscp, if_neg fun h => Bool.noConfusion h.1]

theorem promoteTrack_of_none (hscp : f.flux.scp = none) : f.promoteTrack = f := by
  rw [promoteTrack, FluxBack.promote, hscp]
  split <;> rfl

/-! ### Results -/

theorem follows_finishWithStatus (f : FdcState) : f.Follows f.finishWithStatus :=
  follows_of_not_writing rfl rfl rfl (not_writing_of_result rfl)

theorem follows_failNow (f : FdcState) (st1 : UInt8) : f.Follows (f.failNow st1) :=
  follows_of_not_writing rfl rfl rfl (not_writing_of_result rfl)

/-! ### Starting a sector -/

theorem startSector_cases (f : FdcState) (trk : FdcTrack) (toCpu : Bool) :
    (∃ st2, f.startSector trk toCpu = f.noData st2) ∨
    ∃ i rev served j sec st2,
      f.startSector trk toCpu = ((f.foundSector trk toCpu i).serveFrom rev).beginTransfer served toCpu j sec st2 ∧
      (f.servesFlux = false → served = trk ∧ trk.sec[i]? = some sec ∧ sec.chrn = f.want) := by
  cases hscan : scanIds f.want (f.resAt 2) (passing trk (f.nextIdamIndex trk)) with
  | mk found st2 =>
    cases found with
    | none =>
      refine .inl ⟨if st2 &&& 0x02 ≠ 0 then st2 &&& ~~~0x10 else st2, ?_⟩
      rw [startSector, hscan]
    | some x =>
      obtain ⟨i, sec⟩ := x
      obtain ⟨hmem, hid⟩ := scanIds_found hscan
      right
      rw [startSector, hscan]
      dsimp only
      split
      · rename_i hflux
        exact ⟨i, _, _, _, _, _, rfl, fun hnone => Bool.noConfusion (hflux.symm.trans hnone)⟩
      · exact ⟨i, f.serveRev, trk, i, sec, _, rfl, fun _ => ⟨rfl, mem_passing hmem, hid⟩⟩

theorem headTrack_some {slot : Nat} {trk : FdcTrack} (hscp : f.flux.scp = none) (h : f.headTrack = some (slot, trk)) :
    trk = (f.medium f.unit).trk slot ∧ trk.sec ≠ [] := by
  rw [headTrack, servesFlux_of_none hscp] at h
  simp only [Bool.false_eq_true, if_false] at h
  split at h
  · cases h
  · split at h
    · cases h
    · split at h
      · cases h
      · rename_i hsec
        obtain ⟨rfl, rfl⟩ := Prod.mk.inj (Option.some.inj h)
        exact ⟨rfl, hsec⟩

theorem follows_startSector_read (f : FdcState) (trk : FdcTrack) : f.Follows (f.startSector trk true) := by
  rcases startSector_cases f trk true with ⟨st2, heq⟩ | ⟨i, rev, served, j, sec, st2, heq, -⟩
  · rw [heq]
    exact follows_of_not_writing rfl rfl rfl (not_writing_of_busy rfl Pending.noConfusion)
  · rw [heq]
    exact follows_of_not_writing rfl rfl rfl fun hw => Bool.noConfusion hw.1

theorem follows_startSector_write {slot : Nat} {trk : FdcTrack} (hhead : f.headTrack = some (slot, trk))
    (hscp : f.flux.scp = none) (hparsed : (f.medium f.unit).Parsed) (hcode : f.code = 0x05 ∨ f.code = 0x09) :
    f.Follows (f.startSector trk false) := by
  obtain ⟨rfl, hsec⟩ := headTrack_some hscp hhead
  rcases startSector_cases f ((f.medium f.unit).trk slot) false with ⟨st2, heq⟩ | ⟨i, rev, served, j, sec, st2, heq, hfound⟩
  · rw [heq]
    exact follows_of_not_writing rfl rfl rfl (not_writing_of_busy rfl Pending.noConfusion)
  · obtain ⟨rfl, hget, hid⟩ := hfound (servesFlux_of_none hscp)
    obtain ⟨-, -, -, hwindows⟩ := hparsed slot hsec
    obtain ⟨hlo, hhi⟩ := hwindows sec (List.mem_of_getElem? hget)
    rw [heq]
    -- the position is the sector's start, and the counter has all of its bytes
    exact ⟨rfl, rfl, rfl, fun _ => ⟨slot, i, sec, ⟨hget, hid, rfl, rfl, rfl⟩, hcode,
      fun hfits => ⟨rfl, Nat.le_refl _, hfits.1⟩, hlo, hhi, id⟩⟩

theorem follows_chainSector_read (f : FdcState) : f.Follows (f.chainSector true) := by
  rw [chainSector]
  split
  · exact follows_finishWithStatus f
  · split
    · exact (follows_startSector_read f.bumpSector.fetchTrack _).congr_left rfl rfl f.bumpSector.fetchTrack_scp
    · exact (follows_finishWithStatus f.bumpSector.fetchTrack).congr_left rfl rfl f.bumpSector.fetchTrack_scp

theorem follows_chainSector_write (hscp : f.flux.scp = none) (hparsed : (f.medium f.unit).Parsed)
    (hcode : f.code = 0x05 ∨ f.code = 0x09) : f.Follows (f.chainSector false) := by
  have hunit : f.bumpSector.unit = f.unit :=
    congrArg (fun b : UInt8 => decide (b &&& 1 ≠ 0)) (byteAt_set_ne f.cmd _ (by decide))
  have hcode' : f.bumpSector.code = f.code := byteAt_set_ne _ _ (by decide)
  have hmedium : f.bumpSector.medium f.bumpSector.unit = f.medium f.unit := by
    rw [hunit]
    rfl
  rw [chainSector, fetchTrack_of_none (f := f.bumpSector) hscp]
  split
  · exact follows_finishWithStatus f
  · split
    · rename_i slot trk hhead
      exact (follows_startSector_write hhead hscp (hmedium ▸ hparsed) (hcode' ▸ hcode)).congr_left rfl rfl rfl
    · exact (follows_finishWithStatus f.bumpSector).congr_left rfl rfl rfl

/-! ### Commands -/

theorem setDrive_mediaA {unit : Bool} {d : Drive} (h : d.media = f.medium unit) :
    (f.setDrive unit d).driveA.media = f.driveA.media := by
  cases unit
  · exact h
  · rfl

theorem setDrive_mediaB {unit : Bool} {d : Drive} (h : d.media = f.medium unit) :
    (f.setDrive unit d).driveB.media = f.driveB.media := by
  cases unit
  · rfl
  · exact h

theorem follows_cmdSeekTo (f : FdcState) (target : UInt8) : f.Follows (f.cmdSeekTo target) := by
  have hseek : ∀ d : Drive, d.media = f.initStatus.medium f.initStatus.unit →
      f.Follows (f.initStatus.setDrive f.initStatus.unit d).enterCmd := fun d hd =>
    follows_of_not_writing (setDrive_mediaA hd) (setDrive_mediaB hd) rfl (not_writing_of_cmd rfl)
  rw [cmdSeekTo]
  split
  · split
    · exact hseek _ rfl
    · exact hseek _ rfl
  · exact hseek _ rfl

theorem follows_cmdSenseInterrupt (f : FdcState) : f.Follows f.cmdSenseInterrupt := by
  rw [cmdSenseInterrupt]
  split
  · exact follows_of_not_writing rfl rfl rfl (not_writing_of_result rfl)
  · split
    · exact follows_of_not_writing rfl rfl rfl (not_writing_of_result rfl)
    · split
      · exact follows_of_not_writing rfl rfl rfl (not_writing_of_result rfl)
      · split
        · exact follows_of_not_writing rfl rfl rfl (not_writing_of_result rfl)
        · exact follows_of_not_writing rfl rfl rfl (not_writing_of_result rfl)

theorem follows_cmdReadId (f : FdcState) : f.Follows f.cmdReadId := by
  have hscp := f.initStatus.fetchTrack_scp
  rw [cmdReadId]
  split
  · split
    · exact follows_of_not_writing rfl rfl hscp (not_writing_of_busy rfl Pending.noConfusion)
    · exact follows_of_not_writing rfl rfl hscp (not_writing_of_busy rfl Pending.noConfusion)
  · exact follows_of_not_writing rfl rfl rfl (not_writing_of_result rfl)

theorem follows_cmdReadData (f : FdcState) : f.Follows f.cmdReadData := by
  have hscp := f.initStatus.fetchTrack_scp
  rw [cmdReadData]
  split
  · split
    · exact (follows_startSector_read f.initStatus.fetchTrack _).congr_left rfl rfl hscp
    · exact (follows_failNow f.initStatus.fetchTrack 0x01).congr_left rfl rfl hscp
  · exact follows_of_not_writing rfl rfl rfl (not_writing_of_result rfl)

theorem follows_cmdWriteData (hscp : f.flux.scp = none) (hparsed : (f.medium f.unit).Parsed)
    (hcode : f.code = 0x05 ∨ f.code = 0x09) : f.Follows f.cmdWriteData := by
  obtain ⟨g, hg⟩ : ∃ g : FdcState, g = FdcState.initStatus { f with wrDeleted := f.code = 0x09 } := ⟨_, rfl⟩
  have hfg : g.medium g.unit = f.medium f.unit ∧ g.code = f.code ∧ g.flux.scp = none := by
    rw [hg]
    exact ⟨rfl, rfl, hscp⟩
  have hstart : ∀ u, g.Follows u → f.Follows u := fun u hu => by
    rw [hg] at hu
    exact hu.congr_left rfl rfl rfl
  rw [cmdWriteData]
  rw [← hg, promoteTrack_of_none hfg.2.2, fetchTrack_of_none hfg.2.2]
  split
  · split
    · exact hstart _ (follows_failNow g _)
    · split
      · rename_i slot trk hhead
        exact hstart _ (follows_startSector_write hhead hfg.2.2 (hfg.1.symm ▸ hparsed) (hfg.2.1.symm ▸ hcode))
      · exact hstart _ (follows_failNow g _)
  · exact hstart _ (follows_of_not_writing rfl rfl rfl (not_writing_of_result rfl))

theorem follows_cmdFormatTrack (hcode : f.code = 0x0D) : f.Follows f.cmdFormatTrack := by
  rw [cmdFormatTrack]
  split
  · dsimp only
    split
    · exact follows_of_not_writing rfl rfl rfl (not_writing_of_result rfl)
    · exact follows_of_not_writing rfl rfl rfl fun hw => hw.2.1 hcode
  · exact follows_of_not_writing rfl rfl rfl (not_writing_of_result rfl)

/-- What holds behind the handler of every opcode holds behind `dispatch`. -/
theorem dispatch_ind {P : FdcState → Prop} (f : FdcState)
    (recalibrate : f.code = 0x07 → P (f.cmdSeekTo 0)) (seek : f.code = 0x0F → P (f.cmdSeekTo (byteAt f.cmd 2)))
    (specify : f.code = 0x03 → P f.cmdSpecify) (driveStatus : f.code = 0x04 → P f.cmdDriveStatus)
    (write : f.code = 0x05 ∨ f.code = 0x09 → P f.cmdWriteData) (read : f.code = 0x06 → P f.cmdReadData)
    (sense : f.code = 0x08 → P f.cmdSenseInterrupt) (readId : f.code = 0x0A → P f.cmdReadId)
    (readDeleted : f.code = 0x0C → P f.cmdReadDeletedStub) (format : f.code = 0x0D → P f.cmdFormatTrack)
    (other : lookupCmd f.code = none → P f) : P f.dispatch := by
  rw [dispatch]
  refine iteInduction recalibrate fun h07 => ?_
  refine iteInduction seek fun h0F => ?_
  refine iteInduction specify fun h03 => ?_
  refine iteInduction driveStatus fun h04 => ?_
  refine iteInduction write fun h05 => ?_
  refine iteInduction read fun h06 => ?_
  refine iteInduction sense fun h08 => ?_
  refine iteInduction readId fun h0A => ?_
  refine iteInduction readDeleted fun h0C => ?_
  refine iteInduction format fun h0D => ?_
  -- An opcode that no handler takes is not in the table either.
  rw [not_or] at h05
  refine other ?_
  rw [lookupCmd, if_neg h03, if_neg h04, if_neg h05.1, if_neg h06, if_neg h07, if_neg h08, if_neg h05.2, if_neg h0A,
    if_neg h0C, if_neg h0D, if_neg h0F]

theorem follows_dispatch (hphase : f.phase = .cmd) (hscp : f.flux.scp = none) (hparsed : (f.medium f.unit).Parsed) :
    f.Follows f.dispatch := by
  refine dispatch_ind f ?_ ?_ ?_ ?_ ?_ ?_ ?_ ?_ ?_ ?_ ?_
  · exact fun _ => follows_cmdSeekTo f 0
  · exact fun _ => follows_cmdSeekTo f _
  · exact fun _ => follows_of_not_writing rfl rfl rfl (not_writing_of_cmd rfl)
  · exact fun _ => follows_of_not_writing rfl rfl rfl (not_writing_of_result rfl)
  · exact follows_cmdWriteData hscp hparsed
  · exact fun _ => follows_cmdReadData f
  · exact fun _ => follows_cmdSenseInterrupt f
  · exact fun _ => follows_cmdReadId f
  · exact fun _ => follows_of_not_writing rfl rfl rfl (not_writing_of_result rfl)
  · exact follows_cmdFormatTrack
  · exact fun _ => follows_of_not_writing rfl rfl rfl (not_writing_of_cmd hphase)

/-! ### The data register -/

/-- The fields a write under way rests on. -/
structure Kept (f g : FdcState) : Prop where
  mediaA : g.driveA.media = f.driveA.media
  mediaB : g.driveB.media = f.driveB.media
  flux : g.flux = f.flux
  cmd : g.cmd = f.cmd
  dirToCpu : g.dirToCpu = f.dirToCpu
  dataPos : g.dataPos = f.dataPos
  remaining : g.remaining = f.remaining
  trkBegin : g.trkBegin = f.trkBegin
  trkEnd : g.trkEnd = f.trkEnd
  wrSt2Off : g.wrSt2Off = f.wrSt2Off
  wrDeleted : g.wrDeleted = f.wrDeleted

theorem Kept.code (hk : f.Kept g) : g.code = f.code := congrArg (byteAt · 0) hk.cmd

theorem Kept.unit (hk : f.Kept g) : g.unit = f.unit :=
  congrArg (fun cmd => decide (byteAt cmd 1 &&& 1 ≠ 0)) hk.cmd

theorem Kept.want (hk : f.Kept g) : g.want = f.want :=
  congrArg (fun cmd => (⟨byteAt cmd 2, byteAt cmd 3, byteAt cmd 4, byteAt cmd 5⟩ : Chrn)) hk.cmd

theorem Kept.xferLen (hk : f.Kept g) : g.xferLen = f.xferLen :=
  congrArg (fun cmd => xferLength (byteAt cmd 5) (byteAt cmd 8)) hk.cmd

theorem Kept.medium (hk : f.Kept g) : g.medium g.unit = f.medium f.unit := by
  rw [hk.unit]
  exact medium_eq hk.mediaA hk.mediaB f.unit

theorem Kept.refl (f : FdcState) : f.Kept f := ⟨rfl, rfl, rfl, rfl, rfl, rfl, rfl, rfl, rfl, rfl, rfl⟩

theorem Kept.trans (hfg : f.Kept g) (hgh : g.Kept h) : f.Kept h :=
  ⟨hgh.mediaA.trans hfg.mediaA, hgh.mediaB.trans hfg.mediaB, hgh.flux.trans hfg.flux, hgh.cmd.trans hfg.cmd,
    hgh.dirToCpu.trans hfg.dirToCpu, hgh.dataPos.trans hfg.dataPos, hgh.remaining.trans hfg.remaining,
    hgh.trkBegin.trans hfg.trkBegin, hgh.trkEnd.trans hfg.trkEnd, hgh.wrSt2Off.trans hfg.wrSt2Off,
    hgh.wrDeleted.trans hfg.wrDeleted⟩

theorem Kept.symm (hk : f.Kept g) : g.Kept f :=
  ⟨hk.mediaA.symm, hk.mediaB.symm, hk.flux.symm, hk.cmd.symm, hk.dirToCpu.symm, hk.dataPos.symm, hk.remaining.symm,
    hk.trkBegin.symm, hk.trkEnd.symm, hk.wrSt2Off.symm, hk.wrDeleted.symm⟩

theorem Kept.addresses (hk : f.Kept g) {slot i : Nat} {sec : FdcSector} (hf : f.Addresses slot i sec) :
    g.Addresses slot i sec where
  sector := by
    rw [hk.medium]
    exact hf.sector
  id := by
    rw [hk.want]
    exact hf.id
  trkBegin := by
    rw [hk.medium, hk.trkBegin]
    exact hf.trkBegin
  trkEnd := by
    rw [hk.medium, hk.trkEnd]
    exact hf.trkEnd
  wrSt2Off := by
    rw [hk.medium, hk.wrSt2Off]
    exact hf.wrSt2Off

theorem Kept.inFlight (hk : f.Kept g) {slot i : Nat} {sec : FdcSector} (hf : f.InFlight slot i sec) :
    g.InFlight slot i sec where
  toAddresses := hk.addresses hf.toAddresses
  command := by
    rw [hk.code]
    exact hf.command
  fits := by
    rw [hk.xferLen, hk.trkEnd, hk.dataPos, hk.remaining]
    exact hf.fits
  pos := by
    rw [hk.dataPos, hk.trkBegin, hk.trkEnd]
    exact hf.pos

theorem Kept.follows (hk : f.Kept g) (hphase : g.phase = f.phase) (hpending : g.pending = f.pending)
    (hf : f.Accounted) : f.Follows g := by
  refine ⟨hk.mediaA, hk.mediaB, congrArg FluxBack.scp hk.flux, fun hw => ?_⟩
  have hwf : f.Writing := by
    rw [Writing, hk.dirToCpu, hk.code, hphase, hpending] at hw
    exact hw
  obtain ⟨slot, i, sec, hin⟩ := hf hwf
  exact ⟨slot, i, sec, hk.inFlight hin⟩

theorem follows_formatByte (hcode : f.code = 0x0D) (val : UInt8) : f.Follows (f.formatByte val) := by
  rw [formatByte]
  split
  · exact follows_of_not_writing rfl rfl rfl fun hw => hw.2.1 hcode
  · exact follows_of_not_writing rfl rfl rfl fun hw => hw.2.1 hcode

theorem follows_dataWrite (val : UInt8) (hsector : ¬ (f.phase = .exec ∧ f.dirToCpu = false ∧ f.code ≠ 0x0D))
    (hf : f.Accounted) (hscp : f.flux.scp = none) (hparsed : ∀ unit, (f.medium unit).Parsed) :
    f.Follows (f.dataWrite val) := by
  rw [dataWrite]
  by_cases hexec : f.phase = .exec ∧ f.dirToCpu = false
  · have hcode : f.code = 0x0D := by
      by_contra hne
      exact hsector ⟨hexec.1, hexec.2, hne⟩
    rw [if_pos hexec, execWriteByte, if_pos hcode]
    exact follows_formatByte hcode val
  rw [if_neg hexec]
  by_cases hcmd : f.phase = .cmd
  · rw [if_neg (not_not.mpr hcmd)]
    -- a byte of a command: the last one dispatches it
    have hfull : ∀ g : FdcState, g.phase = .cmd → g.driveA = f.driveA → g.driveB = f.driveB → g.flux = f.flux →
        f.Follows g.dispatch := by
      intro g hg hA hB hflux
      have hmedium := medium_eq (congrArg Drive.media hA) (congrArg Drive.media hB) g.unit
      have hdisp := follows_dispatch hg ((congrArg FluxBack.scp hflux).trans hscp) (hmedium ▸ hparsed g.unit)
      exact hdisp.congr_left (congrArg Drive.media hA) (congrArg Drive.media hB) (congrArg FluxBack.scp hflux)
    split
    · dsimp only
      split
      · exact follows_of_not_writing rfl rfl rfl (not_writing_of_result rfl)
      · split
        · exact hfull _ hcmd rfl rfl rfl
        · exact follows_of_not_writing rfl rfl rfl (not_writing_of_cmd hcmd)
    · dsimp only
      split
      · exact hfull _ hcmd rfl rfl rfl
      · exact follows_of_not_writing rfl rfl rfl (not_writing_of_cmd hcmd)
  · rw [if_pos hcmd]
    exact ⟨rfl, rfl, rfl, hf⟩

theorem follows_dataRead (hf : f.Accounted) : f.Follows f.dataRead.2 := by
  rw [dataRead]
  cases hphase : f.phase with
  | exec =>
    dsimp only
    split
    · exact ⟨rfl, rfl, rfl, hf⟩
    · rename_i hdir
      split
      · rw [sectorRead]
        dsimp only
        split
        · exact (follows_finishWithStatus _).congr_left rfl rfl rfl
        · exact (follows_chainSector_read _).congr_left rfl rfl rfl
      · exact follows_of_not_writing rfl rfl rfl fun hw => hdir hw.1
  | result =>
    dsimp only
    split
    · exact follows_of_not_writing rfl rfl rfl (not_writing_of_cmd rfl)
    · exact follows_of_not_writing rfl rfl rfl (not_writing_of_result rfl)
  | cmd => exact ⟨rfl, rfl, rfl, hf⟩
  | busy => exact ⟨rfl, rfl, rfl, hf⟩

/-! ### The byte of a sector -/

/-- A medium changed at most inside a window and at one byte more, that of a Control Mark. -/
structure Within (lo hi : Nat) (deleted : Bool) (st2 : Nat) (m m' : Media) : Prop extends m.Alike m' where
  bytes : ∀ k, byteAt m'.bytes k ≠ byteAt m.bytes k → lo ≤ k ∧ k < hi ∨ deleted = true ∧ k = st2

theorem mapMedia_medium (f : FdcState) (g : Media → Media) : (f.mapMedia g).medium f.unit = g (f.medium f.unit) := by
  rw [mapMedia, medium, FdcState.drive, setDrive]
  cases f.unit <;> rfl

theorem mapMedia_other (f : FdcState) (g : Media → Media) : (f.mapMedia g).medium (!f.unit) = f.medium (!f.unit) := by
  rw [mapMedia, medium, medium, FdcState.drive, FdcState.drive, setDrive]
  cases f.unit <;> rfl

theorem Media.poke_geo (m : Media) (off : Nat) (v : UInt8) : (m.poke off v).geo = m.geo := by
  rw [Media.poke]
  cases m.image with
  | none => rfl
  | some image =>
    dsimp only
    split <;> rfl

theorem Within.trans {lo hi st2 : Nat} {deleted : Bool} {m m' m'' : Media} (h : Within lo hi deleted st2 m m')
    (h' : Within lo hi deleted st2 m' m'') : Within lo hi deleted st2 m m'' := by
  refine ⟨h.toAlike.trans h'.toAlike, fun k hk => ?_⟩
  by_cases hsame : byteAt m'.bytes k = byteAt m.bytes k
  · exact h'.bytes k (hsame.symm ▸ hk)
  · exact h.bytes k hsame

theorem Within.of_bytes_eq {lo hi st2 : Nat} {deleted : Bool} {m m' : Media} (h : m.Alike m')
    (hbytes : m'.bytes = m.bytes) : Within lo hi deleted st2 m m' :=
  ⟨h, fun k hk => absurd (congrArg (byteAt · k) hbytes) hk⟩

theorem Within.poke {lo hi st2 off : Nat} {deleted : Bool} {m : Media} (v : UInt8)
    (hoff : lo ≤ off ∧ off < hi ∨ deleted = true ∧ off = st2 ∨ m.bytes.length ≤ off) :
    Within lo hi deleted st2 m (m.poke off v) := by
  refine ⟨m.poke_alike off v, fun k hk => ?_⟩
  by_cases hk' : k = off
  · subst hk'
    rcases hoff with hin | hst2 | hpast
    · exact .inl hin
    · exact .inr hst2
    · rw [m.poke_past_end v hpast] at hk
      exact absurd rfl hk
  · exact absurd (m.poke_byteAt v hk') hk

/-- A medium changed in the addressed unit only, and the command kept. -/
structure Changes (lo hi : Nat) (f g : FdcState) : Prop where
  within : Within lo hi f.wrDeleted f.wrSt2Off (f.medium f.unit) (g.medium f.unit)
  other : g.medium (!f.unit) = f.medium (!f.unit)
  cmd : g.cmd = f.cmd
  wrSt2Off : g.wrSt2Off = f.wrSt2Off
  wrDeleted : g.wrDeleted = f.wrDeleted
  scp : g.flux.scp = f.flux.scp

theorem unit_eq_of_cmd (hcmd : g.cmd = f.cmd) : g.unit = f.unit :=
  congrArg (fun cmd => decide (byteAt cmd 1 &&& 1 ≠ 0)) hcmd

theorem Changes.trans {lo hi : Nat} (hfg : Changes lo hi f g) (hgh : Changes lo hi g h) : Changes lo hi f h := by
  have hunit := unit_eq_of_cmd hfg.cmd
  have hwithin := hgh.within
  have hother := hgh.other
  rw [hunit, hfg.wrSt2Off, hfg.wrDeleted] at hwithin
  rw [hunit] at hother
  exact ⟨hfg.within.trans hwithin, hother.trans hfg.other, hgh.cmd.trans hfg.cmd, hgh.wrSt2Off.trans hfg.wrSt2Off,
    hgh.wrDeleted.trans hfg.wrDeleted, hgh.scp.trans hfg.scp⟩

theorem Changes.of_media {lo hi : Nat} (hA : g.driveA.media = f.driveA.media) (hB : g.driveB.media = f.driveB.media)
    (hcmd : g.cmd = f.cmd) (hst2 : g.wrSt2Off = f.wrSt2Off) (hdeleted : g.wrDeleted = f.wrDeleted)
    (hscp : g.flux.scp = f.flux.scp) : Changes lo hi f g := by
  refine ⟨?_, medium_eq hA hB _, hcmd, hst2, hdeleted, hscp⟩
  rw [medium_eq hA hB]
  exact .of_bytes_eq (.refl _) rfl

theorem Changes.of_mapMedia {lo hi : Nat} {c : Media → Media}
    (hc : Within lo hi f.wrDeleted f.wrSt2Off (f.medium f.unit) (c (f.medium f.unit))) :
    Changes lo hi f (f.mapMedia c) := by
  refine ⟨?_, mapMedia_other f c, rfl, rfl, rfl, rfl⟩
  rw [mapMedia_medium]
  exact hc

theorem changes_markTable (lo hi : Nat) (f : FdcState) : Changes lo hi f f.markTable := by
  rw [markTable]
  split
  · split
    · split
      · exact .of_media rfl rfl rfl rfl rfl rfl
      · exact .of_mapMedia (.of_bytes_eq (Media.markDeleted_alike _ _ _) rfl)
    · exact .of_media rfl rfl rfl rfl rfl rfl
  · exact .of_media rfl rfl rfl rfl rfl rfl

theorem changes_markImage (lo hi : Nat) {f : FdcState} (hdeleted : f.wrDeleted = true) : Changes lo hi f f.markImage := by
  rw [markImage]
  split
  · exact .of_media rfl rfl rfl rfl rfl rfl
  · exact .of_mapMedia (.poke _ (.inr (.inl ⟨hdeleted, rfl⟩)))

theorem follows_sectorWritten (lo hi : Nat) (hscp : f.flux.scp = none) (hparsed : (f.medium f.unit).Parsed)
    (hcode : f.code = 0x05 ∨ f.code = 0x09) :
    ∃ u : FdcState, Changes lo hi f u ∧ u.Follows f.sectorWritten := by
  have hchain : ∀ u : FdcState, Changes lo hi f u → u.Follows (u.chainSector false) := by
    intro u hu
    refine follows_chainSector_write (hu.scp.trans hscp) ?_ ?_
    · rw [unit_eq_of_cmd hu.cmd]
      exact hu.within.toAlike.parsed hparsed
    · rw [FdcState.code, hu.cmd]
      exact hcode
  have hpast : Changes lo hi f f.pastSector := .of_media rfl rfl rfl rfl rfl rfl
  rw [sectorWritten]
  split
  · rename_i hdeleted
    have hfetch : Changes lo hi f f.pastSector.fetchTrack := .of_media rfl rfl rfl rfl rfl f.pastSector.fetchTrack_scp
    have htable := hfetch.trans (changes_markTable lo hi _)
    have hmark := htable.trans (changes_markImage lo hi (htable.wrDeleted.trans hdeleted))
    exact ⟨_, hmark, hchain _ hmark⟩
  · exact ⟨_, hpast, hchain _ hpast⟩

theorem xferLen_lt (f : FdcState) : f.xferLen < 2 ^ 32 := by
  rw [xferLen, xferLength]
  split
  · split
    · decide
    · exact Nat.lt_trans (UInt8.toNat_lt _) (by decide)
  · have hand : (byteAt f.cmd 5 &&& 7).toNat ≤ 7 := by
      rw [UInt8.toNat_and]
      exact Nat.and_le_right
    rw [Nat.shiftLeft_eq]
    calc 128 * 2 ^ (byteAt f.cmd 5 &&& 7).toNat ≤ 128 * 2 ^ 7 :=
          Nat.mul_le_mul_left _ (Nat.pow_le_pow_right (by decide) hand)
      _ < 2 ^ 32 := by decide

theorem pred32_succ {r : Nat} (hr : r + 1 < 2 ^ 32) : pred32 (r + 1) = r := by
  rw [pred32]
  omega

/-- The bytes a byte of this write may land on, where the addressed sector has its place. -/
def reach (f : FdcState) (slot : Nat) (sec : FdcSector) : Nat × Nat :=
  ((f.medium f.unit).trk slot).span sec f.xferLen

/-- **Where a sector byte lands**: among the bytes its transfer passes over, or behind the image. -/
theorem InFlight.lands {slot i : Nat} {sec : FdcSector} (hin : f.InFlight slot i sec)
    (hstarts : sec.off < f.trkEnd ∨ (f.medium f.unit).bytes.length ≤ sec.off) :
    (f.reach slot sec).1 ≤ f.dataPos ∧ f.dataPos < (f.reach slot sec).2 ∨ (f.medium f.unit).bytes.length ≤ f.dataPos := by
  rw [reach, FdcTrack.span, ← hin.trkEnd, ← hin.trkBegin]
  obtain ⟨hlo, hhi, hstart⟩ := hin.pos
  split
  · -- the counter has bytes left, so the position is before the last one
    rename_i hfits
    obtain ⟨hsum, hge, hpos⟩ := hin.fits hfits
    dsimp only
    omega
  · -- only at its start can the position be the end of the window
    dsimp only
    by_cases hend : f.dataPos = f.trkEnd
    · have hoff := hstart hend
      omega
    · omega

theorem InFlight.next {slot i : Nat} {sec : FdcSector} (hin : f.InFlight slot i sec) (hmore : pred32 f.remaining ≠ 0)
    (hsec : f.trkBegin ≤ sec.off ∧ sec.off ≤ f.trkEnd) :
    (0 < f.xferLen ∧ sec.off + f.xferLen ≤ f.trkEnd →
      f.nextPos + pred32 f.remaining = sec.off + f.xferLen ∧ sec.off ≤ f.nextPos ∧ 0 < pred32 f.remaining) ∧
    f.trkBegin ≤ f.nextPos ∧ f.nextPos ≤ f.trkEnd ∧ (f.nextPos = f.trkEnd → sec.off = f.trkEnd) := by
  obtain ⟨hlo, hhi, hstart⟩ := hin.pos
  constructor
  · intro hfits
    obtain ⟨hsum, hge, hpos⟩ := hin.fits hfits
    have hlen := f.xferLen_lt
    obtain ⟨r, hr⟩ : ∃ r, f.remaining = r + 1 := ⟨f.remaining - 1, by omega⟩
    rw [hr, pred32_succ (by omega)] at hmore ⊢
    -- with a byte to go the window's end is not reached
    rw [nextPos, if_neg (by omega)]
    omega
  · rw [nextPos]
    split <;> omega

/-- **A sector byte** lands in the addressed track's data, or nowhere; with the last byte of a deleted
    sector its ST2 byte changes too. -/
theorem changes_writeByte (val : UInt8) {slot i lo hi : Nat} {sec : FdcSector} (hin : f.InFlight slot i sec)
    (hscp : f.flux.scp = none) (hparsed : (f.medium f.unit).Parsed)
    (hlands : lo ≤ f.dataPos ∧ f.dataPos < hi ∨ (f.medium f.unit).bytes.length ≤ f.dataPos) :
    ∃ u : FdcState, Changes lo hi f u ∧ u.Follows (f.writeByte val) := by
  have hpoke : Changes lo hi f (f.mapMedia fun m => m.poke f.dataPos val) := by
    refine .of_mapMedia (.poke val ?_)
    rcases hlands with hinside | hpast
    · exact .inl hinside
    · exact .inr (.inr hpast)
  have hadv : Changes lo hi f (f.pokeByte val) :=
    ⟨hpoke.within, hpoke.other, hpoke.cmd, hpoke.wrSt2Off, hpoke.wrDeleted, hpoke.scp⟩
  have hunit : (f.pokeByte val).unit = f.unit := unit_eq_of_cmd hadv.cmd
  rw [writeByte]
  split
  · -- the last byte of the sector
    obtain ⟨u, hu, hfollows⟩ := follows_sectorWritten (f := f.pokeByte val) lo hi hscp
      (hunit.symm ▸ hadv.within.toAlike.parsed hparsed) hin.command
    exact ⟨u, hadv.trans hu, hfollows⟩
  · -- the transfer goes on
    rename_i hmore
    refine ⟨_, hadv, rfl, rfl, rfl, fun _ => ⟨slot, i, sec, ?_⟩⟩
    have hgeo : ((f.pokeByte val).medium f.unit).trk = (f.medium f.unit).trk := by
      have hmedium : (f.pokeByte val).medium f.unit = (f.medium f.unit).poke f.dataPos val :=
        mapMedia_medium f fun m => m.poke f.dataPos val
      rw [hmedium]
      funext slot
      rw [Media.trk, Media.poke_geo]
      rfl
    have hne : ((f.medium f.unit).trk slot).sec ≠ [] := fun hnil => by
      have hget := hin.sector
      rw [hnil] at hget
      exact absurd hget (by simp)
    obtain ⟨-, -, -, hsecs⟩ := hparsed slot hne
    have hsec := hsecs sec (List.mem_of_getElem? hin.sector)
    rw [← hin.trkEnd, ← hin.trkBegin] at hsec
    obtain ⟨hfits, hpos⟩ := hin.next hmore hsec
    refine ⟨⟨?_, hin.id, ?_, ?_, ?_⟩, hin.command, hfits, hpos⟩ <;> rw [hunit, hgeo]
    · exact hin.sector
    · exact hin.trkBegin
    · exact hin.trkEnd
    · exact hin.wrSt2Off

/-! ### One cycle -/

theorem Drive.step_media (now : Nat) (d : Drive) : (Drive.step now d).media = d.media := by
  rw [Drive.step]
  split
  · dsimp only
    split <;> rfl
  · rfl

theorem spin_kept (f : FdcState) :
    f.Kept f.spin ∧ f.spin.phase = f.phase ∧ f.spin.pending = f.pending := by
  rw [spin]
  dsimp only
  split
  · exact ⟨⟨rfl, rfl, rfl, rfl, rfl, rfl, rfl, rfl, rfl, rfl, rfl⟩, rfl, rfl⟩
  · split
    · exact ⟨⟨rfl, rfl, rfl, rfl, rfl, rfl, rfl, rfl, rfl, rfl, rfl⟩, rfl, rfl⟩
    · exact ⟨⟨rfl, rfl, rfl, rfl, rfl, rfl, rfl, rfl, rfl, rfl, rfl⟩, rfl, rfl⟩

theorem follows_mechanics (hf : f.Accounted) :
    f.Follows f.mechanics ∧ f.Kept f.mechanics ∧ f.mechanics.phase = f.phase ∧ f.mechanics.pending = f.pending := by
  obtain ⟨hk, hphase, hpending⟩ := spin_kept f
  have hkept : f.Kept f.mechanics :=
    { hk with mediaA := (Drive.step_media _ _).trans hk.mediaA, mediaB := (Drive.step_media _ _).trans hk.mediaB }
  exact ⟨hkept.follows hphase hpending hf, hkept, hphase, hpending⟩

theorem motorWrite_kept (f : FdcState) (on : Bool) :
    f.Kept (f.motorWrite on) ∧ (f.motorWrite on).phase = f.phase ∧ (f.motorWrite on).pending = f.pending := by
  rw [motorWrite]
  dsimp only
  split
  · exact ⟨⟨rfl, rfl, rfl, rfl, rfl, rfl, rfl, rfl, rfl, rfl, rfl⟩, rfl, rfl⟩
  · split
    · exact ⟨⟨rfl, rfl, rfl, rfl, rfl, rfl, rfl, rfl, rfl, rfl, rfl⟩, rfl, rfl⟩
    · exact ⟨⟨rfl, rfl, rfl, rfl, rfl, rfl, rfl, rfl, rfl, rfl, rfl⟩, rfl, rfl⟩

theorem access_cases (b : FdcBus) (f : FdcState) :
    ∃ u : FdcState, f.Kept u ∧ u.phase = f.phase ∧ u.pending = f.pending ∧
      ((f.access b).2 = u ∨ (f.access b).2 = { u.dataRead.2 with outLatch := u.dataRead.1 } ∨
        (f.access b).2 = u.dataWrite b.data) := by
  -- `u` is the state with the strobe noted, and with the motor switched where the write is to its port.
  obtain ⟨p, hp⟩ : ∃ p, p = (b.iorq && !b.m1 && b.addr &&& 0x0480 == 0 && (b.rd || b.wr)) := ⟨_, rfl⟩
  have hu : f.Kept { f with accessPrev := p } := ⟨rfl, rfl, rfl, rfl, rfl, rfl, rfl, rfl, rfl, rfl, rfl⟩
  rw [access]
  dsimp only
  rw [← hp]
  split
  · exact ⟨_, hu, rfl, rfl, .inl rfl⟩
  split
  · dsimp only
    split
    · obtain ⟨hk, hphase, hpending⟩ := motorWrite_kept { f with accessPrev := p } (b.data &&& 0x01 ≠ 0)
      exact ⟨_, hu.trans hk, hphase, hpending, .inl rfl⟩
    · exact ⟨_, hu, rfl, rfl, .inl rfl⟩
  split
  · split
    · exact ⟨_, hu, rfl, rfl, .inl rfl⟩
    · dsimp only
      split
      · exact ⟨_, hu, rfl, rfl, .inr (.inl rfl)⟩
      · exact ⟨_, hu, rfl, rfl, .inl rfl⟩
  split
  · exact ⟨_, hu, rfl, rfl, .inr (.inr rfl)⟩
  · exact ⟨_, hu, rfl, rfl, .inl rfl⟩

/-- The FORMAT TRACK under way rewrites its track when its moment comes. -/
def Formatting (f : FdcState) : Prop := f.phase = .busy ∧ f.pending = .formatDone

theorem follows_completePending (hbusy : f.phase = .busy) (hformat : f.pending ≠ .formatDone) (hf : f.Accounted) :
    f.Follows f.completePending ∧ (f.completePending.phase = .exec → f.Kept f.completePending) := by
  have hresult : ∀ u : FdcState, u.phase = .result → u.driveA.media = f.driveA.media → u.driveB.media = f.driveB.media →
      u.flux.scp = f.flux.scp → f.Follows u ∧ (u.phase = .exec → f.Kept u) := fun u hu hA hB hscp =>
    ⟨follows_of_not_writing hA hB hscp (not_writing_of_result hu), fun hexec => absurd (hu.symm.trans hexec) (by decide)⟩
  rw [completePending]
  cases hpending : f.pending with
  | none => exact hresult _ rfl rfl rfl rfl
  | readId =>
    dsimp only
    rw [readIdDone]
    split
    · split
      · exact hresult _ rfl rfl rfl f.unscheduled.fetchTrack_scp
      · exact hresult _ rfl rfl rfl f.unscheduled.fetchTrack_scp
    · exact hresult _ rfl rfl rfl f.unscheduled.fetchTrack_scp
  | dataStart =>
    have hk : f.Kept f.unscheduled.beginExec := ⟨rfl, rfl, rfl, rfl, rfl, rfl, rfl, rfl, rfl, rfl, rfl⟩
    refine ⟨⟨rfl, rfl, rfl, fun hw => ?_⟩, fun _ => hk⟩
    obtain ⟨slot, i, sec, hin⟩ := hf ⟨hw.1, hw.2.1, .inr ⟨hbusy, hpending⟩⟩
    exact ⟨slot, i, sec, hk.inFlight hin⟩
  | fail => exact hresult _ rfl rfl rfl rfl
  | formatDone => exact absurd hpending hformat

theorem follows_timers (hformat : ¬ f.Formatting) (hf : f.Accounted) :
    f.Follows f.timers ∧ (f.timers.phase = .exec → f.Kept f.timers) := by
  have hdue : ∃ u : FdcState, u = (if f.phase = .busy ∧ f.dueAt ≤ f.now then f.completePending else f) ∧ f.Follows u ∧
      (u.phase = .exec → f.Kept u) := by
    refine ⟨_, rfl, ?_⟩
    split
    · rename_i hbusy
      exact follows_completePending hbusy.1 (fun hp => hformat ⟨hbusy.1, hp⟩) hf
    · exact ⟨⟨rfl, rfl, rfl, hf⟩, fun _ => .refl f⟩
  obtain ⟨u, hu, hfollows, hkept⟩ := hdue
  rw [timers, ← hu]
  split
  · -- the byte was missed
    have hover := follows_finishWithStatus (u.orRes 1 0x10)
    exact ⟨hover.congr_left hfollows.mediaA hfollows.mediaB hfollows.scp, fun hexec => FdcPhase.noConfusion hexec⟩
  · exact ⟨hfollows, hkept⟩

theorem doFormat_cases (f : FdcState) :
    f.doFormat = f.notWritable ∨ ∃ image st0 c h n, f.doFormat = (f.remount image).formatResult st0 c h n := by
  rw [doFormat]
  dsimp only
  split
  · exact .inl rfl
  · split
    · exact .inr ⟨_, _, _, _, _, rfl⟩
    · exact .inl rfl

theorem doFormat_phase (f : FdcState) : f.doFormat.phase = .result := by
  rcases f.doFormat_cases with heq | ⟨image, st0, c, h, n, heq⟩ <;> rw [heq] <;> rfl

theorem remount_medium (f : FdcState) (image : List UInt8) (unit : Bool) :
    (f.remount image).medium unit = if f.unit = unit then { parseMedia image with dirty := true } else f.medium unit := by
  rw [remount, medium, medium, FdcState.drive, setDrive]
  cases f.unit <;> cases unit <;> rfl

theorem formatResult_medium (u : FdcState) (st0 c h n : UInt8) (unit : Bool) :
    (u.formatResult st0 c h n).medium unit = u.medium unit := by
  cases unit <;> rfl

theorem doFormat_parsed (hparsed : ∀ unit, (f.medium unit).Parsed) (unit : Bool) : (f.doFormat.medium unit).Parsed := by
  rcases f.doFormat_cases with heq | ⟨image, st0, c, h, n, heq⟩
  · rw [heq]
    exact hparsed unit
  · rw [heq, formatResult_medium, remount_medium]
    split
    · exact parseMedia_parsed _ true
    · exact hparsed unit

theorem remount_scp (f : FdcState) (image : List UInt8) : (f.remount image).flux.scp = f.flux.scp := by
  rw [remount]
  dsimp only
  split
  · rfl
  · exact f.flux.reparsed_scp _

theorem doFormat_scp (f : FdcState) : f.doFormat.flux.scp = f.flux.scp := by
  rcases f.doFormat_cases with heq | ⟨image, st0, c, h, n, heq⟩
  · rw [heq]
    rfl
  · rw [heq]
    exact f.remount_scp image

theorem timers_formatting (hformat : f.Formatting) : f.timers = f ∨ f.timers = f.unscheduled.doFormat := by
  rw [timers]
  split
  · right
    have hdone : f.completePending = f.unscheduled.doFormat := by rw [completePending, hformat.2]
    rw [hdone, if_neg]
    rw [doFormat_phase]
    exact fun hexec => FdcPhase.noConfusion hexec.1
  · left
    rw [if_neg]
    rw [hformat.1]
    exact fun hexec => FdcPhase.noConfusion hexec.1

/-- What is known in every state of a run over sector images. -/
structure Known (f : FdcState) : Prop where
  scp : f.flux.scp = none
  parsed : ∀ unit, (f.medium unit).Parsed
  writing : f.Accounted

theorem Follows.known (hfg : f.Follows g) (hscp : f.flux.scp = none) (hparsed : ∀ unit, (f.medium unit).Parsed) :
    g.Known :=
  ⟨hfg.scp.trans hscp, fun unit => medium_eq hfg.mediaA hfg.mediaB unit ▸ hparsed unit, hfg.writing⟩

theorem Follows.bytes (hfg : f.Follows g) (unit : Bool) : (g.medium unit).bytes = (f.medium unit).bytes :=
  congrArg Media.bytes (medium_eq hfg.mediaA hfg.mediaB unit)

/-- The sector a byte is due for has its place on the medium, whichever of the table's it may be. -/
def Placed (f : FdcState) : Prop :=
  f.phase = .exec → f.dirToCpu = false → f.code ≠ 0x0D → ∀ slot i sec, f.Addresses slot i sec →
    (f.medium f.unit).Places slot i sec f.xferLen f.wrDeleted

/-- **Confinement**: the images stay as they are, or the byte of a write command changed the image of
    the addressed unit: inside the data of the addressed sector's track and at the ST2 byte of its
    entry, and nothing of another track's header or data. -/
def Confined (f g : FdcState) : Prop :=
  (∀ unit, (g.medium unit).bytes = (f.medium unit).bytes) ∨
  ((f.code = 0x05 ∨ f.code = 0x09) ∧ (g.medium (!f.unit)).bytes = (f.medium (!f.unit)).bytes ∧
    (g.medium f.unit).bytes.length = (f.medium f.unit).bytes.length ∧
    ∃ slot i sec, f.Addresses slot i sec ∧
      ∀ k, byteAt (g.medium f.unit).bytes k ≠ byteAt (f.medium f.unit).bytes k →
        (((f.medium f.unit).trk slot).dataOff ≤ k ∧
            k < ((f.medium f.unit).trk slot).dataOff + ((f.medium f.unit).trk slot).dataLen ∨
          k = st2Off ((f.medium f.unit).trk slot) i) ∧
        ∀ q ≠ slot, ((f.medium f.unit).trk q).dataOff ≠ 0 →
          ¬ (((f.medium f.unit).trk q).dataOff - 0x100 ≤ k ∧
            k < ((f.medium f.unit).trk q).dataOff + ((f.medium f.unit).trk q).dataLen))

theorem InFlight.confined {slot i : Nat} {sec : FdcSector} (hin : f.InFlight slot i sec)
    (hparsed : (f.medium f.unit).Parsed) (hplaces : (f.medium f.unit).Places slot i sec f.xferLen f.wrDeleted)
    (hchanges : Changes (f.reach slot sec).1 (f.reach slot sec).2 f g) : f.Confined g := by
  have hne : ((f.medium f.unit).trk slot).sec ≠ [] := fun hnil => by
    have hget := hin.sector
    rw [hnil] at hget
    exact absurd hget (by simp)
  obtain ⟨-, -, -, hsecs⟩ := hparsed slot hne
  obtain ⟨hlo, -⟩ := hsecs sec (List.mem_of_getElem? hin.sector)
  -- the reach is a part of the track's data
  have hreach : ((f.medium f.unit).trk slot).dataOff ≤ (f.reach slot sec).1 ∧
      (f.reach slot sec).2 ≤ ((f.medium f.unit).trk slot).dataOff + ((f.medium f.unit).trk slot).dataLen := by
    rw [reach, FdcTrack.span]
    split
    · rename_i hfits
      exact ⟨hlo, hfits.2⟩
    · exact ⟨Nat.le_refl _, Nat.le_refl _⟩
  refine .inr ⟨hin.command, congrArg Media.bytes hchanges.other, hchanges.within.length, slot, i, sec, hin.toAddresses,
    fun k hk => ?_⟩
  have hwhere := hchanges.within.bytes k hk
  rw [hin.wrSt2Off] at hwhere
  rcases hwhere with hinside | ⟨hdeleted, rfl⟩
  · refine ⟨.inl (by omega), fun q hq hpresent => ?_⟩
    have hapart := hplaces.apart q hq hpresent
    change (f.reach slot sec).2 ≤ _ ∨ _ ≤ (f.reach slot sec).1 at hapart
    omega
  · refine ⟨.inr rfl, fun q hq hpresent => ?_⟩
    have hmark := hplaces.mark hdeleted q hq hpresent
    omega

theorem Kept.confined (hk : f.Kept g) (hc : g.Confined h) : f.Confined h := by
  have hbytes : ∀ unit, (g.medium unit).bytes = (f.medium unit).bytes := fun unit =>
    congrArg Media.bytes (medium_eq hk.mediaA hk.mediaB unit)
  rcases hc with hsame | ⟨hcode, hother, hlen, slot, i, sec, hin, hbyte⟩
  · exact .inl fun unit => (hsame unit).trans (hbytes unit)
  · rw [hk.medium] at hlen hbyte
    rw [hk.unit] at hother hlen hbyte
    exact .inr ⟨hk.code ▸ hcode, hother.trans (hbytes _), hlen, slot, i, sec, hk.symm.addresses hin, hbyte⟩

theorem known_dataWrite (hk : f.Known) (val : UInt8) :
    (f.dataWrite val).Known ∧
      ((∀ unit, ((f.dataWrite val).medium unit).bytes = (f.medium unit).bytes) ∨
        f.phase = .exec ∧ (f.Placed → f.Confined (f.dataWrite val))) := by
  by_cases hsector : f.phase = .exec ∧ f.dirToCpu = false ∧ f.code ≠ 0x0D
  · obtain ⟨hexec, hdir, hcode⟩ := hsector
    have hwrite : f.dataWrite val = f.writeByte val := by
      rw [dataWrite, if_pos ⟨hexec, hdir⟩, execWriteByte, if_neg hcode]
    obtain ⟨slot, i, sec, hin⟩ := hk.writing ⟨hdir, hcode, .inl hexec⟩
    rw [hwrite]
    refine ⟨?_, .inr ⟨hexec, fun hplaced => ?_⟩⟩
    · -- wherever the byte lands, the windows stay as they are
      have hhere : f.dataPos ≤ f.dataPos ∧ f.dataPos < f.dataPos + 1 := ⟨Nat.le_refl _, Nat.lt_succ_self _⟩
      obtain ⟨u, hchanges, hfollows⟩ := changes_writeByte val hin hk.scp (hk.parsed _) (.inl hhere)
      refine hfollows.known (hchanges.scp.trans hk.scp) fun unit => ?_
      by_cases hunit : unit = f.unit
      · rw [hunit]
        exact hchanges.within.toAlike.parsed (hk.parsed _)
      · have hother : unit = !f.unit := by
          cases unit <;> cases hu : f.unit <;> simp [hu] at hunit ⊢
        rw [hother, hchanges.other]
        exact hk.parsed _
    · have hplaces := hplaced hexec hdir hcode slot i sec hin.toAddresses
      have hstarts := hplaces.starts
      rw [← hin.trkEnd] at hstarts
      obtain ⟨u, hchanges, hfollows⟩ := changes_writeByte val hin hk.scp (hk.parsed _) (hin.lands hstarts)
      have hmedia : (f.writeByte val).medium = u.medium := funext (medium_eq hfollows.mediaA hfollows.mediaB)
      rw [Confined, hmedia]
      exact hin.confined (hk.parsed _) hplaces hchanges
  · have hfollows := follows_dataWrite val hsector hk.writing hk.scp hk.parsed
    exact ⟨hfollows.known hk.scp hk.parsed, .inl hfollows.bytes⟩

theorem Kept.placed (hk : f.Kept g) (hphase : g.phase = f.phase) (hf : f.Placed) : g.Placed := by
  intro hexec hdir hcode slot i sec haddr
  rw [hk.medium, hk.xferLen, hk.wrDeleted]
  exact hf (hphase.symm.trans hexec) (hk.dirToCpu.symm.trans hdir) (hk.code ▸ hcode) slot i sec (hk.symm.addresses haddr)

theorem known_access (hk : f.Known) (b : FdcBus) :
    (f.access b).2.Known ∧
      ((∀ unit, ((f.access b).2.medium unit).bytes = (f.medium unit).bytes) ∨
        f.phase = .exec ∧ (f.Placed → f.Confined (f.access b).2)) := by
  obtain ⟨u, hkept, hphase, hpending, hcases⟩ := access_cases b f
  have hu : f.Follows u := hkept.follows hphase hpending hk.writing
  have huknown : u.Known := hu.known hk.scp hk.parsed
  rcases hcases with heq | heq | heq
  · rw [heq]
    exact ⟨huknown, .inl hu.bytes⟩
  · have hread := follows_dataRead huknown.writing
    have hsame : u.dataRead.2.Kept { u.dataRead.2 with outLatch := u.dataRead.1 } :=
      ⟨rfl, rfl, rfl, rfl, rfl, rfl, rfl, rfl, rfl, rfl, rfl⟩
    have hlatch : u.Follows { u.dataRead.2 with outLatch := u.dataRead.1 } :=
      (hsame.follows rfl rfl hread.writing).congr_left hread.mediaA hread.mediaB hread.scp
    rw [heq]
    exact ⟨hlatch.known huknown.scp huknown.parsed, .inl fun unit => (hlatch.bytes unit).trans (hu.bytes unit)⟩
  · obtain ⟨hknown, hdone⟩ := known_dataWrite huknown b.data
    rw [heq]
    refine ⟨hknown, ?_⟩
    rcases hdone with hsame | ⟨hexec, hconfined⟩
    · exact .inl fun unit => (hsame unit).trans (hu.bytes unit)
    · exact .inr ⟨hphase.symm.trans hexec, fun hplaced => hkept.confined (hconfined (hkept.placed hphase hplaced))⟩

/-- **One cycle** keeps what is known. Unless it commits a FORMAT its changes are confined, where the
    sector a byte is due for has its place. -/
theorem known_tick (hk : f.Known) (b : FdcBus) :
    (f.tick b).2.Known ∧ (f.Formatting ∨ (f.mechanics.timers.Placed → f.Confined (f.tick b).2)) := by
  obtain ⟨hmech, hkept, hphase, hpending⟩ := follows_mechanics hk.writing
  have hmknown : f.mechanics.Known := hmech.known hk.scp hk.parsed
  rw [tick]
  by_cases hformat : f.mechanics.Formatting
  · refine ⟨?_, .inl ⟨hphase.symm.trans hformat.1, hpending.symm.trans hformat.2⟩⟩
    rcases timers_formatting hformat with heq | heq
    · rw [heq]
      exact (known_access hmknown b).1
    · -- the new layout is parsed, and nothing is under way in the result phase
      have hresult : f.mechanics.unscheduled.doFormat.phase = .result := doFormat_phase _
      have hscp := (doFormat_scp f.mechanics.unscheduled).trans hmknown.scp
      have hparsed := doFormat_parsed (f := f.mechanics.unscheduled) hmknown.parsed
      rw [heq]
      exact (known_access ⟨hscp, hparsed, fun hw => absurd hw (not_writing_of_result hresult)⟩ b).1
  · obtain ⟨htimers, htkept⟩ := follows_timers hformat hmknown.writing
    obtain ⟨hknown, hdone⟩ := known_access (htimers.known hmknown.scp hmknown.parsed) b
    refine ⟨hknown, .inr fun hplaced => ?_⟩
    rcases hdone with hsame | ⟨hexec, hconfined⟩
    · exact .inl fun unit => (hsame unit).trans ((htimers.bytes unit).trans (hmech.bytes unit))
    · exact (hkept.trans (htkept hexec)).confined (hconfined hplaced)

/-! ### Runs -/

/-- A controller with a disc in each drive. -/
def withDisks (a b : List UInt8) : FdcState := (({} : FdcState).attachDisk false a).attachDisk true b

theorem known_withDisks (a b : List UInt8) : (withDisks a b).Known := by
  refine ⟨rfl, fun unit => ?_, fun hw => absurd hw (not_writing_of_cmd rfl)⟩
  cases unit
  · exact parseMedia_parsed a false
  · exact parseMedia_parsed b false

theorem known_runBus (hk : f.Known) (bs : List FdcBus) : (f.runBus bs).Known := by
  induction bs generalizing f with
  | nil => exact hk
  | cons b bs ih => exact ih (known_tick hk b).1

end

/-- **Writes are confined**: in every run of the bus, a cycle that does not commit a FORMAT TRACK leaves
    the images alone or changes the addressed unit's image in the addressed sector's track and ST2 byte
    only, as long as the sector a byte is due for has its place on the medium. -/
theorem writes_confined (imageA imageB : List UInt8) (bs : List FdcBus) (b : FdcBus)
    (hplaced : ((withDisks imageA imageB).runBus bs).mechanics.timers.Placed) :
    ((withDisks imageA imageB).runBus bs).Formatting ∨
      ((withDisks imageA imageB).runBus bs).Confined (((withDisks imageA imageB).runBus bs).tick b).2 := by
  rcases (known_tick (known_runBus (known_withDisks imageA imageB) bs) b).2 with hformat | hconfined
  · exact .inl hformat
  · exact .inr (hconfined hplaced)

/-! ### Two writes -/

/-- A cycle that leaves the controller alone. -/
def quiet : FdcBus := {}

/-- `n` cycles in which nothing but the clock and the platter moves. -/
def coast (f : FdcState) (n : Nat) : FdcState :=
  { f with
    now := f.now + n, rot := (f.rot + n) % kRevCycles, revCount := f.revCount + (f.rot + n) / kRevCycles
    accessPrev := false }

/-- No head steps, no completion falls due within `n` cycles, and the platter turns. -/
structure Coasts (f : FdcState) (n : Nat) : Prop where
  headA : f.driveA.seeking = false
  headB : f.driveB.seeking = false
  motor : f.motorSt ≠ .off
  spinup : f.motorSt = .spinup → f.now + n < f.motorReadyAt
  rot : f.rot < kRevCycles
  exec : f.phase ≠ .exec
  busy : f.phase = .busy → f.now + n < f.dueAt

theorem coasts_iff (f : FdcState) (n : Nat) :
    f.Coasts n ↔ f.driveA.seeking = false ∧ f.driveB.seeking = false ∧ f.motorSt ≠ .off ∧
      (f.motorSt = .spinup → f.now + n < f.motorReadyAt) ∧ f.rot < kRevCycles ∧ f.phase ≠ .exec ∧
      (f.phase = .busy → f.now + n < f.dueAt) :=
  ⟨fun ⟨hA, hB, hmotor, hspinup, hrot, hexec, hbusy⟩ => ⟨hA, hB, hmotor, hspinup, hrot, hexec, hbusy⟩,
    fun ⟨hA, hB, hmotor, hspinup, hrot, hexec, hbusy⟩ => ⟨hA, hB, hmotor, hspinup, hrot, hexec, hbusy⟩⟩

instance (f : FdcState) (n : Nat) : Decidable (f.Coasts n) := decidable_of_iff' _ (f.coasts_iff n)

theorem tick_coast {f : FdcState} (h : f.Coasts 1) : (f.tick quiet).2 = f.coast 1 := by
  -- the platter passes the index hole, or it does not
  have hturn : (if kRevCycles ≤ f.rot + 1 then 0 else f.rot + 1) = (f.rot + 1) % kRevCycles ∧
      (if kRevCycles ≤ f.rot + 1 then f.revCount + 1 else f.revCount) = f.revCount + (f.rot + 1) / kRevCycles := by
    have hlt := h.rot
    by_cases hindex : kRevCycles ≤ f.rot + 1
    · rw [if_pos hindex, if_pos hindex]
      simp only [kRevCycles] at *
      omega
    · rw [if_neg hindex, if_neg hindex]
      simp only [kRevCycles] at *
      omega
  have hspinup : ¬ (f.motorSt = .spinup ∧ f.motorReadyAt ≤ f.now + 1) := fun hc =>
    absurd (h.spinup hc.1) (Nat.not_lt.mpr hc.2)
  have hspin : f.spin = { f with
      now := f.now + 1, rot := (f.rot + 1) % kRevCycles, revCount := f.revCount + (f.rot + 1) / kRevCycles } := by
    simp only [spin, h.motor, hturn, hspinup, if_false]
  have hstep : ∀ d : Drive, d.seeking = false → Drive.step (f.now + 1) d = d := by
    intro d hd
    rw [Drive.step, if_neg fun hc => Bool.noConfusion (hd.symm.trans hc.1)]
  have hmech : f.mechanics = { f with
      now := f.now + 1, rot := (f.rot + 1) % kRevCycles, revCount := f.revCount + (f.rot + 1) / kRevCycles } := by
    rw [mechanics, hspin]
    dsimp only
    rw [hstep _ h.headA, hstep _ h.headB]
  have hdue : ¬ (f.phase = .busy ∧ f.dueAt ≤ f.now + 1) := fun hc => absurd (h.busy hc.1) (Nat.not_lt.mpr hc.2)
  rw [tick, hmech, timers]
  simp only [hdue, if_false, h.exec, false_and]
  rfl

theorem runBus_coast {f : FdcState} {n : Nat} (h : f.Coasts (n + 1)) :
    f.runBus (List.replicate (n + 1) quiet) = f.coast (n + 1) := by
  induction n generalizing f with
  | zero => exact tick_coast h
  | succ n ih =>
    have hfirst : f.Coasts 1 :=
      ⟨h.headA, h.headB, h.motor, fun hc => by have := h.spinup hc; omega, h.rot, h.exec,
        fun hc => by have := h.busy hc; omega⟩
    have hrest : (f.coast 1).Coasts (n + 1) :=
      ⟨h.headA, h.headB, h.motor, fun hc => by
        have hlt := h.spinup hc
        change f.now + 1 + (n + 1) < f.motorReadyAt
        omega, Nat.mod_lt _ (by decide), h.exec, fun hc => by
        have hlt := h.busy hc
        change f.now + 1 + (n + 1) < f.dueAt
        omega⟩
    rw [List.replicate_succ, runBus, List.foldl_cons, tick_coast hfirst]
    change (f.coast 1).runBus (List.replicate (n + 1) quiet) = _
    rw [ih hrest]
    simp only [coast, kRevCycles]
    congr 1 <;> omega

theorem runBus_append (f : FdcState) (as bs : List FdcBus) : f.runBus (as ++ bs) = (f.runBus as).runBus bs :=
  List.foldl_append

/-- A cycle that writes the motor latch, and one that writes the data register. -/
def motorOn : FdcBus := { iorq := true, wr := true, addr := 0xFA7E, data := 1 }
def dataOut (v : UInt8) : FdcBus := { iorq := true, wr := true, addr := 0xFB7F, data := v }

/-- An extended image of one track with one sector of 128 bytes. -/
def sampleImage : List UInt8 :=
  overwrite (overwrite (overwrite (overwrite (List.replicate 0x280 0) 0 extendedMagic) 0x30 [1, 1, 0, 0, 2]) 0x100
    trackInfoMagic) 0x114 [0, 1, 0x4E, 0xE5, 0, 0, 1, 0, 0, 0, 0x80, 0]

/-- An extended image of two tracks: the first holds one sector of no bytes, so that its data ends
    where the second track's header starts. -/
def hollowImage : List UInt8 :=
  overwrite (overwrite (overwrite (overwrite (overwrite (List.replicate 0x300 0) 0 extendedMagic) 0x30
    [2, 1, 0, 0, 1, 1]) 0x100 trackInfoMagic) 0x114 [0, 1, 0x4E, 0xE5, 0, 0, 1, 0, 0, 0, 0, 0]) 0x200 trackInfoMagic

/-- WRITE DATA of the sector with ID 0, 0, 1, 0. -/
def writeCommand : List FdcBus :=
  [0x45, 0, 0, 0, 1, 0, 1, 0, 0x80].flatMap fun v => [dataOut v, quiet]

/-- Spin-up, the command, and the wait for the data field. -/
def writeRun : List FdcBus :=
  [motorOn, quiet] ++ List.replicate 7999998 quiet ++ (quiet :: writeCommand) ++ List.replicate 1705453 quiet ++ [quiet]

/-- The controller up to speed, and the one whose first data byte is due. -/
def writeReady (a b : List UInt8) : FdcState := ((withDisks a b).runBus [motorOn, quiet]).coast 7999998
def writeDue (a b : List UInt8) : FdcState := (((writeReady a b).runBus (quiet :: writeCommand)).coast 1705453).tick quiet |>.2

theorem writeRun_eq {a b : List UInt8} (hspin : ((withDisks a b).runBus [motorOn, quiet]).Coasts 7999998)
    (hwait : ((writeReady a b).runBus (quiet :: writeCommand)).Coasts 1705453) :
    (withDisks a b).runBus writeRun = writeDue a b := by
  rw [writeRun, runBus_append, runBus_append, runBus_append, runBus_append, runBus_coast hspin]
  exact congrArg (fun f : FdcState => (f.tick quiet).2) (runBus_coast hwait)

/-- A sector of drive A is written, while the disc in drive B holds one that has no place. -/
theorem writes_confined_sample :
    (((withDisks sampleImage hollowImage).runBus writeRun).Formatting ∨
      ((withDisks sampleImage hollowImage).runBus writeRun).Confined
        (((withDisks sampleImage hollowImage).runBus writeRun).tick (dataOut 0xAA)).2) ∧
    byteAt (((withDisks sampleImage hollowImage).runBus writeRun).medium false).bytes 0x200 = 0 ∧
    byteAt ((((withDisks sampleImage hollowImage).runBus writeRun).tick (dataOut 0xAA)).2.medium false).bytes 0x200 = 0xAA := by
  have hrun : (withDisks sampleImage hollowImage).runBus writeRun = writeDue sampleImage hollowImage :=
    writeRun_eq (by decide) (by decide)
  refine ⟨writes_confined sampleImage hollowImage writeRun (dataOut 0xAA) ?_, ?_⟩
  · rw [hrun]
    obtain ⟨hunit, hcount, hstarts, hdeleted⟩ : (writeDue sampleImage hollowImage).mechanics.timers.unit = false ∧
        ((writeDue sampleImage hollowImage).mechanics.timers.medium false).geo.track.length = 1 ∧
        (∀ sec ∈ (((writeDue sampleImage hollowImage).mechanics.timers.medium false).trk 0).sec,
          sec.off < (((writeDue sampleImage hollowImage).mechanics.timers.medium false).trk 0).dataOff +
            (((writeDue sampleImage hollowImage).mechanics.timers.medium false).trk 0).dataLen) ∧
        (writeDue sampleImage hollowImage).mechanics.timers.wrDeleted = false := by decide
    intro _ _ _ slot i sec haddr
    have hget := haddr.sector
    rw [hunit] at hget ⊢
    -- the image has one track
    have hone : ∀ q ≠ 0, ((writeDue sampleImage hollowImage).mechanics.timers.medium false).trk q = {} := fun q hq =>
      Media.trk_of_length_le (by omega)
    have hslot : slot = 0 := by
      by_contra hne
      rw [hone slot hne] at hget
      exact absurd hget (by simp)
    subst hslot
    refine ⟨.inl (hstarts sec (List.mem_of_getElem? hget)), fun q hq hpresent => ?_, fun hmark => ?_⟩
    · exact absurd (congrArg FdcTrack.dataOff (hone q hq)) hpresent
    · exact Bool.noConfusion (hdeleted.symm.trans hmark)
  · rw [hrun]
    decide

/-- With the disc of drive B in drive A, the first byte of the same write replaces the first byte of the
    second track's header. -/
theorem hollow_write_escapes :
    ¬ (((withDisks hollowImage []).runBus writeRun).Formatting ∨
      ((withDisks hollowImage []).runBus writeRun).Confined
        (((withDisks hollowImage []).runBus writeRun).tick (dataOut 0xAA)).2) := by
  -- only the first track has a sector, and its window is empty
  obtain ⟨hchanged, hunit, hfirst, hsecond, hcount⟩ :
      byteAt (((writeDue hollowImage []).tick (dataOut 0xAA)).2.medium false).bytes 0x200 ≠
        byteAt ((writeDue hollowImage []).medium false).bytes 0x200 ∧
      (writeDue hollowImage []).unit = false ∧
      ((((writeDue hollowImage []).medium false).trk 0).dataOff = 0x200 ∧
        (((writeDue hollowImage []).medium false).trk 0).dataLen = 0 ∧
        (((writeDue hollowImage []).medium false).trk 0).sec.length = 1) ∧
      (((writeDue hollowImage []).medium false).trk 1).sec = [] ∧
      ((writeDue hollowImage []).medium false).geo.track.length = 2 := by decide
  rw [writeRun_eq (by decide) (by decide)]
  rintro (hformat | hsame | ⟨-, -, -, slot, i, sec, haddr, hbytes⟩)
  · exact absurd hformat.1 (by decide)
  · exact hchanged (congrArg (byteAt · 0x200) (hsame false))
  · rw [hunit] at hbytes
    obtain ⟨hwhere, -⟩ := hbytes 0x200 hchanged
    have hget := haddr.sector
    rw [hunit] at hget
    rcases slot with _ | _ | slot
    · have hi : i < 1 := hfirst.2.2 ▸ (List.getElem?_eq_some_iff.mp hget).1
      rw [hfirst.1, hfirst.2.1, st2Off, hfirst.1, if_neg (by decide)] at hwhere
      omega
    · rw [hsecond] at hget
      exact absurd hget (by simp)
    · rw [Media.trk_of_length_le (by omega)] at hget
      exact absurd hget (by simp)

end FdcState

end Koncepcja.Disk
