import Koncepcja.Disk.WriteConfined

/-!
# Seek Ends

SEEK and RECALIBRATE only start a head; the cycles move it, and SENSE INTERRUPT STATUS reports
where it has come to. A report is right when the head stands still on the track that was asked
for last. Two things can go wrong, and both leave a unit with `seek_done` and `seeking` set: a
command for the very track a head is passing completes at once but does not stop the head, and a
Seek End nobody sensed stays pending while the next seek is under way.

## Main results

- `tick_command`: a cycle moves the heads, and dispatches the command whose last byte it brings.
- `Arm.tracks_run`: in every run a head is bound for the track the last command named, unless that
  command came while the head was passing it.
- `seek_end_iff`: a reported Seek End is right exactly when the head stands still and the last
  command was not such a one.
-/

namespace Koncepcja.Disk

open Koncepcja.Bits Koncepcja.Bytes

set_option maxRecDepth 20000

/-! ## Heads -/

/-- What moves a unit's head. -/
structure Arm where
  trackPos : UInt8
  seeking : Bool
  seekTarget : UInt8
  nextStepAt : Nat

/-- The head of a drive. -/
def Drive.arm (d : Drive) : Arm := ⟨d.trackPos, d.seeking, d.seekTarget, d.nextStepAt⟩

/-- The track a head comes to rest on. -/
def Arm.goal (a : Arm) : UInt8 := if a.seeking then a.seekTarget else a.trackPos

/-- A head that steps is not yet where it goes. -/
def Arm.Proper (a : Arm) : Prop := a.seeking = true → a.trackPos ≠ a.seekTarget

theorem Arm.goal_of_rest {a : Arm} (h : a.seeking = false) : a.goal = a.trackPos := by
  rw [Arm.goal, h]
  rfl

theorem Arm.goal_of_seeking {a : Arm} (h : a.seeking = true) : a.goal = a.seekTarget := by
  rw [Arm.goal, h]
  rfl

theorem Drive.step_of_not_due {now : Nat} {d : Drive} (h : ¬ (d.seeking = true ∧ d.nextStepAt ≤ now)) :
    Drive.step now d = d := by
  rw [Drive.step, if_neg h]

theorem Drive.nextTrack_ne (d : Drive) : d.nextTrack ≠ d.trackPos := by
  rw [Drive.nextTrack]
  split
  · exact fun h => absurd (UInt8.add_eq_left.mp h) (by decide)
  · exact fun h => absurd (UInt8.add_eq_left.mp (UInt8.sub_eq_iff_eq_add.mp h).symm) (by decide)

theorem Drive.step_due {now : Nat} {d : Drive} (hseek : d.seeking = true) (hdue : d.nextStepAt ≤ now) :
    (Drive.step now d).trackPos = d.nextTrack ∧ (Drive.step now d).seekTarget = d.seekTarget ∧
      (Drive.step now d).seeking = decide (d.nextTrack ≠ d.seekTarget) := by
  rw [Drive.step, if_pos ⟨hseek, hdue⟩]
  dsimp only
  split
  · rename_i hthere
    exact ⟨rfl, rfl, (decide_eq_false (not_not.mpr hthere)).symm⟩
  · rename_i hthere
    exact ⟨rfl, rfl, hseek.trans (decide_eq_true hthere).symm⟩

theorem Drive.step_goal (now : Nat) (d : Drive) : (Drive.step now d).arm.goal = d.arm.goal := by
  by_cases hdue : d.seeking = true ∧ d.nextStepAt ≤ now
  · obtain ⟨hpos, htarget, hseek⟩ := Drive.step_due hdue.1 hdue.2
    have hgoal : d.arm.goal = d.seekTarget := Arm.goal_of_seeking hdue.1
    by_cases hthere : d.nextTrack = d.seekTarget
    · have hrest : (Drive.step now d).arm.goal = (Drive.step now d).trackPos :=
        Arm.goal_of_rest (hseek.trans (decide_eq_false (not_not.mpr hthere)))
      rw [hrest, hpos, hthere, hgoal]
    · have hon : (Drive.step now d).arm.goal = (Drive.step now d).seekTarget :=
        Arm.goal_of_seeking (hseek.trans (decide_eq_true hthere))
      rw [hon, htarget, hgoal]
  · rw [Drive.step_of_not_due hdue]

theorem Drive.step_proper {now : Nat} {d : Drive} (h : d.arm.Proper) : (Drive.step now d).arm.Proper := by
  by_cases hdue : d.seeking = true ∧ d.nextStepAt ≤ now
  · obtain ⟨hpos, htarget, hseek⟩ := Drive.step_due hdue.1 hdue.2
    intro hon
    change (Drive.step now d).trackPos ≠ (Drive.step now d).seekTarget
    rw [hpos, htarget]
    exact of_decide_eq_true (hseek.symm.trans hon)
  · rw [Drive.step_of_not_due hdue]
    exact h

theorem Drive.step_rest {now : Nat} {d : Drive} (h : d.seeking = false) : Drive.step now d = d :=
  Drive.step_of_not_due fun hdue => Bool.noConfusion (h.symm.trans hdue.1)

namespace FdcState

/-! ## What leaves the heads alone -/

/-- Neither head was touched, and the buffers kept their sizes. -/
structure Still (f g : FdcState) : Prop where
  armA : g.driveA.arm = f.driveA.arm
  armB : g.driveB.arm = f.driveB.arm
  now : g.now = f.now
  ids : g.fmtIds.length = f.fmtIds.length
  res : f.res.length = 7 → g.res.length = 7
  cmd : g.cmd.length = f.cmd.length
  flux : f.flux.Sized → g.flux.Sized

section
variable {f g h : FdcState}

theorem Still.refl (f : FdcState) : f.Still f := ⟨rfl, rfl, rfl, rfl, id, rfl, id⟩

theorem Still.trans (hfg : f.Still g) (hgh : g.Still h) : f.Still h :=
  ⟨hgh.armA.trans hfg.armA, hgh.armB.trans hfg.armB, hgh.now.trans hfg.now, hgh.ids.trans hfg.ids,
    fun hf => hgh.res (hfg.res hf), hgh.cmd.trans hfg.cmd, fun hf => hgh.flux (hfg.flux hf)⟩

theorem Still.arm (hfg : f.Still g) (unit : Bool) : (g.drive unit).arm = (f.drive unit).arm := by
  cases unit
  · exact hfg.armA
  · exact hfg.armB

theorem still_of_eq (hA : g.driveA = f.driveA) (hB : g.driveB = f.driveB) (hnow : g.now = f.now)
    (hids : g.fmtIds.length = f.fmtIds.length) (hres : g.res = f.res) (hcmd : g.cmd.length = f.cmd.length)
    (hflux : g.flux = f.flux) : f.Still g :=
  ⟨congrArg Drive.arm hA, congrArg Drive.arm hB, hnow, hids, fun hf => (congrArg List.length hres).trans hf, hcmd,
    fun hf => hflux ▸ hf⟩

theorem still_of_res (hA : g.driveA = f.driveA) (hB : g.driveB = f.driveB) (hnow : g.now = f.now)
    (hids : g.fmtIds = f.fmtIds) (hres : g.res.length = f.res.length) (hcmd : g.cmd = f.cmd)
    (hflux : g.flux = f.flux) : f.Still g :=
  ⟨congrArg Drive.arm hA, congrArg Drive.arm hB, hnow, congrArg List.length hids, fun hf => hres.trans hf,
    congrArg List.length hcmd, fun hf => hflux ▸ hf⟩

theorem still_of_flux {m : FluxBack} (h : f.flux.Sized → m.Sized) : f.Still { f with flux := m } :=
  ⟨rfl, rfl, rfl, rfl, id, rfl, h⟩

theorem setDrive_still {unit : Bool} {d : Drive} (h : d.arm = (f.drive unit).arm) : f.Still (f.setDrive unit d) := by
  cases unit
  · exact ⟨h, rfl, rfl, rfl, id, rfl, id⟩
  · exact ⟨rfl, h, rfl, rfl, id, rfl, id⟩

theorem resultChrn_length (cmd res : List UInt8) : (resultChrn cmd res).length = res.length := by
  simp only [resultChrn, List.length_set]

theorem maskStatus_length (res : List UInt8) : (maskStatus res).length = res.length := by
  rw [maskStatus]
  dsimp only
  split
  · split
    · simp only [List.length_set]
    · split <;> simp only [List.length_set]
  · rfl

theorem still_setRes (f : FdcState) (i : Nat) (v : UInt8) : f.Still (f.setRes i v) :=
  still_of_res rfl rfl rfl rfl List.length_set rfl rfl

theorem still_orRes (f : FdcState) (i : Nat) (v : UInt8) : f.Still (f.orRes i v) := still_setRes f i _

theorem still_enterResult (f : FdcState) : f.Still f.enterResult := still_of_eq rfl rfl rfl rfl rfl rfl rfl

theorem still_loadHead (f : FdcState) : f.Still f.loadHead := (still_setRes f 3 _).trans (still_setRes _ 4 _)

theorem still_initStatus (f : FdcState) : f.Still f.initStatus := ⟨rfl, rfl, rfl, rfl, fun _ => List.length_set, rfl, id⟩

theorem still_finishWithStatus (f : FdcState) : f.Still f.finishWithStatus := by
  refine still_of_res rfl rfl rfl rfl ?_ rfl rfl
  simp only [finishWithStatus, loadResultChrn, enterResult, orRes, setRes, resultChrn_length, maskStatus_length,
    List.length_set]

theorem still_failNow (f : FdcState) (st1 : UInt8) : f.Still (f.failNow st1) := by
  refine still_of_res rfl rfl rfl rfl ?_ rfl rfl
  simp only [failNow, loadResultChrn, enterResult, orRes, setRes, resultChrn_length, List.length_set]

theorem still_beginTransfer (f : FdcState) (trk : FdcTrack) (toCpu : Bool) (i : Nat) (sec : FdcSector) (st2 : UInt8) :
    f.Still (f.beginTransfer trk toCpu i sec st2) := by
  refine still_of_res rfl rfl rfl rfl ?_ rfl rfl
  simp only [beginTransfer, List.length_set]

theorem still_startSector (f : FdcState) (trk : FdcTrack) (toCpu : Bool) : f.Still (f.startSector trk toCpu) := by
  rcases startSector_cases f trk toCpu with ⟨st2, heq⟩ | ⟨i, rev, served, j, sec, st2, heq, -⟩
  · rw [heq]
    refine still_of_res rfl rfl rfl rfl ?_ rfl rfl
    simp only [noData, resultChrn_length, List.length_set]
  · rw [heq]
    have hfound : f.Still ((f.foundSector trk toCpu i).serveFrom rev) := still_of_eq rfl rfl rfl rfl rfl rfl rfl
    exact hfound.trans (still_beginTransfer _ served toCpu j sec st2)

theorem still_fetchTrack (f : FdcState) : f.Still f.fetchTrack := by
  refine still_of_flux fun hf => ?_
  rw [fetched]
  split
  · exact hf.fetch _
  · exact hf

theorem still_chainSector (f : FdcState) (toCpu : Bool) : f.Still (f.chainSector toCpu) := by
  have hbump : f.Still f.bumpSector := still_of_eq rfl rfl rfl rfl rfl List.length_set rfl
  have hnext := hbump.trans (still_fetchTrack _)
  rw [chainSector]
  split
  · exact still_finishWithStatus f
  · split
    · exact hnext.trans (still_startSector _ _ _)
    · exact hnext.trans (still_finishWithStatus _)

theorem still_mapMedia (f : FdcState) (c : Media → Media) : f.Still (f.mapMedia c) := setDrive_still rfl

theorem still_advance (f : FdcState) : f.Still f.advance := still_of_eq rfl rfl rfl rfl rfl rfl rfl

theorem still_markTable (f : FdcState) : f.Still f.markTable := by
  rw [markTable]
  split
  · split
    · split
      · exact still_of_flux fun hf => hf.markDeleted _ _
      · exact still_mapMedia f _
    · exact .refl f
  · exact .refl f

theorem still_markImage (f : FdcState) : f.Still f.markImage := by
  rw [markImage]
  split
  · exact .refl f
  · exact still_mapMedia f _

theorem still_pastSector (f : FdcState) : f.Still f.pastSector := still_of_eq rfl rfl rfl rfl rfl rfl rfl

theorem still_sectorWritten (f : FdcState) : f.Still f.sectorWritten := by
  have hfetch := (still_pastSector f).trans (still_fetchTrack _)
  rw [sectorWritten]
  split
  · exact ((hfetch.trans (still_markTable _)).trans (still_markImage _)).trans (still_chainSector _ _)
  · exact (still_pastSector f).trans (still_chainSector _ _)

theorem still_execWriteByte (f : FdcState) (val : UInt8) : f.Still (f.execWriteByte val) := by
  have hpoke : f.Still (f.pokeByte val) := (still_mapMedia f _).trans (still_advance _)
  rw [execWriteByte]
  split
  · rw [formatByte]
    dsimp only
    split
    · exact still_of_eq rfl rfl rfl List.length_set rfl rfl rfl
    · exact still_of_eq rfl rfl rfl List.length_set rfl rfl rfl
  · rw [writeByte]
    split
    · exact hpoke.trans (still_sectorWritten _)
    · exact hpoke

theorem still_dataRead (f : FdcState) : f.Still f.dataRead.2 := by
  have hread : f.Still f.advance.sectorRead := by
    have hnext := (still_advance f).trans (still_pastSector _)
    rw [sectorRead]
    split
    · exact hnext.trans (still_finishWithStatus _)
    · exact hnext.trans (still_chainSector _ _)
  rw [dataRead]
  cases f.phase with
  | exec =>
    dsimp only
    split
    · exact .refl f
    · split
      · exact hread
      · exact still_advance f
  | result =>
    dsimp only
    split
    · exact still_of_eq rfl rfl rfl rfl rfl rfl rfl
    · exact still_of_eq rfl rfl rfl rfl rfl rfl rfl
  | cmd => exact .refl f
  | busy => exact .refl f

theorem still_notWritable (f : FdcState) : f.Still f.notWritable :=
  ((still_orRes f _ _).trans (still_orRes _ _ _)).trans (still_enterResult _)

theorem still_formatResult (f : FdcState) (st0 c h n : UInt8) : f.Still (f.formatResult st0 c h n) := by
  have hhead := (still_setRes f 0 st0).trans ((still_setRes _ 3 c).trans (still_setRes _ 4 h))
  exact (hhead.trans (still_setRes _ 6 n)).trans (still_enterResult _)

theorem still_remount (f : FdcState) (image : List UInt8) : f.Still (f.remount image) := by
  have hset : f.Still (f.setDrive f.unit { f.drive f.unit with media := { parseMedia image with dirty := true } }) :=
    setDrive_still rfl
  refine ⟨hset.armA, hset.armB, rfl, rfl, id, rfl, fun hf => ?_⟩
  rw [remount]
  dsimp only
  split
  · exact hf
  · exact hf.reparsed _

theorem still_doFormat (f : FdcState) : f.Still f.doFormat := by
  rcases f.doFormat_cases with heq | ⟨image, st0, c, h, n, heq⟩ <;> rw [heq]
  · exact still_notWritable f
  · exact (still_remount f image).trans (still_formatResult _ _ _ _ _)

theorem still_loadId (f : FdcState) (id : Chrn) : f.Still (f.loadId id) :=
  ((still_setRes f _ _).trans (still_setRes _ _ _)).trans ((still_setRes _ _ _).trans (still_setRes _ _ _))

theorem still_readIdDone (f : FdcState) : f.Still f.readIdDone := by
  rw [readIdDone]
  split
  · split
    · have hidx : ∀ (u : FdcState) (i : Nat), u.Still { u with sectorIdx := i } := fun _ _ =>
        still_of_eq rfl rfl rfl rfl rfl rfl rfl
      exact ((still_loadId f _).trans (hidx _ _)).trans (still_enterResult _)
    · exact still_enterResult f
  · exact still_enterResult f

theorem still_completePending (f : FdcState) : f.Still f.completePending := by
  have hnone : f.Still f.unscheduled := still_of_eq rfl rfl rfl rfl rfl rfl rfl
  rw [completePending]
  split
  · exact (hnone.trans (still_fetchTrack _)).trans (still_readIdDone _)
  · exact still_of_eq rfl rfl rfl rfl rfl rfl rfl
  · exact hnone.trans (still_doFormat _)
  · exact hnone.trans (still_enterResult _)

theorem still_timers (f : FdcState) : f.Still f.timers := by
  -- the state behind a completion that is due
  obtain ⟨u, hu, hdue⟩ : ∃ u, u = (if f.phase = .busy ∧ f.dueAt ≤ f.now then f.completePending else f) ∧ f.Still u := by
    refine ⟨_, rfl, ?_⟩
    split
    · exact still_completePending f
    · exact .refl f
  rw [timers, ← hu]
  split
  · exact (hdue.trans (still_setRes _ _ _)).trans (still_finishWithStatus _)
  · exact hdue

theorem still_motorWrite (f : FdcState) (on : Bool) : f.Still (f.motorWrite on) := by
  rw [motorWrite]
  dsimp only
  split
  · exact still_of_eq rfl rfl rfl rfl rfl rfl rfl
  · split
    · exact ⟨rfl, rfl, rfl, rfl, id, rfl, id⟩
    · exact still_of_eq rfl rfl rfl rfl rfl rfl rfl

/-! ## Commands -/

theorem still_cmdSenseInterrupt (f : FdcState) : f.Still f.cmdSenseInterrupt := by
  rw [cmdSenseInterrupt]
  split
  · refine ⟨rfl, rfl, rfl, rfl, fun hf => ?_, rfl, id⟩
    simp only [enterResult, setRes, List.length_set, hf]
  · split
    · refine ⟨rfl, rfl, rfl, rfl, fun hf => ?_, rfl, id⟩
      simp only [enterResult, setRes, List.length_set, hf]
    · split
      · refine ⟨rfl, rfl, rfl, rfl, fun hf => ?_, rfl, id⟩
        simp only [enterResult, setRes, List.length_set, hf]
      · split
        · refine ⟨rfl, rfl, rfl, rfl, fun hf => ?_, rfl, id⟩
          simp only [enterResult, setRes, List.length_set, hf]
        · refine ⟨rfl, rfl, rfl, rfl, fun hf => ?_, rfl, id⟩
          simp only [enterResult, setRes, List.length_set, hf]

theorem still_failLater (f : FdcState) : f.Still f.failLater := still_of_eq rfl rfl rfl rfl rfl rfl rfl

theorem still_cmdReadId (f : FdcState) : f.Still f.cmdReadId := by
  have hfetch := (still_initStatus f).trans (still_fetchTrack _)
  rw [cmdReadId]
  split
  · split
    · exact hfetch.trans (still_of_eq rfl rfl rfl rfl rfl rfl rfl)
    · refine hfetch.trans (.trans ?_ (still_failLater _))
      exact ((still_orRes _ _ _).trans (still_orRes _ _ _)).trans (still_loadHead _)
  · exact ((still_initStatus f).trans (still_loadHead _)).trans (still_enterResult _)

theorem still_loadResultChrn (f : FdcState) : f.Still f.loadResultChrn.enterResult :=
  still_of_res rfl rfl rfl rfl (resultChrn_length f.cmd f.res) rfl rfl

theorem still_cmdReadData (f : FdcState) : f.Still f.cmdReadData := by
  have hfetch := (still_initStatus f).trans (still_fetchTrack _)
  rw [cmdReadData]
  split
  · split
    · exact hfetch.trans (still_startSector _ _ _)
    · exact hfetch.trans (still_failNow _ _)
  · exact (still_initStatus f).trans (still_loadResultChrn _)

theorem still_cmdWriteData (f : FdcState) : f.Still f.cmdWriteData := by
  have hinit : f.Still (FdcState.initStatus { f with wrDeleted := f.code = 0x09 }) :=
    (still_of_eq rfl rfl rfl rfl rfl rfl rfl : f.Still { f with wrDeleted := f.code = 0x09 }).trans (still_initStatus _)
  have hpromote : ∀ u : FdcState, u.Still u.promoteTrack := fun u => by
    refine still_of_flux fun hf => ?_
    split
    · exact hf
    · exact hf.promote _
  have hfetch := (hinit.trans (hpromote _)).trans (still_fetchTrack _)
  rw [cmdWriteData]
  split
  · split
    · exact hinit.trans (still_failNow _ _)
    · split
      · exact hfetch.trans (still_startSector _ _ _)
      · exact hfetch.trans (still_failNow _ _)
  · exact hinit.trans (still_loadResultChrn _)

theorem still_cmdFormatTrack (f : FdcState) : f.Still f.cmdFormatTrack := by
  have hhead : f.Still (f.initStatus.loadHead.setRes 6 (byteAt f.initStatus.cmd 2)) :=
    ((still_initStatus f).trans (still_loadHead _)).trans (still_setRes _ _ _)
  have hids : ∀ u : FdcState, u.Still (FdcState.beginExec { u with fmtPos := 0, dirToCpu := false }) := fun u =>
    still_of_eq rfl rfl rfl rfl rfl rfl rfl
  rw [cmdFormatTrack]
  split
  · dsimp only
    split
    · exact hhead.trans (still_notWritable _)
    · exact hhead.trans (hids _)
  · exact (still_initStatus f).trans (still_enterResult _)

/-- The cylinder a SEEK or a RECALIBRATE names. -/
def seekRequest (f : FdcState) : Option UInt8 :=
  if f.code = 0x07 then some 0 else if f.code = 0x0F then some (byteAt f.cmd 2) else none

theorem still_dispatch (hseek : f.seekRequest = none) : f.Still f.dispatch := by
  have hne : f.code ≠ 0x07 ∧ f.code ≠ 0x0F := by
    rw [seekRequest] at hseek
    split at hseek
    · exact absurd hseek (by simp)
    · split at hseek
      · exact absurd hseek (by simp)
      · rename_i h07 h0F
        exact ⟨h07, h0F⟩
  refine dispatch_ind f ?_ ?_ ?_ ?_ ?_ ?_ ?_ ?_ ?_ ?_ ?_
  · exact fun hcode => absurd hcode hne.1
  · exact fun hcode => absurd hcode hne.2
  · exact fun _ => still_of_eq rfl rfl rfl rfl rfl rfl rfl
  · exact fun _ => still_of_res rfl rfl rfl rfl List.length_set rfl rfl
  · exact fun _ => still_cmdWriteData f
  · exact fun _ => still_cmdReadData f
  · exact fun _ => still_cmdSenseInterrupt f
  · exact fun _ => still_cmdReadId f
  · exact fun _ => (still_initStatus f).trans (still_failNow _ _)
  · exact fun _ => still_cmdFormatTrack f
  · exact fun _ => .refl f

theorem dispatch_of_seekRequest {target : UInt8} (hseek : f.seekRequest = some target) :
    f.dispatch = f.cmdSeekTo target := by
  rw [seekRequest] at hseek
  split at hseek
  · rename_i hcode
    rw [dispatch, if_pos hcode, Option.some.inj hseek]
  · split at hseek
    · rename_i hne hcode
      rw [dispatch, if_neg hne, if_pos hcode, Option.some.inj hseek]
    · exact absurd hseek (by simp)

/-- The track a unit's head is sent to: the clamped cylinder of a SEEK or a RECALIBRATE that finds
    the drive ready. One that does not is not carried out. -/
def accepted (f : FdcState) (unit : Bool) : Option UInt8 :=
  if f.unit = unit ∧ f.driveReady unit = true then f.seekRequest.map clampTrack else none

/-- What a SEEK does to the addressed head: nothing where it is already there, or the drive not ready. -/
def sent (f : FdcState) (unit : Bool) (a : Arm) : Arm :=
  match f.accepted unit with
  | none => a
  | some target =>
    if target = a.trackPos then a
    else ⟨a.trackPos, true, target, f.now + (16 - ((f.srtHut >>> 4) &&& 0x0F).toNat) * 2 * kCyclesPerMs⟩

theorem drive_setDrive (f : FdcState) (unit : Bool) (d : Drive) : (f.setDrive unit d).drive unit = d := by
  cases unit <;> rfl

theorem drive_setDrive_ne {u unit : Bool} (h : u ≠ unit) (f : FdcState) (d : Drive) :
    (f.setDrive u d).drive unit = f.drive unit := by
  cases u <;> cases unit
  · exact absurd rfl h
  · rfl
  · rfl
  · exact absurd rfl h

theorem accepted_of_ready {target : UInt8} (hseek : f.seekRequest = some target) (hready : f.driveReady f.unit = true) :
    f.accepted f.unit = some (clampTrack target) := by
  rw [accepted, if_pos ⟨rfl, hready⟩, hseek]
  rfl

theorem accepted_of_not {unit : Bool} (h : ¬ (f.unit = unit ∧ f.driveReady unit = true)) : f.accepted unit = none :=
  if_neg h

theorem cmdSeekTo_arm {target : UInt8} (hseek : f.seekRequest = some target) (unit : Bool) :
    ((f.cmdSeekTo target).drive unit).arm = f.sent unit (f.drive unit).arm := by
  have hset : ∀ d : Drive, ((f.initStatus.setDrive f.initStatus.unit d).enterCmd.drive f.unit).arm = d.arm := fun d =>
    congrArg Drive.arm (drive_setDrive f.initStatus f.unit d)
  -- Only the addressed arm is sent anywhere, and only if its drive is ready.
  by_cases hunit : f.unit = unit
  · subst hunit
    by_cases hr : f.driveReady f.unit = true
    · have hr' : f.initStatus.driveReady f.initStatus.unit = true := hr
      rw [sent, accepted_of_ready hseek hr, cmdSeekTo]
      dsimp only
      rw [if_pos hr']
      by_cases hthere : clampTrack target = (f.drive f.unit).trackPos
      · have hthere' : clampTrack target = (f.initStatus.drive f.initStatus.unit).trackPos := hthere
        rw [if_pos (show clampTrack target = (f.drive f.unit).arm.trackPos from hthere), if_pos hthere', hset]
        rfl
      · have hthere' : ¬ clampTrack target = (f.initStatus.drive f.initStatus.unit).trackPos := hthere
        rw [if_neg (show ¬ clampTrack target = (f.drive f.unit).arm.trackPos from hthere), if_neg hthere', hset]
        rfl
    · have hr' : ¬ f.initStatus.driveReady f.initStatus.unit = true := hr
      rw [sent, accepted_of_not fun hc => hr hc.2, cmdSeekTo]
      dsimp only
      rw [if_neg hr', hset]
      rfl
  · have hother : ∀ d : Drive, ((f.initStatus.setDrive f.initStatus.unit d).enterCmd.drive unit).arm =
        (f.drive unit).arm := fun d => congrArg Drive.arm (drive_setDrive_ne hunit f.initStatus d)
    rw [sent, accepted_of_not fun hc => hunit hc.1, cmdSeekTo]
    dsimp only
    split
    · split
      · exact hother _
      · exact hother _
    · exact hother _
end

/-! ## One cycle -/

/-- The state a byte for the data register leaves to `dispatch`, when it is the last of a command. -/
def command (f : FdcState) (val : UInt8) : Option FdcState :=
  if f.phase ≠ .cmd then none
  else if f.cmdCount = 0 then
    match lookupCmd (val &&& 0x1F) with
    | none => none
    | some (cmdBytes, resBytes) =>
      if 1 = cmdBytes then
        some { f with
          mt := val &&& 0x80, mf := val &&& 0x40, sk := val &&& 0x20
          cmd := f.cmd.set 0 (val &&& 0x1F), cmdCount := 0, cmdLen := cmdBytes, resLen := resBytes }
      else none
  else if f.cmdCount + 1 = f.cmdLen then some { f with cmd := f.cmd.set f.cmdCount val, cmdCount := 0 }
  else none

/-- The bus writes the data register. -/
def writesData (b : FdcBus) : Bool :=
  b.iorq && !b.m1 && b.addr &&& 0x0480 == 0 && b.addr &&& 0x0100 != 0 && !b.rd && b.wr && b.addr &&& 0x0001 != 0

/-- The command a cycle dispatches. -/
def commandAt (f : FdcState) (b : FdcBus) : Option FdcState :=
  if writesData b && !f.mechanics.timers.accessPrev then
    FdcState.command { f.mechanics.timers with accessPrev := true } b.data
  else none

section
variable {f g : FdcState}

theorem dataWrite_of_command {val : UInt8} (hcmd : f.command val = some g) :
    f.dataWrite val = g.dispatch ∧ f.Still g := by
  rw [command] at hcmd
  split at hcmd
  · exact absurd hcmd (by simp)
  rename_i hphase
  have hcmdPhase : f.phase = .cmd := not_not.mp hphase
  have hnot : ¬ (f.phase = .exec ∧ f.dirToCpu = false) := fun hc =>
    FdcPhase.noConfusion (hcmdPhase.symm.trans hc.1)
  rw [dataWrite, if_neg hnot, if_neg hphase]
  split at hcmd
  · -- the first byte of a command of one byte
    rename_i hcount
    rw [if_pos hcount]
    dsimp only
    cases hlookup : lookupCmd (val &&& 0x1F) with
    | none =>
      rw [hlookup] at hcmd
      exact absurd hcmd (by simp)
    | some entry =>
      obtain ⟨cmdBytes, resBytes⟩ := entry
      rw [hlookup] at hcmd
      dsimp only at hcmd ⊢
      split at hcmd
      · rename_i hone
        rw [if_pos hone, ← Option.some.inj hcmd]
        exact ⟨rfl, still_of_eq rfl rfl rfl rfl rfl List.length_set rfl⟩
      · exact absurd hcmd (by simp)
  · rename_i hcount
    rw [if_neg hcount]
    dsimp only
    split at hcmd
    · rename_i hlast
      rw [if_pos hlast, ← Option.some.inj hcmd]
      exact ⟨rfl, still_of_eq rfl rfl rfl rfl rfl List.length_set rfl⟩
    · exact absurd hcmd (by simp)

theorem still_dataWrite {val : UInt8} (hcmd : f.command val = none) : f.Still (f.dataWrite val) := by
  rw [dataWrite]
  split
  · exact still_execWriteByte f val
  split
  · exact .refl f
  rename_i hphase
  -- In the command phase: no command is complete with this byte, as `hcmd` says.
  rw [command, if_neg hphase] at hcmd
  split
  · rename_i hcount
    rw [if_pos hcount] at hcmd
    dsimp only
    split
    · exact still_of_res rfl rfl rfl rfl List.length_set rfl rfl
    · rename_i cmdBytes resBytes hlookup
      rw [hlookup] at hcmd
      dsimp only at hcmd ⊢
      split
      · rename_i hone
        rw [if_pos hone] at hcmd
        exact absurd hcmd (by simp)
      · exact still_of_eq rfl rfl rfl rfl rfl List.length_set rfl
  · rename_i hcount
    rw [if_neg hcount] at hcmd
    dsimp only
    split
    · rename_i hlast
      rw [if_pos hlast] at hcmd
      exact absurd hcmd (by simp)
    · exact still_of_eq rfl rfl rfl rfl rfl List.length_set rfl

theorem access_of_writesData {b : FdcBus} (hb : writesData b = true) (hedge : f.accessPrev = false) :
    (f.access b).2 = FdcState.dataWrite { f with accessPrev := true } b.data := by
  simp only [writesData, Bool.and_eq_true, Bool.not_eq_true', bne_iff_ne, ne_eq] at hb
  obtain ⟨⟨⟨⟨⟨⟨hiorq, hm1⟩, hsel⟩, hunit⟩, hrd⟩, hwr⟩, hdata⟩ := hb
  simp only [access, hiorq, hm1, hsel, hunit, hrd, hwr, hdata, hedge, Bool.not_false, Bool.and_true, Bool.or_true,
    if_false, if_true, Bool.true_eq_false, Bool.false_eq_true, not_false_eq_true, and_self, ne_eq]

theorem still_access {b : FdcBus} (hb : ¬ (writesData b = true ∧ f.accessPrev = false)) : f.Still (f.access b).2 := by
  obtain ⟨p, hp⟩ : ∃ p, p = (b.iorq && !b.m1 && b.addr &&& 0x0480 == 0 && (b.rd || b.wr)) := ⟨_, rfl⟩
  have hu : f.Still { f with accessPrev := p } := still_of_eq rfl rfl rfl rfl rfl rfl rfl
  rw [access]
  dsimp only
  rw [← hp]
  split
  · exact hu
  split
  · dsimp only
    split
    · exact hu.trans (still_motorWrite _ _)
    · exact hu
  split
  · split
    · exact hu
    · dsimp only
      split
      · exact (hu.trans (still_dataRead _)).trans (still_of_eq rfl rfl rfl rfl rfl rfl rfl)
      · exact hu
  split
  · -- this is the write that was excluded
    rename_i hsel hunit hrd hwrite
    refine absurd ⟨?_, ?_⟩ hb
    · simp only [Bool.not_eq_false, Bool.and_eq_true] at hsel
      simp only [writesData, hsel, hunit, hrd, hwrite, Bool.and_true, Bool.not_false, bne_iff_ne, ne_eq,
        not_false_eq_true, Bool.true_and, Bool.and_eq_true, and_self]
    · have hedge := hwrite.2.2
      simp only [Bool.and_eq_true, Bool.not_eq_true'] at hedge
      exact hedge.2
  · exact hu

/-- **One cycle** moves the heads, and then dispatches the command it completes. -/
theorem tick_of_commandAt {b : FdcBus} (hcmd : f.commandAt b = some g) :
    (f.tick b).2 = g.dispatch ∧ f.mechanics.Still g := by
  rw [commandAt] at hcmd
  split at hcmd
  · rename_i hwrite
    simp only [Bool.and_eq_true, Bool.not_eq_true'] at hwrite
    obtain ⟨hdisp, hstill⟩ := dataWrite_of_command hcmd
    have hlatch : f.mechanics.timers.Still { f.mechanics.timers with accessPrev := true } := still_of_eq rfl rfl rfl rfl rfl rfl rfl
    refine ⟨?_, ((still_timers _).trans hlatch).trans hstill⟩
    rw [tick, access_of_writesData hwrite.1 hwrite.2, hdisp]
  · exact absurd hcmd (by simp)

theorem still_tick {b : FdcBus} (hcmd : f.commandAt b = none) : f.mechanics.Still (f.tick b).2 := by
  rw [commandAt] at hcmd
  rw [tick]
  by_cases hwrite : writesData b = true ∧ f.mechanics.timers.accessPrev = false
  · rw [if_pos (by simp only [hwrite, Bool.not_false, Bool.and_self])] at hcmd
    have hlatch : f.mechanics.timers.Still { f.mechanics.timers with accessPrev := true } := still_of_eq rfl rfl rfl rfl rfl rfl rfl
    rw [access_of_writesData hwrite.1 hwrite.2]
    exact ((still_timers _).trans hlatch).trans (still_dataWrite hcmd)
  · exact (still_timers _).trans (still_access hwrite)

theorem still_spin (f : FdcState) : f.spin.driveA.arm = f.driveA.arm ∧ f.spin.driveB.arm = f.driveB.arm ∧
    f.spin.now = f.now + 1 ∧ f.spin.res = f.res ∧ f.spin.fmtIds = f.fmtIds := by
  rw [spin]
  dsimp only
  split
  · exact ⟨rfl, rfl, rfl, rfl, rfl⟩
  · split <;> exact ⟨rfl, rfl, rfl, rfl, rfl⟩

theorem mechanics_drive (f : FdcState) (unit : Bool) :
    ∃ d : Drive, d.arm = (f.drive unit).arm ∧ f.mechanics.drive unit = Drive.step (f.now + 1) d := by
  obtain ⟨hA, hB, hnow, -⟩ := still_spin f
  cases unit
  · exact ⟨f.spin.driveA, hA, congrArg (Drive.step · f.spin.driveA) hnow⟩
  · exact ⟨f.spin.driveB, hB, congrArg (Drive.step · f.spin.driveB) hnow⟩

theorem mechanics_now (f : FdcState) : f.mechanics.now = f.now + 1 := (still_spin f).2.2.1

theorem mechanics_res (f : FdcState) : f.mechanics.res = f.res := (still_spin f).2.2.2.1

theorem mechanics_fmtIds (f : FdcState) : f.mechanics.fmtIds = f.fmtIds := (still_spin f).2.2.2.2

theorem dispatch_arm (f : FdcState) (unit : Bool) : (f.dispatch.drive unit).arm = f.sent unit (f.drive unit).arm := by
  cases hseek : f.seekRequest with
  | some target => rw [dispatch_of_seekRequest hseek, cmdSeekTo_arm hseek]
  | none =>
    have hnone : f.accepted unit = none := by
      rw [accepted, hseek]
      split <;> rfl
    rw [(still_dispatch hseek).arm unit, sent, hnone]

end

/-! ## Runs -/

/-- A seek that was accepted: its target, and whether the head was not just passing it. -/
structure Seek where
  target : UInt8
  clean : Bool

/-- The last seek accepted for a unit, behind a dispatched command. -/
def noted (f : FdcState) (unit : Bool) (last : Option Seek) : Option Seek :=
  match f.accepted unit with
  | none => last
  | some target => some ⟨target, !((f.drive unit).seeking && (f.drive unit).trackPos == target)⟩

/-- The last seek accepted for a unit, behind a cycle. -/
def noteTick (f : FdcState) (unit : Bool) (b : FdcBus) (last : Option Seek) : Option Seek :=
  match f.commandAt b with
  | none => last
  | some g => g.noted unit last

/-- The last seek accepted for a unit in a run that starts behind `last`. -/
def seekNote (unit : Bool) : FdcState → Option Seek → List FdcBus → Option Seek
  | _, last, [] => last
  | f, last, b :: bs => seekNote unit (f.tick b).2 (f.noteTick unit b last) bs

/-- The last SEEK or RECALIBRATE accepted for a unit in a run. -/
def lastSeek (f : FdcState) (bs : List FdcBus) (unit : Bool) : Option Seek := seekNote unit f none bs

/-- In a run no SEEK or RECALIBRATE is accepted for a unit. -/
def Unsought (unit : Bool) : FdcState → List FdcBus → Prop
  | _, [] => True
  | f, b :: bs => (∀ g, f.commandAt b = some g → g.accepted unit = none) ∧ Unsought unit (f.tick b).2 bs

/-- The heads are at rest and the result buffer is the source's. -/
structure AtRest (f : FdcState) : Prop where
  headA : f.driveA.seeking = false
  headB : f.driveB.seeking = false
  res : f.res.length = 7

end FdcState

/-- A head goes where the last seek sent it, and only there, unless that seek was not clean. -/
structure Arm.Tracks (a : Arm) (last : Option FdcState.Seek) : Prop where
  proper : a.Proper
  none : last = Option.none → a.seeking = false
  goal : ∀ s ∈ last, s.clean = decide (a.goal = s.target)

namespace FdcState

section
variable {f g : FdcState}

theorem tracks_mechanics {unit : Bool} {last : Option Seek} (h : (f.drive unit).arm.Tracks last) :
    (f.mechanics.drive unit).arm.Tracks last := by
  obtain ⟨d, hd, hstep⟩ := mechanics_drive f unit
  rw [← hd] at h
  rw [hstep]
  refine ⟨Drive.step_proper h.proper, fun hnone => ?_, fun s hs => ?_⟩
  · rw [Drive.step_rest (h.none hnone)]
    exact h.none hnone
  · rw [Drive.step_goal]
    exact h.goal s hs

theorem tracks_sent {unit : Bool} {last : Option Seek} (h : (f.drive unit).arm.Tracks last) :
    (f.sent unit (f.drive unit).arm).Tracks (f.noted unit last) := by
  rw [sent, noted]
  cases hacc : f.accepted unit with
  | none => exact h
  | some target =>
    dsimp only
    -- A seek to where the head stands ends at once, unless the head was under way elsewhere.
    by_cases hthere : target = (f.drive unit).arm.trackPos
    · rw [if_pos hthere]
      refine ⟨h.proper, fun hnone => absurd hnone (by simp), fun s hs => ?_⟩
      obtain rfl := Option.some.inj hs
      have hpos : ((f.drive unit).trackPos == target) = true := beq_iff_eq.mpr hthere.symm
      dsimp only
      rw [hpos, Bool.and_true]
      cases hseek : (f.drive unit).seeking with
      | false =>
        have hgoal : (f.drive unit).arm.goal = (f.drive unit).arm.trackPos := Arm.goal_of_rest hseek
        exact (decide_eq_true (hgoal.trans hthere.symm)).symm
      | true =>
        have hgoal : (f.drive unit).arm.goal = (f.drive unit).arm.seekTarget := Arm.goal_of_seeking hseek
        refine (decide_eq_false fun hc => h.proper hseek ?_).symm
        rw [← hgoal, hc, hthere]
    · rw [if_neg hthere]
      refine ⟨fun _ hc => hthere hc.symm, fun hnone => absurd hnone (by simp), fun s hs => ?_⟩
      obtain rfl := Option.some.inj hs
      have hpos : ((f.drive unit).trackPos == target) = false := beq_eq_false_iff_ne.mpr fun hc => hthere hc.symm
      dsimp only
      rw [hpos, Bool.and_false]
      exact (decide_eq_true (Arm.goal_of_seeking rfl)).symm

theorem tracks_tick {unit : Bool} {last : Option Seek} (h : (f.drive unit).arm.Tracks last) (b : FdcBus) :
    ((f.tick b).2.drive unit).arm.Tracks (f.noteTick unit b last) := by
  have hmech := tracks_mechanics h
  rw [noteTick]
  cases hcmd : f.commandAt b with
  | none =>
    rw [(still_tick hcmd).arm unit]
    exact hmech
  | some g =>
    obtain ⟨hdisp, hstill⟩ := tick_of_commandAt hcmd
    rw [hdisp, dispatch_arm]
    exact tracks_sent (hstill.arm unit ▸ hmech)

/-- **Every run**: a head is bound for the track of the last seek, unless that seek was not clean. -/
theorem tracks_run {unit : Bool} {last : Option Seek} (h : (f.drive unit).arm.Tracks last) (bs : List FdcBus) :
    ((f.runBus bs).drive unit).arm.Tracks (seekNote unit f last bs) := by
  induction bs generalizing f last with
  | nil => exact h
  | cons b bs ih => exact ih (tracks_tick h b)

theorem AtRest.tracks (h : f.AtRest) (unit : Bool) : (f.drive unit).arm.Tracks none := by
  have hrest : (f.drive unit).seeking = false := by
    cases unit
    · exact h.headA
    · exact h.headB
  exact ⟨fun hon => Bool.noConfusion (hrest.symm.trans hon), fun _ => hrest, fun s hs => absurd hs (by simp)⟩

theorem dispatch_lengths (hres : g.res.length = 7) :
    g.dispatch.res.length = 7 ∧ g.dispatch.fmtIds.length = g.fmtIds.length ∧ g.dispatch.cmd.length = g.cmd.length ∧
      (g.flux.Sized → g.dispatch.flux.Sized) := by
  cases hseek : g.seekRequest with
  | none =>
    have hstill := still_dispatch hseek
    exact ⟨hstill.res hres, hstill.ids, hstill.cmd, hstill.flux⟩
  | some target =>
    have hinit : g.initStatus.res.length = 7 := List.length_set
    rw [dispatch_of_seekRequest hseek, cmdSeekTo]
    dsimp only
    split
    · split <;> exact ⟨hinit, rfl, rfl, id⟩
    · exact ⟨hinit, rfl, rfl, id⟩

theorem tick_lengths (hres : f.res.length = 7) (b : FdcBus) :
    (f.tick b).2.res.length = 7 ∧ (f.tick b).2.fmtIds.length = f.fmtIds.length := by
  have hmech : f.mechanics.res.length = 7 := (congrArg List.length (mechanics_res f)).trans hres
  have hids : f.mechanics.fmtIds.length = f.fmtIds.length := congrArg List.length (mechanics_fmtIds f)
  cases hcmd : f.commandAt b with
  | none => exact ⟨(still_tick hcmd).res hmech, (still_tick hcmd).ids.trans hids⟩
  | some g =>
    obtain ⟨hdisp, hstill⟩ := tick_of_commandAt hcmd
    obtain ⟨hg, hgIds, -⟩ := dispatch_lengths (hstill.res hmech)
    rw [hdisp]
    exact ⟨hg, (hgIds.trans hstill.ids).trans hids⟩

theorem runBus_lengths (hres : f.res.length = 7) (bs : List FdcBus) :
    (f.runBus bs).res.length = 7 ∧ (f.runBus bs).fmtIds.length = f.fmtIds.length := by
  induction bs generalizing f with
  | nil => exact ⟨hres, rfl⟩
  | cons b bs ih =>
    obtain ⟨hres', hids⟩ := tick_lengths hres b
    obtain ⟨hrun, hrunIds⟩ := ih hres'
    exact ⟨hrun, hrunIds.trans hids⟩

/-! ### Heads at rest -/

theorem rest_tick {unit : Bool} (hrest : (f.drive unit).seeking = false) {b : FdcBus}
    (hb : ∀ g, f.commandAt b = some g → g.accepted unit = none) :
    ((f.tick b).2.drive unit).arm = (f.drive unit).arm := by
  obtain ⟨d, hd, hstep⟩ := mechanics_drive f unit
  have hmech : (f.mechanics.drive unit).arm = (f.drive unit).arm := by
    rw [hstep, Drive.step_rest ((congrArg Arm.seeking hd).trans hrest), hd]
  cases hcmd : f.commandAt b with
  | none => rw [(still_tick hcmd).arm unit, hmech]
  | some g =>
    obtain ⟨hdisp, hstill⟩ := tick_of_commandAt hcmd
    rw [hdisp, dispatch_arm, sent, hb g hcmd]
    exact (hstill.arm unit).trans hmech

theorem rest_run {unit : Bool} (hrest : (f.drive unit).seeking = false) {bs : List FdcBus}
    (hbs : f.Unsought unit bs) : ((f.runBus bs).drive unit).trackPos = (f.drive unit).trackPos := by
  induction bs generalizing f with
  | nil => rfl
  | cons b bs ih =>
    have hsame := rest_tick hrest hbs.1
    have hnext : ((f.tick b).2.drive unit).seeking = false := (congrArg Arm.seeking hsame).trans hrest
    exact (ih hnext hbs.2).trans (congrArg Arm.trackPos hsame)

/-! ### Heads that step -/

theorem commandAt_quiet (f : FdcState) : f.commandAt quiet = none := rfl

theorem unsought_quiet (unit : Bool) (f : FdcState) (n : Nat) : f.Unsought unit (List.replicate n quiet) := by
  induction n generalizing f with
  | zero => exact trivial
  | succ n ih => exact ⟨fun g hg => absurd (hg.symm.trans (commandAt_quiet f)) (by simp), ih _⟩

theorem seeking_moves {unit : Bool} (hseek : (f.drive unit).seeking = true) {n : Nat}
    (hn : (f.drive unit).nextStepAt ≤ f.now + 1 + n) :
    ∃ bs, f.Unsought unit bs ∧ ((f.runBus bs).drive unit).trackPos ≠ (f.drive unit).trackPos := by
  -- by induction on the cycles left until the step
  suffices hmoves : ∃ m, ((f.runBus (List.replicate m quiet)).drive unit).trackPos ≠ (f.drive unit).trackPos by
    obtain ⟨m, hm⟩ := hmoves
    exact ⟨_, unsought_quiet unit f m, hm⟩
  have htick : ∀ f : FdcState, ((f.tick quiet).2.drive unit).arm = (f.mechanics.drive unit).arm := fun f =>
    (still_tick (commandAt_quiet f)).arm unit
  induction n generalizing f with
  | zero =>
    obtain ⟨d, hd, hstep⟩ := mechanics_drive f unit
    have hdue : d.nextStepAt ≤ f.now + 1 := Nat.le_trans (Nat.le_of_eq (congrArg Arm.nextStepAt hd)) hn
    obtain ⟨hpos, -, -⟩ := Drive.step_due ((congrArg Arm.seeking hd).trans hseek) hdue
    refine ⟨1, fun hsame => d.nextTrack_ne ?_⟩
    have hnow : ((f.tick quiet).2.drive unit).trackPos = d.nextTrack :=
      (congrArg Arm.trackPos (htick f)).trans ((congrArg Drive.trackPos hstep).trans hpos)
    exact hnow.symm.trans (hsame.trans (congrArg Arm.trackPos hd).symm)
  | succ n ih =>
    obtain ⟨d, hd, hstep⟩ := mechanics_drive f unit
    by_cases hdue : d.nextStepAt ≤ f.now + 1
    · exact ih hseek (Nat.le_trans (Nat.le_of_eq (congrArg Arm.nextStepAt hd).symm) (Nat.le_trans hdue (Nat.le_add_right _ n)))
    · have hsame : ((f.tick quiet).2.drive unit).arm = (f.drive unit).arm := by
        rw [htick, hstep, Drive.step_of_not_due fun hc => hdue hc.2, hd]
      have hnow : (f.tick quiet).2.now = f.now + 1 := (still_tick (commandAt_quiet f)).now.trans (mechanics_now f)
      have hleft : ((f.tick quiet).2.drive unit).nextStepAt ≤ (f.tick quiet).2.now + 1 + n := by
        rw [hnow]
        refine Nat.le_trans (Nat.le_of_eq (congrArg Arm.nextStepAt hsame)) (Nat.le_trans hn (Nat.le_of_eq ?_))
        omega
      obtain ⟨m, hm⟩ := ih ((congrArg Arm.seeking hsame).trans hseek) hleft
      exact ⟨m + 1, fun hc => hm (hc.trans (congrArg Arm.trackPos hsame).symm)⟩

/-! ## SENSE INTERRUPT STATUS -/

/-- ST0 of a normal Seek End. -/
def seekEndStatus (unit : Bool) : UInt8 := if unit then 0x21 else 0x20

/-- A cycle dispatches a SENSE INTERRUPT STATUS, which reports a normal Seek End of the unit. -/
def ReportsSeekEnd (f : FdcState) (b : FdcBus) (unit : Bool) : Prop :=
  (f.commandAt b).map FdcState.code = some 0x08 ∧ (f.tick b).2.resAt 0 = seekEndStatus unit

instance (f : FdcState) (b : FdcBus) (unit : Bool) : Decidable (f.ReportsSeekEnd b unit) :=
  inferInstanceAs (Decidable (_ ∧ _))

/-- The present cylinder number reported is the target of the last seek, and the unit's head stays
    there until a new one is accepted. -/
def SeekEndRight (f : FdcState) (unit : Bool) (last : Option Seek) : Prop :=
  (∀ s ∈ last, f.resAt 1 = s.target) ∧
    ∀ cs, f.Unsought unit cs → ((f.runBus cs).drive unit).trackPos = f.resAt 1

theorem report_res (h : f.res.length = 7) (st0 pcn : UInt8) :
    ((f.setRes 0 st0).setRes 1 pcn).enterResult.resAt 0 = st0 ∧
      ((f.setRes 0 st0).setRes 1 pcn).enterResult.resAt 1 = pcn := by
  constructor
  · refine (byteAt_set_ne (f.res.set 0 st0) pcn (by decide)).trans ?_
    exact byteAt_set_self _ (by rw [h]; decide)
  · exact byteAt_set_self _ (List.length_set.symm ▸ h.symm ▸ (by decide : 1 < 7))

theorem st0_unit_A (x : UInt8) : (x &&& 0x48) ||| 0x20 ≠ 0x21 := by
  intro h
  have hbit := congrArg (fun v : UInt8 => v.toBitVec.getLsbD 0) h
  simp at hbit

theorem st0_unit_B (x : UInt8) : (x &&& 0x48) ||| 0x21 ≠ 0x20 := by
  intro h
  have hbit := congrArg (fun v : UInt8 => v.toBitVec.getLsbD 0) h
  simp at hbit

theorem sense_report (h : f.res.length = 7) {unit : Bool}
    (hreport : f.cmdSenseInterrupt.resAt 0 = seekEndStatus unit) :
    f.cmdSenseInterrupt.resAt 1 = (f.drive unit).trackPos := by
  have hends : ∀ st0 : UInt8, st0 ≠ 0x20 → st0 ≠ 0x21 → st0 ≠ seekEndStatus unit := by
    intro st0 hA hB
    cases unit
    · exact hA
    · exact hB
  rw [cmdSenseInterrupt] at hreport ⊢
  split at hreport
  · -- unit A's Seek End
    rename_i hdone
    rw [if_pos hdone]
    obtain ⟨hst0, hpcn⟩ := report_res (f := { f with driveA := { f.driveA with seekDone := false, statusChanged := false } })
      h (f.resAt 0 &&& 0x48 ||| 0x20) f.driveA.trackPos
    cases unit
    · exact hpcn
    · exact absurd (hst0.symm.trans hreport) (st0_unit_A _)
  rename_i hA
  rw [if_neg hA]
  split at hreport
  · -- unit B's
    rename_i hdone
    rw [if_pos hdone]
    obtain ⟨hst0, hpcn⟩ := report_res (f := { f with driveB := { f.driveB with seekDone := false, statusChanged := false } })
      h (f.resAt 0 &&& 0x48 ||| 0x21) f.driveB.trackPos
    cases unit
    · exact absurd (hst0.symm.trans hreport) (st0_unit_B _)
    · exact hpcn
  -- a change of the ready line, or nothing at all, is not a Seek End
  split at hreport
  · obtain ⟨hst0, -⟩ := report_res (f := { f with driveA := { f.driveA with statusChanged := false } }) h
      (if FdcState.driveReady { f with driveA := { f.driveA with statusChanged := false } } false then 0xC0 else 0xC8)
      f.driveA.trackPos
    refine absurd (hst0.symm.trans hreport) (hends _ ?_ ?_) <;> split <;> decide
  split at hreport
  · obtain ⟨hst0, -⟩ := report_res (f := { f with driveB := { f.driveB with statusChanged := false } }) h
      (if FdcState.driveReady { f with driveB := { f.driveB with statusChanged := false } } true then 0xC1 else 0xC9)
      f.driveB.trackPos
    refine absurd (hst0.symm.trans hreport) (hends _ ?_ ?_) <;> split <;> decide
  · have hst0 : FdcState.resAt (enterResult { f.setRes 0 0x80 with resLen := 1 }) 0 = 0x80 :=
      byteAt_set_self _ (by rw [h]; decide)
    exact absurd (hst0.symm.trans hreport) (hends _ (by decide) (by decide))

theorem report_pcn {b : FdcBus} {unit : Bool} (hres : f.res.length = 7) (hreport : f.ReportsSeekEnd b unit) :
    ((f.tick b).2.drive unit).arm = (f.mechanics.drive unit).arm ∧
      (f.tick b).2.resAt 1 = (f.mechanics.drive unit).trackPos := by
  obtain ⟨hcmd, hst0⟩ := hreport
  cases hg : f.commandAt b with
  | none =>
    rw [hg] at hcmd
    exact absurd hcmd (by simp)
  | some g =>
    rw [hg] at hcmd
    have hcode : g.code = 0x08 := Option.some.inj hcmd
    have hseek : g.seekRequest = none := by
      rw [seekRequest, hcode]
      rfl
    have hsense : g.dispatch = g.cmdSenseInterrupt := by
      rw [dispatch, hcode]
      rfl
    obtain ⟨hdisp, hstill⟩ := tick_of_commandAt hg
    have hlen : g.res.length = 7 := hstill.res ((congrArg List.length (mechanics_res f)).trans hres)
    rw [hdisp, hsense] at hst0
    refine ⟨?_, ?_⟩
    · rw [hdisp, (still_dispatch hseek).arm unit, hstill.arm unit]
    · rw [hdisp, hsense, sense_report hlen hst0]
      exact congrArg Arm.trackPos (hstill.arm unit)

end

/-- **Seek Ends**: in every run from heads at rest, a normal Seek End is reported with the target of
    the last seek accepted for its unit, and stays true until the next one, exactly when the head
    does not step at the time of the report and the last seek did not come while it was passing its
    own target. -/
theorem seek_end_iff {f₀ : FdcState} (hrest : f₀.AtRest) (bs : List FdcBus) (b : FdcBus) (unit : Bool)
    (hreport : (f₀.runBus bs).ReportsSeekEnd b unit) :
    ((f₀.runBus bs).tick b).2.SeekEndRight unit (f₀.lastSeek bs unit) ↔
      ((f₀.runBus bs).mechanics.drive unit).seeking = false ∧ ∀ s ∈ f₀.lastSeek bs unit, s.clean = true := by
  have htracks := tracks_run (hrest.tracks unit) bs
  have hmech := tracks_mechanics htracks
  obtain ⟨harm, hpcn⟩ := report_pcn ((runBus_lengths hrest.res bs).1) hreport
  have hpos : (((f₀.runBus bs).tick b).2.drive unit).trackPos = ((f₀.runBus bs).tick b).2.resAt 1 :=
    (congrArg Arm.trackPos harm).trans hpcn.symm
  constructor
  · rintro ⟨htarget, hstays⟩
    -- a head that steps would leave the reported cylinder
    have hstill : ((f₀.runBus bs).mechanics.drive unit).seeking = false := by
      by_contra hon
      have hseek : (((f₀.runBus bs).tick b).2.drive unit).seeking = true :=
        (congrArg Arm.seeking harm).trans (Bool.not_eq_false _ ▸ hon)
      obtain ⟨cs, hcs, hmoved⟩ := seeking_moves hseek (Nat.le_add_left _ _)
      exact hmoved ((hstays cs hcs).trans hpos.symm)
    refine ⟨hstill, fun s hs => ?_⟩
    rw [hmech.goal s hs]
    refine decide_eq_true ?_
    rw [Arm.goal_of_rest hstill, ← htarget s hs]
    exact hpcn.symm
  · rintro ⟨hstill, hclean⟩
    refine ⟨fun s hs => ?_, fun cs hcs => ?_⟩
    · have hgoal := of_decide_eq_true ((hmech.goal s hs).symm.trans (hclean s hs))
      rw [Arm.goal_of_rest hstill] at hgoal
      exact hpcn.trans hgoal
    · exact (rest_run ((congrArg Arm.seeking harm).trans hstill) hcs).trans hpos

/-- Spin-up of a disc in drive A, and the bytes of some commands, the last of which is left to the
    next cycle. -/
def spinUp : List FdcBus := [motorOn, quiet] ++ List.replicate 7999998 quiet
def commands (vs : List UInt8) : List FdcBus := vs.flatMap fun v => [quiet, dataOut v]

theorem spinUp_eq {a b : List UInt8} (hspin : ((withDisks a b).runBus [motorOn, quiet]).Coasts 7999998) :
    (withDisks a b).runBus spinUp = writeReady a b := by
  rw [spinUp, runBus_append, runBus_coast hspin]
  rfl

/-- RECALIBRATE of a head on its track 0, sensed. -/
theorem seek_end_recalibrated :
    (((writeReady hollowImage []).runBus (commands [0x07, 0] ++ [quiet])).tick (dataOut 0x08)).2.SeekEndRight false
        ((writeReady hollowImage []).lastSeek (commands [0x07, 0] ++ [quiet]) false) ↔
      (((writeReady hollowImage []).runBus (commands [0x07, 0] ++ [quiet])).mechanics.drive false).seeking = false ∧
        ∀ s ∈ (writeReady hollowImage []).lastSeek (commands [0x07, 0] ++ [quiet]) false, s.clean = true := by
  have hrest : (writeReady hollowImage []).AtRest := ⟨by decide, by decide, by decide⟩
  exact seek_end_iff hrest _ _ false (by decide)

/-- A SEEK of track 5 is under way when RECALIBRATE finds the head still on track 0. Its Seek End is
    reported at once, but the head goes on to track 5. -/
theorem recalibrate_does_not_stop :
    ((withDisks hollowImage []).runBus (spinUp ++ (commands [0x0F, 0, 5, 0x07, 0] ++ [quiet]))).ReportsSeekEnd
        (dataOut 0x08) false ∧
      ¬ (((withDisks hollowImage []).runBus (spinUp ++ (commands [0x0F, 0, 5, 0x07, 0] ++ [quiet]))).tick
        (dataOut 0x08)).2.SeekEndRight false
          ((withDisks hollowImage []).lastSeek (spinUp ++ (commands [0x0F, 0, 5, 0x07, 0] ++ [quiet])) false) := by
  obtain ⟨hreport, hseek, hpos⟩ :
      ((writeReady hollowImage []).runBus (commands [0x0F, 0, 5, 0x07, 0] ++ [quiet])).ReportsSeekEnd (dataOut 0x08) false ∧
      ((((writeReady hollowImage []).runBus (commands [0x0F, 0, 5, 0x07, 0] ++ [quiet])).tick (dataOut 0x08)).2.drive false).seeking =
        true ∧
      ((((writeReady hollowImage []).runBus (commands [0x0F, 0, 5, 0x07, 0] ++ [quiet])).tick (dataOut 0x08)).2.drive false).trackPos =
        (((writeReady hollowImage []).runBus (commands [0x0F, 0, 5, 0x07, 0] ++ [quiet])).tick (dataOut 0x08)).2.resAt 1 := by
    decide
  rw [runBus_append, spinUp_eq (by decide)]
  refine ⟨hreport, fun hright => ?_⟩
  obtain ⟨cs, hcs, hmoved⟩ := seeking_moves hseek (Nat.le_add_left _ _)
  exact hmoved ((hright.2 cs hcs).trans hpos.symm)

end FdcState

end Koncepcja.Disk
