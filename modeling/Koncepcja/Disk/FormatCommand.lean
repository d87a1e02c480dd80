import Koncepcja.Disk.SectorTransfer
import Koncepcja.Disk.FormatTrack

/-!
# The FORMAT TRACK Command

The command checks its parameters, takes the IDs, and rewrites the track when the index hole comes
round. Until then, and whenever it fails, the media stay as they are.

## Main results

- `medium_tick_of_format`: no cycle of a FORMAT but the one that commits it touches a medium.
- `format_iff`: in every run a FORMAT is exact and atomic given that the image has the room, and only
  then.
-/

namespace Koncepcja.Disk

open Koncepcja.Bits Koncepcja.Bytes

set_option maxRecDepth 20000

namespace FdcState

section
variable {f g : FdcState}

/-! ## Cycles that leave the media alone -/

theorem mechanics_medium (f : FdcState) (unit : Bool) : f.mechanics.medium unit = f.medium unit := by
  obtain ⟨hk, -, -⟩ := spin_kept f
  exact medium_eq ((Drive.step_media _ _).trans hk.mediaA) ((Drive.step_media _ _).trans hk.mediaB) unit

theorem readIdDone_drives (f : FdcState) : f.readIdDone.driveA = f.driveA ∧ f.readIdDone.driveB = f.driveB := by
  rw [readIdDone]
  split
  · split
    · exact ⟨rfl, rfl⟩
    · exact ⟨rfl, rfl⟩
  · exact ⟨rfl, rfl⟩

theorem medium_of_drives (h : g.driveA = f.driveA ∧ g.driveB = f.driveB) (unit : Bool) : g.medium unit = f.medium unit :=
  medium_eq (congrArg Drive.media h.1) (congrArg Drive.media h.2) unit

theorem completePending_medium (hpending : f.pending ≠ .formatDone) (unit : Bool) :
    f.completePending.medium unit = f.medium unit := by
  rw [completePending]
  split
  · exact medium_of_drives (f.unscheduled.fetchTrack.readIdDone_drives) unit
  · exact medium_of_drives ⟨rfl, rfl⟩ unit
  · rename_i hformat
    exact absurd hformat hpending
  · exact medium_of_drives ⟨rfl, rfl⟩ unit

theorem timers_medium (hformat : ¬ (f.Formatting ∧ f.dueAt ≤ f.now)) (unit : Bool) :
    f.timers.medium unit = f.medium unit := by
  obtain ⟨u, hu, hmedium⟩ : ∃ u, (if f.phase = .busy ∧ f.dueAt ≤ f.now then f.completePending else f) = u ∧
      u.medium unit = f.medium unit := by
    refine ⟨_, rfl, ?_⟩
    split
    · rename_i hdue
      exact completePending_medium (fun hpending => hformat ⟨⟨hdue.1, hpending⟩, hdue.2⟩) unit
    · rfl
  rw [timers_eq hu, ← hmedium]
  split <;> rfl

theorem access_medium (hphase : f.phase ≠ .cmd) (hexec : f.phase = .exec → f.dirToCpu = false ∧ f.code = 0x0D)
    (b : FdcBus) (unit : Bool) : (f.access b).2.medium unit = f.medium unit := by
  obtain ⟨u, hkept, huphase, -, hcases⟩ := access_cases b f
  have hu : u.medium unit = f.medium unit := medium_eq hkept.mediaA hkept.mediaB unit
  rw [← hu]
  -- An access latches, reads a byte or takes one; only the last could reach the medium.
  rcases hcases with heq | heq | heq
  · rw [heq]
  · rw [heq]
    change u.dataRead.2.medium unit = u.medium unit
    rw [dataRead]
    cases hp : u.phase with
    | exec =>
      have hdir : u.dirToCpu = false := hkept.dirToCpu.trans (hexec (huphase.symm.trans hp)).1
      dsimp only
      rw [if_pos hdir]
    | result =>
      dsimp only
      split <;> rfl
    | cmd => rfl
    | busy => rfl
  · rw [heq, dataWrite]
    split
    · -- The byte belongs to FORMAT, which gathers the IDs before it writes the track.
      rename_i hp
      have hcode : u.code = 0x0D := hkept.code.trans (hexec (huphase.symm.trans hp.1)).2
      rw [execWriteByte, if_pos hcode, formatByte]
      dsimp only
      split <;> rfl
    · rw [if_pos (huphase.symm ▸ hphase)]

theorem command_some {val : UInt8} (h : f.command val = some g) :
    f.phase = .cmd ∧ ∀ unit, g.medium unit = f.medium unit := by
  rw [command] at h
  split at h
  · exact absurd h (by simp)
  rename_i hphase
  refine ⟨not_not.mp hphase, fun unit => ?_⟩
  split at h
  · split at h
    · exact absurd h (by simp)
    · split at h
      · rw [← Option.some.inj h]
        rfl
      · exact absurd h (by simp)
  · split at h
    · rw [← Option.some.inj h]
      rfl
    · exact absurd h (by simp)

theorem cmdFormatTrack_drives (f : FdcState) : f.cmdFormatTrack.driveA = f.driveA ∧ f.cmdFormatTrack.driveB = f.driveB := by
  have hhead : (f.initStatus.loadHead.setRes 6 (byteAt f.initStatus.cmd 2)).driveA = f.driveA ∧
      (f.initStatus.loadHead.setRes 6 (byteAt f.initStatus.cmd 2)).driveB = f.driveB := ⟨rfl, rfl⟩
  rw [cmdFormatTrack]
  split
  · dsimp only
    generalize f.initStatus.loadHead.setRes 6 (byteAt f.initStatus.cmd 2) = u at hhead ⊢
    split
    · exact hhead
    · exact hhead
  · exact ⟨rfl, rfl⟩

/-! ## A FORMAT in a run -/

/-- A cycle of a FORMAT: it dispatches the command, takes its IDs, or waits for the index hole. -/
def FormatAt (f : FdcState) (b : FdcBus) : Prop :=
  f.phase = .exec ∧ f.code = 0x0D ∨ f.Formatting ∨ ∃ g, f.commandAt b = some g ∧ g.code = 0x0D

/-- In this cycle the index hole comes round and `do_format` is called. -/
def Commits (f : FdcState) : Prop := f.mechanics.Formatting ∧ f.mechanics.dueAt ≤ f.mechanics.now

/-- `do_format` finds the track and its room. -/
def Accepts (f : FdcState) : Prop :=
  (f.drive f.unit).trackPos.toNat < (f.medium f.unit).geo.tracks ∧
    ∃ image, (f.medium f.unit).image = some image ∧
      formatFits image f.headSlot ((f.medium f.unit).trk f.headSlot) (byteAt f.cmd 2) (byteAt f.cmd 3) = true

/-- The result a FORMAT leaves reports its normal end. -/
def EndsNormally (f : FdcState) : Prop := f.resAt 0 &&& 0xC0 = 0

/-- The cycle treats a FORMAT as it should: a commit with a normal end formats the addressed medium
    and leaves the other one, and any other cycle leaves both. -/
structure FormatRight (f : FdcState) (b : FdcBus) : Prop where
  success : f.Commits → f.mechanics.timers.EndsNormally →
    Formatted (f.medium f.unit) ((f.tick b).2.medium f.unit) f.mechanics.headSlot (byteAt f.cmd 2) (byteAt f.cmd 3)
        (byteAt f.cmd 4) (byteAt f.cmd 5) f.fmtIds ∧
      (f.tick b).2.medium (!f.unit) = f.medium (!f.unit)
  failure : ¬ (f.Commits ∧ f.mechanics.timers.EndsNormally) → ∀ unit, (f.tick b).2.medium unit = f.medium unit

/-- No cycle but the commit touches a medium. -/
theorem medium_tick_of_format (harmed : f.Armed) {b : FdcBus} (hat : f.FormatAt b) (hcommit : ¬ f.Commits) (unit : Bool) :
    (f.tick b).2.medium unit = f.medium unit := by
  have htimers : f.mechanics.timers.medium unit = f.medium unit :=
    (timers_medium hcommit unit).trans (mechanics_medium f unit)
  rcases hat with ⟨hexec, hcode⟩ | hformat | ⟨g, hcmd, hcode⟩
  · -- the IDs come in, or one is missed
    have hmexec : f.mechanics.phase = .exec := (holds_mechanics f).phase.trans hexec
    have hmcode : f.mechanics.code = 0x0D := (holds_mechanics f).code.trans hcode
    have hdir := (harmed.ids hexec hcode).1
    rw [tick, ← htimers]
    rcases timers_of_exec hmexec with heq | hresult
    · refine access_medium ?_ (fun _ => ?_) b unit
      · rw [heq, hmexec]
        exact FdcPhase.noConfusion
      · rw [heq]
        exact ⟨(holds_mechanics f).dirToCpu.trans hdir, hmcode⟩
    · refine access_medium ?_ (fun hc => FdcPhase.noConfusion (hresult.symm.trans hc)) b unit
      rw [hresult]
      exact FdcPhase.noConfusion
  · -- the index hole has not come round
    have hmformat : f.mechanics.Formatting :=
      ⟨(holds_mechanics f).phase.trans hformat.1, (holds_mechanics f).pending.trans hformat.2⟩
    have hwait : ¬ (f.mechanics.phase = .busy ∧ f.mechanics.dueAt ≤ f.mechanics.now) := fun hc =>
      hcommit ⟨hmformat, hc.2⟩
    have hsame : f.mechanics.timers = f.mechanics := by
      rw [timers_eq (if_neg hwait), if_neg fun hc => FdcPhase.noConfusion (hmformat.1.symm.trans hc.1)]
    have hbusy : f.mechanics.timers.phase = .busy := by rw [hsame, hmformat.1]
    rw [tick, ← htimers]
    refine access_medium ?_ (fun hc => FdcPhase.noConfusion (hbusy.symm.trans hc)) b unit
    rw [hbusy]
    exact FdcPhase.noConfusion
  · -- the command is dispatched
    have hdispatch : g.dispatch = g.cmdFormatTrack := by
      rw [dispatch, hcode]
      rfl
    rw [(tick_of_commandAt hcmd).1, hdispatch, medium_of_drives g.cmdFormatTrack_drives]
    rw [commandAt] at hcmd
    split at hcmd
    · obtain ⟨hphase, hmedium⟩ := command_some hcmd
      rw [hmedium, ← htimers]
      rfl
    · exact absurd hcmd (by simp)

/-! ## The commit -/

theorem formatResult_ends {u : FdcState} (hres : u.res.length = 7) (st0 c h n : UInt8) :
    (u.formatResult (st0 &&& 7) c h n).EndsNormally := by
  have hst0 : (u.formatResult (st0 &&& 7) c h n).resAt 0 = st0 &&& 7 := by
    refine (byteAt_set_ne _ n (by decide)).trans ((byteAt_set_ne _ h (by decide)).trans ?_)
    refine (byteAt_set_ne _ c (by decide)).trans (byteAt_set_self _ ?_)
    rw [hres]
    decide
  have hmask : (7 : UInt8) &&& 0xC0 = 0 := by decide
  rw [EndsNormally, hst0, UInt8.and_assoc, hmask, UInt8.and_zero]

theorem doFormat_of_accepts {image : List UInt8} (hres : f.res.length = 7) (himage : (f.medium f.unit).image = some image)
    (htrack : (f.drive f.unit).trackPos.toNat < (f.medium f.unit).geo.tracks)
    (hfits : formatFits image f.headSlot ((f.medium f.unit).trk f.headSlot) (byteAt f.cmd 2) (byteAt f.cmd 3) = true) :
    (∀ unit, f.doFormat.medium unit =
      if f.unit = unit then
        { parseMedia (formatImage image ((f.medium f.unit).trk f.headSlot) (byteAt f.cmd 2) (byteAt f.cmd 3)
            (byteAt f.cmd 4) (byteAt f.cmd 5) f.fmtIds) with dirty := true }
      else f.medium unit) ∧ f.doFormat.EndsNormally := by
  have himage' : (f.drive f.unit).media.image = some image := himage
  have hgo : (f.drive f.unit).trackPos.toNat < (f.drive f.unit).media.geo.tracks ∧
      formatFits image f.headSlot ((f.drive f.unit).media.geo.track.getD f.headSlot {}) (byteAt f.cmd 2) (byteAt f.cmd 3) =
        true := ⟨htrack, hfits⟩
  rw [doFormat]
  dsimp only
  rw [himage']
  dsimp only
  rw [if_pos hgo]
  refine ⟨fun unit => ?_, formatResult_ends ((still_remount f _).res hres) _ _ _ _⟩
  rw [formatResult_medium]
  exact remount_medium f _ unit

theorem notWritable_ends (hres : f.res.length = 7) : ¬ f.notWritable.EndsNormally := by
  have hst0 : f.notWritable.resAt 0 = f.resAt 0 ||| 0x40 := by
    refine (byteAt_set_ne _ _ (by decide)).trans ?_
    exact byteAt_set_self _ (by rw [hres]; decide)
  rw [EndsNormally, hst0]
  intro hzero
  have hbit := congrArg (fun v : UInt8 => v.toBitVec.getLsbD 6) hzero
  simp at hbit

theorem doFormat_of_not (hres : f.res.length = 7) (h : ¬ f.Accepts) :
    (∀ unit, f.doFormat.medium unit = f.medium unit) ∧ ¬ f.doFormat.EndsNormally := by
  rw [doFormat]
  dsimp only
  split
  · exact ⟨fun _ => rfl, notWritable_ends hres⟩
  · rename_i image himage
    split
    · rename_i hgo
      exact absurd ⟨hgo.1, image, himage, hgo.2⟩ h
    · exact ⟨fun _ => rfl, notWritable_ends hres⟩

theorem timers_of_commits (h : f.Commits) :
    f.mechanics.timers = f.mechanics.unscheduled.doFormat := by
  have hdone : f.mechanics.completePending = f.mechanics.unscheduled.doFormat := by
    rw [completePending, h.1.2]
  rw [timers_eq (if_pos ⟨h.1.1, h.2⟩), hdone, if_neg]
  rw [doFormat_phase]
  exact fun hexec => FdcPhase.noConfusion hexec.1

theorem tick_medium_of_commits (h : f.Commits) (b : FdcBus) (unit : Bool) :
    (f.tick b).2.medium unit = f.mechanics.timers.medium unit := by
  have hresult : f.mechanics.timers.phase = .result := by
    rw [timers_of_commits h]
    exact doFormat_phase _
  rw [tick]
  refine access_medium ?_ (fun hc => FdcPhase.noConfusion (hresult.symm.trans hc)) b unit
  rw [hresult]
  exact FdcPhase.noConfusion

end

/-- What the FORMAT of this cycle needs of the image, where `do_format` accepts it. -/
def HasRoom (f : FdcState) : Prop :=
  f.mechanics.Accepts → FormatRoom (f.medium f.unit) f.mechanics.headSlot (byteAt f.cmd 2) (byteAt f.cmd 3)
    (byteAt f.cmd 4) (byteAt f.cmd 5) f.fmtIds

/-- **FORMAT TRACK**: in every run, in every cycle of a FORMAT on a medium that is what its image parses
    to, the command is exact and atomic if and only if, where the cycle commits it, the image has the
    room. -/
theorem format_iff (imageA imageB : List UInt8) (bs : List FdcBus) (b : FdcBus)
    (hat : ((withDisks imageA imageB).runBus bs).FormatAt b)
    (hmedium : ∀ image, (((withDisks imageA imageB).runBus bs).medium ((withDisks imageA imageB).runBus bs).unit).image = some image →
      parseDsk image = some (((withDisks imageA imageB).runBus bs).medium ((withDisks imageA imageB).runBus bs).unit).geo) :
    ((withDisks imageA imageB).runBus bs).FormatRight b ↔
      (((withDisks imageA imageB).runBus bs).Commits → ((withDisks imageA imageB).runBus bs).HasRoom) := by
  have harmed := armed_runBus (armed_withDisks imageA imageB) bs
  obtain ⟨hres, hids⟩ := runBus_lengths (f := withDisks imageA imageB) rfl bs
  generalize (withDisks imageA imageB).runBus bs = f at *
  by_cases hcommit : f.Commits
  · -- the state `do_format` is called in
    obtain ⟨u, hu⟩ : ∃ u : FdcState, u = f.mechanics.unscheduled := ⟨_, rfl⟩
    have hcmd : f.mechanics.cmd = f.cmd := (holds_mechanics f).cmd
    have hunit : f.mechanics.unit = f.unit := unit_eq_of_cmd hcmd
    have humedium : ∀ unit, u.medium unit = f.medium unit := fun unit => by
      rw [hu]
      exact mechanics_medium f unit
    have hures : u.res.length = 7 := by
      rw [hu]
      exact (congrArg List.length (mechanics_res f)).trans hres
    have hdone : f.mechanics.timers = u.doFormat := by
      rw [hu]
      exact timers_of_commits hcommit
    have htick : ∀ unit, (f.tick b).2.medium unit = u.doFormat.medium unit := fun unit => by
      rw [tick_medium_of_commits hcommit, hdone]
    have huacc : u.Accepts ↔ f.mechanics.Accepts := by
      rw [hu]
      exact Iff.rfl
    by_cases hacc : f.mechanics.Accepts
    · obtain ⟨htrack, image, himage, hfits⟩ := huacc.mpr hacc
      obtain ⟨hmedia, hends⟩ := doFormat_of_accepts hures himage htrack hfits
      have hchecked : u.Checked := by
        rw [hu]
        exact Checked.of_cmd rfl (harmed.commit ⟨(holds_mechanics f).phase.symm.trans hcommit.1.1,
          (holds_mechanics f).pending.symm.trans hcommit.1.2⟩ |>.of_cmd hcmd)
      have hargs : FormatArgs (byteAt u.cmd 2) (byteAt u.cmd 3) u.fmtIds := by
        refine ⟨hchecked.count.2, hchecked.size, ?_⟩
        rw [hu]
        exact (congrArg List.length (mechanics_fmtIds f)).trans hids
      have huslot : u.headSlot = f.mechanics.headSlot := by
        rw [hu]
        rfl
      have hucmd : u.cmd = f.cmd := by
        rw [hu]
        exact hcmd
      have huunit : u.unit = f.unit := unit_eq_of_cmd hucmd
      have huids : u.fmtIds = f.fmtIds := by
        rw [hu]
        exact mechanics_fmtIds f
      rw [hucmd, huids] at hargs
      rw [huunit, humedium] at himage hfits
      rw [huslot, hucmd] at hfits
      rw [huunit, humedium, huslot, hucmd, huids] at hmedia
      have hkey := formatted_iff (byteAt f.cmd 4) (byteAt f.cmd 5) himage (hmedium image himage) hargs hfits
      have hnormal : f.mechanics.timers.EndsNormally := hdone ▸ hends
      constructor
      · intro hright _ _
        have hdoneMedium := (hright.success hcommit hnormal).1
        rw [htick, hmedia, if_pos rfl] at hdoneMedium
        exact hkey.mp hdoneMedium
      · intro hroom
        refine ⟨fun _ _ => ⟨?_, ?_⟩, fun hc => absurd ⟨hcommit, hnormal⟩ hc⟩
        · rw [htick, hmedia, if_pos rfl]
          exact hkey.mpr (hroom hcommit hacc)
        · have hne : ¬ f.unit = !f.unit := by cases f.unit <;> decide
          rw [htick, hmedia, if_neg hne, humedium]
    · obtain ⟨hmedia, hends⟩ := doFormat_of_not hures (fun hc => hacc (huacc.mp hc))
      refine ⟨fun _ _ hc => absurd hc hacc, fun _ => ⟨fun _ hc => ?_, fun _ unit => ?_⟩⟩
      · rw [hdone] at hc
        exact absurd hc hends
      · rw [htick, hmedia, humedium]
  · -- nothing is written
    refine ⟨fun _ hc => absurd hc hcommit, fun _ => ⟨fun hc => absurd hc hcommit, fun _ unit => ?_⟩⟩
    exact medium_tick_of_format harmed hat hcommit unit

/-- Spin-up, a FORMAT of one sector with the size code `n`, and the wait for the index hole. -/
def formatCommand (n : UInt8) : List FdcBus := commands [0x4D, 0, n, 1, 0x4E, 0xE5, 0, 0, 1, n]
def formatRun (n : UInt8) : List FdcBus := spinUp ++ (formatCommand n ++ List.replicate 1599980 quiet)

/-- The controller whose next cycle commits it. -/
def formatDue (n : UInt8) : FdcState := ((writeReady sampleImage []).runBus (formatCommand n)).coast 1599980

theorem formatRun_eq {n : UInt8} (h : ((writeReady sampleImage []).runBus (formatCommand n)).Coasts 1599980) :
    (withDisks sampleImage []).runBus (formatRun n) = formatDue n := by
  rw [formatRun, runBus_append, spinUp_eq (by decide), runBus_append, runBus_coast h]
  rfl

theorem format_sample :
    ((withDisks sampleImage []).runBus (formatRun 0)).FormatRight quiet ↔
      (((withDisks sampleImage []).runBus (formatRun 0)).Commits →
        ((withDisks sampleImage []).runBus (formatRun 0)).HasRoom) := by
  have hrun : (withDisks sampleImage []).runBus (formatRun 0) = formatDue 0 := formatRun_eq (by decide)
  refine format_iff sampleImage [] (formatRun 0) quiet ?_ ?_
  · rw [hrun]
    exact .inr (.inl ⟨by decide, by decide⟩)
  · rw [hrun]
    obtain ⟨himage, hparse⟩ : ((formatDue 0).medium (formatDue 0).unit).image = some sampleImage ∧
        parseDsk sampleImage = some ((formatDue 0).medium (formatDue 0).unit).geo := by decide
    intro image hsome
    rw [← Option.some.inj (himage.symm.trans hsome)]
    exact hparse

/-- The block of the sample's track is declared longer than the image. A sector of 256 bytes fits the
    block and not the image: the FORMAT ends normally, and the disc is gone. -/
theorem format_unmounts : ¬ ((withDisks sampleImage []).runBus (formatRun 1)).FormatRight quiet := by
  obtain ⟨hphase, hpending, hdue, hends, hgone⟩ :
      (formatDue 1).mechanics.phase = .busy ∧ (formatDue 1).mechanics.pending = .formatDone ∧
      (formatDue 1).mechanics.dueAt ≤ (formatDue 1).mechanics.now ∧
      (formatDue 1).mechanics.timers.resAt 0 &&& 0xC0 = 0 ∧
      (((formatDue 1).tick quiet).2.medium (formatDue 1).unit).image = none := by decide
  rw [formatRun_eq (by decide)]
  intro hright
  obtain ⟨image, himage, -⟩ := (hright.success ⟨⟨hphase, hpending⟩, hdue⟩ hends).1.mounted
  rw [hgone] at himage
  exact absurd himage (by simp)

end FdcState

end Koncepcja.Disk
