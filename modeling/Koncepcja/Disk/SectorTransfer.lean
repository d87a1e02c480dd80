import Koncepcja.Disk.SeekEnd

/-!
# Sector Transfers

READ DATA and WRITE DATA move the bytes of a sector one access at a time, counting `remaining` down
from `xfer_length`; the counter is tested behind the decrement. A transfer of no bytes, which N = 0
with DTL = 0 asks for, therefore does not end at zero: its counter wraps.

## Main results

- `moves_tick`: one cycle of a transfer moves a byte, or none, or misses it.
- `armed_tick`: wherever a transfer is scheduled, its counter is the transfer length.
- `transfer_count_iff`: a sector's transfer moves exactly its length, unless that length is zero.
-/

namespace Koncepcja.Disk

open Koncepcja.Bits Koncepcja.Bytes

set_option maxRecDepth 20000

namespace FdcState

/-! ## The bytes of a transfer -/

/-- The bus reads the data register. -/
def readsData (b : FdcBus) : Bool :=
  b.iorq && !b.m1 && b.addr &&& 0x0480 == 0 && b.addr &&& 0x0100 != 0 && b.rd && b.addr &&& 0x0001 != 0

/-- The byte the bus half of a cycle moves between the CPU and the sector. -/
def moved (f : FdcState) (b : FdcBus) : Option UInt8 :=
  if f.accessPrev then none
  else if f.dirToCpu then if readsData b then some f.headByte else none
  else if writesData b then some b.data
  else none

/-- How far a transfer has come: under way, its last byte moved, or a byte missed. -/
inductive Outcome
  | going
  | complete
  | overrun
  deriving DecidableEq

/-- The outcome of a sector's transfer, the bytes moved, and the state behind. -/
structure Service where
  outcome : Outcome
  bytes : List UInt8
  after : FdcState

/-- A byte ahead of the others. -/
def Service.cons (v : UInt8) (s : Service) : Service := { s with bytes := v :: s.bytes }

/-- The transfer of one sector over the cycles of a run, from the moment it is scheduled. -/
def serve : FdcState → List FdcBus → Service
  | f, [] => ⟨.going, [], f⟩
  | f, b :: bs =>
    match f.mechanics.timers.phase with
    | .busy => serve (f.tick b).2 bs
    | .exec =>
      match f.mechanics.timers.moved b with
      | none => serve (f.tick b).2 bs
      | some v =>
        if (f.tick b).2.phase = .exec then (serve (f.tick b).2 bs).cons v else ⟨.complete, [v], (f.tick b).2⟩
    | _ => ⟨.overrun, [], (f.tick b).2⟩

/-- A sector's transfer is scheduled: its data field is on the way to the head. -/
def Scheduled (f : FdcState) : Prop := f.phase = .busy ∧ f.pending = .dataStart

instance (f : FdcState) : Decidable f.Scheduled := inferInstanceAs (Decidable (_ ∧ _))

/-- What a scheduled transfer starts from: the whole length, and a command that is not FORMAT. -/
structure Ready (f : FdcState) : Prop where
  remaining : f.remaining = f.xferLen
  code : f.code ≠ 0x0D

/-- What `cmd_format_track` checks: a size code and a sector count the tables have room for. -/
structure Checked (f : FdcState) : Prop where
  code : f.code = 0x0D
  count : byteAt f.cmd 3 ≠ 0 ∧ (byteAt f.cmd 3).toNat ≤ kMaxSectors
  size : byteAt f.cmd 2 ≤ 7

/-- Wherever a transfer is scheduled, it is ready; wherever a FORMAT takes its IDs or waits to write
    the track, its parameters were checked. -/
structure Armed (f : FdcState) : Prop where
  transfer : f.Scheduled → f.Ready
  ids : f.phase = .exec → f.code = 0x0D → f.dirToCpu = false ∧ f.Checked
  commit : f.Formatting → f.Checked

section
variable {f g h : FdcState}

/-! ### What a transfer rests on -/

/-- The transfer under way was left alone. -/
structure Holds (f g : FdcState) : Prop where
  phase : g.phase = f.phase
  pending : g.pending = f.pending
  cmd : g.cmd = f.cmd
  dirToCpu : g.dirToCpu = f.dirToCpu
  remaining : g.remaining = f.remaining

theorem Holds.trans (hfg : f.Holds g) (hgh : g.Holds h) : f.Holds h :=
  ⟨hgh.phase.trans hfg.phase, hgh.pending.trans hfg.pending, hgh.cmd.trans hfg.cmd, hgh.dirToCpu.trans hfg.dirToCpu,
    hgh.remaining.trans hfg.remaining⟩

theorem Holds.code (hfg : f.Holds g) : g.code = f.code := congrArg (byteAt · 0) hfg.cmd

theorem Holds.xferLen (hfg : f.Holds g) : g.xferLen = f.xferLen :=
  congrArg (fun cmd => xferLength (byteAt cmd 5) (byteAt cmd 8)) hfg.cmd

theorem Holds.scheduled (hfg : f.Holds g) (hf : g.Scheduled) : f.Scheduled :=
  ⟨hfg.phase.symm.trans hf.1, hfg.pending.symm.trans hf.2⟩

theorem Holds.ready (hfg : f.Holds g) (hf : f.Ready) : g.Ready := by
  refine ⟨?_, ?_⟩
  · rw [hfg.remaining, hfg.xferLen]
    exact hf.remaining
  · rw [hfg.code]
    exact hf.code

theorem Checked.of_cmd (hcmd : g.cmd = f.cmd) (hf : f.Checked) : g.Checked := by
  refine ⟨?_, ?_, ?_⟩
  · rw [FdcState.code, hcmd]
    exact hf.code
  · rw [hcmd]
    exact hf.count
  · rw [hcmd]
    exact hf.size

theorem Holds.armed (hfg : f.Holds g) (hf : f.Armed) : g.Armed := by
  refine ⟨fun hg => hfg.ready (hf.transfer (hfg.scheduled hg)), fun hexec hcode => ?_, fun hg => ?_⟩
  · obtain ⟨hdir, hchecked⟩ := hf.ids (hfg.phase.symm.trans hexec) (hfg.code.symm.trans hcode)
    exact ⟨hfg.dirToCpu.trans hdir, hchecked.of_cmd hfg.cmd⟩
  · exact (hf.commit ⟨hfg.phase.symm.trans hg.1, hfg.pending.symm.trans hg.2⟩).of_cmd hfg.cmd

theorem holds_spin (f : FdcState) : f.Holds f.spin := by
  rw [spin]
  dsimp only
  split
  · exact ⟨rfl, rfl, rfl, rfl, rfl⟩
  · split <;> exact ⟨rfl, rfl, rfl, rfl, rfl⟩

theorem holds_mechanics (f : FdcState) : f.Holds f.mechanics :=
  (holds_spin f).trans ⟨rfl, rfl, rfl, rfl, rfl⟩

theorem holds_motorWrite (f : FdcState) (on : Bool) : f.Holds (f.motorWrite on) := by
  rw [motorWrite]
  dsimp only
  split
  · exact ⟨rfl, rfl, rfl, rfl, rfl⟩
  · split <;> exact ⟨rfl, rfl, rfl, rfl, rfl⟩

/-! ### The bus -/

theorem access_of_readsData {b : FdcBus} (hb : readsData b = true) (hedge : f.accessPrev = false) :
    (f.access b).2 = { (FdcState.dataRead { f with accessPrev := true }).2 with
      outLatch := (FdcState.dataRead { f with accessPrev := true }).1 } := by
  simp only [readsData, Bool.and_eq_true, Bool.not_eq_true', bne_iff_ne, ne_eq] at hb
  obtain ⟨⟨⟨⟨⟨hiorq, hm1⟩, hsel⟩, hunit⟩, hrd⟩, hdata⟩ := hb
  simp only [access, hiorq, hm1, hsel, hunit, hrd, hdata, hedge, Bool.not_false, Bool.and_true, Bool.true_or,
    if_false, if_true, Bool.true_eq_false]

theorem access_else {b : FdcBus} (hb : ¬ ((readsData b = true ∨ writesData b = true) ∧ f.accessPrev = false)) :
    ∃ p, (f.access b).2 = { f with accessPrev := p } ∨
      ∃ on, (f.access b).2 = FdcState.motorWrite { f with accessPrev := p } on := by
  obtain ⟨p, hp⟩ : ∃ p, p = (b.iorq && !b.m1 && b.addr &&& 0x0480 == 0 && (b.rd || b.wr)) := ⟨_, rfl⟩
  refine ⟨p, ?_⟩
  rw [access]
  dsimp only
  rw [← hp]
  split
  · exact .inl rfl
  split
  · dsimp only
    split
    · exact .inr ⟨_, rfl⟩
    · exact .inl rfl
  split
  · split
    · exact .inl rfl
    · dsimp only
      split
      · -- an excluded read
        rename_i hsel hunit hrd hdata hedge
        refine absurd ⟨.inl ?_, ?_⟩ hb
        · simp only [Bool.not_eq_false, Bool.and_eq_true] at hsel
          simp only [readsData, hsel, hunit, hrd, hdata, Bool.and_true, bne_iff_ne, ne_eq, not_false_eq_true,
            Bool.and_eq_true, and_self]
        · simp only [Bool.and_eq_true, Bool.not_eq_true'] at hedge
          exact hedge.2
      · exact .inl rfl
  split
  · -- an excluded write
    rename_i hsel hunit hrd hwrite
    refine absurd ⟨.inr ?_, ?_⟩ hb
    · simp only [Bool.not_eq_false, Bool.and_eq_true] at hsel
      simp only [writesData, hsel, hunit, hrd, hwrite, Bool.and_true, Bool.not_false, bne_iff_ne, ne_eq,
        not_false_eq_true, Bool.true_and, Bool.and_eq_true, and_self]
    · have hedge := hwrite.2.2
      simp only [Bool.and_eq_true, Bool.not_eq_true'] at hedge
      exact hedge.2
  · exact .inl rfl

theorem holds_access {b : FdcBus} (hb : ¬ ((readsData b = true ∨ writesData b = true) ∧ f.accessPrev = false)) :
    f.Holds (f.access b).2 := by
  have hlatch : ∀ p, f.Holds { f with accessPrev := p } := fun p => ⟨rfl, rfl, rfl, rfl, rfl⟩
  obtain ⟨p, heq | ⟨on, heq⟩⟩ := access_else hb
  · rw [heq]
    exact hlatch p
  · rw [heq]
    exact (hlatch p).trans (holds_motorWrite _ on)

/-! ### Where transfers are scheduled -/

theorem armed_of_idle (hphase : f.phase = .cmd ∨ f.phase = .result) : f.Armed := by
  have hbusy : f.phase ≠ .busy := by
    intro hbusy
    rcases hphase with h | h
    · exact FdcPhase.noConfusion (h.symm.trans hbusy)
    · exact FdcPhase.noConfusion (h.symm.trans hbusy)
  refine ⟨fun hf => absurd hf.1 hbusy, fun hexec => ?_, fun hf => absurd hf.1 hbusy⟩
  rcases hphase with h | h
  · exact FdcPhase.noConfusion (h.symm.trans hexec)
  · exact FdcPhase.noConfusion (h.symm.trans hexec)

theorem armed_of_result (hphase : f.phase = .result) : f.Armed := armed_of_idle (.inr hphase)

theorem armed_of_cmd (hphase : f.phase = .cmd) : f.Armed := armed_of_idle (.inl hphase)

theorem armed_of_pending (hphase : f.phase = .busy) (hstart : f.pending ≠ .dataStart) (hformat : f.pending ≠ .formatDone) :
    f.Armed :=
  ⟨fun hf => absurd hf.2 hstart, fun hexec => FdcPhase.noConfusion (hphase.symm.trans hexec), fun hf => absurd hf.2 hformat⟩

theorem armed_of_exec (hphase : f.phase = .exec) (hcode : f.code ≠ 0x0D) : f.Armed :=
  ⟨fun hf => FdcPhase.noConfusion (hphase.symm.trans hf.1), fun _ hformat => absurd hformat hcode,
    fun hf => FdcPhase.noConfusion (hphase.symm.trans hf.1)⟩

theorem armed_startSector (hcode : f.code ≠ 0x0D) (trk : FdcTrack) (toCpu : Bool) : (f.startSector trk toCpu).Armed := by
  rcases startSector_cases f trk toCpu with ⟨st2, heq⟩ | ⟨i, rev, served, j, sec, st2, heq, -⟩
  · rw [heq]
    exact armed_of_pending rfl Pending.noConfusion Pending.noConfusion
  · rw [heq]
    exact ⟨fun _ => ⟨rfl, hcode⟩, fun hexec => FdcPhase.noConfusion hexec, fun hf => Pending.noConfusion hf.2⟩

theorem armed_chainSector (hcode : f.code ≠ 0x0D) (toCpu : Bool) : (f.chainSector toCpu).Armed := by
  have hbump : f.bumpSector.fetchTrack.code = f.code := byteAt_set_ne _ _ (by decide)
  rw [chainSector]
  split
  · exact armed_of_result rfl
  · split
    · refine armed_startSector ?_ _ _
      rw [hbump]
      exact hcode
    · exact armed_of_result rfl

theorem armed_sectorWritten (hcode : f.code ≠ 0x0D) : f.sectorWritten.Armed := by
  rw [sectorWritten]
  split
  · rename_i hdeleted
    have htable := changes_markTable 0 0 f.pastSector.fetchTrack
    have hmark := htable.trans (changes_markImage 0 0 (htable.wrDeleted.trans hdeleted))
    refine armed_chainSector ?_ false
    rw [FdcState.code, hmark.cmd]
    exact hcode
  · refine armed_chainSector ?_ false
    exact hcode

theorem armed_sectorRead (hcode : f.code ≠ 0x0D) : f.sectorRead.Armed := by
  rw [sectorRead]
  split
  · exact armed_of_result rfl
  · refine armed_chainSector ?_ true
    exact hcode

theorem armed_cmdSeekTo (f : FdcState) (target : UInt8) : (f.cmdSeekTo target).Armed := by
  rw [cmdSeekTo]
  dsimp only
  split
  · split <;> exact armed_of_cmd rfl
  · exact armed_of_cmd rfl

theorem armed_cmdSenseInterrupt (f : FdcState) : f.cmdSenseInterrupt.Armed := by
  rw [cmdSenseInterrupt]
  split
  · exact armed_of_result rfl
  split
  · exact armed_of_result rfl
  split
  · exact armed_of_result rfl
  split <;> exact armed_of_result rfl

theorem armed_cmdReadId (f : FdcState) : f.cmdReadId.Armed := by
  rw [cmdReadId]
  split
  · split <;> exact armed_of_pending rfl Pending.noConfusion Pending.noConfusion
  · exact armed_of_result rfl

theorem armed_cmdWriteData (hcode : f.code = 0x05 ∨ f.code = 0x09) : f.cmdWriteData.Armed := by
  have hne : f.code ≠ 0x0D := by
    rcases hcode with h | h <;> rw [h] <;> decide
  rw [cmdWriteData]
  split
  · split
    · exact armed_of_result rfl
    · split
      · refine armed_startSector ?_ _ _
        exact hne
      · exact armed_of_result rfl
  · exact armed_of_result rfl

theorem armed_cmdReadData (hcode : f.code = 0x06) : f.cmdReadData.Armed := by
  have hne : f.code ≠ 0x0D := by
    rw [hcode]
    decide
  rw [cmdReadData]
  split
  · split
    · refine armed_startSector ?_ _ _
      exact hne
    · exact armed_of_result rfl
  · exact armed_of_result rfl

theorem armed_cmdFormatTrack (hcode : f.code = 0x0D) : f.cmdFormatTrack.Armed := by
  rw [cmdFormatTrack]
  split
  · dsimp only
    split
    · exact armed_of_result rfl
    · rename_i hcheck
      rw [not_or, not_or, not_or] at hcheck
      obtain ⟨-, hzero, hmax, hsize⟩ := hcheck
      have hchecked : f.Checked := ⟨hcode, ⟨hzero, Nat.not_lt.mp hmax⟩, UInt8.not_lt.mp hsize⟩
      exact ⟨fun hf => FdcPhase.noConfusion hf.1, fun _ _ => ⟨rfl, Checked.of_cmd (f := f) rfl hchecked⟩, fun hf => FdcPhase.noConfusion hf.1⟩
  · exact armed_of_result rfl

theorem armed_dispatch (hf : f.phase = .cmd) : f.dispatch.Armed := by
  refine dispatch_ind f ?_ ?_ ?_ ?_ ?_ ?_ ?_ ?_ ?_ ?_ ?_
  · exact fun _ => armed_cmdSeekTo f 0
  · exact fun _ => armed_cmdSeekTo f _
  · exact fun _ => armed_of_cmd rfl
  · exact fun _ => armed_of_result rfl
  · exact armed_cmdWriteData
  · exact armed_cmdReadData
  · exact fun _ => armed_cmdSenseInterrupt f
  · exact fun _ => armed_cmdReadId f
  · exact fun _ => armed_of_result rfl
  · exact armed_cmdFormatTrack
  · exact fun _ => armed_of_cmd hf

theorem armed_formatByte (hf : f.Armed) (hphase : f.phase = .exec) (hcode : f.code = 0x0D) (val : UInt8) :
    (f.formatByte val).Armed := by
  obtain ⟨hdir, hchecked⟩ := hf.ids hphase hcode
  rw [formatByte]
  dsimp only
  split
  · exact ⟨fun hg => Pending.noConfusion hg.2, fun hexec => FdcPhase.noConfusion hexec, fun _ => Checked.of_cmd (f := f) rfl hchecked⟩
  · exact ⟨fun hg => FdcPhase.noConfusion (hphase.symm.trans hg.1), fun _ _ => ⟨hdir, Checked.of_cmd (f := f) rfl hchecked⟩,
      fun hg => FdcPhase.noConfusion (hphase.symm.trans hg.1)⟩

theorem armed_dataWrite (hf : f.Armed) (val : UInt8) : (f.dataWrite val).Armed := by
  rw [dataWrite]
  split
  · rename_i hphase
    -- A byte of the execution phase: FORMAT takes it as part of an ID, WRITE DATA into the sector.
    rw [execWriteByte]
    split
    · rename_i hcode
      exact armed_formatByte hf hphase.1 hcode val
    · rename_i hcode
      rw [writeByte]
      split
      · exact armed_sectorWritten hcode
      · exact armed_of_exec hphase.1 hcode
  split
  · exact hf
  rename_i hphase
  split
  · dsimp only
    split
    · -- An unknown command goes to its result at once.
      exact armed_of_result rfl
    · split
      · exact armed_dispatch (not_not.mp hphase)
      · exact armed_of_cmd (not_not.mp hphase)
  · dsimp only
    split
    · exact armed_dispatch (not_not.mp hphase)
    · exact armed_of_cmd (not_not.mp hphase)

theorem armed_dataRead (hf : f.Armed) : f.dataRead.2.Armed := by
  rw [dataRead]
  cases hphase : f.phase with
  | exec =>
    dsimp only
    split
    · exact hf
    · rename_i hdir
      have hcode : f.code ≠ 0x0D := fun hcode => hdir (hf.ids hphase hcode).1
      split
      · exact armed_sectorRead hcode
      · exact armed_of_exec hphase hcode
  | result =>
    dsimp only
    split
    · exact armed_of_cmd rfl
    · exact armed_of_result rfl
  | cmd => exact hf
  | busy => exact hf

theorem armed_access (hf : f.Armed) (b : FdcBus) : (f.access b).2.Armed := by
  have hlatch : f.Holds { f with accessPrev := true } := ⟨rfl, rfl, rfl, rfl, rfl⟩
  by_cases hedge : f.accessPrev = false
  · by_cases hread : readsData b = true
    · have hout : ∀ u : FdcState, ∀ v, u.Armed → FdcState.Armed { u with outLatch := v } := fun u v hu =>
        (⟨rfl, rfl, rfl, rfl, rfl⟩ : u.Holds { u with outLatch := v }).armed hu
      rw [access_of_readsData hread hedge]
      exact hout _ _ (armed_dataRead (hlatch.armed hf))
    · by_cases hwrite : writesData b = true
      · rw [access_of_writesData hwrite hedge]
        exact armed_dataWrite (hlatch.armed hf) b.data
      · refine (holds_access fun hb => ?_).armed hf
        rcases hb.1 with h | h
        · exact hread h
        · exact hwrite h
  · exact (holds_access fun hb => hedge hb.2).armed hf

theorem armed_completePending (hf : f.Armed) (hbusy : f.phase = .busy) : f.completePending.Armed := by
  rw [completePending]
  split
  · rw [readIdDone]
    split
    · split <;> exact armed_of_result rfl
    · exact armed_of_result rfl
  · rename_i hpending
    exact armed_of_exec rfl (hf.transfer ⟨hbusy, hpending⟩).code
  · exact armed_of_result (doFormat_phase _)
  · exact armed_of_result rfl

theorem armed_timers (hf : f.Armed) : f.timers.Armed := by
  obtain ⟨u, hu, harmed⟩ : ∃ u, u = (if f.phase = .busy ∧ f.dueAt ≤ f.now then f.completePending else f) ∧ u.Armed := by
    refine ⟨_, rfl, ?_⟩
    split
    · rename_i hdue
      exact armed_completePending hf hdue.1
    · exact hf
  rw [timers, ← hu]
  split
  · exact armed_of_result rfl
  · exact harmed

/-- **One cycle**: transfers are scheduled with their whole length, and FORMATs after their check. -/
theorem armed_tick (hf : f.Armed) (b : FdcBus) : (f.tick b).2.Armed :=
  armed_access (armed_timers ((holds_mechanics f).armed hf)) b

theorem armed_runBus (hf : f.Armed) (bs : List FdcBus) : (f.runBus bs).Armed := by
  induction bs generalizing f with
  | nil => exact hf
  | cons b bs ih => exact ih (armed_tick hf b)

theorem armed_withDisks (imageA imageB : List UInt8) : (withDisks imageA imageB).Armed := armed_of_cmd rfl

/-! ### One byte -/

/-- A byte of the sector was moved, and more are to come. -/
structure Counts (f g : FdcState) : Prop where
  phase : g.phase = .exec
  cmd : g.cmd = f.cmd
  dirToCpu : g.dirToCpu = f.dirToCpu
  remaining : g.remaining = pred32 f.remaining

/-- The sector is over: the next one is looked for, or the command ends. -/
def Over (f : FdcState) : Prop := f.phase = .busy ∨ f.phase = .result

theorem over_startSector (f : FdcState) (trk : FdcTrack) (toCpu : Bool) : (f.startSector trk toCpu).Over := by
  rcases startSector_cases f trk toCpu with ⟨st2, heq⟩ | ⟨i, rev, served, j, sec, st2, heq, -⟩
  · rw [heq]
    exact .inl rfl
  · rw [heq]
    exact .inl rfl

theorem over_chainSector (f : FdcState) (toCpu : Bool) : (f.chainSector toCpu).Over := by
  rw [chainSector]
  split
  · exact .inr rfl
  · split
    · exact over_startSector _ _ _
    · exact .inr rfl

theorem over_sectorWritten (f : FdcState) : f.sectorWritten.Over := by
  rw [sectorWritten]
  exact over_chainSector _ _

theorem over_sectorRead (f : FdcState) : f.sectorRead.Over := by
  rw [sectorRead]
  split
  · exact .inr rfl
  · exact over_chainSector _ _

theorem dataRead_of_exec (hexec : f.phase = .exec) (hdir : f.dirToCpu = true) :
    f.dataRead = (f.headByte, if f.advance.remaining = 0 then f.advance.sectorRead else f.advance) := by
  simp only [dataRead, hexec, hdir, Bool.true_eq_false, if_false]

theorem dataRead_of_not (h : f.phase = .exec ∧ f.dirToCpu = false ∨ f.phase = .busy) : f.dataRead = (0xFF, f) := by
  rcases h with ⟨hexec, hdir⟩ | hbusy
  · simp only [dataRead, hexec, hdir, if_true]
  · simp only [dataRead, hbusy]

theorem dataWrite_of_exec (hexec : f.phase = .exec) (hdir : f.dirToCpu = false) (hcode : f.code ≠ 0x0D) (val : UInt8) :
    f.dataWrite val = if (f.pokeByte val).remaining = 0 then (f.pokeByte val).sectorWritten else f.pokeByte val := by
  rw [dataWrite, if_pos ⟨hexec, hdir⟩, execWriteByte, if_neg hcode, writeByte]

theorem dataWrite_of_not (h : f.phase = .exec ∧ f.dirToCpu = true ∨ f.phase = .busy) (val : UInt8) :
    f.dataWrite val = f := by
  rcases h with ⟨hexec, hdir⟩ | hbusy
  · simp only [dataWrite, hexec, hdir, Bool.true_eq_false, and_false, if_false, ne_eq, reduceCtorEq, not_false_eq_true,
      if_true]
  · simp only [dataWrite, hbusy, reduceCtorEq, false_and, if_false, ne_eq, not_false_eq_true, if_true]

theorem access_of_moved {b : FdcBus} {v : UInt8} (hexec : f.phase = .exec) (hcode : f.code ≠ 0x0D)
    (hmoved : f.moved b = some v) :
    pred32 f.remaining = 0 ∧ (f.access b).2.Over ∨ pred32 f.remaining ≠ 0 ∧ f.Counts (f.access b).2 := by
  rw [moved] at hmoved
  split at hmoved
  · exact absurd hmoved (by simp)
  rename_i hprev
  have hedge : f.accessPrev = false := Bool.not_eq_true _ ▸ hprev
  split at hmoved
  · -- a read
    rename_i hdir
    split at hmoved
    · rename_i hread
      rw [access_of_readsData hread hedge,
        dataRead_of_exec (show FdcState.phase { f with accessPrev := true } = .exec from hexec) hdir]
      by_cases hzero : pred32 f.remaining = 0
      · left
        rw [if_pos (show (FdcState.advance { f with accessPrev := true }).remaining = 0 from hzero)]
        exact ⟨hzero, over_sectorRead _⟩
      · right
        rw [if_neg (show ¬ (FdcState.advance { f with accessPrev := true }).remaining = 0 from hzero)]
        exact ⟨hzero, hexec, rfl, rfl, rfl⟩
    · exact absurd hmoved (by simp)
  · -- a write
    rename_i hdir
    have hdirFalse : f.dirToCpu = false := Bool.not_eq_true _ ▸ hdir
    split at hmoved
    · rename_i hwrite
      rw [access_of_writesData hwrite hedge,
        dataWrite_of_exec (show FdcState.phase { f with accessPrev := true } = .exec from hexec) hdirFalse hcode]
      by_cases hzero : pred32 f.remaining = 0
      · left
        rw [if_pos (show (FdcState.pokeByte { f with accessPrev := true } b.data).remaining = 0 from hzero)]
        exact ⟨hzero, over_sectorWritten _⟩
      · right
        rw [if_neg (show ¬ (FdcState.pokeByte { f with accessPrev := true } b.data).remaining = 0 from hzero)]
        exact ⟨hzero, hexec, rfl, rfl, rfl⟩
    · exact absurd hmoved (by simp)

theorem holds_of_nothing {b : FdcBus} (hedge : f.accessPrev = false)
    (hread : readsData b = true → f.phase = .exec ∧ f.dirToCpu = false ∨ f.phase = .busy)
    (hwrite : readsData b = false → f.phase = .exec ∧ f.dirToCpu = true ∨ f.phase = .busy)
    (hb : readsData b = true ∨ writesData b = true) : f.Holds (f.access b).2 := by
  by_cases hr : readsData b = true
  · rw [access_of_readsData hr hedge,
      dataRead_of_not (f := { f with accessPrev := true }) (hread hr)]
    exact ⟨rfl, rfl, rfl, rfl, rfl⟩
  · rw [access_of_writesData (hb.resolve_left hr) hedge,
      dataWrite_of_not (f := { f with accessPrev := true }) (hwrite (Bool.not_eq_true _ ▸ hr))]
    exact ⟨rfl, rfl, rfl, rfl, rfl⟩

theorem holds_of_not_moved {b : FdcBus} (hexec : f.phase = .exec) (hmoved : f.moved b = none) : f.Holds (f.access b).2 := by
  by_cases hb : (readsData b = true ∨ writesData b = true) ∧ f.accessPrev = false
  · rw [moved, hb.2, if_neg Bool.noConfusion] at hmoved
    refine holds_of_nothing hb.2 (fun hread => .inl ⟨hexec, ?_⟩) (fun hread => .inl ⟨hexec, ?_⟩) hb.1
    · -- the CPU reads while it should write
      by_contra hdir
      rw [if_pos (Bool.not_eq_false _ ▸ hdir), if_pos hread] at hmoved
      exact absurd hmoved (by simp)
    · -- the CPU writes while it should read
      by_contra hdir
      rw [if_neg hdir, if_pos (hb.1.resolve_left (Bool.not_eq_true _ ▸ hread))] at hmoved
      exact absurd hmoved (by simp)
  · exact holds_access hb

theorem timers_eq {u : FdcState} (hu : (if f.phase = .busy ∧ f.dueAt ≤ f.now then f.completePending else f) = u) :
    f.timers = if u.phase = .exec ∧ u.nextByteAt + kByteCycles < u.now then (u.orRes 1 0x10).finishWithStatus else u := by
  subst hu
  rfl

theorem timers_of_scheduled (hf : f.Scheduled) :
    f.timers = f ∧ ¬ f.dueAt ≤ f.now ∨
      f.timers = f.unscheduled.beginExec ∧ f.dueAt ≤ f.now := by
  by_cases hdue : f.dueAt ≤ f.now
  · have hdone : f.completePending = f.unscheduled.beginExec := by
      rw [completePending, hf.2]
    refine .inr ⟨(timers_eq ((if_pos ⟨hf.1, hdue⟩).trans hdone)).trans (if_neg fun hc => absurd hc.2 ?_), hdue⟩
    exact Nat.not_lt.mpr (Nat.le_add_right f.now kByteCycles)
  · refine .inl ⟨(timers_eq (if_neg fun hc => hdue hc.2)).trans (if_neg fun hc => ?_), hdue⟩
    exact FdcPhase.noConfusion (hf.1.symm.trans hc.1)

theorem timers_of_exec (hf : f.phase = .exec) : f.timers = f ∨ f.timers.phase = .result := by
  have hbusy : ¬ (f.phase = .busy ∧ f.dueAt ≤ f.now) := fun hc => FdcPhase.noConfusion (hf.symm.trans hc.1)
  rw [timers_eq (if_neg hbusy)]
  split
  · exact .inr rfl
  · exact .inl rfl

/-- The transfer of a sector, scheduled or under way, with `r` bytes to go. -/
structure Carries (f : FdcState) (r : Nat) : Prop where
  phase : f.Scheduled ∨ f.phase = .exec
  code : f.code ≠ 0x0D
  remaining : f.remaining = r

theorem Holds.carries {r : Nat} (hfg : f.Holds g) (hf : f.Carries r) : g.Carries r := by
  refine ⟨?_, ?_, hfg.remaining.trans hf.remaining⟩
  · rcases hf.phase with ⟨hbusy, hpending⟩ | hexec
    · exact .inl ⟨hfg.phase.trans hbusy, hfg.pending.trans hpending⟩
    · exact .inr (hfg.phase.trans hexec)
  · rw [hfg.code]
    exact hf.code

theorem carries_timers {r : Nat} (hf : f.Carries r) :
    f.timers.Carries r ∨ f.timers.phase = .result := by
  rcases hf.phase with hscheduled | hexec
  · rcases timers_of_scheduled hscheduled with ⟨heq, -⟩ | ⟨heq, -⟩
    · rw [heq]
      exact .inl hf
    · rw [heq]
      exact .inl ⟨.inr rfl, hf.code, hf.remaining⟩
  · rcases timers_of_exec hexec with heq | hresult
    · rw [heq]
      exact .inl hf
    · exact .inr hresult

theorem carries_of_busy {r : Nat} (hf : f.Carries r) (hbusy : f.phase = .busy) (b : FdcBus) :
    (f.access b).2.Carries r := by
  by_cases hb : (readsData b = true ∨ writesData b = true) ∧ f.accessPrev = false
  · exact (holds_of_nothing hb.2 (fun _ => .inr hbusy) (fun _ => .inr hbusy) hb.1).carries hf
  · exact (holds_access hb).carries hf

/-! ### Whole sectors -/

theorem serve_cons (f : FdcState) (b : FdcBus) (bs : List FdcBus) :
    f.serve (b :: bs) =
      match f.mechanics.timers.phase with
      | .busy => (f.tick b).2.serve bs
      | .exec =>
        match f.mechanics.timers.moved b with
        | none => (f.tick b).2.serve bs
        | some v =>
          if (f.tick b).2.phase = .exec then ((f.tick b).2.serve bs).cons v else ⟨.complete, [v], (f.tick b).2⟩
      | _ => ⟨.overrun, [], (f.tick b).2⟩ := rfl

theorem Over.ne_exec (hf : f.Over) : f.phase ≠ .exec := by
  intro hexec
  rcases hf with hbusy | hresult
  · exact FdcPhase.noConfusion (hbusy.symm.trans hexec)
  · exact FdcPhase.noConfusion (hresult.symm.trans hexec)

theorem Counts.carries {r : Nat} (hfg : f.Counts g) (hf : f.Carries r) : g.Carries (pred32 r) := by
  refine ⟨.inr hfg.phase, ?_, ?_⟩
  · have hcode : g.code = f.code := congrArg (byteAt · 0) hfg.cmd
    rw [hcode]
    exact hf.code
  · rw [hfg.remaining, hf.remaining]

/-- The bytes a transfer with `r` to go has moved. -/
structure Counted (r : Nat) (s : Service) : Prop where
  going : s.outcome = .going → s.bytes.length + s.after.remaining = r ∧ 0 < s.after.remaining
  complete : s.outcome = .complete → s.bytes.length = r ∧ s.after.Over
  overrun : s.outcome = .overrun → s.bytes.length < r

theorem Counted.cons {r : Nat} {s : Service} (h : Counted r s) (v : UInt8) : Counted (r + 1) (s.cons v) := by
  refine ⟨fun hgoing => ?_, fun hcomplete => ?_, fun hoverrun => ?_⟩
  · obtain ⟨hsum, hpos⟩ := h.going hgoing
    refine ⟨?_, hpos⟩
    change s.bytes.length + 1 + s.after.remaining = r + 1
    omega
  · exact ⟨congrArg (· + 1) (h.complete hcomplete).1, (h.complete hcomplete).2⟩
  · exact Nat.succ_lt_succ (h.overrun hoverrun)

/-- **A sector**: with `r + 1` bytes to go, byte for byte the counter comes down to zero. -/
theorem serve_counted {r : Nat} (hf : f.Carries (r + 1)) (hr : r + 1 < 2 ^ 32) (bs : List FdcBus) :
    Counted (r + 1) (f.serve bs) := by
  induction bs generalizing f r with
  | nil =>
    refine ⟨fun _ => ?_, fun h => Outcome.noConfusion h, fun h => Outcome.noConfusion h⟩
    change 0 + f.remaining = r + 1 ∧ 0 < f.remaining
    rw [hf.remaining]
    exact ⟨Nat.zero_add _, Nat.succ_pos r⟩
  | cons b bs ih =>
    have hmech : f.mechanics.Carries (r + 1) := (holds_mechanics f).carries hf
    rw [serve_cons]
    rcases carries_timers hmech with htimers | hresult
    · rcases htimers.phase with hwait | hexec
      · rw [hwait.1]
        exact ih (carries_of_busy htimers hwait.1 b) hr
      · rw [hexec]
        dsimp only
        cases hmoved : f.mechanics.timers.moved b with
        | none => exact ih ((holds_of_not_moved hexec hmoved).carries htimers) hr
        | some v =>
          have hpred : pred32 f.mechanics.timers.remaining = r := by rw [htimers.remaining, pred32_succ hr]
          dsimp only
          rcases access_of_moved hexec htimers.code hmoved with ⟨hzero, hover⟩ | ⟨hmore, hcounts⟩
          · -- the last byte
            have hr0 : r = 0 := hpred.symm.trans hzero
            have hover' : (f.tick b).2.Over := hover
            rw [if_neg hover'.ne_exec, hr0]
            exact ⟨fun h => Outcome.noConfusion h, fun _ => ⟨rfl, hover'⟩, fun h => Outcome.noConfusion h⟩
          · obtain ⟨q, hq⟩ : ∃ q, r = q + 1 := ⟨r - 1, by omega⟩
            have hnext : (f.tick b).2.Carries (q + 1) := by
              have hcarries := hcounts.carries htimers
              rw [pred32_succ hr, hq] at hcarries
              exact hcarries
            rw [if_pos (show (f.tick b).2.phase = .exec from hcounts.phase), hq]
            exact (ih hnext (by omega)).cons v
    · rw [hresult]
      exact ⟨fun h => Outcome.noConfusion h, fun h => Outcome.noConfusion h, fun _ => Nat.succ_pos r⟩

/-! ### A transfer of no bytes -/

theorem tick_quiet (f : FdcState) : (f.tick quiet).2 = { f.mechanics.timers with accessPrev := false } := rfl

theorem moved_quiet (f : FdcState) : f.moved quiet = none := by
  rw [moved]
  split
  · rfl
  · split <;> rfl

theorem mechanics_timing (f : FdcState) :
    f.mechanics.dueAt = f.dueAt ∧ f.mechanics.nextByteAt = f.nextByteAt ∧ f.mechanics.accessPrev = f.accessPrev := by
  rw [mechanics, spin]
  dsimp only
  split
  · exact ⟨rfl, rfl, rfl⟩
  · split <;> exact ⟨rfl, rfl, rfl⟩

/-- A cycle that reads the data register. -/
def dataIn : FdcBus := { iorq := true, rd := true, addr := 0xFB7F }

/-- The access the transfer under way waits for. -/
def nextAccess (f : FdcState) : FdcBus := if f.dirToCpu then dataIn else dataOut 0

theorem moved_nextAccess (hprev : f.accessPrev = false) : ∃ v, f.moved f.nextAccess = some v := by
  rw [moved, hprev, nextAccess, if_neg Bool.noConfusion]
  split
  · exact ⟨_, rfl⟩
  · exact ⟨_, rfl⟩

theorem timers_of_begun (hexec : f.phase = .exec) (hnext : f.now ≤ f.nextByteAt) : f.mechanics.timers = f.mechanics := by
  have hphase : f.mechanics.phase = .exec := (holds_mechanics f).phase.trans hexec
  have hbusy : ¬ (f.mechanics.phase = .busy ∧ f.mechanics.dueAt ≤ f.mechanics.now) := fun hc =>
    FdcPhase.noConfusion (hphase.symm.trans hc.1)
  refine (timers_eq (if_neg hbusy)).trans (if_neg fun hc => absurd hc.2 ?_)
  rw [(mechanics_timing f).2.1, mechanics_now, kByteCycles]
  omega

theorem serve_wraps_begun (hf : f.Carries 0) (hexec : f.phase = .exec) (hnext : f.now ≤ f.nextByteAt)
    (hprev : f.accessPrev = false) :
    ∃ bs, (f.serve bs).outcome = .going ∧ (f.serve bs).after.remaining = 2 ^ 32 - 1 := by
  have htimers := timers_of_begun hexec hnext
  have hmech : f.mechanics.Carries 0 := (holds_mechanics f).carries hf
  have hmechExec : f.mechanics.phase = .exec := (holds_mechanics f).phase.trans hexec
  obtain ⟨v, hmoved⟩ := moved_nextAccess (f := f.mechanics) ((mechanics_timing f).2.2.trans hprev)
  refine ⟨[f.mechanics.nextAccess], ?_⟩
  rcases access_of_moved hmechExec hmech.code hmoved with ⟨hzero, -⟩ | ⟨-, hcounts⟩
  · rw [hmech.remaining] at hzero
    exact absurd hzero (by decide)
  · have hgo : (f.tick f.mechanics.nextAccess).2 = (f.mechanics.access f.mechanics.nextAccess).2 := by rw [tick, htimers]
    have hphase : (f.tick f.mechanics.nextAccess).2.phase = .exec := by rw [hgo, hcounts.phase]
    have hcount : (f.tick f.mechanics.nextAccess).2.remaining = 2 ^ 32 - 1 := by
      rw [hgo, hcounts.remaining, hmech.remaining]
      rfl
    rw [serve_cons, htimers, hmechExec]
    dsimp only
    rw [hmoved]
    dsimp only
    rw [if_pos hphase]
    exact ⟨rfl, hcount⟩

theorem serve_wraps (hf : f.Carries 0) (hscheduled : f.Scheduled) :
    ∃ bs, (f.serve bs).outcome = .going ∧ (f.serve bs).after.remaining = 2 ^ 32 - 1 := by
  obtain ⟨n, hn⟩ : ∃ n, f.dueAt ≤ f.now + 1 + n := ⟨f.dueAt, Nat.le_add_left _ _⟩
  -- by induction on the cycles until the data field comes round
  induction n generalizing f with
  | zero =>
    have hmech : f.mechanics.Scheduled :=
      ⟨(holds_mechanics f).phase.trans hscheduled.1, (holds_mechanics f).pending.trans hscheduled.2⟩
    rcases timers_of_scheduled hmech with ⟨-, hwait⟩ | ⟨heq, -⟩
    · rw [(mechanics_timing f).1, mechanics_now] at hwait
      exact absurd hn hwait
    · have hbegun : (f.tick quiet).2 = { f.mechanics.unscheduled.beginExec with accessPrev := false } := by
        rw [tick_quiet, heq]
      have hphase : (f.tick quiet).2.phase = .exec := congrArg FdcState.phase hbegun
      have hnext : (f.tick quiet).2.now ≤ (f.tick quiet).2.nextByteAt := by
        rw [hbegun]
        exact Nat.le_refl _
      have hcarries : (f.tick quiet).2.Carries 0 := by
        have hm := (holds_mechanics f).carries hf
        rw [hbegun]
        exact ⟨.inr rfl, hm.code, hm.remaining⟩
      obtain ⟨bs, hbs⟩ := serve_wraps_begun hcarries hphase hnext rfl
      refine ⟨quiet :: bs, ?_⟩
      have hexec : f.mechanics.timers.phase = .exec := congrArg FdcState.phase heq
      rw [serve_cons, hexec, moved_quiet]
      exact hbs
  | succ n ih =>
    have hmech : f.mechanics.Scheduled :=
      ⟨(holds_mechanics f).phase.trans hscheduled.1, (holds_mechanics f).pending.trans hscheduled.2⟩
    rcases timers_of_scheduled hmech with ⟨heq, -⟩ | ⟨-, hdue⟩
    · have htick : (f.tick quiet).2 = { f.mechanics with accessPrev := false } := by rw [tick_quiet, heq]
      have hbusy : f.mechanics.timers.phase = .busy := by
        rw [heq]
        exact hmech.1
      have hcarries : (f.tick quiet).2.Carries 0 := by
        have hm := (holds_mechanics f).carries hf
        rw [htick]
        exact ⟨.inl hmech, hm.code, hm.remaining⟩
      have hleft : (f.tick quiet).2.dueAt ≤ (f.tick quiet).2.now + 1 + n := by
        rw [htick]
        change f.mechanics.dueAt ≤ f.mechanics.now + 1 + n
        rw [(mechanics_timing f).1, mechanics_now]
        omega
      obtain ⟨bs, hbs⟩ := ih hcarries (by rw [htick]; exact hmech) hleft
      refine ⟨quiet :: bs, ?_⟩
      rw [serve_cons, hbusy]
      exact hbs
    · exact ih hf hscheduled (by rw [(mechanics_timing f).1, mechanics_now] at hdue; omega)

/-! ### The transfer count -/

/-- What a sector's transfer should do, whatever the CPU does meanwhile: as long as it is under way
    the counter is what is left of its length, and when it ends its length was moved and the controller
    is past the sector. A transfer of which the CPU missed a byte moved fewer. -/
structure CountRight (f : FdcState) : Prop where
  going : ∀ bs, (f.serve bs).outcome = .going →
    (f.serve bs).bytes.length + (f.serve bs).after.remaining = f.xferLen ∧ (f.serve bs).after.remaining ≤ f.xferLen
  complete : ∀ bs, (f.serve bs).outcome = .complete → (f.serve bs).bytes.length = f.xferLen ∧ (f.serve bs).after.Over
  overrun : ∀ bs, (f.serve bs).outcome = .overrun → (f.serve bs).bytes.length < f.xferLen

theorem xferLen_eq_zero (f : FdcState) : f.xferLen = 0 ↔ byteAt f.cmd 5 = 0 ∧ byteAt f.cmd 8 = 0 := by
  rw [xferLen, xferLength]
  constructor
  · intro hzero
    split at hzero
    · rename_i hn
      split at hzero
      · exact absurd hzero (by decide)
      · exact ⟨hn, UInt8.toNat_inj.mp hzero⟩
    · rw [Nat.shiftLeft_eq] at hzero
      exact absurd hzero (Nat.mul_ne_zero (by decide) (Nat.ne_of_gt (Nat.pow_pos (by decide))))
  · rintro ⟨hn, hdtl⟩
    rw [if_pos hn, hdtl]
    rfl
end

/-- **Transfer count**: wherever a run of the controller schedules a sector of a READ DATA or WRITE
    DATA, its transfer moves exactly `xfer_length` bytes unless the command has N = 0 and DTL = 0. -/
theorem transfer_count_iff (imageA imageB : List UInt8) (bs : List FdcBus)
    (hscheduled : ((withDisks imageA imageB).runBus bs).Scheduled) :
    ((withDisks imageA imageB).runBus bs).CountRight ↔
      ¬ (byteAt ((withDisks imageA imageB).runBus bs).cmd 5 = 0 ∧
        byteAt ((withDisks imageA imageB).runBus bs).cmd 8 = 0) := by
  have hready := (armed_runBus (armed_withDisks imageA imageB) bs).transfer hscheduled
  rw [← xferLen_eq_zero]
  have hcarries : ((withDisks imageA imageB).runBus bs).Carries ((withDisks imageA imageB).runBus bs).xferLen :=
    ⟨.inl hscheduled, hready.code, hready.remaining⟩
  constructor
  · -- With a length of zero the count wraps on the first byte.
    intro hright hzero
    rw [hzero] at hcarries
    obtain ⟨cs, hgoing, hwrapped⟩ := serve_wraps hcarries hscheduled
    have hbound := (hright.going cs hgoing).2
    rw [hwrapped, hzero] at hbound
    exact absurd hbound (by decide)
  · -- Otherwise it counts down to zero, and what was moved and what is left add up.
    intro hne
    obtain ⟨r, hr⟩ := Nat.exists_eq_succ_of_ne_zero hne
    have hlt := xferLen_lt ((withDisks imageA imageB).runBus bs)
    rw [hr] at hcarries hlt
    refine ⟨fun cs hgoing => ?_, fun cs hcomplete => ?_, fun cs hoverrun => ?_⟩
    · obtain ⟨hsum, -⟩ := (serve_counted hcarries hlt cs).going hgoing
      rw [hr]
      exact ⟨hsum, Nat.le_of_add_left_le (Nat.le_of_eq hsum)⟩
    · rw [hr]
      exact (serve_counted hcarries hlt cs).complete hcomplete
    · rw [hr]
      exact (serve_counted hcarries hlt cs).overrun hoverrun

/-- READ DATA of the sector with ID 0, 0, 1, 0. -/
def readCommand (dtl : UInt8) : List FdcBus := commands [0x46, 0, 0, 0, 1, 0, 1, 0, dtl]

theorem transfer_count_sample :
    ((withDisks sampleImage []).runBus (spinUp ++ readCommand 0x80)).CountRight ↔
      ¬ (byteAt ((withDisks sampleImage []).runBus (spinUp ++ readCommand 0x80)).cmd 5 = 0 ∧
        byteAt ((withDisks sampleImage []).runBus (spinUp ++ readCommand 0x80)).cmd 8 = 0) := by
  have hready : ((writeReady sampleImage []).runBus (readCommand 0x80)).Scheduled := by decide
  refine transfer_count_iff sampleImage [] (spinUp ++ readCommand 0x80) ?_
  rw [runBus_append, spinUp_eq (by decide)]
  exact hready

/-- With DTL = 0 the first byte leaves 2^32 - 1 to go. -/
theorem zero_length_wraps :
    ((withDisks sampleImage []).runBus (spinUp ++ readCommand 0)).Scheduled ∧
      ¬ ((withDisks sampleImage []).runBus (spinUp ++ readCommand 0)).CountRight := by
  obtain ⟨hscheduled, hremaining, hlen, hcode⟩ :
      ((writeReady sampleImage []).runBus (readCommand 0)).Scheduled ∧ ((writeReady sampleImage []).runBus (readCommand 0)).remaining = 0 ∧
      ((writeReady sampleImage []).runBus (readCommand 0)).xferLen = 0 ∧ ((writeReady sampleImage []).runBus (readCommand 0)).code ≠ 0x0D := by
    decide
  rw [runBus_append, spinUp_eq (by decide)]
  refine ⟨hscheduled, fun hright => ?_⟩
  have hcarries : ((writeReady sampleImage []).runBus (readCommand 0)).Carries 0 :=
    ⟨.inl hscheduled, hcode, hremaining⟩
  obtain ⟨cs, hgoing, hwrapped⟩ := serve_wraps hcarries hscheduled
  have hbound := (hright.going cs hgoing).2
  rw [hwrapped, hlen] at hbound
  exact absurd hbound (by decide)

end FdcState

end Koncepcja.Disk
