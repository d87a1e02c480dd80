import Koncepcja.Lib.Monitor
import Koncepcja.Disk.SectorTransfer

/-!
# The Command Protocol

A command passes the data register as its command bytes, its execution bytes if it has any, and its
result bytes, and only then the next command byte is taken. `Port` is the protocol seen from the bus;
`FdcState` keeps to it in every run of ticks, motor changes, media changes and accesses.

## Main results

- `Port.delivered`: between the end of a command and the next command byte lie its result bytes.
- `Port.whole_command`: a command ends behind all of its command bytes, with as many results as it has.
- `settled_dispatch`: every command handler leaves a command under way, a result, or a free port.
- `sound_run`: in every run the port follows the protocol and the indices stay in their buffers.
-/

namespace Koncepcja.Disk

open Koncepcja.Bits Koncepcja.Bytes Monitor

/-! ## The protocol -/

/-- What the data register takes and gives, and where a command ends. -/
inductive PortEvent
  | command (val : UInt8)
  | write (val : UInt8)
  | read (val : UInt8)
  | complete (results : List UInt8)
  | result (val : UInt8)
  deriving DecidableEq, Repr

/-- A byte of the execution phase. -/
def PortEvent.isData : PortEvent → Bool
  | .write _ => true
  | .read _ => true
  | _ => false

/-- A byte of the command phase. -/
def PortEvent.isCommand : PortEvent → Bool
  | .command _ => true
  | _ => false

/-- The command bytes an opcode byte announces. One that is not in the table stands alone. -/
def commandBytes (op : UInt8) : Nat :=
  match lookupCmd (op &&& 0x1F) with
  | some (n, _) => n
  | none => 1

/-- The result bytes of a command: as many as the table says. An opcode that is not in the table, and
    SENSE INTERRUPT STATUS with nothing to report, answer the one byte of an invalid command. -/
def Answers (op : UInt8) (results : List UInt8) : Prop :=
  match lookupCmd (op &&& 0x1F) with
  | some (_, n) => results.length = n ∨ op &&& 0x1F = 0x08 ∧ results = [0x80]
  | none => results = [0x80]

instance (op : UInt8) (results : List UInt8) : Decidable (Answers op results) := by
  unfold Answers
  split <;> infer_instance

/-- The data register as the CPU knows it: free, taking a command of which `params` parameters are
    in, at work on one, or owing its result bytes. -/
inductive Port
  | idle
  | taking (op : UInt8) (params : Nat)
  | working (op : UInt8)
  | owing (results : List UInt8)
  deriving DecidableEq, Repr

namespace Port

/-- A command with `params` parameters in: the last one sets the chip to work. -/
def taken (op : UInt8) (params : Nat) : Port :=
  if params + 1 = commandBytes op then .working op else .taking op params

/-- The port that owes these bytes. -/
def owes : List UInt8 → Port
  | [] => .idle
  | r :: rs => .owing (r :: rs)

def step : Port → PortEvent → Option Port
  | .idle, .command val => some (taken val 0)
  | .taking op params, .command _ => some (taken op (params + 1))
  | .working op, .write _ => some (.working op)
  | .working op, .read _ => some (.working op)
  | .working op, .complete results => if Answers op results then some (owes results) else none
  | .owing (r :: rs), .result val => if val = r then some (owes rs) else none
  | _, _ => none

/-! ### What a step needs -/

variable {p q : Port} {op val : UInt8} {params : Nat} {results : List UInt8}

theorem step_command (h : step p (.command val) = some q) :
    p = .idle ∧ q = taken val 0 ∨ ∃ op params, p = .taking op params ∧ q = taken op (params + 1) := by
  cases p with
  | idle => exact .inl ⟨rfl, (Option.some.inj h).symm⟩
  | taking op params => exact .inr ⟨op, params, rfl, (Option.some.inj h).symm⟩
  | working op => cases h
  | owing results => cases results <;> cases h

theorem step_data {e : PortEvent} (he : e.isData = true) (h : step p e = some q) :
    ∃ op, p = .working op ∧ q = .working op := by
  cases e with
  | command val => cases he
  | complete results => cases he
  | result val => cases he
  | write val =>
    cases p with
    | working op => exact ⟨op, rfl, (Option.some.inj h).symm⟩
    | idle => cases h
    | taking op params => cases h
    | owing results => cases results <;> cases h
  | read val =>
    cases p with
    | working op => exact ⟨op, rfl, (Option.some.inj h).symm⟩
    | idle => cases h
    | taking op params => cases h
    | owing results => cases results <;> cases h

theorem step_complete (h : step p (.complete results) = some q) :
    ∃ op, p = .working op ∧ Answers op results ∧ q = owes results := by
  cases p with
  | idle => cases h
  | taking op params => cases h
  | owing owed => cases owed <;> cases h
  | working op =>
    rw [step] at h
    split at h
    · rename_i hanswers
      exact ⟨op, rfl, hanswers, (Option.some.inj h).symm⟩
    · cases h

theorem step_result (h : step p (.result val) = some q) : ∃ rs, p = .owing (val :: rs) ∧ q = owes rs := by
  cases p with
  | idle => cases h
  | taking op params => cases h
  | working op => cases h
  | owing owed =>
    cases owed with
    | nil => cases h
    | cons r rs =>
      rw [step] at h
      split at h
      · rename_i hval
        exact ⟨rs, congrArg (fun v => Port.owing (v :: rs)) hval.symm, (Option.some.inj h).symm⟩
      · cases h

theorem taken_eq_taking {op' : UInt8} {params' : Nat} (h : taken op params = .taking op' params') :
    op = op' ∧ params = params' := by
  rw [taken] at h
  split at h
  · cases h
  · cases h
    exact ⟨rfl, rfl⟩

theorem taken_eq_working {op' : UInt8} (h : taken op params = .working op') :
    op = op' ∧ params + 1 = commandBytes op := by
  rw [taken] at h
  split at h
  · rename_i hlast
    cases h
    exact ⟨rfl, hlast⟩
  · cases h

theorem step_other {e : PortEvent} (he : e.isCommand = false) (h : step p e = some q) :
    (e.isData = true ∧ ∃ op, p = .working op ∧ q = .working op) ∨ ∃ rs, q = owes rs := by
  cases e with
  | command val => cases he
  | write val => exact .inl ⟨rfl, step_data rfl h⟩
  | read val => exact .inl ⟨rfl, step_data rfl h⟩
  | complete results =>
    obtain ⟨op, -, -, rfl⟩ := step_complete h
    exact .inr ⟨results, rfl⟩
  | result val =>
    obtain ⟨rs, -, rfl⟩ := step_result h
    exact .inr ⟨rs, rfl⟩

theorem owes_ne_taking {rs : List UInt8} : owes rs ≠ .taking op params := by
  cases rs <;> exact Port.noConfusion

theorem owes_ne_working {rs : List UInt8} : owes rs ≠ .working op := by
  cases rs <;> exact Port.noConfusion

/-! ### What a log that is followed looks like -/

variable {before between after : List PortEvent}

theorem delivered_owes (h : follow step (owes results) (between ++ .command val :: after) = some q)
    (hbetween : ∀ e ∈ between, e.isCommand = false) : between = results.map .result := by
  induction results generalizing between with
  | nil =>
    cases between with
    | nil => rfl
    | cons e between =>
      -- a free port takes nothing but command bytes
      obtain ⟨p, hp, -⟩ := Option.bind_eq_some_iff.mp ((follow_cons _ _ _).symm.trans h)
      have hnot := hbetween e List.mem_cons_self
      cases e with
      | command val => cases hnot
      | _ => cases hp
  | cons r rs ih =>
    cases between with
    | nil =>
      obtain ⟨p, hp, -⟩ := Option.bind_eq_some_iff.mp ((follow_cons _ _ _).symm.trans h)
      cases hp
    | cons e between =>
      obtain ⟨p, hp, hrest⟩ := Option.bind_eq_some_iff.mp ((follow_cons _ _ _).symm.trans h)
      cases e with
      | result v =>
        obtain ⟨rs', heq, rfl⟩ := step_result hp
        cases heq
        rw [ih hrest fun e he => hbetween e (List.mem_cons_of_mem _ he), List.map_cons]
      | _ => cases hp

/-- **Delivery.** Between the end of a command and the next command byte lie its result bytes, in
    order, and nothing else. -/
theorem delivered {p : Port}
    (h : follow step p (before ++ .complete results :: (between ++ .command val :: after)) = some q)
    (hbetween : ∀ e ∈ between, e.isCommand = false) : between = results.map .result := by
  obtain ⟨p₁, -, hrest⟩ := follow_split h
  obtain ⟨p₂, hp₂, hrest⟩ := Option.bind_eq_some_iff.mp ((follow_cons _ _ _).symm.trans hrest)
  obtain ⟨op, -, -, rfl⟩ := step_complete hp₂
  exact delivered_owes hrest hbetween

/-- A log whose last part is the command `op` with these parameters and execution bytes; ahead of it
    every command is over and its results are read. -/
def Opens (l : List PortEvent) (op : UInt8) (params : List UInt8) (data : List PortEvent) : Prop :=
  ∃ prior, follow step .idle prior = some .idle ∧ l = prior ++ (.command op :: params.map .command ++ data)

theorem Opens.param {l : List PortEvent} {params : List UInt8} (h : Opens l op params []) :
    Opens (l ++ [.command val]) op (params ++ [val]) [] := by
  obtain ⟨prior, hprior, rfl⟩ := h
  refine ⟨prior, hprior, ?_⟩
  simp only [List.append_nil, List.map_append, List.map_cons, List.map_nil, List.append_assoc, List.cons_append]

theorem Opens.data {l data : List PortEvent} {params : List UInt8} (h : Opens l op params data) (e : PortEvent) :
    Opens (l ++ [e]) op params (data ++ [e]) := by
  obtain ⟨prior, hprior, rfl⟩ := h
  refine ⟨prior, hprior, ?_⟩
  simp only [List.append_assoc]

theorem opens_of_follow {l : List PortEvent} :
    (∀ op params, follow step .idle l = some (.taking op params) → ∃ ps, ps.length = params ∧ Opens l op ps []) ∧
    (∀ op, follow step .idle l = some (.working op) → ∃ ps data, ps.length + 1 = commandBytes op ∧
      (∀ e ∈ data, e.isData = true) ∧ Opens l op ps data) := by
  induction l using List.reverseRecOn with
  | nil => exact ⟨fun _ _ h => Port.noConfusion (Option.some.inj h), fun _ h => Port.noConfusion (Option.some.inj h)⟩
  | append_singleton l e ih =>
    obtain ⟨ihTaking, ihWorking⟩ := ih
    -- the port behind the last entry
    have hlast : ∀ p, follow step .idle (l ++ [e]) = some p → ∃ r, follow step .idle l = some r ∧ step r e = some p := by
      intro p h
      obtain ⟨r, hr, hstep⟩ := follow_split h
      rw [follow_cons, Option.bind_eq_some_iff] at hstep
      obtain ⟨p', hstep, hp⟩ := hstep
      cases hp
      exact ⟨r, hr, hstep⟩
    -- a command byte opens a command or joins one
    have hcommand : ∀ p, follow step .idle (l ++ [e]) = some p → e.isCommand = true →
        ∃ op ps, p = taken op ps.length ∧ Opens (l ++ [e]) op ps [] := by
      intro p h he
      obtain ⟨r, hr, hstep⟩ := hlast p h
      cases e with
      | command val =>
        rcases step_command hstep with ⟨rfl, rfl⟩ | ⟨op, params, rfl, rfl⟩
        · exact ⟨val, [], rfl, l, hr, rfl⟩
        · obtain ⟨ps, rfl, hopens⟩ := ihTaking op params hr
          exact ⟨op, ps ++ [val], by rw [List.length_append, List.length_singleton], hopens.param⟩
      | _ => cases he
    refine ⟨fun op params h => ?_, fun op h => ?_⟩
    · cases he : e.isCommand with
      | true =>
        obtain ⟨op', ps, hp, hopens⟩ := hcommand _ h he
        obtain ⟨rfl, rfl⟩ := taken_eq_taking hp.symm
        exact ⟨ps, rfl, hopens⟩
      | false =>
        obtain ⟨r, -, hstep⟩ := hlast _ h
        rcases step_other he hstep with ⟨-, op', -, hp⟩ | ⟨rs, hp⟩
        · cases hp
        · exact absurd hp.symm owes_ne_taking
    · cases he : e.isCommand with
      | true =>
        obtain ⟨op', ps, hp, hopens⟩ := hcommand _ h he
        obtain ⟨rfl, hcount⟩ := taken_eq_working hp.symm
        exact ⟨ps, [], hcount, fun e he => absurd he List.not_mem_nil, hopens⟩
      | false =>
        obtain ⟨r, hr, hstep⟩ := hlast _ h
        rcases step_other he hstep with ⟨hdata, op', rfl, hp⟩ | ⟨rs, hp⟩
        · cases hp
          obtain ⟨ps, data, hcount, hall, hopens⟩ := ihWorking op hr
          refine ⟨ps, data ++ [e], hcount, fun x hx => ?_, hopens.data e⟩
          rcases List.mem_append.mp hx with hx | hx
          · exact hall x hx
          · rw [List.mem_singleton.mp hx]
            exact hdata
        · exact absurd hp.symm owes_ne_working

/-- **Whole commands.** A command ends behind its opcode byte, as many parameters as the table gives it
    and the bytes of its execution phase, and its result has the length the table gives it. -/
theorem whole_command (h : follow step .idle (before ++ .complete results :: after) = some q) :
    ∃ op params data, params.length + 1 = commandBytes op ∧ (∀ e ∈ data, e.isData = true) ∧
      Opens before op params data ∧ Answers op results := by
  obtain ⟨p, hp, hrest⟩ := follow_split h
  obtain ⟨r, hr, -⟩ := Option.bind_eq_some_iff.mp ((follow_cons _ _ _).symm.trans hrest)
  obtain ⟨op, rfl, hanswers, -⟩ := step_complete hr
  obtain ⟨params, data, hcount, hdata, hopens⟩ := opens_of_follow.2 op hp
  exact ⟨op, params, data, hcount, hdata, hopens, hanswers⟩

end Port

/-! ## The device's side -/

/-- What happens to the device: a master cycle with the bus as it stands, a disc put in or taken out, a
    flux dump put in drive A, read-only or with the image that takes its written tracks, the mechanics
    set from a snapshot. -/
inductive Happening
  | tick (b : FdcState.FdcBus)
  | attach (unit : Bool) (image : List UInt8)
  | attachFlux (scp : List UInt8)
  | attachFluxWritable (scp dsk : List UInt8)
  | eject (unit : Bool)
  | poke (motor : Bool) (trackA trackB : UInt8)

namespace FdcState

/-- `fdc_eject_disk`. -/
def ejectDisk (f : FdcState) (unit : Bool) : FdcState := f.insert unit {} {}

/-- `fdc_poke_mechanics`. -/
def pokeMechanics (f : FdcState) (motor : Bool) (trackA trackB : UInt8) : FdcState :=
  { f with
    motor := motor, driveA := { f.driveA with trackPos := trackA }, driveB := { f.driveB with trackPos := trackB } }

/-- The state behind a happening. -/
def after (f : FdcState) : Happening → FdcState
  | .tick b => (f.tick b).2
  | .attach unit image => f.attachDisk unit image
  | .attachFlux scp => f.attachFlux scp
  | .attachFluxWritable scp dsk => f.attachFluxWritable scp dsk
  | .eject unit => f.ejectDisk unit
  | .poke motor trackA trackB => f.pokeMechanics motor trackA trackB

/-- The state behind a run. -/
def run (f : FdcState) (hs : List Happening) : FdcState := hs.foldl after f

/-- The chip is at work on a command. -/
def Working (f : FdcState) : Prop := f.phase = .exec ∨ f.phase = .busy

instance (f : FdcState) : Decidable f.Working := inferInstanceAs (Decidable (_ ∨ _))

/-- The result bytes that are still to be read. -/
def owed (f : FdcState) : List UInt8 := (f.res.take f.resLen).drop f.resCount

/-- What a command that was under way logs once this is the state. -/
def overLog (f : FdcState) : List PortEvent :=
  match f.phase with
  | .result => [.complete f.owed]
  | .cmd => if f.cmdCount = 0 then [.complete []] else []
  | _ => []

/-- What the timed events of a cycle log. -/
def timersLog (f : FdcState) : List PortEvent := if f.Working then f.timers.overLog else []

/-- What a byte read from the data register logs. -/
def readLog (f : FdcState) : List PortEvent :=
  match f.phase with
  | .result => [.result (f.resAt f.resCount)]
  | .exec => if f.dirToCpu then .read f.headByte :: f.dataRead.2.overLog else []
  | _ => []

/-- What a byte written to the data register logs. -/
def writeLog (f : FdcState) (val : UInt8) : List PortEvent :=
  match f.phase with
  | .cmd => .command val :: (f.dataWrite val).overLog
  | .exec => if f.dirToCpu then [] else .write val :: (f.dataWrite val).overLog
  | _ => []

/-- What the bus half of a cycle logs; the first cycle of an access moves its byte. -/
def portLog (f : FdcState) (b : FdcBus) : List PortEvent :=
  if f.accessPrev then []
  else if readsData b then FdcState.readLog { f with accessPrev := true }
  else if writesData b then FdcState.writeLog { f with accessPrev := true } b.data
  else []

/-- What a happening logs. -/
def logs (f : FdcState) : Happening → List PortEvent
  | .tick b => f.mechanics.timersLog ++ f.mechanics.timers.portLog b
  | _ => []

/-- The log of a run. -/
def log (f : FdcState) (hs : List Happening) : List PortEvent := runLog after logs f hs

section
variable {f g h : FdcState} {p : Port} {op : UInt8}

/-! ## The port's registers -/

/-- The data register and what it rests on were left alone. -/
structure Idles (f g : FdcState) : Prop extends f.Holds g where
  cmdLen : g.cmdLen = f.cmdLen
  cmdCount : g.cmdCount = f.cmdCount
  res : g.res = f.res
  resLen : g.resLen = f.resLen
  resCount : g.resCount = f.resCount
  fmtIds : g.fmtIds = f.fmtIds
  fmtPos : g.fmtPos = f.fmtPos
  flux : f.flux.Sized → g.flux.Sized

theorem Idles.trans (hfg : f.Idles g) (hgh : g.Idles h) : f.Idles h :=
  ⟨hfg.toHolds.trans hgh.toHolds, hgh.cmdLen.trans hfg.cmdLen, hgh.cmdCount.trans hfg.cmdCount, hgh.res.trans hfg.res,
    hgh.resLen.trans hfg.resLen, hgh.resCount.trans hfg.resCount, hgh.fmtIds.trans hfg.fmtIds, hgh.fmtPos.trans hfg.fmtPos,
    fun hf => hgh.flux (hfg.flux hf)⟩

theorem idles_spin (f : FdcState) : f.Idles f.spin := by
  rw [spin]
  dsimp only
  split
  · exact ⟨⟨rfl, rfl, rfl, rfl, rfl⟩, rfl, rfl, rfl, rfl, rfl, rfl, rfl, id⟩
  · split <;> exact ⟨⟨rfl, rfl, rfl, rfl, rfl⟩, rfl, rfl, rfl, rfl, rfl, rfl, rfl, id⟩

theorem idles_mechanics (f : FdcState) : f.Idles f.mechanics :=
  (idles_spin f).trans ⟨⟨rfl, rfl, rfl, rfl, rfl⟩, rfl, rfl, rfl, rfl, rfl, rfl, rfl, id⟩

theorem idles_motorWrite (f : FdcState) (on : Bool) : f.Idles (f.motorWrite on) := by
  rw [motorWrite]
  dsimp only
  split
  · exact ⟨⟨rfl, rfl, rfl, rfl, rfl⟩, rfl, rfl, rfl, rfl, rfl, rfl, rfl, id⟩
  · split <;> exact ⟨⟨rfl, rfl, rfl, rfl, rfl⟩, rfl, rfl, rfl, rfl, rfl, rfl, rfl, id⟩

theorem idles_latch (f : FdcState) (p : Bool) : f.Idles { f with accessPrev := p } :=
  ⟨⟨rfl, rfl, rfl, rfl, rfl⟩, rfl, rfl, rfl, rfl, rfl, rfl, rfl, id⟩

theorem idles_outLatch (f : FdcState) (v : UInt8) : f.Idles { f with outLatch := v } :=
  ⟨⟨rfl, rfl, rfl, rfl, rfl⟩, rfl, rfl, rfl, rfl, rfl, rfl, rfl, id⟩

theorem idles_access {b : FdcBus} (hb : ¬ ((readsData b = true ∨ writesData b = true) ∧ f.accessPrev = false)) :
    f.Idles (f.access b).2 := by
  obtain ⟨p, heq | ⟨on, heq⟩⟩ := access_else hb
  · rw [heq]
    exact idles_latch f p
  · rw [heq]
    exact (idles_latch f p).trans (idles_motorWrite _ on)

theorem idles_insert (f : FdcState) (unit : Bool) (media : Media) {m : FluxBack} (hm : m.Sized) :
    f.Idles (f.insert unit media m) := by
  refine ⟨⟨rfl, rfl, rfl, rfl, rfl⟩, rfl, rfl, rfl, rfl, rfl, rfl, rfl, fun hf => ?_⟩
  cases unit
  · exact hm
  · exact hf

theorem idles_attachFlux (f : FdcState) (scp : List UInt8) : f.Idles (f.attachFlux scp) := by
  rw [attachFlux]
  split
  · exact ⟨⟨rfl, rfl, rfl, rfl, rfl⟩, rfl, rfl, rfl, rfl, rfl, rfl, rfl, id⟩
  · exact idles_insert f _ _ (FluxBack.sized_of_new rfl rfl)

theorem idles_attachFluxWritable (f : FdcState) (scp dsk : List UInt8) : f.Idles (f.attachFluxWritable scp dsk) := by
  rw [attachFluxWritable]
  split
  · exact idles_insert f _ _ (FluxBack.sized_of_new rfl rfl)
  · exact ⟨⟨rfl, rfl, rfl, rfl, rfl⟩, rfl, rfl, rfl, rfl, rfl, rfl, rfl, fun _ => FluxBack.sized_of_new rfl rfl⟩

theorem idles_pokeMechanics (f : FdcState) (motor : Bool) (a b : UInt8) : f.Idles (f.pokeMechanics motor a b) :=
  ⟨⟨rfl, rfl, rfl, rfl, rfl⟩, rfl, rfl, rfl, rfl, rfl, rfl, rfl, id⟩

/-! ## What stands behind the port -/

/-- The controller is in the state of the protocol the port is in. -/
inductive Shows (f : FdcState) : Port → Prop
  | idle (phase : f.phase = .cmd) (free : f.cmdCount = 0) : Shows f .idle
  | taking {op : UInt8} {params : Nat} (phase : f.phase = .cmd) (count : f.cmdCount = params + 1)
      (more : f.cmdCount < f.cmdLen) (code : f.code = op &&& 0x1F)
      (entry : lookupCmd (op &&& 0x1F) = some (f.cmdLen, f.resLen)) : Shows f (.taking op params)
  | working {op : UInt8} {n : Nat} (phase : f.Working) (entry : lookupCmd (op &&& 0x1F) = some (n, 7))
      (resLen : f.resLen = 7) : Shows f (.working op)
  | owing (phase : f.phase = .result) (more : f.resCount < f.resLen) (resLen : f.resLen ≤ 7) :
      Shows f (.owing f.owed)

/-- FORMAT has room for the ID byte it takes next. -/
def Room (f : FdcState) : Prop := f.phase = .exec → f.code = 0x0D → f.fmtPos < (byteAt f.cmd 3).toNat * 4

/-- The buffers have their sizes. -/
structure Buffers (f : FdcState) : Prop where
  cmd : f.cmd.length = 9
  res : f.res.length = 7
  ids : f.fmtIds.length = 116
  flux : f.flux.Sized

theorem Still.buffers (hfg : f.Still g) (hf : f.Buffers) : g.Buffers :=
  ⟨hfg.cmd.trans hf.cmd, hfg.res hf.res, hfg.ids.trans hf.ids, hfg.flux hf.flux⟩

theorem dispatch_buffers (hg : g.Buffers) : g.dispatch.Buffers := by
  obtain ⟨hres, hids, hcmd, hflux⟩ := dispatch_lengths hg.res
  exact ⟨hcmd.trans hg.cmd, hres, hids.trans hg.ids, hflux hg.flux⟩

/-- The invariant: the buffers have their sizes, what is under way was checked, and the controller is
    where the protocol is. -/
structure Sound (f : FdcState) (p : Port) : Prop extends f.Buffers where
  armed : f.Armed
  room : f.Room
  shows : f.Shows p

theorem Idles.owed (hfg : f.Idles g) : g.owed = f.owed := by
  rw [FdcState.owed, hfg.res, hfg.resLen, hfg.resCount]
  rfl

theorem Idles.shows (hfg : f.Idles g) (hf : f.Shows p) : g.Shows p := by
  cases hf with
  | idle phase free => exact .idle (hfg.phase.trans phase) (hfg.cmdCount.trans free)
  | taking phase count more code entry =>
    refine .taking (hfg.phase.trans phase) (hfg.cmdCount.trans count) ?_ (hfg.code.trans code) ?_
    · rw [hfg.cmdCount, hfg.cmdLen]
      exact more
    · rw [hfg.cmdLen, hfg.resLen]
      exact entry
  | working phase entry resLen =>
    refine .working ?_ entry (hfg.resLen.trans resLen)
    rw [Working, hfg.phase]
    exact phase
  | owing phase more resLen =>
    rw [← hfg.owed]
    refine .owing (hfg.phase.trans phase) ?_ ?_
    · rw [hfg.resCount, hfg.resLen]
      exact more
    · rw [hfg.resLen]
      exact resLen

theorem Idles.sound (hfg : f.Idles g) (hf : f.Sound p) : g.Sound p where
  cmd := (congrArg List.length hfg.cmd).trans hf.cmd
  res := (congrArg List.length hfg.res).trans hf.res
  ids := (congrArg List.length hfg.fmtIds).trans hf.ids
  flux := hfg.flux hf.flux
  armed := hfg.armed hf.armed
  room := by
    intro hexec hcode
    rw [hfg.fmtPos, hfg.cmd]
    exact hf.room (hfg.phase.symm.trans hexec) (hfg.code.symm.trans hcode)
  shows := hfg.shows hf.shows

/-! ## Commands that are taken on -/

/-- A command goes on, or its result is ready to be read. -/
structure TakenOn (f g : FdcState) : Prop where
  resLen : g.resLen = f.resLen
  phase : g.Working ∨ g.phase = .result ∧ g.resCount = 0
  exec : g.phase = .exec → f.phase = .cmd → g.fmtPos = 0

theorem TakenOn.congr_left {f' : FdcState} (hfg : f'.TakenOn g) (hresLen : f'.resLen = f.resLen)
    (hphase : f'.phase = f.phase) : f.TakenOn g :=
  ⟨hfg.resLen.trans hresLen, hfg.phase, fun hexec hcmd => hfg.exec hexec (hphase.trans hcmd)⟩

theorem takenOn_of_result (hresLen : g.resLen = f.resLen) (hphase : g.phase = .result) (hcount : g.resCount = 0) :
    f.TakenOn g :=
  ⟨hresLen, .inr ⟨hphase, hcount⟩, fun hexec => FdcPhase.noConfusion (hphase.symm.trans hexec)⟩

theorem takenOn_of_busy (hresLen : g.resLen = f.resLen) (hphase : g.phase = .busy) : f.TakenOn g :=
  ⟨hresLen, .inl (.inr hphase), fun hexec => FdcPhase.noConfusion (hphase.symm.trans hexec)⟩

theorem takenOn_of_exec (hresLen : g.resLen = f.resLen) (hphase : g.phase = .exec) (hf : f.phase ≠ .cmd) :
    f.TakenOn g :=
  ⟨hresLen, .inl (.inl hphase), fun _ hcmd => absurd hcmd hf⟩

theorem takenOn_finishWithStatus (f : FdcState) : f.TakenOn f.finishWithStatus := takenOn_of_result rfl rfl rfl

theorem takenOn_failNow (f : FdcState) (st1 : UInt8) : f.TakenOn (f.failNow st1) := takenOn_of_result rfl rfl rfl

theorem takenOn_startSector (f : FdcState) (trk : FdcTrack) (toCpu : Bool) : f.TakenOn (f.startSector trk toCpu) := by
  rcases startSector_cases f trk toCpu with ⟨st2, heq⟩ | ⟨i, rev, served, j, sec, st2, heq, -⟩ <;> rw [heq]
  · exact takenOn_of_busy rfl rfl
  · exact takenOn_of_busy rfl rfl

theorem takenOn_chainSector (f : FdcState) (toCpu : Bool) : f.TakenOn (f.chainSector toCpu) := by
  rw [chainSector]
  split
  · exact takenOn_finishWithStatus f
  · split
    · exact (takenOn_startSector _ _ _).congr_left rfl rfl
    · exact (takenOn_finishWithStatus _).congr_left rfl rfl

theorem markTable_kept (f : FdcState) : f.markTable.resLen = f.resLen ∧ f.markTable.phase = f.phase := by
  rw [markTable]
  split
  · split
    · split <;> exact ⟨rfl, rfl⟩
    · exact ⟨rfl, rfl⟩
  · exact ⟨rfl, rfl⟩

theorem markImage_kept (f : FdcState) : f.markImage.resLen = f.resLen ∧ f.markImage.phase = f.phase := by
  rw [markImage]
  split <;> exact ⟨rfl, rfl⟩

theorem takenOn_sectorWritten (f : FdcState) : f.TakenOn f.sectorWritten := by
  rw [sectorWritten]
  split
  · obtain ⟨htable, htablePhase⟩ := markTable_kept f.pastSector.fetchTrack
    obtain ⟨himage, himagePhase⟩ := markImage_kept f.pastSector.fetchTrack.markTable
    exact (takenOn_chainSector _ _).congr_left (himage.trans htable) (himagePhase.trans htablePhase)
  · exact (takenOn_chainSector _ _).congr_left rfl rfl

theorem takenOn_sectorRead (f : FdcState) : f.TakenOn f.sectorRead := by
  rw [sectorRead]
  split
  · exact (takenOn_finishWithStatus _).congr_left rfl rfl
  · exact (takenOn_chainSector _ _).congr_left rfl rfl

theorem takenOn_formatResult (f : FdcState) (st0 c h n : UInt8) : f.TakenOn (f.formatResult st0 c h n) :=
  takenOn_of_result rfl rfl rfl

theorem takenOn_doFormat (f : FdcState) : f.TakenOn f.doFormat := by
  rcases f.doFormat_cases with heq | ⟨image, st0, c, h, n, heq⟩ <;> rw [heq]
  · exact takenOn_of_result rfl rfl rfl
  · exact (takenOn_formatResult _ _ _ _ _).congr_left rfl rfl

theorem takenOn_readIdDone (f : FdcState) : f.TakenOn f.readIdDone := by
  rw [readIdDone]
  split
  · split
    · exact takenOn_of_result rfl rfl rfl
    · exact takenOn_of_result rfl rfl rfl
  · exact takenOn_of_result rfl rfl rfl

theorem takenOn_completePending (hne : f.phase ≠ .cmd) : f.TakenOn f.completePending := by
  rw [completePending]
  split
  · exact (takenOn_readIdDone _).congr_left rfl rfl
  · exact takenOn_of_exec rfl rfl hne
  · exact (takenOn_doFormat _).congr_left rfl rfl
  · exact takenOn_of_result rfl rfl rfl

theorem Working.ne_cmd (hf : f.Working) : f.phase ≠ .cmd := by
  intro hcmd
  rcases hf with h | h
  · exact FdcPhase.noConfusion (h.symm.trans hcmd)
  · exact FdcPhase.noConfusion (h.symm.trans hcmd)

theorem takenOn_timers (hf : f.Working) : f.TakenOn f.timers := by
  obtain ⟨u, hu, hdue⟩ : ∃ u, (if f.phase = .busy ∧ f.dueAt ≤ f.now then f.completePending else f) = u ∧ f.TakenOn u := by
    refine ⟨_, rfl, ?_⟩
    split
    · exact takenOn_completePending hf.ne_cmd
    · exact ⟨rfl, .inl hf, fun _ hcmd => absurd hcmd hf.ne_cmd⟩
  rw [timers_eq hu]
  split
  · exact takenOn_of_result ((takenOn_finishWithStatus (u.orRes 1 0x10)).resLen.trans hdue.resLen) rfl rfl
  · exact hdue

theorem takenOn_dataRead (hexec : f.phase = .exec) : f.TakenOn f.dataRead.2 := by
  have hne : f.phase ≠ .cmd := Working.ne_cmd (.inl hexec)
  cases hdir : f.dirToCpu with
  | false =>
    rw [dataRead_of_not (.inl ⟨hexec, hdir⟩)]
    exact takenOn_of_exec rfl hexec hne
  | true =>
    rw [dataRead_of_exec hexec hdir]
    dsimp only
    split
    · exact (takenOn_sectorRead _).congr_left rfl rfl
    · exact takenOn_of_exec rfl hexec hne

theorem takenOn_execWriteByte (hexec : f.phase = .exec) (val : UInt8) : f.TakenOn (f.execWriteByte val) := by
  have hne : f.phase ≠ .cmd := Working.ne_cmd (.inl hexec)
  rw [execWriteByte]
  split
  · rw [formatByte]
    dsimp only
    split
    · exact takenOn_of_busy rfl rfl
    · exact takenOn_of_exec rfl hexec hne
  · rw [writeByte]
    split
    · exact (takenOn_sectorWritten _).congr_left rfl rfl
    · exact takenOn_of_exec rfl hexec hne

/-! ## Commands that are dispatched -/

theorem takenOn_enterResult (f : FdcState) : f.TakenOn f.enterResult := takenOn_of_result rfl rfl rfl

theorem TakenOn.of_setRes {i : Nat} {v : UInt8} (h : (f.setRes i v).TakenOn g) : f.TakenOn g := ⟨h.resLen, h.phase, h.exec⟩

theorem takenOn_cmdReadId (f : FdcState) : f.TakenOn f.cmdReadId := by
  have hwait : ∀ (u : FdcState) (trk : FdcTrack), u.TakenOn (u.awaitId trk) := fun _ _ => takenOn_of_busy rfl rfl
  have hfail : ∀ u : FdcState, u.TakenOn u.failLater := fun _ => takenOn_of_busy rfl rfl
  rw [cmdReadId]
  split
  · split
    · exact (hwait _ _).congr_left rfl rfl
    · exact ((hfail _).of_setRes.of_setRes.of_setRes.of_setRes).congr_left rfl rfl
  · exact ((takenOn_enterResult _).of_setRes.of_setRes).congr_left rfl rfl

theorem takenOn_cmdReadData (f : FdcState) : f.TakenOn f.cmdReadData := by
  rw [cmdReadData]
  split
  · split
    · exact (takenOn_startSector _ _ _).congr_left rfl rfl
    · exact (takenOn_failNow _ _).congr_left rfl rfl
  · exact takenOn_of_result rfl rfl rfl

theorem takenOn_cmdWriteData (f : FdcState) : f.TakenOn f.cmdWriteData := by
  rw [cmdWriteData]
  split
  · split
    · exact (takenOn_failNow _ _).congr_left rfl rfl
    · split
      · exact (takenOn_startSector _ _ _).congr_left rfl rfl
      · exact (takenOn_failNow _ _).congr_left rfl rfl
  · exact takenOn_of_result rfl rfl rfl

theorem takenOn_cmdFormatTrack (f : FdcState) : f.TakenOn f.cmdFormatTrack := by
  have hids : ∀ u : FdcState, u.TakenOn (FdcState.beginExec { u with fmtPos := 0, dirToCpu := false }) := fun _ =>
    ⟨rfl, .inl (.inl rfl), fun _ _ => rfl⟩
  have hrefused : ∀ u : FdcState, u.TakenOn u.notWritable := fun _ => takenOn_of_result rfl rfl rfl
  rw [cmdFormatTrack]
  split
  · dsimp only
    split
    · exact ((hrefused _).of_setRes.of_setRes.of_setRes).congr_left rfl rfl
    · exact ((hids _).of_setRes.of_setRes.of_setRes).congr_left rfl rfl
  · exact (takenOn_enterResult _).congr_left rfl rfl

theorem cmdSeekTo_free (f : FdcState) (target : UInt8) :
    (f.cmdSeekTo target).phase = .cmd ∧ (f.cmdSeekTo target).cmdCount = 0 := by
  rw [cmdSeekTo]
  dsimp only
  split
  · split <;> exact ⟨rfl, rfl⟩
  · exact ⟨rfl, rfl⟩

theorem cmdSenseInterrupt_result (hres : f.res.length = 7) :
    f.cmdSenseInterrupt.phase = .result ∧ f.cmdSenseInterrupt.resCount = 0 ∧
      (f.cmdSenseInterrupt.resLen = f.resLen ∨
        f.cmdSenseInterrupt.resLen = 1 ∧ f.cmdSenseInterrupt.res.take 1 = [0x80]) := by
  rw [cmdSenseInterrupt]
  split
  · exact ⟨rfl, rfl, .inl rfl⟩
  split
  · exact ⟨rfl, rfl, .inl rfl⟩
  split
  · exact ⟨rfl, rfl, .inl rfl⟩
  split
  · exact ⟨rfl, rfl, .inl rfl⟩
  · refine ⟨rfl, rfl, .inr ⟨rfl, ?_⟩⟩
    change (f.res.set 0 0x80).take 1 = [0x80]
    obtain ⟨r, rs, hcons⟩ := List.exists_cons_of_length_pos (show 0 < f.res.length by rw [hres]; decide)
    rw [hcons]
    rfl

/-- What a command byte or an execution byte leaves: the command under way, its result, or a port
    that is free again. -/
inductive Settled (op : UInt8) (g : FdcState) : Prop
  | working {n : Nat} (phase : g.Working) (entry : lookupCmd (op &&& 0x1F) = some (n, 7)) (resLen : g.resLen = 7)
  | result (phase : g.phase = .result) (count : g.resCount = 0) (pos : 0 < g.resLen) (le : g.resLen ≤ 7)
      (answers : Answers op (g.res.take g.resLen))
  | free (phase : g.phase = .cmd) (count : g.cmdCount = 0) (answers : Answers op [])

theorem answers_of_length {n k : Nat} {results : List UInt8} (entry : lookupCmd (op &&& 0x1F) = some (n, k))
    (h : results.length = k) : Answers op results := by
  rw [Answers, entry]
  exact .inl h

theorem settled_of_result {n : Nat} (entry : lookupCmd (op &&& 0x1F) = some (n, g.resLen)) (hphase : g.phase = .result)
    (hcount : g.resCount = 0) (hpos : 0 < g.resLen) (hle : g.resLen ≤ 7) (hres : g.res.length = 7) : g.Settled op := by
  refine .result hphase hcount hpos hle (answers_of_length entry ?_)
  rw [List.length_take, hres]
  exact Nat.min_eq_left hle

theorem TakenOn.settled {n : Nat} (hfg : f.TakenOn g) (entry : lookupCmd (op &&& 0x1F) = some (n, 7))
    (hlen : f.resLen = 7) (hres : g.res.length = 7) : g.Settled op := by
  have hresLen : g.resLen = 7 := hfg.resLen.trans hlen
  rcases hfg.phase with hworking | ⟨hphase, hcount⟩
  · exact .working hworking entry hresLen
  · refine settled_of_result (n := n) ?_ hphase hcount ?_ ?_ hres
    · rw [hresLen]
      exact entry
    · rw [hresLen]
      decide
    · exact Nat.le_of_eq hresLen

/-- What a command handler leaves. -/
structure Dispatched (op : UInt8) (g : FdcState) : Prop where
  settled : g.Settled op
  exec : g.phase = .exec → g.fmtPos = 0

theorem resLen_of_entry {c : UInt8} {n m k k' : Nat} (h : lookupCmd c = some (n, k)) (entry : lookupCmd c = some (m, k')) :
    k = k' := (Prod.mk.inj (Option.some.inj (h.symm.trans entry))).2

theorem TakenOn.dispatched {n : Nat} (hfg : f.TakenOn g) (hphase : f.phase = .cmd)
    (entry : lookupCmd (op &&& 0x1F) = some (n, f.resLen)) (hlen : f.resLen = 7) (hres : g.res.length = 7) :
    Dispatched op g :=
  ⟨hfg.settled (hlen ▸ entry) hlen hres, fun hexec => hfg.exec hexec hphase⟩

theorem dispatched_of_free {n : Nat} (entry : lookupCmd (op &&& 0x1F) = some (n, f.resLen)) (hlen : f.resLen = 0)
    (hphase : g.phase = .cmd) (hcount : g.cmdCount = 0) : Dispatched op g :=
  ⟨.free hphase hcount (answers_of_length entry hlen.symm), fun hexec => FdcPhase.noConfusion (hphase.symm.trans hexec)⟩

/-- **Dispatch.** Whatever the command, it is under way behind its last byte, or its result is ready, or
    it has none and the port is free. -/
theorem dispatched_dispatch {n : Nat} (hphase : f.phase = .cmd)
    (hcode : f.code = op &&& 0x1F) (entry : lookupCmd (op &&& 0x1F) = some (n, f.resLen)) (hres : f.res.length = 7) :
    Dispatched op f.dispatch := by
  have hlen : ∀ {c m k}, lookupCmd c = some (m, k) → f.code = c → f.resLen = k := fun hk hc =>
    resLen_of_entry entry ((congrArg lookupCmd (hcode.symm.trans hc)).trans hk)
  refine dispatch_ind f ?_ ?_ ?_ ?_ ?_ ?_ ?_ ?_ ?_ ?_ ?_
  · exact fun hc => dispatched_of_free entry (hlen rfl hc) (cmdSeekTo_free f 0).1 (cmdSeekTo_free f 0).2
  · exact fun hc => dispatched_of_free entry (hlen rfl hc) (cmdSeekTo_free f _).1 (cmdSeekTo_free f _).2
  · exact fun hc => dispatched_of_free entry (hlen rfl hc) rfl rfl
  · -- SENSE DRIVE STATUS answers ST3 alone
    intro hc
    have hone : f.cmdDriveStatus.resLen = 1 := hlen rfl hc
    refine ⟨settled_of_result (n := n) entry rfl rfl ?_ ?_ (List.length_set.trans hres), fun hexec => FdcPhase.noConfusion hexec⟩
    · rw [hone]
      decide
    · rw [hone]
      decide
  · intro hc
    have hseven : f.resLen = 7 := by
      rcases hc with hc | hc
      · exact hlen rfl hc
      · exact hlen rfl hc
    exact (takenOn_cmdWriteData f).dispatched hphase entry hseven ((still_cmdWriteData f).res hres)
  · exact fun hc => (takenOn_cmdReadData f).dispatched hphase entry (hlen rfl hc) ((still_cmdReadData f).res hres)
  · intro hc
    have htwo : f.resLen = 2 := hlen rfl hc
    obtain ⟨hresult, hzero, hreport⟩ := cmdSenseInterrupt_result hres
    refine ⟨?_, fun hexec => FdcPhase.noConfusion (hresult.symm.trans hexec)⟩
    rcases hreport with hkept | ⟨hone, hinvalid⟩
    · refine settled_of_result (n := n) ?_ hresult hzero ?_ ?_ ((still_cmdSenseInterrupt f).res hres)
      · rw [hkept]
        exact entry
      · rw [hkept, htwo]
        decide
      · rw [hkept, htwo]
        decide
    · refine .result hresult hzero (by rw [hone]; decide) (by rw [hone]; decide) ?_
      rw [hone, hinvalid, Answers, entry]
      exact .inr ⟨hcode.symm.trans hc, rfl⟩
  · exact fun hc => (takenOn_cmdReadId f).dispatched hphase entry (hlen rfl hc) ((still_cmdReadId f).res hres)
  · intro hc
    have htaken : f.TakenOn f.cmdReadDeletedStub := (takenOn_failNow _ _).congr_left rfl rfl
    exact htaken.dispatched hphase entry (hlen rfl hc) (((still_initStatus f).trans (still_failNow _ _)).res hres)
  · exact fun hc => (takenOn_cmdFormatTrack f).dispatched hphase entry (hlen rfl hc) ((still_cmdFormatTrack f).res hres)
  · -- an opcode that is not in the table is not dispatched
    intro hnone
    rw [← hcode, hnone] at entry
    cases entry

/-! ## One half of a cycle -/

theorem entry_of_ite {P : Nat × Nat → Prop} {c : Prop} [Decidable c] {entry found : Nat × Nat} {rest : Option (Nat × Nat)}
    (h : (if c then some entry else rest) = some found) (hentry : P entry) (hrest : rest = some found → P found) :
    P found := by
  split at h
  · rw [← Option.some.inj h]
    exact hentry
  · exact hrest h

theorem lookupCmd_bounds {c : UInt8} {n k : Nat} (h : lookupCmd c = some (n, k)) : 1 ≤ n ∧ n ≤ 9 ∧ k ≤ 7 := by
  have hentry := @entry_of_ite fun e => 1 ≤ e.1 ∧ e.1 ≤ 9 ∧ e.2 ≤ 7
  rw [lookupCmd] at h
  refine hentry h (by decide) fun h => ?_
  refine hentry h (by decide) fun h => ?_
  refine hentry h (by decide) fun h => ?_
  refine hentry h (by decide) fun h => ?_
  refine hentry h (by decide) fun h => ?_
  refine hentry h (by decide) fun h => ?_
  refine hentry h (by decide) fun h => ?_
  refine hentry h (by decide) fun h => ?_
  refine hentry h (by decide) fun h => ?_
  refine hentry h (by decide) fun h => ?_
  refine hentry h (by decide) fun h => ?_
  cases h

theorem shows_of_settled (hs : g.Settled op) (hres : g.res.length = 7) :
    ∃ q, follow Port.step (.working op) g.overLog = some q ∧ g.Shows q := by
  cases hs with
  | working phase entry resLen =>
    refine ⟨.working op, ?_, .working phase entry resLen⟩
    rw [overLog]
    rcases phase with hexec | hbusy
    · rw [hexec]
      rfl
    · rw [hbusy]
      rfl
  | result phase count pos le answers =>
    have howed : g.owed = g.res.take g.resLen := by
      rw [owed, count]
      rfl
    -- A result phase owes at least one byte.
    have hsome : Port.owes g.owed = .owing g.owed := by
      cases hcase : g.owed with
      | nil =>
        have hlen := congrArg List.length (howed.symm.trans hcase)
        rw [List.length_take, hres] at hlen
        exact absurd hlen (by simp only [List.length_nil]; omega)
      | cons r rs => rfl
    refine ⟨.owing g.owed, ?_, .owing phase (by rw [count]; exact pos) le⟩
    rw [overLog, phase]
    dsimp only
    rw [follow_cons_of_step (q := Port.owing g.owed), follow_nil]
    rw [Port.step, if_pos (howed ▸ answers), hsome]
  | free phase count answers =>
    refine ⟨.idle, ?_, .idle phase count⟩
    rw [overLog, phase]
    dsimp only
    rw [if_pos count, follow_cons_of_step (q := Port.idle), follow_nil]
    rw [Port.step, if_pos answers]
    rfl

theorem room_of_ne (h : g.phase ≠ .exec) : g.Room := fun hexec => absurd hexec h

theorem room_of_code (h : g.code ≠ 0x0D) : g.Room := fun _ hcode => absurd hcode h

theorem Shows.working_op (hf : f.Shows p) (hw : f.Working) :
    ∃ op n, p = .working op ∧ lookupCmd (op &&& 0x1F) = some (n, 7) ∧ f.resLen = 7 := by
  cases hf with
  | idle phase _ => exact absurd phase hw.ne_cmd
  | taking phase _ _ _ _ => exact absurd phase hw.ne_cmd
  | working _ entry resLen => exact ⟨_, _, rfl, entry, resLen⟩
  | owing phase _ _ =>
    rcases hw with h | h
    · exact FdcPhase.noConfusion (phase.symm.trans h)
    · exact FdcPhase.noConfusion (phase.symm.trans h)

theorem timers_of_not_working (hf : ¬ f.Working) : f.timers = f := by
  rw [timers_eq (if_neg fun hdue => hf (.inr hdue.1)), if_neg fun hdue => hf (.inl hdue.1)]

theorem completePending_result (hpending : f.pending ≠ .dataStart) : f.completePending.phase = .result := by
  rw [completePending]
  split
  · rcases (takenOn_readIdDone f.unscheduled.fetchTrack).phase with hw | hresult
    · rw [readIdDone] at hw ⊢
      split
      · split <;> rfl
      · rfl
    · exact hresult.1
  · rename_i hstart
    exact absurd hstart hpending
  · exact doFormat_phase _
  · rfl

theorem room_timers (harmed : f.Armed) (hroom : f.Room) : f.timers.Room := by
  by_cases hw : f.Working
  · rcases hw with hexec | hbusy
    · rcases timers_of_exec hexec with heq | hresult
      · rw [heq]
        exact hroom
      · exact room_of_ne fun h => FdcPhase.noConfusion (hresult.symm.trans h)
    · by_cases hpending : f.pending = .dataStart
      · rcases timers_of_scheduled ⟨hbusy, hpending⟩ with ⟨heq, -⟩ | ⟨heq, -⟩
        · rw [heq]
          exact hroom
        · rw [heq]
          exact room_of_code (harmed.transfer ⟨hbusy, hpending⟩).code
      · by_cases hdue : f.dueAt ≤ f.now
        · have hresult := completePending_result hpending
          rw [timers_eq (if_pos ⟨hbusy, hdue⟩), if_neg fun h => FdcPhase.noConfusion (hresult.symm.trans h.1)]
          exact room_of_ne fun h => FdcPhase.noConfusion (hresult.symm.trans h)
        · rw [timers_eq (if_neg fun h => hdue h.2), if_neg fun h => FdcPhase.noConfusion (hbusy.symm.trans h.1)]
          exact hroom
  · rw [timers_of_not_working hw]
    exact hroom

/-- **The timed events** of a cycle keep to the protocol. -/
theorem sound_timers (hf : f.Sound p) : ∃ q, follow Port.step p f.timersLog = some q ∧ f.timers.Sound q := by
  by_cases hw : f.Working
  · obtain ⟨op, n, rfl, entry, hlen⟩ := hf.shows.working_op hw
    have hbuf := (still_timers f).buffers hf.toBuffers
    obtain ⟨q, hq, hshows⟩ := shows_of_settled ((takenOn_timers hw).settled entry hlen hbuf.res) hbuf.res
    refine ⟨q, ?_, hbuf, armed_timers hf.armed, room_timers hf.armed hf.room, hshows⟩
    rw [timersLog, if_pos hw]
    exact hq
  · rw [timersLog, if_neg hw, timers_of_not_working hw]
    exact ⟨p, rfl, hf⟩

theorem owed_eq_cons (hmore : f.resCount < f.resLen) (hres : f.resLen ≤ f.res.length) :
    f.owed = f.resAt f.resCount :: (f.res.take f.resLen).drop (f.resCount + 1) := by
  have hlen : f.resCount < (f.res.take f.resLen).length := by
    rw [List.length_take, Nat.min_eq_left hres]
    exact hmore
  have hget : f.resAt f.resCount = (f.res.take f.resLen)[f.resCount] := by
    rw [List.getElem_take, resAt, byteAt, List.getD_eq_getElem _ _ (Nat.lt_of_lt_of_le hmore hres)]
  rw [owed, hget, List.drop_eq_getElem_cons hlen]

theorem dataRead_of_result (hphase : f.phase = .result) :
    f.dataRead = (f.resAt f.resCount, if f.resLen ≤ f.resCount + 1 then FdcState.enterCmd { f with resCount := f.resCount + 1 }
      else { f with resCount := f.resCount + 1 }) := by
  rw [dataRead, hphase]

theorem dataWrite_buffers (hf : f.Buffers) (val : UInt8) : (f.dataWrite val).Buffers := by
  cases hcmd : f.command val with
  | none => exact (still_dataWrite hcmd).buffers hf
  | some g =>
    obtain ⟨hdisp, hstill⟩ := dataWrite_of_command hcmd
    rw [hdisp]
    exact dispatch_buffers (hstill.buffers hf)

theorem room_dataRead (harmed : f.Armed) (hroom : f.Room) (hexec : f.phase = .exec) : f.dataRead.2.Room := by
  cases hdir : f.dirToCpu with
  | false =>
    rw [dataRead_of_not (.inl ⟨hexec, hdir⟩)]
    exact hroom
  | true =>
    have hcode : f.code ≠ 0x0D := fun hcode => Bool.noConfusion (hdir.symm.trans (harmed.ids hexec hcode).1)
    rw [dataRead_of_exec hexec hdir]
    dsimp only
    split
    · exact room_of_ne (over_sectorRead _).ne_exec
    · exact room_of_code hcode

/-- **A byte read** from the data register keeps to the protocol. -/
theorem sound_dataRead (hf : f.Sound p) : ∃ q, follow Port.step p f.readLog = some q ∧ f.dataRead.2.Sound q := by
  have hbuf := (still_dataRead f).buffers hf.toBuffers
  have harmed := armed_dataRead hf.armed
  cases hphase : f.phase with
  | cmd =>
    rw [readLog, dataRead, hphase]
    exact ⟨p, rfl, hf⟩
  | busy =>
    rw [readLog, dataRead, hphase]
    exact ⟨p, rfl, hf⟩
  | exec =>
    have htaken := takenOn_dataRead hphase
    obtain ⟨op, n, rfl, entry, hlen⟩ := hf.shows.working_op (.inl hphase)
    cases hdir : f.dirToCpu with
    | false =>
      rw [readLog, hphase, hdir, dataRead_of_not (.inl ⟨hphase, hdir⟩)]
      exact ⟨.working op, rfl, hf⟩
    | true =>
      obtain ⟨q, hq, hshows⟩ := shows_of_settled (htaken.settled entry hlen hbuf.res) hbuf.res
      refine ⟨q, ?_, hbuf, harmed, room_dataRead hf.armed hf.room hphase, hshows⟩
      rw [readLog, hphase, hdir]
      exact (follow_cons_of_step rfl _).trans hq
  | result =>
    cases hf.shows with
    | idle phase _ => exact FdcPhase.noConfusion (hphase.symm.trans phase)
    | taking phase _ _ _ _ => exact FdcPhase.noConfusion (hphase.symm.trans phase)
    | working phase _ _ => exact absurd hphase (by rcases phase with h | h <;> rw [h] <;> exact FdcPhase.noConfusion)
    | owing _ more resLen =>
      have howed := owed_eq_cons more (Nat.le_trans resLen (Nat.le_of_eq hf.res.symm))
      have hread := dataRead_of_result hphase
      have hstep : Port.step (.owing f.owed) (.result (f.resAt f.resCount)) =
          some (Port.owes ((f.res.take f.resLen).drop (f.resCount + 1))) := by
        rw [howed, Port.step, if_pos rfl]
      have hlog : f.readLog = [.result (f.resAt f.resCount)] := by
        rw [readLog, hphase]
      refine ⟨_, by rw [hlog, follow_cons_of_step hstep, follow_nil], hbuf, harmed, ?_, ?_⟩
      · rw [hread]
        dsimp only
        split
        · exact room_of_ne FdcPhase.noConfusion
        · exact room_of_ne fun h => FdcPhase.noConfusion (hphase.symm.trans h)
      · rw [hread]
        dsimp only
        split
        · -- the last one
          rename_i hlast
          rw [List.drop_of_length_le (by rw [List.length_take]; omega)]
          exact .idle rfl rfl
        · rename_i hnot
          have hnext : FdcState.owed { f with resCount := f.resCount + 1 } =
              f.resAt (f.resCount + 1) :: (f.res.take f.resLen).drop (f.resCount + 1 + 1) :=
            owed_eq_cons (f := { f with resCount := f.resCount + 1 }) (Nat.not_le.mp hnot)
              (Nat.le_trans resLen (Nat.le_of_eq hf.res.symm))
          have howes : Port.owes ((f.res.take f.resLen).drop (f.resCount + 1)) =
              .owing (FdcState.owed { f with resCount := f.resCount + 1 }) := by
            change Port.owes (FdcState.owed { f with resCount := f.resCount + 1 }) = _
            rw [hnext]
            rfl
          rw [howes]
          exact .owing hphase (Nat.not_le.mp hnot) resLen

theorem commandBytes_eq {n k : Nat} (entry : lookupCmd (op &&& 0x1F) = some (n, k)) : commandBytes op = n := by
  rw [commandBytes, entry]

theorem sound_dispatch {n : Nat} (hphase : g.phase = .cmd) (hcode : g.code = op &&& 0x1F)
    (entry : lookupCmd (op &&& 0x1F) = some (n, g.resLen)) (hg : g.Buffers) :
    ∃ q, follow Port.step (.working op) g.dispatch.overLog = some q ∧ g.dispatch.Sound q := by
  have hd := dispatched_dispatch hphase hcode entry hg.res
  have harmed := armed_dispatch hphase
  have hbuf := dispatch_buffers hg
  obtain ⟨q, hq, hshows⟩ := shows_of_settled hd.settled hbuf.res
  refine ⟨q, hq, hbuf, harmed, fun hexec hformat => ?_, hshows⟩
  -- FORMAT starts with the first ID byte, and its sector count was checked
  have hcount := (harmed.ids hexec hformat).2.count.1
  have hpos : 0 < (byteAt g.dispatch.cmd 3).toNat :=
    Nat.pos_of_ne_zero fun hzero => hcount (UInt8.toNat_inj.mp hzero)
  rw [hd.exec hexec]
  exact Nat.mul_pos hpos (by decide)

theorem room_execWriteByte (hroom : f.Room) (hexec : f.phase = .exec) (val : UInt8) :
    (f.execWriteByte val).Room := by
  rw [execWriteByte]
  split
  · rename_i hcode
    have hlt := hroom hexec hcode
    rw [formatByte]
    dsimp only
    split
    · exact room_of_ne FdcPhase.noConfusion
    · rename_i hnot
      intro _ _
      exact Nat.lt_of_le_of_ne hlt hnot
  · rename_i hcode
    rw [writeByte]
    split
    · exact room_of_ne (over_sectorWritten _).ne_exec
    · exact room_of_code hcode

theorem dataWrite_of_cmd (hphase : f.phase = .cmd) (val : UInt8) :
    f.dataWrite val = if f.cmdCount = 0 then
        match lookupCmd (val &&& 0x1F) with
        | none => FdcState.enterResult { FdcState.setRes { f with mt := val &&& 0x80, mf := val &&& 0x40, sk := val &&& 0x20 } 0 0x80
            with resLen := 1 }
        | some (cmdBytes, resBytes) =>
          let g := { f with
            mt := val &&& 0x80, mf := val &&& 0x40, sk := val &&& 0x20
            cmd := f.cmd.set 0 (val &&& 0x1F), cmdCount := 1, cmdLen := cmdBytes, resLen := resBytes }
          if 1 = cmdBytes then FdcState.dispatch { g with cmdCount := 0 } else g
      else
        let g := { f with cmd := f.cmd.set f.cmdCount val, cmdCount := f.cmdCount + 1 }
        if f.cmdCount + 1 = f.cmdLen then FdcState.dispatch { g with cmdCount := 0 } else g := by
  have hnot : ¬ (f.phase = .exec ∧ f.dirToCpu = false) := fun h => FdcPhase.noConfusion (hphase.symm.trans h.1)
  exact (if_neg hnot).trans (if_neg (not_not.mpr hphase))

theorem sound_opcode (hf : f.Sound p) (hphase : f.phase = .cmd) (hcount : f.cmdCount = 0) (val : UInt8) :
    ∃ q, follow Port.step (Port.taken val 0) (f.dataWrite val).overLog = some q ∧ (f.dataWrite val).Sound q := by
  have hbuf := dataWrite_buffers hf.toBuffers val
  have harmed := armed_dataWrite hf.armed val
  have hwrite := dataWrite_of_cmd hphase val
  rw [if_pos hcount] at hwrite
  cases hlookup : lookupCmd (val &&& 0x1F) with
  | none =>
    -- one that is not in the table is answered with ST0 alone
    have hone : commandBytes val = 1 := by
      rw [commandBytes, hlookup]
    rw [hlookup] at hwrite
    dsimp only at hwrite
    have hsettled : (f.dataWrite val).Settled val := by
      rw [hwrite]
      refine .result rfl rfl (show 0 < 1 from Nat.one_pos) (show 1 ≤ 7 by decide) ?_
      change Answers val ((f.res.set 0 0x80).take 1)
      obtain ⟨r, rs, hcons⟩ := List.exists_cons_of_length_pos (show 0 < f.res.length by rw [hf.res]; decide)
      rw [hcons, Answers, hlookup]
      rfl
    obtain ⟨q, hq, hshows⟩ := shows_of_settled hsettled hbuf.res
    refine ⟨q, ?_, hbuf, harmed, ?_, hshows⟩
    · rw [Port.taken, if_pos hone.symm]
      exact hq
    · rw [hwrite]
      exact room_of_ne FdcPhase.noConfusion
  | some entry =>
    obtain ⟨n, k⟩ := entry
    rw [hlookup] at hwrite
    dsimp only at hwrite
    have hcode : byteAt (f.cmd.set 0 (val &&& 0x1F)) 0 = val &&& 0x1F :=
      byteAt_set_self _ (by rw [hf.cmd]; decide)
    have hcmd : (f.cmd.set 0 (val &&& 0x1F)).length = 9 := List.length_set.trans hf.cmd
    by_cases hone : 1 = n
    · rw [if_pos hone] at hwrite
      rw [hwrite, Port.taken, if_pos (hone.trans (commandBytes_eq hlookup).symm)]
      exact sound_dispatch hphase hcode hlookup ⟨hcmd, hf.res, hf.ids, hf.flux⟩
    · rw [if_neg hone] at hwrite
      rw [Port.taken, if_neg fun h => hone (h.trans (commandBytes_eq hlookup))]
      refine ⟨.taking val 0, ?_, hbuf, harmed, ?_, ?_⟩
      · rw [overLog, hwrite]
        dsimp only
        rw [hphase]
        rfl
      · rw [hwrite]
        exact room_of_ne fun h => FdcPhase.noConfusion (hphase.symm.trans h)
      · rw [hwrite]
        have hmore : 1 < n := Nat.lt_of_le_of_ne (lookupCmd_bounds hlookup).1 hone
        exact .taking hphase rfl hmore hcode hlookup

theorem sound_param {params n : Nat} (hf : f.Sound p) (hphase : f.phase = .cmd) (hcount : f.cmdCount = params + 1)
    (hmore : f.cmdCount < f.cmdLen) (hcode : f.code = op &&& 0x1F) (hlen : f.cmdLen = n)
    (entry : lookupCmd (op &&& 0x1F) = some (n, f.resLen)) (val : UInt8) :
    ∃ q, follow Port.step (Port.taken op (params + 1)) (f.dataWrite val).overLog = some q ∧ (f.dataWrite val).Sound q := by
  have hbuf := dataWrite_buffers hf.toBuffers val
  have harmed := armed_dataWrite hf.armed val
  have hne : f.cmdCount ≠ 0 := by
    rw [hcount]
    exact Nat.succ_ne_zero params
  have hwrite := dataWrite_of_cmd hphase val
  rw [if_neg hne] at hwrite
  have hcode' : byteAt (f.cmd.set f.cmdCount val) 0 = op &&& 0x1F := (byteAt_set_ne _ _ hne).trans hcode
  have hcmd : (f.cmd.set f.cmdCount val).length = 9 := List.length_set.trans hf.cmd
  -- The last parameter starts the command, and one before it is only stored.
  by_cases hlast : f.cmdCount + 1 = f.cmdLen
  · have htaken : params + 1 + 1 = commandBytes op := by
      rw [← hcount, commandBytes_eq entry, ← hlen]
      exact hlast
    rw [if_pos hlast] at hwrite
    rw [hwrite, Port.taken, if_pos htaken]
    exact sound_dispatch hphase hcode' entry ⟨hcmd, hf.res, hf.ids, hf.flux⟩
  · have htaken : params + 1 + 1 ≠ commandBytes op := by
      rw [← hcount, commandBytes_eq entry, ← hlen]
      exact hlast
    rw [if_neg hlast] at hwrite
    rw [Port.taken, if_neg htaken]
    refine ⟨.taking op (params + 1), ?_, hbuf, harmed, ?_, ?_⟩
    · rw [overLog, hwrite]
      dsimp only
      rw [hphase]
      rfl
    · rw [hwrite]
      exact room_of_ne fun h => FdcPhase.noConfusion (hphase.symm.trans h)
    · rw [hwrite]
      exact .taking hphase (congrArg (· + 1) hcount) (Nat.lt_of_le_of_ne hmore hlast) hcode' (hlen ▸ entry)

/-- **A byte written** to the data register keeps to the protocol. -/
theorem sound_dataWrite (hf : f.Sound p) (val : UInt8) :
    ∃ q, follow Port.step p (f.writeLog val) = some q ∧ (f.dataWrite val).Sound q := by
  -- Outside the execution phase and the command phase a byte is ignored.
  have hstay : ∀ hnot : ¬ (f.phase = .exec ∧ f.dirToCpu = false), f.phase ≠ .cmd → f.dataWrite val = f := by
    intro hnot hne
    rw [dataWrite, if_neg hnot, if_pos hne]
  cases hphase : f.phase with
  | cmd =>
    rw [writeLog, hphase]
    dsimp only
    -- In the command phase the byte is an opcode or a parameter.
    cases hf.shows with
    | idle _ free =>
      obtain ⟨q, hq, hsound⟩ := sound_opcode hf hphase free val
      exact ⟨q, (follow_cons_of_step rfl _).trans hq, hsound⟩
    | taking _ count more code entry =>
      obtain ⟨q, hq, hsound⟩ := sound_param hf hphase count more code rfl entry val
      exact ⟨q, (follow_cons_of_step rfl _).trans hq, hsound⟩
    | working phase _ _ => exact absurd hphase (Working.ne_cmd phase)
    | owing phase _ _ => exact FdcPhase.noConfusion (hphase.symm.trans phase)
  | result =>
    rw [writeLog, hphase, hstay (fun h => FdcPhase.noConfusion (hphase.symm.trans h.1)) (by rw [hphase]; exact FdcPhase.noConfusion)]
    exact ⟨p, rfl, hf⟩
  | busy =>
    rw [writeLog, hphase, hstay (fun h => FdcPhase.noConfusion (hphase.symm.trans h.1)) (by rw [hphase]; exact FdcPhase.noConfusion)]
    exact ⟨p, rfl, hf⟩
  -- In the execution phase the byte is data if the transfer goes to the disc, and else is ignored.
  | exec =>
    obtain ⟨op, n, rfl, entry, hlen⟩ := hf.shows.working_op (.inl hphase)
    cases hdir : f.dirToCpu with
    | true =>
      rw [writeLog, hphase, hdir, hstay (fun h => Bool.noConfusion (hdir.symm.trans h.2)) (by rw [hphase]; exact FdcPhase.noConfusion)]
      exact ⟨.working op, rfl, hf⟩
    | false =>
      have hwrite : f.dataWrite val = f.execWriteByte val := by
        rw [dataWrite, if_pos ⟨hphase, hdir⟩]
      have htaken := takenOn_execWriteByte hphase val
      have hbuf := (still_execWriteByte f val).buffers hf.toBuffers
      obtain ⟨q, hq, hshows⟩ := shows_of_settled (htaken.settled entry hlen hbuf.res) hbuf.res
      have harmed := armed_dataWrite hf.armed val
      rw [hwrite] at harmed
      rw [writeLog, hphase, hdir, hwrite]
      exact ⟨q, (follow_cons_of_step rfl _).trans hq, hbuf, harmed, room_execWriteByte hf.room hphase val, hshows⟩

/-- **The bus half** of a cycle keeps to the protocol. -/
theorem sound_access (hf : f.Sound p) (b : FdcBus) :
    ∃ q, follow Port.step p (f.portLog b) = some q ∧ (f.access b).2.Sound q := by
  have hlatch := (idles_latch f true).sound hf
  -- A data access acts on its first cycle only; every other cycle moves no byte.
  by_cases hb : (readsData b = true ∨ writesData b = true) ∧ f.accessPrev = false
  · have hedge : ¬ f.accessPrev = true := by
      rw [hb.2]
      exact Bool.noConfusion
    by_cases hread : readsData b = true
    · obtain ⟨q, hq, hsound⟩ := sound_dataRead hlatch
      refine ⟨q, ?_, ?_⟩
      · rw [portLog, if_neg hedge, if_pos hread]
        exact hq
      · rw [access_of_readsData hread hb.2]
        exact (idles_outLatch _ _).sound hsound
    · have hwrite := hb.1.resolve_left hread
      obtain ⟨q, hq, hsound⟩ := sound_dataWrite hlatch b.data
      refine ⟨q, ?_, ?_⟩
      · rw [portLog, if_neg hedge, if_neg hread, if_pos hwrite]
        exact hq
      · rw [access_of_writesData hwrite hb.2]
        exact hsound
  · -- No byte passes, so the log is empty and the port stays where it was.
    have hlog : f.portLog b = [] := by
      rw [portLog]
      split
      · rfl
      · rename_i hedge
        have hprev : f.accessPrev = false := Bool.not_eq_true _ ▸ hedge
        rw [if_neg fun hread => hb ⟨.inl hread, hprev⟩, if_neg fun hwrite => hb ⟨.inr hwrite, hprev⟩]
    rw [hlog]
    exact ⟨p, rfl, (idles_access hb).sound hf⟩

/-! ## What the port rests on -/

/-- The places of the buffers the next access of the data register touches, each with its buffer's
    size: the command, result and ID bytes, the image bytes of a sector, or the bytes of a cached
    revolution and the revolution itself. -/
def touched (f : FdcState) (b : FdcBus) : List (Nat × Nat) :=
  let image := ((f.drive f.unit).media.image.getD []).length
  let sector := if f.dataPos < image then [(f.dataPos, image)] else []
  let rev := f.serveRev % kFluxRevs
  let payload := (rev, f.flux.cache.length) ::
    if f.dataPos < kFluxPayload then [(f.dataPos, (f.flux.rev rev).pay.length)] else []
  if f.accessPrev then []
  else if readsData b then
    match f.phase with
    | .result => [(f.resCount, f.res.length)]
    | .exec => if f.dirToCpu = false then [] else if f.fromFlux then payload else sector
    | _ => []
  else if writesData b then
    match f.phase with
    | .cmd => [(f.cmdCount, f.cmd.length)]
    | .exec => if f.dirToCpu then [] else if f.code = 0x0D then [(f.fmtPos, f.fmtIds.length)] else sector
    | _ => []
  else []

/-- RQM and DIO in the main status register: a byte is to be read, or to be written. -/
def toRead (f : FdcState) : Bool := f.msrValue &&& 0xC0 == 0xC0

/-- RQM without DIO. -/
def toWrite (f : FdcState) : Bool := f.msrValue &&& 0xC0 == 0x80

/-- The state in which an access of the next cycle finds the controller. -/
def atBus (f : FdcState) : FdcState := f.mechanics.timers

/-- **Indices.** The next byte of every buffer has its place. -/
theorem Sound.touched_lt (hf : f.Sound p) (b : FdcBus) : ∀ x ∈ f.touched b, x.1 < x.2 := by
  have hsector : ∀ x : Nat × Nat, x ∈ (if f.dataPos < ((f.drive f.unit).media.image.getD []).length then
      [(f.dataPos, ((f.drive f.unit).media.image.getD []).length)] else []) → x.1 < x.2 := by
    intro x hx
    split at hx
    · rename_i hlt
      rw [List.mem_singleton.mp hx]
      exact hlt
    · cases hx
  have hpayload : ∀ x : Nat × Nat, x ∈ ((f.serveRev % kFluxRevs, f.flux.cache.length) ::
      if f.dataPos < kFluxPayload then [(f.dataPos, (f.flux.rev (f.serveRev % kFluxRevs)).pay.length)] else []) →
      x.1 < x.2 := by
    have hrev : f.serveRev % kFluxRevs < f.flux.cache.length := by
      rw [hf.flux.cache]
      exact Nat.mod_lt _ (by decide)
    intro x hx
    rcases List.mem_cons.mp hx with rfl | hx
    · exact hrev
    · split at hx
      · rename_i hlt
        rw [List.mem_singleton.mp hx, FluxBack.rev, List.getD_eq_getElem _ _ hrev]
        exact Nat.lt_of_lt_of_le hlt (Nat.le_of_eq (hf.flux.pay _ (List.getElem_mem hrev)).symm)
      · cases hx
  intro x hx
  rw [touched] at hx
  split at hx
  · cases hx
  split at hx
  · split at hx
    · rename_i hphase
      rw [List.mem_singleton.mp hx, hf.res]
      cases hf.shows with
      | idle phase _ => exact FdcPhase.noConfusion (hphase.symm.trans phase)
      | taking phase _ _ _ _ => exact FdcPhase.noConfusion (hphase.symm.trans phase)
      | working phase _ _ => exact absurd hphase (by rcases phase with h | h <;> rw [h] <;> exact FdcPhase.noConfusion)
      | owing _ more resLen => exact Nat.lt_of_lt_of_le more resLen
    · split at hx
      · cases hx
      · split at hx
        · exact hpayload x hx
        · exact hsector x hx
    · cases hx
  split at hx
  · split at hx
    · rename_i hphase
      rw [List.mem_singleton.mp hx, hf.cmd]
      cases hf.shows with
      | idle _ free =>
        rw [free]
        decide
      | taking _ _ more _ entry => exact Nat.lt_of_lt_of_le more (lookupCmd_bounds entry).2.1
      | working phase _ _ => exact absurd hphase (Working.ne_cmd phase)
      | owing phase _ _ => exact FdcPhase.noConfusion (hphase.symm.trans phase)
    · rename_i hphase
      split at hx
      · cases hx
      split at hx
      · rename_i hcode
        rw [List.mem_singleton.mp hx, hf.ids]
        -- FORMAT checked that it has at most 29 sectors
        have hmax := (hf.armed.ids hphase hcode).2.count.2
        refine Nat.lt_of_lt_of_le (hf.room hphase hcode) ?_
        exact Nat.mul_le_mul_right 4 hmax
      · exact hsector x hx
    · cases hx
  · cases hx

theorem msrValue_handshake (f : FdcState) :
    f.msrValue &&& 0xC0 =
      match f.phase with
      | .exec => (if f.nextByteAt ≤ f.now then 0x80 else 0) ||| (if f.dirToCpu then 0x40 else 0)
      | .result => 0xC0
      | .busy => 0
      | .cmd => 0x80 := by
  rw [msrValue]
  cases f.phase with
  | exec => cases f.driveA.seeking <;> cases f.driveB.seeking <;> cases f.dirToCpu <;> dsimp only <;> split <;> decide
  | result => cases f.driveA.seeking <;> cases f.driveB.seeking <;> dsimp only <;> decide
  | busy => cases f.driveA.seeking <;> cases f.driveB.seeking <;> dsimp only <;> decide
  | cmd => cases f.driveA.seeking <;> cases f.driveB.seeking <;> dsimp only <;> split <;> decide

theorem toRead_iff (f : FdcState) :
    f.toRead = true ↔ f.phase = .result ∨ f.phase = .exec ∧ f.dirToCpu = true ∧ f.nextByteAt ≤ f.now := by
  rw [toRead, beq_iff_eq, msrValue_handshake]
  cases f.phase with
  | exec => cases f.dirToCpu <;> dsimp only <;> split <;> simp_all [show (0x80 : UInt8) ||| 0x40 = 0xC0 by decide]
  | result => simp
  | busy => simp
  | cmd => simp

theorem toWrite_iff (f : FdcState) :
    f.toWrite = true ↔ f.phase = .cmd ∨ f.phase = .exec ∧ f.dirToCpu = false ∧ f.nextByteAt ≤ f.now := by
  rw [toWrite, beq_iff_eq, msrValue_handshake]
  cases f.phase with
  | exec => cases f.dirToCpu <;> dsimp only <;> split <;> simp_all [show (0x80 : UInt8) ||| 0x40 = 0xC0 by decide]
  | result => simp
  | busy => simp
  | cmd => simp

theorem access_value {b : FdcBus} (hb : readsData b = true) (hedge : f.accessPrev = false) :
    (f.access b).1 = some (FdcState.dataRead { f with accessPrev := true }).1 := by
  simp only [readsData, Bool.and_eq_true, Bool.not_eq_true', bne_iff_ne, ne_eq] at hb
  obtain ⟨⟨⟨⟨⟨hiorq, hm1⟩, hsel⟩, hunit⟩, hrd⟩, hdata⟩ := hb
  simp only [access, hiorq, hm1, hsel, hunit, hrd, hdata, hedge, Bool.not_false, Bool.and_true, Bool.true_or,
    if_false, if_true, Bool.true_eq_false]

/-- What the port promises: the indices stay in the buffers, and the revolutions the head meets in the
    cache; where the status asks to be read there
    is a byte of the execution phase or of a result, and where it asks to be written the byte is taken
    by a command or the execution phase. -/
structure PortRight (f : FdcState) : Prop where
  sizes : f.Buffers
  revs : f.passingRev < f.flux.cache.length ∧ ∀ cell, f.revAtCell cell < f.flux.cache.length
  indices : ∀ b, ∀ x ∈ f.touched b, x.1 < x.2
  reads : f.toRead = true → ∀ b, readsData b = true → f.accessPrev = false →
    ∃ v rest, (f.access b).1 = some v ∧
      (f.portLog b = .read v :: rest ∨ f.portLog b = .result v :: rest ∧ f.owed.head? = some v)
  writes : f.toWrite = true → ∀ b, writesData b = true → f.accessPrev = false →
    ∃ rest, f.portLog b = .command b.data :: rest ∨ f.portLog b = .write b.data :: rest

theorem not_writesData {b : FdcBus} (h : writesData b = true) : ¬ readsData b = true := by
  simp only [writesData, Bool.and_eq_true, Bool.not_eq_true'] at h
  simp only [readsData, Bool.and_eq_true, h, Bool.false_eq_true, and_false, false_and, not_false_eq_true]

theorem Buffers.revs_lt (hf : f.Buffers) :
    f.passingRev < f.flux.cache.length ∧ ∀ cell, f.revAtCell cell < f.flux.cache.length := by
  have hmod : ∀ n, n % f.flux.cacheRevs < f.flux.cache.length := fun n => by
    rw [hf.flux.cache]
    exact Nat.lt_of_lt_of_le (Nat.mod_lt n hf.flux.revs.1) hf.flux.revs.2
  refine ⟨hmod _, fun cell => ?_⟩
  rw [revAtCell]
  split
  · exact hmod _
  · exact hmod _

theorem Sound.portRight (hf : f.Sound p) : f.PortRight := by
  refine ⟨hf.toBuffers, hf.revs_lt, hf.touched_lt, fun hread b hb hedge => ?_, fun hwrite b hb hedge => ?_⟩
  · have hprev : ¬ f.accessPrev = true := by
      rw [hedge]
      exact Bool.noConfusion
    rw [access_value hb hedge, portLog, if_neg hprev, if_pos hb]
    rcases f.toRead_iff.mp hread with hphase | ⟨hphase, hdir, -⟩
    · -- a result byte is owed
      rw [readLog, dataRead_of_result (show FdcState.phase { f with accessPrev := true } = .result from hphase)]
      dsimp only
      rw [hphase]
      refine ⟨_, [], rfl, .inr ⟨rfl, ?_⟩⟩
      cases hf.shows with
      | idle phase _ => exact FdcPhase.noConfusion (hphase.symm.trans phase)
      | taking phase _ _ _ _ => exact FdcPhase.noConfusion (hphase.symm.trans phase)
      | working phase _ _ => exact absurd hphase (by rcases phase with h | h <;> rw [h] <;> exact FdcPhase.noConfusion)
      | owing _ more resLen =>
        rw [owed_eq_cons more (Nat.le_trans resLen (Nat.le_of_eq hf.res.symm))]
        rfl
    · rw [readLog, dataRead_of_exec (show FdcState.phase { f with accessPrev := true } = .exec from hphase) hdir]
      dsimp only
      rw [hphase, hdir]
      exact ⟨_, _, rfl, .inl rfl⟩
  · have hprev : ¬ f.accessPrev = true := by
      rw [hedge]
      exact Bool.noConfusion
    rw [portLog, if_neg hprev, if_neg (not_writesData hb), if_pos hb, writeLog]
    dsimp only
    rcases f.toWrite_iff.mp hwrite with hphase | ⟨hphase, hdir, -⟩
    · rw [hphase]
      exact ⟨_, .inl rfl⟩
    · rw [hphase, hdir]
      exact ⟨_, .inr rfl⟩

/-! ## Runs -/

theorem sound_mechanics (hf : f.Sound p) :
    ∃ q, follow Port.step p f.mechanics.timersLog = some q ∧ f.mechanics.timers.Sound q :=
  sound_timers ((idles_mechanics f).sound hf)

/-- **One happening.** -/
theorem sound_after (hf : f.Sound p) (h : Happening) :
    ∃ q, follow Port.step p (f.logs h) = some q ∧ (f.after h).Sound q := by
  cases h with
  | tick b =>
    obtain ⟨q, hq, hsound⟩ := sound_mechanics hf
    obtain ⟨r, hr, hlast⟩ := sound_access hsound b
    exact ⟨r, follow_join hq hr, hlast⟩
  | attach unit image => exact ⟨p, rfl, (idles_insert f unit _ (FluxBack.sized_of_new rfl rfl)).sound hf⟩
  | attachFlux scp => exact ⟨p, rfl, (idles_attachFlux f scp).sound hf⟩
  | attachFluxWritable scp dsk => exact ⟨p, rfl, (idles_attachFluxWritable f scp dsk).sound hf⟩
  | eject unit => exact ⟨p, rfl, (idles_insert f unit _ (FluxBack.sized_of_new rfl rfl)).sound hf⟩
  | poke motor trackA trackB => exact ⟨p, rfl, (idles_pokeMechanics f motor trackA trackB).sound hf⟩

/-- **Every run** follows the protocol. -/
theorem sound_run (hf : f.Sound p) (hs : List Happening) :
    ∃ q, follow Port.step p (f.log hs) = some q ∧ (f.run hs).Sound q :=
  follow_runLog Sound (fun _ h _ hsound => sound_after hsound h) hf hs

theorem sound_powerOn : FdcState.Sound {} .idle :=
  ⟨⟨rfl, rfl, rfl, FluxBack.sized_of_new rfl rfl⟩, armed_of_cmd rfl, room_of_ne FdcPhase.noConfusion, .idle rfl rfl⟩

end

/-- **The command protocol.** In every run from power-on, of ticks with any bus, motor changes and media
    changes in any order, the promises of the port hold between the cycles and where an access finds
    the controller. Every command ends behind all its bytes with as many result bytes as it has, and
    these are what the CPU reads before the next command byte is taken. -/
theorem fdc_protocol (hs : List Happening) :
    (FdcState.run {} hs).PortRight ∧ (FdcState.run {} hs).atBus.PortRight ∧
    (∀ before results after, FdcState.log {} hs = before ++ .complete results :: after →
      ∃ op params data, params.length + 1 = commandBytes op ∧ (∀ e ∈ data, e.isData = true) ∧
        Port.Opens before op params data ∧ Answers op results) ∧
    (∀ before results between val after,
      FdcState.log {} hs = before ++ .complete results :: (between ++ .command val :: after) →
      (∀ e ∈ between, e.isCommand = false) → between = results.map .result) := by
  obtain ⟨q, hfollow, hsound⟩ := sound_run sound_powerOn hs
  obtain ⟨r, -, hbus⟩ := sound_mechanics hsound
  refine ⟨hsound.portRight, hbus.portRight, fun before results after hlog => ?_,
    fun before results between val after hlog hbetween => ?_⟩
  · rw [hlog] at hfollow
    exact Port.whole_command hfollow
  · rw [hlog] at hfollow
    exact Port.delivered hfollow hbetween

/-- SENSE INTERRUPT STATUS behind power-on has nothing to report. -/
example : FdcState.log {} [.tick (dataOut 0x08), .tick quiet, .tick dataIn] =
    [.command 0x08, .complete [0x80], .result 0x80] := by decide

end FdcState

end Koncepcja.Disk
