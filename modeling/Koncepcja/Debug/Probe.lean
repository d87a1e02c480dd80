import Koncepcja.Buses
import Mathlib.Data.List.Basic
import Mathlib.Data.UInt

/-!
# The Bus Probe

`src/hw/probe.cpp`: comparators for opcode fetches, memory and I/O accesses that watch the bus of every
master cycle and latch the first access that begins at a matching address.

The tables are lists in the order of the arrays. A tick of an idle probe leaves it as it is, so the
strobes it remembers are those of the last cycle it was live in.

## Main results

- `firstHit_eq`: matching is the first watched access, in table order, whose strobe rises.
- `tick_exact`: a live tick is exact about the strobes it remembers.
- `probe_exact_iff`: a run reports the accesses that begin, exactly where each cycle behind an idle one
  finds the strobes of what it matches as they were left.
-/

namespace Koncepcja.Debug

/-! ## Comparators -/

/-- The processor's lines on the committed bus. -/
abbrev BusCycle := CpuLines

/-- `PROBE_HIT_*`, without `PROBE_HIT_NONE`. -/
inductive HitKind
  | exec
  | memRead
  | memWrite
  | ioRead
  | ioWrite
  deriving DecidableEq, Repr

structure ProbeHit where
  kind : HitKind
  addr : UInt16
  data : UInt8
  cycle : UInt64
  deriving DecidableEq, Repr

structure WatchEntry where
  addr : UInt16
  len : UInt16
  onRead : Bool
  onWrite : Bool
  deriving DecidableEq, Repr

structure IoEntry where
  value : UInt16
  mask : UInt16
  onRead : Bool
  onWrite : Bool
  deriving DecidableEq, Repr

def kMaxExec : Nat := 32
def kMaxWatch : Nat := 16
def kMaxIo : Nat := 8

/-- The strobe of each kind of access. -/
structure Strobes where
  fetch : Bool := false
  mrd : Bool := false
  mwr : Bool := false
  iord : Bool := false
  iowr : Bool := false
  deriving DecidableEq, Repr

/-- `fetch`, `mrd`, `mwr`, `iord` and `iowr` of a cycle. -/
def BusCycle.strobes (bus : BusCycle) : Strobes where
  fetch := bus.m1 && bus.mreq && bus.rd
  mrd := bus.mreq && bus.rd
  mwr := bus.mreq && bus.wr
  iord := bus.iorq && bus.rd && !bus.m1
  iowr := bus.iorq && bus.wr && !bus.m1

/-- The edges of a cycle: active, and not before. -/
def Strobes.rising (cur prev : Strobes) : Strobes where
  fetch := cur.fetch && !prev.fetch
  mrd := cur.mrd && !prev.mrd
  mwr := cur.mwr && !prev.mwr
  iord := cur.iord && !prev.iord
  iowr := cur.iowr && !prev.iowr

/-- The addresses of an entry; the end is computed in 32 bits. -/
def WatchEntry.covers (w : WatchEntry) (addr : UInt16) : Bool :=
  !(addr < w.addr || w.addr.toUInt32 + w.len.toUInt32 - 1 < addr.toUInt32)

/-- The ports of an entry. -/
def IoEntry.selects (e : IoEntry) (addr : UInt16) : Bool := addr &&& e.mask == e.value &&& e.mask

/-- `probe_state`, with no hit for `PROBE_HIT_NONE`. -/
structure Probe where
  now : UInt64 := 0
  exec : List UInt16 := []
  watch : List WatchEntry := []
  io : List IoEntry := []
  prev : Strobes := {}
  hit : Option ProbeHit := none
  deriving DecidableEq, Repr

namespace Probe

/-! ## The tick -/

/-- The loop over `watch`. -/
def watchHit (edge : Strobes) (addr : UInt16) : List WatchEntry → Option HitKind
  | [] => none
  | w :: ws =>
    if !w.covers addr then watchHit edge addr ws
    else if edge.mrd && w.onRead then some .memRead
    else if edge.mwr && w.onWrite then some .memWrite
    else watchHit edge addr ws

/-- The loop over `io`. -/
def ioHit (edge : Strobes) (addr : UInt16) : List IoEntry → Option HitKind
  | [] => none
  | e :: es =>
    if !e.selects addr then ioHit edge addr es
    else if edge.iord && e.onRead then some .ioRead
    else if edge.iowr && e.onWrite then some .ioWrite
    else ioHit edge addr es

/-- The comparators in table order: fetches, memory, I/O. -/
def firstHit (p : Probe) (edge : Strobes) (addr : UInt16) : Option HitKind :=
  if edge.fetch && p.exec.contains addr then some .exec
  else
    match if edge.mrd || edge.mwr then watchHit edge addr p.watch else none with
    | some kind => some kind
    | none => if edge.iord || edge.iowr then ioHit edge addr p.io else none

/-- Nothing is installed. -/
def unarmed (p : Probe) : Bool := p.exec.isEmpty && p.watch.isEmpty && p.io.isEmpty

/-- `!probe_active`. -/
def idle (p : Probe) : Bool := p.unarmed && p.hit.isNone

/-- `probe_tick`. -/
def tick (p : Probe) (bus : BusCycle) : Probe :=
  if p.idle then p
  else
    let edge := bus.strobes.rising p.prev
    let p := { p with now := p.now + 1, prev := bus.strobes }
    if p.hit.isSome then p
    else if p.unarmed then p
    else
      match p.firstHit edge bus.addr with
      | some kind => { p with hit := some ⟨kind, bus.addr, bus.data, p.now⟩ }
      | none => p

/-! ## The host's calls -/

/-- The entry at a place gives way to the last one. -/
def swapRemove {α : Type} (l : List α) (i : Nat) : List α :=
  match l.getLast? with
  | some last => (l.set i last).dropLast
  | none => l

/-- `probe_add_exec`: the probe, or its refusal. -/
def addExec (p : Probe) (addr : UInt16) : Option Probe :=
  if p.exec.contains addr then none
  else if kMaxExec ≤ p.exec.length then none
  else some { p with exec := p.exec ++ [addr] }

/-- `probe_del_exec`. -/
def delExec (p : Probe) (addr : UInt16) : Option Probe :=
  (p.exec.findIdx? (· == addr)).map fun i => { p with exec := swapRemove p.exec i }

/-- `probe_clear_exec`. -/
def clearExec (p : Probe) : Probe := { p with exec := [] }

/-- `probe_add_watch`. -/
def addWatch (p : Probe) (addr len : UInt16) (onRead onWrite : Bool) : Option Probe :=
  let len := if len = 0 then 1 else len
  if !onRead && !onWrite then none
  else
    match p.watch.findIdx? fun w => w.addr == addr && w.len == len with
    | some i =>
      let merge := fun w : WatchEntry => { w with onRead := w.onRead || onRead, onWrite := w.onWrite || onWrite }
      some { p with watch := p.watch.modify i merge }
    | none =>
      if kMaxWatch ≤ p.watch.length then none
      else some { p with watch := p.watch ++ [⟨addr, len, onRead, onWrite⟩] }

/-- `probe_del_watch`. -/
def delWatch (p : Probe) (addr : UInt16) : Option Probe :=
  (p.watch.findIdx? (·.addr == addr)).map fun i => { p with watch := swapRemove p.watch i }

/-- `probe_clear_watch`. -/
def clearWatch (p : Probe) : Probe := { p with watch := [] }

/-- `probe_add_io`. -/
def addIo (p : Probe) (value mask : UInt16) (onRead onWrite : Bool) : Option Probe :=
  if p.io.any fun e => e.value == value && e.mask == mask then none
  else if kMaxIo ≤ p.io.length || (!onRead && !onWrite) then none
  else some { p with io := p.io ++ [⟨value, mask, onRead, onWrite⟩] }

/-- `probe_del_io`. -/
def delIo (p : Probe) (value mask : UInt16) : Option Probe :=
  (p.io.findIdx? fun e => e.value == value && e.mask == mask).map fun i => { p with io := swapRemove p.io i }

/-- `probe_clear_io`. -/
def clearIo (p : Probe) : Probe := { p with io := [] }

/-- `probe_ack`. -/
def ack (p : Probe) : Probe := { p with hit := none }

end Probe

/-! ## Runs -/

/-- A call of the host. -/
inductive ProbeCall
  | addExec (addr : UInt16)
  | delExec (addr : UInt16)
  | clearExec
  | addWatch (addr len : UInt16) (onRead onWrite : Bool)
  | delWatch (addr : UInt16)
  | clearWatch
  | addIo (value mask : UInt16) (onRead onWrite : Bool)
  | delIo (value mask : UInt16)
  | clearIo
  | ack
  deriving DecidableEq, Repr

/-- A call that is refused leaves the probe. -/
def Probe.call (p : Probe) : ProbeCall → Probe
  | .addExec addr => (p.addExec addr).getD p
  | .delExec addr => (p.delExec addr).getD p
  | .clearExec => p.clearExec
  | .addWatch addr len onRead onWrite => (p.addWatch addr len onRead onWrite).getD p
  | .delWatch addr => (p.delWatch addr).getD p
  | .clearWatch => p.clearWatch
  | .addIo value mask onRead onWrite => (p.addIo value mask onRead onWrite).getD p
  | .delIo value mask => (p.delIo value mask).getD p
  | .clearIo => p.clearIo
  | .ack => p.ack

/-- A call between two cycles, or a master cycle. -/
inductive ProbeEvent
  | call (c : ProbeCall)
  | cycle (bus : BusCycle)
  deriving DecidableEq, Repr

/-! ## What is to be reported -/

/-- The strobe of a kind of access. -/
def Strobes.of (s : Strobes) : HitKind → Bool
  | .exec => s.fetch
  | .memRead => s.mrd
  | .memWrite => s.mwr
  | .ioRead => s.iord
  | .ioWrite => s.iowr

/-- The accesses an entry is set for. -/
def directions (onRead onWrite : Bool) (read write : HitKind) : List HitKind :=
  (if onRead then [read] else []) ++ if onWrite then [write] else []

/-- The accesses that the tables watch at an address, in table order. -/
def Probe.watched (p : Probe) (addr : UInt16) : List HitKind :=
  (if p.exec.contains addr then [.exec] else []) ++
    p.watch.flatMap (fun w => if w.covers addr then directions w.onRead w.onWrite .memRead .memWrite else []) ++
    p.io.flatMap fun e => if e.selects addr then directions e.onRead e.onWrite .ioRead .ioWrite else []

/-- The access of a cycle that is to be reported: the first watched one that was not active in the cycle
    before. -/
def Probe.begun (p : Probe) (prev : Strobes) (bus : BusCycle) : Option HitKind :=
  (p.watched bus.addr).find? fun kind => bus.strobes.of kind && !prev.of kind

/-- A cycle latches the access that begins in it, unless a hit is latched already. -/
def CycleExact (p : Probe) (prev : Strobes) (bus : BusCycle) : Prop :=
  match p.hit with
  | some hit => (p.tick bus).hit = some hit
  | none => (p.tick bus).hit.map (fun hit => (hit.kind, hit.addr, hit.data)) =
      (p.begun prev bus).map fun kind => (kind, bus.addr, bus.data)

/-- Only an acknowledge changes the latch between two cycles. -/
def CallExact (p : Probe) (c : ProbeCall) : Prop :=
  (p.call c).hit = if c = .ack then none else p.hit

/-- Every event of a run is exact; `prev` is the strobes of the last master cycle. -/
def Reports : Probe → Strobes → List ProbeEvent → Prop
  | _, _, [] => True
  | p, prev, .call c :: es => CallExact p c ∧ Reports (p.call c) prev es
  | p, prev, .cycle bus :: es => CycleExact p prev bus ∧ Reports (p.tick bus) bus.strobes es

/-- Of the accesses that are active, the first that begins and those ahead of it were as they are
    remembered. -/
def Remembered (cur frozen prev : Strobes) : List HitKind → Prop
  | [] => True
  | kind :: kinds =>
    if cur.of kind then frozen.of kind = prev.of kind ∧ (prev.of kind = true → Remembered cur frozen prev kinds)
    else Remembered cur frozen prev kinds

/-- A cycle behind one that found the probe idle has the strobes of what it watches remembered. -/
def Rebaselined : Probe → Strobes → Bool → List ProbeEvent → Prop
  | _, _, _, [] => True
  | p, prev, wasIdle, .call c :: es => Rebaselined (p.call c) prev wasIdle es
  | p, prev, wasIdle, .cycle bus :: es =>
    (wasIdle = true → Remembered bus.strobes p.prev prev (p.watched bus.addr)) ∧
      Rebaselined (p.tick bus) bus.strobes p.idle es

/-! ## Matching is a search of what is watched -/

theorem rising_of (cur prev : Strobes) (kind : HitKind) :
    (cur.rising prev).of kind = (cur.of kind && !prev.of kind) := by
  cases kind <;> rfl

theorem find?_directions (edge : HitKind → Bool) (onRead onWrite : Bool) (read write : HitKind) :
    (directions onRead onWrite read write).find? edge =
      if edge read && onRead then some read else if edge write && onWrite then some write else none := by
  cases onRead <;> cases onWrite <;> cases hread : edge read <;> cases hwrite : edge write <;>
    simp [directions, hread, hwrite]

theorem watchHit_eq (edge : Strobes) (addr : UInt16) (ws : List WatchEntry) :
    Probe.watchHit edge addr ws =
      (ws.flatMap fun w => if w.covers addr then directions w.onRead w.onWrite .memRead .memWrite else []).find?
        edge.of := by
  induction ws with
  | nil => rfl
  | cons w ws ih =>
    rw [Probe.watchHit, List.flatMap_cons, List.find?_append, ← ih]
    cases w.covers addr with
    | false => rfl
    | true =>
      rw [if_pos rfl, find?_directions]
      cases hr : edge.mrd && w.onRead <;> cases hw : edge.mwr && w.onWrite <;> simp [Strobes.of, hr, hw]

theorem ioHit_eq (edge : Strobes) (addr : UInt16) (es : List IoEntry) :
    Probe.ioHit edge addr es =
      (es.flatMap fun e => if e.selects addr then directions e.onRead e.onWrite .ioRead .ioWrite else []).find?
        edge.of := by
  induction es with
  | nil => rfl
  | cons e es ih =>
    rw [Probe.ioHit, List.flatMap_cons, List.find?_append, ← ih]
    cases e.selects addr with
    | false => rfl
    | true =>
      rw [if_pos rfl, find?_directions]
      cases hr : edge.iord && e.onRead <;> cases hw : edge.iowr && e.onWrite <;> simp [Strobes.of, hr, hw]

theorem watchHit_idle {edge : Strobes} (h : (edge.mrd || edge.mwr) = false) (addr : UInt16) (ws : List WatchEntry) :
    Probe.watchHit edge addr ws = none := by
  obtain ⟨hr, hw⟩ := Bool.or_eq_false_iff.1 h
  induction ws with
  | nil => rfl
  | cons w ws ih =>
    rw [Probe.watchHit, ih, hr, hw]
    cases w.covers addr <;> rfl

theorem ioHit_idle {edge : Strobes} (h : (edge.iord || edge.iowr) = false) (addr : UInt16) (es : List IoEntry) :
    Probe.ioHit edge addr es = none := by
  obtain ⟨hr, hw⟩ := Bool.or_eq_false_iff.1 h
  induction es with
  | nil => rfl
  | cons e es ih =>
    rw [Probe.ioHit, ih, hr, hw]
    cases e.selects addr <;> rfl

/-- **Matching** finds the first watched access whose strobe rises. -/
theorem firstHit_eq (p : Probe) (edge : Strobes) (addr : UInt16) :
    p.firstHit edge addr = (p.watched addr).find? edge.of := by
  have hwatch : (if edge.mrd || edge.mwr then Probe.watchHit edge addr p.watch else none) =
      Probe.watchHit edge addr p.watch := by
    cases h : edge.mrd || edge.mwr with
    | true => rfl
    | false => exact (watchHit_idle h addr p.watch).symm
  have hio : (if edge.iord || edge.iowr then Probe.ioHit edge addr p.io else none) = Probe.ioHit edge addr p.io := by
    cases h : edge.iord || edge.iowr with
    | true => rfl
    | false => exact (ioHit_idle h addr p.io).symm
  have hexec : (if p.exec.contains addr then [HitKind.exec] else []).find? edge.of =
      if edge.fetch && p.exec.contains addr then some .exec else none := by
    cases p.exec.contains addr <;> cases hfetch : edge.fetch <;> simp [Strobes.of, hfetch]
  rw [Probe.firstHit, hwatch, hio, Probe.watched, List.find?_append, List.find?_append, ← watchHit_eq, ← ioHit_eq,
    hexec]
  cases edge.fetch && p.exec.contains addr <;> cases Probe.watchHit edge addr p.watch <;> rfl

/-! ## One event -/

theorem watched_unarmed {p : Probe} (h : p.unarmed = true) (addr : UInt16) : p.watched addr = [] := by
  simp only [Probe.unarmed, Bool.and_eq_true, List.isEmpty_iff] at h
  rw [Probe.watched, h.1.1, h.1.2, h.2]
  rfl

theorem tick_latched {p : Probe} {hit : ProbeHit} (h : p.hit = some hit) (bus : BusCycle) :
    (p.tick bus).hit = some hit := by
  have hidle : p.idle = false := by rw [Probe.idle, h, Option.isNone_some, Bool.and_false]
  rw [Probe.tick, hidle]
  dsimp only
  rw [h]
  rfl

/-- An open latch takes what begins, by the strobes that are remembered. -/
theorem tick_exact {p : Probe} (h : p.hit = none) (bus : BusCycle) :
    (p.tick bus).hit.map (fun hit => (hit.kind, hit.addr, hit.data)) =
      (p.begun p.prev bus).map fun kind => (kind, bus.addr, bus.data) := by
  cases harmed : p.unarmed with
  | true =>
    have hidle : p.idle = true := by rw [Probe.idle, harmed, h]; rfl
    rw [Probe.tick, if_pos hidle, h, Probe.begun, watched_unarmed harmed]
    rfl
  | false =>
    have hidle : p.idle = false := by rw [Probe.idle, harmed]; rfl
    have hfirst : p.firstHit (bus.strobes.rising p.prev) bus.addr = p.begun p.prev bus := by
      rw [firstHit_eq, Probe.begun]
      exact congrArg (List.find? · _) (funext (rising_of bus.strobes p.prev))
    have hunarmed : ({ p with now := p.now + 1, prev := bus.strobes } : Probe).unarmed = false := harmed
    have hsame : ({ p with now := p.now + 1, prev := bus.strobes } : Probe).firstHit (bus.strobes.rising p.prev)
        bus.addr = p.begun p.prev bus := hfirst
    rw [Probe.tick, hidle]
    dsimp only
    rw [hunarmed, hsame, h]
    cases p.begun p.prev bus with
    | none => rfl
    | some kind => rfl

theorem tick_prev (p : Probe) (bus : BusCycle) (h : p.idle = false) : (p.tick bus).prev = bus.strobes := by
  rw [Probe.tick, h]
  dsimp only
  cases p.hit.isSome with
  | true => rfl
  | false =>
    cases hunarmed : ({ p with now := p.now + 1, prev := bus.strobes } : Probe).unarmed with
    | true => rfl
    | false =>
      cases ({ p with now := p.now + 1, prev := bus.strobes } : Probe).firstHit (bus.strobes.rising p.prev) bus.addr
        <;> rfl

/-- The strobes and the latch are as they were. -/
def Probe.Kept (p q : Probe) : Prop := q.prev = p.prev ∧ q.hit = p.hit

theorem kept_getD {p : Probe} {q : Option Probe} (h : ∀ p' ∈ q, p.Kept p') : p.Kept (q.getD p) := by
  cases q with
  | none => exact ⟨rfl, rfl⟩
  | some p' => exact h p' rfl

theorem kept_addExec (p : Probe) (addr : UInt16) : ∀ p' ∈ p.addExec addr, p.Kept p' := by
  intro p' hp'
  rw [Probe.addExec] at hp'
  split at hp'
  · exact absurd hp' (Option.not_mem_none p')
  · split at hp'
    · exact absurd hp' (Option.not_mem_none p')
    · exact Option.mem_some.1 hp' ▸ ⟨rfl, rfl⟩

theorem kept_addWatch (p : Probe) (addr len : UInt16) (onRead onWrite : Bool) :
    ∀ p' ∈ p.addWatch addr len onRead onWrite, p.Kept p' := by
  intro p' hp'
  rw [Probe.addWatch] at hp'
  split at hp'
  · exact absurd hp' (Option.not_mem_none p')
  · split at hp'
    · exact Option.mem_some.1 hp' ▸ ⟨rfl, rfl⟩
    · split at hp'
      · exact absurd hp' (Option.not_mem_none p')
      · exact Option.mem_some.1 hp' ▸ ⟨rfl, rfl⟩

theorem kept_addIo (p : Probe) (value mask : UInt16) (onRead onWrite : Bool) :
    ∀ p' ∈ p.addIo value mask onRead onWrite, p.Kept p' := by
  intro p' hp'
  rw [Probe.addIo] at hp'
  split at hp'
  · exact absurd hp' (Option.not_mem_none p')
  · split at hp'
    · exact absurd hp' (Option.not_mem_none p')
    · exact Option.mem_some.1 hp' ▸ ⟨rfl, rfl⟩

theorem kept_map {α : Type} {p : Probe} (q : Option α) {f : α → Probe} (h : ∀ i, p.Kept (f i)) :
    ∀ p' ∈ q.map f, p.Kept p' := by
  intro p' hp'
  obtain ⟨i, -, rfl⟩ := Option.map_eq_some_iff.1 hp'
  exact h i

theorem call_frame (p : Probe) (c : ProbeCall) : (p.call c).prev = p.prev ∧ CallExact p c := by
  cases c with
  | addExec addr => exact kept_getD (kept_addExec p addr)
  | delExec addr => exact kept_getD (kept_map _ fun _ => ⟨rfl, rfl⟩)
  | clearExec => exact ⟨rfl, rfl⟩
  | addWatch addr len onRead onWrite => exact kept_getD (kept_addWatch p addr len onRead onWrite)
  | delWatch addr => exact kept_getD (kept_map _ fun _ => ⟨rfl, rfl⟩)
  | clearWatch => exact ⟨rfl, rfl⟩
  | addIo value mask onRead onWrite => exact kept_getD (kept_addIo p value mask onRead onWrite)
  | delIo value mask => exact kept_getD (kept_map _ fun _ => ⟨rfl, rfl⟩)
  | clearIo => exact ⟨rfl, rfl⟩
  | ack => exact ⟨rfl, rfl⟩

/-! ## Exact conditions -/

/-- The first access that rises is the same by the strobes remembered and by those of the cycle before,
    exactly where the ones that decide it are remembered. -/
theorem find?_rising_iff (cur frozen prev : Strobes) (kinds : List HitKind) :
    (kinds.find? fun kind => cur.of kind && !frozen.of kind) = (kinds.find? fun kind => cur.of kind && !prev.of kind) ↔
      Remembered cur frozen prev kinds := by
  induction kinds with
  | nil => exact iff_of_true rfl trivial
  | cons kind kinds ih =>
    have hrises : ∀ s : Strobes, (kinds.find? fun kind => cur.of kind && !s.of kind) = some kind → s.of kind = false := by
      intro s hs
      have hedge := List.find?_some hs
      simp only [Bool.and_eq_true, Bool.not_eq_true'] at hedge
      exact hedge.2
    rw [Remembered, List.find?_cons, List.find?_cons]
    cases hcur : cur.of kind with
    | false => simpa using ih
    | true =>
      cases hf : frozen.of kind <;> cases hp : prev.of kind
      · simp
      · -- remembered as over, and in progress: it would be found again behind
        simp only [Bool.not_true, Bool.not_false, Bool.and_true, Bool.and_false, if_true]
        refine iff_of_false (fun heq => ?_) (fun h => Bool.noConfusion h.1)
        exact absurd (hrises prev heq.symm) (by simp [hp])
      · simp only [Bool.not_true, Bool.not_false, Bool.and_true, Bool.and_false, if_true]
        refine iff_of_false (fun heq => ?_) (fun h => Bool.noConfusion h.1)
        exact absurd (hrises frozen heq) (by simp [hf])
      · simpa using ih

theorem map_kind_inj {a b : Option HitKind} (addr : UInt16) (data : UInt8) :
    (a.map fun kind => (kind, addr, data)) = (b.map fun kind => (kind, addr, data)) ↔ a = b := by
  cases a <;> cases b <;> simp

theorem cycleExact_iff {p : Probe} (h : p.hit = none) (prev : Strobes) (bus : BusCycle) :
    CycleExact p prev bus ↔ Remembered bus.strobes p.prev prev (p.watched bus.addr) := by
  rw [CycleExact, h]
  dsimp only
  rw [tick_exact h, map_kind_inj]
  exact find?_rising_iff bus.strobes p.prev prev (p.watched bus.addr)

theorem cycleExact_latched {p : Probe} {hit : ProbeHit} (h : p.hit = some hit) (prev : Strobes) (bus : BusCycle) :
    CycleExact p prev bus := by
  rw [CycleExact, h]
  exact tick_latched h bus

theorem remembered_self (cur prev : Strobes) (kinds : List HitKind) : Remembered cur prev prev kinds :=
  (find?_rising_iff cur prev prev kinds).1 rfl

/-- Behind a live cycle the strobes are remembered, and behind an idle one no hit is latched. -/
structure Fresh (p : Probe) (prev : Strobes) (wasIdle : Bool) : Prop where
  prev : wasIdle = false → p.prev = prev
  hit : wasIdle = true → p.hit = none

theorem fresh_call {p : Probe} {prev : Strobes} {wasIdle : Bool} (h : Fresh p prev wasIdle) (c : ProbeCall) :
    Fresh (p.call c) prev wasIdle := by
  obtain ⟨hprev, hhit⟩ := call_frame p c
  refine ⟨fun hlive => hprev.trans (h.prev hlive), fun hidle => ?_⟩
  rw [hhit, h.hit hidle, ite_self]

theorem fresh_tick (p : Probe) (bus : BusCycle) : Fresh (p.tick bus) bus.strobes p.idle := by
  refine ⟨tick_prev p bus, fun hidle => ?_⟩
  rw [Probe.tick, if_pos hidle]
  have hnone := (Bool.and_eq_true_iff.1 hidle).2
  exact Option.isNone_iff_eq_none.1 hnone

theorem reports_iff {p : Probe} {prev : Strobes} {wasIdle : Bool} (h : Fresh p prev wasIdle) (es : List ProbeEvent) :
    Reports p prev es ↔ Rebaselined p prev wasIdle es := by
  induction es generalizing p prev wasIdle with
  | nil => exact Iff.rfl
  | cons e es ih =>
    cases e with
    | call c =>
      rw [Reports, Rebaselined, ih (fresh_call h c)]
      exact and_iff_right (call_frame p c).2
    | cycle bus =>
      rw [Reports, Rebaselined, ih (fresh_tick p bus)]
      refine and_congr_left' ?_
      cases wasIdle with
      | false =>
        -- the strobes are those of the cycle before
        refine iff_of_true ?_ (fun hidle => Bool.noConfusion hidle)
        cases hhit : p.hit with
        | some hit => exact cycleExact_latched hhit prev bus
        | none =>
          rw [cycleExact_iff hhit, h.prev rfl]
          exact remembered_self _ _ _
      | true =>
        have hexact := cycleExact_iff (h.hit rfl) prev bus
        exact ⟨fun hcycle _ => hexact.1 hcycle, fun hok => hexact.2 (hok rfl)⟩

/-- **The probe** reports exactly the matching accesses in every run of cycles and calls whose cycles
    behind idle ones have their strobes remembered, and in no other. -/
theorem probe_exact_iff (es : List ProbeEvent) : Reports {} {} es ↔ Rebaselined {} {} false es :=
  reports_iff ⟨fun _ => rfl, fun h => Bool.noConfusion h⟩ es

/-- A fetch in progress when its breakpoint is set is reported. -/
theorem probe_hits_in_progress : ¬∀ es, Reports {} {} es := by
  intro hall
  let fetch : BusCycle := { addr := 0x100, m1 := true, mreq := true, rd := true }
  have hrun := hall [.cycle fetch, .call (.addExec 0x100), .cycle fetch]
  have hkept := (cycleExact_iff rfl _ fetch).1 hrun.2.2.1
  exact absurd hkept.1 (by decide)

end Koncepcja.Debug
