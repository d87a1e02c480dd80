import Koncepcja.Asic.Chip

/-!
# A Burst of the DMA Sound Engine

Once a scanline `dma_service` counts the pauses down and, if a channel is ready, takes the bus from the CPU, fetches
one instruction for each channel that is ready by then, and gives the bus back. The cycles of a burst come down to one
step on the channels.

## Main definitions

- `line`: what a scanline does to the channels, with a memory to fetch from.
- `Answers`: the bytes that the engine takes off the bus are the memory's.
- `Delayed`: a memory that answers two cycles behind, as the board's does.

## Main results

- `answers_of_delayed`: the wait states of the engine are what the board's memory needs.
- `leads_channel`: the cycles that serve one channel.
- `dmaService_line`: however long the CPU keeps the bus, the cycles of a burst are that step, the bus is requested to
  the end, and the AY sees the loads of the channels in order.
-/

namespace Koncepcja.Asic

set_option maxRecDepth 20000

/-- The instruction at an address. -/
def instrAt (mem : UInt16 → UInt8) (addr : UInt16) : UInt16 := (mem addr).toUInt16 ||| (mem (addr + 1)).toUInt16 <<< 8

/-- The engine has the bus: it asks for it, and it drives it. -/
def DmaDrive.Holds (d : DmaDrive) : Prop := d.busrq = true ∧ d.master = true

namespace Chip

variable (mem : UInt16 → UInt8)

/-! ## A scanline as one step -/

/-- The channel `c` fetches and executes one instruction. -/
def fetch (a : Chip) (c : Nat) : Chip :=
  (({ a with dmaCur := c } : Chip).stepSource.dmaExec c (instrAt mem (a.dma c).source)).2.dmaWriteback c

/-- It does so if it is ready. -/
def serve (a : Chip) (c : Nat) : Chip := if (a.dma c).ready then a.fetch mem c else a

/-- What a scanline does. Whether there is a burst is decided before the pauses count down. -/
def line (a : Chip) : Chip :=
  if a.needBus then [0, 1, 2].foldl (serve mem) a.countPauses else a.countPauses

/-- The AY cycles of a LOAD. -/
def loadAy (instr : UInt16) : List AyDrive :=
  if isLoad instr then
    [{ bdir := true, bc1 := true, da := ((instr &&& 0x0F00) >>> 8).toUInt8 },
      { bdir := true, bc1 := false, da := (instr &&& 0x00FF).toUInt8 }]
  else []

/-- The AY cycles of a channel. -/
def ayOf (a : Chip) (c : Nat) : List AyDrive :=
  if (a.dma c).ready then loadAy (instrAt mem (a.dma c).source) else []

/-- The AY cycles of a burst that serves these channels. -/
def aySeen (a : Chip) : List Nat → List AyDrive
  | [] => []
  | c :: cs => a.ayOf mem c ++ aySeen (a.serve mem c) cs

/-! ## The cycles of a burst -/

/-- Cycle after cycle, with the drives of each. -/
def services (a : Chip) : List Bus → List DmaDrive × Chip
  | [] => ([], a)
  | bus :: buses =>
    ((a.dmaService bus).1 :: (services (a.dmaService bus).2 buses).1, (services (a.dmaService bus).2 buses).2)

/-- The address whose byte the engine takes off the bus in this cycle. -/
def takes (a : Chip) : Option UInt16 :=
  match a.dmaPhase with
  | .fetch1 => some (a.dma a.dmaCur).source
  | .exec => some ((a.dma a.dmaCur).source + 1)
  | _ => none

/-- What the engine takes off the bus is the memory's. -/
def Answers (a : Chip) : List Bus → Prop
  | [] => True
  | bus :: buses => (∀ addr ∈ a.takes, bus.data = mem addr) ∧ Answers (a.dmaService bus).2 buses

/-- The memory of the board: what a cycle reads is on the bus two cycles behind. The last two reads are on their way. -/
def Delayed (due last : Option UInt16) (a : Chip) : List Bus → Prop
  | [] => True
  | bus :: buses =>
    (∀ addr ∈ due, bus.data = mem addr) ∧ Delayed last (a.dmaService bus).1.read (a.dmaService bus).2 buses

instance decidableDelayed (due last : Option UInt16) (a : Chip) : (buses : List Bus) → Decidable (Delayed mem due last a buses)
  | [] => .isTrue trivial
  | bus :: buses =>
    @instDecidableAnd _ _ (@Option.decidableForallMem _ _ (fun addr => inferInstanceAs (Decidable (bus.data = mem addr))) due)
      (decidableDelayed last (a.dmaService bus).1.read (a.dmaService bus).2 buses)

/-- In the middle of a burst: `base`, but for the registers that the engine works with. -/
def busy (base : Chip) (s : Sync) (phase : DmaPhase) (cur : Nat) (lo : UInt8) : Chip :=
  { base with sync := s, dmaPhase := phase, dmaCur := cur, dmaLo := lo }

def At (base : Chip) (phase : DmaPhase) (cur : Nat) (a : Chip) : Prop := ∃ s lo, a = base.busy s phase cur lo

/-- After `n` cycles the chip has the property; the engine had the bus in all of them, and these are their AY cycles. -/
def Leads (n : Nat) (a : Chip) (ay : List AyDrive) (P : Chip → Prop) : Prop :=
  ∀ buses, Answers mem a buses → buses.length = n →
    P (a.services buses).2 ∧ (∀ d ∈ (a.services buses).1, d.Holds) ∧ (a.services buses).1.filterMap DmaDrive.ay = ay

variable {mem}

theorem services_append (a : Chip) (xs ys : List Bus) :
    a.services (xs ++ ys) = ((a.services xs).1 ++ ((a.services xs).2.services ys).1, ((a.services xs).2.services ys).2) := by
  induction xs generalizing a with
  | nil => rfl
  | cons bus xs ih => rw [List.cons_append, services, ih, services]; rfl

theorem Answers.append {a : Chip} {xs ys : List Bus} (h : Answers mem a (xs ++ ys)) :
    Answers mem a xs ∧ Answers mem (a.services xs).2 ys := by
  induction xs generalizing a with
  | nil => exact ⟨trivial, h⟩
  | cons bus xs ih =>
    obtain ⟨hfirst, hrest⟩ := h
    obtain ⟨hxs, hys⟩ := ih hrest
    exact ⟨⟨hfirst, hxs⟩, hys⟩

theorem leads_zero {a : Chip} {P : Chip → Prop} (h : P a) : Leads mem 0 a [] P := by
  intro buses _ hlen
  obtain rfl := List.length_eq_zero_iff.mp hlen
  exact ⟨h, by simp [services], rfl⟩

theorem Leads.trans {m n : Nat} {a : Chip} {ay ay' : List AyDrive} {P Q : Chip → Prop} (h : Leads mem m a ay P)
    (hnext : ∀ b, P b → Leads mem n b ay' Q) : Leads mem (m + n) a (ay ++ ay') Q := by
  intro buses hanswers hlen
  have hsplit : buses.take m ++ buses.drop m = buses := List.take_append_drop m buses
  rw [← hsplit] at hanswers ⊢
  obtain ⟨hfirst, hrest⟩ := hanswers.append
  obtain ⟨hP, hreq, hay⟩ := h _ hfirst (by rw [List.length_take]; omega)
  obtain ⟨hQ, hreq', hay'⟩ := hnext _ hP _ hrest (by rw [List.length_drop]; omega)
  rw [services_append]
  refine ⟨hQ, ?_, ?_⟩
  · intro d hd
    exact (List.mem_append.mp hd).elim (hreq d) (hreq' d)
  · rw [List.filterMap_append, hay, hay']

/-! ## One cycle -/

theorem leads_one {a : Chip} {ay : Option AyDrive} {P : Chip → Prop} (hreq : ∀ bus, (a.dmaService bus).1.Holds)
    (hay : ∀ bus, (a.dmaService bus).1.ay = ay) (hP : ∀ bus, P (a.dmaService bus).2) : Leads mem 1 a ay.toList P := by
  intro buses _ hlen
  obtain ⟨bus, rfl⟩ := List.length_eq_one_iff.mp hlen
  refine ⟨hP bus, ?_, ?_⟩
  · intro d hd
    obtain rfl := List.mem_singleton.mp hd
    exact hreq bus
  · simp only [services, List.filterMap_cons, hay bus, List.filterMap_nil]
    cases ay <;> rfl

section Phases

variable (base : Chip) (s : Sync) (cur : Nat) (lo : UInt8) (bus : Bus)

theorem service_fetch0 : (base.busy s .fetch0 cur lo).dmaService bus =
    ({ master := true, busrq := true, read := some (base.dma cur).source }, base.busy (s.see bus).2 .fetch0W cur lo) := rfl

theorem service_fetch0W : (base.busy s .fetch0W cur lo).dmaService bus =
    ({ master := true, busrq := true, read := some (base.dma cur).source }, base.busy (s.see bus).2 .fetch1 cur lo) := rfl

theorem service_fetch1 : (base.busy s .fetch1 cur lo).dmaService bus =
    ({ master := true, busrq := true, read := some ((base.dma cur).source + 1) },
      base.busy (s.see bus).2 .fetch1W cur bus.data) := rfl

theorem service_fetch1W : (base.busy s .fetch1W cur lo).dmaService bus =
    ({ master := true, busrq := true, read := some ((base.dma cur).source + 1) }, base.busy (s.see bus).2 .exec cur lo) := rfl

theorem service_psgSel : (base.busy s .psgSel cur lo).dmaService bus =
    ({ master := true, busrq := true, ay := some { bdir := true, bc1 := true, da := base.dmaPsgR } },
      base.busy (s.see bus).2 .psgWr cur lo) := rfl

theorem service_psgWr : (base.busy s .psgWr cur lo).dmaService bus =
    ({ master := true, busrq := true, ay := some { bdir := true, bc1 := false, da := base.dmaPsgV } },
      base.busy (s.see bus).2 .advance cur lo) := rfl

/-- The phase behind the channels up to `cur`. -/
def nextPhase (base : Chip) (cur : Nat) : DmaPhase := if seek base.dma (3 - cur) cur < 3 then .fetch0 else .idle

theorem dmaNext_busy (phase : DmaPhase) :
    (base.busy s phase cur lo).dmaNext = base.busy s (base.nextPhase cur) (seek base.dma (3 - cur) cur) lo := by
  simp only [dmaNext, dmaSeek, nextPhase, decide_eq_true_eq]
  rfl

theorem service_advance : (base.busy s .advance cur lo).dmaService bus =
    ({ master := true, busrq := true },
      base.busy (s.see bus).2 (base.nextPhase (cur + 1)) (seek base.dma (3 - (cur + 1)) (cur + 1)) lo) := by
  rw [← dmaNext_busy]
  rfl

theorem fetch_busy {mem : UInt16 → UInt8} (phase phase' : DmaPhase) (h : bus.data = mem ((base.dma cur).source + 1))
    (hlo : lo = mem (base.dma cur).source) :
    { (((base.busy s phase cur lo).stepSource.dmaExec cur ((base.busy s phase cur lo).instruction bus)).2.dmaWriteback cur) with
      dmaPhase := phase' } = (base.fetch mem cur).busy s phase' cur lo := by
  have hinstr : (base.busy s phase cur lo).instruction bus = instrAt mem (base.dma cur).source := by
    rw [instruction, instrAt, h, ← hlo]
    rfl
  rw [hinstr, fetch, dmaExec, dmaExec]
  split <;> rfl

theorem dmaExec_fst (a : Chip) (c : Nat) (instr : UInt16) : (a.dmaExec c instr).1 = isLoad instr := by
  rw [dmaExec]
  split
  case isTrue h => exact h.symm
  case isFalse h => exact (Bool.eq_false_iff.mpr h).symm

theorem service_exec {mem : UInt16 → UInt8} (h : bus.data = mem ((base.dma cur).source + 1))
    (hlo : lo = mem (base.dma cur).source) : (base.busy s .exec cur lo).dmaService bus =
    ({ master := true, busrq := true },
      (base.fetch mem cur).busy (s.see bus).2
        (if isLoad (instrAt mem (base.dma cur).source) then .psgSel else .advance) cur lo) := by
  have hinstr : (base.busy (s.see bus).2 .exec cur lo).instruction bus = instrAt mem (base.dma cur).source := by
    rw [instruction, instrAt, h, ← hlo]
    rfl
  have hburst : (base.busy s .exec cur lo).dmaService bus = (base.busy (s.see bus).2 .exec cur lo).dmaBurst bus := rfl
  rw [hburst, dmaBurst_exec rfl, dmaExec_fst, hinstr, ← fetch_busy base (s.see bus).2 cur lo bus .exec _ h hlo, hinstr]
  rfl

end Phases

/-! ## One channel -/

theorem leads_fetch (base : Chip) (s : Sync) (cur : Nat) (lo : UInt8) :
    Leads mem 5 (base.busy s .fetch0 cur lo) []
      (At (base.fetch mem cur) (if isLoad (instrAt mem (base.dma cur).source) then .psgSel else .advance) cur) := by
  intro buses hanswers hlen
  rcases buses with _ | ⟨b0, _ | ⟨b1, _ | ⟨b2, _ | ⟨b3, _ | ⟨b4, _ | ⟨b5, buses⟩⟩⟩⟩⟩⟩ <;> simp at hlen
  simp only [Answers, service_fetch0, service_fetch0W, service_fetch1, service_fetch1W] at hanswers
  obtain ⟨-, -, hlo, -, hhi, -⟩ := hanswers
  replace hlo : b2.data = mem (base.dma cur).source := hlo _ rfl
  replace hhi : b4.data = mem ((base.dma cur).source + 1) := hhi _ rfl
  simp only [services, service_fetch0, service_fetch0W, service_fetch1, service_fetch1W, service_exec base _ cur _ b4 hhi hlo]
  refine ⟨⟨_, _, rfl⟩, ?_, rfl⟩
  intro d hd
  simp only [List.mem_cons, List.not_mem_nil, or_false] at hd
  rcases hd with rfl | rfl | rfl | rfl | rfl <;> exact ⟨rfl, rfl⟩

theorem fetch_psg {base : Chip} {cur : Nat} (h : isLoad (instrAt mem (base.dma cur).source) = true) :
    (base.fetch mem cur).dmaPsgR = ((instrAt mem (base.dma cur).source &&& 0x0F00) >>> 8).toUInt8 ∧
      (base.fetch mem cur).dmaPsgV = (instrAt mem (base.dma cur).source &&& 0x00FF).toUInt8 := by
  rw [fetch, dmaExec, if_pos h]
  exact ⟨rfl, rfl⟩

theorem leads_psgSel {base : Chip} {cur : Nat} {b : Chip} (h : At base .psgSel cur b) :
    Leads mem 1 b [{ bdir := true, bc1 := true, da := base.dmaPsgR }] (At base .psgWr cur) := by
  obtain ⟨s, lo, rfl⟩ := h
  exact @leads_one _ _ (some _) _ (fun _ => ⟨rfl, rfl⟩) (fun _ => rfl)
    (fun bus => ⟨_, lo, congrArg Prod.snd (service_psgSel base s cur lo bus)⟩)

theorem leads_psgWr {base : Chip} {cur : Nat} {b : Chip} (h : At base .psgWr cur b) :
    Leads mem 1 b [{ bdir := true, bc1 := false, da := base.dmaPsgV }] (At base .advance cur) := by
  obtain ⟨s, lo, rfl⟩ := h
  exact @leads_one _ _ (some _) _ (fun _ => ⟨rfl, rfl⟩) (fun _ => rfl)
    (fun bus => ⟨_, lo, congrArg Prod.snd (service_psgWr base s cur lo bus)⟩)

theorem leads_advance {base : Chip} {cur : Nat} {b : Chip} (h : At base .advance cur b) :
    Leads mem 1 b [] (At base (base.nextPhase (cur + 1)) (seek base.dma (3 - (cur + 1)) (cur + 1))) := by
  obtain ⟨s, lo, rfl⟩ := h
  exact @leads_one _ _ none _ (fun _ => ⟨rfl, rfl⟩) (fun _ => rfl)
    (fun bus => ⟨_, lo, congrArg Prod.snd (service_advance base s cur lo bus)⟩)

theorem leads_psg {base : Chip} {cur : Nat} {b : Chip}
    (h : At (base.fetch mem cur) (if isLoad (instrAt mem (base.dma cur).source) then .psgSel else .advance) cur b) :
    Leads mem (loadAy (instrAt mem (base.dma cur).source)).length b (loadAy (instrAt mem (base.dma cur).source))
      (At (base.fetch mem cur) .advance cur) := by
  by_cases hload : isLoad (instrAt mem (base.dma cur).source) = true
  · obtain ⟨hreg, hval⟩ := fetch_psg hload
    rw [if_pos hload] at h
    rw [loadAy, if_pos hload, ← hreg, ← hval]
    exact (leads_psgSel h).trans fun b hb => leads_psgWr hb
  · rw [if_neg hload] at h
    rw [loadAy, if_neg hload]
    exact leads_zero h

/-- The cycles that serve one channel, up to the next. -/
theorem leads_channel (base : Chip) (s : Sync) (cur : Nat) (lo : UInt8) :
    Leads mem (6 + (loadAy (instrAt mem (base.dma cur).source)).length) (base.busy s .fetch0 cur lo)
      (loadAy (instrAt mem (base.dma cur).source))
      (At (base.fetch mem cur) ((base.fetch mem cur).nextPhase (cur + 1))
        (seek (base.fetch mem cur).dma (3 - (cur + 1)) (cur + 1))) := by
  have hexec := (@leads_fetch mem base s cur lo).trans fun b hb => leads_psg hb
  have hall := hexec.trans fun b hb => leads_advance hb
  rw [List.nil_append, List.append_nil] at hall
  rw [show 6 + (loadAy (instrAt mem (base.dma cur).source)).length =
    5 + (loadAy (instrAt mem (base.dma cur).source)).length + 1 by omega]
  exact hall

/-! ## All channels -/

variable (mem) in
/-- The cycles of a burst that serves these channels: six for each that is ready, and the AY's. -/
def spent (a : Chip) : List Nat → Nat
  | [] => 0
  | c :: cs => (if (a.dma c).ready then 6 + (a.ayOf mem c).length else 0) + spent (a.serve mem c) cs

theorem leads_rest (base : Chip) (s : Sync) (lo : UInt8) {left cur : Nat} (h : cur + left = 3) :
    Leads mem (base.spent mem (List.range' cur left)) (base.busy s (base.nextPhase cur) (seek base.dma left cur) lo)
      (base.aySeen mem (List.range' cur left)) (At ((List.range' cur left).foldl (serve mem) base) .idle 3) := by
  induction left generalizing base s lo cur with
  | zero =>
    obtain rfl : cur = 3 := h
    exact leads_zero ⟨s, lo, rfl⟩
  | succ left ih =>
    have hleft : 3 - cur = left + 1 := by omega
    have hleft' : 3 - (cur + 1) = left := by omega
    rw [List.range'_succ, spent, aySeen, List.foldl_cons, seek, nextPhase, hleft, seek]
    by_cases hready : (base.dma cur).ready = true
    · -- The channel is served, and the engine goes on from the chip as it then is.
      have hchannel := @leads_channel mem base s cur lo
      rw [ayOf, if_pos hready, if_pos hready, if_pos hready, if_pos (by omega), serve, if_pos hready]
      refine hchannel.trans ?_
      rintro b ⟨s', lo', rfl⟩
      rw [hleft']
      exact ih _ s' lo' (by omega)
    · have hnext := @ih base s lo (cur + 1) (by omega)
      rw [nextPhase, hleft'] at hnext
      rw [ayOf, if_neg hready, if_neg hready, if_neg hready, Nat.zero_add, serve, if_neg hready]
      exact hnext

/-! ## A scanline -/

/-- The beam is where the engine begins, and it has not begun on this scanline. -/
def triggered (a : Chip) (bus : Bus) : Bool := (a.sync.see bus).1 && !(a.sync.see bus).2.fired

theorem service_idle {a : Chip} (hidle : a.dmaPhase = .idle) {bus : Bus} (h : a.triggered bus = false) :
    a.dmaService bus = ({}, { a with sync := (a.sync.see bus).2 }) := by
  have hoff : (!(a.sync.see bus).1 || (a.sync.see bus).2.fired) = true := by
    rw [triggered] at h
    cases hsee : (a.sync.see bus).1 <;> simp_all
  simp only [dmaService, hidle, if_true, hoff]

theorem service_triggered {a : Chip} (hidle : a.dmaPhase = .idle) {bus : Bus} (h : a.triggered bus = true) :
    a.dmaService bus =
      if a.needBus then (a.countPauses.busy { (a.sync.see bus).2 with fired := true } .waitBusak 0 a.dmaLo).dmaBurst bus
      else ({}, { a.countPauses with sync := { (a.sync.see bus).2 with fired := true } }) := by
  have hon : (!(a.sync.see bus).1 || (a.sync.see bus).2.fired) = false := by
    rw [triggered, Bool.and_eq_true, Bool.not_eq_true'] at h
    rw [h.1, h.2]
    rfl
  have hwhen : a.dmaService bus = if a.dmaPhase = .idle then
      if (!(a.sync.see bus).1 || (a.sync.see bus).2.fired) = true then ({}, { a with sync := (a.sync.see bus).2 })
      else if a.needBus then (a.countPauses.busy { (a.sync.see bus).2 with fired := true } .waitBusak 0 a.dmaLo).dmaBurst bus
      else ({}, { a.countPauses with sync := { (a.sync.see bus).2 with fired := true } })
    else ({ a with sync := (a.sync.see bus).2 } : Chip).dmaBurst bus := rfl
  rw [hwhen, if_pos hidle, if_neg (by rw [hon]; exact Bool.false_ne_true)]

theorem ready_countPauses {a : Chip} {c : Nat} (h : (a.dma c).ready = true) : (a.countPauses.dma c).ready = true := by
  have hticks := h
  rw [Channel.ready, Bool.and_eq_true, beq_iff_eq] at hticks
  have hstay : (a.dma c).countdown = a.dma c := by
    rw [Channel.countdown, if_neg (by simp [hticks.2])]
  simp only [countPauses, hstay, ite_self]
  exact h

theorem nextPhase_countPauses {a : Chip} (h : a.needBus = true) : a.countPauses.nextPhase 0 = .fetch0 := by
  have hsome : (a.countPauses.dma 0).ready = true ∨ (a.countPauses.dma 1).ready = true ∨ (a.countPauses.dma 2).ready = true := by
    rw [needBus, Bool.or_eq_true, Bool.or_eq_true] at h
    rcases h with (h | h) | h
    · exact Or.inl (ready_countPauses h)
    · exact Or.inr (Or.inl (ready_countPauses h))
    · exact Or.inr (Or.inr (ready_countPauses h))
  rw [nextPhase, if_pos]
  simp only [Nat.sub_zero, seek]
  split_ifs <;> simp_all

theorem burst_wait (base : Chip) (s : Sync) (lo : UInt8) {bus : Bus} (h : bus.busak = false) :
    (base.busy s .waitBusak 0 lo).dmaBurst bus = ({ busrq := true }, base.busy s .waitBusak 0 lo) := by
  rw [dmaBurst]
  simp only [busy, h, Bool.not_false, if_true]

theorem burst_grant {base : Chip} (s : Sync) (lo : UInt8) {bus : Bus} (h : bus.busak = true) (hnext : base.nextPhase 0 = .fetch0) :
    (base.busy s .waitBusak 0 lo).dmaBurst bus =
      ({ master := true, busrq := true }, base.busy s (base.nextPhase 0) (seek base.dma 3 0) lo) := by
  have hburst : (base.busy s .waitBusak 0 lo).dmaBurst bus =
      ({ master := (base.busy s .waitBusak 0 lo).dmaNext.dmaPhase != .idle, busrq := true },
        (base.busy s .waitBusak 0 lo).dmaNext) := by
    rw [dmaBurst]
    simp only [busy, h, Bool.not_true, Bool.false_eq_true, if_false]
  rw [hburst, dmaNext_busy]
  simp only [busy, hnext]
  rfl

theorem services_wait (base : Chip) (s : Sync) (lo : UInt8) {waits : List Bus} (h : ∀ b ∈ waits, b.busak = false) :
    ∃ s', (base.busy s .waitBusak 0 lo).services waits =
      (List.replicate waits.length { busrq := true }, base.busy s' .waitBusak 0 lo) := by
  induction waits generalizing s with
  | nil => exact ⟨s, rfl⟩
  | cons w waits ih =>
    have hcycle : (base.busy s .waitBusak 0 lo).dmaService w = (base.busy (s.see w).2 .waitBusak 0 lo).dmaBurst w := rfl
    obtain ⟨s', hrest⟩ := ih (s.see w).2 fun b hb => h b (List.mem_cons_of_mem w hb)
    refine ⟨s', ?_⟩
    rw [services, hcycle, burst_wait base _ lo (h w List.mem_cons_self), hrest]
    rfl

variable (mem) in
/-- What the engine does from the trigger on: it waits for the bus, and holds it until every channel is served. -/
structure Burst (a : Chip) (waits : List Bus) (drives : List DmaDrive) (b : Chip) : Prop where
  drives : ∃ held, drives = List.replicate waits.length { busrq := true } ++ held ∧ (∀ d ∈ held, d.Holds) ∧
    held.filterMap DmaDrive.ay = a.countPauses.aySeen mem [0, 1, 2]
  settles : At (a.line mem) .idle 3 b

variable {a : Chip} {grant : Bus} {waits rest : List Bus}

theorem burst_granted (hneed : a.needBus = true) (s : Sync) (lo : UInt8) (hgrant : grant.busak = true)
    (hlen : rest.length = a.countPauses.spent mem [0, 1, 2])
    (hanswers : Answers mem ((a.countPauses.busy s .waitBusak 0 lo).dmaBurst grant).2 rest) :
    Burst mem a []
      (((a.countPauses.busy s .waitBusak 0 lo).dmaBurst grant).1 ::
        (((a.countPauses.busy s .waitBusak 0 lo).dmaBurst grant).2.services rest).1)
      (((a.countPauses.busy s .waitBusak 0 lo).dmaBurst grant).2.services rest).2 := by
  rw [burst_grant s lo hgrant (nextPhase_countPauses hneed)] at hanswers ⊢
  obtain ⟨hsettles, hholds, hay⟩ := @leads_rest mem a.countPauses s lo 3 0 rfl rest hanswers hlen
  refine ⟨⟨_, rfl, ?_, hay⟩, ?_⟩
  · intro d hd
    rcases List.mem_cons.mp hd with rfl | hd
    · exact ⟨rfl, rfl⟩
    · exact hholds d hd
  · rw [line, if_pos hneed]
    exact hsettles

theorem burst_of_need (hidle : a.dmaPhase = .idle) (hneed : a.needBus = true)
    (htrigger : ∀ bus ∈ (waits ++ [grant]).head?, a.triggered bus = true) (hwaits : ∀ b ∈ waits, b.busak = false)
    (hgrant : grant.busak = true) (hlen : rest.length = a.countPauses.spent mem [0, 1, 2])
    (hanswers : Answers mem a (waits ++ grant :: rest)) :
    Burst mem a waits (a.services (waits ++ grant :: rest)).1 (a.services (waits ++ grant :: rest)).2 := by
  -- With the grant in the trigger tick there is nothing to wait for.
  cases waits with
  | nil =>
    have hservice := service_triggered hidle (htrigger grant rfl)
    rw [if_pos hneed] at hservice
    obtain ⟨-, hrest⟩ := hanswers
    rw [hservice] at hrest
    rw [List.nil_append, services, hservice]
    exact burst_granted hneed _ _ hgrant hlen hrest
  | cons w waits =>
    have hservice := service_triggered hidle (htrigger w rfl)
    rw [if_pos hneed, burst_wait _ _ _ (hwaits w List.mem_cons_self)] at hservice
    obtain ⟨-, hrest⟩ := hanswers
    rw [hservice] at hrest
    -- Each wait leaves the engine asking; only the synchroniser moves.
    obtain ⟨s, hwait⟩ := services_wait a.countPauses { (a.sync.see w).2 with fired := true } a.dmaLo
      fun b hb => hwaits b (List.mem_cons_of_mem w hb)
    obtain ⟨-, -, hburst⟩ := Answers.append hrest
    rw [hwait] at hburst
    have hcycle : (a.countPauses.busy s .waitBusak 0 a.dmaLo).dmaService grant =
      (a.countPauses.busy (s.see grant).2 .waitBusak 0 a.dmaLo).dmaBurst grant := rfl
    rw [hcycle] at hburst
    obtain ⟨⟨held, hdrives, hheld⟩, hsettles⟩ := burst_granted hneed _ _ hgrant hlen hburst
    rw [List.cons_append, services, hservice, services_append, hwait, services, hcycle]
    refine ⟨⟨held, ?_, hheld⟩, hsettles⟩
    rw [hdrives]
    rfl

/-- A cycle of the idle engine. Without the trigger nothing happens; without a channel that is ready the pauses count down;
else there is a burst, in which the channels that are ready do what `line` says. -/
theorem dmaService_line (hidle : a.dmaPhase = .idle) (bus : Bus) :
    (a.triggered bus = false → a.dmaService bus = ({}, { a with sync := (a.sync.see bus).2 })) ∧
    (a.triggered bus = true → a.needBus = false →
      a.dmaService bus = ({}, { a.line mem with sync := { (a.sync.see bus).2 with fired := true } })) ∧
    (a.triggered bus = true → a.needBus = true → ∀ waits grant rest, (waits ++ [grant]).head? = some bus →
      (∀ b ∈ waits, b.busak = false) → grant.busak = true → rest.length = a.countPauses.spent mem [0, 1, 2] →
      Answers mem a (waits ++ grant :: rest) →
      Burst mem a waits (a.services (waits ++ grant :: rest)).1 (a.services (waits ++ grant :: rest)).2) := by
  refine ⟨service_idle hidle, ?_, ?_⟩
  · intro htrigger hneed
    have hservice := service_triggered hidle htrigger
    rw [hneed, if_neg Bool.false_ne_true] at hservice
    rw [line, hneed, if_neg Bool.false_ne_true]
    exact hservice
  · intro htrigger hneed waits grant rest hbus hwaits hgrant hlen hanswers
    refine burst_of_need hidle hneed ?_ hwaits hgrant hlen hanswers
    intro b hb
    rw [hbus] at hb
    obtain rfl := Option.some.inj hb
    exact htrigger

/-! ## The board's memory -/

/-- The reads on their way to a phase that waits for them or takes them. -/
structure Awaits (due last : Option UInt16) (a : Chip) : Prop where
  fetch0W : a.dmaPhase = .fetch0W → last = some (a.dma a.dmaCur).source
  fetch1 : a.dmaPhase = .fetch1 → due = some (a.dma a.dmaCur).source
  fetch1W : a.dmaPhase = .fetch1W → last = some ((a.dma a.dmaCur).source + 1)
  exec : a.dmaPhase = .exec → due = some ((a.dma a.dmaCur).source + 1)

theorem awaits_of_phase {due last : Option UInt16} {a : Chip} {p : DmaPhase} (hphase : a.dmaPhase = p)
    (h : p ∉ [DmaPhase.fetch0W, .fetch1, .fetch1W, .exec]) : Awaits due last a := by
  constructor <;> intro hp <;> exact absurd (by rw [← hphase, hp]; decide) h

theorem awaits_dmaNext {due last : Option UInt16} (a : Chip) : Awaits due last a.dmaNext := by
  cases hready : a.dmaSeek.1 with
  | true => exact awaits_of_phase (p := .fetch0) (by rw [dmaNext, hready]; rfl) (by decide)
  | false => exact awaits_of_phase (p := .idle) (by rw [dmaNext, hready]; rfl) (by decide)

theorem Awaits.burst {due last : Option UInt16} {a : Chip} (h : Awaits due last a) (bus : Bus) :
    Awaits last (a.dmaBurst bus).1.read (a.dmaBurst bus).2 := by
  -- Only the two fetches send a read, and only the phase behind each waits for it.
  cases hphase : a.dmaPhase with
  | idle =>
    rw [dmaBurst, hphase]
    exact awaits_of_phase hphase (by decide)
  | waitBusak =>
    rw [dmaBurst, hphase]
    dsimp only
    split
    · exact awaits_of_phase hphase (by decide)
    · exact a.awaits_dmaNext
  | fetch0 =>
    rw [dmaBurst, hphase]
    exact ⟨fun _ => rfl, DmaPhase.noConfusion, DmaPhase.noConfusion, DmaPhase.noConfusion⟩
  | fetch0W =>
    rw [dmaBurst, hphase]
    exact ⟨DmaPhase.noConfusion, fun _ => h.fetch0W hphase, DmaPhase.noConfusion, DmaPhase.noConfusion⟩
  | fetch1 =>
    rw [dmaBurst, hphase]
    exact ⟨DmaPhase.noConfusion, DmaPhase.noConfusion, fun _ => rfl, DmaPhase.noConfusion⟩
  | fetch1W =>
    rw [dmaBurst, hphase]
    exact ⟨DmaPhase.noConfusion, DmaPhase.noConfusion, DmaPhase.noConfusion, fun _ => h.fetch1W hphase⟩
  | exec =>
    rw [dmaBurst_exec hphase]
    cases hload : (a.stepSource.dmaExec a.dmaCur (a.instruction bus)).1 with
    | true => exact awaits_of_phase (p := .psgSel) rfl (by decide)
    | false => exact awaits_of_phase (p := .advance) rfl (by decide)
  | psgSel =>
    rw [dmaBurst, hphase]
    exact awaits_of_phase (p := .psgWr) rfl (by decide)
  | psgWr =>
    rw [dmaBurst, hphase]
    exact awaits_of_phase (p := .advance) rfl (by decide)
  | advance =>
    rw [dmaBurst, hphase]
    exact awaits_dmaNext _

theorem Awaits.service {due last : Option UInt16} {a : Chip} (h : Awaits due last a) (bus : Bus) :
    Awaits last (a.dmaService bus).1.read (a.dmaService bus).2 := by
  have hsync : ∀ s : Sync, Awaits due last { a with sync := s } := fun _ => ⟨h.fetch0W, h.fetch1, h.fetch1W, h.exec⟩
  by_cases hidle : a.dmaPhase = .idle
  · cases htrigger : a.triggered bus with
    | false =>
      rw [service_idle hidle htrigger]
      exact awaits_of_phase hidle (by decide)
    | true =>
      rw [service_triggered hidle htrigger]
      split
      · exact Awaits.burst (awaits_of_phase (p := .waitBusak) rfl (by decide) : Awaits due last _) bus
      · exact awaits_of_phase hidle (by decide)
  · have hburst : a.dmaService bus = ({ a with sync := (a.sync.see bus).2 } : Chip).dmaBurst bus := if_neg hidle
    rw [hburst]
    exact (hsync _).burst bus

/-- **The board's memory answers**: its bytes are on the bus in the cycles that take them. -/
theorem answers_of_delayed {due last : Option UInt16} {a : Chip} {buses : List Bus} (hawaits : Awaits due last a)
    (h : Delayed mem due last a buses) : Answers mem a buses := by
  induction buses generalizing due last a with
  | nil => exact trivial
  | cons bus buses ih =>
    obtain ⟨hdue, hrest⟩ := h
    refine ⟨fun addr haddr => hdue addr ?_, ih (hawaits.service bus) hrest⟩
    rw [takes] at haddr
    cases hphase : a.dmaPhase <;> rw [hphase] at haddr <;> try cases haddr
    · exact hawaits.fetch1 hphase
    · exact hawaits.exec hphase

/-- A memory with a LOAD of 0x38 into register 7 at 0x1000. -/
def loadMem (addr : UInt16) : UInt8 := if addr = 0x1000 then 0x38 else if addr = 0x1001 then 0x07 else 0xFF

/-- A channel that is on, and one that pauses for two ticks more. -/
def loadChip : Chip :=
  { dma := fun c =>
      if c = 0 then { enabled := true, source := 0x1000 } else if c = 1 then { enabled := true, pauseTicks := 2 } else {} }

def quiet : Bus := { addr := 0, data := 0, m1 := false, iorq := false, wr := false }

/-- The cycles behind the grant, with the bytes of a memory that answers two cycles behind. -/
def loadCycles : List Bus := [0, 0, 0x38, 0x38, 0x07, 0x07, 0, 0].map fun data => { quiet with data }

theorem dmaService_line_load :
    Burst loadMem loadChip [{ quiet with crtc := true, hsw := 3 }]
      (loadChip.services ([{ quiet with crtc := true, hsw := 3 }] ++ { quiet with busak := true } :: loadCycles)).1
      (loadChip.services ([{ quiet with crtc := true, hsw := 3 }] ++ { quiet with busak := true } :: loadCycles)).2 := by
  have hdelayed : Delayed loadMem none none loadChip
      ([{ quiet with crtc := true, hsw := 3 }] ++ { quiet with busak := true } :: loadCycles) := by
    decide
  have hwait : ∀ b ∈ [({ quiet with crtc := true, hsw := 3 } : Bus)], b.busak = false := by simp [quiet]
  exact (dmaService_line rfl { quiet with crtc := true, hsw := 3 }).2.2 rfl rfl _ _ _ rfl hwait rfl (by decide)
    (answers_of_delayed (awaits_of_phase rfl (by decide)) hdelayed)

end Chip

end Koncepcja.Asic
