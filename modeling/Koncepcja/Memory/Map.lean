import Koncepcja.Buses
import Koncepcja.Lib.ByteBuf
import Mathlib.Logic.Function.Basic

/-!
# The Memory Map

The memory of `src/hw/memory.cpp`: the base RAM with the 6128's banking, the firmware and expansion
ROMs laid over it, a Plus cartridge in their place, and the bank tables the Fast tier reads through.

A pointer is a store and an offset into it. The buffers behind attached pointers belong to the caller,
and their contents are part of the state here. What the ASIC answers when it is asked whether it is
unlocked comes with the write that asks.
-/

namespace Koncepcja.Memory

open Koncepcja.Bytes

/-! ## Pointers -/

/-- What a pointer leads into: the device's own arrays, or a buffer of the caller. -/
inductive Store where
  | ram
  | lowerRom
  | upperRom
  | caller (buf : Nat)
  deriving DecidableEq, Repr

/-- A pointer. -/
structure Loc where
  store : Store
  off : Nat
  deriving DecidableEq, Repr

/-- Pointer arithmetic. -/
def Loc.add (p : Loc) (n : Nat) : Loc := { p with off := p.off + n }

/-! ## The decode -/

/-- The part of `mem_state` that decides where an address leads. -/
structure Banking where
  romConfig : UInt8 := 0
  ramConfig : UInt8 := 0
  ramExt : UInt8 := 0
  romSelect : UInt8 := 0
  expansion : Option Loc := none
  expansionLen : Nat := 0
  roms : UInt8 → Option Loc := fun _ => none
  cart : Option Loc := none
  cartBanks : Nat := 0
  cartLower : UInt8 := 0
  cartLowerSlot : UInt8 := 0
  cartUpper : UInt8 := 1

/-- `kBankTable`: the physical page of each slot, for the eight configurations of the PAL. -/
def kBankTable : List (List Nat) :=
  [[0, 1, 2, 3], [0, 1, 2, 7], [4, 5, 6, 7], [0, 3, 2, 7], [0, 4, 2, 3], [0, 5, 2, 3], [0, 6, 2, 3], [0, 7, 2, 3]]

/-- `plus_upper_page`: the cartridge bank of an upper ROM number. -/
def plusUpperPage (sel : UInt8) : UInt8 := if sel = 7 then 3 else if 128 ≤ sel then sel &&& 31 else 1

namespace Banking

variable (b : Banking)

def lowerRomOn : Bool := b.romConfig &&& 0x04 == 0

def upperRomOn : Bool := b.romConfig &&& 0x08 == 0

/-- `lower_rom_serves`: slot 0, or on a cartridge the slot that RMR2 picked. -/
def lowerRomServes (addr : UInt16) : Bool :=
  b.lowerRomOn &&
    match b.cart with
    | some _ => addr.toNat / 0x4000 == b.cartLowerSlot.toNat
    | none => decide (addr < 0x4000)

/-- The bank of a cartridge page, or the first where the cartridge has none. -/
def cartBank (page : UInt8) : Nat := if page.toNat < b.cartBanks then page.toNat else 0

/-- The 64K bank of an expansion. -/
def expansionBank : Nat :=
  let bank := (b.ramConfig >>> 3 &&& 7).toNat
  let bank := if 512 * 1024 < b.expansionLen then bank ||| b.ramExt.toNat <<< 3 else bank
  if b.expansionLen < (bank + 1) * 0x10000 then 0 else bank

/-- The physical page of a slot. -/
def page (slot : Nat) : Nat :=
  let cfg := if b.expansion.isSome then (b.ramConfig &&& 7).toNat else 0
  (kBankTable.getD cfg []).getD slot 0

/-- `banked_ptr`: the RAM byte of an address. -/
def bankedPtr (addr : UInt16) : Loc :=
  let offs := addr.toNat % 0x4000
  let page := b.page (addr.toNat / 0x4000)
  match b.expansion with
  | some p => if page < 4 then ⟨.ram, page * 0x4000 + offs⟩ else p.add (b.expansionBank * 0x10000 + (page - 4) * 0x4000 + offs)
  | none => ⟨.ram, page * 0x4000 + offs⟩

/-- Where `mem_read` reads an address. -/
def readPtr (addr : UInt16) : Loc :=
  if b.lowerRomServes addr then
    match b.cart with
    | some cart => cart.add (b.cartBank b.cartLower * 0x4000 + addr.toNat % 0x4000)
    | none => ⟨.lowerRom, addr.toNat⟩
  else if decide (0xC000 ≤ addr) && b.upperRomOn then
    match b.cart with
    | some cart => cart.add (b.cartBank b.cartUpper * 0x4000 + (addr.toNat - 0xC000))
    | none =>
      match b.roms b.romSelect with
      | some rom => rom.add (addr.toNat - 0xC000)
      | none => ⟨.upperRom, addr.toNat - 0xC000⟩
  else b.bankedPtr addr

end Banking

/-! ## State -/

/-- `mem_state`, and the caller's buffers behind its pointers. -/
structure Mem extends Banking where
  ram : List UInt8 := List.replicate 0x10000 0
  lowerRom : List UInt8 := List.replicate 0x4000 0
  upperRom : List UInt8 := List.replicate 0x4000 0
  wrAddr : UInt16 := 0
  wrVal : UInt8 := 0
  wrArmed : Bool := false
  wrPrev : Bool := false
  asic : Bool := false
  rdBank : List (Option Loc) := List.replicate 4 none
  wrBank : List (Option Loc) := List.replicate 4 none
  fastDirty : Bool := true
  heap : Nat → List UInt8 := fun _ => []

namespace Mem

/-- The bytes of a store. -/
def storage (m : Mem) : Store → List UInt8
  | .ram => m.ram
  | .lowerRom => m.lowerRom
  | .upperRom => m.upperRom
  | .caller buf => m.heap buf

/-- Other bytes in a store. -/
def setStorage (m : Mem) (s : Store) (bytes : List UInt8) : Mem :=
  match s with
  | .ram => { m with ram := bytes }
  | .lowerRom => { m with lowerRom := bytes }
  | .upperRom => { m with upperRom := bytes }
  | .caller buf => { m with heap := Function.update m.heap buf bytes }

/-- The byte at a pointer. -/
def deref (m : Mem) (p : Loc) : UInt8 := byteAt (m.storage p.store) p.off

/-- A byte stored through a pointer. -/
def put (m : Mem) (p : Loc) (v : UInt8) : Mem := m.setStorage p.store ((m.storage p.store).set p.off v)

/-- `memcpy` to a pointer. -/
def copyTo (m : Mem) (p : Loc) (bytes : List UInt8) : Mem :=
  let old := m.storage p.store
  m.setStorage p.store (old.take p.off ++ bytes ++ old.drop (p.off + bytes.length))

/-- There are `len` bytes at a pointer. -/
def Fits (m : Mem) (p : Loc) (len : Nat) : Prop := p.off + len ≤ (m.storage p.store).length

/-- `mem_read`, which is `mem_peek_cpu`. -/
def read (m : Mem) (addr : UInt16) : UInt8 := m.deref (m.readPtr addr)

/-- `mem_poke_cpu`. -/
def pokeCpu (m : Mem) (addr : UInt16) (val : UInt8) : Mem := m.put (m.bankedPtr addr) val

/-! ## The banking latches -/

/-- The mode register of the Gate Array, or RMR2 on an unlocked Plus. -/
def writeMode (m : Mem) (addr : UInt16) (d : UInt8) (unlocked : Bool) : Mem :=
  if addr &&& 0xC000 = 0x4000 ∧ d >>> 6 = 2 then
    if m.cart.isSome ∧ d &&& 0x20 ≠ 0 ∧ m.asic ∧ unlocked then
      let membank := d >>> 3 &&& 3
      { m with cartLower := d &&& 7, cartLowerSlot := if membank = 3 then 0 else membank, fastDirty := true }
    else { m with romConfig := d, fastDirty := true }
  else m

/-- The PAL's banking latch, with the extended bits off the inverted address. -/
def writePal (m : Mem) (addr : UInt16) (d : UInt8) : Mem :=
  if addr &&& 0x8000 = 0 ∧ d &&& 0xC0 = 0xC0 then
    { m with ramConfig := d, ramExt := ((~~~(addr >>> 11)) &&& 7).toUInt8, fastDirty := true }
  else m

/-- The upper ROM number. -/
def writeRomSelect (m : Mem) (addr : UInt16) (d : UInt8) : Mem :=
  if addr &&& 0x2000 = 0 then
    { m with romSelect := d, cartUpper := if m.cart.isSome then plusUpperPage d else m.cartUpper, fastDirty := true }
  else m

/-- `mem_io_write_decode`. -/
def ioWriteDecode (m : Mem) (addr : UInt16) (d : UInt8) (unlocked : Bool) : Mem :=
  ((m.writeMode addr d unlocked).writePal addr d).writeRomSelect addr d

/-! ## The fast tables -/

def fastRebuild (m : Mem) : Mem :=
  let ram := (List.range 4).map fun slot => some (m.bankedPtr (UInt16.ofNat (slot * 0x4000)))
  let lower :=
    if m.lowerRomOn then
      match m.cart with
      | some cart => ram.set m.cartLowerSlot.toNat (some (cart.add (m.cartBank m.cartLower * 0x4000)))
      | none => ram.set 0 (some ⟨.lowerRom, 0⟩)
    else ram
  let upper :=
    if m.upperRomOn then
      match m.cart with
      | some cart => lower.set 3 (some (cart.add (m.cartBank m.cartUpper * 0x4000)))
      | none => lower.set 3 (some ((m.roms m.romSelect).getD ⟨.upperRom, 0⟩))
    else lower
  { m with wrBank := ram, rdBank := upper, fastDirty := false }

/-- The tables, rebuilt if they are dirty. -/
def refreshed (m : Mem) : Mem := if m.fastDirty then m.fastRebuild else m

/-- The pointer of a table for an address; `none` where the slot has none. -/
def slotPtr (bank : List (Option Loc)) (addr : UInt16) : Option Loc :=
  (bank.getD (addr.toNat / 0x4000) none).map (·.add (addr.toNat % 0x4000))

/-- `mem_fast_read`. -/
def fastRead (m : Mem) (addr : UInt16) : Option UInt8 × Mem :=
  ((slotPtr m.refreshed.rdBank addr).map m.refreshed.deref, m.refreshed)

/-- `mem_fast_write`; `none` through a null pointer. -/
def fastWrite (m : Mem) (addr : UInt16) (val : UInt8) : Option Mem :=
  (slotPtr m.refreshed.wrBank addr).map fun p => m.refreshed.put p val

/-- `mem_fast_write_off`: the offset in the base RAM, if the write lands there. -/
def fastWriteOff (m : Mem) (addr : UInt16) : Option Nat × Mem :=
  ((slotPtr m.refreshed.wrBank addr).bind fun p => if p.store = .ram then some p.off else none, m.refreshed)

/-! ## The bus -/

/-- What the memory reads off the bus. -/
structure BusIn extends CpuLines where
  ramdis : Bool := false
  romdis : Bool := false
  fetch : Bool := false
  fetchAddr : UInt16 := 0
  unlocked : Bool := false
  deriving DecidableEq, Repr

/-- What it drives. -/
structure BusOut where
  cpuData : Option UInt8 := none
  ramData : Option UInt8 := none
  deriving DecidableEq, Repr

/-- The write latched on the tick before, unless an expansion vetoed it. -/
def commitWrite (m : Mem) (ramdis : Bool) : Mem :=
  if m.wrArmed then { (if ramdis then m else m.pokeCpu m.wrAddr m.wrVal) with wrArmed := false } else m

/-- One latch for each write access. -/
def latchWrite (m : Mem) (bus : BusIn) : Mem :=
  let wrNow := bus.mreq && bus.wr
  let m := if wrNow && !m.wrPrev then { m with wrAddr := bus.addr, wrVal := bus.data, wrArmed := true } else m
  { m with wrPrev := wrNow }

/-- `mem_tick`. -/
def tick (m : Mem) (bus : BusIn) : Mem × BusOut :=
  let m := if bus.iorq && bus.wr then m.ioWriteDecode bus.addr bus.data bus.unlocked else m
  let m := m.commitWrite bus.ramdis
  let romServes := m.lowerRomServes bus.addr || decide (0xC000 ≤ bus.addr) && m.upperRomOn
  let cpuData := if bus.mreq && bus.rd && !(if romServes then bus.romdis else bus.ramdis) then some (m.read bus.addr) else none
  let m := m.latchWrite bus
  (m, { cpuData := cpuData, ramData := if bus.fetch then some (byteAt m.ram bus.fetchAddr.toNat) else none })

/-! ## Reset, attachments and saved states -/

/-- `mem_reset`. -/
def reset (m : Mem) : Mem :=
  { m with
    romConfig := 0
    ramConfig := 0
    ramExt := 0
    romSelect := 0
    cartLower := 0
    cartLowerSlot := 0
    cartUpper := 1
    fastDirty := true }

/-- `mem_attach_rom`. -/
def attachRom (m : Mem) (n : UInt8) (data : Option Loc) : Mem :=
  { m with roms := Function.update m.roms n data, fastDirty := true }

/-- `mem_attach_expansion`: whole banks of 64K only. -/
def attachExpansion (m : Mem) (buf : Option Loc) (len : Nat) : Mem :=
  let len := len - len % 0x10000
  { m with expansion := if len = 0 then none else buf, expansionLen := len, fastDirty := true }

/-- `mem_load_cartridge`. -/
def loadCartridge (m : Mem) (image : Option Loc) (bytes : Nat) : Mem :=
  let cart := if 0x4000 ≤ bytes then image else none
  { m with
    cart := cart
    cartBanks := if cart.isSome then bytes / 0x4000 else 0
    cartLower := 0
    cartUpper := 1
    fastDirty := true }

/-- `mem_attach_asic`. -/
def attachAsic (m : Mem) (attached : Bool) : Mem := { m with asic := attached }

/-- The start of a ROM overwritten. -/
def romWith (rom data : List UInt8) : List UInt8 :=
  let len := min data.length 0x4000
  data.take len ++ rom.drop len

/-- `mem_load_lower_rom`. -/
def loadLowerRom (m : Mem) (data : List UInt8) : Mem := { m with lowerRom := romWith m.lowerRom data }

/-- `mem_load_upper_rom`. -/
def loadUpperRom (m : Mem) (data : List UInt8) : Mem := { m with upperRom := romWith m.upperRom data }

/-- `mem_write_ram`. -/
def writeRam (m : Mem) (addr : UInt16) (val : UInt8) : Mem := m.put ⟨.ram, addr.toNat⟩ val

/-- A saved state: the device with its wiring and tables zeroed, and the bytes of the expansion. -/
structure Blob where
  dev : Mem
  exp : List UInt8

/-- `mem_save`. Where nothing is attached the tail of the caller's buffer stays as it was. -/
def save (m : Mem) (tail : List UInt8) : Blob where
  dev :=
    { m with
      expansion := none
      roms := fun _ => none
      cart := none
      asic := false
      rdBank := List.replicate 4 none
      wrBank := List.replicate 4 none
      fastDirty := true
      heap := fun _ => [] }
  exp :=
    match m.expansion with
    | some p => if m.expansionLen ≠ 0 then slice (m.storage p.store) p.off m.expansionLen else tail
    | none => tail

/-- `mem_load`: the attachments stay, and the expansion is restored if its size is the same. -/
def load (m : Mem) (blob : Blob) : Mem :=
  let m' : Mem :=
    { blob.dev with
      expansion := m.expansion
      expansionLen := m.expansionLen
      cart := m.cart
      cartBanks := m.cartBanks
      asic := m.asic
      roms := m.roms
      heap := m.heap }
  match m.expansion with
  | some p => if m.expansionLen ≠ 0 ∧ blob.dev.expansionLen = m.expansionLen then m'.copyTo p blob.exp else m'
  | none => m'

/-! ## Runs -/

/-- The states a memory comes to. What is attached has the bytes its caller says, and only a saved
    state is loaded. -/
inductive Reachable : Mem → Prop
  | init (heap : Nat → List UInt8) : Reachable { heap := heap }
  | tick {m : Mem} (bus : BusIn) (h : Reachable m) : Reachable (m.tick bus).1
  | ioWrite {m : Mem} (addr : UInt16) (d : UInt8) (unlocked : Bool) (h : Reachable m) : Reachable (m.ioWriteDecode addr d unlocked)
  | reset {m : Mem} (h : Reachable m) : Reachable m.reset
  | attachRom {m : Mem} (n : UInt8) (data : Option Loc) (hfits : ∀ p, data = some p → m.Fits p 0x4000) (h : Reachable m) :
    Reachable (m.attachRom n data)
  | attachExpansion {m : Mem} (buf : Option Loc) (len : Nat) (hfits : ∀ p, buf = some p → m.Fits p len) (h : Reachable m) :
    Reachable (m.attachExpansion buf len)
  | loadCartridge {m : Mem} (image : Option Loc) (bytes : Nat) (hfits : ∀ p, image = some p → m.Fits p bytes) (h : Reachable m) :
    Reachable (m.loadCartridge image bytes)
  | attachAsic {m : Mem} (attached : Bool) (h : Reachable m) : Reachable (m.attachAsic attached)
  | loadLowerRom {m : Mem} (data : List UInt8) (h : Reachable m) : Reachable (m.loadLowerRom data)
  | loadUpperRom {m : Mem} (data : List UInt8) (h : Reachable m) : Reachable (m.loadUpperRom data)
  | writeRam {m : Mem} (addr : UInt16) (val : UInt8) (h : Reachable m) : Reachable (m.writeRam addr val)
  | pokeCpu {m : Mem} (addr : UInt16) (val : UInt8) (h : Reachable m) : Reachable (m.pokeCpu addr val)
  | fastRead {m : Mem} (addr : UInt16) (h : Reachable m) : Reachable (m.fastRead addr).2
  | fastWrite {m m' : Mem} (addr : UInt16) (val : UInt8) (hw : m.fastWrite addr val = some m') (h : Reachable m) : Reachable m'
  | fastWriteOff {m : Mem} (addr : UInt16) (h : Reachable m) : Reachable (m.fastWriteOff addr).2
  | callerWrite {m : Mem} (buf off : Nat) (val : UInt8) (h : Reachable m) : Reachable (m.put ⟨.caller buf, off⟩ val)
  | load {m q : Mem} (tail : List UInt8) (htail : tail.length = q.expansionLen) (h : Reachable m) (hq : Reachable q) :
    Reachable (m.load (q.save tail))

/-! ## What a cycle leaves alone -/

section Frames

variable (m : Mem)

@[simp] theorem toBanking_put (p : Loc) (v : UInt8) : (m.put p v).toBanking = m.toBanking := by
  rw [put]
  cases p.store <;> rfl

@[simp] theorem asic_put (p : Loc) (v : UInt8) : (m.put p v).asic = m.asic := by
  rw [put]
  cases p.store <;> rfl

@[simp] theorem toBanking_commitWrite (ramdis : Bool) : (m.commitWrite ramdis).toBanking = m.toBanking := by
  rw [commitWrite]
  split
  · split
    · rfl
    · exact toBanking_put m _ _
  · rfl

@[simp] theorem asic_commitWrite (ramdis : Bool) : (m.commitWrite ramdis).asic = m.asic := by
  rw [commitWrite]
  split
  · split
    · rfl
    · exact asic_put m _ _
  · rfl

@[simp] theorem toBanking_latchWrite (bus : BusIn) : (m.latchWrite bus).toBanking = m.toBanking := by
  rw [latchWrite]
  dsimp only
  split <;> rfl

@[simp] theorem asic_latchWrite (bus : BusIn) : (m.latchWrite bus).asic = m.asic := by
  rw [latchWrite]
  dsimp only
  split <;> rfl

theorem toBanking_tick (bus : BusIn) : (m.tick bus).1.toBanking =
    if bus.iorq && bus.wr then (m.ioWriteDecode bus.addr bus.data bus.unlocked).toBanking else m.toBanking := by
  rw [tick]
  dsimp only
  rw [toBanking_latchWrite, toBanking_commitWrite]
  split <;> rfl

theorem asic_ioWriteDecode (addr : UInt16) (d : UInt8) (unlocked : Bool) :
    (m.ioWriteDecode addr d unlocked).asic = m.asic := by
  rw [ioWriteDecode, writeRomSelect, writePal, writeMode]
  split <;> split <;> split <;> (try split) <;> rfl

theorem asic_tick (bus : BusIn) : (m.tick bus).1.asic = m.asic := by
  rw [tick]
  dsimp only
  rw [asic_latchWrite, asic_commitWrite]
  split
  · exact asic_ioWriteDecode m _ _ _
  · rfl

theorem rom_writeMode (addr : UInt16) (d : UInt8) (unlocked : Bool) :
    (m.writeMode addr d unlocked).romConfig =
        (if (addr &&& 0xC000 = 0x4000 ∧ d >>> 6 = 2) ∧ ¬ (m.cart.isSome ∧ d &&& 0x20 ≠ 0 ∧ m.asic ∧ unlocked) then d
        else m.romConfig) ∧
      (m.writeMode addr d unlocked).romSelect = m.romSelect ∧ (m.writeMode addr d unlocked).cart = m.cart := by
  rw [writeMode]
  by_cases hmode : addr &&& 0xC000 = 0x4000 ∧ d >>> 6 = 2
  · by_cases hrmr2 : m.cart.isSome ∧ d &&& 0x20 ≠ 0 ∧ m.asic ∧ unlocked
    · rw [if_pos hmode, if_pos hrmr2, if_neg fun h => h.2 hrmr2]
      exact ⟨rfl, rfl, rfl⟩
    · rw [if_pos hmode, if_neg hrmr2, if_pos ⟨hmode, hrmr2⟩]
      exact ⟨rfl, rfl, rfl⟩
  · rw [if_neg hmode, if_neg fun h => hmode h.1]
    exact ⟨rfl, rfl, rfl⟩

theorem rom_ioWriteDecode (addr : UInt16) (d : UInt8) (unlocked : Bool) :
    (m.ioWriteDecode addr d unlocked).romConfig =
        (if (addr &&& 0xC000 = 0x4000 ∧ d >>> 6 = 2) ∧ ¬ (m.cart.isSome ∧ d &&& 0x20 ≠ 0 ∧ m.asic ∧ unlocked) then d
        else m.romConfig) ∧
      (m.ioWriteDecode addr d unlocked).romSelect = (if addr &&& 0x2000 = 0 then d else m.romSelect) ∧
      (m.ioWriteDecode addr d unlocked).cart = m.cart := by
  have hpal : ∀ k : Mem, (k.writePal addr d).romConfig = k.romConfig ∧ (k.writePal addr d).romSelect = k.romSelect ∧
      (k.writePal addr d).cart = k.cart := by
    intro k
    rw [writePal]
    split <;> exact ⟨rfl, rfl, rfl⟩
  have hselect : ∀ k : Mem, (k.writeRomSelect addr d).romConfig = k.romConfig ∧
      (k.writeRomSelect addr d).romSelect = (if addr &&& 0x2000 = 0 then d else k.romSelect) ∧
      (k.writeRomSelect addr d).cart = k.cart := by
    intro k
    rw [writeRomSelect]
    split <;> exact ⟨rfl, rfl, rfl⟩
  obtain ⟨hconfig, hrom, hcart⟩ := m.rom_writeMode addr d unlocked
  obtain ⟨hconfig', hrom', hcart'⟩ := hpal (m.writeMode addr d unlocked)
  obtain ⟨hconfig'', hrom'', hcart''⟩ := hselect ((m.writeMode addr d unlocked).writePal addr d)
  rw [ioWriteDecode]
  exact ⟨hconfig''.trans (hconfig'.trans hconfig), hrom''.trans (by rw [hrom', hrom]), hcart''.trans (hcart'.trans hcart)⟩

end Frames

end Mem

end Koncepcja.Memory
