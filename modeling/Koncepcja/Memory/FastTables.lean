import Koncepcja.Memory.Map
import Mathlib.Data.List.GetD

/-!
# Coherence of the Fast Tables

The tables are a cache of the decode, rebuilt when they are marked dirty. Every operation that moves the
decode marks them, so that a clean table always has, slot by slot, the pointer the decode would resolve;
and every pointer the decode resolves leads inside the store it names.

## Main results

- `Mem.coherent_fastRebuild`: a rebuild makes the tables those of the decode.
- `Mem.Reachable.valid`: the wiring is sound and the tables are coherent, whatever was done.
- `Mem.fast_tables_coherent`: a fast access reaches the byte the decode path reaches.
-/

namespace Koncepcja.Memory

open Koncepcja.Bytes

namespace Banking

variable {b : Banking}

/-! ## Slots -/

/-- The first address of the slot of an address. -/
def slotBase (addr : UInt16) : UInt16 := UInt16.ofNat (addr.toNat / 0x4000 * 0x4000)

theorem slotBase_toNat (addr : UInt16) : (slotBase addr).toNat = addr.toNat / 0x4000 * 0x4000 := by
  have haddr := addr.toNat_lt
  exact UInt16.toNat_ofNat_of_lt' (show addr.toNat / 0x4000 * 0x4000 < 65536 by omega)

theorem slot_lt (addr : UInt16) : addr.toNat / 0x4000 < 4 := by
  have haddr := addr.toNat_lt
  omega

theorem loc_add_add (p : Loc) (m n : Nat) : (p.add m).add n = p.add (m + n) := by
  rw [Loc.add, Loc.add, Loc.add, Nat.add_assoc]

theorem bankedPtr_eq_add (b : Banking) (addr : UInt16) :
    b.bankedPtr addr = (b.bankedPtr (slotBase addr)).add (addr.toNat % 0x4000) := by
  have hslot : (slotBase addr).toNat / 0x4000 = addr.toNat / 0x4000 := by
    rw [slotBase_toNat]
    omega
  have hoffs : (slotBase addr).toNat % 0x4000 = 0 := by
    rw [slotBase_toNat]
    omega
  rw [bankedPtr, bankedPtr, hslot, hoffs]
  rw [Nat.add_zero, Nat.add_zero]
  cases b.expansion with
  | none => rw [Loc.add]
  | some p =>
    dsimp only
    split
    · rw [Loc.add]
    · rw [loc_add_add]

/-- The slot under the lower ROM. -/
def lowerSlot (b : Banking) : Nat := if b.cart.isSome then b.cartLowerSlot.toNat else 0

/-- The pointer of the lower ROM's slot. -/
def lowerPtr (b : Banking) : Loc :=
  match b.cart with
  | some cart => cart.add (b.cartBank b.cartLower * 0x4000)
  | none => ⟨.lowerRom, 0⟩

/-- The pointer of the upper ROM's slot. -/
def upperPtr (b : Banking) : Loc :=
  match b.cart with
  | some cart => cart.add (b.cartBank b.cartUpper * 0x4000)
  | none => (b.roms b.romSelect).getD ⟨.upperRom, 0⟩

theorem lowerRomServes_iff (b : Banking) (addr : UInt16) :
    b.lowerRomServes addr = true ↔ b.lowerRomOn = true ∧ addr.toNat / 0x4000 = b.lowerSlot := by
  rw [lowerRomServes, lowerSlot, Bool.and_eq_true]
  cases b.cart with
  | some cart => rw [beq_iff_eq, Option.isSome_some, if_pos rfl]
  | none =>
    rw [decide_eq_true_iff, Option.isSome_none, if_neg Bool.false_ne_true, UInt16.lt_iff_toNat_lt]
    have haddr : (0x4000 : UInt16).toNat = 0x4000 := rfl
    rw [haddr, Nat.div_eq_zero_iff_lt (by decide)]

theorem upper_iff (addr : UInt16) : 0xC000 ≤ addr ↔ addr.toNat / 0x4000 = 3 := by
  have haddr := addr.toNat_lt
  rw [UInt16.le_iff_toNat_le]
  change 0xC000 ≤ addr.toNat ↔ _
  omega

theorem readPtr_eq (b : Banking) (addr : UInt16) : b.readPtr addr =
    if b.lowerRomOn = true ∧ addr.toNat / 0x4000 = b.lowerSlot then b.lowerPtr.add (addr.toNat % 0x4000)
    else if addr.toNat / 0x4000 = 3 ∧ b.upperRomOn = true then b.upperPtr.add (addr.toNat % 0x4000)
    else b.bankedPtr addr := by
  have haddr := addr.toNat_lt
  have hupper : (decide (0xC000 ≤ addr) && b.upperRomOn) = true ↔ addr.toNat / 0x4000 = 3 ∧ b.upperRomOn = true := by
    rw [Bool.and_eq_true, decide_eq_true_iff, upper_iff]
  rw [readPtr, if_congr (b.lowerRomServes_iff addr) rfl rfl, if_congr hupper rfl rfl]
  -- The ROMs come before the RAM, the lower one first.
  by_cases hlow : b.lowerRomOn = true ∧ addr.toNat / 0x4000 = b.lowerSlot
  · rw [if_pos hlow, if_pos hlow, lowerPtr]
    have hslot := hlow.2
    rw [lowerSlot] at hslot
    cases hcart : b.cart with
    | some cart => rw [loc_add_add]
    | none =>
      rw [hcart, Option.isSome_none, if_neg Bool.false_ne_true] at hslot
      rw [Loc.add, Nat.zero_add, Nat.mod_eq_of_lt (by omega)]
  · rw [if_neg hlow, if_neg hlow]
    by_cases hup : addr.toNat / 0x4000 = 3 ∧ b.upperRomOn = true
    · have hoffs : addr.toNat - 0xC000 = addr.toNat % 0x4000 := by omega
      rw [if_pos hup, if_pos hup, upperPtr, hoffs]
      cases b.cart with
      | some cart => rw [loc_add_add]
      | none =>
        cases b.roms b.romSelect with
        | some rom => rfl
        | none => rw [Option.getD_none, Loc.add, Nat.zero_add]
    · rw [if_neg hup, if_neg hup]

end Banking

namespace Mem

variable {m m' : Mem}

/-! ## Coherence -/

/-- A clean table has the pointers of the decode. -/
def Coherent (m : Mem) : Prop :=
  m.fastDirty = false → ∀ addr, slotPtr m.rdBank addr = some (m.readPtr addr) ∧ slotPtr m.wrBank addr = some (m.bankedPtr addr)

theorem getD_overlay (c : Bool) {l : List (Option Loc)} (i j : Nat) (v : Option Loc) (hj : j < l.length) :
    (if c then l.set i v else l).getD j none = if c = true ∧ j = i then v else l.getD j none := by
  cases c with
  | false => rw [if_neg Bool.false_ne_true, if_neg fun h => Bool.false_ne_true h.1]
  | true =>
    rw [if_pos rfl, List.getD_eq_getElem?_getD, List.getD_eq_getElem?_getD, List.getElem?_set]
    by_cases h : i = j
    · subst h
      rw [if_pos rfl, if_pos hj, if_pos (And.intro rfl rfl)]
      rfl
    · rw [if_neg h, if_neg fun he => h he.2.symm]

/-- The RAM pointers of the four slots. -/
def ramBank (m : Mem) : List (Option Loc) :=
  (List.range 4).map fun slot => some (m.bankedPtr (UInt16.ofNat (slot * 0x4000)))

theorem fastRebuild_eq (m : Mem) : m.fastRebuild.wrBank = m.ramBank ∧ m.fastRebuild.toBanking = m.toBanking ∧
    ∃ lower : List (Option Loc), lower = (if m.lowerRomOn then m.ramBank.set m.lowerSlot (some m.lowerPtr) else m.ramBank) ∧
      m.fastRebuild.rdBank = if m.upperRomOn then lower.set 3 (some m.upperPtr) else lower := by
  refine ⟨rfl, rfl, _, rfl, ?_⟩
  rw [fastRebuild, Banking.lowerSlot, Banking.lowerPtr, Banking.upperPtr]
  cases m.cart <;> rfl

/-- **A rebuild makes the tables those of the decode.** -/
theorem coherent_fastRebuild (hslot : m.cartLowerSlot.toNat < 3) : m.fastRebuild.Coherent := by
  intro _ addr
  obtain ⟨hwr, hbanking, lower, rfl, hrd⟩ := fastRebuild_eq m
  have hlt := Banking.slot_lt addr
  have hlen : m.ramBank.length = 4 := by rw [ramBank, List.length_map, List.length_range]
  have hram : m.ramBank.getD (addr.toNat / 0x4000) none = some (m.bankedPtr (Banking.slotBase addr)) := by
    rw [ramBank, List.getD_eq_getElem?_getD, List.getElem?_map, List.getElem?_range hlt]
    rfl
  have hlow : m.lowerSlot < 3 := by
    rw [Banking.lowerSlot]
    split
    · exact hslot
    · decide
  have hlen' : (if m.lowerRomOn then m.ramBank.set m.lowerSlot (some m.lowerPtr) else m.ramBank).length = 4 := by
    split
    · rw [List.length_set, hlen]
    · exact hlen
  rw [slotPtr, slotPtr, hwr, hrd, hbanking, hram, Banking.readPtr_eq, m.bankedPtr_eq_add addr]
  refine ⟨?_, rfl⟩
  rw [getD_overlay _ _ _ _ (by rw [hlen']; exact hlt), getD_overlay _ _ _ _ (by rw [hlen]; exact hlt), hram]
  -- the slot under the upper ROM is none that the lower ROM can have
  by_cases hup : m.upperRomOn = true ∧ addr.toNat / 0x4000 = 3
  · rw [if_pos hup, if_neg fun h => by omega, if_pos ⟨hup.2, hup.1⟩]
    rfl
  · rw [if_neg hup]
    by_cases hlo : m.lowerRomOn = true ∧ addr.toNat / 0x4000 = m.lowerSlot
    · rw [if_pos hlo, if_pos hlo]
      rfl
    · rw [if_neg hlo, if_neg hlo, if_neg fun h => hup ⟨h.2, h.1⟩]
      rfl

/-! ## Sound wiring -/

/-- The arrays have their sizes, and what is attached is there. -/
structure Wired (m : Mem) : Prop where
  ram : m.ram.length = 0x10000
  lowerRom : m.lowerRom.length = 0x4000
  upperRom : m.upperRom.length = 0x4000
  slot : m.cartLowerSlot.toNat < 3
  expansion : ∀ p, m.expansion = some p → m.Fits p m.expansionLen ∧ 0x10000 ≤ m.expansionLen
  roms : ∀ n p, m.roms n = some p → m.Fits p 0x4000
  cart : ∀ p, m.cart = some p → m.Fits p (m.cartBanks * 0x4000) ∧ 0 < m.cartBanks

/-- A pointer leads inside its store. -/
def Inside (m : Mem) (p : Loc) : Prop := p.off < (m.storage p.store).length

theorem Fits.inside {p : Loc} {len : Nat} (h : m.Fits p len) {n : Nat} (hn : n < len) : m.Inside (p.add n) :=
  Nat.lt_of_lt_of_le (Nat.add_lt_add_left hn p.off) h

theorem page_lt (b : Banking) (slot : Nat) (hslot : slot < 4) : b.page slot < 8 ∧ (b.expansion = none → b.page slot < 4) := by
  have htable : ∀ cfg < 8, ∀ slot < 4, (kBankTable.getD cfg []).getD slot 0 < 8 ∧ (cfg = 0 → (kBankTable.getD cfg []).getD slot 0 < 4) := by
    decide
  have hcfg : (b.ramConfig &&& 7).toNat < 8 := by
    rw [UInt8.toNat_and]
    exact Nat.lt_succ_of_le Nat.and_le_right
  rw [Banking.page]
  cases b.expansion with
  | none => exact ⟨(htable 0 (by decide) slot hslot).1, fun _ => (htable 0 (by decide) slot hslot).2 rfl⟩
  | some p => exact ⟨(htable _ hcfg slot hslot).1, fun h => nomatch h⟩

theorem expansionBank_le (b : Banking) (h : 0x10000 ≤ b.expansionLen) : (b.expansionBank + 1) * 0x10000 ≤ b.expansionLen := by
  rw [Banking.expansionBank]
  generalize (if 512 * 1024 < b.expansionLen then _ else _ : Nat) = bank
  split <;> omega

theorem cartBank_lt (b : Banking) (page : UInt8) (h : 0 < b.cartBanks) : b.cartBank page < b.cartBanks := by
  rw [Banking.cartBank]
  split
  · assumption
  · exact h

/-- **Where the decode writes is inside a store.** -/
theorem Wired.bankedPtr_inside (h : m.Wired) (addr : UInt16) : m.Inside (m.bankedPtr addr) := by
  obtain ⟨hpage, hbase⟩ := page_lt m.toBanking (addr.toNat / 0x4000) (Banking.slot_lt addr)
  have hoffs := Nat.mod_lt addr.toNat (show 0 < 0x4000 by decide)
  have hram : ∀ page < 4, m.Inside ⟨.ram, page * 0x4000 + addr.toNat % 0x4000⟩ := by
    intro page hlt
    change _ < m.ram.length
    rw [h.ram]
    dsimp only
    omega
  rw [Banking.bankedPtr]
  generalize m.page (addr.toNat / 0x4000) = page at hpage hbase ⊢
  cases hexp : m.expansion with
  | none => exact hram page (hbase hexp)
  | some p =>
    obtain ⟨hfits, hlen⟩ := h.expansion p hexp
    have hbank := expansionBank_le m.toBanking hlen
    dsimp only
    split
    · exact hram page ‹_›
    · exact hfits.inside (by omega)

/-- **Where the decode reads is inside a store.** -/
theorem Wired.readPtr_inside (h : m.Wired) (addr : UInt16) : m.Inside (m.readPtr addr) := by
  have hoffs := Nat.mod_lt addr.toNat (show 0 < 0x4000 by decide)
  -- A cartridge page lies inside the cartridge: the bank number is cut to its pages.
  have hcart : ∀ p page, m.cart = some p → m.Inside ((p.add (m.cartBank page * 0x4000)).add (addr.toNat % 0x4000)) := by
    intro p page hp
    obtain ⟨hfits, hpos⟩ := h.cart p hp
    have hbank := cartBank_lt m.toBanking page hpos
    rw [Banking.loc_add_add]
    exact hfits.inside (by omega)
  rw [Banking.readPtr_eq]
  split
  · rw [Banking.lowerPtr]
    cases hc : m.cart with
    | some p => exact hcart p _ hc
    | none =>
      change 0 + addr.toNat % 0x4000 < m.lowerRom.length
      rw [h.lowerRom]
      omega
  · split
    · rw [Banking.upperPtr]
      cases hc : m.cart with
      | some p => exact hcart p _ hc
      | none =>
        -- An expansion ROM where one is fitted, else the built-in upper ROM.
        cases hr : m.roms m.romSelect with
        | some p => exact (h.roms _ p hr).inside hoffs
        | none =>
          change 0 + addr.toNat % 0x4000 < m.upperRom.length
          rw [h.upperRom]
          omega
    · exact h.bankedPtr_inside addr

/-! ## Operations -/

/-- The wiring is sound and the tables are coherent. -/
structure Valid (m : Mem) : Prop where
  wired : m.Wired
  coherent : m.Coherent

theorem Wired.copy (h : m.Wired) (hsize : ∀ s, (m'.storage s).length = (m.storage s).length)
    (hslot : m'.cartLowerSlot.toNat < 3) (hexp : m'.expansion = m.expansion) (hlen : m'.expansionLen = m.expansionLen)
    (hroms : m'.roms = m.roms) (hcart : m'.cart = m.cart) (hbanks : m'.cartBanks = m.cartBanks) : m'.Wired := by
  have hfits : ∀ {p : Loc} {len : Nat}, m.Fits p len → m'.Fits p len := fun {p len} hf => by
    rw [Fits, hsize]
    exact hf
  refine ⟨(hsize .ram).trans h.ram, (hsize .lowerRom).trans h.lowerRom, (hsize .upperRom).trans h.upperRom, hslot, ?_, ?_, ?_⟩
  · rw [hexp, hlen]
    exact fun p hp => ⟨hfits (h.expansion p hp).1, (h.expansion p hp).2⟩
  · rw [hroms]
    exact fun n p hp => hfits (h.roms n p hp)
  · rw [hcart, hbanks]
    exact fun p hp => ⟨hfits (h.cart p hp).1, (h.cart p hp).2⟩

theorem Valid.copy (h : m.Valid) (hsize : ∀ s, (m'.storage s).length = (m.storage s).length)
    (hbanking : m'.toBanking = m.toBanking) (hrd : m'.rdBank = m.rdBank) (hwr : m'.wrBank = m.wrBank)
    (hdirty : m'.fastDirty = m.fastDirty) : m'.Valid where
  wired := by
    refine h.wired.copy hsize ?_ ?_ ?_ ?_ ?_ ?_ <;> rw [hbanking]
    exact h.wired.slot
  coherent hclean addr := by
    rw [hrd, hwr, hbanking]
    exact h.coherent (hdirty.symm.trans hclean) addr

theorem coherent_of_dirty (h : m.fastDirty = true) : m.Coherent :=
  fun hclean => absurd (hclean.symm.trans h) Bool.false_ne_true

theorem Valid.setStorage (h : m.Valid) (s : Store) {bytes : List UInt8} (hlen : bytes.length = (m.storage s).length) :
    (m.setStorage s bytes).Valid := by
  refine h.copy (fun t => ?_) ?_ ?_ ?_ ?_
  · cases s with
    | caller buf =>
      cases t with
      | caller buf' =>
        change (Function.update m.heap buf bytes buf').length = (m.heap buf').length
        by_cases hb : buf' = buf
        · subst hb
          rw [Function.update_self]
          exact hlen
        · rw [Function.update_of_ne hb]
      | _ => rfl
    | ram => cases t <;> first | exact hlen | rfl
    | lowerRom => cases t <;> first | exact hlen | rfl
    | upperRom => cases t <;> first | exact hlen | rfl
  all_goals cases s <;> rfl

theorem Valid.put (h : m.Valid) (p : Loc) (v : UInt8) : (m.put p v).Valid := h.setStorage p.store (List.length_set)

theorem Valid.copyTo (h : m.Valid) {p : Loc} {bytes : List UInt8} (hfits : m.Fits p bytes.length) : (m.copyTo p bytes).Valid := by
  refine h.setStorage p.store ?_
  rw [Fits] at hfits
  rw [List.length_append, List.length_append, List.length_take, List.length_drop]
  omega

theorem Valid.fastRebuild (h : m.Valid) : m.fastRebuild.Valid where
  wired := h.wired.copy (fun s => by cases s <;> rfl) h.wired.slot rfl rfl rfl rfl rfl
  coherent := coherent_fastRebuild h.wired.slot

theorem Valid.refreshed (h : m.Valid) : m.refreshed.Valid := by
  rw [Mem.refreshed]
  split
  · exact h.fastRebuild
  · exact h

theorem Valid.writeMode (h : m.Valid) (addr : UInt16) (d : UInt8) (unlocked : Bool) : (m.writeMode addr d unlocked).Valid := by
  rw [Mem.writeMode]
  split
  · split
    · refine ⟨h.wired.copy (fun s => by cases s <;> rfl) ?_ rfl rfl rfl rfl rfl, coherent_of_dirty rfl⟩
      -- slot 3 is the register page, and pages the low ROM back
      have hbits : (d >>> 3 &&& 3).toNat ≤ 3 := by
        rw [UInt8.toNat_and]
        exact Nat.and_le_right
      dsimp only
      split
      · decide
      · rename_i hne
        exact Nat.lt_of_le_of_ne hbits fun h3 => hne (UInt8.toNat_inj.mp h3)
    · exact ⟨h.wired.copy (fun s => by cases s <;> rfl) h.wired.slot rfl rfl rfl rfl rfl, coherent_of_dirty rfl⟩
  · exact h

theorem Valid.writePal (h : m.Valid) (addr : UInt16) (d : UInt8) : (m.writePal addr d).Valid := by
  rw [Mem.writePal]
  split
  · exact ⟨h.wired.copy (fun s => by cases s <;> rfl) h.wired.slot rfl rfl rfl rfl rfl, coherent_of_dirty rfl⟩
  · exact h

theorem Valid.writeRomSelect (h : m.Valid) (addr : UInt16) (d : UInt8) : (m.writeRomSelect addr d).Valid := by
  rw [Mem.writeRomSelect]
  split
  · exact ⟨h.wired.copy (fun s => by cases s <;> rfl) h.wired.slot rfl rfl rfl rfl rfl, coherent_of_dirty rfl⟩
  · exact h

/-- **A banking write.** -/
theorem Valid.ioWriteDecode (h : m.Valid) (addr : UInt16) (d : UInt8) (unlocked : Bool) : (m.ioWriteDecode addr d unlocked).Valid :=
  ((h.writeMode addr d unlocked).writePal addr d).writeRomSelect addr d

theorem Valid.commitWrite (h : m.Valid) (ramdis : Bool) : (m.commitWrite ramdis).Valid := by
  rw [Mem.commitWrite]
  split
  · have hstored : (if ramdis then m else m.pokeCpu m.wrAddr m.wrVal).Valid := by
      split
      · exact h
      · exact h.put _ _
    exact hstored.copy (fun s => by cases s <;> rfl) rfl rfl rfl rfl
  · exact h

theorem Valid.latchWrite (h : m.Valid) (bus : BusIn) : (m.latchWrite bus).Valid := by
  rw [Mem.latchWrite]
  split <;> exact h.copy (fun s => by cases s <;> rfl) rfl rfl rfl rfl

theorem Valid.tick (h : m.Valid) (bus : BusIn) : (m.tick bus).1.Valid := by
  have hwrite : (if bus.iorq && bus.wr then m.ioWriteDecode bus.addr bus.data bus.unlocked else m).Valid := by
    split
    · exact h.ioWriteDecode _ _ _
    · exact h
  exact (hwrite.commitWrite bus.ramdis).latchWrite bus

theorem Valid.reset (h : m.Valid) : m.reset.Valid :=
  ⟨h.wired.copy (fun s => by cases s <;> rfl) (show (0 : UInt8).toNat < 3 by decide) rfl rfl rfl rfl rfl, coherent_of_dirty rfl⟩

theorem Valid.attachRom (h : m.Valid) (n : UInt8) (data : Option Loc) (hfits : ∀ p, data = some p → m.Fits p 0x4000) :
    (m.attachRom n data).Valid := by
  have hw := h.wired
  refine ⟨⟨hw.ram, hw.lowerRom, hw.upperRom, hw.slot, hw.expansion, fun k p hp => ?_, hw.cart⟩, coherent_of_dirty rfl⟩
  change Function.update m.roms n data k = some p at hp
  by_cases hk : k = n
  · subst hk
    rw [Function.update_self] at hp
    exact hfits p hp
  · rw [Function.update_of_ne hk] at hp
    exact hw.roms k p hp

theorem Valid.attachExpansion (h : m.Valid) (buf : Option Loc) (len : Nat) (hfits : ∀ p, buf = some p → m.Fits p len) :
    (m.attachExpansion buf len).Valid := by
  have hw := h.wired
  refine ⟨⟨hw.ram, hw.lowerRom, hw.upperRom, hw.slot, fun p hp => ?_, hw.roms, hw.cart⟩, coherent_of_dirty rfl⟩
  change (if len - len % 0x10000 = 0 then none else buf) = some p at hp
  change p.off + (len - len % 0x10000) ≤ (m.storage p.store).length ∧ 0x10000 ≤ len - len % 0x10000
  split at hp
  · exact nomatch hp
  · rename_i hpos
    have hbuf : p.off + len ≤ (m.storage p.store).length := hfits p hp
    omega

theorem Valid.loadCartridge (h : m.Valid) (image : Option Loc) (bytes : Nat) (hfits : ∀ p, image = some p → m.Fits p bytes) :
    (m.loadCartridge image bytes).Valid := by
  have hw := h.wired
  refine ⟨⟨hw.ram, hw.lowerRom, hw.upperRom, hw.slot, hw.expansion, hw.roms, fun p hp => ?_⟩, coherent_of_dirty rfl⟩
  change (if 0x4000 ≤ bytes then image else none) = some p at hp
  change p.off + (if (if 0x4000 ≤ bytes then image else none).isSome then bytes / 0x4000 else 0) * 0x4000 ≤ (m.storage p.store).length ∧
    0 < (if (if 0x4000 ≤ bytes then image else none).isSome then bytes / 0x4000 else 0)
  rw [hp, Option.isSome_some, if_pos rfl]
  split at hp
  · have hbuf : p.off + bytes ≤ (m.storage p.store).length := hfits p hp
    omega
  · exact nomatch hp

theorem romWith_length {rom : List UInt8} (data : List UInt8) (h : rom.length = 0x4000) : (romWith rom data).length = 0x4000 := by
  rw [romWith, List.length_append, List.length_take, List.length_drop]
  omega

theorem Valid.loadLowerRom (h : m.Valid) (data : List UInt8) : (m.loadLowerRom data).Valid :=
  h.setStorage .lowerRom ((romWith_length data h.wired.lowerRom).trans h.wired.lowerRom.symm)

theorem Valid.loadUpperRom (h : m.Valid) (data : List UInt8) : (m.loadUpperRom data).Valid :=
  h.setStorage .upperRom ((romWith_length data h.wired.upperRom).trans h.wired.upperRom.symm)

theorem Valid.fastWrite (h : m.Valid) {addr : UInt16} {val : UInt8} (hw : m.fastWrite addr val = some m') : m'.Valid := by
  rw [Mem.fastWrite, Option.map_eq_some_iff] at hw
  obtain ⟨p, -, rfl⟩ := hw
  exact h.refreshed.put p val

theorem save_exp_length (h : m.Wired) {tail : List UInt8} (htail : tail.length = m.expansionLen) :
    (m.save tail).exp.length = m.expansionLen := by
  rw [save]
  cases hexp : m.expansion with
  | none => exact htail
  | some p =>
    dsimp only
    split
    · have hfits := (h.expansion p hexp).1
      rw [Fits] at hfits
      exact slice_length hfits
    · exact htail

theorem Valid.load {q : Mem} (h : m.Valid) (hq : q.Valid) {tail : List UInt8} (htail : tail.length = q.expansionLen) :
    (m.load (q.save tail)).Valid := by
  have hexplen := save_exp_length hq.wired htail
  -- The device as it was saved, with the attachments that the loading one has.
  let m' : Mem :=
    { (q.save tail).dev with
      expansion := m.expansion
      expansionLen := m.expansionLen
      cart := m.cart
      cartBanks := m.cartBanks
      asic := m.asic
      roms := m.roms
      heap := m.heap }
  -- Both have stores of the same sizes, so every pointer still fits.
  have hsize : ∀ s, (m'.storage s).length = (m.storage s).length := by
    intro s
    cases s with
    | ram => exact hq.wired.ram.trans h.wired.ram.symm
    | lowerRom => exact hq.wired.lowerRom.trans h.wired.lowerRom.symm
    | upperRom => exact hq.wired.upperRom.trans h.wired.upperRom.symm
    | caller buf => rfl
  have hvalid : m'.Valid := ⟨h.wired.copy hsize hq.wired.slot rfl rfl rfl rfl rfl, coherent_of_dirty rfl⟩
  rw [Mem.load]
  change Valid (match m.expansion with
    | some p => if m.expansionLen ≠ 0 ∧ (q.save tail).dev.expansionLen = m.expansionLen then m'.copyTo p (q.save tail).exp else m'
    | none => m')
  cases hexp : m.expansion with
  | none => exact hvalid
  | some p =>
    dsimp only
    split
    · rename_i hsame
      refine hvalid.copyTo ?_
      rw [Fits, hsize, hexplen, show q.expansionLen = m.expansionLen from hsame.2]
      exact (h.wired.expansion p hexp).1
    · exact hvalid

/-- **Whatever is done to a memory, its tables are coherent and its pointers lead inside.** -/
theorem Reachable.valid (h : m.Reachable) : m.Valid := by
  induction h with
  | init heap =>
    refine ⟨⟨List.length_replicate, List.length_replicate, List.length_replicate, show (0 : UInt8).toNat < 3 by decide, ?_, ?_, ?_⟩, coherent_of_dirty rfl⟩
    · exact fun p hp => nomatch hp
    · exact fun n p hp => nomatch hp
    · exact fun p hp => nomatch hp
  | tick bus _ ih => exact ih.tick bus
  | ioWrite addr d unlocked _ ih => exact ih.ioWriteDecode addr d unlocked
  | reset _ ih => exact ih.reset
  | attachRom n data hfits _ ih => exact ih.attachRom n data hfits
  | attachExpansion buf len hfits _ ih => exact ih.attachExpansion buf len hfits
  | loadCartridge image bytes hfits _ ih => exact ih.loadCartridge image bytes hfits
  | attachAsic _ _ ih => exact ih.copy (fun s => by cases s <;> rfl) rfl rfl rfl rfl
  | loadLowerRom data _ ih => exact ih.loadLowerRom data
  | loadUpperRom data _ ih => exact ih.loadUpperRom data
  | writeRam _ _ _ ih => exact ih.put _ _
  | pokeCpu _ _ _ ih => exact ih.put _ _
  | fastRead _ _ ih => exact ih.refreshed
  | fastWrite _ _ hw _ ih => exact ih.fastWrite hw
  | fastWriteOff _ _ ih => exact ih.refreshed
  | callerWrite _ _ _ _ ih => exact ih.put _ _
  | load _ htail _ _ ih ihq => exact ih.load ihq htail

/-! ## Fast accesses -/

/-- What a memory is but for its tables. -/
def untabled (m : Mem) : Mem := { m with rdBank := [], wrBank := [], fastDirty := true }

theorem untabled_refreshed (m : Mem) : m.refreshed.untabled = m.untabled := by
  rw [refreshed]
  split <;> rfl

theorem untabled_put (m : Mem) (p : Loc) (v : UInt8) : (m.put p v).untabled = m.untabled.put p v := by
  rw [put, put]
  cases p.store <;> rfl

theorem toBanking_refreshed (m : Mem) : m.refreshed.toBanking = m.toBanking := by
  rw [refreshed]
  split <;> rfl

theorem deref_refreshed (m : Mem) (p : Loc) : m.refreshed.deref p = m.deref p := by
  have hstorage : ∀ n : Mem, n.storage p.store = n.untabled.storage p.store := fun n => by cases p.store <;> rfl
  rw [deref, deref, hstorage, untabled_refreshed, ← hstorage]

theorem Valid.slotPtr_refreshed (h : m.Valid) (addr : UInt16) :
    slotPtr m.refreshed.rdBank addr = some (m.readPtr addr) ∧ slotPtr m.refreshed.wrBank addr = some (m.bankedPtr addr) := by
  have hclean : m.refreshed.fastDirty = false := by
    rw [Mem.refreshed]
    split
    · rfl
    · exact Bool.eq_false_iff.mpr ‹_›
  rw [← toBanking_refreshed m]
  exact h.refreshed.coherent hclean addr

/-- **The fast tables stay coherent.** A fast read returns the byte of the decode, a fast write stores to
    the byte the decode writes and changes nothing else, and the pointers of the tables are the decode's
    and lead inside their stores. -/
theorem fast_tables_coherent (h : m.Reachable) (addr : UInt16) :
    (m.fastRead addr).1 = some (m.read addr) ∧
    (∀ val, ∃ m', m.fastWrite addr val = some m' ∧ m'.untabled = (m.pokeCpu addr val).untabled) ∧
    (slotPtr m.refreshed.rdBank addr = some (m.readPtr addr) ∧ m.Inside (m.readPtr addr)) ∧
    (slotPtr m.refreshed.wrBank addr = some (m.bankedPtr addr) ∧ m.Inside (m.bankedPtr addr)) := by
  have hv := h.valid
  obtain ⟨hrd, hwr⟩ := hv.slotPtr_refreshed addr
  refine ⟨?_, fun val => ?_, ⟨hrd, hv.wired.readPtr_inside addr⟩, hwr, hv.wired.bankedPtr_inside addr⟩
  · rw [fastRead, hrd, Option.map_some, deref_refreshed, read]
  · refine ⟨m.refreshed.put (m.bankedPtr addr) val, by rw [fastWrite, hwr, Option.map_some], ?_⟩
    rw [pokeCpu, untabled_put, untabled_put, untabled_refreshed]

/-- A memory with 64K of expansion RAM, whose first page the PAL has put into slot 1. -/
def paged : Mem :=
  (({ heap := fun _ => List.replicate 0x10000 0 } : Mem).attachExpansion (some ⟨.caller 0, 0⟩) 0x10000).ioWriteDecode 0x7FFF
    0xC4 false

theorem paged_reachable : paged.Reachable := by
  refine .ioWrite _ _ _ (.attachExpansion _ _ (fun p hp => ?_) (.init _))
  obtain rfl := Option.some.inj hp
  exact Nat.le_of_eq List.length_replicate.symm

/-- A byte written through the tables into the expansion is read back through them. -/
theorem fast_tables_paged :
    ∃ m, paged.fastWrite 0x4005 0xAA = some m ∧ m.readPtr 0x4005 = ⟨.caller 0, 5⟩ ∧ (m.fastRead 0x4005).1 = some 0xAA := by
  obtain ⟨m, hm⟩ : ∃ m, paged.fastWrite 0x4005 0xAA = some m := ⟨_, rfl⟩
  have hread := (fast_tables_coherent (.fastWrite _ _ hm paged_reachable) 0x4005).1
  -- what is left of the read is the byte that the write stored
  obtain rfl := Option.some.inj hm
  exact ⟨_, rfl, rfl, hread⟩

end Mem

end Koncepcja.Memory
