import Koncepcja.Lib.Bits

/-!
# Packing Bits into Bytes

A packer takes bits one by one and fills bytes with them, the most significant bit first. What is left of the last byte
is zero.

## Main results

- `byteBit_foldl_shiftInByte`: a byte holds the last eight bits that were shifted into it.
- `Packs.add`: one more bit.
- `unpack_finish`: what was packed unpacks.
-/

namespace Koncepcja.Bits

/-- The full bytes, the bits of the next one at its low end, and how many these are. -/
structure Packer where
  packed : List UInt8 := []
  cur : UInt8 := 0
  nbits : Nat := 0

namespace Packer

/-- Takes a bit. -/
def add (p : Packer) (b : Bool) : Packer :=
  if p.nbits + 1 = 8 then { packed := p.packed ++ [shiftInByte p.cur b] }
  else { p with cur := shiftInByte p.cur b, nbits := p.nbits + 1 }

/-- The bytes, with the bits of the last at its high end. -/
def finish (p : Packer) : List UInt8 :=
  if p.nbits ≠ 0 then p.packed ++ [p.cur <<< UInt8.ofNat (8 - p.nbits)] else p.packed

end Packer

/-! ## One byte -/

theorem byteBit_shiftInByte (v : UInt8) (b : Bool) {i : Nat} (hi : i < 8) :
    byteBit (shiftInByte v b) i = if i = 7 then b else byteBit v (i + 1) := by
  have hor : (shiftInByte v b).toBitVec = (v.toBitVec <<< 1) ||| (if b then 1#8 else 0#8) := by
    unfold shiftInByte
    rw [UInt8.toBitVec_or]
    cases b <;> rfl
  rw [byteBit, hor, BitVec.getLsbD_or, BitVec.getLsbD_shiftLeft]
  by_cases h7 : i = 7
  · subst h7
    cases b <;> simp
  · have hone : (if b then 1#8 else 0#8).getLsbD (7 - i) = false := by
      cases b
      · simp
      · have hne : 7 - i ≠ 0 := by omega
        simp [BitVec.getLsbD_one, hne]
    rw [hone, Bool.or_false, if_neg h7, byteBit, show 7 - (i + 1) = 7 - i - 1 by omega]
    have hlt : 7 - i < 8 := by omega
    have hge : ¬7 - i < 1 := by omega
    simp [hlt, hge]

/-- The last bits shifted in are at the low end. -/
theorem byteBit_foldl_shiftInByte (l : List Bool) (v : UInt8) {i : Nat} (hi : i < 8) (hlen : l.length ≤ 8) :
    byteBit (l.foldl shiftInByte v) i =
      if i + l.length < 8 then byteBit v (i + l.length) else l.getD (i + l.length - 8) false := by
  induction l using List.reverseRecOn generalizing i with
  | nil => rw [List.foldl_nil, List.length_nil, Nat.add_zero, if_pos hi]
  | append_singleton l b ih =>
    rw [List.length_append, List.length_singleton] at hlen
    rw [List.foldl_append, List.foldl_cons, List.foldl_nil, byteBit_shiftInByte _ _ hi, List.length_append,
      List.length_singleton]
    by_cases h7 : i = 7
    · rw [if_pos h7, if_neg (by omega), List.getD_append_right _ _ _ _ (by omega)]
      rw [show i + (l.length + 1) - 8 - l.length = 0 by omega]
      rfl
    · rw [if_neg h7, ih (by omega) (by omega), show i + 1 + l.length = i + (l.length + 1) by omega]
      split
      · rfl
      · rw [List.getD_append _ _ _ _ (by omega)]

theorem byteBit_shiftLeft (v : UInt8) {n i : Nat} (hn : n ≤ 7) (hi : i + n < 8) :
    byteBit (v <<< UInt8.ofNat n) i = byteBit v (i + n) := by
  have hcount : (UInt8.ofNat n).toBitVec % 8 = BitVec.ofNat 8 n :=
    (by decide : ∀ n < 8, (UInt8.ofNat n).toBitVec % 8 = BitVec.ofNat 8 n) n (by omega)
  have hnat : (BitVec.ofNat 8 n).toNat = n := Nat.mod_eq_of_lt (by omega)
  rw [byteBit, byteBit, UInt8.toBitVec_shiftLeft, hcount, BitVec.shiftLeft_eq', hnat, BitVec.getLsbD_shiftLeft]
  have hlt : 7 - i < 8 := by omega
  have hge : ¬7 - i < n := by omega
  simp only [hlt, hge, decide_true, decide_false, Bool.not_false, Bool.and_self, Bool.true_and]
  congr 1
  omega

/-! ## Buffers -/

theorem bitAt_append_left {packed : List UInt8} {i : Nat} (h : i < 8 * packed.length) (tail : List UInt8) :
    bitAt (packed ++ tail) i = bitAt packed i := by
  rw [bitAt, bitAt, List.getD_append _ _ _ _ (by omega)]

theorem bitAt_append_byte (packed : List UInt8) (v : UInt8) {i : Nat} (hi : i < 8) :
    bitAt (packed ++ [v]) (8 * packed.length + i) = byteBit v i := by
  rw [bitAt, List.getD_append_right _ _ _ _ (by omega), show (8 * packed.length + i) / 8 - packed.length = 0 by omega,
    show (8 * packed.length + i) % 8 = i by omega]
  rfl

theorem unpack_append_byte {packed : List UInt8} {full part : List Bool} {v : UInt8}
    (hlen : full.length = 8 * packed.length) (hfull : unpack packed full.length = full) (hpart : part.length ≤ 8)
    (hv : ∀ i < part.length, byteBit v i = part.getD i false) :
    unpack (packed ++ [v]) (full ++ part).length = full ++ part := by
  refine List.ext_getElem (unpack_length _ _) fun i hi hi' => ?_
  rw [unpack_getElem]
  by_cases hlt : i < full.length
  · have hbit := unpack_getElem packed full.length i (by rwa [unpack_length])
    rw [bitAt_append_left (by omega), List.getElem_append_left hlt, ← hbit]
    simp only [hfull]
  · rw [List.length_append] at hi'
    have hbit := bitAt_append_byte packed v (by omega : i - full.length < 8)
    rw [show 8 * packed.length + (i - full.length) = i by omega, hv _ (by omega),
      List.getD_eq_getElem _ _ (by omega)] at hbit
    rw [hbit, List.getElem_append_right (by omega)]

/-! ## The packer -/

/-- The packer has taken these bits. -/
structure Packs (bits : List Bool) (p : Packer) : Prop where
  split : ∃ full part, bits = full ++ part ∧ full.length = 8 * p.packed.length ∧
    unpack p.packed full.length = full ∧ part.length = p.nbits ∧ p.cur = part.foldl shiftInByte 0
  nbits_lt : p.nbits < 8

theorem packs_nil : Packs [] {} := ⟨⟨[], [], rfl, rfl, rfl, rfl, rfl⟩, by decide⟩

theorem Packs.add {bits : List Bool} {p : Packer} (h : Packs bits p) (b : Bool) : Packs (bits ++ [b]) (p.add b) := by
  obtain ⟨⟨full, part, rfl, hlen, hfull, hpart, hcur⟩, hlt⟩ := h
  have hcur' : shiftInByte p.cur b = (part ++ [b]).foldl shiftInByte 0 := by
    rw [List.foldl_append, ← hcur]
    rfl
  have hpart' : (part ++ [b]).length = p.nbits + 1 := by rw [List.length_append, hpart, List.length_singleton]
  rw [List.append_assoc, Packer.add]
  split
  · next h8 =>
    -- The byte is full: all eight bits are its own.
    have hv : ∀ i < (part ++ [b]).length, byteBit (shiftInByte p.cur b) i = (part ++ [b]).getD i false := by
      intro i hi
      rw [hcur', byteBit_foldl_shiftInByte _ _ (by omega) (by omega), if_neg (by omega)]
      congr 1
      omega
    refine ⟨⟨full ++ (part ++ [b]), [], (List.append_nil _).symm, ?_, ?_, rfl, rfl⟩, Nat.zero_lt_succ 7⟩
    · rw [List.length_append, hlen, hpart', h8, List.length_append, List.length_singleton]
      omega
    · exact unpack_append_byte hlen hfull (by omega) hv
  · exact ⟨⟨full, part ++ [b], rfl, hlen, hfull, hpart', hcur'⟩, by
      show p.nbits + 1 < 8
      omega⟩

/-- What was packed unpacks. -/
theorem Packs.unpack_finish {bits : List Bool} {p : Packer} (h : Packs bits p) : unpack p.finish bits.length = bits := by
  obtain ⟨⟨full, part, rfl, hlen, hfull, hpart, hcur⟩, hlt⟩ := h
  rw [Packer.finish]
  split
  · refine unpack_append_byte hlen hfull (by omega) fun i hi => ?_
    rw [byteBit_shiftLeft _ (by omega) (by omega), hcur, byteBit_foldl_shiftInByte _ _ (by omega) (by omega),
      if_neg (by omega)]
    congr 1
    omega
  · next h0 =>
    have hnil : part = [] := List.eq_nil_of_length_eq_zero (by omega)
    rw [hnil, List.append_nil]
    exact hfull

theorem Packs.finish_length {bits : List Bool} {p : Packer} (h : Packs bits p) :
    p.finish.length = (bits.length + 7) / 8 := by
  obtain ⟨⟨full, part, rfl, hlen, -, hpart, -⟩, hlt⟩ := h
  rw [Packer.finish, List.length_append]
  split
  · rw [List.length_append, List.length_singleton]
    omega
  · omega

end Koncepcja.Bits
