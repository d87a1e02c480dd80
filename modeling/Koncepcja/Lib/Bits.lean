import Mathlib.Algebra.GroupWithZero.Nat
import Mathlib.Data.List.Basic
import Mathlib.Data.List.GetD
import Mathlib.Data.List.Induction
import Mathlib.Tactic.Common

/-!
# Packed Bit Streams

Byte buffers read as streams of bits, most significant bit of the first byte first, and the
16-bit shift register that slides over such a stream.

## Main results

- `shiftIn_foldl_getLsbD`: the register holds the last sixteen bits that went through it.
- `bitAt_set` and `bitAt_append`: how a packed buffer's bits move under the two updates a writer makes.
-/

namespace Koncepcja.Bits

/-! ## Bits of bytes and words -/

/-- Bit `i` of a byte, counted from the most significant. -/
def byteBit (b : UInt8) (i : Nat) : Bool := b.toBitVec.getLsbD (7 - i)

/-- The eight bits of a byte, most significant first. -/
def byteBits (b : UInt8) : List Bool := (List.range 8).map (byteBit b)

/-- The sixteen bits of a word, most significant first. -/
def wordBits (w : UInt16) : List Bool := (List.range 16).map fun i => w.toBitVec.getLsbD (15 - i)

/-- Shift one bit into the low end of a 16-bit register. -/
def shiftIn (sr : UInt16) (b : Bool) : UInt16 := (sr <<< 1) ||| (if b then 1 else 0)

/-- Shift one bit into the low end of a byte. -/
def shiftInByte (v : UInt8) (b : Bool) : UInt8 := (v <<< 1) ||| (if b then 1 else 0)

@[simp] theorem byteBits_length (b : UInt8) : (byteBits b).length = 8 := by simp [byteBits]

@[simp] theorem wordBits_length (w : UInt16) : (wordBits w).length = 16 := by simp [wordBits]

theorem byteBits_foldl (b : UInt8) : (byteBits b).foldl shiftInByte 0 = b := by
  obtain ⟨v⟩ := b
  revert v
  decide

theorem shiftIn_getLsbD (sr : UInt16) (b : Bool) (i : Nat) (hi : i < 16) :
    (shiftIn sr b).toBitVec.getLsbD i = if i = 0 then b else sr.toBitVec.getLsbD (i - 1) := by
  have hsh : (sr <<< 1).toBitVec = sr.toBitVec <<< 1 := by
    simp [UInt16.toBitVec_shiftLeft]
  have hor : (shiftIn sr b).toBitVec = (sr.toBitVec <<< 1) ||| (if b then 1#16 else 0#16) := by
    unfold shiftIn
    rw [UInt16.toBitVec_or, hsh]
    cases b <;> rfl
  rw [hor, BitVec.getLsbD_or, BitVec.getLsbD_shiftLeft]
  by_cases h0 : i = 0
  · subst h0
    cases b <;> simp
  · have hone : (if b then 1#16 else 0#16).getLsbD i = false := by
      cases b
      · simp
      · simp [BitVec.getLsbD_one, h0]
    simp only [hone, Bool.or_false, h0, if_false]
    have : ¬ i < 1 := by omega
    simp [hi, this]

/-- **The register remembers the last sixteen bits**: bit `i` of it is the `i`-th last bit shifted
    in, or what it held before when fewer bits went through. -/
theorem shiftIn_foldl_getLsbD (l : List Bool) (sr : UInt16) (i : Nat) (hi : i < 16) :
    (l.foldl shiftIn sr).toBitVec.getLsbD i =
      if h : i < l.length then l[l.length - 1 - i] else sr.toBitVec.getLsbD (i - l.length) := by
  induction l using List.reverseRecOn generalizing i with
  | nil => simp
  | append_singleton l b ih =>
    rw [List.foldl_append, List.foldl_cons, List.foldl_nil, shiftIn_getLsbD _ _ _ hi]
    by_cases h0 : i = 0
    · subst h0
      simp
    · have hprev := ih (i - 1) (by omega)
      simp only [h0, if_false, hprev, List.length_append, List.length_singleton]
      by_cases hlt : i - 1 < l.length
      · have hlt' : i < l.length + 1 := by omega
        simp only [hlt, hlt', dif_pos]
        have hidx : l.length + 1 - 1 - i = l.length - 1 - (i - 1) := by omega
        rw [List.getElem_append_left (by omega)]
        simp only [hidx]
      · have hlt' : ¬ i < l.length + 1 := by omega
        simp only [hlt, hlt', dif_neg, not_false_eq_true]
        congr 1
        omega

theorem wordBits_getElem (w : UInt16) (i : Nat) (hi : i < (wordBits w).length) :
    (wordBits w)[i] = w.toBitVec.getLsbD (15 - i) := by
  simp [wordBits]

theorem wordBits_foldl (w sr : UInt16) : (wordBits w).foldl shiftIn sr = w := by
  apply UInt16.eq_of_toBitVec_eq
  apply BitVec.eq_of_getLsbD_eq
  intro i hi
  rw [shiftIn_foldl_getLsbD _ _ _ hi, dif_pos (by simp; omega), wordBits_getElem]
  congr 1
  simp only [wordBits_length]
  omega

/-! ## Packed buffers -/

/-- Bit `i` of a packed buffer; `false` past its end. -/
def bitAt (bits : List UInt8) (i : Nat) : Bool := byteBit (bits.getD (i / 8) 0) (i % 8)

/-- The byte with only bit `i` (counted from the most significant) set. -/
def bitMask (i : Nat) : UInt8 := 0x80 >>> (UInt8.ofNat i)

theorem byteBit_or (a b : UInt8) (i : Nat) : byteBit (a ||| b) i = (byteBit a i || byteBit b i) := by
  simp [byteBit]

theorem byteBit_zero (i : Nat) : byteBit 0 i = false := by simp [byteBit]

theorem byteBit_bitMask (i j : Nat) (hi : i < 8) (hj : j < 8) :
    byteBit (bitMask i) j = decide (i = j) := by
  have key : ∀ i : Fin 8, ∀ j : Fin 8, byteBit (bitMask i.val) j.val = decide (i.val = j.val) := by
    decide
  exact key ⟨i, hi⟩ ⟨j, hj⟩

theorem bitAt_of_length_le (bits : List UInt8) (i : Nat) (h : 8 * bits.length ≤ i) :
    bitAt bits i = false := by
  have hlen : bits.length ≤ i / 8 := by omega
  rw [bitAt, List.getD_eq_default _ _ hlen, byteBit_zero]

theorem bitAt_append_zero (bits : List UInt8) (i : Nat) : bitAt (bits ++ [0]) i = bitAt bits i := by
  unfold bitAt
  by_cases h : i / 8 < bits.length
  · rw [List.getD_append _ _ _ _ h]
  · rw [List.getD_append_right _ _ _ _ (by omega), List.getD_eq_default bits 0 (by omega)]
    congr 1
    rcases Nat.eq_zero_or_pos (i / 8 - bits.length) with h0 | h0
    · simp [h0]
    · rw [List.getD_eq_default _ _ (by simp only [List.length_singleton]; omega)]

theorem bitAt_modify (bits : List UInt8) (k i : Nat) (hk : k / 8 < bits.length) :
    bitAt (bits.modify (k / 8) (· ||| bitMask (k % 8))) i = (bitAt bits i || decide (i = k)) := by
  unfold bitAt
  by_cases hbyte : i / 8 = k / 8
  · have hget : (bits.modify (k / 8) (· ||| bitMask (k % 8))).getD (i / 8) 0 =
        bits.getD (i / 8) 0 ||| bitMask (k % 8) := by
      rw [hbyte]
      simp [List.getD_eq_getElem?_getD, List.getElem?_eq_getElem hk]
    rw [hget, byteBit_or, byteBit_bitMask _ _ (Nat.mod_lt _ (by decide)) (Nat.mod_lt _ (by decide))]
    congr 1
    rw [decide_eq_decide]
    omega
  · have hget : (bits.modify (k / 8) (· ||| bitMask (k % 8))).getD (i / 8) 0 = bits.getD (i / 8) 0 := by
      have hne : ¬ k / 8 = i / 8 := fun h => hbyte h.symm
      simp [List.getD_eq_getElem?_getD, hne]
    have hik : i ≠ k := fun h => hbyte (by rw [h])
    rw [hget]
    simp [hik]

/-- The first `n` bits of a packed buffer. -/
def unpack (bits : List UInt8) (n : Nat) : List Bool := (List.range n).map (bitAt bits)

@[simp] theorem unpack_length (bits : List UInt8) (n : Nat) : (unpack bits n).length = n := by
  simp [unpack]

theorem unpack_getElem (bits : List UInt8) (n i : Nat) (h : i < (unpack bits n).length) :
    (unpack bits n)[i] = bitAt bits i := by
  simp [unpack]

theorem unpack_succ (bits : List UInt8) (n : Nat) :
    unpack bits (n + 1) = unpack bits n ++ [bitAt bits n] := by
  simp [unpack, List.range_succ]

theorem unpack_congr {a b : List UInt8} {n : Nat} (h : ∀ i < n, bitAt a i = bitAt b i) :
    unpack a n = unpack b n := by
  unfold unpack
  apply List.map_congr_left
  intro i hi
  exact h i (List.mem_range.mp hi)

end Koncepcja.Bits
