import Mathlib.Data.Nat.Digits.Defs
import Mathlib.Data.Nat.Digits.Lemmas

/-!
# Numbers as Digits

Numbers written with the digits `0` to `9` and `A` to `F`, most significant first, and read in either case.

## Main results

- `read_write`: a number that was written is read again.
- `write_digits`: which characters are written.
-/

namespace Koncepcja.Radix

def digitChar (d : Nat) : Char := Char.ofNat (if d < 10 then 0x30 + d else 0x37 + d)

def digitValue (c : Char) : Nat :=
  if c.isDigit then c.toNat - 0x30 else if c.isLower then c.toNat - 0x57 else c.toNat - 0x37

/-- The digits of a number; none of them is a leading zero unless it is the number. -/
def write (base n : Nat) : List Char := if n = 0 then [digitChar 0] else (Nat.digits base n).reverse.map digitChar

def read (base : Nat) (digits : List Char) : Nat := digits.foldl (fun n c => n * base + digitValue c) 0

theorem digitValue_digitChar {d : Nat} (h : d < 16) : digitValue (digitChar d) = d := by
  have hall : ∀ d < 16, digitValue (digitChar d) = d := by decide
  exact hall d h

theorem write_ne_nil (base n : Nat) : write base n ≠ [] := by
  rw [write]
  by_cases h : n = 0
  · rw [if_pos h]
    exact List.cons_ne_nil _ _
  · rw [if_neg h]
    intro hnil
    exact Nat.digits_ne_nil_iff_ne_zero.mpr h (List.reverse_eq_nil_iff.mp (List.map_eq_nil_iff.mp hnil))

/-- Every character that is written is the digit of a number below the base. -/
theorem write_digits {base n : Nat} (hbase : 1 < base) {c : Char} (h : c ∈ write base n) : ∃ d < base, c = digitChar d := by
  rw [write] at h
  by_cases hn : n = 0
  · rw [if_pos hn] at h
    exact ⟨0, by omega, List.mem_singleton.mp h⟩
  · rw [if_neg hn] at h
    obtain ⟨d, hd, rfl⟩ := List.mem_map.mp h
    exact ⟨d, Nat.digits_lt_base hbase (List.mem_reverse.mp hd), rfl⟩

theorem read_write {base : Nat} (hbase : 1 < base) (hsixteen : base ≤ 16) (n : Nat) : read base (write base n) = n := by
  rw [read, write]
  by_cases hn : n = 0
  · rw [if_pos hn, hn]
    simp [digitValue_digitChar (show 0 < 16 by decide)]
  · have hlt : ∀ d ∈ Nat.digits base n, d < base := fun d hd => Nat.digits_lt_base hbase hd
    have hfold : ∀ ds : List Nat, (∀ d ∈ ds, d < base) →
        ds.foldr (fun d m => m * base + digitValue (digitChar d)) 0 = Nat.ofDigits base ds := by
      intro ds
      induction ds with
      | nil => exact fun _ => rfl
      | cons d ds ih =>
        intro hds
        have hd : d < 16 := Nat.lt_of_lt_of_le (hds d List.mem_cons_self) hsixteen
        rw [List.foldr_cons, ih fun e he => hds e (List.mem_cons_of_mem d he), digitValue_digitChar hd,
          Nat.ofDigits_cons, Nat.mul_comm, Nat.add_comm]
    rw [if_neg hn, List.foldl_map, List.foldl_reverse, hfold _ hlt, Nat.ofDigits_digits]

end Koncepcja.Radix
