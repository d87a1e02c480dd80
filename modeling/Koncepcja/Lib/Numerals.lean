import Mathlib.Data.List.TakeWhile
import Mathlib.Data.Nat.Digits.Lemmas

/-!
# Numerals

The numbers that a text begins with, as `std::strtoul` reads them in base 0: after blanks and a sign a numeral that
begins with `0x` is hexadecimal, one that begins with `0` octal and any other decimal. What follows the numeral is not
read.

## Main results

- `strtoul_decimal`: a number that was written in decimal is read again.
-/

namespace Koncepcja.Numerals

/-- The value of a digit of any base. What is no digit has none. -/
def digitValue (c : UInt8) : Nat :=
  if 0x30 ≤ c ∧ c ≤ 0x39 then c.toNat - 0x30
  else if 0x61 ≤ c ∧ c ≤ 0x7A then c.toNat - 0x57
  else if 0x41 ≤ c ∧ c ≤ 0x5A then c.toNat - 0x37
  else 36

/-- The value of the digits that a text begins with. -/
def digitsValue (base : Nat) (s : List UInt8) : Nat :=
  (s.takeWhile fun c => digitValue c < base).foldl (fun n c => n * base + digitValue c) 0

def isspace (c : UInt8) : Bool := c = 0x20 ∨ (0x09 ≤ c ∧ c ≤ 0x0D)

/-- Whether a text begins with `0x` and a digit. -/
def isHex : List UInt8 → Bool
  | 0x30 :: x :: d :: _ => decide ((x = 0x78 ∨ x = 0x58) ∧ digitValue d < 16)
  | _ => false

/-- The value of a text without a sign. -/
def magnitude (s : List UInt8) : Nat :=
  if isHex s then digitsValue 16 (s.drop 2)
  else if s.head? = some 0x30 then digitsValue 8 s
  else digitsValue 10 s

/-- `std::strtoul` in base 0, for a `long` of 64 bits. -/
def strtoul (token : List UInt8) : Nat :=
  let s := token.dropWhile isspace
  let n := magnitude (if s.head? = some 0x2D ∨ s.head? = some 0x2B then s.drop 1 else s)
  if 2 ^ 64 ≤ n then 2 ^ 64 - 1
  else if s.head? = some 0x2D then (2 ^ 64 - n) % 2 ^ 64
  else n

/-- A number in decimal. -/
def decimal (n : Nat) : List UInt8 :=
  if n = 0 then [0x30] else (Nat.digits 10 n).reverse.map fun d => UInt8.ofNat (0x30 + d)

/-! ## Reading what was written -/

theorem digitValue_ofNat {d : Nat} (h : d < 10) : digitValue (UInt8.ofNat (0x30 + d)) = d := by
  have hall : ∀ d < 10, digitValue (UInt8.ofNat (0x30 + d)) = d := by decide
  exact hall d h

theorem mem_decimal {n : Nat} {c : UInt8} (h : c ∈ decimal n) : ∃ d < 10, c = UInt8.ofNat (0x30 + d) := by
  unfold decimal at h
  split at h
  · exact ⟨0, by decide, List.mem_singleton.mp h⟩
  · obtain ⟨d, hd, rfl⟩ := List.mem_map.mp h
    exact ⟨d, Nat.digits_lt_base (by decide) (List.mem_reverse.mp hd), rfl⟩

theorem decimal_ne_nil (n : Nat) : decimal n ≠ [] := by
  unfold decimal
  split
  · exact List.cons_ne_nil _ _
  · rename_i hn
    rw [ne_eq, List.map_eq_nil_iff, List.reverse_eq_nil_iff, Nat.digits_eq_nil_iff_eq_zero]
    exact hn

theorem digitsValue_decimal (n : Nat) : digitsValue 10 (decimal n) = n := by
  have hall : ∀ c ∈ decimal n, decide (digitValue c < 10) = true := fun c hc => by
    obtain ⟨d, hd, rfl⟩ := mem_decimal hc
    rw [digitValue_ofNat hd]
    exact decide_eq_true hd
  rw [digitsValue, List.takeWhile_eq_self_iff.mpr hall]
  unfold decimal
  split
  · rename_i hn
    rw [hn]
    rfl
  · -- Horner's rule, from the highest digit on.
    have hfold (ds : List Nat) (h : ∀ d ∈ ds, d < 10) :
        (ds.reverse.map fun d => UInt8.ofNat (0x30 + d)).foldl (fun n c => n * 10 + digitValue c) 0 =
          Nat.ofDigits 10 ds := by
      induction ds with
      | nil => rfl
      | cons d ds ih =>
        rw [List.reverse_cons, List.map_append, List.foldl_append, ih fun x hx => h x (List.mem_cons_of_mem d hx),
          Nat.ofDigits_cons]
        rw [List.map_singleton, List.foldl_cons, List.foldl_nil, digitValue_ofNat (h d List.mem_cons_self)]
        rw [Nat.mul_comm, Nat.add_comm]
    rw [hfold _ fun d hd => Nat.digits_lt_base (by decide) hd, Nat.ofDigits_digits]

theorem head?_decimal {n : Nat} (hn : n ≠ 0) : (decimal n).head? ≠ some 0x30 := by
  rw [decimal, if_neg hn, List.head?_map, List.head?_reverse]
  intro h
  obtain ⟨d, hd, hzero⟩ := Option.map_eq_some_iff.mp h
  have hlt : d < 10 := Nat.digits_lt_base (by decide) (List.mem_of_getLast? hd)
  have hne : Nat.digits 10 n ≠ [] := Nat.digits_ne_nil_iff_ne_zero.mpr hn
  rw [List.getLast?_eq_some_getLast hne] at hd
  have hlast := Nat.getLast_digit_ne_zero 10 hn
  rw [Option.some.inj hd] at hlast
  have hd0 := digitValue_ofNat hlt
  rw [hzero] at hd0
  exact hlast hd0.symm

theorem magnitude_decimal (n : Nat) : magnitude (decimal n) = n := by
  by_cases hn : n = 0
  · subst hn
    decide
  · have hhead := head?_decimal hn
    have hhex : isHex (decimal n) = false := by
      unfold isHex
      split
      · rename_i heq
        rw [heq] at hhead
        exact absurd rfl hhead
      · rfl
    rw [magnitude, hhex, if_neg Bool.false_ne_true, if_neg hhead, digitsValue_decimal]

/-- A number that was written in decimal is read again. -/
theorem strtoul_decimal {n : Nat} (h : n < 2 ^ 64) : strtoul (decimal n) = n := by
  obtain ⟨c, s, hs⟩ := List.exists_cons_of_ne_nil (decimal_ne_nil n)
  obtain ⟨d, hd, hc⟩ : ∃ d < 10, c = UInt8.ofNat (0x30 + d) := mem_decimal (by rw [hs]; exact List.mem_cons_self)
  have hdigit : isspace c = false ∧ c ≠ 0x2D ∧ c ≠ 0x2B := by
    have hall : ∀ d < 10, isspace (UInt8.ofNat (0x30 + d)) = false ∧ UInt8.ofNat (0x30 + d) ≠ 0x2D ∧
        UInt8.ofNat (0x30 + d) ≠ 0x2B := by decide
    rw [hc]
    exact hall d hd
  have hblank : (decimal n).dropWhile isspace = decimal n := by
    rw [hs, List.dropWhile_cons_of_neg (by rw [hdigit.1]; exact Bool.false_ne_true)]
  have hminus : (decimal n).head? ≠ some 0x2D := by
    rw [hs]
    exact fun h => hdigit.2.1 (Option.some.inj h)
  have hplus : (decimal n).head? ≠ some 0x2B := by
    rw [hs]
    exact fun h => hdigit.2.2 (Option.some.inj h)
  rw [strtoul, hblank, if_neg (not_or.mpr ⟨hminus, hplus⟩), magnitude_decimal, if_neg (not_le.mpr h), if_neg hminus]

end Koncepcja.Numerals
