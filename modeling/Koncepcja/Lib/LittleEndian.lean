import Mathlib.Data.List.Basic
import Mathlib.Tactic.Ring

/-!
# Little-Endian Numbers

A number as a fixed number of bytes, the low one first, and back.

## Main results

- `ofLe_leBytes`: the bytes give the number back, less what does not fit in them.
-/

namespace Koncepcja.Bytes

/-- The `n` low bytes of a number, the low one first. -/
def leBytes : Nat → Nat → List UInt8
  | 0, _ => []
  | n + 1, v => UInt8.ofNat v :: leBytes n (v / 256)

/-- The number that bytes stand for. -/
def ofLe : List UInt8 → Nat
  | [] => 0
  | b :: bytes => b.toNat + 256 * ofLe bytes

@[simp] theorem leBytes_length (n v : Nat) : (leBytes n v).length = n := by
  induction n generalizing v with
  | zero => rfl
  | succ n ih => rw [leBytes, List.length_cons, ih]

theorem ofLe_leBytes (n v : Nat) : ofLe (leBytes n v) = v % 256 ^ n := by
  induction n generalizing v with
  | zero => rw [leBytes, ofLe, Nat.pow_zero, Nat.mod_one]
  | succ n ih =>
    calc
      ofLe (leBytes (n + 1) v) = v % 256 + 256 * (v / 256 % 256 ^ n) := by
        rw [leBytes, ofLe, ih, UInt8.toNat_ofNat']
      _ = v % (256 * 256 ^ n) := (Nat.mod_mul).symm
      _ = v % 256 ^ (n + 1) := by rw [Nat.pow_succ, Nat.mul_comm]

theorem ofLe_leBytes_of_lt {n v : Nat} (h : v < 256 ^ n) : ofLe (leBytes n v) = v := by
  rw [ofLe_leBytes, Nat.mod_eq_of_lt h]

/-! ## Fields of two, three and four bytes -/

def le16 (n : Nat) : List UInt8 := leBytes 2 n

def le24 (n : Nat) : List UInt8 := leBytes 3 n

def le32 (n : Nat) : List UInt8 := leBytes 4 n

theorem le16_eq (n : Nat) : le16 n = [UInt8.ofNat n, UInt8.ofNat (n / 256)] := rfl

theorem le24_eq (n : Nat) : le24 n = [UInt8.ofNat n, UInt8.ofNat (n / 256), UInt8.ofNat (n / 256 / 256)] := rfl

@[simp] theorem le16_length (n : Nat) : (le16 n).length = 2 := rfl

@[simp] theorem le24_length (n : Nat) : (le24 n).length = 3 := rfl

@[simp] theorem le32_length (n : Nat) : (le32 n).length = 4 := rfl

end Koncepcja.Bytes
