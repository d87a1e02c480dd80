import Koncepcja.Lib.ByteBuf

/-!
# Files That Are Written

A file that is open for writing: its bytes and the position of the next write. A write behind the end fills
the gap with zeros.

## Main results

- `slice_put_self`: what was written is there.
- `slice_put_of_le`, `slice_put_of_ge`: a write leaves what lies ahead of it and behind it.
- `put_at_end`: a write at the end appends.
-/

namespace Koncepcja

open Bytes

structure OutFile where
  bytes : List UInt8 := []
  pos : Nat := 0
  deriving DecidableEq, Repr

namespace OutFile

/-- Write at the position. -/
def put (f : OutFile) (block : List UInt8) : OutFile where
  bytes := overwrite (growTo f.bytes f.pos 0) f.pos block
  pos := f.pos + block.length

def seek (f : OutFile) (pos : Nat) : OutFile := { f with pos := pos }

def seekEnd (f : OutFile) : OutFile := { f with pos := f.bytes.length }

variable {f : OutFile} {block : List UInt8} {off len : Nat}

theorem pos_le_growTo (f : OutFile) : f.pos ≤ (growTo f.bytes f.pos 0).length := by
  rw [growTo_length]
  exact Nat.le_max_right _ _

theorem put_pos (f : OutFile) (block : List UInt8) : (f.put block).pos = f.pos + block.length := rfl

theorem put_length (f : OutFile) (block : List UInt8) :
    (f.put block).bytes.length = max f.bytes.length (f.pos + block.length) := by
  have hgrown := growTo_length f.bytes f.pos 0
  show (overwrite _ _ _).length = _
  rw [overwrite, List.length_append, List.length_append, List.length_take, List.length_drop, hgrown]
  omega

theorem slice_put_self (f : OutFile) (block : List UInt8) : slice (f.put block).bytes f.pos block.length = block :=
  slice_overwrite_self block (pos_le_growTo f)

theorem slice_put_of_le (h : off + len ≤ f.pos) (hin : off + len ≤ f.bytes.length) :
    slice (f.put block).bytes off len = slice f.bytes off len := by
  refine (slice_overwrite_of_le block h (pos_le_growTo f)).trans ?_
  exact slice_growTo_of_le f.bytes f.pos 0 hin

theorem slice_put_of_ge (h : f.pos + block.length ≤ off) (hin : off + len ≤ f.bytes.length) :
    slice (f.put block).bytes off len = slice f.bytes off len := by
  refine (slice_overwrite_of_ge block h (pos_le_growTo f)).trans ?_
  exact slice_growTo_of_le f.bytes f.pos 0 hin

/-- A write at the end appends. -/
theorem put_at_end (h : f.pos = f.bytes.length) : (f.put block).bytes = f.bytes ++ block := by
  have hgrown : growTo f.bytes f.pos 0 = f.bytes := by
    rw [growTo, h, Nat.sub_self, List.replicate_zero, List.append_nil]
  show overwrite _ _ _ = _
  rw [hgrown, overwrite, h, List.take_length, List.drop_eq_nil_of_le (Nat.le_add_right _ _), List.append_nil]

theorem put_pos_at_end (h : f.pos = f.bytes.length) : (f.put block).pos = (f.put block).bytes.length := by
  rw [put_at_end h, List.length_append, ← h]
  rfl

end OutFile

end Koncepcja
