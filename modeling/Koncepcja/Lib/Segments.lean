import Koncepcja.Lib.ByteBuf

/-!
# Buffers Made of Segments

A buffer as what comes before a segment, the segment and what comes after it. A write inside the segment leaves the rest
alone, and a read inside it is a read of the segment.

## Main results

- `overwrite_inside`, `overwrite_segment`: a write into the segment, and one of all of it.
- `overwriteAll_append`: one write after the other.
- `byteAt_inside`, `slice_inside`: the reads.
-/

namespace Koncepcja.Bytes

/-- One write after the other. -/
def overwriteAll (buf : List UInt8) (writes : List (Nat × List UInt8)) : List UInt8 :=
  writes.foldl (fun buf write => overwrite buf write.1 write.2) buf

/-- Every write lies inside a buffer of `n` bytes. -/
def WritesFit (n : Nat) (writes : List (Nat × List UInt8)) : Prop := ∀ write ∈ writes, write.1 + write.2.length ≤ n

section Segments

variable {pre seg post block : List UInt8} {off len : Nat} {writes : List (Nat × List UInt8)}

theorem overwrite_append (h : off + block.length ≤ seg.length) (post : List UInt8) :
    overwrite (seg ++ post) off block = overwrite seg off block ++ post := by
  rw [overwrite, overwrite, List.take_append_of_le_length (by omega), List.drop_append_of_le_length h]
  simp only [List.append_assoc]

theorem overwrite_prepend (pre : List UInt8) : overwrite (pre ++ seg) (pre.length + off) block = pre ++ overwrite seg off block := by
  rw [overwrite, overwrite, List.take_length_add_append, Nat.add_assoc, List.drop_length_add_append, List.append_assoc,
    List.append_assoc, List.append_assoc]

/-- A write inside the segment. -/
theorem overwrite_inside (pre post : List UInt8) (h : off + block.length ≤ seg.length) :
    overwrite (pre ++ (seg ++ post)) (pre.length + off) block = pre ++ (overwrite seg off block ++ post) := by
  rw [overwrite_prepend, overwrite_append h]

theorem overwrite_whole (h : block.length = seg.length) : overwrite seg 0 block = block := by
  rw [overwrite, List.take_zero, List.nil_append, Nat.zero_add, h, List.drop_length, List.append_nil]

/-- A write of the whole segment. -/
theorem overwrite_segment (pre post : List UInt8) (h : block.length = seg.length) :
    overwrite (pre ++ (seg ++ post)) pre.length block = pre ++ (block ++ post) := by
  have hfits : 0 + block.length ≤ seg.length := Nat.le_of_eq ((Nat.zero_add _).trans h)
  have hinside := overwrite_inside pre post hfits
  rw [overwrite_whole h, Nat.add_zero] at hinside
  exact hinside

theorem overwriteAll_append (h : WritesFit seg.length writes) (post : List UInt8) :
    overwriteAll (seg ++ post) writes = overwriteAll seg writes ++ post := by
  induction writes generalizing seg with
  | nil => rfl
  | cons write writes ih =>
    have hfits := h write List.mem_cons_self
    have hrest : WritesFit (overwrite seg write.1 write.2).length writes := by
      intro w hw
      rw [overwrite_length hfits]
      exact h w (List.mem_cons_of_mem _ hw)
    have hstep := ih hrest
    rw [← overwrite_append hfits] at hstep
    exact hstep

theorem byteAt_inside (pre post : List UInt8) (h : off < seg.length) :
    byteAt (pre ++ (seg ++ post)) (pre.length + off) = byteAt seg off := by
  rw [byteAt_append_of_ge _ _ (Nat.le_add_right _ _), Nat.add_sub_cancel_left, byteAt_append_of_lt _ _ h]

theorem slice_inside (pre post : List UInt8) (h : off + len ≤ seg.length) :
    slice (pre ++ (seg ++ post)) (pre.length + off) len = slice seg off len := by
  rw [slice, List.drop_length_add_append]
  exact slice_append_of_le seg post h

end Segments

end Koncepcja.Bytes
