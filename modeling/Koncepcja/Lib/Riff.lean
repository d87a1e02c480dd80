import Koncepcja.Lib.ByteBuf
import Koncepcja.Lib.LittleEndian

/-!
# RIFF

Chunks with a four-character name, a size and a pad byte where the size is odd, and lists of chunks, which
are chunks themselves that begin with the name of their kind.

## Main results

- `chunk_length`, `list_length`: how long they are.
- `list_head`: what stands ahead of a list's body.
- `slice_chunk`: the data of a chunk behind other bytes.
-/

namespace Koncepcja.Riff

open Bytes

/-- The byte behind data of an odd size. -/
def pad (data : List UInt8) : List UInt8 := if data.length % 2 = 1 then [0] else []

/-- A chunk; the size does not count the pad byte. -/
def chunk (id data : List UInt8) : List UInt8 := id ++ leBytes 4 data.length ++ data ++ pad data

/-- A list of a form (`RIFF` or `LIST`) and a kind. -/
def list (form kind body : List UInt8) : List UInt8 := form ++ leBytes 4 (kind.length + body.length) ++ kind ++ body

variable {id data form kind body : List UInt8}

theorem chunk_length (id data : List UInt8) :
    (chunk id data).length = id.length + 4 + data.length + data.length % 2 := by
  have hpad : (pad data).length = data.length % 2 := by
    rcases Nat.mod_two_eq_zero_or_one data.length with h | h
    · rw [pad, if_neg (by omega), h]
      rfl
    · rw [pad, if_pos h, h]
      rfl
  rw [chunk, List.length_append, List.length_append, List.length_append, leBytes_length, hpad]

/-- A list is its body behind a head. -/
theorem list_head (form kind body : List UInt8) :
    ∃ head, head.length = form.length + 4 + kind.length ∧ list form kind body = head ++ body := by
  refine ⟨form ++ leBytes 4 (kind.length + body.length) ++ kind, ?_, rfl⟩
  rw [List.length_append, List.length_append, leBytes_length]

/-- A part of the data of a chunk that begins behind `pre`. -/
theorem slice_chunk (pre post : List UInt8) {off len : Nat} (hid : id.length = 4) (h : off + len ≤ data.length) :
    slice (pre ++ chunk id data ++ post) (pre.length + 8 + off) len = slice data off len := by
  have hsplit : pre ++ chunk id data ++ post = (pre ++ id ++ leBytes 4 data.length) ++ (data ++ (pad data ++ post)) := by
    simp only [chunk, List.append_assoc]
  have hpre : (pre ++ id ++ leBytes 4 data.length).length = pre.length + 8 := by
    rw [List.length_append, List.length_append, leBytes_length, hid]
  rw [hsplit, ← hpre, slice, List.drop_length_add_append]
  exact slice_append_of_le data _ h

end Koncepcja.Riff
