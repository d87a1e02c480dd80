import Koncepcja.Tape.Ordinals
import Koncepcja.Tape.Playback

/-!
# The Walker on Stored Tapes

`tape_cdt_block_len` of `src/hw/tape.cpp` on the stored form of a block, and the walk of `tape_seek` over the image of a
list of blocks.

## Main results

- `tapeCdtBlockLen_encode`: a stored block has the length that it is stored in.
- `walk_encodeTape`: the walk over an image comes to each of its blocks, and to its end.
-/

namespace Koncepcja.Tape

open Koncepcja.Bytes

section Fields

variable {front tail rest : List UInt8} {i n : Nat}

theorem cdtByte_append (hlen : (front ++ tail).length < 2 ^ 32) (hi : i < tail.length) :
    cdtByte (front ++ tail) (front.length + i) = byteAt tail i := by
  have hlen' := hlen
  rw [List.length_append] at hlen'
  rw [cdtByte_eq hlen, u32_of_lt (by omega), byteAt_append_of_ge _ _ (by omega), Nat.add_sub_cancel_left]

theorem cdtByte_of_drop (hlen : (front ++ tail).length < 2 ^ 32) {b : UInt8} (hi : tail.drop i = b :: rest) :
    cdtByte (front ++ tail) (front.length + i) = b := by
  obtain ⟨hlt, hb⟩ := byteAt_of_drop hi
  rw [cdtByte_append hlen hlt, hb]

theorem cdtWord_of_drop (hlen : (front ++ tail).length < 2 ^ 32) (hi : tail.drop i = le16 n ++ rest) (hn : n < 65536) :
    cdtWord (front ++ tail) (front.length + i) = n := by
  rw [cdtWord, cdtByte_of_drop hlen hi, Nat.add_assoc, cdtByte_of_drop hlen (drop_succ_of_drop hi)]
  exact le16_value hn

theorem cdtTriple_of_drop (hlen : (front ++ tail).length < 2 ^ 32) (hi : tail.drop i = le24 n ++ rest)
    (hn : n < 2 ^ 24) : cdtTriple (front ++ tail) (front.length + i) = n := by
  have hsucc := drop_succ_of_drop hi
  rw [cdtTriple, cdtWord, cdtByte_of_drop hlen hi, Nat.add_assoc front.length, cdtByte_of_drop hlen hsucc,
    Nat.add_assoc front.length, cdtByte_of_drop hlen (drop_succ_of_drop hsucc)]
  exact le24_value hn

end Fields

theorem encode_length (b : Block) : b.encode.length = b.body.length + 1 := by
  rw [Block.encode, List.length_cons]

/-- A stored block is as long as the walker takes it to be. -/
theorem tapeCdtBlockLen_encode {front rest : List UInt8} (b : Block)
    (hlen : (front ++ (b.encode ++ rest)).length < 2 ^ 32) :
    tapeCdtBlockLen (front ++ (b.encode ++ rest)) front.length = b.encode.length := by
  have hid : cdtByte (front ++ (b.encode ++ rest)) front.length = b.id := cdtByte_of_drop (i := 0) hlen rfl
  have hfits : b.encode.length < 2 ^ 32 := by
    rw [List.length_append, List.length_append] at hlen
    omega
  -- Each case reads its length field and finds the length of the body there.
  have hu32 {n : Nat} (hn : n = b.body.length) : u32 (n + 1) = b.encode.length := by
    rw [hn, ← encode_length, u32_of_lt hfits]
  rw [tapeCdtBlockLen, hid]
  cases b with
  | standard pauseMs data =>
    refine hu32 ?_
    rw [cdtWord_of_drop hlen rfl data.length_lt, Block.body, List.length_append, Nat.add_comm]
    rfl
  | turbo pilot sync1 sync2 bit0 bit1 pulses used pauseMs data =>
    refine hu32 ?_
    rw [cdtTriple_of_drop hlen rfl data.length_lt, Block.body, List.length_append, Nat.add_comm]
    rfl
  | tone ts pulses => exact hu32 rfl
  | pulseSeq durations hcount =>
    refine hu32 ?_
    rw [cdtByte_of_drop hlen rfl, UInt8.toNat_ofNat', Nat.mod_eq_of_lt hcount, Block.body, List.length_cons,
      flatMap_le16_length, Nat.mul_comm]
  | pureData bit0 bit1 used pauseMs data =>
    refine hu32 ?_
    rw [cdtTriple_of_drop hlen rfl data.length_lt, Block.body, List.length_append, Nat.add_comm]
    rfl
  | direct ts pauseMs used data =>
    refine hu32 ?_
    rw [cdtTriple_of_drop hlen rfl data.length_lt, Block.body, List.length_append, Nat.add_comm]
    rfl
  | pause ms => exact hu32 rfl
  | groupStart name =>
    refine hu32 ?_
    rw [cdtByte_of_drop hlen rfl, ofNat_length_toNat, Block.body, List.length_cons]
  | groupEnd => exact hu32 rfl
  | text msg =>
    refine hu32 ?_
    rw [cdtByte_of_drop hlen rfl, ofNat_length_toNat, Block.body, List.length_cons]
  | message seconds msg =>
    refine hu32 ?_
    rw [cdtByte_of_drop hlen rfl, ofNat_length_toNat, Block.body, List.length_cons, List.length_cons]
  | archive info =>
    refine hu32 ?_
    rw [cdtWord_of_drop hlen rfl info.length_lt, Block.body, List.length_append, Nat.add_comm]
    rfl
  | hardware entries hcount =>
    refine hu32 ?_
    rw [cdtByte_of_drop hlen rfl, UInt8.toNat_ofNat', Nat.mod_eq_of_lt hcount, Block.body, List.length_cons,
      flatMap_entry_length]

/-- The walk comes to each block of the tape, and to its end. -/
theorem walk_encodeTape {major minor : UInt8} {bs : List Block} (hlen : (encodeTape major minor bs).length < 2 ^ 32)
    {n : Nat} (hn : n ≤ bs.length) :
    walk (encodeTape major minor bs) n = some (encodeTape major minor (bs.take n)).length := by
  induction n with
  | zero => rfl
  | succ n ih =>
    have hget : bs = bs.take n ++ bs[n] :: bs.drop (n + 1) := by
      rw [List.getElem_cons_drop, List.take_append_drop]
    -- The image up to the block `n`, the block, and what follows.
    have himage : encodeTape major minor bs = encodeTape major minor (bs.take n) ++
        (bs[n].encode ++ (bs.drop (n + 1)).flatMap Block.encode) := by
      conv_lhs => rw [hget]
      rw [encodeTape, encodeTape, List.flatMap_append, List.flatMap_cons, List.append_assoc]
    have hnext : encodeTape major minor (bs.take (n + 1)) = encodeTape major minor (bs.take n) ++ bs[n].encode := by
      rw [List.take_add_one, List.getElem?_eq_getElem hn, encodeTape, encodeTape, List.flatMap_append, List.append_assoc]
      rw [Option.toList_some, List.flatMap_singleton]
    have hsize := tapeCdtBlockLen_encode bs[n] (himage ▸ hlen)
    refine walk_succ_eq_some.mpr ⟨_, ih (by omega), ?_, ?_, ?_⟩
    · rw [himage, List.length_append, List.length_append, encode_length]
      omega
    · rw [hnext, List.length_append, encode_length]
      omega
    · rw [himage] at hlen ⊢
      rw [hsize, hnext, u32_of_lt, List.length_append]
      rw [List.length_append, List.length_append] at hlen
      omega

end Koncepcja.Tape
