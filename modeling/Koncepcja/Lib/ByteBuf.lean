import Koncepcja.Lib.Bits

/-!
# Byte Buffers

Reads and in-place writes of a growing byte buffer: little-endian fields, block copies, and the
frame facts that say which bytes each write leaves alone.

## Main results

- `slice_overwrite_self` and `slice_overwrite_of_le`: a block copy reads back, and only there.
- `rd16le_put16le` and `rd32le_put32le`: a little-endian field reads back.
- `slice_put16le_of_le` and its companions: a field write does not reach past its own bytes.
- `Keeps`: a buffer that grew with a set of positions untouched, and what is read there unchanged.
-/

namespace Koncepcja.Bytes

/-! ## Blocks -/

/-- The `len` bytes from `off` on. -/
def slice (buf : List UInt8) (off len : Nat) : List UInt8 := (buf.drop off).take len

/-- Grow a buffer to `size` bytes, filling with `fill`; a buffer already that long is kept. -/
def growTo (buf : List UInt8) (size : Nat) (fill : UInt8) : List UInt8 :=
  buf ++ List.replicate (size - buf.length) fill

/-- Copy a block over the bytes from `off` on. -/
def overwrite (buf : List UInt8) (off : Nat) (block : List UInt8) : List UInt8 :=
  buf.take off ++ block ++ buf.drop (off + block.length)

theorem growTo_length (buf : List UInt8) (size : Nat) (fill : UInt8) :
    (growTo buf size fill).length = max buf.length size := by
  rw [growTo, List.length_append, List.length_replicate]
  omega

theorem overwrite_length {buf : List UInt8} {off : Nat} {block : List UInt8}
    (h : off + block.length ≤ buf.length) : (overwrite buf off block).length = buf.length := by
  rw [overwrite, List.length_append, List.length_append, List.length_take, List.length_drop]
  omega

theorem slice_length {buf : List UInt8} {off len : Nat} (h : off + len ≤ buf.length) :
    (slice buf off len).length = len := by
  rw [slice, List.length_take, List.length_drop]
  omega

theorem slice_append_of_le (buf tail : List UInt8) {off len : Nat} (h : off + len ≤ buf.length) :
    slice (buf ++ tail) off len = slice buf off len := by
  rw [slice, slice, List.drop_append_of_le_length (by omega),
    List.take_append_of_le_length (by rw [List.length_drop]; omega)]

theorem slice_growTo_of_le (buf : List UInt8) (size : Nat) (fill : UInt8) {off len : Nat}
    (h : off + len ≤ buf.length) : slice (growTo buf size fill) off len = slice buf off len :=
  slice_append_of_le _ _ h

theorem overwrite_set {buf : List UInt8} {off : Nat} (h : off < buf.length) (v : UInt8) (block : List UInt8) :
    overwrite (buf.set off v) (off + 1) block = overwrite buf off (v :: block) := by
  have hhead : (buf.set off v).take (off + 1) = buf.take off ++ [v] := by
    rw [List.take_add_one, List.take_set_of_le (Nat.le_refl off), List.getElem?_set_self h]
    rfl
  have htail : (buf.set off v).drop (off + 1 + block.length) = buf.drop (off + (v :: block).length) := by
    rw [List.drop_set_of_lt (by omega), List.length_cons]
    congr 1
    omega
  rw [overwrite, overwrite, hhead, htail, List.append_assoc (buf.take off), List.singleton_append]

/-- A copied block reads back. -/
theorem slice_overwrite_self {buf : List UInt8} {off : Nat} (block : List UInt8)
    (h : off ≤ buf.length) : slice (overwrite buf off block) off block.length = block := by
  have hoff : off = (buf.take off).length := by
    rw [List.length_take]
    omega
  rw [slice, overwrite, List.append_assoc]
  conv_lhs => rw [hoff]
  rw [List.drop_left', List.take_left']
  · rfl
  · rw [List.length_take, List.length_take]
    omega

/-- A block copy leaves the bytes before it alone. -/
theorem slice_overwrite_of_le {buf : List UInt8} {off len pos : Nat} (block : List UInt8)
    (h : off + len ≤ pos) (hpos : pos ≤ buf.length) :
    slice (overwrite buf pos block) off len = slice buf off len := by
  have hlen : (buf.take pos).length = pos := by
    rw [List.length_take]
    omega
  rw [overwrite, List.append_assoc, slice_append_of_le _ _ (by omega)]
  rw [slice, slice, List.drop_take, List.take_take]
  congr 1
  omega

theorem slice_overwrite_of_ge {buf : List UInt8} {off len pos : Nat} (block : List UInt8)
    (h : pos + block.length ≤ off) (hpos : pos ≤ buf.length) :
    slice (overwrite buf pos block) off len = slice buf off len := by
  have hhead : (buf.take pos ++ block).length ≤ off := by
    rw [List.length_append, List.length_take]
    omega
  have hdrop : (overwrite buf pos block).drop off = buf.drop off := by
    rw [overwrite, List.drop_append, List.drop_eq_nil_of_le hhead, List.nil_append, List.drop_drop]
    congr 1
    rw [List.length_append, List.length_take]
    omega
  rw [slice, slice, hdrop]

/-! ## Little-endian fields -/

/-- The byte at `off`; zero past the end. -/
def byteAt (buf : List UInt8) (off : Nat) : UInt8 := buf.getD off 0

/-- A 16-bit little-endian field. -/
def rd16le (buf : List UInt8) (off : Nat) : Nat :=
  (byteAt buf off).toNat + 256 * (byteAt buf (off + 1)).toNat

/-- A 32-bit little-endian field. -/
def rd32le (buf : List UInt8) (off : Nat) : Nat :=
  rd16le buf off + 65536 * rd16le buf (off + 2)

/-- Write the low 16 bits of `v` as a little-endian field. -/
def put16le (buf : List UInt8) (off : Nat) (v : Nat) : List UInt8 :=
  (buf.set off (UInt8.ofNat v)).set (off + 1) (UInt8.ofNat (v / 256))

/-- Write the low 32 bits of `v` as a little-endian field. -/
def put32le (buf : List UInt8) (off : Nat) (v : Nat) : List UInt8 :=
  put16le (put16le buf off v) (off + 2) (v / 65536)

@[simp] theorem put16le_length (buf : List UInt8) (off v : Nat) :
    (put16le buf off v).length = buf.length := by
  simp [put16le]

@[simp] theorem put32le_length (buf : List UInt8) (off v : Nat) :
    (put32le buf off v).length = buf.length := by
  simp [put32le]

theorem byteAt_append_of_lt (buf tail : List UInt8) {off : Nat} (h : off < buf.length) :
    byteAt (buf ++ tail) off = byteAt buf off := by
  rw [byteAt, byteAt, List.getD_append _ _ _ _ h]

theorem byteAt_append_of_ge (buf tail : List UInt8) {off : Nat} (h : buf.length ≤ off) :
    byteAt (buf ++ tail) off = byteAt tail (off - buf.length) := by
  rw [byteAt, byteAt, List.getD_append_right _ _ _ _ h]

theorem byteAt_of_length_le {buf : List UInt8} {off : Nat} (h : buf.length ≤ off) : byteAt buf off = 0 :=
  List.getD_eq_default _ _ h

theorem byteAt_take {buf : List UInt8} {n off : Nat} (h : off < n) : byteAt (buf.take n) off = byteAt buf off := by
  rw [byteAt, byteAt, List.getD_eq_getElem?_getD, List.getD_eq_getElem?_getD, List.getElem?_take_of_lt h]

theorem byteAt_replicate {n off : Nat} (v : UInt8) (h : off < n) : byteAt (List.replicate n v) off = v := by
  rw [byteAt, List.getD_eq_getElem _ _ (by rwa [List.length_replicate]), List.getElem_replicate]

theorem byteAt_drop (buf : List UInt8) (n i : Nat) : byteAt (buf.drop n) i = byteAt buf (n + i) := by
  rw [byteAt, byteAt, List.getD_eq_getElem?_getD, List.getD_eq_getElem?_getD, List.getElem?_drop]

theorem byteAt_of_slice {buf : List UInt8} {off len i : Nat} (hi : i < len) :
    byteAt buf (off + i) = byteAt (slice buf off len) i := by
  simp [byteAt, slice, List.getD_eq_getElem?_getD, hi]

theorem byteAt_set_ne (buf : List UInt8) {i j : Nat} (v : UInt8) (h : i ≠ j) :
    byteAt (buf.set i v) j = byteAt buf j := by
  simp [byteAt, List.getD_eq_getElem?_getD, List.getElem?_set_ne h]

theorem byteAt_set_self {buf : List UInt8} {i : Nat} (v : UInt8) (h : i < buf.length) :
    byteAt (buf.set i v) i = v := by
  simp [byteAt, List.getD_eq_getElem?_getD, h]

theorem byteAt_overwrite {buf : List UInt8} {pos : Nat} (block : List UInt8) (hpos : pos ≤ buf.length) (k : Nat) :
    byteAt (overwrite buf pos block) k =
      if pos ≤ k ∧ k < pos + block.length then byteAt block (k - pos) else byteAt buf k := by
  have hhead : (buf.take pos).length = pos := by
    rw [List.length_take]
    omega
  have hboth : (buf.take pos ++ block).length = pos + block.length := by rw [List.length_append, hhead]
  rw [overwrite]
  by_cases hlt : k < pos
  · rw [if_neg (by omega), byteAt_append_of_lt _ _ (by omega), byteAt_append_of_lt _ _ (by omega), byteAt_take hlt]
  · by_cases hin : k < pos + block.length
    · rw [if_pos ⟨by omega, hin⟩, byteAt_append_of_lt _ _ (by omega), byteAt_append_of_ge _ _ (by omega), hhead]
    · rw [if_neg (fun h => hin h.2), byteAt_append_of_ge _ _ (by omega), byteAt_drop, hboth]
      congr 1
      omega

theorem byteAt_flatMap_range {e : Nat → List UInt8} {len : Nat} (he : ∀ i, (e i).length = len) {m i j : Nat} (hi : i < m)
    (hj : j < len) : byteAt ((List.range m).flatMap e) (len * i + j) = byteAt (e i) j := by
  have hlength : ∀ m, ((List.range m).flatMap e).length = len * m := by
    intro m
    induction m with
    | zero => rfl
    | succ m ih =>
      rw [List.range_succ, List.flatMap_append, List.length_append, ih, List.flatMap_cons, List.flatMap_nil,
        List.append_nil, he, Nat.mul_succ]
  induction m with
  | zero => exact absurd hi (Nat.not_lt_zero i)
  | succ m ih =>
    rw [List.range_succ, List.flatMap_append]
    by_cases hlast : i = m
    · subst hlast
      rw [byteAt_append_of_ge _ _ (by rw [hlength]; omega), hlength, Nat.add_sub_cancel_left, List.flatMap_cons,
        List.flatMap_nil, List.append_nil]
    · have hi' : i < m := by omega
      have hle : len * i + len ≤ len * m := by
        rw [← Nat.mul_succ]
        exact Nat.mul_le_mul_left len hi'
      rw [byteAt_append_of_lt _ _ (by rw [hlength]; omega)]
      exact ih hi'

theorem rd16le_lt (buf : List UInt8) (off : Nat) : rd16le buf off < 65536 := by
  have hlo := (byteAt buf off).toNat_lt
  have hhi := (byteAt buf (off + 1)).toNat_lt
  rw [rd16le]
  omega

/-- A 16-bit field reads back. -/
theorem rd16le_put16le {buf : List UInt8} {off : Nat} (v : Nat) (h : off + 1 < buf.length) :
    rd16le (put16le buf off v) off = v % 65536 := by
  have hlo : byteAt (put16le buf off v) off = UInt8.ofNat v := by
    rw [put16le, byteAt_set_ne _ _ (by omega), byteAt_set_self _ (by omega)]
  have hhi : byteAt (put16le buf off v) (off + 1) = UInt8.ofNat (v / 256) := by
    rw [put16le, byteAt_set_self _ (by rw [List.length_set]; omega)]
  rw [rd16le, hlo, hhi, UInt8.toNat_ofNat', UInt8.toNat_ofNat']
  omega

theorem byteAt_put16le_of_lt (buf : List UInt8) {off i : Nat} (v : Nat) (h : i < off) :
    byteAt (put16le buf off v) i = byteAt buf i := by
  rw [put16le, byteAt_set_ne _ _ (by omega), byteAt_set_ne _ _ (by omega)]

theorem byteAt_put16le_of_le (buf : List UInt8) {off i : Nat} (v : Nat) (h : off + 2 ≤ i) :
    byteAt (put16le buf off v) i = byteAt buf i := by
  rw [put16le, byteAt_set_ne _ _ (by omega), byteAt_set_ne _ _ (by omega)]

theorem rd16le_congr {a b : List UInt8} {off : Nat} (h0 : byteAt a off = byteAt b off)
    (h1 : byteAt a (off + 1) = byteAt b (off + 1)) : rd16le a off = rd16le b off := by
  rw [rd16le, rd16le, h0, h1]

theorem rd16le_put16le_of_le (buf : List UInt8) {off i : Nat} (v : Nat) (h : i + 2 ≤ off) :
    rd16le (put16le buf off v) i = rd16le buf i :=
  rd16le_congr (byteAt_put16le_of_lt _ _ (by omega)) (byteAt_put16le_of_lt _ _ (by omega))

/-- A 32-bit field reads back. -/
theorem rd32le_put32le {buf : List UInt8} {off : Nat} (v : Nat) (h : off + 3 < buf.length) :
    rd32le (put32le buf off v) off = v % 2 ^ 32 := by
  rw [rd32le, put32le, rd16le_put16le_of_le _ _ (by omega), rd16le_put16le _ (by omega),
    rd16le_put16le _ (by rw [put16le_length]; omega)]
  omega

private theorem slice_set_of_le (buf : List UInt8) {i off : Nat} (len : Nat) (v : UInt8)
    (h : i < off) : slice (buf.set i v) off len = slice buf off len := by
  rw [slice, slice, List.drop_set_of_lt h]

private theorem slice_set_of_ge (buf : List UInt8) {i off len : Nat} (v : UInt8)
    (h : off + len ≤ i) : slice (buf.set i v) off len = slice buf off len := by
  rw [slice, slice, List.drop_set]
  split
  · rfl
  · rw [List.take_set_of_le (by omega)]

/-- A 16-bit field write leaves the blocks behind it alone. -/
theorem slice_put16le_of_le (buf : List UInt8) {pos off : Nat} (len v : Nat) (h : pos + 2 ≤ off) :
    slice (put16le buf pos v) off len = slice buf off len := by
  rw [put16le, slice_set_of_le _ _ _ (by omega), slice_set_of_le _ _ _ (by omega)]

theorem slice_put16le_of_ge (buf : List UInt8) {pos off len : Nat} (v : Nat) (h : off + len ≤ pos) :
    slice (put16le buf pos v) off len = slice buf off len := by
  rw [put16le, slice_set_of_ge _ _ (by omega), slice_set_of_ge _ _ (by omega)]

theorem rd32le_lt (buf : List UInt8) (off : Nat) : rd32le buf off < 2 ^ 32 := by
  have hlo := rd16le_lt buf off
  have hhi := rd16le_lt buf (off + 2)
  rw [rd32le]
  omega

theorem byteAt_put32le_of_ne (buf : List UInt8) {off i : Nat} (v : Nat) (h : i < off ∨ off + 4 ≤ i) :
    byteAt (put32le buf off v) i = byteAt buf i := by
  rw [put32le]
  rcases h with hlt | hge
  · rw [byteAt_put16le_of_lt _ _ (by omega), byteAt_put16le_of_lt _ _ hlt]
  · rw [byteAt_put16le_of_le _ _ (by omega), byteAt_put16le_of_le _ _ (by omega)]

/-! ## Growing with a frame -/

/-- `b` grows `a` and holds the bytes of `a` at the positions in `keep`. -/
structure Keeps (keep : Nat → Prop) (a b : List UInt8) : Prop where
  length_le : a.length ≤ b.length
  byteAt : ∀ i, i < a.length → keep i → byteAt b i = byteAt a i

namespace Keeps

variable {keep keep' : Nat → Prop} {a b c : List UInt8}

theorem refl (keep : Nat → Prop) (a : List UInt8) : Keeps keep a a := ⟨Nat.le_refl _, fun _ _ _ => rfl⟩

theorem mono (h : Keeps keep a b) (hsub : ∀ i, keep' i → keep i) : Keeps keep' a b :=
  ⟨h.length_le, fun i hi hk => h.byteAt i hi (hsub i hk)⟩

theorem trans (hab : Keeps keep a b) (hbc : Keeps keep b c) : Keeps keep a c where
  length_le := Nat.le_trans hab.length_le hbc.length_le
  byteAt i hi hk :=
    (hbc.byteAt i (Nat.lt_of_lt_of_le hi hab.length_le) hk).trans (hab.byteAt i hi hk)

theorem append (keep : Nat → Prop) (a tail : List UInt8) : Keeps keep a (a ++ tail) where
  length_le := by
    rw [List.length_append]
    omega
  byteAt _ hi _ := byteAt_append_of_lt a tail hi

theorem put32le (a : List UInt8) (off v : Nat) :
    Keeps (fun i => i < off ∨ off + 4 ≤ i) a (put32le a off v) where
  length_le := Nat.le_of_eq (put32le_length a off v).symm
  byteAt _ _ hk := byteAt_put32le_of_ne a v hk

theorem rd32le (h : Keeps keep a b) {off : Nat} (hin : off + 4 ≤ a.length)
    (hkeep : ∀ i, off ≤ i → i < off + 4 → keep i) : rd32le b off = rd32le a off := by
  have hbyte : ∀ k < 4, Bytes.byteAt b (off + k) = Bytes.byteAt a (off + k) := by
    intro k hk
    exact h.byteAt _ (by omega) (hkeep _ (by omega) (by omega))
  have hlo : rd16le b off = rd16le a off := rd16le_congr (hbyte 0 (by omega)) (hbyte 1 (by omega))
  have hhi : rd16le b (off + 2) = rd16le a (off + 2) :=
    rd16le_congr (hbyte 2 (by omega)) (hbyte 3 (by omega))
  rw [Bytes.rd32le, Bytes.rd32le, hlo, hhi]

theorem slice (h : Keeps keep a b) {off len : Nat} (hin : off + len ≤ a.length)
    (hkeep : ∀ i, off ≤ i → i < off + len → keep i) : slice b off len = slice a off len := by
  have hlen := h.length_le
  apply List.ext_getElem
  · rw [slice_length hin, slice_length (Nat.le_trans hin hlen)]
  · intro i hb ha
    rw [slice_length hin] at ha
    have hbyte := h.byteAt (off + i) (by omega) (hkeep _ (by omega) (by omega))
    rw [Bytes.byteAt, Bytes.byteAt, List.getD_eq_getElem _ _ (by omega),
      List.getD_eq_getElem _ _ (by omega)] at hbyte
    simpa [Bytes.slice] using hbyte

end Keeps

end Koncepcja.Bytes
