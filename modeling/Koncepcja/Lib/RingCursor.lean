/-!
# A Head on a Ring of Cells

A head that reads its way round a ring of `n` cells and notes where it has read and whether it has
passed the seam. Nothing here knows what the cells hold.

## Main results

- `Moved.trans`: two moves are one.
- `Moved.lt_or_wrapped`: a move goes forward or passes the seam.
- `left_lt`: what is left of the first two rounds shrinks, as long as the second is not completed.
-/

namespace Koncepcja.RingCursor

/-- Where a head is, whether it has passed the seam, and every position it has read from. -/
structure Cursor where
  pos : Nat
  wrapped : Bool
  visited : List Nat

/-- The head has moved on by `k` cells of a ring of `n`, reading only from positions on the ring. -/
structure Moved (n k : Nat) (a b : Cursor) : Prop where
  inside : b.pos < n
  straight : a.pos + k < n → b.pos = a.pos + k ∧ b.wrapped = a.wrapped
  around : n ≤ a.pos + k → b.wrapped = true
  kept : a.wrapped = true → b.wrapped = true
  visited : ∀ p ∈ b.visited, p ∈ a.visited ∨ p < n

variable {n j k : Nat} {a b c : Cursor}

theorem Moved.trans (h : Moved n j a b) (h' : Moved n k b c) : Moved n (j + k) a c where
  inside := h'.inside
  straight := by
    intro hlt
    obtain ⟨hb, hbw⟩ := h.straight (by omega)
    obtain ⟨hc, hcw⟩ := h'.straight (by omega)
    exact ⟨by omega, hcw.trans hbw⟩
  around := by
    intro hle
    by_cases hj : a.pos + j < n
    · have hb := (h.straight hj).1
      exact h'.around (by omega)
    · exact h'.kept (h.around (by omega))
  kept := fun hw => h'.kept (h.kept hw)
  visited := by
    intro p hp
    rcases h'.visited p hp with hp | hp
    · exact h.visited p hp
    · exact .inr hp

theorem Moved.refl (h : a.pos < n) : Moved n 0 a a where
  inside := h
  straight := fun _ => ⟨rfl, rfl⟩
  around := fun hle => by omega
  kept := id
  visited := fun _ hp => .inl hp

/-- A move goes forward or passes the seam. -/
theorem Moved.lt_or_wrapped (h : Moved n k a b) (hk : 0 < k) :
    a.pos < b.pos ∧ b.wrapped = a.wrapped ∨ b.wrapped = true := by
  by_cases hlt : a.pos + k < n
  · obtain ⟨hpos, hw⟩ := h.straight hlt
    exact .inl ⟨by omega, hw⟩
  · exact .inr (h.around (by omega))

theorem Moved.putBack (h : Moved n k a b) (ha : a.pos < n) : Moved n 0 a ⟨a.pos, a.wrapped, b.visited⟩ where
  inside := ha
  straight := fun _ => ⟨rfl, rfl⟩
  around := fun hle => by omega
  kept := id
  visited := h.visited

/-- How far a head still has to go to the end of its second round. -/
def left (n : Nat) (c : Cursor) : Nat := (if c.wrapped then 0 else n + 1) + (n - c.pos)

/-- It goes down where the head goes forward, and where it passes the seam for the first time. -/
theorem left_lt (ha : a.pos < n) (hkept : a.wrapped = true → b.wrapped = true)
    (hforward : b.wrapped = a.wrapped → a.pos < b.pos) : left n b < left n a := by
  unfold left
  cases hw : a.wrapped with
  | true =>
    have hpos := hforward ((hkept hw).trans hw.symm)
    rw [if_pos rfl, if_pos (hkept hw)]
    omega
  | false =>
    cases hw' : b.wrapped with
    | true =>
      rw [if_pos rfl, if_neg (by decide)]
      omega
    | false =>
      have hpos := hforward (hw'.trans hw.symm)
      rw [if_neg (by decide)]
      omega

theorem Moved.visited_lt (h : Moved n k a b) (ha : ∀ p ∈ a.visited, p < n) :
    ∀ p ∈ b.visited, p < n := fun p hp => (h.visited p hp).elim (ha p) id

end Koncepcja.RingCursor
