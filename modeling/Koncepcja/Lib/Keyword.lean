import Mathlib.Data.List.Induction
import Mathlib.Order.Basic

/-!
# A Keyword after a Delimiter

A stream is watched for a keyword. An attempt starts where an element other than the delimiter is
followed by a run of delimiters; what counts is the delimiter-free rest after the last such run. The
recogniser below keeps one number of that rest, and loses nothing by it.

## Main results

- `Since.unique`: the rest after the last run of delimiters is one list.
- `scan_spec`: what each state of the recogniser says about the stream.
- `scan_eq_matched_iff`: the recogniser is `n` elements into the keyword exactly when the rest is these `n` elements.
-/

namespace Koncepcja.Keyword

variable {α : Type*} {d : α} {h s t w : List α} {a : α} {n : Nat}

/-! ## The rest after the last run of delimiters -/

/-- The last element is not the delimiter. -/
def EndsOther (d : α) (h : List α) : Prop :=
  ∃ g z, h = g ++ [z] ∧ z ≠ d

/-- `s` is what came after the last run of delimiters that followed another element. -/
def Since (d : α) (h s : List α) : Prop :=
  ∃ g z k, h = g ++ z :: (List.replicate (k + 1) d ++ s) ∧ z ≠ d ∧ d ∉ s

theorem endsOther_concat : EndsOther d (h ++ [a]) ↔ a ≠ d := by
  constructor
  · rintro ⟨g, z, hg, hz⟩
    obtain ⟨-, hlast⟩ := List.append_inj' hg rfl
    rwa [List.singleton_inj.mp hlast]
  · exact fun ha => ⟨h, a, rfl, ha⟩

theorem not_since_nil : ¬ Since d [] s := by
  rintro ⟨g, z, k, hg, -, -⟩
  simp at hg

theorem since_concat (ha : a ≠ d) : Since d (h ++ [a]) s ↔ ∃ t, s = t ++ [a] ∧ Since d h t := by
  constructor
  · rintro ⟨g, z, k, hg, hz, hs⟩
    rcases List.eq_nil_or_concat s with rfl | ⟨t, b, rfl⟩
    · -- the stream would end with the delimiter
      rw [List.append_nil, List.replicate_succ', ← List.cons_append, ← List.append_assoc] at hg
      obtain ⟨-, hlast⟩ := List.append_inj' hg rfl
      exact absurd (List.singleton_inj.mp hlast) ha
    · rw [List.concat_eq_append] at hg hs ⊢
      have hg' : h ++ [a] = (g ++ z :: (List.replicate (k + 1) d ++ t)) ++ [b] := by
        rw [hg]
        simp only [List.append_assoc, List.cons_append]
      obtain ⟨hh, hlast⟩ := List.append_inj' hg' rfl
      obtain rfl : a = b := List.singleton_inj.mp hlast
      refine ⟨t, rfl, g, z, k, hh, hz, fun hd => hs ?_⟩
      exact List.mem_append_left _ hd
  · rintro ⟨t, rfl, g, z, k, rfl, hz, ht⟩
    refine ⟨g, z, k, by simp only [List.append_assoc, List.cons_append], hz, ?_⟩
    rw [List.mem_append, List.mem_singleton]
    rintro (hd | rfl)
    · exact ht hd
    · exact ha rfl

theorem since_concat_delimiter : Since d (h ++ [d]) s ↔ s = [] ∧ (Since d h [] ∨ EndsOther d h) := by
  constructor
  · rintro ⟨g, z, k, hg, hz, hs⟩
    rcases List.eq_nil_or_concat s with rfl | ⟨t, b, rfl⟩
    · refine ⟨rfl, ?_⟩
      rw [List.append_nil, List.replicate_succ', ← List.cons_append, ← List.append_assoc] at hg
      obtain ⟨rfl, -⟩ := List.append_inj' hg rfl
      cases k with
      | zero => exact .inr ⟨g, z, rfl, hz⟩
      | succ k => exact .inl ⟨g, z, k, by rw [List.append_nil], hz, List.not_mem_nil⟩
    · rw [List.concat_eq_append] at hg hs
      have hg' : h ++ [d] = (g ++ z :: (List.replicate (k + 1) d ++ t)) ++ [b] := by
        rw [hg]
        simp only [List.append_assoc, List.cons_append]
      obtain ⟨-, hlast⟩ := List.append_inj' hg' rfl
      refine absurd ?_ hs
      rw [← List.singleton_inj.mp hlast]
      exact List.mem_append_right _ (List.mem_singleton.mpr rfl)
  · rintro ⟨rfl, ⟨g, z, k, rfl, hz, -⟩ | ⟨g, z, rfl, hz⟩⟩
    · refine ⟨g, z, k + 1, ?_, hz, List.not_mem_nil⟩
      simp only [List.append_assoc, List.cons_append, List.append_nil, List.replicate_succ' (n := k + 1)]
    · exact ⟨g, z, 0, by simp, hz, List.not_mem_nil⟩

theorem Since.unique (hs : Since d h s) (ht : Since d h t) : s = t := by
  induction h using List.reverseRecOn generalizing s t with
  | nil => exact absurd hs not_since_nil
  | append_singleton h a ih =>
    by_cases ha : a = d
    · subst ha
      rw [(since_concat_delimiter.mp hs).1, (since_concat_delimiter.mp ht).1]
    · obtain ⟨s', rfl, hs'⟩ := (since_concat ha).mp hs
      obtain ⟨t', rfl, ht'⟩ := (since_concat ha).mp ht
      rw [ih hs' ht']

theorem Since.endsOther (hs : Since d h s) (hne : s ≠ []) : EndsOther d h := by
  rcases List.eq_nil_or_concat h with rfl | ⟨g, a, rfl⟩
  · exact absurd hs not_since_nil
  · rw [List.concat_eq_append] at hs ⊢
    refine endsOther_concat.mpr ?_
    rintro rfl
    exact hne (since_concat_delimiter.mp hs).1

theorem Since.length_le (hs : Since d h s) : s.length + 2 ≤ h.length := by
  obtain ⟨g, z, k, rfl, -, -⟩ := hs
  simp only [List.length_append, List.length_cons, List.length_replicate]
  omega

theorem take_concat_of_getElem? (h : w[n]? = some a) : w.take n ++ [a] = w.take (n + 1) := by
  rw [List.take_add_one, h]
  rfl

theorem eq_take_of_concat_eq_take (h : w.take n = t ++ [a]) : t = w.take t.length ∧ w[t.length]? = some a := by
  have hlen : t.length < n := by
    have := List.length_take_le n w
    rw [h, List.length_append, List.length_singleton] at this
    omega
  constructor
  · calc
      t = (t ++ [a]).take t.length := List.take_left.symm
      _ = w.take t.length := by rw [← h, List.take_take, Nat.min_eq_left (Nat.le_of_lt hlen)]
  · rw [← List.getElem?_take_of_lt hlen, h]
    simp

/-! ## The recogniser -/

/-- How far an attempt has come. -/
inductive Scan where
  /-- Nothing but delimiters so far. -/
  | idle
  /-- An element that an attempt could start after. -/
  | primed
  /-- The run of delimiters, and so many elements of the keyword. -/
  | matched (n : Nat)
  deriving DecidableEq, Repr

variable [DecidableEq α]

/-- The next element: of the keyword, a delimiter, or neither. -/
def Scan.next (d : α) (w : List α) : Scan → α → Scan
  | .idle, a => if a = d then .idle else .primed
  | .primed, a => if a = d then .matched 0 else .primed
  | .matched n, a => if w[n]? = some a then .matched (n + 1) else if a = d then .matched 0 else .primed

/-- The recogniser over a stream. -/
def scan (d : α) (w h : List α) : Scan := h.foldl (Scan.next d w) .idle

@[simp] theorem scan_nil : scan d w [] = .idle := rfl

theorem scan_concat (h : List α) (a : α) : scan d w (h ++ [a]) = (scan d w h).next d w a := by
  rw [scan, List.foldl_append, ← scan, List.foldl_cons, List.foldl_nil]

/-- What a state of the recogniser says. -/
def Scan.Says (d : α) (w h : List α) : Scan → Prop
  | .idle => ∀ x ∈ h, x = d
  | .primed => EndsOther d h ∧ ∀ n, ¬ Since d h (w.take n)
  | .matched n => n ≤ w.length ∧ Since d h (w.take n)

theorem Scan.Says.next {q : Scan} (hw : d ∉ w) (hq : q.Says d w h) : (q.next d w a).Says d w (h ++ [a]) := by
  cases q with
  | idle =>
    rw [Scan.next]
    by_cases ha : a = d
    · subst ha
      rw [if_pos rfl]
      intro x hx
      rcases List.mem_append.mp hx with hx | hx
      · exact hq x hx
      · exact List.mem_singleton.mp hx
    · rw [if_neg ha]
      refine ⟨endsOther_concat.mpr ha, fun n hn => ?_⟩
      obtain ⟨t, -, g, z, k, rfl, hz, -⟩ := (since_concat ha).mp hn
      exact hz (hq z (by simp))
  | primed =>
    obtain ⟨hend, hnone⟩ := hq
    rw [Scan.next]
    by_cases ha : a = d
    · subst ha
      rw [if_pos rfl]
      exact ⟨Nat.zero_le _, since_concat_delimiter.mpr ⟨List.take_zero, .inr hend⟩⟩
    · rw [if_neg ha]
      refine ⟨endsOther_concat.mpr ha, fun n hn => ?_⟩
      obtain ⟨t, ht, hs⟩ := (since_concat ha).mp hn
      rw [(eq_take_of_concat_eq_take ht).1] at hs
      exact hnone _ hs
  | matched m =>
    obtain ⟨hm, hs⟩ := hq
    rw [Scan.next]
    by_cases hnext : w[m]? = some a
    · rw [if_pos hnext]
      have ha : a ≠ d := by
        rintro rfl
        exact hw (List.mem_of_getElem? hnext)
      obtain ⟨hlt, -⟩ := List.getElem?_eq_some_iff.mp hnext
      refine ⟨hlt, (since_concat ha).mpr ⟨w.take m, (take_concat_of_getElem? hnext).symm, hs⟩⟩
    · rw [if_neg hnext]
      by_cases ha : a = d
      · subst ha
        rw [if_pos rfl]
        refine ⟨Nat.zero_le _, since_concat_delimiter.mpr ⟨List.take_zero, ?_⟩⟩
        -- at the start of the keyword the run goes on; inside it the last element was no delimiter
        by_cases hempty : w.take m = []
        · exact .inl (hempty ▸ hs)
        · exact .inr (hs.endsOther hempty)
      · rw [if_neg ha]
        refine ⟨endsOther_concat.mpr ha, fun n hn => hnext ?_⟩
        obtain ⟨t, ht, hs'⟩ := (since_concat ha).mp hn
        obtain ⟨-, hget⟩ := eq_take_of_concat_eq_take ht
        obtain rfl := hs'.unique hs
        rwa [List.length_take, Nat.min_eq_left hm] at hget

theorem scan_spec (hw : d ∉ w) (h : List α) : (scan d w h).Says d w h := by
  induction h using List.reverseRecOn with
  | nil => exact fun x hx => absurd hx List.not_mem_nil
  | append_singleton h a ih =>
    rw [scan_concat]
    exact ih.next hw

/-- The recogniser is `n` elements into the keyword exactly when the stream is. -/
theorem scan_eq_matched_iff (hw : d ∉ w) (hn : n ≤ w.length) :
    scan d w h = .matched n ↔ Since d h (w.take n) := by
  have hspec := scan_spec hw h
  constructor
  · intro heq
    rw [heq] at hspec
    exact hspec.2
  · intro hs
    cases hq : scan d w h with
    | idle =>
      rw [hq] at hspec
      obtain ⟨g, z, k, rfl, hz, -⟩ := hs
      exact absurd (hspec z (by simp)) hz
    | primed =>
      rw [hq] at hspec
      exact absurd hs (hspec.2 n)
    | matched m =>
      rw [hq] at hspec
      have hlen := congrArg List.length (hspec.2.unique hs)
      rw [List.length_take, List.length_take, Nat.min_eq_left hspec.1, Nat.min_eq_left hn] at hlen
      rw [hlen]

end Koncepcja.Keyword
