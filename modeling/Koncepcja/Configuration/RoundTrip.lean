import Koncepcja.Configuration.Store
import Koncepcja.Lib.Stepwise
import Mathlib.Data.List.Forall2
import Mathlib.Data.List.TakeWhile

/-!
# Configuration Files Round Trip

What the writer puts into the lines that were read is what the next reader takes from them.

## Main definitions

- `Carried`: a key and a value that a line can carry.
- `Settled`: a line that reads alike once it is written back.
- `Keeps`: a line, and what stands in its place in the file that is written.

## Main results

- `pairOf_rewriteValue`: a line with a new value is read as the new value.
- `configuration_round_trip`: every entry that is not empty comes back, and no other, comments are kept, and
  an override is not written.
-/

namespace Koncepcja.Configuration

open Separator (upTo past)
open Stepwise

/-! ## What a line can carry -/

/-- A key and a value that a line can carry. -/
structure Carried (key value : List Char) : Prop where
  key_ne : key ≠ []
  key_chars : ∀ c ∈ key, keyDelim c = false ∧ c ≠ '\n'
  key_head : key.head? ≠ some '#' ∧ key.head? ≠ some '['
  value_chars : ∀ c ∈ value, valueDelim c = false ∧ c ≠ '\n'
  value_ends : value.head? ≠ some ' ' ∧ value.getLast? ≠ some ' ' ∧ value.getLast? ≠ some '\r'

/-- A section name that a header can carry. -/
def CarriedSection (s : List Char) : Prop := ∀ c ∈ s, bracket c = false ∧ c ≠ '\n'

/-- A line that reads alike once it is written back: a carriage return that is left at its end is not part of
its section or its value, an indented key is not a header, and nothing but blanks is ahead of its `=`. -/
structure Settled (line : List Char) : Prop where
  header : line.head? = some '[' → parseSectionName (chomp line) = parseSectionName line
  pair : ∀ k v, pairOf line = some (k, v) → k.head? ≠ some '[' ∧ v.getLast? ≠ some '\r'
  separator : lineKey line ≠ [] → '=' ∈ behindKey line → ∀ c ∈ upTo '=' (behindKey line), isBlank c = true

instance decidableSettled (line : List Char) : Decidable (Settled line) :=
  decidable_of_iff
    ((line.head? = some '[' → parseSectionName (chomp line) = parseSectionName line) ∧
      (∀ p ∈ pairOf line, p.1.head? ≠ some '[' ∧ p.2.getLast? ≠ some '\r') ∧
      (lineKey line ≠ [] → '=' ∈ behindKey line → (upTo '=' (behindKey line)).all isBlank = true))
    ⟨fun h => ⟨h.1, fun k v hpair => h.2.1 (k, v) hpair, fun hkey heq => List.all_eq_true.mp (h.2.2 hkey heq)⟩,
      fun h => ⟨h.header, fun p hpair => h.pair p.1 p.2 hpair,
        fun hkey heq => List.all_eq_true.mpr (h.separator hkey heq)⟩⟩

/-- The comment behind the key of a line. -/
def commentOf (line : List Char) : List Char := (behindKey line).dropWhile (· ≠ '#')

/-! ## The parts of a line -/

/-- A line with a key. -/
structure Parts (line lead key rest : List Char) : Prop where
  eq : line = lead ++ (key ++ rest)
  head : line.head? ≠ some '['
  lead_delims : ∀ c ∈ lead, keyDelim c = true
  key_chars : ∀ c ∈ key, keyDelim c = false
  key_ne : key ≠ []
  key_head : key.head? ≠ some '#'
  rest_delim : ∃ d tail, rest = d :: tail ∧ keyDelim d = true

/-- The value behind a key. -/
def valueOf (rest : List Char) : Option (List Char) :=
  let value := rest.dropWhile valueLead
  if value = [] then none else some (stripSpaces (value.takeWhile (!valueDelim ·)))

variable {line lead key rest : List Char}

theorem dropWhile_head {p : Char → Bool} {a : List Char} (h : ∀ c, a.head? = some c → p c = false) :
    a.dropWhile p = a := by
  cases a with
  | nil => rfl
  | cons c a => exact List.dropWhile_cons_of_neg (by rw [h c rfl]; decide)

theorem takeWhile_head {p : Char → Bool} {a : List Char} (h : ∀ c, a.head? = some c → p c = false) :
    a.takeWhile p = [] := by
  cases a with
  | nil => rfl
  | cons c a => exact List.takeWhile_cons_of_neg (by rw [h c rfl]; decide)

theorem Parts.key_head_delim (h : Parts line lead key rest) (c : Char) (hc : (key ++ rest).head? = some c) :
    keyDelim c = false := by
  obtain ⟨k, tail, hkey⟩ := List.exists_cons_of_ne_nil h.key_ne
  rw [hkey] at hc
  exact Option.some.inj hc ▸ h.key_chars k (hkey ▸ List.mem_cons_self)

theorem Parts.behind_lead (h : Parts line lead key rest) : line.dropWhile keyDelim = key ++ rest := by
  rw [h.eq, List.dropWhile_append_of_pos h.lead_delims, dropWhile_head h.key_head_delim]

theorem Parts.rest_head (h : Parts line lead key rest) (c : Char) (hc : rest.head? = some c) :
    (!keyDelim c) = false := by
  obtain ⟨d, tail, hrest, hd⟩ := h.rest_delim
  rw [hrest] at hc
  rw [← Option.some.inj hc, hd]
  rfl

theorem Parts.behind (h : Parts line lead key rest) : behindKey line = rest := by
  have hkey : ∀ c ∈ key, (!keyDelim c) = true := fun c hc => by rw [h.key_chars c hc]; rfl
  rw [behindKey, h.behind_lead, List.dropWhile_append_of_pos hkey, dropWhile_head h.rest_head]

theorem Parts.take_key (h : Parts line lead key rest) : (key ++ rest).takeWhile (!keyDelim ·) = key := by
  have hkey : ∀ c ∈ key, (!keyDelim c) = true := fun c hc => by rw [h.key_chars c hc]; rfl
  rw [List.takeWhile_append_of_pos hkey, takeWhile_head h.rest_head, List.append_nil]

theorem Parts.rest_ne (h : Parts line lead key rest) : rest ≠ [] := by
  obtain ⟨d, tail, hrest, -⟩ := h.rest_delim
  rw [hrest]
  exact List.cons_ne_nil d tail

theorem Parts.conditions (h : Parts line lead key rest) :
    key ++ rest ≠ [] ∧ (key ++ rest).head? ≠ some '#' ∧ (key ++ rest).dropWhile (!keyDelim ·) ≠ [] := by
  obtain ⟨k, tail, hkey⟩ := List.exists_cons_of_ne_nil h.key_ne
  have hhead := h.key_head
  have hbehind := h.behind
  rw [behindKey, h.behind_lead] at hbehind
  refine ⟨?_, ?_, ?_⟩
  · rw [hkey]
    exact List.cons_ne_nil k _
  · rw [hkey] at hhead ⊢
    exact hhead
  · rw [hbehind]
    exact h.rest_ne

theorem Parts.lineKey (h : Parts line lead key rest) : lineKey line = key := by
  obtain ⟨hne, hcomment, hsep⟩ := h.conditions
  rw [Configuration.lineKey, if_neg h.head, h.behind_lead]
  dsimp only
  rw [if_neg hne, if_neg hcomment, if_neg hsep, h.take_key]

theorem Parts.pairOf (h : Parts line lead key rest) : pairOf line = (valueOf rest).map (key, ·) := by
  obtain ⟨hne, hcomment, hsep⟩ := h.conditions
  rw [Configuration.pairOf, if_neg h.head, h.behind_lead, h.behind]
  dsimp only
  rw [if_neg hne, if_neg hcomment, if_neg hsep, h.take_key, valueOf]
  split <;> rfl

theorem dropWhile_cons_head {p : Char → Bool} {a tail : List Char} {c : Char} (h : a.dropWhile p = c :: tail) :
    p c = false := by
  induction a with
  | nil => exact absurd h.symm (List.cons_ne_nil c tail)
  | cons x a ih =>
    by_cases hx : p x = true
    · rw [List.dropWhile_cons_of_pos hx] at h
      exact ih h
    · rw [List.dropWhile_cons_of_neg hx] at h
      rw [← (List.cons.inj h).1]
      exact Bool.eq_false_iff.mpr hx

theorem parts_of_lineKey (h : lineKey line ≠ []) :
    Parts line (line.takeWhile keyDelim) (lineKey line) (behindKey line) := by
  have hkey := h
  rw [lineKey] at hkey
  dsimp only at hkey
  split at hkey
  · exact absurd rfl hkey
  rename_i hhead
  split at hkey
  · exact absurd rfl hkey
  rename_i hne
  split at hkey
  · exact absurd rfl hkey
  rename_i hcomment
  split at hkey
  · exact absurd rfl hkey
  rename_i hsep
  -- None of the exits was taken: the line has a key, and something behind it.
  have hdef : lineKey line = (line.dropWhile keyDelim).takeWhile (!keyDelim ·) := by
    rw [lineKey, if_neg hhead]
    dsimp only
    rw [if_neg hne, if_neg hcomment, if_neg hsep]
  obtain ⟨first, tail, hfirst⟩ := List.exists_cons_of_ne_nil hne
  have hdelim := dropWhile_cons_head hfirst
  obtain ⟨d, behind, hbehind⟩ := List.exists_cons_of_ne_nil hsep
  have hd := dropWhile_cons_head hbehind
  have hnot : (!keyDelim first) = true := by rw [hdelim]; rfl
  refine ⟨?_, hhead, fun c hc => List.mem_takeWhile_imp hc, ?_, h, ?_, d, behind, hbehind, ?_⟩
  · rw [hdef, behindKey, List.takeWhile_append_dropWhile, List.takeWhile_append_dropWhile]
  · intro c hc
    rw [hdef] at hc
    have hnotc := List.mem_takeWhile_imp (p := (!keyDelim ·)) hc
    exact (Bool.not_eq_true' _).mp hnotc
  · rw [hdef, hfirst, List.takeWhile_cons_of_pos (p := (!keyDelim ·)) hnot]
    rw [hfirst] at hcomment
    exact hcomment
  · exact (Bool.not_eq_false' _).mp hd

theorem pairOf_eq (line : List Char) :
    pairOf line = if lineKey line = [] then none else (valueOf (behindKey line)).map (lineKey line, ·) := by
  by_cases h : lineKey line = []
  · rw [if_pos h]
    rw [lineKey] at h
    rw [pairOf]
    dsimp only at h ⊢
    split
    · rfl
    rename_i hhead
    rw [if_neg hhead] at h
    split
    · rfl
    rename_i hne
    rw [if_neg hne] at h
    split
    · rfl
    rename_i hcomment
    rw [if_neg hcomment] at h
    split
    · rfl
    rename_i hsep
    rw [if_neg hsep] at h
    -- Past every early exit the key is not empty: it starts with what is no delimiter.
    obtain ⟨first, tail, hfirst⟩ := List.exists_cons_of_ne_nil hne
    have hdelim := dropWhile_cons_head hfirst
    rw [hfirst, List.takeWhile_cons_of_pos (p := (!keyDelim ·)) (by rw [hdelim]; rfl)] at h
    exact absurd h (List.cons_ne_nil _ _)
  · rw [if_neg h]
    exact (parts_of_lineKey h).pairOf

/-! ## Values -/

theorem stripSpaces_append {v spaces : List Char} (hhead : v.head? ≠ some ' ') (hlast : v.getLast? ≠ some ' ')
    (hv : v ≠ []) (hspaces : ∀ c ∈ spaces, c = ' ') : stripSpaces (v ++ spaces) = v := by
  have hfirst : (v ++ spaces).dropWhile (· == ' ') = v ++ spaces := by
    apply dropWhile_head
    intro c hc
    rw [List.head?_append_of_ne_nil v hv] at hc
    exact beq_eq_false_iff_ne.mpr fun heq => hhead (heq ▸ hc)
  have hrev : ∀ c ∈ spaces.reverse, (c == ' ') = true := fun c hc => beq_iff_eq.mpr (hspaces c (List.mem_reverse.mp hc))
  have hback : v.reverse.dropWhile (· == ' ') = v.reverse := by
    apply dropWhile_head
    intro c hc
    rw [List.head?_reverse] at hc
    exact beq_eq_false_iff_ne.mpr fun heq => hlast (heq ▸ hc)
  rw [stripSpaces, hfirst, List.reverse_append, List.dropWhile_append_of_pos hrev, hback, List.reverse_reverse]

theorem stripSpaces_spec {t : List Char} {x : Char} (hhead : t.head? = some x) (hx : x ≠ ' ') :
    (stripSpaces t).head? = some x ∧ (stripSpaces t).getLast? ≠ some ' ' ∧ ∀ c ∈ stripSpaces t, c ∈ t := by
  -- A text that begins without a space loses spaces at its end only.
  have hfirst : t.dropWhile (· == ' ') = t := by
    apply dropWhile_head
    intro c hc
    rw [hhead] at hc
    exact beq_eq_false_iff_ne.mpr fun heq => hx ((Option.some.inj hc).trans heq)
  have hsuffix : t.reverse.dropWhile (· == ' ') <:+ t.reverse := List.dropWhile_suffix _
  have hdef : stripSpaces t = (t.reverse.dropWhile (· == ' ')).reverse := by rw [stripSpaces, hfirst]
  have hne : t.reverse.dropWhile (· == ' ') ≠ [] := by
    intro hnil
    have hmem : x ∈ t.reverse := List.mem_reverse.mpr (List.mem_of_mem_head? hhead)
    have hall := List.dropWhile_eq_nil_iff.mp hnil x hmem
    exact hx (beq_iff_eq.mp hall)
  obtain ⟨front, hfront⟩ := hsuffix
  have hlead : t = stripSpaces t ++ front.reverse := by
    rw [hdef, ← List.reverse_append, hfront, List.reverse_reverse]
  have hstripped : stripSpaces t ≠ [] := by
    rw [hdef]
    exact fun hnil => hne (List.reverse_eq_nil_iff.mp hnil)
  refine ⟨?_, ?_, ?_⟩
  · rw [hlead, List.head?_append_of_ne_nil _ hstripped] at hhead
    exact hhead
  · rw [hdef, List.getLast?_reverse]
    intro hspace
    obtain ⟨c, tail, hcons⟩ := List.exists_cons_of_ne_nil hne
    have hc := dropWhile_cons_head hcons
    rw [hcons] at hspace
    rw [Option.some.inj hspace] at hc
    exact absurd hc (by decide)
  · intro c hc
    rw [hlead]
    exact List.mem_append_left _ hc

theorem valueLead_of_valueDelim {c : Char} (h : valueLead c = false) : valueDelim c = false ∧ c ≠ ' ' := by
  simp only [valueLead, valueDelim, Bool.or_eq_false_iff, beq_eq_false_iff_ne] at h ⊢
  exact ⟨h.1, h.2⟩

theorem valueLead_eq_false {c : Char} (h : valueDelim c = false) (hspace : c ≠ ' ') : valueLead c = false := by
  simp only [valueLead, valueDelim, Bool.or_eq_false_iff, beq_eq_false_iff_ne] at h ⊢
  exact ⟨h, hspace⟩

theorem valueOf_spec {v : List Char} (h : valueOf rest = some v) :
    v ≠ [] ∧ v.head? ≠ some ' ' ∧ v.getLast? ≠ some ' ' ∧ ∀ c ∈ v, valueDelim c = false ∧ c ∈ rest := by
  rw [valueOf] at h
  split at h
  · exact absurd h (Option.some_ne_none v).symm
  rename_i hne
  obtain ⟨x, tail, hx⟩ := List.exists_cons_of_ne_nil hne
  obtain ⟨hdelim, hspace⟩ := valueLead_of_valueDelim (dropWhile_cons_head hx)
  have hv := Option.some.inj h
  -- The value starts where the lead ends, so with no blank; the blanks at its end are stripped.
  have hhead : ((rest.dropWhile valueLead).takeWhile (!valueDelim ·)).head? = some x := by
    rw [hx, List.takeWhile_cons_of_pos (p := (!valueDelim ·)) (by rw [hdelim]; rfl)]
    rfl
  obtain ⟨hfirst, hlast, hmem⟩ := stripSpaces_spec hhead hspace
  rw [hv] at hfirst hlast hmem
  refine ⟨?_, ?_, hlast, ?_⟩
  · rintro rfl
    exact absurd hfirst.symm (Option.some_ne_none x)
  · rw [hfirst]
    exact fun heq => hspace (Option.some.inj heq)
  · intro c hc
    have htake := hmem c hc
    have hnot := List.mem_takeWhile_imp htake
    refine ⟨?_, (List.dropWhile_suffix _).subset ((List.takeWhile_prefix _).subset htake)⟩
    cases hd : valueDelim c with
    | false => rfl
    | true => rw [hd] at hnot; exact absurd hnot (by decide)

/-- Blanks and a comment, or nothing. -/
def Tail (t : List Char) : Prop := t = [] ∨ ∃ gap comment, t = gap ++ '#' :: comment ∧ ∀ c ∈ gap, isBlank c = true

theorem takeWhile_gap {gap : List Char} (h : ∀ c ∈ gap, isBlank c = true) (comment : List Char) :
    ∀ c ∈ (gap ++ '#' :: comment).takeWhile (!valueDelim ·), c = ' ' := by
  induction gap with
  | nil => exact fun c hc => absurd hc (by rw [List.nil_append, List.takeWhile_cons_of_neg (by decide)]; exact List.not_mem_nil)
  | cons x gap ih =>
    intro c hc
    rw [List.cons_append, List.takeWhile_cons] at hc
    split at hc
    · rename_i hnot
      rcases List.mem_cons.mp hc with rfl | hmem
      · have hx := h c List.mem_cons_self
        simp only [isBlank, Bool.or_eq_true, beq_iff_eq] at hx
        rcases hx with hspace | htab
        · exact hspace
        · rw [htab] at hnot
          exact absurd hnot (by decide)
      · exact ih (fun y hy => h y (List.mem_cons_of_mem x hy)) c hmem
    · exact absurd hc List.not_mem_nil

theorem valueOf_carried {sep v t : List Char} (hsep : ∀ c ∈ sep, valueLead c = true) (hv : Carried key v) (hne : v ≠ [])
    (ht : Tail t) : valueOf (sep ++ (v ++ t)) = some v := by
  have hdelims : ∀ c ∈ v, (!valueDelim c) = true := fun c hc => by rw [(hv.value_chars c hc).1]; rfl
  have hstart : (sep ++ (v ++ t)).dropWhile valueLead = v ++ t := by
    rw [List.dropWhile_append_of_pos hsep]
    apply dropWhile_head
    intro c hc
    rw [List.head?_append_of_ne_nil v hne] at hc
    exact valueLead_eq_false (hv.value_chars c (List.mem_of_mem_head? hc)).1 fun heq => hv.value_ends.1 (heq ▸ hc)
  have hspaces : ∀ c ∈ t.takeWhile (!valueDelim ·), c = ' ' := by
    rcases ht with rfl | ⟨gap, comment, rfl, hgap⟩
    · exact fun c hc => absurd hc List.not_mem_nil
    · exact takeWhile_gap hgap comment
  rw [valueOf, hstart]
  rw [if_neg fun hnil => hne (List.append_eq_nil_iff.mp hnil).1, List.takeWhile_append_of_pos hdelims,
    stripSpaces_append hv.value_ends.1 hv.value_ends.2.1 hne hspaces]

theorem valueOf_lead {sep : List Char} (hsep : ∀ c ∈ sep, valueLead c = true) : valueOf sep = none := by
  have hnil : sep.dropWhile valueLead = [] := List.dropWhile_eq_nil_iff.mpr hsep
  rw [valueOf, hnil]
  rfl

/-! ## Carriage returns -/

theorem chomp_of_last (h : line.getLast? ≠ some '\r') : chomp line = line := if_neg h

theorem chomp_append (a : List Char) {b : List Char} (h : b ≠ []) : chomp (a ++ b) = a ++ chomp b := by
  rw [chomp, chomp, List.getLast?_append_of_ne_nil a h]
  split
  · exact List.dropLast_append_of_ne_nil h
  · rfl

theorem chomp_cons {c : Char} (h : c ≠ '\r') (b : List Char) : chomp (c :: b) = c :: chomp b := by
  cases b with
  | nil => exact chomp_of_last fun heq => h (Option.some.inj heq)
  | cons d b => exact chomp_append [c] (List.cons_ne_nil d b)

theorem chomp_tail {t : List Char} (h : Tail t) : Tail (chomp t) := by
  rcases h with rfl | ⟨gap, comment, rfl, hgap⟩
  · exact .inl rfl
  · refine .inr ⟨gap, chomp comment, ?_, hgap⟩
    rw [chomp_append gap (List.cons_ne_nil '#' comment), chomp_cons (by decide)]

/-! ## A line with a new value -/

/-- What is kept behind a new value. -/
def keptComment (old value : List Char) : List Char :=
  if value = [] then []
  else if '#' ∈ old then ((upTo '#' old).reverse.takeWhile isBlank).reverse ++ old.dropWhile (· ≠ '#')
  else []

theorem dropWhile_comment {a : List Char} (h : '#' ∉ a) (b : List Char) :
    (a ++ b).dropWhile (· ≠ '#') = b.dropWhile (· ≠ '#') :=
  List.dropWhile_append_of_pos fun _ hc => decide_eq_true fun heq => h (heq ▸ hc)

theorem hash_notMem_blanks {gap : List Char} (h : ∀ c ∈ gap, isBlank c = true) : '#' ∉ gap :=
  fun hmem => absurd (h '#' hmem) (by decide)

theorem keptComment_form (old value : List Char) :
    Tail (keptComment old value) ∧
      (value ≠ [] → (keptComment old value).dropWhile (· ≠ '#') = old.dropWhile (· ≠ '#')) := by
  by_cases hv : value = []
  · rw [keptComment, if_pos hv]
    exact ⟨.inl rfl, fun hne => absurd hv hne⟩
  rw [keptComment, if_neg hv]
  by_cases hhash : '#' ∈ old
  · obtain ⟨a, b, rfl, ha⟩ := List.eq_append_cons_of_mem hhash
    have hcomment : (a ++ '#' :: b).dropWhile (· ≠ '#') = '#' :: b := by
      rw [dropWhile_comment ha]
      exact List.dropWhile_cons_of_neg (by decide)
    have hgap : ∀ c ∈ ((upTo '#' (a ++ '#' :: b)).reverse.takeWhile isBlank).reverse, isBlank c = true :=
      fun c hc => List.mem_takeWhile_imp (List.mem_reverse.mp hc)
    rw [if_pos hhash, hcomment]
    refine ⟨.inr ⟨_, b, rfl, hgap⟩, fun _ => ?_⟩
    rw [dropWhile_comment (hash_notMem_blanks hgap)]
    exact List.dropWhile_cons_of_neg (by decide)
  · rw [if_neg hhash]
    refine ⟨.inl rfl, fun _ => ?_⟩
    refine (List.dropWhile_eq_nil_iff.mpr ?_).symm
    intro c hc
    exact decide_eq_true fun heq : c = '#' => hhash (heq ▸ hc)

theorem mem_keptComment {old value : List Char} {c : Char} (h : c ∈ keptComment old value) : c ∈ old := by
  rw [keptComment] at h
  split at h
  · exact absurd h List.not_mem_nil
  split at h
  · rcases List.mem_append.mp h with h | h
    · have hgap := (List.takeWhile_prefix _).subset (List.mem_reverse.mp h)
      exact Separator.upTo_subset (List.mem_reverse.mp hgap)
    · exact (List.dropWhile_suffix _).subset h
  · exact absurd h List.not_mem_nil

/-- What stands between a key and its value. -/
structure Sep (sep : List Char) : Prop where
  first : ∃ d tail, sep = d :: tail ∧ keyDelim d = true
  chars : ∀ c ∈ sep, keyDelim c = true

theorem keyDelim_of_isBlank {c : Char} (h : isBlank c = true) : keyDelim c = true := by
  simp only [isBlank, keyDelim, Bool.or_eq_true, beq_iff_eq] at h ⊢
  exact .inl h.symm

theorem sep_of_chars {sep : List Char} (hne : sep ≠ []) (h : ∀ c ∈ sep, keyDelim c = true) : Sep sep := by
  obtain ⟨d, tail, rfl⟩ := List.exists_cons_of_ne_nil hne
  exact ⟨⟨d, tail, rfl, h d List.mem_cons_self⟩, h⟩

theorem hash_notMem_sep {sep : List Char} (h : ∀ c ∈ sep, keyDelim c = true) : '#' ∉ sep :=
  fun hmem => absurd (h '#' hmem) (by decide)

theorem rewriteValue_form (h : Settled line) (hkey : lineKey line ≠ []) (value : List Char) :
    ∃ sep t, rewriteValue line value = line.takeWhile keyDelim ++ (lineKey line ++ (sep ++ (value ++ t))) ∧ Sep sep ∧
      Tail t ∧ (∀ c ∈ t, c ∈ line) ∧ (value = [] → t = []) ∧
      (value ≠ [] → t.dropWhile (· ≠ '#') = commentOf line) := by
  have hparts := parts_of_lineKey hkey
  have htake : (line.dropWhile keyDelim).takeWhile (!keyDelim ·) = lineKey line := by
    rw [hparts.behind_lead, hparts.take_key]
  obtain ⟨rest, hrest⟩ : ∃ rest, rest = behindKey line := ⟨_, rfl⟩
  have hseparator := h.separator hkey
  have hmem : ∀ {c}, c ∈ rest → c ∈ line := fun hc =>
    (List.dropWhile_suffix _).subset ((List.dropWhile_suffix _).subset (hrest ▸ hc))
  rw [← hrest] at hseparator
  by_cases heq : '=' ∈ rest
  · -- up to the `=` and the blanks behind it
    obtain ⟨old, hold⟩ : ∃ old, old = (past '=' rest).dropWhile isBlank := ⟨_, rfl⟩
    obtain ⟨gap, hgap⟩ : ∃ gap, gap = (past '=' rest).takeWhile isBlank := ⟨_, rfl⟩
    have hgapBlank : ∀ c ∈ gap, isBlank c = true := fun c hc => List.mem_takeWhile_imp (hgap ▸ hc)
    have hchars : ∀ c ∈ upTo '=' rest ++ ['='] ++ gap, keyDelim c = true := by
      intro c hc
      rcases List.mem_append.mp hc with hc | hc
      · rcases List.mem_append.mp hc with hc | hc
        · exact keyDelim_of_isBlank (hseparator heq c hc)
        · rw [List.mem_singleton.mp hc]
          decide
      · exact keyDelim_of_isBlank (hgapBlank c hc)
    obtain ⟨htail, hcomment⟩ := keptComment_form old value
    have hkept : ∀ c ∈ keptComment old value, c ∈ line := by
      intro c hc
      have hc := mem_keptComment hc
      rw [hold] at hc
      exact hmem (Separator.past_subset ((List.dropWhile_suffix _).subset hc))
    refine ⟨upTo '=' rest ++ ['='] ++ gap, keptComment old value, ?_, sep_of_chars (by simp) hchars, htail, hkept,
      fun hv => if_pos hv, fun hv => ?_⟩
    · rw [rewriteValue, htake, ← hrest]
      rw [if_pos heq, if_pos heq, if_pos heq, ← hold, ← hgap, keptComment]
      split
      · simp
      · split <;> simp
    · have hsplit : rest = (upTo '=' rest ++ ['='] ++ gap) ++ old := by
        rw [List.append_assoc, hgap, hold, List.takeWhile_append_dropWhile, List.append_assoc, List.singleton_append,
          Separator.upTo_append_past heq]
      rw [hcomment hv, commentOf, ← hrest, hsplit, dropWhile_comment (hash_notMem_sep hchars)]
  · -- the blanks behind the key, and an `=`
    obtain ⟨old, hold⟩ : ∃ old, old = rest.dropWhile isBlank := ⟨_, rfl⟩
    obtain ⟨gap, hgap⟩ : ∃ gap, gap = rest.takeWhile isBlank := ⟨_, rfl⟩
    have hgapBlank : ∀ c ∈ gap, isBlank c = true := fun c hc => List.mem_takeWhile_imp (hgap ▸ hc)
    have hchars : ∀ c ∈ gap ++ ['='], keyDelim c = true := by
      intro c hc
      rcases List.mem_append.mp hc with hc | hc
      · exact keyDelim_of_isBlank (hgapBlank c hc)
      · rw [List.mem_singleton.mp hc]
        decide
    obtain ⟨htail, hcomment⟩ := keptComment_form old value
    have hkept : ∀ c ∈ keptComment old value, c ∈ line := by
      intro c hc
      have hc := mem_keptComment hc
      rw [hold] at hc
      exact hmem ((List.dropWhile_suffix _).subset hc)
    refine ⟨gap ++ ['='], keptComment old value, ?_, sep_of_chars (by simp) hchars, htail, hkept, fun hv => if_pos hv,
      fun hv => ?_⟩
    · rw [rewriteValue, htake, ← hrest]
      rw [if_neg heq, if_neg heq, if_neg heq, ← hold, ← hgap, keptComment]
      split
      · simp
      · split <;> simp
    · have hsplit : rest = gap ++ old := by rw [hgap, hold, List.takeWhile_append_dropWhile]
      rw [hcomment hv, commentOf, ← hrest, hsplit, dropWhile_comment (hash_notMem_blanks hgapBlank)]

/-! ## Reading a line that was written -/

variable {sep value t : List Char}

theorem parts_written (hlead : ∀ c ∈ lead, keyDelim c = true) (hv : Carried key value) (hsep : Sep sep) :
    Parts (lead ++ (key ++ (sep ++ (value ++ t)))) lead key (sep ++ (value ++ t)) := by
  obtain ⟨d, tail, hd, hdelim⟩ := hsep.first
  refine ⟨rfl, ?_, hlead, fun c hc => (hv.key_chars c hc).1, hv.key_ne, hv.key_head.1, d, tail ++ (value ++ t), ?_, hdelim⟩
  · cases lead with
    | nil =>
      rw [List.nil_append, List.head?_append_of_ne_nil key hv.key_ne]
      exact hv.key_head.2
    | cons c lead =>
      intro hc
      have hbracket := hlead c List.mem_cons_self
      rw [Option.some.inj hc] at hbracket
      exact absurd hbracket (by decide)
  · rw [hd, List.cons_append]

theorem valueOf_written (hv : Carried key value) (hsep : Sep sep) (ht : Tail t) (hnil : value = [] → t = []) :
    valueOf (sep ++ (value ++ t)) = if value = [] then none else some value := by
  have hlead : ∀ c ∈ sep, valueLead c = true := by
    intro c hc
    have hkey := hsep.chars c hc
    simp only [keyDelim, valueLead, Bool.or_eq_true, beq_iff_eq] at hkey ⊢
    rcases hkey with (htab | hspace) | heq
    · exact .inl (.inl (.inl htab))
    · exact .inr hspace
    · exact .inl (.inl (.inr heq))
  by_cases hvalue : value = []
  · rw [if_pos hvalue, hvalue, hnil hvalue, List.append_nil, List.append_nil]
    exact valueOf_lead hlead
  · rw [if_neg hvalue]
    exact valueOf_carried hlead hv hvalue ht

theorem chomp_written (hv : Carried key value) (hsep : Sep sep) (hnil : value = [] → t = []) :
    chomp (lead ++ (key ++ (sep ++ (value ++ t)))) = lead ++ (key ++ (sep ++ (value ++ chomp t))) := by
  obtain ⟨d, tail, hd, -⟩ := hsep.first
  have hsepne : sep ≠ [] := hd ▸ List.cons_ne_nil d tail
  have hbehind : sep ++ (value ++ t) ≠ [] := List.append_ne_nil_of_left_ne_nil hsepne _
  rw [chomp_append lead (List.append_ne_nil_of_right_ne_nil key hbehind), chomp_append key hbehind]
  by_cases hvalue : value = []
  · have hsepLast : sep.getLast? ≠ some '\r' := by
      intro hlast
      exact absurd (hsep.chars '\r' (List.mem_of_getLast? hlast)) (by decide)
    rw [hvalue, hnil hvalue, List.append_nil, List.append_nil, chomp_of_last hsepLast]
    exact congrArg (lead ++ ·) (congrArg (key ++ ·) (List.append_nil sep).symm)
  · rw [chomp_append sep (List.append_ne_nil_of_left_ne_nil hvalue t)]
    by_cases ht : t = []
    · rw [ht, List.append_nil, chomp_of_last hv.value_ends.2.2]
      exact congrArg (lead ++ ·) (congrArg (key ++ ·) (congrArg (sep ++ ·) (List.append_nil value).symm))
    · rw [chomp_append value ht]

/-- A line that is written, as the next reader takes it: no header, and the pair unless its value is empty. -/
structure ReadsAs (line key value : List Char) : Prop where
  plain : (chomp line).head? ≠ some '['
  pair : pairOf (chomp line) = if value = [] then none else some (key, value)

theorem readsAs_written (hlead : ∀ c ∈ lead, keyDelim c = true) (hv : Carried key value) (hsep : Sep sep) (ht : Tail t)
    (hnil : value = [] → t = []) : ReadsAs (lead ++ (key ++ (sep ++ (value ++ t)))) key value := by
  have hchomped : value = [] → chomp t = [] := fun h => by rw [hnil h]; rfl
  have hparts := parts_written (t := chomp t) hlead hv hsep
  refine ⟨?_, ?_⟩
  · rw [chomp_written hv hsep hnil]
    exact hparts.head
  · rw [chomp_written hv hsep hnil, hparts.pairOf, valueOf_written hv hsep (chomp_tail ht) hchomped]
    split <;> rfl

/-- A line with a new value is read as the new value. -/
theorem pairOf_rewriteValue (h : Settled line) (hkey : lineKey line ≠ []) (hv : Carried (lineKey line) value) :
    ReadsAs (rewriteValue line value) (lineKey line) value ∧ lineKey (rewriteValue line value) = lineKey line ∧
      (value ≠ [] → commentOf (rewriteValue line value) = commentOf line) := by
  obtain ⟨sep, t, hform, hsep, ht, -, hnil, hcomment⟩ := rewriteValue_form h hkey value
  have hlead := (parts_of_lineKey hkey).lead_delims
  have hparts := parts_written (t := t) hlead hv hsep
  rw [hform]
  refine ⟨readsAs_written hlead hv hsep ht hnil, hparts.lineKey, fun hne => ?_⟩
  have hvalue : '#' ∉ value := fun hmem => absurd (hv.value_chars '#' hmem).1 (by decide)
  rw [commentOf, hparts.behind, dropWhile_comment (hash_notMem_sep hsep.chars), dropWhile_comment hvalue]
  exact hcomment hne

theorem readsAs_entryLine (hv : Carried key value) : ReadsAs (entryLine (key, value)) key value := by
  have hsep : Sep ['='] := sep_of_chars (List.cons_ne_nil _ _) fun c hc => by rw [List.mem_singleton.mp hc]; rfl
  have hread : ReadsAs ([] ++ (key ++ (['='] ++ (value ++ [])))) key value :=
    readsAs_written (fun c hc => absurd hc List.not_mem_nil) hv hsep (.inl rfl) fun _ => rfl
  rw [List.append_nil] at hread
  exact hread

theorem pairOf_chomp (hhead : line.head? ≠ some '[') (h : pairOf line = none) :
    (chomp line).head? ≠ some '[' ∧ pairOf (chomp line) = none := by
  by_cases hlast : line.getLast? = some '\r'
  · obtain ⟨a, rfl⟩ := List.getLast?_eq_some_iff.mp hlast
    have hchomp : chomp (a ++ ['\r']) = a := by rw [chomp, if_pos hlast, List.dropLast_concat]
    have hplain : a.head? ≠ some '[' := by
      cases a with
      | nil => exact (Option.some_ne_none '[').symm
      | cons c a => exact hhead
    rw [hchomp]
    refine ⟨hplain, ?_⟩
    by_cases hkey : lineKey a = []
    · rw [pairOf_eq, if_pos hkey]
    · -- the return was the last of what is behind the key
      have hparts := parts_of_lineKey hkey
      obtain ⟨d, tail, hrest, hd⟩ := hparts.rest_delim
      have hlonger : Parts (a ++ ['\r']) (a.takeWhile keyDelim) (lineKey a) (behindKey a ++ ['\r']) := by
        refine ⟨?_, hhead, hparts.lead_delims, hparts.key_chars, hparts.key_ne, hparts.key_head, d, tail ++ ['\r'], ?_, hd⟩
        · rw [← List.append_assoc, ← List.append_assoc]
          exact congrArg (· ++ ['\r']) (hparts.eq.trans (List.append_assoc _ _ _).symm)
        · rw [hrest, List.cons_append]
      have hnone : valueOf (behindKey a ++ ['\r']) = none := by
        rw [hlonger.pairOf] at h
        exact Option.map_eq_none_iff.mp h
      rw [valueOf] at hnone
      split at hnone
      · rename_i hnil
        exact absurd (List.dropWhile_eq_nil_iff.mp hnil '\r' (List.mem_append_right _ List.mem_cons_self)) (by decide)
      · exact absurd hnone (Option.some_ne_none _)
  · rw [chomp_of_last hlast]
    exact ⟨hhead, h⟩

/-! ## Reading the lines that were written -/

/-- What the next reader takes from lines that were written. -/
def readOut (s : List Char) (lines : List (List Char)) : List (List Char × List Char × List Char) :=
  assigns s (lines.map chomp)

/-- The section it is in behind them. -/
def endOut (s : List Char) (lines : List (List Char)) : List Char := sectionAfter s (lines.map chomp)

theorem readOut_append (s : List Char) (l₁ l₂ : List (List Char)) :
    readOut s (l₁ ++ l₂) = readOut s l₁ ++ readOut (endOut s l₁) l₂ := by
  rw [readOut, List.map_append, assigns_append]
  rfl

theorem endOut_append (s : List Char) (l₁ l₂ : List (List Char)) :
    endOut s (l₁ ++ l₂) = endOut (endOut s l₁) l₂ := by
  rw [endOut, List.map_append, sectionAfter_append]
  rfl

theorem readOut_singleton (s line : List Char) :
    readOut s [line] = ((pairOf (chomp line)).map fun pair => (nextSection s (chomp line), pair.1, pair.2)).toList := by
  simp only [readOut, List.map_cons, List.map_nil, assigns, sectioned, List.filterMap_cons, List.filterMap_nil,
    assignment]
  cases pairOf (chomp line) <;> rfl

theorem endOut_singleton (s line : List Char) : endOut s [line] = nextSection s (chomp line) := rfl

theorem nextSection_plain {s : List Char} (h : line.head? ≠ some '[') : nextSection s line = s := if_neg h

theorem endOut_plain {s : List Char} {lines : List (List Char)} (h : ∀ line ∈ lines, (chomp line).head? ≠ some '[') :
    endOut s lines = s := by
  induction lines with
  | nil => rfl
  | cons line lines ih =>
    have hline := nextSection_plain (s := s) (h line List.mem_cons_self)
    show endOut (nextSection s (chomp line)) lines = s
    rw [hline]
    exact ih fun l hl => h l (List.mem_cons_of_mem line hl)

variable {entries : List (List Char × List Char)} {s : List Char}

theorem endOut_entries (h : ∀ e ∈ entries, Carried e.1 e.2) : endOut s (entries.map entryLine) = s := by
  apply endOut_plain
  intro line hline
  obtain ⟨e, he, rfl⟩ := List.mem_map.mp hline
  exact (readsAs_entryLine (h e he)).plain

theorem mem_readOut_entries (h : ∀ e ∈ entries, Carried e.1 e.2) (a : List Char × List Char × List Char) :
    a ∈ readOut s (entries.map entryLine) ↔ a.1 = s ∧ a.2 ∈ entries ∧ a.2.2 ≠ [] := by
  induction entries with
  | nil => exact iff_of_false List.not_mem_nil fun hmem => List.not_mem_nil hmem.2.1
  | cons e entries ih =>
    have hread := readsAs_entryLine (h e List.mem_cons_self)
    have hrest := ih fun e' he' => h e' (List.mem_cons_of_mem e he')
    have hone : a ∈ readOut s [entryLine e] ↔ a.1 = s ∧ a.2 = e ∧ a.2.2 ≠ [] := by
      rw [readOut_singleton, nextSection_plain hread.plain, hread.pair]
      by_cases hv : e.2 = []
      · rw [if_pos hv]
        refine iff_of_false (by simp) fun hmem => hmem.2.2 ?_
        rw [hmem.2.1, hv]
      · rw [if_neg hv]
        simp only [Option.map_some, Option.toList_some, List.mem_singleton]
        constructor
        · rintro rfl
          exact ⟨rfl, rfl, hv⟩
        · rintro ⟨hs, he, -⟩
          exact Prod.ext hs he
    have hsplit : readOut s ((e :: entries).map entryLine) = readOut s [entryLine e] ++ readOut s (entries.map entryLine) := by
      rw [List.map_cons, ← List.singleton_append, readOut_append, endOut_singleton, nextSection_plain hread.plain]
    rw [hsplit, List.mem_append, hone, hrest, List.mem_cons, ← and_or_left, ← or_and_right]

theorem nextSection_header (hs : CarriedSection s) (hne : s ≠ []) (other : List Char) :
    nextSection other (chomp ('[' :: s ++ [']'])) = s := by
  have hlast : ('[' :: s ++ [']']).getLast? ≠ some '\r' := by
    rw [List.getLast?_append_of_ne_nil _ (List.cons_ne_nil ']' [])]
    decide
  have hname : parseSectionName ('[' :: s ++ [']']) = s := by
    have hchars : ∀ c ∈ s, (!bracket c) = true := fun c hc => by rw [(hs c hc).1]; rfl
    have hstart : ('[' :: s ++ [']']).dropWhile bracket = s ++ [']'] := by
      rw [List.cons_append, List.dropWhile_cons_of_pos (by decide)]
      apply dropWhile_head
      intro c hc
      rw [List.head?_append_of_ne_nil s hne] at hc
      exact (hs c (List.mem_of_mem_head? hc)).1
    rw [parseSectionName, hstart, List.takeWhile_append_of_pos hchars, takeWhile_head, List.append_nil]
    intro c hc
    rw [← Option.some.inj hc]
    decide
  have hhead : ('[' :: s ++ [']']).head? = some '[' := rfl
  rw [chomp_of_last hlast, nextSection, if_pos hhead, hname]
  exact if_neg hne

theorem mem_readOut_dump {es : ConfigSection} (hes : ∀ e ∈ es.entries, Carried e.1 e.2)
    (hs : es.entries ≠ [] → CarriedSection s ∧ s ≠ []) (other : List Char) (a : List Char × List Char × List Char) :
    a ∈ readOut other (dumpSection s es) ↔ a.1 = s ∧ a.2 ∈ es.entries ∧ a.2.2 ≠ [] := by
  have hhead : (chomp ('[' :: s ++ [']'])).head? = some '[' := by
    rw [List.cons_append, chomp_cons (by decide)]
    rfl
  have hnone : readOut other ['[' :: s ++ [']']] = [] := by
    rw [readOut_singleton, pairOf, if_pos hhead]
    rfl
  rw [dumpSection, ← List.singleton_append, readOut_append, hnone, List.nil_append, endOut_singleton]
  by_cases hnil : es.entries = []
  · rw [hnil]
    exact iff_of_false List.not_mem_nil fun hmem => List.not_mem_nil hmem.2.1
  · rw [nextSection_header (hs hnil).1 (hs hnil).2]
    exact mem_readOut_entries hes a

theorem mem_readOut_dumps {es : List (List Char × ConfigSection)} (hes : ∀ e ∈ es, ∀ x ∈ e.2.entries, Carried x.1 x.2)
    (hs : ∀ e ∈ es, e.2.entries ≠ [] → CarriedSection e.1 ∧ e.1 ≠ []) (other : List Char)
    (a : List Char × List Char × List Char) :
    a ∈ readOut other (es.flatMap fun e => dumpSection e.1 e.2) ↔
      ∃ e ∈ es, a.1 = e.1 ∧ a.2 ∈ e.2.entries ∧ a.2.2 ≠ [] := by
  induction es generalizing other with
  | nil => simp [readOut, assigns, sectioned]
  | cons e es ih =>
    have hhere := mem_readOut_dump (hes e List.mem_cons_self) (hs e List.mem_cons_self) other a
    have hrest := ih (fun e' he' => hes e' (List.mem_cons_of_mem e he')) (fun e' he' => hs e' (List.mem_cons_of_mem e he'))
      (endOut other (dumpSection e.1 e.2))
    rw [List.flatMap_cons, readOut_append, List.mem_append, hhere, hrest, List.exists_mem_cons_iff]

/-! ## The writer -/

/-- A line, and what stands in its place: the line, or the line with the value of its key. -/
def Keeps (m : ConfigMap) (place : List Char × List Char) (written : List Char) : Prop :=
  written = place.2 ∨
    ∃ value, lineKey place.2 ≠ [] ∧ findIn m place.1 (lineKey place.2) = some value ∧
      lineKey written = lineKey place.2 ∧ (value ≠ [] → commentOf written = commentOf place.2)

/-- What a persisted map can be, so that it is written. -/
structure Writable (m : ConfigMap) : Prop where
  carried : ∀ s k v, findIn m s k = some v → Carried k v
  sections : ∀ s entries, m.find s = some entries → CarriedSection s

/-- The lines that are written while those of the texts are gone through. -/
structure Along (m : ConfigMap) (done : List (List Char)) (pending : ConfigMap) (written : List (List Char)) : Prop where
  ends : endOut [] written = sectionAfter [] done
  sound : ∀ a ∈ readOut [] written, findIn m a.1 a.2.1 = some a.2.2
  complete : ∀ s k v, findIn m s k = some v → v ≠ [] →
    findIn pending s k = some v ∨ ∃ v', (s, k, v') ∈ readOut [] written
  within : ∀ s k v, findIn pending s k = some v → findIn m s k = some v
  headless : sectionAfter [] done = [] ∨ ∀ k, findIn pending [] k = none
  kept : ∃ kept, kept.Sublist written ∧ List.Forall₂ (Keeps m) (sectioned [] done) kept
  breaks : ∀ line ∈ written, '\n' ∉ line

variable {m pending : ConfigMap} {done written : List (List Char)}

theorem sectioned_concat (s : List Char) (done : List (List Char)) (line : List Char) :
    sectioned s (done ++ [line]) = sectioned s done ++ [(nextSection (sectionAfter s done) line, line)] :=
  sectioned_append s done [line]

theorem sectionAfter_concat (s : List Char) (done : List (List Char)) (line : List Char) :
    sectionAfter s (done ++ [line]) = nextSection (sectionAfter s done) line := sectionAfter_append s done [line]

theorem Along.push (h : Along m done pending written) {o : List Char} {pending' : ConfigMap}
    (hnext : nextSection (sectionAfter [] done) (chomp o) = nextSection (sectionAfter [] done) line)
    (hsound : ∀ k v, pairOf (chomp o) = some (k, v) → findIn m (nextSection (sectionAfter [] done) line) k = some v)
    (hcomplete : ∀ s k v, findIn pending s k = some v → v ≠ [] → findIn pending' s k = some v ∨
      s = nextSection (sectionAfter [] done) line ∧ ∃ v', pairOf (chomp o) = some (k, v'))
    (hpending : ∀ s k v, findIn pending' s k = some v → findIn pending s k = some v)
    (hheadless : nextSection (sectionAfter [] done) line = [] ∨ ∀ k, findIn pending' [] k = none)
    (hkeeps : Keeps m (nextSection (sectionAfter [] done) line, line) o) (hbreak : '\n' ∉ o) :
    Along m (done ++ [line]) pending' (written ++ [o]) := by
  -- One line more is read: its entry, if it has one, in the section it stands in.
  have hread : readOut [] (written ++ [o]) = readOut [] written ++
      ((pairOf (chomp o)).map fun pair => (nextSection (sectionAfter [] done) line, pair.1, pair.2)).toList := by
    rw [readOut_append, readOut_singleton, h.ends, hnext]
  refine ⟨?_, ?_, ?_, fun s k v hv => h.within s k v (hpending s k v hv), ?_, ?_, ?_⟩
  · rw [endOut_append, endOut_singleton, h.ends, hnext, sectionAfter_concat]
  · intro a ha
    rw [hread] at ha
    rcases List.mem_append.mp ha with ha | ha
    · exact h.sound a ha
    · rw [Option.mem_toList, Option.map_eq_some_iff] at ha
      obtain ⟨pair, hpair, rfl⟩ := ha
      exact hsound pair.1 pair.2 hpair
  · intro s k v hv hne
    rw [hread]
    rcases h.complete s k v hv hne with hfound | ⟨v', hmem⟩
    · rcases hcomplete s k v hfound hne with hstill | ⟨hs, v', hpair⟩
      · exact .inl hstill
      · refine .inr ⟨v', List.mem_append_right _ ?_⟩
        rw [hpair, hs]
        exact List.mem_singleton.mpr rfl
    · exact .inr ⟨v', List.mem_append_left _ hmem⟩
  · rw [sectionAfter_concat]
    exact hheadless
  · obtain ⟨kept, hsub, hall⟩ := h.kept
    refine ⟨kept ++ [o], hsub.append (List.Sublist.refl [o]), ?_⟩
    rw [sectioned_concat]
    exact List.rel_append hall (.cons hkeeps .nil)
  · intro l hl
    rcases List.mem_append.mp hl with hl | hl
    · exact h.breaks l hl
    · rw [List.mem_singleton.mp hl]
      exact hbreak

theorem pairOf_header (h : line.head? = some '[') : pairOf line = none := if_pos h

theorem head_chomp_header (h : line.head? = some '[') : (chomp line).head? = some '[' := by
  cases line with
  | nil => exact absurd h (Option.some_ne_none '[').symm
  | cons c line =>
    have hc : c = '[' := Option.some.inj h
    rw [hc, chomp_cons (by decide)]
    rfl

theorem nextSection_chomp (h : Settled line) (hhead : line.head? = some '[') (s : List Char) :
    nextSection s (chomp line) = nextSection s line := by
  rw [nextSection, nextSection, if_pos hhead, if_pos (head_chomp_header hhead), h.header hhead]

theorem Along.keep (h : Along m done pending written) (hline : Settled line) (hbreak : '\n' ∉ line)
    (hpair : line.head? ≠ some '[' → pairOf line = none)
    (hheadless : nextSection (sectionAfter [] done) line = [] ∨ ∀ k, findIn pending [] k = none) :
    Along m (done ++ [line]) pending (written ++ [line]) := by
  have hread : nextSection (sectionAfter [] done) (chomp line) = nextSection (sectionAfter [] done) line ∧
      pairOf (chomp line) = none := by
    by_cases hhead : line.head? = some '['
    · exact ⟨nextSection_chomp hline hhead _, pairOf_header (head_chomp_header hhead)⟩
    · obtain ⟨hplain, hnone⟩ := pairOf_chomp hhead (hpair hhead)
      rw [nextSection_plain hplain, nextSection_plain hhead]
      exact ⟨rfl, hnone⟩
  apply h.push hread.1
  · intro k v hkv
    rw [hread.2] at hkv
    exact absurd hkv (Option.some_ne_none _).symm
  · exact fun s k v hv _ => .inl hv
  · exact fun s k v hv => hv
  · exact hheadless
  · exact .inl rfl
  · exact hbreak

theorem newline_notMem_entryLine {k v : List Char} (h : Carried k v) : '\n' ∉ entryLine (k, v) := by
  intro hmem
  rcases List.mem_append.mp hmem with hk | hv
  · exact (h.key_chars '\n' hk).2 rfl
  · rcases List.mem_cons.mp hv with heq | hv
    · exact absurd heq (by decide)
    · exact (h.value_chars '\n' hv).2 rfl

theorem newline_notMem_rewriteValue (h : Settled line) (hbreak : '\n' ∉ line) (hkey : lineKey line ≠ [])
    {value : List Char} (hv : Carried (lineKey line) value) : '\n' ∉ rewriteValue line value := by
  obtain ⟨sep, t, hform, hsep, -, hmem, -, -⟩ := rewriteValue_form h hkey value
  rw [hform]
  simp only [List.mem_append, not_or]
  refine ⟨?_, ?_, ?_, ?_, ?_⟩
  · exact fun hn => hbreak ((List.takeWhile_prefix _).subset hn)
  · exact fun hn => (hv.key_chars '\n' hn).2 rfl
  · exact fun hn => absurd (hsep.chars '\n' hn) (by decide)
  · exact fun hn => (hv.value_chars '\n' hn).2 rfl
  · exact fun hn => hbreak (hmem '\n' hn)

theorem Along.rewrite (h : Along m done pending written) (hm : Writable m) (hline : Settled line) (hbreak : '\n' ∉ line)
    (hkey : lineKey line ≠ []) {value : List Char}
    (hvalue : findIn m (sectionAfter [] done) (lineKey line) = some value) :
    Along m (done ++ [line]) (eraseKey pending (sectionAfter [] done) (lineKey line))
      (written ++ [rewriteValue line value]) := by
  have hhead := (parts_of_lineKey hkey).head
  have hhere : nextSection (sectionAfter [] done) line = sectionAfter [] done := nextSection_plain hhead
  have hcarried := hm.carried _ _ _ hvalue
  obtain ⟨hread, hsame, hcomment⟩ := pairOf_rewriteValue hline hkey hcarried
  apply h.push
  · rw [nextSection_plain hread.plain, hhere]
  · intro k v hkv
    rw [hread.pair] at hkv
    split at hkv
    · exact absurd hkv (Option.some_ne_none _).symm
    · obtain ⟨rfl, rfl⟩ := Prod.mk.inj (Option.some.inj hkv)
      rw [hhere]
      exact hvalue
  · intro s k v hv hne
    rw [findIn_eraseKey]
    by_cases hthis : sectionAfter [] done = s ∧ lineKey line = k
    · -- the key that is written here
      right
      obtain ⟨rfl, rfl⟩ := hthis
      have heq : value = v := Option.some.inj (hvalue.symm.trans (h.within _ _ _ hv))
      refine ⟨hhere.symm, v, ?_⟩
      rw [hread.pair, heq, if_neg hne]
    · rw [if_neg hthis]
      exact .inl hv
  · intro s k v hv
    rw [findIn_eraseKey] at hv
    split at hv
    · exact absurd hv (Option.some_ne_none _).symm
    · exact hv
  · rw [hhere]
    refine h.headless.imp_right fun hnone k => ?_
    rw [findIn_eraseKey, hnone k]
    exact ite_self none
  · refine .inr ⟨value, hkey, ?_, hsame, hcomment⟩
    rw [hhere]
    exact hvalue
  · exact newline_notMem_rewriteValue hline hbreak hkey hcarried

/-! ## A section that ends -/

theorem readOut_blanks {blanks : List (List Char)} (h : ∀ line ∈ blanks, line = []) (s : List Char) :
    endOut s blanks = s ∧ readOut s blanks = [] := by
  induction blanks with
  | nil => exact ⟨rfl, rfl⟩
  | cons line blanks ih =>
    rw [h line List.mem_cons_self]
    exact ih fun l hl => h l (List.mem_cons_of_mem line hl)

/-- The new keys of a section that ends. -/
def newLines (pending : ConfigMap) (s : List Char) : List (List Char) :=
  match pending.find s with
  | some entries => entries.entries.map entryLine
  | none => []

theorem newLines_eq (pending : ConfigMap) (s : List Char) :
    newLines pending s = ((pending.find s).getD {}).entries.map entryLine := by
  rw [newLines]
  cases pending.find s <;> rfl

theorem mem_newLines (pending : ConfigMap) (s k v : List Char) :
    (k, v) ∈ ((pending.find s).getD {}).entries ↔ findIn pending s k = some v := by
  rw [findIn]
  cases pending.find s with
  | none => exact iff_of_false List.not_mem_nil (Option.some_ne_none v).symm
  | some entries => exact KeyedMap.mem_entries entries k v

theorem Along.insert (hm : Writable m) {filled blanks : List (List Char)}
    (h : Along m done pending (filled ++ blanks)) (hblank : ∀ line ∈ blanks, line = []) :
    Along m done (pending.erase (sectionAfter [] done)) (filled ++ newLines pending (sectionAfter [] done) ++ blanks) ∧
      ∀ k, findIn (pending.erase (sectionAfter [] done)) [] k = none := by
  have hcarried : ∀ e ∈ ((pending.find (sectionAfter [] done)).getD {}).entries, Carried e.1 e.2 := fun e he =>
    hm.carried _ _ _ (h.within _ _ _ ((mem_newLines pending _ e.1 e.2).mp he))
  obtain ⟨fresh, hfresh⟩ : ∃ fresh, fresh = newLines pending (sectionAfter [] done) := ⟨_, rfl⟩
  have hentries := hfresh.trans (newLines_eq pending (sectionAfter [] done))
  have hfilled : endOut [] filled = sectionAfter [] done := by
    have hends := h.ends
    rw [endOut_append, (readOut_blanks hblank _).1] at hends
    exact hends
  -- Blank lines hold no entry, and do not end a section.
  have hbefore : readOut [] (filled ++ blanks) = readOut [] filled := by
    rw [readOut_append, (readOut_blanks hblank _).2, List.append_nil]
  have hends : endOut [] (filled ++ fresh) = sectionAfter [] done := by
    rw [endOut_append, hfilled, hentries, endOut_entries hcarried]
  have hread : readOut [] (filled ++ fresh ++ blanks) =
      readOut [] filled ++ readOut (sectionAfter [] done) fresh := by
    rw [readOut_append, (readOut_blanks hblank _).2, List.append_nil, readOut_append, hfilled]
  have hfreshRead : ∀ a, a ∈ readOut (sectionAfter [] done) fresh ↔
      a.1 = sectionAfter [] done ∧ findIn pending a.1 a.2.1 = some a.2.2 ∧ a.2.2 ≠ [] := by
    intro a
    rw [hentries, mem_readOut_entries hcarried]
    refine and_congr_right fun ha => ?_
    rw [ha, ← mem_newLines pending (sectionAfter [] done) a.2.1 a.2.2]
  rw [← hfresh]
  -- The fields of `Along` in their order, and that no entry without a section is left.
  refine ⟨⟨?_, ?_, ?_, ?_, ?_, ?_, ?_⟩, ?_⟩
  · rw [endOut_append, hends, (readOut_blanks hblank _).1]
  · intro a ha
    rw [hread] at ha
    rcases List.mem_append.mp ha with ha | ha
    · exact h.sound a (hbefore ▸ ha)
    · exact h.within _ _ _ ((hfreshRead a).mp ha).2.1
  · intro s k v hv hne
    rw [hread, findIn_erase]
    rcases h.complete s k v hv hne with hfound | ⟨v', hmem⟩
    · -- An entry that was pending is in the new lines if it is of this section, and stays pending if not.
      by_cases hs : sectionAfter [] done = s
      · exact .inr ⟨v, List.mem_append_right _ ((hfreshRead (s, k, v)).mpr ⟨hs.symm, hfound, hne⟩)⟩
      · rw [if_neg hs]
        exact .inl hfound
    · rw [hbefore] at hmem
      exact .inr ⟨v', List.mem_append_left _ hmem⟩
  · intro s k v hv
    rw [findIn_erase] at hv
    split at hv
    · exact absurd hv (Option.some_ne_none v).symm
    · exact h.within s k v hv
  · refine h.headless.imp_right fun hnone k => ?_
    rw [findIn_erase, hnone k]
    exact ite_self none
  · obtain ⟨kept, hsub, hall⟩ := h.kept
    exact ⟨kept, hsub.trans ((List.sublist_append_left filled fresh).append (List.Sublist.refl blanks)), hall⟩
  · intro line hline
    rcases List.mem_append.mp hline with hline | hline
    · rcases List.mem_append.mp hline with hline | hline
      · exact h.breaks line (List.mem_append_left _ hline)
      · rw [hentries] at hline
        obtain ⟨e, he, rfl⟩ := List.mem_map.mp hline
        exact newline_notMem_entryLine (hcarried e he)
    · exact h.breaks line (List.mem_append_right _ hline)
  · intro k
    rw [findIn_erase]
    rcases h.headless with hnil | hnone
    · exact if_pos hnil
    · rw [hnone k]
      exact ite_self none

theorem Along.flush {w : Writer} (hm : Writable m) (h : Along m done w.pending (w.out ++ w.buffered))
    (hcurrent : w.current = sectionAfter [] done) :
    Along m done w.flush.pending w.flush.out ∧ ∀ k, findIn w.flush.pending [] k = none := by
  obtain ⟨filled, hfilled⟩ : ∃ filled, filled = (w.buffered.reverse.dropWhile (· = [])).reverse := ⟨_, rfl⟩
  have hsplit : w.buffered = filled ++ (w.buffered.reverse.takeWhile (· = [])).reverse := by
    rw [hfilled, ← List.reverse_append, List.takeWhile_append_dropWhile, List.reverse_reverse]
  have hdrop : w.buffered.drop filled.length = (w.buffered.reverse.takeWhile (· = [])).reverse :=
    (congrArg (List.drop filled.length) hsplit).trans List.drop_left
  have hblank : ∀ line ∈ w.buffered.drop filled.length, line = [] := by
    intro line hline
    rw [hdrop] at hline
    have hnil := List.mem_takeWhile_imp (List.mem_reverse.mp hline)
    exact of_decide_eq_true hnil
  have hout : w.flush.out = w.out ++ filled ++ newLines w.pending w.current ++ w.buffered.drop filled.length := by
    rw [hfilled]
    rfl
  have hpending : w.flush.pending = w.pending.erase w.current := rfl
  rw [hout, hpending, hcurrent]
  apply Along.insert hm ?_ hblank
  rw [hdrop, List.append_assoc, ← hsplit]
  exact h

/-! ## The lines of the texts -/

theorem lineKey_of_pairOf {k v : List Char} (h : pairOf line = some (k, v)) :
    lineKey line = k ∧ lineKey line ≠ [] ∧ valueOf (behindKey line) = some v := by
  rw [pairOf_eq] at h
  split at h
  · exact absurd h (Option.some_ne_none _).symm
  rename_i hkey
  obtain ⟨v', hv', hpair⟩ := Option.map_eq_some_iff.mp h
  obtain ⟨hk, rfl⟩ := Prod.mk.inj hpair
  exact ⟨hk, hkey, hv'⟩

theorem Along.step {w : Writer} (hm : Writable m) (h : Along m done w.pending (w.out ++ w.buffered))
    (hcurrent : w.current = sectionAfter [] done) (hline : Settled line) (hbreak : '\n' ∉ line)
    (hheld : ∀ k v, pairOf line = some (k, v) → (findIn m (sectionAfter [] (done ++ [line])) k).isSome) :
    Along m (done ++ [line]) (w.line m line).pending ((w.line m line).out ++ (w.line m line).buffered) ∧
      (w.line m line).current = sectionAfter [] (done ++ [line]) := by
  rw [sectionAfter_concat] at hheld ⊢
  by_cases hhead : line.head? = some '['
  · have hno : line.head? ≠ some '[' → pairOf line = none := fun hplain => absurd hhead hplain
    by_cases hname : parseSectionName line = []
    · -- a header without a name
      have hsame : nextSection (sectionAfter [] done) line = sectionAfter [] done := by
        rw [nextSection, if_pos hhead]
        exact if_pos hname
      have hwriter : w.line m line = { w with buffered := w.buffered ++ [line] } := by
        rw [Writer.line, if_pos hhead]
        exact congrArg (fun w : Writer => { w with buffered := w.buffered ++ [line] }) (if_pos hname)
      rw [hwriter, hsame]
      refine ⟨?_, hcurrent⟩
      rw [← List.append_assoc]
      exact h.keep hline hbreak hno (hsame.symm ▸ h.headless)
    · -- a section ends
      have hother : nextSection (sectionAfter [] done) line = parseSectionName line := by
        rw [nextSection, if_pos hhead]
        exact if_neg hname
      have hwriter : w.line m line =
          { w.flush with current := parseSectionName line, buffered := w.flush.buffered ++ [line] } := by
        rw [Writer.line, if_pos hhead]
        exact congrArg (fun w : Writer => { w with buffered := w.buffered ++ [line] }) (if_neg hname)
      obtain ⟨hflush, hnone⟩ := h.flush hm hcurrent
      rw [hwriter, hother]
      exact ⟨hflush.keep hline hbreak hno (.inr hnone), rfl⟩
  · have hsame : nextSection (sectionAfter [] done) line = sectionAfter [] done := nextSection_plain hhead
    rw [hsame] at hheld ⊢
    cases hfound : if lineKey line = [] then none else findIn m w.current (lineKey line) with
    | none =>
      have hwriter : w.line m line = { w with buffered := w.buffered ++ [line] } := by
        rw [Writer.line, if_neg hhead]
        simp only [hfound]
      have hpair : pairOf line = none := by
        cases hp : pairOf line with
        | none => rfl
        | some pair =>
          obtain ⟨hkey, hne, -⟩ := lineKey_of_pairOf hp
          have hsome := hheld pair.1 pair.2 hp
          rw [if_neg hne, hcurrent, hkey] at hfound
          rw [hfound] at hsome
          exact absurd hsome (by decide)
      rw [hwriter]
      refine ⟨?_, hcurrent⟩
      rw [← List.append_assoc]
      exact h.keep hline hbreak (fun _ => hpair) (hsame.symm ▸ h.headless)
    | some value =>
      have hwriter : w.line m line =
          { w with
            buffered := w.buffered ++ [rewriteValue line value]
            pending := eraseKey w.pending w.current (lineKey line) } := by
        rw [Writer.line, if_neg hhead]
        simp only [hfound]
      have hkey : lineKey line ≠ [] := by
        intro hnil
        rw [if_pos hnil] at hfound
        exact absurd hfound (Option.some_ne_none value).symm
      rw [if_neg hkey, hcurrent] at hfound
      rw [hwriter]
      refine ⟨?_, hcurrent⟩
      rw [← List.append_assoc, hcurrent]
      exact h.rewrite hm hline hbreak hkey hfound

theorem Along.run {w : Writer} (hm : Writable m) {rest : List (List Char)}
    (h : Along m done w.pending (w.out ++ w.buffered)) (hcurrent : w.current = sectionAfter [] done)
    (hlines : ∀ line ∈ rest, Settled line ∧ '\n' ∉ line)
    (hheld : ∀ a ∈ assigns (sectionAfter [] done) rest, (findIn m a.1 a.2.1).isSome) :
    Along m (done ++ rest) (rest.foldl (Writer.line m) w).pending
        ((rest.foldl (Writer.line m) w).out ++ (rest.foldl (Writer.line m) w).buffered) ∧
      (rest.foldl (Writer.line m) w).current = sectionAfter [] (done ++ rest) := by
  induction rest generalizing done w with
  | nil =>
    rw [List.append_nil]
    exact ⟨h, hcurrent⟩
  | cons line rest ih =>
    obtain ⟨hline, hbreak⟩ := hlines line List.mem_cons_self
    rw [← List.singleton_append, assigns_append] at hheld
    -- A pair of this line is held, since the whole list of pairs is.
    have hhere : ∀ k v, pairOf line = some (k, v) → (findIn m (sectionAfter [] (done ++ [line])) k).isSome := by
      intro k v hpair
      have hassigned : (sectionAfter [] (done ++ [line]), k, v) ∈ assigns (sectionAfter [] done) [line] := by
        rw [sectionAfter_concat]
        simp only [assigns, sectioned, List.filterMap_cons, List.filterMap_nil, assignment, hpair, Option.map_some]
        exact List.mem_cons_self
      exact hheld _ (List.mem_append_left _ hassigned)
    obtain ⟨hnext, hthere⟩ := h.step hm hcurrent hline hbreak hhere
    have hstep := ih hnext hthere (fun l hl => hlines l (List.mem_cons_of_mem line hl))
      (fun a ha => hheld a (List.mem_append_right _ (sectionAfter_append [] done [line] ▸ ha)))
    rw [List.append_assoc, List.singleton_append] at hstep
    exact hstep

/-! ## The file that is written -/

/-- What a store is, whatever it has parsed and was set to. -/
structure Good (c : Config) : Prop where
  lines : ∀ line ∈ c.lines, Settled line ∧ '\n' ∉ line
  held : ∀ a ∈ assigns [] c.lines, (findIn c.config a.1 a.2.1).isSome
  writable : Writable c.config
  headless : c.lines = [] → ∀ k, findIn c.config [] k = none

/-- The file, as it is read. -/
structure Written (c : Config) : Prop where
  sound : ∀ a ∈ readOut [] (toLines c), findIn c.config a.1 a.2.1 = some a.2.2
  complete : ∀ s k v, findIn c.config s k = some v → v ≠ [] → ∃ v', (s, k, v') ∈ readOut [] (toLines c)
  kept : ∃ kept, kept.Sublist (toLines c) ∧ List.Forall₂ (Keeps c.config) (sectioned [] c.lines) kept
  breaks : ∀ line ∈ toLines c, '\n' ∉ line

theorem mem_sections (m : ConfigMap) (s k v : List Char) :
    (∃ e ∈ m.entries, s = e.1 ∧ (k, v) ∈ e.2.entries) ↔ findIn m s k = some v := by
  constructor
  · rintro ⟨e, he, rfl, hkv⟩
    have hfind := (KeyedMap.mem_entries m e.1 e.2).mp he
    rw [findIn, hfind, Option.bind_some]
    exact (KeyedMap.mem_entries e.2 k v).mp hkv
  · intro h
    obtain ⟨entries, hfind, hkv⟩ := Option.bind_eq_some_iff.mp h
    exact ⟨(s, entries), (KeyedMap.mem_entries m s entries).mpr hfind, rfl, (KeyedMap.mem_entries entries k v).mpr hkv⟩

theorem newline_notMem_dump {s : List Char} {es : ConfigSection} (hs : CarriedSection s)
    (hes : ∀ e ∈ es.entries, Carried e.1 e.2) : ∀ line ∈ dumpSection s es, '\n' ∉ line := by
  intro line hline
  rcases List.mem_cons.mp hline with rfl | hline
  · intro hmem
    rcases List.mem_append.mp hmem with hmem | hmem
    · rcases List.mem_cons.mp hmem with heq | hmem
      · exact absurd heq (by decide)
      · exact (hs '\n' hmem).2 rfl
    · exact absurd (List.mem_singleton.mp hmem) (by decide)
  · obtain ⟨e, he, rfl⟩ := List.mem_map.mp hline
    exact newline_notMem_entryLine (hes e he)

theorem dumps_spec (hm : Writable m) (hwithin : ∀ s k v, findIn pending s k = some v → findIn m s k = some v)
    (hnone : ∀ k, findIn pending [] k = none) :
    (∀ e ∈ pending.entries, ∀ x ∈ e.2.entries, Carried x.1 x.2) ∧
      ∀ e ∈ pending.entries, e.2.entries ≠ [] → CarriedSection e.1 ∧ e.1 ≠ [] := by
  have hfind : ∀ e ∈ pending.entries, ∀ x ∈ e.2.entries, findIn pending e.1 x.1 = some x.2 :=
    fun e he x hx => (mem_sections pending e.1 x.1 x.2).mp ⟨e, he, rfl, hx⟩
  refine ⟨fun e he x hx => hm.carried _ _ _ (hwithin _ _ _ (hfind e he x hx)), fun e he hne => ?_⟩
  obtain ⟨x, xs, hx⟩ := List.exists_cons_of_ne_nil hne
  have hfound := hfind e he x (hx ▸ List.mem_cons_self)
  constructor
  · obtain ⟨entries, hentries, -⟩ := Option.bind_eq_some_iff.mp (hwithin _ _ _ hfound)
    exact hm.sections e.1 entries hentries
  · intro hnil
    rw [hnil, hnone] at hfound
    exact absurd hfound (Option.some_ne_none x.2).symm

theorem flatMap_nonempty (es : List (List Char × ConfigSection)) :
    (es.flatMap fun e => if e.2.entries = [] then [] else dumpSection e.1 e.2) =
      (es.filter fun e => e.2.entries ≠ []).flatMap fun e => dumpSection e.1 e.2 := by
  induction es with
  | nil => rfl
  | cons e es ih =>
    by_cases h : e.2.entries = []
    · rw [List.flatMap_cons, if_pos h, ih, List.filter_cons_of_neg (by simpa using h), List.nil_append]
    · rw [List.flatMap_cons, if_neg h, ih, List.filter_cons_of_pos (by simpa using h), List.flatMap_cons]

theorem written_of_nothing {c : Config} (h : Good c) (hlines : c.lines = []) : Written c := by
  obtain ⟨hcarried, hsections⟩ := dumps_spec h.writable (fun _ _ _ hv => hv) (h.headless hlines)
  have hout : toLines c = c.config.entries.flatMap fun e => dumpSection e.1 e.2 := if_pos hlines
  have hread : ∀ a, a ∈ readOut [] (toLines c) ↔ findIn c.config a.1 a.2.1 = some a.2.2 ∧ a.2.2 ≠ [] := by
    intro a
    rw [hout, mem_readOut_dumps hcarried hsections, ← mem_sections]
    exact ⟨fun ⟨e, he, hs, hmem, hne⟩ => ⟨⟨e, he, hs, hmem⟩, hne⟩, fun ⟨⟨e, he, hs, hmem⟩, hne⟩ => ⟨e, he, hs, hmem, hne⟩⟩
  refine ⟨fun a ha => ((hread a).mp ha).1, fun s k v hv hne => ⟨v, (hread (s, k, v)).mpr ⟨hv, hne⟩⟩, ?_, ?_⟩
  · rw [hlines]
    exact ⟨[], List.nil_sublist _, .nil⟩
  · intro line hline
    rw [hout] at hline
    obtain ⟨e, he, hline⟩ := List.mem_flatMap.mp hline
    have hfind := (KeyedMap.mem_entries c.config e.1 e.2).mp he
    exact newline_notMem_dump (h.writable.sections e.1 e.2 hfind) (hcarried e he) line hline

theorem written_of_lines {c : Config} (h : Good c) (hlines : c.lines ≠ []) : Written c := by
  obtain ⟨w, hw⟩ : ∃ w, w = c.lines.foldl (Writer.line c.config) { pending := c.config } := ⟨_, rfl⟩
  -- The writer starts with everything pending, and nothing written.
  have hstart : Along c.config [] c.config [] :=
    ⟨rfl, fun a ha => absurd ha List.not_mem_nil, fun s k v hv _ => .inl hv, fun s k v hv => hv, .inl rfl,
      ⟨[], List.Sublist.refl [], .nil⟩, fun line hline => absurd hline List.not_mem_nil⟩
  obtain ⟨hrun, hcurrent⟩ := Along.run (w := { pending := c.config }) h.writable hstart rfl h.lines h.held
  rw [← hw, List.nil_append] at hrun hcurrent
  obtain ⟨hflush, hnone⟩ := hrun.flush h.writable hcurrent
  obtain ⟨hcarried, hsections⟩ := dumps_spec h.writable hflush.within hnone
  obtain ⟨es, hes⟩ : ∃ es, es = w.flush.pending.entries.filter fun e => e.2.entries ≠ [] := ⟨_, rfl⟩
  have hsub : ∀ e ∈ es, e ∈ w.flush.pending.entries := fun e he => List.mem_of_mem_filter (hes ▸ he)
  have hout : toLines c = w.flush.out ++ es.flatMap fun e => dumpSection e.1 e.2 := by
    rw [hes, ← flatMap_nonempty, toLines, if_neg hlines, ← hw]
  -- What is pending at the end is dumped section by section, empty sections left out.
  have hdumps : ∀ s k v, (s, k, v) ∈ readOut (endOut [] w.flush.out) (es.flatMap fun e => dumpSection e.1 e.2) ↔
      findIn w.flush.pending s k = some v ∧ v ≠ [] := by
    intro s k v
    rw [mem_readOut_dumps (fun e he => hcarried e (hsub e he)) fun e he => hsections e (hsub e he), ← mem_sections]
    constructor
    · rintro ⟨e, he, hs, hmem, hne⟩
      exact ⟨⟨e, hsub e he, hs, hmem⟩, hne⟩
    · rintro ⟨⟨e, he, hs, hmem⟩, hne⟩
      have hfull : e.2.entries ≠ [] := List.ne_nil_of_mem hmem
      exact ⟨e, hes ▸ List.mem_filter.mpr ⟨he, decide_eq_true hfull⟩, hs, hmem, hne⟩
  -- Each field of `Written` is that of the lines so far, or of the dump behind them.
  refine ⟨?_, ?_, ?_, ?_⟩
  · rintro ⟨s, k, v⟩ ha
    rw [hout, readOut_append] at ha
    rcases List.mem_append.mp ha with ha | ha
    · exact hflush.sound _ ha
    · exact hflush.within s k v ((hdumps s k v).mp ha).1
  · intro s k v hv hne
    rw [hout, readOut_append]
    rcases hflush.complete s k v hv hne with hfound | ⟨v', hmem⟩
    · exact ⟨v, List.mem_append_right _ ((hdumps s k v).mpr ⟨hfound, hne⟩)⟩
    · exact ⟨v', List.mem_append_left _ hmem⟩
  · obtain ⟨kept, hkept, hall⟩ := hflush.kept
    rw [hout]
    exact ⟨kept, hkept.trans (List.sublist_append_left _ _), hall⟩
  · intro line hline
    rw [hout] at hline
    rcases List.mem_append.mp hline with hline | hline
    · exact hflush.breaks line hline
    · obtain ⟨e, he, hline⟩ := List.mem_flatMap.mp hline
      have hfull : e.2.entries ≠ [] := by
        have hfilter := (List.mem_filter.mp (hes ▸ he)).2
        exact of_decide_eq_true hfilter
      exact newline_notMem_dump (hsections e (hsub e he) hfull).1 (hcarried e (hsub e he)) line hline

theorem written_of_good {c : Config} (h : Good c) : Written c := by
  by_cases hlines : c.lines = []
  · exact written_of_nothing h hlines
  · exact written_of_lines h hlines

theorem find_parseStream_toStream {c : Config} (h : Written c) (s k : List Char) :
    findIn (parseStream {} (toStream c)).config s k = (findIn c.config s k).filter (· ≠ []) := by
  -- The text is cut at the breaks it was written with, so what is read are the lines that were written.
  have hread : (parseStream {} (toStream c)).config =
      (readOut [] (toLines c)).foldl (fun m a => put m a.1 a.2.1 a.2.2) {} := by
    have hcut : linesOf (toStream c) = (toLines c).map chomp := by
      rw [linesOf, toStream, Fields.fields_terminated h.breaks]
    rw [parseStream, hcut, foldl_readLine]
    rfl
  rw [hread]
  cases hfound : findIn ((readOut [] (toLines c)).foldl (fun m a => put m a.1 a.2.1 a.2.2) {}) s k with
  | some v =>
    have hmem : (s, k, v) ∈ readOut [] (toLines c) := by
      rcases assigns_of_find hfound with hmem | hnone
      · exact hmem
      · exact absurd hnone (Option.some_ne_none v).symm
    -- No entry that is read has an empty value.
    have hne : v ≠ [] := by
      obtain ⟨place, -, hplace⟩ := List.mem_filterMap.mp hmem
      obtain ⟨pair, hpair, heq⟩ := Option.map_eq_some_iff.mp hplace
      have hvalue := (valueOf_spec (lineKey_of_pairOf hpair).2.2).1
      have hv : pair.2 = v := congrArg (fun a : List Char × List Char × List Char => a.2.2) heq
      exact hv ▸ hvalue
    have hsound := h.sound _ hmem
    dsimp only at hsound
    rw [hsound, Option.filter_some, if_pos (decide_eq_true hne)]
  | none =>
    cases hvalue : findIn c.config s k with
    | none => rfl
    | some v =>
      by_cases hne : v = []
      · rw [hne]
        rfl
      · obtain ⟨v', hmem⟩ := h.complete s k v hvalue hne
        have hsome := find_isSome_of_assigns (m := {}) (.inr ⟨v', hmem⟩)
        rw [hfound] at hsome
        exact absurd hsome (by decide)

/-! ## Parsing and setting -/

/-- A text that is parsed, or a value that is set. -/
inductive ConfigOp
  | parse (text : List Char)
  | set (s k value : List Char)
  deriving DecidableEq, Repr

def Config.step (c : Config) : ConfigOp → Config
  | .parse text => parseStream c text
  | .set s k value => setStringValue c s k value

/-- What the file syntax can carry. A text that is parsed behind one that ends in a section begins with a header. -/
def Admissible (c : Config) : ConfigOp → Prop
  | .parse text =>
    (∀ line ∈ linesOf text, Settled line) ∧
      ((∃ a ∈ assigns [] (linesOf text), a.1 = []) → sectionAfter [] c.lines = [])
  | .set s k value => s ≠ [] ∧ CarriedSection s ∧ Carried k value

def textLines (ops : List ConfigOp) : List (List Char) :=
  ops.flatMap fun op =>
    match op with
    | .parse text => linesOf text
    | .set .. => []

theorem parse_config (c : Config) (text : List Char) :
    (parseStream c text).config = (assigns [] (linesOf text)).foldl (fun m a => put m a.1 a.2.1 a.2.2) c.config := by
  rw [parseStream, foldl_readLine]

theorem parse_lines (c : Config) (text : List Char) : (parseStream c text).lines = c.lines ++ linesOf text := by
  rw [parseStream, foldl_readLine]

theorem set_lines (c : Config) (s k value : List Char) : (setStringValue c s k value).lines = c.lines := by
  rw [setStringValue]
  split
  · split <;> rfl
  · rfl

theorem set_config (c : Config) (s k value : List Char) :
    (setStringValue c s k value).config = c.config ∨ (setStringValue c s k value).config = put c.config s k value := by
  rw [setStringValue]
  split
  · split
    · exact .inl rfl
    · exact .inr rfl
  · exact .inr rfl

theorem writable_put (h : Writable m) {s k v : List Char} (hs : CarriedSection s) (hv : Carried k v) :
    Writable (put m s k v) := by
  constructor
  · intro s' k' v' hfound
    rw [findIn_put] at hfound
    split at hfound
    · rename_i heq
      rw [← heq.2, ← Option.some.inj hfound]
      exact hv
    · exact h.carried s' k' v' hfound
  · intro s' entries hfound
    rw [put, KeyedMap.find_insert] at hfound
    split at hfound
    · rename_i heq
      exact heq ▸ hs
    · exact h.sections s' entries hfound

theorem carried_nextSection {s : List Char} (hs : CarriedSection s) (hbreak : '\n' ∉ line) :
    CarriedSection (nextSection s line) := by
  rw [nextSection]
  dsimp only
  split
  · split
    · exact hs
    · intro c hc
      have hnot := List.mem_takeWhile_imp (p := (!bracket ·)) hc
      refine ⟨(Bool.not_eq_true' _).mp hnot, ?_⟩
      rintro rfl
      exact hbreak ((List.dropWhile_suffix _).subset ((List.takeWhile_prefix _).subset hc))
  · exact hs

theorem carried_pairOf (h : Settled line) (hbreak : '\n' ∉ line) {k v : List Char} (hpair : pairOf line = some (k, v)) :
    Carried k v := by
  obtain ⟨hk, hne, hvalue⟩ := lineKey_of_pairOf hpair
  have hparts := parts_of_lineKey hne
  have hline : ∀ {c}, c ∈ lineKey line ∨ c ∈ behindKey line → c ∈ line := by
    intro c hc
    rw [hparts.eq]
    exact List.mem_append_right _ (List.mem_append.mpr hc)
  obtain ⟨-, hfirst, hlast, hchars⟩ := valueOf_spec hvalue
  obtain ⟨hbracket, hreturn⟩ := h.pair k v hpair
  subst hk
  refine ⟨hne, fun c hc => ⟨hparts.key_chars c hc, ?_⟩, ⟨hparts.key_head, hbracket⟩, fun c hc => ⟨(hchars c hc).1, ?_⟩,
    hfirst, hlast, hreturn⟩
  · rintro rfl
    exact hbreak (hline (.inl hc))
  · rintro rfl
    exact hbreak (hline (.inr (hchars _ hc).2))

theorem writable_assigns {lines : List (List Char)} (hm : Writable m) {s : List Char} (hs : CarriedSection s)
    (hlines : ∀ line ∈ lines, Settled line ∧ '\n' ∉ line) :
    Writable ((assigns s lines).foldl (fun m a => put m a.1 a.2.1 a.2.2) m) := by
  induction lines generalizing s m with
  | nil => exact hm
  | cons line lines ih =>
    obtain ⟨hline, hbreak⟩ := hlines line List.mem_cons_self
    have hrest := fun l hl => hlines l (List.mem_cons_of_mem line hl)
    have hnext := carried_nextSection hs hbreak
    rw [assigns, sectioned, List.filterMap_cons, assignment]
    cases hpair : pairOf line with
    | none => exact ih hm hnext hrest
    | some pair => exact ih (writable_put hm hnext (carried_pairOf hline hbreak hpair)) hnext hrest

theorem assigns_section {lines : List (List Char)} {s : List Char} {a : List Char × List Char × List Char}
    (h : a ∈ assigns s lines) : a ∈ assigns [] lines ∨ a.1 = s ∧ ([], a.2) ∈ assigns [] lines := by
  induction lines generalizing s with
  | nil => exact absurd h List.not_mem_nil
  | cons line lines ih =>
    rw [← List.singleton_append, assigns_append] at h ⊢
    by_cases hsame : nextSection s line = nextSection [] line
    · left
      have hone : assigns s [line] = assigns [] [line] := by simp only [assigns, sectioned, hsame]
      have hafter : sectionAfter s [line] = sectionAfter [] [line] := hsame
      rw [hone, hafter] at h
      exact h
    · -- no header with a name
      have hplain : ∀ t, nextSection t line = t := by
        intro t
        rw [nextSection]
        dsimp only
        by_cases hhead : line.head? = some '['
        · rw [if_pos hhead]
          by_cases hname : parseSectionName line = []
          · exact if_pos hname
          · refine absurd ?_ hsame
            rw [nextSection, nextSection, if_pos hhead, if_pos hhead]
            exact (if_neg hname).trans (if_neg hname).symm
        · exact if_neg hhead
      have hone : ∀ t, assigns t [line] = ((pairOf line).map fun pair => (t, pair.1, pair.2)).toList := by
        intro t
        simp only [assigns, sectioned, List.filterMap_cons, List.filterMap_nil, assignment, hplain t]
        cases pairOf line <;> rfl
      have hafter : ∀ t, sectionAfter t [line] = t := hplain
      rw [hone, hafter] at h ⊢
      rcases List.mem_append.mp h with h | h
      · obtain ⟨pair, hpair, rfl⟩ := Option.map_eq_some_iff.mp (Option.mem_toList.mp h)
        refine .inr ⟨rfl, List.mem_append_left _ ?_⟩
        rw [hpair]
        exact List.mem_singleton.mpr rfl
      · rcases ih h with hmem | ⟨hs, hmem⟩
        · exact .inl (List.mem_append_right _ hmem)
        · exact .inr ⟨hs, List.mem_append_right _ hmem⟩

theorem good_parse {c : Config} (h : Good c) {text : List Char} (hok : Admissible c (.parse text)) :
    Good (parseStream c text) := by
  obtain ⟨hsettled, hjoin⟩ := hok
  -- The lines of a text have no break inside.
  have hlines : ∀ line ∈ linesOf text, Settled line ∧ '\n' ∉ line := by
    intro line hline
    refine ⟨hsettled line hline, ?_⟩
    obtain ⟨field, hfield, rfl⟩ := List.mem_map.mp hline
    have hbreak := Fields.delim_notMem_of_mem_fields hfield
    rw [chomp]
    split
    · exact fun hmem => hbreak ((List.dropLast_sublist _).subset hmem)
    · exact hbreak
  have hnil : CarriedSection [] := fun c hc => absurd hc List.not_mem_nil
  constructor
  · intro line hline
    rw [parse_lines] at hline
    exact (List.mem_append.mp hline).elim (h.lines line) (hlines line)
  · intro a ha
    rw [parse_lines, assigns_append] at ha
    rw [parse_config]
    apply find_isSome_of_assigns
    rcases List.mem_append.mp ha with ha | ha
    · exact .inl (h.held a ha)
    · rcases assigns_section ha with hmem | ⟨hs, hmem⟩
      · exact .inr ⟨a.2.2, hmem⟩
      · -- A first entry without a section joins the last section, which is the one it would be in.
        rw [hjoin ⟨_, hmem, rfl⟩] at hs
        rw [hs]
        exact .inr ⟨a.2.2, hmem⟩
  · rw [parse_config]
    exact writable_assigns h.writable hnil hlines
  · intro hnone k
    rw [parse_lines] at hnone
    obtain ⟨hbefore, htext⟩ := List.append_eq_nil_iff.mp hnone
    rw [parse_config, htext]
    exact h.headless hbefore k

theorem good_set {c : Config} (h : Good c) {s k value : List Char} (hok : Admissible c (.set s k value)) :
    Good (setStringValue c s k value) := by
  obtain ⟨hs, hsection, hcarried⟩ := hok
  -- Either the map is as before (an empty value) or the key is put.
  rcases set_config c s k value with hconfig | hconfig
  · constructor
    · rw [set_lines]
      exact h.lines
    · rw [set_lines, hconfig]
      exact h.held
    · rw [hconfig]
      exact h.writable
    · rw [set_lines, hconfig]
      exact h.headless
  · constructor
    · rw [set_lines]
      exact h.lines
    · rw [set_lines, hconfig]
      intro a ha
      rw [findIn_put]
      split
      · rfl
      · exact h.held a ha
    · rw [hconfig]
      exact writable_put h.writable hsection hcarried
    · rw [set_lines, hconfig]
      intro hlines k'
      rw [findIn_put, if_neg fun heq => hs heq.1]
      exact h.headless hlines k'

theorem good_step (c : Config) (op : ConfigOp) (h : Good c) (hok : Admissible c op) : Good (c.step op) := by
  cases op with
  | parse text => exact good_parse h hok
  | set s k value => exact good_set h hok

theorem good_start : Good {} where
  lines := fun _ hline => absurd hline List.not_mem_nil
  held := fun _ ha => absurd ha List.not_mem_nil
  writable := ⟨fun _ _ v h => absurd h (Option.some_ne_none v).symm, fun _ es h => absurd h (Option.some_ne_none es).symm⟩
  headless := fun _ _ => rfl

theorem lines_run (c : Config) (ops : List ConfigOp) : (ops.foldl Config.step c).lines = c.lines ++ textLines ops := by
  induction ops generalizing c with
  | nil => exact (List.append_nil c.lines).symm
  | cons op ops ih =>
    rw [List.foldl_cons, ih]
    cases op with
    | parse text =>
      show (parseStream c text).lines ++ textLines ops = c.lines ++ (linesOf text ++ textLines ops)
      rw [parse_lines, List.append_assoc]
    | set s k value =>
      show (setStringValue c s k value).lines ++ textLines ops = c.lines ++ textLines ops
      rw [set_lines]

/-! ## Overrides -/

/-- The calls that hand values back, after the launch. -/
def setAll (c : Config) (sets : List (List Char × List Char × List Char)) : Config :=
  sets.foldl (fun c x => setStringValue c x.1 x.2.1 x.2.2) c

theorem override_step {c : Config} {s k v : List Char} (h : findIn c.launchOverrides s k = some v) {s' k' v' : List Char}
    (hsame : s' = s → k' = k → v' = v) :
    findIn (setStringValue c s' k' v').launchOverrides s k = some v ∧
      findIn (setStringValue c s' k' v').config s k = findIn c.config s k := by
  by_cases hthis : s' = s ∧ k' = k
  · obtain ⟨rfl, rfl⟩ := hthis
    have hecho : setStringValue c s' k' v' = { c with overrides := put c.overrides s' k' v' } := by
      rw [setStringValue, h]
      exact if_pos (hsame rfl rfl).symm
    rw [hecho]
    exact ⟨h, rfl⟩
  · have hlaunch : ∀ m : ConfigMap, findIn (eraseKey m s' k') s k = findIn m s k := fun m =>
      (findIn_eraseKey m s' k' s k).trans (if_neg hthis)
    have hput : findIn (put c.config s' k' v') s k = findIn c.config s k :=
      (findIn_put c.config s' k' v' s k).trans (if_neg hthis)
    rw [setStringValue]
    split
    · split
      · exact ⟨h, rfl⟩
      · exact ⟨(hlaunch _).trans h, hput⟩
    · exact ⟨h, hput⟩

theorem override_sets {c : Config} {s k v : List Char} (h : findIn c.launchOverrides s k = some v)
    {sets : List (List Char × List Char × List Char)} (hsame : ∀ x ∈ sets, x.1 = s → x.2.1 = k → x.2.2 = v) :
    findIn (setAll c sets).config s k = findIn c.config s k := by
  induction sets generalizing c with
  | nil => rfl
  | cons x sets ih =>
    obtain ⟨hlaunch, hconfig⟩ := override_step h (hsame x List.mem_cons_self)
    exact (ih hlaunch fun y hy => hsame y (List.mem_cons_of_mem x hy)).trans hconfig

theorem good_setAll {c : Config} (h : Good c) {sets : List (List Char × List Char × List Char)}
    (hsets : ∀ x ∈ sets, Admissible c (.set x.1 x.2.1 x.2.2)) :
    Good (setAll c sets) ∧ (setAll c sets).lines = c.lines := by
  induction sets generalizing c with
  | nil => exact ⟨h, rfl⟩
  | cons x sets ih =>
    obtain ⟨hgood, hlines⟩ := ih (good_set h (hsets x List.mem_cons_self)) fun y hy => hsets y (List.mem_cons_of_mem x hy)
    exact ⟨hgood, hlines.trans (set_lines c x.1 x.2.1 x.2.2)⟩

/-- An empty value is written, and read as no value. -/
theorem configuration_drops_empty :
    ¬∀ s k : List Char, findIn (parseStream {} (toStream (setStringValue {} ['s'] ['k'] []))).config s k =
      findIn (setStringValue {} ['s'] ['k'] []).config s k := by
  intro h
  exact absurd (h ['s'] ['k']) (by decide)

/-- Whatever was parsed and set, the file has **exactly the entries that are not empty**, every line of the texts
in order and with its comment, and no override that was only handed back. -/
theorem configuration_round_trip (ops : List ConfigOp) (overrides : ConfigMap)
    (sets : List (List Char × List Char × List Char)) (hops : AllOk Config.step Admissible {} ops)
    (hsets : ∀ x ∈ sets, x.1 ≠ [] ∧ CarriedSection x.1 ∧ Carried x.2.1 x.2.2) :
    let launched := setOverrides (ops.foldl Config.step {}) overrides
    let c := setAll launched sets
    (∀ s k, findIn (parseStream {} (toStream c)).config s k = (findIn c.config s k).filter (· ≠ [])) ∧
      (∃ kept, kept.Sublist (toLines c) ∧ List.Forall₂ (Keeps c.config) (sectioned [] (textLines ops)) kept) ∧
      ∀ s k v, findIn overrides s k = some v → (∀ x ∈ sets, x.1 = s → x.2.1 = k → x.2.2 = v) →
        findIn c.config s k = findIn launched.config s k := by
  intro launched c
  have hrun : Good (ops.foldl Config.step {}) := run_of_allOk good_step good_start hops
  have hlaunched : Good launched := ⟨hrun.lines, hrun.held, hrun.writable, hrun.headless⟩
  obtain ⟨hgood, hlines⟩ := good_setAll hlaunched hsets
  have hwritten : Written c := written_of_good hgood
  have htexts : c.lines = textLines ops := hlines.trans (lines_run {} ops)
  refine ⟨find_parseStream_toStream hwritten, ?_, ?_⟩
  · rw [← htexts]
    exact hwritten.kept
  · intro s k v hover hsame
    exact override_sets (c := launched) hover hsame

theorem carried_singleton {a b : Char} (hkey : keyDelim a = false ∧ a ≠ '\n') (hhead : a ≠ '#' ∧ a ≠ '[')
    (hvalue : valueDelim b = false ∧ b ≠ '\n') (hends : b ≠ ' ' ∧ b ≠ '\r') : Carried [a] [b] where
  key_ne := List.cons_ne_nil _ _
  key_chars := List.forall_mem_singleton.mpr hkey
  key_head := ⟨fun h => hhead.1 (Option.some.inj h), fun h => hhead.2 (Option.some.inj h)⟩
  value_chars := List.forall_mem_singleton.mpr hvalue
  value_ends := ⟨fun h => hends.1 (Option.some.inj h), fun h => hends.1 (Option.some.inj h),
    fun h => hends.2 (Option.some.inj h)⟩

/-- A commented text, an override that is handed back, and a new value. -/
theorem configuration_round_trip_override :
    let text : List Char := ['#', 'c', '\n', '[', 's', ']', '\n', 'k', '=', '1', ' ', '#', 'n', '\n']
    let launched := setOverrides ([ConfigOp.parse text].foldl Config.step {}) (put {} ['s'] ['k'] ['2'])
    let c := setAll launched [(['s'], ['k'], ['2']), (['t'], ['x'], ['3'])]
    findIn c.config ['s'] ['k'] = some ['1'] ∧ findIn c.config ['t'] ['x'] = some ['3'] ∧
      ∀ s k, findIn (parseStream {} (toStream c)).config s k = (findIn c.config s k).filter (· ≠ []) := by
  intro text launched c
  have hsettled : ∀ line ∈ linesOf text, Settled line := by decide
  have hops : AllOk Config.step Admissible {} [ConfigOp.parse text] := ⟨⟨hsettled, fun _ => rfl⟩, trivial⟩
  have hk : Carried ['k'] ['2'] := carried_singleton (by decide) (by decide) (by decide) (by decide)
  have hx : Carried ['x'] ['3'] := carried_singleton (by decide) (by decide) (by decide) (by decide)
  have hs : CarriedSection ['s'] := List.forall_mem_singleton.mpr (by decide)
  have ht : CarriedSection ['t'] := List.forall_mem_singleton.mpr (by decide)
  have hsets : ∀ x ∈ [(['s'], ['k'], ['2']), (['t'], ['x'], ['3'])],
      x.1 ≠ [] ∧ CarriedSection x.1 ∧ Carried x.2.1 x.2.2 := by
    intro x hmem
    rcases List.mem_cons.mp hmem with rfl | hmem
    · exact ⟨by decide, hs, hk⟩
    · rw [List.mem_singleton.mp hmem]
      exact ⟨by decide, ht, hx⟩
  exact ⟨by decide, by decide, (configuration_round_trip [.parse text] (put {} ['s'] ['k'] ['2']) _ hops hsets).1⟩

end Koncepcja.Configuration
