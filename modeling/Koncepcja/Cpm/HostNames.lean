import Koncepcja.Cpm.WriteThenRead
import Koncepcja.Lib.Separator
import Mathlib.Data.List.DropRight

/-!
# Host File Names

`disk_to_cpc_filename` of `src/disk_file_editor.cpp` makes a name of eight and three characters from the name of a
host file, which it cuts at its last dot. `parse_cpm_name` cuts a name at its first dot, and `format_cpm_name` shows
the name of a directory entry without the high bits and without the spaces at the end of a part.

## Main results

- `roundTrips_iff`: the names that are parsed and shown again as they were.
- `diskToCpcFilename_roundTrips_iff`: the host files whose names are made into such names.
-/

namespace Koncepcja.Cpm

open Separator

set_option maxRecDepth 20000

/-- `fname.substr(fname.rfind(c) + 1)`, and all of it where there is no such character. -/
def afterLast (c : UInt8) (fname : List UInt8) : List UInt8 := fname.rtakeWhile (· ≠ c)

/-- The name and the extension of the last part of a path, cut at its last dot. -/
def hostParts (local_name : List UInt8) : List UInt8 × List UInt8 :=
  let fname := afterLast 0x5C (afterLast 0x2F local_name)
  if 0x2E ∈ fname then
    (fname.take (fname.length - (afterLast 0x2E fname).length - 1), afterLast 0x2E fname)
  else (fname, [])

def diskToCpcFilename (local_name : List UInt8) : List UInt8 :=
  let name_part := ((hostParts local_name).1.map toUpper).take 8
  let ext_part := ((hostParts local_name).2.map toUpper).take 3
  if name_part = [] then [] else if ext_part = [] then name_part else name_part ++ 0x2E :: ext_part

/-- The name is parsed, and the entry that has the parsed bytes is shown under it. -/
def RoundTrips (shown : List UInt8) : Prop :=
  ∃ fields, parseCpmName shown = some fields ∧ formatCpmName (fields.map (· &&& 0x7F)) = shown

/-! ## Upper case -/

theorem toUpper_eq_iff (c : UInt8) : (toUpper c = 0x2E ↔ c = 0x2E) ∧ (toUpper c = 0x20 ↔ c = 0x20) := by
  have hall : ∀ n : Fin 256, (toUpper (UInt8.ofFin n) = 0x2E ↔ UInt8.ofFin n = 0x2E) ∧
      (toUpper (UInt8.ofFin n) = 0x20 ↔ UInt8.ofFin n = 0x20) := by decide
  exact hall c.toFin

theorem toUpper_toUpper (c : UInt8) : toUpper (toUpper c) = toUpper c := by
  have hall : ∀ n : Fin 256, toUpper (toUpper (UInt8.ofFin n)) = toUpper (UInt8.ofFin n) := by decide
  exact hall c.toFin

theorem dot_mem_map_toUpper {l : List UInt8} : 0x2E ∈ l.map toUpper ↔ 0x2E ∈ l := by
  rw [List.mem_map]
  constructor
  · rintro ⟨c, hc, hdot⟩
    rwa [← (toUpper_eq_iff c).1.mp hdot]
  · exact fun h => ⟨0x2E, h, rfl⟩

/-! ## Parts of names -/

/-- A part of a name that is shown as it is. -/
def Plain (part : List UInt8) : Prop := (∀ c ∈ part, c < 0x80) ∧ part.getLast? ≠ some 0x20

instance (part : List UInt8) : Decidable (Plain part) := inferInstanceAs (Decidable (_ ∧ _))

theorem plain_nil : Plain [] := ⟨fun _ h => (List.not_mem_nil h).elim, nofun⟩

theorem plain_map_toUpper {part : List UInt8} : Plain (part.map toUpper) ↔ Plain part := by
  unfold Plain
  refine and_congr ?_ (not_congr ?_)
  · rw [List.forall_mem_map]
    exact forall₂_congr fun c _ => toUpper_lt_iff c
  · rw [List.getLast?_map, Option.map_eq_some_iff]
    constructor
    · rintro ⟨c, hc, hspace⟩
      rwa [← (toUpper_eq_iff c).2.mp hspace]
    · exact fun h => ⟨0x20, h, rfl⟩

theorem trimSpaces_pad (part : List UInt8) (n : Nat) : trimSpaces (part ++ List.replicate n 0x20) = trimSpaces part := by
  induction n with
  | zero => rw [List.replicate_zero, List.append_nil]
  | succ n ih =>
    rw [List.replicate_succ', ← List.append_assoc]
    exact (List.rdropWhile_concat_pos _ _ _ (by decide)).trans ih

theorem trimSpaces_eq_self_iff {part : List UInt8} : trimSpaces part = part ↔ part.getLast? ≠ some 0x20 := by
  refine List.rdropWhile_eq_self_iff.trans ?_
  constructor
  · intro h hlast
    have hne : part ≠ [] := by
      rintro rfl
      cases hlast
    rw [List.getLast?_eq_some_getLast hne] at hlast
    exact h hne (decide_eq_true (Option.some.inj hlast))
  · intro h hne hspace
    rw [List.getLast?_eq_some_getLast hne] at h
    exact h (congrArg some (of_decide_eq_true hspace))

theorem trimSpaces_subset {part : List UInt8} {c : UInt8} (h : c ∈ trimSpaces part) : c ∈ part :=
  (List.rdropWhile_prefix _ _).subset h

theorem trimSpaces_padName (part : List UInt8) (size : Nat) :
    trimSpaces ((padName size part).map (· &&& 0x7F)) = trimSpaces (part.map (· &&& 0x7F)) := by
  rw [padName, List.map_append, List.map_replicate]
  exact trimSpaces_pad _ _

/-- The extension after its dot, if there is one. -/
def dotted (ext : List UInt8) : List UInt8 := if ext = [] then [] else 0x2E :: ext

theorem mem_dotted {ext : List UInt8} {c : UInt8} (h : c ∈ dotted ext) : c = 0x2E ∨ c ∈ ext := by
  unfold dotted at h
  split at h
  · cases h
  · exact List.mem_cons.mp h

theorem map_dotted (ext : List UInt8) : (dotted ext).map toUpper = dotted (ext.map toUpper) := by
  unfold dotted
  cases ext <;> rfl

/-! ## Names that are shown as they are -/

theorem shown_eq {shown fields : List UInt8} (hupper : shown.map toUpper = shown)
    (h : parseCpmName shown = some fields) :
    formatCpmName (fields.map (· &&& 0x7F)) =
      trimSpaces ((upTo 0x2E shown).map (· &&& 0x7F)) ++ dotted (trimSpaces ((past 0x2E shown).map (· &&& 0x7F))) := by
  have hparse : parseCpmName shown =
      if 8 < (upTo 0x2E shown).length ∨ 3 < (past 0x2E shown).length then none
      else some (padName 8 (upTo 0x2E shown) ++ padName 3 (past 0x2E shown)) := by
    conv_rhs => rw [← hupper]
    rfl
  rw [hparse] at h
  split at h
  · cases h
  · rename_i hlength
    cases h
    have hbase : ((padName 8 (upTo 0x2E shown)).map (· &&& 0x7F)).length = 8 := by
      rw [List.length_map, padName, List.length_append, List.length_replicate]
      omega
    rw [formatCpmName, List.map_append, List.drop_left' hbase, List.take_left' hbase, trimSpaces_padName,
      trimSpaces_padName]
    rfl

theorem parses_iff {shown : List UInt8} (hupper : shown.map toUpper = shown) :
    (∃ fields, parseCpmName shown = some fields) ↔ (upTo 0x2E shown).length ≤ 8 ∧ (past 0x2E shown).length ≤ 3 := by
  have hparse : parseCpmName shown =
      if 8 < (upTo 0x2E shown).length ∨ 3 < (past 0x2E shown).length then none
      else some (padName 8 (upTo 0x2E shown) ++ padName 3 (past 0x2E shown)) := by
    conv_rhs => rw [← hupper]
    rfl
  rw [hparse, ← not_lt, ← not_lt, ← not_or]
  split
  · rename_i hlong
    exact iff_of_false (fun ⟨_, h⟩ => nomatch h) (not_not.mpr hlong)
  · rename_i hshort
    exact iff_of_true ⟨_, rfl⟩ hshort

theorem shown_self_iff (shown : List UInt8) :
    trimSpaces ((upTo 0x2E shown).map (· &&& 0x7F)) ++ dotted (trimSpaces ((past 0x2E shown).map (· &&& 0x7F))) = shown ↔
      Plain (upTo 0x2E shown) ∧ Plain (past 0x2E shown) ∧ (0x2E ∈ shown → past 0x2E shown ≠ []) := by
  have hmask {part : List UInt8} (h : ∀ c ∈ part, c < 0x80) : part.map (· &&& 0x7F) = part :=
    (map_and_7F_eq_iff part).mpr h
  constructor
  · intro h
    -- What is shown has no high bits.
    have hlow {part : List UInt8} {c : UInt8} (hc : c ∈ trimSpaces (part.map (· &&& 0x7F))) : c < 0x80 := by
      obtain ⟨b, -, rfl⟩ := List.mem_map.mp (trimSpaces_subset hc)
      rw [← and_7F_eq_iff, UInt8.and_assoc]
      rfl
    have hascii (c : UInt8) (hc : c ∈ shown) : c < 0x80 := by
      rw [← h, List.mem_append] at hc
      rcases hc with hc | hc
      · exact hlow hc
      · rcases mem_dotted hc with rfl | hc
        · decide
        · exact hlow hc
    have hbase (c : UInt8) (hc : c ∈ upTo 0x2E shown) : c < 0x80 := hascii c (upTo_subset hc)
    have hrest (c : UInt8) (hc : c ∈ past 0x2E shown) : c < 0x80 := hascii c (past_subset hc)
    rw [hmask hbase, hmask hrest] at h
    by_cases hdot : 0x2E ∈ shown
    · have hnodot : 0x2E ∉ trimSpaces (upTo 0x2E shown) := fun hmem => notMem_upTo (trimSpaces_subset hmem)
      by_cases hempty : trimSpaces (past 0x2E shown) = []
      · -- The dot would not be shown.
        rw [hempty] at h
        rw [← h] at hdot
        exact absurd (by simpa [dotted] using hdot) hnodot
      · rw [dotted, if_neg hempty] at h
        have hbefore := congrArg (upTo 0x2E) h
        have hpast := congrArg (past 0x2E) h
        rw [upTo_join hnodot] at hbefore
        rw [past_join hnodot] at hpast
        exact ⟨⟨hbase, trimSpaces_eq_self_iff.mp hbefore⟩, ⟨hrest, trimSpaces_eq_self_iff.mp hpast⟩,
          fun _ => hpast ▸ hempty⟩
    · rw [past_of_notMem hdot] at h hrest ⊢
      rw [upTo_of_notMem hdot] at h ⊢
      have htrim : trimSpaces shown = shown := by simpa [dotted, trimSpaces] using h
      exact ⟨⟨hascii, trimSpaces_eq_self_iff.mp htrim⟩, plain_nil, fun h => absurd h hdot⟩
  · rintro ⟨⟨hbase, hspace⟩, ⟨hrest, hspace'⟩, hne⟩
    rw [hmask hbase, hmask hrest, trimSpaces_eq_self_iff.mpr hspace, trimSpaces_eq_self_iff.mpr hspace']
    by_cases hdot : 0x2E ∈ shown
    · rw [dotted, if_neg (hne hdot), upTo_append_past hdot]
    · rw [past_of_notMem hdot, upTo_of_notMem hdot, dotted, if_pos rfl, List.append_nil]

/-- A name in upper case is parsed and shown as it is just when the parts before and past its first dot are short
    enough and are shown as they are, and nothing but a name without a dot has an empty extension. -/
theorem roundTrips_iff {shown : List UInt8} (hupper : shown.map toUpper = shown) :
    RoundTrips shown ↔
      ((upTo 0x2E shown).length ≤ 8 ∧ (past 0x2E shown).length ≤ 3) ∧
        Plain (upTo 0x2E shown) ∧ Plain (past 0x2E shown) ∧ (0x2E ∈ shown → past 0x2E shown ≠ []) := by
  rw [← shown_self_iff, ← parses_iff hupper, RoundTrips]
  constructor
  · rintro ⟨fields, hparse, hformat⟩
    exact ⟨⟨fields, hparse⟩, (shown_eq hupper hparse).symm.trans hformat⟩
  · rintro ⟨⟨fields, hparse⟩, hformat⟩
    exact ⟨fields, hparse, (shown_eq hupper hparse).trans hformat⟩

theorem roundTrips_nil : RoundTrips [] := ⟨_, rfl, by decide⟩

/-! ## Host files -/

/-- The name of a host file, cut to eight and three characters, is made into a name that is shown as it is: it is
    empty, or its parts are shown as they are and have no dot but the one between them, or the part up to its first dot
    is shown as it is and so is what follows, which is not more than three characters. -/
def Representable (stem ext : List UInt8) : Prop :=
  if 0x2E ∈ stem then
    Plain (upTo 0x2E stem) ∧ Plain (past 0x2E stem ++ dotted ext) ∧
      (past 0x2E stem ++ dotted ext).length ≤ 3 ∧ past 0x2E stem ++ dotted ext ≠ []
  else stem = [] ∨ Plain stem ∧ Plain ext

instance (stem ext : List UInt8) : Decidable (Representable stem ext) := by
  unfold Representable
  infer_instance

/-- The name of a host file is made into a name that is parsed, and shown as it is, just when its first eight bytes
    before the last dot and its first three past it are representable. -/
theorem diskToCpcFilename_roundTrips_iff (local_name : List UInt8) :
    RoundTrips (diskToCpcFilename local_name) ↔
      Representable ((hostParts local_name).1.take 8) ((hostParts local_name).2.take 3) := by
  have hstem := List.length_take_le 8 (hostParts local_name).1
  have hext := List.length_take_le 3 (hostParts local_name).2
  unfold diskToCpcFilename
  rw [← List.map_take, ← List.map_take]
  generalize (hostParts local_name).1.take 8 = stem at *
  generalize (hostParts local_name).2.take 3 = ext at *
  by_cases hempty : stem = []
  · subst hempty
    exact iff_of_true roundTrips_nil (Or.inl rfl)
  · have hjoin : (if stem.map toUpper = [] then [] else
        if ext.map toUpper = [] then stem.map toUpper else stem.map toUpper ++ 0x2E :: ext.map toUpper) =
        (stem ++ dotted ext).map toUpper := by
      rw [if_neg (mt List.map_eq_nil_iff.mp hempty), List.map_append, map_dotted, dotted]
      split
      · rw [List.append_nil]
      · rfl
    have hupper : ((stem ++ dotted ext).map toUpper).map toUpper = (stem ++ dotted ext).map toUpper := by
      rw [List.map_map]
      exact List.map_congr_left fun c _ => toUpper_toUpper c
    simp only [hjoin]
    rw [roundTrips_iff hupper, Representable]
    split
    · -- The name has a dot before the one that is put between its parts.
      rename_i hdot
      obtain ⟨before, after, rfl, hbefore⟩ := List.eq_append_cons_of_mem hdot
      have hcut : (before ++ 0x2E :: after ++ dotted ext).map toUpper =
          before.map toUpper ++ 0x2E :: (after ++ dotted ext).map toUpper := by
        rw [List.append_assoc, List.map_append]
        rfl
      have hbefore' : 0x2E ∉ before.map toUpper := mt dot_mem_map_toUpper.mp hbefore
      rw [hcut, upTo_join hbefore', past_join hbefore', upTo_join hbefore, past_join hbefore, plain_map_toUpper,
        plain_map_toUpper, List.length_map, List.length_map, ne_eq, List.map_eq_nil_iff]
      rw [List.length_append] at hstem
      have hmem : (0x2E : UInt8) ∈ before.map toUpper ++ 0x2E :: (after ++ dotted ext).map toUpper :=
        List.mem_append_right _ List.mem_cons_self
      constructor
      · rintro ⟨⟨-, hlength⟩, hplain, hplain', hne⟩
        exact ⟨hplain, hplain', hlength, hne hmem⟩
      · rintro ⟨hplain, hplain', hlength, hne⟩
        exact ⟨⟨by omega, hlength⟩, hplain, hplain', fun _ => hne⟩
    · rename_i hdot
      have hdot' : 0x2E ∉ stem.map toUpper := mt dot_mem_map_toUpper.mp hdot
      rw [or_iff_right hempty]
      by_cases hnone : ext = []
      · subst hnone
        have hcut : (stem ++ dotted []).map toUpper = stem.map toUpper := by rw [dotted, if_pos rfl, List.append_nil]
        rw [hcut, upTo_of_notMem hdot', past_of_notMem hdot', plain_map_toUpper, List.length_map]
        exact ⟨fun h => ⟨h.2.1, h.2.2.1⟩, fun h => ⟨⟨hstem, Nat.zero_le 3⟩, h.1, h.2, fun hmem => absurd hmem hdot'⟩⟩
      · have hcut : (stem ++ dotted ext).map toUpper = stem.map toUpper ++ 0x2E :: ext.map toUpper := by
          rw [dotted, if_neg hnone, List.map_append]
          rfl
        rw [hcut, upTo_join hdot', past_join hdot', plain_map_toUpper, plain_map_toUpper, List.length_map,
          List.length_map]
        exact ⟨fun h => ⟨h.2.1, h.2.2.1⟩,
          fun h => ⟨⟨hstem, hext⟩, h.1, h.2, fun _ => mt List.map_eq_nil_iff.mp hnone⟩⟩

/-- The name of a host file with two dots is made into a name that is not parsed. -/
theorem twoDots_not_roundTrips : ¬RoundTrips (diskToCpcFilename (ascii "disc.side1.bin")) := by
  rintro ⟨fields, hparse, -⟩
  have hnone : parseCpmName (diskToCpcFilename (ascii "disc.side1.bin")) = none := by decide
  rw [hnone] at hparse
  cases hparse

end Koncepcja.Cpm
