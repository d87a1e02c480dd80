import Koncepcja.Cpm.NoInterference
import Mathlib.Data.Finset.Dedup
import Mathlib.Data.Finset.Max

/-!
# What a Directory Listing Has

`disk_list_files` of `src/disk_file_editor.cpp` goes through the directory entries and remembers a file that it has
listed by its user number and the name that it is shown under. Two files of one user may be shown under one name: a
dot in the first eight characters looks like the one before the extension.

## Main results

- `listFrom_eq`: the entries that are listed.
- `listsExactly_iff`: when the listing has every file once.
-/

namespace Koncepcja.Cpm

open Koncepcja.Bytes Koncepcja.Disk Koncepcja.Slots

set_option maxRecDepth 20000

/-- What makes a file: the user number, and the name in eight and three characters. -/
def fileId (entry : List UInt8) : UInt8 × List UInt8 := (userOf entry, nameOf entry)

/-- All of the live entries of a file. -/
def extentsOf (dir : Dir) (id : UInt8 × List UInt8) : Dir := dir.filter fun e => isLive e && decide (fileId e = id)

/-- One entry for every file that has live directory entries, from the lowest of these, and computed from these only. -/
def ListsExactly (dir : Dir) (files : List DiskFileEntry) : Prop :=
  ∃ firsts : List (List UInt8), files = firsts.map (fun e => listEntry (extentsOf dir (fileId e)) e) ∧
    (∀ e ∈ firsts, e ∈ extentsOf dir (fileId e) ∧ ∀ other ∈ extentsOf dir (fileId e), extentNum e ≤ extentNum other) ∧
    (firsts.map fileId).Nodup ∧ ∀ e ∈ dir, isLive e = true → fileId e ∈ firsts.map fileId

/-- No two files of one user are shown under one name. -/
def ShownApart (dir : Dir) : Prop :=
  ∀ e ∈ dir, ∀ e' ∈ dir, isLive e = true → isLive e' = true → userOf e = userOf e' →
    formatCpmName (nameOf e) = formatCpmName (nameOf e') → nameOf e = nameOf e'

/-! ## The entries that are listed -/

/-- The directory entries that `listFrom` makes a listed file from. -/
def listedFrom (dir : Dir) : List (UInt8 × List UInt8) → List (List UInt8) → List (List UInt8)
  | _, [] => []
  | seen, entry :: rest =>
    if isLive entry && decide (listKey entry ∉ seen) && !hasLower dir entry then
      entry :: listedFrom dir (listKey entry :: seen) rest
    else listedFrom dir seen rest

variable {dir : Dir} {seen : List (UInt8 × List UInt8)} {es : List (List UInt8)} {e : List UInt8}

theorem listFrom_eq (dir : Dir) (seen : List (UInt8 × List UInt8)) (es : List (List UInt8)) :
    listFrom dir seen es = (listedFrom dir seen es).map (listEntry dir) := by
  induction es generalizing seen with
  | nil => rfl
  | cons e es ih =>
    rw [listFrom, listedFrom, ih, ih]
    by_cases hlive : isLive e = true
    · by_cases hseen : listKey e ∈ seen
      · simp [hlive, hseen]
      · cases hlower : hasLower dir e <;> simp [hlive, hseen]
    · simp [hlive]

theorem mem_listedFrom (h : e ∈ listedFrom dir seen es) :
    e ∈ es ∧ isLive e = true ∧ listKey e ∉ seen ∧ hasLower dir e = false := by
  induction es generalizing seen with
  | nil => cases h
  | cons x es ih =>
    rw [listedFrom] at h
    split at h
    · rename_i hx
      simp only [Bool.and_eq_true, decide_eq_true_eq, Bool.not_eq_true'] at hx
      rcases List.mem_cons.mp h with rfl | h
      · exact ⟨List.mem_cons_self, hx.1.1, hx.1.2, hx.2⟩
      · obtain ⟨hmem, hlive, hseen, hlower⟩ := ih h
        exact ⟨List.mem_cons_of_mem x hmem, hlive, fun hin => hseen (List.mem_cons_of_mem _ hin), hlower⟩
    · obtain ⟨hmem, hlive, hseen, hlower⟩ := ih h
      exact ⟨List.mem_cons_of_mem x hmem, hlive, hseen, hlower⟩

theorem listedFrom_nodup (dir : Dir) (seen : List (UInt8 × List UInt8)) (es : List (List UInt8)) :
    ((listedFrom dir seen es).map listKey).Nodup := by
  induction es generalizing seen with
  | nil => exact List.nodup_nil
  | cons x es ih =>
    rw [listedFrom]
    split
    · rw [List.map_cons, List.nodup_cons]
      refine ⟨fun hmem => ?_, ih _⟩
      obtain ⟨e, he, hkey⟩ := List.mem_map.mp hmem
      exact (mem_listedFrom he).2.2.1 (hkey ▸ List.mem_cons_self)
    · exact ih _

theorem key_mem_listedFrom (he : e ∈ es) (hlive : isLive e = true) (hlower : hasLower dir e = false) :
    listKey e ∈ seen ∨ listKey e ∈ (listedFrom dir seen es).map listKey := by
  induction es generalizing seen with
  | nil => cases he
  | cons x es ih =>
    rw [listedFrom]
    rcases List.mem_cons.mp he with rfl | he
    · by_cases hseen : listKey e ∈ seen
      · exact .inl hseen
      · right
        rw [if_pos (by simp [hlive, hseen, hlower])]
        exact List.mem_map_of_mem List.mem_cons_self
    · split
      · rw [List.map_cons, List.mem_cons]
        rcases @ih (listKey x :: seen) he with h | h
        · rcases List.mem_cons.mp h with h | h
          · exact .inr (.inl h)
          · exact .inl h
        · exact .inr (.inr h)
      · exact ih he

/-! ## The entries of a file -/

theorem mem_extentsOf {other : List UInt8} {id : UInt8 × List UInt8} :
    other ∈ extentsOf dir id ↔ other ∈ dir ∧ isLive other = true ∧ fileId other = id := by
  rw [extentsOf, List.mem_filter, Bool.and_eq_true, decide_eq_true_eq]

theorem sameFile_iff {a b : List UInt8} : sameFile a b = true ↔ fileId a = fileId b := by
  rw [sameFile, Bool.and_eq_true, beq_iff_eq, beq_iff_eq, fileId, fileId, Prod.mk.injEq]

theorem isLive_of_sameFile {other : List UInt8} (hlive : isLive e = true) (hused : isDeleted other = false)
    (hsame : fileId other = fileId e) : isLive other = true := by
  rw [isLive, Bool.and_eq_true] at hlive ⊢
  exact ⟨by rw [hused]; rfl, by rw [show userOf other = userOf e from congrArg Prod.fst hsame]; exact hlive.2⟩

theorem hasLower_eq_false_iff (hlive : isLive e = true) :
    hasLower dir e = false ↔ ∀ other ∈ extentsOf dir (fileId e), extentNum e ≤ extentNum other := by
  rw [hasLower, List.any_eq_false]
  constructor
  · intro h other hother
    obtain ⟨hmem, hlive', hid⟩ := mem_extentsOf.mp hother
    rw [isLive, Bool.and_eq_true] at hlive'
    by_contra hlower
    refine h other hmem ?_
    rw [Bool.and_eq_true, Bool.and_eq_true, sameFile_iff, decide_eq_true_eq]
    exact ⟨⟨hlive'.1, hid.symm⟩, not_le.mp hlower⟩
  · intro h other hmem hlower
    rw [Bool.and_eq_true, Bool.and_eq_true, sameFile_iff, decide_eq_true_eq, Bool.not_eq_true'] at hlower
    obtain ⟨⟨hused, hid⟩, hlt⟩ := hlower
    exact absurd (h other (mem_extentsOf.mpr ⟨hmem, isLive_of_sameFile hlive hused hid.symm, hid.symm⟩)) (not_le.mpr hlt)

theorem listEntry_extentsOf (hlive : isLive e = true) : listEntry (extentsOf dir (fileId e)) e = listEntry dir e := by
  have hexts : fileExtents (extentsOf dir (fileId e)) e = fileExtents dir e := by
    rw [fileExtents, fileExtents, extentsOf, List.filter_filter]
    congr 1
    refine List.filter_congr fun other _ => ?_
    cases hused : isDeleted other with
    | true => rfl
    | false =>
      cases hsame : sameFile other e with
      | false => rfl
      | true =>
        have hid := sameFile_iff.mp hsame
        rw [isLive_of_sameFile hlive hused hid, decide_eq_true hid]
        rfl
  rw [listEntry, listEntry, computeFileSize, computeFileSize, hexts]

theorem exists_lowest (he : e ∈ dir) (hlive : isLive e = true) :
    ∃ first ∈ dir, isLive first = true ∧ fileId first = fileId e ∧ hasLower dir first = false := by
  obtain ⟨first, hfirst, hleast⟩ := (extentsOf dir (fileId e)).toFinset.exists_min_image extentNum
    ⟨e, List.mem_toFinset.mpr (mem_extentsOf.mpr ⟨he, hlive, rfl⟩)⟩
  obtain ⟨hmem, hlive', hid⟩ := mem_extentsOf.mp (List.mem_toFinset.mp hfirst)
  refine ⟨first, hmem, hlive', hid, (hasLower_eq_false_iff hlive').mpr fun other hother => ?_⟩
  rw [hid] at hother
  exact hleast other (List.mem_toFinset.mpr hother)

/-! ## The listing -/

/-- The user and the name that a listed file has in the listing. -/
def shownKey (fe : DiskFileEntry) : UInt8 × List UInt8 := (fe.user, fe.displayName)

/-- The listing of a readable directory has every file once, from the file's own entries, just when no two files of
    one user are shown under one name. -/
theorem listsExactly_iff {drive : Slots.Drive} (hdir : readDirectory drive = some dir) :
    ∃ files, diskListFiles drive = .ok files ∧ (ListsExactly dir files ↔ ShownApart dir) := by
  refine ⟨_, diskListFiles_eq hdir, ?_⟩
  rw [listFrom_eq]
  constructor
  · rintro ⟨firsts, hfiles, hfirsts, -, hall⟩ e he e' he' hlive hlive' huser hname
    -- Both have a first entry, and these are shown under one name, which is listed once.
    obtain ⟨f, hf, hid⟩ := List.mem_map.mp (hall e he hlive)
    obtain ⟨f', hf', hid'⟩ := List.mem_map.mp (hall e' he' hlive')
    have hkeys : (firsts.map listKey).Nodup := by
      have h := congrArg (List.map shownKey) hfiles
      rw [List.map_map, List.map_map] at h
      have hnodup := listedFrom_nodup dir [] dir
      exact h ▸ hnodup
    have hkey (a b : List UInt8) (h : fileId a = fileId b) : listKey a = listKey b := by
      rw [listKey, listKey, show userOf a = userOf b from congrArg Prod.fst h,
        show nameOf a = nameOf b from congrArg Prod.snd h]
    have hff : f = f' := List.inj_on_of_nodup_map hkeys hf hf' (by
      rw [hkey f e hid, hkey f' e' hid', listKey, listKey, huser, hname])
    rw [hff, hid'] at hid
    exact (congrArg Prod.snd hid).symm
  · intro hapart
    have hlisted (e : List UInt8) (he : e ∈ listedFrom dir [] dir) := mem_listedFrom he
    refine ⟨listedFrom dir [] dir, ?_, fun e he => ?_, ?_, fun e he hlive => ?_⟩
    · exact List.map_congr_left fun e he => (listEntry_extentsOf (hlisted e he).2.1).symm
    · obtain ⟨hmem, hlive, -, hlower⟩ := hlisted e he
      exact ⟨mem_extentsOf.mpr ⟨hmem, hlive, rfl⟩, (hasLower_eq_false_iff hlive).mp hlower⟩
    · have hkeys := listedFrom_nodup dir [] dir
      have hmap : (listedFrom dir [] dir).map listKey =
          ((listedFrom dir [] dir).map fileId).map fun id => (id.1, formatCpmName id.2) := by
        rw [List.map_map]
        rfl
      rw [hmap] at hkeys
      exact hkeys.of_map
    · obtain ⟨first, hfirst, hlive', hid, hlower⟩ := exists_lowest he hlive
      rcases @key_mem_listedFrom _ [] _ _ hfirst hlive' hlower with h | h
      · cases h
      · obtain ⟨f, hf, hkey⟩ := List.mem_map.mp h
        obtain ⟨hmem, hflive, -, -⟩ := hlisted f hf
        rw [listKey, listKey, Prod.mk.injEq] at hkey
        have hname := hapart f hmem first hfirst hflive hlive' hkey.1 hkey.2
        exact List.mem_map.mpr ⟨f, hf, by rw [← hid, fileId, fileId, hkey.1, hname]⟩

/-- Two files are listed as what they are. -/
theorem listsExactly_discTwo : ∃ files, diskListFiles discTwo = .ok files ∧ ListsExactly dirTwo files := by
  obtain ⟨files, hfiles, hiff⟩ := listsExactly_iff readDirectory_discTwo
  refine ⟨files, hfiles, hiff.mpr fun e he e' he' hlive hlive' _ hname => ?_⟩
  rcases mem_dirTwo he hlive with rfl | rfl <;> rcases mem_dirTwo he' hlive' with rfl | rfl
  · rfl
  · exact absurd hname (by decide)
  · exact absurd hname (by decide)
  · rfl

/-- The entries of a file `A.B` without an extension and of a file `A` with the extension `B`. -/
def entriesAB : List UInt8 :=
  extentEntry [0x41, 0x2E, 0x42, 0x20, 0x20, 0x20, 0x20, 0x20, 0x20, 0x20, 0x20] 0 1 [2] ++
    extentEntry [0x41, 0x20, 0x20, 0x20, 0x20, 0x20, 0x20, 0x20, 0x42, 0x20, 0x20] 0 1 [3]

/-- A blank disc with these entries in its directory. -/
def discAB : Slots.Drive := patchTrack blankDisc 0 0 entriesAB

/-- The second of the two files is not in the listing. -/
theorem discAB_not_listsExactly :
    ¬∀ dir files, readDirectory discAB = some dir → diskListFiles discAB = .ok files → ListsExactly dir files := by
  intro h
  have hread : ∃ dir, readDirectory discAB = some dir ∧ (listFrom dir [] dir).length = 1 ∧
      ((dir.filter isLive).map fileId) = [(0, [0x41, 0x2E, 0x42, 0x20, 0x20, 0x20, 0x20, 0x20, 0x20, 0x20, 0x20]),
        (0, [0x41, 0x20, 0x20, 0x20, 0x20, 0x20, 0x20, 0x20, 0x42, 0x20, 0x20])] :=
    ⟨dirEntries (entriesAB ++ List.replicate 1984 0xE5), by decide, by decide, by decide⟩
  obtain ⟨dir, hdir, hone, hids⟩ := hread
  obtain ⟨firsts, hfiles, -, -, hall⟩ := h dir _ hdir (diskListFiles_eq hdir)
  have hmem (id : UInt8 × List UInt8) (hid : id ∈ (dir.filter isLive).map fileId) : id ∈ firsts.map fileId := by
    obtain ⟨e, he, rfl⟩ := List.mem_map.mp hid
    obtain ⟨hmem, hlive⟩ := List.mem_filter.mp he
    exact hall e hmem hlive
  rw [hids] at hmem
  -- One entry cannot be the first of both.
  rw [hfiles, List.length_map, List.length_eq_one_iff] at hone
  obtain ⟨first, rfl⟩ := hone
  have hfirst := List.mem_singleton.mp (hmem _ List.mem_cons_self)
  have hsecond := List.mem_singleton.mp (hmem _ (List.mem_cons_of_mem _ List.mem_cons_self))
  rw [← hfirst] at hsecond
  exact absurd hsecond (by decide)

end Koncepcja.Cpm
