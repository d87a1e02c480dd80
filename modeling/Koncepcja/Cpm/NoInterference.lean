import Koncepcja.Cpm.WriteThenRead

/-!
# File Writes Do Not Interfere

Runs of `disk_write_file` and `disk_delete_file` on a drive whose directory gives no block to two
live entries. Such a directory stays so, and a file whose name no call of the run gave reads and
lists as before. A call that reports an error changes no file at all.

It takes seven-bit names, data sectors that lie apart, and a directory in which no file has claimed
the directory's own second block.

## Main results

- `Agree.readFile_eq`, `Agree.listFiles_filter`: drives that agree on some names read and list their
  files alike.
- `Call.step`: what one call preserves.
- `run_isolated`: what a whole run preserves.
-/

namespace Koncepcja.Cpm

open Koncepcja.Bytes Koncepcja.Disk Koncepcja.Slots Koncepcja.FreeSlots

set_option maxRecDepth 20000

/-! ## Consistent directories -/

/-- No block is claimed by two live entries. -/
def Consistent (dir : Dir) : Prop :=
  (dir.filter isLive).Pairwise fun a b => ∀ x ∈ blocksOf a, x ∉ blocksOf b

/-- No live entry claims the directory's second block; the first cannot be claimed. -/
def SparesDirectory (dir : Dir) : Prop := ∀ e ∈ dir, isLive e = true → 1 ∉ blocksOf e

theorem blocksOf_ne_zero {e : List UInt8} {b : UInt8} (h : b ∈ blocksOf e) : b ≠ 0 := by
  simpa using (List.mem_filter.mp h).2

theorem SparesDirectory.two_le {dir : Dir} (h : SparesDirectory dir) {e : List UInt8} (he : e ∈ dir)
    (hlive : isLive e = true) {b : UInt8} (hb : b ∈ blocksOf e) : ¬ b.toNat < 2 := by
  have h0 : b.toNat ≠ 0 := fun h0 => blocksOf_ne_zero hb (UInt8.toNat_inj.mp h0)
  have h1 : b.toNat ≠ 1 := fun h1 => by
    rw [UInt8.toNat_inj.mp (h1.trans (show 1 = (1 : UInt8).toNat from rfl))] at hb
    exact h e he hlive hb
  omega

/-! ## Drives that agree on some names -/

/-- A live entry under one of the names `q` picks out. -/
def ofNames (q : List UInt8 → Bool) (e : List UInt8) : Bool := isLive e && q (nameOf e)

theorem ofNames_iff {q : List UInt8 → Bool} {e : List UInt8} :
    ofNames q e = true ↔ isLive e = true ∧ q (nameOf e) = true := by
  rw [ofNames, Bool.and_eq_true]

theorem ofNames_of_sameFile {q : List UInt8 → Bool} {e first : List UInt8} (hfirst : ofNames q first = true)
    (he : (!isDeleted e && sameFile e first) = true) : ofNames q e = true := by
  simp only [sameFile, Bool.and_eq_true, beq_iff_eq, Bool.not_eq_true'] at he
  obtain ⟨hused, huser, hname⟩ := he
  obtain ⟨hlive, hq⟩ := ofNames_iff.mp hfirst
  refine ofNames_iff.mpr ⟨?_, by rw [hname]; exact hq⟩
  rw [isLive, Bool.and_eq_true] at hlive ⊢
  exact ⟨by rw [hused]; rfl, by rw [huser]; exact hlive.2⟩

/-- The entries under these names are the same, and so are their blocks. -/
structure Agree (q : List UInt8 → Bool) (d : Slots.Drive) (dir : Dir) (d' : Slots.Drive) (dir' : Dir) : Prop where
  entries : dir'.filter (ofNames q) = dir.filter (ofNames q)
  blocks : ∀ e ∈ dir, ofNames q e = true → ∀ b ∈ blocksOf e, readBlock d' b.toNat = readBlock d b.toNat

namespace Agree

variable {q q' : List UInt8 → Bool} {d d' d'' : Slots.Drive} {dir dir' dir'' : Dir}

theorem refl (q : List UInt8 → Bool) (d : Slots.Drive) (dir : Dir) : Agree q d dir d dir :=
  ⟨rfl, fun _ _ _ _ _ => rfl⟩

theorem mem_iff (h : Agree q d dir d' dir') {e : List UInt8} (he : ofNames q e = true) : e ∈ dir' ↔ e ∈ dir := by
  have hmem : e ∈ dir'.filter (ofNames q) ↔ e ∈ dir.filter (ofNames q) := by rw [h.entries]
  simpa [List.mem_filter, he] using hmem

theorem trans (h₁ : Agree q d dir d' dir') (h₂ : Agree q d' dir' d'' dir'') : Agree q d dir d'' dir'' where
  entries := h₂.entries.trans h₁.entries
  blocks e he hq b hb :=
    (h₂.blocks e ((h₁.mem_iff hq).mpr he) hq b hb).trans (h₁.blocks e he hq b hb)

theorem mono (h : Agree q d dir d' dir') (hsub : ∀ n, q' n = true → q n = true) : Agree q' d dir d' dir' where
  entries := by
    have hboth : ∀ l : Dir, l.filter (ofNames q') = (l.filter (ofNames q)).filter (ofNames q') := fun l => by
      rw [List.filter_filter]
      refine List.filter_congr fun e _ => ?_
      cases he : ofNames q' e with
      | false => rfl
      | true =>
        obtain ⟨hlive, hq⟩ := ofNames_iff.mp he
        rw [ofNames_iff.mpr ⟨hlive, hsub _ hq⟩]
        rfl
    rw [hboth dir', hboth dir, h.entries]
  blocks e he hq b hb := by
    obtain ⟨hlive, hq'⟩ := ofNames_iff.mp hq
    exact h.blocks e he (ofNames_iff.mpr ⟨hlive, hsub _ hq'⟩) b hb

/-! ### Reading -/

theorem filter_eq (h : Agree q d dir d' dir') {p : List UInt8 → Bool} (hp : ∀ e, p e = true → ofNames q e = true) :
    dir'.filter p = dir.filter p := by
  have hboth : ∀ l : Dir, l.filter p = (l.filter (ofNames q)).filter p := fun l => by
    rw [List.filter_filter]
    refine List.filter_congr fun e _ => ?_
    cases he : p e with
    | false => rfl
    | true => rw [hp e he]; rfl
  rw [hboth dir', hboth dir, h.entries]

theorem fileExtents_eq (h : Agree q d dir d' dir') {first : List UInt8} (hfirst : ofNames q first = true) :
    fileExtents dir' first = fileExtents dir first := by
  rw [fileExtents, fileExtents, h.filter_eq fun e he => ofNames_of_sameFile hfirst he]

theorem readBlocks_congr {fileSize : Nat} {blocks : List UInt8}
    (h : ∀ b ∈ blocks, readBlock d' b.toNat = readBlock d b.toNat) (done : Nat) :
    readBlocks d' fileSize blocks done = readBlocks d fileSize blocks done := by
  induction blocks generalizing done with
  | nil => rfl
  | cons b blocks ih =>
    have hrest := fun done => ih (fun x hx => h x (List.mem_cons_of_mem _ hx)) done
    rw [readBlocks, readBlocks, h b List.mem_cons_self]
    simp only [hrest]

theorem readFile_eq (h : Agree q d dir d' dir') (hdir : readDirectory d = some dir)
    (hdir' : readDirectory d' = some dir') {filename : List UInt8}
    (hq : ∀ name, parseCpmName filename = some name → q name = true) :
    diskReadFile d' filename = diskReadFile d filename := by
  cases hname : parseCpmName filename with
  | none =>
    rw [diskReadFile, diskReadFile, if_neg (tracks_ne_zero hdir), if_neg (tracks_ne_zero hdir'), hdir, hdir']
    dsimp only
    rw [hname]
  | some name =>
    have hnamed : ∀ e, isNamed name e = true → ofNames q e = true := fun e he => by
      rw [isNamed, Bool.and_eq_true, beq_iff_eq] at he
      exact ofNames_iff.mpr ⟨he.1, by rw [he.2]; exact hq name hname⟩
    have hfind : dir'.find? (isNamed name) = dir.find? (isNamed name) := by
      rw [← List.head?_filter, ← List.head?_filter, h.filter_eq hnamed]
    rw [diskReadFile_eq hdir hname, diskReadFile_eq hdir' hname, hfind]
    cases hfound : dir.find? (isNamed name) with
    | none => rfl
    | some found =>
      have hfirst := hnamed found (List.find?_some hfound)
      have hexts := h.fileExtents_eq hfirst
      have hsize : computeFileSize dir' found = computeFileSize dir found := by
        rw [computeFileSize, computeFileSize, hexts]
      have hblocks : getFileBlocks dir' found = getFileBlocks dir found := by
        rw [getFileBlocks, getFileBlocks, hexts]
      dsimp only
      rw [hsize, hblocks]
      refine readBlocks_congr (fun b hb => ?_) 0
      -- each block of the file is a block of one of its entries
      obtain ⟨e, he, hbe⟩ := List.mem_flatMap.mp hb
      rw [fileExtents, List.mem_insertionSort, List.mem_filter] at he
      exact h.blocks e he.1 (ofNames_of_sameFile hfirst he.2) b hbe

end Agree

/-! ## Listing -/

/-- The name a listed file has in the directory. -/
def DiskFileEntry.name (fe : DiskFileEntry) : List UInt8 := fe.filename.take 8 ++ fe.filename.drop 9

theorem listEntry_name (dir : Dir) {e : List UInt8} (he : e.length = dirEntrySize) :
    (listEntry dir e).name = nameOf e := by
  have hlen : ((nameOf e).take 8).length = 8 := by
    rw [List.length_take, nameOf, List.length_map, slice_length (by rw [he]; decide)]
    rfl
  have hdrop : (listEntry dir e).filename.drop 9 = (nameOf e).drop 8 := by
    change ((nameOf e).take 8 ++ 0x2E :: (nameOf e).drop 8).drop 9 = _
    rw [List.drop_append, hlen, List.drop_eq_nil_of_le (by rw [hlen]; decide)]
    rfl
  rw [DiskFileEntry.name, hdrop]
  change ((nameOf e).take 8 ++ 0x2E :: (nameOf e).drop 8).take 8 ++ _ = _
  rw [List.take_left' hlen, List.take_append_drop]

/-- No two files, one under these names and one not, are listed as one. -/
def ListedApart (q : List UInt8 → Bool) (dir : Dir) : Prop :=
  ∀ e ∈ dir, ∀ e' ∈ dir, ofNames q e = true → isLive e' = true → q (nameOf e') = false → listKey e ≠ listKey e'

theorem hasLower_filter {q : List UInt8 → Bool} {dir : Dir} {e : List UInt8} (he : ofNames q e = true) :
    hasLower dir e = hasLower (dir.filter (ofNames q)) e := by
  rw [hasLower, hasLower, List.any_filter]
  congr 1
  funext other
  cases hother : (!isDeleted other && sameFile e other) with
  | false => rw [Bool.false_and, Bool.and_false]
  | true =>
    have hsame : (!isDeleted other && sameFile other e) = true := by
      simp only [sameFile, Bool.and_eq_true, beq_iff_eq] at hother ⊢
      exact ⟨hother.1, hother.2.1.symm, hother.2.2.symm⟩
    rw [ofNames_of_sameFile he hsame, Bool.true_and, Bool.true_and]

theorem listEntry_filter {q : List UInt8 → Bool} {dir : Dir} {e : List UInt8} (he : ofNames q e = true) :
    listEntry dir e = listEntry (dir.filter (ofNames q)) e := by
  have hexts : fileExtents dir e = fileExtents (dir.filter (ofNames q)) e := by
    rw [fileExtents, fileExtents, List.filter_filter]
    congr 1
    refine List.filter_congr fun other _ => ?_
    cases hother : (!isDeleted other && sameFile other e) with
    | false => rfl
    | true => rw [ofNames_of_sameFile he hother]; rfl
  rw [listEntry, listEntry, computeFileSize, computeFileSize, hexts]

theorem listFrom_of_live {dir : Dir} {e : List UInt8} (hlive : isLive e = true) (seen : List (UInt8 × List UInt8))
    (rest : List (List UInt8)) : listFrom dir seen (e :: rest) =
      if listKey e ∈ seen then listFrom dir seen rest
      else if hasLower dir e then listFrom dir seen rest
      else listEntry dir e :: listFrom dir (listKey e :: seen) rest := by
  rw [listFrom, hlive, Bool.not_true, if_neg Bool.false_ne_true]

theorem listFrom_of_not_live {dir : Dir} {e : List UInt8} (hlive : isLive e = false)
    (seen : List (UInt8 × List UInt8)) (rest : List (List UInt8)) :
    listFrom dir seen (e :: rest) = listFrom dir seen rest := by
  rw [listFrom, hlive, Bool.not_false, if_pos rfl]

/-- The files listed under some names are those a directory without the others lists. By induction on
    the entries; the keys seen so far need to agree on the files under the names only. -/
theorem listFrom_filter {q : List UInt8 → Bool} {dir : Dir} (hlen : ∀ e ∈ dir, e.length = dirEntrySize)
    (hapart : ListedApart q dir) (es : List (List UInt8)) (hes : ∀ e ∈ es, e ∈ dir)
    {seen seen' : List (UInt8 × List UInt8)}
    (hseen : ∀ e ∈ dir, ofNames q e = true → (listKey e ∈ seen ↔ listKey e ∈ seen')) :
    (listFrom dir seen es).filter (fun fe => q fe.name) =
      listFrom (dir.filter (ofNames q)) seen' (es.filter (ofNames q)) := by
  induction es generalizing seen seen' with
  | nil => rfl
  | cons e es ih =>
    have hmem := hes e List.mem_cons_self
    have ih' := fun {seen seen'} => @ih (fun x hx => hes x (List.mem_cons_of_mem _ hx)) seen seen'
    cases hq : ofNames q e with
    | true =>
      -- a file under the names: both lists take the same decision about it
      obtain ⟨hlive, hname⟩ := ofNames_iff.mp hq
      rw [List.filter_cons_of_pos hq, listFrom_of_live hlive, listFrom_of_live hlive, ← hasLower_filter hq,
        ← listEntry_filter hq]
      have hkey := hseen e hmem hq
      by_cases hin : listKey e ∈ seen
      · rw [if_pos hin, if_pos (hkey.mp hin)]
        exact ih' hseen
      · rw [if_neg hin, if_neg (fun h => hin (hkey.mpr h))]
        split
        · exact ih' hseen
        · rw [List.filter_cons_of_pos (by rw [listEntry_name dir (hlen e hmem)]; exact hname)]
          congr 1
          refine ih' fun x hx hxq => ?_
          rw [List.mem_cons, List.mem_cons, hseen x hx hxq]
    | false =>
      rw [List.filter_cons_of_neg (by simp [hq])]
      cases hlive : isLive e with
      | false => rw [listFrom_of_not_live hlive]; exact ih' hseen
      | true =>
        -- a file under another name: listed or not, it is filtered out, and its key is nobody's here
        have hname : q (nameOf e) = false := by
          rw [ofNames, hlive, Bool.true_and] at hq
          exact hq
        rw [listFrom_of_live hlive]
        split
        · exact ih' hseen
        · split
          · exact ih' hseen
          · rw [List.filter_cons_of_neg (by rw [listEntry_name dir (hlen e hmem)]; simp [hname])]
            refine ih' fun x hx hxq => ?_
            have hne := hapart x hx e hmem hxq hlive hname
            rw [List.mem_cons, or_iff_right hne, hseen x hx hxq]

theorem Agree.listFrom_eq {q : List UInt8 → Bool} {d d' : Slots.Drive} {dir dir' : Dir} (h : Agree q d dir d' dir')
    (hshape : DirShaped dir) (hshape' : DirShaped dir') (hapart : ListedApart q dir) (hapart' : ListedApart q dir') :
    (listFrom dir' [] dir').filter (fun fe => q fe.name) = (listFrom dir [] dir).filter (fun fe => q fe.name) := by
  rw [listFrom_filter hshape'.entry hapart' dir' (fun _ he => he) (fun _ _ _ => Iff.rfl),
    listFrom_filter hshape.entry hapart dir (fun _ he => he) (fun _ _ _ => Iff.rfl), h.entries]

/-! ## One call -/

/-- A call of the file editor. -/
inductive Call where
  | write (filename data : List UInt8) (addHeader : Bool) (loadAddr execAddr : UInt16) (type : AmsdosFileType)
  | delete (filename : List UInt8)

/-- The name a call gives. -/
def Call.filename : Call → List UInt8
  | .write filename .. => filename
  | .delete filename => filename

/-- The drive after a call, and its error. -/
def Call.exec (d : Slots.Drive) : Call → Slots.Drive × Option FileError
  | .write filename data addHeader loadAddr execAddr type =>
    diskWriteFile d filename data addHeader loadAddr execAddr type
  | .delete filename => diskDeleteFile d filename

/-- A formatted drive with a consistent directory. -/
structure Sound (d : Slots.Drive) (dir : Dir) : Prop where
  formatted : Formatted d
  read : readDirectory d = some dir
  consistent : Consistent dir
  spares : SparesDirectory dir

theorem not_isLive_of_isDeleted {e : List UInt8} (h : isDeleted e = true) : isLive e = false := by
  rw [isLive, h]
  rfl

theorem Sound.agree_of_frame {d d' : Slots.Drive} {dir : Dir} (hs : Sound d dir)
    (hframe : Frame (blocksIn (findFreeBlocks dir)) d d') :
    Sound d' dir ∧ Agree (fun _ => true) d dir d' dir := by
  have hread : readDirectory d' = some dir := by
    rw [hframe.readDirectory_eq (blocksIn_ge_two (fun _ h => h) (by decide))
      (blocksIn_ge_two (fun _ h => h) (by decide)), hs.read]
  refine ⟨⟨hframe.formatted hs.formatted, hread, hs.consistent, hs.spares⟩, rfl, fun e he hq b hb => ?_⟩
  refine hframe.block _ ?_
  rintro ⟨x, hx, hxb⟩
  rw [UInt8.toNat_inj.mp hxb] at hx
  exact findFreeBlocks_unclaimed hx he (ofNames_iff.mp hq).1 hb

section WriteStep

variable {d d' : Slots.Drive} {filename full name blocks : List UInt8} {dir : Dir}

theorem WriteDone.mem_free (h : WriteDone d d' filename full name dir blocks) {b : UInt8} (hb : b ∈ blocks) :
    b ∈ findFreeBlocks dir := by
  rw [h.taken] at hb
  exact List.mem_of_mem_take hb

theorem WriteDone.blocks_ne_zero (h : WriteDone d d' filename full name dir blocks) : ∀ b ∈ blocks, b ≠ 0 := by
  rintro b hb rfl
  have := (findFreeBlocks_bounds (h.mem_free hb)).1
  exact absurd this (by decide)

theorem WriteDone.blocksOf_newEntry (h : WriteDone d d' filename full name dir blocks) (k : Nat) :
    blocksOf (newEntry name blocks (full.length % 2 ^ 32) k) = extentBlocks blocks k :=
  blocksOf_extentEntry (parseCpmName_length h.parsed) (extentBlocks_length_le _ _) fun b hb =>
    h.blocks_ne_zero b (mem_of_mem_extentBlocks hb)

theorem extentBlocks_disjoint {blocks : List UInt8} (hnodup : blocks.Nodup) {i j : Nat} (hij : i < j) {x : UInt8}
    (hi : x ∈ extentBlocks blocks i) : x ∉ extentBlocks blocks j := by
  intro hj
  rw [extentBlocks, List.take_drop] at hi
  have hlt : i * 16 + 16 ≤ j * 16 := by omega
  exact List.disjoint_take_drop hnodup hlt (List.mem_of_mem_drop hi) (List.mem_of_mem_take hj)

theorem WriteDone.consistent (h : WriteDone d d' filename full name dir blocks) (hcons : Consistent dir) :
    Consistent (fillFree isDeleted dir (newEntries name blocks (full.length % 2 ^ 32))) := by
  have hnodup : blocks.Nodup := by
    rw [h.taken]
    exact (List.take_sublist _ _).nodup (findFreeBlocks_nodup dir)
  -- The live entries are the new ones and those that were there.
  have hperm : ((fillFree isDeleted dir (newEntries name blocks (full.length % 2 ^ 32))).filter isLive).Perm
      (newEntries name blocks (full.length % 2 ^ 32) ++ dir.filter isLive) := by
    refine filter_fillFree_perm (fun e _ he => not_isLive_of_isDeleted he) (fun e he => ?_) ?_
    · obtain ⟨k, _, rfl⟩ := List.mem_map.mp he
      rfl
    · rw [newEntries, List.length_map, List.length_range]
      exact h.room
  have hsymm : ∀ {a b : List UInt8}, (∀ x ∈ blocksOf a, x ∉ blocksOf b) → ∀ x ∈ blocksOf b, x ∉ blocksOf a :=
    fun hab x hb ha => hab x ha hb
  rw [Consistent, hperm.pairwise_iff hsymm, List.pairwise_append]
  -- The new extents share no block among themselves, and none with the old ones.
  refine ⟨?_, hcons, ?_⟩
  · rw [newEntries, List.pairwise_map]
    refine List.pairwise_lt_range.imp fun {i j} hij x hi => ?_
    rw [h.blocksOf_newEntry] at hi ⊢
    exact extentBlocks_disjoint hnodup hij hi
  · intro e he e' he' x hx
    obtain ⟨k, _, rfl⟩ := List.mem_map.mp he
    rw [h.blocksOf_newEntry] at hx
    obtain ⟨hmem, hlive⟩ := List.mem_filter.mp he'
    exact findFreeBlocks_unclaimed (h.mem_free (mem_of_mem_extentBlocks hx)) hmem hlive

theorem WriteDone.spares (h : WriteDone d d' filename full name dir blocks) (hspares : SparesDirectory dir) :
    SparesDirectory (fillFree isDeleted dir (newEntries name blocks (full.length % 2 ^ 32))) := by
  intro e he hlive hone
  rcases mem_fillFree he with hold | hnew
  · exact hspares e hold hlive hone
  · obtain ⟨k, _, rfl⟩ := List.mem_map.mp hnew
    rw [h.blocksOf_newEntry] at hone
    have := (findFreeBlocks_bounds (h.mem_free (mem_of_mem_extentBlocks hone))).1
    exact absurd this (by decide)

theorem WriteDone.agree (h : WriteDone d d' filename full name dir blocks) (hs : Sound d dir)
    (h7 : ∀ b ∈ name, b < 0x80) :
    Sound d' (fillFree isDeleted dir (newEntries name blocks (full.length % 2 ^ 32))) ∧
      Agree (fun n => decide (n ≠ name)) d dir d'
        (fillFree isDeleted dir (newEntries name blocks (full.length % 2 ^ 32))) := by
  refine ⟨⟨h.frame.formatted hs.formatted, h.after, h.consistent hs.consistent, h.spares hs.spares⟩, ?_, ?_⟩
  · refine filter_fillFree_of_not (fun e _ he => ?_) fun e he => ?_
    · rw [ofNames, not_isLive_of_isDeleted he]
      rfl
    · obtain ⟨k, _, rfl⟩ := List.mem_map.mp he
      rw [ofNames, newEntry, nameOf_extentEntry (parseCpmName_length h.parsed), (map_and_7F_eq_iff name).mpr h7]
      simp
  · intro e he hq b hb
    obtain ⟨hlive, -⟩ := ofNames_iff.mp hq
    refine h.frame.block _ ?_
    rintro (hdir | ⟨x, hx, hxb⟩)
    · exact hs.spares.two_le he hlive hb hdir
    · rw [UInt8.toNat_inj.mp hxb] at hx
      exact findFreeBlocks_unclaimed (h.mem_free hx) he hlive hb

end WriteStep

/-! ### Deletion -/

theorem isDeleted_set {e : List UInt8} (he : e.length = dirEntrySize) : isDeleted (e.set 0 deletedEntry) = true := by
  rw [isDeleted, userOf, byteAt_set_self _ (by rw [he]; decide)]
  rfl

theorem filter_deletedDir {name : List UInt8} {dir : Dir} (hlen : ∀ e ∈ dir, e.length = dirEntrySize)
    {p : List UInt8 → Bool} (hp : ∀ e, isDeleted e = true → p e = false) :
    (deletedDir name dir).filter p = dir.filter fun e => p e && !isNamed name e := by
  induction dir with
  | nil => rfl
  | cons e dir ih =>
    have hrest := ih fun x hx => hlen x (List.mem_cons_of_mem _ hx)
    rw [deletedDir] at hrest
    rw [deletedDir, List.map_cons]
    cases hnamed : isNamed name e with
    | true =>
      have hgone := hp _ (isDeleted_set (hlen e List.mem_cons_self))
      rw [if_pos rfl, List.filter_cons_of_neg (by simp [hgone]), List.filter_cons_of_neg (by simp [hnamed]), hrest]
    | false => rw [if_neg Bool.false_ne_true, List.filter_cons, List.filter_cons, hnamed, hrest]; simp

theorem Sound.agree_of_delete {d d' : Slots.Drive} {dir : Dir} {name : List UInt8} (hs : Sound d dir)
    (hread : readDirectory d' = some (deletedDir name dir)) (hframe : Frame (· < 2) d d') :
    Sound d' (deletedDir name dir) ∧ Agree (fun n => decide (n ≠ name)) d dir d' (deletedDir name dir) := by
  have hlen := (readDirectory_shaped hs.formatted hs.read).entry
  have hlive : (deletedDir name dir).filter isLive = dir.filter fun e => isLive e && !isNamed name e :=
    filter_deletedDir hlen fun e => not_isLive_of_isDeleted
  have hsub : ((deletedDir name dir).filter isLive).Sublist (dir.filter isLive) := by
    rw [hlive, ← List.filter_filter, List.filter_comm]
    exact List.filter_sublist
  refine ⟨⟨hframe.formatted hs.formatted, hread, hs.consistent.sublist hsub, ?_⟩, ?_, ?_⟩
  · intro e he hl
    have hmem := hsub.mem (List.mem_filter.mpr ⟨he, hl⟩)
    exact hs.spares e (List.mem_filter.mp hmem).1 hl
  · rw [filter_deletedDir hlen fun e he => by rw [ofNames, not_isLive_of_isDeleted he]; rfl]
    refine List.filter_congr fun e _ => ?_
    rw [ofNames, isNamed]
    cases isLive e with
    | false => rfl
    | true => by_cases h : nameOf e = name <;> simp [h]
  · intro e he hq b hb
    exact hframe.block _ (hs.spares.two_le he (ofNames_iff.mp hq).1 hb)

/-- What one call does: it fails and leaves every file alone, or it leaves alone those of other names. -/
theorem Call.step {d : Slots.Drive} {dir : Dir} (hs : Sound d dir) (c : Call) :
    (∃ err, (c.exec d).2 = some err ∧ Sound (c.exec d).1 dir ∧ Agree (fun _ => true) d dir (c.exec d).1 dir) ∨
    ((c.exec d).2 = none ∧ ∃ name, parseCpmName c.filename = some name ∧
      ((∀ b ∈ c.filename, b < 0x80) → ∃ dir', Sound (c.exec d).1 dir' ∧
        Agree (fun n => decide (n ≠ name)) d dir (c.exec d).1 dir')) := by
  cases c with
  | write filename data addHeader loadAddr execAddr type =>
    -- A write fails before it touches anything, fails with the directory as it was, or is done.
    rcases diskWriteFile_cases hs.formatted filename data addHeader loadAddr execAddr type with
      ⟨err, h⟩ | ⟨dir₁, d', err, hdir, hframe, h⟩ | ⟨d', name, dir₁, blocks, hdone, h⟩
    · rw [Call.exec, h]
      exact Or.inl ⟨err, rfl, hs, Agree.refl _ _ _⟩
    · rw [hs.read] at hdir
      cases hdir
      rw [Call.exec, h]
      exact Or.inl ⟨err, rfl, hs.agree_of_frame hframe⟩
    · have hdir := hdone.before
      rw [hs.read] at hdir
      cases hdir
      rw [Call.exec, h]
      refine Or.inr ⟨rfl, name, hdone.parsed, fun h7 => ⟨_, hdone.agree hs ?_⟩⟩
      exact (parseCpmName_lt_iff hdone.parsed).mpr h7
  | delete filename =>
    -- A delete fails untouched or is done.
    rcases diskDeleteFile_cases (d := d) hs.formatted filename with
      ⟨err, h⟩ | ⟨d', name, dir₁, h, hname, hdir, hread, hframe⟩
    · rw [Call.exec, h]
      exact Or.inl ⟨err, rfl, hs, Agree.refl _ _ _⟩
    · rw [hs.read] at hdir
      cases hdir
      rw [Call.exec, h]
      exact Or.inr ⟨rfl, name, hname, fun _ => ⟨_, hs.agree_of_delete hread hframe⟩⟩

/-! ## Runs of calls -/

/-- The drive after a run of calls. -/
def runCalls (d : Slots.Drive) (calls : List Call) : Slots.Drive := calls.foldl (fun d c => (c.exec d).1) d

/-- The names the successful calls of a run gave. -/
def namedBy : Slots.Drive → List Call → List (List UInt8)
  | _, [] => []
  | d, c :: calls =>
    (if (c.exec d).2 = none then (parseCpmName c.filename).toList else []) ++ namedBy (c.exec d).1 calls

/-- Not one of the names. -/
def notIn (names : List (List UInt8)) (n : List UInt8) : Bool := decide (n ∉ names)

theorem run_agree {d : Slots.Drive} {dir : Dir} (hs : Sound d dir) (calls : List Call)
    (h7 : ∀ c ∈ calls, ∀ b ∈ c.filename, b < 0x80) : ∃ dir', Sound (runCalls d calls) dir' ∧
      Agree (notIn (namedBy d calls)) d dir (runCalls d calls) dir' := by
  induction calls generalizing d dir with
  | nil => exact ⟨dir, hs, Agree.refl _ _ _⟩
  | cons c calls ih =>
    have h7' : ∀ x ∈ calls, ∀ b ∈ x.filename, b < 0x80 := fun x hx => h7 x (List.mem_cons_of_mem _ hx)
    rcases c.step hs with ⟨err, herr, hs', hagree⟩ | ⟨hok, name, hname, hstep⟩
    · obtain ⟨dir', hs'', hagree'⟩ := ih hs' h7'
      have hnamed : namedBy d (c :: calls) = namedBy (c.exec d).1 calls := by
        rw [namedBy, herr, if_neg (by simp), List.nil_append]
      rw [hnamed]
      exact ⟨dir', hs'', (hagree.mono fun _ _ => rfl).trans hagree'⟩
    · obtain ⟨dir₁, hs', hagree⟩ := hstep (h7 c List.mem_cons_self)
      obtain ⟨dir', hs'', hagree'⟩ := ih hs' h7'
      have hnamed : namedBy d (c :: calls) = name :: namedBy (c.exec d).1 calls := by
        rw [namedBy, hok, if_pos rfl, hname]
        rfl
      rw [hnamed]
      refine ⟨dir', hs'', (hagree.mono fun n hn => ?_).trans (hagree'.mono fun n hn => ?_)⟩
      · simp only [notIn, List.mem_cons, not_or, decide_eq_true_eq] at hn ⊢
        exact hn.1
      · simp only [notIn, List.mem_cons, not_or, decide_eq_true_eq] at hn ⊢
        exact hn.2

theorem exec_of_unreadable {d : Slots.Drive} (hd : Formatted d) (hnone : readDirectory d = none) (c : Call) :
    ∃ err, c.exec d = (d, some err) := by
  cases c with
  | write filename data addHeader loadAddr execAddr type =>
    rcases diskWriteFile_cases hd filename data addHeader loadAddr execAddr type with
      h | ⟨dir, _, _, hdir, _⟩ | ⟨_, _, dir, _, hdone, _⟩
    · exact h
    · rw [hnone] at hdir
      cases hdir
    · have hdir := hdone.before
      rw [hnone] at hdir
      cases hdir
  | delete filename =>
    rcases diskDeleteFile_cases hd filename with h | ⟨_, _, dir, _, _, hdir, _⟩
    · exact h
    · rw [hnone] at hdir
      cases hdir

theorem run_of_unreadable {d : Slots.Drive} (hd : Formatted d) (hnone : readDirectory d = none) (calls : List Call) :
    runCalls d calls = d := by
  induction calls with
  | nil => rfl
  | cons c calls ih =>
    obtain ⟨err, h⟩ := exec_of_unreadable hd hnone c
    rw [runCalls, List.foldl_cons, h, ← runCalls, ih]

/-- No file of the directory is displayed like a different name of the list. -/
def DisplayedApart (names : List (List UInt8)) (dir : Dir) : Prop :=
  ∀ name ∈ names, ∀ e ∈ dir, isLive e = true → nameOf e ≠ name → formatCpmName (nameOf e) ≠ formatCpmName name

theorem Agree.listedApart {names : List (List UInt8)} {d d' : Slots.Drive} {dir dir' : Dir}
    (h : Agree (notIn names) d dir d' dir') (hdisplay : DisplayedApart names dir) :
    ListedApart (notIn names) dir' := by
  intro e he e' _ hq hlive' hq' hkey
  have hmem := (h.mem_iff hq).mp he
  obtain ⟨hlive, hname⟩ := ofNames_iff.mp hq
  simp only [notIn, decide_eq_true_eq] at hname
  simp only [notIn, decide_eq_false_iff_not, not_not] at hq'
  exact hdisplay _ hq' e hmem hlive (fun heq => hname (heq ▸ hq')) (Prod.mk.inj hkey).2

/-- What holds after any run: the directory is consistent, files of other names than the successful calls
    gave read and list as before the run, and a call that fails changes no file. -/
structure Isolated (d : Slots.Drive) (calls : List Call) : Prop where
  consistent : ∀ dir, readDirectory (runCalls d calls) = some dir → Consistent dir
  read : ∀ filename, (∀ name ∈ namedBy d calls, parseCpmName filename ≠ some name) →
    diskReadFile (runCalls d calls) filename = diskReadFile d filename
  listed : (diskListFiles (runCalls d calls)).map (List.filter fun fe => notIn (namedBy d calls) fe.name) =
    (diskListFiles d).map (List.filter fun fe => notIn (namedBy d calls) fe.name)
  failed : ∀ c err, (Call.exec (runCalls d calls) c).2 = some err →
    readDirectory (Call.exec (runCalls d calls) c).1 = readDirectory (runCalls d calls) ∧
    ∀ filename, diskReadFile (Call.exec (runCalls d calls) c).1 filename = diskReadFile (runCalls d calls) filename

theorem diskListFiles_eq {d : Slots.Drive} {dir : Dir} (hdir : readDirectory d = some dir) :
    diskListFiles d = .ok (listFrom dir [] dir) := by
  rw [diskListFiles, if_neg (tracks_ne_zero hdir), hdir]

/-- Runs of writes and deletions do not interfere with other files. -/
theorem run_isolated {d : Slots.Drive} (hd : Formatted d)
    (hdir : ∀ dir, readDirectory d = some dir → Consistent dir ∧ SparesDirectory dir) (calls : List Call)
    (h7 : ∀ c ∈ calls, ∀ b ∈ c.filename, b < 0x80)
    (hdisplay : ∀ dir, readDirectory d = some dir → DisplayedApart (namedBy d calls) dir) : Isolated d calls := by
  cases hread : readDirectory d with
  | none =>
    -- Without a directory every call fails, and changes nothing.
    have hrun := run_of_unreadable hd hread calls
    refine ⟨fun dir h => ?_, fun _ _ => by rw [hrun], by rw [hrun], fun c err _ => ?_⟩
    · rw [hrun, hread] at h
      cases h
    · rw [hrun]
      obtain ⟨err', h⟩ := exec_of_unreadable hd hread c
      rw [h]
      exact ⟨rfl, fun _ => rfl⟩
  | some dir =>
    obtain ⟨hcons, hspares⟩ := hdir dir hread
    have hs : Sound d dir := ⟨hd, hread, hcons, hspares⟩
    -- The two directories agree on the entries that no call names.
    obtain ⟨dir', hs', hagree⟩ := run_agree hs calls h7
    refine ⟨fun dir₁ h => ?_, fun filename hfree => ?_, ?_, fun c err herr => ?_⟩
    · rw [hs'.read] at h
      cases h
      exact hs'.consistent
    · refine hagree.readFile_eq hread hs'.read fun name hname => ?_
      simp only [notIn, decide_eq_true_eq]
      exact fun hmem => hfree name hmem hname
    · have hlist := hagree.listFrom_eq (readDirectory_shaped hd hread)
        (readDirectory_shaped hs'.formatted hs'.read)
        ((Agree.refl (notIn (namedBy d calls)) d dir).listedApart (hdisplay dir hread))
        (hagree.listedApart (hdisplay dir hread))
      rw [diskListFiles_eq hread, diskListFiles_eq hs'.read]
      exact congrArg Except.ok hlist
    · rcases c.step hs' with ⟨_, _, hs'', hall⟩ | ⟨hok, _⟩
      · rw [hs''.read, hs'.read]
        exact ⟨rfl, fun filename => hall.readFile_eq hs'.read hs''.read fun _ _ => rfl⟩
      · rw [hok] at herr
        cases herr

/-! ## A disc with one file -/

/-- The entry of file `A`: one record, in block 2. -/
def entryA : List UInt8 := extentEntry [0x41, 0x20, 0x20, 0x20, 0x20, 0x20, 0x20, 0x20, 0x20, 0x20, 0x20] 0 1 [2]

/-- A blank disc with that entry in its directory. -/
def discA : Slots.Drive := patchTrack blankDisc 0 0 entryA

/-- The directory of that disc. -/
def dirA : Dir := entryA :: List.replicate 63 (List.replicate 32 0xE5)

theorem readDirectory_discA : readDirectory discA = some dirA := by decide

theorem discA_formatted : Formatted discA :=
  (patchTrack_sameLayout (by decide) (by decide)).formatted blankDisc_formatted

theorem filter_isLive_dirA : dirA.filter isLive = [entryA] := by decide

theorem dirA_sound : Consistent dirA ∧ SparesDirectory dirA := by
  constructor
  · rw [Consistent, filter_isLive_dirA]
    exact List.pairwise_singleton _ _
  · intro e he hlive
    have hmem : e ∈ dirA.filter isLive := List.mem_filter.mpr ⟨he, hlive⟩
    rw [filter_isLive_dirA, List.mem_singleton] at hmem
    rw [hmem]
    decide

/-- The entry of file `B`, in block 3, and the disc with both files. -/
def entryB : List UInt8 := extentEntry [0x42, 0x20, 0x20, 0x20, 0x20, 0x20, 0x20, 0x20, 0x20, 0x20, 0x20] 0 1 [3]
def discTwo : Slots.Drive := patchTrack discA 0 dirEntrySize entryB
def dirTwo : Dir := entryA :: entryB :: List.replicate 62 (List.replicate 32 0xE5)

theorem readDirectory_discTwo : readDirectory discTwo = some dirTwo := by decide

theorem discTwo_formatted : Formatted discTwo :=
  (patchTrack_sameLayout (by decide) (by decide)).formatted discA_formatted

theorem mem_dirTwo {e : List UInt8} (he : e ∈ dirTwo) (hlive : isLive e = true) : e = entryA ∨ e = entryB := by
  have h : e ∈ dirTwo.filter isLive := List.mem_filter.mpr ⟨he, hlive⟩
  rw [show dirTwo.filter isLive = [entryA, entryB] by decide] at h
  simpa using h

/-- How file `A` is listed when its records come to `size` bytes. -/
def listedA (size : Nat) : DiskFileEntry where
  filename := [0x41, 0x20, 0x20, 0x20, 0x20, 0x20, 0x20, 0x20, 0x2E, 0x20, 0x20, 0x20]
  displayName := [0x41]
  sizeBytes := size
  readOnly := false
  system := false
  user := 0

/-- One byte written as file `B` leaves file `A` alone. -/
theorem run_isolated_two_files : Isolated discA [.write [0x42] [8] false 0 0 .binary] :=
  run_isolated discA_formatted (fun dir h => by rw [readDirectory_discA] at h; cases h; exact dirA_sound) _
    (List.forall_mem_singleton.mpr (List.forall_mem_singleton.mpr (by decide)))
    (fun dir h => by
      rw [readDirectory_discA] at h
      cases h
      intro name hname e he hlive _
      have hmem : e ∈ dirA.filter isLive := List.mem_filter.mpr ⟨he, hlive⟩
      rw [filter_isLive_dirA, List.mem_singleton] at hmem
      rw [namedBy, namedBy, List.append_nil] at hname
      split at hname
      · -- the one name given is `B`, and it is not displayed as `A`
        rw [show name = [0x42, 0x20, 0x20, 0x20, 0x20, 0x20, 0x20, 0x20, 0x20, 0x20, 0x20] from
          List.mem_singleton.mp hname, hmem]
        decide
      · cases hname)

/-- One byte written under the name `0xC1`, which is `A` with its high bit set: the call succeeds, though
    stripped of that bit the name is taken, and file `A` has grown from one record to an extent and one. -/
theorem high_name_joins_file :
    Formatted discA ∧ readDirectory discA = some dirA ∧ Consistent dirA ∧ SparesDirectory dirA ∧
    parseCpmName [0xC1] ≠ some (nameOf entryA) ∧
    (Call.exec discA (.write [0xC1] [8] false 0 0 .binary)).2 = none ∧
    diskListFiles discA = .ok [listedA 128] ∧
    diskListFiles (Call.exec discA (.write [0xC1] [8] false 0 0 .binary)).1 = .ok [listedA 16512] := by
  have hok : (diskWriteFile discA [0xC1] [8] false 0 0 .binary).2 = none := by decide
  refine ⟨discA_formatted, readDirectory_discA, dirA_sound.1, dirA_sound.2, by decide, hok, ?_, ?_⟩
  · rw [diskListFiles_eq readDirectory_discA]
    decide
  · obtain ⟨name, dir, blocks, h⟩ := writeDone_of_ok discA_formatted (eq_of_snd_none hok)
    have hdir := h.before
    rw [readDirectory_discA] at hdir
    cases hdir
    have hname : some name = some [0xC1, 0x20, 0x20, 0x20, 0x20, 0x20, 0x20, 0x20, 0x20, 0x20, 0x20] :=
      h.parsed.symm.trans (by decide)
    cases hname
    have hblocks : blocks = [3] := h.taken.trans (by decide)
    have hafter := h.after
    rw [hblocks] at hafter
    rw [Call.exec, diskListFiles_eq hafter]
    decide

end Koncepcja.Cpm
