import Koncepcja.Cpm.Listing

/-!
# What a File Deletion Frees

`disk_delete_file` and `disk_read_file` of `src/disk_file_editor.cpp` take the same name. Reading takes the user of the
first live entry under the name, deleting frees all the live entries under it. A file that has the second block of the
directory among its own reads the bytes that a deletion changes there.

## Main results

- `readBlocks_eq_iff`: which files read as before when the second block was changed.
- `take_deletedDir_iff`: how far into the directory a deletion changes nothing.
- `deletesExactly_iff`: when a deletion frees the file that would be read, and no other file changes.
-/

namespace Koncepcja.Cpm

open Koncepcja.Bytes Koncepcja.Disk Koncepcja.Slots

set_option maxRecDepth 20000

/-- The entry of the file that `disk_read_file` returns. -/
def fileRead (dir : Dir) (filename : List UInt8) : Option (List UInt8) :=
  (parseCpmName filename).bind fun name => dir.find? (isNamed name)

/-- The content of the file of an entry. -/
def readFileOf (d : Slots.Drive) (dir : Dir) (e : List UInt8) : Except FileError (List UInt8) :=
  readBlocks d (computeFileSize dir e) (getFileBlocks dir e) 0

/-- An entry of the file that would be read. -/
def isOfFileRead (dir : Dir) (filename e : List UInt8) : Bool :=
  isLive e && decide ((fileRead dir filename).map fileId = some (fileId e))

/-- A deletion frees the entries of the file that would be read, and the other files read as before. -/
structure DeletesExactly (d : Slots.Drive) (dir : Dir) (filename : List UInt8) : Prop where
  freed : readDirectory (diskDeleteFile d filename).1 =
    some (dir.map fun e => if isOfFileRead dir filename e then e.set 0 deletedEntry else e)
  kept : ∀ dir', readDirectory (diskDeleteFile d filename).1 = some dir' → ∀ e ∈ dir, isLive e = true →
    isOfFileRead dir filename e = false → e ∈ dir' ∧ readFileOf (diskDeleteFile d filename).1 dir' e = readFileOf d dir e

/-- The live entries under a name have one user. -/
def OneUser (dir : Dir) (name : List UInt8) : Prop :=
  ∀ e ∈ dir, ∀ e' ∈ dir, isNamed name e = true → isNamed name e' = true → userOf e = userOf e'

/-- No file but those of the name reads, from the second block of the directory, the first byte of an entry under the
    name. -/
def SparesFreed (d : Slots.Drive) (dir : Dir) (name : List UInt8) : Prop :=
  ∀ e ∈ dir, isLive e = true → isNamed name e = false → (∃ bytes, readFileOf d dir e = .ok bytes) →
    ∀ j k f, (getFileBlocks dir e)[j]? = some 1 → dir[32 + k]? = some f → isNamed name f = true →
      computeFileSize dir e ≤ blockSize * j + dirEntrySize * k

/-! ## Reading with a changed block -/

section Reading

variable {d d' : Slots.Drive} {second second' : List UInt8} {size : Nat}

theorem readBlocks_last {b : UInt8} {buf blocks : List UInt8} {done : Nat} (hread : readBlock d b.toNat = some buf)
    (hlast : size ≤ done + blockSize) : readBlocks d size (b :: blocks) done = .ok (buf.take (size - done)) := by
  have hcopy : (if size < done + blockSize then size - done else blockSize) = size - done := by
    split <;> omega
  rw [readBlocks, hread]
  dsimp only
  rw [hcopy, if_pos (by omega)]

theorem readBlocks_further {b : UInt8} {buf blocks : List UInt8} {done : Nat} (hread : readBlock d b.toNat = some buf)
    (hmore : ¬size ≤ done + blockSize) : readBlocks d size (b :: blocks) done =
      (readBlocks d size blocks (done + blockSize)).map (buf.take blockSize ++ ·) := by
  have hcopy : (if size < done + blockSize then size - done else blockSize) = blockSize := if_neg (by omega)
  rw [readBlocks, hread]
  dsimp only
  rw [hcopy, if_neg hmore]
  cases readBlocks d size blocks (done + blockSize) <;> rfl

/-- What the block `b` had and what it has now: only block 1 has changed. -/
structure BlockKept (second second' : List UInt8) (b : UInt8) (buf buf' : List UInt8) : Prop where
  length : buf'.length = buf.length
  take (n : Nat) : buf'.take n = buf.take n ↔ (b = 1 → second'.take n = second.take n)

section BlockKept

variable {b : UInt8} {buf buf' blocks : List UInt8} {n : Nat}

theorem exists_blockKept (h₁ : readBlock d 1 = some second) (h₁' : readBlock d' 1 = some second')
    (hlen : second.length = blockSize) (hlen' : second'.length = blockSize)
    (hother : b ≠ 1 → readBlock d' b.toNat = readBlock d b.toNat) (hread : readBlock d b.toNat = some buf) :
    ∃ buf', readBlock d' b.toNat = some buf' ∧ BlockKept second second' b buf buf' := by
  by_cases hb : b = 1
  · subst hb
    rw [show (1 : UInt8).toNat = 1 from rfl, h₁] at hread
    cases hread
    exact ⟨second', h₁', hlen'.trans hlen.symm, fun n => ⟨fun h _ => h, fun h => h rfl⟩⟩
  · exact ⟨buf, (hother hb).trans hread, rfl, fun n => iff_of_true rfl fun h => absurd h hb⟩

theorem BlockKept.last (h : BlockKept second second' b buf buf') (hn : n ≤ blockSize) (blocks : List UInt8) :
    buf'.take n = buf.take n ↔ ∀ j, (b :: blocks)[j]? = some 1 →
      second'.take (n - blockSize * j) = second.take (n - blockSize * j) := by
  rw [h.take]
  constructor
  · intro hfirst j hj
    cases j with
    | zero =>
      rw [Nat.mul_zero, Nat.sub_zero]
      exact hfirst (Option.some.inj hj)
    | succ j =>
      rw [show n - blockSize * (j + 1) = 0 by rw [Nat.mul_succ]; omega, List.take_zero, List.take_zero]
  · intro hall hb
    have h0 := hall 0 (by rw [hb]; rfl)
    rwa [Nat.mul_zero, Nat.sub_zero] at h0

theorem BlockKept.further (h : BlockKept second second' b buf buf') (hlen : second.length = blockSize)
    (hlen' : second'.length = blockSize) {rest : List UInt8} {r' : Except FileError (List UInt8)}
    (hrest : r' = .ok rest ↔ ∀ j, blocks[j]? = some 1 →
      second'.take (n - blockSize * j) = second.take (n - blockSize * j)) :
    r'.map (buf'.take blockSize ++ ·) = .ok (buf.take blockSize ++ rest) ↔ ∀ j, (b :: blocks)[j]? = some 1 →
      second'.take (n + blockSize - blockSize * j) = second.take (n + blockSize - blockSize * j) := by
  have hlater (j : Nat) : n + blockSize - blockSize * (j + 1) = n - blockSize * j := by
    rw [Nat.mul_succ]
    omega
  constructor
  · intro hsame j hj
    cases r' with
    | error err => cases hsame
    | ok rest' =>
      have hlength : (buf'.take blockSize).length = (buf.take blockSize).length := by
        rw [List.length_take, List.length_take, h.length]
      obtain ⟨hbuf, rfl⟩ := List.append_inj (Except.ok.inj hsame) hlength
      cases j with
      | zero =>
        have hall := (h.take _).mp hbuf (Option.some.inj hj)
        rw [List.take_of_length_le hlen.le, List.take_of_length_le hlen'.le] at hall
        rw [hall]
      | succ j =>
        rw [hlater]
        exact hrest.mp rfl j hj
  · intro hall
    have hbuf : buf'.take blockSize = buf.take blockSize := (h.take _).mpr fun hb => by
      have hwhole := congrArg (List.take blockSize) (hall 0 (by rw [hb]; rfl))
      rwa [List.take_take, List.take_take, Nat.min_eq_left (by omega)] at hwhole
    have hrest' := hrest.mpr fun j hj => by
      rw [← hlater]
      exact hall (j + 1) hj
    rw [hrest', hbuf]
    rfl

end BlockKept

/-- Where no block has changed but block 1, a file that could be read reads as before just when it reads from that
    block no more than is as before. -/
theorem readBlocks_eq_iff (h₁ : readBlock d 1 = some second) (h₁' : readBlock d' 1 = some second')
    (hlen : second.length = blockSize) (hlen' : second'.length = blockSize) (blocks : List UInt8)
    (hother : ∀ b ∈ blocks, b ≠ 1 → readBlock d' b.toNat = readBlock d b.toNat) (done : Nat) :
    readBlocks d' size blocks done = readBlocks d size blocks done ↔
      ((∃ bytes, readBlocks d size blocks done = .ok bytes) → ∀ j, blocks[j]? = some 1 →
        second'.take (size - done - blockSize * j) = second.take (size - done - blockSize * j)) := by
  induction blocks generalizing done with
  | nil => exact iff_of_true rfl fun _ j hj => by simp at hj
  | cons b blocks ih =>
    have hrest := ih (fun x hx => hother x (List.mem_cons_of_mem b hx)) (done + blockSize)
    have hsame := hother b List.mem_cons_self
    cases hread : readBlock d b.toNat with
    | none =>
      have hb : b ≠ 1 := by
        rintro rfl
        rw [show (1 : UInt8).toNat = 1 from rfl, h₁] at hread
        cases hread
      rw [readBlocks, readBlocks, hsame hb, hread]
      exact iff_of_true rfl fun h => by
        obtain ⟨_, h⟩ := h
        cases h
    | some buf =>
      obtain ⟨buf', hread', hkept⟩ := exists_blockKept h₁ h₁' hlen hlen' hsame hread
      by_cases hlast : size ≤ done + blockSize
      · rw [readBlocks_last hread hlast, readBlocks_last hread' hlast, Except.ok.injEq, hkept.last (by omega) blocks]
        exact ⟨fun h _ => h, fun h => h ⟨_, rfl⟩⟩
      · rw [readBlocks_further hread hlast, readBlocks_further hread' hlast]
        cases hr : readBlocks d size blocks (done + blockSize) with
        | error err =>
          -- A block after this one cannot be read, before and now.
          rw [hr] at hrest
          rw [hrest.mpr fun h => by
            obtain ⟨_, h⟩ := h
            cases h]
          exact iff_of_true rfl fun h => by
            obtain ⟨_, h⟩ := h
            cases h
        | ok rest =>
          rw [hr] at hrest
          have hsize : size - done = size - (done + blockSize) + blockSize := by omega
          rw [hsize]
          exact (hkept.further hlen hlen' (hrest.trans ⟨fun h => h ⟨_, rfl⟩, fun h _ => h⟩)).trans
            ⟨fun h _ => h, fun h => h ⟨_, rfl⟩⟩

end Reading

/-! ## The second block of the directory -/

theorem flatten_takeEntries (n : Nat) {bytes : List UInt8} (h : bytes.length = n * dirEntrySize) :
    (takeEntries n bytes).flatten = bytes := by
  induction n generalizing bytes with
  | zero =>
    rw [Nat.zero_mul, List.length_eq_zero_iff] at h
    rw [h]
    rfl
  | succ n ih =>
    rw [takeEntries, List.flatten_cons, ih (by rw [List.length_drop, h, Nat.succ_mul]; omega), List.take_append_drop]

theorem readBlock_one {d : Slots.Drive} (hd : Formatted d) {dir : Dir} (hdir : readDirectory d = some dir) :
    readBlock d 1 = some (dir.drop 32).flatten ∧ (dir.drop 32).flatten.length = blockSize := by
  obtain ⟨first, second, h₀, h₁, rfl⟩ := readDirectory_eq_some hdir
  have hfirst := readBlock_length hd h₀
  have hsecond := readBlock_length hd h₁
  have hlength : (first ++ second).length = cpmDirEntries * dirEntrySize := by
    rw [List.length_append, hfirst, hsecond]
    rfl
  have hshape := readDirectory_shaped hd hdir
  have hhalf : ((dirEntries (first ++ second)).take 32).flatten.length = first.length := by
    rw [flatten_length fun e he => hshape.entry e (List.mem_of_mem_take he), List.length_take, hshape.length, hfirst]
    rfl
  have hboth : ((dirEntries (first ++ second)).take 32).flatten ++ ((dirEntries (first ++ second)).drop 32).flatten =
      first ++ second := by
    rw [← List.flatten_append, List.take_append_drop]
    exact flatten_takeEntries cpmDirEntries hlength
  rw [(List.append_inj hboth hhalf).2]
  exact ⟨h₁, hsecond⟩

/-- Up to the first byte of the first freed entry the bytes of some entries are as before. -/
theorem take_deletedDir_iff (name : List UInt8) {es : Dir} (hlen : ∀ e ∈ es, e.length = dirEntrySize) (n : Nat) :
    (deletedDir name es).flatten.take n = es.flatten.take n ↔
      ∀ k f, es[k]? = some f → isNamed name f = true → n ≤ dirEntrySize * k := by
  induction es generalizing n with
  | nil => exact iff_of_true rfl fun k f hk => by simp at hk
  | cons e es ih =>
    have he := hlen e List.mem_cons_self
    have hrest := ih (fun x hx => hlen x (List.mem_cons_of_mem e hx)) (n - dirEntrySize)
    rw [deletedDir] at hrest
    rw [deletedDir, List.map_cons, List.flatten_cons, List.flatten_cons]
    cases hnamed : isNamed name e with
    | true =>
      rw [if_pos rfl]
      constructor
      · intro h
        -- The first byte was a user number.
        have hn : n = 0 := by
          by_contra hn
          have hfirst := congrArg (·[0]?) h
          obtain ⟨u, e, rfl⟩ : ∃ u tail, e = u :: tail := List.exists_cons_of_length_pos (by rw [he]; decide)
          have hlive : isLive (u :: e) = true := by
            rw [isNamed, Bool.and_eq_true] at hnamed
            exact hnamed.1
          obtain ⟨n, rfl⟩ := Nat.exists_eq_succ_of_ne_zero hn
          have hu : deletedEntry = u := by simpa using hfirst
          rw [← hu] at hlive
          exact absurd hlive (by rw [isLive]; simp [isDeleted, userOf, byteAt])
        intro k f _ _
        omega
      · intro h
        have hn := h 0 e rfl hnamed
        rw [Nat.mul_zero, Nat.le_zero] at hn
        rw [hn, List.take_zero, List.take_zero]
    | false =>
      rw [if_neg Bool.false_ne_true, List.take_append, List.take_append, List.append_cancel_left_eq, he, hrest]
      constructor
      · intro h k f hk hf
        cases k with
        | zero =>
          obtain rfl : e = f := by simpa using hk
          rw [hnamed] at hf
          cases hf
        | succ k =>
          have hle := h k f (by simpa using hk) hf
          rw [Nat.mul_succ]
          omega
      · intro h k f hk hf
        have hle := h (k + 1) f (by simpa using hk) hf
        rw [Nat.mul_succ] at hle
        omega

/-! ## Deleting -/

section Deleting

variable {d : Slots.Drive} {dir : Dir} {filename name : List UInt8}

theorem diskDeleteFile_of_named (hd : Formatted d) (hdir : readDirectory d = some dir)
    (hname : parseCpmName filename = some name) (hany : dir.any (isNamed name) = true) :
    readDirectory (diskDeleteFile d filename).1 = some (deletedDir name dir) ∧
      Frame (· < 2) d (diskDeleteFile d filename).1 := by
  rcases diskDeleteFile_cases hd filename with ⟨err, h⟩ | ⟨d', name', dir', h, hname', hdir', hread, hframe⟩
  · have hshape := deletedDir_shaped (readDirectory_shaped hd hdir) name
    have hok := writeDirectory_ok hd hshape hdir
    rw [diskDeleteFile, if_neg (tracks_ne_zero hdir), hname, hdir] at h
    dsimp only at h
    rw [hany, ← deletedDir] at h
    generalize writeDirectory d (deletedDir name dir) = result at hok h
    obtain ⟨d', ok⟩ := result
    cases hok
    cases h
  · rw [hname] at hname'
    rw [hdir] at hdir'
    cases hname'
    cases hdir'
    rw [h]
    exact ⟨hread, hframe⟩

theorem diskDeleteFile_of_not_named (hdir : readDirectory d = some dir)
    (h : ∀ name, parseCpmName filename = some name → dir.any (isNamed name) = false) :
    (diskDeleteFile d filename).1 = d := by
  rw [diskDeleteFile, if_neg (tracks_ne_zero hdir)]
  cases hname : parseCpmName filename with
  | none => rfl
  | some name =>
    dsimp only
    rw [hdir]
    dsimp only
    rw [h name hname]
    rfl

theorem fileExtents_deletedDir (hlen : ∀ e ∈ dir, e.length = dirEntrySize) {e : List UInt8} (hlive : isLive e = true)
    (hnamed : isNamed name e = false) : fileExtents (deletedDir name dir) e = fileExtents dir e := by
  have hname : nameOf e ≠ name := fun h => by rw [isNamed, hlive, h] at hnamed; simp at hnamed
  rw [fileExtents, fileExtents, filter_deletedDir hlen fun x hx => by rw [hx]; rfl]
  congr 1
  refine List.filter_congr fun x _ => ?_
  cases hsame : sameFile x e with
  | false => rw [Bool.and_false, Bool.false_and]
  | true =>
    have hx : isNamed name x = false := by
      have hnameOf : nameOf x = nameOf e := congrArg Prod.snd (sameFile_iff.mp hsame)
      rw [isNamed, hnameOf, beq_eq_false_iff_ne.mpr hname, Bool.and_false]
    rw [hx, Bool.not_false, Bool.and_true]

theorem readFileOf_deleted_iff (hd : Formatted d) (hdir : readDirectory d = some dir) {d' : Slots.Drive}
    (hread : readDirectory d' = some (deletedDir name dir)) (hframe : Frame (· < 2) d d') {e : List UInt8}
    (hlive : isLive e = true) (hnamed : isNamed name e = false) :
    readFileOf d' (deletedDir name dir) e = readFileOf d dir e ↔
      ((∃ bytes, readFileOf d dir e = .ok bytes) → ∀ j k f, (getFileBlocks dir e)[j]? = some 1 →
        dir[32 + k]? = some f → isNamed name f = true → computeFileSize dir e ≤ blockSize * j + dirEntrySize * k) := by
  have hlen := (readDirectory_shaped hd hdir).entry
  have hexts := fileExtents_deletedDir hlen hlive hnamed
  obtain ⟨h₁, hlength⟩ := readBlock_one hd hdir
  obtain ⟨h₁', hlength'⟩ := readBlock_one (hframe.formatted hd) hread
  rw [deletedDir, ← List.map_drop, ← deletedDir] at h₁' hlength'
  -- Of the blocks of a file only block 1 is part of the directory.
  have hother (b : UInt8) (hb : b ∈ getFileBlocks dir e) (hone : b ≠ 1) :
      readBlock d' b.toNat = readBlock d b.toNat := by
    refine hframe.block _ fun hlt => ?_
    obtain ⟨x, -, hbx⟩ := List.mem_flatMap.mp hb
    have hzero := UInt8.toNat_inj.not.mpr (blocksOf_ne_zero hbx)
    have hone' := UInt8.toNat_inj.not.mpr hone
    rw [show (0 : UInt8).toNat = 0 from rfl] at hzero
    rw [show (1 : UInt8).toNat = 1 from rfl] at hone'
    omega
  rw [readFileOf, readFileOf, computeFileSize, computeFileSize, getFileBlocks, getFileBlocks, hexts, ← computeFileSize,
    ← getFileBlocks, readBlocks_eq_iff h₁ h₁' hlength hlength' _ hother 0]
  refine imp_congr_right fun _ => forall_congr' fun j => ?_
  -- What is read of block 1 is unchanged just if no deleted entry begins in it.
  have htake := @take_deletedDir_iff name (dir.drop 32) (fun x hx => hlen x (List.mem_of_mem_drop hx))
    (computeFileSize dir e - 0 - blockSize * j)
  constructor
  · intro h k f hj hk hf
    have hle := htake.mp (h hj) k f (by rw [List.getElem?_drop]; exact hk) hf
    omega
  · intro h hj
    refine htake.mpr fun k f hk hf => ?_
    rw [List.getElem?_drop] at hk
    have hle := h k f hj hk hf
    omega

/-- A deletion frees just the file that would be read, and no other file changes, just when the live entries under the
    name have one user and no other file reads what was freed. -/
theorem deletesExactly_iff (hd : Formatted d) (hdir : readDirectory d = some dir) (filename : List UInt8) :
    DeletesExactly d dir filename ↔
      ∀ name, parseCpmName filename = some name → OneUser dir name ∧ SparesFreed d dir name := by
  by_cases hnone : ∀ name, parseCpmName filename = some name → dir.any (isNamed name) = false
  · -- There is no such file: nothing is freed.
    have hsame := diskDeleteFile_of_not_named hdir hnone
    have hread : fileRead dir filename = none := by
      cases hname : parseCpmName filename with
      | none => rw [fileRead, hname]; rfl
      | some name =>
        rw [fileRead, hname, Option.bind_some, List.find?_eq_none]
        exact fun e he => List.any_eq_false.mp (hnone name hname) e he
    have hof (e : List UInt8) : isOfFileRead dir filename e = false := by
      rw [isOfFileRead, hread]
      simp
    refine iff_of_true ⟨?_, fun dir' hdir' e he _ _ => ?_⟩ fun name hname => ?_
    · rw [hsame, hdir]
      congr 1
      rw [List.map_congr_left (g := id) fun e _ => by rw [hof e]; rfl, List.map_id]
    · rw [hsame] at hdir' ⊢
      rw [hdir] at hdir'
      cases hdir'
      exact ⟨he, rfl⟩
    · have hfree (e : List UInt8) (he : e ∈ dir) : ¬isNamed name e = true := List.any_eq_false.mp (hnone name hname) e he
      exact ⟨fun e he _ _ hnamed => absurd hnamed (hfree e he),
        fun _ _ _ _ _ _ _ f _ hf hnamed => absurd hnamed (hfree f (List.mem_of_getElem? hf))⟩
  · obtain ⟨name, hname, hany⟩ : ∃ name, parseCpmName filename = some name ∧ dir.any (isNamed name) = true := by
      simpa using hnone
    obtain ⟨hread, hframe⟩ := diskDeleteFile_of_named hd hdir hname hany
    -- The first entry under the name is the one that would be read.
    obtain ⟨found, hfind⟩ : ∃ found, dir.find? (isNamed name) = some found :=
      Option.isSome_iff_exists.mp (by rwa [List.find?_isSome, ← List.any_eq_true])
    have hfound : isNamed name found = true := List.find?_some hfind
    have hmem : found ∈ dir := List.mem_of_find?_eq_some hfind
    have hfile : fileRead dir filename = some found := by rw [fileRead, hname, Option.bind_some, hfind]
    have hof (e : List UInt8) : isOfFileRead dir filename e = true ↔ isNamed name e = true ∧ userOf e = userOf found := by
      rw [isNamed, Bool.and_eq_true, beq_iff_eq] at hfound
      rw [isOfFileRead, hfile, Bool.and_eq_true, decide_eq_true_eq, Option.map_some, Option.some_inj, fileId, fileId,
        Prod.mk.injEq, hfound.2, isNamed, Bool.and_eq_true, beq_iff_eq]
      exact ⟨fun h => ⟨⟨h.1, h.2.2.symm⟩, h.2.1.symm⟩, fun h => ⟨h.1.1, h.2.symm, h.1.2.symm⟩⟩
    have hone : OneUser dir name ↔ ∀ e ∈ dir, isNamed name e = true → isOfFileRead dir filename e = true :=
      ⟨fun h e he hnamed => (hof e).mpr ⟨hnamed, h e he found hmem hnamed hfound⟩,
        fun h e he e' he' hnamed hnamed' =>
          ((hof e).mp (h e he hnamed)).2.trans ((hof e').mp (h e' he' hnamed')).2.symm⟩
    have hlen := (readDirectory_shaped hd hdir).entry
    constructor
    · intro h
      have huser : OneUser dir name := hone.mpr fun e he hnamed => by
        -- A freed entry is not as it was.
        have hfreed := Option.some.inj (hread.symm.trans h.freed)
        rw [deletedDir] at hfreed
        have hentry := List.map_inj_left.mp hfreed e he
        rw [if_pos hnamed] at hentry
        by_contra hnot
        rw [if_neg hnot] at hentry
        have hdeleted := isDeleted_set (hlen e he)
        rw [hentry] at hdeleted
        rw [isNamed, not_isLive_of_isDeleted hdeleted] at hnamed
        cases hnamed
      intro name' hname'
      rw [hname] at hname'
      cases hname'
      refine ⟨huser, fun e he hlive hnamed => (readFileOf_deleted_iff hd hdir hread hframe hlive hnamed).mp ?_⟩
      refine (h.kept _ hread e he hlive ?_).2
      rw [← Bool.not_eq_true, hof]
      exact fun hboth => by rw [hboth.1] at hnamed; cases hnamed
    · intro h
      obtain ⟨huser, hspares⟩ := h name hname
      have hsame (e : List UInt8) (he : e ∈ dir) : isOfFileRead dir filename e = isNamed name e :=
        Bool.eq_iff_iff.mpr ⟨fun h => ((hof e).mp h).1, hone.mp huser e he⟩
      refine ⟨?_, fun dir' hdir' e he hlive hnot => ?_⟩
      · rw [hread, deletedDir]
        exact congrArg some (List.map_congr_left fun e he => by rw [hsame e he])
      · rw [hread] at hdir'
        cases hdir'
        rw [hsame e he] at hnot
        refine ⟨List.mem_map.mpr ⟨e, he, by rw [if_neg (by rw [hnot]; exact Bool.false_ne_true)]⟩, ?_⟩
        exact (readFileOf_deleted_iff hd hdir hread hframe hlive hnot).mpr (hspares e he hlive hnot)

end Deleting

/-- File `A` is deleted, and file `B` stays. -/
theorem deletesExactly_discTwo : DeletesExactly discTwo dirTwo [0x41] :=
  (deletesExactly_iff discTwo_formatted readDirectory_discTwo [0x41]).mpr fun name hname => by
    have hlive {e : List UInt8} (hnamed : isNamed name e = true) : isLive e = true := by
      rw [isNamed, Bool.and_eq_true] at hnamed
      exact hnamed.1
    obtain rfl : [0x41, 0x20, 0x20, 0x20, 0x20, 0x20, 0x20, 0x20, 0x20, 0x20, 0x20] = name :=
      Option.some.inj ((show parseCpmName [0x41] = _ by decide).symm.trans hname)
    refine ⟨fun e he e' he' hnamed hnamed' => ?_, fun e he hlive' hnot _ j k f hj _ _ => ?_⟩
    · rcases mem_dirTwo he (hlive hnamed) with rfl | rfl <;> rcases mem_dirTwo he' (hlive hnamed') with rfl | rfl <;> rfl
    · rcases mem_dirTwo he hlive' with rfl | rfl
      · exact absurd hnot (by decide)
      · -- `B` has no data in the directory
        have hblock : (1 : UInt8) ∈ getFileBlocks dirTwo entryB := List.mem_of_getElem? hj
        exact absurd hblock (by decide)

/-- File `A` of user 1. -/
def entryA1 : List UInt8 := entryA.set 0 1

/-- The disc with file `A` of user 0, and the one of user 1 after it. -/
def discA01 : Slots.Drive := patchTrack discA 0 dirEntrySize entryA1

/-- The file of user 0 would be read, and the one of user 1 is freed as well. -/
theorem discA01_not_deletesExactly : ¬∀ dir, readDirectory discA01 = some dir → DeletesExactly discA01 dir [0x41] := by
  intro h
  have hformatted : Formatted discA01 := (patchTrack_sameLayout (by decide) (by decide)).formatted discA_formatted
  have hread : readDirectory discA01 = some (entryA :: entryA1 :: List.replicate 62 (List.replicate 32 0xE5)) := by
    decide
  have hname : parseCpmName [0x41] = some [0x41, 0x20, 0x20, 0x20, 0x20, 0x20, 0x20, 0x20, 0x20, 0x20, 0x20] := by decide
  obtain ⟨hdeleted, -⟩ := diskDeleteFile_of_named hformatted hread hname (by decide)
  have hfreed := Option.some.inj (hdeleted.symm.trans (h _ hread).freed)
  -- The second entry is freed, and it is not of the file that would be read.
  have hsecond := congrArg (·[1]?) hfreed
  exact absurd hsecond (by decide)

end Koncepcja.Cpm
