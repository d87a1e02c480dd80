import Koncepcja.Debug.Disassembly
import Koncepcja.Lib.Worklist
import Mathlib.Data.Fintype.Basic

/-!
# Disassembling the Code

The disassembler goes through the memory from an entry point on, up to a return or to the end of the memory, and
puts the code that is referred to on its list, unless there is a line for it. It is the exploration of a graph
whose nodes are the addresses: the path of an address is what is gone through from there on.

## Main results

- `disassemble_explores`: the lines are what the exploration visits.
- `disassemble_closed`: the disassembler comes to an end, there is one line for an address, and the lines are
  closed under the jumps and calls, and under going on.
-/

namespace Koncepcja.Debug

theorem size_pos (mem : Memory) (a : UInt16) : 0 < (lineAt mem a).Size := (lineAt mem a).one_le_Size

def disassembleFrom (mem : Memory) (pos : Nat) (result : List DisassembledLine)
    (to_disassembleFrom : List UInt16) : List DisassembledLine × List UInt16 :=
  if _h : pos ≤ 0xFFFF then
    let p := disassembleOne mem (UInt16.ofNat pos) result to_disassembleFrom
    if p.1.instruction_ = ['r', 'e', 't'] then (insertLine p.1 result, p.2)
    else disassembleFrom mem (pos + p.1.Size) (insertLine p.1 result) p.2
  else (result, to_disassembleFrom)
termination_by 0x10000 - pos
decreasing_by
  exact Nat.sub_lt_sub_left (Nat.lt_succ_of_le _h) (Nat.lt_add_of_pos_right (DisassembledLine.one_le_Size _))

/-- The loop of `disassemble`, in so many rounds. The back of the vector is the end of the list. -/
def disassembleLoop (mem : Memory) : Nat → List DisassembledLine → List UInt16 → Option (List DisassembledLine)
  | rounds, code, to_disassembleFrom =>
    match to_disassembleFrom.getLast?, rounds with
    | none, _ => some code
    | some _, 0 => none
    | some next_pos, rounds + 1 =>
      let (code, to_disassembleFrom) := disassembleFrom mem next_pos.toNat code to_disassembleFrom.dropLast
      disassembleLoop mem rounds code to_disassembleFrom

def disassemble (mem : Memory) (rounds : Nat) (entryPoints : List UInt16) : Option (List DisassembledLine) :=
  disassembleLoop mem rounds [] entryPoints

/-! ## Paths -/

instance fintypeUInt16 : Fintype UInt16 := Fintype.ofEquiv (Fin UInt16.size)
  ⟨UInt16.ofFin, UInt16.toFin, fun _ => rfl, fun _ => rfl⟩

/-- What is gone through from an address on. -/
def pathFrom (mem : Memory) (pos : Nat) : List UInt16 :=
  if _h : pos ≤ 0xFFFF then
    let line := lineAt mem (UInt16.ofNat pos)
    UInt16.ofNat pos :: if line.instruction_ = ['r', 'e', 't'] then [] else pathFrom mem (pos + line.Size)
  else []
termination_by 0x10000 - pos
decreasing_by
  exact Nat.sub_lt_sub_left (Nat.lt_succ_of_le _h) (Nat.lt_add_of_pos_right (size_pos mem (UInt16.ofNat pos)))

def path (mem : Memory) (a : UInt16) : List UInt16 := pathFrom mem a.toNat

theorem pathFrom_cons {mem : Memory} {pos : Nat} (h : pos ≤ 0xFFFF) : pathFrom mem pos =
    UInt16.ofNat pos :: if (lineAt mem (UInt16.ofNat pos)).instruction_ = ['r', 'e', 't'] then []
      else pathFrom mem (pos + (lineAt mem (UInt16.ofNat pos)).Size) := by
  rw [pathFrom, dif_pos h]

theorem pathFrom_nil {mem : Memory} {pos : Nat} (h : ¬pos ≤ 0xFFFF) : pathFrom mem pos = [] := by
  rw [pathFrom, dif_neg h]

theorem toNat_le (a : UInt16) : a.toNat ≤ 0xFFFF := Nat.le_of_lt_succ a.toNat_lt

theorem pathFrom_rest (mem : Memory) (pos : Nat) {a : UInt16} (ha : a ∈ pathFrom mem pos) :
    pathFrom mem a.toNat ⊆ pathFrom mem pos := by
  induction hn : 0x10000 - pos using Nat.strong_induction_on generalizing pos with
  | _ n ih =>
    by_cases hpos : pos ≤ 0xFFFF
    · rw [pathFrom_cons hpos] at ha
      rcases List.mem_cons.1 ha with rfl | hrest
      · rw [UInt16.toNat_ofNat_of_lt' (Nat.lt_succ_of_le hpos)]
        exact List.Subset.refl _
      · split at hrest
        · cases hrest
        · rename_i hret
          have hsize := size_pos mem (UInt16.ofNat pos)
          have hsub := ih _ (by omega) _ hrest rfl
          rw [pathFrom_cons hpos, if_neg hret]
          exact fun b hb => List.mem_cons_of_mem _ (hsub hb)
    · rw [pathFrom_nil hpos] at ha
      cases ha

theorem isPath (mem : Memory) : Worklist.IsPath (path mem) where
  self a := by
    rw [path, pathFrom_cons (toNat_le a), UInt16.ofNat_toNat]
    exact List.mem_cons_self
  rest v a ha := pathFrom_rest mem v.toNat ha

theorem mem_path_next {mem : Memory} {a : UInt16} (hret : (lineAt mem a).instruction_ ≠ ['r', 'e', 't'])
    (hle : a.toNat + (lineAt mem a).Size ≤ 0xFFFF) : UInt16.ofNat (a.toNat + (lineAt mem a).Size) ∈ path mem a := by
  rw [path, pathFrom_cons (toNat_le a), UInt16.ofNat_toNat, if_neg hret, pathFrom_cons hle]
  exact List.mem_cons_of_mem _ List.mem_cons_self

/-! ## Lines and addresses -/

/-- There is a line at the address. -/
def HasLine (code : List DisassembledLine) (a : UInt16) : Prop := ∃ line ∈ code, line.address_ = a

theorem hasLine_insertLine (line : DisassembledLine) (code : List DisassembledLine) (a : UInt16) :
    HasLine (insertLine line code) a ↔ line.address_ = a ∨ HasLine code a := by
  induction code with
  | nil => simp [HasLine, insertLine]
  | cons l code ih =>
    rw [insertLine]
    split
    · simp [HasLine]
    · split
      · simp only [HasLine, List.exists_mem_cons_iff] at ih ⊢
        rw [ih]
        tauto
      · rename_i hge hle
        have haddress : line.address_ = l.address_ := UInt16.le_antisymm (UInt16.not_lt.1 hle) (UInt16.not_lt.1 hge)
        simp only [HasLine, List.exists_mem_cons_iff, haddress]
        tauto

/-- The lines are in the order of their addresses, one for each, and say what is there. -/
structure Listing (mem : Memory) (code : List DisassembledLine) : Prop where
  sorted : code.Pairwise (·.address_ < ·.address_)
  lines : ∀ line ∈ code, line = lineAt mem line.address_

theorem mem_insertLine {line l : DisassembledLine} {code : List DisassembledLine} (h : l ∈ insertLine line code) :
    l = line ∨ l ∈ code := by
  induction code with
  | nil => exact Or.inl (List.mem_singleton.1 h)
  | cons m code ih =>
    rw [insertLine] at h
    split at h
    · exact List.mem_cons.1 h
    · split at h
      · rcases List.mem_cons.1 h with rfl | h
        · exact Or.inr List.mem_cons_self
        · exact (ih h).imp_right (List.mem_cons_of_mem _)
      · exact Or.inr h

theorem sorted_insertLine (line : DisassembledLine) {code : List DisassembledLine}
    (h : code.Pairwise (·.address_ < ·.address_)) : (insertLine line code).Pairwise (·.address_ < ·.address_) := by
  induction code with
  | nil => exact List.pairwise_singleton _ _
  | cons m code ih =>
    obtain ⟨hm, hcode⟩ := List.pairwise_cons.1 h
    rw [insertLine]
    split
    · rename_i hlt
      refine List.pairwise_cons.2 ⟨fun l hl => ?_, h⟩
      rcases List.mem_cons.1 hl with rfl | hl
      · exact hlt
      · exact UInt16.lt_trans hlt (hm l hl)
    · split
      · rename_i hlt
        refine List.pairwise_cons.2 ⟨fun l hl => ?_, ih hcode⟩
        rcases mem_insertLine hl with rfl | hl
        · exact hlt
        · exact hm l hl
      · exact h

theorem Listing.insertLine {mem : Memory} {code : List DisassembledLine} (h : Listing mem code) (a : UInt16) :
    Listing mem (insertLine (lineAt mem a) code) where
  sorted := sorted_insertLine _ h.sorted
  lines l hl := by
    rcases mem_insertLine hl with rfl | hl
    · rw [lineAt_address]
    · exact h.lines l hl

/-! ## The exploration -/

/-- The lines are at the addresses that have been visited, and the list is the stack with its top at the end. -/
structure Explores (code : List DisassembledLine) (work : List UInt16) (s : Worklist.State UInt16) : Prop where
  visited : ∀ a, a ∈ s.visited ↔ HasLine code a
  stack : s.stack = work.reverse

theorem fresh_eq {code : List DisassembledLine} {work : List UInt16} {s : Worklist.State UInt16}
    (h : Explores code work s) (points : List UInt16) : fresh code points = points.filter (· ∉ s.visited) := by
  refine List.filter_congr fun a _ => ?_
  rw [Bool.eq_iff_iff, decide_eq_true_iff, h.visited, Bool.not_eq_true', ← Bool.not_eq_true, List.any_eq_true]
  simp only [HasLine, decide_eq_true_eq]

theorem Explores.visit {mem : Memory} {code : List DisassembledLine} {work : List UInt16} {s : Worklist.State UInt16}
    (h : Explores code work s) (a : UInt16) :
    Explores (insertLine (lineAt mem a) code) (work ++ fresh code (targets mem a))
      (Worklist.visit (targets mem) s a) where
  visited b := by
    rw [hasLine_insertLine, lineAt_address, ← h.visited, Worklist.visit, Finset.mem_insert]
    exact or_congr_left eq_comm
  stack := by
    rw [fresh_eq h, List.reverse_append, ← h.stack]
    rfl

theorem disassembleFrom_explores (mem : Memory) (pos : Nat) {code : List DisassembledLine} {work : List UInt16}
    {s : Worklist.State UInt16} (hcode : Listing mem code) (h : Explores code work s) :
    Listing mem (disassembleFrom mem pos code work).1 ∧
      Explores (disassembleFrom mem pos code work).1 (disassembleFrom mem pos code work).2
        ((pathFrom mem pos).foldl (Worklist.visit (targets mem)) s) := by
  induction hn : 0x10000 - pos using Nat.strong_induction_on generalizing pos code work s with
  | _ n ih =>
    rw [disassembleFrom]
    by_cases hpos : pos ≤ 0xFFFF
    · rw [dif_pos hpos, pathFrom_cons hpos, List.foldl_cons]
      simp only [disassembleOne_eq]
      have hcode' := hcode.insertLine (UInt16.ofNat pos)
      have h' := @Explores.visit mem _ _ _ h (UInt16.ofNat pos)
      split
      · exact ⟨hcode', h'⟩
      · have hsize := size_pos mem (UInt16.ofNat pos)
        exact ih _ (by omega) _ hcode' h' rfl
    · rw [dif_neg hpos, pathFrom_nil hpos]
      exact ⟨hcode, h⟩

theorem disassembleLoop_nil (mem : Memory) (rounds : Nat) (code : List DisassembledLine) :
    disassembleLoop mem rounds code [] = some code := by
  cases rounds <;> rfl

theorem disassembleLoop_zero (mem : Memory) (code : List DisassembledLine) (rest : List UInt16) (a : UInt16) :
    disassembleLoop mem 0 code (rest ++ [a]) = none := by
  unfold disassembleLoop
  rw [List.getLast?_concat]

theorem disassembleLoop_succ (mem : Memory) (rounds : Nat) (code : List DisassembledLine) (rest : List UInt16)
    (a : UInt16) : disassembleLoop mem (rounds + 1) code (rest ++ [a]) =
      disassembleLoop mem rounds (disassembleFrom mem a.toNat code rest).1
        (disassembleFrom mem a.toNat code rest).2 := by
  rw [disassembleLoop.eq_def]
  simp only [List.getLast?_concat, List.dropLast_concat]

theorem disassembleLoop_explores (mem : Memory) (rounds : Nat) {code : List DisassembledLine} {work : List UInt16}
    {s : Worklist.State UInt16} (hcode : Listing mem code) (h : Explores code work s) :
    Worklist.run (path mem) (targets mem) rounds s = none ∧ disassembleLoop mem rounds code work = none ∨
      ∃ visited lines, Worklist.run (path mem) (targets mem) rounds s = some visited ∧
        disassembleLoop mem rounds code work = some lines ∧ Listing mem lines ∧
        ∀ a, a ∈ visited ↔ HasLine lines a := by
  obtain ⟨visited, stack⟩ := s
  obtain ⟨hvisited, rfl⟩ := h
  induction rounds generalizing code work visited with
  | zero =>
    rcases List.eq_nil_or_concat work with rfl | ⟨rest, a, rfl⟩
    · exact Or.inr ⟨visited, code, rfl, rfl, hcode, hvisited⟩
    · rw [List.concat_eq_append, List.reverse_concat]
      exact Or.inl ⟨rfl, disassembleLoop_zero mem code rest a⟩
  | succ rounds ih =>
    rcases List.eq_nil_or_concat work with rfl | ⟨rest, a, rfl⟩
    · exact Or.inr ⟨visited, code, rfl, disassembleLoop_nil mem _ code, hcode, hvisited⟩
    · -- The last of the list is taken off, and its path is gone through.
      obtain ⟨hcode', hvisited', hstack'⟩ := disassembleFrom_explores mem a.toNat hcode
        (s := ⟨visited, rest.reverse⟩) ⟨hvisited, rfl⟩
      rw [List.concat_eq_append, List.reverse_concat, Worklist.run_cons, disassembleLoop_succ]
      have hround : Worklist.round (path mem) (targets mem) ⟨visited, a :: rest.reverse⟩ =
          ⟨_, (disassembleFrom mem a.toNat code rest).2.reverse⟩ := congrArg (Worklist.State.mk _) hstack'
      rw [hround]
      exact ih hcode' _ hvisited'

theorem disassemble_explores (mem : Memory) (rounds : Nat) (entryPoints : List UInt16) :
    Worklist.run (path mem) (targets mem) rounds ⟨∅, entryPoints.reverse⟩ = none ∧
        disassemble mem rounds entryPoints = none ∨
      ∃ visited lines, Worklist.run (path mem) (targets mem) rounds ⟨∅, entryPoints.reverse⟩ = some visited ∧
        disassemble mem rounds entryPoints = some lines ∧ Listing mem lines ∧
        ∀ a, a ∈ visited ↔ HasLine lines a := by
  refine disassembleLoop_explores mem rounds ⟨List.Pairwise.nil, fun line hline => absurd hline List.not_mem_nil⟩ ?_
  exact ⟨fun a => ⟨fun ha => absurd ha (Finset.notMem_empty a), fun ⟨l, hl, _⟩ => absurd hl List.not_mem_nil⟩, rfl⟩

theorem covers_entry_points (mem : Memory) (entryPoints : List UInt16) :
    Worklist.Covers (path mem) (targets mem) entryPoints ⟨∅, entryPoints.reverse⟩ where
  paths a ha := absurd ha (Finset.notMem_empty a)
  targets a ha := absurd ha (Finset.notMem_empty a)
  entries _ he := Or.inr (List.mem_reverse.2 he)

/-- The disassembler comes to an end, whatever the memory and the entry points. There is one line for an address, in
    order, and each says what is there. There is a line for the entry points, for what a jump or a call with an
    operand refers to, and behind every instruction that is not the plain return, up to the end of the memory. -/
theorem disassemble_closed (mem : Memory) (entryPoints : List UInt16) :
    (∃ rounds code, disassemble mem rounds entryPoints = some code) ∧
      ∀ rounds code, disassemble mem rounds entryPoints = some code →
        code.Pairwise (·.address_ < ·.address_) ∧
        (∀ line ∈ code, line = lineAt mem line.address_) ∧
        (∀ e ∈ entryPoints, HasLine code e) ∧
        ∀ line ∈ code, (∀ t, StaticTarget mem line.address_ t → HasLine code t) ∧
          (mem line.address_ ≠ 0xC9 → ∀ next : UInt16,
            next.toNat = line.address_.toNat + z80InstructionLength mem line.address_ → HasLine code next) := by
  have hcovers := covers_entry_points mem entryPoints
  refine ⟨?_, fun rounds code hcode => ?_⟩
  · -- With enough rounds the worklist of addresses runs dry.
    obtain ⟨rounds, visited, hrun⟩ := Worklist.terminates (isPath mem) hcovers
    rcases disassemble_explores mem rounds entryPoints with ⟨hnone, -⟩ | ⟨-, lines, -, hlines, -⟩
    · exact absurd (hnone.symm.trans hrun) (Option.some_ne_none visited).symm
    · exact ⟨rounds, lines, hlines⟩
  · rcases disassemble_explores mem rounds entryPoints with
      ⟨-, hnone⟩ | ⟨visited, lines, hrun, hlines, hlisting, hvisited⟩
    · exact absurd (hnone.symm.trans hcode) (Option.some_ne_none code).symm
    · -- The lines are the addresses visited, and these are closed under paths and targets.
      cases hlines.symm.trans hcode
      obtain ⟨hentries, hpaths, htargets⟩ := Worklist.explored (isPath mem) hcovers hrun
      refine ⟨hlisting.sorted, hlisting.lines, fun e he => (hvisited e).1 (hentries e he), fun line hline => ?_⟩
      have hline : line.address_ ∈ visited := (hvisited _).2 ⟨line, hline, rfl⟩
      refine ⟨fun t ht => (hvisited t).1 (htargets _ hline t (mem_targets ht)), fun hret next hnext => ?_⟩
      -- The next address is a path on, unless the line is a `ret`.
      rw [← Size_eq] at hnext
      have hnext' : next = UInt16.ofNat (line.address_.toNat + (lineAt mem line.address_).Size) := by
        rw [← hnext, UInt16.ofNat_toNat]
      refine (hvisited next).1 (hpaths _ hline next ?_)
      rw [hnext']
      exact mem_path_next (fun h => hret (lineAt_ret h)) (hnext ▸ toNat_le next)

/-- A restart calls the address that is a part of its opcode. -/
def RestartTarget (mem : Memory) (a t : UInt16) : Prop := mem a &&& 0xC7 = 0xC7 ∧ t = (mem a &&& 0x38).toUInt16

/-- Nothing but returns, with a restart at 0x0100. -/
def restartMemory : Memory := fun a => if a = 0x100 then 0xC7 else 0xC9

/-- The two lines that are made of it. -/
def restartLines : List DisassembledLine :=
  [{ address_ := 0x100, opcode_ := 0xC7, instruction_ := chars "rst 00h" },
    { address_ := 0x101, opcode_ := 0xC9, instruction_ := chars "ret" }]

theorem restart_lines : disassemble restartMemory 1 [0x100] = some restartLines := by with_unfolding_all decide

/-- A restart counts as a call where the debugger steps over calls, and is not followed here. -/
theorem restart_not_followed : z80IsCallOrRst restartMemory 0x100 = true ∧
    ¬∀ (mem : Memory) (entryPoints : List UInt16) (rounds : Nat) (code : List DisassembledLine),
      disassemble mem rounds entryPoints = some code →
        ∀ line ∈ code, ∀ t, StaticTarget mem line.address_ t ∨ RestartTarget mem line.address_ t → HasLine code t := by
  refine ⟨by decide, fun h => ?_⟩
  obtain ⟨line, hline, haddress⟩ := h restartMemory [0x100] 1 restartLines restart_lines
    { address_ := 0x100, opcode_ := 0xC7, instruction_ := chars "rst 00h" } List.mem_cons_self 0
    (Or.inr ⟨by decide, by decide⟩)
  have hall : ∀ line ∈ restartLines, line.address_ ≠ 0 := by decide
  exact hall line hline haddress

end Koncepcja.Debug
