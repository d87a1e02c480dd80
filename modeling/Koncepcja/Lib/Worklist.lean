import Mathlib.Data.Finset.Card
import Mathlib.Data.Fintype.Card
import Mathlib.Data.List.Basic

/-!
# Exploration with a Stack

A graph is explored path by path. An item of the stack starts a path, whose nodes are visited one after the
other whether they were visited before or not; a node that is visited puts those of its targets on the stack
that have not been visited yet. A node may be on the stack many times, and a path may be walked many times.

## Main results

- `terminates`: the stack runs empty.
- `explored`: then the entries are visited, and with each node its path and its targets.
-/

namespace Koncepcja.Worklist

variable {V : Type*} [DecidableEq V]

/-- What has been visited, and what is left to do. -/
structure State (V : Type*) where
  visited : Finset V
  stack : List V

/-- A node is visited. -/
def visit (targets : V → List V) (s : State V) (a : V) : State V where
  visited := insert a s.visited
  stack := ((targets a).filter (· ∉ s.visited)).reverse ++ s.stack

/-- The topmost item of the stack, with its path. -/
def round (path targets : V → List V) (s : State V) : State V :=
  match s.stack with
  | [] => s
  | v :: rest => (path v).foldl (visit targets) { s with stack := rest }

/-- So many rounds, if the stack runs empty by then. -/
def run (path targets : V → List V) : Nat → State V → Option (Finset V)
  | fuel, s =>
    match s.stack, fuel with
    | [], _ => some s.visited
    | _ :: _, 0 => none
    | _ :: _, fuel + 1 => run path targets fuel (round path targets s)

/-- A path starts at its node, and is the path of each of its nodes from there on. -/
structure IsPath (path : V → List V) : Prop where
  self : ∀ v, v ∈ path v
  rest : ∀ v, ∀ a ∈ path v, path a ⊆ path v

/-- What is left to do covers what has been seen and not been done. -/
structure Covers (path targets : V → List V) (entries : List V) (s : State V) : Prop where
  paths : ∀ a ∈ s.visited, ∀ b ∈ path a, b ∈ s.visited
  targets : ∀ a ∈ s.visited, ∀ t ∈ targets a, t ∈ s.visited ∨ t ∈ s.stack
  entries : ∀ e ∈ entries, e ∈ s.visited ∨ e ∈ s.stack

variable {path targets : V → List V} {entries : List V}

/-! ## One path -/

theorem mem_visit_stack {s : State V} {a t : V} (h : t ∈ targets a) :
    t ∈ (visit targets s a).visited ∨ t ∈ (visit targets s a).stack := by
  by_cases hv : t ∈ s.visited
  · exact Or.inl (Finset.mem_insert_of_mem hv)
  · refine Or.inr (List.mem_append_left _ (List.mem_reverse.2 (List.mem_filter.2 ⟨h, ?_⟩)))
    exact decide_eq_true hv

theorem foldl_visit_visited (as : List V) (s : State V) (b : V) :
    b ∈ (as.foldl (visit targets) s).visited ↔ b ∈ as ∨ b ∈ s.visited := by
  induction as generalizing s with
  | nil => exact (or_iff_right List.not_mem_nil).symm
  | cons a as ih =>
    rw [List.foldl_cons, ih, visit, Finset.mem_insert, List.mem_cons]
    tauto

theorem foldl_visit_stack (as : List V) (s : State V) :
    ∃ pushed, (as.foldl (visit targets) s).stack = pushed ++ s.stack ∧ ∀ t ∈ pushed, t ∉ s.visited := by
  induction as generalizing s with
  | nil => exact ⟨[], rfl, fun t ht => absurd ht List.not_mem_nil⟩
  | cons a as ih =>
    obtain ⟨pushed, hstack, hpushed⟩ := ih (visit targets s a)
    refine ⟨pushed ++ ((targets a).filter (· ∉ s.visited)).reverse, ?_, fun t ht => ?_⟩
    · rw [List.foldl_cons, hstack, List.append_assoc]
      rfl
    · rcases List.mem_append.1 ht with ht | ht
      · exact fun hv => hpushed t ht (Finset.mem_insert_of_mem hv)
      · exact of_decide_eq_true (List.mem_filter.1 (List.mem_reverse.1 ht)).2

theorem foldl_visit_mono (as : List V) {s : State V} {t : V} (h : t ∈ s.visited ∨ t ∈ s.stack) :
    t ∈ (as.foldl (visit targets) s).visited ∨ t ∈ (as.foldl (visit targets) s).stack := by
  rcases h with h | h
  · exact Or.inl ((foldl_visit_visited as s t).2 (Or.inr h))
  · obtain ⟨pushed, hstack, -⟩ := @foldl_visit_stack _ _ targets as s
    rw [hstack]
    exact Or.inr (List.mem_append_right _ h)

theorem foldl_visit_targets (as : List V) (s : State V) {a t : V} (ha : a ∈ as) (ht : t ∈ targets a) :
    t ∈ (as.foldl (visit targets) s).visited ∨ t ∈ (as.foldl (visit targets) s).stack := by
  induction as generalizing s with
  | nil => cases ha
  | cons b as ih =>
    rcases List.mem_cons.1 ha with rfl | ha
    · exact foldl_visit_mono as (mem_visit_stack ht)
    · exact ih (visit targets s b) ha

/-! ## Rounds -/

theorem Covers.round (hpath : IsPath path) {s : State V} (h : Covers path targets entries s) :
    Covers path targets entries (round path targets s) := by
  obtain ⟨visited, stack⟩ := s
  cases stack with
  | nil => exact h
  | cons v rest =>
    -- The item that is taken off the stack is the first node of its path.
    have hkeep {t : V} (ht : t ∈ visited ∨ t ∈ v :: rest) :
        t ∈ ((path v).foldl (visit targets) ⟨visited, rest⟩).visited ∨
          t ∈ ((path v).foldl (visit targets) ⟨visited, rest⟩).stack := by
      rcases ht with ht | ht
      · exact foldl_visit_mono (path v) (Or.inl ht)
      · rcases List.mem_cons.1 ht with rfl | ht
        · exact Or.inl ((foldl_visit_visited _ _ _).2 (Or.inl (hpath.self t)))
        · exact foldl_visit_mono (path v) (Or.inr ht)
    refine ⟨fun a ha b hb => ?_, fun a ha t ht => ?_, fun e he => hkeep (h.entries e he)⟩
    · refine (foldl_visit_visited _ _ _).2 ?_
      rcases (foldl_visit_visited _ _ _).1 ha with ha | ha
      · exact Or.inl (hpath.rest v a ha hb)
      · exact Or.inr (h.paths a ha b hb)
    · rcases (foldl_visit_visited _ _ _).1 ha with ha | ha
      · exact foldl_visit_targets (path v) ⟨visited, rest⟩ ha ht
      · exact hkeep (h.targets a ha t ht)

theorem run_nil (fuel : Nat) (visited : Finset V) : run path targets fuel ⟨visited, []⟩ = some visited := by
  cases fuel <;> rfl

theorem run_cons (fuel : Nat) (visited : Finset V) (v : V) (rest : List V) :
    run path targets (fuel + 1) ⟨visited, v :: rest⟩ =
      run path targets fuel (round path targets ⟨visited, v :: rest⟩) := rfl

/-- What is left when the stack has run empty. -/
theorem explored (hpath : IsPath path) {fuel : Nat} {s : State V} {visited : Finset V}
    (h : Covers path targets entries s) (hrun : run path targets fuel s = some visited) :
    (∀ e ∈ entries, e ∈ visited) ∧ (∀ a ∈ visited, ∀ b ∈ path a, b ∈ visited) ∧
      ∀ a ∈ visited, ∀ t ∈ targets a, t ∈ visited := by
  induction fuel generalizing s with
  | zero =>
    obtain ⟨seen, stack⟩ := s
    cases stack with
    | nil =>
      cases hrun
      exact ⟨fun e he => (h.entries e he).resolve_right List.not_mem_nil, h.paths,
        fun a ha t ht => (h.targets a ha t ht).resolve_right List.not_mem_nil⟩
    | cons v rest => cases hrun
  | succ fuel ih =>
    obtain ⟨seen, stack⟩ := s
    cases stack with
    | nil =>
      cases hrun
      exact ⟨fun e he => (h.entries e he).resolve_right List.not_mem_nil, h.paths,
        fun a ha t ht => (h.targets a ha t ht).resolve_right List.not_mem_nil⟩
    | cons v rest => exact ih (h.round hpath) hrun

/-! ## The end -/

section Finite

variable [Fintype V]

/-- How many nodes have not been visited. -/
def left (visited : Finset V) : Nat := (Finset.univ.filter (· ∉ visited)).card

theorem left_lt {visited visited' : Finset V} (hsub : ∀ a ∈ visited, a ∈ visited') {v : V} (hv : v ∉ visited)
    (hv' : v ∈ visited') : left visited' < left visited := by
  refine Finset.card_lt_card (Finset.ssubset_iff_subset_ne.2 ⟨fun a ha => ?_, fun heq => ?_⟩)
  · rw [Finset.mem_filter] at ha ⊢
    exact ⟨ha.1, fun hmem => ha.2 (hsub a hmem)⟩
  · have hmem : v ∈ Finset.univ.filter (· ∉ visited) := Finset.mem_filter.2 ⟨Finset.mem_univ v, hv⟩
    rw [← heq] at hmem
    exact (Finset.mem_filter.1 hmem).2 hv'

/-- The stack runs empty. Where the topmost item has not been visited a round visits it. Where it has, so has
    its path, and the round takes it off, or puts a node on top that has not been visited. -/
theorem terminates (hpath : IsPath path) {s : State V} (h : Covers path targets entries s) :
    ∃ fuel visited, run path targets fuel s = some visited := by
  induction hn : left s.visited using Nat.strong_induction_on generalizing s with
  | _ n ih =>
    -- A fresh item on top: the next round visits it.
    have hfresh (v : V) (rest : List V) (hc : Covers path targets entries ⟨s.visited, v :: rest⟩)
        (hv : v ∉ s.visited) : ∃ fuel visited, run path targets fuel ⟨s.visited, v :: rest⟩ = some visited := by
      have hlt : left (round path targets ⟨s.visited, v :: rest⟩).visited < n := by
        rw [← hn]
        refine left_lt (fun a ha => ?_) hv ?_
        · exact (foldl_visit_visited _ _ _).2 (Or.inr ha)
        · exact (foldl_visit_visited _ _ _).2 (Or.inl (hpath.self v))
      obtain ⟨fuel, visited, hrun⟩ := ih _ hlt (hc.round hpath) rfl
      exact ⟨fuel + 1, visited, hrun⟩
    obtain ⟨seen, stack⟩ := s
    induction stack with
    | nil => exact ⟨0, seen, run_nil 0 seen⟩
    | cons v rest ihstack =>
      by_cases hv : v ∈ seen
      · -- The path of a visited node has been visited.
        have hcov := h.round hpath
        obtain ⟨pushed, hstack, hpushed⟩ := @foldl_visit_stack _ _ targets (path v) ⟨seen, rest⟩
        have hseen : (round path targets ⟨seen, v :: rest⟩).visited = seen := by
          ext b
          refine (foldl_visit_visited _ _ _).trans (or_iff_right_of_imp fun hb => h.paths v hv b hb)
        have hround : round path targets ⟨seen, v :: rest⟩ = ⟨seen, pushed ++ rest⟩ := by
          have heta : round path targets ⟨seen, v :: rest⟩ =
            ⟨(round path targets ⟨seen, v :: rest⟩).visited, (round path targets ⟨seen, v :: rest⟩).stack⟩ := rfl
          rw [heta, hseen]
          exact congrArg _ hstack
        rw [hround] at hcov
        obtain ⟨fuel, visited, hrun⟩ : ∃ fuel visited, run path targets fuel ⟨seen, pushed ++ rest⟩ = some visited := by
          cases pushed with
          | nil => exact ihstack hcov hn hfresh
          | cons t pushed => exact hfresh t (pushed ++ rest) hcov (hpushed t List.mem_cons_self)
        refine ⟨fuel + 1, visited, ?_⟩
        rw [run_cons, hround]
        exact hrun
      · exact hfresh v rest h hv

end Finite

end Koncepcja.Worklist
