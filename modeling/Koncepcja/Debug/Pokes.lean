import Koncepcja.Lib.Journal

/-!
# Pokes

The pokes of `src/pokes.cpp`: a poke is a list of addresses and values. Applying it writes the values and notes for
each of them the byte that was there; removing it writes these bytes back, in the same order.

## Main results

- `applyValues_eq`, `unapplyValues_eq`: what applying and removing do to the memory.
- `restores_iff`: pokes that are applied in some order and removed in the reverse order.
-/

namespace Koncepcja.Debug.Pokes

open Journal

/-- The bytes at the addresses. -/
abbrev Memory := UInt16 → UInt8

structure PokeValue where
  address : UInt16
  value : UInt8
  /-- What was there when the poke was applied. -/
  original_value : UInt8 := 0
  deriving DecidableEq

structure Poke where
  values : List PokeValue
  applied : Bool := false
  deriving DecidableEq

abbrev PokeGame := List Poke

/-- The manager, and the memory that its functions read and write. -/
structure State where
  games : List PokeGame
  memory : Memory

/-! ## Applying and removing -/

/-- The loop of `apply`. -/
def applyValues (m : Memory) : List PokeValue → List PokeValue × Memory
  | [] => ([], m)
  | val :: values =>
    let (noted, m') := applyValues (Function.update m val.address val.value) values
    ({ val with original_value := m val.address } :: noted, m')

/-- The loop of `unapply`. -/
def unapplyValues (m : Memory) : List PokeValue → Memory
  | [] => m
  | val :: values => unapplyValues (Function.update m val.address val.original_value) values

/-- A poke by the index of its game and its own. -/
def State.poke (s : State) (i : Nat × Nat) : Option Poke := s.games[i.1]?.bind fun game => game[i.2]?

/-- Another poke in the place of one. -/
def State.setPoke (s : State) (i : Nat × Nat) (poke : Poke) : State :=
  { s with games := s.games.modify i.1 fun game => game.set i.2 poke }

/-- The result, and the state afterwards. -/
def apply (s : State) (i : Nat × Nat) : Int × State :=
  match s.poke i with
  | none => (-1, s)
  | some poke =>
    if poke.applied then (0, s)
    else
      let (noted, m) := applyValues s.memory poke.values
      (poke.values.length, { s.setPoke i { values := noted, applied := true } with memory := m })

def unapply (s : State) (i : Nat × Nat) : Int × State :=
  match s.poke i with
  | none => (-1, s)
  | some poke =>
    if poke.applied then
      (poke.values.length,
        { s.setPoke i { poke with applied := false } with memory := unapplyValues s.memory poke.values })
    else (-1, s)

def applyEach (s : State) (is : List (Nat × Nat)) : State := is.foldl (fun s i => (apply s i).2) s

def unapplyEach (s : State) (is : List (Nat × Nat)) : State := is.foldl (fun s i => (unapply s i).2) s

/-! ## The memory -/

def writes (values : List PokeValue) : List (UInt16 × UInt8) := values.map fun val => (val.address, val.value)

/-- The journal of a poke that was applied. -/
def notes (values : List PokeValue) : List (UInt16 × UInt8) := values.map fun val => (val.address, val.original_value)

/-- Applying is a run of writes, with their journal. -/
theorem applyValues_eq (m : Memory) (values : List PokeValue) :
    (applyValues m values).2 = writeAll m (writes values) ∧
      notes (applyValues m values).1 = journal m (writes values) := by
  induction values generalizing m with
  | nil => exact ⟨rfl, rfl⟩
  | cons val values ih =>
    obtain ⟨hmemory, hnotes⟩ := ih (Function.update m val.address val.value)
    exact ⟨hmemory, congrArg ((val.address, m val.address) :: ·) hnotes⟩

/-- Removing writes the journal back, from its first entry on. -/
theorem unapplyValues_eq (m : Memory) (values : List PokeValue) : unapplyValues m values = writeAll m (notes values) := by
  induction values generalizing m with
  | nil => rfl
  | cons val values ih => exact ih _

/-! ## The pokes -/

theorem poke_setPoke_self {s : State} {i : Nat × Nat} {old poke : Poke} (h : s.poke i = some old) :
    (s.setPoke i poke).poke i = some poke := by
  obtain ⟨game, hgame, hpoke⟩ := Option.bind_eq_some_iff.mp h
  have hlt : i.2 < game.length := (List.getElem?_eq_some_iff.mp hpoke).1
  simp [State.poke, State.setPoke, hgame, hlt]

theorem poke_setPoke_other {s : State} {i j : Nat × Nat} {poke : Poke} (h : i ≠ j) :
    (s.setPoke i poke).poke j = s.poke j := by
  obtain ⟨g, k⟩ := i
  obtain ⟨g', k'⟩ := j
  simp only [State.poke, State.setPoke, List.getElem?_modify]
  by_cases hg : g = g'
  · subst hg
    have hk : k ≠ k' := fun hk => h (by rw [hk])
    cases s.games[g]? with
    | none => rfl
    | some game => simp [List.getElem?_set_ne hk]
  · cases s.games[g']? with
    | none => simp
    | some game => simp [hg]

theorem apply_poke_other {s : State} {i j : Nat × Nat} (h : i ≠ j) : (apply s i).2.poke j = s.poke j := by
  unfold apply
  split
  · rfl
  · split
    · rfl
    · exact poke_setPoke_other h

theorem unapply_poke_other {s : State} {i j : Nat × Nat} (h : i ≠ j) : (unapply s i).2.poke j = s.poke j := by
  unfold unapply
  split
  · rfl
  · split
    · exact poke_setPoke_other h
    · rfl

theorem applyEach_poke_other (s : State) (is : List (Nat × Nat)) {j : Nat × Nat} (h : j ∉ is) :
    (applyEach s is).poke j = s.poke j := by
  induction is generalizing s with
  | nil => rfl
  | cons i is ih =>
    rw [List.mem_cons, not_or] at h
    rw [applyEach, List.foldl_cons, ← applyEach, ih _ h.2, apply_poke_other (Ne.symm h.1)]

theorem unapplyEach_poke_other (s : State) (is : List (Nat × Nat)) {j : Nat × Nat} (h : j ∉ is) :
    (unapplyEach s is).poke j = s.poke j := by
  induction is generalizing s with
  | nil => rfl
  | cons i is ih =>
    rw [List.mem_cons, not_or] at h
    rw [unapplyEach, List.foldl_cons, ← unapplyEach, ih _ h.2, unapply_poke_other (Ne.symm h.1)]

/-! ## Applying some pokes, and removing them in the reverse order -/

/-- There is such a poke, and it is not applied. -/
def Fresh (s : State) (i : Nat × Nat) : Prop := ∃ poke, s.poke i = some poke ∧ poke.applied = false

/-- The writes of a poke, by its index. -/
def writesOf (s : State) (i : Nat × Nat) : List (UInt16 × UInt8) := ((s.poke i).map fun poke => writes poke.values).getD []

theorem apply_fresh {s : State} {i : Nat × Nat} (h : Fresh s i) :
    (apply s i).2.memory = writeAll s.memory (writesOf s i) ∧
      ∃ poke, (apply s i).2.poke i = some poke ∧ poke.applied = true ∧
        notes poke.values = journal s.memory (writesOf s i) := by
  obtain ⟨poke, hpoke, hfresh⟩ := h
  have hwrites : writesOf s i = writes poke.values := by rw [writesOf, hpoke]; rfl
  obtain ⟨hmemory, hnotes⟩ := applyValues_eq s.memory poke.values
  have happly : apply s i = ((poke.values.length : Int),
      ({ s.setPoke i { values := (applyValues s.memory poke.values).1, applied := true } with
        memory := (applyValues s.memory poke.values).2 } : State)) := by
    unfold apply
    rw [hpoke]
    simp only [hfresh, Bool.false_eq_true, ↓reduceIte]
  rw [happly, hwrites]
  exact ⟨hmemory, _, poke_setPoke_self hpoke, rfl, hnotes⟩

theorem unapply_applied {s : State} {i : Nat × Nat} {poke : Poke} (hpoke : s.poke i = some poke)
    (happlied : poke.applied = true) : (unapply s i).2.memory = writeAll s.memory (notes poke.values) := by
  rw [unapply, hpoke]
  simp only [happlied, ↓reduceIte]
  exact unapplyValues_eq s.memory poke.values

theorem memory_applyEach_unapplyEach (s : State) (is : List (Nat × Nat)) (hnodup : is.Nodup)
    (hfresh : ∀ i ∈ is, Fresh s i) :
    (unapplyEach (applyEach s is) is.reverse).memory = roundTrip s.memory (is.map (writesOf s)) := by
  induction is generalizing s with
  | nil => rfl
  | cons i is ih =>
    obtain ⟨hi, hnodup⟩ := List.nodup_cons.mp hnodup
    obtain ⟨hmemory, poke, hpoke, happlied, hnotes⟩ := apply_fresh (hfresh i List.mem_cons_self)
    -- The other pokes are as they were.
    have hother (j : Nat × Nat) (hj : j ∈ is) : (apply s i).2.poke j = s.poke j :=
      apply_poke_other fun hij => hi (hij ▸ hj)
    have hwrites : is.map (writesOf (apply s i).2) = is.map (writesOf s) :=
      List.map_congr_left fun j hj => by rw [writesOf, writesOf, hother j hj]
    have hrest := ih (apply s i).2 hnodup fun j hj => by
      obtain ⟨poke, hpoke, happlied⟩ := hfresh j (List.mem_cons_of_mem i hj)
      exact ⟨poke, by rw [hother j hj, hpoke], happlied⟩
    -- The poke still has its journal when it is removed.
    have hkept : (unapplyEach (applyEach (apply s i).2 is) is.reverse).poke i = some poke := by
      rw [unapplyEach_poke_other _ _ (by rwa [List.mem_reverse]), applyEach_poke_other _ _ hi, hpoke]
    have hlast (t : State) : unapplyEach t (is.reverse ++ [i]) = (unapply (unapplyEach t is.reverse) i).2 := by
      simp [unapplyEach]
    have hfirst : applyEach s (i :: is) = applyEach (apply s i).2 is := rfl
    rw [hfirst, List.reverse_cons, hlast, unapply_applied hkept happlied, hrest, hmemory, hwrites, hnotes]
    rfl

/-- Pokes that are applied in some order and removed in the reverse order restore the memory just when for every
    address the first of them that has it either has it once, or has the byte that was there as its last but one value. -/
theorem restores_iff (s : State) (is : List (Nat × Nat)) (hnodup : is.Nodup) (hfresh : ∀ i ∈ is, Fresh s i) :
    (unapplyEach (applyEach s is) is.reverse).memory = s.memory ↔
      ∀ x ws, (is.map (writesOf s)).find? (touches x) = some ws → Undone (s.memory x) (valuesAt x ws) := by
  rw [memory_applyEach_unapplyEach s is hnodup hfresh, funext_iff]
  exact forall_congr' fun x => roundTrip_eq_iff s.memory (is.map (writesOf s)) x

/-- A game with a poke that has the address 0x4000 twice, and one that has it once. -/
def twicePoked : State where
  games := [[{ values := [⟨0x4000, 1, 0⟩, ⟨0x4000, 2, 0⟩] }, { values := [⟨0x4000, 3, 0⟩] }]]
  memory := fun _ => 0

/-- Where the poke with one value is applied first, the memory is restored. -/
theorem twicePoked_restored :
    (unapplyEach (applyEach twicePoked [(0, 1), (0, 0)]) [(0, 0), (0, 1)]).memory = twicePoked.memory := by
  refine (restores_iff twicePoked [(0, 1), (0, 0)] (by decide) ?_).mpr ?_
  · intro i hi
    rcases List.mem_pair.mp hi with rfl | rfl
    · exact ⟨_, rfl, rfl⟩
    · exact ⟨_, rfl, rfl⟩
  · intro x ws hws v hv
    by_cases hx : x = 0x4000
    · subst hx
      have hfirst : ([(0, 1), (0, 0)].map (writesOf twicePoked)).find? (touches 0x4000) = some [(0x4000, 3)] := by
        decide
      rw [hfirst] at hws
      cases hws
      simp [valuesAt] at hv
    · have hnone : ([(0, 1), (0, 0)].map (writesOf twicePoked)).find? (touches x) = none := by
        have hne : ¬(0x4000 : UInt16) = x := fun h => hx h.symm
        simp [twicePoked, writesOf, State.poke, writes, touches, hne]
      rw [hnone] at hws
      cases hws

/-- The poke with two values leaves its first value behind. -/
theorem twicePoked_not_restored : (unapply (apply twicePoked (0, 0)).2 (0, 0)).2.memory ≠ twicePoked.memory := by
  intro h
  have hleft : (unapply (apply twicePoked (0, 0)).2 (0, 0)).2.memory 0x4000 = 1 := by decide
  rw [h] at hleft
  exact absurd hleft (by decide)

end Koncepcja.Debug.Pokes
