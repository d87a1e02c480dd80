import Mathlib.Data.List.Basic

/-!
# Frames through a Mailbox of One Slot

One party puts pieces down one by one and cuts them off into frames, another takes the frame that waits.
There is room for one frame; a frame that is cut while another waits is dropped whole, and so is one that
is too short to be a frame at all. Nothing here knows what the pieces are.

## Main definitions

- `frameAt`: what was put between a cut and the one before it.
- `Ledger`: which cuts of a log made a frame that was taken, and which made the one that waits.

## Main results

- `Ledger.put`, `Ledger.cut_dropped`, `Ledger.cut_short`, `Ledger.cut_accepted`, `Ledger.take_waiting`,
  `Ledger.take_nothing`: the ledger of one more event.
-/

namespace Koncepcja.OneSlot

/-! ## Logs -/

/-- What the two parties do. -/
inductive Event (α : Type*) where
  | put (x : α)
  | cut
  | take

variable {α : Type*} {cap least : Nat} {log : List (Event α)} {taken : List Nat} {waiting : Option Nat}

/-- One more event: what has been put since the last cut. -/
def Event.onPieces (pieces : List α) : Event α → List α
  | .put x => pieces ++ [x]
  | .cut => []
  | .take => pieces

/-- What has been put since the last cut of a log. -/
def pieces (log : List (Event α)) : List α := log.foldl Event.onPieces []

/-- What a cut at `i` cuts off: no more than `cap` pieces. -/
def frameAt (cap : Nat) (log : List (Event α)) (i : Nat) : List α := (pieces (log.take i)).take cap

theorem pieces_snoc (log : List (Event α)) (e : Event α) : pieces (log ++ [e]) = e.onPieces (pieces log) :=
  List.foldl_concat ..

theorem frameAt_snoc (cap : Nat) (log : List (Event α)) (e : Event α) {i : Nat} (h : i ≤ log.length) :
    frameAt cap (log ++ [e]) i = frameAt cap log i := by
  rw [frameAt, frameAt, List.take_append_of_le_length h]

theorem frameAt_length (cap : Nat) (log : List (Event α)) :
    frameAt cap log log.length = (pieces log).take cap := by
  rw [frameAt, List.take_length]

theorem getElem?_snoc_of_lt (log : List (Event α)) (e : Event α) {i : Nat} (h : i < log.length) :
    (log ++ [e])[i]? = log[i]? := List.getElem?_append_left h

theorem getElem?_snoc_length (log : List (Event α)) (e : Event α) : (log ++ [e])[log.length]? = some e := by
  rw [List.getElem?_append_right (Nat.le_refl _), Nat.sub_self]
  rfl

theorem getElem?_snoc_some {e x : Event α} {i : Nat} (h : (log ++ [e])[i]? = some x) :
    (i < log.length ∧ log[i]? = some x) ∨ (i = log.length ∧ e = x) := by
  obtain ⟨hi, -⟩ := List.getElem?_eq_some_iff.1 h
  rw [List.length_append, List.length_singleton] at hi
  rcases Nat.lt_or_ge i log.length with hlt | hge
  · exact Or.inl ⟨hlt, by rwa [getElem?_snoc_of_lt log e hlt] at h⟩
  · have hlen : i = log.length := by omega
    rw [hlen, getElem?_snoc_length] at h
    exact Or.inr ⟨hlen, Option.some.inj h⟩

/-! ## The ledger -/

/-- The cut at `i` makes a frame, given the cuts before it that did: it is long enough, and each frame
    before it was taken. -/
def Accepts (cap least : Nat) (log : List (Event α)) (accepted : List Nat) (i : Nat) : Prop :=
  log[i]? = some .cut ∧ least ≤ (frameAt cap log i).length ∧
    ∀ j ∈ accepted, j < i → ∃ k, j < k ∧ k < i ∧ log[k]? = some .take

/-- The cuts whose frames were taken, and the one whose frame waits. -/
structure Ledger (cap least : Nat) (log : List (Event α)) (taken : List Nat) (waiting : Option Nat) : Prop where
  /-- In the order of the cuts, none twice. -/
  ordered : (taken ++ waiting.toList).Pairwise (· < ·)
  /-- These are all the cuts that make a frame. -/
  accepted : ∀ i, i ∈ taken ++ waiting.toList ↔ Accepts cap least log (taken ++ waiting.toList) i
  /-- A frame that was taken was taken after its cut. -/
  collected : ∀ i ∈ taken, ∃ k, i < k ∧ log[k]? = some .take
  /-- Since the cut of the frame that waits nothing was taken. -/
  uncollected : ∀ i ∈ waiting, ∀ k, i < k → log[k]? ≠ some .take

theorem Ledger.nil : Ledger cap least ([] : List (Event α)) [] none where
  ordered := List.Pairwise.nil
  accepted i := by
    refine iff_of_false List.not_mem_nil fun h => ?_
    exact absurd h.1 (by rw [List.getElem?_nil]; exact Option.some_ne_none _ ∘ Eq.symm)
  collected i hi := absurd hi List.not_mem_nil
  uncollected i hi := absurd hi (Option.not_mem_none i)

namespace Ledger

theorem lt_length (h : Ledger cap least log taken waiting) {i : Nat} (hi : i ∈ taken ++ waiting.toList) :
    i < log.length := (List.getElem?_eq_some_iff.1 ((h.accepted i).1 hi).1).1

theorem accepts_snoc (h : Ledger cap least log taken waiting) {accepted : List Nat} (e : Event α)
    (hsame : ∀ i < log.length, i ∈ accepted ↔ i ∈ taken ++ waiting.toList) {i : Nat} (hi : i < log.length) :
    i ∈ accepted ↔ Accepts cap least (log ++ [e]) accepted i := by
  rw [hsame i hi, h.accepted i, Accepts, Accepts, getElem?_snoc_of_lt log e hi, frameAt_snoc cap log e (Nat.le_of_lt hi)]
  refine and_congr_right fun _ => and_congr_right fun _ => forall_congr' fun j => ?_
  constructor
  · intro hall hj hji
    obtain ⟨k, hjk, hki, hk⟩ := hall ((hsame j (by omega)).1 hj) hji
    exact ⟨k, hjk, hki, by rwa [getElem?_snoc_of_lt log e (by omega)]⟩
  · intro hall hj hji
    obtain ⟨k, hjk, hki, hk⟩ := hall ((hsame j (by omega)).2 hj) hji
    exact ⟨k, hjk, hki, by rwa [getElem?_snoc_of_lt log e (by omega)] at hk⟩

theorem not_accepts_beyond {accepted : List Nat} {i : Nat} (hi : log.length ≤ i) :
    ¬ Accepts cap least log accepted i := fun h =>
  absurd (List.getElem?_eq_some_iff.1 h.1).1 (Nat.not_lt.2 hi)

theorem accepted_snoc (h : Ledger cap least log taken waiting) {e : Event α}
    (hno : ¬ Accepts cap least (log ++ [e]) (taken ++ waiting.toList) log.length) (i : Nat) :
    i ∈ taken ++ waiting.toList ↔ Accepts cap least (log ++ [e]) (taken ++ waiting.toList) i := by
  rcases Nat.lt_trichotomy i log.length with hlt | heq | hgt
  · exact h.accepts_snoc e (fun _ _ => Iff.rfl) hlt
  · rw [heq]
    exact iff_of_false (fun hmem => Nat.lt_irrefl _ (h.lt_length hmem)) hno
  · refine iff_of_false (fun hmem => ?_) (not_accepts_beyond ?_)
    · have := h.lt_length hmem
      omega
    · rw [List.length_append, List.length_singleton]
      omega

theorem collected_snoc (h : Ledger cap least log taken waiting) (e : Event α) :
    ∀ i ∈ taken, ∃ k, i < k ∧ (log ++ [e])[k]? = some .take := by
  intro i hi
  obtain ⟨k, hik, hk⟩ := h.collected i hi
  exact ⟨k, hik, by rwa [getElem?_snoc_of_lt log e (List.getElem?_eq_some_iff.1 hk).1]⟩

theorem uncollected_snoc (h : Ledger cap least log taken waiting) {e : Event α} (he : e ≠ .take) :
    ∀ i ∈ waiting, ∀ k, i < k → (log ++ [e])[k]? ≠ some .take := by
  intro i hi k hik hk
  rcases getElem?_snoc_some hk with ⟨-, hold⟩ | ⟨-, hlast⟩
  · exact h.uncollected i hi k hik hold
  · exact he hlast

theorem quiet (h : Ledger cap least log taken waiting) {e : Event α} (he : e ≠ .take)
    (hno : ¬ Accepts cap least (log ++ [e]) (taken ++ waiting.toList) log.length) :
    Ledger cap least (log ++ [e]) taken waiting where
  ordered := h.ordered
  accepted := h.accepted_snoc hno
  collected := h.collected_snoc e
  uncollected := h.uncollected_snoc he

theorem not_accepts_of_ne_cut {accepted : List Nat} {e : Event α} (he : e ≠ .cut) :
    ¬ Accepts cap least (log ++ [e]) accepted log.length := by
  intro h
  have hlast := h.1
  rw [getElem?_snoc_length] at hlast
  exact he (Option.some.inj hlast)

theorem put (h : Ledger cap least log taken waiting) (x : α) : Ledger cap least (log ++ [.put x]) taken waiting :=
  h.quiet (by intro he; cases he) (not_accepts_of_ne_cut (by intro he; cases he))

theorem cut_dropped {w : Nat} (h : Ledger cap least log taken (some w)) :
    Ledger cap least (log ++ [.cut]) taken (some w) := by
  refine h.quiet (by intro he; cases he) fun hacc => ?_
  have hw : w ∈ taken ++ (some w).toList := List.mem_append_right _ (List.mem_singleton.2 rfl)
  -- Had the frame that waits been taken, it would not wait.
  obtain ⟨k, hwk, hk, htake⟩ := hacc.2.2 w hw (h.lt_length hw)
  rw [getElem?_snoc_of_lt log _ hk] at htake
  exact h.uncollected w rfl k hwk htake

theorem cut_short (h : Ledger cap least log taken waiting) (hshort : ((pieces log).take cap).length < least) :
    Ledger cap least (log ++ [.cut]) taken waiting := by
  refine h.quiet (by intro he; cases he) fun hacc => ?_
  have hlong := hacc.2.1
  rw [frameAt_snoc cap log _ (Nat.le_refl _), frameAt_length] at hlong
  omega

theorem cut_accepted (h : Ledger cap least log taken none) (hlong : least ≤ ((pieces log).take cap).length) :
    Ledger cap least (log ++ [.cut]) taken (some log.length) := by
  have hlt : ∀ i ∈ taken, i < log.length := fun i hi => h.lt_length (List.mem_append_left _ hi)
  refine ⟨?_, fun i => ?_, h.collected_snoc _, fun i hi k hik hk => ?_⟩
  · refine List.pairwise_append.2 ⟨(List.pairwise_append.1 h.ordered).1, List.pairwise_singleton _ _, ?_⟩
    intro i hi j hj
    rw [List.mem_singleton.1 hj]
    exact hlt i hi
  · -- A cut before this one is accepted as it was, this one is, and there is none behind it.
    rcases Nat.lt_trichotomy i log.length with hi | rfl | hi
    · refine h.accepts_snoc _ (fun j hj => ?_) hi
      rw [List.mem_append, List.mem_append]
      refine or_congr_right (iff_of_false (fun hmem => ?_) List.not_mem_nil)
      exact absurd (List.mem_singleton.1 hmem) (by omega)
    · refine iff_of_true (List.mem_append_right _ (List.mem_singleton.2 rfl)) ⟨getElem?_snoc_length log _, ?_, ?_⟩
      · rw [frameAt_snoc cap log _ (Nat.le_refl _), frameAt_length]
        exact hlong
      · intro j hj hjlt
        rcases List.mem_append.1 hj with hj | hj
        · obtain ⟨k, hjk, hk⟩ := h.collected j hj
          have hklt : k < log.length := (List.getElem?_eq_some_iff.1 hk).1
          exact ⟨k, hjk, hklt, by rwa [getElem?_snoc_of_lt log _ hklt]⟩
        · exact absurd (List.mem_singleton.1 hj) (by omega)
    · refine iff_of_false (fun hmem => ?_) (not_accepts_beyond ?_)
      · rcases List.mem_append.1 hmem with hi' | hi'
        · have := hlt i hi'
          omega
        · exact absurd (List.mem_singleton.1 hi') (by omega)
      · rw [List.length_append, List.length_singleton]
        omega
  · cases hi
    rcases getElem?_snoc_some hk with ⟨hklt, -⟩ | ⟨-, hlast⟩
    · omega
    · cases hlast

theorem take_waiting {w : Nat} (h : Ledger cap least log taken (some w)) :
    Ledger cap least (log ++ [.take]) (taken ++ [w]) none := by
  have hall : (taken ++ [w]) ++ (none : Option Nat).toList = taken ++ (some w).toList := List.append_nil _
  refine ⟨by rw [hall]; exact h.ordered, fun i => ?_, fun i hi => ?_, fun i hi => absurd hi (Option.not_mem_none i)⟩
  · rw [hall]
    exact h.accepted_snoc (not_accepts_of_ne_cut (by intro he; cases he)) i
  · exact ⟨log.length, h.lt_length hi, getElem?_snoc_length log _⟩

theorem take_nothing (h : Ledger cap least log taken none) : Ledger cap least (log ++ [.take]) taken none where
  ordered := h.ordered
  accepted := h.accepted_snoc (not_accepts_of_ne_cut (by intro he; cases he))
  collected := h.collected_snoc _
  uncollected i hi := absurd hi (Option.not_mem_none i)

end Ledger

end Koncepcja.OneSlot
