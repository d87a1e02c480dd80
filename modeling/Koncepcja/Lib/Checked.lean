import Mathlib.Data.List.Basic

/-!
# Programs That May Fail

A program changes a state, and fails where an access is not allowed. It is safe under an invariant when it does not
fail from a state that has it, and keeps it.

## Main results

- `Safe.bind`: one program after the other.
- `Safe.check`: an access that is allowed.
- `Returns.bind`: what is known of a result may be used by what comes after it.
-/

namespace Koncepcja.Checked

variable {σ ε α β : Type}

/-- A program that may fail. -/
abbrev Program (ε σ α : Type) := StateT σ (Except ε) α

/-- From every state with the invariant the program comes to an end, and to a state with the invariant. -/
def Safe (inv : σ → Prop) (m : Program ε σ α) : Prop := ∀ s, inv s → ∃ a s', m s = .ok (a, s') ∧ inv s'

/-- And what it returns has a property. -/
def Returns (inv : σ → Prop) (post : α → Prop) (m : Program ε σ α) : Prop :=
  ∀ s, inv s → ∃ a s', m s = .ok (a, s') ∧ inv s' ∧ post a

/-- Goes on where something holds, and fails where it does not. -/
def check (c : Prop) [Decidable c] (fault : ε) (m : Program ε σ α) : Program ε σ α :=
  if c then m else throw fault

variable {inv : σ → Prop} {m : Program ε σ α}

theorem Safe.pure (a : α) : Safe inv (pure a : Program ε σ α) := fun s hs => ⟨a, s, rfl, hs⟩

theorem Safe.bind {f : α → Program ε σ β} (hm : Safe inv m) (hf : ∀ a, Safe inv (f a)) : Safe inv (m >>= f) := by
  intro s hs
  obtain ⟨a, s', hrun, hs'⟩ := hm s hs
  obtain ⟨b, s'', hrun', hs''⟩ := hf a s' hs'
  refine ⟨b, s'', ?_, hs''⟩
  show (m s >>= fun p => f p.1 p.2) = _
  rw [hrun]
  exact hrun'

theorem Safe.seq {m' : Program ε σ β} (hm : Safe inv m) (hm' : Safe inv m') : Safe inv (do let _ ← m; m') :=
  hm.bind fun _ => hm'

theorem Safe.modify {f : σ → σ} (h : ∀ s, inv s → inv (f s)) : Safe inv (modify f : Program ε σ PUnit) :=
  fun s hs => ⟨⟨⟩, f s, rfl, h s hs⟩

theorem Safe.get {f : σ → Program ε σ β} (hf : ∀ s, inv s → Safe inv (f s)) : Safe inv (get >>= f) :=
  fun s hs => hf s hs s hs

theorem Safe.check {c : Prop} [Decidable c] {fault : ε} (hc : c) (hm : Safe inv m) :
    Safe inv (check c fault m) := by
  rw [Checked.check, if_pos hc]
  exact hm

theorem Safe.ite {c : Prop} [Decidable c] {m' : Program ε σ α} (hm : c → Safe inv m) (hm' : ¬c → Safe inv m') :
    Safe inv (if c then m else m') := by
  split
  · exact hm ‹c›
  · exact hm' ‹¬c›

/-! ## Runs -/

variable {s s' : σ} {a : α} {e : ε} {f : α → Program ε σ β}

theorem run_bind (h : m s = .ok (a, s')) : (m >>= f) s = f a s' := by
  show (m s >>= fun p => f p.1 p.2) = _
  rw [h]
  rfl

theorem run_bind_error (h : m s = .error e) : (m >>= f) s = .error e := by
  show (m s >>= fun p => f p.1 p.2) = _
  rw [h]
  rfl

theorem run_get {g : σ → Program ε σ β} : (get >>= g) s = g s s := rfl

theorem run_check {c : Prop} [Decidable c] {fault : ε} (hc : c) : check c fault m s = m s := by
  rw [check, if_pos hc]

theorem run_check_error {c : Prop} [Decidable c] {fault : ε} (hc : ¬c) : check c fault m s = .error fault := by
  rw [check, if_neg hc]
  rfl

theorem Safe.run_bind (hm : Safe inv m) (hs : inv s) (hf : ∀ a s', inv s' → ∃ b s'', f a s' = .ok (b, s'')) :
    ∃ b s'', (m >>= f) s = .ok (b, s'') := by
  obtain ⟨a, s', hrun, hs'⟩ := hm s hs
  rw [Checked.run_bind hrun]
  exact hf a s' hs'

/-! ## Results -/

variable {post : α → Prop} {post' : β → Prop}

theorem Returns.pure {a : α} (h : post a) : Returns inv post (pure a : Program ε σ α) := fun s hs => ⟨a, s, rfl, hs, h⟩

theorem Returns.bind {f : α → Program ε σ β} (hm : Returns inv post m) (hf : ∀ a, post a → Safe inv (f a)) :
    Safe inv (m >>= f) := by
  intro s hs
  obtain ⟨a, s', hrun, hs', ha⟩ := hm s hs
  obtain ⟨b, s'', hrun', hs''⟩ := hf a ha s' hs'
  refine ⟨b, s'', ?_, hs''⟩
  show (m s >>= fun p => f p.1 p.2) = _
  rw [hrun]
  exact hrun'

theorem Safe.bind_returns {f : α → Program ε σ β} (hm : Safe inv m) (hf : ∀ a, Returns inv post' (f a)) :
    Returns inv post' (m >>= f) := by
  intro s hs
  obtain ⟨a, s', hrun, hs'⟩ := hm s hs
  obtain ⟨b, s'', hrun', hs'', hb⟩ := hf a s' hs'
  refine ⟨b, s'', ?_, hs'', hb⟩
  show (m s >>= fun p => f p.1 p.2) = _
  rw [hrun]
  exact hrun'

theorem Returns.get {f : σ → Program ε σ β} (hf : ∀ s, inv s → Returns inv post' (f s)) :
    Returns inv post' (get >>= f) :=
  fun s hs => hf s hs s hs

theorem Returns.check {c : Prop} [Decidable c] {fault : ε} (hc : c) (hm : Returns inv post m) :
    Returns inv post (check c fault m) := by
  rw [Checked.check, if_pos hc]
  exact hm

end Koncepcja.Checked
