import Mathlib.Data.List.Basic

/-!
# Monitors

A monitor reads the log of a run entry by entry and is stuck at the first one its protocol does not
allow. A machine keeps to the protocol when each of its steps takes the monitor from a state that
stands for the machine's to one that stands for the machine's again.

## Main results

- `follow_append`: a log is followed part by part.
- `follow_runLog`: a machine whose steps keep to the protocol keeps to it in every run.
-/

namespace Monitor

variable {π ε σ α : Type*}

/-- The monitor's state behind a log, unless it got stuck. -/
def follow (step : π → ε → Option π) (p : π) (log : List ε) : Option π := log.foldlM step p

/-- The log of a run: what each of its steps logs, in order. -/
def runLog (next : σ → α → σ) (logs : σ → α → List ε) : σ → List α → List ε
  | _, [] => []
  | s, a :: as => logs s a ++ runLog next logs (next s a) as

variable {step : π → ε → Option π}

@[simp] theorem follow_nil (p : π) : follow step p [] = some p := rfl

theorem follow_cons (p : π) (e : ε) (log : List ε) :
    follow step p (e :: log) = (step p e).bind fun q => follow step q log := rfl

theorem follow_cons_of_step {p q : π} {e : ε} (h : step p e = some q) (log : List ε) :
    follow step p (e :: log) = follow step q log := by
  rw [follow_cons, h]
  rfl

theorem follow_append (p : π) (l₁ l₂ : List ε) :
    follow step p (l₁ ++ l₂) = (follow step p l₁).bind fun q => follow step q l₂ :=
  List.foldlM_append

theorem follow_split {p r : π} {l₁ l₂ : List ε} (h : follow step p (l₁ ++ l₂) = some r) :
    ∃ q, follow step p l₁ = some q ∧ follow step q l₂ = some r := by
  rw [follow_append] at h
  exact Option.bind_eq_some_iff.mp h

theorem follow_join {p q r : π} {l₁ l₂ : List ε} (h₁ : follow step p l₁ = some q) (h₂ : follow step q l₂ = some r) :
    follow step p (l₁ ++ l₂) = some r := by
  rw [follow_append, h₁]
  exact h₂

/-- **Runs of a machine.** `Rel` relates its states to the monitor's; a step's log takes the monitor
    along. -/
theorem follow_runLog {next : σ → α → σ} {logs : σ → α → List ε} (Rel : σ → π → Prop)
    (hstep : ∀ s a p, Rel s p → ∃ q, follow step p (logs s a) = some q ∧ Rel (next s a) q)
    {s : σ} {p : π} (h : Rel s p) (as : List α) :
    ∃ q, follow step p (runLog next logs s as) = some q ∧ Rel (as.foldl next s) q := by
  induction as generalizing s p with
  | nil => exact ⟨p, rfl, h⟩
  | cons a as ih =>
    obtain ⟨q, hq, hnext⟩ := hstep s a p h
    obtain ⟨r, hr, hlast⟩ := ih hnext
    exact ⟨r, follow_join hq hr, hlast⟩

end Monitor
