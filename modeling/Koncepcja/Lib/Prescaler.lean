import Mathlib.Order.Basic

/-!
# Prescaled Counters

A counter behind a prescaler: the prescaler divides the clock, the counter counts its ticks, and
reaching the period is the one event anybody sees. Up to the next event a span of clocks has a closed
form, whatever the phase and also where the count is past a period that was lowered under it.

## Main results

- `Prescaled.tick_of_quiet`: before the event, a clock only moves the phase and the count.
- `Prescaled.tick_at_event`: the clock named by `eventIn` is the event.
- `Prescaled.skip_add`: spans compose.
- `Prescaled.expiries_eq`: how often a span of clocks expires.
-/

namespace Koncepcja

/-- The phase of a prescaler and the count behind it. -/
structure Prescaled where
  div : Nat
  cnt : Nat
  deriving DecidableEq, Repr

namespace Prescaled

variable {presc per : Nat} {c : Prescaled}

/-- One clock: the counter, and whether it expired. -/
def tick (presc per : Nat) (c : Prescaled) : Prescaled × Bool :=
  if c.div + 1 < presc then ({ c with div := c.div + 1 }, false)
  else if c.cnt + 1 < per then ({ div := 0, cnt := c.cnt + 1 }, false)
  else ({ div := 0, cnt := 0 }, true)

/-- The clocks up to and including the next expiry. -/
def eventIn (presc per : Nat) (c : Prescaled) : Nat :=
  (presc - c.div) + ((if c.cnt < per then per - c.cnt else 1) - 1) * presc

/-- `n` clocks without an expiry. -/
def skip (presc n : Nat) (c : Prescaled) : Prescaled where
  div := (c.div + n) % presc
  cnt := c.cnt + (c.div + n) / presc

theorem skip_add (presc m n : Nat) (c : Prescaled) : skip presc n (skip presc m c) = skip presc (m + n) c := by
  have hsplit : c.div + (m + n) = presc * ((c.div + m) / presc) + ((c.div + m) % presc + n) := by
    have := Nat.div_add_mod (c.div + m) presc
    omega
  rw [skip, skip, skip, hsplit, Nat.mul_add_mod]
  congr 1
  rcases Nat.eq_zero_or_pos presc with rfl | hpos
  · simp only [Nat.div_zero]
  · rw [Nat.mul_add_div hpos, Nat.add_assoc]

theorem eventIn_pos (h : c.div < presc) : 0 < eventIn presc per c :=
  Nat.add_pos_left (Nat.sub_pos_of_lt h) _

theorem skip_one_of_lt (h : c.div + 1 < presc) : skip presc 1 c = { c with div := c.div + 1 } := by
  rw [skip, Nat.mod_eq_of_lt h, Nat.div_eq_of_lt h]
  rfl

theorem skip_one_of_eq (h : c.div + 1 = presc) : skip presc 1 c = { div := 0, cnt := c.cnt + 1 } := by
  rw [skip, h, Nat.mod_self, Nat.div_self (by omega)]

/-- **Before the event a clock only counts.** -/
theorem tick_of_quiet (h : c.div < presc) (hq : 1 < eventIn presc per c) : tick presc per c = (skip presc 1 c, false) := by
  by_cases hdiv : c.div + 1 < presc
  · rw [tick, if_pos hdiv, skip_one_of_lt hdiv]
  · have heq : c.div + 1 = presc := by omega
    -- the phase is at its end, so that more than one tick is left
    have hcnt : c.cnt + 1 < per := by
      rw [eventIn, show presc - c.div = 1 by omega] at hq
      have hticks : (if c.cnt < per then per - c.cnt else 1) - 1 ≠ 0 := fun h0 => by
        rw [h0, Nat.zero_mul] at hq
        omega
      split at hticks <;> omega
    rw [tick, if_neg hdiv, if_pos hcnt, skip_one_of_eq heq]

theorem eventIn_skip_one (h : c.div < presc) (hq : 1 < eventIn presc per c) :
    eventIn presc per (skip presc 1 c) + 1 = eventIn presc per c := by
  by_cases hdiv : c.div + 1 < presc
  · rw [skip_one_of_lt hdiv, eventIn, eventIn]
    dsimp only
    omega
  · have heq : c.div + 1 = presc := by omega
    have hnow : eventIn presc per c = 1 + ((if c.cnt < per then per - c.cnt else 1) - 1) * presc := by
      rw [eventIn, show presc - c.div = 1 by omega]
    rw [hnow] at hq ⊢
    rw [skip_one_of_eq heq, eventIn]
    dsimp only
    have hticks : (if c.cnt < per then per - c.cnt else 1) - 1 ≠ 0 := fun h0 => by
      rw [h0, Nat.zero_mul] at hq
      omega
    have hcnt : c.cnt + 1 < per := by split at hticks <;> omega
    rw [if_pos hcnt, if_pos (by omega), show per - c.cnt - 1 = per - (c.cnt + 1) - 1 + 1 by omega, Nat.succ_mul]
    omega

/-- **At the event it expires.** -/
theorem tick_at_event (h : c.div < presc) (hq : eventIn presc per c = 1) : tick presc per c = ({ div := 0, cnt := 0 }, true) := by
  rw [eventIn] at hq
  have hdiv : ¬ c.div + 1 < presc := by omega
  have hticks : ((if c.cnt < per then per - c.cnt else 1) - 1) * presc = 0 := by omega
  have hcnt : ¬ c.cnt + 1 < per := fun hlt => by
    rw [if_pos (by omega)] at hticks
    rcases Nat.mul_eq_zero.mp hticks with h0 | h0 <;> omega
  rw [tick, if_neg hdiv, if_neg hcnt]

theorem skip_div_lt (n : Nat) (h : c.div < presc) : (skip presc n c).div < presc := Nat.mod_lt _ (by omega)

theorem tick_div_lt (per : Nat) (h : c.div < presc) : (tick presc per c).1.div < presc := by
  rw [tick]
  split
  · assumption
  · split <;> exact Nat.zero_lt_of_lt h

theorem tick_cnt_le (presc per : Nat) (c : Prescaled) : (tick presc per c).1.cnt ≤ max c.cnt (per - 1) := by
  rw [tick]
  split
  · exact Nat.le_max_left _ _
  · split
    · exact Nat.le_trans (show c.cnt + 1 ≤ per - 1 by omega) (Nat.le_max_right _ _)
    · exact Nat.zero_le _

/-! ## Counting the expiries -/

/-- How often the counter expires within `k` clocks. -/
def expiries (presc per : Nat) : Nat → Prescaled → Nat
  | 0, _ => 0
  | k + 1, c => expiries presc per k (tick presc per c).1 + (tick presc per c).2.toNat

theorem eventIn_zero (hper : 0 < per) : eventIn presc per ⟨0, 0⟩ = presc * per := by
  obtain ⟨rest, rfl⟩ := Nat.exists_eq_add_of_le' hper
  rw [eventIn, if_pos hper, Nat.sub_zero, Nat.sub_zero, Nat.add_sub_cancel, Nat.mul_succ, Nat.mul_comm presc,
    Nat.add_comm]

/-- **One expiry for each period**, counted from the first. -/
theorem expiries_eq (h : c.div < presc) (hper : 0 < per) (k : Nat) : expiries presc per k c =
    if k < eventIn presc per c then 0 else 1 + (k - eventIn presc per c) / (presc * per) := by
  have hpos : 0 < eventIn presc per c := eventIn_pos h
  have hwhole : 0 < presc * per := Nat.mul_pos (Nat.zero_lt_of_lt h) hper
  induction k generalizing c with
  | zero => rw [expiries, if_pos hpos]
  | succ k ih =>
    rw [expiries]
    by_cases hquiet : 1 < eventIn presc per c
    · have hnext := eventIn_skip_one h hquiet
      have hdiv : (skip presc 1 c).div < presc := skip_div_lt 1 h
      rw [tick_of_quiet h hquiet, ih hdiv (eventIn_pos hdiv), Bool.toNat_false, Nat.add_zero]
      by_cases hk : k + 1 < eventIn presc per c
      · rw [if_pos hk, if_pos (by omega)]
      · rw [if_neg hk, if_neg (by omega), ← hnext, Nat.add_sub_add_right]
    · have hevent : eventIn presc per c = 1 := by omega
      -- the expiry starts a period, which `k` clocks follow
      have hdiv : (⟨0, 0⟩ : Prescaled).div < presc := Nat.zero_lt_of_lt h
      rw [tick_at_event h hevent, ih hdiv (eventIn_pos hdiv), eventIn_zero hper, hevent, Bool.toNat_true,
        Nat.add_sub_cancel]
      by_cases hk : k < presc * per
      · rw [if_pos hk, if_neg (by omega), Nat.div_eq_of_lt hk]
      · have hwhole' : k / (presc * per) = (k - presc * per) / (presc * per) + 1 :=
          Nat.div_eq_sub_div hwhole (Nat.le_of_not_lt hk)
        rw [if_neg hk, if_neg (by omega), hwhole', Nat.add_comm 1 ((k - presc * per) / (presc * per)), Nat.add_comm 1]

end Prescaled

end Koncepcja
