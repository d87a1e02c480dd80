import Koncepcja.Input.Autotype
import Koncepcja.Lib.Stepwise

/-!
# No Key Stays Down

Between its ticks the auto-type queue takes calls in any order. A character's key goes down on one tick
and up on the next, and then a tick passes; only `clear` can get between, and it forgets the key.

## Main results

- `never_stuck`: in every run that clears the queue at no such moment, and whose pauses fit an `int`, each
  press of a character is followed by its release, and a pause of `n` frames delays the next action by
  `n` ticks.
-/

namespace Koncepcja.Input

open Stepwise

/-! ## Runs -/

/-- A call of the queue. -/
inductive Call where
  | enqueue (text : List Char)
  | enqueueLegacy (text : List Char)
  | tick (applyCmd : Nat → Bool)
  | resume
  | clear

namespace AutoTypeQueue

/-- The queue after a call. -/
def call (q : AutoTypeQueue) : Call → AutoTypeQueue
  | .enqueue text => (q.enqueue text).2
  | .enqueueLegacy text => q.enqueueLegacy text
  | .tick applyCmd => (q.tick applyCmd).2.1
  | .resume => q.resume
  | .clear => q.clear

/-- The queue after some calls. -/
def run (q : AutoTypeQueue) (calls : List Call) : AutoTypeQueue := calls.foldl call q

/-- What the ticks among some calls have done, one after the other. -/
def events (q : AutoTypeQueue) : List Call → List (Option Event)
  | [] => []
  | .tick applyCmd :: calls => (q.tick applyCmd).2.2 :: (q.tick applyCmd).2.1.events calls
  | .enqueue text :: calls => (q.call (.enqueue text)).events calls
  | .enqueueLegacy text :: calls => (q.call (.enqueueLegacy text)).events calls
  | .resume :: calls => (q.call .resume).events calls
  | .clear :: calls => (q.call .clear).events calls

/-- The action that the next tick takes off the queue. -/
def next (q : AutoTypeQueue) : Option AutoTypeAction :=
  if q.blocked || q.awaitingRelease || q.interCharPause || decide (0 < q.pauseCounter) then none
  else q.queue.head?

end AutoTypeQueue

/-- How many ticks there are among some calls. -/
def ticks : List Call → Nat
  | [] => 0
  | .tick _ :: calls => ticks calls + 1
  | .enqueue _ :: calls => ticks calls
  | .enqueueLegacy _ :: calls => ticks calls
  | .resume :: calls => ticks calls
  | .clear :: calls => ticks calls

/-- A call that does no harm: the queue is cleared neither before a key is up nor in the pause after, and a
    text asks for no pause that an `int` cannot hold. -/
def CallOk (q : AutoTypeQueue) : Call → Prop
  | .enqueue text => ∀ tags, parse 0 text = .ok tags → ∀ n, .pause n ∈ tags → n < 2 ^ 31
  | .clear => q.awaitingRelease = false ∧ q.interCharPause = false
  | _ => True

/-! ## The grammar of the ticks -/

/-- Where the typing of characters stands: nothing is down, a key is, or it has just been released. -/
inductive Phase where
  | free
  | down (key : Nat)
  | rest

/-- What a tick may do in a phase. -/
inductive Types : Phase → Option Event → Phase → Prop
  | press (key : Nat) : Types .free (some (.typed key true)) (.down key)
  | release (key : Nat) : Types (.down key) (some (.typed key false)) .rest
  | pause : Types .rest none .free
  | other {e : Option Event} (h : ∀ key pressed, e ≠ some (.typed key pressed)) : Types .free e .free

/-- What the ticks of a run may do. -/
inductive Typing : Phase → List (Option Event) → Phase → Prop
  | nil (p : Phase) : Typing p [] p
  | cons {p q r : Phase} {e : Option Event} {es : List (Option Event)} (h : Types p e q) (hs : Typing q es r) :
      Typing p (e :: es) r

/-- The `i`-th tick presses or releases the key of a character. -/
def TypedAt (es : List (Option Event)) (i key : Nat) (pressed : Bool) : Prop :=
  es[i]? = some (some (.typed key pressed))

namespace Typing

variable {p r : Phase} {es : List (Option Event)} {i key : Nat}

theorem next_of_down (h : Typing (.down key) es r) :
    TypedAt es 0 key false ∨ es = [] ∧ r = .down key := by
  cases h with
  | nil => exact Or.inr ⟨rfl, rfl⟩
  | cons hstep _ =>
    cases hstep
    exact Or.inl rfl

theorem next_of_press (h : Typing p es r) (hi : TypedAt es i key true) :
    TypedAt es (i + 1) key false ∨ i + 1 = es.length ∧ r = .down key := by
  induction h generalizing i with
  | nil => cases hi
  | cons hstep hrest ih =>
    cases i with
    | zero =>
      cases Option.some.inj (hi : some _ = some _)
      cases hstep with
      | press =>
        rcases hrest.next_of_down with hnext | ⟨rfl, hr⟩
        · exact Or.inl hnext
        · exact Or.inr ⟨rfl, hr⟩
      | other hother => exact absurd rfl (hother _ _)
    | succ i =>
      rcases ih hi with hnext | ⟨hlen, hr⟩
      · exact Or.inl hnext
      · exact Or.inr ⟨congrArg (· + 1) hlen, hr⟩

theorem prev_of_release (h : Typing p es r) (hi : TypedAt es i key false) :
    (∃ j, i = j + 1 ∧ TypedAt es j key true) ∨ i = 0 ∧ p = .down key := by
  induction h generalizing i with
  | nil => cases hi
  | cons hstep hrest ih =>
    cases i with
    | zero =>
      cases Option.some.inj (hi : some _ = some _)
      cases hstep with
      | release => exact Or.inr ⟨rfl, rfl⟩
      | other hother => exact absurd rfl (hother _ _)
    | succ i =>
      rcases ih hi with ⟨j, rfl, hj⟩ | ⟨rfl, rfl⟩
      · exact Or.inl ⟨j + 1, rfl, hj⟩
      · -- The phase after the first tick is that of a key that is down: it has just been pressed.
        cases hstep
        exact Or.inl ⟨0, rfl, rfl⟩

theorem next_of_release (h : Typing p es r) (hi : TypedAt es i key false) :
    es[i + 1]? = some none ∨ i + 1 = es.length := by
  induction h generalizing i with
  | nil => cases hi
  | cons hstep hrest ih =>
    cases i with
    | zero =>
      cases Option.some.inj (hi : some _ = some _)
      cases hstep with
      | release =>
        cases hrest with
        | nil => exact Or.inr rfl
        | cons hnext _ =>
          cases hnext
          exact Or.inl rfl
      | other hother => exact absurd rfl (hother _ _)
    | succ i =>
      rcases ih hi with hnext | hlen
      · exact Or.inl hnext
      · exact Or.inr (congrArg (· + 1) hlen)

end Typing

/-- The ticks of a run leave no key down: of the actions of characters, by the time the queue is `idle`
    each press has its release, and presses and releases alternate with a tick between a release and the
    next press. -/
structure NeverStuck (es : List (Option Event)) (idle : Bool) : Prop where
  released : idle = true → ∀ i key, TypedAt es i key true →
    ∃ j, i < j ∧ TypedAt es j key false
  /-- Between two presses the key of the first goes up. -/
  presses : ∀ i j key key', i < j → TypedAt es i key true →
    TypedAt es j key' true → ∃ m, i < m ∧ m < j ∧ TypedAt es m key false
  /-- A release comes after the press of its key, and between the two there is nothing else. -/
  releases : ∀ j key, TypedAt es j key false →
    ∃ i, i < j ∧ TypedAt es i key true ∧
      ∀ m key' pressed, i < m → m < j → ¬ TypedAt es m key' pressed
  spaced : ∀ i j key key', i < j → TypedAt es i key false →
    TypedAt es j key' true → i + 1 < j

theorem Typing.neverStuck {es : List (Option Event)} {r : Phase} {idle : Bool} (h : Typing .free es r)
    (hr : idle = true → ∀ key, r ≠ .down key) : NeverStuck es idle where
  released hidle i key hi := by
    rcases h.next_of_press hi with hnext | ⟨-, hdown⟩
    · exact ⟨i + 1, Nat.lt_succ_self i, hnext⟩
    · exact absurd hdown (hr hidle key)
  presses i j key key' hij hi hj := by
    have hjlen : j < es.length := (List.getElem?_eq_some_iff.1 hj).1
    rcases h.next_of_press hi with hnext | ⟨hlen, -⟩
    · refine ⟨i + 1, Nat.lt_succ_self i, ?_, hnext⟩
      refine Nat.lt_of_le_of_ne hij fun heq => ?_
      exact absurd (hj.symm.trans (heq ▸ hnext)) (by intro hne; cases hne)
    · omega
  releases j key hj := by
    rcases h.prev_of_release hj with ⟨i, rfl, hi⟩ | ⟨-, hfree⟩
    · exact ⟨i, Nat.lt_succ_self i, hi, fun m _ _ him hmj => by omega⟩
    · cases hfree
  spaced i j key key' hij hi hj := by
    have hjlen : j < es.length := (List.getElem?_eq_some_iff.1 hj).1
    rcases h.next_of_release hi with hnext | hlen
    · refine Nat.lt_of_le_of_ne hij fun heq => ?_
      exact absurd (hj.symm.trans (heq ▸ hnext)) (by intro hne; cases hne)
    · omega

/-! ## The queue follows the grammar -/

/-- The queue's own account of the phase. The pause after a release by hand is no phase of its own. -/
def Phase.Holds : Phase → AutoTypeQueue → Prop
  | .free, q => q.awaitingRelease = false
  | .down key, q => q.awaitingRelease = true ∧ q.pendingReleaseKey = key
  | .rest, q => q.awaitingRelease = false ∧ q.interCharPause = true

theorem Phase.Holds.append {p : Phase} {q : AutoTypeQueue} (h : p.Holds q) (actions : List AutoTypeAction) :
    p.Holds { q with queue := q.queue ++ actions } := by
  cases p with
  | free => exact h
  | down key => exact h
  | rest => exact h

namespace AutoTypeQueue

/-- At most one thing holds the queue up, and the pause counter is a number of frames. -/
structure OneHold (q : AutoTypeQueue) : Prop where
  awaiting : q.awaitingRelease = true → q.blocked = false ∧ q.interCharPause = false ∧ q.pauseCounter ≤ 0
  inter : q.interCharPause = true → q.blocked = false ∧ q.pauseCounter ≤ 0
  paused : 0 < q.pauseCounter → q.blocked = false

theorem perform_typing (q : AutoTypeQueue) (action : AutoTypeAction) (applyCmd : Nat → Bool)
    (hq : q.awaitingRelease = false ∧ q.interCharPause = false ∧ q.blocked = false ∧ q.pauseCounter ≤ 0) :
    (q.perform action applyCmd).2.1.OneHold ∧
      ∃ p, Types .free (q.perform action applyCmd).2.2 p ∧ p.Holds (q.perform action applyCmd).2.1 := by
  obtain ⟨hawait, hinter, hblocked, hpause⟩ := hq
  unfold perform
  -- With nothing pending, an action starts at most one of the three holds.
  cases action.type with
  | charPressRelease =>
    exact ⟨⟨fun _ => ⟨hblocked, hinter, hpause⟩, fun _ => ⟨hblocked, hpause⟩, fun _ => hblocked⟩,
      .down action.cpcKey, .press _, rfl, rfl⟩
  | keyPress =>
    exact ⟨⟨fun _ => ⟨hblocked, hinter, hpause⟩, fun _ => ⟨hblocked, hpause⟩, fun _ => hblocked⟩,
      .free, .other (by intro _ _ he; cases he), hawait⟩
  | keyRelease =>
    refine ⟨⟨fun h => ?_, fun _ => ⟨hblocked, hpause⟩, fun _ => hblocked⟩,
      .free, .other (by intro _ _ he; cases he), hawait⟩
    exact absurd h (by rw [hawait]; exact Bool.false_ne_true)
  | pause =>
    refine ⟨⟨fun h => ?_, fun h => ?_, fun _ => hblocked⟩, .free, .other (by intro _ _ he; cases he), hawait⟩
    · exact absurd h (by rw [hawait]; exact Bool.false_ne_true)
    · exact absurd h (by rw [hinter]; exact Bool.false_ne_true)
  | command =>
    cases hcmd : applyCmd action.cpcKey with
    | true =>
      -- A command that blocks leaves no pause and no release behind it.
      refine ⟨⟨fun h => ?_, fun h => ?_, fun h => ?_⟩, .free, .other (by intro _ _ he; cases he), hawait⟩
      · exact absurd h (by rw [if_pos rfl]; exact hawait ▸ Bool.false_ne_true)
      · exact absurd h (by rw [if_pos rfl]; exact hinter ▸ Bool.false_ne_true)
      · exact absurd h (Int.not_lt.2 hpause)
    | false =>
      exact ⟨⟨fun _ => ⟨hblocked, hinter, hpause⟩, fun _ => ⟨hblocked, hpause⟩, fun _ => hblocked⟩,
        .free, .other (by intro _ _ he; cases he), hawait⟩

theorem tick_typing {q : AutoTypeQueue} {p : Phase} (hone : q.OneHold) (hp : p.Holds q) (applyCmd : Nat → Bool) :
    (q.tick applyCmd).2.1.OneHold ∧
      ∃ p', Types p (q.tick applyCmd).2.2 p' ∧ p'.Holds (q.tick applyCmd).2.1 := by
  unfold tick
  -- The holds are tried in the order of `tick`; each of them excludes the phases it cannot come in.
  by_cases hblocked : q.blocked = true
  · rw [if_pos hblocked]
    refine ⟨hone, ?_⟩
    cases p with
    | free => exact ⟨.free, .other (by intro _ _ he; cases he), hp⟩
    | down key => exact absurd hblocked (by rw [(hone.awaiting hp.1).1]; exact Bool.false_ne_true)
    | rest => exact absurd hblocked (by rw [(hone.inter hp.2).1]; exact Bool.false_ne_true)
  rw [if_neg hblocked]
  by_cases hawait : q.awaitingRelease = true
  · rw [if_pos hawait]
    obtain ⟨hb, -, hc⟩ := hone.awaiting hawait
    refine ⟨⟨fun h => absurd h Bool.false_ne_true, fun _ => ⟨hb, hc⟩, fun _ => hb⟩, ?_⟩
    cases p with
    | free => exact absurd hawait (by rw [show q.awaitingRelease = false from hp]; exact Bool.false_ne_true)
    | down key =>
      refine ⟨.rest, ?_, rfl, rfl⟩
      rw [hp.2]
      exact .release key
    | rest => exact absurd hawait (by rw [hp.1]; exact Bool.false_ne_true)
  rw [if_neg hawait]
  have hup : q.awaitingRelease = false := Bool.eq_false_iff.2 hawait
  by_cases hinter : q.interCharPause = true
  · rw [if_pos hinter]
    obtain ⟨hb, hc⟩ := hone.inter hinter
    refine ⟨⟨fun _ => ⟨hb, rfl, hc⟩, fun h => absurd h Bool.false_ne_true, fun _ => hb⟩, .free, ?_, hup⟩
    cases p with
    | free => exact .other (by intro _ _ he; cases he)
    | down key => exact absurd hp.1 hawait
    | rest => exact .pause
  rw [if_neg hinter]
  -- Without a hold no key is down, and the next action is taken.
  have hfree : p.Holds q → p = .free := by
    intro h
    cases p with
    | free => rfl
    | down key => exact absurd h.1 hawait
    | rest => exact absurd h.2 hinter
  obtain rfl := hfree hp
  by_cases hpause : 0 < q.pauseCounter
  · rw [if_pos hpause]
    refine ⟨⟨fun h => absurd h hawait, fun h => absurd h hinter, fun _ => hone.paused hpause⟩, .free, ?_, hup⟩
    exact .other (by intro _ _ he; cases he)
  rw [if_neg hpause]
  cases hqueue : q.queue with
  | nil => exact ⟨hone, .free, .other (by intro _ _ he; cases he), hup⟩
  | cons action rest =>
    refine perform_typing { q with queue := rest } action applyCmd ?_
    exact ⟨hup, Bool.eq_false_iff.2 hinter, Bool.eq_false_iff.2 hblocked, Int.not_lt.1 hpause⟩

theorem OneHold.append {q : AutoTypeQueue} (h : q.OneHold) (actions : List AutoTypeAction) :
    { q with queue := q.queue ++ actions }.OneHold := ⟨h.awaiting, h.inter, h.paused⟩

theorem call_enqueue (q : AutoTypeQueue) (text : List Char) :
    ∃ actions, q.call (.enqueue text) = { q with queue := q.queue ++ actions } := by
  rw [call, enqueue]
  cases parse 0 text with
  | error e => exact ⟨[], by rw [List.append_nil]⟩
  | ok tags => exact ⟨tags.map Tag.action, rfl⟩

theorem run_typing {q : AutoTypeQueue} {p : Phase} {calls : List Call} (hok : AllOk call CallOk q calls)
    (hone : q.OneHold) (hp : p.Holds q) : ∃ p', Typing p (q.events calls) p' ∧ p'.Holds (q.run calls) := by
  induction calls generalizing q p with
  | nil => exact ⟨p, .nil p, hp⟩
  | cons c calls ih =>
    cases c with
    | tick applyCmd =>
      obtain ⟨hone', p', htypes, hp'⟩ := tick_typing hone hp applyCmd
      obtain ⟨r, hrest, hr⟩ := ih hok.2 hone' hp'
      exact ⟨r, .cons htypes hrest, hr⟩
    | enqueue text =>
      obtain ⟨actions, hqueue⟩ := q.call_enqueue text
      refine ih hok.2 ?_ ?_
      · rw [hqueue]
        exact hone.append actions
      · rw [hqueue]
        exact hp.append actions
    | enqueueLegacy text => exact ih hok.2 (hone.append _) (hp.append _)
    | resume =>
      refine ih hok.2 ⟨fun h => ⟨rfl, (hone.awaiting h).2⟩, fun h => ⟨rfl, (hone.inter h).2⟩, fun _ => rfl⟩ ?_
      cases p <;> exact hp
    | clear =>
      -- The queue is cleared with nothing down: a fresh queue is in no other phase.
      refine ih hok.2 ⟨fun h => absurd h Bool.false_ne_true, fun h => absurd h Bool.false_ne_true,
        fun _ => rfl⟩ ?_
      cases p with
      | free => rfl
      | down key => exact absurd hp.1 (by rw [hok.1.1]; exact Bool.false_ne_true)
      | rest => exact absurd hp.2 (by rw [hok.1.2]; exact Bool.false_ne_true)

/-! ## Pauses -/

/-- A pause is running, with `left` more ticks to wait. -/
structure Paused (q : AutoTypeQueue) (left : Int) : Prop where
  blocked : q.blocked = false
  awaiting : q.awaitingRelease = false
  inter : q.interCharPause = false
  counter : q.pauseCounter = left

theorem Paused.next {q : AutoTypeQueue} {left : Int} (h : q.Paused left) :
    q.next = if 0 < left then none else q.queue.head? := by
  rw [AutoTypeQueue.next, h.blocked, h.awaiting, h.inter, h.counter]
  by_cases hleft : 0 < left
  · rw [if_pos hleft, decide_eq_true hleft]
    rfl
  · rw [if_neg hleft, decide_eq_false hleft]
    rfl

theorem Paused.run {q : AutoTypeQueue} {left : Int} (h : q.Paused left) {calls : List Call}
    (hclear : .clear ∉ calls) (hticks : (ticks calls : Int) ≤ left) : (q.run calls).Paused (left - ticks calls) := by
  induction calls generalizing q left with
  | nil => rwa [show left - (ticks [] : Int) = left from Int.sub_zero left]
  | cons c calls ih =>
    have hrest : .clear ∉ calls := fun hmem => hclear (List.mem_cons_of_mem c hmem)
    cases c with
    | tick applyCmd =>
      have hcount : ticks (.tick applyCmd :: calls) = ticks calls + 1 := rfl
      rw [hcount] at hticks ⊢
      have hleft : 0 < q.pauseCounter := by
        rw [h.counter]
        omega
      -- A tick in the pause only counts it down.
      have htick : (q.tick applyCmd).2.1 = { q with pauseCounter := q.pauseCounter - 1 } := by
        rw [tick, h.blocked, h.awaiting, h.inter, if_pos hleft]
        rfl
      have hnext : (q.tick applyCmd).2.1.Paused (left - 1) := by
        rw [htick]
        exact ⟨h.blocked, h.awaiting, h.inter, congrArg (· - 1) h.counter⟩
      have hrun := ih hnext hrest (by omega)
      rwa [show left - ((ticks calls + 1 : Nat) : Int) = left - 1 - ticks calls by omega]
    | enqueue text =>
      obtain ⟨actions, hqueue⟩ := q.call_enqueue text
      refine ih ?_ hrest hticks
      rw [hqueue]
      exact ⟨h.blocked, h.awaiting, h.inter, h.counter⟩
    | enqueueLegacy text => exact ih ⟨h.blocked, h.awaiting, h.inter, h.counter⟩ hrest hticks
    | resume => exact ih ⟨rfl, h.awaiting, h.inter, h.counter⟩ hrest hticks
    | clear => exact absurd List.mem_cons_self hclear

theorem paused_of_next {q : AutoTypeQueue} {action : AutoTypeAction} (h : q.next = some action)
    (hpause : action.type = .pause) (applyCmd : Nat → Bool) :
    (q.tick applyCmd).2.1.Paused (action.pauseFrames - 1) := by
  unfold next at h
  split at h
  · cases h
  · next hfree =>
    rw [Bool.or_eq_true, Bool.or_eq_true, Bool.or_eq_true, not_or, not_or, not_or, decide_eq_true_eq] at hfree
    obtain ⟨⟨⟨hblocked, hawait⟩, hinter⟩, hcounter⟩ := hfree
    cases hqueue : q.queue with
    | nil => rw [hqueue] at h; cases h
    | cons first rest =>
      rw [hqueue] at h
      obtain rfl : first = action := Option.some.inj h
      rw [tick, if_neg hblocked, if_neg hawait, if_neg hinter, if_neg hcounter, hqueue]
      simp only [perform, hpause]
      exact ⟨Bool.eq_false_iff.2 hblocked, Bool.eq_false_iff.2 hawait, Bool.eq_false_iff.2 hinter, rfl⟩

end AutoTypeQueue

theorem readTag_pause {i : Nat} {tag : List Char} {n : Int} (h : readTag i tag = .ok (.pause n)) : 1 ≤ n := by
  unfold readTag at h
  split_ifs at h with hempty hpause hhold
  · split at h
    · next frames _ =>
      split_ifs at h with hlt
      cases h
      exact Int.not_lt.1 hlt
    · cases h
  · split at h <;> cases h
  · split at h <;> cases h

theorem Reads.pause_pos {text : List Char} {tags : List Tag} (h : Reads text tags) {n : Int} (hn : .pause n ∈ tags) :
    1 ≤ n := by
  induction h with
  | nil => cases hn
  | pair _ ih => exact ih hn
  | tag _ _ ht _ ih =>
    rcases List.mem_cons.1 hn with rfl | hn
    · exact readTag_pause ht
    · exact ih hn
  | skip _ _ _ ih => exact ih hn
  | key _ _ _ ih =>
    rcases List.mem_cons.1 hn with heq | hn
    · cases heq
    · exact ih hn

theorem castInt_of_fits {n : Int} (hlo : 0 ≤ n) (hhi : n < 2 ^ 31) : castInt n = n := by
  unfold castInt
  rw [Int.bmod_def]
  omega

theorem pause_of_allOk {calls : List Call} {q : AutoTypeQueue} (hok : AllOk AutoTypeQueue.call CallOk q calls)
    {text : List Char} {tags : List Tag} {n : Int} (hmem : .enqueue text ∈ calls) (hparse : parse 0 text = .ok tags)
    (hn : .pause n ∈ tags) : n < 2 ^ 31 := by
  induction calls generalizing q with
  | nil => cases hmem
  | cons c calls ih =>
    rcases List.mem_cons.1 hmem with rfl | hmem
    · exact hok.1 tags hparse n hn
    · exact ih hok.2 hmem

/-! ## The queue as a whole -/

/-- Let a run clear the queue neither while a character's key is down nor in the pause after its release,
    and ask for no pause of `2 ^ 31` frames or more. Then each press has its release by the time the queue
    is idle, and presses and releases alternate with a tick between a release and the next press. And
    where a pause is taken off the queue, no action is until as many ticks have passed as were asked for,
    and then the next one is, unless the queue is cleared before. -/
theorem never_stuck (calls : List Call) (hok : AllOk AutoTypeQueue.call CallOk {} calls) :
    NeverStuck (AutoTypeQueue.events {} calls) (!(AutoTypeQueue.run {} calls).isActive) ∧
    (∀ before applyCmd rest action, calls = before ++ .tick applyCmd :: rest → .clear ∉ rest →
      (AutoTypeQueue.run {} before).next = some action → action.type = .pause →
        ((ticks rest + 1 : Int) < action.pauseFrames → (AutoTypeQueue.run {} calls).next = none) ∧
        ((ticks rest + 1 : Int) = action.pauseFrames →
          (AutoTypeQueue.run {} calls).next = (AutoTypeQueue.run {} calls).queue.head?)) ∧
    ∀ text tags n, .enqueue text ∈ calls → parse 0 text = .ok tags → .pause n ∈ tags →
      (Tag.pause n).action.pauseFrames = n := by
  refine ⟨?_, ?_, ?_⟩
  · have hone : AutoTypeQueue.OneHold {} :=
      ⟨fun h => absurd h Bool.false_ne_true, fun h => absurd h Bool.false_ne_true, fun _ => rfl⟩
    obtain ⟨p, htyping, hp⟩ := AutoTypeQueue.run_typing hok hone (p := .free) rfl
    refine htyping.neverStuck fun hidle key hdown => ?_
    -- A key that is down keeps the queue active.
    rw [hdown] at hp
    rw [AutoTypeQueue.isActive, hp.1, Bool.or_true] at hidle
    cases hidle
  · intro before applyCmd rest action hcalls hclear hnext hpause
    have hrun : AutoTypeQueue.run {} calls = (((AutoTypeQueue.run {} before).tick applyCmd).2.1).run rest := by
      rw [hcalls, AutoTypeQueue.run, List.foldl_append]
      rfl
    have hpaused := AutoTypeQueue.paused_of_next hnext hpause applyCmd
    constructor
    · intro hlt
      have hleft := hpaused.run hclear (by omega)
      rw [hrun, hleft.next, if_pos (by omega)]
    · intro heq
      have hleft := hpaused.run hclear (by omega)
      rw [hrun, hleft.next, if_neg (by omega)]
  · intro text tags n hmem hparse hn
    exact castInt_of_fits (Int.le_of_lt ((reads_of_parse hparse).pause_pos hn))
      (pause_of_allOk hok hmem hparse hn)

/-- A character, a pause and another character. -/
theorem never_stuck_typing :
    let calls : List Call :=
      [.enqueue "A~PAUSE 2~B".toList, .tick fun _ => false, .tick fun _ => false, .tick fun _ => false,
        .tick fun _ => false, .tick fun _ => false, .tick fun _ => false]
    AllOk AutoTypeQueue.call CallOk {} calls ∧ (AutoTypeQueue.run {} calls).isActive = true ∧
      NeverStuck (AutoTypeQueue.events {} calls) (!(AutoTypeQueue.run {} calls).isActive) := by
  intro calls
  have hparse : parse 0 "A~PAUSE 2~B".toList = .ok [.type .A, .pause 2, .type .B] := by with_unfolding_all decide
  have hok : AllOk AutoTypeQueue.call CallOk {} calls := by
    refine ⟨fun tags htags n hn => ?_, trivial, trivial, trivial, trivial, trivial, trivial, trivial⟩
    rw [hparse] at htags
    cases htags
    rcases List.mem_cons.1 hn with heq | hn
    · cases heq
    · rcases List.mem_cons.1 hn with heq | hn
      · cases heq
        decide
      · cases List.mem_singleton.1 hn
  exact ⟨hok, by with_unfolding_all decide, (never_stuck calls hok).1⟩

/-- The queue is cleared while a key is down: the key stays down and the queue is idle. -/
theorem clear_leaves_key_down :
    ¬ NeverStuck (AutoTypeQueue.events {} [.enqueue "A".toList, .tick fun _ => false, .clear])
      (!(AutoTypeQueue.run {} [.enqueue "A".toList, .tick fun _ => false, .clear]).isActive) := by
  have hevents : AutoTypeQueue.events {} [.enqueue "A".toList, .tick fun _ => false, .clear] =
      [some (.typed 10 true)] := by with_unfolding_all decide
  intro h
  obtain ⟨j, hj, hup⟩ := h.released rfl 0 10 (by rw [TypedAt, hevents]; rfl)
  rw [TypedAt, hevents] at hup
  have hlen : j < 1 := (List.getElem?_eq_some_iff.1 hup).1
  omega

end Koncepcja.Input
