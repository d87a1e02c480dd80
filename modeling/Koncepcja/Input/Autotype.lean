import Koncepcja.Input.Keys
import Mathlib.Algebra.Group.Int.Defs
import Mathlib.Algebra.GroupWithZero.Nat

/-!
# The Auto-Type Queue

`src/autotype.cpp`: text with key names between tildes becomes a queue of actions, and every tick of the
keyboard takes the next step of it.

Of a `long` and an `int` the least and the greatest value are those of 64 and of 32 bits. The mutex
makes each call one step.

## Main definitions

- `parse`, `enqueue`, `enqueueLegacy`: text to actions.
- `tick`, `resume`, `clear`: the queue.

## Main results

- `tick_cases`: what a tick does.
-/

namespace Koncepcja.Input

/-! ## Actions -/

/-- `AutoTypeAction::Type`. -/
inductive ActionType where
  | charPressRelease | keyPress | keyRelease | pause | command
  deriving DecidableEq, Repr

structure AutoTypeAction where
  type : ActionType
  cpcKey : Nat
  pauseFrames : Int := 0
  deriving DecidableEq, Repr

def modEmuKey : Nat := 0x1000

/-- A `long` as an `int`. -/
def castInt (n : Int) : Int := n.bmod (2 ^ 32)

/-- What a piece of text asks for. -/
inductive Tag where
  | type (key : CpcKeys)
  | hold (key : CpcKeys) (press : Bool)
  | pause (frames : Int)
  deriving DecidableEq

/-- The action of a piece of text. -/
def Tag.action : Tag → AutoTypeAction
  | .type key => { type := .charPressRelease, cpcKey := key.code }
  | .hold key press => { type := if press then .keyPress else .keyRelease, cpcKey := key.code }
  | .pause frames => { type := .pause, cpcKey := 0, pauseFrames := castInt frames }

/-! ## Reading a text -/

def isSpace (c : Char) : Bool := c == ' ' || (9 ≤ c.toNat && c.toNat ≤ 13)

/-- The digits at the front, as a number. -/
def readDigits : Nat → List Char → Nat × List Char
  | n, [] => (n, [])
  | n, c :: text => if '0' ≤ c ∧ c ≤ '9' then readDigits (10 * n + (c.toNat - 48)) text else (n, c :: text)

/-- `strtol` in base 10: the number and what follows it, or nothing where there is no number. -/
def strtol (text : List Char) : Option (Int × List Char) :=
  let text := (text.takeWhile (· != '\x00')).dropWhile isSpace
  let negative := text.head? == some '-'
  let text := if negative || text.head? == some '+' then text.tail else text
  let (n, rest) := readDigits 0 text
  if rest.length = text.length then none
  else some (if negative then max (-(n : Int)) (-2 ^ 63) else min (n : Int) (2 ^ 63 - 1), rest)

/-- `text.find('~')`: what stands before the tilde and what after it. -/
def splitTilde : List Char → Option (List Char × List Char)
  | [] => none
  | c :: text => if c = '~' then some ([], text) else (splitTilde text).map fun (tag, rest) => (c :: tag, rest)

/-- What stands between two tildes. -/
def readTag (i : Nat) (tag : List Char) : Except String Tag :=
  if tag.isEmpty then .error ("empty ~~ tag at position " ++ toString i)
  else if 6 < tag.length ∧ tag.take 6 = "PAUSE ".toList then
    match strtol (tag.drop 6) with
    | some (frames, []) =>
      if frames < 1 then .error ("bad PAUSE value: " ++ String.ofList tag) else .ok (.pause frames)
    | _ => .error ("bad PAUSE value: " ++ String.ofList tag)
  else if 2 ≤ tag.length ∧ (tag.head? = some '+' ∨ tag.head? = some '-') then
    match resolveKeyName tag.tail with
    | some key => .ok (.hold key (tag.head? == some '+'))
    | none => .error ("unknown key: " ++ String.ofList tag.tail)
  else
    match resolveKeyName tag with
    | some key => .ok (.type key)
    | none => .error ("unknown key: " ++ String.ofList tag)

theorem splitTilde_length {text tag rest : List Char} (h : splitTilde text = some (tag, rest)) :
    rest.length < text.length := by
  induction text generalizing tag with
  | nil => cases h
  | cons c text ih =>
    rw [splitTilde] at h
    split at h
    · cases h
      exact Nat.lt_succ_self _
    · cases hsplit : splitTilde text with
      | none => rw [hsplit] at h; cases h
      | some p =>
        rw [hsplit] at h
        cases h
        exact Nat.lt_succ_of_lt (ih hsplit)

/-- The text from position `i` on. -/
def parse (i : Nat) (text : List Char) : Except String (List Tag) :=
  match text with
  | [] => .ok []
  | c :: text =>
    if c = '~' then
      if text.head? = some '~' then parse (i + 2) text.tail
      else
        match h : splitTilde text with
        | none => .error ("unclosed ~ at position " ++ toString i)
        | some (tag, rest) => do
          let t ← readTag i tag
          let ts ← parse (i + tag.length + 2) rest
          return t :: ts
    else
      match charKey c with
      | none => parse (i + 1) text
      | some key => do
        let ts ← parse (i + 1) text
        return .type key :: ts
termination_by text.length
decreasing_by
  · exact Nat.lt_succ_of_le (List.length_tail ▸ Nat.sub_le _ _)
  · exact Nat.lt_succ_of_lt (splitTilde_length h)
  · exact Nat.lt_succ_self _
  · exact Nat.lt_succ_self _

/-- The texts that are read, and what each asks for. -/
inductive Reads : List Char → List Tag → Prop
  | nil : Reads [] []
  | pair {text : List Char} {tags : List Tag} (h : Reads text tags) : Reads ('~' :: '~' :: text) tags
  | tag {i : Nat} {text tag rest : List Char} {t : Tag} {tags : List Tag} (hhead : text.head? ≠ some '~')
      (hsplit : splitTilde text = some (tag, rest)) (ht : readTag i tag = .ok t) (h : Reads rest tags) :
      Reads ('~' :: text) (t :: tags)
  | skip {c : Char} {text : List Char} {tags : List Tag} (hc : c ≠ '~') (hkey : charKey c = none)
      (h : Reads text tags) : Reads (c :: text) tags
  | key {c : Char} {text : List Char} {key : CpcKeys} {tags : List Tag} (hc : c ≠ '~') (hkey : charKey c = some key)
      (h : Reads text tags) : Reads (c :: text) (.type key :: tags)

theorem bind_ok {ε α β : Type} {x : Except ε α} {f : α → Except ε β} {b : β} (h : x.bind f = .ok b) :
    ∃ a, x = .ok a ∧ f a = .ok b := by
  cases x with
  | error e => cases h
  | ok a => exact ⟨a, rfl, h⟩

theorem reads_of_parse {i : Nat} {text : List Char} {tags : List Tag} (h : parse i text = .ok tags) :
    Reads text tags := by
  -- The cases of `parse`: the end, a doubled tilde, a tag that ends or does not, and a character with or without a key.
  induction i, text using parse.induct generalizing tags with
  | case1 i =>
    rw [parse] at h
    cases h
    exact .nil
  | case2 i text htilde ih =>
    rw [parse, if_pos rfl, if_pos htilde] at h
    obtain ⟨rest, rfl⟩ : ∃ rest, text = '~' :: rest := by
      cases text with
      | nil => cases htilde
      | cons c rest => exact ⟨rest, congrArg (· :: rest) (Option.some.inj htilde)⟩
    exact .pair (ih h)
  | case3 i text htilde hsplit =>
    rw [parse, if_pos rfl, if_neg htilde] at h
    split at h
    · cases h
    · next hsome => rw [hsplit] at hsome; cases hsome
  | case4 i text htilde tag rest hsplit ih =>
    rw [parse, if_pos rfl, if_neg htilde] at h
    split at h
    · cases h
    · next tag' rest' hsplit' =>
      obtain ⟨rfl, rfl⟩ : tag = tag' ∧ rest = rest' := by
        rw [hsplit] at hsplit'
        cases hsplit'
        exact ⟨rfl, rfl⟩
      obtain ⟨t, ht, h⟩ := bind_ok h
      obtain ⟨ts, hts, h⟩ := bind_ok h
      cases h
      exact .tag htilde hsplit ht (ih hts)
  | case5 i c text hc hkey ih =>
    rw [parse, if_neg hc] at h
    simp only [hkey] at h
    exact .skip hc hkey (ih h)
  | case6 i c text hc key hkey ih =>
    rw [parse, if_neg hc] at h
    simp only [hkey] at h
    obtain ⟨ts, hts, h⟩ := bind_ok h
    cases h
    exact .key hc hkey (ih hts)

/-- The text of the older encoding: a bell before a key code, a form feed before a command. -/
def decodeLegacy (escaped command : Bool) : List Char → List AutoTypeAction
  | [] => []
  | c :: text =>
    if c = '\x07' then decodeLegacy true command text
    else if c = '\x0c' then decodeLegacy escaped true text
    else if command then
      { type := .command, cpcKey := c.toNat % 256 ||| modEmuKey } :: decodeLegacy false false text
    else if escaped then { type := .charPressRelease, cpcKey := c.toNat % 256 } :: decodeLegacy false false text
    else
      match charKey c with
      | none => decodeLegacy escaped command text
      | some key => { type := .charPressRelease, cpcKey := key.code } :: decodeLegacy false false text

/-! ## The queue -/

structure AutoTypeQueue where
  queue : List AutoTypeAction := []
  pauseCounter : Int := 0
  awaitingRelease : Bool := false
  pendingReleaseKey : Nat := 0
  interCharPause : Bool := false
  blocked : Bool := false
  deriving DecidableEq, Repr

/-- What a tick has done: a key for an action of a character, a key by itself, or a command. -/
inductive Event where
  | typed (key : Nat) (pressed : Bool)
  | held (key : Nat) (pressed : Bool)
  | command (cmd : Nat)
  deriving DecidableEq, Repr

namespace AutoTypeQueue

/-- `enqueue`, with the text of its error. -/
def enqueue (q : AutoTypeQueue) (text : List Char) : String × AutoTypeQueue :=
  match parse 0 text with
  | .error e => (e, q)
  | .ok tags => ("", { q with queue := q.queue ++ tags.map Tag.action })

def enqueueLegacy (q : AutoTypeQueue) (text : List Char) : AutoTypeQueue :=
  { q with queue := q.queue ++ decodeLegacy false false text }

/-- The action that is taken off the queue, once it is. -/
def perform (q : AutoTypeQueue) (action : AutoTypeAction) (applyCmd : Nat → Bool) :
    Bool × AutoTypeQueue × Option Event :=
  match action.type with
  | .charPressRelease =>
    (true, { q with awaitingRelease := true, pendingReleaseKey := action.cpcKey }, some (.typed action.cpcKey true))
  | .keyPress => (!q.queue.isEmpty || q.awaitingRelease, q, some (.held action.cpcKey true))
  | .keyRelease => (true, { q with interCharPause := true }, some (.held action.cpcKey false))
  -- The tick itself is the first frame; the least `int` has no predecessor in the source.
  | .pause => (true, { q with pauseCounter := action.pauseFrames - 1 }, none)
  | .command =>
    (true, if applyCmd action.cpcKey then { q with blocked := true } else q, some (.command action.cpcKey))

/-- `tick`: whether there is more to do, the queue and what was done. Where no callback for commands is
    given it answers no. -/
def tick (q : AutoTypeQueue) (applyCmd : Nat → Bool) : Bool × AutoTypeQueue × Option Event :=
  if q.blocked then (true, q, none)
  else if q.awaitingRelease then
    (true, { q with awaitingRelease := false, pendingReleaseKey := 0, interCharPause := true },
      some (.typed q.pendingReleaseKey false))
  else if q.interCharPause then (!q.queue.isEmpty, { q with interCharPause := false }, none)
  else if 0 < q.pauseCounter then (true, { q with pauseCounter := q.pauseCounter - 1 }, none)
  else
    match q.queue with
    | [] => (false, q, none)
    | action :: rest => { q with queue := rest }.perform action applyCmd

def resume (q : AutoTypeQueue) : AutoTypeQueue := { q with blocked := false }

def isActive (q : AutoTypeQueue) : Bool :=
  !q.queue.isEmpty || q.awaitingRelease || decide (0 < q.pauseCounter) || q.interCharPause || q.blocked

def clear (_ : AutoTypeQueue) : AutoTypeQueue := {}

end AutoTypeQueue

end Koncepcja.Input
