import Koncepcja.Input.Autotype
import Mathlib.Data.UInt

/-!
# Telnet Input

`src/telnet_console.cpp`, `drain_input`: the bytes that came in since the last frame become a text of the
auto-type queue, with key names between tildes for what is no character.

A chunk is read unit by unit: an escape sequence, a line end or a single byte.

## Main definitions

- `units`, `convert`: the loop over a chunk, and the text it makes.
- `drainInput`: one call.
- `streamKeys`: what each unit is to type.

## Main results

- `parse_text`: a text without a tilde of its own is read back unit by unit.
- `telnet_input_exact`: chunks without a tilde that are cut between units type the keys of the stream.
-/

namespace Koncepcja.Input

/-! ## A chunk -/

/-- What the loop finds next: a named key, a line end, a printable byte, or nothing. -/
inductive TelnetUnit
  | key (name : List Char)
  | newline
  | plain (ch : UInt8)
  | skip
  deriving DecidableEq, Repr

/-- The key of an escape sequence; one that is not known is a bare `ESC`. -/
def escapeKey (code : UInt8) : List Char :=
  if code = 0x41 then ['U', 'P']
  else if code = 0x42 then ['D', 'O', 'W', 'N']
  else if code = 0x43 then ['R', 'I', 'G', 'H', 'T']
  else if code = 0x44 then ['L', 'E', 'F', 'T']
  else ['E', 'S', 'C']

/-- An `ESC` and what may follow it. -/
def escapeUnit (buf : List UInt8) : TelnetUnit × List UInt8 :=
  match buf with
  | bracket :: code :: rest => if bracket = 0x5b then (.key (escapeKey code), rest) else (.key ['E', 'S', 'C'], buf)
  | _ => (.key ['E', 'S', 'C'], buf)

/-- Any other byte. -/
def byteUnit (ch : UInt8) : TelnetUnit :=
  if ch = 0x7f ∨ ch = 0x08 then .key ['D', 'E', 'L']
  else if ch = 0x09 then .key ['T', 'A', 'B']
  else if ch = 0x03 then .key ['E', 'S', 'C']
  else if ch = 0x0d then .newline
  else if ch = 0x0a then .newline
  else if 0x20 ≤ ch ∧ ch < 0x7f then .plain ch
  else .skip

/-- One turn of the loop, with what it leaves of the buffer: a line feed behind a return is skipped. -/
def readUnit (ch : UInt8) (buf : List UInt8) : TelnetUnit × List UInt8 :=
  if ch = 0x1b then escapeUnit buf
  else (byteUnit ch, if ch = 0x0d ∧ buf.head? = some 0x0a then buf.tail else buf)

theorem escapeUnit_length (buf : List UInt8) : (escapeUnit buf).2.length ≤ buf.length := by
  cases buf with
  | nil => exact Nat.le_refl _
  | cons bracket buf =>
    cases buf with
    | nil => exact Nat.le_refl _
    | cons code rest =>
      rw [escapeUnit]
      split
      · exact Nat.le_add_right _ 2
      · exact Nat.le_refl _

theorem readUnit_length (ch : UInt8) (buf : List UInt8) : (readUnit ch buf).2.length ≤ buf.length := by
  rw [readUnit]
  split
  · exact escapeUnit_length buf
  · dsimp only
    split
    · rw [List.length_tail]
      exact Nat.sub_le _ _
    · exact Nat.le_refl _

/-- The units of a chunk. -/
def units (buf : List UInt8) : List TelnetUnit :=
  match buf with
  | [] => []
  | ch :: buf => (readUnit ch buf).1 :: units (readUnit ch buf).2
termination_by buf.length
decreasing_by exact Nat.lt_succ_of_le (readUnit_length ch buf)

/-- The auto-type text of a unit. -/
def TelnetUnit.text : TelnetUnit → List Char
  | .key name => '~' :: (name ++ ['~'])
  | .newline => ['\n']
  | .plain ch => [Char.ofNat ch.toNat]
  | .skip => []

/-- `autotype_text` of a chunk. -/
def convert (buf : List UInt8) : List Char := (units buf).flatMap TelnetUnit.text

/-- `drain_input`, with what is pending; an error of the queue is not looked at. -/
def drainInput (q : AutoTypeQueue) (pending : List UInt8) : AutoTypeQueue :=
  if pending = [] then q
  else if convert pending = [] then q
  else (q.enqueue (convert pending)).2

/-! ## What is to be typed -/

/-- The keys of a unit: its own, or none. -/
def TelnetUnit.keys : TelnetUnit → List Tag
  | .key name => (resolveKeyName name).toList.map Tag.type
  | .newline => [.type .returnKey]
  | .plain ch => (charKey (Char.ofNat ch.toNat)).toList.map Tag.type
  | .skip => []

def streamKeys (buf : List UInt8) : List Tag := (units buf).flatMap TelnetUnit.keys

/-- The unit that begins here goes on behind the cut: an escape sequence, or a line end of two bytes. -/
def ReadsOn (ch : UInt8) (before behind : List UInt8) : Prop :=
  ch = 0x1b ∧ before = [] ∧ (∃ code rest, behind = 0x5b :: code :: rest) ∨
    ch = 0x1b ∧ before = [0x5b] ∧ behind ≠ [] ∨
    ch = 0x0d ∧ before = [] ∧ behind.head? = some 0x0a

/-- No unit of a chunk goes on in the bytes behind it. -/
def Closed (chunk behind : List UInt8) : Prop :=
  match chunk with
  | [] => True
  | ch :: chunk => ¬ReadsOn ch chunk behind ∧ Closed (readUnit ch chunk).2 behind
termination_by chunk.length
decreasing_by exact Nat.lt_succ_of_le (readUnit_length ch chunk)

/-- The chunks of a stream are cut between units. -/
def CutBetween : List (List UInt8) → Prop
  | [] => True
  | chunk :: chunks => Closed chunk chunks.flatten ∧ CutBetween chunks

/-! ## Cuts -/

theorem escapeUnit_append {before behind : List UInt8}
    (hbare : before = [] → ∀ code rest, behind ≠ 0x5b :: code :: rest) (hopen : before = [0x5b] → behind = []) :
    escapeUnit (before ++ behind) = ((escapeUnit before).1, (escapeUnit before).2 ++ behind) := by
  -- What has come of the escape sequence decides alone, unless it stops right at the bracket.
  cases before with
  | nil =>
    cases behind with
    | nil => rfl
    | cons bracket behind =>
      cases behind with
      | nil => rfl
      | cons code rest =>
        have hother : bracket ≠ 0x5b := fun heq => hbare rfl code rest (by rw [heq])
        exact if_neg hother
  | cons bracket before =>
    cases before with
    | nil =>
      cases behind with
      | nil => rfl
      | cons code rest =>
        have hother : bracket ≠ 0x5b := fun heq => List.cons_ne_nil code rest (hopen (by rw [heq]))
        exact if_neg hother
    | cons code rest =>
      by_cases hbracket : bracket = 0x5b
      · rw [List.cons_append, List.cons_append, escapeUnit, escapeUnit, if_pos hbracket, if_pos hbracket]
      · rw [List.cons_append, List.cons_append, escapeUnit, escapeUnit, if_neg hbracket, if_neg hbracket]
        rfl

theorem readUnit_append {ch : UInt8} {before behind : List UInt8} (h : ¬ReadsOn ch before behind) :
    readUnit ch (before ++ behind) = ((readUnit ch before).1, (readUnit ch before).2 ++ behind) := by
  by_cases hesc : ch = 0x1b
  · rw [readUnit, readUnit, if_pos hesc, if_pos hesc]
    refine escapeUnit_append (fun hnil code rest heq => ?_) (fun hone => ?_)
    · exact h (.inl ⟨hesc, hnil, code, rest, heq⟩)
    · by_contra hne
      exact h (.inr (.inl ⟨hesc, hone, hne⟩))
  · rw [readUnit, readUnit, if_neg hesc, if_neg hesc]
    cases before with
    | nil =>
      have hplain : ¬(ch = 0x0d ∧ behind.head? = some 0x0a) := fun hcr => h (.inr (.inr ⟨hcr.1, rfl, hcr.2⟩))
      rw [List.nil_append, if_neg hplain, if_neg (by simp)]
      rfl
    | cons next before =>
      rw [List.cons_append, List.head?_cons, List.head?_cons]
      by_cases hcr : ch = 0x0d ∧ some next = some 0x0a
      · rw [if_pos hcr, if_pos hcr]
        rfl
      · rw [if_neg hcr, if_neg hcr]
        rfl

theorem units_append {chunk behind : List UInt8} (h : Closed chunk behind) :
    units (chunk ++ behind) = units chunk ++ units behind := by
  induction chunk using units.induct with
  | case1 =>
    rw [List.nil_append, units.eq_1, List.nil_append]
  | case2 ch chunk ih =>
    rw [Closed] at h
    rw [List.cons_append, units, units, readUnit_append h.1, ih h.2, List.cons_append]

theorem streamKeys_append {chunk behind : List UInt8} (h : Closed chunk behind) :
    streamKeys (chunk ++ behind) = streamKeys chunk ++ streamKeys behind := by
  rw [streamKeys, units_append h, List.flatMap_append]
  rfl

/-! ## The text is read back -/

/-- A name that a tag of the text may have. -/
structure Special (name : List Char) (key : CpcKeys) : Prop where
  resolves : resolveKeyName name = some key
  nonempty : name ≠ []
  closed : '~' ∉ name
  read : ∀ i, readTag i name = .ok (.type key)

/-- A unit of a text that has no tilde of its own. -/
def Quiet (u : TelnetUnit) : Prop :=
  match u with
  | .key name => ∃ key, Special name key
  | .plain ch => 0x20 ≤ ch ∧ ch < 0x7f ∧ ch ≠ 0x7e
  | _ => True

theorem special_names : Special ['U', 'P'] .curUp ∧ Special ['D', 'O', 'W', 'N'] .curDown ∧
    Special ['R', 'I', 'G', 'H', 'T'] .curRight ∧ Special ['L', 'E', 'F', 'T'] .curLeft ∧
    Special ['E', 'S', 'C'] .esc ∧ Special ['D', 'E', 'L'] .del ∧ Special ['T', 'A', 'B'] .tab := by
  refine ⟨?_, ?_, ?_, ?_, ?_, ?_, ?_⟩ <;> exact ⟨by decide, by decide, by decide, fun i => rfl⟩

theorem special_escapeKey (code : UInt8) : ∃ key, Special (escapeKey code) key := by
  obtain ⟨hup, hdown, hright, hleft, hesc, -⟩ := special_names
  rw [escapeKey]
  split
  · exact ⟨_, hup⟩
  · split
    · exact ⟨_, hdown⟩
    · split
      · exact ⟨_, hright⟩
      · split
        · exact ⟨_, hleft⟩
        · exact ⟨_, hesc⟩

theorem quiet_escapeUnit (buf : List UInt8) : Quiet (escapeUnit buf).1 := by
  have hesc : Quiet (.key ['E', 'S', 'C']) := ⟨_, special_names.2.2.2.2.1⟩
  cases buf with
  | nil => exact hesc
  | cons bracket buf =>
    cases buf with
    | nil => exact hesc
    | cons code rest =>
      rw [escapeUnit]
      split
      · exact special_escapeKey code
      · exact hesc

theorem quiet_byteUnit {ch : UInt8} (h : ch ≠ 0x7e) : Quiet (byteUnit ch) := by
  obtain ⟨-, -, -, -, hesc, hdel, htab⟩ := special_names
  rw [byteUnit]
  split
  · exact ⟨_, hdel⟩
  · split
    · exact ⟨_, htab⟩
    · split
      · exact ⟨_, hesc⟩
      · split
        · trivial
        · split
          · trivial
          · split
            · rename_i hprint
              exact ⟨hprint.1, hprint.2, h⟩
            · trivial

theorem readUnit_subset {ch : UInt8} {buf : List UInt8} {x : UInt8} (h : x ∈ (readUnit ch buf).2) : x ∈ buf := by
  by_cases hesc : ch = 0x1b
  · rw [readUnit, if_pos hesc] at h
    cases buf with
    | nil => exact h
    | cons bracket buf =>
      cases buf with
      | nil => exact h
      | cons code rest =>
        rw [escapeUnit] at h
        split at h
        · exact List.mem_cons_of_mem _ (List.mem_cons_of_mem _ h)
        · exact h
  · rw [readUnit, if_neg hesc] at h
    dsimp only at h
    split at h
    · exact List.mem_of_mem_tail h
    · exact h

theorem quiet_units {buf : List UInt8} (h : 0x7e ∉ buf) : ∀ u ∈ units buf, Quiet u := by
  induction buf using units.induct with
  | case1 =>
    intro u hu
    rw [units] at hu
    exact absurd hu List.not_mem_nil
  | case2 ch buf ih =>
    intro u hu
    rw [List.mem_cons, not_or] at h
    rw [units, List.mem_cons] at hu
    rcases hu with rfl | hu
    · by_cases hesc : ch = 0x1b
      · rw [readUnit, if_pos hesc]
        exact quiet_escapeUnit buf
      · rw [readUnit, if_neg hesc]
        exact quiet_byteUnit (Ne.symm h.1)
    · exact ih (fun hmem => h.2 (readUnit_subset hmem)) u hu

theorem splitTilde_name {name rest : List Char} (h : '~' ∉ name) : splitTilde (name ++ '~' :: rest) = some (name, rest) := by
  induction name with
  | nil => rfl
  | cons c name ih =>
    rw [List.mem_cons, not_or] at h
    rw [List.cons_append, splitTilde, if_neg (Ne.symm h.1), ih h.2]
    rfl

theorem parse_special {name : List Char} {key : CpcKeys} (h : Special name key) {text : List Char} {tags : List Tag}
    (hrest : ∀ i, parse i text = .ok tags) (i : Nat) :
    parse i ('~' :: (name ++ ['~']) ++ text) = .ok (.type key :: tags) := by
  have hhead : (name ++ '~' :: text).head? ≠ some '~' := by
    rw [List.head?_append_of_ne_nil _ h.nonempty]
    exact fun heq => h.closed (List.mem_of_head? heq)
  rw [List.cons_append, List.append_assoc, List.singleton_append, parse, if_pos rfl, if_neg hhead]
  split
  · rename_i hnone
    rw [splitTilde_name h.closed] at hnone
    exact absurd hnone (Option.some_ne_none _)
  · rename_i tag rest hsome
    rw [splitTilde_name h.closed] at hsome
    obtain ⟨rfl, rfl⟩ := Prod.mk.inj (Option.some.inj hsome)
    rw [h.read, hrest]
    rfl

theorem parse_plain {c : Char} (hc : c ≠ '~') {text : List Char} {tags : List Tag} (hrest : ∀ i, parse i text = .ok tags)
    (i : Nat) : parse i (c :: text) = .ok ((charKey c).toList.map Tag.type ++ tags) := by
  rw [parse, if_neg hc]
  cases hkey : charKey c with
  | none => exact hrest (i + 1)
  | some key =>
    dsimp only
    rw [hrest]
    rfl

/-- **Reading back**: the text of quiet units is the keys of each. -/
theorem parse_text {us : List TelnetUnit} (h : ∀ u ∈ us, Quiet u) (i : Nat) :
    parse i (us.flatMap TelnetUnit.text) = .ok (us.flatMap TelnetUnit.keys) := by
  induction us generalizing i with
  | nil => rw [List.flatMap_nil, List.flatMap_nil, parse]
  | cons u us ih =>
    have hrest := ih fun u' hu' => h u' (List.mem_cons_of_mem u hu')
    have hu := h u List.mem_cons_self
    rw [List.flatMap_cons, List.flatMap_cons]
    cases u with
    | key name =>
      obtain ⟨key, hkey⟩ := hu
      rw [TelnetUnit.keys, hkey.resolves]
      exact parse_special hkey hrest i
    | newline => exact parse_plain (by decide) hrest i
    | plain ch =>
      obtain ⟨hlow, hhigh, htilde⟩ := hu
      refine parse_plain (fun heq => htilde ?_) hrest i
      have hall : ∀ n < 127, Char.ofNat n = '~' → n = 126 := by decide
      exact UInt8.toNat_inj.1 (hall ch.toNat (UInt8.lt_iff_toNat_lt.1 hhigh) heq)
    | skip => exact hrest i

theorem drainInput_eq (q : AutoTypeQueue) {chunk : List UInt8} (h : 0x7e ∉ chunk) :
    drainInput q chunk = { q with queue := q.queue ++ (streamKeys chunk).map Tag.action } := by
  have hparse : parse 0 (convert chunk) = .ok (streamKeys chunk) := parse_text (quiet_units h) 0
  have hempty : convert chunk = [] → streamKeys chunk = [] := by
    intro hnil
    rw [hnil, parse] at hparse
    exact (Except.ok.inj hparse).symm
  rw [drainInput]
  split
  · rename_i hnil
    rw [hnil, streamKeys, units]
    simp
  · split
    · rename_i hnil
      rw [hempty hnil]
      simp
    · rw [AutoTypeQueue.enqueue, hparse]

theorem drain_chunks (q : AutoTypeQueue) {chunks : List (List UInt8)} (htilde : 0x7e ∉ chunks.flatten)
    (hcut : CutBetween chunks) :
    chunks.foldl drainInput q = { q with queue := q.queue ++ (streamKeys chunks.flatten).map Tag.action } := by
  induction chunks generalizing q with
  | nil =>
    rw [List.flatten_nil, streamKeys, units]
    simp
  | cons chunk chunks ih =>
    rw [List.flatten_cons, List.mem_append, not_or] at htilde
    rw [List.foldl_cons, drainInput_eq q htilde.1, ih _ htilde.2 hcut.2, List.flatten_cons, streamKeys_append hcut.1,
      List.map_append, List.append_assoc]

/-- **Telnet input.** A stream without a tilde, in chunks that are cut between its units, types the keys of
    its units, as it does in one piece. -/
theorem telnet_input_exact (q : AutoTypeQueue) {chunks : List (List UInt8)} (htilde : 0x7e ∉ chunks.flatten)
    (hcut : CutBetween chunks) :
    chunks.foldl drainInput q = drainInput q chunks.flatten ∧
      (chunks.foldl drainInput q).queue = q.queue ++ (streamKeys chunks.flatten).map Tag.action := by
  have hchunks := drain_chunks q htilde hcut
  exact ⟨hchunks.trans (drainInput_eq q htilde).symm, by rw [hchunks]⟩

/-- A letter and an arrow, a frame each. -/
theorem telnet_input_exact_arrow :
    let chunks := [[0x61], [0x1b, 0x5b, 0x41]]
    chunks.foldl drainInput {} = drainInput {} chunks.flatten ∧
      (chunks.foldl drainInput {}).queue = [] ++ (streamKeys chunks.flatten).map Tag.action :=
  telnet_input_exact {} (by decide) ⟨by simp [Closed, ReadsOn, readUnit], by simp [Closed, ReadsOn, readUnit, escapeUnit],
    trivial⟩

/-- A tilde between two letters: the queue reads the start of a key name and takes none of the three. -/
theorem telnet_input_tilde : ¬∀ (q : AutoTypeQueue) (chunks : List (List UInt8)),
    (chunks.foldl drainInput q).queue = q.queue ++ (streamKeys chunks.flatten).map Tag.action := by
  intro hall
  have hunits : units [0x61, 0x7e, 0x62] = [.plain 0x61, .plain 0x7e, .plain 0x62] := by
    simp [units, readUnit, byteUnit]
  have hparse : ∃ e, parse 0 ['a', '~', 'b'] = .error e := ⟨_, by simp [parse, splitTilde, charKey, cpcCharToKey]; rfl⟩
  obtain ⟨e, he⟩ := hparse
  have hrefused : drainInput {} [0x61, 0x7e, 0x62] = {} := by
    have htext : convert [0x61, 0x7e, 0x62] = ['a', '~', 'b'] := by
      rw [convert, hunits]
      rfl
    rw [drainInput, htext, if_neg (by simp), if_neg (by simp), AutoTypeQueue.enqueue, he]
  have hrun := hall {} [[0x61, 0x7e, 0x62]]
  rw [List.foldl_cons, List.foldl_nil, hrefused, List.flatten_singleton, streamKeys, hunits] at hrun
  exact absurd (congrArg List.length hrun) (by decide)

end Koncepcja.Input
