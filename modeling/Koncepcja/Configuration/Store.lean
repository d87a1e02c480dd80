import Koncepcja.Lib.Fields
import Koncepcja.Lib.KeyedMap
import Koncepcja.Lib.Separator
import Mathlib.Data.Char
import Mathlib.Data.List.Lex

/-!
# The Configuration Store

`src/configuration.cpp`: sections of keys and values, read from texts, overridden at launch, set while the
emulator runs, and written back into the lines that were read.

A text is the list of its characters, one for each byte.

## Main definitions

- `parseStream`, `toStream`: the reader and the writer.
- `setStringValue`: a set that only repeats an override is not persisted.

## Main results

- `assigns_of_find`, `find_isSome_of_assigns`: what is read is what the lines assign.
-/

namespace Koncepcja.Configuration

open Separator (upTo past)

abbrev ConfigSection := KeyedMap (List Char) (List Char)

abbrev ConfigMap := KeyedMap (List Char) ConfigSection

/-! ## Lines -/

/-- `kKeyDelims`. -/
def keyDelim (c : Char) : Bool := c == '\t' || c == ' ' || c == '='

/-- `kValueDelims`. -/
def valueDelim (c : Char) : Bool := c == '\t' || c == '=' || c == '#'

/-- What may stand ahead of a value, `"\t=# "`. -/
def valueLead (c : Char) : Bool := c == '\t' || c == '=' || c == '#' || c == ' '

def isBlank (c : Char) : Bool := c == ' ' || c == '\t'

def bracket (c : Char) : Bool := c == '[' || c == ']'

def stripSpaces (s : List Char) : List Char := ((s.dropWhile (· == ' ')).reverse.dropWhile (· == ' ')).reverse

/-- `parse_section_name`: the token between bracket characters. -/
def parseSectionName (line : List Char) : List Char := (line.dropWhile bracket).takeWhile (!bracket ·)

/-- The section behind a line: a header without a name leaves it. -/
def nextSection (s : List Char) (line : List Char) : List Char :=
  if line.head? = some '[' then
    let name := parseSectionName line
    if name = [] then s else name
  else s

/-- `line_key`: the key that a line assigns, or an empty one. -/
def lineKey (line : List Char) : List Char :=
  if line.head? = some '[' then []
  else
    let rest := line.dropWhile keyDelim
    if rest = [] then []
    else if rest.head? = some '#' then []
    else if rest.dropWhile (!keyDelim ·) = [] then []
    else rest.takeWhile (!keyDelim ·)

/-- What stands behind the key of a line. -/
def behindKey (line : List Char) : List Char := (line.dropWhile keyDelim).dropWhile (!keyDelim ·)

/-- The key and the value that the reader takes from a line. -/
def pairOf (line : List Char) : Option (List Char × List Char) :=
  if line.head? = some '[' then none
  else
    let rest := line.dropWhile keyDelim
    if rest = [] then none
    else if rest.head? = some '#' then none
    else if rest.dropWhile (!keyDelim ·) = [] then none
    else
      let key := rest.takeWhile (!keyDelim ·)
      let value := (behindKey line).dropWhile valueLead
      if value = [] then none else some (key, stripSpaces (value.takeWhile (!valueDelim ·)))

/-- `rewrite_value`: the value of a line is replaced, and an inline comment is kept unless the value is empty. -/
def rewriteValue (line value : List Char) : List Char :=
  let key := line.takeWhile keyDelim ++ (line.dropWhile keyDelim).takeWhile (!keyDelim ·)
  let rest := behindKey line
  let sep := if '=' ∈ rest then upTo '=' rest ++ ['='] else []
  let tail := if '=' ∈ rest then past '=' rest else rest
  let old := tail.dropWhile isBlank
  let out := key ++ sep ++ tail.takeWhile isBlank ++ (if '=' ∈ rest then [] else ['=']) ++ value
  if value = [] then out
  else if '#' ∈ old then
    out ++ ((upTo '#' old).reverse.takeWhile isBlank).reverse ++ old.dropWhile (· ≠ '#')
  else out

/-! ## Maps -/

def findIn (m : ConfigMap) (s k : List Char) : Option (List Char) := (m.find s).bind (·.find k)

/-- `m[s][k] = v`. -/
def put (m : ConfigMap) (s k v : List Char) : ConfigMap := m.insert s (((m.find s).getD {}).insert k v)

/-- A key is erased from a section, where there is one. -/
def eraseKey (m : ConfigMap) (s k : List Char) : ConfigMap :=
  match m.find s with
  | some entries => m.insert s (entries.erase k)
  | none => m

/-! ## The store -/

structure Config where
  config : ConfigMap := {}
  overrides : ConfigMap := {}
  launchOverrides : ConfigMap := {}
  lines : List (List Char) := []

/-- A line without the carriage return of a line break. -/
def chomp (line : List Char) : List Char := if line.getLast? = some '\r' then line.dropLast else line

/-- The lines of a text. -/
def linesOf (text : List Char) : List (List Char) := (Fields.fields '\n' text).map chomp

/-- One line of `parseStream`'s loop, in a section. -/
def readLine (state : Config × List Char) (line : List Char) : Config × List Char :=
  let c := { state.1 with lines := state.1.lines ++ [line] }
  let s := nextSection state.2 line
  match pairOf line with
  | some (key, value) => ({ c with config := put c.config s key value }, s)
  | none => (c, s)

/-- `parseStream`: a text begins outside any section. -/
def parseStream (c : Config) (text : List Char) : Config := ((linesOf text).foldl readLine (c, [])).1

/-- `key=value`. -/
def entryLine (e : List Char × List Char) : List Char := e.1 ++ '=' :: e.2

def dumpSection (s : List Char) (entries : ConfigSection) : List (List Char) :=
  ('[' :: s ++ [']']) :: entries.entries.map entryLine

/-- The state of `toStream`'s loop, and the lines that are written so far. -/
structure Writer where
  pending : ConfigMap
  current : List Char := []
  buffered : List (List Char) := []
  out : List (List Char) := []

/-- `flush`: new keys come behind the last line of their section that is not blank. -/
def Writer.flush (w : Writer) : Writer :=
  let added :=
    match w.pending.find w.current with
    | some entries => entries.entries.map entryLine
    | none => []
  let filled := (w.buffered.reverse.dropWhile (· = [])).reverse
  { w with
    pending := w.pending.erase w.current
    buffered := []
    out := w.out ++ filled ++ added ++ w.buffered.drop filled.length }

/-- One line of `toStream`'s loop. -/
def Writer.line (config : ConfigMap) (w : Writer) (line : List Char) : Writer :=
  if line.head? = some '[' then
    let name := parseSectionName line
    let w := if name = [] then w else { w.flush with current := name }
    { w with buffered := w.buffered ++ [line] }
  else
    let key := lineKey line
    match if key = [] then none else findIn config w.current key with
    | some value =>
      { w with
        buffered := w.buffered ++ [rewriteValue line value]
        pending := eraseKey w.pending w.current key }
    | none => { w with buffered := w.buffered ++ [line] }

/-- The lines of `toStream`. -/
def toLines (c : Config) : List (List Char) :=
  if c.lines = [] then c.config.entries.flatMap fun e => dumpSection e.1 e.2
  else
    let w := (c.lines.foldl (Writer.line c.config) { pending := c.config }).flush
    w.out ++ w.pending.entries.flatMap fun e => if e.2.entries = [] then [] else dumpSection e.1 e.2

def toStream (c : Config) : List Char := (toLines c).flatMap (· ++ ['\n'])

def setOverrides (c : Config) (overrides : ConfigMap) : Config := { c with overrides, launchOverrides := overrides }

/-- `find`: an override first. -/
def Config.find (c : Config) (s k : List Char) : Option (List Char) :=
  match findIn c.overrides s k with
  | some value => some value
  | none => findIn c.config s k

/-- `setStringValue`: the value of a launch override is not persisted, and another one ends the override. -/
def setStringValue (c : Config) (s k value : List Char) : Config :=
  match findIn c.launchOverrides s k with
  | some launched =>
    if launched = value then { c with overrides := put c.overrides s k value }
    else
      { c with
        launchOverrides := eraseKey c.launchOverrides s k
        overrides := put c.overrides s k value
        config := put c.config s k value }
  | none => { c with overrides := put c.overrides s k value, config := put c.config s k value }

/-! ## Finding what was put -/

variable {m : ConfigMap} {c : Config}

theorem findIn_put (m : ConfigMap) (s k v s' k' : List Char) :
    findIn (put m s k v) s' k' = if s = s' ∧ k = k' then some v else findIn m s' k' := by
  rw [findIn, put, KeyedMap.find_insert]
  by_cases hs : s = s'
  · rw [if_pos hs, Option.bind_some, KeyedMap.find_insert]
    by_cases hk : k = k'
    · rw [if_pos hk, if_pos ⟨hs, hk⟩]
    · rw [if_neg hk, if_neg fun h => hk h.2, findIn, ← hs]
      cases m.find s <;> rfl
  · rw [if_neg hs, if_neg fun h => hs h.1, findIn]

theorem findIn_eraseKey (m : ConfigMap) (s k s' k' : List Char) :
    findIn (eraseKey m s k) s' k' = if s = s' ∧ k = k' then none else findIn m s' k' := by
  rw [eraseKey]
  cases hfind : m.find s with
  | none =>
    by_cases h : s = s' ∧ k = k'
    · rw [if_pos h, findIn, ← h.1, hfind, Option.bind_none]
    · rw [if_neg h]
  | some entries =>
    simp only [findIn, KeyedMap.find_insert]
    by_cases hs : s = s'
    · rw [if_pos hs, Option.bind_some, KeyedMap.find_erase]
      by_cases hk : k = k'
      · rw [if_pos hk, if_pos ⟨hs, hk⟩]
      · rw [if_neg hk, if_neg fun h => hk h.2, ← hs, hfind, Option.bind_some]
    · rw [if_neg hs, if_neg fun h => hs h.1]

theorem findIn_erase (m : ConfigMap) (s s' k' : List Char) :
    findIn (m.erase s) s' k' = if s = s' then none else findIn m s' k' := by
  rw [findIn, KeyedMap.find_erase]
  by_cases hs : s = s'
  · rw [if_pos hs, if_pos hs, Option.bind_none]
  · rw [if_neg hs, if_neg hs, findIn]

/-! ## What lines assign -/

/-- Each line with its section. -/
def sectioned (s : List Char) : List (List Char) → List (List Char × List Char)
  | [] => []
  | line :: lines => (nextSection s line, line) :: sectioned (nextSection s line) lines

/-- The section behind some lines. -/
def sectionAfter (s : List Char) (lines : List (List Char)) : List Char := lines.foldl nextSection s

/-- The pair of a line, with its section. -/
def assignment (place : List Char × List Char) : Option (List Char × List Char × List Char) :=
  (pairOf place.2).map fun pair => (place.1, pair.1, pair.2)

/-- What lines assign, in order. -/
def assigns (s : List Char) (lines : List (List Char)) : List (List Char × List Char × List Char) :=
  (sectioned s lines).filterMap assignment

theorem sectioned_append (s : List Char) (l₁ l₂ : List (List Char)) :
    sectioned s (l₁ ++ l₂) = sectioned s l₁ ++ sectioned (sectionAfter s l₁) l₂ := by
  induction l₁ generalizing s with
  | nil => rfl
  | cons line l₁ ih => exact congrArg (_ :: ·) (ih _)

theorem assigns_append (s : List Char) (l₁ l₂ : List (List Char)) :
    assigns s (l₁ ++ l₂) = assigns s l₁ ++ assigns (sectionAfter s l₁) l₂ := by
  rw [assigns, sectioned_append, List.filterMap_append]
  rfl

theorem sectionAfter_append (s : List Char) (l₁ l₂ : List (List Char)) :
    sectionAfter s (l₁ ++ l₂) = sectionAfter (sectionAfter s l₁) l₂ := List.foldl_append

theorem foldl_readLine (c : Config) (s : List Char) (lines : List (List Char)) :
    lines.foldl readLine (c, s) =
      ({ c with
          lines := c.lines ++ lines
          config := (assigns s lines).foldl (fun m a => put m a.1 a.2.1 a.2.2) c.config }, sectionAfter s lines) := by
  induction lines generalizing c s with
  | nil =>
    rw [List.append_nil]
    rfl
  | cons line lines ih =>
    rw [List.foldl_cons]
    -- A line without a pair may open a section; one with a pair is put under the section that stands.
    cases hpair : pairOf line with
    | none =>
      have hread : readLine (c, s) line = ({ c with lines := c.lines ++ [line] }, nextSection s line) := by
        simp only [readLine, hpair]
      have hassigns : assigns s (line :: lines) = assigns (nextSection s line) lines := by
        simp only [assigns, sectioned, List.filterMap_cons, assignment, hpair, Option.map_none]
      rw [hread, ih, hassigns, List.append_assoc, List.singleton_append]
      rfl
    | some pair =>
      have hread : readLine (c, s) line =
          ({ c with lines := c.lines ++ [line], config := put c.config (nextSection s line) pair.1 pair.2 },
            nextSection s line) := by
        simp only [readLine, hpair]
      have hassigns : assigns s (line :: lines) =
          (nextSection s line, pair.1, pair.2) :: assigns (nextSection s line) lines := by
        simp only [assigns, sectioned, List.filterMap_cons, assignment, hpair, Option.map_some]
      rw [hread, ih, hassigns, List.append_assoc, List.singleton_append]
      rfl

/-- What is found after assignments was found before or is assigned. -/
theorem assigns_of_find {as : List (List Char × List Char × List Char)} {s k v : List Char}
    (h : findIn (as.foldl (fun m a => put m a.1 a.2.1 a.2.2) m) s k = some v) :
    (s, k, v) ∈ as ∨ findIn m s k = some v := by
  induction as generalizing m with
  | nil => exact .inr h
  | cons a as ih =>
    rcases ih h with hmem | hput
    · exact .inl (List.mem_cons_of_mem a hmem)
    · rw [findIn_put] at hput
      split at hput
      · rename_i heq
        have hthis : (s, k, v) = a := by rw [← heq.1, ← heq.2, ← Option.some.inj hput]
        exact .inl (hthis ▸ List.mem_cons_self)
      · exact .inr hput

/-- What is found stays so, and what is assigned is found. -/
theorem find_isSome_of_assigns {as : List (List Char × List Char × List Char)} {s k : List Char}
    (h : (findIn m s k).isSome ∨ ∃ v, (s, k, v) ∈ as) :
    (findIn (as.foldl (fun m a => put m a.1 a.2.1 a.2.2) m) s k).isSome := by
  induction as generalizing m with
  | nil => exact h.elim id fun ⟨_, hmem⟩ => absurd hmem List.not_mem_nil
  | cons a as ih =>
    refine ih ?_
    rw [findIn_put]
    rcases h with hfound | ⟨v, hmem⟩
    · left
      split
      · rfl
      · exact hfound
    · rcases List.mem_cons.mp hmem with rfl | hmem
      · left
        rw [if_pos ⟨rfl, rfl⟩]
        rfl
      · exact .inr ⟨v, hmem⟩

end Koncepcja.Configuration
