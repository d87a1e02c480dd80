import Mathlib.Data.List.Basic

/-!
# The Search Engine

The patterns of `src/search_engine.cpp`: a hexadecimal or a text pattern is compiled to literals, `?` (one byte) and
`*` (up to 256 bytes), and a backtracking matcher tries it at an address of the memory.

## Main results

- `compileTextPattern_compiled`: the literals of a compiled pattern are in the case that they are compared in.
- `matchRecursive_sound`, `matchRecursive_complete`: the matcher and the ways to split the memory.
- `searchMemory_exact`: what a search finds.
- `matchPattern_exact`: what a match is.
-/

namespace Koncepcja.Debug.SearchEngine

set_option maxRecDepth 20000

inductive Kind where
  | LITERAL
  | ANY_ONE
  | ANY_MANY
  deriving DecidableEq

structure PatternElement where
  kind : Kind
  /-- Only meaningful for a literal. -/
  value : UInt8
  deriving DecidableEq

/-- `std::toupper` on a byte. -/
def toupper (c : UInt8) : UInt8 := if 0x61 ≤ c ∧ c ≤ 0x7A then c - 0x20 else c

theorem toupper_toupper (c : UInt8) : toupper (toupper c) = toupper c := by
  have hall : ∀ n : Fin 256, toupper (toupper (UInt8.ofFin n)) = toupper (UInt8.ofFin n) := by decide
  exact hall c.toFin

/-! ## Compiling -/

/-- The value of a hexadecimal digit. -/
def digit? (c : UInt8) : Option UInt8 :=
  if 0x30 ≤ c ∧ c ≤ 0x39 then some (c - 0x30)
  else if 0x41 ≤ toupper c ∧ toupper c ≤ 0x46 then some (toupper c - 0x37)
  else none

/-- The low byte of `std::stoul` of two characters that are not blanks, in base 16. Nothing is an exception. -/
def stoul (c d : UInt8) : Option UInt8 :=
  match digit? c with
  | some high =>
    -- What follows the digits is not read.
    match digit? d with
    | some low => some (high * 16 + low)
    | none => some high
  | none =>
    -- A sign may stand before the first digit.
    if c = 0x2B then digit? d
    else if c = 0x2D then (digit? d).map fun low => 0 - low
    else none

/-- The pairs of a token. A character that is left over is ignored, and so is a pair that is not a number. -/
def compileToken : List UInt8 → List PatternElement
  | c :: d :: token =>
    if c = 0x3F ∧ d = 0x3F then ⟨.ANY_ONE, 0⟩ :: compileToken token
    else
      match stoul c d with
      | some val => ⟨.LITERAL, val⟩ :: compileToken token
      | none => compileToken token
  | _ => []

def isspace (c : UInt8) : Bool := c = 0x20 ∨ (0x09 ≤ c ∧ c ≤ 0x0D)

/-- The tokens of a string, which blanks separate. -/
def tokens (pattern : List UInt8) : List (List UInt8) := (pattern.splitOnP isspace).filter (· ≠ [])

def compileHexPattern (pattern : List UInt8) : List PatternElement :=
  (tokens pattern).flatMap fun token =>
    if token = [0x2A] then [⟨.ANY_MANY, 0⟩]
    else if token = [0x3F] ∨ token = [0x3F, 0x3F] then [⟨.ANY_ONE, 0⟩]
    else compileToken token

def compileTextPattern (pattern : List UInt8) (caseInsensitive : Bool) : List PatternElement :=
  pattern.map fun c =>
    if c = 0x3F then ⟨.ANY_ONE, 0⟩
    else if c = 0x2A then ⟨.ANY_MANY, 0⟩
    else if caseInsensitive then ⟨.LITERAL, toupper c⟩
    else ⟨.LITERAL, c⟩

/-! ## Matching -/

/-- The end of a match of the rest of a pattern at a position. -/
def matchRecursive (caseInsensitive : Bool) (mem : List UInt8) : List PatternElement → Nat → Option Nat
  | [], memPos => some memPos
  | elem :: rest, memPos =>
    match elem.kind with
    | .LITERAL =>
      match mem[memPos]? with
      | none => none
      | some memVal =>
        if (if caseInsensitive then toupper memVal else memVal) = elem.value then
          matchRecursive caseInsensitive mem rest (memPos + 1)
        else none
    | .ANY_ONE =>
      if memPos < mem.length then matchRecursive caseInsensitive mem rest (memPos + 1) else none
    | .ANY_MANY =>
      -- The last element takes all that it can.
      if rest = [] then some (min mem.length (memPos + 256))
      else
        (List.range (min (mem.length - memPos) 256 + 1)).findSome? fun skip =>
          matchRecursive caseInsensitive mem rest (memPos + skip)

/-- The length of a match at an offset. -/
def matchPattern (compiled : List PatternElement) (mem : List UInt8) (offset : Nat) (caseInsensitive : Bool) :
    Option Nat :=
  if compiled = [] then some 0
  else (matchRecursive caseInsensitive mem compiled offset).map fun matchEnd => matchEnd - offset

/-! ## What a match is -/

/-- The case of a letter is ignored when this is asked for. -/
def Same (caseInsensitive : Bool) (a b : UInt8) : Prop :=
  if caseInsensitive then toupper a = toupper b else a = b

/-- The bytes are split between the elements of a pattern. -/
inductive Split (caseInsensitive : Bool) : List PatternElement → List UInt8 → Prop
  | nil : Split caseInsensitive [] []
  | literal {v value : UInt8} {rest : List PatternElement} {bytes : List UInt8} (hsame : Same caseInsensitive v value)
      (hrest : Split caseInsensitive rest bytes) : Split caseInsensitive (⟨.LITERAL, value⟩ :: rest) (v :: bytes)
  | anyOne {v value : UInt8} {rest : List PatternElement} {bytes : List UInt8}
      (hrest : Split caseInsensitive rest bytes) : Split caseInsensitive (⟨.ANY_ONE, value⟩ :: rest) (v :: bytes)
  | anyMany {value : UInt8} {rest : List PatternElement} {chunk bytes : List UInt8} (hchunk : chunk.length ≤ 256)
      (hrest : Split caseInsensitive rest bytes) :
      Split caseInsensitive (⟨.ANY_MANY, value⟩ :: rest) (chunk ++ bytes)

/-- A pattern for a search that ignores the case has its literals in upper case. -/
def Compiled (caseInsensitive : Bool) (compiled : List PatternElement) : Prop :=
  caseInsensitive = true → ∀ elem ∈ compiled, elem.kind = .LITERAL → toupper elem.value = elem.value

theorem compileTextPattern_compiled (pattern : List UInt8) (caseInsensitive : Bool) :
    Compiled caseInsensitive (compileTextPattern pattern caseInsensitive) := by
  intro hcase elem helem hliteral
  obtain ⟨c, -, rfl⟩ := List.mem_map.mp helem
  subst hcase
  revert hliteral
  split
  · intro hliteral
    cases hliteral
  · split
    · intro hliteral
      cases hliteral
    · intro
      exact toupper_toupper c

theorem compileHexPattern_compiled (pattern : List UInt8) : Compiled false (compileHexPattern pattern) := by
  intro hcase
  cases hcase

variable {caseInsensitive : Bool} {elem : PatternElement} {rest compiled : List PatternElement}
  {mem bytes : List UInt8} {memPos matchEnd offset : Nat}

theorem Compiled.tail (h : Compiled caseInsensitive (elem :: rest)) : Compiled caseInsensitive rest :=
  fun hcase e he => h hcase e (List.mem_cons_of_mem elem he)

theorem Compiled.same_iff (h : Compiled caseInsensitive (elem :: rest)) (hkind : elem.kind = .LITERAL) (v : UInt8) :
    (if caseInsensitive then toupper v else v) = elem.value ↔ Same caseInsensitive v elem.value := by
  unfold Same
  cases caseInsensitive with
  | false => rfl
  | true => rw [if_pos rfl, if_pos rfl, h rfl elem List.mem_cons_self hkind]

theorem drop_of_getElem? {v : UInt8} (h : mem[memPos]? = some v) : mem.drop memPos = v :: mem.drop (memPos + 1) := by
  obtain ⟨hlt, rfl⟩ := List.getElem?_eq_some_iff.mp h
  exact List.drop_eq_getElem_cons hlt

/-! ## The matcher -/

/-- The bytes from a position up to where a match ends are split between the elements. -/
theorem matchRecursive_sound (hcompiled : Compiled caseInsensitive compiled) (hpos : memPos ≤ mem.length)
    (h : matchRecursive caseInsensitive mem compiled memPos = some matchEnd) :
    ∃ bytes, bytes <+: mem.drop memPos ∧ Split caseInsensitive compiled bytes ∧
      matchEnd = memPos + bytes.length := by
  induction compiled generalizing memPos with
  | nil =>
    cases h
    exact ⟨[], List.nil_prefix, .nil, rfl⟩
  | cons elem rest ih =>
    obtain ⟨kind, value⟩ := elem
    cases kind with
    | LITERAL =>
      simp only [matchRecursive] at h
      cases hmem : mem[memPos]? with
      | none => simp [hmem] at h
      | some v =>
        by_cases hsame : Same caseInsensitive v value
        · simp only [hmem] at h
          rw [if_pos ((hcompiled.same_iff rfl v).mpr hsame)] at h
          have hlt : memPos < mem.length := (List.getElem?_eq_some_iff.mp hmem).1
          obtain ⟨bytes, hpre, hsplit, hend⟩ := ih hcompiled.tail hlt h
          refine ⟨v :: bytes, ?_, .literal hsame hsplit, ?_⟩
          · rw [drop_of_getElem? hmem]
            exact (List.prefix_cons_inj v).mpr hpre
          · rw [hend, List.length_cons]
            omega
        · simp only [hmem] at h
          rw [if_neg (mt (hcompiled.same_iff rfl v).mp hsame)] at h
          cases h
    | ANY_ONE =>
      simp only [matchRecursive] at h
      split at h
      · rename_i hlt
        obtain ⟨bytes, hpre, hsplit, hend⟩ := ih hcompiled.tail hlt h
        refine ⟨mem[memPos] :: bytes, ?_, .anyOne hsplit, ?_⟩
        · rw [List.drop_eq_getElem_cons hlt]
          exact (List.prefix_cons_inj _).mpr hpre
        · rw [hend, List.length_cons]
          omega
      · cases h
    | ANY_MANY =>
      simp only [matchRecursive] at h
      split at h
      · rename_i hlast
        subst hlast
        cases h
        refine ⟨(mem.drop memPos).take 256 ++ [], ?_, .anyMany (List.length_take_le 256 _) .nil, ?_⟩
        · rw [List.append_nil]
          exact List.take_prefix 256 _
        · rw [List.append_nil, List.length_take, List.length_drop]
          omega
      · -- The bytes that were skipped belong to the star.
        obtain ⟨skip, hskip, h⟩ := List.exists_of_findSome?_eq_some h
        rw [List.mem_range] at hskip
        obtain ⟨bytes, hpre, hsplit, hend⟩ := ih hcompiled.tail (by omega) h
        have hlength : ((mem.drop memPos).take skip).length = skip := by
          rw [List.length_take, List.length_drop]
          omega
        refine ⟨(mem.drop memPos).take skip ++ bytes, ?_, .anyMany (by omega) hsplit, ?_⟩
        · have hdrop : mem.drop memPos = (mem.drop memPos).take skip ++ mem.drop (memPos + skip) := by
            rw [← List.drop_drop, List.take_append_drop]
          rw [hdrop, List.take_left' hlength]
          exact (List.prefix_append_right_inj _).mpr hpre
        · rw [hend, List.length_append, hlength]
          omega

/-- Where the memory can be split, the matcher finds a match. -/
theorem matchRecursive_complete (hcompiled : Compiled caseInsensitive compiled)
    (hsplit : Split caseInsensitive compiled bytes) (hpre : bytes <+: mem.drop memPos) :
    ∃ matchEnd, matchRecursive caseInsensitive mem compiled memPos = some matchEnd := by
  induction hsplit generalizing memPos with
  | nil => exact ⟨memPos, rfl⟩
  | @literal v value rest bytes hsame hrest ih =>
    obtain ⟨text, htext⟩ := hpre
    have hmem : mem[memPos]? = some v := by
      rw [← List.head?_drop, ← htext]
      rfl
    have hnext : bytes <+: mem.drop (memPos + 1) := ⟨text, by
      rw [drop_of_getElem? hmem] at htext
      exact List.tail_eq_of_cons_eq htext⟩
    obtain ⟨matchEnd, h⟩ := ih hcompiled.tail hnext
    refine ⟨matchEnd, ?_⟩
    simp only [matchRecursive, hmem]
    rw [if_pos ((hcompiled.same_iff rfl v).mpr hsame), h]
  | @anyOne v value rest bytes hrest ih =>
    obtain ⟨text, htext⟩ := hpre
    have hmem : mem[memPos]? = some v := by
      rw [← List.head?_drop, ← htext]
      rfl
    have hnext : bytes <+: mem.drop (memPos + 1) := ⟨text, by
      rw [drop_of_getElem? hmem] at htext
      exact List.tail_eq_of_cons_eq htext⟩
    obtain ⟨matchEnd, h⟩ := ih hcompiled.tail hnext
    refine ⟨matchEnd, ?_⟩
    simp only [matchRecursive]
    rw [if_pos (List.getElem?_eq_some_iff.mp hmem).1, h]
  | @anyMany value rest chunk bytes hchunk hrest ih =>
    simp only [matchRecursive]
    split
    · exact ⟨_, rfl⟩
    · -- The star is tried with as many bytes as it has in the split, if nothing shorter succeeds.
      obtain ⟨text, htext⟩ := hpre
      have hdrop : mem.drop (memPos + chunk.length) = bytes ++ text := by
        rw [← List.drop_drop, ← htext, List.append_assoc, List.drop_left]
      have hlength : chunk.length ≤ mem.length - memPos := by
        rw [← List.length_drop, ← htext, List.length_append, List.length_append]
        omega
      obtain ⟨matchEnd, h⟩ := ih hcompiled.tail ⟨text, hdrop.symm⟩
      rw [← Option.isSome_iff_exists, List.findSome?_isSome_iff]
      exact ⟨chunk.length, List.mem_range.mpr (by omega), by rw [h]; rfl⟩

/-- A pattern matches at an offset just when the memory from there can be split between its elements, and the length
    of the match is that of such a split, inside the memory. -/
theorem matchPattern_exact (hcompiled : Compiled caseInsensitive compiled) (hoffset : offset ≤ mem.length) :
    (∀ matchLen, matchPattern compiled mem offset caseInsensitive = some matchLen →
      offset + matchLen ≤ mem.length ∧
        ∃ bytes, bytes <+: mem.drop offset ∧ Split caseInsensitive compiled bytes ∧ bytes.length = matchLen) ∧
    ((∃ matchLen, matchPattern compiled mem offset caseInsensitive = some matchLen) ↔
      ∃ bytes, bytes <+: mem.drop offset ∧ Split caseInsensitive compiled bytes) := by
  -- The empty pattern matches nothing but the empty run.
  by_cases hempty : compiled = []
  · subst hempty
    refine ⟨fun matchLen h => ?_, fun _ => ⟨[], List.nil_prefix, .nil⟩, fun _ => ⟨0, rfl⟩⟩
    cases h
    exact ⟨hoffset, [], List.nil_prefix, .nil, rfl⟩
  · simp only [matchPattern, if_neg hempty]
    -- A match found splits the bytes up to its end; completeness is the other lemma's.
    have hsound (matchLen : Nat)
        (h : (matchRecursive caseInsensitive mem compiled offset).map (· - offset) = some matchLen) :
        ∃ bytes, bytes <+: mem.drop offset ∧ Split caseInsensitive compiled bytes ∧ bytes.length = matchLen := by
      obtain ⟨matchEnd, hmatch, rfl⟩ := Option.map_eq_some_iff.mp h
      obtain ⟨bytes, hpre, hsplit, hend⟩ := matchRecursive_sound hcompiled hoffset hmatch
      exact ⟨bytes, hpre, hsplit, by omega⟩
    refine ⟨fun matchLen h => ?_, fun ⟨matchLen, h⟩ => ?_, fun ⟨bytes, hpre, hsplit⟩ => ?_⟩
    · obtain ⟨bytes, hpre, hsplit, hlength⟩ := hsound matchLen h
      refine ⟨?_, bytes, hpre, hsplit, hlength⟩
      have hle := hpre.length_le
      rw [List.length_drop] at hle
      omega
    · obtain ⟨bytes, hpre, hsplit, -⟩ := hsound matchLen h
      exact ⟨bytes, hpre, hsplit⟩
    · obtain ⟨matchEnd, h⟩ := matchRecursive_complete hcompiled hsplit hpre
      exact ⟨matchEnd - offset, by rw [h]; rfl⟩

/-- The text pattern `A*c` in some memory, with the case ignored. -/
theorem matchPattern_text :
    (∀ matchLen, matchPattern (compileTextPattern [0x41, 0x2A, 0x63] true) [0x20, 0x61, 0x62, 0x43] 1 true =
        some matchLen →
      1 + matchLen ≤ 4 ∧
        ∃ bytes, bytes <+: [0x61, 0x62, 0x43] ∧
          Split true (compileTextPattern [0x41, 0x2A, 0x63] true) bytes ∧ bytes.length = matchLen) ∧
    ((∃ matchLen, matchPattern (compileTextPattern [0x41, 0x2A, 0x63] true) [0x20, 0x61, 0x62, 0x43] 1 true =
        some matchLen) ↔
      ∃ bytes, bytes <+: [0x61, 0x62, 0x43] ∧ Split true (compileTextPattern [0x41, 0x2A, 0x63] true) bytes) :=
  @matchPattern_exact _ _ ([0x20, 0x61, 0x62, 0x43]) _ (compileTextPattern_compiled _ true) (by decide)

/-! ## Searching -/

inductive SearchMode where
  | HEX
  | TEXT
  | ASM
  deriving DecidableEq

structure SearchResult where
  address : UInt16
  matchedBytes : List UInt8
  context : List UInt8
  deriving DecidableEq

def hexDigit (v : UInt8) : UInt8 := if v < 10 then 0x30 + v else 0x37 + v

def hexContext (mem : List UInt8) (offset len : Nat) : List UInt8 :=
  ((((mem.drop offset).take (min len 16)).map fun v : UInt8 => [hexDigit (v >>> 4), hexDigit (v &&& 15)]).intersperse
    [0x20]).flatten

def textContext (mem : List UInt8) (offset len : Nat) : List UInt8 :=
  ((mem.drop offset).take (min len 32)).map fun c => if 32 ≤ c ∧ c < 127 then c else 0x2E

/-- What is found at an address. -/
def resultAt (compiled : List PatternElement) (mem : List UInt8) (caseInsensitive : Bool)
    (context : List UInt8 → Nat → Nat → List UInt8) (addr : Nat) : Option SearchResult :=
  (matchPattern compiled mem addr caseInsensitive).map fun matchLen =>
    { address := UInt16.ofNat addr, matchedBytes := (mem.drop addr).take matchLen,
      context := context mem addr matchLen }

/-- The loop over the addresses, which ends when there are enough results. -/
def collect (found : Nat → Option SearchResult) : List Nat → Nat → List SearchResult
  | [], _ => []
  | _ :: _, 0 => []
  | addr :: addrs, maxResults + 1 =>
    match found addr with
    | some r => r :: collect found addrs maxResults
    | none => collect found addrs (maxResults + 1)

def searchMemory (mem pattern : List UInt8) (mode : SearchMode) (maxResults : Nat) : List SearchResult :=
  if mem = [] ∨ pattern = [] then []
  else
    match mode with
    | .HEX =>
      if compileHexPattern pattern = [] then []
      else collect (resultAt (compileHexPattern pattern) mem false hexContext) (List.range mem.length) maxResults
    | .TEXT =>
      if compileTextPattern pattern true = [] then []
      else
        collect (resultAt (compileTextPattern pattern true) mem true textContext) (List.range mem.length) maxResults
    | .ASM => []

theorem forall₂_collect {P : SearchResult → Nat → Prop} {found : Nat → Option SearchResult} {addrs : List Nat}
    (maxResults : Nat) (h : ∀ addr ∈ addrs, ∀ r, found addr = some r → P r addr) :
    List.Forall₂ P (collect found addrs maxResults)
      ((addrs.filter fun addr => (found addr).isSome).take maxResults) := by
  induction addrs generalizing maxResults with
  | nil => simp [collect]
  | cons addr addrs ih =>
    have hrest := fun n => ih n fun a ha => h a (List.mem_cons_of_mem addr ha)
    cases maxResults with
    | zero => simp [collect]
    | succ maxResults =>
      cases hfound : found addr with
      | none =>
        rw [List.filter_cons_of_neg (by simp [hfound])]
        simp only [collect, hfound]
        exact hrest _
      | some r =>
        rw [List.filter_cons_of_pos (by simp [hfound]), List.take_succ_cons]
        simp only [collect, hfound]
        exact .cons (h addr List.mem_cons_self r hfound) (hrest maxResults)

/-- The pattern of a search, as it is compared with the memory. -/
def compile (pattern : List UInt8) : SearchMode → List PatternElement × Bool
  | .HEX => (compileHexPattern pattern, false)
  | .TEXT => (compileTextPattern pattern true, true)
  | .ASM => ([], false)

theorem compile_compiled (pattern : List UInt8) (mode : SearchMode) :
    Compiled (compile pattern mode).2 (compile pattern mode).1 := by
  cases mode with
  | HEX => exact compileHexPattern_compiled pattern
  | TEXT => exact compileTextPattern_compiled pattern true
  | ASM => exact fun h => nomatch h

theorem resultAt_sound {context : List UInt8 → Nat → Nat → List UInt8} {addr : Nat} {r : SearchResult}
    (hcompiled : Compiled caseInsensitive compiled) (haddr : addr < mem.length)
    (h : resultAt compiled mem caseInsensitive context addr = some r) :
    r.address = UInt16.ofNat addr ∧ r.matchedBytes <+: mem.drop addr ∧
      Split caseInsensitive compiled r.matchedBytes := by
  obtain ⟨matchLen, hmatch, rfl⟩ := Option.map_eq_some_iff.mp h
  unfold matchPattern at hmatch
  split at hmatch
  · rename_i hempty
    subst hempty
    cases hmatch
    exact ⟨rfl, List.take_prefix 0 _, .nil⟩
  · obtain ⟨matchEnd, hend, rfl⟩ := Option.map_eq_some_iff.mp hmatch
    obtain ⟨bytes, hpre, hsplit, rfl⟩ := matchRecursive_sound hcompiled (Nat.le_of_lt haddr) hend
    have hbytes : (mem.drop addr).take (addr + bytes.length - addr) = bytes := by
      rw [Nat.add_sub_cancel_left]
      exact (List.prefix_iff_eq_take.mp hpre).symm
    exact ⟨rfl, List.take_prefix _ _, hbytes.symm ▸ hsplit⟩

theorem resultAt_isSome {context : List UInt8 → Nat → Nat → List UInt8} {addr : Nat}
    (hcompiled : Compiled caseInsensitive compiled) (hne : compiled ≠ []) (haddr : addr < mem.length) :
    (resultAt compiled mem caseInsensitive context addr).isSome = true ↔
      ∃ bytes, bytes <+: mem.drop addr ∧ Split caseInsensitive compiled bytes := by
  constructor
  · intro h
    obtain ⟨r, hr⟩ := Option.isSome_iff_exists.mp h
    exact ⟨_, (resultAt_sound hcompiled haddr hr).2⟩
  · rintro ⟨bytes, hpre, hsplit⟩
    obtain ⟨matchEnd, hend⟩ := matchRecursive_complete hcompiled hsplit hpre
    rw [resultAt, matchPattern, if_neg hne, hend]
    rfl

/-- The pattern matches the memory at the address. -/
def Matches (mem pattern : List UInt8) (mode : SearchMode) (addr : Nat) : Prop :=
  (compile pattern mode).1 ≠ [] ∧
    ∃ bytes, bytes <+: mem.drop addr ∧ Split (compile pattern mode).2 (compile pattern mode).1 bytes

/-- The result is that of a match at the address. -/
def ShowsMatch (mem pattern : List UInt8) (mode : SearchMode) (r : SearchResult) (addr : Nat) : Prop :=
  r.address = UInt16.ofNat addr ∧ r.matchedBytes <+: mem.drop addr ∧
    Split (compile pattern mode).2 (compile pattern mode).1 r.matchedBytes

/-- A search finds the first of the addresses at which the pattern matches, in order and as many as are asked for. -/
theorem searchMemory_exact (mem pattern : List UInt8) (mode : SearchMode) (maxResults : Nat) :
    ∃ hits : List Nat, hits.Pairwise (· < ·) ∧
      (∀ addr, addr ∈ hits ↔ addr < mem.length ∧ Matches mem pattern mode addr) ∧
      List.Forall₂ (ShowsMatch mem pattern mode) (searchMemory mem pattern mode maxResults) (hits.take maxResults) := by
  -- The matches are the addresses at which the compiled pattern gives a result, in their order.
  have hsearch (context : List UInt8 → Nat → Nat → List UInt8) (hne : (compile pattern mode).1 ≠ []) :
      ∃ hits : List Nat, hits.Pairwise (· < ·) ∧
        (∀ addr, addr ∈ hits ↔ addr < mem.length ∧ Matches mem pattern mode addr) ∧
        List.Forall₂ (ShowsMatch mem pattern mode)
          (collect (resultAt (compile pattern mode).1 mem (compile pattern mode).2 context) (List.range mem.length)
            maxResults) (hits.take maxResults) := by
    refine ⟨_, List.pairwise_lt_range.filter _, fun addr => ?_, forall₂_collect maxResults fun addr haddr r hr => ?_⟩
    · rw [List.mem_filter, List.mem_range]
      refine and_congr_right fun haddr => ?_
      rw [resultAt_isSome (compile_compiled pattern mode) hne haddr]
      exact (and_iff_right hne).symm
    · exact resultAt_sound (compile_compiled pattern mode) (List.mem_range.mp haddr) hr
  -- Empty memory and an empty pattern have no match.
  have hnone (h : mem = [] ∨ (compile pattern mode).1 = []) :
      ∃ hits : List Nat, hits.Pairwise (· < ·) ∧
        (∀ addr, addr ∈ hits ↔ addr < mem.length ∧ Matches mem pattern mode addr) ∧
        List.Forall₂ (ShowsMatch mem pattern mode) [] (hits.take maxResults) := by
    refine ⟨[], .nil, fun addr => ?_, by simp⟩
    rcases h with rfl | h <;> simp [Matches, *]
  unfold searchMemory
  split
  case isTrue hempty =>
    refine hnone (hempty.imp_right fun hpattern => ?_)
    subst hpattern
    cases mode <;> rfl
  case isFalse =>
    cases mode with
    | HEX =>
      dsimp only
      split
      case isTrue h => exact hnone (Or.inr h)
      case isFalse h => exact hsearch hexContext h
    | TEXT =>
      dsimp only
      split
      case isTrue h => exact hnone (Or.inr h)
      case isFalse h => exact hsearch textContext h
    | ASM => exact hnone (Or.inr rfl)

end Koncepcja.Debug.SearchEngine
