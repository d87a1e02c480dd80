import Koncepcja.Lib.Fields
import Koncepcja.Lib.Separator
import Koncepcja.Lib.Stepwise
import Mathlib.Data.UInt
import Mathlib.Logic.Function.Basic

/-!
# Symbol Files

`src/symfile.cpp`: labels, breakpoints and entry points of a program, kept in two maps and two lists, and
their text form.

A text is the list of its characters, one for each byte. The maps are partial functions; the one that is
written out is walked in the order of its keys.

## Main results

- `consistent_addSymbol`: a label keeps the maps inverse to each other exactly where its name is not that
  of another address.
- `load_saveTo`: a consistent table is read back from its text.
- `symfile_consistent_iff`: both, over every sequence of calls.
-/

namespace Koncepcja.Debug

open Separator (upTo)
open Stepwise

/-! ## The store -/

@[ext]
structure Symfile where
  breakpoints : List UInt16 := []
  entrypoints : List UInt16 := []
  symbols : UInt16 → Option (List Char) := fun _ => none
  nameToAddr : List Char → Option UInt16 := fun _ => none

namespace Symfile

def addBreakpoint (s : Symfile) (addr : UInt16) : Symfile := { s with breakpoints := s.breakpoints ++ [addr] }

def addEntrypoint (s : Symfile) (addr : UInt16) : Symfile := { s with entrypoints := s.entrypoints ++ [addr] }

/-- The reverse mapping of an address's old name is removed. -/
def addSymbol (s : Symfile) (addr : UInt16) (symbol : List Char) : Symfile :=
  let names :=
    match s.symbols addr with
    | some old => Function.update s.nameToAddr old none
    | none => s.nameToAddr
  { s with
    symbols := Function.update s.symbols addr (some symbol)
    nameToAddr := Function.update names symbol (some addr) }

def delSymbol (s : Symfile) (name : List Char) : Symfile :=
  match s.nameToAddr name with
  | some addr =>
    { s with
      symbols := Function.update s.symbols addr none
      nameToAddr := Function.update s.nameToAddr name none }
  | none => s

/-- `lookupAddr`: the name, or an empty one. -/
def lookupAddr (s : Symfile) (addr : UInt16) : List Char := (s.symbols addr).getD []

/-- `lookupName`: the address, if there is one. -/
def lookupName (s : Symfile) (name : List Char) : Option UInt16 := s.nameToAddr name

/-! ## The text -/

/-- `std::setw(4)` in `std::hex`: an address has no more than four digits. -/
def hex4 (addr : UInt16) : List Char :=
  [Nat.digitChar (addr.toNat / 4096), Nat.digitChar (addr.toNat / 256 % 16), Nat.digitChar (addr.toNat / 16 % 16),
    Nat.digitChar (addr.toNat % 16)]

/-- The keys in order. -/
def addresses : List UInt16 := (List.range 65536).map UInt16.ofNat

/-- The entries of `symbols`. -/
def entries (s : Symfile) : List (UInt16 × List Char) :=
  addresses.filterMap fun addr => (s.symbols addr).map fun symbol => (addr, symbol)

/-- The lines of `SaveTo`. -/
def lines (s : Symfile) : List (List Char) :=
  [[';', ' ', 'l', 'a', 'b', 'e', 'l', 's']] ++
    s.entries.map (fun e => ['a', 'l', ' ', ' ', '$'] ++ hex4 e.1 ++ [' ', '.'] ++ e.2) ++
    [[';', ' ', 'b', 'r', 'e', 'a', 'k', 'p', 'o', 'i', 'n', 't', 's']] ++
    s.breakpoints.map (fun addr => ['b', ' ', ' ', '$'] ++ hex4 addr) ++
    [[';', ' ', 'e', 'n', 't', 'r', 'y', 'p', 'o', 'i', 'n', 't', 's']] ++
    s.entrypoints.map fun addr => ['d', ' ', ' ', '$'] ++ hex4 addr

/-- `SaveTo`, where the file can be written. -/
def saveTo (s : Symfile) : List Char := s.lines.flatMap (· ++ ['\n'])

/-- `stringutils::trim`. -/
def trim (c : Char) (s : List Char) : List Char := ((s.dropWhile (· == c)).reverse.dropWhile (· == c)).reverse

/-- The value of a hexadecimal digit. -/
def hexValue (c : Char) : Option Nat :=
  if '0' ≤ c ∧ c ≤ '9' then some (c.toNat - '0'.toNat)
  else if 'a' ≤ c ∧ c ≤ 'f' then some (c.toNat - 'a'.toNat + 10)
  else if 'A' ≤ c ∧ c ≤ 'F' then some (c.toNat - 'A'.toNat + 10)
  else none

/-- `std::from_chars` in base 16, with nothing left behind the number. -/
def fromCharsHex : Nat → List Char → Option Nat
  | value, [] => some value
  | value, c :: cs =>
    match hexValue c with
    | some digit => fromCharsHex (value * 16 + digit) cs
    | none => none

/-- `parse_hex_addr`: a number above 16 bits is refused, also one that has no place in an `unsigned`. -/
def parseHexAddr (field : List Char) : Option UInt16 :=
  if field.length < 2 ∨ field.head? ≠ some '$' then none
  else
    match fromCharsHex 0 (field.drop 1) with
    | some value => if 0xffff < value then none else some (UInt16.ofNat value)
    | none => none

/-- The fields of a line, without a comment. -/
def fieldsOf (line : List Char) : List (List Char) :=
  (Fields.fields ' ' (trim ' ' (upTo ';' line))).filter (· ≠ [])

/-- One line of the constructor's loop; a line in error is passed over. -/
def readLine (s : Symfile) (line : List Char) : Symfile :=
  match fieldsOf line with
  | [] => s
  | kind :: fields =>
    let addr := fields.head?.bind parseHexAddr
    if kind = ['a', 'l'] then
      match addr, fields[1]? with
      | some addr, some ('.' :: symbol) => s.addSymbol addr symbol
      | _, _ => s
    else if kind = ['b'] ∨ kind = ['b', 'r', 'e', 'a', 'k'] then
      match addr with
      | some addr => s.addBreakpoint addr
      | none => s
    else if kind = ['d'] then
      match addr with
      | some addr => s.addEntrypoint addr
      | none => s
    else s

/-- The constructor, on the text of a readable file. -/
def load (text : List Char) : Symfile := (Fields.fields '\n' text).foldl readLine {}

end Symfile

/-! ## Calls -/

inductive SymCall
  | addSymbol (addr : UInt16) (symbol : List Char)
  | delSymbol (name : List Char)
  | addBreakpoint (addr : UInt16)
  | addEntrypoint (addr : UInt16)
  deriving DecidableEq, Repr

def Symfile.call (s : Symfile) : SymCall → Symfile
  | .addSymbol addr symbol => s.addSymbol addr symbol
  | .delSymbol name => s.delSymbol name
  | .addBreakpoint addr => s.addBreakpoint addr
  | .addEntrypoint addr => s.addEntrypoint addr

/-- A name finds exactly the address that has it. -/
def Symfile.Consistent (s : Symfile) : Prop := ∀ name addr, s.lookupName name = some addr ↔ s.symbols addr = some name

/-- A name without a blank, a line break or a semicolon. -/
def Clean (name : List Char) : Prop := ' ' ∉ name ∧ '\n' ∉ name ∧ ';' ∉ name

/-- Clean names come back from the text, with everything else. -/
def Symfile.Reloads (s : Symfile) : Prop :=
  (∀ addr name, s.symbols addr = some name → Clean name) → Symfile.load s.saveTo = s

/-- The name of a label is not that of another address. -/
def OwnName (s : Symfile) : SymCall → Prop
  | .addSymbol addr symbol => ∀ other, s.lookupName symbol = some other → other = addr
  | _ => True

/-! ## The maps -/

theorem symbols_addSymbol (s : Symfile) (addr b : UInt16) (symbol : List Char) :
    (s.addSymbol addr symbol).symbols b = if b = addr then some symbol else s.symbols b :=
  Function.update_apply s.symbols addr (some symbol) b

theorem lookupName_addSymbol (s : Symfile) (addr : UInt16) (symbol name : List Char) :
    (s.addSymbol addr symbol).lookupName name =
      if name = symbol then some addr else if s.symbols addr = some name then none else s.lookupName name := by
  simp only [Symfile.lookupName, Symfile.addSymbol, Function.update_apply]
  by_cases hname : name = symbol
  · rw [if_pos hname, if_pos hname]
  · rw [if_neg hname, if_neg hname]
    cases hold : s.symbols addr with
    | none => simp
    | some old =>
      by_cases heq : name = old
      · simp [heq]
      · simp [heq, Ne.symm heq]

/-- A label that takes another address's name leaves the name there. -/
theorem consistent_addSymbol {s : Symfile} (h : s.Consistent) (addr : UInt16) (symbol : List Char) :
    (s.addSymbol addr symbol).Consistent ↔ ∀ other, s.lookupName symbol = some other → other = addr := by
  constructor
  · intro hadd other hother
    by_contra hne
    have hstays : (s.addSymbol addr symbol).symbols other = some symbol := by
      rw [symbols_addSymbol, if_neg hne]
      exact (h symbol other).1 hother
    have hfound := (hadd symbol other).2 hstays
    rw [lookupName_addSymbol, if_pos rfl] at hfound
    exact hne (Option.some.inj hfound).symm
  · intro hown name b
    rw [symbols_addSymbol, lookupName_addSymbol]
    by_cases hname : name = symbol <;> by_cases hb : b = addr
    · simp [hname, hb]
    · -- the name was at no other address
      have hno : s.symbols b ≠ some symbol := fun hat => hb (hown b ((h symbol b).2 hat))
      simp [hname, hb, hno, Ne.symm hb]
    · -- the old name of the address finds nothing
      subst hb
      rw [if_neg hname, if_pos rfl]
      have hsome : some symbol ≠ some name := fun heq => hname (Option.some.inj heq).symm
      refine iff_of_false (fun hfound => ?_) hsome
      split at hfound
      · exact Option.some_ne_none b hfound.symm
      · rename_i hnot
        exact hnot ((h name b).1 hfound)
    · rw [if_neg hname, if_neg hb]
      split
      · rename_i hat
        refine iff_of_false (fun hnone => Option.some_ne_none b hnone.symm) (fun hat' => hb ?_)
        have hback := ((h name b).2 hat').symm.trans ((h name addr).2 hat)
        exact Option.some.inj hback
      · exact h name b

theorem consistent_delSymbol {s : Symfile} (h : s.Consistent) (name : List Char) : (s.delSymbol name).Consistent := by
  intro n b
  cases hfound : s.nameToAddr name with
  | none =>
    rw [Symfile.delSymbol, hfound]
    exact h n b
  | some addr =>
    have hat : s.symbols addr = some name := (h name addr).1 hfound
    rw [Symfile.delSymbol, hfound]
    show Function.update s.nameToAddr name none n = some b ↔ Function.update s.symbols addr none b = some n
    rw [Function.update_apply, Function.update_apply]
    by_cases hn : n = name <;> by_cases hb : b = addr
    · simp [hn, hb]
    · have hno : s.symbols b ≠ some name := fun hat' =>
        hb (Option.some.inj (((h name b).2 hat').symm.trans hfound))
      simp [hn, hb, hno]
    · have hno : s.nameToAddr n ≠ some addr := fun hat' =>
        hn (Option.some.inj (((h n addr).1 hat').symm.trans hat))
      simp [hn, hb, hno]
    · rw [if_neg hn, if_neg hb]
      exact h n b

theorem consistent_call {s : Symfile} (h : s.Consistent) (c : SymCall) : (s.call c).Consistent ↔ OwnName s c := by
  cases c with
  | addSymbol addr symbol => exact consistent_addSymbol h addr symbol
  | delSymbol name => exact iff_of_true (consistent_delSymbol h name) trivial
  | addBreakpoint addr => exact iff_of_true h trivial
  | addEntrypoint addr => exact iff_of_true h trivial

/-! ## Numbers -/

theorem hexValue_digitChar : ∀ d < 16, Symfile.hexValue (Nat.digitChar d) = some d ∧ Nat.digitChar d ≠ ' ' ∧
    Nat.digitChar d ≠ '\n' ∧ Nat.digitChar d ≠ ';' := by
  decide

theorem fromCharsHex_hex4 (addr : UInt16) : Symfile.fromCharsHex 0 (Symfile.hex4 addr) = some addr.toNat := by
  have hlt : addr.toNat < 65536 := addr.toNat_lt
  have h3 := (hexValue_digitChar (addr.toNat / 4096) (by omega)).1
  have h2 := (hexValue_digitChar (addr.toNat / 256 % 16) (by omega)).1
  have h1 := (hexValue_digitChar (addr.toNat / 16 % 16) (by omega)).1
  have h0 := (hexValue_digitChar (addr.toNat % 16) (by omega)).1
  simp only [Symfile.hex4, Symfile.fromCharsHex, h3, h2, h1, h0, Option.some.injEq]
  omega

theorem parseHexAddr_hex4 (addr : UInt16) : Symfile.parseHexAddr ('$' :: Symfile.hex4 addr) = some addr := by
  have hlt : addr.toNat < 65536 := addr.toNat_lt
  have hform : ¬(('$' :: Symfile.hex4 addr).length < 2 ∨ ('$' :: Symfile.hex4 addr).head? ≠ some '$') := by
    simp [Symfile.hex4]
  rw [Symfile.parseHexAddr, if_neg hform, List.drop_one, List.tail_cons, fromCharsHex_hex4]
  dsimp only
  rw [if_neg (by omega), UInt16.ofNat_toNat]

/-! ## Lines -/

/-- A field of a line. -/
structure Token (f : List Char) : Prop where
  nonempty : f ≠ []
  blank : ' ' ∉ f
  comment : ';' ∉ f
  line : '\n' ∉ f

theorem token_hex4 (addr : UInt16) : Token ('$' :: Symfile.hex4 addr) := by
  have hlt : addr.toNat < 65536 := addr.toNat_lt
  have h3 := (hexValue_digitChar (addr.toNat / 4096) (by omega)).2
  have h2 := (hexValue_digitChar (addr.toNat / 256 % 16) (by omega)).2
  have h1 := (hexValue_digitChar (addr.toNat / 16 % 16) (by omega)).2
  have h0 := (hexValue_digitChar (addr.toNat % 16) (by omega)).2
  refine ⟨List.cons_ne_nil _ _, ?_, ?_, ?_⟩
  · simp [Symfile.hex4, h3.1.symm, h2.1.symm, h1.1.symm, h0.1.symm]
  · simp [Symfile.hex4, h3.2.2.symm, h2.2.2.symm, h1.2.2.symm, h0.2.2.symm]
  · simp [Symfile.hex4, h3.2.1.symm, h2.2.1.symm, h1.2.1.symm, h0.2.1.symm]

theorem token_label {name : List Char} (h : Clean name) : Token ('.' :: name) := by
  refine ⟨List.cons_ne_nil _ _, ?_, ?_, ?_⟩
  · simp [h.1]
  · simp [h.2.2]
  · simp [h.2.1]

theorem trim_eq {c : Char} {s : List Char} (hhead : s.head? ≠ some c) (hlast : s.getLast? ≠ some c) :
    Symfile.trim c s = s := by
  have hkeep : ∀ t : List Char, t.head? ≠ some c → t.dropWhile (· == c) = t := by
    intro t ht
    cases t with
    | nil => rfl
    | cons x t => rw [List.dropWhile_cons_of_neg (by simpa using ht)]
  rw [Symfile.trim, hkeep s hhead, hkeep s.reverse (by rwa [List.head?_reverse]), List.reverse_reverse]

/-- Tokens with a single blank between them, behind one with two. -/
def spaced (kind : List Char) (field : List Char) (rest : List (List Char)) : List Char :=
  kind ++ ' ' :: Fields.join ' ' [] (field :: rest)

theorem spaced_last {kind field : List Char} {rest : List (List Char)} (hrest : ∀ f ∈ field :: rest, Token f) :
    (spaced kind field rest).getLast? ≠ some ' ' := by
  have hconcat := (List.eq_nil_or_concat (field :: rest)).resolve_left (List.cons_ne_nil _ _)
  obtain ⟨init, last, hlast⟩ := hconcat
  have htoken : Token last := hrest last (by rw [hlast]; simp)
  intro hblank
  rw [spaced, hlast, Fields.join, List.nil_append, List.concat_eq_append, List.flatMap_append, List.flatMap_singleton, ← List.cons_append,
    ← List.append_assoc, List.append_cons, List.getLast?_append_of_ne_nil _ htoken.nonempty] at hblank
  exact htoken.blank (List.mem_of_getLast? hblank)

theorem notMem_spaced {c : Char} (hc : c ≠ ' ') {kind field : List Char} {rest : List (List Char)} (hkind : c ∉ kind)
    (hrest : ∀ f ∈ field :: rest, c ∉ f) : c ∉ spaced kind field rest := by
  intro hmem
  rw [spaced, Fields.join, List.nil_append, List.mem_append, List.mem_cons, List.mem_flatMap] at hmem
  rcases hmem with hmem | hmem | ⟨f, hf, hmem⟩
  · exact hkind hmem
  · exact hc hmem
  · rcases List.mem_cons.1 hmem with hmem | hmem
    · exact hc hmem
    · exact hrest f hf hmem

theorem fieldsOf_spaced {kind field : List Char} {rest : List (List Char)} (hkind : Token kind)
    (hrest : ∀ f ∈ field :: rest, Token f) :
    Symfile.fieldsOf (spaced kind field rest) = kind :: field :: rest := by
  have hcomment : ';' ∉ spaced kind field rest :=
    notMem_spaced (by decide) hkind.comment fun f hf => (hrest f hf).comment
  have hhead : (spaced kind field rest).head? ≠ some ' ' := by
    intro hblank
    rw [spaced, List.head?_append_of_ne_nil _ hkind.nonempty] at hblank
    exact hkind.blank (List.mem_of_head? hblank)
  have hfields : Fields.fields ' ' (spaced kind field rest) = kind :: [] :: field :: rest := by
    have htail : Fields.fields ' ' (Fields.join ' ' [] (field :: rest)) = [] :: field :: rest :=
      Fields.fields_join [] (field :: rest) List.not_mem_nil (fun f hf => ⟨(hrest f hf).blank, (hrest f hf).nonempty⟩)
        fun hnil => absurd hnil (List.cons_ne_nil _ _)
    rw [spaced, Fields.fields, Fields.fieldsFrom_append hkind.blank, List.nil_append, Fields.fieldsFrom, if_pos rfl]
    exact congrArg (kind :: ·) htail
  have hkept : (field :: rest).filter (fun f => decide (f ≠ [])) = field :: rest := by
    rw [List.filter_eq_self]
    exact fun f hf => decide_eq_true (hrest f hf).nonempty
  rw [Symfile.fieldsOf, Separator.upTo_of_notMem hcomment, trim_eq hhead (spaced_last hrest), hfields,
    List.filter_cons, if_pos (decide_eq_true hkind.nonempty), List.filter_cons, if_neg (by simp), hkept]

theorem readLine_comment (s : Symfile) (line : List Char) : s.readLine (';' :: line) = s := by
  have hnone : Symfile.fieldsOf (';' :: line) = [] := by simp [Symfile.fieldsOf, upTo, Symfile.trim, Fields.fields,
    Fields.fieldsFrom]
  rw [Symfile.readLine, hnone]

theorem readLine_label (s : Symfile) (addr : UInt16) {name : List Char} (h : Clean name) :
    s.readLine (['a', 'l', ' ', ' ', '$'] ++ Symfile.hex4 addr ++ [' ', '.'] ++ name) = s.addSymbol addr name := by
  have hkind : Token ['a', 'l'] := ⟨by decide, by decide, by decide, by decide⟩
  have hline : ['a', 'l', ' ', ' ', '$'] ++ Symfile.hex4 addr ++ [' ', '.'] ++ name =
      spaced ['a', 'l'] ('$' :: Symfile.hex4 addr) ['.' :: name] := by
    simp [spaced, Fields.join]
  have hfields := @fieldsOf_spaced ['a', 'l'] ('$' :: Symfile.hex4 addr) ['.' :: name] hkind
    (by simpa using ⟨token_hex4 addr, token_label h⟩)
  rw [hline, Symfile.readLine, hfields]
  dsimp only
  rw [List.head?_cons, Option.bind_some, parseHexAddr_hex4, if_pos rfl]
  rfl

theorem readLine_breakpoint (s : Symfile) (addr : UInt16) :
    s.readLine (['b', ' ', ' ', '$'] ++ Symfile.hex4 addr) = s.addBreakpoint addr := by
  have hkind : Token ['b'] := ⟨by decide, by decide, by decide, by decide⟩
  have hline : ['b', ' ', ' ', '$'] ++ Symfile.hex4 addr = spaced ['b'] ('$' :: Symfile.hex4 addr) [] := by
    simp [spaced, Fields.join]
  rw [hline, Symfile.readLine, fieldsOf_spaced hkind (by simpa using token_hex4 addr)]
  dsimp only
  rw [List.head?_cons, Option.bind_some, parseHexAddr_hex4, if_neg (by decide), if_pos (Or.inl rfl)]

theorem readLine_entrypoint (s : Symfile) (addr : UInt16) :
    s.readLine (['d', ' ', ' ', '$'] ++ Symfile.hex4 addr) = s.addEntrypoint addr := by
  have hkind : Token ['d'] := ⟨by decide, by decide, by decide, by decide⟩
  have hline : ['d', ' ', ' ', '$'] ++ Symfile.hex4 addr = spaced ['d'] ('$' :: Symfile.hex4 addr) [] := by
    simp [spaced, Fields.join]
  rw [hline, Symfile.readLine, fieldsOf_spaced hkind (by simpa using token_hex4 addr)]
  dsimp only
  rw [List.head?_cons, Option.bind_some, parseHexAddr_hex4, if_neg (by decide), if_neg (by decide), if_pos rfl]

/-! ## The whole text -/

theorem nodup_addresses : Symfile.addresses.Nodup := by
  refine List.Nodup.map_on (fun a ha b hb heq => ?_) List.nodup_range
  have hmod := congrArg UInt16.toNat heq
  rw [UInt16.toNat_ofNat', UInt16.toNat_ofNat', Nat.mod_eq_of_lt (List.mem_range.1 ha),
    Nat.mod_eq_of_lt (List.mem_range.1 hb)] at hmod
  exact hmod

theorem mem_addresses (addr : UInt16) : addr ∈ Symfile.addresses :=
  List.mem_map.2 ⟨addr.toNat, List.mem_range.2 addr.toNat_lt, UInt16.ofNat_toNat⟩

/-- The labels of some addresses only. -/
def Symfile.restrict (s : Symfile) (done : List UInt16) : Symfile where
  symbols addr := if addr ∈ done then s.symbols addr else none
  nameToAddr name := (s.nameToAddr name).filter (· ∈ done)

theorem mem_concat_of_ne {addr b : UInt16} (h : b ≠ addr) (done : List UInt16) : b ∈ done ++ [addr] ↔ b ∈ done := by
  rw [List.mem_append, List.mem_singleton, or_iff_left h]

theorem restrict_skip {s : Symfile} (h : s.Consistent) {addr : UInt16} (hnone : s.symbols addr = none)
    (done : List UInt16) : s.restrict (done ++ [addr]) = s.restrict done := by
  refine Symfile.ext rfl rfl (funext fun b => ?_) (funext fun name => ?_)
  · show (if b ∈ done ++ [addr] then s.symbols b else none) = if b ∈ done then s.symbols b else none
    by_cases hb : b = addr
    · rw [hb, hnone, ite_self, ite_self]
    · rw [if_congr (mem_concat_of_ne hb done) rfl rfl]
  · show (s.nameToAddr name).filter (· ∈ done ++ [addr]) = (s.nameToAddr name).filter (· ∈ done)
    cases hfound : s.nameToAddr name with
    | none => rfl
    | some b =>
      have hb : b ≠ addr := by
        intro heq
        have hat : s.symbols b = some name := (h name b).1 hfound
        rw [heq, hnone] at hat
        exact Option.some_ne_none name hat.symm
      rw [Option.filter_some, Option.filter_some, decide_eq_decide.2 (mem_concat_of_ne hb done)]

theorem restrict_add {s : Symfile} (h : s.Consistent) {addr : UInt16} {name : List Char}
    (hsome : s.symbols addr = some name) {done : List UInt16} (hnew : addr ∉ done) :
    (s.restrict done).addSymbol addr name = s.restrict (done ++ [addr]) := by
  have hempty : (s.restrict done).symbols addr = none := if_neg hnew
  refine Symfile.ext rfl rfl (funext fun b => ?_) (funext fun n => ?_)
  · rw [symbols_addSymbol]
    show _ = if b ∈ done ++ [addr] then s.symbols b else none
    -- Both tables, address by address and name by name.
    by_cases hb : b = addr
    · rw [if_pos hb, hb, if_pos (List.mem_append_right done (List.mem_singleton_self addr)), hsome]
    · rw [if_neg hb, if_congr (mem_concat_of_ne hb done) rfl rfl]
      rfl
  · have hlookup := lookupName_addSymbol (s.restrict done) addr name n
    rw [hempty, if_neg (Option.some_ne_none n).symm] at hlookup
    refine Eq.trans hlookup ?_
    show (if n = name then some addr else (s.nameToAddr n).filter (· ∈ done)) =
      (s.nameToAddr n).filter (· ∈ done ++ [addr])
    by_cases hn : n = name
    · -- Consistency sends the name back to this address.
      have hfound : s.nameToAddr name = some addr := (h name addr).2 hsome
      rw [if_pos hn, hn, hfound, Option.filter_some, if_pos (by simp)]
    · rw [if_neg hn]
      cases hfound : s.nameToAddr n with
      | none => rfl
      | some b =>
        have hb : b ≠ addr := by
          intro heq
          have hat : s.symbols b = some n := (h n b).1 hfound
          rw [heq, hsome] at hat
          exact hn (Option.some.inj hat).symm
        rw [Option.filter_some, Option.filter_some, decide_eq_decide.2 (mem_concat_of_ne hb done)]

theorem restrict_nil (s : Symfile) : s.restrict [] = {} := by
  refine Symfile.ext rfl rfl rfl (funext fun name => ?_)
  show (s.nameToAddr name).filter (· ∈ ([] : List UInt16)) = none
  cases s.nameToAddr name <;> simp

theorem restrict_all (s : Symfile) {addrs : List UInt16} (hall : ∀ addr, addr ∈ addrs) :
    s.restrict addrs = { symbols := s.symbols, nameToAddr := s.nameToAddr } := by
  refine Symfile.ext rfl rfl (funext fun b => if_pos (hall b)) (funext fun name => ?_)
  show (s.nameToAddr name).filter (· ∈ addrs) = s.nameToAddr name
  cases s.nameToAddr name with
  | none => rfl
  | some b => rw [Option.filter_some, if_pos (decide_eq_true (hall b))]

theorem foldl_entries {s : Symfile} (h : s.Consistent) (addrs done : List UInt16) (hnodup : (done ++ addrs).Nodup) :
    (addrs.filterMap fun addr => (s.symbols addr).map fun symbol => (addr, symbol)).foldl
      (fun t e => t.addSymbol e.1 e.2) (s.restrict done) = s.restrict (done ++ addrs) := by
  induction addrs generalizing done with
  | nil => rw [List.append_nil]; rfl
  | cons addr addrs ih =>
    rw [List.append_cons] at hnodup ⊢
    have hrest := ih (done ++ [addr]) hnodup
    cases hat : s.symbols addr with
    | none =>
      rw [List.filterMap_cons_none (by rw [hat]; rfl), ← restrict_skip h hat done]
      exact hrest
    | some name =>
      have hnew : addr ∉ done := by
        have hsplit := (List.nodup_append.1 (List.nodup_append.1 hnodup).1).2.2
        exact fun hmem => hsplit addr hmem addr (List.mem_singleton_self addr) rfl
      rw [List.filterMap_cons_some (by rw [hat]; rfl), List.foldl_cons, restrict_add h hat hnew]
      exact hrest

theorem foldl_breakpoints (s : Symfile) (addrs : List UInt16) :
    addrs.foldl Symfile.addBreakpoint s = { s with breakpoints := s.breakpoints ++ addrs } := by
  induction addrs generalizing s with
  | nil => rw [List.append_nil]; rfl
  | cons addr addrs ih => rw [List.foldl_cons, ih, List.append_cons]; rfl

theorem foldl_entrypoints (s : Symfile) (addrs : List UInt16) :
    addrs.foldl Symfile.addEntrypoint s = { s with entrypoints := s.entrypoints ++ addrs } := by
  induction addrs generalizing s with
  | nil => rw [List.append_nil]; rfl
  | cons addr addrs ih => rw [List.foldl_cons, ih, List.append_cons]; rfl

theorem notMem_lines {s : Symfile} (hclean : ∀ addr name, s.symbols addr = some name → Clean name) :
    ∀ line ∈ s.lines, '\n' ∉ line := by
  have hhex : ∀ addr, '\n' ∉ Symfile.hex4 addr := fun addr hmem => (token_hex4 addr).line (List.mem_cons_of_mem _ hmem)
  intro line hline
  simp only [Symfile.lines, List.mem_append, List.mem_singleton, List.mem_map] at hline
  rcases hline with ((((rfl | ⟨e, he, rfl⟩) | rfl) | ⟨addr, -, rfl⟩) | rfl) | ⟨addr, -, rfl⟩
  · decide
  · obtain ⟨addr, -, hentry⟩ := List.mem_filterMap.1 he
    obtain ⟨name, hname, rfl⟩ := Option.map_eq_some_iff.1 hentry
    have hline := (hclean addr name hname).2.1
    simp [hhex, hline]
  · decide
  · simp [hhex]
  · decide
  · simp [hhex]

/-- **Round trip**: a consistent table with clean names is read back from its text. -/
theorem load_saveTo {s : Symfile} (h : s.Consistent) : s.Reloads := by
  intro hclean
  -- Each line that is written is read back as what it came from.
  have hlabels : ∀ t : Symfile, (s.entries.map fun e => ['a', 'l', ' ', ' ', '$'] ++ Symfile.hex4 e.1 ++ [' ', '.'] ++
      e.2).foldl Symfile.readLine t = s.entries.foldl (fun t e => t.addSymbol e.1 e.2) t := by
    intro t
    rw [List.foldl_map]
    refine List.foldl_ext _ _ t fun t e he => ?_
    obtain ⟨addr, -, hentry⟩ := List.mem_filterMap.1 he
    obtain ⟨name, hname, rfl⟩ := Option.map_eq_some_iff.1 hentry
    exact readLine_label t addr (hclean addr name hname)
  have hbreaks : ∀ t : Symfile, (s.breakpoints.map fun addr => ['b', ' ', ' ', '$'] ++ Symfile.hex4 addr).foldl
      Symfile.readLine t = s.breakpoints.foldl Symfile.addBreakpoint t := by
    intro t
    rw [List.foldl_map]
    exact List.foldl_ext _ _ t fun t addr _ => readLine_breakpoint t addr
  have hentries : ∀ t : Symfile, (s.entrypoints.map fun addr => ['d', ' ', ' ', '$'] ++ Symfile.hex4 addr).foldl
      Symfile.readLine t = s.entrypoints.foldl Symfile.addEntrypoint t := by
    intro t
    rw [List.foldl_map]
    exact List.foldl_ext _ _ t fun t addr _ => readLine_entrypoint t addr
  -- The entries fill the two tables; every address is met once.
  have hmaps := foldl_entries h Symfile.addresses [] (by rw [List.nil_append]; exact nodup_addresses)
  rw [List.nil_append] at hmaps
  rw [restrict_all s mem_addresses, restrict_nil] at hmaps
  rw [← Symfile.entries] at hmaps
  rw [Symfile.load, Symfile.saveTo, Fields.fields_terminated (notMem_lines hclean), Symfile.lines]
  simp only [List.foldl_append, List.foldl_cons, List.foldl_nil, readLine_comment, hlabels, hbreaks, hentries]
  rw [hmaps, foldl_breakpoints, foldl_entrypoints]
  rfl

/-- **Symbols.** After every part of a sequence of calls the maps agree and the text reads back, exactly
    where no label is given the name of another address. -/
theorem symfile_consistent_iff (calls : List SymCall) :
    (∀ part, part <+: calls → (part.foldl Symfile.call {}).Consistent ∧ (part.foldl Symfile.call {}).Reloads) ↔
      AllOk Symfile.call OwnName {} calls := by
  have hinv : ∀ s : Symfile, s.Consistent ∧ s.Reloads ↔ s.Consistent := fun s => and_iff_left_of_imp load_saveTo
  have hstart : ({} : Symfile).Consistent := fun name addr => by simp [Symfile.lookupName]
  simp only [hinv]
  exact @forall_prefix_iff Symfile SymCall Symfile.call (fun _ => True) Symfile.Consistent OwnName
    (fun _ _ _ => trivial) (fun _ c _ hs => consistent_call hs c) {} trivial hstart calls

/-- Two labels of one name: the first address keeps the name, and the name finds the second only. -/
theorem symfile_shared_name : ¬∀ calls : List SymCall, (calls.foldl Symfile.call {}).Consistent := by
  intro hall
  have hrun := hall [.addSymbol 0x100 ['n'], .addSymbol 0x200 ['n']]
  exact absurd ((hrun ['n'] 0x100).2 rfl) (by decide)

end Koncepcja.Debug
