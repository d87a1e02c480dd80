import Koncepcja.Debug.Expression
import Mathlib

/-!
# Debugger Expressions Parse Back

The text of a tree is tokenised into the tokens of the tree, and these are parsed into the tree again: an operation
is in parentheses, and what stands between them is one operation of one level.

## Main results

- `lexes_exprToString`: the tokens of a text.
- `parses_tokens`: the tree of the tokens.
- `exprParse_exprToString`: the tree of the text.
-/

namespace Koncepcja.Expression

/-! ## Token streams -/

/-- The lexer goes on with these tokens. -/
inductive Tokenises : Lexer → List Token → Prop where
  | nil (l : Lexer) : Tokenises l []
  | cons {l l' t ts} : l.next = .ok (t, l') → Tokenises l' ts → Tokenises l (t :: ts)

/-- The text is read as these tokens, whatever stands ahead of it. -/
def Lexes (cs : List Char) (ts : List Token) : Prop := ∀ flag, Tokenises { rest := cs, afterOperand := flag } ts

/-- What follows does not belong to a number or a word ahead of it. -/
def Ends (cs : List Char) : Prop := ∀ c ∈ cs.head?, identChar c = false

variable {cs : List Char} {ts : List Token}

theorem lexes_cons {text : List Char} {t : Token} (hraw : ∀ flag, nextRaw flag text = .ok (t, cs)) (h : Lexes cs ts) :
    Lexes text (t :: ts) := by
  intro flag
  have hnext : Lexer.next { rest := text, afterOperand := flag } = .ok (t, { rest := cs, afterOperand := t.endsOperand }) := by
    rw [Lexer.next, hraw]
    rfl
  exact Tokenises.cons hnext (h _)

theorem nextRaw_single {c : Char} {t : Token} (hspace : isspace c = false) (ht : single c = some t) (flag : Bool) :
    nextRaw flag (c :: cs) = .ok (t, cs) := by
  rw [nextRaw, List.dropWhile_cons_of_neg (by rw [hspace]; exact Bool.false_ne_true)]
  dsimp only
  rw [ht]

theorem lexes_single {c : Char} {t : Token} (hspace : isspace c = false) (ht : single c = some t) (h : Lexes cs ts) :
    Lexes (c :: cs) (t :: ts) :=
  lexes_cons (nextRaw_single hspace ht) h

theorem lexes_comparison {c : Char} {r : Token × List Char} {rest : List Char} (hspace : isspace c = false)
    (hsingle : single c = none) (hr : comparison c rest = some r) (h : Lexes r.2 ts) :
    Lexes (c :: rest) (r.1 :: ts) := by
  refine lexes_cons (fun flag => ?_) h
  rw [nextRaw, List.dropWhile_cons_of_neg (by rw [hspace]; exact Bool.false_ne_true)]
  dsimp only
  rw [hsingle]
  dsimp only
  rw [hr]

/-- A character that begins a number or a word. -/
structure Begins (c : Char) : Prop where
  space : isspace c = false
  single : Expression.single c = none
  comparison : ∀ rest, Expression.comparison c rest = none

theorem nextRaw_word {c : Char} (hc : Begins c) (flag : Bool) : nextRaw flag (c :: cs) = word flag c cs := by
  rw [nextRaw, List.dropWhile_cons_of_neg (by rw [hc.space]; exact Bool.false_ne_true)]
  dsimp only
  rw [hc.single]
  dsimp only
  rw [hc.comparison]

theorem lexes_space (h : Lexes cs ts) : Lexes (' ' :: cs) ts := by
  intro flag
  cases h flag with
  | nil => exact Tokenises.nil _
  | cons hnext hrest =>
    refine Tokenises.cons ?_ hrest
    rw [← hnext]
    rfl

theorem lexes_eof : Lexes [] [.eof] := lexes_cons (fun _ => rfl) fun _ => Tokenises.nil _

/-! ## Numbers and words -/

theorem identChar_ne {c d : Char} (hc : identChar c = true) (hd : identChar d = false) : c ≠ d := by
  rintro rfl
  rw [hc] at hd
  cases hd

theorem toNat_of_identChar {c : Char} (h : identChar c = true) : 0x27 ≤ c.toNat := by
  rw [identChar] at h
  simp only [Bool.or_eq_true, decide_eq_true_eq] at h
  rcases h with (h | rfl) | rfl
  · simp only [Char.isAlphanum, Char.isAlpha, Char.isUpper, Char.isLower, Char.isDigit, Bool.or_eq_true,
      Bool.and_eq_true, decide_eq_true_eq, UInt32.le_iff_toNat_le, ge_iff_le] at h
    rw [Char.toNat]
    have h65 : 'A'.val.toNat = 65 := rfl
    have h97 : 'a'.val.toNat = 97 := rfl
    have h48 : '0'.val.toNat = 48 := rfl
    omega
  · decide
  · decide

theorem single_of_identChar {c : Char} (h : identChar c = true) : single c = none := by
  have hne : ∀ d, identChar d = false → (c == d) = false := fun d hd => beq_false_of_ne (identChar_ne h hd)
  simp only [single, List.lookup_cons, hne '(' rfl, hne ')' rfl, hne ',' rfl, hne '+' rfl, hne '-' rfl, hne '*' rfl,
    hne '/' rfl, List.lookup_nil]

theorem comparison_of_identChar {c : Char} (h : identChar c = true) (rest : List Char) : comparison c rest = none := by
  have hne : ∀ d, identChar d = false → c ≠ d := fun d hd => identChar_ne h hd
  rw [comparison, if_neg (hne '<' rfl), if_neg (hne '>' rfl), if_neg (hne '=' rfl), if_neg fun hor => hne '!' rfl hor.1]

theorem begins_of_identChar {c : Char} (h : identChar c = true) : Begins c where
  space := by
    have hge := toNat_of_identChar h
    have hne : c ≠ ' ' := identChar_ne h rfl
    simp [isspace, hne]
    omega
  single := single_of_identChar h
  comparison := comparison_of_identChar h

theorem takeWhile_ends {p : Char → Bool} (hp : ∀ c, p c = true → identChar c = true) {text : List Char}
    (htext : ∀ c ∈ text, p c = true) (hcs : Ends cs) :
    (text ++ cs).takeWhile p = text ∧ (text ++ cs).dropWhile p = cs := by
  have hnone : cs.takeWhile p = [] ∧ cs.dropWhile p = cs := by
    cases cs with
    | nil => exact ⟨rfl, rfl⟩
    | cons c cs =>
      have hc : p c ≠ true := fun hpc => Bool.false_ne_true ((hcs c rfl).symm.trans (hp c hpc))
      exact ⟨List.takeWhile_cons_of_neg hc, List.dropWhile_cons_of_neg hc⟩
  constructor
  · rw [List.takeWhile_append_of_pos htext, hnone.1, List.append_nil]
  · rw [List.dropWhile_append_of_pos htext, hnone.2]

theorem parseNumber_write {base : Nat} {isDigit : Char → Bool} {msg : List Char} (hbase : 1 < base)
    (hsixteen : base ≤ 16) (hdigit : ∀ d < base, isDigit (Radix.digitChar d) = true)
    (hident : ∀ c, isDigit c = true → identChar c = true) {v : BitVec 32} (hcs : Ends cs) :
    parseNumber base isDigit msg (Radix.write base v.toNat ++ cs) = .ok (.number v, cs) := by
  have hall : ∀ c ∈ Radix.write base v.toNat, isDigit c = true := by
    intro c hc
    obtain ⟨d, hd, rfl⟩ := Radix.write_digits hbase hc
    exact hdigit d hd
  obtain ⟨htake, hdrop⟩ := takeWhile_ends hident hall hcs
  have hlt : v.toNat < 2 ^ 64 := Nat.lt_trans v.isLt (by decide)
  rw [parseNumber, htake, hdrop, if_neg (Radix.write_ne_nil base _), Radix.read_write hbase hsixteen, if_pos hlt,
    BitVec.ofNat_toNat, BitVec.setWidth_eq]

theorem identChar_of_isDigit {c : Char} (h : c.isDigit = true) : identChar c = true := by
  simp [identChar, Char.isAlphanum, h]

theorem identChar_of_isxdigit {c : Char} (h : isxdigit c = true) : identChar c = true := by
  simp only [isxdigit, Bool.or_eq_true, Bool.and_eq_true, decide_eq_true_eq, Char.le_def, UInt32.le_iff_toNat_le] at h
  simp only [identChar, Char.isAlphanum, Char.isAlpha, Char.isUpper, Char.isLower, Bool.or_eq_true,
      Bool.and_eq_true, decide_eq_true_eq, UInt32.le_iff_toNat_le, ge_iff_le]
  have hf : 'f'.val.toNat ≤ 'z'.val.toNat := by decide
  have hF : 'F'.val.toNat ≤ 'Z'.val.toNat := by decide
  rcases h with (hdigit | hlow) | hup
  · exact Or.inl (Or.inl (Or.inr hdigit))
  · exact Or.inl (Or.inl (Or.inl (Or.inr ⟨hlow.1, Nat.le_trans hlow.2 hf⟩)))
  · exact Or.inl (Or.inl (Or.inl (Or.inl ⟨hup.1, Nat.le_trans hup.2 hF⟩)))
theorem begins_hash : Begins '#' where
  space := rfl
  single := rfl
  comparison := fun _ => rfl

theorem parseHex_write {v : BitVec 32} (hcs : Ends cs) :
    parseHex (Radix.write 16 v.toNat ++ cs) = .ok (.number v, cs) := by
  have hdigit : ∀ d < 16, isxdigit (Radix.digitChar d) = true := by decide
  exact parseNumber_write (by decide) (Nat.le_refl 16) hdigit (fun _ => identChar_of_isxdigit) hcs

theorem parseDecimal_write {v : BitVec 32} (hcs : Ends cs) :
    parseDecimal (Radix.write 10 v.toNat ++ cs) = .ok (.number v, cs) := by
  have hdigit : ∀ d < 10, (Radix.digitChar d).isDigit = true := by decide
  exact parseNumber_write (by decide) (by decide) hdigit (fun _ => identChar_of_isDigit) hcs

theorem word_digit {c : Char} {rest : List Char} (hc : c.isDigit = true) (hx : rest.head? ≠ some 'x')
    (hX : rest.head? ≠ some 'X') (flag : Bool) : word flag c rest = parseDecimal (c :: rest) := by
  have hne : ∀ d : Char, d.isDigit = false → c ≠ d := by
    rintro d hd rfl
    rw [hc] at hd
    cases hd
  have hprefixes : ¬(c = '#' ∨ c = '&' ∨ c = '$') := by
    rintro (h | h | h)
    · exact hne '#' rfl h
    · exact hne '&' rfl h
    · exact hne '$' rfl h
  rw [word, if_neg fun h => hne '&' rfl h.1, if_neg fun h => hne '%' rfl h.1, if_neg hprefixes,
    if_neg fun h => h.2.elim hx hX, if_neg (hne '%' rfl), if_pos hc]

theorem head?_append_not {p : Char → Prop} {text : List Char} (htext : ∀ c ∈ text, ¬p c) (hcs : ∀ c ∈ cs.head?, ¬p c) :
    ∀ c ∈ (text ++ cs).head?, ¬p c := by
  cases text with
  | nil => exact hcs
  | cons d text =>
    intro c hc
    exact htext c (by simp_all)

theorem lexes_decimal {v : BitVec 32} (hcs : Ends cs) (h : Lexes cs ts) :
    Lexes (Radix.write 10 v.toNat ++ cs) (.number v :: ts) := by
  have hall : ∀ c ∈ Radix.write 10 v.toNat, c.isDigit = true := by
    intro c hc
    obtain ⟨d, hd, rfl⟩ := Radix.write_digits (by decide) hc
    have hdigit : ∀ d < 10, (Radix.digitChar d).isDigit = true := by decide
    exact hdigit d hd
  refine lexes_cons (fun flag => ?_) h
  rw [← parseDecimal_write hcs]
  cases hw : Radix.write 10 v.toNat with
  | nil => exact absurd hw (Radix.write_ne_nil 10 _)
  | cons c rest =>
    rw [hw] at hall
    have hc : c.isDigit = true := hall c List.mem_cons_self
    -- Digits alone follow, so the word is not taken for a hexadecimal one.
    have hrest : ∀ x : Char, x.isDigit = false → identChar x = true → (rest ++ cs).head? ≠ some x := by
      intro x hx hident hhead
      refine head?_append_not (p := (· = x)) ?_ ?_ x (Option.mem_def.mpr hhead) rfl
      · rintro y hy rfl
        rw [hall y (List.mem_cons_of_mem c hy)] at hx
        cases hx
      · rintro y hy rfl
        rw [hcs y hy] at hident
        cases hident
    rw [List.cons_append, nextRaw_word (begins_of_identChar (identChar_of_isDigit hc)),
      word_digit hc (hrest 'x' rfl rfl) (hrest 'X' rfl rfl)]

theorem lexes_hex {v : BitVec 32} (hcs : Ends cs) (h : Lexes cs ts) :
    Lexes ('#' :: Radix.write 16 v.toNat ++ cs) (.number v :: ts) := by
  refine lexes_cons (fun flag => ?_) h
  rw [List.cons_append, nextRaw_word begins_hash, ← parseHex_write hcs]
  rfl

theorem lexes_literalStr {v : BitVec 32} (hcs : Ends cs) (h : Lexes cs ts) :
    Lexes (literalStr v ++ cs) (.number v :: ts) := by
  rw [literalStr]
  split
  · exact lexes_hex hcs h
  · exact lexes_decimal hcs h

/-- The characters that an identifier begins with. -/
def startChar (c : Char) : Prop := c.isAlpha = true ∨ c = '_' ∨ c = '\''

theorem identChar_of_startChar {c : Char} (h : startChar c) : identChar c = true := by
  rcases h with h | rfl | rfl
  · simp [identChar, Char.isAlphanum, h]
  · rfl
  · rfl

theorem isDigit_of_startChar {c : Char} (h : startChar c) : c.isDigit = false := by
  rcases h with h | rfl | rfl
  · by_contra hdigit
    simp only [Char.isAlpha, Char.isUpper, Char.isLower, Char.isDigit, Bool.or_eq_true, Bool.and_eq_true,
      decide_eq_true_eq, UInt32.le_iff_toNat_le, ge_iff_le, Bool.not_eq_false] at h hdigit
    have h65 : 'A'.val.toNat = 65 := rfl
    have h97 : 'a'.val.toNat = 97 := rfl
    have h57 : '9'.val.toNat = 57 := rfl
    omega
  · rfl
  · rfl

theorem word_start {c : Char} {rest : List Char} (hc : startChar c) (flag : Bool) :
    word flag c rest = .ok (parseIdent (c :: rest)) := by
  have hstart : c.isAlpha = true ∨ c = '_' ∨ c = '\'' := hc
  have hident := identChar_of_startChar hc
  have hdigit := isDigit_of_startChar hc
  have hprefixes : ¬(c = '#' ∨ c = '&' ∨ c = '$') := by
    rintro (h | h | h)
    · exact identChar_ne hident rfl h
    · exact identChar_ne hident rfl h
    · exact identChar_ne hident rfl h
  have hzero : ¬(c = '0' ∧ (rest.head? = some 'x' ∨ rest.head? = some 'X')) := by
    rintro ⟨rfl, -⟩
    cases hdigit
  rw [word, if_neg fun h => identChar_ne hident rfl h.1, if_neg fun h => identChar_ne hident rfl h.1, if_neg hprefixes,
    if_neg hzero, if_neg (identChar_ne hident rfl), if_neg (by rw [hdigit]; exact Bool.false_ne_true), if_pos hstart]

/-- The text is an identifier. -/
structure IsName (name : List Char) : Prop where
  start : ∃ c ∈ name.head?, startChar c
  chars : ∀ c ∈ name, identChar c = true

theorem lexes_name {name : List Char} (hname : IsName name) (hcs : Ends cs) (h : Lexes cs ts) :
    Lexes (name ++ cs) (.ident name :: ts) := by
  refine lexes_cons (fun flag => ?_) h
  obtain ⟨htake, hdrop⟩ := takeWhile_ends (fun _ => id) hname.chars hcs
  obtain ⟨c, hc, hstart⟩ := hname.start
  cases name with
  | nil => cases hc
  | cons d rest =>
    obtain rfl : d = c := Option.some.inj hc
    rw [List.cons_append, nextRaw_word (begins_of_identChar (identChar_of_startChar hstart)), word_start hstart,
      ← List.cons_append, parseIdent, htake, hdrop]

/-! ## The names that are known -/

theorem identChar_of_toLower {c : Char} (h : identChar c.toLower = true) : identChar c = true := by
  by_cases hupper : c.isUpper = true
  · simp [identChar, Char.isAlphanum, Char.isAlpha, hupper]
  · rw [Char.toLower, dif_neg] at h
    · exact h
    · simpa [Char.isUpper] using hupper

theorem startChar_of_toLower {c : Char} (h : startChar c.toLower) : startChar c := by
  by_cases hupper : c.isUpper = true
  · exact Or.inl (by simp [Char.isAlpha, hupper])
  · rw [Char.toLower, dif_neg] at h
    · exact h
    · simpa [Char.isUpper] using hupper

theorem isName_of_lower {name : List Char} (h : IsName (lower name)) : IsName name where
  start := by
    obtain ⟨c, hc, hstart⟩ := h.start
    cases name with
    | nil => cases hc
    | cons d rest =>
      obtain rfl : d.toLower = c := Option.some.inj hc
      exact ⟨d, rfl, startChar_of_toLower hstart⟩
  chars := fun c hc => identChar_of_toLower (h.chars _ (List.mem_map_of_mem hc))

/-- An identifier that is not one of the word operators. -/
def properName (name : List Char) : Bool :=
  (name.head?.any Char.isAlpha && name.all identChar) && !wordOperators.contains name

theorem isName_of_properName {name : List Char} (h : properName name = true) : IsName name where
  start := by
    simp only [properName, Bool.and_eq_true, Option.any_eq_true] at h
    obtain ⟨c, hc, halpha⟩ := h.1.1
    exact ⟨c, hc, Or.inl halpha⟩
  chars := by
    simp only [properName, Bool.and_eq_true, List.all_eq_true] at h
    exact h.1.2

theorem variableNames_proper : variableNames.all (fun n => properName n.toList) = true := by decide

theorem functionNames_proper :
    functionNames.all (fun n => properName n.toList && decide (lower n.toList = n.toList)) = true := by decide

theorem proper_of_variableKnown {name : List Char} (h : variableKnown name = true) : properName (lower name) = true := by
  rw [variableKnown, List.any_eq_true] at h
  obtain ⟨n, hn, heq⟩ := h
  rw [← of_decide_eq_true heq]
  exact List.all_eq_true.mp variableNames_proper n hn

theorem proper_of_functionKnown {name : List Char} (h : functionKnown name = true) :
    properName name = true ∧ lower name = name := by
  rw [functionKnown, List.any_eq_true] at h
  obtain ⟨n, hn, heq⟩ := h
  obtain rfl := of_decide_eq_true heq
  have hall := List.all_eq_true.mp functionNames_proper n hn
  rw [Bool.and_eq_true] at hall
  exact ⟨hall.1, of_decide_eq_true hall.2⟩

/-! ## The tokens of a text -/

def BinaryOp.token : BinaryOp → Token
  | add => .plus
  | sub => .minus
  | mul => .star
  | div => .slash
  | mod => .ident ['m', 'o', 'd']
  | and => .ident ['a', 'n', 'd']
  | or => .ident ['o', 'r']
  | xor => .ident ['x', 'o', 'r']
  | lt => .lt
  | le => .le
  | eq => .eq
  | ge => .ge
  | gt => .gt
  | ne => .ne

/-- The tokens of `exprToString`. -/
def tokens : ExprNode → List Token
  | .literal v => [.number v]
  | .var name => [.ident name]
  | .unaryNot operand => .ident ['n', 'o', 't'] :: tokens operand
  | .binaryOp op left right => .lparen :: (tokens left ++ op.token :: (tokens right ++ [.rparen]))
  | .functionCall name arg => .ident name :: .lparen :: (tokens arg ++ [.rparen])

/-- What follows cannot be taken for the second character of a comparison. -/
def Apart (cs : List Char) : Prop := cs.head? ≠ some '=' ∧ cs.head? ≠ some '>'

theorem apart_of_identChar {c : Char} (h : identChar c = true) : Apart (c :: cs) := by
  have hne : ∀ d, identChar d = false → (c :: cs).head? ≠ some d := fun d hd hhead =>
    identChar_ne h hd (Option.some.inj hhead)
  exact ⟨hne '=' rfl, hne '>' rfl⟩

theorem apart_of_isName {name : List Char} (h : IsName name) : Apart (name ++ cs) := by
  obtain ⟨c, hc, hstart⟩ := h.start
  cases name with
  | nil => cases hc
  | cons d rest =>
    obtain rfl : d = c := Option.some.inj hc
    exact apart_of_identChar (identChar_of_startChar hstart)

theorem apart_literalStr (v : BitVec 32) : Apart (literalStr v ++ cs) := by
  rw [literalStr]
  split
  · exact ⟨fun h => absurd (Option.some.inj h) (by decide), fun h => absurd (Option.some.inj h) (by decide)⟩
  · cases hw : Radix.write 10 v.toNat with
    | nil => exact absurd hw (Radix.write_ne_nil 10 _)
    | cons c rest =>
      obtain ⟨d, hd, rfl⟩ := @Radix.write_digits 10 v.toNat (by decide) c (by simp [hw])
      have hdigit : ∀ d < 10, identChar (Radix.digitChar d) = true := by decide
      exact apart_of_identChar (hdigit d hd)

theorem apart_exprToString {t : ExprNode} (ht : validateNames t = none) : Apart (exprToString t ++ cs) := by
  cases t with
  | literal v => exact apart_literalStr v
  | var name =>
    rw [validateNames] at ht
    split at ht
    case isTrue hknown => exact apart_of_isName (isName_of_lower (isName_of_properName (proper_of_variableKnown hknown)))
    case isFalse => cases ht
  | unaryNot operand => exact apart_of_identChar rfl
  | binaryOp op left right =>
    exact ⟨fun h => absurd (Option.some.inj h) (by decide), fun h => absurd (Option.some.inj h) (by decide)⟩
  | functionCall name arg =>
    rw [validateNames] at ht
    split at ht
    case isTrue hknown =>
      have hname := isName_of_properName (proper_of_functionKnown hknown).1
      have hapart : Apart (name ++ '(' :: (exprToString arg ++ ')' :: cs)) := apart_of_isName hname
      simpa [exprToString] using hapart
    case isFalse => cases ht

theorem ends_op (op : BinaryOp) : Ends (op.str.toList ++ cs) := by
  cases op <;> exact fun c hc => Option.some.inj hc ▸ rfl

theorem isName_word {w : List Char} (hw : w ∈ wordOperators) : IsName w := by
  have hall : wordOperators.all (fun w => w.head?.any Char.isAlpha && w.all identChar) = true := by decide
  have hone := List.all_eq_true.mp hall w hw
  simp only [Bool.and_eq_true, Option.any_eq_true, List.all_eq_true] at hone
  obtain ⟨⟨c, hc, halpha⟩, hchars⟩ := hone
  exact ⟨⟨c, hc, Or.inl halpha⟩, hchars⟩

theorem lexes_word {w : List Char} (hw : w ∈ wordOperators) (h : Lexes cs ts) :
    Lexes (' ' :: (w ++ ' ' :: cs)) (.ident w :: ts) := by
  have hends : Ends (' ' :: cs) := fun c hc => Option.some.inj hc ▸ rfl
  exact lexes_space (lexes_name (isName_word hw) hends (lexes_space h))

theorem lexes_op (op : BinaryOp) (hcs : Apart cs) (h : Lexes cs ts) :
    Lexes (op.str.toList ++ cs) (op.token :: ts) := by
  have hlt : comparison '<' cs = some (.lt, cs) := by
    rw [comparison, if_pos rfl, if_neg hcs.1, if_neg hcs.2]
  have hgt : comparison '>' cs = some (.gt, cs) := by
    rw [comparison, if_neg (by decide), if_pos rfl, if_neg hcs.1]
  have heq : comparison '=' cs = some (.eq, cs) := by
    rw [comparison, if_neg (by decide), if_neg (by decide), if_pos rfl, if_neg hcs.1]
  cases op with
  | add => exact lexes_single rfl rfl h
  | sub => exact lexes_single rfl rfl h
  | mul => exact lexes_single rfl rfl h
  | div => exact lexes_single rfl rfl h
  | mod => exact lexes_word (w := ['m', 'o', 'd']) (by simp [wordOperators]) h
  | and => exact lexes_word (w := ['a', 'n', 'd']) (by simp [wordOperators]) h
  | or => exact lexes_word (w := ['o', 'r']) (by simp [wordOperators]) h
  | xor => exact lexes_word (w := ['x', 'o', 'r']) (by simp [wordOperators]) h
  | lt => exact lexes_comparison rfl rfl hlt h
  | le => exact lexes_comparison (r := (.le, cs)) rfl rfl rfl h
  | eq => exact lexes_comparison rfl rfl heq h
  | ge => exact lexes_comparison (r := (.ge, cs)) rfl rfl rfl h
  | gt => exact lexes_comparison rfl rfl hgt h
  | ne => exact lexes_comparison (r := (.ne, cs)) rfl rfl rfl h

theorem ends_rparen : Ends (')' :: cs) := fun _ hc => Option.some.inj hc ▸ rfl

theorem ends_lparen : Ends ('(' :: cs) := fun _ hc => Option.some.inj hc ▸ rfl

/-- The text of a tree is read as the tokens of the tree, up to where it ends. -/
theorem lexes_exprToString {t : ExprNode} (ht : validateNames t = none) (hcs : Ends cs) (h : Lexes cs ts) :
    Lexes (exprToString t ++ cs) (tokens t ++ ts) := by
  -- Along the tree; `Ends cs` keeps a name or a number from running into what follows.
  induction t generalizing cs ts with
  | literal v => exact lexes_literalStr hcs h
  | var name =>
    rw [validateNames] at ht
    split at ht
    case isTrue hknown => exact lexes_name (isName_of_lower (isName_of_properName (proper_of_variableKnown hknown))) hcs h
    case isFalse => cases ht
  | unaryNot operand ih =>
    have hrest := ih ht hcs h
    have hnot : ['n', 'o', 't'] ∈ wordOperators := by simp [wordOperators]
    exact lexes_name (isName_word hnot) (fun c hc => Option.some.inj hc ▸ rfl) (lexes_space hrest)
  | binaryOp op left right ihl ihr =>
    rw [validateNames, Option.or_eq_none_iff] at ht
    have hright := ihr ht.2 ends_rparen (lexes_single (c := ')') rfl rfl h)
    have hop := lexes_op op (apart_exprToString ht.2) hright
    have hleft := ihl ht.1 (ends_op op) hop
    -- Read from the right: the bracket, the right operand, the operator, the left one, the bracket.
    have hall := lexes_single (c := '(') rfl rfl hleft
    simpa [exprToString, tokens] using hall
  | functionCall name arg ih =>
    rw [validateNames] at ht
    split at ht
    case isTrue hknown =>
      have harg := ih ht ends_rparen (lexes_single (c := ')') rfl rfl h)
      have hparen := lexes_single (c := '(') rfl rfl harg
      have hname := lexes_name (isName_of_properName (proper_of_functionKnown hknown).1) ends_lparen hparen
      simpa [exprToString, tokens] using hname
    case isFalse => cases ht

/-! ## Parsing the tokens -/

/-- The state has the first of the tokens, and its lexer goes on with the others. -/
def Reads (s : State) : List Token → Prop
  | [] => True
  | t :: ts => s.cur = t ∧ Tokenises s.lexer ts

theorem advance_of_reads {s : State} {t u : Token} (h : Reads s (t :: u :: ts)) :
    ∃ s', s.advance = .ok s' ∧ Reads s' (u :: ts) := by
  obtain ⟨-, htoks⟩ := h
  cases htoks with
  | cons hnext hrest =>
    refine ⟨{ cur := u, lexer := _ }, ?_, rfl, hrest⟩
    rw [State.advance, hnext]
    rfl

/-- Ahead of the token `c`, the level makes the node of these tokens. -/
def Parses (p : Level) (node : ExprNode) (toks : List Token) (c : Token) : Prop :=
  ∀ s ts, Reads s (toks ++ c :: ts) → ∃ s', p s = .ok (node, s') ∧ Reads s' (c :: ts)

variable {p : Level} {opOf : Token → Option BinaryOp} {n : Nat} {op : BinaryOp} {left right : ExprNode}
  {leftToks rightToks : List Token} {c opTok : Token}

theorem more_pass {s : State} (hc : opOf s.cur = none) (hn : 0 < n) : more p opOf n left s = .ok (left, s) := by
  obtain ⟨n, rfl⟩ := Nat.exists_eq_succ_of_ne_zero (Nat.pos_iff_ne_zero.mp hn)
  rw [more, hc]

theorem leftLevel_pass (h : Parses p left leftToks c) (hc : opOf c = none) (hn : 0 < n) :
    Parses (leftLevel p opOf n) left leftToks c := by
  intro s ts hs
  obtain ⟨s', hp, hs'⟩ := h s ts hs
  refine ⟨s', ?_, hs'⟩
  rw [leftLevel, hp]
  exact more_pass (by rw [hs'.1, hc]) hn

theorem leftLevel_op (hl : Parses p left leftToks opTok) (hop : opOf opTok = some op) (hr : Parses p right rightToks c)
    (hne : rightToks ≠ []) (hc : opOf c = none) (hn : 1 < n) :
    Parses (leftLevel p opOf n) (.binaryOp op left right) (leftToks ++ opTok :: rightToks) c := by
  intro s ts hs
  rw [List.append_assoc, List.cons_append] at hs
  obtain ⟨s₁, hp, hs₁⟩ := hl s _ hs
  obtain ⟨u, us, rfl⟩ := List.exists_cons_of_ne_nil hne
  obtain ⟨s₂, hadvance, hs₂⟩ := advance_of_reads hs₁
  obtain ⟨s₃, hq, hs₃⟩ := hr s₂ ts hs₂
  obtain ⟨n, rfl⟩ := Nat.exists_eq_add_of_lt hn
  refine ⟨s₃, ?_, hs₃⟩
  rw [leftLevel, hp]
  change more p opOf (1 + n + 1) left s₁ = _
  rw [more, hs₁.1, hop, hadvance]
  dsimp only [bind, Except.bind]
  rw [hq]
  exact more_pass (by rw [hs₃.1, hc]) (by omega)

theorem parseCmp_pass {expr : Level} (h : Parses (parseAdd expr n) left leftToks c) (hc : cmpOp c = none) :
    Parses (parseCmp expr n) left leftToks c := by
  intro s ts hs
  obtain ⟨s', hp, hs'⟩ := h s ts hs
  refine ⟨s', ?_, hs'⟩
  rw [parseCmp, hp]
  dsimp only [bind, Except.bind]
  rw [hs'.1, hc]
  rfl

theorem parseCmp_op {expr : Level} (hl : Parses (parseAdd expr n) left leftToks opTok) (hop : cmpOp opTok = some op)
    (hr : Parses (parseAdd expr n) right rightToks c) (hne : rightToks ≠ []) :
    Parses (parseCmp expr n) (.binaryOp op left right) (leftToks ++ opTok :: rightToks) c := by
  intro s ts hs
  rw [List.append_assoc, List.cons_append] at hs
  obtain ⟨s₁, hp, hs₁⟩ := hl s _ hs
  obtain ⟨u, us, rfl⟩ := List.exists_cons_of_ne_nil hne
  obtain ⟨s₂, hadvance, hs₂⟩ := advance_of_reads hs₁
  obtain ⟨s₃, hq, hs₃⟩ := hr s₂ ts hs₂
  refine ⟨s₃, ?_, hs₃⟩
  rw [parseCmp, hp]
  dsimp only [bind, Except.bind]
  rw [hs₁.1, hop, hadvance]
  dsimp only
  rw [hq]
  rfl

/-- The token is no operator of any level. -/
structure Closes (c : Token) : Prop where
  mul : mulOp c = none
  add : addOp c = none
  cmp : cmpOp c = none
  and : andOp c = none
  xor : xorOp c = none
  or : orOp c = none

theorem closes_rparen : Closes .rparen := ⟨rfl, rfl, rfl, rfl, rfl, rfl⟩

theorem closes_eof : Closes .eof := ⟨rfl, rfl, rfl, rfl, rfl, rfl⟩

/-! An operand or an operation of a level is an expression of every level above it. -/

section Levels

variable {m : Nat}

theorem parseOr_of_xor (h : Parses (parseXor (parseOr m) (m + 1)) left leftToks c) (hc : Closes c) :
    Parses (parseOr (m + 1)) left leftToks c :=
  leftLevel_pass h hc.or (Nat.succ_pos m)

theorem parseOr_of_and (h : Parses (parseAnd (parseOr m) (m + 1)) left leftToks c) (hc : Closes c) :
    Parses (parseOr (m + 1)) left leftToks c :=
  parseOr_of_xor (leftLevel_pass h hc.xor (Nat.succ_pos m)) hc

theorem parseOr_of_cmp (h : Parses (parseCmp (parseOr m) (m + 1)) left leftToks c) (hc : Closes c) :
    Parses (parseOr (m + 1)) left leftToks c :=
  parseOr_of_and (leftLevel_pass h hc.and (Nat.succ_pos m)) hc

theorem parseOr_of_add (h : Parses (parseAdd (parseOr m) (m + 1)) left leftToks c) (hc : Closes c) :
    Parses (parseOr (m + 1)) left leftToks c :=
  parseOr_of_cmp (parseCmp_pass h hc.cmp) hc

theorem parseOr_of_mul (h : Parses (parseMul (parseOr m) (m + 1)) left leftToks c) (hc : Closes c) :
    Parses (parseOr (m + 1)) left leftToks c :=
  parseOr_of_add (leftLevel_pass h hc.add (Nat.succ_pos m)) hc

theorem parseOr_of_unary (h : Parses (parseUnary (parseOr m) (m + 1)) left leftToks c) (hc : Closes c) :
    Parses (parseOr (m + 1)) left leftToks c :=
  parseOr_of_mul (leftLevel_pass h hc.mul (Nat.succ_pos m)) hc

theorem parseOr_op (hl : Parses (parseUnary (parseOr m) (m + 1)) left leftToks op.token)
    (hr : Parses (parseUnary (parseOr m) (m + 1)) right rightToks c) (hne : rightToks ≠ []) (hc : Closes c)
    (hm : 0 < m) : Parses (parseOr (m + 1)) (.binaryOp op left right) (leftToks ++ op.token :: rightToks) c := by
  have hn : 1 < m + 1 := Nat.succ_lt_succ hm
  have hn' : 0 < m + 1 := Nat.succ_pos m
  -- The left operand passes every level that binds closer than the operator.
  have hmul : mulOp op.token = none → Parses (parseMul (parseOr m) (m + 1)) left leftToks op.token :=
    fun h => leftLevel_pass hl h hn'
  have hadd : mulOp op.token = none → addOp op.token = none →
      Parses (parseAdd (parseOr m) (m + 1)) left leftToks op.token :=
    fun h h' => leftLevel_pass (hmul h) h' hn'
  have hcmp : mulOp op.token = none → addOp op.token = none → cmpOp op.token = none →
      Parses (parseCmp (parseOr m) (m + 1)) left leftToks op.token :=
    fun h h' h'' => parseCmp_pass (hadd h h') h''
  -- The right operand is one of the next closer level, and `c` ends it on every level.
  have rmul : Parses (parseMul (parseOr m) (m + 1)) right rightToks c := leftLevel_pass hr hc.mul hn'
  have radd : Parses (parseAdd (parseOr m) (m + 1)) right rightToks c := leftLevel_pass rmul hc.add hn'
  have rcmp : Parses (parseCmp (parseOr m) (m + 1)) right rightToks c := parseCmp_pass radd hc.cmp
  have rand : Parses (parseAnd (parseOr m) (m + 1)) right rightToks c := leftLevel_pass rcmp hc.and hn'
  have rxor : Parses (parseXor (parseOr m) (m + 1)) right rightToks c := leftLevel_pass rand hc.xor hn'
  cases op with
  | mul => exact parseOr_of_mul (leftLevel_op hl rfl hr hne hc.mul hn) hc
  | div => exact parseOr_of_mul (leftLevel_op hl rfl hr hne hc.mul hn) hc
  | mod => exact parseOr_of_mul (leftLevel_op hl rfl hr hne hc.mul hn) hc
  | add => exact parseOr_of_add (leftLevel_op (hmul rfl) rfl rmul hne hc.add hn) hc
  | sub => exact parseOr_of_add (leftLevel_op (hmul rfl) rfl rmul hne hc.add hn) hc
  | lt => exact parseOr_of_cmp (parseCmp_op (hadd rfl rfl) rfl radd hne) hc
  | le => exact parseOr_of_cmp (parseCmp_op (hadd rfl rfl) rfl radd hne) hc
  | eq => exact parseOr_of_cmp (parseCmp_op (hadd rfl rfl) rfl radd hne) hc
  | ge => exact parseOr_of_cmp (parseCmp_op (hadd rfl rfl) rfl radd hne) hc
  | gt => exact parseOr_of_cmp (parseCmp_op (hadd rfl rfl) rfl radd hne) hc
  | ne => exact parseOr_of_cmp (parseCmp_op (hadd rfl rfl) rfl radd hne) hc
  | and => exact parseOr_of_and (leftLevel_op (hcmp rfl rfl rfl) rfl rcmp hne hc.and hn) hc
  | xor => exact parseOr_of_xor (leftLevel_op (leftLevel_pass (hcmp rfl rfl rfl) rfl hn') rfl rand hne hc.xor hn) hc
  | or =>
    have hand := @leftLevel_pass _ andOp (m + 1) _ _ _ (hcmp rfl rfl rfl) rfl hn'
    exact leftLevel_op (leftLevel_pass hand rfl hn') rfl rxor hne hc.or hn

end Levels

theorem tokens_ne_nil (t : ExprNode) : tokens t ≠ [] := by cases t <;> exact List.cons_ne_nil _ _

theorem closing_of_parses {expr : Level} {msg : List Char} {node : ExprNode} {toks : List Token}
    (h : Parses expr node toks .rparen) (hne : toks ≠ []) :
    Parses (closing expr msg) node (.lparen :: (toks ++ [.rparen])) c := by
  intro s ts hs
  rw [List.cons_append, List.append_assoc] at hs
  obtain ⟨u, us, rfl⟩ := List.exists_cons_of_ne_nil hne
  obtain ⟨s₁, hfirst, hs₁⟩ := advance_of_reads hs
  obtain ⟨s₂, hp, hs₂⟩ := h s₁ _ hs₁
  obtain ⟨s₃, hlast, hs₃⟩ := advance_of_reads hs₂
  refine ⟨s₃, ?_, hs₃⟩
  rw [closing, hfirst]
  dsimp only [bind, Except.bind]
  rw [hp]
  dsimp only
  rw [if_pos hs₂.1, hlast]
  rfl

theorem parseUnary_atom {expr : Level} {s : State} {m : Nat} (hnot : s.cur.isWord ['n', 'o', 't'] = false)
    (hminus : s.cur ≠ .minus) : parseUnary expr (m + 1) s = parseAtom expr s := by
  rw [parseUnary, if_neg (by rw [hnot]; exact Bool.false_ne_true), if_neg hminus]

theorem isWord_of_proper {name w : List Char} (hname : properName (lower name) = true) (hw : w ∈ wordOperators) :
    (Token.ident name).isWord w = false := by
  have hnot : lower name ≠ w := by
    rintro rfl
    simp [properName, hw] at hname
  exact decide_eq_false hnot

theorem not_mem_wordOperators : ['n', 'o', 't'] ∈ wordOperators := by simp [wordOperators]

theorem parses_var {expr : Level} {name : List Char} {k : Nat} (hname : properName (lower name) = true)
    (hc : c ≠ .lparen) : Parses (parseUnary expr (k + 1)) (.var name) [.ident name] c := by
  intro s ts hs
  have hnot : s.cur.isWord ['n', 'o', 't'] = false := by
    rw [hs.1]
    exact isWord_of_proper hname not_mem_wordOperators
  obtain ⟨s', hadvance, hs'⟩ := advance_of_reads hs
  refine ⟨s', ?_, hs'⟩
  rw [parseUnary_atom hnot (by rw [hs.1]; simp), parseAtom, hs.1]
  dsimp only [bind, Except.bind]
  rw [hadvance]
  dsimp only
  rw [if_neg (by rw [hs'.1]; exact hc)]
  rfl

theorem parses_function {expr : Level} {name : List Char} {node : ExprNode} {toks : List Token} {k : Nat}
    (hname : properName (lower name) = true) (h : Parses expr node toks .rparen) (hne : toks ≠ []) :
    Parses (parseUnary expr (k + 1)) (.functionCall (lower name) node)
      (.ident name :: .lparen :: (toks ++ [.rparen])) c := by
  intro s ts hs
  have hnot : s.cur.isWord ['n', 'o', 't'] = false := by
    rw [hs.1]
    exact isWord_of_proper hname not_mem_wordOperators
  obtain ⟨s₁, hadvance, hs₁⟩ := advance_of_reads hs
  obtain ⟨s₂, hclosing, hs₂⟩ :=
    @closing_of_parses _ _ "expected ')' after function argument".toList _ _ h hne s₁ ts hs₁
  refine ⟨s₂, ?_, hs₂⟩
  rw [parseUnary_atom hnot (by rw [hs.1]; simp), parseAtom, hs.1]
  dsimp only [bind, Except.bind]
  rw [hadvance]
  dsimp only
  rw [if_pos hs₁.1, hclosing]
  rfl

/-- The tokens of a tree are an operand, which is parsed into the tree again: by induction on the tree, with bounds
    that allow for a call for each token. -/
theorem parses_tokens {t : ExprNode} (ht : validateNames t = none) {m k : Nat} (hm : (tokens t).length ≤ m)
    (hk : (tokens t).length < k) (hc : c ≠ .lparen) : Parses (parseUnary (parseOr m) k) t (tokens t) c := by
  induction t generalizing m k c with
  | literal v =>
    intro s ts hs
    obtain ⟨k, rfl⟩ := Nat.exists_eq_add_of_lt hk
    obtain ⟨s', hadvance, hs'⟩ := advance_of_reads hs
    refine ⟨s', ?_, hs'⟩
    rw [parseUnary_atom (by rw [hs.1]; rfl) (by rw [hs.1]; simp), parseAtom, hs.1]
    dsimp only [bind, Except.bind]
    rw [hadvance]
    rfl
  | var name =>
    obtain ⟨k, rfl⟩ := Nat.exists_eq_add_of_lt hk
    rw [validateNames] at ht
    split at ht
    case isTrue hknown => exact parses_var (proper_of_variableKnown hknown) hc
    case isFalse => cases ht
  | unaryNot operand ih =>
    simp only [tokens, List.length_cons] at hm hk
    obtain ⟨k, rfl⟩ := Nat.exists_eq_add_of_lt hk
    intro s ts hs
    obtain ⟨u, us, hus⟩ := List.exists_cons_of_ne_nil (tokens_ne_nil operand)
    rw [tokens, hus, List.cons_append, List.cons_append] at hs
    obtain ⟨s₁, hadvance, hs₁⟩ := advance_of_reads hs
    rw [← List.cons_append, ← hus] at hs₁
    obtain ⟨s₂, hp, hs₂⟩ := ih ht (m := m) (k := (tokens operand).length + 1 + k) (by omega) (by omega) hc s₁ ts hs₁
    refine ⟨s₂, ?_, hs₂⟩
    -- `not` is no atom: `parseUnary` takes it and goes on with its operand.
    have hnot : (Token.ident ['n', 'o', 't']).isWord ['n', 'o', 't'] = true := by decide
    rw [parseUnary, hs.1, if_pos hnot]
    dsimp only [bind, Except.bind]
    rw [hadvance]
    dsimp only
    rw [hp]
    rfl
  | binaryOp op left right ihl ihr =>
    simp only [tokens, List.length_cons, List.length_append, List.length_nil] at hm hk
    obtain ⟨k, rfl⟩ := Nat.exists_eq_add_of_lt hk
    obtain ⟨m, rfl⟩ := Nat.exists_eq_succ_of_ne_zero (n := m) (by omega)
    rw [validateNames, Option.or_eq_none_iff] at ht
    -- An operation is printed in parentheses, so inside them the parser starts at the lowest level again.
    have hop : op.token ≠ .lparen := by cases op <;> simp [BinaryOp.token]
    have hl := ihl ht.1 (m := m) (k := m + 1) (by omega) (by omega) hop
    have hr := ihr ht.2 (m := m) (k := m + 1) (c := .rparen) (by omega) (by omega) (by decide)
    have hbinary := parseOr_op hl hr (tokens_ne_nil right) closes_rparen (by omega)
    intro s ts hs
    have htoks : tokens (.binaryOp op left right) =
        .lparen :: ((tokens left ++ op.token :: tokens right) ++ [.rparen]) := by
      simp [tokens]
    rw [htoks] at hs
    obtain ⟨s', hclosing, hs'⟩ := @closing_of_parses _ _ "expected ')'".toList _ _ hbinary (by simp) s ts hs
    refine ⟨s', ?_, hs'⟩
    rw [parseUnary_atom (by rw [hs.1]; rfl) (by rw [hs.1]; simp), parseAtom, hs.1]
    exact hclosing
  | functionCall name arg ih =>
    simp only [tokens, List.length_cons, List.length_append, List.length_nil] at hm hk
    obtain ⟨k, rfl⟩ := Nat.exists_eq_add_of_lt hk
    obtain ⟨m, rfl⟩ := Nat.exists_eq_succ_of_ne_zero (n := m) (by omega)
    rw [validateNames] at ht
    split at ht
    case isTrue hknown =>
      obtain ⟨hproper, hlower⟩ := proper_of_functionKnown hknown
      have harg := ih ht (m := m) (k := m + 1) (c := .rparen) (by omega) (by omega) (by decide)
      -- The argument is a whole expression, which the closing parenthesis ends.
      have hexpr := parseOr_of_unary harg closes_rparen
      have hcall := parses_function (c := c) (k := (tokens arg).length + 1 + 1 + 1 + k) (hlower.symm ▸ hproper) hexpr
        (tokens_ne_nil arg)
      rw [hlower] at hcall
      exact hcall
    case isFalse => cases ht

/-! ## The whole text -/

theorem length_tokens_le {t : ExprNode} (ht : validateNames t = none) : (tokens t).length ≤ (exprToString t).length := by
  have hname : ∀ {name : List Char}, IsName name → 1 ≤ name.length := by
    intro name hname
    obtain ⟨c, hc, -⟩ := hname.start
    exact List.length_pos_of_mem (List.mem_of_mem_head? hc)
  -- Each token is printed with a character of its own at least.
  induction t with
  | literal v =>
    have hpos : ∀ base, 0 < (Radix.write base v.toNat).length := fun base =>
      List.length_pos_iff.mpr (Radix.write_ne_nil base _)
    rw [exprToString, literalStr]
    split
    · exact Nat.succ_pos _
    · exact hpos 10
  | var name =>
    rw [validateNames] at ht
    split at ht
    case isTrue hknown => exact hname (isName_of_lower (isName_of_properName (proper_of_variableKnown hknown)))
    case isFalse => cases ht
  | unaryNot operand ih =>
    have h := ih ht
    simp only [tokens, exprToString, List.length_cons, List.length_append]
    have hnot : "not ".toList.length = 4 := rfl
    omega
  | binaryOp op left right ihl ihr =>
    rw [validateNames, Option.or_eq_none_iff] at ht
    have hl := ihl ht.1
    have hr := ihr ht.2
    have hop : 1 ≤ op.str.toList.length := by cases op <;> exact Nat.succ_pos _
    simp only [tokens, exprToString, List.length_cons, List.length_append, List.length_nil]
    omega
  | functionCall name arg ih =>
    rw [validateNames] at ht
    split at ht
    case isTrue hknown =>
      have h := ih ht
      have hone := hname (isName_of_properName (proper_of_functionKnown hknown).1)
      simp only [tokens, exprToString, List.length_cons, List.length_append, List.length_nil]
      omega
    case isFalse => cases ht

theorem validateNames_of_exprParse {input : List Char} {t : ExprNode} (h : exprParse input = .ok t) :
    validateNames t = none := by
  rw [exprParse] at h
  simp only [bind, Except.bind] at h
  split at h
  case h_1 => cases h
  case h_2 s₀ _ =>
    split at h
    case h_1 => cases h
    case h_2 r _ =>
      split at h
      case isTrue =>
        split at h
        case h_1 hnames =>
          obtain rfl := Except.ok.inj h
          exact hnames
        case h_2 => cases h
      case isFalse => cases h

theorem exprParse_of_names {t : ExprNode} (ht : validateNames t = none) : exprParse (exprToString t) = .ok t := by
  have hends : Ends [] := by simp [Ends]
  have hlexes := lexes_exprToString ht hends lexes_eof
  rw [List.append_nil] at hlexes
  have hstart : ∃ s, State.advance { cur := .eof, lexer := { rest := exprToString t } } = .ok s ∧
      Reads s (tokens t ++ [.eof]) := by
    obtain ⟨u, us, hus⟩ := List.exists_cons_of_ne_nil (tokens_ne_nil t)
    have htoks := hlexes false
    rw [hus] at htoks
    have hreads : Reads { cur := .eof, lexer := { rest := exprToString t } } (.eof :: u :: (us ++ [.eof])) := ⟨rfl, htoks⟩
    rw [hus]
    exact advance_of_reads hreads
  obtain ⟨s₀, hadvance, hs₀⟩ := hstart
  have hlen := length_tokens_le ht
  have hunary := parses_tokens ht (m := (exprToString t).length + 1) (k := (exprToString t).length + 1 + 1) (c := .eof)
    (by omega) (by omega) (by decide)
  obtain ⟨s₁, hparse, hs₁⟩ := parseOr_of_unary hunary closes_eof s₀ [] hs₀
  rw [exprParse, hadvance]
  dsimp only [bind, Except.bind]
  rw [hparse]
  dsimp only
  rw [if_pos hs₁.1, ht]
  rfl

/-! ## The bound of the parser is not reached -/

/-- The bound is not run out of, and what comes out has the property. -/
def Meets {α : Type} (x : Except Fail α) (P : α → Prop) : Prop := x ≠ .error .bound ∧ ∀ a, x = .ok a → P a

theorem meets_ok {α : Type} {a : α} {P : α → Prop} (h : P a) : Meets (.ok a) P :=
  ⟨by simp, fun _ hb => Except.ok.inj hb ▸ h⟩

theorem meets_error {α : Type} {e : Fail} {P : α → Prop} (h : e ≠ .bound) : Meets (.error e) P :=
  ⟨fun he => h (Except.error.inj he), by simp⟩

theorem meets_bind {α β : Type} {x : Except Fail α} {f : α → Except Fail β} {P : α → Prop} {Q : β → Prop}
    (hx : Meets x P) (hf : ∀ a, P a → Meets (f a) Q) : Meets (x >>= f) Q := by
  cases x with
  | error e => exact meets_error fun he => hx.1 (by rw [he])
  | ok a => exact hf a (hx.2 a rfl)

theorem Meets.mono {α : Type} {x : Except Fail α} {P Q : α → Prop} (hx : Meets x P) (h : ∀ a, P a → Q a) : Meets x Q :=
  ⟨hx.1, fun a ha => h a (hx.2 a ha)⟩

theorem meets_parseNumber (base : Nat) (isDigit : Char → Bool) (msg cs : List Char) :
    Meets (parseNumber base isDigit msg cs) fun r => r.2.length ≤ cs.length := by
  rw [parseNumber]
  split
  · exact meets_ok (Nat.le_refl _)
  · split
    · exact meets_ok (List.dropWhile_suffix _).length_le
    · exact meets_error (by decide)

theorem meets_parseDecimal {c : Char} {rest : List Char} (hc : c.isDigit = true) :
    Meets (parseDecimal (c :: rest)) fun r => r.2.length ≤ rest.length := by
  rw [parseDecimal, parseNumber]
  split
  case isTrue h => simp [List.takeWhile_cons_of_pos hc] at h
  case isFalse =>
    split
    · refine meets_ok ?_
      rw [List.dropWhile_cons_of_pos hc]
      exact (List.dropWhile_suffix _).length_le
    · exact meets_error (by decide)

theorem length_comparison {c : Char} {rest : List Char} {r : Token × List Char} (h : comparison c rest = some r) :
    r.2.length ≤ rest.length := by
  have htail : rest.tail.length ≤ rest.length := by simp
  rw [comparison] at h
  split at h
  · split at h
    · exact Option.some.inj h ▸ htail
    · split at h
      · exact Option.some.inj h ▸ htail
      · exact Option.some.inj h ▸ Nat.le_refl _
  · split at h
    · split at h
      · exact Option.some.inj h ▸ htail
      · exact Option.some.inj h ▸ Nat.le_refl _
    · split at h
      · obtain rfl := Option.some.inj h
        dsimp only
        split
        · exact htail
        · exact Nat.le_refl _
      · split at h
        · exact Option.some.inj h ▸ htail
        · cases h

theorem meets_word (flag : Bool) (c : Char) (rest : List Char) :
    Meets (word flag c rest) fun r => r.2.length ≤ rest.length := by
  rw [word]
  split
  · exact meets_ok (Nat.le_refl _)
  split
  · exact meets_ok (Nat.le_refl _)
  split
  · exact meets_parseNumber _ _ _ _
  split
  · exact (meets_parseNumber _ _ _ _).mono fun r hr => Nat.le_trans hr (by simp)
  split
  · exact meets_parseNumber _ _ _ _
  split
  case isTrue hdigit => exact meets_parseDecimal hdigit
  case isFalse =>
    split
    case isTrue hstart =>
      refine meets_ok ?_
      rw [parseIdent, List.dropWhile_cons_of_pos (identChar_of_startChar hstart)]
      exact (List.dropWhile_suffix _).length_le
    case isFalse => exact meets_ok (Nat.le_refl _)

/-- The characters that are left, and one for the token. -/
def State.ahead (s : State) : Nat := s.lexer.rest.length + if s.cur = .eof then 0 else 1

theorem meets_next (l : Lexer) :
    Meets l.next fun r => (r.1 = .eof ∧ r.2.rest = []) ∨ r.2.rest.length < l.rest.length := by
  have hraw : Meets (nextRaw l.afterOperand l.rest) fun r => (r.1 = .eof ∧ r.2 = []) ∨ r.2.length < l.rest.length := by
    rw [nextRaw]
    have hle := (List.dropWhile_suffix (l := l.rest) isspace).length_le
    generalize l.rest.dropWhile isspace = cs at hle
    cases cs with
    | nil => exact meets_ok (Or.inl ⟨rfl, rfl⟩)
    | cons c rest =>
      have hlt : rest.length < l.rest.length := hle
      dsimp only
      cases hsingle : single c with
      | some t => exact meets_ok (Or.inr hlt)
      | none =>
        dsimp only
        cases hcomparison : comparison c rest with
        | some r => exact meets_ok (Or.inr (Nat.lt_of_le_of_lt (length_comparison hcomparison) hlt))
        | none => exact (meets_word _ c rest).mono fun r hr => Or.inr (Nat.lt_of_le_of_lt hr hlt)
  exact meets_bind hraw fun r hr => meets_ok hr

theorem meets_advance (s : State) : Meets s.advance fun s' => s'.ahead ≤ s.lexer.rest.length := by
  refine meets_bind (meets_next s.lexer) fun r hr => meets_ok ?_
  rw [State.ahead]
  rcases hr with ⟨heof, hnil⟩ | hlt
  · simp [heof, hnil]
  · dsimp only
    split <;> omega

theorem meets_advance_of_ne {s : State} (h : s.cur ≠ .eof) : Meets s.advance fun s' => s'.ahead < s.ahead := by
  refine (meets_advance s).mono fun s' hs' => Nat.lt_of_le_of_lt hs' ?_
  rw [State.ahead, if_neg h]
  exact Nat.lt_succ_self _

/-- On states with less left than `b`, the level makes a tree of at least one token, or says why it does not. -/
def Total (p : Level) (b : Nat) : Prop := ∀ s, s.ahead < b → Meets (p s) fun r => r.2.ahead < s.ahead

theorem meets_more {b : Nat} (hp : Total p b) (heof : opOf .eof = none) (n : Nat) (node : ExprNode) (s : State)
    (hn : s.ahead < n) (hb : s.ahead < b) : Meets (more p opOf n node s) fun r => r.2.ahead ≤ s.ahead := by
  induction n generalizing node s with
  | zero => exact absurd hn (Nat.not_lt_zero _)
  | succ n ih =>
    rw [more]
    cases hop : opOf s.cur with
    | none => exact meets_ok (Nat.le_refl _)
    | some op =>
      have hne : s.cur ≠ .eof := by
        intro hcur
        rw [hcur, heof] at hop
        cases hop
      refine meets_bind (meets_advance_of_ne hne) fun s₁ hs₁ => ?_
      refine meets_bind (hp s₁ (by omega)) fun r hr => ?_
      exact (ih _ r.2 (by omega) (by omega)).mono fun r' hr' => by omega

theorem total_leftLevel {b : Nat} (hp : Total p b) (heof : opOf .eof = none) : Total (leftLevel p opOf b) b := by
  intro s hs
  refine meets_bind (hp s hs) fun r hr => ?_
  exact (meets_more hp heof b r.1 r.2 (by omega) (by omega)).mono fun r' hr' => by omega

theorem total_closing {expr : Level} {msg : List Char} {b : Nat} (hexpr : Total expr b) {s : State} (hs : s.ahead ≤ b)
    (hne : s.cur ≠ .eof) : Meets (closing expr msg s) fun r => r.2.ahead < s.ahead := by
  refine meets_bind (meets_advance_of_ne hne) fun s₁ hs₁ => ?_
  refine meets_bind (hexpr s₁ (by omega)) fun r hr => ?_
  dsimp only
  split
  case isTrue hcur =>
    refine meets_bind (meets_advance_of_ne (by rw [hcur]; simp)) fun s₂ hs₂ => meets_ok ?_
    dsimp only
    omega
  case isFalse => exact meets_error (by simp)

theorem meets_parseAtom {expr : Level} {b : Nat} (hexpr : Total expr b) {s : State} (hs : s.ahead ≤ b) :
    Meets (parseAtom expr s) fun r => r.2.ahead < s.ahead := by
  have hmessage : ∀ text, Meets (α := ExprNode × State) (.error (.message text)) fun r => r.2.ahead < s.ahead :=
    fun _ => meets_error (by simp)
  unfold parseAtom
  cases hcur : s.cur with
  | number v => exact meets_bind (meets_advance_of_ne (by rw [hcur]; simp)) fun s₁ hs₁ => meets_ok hs₁
  | lparen => exact total_closing hexpr hs (by rw [hcur]; simp)
  | ident name =>
    dsimp only
    refine meets_bind (meets_advance_of_ne (by rw [hcur]; simp)) fun s₁ hs₁ => ?_
    split
    case isTrue hparen =>
      refine meets_bind (total_closing hexpr (by omega) (by rw [hparen]; simp)) fun r hr => meets_ok ?_
      dsimp only
      omega
    case isFalse => exact meets_ok hs₁
  | error text => exact hmessage text
  | _ => exact hmessage _

theorem total_parseUnary {expr : Level} {m : Nat} (hexpr : Total expr m) (n : Nat) (hn : n ≤ m + 1) :
    Total (parseUnary expr n) n := by
  induction n with
  | zero => exact fun s hs => absurd hs (Nat.not_lt_zero _)
  | succ n ih =>
    intro s hs
    rw [parseUnary]
    split
    case isTrue hnot =>
      refine meets_bind (meets_advance_of_ne (by intro hcur; simp [hcur, Token.isWord] at hnot)) fun s₁ hs₁ => ?_
      refine meets_bind (ih (by omega) s₁ (by omega)) fun r hr => meets_ok ?_
      dsimp only
      omega
    case isFalse =>
      split
      case isTrue hminus =>
        refine meets_bind (meets_advance_of_ne (by rw [hminus]; simp)) fun s₁ hs₁ => ?_
        refine meets_bind (ih (by omega) s₁ (by omega)) fun r hr => meets_ok ?_
        dsimp only
        omega
      case isFalse => exact meets_parseAtom hexpr (by omega)

theorem total_parseCmp {expr : Level} {b : Nat} (hadd : Total (parseAdd expr b) b) : Total (parseCmp expr b) b := by
  intro s hs
  refine meets_bind (hadd s hs) fun r hr => ?_
  dsimp only
  cases hop : cmpOp r.2.cur with
  | none => exact meets_ok hr
  | some op =>
    have hne : r.2.cur ≠ .eof := by
      intro hcur
      rw [hcur] at hop
      cases hop
    refine meets_bind (meets_advance_of_ne hne) fun s₁ hs₁ => ?_
    refine meets_bind (hadd s₁ (by omega)) fun r' hr' => meets_ok ?_
    dsimp only
    omega

theorem total_parseOr (m : Nat) : Total (parseOr m) m := by
  induction m with
  | zero => exact fun s hs => absurd hs (Nat.not_lt_zero _)
  | succ m ih =>
    have hunary := total_parseUnary ih (m + 1) (Nat.le_refl _)
    have hmul : Total (parseMul (parseOr m) (m + 1)) (m + 1) := total_leftLevel hunary rfl
    have hadd : Total (parseAdd (parseOr m) (m + 1)) (m + 1) := total_leftLevel hmul rfl
    have hand : Total (parseAnd (parseOr m) (m + 1)) (m + 1) := total_leftLevel (total_parseCmp hadd) rfl
    have hxor : Total (parseXor (parseOr m) (m + 1)) (m + 1) := total_leftLevel hand rfl
    exact total_leftLevel hxor rfl

theorem exprParse_ne_bound (input : List Char) : exprParse input ≠ .error .bound := by
  have hall : Meets (exprParse input) fun _ => True := by
    refine meets_bind (meets_advance _) fun s hs => ?_
    refine meets_bind (total_parseOr (input.length + 2) s (by dsimp only at hs; omega)) fun r _ => ?_
    dsimp only
    split
    · cases validateNames r.1 with
      | none => exact meets_ok trivial
      | some text => exact meets_error (by simp)
    · exact meets_error (by simp)
  exact hall.1

/-- A text is parsed within the bound. A tree whose names are known has a text that is parsed into the tree again,
    and every text that is parsed has such a tree. -/
theorem exprParse_exprToString :
    (∀ t, validateNames t = none → exprParse (exprToString t) = .ok t) ∧
      ∀ input, exprParse input ≠ .error .bound ∧
        ∀ t, exprParse input = .ok t → validateNames t = none ∧ exprParse (exprToString t) = .ok t := by
  constructor
  · intro t ht
    exact exprParse_of_names ht
  · intro input
    refine ⟨exprParse_ne_bound input, fun t h => ?_⟩
    have ht := validateNames_of_exprParse h
    exact ⟨ht, exprParse_of_names ht⟩

end Koncepcja.Expression
