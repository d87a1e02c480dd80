import Koncepcja.Lib.Radix

/-!
# Debugger Expressions

`src/expr_parser.cpp`: the conditions of breakpoints and watches. A text is tokenised as it is parsed, by recursive
descent with one function for each level of precedence, and the names in the tree are checked against those that can
be evaluated. A tree has a text again.

A text is the list of its characters, one for each byte. The recursion of the parser is bounded by the length of the
text.

## Main definitions

- `Lexer.next`: the next token of a text.
- `exprParse`: the tree of a text.
- `exprToString`: the text of a tree.
-/

namespace Koncepcja.Expression

/-! ## Trees -/

inductive BinaryOp where
  | add | sub | mul | div | mod | and | or | xor | lt | le | eq | ge | gt | ne
  deriving DecidableEq

inductive ExprNode where
  | literal (value : BitVec 32)
  | var (name : List Char)
  | unaryNot (operand : ExprNode)
  | binaryOp (op : BinaryOp) (left right : ExprNode)
  | functionCall (name : List Char) (arg : ExprNode)
  deriving DecidableEq

/-! ## Tokens -/

inductive Token where
  | number (value : BitVec 32)
  | ident (name : List Char)
  | lparen | rparen | comma | plus | minus | star | slash | lt | le | gt | ge | eq | ne
  | eof
  | error (text : List Char)
  deriving DecidableEq

/-- What comes out instead of a tree: a number that `std::stoul` throws at, an error message, or, in the model only,
    an exhausted bound. -/
inductive Fail where
  | outOfRange
  | message (text : List Char)
  | bound
  deriving DecidableEq

def isspace (c : Char) : Bool := c = ' ' || (0x09 ≤ c.toNat && c.toNat ≤ 0x0D)

def isxdigit (c : Char) : Bool := c.isDigit || ('a' ≤ c && c ≤ 'f') || ('A' ≤ c && c ≤ 'F')

def isbit (c : Char) : Bool := c = '0' || c = '1'

/-- The characters inside of an identifier. -/
def identChar (c : Char) : Bool := c.isAlphanum || c = '_' || c = '\''

def lower (s : List Char) : List Char := s.map Char.toLower

/-- The words between or ahead of operands. -/
def wordOperators : List (List Char) := [['a', 'n', 'd'], ['o', 'r'], ['x', 'o', 'r'], ['m', 'o', 'd'], ['n', 'o', 't']]

/-- A number in a base, up to the first character that is not one of its digits. -/
def parseNumber (base : Nat) (isDigit : Char → Bool) (msg : List Char) (cs : List Char) :
    Except Fail (Token × List Char) :=
  let digits := cs.takeWhile isDigit
  if digits = [] then .ok (.error msg, cs)
  else if Radix.read base digits < 2 ^ 64 then
    .ok (.number (BitVec.ofNat 32 (Radix.read base digits)), cs.dropWhile isDigit)
  else .error .outOfRange

def parseHex (cs : List Char) : Except Fail (Token × List Char) :=
  parseNumber 16 isxdigit "expected hex digits".toList cs

def parseBinary (cs : List Char) : Except Fail (Token × List Char) :=
  parseNumber 2 isbit "expected binary digits".toList cs

/-- There is a digit where this is called. -/
def parseDecimal (cs : List Char) : Except Fail (Token × List Char) := parseNumber 10 Char.isDigit [] cs

def parseIdent (cs : List Char) : Token × List Char := (.ident (cs.takeWhile identChar), cs.dropWhile identChar)

/-- The tokens of one character that nothing else begins with. -/
def single (c : Char) : Option Token :=
  [('(', Token.lparen), (')', .rparen), (',', .comma), ('+', .plus), ('-', .minus), ('*', .star),
    ('/', .slash)].lookup c

/-- `<`, `<=` and `<>`; `>` and `>=`; `=` and `==`; `!=`. -/
def comparison (c : Char) (rest : List Char) : Option (Token × List Char) :=
  if c = '<' then
    if rest.head? = some '=' then some (.le, rest.tail)
    else if rest.head? = some '>' then some (.ne, rest.tail)
    else some (.lt, rest)
  else if c = '>' then if rest.head? = some '=' then some (.ge, rest.tail) else some (.gt, rest)
  else if c = '=' then some (.eq, if rest.head? = some '=' then rest.tail else rest)
  else if c = '!' ∧ rest.head? = some '=' then some (.ne, rest.tail)
  else none

/-- A number, a word, or a character that begins no token. `&` and `%` are operators behind an operand. -/
def word (afterOperand : Bool) (c : Char) (rest : List Char) : Except Fail (Token × List Char) :=
  if c = '&' ∧ afterOperand = true then .ok (.ident ['a', 'n', 'd'], rest)
  else if c = '%' ∧ afterOperand = true then .ok (.ident ['m', 'o', 'd'], rest)
  else if c = '#' ∨ c = '&' ∨ c = '$' then parseHex rest
  else if c = '0' ∧ (rest.head? = some 'x' ∨ rest.head? = some 'X') then parseHex rest.tail
  else if c = '%' then parseBinary rest
  else if c.isDigit then parseDecimal (c :: rest)
  else if c.isAlpha ∨ c = '_' ∨ c = '\'' then .ok (parseIdent (c :: rest))
  else .ok (.error ("unexpected character: ".toList ++ [c]), rest)

def nextRaw (afterOperand : Bool) (cs : List Char) : Except Fail (Token × List Char) :=
  match cs.dropWhile isspace with
  | [] => .ok (.eof, [])
  | c :: rest =>
    match single c with
    | some t => .ok (t, rest)
    | none =>
      match comparison c rest with
      | some r => .ok r
      | none => word afterOperand c rest

def Token.endsOperand : Token → Bool
  | number _ => true
  | rparen => true
  | ident name => !wordOperators.contains (lower name)
  | _ => false

structure Lexer where
  rest : List Char
  afterOperand : Bool := false

def Lexer.next (l : Lexer) : Except Fail (Token × Lexer) := do
  let (t, rest) ← nextRaw l.afterOperand l.rest
  return (t, { rest := rest, afterOperand := t.endsOperand })

/-! ## The parser -/

structure State where
  cur : Token
  lexer : Lexer

def State.advance (s : State) : Except Fail State := do
  let (t, lexer) ← s.lexer.next
  return { cur := t, lexer := lexer }

/-- A parser of one level of the grammar. -/
abbrev Level := State → Except Fail (ExprNode × State)

/-- The token is the word, in any case. -/
def Token.isWord (t : Token) (w : List Char) : Bool :=
  match t with
  | ident name => lower name = w
  | _ => false

/-- The loop of a level: as long as an operator of the level follows, it takes another operand. -/
def more (sub : Level) (opOf : Token → Option BinaryOp) : Nat → ExprNode → Level
  | 0, _, _ => .error .bound
  | n + 1, node, s =>
    match opOf s.cur with
    | none => .ok (node, s)
    | some op => do
      let (rhs, s) ← sub (← s.advance)
      more sub opOf n (.binaryOp op node rhs) s

/-- A level with operators that associate to the left. -/
def leftLevel (sub : Level) (opOf : Token → Option BinaryOp) (n : Nat) : Level := fun s => do
  let (node, s) ← sub s
  more sub opOf n node s

def mulOp (t : Token) : Option BinaryOp :=
  if t = .star then some .mul else if t = .slash then some .div
  else if t.isWord ['m', 'o', 'd'] then some .mod else none

def addOp (t : Token) : Option BinaryOp :=
  if t = .plus then some .add else if t = .minus then some .sub else none

def cmpOp (t : Token) : Option BinaryOp :=
  match t with
  | .lt => some .lt
  | .le => some .le
  | .eq => some .eq
  | .ge => some .ge
  | .gt => some .gt
  | .ne => some .ne
  | _ => none

def andOp (t : Token) : Option BinaryOp := if t.isWord ['a', 'n', 'd'] then some .and else none

def xorOp (t : Token) : Option BinaryOp := if t.isWord ['x', 'o', 'r'] then some .xor else none

def orOp (t : Token) : Option BinaryOp := if t.isWord ['o', 'r'] then some .or else none

/-- `'(' expr ')'`, from the token behind the parenthesis on. -/
def closing (expr : Level) (msg : List Char) : Level := fun s => do
  let (node, s) ← expr (← s.advance)
  if s.cur = .rparen then return (node, ← s.advance)
  throw (.message msg)

def parseAtom (expr : Level) : Level := fun s =>
  match s.cur with
  | .number v => do return (.literal v, ← s.advance)
  | .lparen => closing expr "expected ')'".toList s
  | .ident name => do
    let s ← s.advance
    if s.cur = .lparen then
      let (arg, s) ← closing expr "expected ')' after function argument".toList s
      return (.functionCall (lower name) arg, s)
    return (.var name, s)
  | .error text => throw (.message text)
  | _ => throw (.message "unexpected token".toList)

def parseUnary (expr : Level) : Nat → Level
  | 0, _ => .error .bound
  | n + 1, s =>
    if s.cur.isWord ['n', 'o', 't'] then do
      let (operand, s) ← parseUnary expr n (← s.advance)
      return (.unaryNot operand, s)
    else if s.cur = .minus then do
      let (operand, s) ← parseUnary expr n (← s.advance)
      return (.binaryOp .sub (.literal 0) operand, s)
    else parseAtom expr s

def parseMul (expr : Level) (n : Nat) : Level := leftLevel (parseUnary expr n) mulOp n

def parseAdd (expr : Level) (n : Nat) : Level := leftLevel (parseMul expr n) addOp n

/-- A comparison takes two operands at most. -/
def parseCmp (expr : Level) (n : Nat) : Level := fun s => do
  let (node, s) ← parseAdd expr n s
  match cmpOp s.cur with
  | none => return (node, s)
  | some op => do
    let (rhs, s) ← parseAdd expr n (← s.advance)
    return (.binaryOp op node rhs, s)

def parseAnd (expr : Level) (n : Nat) : Level := leftLevel (parseCmp expr n) andOp n

def parseXor (expr : Level) (n : Nat) : Level := leftLevel (parseAnd expr n) xorOp n

/-- `parse_or_expr`, which is called again inside of parentheses. -/
def parseOr : Nat → Level
  | 0 => fun _ => .error .bound
  | n + 1 => leftLevel (parseXor (parseOr n) (n + 1)) orOp (n + 1)

/-! ## Names -/

/-- The registers, flags and other values that `resolve_variable_impl` knows. -/
def variableNames : List String :=
  ["a", "f", "b", "c", "d", "e", "h", "l", "i", "r", "af", "bc", "de", "hl", "ix", "iy", "sp", "pc",
    "ixh", "ixl", "iyh", "iyl", "af'", "afx", "bc'", "bcx", "de'", "dex", "hl'", "hlx", "im", "iff1", "iff2",
    "carry", "nsub", "parity", "overflow", "halfcarry", "zero", "sign", "address", "value", "previous", "mode"]

/-- `kExprFunctions`. -/
def functionNames : List String :=
  ["peek", "byte", "hibyte", "word", "hiword", "ay", "crtc", "timer_start", "timer_stop"]

def variableKnown (name : List Char) : Bool := variableNames.any fun n => n.toList = lower name

def functionKnown (name : List Char) : Bool := functionNames.any fun n => n.toList = name

/-- The message for the first name that is not known, if there is one. -/
def validateNames : ExprNode → Option (List Char)
  | .literal _ => none
  | .var name =>
    if variableKnown name then none else some ("unknown name '".toList ++ name ++ ['\''])
  | .unaryNot operand => validateNames operand
  | .binaryOp _ left right => (validateNames left).or (validateNames right)
  | .functionCall name arg =>
    if functionKnown name then validateNames arg else some ("unknown function '".toList ++ name ++ ['\''])

def exprParse (input : List Char) : Except Fail ExprNode := do
  let s ← State.advance { cur := .eof, lexer := { rest := input } }
  let (ast, s) ← parseOr (input.length + 2) s
  if s.cur = .eof then
    match validateNames ast with
    | none => return ast
    | some text => throw (.message text)
  throw (.message "unexpected token after expression".toList)

/-! ## Printing -/

def BinaryOp.str : BinaryOp → String
  | add => "+"
  | sub => "-"
  | mul => "*"
  | div => "/"
  | mod => " mod "
  | and => " and "
  | or => " or "
  | xor => " xor "
  | lt => "<"
  | le => "<="
  | eq => "="
  | ge => ">="
  | gt => ">"
  | ne => "<>"

/-- `%d` where the value is a byte, and `#%X` of its 32 bits where it is not. -/
def literalStr (v : BitVec 32) : List Char :=
  if v.toInt < 0 ∨ 255 < v.toInt then '#' :: Radix.write 16 v.toNat else Radix.write 10 v.toNat

def exprToString : ExprNode → List Char
  | .literal v => literalStr v
  | .var name => name
  | .unaryNot operand => "not ".toList ++ exprToString operand
  | .binaryOp op left right => ['('] ++ exprToString left ++ op.str.toList ++ exprToString right ++ [')']
  | .functionCall name arg => name ++ ['('] ++ exprToString arg ++ [')']

end Koncepcja.Expression
