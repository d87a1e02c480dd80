import Koncepcja.M4.Http
import Mathlib.Data.Bool.AllAny

/-!
# What Is Found in a Request

A request is written down and taken apart again. The key of a web socket is never found, a request without header
lines is not accepted, and the values of the headers are found behind one space.

## Main results

- `parseHeader_line`: what a header line does.
- `parseRequest_render`: what is made of a request.
- `recovers_iff`: when everything is found again.
-/

namespace Koncepcja.M4.Http

open Search (find lines)

/-! ## Letters -/

theorem eq_of_toLower_eq {c d : Char} (h : c.toLower = d) (hd : d.toNat < 97) : c = d := by
  delta Char.toLower at h
  split at h
  · rename_i hc
    have hle : 65 ≤ c.toNat := hc.1
    have hlt : c.toNat ≤ 90 := hc.2
    have hval : d.toNat = (c.val + ('a'.val - 'A'.val)).toNat := by rw [← h]; rfl
    have hsum : (c.val + ('a'.val - 'A'.val)).toNat = c.toNat + 32 := by
      rw [UInt32.toNat_add]
      show (c.toNat + 32) % 2 ^ 32 = _
      omega
    omega
  · exact h

theorem head_map_toLower {s : List Char} {d : Char} (hd : d.toNat < 97) (h : (s.map Char.toLower).head? = some d) :
    s.head? = some d := by
  cases s with
  | nil => cases h
  | cons c s => exact congrArg some (eq_of_toLower_eq (Option.some.inj h) hd)

/-! ## Names and values -/

theorem colon_inj {a b s t : List Char} (ha : ':' ∉ a) (hb : ':' ∉ b) :
    a ++ ':' :: s = b ++ ':' :: t ↔ a = b ∧ s = t := by
  refine ⟨fun h => ?_, fun ⟨hab, hst⟩ => by rw [hab, hst]⟩
  have hfind := Search.find_first ha [] s
  rw [List.singleton_append, h] at hfind
  have hpair := Option.some.inj (hfind.symm.trans (Search.find_first hb [] t))
  exact ⟨congrArg Prod.fst hpair, congrArg Prod.snd hpair⟩

theorem colon_prefix {a b s t : List Char} (ha : ':' ∉ a) (hb : ':' ∉ b) :
    b ++ ':' :: t <+: a ++ ':' :: s ↔ a = b ∧ t <+: s := by
  constructor
  · rintro ⟨u, hu⟩
    rw [List.append_assoc, List.cons_append] at hu
    obtain ⟨hab, hst⟩ := (colon_inj hb ha).1 hu
    exact ⟨hab.symm, u, hst⟩
  · rintro ⟨rfl, u, rfl⟩
    exact ⟨u, by rw [List.append_assoc, List.cons_append]⟩

/-- The spaces around a value. -/
def padded (lead : Nat) (value : List Char) (trail : Nat) : List Char :=
  List.replicate lead ' ' ++ value ++ List.replicate trail ' '

section Padded

variable {value : List Char} {trail : Nat} (hhead : value.head? ≠ some ' ') (htrail : value = [] → trail = 0)

include hhead htrail

theorem padded_head (lead : Nat) : (padded lead value trail).head? = some ' ' ↔ 1 ≤ lead := by
  cases lead with
  | succ lead => exact iff_of_true rfl (Nat.le_add_left 1 lead)
  | zero =>
    refine iff_of_false ?_ (Nat.not_succ_le_zero 0)
    cases value with
    | nil => rw [padded, htrail rfl]; exact Option.some_ne_none ' ' ∘ Eq.symm
    | cons c value => exact hhead

theorem space_prefix_padded (lead : Nat) : [' '] <+: padded lead value trail ↔ 1 ≤ lead := by
  rw [← padded_head hhead htrail lead]
  cases padded lead value trail with
  | nil => exact iff_of_false (fun h => absurd (List.prefix_nil.1 h) (List.cons_ne_nil _ _)) (Option.some_ne_none ' ' ∘ Eq.symm)
  | cons c s =>
    rw [List.cons_prefix_cons, List.head?_cons, Option.some_inj, eq_comm]
    exact and_iff_left (List.nil_prefix)

theorem padded_eq {word : List Char} (hword : word.head? ≠ some ' ') (hlast : word.getLast? ≠ some ' ') (lead : Nat) :
    padded lead value trail = ' ' :: word ↔ lead = 1 ∧ value = word ∧ trail = 0 := by
  constructor
  · intro h
    have hlead := (padded_head hhead htrail lead).1 (congrArg List.head? h)
    obtain ⟨lead, rfl⟩ := Nat.exists_eq_add_of_le' hlead
    have hrest : padded lead value trail = word := (List.cons.inj h).2
    have hzero : lead = 0 := Nat.eq_zero_of_not_pos fun hpos =>
      hword (hrest ▸ (padded_head hhead htrail lead).2 hpos)
    subst hzero
    have htrail0 : trail = 0 := by
      cases trail with
      | zero => rfl
      | succ trail =>
        refine absurd ?_ hlast
        rw [← hrest, padded, List.replicate_succ', ← List.append_assoc, List.getLast?_concat]
    subst htrail0
    refine ⟨rfl, ?_, rfl⟩
    rw [← hrest, padded]
    exact (List.append_nil value).symm
  · rintro ⟨rfl, rfl, rfl⟩
    rw [padded, List.replicate_zero, List.append_nil]
    rfl

end Padded

/-! ## Header lines -/

namespace Header

variable (h : Header)

/-- The line with small letters. -/
def lowerLine : List Char :=
  h.name.map Char.toLower ++ ':' :: padded h.lead (h.value.map Char.toLower) h.trail

theorem map_line : h.line.map Char.toLower = h.lowerLine := by
  simp only [line, lowerLine, padded, List.map_append, List.map_cons, List.map_replicate]
  rfl

theorem colon_notMem : ':' ∉ h.name.map Char.toLower := by
  rw [List.mem_map]
  rintro ⟨c, hc, hlow⟩
  exact (h.name_ok c hc).1 (eq_of_toLower_eq hlow (by decide))

theorem lower_head : (h.value.map Char.toLower).head? ≠ some ' ' := fun hhead =>
  h.value_head (head_map_toLower (by decide) hhead)

theorem lower_trail (hvalue : h.value.map Char.toLower = []) : h.trail = 0 := h.trail_ok (List.map_eq_nil_iff.1 hvalue)

theorem take_lowerLine {key : List Char} (hkey : ':' ∉ key) {n : Nat} (hn : n = key.length + 2) :
    h.lowerLine.take n = key ++ [':', ' '] ↔ h.name.map Char.toLower = key ∧ 1 ≤ h.lead := by
  have hpre : h.lowerLine.take n = key ++ [':', ' '] ↔ key ++ [':', ' '] <+: h.lowerLine := by
    rw [List.prefix_iff_eq_take, List.length_append, hn]
    exact eq_comm
  rw [hpre, lowerLine, colon_prefix h.colon_notMem hkey, space_prefix_padded h.lower_head h.lower_trail]

theorem lowerLine_eq {key word : List Char} (hkey : ':' ∉ key) (hword : word.head? ≠ some ' ')
    (hlast : word.getLast? ≠ some ' ') : h.lowerLine = key ++ ':' :: ' ' :: word ↔
      h.name.map Char.toLower = key ∧ h.lead = 1 ∧ h.value.map Char.toLower = word ∧ h.trail = 0 := by
  rw [lowerLine, colon_inj h.colon_notMem hkey, padded_eq h.lower_head h.lower_trail hword hlast]

theorem line_cr : '\r' ∉ h.line := by
  simp only [line, List.mem_append, List.mem_cons, List.mem_replicate, not_or]
  exact ⟨fun hc => (h.name_ok _ hc).2.1 rfl, by decide, ⟨fun hc => absurd hc.2 (by decide),
    fun hc => (h.value_ok _ hc).1 rfl⟩, fun hc => absurd hc.2 (by decide)⟩

theorem line_lf : '\n' ∉ h.line := by
  simp only [line, List.mem_append, List.mem_cons, List.mem_replicate, not_or]
  exact ⟨fun hc => (h.name_ok _ hc).2.2 rfl, by decide, ⟨fun hc => absurd hc.2 (by decide),
    fun hc => (h.value_ok _ hc).2 rfl⟩, fun hc => absurd hc.2 (by decide)⟩

theorem line_ne : h.line ≠ [] := List.append_ne_nil_of_right_ne_nil _ (List.cons_ne_nil _ _)

/-- What a line changes, when nothing is thrown. -/
def apply (req : HttpRequest) : HttpRequest :=
  if h.named "content-length" ∧ 1 ≤ h.lead then { req with contentLength := contentLength h.line }
  else if h.named "content-type" ∧ 1 ≤ h.lead then
    let contentType := h.line.drop 14
    if (find "boundary=".toList h.lowerLine).isSome then { req with contentType, boundary := boundary contentType }
    else { req with contentType }
  else if h.named "upgrade" ∧ h.lead = 1 ∧ h.value.map Char.toLower = "websocket".toList ∧ h.trail = 0 then
    { req with isWebsocketUpgrade := true }
  else req

/-- The line of the key with one space and nothing behind it. -/
def Throws : Prop := h.named "sec-websocket-key" ∧ h.lead = 1 ∧ h.value = []

instance : Decidable h.Throws := inferInstanceAs (Decidable (_ ∧ _))

theorem named_iff (name : String) : h.named name = true ↔ h.name.map Char.toLower = name.toList := decide_eq_true_iff

end Header

theorem strip_line (h : Header) (tail : List Char) (htail : tail = [] ∨ tail = ['\r']) :
    (if (h.line ++ tail).getLast? = some '\r' then (h.line ++ tail).dropLast else h.line ++ tail) = h.line := by
  rcases htail with rfl | rfl
  · rw [List.append_nil, if_neg]
    exact fun hlast => h.line_cr (List.mem_of_getLast? hlast)
  · rw [List.getLast?_concat, if_pos rfl, List.dropLast_concat]

theorem not_named {h : Header} {name other : String} (hname : h.named name) (hne : name.toList ≠ other.toList) :
    ¬h.named other := by
  rw [h.named_iff] at hname ⊢
  exact fun hother => hne (hname.symm.trans hother)

theorem take_key (h : Header) : h.lowerLine.take 20 = "sec-websocket-key: ".toList ↔ h.Throws := by
  have hshort : h.lowerLine.take 20 = "sec-websocket-key: ".toList ↔ h.lowerLine = "sec-websocket-key: ".toList := by
    constructor
    · intro htake
      have hlength := congrArg List.length htake
      rw [List.length_take, show "sec-websocket-key: ".toList.length = 19 from by decide] at hlength
      rwa [List.take_of_length_le (by omega)] at htake
    · intro hline
      rw [hline]
      decide
  have hline := @Header.lowerLine_eq h "sec-websocket-key".toList [] (by decide) (by decide) (by decide)
  rw [hshort, Header.Throws, h.named_iff]
  refine hline.trans (and_congr_right fun _ => and_congr_right fun _ => ?_)
  rw [List.map_eq_nil_iff]
  exact ⟨fun hvalue => hvalue.1, fun hvalue => ⟨hvalue, h.trail_ok hvalue⟩⟩

/-- A header line, with or without its carriage return. -/
theorem parseHeader_line (h : Header) (tail : List Char) (htail : tail = [] ∨ tail = ['\r']) (req : HttpRequest) :
    parseHeader (h.line ++ tail) req = if h.Throws then .error .outOfRange else .ok (h.apply req) := by
  have hlength : h.lowerLine.take 16 = "content-length: ".toList ↔ h.named "content-length" ∧ 1 ≤ h.lead := by
    rw [h.named_iff]
    exact @Header.take_lowerLine h "content-length".toList (by decide) _ (by decide)
  have htype : h.lowerLine.take 14 = "content-type: ".toList ↔ h.named "content-type" ∧ 1 ≤ h.lead := by
    rw [h.named_iff]
    exact @Header.take_lowerLine h "content-type".toList (by decide) _ (by decide)
  have hupgrade : h.lowerLine = "upgrade: websocket".toList ↔ h.named "upgrade" ∧ h.lead = 1 ∧
      h.value.map Char.toLower = "websocket".toList ∧ h.trail = 0 := by
    rw [h.named_iff]
    exact @Header.lowerLine_eq h "upgrade".toList "websocket".toList (by decide) (by decide) (by decide)
  rw [parseHeader]
  simp only [strip_line h tail htail, h.map_line, hlength, htype, hupgrade, take_key]
  by_cases hthrows : h.Throws
  · -- The line ends one character before the place that the value is taken from.
    have hline : h.line.length = 19 := by
      have hlength := congrArg List.length ((take_key h).2 hthrows)
      rw [List.length_take, ← h.map_line, List.length_map, show "sec-websocket-key: ".toList.length = 19 from by decide]
        at hlength
      omega
    have hsubstr : substr h.line 20 = .error .outOfRange := if_neg (by omega)
    rw [if_pos hthrows, if_pos hthrows, hsubstr]
    rfl
  · rw [if_neg hthrows, if_neg hthrows, Header.apply]
    by_cases hl : h.named "content-length" ∧ 1 ≤ h.lead
    · have ht : ¬(h.named "content-type" ∧ 1 ≤ h.lead) := fun ht => not_named hl.1 (by decide) ht.1
      have hu : ¬(h.named "upgrade" ∧ h.lead = 1 ∧ h.value.map Char.toLower = "websocket".toList ∧ h.trail = 0) :=
        fun hu => not_named hl.1 (by decide) hu.1
      simp only [if_pos hl, if_neg ht, if_neg hu]
    · by_cases ht : h.named "content-type" ∧ 1 ≤ h.lead
      · have hu : ¬(h.named "upgrade" ∧ h.lead = 1 ∧ h.value.map Char.toLower = "websocket".toList ∧ h.trail = 0) :=
          fun hu => not_named ht.1 (by decide) hu.1
        simp only [if_neg hl, if_pos ht, if_neg hu]
      · simp only [if_neg hl, if_neg ht]

/-! ## The header -/

/-- The header lines, without the last line break. -/
def headersBlock : List Header → List Char
  | [] => []
  | [h] => h.line
  | h :: hs => h.line ++ '\r' :: '\n' :: headersBlock hs

/-- The header lines as they are sent. -/
def headerLines (hs : List Header) : List Char := hs.flatMap fun h => h.line ++ ['\r', '\n']

theorem headerLines_cons (h : Header) (hs : List Header) :
    headerLines (h :: hs) = h.line ++ '\r' :: '\n' :: headerLines hs := by
  rw [headerLines, List.flatMap_cons, List.append_assoc]
  rfl

theorem isPrefixOf_headerLines (h : Header) (hs : List Header) (rest pattern : List Char) :
    ('\r' :: pattern).isPrefixOf (headerLines (h :: hs) ++ rest) = false := by
  obtain ⟨c, line, hline⟩ := List.exists_cons_of_ne_nil h.line_ne
  have hc : c ≠ '\r' := fun hc => h.line_cr (hline ▸ hc ▸ List.mem_cons_self)
  rw [headerLines_cons, hline]
  exact Search.isPrefixOf_cons_of_ne hc _ _

theorem find_headers (h : Header) (hs : List Header) (body : List Char) :
    find ['\r', '\n', '\r', '\n'] (headerLines (h :: hs) ++ '\r' :: '\n' :: body) =
      some (headersBlock (h :: hs), body) := by
  induction hs generalizing h with
  | nil =>
    rw [headerLines_cons, List.append_assoc]
    exact Search.find_first h.line_cr _ body
  | cons h' hs ih =>
    have hstart := isPrefixOf_headerLines h' hs ('\r' :: '\n' :: body) ['\n']
    rw [headerLines_cons, List.append_assoc, Search.find_append h.line_cr, List.cons_append, List.cons_append]
    -- The line break is followed by a line, so that the pattern does not start there.
    rw [find, if_neg, Search.find_cons_of_ne (by decide), ih h']
    · rfl
    · rw [List.isPrefixOf_cons_cons, List.isPrefixOf_cons_cons, hstart, Bool.and_false, Bool.and_false]
      exact Bool.false_ne_true

theorem foldlM_headers (hs : List Header) (req : HttpRequest) :
    (lines '\n' (headersBlock hs)).foldlM (fun req hline => parseHeader hline req) req =
      if ∃ h ∈ hs, h.Throws then .error .outOfRange else .ok (hs.foldl (fun req h => h.apply req) req) := by
  induction hs generalizing req with
  | nil => rfl
  | cons h hs ih =>
    -- A line with its break, or the last one without.
    have hstep (tail : List Char) (htail : tail = [] ∨ tail = ['\r']) :
        ((h.line ++ tail) :: lines '\n' (headersBlock hs)).foldlM (fun req hline => parseHeader hline req) req =
          if ∃ h' ∈ h :: hs, h'.Throws then .error .outOfRange
          else .ok ((h :: hs).foldl (fun req h => h.apply req) req) := by
      rw [List.foldlM_cons, parseHeader_line h tail htail]
      by_cases hthrows : h.Throws
      · rw [if_pos hthrows, if_pos ⟨h, List.mem_cons_self, hthrows⟩]
        rfl
      · have hrest : (∃ h' ∈ h :: hs, h'.Throws) ↔ ∃ h' ∈ hs, h'.Throws := by
          rw [List.exists_mem_cons_iff, or_iff_right hthrows]
        rw [if_neg hthrows]
        simp only [hrest]
        exact ih (h.apply req)
    cases hs with
    | nil =>
      have hline := hstep [] (Or.inl rfl)
      rw [List.append_nil] at hline
      rw [headersBlock, Search.lines_single h.line_lf h.line_ne]
      exact hline
    | cons h' hs =>
      have hlf : '\n' ∉ h.line ++ ['\r'] := by
        rw [List.mem_append, not_or]
        exact ⟨h.line_lf, by decide⟩
      have hsplit := Search.lines_append hlf (headersBlock (h' :: hs))
      rw [List.append_assoc, List.singleton_append] at hsplit
      rw [headersBlock, hsplit]
      · exact hstep ['\r'] (Or.inr rfl)
      · exact List.cons_ne_nil h' hs

/-! ## The request -/

/-- The request before its header lines are looked at. -/
def Request.start (r : Request) : HttpRequest :=
  { method := r.method, path := r.path, queryString := r.query.getD [] }

theorem Request.target_ok (r : Request) : ∀ c ∈ r.target, c ≠ ' ' ∧ c ≠ '\r' := by
  intro c hc
  cases hq : r.query with
  | none =>
    rw [Request.target, hq] at hc
    exact ⟨(r.path_ok c hc).1, (r.path_ok c hc).2.2.1⟩
  | some q =>
    rw [Request.target, hq] at hc
    rcases List.mem_append.1 hc with hc | hc
    · exact ⟨(r.path_ok c hc).1, (r.path_ok c hc).2.2.1⟩
    · rcases List.mem_cons.1 hc with rfl | hc
      · exact ⟨by decide, by decide⟩
      · exact ⟨(r.query_ok q hq c hc).1, (r.query_ok q hq c hc).2.1⟩

theorem parseRequest_line (r : Request) :
    parseRequest r.render {} = parseHeaders (headerLines r.headers ++ '\r' :: '\n' :: r.body) r.start := by
  have hrender : r.render = (r.method ++ ' ' :: r.target ++ ' ' :: r.version) ++
      (['\r', '\n'] ++ (headerLines r.headers ++ '\r' :: '\n' :: r.body)) := by
    rw [Request.render, headerLines, List.append_assoc, List.append_assoc, List.append_assoc]
    rfl
  have hcr : '\r' ∉ r.method ++ ' ' :: r.target ++ ' ' :: r.version := by
    simp only [List.mem_append, List.mem_cons, not_or]
    exact ⟨⟨fun hc => (r.method_ok _ hc).2.1 rfl, by decide, fun hc => (r.target_ok _ hc).2 rfl⟩, by decide,
      fun hc => (r.version_ok _ hc).2.1 rfl⟩
  -- The method ends at the first blank, the version begins behind the last.
  have hmethod : find [' '] (r.method ++ ' ' :: r.target ++ ' ' :: r.version) =
      some (r.method, r.target ++ ' ' :: r.version) := by
    rw [List.append_assoc, List.cons_append]
    exact Search.find_first (fun hc => (r.method_ok _ hc).1 rfl) [] _
  have hversion : find [' '] (r.target ++ ' ' :: r.version).reverse = some (r.version.reverse, r.target.reverse) := by
    rw [List.reverse_append, List.reverse_cons, List.append_assoc]
    exact Search.find_first (fun hc => (r.version_ok _ (List.mem_reverse.1 hc)).1 rfl) [] _
  rw [parseRequest, hrender, Search.find_first hcr]
  simp only [hmethod, hversion, List.reverse_reverse]
  have hpath : '?' ∉ r.path := fun hc => (r.path_ok _ hc).2.1 rfl
  -- The target is the path alone, or the path, a question mark and the query.
  cases hq : r.query with
  | none =>
    have htarget : r.target = r.path := by rw [Request.target, hq]
    rw [htarget, Search.find_eq_none hpath, Request.start, hq]
    rfl
  | some q =>
    have htarget : r.target = r.path ++ (['?'] ++ q) := by rw [Request.target, hq]; rfl
    rw [htarget, Search.find_first hpath, Request.start, hq]
    rfl

theorem foldl_apply_rest (hs : List Header) (req : HttpRequest) :
    let req' := hs.foldl (fun req h => h.apply req) req
    (req'.method, req'.path, req'.queryString, req'.body) = (req.method, req.path, req.queryString, req.body) := by
  have hframe (req : HttpRequest) (h : Header) : ((h.apply req).method, (h.apply req).path, (h.apply req).queryString,
      (h.apply req).body) = (req.method, req.path, req.queryString, req.body) := by
    rw [Header.apply]
    dsimp only
    split_ifs <;> rfl
  have hview := Search.foldl_view (fun req : HttpRequest => (req.method, req.path, req.queryString, req.body))
    (fun _ => false) (fun s _ => s) (fun req h _ => hframe req h) (fun req h _ => hframe req h) hs req
  rwa [List.filter_false] at hview

/-- What is made of a request. -/
theorem parseRequest_render (r : Request) : parseRequest r.render {} =
    if r.headers = [] then .ok (false, r.start)
    else if ∃ h ∈ r.headers, h.Throws then .error .outOfRange
    else .ok (true, { r.headers.foldl (fun req h => h.apply req) r.start with body := r.body }) := by
  rw [parseRequest_line]
  cases hh : r.headers with
  | nil =>
    -- No header, no length, no body: the second line break of the pattern is missing.
    have hbody : r.body = [] := r.length_none fun h hmem => absurd (hh ▸ hmem) List.not_mem_nil
    rw [hbody, if_pos rfl]
    rfl
  | cons h hs =>
    rw [if_neg (List.cons_ne_nil h hs), parseHeaders, find_headers]
    simp only [foldlM_headers]
    split
    · rfl
    · have hrest := foldl_apply_rest (h :: hs) r.start
      have hbody := congrArg (fun p => p.2.2.2) hrest
      show Except.ok (true, if r.body = [] then _ else _) = _
      split
      · rename_i hempty
        rw [hempty]
        exact congrArg (fun b => Except.ok (true, { (h :: hs).foldl (fun req h => h.apply req) r.start with body := b }))
          hbody
      · rfl

/-! ## What the headers say -/

theorem filter_once {r : Request} {name : String}
    (hname : name ∈ ["content-length", "content-type", "upgrade", "sec-websocket-key"]) :
    r.headers.filter (·.named name) = [] ∧ r.header name = [] ∨
      ∃ h, r.headers.filter (·.named name) = [h] ∧ r.header name = h.value := by
  have hlength := r.once name hname
  have hfind := List.head?_filter (l := r.headers) (p := (·.named name))
  rw [Request.header, ← hfind]
  cases hfilter : r.headers.filter (·.named name) with
  | nil => exact Or.inl ⟨rfl, rfl⟩
  | cons h hs =>
    rw [hfilter, List.length_cons] at hlength
    have hnil : hs = [] := List.length_eq_zero_iff.1 (by omega)
    exact Or.inr ⟨h, by rw [hnil], rfl⟩

theorem forall_named {r : Request} {name : String} {P : Header → Prop} :
    (∀ h ∈ r.headers, h.named name → P h) ↔ ∀ h ∈ r.headers.filter (·.named name), P h := by
  simp only [List.mem_filter, and_imp]

/-- What a part of the request is when the header lines have been looked at, if it is what the headers of one name
    make of it. -/
theorem view_headers {β : Type} (view : HttpRequest → β) (touch : β → Header → β) (r : Request) {name : String}
    (hname : name ∈ ["content-length", "content-type", "upgrade", "sec-websocket-key"])
    (hframe : ∀ (req : HttpRequest) (h : Header), h.named name = false → view (h.apply req) = view req)
    (htouch : ∀ (req : HttpRequest) (h : Header), h.named name = true → view (h.apply req) = touch (view req) h) :
    let final := r.headers.foldl (fun req h => h.apply req) r.start
    r.headers.filter (·.named name) = [] ∧ r.header name = [] ∧ view final = view r.start ∨
      ∃ h, r.headers.filter (·.named name) = [h] ∧ r.header name = h.value ∧ view final = touch (view r.start) h := by
  have hview := Search.foldl_view view (·.named name) touch hframe htouch r.headers r.start
  rcases filter_once hname with ⟨hnil, hvalue⟩ | ⟨h, hone, hvalue⟩
  · rw [hnil] at hview
    exact Or.inl ⟨hnil, hvalue, hview⟩
  · rw [hone] at hview
    exact Or.inr ⟨h, hone, hvalue, hview⟩

theorem drop_line {h : Header} {name : String} (hname : h.named name) (hlead : 1 ≤ h.lead) {n : Nat}
    (hn : n = name.toList.length + 2) : h.line.drop n = padded (h.lead - 1) h.value h.trail := by
  obtain ⟨lead, hlead⟩ := Nat.exists_eq_add_of_le' hlead
  have hlength : h.name.length + 2 = n := by
    rw [hn, ← (h.named_iff name).1 hname, List.length_map]
  have hline : h.line = (h.name ++ [':', ' ']) ++ padded lead h.value h.trail := by
    rw [Header.line, hlead, List.replicate_succ, padded, List.append_assoc h.name]
    rfl
  rw [hline, hlead, List.drop_append_of_le_length (by rw [List.length_append, ← hlength]; rfl), List.drop_of_length_le]
  · rfl
  · rw [List.length_append, ← hlength]
    rfl

theorem stoi_padded {value : List Char} (hne : value ≠ []) (hdigits : ∀ c ∈ value, c.isDigit) (lead trail : Nat) :
    stoi (padded lead value trail) = if decimal value < 2 ^ 31 then some (decimal value : Int) else none := by
  obtain ⟨c, value, rfl⟩ := List.exists_cons_of_ne_nil hne
  have hc : c.isDigit := hdigits c List.mem_cons_self
  have hrange : 48 ≤ c.toNat ∧ c.toNat ≤ 57 := Char.isDigit_iff_toNat.1 hc
  have hne (d : Char) (hd : d.toNat < 48) : c ≠ d := by
    rintro rfl
    omega
  -- A digit is no blank and no sign, so the padding is all that is skipped.
  have hspace : isspace c = false := by
    rw [isspace, decide_eq_false (hne ' ' (by decide)), Bool.false_or, Bool.and_eq_false_iff]
    exact Or.inr (decide_eq_false (by omega))
  have hdrop : (padded lead (c :: value) trail).dropWhile isspace = c :: value ++ List.replicate trail ' ' := by
    rw [padded, List.append_assoc, List.dropWhile_append_of_pos fun a ha => ?_, List.cons_append,
      List.dropWhile_cons_of_neg (Bool.eq_false_iff.1 hspace)]
    rw [List.eq_of_mem_replicate ha]
    rfl
  -- The digits end at the trailing blanks.
  have htake : (c :: value ++ List.replicate trail ' ').takeWhile Char.isDigit = c :: value := by
    rw [List.takeWhile_append_of_pos hdigits]
    cases trail with
    | zero => exact List.append_nil _
    | succ trail => exact List.append_nil _
  have hminus : ¬(c :: value ++ List.replicate trail ' ').head? = some '-' := fun hhead => hne '-' (by decide) (Option.some.inj hhead)
  have hplus : ¬(c :: value ++ List.replicate trail ' ').head? = some '+' := fun hhead => hne '+' (by decide) (Option.some.inj hhead)
  simp only [stoi, hdrop, hminus, hplus, or_self, if_false, htake, List.cons_ne_nil]
  have hrange : -2 ^ 31 ≤ (decimal (c :: value) : Int) ∧ (decimal (c :: value) : Int) < 2 ^ 31 ↔
      decimal (c :: value) < 2 ^ 31 := by omega
  simp only [hrange]

theorem contentLength_line {h : Header} (hname : h.named "content-length") (hlead : 1 ≤ h.lead) (hne : h.value ≠ [])
    (hdigits : ∀ c ∈ h.value, c.isDigit) :
    contentLength h.line = if decimal h.value ≤ maxReq then decimal h.value else 0 := by
  have hdrop := drop_line hname hlead (n := 16) (by decide)
  have hlength : 16 ≤ h.line.length := by
    refine Nat.le_of_not_lt fun hlt => hne ?_
    rw [List.drop_of_length_le (Nat.le_of_lt hlt)] at hdrop
    exact (List.append_eq_nil_iff.1 (List.append_eq_nil_iff.1 hdrop.symm).1).2
  have hstoi : (substr h.line 16).toOption.bind stoi =
      if decimal h.value < 2 ^ 31 then some (decimal h.value : Int) else none := by
    rw [substr, if_pos hlength, hdrop]
    exact stoi_padded hne hdigits _ _
  rw [contentLength, hstoi]
  have hmax : maxReq < 2 ^ 31 := by decide
  by_cases hlt : decimal h.value < 2 ^ 31
  · rw [if_pos hlt]
    simp only [Int.toNat_natCast]
    split_ifs <;> omega
  · rw [if_neg hlt, if_neg (by omega)]

/-- When everything is found again. -/
structure Recoverable (r : Request) : Prop where
  headers : r.headers ≠ []
  path : urlDecode r.path = r.path
  query : urlDecode (r.query.getD []) = r.query.getD []
  contentLength : ∀ h ∈ r.headers, h.named "content-length" → r.body = [] ∨ 1 ≤ h.lead ∧ r.body.length ≤ maxReq
  contentType : ∀ h ∈ r.headers, h.named "content-type" →
    h.lead = 1 ∧ h.trail = 0 ∨ h.lead = 0 ∧ h.value = []
  upgrade : ∀ h ∈ r.headers, h.named "upgrade" → h.value.map Char.toLower = "websocket".toList →
    h.lead = 1 ∧ h.trail = 0
  websocketKey : ∀ h ∈ r.headers, h.named "sec-websocket-key" → h.value = [] ∧ h.lead ≠ 1

/-- The request when the header lines have been looked at. -/
def Request.final (r : Request) : HttpRequest := r.headers.foldl (fun req h => h.apply req) r.start

theorem final_contentLength (r : Request) : r.final.contentLength = decimal (r.header "content-length") ↔
    ∀ h ∈ r.headers, h.named "content-length" → r.body = [] ∨ 1 ≤ h.lead ∧ r.body.length ≤ maxReq := by
  rw [forall_named]
  have hframe (req : HttpRequest) (h : Header) (hnot : h.named "content-length" = false) :
      (h.apply req).contentLength = req.contentLength := by
    rw [Header.apply]
    simp only [hnot, Bool.false_eq_true, false_and, if_false]
    split_ifs <;> rfl
  have htouch (req : HttpRequest) (h : Header) (hname : h.named "content-length" = true) :
      (h.apply req).contentLength = if 1 ≤ h.lead then contentLength h.line else req.contentLength := by
    rw [Header.apply]
    by_cases hlead : 1 ≤ h.lead
    · rw [if_pos ⟨hname, hlead⟩, if_pos hlead]
    · rw [if_neg fun hc => hlead hc.2, if_neg hlead]
      split_ifs <;> rfl
  -- Without such a header the length is 0; with one, it is what the line gives, up to the cap.
  rcases view_headers (fun req => req.contentLength)
    (fun n h => if 1 ≤ h.lead then contentLength h.line else n)
    r (by decide) hframe htouch with ⟨hnil, hvalue, hview⟩ | ⟨h, hone, hvalue, hview⟩
  · rw [hnil, hvalue]
    exact iff_of_true hview fun h hmem => absurd hmem List.not_mem_nil
  · have hmem : h ∈ r.headers.filter (·.named "content-length") := hone ▸ List.mem_cons_self
    obtain ⟨hmem, hname⟩ := List.mem_filter.1 hmem
    obtain ⟨hne, hdigits, hdecimal⟩ := r.length_ok h hmem hname
    have hempty : r.body = [] ↔ r.body.length = 0 := List.length_eq_zero_iff.symm
    rw [hone, hvalue, hdecimal, List.forall_mem_singleton, hempty]
    refine (Eq.congr_left hview).trans ?_
    by_cases hlead : 1 ≤ h.lead
    · rw [if_pos hlead, contentLength_line hname hlead hne hdigits, hdecimal]
      split <;> omega
    · rw [if_neg hlead]
      show 0 = r.body.length ↔ _
      omega

theorem final_content_type (r : Request) : r.final.contentType = r.header "content-type" ↔
    ∀ h ∈ r.headers, h.named "content-type" → h.lead = 1 ∧ h.trail = 0 ∨ h.lead = 0 ∧ h.value = [] := by
  rw [forall_named]
  have hframe (req : HttpRequest) (h : Header) (hnot : h.named "content-type" = false) :
      (h.apply req).contentType = req.contentType := by
    rw [Header.apply]
    simp only [hnot, Bool.false_eq_true, false_and, if_false]
    split_ifs <;> rfl
  have htouch (req : HttpRequest) (h : Header) (hname : h.named "content-type" = true) :
      (h.apply req).contentType = if 1 ≤ h.lead then h.line.drop 14 else req.contentType := by
    have hlength : ¬(h.named "content-length" ∧ 1 ≤ h.lead) := fun hc => not_named hname (by decide) hc.1
    rw [Header.apply, if_neg hlength]
    -- The value is cut at one space: with more in front of it or any behind it, the padding is stored.
    by_cases hlead : 1 ≤ h.lead
    · rw [if_pos ⟨hname, hlead⟩, if_pos hlead]
      dsimp only
      split_ifs <;> rfl
    · rw [if_neg fun hc => hlead hc.2, if_neg hlead]
      split_ifs <;> rfl
  -- Without such a header the field is empty; with one, it is what is stored of its line.
  rcases view_headers (fun req => req.contentType)
    (fun s h => if 1 ≤ h.lead then h.line.drop 14 else s)
    r (by decide) hframe htouch with ⟨hnil, hvalue, hview⟩ | ⟨h, hone, hvalue, hview⟩
  · rw [hnil, hvalue]
    exact iff_of_true hview fun h hmem => absurd hmem List.not_mem_nil
  · have hmem : h ∈ r.headers.filter (·.named "content-type") := hone ▸ List.mem_cons_self
    obtain ⟨hmem, hname⟩ := List.mem_filter.1 hmem
    rw [hone, hvalue, List.forall_mem_singleton]
    refine (Eq.congr_left hview).trans ?_
    by_cases hlead : 1 ≤ h.lead
    · rw [if_pos hlead, drop_line hname hlead (by decide), padded]
      constructor
      · intro hpad
        have hlength := congrArg List.length hpad
        simp only [List.length_append, List.length_replicate] at hlength
        exact Or.inl ⟨by omega, by omega⟩
      · rintro (⟨hone, hzero⟩ | ⟨hzero, -⟩)
        · rw [hone, hzero]
          exact List.append_nil _
        · omega
    · have hzero : h.lead = 0 := Nat.eq_zero_of_not_pos hlead
      rw [if_neg hlead, hzero]
      show [] = h.value ↔ _
      rw [eq_comm]
      exact ⟨fun hnil => Or.inr ⟨rfl, hnil⟩, fun hor => hor.elim (fun hc => absurd hc.1 Nat.zero_ne_one) (·.2)⟩

theorem final_upgrade (r : Request) :
    r.final.isWebsocketUpgrade = decide ((r.header "upgrade").map Char.toLower = "websocket".toList) ↔
      ∀ h ∈ r.headers, h.named "upgrade" → h.value.map Char.toLower = "websocket".toList →
        h.lead = 1 ∧ h.trail = 0 := by
  rw [forall_named]
  have hframe (req : HttpRequest) (h : Header) (hnot : h.named "upgrade" = false) :
      (h.apply req).isWebsocketUpgrade = req.isWebsocketUpgrade := by
    rw [Header.apply]
    simp only [hnot, Bool.false_eq_true, false_and, if_false]
    split_ifs <;> rfl
  have htouch (req : HttpRequest) (h : Header) (hname : h.named "upgrade" = true) :
      (h.apply req).isWebsocketUpgrade = if h.lead = 1 ∧ h.value.map Char.toLower = "websocket".toList ∧ h.trail = 0 then true
        else req.isWebsocketUpgrade := by
    have hlength : ¬(h.named "content-length" ∧ 1 ≤ h.lead) := fun hc => not_named hname (by decide) hc.1
    have htype : ¬(h.named "content-type" ∧ 1 ≤ h.lead) := fun hc => not_named hname (by decide) hc.1
    rw [Header.apply, if_neg hlength, if_neg htype]
    simp only [hname, true_and]
    split <;> rfl
  rcases view_headers (fun req => req.isWebsocketUpgrade)
    (fun b h =>
      if h.lead = 1 ∧ h.value.map Char.toLower = "websocket".toList ∧ h.trail = 0 then true else b)
    r (by decide) hframe htouch with ⟨hnil, hvalue, hview⟩ | ⟨h, hone, hvalue, hview⟩
  · rw [hnil, hvalue]
    exact iff_of_true (hview.trans (decide_eq_false (List.ne_nil_of_length_pos (by decide)).symm).symm) fun h hmem => absurd hmem List.not_mem_nil
  · rw [hone, hvalue, List.forall_mem_singleton]
    refine (Eq.congr_left hview).trans ?_
    -- Only the header that asks for the upgrade is at stake.
    by_cases hword : h.value.map Char.toLower = "websocket".toList
    · rw [decide_eq_true hword]
      by_cases hplain : h.lead = 1 ∧ h.trail = 0
      · rw [if_pos ⟨hplain.1, hword, hplain.2⟩]
        exact iff_of_true rfl fun _ => hplain
      · rw [if_neg fun hc => hplain ⟨hc.1, hc.2.2⟩]
        exact iff_of_false Bool.false_ne_true fun hc => hplain (hc hword)
    · rw [decide_eq_false hword, if_neg fun hc => hword hc.2.1]
      exact iff_of_true rfl fun hc => absurd hc hword

theorem final_websocket_key (r : Request) : r.final.websocketKey = [] := by
  have hframe (req : HttpRequest) (h : Header) : (h.apply req).websocketKey = req.websocketKey := by
    rw [Header.apply]
    dsimp only
    split_ifs <;> rfl
  have hview := Search.foldl_view (fun req : HttpRequest => req.websocketKey) (fun _ => false) (fun s _ => s) (fun req h _ => hframe req h) (fun req h _ => hframe req h) r.headers r.start
  rwa [List.filter_false] at hview

theorem websocket_key_iff (r : Request) :
    (¬∃ h ∈ r.headers, h.Throws) ∧ r.final.websocketKey = r.header "sec-websocket-key" ↔
      ∀ h ∈ r.headers, h.named "sec-websocket-key" → h.value = [] ∧ h.lead ≠ 1 := by
  have hthrows : (¬∃ h ∈ r.headers, h.Throws) ↔
      ∀ h ∈ r.headers, h.named "sec-websocket-key" → ¬(h.lead = 1 ∧ h.value = []) := by
    simp only [Header.Throws, not_exists, not_and]
  rw [hthrows, final_websocket_key, forall_named, forall_named]
  rcases @filter_once r "sec-websocket-key" (by decide) with ⟨hnil, hvalue⟩ | ⟨h, hone, hvalue⟩
  · rw [hnil, hvalue]
    exact iff_of_true ⟨fun h hmem => absurd hmem List.not_mem_nil, rfl⟩ fun h hmem => absurd hmem List.not_mem_nil
  · rw [hone, hvalue, List.forall_mem_singleton, List.forall_mem_singleton, eq_comm]
    tauto

/-- A request is accepted and everything is found in it again if and only if it has a header line, there is nothing
    to decode in its path and its query, the length comes behind a space and is no greater than the greatest, the type
    and the word of the upgrade come behind one space and are followed by none, and it has no key. -/
theorem recovers_iff (r : Request) : Recovers r ↔ Recoverable r := by
  have hrest := foldl_apply_rest r.headers r.start
  rw [Prod.mk.injEq, Prod.mk.injEq, Prod.mk.injEq] at hrest
  obtain ⟨hmethod, hpath, hquery, -⟩ := hrest
  constructor
  · rintro ⟨req, hparse, -, hreqpath, hreqquery, hlength, htype, hupgrade, hkey, -⟩
    rw [parseRequest_render] at hparse
    split at hparse
    · cases hparse
    · rename_i hheaders
      split at hparse
      · cases hparse
      · rename_i hthrows
        cases hparse
        obtain hwebsocket := (websocket_key_iff r).1 ⟨hthrows, hkey⟩
        exact ⟨hheaders, hreqpath.symm.trans hpath, hreqquery.symm.trans hquery, (final_contentLength r).1 hlength,
          (final_content_type r).1 htype, (final_upgrade r).1 hupgrade, hwebsocket⟩
  · rintro ⟨hheaders, hurlpath, hurlquery, hlength, htype, hupgrade, hkey⟩
    obtain ⟨hthrows, hfinalkey⟩ := (websocket_key_iff r).2 hkey
    refine ⟨{ r.final with body := r.body }, ?_, hmethod, hpath.trans hurlpath.symm, hquery.trans hurlquery.symm,
      (final_contentLength r).2 hlength, (final_content_type r).2 htype, (final_upgrade r).2 hupgrade, hfinalkey, rfl⟩
    rw [parseRequest_render, if_neg hheaders, if_neg hthrows]
    rfl

/-- A header with one space before its value. -/
def plainHeader (name value : String) (name_ne : name.toList ≠ [] := by decide)
    (name_ok : ∀ c ∈ name.toList, c ≠ ':' ∧ c ≠ '\r' ∧ c ≠ '\n' := by exact List.all_iff_forall_prop.mp (by decide))
    (value_ok : ∀ c ∈ value.toList, c ≠ '\r' ∧ c ≠ '\n' := by exact List.all_iff_forall_prop.mp (by decide))
    (value_head : value.toList.head? ≠ some ' ' := by decide)
    (value_last : value.toList.getLast? ≠ some ' ' := by decide) : Header :=
  ⟨name.toList, 1, value.toList, 0, name_ne, name_ok, value_ok, value_head, value_last, fun _ => rfl⟩

/-- A browser opens the live preview. -/
def previewRequest : Request where
  method := "GET".toList
  path := "/ws/preview".toList
  query := none
  version := "HTTP/1.1".toList
  headers := [plainHeader "Upgrade" "websocket", plainHeader "Sec-WebSocket-Key" "dGhlIHNhbXBsZSBub25jZQ=="]
  body := []
  method_ok := List.all_iff_forall_prop.mp (by decide)
  path_ok := List.all_iff_forall_prop.mp (by decide)
  query_ok := by decide
  version_ok := List.all_iff_forall_prop.mp (by decide)
  once := by decide
  length_ok := by decide
  length_none := by decide

/-- The key of the request is lost. -/
theorem preview_not_recovered : ¬Recovers previewRequest := by
  rintro ⟨req, hparse, -, -, -, -, -, -, hkey, -⟩
  have hheaders : previewRequest.headers ≠ [] := List.cons_ne_nil _ _
  have hthrows : ¬∃ h ∈ previewRequest.headers, h.Throws := by decide
  rw [parseRequest_render, if_neg hheaders, if_neg hthrows] at hparse
  cases hparse
  exact absurd ((final_websocket_key previewRequest).symm.trans hkey) (by decide)

/-- Without header lines the request is not accepted. -/
example : parseRequest ['G', ' ', '/', ' ', 'H', '\r', '\n', '\r', '\n'] {} =
    .ok (false, { method := ['G'], path := ['/'] }) := by decide

end Koncepcja.M4.Http
