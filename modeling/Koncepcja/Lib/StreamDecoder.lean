import Mathlib.Data.List.Basic
import Mathlib.Data.List.Infix
import Mathlib.Data.Prod.Lex

/-!
# Decoders that Take a Stream Piece by Piece

A decoder is called with some input and with room for some output, takes a part of the one and fills a part
of the other. It may have taken all of the input while output is left over, because the room was used up.

## Main definitions

- `Decoder`: what every call keeps to, on any input.
- `Documented`: what the calls on a valid stream do.
- `takeIn`: calls with fresh room for each, until a piece of input is used up.

## Main results

- `takeIn_midway`: a piece of a valid stream is taken in as a whole, or it brings the stream to its end.
- `documented_known`: a decoder of one stream.
-/

namespace Koncepcja.StreamDecoder

/-! ## Decoders -/

/-- What a call reports: `Z_OK`, `Z_STREAM_END` or an error. -/
inductive Status where
  | ok
  | streamEnd
  | error (code : Int)
  deriving DecidableEq

/-- What a call did. -/
structure Called (σ β : Type) where
  state : σ
  status : Status
  /-- How much of the input it took. -/
  consumed : Nat
  output : List β

/-- A decoder, with what holds of a call with any input at all. -/
structure Decoder (σ α β : Type) where
  start : σ
  call : σ → List α → Nat → Called σ β
  /-- How much output the input taken so far may still give. -/
  owed : σ → Nat
  consumed_le : ∀ s inp room, (call s inp room).consumed ≤ inp.length
  output_le : ∀ s inp room, (call s inp room).output.length ≤ room
  /-- A call that takes no input lives off what it has taken before. -/
  progress : ∀ s inp room, inp ≠ [] → 0 < room → (call s inp room).status = .ok →
    0 < (call s inp room).consumed ∨ owed (call s inp room).state < owed s

variable {σ α β : Type}

/-! ## Valid streams -/

/-- The input is what comes next, as far as both go. -/
def Agree (inp rest : List α) : Prop := inp <+: rest ∨ rest <+: inp

theorem Agree.drop {inp rest : List α} (h : Agree inp rest) (k : Nat) : Agree (inp.drop k) (rest.drop k) :=
  h.imp (fun hpre => hpre.drop k) (fun hpre => hpre.drop k)

theorem take_eq_take_of_agree {inp rest : List α} (h : Agree inp rest) :
    inp.take rest.length = rest.take inp.length := by
  rcases h with ⟨t, rfl⟩ | ⟨t, rfl⟩
  · rw [List.take_left, List.take_of_length_le]
    rw [List.length_append]
    omega
  · rw [List.take_left, List.take_of_length_le]
    rw [List.length_append]
    omega

/-- The states in the middle of a stream, with the input and the output that are left. -/
inductive Midway (d : Decoder σ α β) (data : List α) (content : List β) : σ → List α → List β → Prop where
  | start : Midway d data content d.start data content
  | call {s rest todo inp room} : Midway d data content s rest todo → Agree inp rest →
      (d.call s inp room).status = .ok →
      Midway d data content (d.call s inp room).state (rest.drop (d.call s inp room).consumed)
        (todo.drop (d.call s inp room).output.length)

/-- What a call in the middle of a valid stream does. It stops when the room or the input is used up, and
    reports the end when it has given all of the output. -/
def Advances (r : Called σ β) (inp rest : List α) (todo : List β) (room : Nat) : Prop :=
  r.output <+: todo ∧ r.consumed ≤ rest.length ∧
    ((r.status = .ok ∧ (r.output.length = room ∨ r.consumed = inp.length ∧ r.consumed < rest.length)) ∨
      (r.status = .streamEnd ∧ r.output = todo))

/-- The decoder decodes the streams of a format. -/
structure Documented (d : Decoder σ α β) (Stream : List α → List β → Prop) : Prop where
  nonempty : ∀ {data content}, Stream data content → data ≠ []
  advances : ∀ {data content s rest todo}, Stream data content → Midway d data content s rest todo →
    ∀ {inp room}, inp ≠ [] → 0 < room → Agree inp rest → Advances (d.call s inp room) inp rest todo room

/-! ## A piece of input -/

/-- What has become of a piece of input. -/
structure Taken (σ β : Type) where
  state : σ
  status : Status
  output : List β

/-- Calls with fresh room for each, as long as there is input and the decoder goes on. -/
def takeIn (d : Decoder σ α β) {room : Nat} (hroom : 0 < room) (s : σ) (inp : List α) (out : List β) : Taken σ β :=
  if _hinp : inp = [] then ⟨s, .ok, out⟩
  else if _hok : (d.call s inp room).status = .ok then
    takeIn d hroom (d.call s inp room).state (inp.drop (d.call s inp room).consumed) (out ++ (d.call s inp room).output)
  else ⟨(d.call s inp room).state, (d.call s inp room).status, out ++ (d.call s inp room).output⟩
termination_by (inp.length, d.owed s)
decreasing_by
  rcases d.progress s inp room _hinp hroom _hok with htaken | howed
  · apply Prod.Lex.left
    have hpos := List.length_pos_of_ne_nil _hinp
    rw [List.length_drop]
    omega
  · rcases Nat.eq_zero_or_pos (d.call s inp room).consumed with hnone | hsome
    · rw [hnone, List.drop_zero]
      exact Prod.Lex.right _ howed
    · apply Prod.Lex.left
      have hpos := List.length_pos_of_ne_nil _hinp
      rw [List.length_drop]
      omega

section TakeIn

variable {d : Decoder σ α β} {room : Nat} {hroom : 0 < room} {s : σ} {inp : List α} {out : List β}

theorem takeIn_nil : takeIn d hroom s [] out = ⟨s, .ok, out⟩ := by
  rw [takeIn, dif_pos rfl]

theorem takeIn_ok (hinp : inp ≠ []) (hok : (d.call s inp room).status = .ok) :
    takeIn d hroom s inp out = takeIn d hroom (d.call s inp room).state (inp.drop (d.call s inp room).consumed)
      (out ++ (d.call s inp room).output) := by
  rw [takeIn, dif_neg hinp]
  exact dif_pos hok

theorem takeIn_of_ne_ok (hinp : inp ≠ []) (hstop : (d.call s inp room).status ≠ .ok) :
    takeIn d hroom s inp out =
      ⟨(d.call s inp room).state, (d.call s inp room).status, out ++ (d.call s inp room).output⟩ := by
  rw [takeIn, dif_neg hinp]
  exact dif_neg hstop

variable {data : List α} {content : List β} {rest : List α} {todo : List β} {Stream : List α → List β → Prop}

variable (hroom out) in
/-- A piece of a valid stream is taken in as a whole, or it brings the stream to its end with all of the output. -/
theorem takeIn_midway (hd : Documented d Stream) (hstream : Stream data content)
    (hmid : Midway d data content s rest todo) (hagree : Agree inp rest) :
    ((takeIn d hroom s inp out).status = .ok ∧ inp.length ≤ rest.length ∧ ∃ given left, todo = given ++ left ∧
        (takeIn d hroom s inp out).output = out ++ given ∧
        Midway d data content (takeIn d hroom s inp out).state (rest.drop inp.length) left) ∨
      ((takeIn d hroom s inp out).status = .streamEnd ∧ (takeIn d hroom s inp out).output = out ++ todo) := by
  -- Along the rounds of `takeIn`: a call that went on leaves the decoder midway, with less still to come.
  induction s, inp, out using takeIn.induct (d := d) hroom generalizing rest todo with
  | case1 s out =>
    refine Or.inl ?_
    rw [takeIn_nil]
    exact ⟨rfl, Nat.zero_le _, [], todo, rfl, (List.append_nil out).symm, hmid⟩
  | case2 s inp out hinp hok ih =>
    obtain ⟨hpre, hle, hcases⟩ := hd.advances hstream hmid hinp hroom hagree
    -- What the call gave is the front of what was to come; the rest is the next round's.
    obtain ⟨left, hleft⟩ := hpre
    have hnext := Midway.call hmid hagree hok
    rw [← hleft, List.drop_left] at hnext
    have hk := d.consumed_le s inp room
    rw [takeIn_ok hinp hok]
    rcases ih hnext (hagree.drop _) with ⟨hstatus, hlen, given, left', htodo, hout, hmid'⟩ | ⟨hend, hout⟩
    · refine Or.inl ⟨hstatus, ?_, (d.call s inp room).output ++ given, left', ?_, ?_, ?_⟩
      · rw [List.length_drop, List.length_drop] at hlen
        omega
      · rw [← hleft, htodo, List.append_assoc]
      · rw [hout, List.append_assoc]
      · rw [List.drop_drop, List.length_drop] at hmid'
        rwa [Nat.add_sub_cancel' hk] at hmid'
    · refine Or.inr ⟨hend, ?_⟩
      rw [hout, ← hleft, List.append_assoc]
  | case3 s inp out hinp hstop =>
    -- A call that did not answer OK has reached the end, and gave all that was left.
    obtain ⟨-, -, hcases⟩ := hd.advances hstream hmid hinp hroom hagree
    rw [takeIn_of_ne_ok hinp hstop]
    rcases hcases with ⟨hok, -⟩ | ⟨hend, hout⟩
    · exact absurd hok hstop
    · exact Or.inr ⟨hend, congrArg (out ++ ·) hout⟩

/-! ## Input taken without a word of the end -/

/-- A piece of input is taken by calls that all report `Z_OK`. -/
inductive Swallows (d : Decoder σ α β) (room : Nat) : σ → List α → σ → Prop where
  | done (s : σ) : Swallows d room s [] s
  | call {s inp s'} : inp ≠ [] → (d.call s inp room).status = .ok →
      Swallows d room (d.call s inp room).state (inp.drop (d.call s inp room).consumed) s' → Swallows d room s inp s'

/-- And so is all of the data, in pieces of a size. -/
inductive SwallowsAll (d : Decoder σ α β) (room size : Nat) : σ → List α → σ → Prop where
  | done (s : σ) : SwallowsAll d room size s [] s
  | piece {s data s' s''} : data ≠ [] → Swallows d room s (data.take size) s' →
      SwallowsAll d room size s' (data.drop size) s'' → SwallowsAll d room size s data s''

/-- The output that is left over when the data has been taken keeps the end from being reported. -/
def HeldBack (d : Decoder σ α β) (room size : Nat) (data : List α) : Prop :=
  ∃ s, SwallowsAll d room size d.start data s

variable (hroom) in
theorem takeIn_of_swallows {s' : σ} (h : Swallows d room s inp s') (out : List β) :
    (takeIn d hroom s inp out).status = .ok ∧ (takeIn d hroom s inp out).state = s' := by
  induction h generalizing out with
  | done s => rw [takeIn_nil]; exact ⟨rfl, rfl⟩
  | call hinp hok _ ih => rw [takeIn_ok hinp hok]; exact ih _

theorem swallows_takeIn (h : (takeIn d hroom s inp out).status = .ok) :
    Swallows d room s inp (takeIn d hroom s inp out).state := by
  induction s, inp, out using takeIn.induct (d := d) hroom with
  | case1 s out =>
    rw [takeIn_nil]
    exact Swallows.done s
  | case2 s inp out hinp hok ih =>
    rw [takeIn_ok hinp hok] at h ⊢
    exact Swallows.call hinp hok (ih h)
  | case3 s inp out hinp hstop =>
    rw [takeIn_of_ne_ok hinp hstop] at h
    exact absurd h hstop

end TakeIn

/-! ## A decoder of one stream -/

section Known

variable [DecidableEq α] (data : List α) (content : List β)

/-- Takes as much of its stream as it is given, and answers with `Z_DATA_ERROR` when it is another one. All of the
    output comes once all of the stream has been taken. -/
def knownCall (s : List α × List β) (inp : List α) (room : Nat) : Called (List α × List β) β :=
  if inp.take s.1.length ≠ s.1.take inp.length then ⟨s, .error (-3), 0, []⟩
  else if inp.length < s.1.length then ⟨(s.1.drop inp.length, s.2), .ok, inp.length, []⟩
  else ⟨([], s.2.drop room), if s.2.length ≤ room then .streamEnd else .ok, s.1.length, s.2.take room⟩

theorem knownCall_of_ne {s : List α × List β} {inp : List α} (h : inp.take s.1.length ≠ s.1.take inp.length)
    (room : Nat) : knownCall s inp room = ⟨s, .error (-3), 0, []⟩ := if_pos h

theorem knownCall_of_lt {s : List α × List β} {inp : List α} (h : inp.take s.1.length = s.1.take inp.length)
    (hlt : inp.length < s.1.length) (room : Nat) :
    knownCall s inp room = ⟨(s.1.drop inp.length, s.2), .ok, inp.length, []⟩ := by
  rw [knownCall, if_neg (not_not_intro h), if_pos hlt]

theorem knownCall_of_le {s : List α × List β} {inp : List α} (h : inp.take s.1.length = s.1.take inp.length)
    (hle : s.1.length ≤ inp.length) (room : Nat) :
    knownCall s inp room =
      ⟨([], s.2.drop room), if s.2.length ≤ room then .streamEnd else .ok, s.1.length, s.2.take room⟩ := by
  rw [knownCall, if_neg (not_not_intro h), if_neg (Nat.not_lt.2 hle)]

theorem knownCall_cases (s : List α × List β) (inp : List α) (room : Nat) :
    knownCall s inp room = ⟨s, .error (-3), 0, []⟩ ∨
    (inp.length < s.1.length ∧ knownCall s inp room = ⟨(s.1.drop inp.length, s.2), .ok, inp.length, []⟩) ∨
    (s.1.length ≤ inp.length ∧ knownCall s inp room =
      ⟨([], s.2.drop room), if s.2.length ≤ room then .streamEnd else .ok, s.1.length, s.2.take room⟩) := by
  by_cases h : inp.take s.1.length = s.1.take inp.length
  · rcases Nat.lt_or_ge inp.length s.1.length with hlt | hle
    · exact Or.inr (Or.inl ⟨hlt, knownCall_of_lt h hlt room⟩)
    · exact Or.inr (Or.inr ⟨hle, knownCall_of_le h hle room⟩)
  · exact Or.inl (knownCall_of_ne h room)

/-- The decoder of the stream `data` of `content`. -/
def known : Decoder (List α × List β) α β where
  start := (data, content)
  call := knownCall
  owed s := s.2.length
  consumed_le := by
    intro s inp room
    rcases knownCall_cases s inp room with h | ⟨hlt, h⟩ | ⟨hle, h⟩ <;> rw [h]
    · exact Nat.zero_le _
    · exact hle
  output_le := by
    intro s inp room
    rcases knownCall_cases s inp room with h | ⟨hlt, h⟩ | ⟨hle, h⟩ <;> rw [h]
    · exact Nat.zero_le _
    · exact Nat.zero_le _
    · exact List.length_take_le _ _
  progress := by
    intro s inp room hinp hroom hok
    have hpos := List.length_pos_of_ne_nil hinp
    rcases knownCall_cases s inp room with h | ⟨hlt, h⟩ | ⟨hle, h⟩ <;> rw [h] at hok ⊢
    · cases hok
    · exact Or.inl hpos
    · -- The output that is left is more than the room, so the room has been used up.
      have hmore : room < s.2.length := by
        by_contra hfits
        rw [if_pos (Nat.not_lt.1 hfits)] at hok
        cases hok
      refine Or.inr ?_
      rw [List.length_drop]
      omega

theorem known_midway {s : List α × List β} {rest : List α} {todo : List β}
    (h : Midway (known data content) data content s rest todo) : s = (rest, todo) := by
  induction h with
  | start => rfl
  | @call s rest todo inp room _ hagree hok ih =>
    subst ih
    have htake := take_eq_take_of_agree hagree
    rcases Nat.lt_or_ge inp.length rest.length with hlt | hle
    · have h := knownCall_of_lt (s := (rest, todo)) htake hlt room
      show (knownCall (rest, todo) inp room).state = (rest.drop (knownCall (rest, todo) inp room).consumed,
        todo.drop (knownCall (rest, todo) inp room).output.length)
      rw [h]
      rfl
    · have h := knownCall_of_le (s := (rest, todo)) htake hle room
      show (knownCall (rest, todo) inp room).state = (rest.drop (knownCall (rest, todo) inp room).consumed,
        todo.drop (knownCall (rest, todo) inp room).output.length)
      rw [h]
      refine Prod.ext (List.drop_length.symm) ?_
      show todo.drop room = todo.drop (todo.take room).length
      rw [List.length_take]
      rcases Nat.le_total room todo.length with hroom | hroom
      · rw [Nat.min_eq_left hroom]
      · rw [Nat.min_eq_right hroom, List.drop_length, List.drop_eq_nil_of_le hroom]

/-- It decodes that stream. -/
theorem documented_known (hdata : data ≠ []) :
    Documented (known data content) (fun data' content' => data' = data ∧ content' = content) where
  nonempty := by
    rintro _ _ ⟨rfl, rfl⟩
    exact hdata
  advances := by
    rintro _ _ s rest todo ⟨rfl, rfl⟩ hmid inp room hinp hroom hagree
    obtain rfl := known_midway _ _ hmid
    have htake := take_eq_take_of_agree hagree
    show Advances (knownCall (rest, todo) inp room) inp rest todo room
    rcases Nat.lt_or_ge inp.length rest.length with hlt | hle
    · rw [knownCall_of_lt (s := (rest, todo)) htake hlt room]
      exact ⟨List.nil_prefix, Nat.le_of_lt hlt, Or.inl ⟨rfl, Or.inr ⟨rfl, hlt⟩⟩⟩
    · rw [knownCall_of_le (s := (rest, todo)) htake hle room]
      refine ⟨List.take_prefix room todo, Nat.le_refl _, ?_⟩
      rcases Nat.lt_or_ge room todo.length with hmore | hfits
      · refine Or.inl ⟨if_neg (Nat.not_le.2 hmore), Or.inl ?_⟩
        exact List.length_take_of_le (Nat.le_of_lt hmore)
      · exact Or.inr ⟨if_pos hfits, List.take_of_length_le hfits⟩

theorem not_heldBack_known {room size : Nat} (hdata : data ≠ []) (hsize : data.length ≤ size)
    (hroom : content.length ≤ room) : ¬HeldBack (known data content) room size data := by
  rintro ⟨s, hall⟩
  cases hall with
  | done => exact hdata rfl
  | piece _ htaken _ =>
    rw [List.take_of_length_le hsize] at htaken
    cases htaken with
    | done => exact hdata rfl
    | call _ hok _ =>
      have hend : knownCall (data, content) data room = _ := knownCall_of_le rfl (Nat.le_refl _) room
      rw [if_pos hroom] at hend
      have hstatus : (knownCall (data, content) data room).status = .ok := hok
      rw [hend] at hstatus
      cases hstatus

end Known

end Koncepcja.StreamDecoder
