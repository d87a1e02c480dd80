import Koncepcja.Input.Autotype

/-!
# Running a File from the Web

`handle_config_cgi` of `src/m4board_http.cpp`, for `run2`: the path of a file becomes two or three command
lines, which the auto-type queue types. The names in them lose quotes and control characters, but the
queue reads a text with tildes, and a tilde in a name is one.

## Main results

- `run_types_lines_iff`: the request types the lines and nothing else exactly where the tildes of the names
  come in pairs, or in pairs around one character that has a key.
-/

namespace Koncepcja.Input

/-! ## The request -/

/-- The double quote. -/
def dblQuote : Char := Char.ofNat 34

def sanitizeRunFilename (s : List Char) : List Char :=
  s.filter fun c => !(c == dblQuote || c == Char.ofNat 39 || c.toNat < 0x20 || c.toNat == 0x7F)

/-- `std::filesystem::path::filename`: what follows the last slash. -/
def filename (path : List Char) : List Char := (path.reverse.takeWhile (· != '/')).reverse

/-- `std::filesystem::path::parent_path`: the path without its last name and the slashes before it, but
    for those of the root. -/
def parentPath (path : List Char) : List Char :=
  let dir := (path.reverse.dropWhile (· != '/')).reverse
  let stripped := (dir.reverse.dropWhile (· == '/')).reverse
  if stripped.isEmpty then dir else stripped

/-- The directory is one that the request changes to. -/
def changesDir (path : List Char) : Prop := parentPath path ≠ [] ∧ parentPath path ≠ ['/'] ∧ parentPath path ≠ ['.']

instance (path : List Char) : Decidable (changesDir path) := inferInstanceAs (Decidable (_ ∧ _ ∧ _))

/-- The text for the queue; without a file name there is none. -/
def runCommand (path : List Char) : Option (List Char) :=
  let fname := sanitizeRunFilename (filename path)
  if fname.isEmpty then none
  else
    let cmd := "|sd\n".toList
    let cmd :=
      if changesDir path then
        cmd ++ "|cd,".toList ++ [dblQuote] ++ sanitizeRunFilename (parentPath path) ++ [dblQuote, '\n']
      else cmd
    some (cmd ++ "run".toList ++ [dblQuote] ++ fname ++ [dblQuote, '\n'])

/-- `handle_config_cgi`, for `run2`. -/
def handleRun2 (q : AutoTypeQueue) (path : List Char) : AutoTypeQueue :=
  match runCommand path with
  | none => q
  | some cmd => (q.enqueue cmd).2

/-! ## What it is to type -/

/-- The names that the lines hold. -/
def typedNames (path : List Char) : List (List Char) :=
  if (sanitizeRunFilename (filename path)).isEmpty then []
  else (if changesDir path then [sanitizeRunFilename (parentPath path)] else []) ++ [sanitizeRunFilename (filename path)]

def commandLines (path : List Char) : List (List Char) :=
  if (sanitizeRunFilename (filename path)).isEmpty then []
  else
    ["|sd".toList] ++
      (if changesDir path then ["|cd,".toList ++ [dblQuote] ++ sanitizeRunFilename (parentPath path) ++ [dblQuote]]
        else []) ++
      ["run".toList ++ [dblQuote] ++ sanitizeRunFilename (filename path) ++ [dblQuote]]

/-- The keys of some characters; one without a key is passed over. -/
def keysOf (text : List Char) : List CpcKeys := text.filterMap charKey

/-- The actions that type a line: each key of it, and one RETURN. -/
def typeLine (line : List Char) : List AutoTypeAction :=
  (keysOf line).map (fun key => (Tag.type key).action) ++ [(Tag.type .returnKey).action]

/-- The tildes of a text, read from the left, come in pairs, or in pairs around one character with a key. -/
inductive Harmless : List Char → Prop
  | nil : Harmless []
  | plain {c : Char} {text : List Char} (hc : c ≠ '~') (h : Harmless text) : Harmless (c :: text)
  | pair {text : List Char} (h : Harmless text) : Harmless ('~' :: '~' :: text)
  | single {c : Char} {text : List Char} (hc : (charKey c).isSome = true) (h : Harmless text) :
      Harmless ('~' :: c :: '~' :: text)

/-! ## Harmless texts -/

theorem keysOf_append (text text' : List Char) : keysOf (text ++ text') = keysOf text ++ keysOf text' :=
  List.filterMap_append

theorem charKey_tilde : charKey '~' = none := by decide

theorem keysOf_tilde (text : List Char) : keysOf ('~' :: text) = keysOf text :=
  List.filterMap_cons_none charKey_tilde

theorem keysOf_cons {c : Char} {key : CpcKeys} (h : charKey c = some key) (text : List Char) :
    keysOf (c :: text) = key :: keysOf text := List.filterMap_cons_some h

theorem ne_tilde_of_key {c : Char} (h : (charKey c).isSome = true) : c ≠ '~' := by
  rintro rfl
  rw [charKey_tilde] at h
  cases h

theorem readTag_singleton {c : Char} {key : CpcKeys} (h : charKey c = some key) (i : Nat) :
    readTag i [c] = .ok (.type key) := by
  rw [readTag, if_neg (show ¬ List.isEmpty [c] = true from Bool.false_ne_true), if_neg, if_neg,
    resolveKeyName_singleton, h]
  · exact fun hhold => absurd hhold.1 (show ¬ 2 ≤ 1 by decide)
  · exact fun hpause => absurd hpause.1 (show ¬ 6 < 1 by decide)

theorem parse_of_harmless {text : List Char} (h : Harmless text) (i : Nat) :
    parse i text = .ok ((keysOf text).map Tag.type) := by
  induction h generalizing i with
  | nil => rw [parse]; rfl
  | plain hc h ih =>
    rename_i c text
    rw [parse, if_neg hc]
    cases hkey : charKey c with
    | none => rw [keysOf, List.filterMap_cons_none hkey]; exact ih (i + 1)
    | some key =>
      rw [keysOf_cons hkey]
      simp only [ih (i + 1)]
      rfl
  | pair h ih =>
    rename_i text
    rw [parse, if_pos rfl, if_pos (show ('~' :: text).head? = some '~' from rfl), keysOf_tilde, keysOf_tilde]
    exact ih (i + 2)
  | single hc h ih =>
    rename_i c text
    obtain ⟨key, hkey⟩ := Option.isSome_iff_exists.1 hc
    have hne := ne_tilde_of_key hc
    -- A tag of one character is a character, and types its key.
    have hsplit : splitTilde (c :: '~' :: text) = some ([c], text) := by
      rw [splitTilde, if_neg hne, splitTilde, if_pos rfl]
      rfl
    rw [parse, if_pos rfl, if_neg (show ¬ (c :: '~' :: text).head? = some '~' from fun heq => hne (Option.some.inj heq)),
      keysOf_tilde, keysOf_cons hkey, keysOf_tilde]
    split
    · next hnone => rw [hsplit] at hnone; cases hnone
    · next tag rest hsome =>
      rw [hsplit] at hsome
      cases hsome
      rw [readTag_singleton hkey, ih]
      rfl

/-! ## Texts that are read as their keys -/

theorem splitTilde_append {text tag rest : List Char} (h : splitTilde text = some (tag, rest)) :
    text = tag ++ '~' :: rest := by
  induction text generalizing tag with
  | nil => cases h
  | cons c text ih =>
    rw [splitTilde] at h
    split at h
    · next hc => cases h; rw [hc]; rfl
    · cases hsplit : splitTilde text with
      | none => rw [hsplit] at h; cases h
      | some p =>
        rw [hsplit] at h
        cases h
        rw [ih hsplit]
        rfl

theorem keysOf_length_of_resolves {name : List Char} (h : (resolveKeyName name).isSome = true) :
    (keysOf name).length = name.length := by
  have hall := charKey_of_resolves h
  clear h
  induction name with
  | nil => rfl
  | cons c name ih =>
    obtain ⟨key, hkey⟩ := Option.isSome_iff_exists.1 (hall c List.mem_cons_self)
    rw [keysOf_cons hkey, List.length_cons, List.length_cons, ih fun d hd => hall d (List.mem_cons_of_mem c hd)]

theorem keysOf_tag {i : Nat} {tag : List Char} {t : Tag} (h : readTag i tag = .ok t) :
    1 ≤ (keysOf tag).length ∧ ((keysOf tag).length = 1 → ∃ c, tag = [c] ∧ (charKey c).isSome = true) := by
  unfold readTag at h
  split_ifs at h with hempty hpause hhold
  · -- The word PAUSE alone has six keys.
    have hsix : 6 ≤ (keysOf tag).length := by
      rw [← List.take_append_drop 6 tag, keysOf_append, hpause.2, List.length_append]
      exact Nat.le_add_right_of_le (by decide)
    exact ⟨by omega, fun hone => by omega⟩
  · split at h
    · next key hkey =>
      obtain ⟨c, tail, rfl⟩ : ∃ c tail, tag = c :: tail := by
        cases tag with
        | nil => exact absurd rfl hempty
        | cons c tail => exact ⟨c, tail, rfl⟩
      have hsign : (charKey c).isSome = true := by
        rcases hhold.2 with hc | hc
        · rw [Option.some.inj hc]; decide
        · rw [Option.some.inj hc]; decide
      obtain ⟨sign, hsign⟩ := Option.isSome_iff_exists.1 hsign
      have htail : (keysOf tail).length = tail.length := keysOf_length_of_resolves (by rw [List.tail_cons] at hkey; rw [hkey]; rfl)
      have hlen : 2 ≤ tail.length + 1 := hhold.1
      rw [keysOf_cons hsign, List.length_cons]
      exact ⟨by omega, fun hone => by omega⟩
    · cases h
  · split at h
    · next key hkey =>
      have hall : (resolveKeyName tag).isSome = true := by rw [hkey]; rfl
      rw [keysOf_length_of_resolves hall]
      refine ⟨List.length_pos_iff.2 fun hnil => hempty (by rw [hnil]; rfl), fun hone => ?_⟩
      obtain ⟨c, rfl⟩ := List.length_eq_one_iff.1 hone
      exact ⟨c, rfl, charKey_of_resolves hall c List.mem_cons_self⟩
    · cases h

theorem Reads.length_le {text : List Char} {tags : List Tag} (h : Reads text tags) :
    tags.length ≤ (keysOf text).length ∧ (tags.length = (keysOf text).length → Harmless text) := by
  induction h with
  | nil => exact ⟨Nat.le_refl 0, fun _ => .nil⟩
  | pair _ ih =>
    rw [keysOf_tilde, keysOf_tilde]
    exact ⟨ih.1, fun heq => .pair (ih.2 heq)⟩
  | tag _ hsplit ht _ ih =>
    rw [keysOf_tilde, splitTilde_append hsplit, keysOf_append, keysOf_tilde, List.length_append, List.length_cons]
    obtain ⟨hpos, hone⟩ := keysOf_tag ht
    refine ⟨by have := ih.1; omega, fun heq => ?_⟩
    have hle := ih.1
    obtain ⟨c, rfl, hc⟩ := hone (by omega)
    exact .single hc (ih.2 (by omega))
  | skip hc hkey _ ih =>
    rw [keysOf, List.filterMap_cons_none hkey]
    exact ⟨ih.1, fun heq => .plain hc (ih.2 heq)⟩
  | key hc hkey _ ih =>
    rw [keysOf_cons hkey, List.length_cons, List.length_cons]
    exact ⟨Nat.succ_le_succ ih.1, fun heq => .plain hc (ih.2 (Nat.succ.inj heq))⟩

theorem parse_eq_keys_iff (i : Nat) (text : List Char) :
    parse i text = .ok ((keysOf text).map Tag.type) ↔ Harmless text := by
  refine ⟨fun h => ?_, fun h => parse_of_harmless h i⟩
  exact (reads_of_parse h).length_le.2 (List.length_map _)

/-! ## The lines -/

theorem Harmless.append {text text' : List Char} (h : Harmless text) (h' : Harmless text') :
    Harmless (text ++ text') := by
  induction h with
  | nil => exact h'
  | plain hc _ ih => exact .plain hc ih
  | pair _ ih => exact .pair ih
  | single hc _ ih => exact .single hc ih

theorem harmless_cons {c : Char} (hc : c ≠ '~') (text : List Char) : Harmless (c :: text) ↔ Harmless text := by
  refine ⟨fun h => ?_, .plain hc⟩
  cases h with
  | plain _ h => exact h
  | pair => exact absurd rfl hc
  | single => exact absurd rfl hc

theorem harmless_tilde (text : List Char) :
    Harmless ('~' :: text) ↔ (∃ t, text = '~' :: t ∧ Harmless t) ∨
      ∃ c t, text = c :: '~' :: t ∧ (charKey c).isSome = true ∧ Harmless t := by
  constructor
  · intro h
    cases h with
    | plain hc => exact absurd rfl hc
    | pair h => exact Or.inl ⟨_, rfl, h⟩
    | single hc h => exact Or.inr ⟨_, _, rfl, hc, h⟩
  · rintro (⟨t, rfl, h⟩ | ⟨c, t, rfl, hc, h⟩)
    · exact .pair h
    · exact .single hc h

theorem harmless_append_plain {pre : List Char} (hpre : '~' ∉ pre) (text : List Char) :
    Harmless (pre ++ text) ↔ Harmless text := by
  induction pre with
  | nil => exact Iff.rfl
  | cons c pre ih =>
    have hc : c ≠ '~' := fun heq => hpre (heq ▸ List.mem_cons_self)
    rw [← ih fun hmem => hpre (List.mem_cons_of_mem c hmem), List.cons_append, harmless_cons hc]

theorem harmless_append_quote (text rest : List Char) :
    Harmless (text ++ dblQuote :: '\n' :: rest) ↔ Harmless text ∧ Harmless rest := by
  constructor
  · intro h
    match text with
    | [] => exact ⟨.nil, (harmless_cons (by decide) _).1 ((harmless_cons (by decide) _).1 h)⟩
    | c :: text =>
      by_cases hc : c = '~'
      · subst hc
        rcases (harmless_tilde _).1 h with ⟨t, heq, ht⟩ | ⟨d, t, heq, hd, ht⟩
        · -- A pair of tildes lies in the text, since a quote is not a tilde.
          match text with
          | [] => exact absurd (List.cons.inj heq).1 (by decide)
          | e :: text =>
            obtain ⟨rfl, rfl⟩ := List.cons.inj heq
            obtain ⟨htext, hrest⟩ := (harmless_append_quote text rest).1 ht
            exact ⟨.pair htext, hrest⟩
        · -- So does a character between tildes: neither the quote nor the line feed is one.
          match text with
          | [] => exact absurd (List.cons.inj (List.cons.inj heq).2).1 (by decide)
          | [e] => exact absurd (List.cons.inj (List.cons.inj heq).2).1 (by decide)
          | e :: e' :: text =>
            obtain ⟨rfl, htail⟩ := List.cons.inj heq
            obtain ⟨rfl, rfl⟩ := List.cons.inj htail
            obtain ⟨htext, hrest⟩ := (harmless_append_quote text rest).1 ht
            exact ⟨.single hd htext, hrest⟩
      · obtain ⟨htext, hrest⟩ := (harmless_append_quote text rest).1 ((harmless_cons hc _).1 h)
        exact ⟨.plain hc htext, hrest⟩
  · rintro ⟨htext, hrest⟩
    exact htext.append (.plain (by decide) (.plain (by decide) hrest))
termination_by text.length

theorem harmless_line {word : List Char} (hword : '~' ∉ word) (name rest : List Char) :
    Harmless (word ++ [dblQuote] ++ name ++ [dblQuote] ++ '\n' :: rest) ↔ Harmless name ∧ Harmless rest := by
  have hpre : '~' ∉ word ++ [dblQuote] := by
    intro hmem
    rcases List.mem_append.1 hmem with hmem | hmem
    · exact hword hmem
    · exact absurd (List.mem_singleton.1 hmem) (by decide)
  rw [List.append_assoc (word ++ [dblQuote] ++ name), List.append_assoc (word ++ [dblQuote]),
    harmless_append_plain hpre, List.singleton_append, harmless_append_quote]

/-- Lines, each with its line feed. -/
def joinLines (lines : List (List Char)) : List Char := lines.flatMap (· ++ ['\n'])

theorem joinLines_cons (line : List Char) (lines : List (List Char)) :
    joinLines (line :: lines) = line ++ '\n' :: joinLines lines := by
  rw [joinLines, List.flatMap_cons, List.append_assoc, List.singleton_append]
  rfl

theorem keysOf_joinLines (lines : List (List Char)) :
    (keysOf (joinLines lines)).map (fun key => (Tag.type key).action) = lines.flatMap typeLine := by
  induction lines with
  | nil => rfl
  | cons line lines ih =>
    have hreturn : charKey '\n' = some .returnKey := by decide
    rw [joinLines_cons, List.flatMap_cons, keysOf_append, keysOf_cons hreturn, List.map_append, List.map_cons, ih,
      typeLine, List.append_assoc, List.singleton_append]

theorem runCommand_eq {path cmd : List Char} (h : runCommand path = some cmd) :
    (sanitizeRunFilename (filename path)).isEmpty = false ∧ cmd = joinLines (commandLines path) := by
  unfold runCommand at h
  by_cases hfname : (sanitizeRunFilename (filename path)).isEmpty = true
  · rw [if_pos hfname] at h
    cases h
  · rw [if_neg hfname] at h
    refine ⟨Bool.eq_false_iff.2 hfname, ?_⟩
    rw [← Option.some.inj h, commandLines, if_neg hfname]
    have hsd : "|sd\n".toList = "|sd".toList ++ ['\n'] := by decide
    by_cases hdir : changesDir path
    · simp only [if_pos hdir, hsd, joinLines, List.flatMap_cons, List.flatMap_nil, List.append_assoc, List.cons_append,
        List.nil_append]
    · simp only [if_neg hdir, hsd, joinLines, List.flatMap_cons, List.flatMap_nil, List.append_assoc, List.cons_append,
        List.nil_append]

theorem harmless_commandLines {path : List Char} (h : (sanitizeRunFilename (filename path)).isEmpty = false) :
    Harmless (joinLines (commandLines path)) ↔ ∀ name ∈ typedNames path, Harmless name := by
  have hfname : ¬ (sanitizeRunFilename (filename path)).isEmpty = true := Bool.eq_false_iff.1 h
  have hsd (rest : List Char) : Harmless ("|sd".toList ++ '\n' :: rest) ↔ Harmless rest := by
    rw [harmless_append_plain (by decide), harmless_cons (by decide)]
  rw [commandLines, if_neg hfname, typedNames, if_neg hfname]
  by_cases hdir : changesDir path
  · rw [if_pos hdir, if_pos hdir]
    show Harmless (joinLines [_, _, _]) ↔ ∀ name ∈ [_, _], Harmless name
    rw [joinLines_cons, joinLines_cons, joinLines_cons, hsd, harmless_line (by decide), harmless_line (by decide),
      List.forall_mem_cons, List.forall_mem_singleton]
    exact and_congr_right fun _ => and_iff_left .nil
  · rw [if_neg hdir, if_neg hdir]
    show Harmless (joinLines [_, _]) ↔ ∀ name ∈ [_], Harmless name
    rw [joinLines_cons, joinLines_cons, hsd, harmless_line (by decide), List.forall_mem_singleton]
    exact and_iff_left .nil

theorem enqueue_eq_iff (q : AutoTypeQueue) (text : List Char) (h : keysOf text ≠ []) :
    (q.enqueue text).2.queue = q.queue ++ (keysOf text).map (fun key => (Tag.type key).action) ↔ Harmless text := by
  rw [← parse_eq_keys_iff 0, AutoTypeQueue.enqueue]
  cases hparse : parse 0 text with
  | error e =>
    refine iff_of_false (fun heq => h ?_) (by intro heq; cases heq)
    exact List.map_eq_nil_iff.1 (List.append_right_eq_self.1 heq.symm)
  | ok tags =>
    rw [Except.ok.injEq]
    refine ⟨fun heq => ?_, fun heq => ?_⟩
    swap
    · subst heq
      exact congrArg (q.queue ++ ·) (List.map_map ..)
    have hlen : tags.length = (keysOf text).length := by
      have := congrArg List.length (List.append_cancel_left heq)
      rwa [List.length_map, List.length_map] at this
    -- As many actions as keys: the text is harmless, and so it is read as its keys.
    have hread := parse_of_harmless ((reads_of_parse hparse).length_le.2 hlen) 0
    rw [hparse] at hread
    exact Except.ok.inj hread

/-- The request types the command lines, each with its RETURN, and nothing else, exactly where the names
    in them are harmless. -/
theorem run_types_lines_iff (q : AutoTypeQueue) (path : List Char) :
    (handleRun2 q path).queue = q.queue ++ (commandLines path).flatMap typeLine ↔
      ∀ name ∈ typedNames path, Harmless name := by
  unfold handleRun2
  cases hcmd : runCommand path with
  | none =>
    have hempty : (sanitizeRunFilename (filename path)).isEmpty = true := by
      by_contra hne
      rw [runCommand, if_neg hne] at hcmd
      cases hcmd
    rw [commandLines, typedNames, if_pos hempty, if_pos hempty]
    exact iff_of_true (List.append_nil _).symm fun name hname => absurd hname List.not_mem_nil
  | some cmd =>
    obtain ⟨hfname, rfl⟩ := runCommand_eq hcmd
    rw [← harmless_commandLines hfname, ← keysOf_joinLines]
    refine enqueue_eq_iff q _ fun hnil => ?_
    -- The first line alone has keys.
    have hlines := congrArg (List.map fun key => (Tag.type key).action) hnil
    rw [keysOf_joinLines, commandLines, if_neg (Bool.eq_false_iff.1 hfname), List.singleton_append, List.cons_append,
      List.flatMap_cons] at hlines
    have hline : typeLine "|sd".toList ≠ [] := by decide
    exact hline (List.append_eq_nil_iff.1 hlines).1

/-- A name with a key's name between tildes types that key. -/
theorem name_types_return :
    (handleRun2 {} "/A~RETURN~B".toList).queue ≠
      AutoTypeQueue.queue {} ++ (commandLines "/A~RETURN~B".toList).flatMap typeLine := by
  with_unfolding_all decide

end Koncepcja.Input
