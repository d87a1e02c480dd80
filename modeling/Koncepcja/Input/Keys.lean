import Mathlib

/-!
# The Keys of the Machine

`CPC_KEYS` of `src/keyboard.h` and the tables of `src/cpc_key_tables.h`. A character of the host is a
`Char`; those from 128 on have no key.

## Main definitions

- `CpcKeys`: every key and every combination, in the order of the enumeration.
- `charKey`, `resolveKeyName`: the key of a character, and of a name.

## Main results

- `charKey_of_resolves`: every character of a name that resolves has a key of its own.
-/

namespace Koncepcja.Input

inductive CpcKeys where
  | digit0 | digit1 | digit2 | digit3 | digit4 | digit5 | digit6 | digit7 | digit8 | digit9 | A | B | C | D | E
  | F | G | H | I | J | K | L | M | N | O | P | Q | R | S | T | U | V | W | X | Y | Z | a | b | c | d | e | f
  | g | h | i | j | k | l | m | n | o | p | q | r | s | t | u | v | w | x | y | z | ctrlA | ctrlB | ctrlC
  | ctrlD | ctrlE | ctrlF | ctrlG | ctrlH | ctrlI | ctrlJ | ctrlK | ctrlL | ctrlM | ctrlN | ctrlO | ctrlP
  | ctrlQ | ctrlR | ctrlS | ctrlT | ctrlU | ctrlV | ctrlW | ctrlX | ctrlY | ctrlZ | ctrl0 | ctrl1 | ctrl2
  | ctrl3 | ctrl4 | ctrl5 | ctrl6 | ctrl7 | ctrl8 | ctrl9 | ctrlUp | ctrlDown | ctrlLeft | ctrlRight
  | ampersand | asterisk | at | backquote | backslash | capslock | clr | colon | comma | control | copy
  | cpyDown | cpyLeft | cpyRight | cpyUp | curDown | curLeft | curRight | curUp | curEndbl | curHomeln
  | curEndln | curHomebl | dblquote | del | dollar | enter | equal | esc | exclamatn | f0 | f1 | f2 | f3 | f4
  | f5 | f6 | f7 | f8 | f9 | ctrlF0 | ctrlF1 | ctrlF2 | ctrlF3 | ctrlF4 | ctrlF5 | ctrlF6 | ctrlF7 | ctrlF8
  | ctrlF9 | shiftF0 | shiftF1 | shiftF2 | shiftF3 | shiftF4 | shiftF5 | shiftF6 | shiftF7 | shiftF8 | shiftF9
  | fperiod | greater | hash | lbracket | lcbrace | leftparen | less | lshift | minus | percent | period | pipe
  | plus | pound | power | question | quote | rbracket | rcbrace | returnKey | rightparen | rshift | semicolon
  | slash | space | tab | underscore | j0Up | j0Down | j0Left | j0Right | j0Fire1 | j0Fire2 | j1Up | j1Down
  | j1Left | j1Right | j1Fire1 | j1Fire2 | esNtildeUpper | esNtilde | esPeseta | frEacute | frEgrave | frCcedil
  | frAgrave | frUgrave
  deriving DecidableEq

/-- The number of a key. -/
def CpcKeys.code (key : CpcKeys) : Nat := key.ctorIdx

def cpcKeyNames : List (List Char × CpcKeys) :=
  [("ESC".toList, .esc), ("RETURN".toList, .returnKey), ("ENTER".toList, .returnKey), ("SPACE".toList, .space),
   ("TAB".toList, .tab), ("DEL".toList, .del), ("COPY".toList, .copy), ("CONTROL".toList, .control),
   ("CTRL".toList, .control), ("SHIFT".toList, .lshift), ("LSHIFT".toList, .lshift),
   ("RSHIFT".toList, .rshift), ("UP".toList, .curUp), ("DOWN".toList, .curDown), ("LEFT".toList, .curLeft),
   ("RIGHT".toList, .curRight), ("CLR".toList, .clr), ("F0".toList, .f0), ("F1".toList, .f1),
   ("F2".toList, .f2), ("F3".toList, .f3), ("F4".toList, .f4), ("F5".toList, .f5), ("F6".toList, .f6),
   ("F7".toList, .f7), ("F8".toList, .f8), ("F9".toList, .f9), ("J0_UP".toList, .j0Up),
   ("J0_DOWN".toList, .j0Down), ("J0_LEFT".toList, .j0Left), ("J0_RIGHT".toList, .j0Right),
   ("J0_FIRE1".toList, .j0Fire1), ("J0_FIRE2".toList, .j0Fire2), ("J1_UP".toList, .j1Up),
   ("J1_DOWN".toList, .j1Down), ("J1_LEFT".toList, .j1Left), ("J1_RIGHT".toList, .j1Right),
   ("J1_FIRE1".toList, .j1Fire1), ("J1_FIRE2".toList, .j1Fire2)]

def cpcCharToKey : List (Char × CpcKeys) :=
  [('a', .a), ('b', .b), ('c', .c), ('d', .d), ('e', .e), ('f', .f), ('g', .g), ('h', .h), ('i', .i),
   ('j', .j), ('k', .k), ('l', .l), ('m', .m), ('n', .n), ('o', .o), ('p', .p), ('q', .q), ('r', .r),
   ('s', .s), ('t', .t), ('u', .u), ('v', .v), ('w', .w), ('x', .x), ('y', .y), ('z', .z), ('A', .A),
   ('B', .B), ('C', .C), ('D', .D), ('E', .E), ('F', .F), ('G', .G), ('H', .H), ('I', .I), ('J', .J),
   ('K', .K), ('L', .L), ('M', .M), ('N', .N), ('O', .O), ('P', .P), ('Q', .Q), ('R', .R), ('S', .S),
   ('T', .T), ('U', .U), ('V', .V), ('W', .W), ('X', .X), ('Y', .Y), ('Z', .Z), ('0', .digit0), ('1', .digit1),
   ('2', .digit2), ('3', .digit3), ('4', .digit4), ('5', .digit5), ('6', .digit6), ('7', .digit7),
   ('8', .digit8), ('9', .digit9), (' ', .space), ('\n', .returnKey), ('\r', .returnKey), ('.', .period),
   (',', .comma), (';', .semicolon), (':', .colon), ('-', .minus), ('+', .plus), ('/', .slash),
   ('*', .asterisk), ('=', .equal), ('(', .leftparen), (')', .rightparen), ('[', .lbracket), (']', .rbracket),
   ('{', .lcbrace), ('}', .rcbrace), ('<', .less), ('>', .greater), ('?', .question), ('!', .exclamatn),
   ('@', .at), ('#', .hash), ('$', .dollar), ('%', .percent), ('^', .power), ('&', .ampersand), ('|', .pipe),
   ('\\', .backslash), (Char.ofNat 34, .dblquote), (Char.ofNat 39, .quote), (Char.ofNat 96, .backquote), ('_', .underscore)]

/-- The key of a character. -/
def charKey (c : Char) : Option CpcKeys := cpcCharToKey.lookup c

def toUpper (c : Char) : Char := if 'a' ≤ c ∧ c ≤ 'z' then Char.ofNat (c.toNat - 32) else c

def resolveKeyName (name : List Char) : Option CpcKeys :=
  match cpcKeyNames.lookup (name.map toUpper) with
  | some key => some key
  | none =>
    match name with
    | [c] => charKey c
    | _ => none

/-! ## Characters of names -/

theorem charKey_of_lower {c : Char} (h : 'a' ≤ c ∧ c ≤ 'z') : (charKey c).isSome = true := by
  have hall : ∀ n : Fin 26, (charKey (Char.ofNat (n.val + 97))).isSome = true := by decide
  have hlo : 97 ≤ c.toNat := h.1
  have hhi : c.toNat ≤ 122 := h.2
  have hc := hall ⟨c.toNat - 97, by omega⟩
  rwa [show c.toNat - 97 + 97 = c.toNat by omega, Char.ofNat_toNat] at hc

theorem charKey_of_nameChar {c : Char} (h : (c.isUpper || c.isDigit || c == '_') = true) :
    (charKey c).isSome = true := by
  have hupper : ∀ n : Fin 26, (charKey (Char.ofNat (n.val + 65))).isSome = true := by decide
  have hdigit : ∀ n : Fin 10, (charKey (Char.ofNat (n.val + 48))).isSome = true := by decide
  simp only [Char.isUpper, Char.isDigit, Bool.or_eq_true, Bool.and_eq_true, decide_eq_true_eq, beq_iff_eq,
    UInt32.le_iff_toNat_le, ge_iff_le] at h
  rcases h with (⟨hlo, hhi⟩ | ⟨hlo, hhi⟩) | rfl
  · have hlo' : 65 ≤ c.toNat := hlo
    have hhi' : c.toNat ≤ 90 := hhi
    have hc := hupper ⟨c.toNat - 65, by omega⟩
    rwa [show c.toNat - 65 + 65 = c.toNat by omega, Char.ofNat_toNat] at hc
  · have hlo' : 48 ≤ c.toNat := hlo
    have hhi' : c.toNat ≤ 57 := hhi
    have hc := hdigit ⟨c.toNat - 48, by omega⟩
    rwa [show c.toNat - 48 + 48 = c.toNat by omega, Char.ofNat_toNat] at hc
  · decide

/-- Every character of a name that resolves has a key. -/
theorem charKey_of_resolves {name : List Char} (h : (resolveKeyName name).isSome = true) :
    ∀ c ∈ name, (charKey c).isSome = true := by
  intro c hc
  unfold resolveKeyName at h
  split at h
  · next key hkey =>
    have htable : (cpcKeyNames.all fun p => p.1.all fun d => d.isUpper || d.isDigit || d == '_') = true := by
      decide
    obtain ⟨before, after, happ, -⟩ := List.lookup_eq_some_iff.1 hkey
    have hmem : (name.map toUpper, key) ∈ cpcKeyNames := by
      rw [happ]
      exact List.mem_append_right _ List.mem_cons_self
    have hupper := charKey_of_nameChar
      (List.all_eq_true.mp (List.all_eq_true.mp htable _ hmem) (toUpper c) (List.mem_map_of_mem hc))
    unfold toUpper at hupper
    split at hupper
    · next hlower => exact charKey_of_lower hlower
    · exact hupper
  · split at h
    · next d => rwa [List.mem_singleton.1 hc]
    · exact absurd h Bool.false_ne_true

theorem resolveKeyName_singleton (c : Char) : resolveKeyName [c] = charKey c := by
  have hlong : ∀ p ∈ cpcKeyNames, p.1.length ≠ 1 := by decide
  have hnone : cpcKeyNames.lookup ([c].map toUpper) = none := by
    refine List.lookup_eq_none_iff.2 fun p hp => bne_iff_ne.2 fun heq => hlong p hp ?_
    rw [← heq]
    rfl
  rw [resolveKeyName, hnone]

end Koncepcja.Input
