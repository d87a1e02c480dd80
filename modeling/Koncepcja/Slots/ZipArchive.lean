import Koncepcja.Lib.ByteBuf
import Koncepcja.Lib.StreamDecoder

/-!
# ZIP Archives

`src/zip_archive.cpp`: the entries of an archive whose extension is among those asked for, found through the end
record and the central directory, and the content of one of them. The library that inflates is a parameter.
Every read of a buffer is checked: `none` is a read outside of it.

## Main results

- `dir_isSome`, `extract_isSome`: nothing is read outside of a buffer, whatever the file holds.
- `findEocd_eq`: the search finds the last signature.
- `nameMatches_iff`: which names match.
-/

namespace Koncepcja.Zip

open Bytes StreamDecoder

/-- `PK\5\6`, the end of the central directory. -/
def kEocdSig : Nat := 0x06054b50

/-- `PK\1\2`, an entry of the central directory. -/
def kCentralSig : Nat := 0x02014b50

/-- `PK\3\4`, the header of a local file. -/
def kLocalSig : Nat := 0x04034b50

/-- The end record without its comment. -/
def kEocdLen : Nat := 22

/-- The end record with the longest comment. -/
def kEocdScanMax : Nat := 22 + 65535

/-- The buffers that a file is read and inflated through. -/
def bufSize : Nat := 16384

/-- `ERR_FILE_NOT_FOUND`, `ERR_FILE_BAD_ZIP`, `ERR_FILE_EMPTY_ZIP` and `ERR_FILE_UNZIP_FAILED`. -/
inductive ZipError where
  | fileNotFound
  | fileBadZip
  | fileEmptyZip
  | fileUnzipFailed
  deriving DecidableEq

/-- `t_zip_info`; the file that `filename` names is passed by itself. -/
structure ZipInfo where
  /-- Four characters for each extension, behind each other. -/
  extensions : List UInt8
  filesOffsets : List (List UInt8 × Nat) := []
  dwOffset : Nat := 0
  deriving DecidableEq

/-! ## Checked reads -/

def le16 (p : List UInt8) (i : Nat) : Option Nat := if i + 2 ≤ p.length then some (rd16le p i) else none

def le32 (p : List UInt8) (i : Nat) : Option Nat := if i + 4 ≤ p.length then some (rd32le p i) else none

/-- A block that is there as a whole; of a file it is what `fread` of it as one item gives. -/
def block (p : List UInt8) (i len : Nat) : Option (List UInt8) :=
  if i + len ≤ p.length then some (slice p i len) else none

theorem le16_eq {p : List UInt8} {i : Nat} (h : i + 2 ≤ p.length) : le16 p i = some (rd16le p i) := if_pos h

theorem le32_eq {p : List UInt8} {i : Nat} (h : i + 4 ≤ p.length) : le32 p i = some (rd32le p i) := if_pos h

theorem block_eq {p : List UInt8} {i len : Nat} (h : i + len ≤ p.length) : block p i len = some (slice p i len) :=
  if_pos h

theorem rd16le_slice {p : List UInt8} {off len i : Nat} (h : i + 2 ≤ len) :
    rd16le (slice p off len) i = rd16le p (off + i) := by
  rw [rd16le, rd16le, ← byteAt_of_slice (by omega), ← byteAt_of_slice (by omega), ← Nat.add_assoc]

theorem rd32le_slice {p : List UInt8} {off len i : Nat} (h : i + 4 ≤ len) :
    rd32le (slice p off len) i = rd32le p (off + i) := by
  rw [rd32le, rd32le, rd16le_slice (by omega), rd16le_slice (by omega), ← Nat.add_assoc]

/-! ## Names -/

def tolower (c : UInt8) : UInt8 := if 65 ≤ c ∧ c ≤ 90 then c + 32 else c

/-- Both strings go on to the same end, or to `n` characters. -/
def strncasecmp : Nat → List UInt8 → List UInt8 → Int
  | n + 1, a :: as, b :: bs =>
    let diff : Int := (tolower a).toNat - (tolower b).toNat
    if diff ≠ 0 ∨ a = 0 then diff else strncasecmp n as bs
  | _, _, _ => 0

/-- The extensions from the `i`th character on. -/
def matchesFrom (tail exts : List UInt8) : Nat → Nat → Bool
  | 0, _ => false
  | n + 1, i => strncasecmp 4 tail (slice exts i 4) = 0 || matchesFrom tail exts n (i + 4)

def nameMatches (name exts : List UInt8) : Bool :=
  if name.length < 4 then false else matchesFrom (name.drop (name.length - 4)) exts (exts.length / 4) 0

/-! ## The directory -/

/-- The last place below `n` with the signature of an end record. -/
def findEocd (tail : List UInt8) : Nat → Option (Option Nat)
  | 0 => some none
  | i + 1 => do
    if (← le32 tail i) = kEocdSig then return some i
    findEocd tail i

/-- An entry of the directory whose name matches is remembered. -/
def note (zi : ZipInfo) (name : List UInt8) (localOff : Nat) : ZipInfo :=
  if nameMatches name zi.extensions then
    { zi with filesOffsets := zi.filesOffsets ++ [(name, localOff)], dwOffset := localOff }
  else zi

/-- Up to `n` entries of the directory from `p` on. -/
def walk (cd : List UInt8) : Nat → Nat → ZipInfo → Option ZipInfo
  | 0, _, zi => some zi
  | n + 1, p, zi =>
    if cd.length < p + 46 then some zi
    else do
      if (← le32 cd p) ≠ kCentralSig then return zi
      let nameLen ← le16 cd (p + 28)
      let extraLen ← le16 cd (p + 30)
      let commentLen ← le16 cd (p + 32)
      let localOff ← le32 cd (p + 42)
      if cd.length < p + 46 + nameLen then return zi
      let name ← block cd (p + 46) nameLen
      walk cd n (p + (46 + nameLen + extraLen + commentLen)) (note zi name localOff)

/-- What follows from the end record at `eocd`. -/
def dirFrom (file tail : List UInt8) (eocd : Nat) (zi : ZipInfo) : Option (Option ZipError × ZipInfo) := do
  let entries ← le16 tail (eocd + 10)
  let cdSize ← le32 tail (eocd + 12)
  let cdOffset ← le32 tail (eocd + 16)
  if cdSize = 0 ∨ entries = 0 then return (some .fileBadZip, zi)
  if file.length < cdSize then return (some .fileBadZip, zi)
  match block file cdOffset cdSize with
  | none => return (some .fileBadZip, zi)
  | some cd =>
    let zi ← walk cd entries 0 zi
    return (if zi.filesOffsets = [] then some .fileEmptyZip else none, zi)

/-- The part of the file that the end record is searched in. -/
def tailOf (file : List UInt8) : List UInt8 :=
  file.drop (file.length - if file.length < kEocdScanMax then file.length else kEocdScanMax)

/-- The error, if any, and what has been found; `none` for the file is one that cannot be opened. -/
def dir (file : Option (List UInt8)) (zi : ZipInfo) : Option (Option ZipError × ZipInfo) :=
  match file with
  | none => some (some .fileNotFound, zi)
  | some file =>
    if file.length < kEocdLen then some (some .fileBadZip, zi)
    else do
      match ← findEocd (tailOf file) ((tailOf file).length - kEocdLen + 1) with
      | none => return (some .fileBadZip, zi)
      | some eocd => dirFrom file (tailOf file) eocd zi

/-! ## The content of an entry -/

/-- The bytes of a stored entry; `none` when the file ends before. -/
def copyStored (file : List UInt8) (left pos : Nat) (out : List UInt8) : Option (List UInt8) :=
  if _hleft : left = 0 then some out
  else
    match block file pos (min left bufSize) with
    | none => none
    | some chunk => copyStored file (left - min left bufSize) (pos + min left bufSize) (out ++ chunk)
termination_by left
decreasing_by
  have hsize : 0 < bufSize := by decide
  omega

variable {σ : Type}

/-- How much of the file is asked for next; nothing where the compressed data is used up. -/
def want (compSize left : Nat) : Nat := if compSize ≠ 0 then min left bufSize else bufSize

/-- The bytes of a deflated entry, up to where the decoder stops. -/
def inflateEntry (z : Decoder σ UInt8 UInt8) (file : List UInt8) (compSize : Nat) (s : σ) (left pos : Nat)
    (out : List UInt8) : Status × List UInt8 :=
  if _hgot : slice file pos (want compSize left) = [] then (.ok, out)
  else if (takeIn z (by decide : 0 < bufSize) s (slice file pos (want compSize left)) out).status = .ok then
    inflateEntry z file compSize
      (takeIn z (by decide : 0 < bufSize) s (slice file pos (want compSize left)) out).state
      (left - (slice file pos (want compSize left)).length)
      (pos + (slice file pos (want compSize left)).length)
      (takeIn z (by decide : 0 < bufSize) s (slice file pos (want compSize left)) out).output
  else
    ((takeIn z (by decide : 0 < bufSize) s (slice file pos (want compSize left)) out).status,
      (takeIn z (by decide : 0 < bufSize) s (slice file pos (want compSize left)) out).output)
termination_by file.length - pos
decreasing_by
  have hpos := List.length_pos_of_ne_nil _hgot
  have hlen : (slice file pos (want compSize left)).length ≤ file.length - pos := by
    rw [slice, ← List.length_drop]
    exact List.length_take_le' _ _
  omega

/-- The content of an entry, by its method. -/
def extractData (z : Decoder σ UInt8 UInt8) (file : List UInt8) (method compSize dataOff : Nat) :
    Except ZipError (List UInt8) :=
  if method = 0 then
    match copyStored file compSize dataOff [] with
    | none => .error .fileUnzipFailed
    | some out => .ok out
  else if method = 8 then
    let (status, out) := inflateEntry z file compSize z.start compSize dataOff []
    if status = .streamEnd then .ok out else .error .fileUnzipFailed
  else .error .fileUnzipFailed

/-- The content of the entry with its local header at `dwOffset`. -/
def extract (z : Decoder σ UInt8 UInt8) (file : Option (List UInt8)) (dwOffset : Nat) :
    Option (Except ZipError (List UInt8)) :=
  match file with
  | none => some (.error .fileUnzipFailed)
  | some file =>
    match block file dwOffset 30 with
    | none => some (.error .fileUnzipFailed)
    | some hdr => do
      if (← le32 hdr 0) ≠ kLocalSig then return .error .fileUnzipFailed
      let method ← le16 hdr 8
      let compSize ← le32 hdr 18
      let nameLen ← le16 hdr 26
      let extraLen ← le16 hdr 28
      return extractData z file method compSize (dwOffset + 30 + nameLen + extraLen)

/-! ## Which names match -/

/-- A string of C without regard to case. -/
def cfold (s : List UInt8) : List UInt8 := (s.map tolower).takeWhile (· ≠ 0)

theorem tolower_eq_zero (c : UInt8) : tolower c = 0 ↔ c = 0 := by
  constructor
  · intro h
    rw [tolower] at h
    split at h
    · obtain ⟨hlow, hhigh⟩ := ‹65 ≤ c ∧ c ≤ 90›
      have hn := congrArg UInt8.toNat h
      rw [UInt8.toNat_add] at hn
      have h65 : 65 ≤ c.toNat := hlow
      have h90 : c.toNat ≤ 90 := hhigh
      have h32 : (32 : UInt8).toNat = 32 := rfl
      have h0 : (0 : UInt8).toNat = 0 := rfl
      omega
    · exact h
  · rintro rfl
    rfl

theorem cfold_cons (c : UInt8) (cs : List UInt8) :
    cfold (c :: cs) = if tolower c = 0 then [] else tolower c :: cfold cs := by
  rw [cfold, List.map_cons, List.takeWhile_cons]
  by_cases h : tolower c = 0 <;> simp [h, cfold]

theorem cfold_cons_eq (a b : UInt8) (as bs : List UInt8) :
    cfold (a :: as) = cfold (b :: bs) ↔ tolower a = tolower b ∧ (tolower a = 0 ∨ cfold as = cfold bs) := by
  rw [cfold_cons, cfold_cons]
  by_cases ha : tolower a = 0 <;> by_cases hb : tolower b = 0 <;> simp [ha, hb]
  exact fun h => hb h.symm

theorem strncasecmp_eq_zero {n : Nat} {a b : List UInt8} (ha : a.length = n) (hb : b.length = n) :
    strncasecmp n a b = 0 ↔ cfold a = cfold b := by
  induction n generalizing a b with
  | zero =>
    rw [List.length_eq_zero_iff.1 ha, List.length_eq_zero_iff.1 hb]
    exact iff_of_true rfl rfl
  | succ n ih =>
    obtain ⟨x, xs, rfl⟩ := List.exists_cons_of_length_eq_add_one ha
    obtain ⟨y, ys, rfl⟩ := List.exists_cons_of_length_eq_add_one hb
    have hdiff : ((tolower x).toNat : Int) - (tolower y).toNat = 0 ↔ tolower x = tolower y := by
      rw [← UInt8.toNat_inj]
      omega
    rw [cfold_cons_eq, strncasecmp, tolower_eq_zero]
    by_cases hxy : tolower x = tolower y
    · by_cases hx : x = 0
      · rw [if_pos (Or.inr hx), hdiff]
        exact iff_of_true hxy ⟨hxy, Or.inl hx⟩
      · rw [if_neg (not_or.2 ⟨not_not_intro (hdiff.2 hxy), hx⟩), ih (Nat.succ.inj ha) (Nat.succ.inj hb)]
        simp [hxy, hx]
    · rw [if_pos (Or.inl (mt hdiff.1 hxy)), hdiff]
      exact iff_of_false hxy fun h => hxy h.1

/-- The last four characters of the name are one of the extensions, as strings of C and without regard to case. -/
def ExtensionMatches (exts name : List UInt8) : Prop :=
  4 ≤ name.length ∧ ∃ k, 4 * k + 4 ≤ exts.length ∧ cfold (name.drop (name.length - 4)) = cfold (slice exts (4 * k) 4)

theorem matchesFrom_iff {tail exts : List UInt8} (htail : tail.length = 4) {n i : Nat} (h : i + 4 * n ≤ exts.length) :
    matchesFrom tail exts n i = true ↔ ∃ k < n, cfold tail = cfold (slice exts (i + 4 * k) 4) := by
  induction n generalizing i with
  | zero => simp [matchesFrom]
  | succ n ih =>
    rw [matchesFrom, Bool.or_eq_true, decide_eq_true_eq, ih (by omega),
      strncasecmp_eq_zero htail (slice_length (by omega))]
    constructor
    · rintro (h0 | ⟨k, hk, hcf⟩)
      · exact ⟨0, Nat.succ_pos n, h0⟩
      · refine ⟨k + 1, Nat.succ_lt_succ hk, ?_⟩
        rwa [show i + 4 * (k + 1) = i + 4 + 4 * k by omega]
    · rintro ⟨k, hk, hcf⟩
      cases k with
      | zero => exact Or.inl hcf
      | succ k =>
        refine Or.inr ⟨k, Nat.lt_of_succ_lt_succ hk, ?_⟩
        rwa [show i + 4 + 4 * k = i + 4 * (k + 1) by omega]

theorem nameMatches_iff (name exts : List UInt8) : nameMatches name exts = true ↔ ExtensionMatches exts name := by
  rw [nameMatches, ExtensionMatches]
  by_cases hshort : name.length < 4
  · rw [if_pos hshort]
    exact iff_of_false Bool.false_ne_true fun h => absurd h.1 (Nat.not_le.2 hshort)
  · have htail : (name.drop (name.length - 4)).length = 4 := by
      rw [List.length_drop]
      omega
    rw [if_neg hshort, matchesFrom_iff htail (by omega), and_iff_right (Nat.not_lt.1 hshort)]
    simp only [Nat.zero_add]
    refine exists_congr fun k => and_congr_left fun _ => ?_
    omega

/-! ## Reads stay within their buffers -/

theorem findEocd_step {tail : List UInt8} {i : Nat} (h : i + 4 ≤ tail.length) :
    findEocd tail (i + 1) = if rd32le tail i = kEocdSig then some (some i) else findEocd tail i := by
  rw [findEocd, le32_eq h]
  rfl

theorem findEocd_bounded {tail : List UInt8} : ∀ {n : Nat}, n + 3 ≤ tail.length →
    ∃ r, findEocd tail n = some r ∧ ∀ e, r = some e → e < n := by
  intro n
  induction n with
  | zero => exact fun _ => ⟨none, rfl, fun e he => by cases he⟩
  | succ i ih =>
    intro h
    rw [findEocd_step (by omega)]
    by_cases hsig : rd32le tail i = kEocdSig
    · rw [if_pos hsig]
      refine ⟨some i, rfl, fun e he => ?_⟩
      rw [← Option.some.inj he]
      exact Nat.lt_succ_self i
    · rw [if_neg hsig]
      obtain ⟨r, hr, hlt⟩ := ih (by omega)
      exact ⟨r, hr, fun e he => Nat.lt_succ_of_lt (hlt e he)⟩

/-- The search finds the last place with the signature. -/
theorem findEocd_eq {tail : List UInt8} {e n : Nat} (hsig : rd32le tail e = kEocdSig) (he : e < n)
    (hn : n + 3 ≤ tail.length) (hlast : ∀ i, e < i → i < n → rd32le tail i ≠ kEocdSig) :
    findEocd tail n = some (some e) := by
  induction n with
  | zero => omega
  | succ i ih =>
    rw [findEocd_step (by omega)]
    rcases Nat.lt_or_ge e i with hlt | hge
    · rw [if_neg (hlast i hlt (Nat.lt_succ_self i))]
      exact ih hlt (by omega) fun j hj hji => hlast j hj (by omega)
    · obtain rfl : e = i := by omega
      exact if_pos hsig

section Walk

variable {cd : List UInt8} {n p : Nat} {zi : ZipInfo}

theorem walk_short (h : cd.length < p + 46) : walk cd (n + 1) p zi = some zi := by
  rw [walk, if_pos h]

theorem walk_unsigned (h : p + 46 ≤ cd.length) (hsig : rd32le cd p ≠ kCentralSig) :
    walk cd (n + 1) p zi = some zi := by
  rw [walk, if_neg (Nat.not_lt.2 h), le32_eq (by omega)]
  exact if_pos hsig

theorem walk_cut (h : p + 46 ≤ cd.length) (hsig : rd32le cd p = kCentralSig)
    (hname : cd.length < p + 46 + rd16le cd (p + 28)) : walk cd (n + 1) p zi = some zi := by
  rw [walk, if_neg (Nat.not_lt.2 h), le32_eq (by omega), le16_eq (by omega), le16_eq (by omega),
    le16_eq (by omega), le32_eq (by omega)]
  exact (if_neg (not_not_intro hsig)).trans (if_pos hname)

theorem walk_next (h : p + 46 ≤ cd.length) (hsig : rd32le cd p = kCentralSig)
    (hname : p + 46 + rd16le cd (p + 28) ≤ cd.length) :
    walk cd (n + 1) p zi =
      walk cd n (p + (46 + rd16le cd (p + 28) + rd16le cd (p + 30) + rd16le cd (p + 32)))
        (note zi (slice cd (p + 46) (rd16le cd (p + 28))) (rd32le cd (p + 42))) := by
  rw [walk, if_neg (Nat.not_lt.2 h), le32_eq (by omega), le16_eq (by omega), le16_eq (by omega),
    le16_eq (by omega), le32_eq (by omega)]
  refine (if_neg (not_not_intro hsig)).trans ((if_neg (Nat.not_lt.2 hname)).trans ?_)
  rw [block_eq hname]
  rfl

theorem walk_isSome : ∃ zi', walk cd n p zi = some zi' := by
  induction n generalizing p zi with
  | zero => exact ⟨zi, rfl⟩
  | succ n ih =>
    rcases Nat.lt_or_ge cd.length (p + 46) with hshort | hfull
    · exact ⟨zi, walk_short hshort⟩
    · by_cases hsig : rd32le cd p = kCentralSig
      · rcases Nat.lt_or_ge cd.length (p + 46 + rd16le cd (p + 28)) with hcut | hname
        · exact ⟨zi, walk_cut hfull hsig hcut⟩
        · rw [walk_next hfull hsig hname]
          exact ih
      · exact ⟨zi, walk_unsigned hfull hsig⟩

end Walk

theorem tailOf_length (file : List UInt8) : (tailOf file).length = min file.length kEocdScanMax := by
  rw [tailOf, List.length_drop]
  split <;> omega

/-- The directory that an end record names is there, and is not empty. -/
def Names (file tail : List UInt8) (eocd : Nat) : Prop :=
  rd32le tail (eocd + 12) ≠ 0 ∧ rd16le tail (eocd + 10) ≠ 0 ∧
    rd32le tail (eocd + 16) + rd32le tail (eocd + 12) ≤ file.length

theorem dirFrom_eq {file tail : List UInt8} {eocd : Nat} (h : eocd + 22 ≤ tail.length)
    (hnames : Names file tail eocd) (zi : ZipInfo) :
    dirFrom file tail eocd zi =
      (walk (slice file (rd32le tail (eocd + 16)) (rd32le tail (eocd + 12))) (rd16le tail (eocd + 10)) 0 zi).bind
        fun zi' => some (if zi'.filesOffsets = [] then some .fileEmptyZip else none, zi') := by
  obtain ⟨hsize, hcount, hthere⟩ := hnames
  rw [dirFrom, le16_eq (by omega), le32_eq (by omega), le32_eq (by omega)]
  refine (if_neg (not_or.2 ⟨hsize, hcount⟩)).trans ((if_neg (by omega)).trans ?_)
  rw [block_eq hthere]
  rfl

theorem dirFrom_bad {file tail : List UInt8} {eocd : Nat} (h : eocd + 22 ≤ tail.length)
    (hnames : ¬Names file tail eocd) (zi : ZipInfo) :
    dirFrom file tail eocd zi = some (some .fileBadZip, zi) := by
  rw [dirFrom, le16_eq (by omega), le32_eq (by omega), le32_eq (by omega)]
  by_cases hzero : rd32le tail (eocd + 12) = 0 ∨ rd16le tail (eocd + 10) = 0
  · exact if_pos hzero
  · refine (if_neg hzero).trans ?_
    by_cases hlong : file.length < rd32le tail (eocd + 12)
    · exact if_pos hlong
    · refine (if_neg hlong).trans ?_
      have hout : ¬rd32le tail (eocd + 16) + rd32le tail (eocd + 12) ≤ file.length :=
        fun hthere => hnames ⟨fun h0 => hzero (Or.inl h0), fun h0 => hzero (Or.inr h0), hthere⟩
      have hblock : block file (rd32le tail (eocd + 16)) (rd32le tail (eocd + 12)) = none := if_neg hout
      rw [hblock]
      rfl

theorem dirFrom_isSome {file tail : List UInt8} {eocd : Nat} (h : eocd + 22 ≤ tail.length) (zi : ZipInfo) :
    ∃ r, dirFrom file tail eocd zi = some r := by
  by_cases hnames : Names file tail eocd
  · rw [dirFrom_eq h hnames]
    obtain ⟨zi', hwalk⟩ : ∃ zi', walk (slice file (rd32le tail (eocd + 16)) (rd32le tail (eocd + 12)))
      (rd16le tail (eocd + 10)) 0 zi = some zi' := walk_isSome
    rw [hwalk]
    exact ⟨_, rfl⟩
  · exact ⟨_, dirFrom_bad h hnames zi⟩

/-- Listing an archive reads nothing outside of its buffers, whatever the file holds. -/
theorem dir_isSome (file : Option (List UInt8)) (zi : ZipInfo) : ∃ r, dir file zi = some r := by
  cases file with
  | none => exact ⟨_, rfl⟩
  | some file =>
    rcases Nat.lt_or_ge file.length kEocdLen with hshort | hlong
    · exact ⟨_, if_pos hshort⟩
    · have hlen : (tailOf file).length = min file.length kEocdScanMax := tailOf_length file
      have htail : 22 ≤ (tailOf file).length := by
        rw [kEocdLen] at hlong
        rw [kEocdScanMax] at hlen
        omega
      have hroom : (tailOf file).length - kEocdLen + 1 + 3 ≤ (tailOf file).length := by
        unfold kEocdLen
        omega
      obtain ⟨r, hfind, hlt⟩ := findEocd_bounded hroom
      rw [dir, if_neg (Nat.not_lt.2 hlong), hfind]
      cases r with
      | none => exact ⟨_, rfl⟩
      | some eocd =>
        have hbelow := hlt eocd rfl
        rw [kEocdLen] at hbelow
        exact dirFrom_isSome (by omega) zi

/-- Where the data of the entry with its local header at `off` begins. -/
def dataOffset (file : List UInt8) (off : Nat) : Nat := off + 30 + rd16le file (off + 26) + rd16le file (off + 28)

theorem extract_eq (z : Decoder σ UInt8 UInt8) {file : List UInt8} {off : Nat} (h : off + 30 ≤ file.length)
    (hsig : rd32le file off = kLocalSig) :
    extract z (some file) off =
      some (extractData z file (rd16le file (off + 8)) (rd32le file (off + 18)) (dataOffset file off)) := by
  have hlen : (slice file off 30).length = 30 := slice_length h
  rw [extract, block_eq h]
  dsimp only
  rw [le32_eq (by omega), le16_eq (by omega), le32_eq (by omega), le16_eq (by omega), le16_eq (by omega),
    rd32le_slice (by decide), rd16le_slice (by decide), rd32le_slice (by decide), rd16le_slice (by decide),
    rd16le_slice (by decide)]
  exact if_neg (not_not_intro hsig)

theorem extract_unsigned (z : Decoder σ UInt8 UInt8) {file : List UInt8} {off : Nat} (h : off + 30 ≤ file.length)
    (hsig : rd32le file off ≠ kLocalSig) : extract z (some file) off = some (.error .fileUnzipFailed) := by
  have hlen : (slice file off 30).length = 30 := slice_length h
  rw [extract, block_eq h]
  dsimp only
  rw [le32_eq (by omega), rd32le_slice (by decide)]
  exact if_pos hsig

/-- Extracting an entry reads nothing outside of its buffers either. -/
theorem extract_isSome (z : Decoder σ UInt8 UInt8) (file : Option (List UInt8)) (dwOffset : Nat) :
    ∃ r, extract z file dwOffset = some r := by
  cases file with
  | none => exact ⟨_, rfl⟩
  | some file =>
    by_cases h : dwOffset + 30 ≤ file.length
    · by_cases hsig : rd32le file dwOffset = kLocalSig
      · exact ⟨_, extract_eq z h hsig⟩
      · exact ⟨_, extract_unsigned z h hsig⟩
    · have hblock : block file dwOffset 30 = none := if_neg h
      exact ⟨_, by rw [extract, hblock]⟩

end Koncepcja.Zip
