import Koncepcja.Slots.ZipArchive

/-!
# What Is Found in a Well-Formed Archive

A well-formed archive has an end record, a central directory with a record for each entry, and each entry's
local header ahead of its data, which is stored or deflated. A local header leaves the size of its data out
where a descriptor follows the data.

## Main results

- `dir_eq`: exactly the matching entries are listed, when no signature stands behind the end record.
- `extract_iff`: the entries that are extracted as they are.
-/

namespace Koncepcja.Zip

open Bytes StreamDecoder

set_option maxRecDepth 20000

/-! ## Well-formed archives -/

/-- How the data of an entry comes from its content. -/
inductive Method where
  | stored
  | deflated
  deriving DecidableEq

def Method.code : Method → Nat
  | stored => 0
  | deflated => 8

structure Entry where
  name : List UInt8
  /-- The place of the local header. -/
  offset : Nat
  method : Method
  /-- The sizes follow the data and are not in the local header. -/
  descriptor : Bool
  data : List UInt8
  content : List UInt8

structure Archive where
  entries : List Entry
  /-- The place and the size of the central directory. -/
  cdOffset : Nat
  cdSize : Nat
  /-- The place of the end record. -/
  eocd : Nat

variable {σ : Type} {Stream : List UInt8 → List UInt8 → Prop}

/-- The record of an entry in the central directory. -/
structure IsCentral (file : List UInt8) (p : Nat) (e : Entry) : Prop where
  signature : rd32le file p = kCentralSig
  method : rd16le file (p + 10) = e.method.code
  compSize : rd32le file (p + 20) = e.data.length
  size : rd32le file (p + 24) = e.content.length
  nameLen : rd16le file (p + 28) = e.name.length
  offset : rd32le file (p + 42) = e.offset
  name : slice file (p + 46) e.name.length = e.name

/-- The fixed part of a record, with the name, the extra field and the comment. -/
def recordLength (file : List UInt8) (p : Nat) : Nat :=
  46 + rd16le file (p + 28) + rd16le file (p + 30) + rd16le file (p + 32)

/-- Records behind each other, from one place to another. -/
def IsDirectory (file : List UInt8) (stop : Nat) : Nat → List Entry → Prop
  | p, [] => p = stop
  | p, e :: es => IsCentral file p e ∧ IsDirectory file stop (p + recordLength file p) es

/-- The data of an entry is its content, as it is or deflated. -/
def Holds (Stream : List UInt8 → List UInt8 → Prop) (e : Entry) : Prop :=
  match e.method with
  | .stored => e.data = e.content
  | .deflated => Stream e.data e.content

/-- The local header of an entry, and the data behind it. -/
structure IsLocal (file : List UInt8) (e : Entry) : Prop where
  signature : rd32le file e.offset = kLocalSig
  flag : (rd16le file (e.offset + 6)).testBit 3 = e.descriptor
  method : rd16le file (e.offset + 8) = e.method.code
  compSize : rd32le file (e.offset + 18) = if e.descriptor then 0 else e.data.length
  data : slice file (dataOffset file e.offset) e.data.length = e.data

/-- `Stream` is what deflated data is of which content. -/
structure WellFormed (Stream : List UInt8 → List UInt8 → Prop) (file : List UInt8) (a : Archive) : Prop where
  signature : rd32le file a.eocd = kEocdSig
  count : rd16le file (a.eocd + 10) = a.entries.length
  cdSize : rd32le file (a.eocd + 12) = a.cdSize
  cdOffset : rd32le file (a.eocd + 16) = a.cdOffset
  comment : a.eocd + 22 + rd16le file (a.eocd + 20) = file.length
  directory : IsDirectory file (a.cdOffset + a.cdSize) a.cdOffset a.entries
  directoryEnd : a.cdOffset + a.cdSize ≤ a.eocd
  locals : ∀ e ∈ a.entries, IsLocal file e
  localsEnd : ∀ e ∈ a.entries, dataOffset file e.offset + e.data.length ≤ a.cdOffset
  holds : ∀ e ∈ a.entries, Holds Stream e

/-! ## What is to be found -/

instance decidableExtensionMatches (exts name : List UInt8) : Decidable (ExtensionMatches exts name) :=
  decidable_of_iff _ (nameMatches_iff name exts)

/-- The entries whose extension matches, in the order of the directory. -/
def listed (exts : List UInt8) (a : Archive) : List Entry := a.entries.filter fun e => ExtensionMatches exts e.name

/-- What a listing of entries leaves behind. -/
def found (zi : ZipInfo) (es : List Entry) : ZipInfo :=
  { zi with
    filesOffsets := zi.filesOffsets ++ es.map fun e => (e.name, e.offset)
    dwOffset := (es.getLast?.map Entry.offset).getD zi.dwOffset }

/-- The matching entries are listed, and each of them gives its content. -/
def Exact (z : Decoder σ UInt8 UInt8) (file exts : List UInt8) (a : Archive) : Prop :=
  dir (some file) { extensions := exts } = some (none, found { extensions := exts } (listed exts a)) ∧
    ∀ e ∈ listed exts a, extract z (some file) e.offset = some (.ok e.content)

/-- No later place, as long as an end record has room there, has its signature: not in the comment either. -/
def EndRecordLast (file : List UInt8) (a : Archive) : Prop :=
  ∀ i, a.eocd < i → i + 22 ≤ file.length → rd32le file i ≠ kEocdSig

/-- A stored entry whose size follows the data has none; of a deflated one whose size does not, the call that takes the
    last of the data reports the end and is not cut short by its buffer being full. -/
def Extractable (z : Decoder σ UInt8 UInt8) (e : Entry) : Prop :=
  match e.method with
  | .stored => e.descriptor = true → e.content = []
  | .deflated => e.descriptor = false → ¬HeldBack z bufSize bufSize e.data

/-! ## The listing -/

theorem slice_slice {p : List UInt8} {off len i n : Nat} (h : i + n ≤ len) :
    slice (slice p off len) i n = slice p (off + i) n := by
  rw [slice, slice, slice, List.drop_take, List.take_take, List.drop_drop, Nat.min_eq_left (by omega)]

theorem rd16le_drop (p : List UInt8) (n i : Nat) : rd16le (p.drop n) i = rd16le p (n + i) := by
  rw [rd16le, rd16le, byteAt_drop, byteAt_drop, ← Nat.add_assoc]

theorem rd32le_drop (p : List UInt8) (n i : Nat) : rd32le (p.drop n) i = rd32le p (n + i) := by
  rw [rd32le, rd32le, rd16le_drop, rd16le_drop, ← Nat.add_assoc]

theorem IsDirectory.le {file : List UInt8} {stop : Nat} : ∀ {es : List Entry} {p : Nat}, IsDirectory file stop p es →
    p ≤ stop := by
  intro es
  induction es with
  | nil => exact fun h => Nat.le_of_eq h
  | cons e es ih => exact fun h => Nat.le_trans (Nat.le_add_right _ _) (ih h.2)

theorem walk_directory {file : List UInt8} {off len : Nat} {es : List Entry} {p : Nat} (zi : ZipInfo)
    (hfits : off + len ≤ file.length) (h : IsDirectory file (off + len) (off + p) es) :
    walk (slice file off len) es.length p zi = some (es.foldl (fun zi e => note zi e.name e.offset) zi) := by
  -- Along the records; each is read at the place its predecessor ends.
  induction es generalizing p zi with
  | nil => rfl
  | cons e es ih =>
    obtain ⟨hrec, hrest⟩ := h
    have hlen : (slice file off len).length = len := slice_length hfits
    have hend := hrest.le
    rw [recordLength] at hend hrest
    -- The lengths and the offset, read out of the slice, are those of the file.
    have hnameLen : rd16le (slice file off len) (p + 28) = rd16le file (off + p + 28) := by
      rw [rd16le_slice (by omega), ← Nat.add_assoc]
    have hextraLen : rd16le (slice file off len) (p + 30) = rd16le file (off + p + 30) := by
      rw [rd16le_slice (by omega), ← Nat.add_assoc]
    have hcommentLen : rd16le (slice file off len) (p + 32) = rd16le file (off + p + 32) := by
      rw [rd16le_slice (by omega), ← Nat.add_assoc]
    have hoffset : rd32le (slice file off len) (p + 42) = e.offset := by
      rw [rd32le_slice (by omega), ← Nat.add_assoc, hrec.offset]
    have hsig : rd32le (slice file off len) p = kCentralSig := by
      rw [rd32le_slice (by omega), hrec.signature]
    have hname : slice (slice file off len) (p + 46) (rd16le file (off + p + 28)) = e.name := by
      rw [slice_slice (by omega), ← Nat.add_assoc, hrec.nameLen, hrec.name]
    rw [List.length_cons, walk_next (by omega) hsig (by omega), hnameLen, hextraLen, hcommentLen, hoffset, hname,
      List.foldl_cons]
    apply ih
    rwa [← Nat.add_assoc]

theorem note_eq (zi : ZipInfo) (e : Entry) :
    note zi e.name e.offset = if ExtensionMatches zi.extensions e.name then found zi [e] else zi := by
  rw [note]
  by_cases h : ExtensionMatches zi.extensions e.name
  · rw [if_pos h, if_pos ((nameMatches_iff _ _).2 h)]
    rfl
  · rw [if_neg h, if_neg (mt (nameMatches_iff _ _).1 h)]

theorem found_cons (zi : ZipInfo) (e : Entry) (es : List Entry) : found zi (e :: es) = found (found zi [e]) es := by
  have hfiles : zi.filesOffsets ++ (e :: es).map (fun e => (e.name, e.offset)) =
      zi.filesOffsets ++ [(e.name, e.offset)] ++ es.map fun e => (e.name, e.offset) := by
    rw [List.map_cons, List.append_assoc, List.singleton_append]
  have hlast : ((e :: es).getLast?.map Entry.offset).getD zi.dwOffset = (es.getLast?.map Entry.offset).getD e.offset := by
    rw [List.getLast?_cons]
    cases es.getLast? <;> rfl
  rw [found, hfiles, hlast]
  rfl

theorem found_nil (zi : ZipInfo) : found zi [] = zi := by
  rw [found, List.map_nil, List.append_nil]
  rfl

theorem foldl_note (zi : ZipInfo) (es : List Entry) :
    es.foldl (fun zi e => note zi e.name e.offset) zi =
      found zi (es.filter fun e => ExtensionMatches zi.extensions e.name) := by
  induction es generalizing zi with
  | nil => exact (found_nil zi).symm
  | cons e es ih =>
    rw [List.foldl_cons, note_eq]
    by_cases h : ExtensionMatches zi.extensions e.name
    · rw [if_pos h, ih, List.filter_cons, if_pos (decide_eq_true h)]
      exact (found_cons zi e _).symm
    · rw [if_neg h, ih, List.filter_cons, if_neg (mt of_decide_eq_true h)]

/-- Exactly the matching entries are listed, in the order of the directory and with their offsets. -/
theorem dir_eq {file exts : List UInt8} {a : Archive} (hwf : WellFormed Stream file a) (hlast : EndRecordLast file a)
    (hmatch : listed exts a ≠ []) :
    dir (some file) { extensions := exts } = some (none, found { extensions := exts } (listed exts a)) := by
  have hcomment := hwf.comment
  have h16 := rd16le_lt file (a.eocd + 20)
  have hlong : kEocdLen ≤ file.length := by
    rw [kEocdLen]
    omega
  -- The end record lies within the part of the file that is searched.
  obtain ⟨start, hstart, htail⟩ : ∃ start, start + (tailOf file).length = file.length ∧ tailOf file = file.drop start := by
    refine ⟨file.length - if file.length < kEocdScanMax then file.length else kEocdScanMax, ?_, rfl⟩
    rw [tailOf, List.length_drop]
    omega
  have htailLen := tailOf_length file
  rw [kEocdScanMax] at htailLen
  obtain ⟨e, he⟩ : ∃ e, a.eocd = start + e := ⟨a.eocd - start, by omega⟩
  have hfind : findEocd (tailOf file) ((tailOf file).length - kEocdLen + 1) = some (some e) := by
    apply findEocd_eq
    · rw [htail, rd32le_drop, ← he, hwf.signature]
    · rw [kEocdLen]
      omega
    · rw [kEocdLen]
      omega
    · intro i hei hi
      rw [kEocdLen] at hi
      rw [htail, rd32le_drop]
      exact hlast (start + i) (by omega) (by omega)
  have hcount : rd16le (tailOf file) (e + 10) = a.entries.length := by
    rw [htail, rd16le_drop, ← Nat.add_assoc, ← he, hwf.count]
  have hsize : rd32le (tailOf file) (e + 12) = a.cdSize := by
    rw [htail, rd32le_drop, ← Nat.add_assoc, ← he, hwf.cdSize]
  have hoffset : rd32le (tailOf file) (e + 16) = a.cdOffset := by
    rw [htail, rd32le_drop, ← Nat.add_assoc, ← he, hwf.cdOffset]
  -- There is an entry, and so there is a record in the directory.
  have hentries : a.entries ≠ [] := fun h => hmatch (by rw [listed, h, List.filter_nil])
  have hnonempty : a.cdSize ≠ 0 := by
    obtain ⟨e', es, hes⟩ := List.exists_cons_of_ne_nil hentries
    have hdir := hwf.directory
    rw [hes] at hdir
    have hle := hdir.2.le
    rw [recordLength] at hle
    omega
  have hends := hwf.directoryEnd
  have hnames : Names file (tailOf file) e := by
    rw [Names, hcount, hsize, hoffset]
    exact ⟨hnonempty, mt List.length_eq_zero_iff.1 hentries, by omega⟩
  rw [dir, if_neg (Nat.not_lt.2 hlong), hfind]
  refine (dirFrom_eq (by omega) hnames _).trans ?_
  rw [hcount, hsize, hoffset, walk_directory _ (by omega) hwf.directory, Option.bind_some, foldl_note]
  have hsome : (found { extensions := exts } (listed exts a)).filesOffsets ≠ [] :=
    fun h => hmatch (List.map_eq_nil_iff.1 h)
  exact congrArg (fun r => some (r, found { extensions := exts } (listed exts a))) (if_neg hsome)

/-! ## The contents -/

theorem slice_add (p : List UInt8) (off m n : Nat) : slice p off (m + n) = slice p off m ++ slice p (off + m) n := by
  rw [slice, slice, slice, List.take_add, List.drop_drop]

theorem copyStored_eq {file : List UInt8} {left pos : Nat} (h : pos + left ≤ file.length) (out : List UInt8) :
    copyStored file left pos out = some (out ++ slice file pos left) := by
  induction left using Nat.strong_induction_on generalizing pos out with
  | _ left ih =>
    rw [copyStored]
    by_cases hleft : left = 0
    · subst hleft
      rw [dif_pos rfl, slice, List.take_zero, List.append_nil]
    · have hsize : 0 < bufSize := by decide
      have hsplit := slice_add file pos (min left bufSize) (left - min left bufSize)
      rw [Nat.add_sub_cancel' (Nat.min_le_left left bufSize)] at hsplit
      rw [dif_neg hleft, block_eq (by omega), hsplit, ← List.append_assoc]
      exact ih _ (by omega) (by omega) _

section Inflate

variable {z : Decoder σ UInt8 UInt8} {file : List UInt8} {compSize : Nat} {s : σ} {left pos : Nat} {out : List UInt8}

theorem hbuf : 0 < bufSize := by decide

theorem inflateEntry_stop (h : slice file pos (want compSize left) = []) :
    inflateEntry z file compSize s left pos out = (.ok, out) := by
  rw [inflateEntry, dif_pos h]

theorem inflateEntry_next {chunk : List UInt8} (hchunk : slice file pos (want compSize left) = chunk) (h : chunk ≠ [])
    (hok : (takeIn z hbuf s chunk out).status = .ok) :
    inflateEntry z file compSize s left pos out =
      inflateEntry z file compSize (takeIn z hbuf s chunk out).state (left - chunk.length) (pos + chunk.length)
        (takeIn z hbuf s chunk out).output := by
  subst hchunk
  rw [inflateEntry, dif_neg h]
  exact if_pos hok

theorem inflateEntry_end {chunk : List UInt8} (hchunk : slice file pos (want compSize left) = chunk) (h : chunk ≠ [])
    (hok : (takeIn z hbuf s chunk out).status ≠ .ok) :
    inflateEntry z file compSize s left pos out =
      ((takeIn z hbuf s chunk out).status, (takeIn z hbuf s chunk out).output) := by
  subst hchunk
  rw [inflateEntry, dif_neg h]
  exact if_neg hok

variable {data content rest todo : List UInt8}

/-- A stream whose size is not in the local header is inflated from all that is left of the file: there is always more
    of it, and so the end is reached. -/
theorem inflateEntry_descriptor (hz : Documented z Stream) (hs : Stream data content)
    (hmid : Midway z data content s rest todo) (hrest : rest <+: file.drop pos)
    (hmore : pos + rest.length < file.length) :
    inflateEntry z file 0 s 0 pos out = (.streamEnd, out ++ todo) := by
  induction hn : file.length - pos using Nat.strong_induction_on generalizing s rest todo pos out with
  | _ n ih =>
    have hchunk : slice file pos (want 0 0) = (file.drop pos).take bufSize := rfl
    have hne : (file.drop pos).take bufSize ≠ [] := by
      apply List.ne_nil_of_length_pos
      have hbuf := hbuf
      rw [List.length_take, List.length_drop]
      omega
    have hagree : Agree ((file.drop pos).take bufSize) rest :=
      List.prefix_or_prefix_of_prefix (List.take_prefix _ _) hrest
    rcases takeIn_midway hbuf out hz hs hmid hagree with
      ⟨hok, hle, given, left, htodo, hout, hmid'⟩ | ⟨hend, hout⟩
    · have hpos := List.length_pos_of_ne_nil hne
      have hrest' := hrest.drop ((file.drop pos).take bufSize).length
      rw [List.drop_drop] at hrest'
      rw [inflateEntry_next hchunk hne hok, Nat.zero_sub, hout, htodo, ← List.append_assoc]
      exact ih _ (by omega) hmid' hrest' (by rw [List.length_drop]; omega) rfl
    · rw [inflateEntry_end hchunk hne (by rw [hend]; exact fun h => by cases h), hend, hout]

theorem drop_length_take (l : List UInt8) (n : Nat) : l.drop (l.take n).length = l.drop n := by
  rw [List.length_take]
  rcases Nat.le_total n l.length with h | h
  · rw [Nat.min_eq_left h]
  · rw [Nat.min_eq_right h, List.drop_length, List.drop_eq_nil_of_le h]

theorem slice_rest (h : slice file pos rest.length = rest) (m : Nat) :
    slice file (pos + m) (rest.drop m).length = rest.drop m := by
  have hdrop := congrArg (List.drop m) h
  rwa [slice, List.drop_take, List.drop_drop, ← List.length_drop] at hdrop

variable (out) in
theorem inflateEntry_sized (hz : Documented z Stream) (hs : Stream data content) (hsize : compSize ≠ 0)
    (hmid : Midway z data content s rest todo) (hrest : slice file pos rest.length = rest) :
    ((∃ s', SwallowsAll z bufSize bufSize s rest s') → (inflateEntry z file compSize s rest.length pos out).1 = .ok) ∧
    ((¬∃ s', SwallowsAll z bufSize bufSize s rest s') →
      inflateEntry z file compSize s rest.length pos out = (.streamEnd, out ++ todo)) := by
  induction hn : rest.length using Nat.strong_induction_on generalizing s rest todo pos out with
  | _ n ih =>
    subst hn
    -- The induction is on what is left of the compressed data: each turn takes one buffer of it.
    by_cases hnil : rest = []
    · subst hnil
      have hstop : slice file pos (want compSize ([] : List UInt8).length) = [] := by
        rw [want, if_pos hsize, List.length_nil, Nat.zero_min, slice, List.take_zero]
      rw [inflateEntry_stop hstop]
      exact ⟨fun _ => rfl, fun h => absurd ⟨s, SwallowsAll.done s⟩ h⟩
    · -- With a size in the directory, the last chunk is cut at it.
      have hchunk : slice file pos (want compSize rest.length) = rest.take bufSize := by
        conv_rhs => rw [← hrest]
        rw [want, if_pos hsize, slice, slice, List.take_take, Nat.min_comm]
      have hne : rest.take bufSize ≠ [] := by
        apply List.ne_nil_of_length_pos
        have hpos := List.length_pos_of_ne_nil hnil
        have hbuf := hbuf
        rw [List.length_take]
        omega
      have hpos := List.length_pos_of_ne_nil hne
      have hle : (rest.take bufSize).length ≤ rest.length := List.length_take_le' _ _
      rcases takeIn_midway hbuf out hz hs hmid (Or.inl (List.take_prefix bufSize rest)) with
        ⟨hok, -, given, left, htodo, hout, hmid'⟩ | ⟨hend, hout⟩
      · have hrest' := slice_rest hrest (rest.take bufSize).length
        have hshorter : (rest.drop (rest.take bufSize).length).length < rest.length := by
          rw [List.length_drop]
          omega
        obtain ⟨hall, hsome⟩ := @ih _ hshorter _ _ (out ++ given) _ _ hmid' hrest' rfl
        rw [List.length_drop] at hall hsome
        rw [drop_length_take] at hall hsome
        rw [inflateEntry_next hchunk hne hok, hout, htodo, ← List.append_assoc]
        -- The next chunks decide, from where this one leaves the decoder.
        constructor
        · rintro ⟨s', hswallows⟩
          cases hswallows with
          | done => exact absurd rfl hnil
          | piece _ htaken hnext =>
            rw [← (takeIn_of_swallows hbuf htaken out).2] at hnext
            exact hall ⟨s', hnext⟩
        · intro hnone
          apply hsome
          rintro ⟨s', hnext⟩
          exact hnone ⟨s', SwallowsAll.piece hnil (swallows_takeIn hok) hnext⟩
      · have hstop : (takeIn z hbuf s (rest.take bufSize) out).status ≠ .ok := by
          rw [hend]
          exact fun h => by cases h
        rw [inflateEntry_end hchunk hne hstop, hend, hout]
        refine ⟨?_, fun _ => rfl⟩
        rintro ⟨s', hswallows⟩
        cases hswallows with
        | done => exact absurd rfl hnil
        | piece _ htaken _ => exact absurd (takeIn_of_swallows hbuf htaken out).1 hstop

end Inflate

theorem extractData_stored (z : Decoder σ UInt8 UInt8) {file : List UInt8} {compSize off : Nat}
    (h : off + compSize ≤ file.length) : extractData z file 0 compSize off = .ok (slice file off compSize) := by
  rw [extractData, if_pos rfl, copyStored_eq h, List.nil_append]

theorem extractData_deflated (z : Decoder σ UInt8 UInt8) (file : List UInt8) (compSize off : Nat) :
    extractData z file 8 compSize off =
      if (inflateEntry z file compSize z.start compSize off []).1 = .streamEnd then
        .ok (inflateEntry z file compSize z.start compSize off []).2
      else .error .fileUnzipFailed := rfl

/-- An entry gives its content exactly where the size of its data does not get in the way. -/
theorem extract_iff {z : Decoder σ UInt8 UInt8} (hz : Documented z Stream) {file : List UInt8} {a : Archive}
    (hwf : WellFormed Stream file a) {e : Entry} (he : e ∈ a.entries) :
    extract z (some file) e.offset = some (.ok e.content) ↔ Extractable z e := by
  have hlocal := hwf.locals e he
  have hend := hwf.localsEnd e he
  have hholds := hwf.holds e he
  have hdir := hwf.directoryEnd
  have hcomment := hwf.comment
  have hoff : e.offset + 30 ≤ dataOffset file e.offset := by
    rw [dataOffset]
    omega
  have hin : dataOffset file e.offset + e.data.length < file.length := by omega
  rw [extract_eq z (by omega) hlocal.signature, hlocal.method, hlocal.compSize, Option.some.injEq]
  cases hmethod : e.method with
  | stored =>
    have hdata : e.data = e.content := by rwa [Holds, hmethod] at hholds
    rw [Extractable, hmethod]
    dsimp only [Method.code]
    cases hdesc : e.descriptor with
    | false =>
      rw [if_neg Bool.false_ne_true, extractData_stored z (by omega), hlocal.data, hdata]
      exact iff_of_true rfl fun h => by cases h
    | true =>
      -- The local header has no size, and so nothing is copied.
      rw [if_pos rfl, extractData_stored z (by omega), slice, List.take_zero]
      constructor
      · intro h _
        exact (Except.ok.inj h).symm
      · intro h
        rw [h rfl]
  | deflated =>
    have hstream : Stream e.data e.content := by rwa [Holds, hmethod] at hholds
    have hstart : Midway z e.data e.content z.start e.data e.content := Midway.start
    rw [Extractable, hmethod]
    dsimp only [Method.code]
    rw [extractData_deflated]
    cases hdesc : e.descriptor with
    | false =>
      have hsize : e.data.length ≠ 0 := mt List.length_eq_zero_iff.1 (hz.nonempty hstream)
      obtain ⟨hall, hsome⟩ := inflateEntry_sized [] hz hstream hsize hstart hlocal.data
      rw [if_neg Bool.false_ne_true]
      by_cases hheld : HeldBack z bufSize bufSize e.data
      · rw [hall hheld, if_neg (fun h => by cases h)]
        exact iff_of_false (fun h => by cases h) fun h => h rfl hheld
      · rw [hsome hheld, if_pos rfl, List.nil_append]
        exact iff_of_true rfl fun _ => hheld
    | true =>
      have hrest : e.data <+: file.drop (dataOffset file e.offset) := by
        rw [← hlocal.data]
        exact List.take_prefix _ _
      rw [if_pos rfl, inflateEntry_descriptor hz hstream hstart hrest hin, if_pos rfl, List.nil_append]
      exact iff_of_true rfl fun h => by cases h

/-! ## The archive as a whole -/

/-- In a well-formed archive the matching entries are listed and extracted as they are when the end record is the last
    place with its signature and each of them can be extracted; one that cannot is never extracted as it is. Whatever a
    file holds, nothing is read outside of a buffer. -/
theorem zip_exact_iff {z : Decoder σ UInt8 UInt8} (hz : Documented z Stream) :
    (∀ file exts a, WellFormed Stream file a → listed exts a ≠ [] →
      (EndRecordLast file a → (Exact z file exts a ↔ ∀ e ∈ listed exts a, Extractable z e)) ∧
      (Exact z file exts a → ∀ e ∈ listed exts a, Extractable z e)) ∧
    ∀ file zi off, (∃ r, dir file zi = some r) ∧ ∃ r, extract z file off = some r := by
  refine ⟨fun file exts a hwf hmatch => ?_, fun file zi off => ⟨dir_isSome file zi, extract_isSome z file off⟩⟩
  have hextract : (∀ e ∈ listed exts a, extract z (some file) e.offset = some (.ok e.content)) ↔
      ∀ e ∈ listed exts a, Extractable z e :=
    forall₂_congr fun e he => extract_iff hz hwf (List.mem_of_mem_filter he)
  exact ⟨fun hlast => (and_iff_right (dir_eq hwf hlast hmatch)).trans hextract, fun h => hextract.1 h.2⟩

/-- `.dsk` -/
def dskExtension : List UInt8 := [0x2e, 0x64, 0x73, 0x6b]

/-- The decoder of the three bytes that `a` is deflated to. -/
def inflateA : Decoder (List UInt8 × List UInt8) UInt8 UInt8 := known [0x4b, 0x04, 0x00] [0x61]

def StreamA (data content : List UInt8) : Prop := data = [0x4b, 0x04, 0x00] ∧ content = [0x61]

theorem documented_inflateA : Documented inflateA StreamA := documented_known _ _ (List.cons_ne_nil _ _)

/-- An archive of `a.dsk`, which is `a`, deflated. -/
def deflatedFile : List UInt8 :=
  [0x50, 0x4b, 0x03, 0x04, 0x14, 0, 0, 0, 8, 0, 0, 0, 0, 0, 0x43, 0xbe, 0xb7, 0xe8, 3, 0, 0, 0, 1, 0, 0, 0, 5, 0, 0, 0,
    0x61, 0x2e, 0x64, 0x73, 0x6b, 0x4b, 0x04, 0x00,
    0x50, 0x4b, 0x01, 0x02, 0x14, 0, 0x14, 0, 0, 0, 8, 0, 0, 0, 0, 0, 0x43, 0xbe, 0xb7, 0xe8, 3, 0, 0, 0, 1, 0, 0, 0,
    5, 0, 0, 0, 0, 0, 0, 0, 0, 0, 0, 0, 0, 0, 0, 0, 0, 0, 0x61, 0x2e, 0x64, 0x73, 0x6b,
    0x50, 0x4b, 0x05, 0x06, 0, 0, 0, 0, 1, 0, 1, 0, 51, 0, 0, 0, 38, 0, 0, 0, 0, 0]

def deflatedEntry : Entry where
  name := [0x61, 0x2e, 0x64, 0x73, 0x6b]
  offset := 0
  method := .deflated
  descriptor := false
  data := [0x4b, 0x04, 0x00]
  content := [0x61]

def deflatedArchive : Archive := { entries := [deflatedEntry], cdOffset := 38, cdSize := 51, eocd := 89 }

theorem wellFormed_deflated : WellFormed StreamA deflatedFile deflatedArchive where
  signature := by decide
  count := by decide
  cdSize := by decide
  cdOffset := by decide
  comment := by decide
  directory := by
    refine ⟨⟨?_, ?_, ?_, ?_, ?_, ?_, ?_⟩, ?_⟩
    case refine_8 => rw [IsDirectory]; decide
    all_goals decide
  directoryEnd := by decide
  locals := by
    refine List.forall_mem_singleton.2 ⟨?_, ?_, ?_, ?_, ?_⟩ <;> decide
  localsEnd := List.forall_mem_singleton.2 (by decide)
  holds := List.forall_mem_singleton.2 ⟨rfl, rfl⟩

theorem zip_exact_iff_deflated : Exact inflateA deflatedFile dskExtension deflatedArchive := by
  have hlast : EndRecordLast deflatedFile deflatedArchive := by
    intro i hi hend
    have h89 : 89 < i := hi
    have h111 : i + 22 ≤ 111 := hend
    omega
  have hlisted : listed dskExtension deflatedArchive = [deflatedEntry] := List.filter_cons_of_pos (by decide)
  refine (((zip_exact_iff documented_inflateA).1 deflatedFile dskExtension deflatedArchive wellFormed_deflated ?_).1
    hlast).2 ?_
  · rw [hlisted]
    exact List.cons_ne_nil _ _
  · rw [hlisted]
    refine List.forall_mem_singleton.2 fun _ => ?_
    exact not_heldBack_known _ _ (List.cons_ne_nil _ _) (by decide) (by decide)

/-- An archive of `a.dsk`, which is `x`, stored with its sizes behind it. -/
def storedFile : List UInt8 :=
  [0x50, 0x4b, 0x03, 0x04, 0x14, 0, 8, 0, 0, 0, 0, 0, 0, 0, 0, 0, 0, 0, 0, 0, 0, 0, 0, 0, 0, 0, 5, 0, 0, 0,
    0x61, 0x2e, 0x64, 0x73, 0x6b, 0x78,
    0x50, 0x4b, 0x07, 0x08, 0x83, 0x16, 0xdc, 0x8c, 1, 0, 0, 0, 1, 0, 0, 0,
    0x50, 0x4b, 0x01, 0x02, 0x14, 0, 0x14, 0, 8, 0, 0, 0, 0, 0, 0, 0, 0x83, 0x16, 0xdc, 0x8c, 1, 0, 0, 0, 1, 0, 0, 0,
    5, 0, 0, 0, 0, 0, 0, 0, 0, 0, 0, 0, 0, 0, 0, 0, 0, 0, 0x61, 0x2e, 0x64, 0x73, 0x6b,
    0x50, 0x4b, 0x05, 0x06, 0, 0, 0, 0, 1, 0, 1, 0, 51, 0, 0, 0, 52, 0, 0, 0, 0, 0]

def storedEntry : Entry where
  name := [0x61, 0x2e, 0x64, 0x73, 0x6b]
  offset := 0
  method := .stored
  descriptor := true
  data := [0x78]
  content := [0x78]

def storedArchive : Archive := { entries := [storedEntry], cdOffset := 52, cdSize := 51, eocd := 103 }

theorem wellFormed_stored (Stream : List UInt8 → List UInt8 → Prop) : WellFormed Stream storedFile storedArchive where
  signature := by decide
  count := by decide
  cdSize := by decide
  cdOffset := by decide
  comment := by decide
  directory := by
    refine ⟨⟨?_, ?_, ?_, ?_, ?_, ?_, ?_⟩, ?_⟩
    case refine_8 => rw [IsDirectory]; decide
    all_goals decide
  directoryEnd := by decide
  locals := by
    refine List.forall_mem_singleton.2 ⟨?_, ?_, ?_, ?_, ?_⟩ <;> decide
  localsEnd := List.forall_mem_singleton.2 (by decide)
  holds := List.forall_mem_singleton.2 rfl

/-- The entry comes out empty, and no error is reported. -/
theorem zip_stored_descriptor :
    Documented inflateA StreamA ∧ WellFormed StreamA storedFile storedArchive ∧
      listed dskExtension storedArchive = [storedEntry] ∧
      extract inflateA (some storedFile) storedEntry.offset = some (.ok []) ∧
      ¬Exact inflateA storedFile dskExtension storedArchive := by
  have hlisted : listed dskExtension storedArchive = [storedEntry] := List.filter_cons_of_pos (by decide)
  have hextract : extract inflateA (some storedFile) storedEntry.offset = some (.ok []) := by
    have hdata : dataOffset storedFile storedEntry.offset + 0 ≤ storedFile.length := by decide
    have hmethod : rd16le storedFile (storedEntry.offset + 8) = 0 := by decide
    have hsize : rd32le storedFile (storedEntry.offset + 18) = 0 := by decide
    rw [extract_eq _ (by decide) (by decide), hmethod, hsize, extractData_stored _ hdata, slice,
      List.take_zero]
  refine ⟨documented_inflateA, wellFormed_stored StreamA, hlisted, hextract, fun h => ?_⟩
  have hout := h.2 storedEntry (by rw [hlisted]; exact List.mem_singleton_self _)
  rw [hextract] at hout
  cases hout

end Koncepcja.Zip
