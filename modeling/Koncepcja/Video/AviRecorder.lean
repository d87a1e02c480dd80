import Koncepcja.Lib.LittleEndian
import Koncepcja.Lib.OutFile
import Koncepcja.Lib.Riff
import Mathlib.Data.UInt

/-!
# The AVI Recorder

`src/avi_recorder.cpp`, built with libjpeg: a recording is written as it comes in, with sizes and counts
filled in afterwards at fixed offsets. The compressed bytes of a frame are given.

## Main definitions

- `writeHeaders`, `captureVideoFrame`, `captureAudioSamples`, `finalize`: what is written, in order.
- `WellFormed`: an AVI file of a recording.

## Main results

- `avi_never_well_formed`: the frame count is written over the scale of the video stream, and its length
  stays zero.
-/

namespace Koncepcja.Video

open Bytes

/-! ## The recorder -/

/-- Four characters. -/
def fourcc (a b c d : Char) : List UInt8 := [a, b, c, d].map fun ch => UInt8.ofNat ch.toNat

/-- `write_le_u16`. -/
def leU16 (v : UInt16) : List UInt8 := le16 v.toNat

/-- `write_le_u32`. -/
def leU32 (v : UInt32) : List UInt8 := le32 v.toNat

def FOURCC_01wb : List UInt8 := fourcc '0' '1' 'w' 'b'
def FOURCC_00dc : List UInt8 := fourcc '0' '0' 'd' 'c'
def aviifKeyframe : UInt32 := 0x10
def avifHasIndex : UInt32 := 0x10
def cpcFps : UInt32 := 50

def riffSizeOffset : Nat := 4
def avihTotalFramesOffset : Nat := 48
def videoStrhLengthOffset : Nat := 128
def audioStrhLengthOffset : Nat := 252

structure IndexEntry where
  chunkId : List UInt8
  flags : UInt32
  offset : UInt32
  size : UInt32
  deriving DecidableEq, Repr

/-- `AviRecorder`, while a file is open. -/
structure AviRecorder where
  file : OutFile := {}
  width : Nat := 0
  height : Nat := 0
  videoFrames : UInt32 := 0
  sampleRate : UInt32 := 44100
  channels : UInt16 := 2
  bitsPerSample : UInt16 := 16
  audioBytes : UInt32 := 0
  moviStart : UInt32 := 0
  indexEntries : List IndexEntry := []
  deriving DecidableEq, Repr

namespace AviRecorder

def blockAlign (r : AviRecorder) : UInt16 := r.channels * (r.bitsPerSample / 8)

def byteRate (r : AviRecorder) : UInt32 := r.sampleRate * r.blockAlign.toUInt32

/-- The main header. -/
def avih (r : AviRecorder) : List UInt8 :=
  leU32 (1000000 / cpcFps) ++ leU32 0 ++ leU32 0 ++ leU32 avifHasIndex ++ leU32 0 ++ leU32 0 ++ leU32 2 ++ leU32 0 ++
    leU32 (UInt32.ofNat r.width) ++ leU32 (UInt32.ofNat r.height) ++ leU32 0 ++ leU32 0 ++ leU32 0 ++ leU32 0

/-- The header of the video stream. -/
def videoStrh (r : AviRecorder) : List UInt8 :=
  fourcc 'v' 'i' 'd' 's' ++ fourcc 'M' 'J' 'P' 'G' ++ leU32 0 ++ leU16 0 ++ leU16 0 ++ leU32 0 ++ leU32 1 ++
    leU32 cpcFps ++ leU32 0 ++ leU32 0 ++ leU32 0 ++ leU32 0xFFFFFFFF ++ leU32 0 ++ leU16 0 ++ leU16 0 ++
    leU16 (UInt16.ofNat r.width) ++ leU16 (UInt16.ofNat r.height)

/-- `BITMAPINFOHEADER`. -/
def videoStrf (r : AviRecorder) : List UInt8 :=
  leU32 40 ++ leU32 (UInt32.ofNat r.width) ++ leU32 (UInt32.ofNat r.height) ++ leU16 1 ++ leU16 24 ++
    fourcc 'M' 'J' 'P' 'G' ++ leU32 (UInt32.ofNat (r.width * r.height * 3)) ++ leU32 0 ++ leU32 0 ++ leU32 0 ++ leU32 0

/-- The header of the audio stream. -/
def audioStrh (r : AviRecorder) : List UInt8 :=
  fourcc 'a' 'u' 'd' 's' ++ leU32 0 ++ leU32 0 ++ leU16 0 ++ leU16 0 ++ leU32 0 ++ leU32 r.blockAlign.toUInt32 ++
    leU32 r.byteRate ++ leU32 0 ++ leU32 0 ++ leU32 0 ++ leU32 0xFFFFFFFF ++ leU32 r.blockAlign.toUInt32 ++ leU16 0 ++
    leU16 0 ++ leU16 0 ++ leU16 0

/-- `WAVEFORMATEX`. -/
def audioStrf (r : AviRecorder) : List UInt8 :=
  leU16 1 ++ leU16 r.channels ++ leU32 r.sampleRate ++ leU32 r.byteRate ++ leU16 r.blockAlign ++
    leU16 r.bitsPerSample ++ leU16 0

/-- A size is patched once its list is written, and back to the end of the file. -/
def patchList (f : OutFile) (start : UInt32) : OutFile :=
  ((f.seek (start - 4).toNat).put (leU32 (UInt32.ofNat f.pos - start))).seekEnd

/-- A list whose size is not known yet. -/
def listHead : List UInt8 := fourcc 'L' 'I' 'S' 'T' ++ leU32 0

/-- From `RIFF` on to the size of `hdrl`. -/
def riffHead : List UInt8 := fourcc 'R' 'I' 'F' 'F' ++ leU32 0 ++ fourcc 'A' 'V' 'I' ' ' ++ listHead

/-- From `hdrl` on to the size of the video stream's list. -/
def mainHead (r : AviRecorder) : List UInt8 :=
  fourcc 'h' 'd' 'r' 'l' ++ (fourcc 'a' 'v' 'i' 'h' ++ leU32 56 ++ r.avih) ++ listHead

def videoHead (r : AviRecorder) : List UInt8 :=
  fourcc 's' 't' 'r' 'l' ++ (fourcc 's' 't' 'r' 'h' ++ leU32 56 ++ r.videoStrh) ++
    (fourcc 's' 't' 'r' 'f' ++ leU32 40 ++ r.videoStrf)

def audioHead (r : AviRecorder) : List UInt8 :=
  fourcc 's' 't' 'r' 'l' ++ (fourcc 's' 't' 'r' 'h' ++ leU32 56 ++ r.audioStrh) ++
    (fourcc 's' 't' 'r' 'f' ++ leU32 18 ++ r.audioStrf)

/-- `write_headers`, at the file's position. -/
def writeHeaders (r : AviRecorder) : AviRecorder :=
  let f := r.file.put riffHead
  let hdrlStart := UInt32.ofNat f.pos
  let f := f.put r.mainHead
  let vstrlStart := UInt32.ofNat f.pos
  let f := f.put r.videoHead
  let f := patchList f vstrlStart
  let f := f.put listHead
  let astrlStart := UInt32.ofNat f.pos
  let f := f.put r.audioHead
  let f := patchList f astrlStart
  let f := patchList f hdrlStart
  let f := f.put listHead
  { r with moviStart := UInt32.ofNat f.pos, file := f.put (fourcc 'm' 'o' 'v' 'i') }

/-- `start`, with the file opened. -/
def start (sampleRate : UInt32) (channels bitsPerSample : UInt16) : AviRecorder :=
  writeHeaders { width := 384, height := 270, sampleRate, channels, bitsPerSample }

/-- A chunk of the `movi` list and its index entry. -/
def putChunk (r : AviRecorder) (id : List UInt8) (flags size : UInt32) (data : List UInt8) : AviRecorder :=
  let entry : IndexEntry := ⟨id, flags, UInt32.ofNat r.file.pos - r.moviStart - 4, size⟩
  { r with
    file := r.file.put (id ++ leU32 size ++ data ++ if size &&& 1 = 1 then [0] else [])
    indexEntries := r.indexEntries ++ [entry] }

/-- `capture_video_frame`, with the frame compressed. -/
def captureVideoFrame (r : AviRecorder) (width height : Nat) (jpegData : List UInt8) : AviRecorder :=
  let r :=
    if r.videoFrames = 0 ∧ (width ≠ r.width ∨ height ≠ r.height) then
      writeHeaders { r with width, height, file := r.file.seek 0, moviStart := 0 }
    else r
  if jpegData = [] then r
  else
    let r := r.putChunk FOURCC_00dc aviifKeyframe (UInt32.ofNat jpegData.length) jpegData
    { r with videoFrames := r.videoFrames + 1 }

def captureAudioSamples (r : AviRecorder) (samples : List UInt16) : AviRecorder :=
  if samples = [] then r
  else
    let byteCount := UInt32.ofNat (samples.length * 2)
    let r := r.putChunk FOURCC_01wb 0 byteCount ((samples.flatMap leU16).take byteCount.toNat)
    { r with audioBytes := r.audioBytes + byteCount }

/-- `write_idx1`. -/
def idx1 (r : AviRecorder) : List UInt8 :=
  fourcc 'i' 'd' 'x' '1' ++ leU32 (UInt32.ofNat (r.indexEntries.length * 16)) ++
    r.indexEntries.flatMap fun e => e.chunkId ++ leU32 e.flags ++ leU32 e.offset ++ leU32 e.size

/-- `dwLength` of the audio stream. -/
def audioSamples (r : AviRecorder) : UInt32 :=
  if 0 < r.blockAlign then r.audioBytes / r.blockAlign.toUInt32 else 0

def patchSizes (r : AviRecorder) (f : OutFile) : OutFile :=
  let f := (f.seek riffSizeOffset).put (leU32 (UInt32.ofNat f.pos - 8))
  let f := (f.seek avihTotalFramesOffset).put (leU32 r.videoFrames)
  let f := (f.seek videoStrhLengthOffset).put (leU32 r.videoFrames)
  (f.seek audioStrhLengthOffset).put (leU32 r.audioSamples)

def finalize (r : AviRecorder) : OutFile :=
  let moviEnd := r.file.pos
  let f := (r.file.seek (r.moviStart - 4).toNat).put (leU32 (UInt32.ofNat moviEnd - r.moviStart))
  r.patchSizes ((f.seek moviEnd).put r.idx1)

end AviRecorder

/-! ## Recordings -/

/-- A frame, as it is compressed, or a chunk of audio. -/
inductive AviCapture
  | video (jpegData : List UInt8)
  | audio (samples : List UInt16)
  deriving DecidableEq, Repr

/-- One capture, the frames all of one size. -/
def AviRecorder.capture (width height : Nat) (r : AviRecorder) : AviCapture → AviRecorder
  | .video jpegData => r.captureVideoFrame width height jpegData
  | .audio samples => r.captureAudioSamples samples

/-- The recorder behind a start and a sequence of captures. -/
def recorded (sampleRate : UInt32) (channels bits : UInt16) (width height : Nat) (cs : List AviCapture) : AviRecorder :=
  cs.foldl (AviRecorder.capture width height) (AviRecorder.start sampleRate channels bits)

/-- The file behind the stop. -/
def recording (sampleRate : UInt32) (channels bits : UInt16) (width height : Nat) (cs : List AviCapture) : List UInt8 :=
  (recorded sampleRate channels bits width height cs).finalize.bytes

/-! ## What the file is to be -/

/-- The chunks that were captured. -/
def chunksOf (cs : List AviCapture) : List (List UInt8 × List UInt8) :=
  cs.flatMap fun c =>
    match c with
    | .video jpegData => if jpegData = [] then [] else [(FOURCC_00dc, jpegData)]
    | .audio samples => if samples = [] then [] else [(FOURCC_01wb, samples.flatMap leU16)]

/-- The frames among them, and the bytes of audio. -/
def framesOf (cs : List AviCapture) : Nat := ((chunksOf cs).filter (·.1 == FOURCC_00dc)).length

def audioBytesOf (cs : List AviCapture) : Nat := (((chunksOf cs).filter (·.1 == FOURCC_01wb)).map (·.2.length)).sum

/-- The parts of an AVI file with one video and one audio stream. -/
structure AviFile where
  avih : List UInt8
  videoStrh : List UInt8
  videoStrf : List UInt8
  audioStrh : List UInt8
  audioStrf : List UInt8
  movi : List (List UInt8 × List UInt8)
  index : List IndexEntry

/-- A stream header and its format. -/
def strl (strh strf : List UInt8) : List UInt8 :=
  Riff.list (fourcc 'L' 'I' 'S' 'T') (fourcc 's' 't' 'r' 'l')
    (Riff.chunk (fourcc 's' 't' 'r' 'h') strh ++ Riff.chunk (fourcc 's' 't' 'r' 'f') strf)

def AviFile.hdrl (a : AviFile) : List UInt8 :=
  Riff.list (fourcc 'L' 'I' 'S' 'T') (fourcc 'h' 'd' 'r' 'l')
    (Riff.chunk (fourcc 'a' 'v' 'i' 'h') a.avih ++ strl a.videoStrh a.videoStrf ++ strl a.audioStrh a.audioStrf)

def AviFile.body (a : AviFile) : List UInt8 :=
  a.hdrl ++ Riff.list (fourcc 'L' 'I' 'S' 'T') (fourcc 'm' 'o' 'v' 'i') (a.movi.flatMap fun c => Riff.chunk c.1 c.2) ++
    Riff.chunk (fourcc 'i' 'd' 'x' '1') (a.index.flatMap fun e => e.chunkId ++ leU32 e.flags ++ leU32 e.offset ++ leU32 e.size)

def AviFile.bytes (a : AviFile) : List UInt8 := Riff.list (fourcc 'R' 'I' 'F' 'F') (fourcc 'A' 'V' 'I' ' ') a.body

/-- A double word of a header. -/
def dword (header : List UInt8) (off : Nat) : Nat := ofLe (slice header off 4)

/-- A stream header with its scale, rate and length. -/
structure StreamOf (strh type : List UInt8) (scale rate length : Nat) : Prop where
  size : strh.length = 56
  type : strh.take 4 = type
  scale : dword strh 20 = scale
  rate : dword strh 24 = rate
  length : dword strh 32 = length

/-- Each entry of the index locates its chunk, from the list's tag on or from behind it. -/
def Locates (a : AviFile) : Prop :=
  ∃ base ∈ [0, 4], a.index.length = a.movi.length ∧ ∀ i, ∀ e c, a.index[i]? = some e → a.movi[i]? = some c →
    e.chunkId = c.1 ∧ e.size.toNat = c.2.length ∧
      e.offset.toNat + base = 4 + ((a.movi.take i).map fun c => (Riff.chunk c.1 c.2).length).sum

/-- An AVI file of a recording, every size of it exact. -/
def WellFormed (file : List UInt8) (sampleRate : UInt32) (blockAlign : Nat) (cs : List AviCapture) : Prop :=
  ∃ a : AviFile, file = a.bytes ∧ file.length < 2 ^ 32 + 8 ∧ a.avih.length = 56 ∧ dword a.avih 16 = framesOf cs ∧
    StreamOf a.videoStrh (fourcc 'v' 'i' 'd' 's') 1 cpcFps.toNat (framesOf cs) ∧
    StreamOf a.audioStrh (fourcc 'a' 'u' 'd' 's') blockAlign (sampleRate.toNat * blockAlign)
      (audioBytesOf cs / blockAlign) ∧
    a.movi = chunksOf cs ∧ Locates a

/-! ## The video stream's length -/

/-- The length of the video stream is there, and zero. -/
structure Zero (f : OutFile) : Prop where
  long : 212 ≤ f.bytes.length
  zero : slice f.bytes 140 4 = [0, 0, 0, 0]

variable {f : OutFile} {r : AviRecorder}

theorem fourcc_length (a b c d : Char) : (fourcc a b c d).length = 4 := rfl

theorem leU16_length (v : UInt16) : (leU16 v).length = 2 := leBytes_length 2 v.toNat

theorem leU32_length (v : UInt32) : (leU32 v).length = 4 := leBytes_length 4 v.toNat

theorem length_le_put (f : OutFile) (block : List UInt8) : f.bytes.length ≤ (f.put block).bytes.length := by
  rw [OutFile.put_length]
  exact Nat.le_max_left _ _

theorem zero_put (h : Zero f) {block : List UInt8} (hbeside : f.pos + block.length ≤ 140 ∨ 144 ≤ f.pos) :
    Zero (f.put block) := by
  have hlong := h.long
  refine ⟨Nat.le_trans hlong (length_le_put f block), ?_⟩
  rcases hbeside with hahead | hbehind
  · rw [OutFile.slice_put_of_ge hahead (by omega)]
    exact h.zero
  · rw [OutFile.slice_put_of_le hbehind (by omega)]
    exact h.zero

theorem zero_seek (h : Zero f) (pos : Nat) : Zero (f.seek pos) := ⟨h.long, h.zero⟩

theorem zero_patch (h : Zero f) {off : Nat} (hbeside : off + 4 ≤ 140 ∨ 144 ≤ off) (v : UInt32) :
    Zero ((f.seek off).put (leU32 v)) := by
  refine zero_put (zero_seek h off) ?_
  rw [leU32_length]
  exact hbeside

theorem length_le_patch (f : OutFile) (off : Nat) (block : List UInt8) :
    f.bytes.length ≤ ((f.seek off).put block).bytes.length := length_le_put (f.seek off) block

theorem zero_seekEnd (h : Zero f) : Zero f.seekEnd := ⟨h.long, h.zero⟩

theorem sub_four {p : Nat} (hp : 4 ≤ p) (hlt : p < 2 ^ 32) : (UInt32.ofNat p - 4).toNat = p - 4 := by
  rw [UInt32.toNat_sub, UInt32.toNat_ofNat']
  have hfour : UInt32.toNat 4 = 4 := rfl
  rw [hfour]
  omega

theorem zero_patchList (h : Zero f) {p : Nat} (hp : 4 ≤ p ∧ p ≤ 140 ∨ 148 ≤ p) (hlt : p < 2 ^ 32) :
    Zero (AviRecorder.patchList f (UInt32.ofNat p)) := by
  refine zero_seekEnd (zero_put (zero_seek h _) ?_)
  show (UInt32.ofNat p - 4).toNat + _ ≤ 140 ∨ 144 ≤ (UInt32.ofNat p - 4).toNat
  rw [sub_four (by omega) hlt, leU32_length]
  omega

theorem length_le_patchList (f : OutFile) (start : UInt32) :
    f.bytes.length ≤ (AviRecorder.patchList f start).bytes.length :=
  length_le_put (f.seek (start - 4).toNat) (leU32 (UInt32.ofNat f.pos - start))

theorem pos_patchList (f : OutFile) (start : UInt32) :
    (AviRecorder.patchList f start).pos = (AviRecorder.patchList f start).bytes.length := rfl

theorem slice_slice (buf : List UInt8) {off n i len : Nat} (h : i + len ≤ n) :
    slice (slice buf off n) i len = slice buf (off + i) len := by
  rw [slice, slice, slice, List.drop_take, List.drop_drop, List.take_take, Nat.min_eq_left (by omega)]

theorem riffHead_length : AviRecorder.riffHead.length = 20 := rfl

theorem listHead_length : AviRecorder.listHead.length = 8 := rfl

theorem mainHead_length (r : AviRecorder) : r.mainHead.length = 76 := by
  delta AviRecorder.mainHead AviRecorder.avih AviRecorder.listHead
  simp only [List.length_append, fourcc_length, leU32_length]

theorem videoHead_length (r : AviRecorder) : r.videoHead.length = 116 := by
  delta AviRecorder.videoHead AviRecorder.videoStrh AviRecorder.videoStrf
  simp only [List.length_append, fourcc_length, leU16_length, leU32_length]

theorem audioHead_length (r : AviRecorder) : r.audioHead.length = 94 := by
  delta AviRecorder.audioHead AviRecorder.audioStrh AviRecorder.audioStrf
  simp only [List.length_append, fourcc_length, leU16_length, leU32_length]

theorem zero_video (r : AviRecorder) {f : OutFile} (hpos : f.pos = 96) : Zero (f.put r.videoHead) := by
  have hself := OutFile.slice_put_self f r.videoHead
  constructor
  · rw [OutFile.put_length, hpos, videoHead_length]
    exact Nat.le_max_right _ _
  · rw [hpos, videoHead_length] at hself
    rw [show 140 = 96 + 44 from rfl, ← slice_slice _ (n := 116) (by decide)]
    exact (congrArg (slice · 44 4) hself).trans rfl

/-- Between two captures the file is at its end, and its `movi` list begins behind the headers. -/
structure Inv (r : AviRecorder) : Prop where
  zero : Zero r.file
  atEnd : r.file.pos = r.file.bytes.length
  movi : ∃ start, r.moviStart = UInt32.ofNat start ∧ 322 ≤ start ∧ start + 4 ≤ r.file.bytes.length

theorem inv_writeHeaders (hpos : r.file.pos = 0) (hsmall : r.writeHeaders.file.bytes.length < 2 ^ 32) :
    Inv r.writeHeaders := by
  obtain ⟨f₁, h₁⟩ : ∃ f, f = r.file.put AviRecorder.riffHead := ⟨_, rfl⟩
  obtain ⟨f₂, h₂⟩ : ∃ f, f = f₁.put r.mainHead := ⟨_, rfl⟩
  obtain ⟨f₃, h₃⟩ : ∃ f, f = f₂.put r.videoHead := ⟨_, rfl⟩
  obtain ⟨f₄, h₄⟩ : ∃ f, f = AviRecorder.patchList f₃ (UInt32.ofNat f₂.pos) := ⟨_, rfl⟩
  obtain ⟨f₅, h₅⟩ : ∃ f, f = f₄.put AviRecorder.listHead := ⟨_, rfl⟩
  obtain ⟨f₆, h₆⟩ : ∃ f, f = f₅.put r.audioHead := ⟨_, rfl⟩
  obtain ⟨f₇, h₇⟩ : ∃ f, f = AviRecorder.patchList f₆ (UInt32.ofNat f₅.pos) := ⟨_, rfl⟩
  obtain ⟨f₈, h₈⟩ : ∃ f, f = AviRecorder.patchList f₇ (UInt32.ofNat f₁.pos) := ⟨_, rfl⟩
  obtain ⟨f₉, h₉⟩ : ∃ f, f = f₈.put AviRecorder.listHead := ⟨_, rfl⟩
  have hdone : r.writeHeaders =
      { r with moviStart := UInt32.ofNat f₉.pos, file := f₉.put (fourcc 'm' 'o' 'v' 'i') } := by
    rw [h₉, h₈, h₇, h₆, h₅, h₄, h₃, h₂, h₁]
    rfl
  rw [hdone] at hsmall ⊢
  -- where each part begins
  have hpos₁ : f₁.pos = 20 := by rw [h₁, OutFile.put_pos, hpos, riffHead_length]
  have hpos₂ : f₂.pos = 96 := by rw [h₂, OutFile.put_pos, hpos₁, mainHead_length]
  have hend₄ : f₄.pos = f₄.bytes.length := by rw [h₄, pos_patchList]
  have hpos₅ : f₅.pos = f₄.pos + 8 := by rw [h₅, OutFile.put_pos, listHead_length]
  have hend₈ : f₈.pos = f₈.bytes.length := by rw [h₈, pos_patchList]
  have hpos₉ : f₉.pos = f₈.pos + 8 := by rw [h₉, OutFile.put_pos, listHead_length]
  have hend₉ : f₉.pos = f₉.bytes.length := by rw [h₉, OutFile.put_pos_at_end hend₈]
  have hlen₆ : f₅.pos + 94 ≤ f₆.bytes.length := by
    rw [h₆, OutFile.put_length, audioHead_length]
    exact Nat.le_max_right _ _
  have hlen₇ : f₆.bytes.length ≤ f₇.bytes.length := h₇ ▸ length_le_patchList f₆ _
  have hlen₈ : f₇.bytes.length ≤ f₈.bytes.length := h₈ ▸ length_le_patchList f₇ _
  have hlen : f₉.pos + 4 ≤ (f₉.put (fourcc 'm' 'o' 'v' 'i')).bytes.length := by
    rw [OutFile.put_length]
    exact Nat.le_max_right _ _
  have hfits : (f₉.put (fourcc 'm' 'o' 'v' 'i')).bytes.length < 2 ^ 32 := hsmall
  -- the length of the video stream, from the part that has it on
  have hzero₃ : Zero f₃ := h₃ ▸ zero_video r hpos₂
  have hzero₄ : Zero f₄ := h₄ ▸ zero_patchList hzero₃ (by omega) (by omega)
  have hlong₄ := hzero₄.long
  have hzero₅ : Zero f₅ := h₅ ▸ zero_put hzero₄ (.inr (by omega))
  have hzero₆ : Zero f₆ := h₆ ▸ zero_put hzero₅ (.inr (by omega))
  have hzero₇ : Zero f₇ := h₇ ▸ zero_patchList hzero₆ (by omega) (by omega)
  have hzero₈ : Zero f₈ := h₈ ▸ zero_patchList hzero₇ (by omega) (by omega)
  have hlong₈ := hzero₈.long
  have hzero₉ : Zero f₉ := h₉ ▸ zero_put hzero₈ (.inr (by omega))
  exact ⟨zero_put hzero₉ (.inr (by omega)), OutFile.put_pos_at_end hend₉, f₉.pos, rfl, by omega, hlen⟩

/-! ## Captures -/

theorem length_putChunk (r : AviRecorder) (id : List UInt8) (flags size : UInt32) (data : List UInt8) :
    r.file.bytes.length ≤ (r.putChunk id flags size data).file.bytes.length := length_le_put _ _

theorem inv_putChunk (h : Inv r) (id : List UInt8) (flags size : UInt32) (data : List UInt8) :
    Inv (r.putChunk id flags size data) := by
  obtain ⟨start, hstart, hlow, hhigh⟩ := h.movi
  have hlen := length_putChunk r id flags size data
  have hlong := h.zero.long
  have hend := h.atEnd
  exact ⟨zero_put h.zero (.inr (by omega)), OutFile.put_pos_at_end hend, start, hstart, hlow, by omega⟩

theorem length_writeHeaders (r : AviRecorder) : r.file.bytes.length ≤ r.writeHeaders.file.bytes.length := by
  refine Nat.le_trans ?_ (length_le_put _ _)
  refine Nat.le_trans ?_ (length_le_put _ _)
  refine Nat.le_trans ?_ (length_le_patchList _ _)
  refine Nat.le_trans ?_ (length_le_patchList _ _)
  refine Nat.le_trans ?_ (length_le_put _ _)
  refine Nat.le_trans ?_ (length_le_put _ _)
  refine Nat.le_trans ?_ (length_le_patchList _ _)
  refine Nat.le_trans ?_ (length_le_put _ _)
  exact Nat.le_trans (length_le_put _ _) (length_le_put _ _)

/-- The recorder a frame is put behind: its headers are written again before the first of another size. -/
def AviRecorder.sized (width height : Nat) (r : AviRecorder) : AviRecorder :=
  if r.videoFrames = 0 ∧ (width ≠ r.width ∨ height ≠ r.height) then
    AviRecorder.writeHeaders { r with width, height, file := r.file.seek 0, moviStart := 0 }
  else r

theorem capture_video (r : AviRecorder) (width height : Nat) (jpegData : List UInt8) :
    r.captureVideoFrame width height jpegData =
      if jpegData = [] then r.sized width height
      else
        { (r.sized width height).putChunk FOURCC_00dc aviifKeyframe (UInt32.ofNat jpegData.length) jpegData with
          videoFrames := (r.sized width height).videoFrames + 1 } := rfl

theorem length_sized (r : AviRecorder) (width height : Nat) :
    r.file.bytes.length ≤ (r.sized width height).file.bytes.length := by
  rw [AviRecorder.sized]
  split
  · exact length_writeHeaders { r with width, height, file := r.file.seek 0, moviStart := 0 }
  · exact Nat.le_refl _

theorem inv_sized (h : Inv r) {width height : Nat} (hsmall : (r.sized width height).file.bytes.length < 2 ^ 32) :
    Inv (r.sized width height) := by
  rw [AviRecorder.sized] at hsmall ⊢
  split at hsmall
  · rename_i hother
    rw [if_pos hother]
    exact inv_writeHeaders rfl hsmall
  · rename_i hsame
    rw [if_neg hsame]
    exact h

theorem length_capture (r : AviRecorder) (width height : Nat) (c : AviCapture) :
    r.file.bytes.length ≤ (r.capture width height c).file.bytes.length := by
  cases c with
  | video jpegData =>
    rw [AviRecorder.capture, capture_video]
    split
    · exact length_sized r width height
    · exact Nat.le_trans (length_sized r width height)
        (length_putChunk (r.sized width height) FOURCC_00dc aviifKeyframe (UInt32.ofNat jpegData.length) jpegData)
  | audio samples =>
    rw [AviRecorder.capture, AviRecorder.captureAudioSamples]
    split
    · exact Nat.le_refl _
    · exact length_putChunk r FOURCC_01wb 0 (UInt32.ofNat (samples.length * 2))
        ((samples.flatMap leU16).take (UInt32.ofNat (samples.length * 2)).toNat)

theorem inv_capture (h : Inv r) {width height : Nat} (c : AviCapture)
    (hsmall : (r.capture width height c).file.bytes.length < 2 ^ 32) : Inv (r.capture width height c) := by
  cases c with
  | video jpegData =>
    rw [AviRecorder.capture, capture_video] at hsmall ⊢
    by_cases hnil : jpegData = []
    · rw [if_pos hnil] at hsmall ⊢
      exact inv_sized h hsmall
    · rw [if_neg hnil] at hsmall ⊢
      have hput := length_putChunk (r.sized width height) FOURCC_00dc aviifKeyframe (UInt32.ofNat jpegData.length) jpegData
      have hinv := inv_putChunk (inv_sized h (Nat.lt_of_le_of_lt hput hsmall)) FOURCC_00dc aviifKeyframe
        (UInt32.ofNat jpegData.length) jpegData
      exact ⟨hinv.zero, hinv.atEnd, hinv.movi⟩
  | audio samples =>
    rw [AviRecorder.capture, AviRecorder.captureAudioSamples]
    split
    · exact h
    · have hinv := inv_putChunk h FOURCC_01wb 0 (UInt32.ofNat (samples.length * 2))
        ((samples.flatMap leU16).take (UInt32.ofNat (samples.length * 2)).toNat)
      exact ⟨hinv.zero, hinv.atEnd, hinv.movi⟩

theorem length_captures (r : AviRecorder) (width height : Nat) (cs : List AviCapture) :
    r.file.bytes.length ≤ (cs.foldl (AviRecorder.capture width height) r).file.bytes.length := by
  induction cs generalizing r with
  | nil => exact Nat.le_refl _
  | cons c cs ih => exact Nat.le_trans (length_capture r width height c) (ih _)

theorem inv_captures (h : Inv r) {width height : Nat} (cs : List AviCapture)
    (hsmall : (cs.foldl (AviRecorder.capture width height) r).file.bytes.length < 2 ^ 32) :
    Inv (cs.foldl (AviRecorder.capture width height) r) := by
  induction cs generalizing r with
  | nil => exact h
  | cons c cs ih =>
    have hcapture := Nat.lt_of_le_of_lt (length_captures (r.capture width height c) width height cs) hsmall
    exact ih (inv_capture h c hcapture) hsmall

theorem sized_frames (r : AviRecorder) (width height : Nat) : (r.sized width height).videoFrames = r.videoFrames := by
  rw [AviRecorder.sized]
  split
  · rw [AviRecorder.writeHeaders]
  · rfl

theorem framesOf_cons (c : AviCapture) (cs : List AviCapture) : framesOf (c :: cs) = framesOf [c] + framesOf cs := by
  simp only [framesOf, chunksOf, List.flatMap_cons, List.flatMap_nil, List.append_nil, List.filter_append,
    List.length_append]

theorem frames_capture (r : AviRecorder) (width height : Nat) (c : AviCapture) :
    (r.capture width height c).videoFrames = r.videoFrames + UInt32.ofNat (framesOf [c]) := by
  cases c with
  | video jpegData =>
    rw [AviRecorder.capture, capture_video]
    by_cases hnil : jpegData = []
    · have hnone : framesOf [.video jpegData] = 0 := by simp [framesOf, chunksOf, hnil]
      rw [if_pos hnil, sized_frames, hnone]
      exact (UInt32.add_zero _).symm
    · have hone : framesOf [.video jpegData] = 1 := by simp [framesOf, chunksOf, hnil]
      rw [if_neg hnil, hone]
      exact congrArg (· + 1) (sized_frames r width height)
  | audio samples =>
    have hnone : framesOf [.audio samples] = 0 := by
      have hid : (FOURCC_01wb == FOURCC_00dc) = false := by decide
      by_cases hnil : samples = [] <;> simp [framesOf, chunksOf, hnil, hid]
    rw [AviRecorder.capture, AviRecorder.captureAudioSamples, hnone]
    split <;> exact (UInt32.add_zero _).symm

theorem frames_captures (r : AviRecorder) (width height : Nat) (cs : List AviCapture) :
    (cs.foldl (AviRecorder.capture width height) r).videoFrames = r.videoFrames + UInt32.ofNat (framesOf cs) := by
  induction cs generalizing r with
  | nil => exact (UInt32.add_zero _).symm
  | cons c cs ih =>
    rw [List.foldl_cons, ih, frames_capture, framesOf_cons c cs, UInt32.ofNat_add, UInt32.add_assoc]

/-! ## The stop -/

theorem idx1_length (r : AviRecorder) : 8 ≤ r.idx1.length := by
  rw [AviRecorder.idx1, List.length_append]
  exact Nat.le_add_right 8 _

theorem patched (h : Inv r) (hsmall : r.file.bytes.length < 2 ^ 32) :
    slice r.finalize.bytes 128 4 = leU32 r.videoFrames ∧ slice r.finalize.bytes 140 4 = [0, 0, 0, 0] := by
  obtain ⟨start, hstart, hlow, hhigh⟩ := h.movi
  -- The file behind each of the six writes that close it.
  obtain ⟨f₁, h₁⟩ : ∃ f, f = (r.file.seek (r.moviStart - 4).toNat).put (leU32 (UInt32.ofNat r.file.pos - r.moviStart)) :=
    ⟨_, rfl⟩
  obtain ⟨f₂, h₂⟩ : ∃ f, f = (f₁.seek r.file.pos).put r.idx1 := ⟨_, rfl⟩
  obtain ⟨f₃, h₃⟩ : ∃ f, f = (f₂.seek riffSizeOffset).put (leU32 (UInt32.ofNat f₂.pos - 8)) := ⟨_, rfl⟩
  obtain ⟨f₄, h₄⟩ : ∃ f, f = (f₃.seek avihTotalFramesOffset).put (leU32 r.videoFrames) := ⟨_, rfl⟩
  obtain ⟨f₅, h₅⟩ : ∃ f, f = (f₄.seek videoStrhLengthOffset).put (leU32 r.videoFrames) := ⟨_, rfl⟩
  have hdone : r.finalize = (f₅.seek audioStrhLengthOffset).put (leU32 r.audioSamples) := by
    rw [h₅, h₄, h₃, h₂, h₁]
    rfl
  have hlong := h.zero.long
  have hend := h.atEnd
  have hpos : (r.moviStart - 4).toNat = start - 4 := by rw [hstart, sub_four (by omega) (by omega)]
  -- None of them touches the length of the video stream, at offset 140.
  have hzero₁ : Zero f₁ := h₁ ▸ zero_patch h.zero (.inr (by omega)) _
  have hzero₂ : Zero f₂ := h₂ ▸ zero_put (zero_seek hzero₁ _) (.inr (by show 144 ≤ r.file.pos; omega))
  have hzero₃ : Zero f₃ := h₃ ▸ zero_patch hzero₂ (.inl (by decide)) _
  have hzero₄ : Zero f₄ := h₄ ▸ zero_patch hzero₃ (.inl (by decide)) _
  have hzero₅ : Zero f₅ := h₅ ▸ zero_patch hzero₄ (.inl (by decide)) _
  have hlong₅ := hzero₅.long
  have hscale : slice f₅.bytes 128 4 = leU32 r.videoFrames :=
    h₅ ▸ OutFile.slice_put_self (f₄.seek videoStrhLengthOffset) (leU32 r.videoFrames)
  rw [hdone]
  constructor
  · have hahead : 128 + 4 ≤ (f₅.seek audioStrhLengthOffset).pos := by
      show 132 ≤ 252
      decide
    rw [OutFile.slice_put_of_le hahead (by show 128 + 4 ≤ f₅.bytes.length; omega)]
    exact hscale
  · exact (zero_patch hzero₅ (.inr (by decide)) _).zero

theorem length_finalize (r : AviRecorder) (hend : r.file.pos = r.file.bytes.length) :
    r.file.bytes.length + 8 ≤ r.finalize.bytes.length := by
  have hidx := idx1_length r
  have hput : r.file.pos + r.idx1.length ≤ ((((r.file.seek (r.moviStart - 4).toNat).put
      (leU32 (UInt32.ofNat r.file.pos - r.moviStart))).seek r.file.pos).put r.idx1).bytes.length := by
    rw [OutFile.put_length]
    exact Nat.le_max_right _ _
  have hpatch : ∀ f : OutFile, f.bytes.length ≤ (r.patchSizes f).bytes.length := by
    intro f
    refine Nat.le_trans ?_ (length_le_patch _ audioStrhLengthOffset (leU32 r.audioSamples))
    refine Nat.le_trans ?_ (length_le_patch _ videoStrhLengthOffset (leU32 r.videoFrames))
    refine Nat.le_trans ?_ (length_le_patch _ avihTotalFramesOffset (leU32 r.videoFrames))
    exact length_le_patch f riffSizeOffset (leU32 (UInt32.ofNat f.pos - 8))
  refine Nat.le_trans ?_ (hpatch _)
  omega

/-! ## No recording is well formed -/

theorem slice_videoStrh (a : AviFile) (havih : a.avih.length = 56) (hstrh : a.videoStrh.length = 56) {off len : Nat}
    (h : off + len ≤ 56) : slice a.bytes (108 + off) len = slice a.videoStrh off len := by
  -- three lists are open there, and the main header is closed
  obtain ⟨riff, hriff, hbytes⟩ := Riff.list_head (fourcc 'R' 'I' 'F' 'F') (fourcc 'A' 'V' 'I' ' ') a.body
  obtain ⟨main, hmain, hhdrl⟩ := Riff.list_head (fourcc 'L' 'I' 'S' 'T') (fourcc 'h' 'd' 'r' 'l')
    (Riff.chunk (fourcc 'a' 'v' 'i' 'h') a.avih ++ strl a.videoStrh a.videoStrf ++ strl a.audioStrh a.audioStrf)
  obtain ⟨video, hvideo, hstrl⟩ := Riff.list_head (fourcc 'L' 'I' 'S' 'T') (fourcc 's' 't' 'r' 'l')
    (Riff.chunk (fourcc 's' 't' 'r' 'h') a.videoStrh ++ Riff.chunk (fourcc 's' 't' 'r' 'f') a.videoStrf)
  obtain ⟨pre, hpre⟩ : ∃ pre, pre = riff ++ main ++ Riff.chunk (fourcc 'a' 'v' 'i' 'h') a.avih ++ video := ⟨_, rfl⟩
  have hplace : pre.length = 100 := by
    rw [hpre, List.length_append, List.length_append, List.length_append, hriff, hmain, hvideo, Riff.chunk_length, havih]
    rfl
  obtain ⟨post, hsplit⟩ : ∃ post, a.bytes = pre ++ Riff.chunk (fourcc 's' 't' 'r' 'h') a.videoStrh ++ post := by
    refine ⟨?_, ?_⟩
    rotate_left
    · rw [hpre, AviFile.bytes, hbytes, AviFile.body, AviFile.hdrl, hhdrl, strl, hstrl]
      simp only [List.append_assoc]
      rfl
  rw [hsplit, show 108 + off = pre.length + 8 + off by omega]
  exact Riff.slice_chunk pre post rfl (by omega)

theorem inv_recorded (sampleRate : UInt32) (channels bits : UInt16) (width height : Nat) (cs : List AviCapture)
    (hsmall : (recorded sampleRate channels bits width height cs).file.bytes.length < 2 ^ 32) :
    Inv (recorded sampleRate channels bits width height cs) :=
  inv_captures (inv_writeHeaders rfl (Nat.lt_of_le_of_lt (length_captures _ width height cs) hsmall)) cs hsmall

theorem atEnd_writeHeaders (r : AviRecorder) :
    r.writeHeaders.file.pos = r.writeHeaders.file.bytes.length := by
  apply OutFile.put_pos_at_end
  apply OutFile.put_pos_at_end
  rfl

theorem atEnd_capture {width height : Nat} (hend : r.file.pos = r.file.bytes.length) (c : AviCapture) :
    (r.capture width height c).file.pos = (r.capture width height c).file.bytes.length := by
  cases c with
  | video jpegData =>
    have hsized : (r.sized width height).file.pos = (r.sized width height).file.bytes.length := by
      rw [AviRecorder.sized]
      split
      · apply atEnd_writeHeaders
      · exact hend
    rw [AviRecorder.capture, capture_video]
    split
    · exact hsized
    · exact OutFile.put_pos_at_end hsized
  | audio samples =>
    rw [AviRecorder.capture, AviRecorder.captureAudioSamples]
    split
    · exact hend
    · exact OutFile.put_pos_at_end hend

theorem atEnd_captures {width height : Nat} (hend : r.file.pos = r.file.bytes.length) (cs : List AviCapture) :
    (cs.foldl (AviRecorder.capture width height) r).file.pos =
      (cs.foldl (AviRecorder.capture width height) r).file.bytes.length := by
  induction cs generalizing r with
  | nil => exact hend
  | cons c cs ih => exact ih (atEnd_capture hend c)

theorem not_wellFormed (sampleRate : UInt32) (channels bits : UInt16) (width height blockAlign : Nat)
    (cs : List AviCapture) :
    ¬WellFormed (recording sampleRate channels bits width height cs) sampleRate blockAlign cs := by
  rintro ⟨a, hfile, hsize, havih, -, hvideo, -⟩
  obtain ⟨r, hr⟩ : ∃ r, r = recorded sampleRate channels bits width height cs := ⟨_, rfl⟩
  have hbytes : a.bytes = r.finalize.bytes := by
    rw [hr]
    exact hfile.symm
  have hend : r.file.pos = r.file.bytes.length := hr ▸ atEnd_captures (atEnd_writeHeaders _) cs
  have hlong := length_finalize r hend
  have hsmall : r.file.bytes.length < 2 ^ 32 := by
    have hrec : r.finalize.bytes.length < 2 ^ 32 + 8 := by
      rw [← hbytes, ← hfile]
      exact hsize
    omega
  have hinv : Inv r := by
    rw [hr] at hsmall ⊢
    exact inv_recorded sampleRate channels bits width height cs hsmall
  obtain ⟨hscale, hzero⟩ := patched hinv hsmall
  -- the header of the video stream begins at 108
  have hat : ∀ off, off + 4 ≤ 56 → dword a.videoStrh off = ofLe (slice r.finalize.bytes (108 + off) 4) := by
    intro off hoff
    rw [dword, ← slice_videoStrh a havih hvideo.size hoff, hbytes]
  have hframes : r.videoFrames.toNat = 1 := by
    have hone := hvideo.scale
    rw [hat 20 (by decide), hscale, leU32, le32, ofLe_leBytes] at hone
    exact (Nat.mod_eq_of_lt r.videoFrames.toNat_lt).symm.trans hone
  have hnone : framesOf cs = 0 := by
    have hlength := hvideo.length
    rw [hat 32 (by decide), hzero] at hlength
    exact hlength.symm
  have hcount : r.videoFrames = 0 := by
    rw [hr]
    refine (frames_captures _ width height cs).trans ?_
    rw [hnone]
    rfl
  rw [hcount] at hframes
  exact absurd hframes (by decide)

/-- **No recording** is a well-formed file: its frame count is the scale of its video stream, whose length is
zero. -/
theorem avi_never_well_formed (sampleRate : UInt32) (channels bits : UInt16) (width height : Nat)
    (cs : List AviCapture) :
    ¬WellFormed (recording sampleRate channels bits width height cs) sampleRate
      (channels.toNat * (bits.toNat / 8)) cs := by
  apply not_wellFormed

/-- One frame of the default size. -/
theorem avi_one_frame : ¬WellFormed (recording 44100 2 16 384 270 [.video [0xFF, 0xD8]]) 44100 4 [.video [0xFF, 0xD8]] :=
  not_wellFormed 44100 2 16 384 270 4 [.video [0xFF, 0xD8]]

end Koncepcja.Video
