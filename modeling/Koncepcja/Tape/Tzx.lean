import Koncepcja.Lib.ByteBuf
import Koncepcja.Lib.LittleEndian

/-!
# TZX Blocks

The CDT image format as `docs/hardware/tape-device.md` lists it: the blocks of an image, the bytes
they are stored as, and the pulses each of them stands for. Nothing here looks at the deck.

## Main definitions

- `Block`: a block, with the field widths of its stored form.
- `encodeTape`: the image of a list of blocks.
- `expandTape`: the pulses and pauses an image stands for, with the level each is played at.
-/

namespace Koncepcja.Tape

open Koncepcja.Bits Koncepcja.Bytes

/-! ## Blocks and their bytes -/

/-- A run of bytes whose length is stored in `w` bits. -/
structure Payload (w : Nat) where
  bytes : List UInt8
  length_lt : bytes.length < 2 ^ w
  deriving DecidableEq

/-- A block the deck knows. -/
inductive Block
  /-- 0x10, standard speed data. -/
  | standard (pauseMs : UInt16) (data : Payload 16)
  /-- 0x11, turbo speed data. -/
  | turbo (pilot sync1 sync2 bit0 bit1 pulses : UInt16) (used : UInt8) (pauseMs : UInt16) (data : Payload 24)
  /-- 0x12, pure tone. -/
  | tone (ts pulses : UInt16)
  /-- 0x13, pulse sequence. -/
  | pulseSeq (durations : List UInt16) (length_lt : durations.length < 256)
  /-- 0x14, pure data. -/
  | pureData (bit0 bit1 : UInt16) (used : UInt8) (pauseMs : UInt16) (data : Payload 24)
  /-- 0x15, direct recording. -/
  | direct (ts pauseMs : UInt16) (used : UInt8) (data : Payload 24)
  /-- 0x20, pause; zero stops the tape. -/
  | pause (ms : UInt16)
  /-- 0x21, group start. -/
  | groupStart (name : Payload 8)
  /-- 0x22, group end. -/
  | groupEnd
  /-- 0x30, text description. -/
  | text (msg : Payload 8)
  /-- 0x31, message. -/
  | message (seconds : UInt8) (msg : Payload 8)
  /-- 0x32, archive info. -/
  | archive (info : Payload 16)
  /-- 0x33, hardware type: three bytes an entry. -/
  | hardware (entries : List (UInt8 × UInt8 × UInt8)) (length_lt : entries.length < 256)

namespace Block

/-- The ID byte a block starts with. -/
def id : Block → UInt8
  | standard .. => 0x10
  | turbo .. => 0x11
  | tone .. => 0x12
  | pulseSeq .. => 0x13
  | pureData .. => 0x14
  | direct .. => 0x15
  | pause .. => 0x20
  | groupStart .. => 0x21
  | groupEnd => 0x22
  | text .. => 0x30
  | message .. => 0x31
  | archive .. => 0x32
  | hardware .. => 0x33

/-- What follows the ID byte. -/
def body : Block → List UInt8
  | standard pauseMs data => le16 pauseMs.toNat ++ le16 data.bytes.length ++ data.bytes
  | turbo pilot sync1 sync2 bit0 bit1 pulses used pauseMs data =>
    le16 pilot.toNat ++ le16 sync1.toNat ++ le16 sync2.toNat ++ le16 bit0.toNat ++ le16 bit1.toNat ++
      le16 pulses.toNat ++ [used] ++ le16 pauseMs.toNat ++ le24 data.bytes.length ++ data.bytes
  | tone ts pulses => le16 ts.toNat ++ le16 pulses.toNat
  | pulseSeq durations _ => UInt8.ofNat durations.length :: durations.flatMap fun d => le16 d.toNat
  | pureData bit0 bit1 used pauseMs data =>
    le16 bit0.toNat ++ le16 bit1.toNat ++ [used] ++ le16 pauseMs.toNat ++ le24 data.bytes.length ++ data.bytes
  | direct ts pauseMs used data =>
    le16 ts.toNat ++ le16 pauseMs.toNat ++ [used] ++ le24 data.bytes.length ++ data.bytes
  | pause ms => le16 ms.toNat
  | groupStart name => UInt8.ofNat name.bytes.length :: name.bytes
  | groupEnd => []
  | text msg => UInt8.ofNat msg.bytes.length :: msg.bytes
  | message seconds msg => seconds :: UInt8.ofNat msg.bytes.length :: msg.bytes
  | archive info => le16 info.bytes.length ++ info.bytes
  | hardware entries _ => UInt8.ofNat entries.length :: entries.flatMap fun (a, b, c) => [a, b, c]

/-- A block's stored form. -/
def encode (b : Block) : List UInt8 := b.id :: b.body

end Block

/-- `ZXTape!\x1A` and the format's version. -/
def tapeHeader (major minor : UInt8) : List UInt8 := [0x5A, 0x58, 0x54, 0x61, 0x70, 0x65, 0x21, 0x1A, major, minor]

/-- The image of a list of blocks. -/
def encodeTape (major minor : UInt8) (bs : List Block) : List UInt8 :=
  tapeHeader major minor ++ bs.flatMap Block.encode

/-! ## What a tape plays -/

/-- How long a level is held: a pulse in T-states, a pause in milliseconds. -/
inductive Span
  | tstates (ts : Nat)
  | millis (ms : Nat)
  deriving DecidableEq, Repr

/-- A pulse or a pause, and the level of the line while it lasts. -/
structure Pulse where
  span : Span
  level : Bool
  deriving DecidableEq, Repr

/-- Pulses that toggle the line, from `level` on. -/
def alternate : Bool → List Nat → List Pulse
  | _, [] => []
  | level, ts :: rest => ⟨.tstates ts, level⟩ :: alternate (!level) rest

/-- The level behind `n` toggling pulses. -/
def flips (level : Bool) (n : Nat) : Bool := if n % 2 = 0 then level else !level

/-- A pause is silent and leaves the line low; a zero pause is none. -/
def pausePulses (ms : Nat) : List Pulse := if ms = 0 then [] else [⟨.millis ms, false⟩]

/-- The level behind a pause. -/
def pauseLevel (ms : Nat) (level : Bool) : Bool := if ms = 0 then level else false

/-- How many bits a data field holds when `used` bits of its last byte count. -/
def bitCount (data : List UInt8) (used : Nat) : Nat :=
  if data = [] then 0 else 8 * (data.length - 1) + used

/-- The data bits, most significant first. -/
def dataBits (data : List UInt8) (used : Nat) : List Bool := unpack data (bitCount data used)

/-- A bit is a pair of equal pulses. -/
def bitPulses (bit0 bit1 : Nat) (bits : List Bool) : List Nat :=
  bits.flatMap fun b => [if b then bit1 else bit0, if b then bit1 else bit0]

namespace Block

/-- The toggling pulses of a block, in T-states. -/
def pulses : Block → List Nat
  | standard _ data =>
    List.replicate (if byteAt data.bytes 0 < 0x80 then 8063 else 3223) 2168 ++ [667, 735] ++
      bitPulses 855 1710 (dataBits data.bytes 8)
  | turbo pilot sync1 sync2 bit0 bit1 pulses used _ data =>
    List.replicate pulses.toNat pilot.toNat ++ [sync1.toNat, sync2.toNat] ++
      bitPulses bit0.toNat bit1.toNat (dataBits data.bytes used.toNat)
  | tone ts pulses => List.replicate pulses.toNat ts.toNat
  | pulseSeq durations _ => durations.map UInt16.toNat
  | pureData bit0 bit1 used _ data => bitPulses bit0.toNat bit1.toNat (dataBits data.bytes used.toNat)
  | _ => []

/-- The samples of a direct recording. -/
def samples : Block → List Bool
  | direct _ _ used data => dataBits data.bytes used.toNat
  | _ => []

/-- The pause behind a block's pulses, in milliseconds. -/
def pauseAfter : Block → Nat
  | standard pauseMs _ => pauseMs.toNat
  | turbo _ _ _ _ _ _ _ pauseMs _ => pauseMs.toNat
  | pureData _ _ _ pauseMs _ => pauseMs.toNat
  | direct _ pauseMs _ _ => pauseMs.toNat
  | pause ms => ms.toNat
  | _ => 0

/-- The T-states of a sample. -/
def sampleTime : Block → Nat
  | direct ts _ _ _ => ts.toNat
  | _ => 0

/-- The pulses a block stands for when the line is at `level`. -/
def expand (level : Bool) (b : Block) : List Pulse :=
  alternate level b.pulses ++ b.samples.map (fun bit => ⟨.tstates b.sampleTime, bit⟩) ++
    pausePulses b.pauseAfter

/-- The level the line is left at. -/
def levelAfter (level : Bool) (b : Block) : Bool :=
  pauseLevel b.pauseAfter ((b.samples.getLast?).getD (flips level b.pulses.length))

/-- A zero pause stops the tape. -/
def stops : Block → Bool
  | pause ms => ms == 0
  | _ => false

end Block

/-- **The pulses a tape stands for**: its blocks' expansions one behind the other, up to the end or
    a block that stops the tape. -/
def expandTape : Bool → List Block → List Pulse
  | _, [] => []
  | level, b :: bs => if b.stops then [] else b.expand level ++ expandTape (b.levelAfter level) bs

/-! ## Counting pulses -/

@[simp] theorem flips_zero (level : Bool) : flips level 0 = level := rfl

theorem flips_succ (level : Bool) (n : Nat) : flips level (n + 1) = flips (!level) n := by
  rcases Nat.mod_two_eq_zero_or_one n with h | h
  · have h' : (n + 1) % 2 ≠ 0 := by omega
    rw [flips, if_neg h', flips, if_pos h]
  · have h' : (n + 1) % 2 = 0 := by omega
    have h0 : n % 2 ≠ 0 := by omega
    rw [flips, if_pos h', flips, if_neg h0, Bool.not_not]

theorem alternate_append (level : Bool) (a b : List Nat) :
    alternate level (a ++ b) = alternate level a ++ alternate (flips level a.length) b := by
  induction a generalizing level with
  | nil => rfl
  | cons ts a ih =>
    rw [List.cons_append, alternate, alternate, ih, List.length_cons, flips_succ, List.cons_append]

theorem flips_add (level : Bool) (m n : Nat) : flips level (m + n) = flips (flips level m) n := by
  induction m generalizing level with
  | zero => rw [Nat.zero_add, flips_zero]
  | succ m ih => rw [Nat.add_right_comm, flips_succ, ih, flips_succ]

@[simp] theorem bitPulses_nil (bit0 bit1 : Nat) : bitPulses bit0 bit1 [] = [] := rfl

theorem bitPulses_cons (bit0 bit1 : Nat) (b : Bool) (bits : List Bool) :
    bitPulses bit0 bit1 (b :: bits) =
      (if b then bit1 else bit0) :: (if b then bit1 else bit0) :: bitPulses bit0 bit1 bits := rfl

@[simp] theorem bitPulses_length (bit0 bit1 : Nat) (bits : List Bool) :
    (bitPulses bit0 bit1 bits).length = 2 * bits.length := by
  induction bits with
  | nil => rfl
  | cons b bits ih =>
    rw [bitPulses, List.flatMap_cons, List.length_append, List.length_cons]
    rw [bitPulses] at ih
    rw [ih]
    simp only [List.length_cons, List.length_nil]
    omega

end Koncepcja.Tape
