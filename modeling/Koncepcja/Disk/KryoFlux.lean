import Koncepcja.Lib.Binary64
import Koncepcja.Disk.FluxConverters

/-!
# KryoFlux Streams

`src/kryoflux_stream.cpp`: the stream of one track. A first pass over its blocks collects the transitions and the
index pulses; each index is then bound to a transition, and the transitions are cut into revolutions between indices.

A block out of band does not count for the position that an index refers to, and a run of overflows belongs to the
transition behind it.

## Main definitions

- `scanStream`: the first pass.
- `decodeStream`: the revolutions of a stream.
- `Block`: the blocks of the format, as `scanStream` reads them.
-/

namespace Koncepcja.Disk.KryoFlux

open Koncepcja.Binary64 Koncepcja.Bytes

/-- `KFSTREAM_E_*`. -/
inductive Failure where
  | truncated | noIndex | noFlux | badOob | geometry
  deriving DecidableEq

/-- `KFSTREAM_DEFAULT_SCK_HZ`. -/
def defaultSckHz : ℚ := rnd (24027428571428571 / 1000000000)

structure Transition where
  pos : Nat
  interval : Nat
  deriving DecidableEq

structure IndexRec where
  streamPos : Nat
  sampleCounter : Nat
  deriving DecidableEq

/-- What `scan_stream` keeps as it walks. -/
structure Scan where
  spos : Nat := 0
  ovl : Nat := 0
  ovlPos : Nat := 0
  ovlActive : Bool := false
  flux : List Transition := []
  idx : List IndexRec := []
  sckHz : ℚ := defaultSckHz

/-- A flux block of `n` bytes. -/
def Scan.transition (s : Scan) (v n : Nat) : Scan :=
  { s with
    flux := s.flux ++ [{ pos := if s.ovlActive then s.ovlPos else s.spos, interval := (s.ovl * 0x10000 + v) % 2 ^ 32 }]
    ovl := 0
    ovlActive := false
    spos := s.spos + n }

def Scan.overflow (s : Scan) : Scan :=
  { s with
    ovlPos := if s.ovlActive then s.ovlPos else s.spos
    ovlActive := true
    ovl := s.ovl + 1
    spos := s.spos + 1 }

def Scan.nop (s : Scan) (n : Nat) : Scan := { s with spos := s.spos + n }

/-- `sck=` and a number behind it. What `strtod` makes of a text is a parameter; there is no value if it consumes
    nothing. -/
def parseKfinfo (strtod : List UInt8 → Option ℚ) (body : List UInt8) (sckHz : ℚ) : ℚ :=
  match body.tails.find? fun t => [0x73, 0x63, 0x6B, 0x3D].isPrefixOf t with
  | none => sckHz
  | some t =>
    match strtod ((t.drop 4).takeWhile (· ≠ 0)) with
    | some v => if 0 < v then v else sckHz
    | none => sckHz

/-- The body of a block out of band. -/
def Scan.outOfBand (strtod : List UInt8 → Option ℚ) (s : Scan) (type : UInt8) (body : List UInt8) : Except Failure Scan :=
  if type = 0x02 then
    if body.length < 12 then .error .badOob
    else .ok { s with idx := s.idx ++ [{ streamPos := rd32le body 0, sampleCounter := rd32le body 4 }] }
  else if type = 0x04 then .ok { s with sckHz := parseKfinfo strtod body s.sckHz }
  else .ok s

/-- `scan_stream`, from the state `s` on, with `data` ahead. -/
def scanStream (strtod : List UInt8 → Option ℚ) (s : Scan) (data : List UInt8) : Except Failure Scan :=
  match data with
  | [] => .ok s
  | h :: rest =>
    if 0x0E ≤ h.toNat then scanStream strtod (s.transition h.toNat 1) rest
    else if h.toNat ≤ 0x07 then
      match rest with
      | lo :: rest => scanStream strtod (s.transition (h.toNat * 256 + lo.toNat) 2) rest
      | _ => .error .truncated
    else if h = 0x0C then
      match rest with
      | hi :: lo :: rest => scanStream strtod (s.transition (hi.toNat * 256 + lo.toNat) 3) rest
      | _ => .error .truncated
    else if h = 0x0B then scanStream strtod s.overflow rest
    else if h = 0x08 then scanStream strtod (s.nop 1) rest
    else if h = 0x09 then
      match rest with
      | _ :: rest => scanStream strtod (s.nop 2) rest
      | _ => .error .truncated
    else if h = 0x0A then
      match rest with
      | _ :: _ :: rest => scanStream strtod (s.nop 3) rest
      | _ => .error .truncated
    else
      match rest with
      | type :: lo :: hi :: rest =>
        if type = 0x0D then .ok s
        else if rest.length < rd16le [lo, hi] 0 then .error .truncated
        else
          match s.outOfBand strtod type (rest.take (rd16le [lo, hi] 0)) with
          | .error e => .error e
          | .ok s' => scanStream strtod s' (rest.drop (rd16le [lo, hi] 0))
      | _ => .error .truncated
  termination_by data.length
  decreasing_by all_goals simp only [List.length_cons, List.length_drop]; omega

/-! ## Revolutions -/

/-- The first transition from `sp` on: the bisection of `resolve_index`. -/
def resolveIndex (flux : Array Transition) (sp : Nat) (lo hi : Nat) : Nat :=
  if h : lo < hi then
    if (flux.getD (lo + (hi - lo) / 2) ⟨0, 0⟩).pos < sp then resolveIndex flux sp (lo + (hi - lo) / 2 + 1) hi
    else resolveIndex flux sp lo (lo + (hi - lo) / 2)
  else lo
  termination_by hi - lo

/-- The sums of `kryoflux_decode_stream`, in 64 bits. -/
def cumulative (acc : Nat) : List Nat → List Nat
  | [] => []
  | iv :: ivs => (acc + iv) % 2 ^ 64 :: cumulative ((acc + iv) % 2 ^ 64) ivs

/-- `kryoflux_sck_to_25ns` ahead of the conversion to 32 bits. -/
def ticks25ns (sckHz : ℚ) (sckTicks : Nat) : Nat :=
  let sckHz := if sckHz ≤ 0 then defaultSckHz else sckHz
  let t := rnd (rnd (rnd sckTicks * 40000000) / sckHz)
  ⌊rnd (t + 1 / 2)⌋.toNat

def kryofluxSckTo25ns (sckHz : ℚ) (sckTicks : Nat) : Nat := ticks25ns sckHz sckTicks % 2 ^ 32

structure Rev where
  flux25ns : List Nat := []
  duration25ns : Nat := 0
  deriving DecidableEq

structure Track where
  revs : List Rev := []
  sckHz : ℚ := defaultSckHz

/-- An index, the transition it is bound to, and its time. -/
structure Bound where
  fi : Nat
  iabs : Nat
  deriving DecidableEq

/-- The words of a revolution, from the times of its transitions. -/
def revWords (sckHz : ℚ) (ia : Nat) (prev25 : Nat) : List Nat → List Nat
  | [] => []
  | t :: ts =>
    let c25 := kryofluxSckTo25ns sckHz (if ia ≤ t then t - ia else 0)
    (if prev25 < c25 then c25 - prev25 else 1) :: revWords sckHz ia c25 ts

def bind (flux : List Transition) (cum : List Nat) (ir : IndexRec) : Bound :=
  let fi := resolveIndex flux.toArray ir.streamPos 0 flux.length
  { fi := fi, iabs := ((if fi = 0 then 0 else cum.getD (fi - 1) 0) + ir.sampleCounter) % 2 ^ 64 }

/-- The revolution between two indices; there is none if they are not apart. -/
def revBetween (sckHz : ℚ) (cum : List Nat) (a b : Bound) : Option Rev :=
  if b.fi ≤ a.fi ∨ b.iabs ≤ a.iabs then none
  else
    some
      { duration25ns := kryofluxSckTo25ns sckHz (b.iabs - a.iabs)
        flux25ns := revWords sckHz a.iabs 0 ((cum.drop a.fi).take (b.fi - a.fi)) }

/-- Each element with the next one. -/
def consecutive {α : Type} (l : List α) : List (α × α) := l.zip l.tail

/-- `kryoflux_decode_stream`. -/
def decodeStream (strtod : List UInt8 → Option ℚ) (data : List UInt8) : Except Failure Track :=
  if data = [] then .error .noFlux
  else
    match scanStream strtod {} data with
    | .error e => .error e
    | .ok s =>
      if s.flux = [] then .error .noFlux
      else if s.idx.length < 2 then .error .noIndex
      else
        let cum := cumulative 0 (s.flux.map Transition.interval)
        let bound := s.idx.map (bind s.flux cum)
        let revs := (consecutive bound).filterMap fun p => revBetween s.sckHz cum p.1 p.2
        if revs = [] then .error .noIndex else .ok { revs := revs, sckHz := s.sckHz }

/-! ## Blocks -/

/-- A block of the format. -/
inductive Block where
  | flux1 (h : UInt8)
  | flux2 (h lo : UInt8)
  | flux3 (hi lo : UInt8)
  | ovl16
  | nop1
  | nop2 (a : UInt8)
  | nop3 (a b : UInt8)
  | oob (type : UInt8) (body : List UInt8)

def Block.Valid : Block → Prop
  | flux1 h => 0x0E ≤ h.toNat
  | flux2 h _ => h.toNat ≤ 0x07
  | oob type body => type ≠ 0x0D ∧ body.length < 2 ^ 16 ∧ (type = 0x02 → 12 ≤ body.length)
  | _ => True

def Block.bytes : Block → List UInt8
  | flux1 h => [h]
  | flux2 h lo => [h, lo]
  | flux3 hi lo => [0x0C, hi, lo]
  | ovl16 => [0x0B]
  | nop1 => [0x08]
  | nop2 a => [0x09, a]
  | nop3 a b => [0x0A, a, b]
  | oob type body => 0x0D :: type :: UInt8.ofNat body.length :: UInt8.ofNat (body.length / 256) :: body

/-- The bytes that count for the position of an index. -/
def Block.inBand : Block → Nat
  | oob _ _ => 0
  | b => b.bytes.length

/-- The counts of a flux block. -/
def Block.flux : Block → Option Nat
  | flux1 h => some h.toNat
  | flux2 h lo => some (h.toNat * 256 + lo.toNat)
  | flux3 hi lo => some (hi.toNat * 256 + lo.toNat)
  | _ => none

def Block.isOvl : Block → Bool
  | ovl16 => true
  | _ => false

def Block.index : Block → Option IndexRec
  | oob type body =>
    if type = 0x02 then some { streamPos := rd32le body 0, sampleCounter := rd32le body 4 } else none
  | _ => none

end Koncepcja.Disk.KryoFlux
