import Koncepcja.Lib.ByteBuf
import Koncepcja.Lib.RingCursor

/-!
# The IPF Sector Scanner

`src/ipf_decode.cpp`, `Scanner` and `scan_track`: the sectors of a decoded MFM track. The bit
position is a 32-bit one; a word that does not match is stepped back over by fifteen bits.

## Main results

- `iteration_spec`: one round of the loop reads on the track, and leaves less of two rounds to go.
- `scan_track_safe`: what keeps the scanner on the track and lets it finish.
-/

namespace Koncepcja.Ipf

open Koncepcja.Bytes Koncepcja.RingCursor

set_option maxRecDepth 20000

/-- `DSK_SECTORMAX`. -/
def kSectorMax : Nat := 29

structure CleanTrackMFM where
  bits : List UInt8 := []
  nbits : Nat := 0
  flakey : Bool := false
  deriving DecidableEq

/-- The buffer holds the track's bits, and the count is a 32-bit one. -/
structure CleanTrackMFM.Whole (mfm : CleanTrackMFM) : Prop where
  length : mfm.bits.length = (mfm.nbits + 7) / 8
  lt : mfm.nbits < 2 ^ 32

/-! ## CRC-16/CCITT -/

/-- One bit of the table's division. -/
def crcShift (w : UInt16) : UInt16 := (w <<< 1) ^^^ (if w &&& 0x8000 ≠ 0 then 0x1021 else 0)

def crcTable (i : UInt16) : UInt16 := Nat.repeat crcShift 8 (i <<< 8)

def crc16CcittStep (crc : UInt16) (b : UInt8) : UInt16 :=
  (crc <<< 8) ^^^ crcTable (((crc >>> 8) ^^^ b.toUInt16) &&& 0xFF)

/-! ## The scanner -/

/-- `Scanner`, less the buffer. `decoded` is newest first; `reads` notes where `read_byte` has read
    and is not in the source. -/
structure Scanner where
  pos : Nat := 0
  lastPos : Nat := 0
  wrapped : Bool := false
  lastData : UInt8 := 0
  crc : UInt16 := 0
  decoded : List UInt8 := []
  reads : List Nat := []
  deriving DecidableEq

/-- A byte shifted up by less than eight bits. -/
def shl (b : UInt8) (n : Nat) : UInt8 := UInt8.ofNat (b.toNat * 2 ^ n)

/-- A byte shifted down by up to eight bits. -/
def shr (b : UInt8) (n : Nat) : UInt8 := UInt8.ofNat (b.toNat / 2 ^ n)

/-- The clock bits of a word. -/
def clockBits (b1 b2 : UInt8) : UInt8 :=
  (b1 &&& 0x80) ||| (shl b1 1 &&& 0x40) ||| (shl b1 2 &&& 0x20) ||| (shl b1 3 &&& 0x10) |||
    (shr b2 4 &&& 0x08) ||| (shr b2 3 &&& 0x04) ||| (shr b2 2 &&& 0x02) ||| (shr b2 1 &&& 0x01)

/-- The data bits of a word. -/
def wordData (b1 b2 : UInt8) : UInt8 :=
  (shl b1 1 &&& 0x80) ||| (shl b1 2 &&& 0x40) ||| (shl b1 3 &&& 0x20) ||| (shl b1 4 &&& 0x10) |||
    (shr b2 3 &&& 0x08) ||| (shr b2 2 &&& 0x04) ||| (shr b2 1 &&& 0x02) ||| (b2 &&& 0x01)

/-- The clock the rule asks for: set between two clear data bits. -/
def goodClock (lastData dat : UInt8) : UInt8 :=
  (if dat &&& 0x80 = 0 ∧ lastData &&& 1 = 0 then 0x80 else 0) |||
    (if dat &&& 0xC0 = 0 then 0x40 else 0) ||| (if dat &&& 0x60 = 0 then 0x20 else 0) |||
    (if dat &&& 0x30 = 0 then 0x10 else 0) ||| (if dat &&& 0x18 = 0 then 0x08 else 0) |||
    (if dat &&& 0x0C = 0 then 0x04 else 0) ||| (if dat &&& 0x06 = 0 then 0x02 else 0) |||
    (if dat &&& 0x03 = 0 then 0x01 else 0)

section Reading

-- The padded copy of the track, and its length in bits.
variable (buf : List UInt8) (nbits : Nat)

/-- `a - b` on 32 bits. -/
def sub32 (a b : Nat) : Nat := (a + 2 ^ 32 - b) % 2 ^ 32

namespace Scanner

/-- `read_byte`. Past the padded copy the model reads zeros; `reads` tells. -/
def readByte (sc : Scanner) : UInt8 × Scanner :=
  let off := sc.pos / 8
  let shift := sc.pos % 8
  let pos := (sc.pos + 8) % 2 ^ 32
  let b :=
    if shift = 0 then byteAt buf off else shl (byteAt buf off) shift ||| shr (byteAt buf (off + 1)) (8 - shift)
  let sc := { sc with reads := sc.pos :: sc.reads }
  if nbits ≤ pos then
    let wrapbits := pos - nbits
    let b :=
      if wrapbits < 8 then
        (b &&& ~~~(UInt8.ofNat (2 ^ wrapbits - 1))) ||| shr (byteAt buf 0) (8 - wrapbits)
      else byteAt buf 0
    (b, { sc with pos := wrapbits, wrapped := true })
  else (b, { sc with pos })

/-- `read_word`: the clock, with the bits the rule asks for flipped, over the data. -/
def readWord (sc : Scanner) : UInt16 × Scanner :=
  let r1 := { sc with lastPos := sc.pos }.readByte buf nbits
  let r2 := r1.2.readByte buf nbits
  let dat := wordData r1.1 r2.1
  let clock := clockBits r1.1 r2.1 ^^^ goodClock sc.lastData dat
  ((clock.toUInt16 <<< 8) ||| dat.toUInt16,
    { r2.2 with decoded := dat :: r2.2.decoded, lastData := dat })

def readDataByte (sc : Scanner) : UInt8 × Scanner :=
  let r := sc.readWord buf nbits
  (r.1.toUInt8, r.2)

def crcByte (sc : Scanner) (b : UInt8) : Scanner := { sc with crc := crc16CcittStep sc.crc b }

/-- `st.chrn[i] = read_data_byte(); crc_byte(st.chrn[i]);` -/
def readChecked (sc : Scanner) : UInt8 × Scanner :=
  let r := sc.readDataByte buf nbits
  (r.1, r.2.crcByte r.1)

/-- `crc_byte(read_data_byte())`, `n` times. -/
def readCrc : Nat → Scanner → Scanner
  | 0, sc => sc
  | n + 1, sc => readCrc n (sc.readChecked buf nbits).2

/-- The data field and its CRC, and whether that is bad; a single sector is read on to 4K. The head
    goes back behind the mark. -/
def readField (sc : Scanner) (size : Nat) (single : Bool) : Bool × Scanner :=
  let body := sc.readCrc buf nbits (size + 2)
  let last := if single ∧ size < 4096 then body.readCrc buf nbits (4096 - size) else body
  (body.crc ≠ 0, { last with pos := sc.pos, wrapped := sc.wrapped })

/-- `pos -= 15; decoded.pop_back();` -/
def slide (sc : Scanner) : Scanner :=
  { sc with pos := sub32 sc.pos 15, decoded := sc.decoded.tail }

end Scanner

/-- `SectorTmp`; of the four flag bytes only the first two are ever written. -/
structure SectorTmp where
  c : UInt8 := 0
  h : UInt8 := 0
  r : UInt8 := 0
  n : UInt8 := 0
  flags0 : UInt8 := 0
  flags1 : UInt8 := 0
  size : Nat := 0
  dataOff : Nat := 0
  hasData : Bool := false
  deriving DecidableEq

/-- The locals of `scan_track`'s loop; `cur` is an index into `sectors`. -/
structure ScanState where
  sc : Scanner := {}
  sectors : List SectorTmp := []
  cur : Option Nat := none
  headerOff : Nat := 0
  deriving DecidableEq

/-- The sync word: A1 without one of its clocks. -/
def syncMark : UInt16 := 0x04A1

namespace ScanState

/-- Behind an ID address mark. -/
def idMark (s : ScanState) (sc : Scanner) : ScanState :=
  if kSectorMax ≤ s.sectors.length then { s with sc }
  else
    let c := sc.readChecked buf nbits
    let h := c.2.readChecked buf nbits
    let r := h.2.readChecked buf nbits
    let n := r.2.readChecked buf nbits
    let sc := n.2.readCrc buf nbits 2
    if sc.crc ≠ 0 then { s with sc } -- bad header CRC: drop
    else
      { sc
        sectors := s.sectors ++ [{ c := c.1, h := h.1, r := r.1, n := n.1 }]
        cur := some s.sectors.length
        headerOff := sc.lastPos }

/-- `128 << N`, up to 32 KiB. -/
def sectorSize (n : UInt8) : Nat := if n ≤ 7 then 128 * 2 ^ n.toNat else 0x8000

/-- Behind a data address mark, with an ID open. -/
def dataField (s : ScanState) (am : UInt8) (i : Nat) (sc : Scanner) : ScanState :=
  let offset := sub32 sc.lastPos s.headerOff / 16
  if offset < 32 ∨ 64 ≤ offset then
    { s with
      sc
      sectors := s.sectors.modify i fun st => { st with flags1 := st.flags1 &&& ~~~0x01 }
      cur := none }
  else
    let size := sectorSize (s.sectors.getD i {}).n
    let r := sc.readField buf nbits size (s.sectors.length = 1)
    { s with
      sc := r.2
      sectors := s.sectors.modify i fun st =>
        { st with
          flags0 := if r.1 then st.flags0 ||| 0x20 else st.flags0
          flags1 :=
            let flags1 := if am = 0xF8 ∨ am = 0xF9 then st.flags1 ||| 0x40 else st.flags1
            if r.1 then flags1 ||| 0x20 else flags1
          size
          dataOff := sc.decoded.length
          hasData := true }
      cur := none }

/-- Behind an address mark. -/
def mark (s : ScanState) (am : UInt8) (sc : Scanner) : ScanState :=
  if am = 0xFE then s.idMark buf nbits sc
  else if am = 0xFB ∨ am = 0xFA ∨ am = 0xF8 ∨ am = 0xF9 then
    match s.cur with
    | none => { s with sc }
    | some i => s.dataField buf nbits am i sc
  else { s with sc }

/-- One round of the loop. -/
def iteration (s : ScanState) : ScanState :=
  let r1 := s.sc.readWord buf nbits
  if r1.1 ≠ syncMark then { s with sc := r1.2.slide }
  else
    let r2 := r1.2.readWord buf nbits
    if r2.1 ≠ syncMark then { s with sc := r2.2 }
    else
      let r3 := r2.2.readWord buf nbits
      if r3.1 ≠ syncMark then { s with sc := r3.2 }
      else
        let r := { r3.2 with crc := 0xCDB4 }.readChecked buf nbits
        s.mark buf nbits r.1 r.2

/-- `!sc.wrapped || cur != nullptr`. -/
def running (s : ScanState) : Bool := !s.sc.wrapped || s.cur.isSome

/-- The loop, `fuel` rounds at most. -/
def loop : Nat → ScanState → Option ScanState
  | 0, _ => none
  | fuel + 1, s => if s.running then loop fuel (s.iteration buf nbits) else some s

/-- The states the loop comes to. -/
inductive Reached : ScanState → Prop
  | start : Reached {}
  | next {s : ScanState} : Reached s → s.running = true → Reached (s.iteration buf nbits)

end ScanState

end Reading

/-- The copy with two spare bytes for `read_byte`'s second one. -/
def CleanTrackMFM.padded (mfm : CleanTrackMFM) : List UInt8 := mfm.bits ++ [0, 0]

/-- `scan_track`: the sectors and the decoded bytes; `none` where `fuel` rounds do not end it. -/
def scanTrack (fuel : Nat) (mfm : CleanTrackMFM) : Option (List SectorTmp × List UInt8) :=
  if mfm.nbits = 0 then some ([], [])
  else (ScanState.loop mfm.padded mfm.nbits fuel {}).map fun s => (s.sectors, s.sc.decoded.reverse)

theorem sub32_of_le {a b : Nat} (h : b ≤ a) (ha : a < 2 ^ 32) : sub32 a b = a - b := by
  rw [sub32]
  omega

theorem sub32_of_lt {a b : Nat} (h : a < b) : sub32 a b = a + 2 ^ 32 - b := by
  rw [sub32]
  omega

/-! ## What a read does to the position -/

namespace Scanner

def head (sc : Scanner) : Cursor := ⟨sc.pos, sc.wrapped, sc.reads⟩

section Moves

variable {buf : List UInt8} {nbits : Nat} {sc : Scanner}

theorem head_readWord : (sc.readWord buf nbits).2.head =
    ((({ sc with lastPos := sc.pos } : Scanner).readByte buf nbits).2.readByte buf nbits).2.head := rfl

theorem head_readChecked : (sc.readChecked buf nbits).2.head = (sc.readWord buf nbits).2.head := rfl

theorem readByte_moved (h8 : 8 ≤ nbits) (hcap : nbits + 16 ≤ 2 ^ 32) (hpos : sc.pos < nbits) :
    Moved nbits 8 sc.head (sc.readByte buf nbits).2.head := by
  have hmod : (sc.pos + 8) % 2 ^ 32 = sc.pos + 8 := Nat.mod_eq_of_lt (by omega)
  have hvisited : ∀ p ∈ sc.pos :: sc.reads, p ∈ sc.reads ∨ p < nbits := by
    intro p hp
    rcases List.mem_cons.1 hp with rfl | hp
    · exact .inr hpos
    · exact .inl hp
  unfold readByte
  dsimp only
  rw [hmod]
  by_cases hround : nbits ≤ sc.pos + 8
  · rw [if_pos hround]
    refine ⟨?_, fun hlt => ?_, fun _ => rfl, fun _ => rfl, hvisited⟩
    · show sc.pos + 8 - nbits < nbits
      omega
    · exact absurd hround (by exact Nat.not_le.2 hlt)
  · rw [if_neg hround]
    exact ⟨Nat.not_le.1 hround, fun _ => ⟨rfl, rfl⟩, fun hle => absurd hle hround, id, hvisited⟩

theorem readWord_moved (h8 : 8 ≤ nbits) (hcap : nbits + 16 ≤ 2 ^ 32) (hpos : sc.pos < nbits) :
    Moved nbits 16 sc.head (sc.readWord buf nbits).2.head := by
  have h1 := @readByte_moved buf _ { sc with lastPos := sc.pos } h8 hcap hpos
  rw [head_readWord]
  exact h1.trans (readByte_moved h8 hcap h1.inside)

theorem readChecked_moved (h8 : 8 ≤ nbits) (hcap : nbits + 16 ≤ 2 ^ 32) (hpos : sc.pos < nbits) :
    Moved nbits 16 sc.head (sc.readChecked buf nbits).2.head := by
  rw [head_readChecked]
  exact readWord_moved h8 hcap hpos

theorem readCrc_moved (h8 : 8 ≤ nbits) (hcap : nbits + 16 ≤ 2 ^ 32) (n : Nat) (hpos : sc.pos < nbits) :
    Moved nbits (16 * n) sc.head (sc.readCrc buf nbits n).head := by
  induction n generalizing sc with
  | zero => exact .refl hpos
  | succ n ih =>
    have h1 := @readChecked_moved buf _ _ h8 hcap hpos
    have h := h1.trans (ih h1.inside)
    rwa [Nat.mul_succ, Nat.add_comm]

theorem readField_moved (h8 : 8 ≤ nbits) (hcap : nbits + 16 ≤ 2 ^ 32) (size : Nat) (single : Bool)
    (hpos : sc.pos < nbits) : Moved nbits 0 sc.head (sc.readField buf nbits size single).2.head := by
  have hbody := @readCrc_moved buf _ _ h8 hcap (size + 2) hpos
  unfold readField
  generalize sc.readCrc buf nbits (size + 2) = body at hbody ⊢
  generalize 4096 - size = more
  dsimp only
  split
  · have hlast := hbody.trans (@readCrc_moved buf _ _ h8 hcap more hbody.inside)
    exact hlast.putBack hpos
  · exact hbody.putBack hpos

/-! Without any bound on the track, a read is at least noted. -/

theorem readByte_reads (sc : Scanner) : (sc.readByte buf nbits).2.reads = sc.pos :: sc.reads := by
  unfold readByte
  dsimp only
  split <;> rfl

theorem readWord_reads (sc : Scanner) : sc.pos :: sc.reads <:+ (sc.readWord buf nbits).2.reads := by
  have h := congrArg Cursor.visited (@head_readWord buf nbits sc)
  simp only [head, readByte_reads] at h
  rw [h]
  exact List.suffix_cons _ _

theorem reads_readWord (sc : Scanner) : sc.reads <:+ (sc.readWord buf nbits).2.reads :=
  (List.suffix_cons _ _).trans (readWord_reads sc)

theorem reads_readChecked (sc : Scanner) : sc.reads <:+ (sc.readChecked buf nbits).2.reads :=
  reads_readWord sc

theorem reads_readCrc (n : Nat) (sc : Scanner) : sc.reads <:+ (sc.readCrc buf nbits n).reads := by
  induction n generalizing sc with
  | zero => exact List.suffix_refl _
  | succ n ih => exact (reads_readChecked sc).trans (ih (sc.readChecked buf nbits).2)

end Moves

end Scanner

/-! ## What a round does to the position -/

namespace ScanState

variable {buf : List UInt8} {nbits : Nat} {s : ScanState}

theorem idMark_moved (h8 : 8 ≤ nbits) (hcap : nbits + 16 ≤ 2 ^ 32) {sc : Scanner} (hpos : sc.pos < nbits) :
    ∃ k, Moved nbits k sc.head (s.idMark buf nbits sc).sc.head := by
  unfold idMark
  by_cases hfull : kSectorMax ≤ s.sectors.length
  · rw [if_pos hfull]
    exact ⟨0, .refl hpos⟩
  · rw [if_neg hfull]
    dsimp only
    -- C, H, R, N and the two bytes of the CRC
    have hc := @Scanner.readChecked_moved buf _ _ h8 hcap hpos
    have hh := hc.trans (@Scanner.readChecked_moved buf _ _ h8 hcap hc.inside)
    have hr := hh.trans (@Scanner.readChecked_moved buf _ _ h8 hcap hh.inside)
    have hn := hr.trans (@Scanner.readChecked_moved buf _ _ h8 hcap hr.inside)
    have hcrc := hn.trans (@Scanner.readCrc_moved buf _ _ h8 hcap 2 hn.inside)
    split
    · exact ⟨_, hcrc⟩
    · exact ⟨_, hcrc⟩

theorem dataField_moved (h8 : 8 ≤ nbits) (hcap : nbits + 16 ≤ 2 ^ 32) {sc : Scanner} (hpos : sc.pos < nbits)
    (am : UInt8) (i : Nat) : Moved nbits 0 sc.head (s.dataField buf nbits am i sc).sc.head := by
  rw [dataField]
  by_cases hoff : sub32 sc.lastPos s.headerOff / 16 < 32 ∨ 64 ≤ sub32 sc.lastPos s.headerOff / 16
  · simp only [hoff, if_true]
    exact .refl hpos
  · simp only [hoff, if_false]
    exact Scanner.readField_moved h8 hcap _ _ hpos

theorem mark_moved (h8 : 8 ≤ nbits) (hcap : nbits + 16 ≤ 2 ^ 32) {sc : Scanner} (hpos : sc.pos < nbits)
    (am : UInt8) : ∃ k, Moved nbits k sc.head (s.mark buf nbits am sc).sc.head := by
  unfold mark
  split
  · exact idMark_moved h8 hcap hpos
  · split
    · cases s.cur with
      | none => exact ⟨0, .refl hpos⟩
      | some i => exact ⟨0, dataField_moved h8 hcap hpos am i⟩
    · exact ⟨0, .refl hpos⟩

theorem iteration_slide (h : (s.sc.readWord buf nbits).1 ≠ syncMark) :
    s.iteration buf nbits = { s with sc := (s.sc.readWord buf nbits).2.slide } := by
  unfold iteration
  dsimp only
  rw [if_pos h]

theorem iteration_moved (h8 : 8 ≤ nbits) (hcap : nbits + 16 ≤ 2 ^ 32) (hpos : s.sc.pos < nbits)
    (h : (s.sc.readWord buf nbits).1 = syncMark) :
    ∃ k, Moved nbits (16 + k) s.sc.head (s.iteration buf nbits).sc.head := by
  have h1 := @Scanner.readWord_moved buf _ _ h8 hcap hpos
  have h2 := @Scanner.readWord_moved buf _ _ h8 hcap h1.inside
  have h3 := @Scanner.readWord_moved buf _ _ h8 hcap h2.inside
  unfold iteration
  dsimp only
  rw [if_neg (not_not.2 h)]
  split
  · exact ⟨_, h1.trans h2⟩
  · split
    · exact ⟨_, h1.trans (h2.trans h3)⟩
    · have ham := @Scanner.readChecked_moved buf _ { (((s.sc.readWord buf nbits).2.readWord buf nbits).2.readWord buf
        nbits).2 with crc := 0xCDB4 } h8 hcap h3.inside
      obtain ⟨k, hk⟩ := @mark_moved buf _ s h8 hcap _ ham.inside (Scanner.readChecked buf nbits
          { (((s.sc.readWord buf nbits).2.readWord buf nbits).2.readWord buf nbits).2 with crc := 0xCDB4 }).1
      exact ⟨_, h1.trans (h2.trans (h3.trans (ham.trans hk)))⟩

/-! ## The two ways off the track -/

/-- An ID is open, and a word that does not match has crossed the index: there are not fifteen bits
    to step back over. -/
def BadSlide (buf : List UInt8) (nbits : Nat) (s : ScanState) : Prop :=
  s.cur.isSome ∧ (s.sc.readWord buf nbits).1 ≠ syncMark ∧ (s.sc.readWord buf nbits).2.pos < 15

/-- An ID is still open where the index comes by for a second time. -/
def Laps (buf : List UInt8) (nbits : Nat) (s : ScanState) : Prop :=
  s.sc.wrapped = true ∧ (s.iteration buf nbits).cur.isSome ∧ (s.iteration buf nbits).sc.pos ≤ s.sc.pos

/-- The head is on the track, and so is all it has read. -/
structure OnTrack (nbits : Nat) (s : ScanState) : Prop where
  pos : s.running = true → s.sc.pos < nbits
  reads : ∀ p ∈ s.sc.reads, p < nbits

theorem running_of_wrapped (h : s.running = true) (hw : s.sc.wrapped = true) : s.cur.isSome := by
  rw [running, hw] at h
  exact h

/-- A round leaves the head on the track, and the next one starts further on. -/
theorem iteration_spec (h8 : 8 ≤ nbits) (hcap : nbits + 16 ≤ 2 ^ 32) (hon : s.OnTrack nbits)
    (hrun : s.running = true) (hslide : ¬ s.BadSlide buf nbits) :
    (s.iteration buf nbits).OnTrack nbits ∧
      ((s.iteration buf nbits).running = true → ¬ s.Laps buf nbits →
        left nbits (s.iteration buf nbits).sc.head < left nbits s.sc.head) := by
  have hpos : s.sc.head.pos < nbits := hon.pos hrun
  -- past the index with the second round begun, an ID is open, and only a lap goes back
  have hforward : ∀ {s' : ScanState}, s' = s.iteration buf nbits → s'.running = true → ¬ s.Laps buf nbits →
      s'.sc.wrapped = true → s.sc.wrapped = true → s.sc.pos < s'.sc.pos := by
    rintro s' rfl hrun' hlaps hw' hw
    by_contra hle
    exact hlaps ⟨hw, running_of_wrapped hrun' hw', Nat.not_lt.1 hle⟩
  by_cases hsync : (s.sc.readWord buf nbits).1 = syncMark
  · obtain ⟨k, hmoved⟩ := @iteration_moved buf _ _ h8 hcap hpos hsync
    refine ⟨⟨fun _ => hmoved.inside, hmoved.visited_lt hon.reads⟩, fun hrun' hlaps => ?_⟩
    refine left_lt hpos hmoved.kept fun hw => ?_
    rcases hmoved.lt_or_wrapped (by omega) with ⟨hlt, _⟩ | hw'
    · exact hlt
    · exact hforward rfl hrun' hlaps hw' (hw.symm.trans hw')
  · have hmoved := @Scanner.readWord_moved buf _ _ h8 hcap hpos
    have hin : (s.sc.readWord buf nbits).2.pos < nbits := hmoved.inside
    have heq := iteration_slide hsync
    rw [heq]
    by_cases hback : (s.sc.readWord buf nbits).2.pos < 15
    · -- stepping back would leave the track, but the loop ends here
      have hcur : s.cur = none := Option.not_isSome_iff_eq_none.1 fun hc => hslide ⟨hc, hsync, hback⟩
      have hw : (s.sc.readWord buf nbits).2.wrapped = true := by
        apply hmoved.around
        by_contra hlt
        have hahead : (s.sc.readWord buf nbits).2.pos = s.sc.pos + 16 :=
          (hmoved.straight (Nat.not_le.1 hlt)).1
        omega
      have hend : ¬ ({ s with sc := (s.sc.readWord buf nbits).2.slide } : ScanState).running = true := by
        rw [running, hcur]
        show ¬ (!(s.sc.readWord buf nbits).2.wrapped || false) = true
        rw [hw]
        decide
      exact ⟨⟨fun hr => absurd hr hend, hmoved.visited_lt hon.reads⟩, fun hr => absurd hr hend⟩
    · have hslid : (s.sc.readWord buf nbits).2.slide.pos = (s.sc.readWord buf nbits).2.pos - 15 :=
        sub32_of_le (Nat.not_lt.1 hback) (by omega)
      refine ⟨⟨fun _ => ?_, hmoved.visited_lt hon.reads⟩, fun hrun' hlaps => ?_⟩
      · show (s.sc.readWord buf nbits).2.slide.pos < nbits
        omega
      · have hkept : s.sc.wrapped = true → (s.sc.readWord buf nbits).2.slide.wrapped = true := hmoved.kept
        refine left_lt (b := (s.sc.readWord buf nbits).2.slide.head) hpos hkept fun hw => ?_
        by_cases hround : nbits ≤ s.sc.pos + 16
        · have hw' : (s.sc.readWord buf nbits).2.slide.wrapped = true := hmoved.around hround
          have hwas : (s.sc.readWord buf nbits).2.slide.wrapped = s.sc.wrapped := hw
          have hlt := hforward heq.symm hrun' hlaps hw' (hwas.symm.trans hw')
          exact hlt
        · have hahead : (s.sc.readWord buf nbits).2.pos = s.sc.pos + 16 :=
            (hmoved.straight (Nat.not_le.1 hround)).1
          show s.sc.pos < (s.sc.readWord buf nbits).2.slide.pos
          omega

/-! ## Whole runs -/

theorem onTrack_start (h : 0 < nbits) : OnTrack nbits {} := ⟨fun _ => h, fun _ hp => absurd hp List.not_mem_nil⟩

theorem Reached.onTrack (h8 : 8 ≤ nbits) (hcap : nbits + 16 ≤ 2 ^ 32)
    (hslide : ∀ s, Reached buf nbits s → s.running = true → ¬ s.BadSlide buf nbits) (h : Reached buf nbits s) :
    s.OnTrack nbits := by
  induction h with
  | start => exact onTrack_start (by omega)
  | next hs hrun ih => exact (iteration_spec h8 hcap ih hrun (hslide _ hs hrun)).1

theorem loop_isSome (h8 : 8 ≤ nbits) (hcap : nbits + 16 ≤ 2 ^ 32)
    (hslide : ∀ s, Reached buf nbits s → s.running = true → ¬ s.BadSlide buf nbits)
    (hlaps : ∀ s, Reached buf nbits s → s.running = true → ¬ s.Laps buf nbits) (fuel : Nat) :
    ∀ s, Reached buf nbits s → left nbits s.sc.head < fuel → (loop buf nbits (fuel + 1) s).isSome := by
  induction fuel with
  | zero => exact fun s _ hleft => absurd hleft (Nat.not_lt_zero _)
  | succ fuel ih =>
    intro s hs hleft
    rw [loop]
    by_cases hrun : s.running = true
    · rw [if_pos hrun]
      have hnext := Reached.next hs hrun
      by_cases hrun' : (s.iteration buf nbits).running = true
      · have hlt := (iteration_spec h8 hcap (hs.onTrack h8 hcap hslide) hrun (hslide s hs hrun)).2 hrun'
          (hlaps s hs hrun)
        exact ih _ hnext (by omega)
      · rw [loop, if_neg hrun']
        rfl
    · rw [if_neg hrun]
      rfl

/-! What a round has read stays noted. -/

theorem reads_idMark (s : ScanState) (sc : Scanner) : sc.reads <:+ (s.idMark buf nbits sc).sc.reads := by
  unfold idMark
  split
  · exact List.suffix_refl _
  · dsimp only
    have hc := @Scanner.reads_readChecked buf nbits sc
    have hh := hc.trans (@Scanner.reads_readChecked buf nbits _)
    have hr := hh.trans (@Scanner.reads_readChecked buf nbits _)
    have hn := hr.trans (@Scanner.reads_readChecked buf nbits _)
    have hcrc := hn.trans (@Scanner.reads_readCrc buf nbits 2 _)
    split
    · exact hcrc
    · exact hcrc

theorem reads_readField (sc : Scanner) (size : Nat) (single : Bool) :
    sc.reads <:+ (sc.readField buf nbits size single).2.reads := by
  have hbody := @Scanner.reads_readCrc buf nbits (size + 2) sc
  unfold Scanner.readField
  generalize sc.readCrc buf nbits (size + 2) = body at hbody ⊢
  generalize 4096 - size = more
  dsimp only
  split
  · exact hbody.trans (Scanner.reads_readCrc more body)
  · exact hbody

theorem reads_dataField (s : ScanState) (am : UInt8) (i : Nat) (sc : Scanner) :
    sc.reads <:+ (s.dataField buf nbits am i sc).sc.reads := by
  rw [dataField]
  by_cases hoff : sub32 sc.lastPos s.headerOff / 16 < 32 ∨ 64 ≤ sub32 sc.lastPos s.headerOff / 16
  · simp only [hoff, if_true]
    exact List.suffix_refl _
  · simp only [hoff, if_false]
    exact reads_readField sc _ _

theorem reads_mark (s : ScanState) (am : UInt8) (sc : Scanner) :
    sc.reads <:+ (s.mark buf nbits am sc).sc.reads := by
  unfold mark
  split
  · exact reads_idMark s sc
  · split
    · cases s.cur with
      | none => exact List.suffix_refl _
      | some i => exact reads_dataField s am i sc
    · exact List.suffix_refl _

theorem reads_iteration (s : ScanState) :
    (s.sc.readWord buf nbits).2.reads <:+ (s.iteration buf nbits).sc.reads := by
  have h2 := @Scanner.reads_readWord buf nbits (s.sc.readWord buf nbits).2
  have h3 := @Scanner.reads_readWord buf nbits ((s.sc.readWord buf nbits).2.readWord buf nbits).2
  unfold iteration
  dsimp only
  split
  · exact List.suffix_refl _
  · split
    · exact h2
    · split
      · exact h2.trans h3
      · exact (h2.trans h3).trans ((Scanner.reads_readChecked
          { (((s.sc.readWord buf nbits).2.readWord buf nbits).2.readWord buf nbits).2 with crc := 0xCDB4 }).trans
          (reads_mark s _ _))

theorem off_of_badSlide (hcap : nbits + 16 ≤ 2 ^ 32) (hs : Reached buf nbits s) (hrun : s.running = true)
    (hbad : s.BadSlide buf nbits) : ∃ s', Reached buf nbits s' ∧ ∃ p ∈ s'.sc.reads, nbits ≤ p := by
  obtain ⟨hcur, hsync, hback⟩ := hbad
  have hnext := Reached.next hs hrun
  have hpos : (s.iteration buf nbits).sc.pos = (s.sc.readWord buf nbits).2.pos + 2 ^ 32 - 15 := by
    rw [iteration_slide hsync]
    exact sub32_of_lt hback
  have hopen : (s.iteration buf nbits).running = true := by
    rw [iteration_slide hsync, running]
    show (_ || s.cur.isSome) = true
    rw [hcur, Bool.or_true]
  refine ⟨_, .next hnext hopen, (s.iteration buf nbits).sc.pos, ?_, by omega⟩
  exact (reads_iteration _).subset ((Scanner.readWord_reads _).subset List.mem_cons_self)

/-! ## Tracks shorter than a byte -/

theorem mem_reads_round (buf : List UInt8) {n : Nat} (h : n ≤ 8) : 8 - n ∈ (iteration buf n {}).sc.reads := by
  have hwrap : n ≤ (({} : Scanner).pos + 8) % 2 ^ 32 := h
  have hpos : (Scanner.readByte buf n {}).2.pos = 8 - n :=
    congrArg (fun r : UInt8 × Scanner => r.2.pos) (if_pos hwrap)
  have hmem : 8 - n ∈ (Scanner.readWord buf n {}).2.reads := by
    have hhead := congrArg Cursor.visited (@Scanner.head_readWord buf n {})
    simp only [Scanner.head, Scanner.readByte_reads] at hhead
    rw [hhead]
    exact List.mem_cons.2 (.inl hpos.symm)
  exact (reads_iteration {}).subset hmem

theorem short_round : ∀ n < 3, ∀ b < 256,
    (iteration [UInt8.ofNat b, 0, 0] (5 + n) {}).running = false ∧
      ∀ p ∈ (iteration [UInt8.ofNat b, 0, 0] (5 + n) {}).sc.reads, p < 5 + n := by
  intro n hn
  obtain rfl | rfl | rfl : n = 0 ∨ n = 1 ∨ n = 2 := by omega
  all_goals decide +kernel

end ScanState

/-! ## The scanner as a whole -/

section ScanTrack

open ScanState

variable {mfm : CleanTrackMFM}

/-- Whatever the scanner reads is on the track and in its buffer; the byte behind is at most one of
    the two spare ones. -/
def InBounds (mfm : CleanTrackMFM) : Prop :=
  mfm.nbits ≠ 0 → ∀ s, Reached mfm.padded mfm.nbits s →
    ∀ p ∈ s.sc.reads, p < mfm.nbits ∧ p / 8 < mfm.bits.length ∧ p / 8 + 1 < mfm.padded.length

theorem inBounds_iff (h : mfm.Whole) : InBounds mfm ↔
    (mfm.nbits ≠ 0 → ∀ s, Reached mfm.padded mfm.nbits s → ∀ p ∈ s.sc.reads, p < mfm.nbits) := by
  refine ⟨fun hin h0 s hs p hp => (hin h0 s hs p hp).1, fun hin h0 s hs p hp => ?_⟩
  have hlt := hin h0 s hs p hp
  have hlen := h.length
  have hpadded : mfm.padded.length = mfm.bits.length + 2 := by rw [CleanTrackMFM.padded, List.length_append]; rfl
  exact ⟨hlt, by omega, by omega⟩

theorem CleanTrackMFM.Whole.short (h : mfm.Whole) (h0 : mfm.nbits ≠ 0) (h8 : mfm.nbits < 8) :
    ∃ b < 256, mfm.padded = [UInt8.ofNat b, 0, 0] := by
  have hlen : mfm.bits.length = 1 := by
    have := h.length
    omega
  obtain ⟨b, hb⟩ := List.length_eq_one_iff.1 hlen
  refine ⟨b.toNat, b.toNat_lt, ?_⟩
  rw [CleanTrackMFM.padded, hb, UInt8.ofNat_toNat]
  rfl

theorem round_of_short (h : mfm.Whole) (h5 : 5 ≤ mfm.nbits) (h8 : mfm.nbits < 8) :
    (iteration mfm.padded mfm.nbits {}).running = false ∧
      ∀ p ∈ (iteration mfm.padded mfm.nbits {}).sc.reads, p < mfm.nbits := by
  obtain ⟨b, hb, hpadded⟩ := h.short (by omega) h8
  have hround := short_round (mfm.nbits - 5) (by omega) b hb
  rwa [show 5 + (mfm.nbits - 5) = mfm.nbits by omega, ← hpadded] at hround

theorem reached_short {s : ScanState} (h : mfm.Whole) (h5 : 5 ≤ mfm.nbits) (h8 : mfm.nbits < 8)
    (hs : Reached mfm.padded mfm.nbits s) :
    s = {} ∨ s.running = false ∧ ∀ p ∈ s.sc.reads, p < mfm.nbits := by
  induction hs with
  | start => exact .inl rfl
  | next hs hrun ih =>
    rcases ih with rfl | ⟨hend, _⟩
    · exact .inr (round_of_short h h5 h8)
    · rw [hend] at hrun
      exact absurd hrun Bool.false_ne_true

theorem five_le_of_inBounds (h : mfm.Whole) (h0 : mfm.nbits ≠ 0) (hin : InBounds mfm) : 5 ≤ mfm.nbits := by
  by_contra hlt
  have hmem := mem_reads_round mfm.padded (n := mfm.nbits) (by omega)
  have hp := (inBounds_iff h).1 hin h0 _ (.next .start rfl) _ hmem
  omega

/-- The sector scanner stays on the track exactly where the track has no bits or at least five, and
    no word that does not match crosses the index with an ID open. Where moreover no ID stays open
    until the index has come by twice, it returns. -/
theorem scan_track_safe (h : mfm.Whole) (hcap : mfm.nbits + 16 ≤ 2 ^ 32) :
    (InBounds mfm ↔ mfm.nbits = 0 ∨ 5 ≤ mfm.nbits ∧
      ∀ s, Reached mfm.padded mfm.nbits s → s.running = true → ¬ s.BadSlide mfm.padded mfm.nbits) ∧
    (mfm.nbits = 0 ∨ 5 ≤ mfm.nbits ∧
      (∀ s, Reached mfm.padded mfm.nbits s → s.running = true →
        ¬ s.BadSlide mfm.padded mfm.nbits ∧ ¬ s.Laps mfm.padded mfm.nbits) →
      ∃ fuel, (scanTrack fuel mfm).isSome) := by
  refine ⟨⟨fun hin => ?_, fun hsafe => (inBounds_iff h).2 fun h0 s hs => ?_⟩, fun hsafe => ?_⟩
  · by_cases h0 : mfm.nbits = 0
    · exact .inl h0
    · refine .inr ⟨five_le_of_inBounds h h0 hin, fun s hs hrun hbad => ?_⟩
      obtain ⟨s', hs', p, hp, hoff⟩ := off_of_badSlide hcap hs hrun hbad
      exact absurd ((inBounds_iff h).1 hin h0 s' hs' p hp) (Nat.not_lt.2 hoff)
  · obtain ⟨h5, hslide⟩ := hsafe.resolve_left h0
    -- A track of five to seven bits ends in its first round.
    by_cases h8 : mfm.nbits < 8
    · rcases reached_short h h5 h8 hs with rfl | ⟨_, hreads⟩
      · exact (onTrack_start (by omega)).reads
      · exact hreads
    · exact (hs.onTrack (by omega) hcap hslide).reads
  · unfold scanTrack
    by_cases h0 : mfm.nbits = 0
    · exact ⟨0, by rw [if_pos h0]; rfl⟩
    · obtain ⟨h5, hall⟩ := hsafe.resolve_left h0
      by_cases h8 : mfm.nbits < 8
      · refine ⟨2, ?_⟩
        have hend := (round_of_short h h5 h8).1
        rw [if_neg h0, Option.isSome_map, loop, if_pos (show ({} : ScanState).running = true from rfl), loop,
          if_neg (by rw [hend]; exact Bool.false_ne_true)]
        rfl
      · refine ⟨left mfm.nbits ({} : ScanState).sc.head + 2, ?_⟩
        rw [if_neg h0, Option.isSome_map]
        exact loop_isSome (by omega) hcap (fun s hs hr => (hall s hs hr).1) (fun s hs hr => (hall s hs hr).2) _ _
          .start (Nat.lt_succ_self _)

theorem reached_le {buf : List UInt8} {nbits k : Nat} {s : ScanState}
    (hend : (Nat.repeat (iteration buf nbits) k {}).running = false) (hs : Reached buf nbits s) :
    ∃ j ≤ k, s = Nat.repeat (iteration buf nbits) j {} := by
  induction hs with
  | start => exact ⟨0, Nat.zero_le k, rfl⟩
  | next hs hrun ih =>
    obtain ⟨j, hj, rfl⟩ := ih
    rcases Nat.eq_or_lt_of_le hj with rfl | hlt
    · rw [hend] at hrun
      exact absurd hrun Bool.false_ne_true
    · exact ⟨j + 1, hlt, rfl⟩

/-- Two IDs, seven marks of no field, and for the second ID a data field that goes round the index. -/
def twoIds : CleanTrackMFM where
  bits := [0x44, 0x89, 0x44, 0x89, 0x44, 0x89, 0x55, 0x54, 0xAA, 0xAA, 0xAA, 0xAA, 0xAA, 0xA9, 0x2A, 0xAA, 0x54, 0x44,
      0xA4, 0x51, 0x44, 0x89, 0x44, 0x89, 0x44, 0x89, 0x55, 0x54, 0xAA, 0xAA, 0xAA, 0xAA, 0xAA, 0xA4, 0xAA, 0xAA, 0x45,
      0x55, 0x15, 0x54] ++
    (List.replicate 7 [0x44, 0x89, 0x44, 0x89, 0x44, 0x89, 0x12, 0x54]).flatten ++
    [0x44, 0x89, 0x44, 0x89, 0x44, 0x89, 0x55, 0x45]
  nbits := 832

/-- The scanner after so many rounds. -/
def twoIdsRound (k : Nat) : ScanState := Nat.repeat (iteration twoIds.padded twoIds.nbits) k {}

theorem twoIds_rounds : (twoIdsRound 10).running = false ∧ ∀ k < 10, (twoIdsRound k).sc.wrapped = false ∧
    ((twoIdsRound k).cur.isSome = true → ((twoIdsRound k).sc.readWord twoIds.padded twoIds.nbits).1 = syncMark ∨
      15 ≤ ((twoIdsRound k).sc.readWord twoIds.padded twoIds.nbits).2.pos) := by decide

theorem scan_track_safe_twoIds : InBounds twoIds ∧ (∃ fuel, (scanTrack fuel twoIds).isSome) ∧
    (scanTrack 11 twoIds).map (fun r => r.1.map SectorTmp.hasData) = some [false, true] := by
  have hwhole : twoIds.Whole := ⟨rfl, by decide⟩
  obtain ⟨hiff, hreturns⟩ := scan_track_safe hwhole (by decide)
  have hall : ∀ s, Reached twoIds.padded twoIds.nbits s → s.running = true →
      ¬ s.BadSlide twoIds.padded twoIds.nbits ∧ ¬ s.Laps twoIds.padded twoIds.nbits := by
    intro s hs hrun
    obtain ⟨k, hk, rfl⟩ := reached_le twoIds_rounds.1 hs
    have hlt : k < 10 := by
      rcases Nat.eq_or_lt_of_le hk with rfl | hlt
      · exact absurd (twoIds_rounds.1.symm.trans hrun) Bool.false_ne_true
      · exact hlt
    obtain ⟨hwrapped, hslide⟩ := twoIds_rounds.2 k hlt
    constructor
    · rintro ⟨hcur, hword, hpos⟩
      rcases hslide hcur with hsync | hroom
      · exact hword hsync
      · exact Nat.not_lt.2 hroom hpos
    · rintro ⟨hlap, -⟩
      exact Bool.false_ne_true (hwrapped.symm.trans hlap)
  exact ⟨hiff.2 (.inr ⟨by decide, fun s hs hrun => (hall s hs hrun).1⟩), hreturns (.inr ⟨by decide, hall⟩), by decide⟩

/-- An ID with a good CRC, and one more word to the index: no data field follows. -/
def idAtIndex : CleanTrackMFM where
  bits := [0x44, 0x89, 0x44, 0x89, 0x44, 0x89, 0x55, 0x54, 0xAA, 0xAA, 0xAA, 0xAA, 0x52, 0xA9, 0x2A, 0xA4, 0x51, 0x52,
    0xA5, 0x45, 0xAA, 0xAA]
  nbits := 176

/-- The last word crosses the index with the ID open, and the position underflows. -/
theorem idAtIndex_off : idAtIndex.Whole ∧ ¬ InBounds idAtIndex := by
  refine ⟨⟨rfl, by decide⟩, fun hin => ?_⟩
  have h1 : Reached idAtIndex.padded idAtIndex.nbits _ := .next .start (by decide)
  have h2 := Reached.next h1 (by decide)
  have h3 := Reached.next h2 (by decide)
  have hmem : 2 ^ 32 - 15 ∈ (iteration idAtIndex.padded idAtIndex.nbits (iteration idAtIndex.padded idAtIndex.nbits
      (iteration idAtIndex.padded idAtIndex.nbits {}))).sc.reads := by decide
  exact absurd (hin (by decide) _ h3 _ hmem).1 (by decide)

end ScanTrack

end Koncepcja.Ipf
