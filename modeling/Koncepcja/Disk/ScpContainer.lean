import Koncepcja.Lib.ByteBuf

/-!
# The SCP Container

The SuperCard Pro layout as `src/scp_write.cpp` assembles it: a header and a track offset table, then
for every present cylinder a `TRK` block with one entry per revolution and the revolutions' flux words
behind it. All offsets are 32 bits wide.

## Main results

- `assembleTracks_run`: in a container under 4 GiB every table slot reads back as the block of its own
  cylinder, each revolution with the words it was given.
-/

namespace Koncepcja.Disk

open Koncepcja.Bytes

/-! ## Constants -/

/-- Byte offset of the track offset table. -/
def kScpTlutOff : Nat := 0x10
/-- Slots of the track offset table. -/
def kScpTlutSlots : Nat := 168
/-- Header and track offset table. -/
def kScpTlutEnd : Nat := kScpTlutOff + 4 * kScpTlutSlots
/-- Slot space / 2 (side 0). -/
def kScpMaxCyls : Nat := 84
/-- `SCP`. -/
def scpMagic : List UInt8 := [0x53, 0x43, 0x50]
/-- `TRK`. -/
def trkMark : List UInt8 := [0x54, 0x52, 0x4B]

/-! ## Writing -/

/-- `FluxRev`: one revolution's flux, ready to emit: its index-to-index ticks and its raw big-endian
    words. -/
structure FluxRev where
  duration : Nat
  words : List UInt8
  whole : words.length % 2 = 0

/-- The fixed header fields and the empty track offset table. -/
def scpHeader (revs cyls : Nat) : List UInt8 :=
  [0x53, 0x43, 0x50, 0x19, 0x80, UInt8.ofNat revs, 0, UInt8.ofNat ((cyls - 1) * 2), 0x01, 16, 0, 0]
    ++ List.replicate (kScpTlutEnd - 12) 0

/-- One revolution of the block at `toff`: its words at the end of the container and its entry
    (duration, word count, data offset) at `entry`. -/
def putFlux (toff entry : Nat) (scp : List UInt8) (flux : FluxRev) : List UInt8 :=
  let grown := scp ++ flux.words
  let grown := put32le grown entry flux.duration
  let grown := put32le grown (entry + 4) (flux.words.length / 2)
  put32le grown (entry + 8) (scp.length - toff)

/-- The revolutions of a block, each behind the one before. -/
def putFluxes (toff : Nat) : Nat → List UInt8 → List FluxRev → List UInt8
  | _, scp, [] => scp
  | entry, scp, flux :: fluxes => putFluxes toff (entry + 12) (putFlux toff entry scp flux) fluxes

/-- A present cylinder: its slot, its `TRK` header and its revolutions. -/
def putFluxTrack (scp : List UInt8) (cyl : Nat) (fluxes : List FluxRev) : List UInt8 :=
  let toff := scp.length
  let scp := put32le scp (kScpTlutOff + 4 * (cyl * 2)) toff
  let scp := scp ++ [0x54, 0x52, 0x4B, UInt8.ofNat (cyl * 2)]
  putFluxes toff scp.length (scp ++ List.replicate (12 * fluxes.length) 0) fluxes

/-- `assemble`'s loop from cylinder `cyl` on; `none` is a cylinder that is not present, and one with
    another revolution count is skipped. -/
def assembleTracks (revs : Nat) : Nat → List UInt8 → List (Option (List FluxRev)) → List UInt8
  | _, scp, [] => scp
  | cyl, scp, none :: cyls => assembleTracks revs (cyl + 1) scp cyls
  | cyl, scp, some fluxes :: cyls =>
    if fluxes.length ≠ revs then assembleTracks revs (cyl + 1) scp cyls
    else assembleTracks revs (cyl + 1) (putFluxTrack scp cyl fluxes) cyls

/-- The container checksum: every byte from 0x10 to the end. -/
def scpChecksum (scp : List UInt8) : Nat := ((scp.drop 0x10).map UInt8.toNat).sum

def assemble (cyls : List (Option (List FluxRev))) (revs : Nat) : List UInt8 :=
  let scp := assembleTracks revs 0 (scpHeader revs cyls.length) cyls
  put32le scp 0x0C (scpChecksum scp)

/-! ## Reading a block back -/

/-- The entry at `entry` of the block at `toff` describes a revolution. -/
structure RevAt (scp : List UInt8) (toff entry : Nat) (flux : FluxRev) : Prop where
  words : rd32le scp (entry + 4) = flux.words.length / 2
  inside : toff + rd32le scp (entry + 8) + flux.words.length ≤ scp.length
  data : slice scp (toff + rd32le scp (entry + 8)) flux.words.length = flux.words

/-- The block at `toff` holds the revolutions. -/
structure TrackAt (scp : List UInt8) (toff : Nat) (fluxes : List FluxRev) : Prop where
  behind : kScpTlutEnd ≤ toff
  inside : toff + 4 + 12 * fluxes.length ≤ scp.length
  mark : slice scp toff 3 = trkMark
  revs : ∀ r flux, fluxes[r]? = some flux → RevAt scp toff (toff + 4 + 12 * r) flux

theorem RevAt.keeps {keep : Nat → Prop} {a b : List UInt8} {toff entry : Nat} {flux : FluxRev}
    (h : RevAt a toff entry flux) (hab : Keeps keep a b) (hentry : entry + 12 ≤ a.length)
    (hfields : ∀ i, entry + 4 ≤ i → i < entry + 12 → keep i)
    (hdata : ∀ i, toff + rd32le a (entry + 8) ≤ i → keep i) : RevAt b toff entry flux := by
  have hwords : rd32le b (entry + 4) = rd32le a (entry + 4) :=
    hab.rd32le (by omega) fun i hlo hhi => hfields i hlo (by omega)
  have hoff : rd32le b (entry + 8) = rd32le a (entry + 8) :=
    hab.rd32le (by omega) fun i hlo hhi => hfields i (by omega) (by omega)
  constructor
  · rw [hwords, h.words]
  · rw [hoff]
    exact Nat.le_trans h.inside hab.length_le
  · rw [hoff, hab.slice h.inside fun i hlo _ => hdata i hlo, h.data]

theorem TrackAt.keeps {keep : Nat → Prop} {a b : List UInt8} {toff : Nat} {fluxes : List FluxRev}
    (h : TrackAt a toff fluxes) (hab : Keeps keep a b) (hkeep : ∀ i, kScpTlutEnd ≤ i → keep i) :
    TrackAt b toff fluxes := by
  have hin := h.inside
  have hbehind := h.behind
  constructor
  · exact hbehind
  · exact Nat.le_trans hin hab.length_le
  · rw [hab.slice (by omega) fun i hlo _ => hkeep i (by omega), h.mark]
  · intro r flux hr
    have hlt : r < fluxes.length := (List.getElem?_eq_some_iff.mp hr).1
    exact (h.revs r flux hr).keeps hab (by omega) (fun i hlo _ => hkeep i (by omega))
      (fun i hlo => hkeep i (by omega))

/-! ## One revolution -/

theorem putFlux_keeps (toff entry : Nat) (scp : List UInt8) (flux : FluxRev) :
    Keeps (fun i => i < entry ∨ entry + 12 ≤ i) scp (putFlux toff entry scp flux) := by
  refine (Keeps.append _ scp flux.words).trans ?_
  -- the three fields of the entry lie side by side
  refine ((Keeps.put32le _ entry _).mono fun i hi => ?_).trans
    (((Keeps.put32le _ (entry + 4) _).mono fun i hi => ?_).trans
      ((Keeps.put32le _ (entry + 8) _).mono fun i hi => ?_))
  all_goals omega

theorem putFlux_length (toff entry : Nat) (scp : List UInt8) (flux : FluxRev) :
    (putFlux toff entry scp flux).length = scp.length + flux.words.length := by
  simp [putFlux]

theorem putFlux_revAt {toff entry : Nat} {scp : List UInt8} {flux : FluxRev}
    (hentry : entry + 12 ≤ scp.length) (htoff : toff ≤ scp.length)
    (hsize : (putFlux toff entry scp flux).length < 2 ^ 32) :
    RevAt (putFlux toff entry scp flux) toff entry flux := by
  rw [putFlux_length] at hsize
  have hwords : rd32le (putFlux toff entry scp flux) (entry + 4) = flux.words.length / 2 := by
    rw [putFlux, (Keeps.put32le _ (entry + 8) _).rd32le
        (by simp only [put32le_length, List.length_append]; omega) (fun i _ hhi => Or.inl (by omega)),
      rd32le_put32le _ (by simp only [put32le_length, List.length_append]; omega),
      Nat.mod_eq_of_lt (by omega)]
  have hoff : rd32le (putFlux toff entry scp flux) (entry + 8) = scp.length - toff := by
    rw [putFlux, rd32le_put32le _ (by simp only [put32le_length, List.length_append]; omega),
      Nat.mod_eq_of_lt (by omega)]
  have hpos : toff + (scp.length - toff) = scp.length := by omega
  -- The table entry is all that changes in what was there before.
  have hfields : Keeps (fun i => i < entry ∨ entry + 12 ≤ i) (scp ++ flux.words)
      (putFlux toff entry scp flux) := by
    refine ((Keeps.put32le _ entry _).mono fun i hi => ?_).trans
      (((Keeps.put32le _ (entry + 4) _).mono fun i hi => ?_).trans
        ((Keeps.put32le _ (entry + 8) _).mono fun i hi => ?_))
    all_goals omega
  constructor
  · exact hwords
  · exact Nat.le_of_eq (by rw [hoff, hpos, putFlux_length])
  · rw [hoff, hpos, hfields.slice (Nat.le_of_eq List.length_append.symm) (fun i hlo _ => Or.inr (by omega)), slice,
      List.drop_left, List.take_length]

/-! ## One block -/

theorem putFluxes_run {toff : Nat} (fluxes : List FluxRev) {entry : Nat} {scp : List UInt8}
    (hentry : entry + 12 * fluxes.length ≤ scp.length) (htoff : toff ≤ entry)
    (hsize : (putFluxes toff entry scp fluxes).length < 2 ^ 32) :
    Keeps (fun i => i < entry ∨ entry + 12 * fluxes.length ≤ i) scp (putFluxes toff entry scp fluxes) ∧
      ∀ r flux, fluxes[r]? = some flux →
        RevAt (putFluxes toff entry scp fluxes) toff (entry + 12 * r) flux := by
  induction fluxes generalizing entry scp with
  | nil => exact ⟨Keeps.refl _ _, fun r flux h => by simp at h⟩
  | cons flux fluxes ih =>
    rw [List.length_cons] at hentry
    rw [putFluxes] at hsize ⊢
    have hlen := putFlux_length toff entry scp flux
    obtain ⟨hkeeps, hrevs⟩ := @ih (entry + 12) (putFlux toff entry scp flux) (by omega)
      (by omega) hsize
    have hfirst : RevAt (putFlux toff entry scp flux) toff entry flux :=
      putFlux_revAt (by omega) (by omega) (Nat.lt_of_le_of_lt hkeeps.length_le hsize)
    rw [List.length_cons]
    constructor
    · exact ((putFlux_keeps toff entry scp flux).mono fun i hi => by omega).trans
        (hkeeps.mono fun i hi => by omega)
    · intro r flux' hr
      -- The entry of this revolution is in front of all that is written later.
      match r with
      | 0 =>
        obtain rfl : flux = flux' := by simpa using hr
        have hoff : rd32le (putFlux toff entry scp flux) (entry + 8) = scp.length - toff := by
          rw [putFlux, rd32le_put32le _ (by simp only [put32le_length, List.length_append]; omega),
            Nat.mod_eq_of_lt]
          have := hkeeps.length_le
          omega
        exact hfirst.keeps hkeeps (by omega) (fun i _ hhi => Or.inl (by omega))
          (fun i hlo => Or.inr (by omega))
      | r + 1 =>
        have hnext := hrevs r flux' (by simpa using hr)
        rwa [show entry + 12 + 12 * r = entry + 12 * (r + 1) by omega] at hnext

theorem putFluxTrack_run {scp : List UInt8} {cyl : Nat} {fluxes : List FluxRev}
    (hbase : kScpTlutEnd ≤ scp.length) (hcyl : cyl < kScpMaxCyls)
    (hsize : (putFluxTrack scp cyl fluxes).length < 2 ^ 32) :
    Keeps (fun i => i < kScpTlutOff + 8 * cyl ∨ kScpTlutOff + 8 * cyl + 4 ≤ i) scp (putFluxTrack scp cyl fluxes) ∧
      rd32le (putFluxTrack scp cyl fluxes) (kScpTlutOff + 8 * cyl) = scp.length ∧
      TrackAt (putFluxTrack scp cyl fluxes) scp.length fluxes := by
  have hslot : kScpTlutOff + 4 * (cyl * 2) = kScpTlutOff + 8 * cyl := by omega
  simp only [kScpTlutEnd, kScpTlutOff, kScpTlutSlots, kScpMaxCyls] at hbase hcyl
  rw [putFluxTrack, hslot] at hsize ⊢
  set slotted := put32le scp (kScpTlutOff + 8 * cyl) scp.length with hslotted
  set marked := slotted ++ [0x54, 0x52, 0x4B, UInt8.ofNat (cyl * 2)] with hmarked
  have hlen : marked.length = scp.length + 4 := by simp [hmarked, hslotted]
  have hslotlen : slotted.length = scp.length := by simp [hslotted]
  have hfull : (marked ++ List.replicate (12 * fluxes.length) 0).length = scp.length + 4 + 12 * fluxes.length := by
    rw [List.length_append, List.length_replicate, hlen]
  rw [hlen] at hsize ⊢
  obtain ⟨hkeeps, hrevs⟩ := putFluxes_run fluxes (Nat.le_of_eq hfull.symm) (Nat.le_add_right _ 4) hsize
  have htotal := hkeeps.length_le
  rw [hfull] at htotal
  -- the block's own entries lie behind the mark
  have hmarked_keeps : Keeps (fun i => i < scp.length + 4) marked
      (putFluxes scp.length (scp.length + 4) (marked ++ List.replicate (12 * fluxes.length) 0) fluxes) :=
    (Keeps.append _ marked _).trans (hkeeps.mono fun i hi => Or.inl (by omega))
  have hslotted_keeps : Keeps (fun i => i < scp.length) slotted
      (putFluxes scp.length (scp.length + 4) (marked ++ List.replicate (12 * fluxes.length) 0) fluxes) :=
    (Keeps.append _ slotted _).trans (hmarked_keeps.mono fun i hi => by omega)
  refine ⟨?_, ?_, ?_⟩
  · constructor
    · omega
    · intro i hi hkeep
      rw [hslotted_keeps.byteAt i (by omega) hi, hslotted]
      exact byteAt_put32le_of_ne _ _ hkeep
  · rw [hslotted_keeps.rd32le (by simp only [kScpTlutOff]; omega)
        (fun i _ hhi => by simp only [kScpTlutOff] at hhi; omega), hslotted,
      rd32le_put32le _ (by simp only [kScpTlutOff]; omega), Nat.mod_eq_of_lt (by omega)]
  · constructor
    · simp only [kScpTlutEnd, kScpTlutOff, kScpTlutSlots]
      omega
    · omega
    · rw [hmarked_keeps.slice (by omega) (fun i _ hhi => by omega), slice, hmarked, ← hslotlen, List.drop_left]
      rfl
    · exact hrevs

/-! ## The whole table -/

/-- The slot of a cylinder: empty where nothing was written, else its block. -/
def SlotHolds (scp : List UInt8) (revs cyl : Nat) (entry : Option (List FluxRev)) : Prop :=
  match entry with
  | none => rd32le scp (kScpTlutOff + 8 * cyl) = 0
  | some fluxes =>
    if fluxes.length = revs then TrackAt scp (rd32le scp (kScpTlutOff + 8 * cyl)) fluxes
    else rd32le scp (kScpTlutOff + 8 * cyl) = 0

theorem SlotHolds.keeps {keep : Nat → Prop} {a b : List UInt8} {revs cyl : Nat}
    {entry : Option (List FluxRev)} (h : SlotHolds a revs cyl entry) (hab : Keeps keep a b)
    (hcyl : cyl < kScpMaxCyls) (hbase : kScpTlutEnd ≤ a.length)
    (hslot : ∀ i, kScpTlutOff + 8 * cyl ≤ i → i < kScpTlutOff + 8 * cyl + 4 → keep i)
    (hkeep : ∀ i, kScpTlutEnd ≤ i → keep i) : SlotHolds b revs cyl entry := by
  simp only [kScpTlutEnd, kScpTlutOff, kScpTlutSlots, kScpMaxCyls] at hcyl hbase hslot
  have hread : rd32le b (kScpTlutOff + 8 * cyl) = rd32le a (kScpTlutOff + 8 * cyl) :=
    hab.rd32le (by simp only [kScpTlutOff]; omega) hslot
  unfold SlotHolds at h ⊢
  rw [hread]
  cases entry with
  | none => exact h
  | some fluxes =>
    simp only at h ⊢
    split
    · rename_i hlen
      rw [if_pos hlen] at h
      exact h.keeps hab hkeep
    · rename_i hlen
      rwa [if_neg hlen] at h

theorem putFluxes_length_le (toff entry : Nat) (scp : List UInt8) (fluxes : List FluxRev) :
    scp.length ≤ (putFluxes toff entry scp fluxes).length := by
  induction fluxes generalizing entry scp with
  | nil => exact Nat.le_refl _
  | cons flux fluxes ih =>
    have hlen := putFlux_length toff entry scp flux
    have hrest := ih (entry + 12) (putFlux toff entry scp flux)
    rw [putFluxes]
    omega

theorem putFluxTrack_length_le (scp : List UInt8) (cyl : Nat) (fluxes : List FluxRev) :
    scp.length ≤ (putFluxTrack scp cyl fluxes).length := by
  refine Nat.le_trans ?_ (putFluxes_length_le _ _ _ _)
  rw [List.length_append, List.length_append, put32le_length]
  omega

theorem assembleTracks_length_le (revs cyl : Nat) (scp : List UInt8)
    (cyls : List (Option (List FluxRev))) :
    scp.length ≤ (assembleTracks revs cyl scp cyls).length := by
  induction cyls generalizing cyl scp with
  | nil => exact Nat.le_refl _
  | cons entry cyls ih =>
    cases entry with
    | none => exact ih _ _
    | some fluxes =>
      rw [assembleTracks]
      split
      · exact ih _ _
      · exact Nat.le_trans (putFluxTrack_length_le _ _ _) (ih _ _)

/-- The bytes a cylinder's block takes. -/
def blockBytes : Option (List FluxRev) → Nat
  | none => 0
  | some fluxes => 4 + 12 * fluxes.length + (fluxes.map (·.words.length)).sum

theorem putFluxes_length (toff entry : Nat) (scp : List UInt8) (fluxes : List FluxRev) :
    (putFluxes toff entry scp fluxes).length = scp.length + (fluxes.map (·.words.length)).sum := by
  induction fluxes generalizing entry scp with
  | nil => rfl
  | cons flux fluxes ih =>
    rw [putFluxes, ih, putFlux_length, List.map_cons, List.sum_cons]
    omega

theorem assembleTracks_length_add (revs cyl : Nat) (scp : List UInt8) (cyls : List (Option (List FluxRev))) :
    (assembleTracks revs cyl scp cyls).length ≤ scp.length + (cyls.map blockBytes).sum := by
  induction cyls generalizing cyl scp with
  | nil => exact Nat.le_refl _
  | cons entry cyls ih =>
    rw [List.map_cons, List.sum_cons]
    cases entry with
    | none => exact Nat.le_trans (ih _ _) (by omega)
    | some fluxes =>
      rw [assembleTracks]
      split
      · exact Nat.le_trans (ih _ _) (by omega)
      · refine Nat.le_trans (ih _ _) ?_
        rw [putFluxTrack, putFluxes_length]
        simp only [List.length_append, put32le_length, List.length_replicate, List.length_cons, List.length_nil,
          blockBytes]
        omega

/-- **Every slot reads back**: from a container whose slots from `cyl` on are empty, the loop fills each
    slot with its own cylinder's block and touches nothing else. -/
theorem assembleTracks_run {revs : Nat} (cyls : List (Option (List FluxRev))) {cyl : Nat} {scp : List UInt8}
    (hbase : kScpTlutEnd ≤ scp.length) (hcyls : cyl + cyls.length ≤ kScpMaxCyls)
    (hempty : ∀ k, cyl ≤ k → k < kScpMaxCyls → rd32le scp (kScpTlutOff + 8 * k) = 0)
    (hsize : (assembleTracks revs cyl scp cyls).length < 2 ^ 32) :
    Keeps (fun i => i < kScpTlutOff + 8 * cyl ∨ kScpTlutOff + 8 * (cyl + cyls.length) ≤ i) scp
        (assembleTracks revs cyl scp cyls) ∧
      ∀ k entry, cyls[k]? = some entry →
        SlotHolds (assembleTracks revs cyl scp cyls) revs (cyl + k) entry := by
  induction cyls generalizing cyl scp with
  | nil => exact ⟨Keeps.refl _ _, fun k entry h => by simp at h⟩
  | cons entry cyls ih =>
    rw [List.length_cons] at hcyls
    have hsucc : ∀ k, cyl + 1 + k = cyl + (k + 1) := fun k => by omega
    -- a cylinder that is not written leaves its slot empty
    have hskip : assembleTracks revs cyl scp (entry :: cyls) = assembleTracks revs (cyl + 1) scp cyls →
        (∀ out, rd32le out (kScpTlutOff + 8 * cyl) = 0 → SlotHolds out revs cyl entry) →
        Keeps (fun i => i < kScpTlutOff + 8 * cyl ∨ kScpTlutOff + 8 * (cyl + (cyls.length + 1)) ≤ i) scp
            (assembleTracks revs cyl scp (entry :: cyls)) ∧
          ∀ k e, (entry :: cyls)[k]? = some e →
            SlotHolds (assembleTracks revs cyl scp (entry :: cyls)) revs (cyl + k) e := by
      intro heq hnone
      rw [heq] at hsize ⊢
      obtain ⟨hkeeps, hslots⟩ := @ih (cyl + 1) scp hbase (by omega)
        (fun k hlo hhi => hempty k (by omega) hhi) hsize
      refine ⟨hkeeps.mono fun i hi => by omega, fun k e hk => ?_⟩
      match k with
      | 0 =>
        obtain rfl : entry = e := by simpa using hk
        refine hnone _ ?_
        rw [Nat.add_zero, hkeeps.rd32le
          (by simp only [kScpTlutEnd, kScpTlutOff, kScpTlutSlots, kScpMaxCyls] at hbase hcyls ⊢; omega)
          (fun i _ hhi => Or.inl (by omega)), hempty cyl (Nat.le_refl _) (by omega)]
      | k + 1 => exact hsucc k ▸ hslots k e (by simpa using hk)
    rw [List.length_cons]
    cases entry with
    | none => exact hskip rfl fun out h => h
    | some fluxes =>
      by_cases hlen : fluxes.length = revs
      · have heq : assembleTracks revs cyl scp (some fluxes :: cyls) =
            assembleTracks revs (cyl + 1) (putFluxTrack scp cyl fluxes) cyls := by
          rw [assembleTracks, if_neg (not_not_intro hlen)]
        rw [heq] at hsize ⊢
        -- the size bound reaches the first block through the rest of the loop
        have hgrow : (putFluxTrack scp cyl fluxes).length < 2 ^ 32 :=
          Nat.lt_of_le_of_lt (assembleTracks_length_le _ _ _ _) hsize
        obtain ⟨hfirst, hslot, htrack⟩ := putFluxTrack_run hbase (by omega) hgrow
        have hbase' := Nat.le_trans hbase hfirst.length_le
        obtain ⟨hkeeps, hslots⟩ := @ih (cyl + 1) _ hbase' (by omega)
          (fun k hlo hhi => by
            rw [hfirst.rd32le
              (by simp only [kScpTlutEnd, kScpTlutOff, kScpTlutSlots, kScpMaxCyls] at hbase hhi ⊢; omega)
              (fun i hi _ => Or.inr (by omega)), hempty k (by omega) hhi]) hsize
        refine ⟨(hfirst.mono fun i hi => by omega).trans (hkeeps.mono fun i hi => by omega), fun k e hk => ?_⟩
        match k with
        | 0 =>
          obtain rfl : some fluxes = e := by simpa using hk
          have hholds : SlotHolds (putFluxTrack scp cyl fluxes) revs cyl (some fluxes) := by
            simp only [SlotHolds, if_pos hlen, hslot]
            exact htrack
          exact hholds.keeps hkeeps (by omega) hbase' (fun i _ hhi => Or.inl (by omega))
            (fun i hi => Or.inr (by
              simp only [kScpTlutEnd, kScpTlutOff, kScpTlutSlots, kScpMaxCyls] at hi hcyls ⊢
              omega))
        | k + 1 => exact hsucc k ▸ hslots k e (by simpa using hk)
      · refine hskip (by rw [assembleTracks, if_pos hlen]) fun out h => ?_
        simpa [SlotHolds, hlen] using h

end Koncepcja.Disk
