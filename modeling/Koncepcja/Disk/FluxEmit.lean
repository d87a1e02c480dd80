import Koncepcja.Disk.ScpContainer
import Koncepcja.Disk.MfmEncode
import Mathlib.Data.List.Forall2

/-!
# The SCP Flux Emitter

`src/ipf.cpp`: bit cells of captured revolutions to an in-memory SuperCard Pro container. A
transition on every `1` cell is the flux timeline, 80 ticks of 25 ns a cell.

## Main results

- `scpFromMfmTracks_congr`: the container depends on a capture's cells alone, not on how the
  capture's buffers hold them.
- `scpFromMfmTracks_ne_nil`: single-revolution captures always make a container.
- `scpFromMfmTracks_assemble`: it is the container assembled from the captures' flux.
-/

namespace Koncepcja.Disk

open Koncepcja.Bits Koncepcja.Bytes

/-! ## Constants -/

/-- 2 µs bitcell / 25 ns SCP tick. -/
def kTicksPerCell : Nat := 80
/-! ## Flux words -/

/-- The cell distance from each transition to the one before it; `gap` cells have gone by since
    the last. A trailing transition-less run is dropped. -/
def fluxGaps (gap : Nat) : List Bool → List Nat
  | [] => []
  | true :: cells => (gap + 1) :: fluxGaps 0 cells
  | false :: cells => fluxGaps (gap + 1) cells

/-- One interval as 16-bit flux words: 0x0000 carries 65536 ticks into the next word, and an exact
    multiple loses one tick because it has no encoding. -/
def fluxWords (t : Nat) : List Nat :=
  if t < 0x10000 then [t]
  else if t = 0x10000 then [0xFFFF]
  else 0 :: fluxWords (t - 0x10000)

/-- `push_flux_rev`: one revolution's flux words. The interval is a 32-bit product. -/
def pushFluxRev (rev : MfmRev) : List Nat :=
  (fluxGaps 0 rev.cells).flatMap fun gap => fluxWords (gap * kTicksPerCell % 2 ^ 32)

/-- `push_be16`. -/
def be16 (x : Nat) : List UInt8 := [UInt8.ofNat (x / 256), UInt8.ofNat x]

/-! ## The container -/

/-- One revolution of a track at `toff`: its flux words at the end of the container and its entry
    (index-to-index ticks, word count, data offset) at `entry`. -/
def putRev (toff entry : Nat) (scp : List UInt8) (rev : MfmRev) : List UInt8 :=
  let words := pushFluxRev rev
  let grown := scp ++ words.flatMap be16
  let grown := put32le grown entry (rev.nbits * kTicksPerCell)
  let grown := put32le grown (entry + 4) words.length
  put32le grown (entry + 8) (scp.length - toff)

/-- The revolutions of a track, each behind the one before. -/
def putRevs (toff : Nat) : Nat → List UInt8 → List MfmRev → List UInt8
  | _, scp, [] => scp
  | entry, scp, rev :: revs => putRevs toff (entry + 12) (putRev toff entry scp rev) revs

/-- A present cylinder: its slot, its `TRK` header and its revolutions. -/
def putTrack (scp : List UInt8) (cyl : Nat) (trk : MfmTrack) : List UInt8 :=
  let toff := scp.length
  let scp := put32le scp (kScpTlutOff + 4 * (cyl * 2)) toff
  let scp := scp ++ [0x54, 0x52, 0x4B, UInt8.ofNat (cyl * 2)]
  let scp' := scp ++ List.replicate (12 * trk.length) 0
  putRevs toff scp.length scp' trk

/-- The cylinders from `cyl` on; `none` where a present one has another revolution count. -/
def putTracks (revs : Nat) : Nat → List UInt8 → List MfmTrack → Option (List UInt8)
  | _, scp, [] => some scp
  | cyl, scp, trk :: cyls =>
    if trk.isEmpty then putTracks revs (cyl + 1) scp cyls
    else if trk.length ≠ revs then none
    else putTracks revs (cyl + 1) (putTrack scp cyl trk) cyls

/-- The revolution count of the first present cylinder; zero without one. -/
def revolutionCount (cyls : List MfmTrack) : Nat :=
  ((cyls.find? fun trk => !trk.isEmpty).map List.length).getD 0

/-- `scp_from_mfm_tracks`: empty on bad geometry. -/
def scpFromMfmTracks (cyls : List MfmTrack) : List UInt8 :=
  let revs := revolutionCount cyls
  if revs = 0 ∨ 255 < revs ∨ kScpMaxCyls < cyls.length then []
  else
    match putTracks revs 0 (scpHeader revs cyls.length) cyls with
    | none => []
    | some scp => put32le scp 0x0C (scpChecksum scp)

/-! ## The container depends on the cells alone -/

/-- Two captures with the same cells. -/
def SameCells (a b : MfmRev) : Prop := a.cells = b.cells

theorem SameCells.nbits {a b : MfmRev} (h : SameCells a b) : a.nbits = b.nbits := by
  have hlen := congrArg List.length h
  rwa [MfmRev.cells_length, MfmRev.cells_length] at hlen

theorem putRev_congr {a b : MfmRev} (h : SameCells a b) (toff entry : Nat) (scp : List UInt8) :
    putRev toff entry scp a = putRev toff entry scp b := by
  have hwords : pushFluxRev a = pushFluxRev b := by rw [pushFluxRev, pushFluxRev, h]
  rw [putRev, putRev, hwords, h.nbits]

theorem putRevs_congr {a b : MfmTrack} (h : List.Forall₂ SameCells a b) (toff entry : Nat)
    (scp : List UInt8) : putRevs toff entry scp a = putRevs toff entry scp b := by
  induction h generalizing entry scp with
  | nil => rfl
  | cons hrev _ ih => rw [putRevs, putRevs, putRev_congr hrev, ih]

theorem putTrack_congr {a b : MfmTrack} (h : List.Forall₂ SameCells a b) (scp : List UInt8)
    (cyl : Nat) : putTrack scp cyl a = putTrack scp cyl b := by
  rw [putTrack, putTrack, h.length_eq]
  exact putRevs_congr h _ _ _

/-- Two capture sets with the same cells, track for track. -/
def SameTracks (as bs : List MfmTrack) : Prop := List.Forall₂ (List.Forall₂ SameCells) as bs

theorem putTracks_congr {as bs : List MfmTrack} (h : SameTracks as bs) (revs cyl : Nat)
    (scp : List UInt8) : putTracks revs cyl scp as = putTracks revs cyl scp bs := by
  induction h generalizing cyl scp with
  | nil => rfl
  | @cons a b as bs htrk _ ih =>
    have hempty : a.isEmpty = b.isEmpty := by cases htrk <;> rfl
    rw [putTracks, putTracks, hempty, htrk.length_eq, putTrack_congr htrk, ih, ih]

theorem revolutionCount_congr {as bs : List MfmTrack} (h : SameTracks as bs) :
    revolutionCount as = revolutionCount bs := by
  induction h with
  | nil => rfl
  | @cons a b as bs htrk _ ih =>
    cases htrk with
    | nil => simpa [revolutionCount] using ih
    | cons _ hrest => simp [revolutionCount, hrest.length_eq]

/-- **The container is a function of the cells**: captures with the same cells, track for track,
    make the same container. -/
theorem scpFromMfmTracks_congr {as bs : List MfmTrack} (h : SameTracks as bs) :
    scpFromMfmTracks as = scpFromMfmTracks bs := by
  rw [scpFromMfmTracks, scpFromMfmTracks, revolutionCount_congr h, h.length_eq]
  simp only [putTracks_congr h]

/-! ## Single-revolution captures -/

theorem putTracks_single (cyls : List MfmTrack) (hsingle : ∀ trk ∈ cyls, trk.length ≤ 1) (cyl : Nat)
    (scp : List UInt8) :
    ∃ scp', putTracks 1 cyl scp cyls = some scp' ∧ scp.length ≤ scp'.length := by
  induction cyls generalizing cyl scp with
  | nil => exact ⟨scp, rfl, Nat.le_refl _⟩
  | cons trk cyls ih =>
    have hrest : ∀ trk ∈ cyls, trk.length ≤ 1 := fun t ht => hsingle t (List.mem_cons_of_mem _ ht)
    match trk, hsingle trk List.mem_cons_self with
    | [], _ => exact ih hrest _ _
    | [rev], _ =>
      obtain ⟨scp', hput, hlen⟩ := ih hrest (cyl + 1) (putTrack scp cyl [rev])
      refine ⟨scp', ?_, Nat.le_trans ?_ hlen⟩
      · rw [putTracks]
        simpa using hput
      · simp only [putTrack, putRevs, putRev, put32le_length, List.length_append]
        omega

theorem revolutionCount_single {cyls : List MfmTrack} (hsingle : ∀ trk ∈ cyls, trk.length ≤ 1)
    (hpresent : ∃ trk ∈ cyls, trk ≠ []) : revolutionCount cyls = 1 := by
  obtain ⟨trk, htrk, hne⟩ := hpresent
  have hsome : (cyls.find? fun trk => !trk.isEmpty).isSome := by
    rw [List.find?_isSome]
    exact ⟨trk, htrk, by simpa using hne⟩
  obtain ⟨first, hfirst⟩ := Option.isSome_iff_exists.mp hsome
  have hmem := List.mem_of_find?_eq_some hfirst
  have hlen := hsingle first hmem
  have hpos : first ≠ [] := by simpa using List.find?_some hfirst
  rw [revolutionCount, hfirst, Option.map_some, Option.getD_some]
  have := List.length_pos_iff.mpr hpos
  omega

/-- Single-revolution captures, at least one of them present, always make a container. -/
theorem scpFromMfmTracks_ne_nil {cyls : List MfmTrack} (hsingle : ∀ trk ∈ cyls, trk.length ≤ 1)
    (hpresent : ∃ trk ∈ cyls, trk ≠ []) (hcyls : cyls.length ≤ kScpMaxCyls) :
    scpFromMfmTracks cyls ≠ [] := by
  obtain ⟨scp, hput, hlen⟩ := putTracks_single cyls hsingle 0 (scpHeader 1 cyls.length)
  have hgeom : ¬ (1 = 0 ∨ 255 < 1 ∨ kScpMaxCyls < cyls.length) := by omega
  rw [scpFromMfmTracks, revolutionCount_single hsingle hpresent]
  simp only [if_neg hgeom, hput]
  intro hnil
  have hzero := congrArg List.length hnil
  simp only [put32le_length, List.length_nil] at hzero
  simp only [scpHeader, List.length_append, List.length_cons, List.length_nil] at hlen
  omega

/-! ## The assembled container -/

theorem be16s_length (ws : List Nat) : (ws.flatMap be16).length = 2 * ws.length := by
  induction ws with
  | nil => rfl
  | cons w ws ih =>
    rw [List.flatMap_cons, List.length_append, ih, List.length_cons]
    simp only [be16, List.length_cons, List.length_nil]
    omega

/-- A revolution's flux as a container carries it. -/
def MfmRev.flux (rev : MfmRev) : FluxRev where
  duration := rev.nbits * kTicksPerCell
  words := (pushFluxRev rev).flatMap be16
  whole := by
    rw [be16s_length]
    omega

theorem putRev_flux (toff entry : Nat) (scp : List UInt8) (rev : MfmRev) :
    putRev toff entry scp rev = putFlux toff entry scp rev.flux := by
  have hcount : rev.flux.words.length / 2 = (pushFluxRev rev).length := by
    rw [MfmRev.flux, be16s_length]
    omega
  rw [putRev, putFlux, hcount]
  rfl

theorem putRevs_flux (toff entry : Nat) (scp : List UInt8) (trk : MfmTrack) :
    putRevs toff entry scp trk = putFluxes toff entry scp (trk.map MfmRev.flux) := by
  induction trk generalizing entry scp with
  | nil => rfl
  | cons rev trk ih => rw [putRevs, List.map_cons, putFluxes, putRev_flux, ih]

theorem putTrack_flux (scp : List UInt8) (cyl : Nat) (trk : MfmTrack) :
    putTrack scp cyl trk = putFluxTrack scp cyl (trk.map MfmRev.flux) := by
  rw [putTrack, putFluxTrack, List.length_map]
  exact putRevs_flux _ _ _ _

/-- A cylinder's entry in the container: nothing where it holds no revolution. -/
def cylinderFlux (trk : MfmTrack) : Option (List FluxRev) :=
  if trk.isEmpty then none else some (trk.map MfmRev.flux)

theorem putTracks_flux {revs : Nat} (cyls : List MfmTrack) {cyl : Nat} {scp out : List UInt8}
    (h : putTracks revs cyl scp cyls = some out) :
    out = assembleTracks revs cyl scp (cyls.map cylinderFlux) ∧ ∀ trk ∈ cyls, trk ≠ [] → trk.length = revs := by
  induction cyls generalizing cyl scp with
  | nil => exact ⟨(Option.some.inj h).symm, by simp⟩
  | cons trk cyls ih =>
    rw [putTracks] at h
    rw [List.map_cons, cylinderFlux]
    -- An empty cylinder gets no entry; any other must hold as many revolutions as the image.
    by_cases hempty : trk.isEmpty
    · rw [if_pos hempty] at h ⊢
      obtain ⟨hout, hlen⟩ := ih h
      refine ⟨hout, fun t ht hne => ?_⟩
      rcases List.mem_cons.mp ht with rfl | ht
      · exact absurd (List.isEmpty_iff.mp hempty) hne
      · exact hlen t ht hne
    · rw [if_neg hempty] at h ⊢
      split at h
      · cases h
      · rename_i hrevs
        rw [not_not] at hrevs
        obtain ⟨hout, hlen⟩ := ih h
        refine ⟨?_, fun t ht hne => ?_⟩
        · rw [hout, assembleTracks, if_neg (by rw [List.length_map]; exact not_not_intro hrevs), putTrack_flux]
        · rcases List.mem_cons.mp ht with rfl | ht
          · exact hrevs
          · exact hlen t ht hne

/-- **The emitter assembles**: a container made from captures is the one assembled from their flux, every
    present capture with the common revolution count. -/
theorem scpFromMfmTracks_assemble {cyls : List MfmTrack} (h : scpFromMfmTracks cyls ≠ []) :
    scpFromMfmTracks cyls = assemble (cyls.map cylinderFlux) (revolutionCount cyls) ∧
      0 < revolutionCount cyls ∧ revolutionCount cyls ≤ 255 ∧ cyls.length ≤ kScpMaxCyls ∧
      ∀ trk ∈ cyls, trk ≠ [] → trk.length = revolutionCount cyls := by
  rw [scpFromMfmTracks] at h ⊢
  split at h
  · exact absurd rfl h
  · rename_i hgeom
    rw [if_neg hgeom]
    split at h
    · exact absurd rfl h
    · rename_i out hput
      obtain ⟨hout, hlen⟩ := putTracks_flux cyls hput
      refine ⟨?_, by omega, by omega, by omega, hlen⟩
      simp only [assemble, List.length_map, hout]

end Koncepcja.Disk
