import Koncepcja.Video.Renderer

/-!
# Batches Against Ticks

The batch renderer paints a run of character views with caches of its own; the tick paints one
character in sixteen master cycles. Two states are `Alike` when nothing that a later call reads
tells them apart, which leaves the classic cell cache out wherever the next batch clears it and the
Plus cache out wherever the next line snapshot does.

## Main results

- `Alike.call`: every call keeps two states alike.
- `cellTicks_eq`: what the sixteen ticks of a character do.
- `Follows.cell`: a batch cell keeps step with the ticks of its character.
- `batchCells_agrees`: a batch paints what the ticks paint, and leaves the sync latches to
  `batchSetSync`.
-/

namespace Koncepcja.Video

open Koncepcja.Bytes

namespace VideoState

/-! ## States alike -/

/-- The same picture, and the same caches as far as they are still read: all of them inside a batch
    that uses the classic cache, the Plus ones while a line snapshot is held. -/
structure Alike (cc : Bool) (v w : VideoState) : Prop where
  fb : v.fb = w.fb
  fbW : v.fbW = w.fbW
  fbH : v.fbH = w.fbH
  beam : v.beam = w.beam
  cells : cc = true ∨ v.beam.plusActive = true → v.cells.lookup = w.cells.lookup
  gen : v.beam.plusActive = true → v.snapGen = w.snapGen
  border : cc = true → v.ccBorder = w.ccBorder

variable {cc : Bool} {v w : VideoState}

theorem Alike.refl (v : VideoState) : Alike cc v v := ⟨rfl, rfl, rfl, rfl, fun _ => rfl, fun _ => rfl, fun _ => rfl⟩

theorem Alike.close (h : Alike cc v w) : Alike false v w :=
  ⟨h.fb, h.fbW, h.fbH, h.beam, fun hplus => h.cells (.inr (hplus.resolve_left Bool.false_ne_true)), h.gen, nofun⟩

theorem Alike.charW (h : Alike cc v w) : v.charW = w.charW := by
  rw [VideoState.charW, VideoState.charW, h.fbW]

theorem Alike.pixelAt (h : Alike cc v w) (x0 : Nat) : v.pixelAt x0 = w.pixelAt x0 := by
  rw [VideoState.pixelAt, VideoState.pixelAt, h.fbW, h.beam]

theorem Alike.visible (h : Alike cc v w) (hsync vsync : Bool) : v.visible hsync vsync = w.visible hsync vsync := by
  rw [VideoState.visible, VideoState.visible, h.fbH, h.beam]

theorem Alike.latches (h : Alike cc v w) (f f' : UInt8) (hs hs' vs vs' : Bool) :
    Alike cc { v with fetch0 := f, hsyncPrev := hs, vsyncPrev := vs }
      { w with fetch0 := f', hsyncPrev := hs', vsyncPrev := vs' } :=
  ⟨h.fb, h.fbW, h.fbH, h.beam, h.cells, h.gen, h.border⟩

theorem Alike.blit (h : Alike cc v w) (pos : Nat) (px : List UInt8) : Alike cc (v.blit pos px) (w.blit pos px) :=
  ⟨congrArg (Option.map fun fb => overwrite fb pos px) h.fb, h.fbW, h.fbH, h.beam, h.cells, h.gen, h.border⟩

theorem Alike.setBeam (h : Alike cc v w) {b : VideoBeam} (hb : b.plusActive = v.beam.plusActive) :
    Alike cc { v with beam := b } { w with beam := b } :=
  ⟨h.fb, h.fbW, h.fbH, rfl, fun hread => h.cells (hread.imp_right hb.symm.trans), fun hplus => h.gen (hb.symm.trans hplus),
    h.border⟩

theorem Alike.nextCol (h : Alike cc v w) : Alike cc v.nextCol w.nextCol := by
  have hstep := h.setBeam (b := { v.beam with beamCol := v.beam.beamCol + 1 }) rfl
  unfold VideoState.nextCol
  rw [← h.beam]
  exact hstep

theorem Alike.paintCached (h : Alike cc v w) (hread : cc = true ∨ v.beam.plusActive = true) (m byte : UInt8)
    (made : List UInt8 × Bool) (pos : Nat) : Alike cc (v.paintCached m byte made pos) (w.paintCached m byte made pos) := by
  have hcells := h.cells hread
  have hfetch : Alike cc { v with cells := v.cells.fetch (m, byte) made } { w with cells := w.cells.fetch (m, byte) made } :=
    ⟨h.fb, h.fbW, h.fbH, h.beam, fun _ => Memo.lookup_fetch_congr hcells _ _, h.gen, h.border⟩
  unfold VideoState.paintCached
  dsimp only
  rw [Memo.slots_fetch_congr hcells]
  exact hfetch.blit _ _

theorem Alike.plusRefreshLine (h : Alike cc v w) (asic : Option AsicState) :
    Alike cc (v.plusRefreshLine asic) (w.plusRefreshLine asic) := by
  have hclear : v.cells.clear.lookup = w.cells.clear.lookup := by
    funext k
    rw [Memo.lookup_clear, Memo.lookup_clear]
  unfold VideoState.plusRefreshLine
  cases asic.filter (·.plugged) with
  | none =>
    dsimp only
    rw [← h.beam]
    split
    · exact ⟨h.fb, h.fbW, h.fbH, rfl, fun _ => hclear, fun _ => rfl, h.border⟩
    · exact h
  | some a =>
    dsimp only
    rw [← h.beam]
    by_cases hplus : v.beam.plusActive = true
    · -- a held snapshot has the same generation on both sides
      have hgen : (a.vidGen == w.snapGen) = (a.vidGen == v.snapGen) := by rw [h.gen hplus]
      rw [hgen]
      split
      · exact h.setBeam (b := v.beam.cullSprites) rfl
      · exact ⟨h.fb, h.fbW, h.fbH, rfl, fun _ => hclear, fun _ => rfl, h.border⟩
    · rw [if_neg (by simp [hplus]), if_neg (by simp [hplus])]
      exact ⟨h.fb, h.fbW, h.fbH, rfl, fun _ => hclear, fun _ => rfl, h.border⟩

theorem Alike.moveBeam (h : Alike cc v w) (asic : Option AsicState) (vsRise hsRise hsFall : Bool) :
    Alike cc (v.moveBeam asic vsRise hsRise hsFall) (w.moveBeam asic vsRise hsRise hsFall) := by
  unfold VideoState.moveBeam
  rw [← h.beam]
  cases hsFall with
  | false => exact h.setBeam (VideoBeam.plusActive_rises _ _ _)
  | true =>
    exact (h.setBeam (b := (v.beam.rises vsRise hsRise).leftEdge) (VideoBeam.plusActive_rises _ _ _)).plusRefreshLine asic

theorem Alike.renderCellClassic (h : Alike cc v w) (g : GateArrayRegs) (mode : UInt8) (dispen : Bool) (byte0 byte1 : UInt8)
    (x0 charW : Nat) :
    Alike cc (v.renderCellClassic g mode dispen byte0 byte1 x0 charW) (w.renderCellClassic g mode dispen byte0 byte1 x0 charW) := by
  unfold VideoState.renderCellClassic
  rw [h.pixelAt]
  cases dispen with
  | false => exact h.blit _ _
  | true => exact (h.blit _ _).blit _ _

theorem Alike.renderCellPlus (h : Alike cc v w) (hplus : v.beam.plusActive = true) (g : GateArrayRegs)
    (asic : Option AsicState) (mode : UInt8) {dispen : Bool} (hfetch : dispen = true → v.fetch0 = w.fetch0) (byte1 : UInt8)
    (x0 charW : Nat) :
    Alike cc (v.renderCellPlus g asic mode dispen byte1 x0 charW) (w.renderCellPlus g asic mode dispen byte1 x0 charW) := by
  unfold VideoState.renderCellPlus
  cases dispen with
  | false =>
    rw [if_neg Bool.false_ne_true, if_neg Bool.false_ne_true, h.pixelAt, h.beam]
    exact h.blit _ _
  | true =>
    rw [if_pos rfl, if_pos rfl, ← h.beam]
    -- the origin of the sprites is set first, on both sides
    have hplus' : v.beam.markActiveRow.plusActive = v.beam.plusActive := VideoBeam.plusActive_markActiveRow _
    generalize v.beam.markActiveRow = b at hplus' ⊢
    have hopen : Alike cc { v with beam := b } { w with beam := b, fetch0 := v.fetch0 } :=
      (h.latches v.fetch0 v.fetch0 v.hsyncPrev w.hsyncPrev v.vsyncPrev w.vsyncPrev).setBeam hplus'
    have hread : cc = true ∨ ({ v with beam := b } : VideoState).beam.plusActive = true := .inr (hplus'.trans hplus)
    dsimp only
    rw [← hfetch rfl, hopen.pixelAt]
    split
    · exact ((hopen.paintCached hread _ v.fetch0 _ _).paintCached hread _ byte1 _ _).setBeam
        (b := { b with dispChar := b.dispChar + 1 }) rfl
    · exact (hopen.blit _ _).setBeam
        (b := { b with prevPen := lutCols (mode &&& 3) v.fetch0 ++ lutCols (mode &&& 3) byte1, dispChar := b.dispChar + 1 }) rfl

/-! ## What a cell leaves alone -/

/-- The wiring, the border cell and the latches, from `v` to `w`. -/
structure Frame (v w : VideoState) : Prop where
  fbW : w.fbW = v.fbW
  attached : w.fb.isNone = v.fb.isNone
  ccBorder : w.ccBorder = v.ccBorder
  fetch0 : w.fetch0 = v.fetch0
  hsyncPrev : w.hsyncPrev = v.hsyncPrev
  vsyncPrev : w.vsyncPrev = v.vsyncPrev

theorem Frame.refl (v : VideoState) : Frame v v := ⟨rfl, rfl, rfl, rfl, rfl, rfl⟩

theorem Frame.trans {u : VideoState} (h : Frame u v) (h' : Frame v w) : Frame u w :=
  ⟨h'.fbW.trans h.fbW, h'.attached.trans h.attached, h'.ccBorder.trans h.ccBorder, h'.fetch0.trans h.fetch0,
    h'.hsyncPrev.trans h.hsyncPrev, h'.vsyncPrev.trans h.vsyncPrev⟩

theorem Frame.charW (h : Frame v w) : w.charW = v.charW := by
  rw [VideoState.charW, VideoState.charW, h.fbW]

theorem frame_blit (v : VideoState) (pos : Nat) (px : List UInt8) : Frame v (v.blit pos px) :=
  ⟨rfl, Option.isNone_map, rfl, rfl, rfl, rfl⟩

theorem frame_setBeam (v : VideoState) (b : VideoBeam) : Frame v { v with beam := b } := ⟨rfl, rfl, rfl, rfl, rfl, rfl⟩

theorem frame_paintCached (v : VideoState) (m byte : UInt8) (made : List UInt8 × Bool) (pos : Nat) :
    Frame v (v.paintCached m byte made pos) := by
  unfold VideoState.paintCached
  exact ⟨rfl, Option.isNone_map, rfl, rfl, rfl, rfl⟩

theorem frame_plusRefreshLine (v : VideoState) (asic : Option AsicState) : Frame v (v.plusRefreshLine asic) := by
  unfold VideoState.plusRefreshLine
  cases asic.filter (·.plugged) with
  | none =>
    dsimp only
    split <;> exact ⟨rfl, rfl, rfl, rfl, rfl, rfl⟩
  | some a =>
    dsimp only
    split <;> exact ⟨rfl, rfl, rfl, rfl, rfl, rfl⟩

theorem frame_moveBeam (v : VideoState) (asic : Option AsicState) (vsRise hsRise hsFall : Bool) :
    Frame v (v.moveBeam asic vsRise hsRise hsFall) := by
  unfold VideoState.moveBeam
  split
  · exact (frame_setBeam v _).trans (frame_plusRefreshLine _ _)
  · exact frame_setBeam v _

theorem frame_renderCellPlus (v : VideoState) (g : GateArrayRegs) (asic : Option AsicState) (mode : UInt8) (dispen : Bool)
    (byte1 : UInt8) (x0 charW : Nat) : Frame v (v.renderCellPlus g asic mode dispen byte1 x0 charW) := by
  unfold VideoState.renderCellPlus
  generalize v.beam.markActiveRow = b
  have hopen := frame_setBeam v b
  dsimp only
  split
  · split
    · have hfirst := hopen.trans (frame_paintCached { v with beam := b } (mode &&& 3) v.fetch0
        (b.paintBytePlus g (mode &&& 3) v.fetch0) (({ v with beam := b } : VideoState).pixelAt x0))
      have hboth := hfirst.trans (frame_paintCached _ (mode &&& 3) byte1 (b.paintBytePlus g (mode &&& 3) byte1)
        (({ v with beam := b } : VideoState).pixelAt x0 + 24))
      exact hboth.trans (frame_setBeam _ _)
    · exact (hopen.trans (frame_blit _ _ _)).trans (frame_setBeam _ _)
  · exact frame_blit _ _ _

theorem frame_renderCellClassic (v : VideoState) (g : GateArrayRegs) (mode : UInt8) (dispen : Bool)
    (byte0 byte1 : UInt8) (x0 charW : Nat) : Frame v (v.renderCellClassic g mode dispen byte0 byte1 x0 charW) := by
  unfold VideoState.renderCellClassic
  dsimp only
  split
  · exact (frame_blit _ _ _).trans (frame_blit _ _ _)
  · exact frame_blit _ _ _

theorem frame_renderChar (v : VideoState) (dev : Devices) (bus : Bus) (byte1 : UInt8) :
    Frame v (v.renderChar dev bus byte1) := by
  unfold VideoState.renderChar
  split
  · cases dev.gateArray with
    | none => exact Frame.refl v
    | some g =>
      dsimp only
      split
      · exact frame_renderCellPlus v g dev.asic g.mode bus.dispen byte1 _ _
      · exact frame_renderCellClassic v g g.mode bus.dispen v.fetch0 byte1 _ _
  · exact Frame.refl v

theorem frame_nextCol (v : VideoState) : Frame v v.nextCol := frame_setBeam v _

/-! ## Ticks keep states alike -/

/-- Nothing later tells two states apart: they are alike, latches included. -/
structure Same (v w : VideoState) : Prop extends Alike false v w where
  fetch0 : v.fetch0 = w.fetch0
  hsyncPrev : v.hsyncPrev = w.hsyncPrev
  vsyncPrev : v.vsyncPrev = w.vsyncPrev

theorem Same.save (h : Same v w) : v.save = w.save := by
  rw [VideoState.save, VideoState.save, h.beam, h.fetch0, h.hsyncPrev, h.vsyncPrev]

theorem Same.along {v' w' : VideoState} (h : Same v w) (halike : Alike false v' w') (hv : Frame v v') (hw : Frame w w') :
    Same v' w' :=
  ⟨halike, hv.fetch0.trans (h.fetch0.trans hw.fetch0.symm), hv.hsyncPrev.trans (h.hsyncPrev.trans hw.hsyncPrev.symm),
    hv.vsyncPrev.trans (h.vsyncPrev.trans hw.vsyncPrev.symm)⟩

theorem Alike.renderChar (h : Alike cc v w) (hfetch : v.fetch0 = w.fetch0) (dev : Devices) (bus : Bus) (byte1 : UInt8) :
    Alike cc (v.renderChar dev bus byte1) (w.renderChar dev bus byte1) := by
  unfold VideoState.renderChar
  rw [← h.visible, ← h.beam, ← h.charW, ← hfetch]
  split
  · cases dev.gateArray with
    | none => exact h
    | some g =>
      dsimp only
      split
      · case _ hplus => exact h.renderCellPlus hplus g dev.asic g.mode (fun _ => hfetch) byte1 _ _
      · exact h.renderCellClassic g g.mode bus.dispen v.fetch0 byte1 _ _
  · exact h

/-- The sync half of a tick: the latches follow the bus, the beam its edges. -/
def settle (v : VideoState) (dev : Devices) (bus : Bus) : VideoState :=
  { v with hsyncPrev := bus.hsync, vsyncPrev := bus.vsync }.moveBeam dev.asic (bus.vsync && !v.vsyncPrev)
    (bus.hsync && !v.hsyncPrev) (!bus.hsync && v.hsyncPrev)

/-- The fetch half of a tick. -/
def fetch (v : VideoState) (dev : Devices) (bus : Bus) : VideoState :=
  let v := if bus.phase = 13 then { v with fetch0 := bus.ramData } else v
  if bus.phase = 15 then (v.renderChar dev bus bus.ramData).nextCol else v

theorem tick_eq (v : VideoState) (dev : Devices) (bus : Bus) :
    v.tick dev bus = if dev.gateArray.isNone || v.fb.isNone then v else (v.settle dev bus).fetch dev bus := rfl

theorem Same.settle (h : Same v w) (dev : Devices) (bus : Bus) : Same (v.settle dev bus) (w.settle dev bus) := by
  unfold VideoState.settle
  rw [← h.hsyncPrev, ← h.vsyncPrev]
  have hlatched : Same { v with hsyncPrev := bus.hsync, vsyncPrev := bus.vsync }
      { w with hsyncPrev := bus.hsync, vsyncPrev := bus.vsync } :=
    ⟨h.toAlike.latches _ _ _ _ _ _, h.fetch0, rfl, rfl⟩
  exact hlatched.along (hlatched.toAlike.moveBeam dev.asic _ _ _) (frame_moveBeam _ _ _ _ _) (frame_moveBeam _ _ _ _ _)

theorem Same.fetch (h : Same v w) (dev : Devices) (bus : Bus) : Same (v.fetch dev bus) (w.fetch dev bus) := by
  have hlatch : Same (if bus.phase = 13 then { v with fetch0 := bus.ramData } else v)
      (if bus.phase = 13 then { w with fetch0 := bus.ramData } else w) := by
    split
    · exact ⟨h.toAlike.latches _ _ _ _ _ _, rfl, h.hsyncPrev, h.vsyncPrev⟩
    · exact h
  unfold VideoState.fetch
  dsimp only
  split
  · refine hlatch.along (hlatch.toAlike.renderChar hlatch.fetch0 dev bus bus.ramData).nextCol ?_ ?_
    · exact (frame_renderChar _ _ _ _).trans (frame_nextCol _)
    · exact (frame_renderChar _ _ _ _).trans (frame_nextCol _)
  · exact hlatch

theorem Same.tick (h : Same v w) (dev : Devices) (bus : Bus) : Same (v.tick dev bus) (w.tick dev bus) := by
  rw [tick_eq, tick_eq, ← h.fb]
  split
  · exact h
  · exact (h.settle dev bus).fetch dev bus

/-! ## The ticks of a character -/

/-- A character as the tick sees it: the view, and what the RAM bus carries outside the two slots of
    the display fetch. -/
structure BusCell where
  view : StampedView
  other : Nat → UInt8

/-- The phases of the sixteen ticks that see the levels of a character, which the CRTC puts on the
    bus for phase 1. -/
def cellPhases : List Nat := [1, 2, 3, 4, 5, 6, 7, 8, 9, 10, 11, 12, 13, 14, 15, 0]

/-- The bus at a phase of a character. -/
def cellBus (ram : UInt16 → UInt8) (cell : BusCell) (phase : Nat) : Bus where
  hsync := cell.view.hsync
  vsync := cell.view.vsync
  dispen := cell.view.dispen
  phase := phase
  ramData :=
    if phase = 13 then viewByte ram cell.view 0 else if phase = 15 then viewByte ram cell.view 1 else cell.other phase

/-- The devices while the Gate Array has latched a mode. -/
def withMode (dev : Devices) (mode : UInt8) : Devices :=
  { dev with gateArray := dev.gateArray.map fun g => { g with mode := mode } }

/-- The per-character path: sixteen ticks. -/
def cellTicks (dev : Devices) (ram : UInt16 → UInt8) (v : VideoState) (cell : BusCell) : VideoState :=
  cellPhases.foldl (fun v phase => v.tick (withMode dev cell.view.mode) (cellBus ram cell phase)) v

/-- The latches show the levels of the bus. -/
def Settled (v : VideoState) (hsync vsync : Bool) : Prop := v.hsyncPrev = hsync ∧ v.vsyncPrev = vsync

theorem settle_settled {dev : Devices} {bus : Bus} (h : v.Settled bus.hsync bus.vsync) : v.settle dev bus = v := by
  have hlatched : ({ v with hsyncPrev := bus.hsync, vsyncPrev := bus.vsync } : VideoState) = v := by rw [← h.1, ← h.2]
  unfold VideoState.settle
  rw [hlatched, h.1, h.2, Bool.and_not_self, Bool.and_not_self, Bool.not_and_self]
  rfl

theorem settled_settle (v : VideoState) (dev : Devices) (bus : Bus) : (v.settle dev bus).Settled bus.hsync bus.vsync :=
  ⟨(frame_moveBeam _ _ _ _ _).hsyncPrev, (frame_moveBeam _ _ _ _ _).vsyncPrev⟩

theorem attached_settle (v : VideoState) (dev : Devices) (bus : Bus) : (v.settle dev bus).fb.isNone = v.fb.isNone :=
  (frame_moveBeam { v with hsyncPrev := bus.hsync, vsyncPrev := bus.vsync } dev.asic _ _ _).attached

section Ticks

variable {dev : Devices} {ram : UInt16 → UInt8} {cell : BusCell}

theorem tick_settled (hga : dev.gateArray.isNone = false) (hfb : v.fb.isNone = false)
    (h : v.Settled cell.view.hsync cell.view.vsync) (phase : Nat) :
    v.tick dev (cellBus ram cell phase) = v.fetch dev (cellBus ram cell phase) := by
  rw [tick_eq, hga, hfb, settle_settled h]
  rfl

theorem fetch_idle (v : VideoState) {phase : Nat} (h13 : phase ≠ 13) (h15 : phase ≠ 15) :
    v.fetch dev (cellBus ram cell phase) = v := by
  unfold VideoState.fetch
  simp only [cellBus, h13, h15, if_false]

theorem foldl_idle (hga : dev.gateArray.isNone = false) (hfb : v.fb.isNone = false)
    (h : v.Settled cell.view.hsync cell.view.vsync) (phases : List Nat) (hidle : ∀ p ∈ phases, p ≠ 13 ∧ p ≠ 15) :
    phases.foldl (fun v phase => v.tick dev (cellBus ram cell phase)) v = v := by
  induction phases with
  | nil => rfl
  | cons p ps ih =>
    have hp := hidle p List.mem_cons_self
    rw [List.foldl_cons, tick_settled hga hfb h, fetch_idle v hp.1 hp.2]
    exact ih fun q hq => hidle q (List.mem_cons_of_mem _ hq)

end Ticks

/-- The ticks of a character: the edges, the byte-0 latch, the cell, and the step to the next
    column. -/
theorem cellTicks_eq {dev : Devices} (hga : dev.gateArray.isNone = false) (hfb : v.fb.isNone = false)
    (ram : UInt16 → UInt8) (cell : BusCell) {u : VideoState}
    (hu : { v.settle dev (cellBus ram cell 1) with fetch0 := viewByte ram cell.view 0 } = u) :
    v.cellTicks dev ram cell =
      (u.renderChar (withMode dev cell.view.mode) (cellBus ram cell 15) (viewByte ram cell.view 1)).nextCol := by
  have hga' : (withMode dev cell.view.mode).gateArray.isNone = false := Option.isNone_map.trans hga
  have hfirst : v.tick (withMode dev cell.view.mode) (cellBus ram cell 1) = v.settle dev (cellBus ram cell 1) := by
    rw [tick_eq, hga', hfb, fetch_idle _ (by decide) (by decide)]
    rfl
  have hfb' : (v.settle dev (cellBus ram cell 1)).fb.isNone = false := (attached_settle _ _ _).trans hfb
  have hsettled : (v.settle dev (cellBus ram cell 1)).Settled cell.view.hsync cell.view.vsync := settled_settle _ _ _
  have hlatch : (v.settle dev (cellBus ram cell 1)).tick (withMode dev cell.view.mode) (cellBus ram cell 13) = u := by
    rw [tick_settled hga' hfb' hsettled, ← hu]
    rfl
  have hfbu : u.fb.isNone = false := by
    rw [← hu]
    exact hfb'
  have hsettledu : u.Settled cell.view.hsync cell.view.vsync := by
    rw [← hu]
    exact hsettled
  have hpaint : u.tick (withMode dev cell.view.mode) (cellBus ram cell 15) =
      (u.renderChar (withMode dev cell.view.mode) (cellBus ram cell 15) (viewByte ram cell.view 1)).nextCol := by
    rw [tick_settled hga' hfbu hsettledu]
    rfl
  have hframe := (frame_renderChar u (withMode dev cell.view.mode) (cellBus ram cell 15) (viewByte ram cell.view 1)).trans
    (frame_nextCol _)
  have hphases : cellPhases = 1 :: (List.range' 2 11 ++ 13 :: ([14] ++ 15 :: [0])) := rfl
  unfold VideoState.cellTicks
  -- the edges, the latch of phase 13 and the cell of phase 15 have idle ticks between them
  rw [hphases, List.foldl_cons, hfirst, List.foldl_append, foldl_idle hga' hfb' hsettled _ (by decide), List.foldl_cons, hlatch,
    List.foldl_append, foldl_idle hga' hfbu hsettledu _ (by decide), List.foldl_cons, hpaint]
  exact foldl_idle hga' (hframe.attached.trans hfbu)
    ⟨hframe.hsyncPrev.trans hsettledu.1, hframe.vsyncPrev.trans hsettledu.2⟩ [0] (by decide)

theorem cellTicks_detached {dev : Devices} (h : dev.gateArray.isNone = true ∨ v.fb.isNone = true) (ram : UInt16 → UInt8)
    (cell : BusCell) : v.cellTicks dev ram cell = v := by
  have htick : ∀ bus : Bus, v.tick (withMode dev cell.view.mode) bus = v := by
    intro bus
    have hga : (withMode dev cell.view.mode).gateArray.isNone = dev.gateArray.isNone := Option.isNone_map
    rw [tick_eq, hga, if_pos (by rw [Bool.or_eq_true]; exact h)]
  unfold VideoState.cellTicks
  generalize cellPhases = phases
  induction phases with
  | nil => rfl
  | cons p ps ih => rw [List.foldl_cons, htick, ih]

/-! ## A batch keeps step -/

/-- A display byte through the inks at the native width, by mode and byte. -/
def classicCell (g : GateArrayRegs) (key : UInt8 × UInt8) : List UInt8 :=
  paintByteClassic g key.1 key.2 (8 / lutCount key.1)

/-- The batch `v` has come as far as the ticks `w`. While no line snapshot is held, its cache holds
    what the inks `g` make of a byte, and its border cell is that of the inks. -/
structure Follows (g : GateArrayRegs) (c : Bool) (v w : VideoState) : Prop extends Alike false v w where
  serves : c = true → v.beam.plusActive = false → v.cells.Serves (classicCell g)
  inkBorder : c = true → v.ccBorder = fillRun (vidHwRgb (byteAt g.ink 16)) 16
  width : c = true → v.charW = 16

variable {g : GateArrayRegs} {c : Bool}

theorem Alike.setCells (h : Alike false v w) (hclassic : v.beam.plusActive = false)
    (cells : Memo (UInt8 × UInt8) (List UInt8)) : Alike false { v with cells := cells } w :=
  ⟨h.fb, h.fbW, h.fbH, h.beam, fun hread => absurd (hclassic.symm.trans (hread.resolve_left Bool.false_ne_true)) Bool.false_ne_true,
    h.gen, nofun⟩

theorem serves_plusRefreshLine {f : UInt8 × UInt8 → List UInt8} (asic : Option AsicState)
    (h : v.beam.plusActive = false → v.cells.Serves f) (hclassic : (v.plusRefreshLine asic).beam.plusActive = false) :
    (v.plusRefreshLine asic).cells.Serves f := by
  unfold VideoState.plusRefreshLine at hclassic ⊢
  cases hasic : asic.filter (·.plugged) with
  | none =>
    by_cases hplus : v.beam.plusActive = true
    · rw [if_pos hplus]
      exact Memo.serves_clear _ _
    · rw [if_neg hplus]
      exact h (Bool.eq_false_iff.mpr hplus)
  | some a =>
    rw [hasic] at hclassic
    dsimp only at hclassic
    split at hclassic
    · case _ hkeep =>
      have hplus : v.beam.plusActive = true := (Bool.and_eq_true_iff.mp hkeep).1
      exact absurd (hplus.symm.trans hclassic) Bool.false_ne_true.symm
    · exact absurd hclassic.symm Bool.false_ne_true

theorem serves_moveBeam {f : UInt8 × UInt8 → List UInt8} (asic : Option AsicState) (vsRise hsRise hsFall : Bool)
    (h : v.beam.plusActive = false → v.cells.Serves f)
    (hclassic : (v.moveBeam asic vsRise hsRise hsFall).beam.plusActive = false) :
    (v.moveBeam asic vsRise hsRise hsFall).cells.Serves f := by
  unfold VideoState.moveBeam at hclassic ⊢
  have hplus := VideoBeam.plusActive_rises v.beam vsRise hsRise
  cases hsFall with
  | false => exact h (hplus.symm.trans hclassic)
  | true => exact serves_plusRefreshLine asic (fun hb => h (hplus.symm.trans hb)) hclassic

theorem Follows.moved (h : Follows g c v w) (asic : Option AsicState) (vsRise hsRise hsFall hs vs : Bool) (byte0 : UInt8) :
    Follows g c (v.moveBeam asic vsRise hsRise hsFall)
      { { w with hsyncPrev := hs, vsyncPrev := vs }.moveBeam asic vsRise hsRise hsFall with fetch0 := byte0 } := by
  have hframe := frame_moveBeam v asic vsRise hsRise hsFall
  have halike := ((h.toAlike.latches v.fetch0 w.fetch0 v.hsyncPrev hs v.vsyncPrev vs).moveBeam asic vsRise hsRise hsFall)
  exact
    { toAlike := halike.latches _ _ _ _ _ _
      serves := fun hc => serves_moveBeam asic vsRise hsRise hsFall (h.serves hc)
      inkBorder := fun hc => hframe.ccBorder.trans (h.inkBorder hc)
      width := fun hc => hframe.charW.trans (h.width hc) }

theorem plusActive_renderCellPlus (v : VideoState) (g : GateArrayRegs) (asic : Option AsicState) (mode : UInt8)
    (dispen : Bool) (byte1 : UInt8) (x0 charW : Nat) :
    (v.renderCellPlus g asic mode dispen byte1 x0 charW).beam.plusActive = v.beam.plusActive := by
  unfold VideoState.renderCellPlus
  dsimp only
  split
  · split <;> exact VideoBeam.plusActive_markActiveRow _
  · rfl

theorem paintCached_serves {f : UInt8 × UInt8 → List UInt8} (h : v.cells.Serves f) (m byte : UInt8) (pos : Nat) :
    v.paintCached m byte (f (m, byte), true) pos =
      { v with cells := v.cells.fetch (m, byte) (f (m, byte), true) }.blit pos (f (m, byte)) := by
  unfold VideoState.paintCached
  dsimp only
  rw [h.slots_fetch]

theorem Follows.classic (h : Follows g c v w) (hc : c = true) (hclassic : v.beam.plusActive = false) (mode : UInt8)
    (byte0 byte1 : UInt8) (col : Nat) :
    Follows g c
      ((v.paintCached (mode &&& 3) byte0 (classicCell g (mode &&& 3, byte0), true) (v.pixelAt (col * 16))).paintCached
        (mode &&& 3) byte1 (classicCell g (mode &&& 3, byte1), true) (v.pixelAt (col * 16) + 24))
      (w.renderCellClassic g mode true byte0 byte1 (col * w.charW) w.charW) := by
  have hserves := h.serves hc hclassic
  have hwidth : w.charW = 16 := h.charW.symm.trans (h.width hc)
  have hbyte : lutCount (mode &&& 3) * (16 / 2 / lutCount (mode &&& 3)) * 3 = 24 := congrArg (· * 3) (native_width _)
  unfold VideoState.renderCellClassic
  rw [if_pos rfl, hwidth]
  dsimp only
  rw [hbyte, paintCached_serves hserves, paintCached_serves (hserves.fetch _ _), ← h.pixelAt]
  have hcells := fun cells => (h.toAlike.setCells hclassic cells)
  exact
    { toAlike := ((((hcells (v.cells.fetch _ _)).blit _ _).setCells hclassic _).blit _ _)
      serves := fun _ _ => (hserves.fetch _ _).fetch _ _
      inkBorder := h.inkBorder
      width := h.width }

theorem Follows.borderCell (h : Follows g c v w) (hc : c = true) (mode byte0 byte1 : UInt8) (col : Nat) :
    Follows g c (v.blit (v.pixelAt (col * 16)) v.ccBorder)
      (w.renderCellClassic g mode false byte0 byte1 (col * w.charW) w.charW) := by
  have hwidth : w.charW = 16 := h.charW.symm.trans (h.width hc)
  unfold VideoState.renderCellClassic
  rw [if_neg Bool.false_ne_true, hwidth, h.inkBorder hc, ← h.pixelAt]
  exact
    { toAlike := h.toAlike.blit _ _
      serves := h.serves
      inkBorder := h.inkBorder
      width := h.width }

theorem Follows.plusCell (h : Follows g c v w) (hplus : v.beam.plusActive = true) (asic : Option AsicState) (mode : UInt8)
    (dispen : Bool) (byte0 : UInt8) (hfetch : dispen = true → byte0 = w.fetch0) (byte1 : UInt8) (col : Nat) :
    Follows g c ({ v with fetch0 := byte0 }.renderCellPlus g asic mode dispen byte1 (col * v.charW) v.charW)
      (w.renderCellPlus g asic mode dispen byte1 (col * w.charW) w.charW) := by
  have halike : Alike false { v with fetch0 := byte0 } w := h.toAlike.latches byte0 w.fetch0 _ _ _ _
  have hframe := frame_renderCellPlus { v with fetch0 := byte0 } g asic mode dispen byte1 (col * v.charW) v.charW
  have hheld := plusActive_renderCellPlus { v with fetch0 := byte0 } g asic mode dispen byte1 (col * v.charW) v.charW
  have hcell := halike.renderCellPlus hplus g asic mode hfetch byte1 (col * v.charW) v.charW
  rw [← h.charW]
  exact
    { toAlike := hcell
      serves := fun _ hclassic => absurd (hplus.symm.trans (hheld.symm.trans hclassic)) Bool.false_ne_true.symm
      inkBorder := fun hc => hframe.ccBorder.trans (h.inkBorder hc)
      width := fun hc => hframe.charW.trans (h.width hc) }

theorem Follows.direct (h : Follows g false v w) (mode : UInt8) (dispen : Bool) (byte0 byte1 : UInt8) (col : Nat) :
    Follows g false (v.renderCellClassic g mode dispen byte0 byte1 (col * v.charW) v.charW)
      (w.renderCellClassic g mode dispen byte0 byte1 (col * w.charW) w.charW) := by
  rw [← h.charW]
  exact
    { toAlike := h.toAlike.renderCellClassic g mode dispen byte0 byte1 _ _
      serves := nofun
      inkBorder := nofun
      width := nofun }

theorem renderCellPlus_border (v : VideoState) (g : GateArrayRegs) (asic : Option AsicState) (mode byte1 byte1' : UInt8)
    (x0 charW : Nat) :
    v.renderCellPlus g asic mode false byte1 x0 charW = v.renderCellPlus g asic mode false byte1' x0 charW := by
  unfold VideoState.renderCellPlus
  rw [if_neg Bool.false_ne_true, if_neg Bool.false_ne_true]

theorem renderCellClassic_border (v : VideoState) (g : GateArrayRegs) (mode byte0 byte1 byte0' byte1' : UInt8)
    (x0 charW : Nat) :
    v.renderCellClassic g mode false byte0 byte1 x0 charW = v.renderCellClassic g mode false byte0' byte1' x0 charW := by
  unfold VideoState.renderCellClassic
  rw [if_neg Bool.false_ne_true, if_neg Bool.false_ne_true]

theorem Follows.batchPaint (h : Follows g c v w) (asic : Option AsicState) (ram : UInt16 → UInt8) (view : StampedView)
    (hfetch : w.fetch0 = viewByte ram view 0) :
    Follows g c (v.batchPaint g asic ram c view)
      (if w.beam.plusActive then
        w.renderCellPlus g asic view.mode view.dispen (viewByte ram view 1) (w.beam.beamCol.toNat * w.charW) w.charW
      else
        w.renderCellClassic g view.mode view.dispen w.fetch0 (viewByte ram view 1) (w.beam.beamCol.toNat * w.charW)
          w.charW) := by
  unfold VideoState.batchPaint
  rw [hfetch, ← h.beam]
  cases hdispen : view.dispen with
  | true =>
    simp only [if_true]
    by_cases hplus : v.beam.plusActive = true
    · rw [if_pos hplus, if_pos hplus]
      exact h.plusCell hplus asic view.mode true _ (fun _ => hfetch.symm) _ _
    · rw [if_neg hplus, if_neg hplus]
      cases c with
      | true =>
        rw [if_pos rfl]
        exact h.classic rfl (Bool.eq_false_iff.mpr hplus) view.mode _ _ _
      | false =>
        rw [if_neg Bool.false_ne_true]
        exact h.direct view.mode true _ _ _
  | false =>
    -- the batch does not fetch for the border
    simp only [Bool.false_eq_true, if_false]
    by_cases hplus : v.beam.plusActive = true
    · rw [if_pos hplus, if_pos hplus, renderCellPlus_border v g asic view.mode 0 (viewByte ram view 1)]
      exact h.plusCell hplus asic view.mode false v.fetch0 (fun hf => absurd hf Bool.false_ne_true) _ _
    · rw [if_neg hplus, if_neg hplus]
      cases c with
      | true =>
        rw [if_pos rfl]
        exact h.borderCell rfl view.mode _ _ _
      | false =>
        rw [if_neg Bool.false_ne_true, renderCellClassic_border v g view.mode 0 0 (viewByte ram view 0) (viewByte ram view 1)]
        exact h.direct view.mode false _ _ _

theorem renderCellPlus_mode (v : VideoState) (g : GateArrayRegs) (m : UInt8) (asic : Option AsicState) (mode : UInt8)
    (dispen : Bool) (byte1 : UInt8) (x0 charW : Nat) :
    v.renderCellPlus { g with mode := m } asic mode dispen byte1 x0 charW =
      v.renderCellPlus g asic mode dispen byte1 x0 charW := by
  have hindex : ∀ b : VideoBeam, b.lineIndexRgb { g with mode := m } = b.lineIndexRgb g := fun _ => rfl
  have hbyte : ∀ b : VideoBeam, b.paintBytePlus { g with mode := m } = b.paintBytePlus g := fun _ => rfl
  unfold VideoState.renderCellPlus
  simp only [hindex, hbyte]

theorem renderCellClassic_mode (v : VideoState) (g : GateArrayRegs) (m mode : UInt8) (dispen : Bool)
    (byte0 byte1 : UInt8) (x0 charW : Nat) :
    v.renderCellClassic { g with mode := m } mode dispen byte0 byte1 x0 charW =
      v.renderCellClassic g mode dispen byte0 byte1 x0 charW := by
  have hbyte : paintByteClassic { g with mode := m } = paintByteClassic g := rfl
  unfold VideoState.renderCellClassic
  simp only [hbyte]

theorem renderChar_cell {dev : Devices} (hga : dev.gateArray = some g) (ram : UInt16 → UInt8) (cell : BusCell) (byte1 : UInt8) :
    w.renderChar (withMode dev cell.view.mode) (cellBus ram cell 15) byte1 =
      if w.visible cell.view.hsync cell.view.vsync then
        if w.beam.plusActive then
          w.renderCellPlus g dev.asic cell.view.mode cell.view.dispen byte1 (w.beam.beamCol.toNat * w.charW) w.charW
        else
          w.renderCellClassic g cell.view.mode cell.view.dispen w.fetch0 byte1 (w.beam.beamCol.toNat * w.charW) w.charW
      else w := by
  have hmode : (withMode dev cell.view.mode).gateArray = some { g with mode := cell.view.mode } := by
    rw [withMode, hga]
    rfl
  unfold VideoState.renderChar
  rw [hmode]
  dsimp only [cellBus]
  rw [renderCellPlus_mode, renderCellClassic_mode]
  rfl

/-- The edges of the view are those that the ticks see. -/
def Chained (view : StampedView) (hsync vsync : Bool) : Prop :=
  view.hsyncRise = (view.hsync && !hsync) ∧ view.hsyncFall = (!view.hsync && hsync) ∧ view.vsyncRise = (view.vsync && !vsync)

instance (view : StampedView) (hsync vsync : Bool) : Decidable (Chained view hsync vsync) :=
  inferInstanceAs (Decidable (_ ∧ _ ∧ _))

/-- A cell of a batch keeps step with the ticks of its character. -/
theorem Follows.cell {dev : Devices} (hga : dev.gateArray = some g) (hfb : w.fb.isNone = false) (h : Follows g c v w)
    (ram : UInt16 → UInt8) (cell : BusCell) (hview : Chained cell.view w.hsyncPrev w.vsyncPrev) :
    Follows g c (v.batchCell g dev.asic ram c cell.view) (w.cellTicks dev ram cell) ∧
      (w.cellTicks dev ram cell).fb.isNone = false ∧ (w.cellTicks dev ram cell).hsyncPrev = cell.view.hsync ∧
      (w.cellTicks dev ram cell).vsyncPrev = cell.view.vsync ∧
      (w.cellTicks dev ram cell).fetch0 = viewByte ram cell.view 0 := by
  obtain ⟨hrise, hfall, hvrise⟩ := hview
  -- The beam moves on both sides, on the same edges.
  have hmoved := h.moved dev.asic cell.view.vsyncRise cell.view.hsyncRise cell.view.hsyncFall cell.view.hsync cell.view.vsync
    (viewByte ram cell.view 0)
  have hframe := frame_moveBeam { w with hsyncPrev := cell.view.hsync, vsyncPrev := cell.view.vsync } dev.asic
    cell.view.vsyncRise cell.view.hsyncRise cell.view.hsyncFall
  -- `u` is the state in which the ticks paint: the beam has moved, and byte 0 is latched.
  obtain ⟨u, hu⟩ : ∃ u, { ({ w with hsyncPrev := cell.view.hsync, vsyncPrev := cell.view.vsync } : VideoState).moveBeam dev.asic
      cell.view.vsyncRise cell.view.hsyncRise cell.view.hsyncFall with fetch0 := viewByte ram cell.view 0 } = u := ⟨_, rfl⟩
  have hsettle : { w.settle dev (cellBus ram cell 1) with fetch0 := viewByte ram cell.view 0 } = u := by
    rw [← hu, hrise, hfall, hvrise]
    rfl
  have hfetch : u.fetch0 = viewByte ram cell.view 0 := by rw [← hu]
  have hpaint := (frame_renderChar u (withMode dev cell.view.mode) (cellBus ram cell 15) (viewByte ram cell.view 1)).trans
    (frame_nextCol _)
  have hga' : dev.gateArray.isNone = false := by
    rw [hga]
    rfl
  rw [cellTicks_eq hga' hfb ram cell hsettle]
  refine ⟨?_, hpaint.attached.trans ?_, hpaint.hsyncPrev.trans ?_, hpaint.vsyncPrev.trans ?_, hpaint.fetch0.trans hfetch⟩
  · rw [hu] at hmoved
    rw [renderChar_cell hga, ← hmoved.visible]
    unfold VideoState.batchCell
    dsimp only
    -- Either both sides paint the cell or neither does.
    have hpainted : Follows g c
        (if (v.moveBeam dev.asic cell.view.vsyncRise cell.view.hsyncRise cell.view.hsyncFall).visible cell.view.hsync
            cell.view.vsync then
          (v.moveBeam dev.asic cell.view.vsyncRise cell.view.hsyncRise cell.view.hsyncFall).batchPaint g dev.asic ram c cell.view
        else v.moveBeam dev.asic cell.view.vsyncRise cell.view.hsyncRise cell.view.hsyncFall)
        (if (v.moveBeam dev.asic cell.view.vsyncRise cell.view.hsyncRise cell.view.hsyncFall).visible cell.view.hsync
            cell.view.vsync then
          if u.beam.plusActive then
            u.renderCellPlus g dev.asic cell.view.mode cell.view.dispen (viewByte ram cell.view 1)
              (u.beam.beamCol.toNat * u.charW) u.charW
          else
            u.renderCellClassic g cell.view.mode cell.view.dispen u.fetch0 (viewByte ram cell.view 1)
              (u.beam.beamCol.toNat * u.charW) u.charW
        else u) := by
      split
      · exact hmoved.batchPaint dev.asic ram cell.view hfetch
      · exact hmoved
    exact
      { toAlike := hpainted.toAlike.nextCol
        serves := hpainted.serves
        inkBorder := hpainted.inkBorder
        width := hpainted.width }
  · rw [← hu]
    exact hframe.attached.trans hfb
  · rw [← hu]
    exact hframe.hsyncPrev
  · rw [← hu]
    exact hframe.vsyncPrev

/-! ## Runs of views -/

/-- The edges of a run of views are the changes of their levels, from the levels before it. -/
def ChainedFrom : Bool → Bool → List StampedView → Prop
  | _, _, [] => True
  | hsync, vsync, view :: views => Chained view hsync vsync ∧ ChainedFrom view.hsync view.vsync views

/-- The per-character path over a run. -/
def cellRun (dev : Devices) (ram : UInt16 → UInt8) (v : VideoState) (cells : List BusCell) : VideoState :=
  cells.foldl (cellTicks dev ram) v

theorem Follows.run {dev : Devices} (hga : dev.gateArray = some g) (ram : UInt16 → UInt8) (cells : List BusCell)
    (hfb : w.fb.isNone = false) (h : Follows g c v w) (hviews : ChainedFrom w.hsyncPrev w.vsyncPrev (cells.map BusCell.view)) :
    Follows g c ((cells.map BusCell.view).foldl (batchCell g dev.asic ram c) v) (w.cellRun dev ram cells) ∧
      ∀ last, cells.getLast? = some last →
        (w.cellRun dev ram cells).hsyncPrev = last.view.hsync ∧ (w.cellRun dev ram cells).vsyncPrev = last.view.vsync ∧
          (w.cellRun dev ram cells).fetch0 = viewByte ram last.view 0 := by
  induction cells generalizing v w with
  | nil => exact ⟨h, nofun⟩
  | cons cell cells ih =>
    obtain ⟨hcell, hfb', hhs, hvs, hbyte⟩ := h.cell hga hfb ram cell hviews.1
    have hrest := hviews.2
    rw [← hhs, ← hvs] at hrest
    obtain ⟨hrun, hlast⟩ := ih hfb' hcell hrest
    refine ⟨hrun, fun last hl => ?_⟩
    cases cells with
    | nil =>
      obtain rfl : cell = last := Option.some.inj hl
      exact ⟨hhs, hvs, hbyte⟩
    | cons next rest => exact hlast last (List.getLast?_cons_cons.symm.trans hl)

theorem latches_batchPaint (v : VideoState) (g : GateArrayRegs) (asic : Option AsicState) (ram : UInt16 → UInt8) (cc : Bool)
    (view : StampedView) :
    (v.batchPaint g asic ram cc view).hsyncPrev = v.hsyncPrev ∧ (v.batchPaint g asic ram cc view).vsyncPrev = v.vsyncPrev := by
  have hplus := fun u : VideoState => frame_renderCellPlus u g asic view.mode
  have hclassic := frame_renderCellClassic v g view.mode
  unfold VideoState.batchPaint
  cases view.dispen with
  | true =>
    simp only [if_true]
    split
    · exact ⟨(hplus _ _ _ _ _).hsyncPrev, (hplus _ _ _ _ _).vsyncPrev⟩
    · split
      · have hframe := fun made made' pos pos' => (frame_paintCached v (view.mode &&& 3) (viewByte ram view 0) made pos).trans
          (frame_paintCached _ (view.mode &&& 3) (viewByte ram view 1) made' pos')
        exact ⟨(hframe _ _ _ _).hsyncPrev, (hframe _ _ _ _).vsyncPrev⟩
      · exact ⟨(hclassic _ _ _ _ _).hsyncPrev, (hclassic _ _ _ _ _).vsyncPrev⟩
  | false =>
    simp only [Bool.false_eq_true, if_false]
    split
    · exact ⟨(hplus _ _ _ _ _).hsyncPrev, (hplus _ _ _ _ _).vsyncPrev⟩
    · split
      · exact ⟨rfl, rfl⟩
      · exact ⟨(hclassic _ _ _ _ _).hsyncPrev, (hclassic _ _ _ _ _).vsyncPrev⟩

theorem latches_batchCell (v : VideoState) (g : GateArrayRegs) (asic : Option AsicState) (ram : UInt16 → UInt8) (cc : Bool)
    (view : StampedView) :
    (v.batchCell g asic ram cc view).hsyncPrev = v.hsyncPrev ∧ (v.batchCell g asic ram cc view).vsyncPrev = v.vsyncPrev := by
  have hframe := frame_moveBeam v asic view.vsyncRise view.hsyncRise view.hsyncFall
  have hpaint := latches_batchPaint (v.moveBeam asic view.vsyncRise view.hsyncRise view.hsyncFall) g asic ram cc view
  have hnext := fun u : VideoState => frame_nextCol u
  unfold VideoState.batchCell
  dsimp only
  split
  · exact ⟨(hnext _).hsyncPrev.trans (hpaint.1.trans hframe.hsyncPrev), (hnext _).vsyncPrev.trans (hpaint.2.trans hframe.vsyncPrev)⟩
  · exact ⟨(hnext _).hsyncPrev.trans hframe.hsyncPrev, (hnext _).vsyncPrev.trans hframe.vsyncPrev⟩

theorem latches_foldl (g : GateArrayRegs) (asic : Option AsicState) (ram : UInt16 → UInt8) (cc : Bool)
    (views : List StampedView) (v : VideoState) :
    (views.foldl (batchCell g asic ram cc) v).hsyncPrev = v.hsyncPrev ∧
      (views.foldl (batchCell g asic ram cc) v).vsyncPrev = v.vsyncPrev := by
  induction views generalizing v with
  | nil => exact ⟨rfl, rfl⟩
  | cons view views ih =>
    have hcell := latches_batchCell v g asic ram cc view
    exact ⟨(ih _).1.trans hcell.1, (ih _).2.trans hcell.2⟩

/-! ## Batches keep states alike -/

theorem Alike.openCells (h : Alike false v w) (g : GateArrayRegs) : Alike v.ccOn (v.openCells g) (w.openCells g) := by
  have hcc : w.ccOn = v.ccOn := by rw [VideoState.ccOn, VideoState.ccOn, h.beam, h.charW]
  unfold VideoState.openCells
  rw [hcc]
  cases hon : v.ccOn with
  | true => exact ⟨h.fb, h.fbW, h.fbH, h.beam, fun _ => funext fun k => rfl, h.gen, fun _ => rfl⟩
  | false => exact h

theorem Alike.batchPaint (h : Alike cc v w) (g : GateArrayRegs) (asic : Option AsicState) (ram : UInt16 → UInt8)
    (view : StampedView) : Alike cc (v.batchPaint g asic ram cc view) (w.batchPaint g asic ram cc view) := by
  have hcol : w.beam.beamCol = v.beam.beamCol := by rw [h.beam]
  have hactive : w.beam.plusActive = v.beam.plusActive := by rw [h.beam]
  unfold VideoState.batchPaint
  dsimp only
  rw [hactive, hcol, ← h.charW]
  -- The Plus path never reads the cache; the classic one reads it only where `cc` lets it.
  by_cases hplus : v.beam.plusActive = true
  · rw [if_pos hplus, if_pos hplus]
    cases view.dispen with
    | true =>
      -- Inside the display the cell latches its byte first, which makes the latches alike.
      have hlatched : Alike cc { v with fetch0 := viewByte ram view 0 } { w with fetch0 := viewByte ram view 0 } :=
        h.latches _ _ _ _ _ _
      simp only [if_true]
      exact hlatched.renderCellPlus hplus g asic view.mode (fun _ => rfl) _ _ _
    | false =>
      simp only [Bool.false_eq_true, if_false]
      exact h.renderCellPlus hplus g asic view.mode (fun hf => absurd hf Bool.false_ne_true) _ _ _
  · rw [if_neg hplus, if_neg hplus, ← h.pixelAt]
    cases cc with
    | true =>
      rw [if_pos rfl, if_pos rfl]
      cases view.dispen with
      | true => exact (h.paintCached (.inl rfl) _ _ _ _).paintCached (.inl rfl) _ _ _ _
      | false =>
        rw [if_neg Bool.false_ne_true, if_neg Bool.false_ne_true, ← h.border rfl]
        exact h.blit _ _
    | false =>
      rw [if_neg Bool.false_ne_true, if_neg Bool.false_ne_true]
      exact h.renderCellClassic g view.mode view.dispen _ _ _ _

theorem Alike.foldl (g : GateArrayRegs) (asic : Option AsicState) (ram : UInt16 → UInt8) (views : List StampedView)
    (h : Alike cc v w) : Alike cc (views.foldl (batchCell g asic ram cc) v) (views.foldl (batchCell g asic ram cc) w) := by
  induction views generalizing v w with
  | nil => exact h
  | cons view views ih =>
    apply ih
    have hmoved := h.moveBeam asic view.vsyncRise view.hsyncRise view.hsyncFall
    unfold VideoState.batchCell
    dsimp only
    rw [← hmoved.visible]
    split
    · exact (hmoved.batchPaint g asic ram view).nextCol
    · exact hmoved.nextCol

theorem latches_openCells (v : VideoState) (g : GateArrayRegs) :
    (v.openCells g).hsyncPrev = v.hsyncPrev ∧ (v.openCells g).vsyncPrev = v.vsyncPrev := by
  unfold VideoState.openCells
  split <;> exact ⟨rfl, rfl⟩

theorem Same.batchCells (h : Same v w) (dev : Devices) (ram : UInt16 → UInt8) (views : List StampedView) :
    Same (v.batchCells dev ram views) (w.batchCells dev ram views) := by
  have hcc : w.ccOn = v.ccOn := by rw [VideoState.ccOn, VideoState.ccOn, h.beam, h.charW]
  unfold VideoState.batchCells
  cases dev.gateArray with
  | none => exact h
  | some g =>
    cases views.getLast? with
    | none => exact h
    | some last =>
      dsimp only
      rw [← h.fb, hcc]
      split
      · exact h
      · have hopen := fun u : VideoState => latches_openCells u g
        have hlatch := fun u : VideoState => latches_foldl g dev.asic ram v.ccOn views (u.openCells g)
        have hcells := ((h.toAlike.openCells g).foldl g dev.asic ram views).close
        exact ⟨hcells.latches _ _ _ _ _ _, rfl,
          ((hlatch v).1.trans (hopen v).1).trans (h.hsyncPrev.trans ((hlatch w).1.trans (hopen w).1).symm),
          ((hlatch v).2.trans (hopen v).2).trans (h.vsyncPrev.trans ((hlatch w).2.trans (hopen w).2).symm)⟩

/-! ## Later calls -/

/-- A call on the device. -/
inductive Call where
  | attach (fb : Option (List UInt8)) (w h : Nat)
  | tick (dev : Devices) (bus : Bus)
  | batchCells (dev : Devices) (ram : UInt16 → UInt8) (views : List StampedView)
  | batchSetSync (hsync vsync : Bool)
  | reset
  | load (s : Saved)

/-- The state behind a call. -/
def call (v : VideoState) : Call → VideoState
  | .attach fb w h => { v with fb := fb, fbW := w, fbH := h }
  | .tick dev bus => v.tick dev bus
  | .batchCells dev ram views => v.batchCells dev ram views
  | .batchSetSync hsync vsync => v.batchSetSync hsync vsync
  | .reset => v.reset
  | .load s => v.load s

/-- A loaded state without a line snapshot reads no cache; one with a snapshot would read the Plus
    cache of whatever the device showed before. -/
theorem Same.call (h : Same v w) (c : Call) (hload : ∀ s, c = .load s → s.beam.plusActive = false) :
    Same (v.call c) (w.call c) := by
  cases c with
  | attach fb fbW fbH => exact ⟨⟨rfl, rfl, rfl, h.beam, h.cells, h.gen, h.border⟩, h.fetch0, h.hsyncPrev, h.vsyncPrev⟩
  | tick dev bus => exact h.tick dev bus
  | batchCells dev ram views => exact h.batchCells dev ram views
  | batchSetSync hsync vsync => exact ⟨h.toAlike.latches _ _ _ _ _ _, h.fetch0, rfl, rfl⟩
  | reset =>
    have hbeam : v.reset.beam = w.reset.beam := by
      unfold VideoState.reset
      rw [h.beam]
    exact ⟨⟨h.fb, h.fbW, h.fbH, hbeam, nofun, nofun, nofun⟩, h.fetch0, rfl, rfl⟩
  | load s =>
    have hclassic := hload s rfl
    refine ⟨⟨h.fb, h.fbW, h.fbH, rfl, fun hread => ?_, fun hplus => ?_, nofun⟩, rfl, rfl, rfl⟩
    · exact absurd (hclassic.symm.trans (hread.resolve_left Bool.false_ne_true)) Bool.false_ne_true
    · exact absurd (hclassic.symm.trans hplus) Bool.false_ne_true

theorem Same.calls (h : Same v w) (calls : List Call) (hload : ∀ s, Call.load s ∈ calls → s.beam.plusActive = false) :
    Same (calls.foldl VideoState.call v) (calls.foldl VideoState.call w) := by
  induction calls generalizing v w with
  | nil => exact h
  | cons c calls ih =>
    apply ih (h.call c fun s hs => hload s ?_)
    · exact fun s hs => hload s (List.mem_cons_of_mem _ hs)
    · rw [hs]
      exact List.mem_cons_self

/-! ## The batch and the per-character path -/

theorem batchCells_detached {dev : Devices} (h : dev.gateArray.isNone = true ∨ v.fb.isNone = true) (ram : UInt16 → UInt8)
    (views : List StampedView) : v.batchCells dev ram views = v := by
  unfold VideoState.batchCells
  cases hga : dev.gateArray with
  | none => rfl
  | some g =>
    rw [hga] at h
    have hfb : v.fb.isNone = true := h.resolve_left Bool.false_ne_true
    cases views.getLast? with
    | none => rfl
    | some last => exact if_pos hfb

theorem batchCells_nil (v : VideoState) (dev : Devices) (ram : UInt16 → UInt8) : v.batchCells dev ram [] = v := by
  unfold VideoState.batchCells
  cases dev.gateArray <;> rfl

theorem batchCells_eq {dev : Devices} (hga : dev.gateArray = some g) (hfb : v.fb.isNone = false) (ram : UInt16 → UInt8)
    {cells : List BusCell} {last : BusCell} (hl : cells.getLast? = some last) :
    v.batchCells dev ram (cells.map BusCell.view) =
      { (cells.map BusCell.view).foldl (batchCell g dev.asic ram v.ccOn) (v.openCells g) with
        fetch0 := viewByte ram last.view 0 } := by
  have hlast : (cells.map BusCell.view).getLast? = some last.view := by
    rw [List.getLast?_map, hl]
    rfl
  unfold VideoState.batchCells
  rw [hga, hlast]
  exact if_neg (by rw [hfb]; exact Bool.false_ne_true)

theorem follows_openCells (v : VideoState) (g : GateArrayRegs) : Follows g v.ccOn (v.openCells g) v := by
  unfold VideoState.openCells
  cases hcc : v.ccOn with
  | false => exact ⟨Alike.refl v, nofun, nofun, nofun⟩
  | true =>
    have hcond : v.beam.plusActive = false ∧ v.charW = 16 := by
      have hboth := Bool.and_eq_true_iff.mp hcc
      exact ⟨(Bool.not_eq_true' _).mp hboth.1, beq_iff_eq.mp hboth.2⟩
    exact
      { toAlike := (Alike.refl v).setCells hcond.1 _ |> fun h => ⟨h.fb, h.fbW, h.fbH, h.beam, h.cells, h.gen, nofun⟩
        serves := fun _ _ => Memo.serves_clear _ _
        inkBorder := fun _ => rfl
        width := fun _ => hcond.2 }

/-- A run of character views with constant inks, whose edges are the changes of its levels: the batch
    paints the pixels of the per-character path and reaches its saved state, the two sync latches
    aside, which stay as they were. Once `batchSetSync` has given them the levels of the last view,
    nothing a later call paints or saves differs. -/
theorem batchCells_agrees (dev : Devices) (ram : UInt16 → UInt8) (v : VideoState) (cells : List BusCell)
    (hviews : ChainedFrom v.hsyncPrev v.vsyncPrev (cells.map BusCell.view)) :
    let batch := v.batchCells dev ram (cells.map BusCell.view)
    let ticks := v.cellRun dev ram cells
    (batch.fb = ticks.fb ∧ batch.save = { ticks.save with hsyncPrev := v.hsyncPrev, vsyncPrev := v.vsyncPrev }) ∧
      (∀ last, cells.getLast? = some last → dev.gateArray.isSome = true → v.fb.isSome = true →
        ticks.hsyncPrev = last.view.hsync ∧ ticks.vsyncPrev = last.view.vsync) ∧
      ∀ later : List Call, (∀ s, Call.load s ∈ later → s.beam.plusActive = false) →
        (later.foldl call (batch.batchSetSync ticks.hsyncPrev ticks.vsyncPrev)).fb = (later.foldl call ticks).fb ∧
          (later.foldl call (batch.batchSetSync ticks.hsyncPrev ticks.vsyncPrev)).save = (later.foldl call ticks).save := by
  intro batch ticks
  -- it is enough that the two are alike and agree on the byte-0 latch
  suffices h : Alike false batch ticks ∧ batch.fetch0 = ticks.fetch0 ∧ (batch.hsyncPrev = v.hsyncPrev ∧ batch.vsyncPrev = v.vsyncPrev) ∧
      ∀ last, cells.getLast? = some last → dev.gateArray.isSome = true → v.fb.isSome = true →
        ticks.hsyncPrev = last.view.hsync ∧ ticks.vsyncPrev = last.view.vsync by
    obtain ⟨halike, hfetch, hlatches, hlast⟩ := h
    refine ⟨⟨halike.fb, ?_⟩, hlast, fun later hload => ?_⟩
    · rw [VideoState.save, VideoState.save, halike.beam, hfetch, hlatches.1, hlatches.2]
    · have hsame : Same (batch.batchSetSync ticks.hsyncPrev ticks.vsyncPrev) ticks :=
        ⟨halike.latches _ _ _ _ _ _, hfetch, rfl, rfl⟩
      have hlater := hsame.calls later hload
      exact ⟨hlater.fb, hlater.save⟩
  by_cases hattached : dev.gateArray.isNone = true ∨ v.fb.isNone = true
  · -- a device that is not attached does nothing on either path
    have hticks : ticks = v := by
      have hall : ∀ cs : List BusCell, v.cellRun dev ram cs = v := by
        intro cs
        induction cs with
        | nil => rfl
        | cons cell cs ih => exact (congrArg (List.foldl (cellTicks dev ram) · cs) (cellTicks_detached hattached ram cell)).trans ih
      exact hall cells
    have hbatch : batch = v := batchCells_detached hattached ram _
    rw [hticks, hbatch]
    refine ⟨Alike.refl v, rfl, ⟨rfl, rfl⟩, fun last _ hga hfb => ?_⟩
    rcases hattached with h | h
    · rw [Option.isNone_iff_eq_none.mp h] at hga
      exact absurd hga Bool.false_ne_true
    · rw [Option.isNone_iff_eq_none.mp h] at hfb
      exact absurd hfb Bool.false_ne_true
  · obtain ⟨hga, hfb⟩ := not_or.mp hattached
    cases hga' : dev.gateArray with
    | none =>
      rw [hga'] at hga
      exact absurd rfl hga
    | some g =>
      have hfb' : v.fb.isNone = false := Bool.eq_false_iff.mpr hfb
      obtain ⟨hrun, hlast⟩ := (follows_openCells v g).run hga' ram cells hfb' hviews
      cases hl : cells.getLast? with
      | none =>
        obtain rfl : cells = [] := List.getLast?_eq_none_iff.mp hl
        have hbatch : batch = v := batchCells_nil v dev ram
        rw [hbatch]
        exact ⟨Alike.refl v, rfl, ⟨rfl, rfl⟩, nofun⟩
      | some last =>
        have hbatch := batchCells_eq hga' hfb' ram hl
        have hlatches := latches_foldl g dev.asic ram v.ccOn (cells.map BusCell.view) (v.openCells g)
        have hopen := latches_openCells v g
        obtain ⟨hhs, hvs, hbyte⟩ := hlast last hl
        refine ⟨?_, ?_, ?_, fun last' hl' _ _ => ?_⟩
        · rw [show batch = _ from hbatch]
          exact hrun.toAlike.latches _ _ _ _ _ _
        · rw [show batch = _ from hbatch]
          exact hbyte.symm
        · rw [show batch = _ from hbatch]
          exact ⟨hlatches.1.trans hopen.1, hlatches.2.trans hopen.2⟩
        · obtain rfl : last = last' := Option.some.inj hl'
          exact ⟨hhs, hvs⟩

/-- A character on which HSYNC rises. -/
def risingCell : BusCell where
  view := { ma := 0, ra := 0, hsync := true, vsync := false, dispen := false, hsyncRise := true, frameLine := 0, mode := 1 }
  other := fun _ => 0

/-- A device on a canvas of one pixel row. -/
def oneRow : VideoState := { fb := some (List.replicate 2304 0), fbW := 768, fbH := 1 }

/-- A character of the display window. -/
def shownCell : BusCell where
  view := { ma := 0, ra := 0, hsync := false, vsync := false, dispen := true, frameLine := 0, mode := 1 }
  other := fun _ => 0

/-- Two characters with the same display bytes, one of the border, and the rise of HSYNC. -/
def shownRow : List BusCell :=
  [shownCell, shownCell, { shownCell with view := { shownCell.view with dispen := false } }, risingCell]

def inked : Devices := { gateArray := some { ink := [20, 4, 21, 28, 24, 29, 12, 5, 13, 22, 6, 23, 30, 0, 31, 14, 10] } }

/-- The fall of HSYNC, and one more character with these bytes. -/
def nextRow : List StampedView := [{ shownCell.view with hsyncFall := true }, shownCell.view]

/-- Painted characters, of which the second finds the bytes of the first in the cache, and a second batch behind them. -/
theorem batchCells_agrees_painted :
    let batch := oneRow.batchCells inked (fun _ => 0x3C) (shownRow.map BusCell.view)
    let ticks := oneRow.cellRun inked (fun _ => 0x3C) shownRow
    let later := [Call.batchCells inked (fun _ => 0x3C) nextRow, .batchSetSync false false, .reset]
    batch.fb = ticks.fb ∧ (batch.fb.map fun fb => (slice fb 0 3, slice fb 60 3)) = some ([0, 0, 255], [0, 0, 128]) ∧
      (later.foldl call (batch.batchSetSync ticks.hsyncPrev ticks.vsyncPrev)).fb = (later.foldl call ticks).fb ∧
      (later.foldl call (batch.batchSetSync ticks.hsyncPrev ticks.vsyncPrev)).save = (later.foldl call ticks).save := by
  intro batch ticks later
  have h := batchCells_agrees inked (fun _ => 0x3C) oneRow shownRow ⟨by decide, by decide, by decide, by decide, trivial⟩
  exact ⟨h.1.1, by decide, h.2.2 later (by simp [later])⟩

/-- The batch alone does not reach the state of the ticks: HSYNC rose, and its latch does not show it. -/
theorem batch_leaves_latches :
    ¬ ∀ (dev : Devices) (ram : UInt16 → UInt8) (v : VideoState) (cells : List BusCell),
      ChainedFrom v.hsyncPrev v.vsyncPrev (cells.map BusCell.view) →
        (v.batchCells dev ram (cells.map BusCell.view)).save = (v.cellRun dev ram cells).save := by
  intro h
  have hsave := h { gateArray := some {} } (fun _ => 0) { fb := some [] } [risingCell] ⟨by decide, trivial⟩
  exact absurd (congrArg Saved.hsyncPrev hsave) (by decide)

end VideoState

end Koncepcja.Video
