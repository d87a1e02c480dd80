import Koncepcja.Lib.Stepwise
import Koncepcja.Plotter.Device
import Mathlib

/-!
# The Device's Parser and the Original

Over bytes whose commands and labels fit its buffers, the device's parser does what the original does, except
where a value does not fit an 8-bit field, or where a label has a NUL.

## Main definitions

- `PlotterState.view`: a state of the device as one of the original, the segments as the host reads them.
- `Fits`: the commands and labels fit the buffers.
- `Narrow`: a byte does not bring a value that is lost.

## Main results

- `parserFeed_view`: one byte.
- `plotter_parity_iff`: every run.
-/

namespace Koncepcja.Plotter

open Stepwise

set_option maxRecDepth 20000

variable {F : Type} (o : FloatOps F)

/-! ## What the host reads -/

def primitive (type : UInt8) : PlotPrimitive :=
  if type = 0 then .Line else if type = 1 then .Circle else if type = 2 then .Arc else .Label

/-- A segment as the host reads it: its text ends at the first NUL. -/
def PlotSeg.view (seg : PlotSeg F) : PlotSegment F where
  type := primitive seg.type
  pen := seg.pen.toNat
  x1 := seg.x1
  y1 := seg.y1
  x2 := seg.x2
  y2 := seg.y2
  radius := seg.radius
  startAngle := seg.startAngle
  sweepAngle := seg.sweepAngle
  text := seg.text.takeWhile (· ≠ 0)
  lineType := seg.lineType.toInt

def PlotterState.view (s : PlotterState F) : HpglPlotter F where
  penX := s.penX
  penY := s.penY
  penDown := s.penDown
  selectedPen := s.selectedPen.toInt
  lineType := s.lineType.toInt
  p1X := s.p1X
  p1Y := s.p1Y
  p2X := s.p2X
  p2Y := s.p2Y
  scalingActive := s.scalingActive
  scXmin := s.scXmin
  scXmax := s.scXmax
  scYmin := s.scYmin
  scYmax := s.scYmax
  winX1 := s.winX1
  winY1 := s.winY1
  winX2 := s.winX2
  winY2 := s.winY2
  charWidth := s.charWidth
  charHeight := s.charHeight
  charDirRun := s.charDirRun
  charDirRise := s.charDirRise
  charSlant := s.charSlant
  labelTerminator := s.labelTerm
  cmdBuf := s.cmd
  inLabel := s.inLabel
  labelBuf := s.label
  segments := s.segs.map PlotSeg.view

def PenOk (s : PlotterState F) : Prop := s.selectedPen = 0 ∨ s.selectedPen = 1 ∨ s.selectedPen = 2

/-- A state of the device that is read as one of the original. -/
structure Sim (s : PlotterState F) (h : HpglPlotter F) : Prop where
  pen : PenOk s
  view : s.view = h

/-! ## The pen -/

variable {o} {s : PlotterState F} {p : List F}

theorem PenOk.pos (h : PenOk s) : 0 < s.selectedPen ↔ 0 < s.view.selectedPen := by
  show 0 < s.selectedPen ↔ 0 < s.selectedPen.toInt
  rcases h with h | h | h <;> rw [h] <;> decide

theorem PenOk.zero (h : PenOk s) : s.selectedPen = 0 ↔ s.view.selectedPen = 0 := by
  show s.selectedPen = 0 ↔ s.selectedPen.toInt = 0
  rcases h with h | h | h <;> rw [h] <;> decide

theorem PenOk.toNat (h : PenOk s) : (s.selectedPen.toUInt8.toNat : Int) = s.selectedPen.toInt := by
  rcases h with h | h | h <;> rw [h] <;> decide

theorem penOk_of_eq {s' : PlotterState F} (h : PenOk s) (heq : s'.selectedPen = s.selectedPen) : PenOk s' := by
  rw [PenOk, heq]
  exact h

/-! ## Segments -/

theorem view_segPush (hroom : s.segs.length < plotterMaxSegs) (seg : PlotSeg F) :
    (s.segPush seg).view = s.view.push seg.view := by
  have hpush : s.segPush seg = { s with segs := s.segs ++ [seg], pageRev := s.pageRev + 1 } :=
    if_neg (Nat.not_le.mpr hroom)
  rw [hpush, HpglPlotter.push]
  simp only [PlotterState.view, List.map_append, List.map_cons, List.map_nil]

theorem selectedPen_segPush (s : PlotterState F) (seg : PlotSeg F) : (s.segPush seg).selectedPen = s.selectedPen := by
  rw [PlotterState.segPush]
  split <;> rfl

theorem view_txf (x : F) : s.txf o x = s.view.tx o x := by
  rw [PlotterState.txf, HpglPlotter.tx]
  show (if !s.scalingActive then _ else _) = if s.scalingActive then _ else _
  cases s.scalingActive <;> rfl

theorem view_tyf (y : F) : s.tyf o y = s.view.ty o y := by
  rw [PlotterState.tyf, HpglPlotter.ty]
  show (if !s.scalingActive then _ else _) = if s.scalingActive then _ else _
  cases s.scalingActive <;> rfl

theorem length_segments (s : PlotterState F) : s.view.segments.length = s.segs.length := List.length_map ..

theorem length_push (h : HpglPlotter F) (seg : PlotSegment F) : (h.push seg).segments.length = h.segments.length + 1 := by
  rw [HpglPlotter.push, List.length_append]
  rfl

theorem sim_push (hpen : PenOk s) {seg : PlotSeg F} {seg' : PlotSegment F} (hpenSeg : seg.pen = s.selectedPen.toUInt8)
    (hseg : { seg.view with pen := s.view.selectedPen } = seg') (hroom : s.view.segments.length < plotterMaxSegs) :
    Sim (s.segPush seg) (s.view.push seg') := by
  have hview : seg.view = seg' := by
    have hsame : (seg.pen.toNat : Int) = s.view.selectedPen := by
      rw [hpenSeg]
      exact hpen.toNat
    rw [← hseg, ← hsame]
    rfl
  rw [length_segments] at hroom
  exact ⟨penOk_of_eq hpen (selectedPen_segPush s seg), hview ▸ view_segPush hroom seg⟩

theorem Sim.refl (hpen : PenOk s) : Sim s s.view := ⟨hpen, rfl⟩

theorem Sim.moved {h : HpglPlotter F} (hsim : Sim s h) (x y : F) :
    Sim { s with penX := x, penY := y } { h with penX := x, penY := y } := by
  obtain ⟨hpen, rfl⟩ := hsim
  exact ⟨hpen, rfl⟩

theorem sim_moveTo (hpen : PenOk s) {x y : F} (hroom : (s.view.moveTo o x y).segments.length ≤ plotterMaxSegs) :
    Sim (s.moveTo o x y) (s.view.moveTo o x y) := by
  rw [HpglPlotter.moveTo] at hroom ⊢
  rw [PlotterState.moveTo]
  by_cases hdraw : s.penDown ∧ 0 < s.selectedPen
  · have hdraw' : s.view.penDown ∧ 0 < s.view.selectedPen := ⟨hdraw.1, hpen.pos.mp hdraw.2⟩
    rw [if_pos hdraw'] at hroom ⊢
    rw [if_pos hdraw]
    rw [length_push] at hroom
    exact (sim_push hpen rfl rfl hroom).moved x y
  · have hdraw' : ¬(s.view.penDown ∧ 0 < s.view.selectedPen) := fun h => hdraw ⟨h.1, hpen.pos.mpr h.2⟩
    rw [if_neg hdraw', if_neg hdraw]
    exact (Sim.refl hpen).moved x y

theorem length_moveTo (h : HpglPlotter F) (x y : F) : h.segments.length ≤ (h.moveTo o x y).segments.length := by
  rw [HpglPlotter.moveTo]
  split
  · exact Nat.le_trans (Nat.le_succ _) (Nat.le_of_eq (length_push h _).symm)
  · exact Nat.le_refl _

/-! ## Loops over coordinates -/

theorem sim_foldl {α : Type} {f : PlotterState F → α → PlotterState F} {g : HpglPlotter F → α → HpglPlotter F}
    (hmono : ∀ h a, h.segments.length ≤ (g h a).segments.length)
    (hstep : ∀ s a, PenOk s → (g s.view a).segments.length ≤ plotterMaxSegs → Sim (f s a) (g s.view a)) (as : List α)
    (hpen : PenOk s) (hroom : (as.foldl g s.view).segments.length ≤ plotterMaxSegs) :
    Sim (as.foldl f s) (as.foldl g s.view) := by
  induction as generalizing s with
  | nil => exact Sim.refl hpen
  | cons a as ih =>
    have hgrow : ∀ (as : List α) (h : HpglPlotter F), h.segments.length ≤ (as.foldl g h).segments.length := by
      intro as
      induction as with
      | nil => exact fun h => Nat.le_refl _
      | cons b as ih => exact fun h => Nat.le_trans (hmono h b) (ih (g h b))
    obtain ⟨hok, hview⟩ := hstep s a hpen (Nat.le_trans (hgrow as (g s.view a)) hroom)
    rw [List.foldl_cons, List.foldl_cons, ← hview]
    rw [List.foldl_cons, ← hview] at hroom
    exact ih hok hroom

theorem sim_cmdPU (hpen : PenOk s) (hroom : (s.view.cmdPU o p).segments.length ≤ plotterMaxSegs) :
    Sim (s.cmdPU o p) (s.view.cmdPU o p) := by
  refine sim_foldl (s := { s with penDown := false })
    (g := fun (h : HpglPlotter F) (c : F × F) => { h with penX := h.tx o c.1, penY := h.ty o c.2 }) (fun _ _ => Nat.le_refl _) ?_ (pairs p) hpen hroom
  intro s a hok _
  rw [view_txf, view_tyf]
  exact (Sim.refl hok).moved _ _

theorem sim_line {s : PlotterState F} (a : F × F) (hok : PenOk s)
    (hroom : (s.view.moveTo o (s.view.tx o a.1) (s.view.ty o a.2)).segments.length ≤ plotterMaxSegs) :
    Sim (s.moveTo o (s.txf o a.1) (s.tyf o a.2)) (s.view.moveTo o (s.view.tx o a.1) (s.view.ty o a.2)) := by
  rw [view_txf, view_tyf]
  exact sim_moveTo hok hroom

theorem sim_cmdPA (hpen : PenOk s) (hroom : (s.view.cmdPA o p).segments.length ≤ plotterMaxSegs) :
    Sim (s.cmdPA o p) (s.view.cmdPA o p) :=
  sim_foldl (fun h _ => length_moveTo h _ _) (fun _ a => sim_line a) (pairs p) hpen hroom

theorem sim_cmdPD (hpen : PenOk s) (hroom : (s.view.cmdPD o p).segments.length ≤ plotterMaxSegs) :
    Sim (s.cmdPD o p) (s.view.cmdPD o p) :=
  sim_foldl (s := { s with penDown := true }) (fun h _ => length_moveTo h _ _) (fun _ a => sim_line a) (pairs p) hpen hroom

theorem sim_cmdPR (hpen : PenOk s) (hroom : (s.view.cmdPR o p).segments.length ≤ plotterMaxSegs) :
    Sim (s.cmdPR o p) (s.view.cmdPR o p) :=
  sim_foldl (fun h _ => length_moveTo h _ _) (fun _ _ hok hroom => sim_moveTo hok hroom) (pairs p) hpen hroom

/-! ## The other commands -/

theorem sim_cmdCI (hpen : PenOk s) (hroom : (s.view.cmdCI o p).segments.length ≤ plotterMaxSegs) :
    Sim (s.cmdCI o p) (s.view.cmdCI o p) := by
  cases p with
  | nil => exact Sim.refl hpen
  | cons r p =>
    rw [HpglPlotter.cmdCI] at hroom ⊢
    rw [PlotterState.cmdCI]
    by_cases hdraw : 0 < s.selectedPen
    · have hdraw' : 0 < s.view.selectedPen := hpen.pos.mp hdraw
      rw [if_pos hdraw'] at hroom ⊢
      rw [if_pos hdraw]
      rw [length_push] at hroom
      exact sim_push hpen rfl rfl hroom
    · have hdraw' : ¬0 < s.view.selectedPen := fun h => hdraw (hpen.pos.mpr h)
      rw [if_neg hdraw', if_neg hdraw]
      exact Sim.refl hpen

theorem sim_cmdAA (hpen : PenOk s) (hroom : (s.view.cmdAA o p).segments.length ≤ plotterMaxSegs) :
    Sim (s.cmdAA o p) (s.view.cmdAA o p) := by
  rcases p with _ | ⟨x, _ | ⟨y, _ | ⟨sweep, p⟩⟩⟩
  · exact Sim.refl hpen
  · exact Sim.refl hpen
  · exact Sim.refl hpen
  · rw [HpglPlotter.cmdAA] at hroom ⊢
    rw [PlotterState.cmdAA]
    have hx : s.view.penX = s.penX := rfl
    have hy : s.view.penY = s.penY := rfl
    dsimp only at hroom ⊢
    rw [view_txf, view_tyf, hx, hy]
    rw [hx, hy] at hroom
    apply Sim.moved
    by_cases hdraw : 0 < s.selectedPen ∧ o.positive (o.sqrt (o.add
        (o.mul (o.sub s.penX (s.view.tx o x)) (o.sub s.penX (s.view.tx o x)))
        (o.mul (o.sub s.penY (s.view.ty o y)) (o.sub s.penY (s.view.ty o y)))))
    · have hdraw' := And.imp_left hpen.pos.mp hdraw
      rw [if_pos hdraw]
      rw [if_pos hdraw', length_push] at hroom
      refine (if_pos hdraw').symm ▸ sim_push hpen rfl rfl hroom
    · have hdraw' := mt (And.imp_left hpen.pos.mpr) hdraw
      rw [if_neg hdraw]
      exact (if_neg hdraw').symm ▸ Sim.refl hpen

theorem sim_cmdAR (hpen : PenOk s) (hroom : (s.view.cmdAR o p).segments.length ≤ plotterMaxSegs) :
    Sim (s.cmdAR o p) (s.view.cmdAR o p) := by
  rcases p with _ | ⟨x, _ | ⟨y, _ | ⟨sweep, p⟩⟩⟩
  · exact Sim.refl hpen
  · exact Sim.refl hpen
  · exact Sim.refl hpen
  · exact sim_cmdAA hpen hroom

theorem Sim.line {h : HpglPlotter F} (hsim : Sim s h) (ax ay bx by' : F) (hroom : h.segments.length < plotterMaxSegs) :
    Sim
      (s.segPush { PlotSeg.zero o with
        type := 0, pen := s.selectedPen.toUInt8, x1 := ax, y1 := ay, x2 := bx, y2 := by', lineType := s.lineType })
      (h.push { PlotSegment.blank o with
        type := .Line, pen := h.selectedPen, x1 := ax, y1 := ay, x2 := bx, y2 := by', lineType := h.lineType }) := by
  obtain ⟨hpen, rfl⟩ := hsim
  exact sim_push hpen rfl rfl hroom

theorem sim_cmdEA (hpen : PenOk s) (hroom : (s.view.cmdEA o p).segments.length ≤ plotterMaxSegs) :
    Sim (s.cmdEA o p) (s.view.cmdEA o p) := by
  rcases p with _ | ⟨x, _ | ⟨y, p⟩⟩
  · exact Sim.refl hpen
  · exact Sim.refl hpen
  · rw [HpglPlotter.cmdEA] at hroom ⊢
    rw [PlotterState.cmdEA]
    dsimp only at hroom ⊢
    rw [view_txf, view_tyf]
    by_cases hdraw : 0 < s.selectedPen
    · have hdraw' := hpen.pos.mp hdraw
      rw [if_pos hdraw'] at hroom ⊢
      rw [if_pos hdraw]
      simp only [length_push] at hroom
      -- the four sides
      apply Sim.line
      · apply Sim.line
        · apply Sim.line
          · apply Sim.line (Sim.refl hpen)
            omega
          · rw [length_push]
            omega
        · rw [length_push, length_push]
          omega
      · rw [length_push, length_push, length_push]
        omega
    · have hdraw' := mt hpen.pos.mpr hdraw
      rw [if_neg hdraw', if_neg hdraw]
      exact Sim.refl hpen

theorem sim_cmdER (hpen : PenOk s) (hroom : (s.view.cmdER o p).segments.length ≤ plotterMaxSegs) :
    Sim (s.cmdER o p) (s.view.cmdER o p) := by
  rcases p with _ | ⟨x, _ | ⟨y, p⟩⟩
  · exact Sim.refl hpen
  · exact Sim.refl hpen
  · exact sim_cmdEA hpen hroom

theorem sim_cmdSI (hpen : PenOk s) : Sim (s.cmdSI p) (s.view.cmdSI p) := by
  rcases p with _ | ⟨w, _ | ⟨t, p⟩⟩ <;> exact ⟨hpen, rfl⟩

theorem sim_cmdDI (hpen : PenOk s) : Sim (s.cmdDI p) (s.view.cmdDI p) := by
  rcases p with _ | ⟨run, _ | ⟨rise, p⟩⟩ <;> exact ⟨hpen, rfl⟩

theorem sim_cmdSC (hpen : PenOk s) : Sim (s.cmdSC o p) (s.view.cmdSC o p) := by
  rcases p with _ | ⟨xmin, _ | ⟨xmax, _ | ⟨ymin, _ | ⟨ymax, p⟩⟩⟩⟩
  · exact ⟨hpen, rfl⟩
  · exact ⟨hpen, rfl⟩
  · exact ⟨hpen, rfl⟩
  · exact ⟨hpen, rfl⟩
  · rw [HpglPlotter.cmdSC, PlotterState.cmdSC]
    split
    · exact Sim.refl hpen
    · exact ⟨hpen, rfl⟩

theorem sim_cmdIP (hpen : PenOk s) : Sim (s.cmdIP o p) (s.view.cmdIP o p) := by
  rcases p with _ | ⟨x1, _ | ⟨y1, _ | ⟨x2, _ | ⟨y2, p⟩⟩⟩⟩ <;> exact ⟨hpen, rfl⟩

theorem sim_cmdIW (hpen : PenOk s) : Sim (s.cmdIW o p) (s.view.cmdIW o p) := by
  rcases p with _ | ⟨x1, _ | ⟨y1, _ | ⟨x2, _ | ⟨y2, p⟩⟩⟩⟩ <;> exact ⟨hpen, rfl⟩

theorem sim_cmdDT (hpen : PenOk s) (params : List UInt8) : Sim (s.cmdDT params) (s.view.cmdDT params) := by
  cases params <;> exact ⟨hpen, rfl⟩

/-! ## Values that may not fit -/

/-- The pen that a number selects. -/
def penOf (v : Int) : Int := if v < 0 ∨ 2 < v then 0 else v

theorem toInt_pen (w : Int8) : (if w < 0 ∨ 2 < w then 0 else w).toInt = penOf w.toInt := by
  have hneg : w < 0 ↔ w.toInt < 0 := Int8.lt_iff_toInt_lt
  have hbig : 2 < w ↔ 2 < w.toInt := Int8.lt_iff_toInt_lt
  rw [penOf]
  by_cases h : w < 0 ∨ 2 < w
  · rw [if_pos h, if_pos (h.imp hneg.mp hbig.mp)]
    rfl
  · rw [if_neg h, if_neg (mt (Or.imp hneg.mpr hbig.mpr) h)]

theorem penOk_cmdSP (s : PlotterState F) (p : List F) : PenOk (s.cmdSP o p) := by
  have hpen : ∀ w : Int8, (if w < 0 ∨ 2 < w then 0 else w) = 0 ∨ (if w < 0 ∨ 2 < w then 0 else w) = 1 ∨
      (if w < 0 ∨ 2 < w then 0 else w) = 2 := by
    intro w
    have hvalue := toInt_pen w
    obtain ⟨pen, hpen⟩ : ∃ pen, pen = if w < 0 ∨ 2 < w then 0 else w := ⟨_, rfl⟩
    rw [← hpen] at hvalue ⊢
    rw [penOf] at hvalue
    have hcases : pen.toInt = 0 ∨ pen.toInt = 1 ∨ pen.toInt = 2 := by
      rw [hvalue]
      split <;> omega
    rcases hcases with h | h | h
    · exact .inl (Int8.toInt_inj.mp (h.trans (by decide)))
    · exact .inr (.inl (Int8.toInt_inj.mp (h.trans (by decide))))
    · exact .inr (.inr (Int8.toInt_inj.mp (h.trans (by decide))))
  exact hpen _

theorem view_cmdSP_nil (s : PlotterState F) : (s.cmdSP o []).view = s.view.cmdSP o [] := rfl

theorem selectedPen_cmdSP (s : PlotterState F) (x : F) (p : List F) :
    (s.cmdSP o (x :: p)).view.selectedPen = penOf (o.toInt8 x).toInt ∧
      (s.view.cmdSP o (x :: p)).selectedPen = penOf (o.toInt x) := ⟨toInt_pen (o.toInt8 x), rfl⟩

theorem view_cmdSP {x : F} (h : penOf (o.toInt8 x).toInt = penOf (o.toInt x)) (s : PlotterState F) (p : List F) :
    (s.cmdSP o (x :: p)).view = s.view.cmdSP o (x :: p) := by
  have hleft : (s.cmdSP o (x :: p)).view =
      { s.view with penDown := false, selectedPen := (s.cmdSP o (x :: p)).view.selectedPen } := rfl
  have hright : s.view.cmdSP o (x :: p) =
      { s.view with penDown := false, selectedPen := (s.view.cmdSP o (x :: p)).selectedPen } := rfl
  rw [hleft, hright, (selectedPen_cmdSP s x p).1, (selectedPen_cmdSP s x p).2, h]

theorem view_cmdLT {x : F} (h : (o.toInt8 x).toInt = o.toInt x) (s : PlotterState F) (p : List F) :
    (s.cmdLT o (x :: p)).view = s.view.cmdLT o (x :: p) := by
  have hleft : (s.cmdLT o (x :: p)).view = { s.view with lineType := (o.toInt8 x).toInt } := rfl
  rw [hleft, h]
  rfl

/-! ## Labels -/

/-- The label that the original draws. -/
def labelSegment (o : FloatOps F) (h : HpglPlotter F) (text : List UInt8) : PlotSegment F :=
  { PlotSegment.blank o with
    type := .Label, pen := h.selectedPen, x1 := h.penX, y1 := h.penY, text, lineType := h.lineType }

theorem text_field {text : List UInt8} (h : text.length ≤ textSize - 1) :
    (text.take (textSize - 1) ++ List.replicate (textSize - (text.take (textSize - 1)).length) 0).takeWhile (· ≠ 0) =
      text.takeWhile (· ≠ 0) := by
  have hend : ∀ n, (List.replicate n (0 : UInt8)).takeWhile (· ≠ 0) = [] := by
    intro n
    cases n with
    | zero => rfl
    | succ n => exact List.takeWhile_cons_of_neg (by decide)
  rw [List.take_of_length_le h, List.takeWhile_append, hend]
  split
  · rename_i hall
    rw [List.append_nil]
    exact ((List.takeWhile_prefix _).eq_of_length hall).symm
  · rfl

theorem view_cmdLB (hpen : PenOk s) {text : List UInt8} (hdraw : ¬(text = [] ∨ s.view.selectedPen = 0))
    (hfit : text.length ≤ textSize - 1) (hroom : s.view.segments.length < plotterMaxSegs) :
    Sim (s.cmdLB o text) { s.view.cmdLB o text with
      segments := s.view.segments ++ [labelSegment o s.view (text.takeWhile (· ≠ 0))] } := by
  have hdraw' : ¬(text = [] ∨ s.selectedPen = 0) := mt (Or.imp_right hpen.zero.mp) hdraw
  have hseg : Sim (s.segPush { PlotSeg.zero o with
      type := 3, pen := s.selectedPen.toUInt8, x1 := s.penX, y1 := s.penY, lineType := s.lineType
      text := text.take (textSize - 1) ++ List.replicate (textSize - (text.take (textSize - 1)).length) 0 })
      (s.view.push (labelSegment o s.view (text.takeWhile (· ≠ 0)))) :=
    sim_push hpen rfl (congrArg (labelSegment o s.view) (text_field hfit)) hroom
  rw [PlotterState.cmdLB, if_neg hdraw', HpglPlotter.cmdLB, if_neg hdraw]
  exact hseg.moved _ _

theorem segments_cmdLB (h : HpglPlotter F) {text : List UInt8} (hdraw : ¬(text = [] ∨ h.selectedPen = 0)) :
    (h.cmdLB o text).segments = h.segments ++ [labelSegment o h text] := by
  rw [HpglPlotter.cmdLB, if_neg hdraw]
  rfl

theorem takeWhile_nul {text : List UInt8} : text.takeWhile (· ≠ 0) = text ↔ (0 : UInt8) ∉ text := by
  rw [List.takeWhile_eq_self_iff]
  constructor
  · intro h hmem
    exact absurd (h 0 hmem) (by decide)
  · intro h c hc
    exact decide_eq_true fun heq : c = 0 => h (heq ▸ hc)

/-! ## Parameters -/

theorem tokensFrom_eq {token rest : List UInt8} (h : rest = [] → token ≠ []) :
    tokensFrom token rest = Fields.fieldsFrom comma token rest := by
  induction rest generalizing token with
  | nil =>
    rw [Fields.fieldsFrom, if_neg (h rfl)]
    rfl
  | cons c rest ih =>
    rw [tokensFrom, Fields.fieldsFrom]
    by_cases hcomma : c = comma
    · rw [if_pos hcomma, if_pos hcomma]
      by_cases hnil : rest = []
      · rw [if_pos hnil, hnil]
        rfl
      · rw [if_neg hnil, ih fun hrest => absurd hrest hnil]
    · rw [if_neg hcomma, if_neg hcomma]
      exact ih fun _ => List.append_ne_nil_of_right_ne_nil token (List.cons_ne_nil c [])

theorem tokens_eq (params : List UInt8) : tokens params = Fields.fields comma params := by
  by_cases hnil : params = []
  · rw [hnil]
    rfl
  · rw [tokens, if_neg hnil]
    exact tokensFrom_eq fun h => absurd h hnil

/-- The parameters fit: no more numbers than there is room for, each in a token. -/
structure ParamsFit (o : FloatOps F) (params : List UInt8) : Prop where
  count : (parseParams o params).length ≤ maxParams
  short : ∀ token ∈ Fields.fields comma params, (token.dropWhile isBlank).length < tokenSize

theorem foldl_takeToken {toks : List (List UInt8)} {out : List F}
    (hcount : out.length + (toks.filterMap (number o)).length ≤ maxParams)
    (hshort : ∀ token ∈ toks, (token.dropWhile isBlank).length < tokenSize) :
    toks.foldl (takeToken o) out = out ++ toks.filterMap (number o) := by
  induction toks generalizing out with
  | nil => exact (List.append_nil out).symm
  | cons token toks ih =>
    have hrest := fun t ht => hshort t (List.mem_cons_of_mem token ht)
    have htoken := hshort token List.mem_cons_self
    have htake : (token.dropWhile isBlank).take (tokenSize - 1) = token.dropWhile isBlank :=
      List.take_of_length_le (Nat.le_sub_one_of_lt htoken)
    rw [List.foldl_cons]
    cases hnumber : number o token with
    | none =>
      -- what is no number is passed over, with room or without
      have hskip : takeToken o out token = out := by
        rw [takeToken]
        split
        · rename_i hne
          rw [number, if_neg hne.1] at hnumber
          rw [htake, hnumber]
        · rfl
      rw [List.filterMap_cons_none hnumber] at hcount ⊢
      rw [hskip]
      exact ih hcount hrest
    | some v =>
      rw [List.filterMap_cons_some hnumber] at hcount ⊢
      rw [List.length_cons] at hcount
      have hroom : out.length < maxParams := by omega
      have hadd : takeToken o out token = out ++ [v] := by
        rw [number] at hnumber
        split at hnumber
        · exact absurd hnumber (Option.some_ne_none v).symm
        · rename_i hne
          rw [takeToken]
          rw [if_pos ⟨hne, hroom⟩, htake, hnumber]
      rw [hadd, ih ?_ hrest, List.append_assoc, List.singleton_append]
      rw [List.length_append, List.length_singleton]
      omega

theorem parseParamsFixed_eq {params : List UInt8} (h : ParamsFit o params) :
    parseParamsFixed o params = parseParams o params := by
  rw [parseParamsFixed, tokens_eq, foldl_takeToken ?_ h.short]
  · exact List.nil_append _
  · rw [List.length_nil, Nat.zero_add]
    exact h.count

/-! ## A command -/

def commandOf : List UInt8 → Mnemonic
  | c0 :: c1 :: _ => mnemonicOf (upper c0) (upper c1)
  | _ => .unknown

/-- A command does not bring a value that eight bits lose. -/
def KeepsValue (o : FloatOps F) (cmd : List UInt8) : Prop :=
  ∀ x ∈ (parseParams o (cmd.drop 2)).head?,
    (commandOf cmd = .SP → penOf (o.toInt8 x).toInt = penOf (o.toInt x)) ∧
      (commandOf cmd = .LT → (o.toInt8 x).toInt = o.toInt x)

instance decidableKeepsValue (o : FloatOps F) (cmd : List UInt8) : Decidable (KeepsValue o cmd) :=
  inferInstanceAs (Decidable (∀ x ∈ (parseParams o (cmd.drop 2)).head?, _ ∧ _))

theorem sim_processCommand (hpen : PenOk s) {cmd : List UInt8} (hfit : ParamsFit o (cmd.drop 2))
    (hshort : cmd.length ≤ cmdbufSize - 1)
    (hroom : (s.view.processCommand o cmd).segments.length ≤ plotterMaxSegs) (hkeep : KeepsValue o cmd) :
    Sim (s.processCommand o cmd) (s.view.processCommand o cmd) := by
  rcases cmd with _ | ⟨c0, _ | ⟨c1, params⟩⟩
  · exact Sim.refl hpen
  · exact Sim.refl hpen
  have hparse : parseParamsFixed o params = parseParams o params := parseParamsFixed_eq hfit
  -- The label buffer holds all of a command that fits the command buffer.
  have hlabel : params.take (cmdbufSize - 1) = params := by
    apply List.take_of_length_le
    rw [List.length_cons, List.length_cons] at hshort
    omega
  rw [HpglPlotter.processCommand] at hroom ⊢
  rw [PlotterState.processCommand]
  rw [hparse, hlabel]
  cases hm : mnemonicOf (upper c0) (upper c1) <;> rw [hm] at hroom <;> dsimp only at hroom ⊢
  case IN => exact ⟨.inl rfl, rfl⟩
  case DF => exact ⟨hpen, rfl⟩
  case LB => exact ⟨hpen, rfl⟩
  case DT => exact sim_cmdDT hpen params
  case SP =>
    refine ⟨penOk_cmdSP s _, ?_⟩
    cases hp : parseParams o params with
    | nil => exact view_cmdSP_nil s
    | cons x p => exact view_cmdSP ((hkeep x (by rw [List.drop, List.drop, List.drop, hp]; rfl)).1 hm) s p
  case PU => exact sim_cmdPU hpen hroom
  case PD => exact sim_cmdPD hpen hroom
  case PA => exact sim_cmdPA hpen hroom
  case PR => exact sim_cmdPR hpen hroom
  case CI => exact sim_cmdCI hpen hroom
  case AA => exact sim_cmdAA hpen hroom
  case AR => exact sim_cmdAR hpen hroom
  case EA => exact sim_cmdEA hpen hroom
  case ER => exact sim_cmdER hpen hroom
  case LT =>
    refine ⟨hpen, ?_⟩
    cases hp : parseParams o params with
    | nil => rfl
    | cons x p => exact view_cmdLT ((hkeep x (by rw [List.drop, List.drop, List.drop, hp]; rfl)).2 hm) s p
  case SI => exact sim_cmdSI hpen
  case DI => exact sim_cmdDI hpen
  case SC => exact sim_cmdSC hpen
  case IP => exact sim_cmdIP hpen
  case IW => exact sim_cmdIW hpen
  case unknown => exact Sim.refl hpen

theorem keepsValue_of_view {cmd : List UInt8} (hfit : ParamsFit o (cmd.drop 2))
    (hpenEq : (s.processCommand o cmd).view.selectedPen = (s.view.processCommand o cmd).selectedPen)
    (hlineEq : (s.processCommand o cmd).view.lineType = (s.view.processCommand o cmd).lineType) : KeepsValue o cmd := by
  have hunknown : Mnemonic.unknown ≠ .SP ∧ Mnemonic.unknown ≠ .LT := by decide
  rcases cmd with _ | ⟨c0, _ | ⟨c1, params⟩⟩
  · exact fun x _ => ⟨fun h => absurd h hunknown.1, fun h => absurd h hunknown.2⟩
  · exact fun x _ => ⟨fun h => absurd h hunknown.1, fun h => absurd h hunknown.2⟩
  intro x hx
  have hparse : parseParamsFixed o params = parseParams o params := parseParamsFixed_eq hfit
  obtain ⟨p, hp⟩ : ∃ p, parseParams o params = x :: p := List.head?_eq_some_iff.mp hx
  rw [PlotterState.processCommand, HpglPlotter.processCommand] at hpenEq hlineEq
  rw [hparse, hp] at hpenEq hlineEq
  constructor
  · intro hm
    have hm : mnemonicOf (upper c0) (upper c1) = .SP := hm
    rw [hm] at hpenEq
    exact (selectedPen_cmdSP s x p).1.symm.trans (hpenEq.trans (selectedPen_cmdSP s x p).2)
  · intro hm
    have hm : mnemonicOf (upper c0) (upper c1) = .LT := hm
    rw [hm] at hlineEq
    exact hlineEq

/-! ## A byte -/

/-- The commands and labels fit the device's buffers. -/
structure Fits (o : FloatOps F) (h : HpglPlotter F) (c : UInt8) : Prop where
  cmd : h.cmdBuf.length ≤ cmdbufSize - 1 ∧ (h.feedByte o c).cmdBuf.length ≤ cmdbufSize - 1
  label : (h.feedByte o c).labelBuf.length ≤ cmdbufSize - 1
  page : (h.feedByte o c).segments.length ≤ plotterMaxSegs
  text : h.inLabel → c = h.labelTerminator → h.selectedPen ≠ 0 → h.labelBuf.length ≤ textSize - 1
  params : h.inLabel = false → c = semicolon → ParamsFit o (h.cmdBuf.drop 2)

/-- A byte does not bring a value that is lost: a label that is drawn has no NUL, and a pen and a line type fit. -/
def Narrow (o : FloatOps F) (h : HpglPlotter F) (c : UInt8) : Prop :=
  if h.inLabel then c = h.labelTerminator → h.labelBuf = [] ∨ h.selectedPen = 0 ∨ (0 : UInt8) ∉ h.labelBuf
  else c = semicolon → KeepsValue o h.cmdBuf

instance decidableParamsFit (o : FloatOps F) (params : List UInt8) : Decidable (ParamsFit o params) :=
  decidable_of_iff
    ((parseParams o params).length ≤ maxParams ∧
      ∀ token ∈ Fields.fields comma params, (token.dropWhile isBlank).length < tokenSize)
    ⟨fun h => ⟨h.1, h.2⟩, fun h => ⟨h.count, h.short⟩⟩

instance decidableFits (o : FloatOps F) (h : HpglPlotter F) (c : UInt8) : Decidable (Fits o h c) :=
  decidable_of_iff
    ((h.cmdBuf.length ≤ cmdbufSize - 1 ∧ (h.feedByte o c).cmdBuf.length ≤ cmdbufSize - 1) ∧
      (h.feedByte o c).labelBuf.length ≤ cmdbufSize - 1 ∧ (h.feedByte o c).segments.length ≤ plotterMaxSegs ∧
      (h.inLabel → c = h.labelTerminator → h.selectedPen ≠ 0 → h.labelBuf.length ≤ textSize - 1) ∧
      (h.inLabel = false → c = semicolon → ParamsFit o (h.cmdBuf.drop 2)))
    ⟨fun h => ⟨h.1, h.2.1, h.2.2.1, h.2.2.2.1, h.2.2.2.2⟩, fun h => ⟨h.cmd, h.label, h.page, h.text, h.params⟩⟩

instance decidableNarrow (o : FloatOps F) (h : HpglPlotter F) (c : UInt8) : Decidable (Narrow o h c) :=
  inferInstanceAs (Decidable (if h.inLabel then _ else _))

variable {h : HpglPlotter F} {c : UInt8}

theorem feedByte_end (hin : h.inLabel = true) (hc : c = h.labelTerminator) :
    h.feedByte o c = { h.cmdLB o h.labelBuf with labelBuf := [], inLabel := false } := by
  rw [HpglPlotter.feedByte, if_pos hin, if_pos hc]

theorem feedByte_text (hin : h.inLabel = true) (hc : c ≠ h.labelTerminator) :
    h.feedByte o c = { h with labelBuf := h.labelBuf ++ [c] } := by
  rw [HpglPlotter.feedByte, if_pos hin, if_neg hc]

theorem feedByte_command (hin : ¬h.inLabel = true) (hc : c = semicolon) :
    h.feedByte o c = if h.cmdBuf ≠ [] then { h.processCommand o h.cmdBuf with cmdBuf := [] } else h := by
  rw [HpglPlotter.feedByte, if_neg hin, if_pos hc]

theorem feedByte_char (hin : ¬h.inLabel = true) (hc : c ≠ semicolon) (hprint : 0x20 ≤ c ∨ c = 0x0D ∨ c = 0x0A)
    (hblank : c ≠ 0x0D ∧ c ≠ 0x0A) :
    h.feedByte o c = if HpglPlotter.atLabel (h.cmdBuf ++ [c]) then
        { h with inLabel := true, labelBuf := [], cmdBuf := [] }
      else { h with cmdBuf := h.cmdBuf ++ [c] } := by
  rw [HpglPlotter.feedByte, if_neg hin, if_neg hc, if_pos hprint, if_pos hblank]

theorem room_char (hfits : Fits o h c) (hin : ¬h.inLabel = true) (hc : c ≠ semicolon)
    (hprint : 0x20 ≤ c ∨ c = 0x0D ∨ c = 0x0A) (hblank : c ≠ 0x0D ∧ c ≠ 0x0A) : h.cmdBuf.length < cmdbufSize - 1 := by
  have hcmd := hfits.cmd.2
  rw [feedByte_char hin hc hprint hblank] at hcmd
  by_cases hlabel : HpglPlotter.atLabel (h.cmdBuf ++ [c]) = true
  · have hlen := congrArg List.length (beq_iff_eq.mp hlabel)
    rw [List.length_map, List.length_append] at hlen
    have htwo : h.cmdBuf.length + 1 = 2 := hlen
    have hsize : cmdbufSize - 1 = 255 := rfl
    omega
  · rw [if_neg hlabel, List.length_append] at hcmd
    exact hcmd

theorem endLabel_view (hpen : PenOk s) (hin : s.inLabel = true) (hc : c = s.labelTerm) (hfits : Fits o s.view c) :
    Sim { s.cmdLB o s.label with label := [], inLabel := false }
        { s.view.cmdLB o s.label with labelBuf := [], inLabel := false } ↔
      (s.label = [] ∨ s.view.selectedPen = 0 ∨ (0 : UInt8) ∉ s.label) := by
  -- An empty label and one without a pen draw nothing on either side.
  by_cases hdraw : s.label = [] ∨ s.view.selectedPen = 0
  · have hdraw' : s.label = [] ∨ s.selectedPen = 0 := hdraw.imp_right hpen.zero.mpr
    rw [PlotterState.cmdLB, if_pos hdraw', HpglPlotter.cmdLB, if_pos hdraw]
    exact iff_of_true ⟨hpen, rfl⟩ (hdraw.imp_right .inl)
  · -- A label that is drawn fits the segment and the page.
    have htext : s.label.length ≤ textSize - 1 := hfits.text hin hc fun hzero => hdraw (.inr hzero)
    have hsegments := segments_cmdLB (o := o) s.view hdraw
    have hroom : s.view.segments.length < plotterMaxSegs := by
      have hpage := hfits.page
      rw [feedByte_end (h := s.view) hin hc] at hpage
      have hlen : (s.view.cmdLB o s.label).segments.length ≤ plotterMaxSegs := hpage
      rw [hsegments, List.length_append, List.length_singleton] at hlen
      omega
    obtain ⟨hok, hview⟩ := view_cmdLB (o := o) hpen hdraw htext hroom
    have hdevice : ({ s.cmdLB o s.label with label := [], inLabel := false } : PlotterState F).view =
        { s.view.cmdLB o s.label with
          segments := s.view.segments ++ [labelSegment o s.view (s.label.takeWhile (· ≠ 0))]
          labelBuf := [], inLabel := false } :=
      congrArg (fun h : HpglPlotter F => { h with labelBuf := [], inLabel := false }) hview
    constructor
    · -- The device's text ends at its first NUL, the window's does not.
      rintro ⟨-, heq⟩
      rw [hdevice] at heq
      have hsegs := congrArg HpglPlotter.segments heq
      dsimp only at hsegs
      rw [hsegments] at hsegs
      have hlast := (List.cons.inj (List.append_cancel_left hsegs)).1
      exact .inr (.inr (takeWhile_nul.mp (congrArg PlotSegment.text hlast)))
    · intro hcases
      have hnul : (0 : UInt8) ∉ s.label := hcases.elim (fun h => absurd (.inl h) hdraw) fun h =>
        h.elim (fun h => absurd (.inr h) hdraw) id
      refine ⟨hok, ?_⟩
      rw [hdevice, takeWhile_nul.mpr hnul, ← hsegments]

theorem endCommand_view (hpen : PenOk s) (hin : s.inLabel = false) (hc : c = semicolon) (hcmd : s.cmd ≠ [])
    (hfits : Fits o s.view c) :
    Sim { s.processCommand o s.cmd with cmd := [] } { s.view.processCommand o s.cmd with cmdBuf := [] } ↔
      KeepsValue o s.cmd := by
  have hnot : ¬s.view.inLabel = true := by
    show ¬s.inLabel = true
    rw [hin]
    decide
  have hfit := hfits.params hin hc
  constructor
  · rintro ⟨-, heq⟩
    have hpenEq := congrArg HpglPlotter.selectedPen heq
    have hlineEq := congrArg HpglPlotter.lineType heq
    exact keepsValue_of_view hfit hpenEq hlineEq
  · intro hkeep
    have hpage := hfits.page
    have hcmd' : s.view.cmdBuf ≠ [] := hcmd
    rw [feedByte_command hnot hc, if_pos hcmd'] at hpage
    obtain ⟨hok, hview⟩ := sim_processCommand hpen hfit hfits.cmd.1 hpage hkeep
    exact ⟨hok, congrArg (fun h : HpglPlotter F => { h with cmdBuf := [] }) hview⟩

/-- One byte is taken alike exactly where it brings no value that is lost. -/
theorem parserFeed_view (hsim : Sim s h) (hfits : Fits o h c) :
    Sim (s.parserFeed o c) (h.feedByte o c) ↔ Narrow o h c := by
  obtain ⟨hpen, rfl⟩ := hsim
  rw [Narrow]
  by_cases hin : s.inLabel = true
  · have hin' : s.view.inLabel = true := hin
    rw [if_pos hin']
    by_cases hc : c = s.labelTerm
    · have hc' : c = s.view.labelTerminator := hc
      rw [PlotterState.parserFeed, if_pos hin, if_pos hc, feedByte_end hin' hc']
      exact (endLabel_view hpen hin hc hfits).trans ⟨fun h _ => h, fun h => h hc⟩
    · have hc' : c ≠ s.view.labelTerminator := hc
      have hlabel := hfits.label
      rw [feedByte_text hin' hc', List.length_append, List.length_singleton] at hlabel
      have hroom : s.label.length < cmdbufSize - 1 := hlabel
      rw [PlotterState.parserFeed, if_pos hin, if_neg hc, if_pos hroom, feedByte_text hin' hc']
      exact iff_of_true ⟨hpen, rfl⟩ fun h => absurd h hc
  · have hin' : ¬s.view.inLabel = true := hin
    have hfalse : s.inLabel = false := Bool.eq_false_iff.mpr hin
    rw [if_neg hin']
    by_cases hc : c = semicolon
    · by_cases hcmd : s.cmd ≠ []
      · have hcmd' : s.view.cmdBuf ≠ [] := hcmd
        rw [PlotterState.parserFeed, if_neg hin, if_pos hc, if_pos hcmd, feedByte_command hin' hc, if_pos hcmd']
        exact (endCommand_view hpen hfalse hc hcmd hfits).trans ⟨fun h _ => h, fun h => h hc⟩
      · have hcmd' : ¬s.view.cmdBuf ≠ [] := hcmd
        have hnil : s.cmd = [] := not_not.mp hcmd
        rw [PlotterState.parserFeed, if_neg hin, if_pos hc, if_neg hcmd, feedByte_command hin' hc, if_neg hcmd']
        refine iff_of_true (Sim.refl hpen) fun _ => ?_
        show KeepsValue o s.cmd
        rw [hnil]
        exact fun x hx => absurd hx (Option.some_ne_none x).symm
    · refine iff_of_true ?_ fun h => absurd h hc
      rw [PlotterState.parserFeed, if_neg hin, if_neg hc]
      by_cases hprint : 0x20 ≤ c ∨ c = 0x0D ∨ c = 0x0A
      · rw [if_pos hprint]
        by_cases hblank : c ≠ 0x0D ∧ c ≠ 0x0A
        · -- a character of a command, for which there is room
          have hroom : s.cmd.length < cmdbufSize - 1 := room_char hfits hin' hc hprint hblank
          rw [if_pos hblank, if_pos hroom, feedByte_char hin' hc hprint hblank]
          show Sim (if HpglPlotter.atLabel (s.cmd ++ [c]) then _ else _) (if HpglPlotter.atLabel (s.cmd ++ [c]) then _ else _)
          split
          · exact ⟨hpen, rfl⟩
          · exact ⟨hpen, rfl⟩
        · rw [if_neg hblank, HpglPlotter.feedByte, if_neg hin', if_neg hc, if_pos hprint, if_neg hblank]
          exact Sim.refl hpen
      · rw [if_neg hprint, HpglPlotter.feedByte, if_neg hin', if_neg hc, if_neg hprint]
        exact Sim.refl hpen

/-! ## The pen over runs -/

theorem penOk_segPush (h : PenOk s) (seg : PlotSeg F) : PenOk (s.segPush seg) := penOk_of_eq h (selectedPen_segPush s seg)

theorem penOk_moveTo (h : PenOk s) (x y : F) : PenOk (s.moveTo o x y) := by
  rw [PlotterState.moveTo]
  split
  · exact penOk_segPush h _
  · exact h

theorem penOk_foldl {α : Type} {f : PlotterState F → α → PlotterState F} (hstep : ∀ s a, PenOk s → PenOk (f s a))
    (h : PenOk s) (as : List α) : PenOk (as.foldl f s) := by
  induction as generalizing s with
  | nil => exact h
  | cons a as ih => exact ih (hstep s a h)

theorem penOk_cmdAA (h : PenOk s) (p : List F) : PenOk (s.cmdAA o p) := by
  rw [PlotterState.cmdAA.eq_def]
  split
  · dsimp only
    split
    · exact penOk_segPush h _
    · exact h
  · exact h

theorem penOk_cmdEA (h : PenOk s) (p : List F) : PenOk (s.cmdEA o p) := by
  rw [PlotterState.cmdEA.eq_def]
  split
  · dsimp only
    split
    · exact penOk_segPush (penOk_segPush (penOk_segPush (penOk_segPush h _) _) _) _
    · exact h
  · exact h

theorem penOk_processCommand (h : PenOk s) (cmd : List UInt8) : PenOk (s.processCommand o cmd) := by
  rcases cmd with _ | ⟨c0, _ | ⟨c1, params⟩⟩
  · exact h
  · exact h
  rw [PlotterState.processCommand]
  -- Only the commands that move the pen or select one touch what is claimed.
  cases mnemonicOf (upper c0) (upper c1) <;> dsimp only
  case IN => exact .inl rfl
  case DF => exact h
  case LB => exact h
  case DT => exact h
  case SP => exact penOk_cmdSP s _
  case PU =>
    rw [PlotterState.cmdPU]
    have hup : PenOk { s with penDown := false } := h
    refine penOk_foldl (fun _ _ h' => ?_) hup _
    exact h'
  case PD => exact penOk_foldl (s := { s with penDown := true }) (fun _ _ h => penOk_moveTo h _ _) h _
  case PA => exact penOk_foldl (fun _ _ h => penOk_moveTo h _ _) h _
  case PR => exact penOk_foldl (fun _ _ h => penOk_moveTo h _ _) h _
  case CI =>
    rw [PlotterState.cmdCI.eq_def]
    split
    · exact h
    · dsimp only
      split
      · exact penOk_segPush h _
      · exact h
  case AA => exact penOk_cmdAA h _
  case AR =>
    rw [PlotterState.cmdAR.eq_def]
    split
    · exact penOk_cmdAA h _
    · exact h
  case EA => exact penOk_cmdEA h _
  case ER =>
    rw [PlotterState.cmdER.eq_def]
    split
    · exact penOk_cmdEA h _
    · exact h
  case LT => exact h
  case SI =>
    rw [PlotterState.cmdSI.eq_def]
    split <;> exact h
  case DI =>
    rw [PlotterState.cmdDI.eq_def]
    split <;> exact h
  case SC =>
    rw [PlotterState.cmdSC.eq_def]
    split
    · split <;> exact h
    · exact h
  case IP =>
    rw [PlotterState.cmdIP.eq_def]
    split <;> exact h
  case IW =>
    rw [PlotterState.cmdIW.eq_def]
    split <;> exact h
  case unknown => exact h

theorem penOk_parserFeed (h : PenOk s) (c : UInt8) : PenOk (s.parserFeed o c) := by
  rw [PlotterState.parserFeed]
  split
  · split
    · show PenOk (s.cmdLB o s.label)
      rw [PlotterState.cmdLB]
      split
      · exact h
      · exact penOk_segPush h _
    · split <;> exact h
  · split
    · split
      · exact penOk_processCommand h s.cmd
      · exact h
    · split
      · split
        · dsimp only
          split <;> split <;> exact h
        · exact h
      · exact h

/-! ## Runs -/

/-- Both parsers, over the same bytes. -/
structure Pair (F : Type) where
  device : PlotterState F
  original : HpglPlotter F

def Pair.feed (o : FloatOps F) (x : Pair F) (c : UInt8) : Pair F :=
  ⟨x.device.parserFeed o c, x.original.feedByte o c⟩

/-- Both, from their reset states. -/
def Pair.start (o : FloatOps F) : Pair F := ⟨.init o, .reset o⟩

theorem penOk_along {x : Pair F} (h : PenOk x.device) {bytes : List UInt8}
    (hfits : AllOk (Pair.feed o) (fun x c => Fits o x.original c) x bytes) :
    AllOk (Pair.feed o) (fun x c => PenOk x.device ∧ Fits o x.original c) x bytes := by
  induction bytes generalizing x with
  | nil => trivial
  | cons c bytes ih => exact ⟨⟨h, hfits.1⟩, ih (penOk_parserFeed h c) hfits.2⟩

/-- Rational numbers that are read from digits, for bytes that draw labels: the conversion to eight bits keeps the
low ones. -/
def digits : FloatOps Rat where
  add := (· + ·)
  sub := (· - ·)
  mul := (· * ·)
  div := (· / ·)
  abs := fun x => if x < 0 then -x else x
  sqrt := id
  atan2 := fun y _ => y
  cos := fun _ => 1
  sin := id
  eq := (· == ·)
  positive := (0 < ·)
  ofNat := fun n => n
  pi := 22 / 7
  charWidth := 187 / 1000
  charHeight := 269 / 1000
  strtof := fun s =>
    if s ≠ [] ∧ ∀ c ∈ s, 0x30 ≤ c ∧ c ≤ 0x39 then some ((s.foldl (fun n c => 10 * n + (c.toNat - 0x30)) 0 : Nat) : Rat)
    else none
  toInt := fun x => x.num.tdiv x.den
  toInt8 := fun x => Int8.ofInt (x.num.tdiv x.den)

/-- `SP1;LBA`, a NUL, `B` and the terminator: the host reads `A` from the device. -/
theorem plotter_label_nul :
    ∃ bytes : List UInt8, AllOk (Pair.feed digits) (fun x c => Fits digits x.original c) (Pair.start digits) bytes ∧
      ¬∀ pre, pre <+: bytes → (pre.foldl (Pair.feed digits) (Pair.start digits)).device.view =
        (pre.foldl (Pair.feed digits) (Pair.start digits)).original := by
  refine ⟨[0x53, 0x50, 0x31, 0x3B, 0x4C, 0x42, 0x41, 0x00, 0x42, 0x03], by decide, fun h => ?_⟩
  have htext := congrArg (fun h : HpglPlotter Rat => h.segments.map PlotSegment.text) (h _ (List.prefix_refl _))
  exact absurd htext (by decide)

/-- Over bytes whose commands and labels fit its buffers, the device **is read as the original** after every byte
exactly where no byte brings a value that is lost. -/
theorem plotter_parity_iff (o : FloatOps F) (bytes : List UInt8)
    (hfits : AllOk (Pair.feed o) (fun x c => Fits o x.original c) (Pair.start o) bytes) :
    (∀ pre, pre <+: bytes →
      (pre.foldl (Pair.feed o) (Pair.start o)).device.view = (pre.foldl (Pair.feed o) (Pair.start o)).original) ↔
      AllOk (Pair.feed o) (fun x c => Narrow o x.original c) (Pair.start o) bytes := by
  have hpen : PenOk (Pair.start o).device := .inl rfl
  have hstep : ∀ (x : Pair F) (c : UInt8), x.device.view = x.original → PenOk x.device ∧ Fits o x.original c →
      ((x.feed o c).device.view = (x.feed o c).original ↔ Narrow o x.original c) := by
    intro x c hview hdom
    obtain ⟨hok, hfit⟩ := hdom
    refine (Iff.trans ?_ (parserFeed_view ⟨hok, hview⟩ hfit))
    exact ⟨fun heq => ⟨penOk_parserFeed hok c, heq⟩, fun hsim => hsim.view⟩
  exact forall_prefix_iff_within hstep rfl (penOk_along hpen hfits)

/-- `SP1;LBAB` and the terminator. -/
theorem plotter_parity_iff_label :
    AllOk (Pair.feed digits) (fun x c => Fits digits x.original c) (Pair.start digits)
        [0x53, 0x50, 0x31, 0x3B, 0x4C, 0x42, 0x41, 0x42, 0x03] ∧
      ∀ pre, pre <+: [0x53, 0x50, 0x31, 0x3B, 0x4C, 0x42, 0x41, 0x42, 0x03] →
        (pre.foldl (Pair.feed digits) (Pair.start digits)).device.view =
          (pre.foldl (Pair.feed digits) (Pair.start digits)).original := by
  have hfits : AllOk (Pair.feed digits) (fun x c => Fits digits x.original c) (Pair.start digits)
      [0x53, 0x50, 0x31, 0x3B, 0x4C, 0x42, 0x41, 0x42, 0x03] := by decide
  exact ⟨hfits, (plotter_parity_iff digits _ hfits).mpr (by decide)⟩

end Koncepcja.Plotter
