import Koncepcja.Plotter.Hpgl

/-!
# The Plotter Device's Parser

`src/hw/plotter_hp7470a.cpp`: the parser of the original plotter over fixed buffers, and with 8-bit fields for
the pen and the line type.

The buffers are lists that do not grow past their size. The registers of the serial lines are left out.

## Main definitions

- `PlotterState.parserFeed`: one byte.
-/

namespace Koncepcja.Plotter

variable {F : Type} (o : FloatOps F)

def plotterMaxSegs : Nat := 16384
def cmdbufSize : Nat := 256
def maxParams : Nat := 64

/-- `sizeof(token)`. -/
def tokenSize : Nat := 64

/-- `sizeof(seg.text)`. -/
def textSize : Nat := 64

structure PlotSeg (F : Type) where
  type : UInt8
  pen : UInt8
  lineType : Int8
  x1 : F
  y1 : F
  x2 : F
  y2 : F
  radius : F
  startAngle : F
  sweepAngle : F
  text : List UInt8
  deriving DecidableEq

/-- `PlotSeg seg{}`. -/
def PlotSeg.zero : PlotSeg F where
  type := 0
  pen := 0
  lineType := 0
  x1 := o.ofNat 0
  y1 := o.ofNat 0
  x2 := o.ofNat 0
  y2 := o.ofNat 0
  radius := o.ofNat 0
  startAngle := o.ofNat 0
  sweepAngle := o.ofNat 0
  text := List.replicate textSize 0

/-- `plotter_state`, from the parser on. -/
structure PlotterState (F : Type) where
  cmd : List UInt8
  label : List UInt8
  inLabel : Bool
  labelTerm : UInt8
  penX : F
  penY : F
  penDown : Bool
  selectedPen : Int8
  lineType : Int8
  p1X : F
  p1Y : F
  p2X : F
  p2Y : F
  scalingActive : Bool
  scXmin : F
  scXmax : F
  scYmin : F
  scYmax : F
  winX1 : F
  winY1 : F
  winX2 : F
  winY2 : F
  charWidth : F
  charHeight : F
  charDirRun : F
  charDirRise : F
  charSlant : F
  pageRev : UInt32
  pageOverflow : Bool
  segs : List (PlotSeg F)
  deriving DecidableEq

namespace PlotterState

/-- `plotter_init`. -/
def init : PlotterState F where
  cmd := []
  label := []
  inLabel := false
  labelTerm := etx
  penX := o.ofNat 0
  penY := o.ofNat 0
  penDown := false
  selectedPen := 0
  lineType := -1
  p1X := o.ofNat 0
  p1Y := o.ofNat 0
  p2X := o.maxX
  p2Y := o.maxY
  scalingActive := false
  scXmin := o.ofNat 0
  scXmax := o.ofNat 1
  scYmin := o.ofNat 0
  scYmax := o.ofNat 1
  winX1 := o.ofNat 0
  winY1 := o.ofNat 0
  winX2 := o.maxX
  winY2 := o.maxY
  charWidth := o.charWidth
  charHeight := o.charHeight
  charDirRun := o.ofNat 1
  charDirRise := o.ofNat 0
  charSlant := o.ofNat 0
  pageRev := 0
  pageOverflow := false
  segs := []

variable (s : PlotterState F)

/-- `seg_push`: silent at the cap. -/
def segPush (seg : PlotSeg F) : PlotterState F :=
  if plotterMaxSegs ≤ s.segs.length then { s with pageOverflow := true }
  else { s with segs := s.segs ++ [seg], pageRev := s.pageRev + 1 }

def txf (x : F) : F :=
  if !s.scalingActive then x
  else
    let frac := o.div (o.sub x s.scXmin) (o.sub s.scXmax s.scXmin)
    o.add s.p1X (o.mul frac (o.sub s.p2X s.p1X))

def tyf (y : F) : F :=
  if !s.scalingActive then y
  else
    let frac := o.div (o.sub y s.scYmin) (o.sub s.scYmax s.scYmin)
    o.add s.p1Y (o.mul frac (o.sub s.p2Y s.p1Y))

def moveTo (x y : F) : PlotterState F :=
  let s' :=
    if s.penDown ∧ 0 < s.selectedPen then
      s.segPush { PlotSeg.zero o with
        type := 0, pen := s.selectedPen.toUInt8, x1 := s.penX, y1 := s.penY, x2 := x, y2 := y, lineType := s.lineType }
    else s
  { s' with penX := x, penY := y }

def cmdIN : PlotterState F :=
  { s with
    penDown := false, selectedPen := 0, penX := o.ofNat 0, penY := o.ofNat 0, lineType := -1, p1X := o.ofNat 0
    p1Y := o.ofNat 0, p2X := o.maxX, p2Y := o.maxY, scalingActive := false, winX1 := o.ofNat 0, winY1 := o.ofNat 0
    winX2 := o.maxX, winY2 := o.maxY, charWidth := o.charWidth, charHeight := o.charHeight, charDirRun := o.ofNat 1
    charDirRise := o.ofNat 0, charSlant := o.ofNat 0, labelTerm := etx }

def cmdDF : PlotterState F :=
  { s with
    lineType := -1, scalingActive := false, charWidth := o.charWidth, charHeight := o.charHeight, charDirRun := o.ofNat 1
    charDirRise := o.ofNat 0, charSlant := o.ofNat 0, labelTerm := etx }

def cmdSP (p : List F) : PlotterState F :=
  let pen :=
    match p with
    | [] => 0
    | x :: _ => o.toInt8 x
  { s with penDown := false, selectedPen := if pen < 0 ∨ 2 < pen then 0 else pen }

def cmdPU (p : List F) : PlotterState F :=
  (pairs p).foldl (fun s c => { s with penX := s.txf o c.1, penY := s.tyf o c.2 }) { s with penDown := false }

def cmdPD (p : List F) : PlotterState F :=
  (pairs p).foldl (fun s c => s.moveTo o (s.txf o c.1) (s.tyf o c.2)) { s with penDown := true }

def cmdPA (p : List F) : PlotterState F := (pairs p).foldl (fun s c => s.moveTo o (s.txf o c.1) (s.tyf o c.2)) s

def cmdPR (p : List F) : PlotterState F :=
  (pairs p).foldl
    (fun s c =>
      let dx :=
        if s.scalingActive then o.mul (o.div c.1 (o.sub s.scXmax s.scXmin)) (o.sub s.p2X s.p1X) else c.1
      let dy :=
        if s.scalingActive then o.mul (o.div c.2 (o.sub s.scYmax s.scYmin)) (o.sub s.p2Y s.p1Y) else c.2
      s.moveTo o (o.add s.penX dx) (o.add s.penY dy))
    s

def cmdCI : List F → PlotterState F
  | [] => s
  | r :: _ =>
    let radius := if s.scalingActive then o.mul (o.div r (o.sub s.scXmax s.scXmin)) (o.sub s.p2X s.p1X) else r
    if 0 < s.selectedPen then
      s.segPush { PlotSeg.zero o with
        type := 1, pen := s.selectedPen.toUInt8, x1 := s.penX, y1 := s.penY, radius := o.abs radius
        lineType := s.lineType }
    else s

def cmdAA : List F → PlotterState F
  | x :: y :: sweep :: _ =>
    let cx := s.txf o x
    let cy := s.tyf o y
    let dx := o.sub s.penX cx
    let dy := o.sub s.penY cy
    let radius := o.sqrt (o.add (o.mul dx dx) (o.mul dy dy))
    let start := o.div (o.mul (o.atan2 dy dx) (o.ofNat 180)) o.pi
    let s' :=
      if 0 < s.selectedPen ∧ o.positive radius then
        s.segPush { PlotSeg.zero o with
          type := 2, pen := s.selectedPen.toUInt8, x1 := cx, y1 := cy, radius, startAngle := start, sweepAngle := sweep
          lineType := s.lineType }
      else s
    let endAngle := o.div (o.mul (o.add start sweep) o.pi) (o.ofNat 180)
    { s' with penX := o.add cx (o.mul radius (o.cos endAngle)), penY := o.add cy (o.mul radius (o.sin endAngle)) }
  | _ => s

def cmdAR : List F → PlotterState F
  | x :: y :: sweep :: rest => s.cmdAA o ([o.add s.penX x, o.add s.penY y, sweep] ++ rest.take 1)
  | _ => s

def cmdEA : List F → PlotterState F
  | x :: y :: _ =>
    let x2 := s.txf o x
    let y2 := s.tyf o y
    if 0 < s.selectedPen then
      let x1 := s.penX
      let y1 := s.penY
      let addLine (s : PlotterState F) (ax ay bx by' : F) : PlotterState F :=
        s.segPush { PlotSeg.zero o with
          type := 0, pen := s.selectedPen.toUInt8, x1 := ax, y1 := ay, x2 := bx, y2 := by', lineType := s.lineType }
      addLine (addLine (addLine (addLine s x1 y1 x2 y1) x2 y1 x2 y2) x2 y2 x1 y2) x1 y2 x1 y1
    else s
  | _ => s

def cmdER : List F → PlotterState F
  | x :: y :: _ => s.cmdEA o [o.add s.penX x, o.add s.penY y]
  | _ => s

def cmdLT (p : List F) : PlotterState F :=
  let lineType :=
    match p with
    | [] => -1
    | x :: _ => o.toInt8 x
  { s with lineType }

/-- A label's text is cut to its field and ends in a NUL; the pen is moved by all of it. -/
def cmdLB (text : List UInt8) : PlotterState F :=
  if text = [] ∨ s.selectedPen = 0 then s
  else
    let copy := text.take (textSize - 1)
    let s' := s.segPush { PlotSeg.zero o with
      type := 3, pen := s.selectedPen.toUInt8, x1 := s.penX, y1 := s.penY, lineType := s.lineType
      text := copy ++ List.replicate (textSize - copy.length) 0 }
    let charWUnits := o.mul (o.mul s.charWidth o.unitsPerMm) (o.ofNat 10)
    { s' with
      penX := o.add s.penX (o.mul (o.mul charWUnits (o.ofNat text.length)) s.charDirRun)
      penY := o.add s.penY (o.mul (o.mul charWUnits (o.ofNat text.length)) s.charDirRise) }

def cmdDT (params : List UInt8) : PlotterState F :=
  { s with
    labelTerm :=
      match params with
      | c :: _ => c
      | [] => etx }

def cmdSI : List F → PlotterState F
  | w :: t :: _ => { s with charWidth := w, charHeight := t }
  | _ => s

def cmdDI : List F → PlotterState F
  | run :: rise :: _ => { s with charDirRun := run, charDirRise := rise }
  | _ => s

def cmdSC : List F → PlotterState F
  | xmin :: xmax :: ymin :: ymax :: _ =>
    if o.eq xmax xmin ∨ o.eq ymax ymin then s
    else { s with scXmin := xmin, scXmax := xmax, scYmin := ymin, scYmax := ymax, scalingActive := true }
  | _ => { s with scalingActive := false }

def cmdIP : List F → PlotterState F
  | x1 :: y1 :: x2 :: y2 :: _ => { s with p1X := x1, p1Y := y1, p2X := x2, p2Y := y2 }
  | _ => { s with p1X := o.ofNat 0, p1Y := o.ofNat 0, p2X := o.maxX, p2Y := o.maxY }

def cmdIW : List F → PlotterState F
  | x1 :: y1 :: x2 :: y2 :: _ => { s with winX1 := x1, winY1 := y1, winX2 := x2, winY2 := y2 }
  | _ => { s with winX1 := o.ofNat 0, winY1 := o.ofNat 0, winX2 := o.maxX, winY2 := o.maxY }

end PlotterState

/-- The pieces of a rest of the parameters, the first of them begun: `end` runs to a comma, and the next piece begins
behind it where anything is left. -/
def tokensFrom (token : List UInt8) : List UInt8 → List (List UInt8)
  | [] => [token]
  | c :: cs =>
    if c = comma then token :: if cs = [] then [] else tokensFrom [] cs
    else tokensFrom (token ++ [c]) cs

/-- The pieces that `parse_params` cuts its text into. -/
def tokens (params : List UInt8) : List (List UInt8) := if params = [] then [] else tokensFrom [] params

/-- One piece: no more than `MAX_PARAMS` numbers, each from no more than `TOKEN_SIZE - 1` characters. -/
def takeToken (out : List F) (token : List UInt8) : List F :=
  let token := token.dropWhile isBlank
  if token ≠ [] ∧ out.length < maxParams then
    match o.strtof (token.take (tokenSize - 1)) with
    | some v => out ++ [v]
    | none => out
  else out

/-- `parse_params`. -/
def parseParamsFixed (params : List UInt8) : List F := (tokens params).foldl (takeToken o) []

namespace PlotterState

def processCommand (s : PlotterState F) (cmd : List UInt8) : PlotterState F :=
  match cmd with
  | c0 :: c1 :: params =>
    let p := parseParamsFixed o params
    match mnemonicOf (upper c0) (upper c1) with
    | .IN => s.cmdIN o
    | .DF => s.cmdDF o
    | .LB => { s with inLabel := true, label := params.take (cmdbufSize - 1) }
    | .DT => s.cmdDT params
    | .SP => s.cmdSP o p
    | .PU => s.cmdPU o p
    | .PD => s.cmdPD o p
    | .PA => s.cmdPA o p
    | .PR => s.cmdPR o p
    | .CI => s.cmdCI o p
    | .AA => s.cmdAA o p
    | .AR => s.cmdAR o p
    | .EA => s.cmdEA o p
    | .ER => s.cmdER o p
    | .LT => s.cmdLT o p
    | .SI => s.cmdSI p
    | .DI => s.cmdDI p
    | .SC => s.cmdSC o p
    | .IP => s.cmdIP o p
    | .IW => s.cmdIW o p
    | .unknown => s
  | _ => s

def parserFeed (s : PlotterState F) (c : UInt8) : PlotterState F :=
  if s.inLabel then
    if c = s.labelTerm then { s.cmdLB o s.label with label := [], inLabel := false }
    else if s.label.length < cmdbufSize - 1 then { s with label := s.label ++ [c] }
    else s
  else if c = semicolon then
    if s.cmd ≠ [] then { s.processCommand o s.cmd with cmd := [] } else s
  else if 0x20 ≤ c ∨ c = 0x0D ∨ c = 0x0A then
    if c ≠ 0x0D ∧ c ≠ 0x0A then
      let s := if s.cmd.length < cmdbufSize - 1 then { s with cmd := s.cmd ++ [c] } else s
      if HpglPlotter.atLabel s.cmd then { s with inLabel := true, label := [], cmd := [] } else s
    else s
  else s

end PlotterState

end Koncepcja.Plotter
