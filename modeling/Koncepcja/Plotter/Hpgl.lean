import Koncepcja.Lib.Fields
import Mathlib.Data.UInt

/-!
# The HP-GL Plotter

`src/plotter.cpp`: the bytes of the parallel port are gathered into commands and labels, and the commands
draw segments. Floating-point numbers are a parameter, with the operations that the code uses.

A `char` is a byte: the port has seven bits.

## Main definitions

- `FloatOps`: the numbers.
- `HpglPlotter.feedByte`: one byte.
-/

namespace Koncepcja.Plotter

/-- The numbers: `float`, its operations and constants, `strtof` on a text that begins without a blank (nothing
where there is no number, or one that is out of range) and the conversions to `int` and `int8_t`. -/
structure FloatOps (F : Type) where
  add : F → F → F
  sub : F → F → F
  mul : F → F → F
  div : F → F → F
  abs : F → F
  sqrt : F → F
  atan2 : F → F → F
  cos : F → F
  sin : F → F
  eq : F → F → Bool
  positive : F → Bool
  ofNat : Nat → F
  pi : F
  charWidth : F
  charHeight : F
  strtof : List UInt8 → Option F
  toInt : F → Int
  toInt8 : F → Int8

variable {F : Type} (o : FloatOps F)

/-- `HPGL_MAX_X`, `PLT_MAX_X`. -/
def FloatOps.maxX : F := o.ofNat 10365

/-- `HPGL_MAX_Y`, `PLT_MAX_Y`. -/
def FloatOps.maxY : F := o.ofNat 7962

/-- `HPGL_UNITS_PER_MM`, `PLT_UNITS_PER_MM`. -/
def FloatOps.unitsPerMm : F := o.ofNat 40

/-! ## Commands as text -/

/-- `toupper`. -/
def upper (c : UInt8) : UInt8 := if 0x61 ≤ c ∧ c ≤ 0x7A then c - 32 else c

def isBlank (c : UInt8) : Bool := c == 0x20 || c == 0x09

def semicolon : UInt8 := 0x3B
def comma : UInt8 := 0x2C
def etx : UInt8 := 0x03

/-- The commands that draw or change something. -/
inductive Mnemonic
  | IN | DF | LB | DT | SP | PU | PD | PA | PR | CI | AA | AR | EA | ER | LT | SI | DI | SC | IP | IW
  | unknown
  deriving DecidableEq, Repr

def mnemonics : List ((Char × Char) × Mnemonic) :=
  [(('I', 'N'), .IN), (('D', 'F'), .DF), (('L', 'B'), .LB), (('D', 'T'), .DT), (('S', 'P'), .SP), (('P', 'U'), .PU),
    (('P', 'D'), .PD), (('P', 'A'), .PA), (('P', 'R'), .PR), (('C', 'I'), .CI), (('A', 'A'), .AA), (('A', 'R'), .AR),
    (('E', 'A'), .EA), (('E', 'R'), .ER), (('L', 'T'), .LT), (('S', 'I'), .SI), (('D', 'I'), .DI), (('S', 'C'), .SC),
    (('I', 'P'), .IP), (('I', 'W'), .IW)]

/-- The command of two letters. -/
def mnemonicOf (m0 m1 : UInt8) : Mnemonic :=
  match mnemonics.find? fun m => m.1.1.toNat = m0.toNat ∧ m.1.2.toNat = m1.toNat with
  | some m => m.2
  | none => .unknown

/-- The coordinates of a list of parameters. -/
def pairs : List F → List (F × F)
  | x :: y :: rest => (x, y) :: pairs rest
  | _ => []

/-! ## The original plotter -/

inductive PlotPrimitive
  | Line | Circle | Arc | Label
  deriving DecidableEq, Repr

structure PlotSegment (F : Type) where
  type : PlotPrimitive
  pen : Int
  x1 : F
  y1 : F
  x2 : F
  y2 : F
  radius : F
  startAngle : F
  sweepAngle : F
  text : List UInt8
  lineType : Int
  deriving DecidableEq, Repr

/-- A segment with nothing set. -/
def PlotSegment.blank : PlotSegment F where
  type := .Line
  pen := 1
  x1 := o.ofNat 0
  y1 := o.ofNat 0
  x2 := o.ofNat 0
  y2 := o.ofNat 0
  radius := o.ofNat 0
  startAngle := o.ofNat 0
  sweepAngle := o.ofNat 0
  text := []
  lineType := 0

structure HpglPlotter (F : Type) where
  penX : F
  penY : F
  penDown : Bool
  selectedPen : Int
  lineType : Int
  p1X : F
  p1Y : F
  p2X : F
  p2Y : F
  scalingActive : Bool
  scXmin : F
  scXmax : F
  scYmin : F
  scYmax : F
  winX1 : F
  winY1 : F
  winX2 : F
  winY2 : F
  charWidth : F
  charHeight : F
  charDirRun : F
  charDirRise : F
  charSlant : F
  labelTerminator : UInt8
  cmdBuf : List UInt8
  inLabel : Bool
  labelBuf : List UInt8
  segments : List (PlotSegment F)
  deriving DecidableEq, Repr

namespace HpglPlotter

/-- The constructor. -/
def reset : HpglPlotter F where
  penX := o.ofNat 0
  penY := o.ofNat 0
  penDown := false
  selectedPen := 0
  lineType := -1
  p1X := o.ofNat 0
  p1Y := o.ofNat 0
  p2X := o.maxX
  p2Y := o.maxY
  scalingActive := false
  scXmin := o.ofNat 0
  scXmax := o.ofNat 1
  scYmin := o.ofNat 0
  scYmax := o.ofNat 1
  winX1 := o.ofNat 0
  winY1 := o.ofNat 0
  winX2 := o.maxX
  winY2 := o.maxY
  charWidth := o.charWidth
  charHeight := o.charHeight
  charDirRun := o.ofNat 1
  charDirRise := o.ofNat 0
  charSlant := o.ofNat 0
  labelTerminator := etx
  cmdBuf := []
  inLabel := false
  labelBuf := []
  segments := []

variable (h : HpglPlotter F)

def tx (x : F) : F :=
  if h.scalingActive then
    let frac := o.div (o.sub x h.scXmin) (o.sub h.scXmax h.scXmin)
    o.add h.p1X (o.mul frac (o.sub h.p2X h.p1X))
  else x

def ty (y : F) : F :=
  if h.scalingActive then
    let frac := o.div (o.sub y h.scYmin) (o.sub h.scYmax h.scYmin)
    o.add h.p1Y (o.mul frac (o.sub h.p2Y h.p1Y))
  else y

def push (seg : PlotSegment F) : HpglPlotter F := { h with segments := h.segments ++ [seg] }

def moveTo (x y : F) : HpglPlotter F :=
  let h' :=
    if h.penDown ∧ 0 < h.selectedPen then
      h.push { PlotSegment.blank o with
        type := .Line, pen := h.selectedPen, x1 := h.penX, y1 := h.penY, x2 := x, y2 := y, lineType := h.lineType }
    else h
  { h' with penX := x, penY := y }

def cmdIN : HpglPlotter F :=
  { h with
    penDown := false, selectedPen := 0, penX := o.ofNat 0, penY := o.ofNat 0, lineType := -1, p1X := o.ofNat 0
    p1Y := o.ofNat 0, p2X := o.maxX, p2Y := o.maxY, scalingActive := false, winX1 := o.ofNat 0, winY1 := o.ofNat 0
    winX2 := o.maxX, winY2 := o.maxY, charWidth := o.charWidth, charHeight := o.charHeight, charDirRun := o.ofNat 1
    charDirRise := o.ofNat 0, charSlant := o.ofNat 0, labelTerminator := etx }

def cmdDF : HpglPlotter F :=
  { h with
    lineType := -1, scalingActive := false, charWidth := o.charWidth, charHeight := o.charHeight, charDirRun := o.ofNat 1
    charDirRise := o.ofNat 0, charSlant := o.ofNat 0, labelTerminator := etx }

def cmdSP (p : List F) : HpglPlotter F :=
  let pen :=
    match p with
    | [] => 0
    | x :: _ => o.toInt x
  { h with penDown := false, selectedPen := if pen < 0 ∨ 2 < pen then 0 else pen }

def cmdPU (p : List F) : HpglPlotter F :=
  (pairs p).foldl (fun h c => { h with penX := h.tx o c.1, penY := h.ty o c.2 }) { h with penDown := false }

def cmdPA (p : List F) : HpglPlotter F := (pairs p).foldl (fun h c => h.moveTo o (h.tx o c.1) (h.ty o c.2)) h

def cmdPD (p : List F) : HpglPlotter F :=
  (pairs p).foldl (fun h c => h.moveTo o (h.tx o c.1) (h.ty o c.2)) { h with penDown := true }

def cmdPR (p : List F) : HpglPlotter F :=
  (pairs p).foldl
    (fun h c =>
      let dx :=
        if h.scalingActive then o.mul (o.div c.1 (o.sub h.scXmax h.scXmin)) (o.sub h.p2X h.p1X) else c.1
      let dy :=
        if h.scalingActive then o.mul (o.div c.2 (o.sub h.scYmax h.scYmin)) (o.sub h.p2Y h.p1Y) else c.2
      h.moveTo o (o.add h.penX dx) (o.add h.penY dy))
    h

def cmdCI : List F → HpglPlotter F
  | [] => h
  | r :: _ =>
    let radius := if h.scalingActive then o.mul (o.div r (o.sub h.scXmax h.scXmin)) (o.sub h.p2X h.p1X) else r
    if 0 < h.selectedPen then
      h.push { PlotSegment.blank o with
        type := .Circle, pen := h.selectedPen, x1 := h.penX, y1 := h.penY, radius := o.abs radius, lineType := h.lineType }
    else h

def cmdAA : List F → HpglPlotter F
  | x :: y :: sweep :: _ =>
    let cx := h.tx o x
    let cy := h.ty o y
    let dx := o.sub h.penX cx
    let dy := o.sub h.penY cy
    let radius := o.sqrt (o.add (o.mul dx dx) (o.mul dy dy))
    let start := o.div (o.mul (o.atan2 dy dx) (o.ofNat 180)) o.pi
    let h' :=
      if 0 < h.selectedPen ∧ o.positive radius then
        h.push { PlotSegment.blank o with
          type := .Arc, pen := h.selectedPen, x1 := cx, y1 := cy, radius, startAngle := start, sweepAngle := sweep
          lineType := h.lineType }
      else h
    let endAngle := o.div (o.mul (o.add start sweep) o.pi) (o.ofNat 180)
    { h' with penX := o.add cx (o.mul radius (o.cos endAngle)), penY := o.add cy (o.mul radius (o.sin endAngle)) }
  | _ => h

def cmdAR : List F → HpglPlotter F
  | x :: y :: sweep :: rest => h.cmdAA o ([o.add h.penX x, o.add h.penY y, sweep] ++ rest.take 1)
  | _ => h

def cmdEA : List F → HpglPlotter F
  | x :: y :: _ =>
    let x2 := h.tx o x
    let y2 := h.ty o y
    if 0 < h.selectedPen then
      let x1 := h.penX
      let y1 := h.penY
      let addLine (h : HpglPlotter F) (ax ay bx by' : F) : HpglPlotter F :=
        h.push { PlotSegment.blank o with
          type := .Line, pen := h.selectedPen, x1 := ax, y1 := ay, x2 := bx, y2 := by', lineType := h.lineType }
      addLine (addLine (addLine (addLine h x1 y1 x2 y1) x2 y1 x2 y2) x2 y2 x1 y2) x1 y2 x1 y1
    else h
  | _ => h

def cmdER : List F → HpglPlotter F
  | x :: y :: _ => h.cmdEA o [o.add h.penX x, o.add h.penY y]
  | _ => h

def cmdLT (p : List F) : HpglPlotter F :=
  let lineType :=
    match p with
    | [] => -1
    | x :: _ => o.toInt x
  { h with lineType }

def cmdLB (text : List UInt8) : HpglPlotter F :=
  if text = [] ∨ h.selectedPen = 0 then h
  else
    let h' := h.push { PlotSegment.blank o with
      type := .Label, pen := h.selectedPen, x1 := h.penX, y1 := h.penY, text, lineType := h.lineType }
    let charWUnits := o.mul (o.mul h.charWidth o.unitsPerMm) (o.ofNat 10)
    { h' with
      penX := o.add h.penX (o.mul (o.mul charWUnits (o.ofNat text.length)) h.charDirRun)
      penY := o.add h.penY (o.mul (o.mul charWUnits (o.ofNat text.length)) h.charDirRise) }

def cmdDT (params : List UInt8) : HpglPlotter F :=
  { h with
    labelTerminator :=
      match params with
      | c :: _ => c
      | [] => etx }

def cmdSI : List F → HpglPlotter F
  | w :: t :: _ => { h with charWidth := w, charHeight := t }
  | _ => h

def cmdDI : List F → HpglPlotter F
  | run :: rise :: _ => { h with charDirRun := run, charDirRise := rise }
  | _ => h

def cmdSC : List F → HpglPlotter F
  | xmin :: xmax :: ymin :: ymax :: _ =>
    if o.eq xmax xmin ∨ o.eq ymax ymin then h
    else { h with scXmin := xmin, scXmax := xmax, scYmin := ymin, scYmax := ymax, scalingActive := true }
  | _ => { h with scalingActive := false }

def cmdIP : List F → HpglPlotter F
  | x1 :: y1 :: x2 :: y2 :: _ => { h with p1X := x1, p1Y := y1, p2X := x2, p2Y := y2 }
  | _ => { h with p1X := o.ofNat 0, p1Y := o.ofNat 0, p2X := o.maxX, p2Y := o.maxY }

def cmdIW : List F → HpglPlotter F
  | x1 :: y1 :: x2 :: y2 :: _ => { h with winX1 := x1, winY1 := y1, winX2 := x2, winY2 := y2 }
  | _ => { h with winX1 := o.ofNat 0, winY1 := o.ofNat 0, winX2 := o.maxX, winY2 := o.maxY }

end HpglPlotter

/-- The number of a token, `std::stof`. -/
def number (token : List UInt8) : Option F :=
  if token.dropWhile isBlank = [] then none else o.strtof (token.dropWhile isBlank)

/-- `HpglPlotter::parse_params`: what is no number is passed over. -/
def parseParams (params : List UInt8) : List F := (Fields.fields comma params).filterMap (number o)

namespace HpglPlotter

def processCommand (h : HpglPlotter F) (cmd : List UInt8) : HpglPlotter F :=
  match cmd with
  | c0 :: c1 :: params =>
    let p := parseParams o params
    match mnemonicOf (upper c0) (upper c1) with
    | .IN => h.cmdIN o
    | .DF => h.cmdDF o
    | .LB => { h with inLabel := true, labelBuf := params }
    | .DT => h.cmdDT params
    | .SP => h.cmdSP o p
    | .PU => h.cmdPU o p
    | .PD => h.cmdPD o p
    | .PA => h.cmdPA o p
    | .PR => h.cmdPR o p
    | .CI => h.cmdCI o p
    | .AA => h.cmdAA o p
    | .AR => h.cmdAR o p
    | .EA => h.cmdEA o p
    | .ER => h.cmdER o p
    | .LT => h.cmdLT o p
    | .SI => h.cmdSI p
    | .DI => h.cmdDI p
    | .SC => h.cmdSC o p
    | .IP => h.cmdIP o p
    | .IW => h.cmdIW o p
    | .unknown => h
  | _ => h

/-- `LB` is complete in the command buffer. -/
def atLabel (cmd : List UInt8) : Bool := cmd.map upper == [0x4C, 0x42]

def feedByte (h : HpglPlotter F) (c : UInt8) : HpglPlotter F :=
  if h.inLabel then
    if c = h.labelTerminator then { h.cmdLB o h.labelBuf with labelBuf := [], inLabel := false }
    else { h with labelBuf := h.labelBuf ++ [c] }
  else if c = semicolon then
    if h.cmdBuf ≠ [] then { h.processCommand o h.cmdBuf with cmdBuf := [] } else h
  else if 0x20 ≤ c ∨ c = 0x0D ∨ c = 0x0A then
    if c ≠ 0x0D ∧ c ≠ 0x0A then
      let h := { h with cmdBuf := h.cmdBuf ++ [c] }
      if atLabel h.cmdBuf then { h with inLabel := true, labelBuf := [], cmdBuf := [] } else h
    else h
  else h

end HpglPlotter

end Koncepcja.Plotter
