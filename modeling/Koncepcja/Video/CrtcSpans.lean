import Koncepcja.Video.Crtc

/-!
# Spans of Quiet Characters

Between the character on which HSYNC starts, the one that ends the line and the ones an HSYNC runs
over, nothing but the character counter moves. `crtc_advance_view` writes such a span in closed form
and steps the rest; `crtc_irq_horizon_chars` tells how far off the next event is.

## Main results

- `Crtc.char_of_quiet`: a quiet character moves only the counter and the display.
- `Crtc.advanceView_eq`: the batched advance is the characters one at a time.
- `Crtc.horizon_conservative_iff`: when the interrupt horizon is a lower bound.
-/

namespace Koncepcja.Video

open Koncepcja.Bytes

namespace Crtc

/-! ## The batched advance -/

/-- The display window is open in this row. -/
def rowActive (c : Crtc) : Bool := c.dispSkew.isSome && decide (c.vcc < c.r 6)

/-- The display enable inside a span, from the row's own and the two edges of the window. -/
def spanDispen (c : Crtc) (h : Nat) : Bool :=
  c.rowActive && decide ((c.dispSkew.getD 0xFF).toNat ≤ h) && decide (h < (c.dispSkew.getD 0xFF).toNat + (c.r 1).toNat)

/-- The vertical scroll of a span: what it adds to each address, and the row it fetches. -/
def spanScroll (c : Crtc) : UInt16 × UInt8 :=
  match c.activeAsic with
  | some a =>
    if a.vscroll = 0 then (0, c.ra)
    else
      let raEff := c.ra.toNat + a.vscroll.toNat
      if raEff ≤ (c.r 9).toNat then (0, UInt8.ofNat raEff)
      else ((c.r 1).toUInt16, UInt8.ofNat (raEff - ((c.r 9).toNat + 1)))
  | none => (0, c.ra)

/-- The view of character `k` of a span. -/
def spanView (c : Crtc) (k : Nat) : CharView where
  ma := (c.maRow + UInt16.ofNat (c.hcc.toNat + k) + c.spanScroll.1) &&& (0x3FFF : UInt16)
  ra := c.spanScroll.2
  hsync := false
  vsync := c.inVsync
  dispen := c.spanDispen (c.hcc.toNat + k)
  frameLine := c.scanline

/-- The state `n` characters of a span leave behind. -/
def afterSpan (c : Crtc) (n : Nat) : Crtc :=
  let last := c.hcc.toNat + n - 1
  { c with
    ma := (c.maRow + UInt16.ofNat last) &&& (0x3FFF : UInt16)
    dispen := c.spanDispen last
    hcc := UInt8.ofNat (c.hcc.toNat + n) }

/-- The characters of the span that starts here, out of `left`: up to the HSYNC and the end of the
    line. -/
def spanLength (c : Crtc) (left : Nat) : Nat :=
  if !c.inHsync ∧ c.hcc < c.r 0 then
    let toEnd := (c.r 0).toNat - c.hcc.toNat
    let n := if c.hsyncWidth ≠ 0 ∧ c.hcc ≤ c.r 2 ∧ c.r 2 ≤ c.r 0 then min ((c.r 2).toNat - c.hcc.toNat) toEnd else toEnd
    min n left
  else 0

/-- `crtc_advance_view`: the views of `n` characters and the state behind them. -/
def advanceView (n : Nat) (c : Crtc) : List CharView × Crtc :=
  if n = 0 then ([], c)
  else if c.spanLength n = 0 then
    -- an event character takes the single step
    let (rest, c') := advanceView (n - 1) c.char
    (c.view c.char :: rest, c')
  else
    let (rest, c') := advanceView (n - c.spanLength n) (c.afterSpan (c.spanLength n))
    ((List.range (c.spanLength n)).map c.spanView ++ rest, c')
termination_by n

/-! ## A quiet character -/

/-- Nothing but the counter moves: no HSYNC runs or starts, and the line does not end. -/
structure Quiet (c : Crtc) : Prop where
  hsync : c.inHsync = false
  line : c.hcc < c.r 0
  start : ¬ (c.hcc = c.r 2 ∧ c.hsyncWidth ≠ 0)

theorem spanDispen_eq (c : Crtc) (h : Nat) : c.spanDispen h = c.displays h := by
  rw [spanDispen, rowActive, displays]
  cases c.dispSkew with
  | none => rfl
  | some skew =>
    simp only [Option.isSome_some, Option.getD_some, Bool.true_and]
    rw [Bool.and_assoc, Bool.and_comm]

theorem char_of_quiet {c : Crtc} (h : c.Quiet) : c.char = c.afterSpan 1 := by
  have hne : c.hcc ≠ c.r 0 := UInt8.ne_of_lt h.line
  have hsync : c.hsyncChar = c := by
    rw [hsyncChar, if_neg h.start, h.hsync]
    rfl
  have haddr : c.hcc.toUInt16 = UInt16.ofNat (c.hcc.toNat + 1 - 1) := by
    rw [Nat.add_sub_cancel, ← UInt16.toNat_inj, UInt8.toNat_toUInt16, UInt16.toNat_ofNat_of_lt']
    exact Nat.lt_trans c.hcc.toNat_lt (by decide)
  have hcount : c.hcc + 1 = UInt8.ofNat (c.hcc.toNat + 1) := by
    rw [UInt8.ofNat_add, UInt8.ofNat_toNat]
    rfl
  rw [char, hsync, if_neg (show ¬ c.displayChar.hcc = c.displayChar.r 0 from hne), afterSpan, displayChar,
    spanDispen_eq, haddr]
  change { c with hcc := c.hcc + 1, ma := _, dispen := _ } = _
  rw [hcount]
  rfl

/-- `n` quiet characters in a row, starting here. -/
structure Span (c : Crtc) (n : Nat) : Prop where
  hsync : c.inHsync = false
  line : c.hcc.toNat + n ≤ (c.r 0).toNat
  start : c.hsyncWidth ≠ 0 → ∀ k < n, c.hcc.toNat + k ≠ (c.r 2).toNat

variable {c : Crtc} {n : Nat}

theorem Span.quiet (h : c.Span (n + 1)) : c.Quiet where
  hsync := h.hsync
  line := by
    have := h.line
    rw [UInt8.lt_iff_toNat_lt]
    omega
  start := fun ⟨heq, hwidth⟩ => h.start hwidth 0 (Nat.zero_lt_succ n) (congrArg UInt8.toNat heq)

theorem Span.hcc_afterSpan {k : Nat} (h : c.Span n) (hk : k ≤ n) : (c.afterSpan k).hcc.toNat = c.hcc.toNat + k := by
  have hline := h.line
  have hreg := (c.r 0).toNat_lt
  change (UInt8.ofNat (c.hcc.toNat + k)).toNat = _
  rw [UInt8.toNat_ofNat_of_lt' (show c.hcc.toNat + k < UInt8.size by change _ < 256; omega)]

theorem Span.tail (h : c.Span (n + 1)) : (c.afterSpan 1).Span n where
  hsync := h.hsync
  line := by
    have hline := h.line
    rw [h.hcc_afterSpan (by omega)]
    change c.hcc.toNat + 1 + n ≤ (c.r 0).toNat
    omega
  start := fun hwidth k hk => by
    rw [h.hcc_afterSpan (by omega), Nat.add_assoc, Nat.add_comm 1 k]
    exact h.start hwidth (k + 1) (by omega)

theorem Span.spanView_tail (h : c.Span (n + 1)) (k : Nat) : (c.afterSpan 1).spanView k = c.spanView (k + 1) := by
  have hhcc : (c.afterSpan 1).hcc.toNat + k = c.hcc.toNat + (k + 1) := by
    rw [h.hcc_afterSpan (by omega)]
    omega
  rw [spanView, spanView, hhcc]
  rfl

theorem Span.afterSpan_tail (h : c.Span (n + 1)) : (c.afterSpan 1).afterSpan n = c.afterSpan (n + 1) := by
  have hhcc : (c.afterSpan 1).hcc.toNat + n = c.hcc.toNat + (n + 1) := by
    rw [h.hcc_afterSpan (by omega)]
    omega
  rw [afterSpan, hhcc]
  rfl

theorem and_add_and (x y : UInt16) : ((x &&& (0x3FFF : UInt16)) + y) &&& (0x3FFF : UInt16) = (x + y) &&& (0x3FFF : UInt16) := by
  have hmask : ∀ z : UInt16, (z &&& (0x3FFF : UInt16)).toNat = z.toNat % 2 ^ 14 := fun z => by
    rw [UInt16.toNat_and]
    exact Nat.and_two_pow_sub_one_eq_mod z.toNat 14
  apply UInt16.toNat_inj.mp
  rw [hmask, hmask, UInt16.toNat_add, UInt16.toNat_add, hmask]
  omega

theorem view_of_quiet (h : c.Quiet) : c.view c.char = c.spanView 0 := by
  -- The soft scroll of the Plus, and nothing on a plain machine.
  have hscroll : ((c.afterSpan 1).applyVscroll (c.afterSpan 1).ma (c.afterSpan 1).ra) =
      ((c.spanView 0).ma, (c.spanView 0).ra) := by
    rw [applyVscroll, spanView, spanScroll]
    change (match c.activeAsic with
      | some a => _
      | none => ((c.maRow + UInt16.ofNat (c.hcc.toNat + 1 - 1)) &&& (0x3FFF : UInt16), c.ra)) = _
    cases c.activeAsic with
    | none => simp only [UInt16.add_zero]; rfl
    | some a =>
      dsimp only
      split
      · simp only [UInt16.add_zero]; rfl
      · change (if c.ra.toNat + a.vscroll.toNat ≤ (c.r 9).toNat then _ else _) = _
        split
        · simp only [UInt16.add_zero]; rfl
        · change (((c.maRow + UInt16.ofNat (c.hcc.toNat + 1 - 1)) &&& (0x3FFF : UInt16)) + (c.r 1).toUInt16 &&&
            (0x3FFF : UInt16), _) = _
          rw [and_add_and]
          rfl
  -- A quiet character starts and ends no sync.
  have hsync : (!c.inHsync && (c.afterSpan 1).inHsync) = false ∧ (c.inHsync && !(c.afterSpan 1).inHsync) = false := by
    change (!c.inHsync && c.inHsync) = false ∧ (c.inHsync && !c.inHsync) = false
    rw [h.hsync]
    exact ⟨rfl, rfl⟩
  have hvsync : ∀ b : Bool, (!b && b) = false ∧ (b && !b) = false := by decide
  rw [char_of_quiet h, view, hscroll, hsync.1, hsync.2, show (c.afterSpan 1).inVsync = c.inVsync from rfl,
    (hvsync c.inVsync).1, (hvsync c.inVsync).2, show (c.afterSpan 1).inHsync = false from h.hsync]
  rfl

theorem Span.views_eq (h : c.Span n) : views n c = (List.range n).map c.spanView := by
  induction n generalizing c with
  | zero => rfl
  | succ n ih =>
    have htail : (List.range n).map (c.afterSpan 1).spanView = (List.range n).map (c.spanView ∘ Nat.succ) :=
      List.map_congr_left fun k _ => h.spanView_tail k
    rw [views, view_of_quiet h.quiet, char_of_quiet h.quiet, ih h.tail, List.range_succ_eq_map, List.map_cons,
      List.map_map, htail]

theorem Span.chars_eq (h : c.Span n) (hn : n ≠ 0) : chars n c = c.afterSpan n := by
  induction n generalizing c with
  | zero => exact absurd rfl hn
  | succ n ih =>
    rw [chars, char_of_quiet h.quiet, ← h.afterSpan_tail]
    by_cases hlast : n = 0
    · subst hlast
      rw [h.afterSpan_tail]
      rfl
    · exact ih h.tail hlast

theorem span_spanLength (c : Crtc) (left : Nat) (hne : c.spanLength left ≠ 0) : c.Span (c.spanLength left) := by
  rw [spanLength] at hne ⊢
  split at hne
  · next hquiet =>
    rw [if_pos hquiet]
    have hline := UInt8.lt_iff_toNat_lt.mp hquiet.2
    refine ⟨by simpa using hquiet.1, ?_, fun hwidth k hk heq => ?_⟩
    · dsimp only
      split <;> omega
    · dsimp only at hk
      have hend : k < (c.r 0).toNat - c.hcc.toNat := by split at hk <;> omega
      -- a character on R2 would lie before the cut at R2
      have hcut : c.hsyncWidth ≠ 0 ∧ c.hcc ≤ c.r 2 ∧ c.r 2 ≤ c.r 0 :=
        ⟨hwidth, UInt8.le_iff_toNat_le.mpr (by omega), UInt8.le_iff_toNat_le.mpr (by omega)⟩
      rw [if_pos hcut] at hk
      omega
  · exact absurd rfl hne

/-- **`crtc_advance_view` is its characters one at a time**: the same views, and the same state behind
    them. -/
theorem advanceView_eq (n : Nat) (c : Crtc) : advanceView n c = (views n c, chars n c) := by
  induction n, c using advanceView.induct with
  | case1 c => rw [advanceView, if_pos rfl]; rfl
  | case2 n c hn hspan _ _ _ ih =>
    obtain ⟨n, rfl⟩ := Nat.exists_eq_succ_of_ne_zero hn
    rw [advanceView, if_neg hn, if_pos hspan, ih]
    rfl
  | case3 n c hn hspan _ _ _ ih =>
    have hle : c.spanLength n ≤ n := by
      rw [spanLength]
      split
      · exact Nat.min_le_right _ _
      · exact Nat.zero_le _
    have hquiet := c.span_spanLength n hspan
    have hsplit : n = c.spanLength n + (n - c.spanLength n) := by omega
    rw [advanceView, if_neg hn, if_neg hspan, ih]
    dsimp only
    rw [← hquiet.views_eq, ← hquiet.chars_eq hspan, ← views_add, ← chars_add, ← hsplit]

/-! ## The interrupt horizon -/

/-- `crtc_irq_horizon_chars`. -/
def irqHorizon (c : Crtc) : Nat :=
  if c.r 0 < c.hcc then 1
  else
    let h := (c.r 0).toNat - c.hcc.toNat + 1
    let width := c.hsyncWidth
    if c.inHsync ∧ width ≠ 0 then min (if width ≤ c.hsw then 1 else width.toNat - c.hsw.toNat) h
    else if c.hcc ≤ c.r 2 ∧ c.r 2 ≤ c.r 0 ∧ width ≠ 0 then min ((c.r 2).toNat - c.hcc.toNat + 1 + width.toNat) h
    else h

/-- The next character ends no HSYNC, changes no VSYNC and does not end the line. -/
structure EventFree (c : Crtc) : Prop where
  hsync : c.inHsync = true → c.char.inHsync = true
  vsync : c.char.inVsync = c.inVsync
  line : c.hcc ≠ c.r 0

/-- The horizon is a lower bound: the characters before it bring no event. -/
def HorizonHolds (c : Crtc) : Prop := ∀ k < c.irqHorizon - 1, (chars k c).EventFree

/-- An HSYNC is under way that R3 no longer gives a width, in the middle of a line. -/
def Stranded (c : Crtc) : Prop := c.inHsync = true ∧ c.hsyncWidth = 0 ∧ c.hcc < c.r 0

theorem char_of_lt {c : Crtc} (h : c.hcc < c.r 0) : c.char = { c.hsyncChar.displayChar with hcc := c.hcc + 1 } := by
  have hkept : c.hsyncChar.hcc = c.hcc ∧ c.hsyncChar.reg = c.reg := by
    rw [hsyncChar]
    split
    · exact ⟨rfl, rfl⟩
    · split <;> exact ⟨rfl, rfl⟩
  have hne : ¬ c.hsyncChar.displayChar.hcc = c.hsyncChar.displayChar.r 0 := by
    change ¬ c.hsyncChar.hcc = byteAt c.hsyncChar.reg 0
    rw [hkept.1, hkept.2]
    exact UInt8.ne_of_lt h
  rw [char, if_neg hne]
  change { c.hsyncChar.displayChar with hcc := c.hsyncChar.hcc + 1 } = _
  rw [hkept.1]

theorem char_inside {c : Crtc} (h : c.hcc < c.r 0) : c.char.reg = c.reg ∧ c.char.type = c.type ∧
    c.char.inVsync = c.inVsync ∧ c.char.hcc.toNat = c.hcc.toNat + 1 ∧ c.char.inHsync = c.hsyncChar.inHsync ∧
    c.char.hsw = c.hsyncChar.hsw := by
  have hlt := UInt8.lt_iff_toNat_lt.mp h
  have hreg := (c.r 0).toNat_lt
  have hkept : c.hsyncChar.reg = c.reg ∧ c.hsyncChar.type = c.type ∧ c.hsyncChar.inVsync = c.inVsync := by
    rw [hsyncChar]
    split
    · exact ⟨rfl, rfl, rfl⟩
    · split <;> exact ⟨rfl, rfl, rfl⟩
  rw [char_of_lt h]
  refine ⟨hkept.1, hkept.2.1, hkept.2.2, ?_, rfl, rfl⟩
  change (c.hcc + 1).toNat = _
  rw [UInt8.toNat_add]
  exact Nat.mod_eq_of_lt (by change c.hcc.toNat + 1 < 256; omega)

theorem hsyncWidth_le (c : Crtc) : c.hsyncWidth.toNat ≤ 16 := by
  rw [hsyncWidth]
  split
  · decide
  · rw [UInt8.toNat_and]
    exact Nat.le_trans Nat.and_le_right (by decide)

theorem hsyncChar_of_lt {c : Crtc} (hin : c.inHsync = true) (hlt : c.hsw.toNat + 1 < c.hsyncWidth.toNat) :
    c.hsyncChar.inHsync = true ∧ c.hsyncChar.hsw.toNat ≤ c.hsw.toNat + 1 := by
  have hwidth := c.hsyncWidth_le
  have hsucc : (c.hsw + 1).toNat = c.hsw.toNat + 1 := by
    rw [UInt8.toNat_add]
    exact Nat.mod_eq_of_lt (by change c.hsw.toNat + 1 < 256; omega)
  rw [hsyncChar]
  split
  · exact ⟨rfl, Nat.zero_le _⟩
  · refine ⟨?_, Nat.le_of_eq hsucc⟩
    change (!decide (c.hsyncWidth ≤ c.hsw + 1)) = true
    rw [decide_eq_false (by rw [UInt8.le_iff_toNat_le, hsucc]; omega)]
    rfl

theorem irqHorizon_of_le {c : Crtc} (h : c.hcc.toNat ≤ (c.r 0).toNat) : c.irqHorizon =
    if c.inHsync ∧ c.hsyncWidth.toNat ≠ 0 then
      min (if c.hsyncWidth.toNat ≤ c.hsw.toNat then 1 else c.hsyncWidth.toNat - c.hsw.toNat)
        ((c.r 0).toNat - c.hcc.toNat + 1)
    else if c.hcc.toNat ≤ (c.r 2).toNat ∧ (c.r 2).toNat ≤ (c.r 0).toNat ∧ c.hsyncWidth.toNat ≠ 0 then
      min ((c.r 2).toNat - c.hcc.toNat + 1 + c.hsyncWidth.toNat) ((c.r 0).toNat - c.hcc.toNat + 1)
    else (c.r 0).toNat - c.hcc.toNat + 1 := by
  have hne : ∀ v : UInt8, v ≠ 0 ↔ v.toNat ≠ 0 := fun v => not_congr UInt8.toNat_inj.symm
  rw [irqHorizon, if_neg (by rw [UInt8.lt_iff_toNat_lt]; omega)]
  simp only [hne, UInt8.le_iff_toNat_le]

theorem eventFree_of_horizon {c : Crtc} (hbefore : 1 < c.irqHorizon) (hok : ¬ c.Stranded) :
    c.EventFree ∧ c.irqHorizon ≤ c.char.irqHorizon + 1 ∧ ¬ c.char.Stranded := by
  have hle : c.hcc.toNat ≤ (c.r 0).toNat := by
    by_contra hgt
    rw [irqHorizon, if_pos (UInt8.lt_iff_toNat_lt.mpr (Nat.not_le.mp hgt))] at hbefore
    omega
  have hh := irqHorizon_of_le hle
  have hlt : c.hcc.toNat < (c.r 0).toNat := by
    rw [hh] at hbefore
    split at hbefore
    · omega
    · split at hbefore <;> omega
  have hline : c.hcc < c.r 0 := UInt8.lt_iff_toNat_lt.mpr hlt
  obtain ⟨hreg, htype, hvsync, hhcc, hhsync, hhsw⟩ := char_inside hline
  have hr : ∀ i, c.char.r i = c.r i := fun i => congrArg (byteAt · i) hreg
  have hwidth : c.char.hsyncWidth = c.hsyncWidth := by rw [hsyncWidth, hsyncWidth, hr, htype]
  have hh' := irqHorizon_of_le (c := c.char) (by rw [hhcc, hr]; omega)
  rw [hhcc, hr, hr, hwidth, hhsync, hhsw] at hh'
  have hne : c.hcc ≠ c.r 0 := UInt8.ne_of_lt hline
  cases hin : c.inHsync with
  | true =>
    have hpos : c.hsyncWidth.toNat ≠ 0 := fun h0 => hok ⟨hin, UInt8.toNat_inj.mp h0, hline⟩
    rw [hin, if_pos ⟨rfl, hpos⟩] at hh
    -- an HSYNC under way: it goes on for as long as the horizon says
    obtain ⟨hon, hsw⟩ := hsyncChar_of_lt hin (by split at hh <;> omega)
    rw [hon, if_pos ⟨rfl, hpos⟩] at hh'
    refine ⟨⟨fun _ => hhsync.trans hon, hvsync, hne⟩, ?_, fun hs => hpos ?_⟩
    · split at hh <;> split at hh' <;> omega
    · rw [← hwidth, hs.2.1]
      rfl
  | false =>
    rw [hin, if_neg (by simp)] at hh
    by_cases hrise : c.hcc.toNat = (c.r 2).toNat ∧ c.hsyncWidth.toNat ≠ 0
    · -- HSYNC starts on this character and falls a width later
      have hchar : c.hsyncChar = { c with inHsync := true, hsw := 0 } :=
        if_pos ⟨UInt8.toNat_inj.mp hrise.1, fun h0 => hrise.2 (congrArg UInt8.toNat h0)⟩
      rw [hchar, if_pos ⟨rfl, hrise.2⟩] at hh'
      rw [if_pos (by omega)] at hh
      change _ = min (if c.hsyncWidth.toNat ≤ 0 then 1 else c.hsyncWidth.toNat - 0) _ at hh'
      refine ⟨⟨fun h => absurd (hin.symm.trans h) Bool.false_ne_true, hvsync, hne⟩, ?_, fun hs => hrise.2 ?_⟩
      · split at hh' <;> omega
      · rw [← hwidth, hs.2.1]
        rfl
    · have hchar : c.hsyncChar = c := by
        rw [hsyncChar, if_neg fun h => hrise ⟨congrArg UInt8.toNat h.1, fun h0 => h.2 (UInt8.toNat_inj.mp h0)⟩, hin]
        rfl
      rw [hchar, hin, if_neg (by simp)] at hh'
      refine ⟨⟨fun h => absurd (hin.symm.trans h) Bool.false_ne_true, hvsync, hne⟩, ?_, fun hs => ?_⟩
      · split at hh <;> split at hh' <;> omega
      · rw [Stranded, hhsync, hchar, hin] at hs
        exact Bool.false_ne_true hs.1

/-- **The horizon is a lower bound unless an HSYNC is stranded**: R3 written to a width of zero on types
    0 and 1 ends it on the very next character. -/
theorem horizon_conservative_iff (c : Crtc) : c.HorizonHolds ↔ ¬ c.Stranded := by
  constructor
  · rintro hholds ⟨hin, hwidth, hline⟩
    have hlt := UInt8.lt_iff_toNat_lt.mp hline
    have hhor := irqHorizon_of_le (c := c) (by omega)
    have hnot : ¬ c.hsyncWidth.toNat ≠ 0 := by
      rw [hwidth]
      decide
    rw [if_neg fun h => hnot h.2, if_neg fun h => hnot h.2.2] at hhor
    have hfall : c.char.inHsync = false := by
      rw [(char_inside hline).2.2.2.2.1, hsyncChar, if_neg fun h => h.2 hwidth, if_pos hin]
      change (!decide (c.hsyncWidth ≤ c.hsw + 1)) = false
      rw [hwidth, decide_eq_true UInt8.zero_le]
      rfl
    have hfree := hholds 0 (by omega)
    exact Bool.false_ne_true (hfall.symm.trans (hfree.hsync hin))
  · intro hok k
    induction k generalizing c with
    | zero => exact fun hk => (eventFree_of_horizon (by omega) hok).1
    | succ k ih =>
      intro hk
      obtain ⟨-, hcloser, hok'⟩ := eventFree_of_horizon (by omega) hok
      exact ih c.char hok' (by omega)

/-- A type 0 CRTC on which R3 is cleared while its HSYNC runs. -/
def strandedRun : List Op :=
  [.ioWrite 0xBC00 0, .ioWrite 0xBD00 63, .ioWrite 0xBC00 3, .ioWrite 0xBD00 0x0E, .char, .ioWrite 0xBD00 0]

/-- The horizon says 63 characters, and HSYNC falls on the first. -/
theorem horizon_past_fall : ¬ ∀ c : Crtc, c.Reachable → c.HorizonHolds := by
  intro hall
  have hfree := hall _ ⟨strandedRun, rfl⟩ 0 (by decide)
  exact absurd (hfree.hsync (by decide)) (by decide)

end Crtc

end Koncepcja.Video
