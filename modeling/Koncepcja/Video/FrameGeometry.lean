import Koncepcja.Video.CrtcSpans
import Mathlib.Tactic.Ring

/-!
# The Geometry of a Frame

With the registers held, a line is `R0 + 1` characters, a row `R9 + 1` lines, and a frame `R4 + 1`
rows and `R5` lines more. `Beam` is what the end of a line changes, on plain numbers; the character
step refines it.

## Main results

- `Beam.line_at`: a line takes the beam to the next position of the frame, or to the next frame.
- `Beam.rises_eq`: the VSYNC rises of the lines of a frame.
- `Crtc.beam_char`: the last character of a line is one step of the beam, the others are none.
- `Crtc.frame_geometry`: the length of a frame, and its VSYNC.
-/

namespace Koncepcja.Video

open Koncepcja.Bytes

/-! ## The beam -/

/-- The registers that shape a frame, and the width of its VSYNC. -/
structure Geometry where
  r4 : Nat
  r5 : Nat
  r7 : Nat
  r9 : Nat
  width : Nat

/-- The vertical counters of a CRTC. -/
structure Beam where
  ra : Nat
  vcc : Nat
  vta : Nat
  vsw : Nat
  inVta : Bool
  inVsync : Bool
  r7match : Bool

namespace Geometry

/-- The lines of the `R4 + 1` rows. -/
def rowLines (g : Geometry) : Nat := (g.r4 + 1) * (g.r9 + 1)

def lines (g : Geometry) : Nat := g.rowLines + g.r5

/-- The line on which row R7 starts. -/
def vsyncAt (g : Geometry) : Nat := g.r7 * (g.r9 + 1)

/-- The registers are as wide as the chip has them. -/
structure Masked (g : Geometry) : Prop where
  r4 : g.r4 < 128
  r5 : g.r5 < 32
  r9 : g.r9 < 32
  width : g.width ≤ 16

end Geometry

namespace Beam

/-- VSYNC starts when the row counter comes to equal R7. -/
def check (g : Geometry) (b : Beam) : Beam :=
  let hit := b.vcc == g.r7
  if hit && !b.r7match && !b.inVsync then { b with inVsync := true, vsw := 0, r7match := hit }
  else { b with r7match := hit }

/-- A new frame. -/
def frame (g : Geometry) (b : Beam) : Beam := check g { b with vcc := 0, ra := 0, inVta := false, vta := 0 }

/-- A new row, or what comes after the last. -/
def row (g : Geometry) (b : Beam) : Beam :=
  if b.vcc = g.r4 then if g.r5 ≠ 0 then { b with inVta := true, vta := 0 } else frame g b
  else check g { b with vcc := (b.vcc + 1) % 128 }

/-- A line of a VSYNC under way. -/
def vsyncLine (g : Geometry) (b : Beam) : Beam :=
  if b.inVsync then { b with vsw := (b.vsw + 1) % 256, inVsync := !decide (g.width ≤ (b.vsw + 1) % 256) } else b

/-- A line of the vertical total adjust. -/
def adjust (g : Geometry) (b : Beam) : Beam :=
  let b := { b with vta := (b.vta + 1) % 256 }
  if g.r5 ≤ b.vta then frame g b else b

/-- The end of a line. -/
def line (g : Geometry) (b : Beam) : Beam :=
  let b := vsyncLine g b
  if b.inVta then adjust g b
  else if b.ra = g.r9 then row g { b with ra := 0 }
  else { b with ra := (b.ra + 1) % 32 }

/-- The beam after `k` lines. -/
def run (g : Geometry) : Nat → Beam → Beam
  | 0, b => b
  | k + 1, b => run g k (line g b)

/-- The lines of the next `k` at whose end VSYNC rises. -/
def rises (g : Geometry) : Nat → Beam → Nat
  | 0, _ => 0
  | k + 1, b => (if b.inVsync = false ∧ (line g b).inVsync = true then 1 else 0) + rises g k (line g b)

/-! ## Positions -/

/-- The beam is at line `l` of a frame. -/
structure At (g : Geometry) (l : Nat) (b : Beam) : Prop where
  lt : l < g.lines
  rows : l < g.rowLines → b.inVta = false ∧ b.vcc = l / (g.r9 + 1) ∧ b.ra = l % (g.r9 + 1)
  adjust : g.rowLines ≤ l → b.inVta = true ∧ b.vta = l - g.rowLines

variable {g : Geometry} {b : Beam} {l : Nat}

theorem check_kept (g : Geometry) (b : Beam) : (check g b).ra = b.ra ∧ (check g b).vcc = b.vcc ∧
    (check g b).vta = b.vta ∧ (check g b).inVta = b.inVta := by
  rw [check]
  split <;> exact ⟨rfl, rfl, rfl, rfl⟩

theorem vsyncLine_kept (g : Geometry) (b : Beam) : (vsyncLine g b).ra = b.ra ∧ (vsyncLine g b).vcc = b.vcc ∧
    (vsyncLine g b).vta = b.vta ∧ (vsyncLine g b).inVta = b.inVta ∧ (vsyncLine g b).r7match = b.r7match := by
  rw [vsyncLine]
  split <;> exact ⟨rfl, rfl, rfl, rfl, rfl⟩

theorem rowLines_pos (g : Geometry) : 0 < g.rowLines := Nat.mul_pos (Nat.succ_pos _) (Nat.succ_pos _)

theorem lines_pos (g : Geometry) : 0 < g.lines := Nat.add_pos_left (rowLines_pos g) _

theorem at_zero (hvcc : b.vcc = 0) (hra : b.ra = 0) (hvta : b.inVta = false) : At g 0 b where
  lt := lines_pos g
  rows _ := ⟨hvta, by rw [hvcc, Nat.zero_div], by rw [hra, Nat.zero_mod]⟩
  adjust h := absurd h (Nat.not_le.mpr (rowLines_pos g))

theorem frame_at (g : Geometry) (b : Beam) : At g 0 (frame g b) := by
  obtain ⟨hra, hvcc, -, hvta⟩ := check_kept g { b with vcc := 0, ra := 0, inVta := false, vta := 0 }
  exact at_zero hvcc hra hvta

theorem succ_div_mod (l n : Nat) (hn : 0 < n) :
    (l % n + 1 < n → (l + 1) / n = l / n ∧ (l + 1) % n = l % n + 1) ∧
    (l % n + 1 = n → (l + 1) / n = l / n + 1 ∧ (l + 1) % n = 0) := by
  have hl := Nat.div_add_mod l n
  constructor
  · intro h
    have heq : l + 1 = n * (l / n) + (l % n + 1) := by omega
    constructor
    · rw [heq, Nat.mul_add_div hn, Nat.div_eq_of_lt h, Nat.add_zero]
    · rw [heq, Nat.mul_add_mod, Nat.mod_eq_of_lt h]
  · intro h
    have heq : l + 1 = n * (l / n + 1) + 0 := by
      rw [Nat.mul_add, Nat.mul_one]
      omega
    constructor
    · rw [heq, Nat.mul_add_div hn, Nat.zero_div, Nat.add_zero]
    · rw [heq, Nat.mul_add_mod, Nat.zero_mod]

/-- What the end of line `l` does, by where `l` is. -/
inductive LineEnd (g : Geometry) (l : Nat) (b : Beam) : Prop
  | inside (hlt : l + 1 < g.rowLines) (hdiv : (l + 1) / (g.r9 + 1) = l / (g.r9 + 1))
      (hmod : (l + 1) % (g.r9 + 1) = l % (g.r9 + 1) + 1)
      (heq : line g b = { vsyncLine g b with ra := l % (g.r9 + 1) + 1 })
  | row (hlt : l + 1 < g.rowLines) (hdiv : (l + 1) / (g.r9 + 1) = l / (g.r9 + 1) + 1) (hmod : (l + 1) % (g.r9 + 1) = 0)
      (heq : line g b = check g { vsyncLine g b with ra := 0, vcc := l / (g.r9 + 1) + 1 })
  | adjusts (hlt : l + 1 < g.lines) (hlast : l + 1 = g.rowLines)
      (heq : line g b = { vsyncLine g b with ra := 0, vcc := l / (g.r9 + 1), inVta := true, vta := 0 })
  | adjusting (hlt : l + 1 < g.lines) (hle : g.rowLines ≤ l)
      (heq : line g b = { vsyncLine g b with vta := l - g.rowLines + 1 })
  | frame (hlast : l + 1 = g.lines) (b' : Beam) (hvsync : b'.inVsync = (vsyncLine g b).inVsync)
      (hvsw : b'.vsw = (vsyncLine g b).vsw) (heq : line g b = frame g b')

theorem lineEnd_rows (hg : g.Masked) (h : At g l b) (hl : l < g.rowLines) : LineEnd g l b := by
  obtain ⟨hvta, hvcc, hra⟩ := h.rows hl
  obtain ⟨hkra, hkvcc, -, hkvta, hkmatch⟩ := vsyncLine_kept g b
  have hpos : 0 < g.r9 + 1 := Nat.succ_pos _
  have hmod := Nat.mod_lt l hpos
  have hdiv := Nat.div_add_mod l (g.r9 + 1)
  obtain ⟨hsame, hnext⟩ := succ_div_mod l (g.r9 + 1) hpos
  have hvcc_le : l / (g.r9 + 1) < g.r4 + 1 := (Nat.div_lt_iff_lt_mul hpos).mpr hl
  have hr4 := hg.r4
  have hr9 := hg.r9
  have hline : line g b = if (vsyncLine g b).ra = g.r9 then row g { vsyncLine g b with ra := 0 }
      else { vsyncLine g b with ra := ((vsyncLine g b).ra + 1) % 32 } := by
    rw [line, if_neg (by rw [hkvta, hvta]; exact Bool.false_ne_true)]
  rw [hkra, hra] at hline
  by_cases hlast : l % (g.r9 + 1) = g.r9
  · obtain ⟨hd, hm⟩ := hnext (by omega)
    rw [if_pos hlast, row] at hline
    change line g b = if (vsyncLine g b).vcc = g.r4 then _ else check g { vsyncLine g b with ra := 0, vcc := ((vsyncLine g b).vcc + 1) % 128 } at hline
    rw [hkvcc, hvcc] at hline
    by_cases hend : l / (g.r9 + 1) = g.r4
    · -- the last line of the last row
      have hrows : l + 1 = g.rowLines := by
        rw [hend, hlast] at hdiv
        rw [Geometry.rowLines, Nat.add_mul, Nat.one_mul, Nat.mul_comm g.r4]
        omega
      rw [if_pos hend] at hline
      by_cases hr5 : g.r5 = 0
      · rw [if_neg (not_not_intro hr5)] at hline
        exact .frame (by rw [Geometry.lines, hr5]; exact hrows) _ rfl rfl hline
      · rw [if_pos hr5] at hline
        exact .adjusts (by rw [Geometry.lines]; omega) hrows hline
    · rw [if_neg hend, Nat.mod_eq_of_lt (by omega)] at hline
      have hlt : (l + 1) / (g.r9 + 1) < g.r4 + 1 := by omega
      exact .row ((Nat.div_lt_iff_lt_mul hpos).mp hlt) hd hm hline
  · obtain ⟨hd, hm⟩ := hsame (by omega)
    rw [if_neg hlast, Nat.mod_eq_of_lt (by omega)] at hline
    have hlt : (l + 1) / (g.r9 + 1) < g.r4 + 1 := by omega
    exact .inside ((Nat.div_lt_iff_lt_mul hpos).mp hlt) hd hm hline

theorem lineEnd (hg : g.Masked) (h : At g l b) : LineEnd g l b := by
  by_cases hl : l < g.rowLines
  · exact lineEnd_rows hg h hl
  · have hle := Nat.not_lt.mp hl
    obtain ⟨hvta, hcount⟩ := h.adjust hle
    obtain ⟨-, -, hkcount, hkvta, hkmatch⟩ := vsyncLine_kept g b
    have hlt := h.lt
    have hr5 := hg.r5
    have hline : line g b = if g.r5 ≤ ((vsyncLine g b).vta + 1) % 256 then
        Beam.frame g { vsyncLine g b with vta := ((vsyncLine g b).vta + 1) % 256 }
        else { vsyncLine g b with vta := ((vsyncLine g b).vta + 1) % 256 } := by
      rw [line, if_pos (by rw [hkvta, hvta]), adjust]
    rw [Geometry.lines] at hlt
    rw [hkcount, hcount, Nat.mod_eq_of_lt (by omega)] at hline
    by_cases hend : g.r5 ≤ l - g.rowLines + 1
    · rw [if_pos hend] at hline
      exact .frame (by rw [Geometry.lines]; omega) _ rfl rfl hline
    · rw [if_neg hend] at hline
      exact .adjusting (by rw [Geometry.lines]; omega) hle hline

/-- **The next line**: the one below, or the first of the next frame. -/
theorem line_at (hg : g.Masked) (h : At g l b) :
    (l + 1 < g.lines → At g (l + 1) (line g b)) ∧ (l + 1 = g.lines → At g 0 (line g b)) := by
  have hlines : g.lines = g.rowLines + g.r5 := rfl
  obtain ⟨hkra, hkvcc, hkvta, hkin, -⟩ := vsyncLine_kept g b
  -- The five ways a line can end, as `lineEnd` tells them apart.
  cases lineEnd hg h with
  | inside hlt hdiv hmod heq =>
    obtain ⟨hvta, hvcc, -⟩ := h.rows (by omega)
    refine ⟨fun hn => ⟨hn, fun _ => ?_, fun h => by omega⟩, fun h => by omega⟩
    rw [heq]
    exact ⟨hkin.trans hvta, by rw [hdiv]; exact hkvcc.trans hvcc, hmod.symm⟩
  | row hlt hdiv hmod heq =>
    obtain ⟨hvta, -, -⟩ := h.rows (by omega)
    refine ⟨fun hn => ⟨hn, fun _ => ?_, fun h => by omega⟩, fun h => by omega⟩
    obtain ⟨hcra, hcvcc, -, hcin⟩ := check_kept g { vsyncLine g b with ra := 0, vcc := l / (g.r9 + 1) + 1 }
    rw [heq]
    exact ⟨hcin.trans (hkin.trans hvta), hcvcc.trans hdiv.symm, hcra.trans hmod.symm⟩
  | adjusts hlt hlast heq =>
    refine ⟨fun hn => ⟨hn, fun h => by omega, fun _ => ?_⟩, fun h => by omega⟩
    rw [heq]
    exact ⟨rfl, by rw [hlast]; exact (Nat.sub_self _).symm⟩
  | adjusting hlt hle heq =>
    refine ⟨fun hn => ⟨hn, fun h => by omega, fun _ => ?_⟩, fun h => by omega⟩
    rw [heq]
    exact ⟨hkin.trans (h.adjust hle).1, by change l - g.rowLines + 1 = _; omega⟩
  | frame hlast b' _ _ heq =>
    refine ⟨fun hn => by omega, fun _ => ?_⟩
    rw [heq]
    exact frame_at g b'

theorem run_at (hg : g.Masked) (k : Nat) (h : At g l b) :
    (l + k < g.lines → At g (l + k) (run g k b)) ∧ (0 < k → l + k = g.lines → At g 0 (run g k b)) := by
  induction k generalizing l b with
  | zero => exact ⟨fun _ => h, fun h0 => absurd h0 (Nat.lt_irrefl 0)⟩
  | succ k ih =>
    obtain ⟨hnext, hframe⟩ := line_at hg h
    constructor
    · intro hlt
      have hrest := (ih (hnext (by omega))).1 (by omega)
      rwa [Nat.add_assoc, Nat.add_comm 1 k] at hrest
    · intro _ hend
      cases k with
      | zero => exact hframe hend
      | succ k => exact (ih (hnext (by omega))).2 (Nat.succ_pos k) (by omega)

theorem run_succ (g : Geometry) (k : Nat) (b : Beam) : run g (k + 1) b = line g (run g k b) := by
  induction k generalizing b with
  | zero => rfl
  | succ k ih => exact ih (line g b)

/-! ## VSYNC -/

/-- R7 is only seen to match on its own row. -/
def Matched (g : Geometry) (b : Beam) : Prop := b.r7match = true → b.vcc = g.r7

theorem line_of {P : Beam → Prop} (hcheck : ∀ b' : Beam, b'.inVsync = (vsyncLine g b).inVsync →
      b'.vsw = (vsyncLine g b).vsw → P (check g b'))
    (hkeep : ∀ b' : Beam, b'.inVsync = (vsyncLine g b).inVsync → b'.vsw = (vsyncLine g b).vsw →
      b'.vcc = b.vcc → b'.r7match = b.r7match → P b') : P (line g b) := by
  obtain ⟨-, hvcc, -, -, hmatch⟩ := vsyncLine_kept g b
  rw [line]
  split
  · rw [adjust]
    split
    · exact hcheck _ rfl rfl
    · exact hkeep _ rfl rfl hvcc hmatch
  · split
    · rw [row]
      split
      · split
        · exact hkeep _ rfl rfl hvcc hmatch
        · exact hcheck _ rfl rfl
      · exact hcheck _ rfl rfl
    · exact hkeep _ rfl rfl hvcc hmatch

theorem check_matched (g : Geometry) (b : Beam) : Matched g (check g b) := by
  rw [check]
  split <;> exact fun h => beq_iff_eq.mp h

theorem line_matched (h : Matched g b) : Matched g (line g b) := by
  refine line_of (fun b' _ _ => check_matched g b') fun b' _ _ hvcc hmatch hm => ?_
  exact hvcc.trans (h (hmatch.symm.trans hm))

/-- A VSYNC under way has counted less than sixteen lines. -/
def Bounded (b : Beam) : Prop := b.inVsync = true → b.vsw < 16

theorem check_bounded (g : Geometry) (h : Bounded b) : Bounded (check g b) := by
  rw [check]
  split
  · exact fun _ => Nat.zero_lt_succ 15
  · exact h

theorem line_bounded (hwidth : g.width ≤ 16) (h : Bounded b) : Bounded (line g b) := by
  have hline : Bounded (vsyncLine g b) := by
    rw [vsyncLine]
    split
    · intro hin
      rw [Bool.not_eq_true', decide_eq_false_iff_not] at hin
      exact Nat.lt_of_lt_of_le (Nat.not_le.mp hin) hwidth
    · exact h
  have hmoved : ∀ b' : Beam, b'.inVsync = (vsyncLine g b).inVsync → b'.vsw = (vsyncLine g b).vsw → Bounded b' :=
    fun b' hin hvsw h => hvsw ▸ hline (hin ▸ h)
  exact line_of (fun b' hin hvsw => check_bounded g (hmoved b' hin hvsw)) fun b' hin hvsw _ _ => hmoved b' hin hvsw

theorem check_vsync (g : Geometry) (b : Beam) :
    (check g b).inVsync = (b.inVsync || (b.vcc == g.r7 && !b.r7match)) ∧ (b.vcc ≠ g.r7 → (check g b).vsw = b.vsw) := by
  rw [check]
  cases b.inVsync <;> cases b.r7match <;> by_cases hhit : b.vcc = g.r7 <;> simp [hhit]

theorem vsyncAt_lt (h : g.r7 ≤ g.r4) : g.vsyncAt < g.rowLines :=
  Nat.mul_lt_mul_of_pos_right (Nat.lt_succ_of_le h) (Nat.succ_pos g.r9)

theorem line_vsync (hg : g.Masked) (hr7 : 1 ≤ g.r7) (h : At g l b) (hm : Matched g b) :
    (line g b).inVsync = ((vsyncLine g b).inVsync || decide (l + 1 = g.vsyncAt ∧ g.r7 ≤ g.r4)) ∧
    (l + 1 ≠ g.vsyncAt → (line g b).vsw = (vsyncLine g b).vsw) := by
  -- away from that line the check finds nothing, or is not made
  have hother : ∀ b' : Beam, b'.inVsync = (vsyncLine g b).inVsync → b'.vsw = (vsyncLine g b).vsw →
      ¬ (l + 1 = g.vsyncAt ∧ g.r7 ≤ g.r4) →
      b'.inVsync = ((vsyncLine g b).inVsync || decide (l + 1 = g.vsyncAt ∧ g.r7 ≤ g.r4)) ∧
      (l + 1 ≠ g.vsyncAt → b'.vsw = (vsyncLine g b).vsw) := by
    intro b' hin hvsw hnot
    rw [decide_eq_false hnot, Bool.or_false]
    exact ⟨hin, fun _ => hvsw⟩
  have hrows : g.rowLines ≤ g.lines := Nat.le_add_right _ _
  cases lineEnd hg h with
  | inside hlt hdiv hmod heq =>
    rw [heq]
    refine hother _ rfl rfl fun hat => ?_
    rw [hat.1, Geometry.vsyncAt, Nat.mul_mod_left] at hmod
    exact absurd hmod.symm (Nat.succ_ne_zero _)
  | row hlt hdiv hmod heq =>
    have hpos : 0 < g.r9 + 1 := Nat.succ_pos _
    obtain ⟨-, hvcc, -⟩ := h.rows (by omega)
    obtain ⟨-, -, -, -, hmatch⟩ := vsyncLine_kept g b
    have hline := Nat.div_add_mod (l + 1) (g.r9 + 1)
    rw [hmod, Nat.add_zero, hdiv, Nat.mul_comm] at hline
    obtain ⟨hin, hvsw⟩ := check_vsync g { vsyncLine g b with ra := 0, vcc := l / (g.r9 + 1) + 1 }
    rw [heq]
    by_cases hrow : l / (g.r9 + 1) + 1 = g.r7
    · have hat : l + 1 = g.vsyncAt := by rw [← hline, hrow, Geometry.vsyncAt]
      have hr4 : g.r7 < g.r4 + 1 := by
        rw [← hrow, ← hdiv]
        exact (Nat.div_lt_iff_lt_mul hpos).mpr hlt
      -- the row before was another one, so that R7 was not matched
      have hfresh : (vsyncLine g b).r7match = false := by
        rw [hmatch, Bool.eq_false_iff]
        intro htrue
        have := hm htrue
        omega
      refine ⟨?_, fun hne => absurd hat hne⟩
      rw [hin, decide_eq_true ⟨hat, by omega⟩]
      change (_ || (l / (g.r9 + 1) + 1 == g.r7 && !(vsyncLine g b).r7match)) = _
      rw [hfresh, hrow, beq_self_eq_true]
      rfl
    · have hnot : l + 1 ≠ g.vsyncAt := by
        intro hat
        rw [← hline, Geometry.vsyncAt] at hat
        exact hrow (Nat.eq_of_mul_eq_mul_right hpos hat)
      refine hother _ (hin.trans ?_) (hvsw hrow) fun hat => hnot hat.1
      change (_ || (l / (g.r9 + 1) + 1 == g.r7 && _)) = _
      rw [beq_eq_false_iff_ne.mpr hrow, Bool.false_and, Bool.or_false]
  | adjusts hlt hlast heq =>
    rw [heq]
    refine hother _ rfl rfl fun hat => ?_
    have := vsyncAt_lt hat.2
    omega
  | adjusting hlt hle heq =>
    rw [heq]
    refine hother _ rfl rfl fun hat => ?_
    have := vsyncAt_lt hat.2
    omega
  | frame hlast b' hvsync hvsw heq =>
    obtain ⟨hin, hsw⟩ := check_vsync g { b' with vcc := 0, ra := 0, inVta := false, vta := 0 }
    have hrow : 0 ≠ g.r7 := by omega
    rw [heq]
    refine hother _ (hin.trans ?_) ((hsw hrow).trans hvsw) fun hat => ?_
    · change (b'.inVsync || (0 == g.r7 && _)) = _
      rw [beq_eq_false_iff_ne.mpr hrow, Bool.false_and, Bool.or_false]
      exact hvsync
    · have := vsyncAt_lt hat.2
      omega

theorem run_vsync (hg : g.Masked) (hr7 : 1 ≤ g.r7) (k : Nat) (h : At g 0 b) (hm : Matched g b)
    (hbound : Bounded b) (hk : k < g.vsyncAt) (hlines : k < g.lines) :
    Matched g (run g k b) ∧ ((run g k b).inVsync = true ↔ b.inVsync = true ∧ (k = 0 ∨ b.vsw + k < g.width)) ∧
    ((run g k b).inVsync = true → (run g k b).vsw = b.vsw + k) := by
  induction k with
  | zero => exact ⟨hm, by simp [run], fun _ => rfl⟩
  | succ k ih =>
    obtain ⟨hmk, hin, hvsw⟩ := ih (by omega) (by omega)
    have hat := (run_at hg k h).1 (by omega)
    rw [Nat.zero_add] at hat
    obtain ⟨hin', hvsw'⟩ := line_vsync hg hr7 hat hmk
    -- Before the VSYNC line no pulse begins, so one that is up only counts on.
    have hne : ¬ (k + 1 = g.vsyncAt ∧ g.r7 ≤ g.r4) := fun h => by omega
    have hwidth := hg.width
    rw [decide_eq_false hne, Bool.or_false] at hin'
    rw [run_succ, hin', hvsw' (by omega), vsyncLine]
    refine ⟨line_matched hmk, ?_⟩
    cases hon : (run g k b).inVsync with
    | false =>
      rw [if_neg Bool.false_ne_true]
      have hoff : ¬ (b.inVsync = true ∧ (k = 0 ∨ b.vsw + k < g.width)) := fun h => by
        rw [hin.mpr h] at hon
        exact Bool.false_ne_true hon.symm
      refine ⟨⟨fun h => absurd (hon.symm.trans h) Bool.false_ne_true, fun h => ?_⟩,
        fun h => absurd (hon.symm.trans h) Bool.false_ne_true⟩
      exact absurd ⟨h.1, .inr (by omega)⟩ hoff
    | true =>
      obtain ⟨hb, hlt⟩ := hin.mp hon
      have hsw := hvsw hon
      have hsmall := hbound hb
      rw [if_pos rfl]
      dsimp only
      rw [hsw, Nat.mod_eq_of_lt (by omega)]
      refine ⟨?_, fun _ => by omega⟩
      rw [Bool.not_eq_true', decide_eq_false_iff_not]
      exact ⟨fun h => ⟨hb, by omega⟩, fun h => by omega⟩

theorem rises_ahead (hg : g.Masked) (hr7 : 1 ≤ g.r7) (k : Nat) (h : At g l b) (hm : Matched g b) (hk : l + k ≤ g.lines) :
    rises g k b =
      if (l < g.vsyncAt ∧ g.vsyncAt ≤ l + k ∧ g.r7 ≤ g.r4) ∧ (run g (g.vsyncAt - 1 - l) b).inVsync = false then 1 else 0 := by
  induction k generalizing l b with
  | zero =>
    rw [rises, if_neg fun h => ?_]
    omega
  | succ k ih =>
    -- The lines behind this one.
    have hrest : rises g k (line g b) = if (l + 1 < g.vsyncAt ∧ g.vsyncAt ≤ l + 1 + k ∧ g.r7 ≤ g.r4) ∧
        (run g (g.vsyncAt - 1 - (l + 1)) (line g b)).inVsync = false then 1 else 0 := by
      by_cases hend : l + 1 = g.lines
      · obtain rfl : k = 0 := by omega
        rw [rises, if_neg fun h => ?_]
        omega
      · exact ih ((line_at hg h).1 (by omega)) (line_matched hm) (by omega)
    obtain ⟨hin, -⟩ := line_vsync hg hr7 h hm
    rw [rises, hrest]
    -- Only at the start of the VSYNC line can the pulse rise, and only if it is not up already.
    by_cases hat : l + 1 = g.vsyncAt
    · rw [if_neg (fun h : (_ ∧ _) ∧ _ => by omega : ¬ ((l + 1 < g.vsyncAt ∧ _) ∧ _)), Nat.add_zero,
        show g.vsyncAt - 1 - l = 0 by omega]
      by_cases hr4 : g.r7 ≤ g.r4
      · rw [decide_eq_true ⟨hat, hr4⟩, Bool.or_true] at hin
        rw [hin]
        congr 1
        rw [eq_iff_iff]
        exact ⟨fun h => ⟨⟨by omega, by omega, hr4⟩, h.1⟩, fun h => ⟨h.2, rfl⟩⟩
      · rw [decide_eq_false fun h => hr4 h.2, Bool.or_false] at hin
        rw [if_neg fun h => ?_, if_neg fun h => hr4 h.1.2.2]
        rw [hin, vsyncLine, if_neg (by rw [h.1]; exact Bool.false_ne_true), h.1] at h
        exact Bool.false_ne_true h.2
    · rw [decide_eq_false fun h => hat h.1, Bool.or_false] at hin
      rw [if_neg fun h => ?_, Nat.zero_add]
      · by_cases hlt : l < g.vsyncAt
        · rw [show g.vsyncAt - 1 - l = g.vsyncAt - 1 - (l + 1) + 1 by omega]
          congr 1
          rw [eq_iff_iff]
          exact ⟨fun h => ⟨⟨hlt, by omega, h.1.2.2⟩, h.2⟩, fun h => ⟨⟨by omega, by omega, h.1.2.2⟩, h.2⟩⟩
        · rw [if_neg (fun h => hlt (Nat.lt_of_succ_lt h.1.1)), if_neg fun h => hlt h.1.1]
      · rw [hin, vsyncLine, if_neg (by rw [h.1]; exact Bool.false_ne_true), h.1] at h
        exact Bool.false_ne_true h.2

/-- A VSYNC that still runs on the line above row R7. -/
def RunsOn (g : Geometry) (b : Beam) : Prop := b.inVsync = true ∧ (g.vsyncAt = 1 ∨ b.vsw + (g.vsyncAt - 1) < g.width)

/-- **The VSYNC rises of a frame**: one on row R7, unless a VSYNC from before it still runs there. -/
theorem rises_eq (hg : g.Masked) (hr7 : 1 ≤ g.r7) (h : At g 0 b) (hm : Matched g b)
    (hbound : Bounded b) :
    rises g g.lines b = 1 ∧ g.r7 ≤ g.r4 ∧ ¬ RunsOn g b ∨ rises g g.lines b = 0 ∧ (g.r4 < g.r7 ∨ RunsOn g b) := by
  have hpos : 0 < g.vsyncAt := Nat.mul_pos hr7 (Nat.succ_pos _)
  rw [rises_ahead hg hr7 g.lines h hm (by omega)]
  by_cases hr4 : g.r7 ≤ g.r4
  · have hrow := vsyncAt_lt hr4
    have hlines : g.rowLines ≤ g.lines := Nat.le_add_right _ _
    obtain ⟨-, hin, -⟩ := run_vsync hg hr7 (g.vsyncAt - 1) h hm hbound (by omega) (by omega)
    have hruns : (run g (g.vsyncAt - 1) b).inVsync = true ↔ RunsOn g b := by
      rw [hin, RunsOn, show g.vsyncAt - 1 = 0 ↔ g.vsyncAt = 1 by omega]
    by_cases hon : RunsOn g b
    · rw [if_neg fun h => Bool.false_ne_true (h.2.symm.trans (hruns.mpr hon))]
      exact .inr ⟨rfl, .inr hon⟩
    · rw [if_pos ⟨⟨hpos, by omega, hr4⟩, Bool.eq_false_iff.mpr fun h => hon (hruns.mp h)⟩]
      exact .inl ⟨rfl, hr4, hon⟩
  · rw [if_neg fun h => hr4 h.1.2.2]
    exact .inr ⟨rfl, .inl (by omega)⟩

end Beam

namespace Crtc

/-! ## The chip's beam -/

/-- The registers that shape a frame. -/
def geometry (c : Crtc) : Geometry where
  r4 := (c.r 4).toNat
  r5 := (c.r 5).toNat
  r7 := (c.r 7).toNat
  r9 := (c.r 9).toNat
  width := c.vsyncWidth.toNat

/-- The vertical counters. -/
def beam (c : Crtc) : Beam where
  ra := c.ra.toNat
  vcc := c.vcc.toNat
  vta := c.vta.toNat
  vsw := c.vsw.toNat
  inVta := c.inVta
  inVsync := c.inVsync
  r7match := c.r7match

/-- The registers, the type and the character on the line are as they were. -/
def SameChar (c c' : Crtc) : Prop := c'.reg = c.reg ∧ c'.type = c.type ∧ c'.hcc = c.hcc

variable {c c' c'' : Crtc}

theorem SameChar.trans (h : SameChar c c') (h' : SameChar c' c'') : SameChar c c'' :=
  ⟨h'.1.trans h.1, h'.2.1.trans h.2.1, h'.2.2.trans h.2.2⟩

theorem SameChar.r (h : SameChar c c') (i : Nat) : c'.r i = c.r i := congrArg (byteAt · i) h.1

theorem SameChar.geometry (h : SameChar c c') : c'.geometry = c.geometry := by
  rw [Crtc.geometry, Crtc.geometry, vsyncWidth, vsyncWidth, h.2.1]
  simp only [h.r]

theorem beam_checkVsyncStart (c : Crtc) :
    c.checkVsyncStart.beam = Beam.check c.geometry c.beam ∧ SameChar c c.checkVsyncStart := by
  have hhit : (c.beam.vcc == c.geometry.r7) = (c.vcc == c.r 7) := by
    rw [Bool.eq_iff_iff, beq_iff_eq, beq_iff_eq]
    exact UInt8.toNat_inj
  have hmatch : c.beam.r7match = c.r7match := rfl
  have hin : c.beam.inVsync = c.inVsync := rfl
  rw [checkVsyncStart, Beam.check, hhit, hmatch, hin]
  split <;> exact ⟨rfl, rfl, rfl, rfl⟩

theorem beam_snapshotSplit (c : Crtc) : c.snapshotSplit.beam = c.beam ∧ SameChar c c.snapshotSplit := by
  rw [snapshotSplit]
  split
  · split <;> exact ⟨rfl, rfl, rfl, rfl⟩
  · exact ⟨rfl, rfl, rfl, rfl⟩

theorem beam_newframe (c : Crtc) : c.newframe.beam = Beam.frame c.geometry c.beam ∧ SameChar c c.newframe := by
  let c₀ : Crtc := { c with vcc := 0, ra := 0, inVta := false, vta := 0, scanline := 0, maRow := c.startAddr }
  obtain ⟨hsnap, hregs⟩ := beam_snapshotSplit c₀
  obtain ⟨hcheck, hregs'⟩ := beam_checkVsyncStart c₀.snapshotSplit
  have hreset : SameChar c c₀ := ⟨rfl, rfl, rfl⟩
  refine ⟨?_, hreset.trans (hregs.trans hregs')⟩
  change c₀.snapshotSplit.checkVsyncStart.beam = _
  rw [hcheck, hsnap, hregs.geometry]
  rfl

theorem toNat_succ_and_127 (x : UInt8) : ((x + 1) &&& 0x7F).toNat = (x.toNat + 1) % 128 := by
  rw [UInt8.toNat_and, UInt8.toNat_add]
  change (x.toNat + 1) % 256 &&& 2 ^ 7 - 1 = _
  rw [Nat.and_two_pow_sub_one_eq_mod]
  exact Nat.mod_mod_of_dvd _ (by decide)

theorem toNat_succ_and_31 (x : UInt8) : ((x + 1) &&& 0x1F).toNat = (x.toNat + 1) % 32 := by
  rw [UInt8.toNat_and, UInt8.toNat_add]
  change (x.toNat + 1) % 256 &&& 2 ^ 5 - 1 = _
  rw [Nat.and_two_pow_sub_one_eq_mod]
  exact Nat.mod_mod_of_dvd _ (by decide)

theorem beam_newrow (c : Crtc) : c.newrow.1.beam = Beam.row c.geometry c.beam ∧ SameChar c c.newrow.1 := by
  let c₀ : Crtc := { c with maRow := (c.maRow + (c.r 1).toUInt16) &&& (0x3FFF : UInt16) }
  have hrow : c.newrow = if c.vcc = c.r 4 then
      if c.r 5 ≠ 0 then ({ c₀ with inVta := true, vta := 0 }, false) else (c₀.newframe, true)
      else (({ c₀ with vcc := (c.vcc + 1) &&& 0x7F }).checkVsyncStart, false) := rfl
  have hvcc : c.beam.vcc = c.geometry.r4 ↔ c.vcc = c.r 4 := UInt8.toNat_inj
  have hr5 : c.geometry.r5 ≠ 0 ↔ c.r 5 ≠ 0 := not_congr (UInt8.toNat_inj (b := 0))
  rw [hrow, Beam.row, if_congr hvcc rfl rfl, if_congr hr5 rfl rfl]
  split
  · split
    · exact ⟨rfl, rfl, rfl, rfl⟩
    · obtain ⟨hframe, hregs⟩ := beam_newframe c₀
      exact ⟨hframe, hregs⟩
  · obtain ⟨hcheck, hregs⟩ := beam_checkVsyncStart { c₀ with vcc := (c.vcc + 1) &&& 0x7F }
    refine ⟨hcheck.trans ?_, hregs⟩
    rw [show c.beam.vcc = c.vcc.toNat from rfl, ← toNat_succ_and_127]
    rfl

theorem beam_rasterLine (c : Crtc) : c.rasterLine.1.beam =
    (if c.beam.ra = c.geometry.r9 then Beam.row c.geometry { c.beam with ra := 0 }
      else { c.beam with ra := (c.beam.ra + 1) % 32 }) ∧ SameChar c c.rasterLine.1 := by
  have hra : c.beam.ra = c.geometry.r9 ↔ c.ra = c.r 9 := UInt8.toNat_inj
  rw [rasterLine, if_congr hra rfl rfl]
  split
  · exact beam_newrow { c with ra := 0 }
  · refine ⟨?_, rfl, rfl, rfl⟩
    rw [show c.beam.ra = c.ra.toNat from rfl, ← toNat_succ_and_31]
    rfl

theorem toNat_succ (x : UInt8) : (x + 1).toNat = (x.toNat + 1) % 256 := UInt8.toNat_add x 1

theorem beam_adjustLine (c : Crtc) : c.adjustLine.beam = Beam.adjust c.geometry c.beam ∧ SameChar c c.adjustLine := by
  have hvta : c.geometry.r5 ≤ (c.beam.vta + 1) % 256 ↔ c.r 5 ≤ c.vta + 1 := by
    rw [UInt8.le_iff_toNat_le, toNat_succ]
    rfl
  have hstep : ({ c with vta := c.vta + 1 } : Crtc).beam = { c.beam with vta := (c.beam.vta + 1) % 256 } := by
    rw [show c.beam.vta = c.vta.toNat from rfl, ← toNat_succ]
    rfl
  have hadjust : c.adjustLine =
      if c.r 5 ≤ c.vta + 1 then ({ c with vta := c.vta + 1 } : Crtc).newframe else { c with vta := c.vta + 1 } := rfl
  rw [hadjust, Beam.adjust]
  dsimp only
  rw [if_congr hvta rfl rfl, ← hstep]
  split
  · exact beam_newframe { c with vta := c.vta + 1 }
  · exact ⟨rfl, rfl, rfl, rfl⟩

theorem beam_vsyncLine (c : Crtc) : c.vsyncLine.beam = Beam.vsyncLine c.geometry c.beam ∧ SameChar c c.vsyncLine := by
  have hend : decide (c.geometry.width ≤ (c.beam.vsw + 1) % 256) = decide (c.vsyncWidth ≤ c.vsw + 1) := by
    rw [decide_eq_decide, UInt8.le_iff_toNat_le, toNat_succ]
    rfl
  rw [vsyncLine, Beam.vsyncLine, hend, show c.beam.vsw = c.vsw.toNat from rfl, ← toNat_succ]
  change (if c.inVsync = true then _ else _ : Crtc).beam = (if c.inVsync = true then _ else _) ∧ _
  split <;> exact ⟨rfl, rfl, rfl, rfl⟩

theorem beam_newscanline (c : Crtc) :
    c.newscanline.beam = Beam.line c.geometry c.beam ∧ SameChar c c.newscanline := by
  obtain ⟨hvsync, hregs⟩ := beam_vsyncLine { c with scanline := c.scanline + 1 }
  have hregs : SameChar c ({ c with scanline := c.scanline + 1 } : Crtc).vsyncLine := hregs
  have hvsync : ({ c with scanline := c.scanline + 1 } : Crtc).vsyncLine.beam = Beam.vsyncLine c.geometry c.beam := hvsync
  rw [newscanline, Beam.line, ← hvsync]
  dsimp only
  generalize ({ c with scanline := c.scanline + 1 } : Crtc).vsyncLine = d at hregs ⊢
  rw [← hregs.geometry]
  change (if d.inVta = true then _ else _ : Crtc).beam = (if d.inVta = true then _ else _) ∧ SameChar c (if d.inVta = true then _ else _)
  split
  · obtain ⟨hadjust, hregs'⟩ := beam_adjustLine d
    exact ⟨hadjust, hregs.trans hregs'⟩
  · -- what follows the raster counter only sets the address of the row
    obtain ⟨hraster, hregs'⟩ := beam_rasterLine d
    generalize d.rasterLine = after at hraster hregs' ⊢
    refine ⟨Eq.trans ?_ hraster, hregs.trans (hregs'.trans ?_)⟩
    · split <;> split <;> rfl
    · split <;> split <;> exact ⟨rfl, rfl, rfl⟩

/-! ## A line of characters -/

theorem beam_displayChar (c : Crtc) : c.hsyncChar.displayChar.beam = c.beam ∧ SameChar c c.hsyncChar.displayChar := by
  rw [hsyncChar]
  split
  · exact ⟨rfl, rfl, rfl, rfl⟩
  · split <;> exact ⟨rfl, rfl, rfl, rfl⟩

theorem beam_char_inside (h : c.hcc ≠ c.r 0) : c.char.beam = c.beam ∧ SameChar { c with hcc := c.hcc + 1 } c.char := by
  obtain ⟨hbeam, hsame⟩ := beam_displayChar c
  have hne : ¬ c.hsyncChar.displayChar.hcc = c.hsyncChar.displayChar.r 0 := by rwa [hsame.2.2, hsame.r]
  rw [char, if_neg hne]
  exact ⟨hbeam, hsame.1, hsame.2.1, congrArg (· + 1) hsame.2.2⟩

theorem beam_char_last (h : c.hcc = c.r 0) :
    c.char.beam = Beam.line c.geometry c.beam ∧ SameChar { c with hcc := 0 } c.char := by
  obtain ⟨hbeam, hsame⟩ := beam_displayChar c
  have hlast : c.hsyncChar.displayChar.hcc = c.hsyncChar.displayChar.r 0 := by rwa [hsame.2.2, hsame.r]
  obtain ⟨hline, hsame'⟩ := beam_newscanline { c.hsyncChar.displayChar with hcc := 0 }
  rw [char, if_pos hlast]
  refine ⟨hline.trans ?_, hsame'.1.trans hsame.1, hsame'.2.1.trans hsame.2.1, hsame'.2.2⟩
  change Beam.line c.hsyncChar.displayChar.geometry c.hsyncChar.displayChar.beam = _
  rw [hbeam, hsame.geometry]

/-- The VSYNC rises of `n` characters. -/
def vsyncRises (n : Nat) (c : Crtc) : Nat := (views n c).countP (·.vsyncRise)

theorem vsyncRises_add (m n : Nat) (c : Crtc) : vsyncRises (m + n) c = vsyncRises m c + vsyncRises n (chars m c) := by
  rw [vsyncRises, views_add, List.countP_append]
  rfl

theorem vsyncRises_one (c : Crtc) :
    vsyncRises 1 c = if c.beam.inVsync = false ∧ c.char.beam.inVsync = true then 1 else 0 := by
  rw [vsyncRises, views, views, List.countP_singleton]
  have hrise : (c.view c.char).vsyncRise = true ↔ c.beam.inVsync = false ∧ c.char.beam.inVsync = true := by
    change (!c.inVsync && c.char.inVsync) = true ↔ c.inVsync = false ∧ c.char.inVsync = true
    rw [Bool.and_eq_true, Bool.not_eq_true']
  exact if_congr hrise rfl rfl

theorem chars_inside (h : c.hcc = 0) (k : Nat) (hk : k ≤ (c.r 0).toNat) :
    (chars k c).beam = c.beam ∧ SameChar { c with hcc := UInt8.ofNat k } (chars k c) ∧ vsyncRises k c = 0 := by
  induction k with
  | zero => exact ⟨rfl, ⟨rfl, rfl, h⟩, rfl⟩
  | succ k ih =>
    obtain ⟨hbeam, hsame, hrises⟩ := ih (by omega)
    have hreg := (c.r 0).toNat_lt
    have hcount : (UInt8.ofNat k).toNat = k := UInt8.toNat_ofNat_of_lt' (show k < 256 by omega)
    have hlt : (chars k c).hcc < (chars k c).r 0 := by
      rw [UInt8.lt_iff_toNat_lt, hsame.2.2, hsame.r]
      change (UInt8.ofNat k).toNat < (c.r 0).toNat
      omega
    obtain ⟨hbeam', hsame'⟩ := beam_char_inside (UInt8.ne_of_lt hlt)
    rw [chars_add k 1, vsyncRises_add k 1, hrises, vsyncRises_one]
    change (chars k c).char.beam = _ ∧ SameChar _ (chars k c).char ∧ _
    rw [hbeam', hbeam]
    refine ⟨rfl, ⟨hsame'.1.trans hsame.1, hsame'.2.1.trans hsame.2.1, ?_⟩, ?_⟩
    · rw [hsame'.2.2]
      change (chars k c).hcc + 1 = UInt8.ofNat (k + 1)
      rw [hsame.2.2, UInt8.ofNat_add]
      rfl
    · rw [if_neg fun h => Bool.false_ne_true (h.1.symm.trans h.2)]

theorem chars_line (h : c.hcc = 0) : (chars ((c.r 0).toNat + 1) c).beam = Beam.line c.geometry c.beam ∧
    SameChar c (chars ((c.r 0).toNat + 1) c) ∧
    vsyncRises ((c.r 0).toNat + 1) c = if c.beam.inVsync = false ∧ (Beam.line c.geometry c.beam).inVsync = true then 1 else 0 := by
  obtain ⟨hbeam, hsame, hrises⟩ := chars_inside h (c.r 0).toNat (Nat.le_refl _)
  have hgeom : (chars (c.r 0).toNat c).geometry = c.geometry := hsame.geometry
  have hlast : (chars (c.r 0).toNat c).hcc = (chars (c.r 0).toNat c).r 0 := by
    rw [hsame.2.2, hsame.r]
    exact UInt8.ofNat_toNat
  obtain ⟨hbeam', hsame'⟩ := beam_char_last hlast
  rw [chars_add _ 1, vsyncRises_add _ 1, hrises, vsyncRises_one, Nat.zero_add]
  change (chars (c.r 0).toNat c).char.beam = _ ∧ SameChar c (chars (c.r 0).toNat c).char ∧ _
  rw [hbeam', hbeam, hgeom]
  exact ⟨rfl, ⟨hsame'.1.trans hsame.1, hsame'.2.1.trans hsame.2.1, hsame'.2.2.trans h.symm⟩, rfl⟩

theorem chars_lines (h : c.hcc = 0) (k : Nat) : (chars (k * ((c.r 0).toNat + 1)) c).beam = Beam.run c.geometry k c.beam ∧
    SameChar c (chars (k * ((c.r 0).toNat + 1)) c) ∧
    vsyncRises (k * ((c.r 0).toNat + 1)) c = Beam.rises c.geometry k c.beam := by
  induction k generalizing c with
  | zero =>
    rw [Nat.zero_mul]
    exact ⟨rfl, ⟨rfl, rfl, rfl⟩, rfl⟩
  | succ k ih =>
    obtain ⟨hbeam, hsame, hrises⟩ := chars_line h
    obtain ⟨hbeam', hsame', hrises'⟩ := ih (hsame.2.2.trans h)
    rw [hsame.r, hsame.geometry, hbeam] at hbeam' hrises'
    rw [hsame.r] at hsame'
    rw [Nat.succ_mul, Nat.add_comm, chars_add, vsyncRises_add, hrises, hrises', hbeam']
    exact ⟨rfl, hsame.trans hsame', rfl⟩

/-! ## What a CRTC keeps -/

/-- No register has a bit that does not exist, and VSYNC is as the lines have left it. -/
structure Valid (c : Crtc) : Prop where
  masked : ∀ i, i < 16 → (c.r i).toNat ≤ (byteAt kRegWMask i).toNat
  matched : Beam.Matched c.geometry c.beam
  bounded : Beam.Bounded c.beam

theorem Valid.geometry_masked (h : c.Valid) : c.geometry.Masked where
  r4 := Nat.lt_succ_of_le (h.masked 4 (by decide))
  r5 := Nat.lt_succ_of_le (h.masked 5 (by decide))
  r9 := Nat.lt_succ_of_le (h.masked 9 (by decide))
  width := by
    change c.vsyncWidth.toNat ≤ 16
    rw [vsyncWidth]
    split
    · decide
    · dsimp only
      split
      · decide
      · have hreg := (c.r 3).toNat_lt
        rw [UInt8.toNat_shiftRight]
        change (c.r 3).toNat >>> 4 ≤ 16
        rw [Nat.shiftRight_eq_div_pow]
        omega

theorem Valid.of_beam (h : c.Valid) (hreg : c'.reg = c.reg) (hmatched : Beam.Matched c.geometry c'.beam)
    (hbounded : Beam.Bounded c'.beam) : c'.Valid where
  masked i hi := by
    rw [show c'.r i = c.r i from congrArg (byteAt · i) hreg]
    exact h.masked i hi
  matched hm := (hmatched hm).trans (congrArg (fun l => (byteAt l 7).toNat) hreg.symm)
  bounded := hbounded

theorem Valid.char (h : c.Valid) : c.char.Valid := by
  by_cases hlast : c.hcc = c.r 0
  · obtain ⟨hbeam, hsame⟩ := beam_char_last hlast
    refine h.of_beam hsame.1 ?_ ?_
    · rw [hbeam]
      exact Beam.line_matched h.matched
    · rw [hbeam]
      exact Beam.line_bounded h.geometry_masked.width h.bounded
  · obtain ⟨hbeam, hsame⟩ := beam_char_inside hlast
    exact h.of_beam hsame.1 (hbeam ▸ h.matched) (hbeam ▸ h.bounded)

theorem byteAt_set_le (buf : List UInt8) (i : Nat) (v : UInt8) : (byteAt (buf.set i v) i).toNat ≤ v.toNat := by
  by_cases hi : i < buf.length
  · rw [byteAt_set_self v hi]
  · rw [byteAt, List.getD_eq_default _ _ (by rw [List.length_set]; omega)]
    exact Nat.zero_le _

theorem Valid.ioWrite (h : c.Valid) (addr : UInt16) (data : UInt8) : (c.ioWrite addr data).Valid := by
  rw [Crtc.ioWrite]
  split
  · exact h
  · dsimp only
    split
    · exact ⟨h.masked, h.matched, h.bounded⟩
    · split
      · -- a register write: the bits that exist, and a check if it was R7
        rename_i _ _ hsel
        let c' : Crtc := { c with reg := c.reg.set c.regSelect.toNat (data &&& byteAt kRegWMask c.regSelect.toNat) }
        have hmasked : ∀ i, i < 16 → (c'.r i).toNat ≤ (byteAt kRegWMask i).toNat := by
          intro i hi
          by_cases hreg : c.regSelect.toNat = i
          · subst hreg
            refine Nat.le_trans (byteAt_set_le _ _ _) ?_
            rw [UInt8.toNat_and]
            exact Nat.and_le_right
          · rw [show c'.r i = c.r i from byteAt_set_ne _ _ hreg]
            exact h.masked i hi
        change Valid (if c.regSelect = 7 then c'.checkVsyncStart else c')
        split
        · obtain ⟨hbeam, hsame⟩ := beam_checkVsyncStart c'
          refine ⟨fun i hi => hsame.r i ▸ hmasked i hi, ?_, ?_⟩
          · rw [hsame.geometry, hbeam]
            exact Beam.check_matched c'.geometry c'.beam
          · rw [hbeam]
            exact Beam.check_bounded c'.geometry h.bounded
        · rename_i hne
          have hr7 : c'.r 7 = c.r 7 := byteAt_set_ne _ _ fun heq => hne (UInt8.toNat_inj.mp heq)
          exact ⟨hmasked, fun hm => (h.matched hm).trans (congrArg UInt8.toNat hr7.symm), h.bounded⟩
      · exact h

theorem valid_reset (c : Crtc) : c.reset.Valid where
  masked i _ := by
    have hzero : c.reset.r i = 0 := by
      rw [Crtc.r, byteAt, reset, List.getD_eq_getElem?_getD, List.getElem?_replicate]
      split <;> rfl
    rw [hzero]
    exact Nat.zero_le _
  matched hm := absurd hm Bool.false_ne_true
  bounded hin := absurd hin Bool.false_ne_true

/-- **Whatever is done to a CRTC, it stays valid.** -/
theorem Reachable.valid (h : c.Reachable) : c.Valid := by
  obtain ⟨ops, rfl⟩ := h
  induction ops using List.reverseRecOn with
  | nil => exact valid_reset {}
  | append_singleton ops op ih =>
    rw [List.foldl_append]
    cases op with
    | char => exact ih.char
    | ioWrite addr data => exact ih.ioWrite addr data
    | setType type => exact ⟨ih.masked, ih.matched, ih.bounded⟩
    | asic a => exact ⟨ih.masked, ih.matched, ih.bounded⟩
    | reset => exact valid_reset _

/-! ## The frame -/

/-- The first character of a frame. -/
structure FrameStart (c : Crtc) : Prop where
  hcc : c.hcc = 0
  ra : c.ra = 0
  vcc : c.vcc = 0
  inVta : c.inVta = false

/-- The characters of a frame, by the registers. -/
def frameChars (c : Crtc) : Nat :=
  ((c.r 0).toNat + 1) * (((c.r 4).toNat + 1) * ((c.r 9).toNat + 1) + (c.r 5).toNat)

/-- A VSYNC from before the frame is still running on the line above row R7. -/
def VsyncRunsOn (c : Crtc) : Prop :=
  c.inVsync = true ∧ ((c.r 7).toNat * ((c.r 9).toNat + 1) = 1 ∨
    c.vsw.toNat + ((c.r 7).toNat * ((c.r 9).toNat + 1) - 1) < c.vsyncWidth.toNat)

theorem FrameStart.at (h : c.FrameStart) : Beam.At c.geometry 0 c.beam :=
  Beam.at_zero (congrArg UInt8.toNat h.vcc) (congrArg UInt8.toNat h.ra) h.inVta

theorem not_frameStart_of_at {l : Nat} (h : Beam.At c.geometry l c.beam) (hl : l ≠ 0) : ¬ c.FrameStart := by
  intro hs
  by_cases hrows : l < c.geometry.rowLines
  · obtain ⟨-, hvcc, hra⟩ := h.rows hrows
    have hline := Nat.div_add_mod l (c.geometry.r9 + 1)
    rw [← hvcc, ← hra, show c.beam.vcc = 0 from congrArg UInt8.toNat hs.vcc, show c.beam.ra = 0 from congrArg UInt8.toNat hs.ra] at hline
    exact hl hline.symm
  · exact Bool.false_ne_true (hs.inVta.symm.trans (h.adjust (Nat.not_lt.mp hrows)).1)

/-- **The geometry of a frame.** The next frame starts after exactly the characters the registers give. VSYNC
    rises once in it if its row is one of the frame and no VSYNC from before runs on into it, and not at all otherwise. -/
theorem frame_geometry (hc : c.Reachable) (hs : c.FrameStart) :
    (chars c.frameChars c).FrameStart ∧ (∀ k, 0 < k → k < c.frameChars → ¬ (chars k c).FrameStart) ∧
    (1 ≤ c.r 7 → c.r 7 ≤ c.r 4 → ¬ c.VsyncRunsOn → vsyncRises c.frameChars c = 1) ∧
    (1 ≤ c.r 7 → c.r 7 ≤ c.r 4 → c.VsyncRunsOn → vsyncRises c.frameChars c = 0) ∧
    (c.r 4 < c.r 7 → vsyncRises c.frameChars c = 0) := by
  have hv := hc.valid
  have hg := hv.geometry_masked
  have hlen : c.frameChars = c.geometry.lines * ((c.r 0).toNat + 1) := Nat.mul_comm _ _
  obtain ⟨hbeam, hsame, hrises⟩ := chars_lines hs.hcc c.geometry.lines
  rw [← hlen] at hbeam hsame hrises
  have hlast := (Beam.run_at hg c.geometry.lines hs.at).2 (Beam.lines_pos _) (Nat.zero_add _)
  obtain ⟨hvta, hvcc, hra⟩ := hlast.rows (Beam.rowLines_pos _)
  rw [Nat.zero_div] at hvcc
  rw [Nat.zero_mod] at hra
  rw [← hbeam] at hvta hvcc hra
  have hone : ∀ h : 1 ≤ c.r 7, _ := fun h => Beam.rises_eq hg (UInt8.le_iff_toNat_le.mp h) hs.at hv.matched hv.bounded
  rw [← hrises] at hone
  refine ⟨⟨hsame.2.2.trans hs.hcc, UInt8.toNat_inj.mp hra, UInt8.toNat_inj.mp hvcc, hvta⟩, fun k hpos hk hstart => ?_,
    fun h1 h4 hruns => ?_, fun h1 h4 hruns => ?_, fun h4 => ?_⟩
  · have hchar : k % ((c.r 0).toNat + 1) < (c.r 0).toNat + 1 := Nat.mod_lt k (Nat.succ_pos _)
    have hreg := (c.r 0).toNat_lt
    have hk' := Nat.div_add_mod k ((c.r 0).toNat + 1)
    obtain ⟨hbeam', hsame', -⟩ := chars_lines hs.hcc (k / ((c.r 0).toNat + 1))
    rw [← hk', Nat.mul_comm, chars_add] at hstart
    generalize hd : chars (k / ((c.r 0).toNat + 1) * ((c.r 0).toNat + 1)) c = d at hbeam' hsame' hstart
    obtain ⟨-, hin, -⟩ := chars_inside (hsame'.2.2.trans hs.hcc) (k % ((c.r 0).toNat + 1)) (by rw [hsame'.r]; omega)
    by_cases hfirst : k % ((c.r 0).toNat + 1) = 0
    · -- the first character of a later line
      have hl : k / ((c.r 0).toNat + 1) ≠ 0 := fun h0 => by
        rw [h0, hfirst] at hk'
        omega
      have hlt : k / ((c.r 0).toNat + 1) < c.geometry.lines := by
        rw [Nat.div_lt_iff_lt_mul (Nat.succ_pos _), ← hlen]
        exact hk
      have hat := (Beam.run_at hg (k / ((c.r 0).toNat + 1)) hs.at).1 (by rwa [Nat.zero_add])
      rw [Nat.zero_add, ← hbeam', ← hsame'.geometry] at hat
      rw [hfirst] at hstart
      exact not_frameStart_of_at hat hl hstart
    · -- a character inside a line
      have hhcc : UInt8.ofNat (k % ((c.r 0).toNat + 1)) = 0 := hin.2.2.symm.trans hstart.hcc
      have hzero : (UInt8.ofNat (k % ((c.r 0).toNat + 1))).toNat = 0 := congrArg UInt8.toNat hhcc
      rw [UInt8.toNat_ofNat_of_lt' (show k % ((c.r 0).toNat + 1) < 256 by omega)] at hzero
      exact hfirst hzero
  · rcases hone h1 with ⟨heq, -, -⟩ | ⟨-, hrow | hon⟩
    · exact heq
    · exact absurd hrow (Nat.not_lt.mpr (UInt8.le_iff_toNat_le.mp h4))
    · exact absurd hon hruns
  · rcases hone h1 with ⟨-, -, hoff⟩ | ⟨heq, -⟩
    · exact absurd hruns hoff
    · exact heq
  · have h4' := UInt8.lt_iff_toNat_lt.mp h4
    rcases hone (UInt8.le_iff_toNat_le.mpr (by change 1 ≤ _; omega)) with ⟨-, hrow, -⟩ | ⟨heq, -⟩
    · exact absurd hrow (Nat.not_le.mpr h4')
    · exact heq

/-- Two rows of one line of one character, with VSYNC on the second. -/
def twoLines : List Op := [.ioWrite 0xBC00 4, .ioWrite 0xBD00 1, .ioWrite 0xBC00 7, .ioWrite 0xBD00 1]

/-- The first frame has its VSYNC. -/
theorem frame_geometry_twoLines : vsyncRises 2 (twoLines.foldl step {}) = 1 :=
  (frame_geometry ⟨twoLines, rfl⟩ ⟨by decide, by decide, by decide, by decide⟩).2.2.1
    (by decide) (by decide) (fun h => absurd h.1 (by decide))

/-- The second frame starts in the VSYNC of the first, and has none of its own. -/
theorem twoLines_no_rise : ¬ ∀ c : Crtc, c.Reachable → c.FrameStart → 1 ≤ c.r 7 → c.r 7 ≤ c.r 4 →
    vsyncRises c.frameChars c = 1 := by
  intro hall
  have hrise := hall _ ⟨twoLines ++ [.char, .char], rfl⟩ ⟨by decide, by decide, by decide, by decide⟩ (by decide) (by decide)
  exact absurd hrise (by decide)

end Crtc

end Koncepcja.Video
