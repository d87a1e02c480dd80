import Koncepcja.Disk.KryoFlux
import Mathlib.Data.List.TakeWhile

/-!
# The Blocks of a KryoFlux Stream

The first pass accepts the texts of the format, and collects what the format says: the overflows behind one transition
count for the next one, whose position is the first of them, and blocks out of band have no position at all.

## Main results

- `scanStream_block`, `scanStream_blocks`: a block, or a run of blocks, is one step each.
- `blocks_of_scanStream`: what is accepted is a sequence of blocks.
- `scanStream_iff`: what is accepted, and what is collected from it.
-/

namespace Koncepcja.Disk.KryoFlux

open Koncepcja.Bytes

variable {strtod : List UInt8 → Option ℚ} {s : Scan} {rest : List UInt8}

/-! ## One block -/

/-- What a block makes of the state. -/
def Scan.step (strtod : List UInt8 → Option ℚ) (s : Scan) : Block → Scan
  | .ovl16 => s.overflow
  | .oob type body =>
    { s with
      idx := s.idx ++ (Block.oob type body).index.toList
      sckHz := if type = 0x04 then parseKfinfo strtod body s.sckHz else s.sckHz }
  | b =>
    match b.flux with
    | some v => s.transition v b.inBand
    | none => s.nop b.inBand

theorem outOfBand_of_valid {type : UInt8} {body : List UInt8} (h : (Block.oob type body).Valid) :
    s.outOfBand strtod type body = .ok (s.step strtod (.oob type body)) := by
  rw [Scan.outOfBand]
  by_cases hindex : type = 0x02
  · have hlen : ¬body.length < 12 := Nat.not_lt.mpr (h.2.2 hindex)
    subst hindex
    rw [if_pos rfl, if_neg hlen]
    rfl
  · rw [if_neg hindex, Scan.step, Block.index, if_neg hindex]
    by_cases hinfo : type = 0x04
    · simp [hinfo]
    · simp [hinfo]

theorem rd16le_length {n : Nat} (h : n < 2 ^ 16) : rd16le [UInt8.ofNat n, UInt8.ofNat (n / 256)] 0 = n := by
  simp only [rd16le, byteAt, List.getD_cons_zero, List.getD_cons_succ, UInt8.toNat_ofNat']
  omega

theorem scanStream_block {b : Block} (h : b.Valid) :
    scanStream strtod s (b.bytes ++ rest) = scanStream strtod (s.step strtod b) rest := by
  cases b with
  | flux1 v =>
    have hv : 0x0E ≤ v.toNat := h
    rw [scanStream.eq_def]
    exact if_pos hv
  | flux2 v lo =>
    have hv : v.toNat ≤ 0x07 := h
    have hlow : ¬0x0E ≤ v.toNat := by omega
    rw [scanStream.eq_def]
    dsimp only [Block.bytes, List.cons_append, List.nil_append]
    rw [if_neg hlow, if_pos hv]
    rfl
  | oob type body =>
    have hsize := rd16le_length h.2.1
    rw [scanStream.eq_def]
    simp only [Block.bytes, List.cons_append]
    rw [if_neg (by decide), if_neg (by decide), if_neg (by decide), if_neg (by decide), if_neg (by decide),
      if_neg (by decide), if_neg (by decide), if_neg h.1, hsize, if_neg (by simp), List.take_left, List.drop_left,
      outOfBand_of_valid h]
  | _ =>
    -- the header of each of these is one byte, which the cases are told apart by
    rw [scanStream.eq_def]
    rfl

theorem scanStream_blocks {blocks : List Block} (h : ∀ b ∈ blocks, b.Valid) :
    scanStream strtod s (blocks.flatMap Block.bytes ++ rest) = scanStream strtod (blocks.foldl (Scan.step strtod) s) rest := by
  induction blocks generalizing s with
  | nil => rfl
  | cons b blocks ih =>
    rw [List.flatMap_cons, List.append_assoc, scanStream_block (h b List.mem_cons_self), List.foldl_cons]
    exact ih fun c hc => h c (List.mem_cons_of_mem b hc)

/-! ## What is accepted -/

/-- The end of a stream: no byte, or the block that ends it, with whatever is behind it. -/
def Stop (tail : List UInt8) : Prop := tail = [] ∨ ∃ lo hi rest, tail = 0x0D :: 0x0D :: lo :: hi :: rest

theorem scanStream_stop {tail : List UInt8} (h : Stop tail) : scanStream strtod s tail = .ok s := by
  rcases h with rfl | ⟨lo, hi, rest, rfl⟩
  · rw [scanStream]
  · rw [scanStream.eq_def]
    rfl

/-- The text of some blocks, up to the end of a stream. -/
def Accepted (data : List UInt8) : Prop :=
  ∃ (blocks : List Block) (tail : List UInt8),
    (∀ b ∈ blocks, b.Valid) ∧ Stop tail ∧ data = blocks.flatMap Block.bytes ++ tail

theorem accepted_block {b : Block} (hb : b.Valid) (h : Accepted rest) : Accepted (b.bytes ++ rest) := by
  obtain ⟨blocks, tail, hvalid, hstop, rfl⟩ := h
  refine ⟨b :: blocks, tail, ?_, hstop, ?_⟩
  · exact List.forall_mem_cons.mpr ⟨hb, hvalid⟩
  · rw [List.flatMap_cons, List.append_assoc]

theorem size_bytes {lo hi : UInt8} {n : Nat} (h : n = rd16le [lo, hi] 0) :
    UInt8.ofNat n = lo ∧ UInt8.ofNat (n / 256) = hi := by
  have hn : n = lo.toNat + 256 * hi.toNat := h
  have hlo := lo.toNat_lt
  have hhi := hi.toNat_lt
  constructor
  · apply UInt8.toNat_inj.mp
    rw [UInt8.toNat_ofNat']
    omega
  · apply UInt8.toNat_inj.mp
    rw [UInt8.toNat_ofNat']
    omega

theorem header_oob {h : UInt8} (hhigh : ¬0x0E ≤ h.toNat) (hlow : ¬h.toNat ≤ 0x07) (hflux : ¬h = 0x0C) (hovl : ¬h = 0x0B)
    (hnop1 : ¬h = 0x08) (hnop2 : ¬h = 0x09) (hnop3 : ¬h = 0x0A) : h = 0x0D := by
  have hne : ∀ k : UInt8, ¬h = k → h.toNat ≠ k.toNat := fun k hk heq => hk (UInt8.toNat_inj.mp heq)
  have h12 : h.toNat ≠ 12 := hne 0x0C hflux
  have h11 : h.toNat ≠ 11 := hne 0x0B hovl
  have h8 : h.toNat ≠ 8 := hne 0x08 hnop1
  have h9 : h.toNat ≠ 9 := hne 0x09 hnop2
  have h10 : h.toNat ≠ 10 := hne 0x0A hnop3
  apply UInt8.toNat_inj.mp
  show h.toNat = 13
  omega

theorem valid_of_outOfBand {type : UInt8} {body : List UInt8} {s' : Scan} (hlen : body.length < 2 ^ 16)
    (htype : ¬type = 0x0D) (h : s.outOfBand strtod type body = .ok s') : (Block.oob type body).Valid := by
  refine ⟨htype, hlen, fun hindex => ?_⟩
  by_contra hshort
  rw [Scan.outOfBand, if_pos hindex, if_pos (Nat.not_le.mp hshort)] at h
  cases h

theorem accepted_oob {type lo hi : UInt8} (hfits : ¬rest.length < rd16le [lo, hi] 0)
    (hvalid : (rest.take (rd16le [lo, hi] 0)).length < 2 ^ 16 → (Block.oob type (rest.take (rd16le [lo, hi] 0))).Valid)
    (h : Accepted (rest.drop (rd16le [lo, hi] 0))) : Accepted (0x0D :: type :: lo :: hi :: rest) := by
  have hlen : (rest.take (rd16le [lo, hi] 0)).length = rd16le [lo, hi] 0 :=
    List.length_take_of_le (Nat.not_lt.mp hfits)
  have hsize : rd16le [lo, hi] 0 < 2 ^ 16 := by
    have hlo := lo.toNat_lt
    have hhi := hi.toNat_lt
    simp only [rd16le, byteAt, List.getD_cons_zero, List.getD_cons_succ]
    omega
  have hblock := accepted_block (hvalid (hlen.trans_lt hsize)) h
  obtain ⟨hlo, hhi⟩ := size_bytes hlen
  rw [Block.bytes, hlo, hhi] at hblock
  simpa using hblock

/-- By the recursion of the scan: each call that goes on is one block ahead of the others. -/
theorem blocks_of_scanStream {data : List UInt8} {s' : Scan} (h : scanStream strtod s data = .ok s') : Accepted data := by
  fun_induction scanStream strtod s data with
  | case1 s => exact ⟨[], [], by simp, Or.inl rfl, rfl⟩
  | case2 s v rest hv ih => exact accepted_block (b := .flux1 v) hv (ih h)
  | case3 s v hv hlow lo rest ih => exact accepted_block (b := .flux2 v lo) hlow (ih h)
  | case5 s hi lo rest hv hlow ih => exact accepted_block (b := .flux3 hi lo) trivial (ih h)
  | case7 s rest _ _ _ ih => exact accepted_block (b := .ovl16) trivial (ih h)
  | case8 s rest _ _ _ _ ih => exact accepted_block (b := .nop1) trivial (ih h)
  | case9 s a rest _ _ _ _ _ ih => exact accepted_block (b := .nop2 a) trivial (ih h)
  | case11 s a b rest _ _ _ _ _ _ ih => exact accepted_block (b := .nop3 a b) trivial (ih h)
  | case13 s v hhigh hlow h12 h11 h8 h9 h10 lo hi rest =>
    obtain rfl := header_oob hhigh hlow h12 h11 h8 h9 h10
    exact ⟨[], _, by simp, Or.inr ⟨lo, hi, rest, rfl⟩, rfl⟩
  | case16 s v hhigh hlow h12 h11 h8 h9 h10 type lo hi rest htype hfits s₁ hbody ih =>
    obtain rfl := header_oob hhigh hlow h12 h11 h8 h9 h10
    exact accepted_oob hfits (fun hlen => valid_of_outOfBand hlen htype hbody) (ih h)
  | _ => cases h

/-! ## What is collected -/

/-- Where the transition behind these blocks begins, if the first of them is at `p`: at the first overflow. -/
def leadPos (p : Nat) (lead : List Block) : Nat := p + ((lead.takeWhile fun b => !b.isOvl).map Block.inBand).sum

/-- The transitions of a stream; `lead` are the blocks since the last of them. -/
def transitions (p : Nat) (lead : List Block) : List Block → List Transition
  | [] => []
  | b :: blocks =>
    match b.flux with
    | some v =>
      { pos := leadPos p lead, interval := (lead.countP Block.isOvl * 0x10000 + v) % 2 ^ 32 } ::
        transitions (p + ((lead ++ [b]).map Block.inBand).sum) [] blocks
    | none => transitions p (lead ++ [b]) blocks

/-- The clock of the last block that has one. -/
def sckHzOf (strtod : List UInt8 → Option ℚ) (sckHz : ℚ) (b : Block) : ℚ :=
  match b with
  | .oob type body => if type = 0x04 then parseKfinfo strtod body sckHz else sckHz
  | _ => sckHz

/-- The state is that behind the blocks `lead`, which began at `p` without an overflow pending. -/
structure Pending (s : Scan) (p : Nat) (lead : List Block) : Prop where
  spos : s.spos = p + (lead.map Block.inBand).sum
  ovl : s.ovl = lead.countP Block.isOvl
  active : s.ovlActive = lead.any Block.isOvl
  ovlPos : s.ovlActive = true → s.ovlPos = leadPos p lead

theorem leadPos_of_none {p : Nat} {lead : List Block} (h : lead.any Block.isOvl = false) :
    leadPos p lead = p + (lead.map Block.inBand).sum := by
  have hall : ∀ b ∈ lead, (!b.isOvl) = true := by
    intro b hb
    simp [List.any_eq_false.mp h b hb]
  rw [leadPos, List.takeWhile_eq_self_iff.mpr hall]

theorem leadPos_append {p : Nat} {lead : List Block} {b : Block} (h : lead.any Block.isOvl = true) :
    leadPos p (lead ++ [b]) = leadPos p lead := by
  obtain ⟨c, hc, hovl⟩ := List.any_eq_true.mp h
  have hlen : (lead.takeWhile fun b => !b.isOvl).length ≠ lead.length := by
    intro heq
    have hself := (List.takeWhile_prefix (l := lead) fun b => !b.isOvl).eq_of_length heq
    have hnot := List.takeWhile_eq_self_iff.mp hself c hc
    rw [hovl] at hnot
    cases hnot
  rw [leadPos, leadPos, List.takeWhile_append, if_neg hlen]

theorem Pending.pos_eq {p : Nat} {lead : List Block} (h : Pending s p lead) :
    (if s.ovlActive then s.ovlPos else s.spos) = leadPos p lead := by
  split
  case isTrue hactive => exact h.ovlPos hactive
  case isFalse hactive =>
    have hnone : lead.any Block.isOvl = false := by
      rw [← h.active]
      exact Bool.not_eq_true _ ▸ hactive
    rw [h.spos, leadPos_of_none hnone]

theorem pending_transition {p : Nat} {lead : List Block} (h : Pending s p lead) (b : Block) (v : Nat) :
    Pending (s.transition v b.inBand) (p + ((lead ++ [b]).map Block.inBand).sum) [] where
  spos := by simp [Scan.transition, h.spos, Nat.add_assoc]
  ovl := rfl
  active := rfl
  ovlPos := by simp [Scan.transition]

theorem pending_other {p : Nat} {lead : List Block} (h : Pending s p lead) {b : Block} (hb : b.flux = none) :
    Pending (s.step strtod b) p (lead ++ [b]) := by
  have hsame : b.isOvl = false → (s.step strtod b).spos = s.spos + b.inBand → (s.step strtod b).ovl = s.ovl →
      (s.step strtod b).ovlActive = s.ovlActive → (s.step strtod b).ovlPos = s.ovlPos →
      Pending (s.step strtod b) p (lead ++ [b]) := by
    intro hovl hspos hcount hactive hpos
    refine ⟨?_, ?_, ?_, fun ha => ?_⟩
    · rw [hspos, h.spos]
      simp [Nat.add_assoc]
    · rw [hcount, h.ovl]
      simp [List.countP_append, hovl]
    · rw [hactive, h.active]
      simp [hovl]
    · rw [hactive] at ha
      rw [hpos, h.ovlPos ha, leadPos_append (h.active ▸ ha)]
  cases b with
  | flux1 v => cases hb
  | flux2 v lo => cases hb
  | flux3 hi lo => cases hb
  | ovl16 =>
    refine ⟨?_, ?_, ?_, fun _ => ?_⟩
    · simp [Scan.step, Scan.overflow, h.spos, Block.inBand, Block.bytes, Nat.add_assoc]
    · simp [Scan.step, Scan.overflow, h.ovl, List.countP_append, Block.isOvl]
    · simp [Scan.step, Scan.overflow, Block.isOvl]
    · -- the first overflow is where the lead began to count, or here
      show (if s.ovlActive = true then s.ovlPos else s.spos) = _
      rw [h.pos_eq]
      by_cases hany : lead.any Block.isOvl = true
      · rw [leadPos_append hany]
      · have hnone : lead.any Block.isOvl = false := Bool.eq_false_iff.mpr hany
        have hall : ∀ c ∈ lead, (!c.isOvl) = true := fun c hc => by simp [List.any_eq_false.mp hnone c hc]
        rw [leadPos, leadPos, List.takeWhile_append, if_pos (by rw [List.takeWhile_eq_self_iff.mpr hall]),
          List.takeWhile_eq_self_iff.mpr hall]
        simp [Block.isOvl]
  | nop1 => exact hsame rfl rfl rfl rfl rfl
  | nop2 a => exact hsame rfl rfl rfl rfl rfl
  | nop3 a b => exact hsame rfl rfl rfl rfl rfl
  | oob type body => exact hsame rfl rfl rfl rfl rfl

theorem step_flux {b : Block} {v : Nat} (hb : b.flux = some v) : s.step strtod b = s.transition v b.inBand := by
  cases b with
  | flux1 h => exact Option.some.inj hb ▸ rfl
  | flux2 h lo => exact Option.some.inj hb ▸ rfl
  | flux3 hi lo => exact Option.some.inj hb ▸ rfl
  | _ => cases hb

theorem step_same {b : Block} (hb : b.flux = none) : (s.step strtod b).flux = s.flux := by
  cases b with
  | flux1 h => cases hb
  | flux2 h lo => cases hb
  | flux3 hi lo => cases hb
  | _ => rfl

theorem step_idx (b : Block) : (s.step strtod b).idx = s.idx ++ b.index.toList := by
  cases b with
  | oob type body => rfl
  | _ => exact (List.append_nil _).symm

theorem step_sckHz (b : Block) : (s.step strtod b).sckHz = sckHzOf strtod s.sckHz b := by cases b <;> rfl

/-- By induction on the blocks: the blocks since the last transition are carried along, and a transition is made of
    them and of the block that ends them. -/
theorem flux_of_blocks {p : Nat} {lead blocks : List Block} (h : Pending s p lead) :
    (blocks.foldl (Scan.step strtod) s).flux = s.flux ++ transitions p lead blocks := by
  induction blocks generalizing s p lead with
  | nil => exact (List.append_nil _).symm
  | cons b blocks ih =>
    rw [List.foldl_cons, transitions]
    cases hb : b.flux with
    | some v =>
      rw [step_flux hb, ih (pending_transition h b v), Scan.transition]
      dsimp only
      rw [h.pos_eq, h.ovl, List.append_assoc, List.singleton_append]
    | none => rw [ih (pending_other h hb), step_same hb]

theorem idx_of_blocks (blocks : List Block) :
    (blocks.foldl (Scan.step strtod) s).idx = s.idx ++ blocks.filterMap Block.index := by
  induction blocks generalizing s with
  | nil => exact (List.append_nil _).symm
  | cons b blocks ih =>
    rw [List.foldl_cons, ih, step_idx, List.append_assoc]
    cases hb : b.index with
    | none => rw [List.filterMap_cons_none hb]; rfl
    | some ir => rw [List.filterMap_cons_some hb]; rfl

theorem sckHz_of_blocks (blocks : List Block) :
    (blocks.foldl (Scan.step strtod) s).sckHz = blocks.foldl (sckHzOf strtod) s.sckHz := by
  induction blocks generalizing s with
  | nil => rfl
  | cons b blocks ih => rw [List.foldl_cons, List.foldl_cons, ih, step_sckHz]

theorem pending_start : Pending {} 0 [] := ⟨rfl, rfl, rfl, fun h => absurd h Bool.false_ne_true⟩

/-- The first pass accepts a stream exactly when it is a sequence of blocks up to an end, and then the transitions are
    those of the blocks, the indices those in the blocks out of band, and the clock that of the last block that has
    one. -/
theorem scanStream_iff (strtod : List UInt8 → Option ℚ) (data : List UInt8) (flux : List Transition)
    (idx : List IndexRec) (sckHz : ℚ) :
    (∃ s, scanStream strtod {} data = .ok s ∧ s.flux = flux ∧ s.idx = idx ∧ s.sckHz = sckHz) ↔
      ∃ (blocks : List Block) (tail : List UInt8), (∀ b ∈ blocks, b.Valid) ∧ Stop tail ∧
        data = blocks.flatMap Block.bytes ++ tail ∧ transitions 0 [] blocks = flux ∧
        blocks.filterMap Block.index = idx ∧ blocks.foldl (sckHzOf strtod) defaultSckHz = sckHz := by
  have hrun : ∀ (blocks : List Block) (tail : List UInt8), (∀ b ∈ blocks, b.Valid) → Stop tail →
      scanStream strtod {} (blocks.flatMap Block.bytes ++ tail) = .ok (blocks.foldl (Scan.step strtod) {}) := by
    intro blocks tail hvalid hstop
    rw [scanStream_blocks hvalid, scanStream_stop hstop]
  constructor
  · rintro ⟨s, hscan, hflux, hidx, hsck⟩
    obtain ⟨blocks, tail, hvalid, hstop, rfl⟩ := blocks_of_scanStream hscan
    rw [hrun blocks tail hvalid hstop] at hscan
    obtain rfl := Except.ok.inj hscan
    refine ⟨blocks, tail, hvalid, hstop, rfl, ?_, ?_, ?_⟩
    · rw [← hflux, flux_of_blocks pending_start, List.nil_append]
    · rw [← hidx, idx_of_blocks, List.nil_append]
    · rw [← hsck, sckHz_of_blocks]
  · rintro ⟨blocks, tail, hvalid, hstop, rfl, hflux, hidx, hsck⟩
    refine ⟨_, hrun blocks tail hvalid hstop, ?_, ?_, ?_⟩
    · rw [flux_of_blocks pending_start, List.nil_append, hflux]
    · rw [idx_of_blocks, List.nil_append, hidx]
    · rw [sckHz_of_blocks, hsck]

end Koncepcja.Disk.KryoFlux
