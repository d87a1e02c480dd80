import Koncepcja.Disk.Controller
import Koncepcja.Disk.DskAgreement

/-!
# Windows into a DSK Image

Where `parse_dsk` places the tracks and sectors of an image: what it makes sure of, what it leaves
to the image, and that neither depends on data or status bytes.

## Main results

- `parsed_of_parseDsk`: the windows of an accepted image lie inside it.
- `Media.Alike.parsed`: media of the same windows are parsed together.
- `FluxBack.Sized.fetch`: decoding a cylinder stays inside the cache.
-/

namespace Koncepcja.Disk

open Koncepcja.Bits Koncepcja.Bytes

/-! ## Geometry -/

/-- The track of a table entry. -/
def Media.trk (m : Media) (slot : Nat) : FdcTrack := m.geo.track.getD slot {}

/-- The bytes of the image, none in an empty drive. -/
def Media.bytes (m : Media) : List UInt8 := m.image.getD []

/-- What `parse_dsk` makes sure of: a formatted track's header and data lie behind the disc header
    and inside the image, and each sector starts inside the data. -/
def Media.Parsed (m : Media) : Prop :=
  ∀ slot, (m.trk slot).sec ≠ [] →
    0x200 ≤ (m.trk slot).dataOff ∧ (m.trk slot).dataOff + (m.trk slot).dataLen ≤ m.bytes.length ∧
      (m.trk slot).sec.length ≤ kMaxSectors ∧
      ∀ sec ∈ (m.trk slot).sec,
        (m.trk slot).dataOff ≤ sec.off ∧ sec.off ≤ (m.trk slot).dataOff + (m.trk slot).dataLen

theorem Media.trk_of_length_le {m : Media} {slot : Nat} (h : m.geo.track.length ≤ slot) : m.trk slot = {} :=
  List.getD_eq_default _ _ h

theorem placeSectors_off {p : List UInt8} {extended : Bool} {sizeCode : UInt8} {th count i pos pos' : Nat}
    {secs : List FdcSector} (h : placeSectors p extended sizeCode th count i pos = some (secs, pos')) :
    ∀ sec ∈ secs, pos ≤ sec.off ∧ sec.off ≤ pos' := by
  induction count generalizing i pos secs with
  | zero =>
    obtain ⟨rfl, -⟩ := Prod.mk.inj (Option.some.inj h)
    simp
  | succ count ih =>
    obtain ⟨rest, hrest, rfl⟩ := placeSectors_succ h
    obtain ⟨-, hle⟩ := placeSectors_length hrest
    intro sec hsec
    rcases List.mem_cons.mp hsec with rfl | hsec
    · exact ⟨Nat.le_refl _, Nat.le_trans (Nat.le_add_right _ _) hle⟩
    · obtain ⟨hlo, hhi⟩ := ih hrest sec hsec
      exact ⟨by omega, hhi⟩

theorem parseTracks_length {p : List UInt8} {extended : Bool} {count index off : Nat} {trks : List FdcTrack}
    (h : parseTracks p extended count index off = some trks) : trks.length = count := by
  induction count generalizing index off trks with
  | zero =>
    obtain rfl := Option.some.inj h
    rfl
  | succ count ih =>
    rw [parseTracks] at h
    split at h
    · -- An unformatted track takes no bytes but still counts.
      cases hrest : parseTracks p extended count (index + 1) off with
      | none =>
        rw [hrest] at h
        cases h
      | some rest =>
        rw [hrest] at h
        obtain rfl := Option.some.inj h
        rw [List.length_cons, ih hrest]
    · cases htrk : parseTrackBlock p extended off with
      | none =>
        rw [htrk] at h
        cases h
      | some trk =>
        rw [htrk] at h
        simp only at h
        cases hrest : parseTracks p extended count (index + 1) (off + blockLen p extended index) with
        | none =>
          rw [hrest] at h
          cases h
        | some rest =>
          rw [hrest] at h
          obtain rfl := Option.some.inj h
          rw [List.length_cons, ih hrest]

theorem blockOffset_ge (p : List UInt8) (extended : Bool) (index : Nat) : 0x100 ≤ blockOffset p extended index := by
  induction index with
  | zero => exact Nat.le_refl _
  | succ index ih => exact Nat.le_trans ih (Nat.le_add_right _ _)

theorem parseTrackBlock_dataOff {p : List UInt8} {extended : Bool} {off : Nat} {trk : FdcTrack}
    (h : parseTrackBlock p extended off = some trk) : trk.dataOff = off + 0x100 := by
  rw [parseTrackBlock] at h
  split at h
  · cases h
  · split at h
    · cases h
    · simp only at h
      split at h
      · cases h
      · cases hplace : placeSectors p extended (byteAt p (off + 0x14)) off (byteAt p (off + 0x15)).toNat 0
          (off + 0x100) with
        | none =>
          rw [hplace] at h
          cases h
        | some r =>
          obtain ⟨sec, pos⟩ := r
          rw [hplace] at h
          simp only at h
          split at h
          · cases h
          · obtain rfl := Option.some.inj h
            rfl

/-- The windows of an accepted image lie inside it. -/
theorem parsed_of_parseDsk {p : List UInt8} {geo : FdcMedia} (h : parseDsk p = some geo) (dirty : Bool) :
    Media.Parsed { image := some p, dirty := dirty, geo := geo } := by
  obtain ⟨extended, -, -, -, -, -, -, -, htracks⟩ := parseDsk_some h
  intro slot hsec
  change (geo.track.getD slot {}).sec ≠ [] at hsec
  change 0x200 ≤ (geo.track.getD slot {}).dataOff ∧ _
  have hslot : slot < geo.tracks * geo.sides := by
    by_contra hge
    rw [← parseTracks_length htracks] at hge
    rw [List.getD_eq_default _ _ (by omega)] at hsec
    exact hsec rfl
  have hparsed := parseTracks_get htracks slot hslot
  rw [Nat.zero_add, TrackParsed] at hparsed
  split at hparsed
  · rw [hparsed] at hsec
    exact absurd rfl hsec
  · obtain ⟨-, -, hcount, hplace, hend⟩ := parseTrackBlock_some hparsed
    have hoff := parseTrackBlock_dataOff hparsed
    have hge := blockOffset_ge p extended slot
    refine ⟨by omega, hend, ?_, ?_⟩
    · exact Nat.le_trans (Nat.le_of_eq (placeSectors_length hplace).1) hcount
    · intro sec hmem
      obtain ⟨hlo, hhi⟩ := placeSectors_off hplace sec hmem
      exact ⟨hoff ▸ hlo, hhi⟩

theorem parsed_of_no_tracks {m : Media} (h : m.geo.track = []) : m.Parsed := by
  intro slot hsec
  have hnone : m.trk slot = {} := by
    rw [Media.trk, h]
    rfl
  exact absurd (congrArg FdcTrack.sec hnone) hsec

theorem parseMedia_parsed (image : List UInt8) (dirty : Bool) :
    Media.Parsed { parseMedia image with dirty := dirty } := by
  rw [parseMedia]
  cases h : parseDsk image with
  | none => exact parsed_of_no_tracks rfl
  | some geo => exact parsed_of_parseDsk h dirty

/-! ## Media that differ in bytes only -/

/-- What the windows of a track are: everything but the status bytes. -/
def FdcTrack.shape (trk : FdcTrack) : Nat × Nat × List (Chrn × Nat) :=
  (trk.dataOff, trk.dataLen, trk.sec.map fun s => (s.chrn, s.off))

/-- Two media of the same windows and length. -/
structure Media.Alike (m m' : Media) : Prop where
  length : m'.bytes.length = m.bytes.length
  shape : ∀ slot, (m'.trk slot).shape = (m.trk slot).shape

section
variable {m m' m'' : Media}

theorem Media.Alike.refl (m : Media) : m.Alike m := ⟨rfl, fun _ => rfl⟩

theorem Media.Alike.trans (h : m.Alike m') (h' : m'.Alike m'') : m.Alike m'' :=
  ⟨h'.length.trans h.length, fun slot => (h'.shape slot).trans (h.shape slot)⟩

theorem Media.Alike.dataOff (h : m.Alike m') (slot : Nat) : (m'.trk slot).dataOff = (m.trk slot).dataOff :=
  congrArg Prod.fst (h.shape slot)

theorem Media.Alike.dataLen (h : m.Alike m') (slot : Nat) : (m'.trk slot).dataLen = (m.trk slot).dataLen :=
  congrArg (fun x => x.2.1) (h.shape slot)

theorem Media.Alike.secs (h : m.Alike m') (slot : Nat) :
    (m'.trk slot).sec.map (fun s => (s.chrn, s.off)) = (m.trk slot).sec.map fun s => (s.chrn, s.off) :=
  congrArg (fun x => x.2.2) (h.shape slot)

theorem Media.Alike.exists_mem (h : m.Alike m') {slot : Nat} {sec : FdcSector} (hsec : sec ∈ (m'.trk slot).sec) :
    ∃ sec' ∈ (m.trk slot).sec, sec'.off = sec.off := by
  have hmem : (sec.chrn, sec.off) ∈ (m'.trk slot).sec.map fun s => (s.chrn, s.off) := List.mem_map.mpr ⟨sec, hsec, rfl⟩
  rw [h.secs slot] at hmem
  obtain ⟨sec', hsec', heq⟩ := List.mem_map.mp hmem
  exact ⟨sec', hsec', (Prod.mk.inj heq).2⟩

theorem Media.Alike.sec_length (h : m.Alike m') (slot : Nat) : (m'.trk slot).sec.length = (m.trk slot).sec.length := by
  have hlen := congrArg List.length (h.secs slot)
  rwa [List.length_map, List.length_map] at hlen

theorem Media.Alike.parsed (h : m.Alike m') (hp : m.Parsed) : m'.Parsed := by
  intro slot hne
  have hne' : (m.trk slot).sec ≠ [] := by
    rw [← List.length_pos_iff, ← h.sec_length slot, List.length_pos_iff]
    exact hne
  obtain ⟨hoff, hend, hcount, hsecs⟩ := hp slot hne'
  rw [h.dataOff, h.dataLen, h.length, h.sec_length]
  refine ⟨hoff, hend, hcount, fun sec hsec => ?_⟩
  obtain ⟨sec', hsec', heq⟩ := h.exists_mem hsec
  rw [← heq]
  exact hsecs sec' hsec'

theorem Media.poke_alike (m : Media) (off : Nat) (v : UInt8) : m.Alike (m.poke off v) := by
  rw [Media.poke]
  cases himage : m.image with
  | none => exact .refl m
  | some image =>
    simp only
    split
    · refine ⟨?_, fun _ => rfl⟩
      rw [Media.bytes, Media.bytes, himage, Option.getD_some, Option.getD_some, List.length_set]
    · exact .refl m

theorem modify_st2_shape (trk : FdcTrack) (i : Nat) :
    FdcTrack.shape { trk with sec := trk.sec.modify i fun s => { s with st2 := s.st2 ||| 0x40 } } = trk.shape := by
  simp only [FdcTrack.shape, Prod.mk.injEq, true_and]
  apply List.ext_getElem?
  intro k
  rw [List.getElem?_map, List.getElem?_map, List.getElem?_modify]
  split
  · cases trk.sec[k]? <;> rfl
  · cases trk.sec[k]? <;> rfl

theorem Media.markDeleted_alike (m : Media) (slot i : Nat) : m.Alike (m.markDeleted slot i) := by
  refine ⟨rfl, fun q => ?_⟩
  simp only [Media.trk, Media.markDeleted, List.getD_eq_getElem?_getD, List.getElem?_modify]
  cases m.geo.track[q]? with
  | none => split <;> rfl
  | some trk =>
    split
    · exact modify_st2_shape trk i
    · rfl

theorem Media.poke_byteAt (m : Media) {off k : Nat} (v : UInt8) (h : k ≠ off) :
    byteAt (m.poke off v).bytes k = byteAt m.bytes k := by
  rw [Media.poke]
  cases himage : m.image with
  | none => rfl
  | some image =>
    simp only
    split
    · rw [Media.bytes, Media.bytes, himage, Option.getD_some, Option.getD_some]
      exact byteAt_set_ne image v (Ne.symm h)
    · rfl

theorem Media.poke_past_end (m : Media) {off : Nat} (v : UInt8) (h : m.bytes.length ≤ off) : m.poke off v = m := by
  rw [Media.poke]
  cases himage : m.image with
  | none => rfl
  | some image =>
    rw [Media.bytes, himage, Option.getD_some] at h
    simp only
    rw [if_neg (by omega)]

end

/-! ## Flux -/

namespace FluxBack

theorem fetch_scp (m : FluxBack) (cyl : UInt8) : (m.fetch cyl).scp = m.scp := by
  rw [fetch]
  split
  · rfl
  · split <;> rfl

theorem promote_scp (m : FluxBack) (t : UInt8) : (m.promote t).scp = m.scp := by
  rw [promote]
  split <;> rfl

theorem reparsed_scp (m : FluxBack) (t : UInt8) : (m.reparsed t).scp = m.scp := by
  rw [reparsed]
  split
  · exact promote_scp _ t
  · rfl

/-- The cache has its buffers, and counts one of them at least. -/
structure Sized (m : FluxBack) : Prop where
  cache : m.cache.length = kFluxRevs
  pay : ∀ c ∈ m.cache, c.pay.length = kFluxPayload
  revs : 0 < m.cacheRevs ∧ m.cacheRevs ≤ kFluxRevs

variable {m : FluxBack}

theorem sized_of_new (hcache : m.cache = List.replicate kFluxRevs {}) (hrevs : m.cacheRevs = 1) : m.Sized := by
  refine ⟨?_, fun c hc => ?_, ?_⟩
  · rw [hcache, List.length_replicate]
  · rw [hcache] at hc
    rw [List.eq_of_mem_replicate hc]
    exact List.length_replicate
  · rw [hrevs]
    decide

theorem Sized.fetch (hm : m.Sized) (cyl : UInt8) : (m.fetch cyl).Sized := by
  -- a payload does not outgrow its buffer
  have hdecode : ∀ (scp : List UInt8) (r revs : Nat) (c : CachedRev), c.pay.length = kFluxPayload →
      (if r < revs then c.decode scp cyl.toNat r else c).pay.length = kFluxPayload := by
    intro scp r revs c hc
    split
    · refine (overwrite_length ?_).trans hc
      rw [hc, Nat.zero_add]
      exact readTrack_payload_length _ _ _ _
    · exact hc
  rw [FluxBack.fetch]
  split
  · exact hm
  · split
    · exact hm
    · rename_i scp _ _
      refine ⟨?_, fun c hc => ?_, ?_⟩
      · rw [List.length_map, List.length_zipIdx]
        exact hm.cache
      · obtain ⟨⟨old, r⟩, hmem, rfl⟩ := List.mem_map.mp hc
        have hold : old.pay.length = kFluxPayload := hm.pay old (List.fst_mem_of_mem_zipIdx hmem)
        exact hdecode scp r _ old hold
      · dsimp only
        split <;> decide

theorem Sized.promote (hm : m.Sized) (t : UInt8) : (m.promote t).Sized := by
  rw [FluxBack.promote]
  split
  · exact ⟨hm.cache, hm.pay, hm.revs⟩
  · exact hm

theorem Sized.reparsed (hm : m.Sized) (t : UInt8) : (m.reparsed t).Sized := by
  rw [FluxBack.reparsed]
  split
  · exact (sized_of_new rfl rfl).promote t
  · exact hm

theorem Sized.markDeleted (hm : m.Sized) (rev i : Nat) : (m.markDeleted rev i).Sized := by
  refine ⟨?_, fun c hc => ?_, hm.revs⟩
  · rw [FluxBack.markDeleted, List.length_modify]
    exact hm.cache
  · obtain ⟨k, hk⟩ := List.mem_iff_getElem?.mp hc
    rw [FluxBack.markDeleted, List.getElem?_modify] at hk
    obtain ⟨old, hold, rfl⟩ := Option.map_eq_some_iff.mp hk
    have hpay := hm.pay old (List.mem_of_getElem? hold)
    split
    · exact hpay
    · exact hpay

end FluxBack

/-! ## The scan for a sector -/

theorem scanIds_found {want : Chrn} {st2 st2' : UInt8} {l : List (Nat × FdcSector)} {i : Nat} {sec : FdcSector}
    (h : scanIds want st2 l = (some (i, sec), st2')) : (i, sec) ∈ l ∧ sec.chrn = want := by
  induction l generalizing st2 with
  | nil => exact absurd (congrArg Prod.fst h) (by simp [scanIds])
  | cons x rest ih =>
    obtain ⟨j, s⟩ := x
    rw [scanIds] at h
    split at h
    · rename_i hid
      have heq := Option.some.inj (congrArg Prod.fst h)
      obtain ⟨rfl, rfl⟩ := Prod.mk.inj heq
      exact ⟨List.mem_cons_self, hid⟩
    · have htail : (i, sec) ∈ rest ∧ sec.chrn = want := by
        split at h
        · exact ih h
        · split at h
          · exact ih h
          · exact ih h
      exact ⟨List.mem_cons_of_mem _ htail.1, htail.2⟩

theorem mem_passing {trk : FdcTrack} {idx i : Nat} {sec : FdcSector} (h : (i, sec) ∈ passing trk idx) :
    trk.sec[i]? = some sec := by
  have hnumbered : (i, sec) ∈ trk.sec.zipIdx.map fun p => (p.2, p.1) := by
    rcases List.mem_append.mp h with hmem | hmem
    · exact List.mem_of_mem_drop hmem
    · exact hmem
  obtain ⟨⟨s, j⟩, hmem, heq⟩ := List.mem_map.mp hnumbered
  obtain ⟨rfl, rfl⟩ := Prod.mk.inj heq
  exact List.mk_mem_zipIdx_iff_getElem?.mp hmem

end Koncepcja.Disk
