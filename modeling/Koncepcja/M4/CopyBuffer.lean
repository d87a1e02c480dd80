import Koncepcja.M4.InBounds

/-!
# Copies of a Download

A download into the memory is put into the response buffer, and a program that wants it in pieces asks for them with
copy commands. Every command starts with an empty response, so that nothing is left to be copied.

## Main results

- `cmdCopybuf_run`: a copy from an empty response.
- `copies_run`: what the copy commands after a download answer.
- `copies_exact_iff`: the answers are the pieces that were asked for just when these are empty.
-/

namespace Koncepcja.M4

open Checked

set_option maxRecDepth 20000

variable {ω : Type} {w : Host ω} {b : Board ω}

/-! ## Frames and answers -/

/-- Sends a frame and has it executed. -/
def execute (w : Host ω) (bytes : Bytes) : Handler ω Unit := do
  bytes.forM m4boardDataOut
  m4boardExecute w

/-- The bytes of the response that is declared. -/
def answered (b : Board ω) : Bytes := window b.response 0 b.responseLen

/-- A copy command: the offset and the number of the bytes. -/
structure CopyRequest where
  /-- The byte before the command. -/
  sizePrefix : UInt8
  offset : UInt16
  size : UInt16
  /-- What is sent in excess. -/
  rest : Bytes := []

def CopyRequest.frame (r : CopyRequest) : Bytes :=
  [r.sizePrefix, 0x29, 0x43, (r.offset >>> 8).toUInt8, r.offset.toUInt8, (r.size >>> 8).toUInt8, r.size.toUInt8] ++
    r.rest

/-- The piece that a copy command asks for. -/
def CopyRequest.piece (r : CopyRequest) (body : Bytes) : Bytes := (body.drop r.offset.toNat).take r.size.toNat

/-- The data that the copy commands answer, one after the other. -/
def copies (w : Host ω) : List CopyRequest → Handler ω (List Bytes)
  | [] => pure []
  | r :: requests => do
    execute w r.frame
    let b ← get
    let data := (answered b).drop 3
    let later ← copies w requests
    return data :: later

/-- A download was executed and answered with the body. -/
structure Downloaded (w : Host ω) (b : Board ω) (bytes body : Bytes) (b' : Board ω) : Prop where
  fresh : b.cmdBuf = []
  command : UInt16.ofNat (word (bytes.getD 1 0) (bytes.getD 2 0)) = cHttpgetmem
  runs : execute w bytes b = .ok ((), b')
  answers : answered b' = [m4Ok, 0, 0, UInt8.ofNat (body.length >>> 8), UInt8.ofNat body.length] ++ body

/-! ## One frame -/

theorem data_out_run (bytes : Bytes) (b : Board ω) :
    bytes.forM m4boardDataOut b = .ok ((), { b with cmdBuf := b.cmdBuf ++ bytes }) := by
  induction bytes generalizing b with
  | nil =>
    rw [List.append_nil]
    rfl
  | cons v bytes ih =>
    have hcons := ih { b with cmdBuf := b.cmdBuf ++ [v] }
    rw [List.append_assoc] at hcons
    exact hcons

theorem execute_eq (bytes : Bytes) (b : Board ω) (h : b.cmdBuf = []) :
    execute w bytes b = m4boardExecute w { b with cmdBuf := bytes } := by
  rw [execute, run_bind (data_out_run bytes b), h, List.nil_append]

theorem m4boardExecute_clears {b' : Board ω} (h : m4boardExecute w b = .ok ((), b')) : b'.cmdBuf = [] := by
  by_cases hlong : 3 ≤ b.cmdBuf.length
  · rw [m4boardExecute_eq hlong] at h
    cases hrun : handler w (UInt16.ofNat (word (b.cmdBuf.getD 1 0) (b.cmdBuf.getD 2 0))) (cleared b) with
    | error e =>
      rw [run_bind_error hrun] at h
      cases h
    | ok r =>
      rw [@run_bind _ _ _ _ _ _ r.2 r.1 _ hrun] at h
      cases h
      rfl
  · rw [m4boardExecute, run_bind run_size, if_pos (by omega)] at h
    cases h
    rfl

/-- The board with a response without data. -/
def emptyCopy (b : Board ω) : Board ω :=
  { b with response := overwrite b.response 0 [m4Ok, 0, 0], responseLen := 3 }

/-- Of an empty response there is nothing to be copied. -/
theorem cmdCopybuf_run (hlong : 7 ≤ b.cmdBuf.length) (hlen : b.responseLen = 0) :
    cmdCopybuf b = .ok ((), emptyCopy b) := by
  have hframe (i : Nat) (hi : i < 7) : frame i b = .ok (b.cmdBuf.getD i 0, b) := run_frame (by omega)
  rw [cmdCopybuf, run_bind run_size, if_neg (by omega), run_bind (hframe 4 (by omega)), run_bind (hframe 3 (by omega)),
    run_bind (hframe 6 (by omega)), run_bind (hframe 5 (by omega)), run_get]
  have hzero : (b.responseLen : Nat) = 0 := by rw [hlen]; rfl
  have hcopied (copied start : Nat) : min (min copied (b.responseLen - start)) (responseSize - 4) = 0 := by omega
  have hheader : copyTo 0 [m4Ok, 0, 0] b = .ok ((), { b with response := overwrite b.response 0 [m4Ok, 0, 0] }) := rfl
  rw [run_bind hheader, run_bind (run_when (by omega)), hcopied]
  rfl

theorem handler_copybuf : handler w cCopybuf = cmdCopybuf := rfl

theorem execute_copy (r : CopyRequest) (h : b.cmdBuf = []) :
    ∃ b', execute w r.frame b = .ok ((), b') ∧ b'.cmdBuf = [] ∧ (answered b').drop 3 = [] := by
  have hcmd : UInt16.ofNat (word (r.frame.getD 1 0) (r.frame.getD 2 0)) = cCopybuf := by
    show UInt16.ofNat (word 0x29 0x43) = cCopybuf
    decide
  have hlong : 7 ≤ r.frame.length := by
    rw [CopyRequest.frame, List.length_append]
    exact Nat.le_add_right 7 _
  let started : Board ω := cleared { b with cmdBuf := r.frame }
  have hrun : cmdCopybuf started = .ok ((), emptyCopy started) := cmdCopybuf_run hlong rfl
  refine ⟨{ emptyCopy started with cmdBuf := [] }, ?_, rfl, List.drop_eq_nil_of_le ?_⟩
  · rw [execute_eq r.frame b h, m4boardExecute_eq (show 3 ≤ r.frame.length by omega), hcmd, handler_copybuf, run_bind hrun]
    rfl
  · exact Nat.le_of_eq (length_window (show 0 + 3 ≤ responseSize by decide))

/-! ## All the copies of a download -/

theorem copies_run (requests : List CopyRequest) (h : b.cmdBuf = []) :
    ∃ b', copies w requests b = .ok (requests.map fun _ => [], b') := by
  induction requests generalizing b with
  | nil => exact ⟨b, rfl⟩
  | cons r requests ih =>
    obtain ⟨b₁, hexec, hfresh, hdata⟩ := execute_copy (w := w) r h
    obtain ⟨b₂, hcopies⟩ := ih hfresh
    refine ⟨b₂, ?_⟩
    rw [copies, run_bind hexec, run_get, run_bind hcopies, hdata]
    rfl

theorem CopyRequest.length_piece {r : CopyRequest} {body : Bytes} (h : r.offset.toNat + r.size.toNat ≤ body.length) :
    (r.piece body).length = r.size.toNat := by
  rw [CopyRequest.piece, List.length_take, List.length_drop]
  omega

/-- After a download, copy commands for pieces of the body answer just these pieces when all of them are empty, and
    only then. -/
theorem copies_exact_iff (w : Host ω) {b b' : Board ω} {bytes body : Bytes} (hget : Downloaded w b bytes body b')
    (requests : List CopyRequest) (hinside : ∀ r ∈ requests, r.offset.toNat + r.size.toNat ≤ body.length) :
    (∃ b'', copies w requests b' = .ok (requests.map (CopyRequest.piece · body), b'')) ↔ ∀ r ∈ requests, r.size = 0 := by
  have hfresh : b'.cmdBuf = [] := by
    have hrun := hget.runs
    rw [execute_eq bytes b hget.fresh] at hrun
    exact m4boardExecute_clears hrun
  obtain ⟨b₂, hcopies⟩ := copies_run (w := w) requests hfresh
  have hexact : (∃ b'', copies w requests b' = .ok (requests.map (CopyRequest.piece · body), b'')) ↔
      requests.map (fun _ => []) = requests.map (CopyRequest.piece · body) := by
    rw [hcopies]
    constructor
    · rintro ⟨b'', heq⟩
      exact (Prod.mk.inj (Except.ok.inj heq)).1
    · intro heq
      exact ⟨b₂, by rw [heq]⟩
  rw [hexact, List.map_inj_left]
  refine forall₂_congr fun r hr => ?_
  rw [eq_comm, ← List.length_eq_zero_iff, CopyRequest.length_piece (hinside r hr)]
  exact UInt16.toNat_inj (b := 0)

/-! ## A download of five bytes -/

/-- The server that sends `hello`, and a board that is connected to it. -/
def helloHost : Host Unit := bareHost (ascii "hello")
def connected : Board Unit := { host := () }

/-- Downloads up to 16 bytes. -/
def helloFrame : Bytes := [0, 0x28, 0x43, 0, 16] ++ ascii "h"

/-- The bytes 1 and 2 of the download. -/
def twoBytes : CopyRequest := { sizePrefix := 0, offset := 1, size := 2 }

theorem hello_downloaded : ∃ b', Downloaded helloHost connected helloFrame (ascii "hello") b' :=
  ⟨_, rfl, by decide, rfl, by decide⟩

/-- The copies of two bytes are not answered. -/
theorem hello_not_copied : ∃ b', Downloaded helloHost connected helloFrame (ascii "hello") b' ∧
    ¬∃ b'', copies helloHost [twoBytes, twoBytes] b' =
      .ok ([twoBytes, twoBytes].map (CopyRequest.piece · (ascii "hello")), b'') := by
  obtain ⟨b', hget⟩ := hello_downloaded
  refine ⟨b', hget, fun hcopies => ?_⟩
  have hempty := (copies_exact_iff helloHost hget [twoBytes, twoBytes] (by decide)).mp hcopies
  exact absurd (hempty twoBytes List.mem_cons_self) (by decide)

/-- The first copy answers nothing, and `el` was asked for. -/
theorem hello_copy_empty : ∃ b', Downloaded helloHost connected helloFrame (ascii "hello") b' ∧
    twoBytes.offset.toNat + twoBytes.size.toNat ≤ (ascii "hello").length ∧
    ¬∃ b'', copies helloHost [twoBytes] b' = .ok ([twoBytes.piece (ascii "hello")], b'') := by
  obtain ⟨b', hget⟩ := hello_downloaded
  have hfresh : b'.cmdBuf = [] := by
    have hrun := hget.runs
    rw [execute_eq helloFrame connected hget.fresh] at hrun
    exact m4boardExecute_clears hrun
  obtain ⟨b₂, hcopies⟩ := copies_run (w := helloHost) [twoBytes] hfresh
  refine ⟨b', hget, by decide, ?_⟩
  rintro ⟨b'', h⟩
  rw [hcopies] at h
  have hpiece : [([] : Bytes)] = [twoBytes.piece (ascii "hello")] := (Prod.mk.inj (Except.ok.inj h)).1
  exact absurd hpiece (by decide)

end Koncepcja.M4
