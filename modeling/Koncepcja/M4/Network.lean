import Koncepcja.M4.Files

/-!
# Commands for the Network

## Main results

- `withSocket_safe`: what the commands with a socket have in common.
- `transfer_length`: a download is cut off where the response buffer ends.
- `cmdNetrecv_safe`: as many bytes are received as fit into the response.
-/

namespace Koncepcja.M4

open Checked

variable {ω : Type} (w : Host ω) {f : Bytes}

/-- What is only done when the network is enabled. -/
def withNetwork (msg : Option Bytes) (k : Handler ω Unit) : Handler ω Unit := do
  if (← get).networkEnabled then k else respondError msg

/-! ## Downloads -/

/-- The URL without the mark of a silent download and without the protocol. -/
def plainUrl (rawUrl : Bytes) : Bytes :=
  let url := if rawUrl.head? = some '@'.toUInt8 then rawUrl.drop 1 else rawUrl
  if url.take 7 = ascii "http://" then url.drop 7 else url

/-- The URL and the name of the file that is written. -/
def downloadName (url : Bytes) : Bytes × Bytes :=
  let (url, out) := (splitLast '>'.toUInt8 url).getD (url, [])
  if out = [] then (url, ((splitLast '/'.toUInt8 url).getD ([], [])).2) else (url, out)

/-- Removes a file, and goes on unless there is an exception, which is not caught. -/
def removeThen (dest : Bytes) (k : Handler ω Unit) : Handler ω Unit := do
  match ← call (w.remove dest) with
  | .ok _ => k
  | .error _ => pure ()

def cmdHttpget : Handler ω Unit := withNetwork (some (ascii "WiFi disabled")) do
  let rawUrl ← extractString 3
  if rawUrl = [] then refuse "No URL given"
  else do
    let (url, outFilename) := downloadName (plainUrl rawUrl)
    if outFilename = [] then refuse "No filename in URL"
    else do
      let dest ← resolvePath w outFilename
      if dest = [] then refuse "Invalid output path"
      else do
        match ← call (w.fopen dest (ascii "wb")) with
        | none => refuse "Cannot create file"
        | some file => do
          if ← call w.curlEasyInit then do
            let res ← call (w.curlToFile (ascii "http://" ++ url) file)
            act (w.fclose file)
            if res = curleOk then
              reply ((ascii "Downloaded " ++ outFilename ++ ascii "\r\n").take (responseSize - 4) ++ [0])
            else removeThen w dest (respondError (some (w.curlEasyStrerror res)))
          else do
            act (w.fclose file)
            removeThen w dest (refuse "HTTP init failed")

/-- What is stored of a piece when `data` is stored already. -/
def curlWriteMem (maxSize : Nat) (data piece : Bytes) : Bytes := piece.take (maxSize - data.length)

/-- The data that is stored, and the result: a piece that is not stored in full ends the transfer. -/
def transfer (maxSize : Nat) : List Bytes → CURLcode → Bytes → Bytes × CURLcode
  | [], res, data => (data, res)
  | piece :: pieces, res, data =>
    let stored := curlWriteMem maxSize data piece
    if stored.length < piece.length then (data ++ stored, curleWriteError)
    else transfer maxSize pieces res (data ++ stored)

def cmdHttpgetmem : Handler ω Unit := withNetwork (some (ascii "WiFi disabled")) do
  if (← size) < 6 then refuse "Bad args"
  else do
    let hi ← frame 3
    let lo ← frame 4
    let rawUrl ← extractString 5
    if rawUrl = [] then refuse "No URL given"
    else do
      let maxSize := min (word lo hi) (responseSize - 5)
      if ← call w.curlEasyInit then do
        let (pieces, last) ← call (w.curlPieces (ascii "http://" ++ plainUrl rawUrl))
        let (data, res) := transfer maxSize pieces last []
        -- A full buffer ends the transfer with an error, and is no failure.
        if res ≠ curleOk ∧ (res ≠ curleWriteError ∨ data = []) then
          respondError (some (w.curlEasyStrerror res))
        else reply ([UInt8.ofNat (data.length >>> 8), UInt8.ofNat data.length] ++ data)
      else refuse "HTTP init failed"

/-! ## The state of the network -/

def cmdSetnetwork : Handler ω Unit := respondOk

def cmdNetstat : Handler ω Unit := do
  if (← get).networkEnabled then do
    let ip ← ask w.getHostIp
    let ssid ← ask w.getHostSsid
    let msg :=
      if ip = [] then ascii "No network\r\n"
      else ascii "IP: " ++ ip ++ (if ssid = [] then [] else ascii " (" ++ ssid ++ ascii ")") ++ ascii "\r\n"
    reply (msg.take (responseSize - 6) ++ [0, if ip = [] then 0 else 5])
  else reply (ascii "WiFi disabled\r\n" ++ [0, 0])

def cmdTime : Handler ω Unit := do
  let t ← ask w.localtime
  let two := padLeft '0'.toUInt8 2
  reply (snprintf 64 (two t.tmHour ++ ascii ":" ++ two t.tmMin ++ ascii ":" ++ two t.tmSec ++ ascii " " ++
    padLeft '0'.toUInt8 4 (t.tmYear + 1900) ++ ascii "-" ++ two (t.tmMon + 1) ++ ascii "-" ++ two t.tmMday) ++ [0])

def cmdM4off : Handler ω Unit := do
  modify fun b => { b with enabled := false }
  respondOk

def cmdWifipow : Handler ω Unit := do
  if (← size) < 4 then respondOk
  else do
    let power ← frame 3
    modify fun b => { b with networkEnabled := power ≠ 0 }
    respondOk

def cmdNetrssi : Handler ω Unit := reply [0]

/-- A text in a field of zeros. -/
def field (width : Nat) (text : Bytes) : Bytes := (text ++ List.replicate width 0).take width

def cmdGetnetwork : Handler ω Unit := reply <|
  field 16 (ascii "koncepcja-m4") ++ field 32 (ascii "emulated") ++ field 64 [] ++
  -- The address, the mask, the gateway, two name servers, DHCP and the time zone.
  [127, 0, 0, 1] ++ field 4 [255] ++ field 4 [] ++ field 4 [] ++ field 4 [] ++ field 4 [1] ++ field 4 []

/-! ## Sockets -/

def setSocket (slot : Fin maxSockets) (s : Option Socket) : Handler ω Unit :=
  modify fun b => { b with sockets := Function.update b.sockets slot s }

/-- What is done with the socket that the frame names, when the frame is as long as it needs to be. -/
def withSocket (needed : Nat) (refusal : Bytes) (k : Fin maxSockets → Socket → Handler ω Unit) : Handler ω Unit :=
  withNetwork none do
    if (← size) < needed then respondError none
    else do
      let slot ← frame 3
      let b ← get
      if h : slot.toNat < maxSockets then
        match b.sockets ⟨slot.toNat, h⟩ with
        | none => reply refusal
        | some s => k ⟨slot.toNat, h⟩ s
      else reply refusal

def cmdNetsocket : Handler ω Unit := withNetwork none do
  let b ← get
  match (List.finRange maxSockets).find? fun i => (b.sockets i).isNone with
  | none => reply [0xFF]
  | some slot => do
    match ← call w.socket with
    | none => reply [0xFF]
    | some s => do
      setSocket slot (some s)
      reply [UInt8.ofNat slot]

def cmdNetconnect : Handler ω Unit := withSocket 10 [0xFF] fun _ s => do
  let ip := word (← frame 7) (← frame 6) ||| word (← frame 5) (← frame 4) <<< 16
  let port := word (← frame 9) (← frame 8)
  act (w.setNonblocking s)
  let ok ← call (w.connect s ip port)
  reply [if ok then 0 else 0xFF]

/-- Closes a socket; a port that was forwarded for it is no longer in use. -/
def closeSocket (slot : Nat) : Handler ω Unit := do
  let b ← get
  if h : slot < maxSockets then
    match b.sockets ⟨slot, h⟩ with
    | none => pure ()
    | some s => do
      act fun host => match w.getsockname s host with
        | some port => if 0 < port then w.setInactive port host else host
        | none => host
      act (w.close s)
      setSocket ⟨slot, h⟩ none
  else pure ()

def cmdNetclose : Handler ω Unit := do
  if (← size) < 4 then respondOk
  else do
    let slot ← frame 3
    closeSocket w slot.toNat
    respondOk

def cmdNetsend : Handler ω Unit := withSocket 6 [0xFF] fun _ s => do
  let dataSize := word (← frame 4) (← frame 5)
  let n ← size
  let toSend := min dataSize (n - 6)
  if 0 < toSend then do
    let data ← frameBytes 6 toSend
    let sent ← call (w.send s data)
    reply [if 0 < sent then 0 else 0xFF]
  else reply [0]

/-- `recv`, which stores no more than was asked for. -/
def recv (s : Socket) (count : Nat) : Handler ω Bytes := do
  let data ← call (w.recv s count)
  return data.take count

def cmdNetrecv : Handler ω Unit := withSocket 6 [0xFF, 0, 0] fun _ s => do
  let maxRecv := word (← frame 4) (← frame 5)
  let data ← recv w s (min maxRecv (responseSize - 6))
  reply ([0, UInt8.ofNat data.length, UInt8.ofNat (data.length >>> 8)] ++ data)

def cmdNethostip : Handler ω Unit := withNetwork none do
  let hostname ← extractString 3
  if hostname = [] then reply [0xFF]
  else do
    match ← ask (w.getaddrinfo hostname) with
    | none => reply [1]
    | some ip => reply (0 :: be32 ip)

/-- The first port that a socket can be bound to, 0 when there is none. -/
def bindFirst (s : Socket) : Nat → Nat → Handler ω Nat
  | 0, _ => pure 0
  | n + 1, p => do
    if ← call (w.bind s (UInt16.ofNat p)) then pure p else bindFirst s n (p + 1)

def cmdNetbind : Handler ω Unit := withSocket 10 [0xFF] fun _ s => do
  let cpcPort := UInt16.ofNat (word (← frame 9) (← frame 8))
  let hostPort ← ask (w.resolveHostPort cpcPort)
  let boundPort ← bindFirst w s 10 hostPort.toNat
  if boundPort = 0 then reply [0xFF]
  else do
    let wasUser := (← ask (w.resolveHostPort cpcPort)) ≠ cpcPort
    act (w.setPortMapping cpcPort (UInt16.ofNat boundPort) wasUser)
    reply [0]

def cmdNetlisten : Handler ω Unit := withSocket 4 [0xFF] fun _ s => do
  let listening ← call (w.listen s)
  reply [if listening then 0 else 0xFF]

def cmdNetaccept : Handler ω Unit := withSocket 4 [0xFF] fun slot s => do
  act (w.setNonblocking s)
  match ← call (w.accept s) with
  | none => reply [4]
  | some client => do
    act (w.close s)
    setSocket slot (some client)
    act (w.setNonblocking client)
    reply [0]

/-! ## Safe parts -/

section

variable {w}

theorem withNetwork_safe {msg : Option Bytes} {k : Handler ω Unit} (hk : InBounds f k) :
    InBounds f (withNetwork msg k) :=
  Safe.get fun _ _ => .ite (fun _ => hk) fun _ => respondError_safe

theorem removeThen_safe {dest : Bytes} {k : Handler ω Unit} (hk : InBounds f k) : InBounds f (removeThen w dest k) := by
  refine call_safe.bind fun r => ?_
  cases r with
  | ok removed => exact hk
  | error what => exact .pure ()

theorem reply_take_safe {n : Nat} {text rest : Bytes} (h : 3 + n + rest.length ≤ responseSize) :
    InBounds f (reply (text.take n ++ rest) : Handler ω Unit) := by
  refine reply_safe ?_
  have := List.length_take_le n text
  rw [List.length_append]
  omega

theorem setSocket_safe {slot : Fin maxSockets} {s : Option Socket} : InBounds f (setSocket (ω := ω) slot s) :=
  .modify fun _ hb => hb

/-- The number of the socket is read, and then the socket is there. -/
theorem withSocket_safe {needed : Nat} {refusal : Bytes} {k : Fin maxSockets → Socket → Handler ω Unit}
    (hneeded : 4 ≤ needed) (hrefusal : 3 + refusal.length ≤ responseSize)
    (hk : needed ≤ f.length → ∀ slot s, InBounds f (k slot s)) : InBounds f (withSocket needed refusal k) := by
  refine withNetwork_safe <| size_safe <| .ite (fun _ => respondError_safe) fun hlong => ?_
  refine (frame_safe (by omega)).bind fun slot => Safe.get fun b _ => ?_
  split
  · split
    · exact reply_safe hrefusal
    · exact hk (by omega) _ _
  · exact reply_safe hrefusal

/-- No more is stored than there is room for. -/
theorem transfer_length (maxSize : Nat) (pieces : List Bytes) (last : CURLcode) (data : Bytes)
    (h : data.length ≤ maxSize) : (transfer maxSize pieces last data).1.length ≤ maxSize := by
  induction pieces generalizing data with
  | nil => exact h
  | cons piece pieces ih =>
    have hstored : (data ++ curlWriteMem maxSize data piece).length ≤ maxSize := by
      have := List.length_take_le (maxSize - data.length) piece
      rw [List.length_append, curlWriteMem]
      omega
    rw [transfer]
    split
    · exact hstored
    · exact ih _ hstored

theorem recv_returns {s : Socket} {count : Nat} :
    Returns (Holds f) (fun data => data.length ≤ count) (recv w s count) :=
  call_safe.bind_returns fun data => .pure (List.length_take_le count data)

/-! ## The commands -/

theorem cmdHttpget_safe : InBounds f (cmdHttpget w) := by
  refine withNetwork_safe <| extractString_safe.bind fun rawUrl => .ite (fun _ => refuse_safe) fun _ => ?_
  refine .ite (fun _ => refuse_safe) fun _ => resolvePath_safe.bind fun dest => .ite (fun _ => refuse_safe) fun _ => ?_
  refine call_safe.bind fun file => ?_
  cases file with
  | none => exact refuse_safe
  | some file =>
    refine call_safe.bind fun _ => .ite (fun _ => ?_) fun _ => act_safe.seq (removeThen_safe refuse_safe)
    refine call_safe.bind fun res => act_safe.seq <| .ite (fun _ => ?_) fun _ => removeThen_safe respondError_safe
    exact reply_take_safe (by decide)

theorem cmdHttpgetmem_safe : InBounds f (cmdHttpgetmem w) := by
  refine withNetwork_safe <| size_safe <| .ite (fun _ => refuse_safe) fun hlong => ?_
  refine (frame_safe (by omega)).bind fun hi => (frame_safe (by omega)).bind fun lo => ?_
  refine extractString_safe.bind fun rawUrl => .ite (fun _ => refuse_safe) fun _ => ?_
  refine call_safe.bind fun _ => .ite (fun _ => ?_) fun _ => refuse_safe
  refine call_safe.bind fun sent => .ite (fun _ => respondError_safe) fun _ => reply_safe ?_
  have hdata := transfer_length (min (word lo hi) (responseSize - 5)) sent.1 sent.2 [] (Nat.zero_le _)
  have hsize : 5 ≤ responseSize := by decide
  rw [List.length_append, List.length_cons, List.length_singleton]
  omega

theorem cmdNetstat_safe : InBounds f (cmdNetstat w) := by
  refine Safe.get fun b _ => .ite (fun _ => ?_) fun _ => reply_safe (by decide)
  refine ask_safe.bind fun ip => ask_safe.bind fun ssid => reply_take_safe ?_
  rw [List.length_cons, List.length_singleton]
  decide

theorem cmdTime_safe : InBounds f (cmdTime w) := ask_safe.bind fun _ => reply_snprintf_safe (Nat.le_refl 64)

theorem cmdM4off_safe : InBounds f (cmdM4off : Handler ω Unit) :=
  Safe.seq (.modify fun _ hb => hb) respondOk_safe

theorem cmdWifipow_safe : InBounds f (cmdWifipow : Handler ω Unit) := by
  refine size_safe <| .ite (fun _ => respondOk_safe) fun _ => (frame_safe (by omega)).bind fun power => ?_
  exact Safe.seq (.modify fun _ hb => hb) respondOk_safe

theorem length_field {width : Nat} {text : Bytes} : (field width text).length = width := by
  simp [field]

theorem cmdGetnetwork_safe : InBounds f (cmdGetnetwork : Handler ω Unit) := by
  refine reply_safe ?_
  simp only [List.length_append, length_field, List.length_cons, List.length_nil]
  decide

theorem cmdNetsocket_safe : InBounds f (cmdNetsocket w) := by
  refine withNetwork_safe <| Safe.get fun b _ => ?_
  split
  · exact reply_byte_safe
  · refine call_safe.bind fun s => ?_
    cases s with
    | none => exact reply_byte_safe
    | some s => exact setSocket_safe.seq reply_byte_safe

theorem cmdNetconnect_safe : InBounds f (cmdNetconnect w) := by
  refine withSocket_safe (by decide) (by decide) fun hlong slot s => ?_
  refine (frame_safe (by omega)).bind fun _ => (frame_safe (by omega)).bind fun _ => ?_
  refine (frame_safe (by omega)).bind fun _ => (frame_safe (by omega)).bind fun _ => ?_
  refine (frame_safe (by omega)).bind fun _ => (frame_safe (by omega)).bind fun _ => ?_
  exact act_safe.seq <| call_safe.bind fun ok => reply_byte_safe

theorem closeSocket_safe {slot : Nat} : InBounds f (closeSocket w slot) := by
  refine Safe.get fun b _ => ?_
  split
  · split
    · exact .pure ()
    · exact act_safe.seq <| act_safe.seq setSocket_safe
  · exact .pure ()

theorem cmdNetclose_safe : InBounds f (cmdNetclose w) :=
  size_safe <| .ite (fun _ => respondOk_safe) fun _ => (frame_safe (by omega)).bind fun _ =>
    closeSocket_safe.seq respondOk_safe

theorem cmdNetsend_safe : InBounds f (cmdNetsend w) := by
  refine withSocket_safe (by decide) (by decide) fun hlong slot s => ?_
  refine (frame_safe (by omega)).bind fun _ => (frame_safe (by omega)).bind fun _ => size_safe ?_
  refine .ite (fun _ => ?_) fun _ => reply_byte_safe
  exact (frameBytes_returns (by omega)).bind fun data _ => call_safe.bind fun sent => reply_byte_safe

theorem cmdNetrecv_safe : InBounds f (cmdNetrecv w) := by
  refine withSocket_safe (by decide) (by decide) fun hlong slot s => ?_
  refine (frame_safe (by omega)).bind fun _ => (frame_safe (by omega)).bind fun _ => recv_returns.bind fun data hdata => ?_
  have hsize : 6 ≤ responseSize := by decide
  refine reply_safe ?_
  rw [List.length_append, List.length_cons, List.length_cons, List.length_singleton]
  omega

theorem cmdNethostip_safe : InBounds f (cmdNethostip w) := by
  refine withNetwork_safe <| extractString_safe.bind fun hostname => .ite (fun _ => reply_byte_safe) fun _ => ?_
  refine ask_safe.bind fun ip => ?_
  cases ip with
  | none => exact reply_byte_safe
  | some ip => exact reply_safe (show 8 ≤ responseSize by decide)

theorem bindFirst_safe {s : Socket} (n p : Nat) : InBounds f (bindFirst w s n p) := by
  induction n generalizing p with
  | zero => exact .pure 0
  | succ n ih => exact call_safe.bind fun _ => .ite (fun _ => .pure p) fun _ => ih (p + 1)

theorem cmdNetbind_safe : InBounds f (cmdNetbind w) := by
  refine withSocket_safe (by decide) (by decide) fun hlong slot s => ?_
  refine (frame_safe (by omega)).bind fun _ => (frame_safe (by omega)).bind fun _ => ask_safe.bind fun hostPort => ?_
  refine (bindFirst_safe _ _).bind fun boundPort => .ite (fun _ => reply_byte_safe) fun _ => ?_
  exact ask_safe.bind fun _ => act_safe.seq reply_byte_safe

theorem cmdNetlisten_safe : InBounds f (cmdNetlisten w) :=
  withSocket_safe (by decide) (by decide) fun _ _ _ => call_safe.bind fun _ => reply_byte_safe

theorem cmdNetaccept_safe : InBounds f (cmdNetaccept w) := by
  refine withSocket_safe (by decide) (by decide) fun _ slot s => act_safe.seq <| call_safe.bind fun client => ?_
  cases client with
  | none => exact reply_byte_safe
  | some client => exact act_safe.seq <| setSocket_safe.seq <| act_safe.seq reply_byte_safe

end

end Koncepcja.M4
