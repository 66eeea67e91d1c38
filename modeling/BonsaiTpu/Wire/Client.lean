-- SUMMARY: The frames of the C++ client: how a request is written and a response read (`host/transport/client.cpp`).
import BonsaiTpu.Wire.Framing

/-!
# Requests and responses

`RpcClient::call_locked` writes one frame and reads one frame. Both ends use the layout
of `proto/framing.py`, but two JSON libraries: `JsonText` is the one of the daemon,
`CppJson` the one of the client.
-/

namespace Wire

open Words (Byte)
open ByteReader (exact)

/-! ## JSON in C++ -/

/-- The functions of the JSON library of the client. `dump` throws on strings that are no
    UTF-8; `eqId` compares a value with a `uint64_t`; `toDouble` is what an integer outside
    of 64 bits is read as. -/
structure CppJson where
  dump : Json → Option (List Byte)
  parse : List Byte → Except String Json
  eqId : Json → Nat → Bool
  toDouble : Int → BitVec 64

/-- A value and what the client reads for it: the same but for integers outside of 64 bits. -/
inductive SameJson (toDouble : Int → BitVec 64) : Json → Json → Prop
  | null : SameJson toDouble .null .null
  | bool (b : Bool) : SameJson toDouble (.bool b) (.bool b)
  | int (n : Int) : -2 ^ 63 ≤ n → n < 2 ^ 64 → SameJson toDouble (.int n) (.int n)
  | wide (n : Int) : n < -2 ^ 63 ∨ 2 ^ 64 ≤ n → SameJson toDouble (.int n) (.real (toDouble n))
  | real (bits : BitVec 64) : SameJson toDouble (.real bits) (.real bits)
  | str (s : String) : SameJson toDouble (.str s) (.str s)
  | arr {xs ys : List Json} : List.Forall₂ (SameJson toDouble) xs ys →
      SameJson toDouble (.arr xs) (.arr ys)
  | obj {f g : Dict} : (∀ key, Option.Rel (SameJson toDouble) (f key) (g key)) →
      SameJson toDouble (.obj f) (.obj g)

/-- What the client parses of a text that the daemon wrote is the value that was written. -/
def Interoperable (json : JsonText) (cpp : CppJson) : Prop :=
  ∀ v w, cpp.parse (encodeUtf8 (json.dumps v)) = .ok w → SameJson cpp.toDouble v w

/-! ## Frames -/

section

variable {ε μ : Type}

/-- Read bytes only if there are some. -/
def exactSome (n : Nat) : ByteReader ε (List Byte) := if n ≠ 0 then exact n else .done []

/-- Read one frame. -/
def readFrame (check : Header → Except ε Unit) (parse : List Byte → Except ε μ) :
    ByteReader ε (μ × List Byte) := do
  let header ← exact HEADER_SIZE
  let h := Header.unpack header
  ofExcept (check h)
  let raw ← exact h.jsonLen
  let metadata ← ofExcept (parse raw)
  let payload ← exactSome h.payloadLen
  pure (metadata, payload)

theorem recvMessage_eq_readFrame (json : JsonText) :
    recvMessage json = readFrame checkHeader (parseMetadata json) := rfl

/-- The bytes of a frame. -/
def frameBytes (raw payload : List Byte) : List Byte :=
  (frameHeader raw.length payload.length).pack ++ raw ++ payload

theorem sendMessage_eq_ok {json : JsonText} {m : Message} {bytes : List Byte}
    (h : sendMessage json m = .ok bytes) :
    bytes = frameBytes (encodeUtf8 (json.dumps (.obj m.1))) m.2 ∧
      (encodeUtf8 (json.dumps (.obj m.1))).length < 2 ^ 32 ∧ m.2.length < 2 ^ 32 := by
  rw [sendMessage] at h
  split at h
  · next hlen => exact ⟨(Except.ok.inj h).symm, hlen⟩
  · cases h

section

variable {check : Header → Except ε Unit} {parse : List Byte → Except ε μ} {onEof : Bool → ε}
    {raw payload : List Byte}

theorem runBytes_readFrame (hraw : raw.length < 2 ^ 32) (hpayload : payload.length < 2 ^ 32) :
    (readFrame check parse).runBytes onEof (frameBytes raw payload) =
      match check (frameHeader raw.length payload.length) with
      | .error e => (.error e, raw ++ payload)
      | .ok () =>
        match parse raw with
        | .error e => (.error e, payload)
        | .ok metadata => (.ok (metadata, payload), []) := by
  have hheader := ByteReader.runBytes_exact_append onEof
    (frameHeader raw.length payload.length).pack (raw ++ payload)
  have hmetadata := ByteReader.runBytes_exact_append onEof raw payload
  have hlast : (exactSome payload.length).runBytes onEof payload = (.ok payload, []) := by
    rw [exactSome]
    split
    · have hall := ByteReader.runBytes_exact_append onEof payload []
      rwa [List.append_nil] at hall
    · next hempty =>
      rw [List.length_eq_zero_iff.mp (not_not.mp hempty)]
      rfl
  rw [length_pack_frameHeader] at hheader
  rw [readFrame, frameBytes, List.append_assoc, ByteReader.runBytes_bind, hheader]
  simp only [unpack_pack_frameHeader hraw hpayload, ByteReader.runBytes_bind]
  cases check (frameHeader raw.length payload.length) with
  | error e => rfl
  | ok u =>
    simp only [ofExcept, ByteReader.runBytes, frameHeader, hmetadata]
    cases parse raw with
    | error e => rfl
    | ok metadata => simp only [ByteReader.runBytes, hlast, ByteReader.runBytes_pure]

/-- A frame that is read is read to its end. -/
theorem readFrame_frameBytes {rest : List Byte} (hraw : raw.length < 2 ^ 32)
    (hpayload : payload.length < 2 ^ 32)
    {x : μ × List Byte}
    (h : (readFrame check parse).runBytes onEof (frameBytes raw payload) = (.ok x, rest)) :
    rest = [] ∧ parse raw = .ok x.1 ∧ x.2 = payload := by
  rw [runBytes_readFrame hraw hpayload] at h
  split at h
  · cases h
  · split at h
    · cases h
    · next hparse =>
      cases h
      exact ⟨rfl, hparse, rfl⟩

end

/-- Nothing is read from nothing. -/
theorem readFrame_nil (check : Header → Except ε Unit) (parse : List Byte → Except ε μ)
    (onEof : Bool → ε) :
    (readFrame check parse).runBytes onEof [] = (.error (onEof true), []) := rfl

end

/-! ## Requests -/

/-- The payload argument of a call: a null pointer with a size, or bytes. -/
inductive Payload where
  | null (size : Nat)
  | bytes (data : List Byte)

def Payload.size : Payload → Nat
  | .null size => size
  | .bytes data => data.length

def Payload.data : Payload → List Byte
  | .null _ => []
  | .bytes data => data

def Payload.isNull : Payload → Bool
  | .null _ => true
  | .bytes _ => false

/-- The arguments of `call`. -/
structure Request where
  op : String
  fields : Json
  payload : Payload

/-- What a call throws: `RpcError`, or an exception of the JSON library. -/
inductive Thrown where
  | rpcError (message : String)
  | jsonError

/-- The checks of `call_locked` on its arguments. -/
def Request.check (req : Request) : Except String Dict :=
  match req.fields with
  | .obj fields =>
    if req.payload.size ≠ 0 ∧ req.payload.isNull then .error "RPC payload pointer is null"
    else if 2 ^ 32 - 1 < req.payload.size then .error "RPC payload exceeds frame limit"
    else .ok fields
  | _ => .error "RPC fields must be a JSON object"

/-- The metadata of a request: `id` and `op` replace what the fields have there. -/
def requestMetadata (fields : Dict) (id : Nat) (op : String) : Dict := fun key =>
  if key = "op" then some (.str op) else if key = "id" then some (.int id) else fields key

/-- The bytes that `call_locked` sends, once the arguments are checked. -/
def requestFrame (cpp : CppJson) (fields : Dict) (req : Request) (id : Nat) :
    Except Thrown (List Byte) :=
  match cpp.dump (.obj (requestMetadata fields id req.op)) with
  | none => .error .jsonError
  | some text =>
    if MAX_JSON_BYTES < text.length then .error (.rpcError "RPC metadata exceeds frame limit")
    else .ok (frameBytes text req.payload.data)

/-- A message is what the daemon makes of the frame of a request. -/
def Decodes (json : JsonText) (cpp : CppJson) (req : Request) (id : Nat) (m : Message) : Prop :=
  ∃ fields text, req.check = .ok fields ∧
    cpp.dump (.obj (requestMetadata fields id req.op)) = some text ∧
    parseMetadata json text = .ok m.1 ∧ m.2 = req.payload.data

theorem Request.size_lt {req : Request} {fields : Dict} (h : req.check = .ok fields) :
    req.payload.data.length < 2 ^ 32 := by
  have hle : req.payload.data.length ≤ req.payload.size := by
    cases req.payload with
    | null size => exact Nat.zero_le _
    | bytes data => exact Nat.le_refl _
  rw [Request.check] at h
  split at h
  · split at h
    · cases h
    · split at h
      · cases h
      · omega
  · cases h

theorem requestFrame_eq_ok {cpp : CppJson} {fields : Dict} {req : Request} {id : Nat}
    {bytes : List Byte} (h : requestFrame cpp fields req id = .ok bytes) :
    ∃ text, cpp.dump (.obj (requestMetadata fields id req.op)) = some text ∧
      text.length ≤ MAX_JSON_BYTES ∧
      bytes = frameBytes text req.payload.data := by
  rw [requestFrame] at h
  split at h
  · cases h
  · next text htext =>
    split at h
    · cases h
    · next hlen => exact ⟨text, htext, Nat.le_of_not_lt hlen, (Except.ok.inj h).symm⟩

/-- The daemon reads a request to the end of its frame. -/
theorem recvMessage_requestFrame {json : JsonText} {cpp : CppJson} {fields : Dict}
    {req : Request} {id : Nat}
    {bytes rest : List Byte} {m : Message} (hcheck : req.check = .ok fields)
    (hframe : requestFrame cpp fields req id = .ok bytes)
    (h : (recvMessage json).runBytes onEof bytes = (.ok m, rest)) :
    rest = [] ∧ Decodes json cpp req id m := by
  obtain ⟨text, htext, hlen, rfl⟩ := requestFrame_eq_ok hframe
  rw [recvMessage_eq_readFrame] at h
  obtain ⟨hrest, hparse, hpayload⟩ :=
    readFrame_frameBytes (Nat.lt_of_le_of_lt hlen (by decide)) (Request.size_lt hcheck) h
  exact ⟨hrest, fields, text, hcheck, htext, hparse, hpayload⟩

/-! ## Responses -/

/-- What a call returns. -/
structure RpcResponse where
  result : Json
  payload : List Byte

def checkResponseHeader (h : Header) : Except String Unit :=
  if h.magic ≠ MAGIC then .error "bonsaid response has bad frame magic"
  else if h.version ≠ VERSION then .error "bonsaid response has unsupported protocol version"
  else if h.flags ≠ 0 then .error "bonsaid response has unsupported frame flags"
  else if MAX_JSON_BYTES < h.jsonLen then .error "bonsaid response metadata exceeds frame limit"
  else .ok ()

/-- The response object, if it has the id of the request. -/
def parseResponse (cpp : CppJson) (id : Nat) (raw : List Byte) : Except String Dict :=
  match cpp.parse raw with
  | .error what => .error s!"invalid bonsaid response JSON: {what}"
  | .ok (.obj response) =>
    match response "id" with
    | none => .error "bonsaid response id does not match request"
    | some v =>
      if cpp.eqId v id then .ok response else .error "bonsaid response id does not match request"
  | .ok _ => .error "bonsaid response metadata is not an object"

/-- The part of `call_locked` that reads the response. -/
def recvResponse (cpp : CppJson) (id : Nat) : ByteReader String (Dict × List Byte) :=
  readFrame checkResponseHeader (parseResponse cpp id)

/-- The message of `recv_all` at the end of the stream. -/
def onClientEof (_ : Bool) : String := "unexpected EOF while reading bonsaid frame"

/-- `json::value` with a text as its default; it throws if the value is no string. -/
def Dict.valueStr (d : Dict) (key fallback : String) : Option String :=
  match d key with
  | none => some fallback
  | some (.str s) => some s
  | some _ => none

def remoteErrorText (response : Dict) : Option String :=
  match (response "error").getD (.obj fun _ => none) with
  | .obj error => do
    let code ← Dict.valueStr error "code" "remote_error"
    let message ← Dict.valueStr error "message" ""
    return code ++ ": " ++ message
  | _ => none

/-- The end of `call_locked`, when the response is read. -/
def conclude (response : Dict) (payload : List Byte) : Except Thrown RpcResponse :=
  match (response "ok").getD (.bool false) with
  | .bool true => .ok ⟨(response "result").getD (.obj fun _ => none), payload⟩
  | .bool false =>
    match remoteErrorText response with
    | some text => .error (.rpcError text)
    | none => .error .jsonError
  | _ => .error .jsonError

/-! ## Answers of the daemon -/

/-- The answer to a request that was executed. -/
def okReply (id : Json) (result : Dict) : Dict := fun key =>
  if key = "id" then some id else if key = "ok" then some (.bool true)
  else if key = "result" then some (.obj result) else none

/-- The `error` object of an answer. -/
def errorObject (code message : String) : Dict := fun key =>
  if key = "code" then some (.str code) else if key = "message" then some (.str message) else none

/-- The answer of `_send_error`. -/
def errorReply (id : Json) (code message : String) : Dict := fun key =>
  if key = "id" then some id else if key = "ok" then some (.bool false)
  else if key = "error" then some (.obj (errorObject code message)) else none

section

variable {toDouble : Int → BitVec 64} {response : Dict} {id : Json}

theorem SameJson.field {f g : Dict} {v : Json}
    (h : SameJson toDouble (.obj f) (.obj g)) {key : String}
    (hkey : f key = some v) : ∃ w, g key = some w ∧ SameJson toDouble v w := by
  cases h with
  | obj hfields =>
    have hrel := hfields key
    rw [hkey] at hrel
    cases hw : g key with
    | none =>
      rw [hw] at hrel
      cases hrel
    | some w =>
      rw [hw] at hrel
      cases hrel with
      | some hvw => exact ⟨w, rfl, hvw⟩

/-- An error answer makes the call throw `RpcError`. -/
theorem conclude_errorReply {code message : String}
    (h : SameJson toDouble (.obj (errorReply id code message)) (.obj response))
    (payload : List Byte) :
    conclude response payload = .error (.rpcError (code ++ ": " ++ message)) := by
  obtain ⟨_, hok, hfalse⟩ :=
    h.field (show errorReply id code message "ok" = some (.bool false) from rfl)
  obtain ⟨e, herror, hobject⟩ :=
    h.field (show errorReply id code message "error" =
      some (.obj (errorObject code message)) from rfl)
  cases hfalse
  cases hobject with
  | obj hfields =>
    have herrors := SameJson.obj hfields
    obtain ⟨_, hcode, hstr⟩ :=
      herrors.field (show errorObject code message "code" = some (.str code) from rfl)
    obtain ⟨_, hmessage, hstr'⟩ :=
      herrors.field (show errorObject code message "message" = some (.str message) from rfl)
    cases hstr
    cases hstr'
    simp [conclude, hok, remoteErrorText, herror, Dict.valueStr, hcode, hmessage]

/-- The answer to an executed request makes the call return its result. -/
theorem conclude_okReply {result : Dict}
    (h : SameJson toDouble (.obj (okReply id result)) (.obj response))
    (payload : List Byte) :
    ∃ r, conclude response payload = .ok ⟨r, payload⟩ ∧ SameJson toDouble (.obj result) r := by
  obtain ⟨_, hok, htrue⟩ := h.field (show okReply id result "ok" = some (.bool true) from rfl)
  obtain ⟨r, hresult, hsame⟩ :=
    h.field (show okReply id result "result" = some (.obj result) from rfl)
  cases htrue
  exact ⟨r, by simp [conclude, hok, hresult], hsame⟩

/-- A response is read to the end of its frame, and it is what the daemon wrote. -/
theorem recvResponse_sendMessage {json : JsonText} {cpp : CppJson} (hjson : Interoperable json cpp)
    {id : Nat} {reply : Message}
    {bytes rest : List Byte} {x : Dict × List Byte} (hsent : sendMessage json reply = .ok bytes)
    (h : (recvResponse cpp id).runBytes onClientEof bytes = (.ok x, rest)) :
    rest = [] ∧ SameJson cpp.toDouble (.obj reply.1) (.obj x.1) ∧ x.2 = reply.2 := by
  obtain ⟨rfl, hraw, hpayload⟩ := sendMessage_eq_ok hsent
  obtain ⟨hrest, hparse, hx⟩ := readFrame_frameBytes hraw hpayload h
  refine ⟨hrest, ?_, hx⟩
  rw [parseResponse] at hparse
  cases hvalue : cpp.parse (encodeUtf8 (json.dumps (.obj reply.1))) with
  | error what =>
    rw [hvalue] at hparse
    cases hparse
  | ok w =>
    have hsame := hjson _ _ hvalue
    rw [hvalue] at hparse
    cases w with
    | obj g =>
      simp only at hparse
      split at hparse
      · cases hparse
      · split at hparse
        · rw [← Except.ok.inj hparse]
          exact hsame
        · cases hparse
    | _ => cases hparse

end

end Wire
