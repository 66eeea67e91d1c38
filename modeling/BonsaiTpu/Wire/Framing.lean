-- SUMMARY: The frames of the runtime protocol: sending, receiving, and that received frames are the sent ones (`proto/framing.py`).
import BonsaiTpu.Base.ByteReader

/-!
# Frames

A frame is a header of sixteen bytes, a JSON object in UTF-8 and a payload. The JSON
module is left open: `JsonText` has its two functions. `recvMessage` is a reader of the
byte stream; its exceptions are those of `recv_message`.
-/

namespace Wire

open Words (Byte)
open ByteReader (exact fail Sock)

/-! ## JSON -/

/-- JSON values. An object is what its keys map to. -/
inductive Json where
  | null
  | bool (b : Bool)
  | int (n : Int)
  | real (bits : BitVec 64)
  | str (s : String)
  | arr (items : List Json)
  | obj (fields : String → Option Json)

/-- A JSON object. -/
abbrev Dict := String → Option Json

/-- Why `json.loads` raised: `JSONDecodeError`, or another exception. -/
inductive LoadsError where
  | decode (message : String)
  | other (name : String)

/-- The functions of a JSON module that frames use. -/
structure JsonText where
  dumps : Json → String
  loads : String → Except LoadsError Json

/-- `str.encode("utf-8")`. -/
def encodeUtf8 (text : String) : List Byte := text.toByteArray.data.toList.map UInt8.toBitVec

/-- `bytes.decode("utf-8")`. -/
def decodeUtf8 (raw : List Byte) : Option String :=
  String.fromUTF8? ⟨(raw.map UInt8.ofBitVec).toArray⟩

theorem decodeUtf8_encodeUtf8 (text : String) : decodeUtf8 (encodeUtf8 text) = some text := by
  have hbytes : (⟨((encodeUtf8 text).map UInt8.ofBitVec).toArray⟩ : ByteArray) =
      text.toByteArray := by
    have hid : UInt8.ofBitVec ∘ UInt8.toBitVec = id := rfl
    rw [encodeUtf8, List.map_map, hid, List.map_id]
  rw [decodeUtf8, hbytes, String.fromUTF8?, dif_pos text.isValidUTF8]
  rfl

/-! ## Headers -/

def MAGIC : List Byte := [0x42, 0x50, 0x4E, 0x51]
def VERSION : Nat := 1
def HEADER_SIZE : Nat := 16
def MAX_JSON_BYTES : Nat := 1 * 1024 * 1024

/-- A number in `width` bytes, big endian. -/
def bigEndian (width n : Nat) : List Byte :=
  (List.range width).map fun i => BitVec.ofNat 8 (n / 256 ^ (width - 1 - i))

def ofBigEndian (bytes : List Byte) : Nat := bytes.foldl (fun n b => n * 256 + b.toNat) 0

@[simp] theorem length_bigEndian (width n : Nat) : (bigEndian width n).length = width := by
  rw [bigEndian, List.length_map, List.length_range]

theorem ofBigEndian_two {n : Nat} (h : n < 2 ^ 16) : ofBigEndian (bigEndian 2 n) = n := by
  simp [ofBigEndian, bigEndian, List.range_succ]
  omega

theorem ofBigEndian_four {n : Nat} (h : n < 2 ^ 32) : ofBigEndian (bigEndian 4 n) = n := by
  simp [ofBigEndian, bigEndian, List.range_succ]
  omega

/-- `HEADER`, the fields in the order of the struct `!4sHHII`. -/
structure Header where
  magic : List Byte
  version : Nat
  flags : Nat
  jsonLen : Nat
  payloadLen : Nat

def Header.pack (h : Header) : List Byte :=
  h.magic ++ bigEndian 2 h.version ++ bigEndian 2 h.flags ++ bigEndian 4 h.jsonLen ++
    bigEndian 4 h.payloadLen

def Header.unpack (bytes : List Byte) : Header where
  magic := bytes.take 4
  version := ofBigEndian ((bytes.drop 4).take 2)
  flags := ofBigEndian ((bytes.drop 6).take 2)
  jsonLen := ofBigEndian ((bytes.drop 8).take 4)
  payloadLen := ofBigEndian ((bytes.drop 12).take 4)

/-- The header that `send_message` puts before a message. -/
def frameHeader (jsonLen payloadLen : Nat) : Header := ⟨MAGIC, VERSION, 0, jsonLen, payloadLen⟩

theorem length_pack_frameHeader (jsonLen payloadLen : Nat) :
    (frameHeader jsonLen payloadLen).pack.length = HEADER_SIZE := by
  simp [Header.pack, frameHeader, MAGIC, HEADER_SIZE]

theorem unpack_pack_frameHeader {jsonLen payloadLen : Nat} (hjson : jsonLen < 2 ^ 32)
    (hpayload : payloadLen < 2 ^ 32) :
    Header.unpack (frameHeader jsonLen payloadLen).pack = frameHeader jsonLen payloadLen := by
  have hversion : ofBigEndian (bigEndian 2 VERSION) = VERSION := ofBigEndian_two (by decide)
  have hflags : ofBigEndian (bigEndian 2 0) = 0 := ofBigEndian_two (by decide)
  have hfields : Header.unpack (frameHeader jsonLen payloadLen).pack =
      ⟨MAGIC, ofBigEndian (bigEndian 2 VERSION), ofBigEndian (bigEndian 2 0),
        ofBigEndian (bigEndian 4 jsonLen), ofBigEndian (bigEndian 4 payloadLen)⟩ := rfl
  rw [hfields, hversion, hflags, ofBigEndian_four hjson, ofBigEndian_four hpayload]
  rfl

/-! ## Messages -/

/-- The exceptions that can leave `recv_message`. -/
inductive Exc where
  | eofError
  | protocolError (message : String)
  | unicodeDecodeError
  | loadsError (name : String)

abbrev Message := Dict × List Byte

section

variable (json : JsonText)

/-- The bytes that `send_message` writes. -/
def sendMessage (m : Message) : Except String (List Byte) :=
  let metadata := encodeUtf8 (json.dumps (.obj m.1))
  if metadata.length < 2 ^ 32 ∧ m.2.length < 2 ^ 32 then
    .ok ((frameHeader metadata.length m.2.length).pack ++ metadata ++ m.2)
  else .error "struct.error"

/-- The exception of `read_exact` at the end of the stream. -/
def onEof (empty : Bool) : Exc := if empty then .eofError
    else .protocolError "unexpected EOF while reading frame"

/-- The checks of `recv_message` on the header. -/
def checkHeader (h : Header) : Except Exc Unit :=
  if h.magic ≠ MAGIC then .error (.protocolError "bad frame magic")
  else if h.version ≠ VERSION then
    .error (.protocolError s!"unsupported protocol version {h.version}")
  else if MAX_JSON_BYTES < h.jsonLen then
    .error (.protocolError s!"metadata too large: {h.jsonLen} bytes")
  else .ok ()

/-- The metadata of a frame. -/
def parseMetadata (raw : List Byte) : Except Exc Dict :=
  match decodeUtf8 raw with
  | none => .error .unicodeDecodeError
  | some text =>
    match json.loads text with
    | .error (.decode message) => .error (.protocolError s!"invalid metadata JSON: {message}")
    | .error (.other name) => .error (.loadsError name)
    | .ok (.obj fields) => .ok fields
    | .ok _ => .error (.protocolError "metadata JSON must be an object")

def ofExcept {ε α : Type} : Except ε α → ByteReader ε α
  | .ok a => .done a
  | .error e => .fail e

/-- The payload is read only if there is one. -/
def readPayload (payloadLen : Nat) : ByteReader Exc (List Byte) :=
  if payloadLen ≠ 0 then exact payloadLen else .done []

/-- `recv_message`. -/
def recvMessage : ByteReader Exc Message := do
  let header ← exact HEADER_SIZE
  let h := Header.unpack header
  ofExcept (checkHeader h)
  let metadata ← exact h.jsonLen
  let fields ← ofExcept (parseMetadata json metadata)
  let payload ← readPayload h.payloadLen
  pure (fields, payload)

/-- Repeated `recv_message`. -/
def recvMessages : Nat → Sock → Except Exc (List Message) × Sock
  | 0, sock => (.ok [], sock)
  | n + 1, sock =>
    match (recvMessage json).run onEof sock with
    | (.error e, sock') => (.error e, sock')
    | (.ok m, sock') =>
      match recvMessages n sock' with
      | (.error e, sock'') => (.error e, sock'')
      | (.ok ms, sock'') => (.ok (m :: ms), sock'')

end

/-! ## Round trip -/

section

variable {json : JsonText}

/-- The messages that frames can carry. -/
structure Sendable (json : JsonText) (m : Message) : Prop where
  metadata : (encodeUtf8 (json.dumps (.obj m.1))).length ≤ MAX_JSON_BYTES
  payload : m.2.length < 2 ^ 32
  loads : json.loads (json.dumps (.obj m.1)) = .ok (.obj m.1)

theorem sendMessage_ok {m : Message} (h : Sendable json m) :
    sendMessage json m =
      .ok ((frameHeader (encodeUtf8 (json.dumps (.obj m.1))).length m.2.length).pack ++
        encodeUtf8 (json.dumps (.obj m.1)) ++ m.2) := by
  have hle : (encodeUtf8 (json.dumps (.obj m.1))).length < 2 ^ 32 :=
    Nat.lt_of_le_of_lt h.metadata (by decide)
  exact if_pos ⟨hle, h.payload⟩

/-- A frame at the front of a stream is received as it was sent. -/
theorem recvMessage_frame {m : Message} (h : Sendable json m) {bytes : List Byte}
    (hsent : sendMessage json m = .ok bytes)
    (rest : List Byte) : (recvMessage json).runBytes onEof (bytes ++ rest) = (.ok m, rest) := by
  rw [sendMessage_ok h] at hsent
  obtain rfl := Except.ok.inj hsent
  generalize hraw : encodeUtf8 (json.dumps (.obj m.1)) = raw
  have hlen : raw.length < 2 ^ 32 := Nat.lt_of_le_of_lt (hraw ▸ h.metadata) (by decide)
  have hcheck : checkHeader (frameHeader raw.length m.2.length) = .ok () := by
    have hmax : ¬MAX_JSON_BYTES < raw.length := Nat.not_lt.mpr (hraw ▸ h.metadata)
    simp [checkHeader, frameHeader, hmax]
  have hparse : parseMetadata json raw = .ok m.1 := by
    rw [parseMetadata, ← hraw, decodeUtf8_encodeUtf8]
    simp only [h.loads]
  have hheader := ByteReader.runBytes_exact_append onEof (frameHeader raw.length m.2.length).pack
    (raw ++ (m.2 ++ rest))
  have hmetadata := ByteReader.runBytes_exact_append onEof raw (m.2 ++ rest)
  have hpayload := ByteReader.runBytes_exact_append onEof m.2 rest
  have hlast : (readPayload m.2.length).runBytes onEof (m.2 ++ rest) = (.ok m.2, rest) := by
    rw [readPayload]
    split
    · exact hpayload
    · next hempty =>
      rw [List.length_eq_zero_iff.mp (not_not.mp hempty)]
      rfl
  rw [length_pack_frameHeader] at hheader
  rw [recvMessage, List.append_assoc, List.append_assoc, ByteReader.runBytes_bind, hheader]
  simp only [unpack_pack_frameHeader hlen h.payload, hcheck, ofExcept]
  simp only [ByteReader.runBytes_bind, ByteReader.runBytes, frameHeader, hmetadata, hparse, hlast,
    ByteReader.runBytes_pure]

theorem exists_frames {ms : List Message} (h : ∀ m ∈ ms, Sendable json m) :
    ∃ frames, ms.mapM (sendMessage json) = .ok frames := by
  induction ms with
  | nil => exact ⟨[], rfl⟩
  | cons m ms ih =>
    obtain ⟨frames, hframes⟩ := ih fun m' hm' => h m' (List.mem_cons_of_mem m hm')
    rw [List.mapM_cons, sendMessage_ok (h m (List.mem_cons_self ..)), hframes]
    exact ⟨_, rfl⟩

/-- Frames that were sent one after the other are received in order, whatever the chunks. -/
theorem recvMessages_frames {ms : List Message} (h : ∀ m ∈ ms, Sendable json m)
    {frames : List (List Byte)}
    (hsent : ms.mapM (sendMessage json) = .ok frames) (sock : Sock) (rest : List Byte)
    (hsock : sock.rest = frames.flatten ++ rest) :
    (recvMessages json ms.length sock).1 = .ok ms ∧
      (recvMessages json ms.length sock).2.rest = rest := by
  induction ms generalizing frames sock with
  | nil =>
    obtain rfl : frames = [] := (Except.ok.inj hsent).symm
    exact ⟨rfl, hsock⟩
  | cons m ms ih =>
    obtain ⟨frame, hframe⟩ : ∃ frame, sendMessage json m = .ok frame :=
      ⟨_, sendMessage_ok (h m (List.mem_cons_self ..))⟩
    obtain ⟨frames', hframes⟩ := exists_frames fun m' hm' => h m' (List.mem_cons_of_mem m hm')
    have hall : frames = frame :: frames' := by
      rw [List.mapM_cons, hframe, hframes] at hsent
      exact (Except.ok.inj hsent).symm
    rw [hall, List.flatten_cons, List.append_assoc] at hsock
    have hrun := ByteReader.run_eq onEof (recvMessage json) sock
    rw [hsock, recvMessage_frame (h m (List.mem_cons_self ..)) hframe, Prod.mk.injEq] at hrun
    obtain ⟨hok, hrest⟩ := ih (fun m' hm' => h m' (List.mem_cons_of_mem m hm')) hframes _ hrun.2
    rw [List.length_cons, recvMessages, ← Prod.eta ((recvMessage json).run onEof sock), hrun.1]
    simp only
    rw [← Prod.eta (recvMessages json ms.length _), hok]
    exact ⟨rfl, hrest⟩

end

/-- Any sequence of messages that frames can carry is received as it was sent, in whatever
    chunks the socket delivers the stream, and then the stream ends at a frame boundary. -/
theorem framing_round_trip (json : JsonText) (ms : List Message) (h : ∀ m ∈ ms, Sendable json m) :
    ∃ frames, ms.mapM (sendMessage json) = .ok frames ∧
      ∀ pick : Nat → Nat, ∃ sock, recvMessages json ms.length ⟨frames.flatten, pick⟩ =
        (.ok ms, sock) ∧
        ((recvMessage json).run onEof sock).1 = .error .eofError := by
  obtain ⟨frames, hframes⟩ := exists_frames h
  refine ⟨frames, hframes, fun pick =>
    ⟨(recvMessages json ms.length ⟨frames.flatten, pick⟩).2, ?_, ?_⟩⟩
  · obtain ⟨hok, -⟩ :=
      recvMessages_frames h hframes ⟨frames.flatten, pick⟩ [] (List.append_nil _).symm
    rw [← hok]
  · obtain ⟨-, hrest⟩ :=
      recvMessages_frames h hframes ⟨frames.flatten, pick⟩ [] (List.append_nil _).symm
    have hrun := ByteReader.run_eq onEof (recvMessage json)
      (recvMessages json ms.length ⟨frames.flatten, pick⟩).2
    rw [hrest] at hrun
    exact congrArg Prod.fst hrun

/-- The JSON module on the empty object. -/
def emptyJson : JsonText where
  dumps _ := "\x7b\x7d"
  loads text := if text = "\x7b\x7d" then .ok (.obj fun _ => none)
    else .error (.decode "Expecting value")

theorem emptyJson_sendable {payload : List Byte} (h : payload.length < 2 ^ 32) :
    Sendable emptyJson ((fun _ => none), payload) where
  metadata := show (encodeUtf8 "\x7b\x7d").length ≤ MAX_JSON_BYTES by decide
  payload := h
  loads := rfl

theorem framing_round_trip_two :
    ∃ frames, [((fun _ => none), [7#8]), ((fun _ => none), [])].mapM
      (sendMessage emptyJson) = .ok frames ∧
      ∀ pick : Nat → Nat, ∃ sock, recvMessages emptyJson 2 ⟨frames.flatten, pick⟩ =
          (.ok [((fun _ => none), [7#8]), ((fun _ => none), [])], sock) ∧
        ((recvMessage emptyJson).run onEof sock).1 = .error .eofError := by
  refine framing_round_trip emptyJson [((fun _ => none), [7#8]), ((fun _ => none), [])] fun m hm =>
    ?_
  rcases List.mem_cons.mp hm with rfl | hm
  · exact emptyJson_sendable (by decide)
  · obtain rfl := List.mem_singleton.mp hm
    exact emptyJson_sendable (by decide)

end Wire
