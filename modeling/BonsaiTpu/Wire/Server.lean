-- SUMMARY: The request loop of the daemon on a byte stream, and exactly when malformed streams are handled (`board/daemon/server.py`).
import BonsaiTpu.Wire.Framing

/-!
# The request loop

`_Handler.handle` reads frames until the stream ends. A frame should end in one of
three ways: a message, the end of the stream at a frame boundary, or a protocol error.
`Clean` says when it does: the stream is not cut at a boundary inside the frame, and
nothing but `JSONDecodeError` comes out of decoding the metadata.
-/

namespace Wire

open Words (Byte)
open ByteReader (Sock)

variable (json : JsonText)

/-! ## `recv_message` on a stream -/

/-- The outcomes a stream may have: a message, a protocol error, or `EOFError` when not one
    byte of a frame is there. -/
def Proper {α : Type} (stream : List Byte) : Except Exc α → Prop
  | .ok _ => True
  | .error (.protocolError _) => True
  | .error .eofError => stream = []
  | .error .unicodeDecodeError => False
  | .error (.loadsError _) => False

/-- The header at the front of a stream. -/
def headerOf (stream : List Byte) : Header := Header.unpack (stream.take HEADER_SIZE)

/-- The metadata bytes of the frame at the front of a stream. -/
def metadataOf (stream : List Byte) : List Byte :=
  (stream.drop HEADER_SIZE).take (headerOf stream).jsonLen

/-- A stream with an accepted header. -/
def Headed (stream : List Byte) : Prop :=
  HEADER_SIZE ≤ stream.length ∧ checkHeader (headerOf stream) = .ok ()

/-- A stream that does not end right behind an accepted header, and if it has the metadata,
    these decode as text that `json.loads` accepts or rejects with `JSONDecodeError`, and
    a payload that is announced has a first byte. -/
structure Clean (stream : List Byte) : Prop where
  metadata : Headed stream → 0 < (headerOf stream).jsonLen → HEADER_SIZE < stream.length
  text : Headed stream → HEADER_SIZE + (headerOf stream).jsonLen ≤ stream.length →
    (decodeUtf8 (metadataOf stream)).isSome
  loads : Headed stream → HEADER_SIZE + (headerOf stream).jsonLen ≤ stream.length →
    ∀ text, decodeUtf8 (metadataOf stream) = some text → ∀ name,
    json.loads text ≠ .error (.other name)
  payload : Headed stream → ∀ fields, parseMetadata json (metadataOf stream) = .ok fields →
    0 < (headerOf stream).payloadLen → stream.length ≠ HEADER_SIZE + (headerOf stream).jsonLen

theorem runBytes_readPayload (n : Nat) (rest : List Byte) :
    (readPayload n).runBytes onEof rest =
      if n ≤ rest.length then (.ok (rest.take n), rest.drop n)
      else (.error (onEof rest.isEmpty), []) := by
  rw [readPayload]
  split
  · exact ByteReader.runBytes_exact onEof n rest
  · next hzero =>
    obtain rfl : n = 0 := not_not.mp hzero
    rfl

theorem isEmpty_drop (stream : List Byte) {n : Nat} (h : n ≤ stream.length) :
    (stream.drop n).isEmpty = decide (stream.length = n) := by
  rw [Bool.eq_iff_iff, List.isEmpty_iff_length_eq_zero, List.length_drop, decide_eq_true_iff]
  omega

/-- `recv_message` on a whole stream, field by field. -/
theorem runBytes_recvMessage (stream : List Byte) :
    (recvMessage json).runBytes onEof stream =
      if HEADER_SIZE ≤ stream.length then
        match checkHeader (headerOf stream) with
        | .error e => (.error e, stream.drop HEADER_SIZE)
        | .ok _ =>
          if HEADER_SIZE + (headerOf stream).jsonLen ≤ stream.length then
            match parseMetadata json (metadataOf stream) with
            | .error e => (.error e, stream.drop (HEADER_SIZE + (headerOf stream).jsonLen))
            | .ok fields =>
              if HEADER_SIZE + (headerOf stream).jsonLen + (headerOf stream).payloadLen ≤
                stream.length then
                (.ok (fields, (stream.drop (HEADER_SIZE + (headerOf stream).jsonLen)).take
                  (headerOf stream).payloadLen),
                  stream.drop (HEADER_SIZE + (headerOf stream).jsonLen +
                    (headerOf stream).payloadLen))
              else (.error
                (onEof (decide (stream.length = HEADER_SIZE + (headerOf stream).jsonLen))), [])
          else (.error (onEof (decide (stream.length = HEADER_SIZE))), [])
      else (.error (onEof stream.isEmpty), []) := by
  rw [recvMessage, ByteReader.runBytes_bind, ByteReader.runBytes_exact]
  by_cases hheader : HEADER_SIZE ≤ stream.length
  · have hdrop : (stream.drop HEADER_SIZE).length = stream.length - HEADER_SIZE := List.length_drop
    rw [if_pos hheader, if_pos hheader]
    simp only
    rw [← headerOf, ByteReader.runBytes_bind]
    cases hcheck : checkHeader (headerOf stream) with
    | error e => rfl
    | ok u =>
      simp only [ofExcept, ByteReader.runBytes]
      rw [ByteReader.runBytes_bind, ByteReader.runBytes_exact]
      by_cases hmetadata : HEADER_SIZE + (headerOf stream).jsonLen ≤ stream.length
      · rw [if_pos hmetadata, if_pos (by omega)]
        simp only
        rw [← metadataOf, ByteReader.runBytes_bind, List.drop_drop]
        cases hparse : parseMetadata json (metadataOf stream) with
        | error e => rfl
        | ok fields =>
          simp only [ByteReader.runBytes, ByteReader.runBytes_bind]
          rw [runBytes_readPayload, List.length_drop, List.drop_drop]
          by_cases hpayload : HEADER_SIZE + (headerOf stream).jsonLen +
            (headerOf stream).payloadLen ≤ stream.length
          · rw [if_pos hpayload, if_pos (by omega)]
            rfl
          · rw [if_neg hpayload, if_neg (by omega)]
            rw [isEmpty_drop stream hmetadata]
      · rw [if_neg hmetadata, if_neg (by omega), isEmpty_drop stream hheader]
  · rw [if_neg hheader, if_neg hheader]

/-- What `read_exact` raises is proper exactly if the frame has no byte yet or this read got one. -/
theorem proper_onEof {α : Type} (stream : List Byte) (empty : Bool) :
    Proper (α := α) stream (.error (onEof empty)) ↔ (empty = true → stream = []) := by
  cases empty with
  | true => simp [onEof, Proper]
  | false => simp [onEof, Proper]

/-- The header checks raise protocol errors only. -/
theorem proper_checkHeader {α : Type} (stream : List Byte) {h : Header} {e : Exc}
    (hcheck : checkHeader h = .error e) :
    Proper (α := α) stream (.error e) := by
  simp only [checkHeader] at hcheck
  split at hcheck
  · cases hcheck; trivial
  · split at hcheck
    · cases hcheck; trivial
    · split at hcheck
      · cases hcheck; trivial
      · cases hcheck

/-- Decoding the metadata raises a protocol error, unless the bytes are no text or
    `json.loads` raises something else. -/
theorem proper_parseMetadata {α : Type} {stream raw : List Byte} {e : Exc}
    (hparse : parseMetadata json raw = .error e) :
    Proper (α := α) stream (.error e) ↔
      (decodeUtf8 raw).isSome ∧ ∀ text, decodeUtf8 raw = some text → ∀ name,
        json.loads text ≠ .error (.other name) := by
  rw [parseMetadata] at hparse
  cases hdecode : decodeUtf8 raw with
  | none =>
    rw [hdecode] at hparse
    cases hparse
    simp [Proper]
  | some text =>
    rw [hdecode] at hparse
    simp only at hparse
    cases hloads : json.loads text with
    | error err =>
      rw [hloads] at hparse
      cases err with
      | decode message =>
        cases hparse
        simp [Proper, hloads]
      | other name =>
        cases hparse
        simp [Proper, hloads]
    | ok value =>
      rw [hloads] at hparse
      cases value with
      | obj fields => cases hparse
      | _ =>
        cases hparse
        simp [Proper, hloads]

theorem parseMetadata_ok {raw : List Byte} {fields : Dict}
    (hparse : parseMetadata json raw = .ok fields) :
    (decodeUtf8 raw).isSome ∧ ∀ text, decodeUtf8 raw = some text → ∀ name,
      json.loads text ≠ .error (.other name) := by
  rw [parseMetadata] at hparse
  cases hdecode : decodeUtf8 raw with
  | none =>
    rw [hdecode] at hparse
    cases hparse
  | some text =>
    refine ⟨rfl, ?_⟩
    rintro _ ⟨⟩ name hloads
    rw [hdecode] at hparse
    simp only [hloads] at hparse
    cases hparse

/-- `recv_message` ends properly exactly on clean streams. -/
theorem proper_iff_clean (stream : List Byte) :
    Proper stream ((recvMessage json).runBytes onEof stream).1 ↔ Clean json stream := by
  have hsize : HEADER_SIZE = 16 := rfl
  rw [runBytes_recvMessage]
  -- along the stream: the header, the metadata, the payload; where it stops, only one part is cut
  by_cases hheader : HEADER_SIZE ≤ stream.length
  swap
  · rw [if_neg hheader, proper_onEof]
    have hnot : ¬Headed stream := fun h => hheader h.1
    exact iff_of_true List.isEmpty_iff.mp
      ⟨fun h => absurd h hnot, fun h => absurd h hnot, fun h => absurd h hnot,
        fun h => absurd h hnot⟩
  rw [if_pos hheader]
  cases hcheck : checkHeader (headerOf stream) with
  | error e =>
    have hnot : ¬Headed stream := fun h => by rw [h.2] at hcheck; cases hcheck
    exact iff_of_true (proper_checkHeader stream hcheck)
      ⟨fun h => absurd h hnot, fun h => absurd h hnot, fun h => absurd h hnot,
        fun h => absurd h hnot⟩
  | ok u =>
    have hheaded : Headed stream := ⟨hheader, hcheck⟩
    have hne : stream ≠ [] := by
      rintro rfl
      simp only [List.length_nil] at hheader
      omega
    simp only
    by_cases hmetadata : HEADER_SIZE + (headerOf stream).jsonLen ≤ stream.length
    swap
    · rw [if_neg hmetadata, proper_onEof, decide_eq_true_iff]
      constructor
      · intro hcut
        refine ⟨fun _ _ => ?_, fun _ h => absurd h hmetadata, fun _ h => absurd h hmetadata,
          fun _ _ _ _ => by omega⟩
        exact Nat.lt_of_le_of_ne hheader fun heq => hne (hcut heq.symm)
      · intro hclean heq
        exact absurd (hclean.metadata hheaded (by omega)) (by omega)
    rw [if_pos hmetadata]
    cases hparse : parseMetadata json (metadataOf stream) with
    | error e =>
      simp only
      rw [proper_parseMetadata json hparse]
      constructor
      · rintro ⟨htext, hloads⟩
        refine ⟨fun _ hpos => by omega, fun _ _ => htext, fun _ _ => hloads, fun _ fields hok => ?_⟩
        rw [hparse] at hok
        cases hok
      · exact fun hclean => ⟨hclean.text hheaded hmetadata, hclean.loads hheaded hmetadata⟩
    | ok fields =>
      obtain ⟨htext, hloads⟩ := parseMetadata_ok json hparse
      simp only
      by_cases hpayload : HEADER_SIZE + (headerOf stream).jsonLen +
        (headerOf stream).payloadLen ≤ stream.length
      · rw [if_pos hpayload]
        exact iff_of_true trivial ⟨fun _ hpos => by omega, fun _ _ => htext, fun _ _ => hloads,
          fun _ _ _ hpos => by omega⟩
      · rw [if_neg hpayload, proper_onEof, decide_eq_true_iff]
        constructor
        · intro hcut
          exact ⟨fun _ hpos => by omega, fun _ _ => htext, fun _ _ => hloads,
            fun _ _ _ _ heq => hne (hcut heq)⟩
        · intro hclean heq
          exact absurd heq (hclean.payload hheaded fields hparse (by omega))

/-! ## The loop -/

/-- A complete frame is at the front of a stream. -/
def Complete (stream : List Byte) : Prop :=
  Headed stream ∧ HEADER_SIZE + (headerOf stream).jsonLen +
    (headerOf stream).payloadLen ≤ stream.length ∧
    ∃ fields, parseMetadata json (metadataOf stream) = .ok fields

/-- The stream behind its first frame. -/
def afterFrame (stream : List Byte) : List Byte :=
  stream.drop (HEADER_SIZE + (headerOf stream).jsonLen + (headerOf stream).payloadLen)

theorem runBytes_ok_iff (stream rest : List Byte) :
    (∃ m, (recvMessage json).runBytes onEof stream = (.ok m, rest)) ↔
      Complete json stream ∧ rest = afterFrame stream := by
  rw [runBytes_recvMessage]
  constructor
  · rintro ⟨m, hm⟩
    by_cases hheader : HEADER_SIZE ≤ stream.length
    swap
    · rw [if_neg hheader] at hm
      cases hm
    rw [if_pos hheader] at hm
    cases hcheck : checkHeader (headerOf stream) with
    | error e =>
      rw [hcheck] at hm
      cases hm
    | ok u =>
      rw [hcheck] at hm
      simp only at hm
      by_cases hmetadata : HEADER_SIZE + (headerOf stream).jsonLen ≤ stream.length
      swap
      · rw [if_neg hmetadata] at hm
        cases hm
      rw [if_pos hmetadata] at hm
      cases hparse : parseMetadata json (metadataOf stream) with
      | error e =>
        rw [hparse] at hm
        cases hm
      | ok fields =>
        rw [hparse] at hm
        simp only at hm
        split at hm
        · next hpayload =>
          cases hm
          exact ⟨⟨⟨hheader, hcheck⟩, hpayload, fields, hparse⟩, rfl⟩
        · cases hm
  · rintro ⟨⟨⟨hheader, hcheck⟩, hpayload, fields, hparse⟩, rfl⟩
    have hmetadata : HEADER_SIZE + (headerOf stream).jsonLen ≤ stream.length := by omega
    rw [if_pos hheader, hcheck]
    simp only
    rw [if_pos hmetadata, hparse]
    simp only
    rw [if_pos hpayload]
    exact ⟨_, rfl⟩

theorem length_afterFrame {stream : List Byte} (h : Complete json stream) :
    (afterFrame stream).length < stream.length := by
  have hsize : HEADER_SIZE = 16 := rfl
  have hle := h.1.1
  rw [afterFrame, List.length_drop]
  omega

/-- A message takes bytes from the socket. -/
theorem run_recvMessage_lt {sock sock' : Sock} {m : Message}
    (h : (recvMessage json).run onEof sock = (.ok m, sock')) :
    sock'.rest.length < sock.rest.length := by
  have hrun := ByteReader.run_eq onEof (recvMessage json) sock
  rw [h] at hrun
  obtain ⟨hcomplete, hrest⟩ := (runBytes_ok_iff json sock.rest sock'.rest).mp ⟨m, hrun.symm⟩
  rw [hrest]
  exact length_afterFrame json hcomplete

/-- How `handle` ends: silently, with a `protocol_error` answer, or with an exception. -/
inductive Ending where
  | returned
  | answered (message : String)
  | escaped (e : Exc)

/-- `_Handler.handle`: the messages that are dispatched, and the ending. Whatever a dispatch
    raises is answered, so it does not end the loop. -/
def handle (sock : Sock) : List Message × Ending :=
  match _hrun : (recvMessage json).run onEof sock with
  | (.ok m, sock') => (m :: (handle sock').1, (handle sock').2)
  | (.error .eofError, _) => ([], .returned)
  | (.error (.protocolError message), _) => ([], .answered message)
  | (.error e, _) => ([], .escaped e)
termination_by sock.rest.length
decreasing_by all_goals exact run_recvMessage_lt json _hrun

/-- `handle` ends at a frame boundary or with a `protocol_error` answer. -/
def EndsProperly (sock : Sock) (result : List Message × Ending) : Prop :=
  match result.2 with
  | .returned => (recvMessages json result.1.length sock).2.rest = []
  | .answered _ => True
  | .escaped _ => False

/-- Every frame of the stream that is reached is clean. -/
inductive CleanStream : List Byte → Prop
  | mk {stream : List Byte} (clean : Clean json stream)
      (next : Complete json stream → CleanStream (afterFrame stream)) : CleanStream stream

theorem cleanStream_of_complete {stream : List Byte} (h : Complete json stream) :
    CleanStream json stream ↔ CleanStream json (afterFrame stream) := by
  have hclean : Clean json stream := by
    obtain ⟨m, hm⟩ := (runBytes_ok_iff json stream (afterFrame stream)).mpr ⟨h, rfl⟩
    rw [← proper_iff_clean, hm]
    trivial
  constructor
  · rintro ⟨-, hnext⟩
    exact hnext h
  · exact fun hnext => .mk hclean fun _ => hnext

theorem cleanStream_of_not_complete {stream : List Byte} (h : ¬Complete json stream) :
    CleanStream json stream ↔ Clean json stream := by
  constructor
  · rintro ⟨hclean, -⟩
    exact hclean
  · exact fun hclean => .mk hclean fun hcomplete => absurd hcomplete h

/-- Without a message the loop ends, properly exactly if the frame is clean. -/
theorem cleanStream_iff_proper {sock sock' : Sock} {e : Exc}
    (h : (recvMessage json).run onEof sock = (.error e, sock')) :
    CleanStream json sock.rest ↔ Proper (α := Message) sock.rest (.error e) := by
  have hrun := ByteReader.run_eq onEof (recvMessage json) sock
  rw [h] at hrun
  have hnot : ¬Complete json sock.rest := by
    intro hcomplete
    obtain ⟨m, hm⟩ := (runBytes_ok_iff json sock.rest (afterFrame sock.rest)).mpr ⟨hcomplete, rfl⟩
    rw [hm] at hrun
    cases (Prod.mk.inj hrun).1
  rw [cleanStream_of_not_complete json hnot, ← proper_iff_clean, ← hrun]

/-- The request loop ends properly exactly on streams of clean frames. -/
theorem endsProperly_iff (sock : Sock) :
    EndsProperly json sock (handle json sock) ↔ CleanStream json sock.rest := by
  fun_induction handle json sock with
  | case1 sock m sock' hrun ih =>
    have hbytes := ByteReader.run_eq onEof (recvMessage json) sock
    rw [hrun] at hbytes
    obtain ⟨hcomplete, hrest⟩ := (runBytes_ok_iff json sock.rest sock'.rest).mp ⟨m, hbytes.symm⟩
    rw [cleanStream_of_complete json hcomplete, ← hrest, ← ih]
    have hlast : (recvMessages json ((handle json sock').1.length + 1) sock).2.rest =
        (recvMessages json (handle json sock').1.length sock').2.rest := by
      rw [recvMessages, hrun]
      simp only
      cases recvMessages json (handle json sock').1.length sock' with
      | mk result sock'' => cases result <;> rfl
    simp only [EndsProperly, List.length_cons, hlast]
  | case2 sock sock' hrun => exact (cleanStream_iff_proper json hrun).symm
  | case3 sock message sock' hrun => exact (cleanStream_iff_proper json hrun).symm
  | case4 sock e sock' heof hprotocol hrun =>
    rw [cleanStream_iff_proper json hrun]
    cases e with
    | eofError => exact absurd rfl (heof)
    | protocolError message => exact absurd rfl (hprotocol message)
    | unicodeDecodeError => exact Iff.rfl
    | loadsError name => exact Iff.rfl

/-- Exactly the clean streams are handled as they should be, in whatever chunks they come:
    `recv_message` returns a message, raises `ProtocolError`, or raises `EOFError` with no
    byte of a frame read; and the request loop, on streams whose frames are all clean,
    returns silently at a frame boundary or answers with a `protocol_error`. -/
theorem malformed_streams (json : JsonText) (stream : List Byte) (pick : Nat → Nat) :
    (Proper stream ((recvMessage json).run onEof ⟨stream, pick⟩).1 ↔ Clean json stream) ∧
      (EndsProperly json ⟨stream, pick⟩ (handle json ⟨stream, pick⟩) ↔
        CleanStream json stream) := by
  refine ⟨?_, endsProperly_iff json ⟨stream, pick⟩⟩
  have hrun := ByteReader.run_eq onEof (recvMessage json) ⟨stream, pick⟩
  rw [← proper_iff_clean, ← hrun]

/-- A header that announces two bytes of metadata, and then the end of the stream. -/
def cutFrame : List Byte := (frameHeader 2 0).pack

/-- A frame cut behind its header is reported as the end of the stream, and the request loop
    returns silently in the middle of a frame. -/
theorem cut_frame_returns :
    ((recvMessage emptyJson).run onEof ⟨cutFrame, fun _ => 0⟩).1 = .error .eofError ∧
      ¬Proper cutFrame ((recvMessage emptyJson).run onEof ⟨cutFrame, fun _ => 0⟩).1 ∧
      ¬EndsProperly emptyJson ⟨cutFrame, fun _ => 0⟩ (handle emptyJson ⟨cutFrame, fun _ => 0⟩) := by
  have hbytes : ((recvMessage emptyJson).runBytes onEof cutFrame).1 = .error .eofError := by
    rw [runBytes_recvMessage]
    rfl
  have hrun :=
    congrArg Prod.fst (ByteReader.run_eq onEof (recvMessage emptyJson) ⟨cutFrame, fun _ => 0⟩)
  have heof : ((recvMessage emptyJson).run onEof ⟨cutFrame, fun _ => 0⟩).1 = .error .eofError :=
    hrun.trans hbytes
  have hne : cutFrame ≠ [] := by decide
  refine ⟨heof, heof ▸ hne, ?_⟩
  rw [endsProperly_iff]
  rintro ⟨hclean, -⟩
  rw [← proper_iff_clean, hbytes] at hclean
  exact hne hclean

end Wire
