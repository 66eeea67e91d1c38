-- SUMMARY: Clients and the daemon: calls over connections that may fail at any byte, and the steps of both sides.
import Mathlib.Logic.Function.Basic
import Mathlib.Logic.Relation
import BonsaiTpu.Wire.Client

/-!
# Calls over connections

Any number of `RpcClient`s and one `BonsaiRpcServer`. A connection carries two byte
streams; whoever reads gets a nonempty piece of what is there, or fails. The daemon has
one handler per connection, and the handlers share the runtime and its lock
(`board/daemon/server.py`, `board/daemon/runtime.py`). A call of a client counts from
where it holds `mu_`. The history records the calls, the executions and how calls end;
it is only written.
-/

namespace Wire

open Words (Byte)

/-! ## Executions -/

/-- A computation on a shared state, one action after the other. -/
inductive Body (σ ρ : Type) where
  | ret (r : ρ)
  | act (update : σ → σ) (next : σ → Body σ ρ)

/-- Run a computation without interruption. -/
def Body.run {σ ρ : Type} : Body σ ρ → σ → ρ × σ
  | .ret r, s => (r, s)
  | .act update next, s => (next s).run (update s)

/-- What `dispatch` raises, by the clause of `handle` that catches it. -/
inductive DispatchExc where
  | allocatorError (code message : String)
  | typeOrValueError (message : String)
  | exception (message : String)

abbrev Outcome := Except DispatchExc (Dict × List Byte)

/-- `metadata.get("id")`. -/
def requestId (metadata : Dict) : Json := (metadata "id").getD .null

/-- `dispatch` finds no op: `str(metadata.get("op", ""))` is empty. -/
def missingOp (metadata : Dict) : Bool :=
  match metadata "op" with
  | none => true
  | some (.str op) => op.isEmpty
  | some _ => false

/-- The answer of `handle` to what `dispatch` raises. -/
def DispatchExc.reply (id : Json) : DispatchExc → Dict
  | .allocatorError code message => errorReply id code message
  | .typeOrValueError message => errorReply id "invalid_request" message
  | .exception message => errorReply id "internal_error" message

/-- The answer of `handle` to a message. -/
def response (m : Message) : Outcome → Message
  | .ok (result, payload) => (okReply (requestId m.1) result, payload)
  | .error e => (e.reply (requestId m.1), [])

/-! ## States -/

/-- A client, from the outside in: the call is the place of its `called` in the history. -/
inductive Phase where
  | idle
  | started (call : Nat) (req : Request)
  | framing (call : Nat) (req : Request) (fields : Dict) (id : Nat)
  | sending (call id : Nat) (rest : List Byte)
  | receiving (call id : Nat) (r : ByteReader String (Dict × List Byte)) (got : List Byte)

structure Client where
  fd : Option Nat := none
  nextId : Nat := 1
  phase : Phase := .idle

/-- A handler thread. While `sending` it knows which frame of the connection it answers, and
    if it reads on afterwards. -/
inductive Handler (σ : Type) where
  | reading (r : ByteReader Exc Message) (got : List Byte)
  | dispatching (m : Message)
  | executing (m : Message) (rest : Body σ Outcome)
  | sending (frame : Nat) (rest : List Byte) (again : Bool)
  | ended

/-- A connection: the bytes under way, those to the client with the number of the frame they
    answer; the number of frames the client began and of messages the handler received. -/
structure Conn (σ : Type) where
  toServer : List Byte
  toClient : List (Nat × Byte)
  clientClosed : Bool
  begun : Nat
  served : Nat
  handler : Handler σ

inductive Event where
  | called (client : Nat) (req : Request)
  | began (client call conn frame id : Nat)
  | executed (conn frame : Nat) (m : Message) (outcome : Outcome)
  | returned (client call : Nat) (r : RpcResponse)
  | threw (client call : Nat) (e : Thrown)

structure System (σ : Type) where
  clients : Nat → Client
  conns : Nat → Conn σ
  fresh : Nat
  lock : Option Nat
  runtime : σ
  history : List Event

section

variable {σ : Type} (json : JsonText) (cpp : CppJson) (body : Message → Body σ Outcome)

/-- A connection that was just accepted. -/
def Conn.new : Conn σ := ⟨[], [], false, 0, 0, .reading (recvMessage json) []⟩

/-- No client has connected. -/
def System.init (runtime : σ) : System σ :=
  ⟨fun _ => {}, fun _ => Conn.new json, 0, none, runtime, []⟩

def System.setClient (s : System σ) (i : Nat) (cl : Client) : System σ :=
  { s with clients := Function.update s.clients i cl }

def System.setConn (s : System σ) (c : Nat) (conn : Conn σ) : System σ :=
  { s with conns := Function.update s.conns c conn }

def System.log (s : System σ) (e : Event) : System σ := { s with history := s.history ++ [e] }

/-! ## Handlers -/

/-- `send_message`; what it raises before the first byte ends the handler. -/
def startReply (frame : Nat) (reply : Message) (again : Bool) : Handler σ :=
  match sendMessage json reply with
  | .ok bytes => .sending frame bytes again
  | .error _ => .ended

/-- The end of `recv_message` with an exception. -/
def afterExc (frame : Nat) : Exc → Handler σ
  | .protocolError message =>
    startReply json frame (errorReply .null "protocol_error" message, []) false
  | _ => .ended

/-- The end of `recv_message` with a message, up to the lock of `dispatch`. -/
def afterMessage (frame : Nat) (m : Message) : Handler σ :=
  if missingOp m.1 then
    startReply json frame (errorReply (requestId m.1) "invalid_request" "missing op", []) true
  else .dispatching m

/-- The steps of a handler on its connection. -/
inductive ConnStep : Conn σ → Conn σ → Prop
  | recv {conn : Conn σ} {n : Nat} {k : List Byte → ByteReader Exc Message}
      {got chunk rest : List Byte} :
      conn.handler = .reading (.read n k) got → conn.toServer = chunk ++ rest → chunk ≠ [] →
        (got ++ chunk).length ≤ n →
      ConnStep conn { conn with toServer := rest, handler := .reading (.read n k) (got ++ chunk) }
  | collect {conn : Conn σ} {n : Nat} {k : List Byte → ByteReader Exc Message} {got : List Byte} :
      conn.handler = .reading (.read n k) got → got.length = n →
      ConnStep conn { conn with handler := .reading (k got) [] }
  | eof {conn : Conn σ} {n : Nat} {k : List Byte → ByteReader Exc Message} {got : List Byte} :
      conn.handler = .reading (.read n k) got → got.length < n → conn.toServer = [] →
        conn.clientClosed = true →
      ConnStep conn { conn with handler := .reading (.fail (onEof got.isEmpty)) [] }
  | recvError {conn : Conn σ} {n : Nat} {k : List Byte → ByteReader Exc Message} {got : List Byte} :
      conn.handler = .reading (.read n k) got → got.length < n →
        ConnStep conn { conn with handler := .ended }
  | exc {conn : Conn σ} {e : Exc} {got : List Byte} :
      conn.handler = .reading (.fail e) got →
        ConnStep conn { conn with handler := afterExc json conn.served e }
  | message {conn : Conn σ} {m : Message} {got : List Byte} :
      conn.handler = .reading (.done m) got →
      ConnStep conn { conn with served := conn.served + 1,
                                handler := afterMessage json conn.served m }
  | send {conn : Conn σ} {frame : Nat} {chunk rest : List Byte} {again : Bool} :
      conn.handler = .sending frame (chunk ++ rest) again → chunk ≠ [] →
      ConnStep conn { conn with
        toClient := conn.toClient ++ chunk.map (Prod.mk frame)
        handler := .sending frame rest again }
  | sendError {conn : Conn σ} {frame : Nat} {rest : List Byte} {again : Bool} :
      conn.handler = .sending frame rest again → rest ≠ [] →
        ConnStep conn { conn with handler := .ended }
  | sent {conn : Conn σ} {frame : Nat} {again : Bool} :
      conn.handler = .sending frame [] again →
      ConnStep conn
        { conn with handler := if again then .reading (recvMessage json) [] else .ended }

/-! ## Clients -/

/-- The steps of a call on its connection: `send_all` and `recv_all`. -/
inductive LinkStep : Phase × Conn σ → Phase × Conn σ → Prop
  | send {conn : Conn σ} {call id : Nat} {chunk rest : List Byte} :
      chunk ≠ [] →
      LinkStep (.sending call id (chunk ++ rest), conn)
        (.sending call id rest, { conn with toServer := conn.toServer ++ chunk })
  | sent {conn : Conn σ} {call id : Nat} :
      LinkStep (.sending call id [], conn) (.receiving call id (recvResponse cpp id) [], conn)
  | recv {conn : Conn σ} {call id n : Nat} {k : List Byte → ByteReader String (Dict × List Byte)}
      {got : List Byte}
      {chunk rest : List (Nat × Byte)} :
      conn.toClient = chunk ++ rest → chunk ≠ [] → (got ++ chunk.map Prod.snd).length ≤ n →
      LinkStep (.receiving call id (.read n k) got, conn)
        (.receiving call id (.read n k) (got ++ chunk.map Prod.snd), { conn with toClient := rest })
  | collect {conn : Conn σ} {call id n : Nat} {k : List Byte → ByteReader String (Dict × List Byte)}
      {got : List Byte} :
      got.length = n →
      LinkStep (.receiving call id (.read n k) got, conn) (.receiving call id (k got) [], conn)

/-- Where a call can throw. `connect`, `send` and `recv` fail with any message. -/
inductive Throws (s : System σ) (i : Nat) : Nat → Thrown → Prop
  | connect {call : Nat} {req : Request} (message : String) :
      (s.clients i).phase = .started call req → (s.clients i).fd = none →
        Throws s i call (.rpcError message)
  | check {call c : Nat} {req : Request} {message : String} :
      (s.clients i).phase = .started call req → (s.clients i).fd = some c →
        req.check = .error message →
      Throws s i call (.rpcError message)
  | frame {call id : Nat} {req : Request} {fields : Dict} {e : Thrown} :
      (s.clients i).phase = .framing call req fields id →
        requestFrame cpp fields req id = .error e → Throws s i call e
  | send {call id : Nat} {rest : List Byte} (message : String) :
      (s.clients i).phase = .sending call id rest → rest ≠ [] → Throws s i call (.rpcError message)
  | recv {call id n : Nat} {k : List Byte → ByteReader String (Dict × List Byte)} {got : List Byte}
      (message : String) :
      (s.clients i).phase = .receiving call id (.read n k) got → got.length < n →
        Throws s i call (.rpcError message)
  | eof {call id n c : Nat} {k : List Byte → ByteReader String (Dict × List Byte)}
      {got : List Byte} :
      (s.clients i).phase = .receiving call id (.read n k) got → got.length < n →
        (s.clients i).fd = some c →
      (s.conns c).toClient = [] → (s.conns c).handler = .ended →
      Throws s i call (.rpcError (onClientEof got.isEmpty))
  | response {call id : Nat} {message : String} {got : List Byte} :
      (s.clients i).phase = .receiving call id (.fail message) got →
        Throws s i call (.rpcError message)
  | remote {call id : Nat} {answer : Dict} {payload got : List Byte} {e : Thrown} :
      (s.clients i).phase = .receiving call id (.done (answer, payload)) got →
        conclude answer payload = .error e →
      Throws s i call e

/-- `close_socket`. -/
def System.closeSocket (s : System σ) (i : Nat) : System σ :=
  match (s.clients i).fd with
  | none => s
  | some c =>
    (s.setConn c { s.conns c with clientClosed := true }).setClient i
      { s.clients i with fd := none }

/-- The end of `call` with an exception: only `RpcError` is caught, to close the socket. -/
def System.throw (s : System σ) (i call : Nat) : Thrown → System σ
  | .rpcError message =>
    let s' := s.closeSocket i
    (s'.setClient i { s'.clients i with phase := .idle }).log (.threw i call (.rpcError message))
  | .jsonError => (s.setClient i { s.clients i with phase := .idle }).log (.threw i call .jsonError)

/-! ## Steps -/

/-- One step of one client or one handler. -/
inductive Step : System σ → System σ → Prop
  | call {s : System σ} (i : Nat) (req : Request) :
      (s.clients i).phase = .idle →
      Step s ((s.setClient i { s.clients i with phase := .started s.history.length req }).log
        (.called i req))
  | connect {s : System σ} {i call : Nat} {req : Request} :
      (s.clients i).phase = .started call req → (s.clients i).fd = none →
      Step s { s.setClient i { s.clients i with fd := some s.fresh } with fresh := s.fresh + 1 }
  | number {s : System σ} {i call c : Nat} {req : Request} {fields : Dict} :
      (s.clients i).phase = .started call req → (s.clients i).fd = some c → req.check = .ok fields →
      Step s (s.setClient i { s.clients i with
        nextId := ((s.clients i).nextId + 1) % 2 ^ 64
        phase := .framing call req fields (s.clients i).nextId })
  | begin {s : System σ} {i call id c : Nat} {req : Request} {fields : Dict} {bytes : List Byte} :
      (s.clients i).phase = .framing call req fields id → (s.clients i).fd = some c →
      requestFrame cpp fields req id = .ok bytes →
      Step s (((s.setClient i { s.clients i with phase := .sending call id bytes }).setConn c
        { s.conns c with begun := (s.conns c).begun + 1 }).log (.began i call c
        (s.conns c).begun id))
  | transfer {s : System σ} {i c : Nat} {phase : Phase} {conn : Conn σ} :
      (s.clients i).fd = some c → LinkStep cpp ((s.clients i).phase, s.conns c) (phase, conn) →
      Step s ((s.setClient i { s.clients i with phase := phase }).setConn c conn)
  | throws {s : System σ} {i call : Nat} {e : Thrown} :
      Throws cpp s i call e → Step s (s.throw i call e)
  | returns {s : System σ} {i call id : Nat} {answer : Dict} {payload got : List Byte}
      {r : RpcResponse} :
      (s.clients i).phase = .receiving call id (.done (answer, payload)) got →
        conclude answer payload = .ok r →
      Step s ((s.setClient i { s.clients i with phase := .idle }).log (.returned i call r))
  | handler {s : System σ} {c : Nat} {conn : Conn σ} :
      c < s.fresh → ConnStep json (s.conns c) conn → Step s (s.setConn c conn)
  | acquire {s : System σ} {c : Nat} {m : Message} :
      (s.conns c).handler = .dispatching m → s.lock = none →
      Step s { s.setConn c { s.conns c with handler := .executing m (body m) } with lock := some c }
  | act {s : System σ} {c : Nat} {m : Message} {update : σ → σ} {next : σ → Body σ Outcome} :
      (s.conns c).handler = .executing m (.act update next) →
      Step s { s.setConn c { s.conns c with handler := .executing m (next s.runtime) } with
        runtime := update s.runtime }
  | release {s : System σ} {c : Nat} {m : Message} {outcome : Outcome} :
      (s.conns c).handler = .executing m (.ret outcome) →
      Step s { (s.setConn c { s.conns c with
        handler := startReply json ((s.conns c).served - 1) (response m outcome) true }).log
          (.executed c ((s.conns c).served - 1) m outcome) with lock := none }

/-- The states of the system. -/
def Reachable (runtime : σ) (s : System σ) : Prop :=
  Relation.ReflTransGen (Step json cpp body) (System.init json runtime) s

end

end Wire
