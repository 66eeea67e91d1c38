-- SUMMARY: Every call that returns was answered by one execution of its own request; executions are serial and in call order.
import BonsaiTpu.Wire.History

/-!
# Correlation of calls and executions

Every step of a client or a handler keeps the invariants, so they hold in every
reachable state. A call that returned has an execution of its frame in the history;
frames are executed once, and the calls of a client take turns.
-/

namespace Wire

open Words (Byte)
open ByteReader (Fed)

variable {σ : Type} {json : JsonText} {cpp : CppJson} {body : Message → Body σ Outcome}

/-! ## Every reachable state -/

/-- What holds in every state. -/
structure Inv (json : JsonText) (cpp : CppJson) (body : Message → Body σ Outcome) (runtime : σ)
    (s : System σ) : Prop where
  links : Links json cpp s
  calls : Calls json cpp s
  executions : Executions body runtime s

section

variable {runtime : σ} {s s' : System σ}

theorem Inv.init (json : JsonText) (cpp : CppJson) (body : Message → Body σ Outcome) (runtime : σ) :
    Inv json cpp body runtime (System.init json runtime) where
  links := by
    refine ⟨fun i => trivial, ?_, ?_, fun c _ => rfl⟩
    · intro i c hfd
      cases hfd
    · intro i j c hfd
      cases hfd
  calls := by
    refine ⟨fun i => trivial, ?_, ?_, ?_, ?_⟩ <;> intros <;> contradiction
  executions := by
    refine ⟨?_, fun c hb => hb.elim, ?_, ?_, fun _ => rfl, ?_⟩ <;> intros <;> contradiction

/-- The socket of a client that throws `RpcError` is closed. -/
theorem closeSocket_fd (s : System σ) (i : Nat) : ((s.closeSocket i).clients i).fd = none := by
  rw [System.closeSocket]
  split
  · assumption
  · simp [System.setClient]

theorem throw_fd (s : System σ) (i call : Nat) (message : String) :
    ((s.throw i call (.rpcError message)).clients i).fd = none := by
  simp [System.throw, System.log, System.setClient, closeSocket_fd]

/-- A call that throws an exception of the JSON library has sent nothing. -/
theorem Inv.throws_jsonError (hjson : Interoperable json cpp)
    (hi : Inv json cpp body runtime s) {i call : Nat}
    (ht : Throws cpp s i call .jsonError) :
    ∃ req fields id, (s.clients i).phase = .framing call req fields id := by
  cases ht with
  | frame hphase _ => exact ⟨_, _, _, hphase⟩
  | remote hphase hconclude =>
    cases hfd : (s.clients i).fd with
    | none =>
      have hlink := hi.links.link i
      rw [Link, hfd, hphase] at hlink
      exact hlink.elim
    | some c =>
      have hp := hi.links.phaseOk hfd
      rw [hphase] at hp
      obtain ⟨taken, hfed, req, fields, bytes, n, b, -, -, -, -, -, hbegun, -, hstage⟩ := hp
      rcases hstage.finish hjson hbegun hfed with ⟨message, herror⟩ |
        ⟨-, _, _, _, _, -, -, -, hok, -⟩
      · rw [herror] at hconclude
        cases hconclude
      · rw [hok] at hconclude
        cases hconclude

/-- The state after `RpcError`. -/
theorem throw_rpcError (s : System σ) (i call : Nat) (message : String) :
    (s.throw i call (.rpcError message)).clients =
      Function.update s.clients i { s.clients i with fd := none, phase := .idle } ∧
      (s.throw i call (.rpcError message)).conns = (s.closeSocket i).conns := by
  refine ⟨?_, rfl⟩
  have hfd := closeSocket_fd s i
  simp only [System.throw, System.log, System.setClient, System.closeSocket] at hfd ⊢
  split
  · next hnone => rw [hnone]
  · simp only [System.setConn, Function.update_idem, Function.update_self]

theorem closeSocket_conns (s : System σ) (i c : Nat) :
    ((s.closeSocket i).conns c).served = (s.conns c).served ∧ ((s.closeSocket i).conns c).handler =
      (s.conns c).handler := by
  rw [System.closeSocket]
  split
  · exact ⟨rfl, rfl⟩
  · next d hfd =>
    simp only [System.setClient, System.setConn, Function.update_apply]
    split
    · next hc =>
      subst hc
      exact ⟨rfl, rfl⟩
    · exact ⟨rfl, rfl⟩

theorem throw_frame (s : System σ) (i call : Nat) (e : Thrown) :
    (s.throw i call e).fresh = s.fresh ∧ (s.throw i call e).history =
      s.history ++ [.threw i call e] ∧
      (s.throw i call e).lock = s.lock ∧ (s.throw i call e).runtime = s.runtime := by
  cases e with
  | jsonError => exact ⟨rfl, rfl, rfl, rfl⟩
  | rpcError message =>
    simp only [System.throw, System.log, System.setClient, System.closeSocket]
    split <;> exact ⟨rfl, rfl, rfl, rfl⟩

theorem Links.throw (hjson : Interoperable json cpp) (hi : Inv json cpp body runtime s)
    {i call : Nat} {e : Thrown}
    (ht : Throws cpp s i call e) : Links json cpp (s.throw i call e) := by
  obtain ⟨hfresh, hhistory, -, -⟩ := throw_frame s i call e
  cases e with
  | jsonError =>
    obtain ⟨req, fields, id, hphase⟩ := hi.throws_jsonError hjson ht
    refine hi.links.alone rfl rfl hfresh hhistory (fun c hc => hc) ?_
    -- the connection is as quiet as it was
    rw [hhistory]
    cases hfd : (s.clients i).fd with
    | none =>
      rw [Link]
      simp only [hfd]
      trivial
    | some c =>
      have hp := (hi.links.phaseOk hfd).mono [.threw i call .jsonError]
      rw [hphase] at hp
      rw [Link]
      simp only [hfd]
      exact hp
  | rpcError message =>
    obtain ⟨hclients, hconns⟩ := throw_rpcError s i call message
    have hnone : ∀ h conns,
        Link (σ := σ) json cpp h i { s.clients i with fd := none, phase := .idle } conns :=
      fun _ _ => trivial
    rw [System.closeSocket] at hconns
    cases hfd : (s.clients i).fd with
    | none =>
      rw [hfd] at hconns
      exact hi.links.alone hclients hconns hfresh hhistory (fun c hc => by cases hc) (hnone _ _)
    | some c =>
      rw [hfd] at hconns
      refine hi.links.edit hclients hconns hfresh hhistory (.inl (hi.links.opened i c hfd).1)
        ?_ ?_ (hnone _ _)
      · exact fun j hj => hi.links.owner j i c hj hfd
      · intro d hd
        cases hd

/-- A call that throws. -/
theorem Inv.throw (hjson : Interoperable json cpp) (hi : Inv json cpp body runtime s)
    {i call : Nat} {e : Thrown}
    (ht : Throws cpp s i call e) : Inv json cpp body runtime (s.throw i call e) := by
  obtain ⟨-, hhistory, hlock, hruntime⟩ := throw_frame s i call e
  have hclients : ∃ cl, (s.throw i call e).clients = Function.update s.clients i cl ∧
      cl.phase = .idle := by
    cases e with
    | jsonError => exact ⟨_, rfl, rfl⟩
    | rpcError message => exact ⟨_, (throw_rpcError s i call message).1, rfl⟩
  have hconns : ∀ c, ((s.throw i call e).conns c).served = (s.conns c).served ∧
      ((s.throw i call e).conns c).handler = (s.conns c).handler := by
    cases e with
    | jsonError => exact fun c => ⟨rfl, rfl⟩
    | rpcError message => exact closeSocket_conns s i
  obtain ⟨cl, hclients, hidle⟩ := hclients
  refine ⟨Links.throw hjson hi ht, ?_, hi.executions.frame hhistory ?_ hlock hruntime hconns⟩
  · refine hi.calls.log hhistory ?_ ?_ ?_ ?_
    · intro j hj
      rw [hclients, Function.update_of_ne]
      rintro rfl
      exact hj rfl
    · rintro j ⟨⟩
      rw [hclients, Function.update_self, hidle]
      trivial
    · rintro _ _ _ _ _ ⟨⟩
    · rintro _ _ _ ⟨⟩
  · intro e' he'
    obtain rfl := List.mem_singleton.mp he'
    rfl

/-- The phases between exchanges. -/
def Phase.Calm : Phase → Prop
  | .sending _ _ _ => False
  | .receiving _ _ _ _ => False
  | _ => True

theorem phaseOk_calm {h : List Event} {i c : Nat} {phase : Phase} {conn : Conn σ}
    (hcalm : phase.Calm) :
    PhaseOk json cpp h i c phase conn ↔ Quiet json conn := by
  cases phase with
  | sending call id rest => exact hcalm.elim
  | receiving call id r got => exact hcalm.elim
  | _ => exact Iff.rfl

/-- A client moves on between exchanges. -/
theorem Links.calm (hl : Links json cpp s) {i : Nat} {cl : Client} {l : List Event}
    (hclients : s'.clients = Function.update s.clients i cl) (hconns : s'.conns = s.conns)
    (hfresh : s'.fresh = s.fresh) (hhistory : s'.history = s.history ++ l)
    (hfd : cl.fd = (s.clients i).fd)
    (hcalm : (s.clients i).phase.Calm) (hcalm' : cl.phase.Calm)
    (hnone : cl.fd = none → cl.phase.Unconnected) :
    Links json cpp s' := by
  refine hl.alone hclients hconns hfresh hhistory (fun c hc => hfd ▸ hc) ?_
  cases hopen : cl.fd with
  | none =>
    rw [Link, hopen]
    exact hnone hopen
  | some c =>
    have hp := hl.phaseOk (hfd ▸ hopen)
    rw [Link, hopen]
    exact (phaseOk_calm hcalm').mpr ((phaseOk_calm hcalm).mp hp)

theorem quiet_new (json : JsonText) : Quiet json (Conn.new json : Conn σ) :=
  ⟨rfl, .inr ⟨rfl, rfl, .inl rfl⟩⟩

theorem Inv.call (hi : Inv json cpp body runtime s) {i : Nat} (req : Request)
    (hphase : (s.clients i).phase = .idle) :
    Inv json cpp body runtime
      ((s.setClient i { s.clients i with phase := .started s.history.length req }).log
        (.called i req)) where
  links := hi.links.calm rfl rfl rfl rfl rfl (hphase ▸ trivial) trivial (fun _ => trivial)
  calls := by
    refine hi.calls.log rfl ?_ ?_ ?_ ?_
    · intro j hj
      refine Function.update_of_ne ?_ _ _
      rintro rfl
      exact hj rfl
    · rintro j ⟨⟩
      simp only [System.log, System.setClient, Function.update_self]
      refine ⟨?_, ?_, ?_⟩
      · rw [List.getElem?_append_right (Nat.le_refl _), Nat.sub_self]
        rfl
      · intro e req' he
        have hlt := (List.getElem?_eq_some_iff.mp he).1
        rw [List.length_append, List.length_singleton] at hlt
        omega
      · intro b c n id hb
        rcases getElem?_log hb with hold | ⟨-, hnew⟩
        · have hlt := hi.calls.beganLt _ _ _ _ _ _ hold
          have hb' := (List.getElem?_eq_some_iff.mp hold).1
          omega
        · cases hnew
    · rintro _ _ _ _ _ ⟨⟩
    · rintro _ _ _ ⟨⟩
  executions := by
    refine hi.executions.frame rfl ?_ rfl rfl fun c => ⟨rfl, rfl⟩
    intro e he
    obtain rfl := List.mem_singleton.mp he
    rfl

theorem Inv.connect (hi : Inv json cpp body runtime s) {i call : Nat} {req : Request}
    (hphase : (s.clients i).phase = .started call req) :
    Inv json cpp body runtime
      { s.setClient i { s.clients i with fd := some s.fresh } with fresh := s.fresh + 1 } where
  links := by
    have hclient : ∀ j, (s.setClient i { s.clients i with fd := some s.fresh }).clients j =
        if j = i then { s.clients i with fd := some s.fresh } else s.clients j :=
      fun j => Function.update_apply s.clients i _ j
    -- a connection not opened yet belongs to no client
    have hnew : ∀ j, (s.clients j).fd ≠ some s.fresh :=
      fun j hj => absurd (hi.links.opened j _ hj).1 (Nat.lt_irrefl _)
    refine ⟨?_, ?_, ?_, ?_⟩
    · intro j
      simp only [hclient]
      split
      · next hj =>
        rw [Link]
        simp only [hphase]
        exact (hi.links.unborn s.fresh (Nat.le_refl _)).symm ▸ quiet_new json
      · exact hi.links.link j
    · intro j c hc
      simp only [hclient] at hc
      split at hc
      · cases hc
        refine ⟨Nat.lt_succ_self _, ?_⟩
        show (s.conns s.fresh).clientClosed = false
        rw [hi.links.unborn s.fresh (Nat.le_refl _)]
        rfl
      · exact ⟨Nat.lt_succ_of_lt (hi.links.opened j c hc).1, (hi.links.opened j c hc).2⟩
    · intro j k c hj hk
      simp only [hclient] at hj hk
      split at hj
      · split at hk
        · next hji hki => rw [hji, hki]
        · cases hj
          exact absurd hk (hnew k)
      · split at hk
        · cases hk
          exact absurd hj (hnew j)
        · exact hi.links.owner j k c hj hk
    · exact fun c hc => hi.links.unborn c (Nat.le_of_succ_le hc)
  calls := by
    refine hi.calls.silent rfl fun j hok => ?_
    by_cases hj : j = i
    · subst hj
      simpa only [System.setClient, Function.update_self] using hok
    · simpa only [System.setClient, Function.update_of_ne hj] using hok
  executions := hi.executions.frame (List.append_nil _).symm (fun e he => by cases he) rfl rfl
    fun c => ⟨rfl, rfl⟩

theorem Inv.number (hi : Inv json cpp body runtime s) {i call c : Nat}
    {req : Request} {fields : Dict}
    (hphase : (s.clients i).phase = .started call req) (hfd : (s.clients i).fd = some c)
    (hcheck : req.check = .ok fields) :
    Inv json cpp body runtime (s.setClient i { s.clients i with
      nextId := ((s.clients i).nextId + 1) % 2 ^ 64
      phase := .framing call req fields (s.clients i).nextId }) where
  links := by
    refine hi.links.calm rfl rfl rfl (List.append_nil _).symm rfl (hphase ▸ trivial)
      trivial fun hnone => ?_
    rw [hfd] at hnone
    cases hnone
  calls := by
    refine hi.calls.silent rfl fun j hok => ?_
    by_cases hj : j = i
    · subst hj
      rw [hphase] at hok
      simp only [System.setClient, Function.update_self]
      exact ⟨hok.1, hok.2.1, hok.2.2, hcheck⟩
    · simpa only [System.setClient, Function.update_of_ne hj] using hok
  executions := hi.executions.frame (List.append_nil _).symm (fun e he => by cases he) rfl rfl
    fun c => ⟨rfl, rfl⟩

theorem Inv.begin (hi : Inv json cpp body runtime s) {i call id c : Nat}
    {req : Request} {fields : Dict}
    {bytes : List Byte} (hphase : (s.clients i).phase = .framing call req fields id)
    (hfd : (s.clients i).fd = some c) (hframe : requestFrame cpp fields req id = .ok bytes) :
    Inv json cpp body runtime
      (((s.setClient i { s.clients i with phase := .sending call id bytes }).setConn c
      { s.conns c with begun := (s.conns c).begun + 1 }).log (.began i call c
      (s.conns c).begun id)) := by
  have hok := hi.calls.ok i
  rw [hphase] at hok
  obtain ⟨hcall, hlast, hunbegun, hcheck⟩ := hok
  have hquiet : Quiet json (s.conns c) := by
    have hp := hi.links.phaseOk hfd
    rw [hphase] at hp
    exact hp
  refine ⟨?_, ?_, ?_⟩
  · exact hi.links.client rfl rfl rfl rfl hfd hfd rfl (hquiet.begin hcall hcheck hframe)
  · refine hi.calls.log rfl ?_ ?_ ?_ ?_
    · intro j hj
      refine Function.update_of_ne ?_ _ _
      rintro rfl
      exact hj rfl
    · rintro j ⟨⟩
      simp only [System.log, System.setConn, System.setClient, Function.update_self]
      exact hlast.log (by simp)
    · rintro _ _ _ _ _ ⟨⟩
      exact ⟨(List.getElem?_eq_some_iff.mp hcall).1, hunbegun⟩
    · rintro _ _ _ ⟨⟩
  · refine hi.executions.frame rfl ?_ rfl rfl fun d => ?_
    · intro e he
      obtain rfl := List.mem_singleton.mp he
      rfl
    · simp only [System.log, System.setConn, System.setClient, Function.update_apply]
      split
      · next hd => exact hd ▸ ⟨rfl, rfl⟩
      · exact ⟨rfl, rfl⟩

/-- `send_all` and `recv_all` leave the handler alone. -/
theorem LinkStep.frame {phase phase' : Phase} {conn conn' : Conn σ}
    (hs : LinkStep cpp (phase, conn) (phase', conn')) :
    conn'.served = conn.served ∧ conn'.handler = conn.handler ∧
      conn'.clientClosed = conn.clientClosed := by
  cases hs <;> exact ⟨rfl, rfl, rfl⟩

theorem LinkStep.callOk {phase phase' : Phase} {conn conn' : Conn σ}
    (hs : LinkStep cpp (phase, conn) (phase', conn'))
    {h : List Event} {i : Nat} (hok : CallOk h i phase) : CallOk h i phase' := by
  cases hs <;> exact hok

theorem Inv.transfer (hi : Inv json cpp body runtime s) {i c : Nat} {phase : Phase} {conn : Conn σ}
    (hfd : (s.clients i).fd = some c)
    (hs : LinkStep cpp ((s.clients i).phase, s.conns c) (phase, conn)) :
    Inv json cpp body runtime
      ((s.setClient i { s.clients i with phase := phase }).setConn c conn) := by
  obtain ⟨hserved, hhandler, hclosed⟩ := hs.frame
  refine ⟨?_, ?_, ?_⟩
  · exact hi.links.client rfl rfl rfl (List.append_nil _).symm hfd hfd hclosed
      (hs.phaseOk (hi.links.phaseOk hfd))
  · refine hi.calls.silent rfl fun j hok => ?_
    by_cases hj : j = i
    · subst hj
      simpa only [System.setConn, System.setClient, Function.update_self] using hs.callOk hok
    · simpa only [System.setConn, System.setClient, Function.update_of_ne hj] using hok
  · refine hi.executions.frame (List.append_nil _).symm (fun e he => by cases he) rfl rfl fun d =>
      ?_
    simp only [System.setConn, System.setClient, Function.update_apply]
    split
    · next hd => exact hd ▸ ⟨hserved, hhandler⟩
    · exact ⟨rfl, rfl⟩

theorem Inv.returns (hjson : Interoperable json cpp) (hi : Inv json cpp body runtime s)
    {i call id : Nat} {answer : Dict}
    {payload got : List Byte} {r : RpcResponse}
    (hphase : (s.clients i).phase = .receiving call id (.done (answer, payload)) got)
    (hok : conclude answer payload = .ok r) :
    Inv json cpp body runtime
      ((s.setClient i { s.clients i with phase := .idle }).log (.returned i call r)) := by
  cases hfd : (s.clients i).fd with
  | none =>
    have hlink := hi.links.link i
    rw [Link, hfd, hphase] at hlink
    exact hlink.elim
  | some c =>
    have hp := hi.links.phaseOk hfd
    have hlast := hi.calls.ok i
    rw [hphase] at hp hlast
    obtain ⟨taken, hfed, req, fields, bytes, n, b, hcall, -, -, hb, hlt, hbegun, -, hstage⟩ := hp
    rcases hstage.finish hjson hbegun hfed with ⟨message, herror⟩ |
      ⟨hquiet, x, m, result, r', hx, hbx, hdecodes, hok', hsame⟩
    · rw [hok] at herror
      cases herror
    rw [hok] at hok'
    cases hok'
    have hanswered : Answered json cpp s.history i call s.history.length ⟨r', payload⟩ :=
      ⟨req, id, c, n, b, x, m, result, hcall, hb, hlt, hbx, (List.getElem?_eq_some_iff.mp hx).1, hx,
        hdecodes, hsame⟩
    refine ⟨?_, ?_, ?_⟩
    · refine hi.links.alone rfl rfl rfl rfl (fun d hd => hd) ?_
      rw [Link]
      simp only [hfd]
      exact hquiet
    · refine hi.calls.log rfl ?_ ?_ ?_ ?_
      · intro j hj
        refine Function.update_of_ne ?_ _ _
        rintro rfl
        exact hj rfl
      · rintro j ⟨⟩
        simp only [System.log, System.setClient, Function.update_self]
        trivial
      · rintro _ _ _ _ _ ⟨⟩
      · rintro _ _ _ ⟨⟩
        exact ⟨hanswered, hlast⟩
    · refine hi.executions.frame rfl ?_ rfl rfl fun d => ⟨rfl, rfl⟩
      intro e he
      obtain rfl := List.mem_singleton.mp he
      rfl

/-- Only a connection that exists has a message. -/
theorem Links.busy_lt (hl : Links json cpp s) {c : Nat} (hbusy : (s.conns c).handler.Busy) :
    c < s.fresh := by
  refine Nat.lt_of_not_le fun hle => ?_
  rw [hl.unborn c hle] at hbusy
  exact hbusy

theorem Inv.acquire (hi : Inv json cpp body runtime s) {c : Nat} {m : Message}
    (hhandler : (s.conns c).handler = .dispatching m) (hlock : s.lock = none) :
    Inv json cpp body runtime
      { s.setConn c { s.conns c with handler := .executing m (body m) } with lock := some c } where
  links := by
    have hlt := hi.links.busy_lt (c := c) (by rw [hhandler]; trivial)
    exact hi.links.handler rfl rfl rfl (List.append_nil _).symm hlt rfl
      fun i phase _ hp => hp.execute (.inl hhandler) (body m)
  calls := hi.calls.silent rfl fun _ hok => hok
  executions := hi.executions.acquire hhandler hlock

theorem Inv.act (hi : Inv json cpp body runtime s) {c : Nat} {m : Message} {update : σ → σ}
    {next : σ → Body σ Outcome} (hhandler : (s.conns c).handler = .executing m (.act update next)) :
    Inv json cpp body runtime
      { s.setConn c { s.conns c with handler := .executing m (next s.runtime) } with
        runtime := update s.runtime } where
  links := by
    have hlt := hi.links.busy_lt (c := c) (by rw [hhandler]; trivial)
    exact hi.links.handler rfl rfl rfl (List.append_nil _).symm hlt rfl
      fun i phase _ hp => hp.execute (.inr ⟨_, hhandler⟩) (next s.runtime)
  calls := hi.calls.silent rfl fun _ hok => hok
  executions := hi.executions.act hhandler

theorem Inv.release (hi : Inv json cpp body runtime s) {c : Nat} {m : Message} {outcome : Outcome}
    (hhandler : (s.conns c).handler = .executing m (.ret outcome)) :
    Inv json cpp body runtime { (s.setConn c { s.conns c with
      handler := startReply json ((s.conns c).served - 1) (response m outcome) true }).log
        (.executed c ((s.conns c).served - 1) m outcome) with lock := none } where
  links := by
    have hlt := hi.links.busy_lt (c := c) (by rw [hhandler]; trivial)
    exact hi.links.handler rfl rfl rfl rfl hlt rfl fun i phase _ hp => hp.release hhandler
  calls := by
    refine hi.calls.log rfl (fun _ _ => rfl) ?_ ?_ ?_
    · rintro _ ⟨⟩
    · rintro _ _ _ _ _ ⟨⟩
    · rintro _ _ _ ⟨⟩
  executions := hi.executions.release hhandler

/-- Every step of a client or a handler keeps the invariant. -/
theorem Inv.step (hjson : Interoperable json cpp) (hi : Inv json cpp body runtime s)
    (hs : Step json cpp body s s') :
    Inv json cpp body runtime s' := by
  cases hs with
  | call i req hphase => exact hi.call req hphase
  | connect hphase hfd => exact hi.connect hphase
  | number hphase hfd hcheck => exact hi.number hphase hfd hcheck
  | begin hphase hfd hframe => exact hi.begin hphase hfd hframe
  | transfer hfd hlink => exact hi.transfer hfd hlink
  | throws ht => exact hi.throw hjson ht
  | returns hphase hok => exact hi.returns hjson hphase hok
  | handler hlt hconn =>
    exact ⟨hi.links.handler rfl rfl rfl (List.append_nil _).symm hlt hconn.begun.2
        (fun i phase hopen hp => hconn.phaseOk hopen hp),
      hi.calls.silent rfl fun _ hok => hok, hi.executions.handler hconn⟩
  | acquire hhandler hlock => exact hi.acquire hhandler hlock
  | act hhandler => exact hi.act hhandler
  | release hhandler => exact hi.release hhandler

theorem Reachable.inv (hjson : Interoperable json cpp) (hr : Reachable json cpp body runtime s) :
    Inv json cpp body runtime s := by
  induction hr with
  | refl => exact Inv.init json cpp body runtime
  | tail _ hs ih => exact ih.step hjson hs

/-! ## Correlation -/

/-- Place `x` of the history is an execution of the frame that the call sent. -/
def ExecutionOf (h : List Event) (i call x : Nat) : Prop :=
  ∃ (b c n id : Nat) (m : Message) (o : Outcome),
    h[b]? = some (.began i call c n id) ∧ h[x]? = some (.executed c n m o)

/-- The call whose exchange a client is in. -/
def Phase.exchange? : Phase → Option Nat
  | .sending call _ _ => some call
  | .receiving call _ _ _ => some call
  | _ => none

theorem Inv.executionOf_unique (hi : Inv json cpp body runtime s) {i call x y : Nat}
    (hx : ExecutionOf s.history i call x) (hy : ExecutionOf s.history i call y) : x = y := by
  obtain ⟨b, c, n, id, m, o, hb, hx⟩ := hx
  obtain ⟨b', c', n', id', m', o', hb', hy⟩ := hy
  obtain rfl := hi.calls.beganOnce b b' i call c n id c' n' id' hb hb'
  rw [hb] at hb'
  cases hb'
  exact hi.executions.once x y c n m m' o o' hx hy

/-- The step at the end of a call with `RpcError` closes its socket. -/
theorem Step.threw_fd (hs : Step json cpp body s s') {i call : Nat} {message : String}
    (hthrew : s'.history = s.history ++ [.threw i call (.rpcError message)]) :
    (s'.clients i).fd = none := by
  have hlast : ∀ {e : Event}, s.history ++ [e] = s.history ++ [.threw i call (.rpcError message)] →
      e = .threw i call (.rpcError message) := by
    intro e he
    exact (List.cons.inj (List.append_cancel_left he)).1
  have hsilent : s.history ≠ s.history ++ [.threw i call (.rpcError message)] := by
    intro he
    have hlen := congrArg List.length he
    rw [List.length_append, List.length_singleton] at hlen
    omega
  cases hs with
  | throws ht =>
    rename_i i' call' e
    rw [(throw_frame s i' call' e).2.1] at hthrew
    cases hlast hthrew
    exact throw_fd s i call message
  | call i' req hphase => cases hlast hthrew
  | begin hphase hfd hframe => cases hlast hthrew
  | returns hphase hok => cases hlast hthrew
  | release hhandler => cases hlast hthrew
  | connect _ _ | number _ _ _ | transfer _ _ | handler _ _ | acquire _ _ | act _ =>
    exact absurd hthrew hsilent

/-- What a client can read answers the call it is in. -/
theorem Links.current (hl : Links json cpp s) {i c : Nat} (hfd : (s.clients i).fd = some c)
    {x : Nat × Byte} (hx : x ∈ (s.conns c).toClient) :
    ∃ call b id : Nat, (s.clients i).phase.exchange? = some call ∧
      s.history[b]? = some (.began i call c x.1 id) := by
  have hp := hl.phaseOk hfd
  have hengaged : ∀ {call id : Nat} {unsent taken : List Byte},
      Engaged json cpp s.history i call id c unsent taken (s.conns c) →
        ∃ b : Nat, s.history[b]? = some (.began i call c x.1 id) := by
    rintro call id unsent taken ⟨req, fields, bytes, n, b, -, -, -, hb, -, -, hlabels, -⟩
    exact ⟨b, by rw [hlabels x hx]; exact hb⟩
  have hquiet : ¬Quiet json (s.conns c) := by
    rintro ⟨hnil, -⟩
    rw [hnil] at hx
    cases hx
  cases hphase : (s.clients i).phase with
  | sending call id rest =>
    rw [hphase] at hp
    obtain ⟨b, hb⟩ := hengaged hp
    exact ⟨call, b, id, rfl, hb⟩
  | receiving call id r got =>
    rw [hphase] at hp
    obtain ⟨taken, -, hp⟩ := hp
    obtain ⟨b, hb⟩ := hengaged hp
    exact ⟨call, b, id, rfl, hb⟩
  | idle | started call req | framing call req fields id =>
    rw [hphase] at hp
    exact absurd hp hquiet

end

/-- In every reachable state of any number of clients and the daemon, whatever failed on the
    way: a call that returned has the result and the payload of the one execution of its
    request, which came between the call and its return; a call that throws `RpcError`
    closes the socket, and whatever a client can read answers the call it is in; executions
    come one at a time, each as if it ran alone after those before it; and the calls of one
    client that returned were executed in the order they were called. -/
theorem rpc_correlation {σ : Type} (json : JsonText) (cpp : CppJson)
    (body : Message → Body σ Outcome) (runtime : σ)
    (hjson : Interoperable json cpp) (s : System σ) (hr : Reachable json cpp body runtime s) :
    (∀ (t i call : Nat) (r : RpcResponse), s.history[t]? = some (.returned i call r) →
      ∃ x req id c n m result, call < x ∧ x < t ∧ (∀ y, ExecutionOf s.history i call y ↔ y = x) ∧
        s.history[call]? = some (.called i req) ∧ Decodes json cpp req id m ∧
        s.history[x]? = some (.executed c n m (.ok (result, r.payload))) ∧
        SameJson cpp.toDouble (.obj result) r.result) ∧
    (∀ s' i call message, Step json cpp body s s' →
      s'.history = s.history ++ [.threw i call (.rpcError message)] → (s'.clients i).fd = none) ∧
    (∀ i c, (s.clients i).fd = some c → ∀ x ∈ (s.conns c).toClient,
      ∃ call b id : Nat, (s.clients i).phase.exchange? = some call ∧
        s.history[b]? = some (.began i call c x.1 id)) ∧
    (∀ c d m m' rest rest', (s.conns c).handler = .executing m rest →
      (s.conns d).handler = .executing m' rest' → c = d) ∧
    (∀ (x c n : Nat) (m : Message) (o : Outcome), s.history[x]? = some (.executed c n m o) →
      o = ((body m).run (stateAfter body runtime (s.history.take x))).1) ∧
    (s.lock = none → s.runtime = stateAfter body runtime s.history) ∧
    (∀ (t t' i call call' : Nat) (r r' : RpcResponse), s.history[t]? = some (.returned i call r) →
      s.history[t']? = some (.returned i call' r') → call < call' →
        ∀ x x', ExecutionOf s.history i call x → ExecutionOf s.history i call' x' → x < x') := by
  have hi := hr.inv hjson
  refine ⟨?_, ?_, ?_, ?_, hi.executions.outcome, hi.executions.free, ?_⟩
  · intro t i call r ht
    -- the call was sent, executed and answered on one connection
    obtain ⟨req, id, c, n, b, x, m, result, hcall, hb, hlt, hbx, hxt, hx, hdecodes, hsame⟩ :=
      hi.calls.answered t i call r ht
    have hexecution : ExecutionOf s.history i call x := ⟨b, c, n, id, m, _, hb, hx⟩
    refine ⟨x, req, id, c, n, m, result, by omega, hxt, fun y => ?_, hcall, hdecodes, hx, hsame⟩
    constructor
    · exact fun hy => hi.executionOf_unique hy hexecution
    · rintro rfl
      exact hexecution
  · exact fun s' i call message hs hthrew => hs.threw_fd hthrew
  · exact fun i c hfd x hx => hi.links.current hfd hx
  · intro c d m m' rest rest' hc hd
    have hlock := (hi.executions.lock c m rest hc).1
    rw [(hi.executions.lock d m' rest' hd).1] at hlock
    exact (Option.some.inj hlock).symm
  · -- the first call returned before the second one began
    intro t t' i call call' r r' ht ht' hlt x x' hx hx'
    obtain ⟨-, id, c, n, b, y, m, result, -, hb, -, -, hyt, hy, -, -⟩ :=
      hi.calls.answered t i call r ht
    obtain ⟨req', id', c', n', b', y', m', result', hcall', hb', hlt', hby', -, hy', -, -⟩ :=
      hi.calls.answered t' i call' r' ht'
    have hbefore := hi.calls.ordered t i call r ht call' req' hcall' hlt
    have hxy := hi.executionOf_unique hx ⟨b, c, n, id, m, _, hb, hy⟩
    have hxy' := hi.executionOf_unique hx' ⟨b', c', n', id', m', _, hb', hy'⟩
    omega

/-! ## A call that nothing disturbs -/

section

variable {runtime : σ} {s : System σ}

/-- The handler reads a message that is there. -/
theorem connSteps_read (r : ByteReader Exc Message) {conn : Conn σ} {m : Message} {rest : List Byte}
    (hhandler : conn.handler = .reading r [])
    (hrun : r.runBytes onEof conn.toServer = (.ok m, rest)) :
    Relation.ReflTransGen (ConnStep json) conn
      { conn with toServer := rest, handler := .reading (.done m) [] } := by
  induction r generalizing conn with
  | done a =>
    cases hrun
    rw [← hhandler]
  | fail e => cases hrun
  | read n k ih =>
    rw [ByteReader.runBytes] at hrun
    split at hrun
    swap
    · cases hrun
    next hle =>
    have htake : (conn.toServer.take n).length = n := by
      rw [List.length_take]
      omega
    have hcollect : ConnStep (σ := σ) json
        { conn with toServer := conn.toServer.drop n,
                    handler := .reading (.read n k) (conn.toServer.take n) }
        { conn with toServer := conn.toServer.drop n,
                    handler := .reading (k (conn.toServer.take n)) [] } :=
      .collect rfl htake
    have hread : Relation.ReflTransGen (ConnStep json) conn
        { conn with toServer := conn.toServer.drop n,
                    handler := .reading (.read n k) (conn.toServer.take n) } := by
      by_cases hn : n = 0
      · subst hn
        simp only [List.drop_zero, List.take_zero, ← hhandler]
        exact .refl
      · refine .single (.recv hhandler (List.take_append_drop n conn.toServer).symm ?_
          (Nat.le_of_eq (by rw [List.nil_append, htake])))
        exact fun hnil => hn (by rw [← htake, hnil, List.length_nil])
    have hlater := @ih (conn.toServer.take n)
      { conn with toServer := conn.toServer.drop n,
                  handler := .reading (k (conn.toServer.take n)) [] } rfl hrun
    exact (hread.tail hcollect).trans hlater

/-- The client reads a response that is there. -/
theorem linkSteps_read (r : ByteReader String (Dict × List Byte)) {conn : Conn σ} {call id : Nat}
    {x : Dict × List Byte}
    (hrun : r.runBytes onClientEof (conn.toClient.map Prod.snd) = (.ok x, [])) :
    Relation.ReflTransGen (LinkStep cpp) (.receiving call id r [], conn)
      (.receiving call id (.done x) [], { conn with toClient := [] }) := by
  induction r generalizing conn with
  | done a =>
    obtain ⟨ha, hnil⟩ := Prod.mk.inj hrun
    cases ha
    rw [← List.map_eq_nil_iff.mp hnil]
  | fail e => cases hrun
  | read n k ih =>
    rw [ByteReader.runBytes] at hrun
    split at hrun
    swap
    · cases hrun
    next hle =>
    rw [← List.map_take, ← List.map_drop] at hrun
    rw [List.length_map] at hle
    have htake : ((conn.toClient.take n).map Prod.snd).length = n := by
      rw [List.length_map, List.length_take]
      omega
    have hcollect : LinkStep (σ := σ) cpp
        (.receiving call id (.read n k) ((conn.toClient.take n).map Prod.snd),
          { conn with toClient := conn.toClient.drop n })
        (.receiving call id (k ((conn.toClient.take n).map Prod.snd)) [],
          { conn with toClient := conn.toClient.drop n }) :=
      .collect htake
    have hread : Relation.ReflTransGen (LinkStep (σ := σ) cpp)
        (.receiving call id (.read n k) [], conn)
        (.receiving call id (.read n k) ((conn.toClient.take n).map Prod.snd),
          { conn with toClient := conn.toClient.drop n }) := by
      by_cases hn : n = 0
      · subst hn
        simp only [List.drop_zero, List.take_zero, List.map_nil]
        exact .refl
      · refine .single (.recv (List.take_append_drop n conn.toClient).symm ?_
          (Nat.le_of_eq (by rw [List.nil_append, htake])))
        intro hnil
        rw [hnil] at htake
        exact hn htake.symm
    have hlater :=
      @ih ((conn.toClient.take n).map Prod.snd) { conn with toClient := conn.toClient.drop n } hrun
    exact (hread.tail hcollect).trans hlater

theorem steps_handler {c : Nat} (hc : c < s.fresh) {conn : Conn σ}
    (hsteps : Relation.ReflTransGen (ConnStep json) (s.conns c) conn) :
    Relation.ReflTransGen (Step json cpp body) s (s.setConn c conn) := by
  induction hsteps with
  | refl =>
    rw [System.setConn, Function.update_eq_self]
  | @tail conn conn' _ hs ih =>
    have hstep : Step json cpp body (s.setConn c conn) ((s.setConn c conn).setConn c conn') := by
      refine .handler hc ?_
      simpa only [System.setConn, Function.update_self] using hs
    rw [System.setConn, System.setConn, Function.update_idem] at hstep
    exact ih.tail hstep

theorem steps_transfer {i c : Nat} (hfd : (s.clients i).fd = some c) {phase : Phase} {conn : Conn σ}
    (hsteps : Relation.ReflTransGen (LinkStep cpp) ((s.clients i).phase, s.conns c) (phase, conn)) :
    Relation.ReflTransGen (Step json cpp body) s
      ((s.setClient i { s.clients i with phase := phase }).setConn c conn) := by
  suffices hpair : ∀ p : Phase × Conn σ,
      Relation.ReflTransGen (LinkStep cpp) ((s.clients i).phase, s.conns c) p →
      Relation.ReflTransGen (Step json cpp body) s
        ((s.setClient i { s.clients i with phase := p.1 }).setConn c p.2) from
    hpair _ hsteps
  intro p hp
  induction hp with
  | refl =>
    simp only [System.setConn, System.setClient, Function.update_eq_self,
      Relation.ReflTransGen.refl]
  | @tail p p' _ hs ih =>
    have hclient : ((s.setClient i { s.clients i with phase := p.1 }).setConn c p.2).clients i =
        { s.clients i with phase := p.1 } := Function.update_self ..
    have hconn : ((s.setClient i { s.clients i with phase := p.1 }).setConn c p.2).conns c = p.2 :=
      Function.update_self ..
    have hlater : (s.setClient i { s.clients i with phase := p'.1 }).setConn c p'.2 =
        (((s.setClient i { s.clients i with phase := p.1 }).setConn c p.2).setClient i
          { ((s.setClient i { s.clients i with phase := p.1 }).setConn c p.2).clients i with
            phase := p'.1 }).setConn c p'.2 := by
      simp only [hclient]
      simp only [System.setConn, System.setClient, Function.update_idem]
    rw [hlater]
    refine ih.tail (.transfer ?_ ?_)
    · rw [hclient]
      exact hfd
    · rw [hclient, hconn]
      exact hs

/-- An execution runs to its end. -/
theorem steps_execute {c : Nat} {m : Message} (b : Body σ Outcome) {o : Outcome} {runtime' : σ}
    (hhandler : (s.conns c).handler = .executing m b) (hrun : b.run s.runtime = (o, runtime')) :
    Relation.ReflTransGen (Step json cpp body) s
      { s.setConn c { s.conns c with handler := .executing m (.ret o) } with
        runtime := runtime' } := by
  induction b generalizing s with
  | ret r =>
    cases hrun
    rw [← hhandler]
    simp only [System.setConn, Function.update_eq_self, Relation.ReflTransGen.refl]
  | act update next ih =>
    have hfirst : Step json cpp body s
      { s.setConn c { s.conns c with handler := .executing m (next s.runtime) } with
        runtime := update s.runtime } :=
      .act hhandler
    have hconn : (s.setConn c { s.conns c with handler := .executing m (next s.runtime) }).conns c =
      { s.conns c with handler := .executing m (next s.runtime) } := Function.update_self ..
    have hlater := @ih s.runtime
      { s.setConn c { s.conns c with handler := .executing m (next s.runtime) } with
        runtime := update s.runtime }
      (by simp only [hconn]) hrun
    simp only [hconn] at hlater
    simp only [System.setConn, Function.update_idem] at hlater
    exact .head hfirst hlater

/-- The system while client `i` makes a call over the next connection. -/
def System.during (s : System σ) (i : Nat) (cl : Client) (conn : Conn σ)
    (lock : Option Nat) (runtime : σ) (h : List Event) : System σ where
  clients := Function.update s.clients i cl
  conns := Function.update s.conns s.fresh conn
  fresh := s.fresh + 1
  lock := lock
  runtime := runtime
  history := h

section

variable (s : System σ) (i : Nat) (cl cl' : Client) (conn conn' : Conn σ) (lock : Option Nat)
    (h : List Event)

@[simp] theorem during_clients : (s.during i cl conn lock runtime h).clients i = cl := by
  simp only [System.during, Function.update_self]

@[simp] theorem during_conns : (s.during i cl conn lock runtime h).conns s.fresh = conn := by
  simp only [System.during, Function.update_self]

@[simp] theorem during_setClient :
    (s.during i cl conn lock runtime h).setClient i cl' = s.during i cl' conn lock runtime h := by
  simp only [System.during, System.setClient, Function.update_idem]

@[simp] theorem during_setConn :
    (s.during i cl conn lock runtime h).setConn s.fresh conn' =
      s.during i cl conn' lock runtime h := by
  simp only [System.during, System.setConn, Function.update_idem]

@[simp] theorem during_log (e : Event) :
    (s.during i cl conn lock runtime h).log e = s.during i cl conn lock runtime (h ++ [e]) := rfl

end

/-- The client after it has numbered its request. -/
abbrev System.caller (s : System σ) (id : Nat) (phase : Phase) : Client :=
  ⟨some s.fresh, (id + 1) % 2 ^ 64, phase⟩

/-- Its connection, with one frame begun by the client. -/
abbrev callConn (toServer : List Byte) (toClient : List (Nat × Byte)) (served : Nat)
    (handler : Handler σ) : Conn σ :=
  ⟨toServer, toClient, false, 1, served, handler⟩

/-- Client `i` has no connection and calls nothing, and neither does the daemon. -/
structure Rests (json : JsonText) (s : System σ) (i id : Nat) : Prop where
  client : s.clients i = ⟨none, id, .idle⟩
  conn : s.conns s.fresh = Conn.new json
  lock : s.lock = none

theorem rests_init (json : JsonText) (runtime : σ) (i : Nat) :
    Rests json (System.init json runtime) i 1 := ⟨rfl, rfl, rfl⟩

section

variable {i id call : Nat} {req : Request} {fields result : Dict} {m : Message}
    {bytes payload reply : List Byte} {runtime' : σ}
  {h : List Event} {o : Outcome}

/-- The request is on its way. -/
theorem call_begun (hs : Rests json s i id) (hcheck : req.check = .ok fields)
    (hframe : requestFrame cpp fields req id = .ok bytes) :
    Relation.ReflTransGen (Step json cpp body) s
      (s.during i (s.caller id (.sending s.history.length id bytes))
        (callConn [] [] 0 (.reading (recvMessage json) [])) none s.runtime
        (s.history ++ [.called i req] ++ [.began i s.history.length s.fresh 0 id])) := by
  have hcalled : Step json cpp body s
      ((s.setClient i ⟨none, id, .started s.history.length req⟩).log (.called i req)) := by
    have hstep : Step json cpp body s _ := .call i req (by rw [hs.client])
    rw [hs.client] at hstep
    exact hstep
  have hconnected : Step json cpp body
      ((s.setClient i ⟨none, id, .started s.history.length req⟩).log (.called i req))
      (s.during i ⟨some s.fresh, id, .started s.history.length req⟩ (Conn.new json) none s.runtime
        (s.history ++ [.called i req])) := by
    have hclient :
        ((s.setClient i ⟨none, id, .started s.history.length req⟩).log (.called i req)).clients i =
        ⟨none, id, .started s.history.length req⟩ := Function.update_self ..
    have hstep : Step json cpp body _ _ :=
      .connect (congrArg Client.phase hclient) (congrArg Client.fd hclient)
    simp only [System.setClient, System.log, Function.update_idem, Function.update_self, hs.lock]
      at hstep
    rw [System.during, ← hs.conn, Function.update_eq_self]
    simp only [System.setClient, System.log, hs.lock]
    exact hstep
  have hnumbered : Step json cpp body
      (s.during i ⟨some s.fresh, id, .started s.history.length req⟩ (Conn.new json) none s.runtime
        (s.history ++ [.called i req]))
      (s.during i (s.caller id (.framing s.history.length req fields id))
        (Conn.new json) none s.runtime
        (s.history ++ [.called i req])) := by
    have hstep : Step json cpp body _ _ := .number (i := i)
      (s := s.during i ⟨some s.fresh, id, .started s.history.length req⟩
        (Conn.new json) none s.runtime
        (s.history ++ [.called i req]))
      (by rw [during_clients]) (by rw [during_clients]) hcheck
    simp only [during_clients, during_setClient] at hstep
    exact hstep
  have hframed : Step json cpp body
      (s.during i (s.caller id (.framing s.history.length req fields id))
        (Conn.new json) none s.runtime
        (s.history ++ [.called i req])) _ := .begin (i := i) (c := s.fresh)
    (by rw [during_clients]) (by rw [during_clients]) hframe
  simp only [during_clients, during_conns, during_setClient, during_setConn, during_log] at hframed
  exact (((Relation.ReflTransGen.single hcalled).tail hconnected).tail hnumbered).tail hframed

/-- The client sends all of it. -/
theorem call_sent (hbytes : bytes ≠ []) (handler : Handler σ) :
    Relation.ReflTransGen (Step json cpp body)
      (s.during i (s.caller id (.sending call id bytes)) (callConn [] [] 0 handler) none runtime h)
      (s.during i (s.caller id (.receiving call id (recvResponse cpp id) []))
        (callConn bytes [] 0 handler) none
        runtime h) := by
  have hlink : Relation.ReflTransGen (LinkStep cpp) (.sending call id bytes,
      callConn [] [] 0 handler)
      (.receiving call id (recvResponse cpp id) [], callConn bytes [] 0 handler) := by
    have hsend : LinkStep cpp (.sending call id (bytes ++ []), callConn [] [] 0 handler)
      (.sending call id [], callConn ([] ++ bytes) [] 0 handler) := .send hbytes
    rw [List.append_nil] at hsend
    exact (Relation.ReflTransGen.single hsend).tail .sent
  have hsteps : Relation.ReflTransGen (Step json cpp body) _ _ := steps_transfer
    (i := i) (c := s.fresh)
    (s := s.during i (s.caller id (.sending call id bytes))
      (callConn [] [] 0 handler) none runtime h)
    (by rw [during_clients]) (by simpa only [during_clients, during_conns] using hlink)
  simpa only [during_clients, during_setClient, during_setConn] using hsteps

/-- The handler reads it and goes for the lock. -/
theorem call_dispatched (cl : Client)
    (hread : (recvMessage json).runBytes onEof bytes = (.ok m, []))
    (hop : missingOp m.1 = false) :
    Relation.ReflTransGen (Step json cpp body)
      (s.during i cl (callConn bytes [] 0 (.reading (recvMessage json) [])) none runtime h)
      (s.during i cl (callConn [] [] 1 (.dispatching m)) none runtime h) := by
  have hhandler : Relation.ReflTransGen (ConnStep json)
      (callConn bytes [] 0 (.reading (recvMessage json) []))
      (callConn (σ := σ) [] [] 1 (.dispatching m)) := by
    have hmessage : ConnStep (σ := σ) json (callConn [] [] 0 (.reading (.done m) []))
        (callConn [] [] 1 (afterMessage json 0 m)) := .message rfl
    rw [afterMessage, if_neg (by rw [hop]; exact Bool.false_ne_true)] at hmessage
    have hreads : Relation.ReflTransGen (ConnStep (σ := σ) json)
        (callConn bytes [] 0 (.reading (recvMessage json) []))
        (callConn [] [] 0 (.reading (.done m) [])) := connSteps_read (recvMessage json) rfl hread
    exact hreads.tail hmessage
  have hsteps : Relation.ReflTransGen (Step json cpp body) _ _ := steps_handler (c := s.fresh)
    (s := s.during i cl (callConn bytes [] 0 (.reading (recvMessage json) [])) none runtime h)
    (Nat.lt_succ_self _) (by simpa only [during_conns] using hhandler)
  simpa only [during_setConn] using hsteps

/-- It executes the request and starts its reply. -/
theorem call_executed (cl : Client) (hbody : (body m).run runtime = (o, runtime')) :
    Relation.ReflTransGen (Step json cpp body)
      (s.during i cl (callConn [] [] 1 (.dispatching m)) none runtime h)
      (s.during i cl (callConn [] [] 1 (startReply json 0 (response m o) true)) none runtime'
        (h ++ [.executed s.fresh 0 m o])) := by
  have hacquired : Step json cpp body _ _ := .acquire (c := s.fresh)
    (s := s.during i cl (callConn [] [] 1 (.dispatching m)) none runtime h)
    (by rw [during_conns]) rfl
  have hran : Relation.ReflTransGen (Step json cpp body) _ _ := steps_execute (c := s.fresh)
    (m := m) (body m)
    (s := s.during i cl (callConn [] [] 1 (.executing m (body m))) (some s.fresh) runtime h)
    (by rw [during_conns]) hbody
  have hreleased : Step json cpp body _ _ := .release (c := s.fresh)
    (s := s.during i cl (callConn [] [] 1 (.executing m (.ret o))) (some s.fresh) runtime' h)
    (by rw [during_conns])
  simp only [during_conns, during_setConn, during_log] at hacquired hran hreleased
  exact ((Relation.ReflTransGen.single hacquired).trans hran).tail hreleased

/-- The client gets the reply and returns. -/
theorem call_replied {x : Dict × List Byte} {r : RpcResponse} (hreply : reply ≠ [])
    (hanswer : (recvResponse cpp id).runBytes onClientEof reply = (.ok x, []))
    (hok : conclude x.1 x.2 = .ok r) :
    Relation.ReflTransGen (Step json cpp body)
      (s.during i (s.caller id (.receiving call id (recvResponse cpp id) []))
        (callConn [] [] 1 (.sending 0 reply true)) none runtime h)
      (s.during i (s.caller id .idle) (callConn [] [] 1 (.sending 0 [] true)) none runtime
        (h ++ [.returned i call r])) := by
  have hhandler : ConnStep (σ := σ) json (callConn [] [] 1 (.sending 0 (reply ++ []) true))
      (callConn [] ([] ++ reply.map (Prod.mk 0)) 1 (.sending 0 [] true)) := .send rfl hreply
  rw [List.append_nil, List.nil_append] at hhandler
  have hlink : Relation.ReflTransGen (LinkStep (σ := σ) cpp)
      (.receiving call id (recvResponse cpp id) [],
        callConn [] (reply.map (Prod.mk 0)) 1 (.sending 0 [] true))
      (.receiving call id (.done x) [], callConn [] [] 1 (.sending 0 [] true)) :=
    linkSteps_read (recvResponse cpp id) (by rw [map_snd_chunk]; exact hanswer)
  have hsent : Step json cpp body _ _ := .handler (c := s.fresh)
    (s := s.during i (s.caller id (.receiving call id (recvResponse cpp id) []))
      (callConn [] [] 1 (.sending 0 reply true)) none runtime h)
    (Nat.lt_succ_self _) (by simpa only [during_conns] using hhandler)
  have hread : Relation.ReflTransGen (Step json cpp body) _ _ := steps_transfer
    (i := i) (c := s.fresh)
    (s := s.during i (s.caller id (.receiving call id (recvResponse cpp id) []))
      (callConn [] (reply.map (Prod.mk 0)) 1 (.sending 0 [] true)) none runtime h)
    (by rw [during_clients]) (by simpa only [during_clients, during_conns] using hlink)
  have hdone : Step json cpp body _ _ := .returns (i := i)
    (s := s.during i (s.caller id (.receiving call id (.done x) []))
      (callConn [] [] 1 (.sending 0 [] true)) none
      runtime h)
    (by rw [during_clients]) hok
  simp only [during_clients, during_setClient, during_setConn, during_log] at hsent hread hdone
  exact ((Relation.ReflTransGen.single hsent).trans hread).tail hdone

/-- The connection fails before the first byte of the reply. -/
theorem call_lost (conn : Conn σ) (message : String) :
    Step json cpp body
      (s.during i (s.caller id (.receiving call id (recvResponse cpp id) [])) conn none runtime h)
      (s.during i ⟨none, (id + 1) % 2 ^ 64, .idle⟩ { conn with clientClosed := true } none runtime
        (h ++ [.threw i call (.rpcError message)])) := by
  have hthrew : Step json cpp body _ _ := .throws (i := i)
    (s := s.during i (s.caller id (.receiving call id (recvResponse cpp id) []))
      conn none runtime h)
    (.recv (n := HEADER_SIZE) message (by rw [during_clients]; rfl) (by decide))
  simp only [System.throw, System.closeSocket, during_clients, during_conns, during_setConn,
    during_setClient, during_log] at hthrew
  exact hthrew

end

section

variable {i id : Nat} {req : Request} {fields : Dict} {m : Message} {bytes : List Byte}
    {runtime' : σ} {o : Outcome}

theorem call_answered (hs : Rests json s i id) (hcheck : req.check = .ok fields)
    (hframe : requestFrame cpp fields req id = .ok bytes)
    (hread : (recvMessage json).runBytes onEof bytes = (.ok m, [])) (hop : missingOp m.1 = false)
    (hbody : (body m).run s.runtime = (o, runtime')) :
    Relation.ReflTransGen (Step json cpp body) s
      (s.during i (s.caller id (.receiving s.history.length id (recvResponse cpp id) []))
        (callConn [] [] 1 (startReply json 0 (response m o) true)) none runtime'
        (s.history ++ [.called i req] ++ [.began i s.history.length s.fresh 0 id] ++
          [.executed s.fresh 0 m o])) := by
  have hbytes : bytes ≠ [] := by
    rintro rfl
    rw [recvMessage_eq_readFrame, readFrame_nil] at hread
    cases hread
  exact (((call_begun hs hcheck hframe).trans (call_sent hbytes _)).trans
    (call_dispatched _ hread hop)).trans
    (call_executed _ hbody)

/-- A call whose reply is lost: it was executed, and the client may call again. -/
theorem call_throws (hs : Rests json s i id) (hnext : s.conns (s.fresh + 1) = Conn.new json)
    (hcheck : req.check = .ok fields) (hframe : requestFrame cpp fields req id = .ok bytes)
    (hread : (recvMessage json).runBytes onEof bytes = (.ok m, [])) (hop : missingOp m.1 = false)
    (hbody : (body m).run s.runtime = (o, runtime')) (message : String) :
    ∃ s', Relation.ReflTransGen (Step json cpp body) s s' ∧ Rests json s' i ((id + 1) % 2 ^ 64) ∧
      s'.runtime = runtime' ∧
      s'.fresh = s.fresh + 1 ∧ s'.history = s.history ++
        [.called i req, .began i s.history.length s.fresh 0 id, .executed s.fresh 0 m o,
          .threw i s.history.length (.rpcError message)] := by
  refine ⟨_, (call_answered hs hcheck hframe hread hop hbody).tail (call_lost _ message),
    ⟨during_clients .., ?_, rfl⟩, rfl, rfl, by
      simp only [System.during, List.append_assoc, List.cons_append, List.nil_append]⟩
  simp only [System.during, Function.update_of_ne (Nat.succ_ne_self s.fresh)]
  exact hnext

/-- If nothing fails on the way, a call returns what its execution produced. -/
theorem call_returns {result : Dict} {payload reply : List Byte} {x : Dict × List Byte}
    {r : RpcResponse}
    (hs : Rests json s i id) (hcheck : req.check = .ok fields)
    (hframe : requestFrame cpp fields req id = .ok bytes)
    (hread : (recvMessage json).runBytes onEof bytes = (.ok m, [])) (hop : missingOp m.1 = false)
    (hbody : (body m).run s.runtime = (.ok (result, payload), runtime'))
    (hreply : sendMessage json (response m (.ok (result, payload))) = .ok reply)
    (hanswer : (recvResponse cpp id).runBytes onClientEof reply = (.ok x, []))
    (hok : conclude x.1 x.2 = .ok r) :
    ∃ s', Relation.ReflTransGen (Step json cpp body) s s' ∧ s'.history = s.history ++
      [.called i req, .began i s.history.length s.fresh 0 id,
        .executed s.fresh 0 m (.ok (result, payload)), .returned i s.history.length r] := by
  have hreply' : reply ≠ [] := by
    rintro rfl
    rw [recvResponse, readFrame_nil] at hanswer
    cases hanswer
  have hexecuted := call_answered hs hcheck hframe hread hop hbody
  rw [startReply, hreply] at hexecuted
  exact ⟨_, hexecuted.trans (call_replied hreply' hanswer hok),
    by simp only [System.during, List.append_assoc, List.cons_append, List.nil_append]⟩

end

end

/-! ### Calls of `MEMORY` -/

/-- The answer of a daemon without slabs. -/
def memoryResult : Dict := fun key =>
  if key = "memory" then
    some (.obj fun key =>
      if key ∈ ["total_bytes", "free_bytes", "used_bytes", "slab_count", "tensor_count"] then
        some (.int 0) else none)
  else none

def memoryRequest : Request := ⟨"MEMORY", .obj fun _ => none, .null 0⟩

def memoryMetadata (id : Nat) : Dict := requestMetadata (fun _ => none) id "MEMORY"

def memoryReply (id : Nat) : Dict := okReply (.int id) memoryResult

/-- The texts of the first two requests of a client. -/
def memoryText (id : Nat) : String :=
  if id = 1 then "\x7b\"id\":1,\"op\":\"MEMORY\"\x7d" else "\x7b\"id\":2,\"op\":\"MEMORY\"\x7d"

def memoryReplyText (id : Nat) : String :=
  (if id = 1 then "\x7b\"id\":1," else "\x7b\"id\":2,") ++
    "\"ok\":true,\"result\":\x7b\"memory\":\x7b\"free_bytes\":0,\"slab_count\":0,\"tensor_count\":0," ++
      "\"total_bytes\":0,\"used_bytes\":0\x7d\x7d\x7d"

open Classical in
/-- The JSON module of the daemon on these texts. -/
noncomputable def memoryJson : JsonText where
  dumps v := if v = .obj (memoryReply 1) then memoryReplyText 1 else
    if v = .obj (memoryReply 2) then memoryReplyText 2 else ""
  loads text := if text = memoryText 1 then .ok (.obj (memoryMetadata 1)) else
    if text = memoryText 2 then .ok (.obj (memoryMetadata 2))
    else .error (.decode "Expecting value")

open Classical in
/-- The JSON library of the client on these texts. -/
noncomputable def memoryCpp : CppJson where
  dump v := if v = .obj (memoryMetadata 1) then some (encodeUtf8 (memoryText 1)) else
    if v = .obj (memoryMetadata 2) then some (encodeUtf8 (memoryText 2)) else none
  parse raw := if raw = encodeUtf8 (memoryReplyText 1) then .ok (.obj (memoryReply 1)) else
    if raw = encodeUtf8 (memoryReplyText 2) then .ok (.obj (memoryReply 2))
    else .error "parse error"
  eqId v id := match v with
    | .int n => n == id
    | _ => false
  toDouble _ := 0

theorem memoryMetadata_ne : Json.obj (memoryMetadata 2) ≠ .obj (memoryMetadata 1) := by
  intro h
  have hid : memoryMetadata 2 "id" = memoryMetadata 1 "id" := congrFun (Json.obj.inj h) "id"
  cases hid

theorem memoryReply_ne : Json.obj (memoryReply 2) ≠ .obj (memoryReply 1) := by
  intro h
  have hid : memoryReply 2 "id" = memoryReply 1 "id" := congrFun (Json.obj.inj h) "id"
  cases hid

section

variable {id : Nat} (hid : id = 1 ∨ id = 2)

include hid

theorem memory_dump :
    memoryCpp.dump (.obj (memoryMetadata id)) = some (encodeUtf8 (memoryText id)) := by
  rcases hid with rfl | rfl
  · exact if_pos rfl
  · exact (if_neg memoryMetadata_ne).trans (if_pos rfl)

theorem memory_dumps : memoryJson.dumps (.obj (memoryReply id)) = memoryReplyText id := by
  rcases hid with rfl | rfl
  · exact if_pos rfl
  · exact (if_neg memoryReply_ne).trans (if_pos rfl)

theorem memory_loads : memoryJson.loads (memoryText id) = .ok (.obj (memoryMetadata id)) := by
  have hne : memoryText 2 ≠ memoryText 1 := by decide
  rcases hid with rfl | rfl
  · simp only [memoryJson, if_true]
  · simp only [memoryJson, if_neg hne, if_true]

theorem memory_parse :
    memoryCpp.parse (encodeUtf8 (memoryReplyText id)) = .ok (.obj (memoryReply id)) := by
  have hne : encodeUtf8 (memoryReplyText 2) ≠ encodeUtf8 (memoryReplyText 1) := by decide
  rcases hid with rfl | rfl
  · simp only [memoryCpp, if_true]
  · simp only [memoryCpp, if_neg hne, if_true]

theorem sameJson_memoryReply :
    SameJson memoryCpp.toDouble (.obj (memoryReply id)) (.obj (memoryReply id)) := by
  have hzero : SameJson memoryCpp.toDouble (.int 0) (.int 0) := .int 0 (by decide) (by decide)
  have hnumber : SameJson memoryCpp.toDouble (.int id) (.int id) := .int id (by omega) (by omega)
  have hresult : SameJson memoryCpp.toDouble (.obj memoryResult) (.obj memoryResult) := by
    refine .obj fun key => ?_
    rw [memoryResult]
    split
    · refine .some (.obj fun key => ?_)
      split
      · exact .some hzero
      · exact .none
    · exact .none
  refine .obj fun key => ?_
  rw [memoryReply, okReply]
  split
  · exact .some hnumber
  · split
    · exact .some (.bool true)
    · split
      · exact .some hresult
      · exact .none

theorem memory_frame : requestFrame memoryCpp (fun _ => none) memoryRequest id =
    .ok (frameBytes (encodeUtf8 (memoryText id)) []) := by
  have hlen : (encodeUtf8 (memoryText id)).length = 22 := by
    rcases hid with rfl | rfl <;> decide
  rw [requestFrame, show requestMetadata (fun _ => none) id memoryRequest.op =
    memoryMetadata id from rfl, memory_dump hid]
  exact if_neg (by rw [hlen]; decide)

theorem memory_read :
    (recvMessage memoryJson).runBytes onEof (frameBytes (encodeUtf8 (memoryText id)) []) =
    (.ok (memoryMetadata id, []), []) := by
  have hlen : (encodeUtf8 (memoryText id)).length = 22 := by
    rcases hid with rfl | rfl <;> decide
  have hmetadata : parseMetadata memoryJson (encodeUtf8 (memoryText id)) =
      .ok (memoryMetadata id) := by
    rw [parseMetadata, decodeUtf8_encodeUtf8]
    simp only [memory_loads hid]
  rw [recvMessage_eq_readFrame, runBytes_readFrame (by rw [hlen]; decide) (by decide),
    hlen, hmetadata]
  rfl

theorem memory_reply :
    sendMessage memoryJson (response (memoryMetadata id, []) (.ok (memoryResult, []))) =
    .ok (frameBytes (encodeUtf8 (memoryReplyText id)) []) := by
  have hlen : (encodeUtf8 (memoryReplyText id)).length = 118 := by
    rcases hid with rfl | rfl <;> decide
  rw [sendMessage, show (response (memoryMetadata id, []) (.ok (memoryResult, []))).1 =
    memoryReply id from rfl, memory_dumps hid]
  exact if_pos ⟨by rw [hlen]; decide, show (0 : Nat) < 2 ^ 32 by decide⟩

theorem memory_answer : (recvResponse memoryCpp id).runBytes onClientEof
    (frameBytes (encodeUtf8 (memoryReplyText id)) []) =
    (.ok (memoryReply id, []), []) := by
  have hlen : (encodeUtf8 (memoryReplyText id)).length = 118 := by
    rcases hid with rfl | rfl <;> decide
  rw [recvResponse, runBytes_readFrame (by rw [hlen]; decide) (by decide), hlen, parseResponse,
    memory_parse hid]
  rcases hid with rfl | rfl <;> rfl

end

theorem memory_interoperable : Interoperable memoryJson memoryCpp := by
  intro v w hw
  have hreply {id : Nat} (hid : id = 1 ∨ id = 2) (hv : v = .obj (memoryReply id)) :
      SameJson memoryCpp.toDouble v w := by
    rw [hv, memory_dumps hid, memory_parse hid] at hw
    cases hw
    exact hv ▸ sameJson_memoryReply hid
  by_cases hv : v = .obj (memoryReply 1)
  · exact hreply (.inl rfl) hv
  by_cases hv' : v = .obj (memoryReply 2)
  · exact hreply (.inr rfl) hv'
  -- the client cannot read any other text
  have hdumps : memoryJson.dumps v = "" := (if_neg hv).trans (if_neg hv')
  have hparse : memoryCpp.parse (encodeUtf8 "") = .error "parse error" := by
    have hne : encodeUtf8 "" ≠ encodeUtf8 (memoryReplyText 1) := by decide
    have hne' : encodeUtf8 "" ≠ encodeUtf8 (memoryReplyText 2) := by decide
    simp only [memoryCpp, if_neg hne, if_neg hne']
  rw [hdumps, hparse] at hw
  cases hw

/-- `dispatch` of these requests. -/
def memoryBody (_ : Message) : Body Unit Outcome := .ret (.ok (memoryResult, []))

/-- A call of `MEMORY` that was executed but whose reply was lost, and a second one over a new
    connection: it returns the result of its own execution. -/
theorem rpc_correlation_memory :
    ∃ s : System Unit, Reachable memoryJson memoryCpp memoryBody () s ∧
      s.history[2]? = some (.executed 0 0 (memoryMetadata 1, []) (.ok (memoryResult, []))) ∧
      s.history[3]? = some (.threw 0 0 (.rpcError "recv failed: Connection reset by peer")) ∧
      s.history[5]? = some (.began 0 4 1 0 2) ∧
      s.history[7]? = some (.returned 0 4 ⟨.obj memoryResult, []⟩) ∧
      ∀ y, ExecutionOf s.history 0 4 y ↔ y = 6 := by
  have hfirst : ∃ s : System Unit, Reachable memoryJson memoryCpp memoryBody () s ∧
      Rests memoryJson s 0 2 ∧ _ :=
    call_throws (rests_init memoryJson () 0) rfl rfl (memory_frame (.inl rfl))
      (memory_read (.inl rfl)) rfl rfl
      "recv failed: Connection reset by peer"
  obtain ⟨s, hthrew, hrests, -, hfresh, hhistory⟩ := hfirst
  have hsecond : ∃ s' : System Unit,
      Relation.ReflTransGen (Step memoryJson memoryCpp memoryBody) s s' ∧ _ :=
    call_returns hrests rfl (memory_frame (.inr rfl)) (memory_read (.inr rfl)) rfl rfl
      (memory_reply (.inr rfl))
      (memory_answer (.inr rfl)) rfl
  obtain ⟨s', hsteps, hhistory'⟩ := hsecond
  rw [hfresh, hhistory] at hhistory'
  have hr : Reachable memoryJson memoryCpp memoryBody () s' := hthrew.trans hsteps
  have hreturned : s'.history[7]? = some (.returned 0 4 ⟨.obj memoryResult, []⟩) := by
    rw [hhistory']
    rfl
  have hexecution : ExecutionOf s'.history 0 4 6 := by
    refine ⟨5, 1, 0, 2, (memoryMetadata 2, []), .ok (memoryResult, []), ?_, ?_⟩
    · rw [hhistory']
      rfl
    · rw [hhistory']
      rfl
  obtain ⟨x, -, -, -, -, -, -, -, -, honce, -⟩ :=
    (rpc_correlation memoryJson memoryCpp _ () memory_interoperable s' hr).1 7 0 4 _ hreturned
  obtain rfl : 6 = x := (honce 6).mp hexecution
  refine ⟨s', hr, ?_, ?_, ?_, hreturned, honce⟩
  · rw [hhistory']
    rfl
  · rw [hhistory']
    rfl
  · rw [hhistory']
    rfl

end Wire
