-- SUMMARY: The exchange of one call on one connection: where the bytes of the request and the answer are, step by step.
import BonsaiTpu.Wire.Sessions

/-!
# Exchanges

Between calls an open connection is `Quiet`: no byte is under way and the handler is at
the start of a frame, or gone. During a call, the bytes used by the handler, under way
and not yet sent make up the request; then the bytes taken by the client, under way and
not yet sent make up the answer. A read frame is read to its end, so a call that returns
leaves the connection quiet again, and every other end of a call closes the socket or
comes before the first byte.
-/

namespace Wire

open Words (Byte)
open ByteReader (Fed)

variable {σ : Type} {json : JsonText} {cpp : CppJson}

/-! ## One connection -/

section

variable (json) (cpp)

/-- No call is under way on the connection. -/
def Quiet (conn : Conn σ) : Prop :=
  conn.toClient = [] ∧
    (conn.handler = .ended ∨
      conn.toServer = [] ∧ conn.served = conn.begun ∧
        (conn.handler = .reading (recvMessage json) [] ∨ ∃ n, conn.handler = .sending n [] true))

/-- The bytes answer the request: they are the answer to its execution, after the place
    `since` of the history, or an error without an execution. -/
inductive Answer (h : List Event) (c n since : Nat) (req : Request) (id : Nat) : List Byte → Prop
  | executed {x : Nat} {m : Message} {outcome : Outcome} {bytes : List Byte} :
      h[x]? = some (.executed c n m outcome) → since < x → Decodes json cpp req id m →
      sendMessage json (response m outcome) = .ok bytes → Answer h c n since req id bytes
  | refused {rid : Json} {code message : String} {bytes : List Byte} :
      sendMessage json (errorReply rid code message, []) = .ok bytes →
        Answer h c n since req id bytes

/-- How far the exchange of a call is: `unsent` and `taken` are the bytes of the request that
    the client still has to send, and those of the answer that it has read. -/
inductive Stage (h : List Event) (c n since : Nat) (req : Request) (id : Nat)
    (bytes unsent taken : List Byte) (conn : Conn σ) : Prop
  | looping {m : Nat} :
      conn.handler = .sending m [] true → conn.toServer ++ unsent = bytes → conn.served = n →
        conn.toClient = [] →
      taken = [] → Stage h c n since req id bytes unsent taken conn
  | reading {used got : List Byte} {r : ByteReader Exc Message} :
      conn.handler = .reading r got → Fed onEof (recvMessage json) used r got →
        used ++ conn.toServer ++ unsent = bytes →
      conn.served = n → conn.toClient = [] → taken = [] →
      Stage h c n since req id bytes unsent taken conn
  | held {m : Message} :
      conn.handler = .dispatching m ∨ (∃ rest, conn.handler = .executing m rest) →
        Decodes json cpp req id m →
      conn.toServer = [] → unsent = [] → conn.served = n + 1 → conn.toClient = [] → taken = [] →
      Stage h c n since req id bytes unsent taken conn
  | replying {rest reply : List Byte} :
      conn.handler = .sending n rest true → Answer json cpp h c n since req id reply →
      taken ++ conn.toClient.map Prod.snd ++ rest = reply → conn.toServer = [] → unsent = [] →
      conn.served = n + 1 →
      Stage h c n since req id bytes unsent taken conn
  | refusing {rest reply : List Byte} {rid : Json} {code message : String} :
      conn.handler = .sending n rest false →
        sendMessage json (errorReply rid code message, []) = .ok reply →
      taken ++ conn.toClient.map Prod.snd ++ rest = reply →
      Stage h c n since req id bytes unsent taken conn
  | replied {reply : List Byte} :
      conn.handler = .reading (recvMessage json) [] → Answer json cpp h c n since req id reply →
      taken ++ conn.toClient.map Prod.snd = reply → conn.toServer = [] → unsent = [] →
      conn.served = n + 1 →
      Stage h c n since req id bytes unsent taken conn
  | silent : conn.handler = .ended → conn.toClient = [] → taken = [] →
      Stage h c n since req id bytes unsent taken conn
  | cut {reply : List Byte} :
      conn.handler = .ended → Answer json cpp h c n since req id reply →
      taken ++ conn.toClient.map Prod.snd <+: reply →
      Stage h c n since req id bytes unsent taken conn

/-- A call is under way on the connection. -/
def Engaged (h : List Event) (i call id c : Nat) (unsent taken : List Byte)
    (conn : Conn σ) : Prop :=
  ∃ req fields bytes n b, h[call]? = some (.called i req) ∧ req.check = .ok fields ∧
    requestFrame cpp fields req id = .ok bytes ∧ h[b]? = some (.began i call c n id) ∧ call < b ∧
    conn.begun = n + 1 ∧
    (∀ x ∈ conn.toClient, x.1 = n) ∧ Stage json cpp h c n b req id bytes unsent taken conn

/-- A client and its open connection. -/
def PhaseOk (h : List Event) (i c : Nat) (phase : Phase) (conn : Conn σ) : Prop :=
  match phase with
  | .sending call id rest => Engaged json cpp h i call id c rest [] conn
  | .receiving call id r got =>
    ∃ taken, Fed onClientEof (recvResponse cpp id) taken r got ∧
      Engaged json cpp h i call id c [] taken conn
  | _ => Quiet json conn

/-- The phases without a connection. -/
def Phase.Unconnected : Phase → Prop
  | .idle => True
  | .started _ _ => True
  | _ => False

def Link (h : List Event) (i : Nat) (cl : Client) (conns : Nat → Conn σ) : Prop :=
  match cl.fd with
  | none => cl.phase.Unconnected
  | some c => PhaseOk json cpp h i c cl.phase (conns c)

end

/-! ### Growing histories -/

theorem getElem?_append_some {h l : List Event} {x : Nat} {e : Event} (hx : h[x]? = some e) :
    (h ++ l)[x]? = some e := by
  rw [List.getElem?_append_left (List.getElem?_eq_some_iff.mp hx).1]
  exact hx

section

variable {h : List Event} {c n since id i : Nat} {req : Request} {conn : Conn σ}

theorem Answer.mono {bytes : List Byte} (l : List Event)
    (ha : Answer json cpp h c n since req id bytes) :
    Answer json cpp (h ++ l) c n since req id bytes := by
  cases ha with
  | executed hx hsince hdecodes hsent =>
    exact .executed (getElem?_append_some hx) hsince hdecodes hsent
  | refused hsent => exact .refused hsent

theorem Stage.mono {bytes unsent taken : List Byte} (l : List Event)
    (hs : Stage json cpp h c n since req id bytes unsent taken conn) :
    Stage json cpp (h ++ l) c n since req id bytes unsent taken conn := by
  cases hs with
  | looping hhandler hbytes hserved hclient htaken =>
    exact .looping hhandler hbytes hserved hclient htaken
  | reading hhandler hfed hbytes hserved hclient htaken =>
    exact .reading hhandler hfed hbytes hserved hclient htaken
  | held hhandler hdecodes hserver hunsent hserved hclient htaken =>
    exact .held hhandler hdecodes hserver hunsent hserved hclient htaken
  | replying hhandler hanswer hbytes hserver hunsent hserved =>
    exact .replying hhandler (hanswer.mono l) hbytes hserver hunsent hserved
  | refusing hhandler hsent hbytes => exact .refusing hhandler hsent hbytes
  | replied hhandler hanswer hbytes hserver hunsent hserved =>
    exact .replied hhandler (hanswer.mono l) hbytes hserver hunsent hserved
  | silent hhandler hclient htaken => exact .silent hhandler hclient htaken
  | cut hhandler hanswer hle => exact .cut hhandler (hanswer.mono l) hle

theorem Engaged.mono {call : Nat} {unsent taken : List Byte} (l : List Event)
    (he : Engaged json cpp h i call id c unsent taken conn) :
    Engaged json cpp (h ++ l) i call id c unsent taken conn := by
  obtain ⟨req, fields, bytes, n, b, hcall, hcheck, hframe, hb, hlt, hbegun, hlabels, hstage⟩ := he
  exact ⟨req, fields, bytes, n, b, getElem?_append_some hcall, hcheck, hframe,
    getElem?_append_some hb, hlt, hbegun, hlabels, hstage.mono l⟩

theorem PhaseOk.mono {phase : Phase} (l : List Event) (hp : PhaseOk json cpp h i c phase conn) :
    PhaseOk json cpp (h ++ l) i c phase conn := by
  cases phase with
  | sending call id rest => exact Engaged.mono l hp
  | receiving call id r got =>
    obtain ⟨taken, hfed, hengaged⟩ := hp
    exact ⟨taken, hfed, hengaged.mono l⟩
  | _ => exact hp

end

/-! ### Handlers -/

/-- A frame starts with the read of its header. -/
theorem recvMessage_eq_read (json : JsonText) :
    ∃ k, recvMessage json = .read HEADER_SIZE k := ⟨_, rfl⟩

section

variable {h : List Event} {c n since id i : Nat} {req : Request} {fields : Dict}
    {bytes unsent taken : List Byte}
  {conn conn' : Conn σ}

theorem startReply_cases (json : JsonText) (frame : Nat) (reply : Message) (again : Bool) :
    (∃ bytes, sendMessage json reply = .ok bytes ∧ (startReply json frame reply again : Handler σ) =
      .sending frame bytes again) ∨
      (startReply json frame reply again : Handler σ) = .ended := by
  rw [startReply]
  cases hsent : sendMessage json reply with
  | ok bytes => exact .inl ⟨bytes, rfl, rfl⟩
  | error e => exact .inr rfl

/-- A quiet connection stays quiet. -/
theorem ConnStep.quiet (hs : ConnStep json conn conn') (hopen : conn.clientClosed = false)
    (hq : Quiet json conn) :
    Quiet json conn' := by
  obtain ⟨k₀, hstart⟩ := recvMessage_eq_read json
  obtain ⟨hclient, hended | ⟨hserver, hserved, hhandler⟩⟩ := hq
  · -- a handler that ended takes no step
    cases hs <;> simp_all
  -- the handler waits for a header or has sent its reply: it can only fail, or end the reply
  cases hs with
  | recv hreading hchunk hne hle =>
    rw [hserver] at hchunk
    exact absurd (List.append_eq_nil_iff.mp hchunk.symm).1 hne
  | collect hreading hlen =>
    rcases hhandler with hhandler | ⟨m, hhandler⟩
    · rw [hhandler, hstart] at hreading
      cases hreading
      cases hlen
    · rw [hhandler] at hreading
      cases hreading
  | eof hreading hlt hnil hclosed =>
    rw [hopen] at hclosed
    cases hclosed
  | recvError hreading hlt => exact ⟨hclient, .inl rfl⟩
  | exc hreading =>
    rcases hhandler with hhandler | ⟨m, hhandler⟩
    · rw [hhandler, hstart] at hreading
      cases hreading
    · rw [hhandler] at hreading
      cases hreading
  | message hreading =>
    rcases hhandler with hhandler | ⟨m, hhandler⟩
    · rw [hhandler, hstart] at hreading
      cases hreading
    · rw [hhandler] at hreading
      cases hreading
  | send hsending hne =>
    rcases hhandler with hhandler | ⟨m, hhandler⟩
    · rw [hhandler] at hsending
      cases hsending
    · rw [hhandler] at hsending
      exact absurd (List.append_eq_nil_iff.mp (Handler.sending.inj hsending).2.1.symm).1 hne
  | sendError hsending hne => exact ⟨hclient, .inl rfl⟩
  | sent hsending =>
    rcases hhandler with hhandler | ⟨m, hhandler⟩
    · rw [hhandler] at hsending
      cases hsending
    · rw [hhandler] at hsending
      obtain ⟨rfl, -, rfl⟩ := Handler.sending.inj hsending
      exact ⟨hclient, .inr ⟨hserver, hserved, .inl rfl⟩⟩

/-- The handler reads the request. -/
theorem ConnStep.stage_reading (hs : ConnStep json conn conn') (hopen : conn.clientClosed = false)
    (hcheck : req.check = .ok fields) (hframe : requestFrame cpp fields req id = .ok bytes)
    {used got : List Byte}
    {r : ByteReader Exc Message} (hhandler : conn.handler = .reading r got)
    (hfed : Fed onEof (recvMessage json) used r got)
    (hbytes : used ++ conn.toServer ++ unsent = bytes) (hserved : conn.served = n)
    (hclient : conn.toClient = [])
    (htaken : taken = []) : Stage json cpp h c n since req id bytes unsent taken conn' := by
  subst hserved
  cases hs with
  | recv hreading hchunk hne hle =>
    rw [hhandler] at hreading
    cases hreading
    refine .reading rfl (hfed.recv hle) ?_ rfl hclient htaken
    rw [← hbytes, hchunk, List.append_assoc used]
  | collect hreading hlen =>
    rw [hhandler] at hreading
    cases hreading
    exact .reading rfl (hfed.collect hlen) hbytes rfl hclient htaken
  | eof hreading hlt hnil hclosed =>
    rw [hopen] at hclosed
    cases hclosed
  | recvError hreading hlt => exact .silent rfl hclient htaken
  | exc hreading =>
    rename_i e _
    cases e with
    | protocolError message =>
      rcases startReply_cases (σ := σ) json conn.served
        (errorReply .null "protocol_error" message, []) false with
        ⟨reply, hsent, hstart⟩ | hstart
      · refine .refusing (hstart) hsent ?_
        simp only [hclient, htaken, List.map_nil, List.append_nil, List.nil_append]
      · exact .silent hstart hclient htaken
    | _ => exact .silent rfl hclient htaken
  -- the whole request is read: what was decoded is the request, and nothing is behind it
  | message hreading =>
    rw [hhandler] at hreading
    cases hreading
    rw [List.append_assoc] at hbytes
    obtain ⟨hnil, hdecodes⟩ :=
      recvMessage_requestFrame hcheck hframe (hbytes ▸ hfed.done (conn.toServer ++ unsent))
    obtain ⟨hserver, hunsent⟩ := List.append_eq_nil_iff.mp hnil
    rename_i m
    by_cases hop : missingOp m.1
    · have hafter : (afterMessage json conn.served m : Handler σ) =
          startReply json conn.served (errorReply (requestId m.1) "invalid_request" "missing op",
            []) true := if_pos hop
      rcases startReply_cases (σ := σ) json conn.served
        (errorReply (requestId m.1) "invalid_request" "missing op", []) true
        with ⟨reply, hsent, hstart⟩ | hstart
      · refine .replying (hafter.trans hstart) (.refused hsent) ?_ hserver hunsent rfl
        simp only [hclient, htaken, List.map_nil, List.append_nil, List.nil_append]
      · exact .silent (hafter.trans hstart) hclient htaken
    · exact .held (.inl (if_neg hop)) hdecodes hserver hunsent rfl hclient htaken
  -- a handler that reads sends nothing
  | send hsending hne =>
    rw [hhandler] at hsending
    cases hsending
  | sendError hsending hne =>
    rw [hhandler] at hsending
    cases hsending
  | sent hsending =>
    rw [hhandler] at hsending
    cases hsending

theorem map_snd_chunk (n : Nat) (chunk : List Byte) :
    (chunk.map (Prod.mk n)).map Prod.snd = chunk := by
  rw [List.map_map]
  exact List.map_id chunk

/-- The handler sends the answer. -/
theorem ConnStep.stage_sending (hs : ConnStep json conn conn')
    {rest reply : List Byte} {again : Bool}
    (hhandler : conn.handler = .sending n rest again)
    (hanswer : Answer json cpp h c n since req id reply)
    (hbytes : taken ++ conn.toClient.map Prod.snd ++ rest = reply)
    (hagain : again = true → conn.toServer = [] ∧ unsent = [] ∧ conn.served = n + 1)
    (hrefused : again = false → ∃ rid code message,
      sendMessage json (errorReply rid code message, []) = .ok reply) :
    Stage json cpp h c n since req id bytes unsent taken conn' := by
  cases hs with
  | send hsending hne =>
    rw [hhandler] at hsending
    obtain ⟨rfl, rfl, rfl⟩ := Handler.sending.inj hsending
    rename_i chunk rest
    have hbytes' : taken ++ (conn.toClient ++ chunk.map (Prod.mk n)).map Prod.snd ++
        rest = reply := by
      rw [List.map_append, map_snd_chunk, ← hbytes]
      simp only [List.append_assoc]
    cases again with
    | true =>
      obtain ⟨hserver, hunsent, hserved⟩ := hagain rfl
      exact .replying rfl hanswer hbytes' hserver hunsent hserved
    | false =>
      obtain ⟨rid, code, message, hsent⟩ := hrefused rfl
      exact .refusing rfl hsent hbytes'
  | sendError hsending hne => exact .cut rfl hanswer ⟨rest, hbytes⟩
  | sent hsending =>
    rw [hhandler] at hsending
    obtain ⟨rfl, rfl, rfl⟩ := Handler.sending.inj hsending
    rw [List.append_nil] at hbytes
    cases again with
    | true =>
      obtain ⟨hserver, hunsent, hserved⟩ := hagain rfl
      exact .replied rfl hanswer hbytes hserver hunsent hserved
    | false => exact .cut rfl hanswer ⟨[], by rw [List.append_nil]; exact hbytes⟩
  | recv hreading | collect hreading | eof hreading
  | recvError hreading | exc hreading | message hreading =>
    rw [hhandler] at hreading
    cases hreading

/-- Every step of the handler keeps the exchange. -/
theorem ConnStep.stage (hs : ConnStep json conn conn') (hopen : conn.clientClosed = false)
    (hcheck : req.check = .ok fields) (hframe : requestFrame cpp fields req id = .ok bytes)
    (hstage : Stage json cpp h c n since req id bytes unsent taken conn) :
    Stage json cpp h c n since req id bytes unsent taken conn' := by
  cases hstage with
  | looping hhandler hbytes hserved hclient htaken =>
    cases hs with
    | sent hsending =>
      rw [hhandler] at hsending
      obtain ⟨rfl, -, rfl⟩ := Handler.sending.inj hsending
      exact .reading rfl (.start _ _) hbytes hserved hclient htaken
    | send hsending hne =>
      rw [hhandler] at hsending
      exact absurd (List.append_eq_nil_iff.mp (Handler.sending.inj hsending).2.1.symm).1 hne
    | sendError hsending hne =>
      rw [hhandler] at hsending
      exact absurd (Handler.sending.inj hsending).2.1.symm hne
    | recv hreading | collect hreading | eof hreading
    | recvError hreading | exc hreading | message hreading =>
      rw [hhandler] at hreading
      cases hreading
  | reading hhandler hfed hbytes hserved hclient htaken =>
    exact hs.stage_reading hopen hcheck hframe hhandler hfed hbytes hserved hclient htaken
  | held hhandler hdecodes hserver hunsent hserved hclient htaken =>
    -- the steps of an execution are not steps of the connection
    rcases hhandler with hhandler | ⟨rest, hhandler⟩ <;> cases hs <;> simp_all
  | replying hhandler hanswer hbytes hserver hunsent hserved =>
    exact hs.stage_sending hhandler hanswer hbytes (fun _ => ⟨hserver, hunsent, hserved⟩)
      (fun hfalse => by cases hfalse)
  | refusing hhandler hsent hbytes =>
    exact hs.stage_sending hhandler (.refused hsent) hbytes (fun htrue => by cases htrue) (fun _ =>
      ⟨_, _, _, hsent⟩)
  | replied hhandler hanswer hbytes hserver hunsent hserved =>
    obtain ⟨k₀, hstart⟩ := recvMessage_eq_read json
    cases hs with
    | recvError hreading hlt => exact .cut rfl hanswer ⟨[], by rw [List.append_nil]; exact hbytes⟩
    | recv hreading hchunk hne hle =>
      rw [hserver] at hchunk
      exact absurd (List.append_eq_nil_iff.mp hchunk.symm).1 hne
    | collect hreading hlen =>
      rw [hhandler, hstart] at hreading
      cases hreading
      cases hlen
    | eof hreading hlt hnil hclosed =>
      rw [hopen] at hclosed
      cases hclosed
    | exc hreading | message hreading =>
      rw [hhandler, hstart] at hreading
      cases hreading
    | send hsending | sendError hsending | sent hsending =>
      rw [hhandler] at hsending
      cases hsending
  | silent hhandler hclient htaken => cases hs <;> simp_all
  | cut hhandler hanswer hle => cases hs <;> simp_all

/-- The handler only sends bytes that answer the frame of the call. -/
theorem ConnStep.labels (hs : ConnStep json conn conn')
    (hstage : Stage json cpp h c n since req id bytes unsent taken conn)
    (hlabels : ∀ x ∈ conn.toClient, x.1 = n) : ∀ x ∈ conn'.toClient, x.1 = n := by
  cases hs with
  | send hsending hne =>
    rename_i frame chunk rest again
    have hframe : frame = n := by
      cases hstage with
      | looping hhandler =>
        rw [hhandler] at hsending
        exact absurd (List.append_eq_nil_iff.mp (Handler.sending.inj hsending).2.1.symm).1 hne
      | replying hhandler =>
        rw [hhandler] at hsending
        exact (Handler.sending.inj hsending).1.symm
      | refusing hhandler =>
        rw [hhandler] at hsending
        exact (Handler.sending.inj hsending).1.symm
      | held hhandler =>
        rcases hhandler with hhandler | ⟨rest, hhandler⟩
        · rw [hhandler] at hsending
          cases hsending
        · rw [hhandler] at hsending
          cases hsending
      | reading hhandler | replied hhandler | silent hhandler | cut hhandler =>
        rw [hhandler] at hsending
        cases hsending
    intro x hx
    rcases List.mem_append.mp hx with hold | hnew
    · exact hlabels x hold
    · obtain ⟨b, -, rfl⟩ := List.mem_map.mp hnew
      exact hframe
  | _ => exact hlabels

theorem ConnStep.begun (hs : ConnStep json conn conn') :
    conn'.begun = conn.begun ∧ conn'.clientClosed = conn.clientClosed := by
  cases hs <;> exact ⟨rfl, rfl⟩

theorem ConnStep.phaseOk (hs : ConnStep json conn conn')
    (hopen : conn.clientClosed = false) {phase : Phase}
    (hp : PhaseOk json cpp h i c phase conn) : PhaseOk json cpp h i c phase conn' := by
  have hengaged : ∀ {call id : Nat} {unsent taken : List Byte},
      Engaged json cpp h i call id c unsent taken conn →
      Engaged json cpp h i call id c unsent taken conn' := by
    rintro call id unsent taken ⟨req, fields, bytes, n, b, hcall, hcheck, hframe, hb, hlt, hbegun,
      hlabels, hstage⟩
    exact ⟨req, fields, bytes, n, b, hcall, hcheck, hframe, hb, hlt, hs.begun.1.trans hbegun,
      hs.labels hstage hlabels, hs.stage hopen hcheck hframe hstage⟩
  cases phase with
  | sending call id rest => exact hengaged hp
  | receiving call id r got =>
    obtain ⟨taken, hfed, he⟩ := hp
    exact ⟨taken, hfed, hengaged he⟩
  | _ => exact hs.quiet hopen hp

/-! ### Executions -/

theorem Quiet.not_busy (hq : Quiet json conn) {m : Message} :
    conn.handler ≠ .dispatching m ∧ ∀ rest, conn.handler ≠ .executing m rest := by
  obtain ⟨-, hended | ⟨-, -, hreading | ⟨n, hsending⟩⟩⟩ := hq <;> simp_all

theorem Stage.of_busy (hstage : Stage json cpp h c n since req id bytes unsent taken conn)
    {m : Message}
    (hbusy : conn.handler = .dispatching m ∨ ∃ rest, conn.handler = .executing m rest) :
    Decodes json cpp req id m ∧ conn.toServer = [] ∧ unsent = [] ∧ conn.served = n + 1 ∧
      conn.toClient = [] ∧ taken = [] := by
  cases hstage with
  | held hhandler hdecodes hserver hunsent hserved hclient htaken =>
    rename_i m'
    have hm : m' = m := by
      rcases hhandler with hhandler | ⟨rest, hhandler⟩ <;> rcases hbusy with hbusy |
        ⟨rest', hbusy⟩ <;>
        rw [hhandler] at hbusy <;> cases hbusy <;> rfl
    exact ⟨hm ▸ hdecodes, hserver, hunsent, hserved, hclient, htaken⟩
  | looping hhandler | reading hhandler | replying hhandler
  | refusing hhandler | replied hhandler | silent hhandler
  | cut hhandler =>
    rcases hbusy with hbusy | ⟨rest, hbusy⟩
    · rw [hhandler] at hbusy
      cases hbusy
    · rw [hhandler] at hbusy
      cases hbusy

/-- The handler takes the lock, or acts while it has it. -/
theorem PhaseOk.execute {phase : Phase} (hp : PhaseOk json cpp h i c phase conn) {m : Message}
    (hbusy : conn.handler = .dispatching m ∨ ∃ rest, conn.handler = .executing m rest)
    (rest : Body σ Outcome) :
    PhaseOk json cpp h i c phase { conn with handler := .executing m rest } := by
  have hengaged : ∀ {call id : Nat} {unsent taken : List Byte},
      Engaged json cpp h i call id c unsent taken conn →
      Engaged json cpp h i call id c unsent taken { conn with handler := .executing m rest } := by
    rintro call id unsent taken ⟨req, fields, bytes, n, b, hcall, hcheck, hframe, hb, hlt, hbegun,
      hlabels, hstage⟩
    obtain ⟨hdecodes, hserver, hunsent, hserved, hclient, htaken⟩ := hstage.of_busy hbusy
    exact ⟨req, fields, bytes, n, b, hcall, hcheck, hframe, hb, hlt, hbegun, hlabels,
      .held (.inr ⟨rest, rfl⟩) hdecodes hserver hunsent hserved hclient htaken⟩
  have hquiet : Quiet json conn → False := by
    intro hq
    rcases hbusy with hbusy | ⟨rest', hbusy⟩
    · exact hq.not_busy.1 hbusy
    · exact hq.not_busy.2 rest' hbusy
  cases phase with
  | sending call id rest => exact hengaged hp
  | receiving call id r got =>
    obtain ⟨taken, hfed, he⟩ := hp
    exact ⟨taken, hfed, hengaged he⟩
  | _ => exact (hquiet hp).elim

/-- The execution ends, and its answer is the answer to the call. -/
theorem PhaseOk.release {phase : Phase} (hp : PhaseOk json cpp h i c phase conn) {m : Message}
    {outcome : Outcome} (hbusy : conn.handler = .executing m (.ret outcome)) :
    PhaseOk (σ := σ) json cpp (h ++ [.executed c (conn.served - 1) m outcome]) i c phase
      { conn with handler := startReply json (conn.served - 1) (response m outcome) true } := by
  have hengaged : ∀ {call id : Nat} {unsent taken : List Byte},
      Engaged json cpp h i call id c unsent taken conn →
      Engaged (σ := σ) json cpp (h ++ [.executed c (conn.served - 1) m outcome]) i call
        id c unsent taken
        { conn with handler := startReply json (conn.served - 1) (response m outcome) true } := by
    rintro call id unsent taken ⟨req, fields, bytes, n, b, hcall, hcheck, hframe, hb, hlt, hbegun,
      hlabels, hstage⟩
    obtain ⟨hdecodes, hserver, hunsent, hserved, hclient, htaken⟩ :=
      hstage.of_busy (.inr ⟨_, hbusy⟩)
    have hn : conn.served - 1 = n := by omega
    refine ⟨req, fields, bytes, n, b, getElem?_append_some hcall, hcheck, hframe,
      getElem?_append_some hb, hlt, hbegun, hlabels, ?_⟩
    rw [hn]
    have hexecuted : (h ++ [Event.executed c n m outcome])[h.length]? =
        some (.executed c n m outcome) := by
      rw [List.getElem?_append_right (Nat.le_refl _), Nat.sub_self]
      rfl
    have hafter : b < h.length := (List.getElem?_eq_some_iff.mp hb).1
    rcases startReply_cases (σ := σ) json n (response m outcome) true
      with ⟨reply, hsent, hstart⟩ | hstart
    · refine .replying hstart (.executed hexecuted hafter hdecodes hsent) ?_ hserver hunsent hserved
      simp only [hclient, htaken, List.map_nil, List.append_nil, List.nil_append]
    · exact .silent hstart hclient htaken
  cases phase with
  | sending call id rest => exact hengaged hp
  | receiving call id r got =>
    obtain ⟨taken, hfed, he⟩ := hp
    exact ⟨taken, hfed, hengaged he⟩
  | _ => exact (Quiet.not_busy hp |>.2 _ hbusy).elim

/-! ### Clients -/

/-- The client sends a piece of the request. -/
theorem Stage.send {chunk rest : List Byte} (hne : chunk ≠ [])
    (hstage : Stage json cpp h c n since req id bytes (chunk ++ rest) taken conn) :
    Stage json cpp h c n since req id bytes rest taken
      { conn with toServer := conn.toServer ++ chunk } := by
  have hsent : chunk ++ rest ≠ [] := fun hnil => hne (List.append_eq_nil_iff.mp hnil).1
  cases hstage with
  | looping hhandler hbytes hserved hclient htaken =>
    refine .looping hhandler ?_ hserved hclient htaken
    rw [← hbytes, List.append_assoc]
  | reading hhandler hfed hbytes hserved hclient htaken =>
    refine .reading hhandler hfed ?_ hserved hclient htaken
    rw [← hbytes]
    simp only [List.append_assoc]
  | held _ _ _ hunsent => exact absurd hunsent hsent
  | replying _ _ _ _ hunsent => exact absurd hunsent hsent
  | refusing hhandler hreply hbytes => exact .refusing hhandler hreply hbytes
  | replied _ _ _ _ hunsent => exact absurd hunsent hsent
  | silent hhandler hclient htaken => exact .silent hhandler hclient htaken
  | cut hhandler hanswer hle => exact .cut hhandler hanswer hle

/-- The client takes a piece of the answer. -/
theorem Stage.recv {chunk rest : List (Nat × Byte)} (hclient : conn.toClient = chunk ++ rest)
    (hne : chunk ≠ []) (hstage : Stage json cpp h c n since req id bytes unsent taken conn) :
    Stage json cpp h c n since req id bytes unsent (taken ++ chunk.map Prod.snd)
      { conn with toClient := rest } := by
  have hsome : conn.toClient ≠ [] := by
    rw [hclient]
    exact fun hnil => hne (List.append_eq_nil_iff.mp hnil).1
  have hmap : taken ++ chunk.map Prod.snd ++ rest.map Prod.snd =
      taken ++ conn.toClient.map Prod.snd := by
    rw [hclient, List.map_append, List.append_assoc]
  cases hstage with
  | looping _ _ _ hnil => exact absurd hnil hsome
  | reading _ _ _ _ hnil => exact absurd hnil hsome
  | held _ _ _ _ _ hnil => exact absurd hnil hsome
  | replying hhandler hanswer hbytes hserver hunsent hserved =>
    exact .replying hhandler hanswer (by rw [hmap, hbytes]) hserver hunsent hserved
  | refusing hhandler hsent hbytes => exact .refusing hhandler hsent (by rw [hmap, hbytes])
  | replied hhandler hanswer hbytes hserver hunsent hserved =>
    exact .replied hhandler hanswer (by rw [hmap, hbytes]) hserver hunsent hserved
  | silent _ hnil => exact absurd hnil hsome
  | cut hhandler hanswer hle => exact .cut hhandler hanswer (by rw [hmap]; exact hle)

theorem LinkStep.phaseOk {phase phase' : Phase} (hs : LinkStep cpp (phase, conn) (phase', conn'))
    (hp : PhaseOk json cpp h i c phase conn) : PhaseOk json cpp h i c phase' conn' := by
  cases hs with
  | send hne =>
    obtain ⟨req, fields, bytes, n, b, hcall, hcheck, hframe, hb, hlt, hbegun, hlabels, hstage⟩ := hp
    exact ⟨req, fields, bytes, n, b, hcall, hcheck, hframe, hb, hlt, hbegun, hlabels,
      hstage.send hne⟩
  | sent => exact ⟨[], .start _ _, hp⟩
  | recv hclient hne hle =>
    obtain ⟨taken, hfed, req, fields, bytes, n, b, hcall, hcheck, hframe, hb, hlt, hbegun,
      hlabels, hstage⟩ := hp
    refine ⟨_, hfed.recv hle, req, fields, bytes, n, b, hcall, hcheck, hframe, hb, hlt, hbegun, ?_,
      hstage.recv hclient hne⟩
    exact fun x hx => hlabels x (hclient ▸ List.mem_append_right _ hx)
  | collect hlen =>
    obtain ⟨taken, hfed, hengaged⟩ := hp
    exact ⟨taken, hfed.collect hlen, hengaged⟩

/-- The client starts to send a request on a quiet connection. -/
theorem Quiet.begin (hq : Quiet json conn) {call : Nat} (hcall : h[call]? = some (.called i req))
    (hcheck : req.check = .ok fields) (hframe : requestFrame cpp fields req id = .ok bytes) :
    Engaged json cpp (h ++ [.began i call c conn.begun id]) i call id c bytes []
      { conn with begun := conn.begun + 1 } := by
  have hbegan : (h ++ [Event.began i call c conn.begun id])[h.length]? =
      some (.began i call c conn.begun id) := by
    rw [List.getElem?_append_right (Nat.le_refl _), Nat.sub_self]
    rfl
  obtain ⟨hclient, hstate⟩ := hq
  refine ⟨req, fields, bytes, conn.begun, h.length, getElem?_append_some hcall,
    hcheck, hframe, hbegan, (List.getElem?_eq_some_iff.mp hcall).1, rfl, ?_, ?_⟩
  · intro x hx
    rw [hclient] at hx
    cases hx
  · rcases hstate with hended | ⟨hserver, hserved, hreading | ⟨m, hsending⟩⟩
    · exact .silent hended hclient rfl
    · refine .reading hreading (.start _ _) ?_ hserved hclient rfl
      rw [hserver]
      rfl
    · refine .looping hsending ?_ hserved hclient rfl
      rw [hserver]
      rfl

/-- A response that is read to its end is an answer, and the connection is quiet again
    unless the call throws. -/
theorem Stage.finish (hjson : Interoperable json cpp) (hbegun : conn.begun = n + 1)
    (hstage : Stage json cpp h c n since req id bytes unsent taken conn) {x : Dict × List Byte}
    {got : List Byte} (hfed : Fed onClientEof (recvResponse cpp id) taken (.done x) got) :
    (∃ message, conclude x.1 x.2 = .error (.rpcError message)) ∨
      Quiet json conn ∧ ∃ y m result r,
        h[y]? = some (.executed c n m (.ok (result, x.2))) ∧ since < y ∧
        Decodes json cpp req id m ∧ conclude x.1 x.2 = .ok ⟨r, x.2⟩ ∧
        SameJson cpp.toDouble (.obj result) r := by
  -- not one byte of an answer was taken before there was one
  have hsome : taken ≠ [] := by
    rintro rfl
    have hrun := hfed.done []
    rw [List.append_nil, recvResponse, readFrame_nil] at hrun
    cases hrun
  have herror : ∀ {rid code message rest},
      sendMessage json (errorReply rid code message, []) = .ok (taken ++ rest) →
      ∃ message, conclude x.1 x.2 = .error (.rpcError message) := by
    intro rid code message rest hsent
    obtain ⟨-, hsame, -⟩ := recvResponse_sendMessage hjson hsent (hfed.done rest)
    exact ⟨_, conclude_errorReply hsame x.2⟩
  -- all of the answer was taken
  have hanswer : ∀ {rest}, Answer json cpp h c n since req id (taken ++ rest) →
      (∃ message, conclude x.1 x.2 = .error (.rpcError message)) ∨
        rest = [] ∧ ∃ y m result r, h[y]? = some (.executed c n m (.ok (result, x.2))) ∧ since < y ∧
          Decodes json cpp req id m ∧ conclude x.1 x.2 = .ok ⟨r, x.2⟩ ∧
          SameJson cpp.toDouble (.obj result) r := by
    intro rest ha
    cases ha with
    | refused hsent => exact .inl (herror hsent)
    | executed hy hsince hdecodes hsent =>
      rename_i y m outcome
      cases outcome with
      | error e => cases e <;> exact .inl (herror hsent)
      | ok ran =>
        obtain ⟨result, payload⟩ := ran
        obtain ⟨hrest, hsame, hpayload⟩ := recvResponse_sendMessage hjson hsent (hfed.done rest)
        obtain ⟨r, hconclude, hresult⟩ := conclude_okReply hsame x.2
        have hpayload : x.2 = payload := hpayload
        exact .inr ⟨hrest, y, m, result, r, hpayload ▸ hy, hsince, hdecodes, hconclude, hresult⟩
  -- the stages before an answer contradict `hsome`
  cases hstage with
  | looping _ _ _ _ htaken => exact absurd htaken hsome
  | reading _ _ _ _ _ htaken => exact absurd htaken hsome
  | held _ _ _ _ _ _ htaken => exact absurd htaken hsome
  | silent _ _ htaken => exact absurd htaken hsome
  | replying hhandler ha hbytes hserver hunsent hserved =>
    rw [← hbytes, List.append_assoc] at ha
    rcases hanswer ha with herr | ⟨hnil, hexec⟩
    · exact .inl herr
    · obtain ⟨hclient, rfl⟩ := List.append_eq_nil_iff.mp hnil
      exact .inr ⟨⟨List.map_eq_nil_iff.mp hclient,
        .inr ⟨hserver, hserved.trans hbegun.symm, .inr ⟨n, hhandler⟩⟩⟩, hexec⟩
  | refusing hhandler hsent hbytes =>
    rw [← hbytes, List.append_assoc] at hsent
    exact .inl (herror hsent)
  | replied hhandler ha hbytes hserver hunsent hserved =>
    rw [← hbytes] at ha
    rcases hanswer ha with herr | ⟨hnil, hexec⟩
    · exact .inl herr
    · exact .inr ⟨⟨List.map_eq_nil_iff.mp hnil,
        .inr ⟨hserver, hserved.trans hbegun.symm, .inl hhandler⟩⟩, hexec⟩
  | cut hhandler ha hle =>
    obtain ⟨rest, rfl⟩ := hle
    rw [List.append_assoc] at ha
    rcases hanswer ha with herr | ⟨hnil, hexec⟩
    · exact .inl herr
    · exact .inr ⟨⟨List.map_eq_nil_iff.mp (List.append_eq_nil_iff.mp hnil).1, .inl hhandler⟩, hexec⟩

end

end Wire
