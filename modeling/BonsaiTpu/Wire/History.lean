-- SUMMARY: What stays true of all connections, of the calls and of the executions in the history, step by step.
import BonsaiTpu.Wire.Exchange

/-!
# Invariants of the system

Three parts: every client is in step with its connection (`Links`), the history says how
calls began and ended (`Calls`), and executions are serial (`Executions`). A step changes
one client and one connection at most, and records one event at most; the lemmas here
say what is left to show for each part.
-/

namespace Wire

open Words (Byte)
open ByteReader (Fed)

variable {σ : Type} {json : JsonText} {cpp : CppJson} {body : Message → Body σ Outcome}

/-! ## All connections -/

section

variable (json) (cpp)

/-- Every client is in step with its connection, which no other client has. -/
structure Links (s : System σ) : Prop where
  link : ∀ i, Link json cpp s.history i (s.clients i) s.conns
  opened : ∀ i c, (s.clients i).fd = some c → c < s.fresh ∧ (s.conns c).clientClosed = false
  owner : ∀ i j c, (s.clients i).fd = some c → (s.clients j).fd = some c → i = j
  unborn : ∀ c, s.fresh ≤ c → s.conns c = Conn.new json

end

theorem Link.mono {h : List Event} {i : Nat} {cl : Client} {conns : Nat → Conn σ} (l : List Event)
    (hl : Link json cpp h i cl conns) : Link json cpp (h ++ l) i cl conns := by
  rw [Link] at hl ⊢
  split at hl
  · exact hl
  · exact PhaseOk.mono l hl

/-- Only the connection of a client matters for it. -/
theorem Link.congr {h : List Event} {i : Nat} {cl : Client} {conns conns' : Nat → Conn σ}
    (hl : Link json cpp h i cl conns)
    (heq : ∀ c, cl.fd = some c → conns' c = conns c) : Link json cpp h i cl conns' := by
  rw [Link] at hl ⊢
  split at hl
  · exact hl
  · next c hfd =>
    rw [heq c hfd]
    exact hl

theorem Links.phaseOk {s : System σ} (hl : Links json cpp s) {i c : Nat}
    (hfd : (s.clients i).fd = some c) :
    PhaseOk json cpp s.history i c (s.clients i).phase (s.conns c) := by
  have hlink := hl.link i
  rw [Link, hfd] at hlink
  exact hlink

/-- A client and one connection change. -/
theorem Links.edit {s s' : System σ} (hl : Links json cpp s) {i c : Nat} {cl : Client}
    {conn : Conn σ} {l : List Event}
    (hclients : s'.clients = Function.update s.clients i cl)
    (hconns : s'.conns = Function.update s.conns c conn)
    (hfresh : s'.fresh = s.fresh) (hhistory : s'.history = s.history ++ l)
    (hc : c < s.fresh ∨ conn = s.conns c) (hown : ∀ j, (s.clients j).fd = some c → j = i)
    (hfd : ∀ d, cl.fd = some d → d < s.fresh ∧ (s'.conns d).clientClosed = false ∧ ∀ j,
      (s.clients j).fd = some d → j = i)
    (hlink : Link json cpp s'.history i cl s'.conns) : Links json cpp s' where
  -- only client `i` has changed, and no other one is over connection `c`
  link j := by
    by_cases hj : j = i
    · subst hj
      rw [hclients, Function.update_self]
      exact hlink
    · rw [hclients, Function.update_of_ne hj, hhistory]
      refine ((hl.link j).mono l).congr fun d hd => ?_
      have hne : d ≠ c := fun heq => hj (hown j (heq ▸ hd))
      rw [hconns, Function.update_of_ne hne]
  opened j d hd := by
    rw [hclients] at hd
    by_cases hj : j = i
    · subst hj
      rw [Function.update_self] at hd
      obtain ⟨hlt, hopen, -⟩ := hfd d hd
      exact ⟨hfresh ▸ hlt, hopen⟩
    · rw [Function.update_of_ne hj] at hd
      have hne : d ≠ c := fun heq => hj (hown j (heq ▸ hd))
      rw [hfresh, hconns, Function.update_of_ne hne]
      exact hl.opened j d hd
  owner j k d hj hk := by
    rw [hclients] at hj hk
    by_cases hji : j = i
    · subst hji
      by_cases hkj : k = j
      · exact hkj.symm
      · rw [Function.update_self] at hj
        rw [Function.update_of_ne hkj] at hk
        exact ((hfd d hj).2.2 k hk).symm
    · rw [Function.update_of_ne hji] at hj
      by_cases hki : k = i
      · subst hki
        rw [Function.update_self] at hk
        exact (hfd d hk).2.2 j hj
      · rw [Function.update_of_ne hki] at hk
        exact hl.owner j k d hj hk
  unborn d hd := by
    rw [hfresh] at hd
    rcases hc with hc | hc
    · rw [hconns, Function.update_of_ne (by omega)]
      exact hl.unborn d hd
    · rw [hconns, hc, Function.update_eq_self]
      exact hl.unborn d hd

/-- A handler changes its connection. -/
theorem Links.handler {s s' : System σ} (hl : Links json cpp s) {c : Nat} {conn : Conn σ}
    {l : List Event}
    (hclients : s'.clients = s.clients) (hconns : s'.conns = Function.update s.conns c conn)
    (hfresh : s'.fresh = s.fresh) (hhistory : s'.history = s.history ++ l) (hc : c < s.fresh)
    (hclosed : conn.clientClosed = (s.conns c).clientClosed)
    (hphase : ∀ i phase, (s.conns c).clientClosed = false →
      PhaseOk json cpp s.history i c phase (s.conns c) →
      PhaseOk json cpp s'.history i c phase conn) : Links json cpp s' := by
  -- the client to look at is the one that has the connection, if there is one
  obtain ⟨i, hown⟩ : ∃ i, ∀ j, (s.clients j).fd = some c → j = i := by
    by_cases hsome : ∃ i, (s.clients i).fd = some c
    · obtain ⟨i, hi⟩ := hsome
      exact ⟨i, fun j hj => hl.owner j i c hj hi⟩
    · exact ⟨0, fun j hj => absurd ⟨j, hj⟩ hsome⟩
  have hconn : ∀ d, (s'.conns d).clientClosed = (s.conns d).clientClosed := by
    intro d
    by_cases hd : d = c
    · subst hd
      rw [hconns, Function.update_self, hclosed]
    · rw [hconns, Function.update_of_ne hd]
  have hsame : s'.clients = Function.update s.clients i (s.clients i) := by
    rw [hclients, Function.update_eq_self]
  refine hl.edit hsame hconns hfresh hhistory (.inl hc) hown ?_ ?_
  · exact fun d hd =>
      ⟨(hl.opened i d hd).1, (hconn d).trans (hl.opened i d hd).2, fun j hj => hl.owner j i d hj hd⟩
  · by_cases hfd : (s.clients i).fd = some c
    · have hp := hphase i _ (hl.opened i c hfd).2 (hl.phaseOk hfd)
      rw [Link, hfd]
      simp only
      rw [hconns, Function.update_self]
      exact hp
    · rw [hhistory]
      refine ((hl.link i).mono l).congr fun d hd => ?_
      have hne : d ≠ c := fun heq => hfd (heq ▸ hd)
      rw [hconns, Function.update_of_ne hne]

/-- The client changes, with the connection that it keeps. -/
theorem Links.client {s s' : System σ} (hl : Links json cpp s) {i c : Nat} {cl : Client}
    {conn : Conn σ} {l : List Event}
    (hclients : s'.clients = Function.update s.clients i cl)
    (hconns : s'.conns = Function.update s.conns c conn)
    (hfresh : s'.fresh = s.fresh) (hhistory : s'.history = s.history ++ l)
    (hfd : (s.clients i).fd = some c)
    (hkept : cl.fd = some c) (hclosed : conn.clientClosed = (s.conns c).clientClosed)
    (hphase : PhaseOk json cpp s'.history i c cl.phase conn) : Links json cpp s' := by
  obtain ⟨hlt, hopen⟩ := hl.opened i c hfd
  have hown : ∀ j, (s.clients j).fd = some c → j = i := fun j hj => hl.owner j i c hj hfd
  have hconn : s'.conns c = conn := by rw [hconns, Function.update_self]
  refine hl.edit hclients hconns hfresh hhistory (.inl hlt) hown ?_ ?_
  · intro d hd
    rw [hkept] at hd
    obtain rfl := Option.some.inj hd
    exact ⟨hlt, by rw [hconn, hclosed, hopen], hown⟩
  · rw [Link, hkept]
    simp only
    rw [hconn]
    exact hphase

/-- The client changes, and no connection does. -/
theorem Links.alone {s s' : System σ} (hl : Links json cpp s) {i : Nat} {cl : Client}
    {l : List Event}
    (hclients : s'.clients = Function.update s.clients i cl) (hconns : s'.conns = s.conns)
    (hfresh : s'.fresh = s.fresh) (hhistory : s'.history = s.history ++ l)
    (hfd : ∀ c, cl.fd = some c → (s.clients i).fd = some c)
    (hlink : Link json cpp s'.history i cl s.conns) : Links json cpp s' := by
  have hsame : s'.conns = Function.update s.conns s.fresh (s.conns s.fresh) := by
    rw [hconns, Function.update_eq_self]
  refine hl.edit hclients hsame hfresh hhistory (.inr rfl) ?_ ?_ (hconns ▸ hlink)
  · exact fun j hj => absurd (hl.opened j _ hj).1 (Nat.lt_irrefl _)
  · exact fun d hd => ⟨(hl.opened i d (hfd d hd)).1, hconns ▸ (hl.opened i d (hfd d hd)).2,
      fun j hj => hl.owner j i d hj (hfd d hd)⟩

/-! ## Calls -/

/-- The client an event is about. -/
def Event.client? : Event → Option Nat
  | .called i _ => some i
  | .began i _ _ _ _ => some i
  | .executed _ _ _ _ => none
  | .returned i _ _ => some i
  | .threw i _ _ => some i

/-- No call of the client is later than this one. -/
def Last (h : List Event) (i call : Nat) : Prop :=
  ∀ (e : Nat) (req : Request), h[e]? = some (.called i req) → e ≤ call

/-- The call has sent nothing. -/
def Unbegun (h : List Event) (i call : Nat) : Prop :=
  ∀ b c n id : Nat, h[b]? ≠ some (.began i call c n id)

def CallOk (h : List Event) (i : Nat) : Phase → Prop
  | .idle => True
  | .started call req => h[call]? = some (.called i req) ∧ Last h i call ∧ Unbegun h i call
  | .framing call req fields _ =>
    h[call]? = some (.called i req) ∧ Last h i call ∧ Unbegun h i call ∧ req.check = .ok fields
  | .sending call _ _ => Last h i call
  | .receiving call _ _ _ => Last h i call

/-- The call was answered by an execution of its request, between the call and its return. -/
def Answered (json : JsonText) (cpp : CppJson) (h : List Event) (i call t : Nat)
    (r : RpcResponse) : Prop :=
  ∃ req id c n b x m result, h[call]? = some (.called i req) ∧ h[b]? = some (.began i call c n id) ∧
    call < b ∧ b < x ∧
    x < t ∧ h[x]? = some (.executed c n m (.ok (result, r.payload))) ∧ Decodes json cpp req id m ∧
    SameJson cpp.toDouble (.obj result) r.result

section

variable (json) (cpp)

/-- What the history says about calls. -/
structure Calls (s : System σ) : Prop where
  ok : ∀ i, CallOk s.history i (s.clients i).phase
  beganLt : ∀ b i call c n id : Nat, s.history[b]? = some (.began i call c n id) → call < b
  beganOnce : ∀ b b' i call c n id c' n' id' : Nat, s.history[b]? = some (.began i call c n id) →
    s.history[b']? = some (.began i call c' n' id') → b = b'
  answered : ∀ (t i call : Nat) (r : RpcResponse), s.history[t]? = some (.returned i call r) →
    Answered json cpp s.history i call t r
  ordered : ∀ (t i call : Nat) (r : RpcResponse), s.history[t]? = some (.returned i call r) →
    ∀ (e : Nat) (req : Request), s.history[e]? = some (.called i req) → call < e → t < e

end

section

variable {h : List Event} {e : Event} {i x : Nat}

theorem getElem?_log {e' : Event} (hx : (h ++ [e])[x]? = some e') :
    h[x]? = some e' ∨ x = h.length ∧ e' = e := by
  by_cases hlt : x < h.length
  · rw [List.getElem?_append_left hlt] at hx
    exact .inl hx
  · have hx' := (List.getElem?_eq_some_iff.mp hx).1
    rw [List.length_append, List.length_singleton] at hx'
    obtain rfl : x = h.length := by omega
    rw [List.getElem?_append_right (Nat.le_refl _), Nat.sub_self] at hx
    exact .inr ⟨rfl, (Option.some.inj hx).symm⟩

theorem Last.log (hl : Last h i x) (he : ∀ req, e ≠ .called i req) : Last (h ++ [e]) i x := by
  intro a req ha
  rcases getElem?_log ha with hold | ⟨-, hnew⟩
  · exact hl a req hold
  · exact absurd hnew.symm (he req)

theorem Unbegun.log (hu : Unbegun h i x) (he : ∀ c n id, e ≠ .began i x c n id) :
    Unbegun (h ++ [e]) i x := by
  intro b c n id hb
  rcases getElem?_log hb with hold | ⟨-, hnew⟩
  · exact hu b c n id hold
  · exact he c n id hnew.symm

/-- Events of others leave a call as it is. -/
theorem CallOk.log {phase : Phase} (hc : CallOk h i phase) (he : e.client? ≠ some i) :
    CallOk (h ++ [e]) i phase := by
  have hcalled : ∀ req, e ≠ .called i req := by
    rintro req rfl
    exact he rfl
  have hbegan : ∀ call c n id, e ≠ .began i call c n id := by
    rintro call c n id rfl
    exact he rfl
  cases phase with
  | idle => trivial
  | started call req =>
    obtain ⟨hcall, hlast, hunbegun⟩ := hc
    exact ⟨getElem?_append_some hcall, hlast.log hcalled, hunbegun.log (hbegan call)⟩
  | framing call req fields id =>
    obtain ⟨hcall, hlast, hunbegun, hcheck⟩ := hc
    exact ⟨getElem?_append_some hcall, hlast.log hcalled, hunbegun.log (hbegan call), hcheck⟩
  | sending call id rest => exact Last.log hc hcalled
  | receiving call id r got => exact Last.log hc hcalled

theorem Answered.mono {call t : Nat} {r : RpcResponse} (l : List Event)
    (ha : Answered json cpp h i call t r) :
    Answered json cpp (h ++ l) i call t r := by
  obtain ⟨req, id, c, n, b, x, m, result, hcall, hb, hlt, hbx, hxt, hx, hdecodes, hsame⟩ := ha
  exact ⟨req, id, c, n, b, x, m, result, getElem?_append_some hcall,
    getElem?_append_some hb, hlt, hbx, hxt, getElem?_append_some hx, hdecodes, hsame⟩

end

section

variable {s s' : System σ}

/-- No event is recorded. -/
theorem Calls.silent (hc : Calls json cpp s) (hhistory : s'.history = s.history)
    (hok : ∀ i, CallOk s.history i (s.clients i).phase → CallOk s.history i (s'.clients i).phase) :
    Calls json cpp s' where
  ok i := hhistory ▸ hok i (hc.ok i)
  beganLt := hhistory ▸ hc.beganLt
  beganOnce := hhistory ▸ hc.beganOnce
  answered := hhistory ▸ hc.answered
  ordered := hhistory ▸ hc.ordered

/-- An event of a client is recorded, or an execution. The four conditions are about the
    new event, by its kind. -/
theorem Calls.log {e : Event} (hc : Calls json cpp s) (hhistory : s'.history = s.history ++ [e])
    (hothers : ∀ i, e.client? ≠ some i → s'.clients i = s.clients i)
    (hok : ∀ i, e.client? = some i → CallOk s'.history i (s'.clients i).phase)
    (hbegan : ∀ i call c n id, e = .began i call c n id →
      call < s.history.length ∧ Unbegun s.history i call)
    (hanswered : ∀ i call r, e = .returned i call r →
      Answered json cpp s.history i call s.history.length r ∧
        Last s.history i call) : Calls json cpp s' where
  ok i := by
    by_cases hi : e.client? = some i
    · exact hok i hi
    · rw [hothers i hi, hhistory]
      exact (hc.ok i).log hi
  beganLt b i call c n id hb := by
    rw [hhistory] at hb
    rcases getElem?_log hb with hold | ⟨rfl, hnew⟩
    · exact hc.beganLt b i call c n id hold
    · exact (hbegan i call c n id hnew.symm).1
  beganOnce b b' i call c n id c' n' id' hb hb' := by
    rw [hhistory] at hb hb'
    rcases getElem?_log hb with hold | ⟨rfl, hnew⟩
    · rcases getElem?_log hb' with hold' | ⟨rfl, hnew'⟩
      · exact hc.beganOnce b b' i call c n id c' n' id' hold hold'
      · exact absurd hold ((hbegan i call c' n' id' hnew'.symm).2 b c n id)
    · rcases getElem?_log hb' with hold' | ⟨rfl, -⟩
      · exact absurd hold' ((hbegan i call c n id hnew.symm).2 b' c' n' id')
      · rfl
  answered t i call r ht := by
    rw [hhistory] at ht ⊢
    rcases getElem?_log ht with hold | ⟨rfl, hnew⟩
    · exact (hc.answered t i call r hold).mono [e]
    · exact (hanswered i call r hnew.symm).1.mono [e]
  ordered t i call r ht a req ha hlt := by
    rw [hhistory] at ht ha
    have hbound : ∀ {x e'}, s.history[x]? = some e' → x < s.history.length :=
      fun hx => (List.getElem?_eq_some_iff.mp hx).1
    rcases getElem?_log ht with hold | ⟨rfl, hnew⟩
    · rcases getElem?_log ha with hcalled | ⟨rfl, -⟩
      · exact hc.ordered t i call r hold a req hcalled hlt
      · exact hbound hold
    · rcases getElem?_log ha with hcalled | ⟨rfl, hcalled⟩
      · exact absurd ((hanswered i call r hnew.symm).2 a req hcalled) (by omega)
      · rw [← hnew] at hcalled
        cases hcalled

end

/-! ## Executions -/

/-- The handler has a message that is not executed yet. -/
def Handler.Busy : Handler σ → Prop
  | .dispatching _ => True
  | .executing _ _ => True
  | _ => False

section

variable (body)

/-- The state that the executions of a history leave, each run without interruption. -/
def stateAfter (runtime : σ) (h : List Event) : σ :=
  h.foldl (fun state e =>
    match e with
    | .executed _ _ m _ => ((body m).run state).2
    | _ => state) runtime

/-- No frame is executed twice; the handler that executes has the lock; and the runtime is
    as if the executions had run one after the other. -/
structure Executions (runtime : σ) (s : System σ) : Prop where
  bound : ∀ (x c n : Nat) (m : Message) (o : Outcome), s.history[x]? = some (.executed c n m o) →
    n < (s.conns c).served ∧ ((s.conns c).handler.Busy → n + 1 < (s.conns c).served)
  busy : ∀ c, (s.conns c).handler.Busy → 0 < (s.conns c).served
  once : ∀ (x y c n : Nat) (m m' : Message) (o o' : Outcome),
    s.history[x]? = some (.executed c n m o) →
    s.history[y]? = some (.executed c n m' o') → x = y
  lock : ∀ c m rest, (s.conns c).handler = .executing m rest →
    s.lock = some c ∧ rest.run s.runtime = (body m).run (stateAfter body runtime s.history)
  free : s.lock = none → s.runtime = stateAfter body runtime s.history
  outcome : ∀ (x c n : Nat) (m : Message) (o : Outcome), s.history[x]? = some (.executed c n m o) →
    o = ((body m).run (stateAfter body runtime (s.history.take x))).1

end

section

variable {runtime : σ} {s s' : System σ}

theorem executed_of_append {h l : List Event} (hl : ∀ e ∈ l, e.client?.isSome) {x c n : Nat}
    {m : Message} {o : Outcome}
    (hx : (h ++ l)[x]? = some (.executed c n m o)) : h[x]? = some (.executed c n m o) := by
  by_cases hlt : x < h.length
  · rwa [List.getElem?_append_left hlt] at hx
  · rw [List.getElem?_append_right (Nat.le_of_not_lt hlt)] at hx
    exact absurd (hl _ (List.mem_of_getElem? hx)) (by simp [Event.client?])

theorem stateAfter_append {h l : List Event} (hl : ∀ e ∈ l, e.client?.isSome) :
    stateAfter body runtime (h ++ l) = stateAfter body runtime h := by
  rw [stateAfter, List.foldl_append]
  induction l with
  | nil => rfl
  | cons e l ih =>
    have he := hl e (List.mem_cons_self ..)
    rw [List.foldl_cons]
    cases e with
    | executed c n m o => cases he
    | _ => exact ih fun e' he' => hl e' (List.mem_cons_of_mem _ he')

/-- Steps of clients do not touch executions. -/
theorem Executions.frame (he : Executions body runtime s) {l : List Event}
    (hhistory : s'.history = s.history ++ l)
    (hl : ∀ e ∈ l, e.client?.isSome) (hlock : s'.lock = s.lock) (hruntime : s'.runtime = s.runtime)
    (hconns : ∀ c, (s'.conns c).served = (s.conns c).served ∧
      (s'.conns c).handler = (s.conns c).handler) :
    Executions body runtime s' where
  bound x c n m o hx := by
    rw [hhistory] at hx
    rw [(hconns c).1, (hconns c).2]
    exact he.bound x c n m o (executed_of_append hl hx)
  busy c := by
    rw [(hconns c).1, (hconns c).2]
    exact he.busy c
  once x y c n m m' o o' hx hy := by
    rw [hhistory] at hx hy
    exact he.once x y c n m m' o o' (executed_of_append hl hx) (executed_of_append hl hy)
  lock c m rest hhandler := by
    rw [(hconns c).2] at hhandler
    rw [hlock, hruntime, hhistory, stateAfter_append hl]
    exact he.lock c m rest hhandler
  free hnone := by
    rw [hlock] at hnone
    rw [hruntime, hhistory, stateAfter_append hl]
    exact he.free hnone
  outcome x c n m o hx := by
    rw [hhistory] at hx ⊢
    have hold := executed_of_append hl hx
    rw [List.take_append_of_le_length (Nat.le_of_lt (List.getElem?_eq_some_iff.mp hold).1)]
    exact he.outcome x c n m o hold

theorem not_busy_startReply (json : JsonText) (frame : Nat) (reply : Message) (again : Bool) :
    ¬(startReply json frame reply again : Handler σ).Busy := by
  rcases startReply_cases (σ := σ) json frame reply again with ⟨bytes, -, hstart⟩ |
    hstart <;> rw [hstart] <;> exact id

/-- What a step of a handler on its connection means for executions: none is under way,
    and a message is counted before it is dispatched. -/
theorem ConnStep.idle {conn conn' : Conn σ} (hs : ConnStep json conn conn') :
    conn.served ≤ conn'.served ∧ (conn'.handler.Busy → conn.served < conn'.served) ∧
      ∀ m rest, conn'.handler ≠ .executing m rest := by
  have hreply : ∀ frame reply again m rest,
      (startReply json frame reply again : Handler σ) ≠ .executing m rest := by
    intro frame reply again m rest heq
    exact not_busy_startReply (σ := σ) json frame reply again (by rw [heq]; trivial)
  cases hs with
  | exc hreading =>
    rename_i e _
    cases e with
    | protocolError message =>
      exact ⟨Nat.le_refl _, fun hb => absurd hb (not_busy_startReply json _ _ _), hreply _ _ _⟩
    | _ => exact ⟨Nat.le_refl _, False.elim, by simp [afterExc]⟩
  | message hreading =>
    rename_i m _
    refine ⟨Nat.le_succ _, fun _ => Nat.lt_succ_self _, ?_⟩
    simp only [afterMessage]
    split
    · exact hreply _ _ _
    · simp
  | sent hsending =>
    rename_i again
    refine ⟨Nat.le_refl _, ?_, ?_⟩ <;> cases again <;> simp [Handler.Busy]
  | _ => exact ⟨Nat.le_refl _, False.elim, by simp⟩

theorem conns_setConn (s : System σ) (c : Nat) (conn : Conn σ) (d : Nat) :
    (s.setConn c conn).conns d = if d = c then conn else s.conns d :=
  Function.update_apply s.conns c conn d

theorem busy_of_executing {h : Handler σ} {m : Message} {rest : Body σ Outcome}
    (hexec : h = .executing m rest) : h.Busy := by
  rw [hexec]
  trivial

/-- Only the handler that holds the lock executes. -/
theorem Executions.alone (he : Executions body runtime s) {c d : Nat} {m : Message}
    {rest : Body σ Outcome}
    (hlock : s.lock = some c) (hexec : (s.conns d).handler = .executing m rest) : d = c := by
  have hheld := (he.lock d m rest hexec).1
  rw [hlock] at hheld
  exact (Option.some.inj hheld).symm

/-- A busy handler goes on with the same request. -/
theorem Executions.bound_setConn (he : Executions body runtime s) {c : Nat} {conn : Conn σ}
    (hserved : conn.served = (s.conns c).served) (hbusy : (s.conns c).handler.Busy) (x d n : Nat)
    (m : Message) (o : Outcome)
    (hx : s.history[x]? = some (.executed d n m o)) : n < ((s.setConn c conn).conns d).served ∧
      (((s.setConn c conn).conns d).handler.Busy →
        n + 1 < ((s.setConn c conn).conns d).served) := by
  have hold := he.bound x d n m o hx
  rw [conns_setConn]
  split
  · next hd =>
    subst hd
    rw [hserved]
    exact ⟨hold.1, fun _ => hold.2 hbusy⟩
  · exact hold

theorem Executions.busy_setConn (he : Executions body runtime s) {c : Nat} {conn : Conn σ}
    (hserved : conn.served = (s.conns c).served) (hbusy : (s.conns c).handler.Busy) (d : Nat)
    (hd : ((s.setConn c conn).conns d).handler.Busy) : 0 < ((s.setConn c conn).conns d).served := by
  rw [conns_setConn] at hd ⊢
  split at hd
  · next heq =>
    rw [if_pos heq, hserved]
    exact he.busy c hbusy
  · next hne =>
    rw [if_neg hne]
    exact he.busy d hd

/-- The connection of one handler changes, with no execution. -/
theorem Executions.handler (he : Executions body runtime s) {c : Nat} {conn : Conn σ}
    (hs : ConnStep json (s.conns c) conn) :
    Executions body runtime (s.setConn c conn) := by
  obtain ⟨hserved, hbusy, hnot⟩ := hs.idle
  refine ⟨?_, ?_, he.once, ?_, he.free, he.outcome⟩
  · intro x d n m o hx
    have hold := he.bound x d n m o hx
    rw [conns_setConn]
    split
    · next hd =>
      subst hd
      exact ⟨by omega, fun hb => by have := hbusy hb; omega⟩
    · exact hold
  · intro d
    rw [conns_setConn]
    split
    · next hd => exact fun hb => by have := hbusy hb; omega
    · exact he.busy d
  · intro d m rest hhandler
    rw [conns_setConn] at hhandler
    split at hhandler
    · exact absurd hhandler (hnot m rest)
    · exact he.lock d m rest hhandler

/-- The lock is taken. -/
theorem Executions.acquire (he : Executions body runtime s) {c : Nat} {m : Message}
    (hhandler : (s.conns c).handler = .dispatching m) (hlock : s.lock = none) :
    Executions body runtime
      { s.setConn c { s.conns c with handler := .executing m (body m) } with lock := some c } := by
  have hbusy : (s.conns c).handler.Busy := by
    rw [hhandler]
    trivial
  refine ⟨he.bound_setConn rfl hbusy, he.busy_setConn rfl hbusy, he.once, ?_,
    (fun hnone => by cases hnone), he.outcome⟩
  intro d m' rest hexec
  simp only [conns_setConn] at hexec
  split at hexec
  · next hd =>
    cases hexec
    refine ⟨by rw [hd], ?_⟩
    show (body m).run s.runtime = _
    rw [he.free hlock]
    rfl
  · have hheld := (he.lock d m' rest hexec).1
    rw [hlock] at hheld
    cases hheld

/-- One action of the execution. -/
theorem Executions.act (he : Executions body runtime s) {c : Nat} {m : Message} {update : σ → σ}
    {next : σ → Body σ Outcome} (hhandler : (s.conns c).handler = .executing m (.act update next)) :
    Executions body runtime
      { s.setConn c { s.conns c with handler := .executing m (next s.runtime) } with
        runtime := update s.runtime } := by
  have hbusy := busy_of_executing hhandler
  obtain ⟨hlock, hrun⟩ := he.lock c m _ hhandler
  refine ⟨he.bound_setConn rfl hbusy, he.busy_setConn rfl hbusy, he.once, ?_, ?_, he.outcome⟩
  · intro d m' rest hexec
    simp only [conns_setConn] at hexec
    split at hexec
    · next hd =>
      cases hexec
      exact ⟨hd ▸ hlock, hrun⟩
    · next hd => exact absurd (he.alone hlock hexec) hd
  · intro hnone
    have hheld : s.lock = none := hnone
    rw [hlock] at hheld
    cases hheld

/-- The execution ends and the lock is released. -/
theorem Executions.release (he : Executions body runtime s) {c : Nat} {m : Message}
    {outcome : Outcome} (hhandler : (s.conns c).handler = .executing m (.ret outcome)) :
    Executions body runtime { (s.setConn c { s.conns c with
      handler := startReply json ((s.conns c).served - 1) (response m outcome) true }).log
        (.executed c ((s.conns c).served - 1) m outcome) with lock := none } := by
  have hbusy := busy_of_executing hhandler
  obtain ⟨hlock, hrun⟩ := he.lock c m _ hhandler
  obtain ⟨hout, hstate⟩ := Prod.mk.inj (show (outcome, s.runtime) = _ from hrun)
  have hpos := he.busy c hbusy
  -- the frame was not executed before
  have hnew : ∀ (x : Nat) (m' : Message) (o : Outcome),
      s.history[x]? ≠ some (.executed c ((s.conns c).served - 1) m' o) := by
    intro x m' o hx
    have := (he.bound x c _ m' o hx).2 hbusy
    omega
  refine ⟨?_, ?_, ?_, ?_, ?_, ?_⟩
  · intro x d n m' o hx
    simp only [System.log, conns_setConn]
    rcases getElem?_log hx with hold | ⟨-, hnow⟩
    · have hbound := he.bound x d n m' o hold
      split
      · next hd =>
        subst hd
        exact ⟨hbound.1, fun hb => absurd hb (not_busy_startReply json _ _ _)⟩
      · exact hbound
    · cases hnow
      rw [if_pos rfl]
      exact ⟨by show _ < (s.conns c).served; omega, fun hb =>
        absurd hb (not_busy_startReply json _ _ _)⟩
  · intro d
    simp only [System.log, conns_setConn]
    split
    · exact fun hb => absurd hb (not_busy_startReply json _ _ _)
    · exact he.busy d
  · -- a frame executed twice: one of the two is the new event, which `hnew` excludes
    intro x y d n m' m'' o o' hx hy
    rcases getElem?_log hx with hold | ⟨hx', hnow⟩
    · rcases getElem?_log hy with hold' | ⟨-, hnow'⟩
      · exact he.once x y d n m' m'' o o' hold hold'
      · cases hnow'
        exact absurd hold (hnew x m' o)
    · rcases getElem?_log hy with hold' | ⟨hy', -⟩
      · cases hnow
        exact absurd hold' (hnew y m'' o')
      · rw [hx', hy']
  · intro d m' rest hexec
    simp only [System.log, conns_setConn] at hexec
    split at hexec
    · have hstart :
          (startReply json ((s.conns c).served - 1) (response m outcome) true : Handler σ) = _ :=
        hexec
      have hidle :=
        not_busy_startReply (σ := σ) json ((s.conns c).served - 1) (response m outcome) true
      rw [hstart] at hidle
      exact absurd trivial hidle
    · next hd =>
      exact absurd (he.alone hlock hexec) hd
  · -- the lock is free again, and the runtime is in the state after the new event
    intro _
    show s.runtime = stateAfter body runtime
        (s.history ++ [.executed c ((s.conns c).served - 1) m outcome])
    rw [hstate, stateAfter, stateAfter, List.foldl_append]
    rfl
  · intro x d n m' o hx
    simp only [System.log]
    rcases getElem?_log hx with hold | ⟨rfl, hnow⟩
    · rw [List.take_append_of_le_length (Nat.le_of_lt (List.getElem?_eq_some_iff.mp hold).1)]
      exact he.outcome x d n m' o hold
    · cases hnow
      rw [show (s.setConn c _).history = s.history from rfl, List.take_left]
      exact hout

end

end Wire
