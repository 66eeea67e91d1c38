-- SUMMARY: Pipelined scheduling of a graph is serially equivalent, with at most one op in flight.
import BonsaiTpu.Base.Overlap
import BonsaiTpu.Board.InFlight

/-!
# Pipelined graphs

The kernel calls of a successful run form an overlapped schedule: an op that is
started while another one is in flight has passed the barrier test, so under the
arena guarantee it is independent of it. What each op does to memory is a
parameter, an action on the bytes of tensors.
-/

namespace Board

open Overlap (Overlapped Exec Independent)

/-- A byte of a tensor: handle and offset. -/
abbrev TensorByte := Int × Int

/-- The destination bytes of a pending op. -/
def dstBytes (p : Pending) : Set TensorByte :=
  { x | x.1 = p.dstHandle ∧ p.dstLo ≤ x.2 ∧ x.2 < p.dstHi }

def Event.toStep : Event → Overlap.Step
  | .run i => .run i
  | .issue i _ => .issue i
  | .complete i => .complete i

/-- One of the role fields of the op names the destination, at an offset inside it. -/
def Names (op : Op) (p : Pending) : Prop :=
  ∃ role ∈ tensorRoles, op.handle role = some (some p.dstHandle) ∧
    ∃ offset, (op.offset role).getD (some 0) = some offset ∧ p.dstLo ≤ offset ∧ offset < p.dstHi

/-- Op `j` is run while op `i` is in flight. -/
def Between (trace : List Event) (i j : Nat) : Prop :=
  ∃ p t₁ t₂ t₃, trace = t₁ ++ .issue i p :: (t₂ ++ .run j :: t₃) ∧ .complete i ∉ t₂

/-- The arena guarantee: an async op writes its destination bytes, later ops that use
    any of them name the destination, and no op that is run while it is in flight
    writes a byte it reads. -/
structure Arena (ops : List Op) (act : Nat → Overlap.Action TensorByte Byte)
    (trace : List Event) : Prop where
  writes : ∀ i p, .issue i p ∈ trace → (act i).writes = dstBytes p
  named : ∀ i p, .issue i p ∈ trace → ∀ j op, i < j → ops[j]? = some op →
    ∀ x ∈ dstBytes p, x ∈ (act j).reads ∨ x ∈ (act j).writes → Names op p
  inputs : ∀ i j, Between trace i j → ∀ x ∈ (act j).writes, x ∉ (act i).reads

theorem touchesFrom_false {op : Op} {p : Pending} {roles : List Role}
    (h : touchesFrom op p.dstHandle p.dstLo p.dstHi roles = .ok false) :
    ∀ role ∈ roles, op.handle role = some (some p.dstHandle) →
      ∀ offset, (op.offset role).getD (some 0) = some offset →
      ¬ (p.dstLo ≤ offset ∧ offset < p.dstHi) := by
  induction roles with
  | nil => simp
  | cons r rest ih =>
    rw [touchesFrom] at h
    intro role hrole hhandle offset hoffset hin
    cases hrole with
    | head =>
      rw [hhandle] at h
      simp only [toInt, bind, Except.bind, if_true, hoffset, if_pos hin] at h
      cases h
    | tail _ hrole =>
      have hrest : touchesFrom op p.dstHandle p.dstLo p.dstHi rest = .ok false := by
        cases hr : op.handle r with
        | none => simpa only [hr] using h
        | some value =>
          cases value with
          | none => simp only [hr, toInt, bind, Except.bind] at h; cases h
          | some named =>
            simp only [hr, toInt, bind, Except.bind] at h
            split at h
            · cases ho : (op.offset r).getD (some 0) with
              | none => simp only [ho] at h; cases h
              | some o =>
                simp only [ho] at h
                split at h
                · cases h
                · exact h
            · exact h
      exact ih hrest role hrole hhandle offset hoffset hin

theorem not_names_of_overlapped {kernel : Kernel} {op : Op} {flight : Flight}
    (h : barrier kernel op (some flight) = .ok false) : ¬ Names op flight.pending := by
  simp only [barrier] at h
  split at h
  · cases h
  · rintro ⟨role, hrole, hhandle, offset, hoffset, hin⟩
    exact touchesFrom_false h role hrole hhandle offset hoffset hin

section Schedule

variable {env : Env} {act : Nat → Overlap.Action TensorByte Byte} {all : List Op}
    {trace : List Event}

/-- The kernel calls before op `index`: the op in flight was issued and not completed. -/
def Issued (inFlight : Option Flight) (before : List Event) : Prop :=
  ∀ flight, inFlight = some flight →
    ∃ t₁ t₂, before = t₁ ++ .issue flight.index flight.pending :: t₂ ∧ .complete flight.index ∉ t₂

theorem Issued.run {flight : Flight} {before : List Event}
    (h : Issued (some flight) before) (index : Nat) :
    Issued (some flight) (before ++ [.run index]) := by
  rintro f ⟨⟩
  obtain ⟨t₁, t₂, rfl, hnot⟩ := h flight rfl
  refine ⟨t₁, t₂ ++ [.run index], by simp, ?_⟩
  simpa using hnot

theorem Arena.independent (harena : Arena all act trace) {index : Nat} {op : Op} {flight : Flight}
    {kernel : Kernel} {before tail : List Event} (htrace : trace = before ++ .run index :: tail)
    (hissued : Issued (some flight) before) (hop : all[index]? = some op)
    (hlt : flight.index < index)
    (hb : barrier kernel op (some flight) = .ok false) :
    Independent (act flight.index) (act index) := by
  obtain ⟨t₁, t₂, hbefore, hnot⟩ := hissued flight rfl
  have hmem : .issue flight.index flight.pending ∈ trace := by simp [htrace, hbefore]
  have hwrites := harena.writes _ _ hmem
  have hunnamed := not_names_of_overlapped hb
  refine ⟨fun x hx hw => ?_, fun x hx hw => ?_, fun x hx _ => ?_⟩
  · exact hunnamed (harena.named _ _ hmem index op hlt hop x (hwrites ▸ hw) (Or.inl hx))
  · exact hunnamed (harena.named _ _ hmem index op hlt hop x (hwrites ▸ hw) (Or.inr hx))
  · exact harena.inputs _ _ ⟨flight.pending, t₁, t₂, tail, by simp [htrace, hbefore], hnot⟩ x hx

/-- The kernel calls of the loop are an overlapped schedule. -/
theorem schedule_overlapped (harena : Arena all act trace) (index : Nat) (inFlight : Option Flight)
    (counts : Counts) (ops : List Op) (before : List Event) (hops : all.drop index = ops)
    (htrace : trace = before ++ (schedule env index inFlight counts ops).events)
    (hissued : Issued inFlight before)
    (hlt : ∀ flight, inFlight = some flight → flight.index < index)
    {counts' : Counts} (hok : (schedule env index inFlight counts ops).result = .ok counts') :
    Overlapped act index (inFlight.map Flight.index)
      ((schedule env index inFlight counts ops).events.map Event.toStep) (index + ops.length) := by
  induction ops generalizing index inFlight counts before with
  | nil =>
    rw [schedule_nil_events]
    cases inFlight with
    | none => exact Overlapped.done
    | some flight => exact Overlapped.complete Overlapped.done
  | cons op rest ih =>
    have hop : all[index]? = some op := by
      rw [← List.head?_drop, hops]
      rfl
    have hrest : all.drop (index + 1) = rest := by
      rw [← List.drop_drop, hops]
      rfl
    have hlen : index + (op :: rest).length = index + 1 + rest.length := by
      rw [List.length_cons]
      omega
    have h := handled env index op counts inFlight
    generalize hx : handleOp env index op inFlight counts = x at h
    rw [hlen]
    -- one case for each way to handle the op; those that raise contradict `hok`
    cases h with
    | rejected e _ =>
      rw [schedule_cons_error hx] at hok
      cases hok
    | failedComplete e _ =>
      rw [schedule_cons_error hx] at hok
      cases hok
    | @overlapped flight kernel hk hpass hb =>
      rw [schedule_cons_ok hx] at htrace hok ⊢
      have hind := harena.independent htrace hissued hop (hlt flight rfl) hb
      refine Overlapped.beside hind ?_
      refine ih (index + 1) (some flight) (counts.add kernel) (before ++ [.run index]) hrest
        (by simp [htrace])
        (hissued.run index) (fun f hf => ?_) hok
      have := hlt f hf
      omega
    -- an op in flight is completed before this one is started
    | @started inFlight kernel next events hk hpass hs =>
      rw [schedule_cons_ok hx] at htrace hok ⊢
      have hnext : Overlapped act (index + 1) (next.map Flight.index)
          ((schedule env (index + 1) next (counts.add kernel) rest).events.map Event.toStep)
          (index + 1 + rest.length) := by
        refine ih (index + 1) next (counts.add kernel)
          (before ++ (inFlight.toList.map fun flight => .complete flight.index) ++ events) hrest
          (by simpa using htrace) ?_ ?_ hok
        · cases hs with
          | ran => intro f hf; cases hf
          | issued pending _ =>
            rintro f ⟨⟩
            exact ⟨_, [], rfl, by simp⟩
        · cases hs with
          | ran => intro f hf; cases hf
          | issued pending _ =>
            rintro f ⟨⟩
            exact Nat.lt_succ_self _
      have hstart : Overlapped act index none
          ((events ++ (schedule env (index + 1) next (counts.add kernel) rest).events).map
            Event.toStep)
          (index + 1 + rest.length) := by
        cases hs with
        | ran => exact Overlapped.run hnext
        | issued pending _ => exact Overlapped.issue hnext
      cases inFlight with
      | none => exact hstart
      | some flight => exact Overlapped.complete hstart

end Schedule

/-! ## One op in flight -/

/-- The ops in flight after an event. -/
def Event.after (open_ : List Nat) : Event → List Nat
  | .run _ => open_
  | .issue i _ => i :: open_
  | .complete i => open_.erase i

def inFlightAfter (events : List Event) : List Nat := events.foldl Event.after []

/-- The op that an event starts. -/
def Event.starts : Event → Option Nat
  | .run i => some i
  | .issue i _ => some i
  | .complete _ => none

def isPl (env : Env) (ops : List Op) (i : Nat) : Prop :=
  ∃ op kernel, ops[i]? = some op ∧ env.registry op.name = some kernel ∧ kernel.backend = "pl"

/-- From `open_` on, at most one op is in flight, and none when an op of the PL starts. -/
def SingleFlight (pl : Nat → Prop) : List Nat → List Event → Prop
  | open_, [] => open_.length ≤ 1
  | open_, e :: events =>
    open_.length ≤ 1 ∧ (∀ i, e.starts = some i → pl i → open_ = []) ∧
      SingleFlight pl (e.after open_) events

theorem SingleFlight.at_split {pl : Nat → Prop} {open_ : List Nat} {t₁ t₂ : List Event}
    (h : SingleFlight pl open_ (t₁ ++ t₂)) : SingleFlight pl (t₁.foldl Event.after open_) t₂ := by
  induction t₁ generalizing open_ with
  | nil => exact h
  | cons e t₁ ih => exact ih h.2.2

theorem SingleFlight.length_le {pl : Nat → Prop} {open_ : List Nat} {events : List Event}
    (h : SingleFlight pl open_ events) : open_.length ≤ 1 := by
  cases events with
  | nil => exact h
  | cons e events => exact h.1

theorem Started.singleFlight {env : Env} {pl : Nat → Prop} {index : Nat} {next : Option Flight}
    {events tail : List Event} (hs : Started env index ⟨events, .ok next⟩)
    (htail : SingleFlight pl (next.toList.map Flight.index) tail) :
    SingleFlight pl [] (events ++ tail) := by
  cases hs with
  | ran => exact ⟨Nat.zero_le _, fun _ _ _ => rfl, htail⟩
  | issued pending _ => exact ⟨Nat.zero_le _, fun _ _ _ => rfl, htail⟩

theorem schedule_singleFlight (env : Env) {all : List Op} (index : Nat) (inFlight : Option Flight)
    (counts : Counts) (ops : List Op) (hops : all.drop index = ops) :
    SingleFlight (isPl env all) (inFlight.toList.map Flight.index)
      (schedule env index inFlight counts ops).events := by
  induction ops generalizing index inFlight counts with
  | nil =>
    rw [schedule_nil_events]
    cases inFlight with
    | none => exact Nat.zero_le _
    | some flight => simp [SingleFlight, Event.starts, Event.after]
  | cons op rest ih =>
    have hop : all[index]? = some op := by
      rw [← List.head?_drop, hops]
      rfl
    have hrest : all.drop (index + 1) = rest := by
      rw [← List.drop_drop, hops]
      rfl
    have h := handled env index op counts inFlight
    generalize hx : handleOp env index op inFlight counts = x at h
    cases h with
    | rejected e _ =>
      rw [schedule_cons_error hx]
      cases inFlight <;> simp [SingleFlight]
    | failedComplete e _ =>
      rw [schedule_cons_error hx]
      simp [SingleFlight, Event.starts, Event.after]
    | @overlapped flight kernel hk hpass hb =>
      rw [schedule_cons_ok hx]
      refine ⟨Nat.le_refl _, ?_, ih (index + 1) (some flight) (counts.add kernel) hrest⟩
      -- An op of the PL would have been a barrier.
      rintro i ⟨⟩ ⟨op', kernel', hop', hk', hpl⟩
      cases hop.symm.trans hop'
      cases hk.symm.trans hk'
      simp only [barrier, hpl, if_true] at hb
      cases hb
    | @started inFlight kernel next events hk hpass hs =>
      rw [schedule_cons_ok hx]
      have hstart := hs.singleFlight (ih (index + 1) next (counts.add kernel) hrest)
      cases inFlight with
      | none => exact hstart
      | some flight =>
        refine ⟨Nat.le_refl _, fun i hi => (by cases hi), ?_⟩
        have herase : Event.after ((some flight).toList.map Flight.index)
            (.complete flight.index) = [] := by
          simp [Event.after]
        rw [herase]
        exact hstart

theorem Counts.add_total (counts : Counts) (kernel : Kernel) :
    (counts.add kernel).ps + (counts.add kernel).pl = counts.ps + counts.pl + 1 := by
  unfold Counts.add
  split <;> simp only <;> omega

theorem schedule_counts {env : Env} {index : Nat} {inFlight : Option Flight}
    {counts counts' : Counts}
    {ops : List Op} (hok : (schedule env index inFlight counts ops).result = .ok counts') :
    counts'.ps + counts'.pl = counts.ps + counts.pl + ops.length := by
  induction ops generalizing index inFlight counts with
  | nil =>
    cases inFlight with
    | none =>
      cases hok
      rfl
    | some flight =>
      rw [schedule, completeFlight_some] at hok
      cases hc : (env.outcome flight.index).complete with
      | error e => rw [hc] at hok; cases hok
      | ok _ =>
        rw [hc] at hok
        cases hok
        rfl
  | cons op rest ih =>
    have h := handled env index op counts inFlight
    generalize hx : handleOp env index op inFlight counts = x at h
    cases h with
    | rejected e _ =>
      rw [schedule_cons_error hx] at hok
      cases hok
    | failedComplete e _ =>
      rw [schedule_cons_error hx] at hok
      cases hok
    | @overlapped flight kernel hk hpass hb =>
      rw [schedule_cons_ok hx] at hok
      have hrest := ih hok
      rw [counts.add_total kernel] at hrest
      rw [hrest, List.length_cons]
      omega
    | @started inFlight kernel next events hk hpass hs =>
      rw [schedule_cons_ok hx] at hok
      have hrest := ih hok
      rw [counts.add_total kernel] at hrest
      rw [hrest, List.length_cons]
      omega

/-! ## Serial equivalence -/

/-- A request that succeeds has gone through the loop. -/
theorem runGraph_ok {env : Env} {metadata : Metadata} {response : Response}
    {request : Int × List Op × List Int} (hreq : checkRequest metadata = .ok request)
    (hok : (runGraph env metadata).result = .ok response) :
    ∃ counts, (schedule env 0 none ⟨0, 0⟩ request.2.1).result = .ok counts ∧
      response = ⟨request.1, request.2.1.length, request.2.2, counts.ps, counts.pl⟩ := by
  unfold runGraph at hok
  rw [hreq, Traced.lift_ok_bind] at hok
  generalize schedule env 0 none ⟨0, 0⟩ request.2.1 = x at hok ⊢
  obtain ⟨events, result⟩ := x
  cases result with
  | error e => cases hok
  | ok counts =>
    rw [Traced.bind_ok rfl] at hok
    cases hd : request.2.2.forM env.describe with
    | error e => rw [hd] at hok; cases hok
    | ok _ =>
      rw [hd] at hok
      cases hok
      exact ⟨counts, rfl, rfl⟩

/-- Under the arena guarantee, however the transfers land, every op of a graph that
    runs reads what it reads in a serial execution and memory ends the same. At
    most one op is in flight, and none when an op of the PL starts. -/
theorem pipeline_serial (env : Env) {metadata : Metadata} {response : Response} {graphVersion : Int}
    {ops : List Op} {outputs : List Int}
    (hreq : checkRequest metadata = .ok (graphVersion, ops, outputs))
    (hok : (runGraph env metadata).result = .ok response)
    {act : Nat → Overlap.Action TensorByte Byte}
    (harena : Arena ops act (runGraph env metadata).events) (m : TensorByte → Byte) :
    let trace := (runGraph env metadata).events
    (∃ s, Exec act ⟨m, none, []⟩ (trace.map Event.toStep) s) ∧
    (∀ s, Exec act ⟨m, none, []⟩ (trace.map Event.toStep) s →
      s.mem = Overlap.serial act m ops.length ∧ (∀ j < ops.length, ∃ view, (j, view) ∈ s.log) ∧
        ∀ p ∈ s.log, ∀ x ∈ (act p.1).reads, p.2 x = Overlap.serial act m p.1 x) ∧
    (∀ t₁ t₂, trace = t₁ ++ t₂ → (inFlightAfter t₁).length ≤ 1) ∧
    (∀ t₁ e t₂ i, trace = t₁ ++ e :: t₂ → e.starts = some i → isPl env ops i →
      inFlightAfter t₁ = []) ∧
    response.psOps + response.plOps = response.opCount ∧ response.opCount = ops.length := by
  intro trace
  obtain ⟨counts, hsched, rfl⟩ := runGraph_ok hreq hok
  have htrace : trace = (schedule env 0 none ⟨0, 0⟩ ops).events := runGraph_events_ok hreq
  have hover : Overlapped act 0 none (trace.map Event.toStep) ops.length := by
    have h := schedule_overlapped harena 0 none ⟨0, 0⟩ ops [] rfl htrace (fun _ hf => by cases hf)
      (fun _ hf => by cases hf) hsched
    rw [← htrace, Nat.zero_add] at h
    exact h
  have hsingle : SingleFlight (isPl env ops) [] trace := by
    rw [htrace]
    exact schedule_singleFlight env 0 none ⟨0, 0⟩ ops rfl
  have hstart : Overlap.MemAt act m 0 none ⟨m, none, []⟩ := ⟨rfl, rfl⟩
  refine ⟨hover.exec hstart, ?_, ?_, ?_, ?_, rfl⟩
  · intro s hexec
    obtain ⟨-, hmem, hlog⟩ := hexec.serial hover hstart ⟨by simp, by simp⟩
    exact ⟨hmem, fun j hj => hlog.all j hj (by simp), hlog.reads⟩
  · intro t₁ t₂ hsplit
    rw [hsplit] at hsingle
    exact hsingle.at_split.length_le
  · intro t₁ e t₂ i hsplit hstarts hpl
    rw [hsplit] at hsingle
    exact hsingle.at_split.2.1 i hstarts hpl
  · have hcounts := schedule_counts hsched
    simpa using hcounts

theorem pipeline_serial_overlap :
    let op (name : String) (src dst : Int) : Op :=
      ⟨name, fun role => match role with
        | .src => some (some src)
        | .dst => some (some dst)
        | _ => none, fun _ => none⟩
    let ops := [op "MATMUL_Q1A8" 2 1, op "PS_A" 4 5, op "PS_B" 1 3]
    let env : Env :=
      ⟨fun name => if name = "MATMUL_Q1A8" then some ⟨"pl", true⟩ else some ⟨"ps", false⟩,
        fun _ => ⟨.ok (), .ok (some ⟨1, 0, 1⟩), .ok ()⟩, fun _ => .ok ()⟩
    let metadata : Metadata := ⟨some (some 1), some (ops.map some), some []⟩
    let copy (src dst : Int) : Overlap.Action TensorByte Byte :=
      ⟨{(src, 0)}, {(dst, 0)}, fun m _ => m (src, 0), fun _ _ h => funext fun _ => h _ rfl⟩
    let act : Nat → Overlap.Action TensorByte Byte
      | 0 => copy 2 1
      | 1 => copy 4 5
      | _ => copy 1 3
    let m : TensorByte → Byte := fun x => if x = (2, 0) then 7 else 0
    (runGraph env metadata).events = [.issue 0 ⟨1, 0, 1⟩, .run 1, .complete 0, .run 2] ∧
    ∀ s, Exec act ⟨m, none, []⟩ ((runGraph env metadata).events.map Event.toStep) s →
      s.mem = Overlap.serial act m 3 := by
  intro op ops env metadata copy act m
  have hevents : (runGraph env metadata).events =
      [.issue 0 ⟨1, 0, 1⟩, .run 1, .complete 0, .run 2] := rfl
  have hissue : ∀ i p, .issue i p ∈ (runGraph env metadata).events → i = 0 ∧ p = ⟨1, 0, 1⟩ := by
    intro i p hi
    simpa [hevents] using hi
  have hdst : dstBytes ⟨1, 0, 1⟩ = {(1, 0)} := by
    ext ⟨h, o⟩
    simp only [dstBytes, Set.mem_ofPred_eq, Set.mem_singleton_iff, Prod.mk.injEq]
    omega
  -- the bytes of the three copies, and the barrier before the op that reads handle 1
  have harena : Arena ops act (runGraph env metadata).events := by
    refine ⟨fun i p hi => ?_, fun i p hi j op' hij hop x hx hxj => ?_, fun i j hb x hx => ?_⟩
    · obtain ⟨rfl, rfl⟩ := hissue i p hi
      exact hdst.symm
    · obtain ⟨rfl, rfl⟩ := hissue i p hi
      rw [hdst] at hx
      obtain rfl := Set.mem_singleton_iff.mp hx
      match j, hij with
      | 1, _ => simp [act, copy] at hxj
      | 2, _ =>
        cases hop
        exact ⟨.src, by decide, rfl, 0, rfl, by decide, by decide⟩
      | j + 3, _ => cases hop
    · obtain ⟨p, t₁, t₂, t₃, heq, -⟩ := hb
      obtain ⟨rfl, -⟩ := hissue i p (by simp [heq])
      match j with
      | 0 => simp_all [act, copy]
      | 1 => simp_all [act, copy]
      | j + 2 => simp_all [act, copy]
  have hreq : checkRequest metadata = .ok (1, ops, []) := rfl
  have hok : (runGraph env metadata).result = .ok ⟨1, 3, [], 2, 1⟩ := rfl
  obtain ⟨-, hserial, -⟩ := pipeline_serial env hreq hok harena m
  exact ⟨hevents, fun s hs => (hserial s hs).1⟩

end Board
