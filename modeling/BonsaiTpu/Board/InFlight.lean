-- SUMMARY: What one op of a graph can do to the op in flight, and when every issued op is completed.
import BonsaiTpu.Board.Graph

/-!
# The op in flight

`handleOp_none` and `handleOp_some` say everything the scheduler can do with one
op. An exception raised while an op is in flight leaves the loop without
completing it, so an issued op is completed in every run except those in which a
later op fails before its barrier.
-/

namespace Board

variable {env : Env}

/-! ## One op -/

theorem completeFlight_some (env : Env) (flight : Flight) :
    completeFlight env (some flight) =
      ⟨[.complete flight.index], (env.outcome flight.index).complete⟩ := rfl

/-- How the scheduler can start an op when nothing is in flight. -/
inductive Started (env : Env) (index : Nat) : Sched (Option Flight) → Prop
  | raised (e : Err) : Started env index ⟨[], .error e⟩
  | ran : Started env index ⟨[.run index], .ok none⟩
  | issued (pending : Pending) : (env.outcome index).runAsync = .ok (some pending) →
      Started env index ⟨[.issue index pending], .ok (some ⟨index, pending⟩)⟩

theorem started_none (env : Env) (index : Nat) (kernel : Kernel) :
    Started env index (startOp env index kernel none) := by
  unfold startOp
  split
  · cases h : (env.outcome index).runAsync with
    | error e => exact Started.raised e
    | ok pending =>
      cases pending with
      | none => exact Started.ran
      | some pending => exact Started.issued pending h
  · cases h : (env.outcome index).run with
    | error e => exact Started.raised e
    | ok _ => exact Started.ran

/-- An op that does not leave the loop while `flight` is in flight: it has a
    registered name and its role fields are numbers, and unless it waits for
    `flight` its kernel's `run` succeeds. -/
def Passes (env : Env) (index : Nat) (op : Op) (flight : Flight) : Prop :=
  op.name ≠ "" ∧ ∃ kernel, env.registry op.name = some kernel ∧
    (barrier kernel op (some flight) = .ok true ∨
      barrier kernel op (some flight) = .ok false ∧ (env.outcome index).run = .ok ())

/-- What the scheduler can do with an op. -/
inductive Handled (env : Env) (index : Nat) (op : Op) (counts : Counts) :
    Option Flight → Sched (Option Flight × Counts) → Prop
  | rejected {inFlight : Option Flight} (e : Err) :
      (∀ flight, inFlight = some flight → ¬ Passes env index op flight) →
      Handled env index op counts inFlight ⟨[], .error e⟩
  | overlapped {flight : Flight} {kernel : Kernel} : env.registry op.name = some kernel →
      Passes env index op flight → barrier kernel op (some flight) = .ok false →
      Handled env index op counts (some flight) ⟨[.run index], .ok (some flight, counts.add kernel)⟩
  | failedComplete {flight : Flight} (e : Err) : Passes env index op flight →
      Handled env index op counts (some flight) ⟨[.complete flight.index], .error e⟩
  | started {inFlight : Option Flight} {kernel : Kernel} {next : Option Flight}
      {events : List Event} :
      env.registry op.name = some kernel →
        (∀ flight, inFlight = some flight → Passes env index op flight) →
      Started env index ⟨events, .ok next⟩ →
      Handled env index op counts inFlight
        ⟨(inFlight.toList.map fun flight => .complete flight.index) ++ events,
          .ok (next, counts.add kernel)⟩

theorem handled_none (env : Env) (index : Nat) (op : Op) (counts : Counts) :
    Handled env index op counts none (handleOp env index op none counts) := by
  unfold handleOp
  split
  · exact Handled.rejected _ (by simp)
  · cases hk : env.registry op.name with
    | none => exact Handled.rejected _ (by simp)
    | some kernel =>
      simp only [barrier, Traced.lift_ok_bind, Bool.false_eq_true, if_false]
      have hs := started_none env index kernel
      generalize startOp env index kernel none = x at hs
      obtain ⟨events, result⟩ := x
      cases result with
      | error e =>
        cases hs
        exact Handled.rejected e (by simp)
      | ok next =>
        rw [Traced.bind_ok rfl]
        have h : Handled env index op counts none _ := Handled.started hk (by simp) hs
        simpa using h

/-- An op that passes neither by its barrier nor by its own run. -/
theorem not_passes {env : Env} {index : Nat} {op : Op} {kernel : Kernel} {flight : Flight}
    (hk : env.registry op.name = some kernel) (htrue : barrier kernel op (some flight) ≠ .ok true)
    (hrun : barrier kernel op (some flight) = .ok false → (env.outcome index).run ≠ .ok ()) :
    ∀ f, some flight = some f → ¬Passes env index op f := by
  rintro f hf ⟨-, kernel', hk', hpass⟩
  cases hf
  cases hk.symm.trans hk'
  rcases hpass with hwait | ⟨hgo, hok⟩
  · exact htrue hwait
  · exact hrun hgo hok

/-- Behind its barrier an op is started as if nothing was in flight. -/
theorem handled_wait {env : Env} {index : Nat} {op : Op} {kernel : Kernel} (counts : Counts)
    {flight : Flight}
    (hk : env.registry op.name = some kernel) (hpass : Passes env index op flight) :
    Handled env index op counts (some flight) (do
      completeFlight env (some flight)
      let next ← startOp env index kernel none
      pure (next, counts.add kernel)) := by
  have hflight := completeFlight_some env flight
  cases hc : (env.outcome flight.index).complete with
  | error e =>
    rw [hc] at hflight
    rw [Traced.bind_error hflight]
    exact Handled.failedComplete e hpass
  | ok _ =>
    rw [hc] at hflight
    rw [Traced.bind_ok hflight]
    have hs := started_none env index kernel
    generalize startOp env index kernel none = x at hs
    obtain ⟨events, result⟩ := x
    cases result with
    | error e =>
      cases hs
      exact Handled.failedComplete e hpass
    | ok next =>
      rw [Traced.bind_ok rfl]
      have h : Handled env index op counts (some flight) _ :=
        Handled.started hk (fun f hf => by cases hf; exact hpass) hs
      simpa using h

/-- An op that does not touch what is in flight runs beside it. -/
theorem handled_beside {env : Env} {index : Nat} {op : Op} {kernel : Kernel} (counts : Counts)
    {flight : Flight}
    (hname : ¬op.name = "") (hk : env.registry op.name = some kernel)
    (hb : barrier kernel op (some flight) = .ok false) :
    Handled env index op counts (some flight) (do
      let next ← startOp env index kernel (some flight)
      pure (next, counts.add kernel)) := by
  have hrun : startOp env index kernel (some flight) = (do
      Traced.lift (env.outcome index).run
      Traced.emit (.run index)
      pure (some flight)) := by
    unfold startOp
    rw [if_neg (by simp)]
  rw [hrun]
  cases ho : (env.outcome index).run with
  | error e => exact Handled.rejected e (not_passes hk (by rw [hb]; simp) fun _ => by rw [ho]; simp)
  | ok _ => exact Handled.overlapped hk ⟨hname, kernel, hk, Or.inr ⟨hb, ho⟩⟩ hb

theorem handled_some (env : Env) (index : Nat) (op : Op) (counts : Counts) (flight : Flight) :
    Handled env index op counts (some flight) (handleOp env index op (some flight) counts) := by
  unfold handleOp
  split
  · next hname => exact Handled.rejected _ fun _ _ h => h.1 hname
  · next hname =>
    cases hk : env.registry op.name with
    | none =>
      refine Handled.rejected _ fun _ _ h => ?_
      obtain ⟨kernel, hk', -⟩ := h.2
      rw [hk] at hk'
      cases hk'
    | some kernel =>
      simp only
      cases hb : barrier kernel op (some flight) with
      | error e =>
        rw [Traced.lift_error_bind]
        exact Handled.rejected e (not_passes hk (by rw [hb]; simp) fun hgo => by
          rw [hb] at hgo; cases hgo)
      | ok wait =>
        simp only [Traced.lift_ok_bind]
        cases wait with
        | true =>
          rw [if_pos rfl]
          exact handled_wait counts hk ⟨hname, kernel, hk, Or.inl hb⟩
        | false =>
          rw [if_neg Bool.false_ne_true]
          exact handled_beside counts hname hk hb

theorem handled (env : Env) (index : Nat) (op : Op) (counts : Counts) (inFlight : Option Flight) :
    Handled env index op counts inFlight (handleOp env index op inFlight counts) := by
  cases inFlight with
  | none => exact handled_none env index op counts
  | some flight => exact handled_some env index op counts flight

/-! ## The loop -/

variable {index : Nat} {inFlight : Option Flight} {counts : Counts} {op : Op} {rest : List Op}

theorem schedule_nil_events (env : Env) (index : Nat) (inFlight : Option Flight) (counts : Counts) :
    (schedule env index inFlight counts []).events =
      inFlight.toList.map fun flight => .complete flight.index := by
  cases inFlight with
  | none => rfl
  | some flight =>
    rw [schedule, completeFlight_some]
    cases (env.outcome flight.index).complete <;> rfl

theorem schedule_cons_ok {events : List Event} {next : Option Flight × Counts}
    (h : handleOp env index op inFlight counts = ⟨events, .ok next⟩) :
    schedule env index inFlight counts (op :: rest) =
      ⟨events ++ (schedule env (index + 1) next.1 next.2 rest).events,
        (schedule env (index + 1) next.1 next.2 rest).result⟩ := by
  rw [schedule, Traced.bind_ok h]

theorem schedule_cons_error {events : List Event} {e : Err}
    (h : handleOp env index op inFlight counts = ⟨events, .error e⟩) :
    schedule env index inFlight counts (op :: rest) = ⟨events, .error e⟩ := by
  rw [schedule, Traced.bind_error h]

/-- The loop, started at `index`, comes to op `j` with `flight` in flight. -/
inductive Reaches (env : Env) : Nat → Option Flight → Counts → List Op → Nat → Op → Flight → Prop
  | here {index : Nat} {flight : Flight} {counts : Counts} {op : Op} {rest : List Op} :
      Reaches env index (some flight) counts (op :: rest) index op flight
  | later {index j : Nat} {inFlight : Option Flight} {counts : Counts} {op op' : Op}
      {rest : List Op}
      {flight : Flight} {events : List Event} {next : Option Flight × Counts} :
      handleOp env index op inFlight counts = ⟨events, .ok next⟩ →
      Reaches env (index + 1) next.1 next.2 rest j op' flight →
      Reaches env index inFlight counts (op :: rest) j op' flight

theorem reaches_cons_ok {events : List Event} {next : Option Flight × Counts} {j : Nat} {op' : Op}
    {flight : Flight} (h : handleOp env index op inFlight counts = ⟨events, .ok next⟩) :
    Reaches env index inFlight counts (op :: rest) j op' flight ↔
      (j = index ∧ op' = op ∧ inFlight = some flight) ∨
        Reaches env (index + 1) next.1 next.2 rest j op' flight := by
  constructor
  · intro hr
    cases hr with
    | here => exact Or.inl ⟨rfl, rfl, rfl⟩
    | later h' hr =>
      cases h.symm.trans h'
      exact Or.inr hr
  · rintro (⟨rfl, rfl, rfl⟩ | hr)
    · exact Reaches.here
    · exact Reaches.later h hr

theorem reaches_cons_error {events : List Event} {e : Err} {j : Nat} {op' : Op} {flight : Flight}
    (h : handleOp env index op inFlight counts = ⟨events, .error e⟩) :
    Reaches env index inFlight counts (op :: rest) j op' flight ↔
      j = index ∧ op' = op ∧ inFlight = some flight := by
  constructor
  · intro hr
    cases hr with
    | here => exact ⟨rfl, rfl, rfl⟩
    | later h' _ => cases h.symm.trans h'
  · rintro ⟨rfl, rfl, rfl⟩
    exact Reaches.here

/-- The loop issues ops from `index` on, and completes those or the one in flight. -/
theorem schedule_indices (env : Env) (index : Nat) (inFlight : Option Flight) (counts : Counts)
    (ops : List Op) :
    (∀ i p, .issue i p ∈ (schedule env index inFlight counts ops).events → index ≤ i) ∧
      ∀ i, .complete i ∈ (schedule env index inFlight counts ops).events →
        index ≤ i ∨ ∃ flight, inFlight = some flight ∧ flight.index = i := by
  induction ops generalizing index inFlight counts with
  | nil =>
    rw [schedule_nil_events]
    cases inFlight <;> simp
  | cons op rest ih =>
    have h := handled env index op counts inFlight
    generalize hx : handleOp env index op inFlight counts = x at h
    cases h with
    | rejected e _ =>
      rw [schedule_cons_error hx]
      simp
    | @overlapped flight kernel hk hpass hb =>
      obtain ⟨ih1, ih2⟩ := ih (index + 1) (some flight) (counts.add kernel)
      rw [schedule_cons_ok hx]
      refine ⟨fun i p hi => ?_, fun i hi => ?_⟩
      · have := ih1 i p (by simpa using hi)
        omega
      · rcases ih2 i (by simpa using hi) with hle | hf
        · exact Or.inl (by omega)
        · exact Or.inr hf
    | @failedComplete flight e hpass =>
      rw [schedule_cons_error hx]
      simp
    -- the flight is completed here, or was completed with an index of `ih`
    | @started inFlight kernel next events hk hpass hs =>
      obtain ⟨ih1, ih2⟩ := ih (index + 1) next (counts.add kernel)
      rw [schedule_cons_ok hx]
      refine ⟨fun i p hi => ?_, fun i hi => ?_⟩
      · cases hs with
        | ran =>
          have := ih1 i p (by simpa using hi)
          omega
        | issued pending _ =>
          simp only [List.append_assoc, List.mem_append, List.mem_map, List.mem_cons,
            List.not_mem_nil, or_false, reduceCtorEq, and_false, exists_false, false_or,
            Event.issue.injEq] at hi
          rcases hi with ⟨rfl, -⟩ | hi
          · exact Nat.le_refl _
          · have := ih1 i p hi
            omega
      · cases hs with
        | ran =>
          simp only [List.append_assoc, List.mem_append, List.mem_map,
            Option.mem_toList, List.mem_cons, List.not_mem_nil, or_false, reduceCtorEq, false_or,
            Event.complete.injEq] at hi
          rcases hi with ⟨flight, hf, rfl⟩ | hi
          · exact Or.inr ⟨flight, hf, rfl⟩
          · rcases ih2 i hi with hle | ⟨flight, hf, -⟩
            · exact Or.inl (by omega)
            · cases hf
        | issued pending _ =>
          simp only [List.append_assoc, List.mem_append, List.mem_map,
            Option.mem_toList, List.mem_cons, List.not_mem_nil, or_false, reduceCtorEq, false_or,
            Event.complete.injEq] at hi
          rcases hi with ⟨flight, hf, rfl⟩ | hi
          · exact Or.inr ⟨flight, hf, rfl⟩
          · rcases ih2 i hi with hle | ⟨flight, hf, rfl⟩
            · exact Or.inl (by omega)
            · cases hf
              exact Or.inl (Nat.le_refl _)

/-- Every issued op has its `complete` called exactly once. -/
def NoneAbandoned (events : List Event) : Prop :=
  ∀ i p, .issue i p ∈ events → events.count (.complete i) = 1

/-- The same, for a run that starts with an op in flight. -/
def Drained (inFlight : Option Flight) (events : List Event) : Prop :=
  (∀ flight, inFlight = some flight → events.count (.complete flight.index) = 1) ∧
    NoneAbandoned events

theorem drained_nil_none : Drained none [] := ⟨by simp, by simp [NoneAbandoned]⟩

theorem drained_run_cons {events : List Event} :
    Drained inFlight (.run index :: events) ↔ Drained inFlight events := by
  simp [Drained, NoneAbandoned]

theorem drained_issue_cons {pending : Pending} {events : List Event} :
    Drained none (.issue index pending :: events) ↔ Drained (some ⟨index, pending⟩) events := by
  unfold Drained NoneAbandoned
  constructor
  · rintro ⟨-, h⟩
    refine ⟨?_, fun i p hi => ?_⟩
    · rintro flight ⟨⟩
      simpa using h index pending List.mem_cons_self
    · simpa using h i p (List.mem_cons_of_mem _ hi)
  · rintro ⟨hflight, h⟩
    refine ⟨by simp, fun i p hi => ?_⟩
    cases hi with
    | head => simpa using hflight _ rfl
    | tail _ hi => simpa using h i p hi

theorem drained_complete_cons {flight : Flight} {events : List Event}
    (hfresh : .complete flight.index ∉ events)
    (hissue : ∀ i p, .issue i p ∈ events → flight.index < i) :
    Drained (some flight) (.complete flight.index :: events) ↔ Drained none events := by
  have hzero : events.count (.complete flight.index) = 0 := List.count_eq_zero_of_not_mem hfresh
  have hcount : ∀ i p, .issue i p ∈ events →
      (Event.complete flight.index :: events).count (.complete i) = events.count (.complete i) := by
    intro i p hi
    have := hissue i p hi
    rw [List.count_cons_of_ne]
    rintro ⟨⟩
    omega
  unfold Drained NoneAbandoned
  constructor
  · rintro ⟨-, h⟩
    refine ⟨by simp, fun i p hi => ?_⟩
    rw [← hcount i p hi]
    exact h i p (List.mem_cons_of_mem _ hi)
  · rintro ⟨-, h⟩
    refine ⟨?_, fun i p hi => ?_⟩
    · rintro f ⟨⟩
      simp [hzero]
    · have hi' : .issue i p ∈ events := by simpa using hi
      rw [hcount i p hi']
      exact h i p hi'

/-- Starting an op and going on from there. -/
theorem Started.drained {next : Option Flight} {events tail : List Event}
    (hs : Started env index ⟨events, .ok next⟩) :
    Drained none (events ++ tail) ↔ Drained next tail := by
  cases hs with
  | ran => exact drained_run_cons
  | issued pending _ => exact drained_issue_cons

/-- The op in flight is completed first, and is not in what follows. -/
theorem Started.drained_schedule {next : Option Flight} {events : List Event}
    (hs : Started env index ⟨events, .ok next⟩)
    {inFlight : Option Flight} (hflight : ∀ flight, inFlight = some flight → flight.index < index)
    (counts : Counts) (rest : List Op) :
    Drained inFlight ((inFlight.toList.map fun flight => .complete flight.index) ++ events ++
        (schedule env (index + 1) next counts rest).events) ↔
      Drained next (schedule env (index + 1) next counts rest).events := by
  obtain ⟨hissue, hcomplete⟩ := schedule_indices env (index + 1) next counts rest
  cases inFlight with
  | none => exact hs.drained
  | some flight =>
    have hlt := hflight flight rfl
    simp only [Option.toList_some, List.map_cons, List.map_nil, List.cons_append, List.nil_append]
    rw [drained_complete_cons, hs.drained]
    · intro hmem
      rcases List.mem_append.mp hmem with hhead | htail
      · cases hs <;> simp at hhead
      · rcases hcomplete _ htail with hle | ⟨f, hf, heq⟩
        · omega
        · subst hf
          cases hs
          simp only at heq
          omega
    · intro i p hmem
      rcases List.mem_append.mp hmem with hhead | htail
      · cases hs with
        | ran => simp at hhead
        | issued pending _ =>
          obtain ⟨rfl, -⟩ : i = index ∧ p = pending := by simpa using hhead
          exact hlt
      · have := hissue i p htail
        omega

/-- The loop completes the op in flight and all it issues exactly when no op fails
    before its barrier. -/
theorem schedule_drained (env : Env) (index : Nat) (inFlight : Option Flight) (counts : Counts)
    (ops : List Op) (hflight : ∀ flight, inFlight = some flight → flight.index < index) :
    Drained inFlight (schedule env index inFlight counts ops).events ↔
      ∀ j op flight, Reaches env index inFlight counts ops j op flight →
        Passes env j op flight := by
  induction ops generalizing index inFlight counts with
  | nil =>
    rw [schedule_nil_events]
    refine ⟨fun _ j op flight h => (by cases h), fun _ => ?_⟩
    cases inFlight with
    | none => exact drained_nil_none
    | some flight => simp [Drained, NoneAbandoned]
  | cons op rest ih =>
    have h := handled env index op counts inFlight
    generalize hx : handleOp env index op inFlight counts = x at h
    -- one case for each way to handle the op
    cases h with
    | rejected e hnot =>
      rw [schedule_cons_error hx]
      simp only [reaches_cons_error hx]
      cases inFlight with
      | none => exact ⟨by simp, fun _ => drained_nil_none⟩
      | some flight =>
        -- a rejected op leaves the flight, which no event completes
        constructor
        · rintro ⟨hcount, -⟩
          have := hcount flight rfl
          simp at this
        · intro hall
          exact absurd (hall index op flight ⟨rfl, rfl, rfl⟩) (hnot flight rfl)
    | @overlapped flight kernel hk hpass hb =>
      rw [schedule_cons_ok hx]
      simp only [reaches_cons_ok hx, List.singleton_append]
      rw [drained_run_cons, ih (index + 1) (some flight) (counts.add kernel) (fun f hf => by
        have := hflight f hf
        omega)]
      constructor
      · rintro hall j op' f (⟨rfl, rfl, hf⟩ | hr)
        · cases hf
          exact hpass
        · exact hall j op' f hr
      · exact fun hall j op' f hr => hall j op' f (Or.inr hr)
    | @failedComplete flight e hpass =>
      rw [schedule_cons_error hx]
      simp only [reaches_cons_error hx]
      refine ⟨?_, fun _ => by simp [Drained, NoneAbandoned]⟩
      rintro - j op' f ⟨rfl, rfl, hf⟩
      cases hf
      exact hpass
    | @started inFlight kernel next events hk hpass hs =>
      have hnext : ∀ f, next = some f → f.index < index + 1 := by
        rintro f rfl
        cases hs
        exact Nat.lt_succ_self _
      rw [schedule_cons_ok hx]
      simp only [reaches_cons_ok hx]
      rw [hs.drained_schedule hflight, ih (index + 1) next (counts.add kernel) hnext]
      constructor
      · rintro hall j op' f (⟨rfl, rfl, hf⟩ | hr)
        · exact hpass f hf
        · exact hall j op' f hr
      · exact fun hall j op' f hr => hall j op' f (Or.inr hr)

/-! ## The whole run -/

theorem runGraph_events_error {metadata : Metadata} {e : Err}
    (h : checkRequest metadata = .error e) :
    (runGraph env metadata).events = [] := by
  unfold runGraph
  rw [h, Traced.lift_error_bind]
  rfl

/-- The checks after the loop call no kernel. -/
theorem runGraph_events_ok {metadata : Metadata} {request : Int × List Op × List Int}
    (h : checkRequest metadata = .ok request) :
    (runGraph env metadata).events = (schedule env 0 none ⟨0, 0⟩ request.2.1).events := by
  unfold runGraph
  rw [h, Traced.lift_ok_bind]
  generalize schedule env 0 none ⟨0, 0⟩ request.2.1 = x
  obtain ⟨events, result⟩ := x
  cases result with
  | error e => rfl
  | ok counts =>
    rw [Traced.bind_ok rfl]
    cases request.2.2.forM env.describe with
    | error e => simp [Traced.raise]
    | ok _ => simp

/-- Every pending object is completed exactly once if and only if no op leaves the
    loop while another one is in flight. -/
theorem noneAbandoned_iff (env : Env) (metadata : Metadata) :
    NoneAbandoned (runGraph env metadata).events ↔
      ∀ graphVersion ops outputs, checkRequest metadata = .ok (graphVersion, ops, outputs) →
        ∀ j op flight, Reaches env 0 none ⟨0, 0⟩ ops j op flight → Passes env j op flight := by
  cases h : checkRequest metadata with
  | error e =>
    rw [runGraph_events_error h]
    simp [NoneAbandoned]
  | ok request =>
    obtain ⟨graphVersion, ops, outputs⟩ := request
    have hdrained := schedule_drained env 0 none ⟨0, 0⟩ ops (by simp)
    rw [runGraph_events_ok h]
    constructor
    · rintro hnone _ _ _ ⟨⟩
      exact hdrained.mp ⟨by simp, hnone⟩
    · intro hall
      exact (hdrained.mpr (hall graphVersion ops outputs rfl)).2

/-- A matmul is issued and the next op has no name: the request fails with the
    matmul in flight. -/
theorem abandoned_matmul :
    let matmul : Op := ⟨"MATMUL_Q1A8", fun _ => none, fun _ => none⟩
    let unnamed : Op := ⟨"", fun _ => none, fun _ => none⟩
    let env : Env :=
      ⟨fun name => if name = "MATMUL_Q1A8" then some ⟨"pl", true⟩ else none,
        fun _ => ⟨.ok (), .ok (some ⟨1, 0, 64⟩), .ok ()⟩, fun _ => .ok ()⟩
    let metadata : Metadata := ⟨some (some 1), some [some matmul, some unnamed], some []⟩
    ¬ NoneAbandoned (runGraph env metadata).events := by
  intro matmul unnamed env metadata h
  have hevents : (runGraph env metadata).events = [.issue 0 ⟨1, 0, 64⟩] := by rfl
  rw [hevents] at h
  have := h 0 ⟨1, 0, 64⟩ List.mem_cons_self
  simp at this

end Board
