-- SUMMARY: Every request is served as the store serves it, whatever the kernels are, as long as each writes only the tensor its op names as destination.
import BonsaiTpu.Daemon.Execution

/-!
# The runtime refines the store

A kernel is `Kernel.Sound` when its methods write only the tensor that the op names as
`dst`. Then a graph changes no other tensor, however its ops overlap and wherever it
fails, and `serve_refines` is that the answer to every request and the allocator after it
are those of the store.
-/

namespace Daemon

open Wire (Json Dict Message)
open Board (Byte Err Allocator Prog TensorRecord Attrs Counts Touched contents locations fakeIo)

variable {κ α β : Type}

/-! ## Programs that write some tensors -/

/-- The machine after a program, whether or not it raises. -/
def after (p : Work (List Byte) κ α) (b : Machine (List Byte) κ) : Machine (List Byte) κ :=
  match p.run b with
  | .ok _ b' => b'
  | .error _ b' => b'

/-- The bytes of the tensors with some handles. -/
def Named (a : Allocator (List Byte)) (dst : Int → Prop) (loc : Board.Loc) : Prop :=
  ∃ r ∈ a.records, dst r.handle ∧ loc ∈ locations r.extents

/-- A program that writes only tensors with some handles, and what holds of its result. -/
def Writing (dst : Int → Prop) (p : Work (List Byte) κ α) (post : α → Prop) : Prop :=
  ∀ b, Sound b.allocator → Touched (Named b.allocator dst) b.allocator (after p b).allocator ∧
    ∀ x b', p.run b = .ok x b' → post x

section

variable {dst dst' : Int → Prop} {p : Work (List Byte) κ α} {post : α → Prop} {post' : β → Prop}

theorem Writing.pure {x : α} (h : post x) : Writing dst (pure x : Work (List Byte) κ α) post := by
  refine fun b _ => ⟨Touched.refl _ _, ?_⟩
  rintro _ _ ⟨⟩
  exact h

theorem Writing.throw (e : Err) : Writing dst (throw e : Work (List Byte) κ α) post := by
  refine fun b _ => ⟨Touched.refl _ _, ?_⟩
  rintro _ _ ⟨⟩

theorem Writing.lift {x : Except Err α} (h : ∀ v, x = .ok v → post v) :
    Writing dst (lift x : Work (List Byte) κ α) post := by
  cases x with
  | ok v => exact .pure (h v rfl)
  | error e => exact .throw e

theorem Writing.bind {f : α → Work (List Byte) κ β} (hp : Writing dst p post)
    (hf : ∀ x, post x → Writing dst (f x) post') :
    Writing dst (p >>= f) post' := by
  intro b hb
  obtain ⟨hfirst, hpost⟩ := hp b hb
  rw [after] at hfirst ⊢
  rw [EStateM.run_bind]
  cases hrun : p.run b with
  | error e b' =>
    rw [hrun] at hfirst
    refine ⟨hfirst, ?_⟩
    rintro _ _ ⟨⟩
  | ok x b' =>
    rw [hrun] at hfirst
    obtain ⟨hsecond, hpost'⟩ := hf x (hpost x b' hrun) b' (hb.touched hfirst)
    have hnamed : Named b'.allocator dst = Named b.allocator dst := by
      unfold Named
      rw [hfirst.records]
    rw [hnamed] at hsecond
    exact ⟨hfirst.trans hsecond, hpost'⟩

theorem Writing.mono {post₂ : α → Prop} (h : Writing dst p post)
    (hdst : ∀ handle, dst handle → dst' handle)
    (hpost : ∀ x, post x → post₂ x) : Writing dst' p post₂ := by
  intro b hb
  obtain ⟨hp, hx⟩ := h b hb
  refine ⟨⟨hp.layout, hp.lengths, fun loc hloc => hp.frame loc ?_⟩, fun x b' hrun =>
    hpost x (hx x b' hrun)⟩
  rintro ⟨r, hr, hin, hmem⟩
  exact hloc ⟨r, hr, hdst _ hin, hmem⟩

end

/-! ## Kernels and graphs -/

variable {py : Python}

/-- The op in flight, if there is one, completes into tensors with some handles. -/
def InFlight (dst : Int → Prop) (inFlight : Option (Flight (List Byte) κ)) : Prop :=
  ∀ flight, inFlight = some flight → Writing dst flight.complete fun _ => True

/-- The methods of a kernel write only the tensor that their op names as destination. -/
structure Kernel.Sound (py : Python) (kernel : Kernel (List Byte) κ) : Prop where
  run : ∀ op, Writing (Writes py op) (kernel.run op) fun _ => True
  runAsync : ∀ method, kernel.runAsync = some method → ∀ op,
    Writing (Writes py op) (method op) (InFlight (Writes py op))

/-- The destinations of the ops of a graph. -/
def Dsts (py : Python) (ops : List Dict) (handle : Int) : Prop := ∃ op ∈ ops, Writes py op handle

section

variable {dst : Int → Prop} {inFlight : Option (Flight (List Byte) κ)}
    {registry : Registry (List Byte) κ}

theorem InFlight.none : InFlight dst (none : Option (Flight (List Byte) κ)) := fun _ h => by cases h

theorem InFlight.mono {dst' : Int → Prop} (h : InFlight dst inFlight)
    (hdst : ∀ handle, dst handle → dst' handle) :
    InFlight dst' inFlight := fun flight hflight => (h flight hflight).mono hdst fun _ h => h

theorem InFlight.settle (h : InFlight dst inFlight) :
    Writing dst (settle inFlight) fun _ => True := by
  cases inFlight with
  | none => exact .pure trivial
  | some flight => exact h flight rfl

theorem writing_release (h : InFlight dst inFlight) (wait : Bool) :
    Writing dst (release wait inFlight) (InFlight dst) := by
  rw [release]
  split
  · exact h.settle.bind fun _ _ => .pure .none
  · exact .pure h

theorem writing_startOp {kernel : Kernel (List Byte) κ} (hkernel : kernel.Sound py) {op : Dict}
    (hop : ∀ handle, Writes py op handle → dst handle) (h : InFlight dst inFlight) :
    Writing dst (startOp kernel op inFlight) (InFlight dst) := by
  rw [startOp.eq_def]
  split
  · next method hmethod =>
    exact (hkernel.runAsync method hmethod op).mono hop fun _ hflight => hflight.mono hop
  · exact ((hkernel.run op).mono hop fun _ h => h).bind fun _ _ => .pure h

theorem getKernel_mem {opName : String} {kernel : Kernel (List Byte) κ}
    (h : getKernel registry opName = .ok kernel) :
    kernel ∈ registry := by
  rw [getKernel] at h
  split at h
  · next found hfound =>
    cases h
    exact List.mem_of_find?_eq_some hfound
  · cases h

variable (hk : ∀ kernel ∈ registry, kernel.Sound py)

include hk

/-- One op of a graph writes its destination and that of the op in flight before it. -/
theorem writing_graphOp (index : Nat) {op : Dict} (hop : ∀ handle, Writes py op handle → dst handle)
    (h : InFlight dst inFlight) (counts : Counts) :
    Writing dst (graphOp py registry index op inFlight counts) fun next => InFlight dst next.1 := by
  rw [graphOp]
  split
  · exact .throw _
  refine (Writing.lift fun kernel hget => hk kernel (getKernel_mem hget)).bind fun kernel hkernel =>
    ?_
  refine (Writing.lift fun _ _ => trivial).bind fun wait _ => ?_
  refine (writing_release h wait).bind fun held hheld => ?_
  exact (writing_startOp hkernel hop hheld).bind fun next hnext => .pure hnext

/-- The loop of a graph writes the destinations of its ops and that of the op in flight. -/
theorem writing_schedule (index : Nat) {ops : List Dict}
    (hops : ∀ handle, Dsts py ops handle → dst handle)
    (h : InFlight dst inFlight) (counts : Counts) :
    Writing dst (schedule py registry index inFlight counts ops) fun _ => True := by
  induction ops generalizing index inFlight counts with
  | nil => exact h.settle.bind fun _ _ => .pure trivial
  | cons op ops ih =>
    have hop : ∀ handle, Writes py op handle → dst handle :=
      fun handle hw => hops handle ⟨op, List.mem_cons_self, hw⟩
    have hrest : ∀ handle, Dsts py ops handle → dst handle := by
      rintro handle ⟨op', hmem, hw⟩
      exact hops handle ⟨op', List.mem_cons_of_mem _ hmem, hw⟩
    exact (writing_graphOp hk index hop h counts).bind fun next hnext =>
      ih (index + 1) hrest hnext next.2

end

/-! ## Graph requests -/

/-- What is touched of the bytes is what the ops can do to the store. -/
theorem ran_of_touched {a a' : Allocator (List Byte)} (ha : a.Inv) {ops : List Dict}
    (h : Touched (Named a (Dsts py ops)) a a') :
    (storeOf a).Ran py ops (storeOf a') := by
  have hslabs : a'.slabs.length = a.slabs.length := by
    simpa only [List.length_map] using congrArg List.length h.sizes
  have htotal : a'.totalBytes = a.totalBytes := congrArg List.sum h.sizes
  have hnext : a'.nextHandle = a.nextHandle := by rw [h.layout]
  refine ⟨by simp only [storeOf, htotal, hslabs, hnext], ?_⟩
  simp only [storeOf, h.records, List.forall₂_map_left_iff, List.forall₂_map_right_iff]
  refine List.forall₂_same.mpr fun r hr =>
    ⟨rfl, ?_, fun hout => List.map_congr_left fun loc hloc => h.frame loc ?_⟩
  · simp only [tensorOf, contents, List.length_map]
  · rintro ⟨r', hr', hdst, hloc'⟩
    by_cases heq : r' = r
    · exact hout (heq ▸ hdst)
    · exact (ha.separate hr).2 r' hr' heq loc hloc' hloc

theorem run_describe (b : Machine (List Byte) κ) (handle : Int) :
    match b.allocator.lookup handle with
    | some r => (describe handle : Work (List Byte) κ Dict).run b = .ok (describeRecord r) b
    | none => (describe handle : Work (List Byte) κ Dict).run b =
        .error (.allocator .unknownTensor s!"unknown tensor handle {handle}") b := by
  cases h : b.allocator.lookup handle with
  | some r =>
    have hmap := Board.run_map_prog describeRecord (Board.getRecord handle) b.allocator
    rw [Board.run_getRecord_some h] at hmap
    simp only [describe, onAllocator, EStateM.run] at hmap ⊢
    rw [hmap]
  | none =>
    have hmap := Board.run_map_prog describeRecord (Board.getRecord handle) b.allocator
    rw [Board.run_getRecord_none h] at hmap
    simp only [describe, onAllocator, EStateM.run] at hmap ⊢
    rw [hmap]

/-- The outputs of a graph are live tensors, or the first one that is not fails the request. -/
theorem run_checkOutputs (b : Machine (List Byte) κ) (outputs : List Int) :
    (checkOutputs outputs : Work (List Byte) κ Unit).run b = .ok () b ∧
        (∀ handle ∈ outputs, (b.allocator.lookup handle).isSome) ∨
      ∃ found handle missing, outputs = found ++ handle :: missing ∧
        (∀ handle ∈ found, (b.allocator.lookup handle).isSome) ∧ b.allocator.lookup handle = none ∧
        (checkOutputs outputs : Work (List Byte) κ Unit).run b =
          .error (.allocator .unknownTensor s!"unknown tensor handle {handle}") b := by
  induction outputs with
  | nil => exact Or.inl ⟨rfl, by simp⟩
  | cons handle outputs ih =>
    have hdescribe := run_describe b handle
    rw [checkOutputs, EStateM.run_bind]
    cases h : b.allocator.lookup handle with
    | none =>
      rw [h] at hdescribe
      simp only at hdescribe
      simp only [hdescribe]
      exact Or.inr ⟨[], handle, outputs, rfl, by simp, h, rfl⟩
    | some r =>
      rw [h] at hdescribe
      simp only at hdescribe
      simp only [hdescribe, List.forall_mem_cons, h, Option.isSome_some, true_and]
      rcases ih with hok | ⟨found, unknown, missing, rfl, hfound, hnone, hraises⟩
      · exact Or.inl hok
      · refine Or.inr ⟨handle :: found, unknown, missing, rfl, ?_, hnone, hraises⟩
        exact List.forall_mem_cons.mpr ⟨by rw [h]; rfl, hfound⟩

/-- A graph request with good arguments: the loop, then the check of the outputs. -/
theorem runGraph_eq (registry : Registry (List Byte) κ) (b : Machine (List Byte) κ)
    (figures : κ → Figures) {metadata : Dict}
    {graphVersion : Int} {ops : List Dict} {outputs : List Int}
    (hargs : graphArgs py metadata = .ok (graphVersion, ops, outputs)) :
    (runGraph py registry figures metadata).run b =
      match (schedule py registry 0 none ⟨0, 0⟩ ops).run b with
      | .ok counts b₁ =>
        match (checkOutputs outputs : Work (List Byte) κ Unit).run b₁ with
        | .ok _ b₂ =>
          .ok (graphResult graphVersion ops.length outputs counts (figures b₂.kernels)) b₂
        | .error e b₂ => .error e b₂
      | .error e b₁ => .error e b₁ := by
  rw [runGraph, hargs, EStateM.run_bind]
  simp only [lift, EStateM.run_pure, EStateM.run_bind, EStateM.run_get]
  cases (schedule py registry 0 none ⟨0, 0⟩ ops).run b with
  | error e b₁ => rfl
  | ok counts b₁ =>
    simp only
    cases (checkOutputs outputs : Work (List Byte) κ Unit).run b₁ <;> rfl

/-- The check of the outputs changes nothing. -/
theorem after_runGraph (registry : Registry (List Byte) κ) (b : Machine (List Byte) κ)
    (figures : κ → Figures) {metadata : Dict}
    {graphVersion : Int} {ops : List Dict} {outputs : List Int}
    (hargs : graphArgs py metadata = .ok (graphVersion, ops, outputs)) :
    after (runGraph py registry figures metadata) b =
      after (schedule py registry 0 none ⟨0, 0⟩ ops) b := by
  simp only [after, runGraph_eq registry b figures hargs]
  cases (schedule py registry 0 none ⟨0, 0⟩ ops).run b with
  | error e b₁ => rfl
  | ok counts b₁ =>
    rcases run_checkOutputs b₁ outputs with ⟨hok, -⟩ | ⟨found, handle, missing, -, -, -, hraises⟩
    · simp only [hok]
    · simp only [hraises]

section

variable {registry : Registry (List Byte) κ} (hk : ∀ kernel ∈ registry, kernel.Sound py)
    {b : Machine (List Byte) κ}
  (h : Sound b.allocator)

include hk h

/-- The bytes that a graph writes. -/
theorem runGraph_touched (figures : κ → Figures) {metadata : Dict} {graphVersion : Int}
    {ops : List Dict} {outputs : List Int}
    (hargs : graphArgs py metadata = .ok (graphVersion, ops, outputs)) :
    Touched (Named b.allocator (Dsts py ops)) b.allocator
      (after (runGraph py registry figures metadata) b).allocator := by
  rw [after_runGraph registry b figures hargs]
  exact (writing_schedule hk 0 (fun _ h =>
    h) (show InFlight (Dsts py ops) none from .none) ⟨0, 0⟩ b h).1

/-- A graph is executed on the store, and its result or what it raises is the answer. -/
theorem runGraph_serves (figures : κ → Figures) (overlayId : String) {m : Message}
    (hop : strOr py m.1 "op" "" = "RUN_GRAPH")
    {graphVersion : Int} {ops : List Dict} {outputs : List Int}
    (hargs : graphArgs py m.1 = .ok (graphVersion, ops, outputs)) :
    match (runGraph py registry figures m.1).run b with
    | .ok result b' =>
      Serves py registry figures overlayId m (storeOf b.allocator) (.ok (result, []))
        (storeOf b'.allocator)
    | .error e b' =>
      Serves py registry figures overlayId m (storeOf b.allocator) (.error (raised e))
        (storeOf b'.allocator) := by
  have htouched := runGraph_touched hk h figures hargs
  rw [after_runGraph registry b figures hargs, after] at htouched
  have hexecutes := schedule_executes py registry ops b none 0 ⟨0, 0⟩
  rw [runGraph_eq registry b figures hargs]
  cases hschedule : (schedule py registry 0 none ⟨0, 0⟩ ops).run b with
  | error e b₁ =>
    rw [hschedule] at htouched hexecutes
    exact .graphRaised hop hargs ⟨⟨b, b₁, h, rfl, hexecutes, rfl, rfl⟩,
      ran_of_touched h.inv htouched⟩
  | ok counts b₁ =>
    rw [hschedule] at htouched hexecutes
    have hgraphed : Graphed py registry ops (storeOf b.allocator) (.ok ())
        (storeOf b₁.allocator) b₁.kernels :=
      ⟨⟨b, b₁, h, rfl, hexecutes.1, rfl, rfl⟩, ran_of_touched h.inv htouched⟩
    have hcounts : counts = countsOf py registry ops := by simpa using hexecutes.2
    have hlookup : ∀ handle, (storeOf b.allocator).find handle = none ↔
        b₁.allocator.lookup handle = none := by
      intro handle
      rw [find_storeOf, Option.map_eq_none_iff, Board.Allocator.lookup, Board.Allocator.lookup,
        htouched.records]
    have hlive : ∀ handle, (b₁.allocator.lookup handle).isSome →
        ((storeOf b.allocator).find handle).isSome := by
      intro handle hsome
      rw [Option.isSome_iff_ne_none] at hsome ⊢
      exact fun hnone => hsome ((hlookup handle).mp hnone)
    simp only
    rcases run_checkOutputs b₁ outputs with ⟨hok, hfound⟩ |
      ⟨found, handle, missing, rfl, hfound, hnone, hraises⟩
    · simp only [hok, hcounts]
      exact .graph hop hargs hgraphed fun handle hmem => hlive handle (hfound handle hmem)
    · simp only [hraises]
      exact .missingOutput hop hargs hgraphed (fun handle hmem => hlive handle (hfound handle hmem))
        ((hlookup handle).mpr hnone)

end

/-! ## Tensor requests -/

section

variable (py : Python) {b : Machine (List Byte) κ}

theorem run_onAllocator_ok {p : Prog (List Byte) α} {x : α} {a : Allocator (List Byte)}
    (h : p.run b.allocator = .ok x a) :
    (onAllocator p : Work (List Byte) κ α).run b = .ok x { b with allocator := a } := by
  simp only [EStateM.run] at h
  simp only [onAllocator, EStateM.run, h]

theorem run_onAllocator_error {p : Prog (List Byte) α} {e : Err}
    (h : p.run b.allocator = .error e b.allocator) :
    (onAllocator p : Work (List Byte) κ α).run b = .error e b := by
  simp only [EStateM.run] at h
  simp only [onAllocator, EStateM.run, h]

/-- A live tensor is described as the store describes it. -/
theorem run_describe_live (hb : b.allocator.Inv) {handle : Int} {r : TensorRecord}
    (h : b.allocator.lookup handle = some r) :
    (describe handle : Work (List Byte) κ Dict).run b =
      .ok ((tensorOf b.allocator r).describe r.handle) b := by
  have hdescribe := run_describe b handle
  rw [h] at hdescribe
  rw [describe_tensorOf hb (Board.lookup_eq_some h).1]
  exact hdescribe

variable (h : Sound b.allocator)

include h

theorem run_uploadTensor (metadata : Dict) (payload : List Byte) :
    match (storeOf b.allocator).upload py metadata payload with
    | .ok (result, s) =>
      ∃ a, (uploadTensor py fakeIo metadata payload : Work (List Byte) κ Dict).run b =
        .ok result { b with allocator := a } ∧ Sound a ∧ storeOf a = s
    | .error e =>
      (uploadTensor py fakeIo metadata payload : Work (List Byte) κ Dict).run b = .error e b := by
  rw [uploadTensor, Store.upload]
  cases hhandle : requiredInt py metadata "handle" with
  | error e => rfl
  | ok handle =>
    cases hoffset : intOr py metadata "offset" 0 with
    | error e => rfl
    | ok offset =>
      have hwrite := run_write h handle offset payload
      simp only [ok_bind]
      cases hrange : (storeOf b.allocator).range handle offset payload.length with
      | error e =>
        rw [hrange] at hwrite
        simp only [error_bind, EStateM.run_bind, run_lift_ok, run_onAllocator_error hwrite]
      | ok t =>
        rw [hrange] at hwrite
        obtain ⟨a, r, hrun, ha, hlookup, rfl, hstore⟩ := hwrite
        have hdescribe := run_describe_live (b := { b with allocator := a }) ha.inv hlookup
        refine ⟨a, ?_, ha, hstore⟩
        have hsame : (tensorOf a r).describe r.handle =
            (tensorOf b.allocator r).describe r.handle := by
          simp only [Tensor.describe, tensorOf, contents, List.length_map]
        simp only [EStateM.run_bind, run_lift_ok, run_onAllocator_ok hrun, hdescribe,
          EStateM.run_pure, hsame]

theorem run_downloadTensor (metadata : Dict) :
    match (storeOf b.allocator).download py metadata with
    | .ok answer =>
      (downloadTensor py fakeIo metadata : Work (List Byte) κ (Dict × List Byte)).run
        b = .ok answer b
    | .error e =>
      (downloadTensor py fakeIo metadata : Work (List Byte) κ (Dict × List Byte)).run b =
        .error e b := by
  rw [downloadTensor, Store.download]
  cases hhandle : requiredInt py metadata "handle" with
  | error e => rfl
  | ok handle =>
    cases hoffset : intOr py metadata "offset" 0 with
    | error e => rfl
    | ok offset =>
      cases hsize : requiredInt py metadata "size" with
      | error e => rfl
      | ok size =>
        have hread := run_read h handle offset size
        have hvalidate := run_validateRange h.inv handle offset size
        simp only [ok_bind]
        cases hrange : (storeOf b.allocator).range handle offset size with
        | error e =>
          rw [hrange] at hread
          simp only [error_bind, EStateM.run_bind, run_lift_ok, run_onAllocator_error hread]
        | ok t =>
          rw [hrange] at hread hvalidate
          obtain ⟨-, r, hin, rfl⟩ := hvalidate
          have hlen :
              ((((tensorOf b.allocator r).bytes.drop offset.toNat).take size.toNat).length : Int) =
                size := by
            have hbytes : (tensorOf b.allocator r).bytes.length = r.nbytes :=
              h.inv.length_contents hin.mem
            obtain ⟨-, h0, h1, h2⟩ := hin
            rw [List.length_take, List.length_drop, hbytes]
            omega
          simp only [ok_bind, EStateM.run_bind, run_lift_ok, run_onAllocator_ok hread,
            run_describe_live h.inv hin.1, EStateM.run_pure, hlen]

theorem run_allocTensor {metadata : Dict} {nbytes alignment : Int} {attrs : Attrs}
    (hargs : allocArgs py metadata = .ok (nbytes, attrs, alignment)) (hn : 0 ≤ nbytes) :
    (∃ a t, (allocTensor py metadata : Work (List Byte) κ Dict).run b =
        .ok (object [("tensor", .obj (t.describe b.allocator.nextHandle))])
          { b with allocator := a } ∧ Sound a ∧
      (nbytes ≤ (storeOf b.allocator).freeBytes ∧ (nbytes = 0 ∨ 0 ≤ alignment)) ∧
      (t.bytes.length : Int) = nbytes ∧
      t = ⟨t.bytes, attrs.shape, attrs.dtype, attrs.usage, attrs.layout, t.extentCount⟩ ∧
      storeOf a = { storeOf b.allocator with
        tensors := (storeOf b.allocator).tensors ++ [(b.allocator.nextHandle, t)]
        next := b.allocator.nextHandle + 1 }) ∨
    ∃ e, (allocTensor py metadata : Work (List Byte) κ Dict).run b = .error e b ∧
      (storeOf b.allocator).Refuses nbytes.toNat alignment e := by
  rw [allocTensor, hargs, EStateM.run_bind]
  simp only [run_lift_ok]
  rcases run_allocate h hn attrs alignment with
    ⟨a, r, hrun, ha, hlookup, hfits, hlen, hr, hstore⟩ | ⟨e, hrun, hrefuses⟩
  · have hdescribe := run_describe_live (b := { b with allocator := a }) ha.inv hlookup
    have hhandle : r.handle = b.allocator.nextHandle := congrArg TensorRecord.handle hr
    rw [hhandle] at hdescribe
    refine Or.inl ⟨a, tensorOf a r, ?_, ha, hfits, ?_, ?_, hstore⟩
    · simp only [EStateM.run_bind, run_onAllocator_ok hrun, hdescribe, EStateM.run_pure, hhandle]
    · rw [← hlen]
      exact congrArg Int.ofNat (ha.inv.length_contents (Board.lookup_eq_some hlookup).1)
    · rw [hr]
      rfl
  · exact Or.inr ⟨e, by simp only [EStateM.run_bind, run_onAllocator_error hrun], hrefuses⟩

theorem run_freeTensor (metadata : Dict) :
    match (storeOf b.allocator).free py metadata with
    | .ok (result, s) => ∃ a, (freeTensor py metadata : Work (List Byte) κ Dict).run b =
        .ok result { b with allocator := a } ∧ Sound a ∧ storeOf a = s
    | .error e => (freeTensor py metadata : Work (List Byte) κ Dict).run b = .error e b := by
  rw [freeTensor, Store.free]
  cases hhandle : requiredInt py metadata "handle" with
  | error e => rfl
  | ok handle =>
    have hfree := run_free h handle
    simp only [ok_bind]
    cases hget : (storeOf b.allocator).get handle with
    | error e =>
      rw [hget] at hfree
      simp only [error_bind, EStateM.run_bind, run_lift_ok, run_onAllocator_error hfree]
    | ok t =>
      rw [hget] at hfree
      obtain ⟨a, r, hrun, ha, hr, hlen, hstore⟩ := hfree
      refine ⟨a, ?_, ha, hstore⟩
      simp only [EStateM.run_bind, run_lift_ok, run_onAllocator_ok hrun, EStateM.run_get,
        EStateM.run_pure, hr, hlen, ← hstore, memory_storeOf ha.inv]

end

/-! ## Requests -/

section

variable {registry : Registry (List Byte) κ} {figures : κ → Figures}
    {overlayId : String} {m : Message}
  {b b' : Machine (List Byte) κ}

theorem serve_ok {answer : Dict × List Byte}
    (h : (handle py registry figures fakeIo overlayId m).run b = .ok answer b') :
    serve py registry figures fakeIo overlayId m b = (.ok answer, b') := by
  rw [serve, h]

theorem serve_error {e : Err}
    (h : (handle py registry figures fakeIo overlayId m).run b = .error e b') :
    serve py registry figures fakeIo overlayId m b = (.error (raised e), b') := by
  rw [serve, h]

theorem nonNegativeInt_nonneg {value : Json} {name : String} {n : Int}
    (h : nonNegativeInt py value name = .ok n) : 0 ≤ n := by
  rw [nonNegativeInt] at h
  cases hint : py.int value with
  | error e =>
    rw [hint] at h
    cases h
  | ok parsed =>
    rw [hint, ok_bind] at h
    split at h
    · cases h
    · next hneg =>
      cases h
      exact Int.not_lt.mp hneg

theorem requiredInt_nonneg {metadata : Dict} {key : String} {n : Int}
    (h : requiredInt py metadata key = .ok n) : 0 ≤ n := by
  rw [requiredInt] at h
  split at h
  · cases h
  · exact nonNegativeInt_nonneg h

theorem allocArgs_nonneg {metadata : Dict} {nbytes alignment : Int} {attrs : Attrs}
    (h : allocArgs py metadata = .ok (nbytes, attrs, alignment)) : 0 ≤ nbytes := by
  rw [allocArgs] at h
  cases hnbytes : requiredInt py metadata "nbytes" with
  | error e =>
    rw [hnbytes] at h
    cases h
  | ok n =>
    rw [hnbytes, ok_bind] at h
    cases hshape : optionalList py metadata "shape" with
    | error e =>
      rw [hshape] at h
      cases h
    | ok shape =>
      rw [hshape, ok_bind] at h
      cases halign : intOr py metadata "alignment" 64 with
      | error e =>
        rw [halign] at h
        cases h
      | ok k =>
        rw [halign, ok_bind] at h
        cases h
        exact requiredInt_nonneg hnbytes

/-- What a request makes of a machine is what it makes of its store. -/
def Refines (py : Python) (registry : Registry (List Byte) κ) (figures : κ → Figures)
    (overlayId : String) (m : Message) (b : Machine (List Byte) κ) : Prop :=
  Sound (serve py registry figures fakeIo overlayId m b).2.allocator ∧
    Serves py registry figures overlayId m (storeOf b.allocator)
      (serve py registry figures fakeIo overlayId m b).1
      (storeOf (serve py registry figures fakeIo overlayId m b).2.allocator)

theorem Refines.ok (answer : Dict × List Byte) (b' : Machine (List Byte) κ)
    (hrun : (handle py registry figures fakeIo overlayId m).run b = .ok answer b')
    (hsound : Sound b'.allocator)
    (hserves : Serves py registry figures overlayId m (storeOf b.allocator) (.ok answer)
      (storeOf b'.allocator)) :
    Refines py registry figures overlayId m b := by
  rw [Refines, serve_ok hrun]
  exact ⟨hsound, hserves⟩

theorem Refines.error (e : Err) (b' : Machine (List Byte) κ)
    (hrun : (handle py registry figures fakeIo overlayId m).run b = .error e b')
    (hsound : Sound b'.allocator)
    (hserves : Serves py registry figures overlayId m (storeOf b.allocator) (.error (raised e))
      (storeOf b'.allocator)) :
    Refines py registry figures overlayId m b := by
  rw [Refines, serve_error hrun]
  exact ⟨hsound, hserves⟩

section

variable (h : Sound b.allocator)

include h

theorem refines_alloc (hop : strOr py m.1 "op" "" = "ALLOC_TENSOR") :
    Refines py registry figures overlayId m b := by
  have hhandle : handle py registry figures fakeIo overlayId m = (do
      let result ← allocTensor py m.1
      pure (result, []) : Work (List Byte) κ (Dict × List Byte)) := by
    simp only [handle, hop]
    rfl
  cases hargs : allocArgs py m.1 with
  | error e =>
    refine .error e b ?_ h (.badAlloc hop hargs)
    rw [hhandle, allocTensor, hargs]
    rfl
  | ok args =>
    obtain ⟨nbytes, attrs, alignment⟩ := args
    rcases run_allocTensor py h hargs (allocArgs_nonneg hargs) with
      ⟨a, t, hrun, ha, ⟨hfits, hgood⟩, hlen, ht, hstore⟩ | ⟨e, hrun, hrefuses⟩
    · refine .ok (object [("tensor", .obj (t.describe b.allocator.nextHandle))], [])
        { b with allocator := a } ?_ ha ?_
      · rw [hhandle, EStateM.run_bind, hrun]
        rfl
      · rw [hstore]
        exact .allocated hop hargs hfits hgood hlen (congrArg Tensor.shape ht)
          (congrArg Tensor.dtype ht) (congrArg Tensor.usage ht)
          (congrArg Tensor.layout ht)
    · refine .error e b ?_ h (.refused hop hargs hrefuses)
      rw [hhandle, EStateM.run_bind, hrun]

theorem refines_upload (hop : strOr py m.1 "op" "" = "UPLOAD_TENSOR") :
    Refines py registry figures overlayId m b := by
  have hhandle : handle py registry figures fakeIo overlayId m = (do
      let result ← uploadTensor py fakeIo m.1 m.2
      pure (result, []) : Work (List Byte) κ (Dict × List Byte)) := by
    simp only [handle, hop]
    rfl
  have hserved := run_uploadTensor py h m.1 m.2
  cases hspec : (storeOf b.allocator).upload py m.1 m.2 with
  | ok r =>
    rw [hspec] at hserved
    obtain ⟨a, hrun, ha, hstore⟩ := hserved
    refine .ok (r.1, []) { b with allocator := a } ?_ ha (.upload hop ?_)
    · rw [hhandle, EStateM.run_bind, hrun]
      rfl
    · rw [hspec, hstore]
      rfl
  | error e =>
    rw [hspec] at hserved
    refine .error e b ?_ h (.upload hop (by rw [hspec]; rfl))
    rw [hhandle, EStateM.run_bind, hserved]

theorem refines_download (hop : strOr py m.1 "op" "" = "DOWNLOAD_TENSOR") :
    Refines py registry figures overlayId m b := by
  have hhandle : handle py registry figures fakeIo overlayId m = downloadTensor py fakeIo m.1 := by
    simp only [handle, hop]
    rfl
  have hserved := run_downloadTensor py h m.1
  cases hspec : (storeOf b.allocator).download py m.1 with
  | ok answer =>
    rw [hspec] at hserved
    exact .ok answer b (by rw [hhandle]; exact hserved) h (.download hop (by rw [hspec]; rfl))
  | error e =>
    rw [hspec] at hserved
    exact .error e b (by rw [hhandle]; exact hserved) h (.download hop (by rw [hspec]; rfl))

theorem refines_free (hop : strOr py m.1 "op" "" = "FREE_TENSOR") :
    Refines py registry figures overlayId m b := by
  have hhandle : handle py registry figures fakeIo overlayId m = (do
      let result ← freeTensor py m.1
      pure (result, []) : Work (List Byte) κ (Dict × List Byte)) := by
    simp only [handle, hop]
    rfl
  have hserved := run_freeTensor py h m.1
  cases hspec : (storeOf b.allocator).free py m.1 with
  | ok r =>
    rw [hspec] at hserved
    obtain ⟨a, hrun, ha, hstore⟩ := hserved
    refine .ok (r.1, []) { b with allocator := a } ?_ ha (.free hop ?_)
    · rw [hhandle, EStateM.run_bind, hrun]
      rfl
    · rw [hspec, hstore]
      rfl
  | error e =>
    rw [hspec] at hserved
    refine .error e b ?_ h (.free hop (by rw [hspec]; rfl))
    rw [hhandle, EStateM.run_bind, hserved]

theorem refines_graph (hk : ∀ kernel ∈ registry, kernel.Sound py)
    (hop : strOr py m.1 "op" "" = "RUN_GRAPH") :
    Refines py registry figures overlayId m b := by
  have hhandle : handle py registry figures fakeIo overlayId m = (do
      let result ← runGraph py registry figures m.1
      pure (result, []) : Work (List Byte) κ (Dict × List Byte)) := by
    simp only [handle, hop]
    rfl
  cases hargs : graphArgs py m.1 with
  | error e =>
    refine .error e b ?_ h (.badGraph hop hargs)
    rw [hhandle, runGraph, hargs]
    rfl
  | ok args =>
    obtain ⟨graphVersion, ops, outputs⟩ := args
    have hsound := h.touched (runGraph_touched hk h figures hargs)
    have hserves := runGraph_serves hk h figures overlayId hop hargs
    rw [after] at hsound
    cases hrun : (runGraph py registry figures m.1).run b with
    | ok result b' =>
      rw [hrun] at hsound hserves
      refine .ok (result, []) b' ?_ hsound hserves
      rw [hhandle, EStateM.run_bind, hrun]
      rfl
    | error e b' =>
      rw [hrun] at hsound hserves
      refine .error e b' ?_ hsound hserves
      rw [hhandle, EStateM.run_bind, hrun]

/-- Every request is served as the store serves it. -/
theorem serve_refines (hk : ∀ kernel ∈ registry, kernel.Sound py) (figures : κ → Figures)
    (overlayId : String) (m : Message) :
    Refines py registry figures overlayId m b := by
  have hmemory := memory_storeOf h.inv
  by_cases hops : strOr py m.1 "op" "" ∈ RPC_OPS
  · simp only [RPC_OPS, List.mem_cons, List.not_mem_nil, or_false] at hops
    rcases hops with hop | hop | hop | hop | hop | hop | hop
    · refine .ok (helloResult (kernelNames registry) overlayId (memoryInfo b.allocator), []) b ?_ h
        ?_
      · simp only [handle, hop, if_true]
        rfl
      · rw [← hmemory]
        exact .hello hop
    · refine .ok (object [("memory", .obj (memoryInfo b.allocator))], []) b ?_ h ?_
      · simp only [handle, hop]
        rfl
      · rw [← hmemory]
        exact .memory hop
    · exact refines_alloc h hop
    · exact refines_upload h hop
    · exact refines_download h hop
    · exact refines_free h hop
    · exact refines_graph h hk hop
  · refine .error (.allocator .unsupportedOp ("unsupported op " ++ strOr py m.1 "op" "")) b ?_ h
      (.unsupported hops)
    simp only [RPC_OPS, List.mem_cons, List.not_mem_nil, or_false, not_or] at hops
    simp only [handle, hops, if_false]
    rfl

end

end

end Daemon
