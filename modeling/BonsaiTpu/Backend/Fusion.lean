-- SUMMARY: The ops of a split graph with and without the fusion of norms into products, and what they do to memory (`lowering.cpp`).
import BonsaiTpu.Backend.Acceptance
import BonsaiTpu.Ps.Norm

/-!
# Fusion

`backend_graph_compute` emits one op per node of a split, except that a norm whose only
use in the split is a product with a weight is left out, and the product becomes a fused
op. Tensors are kept behind pointers here, since the use counts and the choice of pairs
go by identity. The norms and products run as their kernels do; the other ops may do
anything that depends on their operands alone.
-/

namespace Backend

open Ps (Op Loc Mem F32Ops Operand)

/-! ## Graphs -/

/-- A tensor pointer. -/
abbrev TensorId := Nat

/-- A tensor as the pass sees it. -/
structure GgmlTensor extends Strided where
  op : GgmlOp
  src : Fin GGML_MAX_SRC → Option TensorId
  params : Nat → BitVec 32
  isSilu : Bool
  isSwiglu : Bool
  flagCompute : Bool
  flagOutput : Bool
  viewSrc : Option TensorId

abbrev Heap := TensorId → GgmlTensor

/-- The node behind a pointer, with its operands. -/
def Heap.node (h : Heap) (k : TensorId) : GraphNode where
  toStrided := (h k).toStrided
  op := (h k).op
  src := fun s => ((h k).src s).map fun t => (h t).toStrided
  params := (h k).params
  isSilu := (h k).isSilu
  isSwiglu := (h k).isSwiglu

section

variable (blckSize : GgmlType → Int) (h : Heap)

/-- The number of times a tensor is an operand in the split. -/
def useCount (nodes : List TensorId) (t : TensorId) : Nat :=
  (nodes.map fun k => (List.finRange GGML_MAX_SRC).countP fun s => (h k).src s == some t).sum

/-- `fused_rms_for`. -/
def fusedRmsFor (nodes : List TensorId) (mul : TensorId) : Option TensorId :=
  if (h mul).op ≠ .mul then .none
  else
    match (h mul).src 0, (h mul).src 1 with
    | some rms, some weight =>
      if (h rms).op ≠ .rmsNorm then .none
      else if (h rms).flagOutput then .none
      else if useCount h nodes rms ≠ 1 then .none
      else if ¬ (isContiguousF32 (h mul).toTensor ∧ isContiguousF32 (h rms).toTensor) then .none
      else
        match (h rms).src 0 with
        | some rmsIn =>
          if ¬ isContiguousF32 (h rmsIn).toTensor then .none
          else if ¬ (sameShape (h mul).toTensor (h rms).toTensor ∧
              sameShape (h rms).toTensor (h rmsIn).toTensor) then .none
          else if ¬ isRowBroadcastFor (h weight).toTensor (h mul).toTensor then .none
          else some rms
        | .none => .none
    | _, _ => .none

/-- `mul_to_rms`. -/
def mulToRms (nodes : List TensorId) (k : TensorId) : Option TensorId :=
  if (h k).flagCompute then fusedRmsFor h nodes k else .none

/-- `fused_rms`: the norm is absorbed into its product. -/
def isAbsorbed (nodes : List TensorId) (r : TensorId) : Bool :=
  nodes.any fun k => mulToRms h nodes k == some r

def appendRmsNormMulOp (mul rms : TensorId) : Option Op := do
  let src ← (h rms).src 0
  let weight ← (h mul).src 1
  let srcB ← (h src).toStrided.remote
  let weightB ← (h weight).toStrided.remote
  let dstB ← (h mul).toStrided.remote
  some
    { name := "RMS_NORM_MUL_F32"
      ints := [("src", srcB.handle), ("src_offset", srcB.remoteOffset), ("src1", weightB.handle),
        ("src1_offset", weightB.remoteOffset), ("dst", dstB.handle),
        ("dst_offset", dstB.remoteOffset), ("rows", (h mul).ne 0),
        ("cols", flattenedCols (h mul).toTensor)]
      floats := [("eps", jsonFloat ((h rms).params 0))]
      flags := []
      tags := [] }

/-- The node emits an op, or is the absorbed part of one. -/
def executes (k : TensorId) : Bool := (h k).flagCompute && !isMetadataOp (h k).op

/-- The op of a node in its own place, if it has one; it may fail. -/
def emitNode (k : TensorId) : Option (Option Op) :=
  if executes h k then (lowerNode blckSize (h.node k)).map some else some .none

/-- The op of a node in `backend_graph_compute_impl`. -/
def emitFused (nodes : List TensorId) (k : TensorId) : Option (Option Op) :=
  if ¬ executes h k then some .none
  else if isAbsorbed h nodes k then some .none
  else
    match mulToRms h nodes k with
    | some rms => (appendRmsNormMulOp h k rms).map some
    | .none => (lowerNode blckSize (h.node k)).map some

/-- The ops of a graph, if all its nodes can be lowered. -/
def emitAll (emit : TensorId → Option (Option Op)) (nodes : List TensorId) : Option (List Op) :=
  (nodes.mapM emit).map fun ops => ops.filterMap id

/-- The ops that `backend_graph_compute_impl` sends. -/
def graphOps (nodes : List TensorId) : Option (List Op) :=
  emitAll (emitFused blckSize h nodes) nodes

/-- The ops without fusion. -/
def unfusedOps (nodes : List TensorId) : Option (List Op) := emitAll (emitNode blckSize h) nodes

end

/-! ## Ops on memory -/

section

variable (F : F32Ops) (mapped : Operand → Bool) (other : Op → Mem → Option Mem)

/-- Run an op on the board, if nothing is raised. -/
def execOp (op : Op) (m : Mem) : Option Mem :=
  if op.name = "RMS_NORM_F32" then
    match Ps.prepareRmsNorm op with
    | .ok call =>
      if Ps.rowsColsRc call.rows call.cols ≠ 0 then .none
      else some (Ps.bonsaiRmsNormF32 F mapped call.src call.dst (Ps.cUint32 call.rows)
        (Ps.cUint32 call.cols) call.eps m)
    | .error _ => .none
  else if op.name = "MUL_F32" then
    match Ps.prepareBinary op with
    | .ok call =>
      if Ps.rowsColsRc call.rows call.cols ≠ 0 then .none
      else some (Ps.bonsaiMulF32 F mapped call.src0 call.src1 call.dst (Ps.cUint32 call.rows)
        (Ps.cUint32 call.cols)
        call.src1Broadcast m)
    | .error _ => .none
  else if op.name = "RMS_NORM_MUL_F32" then
    match Ps.prepareRmsNormMul op with
    | .ok call =>
      if Ps.rowsColsRc call.rows call.cols ≠ 0 then .none
      else some
        (Ps.bonsaiRmsNormMulF32 F mapped call.src call.weight call.dst (Ps.cUint32 call.rows)
        (Ps.cUint32 call.cols) call.eps m)
    | .error _ => .none
  else other op m

def runOps (ops : List Op) (m : Mem) : Option Mem :=
  ops.foldlM (fun m op => execOp F mapped other op m) m

/-- One node of a graph. -/
def runNode (emit : TensorId → Option (Option Op)) (m : Mem) (k : TensorId) : Option Mem :=
  match emit k with
  | .none => .none
  | some .none => some m
  | some (some op) => execOp F mapped other op m

/-- The nodes of a graph, one after the other. -/
def runNodes (emit : TensorId → Option (Option Op)) (nodes : List TensorId)
    (m : Mem) : Option Mem :=
  nodes.foldlM (runNode F mapped other emit) m

end

section

variable {F : F32Ops} {mapped : Operand → Bool} {other : Op → Mem → Option Mem}

theorem emitAll_cons (emit : TensorId → Option (Option Op)) (k : TensorId) (nodes : List TensorId) :
    emitAll emit (k :: nodes) = (emit k).bind fun op => (emitAll emit nodes).map
      fun ops => op.toList ++ ops := by
  simp only [emitAll, List.mapM_cons, Option.pure_def, Option.bind_eq_bind]
  cases emit k with
  | none => rfl
  | some op =>
    cases List.mapM emit nodes with
    | none => rfl
    | some ops => cases op <;> rfl

/-- The ops of a graph run as its nodes do. -/
theorem runOps_eq_runNodes {emit : TensorId → Option (Option Op)}
    {nodes : List TensorId} {ops : List Op}
    (hops : emitAll emit nodes = some ops) (m : Mem) :
    runOps F mapped other ops m = runNodes F mapped other emit nodes m := by
  induction nodes generalizing ops m with
  | nil =>
    obtain rfl : [] = ops := Option.some.inj hops
    rfl
  | cons k nodes ih =>
    rw [emitAll_cons, Option.bind_eq_some_iff] at hops
    obtain ⟨op, hop, hops⟩ := hops
    obtain ⟨rest, hrest, rfl⟩ := Option.map_eq_some_iff.mp hops
    rw [runNodes, List.foldlM_cons, runNode, hop]
    cases op with
    | none => exact ih hrest m
    | some op =>
      simp only [Option.toList_some, List.singleton_append, runOps, List.foldlM_cons,
        Option.bind_eq_bind]
      congr 1
      funext m'
      exact ih hrest m'

/-- A graph is lowered if all its nodes are. -/
theorem emitAll_isSome {emit : TensorId → Option (Option Op)} {nodes : List TensorId} :
    (emitAll emit nodes).isSome ↔ ∀ k ∈ nodes, (emit k).isSome := by
  induction nodes with
  | nil => exact ⟨fun _ _ hk => absurd hk (List.not_mem_nil), fun _ => rfl⟩
  | cons k nodes ih =>
    rw [emitAll_cons, List.forall_mem_cons, ← ih]
    cases emit k with
    | none => simp
    | some op => simp

end

end Backend
