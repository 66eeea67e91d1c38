-- SUMMARY: The host backend's lowering of MUL_MAT nodes: the acceptance predicate and the op it emits (`lowering.cpp`).
import BonsaiTpu.Base.Indices
import BonsaiTpu.Board.Matmul

/-!
# Lowering

The backend accepts a graph node by a predicate on its shape and emits an op for the
board. What ggml computes from a tensor is a field of it: whether it is contiguous,
and its size in bytes.
-/

namespace Backend

/-- The tensor types the backend tells apart. -/
inductive GgmlType where
  | f32 | f16 | i32 | i64 | q1_0 | other
  deriving DecidableEq

/-- The operations of nodes that the backend tells apart. -/
inductive GgmlOp where
  | none | reshape | view | permute | transpose
  | cpy | add | mul | mulMat | scale | unary
  | glu | rmsNorm | rope | flashAttnExt | getRows | setRows
  | other
  deriving DecidableEq

abbrev GGML_MAX_DIMS : Nat := 4

structure Tensor where
  type : GgmlType
  ne : Fin GGML_MAX_DIMS → Int
  isContiguous : Bool
  nbytes : Nat

/-- A node of a graph and its first two operands. -/
structure Node extends Tensor where
  op : GgmlOp
  src0 : Option Tensor
  src1 : Option Tensor

/-- `blckSize` is `ggml_blck_size`. -/
def supportsMatmulQ1a8 (blckSize : GgmlType → Int) (node : Node) : Bool :=
  if node.op ≠ .mulMat ∨ node.type ≠ .f32 then false
  else
    match node.src0, node.src1 with
    | some weights, some acts =>
      if weights.type ≠ .q1_0 ∨ acts.type ≠ .f32 ∨ weights.ne 0 ≠ acts.ne 0 ∨ weights.ne 0 ≤ 0 ∨
          weights.ne 0 % blckSize .q1_0 ≠ 0 ∨ node.ne 0 ≠ weights.ne 1 ∨
          node.ne 1 ≠ acts.ne 1 then false
      else if ∃ dim : Fin GGML_MAX_DIMS, 2 ≤ dim.val ∧
          (weights.ne dim ≠ 1 ∨ acts.ne dim ≠ 1 ∨ node.ne dim ≠ 1) then false
      else weights.isContiguous && acts.isContiguous && node.isContiguous
    | _, _ => false

structure RemoteBinding where
  handle : Nat
  handleNbytes : Nat
  tensorNbytes : Nat
  remoteOffset : Nat

def SIZE_MAX : Nat := 2 ^ 64 - 1

/-- `remote_range_is_valid`; sums that overflow `size_t` are not valid. -/
def remoteRangeIsValid (binding : RemoteBinding) (offset size : Nat) : Bool :=
  decide (offset + size ≤ SIZE_MAX ∧ binding.remoteOffset + (offset + size) ≤ SIZE_MAX ∧
    offset + size ≤ binding.tensorNbytes ∧ binding.remoteOffset + (offset + size) ≤
      binding.handleNbytes)

/-- The bindings of a node and its two operands, where they have one. -/
structure Bindings where
  weights : Option RemoteBinding
  acts : Option RemoteBinding
  dst : Option RemoteBinding

/-- `append_matmul_q1a8_op`; the op it pushes, if any. -/
def appendMatmulQ1a8Op (node : Node) (weights acts : Tensor) (bindings : Bindings) :
    Option Board.Matmul.Op :=
  match bindings.weights, bindings.acts, bindings.dst with
  | some weightsB, some actsB, some dstB =>
    if remoteRangeIsValid weightsB 0 weights.nbytes && remoteRangeIsValid actsB 0 acts.nbytes &&
        remoteRangeIsValid dstB 0 node.nbytes then
      some
        { rows := some (some (weights.ne 1))
          cols := some (some (acts.ne 1))
          k := some (some (weights.ne 0))
          weights := some (some weightsB.handle)
          weightsOffset := some (some weightsB.remoteOffset)
          acts := some (some actsB.handle)
          actsOffset := some (some actsB.remoteOffset)
          dst := some (some dstB.handle)
          dstOffset := some (some dstB.remoteOffset) }
    else none
  | _, _, _ => none

/-- The op of a node that is accepted and lowered. -/
def lowerMatmul (blckSize : GgmlType → Int) (node : Node) (bindings : Bindings) :
    Option Board.Matmul.Op :=
  if supportsMatmulQ1a8 blckSize node then
    match node.src0, node.src1 with
    | some weights, some acts => appendMatmulQ1a8Op node weights acts bindings
    | _, _ => none
  else none

/-- A lowered op has the contraction length of its node's weights. -/
theorem lowerMatmul_k {blckSize : GgmlType → Int} {node : Node} {bindings : Bindings}
    {op : Board.Matmul.Op} (h : lowerMatmul blckSize node bindings = some op) :
    supportsMatmulQ1a8 blckSize node = true ∧ ∃ weights,
      node.src0 = some weights ∧ op.k = some (some (weights.ne 0)) := by
  unfold lowerMatmul at h
  split at h
  · next hs =>
    refine ⟨hs, ?_⟩
    split at h
    · next weights acts hw ha =>
      refine ⟨weights, hw, ?_⟩
      unfold appendMatmulQ1a8Op at h
      split at h
      · split at h
        · cases h
          rfl
        · cases h
      · cases h
    · cases h
  · cases h

end Backend
