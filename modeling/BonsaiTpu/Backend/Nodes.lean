-- SUMMARY: The lowering table of the host backend: the predicate and the appender of each supported kind of node (`lowering.cpp`).
import BonsaiTpu.Backend.Lowering
import BonsaiTpu.Ps.Kernels

/-!
# The lowering table

Each entry of `k_lowerings` has a predicate on nodes and an appender that emits an op
when all operands have valid remote bindings. As for MUL_MAT, what ggml computes from a
tensor is a field of it; so is the binding that the backend finds for it.
-/

namespace Backend

open Ps (Op floatIsZero)

abbrev GGML_MAX_SRC : Nat := 10

/-- A tensor with its byte strides and its remote binding (`find_tensor_binding`). -/
structure Strided extends Tensor where
  nb : Fin GGML_MAX_DIMS → Nat
  binding : Option RemoteBinding

/-- A node with all its operands. `params` are the words of `op_params`; whether the
    unary operation is SILU and the gated one SWIGLU is kept apart. -/
structure GraphNode extends Strided where
  op : GgmlOp
  src : Fin GGML_MAX_SRC → Option Strided
  params : Nat → BitVec 32
  isSilu : Bool
  isSwiglu : Bool

def isMetadataOp : GgmlOp → Bool
  | .none | .reshape | .view | .permute | .transpose => true
  | _ => false

def typeTag : GgmlType → String
  | .f32 => "f32"
  | .f16 => "f16"
  | .i32 => "i32"
  | .i64 => "i64"
  | .q1_0 => "q1_0"
  | .other => "unknown"

def typeSizeF32 : Nat := 4

def typeSizeF16 : Nat := 2

/-- `ggml_nelements`. -/
def Tensor.nelements (t : Tensor) : Int := t.ne 0 * t.ne 1 * t.ne 2 * t.ne 3

def sameShape (lhs rhs : Tensor) : Bool := decide (∀ dim, lhs.ne dim = rhs.ne dim)

def isContiguousF32 (t : Tensor) : Bool :=
  decide (t.type = .f32 ∧ 0 < t.ne 0 ∧ 0 < t.nelements) && t.isContiguous

def flattenedCols (t : Tensor) : Int := t.nelements / t.ne 0

def isRowBroadcastFor (src dst : Tensor) : Bool :=
  isContiguousF32 src && isContiguousF32 dst &&
    decide (src.ne 0 = dst.ne 0 ∧ ∀ dim, dim ≠ 0 → src.ne dim = 1)

/-- A float as it goes through JSON: NaN and infinities are sent as `null`. -/
def jsonFloat (bits : BitVec 32) : Option (BitVec 32) :=
  if bits &&& 0x7F800000#32 = 0x7F800000#32 then .none else some bits

section Table

variable (blckSize : GgmlType → Int)

/-! ## Predicates -/

def supportsCopy (op : GraphNode) : Bool :=
  match op.src 0, op.src 1 with
  | some src, some dst =>
    decide (op.op = .cpy) && src.isContiguous && dst.isContiguous &&
      decide (src.type = dst.type ∧ src.nbytes = dst.nbytes ∨
        src.type = .f32 ∧ dst.type = .f16 ∧ src.nelements = dst.nelements)
  | _, _ => false

/-- `get_f32_binary_lowering`: the operands in the order of the op, and whether the
    second is broadcast. -/
def getF32BinaryLowering (op : GraphNode) : Option (Strided × Strided × Bool) :=
  match op.src 0, op.src 1 with
  | some src0, some src1 =>
    if ¬ ((op.op = .add ∨ op.op = .mul) ∧ isContiguousF32 op.toTensor ∧
      isContiguousF32 src0.toTensor ∧
        isContiguousF32 src1.toTensor) then .none
    else if sameShape src0.toTensor op.toTensor ∧ sameShape src1.toTensor op.toTensor then
      some (src0, src1, false)
    else if sameShape src0.toTensor op.toTensor ∧ isRowBroadcastFor src1.toTensor op.toTensor then
      some (src0, src1, true)
    else if sameShape src1.toTensor op.toTensor ∧ isRowBroadcastFor src0.toTensor op.toTensor then
      some (src1, src0, true)
    else .none
  | _, _ => .none

def supportsF32Binary (op : GraphNode) : Bool := (getF32BinaryLowering op).isSome

/-- The checks that the nodes with one contiguous float operand share. -/
def supportsUnaryF32 (op : GraphNode) : Bool :=
  match op.src 0 with
  | some src =>
    isContiguousF32 op.toTensor && isContiguousF32 src.toTensor &&
      sameShape op.toTensor src.toTensor
  | .none => false

def supportsScaleF32 (op : GraphNode) : Bool := decide (op.op = .scale) && supportsUnaryF32 op

def supportsSiluF32 (op : GraphNode) : Bool :=
  decide (op.op = .unary) && op.isSilu && supportsUnaryF32 op

def supportsSwigluF32 (op : GraphNode) : Bool :=
  match op.src 0, op.src 1 with
  | some src0, some src1 =>
    decide (op.op = .glu) && op.isSwiglu && isContiguousF32 op.toTensor &&
      isContiguousF32 src0.toTensor &&
      isContiguousF32 src1.toTensor && sameShape op.toTensor src0.toTensor &&
        sameShape op.toTensor src1.toTensor
  | _, _ => false

def supportsRmsNormF32 (op : GraphNode) : Bool := decide (op.op = .rmsNorm) && supportsUnaryF32 op

def supportsRopeF32 (op : GraphNode) : Bool :=
  match op.src 0, op.src 1 with
  | some src, some pos =>
    let nDims := (op.params 1).toInt
    let mode := (op.params 2).toInt
    decide (op.op = .rope ∧ op.type = .f32 ∧ src.type = .f32 ∧ pos.type = .i32) &&
      (op.src 2).isNone &&
      src.isContiguous && op.isContiguous &&
      decide (src.ne 3 = 1 ∧ op.ne 3 = 1 ∧ src.ne 0 = op.ne 0 ∧ src.ne 1 = op.ne 1 ∧
        src.ne 2 = op.ne 2) &&
      decide (0 < nDims ∧ nDims % 2 = 0 ∧ nDims ≤ src.ne 0 ∧ (mode = 0 ∨ mode = 2))
  | _, _ => false

/-- The checks of the mask, when there is one. -/
def maskOk : Option Strided → Bool
  | some mask => decide (mask.type = .f16 ∧ mask.nb 0 = typeSizeF16)
  | .none => true

def supportsFlashAttnExtF32 (op : GraphNode) : Bool :=
  match op.src 0, op.src 1, op.src 2 with
  | some q, some k, some v =>
    decide (op.op = .flashAttnExt ∧ op.type = .f32 ∧ q.type = .f32 ∧ k.type = .f16 ∧
      v.type = .f16) &&
      maskOk (op.src 3) && (op.src 4).isNone &&
      decide (q.ne 3 = 1 ∧ k.ne 3 = 1 ∧ v.ne 3 = 1 ∧ op.ne 3 = 1) &&
      decide (q.ne 0 = k.ne 0 ∧ 0 < q.ne 0 ∧ 0 < v.ne 0 ∧ k.ne 1 = v.ne 1 ∧ k.ne 2 = v.ne 2 ∧
        0 < q.ne 2 ∧ 0 < k.ne 2 ∧ q.ne 2 % k.ne 2 = 0) &&
      decide (q.nb 0 = typeSizeF32 ∧ k.nb 0 = typeSizeF16 ∧ v.nb 0 = typeSizeF16) &&
      floatIsZero (op.params 1) && floatIsZero (op.params 2) && decide (k.ne 1 ≤ 8192)
  | _, _, _ => false

def supportsGetRows (op : GraphNode) : Bool :=
  match op.src 0, op.src 1 with
  | some src0, some src1 =>
    decide (op.op = .getRows ∧ op.type = .f32 ∧ src1.type = .i32) &&
      decide (src0.type = .q1_0 ∨ src0.type = .f16 ∨ src0.type = .f32) &&
      (if src0.type = .q1_0 then
        decide (src0.ne 0 % blckSize .q1_0 = 0 ∧ src0.ne 2 = 1 ∧ src0.ne 3 = 1) && src0.isContiguous
      else true) && op.isContiguous
  | _, _ => false

def supportsSetRows (op : GraphNode) : Bool :=
  match op.src 0, op.src 1 with
  | some src0, some src1 =>
    decide (op.op = .setRows ∧ src0.type = .f32 ∧ op.type = .f16 ∧
      (src1.type = .i32 ∨ src1.type = .i64)) &&
      decide (src0.nb 0 = typeSizeF32 ∧ op.nb 0 = typeSizeF16 ∧ src0.ne 0 = op.ne 0) &&
      decide (op.ne 2 % src1.ne 1 = 0 ∧ op.ne 3 % src1.ne 2 = 0)
  | _, _ => false

/-- The node as the MUL_MAT predicate sees it. -/
def GraphNode.toNode (op : GraphNode) : Node where
  toTensor := op.toTensor
  op := op.op
  src0 := (op.src 0).map Strided.toTensor
  src1 := (op.src 1).map Strided.toTensor

/-! ## Appenders -/

/-- The binding of an operand, when it has one that covers the tensor. -/
def Strided.remote (t : Strided) : Option RemoteBinding :=
  match t.binding with
  | some b => if remoteRangeIsValid b 0 t.nbytes then some b else .none
  | .none => .none

def appendCopyOp (node : GraphNode) : Option Op := do
  let src ← node.src 0
  let dst ← node.src 1
  let srcB ← src.remote
  let dstB ← dst.remote
  some
    { name := "COPY"
      ints := [("src", srcB.handle), ("dst", dstB.handle), ("nbytes", src.nbytes),
        ("elements", src.nelements), ("src_offset", srcB.remoteOffset),
        ("dst_offset", dstB.remoteOffset)]
      floats := []
      flags := []
      tags := [("src0_type", typeTag src.type), ("dst_type", typeTag dst.type)] }

/-- The fields of the op that `append_matmul_q1a8_op` pushes. -/
def matmulOp (op : Board.Matmul.Op) : Op where
  name := "MATMUL_Q1A8"
  ints := [("weights", op.weights), ("acts", op.acts), ("dst", op.dst), ("rows", op.rows),
    ("cols", op.cols), ("k", op.k), ("weights_offset", op.weightsOffset),
    ("acts_offset", op.actsOffset),
    ("dst_offset", op.dstOffset)].filterMap fun field => field.2.join.map (field.1, ·)
  floats := []
  flags := []
  tags := []

def appendMatmulOp (node : GraphNode) : Option Op := do
  let weights ← node.src 0
  let acts ← node.src 1
  let op ← appendMatmulQ1a8Op node.toNode weights.toTensor acts.toTensor
    ⟨weights.binding, acts.binding, node.binding⟩
  some (matmulOp op)

def appendF32BinaryOp (node : GraphNode) : Option Op := do
  let (src0, src1, src1Broadcast) ← getF32BinaryLowering node
  let src0B ← src0.remote
  let src1B ← src1.remote
  let dstB ← node.toStrided.remote
  some
    { name := if node.op = .add then "ADD_F32" else "MUL_F32"
      ints := [("src0", src0B.handle), ("src1", src1B.handle), ("dst", dstB.handle),
        ("rows", node.ne 0), ("cols", flattenedCols node.toTensor),
        ("src0_offset", src0B.remoteOffset), ("src1_offset", src1B.remoteOffset),
        ("dst_offset", dstB.remoteOffset)]
      floats := []
      flags := [("src1_broadcast", src1Broadcast)]
      tags := [] }

def appendScaleF32Op (node : GraphNode) : Option Op := do
  let src ← node.src 0
  let srcB ← src.remote
  let dstB ← node.toStrided.remote
  some
    { name := "SCALE_F32"
      ints := [("src", srcB.handle), ("dst", dstB.handle), ("elements", node.nelements),
        ("src_offset", srcB.remoteOffset), ("dst_offset", dstB.remoteOffset)]
      floats := [("scale", jsonFloat (node.params 0)), ("bias", jsonFloat (node.params 1))]
      flags := []
      tags := [] }

def appendSiluF32Op (node : GraphNode) : Option Op := do
  let src ← node.src 0
  let srcB ← src.remote
  let dstB ← node.toStrided.remote
  some
    { name := "SILU_F32"
      ints := [("src", srcB.handle), ("dst", dstB.handle), ("elements", node.nelements),
        ("src_offset", srcB.remoteOffset), ("dst_offset", dstB.remoteOffset)]
      floats := []
      flags := []
      tags := [] }

def appendSwigluF32Op (node : GraphNode) : Option Op := do
  let src0 ← node.src 0
  let src1 ← node.src 1
  let src0B ← src0.remote
  let src1B ← src1.remote
  let dstB ← node.toStrided.remote
  some
    { name := "SWIGLU_F32"
      ints := [("src0", src0B.handle), ("src1", src1B.handle), ("dst", dstB.handle),
        ("elements", node.nelements), ("src0_offset", src0B.remoteOffset),
        ("src1_offset", src1B.remoteOffset), ("dst_offset", dstB.remoteOffset)]
      floats := []
      flags := []
      tags := [] }

def appendRmsNormF32Op (node : GraphNode) : Option Op := do
  let src ← node.src 0
  let srcB ← src.remote
  let dstB ← node.toStrided.remote
  some
    { name := "RMS_NORM_F32"
      ints := [("src", srcB.handle), ("dst", dstB.handle), ("rows", node.ne 0),
        ("cols", flattenedCols node.toTensor), ("src_offset", srcB.remoteOffset),
        ("dst_offset", dstB.remoteOffset)]
      floats := [("eps", jsonFloat (node.params 0))]
      flags := []
      tags := [] }

def appendRopeF32Op (node : GraphNode) : Option Op := do
  let src ← node.src 0
  let pos ← node.src 1
  let srcB ← src.remote
  let posB ← pos.remote
  let dstB ← node.toStrided.remote
  some
    { name := "ROPE_F32"
      ints := [("src", srcB.handle), ("positions", posB.handle), ("dst", dstB.handle),
        ("head_dim", src.ne 0), ("n_head", src.ne 1), ("n_token", src.ne 2),
        ("n_dims", (node.params 1).toInt), ("mode", (node.params 2).toInt),
        ("n_ctx_orig", (node.params 4).toInt), ("src_offset", srcB.remoteOffset),
        ("positions_offset", posB.remoteOffset), ("dst_offset", dstB.remoteOffset)]
      floats := [("freq_base", jsonFloat (node.params 5)),
        ("freq_scale", jsonFloat (node.params 6)), ("ext_factor", jsonFloat (node.params 7)),
        ("attn_factor", jsonFloat (node.params 8)), ("beta_fast", jsonFloat (node.params 9)),
        ("beta_slow", jsonFloat (node.params 10))]
      flags := []
      tags := [] }

/-- The fields for the mask of a node, when it has one with a valid binding. -/
def maskFields : Option Strided → Option (List (String × Int))
  | .none => some []
  | some mask => do
    let maskB ← mask.remote
    some [("mask", maskB.handle), ("mask_offset", maskB.remoteOffset), ("mask_nb1", mask.nb 1)]

def appendFlashAttnExtF32Op (node : GraphNode) : Option Op := do
  let q ← node.src 0
  let k ← node.src 1
  let v ← node.src 2
  let qB ← q.remote
  let kB ← k.remote
  let vB ← v.remote
  let dstB ← node.toStrided.remote
  let mask ← maskFields (node.src 3)
  some
    { name := "FLASH_ATTN_EXT_F32"
      ints := [("src0", (qB.handle : Int)), ("src0_offset", qB.remoteOffset),
        ("k_tensor", kB.handle), ("k_offset", kB.remoteOffset), ("v_tensor", vB.handle),
        ("v_offset", vB.remoteOffset), ("dst", dstB.handle), ("dst_offset", dstB.remoteOffset),
        ("head_dim_q", q.ne 0), ("head_dim_v", v.ne 0), ("n_token", q.ne 1),
        ("n_head", q.ne 2), ("n_kv", k.ne 1), ("n_head_kv", k.ne 2), ("q_nb1", q.nb 1),
        ("q_nb2", q.nb 2), ("k_nb1", k.nb 1), ("k_nb2", k.nb 2), ("v_nb1", v.nb 1),
        ("v_nb2", v.nb 2), ("dst_nb1", node.nb 1), ("dst_nb2", node.nb 2)] ++ mask
      floats := [("scale", jsonFloat (node.params 0)), ("max_bias", jsonFloat (node.params 1)),
        ("logit_softcap", jsonFloat (node.params 2))]
      flags := [("has_mask", (node.src 3).isSome)]
      tags := [] }

/-- The stride fields that GET_ROWS and SET_ROWS share. -/
def rowsFields (node src0 src1 : Strided) : List (String × Int) :=
  [("ne01", src0.ne 1), ("ne02", src0.ne 2), ("ne03", src0.ne 3), ("ne10", src1.ne 0),
    ("ne11", src1.ne 1), ("ne12", src1.ne 2), ("src0_nb1", src0.nb 1), ("src0_nb2", src0.nb 2),
    ("src0_nb3", src0.nb 3), ("indices_nb1", src1.nb 1), ("indices_nb2", src1.nb 2),
    ("dst_nb1", node.nb 1), ("dst_nb2", node.nb 2), ("dst_nb3", node.nb 3)]

def appendGetRowsOp (node : GraphNode) : Option Op := do
  let src0 ← node.src 0
  let src1 ← node.src 1
  let src0B ← src0.remote
  let src1B ← src1.remote
  let dstB ← node.toStrided.remote
  some
    { name := "GET_ROWS"
      ints := [("src0", (src0B.handle : Int)), ("src0_offset", src0B.remoteOffset),
        ("indices", src1B.handle), ("indices_offset", src1B.remoteOffset), ("dst", dstB.handle),
        ("dst_offset", dstB.remoteOffset), ("head_dim", src0.ne 0),
        ("n_indices", src1.ne 0 * src1.ne 1 * src1.ne 2)] ++
        rowsFields node.toStrided src0 src1
      floats := []
      flags := []
      tags := [("src0_type", typeTag src0.type), ("indices_type", typeTag src1.type)] }

def appendSetRowsOp (node : GraphNode) : Option Op := do
  let src0 ← node.src 0
  let src1 ← node.src 1
  let src0B ← src0.remote
  let src1B ← src1.remote
  let dstB ← node.toStrided.remote
  some
    { name := "SET_ROWS"
      ints := [("src0", (src0B.handle : Int)), ("src0_offset", src0B.remoteOffset),
        ("indices", src1B.handle), ("indices_offset", src1B.remoteOffset), ("dst", dstB.handle),
        ("dst_offset", dstB.remoteOffset),
        ("head_dim", src0.ne 0)] ++ rowsFields node.toStrided src0 src1
      floats := []
      flags := []
      tags := [("indices_type", typeTag src1.type), ("dst_type", typeTag node.type)] }

/-! ## The table -/

structure OpLowering where
  supports : GraphNode → Bool
  append : GraphNode → Option Op

def kLowerings : List OpLowering :=
  [⟨supportsCopy, appendCopyOp⟩,
    ⟨fun op => supportsMatmulQ1a8 blckSize op.toNode, appendMatmulOp⟩,
    ⟨supportsF32Binary, appendF32BinaryOp⟩,
    ⟨supportsScaleF32, appendScaleF32Op⟩,
    ⟨supportsSiluF32, appendSiluF32Op⟩,
    ⟨supportsSwigluF32, appendSwigluF32Op⟩,
    ⟨supportsRmsNormF32, appendRmsNormF32Op⟩,
    ⟨supportsRopeF32, appendRopeF32Op⟩,
    ⟨supportsFlashAttnExtF32, appendFlashAttnExtF32Op⟩,
    ⟨supportsGetRows blckSize, appendGetRowsOp⟩,
    ⟨supportsSetRows, appendSetRowsOp⟩]

/-- Nodes without output elements are left to the CPU backend. -/
def lookupLowering (op : GraphNode) : Option OpLowering :=
  if op.nelements = 0 then .none else (kLowerings blckSize).find? (·.supports op)

def deviceSupportsOp (op : GraphNode) : Bool :=
  isMetadataOp op.op || (lookupLowering blckSize op).isSome

end Table

end Backend
