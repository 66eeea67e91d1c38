-- SUMMARY: The PS kernels up to their C calls: what the Python wrappers check and compute, and the argument checks of the C entry points (`kernels/ps/native.py`, `kernels/ps/native.c`).
import BonsaiTpu.Board.Matmul

/-!
# PS kernels: arguments

A wrapper reads the fields of an op, checks them and computes the ranges of tensors
that it hands to the C function. `prepare…` is this part of a `run`; its result has
the arguments of the call as Python integers. `…Rc` is what the C function returns for
them when no pointer is null: `ctypes` keeps the low 32 bits of a dimension.
-/

namespace Ps

open Board (Err)
open Board.Matmul (required optionalInt F32_BYTES)
open Layout (Q1_BLOCK)

/-! ## Ops -/

/-- The fields of an op as the board receives them, by the kind of their values. A
    float is `none` when it was sent as `null`, which is how NaN and infinities are
    sent. -/
structure Op where
  name : String
  ints : List (String × Int)
  floats : List (String × Option (BitVec 32))
  flags : List (String × Bool)
  tags : List (String × String)

def invalidRequest {α : Type} (message : String) : Except Err α :=
  .error (.allocator .invalidRequest message)

def Op.required (op : Op) (key : String) : Except Err Nat :=
  Board.Matmul.required ((op.ints.lookup key).map some) key

def Op.optionalInt (op : Op) (key : String) : Except Err Nat :=
  Board.Matmul.optionalInt ((op.ints.lookup key).map some) key

def Op.positive (op : Op) (key : String) : Except Err Nat := do
  let value ← op.required key
  if value = 0 then invalidRequest (key ++ " must be positive") else .ok value

/-- `int(op[key])`. -/
def Op.int (op : Op) (key : String) : Except Err Int :=
  match op.ints.lookup key with
  | some value => .ok value
  | none => .error (.other ("KeyError: " ++ key))

/-- `int(op.get(key, default))`. -/
def Op.intOr (op : Op) (key : String) (default : Int) : Int := (op.ints.lookup key).getD default

/-- `float(op[key])`. -/
def Op.float (op : Op) (key : String) : Except Err (BitVec 32) :=
  match op.floats.lookup key with
  | some (some value) => .ok value
  | some none => .error .conversion
  | none => .error (.other ("KeyError: " ++ key))

/-- `float(op.get(key, default))`. -/
def Op.floatOr (op : Op) (key : String) (default : BitVec 32) : Except Err (BitVec 32) :=
  match op.floats.lookup key with
  | some (some value) => .ok value
  | some none => .error .conversion
  | none => .ok default

def Op.tagOr (op : Op) (key default : String) : String := (op.tags.lookup key).getD default

def Op.flag (op : Op) (key : String) : Bool := (op.flags.lookup key).getD false

/-- `1.0f`. -/
def floatOne : BitVec 32 := 0x3F800000#32

/-- Comparison with `0.0`, which both zeros meet. -/
def floatIsZero (bits : BitVec 32) : Bool := bits &&& 0x7FFFFFFF#32 == 0#32

/-- The argument of a C function with a parameter of type `uint32_t`. -/
def cUint32 (n : Nat) : Nat := n % 2 ^ 32

/-- A range of a tensor. -/
structure Operand where
  handle : Nat
  offset : Nat
  nbytes : Int
  deriving DecidableEq

def Op.operand (op : Op) (handleKey offsetKey : String) (nbytes : Int) : Except Err Operand := do
  let handle ← op.required handleKey
  let offset ← op.optionalInt offsetKey
  .ok ⟨handle, offset, nbytes⟩

/-! ## Copies and matmuls -/

/-- The two ways of `Copy.run`. -/
inductive CopyCall where
  | raw (src dst : Operand)
  | convert (src dst : Operand) (elements : Nat)

def prepareCopy (op : Op) : Except Err CopyCall := do
  let srcType := op.tagOr "src0_type" ""
  let dstType := op.tagOr "dst_type" ""
  if srcType = "f32" ∧ dstType = "f16" then
    let elements ← op.required "elements"
    let src ← op.operand "src" "src_offset" ((elements * F32_BYTES : Nat) : Int)
    let dst ← op.operand "dst" "dst_offset" ((elements * 2 : Nat) : Int)
    .ok (.convert src dst elements)
  else
    let nbytes ← op.required "nbytes"
    let src ← op.operand "src" "src_offset" (nbytes : Int)
    let dst ← op.operand "dst" "dst_offset" (nbytes : Int)
    .ok (.raw src dst)

/-- `bonsai_set_rows_row_f32_to_f16`. -/
def setRowsRowRc (headDim : Nat) : Int := if cUint32 headDim = 0 then -1 else 0

def copyRc : CopyCall → Int
  | .raw _ _ => 0
  | .convert _ _ elements => setRowsRowRc elements

structure MatmulCall where
  weights : Operand
  acts : Operand
  dst : Operand
  rows : Nat
  cols : Nat
  k : Nat

def prepareMatmul (op : Op) : Except Err MatmulCall := do
  let rows ← op.required "rows"
  let cols ← op.required "cols"
  let k ← op.required "k"
  if k = 0 ∨ k % Q1_BLOCK ≠ 0 then
    invalidRequest s!"MATMUL_Q1A8 k must be a positive multiple of {Q1_BLOCK}"
  else
    let weightNbytes ← Board.Matmul.liftLayout (Layout.packedNbytes rows k)
    let weights ← op.operand "weights" "weights_offset" (weightNbytes : Int)
    let acts ← op.operand "acts" "acts_offset" ((cols * k * F32_BYTES : Nat) : Int)
    let dst ← op.operand "dst" "dst_offset" ((rows * cols * F32_BYTES : Nat) : Int)
    .ok ⟨weights, acts, dst, rows, cols, k⟩

def matmulRc (rows cols k : Nat) : Int :=
  if cUint32 rows = 0 ∨ cUint32 cols = 0 ∨ cUint32 k = 0 ∨ cUint32 k % Q1_BLOCK ≠ 0 then -1 else 0

/-- The fields that the PL driver reads. -/
def Op.matmulFields (op : Op) : Board.Matmul.Op where
  rows := (op.ints.lookup "rows").map some
  cols := (op.ints.lookup "cols").map some
  k := (op.ints.lookup "k").map some
  weights := (op.ints.lookup "weights").map some
  weightsOffset := (op.ints.lookup "weights_offset").map some
  acts := (op.ints.lookup "acts").map some
  actsOffset := (op.ints.lookup "acts_offset").map some
  dst := (op.ints.lookup "dst").map some
  dstOffset := (op.ints.lookup "dst_offset").map some

/-! ## Elementwise kernels and norms -/

structure BinaryCall where
  src0 : Operand
  src1 : Operand
  dst : Operand
  rows : Nat
  cols : Nat
  src1Broadcast : Bool

def prepareBinary (op : Op) : Except Err BinaryCall := do
  let rows ← op.positive "rows"
  let cols ← op.positive "cols"
  let broadcast := op.flag "src1_broadcast"
  let elements := rows * cols
  let rhsElements := if broadcast then rows else elements
  let src0 ← op.operand "src0" "src0_offset" ((elements * F32_BYTES : Nat) : Int)
  let src1 ← op.operand "src1" "src1_offset" ((rhsElements * F32_BYTES : Nat) : Int)
  let dst ← op.operand "dst" "dst_offset" ((elements * F32_BYTES : Nat) : Int)
  .ok ⟨src0, src1, dst, rows, cols, broadcast⟩

/-- The check that the kernels over `rows` and `cols` share. -/
def rowsColsRc (rows cols : Nat) : Int := if cUint32 rows = 0 ∨ cUint32 cols = 0 then -1 else 0

/-- The check that the kernels over `elements` share. -/
def elementsRc (elements : Nat) : Int := if cUint32 elements = 0 then -1 else 0

structure ScaleCall where
  src : Operand
  dst : Operand
  elements : Nat
  scale : BitVec 32
  bias : BitVec 32

def prepareScale (op : Op) : Except Err ScaleCall := do
  let elements ← op.positive "elements"
  if op.floats.lookup "scale" = none then invalidRequest "missing scale"
  else
    let scale ← op.float "scale"
    let bias ← op.floatOr "bias" 0
    let src ← op.operand "src" "src_offset" ((elements * F32_BYTES : Nat) : Int)
    let dst ← op.operand "dst" "dst_offset" ((elements * F32_BYTES : Nat) : Int)
    .ok ⟨src, dst, elements, scale, bias⟩

structure UnaryCall where
  src : Operand
  dst : Operand
  elements : Nat

def prepareUnary (op : Op) : Except Err UnaryCall := do
  let elements ← op.positive "elements"
  let src ← op.operand "src" "src_offset" ((elements * F32_BYTES : Nat) : Int)
  let dst ← op.operand "dst" "dst_offset" ((elements * F32_BYTES : Nat) : Int)
  .ok ⟨src, dst, elements⟩

structure SwigluCall where
  gate : Operand
  up : Operand
  dst : Operand
  elements : Nat

def prepareSwiglu (op : Op) : Except Err SwigluCall := do
  let elements ← op.positive "elements"
  let gate ← op.operand "src0" "src0_offset" ((elements * F32_BYTES : Nat) : Int)
  let up ← op.operand "src1" "src1_offset" ((elements * F32_BYTES : Nat) : Int)
  let dst ← op.operand "dst" "dst_offset" ((elements * F32_BYTES : Nat) : Int)
  .ok ⟨gate, up, dst, elements⟩

structure RmsNormCall where
  src : Operand
  dst : Operand
  rows : Nat
  cols : Nat
  eps : BitVec 32

def prepareRmsNorm (op : Op) : Except Err RmsNormCall := do
  let rows ← op.positive "rows"
  let cols ← op.positive "cols"
  if op.floats.lookup "eps" = none then invalidRequest "missing eps"
  else
    let eps ← op.float "eps"
    let elements := rows * cols
    let src ← op.operand "src" "src_offset" ((elements * F32_BYTES : Nat) : Int)
    let dst ← op.operand "dst" "dst_offset" ((elements * F32_BYTES : Nat) : Int)
    .ok ⟨src, dst, rows, cols, eps⟩

structure RmsNormMulCall where
  src : Operand
  weight : Operand
  dst : Operand
  rows : Nat
  cols : Nat
  eps : BitVec 32

def prepareRmsNormMul (op : Op) : Except Err RmsNormMulCall := do
  let rows ← op.positive "rows"
  let cols ← op.positive "cols"
  if op.floats.lookup "eps" = none then invalidRequest "missing eps"
  else
    let eps ← op.float "eps"
    let elements := rows * cols
    let src ← op.operand "src" "src_offset" ((elements * F32_BYTES : Nat) : Int)
    let weight ← op.operand "src1" "src1_offset" ((rows * F32_BYTES : Nat) : Int)
    let dst ← op.operand "dst" "dst_offset" ((elements * F32_BYTES : Nat) : Int)
    .ok ⟨src, weight, dst, rows, cols, eps⟩

structure RopeCall where
  src : Operand
  positions : Operand
  dst : Operand
  headDim : Nat
  nHead : Nat
  nToken : Nat
  nDims : Nat
  mode : Nat
  nCtxOrig : Nat
  floats : List (BitVec 32)

def prepareRope (op : Op) : Except Err RopeCall := do
  let headDim ← op.positive "head_dim"
  let nHead ← op.positive "n_head"
  let nToken ← op.positive "n_token"
  let nDims ← op.positive "n_dims"
  let mode ← op.optionalInt "mode"
  let nCtxOrig ← op.optionalInt "n_ctx_orig"
  let freqBase ← op.float "freq_base"
  let freqScale ← op.floatOr "freq_scale" floatOne
  let extFactor ← op.floatOr "ext_factor" 0
  let attnFactor ← op.floatOr "attn_factor" floatOne
  let betaFast ← op.floatOr "beta_fast" 0
  let betaSlow ← op.floatOr "beta_slow" 0
  let srcNbytes := headDim * nHead * nToken * F32_BYTES
  let src ← op.operand "src" "src_offset" (srcNbytes : Int)
  let positions ← op.operand "positions" "positions_offset" ((nToken * 4 : Nat) : Int)
  let dst ← op.operand "dst" "dst_offset" (srcNbytes : Int)
  .ok ⟨src, positions, dst, headDim, nHead, nToken, nDims, mode, nCtxOrig,
    [freqBase, freqScale, extFactor, attnFactor, betaFast, betaSlow]⟩

def ropeRc (headDim nHead nToken nDims : Nat) : Int :=
  if cUint32 headDim = 0 ∨ cUint32 nHead = 0 ∨ cUint32 nToken = 0 then -2
  else if cUint32 nDims = 0 ∨ cUint32 nDims > cUint32 headDim ∨ cUint32 nDims % 2 = 1 then -3
  else 0

/-! ## Attention -/

def MAX_FLASH_ATTN_KV : Nat := 1024

def FATTN_MAX_HEAD_DIM : Nat := 256

structure FlashCall where
  q : Operand
  k : Operand
  v : Operand
  mask : Option Operand
  dst : Operand
  qNb1 : Int
  qNb2 : Int
  kNb1 : Int
  kNb2 : Int
  vNb1 : Int
  vNb2 : Int
  maskNb1 : Int
  dstNb1 : Int
  dstNb2 : Int
  headDimQ : Nat
  headDimV : Nat
  nHead : Nat
  nHeadKv : Nat
  nKv : Nat
  nToken : Nat
  scale : BitVec 32

/-- `nb2 * outer if nb2 else nb1 * inner`. -/
def spanNbytes (nb1 nb2 : Int) (inner outer : Nat) : Int :=
  if nb2 ≠ 0 then nb2 * outer else nb1 * inner

/-- The mask of an op that says it has one. -/
def Op.maskOperand (op : Op) (nbytes : Int) : Except Err (Option Operand) :=
  if op.flag "has_mask" then some <$> op.operand "mask" "mask_offset" nbytes else .ok none

def prepareFlash (op : Op) : Except Err FlashCall := do
  let headDimQ ← op.positive "head_dim_q"
  let headDimV ← op.positive "head_dim_v"
  let nHead ← op.positive "n_head"
  let nHeadKv ← op.positive "n_head_kv"
  let nKv ← op.positive "n_kv"
  let nToken ← op.positive "n_token"
  let scale ← op.floatOr "scale" floatOne
  let maxBias ← op.floatOr "max_bias" 0
  let softcap ← op.floatOr "logit_softcap" 0
  if !floatIsZero maxBias || !floatIsZero softcap then
    invalidRequest "FLASH_ATTN_EXT_F32 doesn't support ALiBi or softcap"
  else if nKv > MAX_FLASH_ATTN_KV then
    invalidRequest s!"FLASH_ATTN_EXT_F32 n_kv={nKv} exceeds runtime cap ({MAX_FLASH_ATTN_KV}); raise MAX_FLASH_ATTN_KV or shrink ctx"
  else if nHead % nHeadKv ≠ 0 then invalidRequest "n_head must be a multiple of n_head_kv"
  else
    let qNb1 ← op.int "q_nb1"
    let qNb2 ← op.int "q_nb2"
    let kNb1 ← op.int "k_nb1"
    let kNb2 ← op.int "k_nb2"
    let vNb1 ← op.int "v_nb1"
    let vNb2 ← op.int "v_nb2"
    let dstNb1 ← op.int "dst_nb1"
    let dstNb2 ← op.int "dst_nb2"
    let maskNb1 := op.intOr "mask_nb1" 0
    let q ← op.operand "src0" "src0_offset" (spanNbytes qNb1 qNb2 nToken nHead)
    let k ← op.operand "k_tensor" "k_offset" (spanNbytes kNb1 kNb2 nKv nHeadKv)
    let v ← op.operand "v_tensor" "v_offset" (spanNbytes vNb1 vNb2 nKv nHeadKv)
    let mask ← op.maskOperand (maskNb1 * nToken)
    let dst ← op.operand "dst" "dst_offset" (spanNbytes dstNb1 dstNb2 nHead nToken)
    .ok ⟨q, k, v, mask, dst, qNb1, qNb2, kNb1, kNb2, vNb1, vNb2, maskNb1, dstNb1, dstNb2,
      headDimQ, headDimV, nHead, nHeadKv, nKv, nToken, scale⟩

def flashRc (headDimQ headDimV nHead nHeadKv nKv nToken : Nat) : Int :=
  if cUint32 headDimQ = 0 ∨ cUint32 headDimV = 0 ∨ cUint32 nHead = 0 ∨ cUint32 nHeadKv = 0 ∨
    cUint32 nKv = 0 ∨
      cUint32 nToken = 0 then -2
  else if cUint32 headDimQ > FATTN_MAX_HEAD_DIM ∨ cUint32 headDimV > FATTN_MAX_HEAD_DIM then -3
  else if cUint32 nHead % cUint32 nHeadKv ≠ 0 then -4
  else 0

def FlashCall.rc (call : FlashCall) : Int :=
  flashRc call.headDimQ call.headDimV call.nHead call.nHeadKv call.nKv call.nToken

/-! ## Rows -/

structure RowsCall where
  headDim : Nat
  ne01 : Nat
  ne02 : Int
  ne03 : Int
  ne10 : Int
  ne11 : Int
  ne12 : Int
  src0Nb : Int × Int × Int
  indicesNb : Int × Int
  dstNb : Int × Int × Int
  src0 : Operand
  indices : Operand
  dst : Operand

/-- The strides of an op on rows, with the defaults of the wrapper. -/
def Op.rowStrides (op : Op) (src0Nb2 src0Nb3 : Int → Int) (indicesNb1 : Int) (ne11 : Int)
    (dstNb2 : Int → Int) :
    Except Err ((Int × Int × Int) × (Int × Int) × (Int × Int × Int)) := do
  let nb1 ← op.int "src0_nb1"
  let nb2 := op.intOr "src0_nb2" (src0Nb2 nb1)
  let nb3 := op.intOr "src0_nb3" (src0Nb3 nb2)
  let idx1 := op.intOr "indices_nb1" indicesNb1
  let idx2 := op.intOr "indices_nb2" (idx1 * ne11)
  let dst1 ← op.int "dst_nb1"
  let dst2 := op.intOr "dst_nb2" (dstNb2 dst1)
  let dst3 := op.intOr "dst_nb3" dst2
  .ok ((nb1, nb2, nb3), (idx1, idx2), (dst1, dst2, dst3))

/-- `int(op.get(key, 1)) or 1`. -/
def Op.intOrOne (op : Op) (key : String) : Int := if op.intOr key 1 = 0 then 1 else op.intOr key 1

/-- The size of `src0` and `dst` is not used: each row is resolved by itself. -/
def prepareGetRows (op : Op) : Except Err (String × RowsCall) := do
  let src0Type := op.tagOr "src0_type" ""
  if src0Type ≠ "f32" ∧ src0Type ≠ "f16" ∧ src0Type ≠ "q1_0" then
    invalidRequest s!"GET_ROWS src0_type='{src0Type}' not supported (need f32/f16/q1_0)"
  else if op.tagOr "indices_type" "i32" ≠ "i32" then
    invalidRequest "GET_ROWS only supports i32 indices"
  else
    let headDim ← op.positive "head_dim"
    let ne01 ← op.positive "ne01"
    let ne10 ← op.positive "ne10"
    let ne11 := max 1 (op.intOr "ne11" 1)
    let ne12 := max 1 (op.intOr "ne12" 1)
    let (src0Nb, indicesNb, dstNb) ← op.rowStrides (· * ne01) id (ne10 * 4) ne11 (· * ne10)
    let src0 ← op.operand "src0" "src0_offset" 0
    let dst ← op.operand "dst" "dst_offset" 0
    let indices ← op.operand "indices" "indices_offset" (indicesNb.2 * ne12)
    .ok (src0Type, ⟨headDim, ne01, 1, 1, ne10, ne11, ne12, src0Nb, indicesNb, dstNb,
      src0, indices, dst⟩)

/-- A call for one row; the index is in range. -/
def getRowsRc (src0Type : String) (headDim : Nat) : Int :=
  if cUint32 headDim = 0 ∨ (src0Type = "q1_0" ∧ cUint32 headDim % Q1_BLOCK ≠ 0) then -1 else 0

/-- The negative indices that the loop of `SetRows.run` refuses are data. -/
def prepareSetRows (op : Op) : Except Err RowsCall := do
  if op.tagOr "dst_type" "f16" ≠ "f16" then invalidRequest "SET_ROWS dst must be f16"
  else
    let idxType := op.tagOr "indices_type" "i32"
    if idxType ≠ "i32" ∧ idxType ≠ "i64" then
      invalidRequest s!"SET_ROWS indices type '{idxType}' unsupported (i32/i64 only)"
    else
      let headDim ← op.positive "head_dim"
      let ne01 ← op.positive "ne01"
      let ne02 := op.intOrOne "ne02"
      let ne03 := op.intOrOne "ne03"
      let ne11 := op.intOrOne "ne11"
      let ne12 := op.intOrOne "ne12"
      let idxElem : Int := if idxType = "i32" then 4 else 8
      let (src0Nb, indicesNb, dstNb) ← op.rowStrides (· * ne01) (· * ne02) (ne01 * idxElem) ne11 id
      let src0Offset ← op.optionalInt "src0_offset"
      let indicesOffset ← op.optionalInt "indices_offset"
      let dstOffset ← op.optionalInt "dst_offset"
      let src0Handle ← op.required "src0"
      let indicesHandle ← op.required "indices"
      let dstHandle ← op.required "dst"
      .ok ⟨headDim, ne01, ne02, ne03, ne01, ne11, ne12, src0Nb, indicesNb, dstNb,
        ⟨src0Handle, src0Offset, src0Nb.2.2 * ne03⟩,
        ⟨indicesHandle, indicesOffset, indicesNb.2 * ne12⟩,
        ⟨dstHandle, dstOffset, (headDim * 2 : Nat)⟩⟩

/-! ## The registry -/

/-- What becomes of an op by its fields alone: an error of the wrapper, or the code
    that the C function returns (zero for a copy without one). -/
def check (op : Op) : Except Err Int :=
  match op.name with
  | "COPY" => copyRc <$> prepareCopy op
  | "MATMUL_Q1A8" => (fun call => matmulRc call.rows call.cols call.k) <$> prepareMatmul op
  | "ADD_F32" | "MUL_F32" => (fun call => rowsColsRc call.rows call.cols) <$> prepareBinary op
  | "SCALE_F32" => (fun call => elementsRc call.elements) <$> prepareScale op
  | "SILU_F32" => (fun call => elementsRc call.elements) <$> prepareUnary op
  | "SWIGLU_F32" => (fun call => elementsRc call.elements) <$> prepareSwiglu op
  | "RMS_NORM_F32" => (fun call => rowsColsRc call.rows call.cols) <$> prepareRmsNorm op
  | "RMS_NORM_MUL_F32" => (fun call => rowsColsRc call.rows call.cols) <$> prepareRmsNormMul op
  | "ROPE_F32" =>
    (fun call => ropeRc call.headDim call.nHead call.nToken call.nDims) <$> prepareRope op
  | "FLASH_ATTN_EXT_F32" => FlashCall.rc <$> prepareFlash op
  | "GET_ROWS" => (fun call => getRowsRc call.1 call.2.headDim) <$> prepareGetRows op
  | "SET_ROWS" => (fun call => setRowsRowRc call.headDim) <$> prepareSetRows op
  | name => .error (.allocator .unsupportedOp s!"unsupported graph op {name}")

/-- The same for the PL matmul; its C function is the quantizer. -/
def checkPlMatmul (op : Op) : Except Err Int := do
  let (_, _, k) ← Board.Matmul.checkShape op.matmulFields
  .ok (if cUint32 k = 0 ∨ cUint32 k % Layout.Q8_BLOCK ≠ 0 then -2 else 0)

end Ps
