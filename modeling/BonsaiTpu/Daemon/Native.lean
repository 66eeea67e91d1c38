-- SUMMARY: The PS kernels on fake slabs as programs on the allocator, and their registry (`kernels/ps/native.py`).
import BonsaiTpu.Daemon.Refinement
import BonsaiTpu.Ps.FlashAttn
import BonsaiTpu.Ps.GetRows
import BonsaiTpu.Ps.SetRows
import BonsaiTpu.Ps.ZeroCopy

/-!
# The PS kernels in the daemon

A kernel reads the fields of its op, stages the operands, calls its C function and writes
the result back. A fake slab has no mapping, so every pointer of a kernel is one into a
copy, and what it writes goes through the allocator.
-/

namespace Daemon.Native

open Wire (Json Dict)
open Board (Byte Err Prog fakeIo)
open Ps (Op Operand Pointer)
open Ps.ZeroCopy (Load MathOps RopeArgs)

/-! ## The fields of an op -/

/-- The fields that a kernel reads, by the conversion that it applies. -/
structure Fields where
  ints : List String
  floats : List String := []
  flags : List String := []
  tags : List String := []

def readFields {α : Type} (convert : Json → Except Err α) (op : Dict) :
    List String → Except Err (List (String × α))
  | [] => .ok []
  | key :: rest =>
    match op key with
    | none => readFields convert op rest
    | some value => do
      let x ← convert value
      let later ← readFields convert op rest
      .ok ((key, x) :: later)

/-- `float()` raises on `null` where the kernel reads the field. -/
def readFloat (py : Python) : Json → Except Err (Option (BitVec 32))
  | .null => .ok none
  | value => some <$> py.float value

def Fields.read (py : Python) (f : Fields) (op : Dict) : Except Err Op := do
  let ints ← readFields py.int op f.ints
  let floats ← readFields (readFloat py) op f.floats
  let flags ← readFields (fun value => .ok (py.bool value)) op f.flags
  let tags ← readFields (fun value => .ok (py.str value)) op f.tags
  .ok ⟨strOr py op "op" "", ints, floats, flags, tags⟩

/-! ## Staging -/

/-- A fake slab has no `pynq_buffer`. -/
def unmapped (_slabIndex : Nat) : Bool := false

/-- `_in_ptr`, with what the pointer points to. -/
def inPtr (o : Operand) : Prog (List Byte) (List Byte) := do
  let pointer ← Ps.SetRows.readableBase unmapped o.handle o.offset o.nbytes
  pointer.memory 0

/-- `_writable_base`. -/
def writableBase (o : Operand) : Prog (List Byte) Pointer := do
  match Ps.slabPointer (← get) unmapped o.handle o.offset o.nbytes with
  | .ok view => pure (.slab view.1 view.2)
  | .error (.allocator .multiExtent _) => Pointer.buffer <$> Ps.GetRows.createStringBuffer o.nbytes
  | .error (.allocator .invalidRequest _) =>
    Pointer.buffer <$> Ps.GetRows.createStringBuffer o.nbytes
  | .error e => throw e

/-- What the C function leaves at the pointer, and the finalizer if there is one. -/
def finish (pointer : Pointer) (o : Operand) (out : List Byte) : Prog (List Byte) Unit :=
  match pointer with
  | .slab index offset => Ps.leaveInSlab index offset out
  | .buffer _ => Board.write fakeIo o.handle o.offset out false

/-- `_check`. -/
def check (symbol : String) (rc : Int) : Prog (List Byte) Unit :=
  if rc ≠ 0 then throw (.other s!"native {symbol} failed with rc={rc}") else pure ()

/-- A load of the C function from a copy. -/
def load (bytes : List Byte) : Load (List Byte) :=
  fun _ p => (Words.readLeU32 bytes (4 * p)).getD 0#32

/-- A store of the C function into the output. -/
def store : Ps.ZeroCopy.Store (List Byte) :=
  fun out p v => (Words.store out (4 * p) (Ps.le32 v)).getD out

/-! ## Kernels -/

/-- The common course of the kernels with `_in_ptr` and `_out_ptr`. -/
def glue (symbol : String) (rc : Int) (srcs : List Operand) (dst : Operand)
    (fn : List (List Byte) → List Byte → List Byte) :
    Prog (List Byte) Unit := do
  let mems ← srcs.mapM inPtr
  let pointer ← writableBase dst
  let out ← pointer.memory 0
  check symbol rc
  finish pointer dst (fn mems out)

/-- `libbonsai_ps.so`, as far as it is left open: its float operations, and the quantizer of
    a column of activations with the quants and the scales of its blocks. -/
structure Library where
  math : MathOps
  floats : Ps.FloatOps (BitVec 32)
  sizeBits : Nat
  quantize : List Byte → Nat → (Nat → Int) × (Nat → BitVec 32)

section

variable (py : Python) (lib : Library)

/-- `Copy.run`. -/
def Copy.run (op : Op) : Prog (List Byte) Unit := do
  match ← Board.liftExcept (Ps.prepareCopy op) with
  | .convert src dst elements =>
    glue "bonsai_set_rows_row_f32_to_f16" (Ps.setRowsRowRc elements) [src] dst fun mems out =>
      match Ps.SetRows.bonsaiSetRowsRowF32ToF16 out (mems.getD 0 []) (Ps.cUint32 elements) with
      | some (_, converted) => converted
      | none => out
  | .raw src dst =>
    let data ← Board.read fakeIo src.handle src.offset src.nbytes false
    Board.write fakeIo dst.handle dst.offset data false

def Copy.fields (op : Dict) : Fields :=
  if strOr py op "src0_type" "" = "f32" ∧ strOr py op "dst_type" "" = "f16" then
    { ints := ["elements", "src", "src_offset", "dst", "dst_offset"],
      tags := ["src0_type", "dst_type"] }
  else { ints := ["nbytes", "src", "src_offset", "dst", "dst_offset"],
         tags := ["src0_type", "dst_type"] }

/-- A column of the loop of `bonsai_matmul_q1a8`. -/
def matmulColumn (weights acts : List Byte) (rows k col : Nat) (out : List Byte) : List Byte :=
  let quants := lib.quantize (acts.drop (4 * (col * k))) k
  (List.range rows).foldl (fun out row =>
    match Ps.matmulQ1a8Row lib.floats lib.sizeBits weights quants.1 quants.2
        (k / Layout.Q1_BLOCK) row with
    | some acc => store out (col * rows + row) acc
    | none => out) out

/-- `bonsai_matmul_q1a8`, when its checks pass. -/
def bonsaiMatmulQ1a8 (weights acts : List Byte) (rows cols k : Nat) (out : List Byte) : List Byte :=
  (List.range cols).foldl (fun out col => matmulColumn lib weights acts rows k col out) out

/-- `MatmulQ1A8.run`. -/
def MatmulQ1A8.run (op : Op) : Prog (List Byte) Unit := do
  let call ← Board.liftExcept (Ps.prepareMatmul op)
  let weights ← Board.read fakeIo call.weights.handle call.weights.offset call.weights.nbytes false
  let acts ← Board.read fakeIo call.acts.handle call.acts.offset call.acts.nbytes false
  check "bonsai_matmul_q1a8" (Ps.matmulRc call.rows call.cols call.k)
  Board.write fakeIo call.dst.handle call.dst.offset
    (bonsaiMatmulQ1a8 lib weights acts (Ps.cUint32 call.rows) (Ps.cUint32 call.cols)
      (Ps.cUint32 call.k)
      (List.replicate (call.rows * call.cols * 4) 0)) false

def MatmulQ1A8.fields : Fields where
  ints :=
    ["rows", "cols", "k", "weights", "weights_offset", "acts", "acts_offset", "dst", "dst_offset"]

/-- `_BinaryF32.run`. -/
def BinaryF32.run (symbol : String)
    (fn : Load (List Byte) → Load (List Byte) → Ps.ZeroCopy.Store (List Byte) → Nat → Nat → Bool →
    List Byte → List Byte) (op : Op) : Prog (List Byte) Unit := do
  let c ← Board.liftExcept (Ps.prepareBinary op)
  glue symbol (Ps.rowsColsRc c.rows c.cols) [c.src0, c.src1] c.dst fun mems =>
    fn (load (mems.getD 0 [])) (load (mems.getD 1 [])) store (Ps.cUint32 c.rows)
      (Ps.cUint32 c.cols) c.src1Broadcast

def BinaryF32.fields : Fields where
  ints := ["rows", "cols", "src0", "src0_offset", "src1", "src1_offset", "dst", "dst_offset"]
  flags := ["src1_broadcast"]

/-- `ScaleF32.run`. -/
def ScaleF32.run (op : Op) : Prog (List Byte) Unit := do
  let c ← Board.liftExcept (Ps.prepareScale op)
  glue "bonsai_scale_f32" (Ps.elementsRc c.elements) [c.src] c.dst fun mems =>
    Ps.ZeroCopy.bonsaiScaleF32 lib.math (load (mems.getD 0 [])) store
      (Ps.cUint32 c.elements) c.scale c.bias

def ScaleF32.fields : Fields where
  ints := ["elements", "src", "src_offset", "dst", "dst_offset"]
  floats := ["scale", "bias"]

/-- `SiluF32.run`. -/
def SiluF32.run (op : Op) : Prog (List Byte) Unit := do
  let c ← Board.liftExcept (Ps.prepareUnary op)
  glue "bonsai_silu_f32" (Ps.elementsRc c.elements) [c.src] c.dst fun mems =>
    Ps.ZeroCopy.bonsaiSiluF32 lib.math (load (mems.getD 0 [])) store (Ps.cUint32 c.elements)

def SiluF32.fields : Fields where
  ints := ["elements", "src", "src_offset", "dst", "dst_offset"]

/-- `SwigluF32.run`. -/
def SwigluF32.run (op : Op) : Prog (List Byte) Unit := do
  let c ← Board.liftExcept (Ps.prepareSwiglu op)
  glue "bonsai_swiglu_f32" (Ps.elementsRc c.elements) [c.gate, c.up] c.dst fun mems =>
    Ps.ZeroCopy.bonsaiSwigluF32 lib.math (load (mems.getD 0 [])) (load (mems.getD 1 [])) store
      (Ps.cUint32 c.elements)

def SwigluF32.fields : Fields where
  ints := ["elements", "src0", "src0_offset", "src1", "src1_offset", "dst", "dst_offset"]

/-- `RmsNormF32.run`. -/
def RmsNormF32.run (op : Op) : Prog (List Byte) Unit := do
  let c ← Board.liftExcept (Ps.prepareRmsNorm op)
  glue "bonsai_rms_norm_f32" (Ps.rowsColsRc c.rows c.cols) [c.src] c.dst fun mems =>
    Ps.ZeroCopy.bonsaiRmsNormF32 lib.math (load (mems.getD 0 [])) store (Ps.cUint32 c.rows)
      (Ps.cUint32 c.cols) c.eps

def RmsNormF32.fields : Fields where
  ints := ["rows", "cols", "src", "src_offset", "dst", "dst_offset"]
  floats := ["eps"]

/-- `RmsNormMulF32.run`. -/
def RmsNormMulF32.run (op : Op) : Prog (List Byte) Unit := do
  let c ← Board.liftExcept (Ps.prepareRmsNormMul op)
  glue "bonsai_rms_norm_mul_f32" (Ps.rowsColsRc c.rows c.cols) [c.src, c.weight] c.dst fun mems =>
    Ps.ZeroCopy.bonsaiRmsNormMulF32 lib.math (load (mems.getD 0 [])) (load (mems.getD 1 [])) store
      (Ps.cUint32 c.rows)
      (Ps.cUint32 c.cols) c.eps

def RmsNormMulF32.fields : Fields where
  ints := ["rows", "cols", "src", "src_offset", "src1", "src1_offset", "dst", "dst_offset"]
  floats := ["eps"]

/-- The scalar arguments of `bonsai_rope_f32`. -/
def ropeArgs (c : Ps.RopeCall) : RopeArgs where
  headDim := Ps.cUint32 c.headDim
  nHead := Ps.cUint32 c.nHead
  nToken := Ps.cUint32 c.nToken
  nDims := Ps.cUint32 c.nDims
  mode := Ps.cUint32 c.mode
  nCtxOrig := Ps.cUint32 c.nCtxOrig
  freqBase := c.floats.getD 0 0
  freqScale := c.floats.getD 1 0
  extFactor := c.floats.getD 2 0
  attnFactor := c.floats.getD 3 0
  betaFast := c.floats.getD 4 0
  betaSlow := c.floats.getD 5 0

/-- `RopeF32.run`. -/
def RopeF32.run (op : Op) : Prog (List Byte) Unit := do
  let c ← Board.liftExcept (Ps.prepareRope op)
  glue "bonsai_rope_f32" (Ps.ropeRc c.headDim c.nHead c.nToken c.nDims) [c.src, c.positions]
    c.dst fun mems =>
    Ps.ZeroCopy.bonsaiRopeF32 lib.math (ropeArgs c) (load (mems.getD 0 []))
      (load (mems.getD 1 [])) store

def RopeF32.fields : Fields where
  ints := ["head_dim", "n_head", "n_token", "n_dims", "mode", "n_ctx_orig", "src",
    "src_offset", "positions", "positions_offset", "dst", "dst_offset"]
  floats := ["freq_base", "freq_scale", "ext_factor", "attn_factor", "beta_fast", "beta_slow"]

/-- `_slab_pointer_or_scratch`; its scratch buffer needs pynq. -/
def slabPointerOrScratch (o : Operand) : Prog (List Byte) Unit := do
  match Ps.slabPointer (← get) unmapped o.handle o.offset o.nbytes with
  | .ok _ => pure ()
  | .error (.allocator .multiExtent _) => throw (.other "No module named 'pynq'")
  | .error e => throw e

/-- `FlashAttnExtF32.run`, up to its C call, which it does not reach. -/
def FlashAttnExtF32.run (op : Op) : Prog (List Byte) Unit := do
  let call ← Board.liftExcept (Ps.prepareFlash op)
  forM call.operands slabPointerOrScratch

def FlashAttnExtF32.fields (op : Dict) : Fields where
  ints := ["head_dim_q", "head_dim_v", "n_head", "n_head_kv", "n_kv", "n_token", "q_nb1", "q_nb2",
    "k_nb1", "k_nb2", "v_nb1", "v_nb2", "dst_nb1", "dst_nb2", "mask_nb1", "src0", "src0_offset",
    "k_tensor", "k_offset", "v_tensor", "v_offset", "dst",
    "dst_offset"] ++ if py.bool ((op "has_mask").getD (.bool false)) then ["mask",
    "mask_offset"] else []
  floats := ["scale", "max_bias", "logit_softcap"]
  flags := ["has_mask"]

def GetRows.fields : Fields where
  ints := ["head_dim", "ne01", "ne10", "ne11", "ne12", "src0_nb1", "src0_nb2", "src0_nb3",
    "indices_nb1", "indices_nb2", "dst_nb1", "dst_nb2", "dst_nb3", "src0", "src0_offset", "dst",
    "dst_offset", "indices", "indices_offset"]
  tags := ["src0_type", "indices_type"]

def SetRows.fields : Fields where
  ints := ["head_dim", "ne01", "ne02", "ne03", "ne11", "ne12", "src0_nb1", "src0_nb2",
    "src0_nb3", "indices_nb1", "indices_nb2", "dst_nb1", "dst_nb2", "dst_nb3", "src0_offset",
    "indices_offset", "dst_offset", "src0", "indices", "dst"]
  tags := ["dst_type", "indices_type"]

/-! ## The registry -/

/-- A PS kernel: it has no `run_async`. -/
def kernel {κ : Type} (name : String) (fields : Dict → Fields) (run : Op → Prog (List Byte) Unit) :
    Kernel (List Byte) κ where
  name := name
  backend := "ps"
  run op := do
    let fieldsRead ← lift ((fields op).read py op)
    onAllocator (run fieldsRead)
  runAsync := none

/-- The kernels of `register_all`, in its order. -/
def kernels {κ : Type} : List (Kernel (List Byte) κ) := [
  kernel py "COPY" (Copy.fields py) Copy.run,
  kernel py "MATMUL_Q1A8" (fun _ => MatmulQ1A8.fields) (MatmulQ1A8.run lib),
  kernel py "ADD_F32" (fun _ => BinaryF32.fields)
    (BinaryF32.run "bonsai_add_f32" (Ps.ZeroCopy.bonsaiAddF32 lib.math)),
  kernel py "MUL_F32" (fun _ => BinaryF32.fields)
    (BinaryF32.run "bonsai_mul_f32" (Ps.ZeroCopy.bonsaiMulF32 lib.math)),
  kernel py "SCALE_F32" (fun _ => ScaleF32.fields) (ScaleF32.run lib),
  kernel py "SILU_F32" (fun _ => SiluF32.fields) (SiluF32.run lib),
  kernel py "SWIGLU_F32" (fun _ => SwigluF32.fields) (SwigluF32.run lib),
  kernel py "RMS_NORM_F32" (fun _ => RmsNormF32.fields) (RmsNormF32.run lib),
  kernel py "RMS_NORM_MUL_F32" (fun _ => RmsNormMulF32.fields) (RmsNormMulF32.run lib),
  kernel py "ROPE_F32" (fun _ => RopeF32.fields) (RopeF32.run lib),
  kernel py "FLASH_ATTN_EXT_F32" (FlashAttnExtF32.fields py) FlashAttnExtF32.run,
  kernel py "GET_ROWS" (fun _ => GetRows.fields) (Ps.GetRows.run lib.floats lib.sizeBits unmapped),
  kernel py "SET_ROWS" (fun _ => SetRows.fields) (Ps.SetRows.run unmapped)]

/-- `register_all`. -/
def registerAll {κ : Type} (registry : Registry (List Byte) κ) : Registry (List Byte) κ :=
  (kernels py lib).foldl register registry

end

end Daemon.Native
