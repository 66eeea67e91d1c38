-- SUMMARY: The runtime of the daemon: the ops of its protocol, graphs over kernels that are programs, and how what they raise is answered (`daemon/runtime.py`, `daemon/graph.py`, `kernels/registry.py`).
import BonsaiTpu.Board.Graph
import BonsaiTpu.Wire.Sessions
import Mathlib.Data.List.Sort

/-!
# The runtime

A request is a JSON object and a payload. `handle` is `Runtime._handle`: it reads the
fields of the request, works on the allocator and answers with an object and a payload.
The kernels of a graph are programs on the machine, which is the allocator and whatever
else the kernels have.
-/

namespace Daemon

open Wire (Json Dict Message DispatchExc)
open Board (Byte Err AllocatorCode Allocator Prog SlabIo TensorRecord Attrs Role Pending Counts)

/-! ## Fields -/

/-- `int()`, `str()`, `bool()` and `c_float(float())` on JSON values. -/
structure Python where
  int : Json → Except Err Int
  str : Json → String
  bool : Json → Bool
  float : Json → Except Err (BitVec 32)
  int_int : ∀ n, int (.int n) = .ok n
  str_str : ∀ s, str (.str s) = s
  bool_bool : ∀ b, bool (.bool b) = b

section

variable (py : Python)

/-- `_non_negative_int`. -/
def nonNegativeInt (value : Json) (name : String) : Except Err Int := do
  let parsed ← py.int value
  if parsed < 0 then .error (.allocator .invalidRequest (name ++ " must be non-negative"))
  else .ok parsed

/-- `_required_int`. -/
def requiredInt (metadata : Dict) (key : String) : Except Err Int :=
  match metadata key with
  | none => .error (.allocator .invalidRequest ("missing " ++ key))
  | some value => nonNegativeInt py value key

/-- `int(metadata.get(key, fallback))`. -/
def intOr (metadata : Dict) (key : String) (fallback : Int) : Except Err Int :=
  match metadata key with
  | none => .ok fallback
  | some value => py.int value

/-- `str(metadata.get(key, fallback))`. -/
def strOr (metadata : Dict) (key fallback : String) : String :=
  match metadata key with
  | none => fallback
  | some value => py.str value

/-- `_optional_list`. -/
def optionalList (metadata : Dict) (key : String) : Except Err (List Int) :=
  match metadata key with
  | none => .ok []
  | some (.arr items) => items.mapM py.int
  | some _ => .error (.allocator .invalidRequest (key ++ " must be a list"))

/-- `_optional_int_list`. -/
def optionalIntList (metadata : Dict) (key : String) : Except Err (List Int) :=
  match metadata key with
  | none => .ok []
  | some (.arr items) => items.mapM fun item => nonNegativeInt py item key
  | some _ => .error (.allocator .invalidRequest (key ++ " must be a list"))

end

/-- A dict display. -/
def object (entries : List (String × Json)) : Dict :=
  fun key => (entries.find? fun e => e.1 == key).map Prod.snd

/-- `describe_record`. -/
def describeRecord (record : TensorRecord) : Dict :=
  object [("handle", .int record.handle), ("nbytes", .int record.nbytes),
    ("shape", .arr (record.shape.map .int)), ("dtype", .str record.dtype),
    ("usage", .str record.usage), ("layout", .str record.layout),
    ("extent_count", .int record.extents.length)]

/-- `memory_info`. -/
def memoryInfo {σ : Type} (a : Allocator σ) : Dict :=
  object [("total_bytes", .int a.totalBytes), ("free_bytes", .int a.freeBytes),
    ("used_bytes", .int a.usedBytes), ("slab_count", .int a.slabs.length),
    ("tensor_count", .int a.records.length)]

/-! ## Machines -/

/-- The allocator and the state of the kernels. -/
structure Machine (σ κ : Type) where
  allocator : Allocator σ
  kernels : κ

abbrev Work (σ κ : Type) := EStateM Err (Machine σ κ)

section

variable {σ κ : Type}

/-- A call of the allocator. -/
def onAllocator {α : Type} (p : Prog σ α) : Work σ κ α := fun b =>
  match p.run b.allocator with
  | .ok x a => .ok x { b with allocator := a }
  | .error e a => .error e { b with allocator := a }

def lift {α : Type} : Except Err α → Work σ κ α
  | .ok x => pure x
  | .error e => throw e

/-- `describe`. -/
def describe (handle : Int) : Work σ κ Dict :=
  onAllocator (describeRecord <$> Board.getRecord handle)

/-! ## Kernels -/

/-- An op in flight: what the scheduler reads of it, and `complete` of its kernel on it. -/
structure Flight (σ κ : Type) where
  pending : Pending
  complete : Work σ κ Unit

/-- A kernel; `runAsync` is missing when it has no such method, and gives nothing when it
    has run the op itself. -/
structure Kernel (σ κ : Type) where
  name : String
  backend : String
  run : Dict → Work σ κ Unit
  runAsync : Option (Dict → Work σ κ (Option (Flight σ κ)))

/-- The kernels in the order of the dict. -/
abbrev Registry (σ κ : Type) := List (Kernel σ κ)

/-- `KernelRegistry.register`. -/
def register (registry : Registry σ κ) (kernel : Kernel σ κ) : Registry σ κ :=
  if registry.any fun k => k.name = kernel.name then registry.map fun k =>
    if k.name = kernel.name then kernel else k
  else registry ++ [kernel]

/-- `KernelRegistry.get`. -/
def getKernel (registry : Registry σ κ) (opName : String) : Except Err (Kernel σ κ) :=
  match registry.find? fun k => k.name = opName with
  | some kernel => .ok kernel
  | none => .error (.allocator .unsupportedOp ("unsupported graph op " ++ opName))

/-- `KernelRegistry.names`. -/
def kernelNames (registry : Registry σ κ) : List String :=
  (registry.map Kernel.name).insertionSort (· ≤ ·)

/-! ## Graphs -/

/-- The handle field of a role. -/
def handleField : Role → String
  | .src => "src"
  | .dst => "dst"
  | .src0 => "src0"
  | .src1 => "src1"
  | .weights => "weights"
  | .acts => "acts"
  | .positions => "positions"
  | .kTensor => "k_tensor"
  | .vTensor => "v_tensor"
  | .mask => "mask"
  | .indices => "indices"

/-- The offset field of a role. -/
def offsetField : Role → String
  | .src => "src_offset"
  | .dst => "dst_offset"
  | .src0 => "src0_offset"
  | .src1 => "src1_offset"
  | .weights => "weights_offset"
  | .acts => "acts_offset"
  | .positions => "positions_offset"
  | .kTensor => "k_offset"
  | .vTensor => "v_offset"
  | .mask => "mask_offset"
  | .indices => "indices_offset"

section

variable (py : Python)

/-- `_op_touches`, from a role on. -/
def touchesFrom (op : Dict) (handle lo hi : Int) : List Role → Except Err Bool
  | [] => .ok false
  | role :: rest =>
    match op (handleField role) with
    | none => touchesFrom op handle lo hi rest
    | some value => do
      let named ← py.int value
      if named = handle then
        let offset ← intOr py op (offsetField role) 0
        if lo ≤ offset ∧ offset < hi then .ok true else touchesFrom op handle lo hi rest
      else touchesFrom op handle lo hi rest

/-- `_op_touches`. -/
def opTouches (op : Dict) (handle lo hi : Int) : Except Err Bool :=
  touchesFrom py op handle lo hi Board.tensorRoles

/-- Whether the op in flight has to be completed before an op. -/
def barrier (kernel : Kernel σ κ) (op : Dict) : Option (Flight σ κ) → Except Err Bool
  | none => .ok false
  | some flight =>
    if kernel.backend = "pl" then .ok true
    else opTouches py op flight.pending.dstHandle flight.pending.dstLo flight.pending.dstHi

/-- `complete(in_flight)`, when there is one. -/
def settle : Option (Flight σ κ) → Work σ κ Unit
  | none => pure ()
  | some flight => flight.complete

/-- The barrier before an op; the result is the op that is still in flight. -/
def release (wait : Bool) (inFlight : Option (Flight σ κ)) : Work σ κ (Option (Flight σ κ)) :=
  if wait then do
    settle inFlight
    pure none
  else pure inFlight

/-- Start an op; the result is the op in flight after it. -/
def startOp (kernel : Kernel σ κ) (op : Dict) (inFlight : Option (Flight σ κ)) :
    Work σ κ (Option (Flight σ κ)) :=
  match kernel.runAsync, inFlight with
  | some runAsync, none => runAsync op
  | _, _ => do
    kernel.run op
    pure inFlight

variable (registry : Registry σ κ)

/-- The body of the loop of `run_graph`. -/
def graphOp (index : Nat) (op : Dict) (inFlight : Option (Flight σ κ)) (counts : Counts) :
    Work σ κ (Option (Flight σ κ) × Counts) :=
  let opName := strOr py op "op" ""
  if opName = "" then throw (.allocator .invalidRequest s!"graph op {index} is missing op")
  else do
    let kernel ← lift (getKernel registry opName)
    let wait ← lift (barrier py kernel op inFlight)
    let inFlight ← release wait inFlight
    let next ← startOp kernel op inFlight
    pure (next, counts.add ⟨kernel.backend, kernel.runAsync.isSome⟩)

/-- The loop of `run_graph`, from an index on, and the drain after it. -/
def schedule : Nat → Option (Flight σ κ) → Counts → List Dict → Work σ κ Counts
  | _, inFlight, counts, [] => do
    settle inFlight
    pure counts
  | index, inFlight, counts, op :: rest => do
    let next ← graphOp py registry index op inFlight counts
    schedule (index + 1) next.1 next.2 rest

def asObject : Json → Except Err Dict
  | .obj fields => .ok fields
  | _ => .error (.allocator .invalidRequest "ops must contain objects")

/-- `_required_ops`. -/
def requiredOps (metadata : Dict) : Except Err (List Dict) :=
  match metadata "ops" with
  | some (.arr ops) => ops.mapM asObject
  | _ => .error (.allocator .invalidRequest "ops must be a list")

/-- The checks of `run_graph` before its loop: graph version, ops and outputs. -/
def graphArgs (metadata : Dict) : Except Err (Int × List Dict × List Int) := do
  let graphVersion ← requiredInt py metadata "graph_version"
  if graphVersion ≠ Board.GRAPH_VERSION then
    .error (.allocator .unsupportedGraphVersion s!"unsupported graph_version {graphVersion}")
  else
    let ops ← requiredOps metadata
    let outputs ← optionalIntList py metadata "outputs"
    .ok (graphVersion, ops, outputs)

/-- What the timer says at the end of a graph. -/
structure Figures where
  bytesRead : Nat
  bytesWritten : Nat
  elapsedUs : Nat

def graphResult (graphVersion : Int) (opCount : Nat) (outputs : List Int) (counts : Counts)
    (figures : Figures) : Dict :=
  object [("graph_version", .int graphVersion), ("op_count", .int opCount),
    ("outputs", .arr (outputs.map .int)),
    ("counters", .obj (object [("ps_ops", .int counts.ps), ("pl_ops", .int counts.pl),
      ("bytes_read", .int figures.bytesRead), ("bytes_written", .int figures.bytesWritten),
      ("elapsed_us", .int figures.elapsedUs)]))]

/-- Every declared output exists. -/
def checkOutputs : List Int → Work σ κ Unit
  | [] => pure ()
  | handle :: rest => do
    let _ ← describe handle
    checkOutputs rest

variable (figures : κ → Figures)

/-- `run_graph`. -/
def runGraph (metadata : Dict) : Work σ κ Dict := do
  let (graphVersion, ops, outputs) ← lift (graphArgs py metadata)
  let counts ← schedule py registry 0 none ⟨0, 0⟩ ops
  checkOutputs outputs
  let machine ← get
  pure (graphResult graphVersion ops.length outputs counts (figures machine.kernels))

/-! ## Requests -/

def ABI_VERSION : Int := 1
def SERVER_NAME : String := "bonsaid"
def RPC_OPS : List String :=
  ["HELLO", "MEMORY", "ALLOC_TENSOR", "UPLOAD_TENSOR", "DOWNLOAD_TENSOR",
    "FREE_TENSOR", "RUN_GRAPH"]

/-- `_hello`; `memory` is what `memory_info` returns. -/
def helloResult (graphOps : List String) (overlayId : String) (memory : Dict) : Dict :=
  object [("abi_version", .int ABI_VERSION), ("server", .str SERVER_NAME),
    ("overlay_id", .str overlayId), ("memory", .obj memory),
    ("capabilities", .arr (RPC_OPS.map .str)), ("graph_ops", .arr (graphOps.map .str))]

variable (io : SlabIo σ)

/-- The arguments of `allocate` in a request. -/
def allocArgs (metadata : Dict) : Except Err (Int × Attrs × Int) := do
  let nbytes ← requiredInt py metadata "nbytes"
  let shape ← optionalList py metadata "shape"
  let alignment ← intOr py metadata "alignment" 64
  .ok (nbytes, ⟨shape, strOr py metadata "dtype" "u8", strOr py metadata "usage" "tensor",
    strOr py metadata "layout" "raw"⟩, alignment)

/-- `ALLOC_TENSOR`. -/
def allocTensor (metadata : Dict) : Work σ κ Dict := do
  let (nbytes, attrs, alignment) ← lift (allocArgs py metadata)
  let record ← onAllocator (Board.allocate nbytes attrs (some alignment))
  let tensor ← describe record.handle
  pure (object [("tensor", .obj tensor)])

/-- `UPLOAD_TENSOR`. -/
def uploadTensor (metadata : Dict) (payload : List Byte) : Work σ κ Dict := do
  let handle ← lift (requiredInt py metadata "handle")
  let offset ← lift (intOr py metadata "offset" 0)
  onAllocator (Board.write io handle offset payload true)
  let tensor ← describe handle
  pure (object [("tensor", .obj tensor), ("written", .int payload.length)])

/-- `DOWNLOAD_TENSOR`. -/
def downloadTensor (metadata : Dict) : Work σ κ (Dict × List Byte) := do
  let handle ← lift (requiredInt py metadata "handle")
  let offset ← lift (intOr py metadata "offset" 0)
  let size ← lift (requiredInt py metadata "size")
  let data ← onAllocator (Board.read io handle offset size true)
  let tensor ← describe handle
  pure (object [("tensor", .obj tensor), ("read", .int data.length)], data)

def freedResult (handle nbytes : Nat) (memory : Dict) : Dict :=
  object [("freed", .obj (object [("handle", .int handle), ("nbytes", .int nbytes)])),
    ("memory", .obj memory)]

/-- `FREE_TENSOR`. -/
def freeTensor (metadata : Dict) : Work σ κ Dict := do
  let handle ← lift (requiredInt py metadata "handle")
  let record ← onAllocator (Board.free handle)
  let machine ← get
  pure (freedResult record.handle record.nbytes (memoryInfo machine.allocator))

variable (overlayId : String)

/-- `Runtime._handle`. -/
def handle (m : Message) : Work σ κ (Dict × List Byte) := do
  let op := strOr py m.1 "op" ""
  if op = "HELLO" then
    let machine ← get
    pure (helloResult (kernelNames registry) overlayId (memoryInfo machine.allocator), [])
  else if op = "MEMORY" then
    let machine ← get
    pure (object [("memory", .obj (memoryInfo machine.allocator))], [])
  else if op = "ALLOC_TENSOR" then
    let result ← allocTensor py m.1
    pure (result, [])
  else if op = "UPLOAD_TENSOR" then
    let result ← uploadTensor py io m.1 m.2
    pure (result, [])
  else if op = "DOWNLOAD_TENSOR" then downloadTensor py io m.1
  else if op = "FREE_TENSOR" then
    let result ← freeTensor py m.1
    pure (result, [])
  else if op = "RUN_GRAPH" then
    let result ← runGraph py registry figures m.1
    pure (result, [])
  else throw (.allocator .unsupportedOp ("unsupported op " ++ op))

end

/-! ## Answers -/

/-- The code that an `AllocatorError` carries. -/
def codeText : AllocatorCode → String
  | .invalidRequest => "invalid_request"
  | .outOfMemory => "out_of_memory"
  | .internalError => "internal_error"
  | .unknownTensor => "unknown_tensor"
  | .outOfBounds => "out_of_bounds"
  | .multiExtent => "multi_extent"
  | .unsupportedGraphVersion => "unsupported_graph_version"
  | .unsupportedOp => "unsupported_op"

/-- The clause of the server that catches an exception. -/
def raised : Err → DispatchExc
  | .allocator code message => .allocatorError (codeText code) message
  | .valueError message => .typeOrValueError message
  | .indexError => .exception "list index out of range"
  | .conversion => .typeOrValueError "invalid literal for int()"
  | .other message => .exception message

/-- The outcome of a request and the machine after it, whether or not it raises. -/
def serve (py : Python) (registry : Registry σ κ) (figures : κ → Figures) (io : SlabIo σ)
    (overlayId : String) (m : Message) (b : Machine σ κ) : Wire.Outcome × Machine σ κ :=
  match (handle py registry figures io overlayId m).run b with
  | .ok answer b' => (.ok answer, b')
  | .error e b' => (.error (raised e), b')

/-- The execution of a request, under the lock of the runtime. -/
def body (py : Python) (registry : Registry σ κ) (figures : κ → Figures) (io : SlabIo σ)
    (overlayId : String) (m : Message) : Wire.Body (Machine σ κ) Wire.Outcome :=
  .act (fun b => (serve py registry figures io overlayId m b).2) fun b =>
    .ret (serve py registry figures io overlayId m b).1

end

end Daemon
