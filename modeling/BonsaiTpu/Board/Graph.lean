-- SUMMARY: The graph runner: request checks, the barrier test and the single-in-flight scheduler (`daemon/graph.py`).
import BonsaiTpu.Base.Traced
import BonsaiTpu.Board.Allocator

/-!
# Running a graph

`run_graph` walks the ops of a request in order. A kernel with `run_async` may
leave its op in flight; it is completed before the first op that needs the PL
kernel or names its destination, or at the end. The kernels are not modelled:
what their methods do when they are called for op `i` is `outcome i`. A run is
traced by the kernel calls that start or finish an op.
-/

namespace Board

/-- What `int()` makes of a value of a request. -/
abbrev Scalar := Option Int

def toInt : Scalar → Except Err Int
  | some value => .ok value
  | none => .error .conversion

/-- The tensors an op can reference, by the name of the handle field. -/
inductive Role where
  | src | dst | src0 | src1 | weights | acts | positions | kTensor | vTensor | mask | indices
  deriving DecidableEq

/-- `_TENSOR_ROLES`, in its order. -/
def tensorRoles : List Role :=
  [.src, .dst, .src0, .src1, .weights, .acts, .positions, .kTensor, .vTensor, .mask, .indices]

/-- An op of a graph: its name, empty when the field is missing, and the handle and
    offset fields of each role. -/
structure Op where
  name : String
  handle : Role → Option Scalar
  offset : Role → Option Scalar

/-- `_op_touches`, from a role on. -/
def touchesFrom (op : Op) (handle lo hi : Int) : List Role → Except Err Bool
  | [] => .ok false
  | role :: rest =>
    match op.handle role with
    | none => touchesFrom op handle lo hi rest
    | some value => do
      let named ← toInt value
      if named = handle then
        let offset ← toInt ((op.offset role).getD (some 0))
        if lo ≤ offset ∧ offset < hi then .ok true else touchesFrom op handle lo hi rest
      else touchesFrom op handle lo hi rest

def opTouches (op : Op) (handle lo hi : Int) : Except Err Bool :=
  touchesFrom op handle lo hi tensorRoles

/-- What the scheduler reads of a pending object. -/
structure Pending where
  dstHandle : Int
  dstLo : Int
  dstHi : Int
  deriving DecidableEq

/-- What the scheduler reads of a kernel: `getattr(kernel, "backend", "ps")` and
    whether it has `run_async`. -/
structure Kernel where
  backend : String
  hasRunAsync : Bool

/-- What the methods of a kernel do when they are called for an op. `runAsync`
    returns `none` when it has run the op itself. -/
structure Outcome where
  run : Except Err Unit
  runAsync : Except Err (Option Pending)
  complete : Except Err Unit

structure Env where
  registry : String → Option Kernel
  outcome : Nat → Outcome
  describe : Int → Except Err Unit

/-- A kernel call that runs, issues or completes the op with an index. -/
inductive Event where
  | run (index : Nat)
  | issue (index : Nat) (pending : Pending)
  | complete (index : Nat)
  deriving DecidableEq

abbrev Sched := Traced Event Err

/-- The op in flight. -/
structure Flight where
  index : Nat
  pending : Pending
  deriving DecidableEq

structure Counts where
  ps : Nat
  pl : Nat

def Counts.add (counts : Counts) (kernel : Kernel) : Counts :=
  if kernel.backend = "pl" then { counts with pl := counts.pl + 1 }
  else { counts with ps := counts.ps + 1 }

section Scheduler

variable (env : Env)

/-- `complete(in_flight)`, when there is one. -/
def completeFlight : Option Flight → Sched Unit
  | none => pure ()
  | some flight => do
    Traced.emit (.complete flight.index)
    Traced.lift (env.outcome flight.index).complete

/-- Whether the op in flight has to be completed first. -/
def barrier (kernel : Kernel) (op : Op) : Option Flight → Except Err Bool
  | none => .ok false
  | some flight =>
    if kernel.backend = "pl" then .ok true
    else opTouches op flight.pending.dstHandle flight.pending.dstLo flight.pending.dstHi

/-- Start an op behind its barrier; the result is the op in flight after it. -/
def startOp (index : Nat) (kernel : Kernel) (inFlight : Option Flight) : Sched (Option Flight) :=
  if kernel.hasRunAsync ∧ inFlight = none then do
    match ← Traced.lift (env.outcome index).runAsync with
    | some pending =>
      Traced.emit (.issue index pending)
      pure (some ⟨index, pending⟩)
    | none =>
      Traced.emit (.run index)
      pure none
  else do
    Traced.lift (env.outcome index).run
    Traced.emit (.run index)
    pure inFlight

/-- The body of the loop of `run_graph`. -/
def handleOp (index : Nat) (op : Op) (inFlight : Option Flight) (counts : Counts) :
    Sched (Option Flight × Counts) :=
  if op.name = "" then Traced.raise (.allocator .invalidRequest s!"graph op {index} is missing op")
  else
    match env.registry op.name with
    | none => Traced.raise (.allocator .unsupportedOp ("unsupported graph op " ++ op.name))
    | some kernel => do
      let wait ← Traced.lift (barrier kernel op inFlight)
      if wait then
        completeFlight env inFlight
        let next ← startOp env index kernel none
        pure (next, counts.add kernel)
      else
        let next ← startOp env index kernel inFlight
        pure (next, counts.add kernel)

/-- The loop, from an index on, and the drain after it. -/
def schedule : Nat → Option Flight → Counts → List Op → Sched Counts
  | _, inFlight, counts, [] => do
    completeFlight env inFlight
    pure counts
  | index, inFlight, counts, op :: rest => do
    let next ← handleOp env index op inFlight counts
    schedule (index + 1) next.1 next.2 rest

/-! ## Requests -/

def nonNegativeInt (value : Scalar) (name : String) : Except Err Int := do
  let parsed ← toInt value
  if parsed < 0 then .error (.allocator .invalidRequest (name ++ " must be non-negative"))
  else .ok parsed

def requiredInt (value : Option Scalar) (key : String) : Except Err Int :=
  match value with
  | none => .error (.allocator .invalidRequest ("missing " ++ key))
  | some value => nonNegativeInt value key

/-- The fields of a request. `ops` is `none` when it is not a list, and an op is
    `none` when it is not an object; a missing `outputs` is `[]`. -/
structure Metadata where
  graphVersion : Option Scalar
  ops : Option (List (Option Op))
  outputs : Option (List Scalar)

def requiredOps (metadata : Metadata) : Except Err (List Op) :=
  match metadata.ops with
  | none => .error (.allocator .invalidRequest "ops must be a list")
  | some ops =>
    if ops.all Option.isSome then .ok (ops.filterMap id)
    else .error (.allocator .invalidRequest "ops must contain objects")

def optionalIntList (value : Option (List Scalar)) (key : String) : Except Err (List Int) :=
  match value with
  | none => .error (.allocator .invalidRequest (key ++ " must be a list"))
  | some items => items.mapM fun item => nonNegativeInt item key

def GRAPH_VERSION : Int := 1

/-- The checks of `run_graph` before the loop: graph version, ops and outputs. -/
def checkRequest (metadata : Metadata) : Except Err (Int × List Op × List Int) := do
  let graphVersion ← requiredInt metadata.graphVersion "graph_version"
  if graphVersion ≠ GRAPH_VERSION then
    .error (.allocator .unsupportedGraphVersion s!"unsupported graph_version {graphVersion}")
  else
    let ops ← requiredOps metadata
    let outputs ← optionalIntList metadata.outputs "outputs"
    .ok (graphVersion, ops, outputs)

structure Response where
  graphVersion : Int
  opCount : Nat
  outputs : List Int
  psOps : Nat
  plOps : Nat

def runGraph (metadata : Metadata) : Sched Response := do
  let request ← Traced.lift (checkRequest metadata)
  let counts ← schedule env 0 none ⟨0, 0⟩ request.2.1
  Traced.lift (request.2.2.forM env.describe)
  pure ⟨request.1, request.2.1.length, request.2.2, counts.ps, counts.pl⟩

end Scheduler

end Board
