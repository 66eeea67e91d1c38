-- SUMMARY: The runtime refines a store of byte arrays: what every request does to the tensors and how it is answered, over the allocator on fake slabs.
import BonsaiTpu.Board.OutOfMemory
import BonsaiTpu.Board.Writes
import BonsaiTpu.Daemon.Runtime

/-!
# The tensor store

To its clients the daemon is a `Store`: tensors by handle, each an array of bytes with
the attributes it was allocated with. `storeOf` is the store that an allocator represents.
`Serves` says what a request does to the store and how it is answered; of the kernels of a
graph it says which of their methods are called and in what order (`Executes`), and leaves
open what they compute. `serve_refines` is that the runtime serves every request as the
store does.
-/

namespace Daemon

open Wire (Json Dict Message)
open Board
  (Byte Err Allocator Prog TensorRecord Attrs Counts Role Touched contents locations fakeIo)

/-! ## Stores -/

structure Tensor where
  bytes : List Byte
  shape : List Int
  dtype : String
  usage : String
  layout : String
  extentCount : Nat

/-- The tensors in the order of their allocation, and the next handle. -/
structure Store where
  totalBytes : Nat
  slabCount : Nat
  tensors : List (Nat × Tensor)
  next : Nat

def Tensor.describe (handle : Nat) (t : Tensor) : Dict :=
  object [("handle", .int handle), ("nbytes", .int t.bytes.length),
    ("shape", .arr (t.shape.map .int)), ("dtype", .str t.dtype), ("usage", .str t.usage),
    ("layout", .str t.layout), ("extent_count", .int t.extentCount)]

def Store.usedBytes (s : Store) : Nat := (s.tensors.map fun t => t.2.bytes.length).sum

def Store.freeBytes (s : Store) : Nat := s.totalBytes - s.usedBytes

def Store.memory (s : Store) : Dict :=
  object [("total_bytes", .int s.totalBytes), ("free_bytes", .int (s.totalBytes - s.usedBytes)),
    ("used_bytes", .int s.usedBytes), ("slab_count", .int s.slabCount),
    ("tensor_count", .int s.tensors.length)]

def Store.find (s : Store) (handle : Int) : Option (Nat × Tensor) :=
  s.tensors.find? fun t => (t.1 : Int) = handle

def Store.get (s : Store) (handle : Int) : Except Err (Nat × Tensor) :=
  match s.find handle with
  | some t => .ok t
  | none => .error (.allocator .unknownTensor s!"unknown tensor handle {handle}")

/-- The tensor that has a range. -/
def Store.range (s : Store) (handle offset size : Int) : Except Err (Nat × Tensor) := do
  let t ← s.get handle
  if offset < 0 then .error (.allocator .invalidRequest "offset must be non-negative")
  else if size < 0 then .error (.allocator .invalidRequest "size must be non-negative")
  else if offset + size > t.2.bytes.length then
    let stop := offset + size
    let nbytes := t.2.bytes.length
    .error (.allocator .outOfBounds s!"range [{offset}, {stop}) exceeds tensor size {nbytes}")
  else .ok t

def Tensor.write (t : Tensor) (offset : Nat) (data : List Byte) : Tensor :=
  { t with bytes := t.bytes.take offset ++ data ++ t.bytes.drop (offset + data.length) }

def Store.put (s : Store) (t : Nat × Tensor) : Store :=
  { s with tensors := s.tensors.map fun u => if u.1 = t.1 then t else u }

def Store.remove (s : Store) (handle : Nat) : Store :=
  { s with tensors := s.tensors.filter fun u => u.1 ≠ handle }

/-! ## Requests on a store -/

section

variable (py : Python)

def Store.upload (s : Store) (metadata : Dict) (payload : List Byte) :
    Except Err (Dict × Store) := do
  let handle ← requiredInt py metadata "handle"
  let offset ← intOr py metadata "offset" 0
  let t ← s.range handle offset payload.length
  .ok (object [("tensor", .obj (t.2.describe t.1)), ("written", .int payload.length)],
    s.put (t.1, t.2.write offset.toNat payload))

def Store.download (s : Store) (metadata : Dict) : Except Err (Dict × List Byte) := do
  let handle ← requiredInt py metadata "handle"
  let offset ← intOr py metadata "offset" 0
  let size ← requiredInt py metadata "size"
  let t ← s.range handle offset size
  .ok (object [("tensor", .obj (t.2.describe t.1)), ("read", .int size)],
    (t.2.bytes.drop offset.toNat).take size.toNat)

def Store.free (s : Store) (metadata : Dict) : Except Err (Dict × Store) := do
  let handle ← requiredInt py metadata "handle"
  let t ← s.get handle
  .ok (freedResult t.1 t.2.bytes.length (s.remove t.1).memory, s.remove t.1)

/-- An op names a tensor as its destination. -/
def Writes (op : Dict) (handle : Int) : Prop :=
  ∃ value, op "dst" = some value ∧ py.int value = .ok handle

/-- What the ops of a graph can do to a tensor: its handle, its attributes and its length
    stay, and it keeps its bytes unless an op names it as its destination. -/
structure Ran (ops : List Dict) (t t' : Nat × Tensor) : Prop where
  attributes : t' = (t.1, { t.2 with bytes := t'.2.bytes })
  length : t'.2.bytes.length = t.2.bytes.length
  frame : (¬∃ op ∈ ops, Writes py op t.1) → t'.2.bytes = t.2.bytes

/-- The store after some ops of a graph. -/
def Store.Ran (ops : List Dict) (s s' : Store) : Prop :=
  s' = { s with tensors := s'.tensors } ∧ List.Forall₂ (Daemon.Ran py ops) s.tensors s'.tensors

/-- The answer to a request that the store decides: of a failed one the error, and the store
    stays as it is. -/
def conclude {α : Type} (s : Store) (answer : α → Dict × List Byte) (next : α → Store) :
    Except Err α → Wire.Outcome × Store
  | .ok x => (.ok (answer x), next x)
  | .error e => (.error (raised e), s)

end

/-! ## The store of an allocator -/

def tensorOf (a : Allocator (List Byte)) (r : TensorRecord) : Tensor :=
  ⟨contents a r, r.shape, r.dtype, r.usage, r.layout, r.extents.length⟩

/-- What holds of the allocator between requests. -/
structure Sound (a : Allocator (List Byte)) : Prop where
  inv : a.Inv
  filled : a.Filled
  alignment : 0 < a.defaultAlignment

/-- The store that an allocator represents. -/
def storeOf (a : Allocator (List Byte)) : Store :=
  ⟨a.totalBytes, a.slabs.length, a.records.map fun r => (r.handle, tensorOf a r), a.nextHandle⟩

/-! ## Graphs on a store -/

section Graphs

variable {κ : Type} (py : Python) (registry : Registry (List Byte) κ)

/-- The kernel that an op asks for. -/
def kernelOf (op : Dict) : Option (Kernel (List Byte) κ) :=
  let opName := strOr py op "op" ""
  if opName = "" then none else registry.find? fun kernel => kernel.name = opName

/-- How many ops each backend runs. -/
def countsOf (ops : List Dict) : Counts :=
  let pl := ops.countP fun op => (kernelOf py registry op).any fun kernel => kernel.backend = "pl"
  ⟨ops.length - pl, pl⟩

/-- An op can overlap the op in flight: it is not for the same backend, and no field of it refers
    to the bytes that are being written. -/
def Clear (kernel : Kernel (List Byte) κ) (op : Dict) (inFlight : Option (Flight (List Byte) κ)) :
    Prop :=
  ∀ flight, inFlight = some flight → kernel.backend ≠ "pl" ∧
    ∀ role ∈ Board.tensorRoles, ∀ value, op (handleField role) = some value →
      py.int value = .ok flight.pending.dstHandle →
      ∀ offset, intOr py op (offsetField role) 0 = .ok offset →
        ¬(flight.pending.dstLo ≤ offset ∧ offset < flight.pending.dstHi)

/-- Why an op is refused before its kernel is called. -/
inductive Refused (index : Nat) (op : Dict) : Err → Prop
  | missing : strOr py op "op" "" = "" →
      Refused index op (.allocator .invalidRequest s!"graph op {index} is missing op")
  | unsupported : strOr py op "op" "" ≠ "" → kernelOf py registry op = none →
      Refused index op
        (.allocator .unsupportedOp ("unsupported graph op " ++ strOr py op "op" ""))
  | field {role : Role} {key : String} {value : Json} {e : Err} :
      (kernelOf py registry op).isSome → key = handleField role ∨ key = offsetField role →
      op key = some value → py.int value = .error e → Refused index op e

/-- The method of its kernel that an op is run by, behind an op in flight or without one: what
    the method is, and what is in flight when it returns. -/
inductive Method (kernel : Kernel (List Byte) κ) (op : Dict) :
    Option (Flight (List Byte) κ) → Work (List Byte) κ (Option (Flight (List Byte) κ)) → Prop
  | run {inFlight : Option (Flight (List Byte) κ)} :
      kernel.runAsync = none ∨ inFlight.isSome → Clear py kernel op inFlight →
      Method kernel op inFlight (do
        kernel.run op
        pure inFlight)
  | runAsync {method : Dict → Work (List Byte) κ (Option (Flight (List Byte) κ))} :
      kernel.runAsync = some method → Method kernel op none (method op)

/-- The calls that a graph makes of its kernels, from an op on: the ops in their order, each one
    run by its kernel, and an op in flight completed once, at the end or before an op that it
    must not overlap. The first failure ends the graph. -/
inductive Executes : Nat → Option (Flight (List Byte) κ) → List Dict → Machine (List Byte) κ →
    Except Err Unit → Machine (List Byte) κ → Prop
  | done {index : Nat} {b : Machine (List Byte) κ} : Executes index none [] b (.ok ()) b
  | refused {index : Nat} {inFlight : Option (Flight (List Byte) κ)} {op : Dict} {ops : List Dict}
      {b : Machine (List Byte) κ} {e : Err} : Refused py registry index op e →
      Executes index inFlight (op :: ops) b (.error e) b
  | completed {index : Nat} {flight : Flight (List Byte) κ} {ops : List Dict}
      {b b₁ b' : Machine (List Byte) κ} {o : Except Err Unit} :
      flight.complete.run b = .ok () b₁ → Executes index none ops b₁ o b' →
      Executes index (some flight) ops b o b'
  | completeFailed {index : Nat} {flight : Flight (List Byte) κ} {ops : List Dict}
      {b b' : Machine (List Byte) κ} {e : Err} : flight.complete.run b = .error e b' →
      Executes index (some flight) ops b (.error e) b'
  | ran {index : Nat} {inFlight next : Option (Flight (List Byte) κ)} {op : Dict}
      {ops : List Dict} {kernel : Kernel (List Byte) κ}
      {method : Work (List Byte) κ (Option (Flight (List Byte) κ))}
      {b b₁ b' : Machine (List Byte) κ} {o : Except Err Unit} :
      kernelOf py registry op = some kernel → Method py kernel op inFlight method →
      method.run b = .ok next b₁ → Executes (index + 1) next ops b₁ o b' →
      Executes index inFlight (op :: ops) b o b'
  | failed {index : Nat} {inFlight : Option (Flight (List Byte) κ)} {op : Dict} {ops : List Dict}
      {kernel : Kernel (List Byte) κ} {method : Work (List Byte) κ (Option (Flight (List Byte) κ))}
      {b b' : Machine (List Byte) κ} {e : Err} :
      kernelOf py registry op = some kernel → Method py kernel op inFlight method →
      method.run b = .error e b' → Executes index inFlight (op :: ops) b (.error e) b'

/-- A graph on a store runs on some machine that represents it, and changes of the store what
    its ops can; `kernels` is what the kernels have in the end. -/
structure Graphed (ops : List Dict) (s : Store) (o : Except Err Unit) (s' : Store) (kernels : κ) :
    Prop where
  executes : ∃ b b' : Machine (List Byte) κ, Sound b.allocator ∧ storeOf b.allocator = s ∧
    Executes py registry 0 none ops b o b' ∧ storeOf b'.allocator = s' ∧ b'.kernels = kernels
  ran : s.Ran py ops s'

end Graphs

/-! ## Requests and their answers -/

section

variable {κ : Type} (py : Python) (registry : Registry (List Byte) κ) (figures : κ → Figures)
    (overlayId : String)

/-- Why an allocation of some bytes is refused: they are not free in usable places, of which an
    alignment of one wastes none, or the alignment is negative. -/
inductive Store.Refuses (s : Store) (nbytes : Nat) (alignment : Int) : Err → Prop
  | outOfMemory : 0 < nbytes → 0 ≤ alignment ∨ s.freeBytes = 0 →
      (alignment = 1 → s.freeBytes < nbytes) →
      Refuses s nbytes alignment
        (.allocator .outOfMemory s!"cannot allocate {nbytes} bytes (free {s.freeBytes})")
  | alignment : 0 < nbytes → alignment < 0 →
      Refuses s nbytes alignment (.valueError "alignment must be positive")

/-- What a request does to a store, and how it is answered. An allocation gets a new handle
    and bytes of any value. -/
inductive Serves (m : Message) (s : Store) : Wire.Outcome → Store → Prop
  | hello : strOr py m.1 "op" "" = "HELLO" →
      Serves m s (.ok (helloResult (kernelNames registry) overlayId s.memory, [])) s
  | memory : strOr py m.1 "op" "" = "MEMORY" →
      Serves m s (.ok (object [("memory", .obj s.memory)], [])) s
  | allocated {nbytes alignment : Int} {attrs : Attrs} {t : Tensor} :
      strOr py m.1 "op" "" = "ALLOC_TENSOR" → allocArgs py m.1 = .ok (nbytes, attrs, alignment) →
      nbytes ≤ s.freeBytes → nbytes = 0 ∨ 0 ≤ alignment →
      (t.bytes.length : Int) = nbytes → t.shape = attrs.shape → t.dtype = attrs.dtype →
      t.usage = attrs.usage → t.layout = attrs.layout →
      Serves m s (.ok (object [("tensor", .obj (t.describe s.next))], []))
        { s with tensors := s.tensors ++ [(s.next, t)], next := s.next + 1 }
  | badAlloc {e : Err} : strOr py m.1 "op" "" = "ALLOC_TENSOR" → allocArgs py m.1 = .error e →
      Serves m s (.error (raised e)) s
  | refused {nbytes alignment : Int} {attrs : Attrs} {e : Err} :
      strOr py m.1 "op" "" = "ALLOC_TENSOR" → allocArgs py m.1 = .ok (nbytes, attrs, alignment) →
      s.Refuses nbytes.toNat alignment e → Serves m s (.error (raised e)) s
  | upload {o : Wire.Outcome} {s' : Store} : strOr py m.1 "op" "" = "UPLOAD_TENSOR" →
      conclude s (fun r => (r.1, [])) Prod.snd (s.upload py m.1 m.2) = (o, s') → Serves m s o s'
  | download {o : Wire.Outcome} {s' : Store} : strOr py m.1 "op" "" = "DOWNLOAD_TENSOR" →
      conclude s id (fun _ => s) (s.download py m.1) = (o, s') → Serves m s o s'
  | free {o : Wire.Outcome} {s' : Store} : strOr py m.1 "op" "" = "FREE_TENSOR" →
      conclude s (fun r => (r.1, [])) Prod.snd (s.free py m.1) = (o, s') → Serves m s o s'
  | graph {graphVersion : Int} {ops : List Dict} {outputs : List Int} {s' : Store} {kernels : κ} :
      strOr py m.1 "op" "" = "RUN_GRAPH" → graphArgs py m.1 = .ok (graphVersion, ops, outputs) →
      Graphed py registry ops s (.ok ()) s' kernels →
      (∀ handle ∈ outputs, (s.find handle).isSome) →
      Serves m s (.ok (graphResult graphVersion ops.length outputs (countsOf py registry ops)
        (figures kernels), [])) s'
  | badGraph {e : Err} : strOr py m.1 "op" "" = "RUN_GRAPH" → graphArgs py m.1 = .error e →
      Serves m s (.error (raised e)) s
  | graphRaised {graphVersion : Int} {ops : List Dict} {outputs : List Int} {s' : Store} {e : Err}
      {kernels : κ} : strOr py m.1 "op" "" = "RUN_GRAPH" →
      graphArgs py m.1 = .ok (graphVersion, ops, outputs) →
      Graphed py registry ops s (.error e) s' kernels → Serves m s (.error (raised e)) s'
  | missingOutput {graphVersion : Int} {ops : List Dict} {found missing : List Int} {handle : Int}
      {s' : Store} {kernels : κ} : strOr py m.1 "op" "" = "RUN_GRAPH" →
      graphArgs py m.1 = .ok (graphVersion, ops, found ++ handle :: missing) →
      Graphed py registry ops s (.ok ()) s' kernels →
      (∀ handle ∈ found, (s.find handle).isSome) → s.find handle = none →
      Serves m s
        (.error (raised (.allocator .unknownTensor s!"unknown tensor handle {handle}"))) s'
  | unsupported : strOr py m.1 "op" "" ∉ RPC_OPS →
      Serves m s (.error (raised
        (.allocator .unsupportedOp ("unsupported op " ++ strOr py m.1 "op" "")))) s

end

/-! ## The operations of an allocator -/

section Allocators

variable {a a' : Allocator (List Byte)} {r : TensorRecord}

theorem find_storeOf (a : Allocator (List Byte)) (handle : Int) :
    (storeOf a).find handle = (a.lookup handle).map fun r => (r.handle, tensorOf a r) :=
  List.find?_map ..

theorem get_storeOf_some {handle : Int} (h : a.lookup handle = some r) :
    (storeOf a).get handle = .ok (r.handle, tensorOf a r) := by
  rw [Store.get, find_storeOf, h, Option.map_some]

theorem get_storeOf_none {handle : Int} (h : a.lookup handle = none) :
    (storeOf a).get handle =
      .error (.allocator .unknownTensor s!"unknown tensor handle {handle}") := by
  rw [Store.get, find_storeOf, h, Option.map_none]

theorem describe_tensorOf (ha : a.Inv) (hr : r ∈ a.records) :
    (tensorOf a r).describe r.handle = describeRecord r := by
  rw [Tensor.describe, tensorOf, ha.length_contents hr]
  rfl

theorem usedBytes_storeOf (ha : a.Inv) : ((storeOf a).usedBytes : Int) = a.usedBytes := by
  have hlen : (storeOf a).usedBytes = (a.records.map TensorRecord.nbytes).sum := by
    rw [Store.usedBytes, storeOf, List.map_map]
    exact congrArg List.sum (List.map_congr_left fun r hr => ha.length_contents hr)
  rw [hlen, ha.usedBytes]

theorem memory_storeOf (ha : a.Inv) : (storeOf a).memory = memoryInfo a := by
  have hused := usedBytes_storeOf ha
  have hfree : ((storeOf a).totalBytes - (storeOf a).usedBytes : Int) = a.freeBytes := by
    have htotal : (storeOf a).totalBytes = a.totalBytes := rfl
    rw [hused, htotal, Allocator.usedBytes]
    omega
  rw [Store.memory, hfree, hused, memoryInfo]
  congr 2
  simp [storeOf]

theorem Sound.touched {touched : Board.Loc → Prop} (h : Sound a)
    (h' : Touched touched a a') : Sound a' where
  inv := h'.inv h.inv
  filled := h'.filled h.filled
  alignment := by
    rw [h'.layout]
    exact h.alignment

/-- The range check of the allocator is that of the store. -/
theorem run_validateRange (ha : a.Inv) (handle offset size : Int) :
    match (storeOf a).range handle offset size with
    | .ok t => (Board.validateRange handle offset size).run a = .ok () a ∧
        ∃ r, a.InRange handle offset size r ∧ t = (r.handle, tensorOf a r)
    | .error e => (Board.validateRange handle offset size).run a = .error e a := by
  rw [Store.range]
  cases h : a.lookup handle with
  | none =>
    rw [get_storeOf_none h, Board.validateRange, EStateM.run_bind, Board.run_getRecord_none h]
    rfl
  | some r =>
    have hlen : (tensorOf a r).bytes.length = r.nbytes :=
      ha.length_contents (Board.lookup_eq_some h).1
    rw [get_storeOf_some h, Board.validateRange, EStateM.run_bind, Board.run_getRecord_some h]
    simp only [bind, Except.bind, hlen]
    by_cases hoffset : offset < 0
    · simp only [if_pos hoffset]
      rfl
    by_cases hsize : size < 0
    · simp only [if_neg hoffset, if_pos hsize]
      rfl
    by_cases hend : offset + size > r.nbytes
    · simp only [if_neg hoffset, if_neg hsize, if_pos hend]
      rfl
    · simp only [if_neg hoffset, if_neg hsize, if_neg hend]
      exact ⟨rfl, r, ⟨h, by omega, by omega, by omega⟩, rfl⟩

/-- A read in range has the bytes of the store. -/
theorem run_read (h : Sound a) (handle offset size : Int) :
    match (storeOf a).range handle offset size with
    | .ok t =>
      (Board.read fakeIo handle offset size true).run a =
        .ok ((t.2.bytes.drop offset.toNat).take size.toNat) a
    | .error e => (Board.read fakeIo handle offset size true).run a = .error e a := by
  have hvalidate := run_validateRange h.inv handle offset size
  cases hrange : (storeOf a).range handle offset size with
  | error e =>
    rw [hrange] at hvalidate
    simp only [Board.read, EStateM.run_bind, hvalidate]
  | ok t =>
    rw [hrange] at hvalidate
    obtain ⟨-, r, hin, rfl⟩ := hvalidate
    exact Board.run_read h.inv h.filled hin true

/-- The store after a write of bytes to one tensor. -/
theorem storeOf_wrote (ha : a.Inv) (hr : r ∈ a.records) {offset : Nat} {data : List Byte}
    (h : Board.Wrote a a' (Board.rangeLocations r.extents offset data.length) data)
    (hin : offset + data.length ≤ r.nbytes) :
    storeOf a' = (storeOf a).put (r.handle, (tensorOf a r).write offset data) := by
  have hlen := ha.length_contents hr
  obtain ⟨hnodup, hsep⟩ := ha.separate hr
  have hcontents := h.contents hnodup (by omega)
  rw [Words.store, if_pos (by omega), Option.some.injEq] at hcontents
  have hsizes : a'.slabs.map Board.Slab.size = a.slabs.map Board.Slab.size := by
    simpa only [List.map_map, Function.comp_def] using congrArg (List.map Prod.fst) h.lengths
  have htotal : a'.totalBytes = a.totalBytes := congrArg List.sum hsizes
  have hslabs : a'.slabs.length = a.slabs.length := by
    simpa only [List.length_map] using congrArg List.length hsizes
  have hrecords : a'.records = a.records := by rw [h.layout]
  have hnext : a'.nextHandle = a.nextHandle := by rw [h.layout]
  rw [storeOf, htotal, hslabs, hrecords, hnext, Store.put, storeOf, List.map_map]
  congr 1
  refine List.map_congr_left fun r' hr' => ?_
  by_cases heq : r'.handle = r.handle
  · obtain rfl : r' = r := by
      have hlookup := ha.lookup hr'
      rw [heq, ha.lookup hr] at hlookup
      exact (Option.some.inj hlookup).symm
    simp only [Function.comp_apply, if_true]
    rw [tensorOf, ← hcontents]
    rfl
  · have hsame : contents a' r' = contents a r' := by
      refine List.map_congr_left fun loc hloc => h.frame loc fun hmem => ?_
      have hne : r' ≠ r := fun h => heq (congrArg TensorRecord.handle h)
      exact hsep r' hr' hne loc hloc (List.mem_of_mem_drop (List.mem_of_mem_take hmem))
    simp only [Function.comp_apply, if_neg heq, tensorOf, hsame]

/-- A write in range is a write to the store. -/
theorem run_write (h : Sound a) (handle offset : Int) (data : List Byte) :
    match (storeOf a).range handle offset data.length with
    | .ok t => ∃ a' r, (Board.write fakeIo handle offset data true).run a = .ok () a' ∧ Sound a' ∧
        a'.lookup handle = some r ∧ t = (r.handle, tensorOf a r) ∧
        storeOf a' = (storeOf a).put (t.1, t.2.write offset.toNat data)
    | .error e => (Board.write fakeIo handle offset data true).run a = .error e a := by
  have hvalidate := run_validateRange h.inv handle offset data.length
  cases hrange : (storeOf a).range handle offset data.length with
  | error e =>
    rw [hrange] at hvalidate
    simp only [Board.write, EStateM.run_bind, hvalidate]
  | ok t =>
    rw [hrange] at hvalidate
    obtain ⟨-, r, hin, rfl⟩ := hvalidate
    obtain ⟨a', hrun, hwrote⟩ := Board.run_write h.inv h.filled hin true
    have htouched : Touched (fun _ => True) a a' :=
      (Touched.refl _ a).wrote hwrote fun _ _ => trivial
    have hlookup : a'.lookup handle = a.lookup handle := by
      rw [Allocator.lookup, htouched.records]; rfl
    obtain ⟨hr, h0, -, hend⟩ := id hin
    exact ⟨a', r, hrun, h.touched htouched, hlookup.trans hr, rfl,
      storeOf_wrote h.inv hin.mem hwrote (by omega)⟩

theorem run_free (h : Sound a) (handle : Int) :
    match (storeOf a).get handle with
    | .ok t => ∃ a' r, (Board.free handle).run a = .ok r a' ∧ Sound a' ∧ r.handle = t.1 ∧
        r.nbytes = t.2.bytes.length ∧ storeOf a' = (storeOf a).remove t.1
    | .error e => (Board.free handle).run a = .error e a := by
  cases hlookup : a.lookup handle with
  | none =>
    rw [get_storeOf_none hlookup]
    simp only [Board.free, EStateM.run_bind, Board.run_getRecord_none hlookup]
  | some r =>
    rw [get_storeOf_some hlookup]
    obtain ⟨hr, rfl⟩ := Board.lookup_eq_some hlookup
    have hcall := Board.call_free fakeIo hlookup
    have hinv := (h.inv.effect fakeIo (.free r.handle)).inv h.inv
    rw [hcall] at hinv
    refine ⟨_, r, ?_, ⟨hinv, h.filled, h.alignment⟩, rfl, (h.inv.length_contents hr).symm, ?_⟩
    · simp only [Board.free, EStateM.run_bind, Board.run_getRecord_some hlookup, EStateM.run_modify]
      rfl
    · have hfilter : (a.records.filter fun r' => (r'.handle : Int) ≠ r.handle).map
          (fun r' => (r'.handle, tensorOf a r')) =
          (a.records.map fun r' => (r'.handle, tensorOf a r')).filter fun u => u.1 ≠ r.handle := by
        rw [List.filter_map]
        congr 1
        refine List.filter_congr fun r' _ => ?_
        simp
      simp only [storeOf, Store.remove, ← hfilter]
      rfl

theorem freeBytes_storeOf (ha : a.Inv) : (storeOf a).freeBytes = a.freeBytes := by
  have hused := usedBytes_storeOf ha
  have htotal : (storeOf a).totalBytes = a.totalBytes := rfl
  rw [Allocator.usedBytes] at hused
  rw [Store.freeBytes, htotal]
  omega

/-- Why the allocator raises is why the store refuses. -/
theorem refuses_storeOf (h : Sound a) {nbytes : Nat} {alignment : Int} {e : Err}
    (hplace : (Board.place nbytes (a.alignmentUsed (some alignment))).run a = .error e a) :
    (storeOf a).Refuses nbytes alignment e := by
  have hpos : 0 < nbytes := by
    refine Nat.pos_of_ne_zero fun hzero => ?_
    rw [hzero] at hplace
    cases hplace
  have hfree := freeBytes_storeOf h.inv
  have hdefault := h.alignment
  by_cases hneg : alignment < 0
  · have hused : a.alignmentUsed (some alignment) = alignment := if_neg (by omega)
    rw [hused] at hplace
    rcases h.inv.run_place_neg hneg.le hpos with hraises | ⟨hnone, hraises⟩
    · rw [hraises] at hplace
      cases hplace
      exact .alignment hpos hneg
    · rw [hraises] at hplace
      cases hplace
      rw [Board.outOfMemory, ← hfree]
      exact .outOfMemory hpos (Or.inr (hfree.trans hnone)) fun hone => by omega
  · have hused : 0 < a.alignmentUsed (some alignment) := by
      simp only [Allocator.alignmentUsed]
      split <;> omega
    rcases h.inv.run_place hused hpos with ⟨-, es, a'', hok⟩ | ⟨hlt, hraises⟩
    · rw [hok] at hplace
      cases hplace
    · rw [hraises] at hplace
      cases hplace
      rw [Board.outOfMemory, ← hfree]
      refine .outOfMemory hpos (Or.inl (not_lt.mp hneg)) fun hone => ?_
      rw [hone, show a.alignmentUsed (some 1) = 1 from rfl, Allocator.usable_one] at hlt
      rwa [hfree]

/-- An allocation adds a tensor under the next handle, or is refused and changes nothing. -/
theorem run_allocate (h : Sound a) {nbytes : Int} (hn : 0 ≤ nbytes) (attrs : Attrs)
    (alignment : Int) :
    (∃ a' r, (Board.allocate nbytes attrs (some alignment)).run a = .ok r a' ∧ Sound a' ∧
      a'.lookup r.handle = some r ∧
      (nbytes ≤ (storeOf a).freeBytes ∧ (nbytes = 0 ∨ 0 ≤ alignment)) ∧
      (r.nbytes : Int) = nbytes ∧ r = ⟨a.nextHandle, r.nbytes, attrs.shape, attrs.dtype,
        attrs.usage, attrs.layout, r.extents⟩ ∧
      storeOf a' = { storeOf a with
        tensors := (storeOf a).tensors ++ [(a.nextHandle, tensorOf a' r)]
        next := a.nextHandle + 1 }) ∨
    ∃ e, (Board.allocate nbytes attrs (some alignment)).run a = .error e a ∧
      (storeOf a).Refuses nbytes.toNat alignment e := by
  have heffect := h.inv.effect fakeIo (.allocate nbytes attrs (some alignment))
  have hplaced := Board.call_allocate (a := a) fakeIo hn attrs (some alignment)
  cases hrun : (Board.allocate nbytes attrs (some alignment)).run a with
  | ok r a' =>
    have hcall : Board.call fakeIo a (.allocate nbytes attrs (some alignment)) =
        (.ok (.record r), a') := by
      simp only [Board.call, Board.exec, Board.run_map_prog, hrun]
    have hinv := heffect.inv h.inv
    have halignment := heffect.defaultAlignment
    rw [hcall] at heffect hinv halignment hplaced
    -- `place` raises for a negative alignment, unless there is nothing to place
    have hgood : nbytes = 0 ∨ 0 ≤ alignment := by
      by_contra hbad
      have hused : a.alignmentUsed (some alignment) = alignment := if_neg (by omega)
      rw [hused] at hplaced
      rcases h.inv.run_place_neg (show alignment ≤ 0 by omega) (show 0 < nbytes.toNat by omega)
        with hraises | ⟨-, hraises⟩
      · rw [hraises] at hplaced
        cases hplaced
      · rw [hraises] at hplaced
        cases hplaced
    refine Or.inl ⟨a', r, rfl, ⟨hinv, ?_, by rw [halignment]; exact h.alignment⟩, ?_⟩
    · exact fun slab hslab => h.filled slab (heffect.slabs rfl ▸ hslab)
    · cases heffect with
      | @allocated _ _ _ free' extents hnonneg hplace hsum =>
        have hmem : a.newRecord nbytes attrs extents ∈
            a.records ++ [a.newRecord nbytes attrs extents] :=
          List.mem_append_right _ (List.mem_singleton_self _)
        refine ⟨hinv.lookup hmem, ⟨?_, hgood⟩, Int.toNat_of_nonneg hn, rfl, ?_⟩
        · have hbytes := hplace.partition.bytes
          rw [freeBytes_storeOf h.inv, Allocator.freeBytes]
          omega
        · simp only [storeOf, List.map_append, List.map_cons, List.map_nil]
          rfl
      | accessed hacc _ => cases hacc
  | error e a' =>
    have hcall : Board.call fakeIo a (.allocate nbytes attrs (some alignment)) =
        (.error e, a') := by
      simp only [Board.call, Board.exec, Board.run_map_prog, hrun]
    rw [hcall] at heffect hplaced
    -- a failed call leaves the allocator, and the error is the one that `place` raises
    obtain rfl : a' = a := heffect.failed_state rfl
    refine Or.inr ⟨e, rfl, refuses_storeOf h ?_⟩
    rcases Board.run_place nbytes.toNat (a'.alignmentUsed (some alignment))
      h.inv.partition.allRegular h.inv.length with
      ⟨e', hraises⟩ | ⟨free', es, -, -, hok⟩
    · rw [hraises] at hplaced ⊢
      obtain rfl : e = e' := Except.error.inj hplaced
      rfl
    · rw [hok] at hplaced
      cases hplaced

end Allocators

end Daemon
