-- SUMMARY: The tensor allocator of the board daemon: free lists, placement, release, and reads and writes across extents (`allocator.py`, `slabs.py`).
import BonsaiTpu.Base.Blocks

/-!
# The tensor allocator

Tensors live in slabs of board memory. Every slab has a free list of blocks, and
a tensor owns extents in one or several slabs. The allocator is generic in what a
slab holds: `SlabIo` has the two operations it uses. A call that raises keeps the
changes it made before, so calls are programs over the state with errors.
-/

namespace Board

open Blocks (Block)

abbrev Byte := BitVec 8

/-- The stable error codes of `AllocatorError`. -/
inductive AllocatorCode where
  | invalidRequest
  | outOfMemory
  | internalError
  | unknownTensor
  | outOfBounds
  | multiExtent
  | unsupportedGraphVersion
  | unsupportedOp
  deriving DecidableEq

/-- What a call can raise. `conversion` is `int()` on a value that is no number;
    `other` stands for whatever a kernel raises. -/
inductive Err where
  | allocator (code : AllocatorCode) (message : String)
  | valueError (message : String)
  | indexError
  | conversion
  | other (message : String)
  deriving DecidableEq

/-- One contiguous range inside a single slab. -/
structure Extent where
  slabIndex : Nat
  offset : Nat
  nbytes : Nat
  deriving DecidableEq

structure TensorRecord where
  handle : Nat
  nbytes : Nat
  shape : List Int
  dtype : String
  usage : String
  layout : String
  extents : List Extent
  deriving DecidableEq

structure Slab (σ : Type) where
  size : Nat
  data : σ

/-- The slab operations the allocator uses. A read may change the slab (cache
    maintenance). -/
structure SlabIo (σ : Type) where
  read : σ → Nat → Nat → Bool → List Byte × σ
  write : σ → Nat → List Byte → Bool → σ

/-- `FakeSlab`: a `bytearray`, with the slices of Python. -/
def fakeIo : SlabIo (List Byte) where
  read data offset size _ := ((data.drop offset).take size, data)
  write data offset bytes _ := data.take offset ++ bytes ++ data.drop (offset + bytes.length)

def fakeSlab (size : Nat) : Slab (List Byte) := ⟨size, List.replicate size 0⟩

structure Allocator (σ : Type) where
  slabs : List (Slab σ)
  free : List (List Block)
  records : List TensorRecord
  nextHandle : Nat
  defaultAlignment : Int

abbrev Prog (σ : Type) := EStateM Err (Allocator σ)

def liftExcept {σ α : Type} : Except Err α → Prog σ α
  | .ok a => pure a
  | .error e => throw e

def alignUp (value : Nat) (alignment : Int) : Except Err Nat :=
  if alignment ≤ 0 then .error (.valueError "alignment must be positive")
  else .ok ((value + alignment.toNat - 1) / alignment.toNat * alignment.toNat)

/-! ## Free lists -/

/-- The inner loop of `_place_single`: where the tensor fits in one free list. -/
def findBlock (alignment : Int) (nbytes : Nat) : List Block → Except Err (Option Nat)
  | [] => .ok none
  | (blockOffset, blockSize) :: rest => do
    let aligned ← alignUp blockOffset alignment
    if aligned + nbytes ≤ blockOffset + blockSize then .ok (some aligned)
    else findBlock alignment nbytes rest

/-- The outer loop of `_place_single`. -/
def findSlab (alignment : Int) (nbytes : Nat) :
    List (List Block) → Nat → Except Err (Option (Nat × Nat))
  | [], _ => .ok none
  | slabFree :: rest, slabIndex => do
    match ← findBlock alignment nbytes slabFree with
    | some aligned => .ok (some (slabIndex, aligned))
    | none => findSlab alignment nbytes rest (slabIndex + 1)

/-- `_take` on one free list; `none` when no block covers the range. -/
def takeBlock (offset nbytes : Nat) : List Block → Option (List Block)
  | [] => none
  | (blockOffset, blockSize) :: rest =>
    let blockEnd := blockOffset + blockSize
    if blockOffset ≤ offset ∧ offset + nbytes ≤ blockEnd then
      let tailOffset := offset + nbytes
      let replacement :=
        (if offset > blockOffset then [(blockOffset, offset - blockOffset)] else [])
          ++ (if tailOffset < blockEnd then [(tailOffset, blockEnd - tailOffset)] else [])
      some (replacement ++ rest)
    else (takeBlock offset nbytes rest).map ((blockOffset, blockSize) :: ·)

/-- `_take_largest` on one free list: offset, count and the new free list. -/
def takeLargest (maxSize : Nat) (alignment : Int) :
    List Block → Except Err (Option (Nat × Nat × List Block))
  | [] => .ok none
  | (offset, size) :: rest => do
    let aligned ← alignUp offset alignment
    let padding := aligned - offset
    let available := size - padding
    if available = 0 then
      let taken ← takeLargest maxSize alignment rest
      .ok (taken.map fun r => (r.1, r.2.1, (offset, size) :: r.2.2))
    else
      let take := min maxSize available
      let tailOffset := aligned + take
      let tailSize := size - padding - take
      let replacement :=
        (if padding ≠ 0 then [(offset, padding)] else [])
          ++ (if tailSize ≠ 0 then [(tailOffset, tailSize)] else [])
      .ok (some (aligned, take, replacement ++ rest))

/-- The order of Python tuples. -/
def blockLe (p q : Block) : Prop := p.1 < q.1 ∨ p.1 = q.1 ∧ p.2 ≤ q.2

instance : DecidableRel blockLe := fun _ _ => inferInstanceAs (Decidable (_ ∨ _))

/-- `_release` on one free list. -/
def releaseBlock (slabFree : List Block) (offset nbytes : Nat) : List Block :=
  Blocks.coalesce ((slabFree ++ [(offset, nbytes)]).insertionSort blockLe)

def release (free : List (List Block)) (e : Extent) : List (List Block) :=
  free.set e.slabIndex (releaseBlock (free.getD e.slabIndex []) e.offset e.nbytes)

theorem takeLargest_pos {maxSize : Nat} {alignment : Int} {l : List Block} {o n : Nat}
    {l' : List Block}
    (h : takeLargest maxSize alignment l = .ok (some (o, n, l'))) (hmax : 0 < maxSize) : 0 < n := by
  induction l generalizing l' with
  | nil => cases h
  | cons p rest ih =>
    obtain ⟨offset, size⟩ := p
    rw [takeLargest] at h
    cases ha : alignUp offset alignment with
    | error e => rw [ha] at h; cases h
    | ok aligned =>
      simp only [ha, bind, Except.bind] at h
      split at h
      · cases ht : takeLargest maxSize alignment rest with
        | error e => rw [ht] at h; cases h
        | ok taken =>
          rw [ht] at h
          cases taken with
          | none => cases h
          | some r =>
            obtain ⟨o', n', l''⟩ := r
            cases h
            exact ih ht
      · next havail =>
        cases h
        omega

/-- The inner loop of `_place_multi`: take blocks of one slab while anything
    remains. The result is the extents, what remains, and the free lists. -/
def fillSlab (alignment : Int) (slabIndex remaining : Nat) (free : List (List Block)) :
    Except Err (List Extent × Nat × List (List Block)) :=
  if _h : 0 < remaining then
    match _ht : takeLargest remaining alignment (free.getD slabIndex []) with
    | .error e => .error e
    | .ok none => .ok ([], remaining, free)
    | .ok (some (offset, count, slabFree)) => do
      let r ← fillSlab alignment slabIndex (remaining - count) (free.set slabIndex slabFree)
      .ok (⟨slabIndex, offset, count⟩ :: r.1, r.2)
  else .ok ([], remaining, free)
  termination_by remaining
  decreasing_by
    have := takeLargest_pos _ht _h
    omega

/-- The outer loop of `_place_multi`. -/
def fillSlabs (alignment : Int) : List Nat → Nat → List (List Block) →
    Except Err (List Extent × Nat × List (List Block))
  | [], remaining, free => .ok ([], remaining, free)
  | slabIndex :: rest, remaining, free => do
    let r ← fillSlab alignment slabIndex remaining free
    if r.2.1 = 0 then .ok r
    else
      let r' ← fillSlabs alignment rest r.2.1 r.2.2
      .ok (r.1 ++ r'.1, r'.2)

/-! ## Calls -/

section Calls

variable {σ : Type}

def Allocator.totalBytes (a : Allocator σ) : Nat := (a.slabs.map Slab.size).sum

def Allocator.freeBytes (a : Allocator σ) : Nat := (a.free.map Blocks.total).sum

def Allocator.usedBytes (a : Allocator σ) : Int := a.totalBytes - a.freeBytes

/-- `TensorAllocator.__init__`; at least one slab is required. -/
def Allocator.init (slabs : List (Slab σ)) (defaultAlignment : Int) : Except Err (Allocator σ) :=
  if slabs = [] then .error (.valueError "at least one slab is required")
  else .ok ⟨slabs, slabs.map fun slab => [(0, slab.size)], [], 1, defaultAlignment⟩

def placeSingle (nbytes : Nat) (alignment : Int) : Prog σ (Option (List Extent)) := do
  match ← liftExcept (findSlab alignment nbytes (← get).free 0) with
  | none => pure none
  | some (slabIndex, aligned) =>
    match takeBlock aligned nbytes ((← get).free.getD slabIndex []) with
    | some slabFree =>
      modify fun a => { a with free := a.free.set slabIndex slabFree }
      pure (some [⟨slabIndex, aligned, nbytes⟩])
    | none => throw (.allocator .internalError "free list lost track of a reservation")

/-- `align_up` raises for every block or for none, so nothing has been taken yet
    when it does. -/
def placeMulti (nbytes : Nat) (alignment : Int) : Prog σ (Option (List Extent)) := do
  let r ← liftExcept (fillSlabs alignment (List.range (← get).slabs.length) nbytes (← get).free)
  if r.2.1 ≠ 0 then
    modify fun a => { a with free := r.1.foldl release r.2.2 }
    pure none
  else
    modify fun a => { a with free := r.2.2 }
    pure (some r.1)

/-- `alignment or self.default_alignment`. -/
def Allocator.alignmentUsed (a : Allocator σ) (alignment : Option Int) : Int :=
  match alignment with
  | some k => if k = 0 then a.defaultAlignment else k
  | none => a.defaultAlignment

/-- The keyword arguments of `allocate` that only end up in the record. -/
structure Attrs where
  shape : List Int
  dtype : String
  usage : String
  layout : String
  deriving DecidableEq

def place (nbytes : Nat) (align : Int) : Prog σ (List Extent) :=
  if nbytes = 0 then pure []
  else do
    match ← placeSingle nbytes align with
    | some extents => pure extents
    | none =>
      match ← placeMulti nbytes align with
      | some extents => pure extents
      | none =>
        let freeBytes := (← get).freeBytes
        throw (.allocator .outOfMemory s!"cannot allocate {nbytes} bytes (free {freeBytes})")

def allocate (nbytes : Int) (attrs : Attrs) (alignment : Option Int) : Prog σ TensorRecord := do
  if nbytes < 0 then throw (.allocator .invalidRequest "nbytes must be non-negative")
  let align := (← get).alignmentUsed alignment
  let extents ← place nbytes.toNat align
  let handle := (← get).nextHandle
  let record : TensorRecord :=
    ⟨handle, nbytes.toNat, attrs.shape, attrs.dtype, attrs.usage, attrs.layout, extents⟩
  modify fun a => { a with nextHandle := handle + 1, records := a.records ++ [record] }
  pure record

def Allocator.lookup (a : Allocator σ) (handle : Int) : Option TensorRecord :=
  a.records.find? fun record => (record.handle : Int) = handle

def getRecord (handle : Int) : Prog σ TensorRecord := do
  match (← get).lookup handle with
  | some record => pure record
  | none => throw (.allocator .unknownTensor s!"unknown tensor handle {handle}")

def free (handle : Int) : Prog σ TensorRecord := do
  let record ← getRecord handle
  modify fun a => { a with
    records := a.records.filter fun r => (r.handle : Int) ≠ handle
    free := record.extents.foldl release a.free }
  pure record

def validateRange (handle offset size : Int) : Prog σ Unit := do
  let record ← getRecord handle
  if offset < 0 then throw (.allocator .invalidRequest "offset must be non-negative")
  if size < 0 then throw (.allocator .invalidRequest "size must be non-negative")
  if offset + size > record.nbytes then
    let stop := offset + size
    let nbytes := record.nbytes
    throw (.allocator .outOfBounds s!"range [{offset}, {stop}) exceeds tensor size {nbytes}")

/-- `_walk`, from the extents on: the extents that hold the range, each with the
    offset in it and the number of bytes. -/
def walkFrom : List Extent → Nat → Nat → Nat → List (Extent × Nat × Nat)
  | [], _, _, _ => []
  | extent :: rest, cursor, offset, remaining =>
    let extentEnd := cursor + extent.nbytes
    if offset ≥ extentEnd then walkFrom rest extentEnd offset remaining
    else
      let localOffset := offset - cursor
      let count := min remaining (extent.nbytes - localOffset)
      if count = 0 then walkFrom rest extentEnd offset remaining
      else
        (extent, localOffset, count) ::
          if remaining - count = 0 then []
          else walkFrom rest extentEnd (offset + count) (remaining - count)

def walk (record : TensorRecord) (offset size : Nat) : List (Extent × Nat × Nat) :=
  walkFrom record.extents 0 offset size

def getSlab (slabIndex : Nat) : Prog σ (Slab σ) := do
  match (← get).slabs[slabIndex]? with
  | some slab => pure slab
  | none => throw .indexError

def writeSlab (io : SlabIo σ) (slabIndex offset : Nat) (data : List Byte) (coherent : Bool) :
    Prog σ Unit := do
  let slab ← getSlab slabIndex
  let data := io.write slab.data offset data coherent
  modify fun a => { a with slabs := a.slabs.set slabIndex { slab with data } }

def readSlab (io : SlabIo σ) (slabIndex offset size : Nat) (coherent : Bool) :
    Prog σ (List Byte) := do
  let slab ← getSlab slabIndex
  let r := io.read slab.data offset size coherent
  modify fun a => { a with slabs := a.slabs.set slabIndex { slab with data := r.2 } }
  pure r.1

def writePieces (io : SlabIo σ) (coherent : Bool) :
    List (Extent × Nat × Nat) → List Byte → Prog σ Unit
  | [], _ => pure ()
  | (extent, localOffset, count) :: rest, view => do
    writeSlab io extent.slabIndex (extent.offset + localOffset) (view.take count) coherent
    writePieces io coherent rest (view.drop count)

def readPieces (io : SlabIo σ) (coherent : Bool) : List (Extent × Nat × Nat) → Prog σ (List Byte)
  | [] => pure []
  | (extent, localOffset, count) :: rest => do
    let part ← readSlab io extent.slabIndex (extent.offset + localOffset) count coherent
    let parts ← readPieces io coherent rest
    pure (part ++ parts)

def write (io : SlabIo σ) (handle offset : Int) (data : List Byte) (coherent : Bool) :
    Prog σ Unit := do
  validateRange handle offset data.length
  let record ← getRecord handle
  writePieces io coherent (walk record offset.toNat data.length) data

def read (io : SlabIo σ) (handle offset size : Int) (coherent : Bool) : Prog σ (List Byte) := do
  validateRange handle offset size
  let record ← getRecord handle
  readPieces io coherent (walk record offset.toNat size.toNat)

/-! ## Views for DMA -/

def Allocator.getRecord (a : Allocator σ) (handle : Int) : Except Err TensorRecord :=
  match a.lookup handle with
  | some record => .ok record
  | none => .error (.allocator .unknownTensor s!"unknown tensor handle {handle}")

/-- The loop of `slab_view`: the slab and the offset in it. -/
def viewFrom : List Extent → Nat → Nat → Nat → Except Err (Nat × Nat)
  | [], _, _, _ => .error (.allocator .internalError "no extent contains the requested offset")
  | extent :: rest, cursor, offset, nbytes =>
    let extentEnd := cursor + extent.nbytes
    if offset ≥ extentEnd then viewFrom rest extentEnd offset nbytes
    else
      let localOffset := offset - cursor
      if localOffset + nbytes > extent.nbytes then
        let boundary := extentEnd - offset
        .error (.allocator .multiExtent s!"range crosses extent boundary at byte {boundary}")
      else .ok (extent.slabIndex, extent.offset + localOffset)

/-- `slab_view`, with the index of the slab for the slab. -/
def Allocator.slabView (a : Allocator σ) (handle offset nbytes : Int) : Except Err (Nat × Nat) := do
  let record ← a.getRecord handle
  if offset < 0 ∨ nbytes < 0 then
    .error (.allocator .invalidRequest "offset and nbytes must be non-negative")
  else if offset + nbytes > record.nbytes then
    let stop := offset + nbytes
    let size := record.nbytes
    .error (.allocator .outOfBounds s!"range [{offset}, {stop}) exceeds tensor size {size}")
  else
    let view ← viewFrom record.extents 0 offset.toNat nbytes.toNat
    if view.1 < a.slabs.length then .ok view else .error .indexError

/-- `slab_pointer`; `baseVa` has the user-space address of each slab that has one. -/
def Allocator.slabPointer (a : Allocator σ) (baseVa : Nat → Option Nat)
    (handle offset nbytes : Int) :
    Except Err Nat := do
  let view ← a.slabView handle offset nbytes
  match baseVa view.1 with
  | some base => .ok (base + view.2)
  | none => .error (.allocator .invalidRequest "slab_pointer requires a pynq-backed slab")

/-- The loop of `physical`: the slab and the offset in it of a byte, unless it is past the last
    one. -/
def physicalFrom : List Extent → Nat → Nat → Option (Nat × Nat)
  | [], _, _ => none
  | extent :: rest, position, offset =>
    let stop := position + extent.nbytes
    if offset < stop then some (extent.slabIndex, extent.offset + (offset - position))
    else physicalFrom rest stop offset

/-- `physical`; `physicalAddress` has the address of each slab. -/
def Allocator.physical (a : Allocator σ) (physicalAddress : Nat → Nat) (handle offset : Int) :
    Except Err Nat := do
  let record ← a.getRecord handle
  if offset < 0 ∨ offset > record.nbytes then
    .error (.allocator .outOfBounds s!"offset {offset} outside tensor {handle}")
  else
    match physicalFrom record.extents 0 offset.toNat with
    | some (slabIndex, absOff) =>
      if slabIndex < a.slabs.length then .ok (physicalAddress slabIndex + absOff)
      else .error .indexError
    | none => .ok 0

/-! ## Sequences of calls -/

inductive Call where
  | allocate (nbytes : Int) (attrs : Attrs) (alignment : Option Int)
  | free (handle : Int)
  | write (handle offset : Int) (data : List Byte) (coherent : Bool)
  | read (handle offset size : Int) (coherent : Bool)

/-- What a call returns. -/
inductive Value where
  | record (r : TensorRecord)
  | none
  | bytes (data : List Byte)
  deriving DecidableEq

def exec (io : SlabIo σ) : Call → Prog σ Value
  | .allocate nbytes attrs alignment => .record <$> allocate nbytes attrs alignment
  | .free handle => .record <$> free handle
  | .write handle offset data coherent => (fun _ => .none) <$> write io handle offset data coherent
  | .read handle offset size coherent => .bytes <$> read io handle offset size coherent

/-- The outcome of a call and the allocator after it, whether or not it raises. -/
def call (io : SlabIo σ) (a : Allocator σ) (c : Call) : Except Err Value × Allocator σ :=
  match (exec io c).run a with
  | .ok v a' => (.ok v, a')
  | .error e a' => (.error e, a')

/-- The outcomes of a sequence of calls and the allocator after them. -/
def calls (io : SlabIo σ) (a : Allocator σ) : List Call → List (Except Err Value) × Allocator σ
  | [] => ([], a)
  | c :: cs =>
    let r := call io a c
    let rs := calls io r.2 cs
    (r.1 :: rs.1, rs.2)

end Calls

end Board
