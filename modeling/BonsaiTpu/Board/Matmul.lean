-- SUMMARY: The PL matmul driver: shape checks, buffers, the chunk loop and its asynchronous variant (`kernels/pl/matmul_q1a8.py`).
import BonsaiTpu.Board.Graph
import BonsaiTpu.Layout.Format

/-!
# The PL matmul driver

`PLMatmulQ1A8.run` streams a weight matrix through the kernel, column by column, in
chunks of rowblocks that stay inside one extent of the weights tensor. A run is
traced by the calls it makes to the native library, the kernel and the allocator;
what these return is given by a `Driver`. Reads and writes of tensors raise by the
records of the allocator alone, so the allocator is fixed during a run.
-/

namespace Board.Matmul

open Layout (Q1_BLOCK ROWS_PER_BLOCK)

/-- The fields of a `MATMUL_Q1A8` op that the driver reads. -/
structure Op where
  rows : Option Scalar
  cols : Option Scalar
  k : Option Scalar
  weights : Option Scalar
  weightsOffset : Option Scalar
  acts : Option Scalar
  actsOffset : Option Scalar
  dst : Option Scalar
  dstOffset : Option Scalar

/-- `_required`. -/
def required (value : Option Scalar) (key : String) : Except Err Nat := do
  let parsed ← requiredInt value key
  .ok parsed.toNat

/-- `_optional_int` with default 0. -/
def optionalInt (value : Option Scalar) (key : String) : Except Err Nat :=
  match value with
  | none => .ok 0
  | some value => do
    let parsed ← nonNegativeInt value key
    .ok parsed.toNat

def F32_BYTES : Nat := 4

/-- The arguments of `bonsai_q1a8_start_matmul_chunk`, as the Python integers. -/
structure Chunk where
  weightsPhysAddr : Nat
  weightsNbytes : Nat
  actsPhysAddr : Nat
  actsNbytes : Nat
  resultPhysAddr : Nat
  resultNbytes : Nat
  numQ1Blocks : Nat
  numRowblocks : Nat
  deriving DecidableEq

/-- The calls of a run. -/
inductive Act where
  | copyActs (handle offset nbytes : Nat)
  | quantize (address k : Nat)
  | packActs (k : Nat)
  | copyWeights (handle offset nbytes : Nat)
  | start (chunk : Chunk)
  | wait
  | invalidateResult (nbytes : Nat)
  | writeResult (handle offset nbytes : Nat)
  | invalidateRange (slabIndex offset nbytes : Nat)
  deriving DecidableEq

abbrev Drive := Traced Act Err

/-- A CMA buffer: size, physical address and user-space address. -/
structure Buffer where
  size : Nat
  physicalAddress : Nat
  data : Nat

/-- The buffers the driver keeps between runs. -/
structure Buffers where
  acts : Option Buffer
  weightsDma : Option Buffer
  result : Option Buffer
  actsIn : Option Buffer

/-- What the surroundings of the driver do. The return codes of the native calls may
    differ from call to call: quantizing and packing are called once per column, start
    and wait once per column and first rowblock of a chunk. -/
structure Driver where
  ensureNative : Except Err Unit
  checkKernelId : Except Err Unit
  regRows : Int
  allocate : Nat → Except Err Buffer
  pynqBuffer : Nat → Option Nat
  baseVa : Nat → Option Nat
  quantizeRc : Nat → Int
  packActsRc : Nat → Int
  startRc : Nat → Nat → Int
  waitRc : Nat → Nat → Int

section

variable {σ : Type} (d : Driver) (a : Allocator σ)

def runtimeError (message : String) : Err := .other message

/-- A nonzero return code of a native call raises. -/
def checkRc (name : String) (rc : Int) : Except Err Unit :=
  if rc = 0 then .ok () else .error (runtimeError s!"{name} rc={rc}")

/-- `_read_rows_per_block`; from here on the rows per block are `ROWS_PER_BLOCK`. -/
def readRowsPerBlock : Except Err Unit :=
  if d.regRows = ROWS_PER_BLOCK then .ok ()
  else
    let got := d.regRows
    .error (runtimeError s!"q1a8 rowblock lanes mismatch: got {got}")

/-- A buffer of at least `nbytes`: the old one, or a new one. -/
def ensureBuffer (buffer : Option Buffer) (nbytes : Nat) : Except Err Buffer :=
  match buffer with
  | none => d.allocate nbytes
  | some buffer => if buffer.size < nbytes then d.allocate nbytes else .ok buffer

/-- Whether a tensor has the range `[offset, offset + nbytes)`, as `read` and `write` check it. -/
def inBounds (handle offset nbytes : Nat) : Except Err Unit := do
  let record ← a.getRecord handle
  if offset + nbytes > record.nbytes then
    let stop := offset + nbytes
    let size := record.nbytes
    .error (.allocator .outOfBounds s!"range [{offset}, {stop}) exceeds tensor size {size}")
  else .ok ()

/-- `_resolve_slab_pointer` for the activations: the slab, or a copy when the range
    spans extents. -/
def resolveActs (scratch : Option Buffer) (handle offset nbytes : Nat) :
    Drive (Nat × Option Buffer) :=
  match a.slabPointer d.baseVa handle offset nbytes with
  | .ok address => pure (address, scratch)
  | .error e =>
    match e with
    | .allocator .multiExtent _ => do
      let buffer ← Traced.lift (ensureBuffer d scratch nbytes)
      Traced.lift (inBounds a handle offset nbytes)
      Traced.emit (.copyActs handle offset nbytes)
      pure (buffer.data, some buffer)
    | e => Traced.raise e

/-- The physical address of an offset in a slab; only PYNQ slabs have one. -/
def slabPhysical (slabIndex offset : Nat) : Except Err Nat :=
  match d.pynqBuffer slabIndex with
  | some physicalAddress => .ok (physicalAddress + offset)
  | none => .error (.other "slab has no attribute 'pynq_buffer'")

/-- `_resolve_weights_phys`. -/
def resolveWeightsPhys (scratch : Buffer) (handle offset nbytes : Nat) : Drive Nat :=
  match a.slabView handle offset nbytes with
  | .ok (slabIndex, absOff) => Traced.lift (slabPhysical d slabIndex absOff)
  | .error e =>
    match e with
    | .allocator .multiExtent _ =>
      if nbytes > scratch.size then
        let size := scratch.size
        Traced.raise
          (runtimeError s!"weights multi-extent chunk ({nbytes} B) exceeds scratch ({size} B)")
      else do
        Traced.lift (inBounds a handle offset nbytes)
        Traced.emit (.copyWeights handle offset nbytes)
        pure scratch.physicalAddress
    | e => Traced.raise e

/-- `_extent_remaining`, from an extent on. -/
def extentRemainingFrom : List Extent → Nat → Nat → Nat
  | [], _, _ => 0
  | extent :: rest, cursor, tensorOffset =>
    if tensorOffset < cursor + extent.nbytes then cursor + extent.nbytes - tensorOffset
    else extentRemainingFrom rest (cursor + extent.nbytes) tensorOffset

def extentRemaining (handle tensorOffset : Nat) : Except Err Nat := do
  let record ← a.getRecord handle
  .ok (extentRemainingFrom record.extents 0 tensorOffset)

/-! ## Chunks -/

def MAX_WEIGHTS_NBYTES : Nat := 8 * 1024 * 1024

def maxRowblocksPerChunk (rows packedBytesPerRb : Nat) : Nat :=
  min (Layout.rowblocksFor rows) (max 1 (MAX_WEIGHTS_NBYTES / packedBytesPerRb))

/-- Where the chunk loop stands: the first row and rowblock of the next chunk. -/
structure Cursor (rows : Nat) where
  row : Nat
  rowblock : Nat
  row_eq : row = min rows (rowblock * ROWS_PER_BLOCK)

def Cursor.zero (rows : Nat) : Cursor rows := ⟨0, 0, by simp⟩

/-- `chunk_rows`. -/
def Cursor.chunkRows {rows : Nat} (cur : Cursor rows) (chunkRowblocks : Nat) : Nat :=
  min (chunkRowblocks * ROWS_PER_BLOCK) (rows - cur.row)

def Cursor.advance {rows : Nat} (cur : Cursor rows) (chunkRowblocks : Nat) : Cursor rows where
  row := cur.row + cur.chunkRows chunkRowblocks
  rowblock := cur.rowblock + chunkRowblocks
  row_eq := by
    have := cur.row_eq
    simp only [chunkRows, ROWS_PER_BLOCK] at *
    omega

/-- The rowblocks of the next chunk: up to the end of the extent, or a single rowblock
    that straddles it. -/
def Cursor.chunkRowblocks {rows : Nat} (cur : Cursor rows)
    (packedBytesPerRb extRemaining : Nat) : Nat :=
  let remainingRowblocks := Layout.rowblocksFor rows - cur.rowblock
  let rowblocksToBoundary := extRemaining / packedBytesPerRb
  let chunkRowblocks := min (maxRowblocksPerChunk rows packedBytesPerRb) remainingRowblocks
  if rowblocksToBoundary ≥ 1 then min chunkRowblocks rowblocksToBoundary else 1

theorem Cursor.chunkRowblocks_pos {rows : Nat} (cur : Cursor rows) (h : cur.row < rows)
    (packedBytesPerRb extRemaining : Nat) :
    1 ≤ cur.chunkRowblocks packedBytesPerRb extRemaining := by
  have hrow := cur.row_eq
  have hmax : 1 ≤ maxRowblocksPerChunk rows packedBytesPerRb := by
    simp only [maxRowblocksPerChunk, Layout.rowblocksFor, ROWS_PER_BLOCK] at *
    omega
  simp only [chunkRowblocks]
  split
  · simp only [Layout.rowblocksFor, ROWS_PER_BLOCK] at *
    omega
  · exact Nat.le_refl 1

theorem Cursor.row_lt_advance {rows : Nat} (cur : Cursor rows) (h : cur.row < rows)
    {n : Nat} (hn : 1 ≤ n) :
    cur.row < (cur.advance n).row := by
  simp only [advance, chunkRows, ROWS_PER_BLOCK]
  omega

/-- What a run has fixed before its loops. -/
structure Setup where
  rows : Nat
  cols : Nat
  k : Nat
  packedBytesPerRb : Nat
  actsStreamNbytes : Nat
  weightsHandle : Nat
  weightsBaseOffset : Nat
  actsAddr : Nat
  dstHandle : Nat
  dstBaseOffset : Nat
  acts : Buffer
  weightsDma : Buffer
  result : Buffer

/-- A range of a slab the kernel wrote, by slab. -/
structure Dirty where
  slabIndex : Nat
  lo : Nat
  hi : Nat
  deriving DecidableEq

/-- The update of `dst_dirty`. -/
def addDirty (slabIndex lo hi : Nat) : List Dirty → List Dirty
  | [] => [⟨slabIndex, lo, hi⟩]
  | entry :: rest =>
    if entry.slabIndex = slabIndex then ⟨slabIndex, min entry.lo lo, max entry.hi hi⟩ :: rest
    else entry :: addDirty slabIndex lo hi rest

/-- The dst slab of a chunk whose result is streamed straight into it: slab, offset and
    physical address. -/
def dstView (handle offset nbytes : Nat) : Except Err (Option (Nat × Nat × Nat)) :=
  match a.slabView handle offset nbytes with
  | .ok (slabIndex, absOff) => do
    let physical ← slabPhysical d slabIndex absOff
    .ok (some (slabIndex, absOff, physical))
  | .error e =>
    match e with
    | .allocator .multiExtent _ => .ok none
    | e => .error e

/-- The fast path needs the padded result of a chunk to be its result. -/
def resultView (handle offset paddedNbytes actualNbytes : Nat) :
    Except Err (Option (Nat × Nat × Nat)) :=
  if paddedNbytes = actualNbytes then dstView d a handle offset paddedNbytes else .ok none

/-- `_run_matmul_dual_stream` up to the start of the kernel. -/
def startChunk (s : Setup)
    (col rowblock weightsOffset resultPhys resultNbytes chunkRowblocks : Nat) : Drive Unit := do
  let weightsNbytes := chunkRowblocks * s.packedBytesPerRb
  let weightsPhys ← resolveWeightsPhys d a s.weightsDma s.weightsHandle weightsOffset weightsNbytes
  Traced.emit (.start
    { weightsPhysAddr := weightsPhys
      weightsNbytes := weightsNbytes
      actsPhysAddr := s.acts.physicalAddress
      actsNbytes := s.actsStreamNbytes
      resultPhysAddr := resultPhys
      resultNbytes := resultNbytes
      numQ1Blocks := s.k / Q1_BLOCK
      numRowblocks := chunkRowblocks })
  Traced.lift (checkRc "bonsai_q1a8_start_matmul_chunk" (d.startRc col rowblock))

def waitChunk (col rowblock : Nat) : Drive Unit := do
  Traced.emit .wait
  Traced.lift (checkRc "bonsai_q1a8_wait_matmul_chunk" (d.waitRc col rowblock))

/-- The body of the chunk loop, behind the choice of `chunkRowblocks`. -/
def runChunk (s : Setup) (col : Nat) (cur : Cursor s.rows) (chunkRowblocks : Nat)
    (dirty : List Dirty) :
    Drive (List Dirty) := do
  let chunkWeightOffset := s.weightsBaseOffset + cur.rowblock * s.packedBytesPerRb
  let paddedResultNbytes := chunkRowblocks * ROWS_PER_BLOCK * F32_BYTES
  let actualResultNbytes := cur.chunkRows chunkRowblocks * F32_BYTES
  let dstChunkOffset := s.dstBaseOffset + (col * s.rows + cur.row) * F32_BYTES
  let view ← Traced.lift
    (resultView d a s.dstHandle dstChunkOffset paddedResultNbytes actualResultNbytes)
  match view with
  | some (slabIndex, dstAbs, physical) =>
    startChunk d a s col cur.rowblock chunkWeightOffset physical paddedResultNbytes chunkRowblocks
    waitChunk d col cur.rowblock
    pure (addDirty slabIndex dstAbs (dstAbs + actualResultNbytes) dirty)
  | none =>
    startChunk d a s col cur.rowblock chunkWeightOffset s.result.physicalAddress
      paddedResultNbytes chunkRowblocks
    waitChunk d col cur.rowblock
    Traced.emit (.invalidateResult paddedResultNbytes)
    Traced.lift (inBounds a s.dstHandle dstChunkOffset actualResultNbytes)
    Traced.emit (.writeResult s.dstHandle dstChunkOffset actualResultNbytes)
    pure dirty

/-- The `while` loop of a column. -/
def chunkLoop (s : Setup) (col : Nat) (cur : Cursor s.rows) (dirty : List Dirty) :
    Drive (List Dirty) :=
  if _h : cur.row < s.rows then do
    let chunkWeightOffset := s.weightsBaseOffset + cur.rowblock * s.packedBytesPerRb
    let extRemaining ← Traced.lift (extentRemaining a s.weightsHandle chunkWeightOffset)
    let chunkRowblocks := cur.chunkRowblocks s.packedBytesPerRb extRemaining
    let dirty ← runChunk d a s col cur chunkRowblocks dirty
    chunkLoop s col (cur.advance chunkRowblocks) dirty
  else pure dirty
  termination_by s.rows - cur.row
  decreasing_by
    have := cur.row_lt_advance _h (cur.chunkRowblocks_pos _h s.packedBytesPerRb extRemaining)
    omega

/-- Quantize and pack the activations of a column. -/
def prepareColumn (s : Setup) (col : Nat) : Drive Unit := do
  Traced.emit (.quantize (s.actsAddr + col * s.k * F32_BYTES) s.k)
  Traced.lift (checkRc "bonsai_quantize_q8_0_pl" (d.quantizeRc col))
  Traced.emit (.packActs s.k)
  Traced.lift (checkRc "bonsai_q1a8_pack_acts" (d.packActsRc col))

/-- The columns from `col` on. -/
def columnLoop (s : Setup) : Nat → Nat → List Dirty → Drive (List Dirty)
  | 0, _, dirty => pure dirty
  | count + 1, col, dirty => do
    prepareColumn d s col
    let dirty ← chunkLoop d a s col (Cursor.zero s.rows) dirty
    columnLoop s count (col + 1) dirty

def invalidateDirty : List Dirty → Drive Unit
  | [] => pure ()
  | entry :: rest => do
    Traced.emit (.invalidateRange entry.slabIndex entry.lo (entry.hi - entry.lo))
    invalidateDirty rest

/-! ## The driver -/

def liftLayout (x : Except String Nat) : Except Err Nat := x.mapError .valueError

theorem liftLayout_ok {x : Except String Nat} {n m : Nat} (hx : x = .ok n)
    (h : liftLayout x = .ok m) : m = n := by
  subst hx
  cases h
  rfl

def checkShape (op : Op) : Except Err (Nat × Nat × Nat) := do
  let rows ← required op.rows "rows"
  let cols ← required op.cols "cols"
  let k ← required op.k "k"
  if rows = 0 ∨ cols = 0 then .error (.allocator .invalidRequest "rows and cols must be positive")
  else if k = 0 ∨ k % Q1_BLOCK ≠ 0 then
    .error (.allocator .invalidRequest s!"MATMUL_Q1A8 k must be a positive multiple of {Q1_BLOCK}")
  else .ok (rows, cols, k)

/-- The buffers of a run and the setup with them, for a chunk cap of `rowblocks`. -/
def ensureBuffers (b : Buffers) (actsIn : Option Buffer)
    (actsNbytes weightsDmaNbytes resultNbytes : Nat) :
    Except Err (Buffers × Buffer × Buffer × Buffer) := do
  let acts ← ensureBuffer d b.acts actsNbytes
  let weightsDma ← ensureBuffer d b.weightsDma weightsDmaNbytes
  let result ← ensureBuffer d b.result resultNbytes
  .ok (⟨some acts, some weightsDma, some result, actsIn⟩, acts, weightsDma, result)

/-- `PLMatmulQ1A8.run`; the result is the buffers after it. -/
def run (b : Buffers) (op : Op) : Drive Buffers := do
  let (rows, cols, k) ← Traced.lift (checkShape op)
  Traced.lift d.ensureNative
  let packedBytesPerRb ← Traced.lift (liftLayout (Layout.packedBytesPerRowblock k))
  let actsStreamNbytes ← Traced.lift (liftLayout (Layout.actsStreamNbytes k))
  let weightsHandle ← Traced.lift (required op.weights "weights")
  let weightsBaseOffset ← Traced.lift (optionalInt op.weightsOffset "weights_offset")
  let actsHandle ← Traced.lift (required op.acts "acts")
  let actsOffset ← Traced.lift (optionalInt op.actsOffset "acts_offset")
  let (actsAddr, actsIn) ← resolveActs d a b.actsIn actsHandle actsOffset (cols * k * F32_BYTES)
  Traced.lift d.checkKernelId
  Traced.lift (readRowsPerBlock d)
  let cap := maxRowblocksPerChunk rows packedBytesPerRb
  let (buffers, acts, weightsDma, result) ← Traced.lift (ensureBuffers d b actsIn actsStreamNbytes
    (cap * packedBytesPerRb) (cap * ROWS_PER_BLOCK * F32_BYTES))
  let dstHandle ← Traced.lift (required op.dst "dst")
  let dstBaseOffset ← Traced.lift (optionalInt op.dstOffset "dst_offset")
  let s : Setup := ⟨rows, cols, k, packedBytesPerRb, actsStreamNbytes, weightsHandle,
    weightsBaseOffset, actsAddr, dstHandle, dstBaseOffset, acts, weightsDma, result⟩
  let dirty ← columnLoop d a s cols 0 []
  invalidateDirty dirty
  pure buffers

/-- The tail of `run_async`: the whole column is one chunk that lands in one dst slab. -/
def runPipelined (b : Buffers) (op : Op)
    (rows k packedBytesPerRb weightsHandle weightsBaseOffset dstHandle
    dstBaseOffset resultPhys : Nat) : Drive (Buffers × Option Pending) := do
  let actsStreamNbytes ← Traced.lift (liftLayout (Layout.actsStreamNbytes k))
  let actsHandle ← Traced.lift (required op.acts "acts")
  let actsOffset ← Traced.lift (optionalInt op.actsOffset "acts_offset")
  let (actsAddr, actsIn) ← resolveActs d a b.actsIn actsHandle actsOffset (k * F32_BYTES)
  let rowblocks := Layout.rowblocksFor rows
  let (buffers, acts, weightsDma, result) ← Traced.lift (ensureBuffers d b actsIn actsStreamNbytes
    (rowblocks * packedBytesPerRb) (rowblocks * ROWS_PER_BLOCK * F32_BYTES))
  let s : Setup := ⟨rows, 1, k, packedBytesPerRb, actsStreamNbytes, weightsHandle,
    weightsBaseOffset, actsAddr, dstHandle, dstBaseOffset, acts, weightsDma, result⟩
  prepareColumn d s 0
  let dstNbytes := rows * F32_BYTES
  startChunk d a s 0 0 weightsBaseOffset resultPhys dstNbytes rowblocks
  pure (buffers, some ⟨dstHandle, dstBaseOffset, dstBaseOffset + dstNbytes⟩)

/-- `run` where `run_async` falls back to it. -/
def runSync (b : Buffers) (op : Op) : Drive (Buffers × Option Pending) := do
  let buffers ← run d a b op
  pure (buffers, none)

/-- `PLMatmulQ1A8.run_async`. -/
def runAsync (b : Buffers) (op : Op) : Drive (Buffers × Option Pending) := do
  let rows ← Traced.lift (required op.rows "rows")
  let cols ← Traced.lift (required op.cols "cols")
  let k ← Traced.lift (required op.k "k")
  if cols ≠ 1 ∨ rows = 0 ∨ k = 0 ∨ k % Q1_BLOCK ≠ 0 then runSync d a b op
  else
    Traced.lift d.ensureNative
    Traced.lift d.checkKernelId
    Traced.lift (readRowsPerBlock d)
    let packedBytesPerRb ← Traced.lift (liftLayout (Layout.packedBytesPerRowblock k))
    let rowblocksPerCol := Layout.rowblocksFor rows
    let weightsHandle ← Traced.lift (required op.weights "weights")
    let weightsBaseOffset ← Traced.lift (optionalInt op.weightsOffset "weights_offset")
    let dstHandle ← Traced.lift (required op.dst "dst")
    let dstBaseOffset ← Traced.lift (optionalInt op.dstOffset "dst_offset")
    let extRemaining ← Traced.lift (extentRemaining a weightsHandle weightsBaseOffset)
    if maxRowblocksPerChunk rows packedBytesPerRb ≥ rowblocksPerCol ∧
        extRemaining / packedBytesPerRb ≥ rowblocksPerCol ∧ rows % ROWS_PER_BLOCK = 0 then
      match a.slabView dstHandle dstBaseOffset (rows * F32_BYTES : Nat) with
      | .error (.allocator .multiExtent _) => runSync d a b op
      | .error e => Traced.raise e
      | .ok (slabIndex, dstAbs) =>
        match d.pynqBuffer slabIndex with
        | none => runSync d a b op
        | some physicalAddress =>
          runPipelined d a b op rows k packedBytesPerRb weightsHandle weightsBaseOffset
            dstHandle dstBaseOffset
            (physicalAddress + dstAbs)
    else runSync d a b op

end

end Board.Matmul
