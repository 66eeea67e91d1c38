-- SUMMARY: `run_async` and `complete` do what `run` does, or `run_async` is `run`.
import BonsaiTpu.Board.Chunks
import BonsaiTpu.Board.Runner

/-!
# Asynchronous matmuls

`run_async` decides on its own whether a matmul is one pass that lands in one extent of
dst. Where it is, the start and the deferred completion are the pass of `run`; everywhere
else `run_async` is `run`.
-/

namespace Board.Matmul

open Layout (Q1_BLOCK ROWS_PER_BLOCK)

/-- What `complete` reads of a `_PendingMatmul`. -/
structure PendingMatmul where
  dstSlab : Nat
  dstAbs : Nat
  dstNbytes : Nat

section

variable {σ : Type} (d : Driver) (a : Allocator σ)

/-- The `_PendingMatmul` of a pending op; `run_async` has the slab and the offset from the
    view of the dst range. -/
def pendingMatmul (p : Pending) : Except Err PendingMatmul := do
  let view ← a.slabView p.dstHandle p.dstLo (p.dstHi - p.dstLo)
  .ok ⟨view.1, view.2, (p.dstHi - p.dstLo).toNat⟩

/-- `PLMatmulQ1A8.complete`. -/
def complete (pending : PendingMatmul) : Drive Unit := do
  waitChunk d 0 0
  Traced.emit (.invalidateRange pending.dstSlab pending.dstAbs pending.dstNbytes)

end

/-- The chunks that are started. -/
def starts (events : List Act) : List Chunk :=
  events.filterMap fun act => match act with
    | .start c => some c
    | _ => none

/-- The words that `ctypes` passes for a chunk. -/
def Chunk.words (c : Chunk) : Runner.Words where
  weightsPhysAddr := cUint32 c.weightsPhysAddr
  weightsNbytes := cUint32 c.weightsNbytes
  actsPhysAddr := cUint32 c.actsPhysAddr
  actsNbytes := cUint32 c.actsNbytes
  resultPhysAddr := cUint32 c.resultPhysAddr
  resultNbytes := cUint32 c.resultNbytes
  numQ1Blocks := cUint32 c.numQ1Blocks
  numRowblocks := cUint32 c.numRowblocks

/-! ## One pass -/

/-- When a matmul is one pass: `single_chunk` and whole rowblocks. -/
def SinglePass (rows packedBytesPerRb extRemaining : Nat) : Prop :=
  maxRowblocksPerChunk rows packedBytesPerRb ≥ Layout.rowblocksFor rows ∧
    extRemaining / packedBytesPerRb ≥ Layout.rowblocksFor rows ∧ rows % ROWS_PER_BLOCK = 0

instance (rows packedBytesPerRb extRemaining : Nat) :
    Decidable (SinglePass rows packedBytesPerRb extRemaining) :=
  inferInstanceAs (Decidable (_ ∧ _ ∧ _))

section

variable {σ : Type} {d : Driver} {a : Allocator σ}

/-- The first pass of such a column is the whole of it. -/
theorem SinglePass.chunkRowblocks {rows packed remaining : Nat}
    (h : SinglePass rows packed remaining) (hrows : 1 ≤ rows) :
    (Cursor.zero rows).chunkRowblocks packed remaining = Layout.rowblocksFor rows ∧
      Layout.rowblocksFor rows * ROWS_PER_BLOCK = rows := by
  obtain ⟨hmax, hbound, hmod⟩ := h
  have hpos : 1 ≤ Layout.rowblocksFor rows ∧ Layout.rowblocksFor rows * ROWS_PER_BLOCK = rows := by
    simp only [Layout.rowblocksFor, ROWS_PER_BLOCK] at *
    omega
  refine ⟨?_, hpos.2⟩
  simp only [Cursor.chunkRowblocks, Cursor.zero]
  rw [if_pos (by omega)]
  omega

/-- The body of `run` for a matmul of one pass. -/
theorem columnLoop_singlePass {s : Setup} {remaining i o physical : Nat} (hrows : 1 ≤ s.rows)
    (hremaining : extentRemaining a s.weightsHandle s.weightsBaseOffset = .ok remaining)
    (hsingle : SinglePass s.rows s.packedBytesPerRb remaining)
    (hview : a.slabView s.dstHandle s.dstBaseOffset (s.rows * F32_BYTES : Nat) = .ok (i, o))
    (hphysical : d.pynqBuffer i = some physical) :
    columnLoop d a s 1 0 [] = (do
      prepareColumn d s 0
      startChunk d a s 0 0 s.weightsBaseOffset (physical + o) (s.rows * F32_BYTES)
        (Layout.rowblocksFor s.rows)
      waitChunk d 0 0
      pure [⟨i, o, o + s.rows * F32_BYTES⟩]) := by
  obtain ⟨hcount, hfull⟩ := hsingle.chunkRowblocks hrows
  have hrow : (Cursor.zero s.rows).row < s.rows := hrows
  have hchunkRows : (Cursor.zero s.rows).chunkRows (Layout.rowblocksFor s.rows) = s.rows := by
    simp only [Cursor.chunkRows, Cursor.zero, hfull]
    omega
  have hdone : ¬((Cursor.zero s.rows).advance (Layout.rowblocksFor s.rows)).row < s.rows := by
    simp only [Cursor.advance, hchunkRows]
    omega
  have hbody : runChunk d a s 0 (Cursor.zero s.rows) (Layout.rowblocksFor s.rows) [] = (do
      startChunk d a s 0 0 s.weightsBaseOffset (physical + o) (s.rows * F32_BYTES)
        (Layout.rowblocksFor s.rows)
      waitChunk d 0 0
      pure [⟨i, o, o + s.rows * F32_BYTES⟩]) := by
    have hoff : s.dstBaseOffset + (0 * s.rows + (Cursor.zero s.rows).row) * F32_BYTES =
        s.dstBaseOffset := by
      simp [Cursor.zero]
    have hweights : s.weightsBaseOffset + (Cursor.zero s.rows).rowblock * s.packedBytesPerRb =
        s.weightsBaseOffset := by
      simp [Cursor.zero]
    unfold runChunk
    simp only
    rw [hoff, hweights, hchunkRows, hfull, resultView, if_pos rfl, dstView, hview]
    simp only [slabPhysical, hphysical]
    rfl
  have hweights : s.weightsBaseOffset + (Cursor.zero s.rows).rowblock * s.packedBytesPerRb =
      s.weightsBaseOffset := by
    simp [Cursor.zero]
  rw [columnLoop, chunkLoop, dif_pos hrow]
  simp only
  rw [hweights, hremaining, Traced.lift_ok_bind, hcount, hbody]
  simp only [Traced.bind_assoc, Traced.pure_bind]
  rw [chunkLoop, dif_neg hdone]
  rfl

/-- The start of that pass streams the weights out of their extent. -/
theorem startChunk_singlePass {s : Setup} {r : TensorRecord} (ha : a.Inv) (hr : r ∈ a.records)
    (hweights : s.weightsHandle = r.handle) (hpacked : 0 < s.packedBytesPerRb) (hrows : 1 ≤ s.rows)
    (hin : s.weightsBaseOffset + Layout.rowblocksFor s.rows * s.packedBytesPerRb ≤ r.nbytes)
    (hpynq : ∀ i < a.slabs.length, ∃ physical, d.pynqBuffer i = some physical)
    (hsingle : SinglePass s.rows s.packedBytesPerRb
      (extentRemainingFrom r.extents 0 s.weightsBaseOffset))
    (resultPhys resultNbytes : Nat) :
    ∃ c : Chunk, c.numRowblocks = Layout.rowblocksFor s.rows ∧ c.resultPhysAddr = resultPhys ∧
      c.resultNbytes = resultNbytes ∧
      startChunk d a s 0 0 s.weightsBaseOffset resultPhys resultNbytes
        (Layout.rowblocksFor s.rows) = (do
        Traced.emit (.start c)
        Traced.lift (checkRc "bonsai_q1a8_start_matmul_chunk" (d.startRc 0 0))) := by
  have hpos : 0 < Layout.rowblocksFor s.rows * s.packedBytesPerRb := by
    refine Nat.mul_pos ?_ hpacked
    simp only [Layout.rowblocksFor, ROWS_PER_BLOCK]
    omega
  have hfit : Layout.rowblocksFor s.rows * s.packedBytesPerRb ≤
      extentRemainingFrom r.extents 0 s.weightsBaseOffset :=
    (Nat.mul_le_mul_right _ hsingle.2.1).trans (Nat.div_mul_le_self _ _)
  obtain ⟨view, hview⟩ := (viewFrom_iff_remaining (Nat.zero_le _) hpos).mpr hfit
  rcases ha.slabView_cases hr hpos hin with ⟨i, o, hslab, -, hlt, -⟩ | ⟨message, -, hnone⟩
  · obtain ⟨physical, hphysical⟩ := hpynq i hlt
    refine ⟨⟨physical + o, Layout.rowblocksFor s.rows * s.packedBytesPerRb, s.acts.physicalAddress,
      s.actsStreamNbytes, resultPhys, resultNbytes, s.k / Q1_BLOCK, Layout.rowblocksFor s.rows⟩,
      rfl, rfl, rfl, ?_⟩
    unfold startChunk
    simp only
    rw [resolveWeightsPhys, hweights, hslab]
    simp only [slabPhysical, hphysical]
    rfl
  · rw [hview] at hnone
    cases hnone

theorem invalidateDirty_single (i o n : Nat) :
    invalidateDirty [⟨i, o, o + n⟩] = Traced.emit (.invalidateRange i o n) := by
  rw [invalidateDirty_eq]
  simp only [List.map_cons, List.map_nil, Nat.add_sub_cancel_left]
  rfl

/-! ## The two ways to run an op -/

namespace Job

variable {op : Op} (j : Job a op)

/-- `run_async` on an op of one column, when the bitstream is the right one. -/
theorem runAsync_head (ha : a.Inv) (hid : d.checkKernelId = .ok ())
    (hregs : d.regRows = ROWS_PER_BLOCK) (hcols : j.cols = 1)
    (b : Buffers) :
    runAsync d a b op = (do
      Traced.lift d.ensureNative
      if SinglePass j.rows (j.k / Q1_BLOCK * Layout.PACKED_PER_Q1_BLOCK)
          (extentRemainingFrom j.weights.extents 0 j.weightsOffset) then
        match a.slabView j.dst.handle j.dstOffset (j.rows * F32_BYTES : Nat) with
        | .error (.allocator .multiExtent _) => runSync d a b op
        | .error e => Traced.raise e
        | .ok (slabIndex, dstAbs) =>
          match d.pynqBuffer slabIndex with
          | none => runSync d a b op
          | some physicalAddress =>
            runPipelined d a b op j.rows j.k (j.k / Q1_BLOCK * Layout.PACKED_PER_Q1_BLOCK)
              j.weights.handle
              j.weightsOffset j.dst.handle j.dstOffset (physicalAddress + dstAbs)
      else runSync d a b op) := by
  obtain ⟨hrowsEq, hcolsEq, hkEq, hrows, -, hk, hmod⟩ := checkShape_ok j.shape
  have hrowsPerBlock : readRowsPerBlock d = .ok () := by rw [readRowsPerBlock, if_pos hregs]
  have hpacked : liftLayout (Layout.packedBytesPerRowblock j.k) =
      .ok (j.k / Q1_BLOCK * Layout.PACKED_PER_Q1_BLOCK) := by
    rw [Layout.packedBytesPerRowblock_ok hmod]
    rfl
  have hremaining : extentRemaining a j.weights.handle j.weightsOffset =
      .ok (extentRemainingFrom j.weights.extents 0 j.weightsOffset) := by
    rw [extentRemaining, ha.getRecord j.weights_live]
    rfl
  have hshape : ¬(j.cols ≠ 1 ∨ j.rows = 0 ∨ j.k = 0 ∨ j.k % Q1_BLOCK ≠ 0) := by omega
  unfold runAsync
  simp only [hrowsEq, hcolsEq, hkEq, Traced.lift_ok_bind, if_neg hshape, hid, hrowsPerBlock,
    hpacked, j.weights_eq, j.weightsOffset_eq, j.dst_eq, j.dstOffset_eq, hremaining]
  rfl

/-- An op of several columns is run at once. -/
theorem runAsync_columns (hcols : j.cols ≠ 1) (b : Buffers) :
    runAsync d a b op = runSync d a b op := by
  obtain ⟨hrowsEq, hcolsEq, hkEq, -⟩ := checkShape_ok j.shape
  unfold runAsync
  simp only [hrowsEq, hcolsEq, hkEq, Traced.lift_ok_bind]
  rw [if_pos (Or.inl hcols)]

/-- The range of dst that a matmul of one column writes. -/
def pendingRange : Pending := ⟨j.dst.handle, j.dstOffset, j.dstOffset + (j.rows * F32_BYTES : Nat)⟩

/-- The tail of `run_async` is the head of the loop of `run`. -/
theorem runPipelined_eq (hcols : j.cols = 1) {remaining : Nat}
    (hsingle : SinglePass j.rows (j.k / Q1_BLOCK * Layout.PACKED_PER_Q1_BLOCK) remaining)
    (resultPhys : Nat) (b : Buffers) :
    runPipelined d a b op j.rows j.k (j.k / Q1_BLOCK * Layout.PACKED_PER_Q1_BLOCK)
      j.weights.handle j.weightsOffset
        j.dst.handle j.dstOffset resultPhys = (do
      let (actsAddr, actsIn) ← resolveActs d a b.actsIn j.acts.handle j.actsOffset
        (j.cols * j.k * F32_BYTES)
      let cap := maxRowblocksPerChunk j.rows (j.k / Q1_BLOCK * Layout.PACKED_PER_Q1_BLOCK)
      let (buffers, acts, weightsDma, result) ← Traced.lift (ensureBuffers d b actsIn
        (j.k / Q1_BLOCK * Layout.ACTS_PER_Q1_BLOCK)
        (cap * (j.k / Q1_BLOCK * Layout.PACKED_PER_Q1_BLOCK))
        (cap * ROWS_PER_BLOCK * F32_BYTES))
      let s := j.setup actsAddr acts weightsDma result
      prepareColumn d s 0
      startChunk d a s 0 0 j.weightsOffset resultPhys (j.rows * F32_BYTES)
        (Layout.rowblocksFor j.rows)
      pure (buffers, some j.pendingRange)) := by
  have hcap : maxRowblocksPerChunk j.rows (j.k / Q1_BLOCK * Layout.PACKED_PER_Q1_BLOCK) =
      Layout.rowblocksFor j.rows :=
    Nat.le_antisymm (Nat.min_le_left _ _) hsingle.1
  have hstream : liftLayout (Layout.actsStreamNbytes j.k) =
      .ok (j.k / Q1_BLOCK * Layout.ACTS_PER_Q1_BLOCK) := by
    rw [Layout.actsStreamNbytes_ok j.shape_ok.2.2.2]
    rfl
  unfold runPipelined setup
  simp only [hstream, j.acts_eq, j.actsOffset_eq, Traced.lift_ok_bind, hcols, hcap, Nat.one_mul]
  rfl

/-- Where `run_async` pipelines an op, completing it makes it the run. -/
theorem pipelined_complete (ha : a.Inv) (hid : d.checkKernelId = .ok ())
    (hregs : d.regRows = ROWS_PER_BLOCK) (hcols : j.cols = 1) {i o physical : Nat}
    (hsingle : SinglePass j.rows (j.k / Q1_BLOCK * Layout.PACKED_PER_Q1_BLOCK)
      (extentRemainingFrom j.weights.extents 0 j.weightsOffset))
    (hview : a.slabView j.dst.handle j.dstOffset (j.rows * F32_BYTES : Nat) = .ok (i, o))
    (hphysical : d.pynqBuffer i = some physical) (b : Buffers) :
    run d a b op = (do
      Traced.lift d.ensureNative
      let r ← runPipelined d a b op j.rows j.k (j.k / Q1_BLOCK * Layout.PACKED_PER_Q1_BLOCK)
        j.weights.handle
        j.weightsOffset j.dst.handle j.dstOffset (physical + o)
      complete d ⟨i, o, j.rows * F32_BYTES⟩
      pure r.1) := by
  have hremaining : extentRemaining a j.weights.handle j.weightsOffset =
      .ok (extentRemainingFrom j.weights.extents 0 j.weightsOffset) := by
    rw [extentRemaining, ha.getRecord j.weights_live]
    rfl
  have hloop : ∀ actsAddr acts weightsDma result,
      columnLoop d a (j.setup actsAddr acts weightsDma result) 1 0 [] = _ :=
    fun actsAddr acts weightsDma result =>
      columnLoop_singlePass (s := j.setup actsAddr acts weightsDma result) j.shape_ok.1 hremaining
        hsingle hview hphysical
  rw [j.run_head hid hregs, j.runPipelined_eq hcols hsingle]
  simp only [Traced.bind_assoc, Traced.pure_bind, hcols, hloop, complete, invalidateDirty_single]
  rfl

/-- `run_async` is `run`, or it pipelines an op that is one pass. -/
theorem runAsync_cases (ha : a.Inv) (hid : d.checkKernelId = .ok ())
    (hregs : d.regRows = ROWS_PER_BLOCK)
    (hpynq : ∀ i < a.slabs.length, ∃ physical, d.pynqBuffer i = some physical) (b : Buffers) :
    runAsync d a b op = runSync d a b op ∨
    ∃ i o physical, j.cols = 1 ∧ SinglePass j.rows (j.k / Q1_BLOCK * Layout.PACKED_PER_Q1_BLOCK)
        (extentRemainingFrom j.weights.extents 0 j.weightsOffset) ∧
      a.slabView j.dst.handle j.dstOffset (j.rows * F32_BYTES : Nat) = .ok (i, o) ∧
      d.pynqBuffer i = some physical ∧
      rangeLocations j.dst.extents j.dstOffset (j.rows * F32_BYTES) =
        span i o (j.rows * F32_BYTES) ∧
      runAsync d a b op = (do
        Traced.lift d.ensureNative
        runPipelined d a b op j.rows j.k (j.k / Q1_BLOCK * Layout.PACKED_PER_Q1_BLOCK)
          j.weights.handle
          j.weightsOffset j.dst.handle j.dstOffset (physical + o)) := by
  by_cases hcols : j.cols = 1
  · have hsync : (Traced.lift d.ensureNative >>= fun _ => runSync d a b op) = runSync d a b op := by
      unfold runSync
      rw [j.run_head hid hregs]
      cases d.ensureNative with
      | error e => rfl
      | ok _ => rfl
    have hpos : 0 < j.rows * F32_BYTES := Nat.mul_pos j.shape_ok.1 (by decide)
    have hin := j.dst_inBounds
    rw [hcols, Nat.mul_one] at hin
    rw [j.runAsync_head ha hid hregs hcols]
    by_cases hsingle : SinglePass j.rows (j.k / Q1_BLOCK * Layout.PACKED_PER_Q1_BLOCK)
        (extentRemainingFrom j.weights.extents 0 j.weightsOffset)
    · rw [if_pos hsingle]
      rcases ha.slabView_cases j.dst_live hpos hin with ⟨i, o, hview, -, hlt, -, hlocs⟩ |
        ⟨message, hview, -⟩
      · obtain ⟨physical, hphysical⟩ := hpynq i hlt
        refine Or.inr ⟨i, o, physical, hcols, hsingle, hview, hphysical, hlocs, ?_⟩
        rw [hview]
        simp only [hphysical]
      · rw [hview]
        exact Or.inl hsync
    · rw [if_neg hsingle]
      exact Or.inl hsync
  · exact Or.inl (j.runAsync_columns hcols b)

end Job

theorem starts_append (e e' : List Act) : starts (e ++ e') = starts e ++ starts e' :=
  List.filterMap_append

theorem starts_resolveActs (scratch : Option Buffer) (handle offset nbytes : Nat) :
    starts (resolveActs d a scratch handle offset nbytes).events = [] := by
  unfold resolveActs
  split
  · rfl
  · split
    · cases ensureBuffer d scratch nbytes with
      | error e => rfl
      | ok buffer =>
        cases inBounds a handle offset nbytes with
        | error e => rfl
        | ok _ => rfl
    · rfl

theorem starts_prepareColumn (s : Setup) (col : Nat) :
    starts (prepareColumn d s col).events = [] := by
  unfold prepareColumn
  cases checkRc "bonsai_quantize_q8_0_pl" (d.quantizeRc col) with
  | error e => rfl
  | ok _ =>
    cases checkRc "bonsai_q1a8_pack_acts" (d.packActsRc col) with
    | error e => rfl
    | ok _ => rfl

/-- A pipelined op starts one chunk: the whole column, with its result in the pending range. -/
theorem starts_runPipelined {op : Op} (j : Job a op) (ha : a.Inv)
    (hpynq : ∀ i < a.slabs.length, ∃ physical, d.pynqBuffer i = some physical) (hcols : j.cols = 1)
    (hsingle : SinglePass j.rows (j.k / Q1_BLOCK * Layout.PACKED_PER_Q1_BLOCK)
      (extentRemainingFrom j.weights.extents 0 j.weightsOffset))
    {resultPhys : Nat} {b buffers : Buffers} {p : Option Pending}
    (h : (runPipelined d a b op j.rows j.k (j.k / Q1_BLOCK * Layout.PACKED_PER_Q1_BLOCK)
      j.weights.handle
      j.weightsOffset j.dst.handle j.dstOffset resultPhys).result = .ok (buffers, p)) :
    p = some j.pendingRange ∧ ∃ c, c.numRowblocks = Layout.rowblocksFor j.rows ∧
      c.resultPhysAddr = resultPhys ∧
      c.resultNbytes = j.rows * F32_BYTES ∧
      starts (runPipelined d a b op j.rows j.k (j.k / Q1_BLOCK * Layout.PACKED_PER_Q1_BLOCK)
        j.weights.handle
        j.weightsOffset j.dst.handle j.dstOffset resultPhys).events = [c] := by
  obtain ⟨hrows, -, hk, hmod⟩ := j.shape_ok
  have hpacked : 0 < j.k / Q1_BLOCK * Layout.PACKED_PER_Q1_BLOCK := by
    refine Nat.mul_pos ?_ (by decide)
    simp only [Q1_BLOCK] at *
    omega
  have hin : j.weightsOffset + Layout.rowblocksFor j.rows *
      (j.k / Q1_BLOCK * Layout.PACKED_PER_Q1_BLOCK) ≤
      j.weights.nbytes := by
    have := j.weights_inBounds _ (Layout.packedNbytes_ok hmod j.rows)
    rwa [Nat.mul_assoc] at this
  rw [j.runPipelined_eq hcols hsingle] at h ⊢
  obtain ⟨⟨actsAddr, actsIn⟩, -, h, hev⟩ := Traced.of_bind_ok h
  rw [hev, starts_append, starts_resolveActs]
  obtain ⟨⟨buffers', acts, weightsDma, result⟩, -, h, hev⟩ := Traced.of_bind_ok h
  rw [hev, starts_append]
  simp only at h ⊢
  obtain ⟨c, hcount, hphys, hbytes, hstart⟩ := startChunk_singlePass
    (s := j.setup actsAddr acts weightsDma result) ha j.weights_live
    rfl hpacked hrows hin hpynq hsingle resultPhys (j.rows * F32_BYTES)
  obtain ⟨-, -, h, hev⟩ := Traced.of_bind_ok h
  rw [hev, starts_append, starts_prepareColumn]
  obtain ⟨-, -, h, hev⟩ := Traced.of_bind_ok h
  rw [hev, starts_append,
    show startChunk d a (j.setup actsAddr acts weightsDma result) 0 0 j.weightsOffset resultPhys
    (j.rows * F32_BYTES) (Layout.rowblocksFor j.rows) = _ from hstart]
  refine ⟨(Prod.ext_iff.mp (Except.ok.inj h)).2.symm, c, hcount, hphys, hbytes, ?_⟩
  cases checkRc "bonsai_q1a8_start_matmul_chunk" (d.startRc 0 0) with
  | error e => rfl
  | ok _ => rfl

/-- Asynchronous and synchronous matmuls agree, for every op with its ranges in bounds and
    every layout of its tensors over PYNQ slabs, whatever the native calls return: an op that
    is pending starts one chunk, its pending range is what the DMA writes, and completing it
    makes it the run; every other call of `run_async` is the run. The serial call of the
    runner makes the writes of the start and then waits. -/
theorem async_agrees {op : Op} (j : Job a op) (ha : a.Inv) (hid : d.checkKernelId = .ok ())
    (hregs : d.regRows = ROWS_PER_BLOCK)
    (hpynq : ∀ i < a.slabs.length, ∃ physical, d.pynqBuffer i = some physical)
    (b : Buffers) :
    (∀ buffers p, (runAsync d a b op).result = .ok (buffers, some p) →
      p = ⟨j.dst.handle, j.dstOffset, j.dstOffset + (j.rows * j.cols * F32_BYTES : Nat)⟩ ∧
      ∃ m c physical, pendingMatmul a p = .ok m ∧
        run d a b op = (do
          let r ← runAsync d a b op
          complete d m
          pure r.1) ∧
        starts (runAsync d a b op).events = [c] ∧ c.numRowblocks = Layout.rowblocksFor j.rows ∧
        d.pynqBuffer m.dstSlab = some physical ∧ c.resultPhysAddr = physical + m.dstAbs ∧
        c.resultNbytes = m.dstNbytes ∧
        p.dstHi = p.dstLo + m.dstNbytes ∧
        rangeLocations j.dst.extents j.dstOffset m.dstNbytes =
          span m.dstSlab m.dstAbs m.dstNbytes) ∧
    ((∀ buffers p, (runAsync d a b op).result ≠ .ok (buffers, some p)) →
      runAsync d a b op = runSync d a b op) ∧
    ∀ (δ : Type) (dev : Runner.Device δ) (ptrs : Runner.Pointers) (c : Chunk)
      (pollLimit : BitVec 32) (bus : Runner.Bus δ),
      let started := Runner.startMatmulChunk dev ptrs c.words bus
      let serial := Runner.runMatmulChunk dev ptrs c.words pollLimit bus
      serial = (if started.1 = 0 then Runner.waitMatmulChunk dev ptrs pollLimit started.2
        else ((started.1, none), started.2)) ∧
      serial.2.log = started.2.log ∧
      (started.1 = 0 → ∃ resets : List Runner.Write,
        started.2.log = bus.log ++ resets ++ Runner.chunkWrites c.words) := by
  refine ⟨?_, ?_, ?_⟩
  · intro buffers p hp
    rcases j.runAsync_cases ha hid hregs hpynq b with hsync |
      ⟨i, o, physical, hcols, hsingle, hview, hphysical, hlocs, hrun⟩
    · -- `run` leaves nothing pending
      rw [hsync] at hp
      obtain ⟨_, -, hpure, -⟩ := Traced.of_bind_ok hp
      cases hpure
    · rw [hrun] at hp ⊢
      obtain ⟨_, -, hpipe, hev⟩ := Traced.of_bind_ok hp
      obtain ⟨hrange, c, hcount, hphys, hbytes, hstarts⟩ :=
        starts_runPipelined j ha hpynq hcols hsingle hpipe
      obtain rfl : p = j.pendingRange := Option.some.inj hrange
      refine ⟨by rw [hcols, Nat.mul_one]; rfl, ⟨i, o, j.rows * F32_BYTES⟩, c, physical, ?_, ?_, ?_,
        hcount, hphysical, hphys, hbytes, rfl, hlocs⟩
      · have hlen : j.pendingRange.dstHi - j.pendingRange.dstLo =
            ((j.rows * F32_BYTES : Nat) : Int) := by
          simp only [Job.pendingRange]
          omega
        rw [pendingMatmul, hlen,
          show a.slabView j.pendingRange.dstHandle j.pendingRange.dstLo _ = _ from hview]
        rfl
      · rw [j.pipelined_complete ha hid hregs hcols hsingle hview hphysical, Traced.bind_assoc]
      · rw [hev, starts_append, hstarts]
        rfl
  · intro hnone
    rcases j.runAsync_cases ha hid hregs hpynq b with hsync |
      ⟨i, o, physical, hcols, hsingle, hview, hphysical, hlocs, hrun⟩
    · exact hsync
    · -- a pipelined op that returns is pending, so it raised, and so does the run
      rw [hrun] at hnone ⊢
      have hrun' := j.pipelined_complete ha hid hregs hcols hsingle hview hphysical b
      rw [← Traced.bind_assoc] at hrun'
      generalize hx : (Traced.lift d.ensureNative >>= fun _ => runPipelined d a b op j.rows j.k
        (j.k / Q1_BLOCK * Layout.PACKED_PER_Q1_BLOCK) j.weights.handle j.weightsOffset
        j.dst.handle j.dstOffset
        (physical + o)) = x at hnone hrun' ⊢
      obtain ⟨events, result⟩ := x
      cases result with
      | error e =>
        rw [Traced.bind_error rfl] at hrun'
        rw [runSync, Traced.bind_error hrun']
      | ok r =>
        obtain ⟨buffers, p⟩ := r
        obtain ⟨_, -, hpipe, -⟩ := Traced.of_bind_ok (congrArg Traced.result hx)
        obtain ⟨rfl, -⟩ := starts_runPipelined j ha hpynq hcols hsingle hpipe
        exact absurd rfl (hnone buffers j.pendingRange)
  · -- the call without a thread is a start and, where it returns 0, a wait
    intro δ dev ptrs c pollLimit bus
    obtain ⟨hrun, hlog⟩ := @Runner.runMatmulChunk_eq δ dev ptrs c.words pollLimit bus
    exact ⟨hrun, hlog, fun h => (Runner.startMatmulChunk_log h).imp fun _ h => h.1⟩

end

/-- A matmul of eight rows and one column is pipelined. -/
def narrowJob : Job (matmulAllocator 256) (matmulOp 256) where
  rows := 8
  cols := 1
  k := 256
  weights := ⟨1, 288, [], "u8", "tensor", "raw", [⟨0, 0, 288⟩]⟩
  weightsOffset := 0
  acts := ⟨2, 1024, [], "u8", "tensor", "raw", [⟨0, 320, 1024⟩]⟩
  actsOffset := 0
  dst := ⟨3, 32, [], "u8", "tensor", "raw", [⟨0, 1344, 32⟩]⟩
  dstOffset := 0
  shape := rfl
  weights_eq := rfl
  weightsOffset_eq := rfl
  acts_eq := rfl
  actsOffset_eq := rfl
  dst_eq := rfl
  dstOffset_eq := rfl
  weights_live := by decide +kernel
  acts_live := by decide +kernel
  dst_live := by decide +kernel
  weights_inBounds n hn := by
    cases hn
    decide
  acts_inBounds := by decide
  dst_inBounds := by decide

theorem matmulAllocator_inv (k : Nat) : (matmulAllocator k).Inv :=
  Allocator.Inv.calls
    (Allocator.Inv.init (show Allocator.init [⟨65536, ()⟩] 64 =
      .ok (⟨[⟨65536, ()⟩], [[(0, 65536)]], [], 1, 64⟩ : Allocator Unit) from rfl))
    _ _

theorem async_agrees_narrow :
    ∃ buffers m, (runAsync quietDriver (matmulAllocator 256) noBuffers (matmulOp 256)).result =
      .ok (buffers, some ⟨3, 0, 32⟩) ∧
      pendingMatmul (matmulAllocator 256) ⟨3, 0, 32⟩ = .ok m ∧
      run quietDriver (matmulAllocator 256) noBuffers (matmulOp 256) = (do
        let r ← runAsync quietDriver (matmulAllocator 256) noBuffers (matmulOp 256)
        complete quietDriver m
        pure r.1) := by
  have hpending : ∃ buffers,
      (runAsync quietDriver (matmulAllocator 256) noBuffers (matmulOp 256)).result =
      .ok (buffers, some ⟨3, 0, 32⟩) := ⟨_, rfl⟩
  obtain ⟨buffers, hbuffers⟩ := hpending
  have hworks := quietDriver_works (matmulAllocator 256).slabs.length
  obtain ⟨hasync, -, -⟩ := async_agrees narrowJob (matmulAllocator_inv 256)
    hworks.checkKernelId hworks.regRows
    hworks.pynqBuffer noBuffers
  obtain ⟨-, m, _, _, hm, hrun, -⟩ := hasync buffers _ hbuffers
  exact ⟨buffers, m, hbuffers, hm, hrun⟩

end Board.Matmul
