-- SUMMARY: The chunk loop of the PL matmul: its passes cover every rowblock once, and the result bytes of every row land once in dst.
import BonsaiTpu.Board.Capacity
import BonsaiTpu.Board.Addresses

/-!
# The passes of the chunk loop

What the driver does for a matmul is a list of passes, one per call of the kernel. A
pass is a column, a cursor and a number of rowblocks; the extents of the weights
tensor decide how a column is cut into passes, the extents of dst decide where the
result of a pass goes. The run of the driver is the list of its passes, and the
properties of a matmul are properties of that list.
-/

namespace Board.Matmul

open Layout (Q1_BLOCK ROWS_PER_BLOCK)

/-- Nothing outside of the driver fails: the bitstream is the right one, every slab is a
    PYNQ buffer, the native calls return 0, and a new buffer has the size asked for. -/
structure Driver.Works (d : Driver) (slabs : Nat) : Prop where
  ensureNative : d.ensureNative = .ok ()
  checkKernelId : d.checkKernelId = .ok ()
  regRows : d.regRows = ROWS_PER_BLOCK
  allocate : ∀ nbytes, ∃ buffer, d.allocate nbytes = .ok buffer ∧ buffer.size = nbytes
  pynqBuffer : ∀ i < slabs, ∃ physical, d.pynqBuffer i = some physical
  baseVa : ∀ i < slabs, ∃ address, d.baseVa i = some address
  quantizeRc : ∀ col, d.quantizeRc col = 0
  packActsRc : ∀ col, d.packActsRc col = 0
  startRc : ∀ col rowblock, d.startRc col rowblock = 0
  waitRc : ∀ col rowblock, d.waitRc col rowblock = 0

/-- An op whose tensors are live and have the ranges it names. -/
structure Job {σ : Type} (a : Allocator σ) (op : Op) where
  rows : Nat
  cols : Nat
  k : Nat
  weights : TensorRecord
  weightsOffset : Nat
  acts : TensorRecord
  actsOffset : Nat
  dst : TensorRecord
  dstOffset : Nat
  shape : checkShape op = .ok (rows, cols, k)
  weights_eq : required op.weights "weights" = .ok weights.handle
  weightsOffset_eq : optionalInt op.weightsOffset "weights_offset" = .ok weightsOffset
  acts_eq : required op.acts "acts" = .ok acts.handle
  actsOffset_eq : optionalInt op.actsOffset "acts_offset" = .ok actsOffset
  dst_eq : required op.dst "dst" = .ok dst.handle
  dstOffset_eq : optionalInt op.dstOffset "dst_offset" = .ok dstOffset
  weights_live : weights ∈ a.records
  acts_live : acts ∈ a.records
  dst_live : dst ∈ a.records
  weights_inBounds : ∀ n, Layout.packedNbytes rows k = .ok n → weightsOffset + n ≤ weights.nbytes
  acts_inBounds : actsOffset + cols * k * F32_BYTES ≤ acts.nbytes
  dst_inBounds : dstOffset + rows * cols * F32_BYTES ≤ dst.nbytes

/-! ## Passes -/

/-- One pass of the chunk loop. -/
structure Pass (rows : Nat) where
  col : Nat
  cur : Cursor rows
  rowblocks : Nat

/-- The rowblocks of the pass at a cursor, for weights with the given extents. -/
def passRowblocks (s : Setup) (extents : List Extent) (cur : Cursor s.rows) : Nat :=
  cur.chunkRowblocks s.packedBytesPerRb
    (extentRemainingFrom extents 0 (s.weightsBaseOffset + cur.rowblock * s.packedBytesPerRb))

/-- The passes of a column from a cursor on. -/
def passes (s : Setup) (extents : List Extent) (col : Nat) (cur : Cursor s.rows) :
    List (Pass s.rows) :=
  if _h : cur.row < s.rows then
    ⟨col, cur, passRowblocks s extents cur⟩ ::
      passes s extents col (cur.advance (passRowblocks s extents cur))
  else []
  termination_by s.rows - cur.row
  decreasing_by
    have : cur.row < (cur.advance (passRowblocks s extents cur)).row :=
      cur.row_lt_advance _h (cur.chunkRowblocks_pos _h _ _)
    omega

section

variable {σ : Type} (d : Driver) (a : Allocator σ) (s : Setup)

/-- Where a range of a tensor is seen by the DMA: slab, offset and physical address. -/
def slabRange (handle offset nbytes : Nat) : Option (Nat × Nat × Nat) :=
  match a.slabView handle offset nbytes with
  | .ok (slabIndex, absOff) =>
    (d.pynqBuffer slabIndex).map fun physical => (slabIndex, absOff, physical + absOff)
  | .error _ => none

variable (p : Pass s.rows)

def Pass.weightsOffset : Nat := s.weightsBaseOffset + p.cur.rowblock * s.packedBytesPerRb

def Pass.weightsNbytes : Nat := p.rowblocks * s.packedBytesPerRb

/-- The bytes the kernel emits. -/
def Pass.paddedNbytes : Nat := p.rowblocks * ROWS_PER_BLOCK * F32_BYTES

/-- The bytes of the rows of the pass. -/
def Pass.actualNbytes : Nat := p.cur.chunkRows p.rowblocks * F32_BYTES

def Pass.dstOffset : Nat := s.dstBaseOffset + (p.col * s.rows + p.cur.row) * F32_BYTES

/-- Where the weights are streamed from; `none` is the scratch buffer. -/
def Pass.source : Option (Nat × Nat × Nat) :=
  slabRange d a s.weightsHandle (p.weightsOffset s) (p.weightsNbytes s)

/-- Where the result is streamed to; `none` is the result buffer. -/
def Pass.target : Option (Nat × Nat × Nat) :=
  if p.paddedNbytes s = p.actualNbytes s then
    slabRange d a s.dstHandle (p.dstOffset s) (p.paddedNbytes s) else none

def Pass.chunk : Chunk where
  weightsPhysAddr := ((p.source d a s).map fun r => r.2.2).getD s.weightsDma.physicalAddress
  weightsNbytes := p.weightsNbytes s
  actsPhysAddr := s.acts.physicalAddress
  actsNbytes := s.actsStreamNbytes
  resultPhysAddr := ((p.target d a s).map fun r => r.2.2).getD s.result.physicalAddress
  resultNbytes := p.paddedNbytes s
  numQ1Blocks := s.k / Q1_BLOCK
  numRowblocks := p.rowblocks

/-- The calls of a pass. -/
def Pass.events : List Act :=
  (match p.source d a s with
    | some _ => []
    | none => [.copyWeights s.weightsHandle (p.weightsOffset s) (p.weightsNbytes s)]) ++
  [.start (p.chunk d a s), .wait] ++
  (match p.target d a s with
    | some _ => []
    | none =>
      [.invalidateResult (p.paddedNbytes s),
        .writeResult s.dstHandle (p.dstOffset s) (p.actualNbytes s)])

/-- `dst_dirty` after a pass. -/
def Pass.mark (dirty : List Dirty) : List Dirty :=
  match p.target d a s with
  | some (slabIndex, dstAbs, _) => addDirty slabIndex dstAbs (dstAbs + p.actualNbytes s) dirty
  | none => dirty

/-- All passes of a matmul. -/
def allPasses (extents : List Extent) : List (Pass s.rows) :=
  (List.range s.cols).flatMap fun col => passes s extents col (Cursor.zero s.rows)

/-- The calls of a column. -/
def columnEvents (extents : List Extent) (col : Nat) : List Act :=
  [.quantize (s.actsAddr + col * s.k * F32_BYTES) s.k, .packActs s.k] ++
    (passes s extents col (Cursor.zero s.rows)).flatMap fun p => p.events d a s

end

/-! ## What the passes of a column are -/

section

variable {s : Setup} {extents : List Extent} {col : Nat}

/-- A pass of a column: its cursor is inside of the matrix and its rowblocks are those
    that the loop takes there. -/
structure IsPass (s : Setup) (extents : List Extent) (p : Pass s.rows) : Prop where
  row_lt : p.cur.row < s.rows
  rowblocks_eq : p.rowblocks = passRowblocks s extents p.cur

theorem passes_of_lt {cur : Cursor s.rows} (h : cur.row < s.rows) :
    passes s extents col cur =
      ⟨col, cur, passRowblocks s extents cur⟩ ::
        passes s extents col (cur.advance (passRowblocks s extents cur)) := by
  rw [passes, dif_pos h]

theorem passes_of_le {cur : Cursor s.rows} (h : s.rows ≤ cur.row) :
    passes s extents col cur = [] := by
  rw [passes, dif_neg (Nat.not_lt.mpr h)]

/-- Induction over the passes of a column. -/
theorem passes_induction (extents : List Extent) {motive : Cursor s.rows → Prop}
    (done : ∀ cur, s.rows ≤ cur.row → motive cur)
    (step : ∀ cur, cur.row < s.rows →
      motive (cur.advance (passRowblocks s extents cur)) → motive cur)
    (cur : Cursor s.rows) : motive cur := by
  induction hd : s.rows - cur.row using Nat.strong_induction_on generalizing cur with
  | _ left ih =>
    by_cases hrow : cur.row < s.rows
    · have hlt : cur.row < (cur.advance (passRowblocks s extents cur)).row :=
        cur.row_lt_advance hrow (cur.chunkRowblocks_pos hrow _ _)
      exact step cur hrow (ih _ (by omega) _ rfl)
    · exact done cur (Nat.not_lt.mp hrow)

theorem isPass_of_mem {cur : Cursor s.rows} :
    ∀ p ∈ passes s extents col cur, IsPass s extents p ∧ p.col = col := by
  induction cur using passes_induction extents with
  | done cur h =>
    rw [passes_of_le h]
    intro p hp
    cases hp
  | step cur h ih =>
    rw [passes_of_lt h]
    intro p hp
    cases hp with
    | head => exact ⟨⟨h, rfl⟩, rfl⟩
    | tail _ hp => exact ih p hp

/-- The rowblocks left at a cursor inside of the matrix. -/
theorem Cursor.rowblock_lt {rows : Nat} (cur : Cursor rows) (h : cur.row < rows) :
    cur.row = cur.rowblock * ROWS_PER_BLOCK ∧ cur.rowblock < Layout.rowblocksFor rows := by
  have hrow := cur.row_eq
  simp only [Layout.rowblocksFor, ROWS_PER_BLOCK] at *
  omega

section

variable {p : Pass s.rows} (hp : IsPass s extents p)

include hp

theorem IsPass.rowblocks_pos : 1 ≤ p.rowblocks := by
  rw [hp.rowblocks_eq]
  exact p.cur.chunkRowblocks_pos hp.row_lt _ _

/-- A pass ends at the last rowblock or before it. -/
theorem IsPass.rowblocks_le : p.cur.rowblock + p.rowblocks ≤ Layout.rowblocksFor s.rows := by
  have hlt := (p.cur.rowblock_lt hp.row_lt).2
  rw [hp.rowblocks_eq]
  simp only [passRowblocks, Cursor.chunkRowblocks]
  split <;> omega

/-- The rows of a pass are rows of its column. -/
theorem IsPass.rows_le : p.cur.row + p.cur.chunkRows p.rowblocks ≤ s.rows := by
  have := hp.row_lt
  simp only [Cursor.chunkRows]
  omega

/-- A pass is never longer than the buffers are sized for. -/
theorem IsPass.rowblocks_le_max : p.rowblocks ≤ maxRowblocksPerChunk s.rows s.packedBytesPerRb := by
  have hlt := (p.cur.rowblock_lt hp.row_lt).2
  have hmax : 1 ≤ maxRowblocksPerChunk s.rows s.packedBytesPerRb := by
    simp only [maxRowblocksPerChunk]
    omega
  rw [hp.rowblocks_eq]
  simp only [passRowblocks, Cursor.chunkRowblocks]
  split <;> omega

/-- The weights of a pass end where their extent ends or before it, or the pass is a
    single rowblock. -/
theorem IsPass.weights_fit :
    p.rowblocks * s.packedBytesPerRb ≤
        extentRemainingFrom extents 0 (s.weightsBaseOffset + p.cur.rowblock * s.packedBytesPerRb) ∨
      p.rowblocks = 1 := by
  rw [hp.rowblocks_eq]
  simp only [passRowblocks, Cursor.chunkRowblocks]
  split
  · left
    exact (Nat.mul_le_mul_right _ (Nat.min_le_right _ _)).trans (Nat.div_mul_le_self _ _)
  · exact Or.inr rfl

end

/-- The passes of a column take its rowblocks one after another. -/
theorem passes_rowblocks (cur : Cursor s.rows) :
    (passes s extents col cur).flatMap (fun p => List.range' p.cur.rowblock p.rowblocks) =
      List.range' cur.rowblock (Layout.rowblocksFor s.rows - cur.rowblock) := by
  induction cur using passes_induction extents with
  | done cur h =>
    have hle : Layout.rowblocksFor s.rows ≤ cur.rowblock := by
      have hrow := cur.row_eq
      simp only [Layout.rowblocksFor, ROWS_PER_BLOCK] at *
      omega
    rw [passes_of_le h, Nat.sub_eq_zero_of_le hle]
    rfl
  | step cur h ih =>
    have hp : IsPass s extents ⟨col, cur, passRowblocks s extents cur⟩ := ⟨h, rfl⟩
    have hle := hp.rowblocks_le
    rw [passes_of_lt h, List.flatMap_cons, ih]
    simp only [Cursor.advance] at hle ⊢
    rw [List.range'_append_1]
    congr 1
    omega

end

/-! ## The run of the passes -/

/-- What the loops of a run rest on. -/
structure Ready {σ : Type} (d : Driver) (a : Allocator σ) (s : Setup)
    (weights dst : TensorRecord) : Prop where
  inv : a.Inv
  works : d.Works a.slabs.length
  packed_pos : 0 < s.packedBytesPerRb
  weights_live : weights ∈ a.records
  weights_eq : s.weightsHandle = weights.handle
  weights_inBounds : s.weightsBaseOffset +
    Layout.rowblocksFor s.rows * s.packedBytesPerRb ≤ weights.nbytes
  dst_live : dst ∈ a.records
  dst_eq : s.dstHandle = dst.handle
  dst_inBounds : s.dstBaseOffset + s.rows * s.cols * F32_BYTES ≤ dst.nbytes
  scratch : maxRowblocksPerChunk s.rows s.packedBytesPerRb * s.packedBytesPerRb ≤ s.weightsDma.size
  result : maxRowblocksPerChunk s.rows s.packedBytesPerRb * ROWS_PER_BLOCK *
    F32_BYTES ≤ s.result.size

section

variable {σ : Type} {d : Driver} {a : Allocator σ} {s : Setup} {weights dst : TensorRecord}

/-- A range of a live tensor, seen by the DMA: in one extent, or across extents. -/
theorem slabRange_cases {r : TensorRecord} (ha : a.Inv) (hd : d.Works a.slabs.length)
    (hr : r ∈ a.records)
    {offset nbytes : Nat} (hpos : 0 < nbytes) (hin : offset + nbytes ≤ r.nbytes) :
    (∃ i o physical, a.slabView r.handle offset nbytes = .ok (i, o) ∧
      d.pynqBuffer i = some physical ∧
      slabRange d a r.handle offset nbytes = some (i, o, physical + o) ∧
      InOneExtent r.extents i o nbytes ∧
      rangeLocations r.extents offset nbytes = span i o nbytes) ∨
    ∃ message, a.slabView r.handle offset nbytes = .error (.allocator .multiExtent message) ∧
      viewFrom r.extents 0 offset nbytes = .error (.allocator .multiExtent message) ∧
      slabRange d a r.handle offset nbytes = none := by
  rcases ha.slabView_cases hr hpos hin with ⟨i, o, hview, -, hlt, hone, hlocs⟩ |
    ⟨message, hview, hfrom⟩
  · obtain ⟨physical, hphysical⟩ := hd.pynqBuffer i hlt
    refine Or.inl ⟨i, o, physical, hview, hphysical, ?_, hone, hlocs⟩
    simp only [slabRange, hview, hphysical, Option.map_some]
  · refine Or.inr ⟨message, hview, hfrom, ?_⟩
    simp only [slabRange, hview]

namespace Ready

variable (h : Ready d a s weights dst) {p : Pass s.rows} (hp : IsPass s weights.extents p)

include h hp

theorem weights_range :
    0 < p.weightsNbytes s ∧ p.weightsOffset s + p.weightsNbytes s ≤ weights.nbytes := by
  have hpos := Nat.mul_pos hp.rowblocks_pos h.packed_pos
  have hle := Nat.mul_le_mul_right s.packedBytesPerRb hp.rowblocks_le
  have hin := h.weights_inBounds
  rw [Nat.add_mul] at hle
  simp only [Pass.weightsNbytes, Pass.weightsOffset]
  omega

/-- The weights of a pass are in one extent, or they are one rowblock that fits the scratch
    buffer. -/
theorem source_cases :
    (∃ i o physical,
      a.slabView weights.handle (p.weightsOffset s) (p.weightsNbytes s) = .ok (i, o) ∧
      d.pynqBuffer i = some physical ∧ p.source d a s = some (i, o, physical + o) ∧
      InOneExtent weights.extents i o (p.weightsNbytes s) ∧
      rangeLocations weights.extents (p.weightsOffset s) (p.weightsNbytes s) =
        span i o (p.weightsNbytes s)) ∨
    ∃ message, a.slabView weights.handle (p.weightsOffset s) (p.weightsNbytes s) =
        .error (.allocator .multiExtent message) ∧
      p.source d a s = none ∧ p.rowblocks = 1 ∧ p.weightsNbytes s ≤ s.weightsDma.size := by
  obtain ⟨hpos, hin⟩ := h.weights_range hp
  unfold Pass.source
  rw [h.weights_eq]
  rcases slabRange_cases h.inv h.works h.weights_live hpos hin with hone |
    ⟨message, hview, hfrom, hnone⟩
  · exact Or.inl hone
  · refine Or.inr ⟨message, hview, hnone, ?_, ?_⟩
    · rcases hp.weights_fit with hfit | hsingle
      · obtain ⟨view, hok⟩ := (viewFrom_iff_remaining (Nat.zero_le _) hpos).mpr hfit
        rw [Pass.weightsOffset] at hfrom
        rw [hok] at hfrom
        cases hfrom
      · exact hsingle
    · exact (Nat.mul_le_mul_right _ hp.rowblocks_le_max).trans h.scratch

theorem dst_range (hcol : p.col < s.cols) :
    0 < p.actualNbytes s ∧ p.dstOffset s + p.actualNbytes s ≤ dst.nbytes := by
  have hrows := hp.rows_le
  have hrow := hp.row_lt
  have hpos := hp.rowblocks_pos
  have hcols : (p.col + 1) * s.rows ≤ s.rows * s.cols := by
    rw [Nat.mul_comm s.rows]
    exact Nat.mul_le_mul_right _ hcol
  have hin := h.dst_inBounds
  rw [Nat.add_mul, Nat.one_mul] at hcols
  simp only [Pass.actualNbytes, Pass.dstOffset, F32_BYTES, Cursor.chunkRows, ROWS_PER_BLOCK] at *
  omega

/-- The result of a pass goes to one extent of dst, without padding, or to the result buffer, which
    it fits. -/
theorem target_cases (hcol : p.col < s.cols) :
    (∃ i o physical, p.paddedNbytes s = p.actualNbytes s ∧
      a.slabView dst.handle (p.dstOffset s) (p.paddedNbytes s) = .ok (i, o) ∧
      d.pynqBuffer i = some physical ∧
      p.target d a s = some (i, o, physical + o) ∧ InOneExtent dst.extents i o (p.paddedNbytes s) ∧
      rangeLocations dst.extents (p.dstOffset s) (p.actualNbytes s) = span i o (p.paddedNbytes s)) ∨
    p.target d a s = none ∧ resultView d a s.dstHandle (p.dstOffset s) (p.paddedNbytes s)
      (p.actualNbytes s) = .ok none ∧
      p.paddedNbytes s ≤ s.result.size := by
  obtain ⟨hpos, hin⟩ := h.dst_range hp hcol
  have hfit : p.paddedNbytes s ≤ s.result.size :=
    (Nat.mul_le_mul_right _ (Nat.mul_le_mul_right _ hp.rowblocks_le_max)).trans h.result
  unfold Pass.target resultView dstView
  rw [h.dst_eq]
  by_cases heq : p.paddedNbytes s = p.actualNbytes s
  · rw [if_pos heq, if_pos heq]
    rw [← heq] at hpos hin ⊢
    rcases slabRange_cases h.inv h.works h.dst_live hpos hin with
      ⟨i, o, physical, hview, hphysical, hrange, hone, hlocs⟩ | ⟨message, hview, -, hnone⟩
    · exact Or.inl ⟨i, o, physical, rfl, hview, hphysical, hrange, hone, hlocs⟩
    · refine Or.inr ⟨hnone, ?_, hfit⟩
      rw [hview]
  · rw [if_neg heq, if_neg heq]
    exact Or.inr ⟨rfl, rfl, hfit⟩

/-- The start of a pass, whatever its target. -/
theorem startChunk_eq (resultPhys : Nat)
    (hresult : resultPhys = ((p.target d a s).map fun r => r.2.2).getD s.result.physicalAddress) :
    startChunk d a s p.col p.cur.rowblock (p.weightsOffset s) resultPhys
      (p.paddedNbytes s) p.rowblocks =
      ⟨(match p.source d a s with
        | some _ => []
        | none =>
          [.copyWeights s.weightsHandle (p.weightsOffset s) (p.weightsNbytes s)]) ++
            [.start (p.chunk d a s)],
        .ok ()⟩ := by
  have hrange := h.weights_range hp
  have hrc : checkRc "bonsai_q1a8_start_matmul_chunk"
      (d.startRc p.col p.cur.rowblock) = .ok () := by
    rw [h.works.startRc]
    rfl
  have hbounds : inBounds a s.weightsHandle (p.weightsOffset s) (p.weightsNbytes s) = .ok () := by
    rw [h.weights_eq, inBounds, h.inv.getRecord h.weights_live]
    simp only [bind, Except.bind]
    rw [if_neg (by omega)]
  have hweights : resolveWeightsPhys d a s.weightsDma s.weightsHandle (p.weightsOffset s)
      (p.weightsNbytes s) =
      ⟨(match p.source d a s with
        | some _ => []
        | none => [.copyWeights s.weightsHandle (p.weightsOffset s) (p.weightsNbytes s)]),
        .ok (p.chunk d a s).weightsPhysAddr⟩ := by
    unfold resolveWeightsPhys Pass.chunk
    rcases h.source_cases hp with ⟨i, o, physical, hview, hphysical, hsource, -⟩ |
      ⟨message, hview, hsource, -, hfit⟩
    · rw [h.weights_eq, hview, hsource]
      simp only [slabPhysical, hphysical]
      rfl
    · rw [← h.weights_eq] at hview
      rw [hview, hsource]
      simp only
      rw [if_neg (Nat.not_lt.mpr hfit), hbounds]
      rfl
  unfold startChunk
  simp only
  rw [show p.rowblocks * s.packedBytesPerRb = p.weightsNbytes s from rfl,
    Traced.bind_ok hweights, hrc]
  subst hresult
  rfl

omit hp in
theorem waitChunk_eq (col rowblock : Nat) : waitChunk d col rowblock = ⟨[.wait], .ok ()⟩ := by
  unfold waitChunk
  rw [h.works.waitRc]
  rfl

/-- The body of the loop does what its pass says. -/
theorem runChunk_eq (hcol : p.col < s.cols) (dirty : List Dirty) :
    runChunk d a s p.col p.cur p.rowblocks dirty = ⟨p.events d a s, .ok (p.mark d a s dirty)⟩ := by
  have hbounds : inBounds a s.dstHandle (p.dstOffset s) (p.actualNbytes s) = .ok () := by
    have hrange := h.dst_range hp hcol
    rw [h.dst_eq, inBounds, h.inv.getRecord h.dst_live]
    simp only [bind, Except.bind]
    rw [if_neg (by omega)]
  have hview : resultView d a s.dstHandle (p.dstOffset s) (p.paddedNbytes s) (p.actualNbytes s) =
      .ok (p.target d a s) := by
    rcases h.target_cases hp hcol with ⟨i, o, physical, heq, hview, hphysical, htarget, -⟩ |
      ⟨htarget, hview, -⟩
    · rw [htarget, h.dst_eq, resultView, if_pos heq, dstView, hview]
      simp only [slabPhysical, hphysical]
      rfl
    · rw [htarget, hview]
  unfold runChunk Pass.events Pass.mark
  simp only
  rw [show s.weightsBaseOffset + p.cur.rowblock * s.packedBytesPerRb = p.weightsOffset s from rfl,
    show p.rowblocks * ROWS_PER_BLOCK * F32_BYTES = p.paddedNbytes s from rfl,
    show p.cur.chunkRows p.rowblocks * F32_BYTES = p.actualNbytes s from rfl,
    show s.dstBaseOffset + (p.col * s.rows + p.cur.row) * F32_BYTES = p.dstOffset s from rfl, hview,
    Traced.lift_ok_bind]
  cases htarget : p.target d a s with
  | some view =>
    obtain ⟨i, o, physical⟩ := view
    simp only
    rw [Traced.bind_ok (h.startChunk_eq hp _ (by rw [htarget]; rfl)),
      Traced.bind_ok (h.waitChunk_eq _ _)]
    simp
  | none =>
    simp only
    rw [Traced.bind_ok (h.startChunk_eq hp _ (by rw [htarget]; rfl)),
      Traced.bind_ok (h.waitChunk_eq _ _), hbounds]
    simp [Traced.emit, Traced.lift, bind, Traced.bind]

omit hp in
/-- The loop of a column is its passes. -/
theorem chunkLoop_eq {col : Nat} (hcol : col < s.cols) (cur : Cursor s.rows) (dirty : List Dirty) :
    chunkLoop d a s col cur dirty =
      ⟨(passes s weights.extents col cur).flatMap fun p => p.events d a s,
        .ok ((passes s weights.extents col cur).foldl (fun dirty p =>
          p.mark d a s dirty) dirty)⟩ := by
  induction cur using passes_induction weights.extents generalizing dirty with
  | done cur hle =>
    rw [chunkLoop, dif_neg (Nat.not_lt.mpr hle), passes_of_le hle]
    rfl
  | step cur hlt ih =>
    have hp : IsPass s weights.extents ⟨col, cur, passRowblocks s weights.extents cur⟩ := ⟨hlt, rfl⟩
    have hremaining : extentRemaining a s.weightsHandle
        (s.weightsBaseOffset + cur.rowblock * s.packedBytesPerRb) =
        .ok (extentRemainingFrom weights.extents 0
          (s.weightsBaseOffset + cur.rowblock * s.packedBytesPerRb)) := by
      rw [h.weights_eq, extentRemaining, h.inv.getRecord h.weights_live]
      rfl
    rw [chunkLoop, dif_pos hlt, passes_of_lt hlt]
    simp only
    rw [hremaining, Traced.lift_ok_bind]
    rw [show cur.chunkRowblocks s.packedBytesPerRb
        (extentRemainingFrom weights.extents 0
          (s.weightsBaseOffset + cur.rowblock * s.packedBytesPerRb)) =
      passRowblocks s weights.extents cur from rfl,
      Traced.bind_ok (h.runChunk_eq hp hcol dirty), ih]
    rfl

omit hp in
theorem prepareColumn_eq (col : Nat) :
    prepareColumn d s col =
      ⟨[.quantize (s.actsAddr + col * s.k * F32_BYTES) s.k, .packActs s.k], .ok ()⟩ := by
  unfold prepareColumn
  rw [h.works.quantizeRc, h.works.packActsRc]
  rfl

omit hp in
theorem columnLoop_eq (count col : Nat) (hcol : col + count = s.cols) (dirty : List Dirty) :
    columnLoop d a s count col dirty =
      ⟨(List.range' col count).flatMap (columnEvents d a s weights.extents),
        .ok (((List.range' col count).flatMap fun col =>
          passes s weights.extents col (Cursor.zero s.rows)).foldl
          (fun dirty p => p.mark d a s dirty) dirty)⟩ := by
  induction count generalizing col dirty with
  | zero => rfl
  | succ count ih =>
    rw [columnLoop, Traced.bind_ok (h.prepareColumn_eq col),
      Traced.bind_ok (h.chunkLoop_eq (by omega) (Cursor.zero s.rows) dirty),
      ih (col + 1) (by omega)]
    rw [List.range'_succ, List.flatMap_cons, List.flatMap_cons, List.foldl_append]
    simp only [columnEvents, List.append_assoc]

end Ready

theorem invalidateDirty_eq (dirty : List Dirty) :
    invalidateDirty dirty =
      ⟨dirty.map fun entry => .invalidateRange entry.slabIndex entry.lo (entry.hi - entry.lo),
        .ok ()⟩ := by
  induction dirty with
  | nil => rfl
  | cons entry rest ih =>
    rw [invalidateDirty, ih]
    rfl

/-! ## The run of an op -/

/-- The setup of the loops, but for the address of the activations and the buffers. -/
def Job.setup {op : Op} (j : Job a op) (actsAddr : Nat)
    (acts weightsDma result : Buffer) : Setup where
  rows := j.rows
  cols := j.cols
  k := j.k
  packedBytesPerRb := j.k / Q1_BLOCK * Layout.PACKED_PER_Q1_BLOCK
  actsStreamNbytes := j.k / Q1_BLOCK * Layout.ACTS_PER_Q1_BLOCK
  weightsHandle := j.weights.handle
  weightsBaseOffset := j.weightsOffset
  actsAddr := actsAddr
  dstHandle := j.dst.handle
  dstBaseOffset := j.dstOffset
  acts := acts
  weightsDma := weightsDma
  result := result

theorem ensureBuffer_ok (hd : d.Works a.slabs.length) (buffer : Option Buffer) (nbytes : Nat) :
    ∃ buffer', ensureBuffer d buffer nbytes = .ok buffer' ∧ nbytes ≤ buffer'.size := by
  obtain ⟨fresh, hfresh, hsize⟩ := hd.allocate nbytes
  unfold ensureBuffer
  cases buffer with
  | none => exact ⟨fresh, hfresh, by omega⟩
  | some old =>
    simp only
    split
    · exact ⟨fresh, hfresh, by omega⟩
    · exact ⟨old, rfl, by omega⟩

theorem ensureBuffers_ok (hd : d.Works a.slabs.length) (b : Buffers) (actsIn : Option Buffer)
    (actsNbytes weightsDmaNbytes resultNbytes : Nat) :
    ∃ acts weightsDma result, ensureBuffers d b actsIn actsNbytes weightsDmaNbytes resultNbytes =
        .ok (⟨some acts, some weightsDma, some result, actsIn⟩, acts, weightsDma, result) ∧
      actsNbytes ≤ acts.size ∧ weightsDmaNbytes ≤ weightsDma.size ∧ resultNbytes ≤ result.size := by
  obtain ⟨acts, hacts, h1⟩ := ensureBuffer_ok hd b.acts actsNbytes
  obtain ⟨weightsDma, hweights, h2⟩ := ensureBuffer_ok hd b.weightsDma weightsDmaNbytes
  obtain ⟨result, hresult, h3⟩ := ensureBuffer_ok hd b.result resultNbytes
  refine ⟨acts, weightsDma, result, ?_, h1, h2, h3⟩
  rw [ensureBuffers, hacts, hweights, hresult]
  rfl

/-- The activations are used in place, or copied when they span extents. -/
theorem resolveActs_ok {r : TensorRecord} (ha : a.Inv) (hd : d.Works a.slabs.length)
    (hr : r ∈ a.records)
    (scratch : Option Buffer) {offset nbytes : Nat} (hpos : 0 < nbytes)
    (hin : offset + nbytes ≤ r.nbytes) :
    ∃ pre address actsIn, resolveActs d a scratch r.handle offset nbytes =
      ⟨pre, .ok (address, actsIn)⟩ ∧
      (pre = [] ∨ pre = [.copyActs r.handle offset nbytes]) := by
  unfold resolveActs Allocator.slabPointer
  rcases ha.slabView_cases hr hpos hin with ⟨i, o, hview, -, hlt, -⟩ | ⟨message, hview, -⟩
  · obtain ⟨base, hbase⟩ := hd.baseVa i hlt
    refine ⟨[], base + o, scratch, ?_, Or.inl rfl⟩
    rw [hview]
    simp only [bind, Except.bind, hbase]
    rfl
  · obtain ⟨buffer, hbuffer, -⟩ := ensureBuffer_ok hd scratch nbytes
    refine ⟨[.copyActs r.handle offset nbytes], buffer.data, some buffer, ?_, Or.inr rfl⟩
    have hbounds : inBounds a r.handle offset nbytes = .ok () := by
      rw [inBounds, ha.getRecord hr]
      simp only [bind, Except.bind]
      rw [if_neg (by omega)]
    rw [hview]
    simp only [bind, Except.bind]
    rw [hbuffer, hbounds]
    rfl

namespace Job

variable {op : Op} (j : Job a op)

/-- The shape of the op. -/
theorem shape_ok : 1 ≤ j.rows ∧ 1 ≤ j.cols ∧ 1 ≤ j.k ∧ j.k % Q1_BLOCK = 0 := by
  obtain ⟨-, -, -, hrows, hcols, hk, hmod⟩ := checkShape_ok j.shape
  exact ⟨hrows, hcols, hk, hmod⟩

theorem ready (ha : a.Inv) (hd : d.Works a.slabs.length) (actsAddr : Nat) (acts : Buffer)
    {weightsDma result : Buffer}
    (hw : maxRowblocksPerChunk j.rows (j.k / Q1_BLOCK * Layout.PACKED_PER_Q1_BLOCK) *
      (j.k / Q1_BLOCK * Layout.PACKED_PER_Q1_BLOCK) ≤ weightsDma.size)
    (hr : maxRowblocksPerChunk j.rows (j.k / Q1_BLOCK * Layout.PACKED_PER_Q1_BLOCK) *
      ROWS_PER_BLOCK * F32_BYTES ≤
      result.size) :
    Ready d a (j.setup actsAddr acts weightsDma result) j.weights j.dst where
  inv := ha
  works := hd
  packed_pos := by
    obtain ⟨-, -, hk, hmod⟩ := j.shape_ok
    simp only [setup, Q1_BLOCK, Layout.PACKED_PER_Q1_BLOCK] at *
    exact Nat.mul_pos (by omega) (by decide)
  weights_live := j.weights_live
  weights_eq := rfl
  weights_inBounds := by
    have hin := j.weights_inBounds _ (Layout.packedNbytes_ok j.shape_ok.2.2.2 j.rows)
    rw [Nat.mul_assoc] at hin
    exact hin
  dst_live := j.dst_live
  dst_eq := rfl
  dst_inBounds := j.dst_inBounds
  scratch := hw
  result := hr

/-- The checks of a run pass when the bitstream is the right one. -/
theorem run_head (hid : d.checkKernelId = .ok ())
    (hregs : d.regRows = ROWS_PER_BLOCK) (b : Buffers) :
    run d a b op = (do
      Traced.lift d.ensureNative
      let (actsAddr, actsIn) ← resolveActs d a b.actsIn j.acts.handle j.actsOffset
        (j.cols * j.k * F32_BYTES)
      let cap := maxRowblocksPerChunk j.rows (j.k / Q1_BLOCK * Layout.PACKED_PER_Q1_BLOCK)
      let (buffers, acts, weightsDma, result) ← Traced.lift (ensureBuffers d b actsIn
        (j.k / Q1_BLOCK * Layout.ACTS_PER_Q1_BLOCK)
        (cap * (j.k / Q1_BLOCK * Layout.PACKED_PER_Q1_BLOCK))
        (cap * ROWS_PER_BLOCK * F32_BYTES))
      let dirty ← columnLoop d a (j.setup actsAddr acts weightsDma result) j.cols 0 []
      invalidateDirty dirty
      pure buffers) := by
  have hmod := j.shape_ok.2.2.2
  have hrowsPerBlock : readRowsPerBlock d = .ok () := by rw [readRowsPerBlock, if_pos hregs]
  have hpacked : liftLayout (Layout.packedBytesPerRowblock j.k) =
      .ok (j.k / Q1_BLOCK * Layout.PACKED_PER_Q1_BLOCK) := by
    rw [Layout.packedBytesPerRowblock_ok hmod]
    rfl
  have hstream : liftLayout (Layout.actsStreamNbytes j.k) =
      .ok (j.k / Q1_BLOCK * Layout.ACTS_PER_Q1_BLOCK) := by
    rw [Layout.actsStreamNbytes_ok hmod]
    rfl
  unfold run
  rw [j.shape, Traced.lift_ok_bind]
  simp only [hpacked, hstream, j.weights_eq, j.weightsOffset_eq, j.acts_eq, j.actsOffset_eq,
    hid, hrowsPerBlock, j.dst_eq, j.dstOffset_eq, Traced.lift_ok_bind]
  rfl

/-- The run of an op: the activations, the passes of its columns, and the invalidation of what they
    wrote. -/
theorem run_eq (ha : a.Inv) (hd : d.Works a.slabs.length) (b : Buffers) :
    ∃ pre actsAddr actsIn acts weightsDma result,
      let s := j.setup actsAddr acts weightsDma result
      Ready d a s j.weights j.dst ∧
        (pre = [] ∨ pre = [.copyActs j.acts.handle j.actsOffset (j.cols * j.k * F32_BYTES)]) ∧
        run d a b op =
          ⟨pre ++ ((List.range j.cols).flatMap (columnEvents d a s j.weights.extents) ++
            ((allPasses s j.weights.extents).foldl (fun dirty p => p.mark d a s dirty) []).map
              fun entry => .invalidateRange entry.slabIndex entry.lo (entry.hi - entry.lo)),
            .ok ⟨some acts, some weightsDma, some result, actsIn⟩⟩ := by
  obtain ⟨hrows, hcols, hk, hmod⟩ := j.shape_ok
  obtain ⟨pre, actsAddr, actsIn, hacts, hpre⟩ := resolveActs_ok ha hd j.acts_live b.actsIn
    (Nat.mul_pos (Nat.mul_pos hcols hk) (by decide)) j.acts_inBounds
  obtain ⟨acts, weightsDma, result, hbuffers, -, hw, hr⟩ := ensureBuffers_ok hd b actsIn
    (j.k / Q1_BLOCK * Layout.ACTS_PER_Q1_BLOCK) _ _
  have hready := j.ready ha hd actsAddr acts hw hr
  refine ⟨pre, actsAddr, actsIn, acts, weightsDma, result, hready, hpre, ?_⟩
  have hloop := hready.columnLoop_eq j.cols 0 (Nat.zero_add _) []
  rw [← List.range_eq_range'] at hloop
  rw [j.run_head hd.checkKernelId hd.regRows, hd.ensureNative, Traced.lift_ok_bind,
    Traced.bind_ok hacts]
  simp only
  rw [hbuffers, Traced.lift_ok_bind]
  simp only
  rw [Traced.bind_ok hloop, Traced.bind_ok (invalidateDirty_eq _)]
  simp only [Traced.pure_eq, List.append_nil]
  rfl

end Job

end

/-! ## Where the result bytes land -/

/-- A byte of a result: a byte of the lane of a row in a column. -/
structure LaneByte where
  col : Nat
  row : Nat
  byte : Nat
  deriving DecidableEq

/-- The result bytes of `n` rows of a column, from a row on. -/
def laneBytes (col row n : Nat) : List LaneByte :=
  (List.range (n * F32_BYTES)).map fun b => ⟨col, row + b / F32_BYTES, b % F32_BYTES⟩

/-- The byte that belongs at position `b` of the result of a matmul with `rows` rows. -/
def laneAt (rows b : Nat) : LaneByte := ⟨b / F32_BYTES / rows, b / F32_BYTES % rows, b % F32_BYTES⟩

/-- What the kernel emits in a pass: eight lanes for each rowblock it is fed. -/
def Pass.emitted {rows : Nat} (p : Pass rows) : List LaneByte :=
  laneBytes p.col (p.cur.rowblock * ROWS_PER_BLOCK) (p.rowblocks * ROWS_PER_BLOCK)

/-- The bytes of dst that a pass writes, by the DMA or from the result buffer. -/
def Pass.writes {σ : Type} (d : Driver) (a : Allocator σ) (s : Setup) (extents : List Extent)
    (p : Pass s.rows) :
    List (Loc × LaneByte) :=
  match p.target d a s with
  | some (slabIndex, dstAbs, _) => (span slabIndex dstAbs (p.paddedNbytes s)).zip p.emitted
  | none =>
    (rangeLocations extents (p.dstOffset s) (p.actualNbytes s)).zip
      (p.emitted.take (p.actualNbytes s))

theorem take_laneBytes {col row m n : Nat} (h : m ≤ n) :
    (laneBytes col row n).take (m * F32_BYTES) = laneBytes col row m := by
  rw [laneBytes, ← List.map_take, List.take_range,
    Nat.min_eq_left (Nat.mul_le_mul_right _ h), laneBytes]

/-- The lanes of rows of a column are those that belong at their position. -/
theorem laneBytes_eq {col row n rows : Nat} (h : row + n ≤ rows) :
    laneBytes col row n = (List.range' ((col * rows + row) * F32_BYTES) (n * F32_BYTES)).map
      (laneAt rows) := by
  rw [List.range'_eq_map_range, List.map_map, laneBytes]
  apply List.map_congr_left
  intro b hb
  have hlt := List.mem_range.mp hb
  simp only [F32_BYTES] at hlt
  have hquot : ((col * rows + row) * 4 + b) / 4 = row + b / 4 + rows * col := by
    rw [Nat.mul_comm rows]
    omega
  have hrow : row + b / 4 < rows := by omega
  have hrem : ((col * rows + row) * 4 + b) % 4 = b % 4 := by omega
  simp only [Function.comp, laneAt, F32_BYTES, hquot, hrem,
    Nat.add_mul_div_left _ _ (Nat.zero_lt_of_lt hrow), Nat.add_mul_mod_self_left,
    Nat.div_eq_of_lt hrow, Nat.mod_eq_of_lt hrow, Nat.zero_add]

section

variable {σ : Type} {d : Driver} {a : Allocator σ} {s : Setup} {weights dst : TensorRecord}

namespace Ready

variable (h : Ready d a s weights dst)

include h

/-- A pass writes the result bytes of its rows to their range of dst. -/
theorem writes_eq {p : Pass s.rows} (hp : IsPass s weights.extents p) (hcol : p.col < s.cols) :
    p.writes d a s dst.extents =
      (rangeLocations dst.extents (p.dstOffset s) (p.actualNbytes s)).zip
        ((List.range' ((p.col * s.rows + p.cur.row) * F32_BYTES) (p.actualNbytes s)).map
          (laneAt s.rows)) := by
  have hrow := (p.cur.rowblock_lt hp.row_lt).1
  have hlanes : p.emitted.take (p.actualNbytes s) =
      (List.range' ((p.col * s.rows + p.cur.row) * F32_BYTES) (p.actualNbytes s)).map
        (laneAt s.rows) := by
    have hle : p.cur.chunkRows p.rowblocks ≤ p.rowblocks * ROWS_PER_BLOCK := Nat.min_le_left _ _
    rw [Pass.emitted, ← hrow, Pass.actualNbytes, take_laneBytes hle, laneBytes_eq hp.rows_le]
  rw [← hlanes]
  unfold Pass.writes
  rcases h.target_cases hp hcol
    with ⟨i, o, physical, heq, -, -, htarget, -, hlocs⟩ | ⟨htarget, -, -⟩
  · rw [htarget, hlocs, ← heq,
      List.take_of_length_le (Nat.le_of_eq (by simp [Pass.emitted, laneBytes, Pass.paddedNbytes]))]
  · rw [htarget]

theorem dst_extents : s.dstBaseOffset + s.rows * s.cols * F32_BYTES ≤ extentBytes dst.extents := by
  rw [h.inv.sums dst h.dst_live]
  exact h.dst_inBounds

/-- The passes of a column write its result bytes, each to its place. -/
theorem column_writes {col : Nat} (hcol : col < s.cols) (cur : Cursor s.rows) :
    (passes s weights.extents col cur).flatMap (fun p => p.writes d a s dst.extents) =
      (rangeLocations dst.extents (s.dstBaseOffset + (col * s.rows + cur.row) * F32_BYTES)
        ((s.rows - cur.row) * F32_BYTES)).zip
        ((List.range' ((col * s.rows + cur.row) * F32_BYTES) ((s.rows - cur.row) * F32_BYTES)).map
          (laneAt s.rows)) := by
  induction cur using passes_induction weights.extents with
  | done cur hle =>
    rw [passes_of_le hle, Nat.sub_eq_zero_of_le hle]
    simp
  | step cur hlt ih =>
    have hp : IsPass s weights.extents ⟨col, cur, passRowblocks s weights.extents cur⟩ := ⟨hlt, rfl⟩
    have hrange := h.dst_range hp hcol
    rw [passes_of_lt hlt, List.flatMap_cons, h.writes_eq hp hcol, ih]
    have hrows : cur.row + cur.chunkRows (passRowblocks s weights.extents cur) ≤ s.rows :=
      hp.rows_le
    generalize hn : cur.chunkRows (passRowblocks s weights.extents cur) = n at *
    have hnext : (cur.advance (passRowblocks s weights.extents cur)).row = cur.row + n := by
      rw [← hn]; rfl
    have hsplit : (s.rows - cur.row) * F32_BYTES =
        n * F32_BYTES + (s.rows - (cur.row + n)) * F32_BYTES := by
      simp only [F32_BYTES]
      omega
    have hoff : (col * s.rows + (cur.row + n)) * F32_BYTES = (col * s.rows + cur.row) * F32_BYTES +
        n * F32_BYTES := by
      rw [← Nat.add_assoc, Nat.add_mul]
    rw [hnext, hsplit, rangeLocations_append, hoff, ← Nat.add_assoc, ← List.range'_append_1,
      List.map_append]
    simp only [Pass.actualNbytes, Pass.dstOffset, hn]
    rw [List.zip_append]
    rw [length_rangeLocations, List.length_map, List.length_range']
    rw [h.inv.sums dst h.dst_live]
    simpa only [Pass.actualNbytes, Pass.dstOffset, hn] using hrange.2

/-- All passes together write every byte of the result once, in order, to its place. -/
theorem all_writes :
    (allPasses s weights.extents).flatMap (fun p => p.writes d a s dst.extents) =
      (rangeLocations dst.extents s.dstBaseOffset (s.rows * s.cols * F32_BYTES)).zip
        ((List.range (s.rows * s.cols * F32_BYTES)).map (laneAt s.rows)) := by
  have hcolumns : ∀ n ≤ s.cols, ((List.range n).flatMap fun col =>
      passes s weights.extents col (Cursor.zero s.rows)).flatMap (fun p =>
        p.writes d a s dst.extents) =
      (rangeLocations dst.extents s.dstBaseOffset (s.rows * n * F32_BYTES)).zip
        ((List.range (s.rows * n * F32_BYTES)).map (laneAt s.rows)) := by
    intro n
    induction n with
    | zero =>
      intro _
      simp [rangeLocations]
    | succ n ih =>
      intro hn
      have hlen : (rangeLocations dst.extents s.dstBaseOffset (s.rows * n * F32_BYTES)).length =
          s.rows * n * F32_BYTES := by
        have hle := Nat.mul_le_mul_right F32_BYTES (Nat.mul_le_mul_left s.rows (Nat.le_of_lt hn))
        have hdst := h.dst_extents
        exact length_rangeLocations (by omega)
      have hsplit : s.rows * (n + 1) * F32_BYTES = s.rows * n * F32_BYTES + s.rows * F32_BYTES := by
        rw [Nat.mul_succ, Nat.add_mul]
      rw [List.range_succ, List.flatMap_append, List.flatMap_append, ih (Nat.le_of_lt hn),
        List.flatMap_singleton, h.column_writes hn, hsplit, rangeLocations_append,
        List.range_eq_range', List.range_eq_range', ← List.range'_append_1, List.map_append,
        List.zip_append (by rw [hlen]; simp)]
      simp [Cursor.zero, Nat.mul_comm n]
  exact hcolumns s.cols (Nat.le_refl _)

end Ready

/-- The passes of a matmul do the whole of it: in every column they take all rowblocks once
    and in order, each from one extent or alone through the scratch buffer; the results
    fit where they go; every byte of dst is written once, with the lane it is for. -/
structure Complete (d : Driver) (a : Allocator σ) (s : Setup)
    (weights dst : TensorRecord) : Prop where
  rowblocks : ∀ col, (passes s weights.extents col (Cursor.zero s.rows)).flatMap
    (fun p => List.range' p.cur.rowblock p.rowblocks) = List.range (Layout.rowblocksFor s.rows)
  sources : ∀ p ∈ allPasses s weights.extents,
    (∃ i o physical, p.source d a s = some (i, o, physical) ∧
      InOneExtent weights.extents i o (p.weightsNbytes s) ∧
      rangeLocations weights.extents (p.weightsOffset s) (p.weightsNbytes s) =
        span i o (p.weightsNbytes s)) ∨
    p.source d a s = none ∧ p.rowblocks = 1 ∧ p.weightsNbytes s ≤ s.weightsDma.size
  targets : ∀ p ∈ allPasses s weights.extents,
    (∃ i o physical, p.target d a s = some (i, o, physical) ∧ p.paddedNbytes s = p.actualNbytes s ∧
      InOneExtent dst.extents i o (p.paddedNbytes s) ∧
      rangeLocations dst.extents (p.dstOffset s) (p.actualNbytes s) = span i o (p.paddedNbytes s)) ∨
    p.target d a s = none ∧ p.paddedNbytes s ≤ s.result.size
  writes : (allPasses s weights.extents).flatMap (fun p => p.writes d a s dst.extents) =
    (rangeLocations dst.extents s.dstBaseOffset (s.rows * s.cols * F32_BYTES)).zip
      ((List.range (s.rows * s.cols * F32_BYTES)).map (laneAt s.rows))
  once : (rangeLocations dst.extents s.dstBaseOffset (s.rows * s.cols * F32_BYTES)).Nodup ∧
    (rangeLocations dst.extents s.dstBaseOffset (s.rows * s.cols * F32_BYTES)).length =
      s.rows * s.cols * F32_BYTES
  noPadding : ∀ w ∈ (allPasses s weights.extents).flatMap (fun p => p.writes d a s dst.extents),
    w.2.row < s.rows

theorem isPass_of_mem_all {p : Pass s.rows} (hp : p ∈ allPasses s weights.extents) :
    IsPass s weights.extents p ∧ p.col < s.cols := by
  obtain ⟨col, hcol, hmem⟩ := List.mem_flatMap.mp hp
  obtain ⟨hpass, rfl⟩ := isPass_of_mem p hmem
  exact ⟨hpass, List.mem_range.mp hcol⟩

theorem Ready.complete (h : Ready d a s weights dst) : Complete d a s weights dst where
  rowblocks col := by
    rw [passes_rowblocks, List.range_eq_range']
    rfl
  sources p hp := by
    rcases h.source_cases (isPass_of_mem_all hp).1
      with ⟨i, o, physical, -, -, hsource, hone⟩ | ⟨-, -, hsource⟩
    · exact Or.inl ⟨i, o, _, hsource, hone⟩
    · exact Or.inr hsource
  targets p hp := by
    obtain ⟨hpass, hcol⟩ := isPass_of_mem_all hp
    rcases h.target_cases hpass hcol with ⟨i, o, physical, heq, -, -, htarget, hone⟩ |
      ⟨htarget, -, hfit⟩
    · exact Or.inl ⟨i, o, _, htarget, heq, hone⟩
    · exact Or.inr ⟨htarget, hfit⟩
  writes := h.all_writes
  once := by
    refine ⟨?_, length_rangeLocations h.dst_extents⟩
    exact ((h.inv.separate h.dst_live).1.sublist (List.drop_sublist _ _)).sublist
      (List.take_sublist _ _)
  noPadding w hw := by
    rw [h.all_writes] at hw
    obtain ⟨b, hb, hlane⟩ := List.mem_map.mp (List.of_mem_zip hw).2
    have hrows : 0 < s.rows := by
      rcases Nat.eq_zero_or_pos s.rows with hzero | hpos
      · rw [hzero, Nat.zero_mul, Nat.zero_mul] at hb
        cases hb
      · exact hpos
    rw [← hlane]
    exact Nat.mod_lt _ hrows

/-- For every op with its ranges in bounds and every layout of its tensors, the driver
    returns, its calls are those of its passes, and the passes are complete. -/
theorem matmul_passes {op : Op} (j : Job a op) (ha : a.Inv)
    (hd : d.Works a.slabs.length) (b : Buffers) :
    ∃ pre actsAddr actsIn acts weightsDma result,
      let s := j.setup actsAddr acts weightsDma result
      run d a b op =
          ⟨pre ++ ((List.range j.cols).flatMap (columnEvents d a s j.weights.extents) ++
            ((allPasses s j.weights.extents).foldl (fun dirty p => p.mark d a s dirty) []).map
              fun entry => .invalidateRange entry.slabIndex entry.lo (entry.hi - entry.lo)),
            .ok ⟨some acts, some weightsDma, some result, actsIn⟩⟩ ∧
        (pre = [] ∨ pre = [.copyActs j.acts.handle j.actsOffset (j.cols * j.k * F32_BYTES)]) ∧
        Complete d a s j.weights j.dst := by
  obtain ⟨pre, actsAddr, actsIn, acts, weightsDma, result, hready, hpre, hrun⟩ := j.run_eq ha hd b
  exact ⟨pre, actsAddr, actsIn, acts, weightsDma, result, hrun, hpre, hready.complete⟩

end

/-! ### A matmul over fragmented tensors -/

/-- Slabs in which 432 bytes of weights and 160 bytes of results are split in two. -/
def fragmentedStart : Allocator Unit :=
  let slabs : List (Slab Unit) := [⟨216, ()⟩, ⟨216, ()⟩, ⟨1024, ()⟩, ⟨100, ()⟩, ⟨60, ()⟩]
  ⟨slabs, slabs.map fun slab => [(0, slab.size)], [], 1, 1⟩

def fragmentedAllocator : Allocator Unit :=
  let attrs : Attrs := ⟨[], "u8", "tensor", "raw"⟩
  (calls ⟨fun _ _ _ _ => ([], ()), fun _ _ _ _ => ()⟩ fragmentedStart
    [.allocate 1024 attrs none, .allocate 432 attrs none, .allocate 160 attrs none]).2

theorem fragmentedAllocator_inv : fragmentedAllocator.Inv :=
  Allocator.Inv.calls (Allocator.Inv.init (show Allocator.init fragmentedStart.slabs 1 =
    .ok fragmentedStart from rfl)) _ _

theorem quietDriver_works (slabs : Nat) : quietDriver.Works slabs where
  ensureNative := rfl
  checkKernelId := rfl
  regRows := rfl
  allocate _ := ⟨_, rfl, rfl⟩
  pynqBuffer _ _ := ⟨_, rfl⟩
  baseVa _ _ := ⟨_, rfl⟩
  quantizeRc _ := rfl
  packActsRc _ := rfl
  startRc _ _ := rfl
  waitRc _ _ := rfl

/-- Twenty rows and two columns: the second rowblock of the weights straddles their
    extents, the third is partial, and a pass of the second column straddles those of dst. -/
def fragmentedOp : Op :=
  ⟨some (some 20), some (some 2), some (some 128), some (some 2), none, some (some 1), none,
    some (some 3), none⟩

def fragmentedJob : Job fragmentedAllocator fragmentedOp where
  rows := 20
  cols := 2
  k := 128
  weights := ⟨2, 432, [], "u8", "tensor", "raw", [⟨0, 0, 216⟩, ⟨1, 0, 216⟩]⟩
  weightsOffset := 0
  acts := ⟨1, 1024, [], "u8", "tensor", "raw", [⟨2, 0, 1024⟩]⟩
  actsOffset := 0
  dst := ⟨3, 160, [], "u8", "tensor", "raw", [⟨3, 0, 100⟩, ⟨4, 0, 60⟩]⟩
  dstOffset := 0
  shape := rfl
  weights_eq := rfl
  weightsOffset_eq := rfl
  acts_eq := rfl
  actsOffset_eq := rfl
  dst_eq := rfl
  dstOffset_eq := rfl
  weights_live := by decide +kernel
  acts_live := by decide +kernel
  dst_live := by decide +kernel
  weights_inBounds n hn := by
    cases hn
    decide
  acts_inBounds := by decide
  dst_inBounds := by decide

theorem matmul_passes_fragmented :
    fragmentedAllocator.Inv ∧ quietDriver.Works fragmentedAllocator.slabs.length ∧
      ∃ actsAddr acts weightsDma result,
        let s := fragmentedJob.setup actsAddr acts weightsDma result
        (∃ b, (run quietDriver fragmentedAllocator noBuffers fragmentedOp).result = .ok b) ∧
          ((allPasses s fragmentedJob.weights.extents).flatMap fun p =>
            p.writes quietDriver fragmentedAllocator s fragmentedJob.dst.extents).length = 160 := by
  refine ⟨fragmentedAllocator_inv, quietDriver_works _, ?_⟩
  obtain ⟨pre, actsAddr, actsIn, acts, weightsDma, result, hrun, -, hcomplete⟩ :=
    matmul_passes fragmentedJob fragmentedAllocator_inv (quietDriver_works _) noBuffers
  refine ⟨actsAddr, acts, weightsDma, result, ⟨_, by rw [hrun]⟩, ?_⟩
  rw [hcomplete.writes, List.length_zip, hcomplete.once.2, List.length_map, List.length_range]
  rfl

end Board.Matmul
