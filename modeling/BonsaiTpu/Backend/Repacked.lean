-- SUMMARY: Views and copies of a repacked weight matrix: when MATMUL_Q1A8 and GET_ROWS decode the rows of the source from them (`buffer.cpp`, `lowering.cpp`).
import BonsaiTpu.Backend.Acceptance
import BonsaiTpu.Backend.Buffer
import BonsaiTpu.Layout.Parts
import BonsaiTpu.Ps.FlashAttn
import Mathlib.Tactic.Ring

/-!
# Views and copies of repacked weights

The offset of a view and the size of a copy are those of ggml's Q1_0 rows, while a matrix
that was set whole is stored by rowblocks. `repacked_weights_iff` says when the two
agree: for the views that start at a rowblock, and for the copies that have the rows of
the matrix and end with one.
-/

namespace Backend

open Layout (Q1_BLOCK Q1_BLOCK_BYTES ROWS_PER_BLOCK PACKED_PER_Q1_BLOCK rowblocksFor packed
  packWeightsC Sized rowScale rowBits Read spike)
open Words (Byte store)
open Ps (Operand)

/-! ## What the board is given -/

/-- The bytes of each allocation on the board, by handle. -/
abbrev Allocations := Nat → List Byte

/-- `size_t` on the board. -/
def boardSizeBits : Nat := 32

/-- A Q1_0 operand of MATMUL_Q1A8 or GET_ROWS: bytes that are taken as packed weights. -/
structure Weights where
  handle : Nat
  offset : Nat
  rows : Nat
  k : Nat

namespace Weights

variable (w : Weights) (mem : Allocations)

def bpr : Nat := w.k / Q1_BLOCK

/-- `packed_nbytes`. -/
def nbytes : Nat := rowblocksFor w.rows * w.bpr * PACKED_PER_Q1_BLOCK

/-- The bytes that a matmul resolves. -/
def bytes : List Byte := ((mem w.handle).drop w.offset).take w.nbytes

/-- The bytes that GET_ROWS resolves for a row. -/
def rowblock (r : Nat) : List Byte :=
  ((mem w.handle).drop (w.offset + r / ROWS_PER_BLOCK * (w.bpr * PACKED_PER_Q1_BLOCK))).take
    (w.bpr * PACKED_PER_Q1_BLOCK)

/-- All readers get the rows of the source from row `r0` on. -/
def Decodes (src : List Byte) (r0 : Nat) : Prop :=
  ∀ r < w.rows, ∀ q < w.bpr, ∀ s < 4,
    Read boardSizeBits (w.bytes mem) w.bpr r q s (rowScale src w.bpr (r0 + r) q)
      (rowBits src w.bpr (r0 + r) q s) ∧
      Ps.getRowsScale boardSizeBits (w.rowblock mem r) w.bpr (r % ROWS_PER_BLOCK) q =
        some (rowScale src w.bpr (r0 + r) q) ∧
      Ps.getRowsBits boardSizeBits (w.rowblock mem r) w.bpr (r % ROWS_PER_BLOCK) q s =
        some (rowBits src w.bpr (r0 + r) q s)

/-- The bytes that are read are among `size` bytes of an allocation. -/
def Within (handle offset size : Nat) : Prop :=
  w.handle = handle ∧ offset ≤ w.offset ∧ w.offset + w.nbytes ≤ offset + size

end Weights

/-- The operand for a tensor at its binding. -/
def weightsOf (t : Tensor) (binding : RemoteBinding) : Weights :=
  ⟨binding.handle, binding.remoteOffset, (t.ne 1).toNat, (t.ne 0).toNat⟩

/-- Every MUL_MAT and every GET_ROWS node over the tensor that is lowered has this operand. -/
def LoweredTo (t : Strided) (w : Weights) : Prop :=
  (∀ blckSize node op call, node.src 0 = some t → supportsMatmulQ1a8 blckSize node.toNode = true →
    appendMatmulOp node = some op → Ps.prepareMatmul op = .ok call →
    call.weights = ⟨w.handle, w.offset, w.nbytes⟩ ∧ call.rows = w.rows ∧ call.k = w.k) ∧
  ∀ blckSize node op tag call, node.src 0 = some t → supportsGetRows blckSize node = true →
    appendGetRowsOp node = some op → Ps.prepareGetRows op = .ok (tag, call) →
    tag = "q1_0" ∧ call.src0.handle = w.handle ∧ call.src0.offset = w.offset ∧ call.ne01 = w.rows ∧
      call.headDim = w.k

/-- `Copy.run` on operands of one type. -/
def rawCopy (mem : Allocations) (src dst : Operand) : Option Allocations := do
  let nbytes := src.nbytes.toNat
  if src.offset + nbytes ≤ (mem src.handle).length then
    let bytes ← store (mem dst.handle) dst.offset (((mem src.handle).drop src.offset).take nbytes)
    some (Function.update mem dst.handle bytes)
  else none

/-! ## A matrix, its views and its copies -/

/-- A Q1_0 matrix with a range of its own in a buffer. -/
structure Matrix where
  ctx : BufferContext
  pointer : Option Nat
  t : Tensor
  binding : RemoteBinding
  repackable : isRepackableQ1_0 t = true
  sized : Q1Sized t
  bound : initTensor ctx none pointer t = some binding
  onBoard : binding.handleNbytes < 2 ^ boardSizeBits

namespace Matrix

variable (m : Matrix)

def rows : Nat := (m.t.ne 1).toNat

def k : Nat := (m.t.ne 0).toNat

def bpr : Nat := m.k / Q1_BLOCK

/-- A byte of the range that the matrix has on the board. -/
def InRange (handle i : Nat) : Prop :=
  handle = m.binding.handle ∧ m.binding.remoteOffset ≤ i ∧
    i < m.binding.remoteOffset + m.binding.tensorNbytes

/-- The whole matrix is set. -/
def upload (mem : Allocations) (data : List Byte) : Option Allocations :=
  (setTensor m.t m.binding (mem m.binding.handle) ⟨0, data⟩).map
    (Function.update mem m.binding.handle)

end Matrix

/-- The allocation of a binding has the size that the host knows. -/
def Allocated (mem : Allocations) (binding : RemoteBinding) : Prop :=
  (mem binding.handle).length = binding.handleNbytes

/-- A view of rows of the matrix; its offset is that of its first row in ggml. -/
structure RowView (m : Matrix) where
  v : Tensor
  r0 : Nat
  rows : Nat
  pos : 0 < rows
  within : r0 + rows ≤ m.rows
  isQ1_0 : v.type = .q1_0
  shape : v.ne 0 = m.t.ne 0 ∧ v.ne 1 = rows ∧ v.ne 2 = 1 ∧ v.ne 3 = 1
  contiguous : v.isContiguous = true
  nbytes : v.nbytes = rows * m.bpr * Q1_BLOCK_BYTES
  pointer : Option Nat
  binding : RemoteBinding
  bound : initTensor m.ctx (some (some m.binding, r0 * m.bpr * Q1_BLOCK_BYTES)) pointer
    v = some binding

/-- Whatever is set and whatever the allocations held: setting the matrix writes only its
    range, and the operand of the view is in it and decodes to the rows of the view. -/
def RowView.Correct {m : Matrix} (v : RowView m) : Prop :=
  ∀ mem data, Allocated mem m.binding → data.length = m.t.nbytes → ∃ mem',
    m.upload mem data = some mem' ∧
      (∀ handle i, ¬ m.InRange handle i → (mem' handle)[i]? = (mem handle)[i]?) ∧
      (weightsOf v.v v.binding).Within m.binding.handle m.binding.remoteOffset
        m.binding.tensorNbytes ∧
      (weightsOf v.v v.binding).Decodes mem' data v.r0

/-- The destination of a copy of the matrix: a matrix of the same size, bound by itself or
    as a view. The ranges of the two do not overlap. -/
structure CopyOf (m : Matrix) where
  d : Tensor
  repackable : isRepackableQ1_0 d = true
  sized : Q1Sized d
  nbytes : d.nbytes = m.t.nbytes
  ctx : BufferContext
  view : Option (Option RemoteBinding × Nat)
  pointer : Option Nat
  binding : RemoteBinding
  bound : initTensor ctx view pointer d = some binding
  onBoard : q1_0PackedSize d < 2 ^ boardSizeBits
  handleSize : binding.handle = m.binding.handle → binding.handleNbytes = m.binding.handleNbytes
  apart : binding.handle = m.binding.handle →
    binding.remoteOffset + q1_0PackedSize d ≤ m.binding.remoteOffset ∨
      m.binding.remoteOffset + q1_0PackedSize m.t ≤ binding.remoteOffset

/-- The operands of the copy. -/
def CopyOf.operands {m : Matrix} (c : CopyOf m) : Operand × Operand :=
  (⟨m.binding.handle, m.binding.remoteOffset, m.t.nbytes⟩,
    ⟨c.binding.handle, c.binding.remoteOffset, m.t.nbytes⟩)

/-- Every CPY node of the two that is lowered has these operands. -/
def CopyOf.Lowered {m : Matrix} (c : CopyOf m) : Prop :=
  ∀ node op src dst call, node.src 0 = some src → node.src 1 = some dst → src.toTensor = m.t →
    src.binding = some m.binding →
    dst.toTensor = c.d → dst.binding = some c.binding → appendCopyOp node = some op →
    Ps.prepareCopy op = .ok call →
    call = .raw c.operands.1 c.operands.2

/-- Whatever is set and whatever the allocations held: the copy writes only its destination,
    whose operand is in its range and decodes to the rows that ggml has for the copy. -/
def CopyOf.Correct {m : Matrix} (c : CopyOf m) : Prop :=
  ∀ mem data, Allocated mem m.binding → Allocated mem c.binding →
    data.length = m.t.nbytes → ∃ mem' mem'',
    m.upload mem data = some mem' ∧ rawCopy mem' c.operands.1 c.operands.2 = some mem'' ∧
      (∀ handle i, ¬ (handle = c.binding.handle ∧ c.binding.remoteOffset ≤ i ∧
        i < c.binding.remoteOffset + c.d.nbytes) →
        (mem'' handle)[i]? = (mem' handle)[i]?) ∧
      (weightsOf c.d c.binding).Within c.binding.handle c.binding.remoteOffset
        c.binding.tensorNbytes ∧
      (weightsOf c.d c.binding).Decodes mem'' data 0

/-! ## Lowered nodes -/

section Lowered

variable {node : GraphNode} {op : Ps.Op} {t : Strided} {binding : RemoteBinding}

theorem prepareMatmul_weights (hbinding : t.binding = some binding) (hsrc : node.src 0 = some t)
    (ha : appendMatmulOp node = some op) {call : Ps.MatmulCall}
    (hcall : Ps.prepareMatmul op = .ok call) :
    let w := weightsOf t.toTensor binding
    call.weights = ⟨w.handle, w.offset, w.nbytes⟩ ∧ call.rows = w.rows ∧ call.k = w.k := by
  simp only [appendMatmulOp, hsrc, Option.bind_eq_bind, Option.bind_some, Option.bind_eq_some_iff,
    Option.some.injEq] at ha
  obtain ⟨acts, hacts, mop, hmop, rfl⟩ := ha
  unfold appendMatmulQ1a8Op at hmop
  split at hmop
  · next weightsB actsB dstB hweights _ _ =>
    split at hmop
    · cases hmop
      obtain rfl : binding = weightsB := Option.some.inj (hbinding.symm.trans hweights)
      obtain ⟨rows, hrows, hcall⟩ := Ps.bind_eq_ok.mp hcall
      obtain ⟨cols, hcols, hcall⟩ := Ps.bind_eq_ok.mp hcall
      obtain ⟨k, hk, hcall⟩ := Ps.bind_eq_ok.mp hcall
      split at hcall
      · cases hcall
      · next hblock =>
        obtain ⟨nbytes, hnbytes, hcall⟩ := Ps.bind_eq_ok.mp hcall
        obtain ⟨weights, hweights, hcall⟩ := Ps.bind_eq_ok.mp hcall
        obtain ⟨acts, -, hcall⟩ := Ps.bind_eq_ok.mp hcall
        obtain ⟨dst, -, hcall⟩ := Ps.bind_eq_ok.mp hcall
        cases hcall
        have hrows' : t.ne 1 = rows := Option.some.inj (Ps.required_eq_ok hrows)
        have hk' : t.ne 0 = k := Option.some.inj (Ps.required_eq_ok hk)
        obtain ⟨hhandle, hoffset, hsize⟩ := Ps.operand_eq_ok hweights
        have hhandle' : (binding.handle : Int) = weights.handle := Option.some.inj hhandle
        have hoffset' : (binding.remoteOffset : Int) = weights.offset := hoffset _ rfl
        have hpacked := Board.Matmul.liftLayout_ok (Layout.packedNbytes_ok (by omega) rows) hnbytes
        obtain ⟨handle, offset, size⟩ := weights
        simp only at hhandle' hoffset' hsize
        simp only [weightsOf, Weights.nbytes, Weights.bpr, hrows', hk', hsize, hpacked,
          Int.toNat_natCast, Nat.cast_inj.mp hhandle', Nat.cast_inj.mp hoffset', and_self]
    · cases hmop
  · cases hmop

theorem prepareGetRows_src0 (htype : t.type = .q1_0) (hbinding : t.binding = some binding)
    (hsrc : node.src 0 = some t)
    (ha : appendGetRowsOp node = some op) {tag : String} {call : Ps.RowsCall}
    (hcall : Ps.prepareGetRows op = .ok (tag, call)) :
    let w := weightsOf t.toTensor binding
    tag = "q1_0" ∧ call.src0.handle = w.handle ∧ call.src0.offset = w.offset ∧ call.ne01 = w.rows ∧
      call.headDim = w.k := by
  simp only [appendGetRowsOp, hsrc, Option.bind_eq_bind, Option.bind_some, Option.bind_eq_some_iff,
    Option.some.injEq] at ha
  obtain ⟨src1, -, src0B, hsrc0B, src1B, -, dstB, -, rfl⟩ := ha
  obtain rfl : binding = src0B :=
    Option.some.inj (hbinding.symm.trans (Strided.remote_eq_some hsrc0B).1)
  unfold Ps.prepareGetRows at hcall
  dsimp only at hcall
  split at hcall
  · cases hcall
  · split at hcall
    · cases hcall
    · obtain ⟨headDim, hdim, hcall⟩ := Ps.bind_eq_ok.mp hcall
      obtain ⟨ne01, hne01, hcall⟩ := Ps.bind_eq_ok.mp hcall
      obtain ⟨ne10, -, hcall⟩ := Ps.bind_eq_ok.mp hcall
      obtain ⟨strides, -, hcall⟩ := Ps.bind_eq_ok.mp hcall
      obtain ⟨src0, hsrc0, hcall⟩ := Ps.bind_eq_ok.mp hcall
      obtain ⟨dst, -, hcall⟩ := Ps.bind_eq_ok.mp hcall
      obtain ⟨indices, -, hcall⟩ := Ps.bind_eq_ok.mp hcall
      cases hcall
      obtain ⟨hhandle, hoffset, -⟩ := Ps.operand_eq_ok hsrc0
      have hhandle' : (binding.handle : Int) = src0.handle := Option.some.inj hhandle
      have hoffset' : (binding.remoteOffset : Int) = src0.offset := hoffset _ rfl
      have hrows' : t.ne 1 = ne01 := Option.some.inj (Ps.positive_eq_ok hne01).1
      have hk' : t.ne 0 = headDim := Option.some.inj (Ps.positive_eq_ok hdim).1
      simp only [weightsOf, hrows', hk', Int.toNat_natCast, Nat.cast_inj.mp hhandle',
        Nat.cast_inj.mp hoffset', and_self, and_true]
      simp [Ps.Op.tagOr, htype, typeTag]

theorem loweredTo (htype : t.type = .q1_0) (hbinding : t.binding = some binding) :
    LoweredTo t (weightsOf t.toTensor binding) :=
  ⟨fun _ _ _ _ hsrc _ ha hcall => prepareMatmul_weights hbinding hsrc ha hcall,
    fun _ _ _ _ _ hsrc _ ha hcall => prepareGetRows_src0 htype hbinding hsrc ha hcall⟩

theorem CopyOf.lowered {m : Matrix} (c : CopyOf m) : c.Lowered := by
  intro node op src dst call hsrc hdst hsrcT hsrcB hdstT hdstB ha hcall
  simp only [appendCopyOp, hsrc, hdst, Option.bind_eq_bind, Option.bind_some,
    Option.bind_eq_some_iff, Option.some.injEq] at ha
  obtain ⟨srcB, hsrcB', dstB, hdstB', rfl⟩ := ha
  obtain rfl : m.binding = srcB :=
    Option.some.inj (hsrcB.symm.trans (Strided.remote_eq_some hsrcB').1)
  obtain rfl : c.binding = dstB :=
    Option.some.inj (hdstB.symm.trans (Strided.remote_eq_some hdstB').1)
  have htype : src.type = .q1_0 := by
    have hr := m.repackable
    simp only [isRepackableQ1_0, Bool.and_eq_true, decide_eq_true_eq] at hr
    rw [hsrcT]
    exact hr.1.1
  unfold Ps.prepareCopy at hcall
  dsimp only at hcall
  split at hcall
  · next hconvert =>
    simp [Ps.Op.tagOr, List.lookup_cons, htype, typeTag] at hconvert
  · obtain ⟨nbytes, hnbytes, hcall⟩ := Ps.bind_eq_ok.mp hcall
    obtain ⟨srcO, hsrcO, hcall⟩ := Ps.bind_eq_ok.mp hcall
    obtain ⟨dstO, hdstO, hcall⟩ := Ps.bind_eq_ok.mp hcall
    cases hcall
    have hsize : (m.t.nbytes : Int) = nbytes := by
      rw [← hsrcT]
      exact Option.some.inj (Ps.required_eq_ok hnbytes)
    obtain ⟨hhandle, hoffset, hsrcN⟩ := Ps.operand_eq_ok hsrcO
    obtain ⟨hhandle', hoffset', hdstN⟩ := Ps.operand_eq_ok hdstO
    have hsrcH : (m.binding.handle : Int) = srcO.handle := Option.some.inj hhandle
    have hdstH : (c.binding.handle : Int) = dstO.handle := Option.some.inj hhandle'
    have hsrcOff : (m.binding.remoteOffset : Int) = srcO.offset := hoffset _ rfl
    have hdstOff : (c.binding.remoteOffset : Int) = dstO.offset := hoffset' _ rfl
    obtain ⟨srcHandle, srcOffset, srcNbytes⟩ := srcO
    obtain ⟨dstHandle, dstOffset, dstNbytes⟩ := dstO
    simp only at hsrcH hdstH hsrcOff hdstOff hsrcN hdstN
    simp only [CopyOf.operands, hsize, hsrcN, hdstN, Nat.cast_inj.mp hsrcH, Nat.cast_inj.mp hdstH,
      Nat.cast_inj.mp hsrcOff, Nat.cast_inj.mp hdstOff]

end Lowered

/-! ## The matrix on the board -/

/-- The sizes of a matrix whose packed size is one on the board. -/
theorem sized_onBoard {t : Tensor} (hr : isRepackableQ1_0 t = true) (hs : Q1Sized t)
    (h : q1_0PackedSize t < 2 ^ boardSizeBits) :
    Sized boardSizeBits (t.ne 1).toNat (t.ne 0).toNat := by
  obtain ⟨-, -, hsized⟩ := isRepackableQ1_0_sized hr hs
  refine ⟨hsized.rowsPos, hsized.rowsLt, hsized.kPos, hsized.kLt, hsized.block, Or.inr ?_⟩
  rwa [← q1_0PackedSize_eq hr hs]

namespace Matrix

variable (m : Matrix)

theorem packedSize : q1_0PackedSize m.t = rowblocksFor m.rows * m.bpr * PACKED_PER_Q1_BLOCK :=
  q1_0PackedSize_eq m.repackable m.sized

theorem nbytes : m.t.nbytes = m.rows * m.bpr * Q1_BLOCK_BYTES := m.sized.nbytes

/-- The range of the matrix has its packed size. -/
theorem range : m.binding.tensorNbytes = q1_0PackedSize m.t ∧
    m.binding.remoteOffset + q1_0PackedSize m.t ≤ m.binding.handleNbytes := by
  have h := m.bound
  unfold initTensor at h
  simp only at h
  have hsize : effectiveAllocSize m.t = q1_0PackedSize m.t := if_pos m.repackable
  split at h
  · cases h
  · split at h
    · cases h
    · split at h
      · next hvalid =>
        rw [← Option.some.inj h]
        simp only [remoteRangeIsValid, decide_eq_true_eq, hsize] at hvalid ⊢
        exact ⟨trivial, by omega⟩
      · cases h

theorem sized_onBoard : Sized boardSizeBits m.rows m.k :=
  Backend.sized_onBoard m.repackable m.sized (by
    have hrange := m.range.2
    have hboard := m.onBoard
    omega)

/-- After the matrix is set, its range holds the packed weights. -/
theorem upload_spec {mem : Allocations} {data : List Byte} (hmem : Allocated mem m.binding)
    (hdata : data.length = m.t.nbytes) : ∃ mem', m.upload mem data = some mem' ∧
      (∀ handle, (mem' handle).length = (mem handle).length) ∧
      (∀ i < q1_0PackedSize m.t, (mem' m.binding.handle)[m.binding.remoteOffset + i]? =
        (packed data m.rows m.bpr)[i]?) ∧
      ∀ handle i, ¬ m.InRange handle i → (mem' handle)[i]? = (mem handle)[i]? := by
  obtain ⟨hnbytes, hfit⟩ := m.range
  have hvalid := initTensor_valid m.bound fun _ => m.sized
  obtain ⟨out, hpack, hset, hlen⟩ :=
    setTensor_repacked hvalid (fun _ => m.sized) (mem m.binding.handle) m.repackable hdata
  obtain ⟨hrows, hk, hsized⟩ := isRepackableQ1_0_sized m.repackable m.sized
  have hout : out = packed data m.rows m.bpr := by
    have heq := Layout.packWeightsC_eq hsized (hdata.trans m.nbytes)
      (show _ ≤ (List.replicate (q1_0PackedSize m.t) (0 : Byte)).length by
      rw [List.length_replicate, m.packedSize]; rfl)
    rw [← hrows, ← hk, hpack, hrows, hk] at heq
    have hdrop : (List.replicate (q1_0PackedSize m.t) (0 : Byte)).drop
        (rowblocksFor (m.t.ne 1).toNat * ((m.t.ne 0).toNat / Q1_BLOCK) * PACKED_PER_Q1_BLOCK) =
          [] := by
      rw [← q1_0PackedSize_eq m.repackable m.sized]
      simp
    rw [hdrop, List.append_nil] at heq
    exact (Prod.ext_iff.mp (Option.some.inj heq)).2
  obtain ⟨bytes, hstore, hblen, hget⟩ :=
    Words.store_spec (show m.binding.remoteOffset + out.length ≤ (mem m.binding.handle).length by
      rw [hmem, hlen]; exact hfit)
  refine ⟨Function.update mem m.binding.handle bytes, ?_, fun handle => ?_, fun i hi => ?_,
    fun handle i hout' => ?_⟩
  · rw [upload, hset, hstore]
    rfl
  · by_cases hh : handle = m.binding.handle
    · subst hh
      rw [Function.update_self, hblen]
    · rw [Function.update_of_ne hh]
  · rw [Function.update_self, hget, if_pos (by omega), Nat.add_sub_cancel_left, hout]
  · by_cases hh : handle = m.binding.handle
    · subst hh
      rw [Function.update_self, hget, if_neg]
      intro hin
      exact hout' ⟨rfl, hin.1, by omega⟩
    · rw [Function.update_of_ne hh]

end Matrix

/-! ## Decoding -/

namespace Weights

variable {w : Weights} {mem : Allocations} {src : List Byte} {r0 : Nat}

theorem getElem?_of_bytes {i : Nat} {b : Byte} (h : (w.bytes mem)[i]? = some b) :
    i < w.nbytes ∧ (mem w.handle)[w.offset + i]? = some b := by
  rcases Nat.lt_or_ge i w.nbytes with hi | hi
  · rw [bytes, List.getElem?_take_of_lt hi, List.getElem?_drop] at h
    exact ⟨hi, h⟩
  · rw [bytes, List.getElem?_take_eq_none hi] at h
    cases h

/-- What GET_ROWS resolves for a row is the rowblock of the row. -/
theorem rowblock_eq {r : Nat} (hr : r / ROWS_PER_BLOCK < rowblocksFor w.rows) :
    w.rowblock mem r =
      ((w.bytes mem).drop (r / ROWS_PER_BLOCK * (w.bpr * PACKED_PER_Q1_BLOCK))).take
        (w.bpr * PACKED_PER_Q1_BLOCK) := by
  have hfit : r / ROWS_PER_BLOCK * (w.bpr * PACKED_PER_Q1_BLOCK) +
      w.bpr * PACKED_PER_Q1_BLOCK ≤ w.nbytes := by
    rw [← Nat.succ_mul, nbytes, Nat.mul_assoc (rowblocksFor w.rows)]
    exact Nat.mul_le_mul_right _ hr
  rw [rowblock, bytes, List.drop_take, List.take_take, List.drop_drop, Nat.min_eq_left (by omega)]

/-- It is enough that the readers of the whole operand get the rows. -/
theorem decodes_of_read (h : Sized boardSizeBits w.rows w.k)
    (hread : ∀ r < w.rows, ∀ q < w.bpr, ∀ s < 4,
      Read boardSizeBits (w.bytes mem) w.bpr r q s (rowScale src w.bpr (r0 + r) q)
    (rowBits src w.bpr (r0 + r) q s)) :
    w.Decodes mem src r0 := by
  intro r hr q hq s hs
  have hrb := Ps.rowblock_lt hr
  obtain ⟨hscale, hbits⟩ := Layout.getRows_rowblock h (w.bytes mem) hrb hq hs
  have hread' := hread r hr q hq s hs
  refine ⟨hread', ?_, ?_⟩
  · rw [rowblock_eq hrb]
    exact hscale.trans hread'.getRowsScale
  · rw [rowblock_eq hrb]
    exact hbits.trans hread'.getRowsBits

/-- The operand holds packed weights of rows from row `r0` on, which is the first of a
    rowblock, or a prefix of their rowblocks. -/
theorem decodes_of_packed (rows : Nat) {a : Nat} (h : Sized boardSizeBits rows w.k)
    (hrows : w.rows + ROWS_PER_BLOCK * a ≤ rows) (hpos : 0 < w.rows)
    (hbytes : w.bytes mem =
      ((packed src rows w.bpr).drop (a * (w.bpr * PACKED_PER_Q1_BLOCK))).take w.nbytes) :
    w.Decodes mem src (ROWS_PER_BLOCK * a) := by
  have hrest : Sized boardSizeBits (rows - ROWS_PER_BLOCK * a) w.k := h.mono (by omega) (by omega)
  refine decodes_of_read (h.mono hpos (by omega)) fun r hr q hq s hs => ?_
  have hrow : r < rows - ROWS_PER_BLOCK * a := by omega
  have hread := Layout.read_packed hrest (src.drop (Layout.blockOff w.bpr (ROWS_PER_BLOCK * a) 0))
    (Ps.rowblock_lt hrow) hq hs
  rw [Layout.laneScale_of_row hrow, Layout.laneBits_of_row hrow] at hread
  have htake := hread.take hrest (Ps.rowblock_lt hrow) (Ps.rowblock_lt hr) hq hs
  rw [← Nat.mul_assoc] at htake
  rw [hbytes, Layout.packed_drop (by omega) (Nat.zero_lt_of_lt hq), ← Layout.rowScale_drop,
    ← Layout.rowBits_drop]
  exact htake

end Weights

/-! ## Views -/

/-- A scale of one has a low byte. -/
theorem readLeU16_one {bytes : List Byte} {off : Nat} (h : Words.readLeU16 bytes off = some 1) :
    ∃ b, bytes[off]? = some b ∧ b ≠ 0 := by
  simp only [Words.readLeU16, Option.bind_eq_bind, Option.bind_eq_some_iff] at h
  obtain ⟨b0, hb0, b1, -, hword⟩ := h
  refine ⟨b0, hb0, ?_⟩
  rintro rfl
  have hlow : ∀ b : Byte, (0#8).setWidth 16 ||| b.setWidth 16 <<< 8 ≠ 1#16 := by decide
  exact hlow b1 (Option.some.inj hword)

/-- Weight bits of zero have a high byte of zero. -/
theorem readLeU32_zero {bytes : List Byte} {off : Nat} (h : Words.readLeU32 bytes off = some 0) :
    bytes[off + 3]? = some 0 := by
  simp only [Words.readLeU32, Option.bind_eq_bind, Option.bind_eq_some_iff] at h
  obtain ⟨b0, -, b1, -, b2, -, b3, hb3, hword⟩ := h
  have hzero := Option.some.inj hword
  simp only [BitVec.ofNat_eq_ofNat, BitVec.or_eq_zero_iff] at hzero
  have hhigh : ∀ b : Byte, b.setWidth 32 <<< 24 = 0#32 → b = 0 := by decide
  rw [hb3, hhigh b3 hzero.2]

namespace RowView

variable {m : Matrix} (v : RowView m)

theorem weights_rows : (weightsOf v.v v.binding).rows = v.rows := by
  simp [weightsOf, v.shape.2.1]

theorem weights_k : (weightsOf v.v v.binding).k = m.k := by
  simp [weightsOf, v.shape.1, Matrix.k]

theorem weights_bpr : (weightsOf v.v v.binding).bpr = m.bpr := by
  rw [Weights.bpr, weights_k, Matrix.bpr]

/-- A view is bound at the offset of its first row in ggml. -/
theorem weights_offset : (weightsOf v.v v.binding).handle = m.binding.handle ∧
    (weightsOf v.v v.binding).offset = m.binding.remoteOffset + v.r0 * m.bpr * Q1_BLOCK_BYTES := by
  have h := v.bound
  unfold initTensor at h
  simp only at h
  split at h
  · cases h
  · split at h
    · rw [weightsOf, ← Option.some.inj h]
      exact ⟨rfl, rfl⟩
    · cases h

/-- The rows of the view end before the packed weights do. -/
theorem first_lt : v.r0 * m.bpr * Q1_BLOCK_BYTES < q1_0PackedSize m.t := by
  have hpos := v.pos
  have hwithin := v.within
  have hbpr : 0 < m.bpr := m.sized_onBoard.blocks_pos
  have hle := nbytes_le_packed m.repackable m.sized
  rw [m.nbytes] at hle
  refine Nat.lt_of_lt_of_le
    (Nat.mul_lt_mul_of_pos_right (Nat.mul_lt_mul_of_pos_right ?_ hbpr) (by decide)) hle
  omega

theorem correct_of_aligned {a : Nat} (ha : v.r0 = ROWS_PER_BLOCK * a) : v.Correct := by
  intro mem data hmem hdata
  obtain ⟨mem', hupload, hlen, hin, hout⟩ := m.upload_spec hmem hdata
  obtain ⟨hhandle, hoffset⟩ := v.weights_offset
  have hwithin := v.within
  have hstart : v.r0 * m.bpr * Q1_BLOCK_BYTES = a * (m.bpr * PACKED_PER_Q1_BLOCK) := by
    rw [ha, Layout.packedPerQ1Block_eq]
    ring
  have hend : v.r0 * m.bpr * Q1_BLOCK_BYTES + (weightsOf v.v v.binding).nbytes ≤
      q1_0PackedSize m.t := by
    have hblocks : a + rowblocksFor v.rows ≤ rowblocksFor m.rows := by
      simp only [rowblocksFor, ROWS_PER_BLOCK] at ha ⊢
      omega
    rw [hstart, Weights.nbytes, v.weights_rows, v.weights_bpr, Nat.mul_assoc (rowblocksFor v.rows),
      ← Nat.add_mul, m.packedSize, Nat.mul_assoc (rowblocksFor m.rows)]
    exact Nat.mul_le_mul_right _ hblocks
  refine ⟨mem', hupload, hout, ⟨hhandle, by omega, ?_⟩, ?_⟩
  · rw [m.range.1, hoffset]
    omega
  · rw [ha]
    refine Weights.decodes_of_packed m.rows ?_ ?_ ?_ ?_
    · rw [v.weights_k]
      exact m.sized_onBoard
    · rw [v.weights_rows]
      omega
    · rw [v.weights_rows]
      exact v.pos
    · rw [v.weights_bpr, ← hstart, Weights.bytes, hhandle, hoffset]
      refine List.ext_getElem? fun i => ?_
      rcases Nat.lt_or_ge i (weightsOf v.v v.binding).nbytes with hi | hi
      · rw [List.getElem?_take_of_lt hi, List.getElem?_take_of_lt hi, List.getElem?_drop,
          List.getElem?_drop, Nat.add_assoc, hin _ (by omega)]
      · rw [List.getElem?_take_eq_none hi, List.getElem?_take_eq_none hi]

/-- The scale of the first row is set alone; the view looks for it elsewhere. -/
theorem aligned_of_correct (h : v.Correct) : v.r0 % ROWS_PER_BLOCK = 0 := by
  by_contra hne
  have hbpr : 0 < m.bpr := m.sized_onBoard.blocks_pos
  have hpos := v.pos
  have hwithin := v.within
  have hmem : Allocated (fun _ => List.replicate m.binding.handleNbytes 0) m.binding :=
    List.length_replicate
  have hdata : (spike m.t.nbytes (Layout.blockOff m.bpr v.r0 0)).length = m.t.nbytes :=
    Layout.length_spike _ _
  obtain ⟨mem', hupload', -, -, hdecodes⟩ := h _ _ hmem hdata
  obtain ⟨mem'', hupload, -, hin, -⟩ := m.upload_spec hmem hdata
  obtain rfl : mem' = mem'' := Option.some.inj (hupload'.symm.trans hupload)
  obtain ⟨hhandle, hoffset⟩ := v.weights_offset
  have hread :=
    (hdecodes 0 (by rw [v.weights_rows]; exact hpos) 0 (by rw [v.weights_bpr]; exact hbpr) 0
      (by decide)).1.matmulScale
  have hscale : rowScale (spike m.t.nbytes (Layout.blockOff m.bpr v.r0 0)) m.bpr v.r0 0 = 1 := by
    have hle := Layout.blockOff_le (hdata.trans m.nbytes) (show v.r0 < m.rows by omega) hbpr
    rw [hdata] at hle
    exact Layout.rowScale_spike (Nat.le_trans (Nat.add_le_add_left (by decide) _) hle)
  rw [v.weights_bpr, Nat.add_zero, hscale] at hread
  obtain ⟨b, hb, hbne⟩ := readLeU16_one hread
  have hzero : Ps.block boardSizeBits m.bpr (0 / ROWS_PER_BLOCK) 0 +
      2 * (0 % ROWS_PER_BLOCK) = 0 := by
    simp [Ps.block, Layout.sizeT]
  have hfirst :
      (packed (spike m.t.nbytes (Layout.blockOff m.bpr v.r0 0)) m.rows m.bpr)[v.r0 * m.bpr *
        Q1_BLOCK_BYTES]? = some b := by
    rw [hzero] at hb
    have hstored := (Weights.getElem?_of_bytes hb).2
    rw [hhandle, hoffset, Nat.add_zero] at hstored
    rw [← hin _ v.first_lt, hstored]
  refine hbne (Layout.packed_spike hbpr hfirst ?_)
  have hr0 : v.r0 * m.bpr = 8 * (v.r0 / 8 * m.bpr) + v.r0 % 8 * m.bpr := by
    rw [← Nat.mul_assoc, ← Nat.add_mul, Nat.div_add_mod]
  have hlane : v.r0 % 8 ≤ v.r0 % 8 * m.bpr := Nat.le_mul_of_pos_right _ hbpr
  simp only [ROWS_PER_BLOCK, Q1_BLOCK_BYTES] at hne ⊢
  omega

theorem correct_iff : v.Correct ↔ v.r0 % ROWS_PER_BLOCK = 0 := by
  refine ⟨v.aligned_of_correct, fun h => ?_⟩
  exact v.correct_of_aligned (Nat.mul_div_cancel' (Nat.dvd_of_mod_eq_zero h)).symm

end RowView

/-! ## Copies -/

namespace CopyOf

variable {m : Matrix} (c : CopyOf m)

/-- The operand that the copy has. -/
def weights : Weights := weightsOf c.d c.binding

theorem sized_onBoard : Sized boardSizeBits c.weights.rows c.weights.k :=
  Backend.sized_onBoard c.repackable c.sized c.onBoard

theorem packedSize : q1_0PackedSize c.d = c.weights.nbytes := q1_0PackedSize_eq c.repackable c.sized

/-- Both have the same Q1 blocks. -/
theorem blocks_eq : c.weights.rows * c.weights.bpr = m.rows * m.bpr := by
  have h := c.nbytes
  rw [c.sized.nbytes, m.nbytes] at h
  exact Nat.eq_of_mul_eq_mul_right (by decide) h

/-- The copy puts the first of the packed bytes at the destination and writes nothing else. -/
theorem copied {mem : Allocations} {data : List Byte} (hmem : Allocated mem m.binding)
    (hdst : Allocated mem c.binding)
    (hdata : data.length = m.t.nbytes) : ∃ mem' mem'', m.upload mem data = some mem' ∧
      rawCopy mem' c.operands.1 c.operands.2 = some mem'' ∧
      (∀ i < m.t.nbytes, (mem'' c.weights.handle)[c.weights.offset + i]? =
        (packed data m.rows m.bpr)[i]?) ∧
      (∀ i, m.t.nbytes ≤ i → i < c.weights.nbytes →
        (mem'' c.weights.handle)[c.weights.offset + i]? =
          (mem c.weights.handle)[c.weights.offset + i]?) ∧
      ∀ handle i, ¬ (handle = c.binding.handle ∧ c.binding.remoteOffset ≤ i ∧
        i < c.binding.remoteOffset + c.d.nbytes) →
        (mem'' handle)[i]? = (mem' handle)[i]? := by
  obtain ⟨mem', hupload, hlen, hin, hout⟩ := m.upload_spec hmem hdata
  obtain ⟨hnbytes, hfit⟩ := m.range
  have hle := nbytes_le_packed m.repackable m.sized
  have hsize := c.nbytes
  have hsrcLen : (mem' m.binding.handle).length = m.binding.handleNbytes := (hlen _).trans hmem
  have hdstLen : (mem' c.binding.handle).length = c.binding.handleNbytes := (hlen _).trans hdst
  obtain ⟨-, hdstFit⟩ := remoteRangeIsValid_of_le (initTensor_valid c.bound fun _ => c.sized)
    (Nat.le_of_eq (Nat.zero_add c.d.nbytes))
  have hbytesLen : (((mem' m.binding.handle).drop m.binding.remoteOffset).take m.t.nbytes).length =
      m.t.nbytes := by
    rw [List.length_take, List.length_drop, hsrcLen]
    omega
  obtain ⟨bytes, hstore, -, hget⟩ := Words.store_spec
    (show c.binding.remoteOffset +
      (((mem' m.binding.handle).drop m.binding.remoteOffset).take m.t.nbytes).length ≤
      (mem' c.binding.handle).length by rw [hbytesLen, hdstLen]; omega)
  rw [hbytesLen] at hget
  have hframe : ∀ handle i, ¬ (handle = c.binding.handle ∧ c.binding.remoteOffset ≤ i ∧
      i < c.binding.remoteOffset + c.d.nbytes) →
      (Function.update mem' c.binding.handle bytes handle)[i]? = (mem' handle)[i]? := by
    intro handle i hnot
    by_cases hh : handle = c.binding.handle
    · subst hh
      rw [Function.update_self, hget, if_neg]
      intro hrange
      exact hnot ⟨rfl, hrange.1, by omega⟩
    · rw [Function.update_of_ne hh]
  -- the copied bytes, those behind them in the copy, and the frame
  refine ⟨mem', Function.update mem' c.binding.handle bytes, hupload, ?_, fun i hi => ?_,
    fun i hi hlt => ?_, hframe⟩
  · have hread : c.operands.1.offset + c.operands.1.nbytes.toNat ≤
        (mem' c.operands.1.handle).length := by
      show m.binding.remoteOffset + m.t.nbytes ≤ (mem' m.binding.handle).length
      omega
    have hwrite : store (mem' c.operands.2.handle) c.operands.2.offset
        (((mem' c.operands.1.handle).drop c.operands.1.offset).take c.operands.1.nbytes.toNat) =
          some bytes := hstore
    simp only [rawCopy, if_pos hread, hwrite]
    rfl
  · show (Function.update mem' c.binding.handle bytes c.binding.handle)[c.binding.remoteOffset +
        i]? = _
    rw [Function.update_self, hget, if_pos (by omega), Nat.add_sub_cancel_left,
      List.getElem?_take_of_lt hi, List.getElem?_drop, hin _ (by omega)]
  · -- Past the copied bytes, and outside the matrix.
    have hpacked := c.packedSize
    rw [hframe _ _ (by
      rintro ⟨-, -, hend⟩; have : c.weights.offset = c.binding.remoteOffset := rfl; omega)]
    refine hout _ _ ?_
    rintro ⟨hh, hlo, hhi⟩
    have hoffset : c.weights.offset = c.binding.remoteOffset := rfl
    rcases c.apart hh with hapart | hapart <;> omega

/-- What a correct copy decodes when the allocations held the same byte throughout. -/
theorem decoded (h : c.Correct) (fill : Byte) {data : List Byte}
    (hdata : data.length = m.t.nbytes) :
    ∃ mem, c.weights.Decodes mem data 0 ∧ ∀ i b, (c.weights.bytes mem)[i]? = some b →
      i < m.t.nbytes ∧ (packed data m.rows m.bpr)[i]? = some b ∨ m.t.nbytes ≤ i ∧ b = fill := by
  let mem : Allocations := fun handle =>
    List.replicate
      (if handle = m.binding.handle then m.binding.handleNbytes else c.binding.handleNbytes) fill
  have hmem : Allocated mem m.binding := by simp [Allocated, mem]
  have hdst : Allocated mem c.binding := by
    simp only [Allocated, mem, List.length_replicate]
    split
    · next hh => exact (c.handleSize hh).symm
    · rfl
  obtain ⟨mem₁, mem₂, hupload, hcopy, -, -, hdecodes⟩ := h mem data hmem hdst hdata
  obtain ⟨mem₁', mem₂', hupload', hcopy', hin, hpast, -⟩ := c.copied hmem hdst hdata
  obtain rfl : mem₁ = mem₁' := Option.some.inj (hupload.symm.trans hupload')
  obtain rfl : mem₂ = mem₂' := Option.some.inj (hcopy.symm.trans hcopy')
  refine ⟨mem₂, hdecodes, fun i b hb => ?_⟩
  obtain ⟨hi, hstored⟩ := Weights.getElem?_of_bytes hb
  rcases Nat.lt_or_ge i m.t.nbytes with hlt | hge
  · exact Or.inl ⟨hlt, (hin i hlt).symm.trans hstored⟩
  · refine Or.inr ⟨hge, ?_⟩
    rw [hpast i hge hi] at hstored
    exact List.eq_of_mem_replicate (List.mem_of_getElem? hstored)

/-- The scale of one Q1 block is set alone. The copy has it in the word where its own rows
    are packed only if that is the word where the matrix has it. -/
theorem same_word (h : c.Correct) {r q r' q' : Nat} (hr : r < m.rows) (hq : q < m.bpr)
    (hr' : r' < c.weights.rows)
    (hq' : q' < c.weights.bpr) (hflat : r' * c.weights.bpr + q' = r * m.bpr + q) :
    18 * (r' / ROWS_PER_BLOCK * c.weights.bpr + q') + r' % ROWS_PER_BLOCK / 4 =
      18 * (r / ROWS_PER_BLOCK * m.bpr + q) + r % ROWS_PER_BLOCK / 4 := by
  by_contra hne
  have hdata : (spike m.t.nbytes (Layout.blockOff m.bpr r q)).length = m.t.nbytes :=
    Layout.length_spike _ _
  obtain ⟨mem, hdecodes, hbytes⟩ := c.decoded h 0 hdata
  have hoff : Layout.blockOff c.weights.bpr r' q' = Layout.blockOff m.bpr r q :=
    congrArg (· * Q1_BLOCK_BYTES) hflat
  have hscale : rowScale (spike m.t.nbytes (Layout.blockOff m.bpr r q))
      c.weights.bpr r' q' = 1 := by
    have hle := Layout.blockOff_le (hdata.trans m.nbytes) hr hq
    rw [hdata] at hle
    rw [← hoff] at hle ⊢
    exact Layout.rowScale_spike (Nat.le_trans (Nat.add_le_add_left (by decide) _) hle)
  have hread := (hdecodes r' hr' q' hq' 0 (by decide)).1.matmulScale
  rw [Nat.zero_add, hscale] at hread
  obtain ⟨b, hb, hbne⟩ := readLeU16_one hread
  have hlane : r' % ROWS_PER_BLOCK < 8 := Nat.mod_lt _ (by decide)
  rw [Weights.bpr, Ps.block_eq c.sized_onBoard (Ps.rowblock_lt hr') hq'] at hb
  rcases hbytes _ _ hb with ⟨-, hpacked⟩ | ⟨-, hzero⟩
  · refine hbne (Layout.packed_spike hq hpacked ?_)
    rw [← Weights.bpr]
    omega
  · exact hbne hzero

/-- The last word of the last row is past the copied bytes when its rowblock has padding. -/
theorem whole_rowblocks (h : c.Correct) (hbpr : c.weights.bpr = m.bpr) :
    m.rows % ROWS_PER_BLOCK = 0 := by
  by_contra hne
  have hpos : 0 < m.bpr := m.sized_onBoard.blocks_pos
  have hrows : c.weights.rows = m.rows := by
    have hblocks := c.blocks_eq
    rw [hbpr] at hblocks
    exact Nat.eq_of_mul_eq_mul_right hpos hblocks
  have hdata : (spike m.t.nbytes m.t.nbytes).length = m.t.nbytes := Layout.length_spike _ _
  obtain ⟨mem, hdecodes, hbytes⟩ := c.decoded h 0xFF#8 hdata
  have hlast : m.rows - 1 < m.rows := by
    have := m.sized_onBoard.rowsPos
    omega
  have hq : m.bpr - 1 < c.weights.bpr := by omega
  have hr : m.rows - 1 < c.weights.rows := by omega
  have hread := (hdecodes (m.rows - 1) hr (m.bpr - 1) hq 3 (by decide)).1.matmulWbits
  have hbits : rowBits (spike m.t.nbytes m.t.nbytes) c.weights.bpr (m.rows - 1)
      (m.bpr - 1) 3 = 0 := by
    have hle : Layout.blockOff m.bpr (m.rows - 1) (m.bpr - 1) + 18 ≤ m.t.nbytes := by
      rw [← hdata]
      exact Layout.blockOff_le (hdata.trans m.nbytes) hlast (by omega)
    rw [hbpr]
    exact Layout.readLeU32_spike (by omega)
  have hlane : (m.rows - 1) % ROWS_PER_BLOCK < 8 := Nat.mod_lt _ (by decide)
  have hscales : Layout.SCALES_BYTES = 16 := rfl
  rw [Nat.zero_add, hbits, Ps.matmulWbits, Weights.bpr,
    Ps.block_eq c.sized_onBoard (Ps.rowblock_lt hr) hq,
    Ps.sizeT_subOffset c.sized_onBoard (by decide), Ps.sizeT_small c.sized_onBoard (by omega),
    hscales, ← Weights.bpr, hbpr] at hread
  rcases hbytes _ _ (readLeU32_zero hread) with ⟨hlt, -⟩ | ⟨-, hfill⟩
  · -- The rows of the last rowblock and its padding make up eight.
    have hpadding : m.rows % 8 * m.bpr + (8 - m.rows % 8) * m.bpr = 8 * m.bpr := by
      rw [← Nat.add_mul, Nat.add_sub_cancel' (Nat.le_of_lt (Nat.mod_lt _ (by decide)))]
    have hpad : 8 - m.rows % 8 ≤ (8 - m.rows % 8) * m.bpr := Nat.le_mul_of_pos_right _ hpos
    have hall : m.rows * m.bpr = 8 * (m.rows / 8 * m.bpr) + m.rows % 8 * m.bpr := by
      rw [← Nat.mul_assoc, ← Nat.add_mul, Nat.div_add_mod]
    have hrb : (m.rows - 1) / 8 = m.rows / 8 := by
      simp only [ROWS_PER_BLOCK] at hne
      omega
    rw [m.nbytes] at hlt
    simp only [ROWS_PER_BLOCK, Q1_BLOCK_BYTES, hrb] at hne hlt
    omega
  · exact absurd hfill (by decide)

/-- In rows of another length the second row, or the end of the first, is elsewhere. -/
theorem same_bpr (h : c.Correct) : c.weights.bpr = m.bpr := by
  have hblocks := c.blocks_eq
  have hpos : 0 < m.bpr := m.sized_onBoard.blocks_pos
  have hpos' : 0 < c.weights.bpr := c.sized_onBoard.blocks_pos
  have hle : m.bpr ≤ m.rows * m.bpr := Nat.le_mul_of_pos_left _ m.sized_onBoard.rowsPos
  have hle' : c.weights.bpr ≤ c.weights.rows * c.weights.bpr :=
    Nat.le_mul_of_pos_left _ c.sized_onBoard.rowsPos
  rcases Nat.lt_trichotomy c.weights.bpr m.bpr with hlt | heq | hgt
  · have hrows : 1 < c.weights.rows := by
      by_contra hone
      have hle'' := Nat.mul_le_mul_right c.weights.bpr (Nat.not_lt.mp hone)
      omega
    have hword := c.same_word h m.sized_onBoard.rowsPos hlt hrows hpos' (by omega)
    simp only [ROWS_PER_BLOCK] at hword
    omega
  · exact heq
  · have hrows : 1 < m.rows := by
      by_contra hone
      have hle'' := Nat.mul_le_mul_right m.bpr (Nat.not_lt.mp hone)
      omega
    have hword := c.same_word h hrows hpos c.sized_onBoard.rowsPos hgt (by omega)
    simp only [ROWS_PER_BLOCK] at hword
    omega

theorem correct_of_whole (hbpr : c.weights.bpr = m.bpr) (hk : c.weights.k = m.k)
    (hwhole : m.rows % ROWS_PER_BLOCK = 0) : c.Correct := by
  intro mem data hmem hdst hdata
  obtain ⟨mem', mem'', hupload, hcopy, hin, -, hframe⟩ := c.copied hmem hdst hdata
  have hrows : c.weights.rows = m.rows := by
    have hblocks := c.blocks_eq
    rw [hbpr] at hblocks
    exact Nat.eq_of_mul_eq_mul_right m.sized_onBoard.blocks_pos hblocks
  have hsize : c.weights.nbytes = m.t.nbytes := by
    have hrowblocks : rowblocksFor m.rows * ROWS_PER_BLOCK = m.rows := by
      simp only [rowblocksFor, ROWS_PER_BLOCK] at hwhole ⊢
      omega
    rw [Weights.nbytes, hrows, hbpr, m.nbytes, Layout.packedPerQ1Block_eq]
    conv_rhs => rw [← hrowblocks]
    ring
  have hvalid := initTensor_valid c.bound fun _ => c.sized
  refine ⟨mem', mem'', hupload, hcopy, hframe, ⟨rfl, Nat.le_refl _, ?_⟩, ?_⟩
  · have hown : c.d.nbytes ≤ c.binding.tensorNbytes := by
      simp only [remoteRangeIsValid, decide_eq_true_eq] at hvalid
      omega
    have hnbytes := c.nbytes
    show c.binding.remoteOffset + c.weights.nbytes ≤ _
    omega
  · show c.weights.Decodes mem'' data (ROWS_PER_BLOCK * 0)
    refine Weights.decodes_of_packed m.rows ?_ ?_ ?_ ?_
    · rw [hk]
      exact m.sized_onBoard
    · omega
    · rw [hrows]
      exact m.sized_onBoard.rowsPos
    · rw [Nat.zero_mul, List.drop_zero, Weights.bytes, hsize, hbpr]
      refine List.ext_getElem? fun i => ?_
      rcases Nat.lt_or_ge i m.t.nbytes with hi | hi
      · rw [List.getElem?_take_of_lt hi, List.getElem?_take_of_lt hi, List.getElem?_drop, hin i hi]
      · rw [List.getElem?_take_eq_none hi, List.getElem?_take_eq_none hi]

theorem correct_iff : c.Correct ↔ c.d.ne 0 = m.t.ne 0 ∧ m.rows % ROWS_PER_BLOCK = 0 := by
  constructor
  · intro h
    have hbpr := c.same_bpr h
    refine ⟨?_, c.whole_rowblocks h hbpr⟩
    have hr := c.repackable
    have hr' := m.repackable
    simp only [isRepackableQ1_0, Bool.and_eq_true, decide_eq_true_eq] at hr hr'
    have hdiv : (c.d.ne 0).toNat / Q1_BLOCK = (m.t.ne 0).toNat / Q1_BLOCK := hbpr
    simp only [Q1_BLOCK] at hdiv hr hr'
    omega
  · rintro ⟨hk, hwhole⟩
    have hk' : c.weights.k = m.k := congrArg Int.toNat hk
    exact c.correct_of_whole (congrArg (· / Q1_BLOCK) hk') hk' hwhole

end CopyOf

/-- For every matrix that is set whole: a view of its rows decodes to the rows of the source
    exactly when it starts at a rowblock, and a copy exactly when its rows have the length
    of the matrix's and fill their rowblocks. -/
theorem repacked_weights_iff (m : Matrix) :
    (∀ v : RowView m, (∀ nb, LoweredTo ⟨v.v, nb, some v.binding⟩ (weightsOf v.v v.binding)) ∧
      (v.Correct ↔ v.r0 % ROWS_PER_BLOCK = 0)) ∧
    ∀ c : CopyOf m, c.Lowered ∧
    (∀ nb, LoweredTo ⟨c.d, nb, some c.binding⟩ (weightsOf c.d c.binding)) ∧
      (c.Correct ↔ c.d.ne 0 = m.t.ne 0 ∧ m.rows % ROWS_PER_BLOCK = 0) := by
  refine ⟨fun v => ⟨fun nb => loweredTo v.isQ1_0 rfl, v.correct_iff⟩, fun c =>
    ⟨c.lowered, fun nb => loweredTo ?_ rfl, c.correct_iff⟩⟩
  have hr := c.repackable
  simp only [isRepackableQ1_0, Bool.and_eq_true, decide_eq_true_eq] at hr
  exact hr.1.1

/-- A matrix of one Q1 block per row. -/
def narrowTensor (rows : Nat) : Tensor where
  type := .q1_0
  ne dim := if dim = 0 then 128 else if dim = 1 then rows else 1
  isContiguous := true
  nbytes := rows * 18

def sixteenRows : Matrix where
  ctx := ⟨some 4096, 288, 1, 288⟩
  pointer := some 4096
  t := narrowTensor 16
  binding := ⟨1, 288, 288, 0⟩
  repackable := by decide
  sized := ⟨by decide, by decide, by decide⟩
  bound := rfl
  onBoard := by decide

/-- The binding of the rows from `r0` on. -/
theorem sixteenRows.rowsFrom_bound (r0 : Nat) (h : r0 < 16) :
    initTensor sixteenRows.ctx
      (some (some sixteenRows.binding, r0 * sixteenRows.bpr * Q1_BLOCK_BYTES)) none
      (narrowTensor (16 - r0)) = some ⟨1, 288, (16 - r0) * 18, 0 + r0 * 1 * 18⟩ := by
  have hsize : SIZE_MAX = 2 ^ 64 - 1 := rfl
  show (if 0 + r0 * 1 * 18 > SIZE_MAX then none
    else if remoteRangeIsValid ⟨1, 288, (16 - r0) * 18, 0 + r0 * 1 * 18⟩ 0 ((16 - r0) * 18)
      then some (⟨1, 288, (16 - r0) * 18, 0 + r0 * 1 * 18⟩ : RemoteBinding) else none) = _
  rw [if_neg (by omega), if_pos]
  simp only [remoteRangeIsValid, decide_eq_true_eq]
  omega

/-- The rows from `r0` on. -/
def sixteenRows.rowsFrom (r0 : Nat) (h : r0 < 16) : RowView sixteenRows where
  v := narrowTensor (16 - r0)
  r0 := r0
  rows := 16 - r0
  pos := by omega
  within := show r0 + (16 - r0) ≤ 16 by omega
  isQ1_0 := rfl
  shape := ⟨rfl, rfl, rfl, rfl⟩
  contiguous := rfl
  nbytes := show (16 - r0) * 18 = (16 - r0) * 1 * 18 by omega
  pointer := none
  binding := ⟨1, 288, (16 - r0) * 18, 0 + r0 * 1 * 18⟩
  bound := sixteenRows.rowsFrom_bound r0 h

/-- A copy in an allocation of its own. -/
def sixteenRows.copy : CopyOf sixteenRows where
  d := narrowTensor 16
  repackable := by decide
  sized := ⟨by decide, by decide, by decide⟩
  nbytes := rfl
  ctx := ⟨some 4096, 288, 2, 288⟩
  view := none
  pointer := some 4096
  binding := ⟨2, 288, 288, 0⟩
  bound := rfl
  onBoard := by decide
  handleSize h := absurd h (by decide)
  apart h := absurd h (by decide)

/-- The second rowblock decodes, and so does the copy. -/
theorem repacked_weights_iff_sixteen_rows :
    (sixteenRows.rowsFrom 8 (by decide)).Correct ∧ sixteenRows.copy.Correct :=
  ⟨((repacked_weights_iff sixteenRows).1 (sixteenRows.rowsFrom 8 (by decide))).2.mpr rfl,
    ((repacked_weights_iff sixteenRows).2 sixteenRows.copy).2.2.mpr ⟨rfl, rfl⟩⟩

/-- The rows from the second on do not. -/
theorem view_of_second_row : ¬ (sixteenRows.rowsFrom 1 (by decide)).Correct := by
  rw [RowView.correct_iff]
  decide

end Backend
