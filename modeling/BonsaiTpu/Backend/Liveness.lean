-- SUMMARY: Where the tensors of a split are on the board and how long they live, what the kernels of its nodes touch, and when a norm can be fused.
import BonsaiTpu.Backend.Fusion
import BonsaiTpu.Ps.FlashAttn

/-!
# Liveness

A tensor is on the board from the node that computes it, or from the start, to its last
reader. `Placed` says that no node writes over a tensor in between, in the order of the
graph. `Fusable` is the condition on a norm and its product under which the norm's input
may be read at the product instead.
-/

namespace Backend

open Ps (Op Loc Mem F32Ops Operand)

/-! ## Tensors on the board -/

namespace Heap

variable (h : Heap)

/-- The bytes that a tensor has on the board. -/
def Range (t : TensorId) (b : Loc) : Prop :=
  ∃ binding, (h t).binding = some binding ∧ b.1 = binding.handle ∧ binding.remoteOffset ≤ b.2 ∧
    b.2 < binding.remoteOffset + binding.tensorNbytes

/-- The tensor whose storage a tensor has. -/
def root (t : TensorId) : TensorId := (h t).viewSrc.getD t

/-- The tensor that a node writes; a copy goes to its second operand. -/
def target (k : TensorId) : TensorId := if (h k).op = .cpy then ((h k).src 1).getD k else k

/-- A node that writes storage of its own. -/
def Owns (k : TensorId) : Prop := h.target k = k ∧ h.root k = k

/-- A node reads its operands, and its target if that is storage of another tensor. -/
def Reads (k t : TensorId) : Prop := (∃ s, (h k).src s = some t) ∨ ¬ h.Owns k ∧ t = h.target k

/-- Two tensors that start at the same byte, or have no byte in common. -/
def Together (t u : TensorId) : Prop :=
  (∃ bt bu, (h t).binding = some bt ∧ (h u).binding = some bu ∧ bt.handle = bu.handle ∧
    bt.remoteOffset = bu.remoteOffset) ∨
    ∀ b, h.Range t b → ¬ h.Range u b

end Heap

section

variable (h : Heap) (nodes : List TensorId) (kept : TensorId → Prop)

/-- The position of a node in the split. -/
def pos (k : TensorId) : Nat := nodes.idxOf k

/-- The split computes the whole tensor. -/
def Computes (t : TensorId) : Prop := t ∈ nodes ∧ executes h t = true ∧ h.Owns t

/-- The tensor is there before position `n`. -/
def ThereAt (n : Nat) (t : TensorId) : Prop :=
  Computes h nodes (h.root t) → pos nodes (h.root t) < n

/-- The tensor is read from position `n` on: by a node, or, if it is kept, by another split or
    the host. -/
def ReadFrom (n : Nat) (t : TensorId) : Prop :=
  kept t ∨ ∃ j ∈ nodes, executes h j = true ∧ n ≤ pos nodes j ∧ h.Reads j t

/-- The order of the nodes and the place of their tensors: a node comes after those that
    compute what it reads, and writes over no other tensor that is there before it and
    is read after it. -/
structure Placed : Prop where
  nodup : nodes.Nodup
  flat : ∀ t, h.root (h.root t) = h.root t
  views : ∀ t b, h.Range t b → h.Range (h.root t) b
  order : ∀ k ∈ nodes, executes h k = true → ∀ t, h.Reads k t → ThereAt h nodes (pos nodes k) t
  live : ∀ k ∈ nodes, executes h k = true → ∀ t, h.root t ≠ h.root (h.target k) →
    ThereAt h nodes (pos nodes k) t →
    ReadFrom h nodes kept (pos nodes k + 1) t → ∀ b, h.Range t b → ¬ h.Range (h.target k) b

/-- The sizes that ggml has for contiguous floats, and ranges that the board can address. -/
structure F32Sized : Prop where
  nbytes : ∀ t, isContiguousF32 (h t).toTensor = true → (h t).nbytes = 4 * (h t).nelements.toNat
  binding : ∀ t b, (h t).binding = some b → b.handleNbytes < 2 ^ 32 ∧
    (isContiguousF32 (h t).toTensor = true → b.tensorNbytes = (h t).nbytes)

/-- The op of a node depends on what the node reads, and changes only its target. -/
def Local (k : TensorId) (f : Mem → Option Mem) : Prop :=
  ∀ m m' m₁, (∀ t, h.Reads k t → ∀ b, h.Range t b → m b = m' b) → f m = some m₁ → ∃ m₁',
    f m' = some m₁' ∧
    (∀ b, h.Range (h.target k) b → m₁ b = m₁' b) ∧ ∀ b,
    ¬ h.Range (h.target k) b → m₁ b = m b ∧ m₁' b = m' b

/-- A norm that can be fused into its product. -/
structure Fusable (mul rms : TensorId) : Prop where
  mem : rms ∈ nodes
  executed : executes h rms = true
  before : pos nodes rms < pos nodes mul
  /-- No op in between writes over the input of the norm. -/
  input : ∀ x, (h rms).src 0 = some x → ∀ k ∈ nodes,
    executes h k = true → isAbsorbed h nodes k = false →
    pos nodes rms < pos nodes k → pos nodes k < pos nodes mul → ∀ b,
    h.Range x b → ¬ h.Range (h.target k) b
  /-- Nobody else reads the norm, unless the product has replaced it. -/
  sole : ∀ j ∈ nodes, executes h j = true → pos nodes rms < pos nodes j → ∀ t,
    h.Reads j t → h.root t = h.root rms →
    j = mul ∧ (h mul).src 1 ≠ some t ∨ pos nodes mul < pos nodes j ∧ h.root mul = h.root rms
  outside : ∀ t, kept t → h.root t = h.root rms → h.root mul = h.root rms
  replaced : h.root mul = h.root rms → ∀ b, h.Range rms b → h.Range mul b
  inPlace : h.Together rms mul ∧ ∀ x, (h rms).src 0 = some x → h.Together x rms ∧ h.Together x mul

end

/-! ## Kernels on tensors -/

/-- The operand that an op has for a binding. -/
def RemoteBinding.operand (b : RemoteBinding) (nbytes : Int) : Operand :=
  ⟨b.handle, b.remoteOffset, nbytes⟩

theorem positive_ok {op : Op} {key : String} {d : Int}
    (hlookup : op.ints.lookup key = some d) (hd : 0 < d) :
    op.positive key = .ok d.toNat := by
  have hne : d.toNat ≠ 0 := by omega
  have hrequired : op.required key = .ok d.toNat := by
    simp only [Ps.Op.required, hlookup, Option.map_some, Board.Matmul.required, Board.requiredInt,
      Board.nonNegativeInt, Board.toInt]
    simp only [bind, Except.bind, if_neg (Int.not_lt.mpr hd.le)]
  simp only [Ps.Op.positive, hrequired, bind, Except.bind, if_neg hne]

theorem operand_ok {op : Op} {handleKey offsetKey : String} {b : RemoteBinding} {nbytes : Int}
    (hhandle : op.ints.lookup handleKey = some (b.handle : Int))
    (hoffset : op.ints.lookup offsetKey = some (b.remoteOffset : Int)) :
    op.operand handleKey offsetKey nbytes = .ok (b.operand nbytes) := by
  simp only [Ps.Op.operand, Ps.Op.required, Ps.Op.optionalInt, hhandle, hoffset, Option.map_some,
    Board.Matmul.required, Board.Matmul.optionalInt, Board.requiredInt,
    Board.nonNegativeInt, Board.toInt]
  simp only [bind, Except.bind, if_neg (Int.not_lt.mpr (Int.natCast_nonneg _)), Int.toNat_natCast]
  rfl

/-- A lowered node has an entry of the table. -/
theorem lowerNode_some {blckSize : GgmlType → Int} {node : GraphNode} {op : Op}
    (hl : lowerNode blckSize node = some op) :
    ∃ l ∈ kLowerings blckSize, l.supports node = true ∧ l.append node = some op := by
  simp only [lowerNode, Option.bind_eq_bind, Option.bind_eq_some_iff] at hl
  obtain ⟨l, hlookup, happend⟩ := hl
  unfold lookupLowering at hlookup
  split at hlookup
  · cases hlookup
  · exact ⟨l, List.mem_of_find?_eq_some hlookup,
      List.find?_some (p := fun l : OpLowering => l.supports node) hlookup, happend⟩

section

variable {h : Heap} (hsized : F32Sized h)

/-- The rows and columns of a tensor of floats. -/
structure Dims (h : Heap) (t : TensorId) (b : RemoteBinding) (rows cols : Nat) : Prop where
  rows_eq : ((h t).ne 0).toNat = rows
  cols_eq : (flattenedCols (h t).toTensor).toNat = cols
  rowsPos : 0 < (h t).ne 0
  colsPos : 0 < flattenedCols (h t).toTensor
  rowsU32 : Ps.cUint32 rows = rows
  colsU32 : Ps.cUint32 cols = cols
  rc : Ps.rowsColsRc rows cols = 0
  range : ∀ (nbytes : Int) (loc : Loc), h.Range t loc ↔ (b.operand nbytes).Holds (cols * rows) loc

include hsized in
theorem dims_of_contiguous {t : TensorId} {b : RemoteBinding}
    (hc : isContiguousF32 (h t).toTensor = true)
    (hb : (h t).toStrided.remote = some b) : ∃ rows cols, Dims h t b rows cols := by
  obtain ⟨hrows, hel, hcols⟩ := isContiguousF32_pos hc
  obtain ⟨hbinding, hvalid⟩ := Strided.remote_eq_some hb
  obtain ⟨hboard, hnbytes⟩ := hsized.binding t b hbinding
  have hsize := hnbytes hc
  rw [hsized.nbytes t hc] at hsize
  have hmul : flattenedCols (h t).toTensor * (h t).ne 0 = (h t).nelements := by
    refine Int.ediv_mul_cancel ?_
    unfold Tensor.nelements
    exact Dvd.dvd.mul_right (Dvd.dvd.mul_right (Dvd.intro _ rfl) _) _
  have hprod : (flattenedCols (h t).toTensor).toNat * ((h t).ne 0).toNat =
      (h t).nelements.toNat := by
    rw [← Int.toNat_mul hcols.le hrows.le, hmul]
  have hvalid' : (h t).nbytes ≤ b.handleNbytes := by
    simp only [remoteRangeIsValid, decide_eq_true_eq] at hvalid
    omega
  have hlt : (h t).nelements.toNat < 2 ^ 32 := by
    have hn := hsized.nbytes t hc
    omega
  have hrowsLe : ((h t).ne 0).toNat ≤ (h t).nelements.toNat := by
    rw [← hprod]
    exact Nat.le_mul_of_pos_left _ (by omega)
  have hcolsLe : (flattenedCols (h t).toTensor).toNat ≤ (h t).nelements.toNat := by
    rw [← hprod]
    exact Nat.le_mul_of_pos_right _ (by omega)
  have hrowsU : Ps.cUint32 ((h t).ne 0).toNat = ((h t).ne 0).toNat := Nat.mod_eq_of_lt (by omega)
  have hcolsU : Ps.cUint32 (flattenedCols (h t).toTensor).toNat =
      (flattenedCols (h t).toTensor).toNat := Nat.mod_eq_of_lt (by omega)
  refine ⟨_, _, rfl, rfl, hrows, hcols, hrowsU, hcolsU, ?_, fun nbytes loc => ?_⟩
  · rw [Ps.rowsColsRc, hrowsU, hcolsU, if_neg (by omega)]
  · rw [hprod]
    constructor
    · rintro ⟨b', hb', hloc⟩
      obtain rfl : b = b' := Option.some.inj (hbinding.symm.trans hb')
      rw [hsize] at hloc
      exact hloc
    · intro hloc
      refine ⟨b, hbinding, ?_⟩
      rw [hsize]
      exact hloc

theorem sameShape_ne {t u : Tensor} (h : sameShape t u = true) : t.ne = u.ne := by
  simp only [sameShape, decide_eq_true_eq] at h
  exact funext h

/-- Tensors of one shape have the same rows and columns. -/
theorem Dims.of_sameShape {t u : TensorId} {b b' : RemoteBinding} {rows cols rows' cols' : Nat}
    (d : Dims h t b rows cols)
    (d' : Dims h u b' rows' cols') (hshape : (h t).ne = (h u).ne) : Dims h u b' rows cols := by
  have hrows : rows' = rows := by rw [← d.rows_eq, ← d'.rows_eq, hshape]
  have hcols : cols' = cols := by
    rw [← d.cols_eq, ← d'.cols_eq, flattenedCols, flattenedCols, Tensor.nelements,
      Tensor.nelements, hshape]
  rw [← hrows, ← hcols]
  exact d'

variable {F : F32Ops} {mapped : Operand → Bool} {other : Op → Mem → Option Mem}
    {blckSize : GgmlType → Int} {k : TensorId} {op : Op}

/-- The size of an operand of floats. -/
def f32Nbytes (n : Nat) : Int := ((n * Board.Matmul.F32_BYTES : Nat) : Int)

section Prepare

variable {r c : Int} {e : Option (BitVec 32)} (srcB weightB dstB : RemoteBinding)
    (hrows : op.ints.lookup "rows" = some r) (hr : 0 < r)
  (hcols : op.ints.lookup "cols" = some c) (hc : 0 < c) (heps : op.floats.lookup "eps" = some e)
  (hsrc : op.ints.lookup "src" = some (srcB.handle : Int))
    (hsrcOff : op.ints.lookup "src_offset" = some (srcB.remoteOffset : Int))
  (hdst : op.ints.lookup "dst" = some (dstB.handle : Int))
    (hdstOff : op.ints.lookup "dst_offset" = some (dstB.remoteOffset : Int))

include hrows hr hcols hc heps hsrc hsrcOff hdst hdstOff

theorem prepareRmsNorm_eq : Ps.prepareRmsNorm op =
    match e with
    | some eps =>
      .ok ⟨srcB.operand (f32Nbytes (r.toNat * c.toNat)),
        dstB.operand (f32Nbytes (r.toNat * c.toNat)), r.toNat, c.toNat, eps⟩
    | none => .error .conversion := by
  unfold Ps.prepareRmsNorm
  rw [positive_ok hrows hr, positive_ok hcols hc]
  simp only [bind, Except.bind]
  rw [if_neg (by simp [heps])]
  cases e with
  | none => simp only [Ps.Op.float, heps]
  | some eps =>
    simp only [Ps.Op.float, heps]
    rw [operand_ok hsrc hsrcOff, operand_ok hdst hdstOff]
    rfl

theorem prepareRmsNormMul_eq (hweight : op.ints.lookup "src1" = some (weightB.handle : Int))
    (hweightOff : op.ints.lookup "src1_offset" = some (weightB.remoteOffset : Int)) :
    Ps.prepareRmsNormMul op =
    match e with
    | some eps =>
      .ok ⟨srcB.operand (f32Nbytes (r.toNat * c.toNat)), weightB.operand (f32Nbytes r.toNat),
        dstB.operand (f32Nbytes (r.toNat * c.toNat)), r.toNat, c.toNat, eps⟩
    | none => .error .conversion := by
  unfold Ps.prepareRmsNormMul
  rw [positive_ok hrows hr, positive_ok hcols hc]
  simp only [bind, Except.bind]
  rw [if_neg (by simp [heps])]
  cases e with
  | none => simp only [Ps.Op.float, heps]
  | some eps =>
    simp only [Ps.Op.float, heps]
    rw [operand_ok hsrc hsrcOff, operand_ok hweight hweightOff, operand_ok hdst hdstOff]
    rfl

end Prepare

/-! ### Norms -/

/-- What a lowered norm runs. -/
structure RmsCall (h : Heap) (k x : TensorId) (xB kB : RemoteBinding) (rows cols : Nat) : Prop where
  src : (h k).src 0 = some x
  srcDims : Dims h x xB rows cols
  dstDims : Dims h k kB rows cols
  srcB : (h x).toStrided.remote = some xB
  dstB : (h k).toStrided.remote = some kB

/-- The entry of the table that takes norms. -/
theorem lowerNode_rmsNorm {node : GraphNode} (hop : node.op = .rmsNorm)
    (hl : lowerNode blckSize node = some op) :
    supportsRmsNormF32 node = true ∧ appendRmsNormF32Op node = some op := by
  obtain ⟨l, hmem, hs, ha⟩ := lowerNode_some hl
  simp only [kLowerings, List.mem_cons, List.not_mem_nil, or_false] at hmem
  rcases hmem with rfl | rfl | rfl | rfl | rfl | rfl | rfl | rfl | rfl | rfl | rfl
  case inr.inr.inr.inr.inr.inr.inl => exact ⟨hs, ha⟩
  case inr.inl => simp [supportsMatmulQ1a8, GraphNode.toNode, hop] at hs
  all_goals
    simp only [supportsCopy, supportsF32Binary, getF32BinaryLowering, supportsScaleF32,
      supportsSiluF32, supportsSwigluF32, supportsRopeF32, supportsFlashAttnExtF32, supportsGetRows,
      supportsSetRows, hop] at hs
    try (split at hs)
    all_goals simp at hs

/-- The entry of the table that takes products. -/
theorem lowerNode_mul {node : GraphNode} (hop : node.op = .mul)
    (hl : lowerNode blckSize node = some op) :
    supportsF32Binary node = true ∧ appendF32BinaryOp node = some op := by
  obtain ⟨l, hmem, hs, ha⟩ := lowerNode_some hl
  simp only [kLowerings, List.mem_cons, List.not_mem_nil, or_false] at hmem
  rcases hmem with rfl | rfl | rfl | rfl | rfl | rfl | rfl | rfl | rfl | rfl | rfl
  case inr.inr.inl => exact ⟨hs, ha⟩
  case inr.inl => simp [supportsMatmulQ1a8, GraphNode.toNode, hop] at hs
  all_goals
    simp only [supportsCopy, supportsScaleF32, supportsSiluF32, supportsSwigluF32,
      supportsRmsNormF32, supportsRopeF32, supportsFlashAttnExtF32, supportsGetRows,
      supportsSetRows, hop] at hs
    try (split at hs)
    all_goals simp at hs

theorem execOp_rmsNorm_call (hname : op.name = "RMS_NORM_F32") {m m₁ : Mem}
    (hrun : execOp F mapped other op m = some m₁) :
    ∃ call, Ps.prepareRmsNorm op = .ok call ∧ ∀ m,
      execOp F mapped other op m = some (Ps.bonsaiRmsNormF32 F mapped call.src call.dst
      (Ps.cUint32 call.rows) (Ps.cUint32 call.cols) call.eps m) := by
  simp only [execOp, if_pos hname] at hrun ⊢
  cases hprepare : Ps.prepareRmsNorm op with
  | error e =>
    rw [hprepare] at hrun
    cases hrun
  | ok call =>
    simp only [hprepare] at hrun
    split at hrun
    · cases hrun
    · next hrc => exact ⟨call, rfl, fun m => if_neg hrc⟩

include hsized in
theorem execOp_rmsNorm (hop : (h k).op = .rmsNorm)
    (hl : lowerNode blckSize (h.node k) = some op) {m m₁ : Mem}
    (hrun : execOp F mapped other op m = some m₁) :
    ∃ x xB kB rows cols eps, RmsCall h k x xB kB rows cols ∧ jsonFloat ((h k).params 0) = some eps ∧
      ∀ m, execOp F mapped other op m =
        some (Ps.bonsaiRmsNormF32 F mapped (xB.operand (f32Nbytes (rows * cols)))
        (kB.operand (f32Nbytes (rows * cols))) rows cols eps m) := by
  obtain ⟨hs, ha⟩ := lowerNode_rmsNorm hop hl
  simp only [appendRmsNormF32Op, Option.bind_eq_bind, Option.bind_eq_some_iff, Option.some.injEq]
    at ha
  obtain ⟨src, hsrc, xB, hxB, kB, hkB, rfl⟩ := ha
  obtain ⟨x, hx, rfl⟩ := Option.map_eq_some_iff.mp hsrc
  simp only [supportsRmsNormF32, supportsUnaryF32, hsrc, Bool.and_eq_true] at hs
  obtain ⟨-, ⟨hck, hcx⟩, hshape⟩ := hs
  obtain ⟨rows, cols, hdims⟩ := dims_of_contiguous hsized hck hkB
  obtain ⟨rows', cols', hdims'⟩ := dims_of_contiguous hsized hcx hxB
  have hdimsX : Dims h x xB rows cols := hdims.of_sameShape hdims' (sameShape_ne hshape)
  obtain ⟨call, hprepare, hexec⟩ := execOp_rmsNorm_call rfl hrun
  rw [prepareRmsNorm_eq xB kB rfl hdims.rowsPos rfl hdims.colsPos rfl rfl rfl rfl rfl] at hprepare
  have heps : (h.node k).params = (h k).params := rfl
  rw [heps] at hprepare
  cases hjson : jsonFloat ((h k).params 0) with
  | none =>
    rw [hjson] at hprepare
    cases hprepare
  | some eps =>
    rw [hjson] at hprepare
    cases hprepare
    refine ⟨x, xB, kB, rows, cols, eps, ⟨hx, hdimsX, hdims, hxB, hkB⟩, rfl, fun m => ?_⟩
    rw [hexec m]
    simp only [hdims.rows_eq, hdims.cols_eq, hdims.rowsU32, hdims.colsU32]

/-! ### Products -/

/-- The operands of a product and their shapes. -/
theorem getF32BinaryLowering_shapes {node : GraphNode} {src0 src1 : Strided} {b : Bool}
    (hlow : getF32BinaryLowering node = some (src0, src1, b)) :
    isContiguousF32 node.toTensor = true ∧ isContiguousF32 src0.toTensor = true ∧
      isContiguousF32 src1.toTensor = true ∧
      sameShape src0.toTensor node.toTensor = true ∧
      (if b then isRowBroadcastFor src1.toTensor node.toTensor =
        true else sameShape src1.toTensor node.toTensor = true) := by
  unfold getF32BinaryLowering at hlow
  split at hlow
  · next t0 t1 h0 h1 =>
    split at hlow
    · cases hlow
    · next hnot =>
      obtain ⟨-, hc, hc0, hc1⟩ := not_not.mp hnot
      split at hlow
      · next hboth =>
        cases hlow
        exact ⟨hc, hc0, hc1, hboth.1, hboth.2⟩
      · split at hlow
        · next hbroadcast =>
          cases hlow
          exact ⟨hc, hc0, hc1, hbroadcast.1, hbroadcast.2⟩
        · split at hlow
          · next hswapped =>
            cases hlow
            exact ⟨hc, hc1, hc0, hswapped.1, hswapped.2⟩
          · cases hlow
  · cases hlow

/-- A row that is broadcast has one column. -/
theorem dims_of_broadcast {t : TensorId} {b b' : RemoteBinding} {rows cols rows' cols' : Nat}
    (d : Dims h k b rows cols)
    (d' : Dims h t b' rows' cols') (hrow : isRowBroadcastFor (h t).toTensor (h k).toTensor = true) :
    Dims h t b' rows 1 := by
  simp only [isRowBroadcastFor, Bool.and_eq_true, decide_eq_true_eq] at hrow
  obtain ⟨-, hne, hone⟩ := hrow
  have hrows : rows' = rows := by rw [← d.rows_eq, ← d'.rows_eq, hne]
  have hcols : cols' = 1 := by
    have h1 := hone 1 (by decide)
    have h2 := hone 2 (by decide)
    have h3 := hone 3 (by decide)
    rw [← d'.cols_eq, flattenedCols, Tensor.nelements, h1, h2, h3, Int.mul_one,
      Int.mul_one, Int.mul_one, Int.ediv_self d'.rowsPos.ne']
    rfl
  rw [← hrows, ← hcols]
  exact d'

/-- What a lowered product runs. -/
structure MulCall (h : Heap) (k a c : TensorId) (aB cB kB : RemoteBinding) (rows cols : Nat)
    (broadcast : Bool) : Prop where
  dims0 : Dims h a aB rows cols
  dims1 : Dims h c cB rows (if broadcast then 1 else cols)
  dstDims : Dims h k kB rows cols
  src0B : (h a).toStrided.remote = some aB
  src1B : (h c).toStrided.remote = some cB
  dstB : (h k).toStrided.remote = some kB

theorem execOp_mul_call (hname : op.name = "MUL_F32") {m m₁ : Mem}
    (hrun : execOp F mapped other op m = some m₁) :
    ∃ call, Ps.prepareBinary op = .ok call ∧ ∀ m,
      execOp F mapped other op m = some (Ps.bonsaiMulF32 F mapped call.src0 call.src1
      call.dst (Ps.cUint32 call.rows) (Ps.cUint32 call.cols) call.src1Broadcast m) := by
  have hnot : op.name ≠ "RMS_NORM_F32" := by
    rw [hname]
    decide
  simp only [execOp, if_neg hnot, if_pos hname] at hrun ⊢
  cases hprepare : Ps.prepareBinary op with
  | error e =>
    rw [hprepare] at hrun
    cases hrun
  | ok call =>
    simp only [hprepare] at hrun
    split at hrun
    · cases hrun
    · next hrc => exact ⟨call, rfl, fun m => if_neg hrc⟩

/-- The operands of a lowered product by their pointers. -/
theorem getF32BinaryLowering_ids {r : Strided × Strided × Bool}
    (hlow : getF32BinaryLowering (h.node k) = some r) :
    ∃ a c, r = ((h a).toStrided, (h c).toStrided, r.2.2) ∧ (∃ s, (h k).src s = some a) ∧ ∃ s,
      (h k).src s = some c := by
  obtain ⟨src0, src1, broadcast⟩ := r
  have hid : ∀ src : Strided, (h.node k).src 0 = some src ∨ (h.node k).src 1 = some src →
      ∃ a, (∃ s, (h k).src s = some a) ∧ (h a).toStrided = src := by
    rintro src (hsrc | hsrc)
    · obtain ⟨a, ha, heq⟩ := Option.map_eq_some_iff.mp hsrc
      exact ⟨a, ⟨0, ha⟩, heq⟩
    · obtain ⟨a, ha, heq⟩ := Option.map_eq_some_iff.mp hsrc
      exact ⟨a, ⟨1, ha⟩, heq⟩
  obtain ⟨h0, h1⟩ := getF32BinaryLowering_src hlow
  obtain ⟨a, ha, rfl⟩ := hid src0 h0
  obtain ⟨c, hc, rfl⟩ := hid src1 h1
  exact ⟨a, c, rfl, ha, hc⟩

include hsized in
theorem execOp_mul {a c : TensorId} {broadcast : Bool} (hop : (h k).op = .mul)
    (hl : lowerNode blckSize (h.node k) = some op)
    (hlow : getF32BinaryLowering (h.node k) = some ((h a).toStrided, (h c).toStrided, broadcast))
    {m m₁ : Mem} (hrun : execOp F mapped other op m = some m₁) :
    ∃ aB cB kB rows cols, MulCall h k a c aB cB kB rows cols broadcast ∧
      ∀ m, execOp F mapped other op m =
        some (Ps.bonsaiMulF32 F mapped (aB.operand (f32Nbytes (rows * cols)))
        (cB.operand (f32Nbytes (if broadcast then rows else rows * cols)))
        (kB.operand (f32Nbytes (rows * cols))) rows cols broadcast m) := by
  obtain ⟨-, ha⟩ := lowerNode_mul hop hl
  simp only [appendF32BinaryOp, hlow, Option.bind_eq_bind, Option.bind_some,
    Option.bind_eq_some_iff, Option.some.injEq] at ha
  obtain ⟨aB, haB, cB, hcB, kB, hkB, rfl⟩ := ha
  obtain ⟨hck, hca, hcc, hshape, hshape1⟩ := getF32BinaryLowering_shapes hlow
  obtain ⟨rows, cols, hdims⟩ := dims_of_contiguous hsized hck hkB
  obtain ⟨rowsA, colsA, hdimsA⟩ := dims_of_contiguous hsized hca haB
  obtain ⟨rowsC, colsC, hdimsC⟩ := dims_of_contiguous hsized hcc hcB
  have hdims0 : Dims h a aB rows cols := hdims.of_sameShape hdimsA (sameShape_ne hshape).symm
  have hdims1 : Dims h c cB rows (if broadcast then 1 else cols) := by
    cases broadcast with
    | true => exact dims_of_broadcast hdims hdimsC hshape1
    | false => exact hdims.of_sameShape hdimsC (sameShape_ne hshape1).symm
  have hnot : (h.node k).op ≠ .add := by
    rw [show (h.node k).op = .mul from hop]
    decide
  obtain ⟨call, hprepare, hexec⟩ := execOp_mul_call (if_neg hnot) hrun
  refine ⟨aB, cB, kB, rows, cols, ⟨hdims0, hdims1, hdims, haB, hcB, hkB⟩, fun m => ?_⟩
  rw [hexec m]
  unfold Ps.prepareBinary at hprepare
  rw [positive_ok rfl hdims.rowsPos, positive_ok rfl hdims.colsPos] at hprepare
  simp only [bind, Except.bind] at hprepare
  rw [operand_ok (b := aB) rfl rfl, operand_ok (b := cB) rfl rfl, operand_ok (b := kB) rfl rfl]
    at hprepare
  cases hprepare
  simp only [hdims.rows_eq, hdims.cols_eq, hdims.rowsU32, hdims.colsU32]
  rfl

/-! ### Locality -/

theorem target_eq (hop : (h k).op ≠ .cpy) : h.target k = k := if_neg hop

/-- Two runs of a kernel over whole tensors. -/
theorem local_of_like {kB : RemoteBinding} {rows cols : Nat} {nbytes : Int} {f g : Mem → Mem}
    {m m' : Mem} (hop : (h k).op ≠ .cpy)
    (hdims : Dims h k kB rows cols)
    (hlike : Ps.Like m m' (kB.operand nbytes) (cols * rows) (f m) (g m')) :
    (∀ b, h.Range (h.target k) b → f m b = g m' b) ∧ ∀ b,
      ¬ h.Range (h.target k) b → f m b = m b ∧ g m' b = m' b := by
  rw [target_eq hop]
  exact ⟨fun b hb => hlike.stored b ((hdims.range nbytes b).mp hb), fun b hb =>
    hlike.rest b fun hold => hb ((hdims.range nbytes b).mpr hold)⟩

include hsized in
theorem local_rmsNorm (hop : (h k).op = .rmsNorm) (hl : lowerNode blckSize (h.node k) = some op) :
    Local h k (execOp F mapped other op) := by
  intro m m' m₁ hreads hrun
  obtain ⟨x, xB, kB, rows, cols, eps, call, -, hexec⟩ := execOp_rmsNorm hsized hop hl hrun
  obtain rfl : _ = m₁ := Option.some.inj ((hexec m).symm.trans hrun)
  refine ⟨_, hexec m', local_of_like (by rw [hop]; decide) call.dstDims
    (Ps.rmsNorm_like fun b hb => ?_)⟩
  exact hreads x (Or.inl ⟨0, call.src⟩) b ((call.srcDims.range _ b).mpr hb)

include hsized in
theorem local_mul (hop : (h k).op = .mul) (hl : lowerNode blckSize (h.node k) = some op) :
    Local h k (execOp F mapped other op) := by
  intro m m' m₁ hreads hrun
  obtain ⟨hs, -⟩ := lowerNode_mul hop hl
  obtain ⟨r, hlow⟩ := Option.isSome_iff_exists.mp hs
  obtain ⟨a, c, hr, ha, hc⟩ := getF32BinaryLowering_ids hlow
  rw [hr] at hlow
  obtain ⟨aB, cB, kB, rows, cols, call, hexec⟩ := execOp_mul hsized hop hl hlow hrun
  obtain rfl : _ = m₁ := Option.some.inj ((hexec m).symm.trans hrun)
  refine ⟨_, hexec m', local_of_like (by rw [hop]; decide) call.dstDims
    (Ps.mul_like (fun b hb => ?_) fun b hb => ?_)⟩
  · exact hreads a (Or.inl ha) b ((call.dims0.range _ b).mpr hb)
  · have hcount : (if r.2.2 then rows else cols * rows) = (if r.2.2 then 1 else cols) * rows := by
      split
      · exact (Nat.one_mul rows).symm
      · rfl
    rw [hcount] at hb
    exact hreads c (Or.inl hc) b ((call.dims1.range _ b).mpr hb)

end

end Backend
