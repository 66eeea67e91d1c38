-- SUMMARY: Which accepted nodes the board refuses: the exact limits of each kernel on the nodes that the host lowers to it.
import BonsaiTpu.Backend.Nodes

/-!
# Acceptance

The host decides by the predicates of the lowering table which nodes run on the board;
the wrappers and C functions of the board check the ops again, with limits of their
own. `refused_iff` says for every lowered node when these checks refuse it.
-/

namespace Backend

open Board (Err)
open Board.Matmul (required)
open Ps (Op Operand invalidRequest cUint32)

/-! ## Refusals -/

/-- An outcome that is `invalid_request`, or a value that is bad. Other exceptions are
    not refusals of the request. -/
def Fails {α : Type} (bad : α → Prop) (r : Except Err α) : Prop :=
  (∃ message, r = .error (.allocator .invalidRequest message)) ∨ ∃ a, r = .ok a ∧ bad a

section Fails

variable {α β : Type} {bad : α → Prop}

@[simp] theorem fails_ok (a : α) : Fails bad (.ok a) ↔ bad a := by
  simp [Fails]

@[simp] theorem fails_invalidRequest (message : String) : Fails bad (invalidRequest message) :=
  Or.inl ⟨message, rfl⟩

@[simp] theorem fails_invalid (message : String) :
    Fails bad (.error (.allocator .invalidRequest message)) :=
  Or.inl ⟨message, rfl⟩

@[simp] theorem fails_conversion : ¬ Fails bad (.error .conversion) := by
  simp [Fails]

@[simp] theorem fails_bind (x : Except Err β) (f : β → Except Err α) :
    Fails bad (x >>= f) ↔ Fails (fun b => Fails bad (f b)) x := by
  cases x with
  | ok b =>
    rw [fails_ok]
    rfl
  | error e => simp [Fails, bind, Except.bind]

@[simp] theorem fails_map (x : Except Err β) (f : β → α) :
    Fails bad (f <$> x) ↔ Fails (fun b => bad (f b)) x := by
  cases x with
  | ok b =>
    change Fails bad (Except.ok (f b)) ↔ _
    rw [fails_ok, fails_ok]
  | error e => simp [Fails, Functor.map, Except.map]

@[simp] theorem fails_ite {p : Prop} [Decidable p] (x y : Except Err α) :
    Fails bad (if p then x else y) ↔ (p ∧ Fails bad x) ∨ (¬ p ∧ Fails bad y) := by
  by_cases h : p <;> simp [h]

end Fails

section Fields

variable (op : Op) (key : String) {bad : Nat → Prop}

theorem fails_nonNegativeInt (d : Int) {bad : Int → Prop} :
    Fails bad (Board.nonNegativeInt (some d) key) ↔ d < 0 ∨ (0 ≤ d ∧ bad d) := by
  unfold Board.nonNegativeInt
  rw [fails_bind]
  change Fails _ (Except.ok d) ↔ _
  rw [fails_ok, fails_ite, fails_ok, Int.not_lt]
  simp only [Fails, Except.error.injEq, Board.Err.allocator.injEq, true_and, exists_eq',
    true_or, and_true]

@[simp] theorem fails_required_some (d : Int) :
    Fails bad (required (some (some d)) key) ↔ d < 0 ∨ (0 ≤ d ∧ bad d.toNat) := by
  unfold required
  rw [fails_bind]
  change Fails _ (Board.nonNegativeInt (some d) key) ↔ _
  rw [fails_nonNegativeInt, fails_ok]

/-- A missing field, or a negative one. -/
@[simp] theorem fails_required :
    Fails bad (op.required key) ↔ (op.ints.lookup key).elim True fun d => d < 0 ∨
      (0 ≤ d ∧ bad d.toNat) := by
  unfold Ps.Op.required
  cases op.ints.lookup key with
  | none =>
    simp only [Option.elim_none, iff_true]
    exact Or.inl ⟨_, rfl⟩
  | some d => exact fails_required_some key d

@[simp] theorem fails_optionalInt :
    Fails bad (op.optionalInt key) ↔ (op.ints.lookup key).elim (bad 0) fun d => d < 0 ∨
      (0 ≤ d ∧ bad d.toNat) := by
  unfold Ps.Op.optionalInt Board.Matmul.optionalInt
  cases op.ints.lookup key with
  | none => exact fails_ok 0
  | some d =>
    change Fails bad (Board.nonNegativeInt (some d) key >>= fun parsed => Except.ok parsed.toNat) ↔
      _
    rw [fails_bind, fails_nonNegativeInt, fails_ok]
    rfl

@[simp] theorem fails_positive :
    Fails bad (op.positive key) ↔ (op.ints.lookup key).elim True fun d => d ≤ 0 ∨
      (0 < d ∧ bad d.toNat) := by
  unfold Ps.Op.positive
  rw [fails_bind, fails_required]
  cases op.ints.lookup key with
  | none => rfl
  | some d =>
    simp only [Option.elim_some, fails_ite, fails_ok, fails_invalidRequest, and_true]
    by_cases hpos : 0 < d
    · have hne : d.toNat ≠ 0 := by omega
      simp only [hpos, hne, Int.not_lt.mpr hpos.le, Int.not_le.mpr hpos, hpos.le,
        false_or, true_and, not_false_eq_true]
    · have hle : d ≤ 0 := by omega
      have hzero : d.toNat = 0 := by omega
      simp only [hle, hzero, true_or, and_true, iff_true]
      omega

@[simp] theorem fails_int {bad : Int → Prop} :
    Fails bad (op.int key) ↔ (op.ints.lookup key).elim False bad := by
  unfold Ps.Op.int
  cases op.ints.lookup key with
  | none => simp [Fails]
  | some d => exact fails_ok d

@[simp] theorem fails_float {bad : BitVec 32 → Prop} :
    Fails bad (op.float key) ↔ (op.floats.lookup key).elim False fun x => ∃ bits,
      x = some bits ∧ bad bits := by
  unfold Ps.Op.float
  rcases op.floats.lookup key with _ | _ | bits
  · simp [Fails]
  · simp
  · simp

@[simp] theorem fails_floatOr {default : BitVec 32} {bad : BitVec 32 → Prop} :
    Fails bad (op.floatOr key default) ↔
      (op.floats.lookup key).elim (bad default) fun x => ∃ bits, x = some bits ∧ bad bits := by
  unfold Ps.Op.floatOr
  rcases op.floats.lookup key with _ | _ | bits
  · simp
  · simp
  · simp

@[simp] theorem fails_operand {handleKey offsetKey : String} {nbytes : Int} {bad : Operand → Prop} :
    Fails bad (op.operand handleKey offsetKey nbytes) ↔
      Fails (fun handle =>
        Fails (fun offset => bad ⟨handle, offset, nbytes⟩) (op.optionalInt offsetKey))
        (op.required handleKey) := by
  unfold Ps.Op.operand
  simp only [fails_bind, fails_ok]

@[simp] theorem natCast_not_neg (n : Nat) : ¬ (n : Int) < 0 := by omega

end Fields

/-! ## Limits -/

/-- The low 32 bits of a positive dimension are not zero. -/
def dimOk (d : Int) : Prop := 0 < d ∧ d % 2 ^ 32 ≠ 0

theorem cUint32_eq_zero {d : Int} (h : 0 ≤ d) : cUint32 d.toNat = 0 ↔ d % 2 ^ 32 = 0 := by
  unfold cUint32
  omega

theorem rc_ne_zero {p : Prop} [Decidable p] {c : Int} (hc : c ≠ 0) :
    (if p then c else 0) ≠ 0 ↔ p := by
  by_cases h : p <;> simp [h, hc]

theorem elementsRc_ne {d : Int} (h : 0 ≤ d) : Ps.elementsRc d.toNat ≠ 0 ↔ d % 2 ^ 32 = 0 := by
  unfold Ps.elementsRc
  rw [rc_ne_zero (by decide), cUint32_eq_zero h]

theorem setRowsRowRc_ne {d : Int} :
    0 ≤ d ∧ Ps.setRowsRowRc d.toNat ≠ 0 ↔ 0 ≤ d ∧ d % 2 ^ 32 = 0 := by
  unfold Ps.setRowsRowRc
  rw [rc_ne_zero (by decide)]
  exact and_congr_right fun h => cUint32_eq_zero h

theorem rowsColsRc_ne {rows cols : Int} (hr : 0 ≤ rows) (hc : 0 ≤ cols) :
    Ps.rowsColsRc rows.toNat cols.toNat ≠ 0 ↔ rows % 2 ^ 32 = 0 ∨ cols % 2 ^ 32 = 0 := by
  unfold Ps.rowsColsRc
  rw [rc_ne_zero (by decide), cUint32_eq_zero hr, cUint32_eq_zero hc]

theorem matmulRc_ne {r c k : Int} (hk : 0 < k) (hmod : k % 128 = 0) : 0 ≤ r → 0 ≤ c →
    (Ps.matmulRc r.toNat c.toNat k.toNat ≠ 0 ↔
      r % 2 ^ 32 = 0 ∨ c % 2 ^ 32 = 0 ∨ k % 2 ^ 32 = 0) := by
  intro hr hc
  unfold Ps.matmulRc
  rw [rc_ne_zero (by decide), cUint32_eq_zero hr, cUint32_eq_zero hc, cUint32_eq_zero hk.le]
  have hblock : cUint32 k.toNat % Layout.Q1_BLOCK = 0 := by
    unfold cUint32 Layout.Q1_BLOCK
    omega
  simp [hblock]

theorem ropeRc_ne {headDim nHead nToken nDims : Int} (hdim : 0 ≤ headDim) (hhead : 0 ≤ nHead)
    (htoken : 0 ≤ nToken) (hpos : 0 < nDims) (heven : nDims % 2 = 0) (hlt : nDims < 2 ^ 32) :
    Ps.ropeRc headDim.toNat nHead.toNat nToken.toNat nDims.toNat ≠ 0 ↔
      nHead % 2 ^ 32 = 0 ∨ nToken % 2 ^ 32 = 0 ∨ headDim % 2 ^ 32 < nDims := by
  unfold Ps.ropeRc cUint32
  split
  · omega
  · split
    · omega
    · omega

theorem flashRc_ne {headDimQ headDimV nHead nHeadKv nKv nToken : Int} (hq : 0 ≤ headDimQ)
    (hv : 0 ≤ headDimV)
    (hhead : 0 ≤ nHead) (hheadKv : 0 ≤ nHeadKv) (hkv : 0 < nKv) (hcap : nKv ≤ 1024)
    (htoken : 0 ≤ nToken) :
    Ps.flashRc headDimQ.toNat headDimV.toNat nHead.toNat nHeadKv.toNat nKv.toNat nToken.toNat = 0 ↔
      headDimQ % 2 ^ 32 ≠ 0 ∧ headDimQ % 2 ^ 32 ≤ Ps.FATTN_MAX_HEAD_DIM ∧ headDimV % 2 ^ 32 ≠ 0 ∧
      headDimV % 2 ^ 32 ≤ Ps.FATTN_MAX_HEAD_DIM ∧ nToken % 2 ^ 32 ≠ 0 ∧ nHead % 2 ^ 32 ≠ 0 ∧
      nHeadKv % 2 ^ 32 ≠ 0 ∧
      nHead % 2 ^ 32 % (nHeadKv % 2 ^ 32) = 0 := by
  have hmod : ((cUint32 nHead.toNat % cUint32 nHeadKv.toNat : Nat) : Int) =
      nHead % 2 ^ 32 % (nHeadKv % 2 ^ 32) := by
    unfold cUint32
    rw [Int.natCast_emod, Int.natCast_emod, Int.natCast_emod, Int.toNat_of_nonneg hhead,
      Int.toNat_of_nonneg hheadKv]
    rfl
  have hkv32 : cUint32 nKv.toNat ≠ 0 := by
    unfold cUint32
    omega
  have hqz := cUint32_eq_zero hq
  have hvz := cUint32_eq_zero hv
  have hhz := cUint32_eq_zero hhead
  have hkz := cUint32_eq_zero hheadKv
  have htz := cUint32_eq_zero htoken
  have hqle : (cUint32 headDimQ.toNat : Int) = headDimQ % 2 ^ 32 := by
    unfold cUint32
    omega
  have hvle : (cUint32 headDimV.toNat : Int) = headDimV % 2 ^ 32 := by
    unfold cUint32
    omega
  rw [← hmod]
  unfold Ps.flashRc Ps.FATTN_MAX_HEAD_DIM
  split
  · omega
  · split
    · omega
    · split
      · omega
      · omega

theorem getRowsRc_ne {d : Int} (tag : String) (h : 0 ≤ d) (hmod : tag = "q1_0" → d % 128 = 0) :
    Ps.getRowsRc tag d.toNat ≠ 0 ↔ d % 2 ^ 32 = 0 := by
  unfold Ps.getRowsRc
  rw [rc_ne_zero (by decide), cUint32_eq_zero h]
  refine ⟨?_, Or.inl⟩
  rintro (hzero | ⟨htag, hblock⟩)
  · exact hzero
  · have := hmod htag
    unfold cUint32 Layout.Q1_BLOCK at hblock
    omega

def isFinite (bits : BitVec 32) : Prop := (jsonFloat bits).isSome

/-- CPY; a raw copy has no limits. -/
def copyLimits (src dst : Strided) : Prop := src.type = .f32 → dst.type = .f16 → dimOk src.nelements

/-- MUL_MAT. -/
def matmulLimits (weights acts : Strided) : Prop :=
  dimOk (weights.ne 1) ∧ dimOk (acts.ne 1) ∧ dimOk (weights.ne 0)

/-- ADD, MUL and RMS_NORM. -/
def rowsColsLimits (node : GraphNode) : Prop :=
  dimOk (node.ne 0) ∧ dimOk (flattenedCols node.toTensor)

/-- SCALE, SILU and SWIGLU. -/
def elementsLimits (node : GraphNode) : Prop := dimOk node.nelements

/-- ROPE. The C function sees the low 32 bits of the head size. -/
def ropeLimits (node : GraphNode) (src : Strided) : Prop :=
  0 < src.ne 1 ∧ 0 < src.ne 2 ∧ 0 ≤ (node.params 4).toInt ∧
    ((∀ i ∈ [5, 6, 7, 8, 9, 10], isFinite (node.params i)) →
      dimOk (src.ne 1) ∧ dimOk (src.ne 2) ∧ (node.params 1).toInt ≤ src.ne 0 % 2 ^ 32)

/-- FLASH_ATTN_EXT. -/
def flashLimits (node : GraphNode) (q k v : Strided) : Prop :=
  0 < q.ne 1 ∧ 0 < k.ne 1 ∧
    (isFinite (node.params 0) →
      k.ne 1 ≤ Ps.MAX_FLASH_ATTN_KV ∧ dimOk (q.ne 0) ∧ q.ne 0 % 2 ^ 32 ≤ Ps.FATTN_MAX_HEAD_DIM ∧
      dimOk (v.ne 0) ∧ v.ne 0 % 2 ^ 32 ≤ Ps.FATTN_MAX_HEAD_DIM ∧ dimOk (q.ne 1) ∧ dimOk (q.ne 2) ∧
      dimOk (k.ne 2) ∧ q.ne 2 % 2 ^ 32 % (k.ne 2 % 2 ^ 32) = 0)

/-- GET_ROWS. -/
def getRowsLimits (src0 src1 : Strided) : Prop := dimOk (src0.ne 0) ∧ 0 < src0.ne 1 ∧ 0 < src1.ne 0

/-- SET_ROWS. -/
def setRowsLimits (src0 : Strided) : Prop := dimOk (src0.ne 0) ∧ 0 < src0.ne 1

/-- The limits of the board kernel that a node is lowered to. -/
def boardLimits (node : GraphNode) : Prop :=
  match node.op, node.src 0, node.src 1, node.src 2 with
  | .cpy, some src, some dst, _ => copyLimits src dst
  | .mulMat, some weights, some acts, _ => matmulLimits weights acts
  | .add, _, _, _ | .mul, _, _, _ => rowsColsLimits node
  | .rmsNorm, _, _, _ => isFinite (node.params 0) → rowsColsLimits node
  | .scale, _, _, _ => isFinite (node.params 0) → isFinite (node.params 1) → elementsLimits node
  | .unary, _, _, _ | .glu, _, _, _ => elementsLimits node
  | .rope, some src, _, _ => ropeLimits node src
  | .flashAttnExt, some q, some k, some v => flashLimits node q k v
  | .getRows, some src0, some src1, _ => getRowsLimits src0 src1
  | .setRows, some src0, _, _ => setRowsLimits src0
  | _, _, _, _ => True

/-- An op that the board refuses, by the PS kernel or by the PL matmul. -/
def Refused (op : Op) : Prop :=
  Fails (· ≠ 0) (Ps.check op) ∨ (op.name = "MATMUL_Q1A8" ∧ Fails (· ≠ 0) (Ps.checkPlMatmul op))

theorem isContiguousF32_pos {t : Tensor} (h : isContiguousF32 t = true) :
    0 < t.ne 0 ∧ 0 < t.nelements ∧ 0 < flattenedCols t := by
  unfold isContiguousF32 at h
  simp only [Bool.and_eq_true, decide_eq_true_eq] at h
  obtain ⟨⟨-, hne, hel⟩, -⟩ := h
  refine ⟨hne, hel, ?_⟩
  unfold flattenedCols
  have hdvd : t.ne 0 ∣ t.nelements := by
    unfold Tensor.nelements
    exact Dvd.dvd.mul_right (Dvd.dvd.mul_right (Dvd.intro _ rfl) _) _
  exact Int.ediv_pos_of_pos_of_dvd hel hne.le hdvd

section Nodes

variable {node : GraphNode} {op : Op}

theorem refused_of_name (h : op.name ≠ "MATMUL_Q1A8") :
    Refused op ↔ Fails (· ≠ 0) (Ps.check op) := by
  simp [Refused, h]

theorem isFinite_iff {bits : BitVec 32} : isFinite bits ↔ ∃ x, jsonFloat bits = some x := by
  unfold isFinite
  exact Option.isSome_iff_exists

theorem jsonFloat_of_isZero {bits : BitVec 32} (h : Ps.floatIsZero bits = true) :
    jsonFloat bits = some bits := by
  unfold Ps.floatIsZero at h
  unfold jsonFloat
  have hzero : bits &&& 0x7FFFFFFF#32 = 0#32 := by simpa using h
  have hexp : bits &&& 0x7F800000#32 = 0#32 := by
    have hsub : (0x7F800000#32 : BitVec 32) = 0x7FFFFFFF#32 &&& 0x7F800000#32 := rfl
    rw [hsub, ← BitVec.and_assoc, hzero, BitVec.zero_and]
  rw [hexp, if_neg (by decide)]

theorem dimOk_iff {d : Int} (h : 0 < d) : dimOk d ↔ d % 2 ^ 32 ≠ 0 := by
  simp [dimOk, h]

theorem supportsUnaryF32_pos (hs : supportsUnaryF32 node = true) :
    0 < node.ne 0 ∧ 0 < node.nelements ∧ 0 < flattenedCols node.toTensor := by
  unfold supportsUnaryF32 at hs
  split at hs
  · simp only [Bool.and_eq_true] at hs
    exact isContiguousF32_pos hs.1.1
  · cases hs

theorem getF32BinaryLowering_some {r : Strided × Strided × Bool}
    (h : getF32BinaryLowering node = some r) :
    (node.op = .add ∨ node.op = .mul) ∧ isContiguousF32 node.toTensor = true := by
  unfold getF32BinaryLowering at h
  split at h
  · split at h
    · cases h
    · next hnot =>
      obtain ⟨hkind, hcontiguous, -⟩ := not_not.mp hnot
      exact ⟨hkind, hcontiguous⟩
  · cases h

theorem getF32BinaryLowering_src {src0 src1 : Strided} {b : Bool}
    (h : getF32BinaryLowering node = some (src0, src1, b)) :
    (node.src 0 = some src0 ∨ node.src 1 = some src0) ∧
      (node.src 0 = some src1 ∨ node.src 1 = some src1) := by
  unfold getF32BinaryLowering at h
  split at h
  · next t0 t1 h0 h1 =>
    rw [h0, h1]
    split at h
    · cases h
    · split at h
      · cases h
        exact ⟨Or.inl rfl, Or.inr rfl⟩
      · split at h
        · cases h
          exact ⟨Or.inl rfl, Or.inr rfl⟩
        · split at h
          · cases h
            exact ⟨Or.inr rfl, Or.inl rfl⟩
          · cases h
  · cases h

theorem typeTag_eq_f32 (t : GgmlType) : typeTag t = "f32" ↔ t = .f32 := by
  cases t <;> simp [typeTag]

theorem typeTag_eq_f16 (t : GgmlType) : typeTag t = "f16" ↔ t = .f16 := by
  cases t <;> simp [typeTag]

theorem refused_copy (hs : supportsCopy node = true) (ha : appendCopyOp node = some op) :
    Refused op ↔ ¬ boardLimits node := by
  simp only [appendCopyOp, Option.bind_eq_bind, Option.bind_eq_some_iff, Option.some.injEq] at ha
  obtain ⟨src, hsrc, dst, hdst, srcB, -, dstB, -, hop⟩ := ha
  simp only [supportsCopy, hsrc, hdst, Bool.and_eq_true, decide_eq_true_eq] at hs
  have hlimits : boardLimits node = copyLimits src dst := by
    simp only [boardLimits, hs.1.1.1, hsrc, hdst]
  have hfails : Fails (· ≠ 0) (Ps.check op) ↔ (src.type = .f32 ∧ dst.type = .f16) ∧
      (src.nelements < 0 ∨ 0 ≤ src.nelements ∧ Ps.setRowsRowRc src.nelements.toNat ≠ 0) := by
    rw [← hop]
    simp [Ps.check, Ps.prepareCopy, Ps.Op.tagOr, List.lookup_cons, typeTag_eq_f32,
      typeTag_eq_f16, Ps.copyRc]
  rw [refused_of_name (by simp [← hop]), hfails, setRowsRowRc_ne, hlimits, copyLimits, dimOk]
  constructor
  · rintro ⟨htypes, hbad⟩ hfits
    have := hfits htypes.1 htypes.2
    omega
  · intro hexceeds
    simp only [Classical.not_imp] at hexceeds
    exact ⟨⟨hexceeds.1, hexceeds.2.1⟩, by omega⟩

theorem refused_binary (ha : appendF32BinaryOp node = some op) :
    Refused op ↔ ¬ boardLimits node := by
  simp only [appendF32BinaryOp, Option.bind_eq_bind, Option.bind_eq_some_iff, Option.some.injEq,
    Prod.exists] at ha
  obtain ⟨src0, src1, broadcast, hlow, src0B, -, src1B, -, dstB, -, hop⟩ := ha
  obtain ⟨hkind, hcontiguous⟩ := getF32BinaryLowering_some hlow
  obtain ⟨hrows, -, hcols⟩ := isContiguousF32_pos hcontiguous
  have hlimits : boardLimits node = rowsColsLimits node := by
    rcases hkind with h | h <;> simp only [boardLimits, h]
  have hfails : Fails (· ≠ 0) (Ps.check op) ↔
      Ps.rowsColsRc (node.ne 0).toNat (flattenedCols node.toTensor).toNat ≠ 0 := by
    rw [← hop]
    by_cases hadd : node.op = .add
    · simp [hadd, Ps.check, Ps.prepareBinary, List.lookup_cons, hrows, hcols, Int.not_le.mpr hrows,
        Int.not_le.mpr hcols]
    · simp [hadd, Ps.check, Ps.prepareBinary, List.lookup_cons, hrows, hcols, Int.not_le.mpr hrows,
        Int.not_le.mpr hcols]
  have hname : op.name ≠ "MATMUL_Q1A8" := by
    rw [← hop]
    by_cases hadd : node.op = .add <;> simp [hadd]
  rw [refused_of_name hname, hfails, rowsColsRc_ne hrows.le hcols.le, hlimits, rowsColsLimits,
    dimOk_iff hrows, dimOk_iff hcols]
  simp only [ne_eq, not_and_or, not_not]

theorem refused_scale (hs : supportsScaleF32 node = true) (ha : appendScaleF32Op node = some op) :
    Refused op ↔ ¬ boardLimits node := by
  simp only [appendScaleF32Op, Option.bind_eq_bind, Option.bind_eq_some_iff, Option.some.injEq]
    at ha
  obtain ⟨src, hsrc, srcB, -, dstB, -, rfl⟩ := ha
  simp only [supportsScaleF32, Bool.and_eq_true, decide_eq_true_eq] at hs
  obtain ⟨-, hel, -⟩ := supportsUnaryF32_pos hs.2
  have hlimits : boardLimits node ↔
      (isFinite (node.params 0) → isFinite (node.params 1) → elementsLimits node) := by
    simp only [boardLimits, hs.1]
  rw [refused_of_name (by simp), hlimits, elementsLimits, dimOk_iff hel]
  have hrc := elementsRc_ne hel.le
  simp [Ps.check, Ps.prepareScale, List.lookup_cons, isFinite_iff, hel, Int.not_le.mpr hel, hrc]

theorem refused_silu (hs : supportsSiluF32 node = true) (ha : appendSiluF32Op node = some op) :
    Refused op ↔ ¬ boardLimits node := by
  simp only [appendSiluF32Op, Option.bind_eq_bind, Option.bind_eq_some_iff, Option.some.injEq] at ha
  obtain ⟨src, hsrc, srcB, -, dstB, -, rfl⟩ := ha
  simp only [supportsSiluF32, Bool.and_eq_true, decide_eq_true_eq] at hs
  obtain ⟨-, hel, -⟩ := supportsUnaryF32_pos hs.2
  have hlimits : boardLimits node = elementsLimits node := by simp only [boardLimits, hs.1.1]
  rw [refused_of_name (by simp), hlimits, elementsLimits, dimOk_iff hel]
  have hrc := elementsRc_ne hel.le
  simp [Ps.check, Ps.prepareUnary, List.lookup_cons, hel, Int.not_le.mpr hel, hrc]

theorem refused_swiglu (hs : supportsSwigluF32 node = true)
    (ha : appendSwigluF32Op node = some op) :
    Refused op ↔ ¬ boardLimits node := by
  simp only [appendSwigluF32Op, Option.bind_eq_bind, Option.bind_eq_some_iff, Option.some.injEq]
    at ha
  obtain ⟨src0, hsrc0, src1, hsrc1, src0B, -, src1B, -, dstB, -, rfl⟩ := ha
  simp only [supportsSwigluF32, hsrc0, hsrc1, Bool.and_eq_true, decide_eq_true_eq] at hs
  obtain ⟨-, hel, -⟩ := isContiguousF32_pos hs.1.1.1.1.2
  have hlimits : boardLimits node = elementsLimits node := by
    simp only [boardLimits, hs.1.1.1.1.1.1]
  rw [refused_of_name (by simp), hlimits, elementsLimits, dimOk_iff hel]
  have hrc := elementsRc_ne hel.le
  simp [Ps.check, Ps.prepareSwiglu, List.lookup_cons, hel, Int.not_le.mpr hel, hrc]

theorem refused_rmsNorm (hs : supportsRmsNormF32 node = true)
    (ha : appendRmsNormF32Op node = some op) :
    Refused op ↔ ¬ boardLimits node := by
  simp only [appendRmsNormF32Op, Option.bind_eq_bind, Option.bind_eq_some_iff, Option.some.injEq]
    at ha
  obtain ⟨src, hsrc, srcB, -, dstB, -, hop⟩ := ha
  simp only [supportsRmsNormF32, Bool.and_eq_true, decide_eq_true_eq] at hs
  obtain ⟨hrows, -, hcols⟩ := supportsUnaryF32_pos hs.2
  have hlimits : boardLimits node ↔ (isFinite (node.params 0) → rowsColsLimits node) := by
    simp only [boardLimits, hs.1]
  have hfails : Fails (· ≠ 0) (Ps.check op) ↔ isFinite (node.params 0) ∧
      Ps.rowsColsRc (node.ne 0).toNat (flattenedCols node.toTensor).toNat ≠ 0 := by
    rw [← hop]
    simp [Ps.check, Ps.prepareRmsNorm, List.lookup_cons, isFinite_iff, hrows, hcols,
      Int.not_le.mpr hrows, Int.not_le.mpr hcols]
  rw [refused_of_name (by simp [← hop]), hfails, rowsColsRc_ne hrows.le hcols.le,
    hlimits, rowsColsLimits, dimOk_iff hrows, dimOk_iff hcols]
  simp only [Classical.not_imp, ne_eq, not_and_or, not_not]

theorem fails_liftLayout {bad : Nat → Prop} {n : Nat} {x : Except String Nat} (h : x = .ok n) :
    Fails bad (Board.Matmul.liftLayout x) ↔ bad n := by
  rw [h]
  exact fails_ok n

theorem refused_matmul {blckSize : GgmlType → Int} (hblck : blckSize .q1_0 = Layout.Q1_BLOCK)
    (hs : supportsMatmulQ1a8 blckSize node.toNode = true) (ha : appendMatmulOp node = some op) :
    Refused op ↔ ¬ boardLimits node := by
  simp only [appendMatmulOp, Option.bind_eq_bind, Option.bind_eq_some_iff, Option.some.injEq] at ha
  obtain ⟨weights, hweights, acts, hacts, mop, hmop, hop⟩ := ha
  have hkind : node.op = .mulMat ∧ 0 < weights.ne 0 ∧ weights.ne 0 % 128 = 0 := by
    simp [supportsMatmulQ1a8, GraphNode.toNode, hweights, hacts, hblck, Layout.Q1_BLOCK] at hs
    exact ⟨hs.1.1, by omega⟩
  obtain ⟨hkind, hk⟩ := hkind
  have hlimits : boardLimits node = matmulLimits weights acts := by
    simp only [boardLimits, hkind, hweights, hacts]
  unfold appendMatmulQ1a8Op at hmop
  split at hmop
  · next weightsB actsB dstB _ _ _ =>
    split at hmop
    · cases hmop
      have hmod : (weights.ne 0).toNat % Layout.Q1_BLOCK = 0 := by
        unfold Layout.Q1_BLOCK
        omega
      have hlayout := fun rows => Layout.packedNbytes_ok hmod rows
      have hps : Fails (· ≠ 0) (Ps.check op) ↔
          weights.ne 1 < 0 ∨ 0 ≤ weights.ne 1 ∧ (acts.ne 1 < 0 ∨ 0 ≤ acts.ne 1 ∧
          Ps.matmulRc (weights.ne 1).toNat (acts.ne 1).toNat (weights.ne 0).toNat ≠ 0) := by
        rw [← hop]
        simp [Ps.check, Ps.prepareMatmul, matmulOp, List.lookup_cons, hmod,
          fails_liftLayout (hlayout _), hk.1, hk.1.le, Int.not_le.mpr hk.1, Int.not_lt.mpr hk.1.le]
      have hpl : Fails (· ≠ 0) (Ps.checkPlMatmul op) ↔
          weights.ne 1 < 0 ∨ 0 ≤ weights.ne 1 ∧ (acts.ne 1 < 0 ∨
          0 ≤ acts.ne 1 ∧ ((weights.ne 1 ≤ 0 ∨ acts.ne 1 ≤ 0) ∨ (0 < weights.ne 1 ∧ 0 < acts.ne 1) ∧
            (cUint32 (weights.ne 0).toNat ≠ 0 →
              cUint32 (weights.ne 0).toNat % Layout.Q8_BLOCK ≠ 0))) := by
        rw [← hop]
        simp [Ps.checkPlMatmul, Ps.Op.matmulFields, matmulOp, List.lookup_cons,
          Board.Matmul.checkShape, hmod, hk.1.le, Int.not_le.mpr hk.1, Int.not_lt.mpr hk.1.le]
      have hname : op.name = "MATMUL_Q1A8" := by rw [← hop]; rfl
      have hrc := matmulRc_ne (r := weights.ne 1) (c := acts.ne 1) hk.1 hk.2
      rw [Refused, hps, hpl, hlimits, matmulLimits]
      unfold dimOk cUint32 Layout.Q8_BLOCK
      simp only [hname, true_and]
      omega
    · cases hmop
  · cases hmop

theorem refused_rope (hs : supportsRopeF32 node = true) (ha : appendRopeF32Op node = some op) :
    Refused op ↔ ¬ boardLimits node := by
  simp only [appendRopeF32Op, Option.bind_eq_bind, Option.bind_eq_some_iff, Option.some.injEq] at ha
  obtain ⟨src, hsrc, pos, hpos, srcB, -, posB, -, dstB, -, hop⟩ := ha
  simp only [supportsRopeF32, hsrc, hpos, Bool.and_eq_true, decide_eq_true_eq] at hs
  obtain ⟨⟨⟨⟨⟨⟨hkind, -⟩, -⟩, -⟩, -⟩, -⟩, hdims, heven, hle, hmode⟩ := hs
  have hlimits : boardLimits node = ropeLimits node src := by simp only [boardLimits, hkind, hsrc]
  have hhead : 0 < src.ne 0 := by omega
  have hmode' : 0 ≤ (node.params 2).toInt := by omega
  have hfails : Fails (· ≠ 0) (Ps.check op) ↔
      src.ne 1 ≤ 0 ∨ 0 < src.ne 1 ∧ (src.ne 2 ≤ 0 ∨ 0 < src.ne 2 ∧
      ((node.params 4).toInt < 0 ∨ 0 ≤ (node.params 4).toInt ∧
        ((∀ i ∈ [5, 6, 7, 8, 9, 10], isFinite (node.params i)) ∧
          Ps.ropeRc (src.ne 0).toNat (src.ne 1).toNat (src.ne 2).toNat
            (node.params 1).toInt.toNat ≠ 0))) := by
    rw [← hop]
    simp [Ps.check, Ps.prepareRope, List.lookup_cons, isFinite_iff, hhead, hdims, hmode',
      Int.not_le.mpr hhead, Int.not_le.mpr hdims, Int.not_lt.mpr hmode', and_assoc]
  have hlt : (node.params 1).toInt < 2 ^ 32 := by
    have := (node.params 1).toInt_lt
    omega
  rw [refused_of_name (by simp [← hop]), hfails, hlimits, ropeLimits]
  generalize (∀ i ∈ [5, 6, 7, 8, 9, 10], isFinite (node.params i)) = finite
  by_cases hall : 0 < src.ne 1 ∧ 0 < src.ne 2 ∧ 0 ≤ (node.params 4).toInt
  · have hrc := ropeRc_ne hhead.le hall.1.le hall.2.1.le hdims heven hlt
    rw [hrc, dimOk_iff hall.1, dimOk_iff hall.2.1]
    by_cases hfinite : finite
    · simp only [hfinite, true_and, true_imp_iff]
      omega
    · simp only [hfinite, false_and, false_imp_iff, and_true, and_false, or_false]
      omega
  · constructor
    · intro _ hfits
      exact hall ⟨hfits.1, hfits.2.1, hfits.2.2.1⟩
    · intro _
      omega

/-- The mask of a lowered node is not a reason to refuse it. -/
theorem fails_maskOperand {base mask : List (String × Int)}
    (hmask : maskFields (node.src 3) = some mask)
    (hints : op.ints = base ++ mask) (hflag : op.flags = [("has_mask", (node.src 3).isSome)])
    (h1 : base.lookup "mask" = none) (h2 : base.lookup "mask_offset" = none) :
    ∃ operand : Int → Option Operand, ∀ (nbytes : Int) (bad : Option Operand → Prop),
      Fails bad (op.maskOperand nbytes) ↔ bad (operand nbytes) := by
  unfold Ps.Op.maskOperand Ps.Op.flag
  rw [hflag]
  cases h3 : node.src 3 with
  | none => exact ⟨fun _ => none, by simp⟩
  | some m =>
    rw [h3] at hmask
    simp only [maskFields, Option.bind_eq_bind, Option.bind_eq_some_iff, Option.some.injEq] at hmask
    obtain ⟨maskB, -, rfl⟩ := hmask
    refine ⟨fun nbytes => some ⟨maskB.handle, maskB.remoteOffset, nbytes⟩, ?_⟩
    simp [hints, List.lookup_cons, List.lookup_append, h1, h2]

theorem refused_flash (hs : supportsFlashAttnExtF32 node = true)
    (ha : appendFlashAttnExtF32Op node = some op) :
    Refused op ↔ ¬ boardLimits node := by
  simp only [appendFlashAttnExtF32Op, Option.bind_eq_bind, Option.bind_eq_some_iff,
    Option.some.injEq] at ha
  obtain ⟨q, hq, k, hk, v, hv, qB, -, kB, -, vB, -, dstB, -, mask, hmask, hop⟩ := ha
  simp only [supportsFlashAttnExtF32, hq, hk, hv, Bool.and_eq_true, decide_eq_true_eq] at hs
  have hlimits : boardLimits node = flashLimits node q k v := by
    simp only [boardLimits, hs.1.1.1.1.1.1.1.1.1, hq, hk, hv]
  obtain ⟨⟨⟨⟨⟨-, -, hdq, hdv, -, -, hhead, hheadKv, hgqa⟩, -⟩, hbias⟩, hcap⟩, -⟩ := hs
  have hname : op.name = "FLASH_ATTN_EXT_F32" := by rw [← hop]
  have hints := congrArg Ps.Op.ints hop.symm
  have hfloats := congrArg Ps.Op.floats hop.symm
  have hgroups : (q.ne 2).toNat % (k.ne 2).toNat = 0 := by
    rw [← Int.toNat_emod hhead.le hheadKv.le, hgqa]
    rfl
  obtain ⟨maskAt, hmaskAt⟩ := fails_maskOperand hmask hints (congrArg Ps.Op.flags hop.symm) rfl rfl
  have hfails : Fails (· ≠ 0) (Ps.check op) ↔ k.ne 1 ≤ 0 ∨ 0 < k.ne 1 ∧ (q.ne 1 ≤ 0 ∨ 0 < q.ne 1 ∧
      (isFinite (node.params 0) ∧ (Ps.MAX_FLASH_ATTN_KV < k.ne 1 ∨ k.ne 1 ≤ Ps.MAX_FLASH_ATTN_KV ∧
        Ps.flashRc (q.ne 0).toNat (v.ne 0).toNat (q.ne 2).toNat (k.ne 2).toNat (k.ne 1).toNat
          (q.ne 1).toNat ≠ 0))) := by
    simp [Ps.check, hname, Ps.prepareFlash, hints, hfloats, List.lookup_cons, hmaskAt,
      Ps.FlashCall.rc, hdq, hdv, hhead, hheadKv, Int.not_le.mpr hdq, Int.not_le.mpr hdv,
      Int.not_le.mpr hhead, Int.not_le.mpr hheadKv, isFinite_iff, jsonFloat_of_isZero hbias,
      jsonFloat_of_isZero hcap, hbias, hcap, hgroups]
  rw [refused_of_name (by simp [hname]), hfails, hlimits, flashLimits, dimOk_iff hdq, dimOk_iff hdv,
    dimOk_iff hhead, dimOk_iff hheadKv]
  by_cases hall : 0 < k.ne 1 ∧ 0 < q.ne 1
  · obtain ⟨hkv, htoken⟩ := hall
    rw [dimOk_iff htoken]
    by_cases hle : k.ne 1 ≤ Ps.MAX_FLASH_ATTN_KV
    · have hrc := flashRc_ne hdq.le hdv.le hhead.le hheadKv.le hkv hle htoken.le
      simp only [hkv, htoken, hle, ne_eq, hrc, true_and, Int.not_le.mpr hkv, Int.not_le.mpr htoken,
        Int.not_lt.mpr hle, false_or, Classical.not_imp]
    · simp only [hkv, htoken, hle, true_and, Int.not_le.mpr hkv, Int.not_le.mpr htoken,
        Int.not_le.mp hle, false_or, true_or, and_true, false_and, Classical.not_imp,
        not_false_eq_true]
  · constructor
    · intro _ hfits
      exact hall ⟨hfits.2.1, hfits.1⟩
    · intro _
      omega

theorem refused_getRows {blckSize : GgmlType → Int} (hblck : blckSize .q1_0 = Layout.Q1_BLOCK)
    (hs : supportsGetRows blckSize node = true) (ha : appendGetRowsOp node = some op) :
    Refused op ↔ ¬ boardLimits node := by
  simp only [appendGetRowsOp, Option.bind_eq_bind, Option.bind_eq_some_iff, Option.some.injEq] at ha
  obtain ⟨src0, hsrc0, src1, hsrc1, src0B, -, src1B, -, dstB, -, hop⟩ := ha
  simp only [supportsGetRows, hsrc0, hsrc1, Bool.and_eq_true, decide_eq_true_eq] at hs
  obtain ⟨⟨⟨⟨hkind, -, hidx⟩, htype⟩, hq1⟩, -⟩ := hs
  have hlimits : boardLimits node = getRowsLimits src0 src1 := by
    simp only [boardLimits, hkind, hsrc0, hsrc1]
  have hblock : typeTag src0.type = "q1_0" → src0.ne 0 % 128 = 0 := by
    intro htag
    have hq : src0.type = .q1_0 := by
      cases hs : src0.type <;> simp [hs, typeTag] at htag ⊢
    simp only [hq, if_true, hblck, Bool.and_eq_true, decide_eq_true_eq] at hq1
    exact hq1.1.1
  have hfails : Fails (· ≠ 0) (Ps.check op) ↔
      src0.ne 0 ≤ 0 ∨ 0 < src0.ne 0 ∧ (src0.ne 1 ≤ 0 ∨ 0 < src0.ne 1 ∧
      (src1.ne 0 ≤ 0 ∨ 0 < src1.ne 0 ∧
        Ps.getRowsRc (typeTag src0.type) (src0.ne 0).toNat ≠ 0)) := by
    rw [← hop]
    rcases htype with h | h | h <;>
      simp [Ps.check, Ps.prepareGetRows, List.lookup_cons, Ps.Op.tagOr, Ps.Op.rowStrides,
        rowsFields, h, hidx, typeTag]
  rw [refused_of_name (by simp [← hop]), hfails, hlimits, getRowsLimits, dimOk]
  by_cases hdim : 0 < src0.ne 0
  · rw [getRowsRc_ne _ hdim.le hblock]
    omega
  · omega

theorem refused_setRows (hs : supportsSetRows node = true) (ha : appendSetRowsOp node = some op) :
    Refused op ↔ ¬ boardLimits node := by
  simp only [appendSetRowsOp, Option.bind_eq_bind, Option.bind_eq_some_iff, Option.some.injEq] at ha
  obtain ⟨src0, hsrc0, src1, hsrc1, src0B, -, src1B, -, dstB, -, hop⟩ := ha
  simp only [supportsSetRows, hsrc0, hsrc1, Bool.and_eq_true, decide_eq_true_eq] at hs
  obtain ⟨⟨⟨hkind, -, htype, hidx⟩, -⟩, -⟩ := hs
  have hlimits : boardLimits node = setRowsLimits src0 := by simp only [boardLimits, hkind, hsrc0]
  have hfails : Fails (· ≠ 0) (Ps.check op) ↔
      src0.ne 0 ≤ 0 ∨ 0 < src0.ne 0 ∧ (src0.ne 1 ≤ 0 ∨ 0 < src0.ne 1 ∧
      Ps.setRowsRowRc (src0.ne 0).toNat ≠ 0) := by
    rw [← hop]
    rcases hidx with h | h <;>
      simp [Ps.check, Ps.prepareSetRows, List.lookup_cons, Ps.Op.tagOr, Ps.Op.rowStrides,
        rowsFields, h, htype, typeTag]
  have hrc := setRowsRowRc_ne (d := src0.ne 0)
  rw [refused_of_name (by simp [← hop]), hfails, hlimits, setRowsLimits, dimOk]
  omega

/-! ## All nodes -/

/-- The op that a node of the graph is lowered to. -/
def lowerNode (blckSize : GgmlType → Int) (node : GraphNode) : Option Op := do
  let lowering ← lookupLowering blckSize node
  lowering.append node

/-- A node and its operands have valid remote bindings. -/
structure FullyBound (node : GraphNode) : Prop where
  src : ∀ i t, node.src i = some t → ∃ b, t.remote = some b
  dst : ∃ b, node.toStrided.remote = some b

theorem Strided.remote_eq_some {t : Strided} {b : RemoteBinding} (h : t.remote = some b) :
    t.binding = some b ∧ remoteRangeIsValid b 0 t.nbytes = true := by
  unfold Strided.remote at h
  split at h
  · next b' hb =>
    split at h
    · next hvalid =>
      cases h
      exact ⟨hb, hvalid⟩
    · cases h
  · cases h

theorem appendMatmulOp_some (hbound : FullyBound node) {weights acts : Strided}
    (h0 : node.src 0 = some weights)
    (h1 : node.src 1 = some acts) : ∃ op, appendMatmulOp node = some op := by
  obtain ⟨weightsB, hw⟩ := hbound.src 0 weights h0
  obtain ⟨actsB, ha⟩ := hbound.src 1 acts h1
  obtain ⟨dstB, hd⟩ := hbound.dst
  obtain ⟨hwb, hwv⟩ := Strided.remote_eq_some hw
  obtain ⟨hab, hav⟩ := Strided.remote_eq_some ha
  obtain ⟨hdb, hdv⟩ := Strided.remote_eq_some hd
  have hdv' : remoteRangeIsValid dstB 0 node.toNode.nbytes = true := hdv
  simp [appendMatmulOp, appendMatmulQ1a8Op, h0, h1, hwb, hab, hdb, hwv, hav, hdv']

theorem appendFlashAttnExtF32Op_some (hbound : FullyBound node) {q k v : Strided}
    (h0 : node.src 0 = some q)
    (h1 : node.src 1 = some k) (h2 : node.src 2 = some v) :
    ∃ op, appendFlashAttnExtF32Op node = some op := by
  obtain ⟨qB, hq⟩ := hbound.src 0 q h0
  obtain ⟨kB, hk⟩ := hbound.src 1 k h1
  obtain ⟨vB, hv⟩ := hbound.src 2 v h2
  obtain ⟨dstB, hd⟩ := hbound.dst
  cases h3 : node.src 3 with
  | none => simp [appendFlashAttnExtF32Op, maskFields, h0, h1, h2, h3, hq, hk, hv, hd]
  | some mask =>
    obtain ⟨maskB, hm⟩ := hbound.src 3 mask h3
    simp [appendFlashAttnExtF32Op, maskFields, h0, h1, h2, h3, hq, hk, hv, hd, hm]

/-- Two sources of a bound node. -/
theorem FullyBound.two (hbound : FullyBound node) {src0 src1 : Strided}
    (h0 : node.src 0 = some src0)
    (h1 : node.src 1 = some src1) : ∃ b0 b1, src0.remote = some b0 ∧ src1.remote = some b1 := by
  obtain ⟨b0, hb0⟩ := hbound.src 0 src0 h0
  obtain ⟨b1, hb1⟩ := hbound.src 1 src1 h1
  exact ⟨b0, b1, hb0, hb1⟩

/-- The source of a bound unary node. -/
theorem FullyBound.unary (hbound : FullyBound node) (hs : supportsUnaryF32 node = true) :
    ∃ src b, node.src 0 = some src ∧ src.remote = some b := by
  unfold supportsUnaryF32 at hs
  split at hs
  · next src h0 =>
    obtain ⟨b, hb⟩ := hbound.src 0 src h0
    exact ⟨src, b, h0, hb⟩
  · cases hs

theorem appendF32BinaryOp_some (hbound : FullyBound node)
    (hs : (getF32BinaryLowering node).isSome = true) :
    ∃ op, appendF32BinaryOp node = some op := by
  obtain ⟨dstB, hd⟩ := hbound.dst
  obtain ⟨⟨src0, src1, broadcast⟩, hlow⟩ := Option.isSome_iff_exists.mp hs
  obtain ⟨h0, h1⟩ := getF32BinaryLowering_src hlow
  obtain ⟨b0, hb0⟩ : ∃ b, src0.remote = some b := h0.elim (hbound.src 0 src0) (hbound.src 1 src0)
  obtain ⟨b1, hb1⟩ : ∃ b, src1.remote = some b := h1.elim (hbound.src 0 src1) (hbound.src 1 src1)
  simp [appendF32BinaryOp, hlow, hb0, hb1, hd]

/-- A supported node whose operands are bound is lowered. -/
theorem append_some {blckSize : GgmlType → Int} {l : OpLowering} (hmem : l ∈ kLowerings blckSize)
    (hs : l.supports node = true) (hbound : FullyBound node) : ∃ op, l.append node = some op := by
  obtain ⟨dstB, hd⟩ := hbound.dst
  simp only [kLowerings, List.mem_cons, List.not_mem_nil, or_false] at hmem
  -- the entries of the table in its order: what `supports` has matched, `append` reads
  rcases hmem with rfl | rfl | rfl | rfl | rfl | rfl | rfl | rfl | rfl | rfl | rfl
  · simp only [supportsCopy] at hs
    split at hs
    · next src dst h0 h1 =>
      obtain ⟨b0, b1, hb0, hb1⟩ := hbound.two h0 h1
      simp [appendCopyOp, h0, h1, hb0, hb1]
    · cases hs
  · cases h0 : node.src 0 with
    | none => simp [supportsMatmulQ1a8, GraphNode.toNode, h0] at hs
    | some weights =>
      cases h1 : node.src 1 with
      | none => simp [supportsMatmulQ1a8, GraphNode.toNode, h0, h1] at hs
      | some acts => exact appendMatmulOp_some hbound h0 h1
  · exact appendF32BinaryOp_some hbound hs
  · simp only [supportsScaleF32, Bool.and_eq_true] at hs
    obtain ⟨src, b, h0, hb⟩ := hbound.unary hs.2
    simp [appendScaleF32Op, h0, hb, hd]
  · simp only [supportsSiluF32, Bool.and_eq_true] at hs
    obtain ⟨src, b, h0, hb⟩ := hbound.unary hs.2
    simp [appendSiluF32Op, h0, hb, hd]
  · simp only [supportsSwigluF32] at hs
    split at hs
    · next src0 src1 h0 h1 =>
      obtain ⟨b0, b1, hb0, hb1⟩ := hbound.two h0 h1
      simp [appendSwigluF32Op, h0, h1, hb0, hb1, hd]
    · cases hs
  · simp only [supportsRmsNormF32, Bool.and_eq_true] at hs
    obtain ⟨src, b, h0, hb⟩ := hbound.unary hs.2
    simp [appendRmsNormF32Op, h0, hb, hd]
  · simp only [supportsRopeF32] at hs
    split at hs
    · next src pos h0 h1 =>
      obtain ⟨b0, b1, hb0, hb1⟩ := hbound.two h0 h1
      simp [appendRopeF32Op, h0, h1, hb0, hb1, hd]
    · cases hs
  · simp only [supportsFlashAttnExtF32] at hs
    split at hs
    · next q k v h0 h1 h2 => exact appendFlashAttnExtF32Op_some hbound h0 h1 h2
    · cases hs
  · simp only [supportsGetRows] at hs
    split at hs
    · next src0 src1 h0 h1 =>
      obtain ⟨b0, b1, hb0, hb1⟩ := hbound.two h0 h1
      simp [appendGetRowsOp, h0, h1, hb0, hb1, hd]
    · cases hs
  · simp only [supportsSetRows] at hs
    split at hs
    · next src0 src1 h0 h1 =>
      obtain ⟨b0, b1, hb0, hb1⟩ := hbound.two h0 h1
      simp [appendSetRowsOp, h0, h1, hb0, hb1, hd]
    · cases hs

theorem refused_iff {blckSize : GgmlType → Int} (hblck : blckSize .q1_0 = Layout.Q1_BLOCK)
    {l : OpLowering}
    (hmem : l ∈ kLowerings blckSize) (hs : l.supports node = true) (ha : l.append node = some op) :
    Refused op ↔ ¬ boardLimits node := by
  simp only [kLowerings, List.mem_cons, List.not_mem_nil, or_false] at hmem
  rcases hmem with rfl | rfl | rfl | rfl | rfl | rfl | rfl | rfl | rfl | rfl | rfl
  · exact refused_copy hs ha
  · exact refused_matmul hblck hs ha
  · exact refused_binary ha
  · exact refused_scale hs ha
  · exact refused_silu hs ha
  · exact refused_swiglu hs ha
  · exact refused_rmsNorm hs ha
  · exact refused_rope hs ha
  · exact refused_flash hs ha
  · exact refused_getRows hblck hs ha
  · exact refused_setRows hs ha

/-- A node that is not metadata and that the host accepts has an entry in the table. -/
theorem deviceSupportsOp_lowering {blckSize : GgmlType → Int}
    (hs : deviceSupportsOp blckSize node = true) (hmeta : isMetadataOp node.op = false) :
    ∃ l ∈ kLowerings blckSize, lookupLowering blckSize node = some l ∧ l.supports node = true := by
  rw [deviceSupportsOp, hmeta, Bool.false_or] at hs
  obtain ⟨l, hl⟩ := Option.isSome_iff_exists.mp hs
  unfold lookupLowering at hl ⊢
  split at hl
  · cases hl
  · next hne => exact ⟨l, List.mem_of_find?_eq_some hl, by rw [if_neg hne, hl],
      List.find?_some (p := fun l : OpLowering => l.supports node) hl⟩

end Nodes

/-- For every node that the host accepts and whose operands are bound: the board accepts
    the op exactly when the node is within the limits of its kernel. -/
theorem board_accepts_iff {blckSize : GgmlType → Int} (hblck : blckSize .q1_0 = Layout.Q1_BLOCK)
    {node : GraphNode}
    (hs : deviceSupportsOp blckSize node = true) (hmeta : isMetadataOp node.op = false)
    (hbound : FullyBound node) :
    ∃ op, lowerNode blckSize node = some op ∧ (¬ Refused op ↔ boardLimits node) := by
  obtain ⟨l, hmem, hlookup, hl⟩ := deviceSupportsOp_lowering hs hmeta
  obtain ⟨op, hop⟩ := append_some hmem hl hbound
  refine ⟨op, by simp [lowerNode, hlookup, hop], ?_⟩
  rw [refused_iff hblck hmem hl hop, not_not]

/-- The four values of an array with one entry per dimension. -/
def dims {α : Type} (d0 d1 d2 d3 : α) : Fin GGML_MAX_DIMS → α
  | 0 => d0
  | 1 => d1
  | 2 => d2
  | 3 => d3

/-- The attention of a layer of the model over a cache of `nKv` tokens: sixteen heads of
    128 elements, eight of them in the cache, as views in which the tokens are the outer
    dimension in memory. -/
def flashNode (nToken nKv : Nat) : GraphNode where
  type := .f32
  ne := dims 128 16 nToken 1
  isContiguous := true
  nbytes := 8192 * nToken
  nb := dims 4 512 8192 (8192 * nToken)
  binding := some ⟨5, 8192 * nToken, 8192 * nToken, 0⟩
  op := .flashAttnExt
  src := fun i =>
    match i with
    | 0 =>
      some ⟨⟨.f32, dims 128 nToken 16 1, false, 8192 * nToken⟩, dims 4 8192 512 (8192 * nToken),
        some ⟨1, 8192 * nToken, 8192 * nToken, 0⟩⟩
    | 1 => some ⟨⟨.f16, dims 128 nKv 8 1, false, 2048 * nKv⟩, dims 2 2048 256 (2048 * nKv),
        some ⟨2, 2048 * nKv, 2048 * nKv, 0⟩⟩
    | 2 => some ⟨⟨.f16, dims 128 nKv 8 1, false, 2048 * nKv⟩, dims 2 2048 256 (2048 * nKv),
        some ⟨3, 2048 * nKv, 2048 * nKv, 0⟩⟩
    | 3 => some ⟨⟨.f16, dims nKv nToken 1 1, true, 2 * nKv * nToken⟩,
        dims 2 (2 * nKv) (2 * nKv * nToken) (2 * nKv * nToken),
        some ⟨4, 2 * nKv * nToken, 2 * nKv * nToken, 0⟩⟩
    | _ => none
  params i := if i = 0 then 0x3DB504F3#32 else 0
  isSilu := false
  isSwiglu := false

/-- The block size of Q1_0. -/
def ggmlBlckSize : GgmlType → Int
  | .q1_0 => 128
  | _ => 1

theorem flashNode_bound (nToken nKv : Nat) (h : 8192 * nToken ≤ SIZE_MAX)
    (hkv : 2048 * nKv ≤ SIZE_MAX)
    (hmask : 2 * nKv * nToken ≤ SIZE_MAX) : FullyBound (flashNode nToken nKv) := by
  refine ⟨?_, ?_⟩
  · intro i t ht
    unfold flashNode at ht
    simp only at ht
    split at ht
    · cases ht
      simp [Strided.remote, remoteRangeIsValid, h]
    · cases ht
      simp [Strided.remote, remoteRangeIsValid, hkv]
    · cases ht
      simp [Strided.remote, remoteRangeIsValid, hkv]
    · cases ht
      simp [Strided.remote, remoteRangeIsValid, hmask]
    · cases ht
  · simp [flashNode, Strided.remote, remoteRangeIsValid, h]

/-- With a cache of 1024 tokens the board accepts the op. -/
theorem board_accepts_iff_short_context :
    deviceSupportsOp ggmlBlckSize (flashNode 1 1024) = true ∧
      ∃ op, lowerNode ggmlBlckSize (flashNode 1 1024) = some op ∧ ¬ Refused op := by
  have hs : deviceSupportsOp ggmlBlckSize (flashNode 1 1024) = true := by decide
  refine ⟨hs, ?_⟩
  obtain ⟨op, hop, hiff⟩ :=
    board_accepts_iff rfl hs rfl (flashNode_bound 1 1024 (by decide) (by decide) (by decide))
  refine ⟨op, hop, hiff.mpr ?_⟩
  change flashLimits _ _ _ _
  unfold flashLimits dimOk
  refine ⟨by decide, by decide, fun _ => by decide⟩

/-- With a cache of 2048 tokens the host accepts the node and the board refuses its op. -/
theorem long_context_refused :
    deviceSupportsOp ggmlBlckSize (flashNode 1 2048) = true ∧
      isMetadataOp (flashNode 1 2048).op = false ∧
      FullyBound (flashNode 1 2048) ∧
      ∃ op, lowerNode ggmlBlckSize (flashNode 1 2048) = some op ∧ Refused op := by
  have hs : deviceSupportsOp ggmlBlckSize (flashNode 1 2048) = true := by decide
  have hbound := flashNode_bound 1 2048 (by decide) (by decide) (by decide)
  refine ⟨hs, rfl, hbound, ?_⟩
  obtain ⟨l, hmem, hlookup, hl⟩ := deviceSupportsOp_lowering hs rfl
  obtain ⟨op, hop⟩ := append_some hmem hl hbound
  refine ⟨op, by simp [lowerNode, hlookup, hop], (refused_iff rfl hmem hl hop).mpr ?_⟩
  change ¬ flashLimits _ _ _ _
  rintro ⟨-, -, hlimits⟩
  exact absurd (hlimits rfl).1 (by decide)

end Backend
