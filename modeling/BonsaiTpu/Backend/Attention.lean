-- SUMMARY: Attention from node to kernel: for which strides of a lowered node the kernel stays in the ranges of its operands.
import BonsaiTpu.Backend.Acceptance
import BonsaiTpu.Ps.FlashAttn

/-!
# Attention

The ranges that the wrapper computes for a lowered node come from one stride of each
operand. `flash_safe_iff` has the exact strides for which they hold every access. The
views of the cache and of `q` that the model builds have their tokens outermost in
memory, and there the ranges hold the first token only.
-/

namespace Backend

open Board (Allocator)
open Ps (Op FlashCall cUint32 strideCovers)

/-! ## What ggml and the buffers promise -/

/-- `ggml_nbytes` for a type without blocks. -/
def ggmlNbytes (typeSize : Nat) (t : Strided) : Int :=
  if ∀ dim, 0 < t.ne dim then
    typeSize + (t.ne 0 - 1) * t.nb 0 + (t.ne 1 - 1) * t.nb 1 + (t.ne 2 - 1) * t.nb 2 +
      (t.ne 3 - 1) * t.nb 3
  else 0

/-- A node that `ggml_flash_attn_ext` built: the sizes of its tensors, and its own shape. -/
structure FlashShape (node q k v : Strided) : Prop where
  qNbytes : (q.nbytes : Int) = ggmlNbytes typeSizeF32 q
  kNbytes : (k.nbytes : Int) = ggmlNbytes typeSizeF16 k
  vNbytes : (v.nbytes : Int) = ggmlNbytes typeSizeF16 v
  nodeNbytes : (node.nbytes : Int) = ggmlNbytes typeSizeF32 node
  headDim : node.ne 0 = v.ne 0
  heads : node.ne 1 = q.ne 2
  tokens : node.ne 2 = q.ne 1

/-- The handle of a tensor's binding is a record of the board, of the size that the host
    has for it. -/
def Backed {σ : Type} (a : Allocator σ) (t : Strided) : Prop :=
  ∀ b, t.binding = some b → ∃ record ∈ a.records,
    record.handle = b.handle ∧ record.nbytes = b.handleNbytes

/-- The board addresses its memory with 32 bits. -/
def Addressable {σ : Type} (a : Allocator σ) : Prop := ∀ record ∈ a.records, record.nbytes < 2 ^ 32

/-! ## Bounds -/

theorem Tensor.ne_pos {t : Tensor} (h0 : 0 < t.ne 0) (h1 : 0 < t.ne 1) (h2 : 0 < t.ne 2)
    (h3 : 0 < t.ne 3) :
    ∀ dim, 0 < t.ne dim
  | 0 => h0
  | 1 => h1
  | 2 => h2
  | 3 => h3

/-- All elements of an operand have offsets below the size of its handle. -/
theorem Strided.offsets_lt {σ : Type} {a : Allocator σ} {t : Strided} {b : RemoteBinding}
    {typeSize : Nat}
    (hnbytes : (t.nbytes : Int) = ggmlNbytes typeSize t) (hb : t.remote = some b)
    (hbacked : Backed a t) (h32 : Addressable a) (hpos : ∀ dim, 0 < t.ne dim) :
    (t.ne 0 - 1) * t.nb 0 < (2 ^ 32 : Int) ∧
      (t.ne 1 - 1) * t.nb 1 + (t.ne 2 - 1) * t.nb 2 < (2 ^ 32 : Int) := by
  obtain ⟨hbinding, hvalid⟩ := Strided.remote_eq_some hb
  obtain ⟨record, hmem, -, hsize⟩ := hbacked b hbinding
  have hlt := h32 record hmem
  simp only [remoteRangeIsValid, decide_eq_true_eq] at hvalid
  rw [ggmlNbytes, if_pos hpos] at hnbytes
  have hterm : ∀ dim, 0 ≤ (t.ne dim - 1) * (t.nb dim : Int) := by
    intro dim
    have := hpos dim
    exact Int.mul_nonneg (by omega) (by omega)
  have h0 := hterm 0
  have h1 := hterm 1
  have h2 := hterm 2
  have h3 := hterm 3
  omega

/-- A dimension with a stride is seen whole by the C function. -/
theorem cUint32_of_stride {d : Int} {n nb : Nat} (hn : (n : Int) = d)
    (h : (d - 1) * (nb : Int) < 2 ^ 32)
    (hpos : 0 < cUint32 n) (hnb : (nb : Int) ≠ 0) : cUint32 n = n := by
  have hle : (d - 1) * 1 ≤ (d - 1) * (nb : Int) := by
    rcases Int.lt_or_le d 1 with hlt | hge
    · unfold cUint32 at hpos
      omega
    · exact Int.mul_le_mul_of_nonneg_left (by omega) (by omega)
  unfold cUint32 at hpos ⊢
  by_cases hmax : n = 2 ^ 32
  · rw [hmax] at hpos
    simp at hpos
  · omega

/-- The rows of an operand stay in its range exactly when its strides cover. -/
theorem Strided.rowsInRange_iff {call : FlashCall} {buffer : Ps.FlashBuffer}
    {t : Strided} {m n row : Nat}
    (hm : (m : Int) = t.ne 1) (hn : (n : Int) = t.ne 2) (hm0 : 0 < cUint32 m) (hn0 : 0 < cUint32 n)
    (hrange : call.rangeNbytes buffer = Ps.spanNbytes (t.nb 1) (t.nb 2) m n)
    (hlt : (t.ne 1 - 1) * t.nb 1 + (t.ne 2 - 1) * t.nb 2 < (2 ^ 32 : Int)) :
    call.RowsInRange buffer (t.nb 1) (t.nb 2) (cUint32 m) (cUint32 n) row ↔
      strideCovers (t.nb 1) (t.nb 2) (t.ne 1) row := by
  have hle : ∀ d, cUint32 d ≤ d := fun d => Nat.mod_le d _
  have hmle := hle m
  have hnle := hle n
  have h1 : 0 ≤ (t.ne 1 - 1) * (t.nb 1 : Int) := Int.mul_nonneg (by omega) (by omega)
  have h2 : 0 ≤ (t.ne 2 - 1) * (t.nb 2 : Int) := Int.mul_nonneg (by omega) (by omega)
  have hm1 : ((cUint32 m : Int) - 1) * t.nb 1 ≤ (t.ne 1 - 1) * t.nb 1 :=
    Int.mul_le_mul_of_nonneg_right (by omega) (by omega)
  have hn1 : ((cUint32 n : Int) - 1) * t.nb 2 ≤ (t.ne 2 - 1) * t.nb 2 :=
    Int.mul_le_mul_of_nonneg_right (by omega) (by omega)
  unfold FlashCall.RowsInRange FlashCall.InRange
  simp only [hrange, ← hm]
  exact Ps.span_iff (by omega) (by omega) hm0 hn0 (cUint32_of_stride hm (by omega) hm0)
    (cUint32_of_stride hn (by omega) hn0) (by omega)

/-! ## Lowered nodes -/

/-- The strides of a node for which the ranges of the wrapper hold every access. -/
def flashCovers (node : GraphNode) : Prop :=
  match node.src 0, node.src 1, node.src 2 with
  | some q, some k, some v =>
    strideCovers (q.nb 1) (q.nb 2) (q.ne 1) (4 * (q.ne 0).toNat) ∧
    strideCovers (k.nb 1) (k.nb 2) (k.ne 1) (2 * (k.ne 0).toNat) ∧
    strideCovers (v.nb 1) (v.nb 2) (v.ne 1) (2 * (v.ne 0).toNat) ∧
    (∀ mask, node.src 3 = some mask → 2 * k.ne 1 ≤ mask.nb 1) ∧
    strideCovers (node.nb 1) (node.nb 2) (node.ne 1) (4 * (node.ne 0).toNat)
  | _, _, _ => True

/-- The operands of a lowered attention node and the call that the wrapper prepares for it. -/
structure FlashCallOf (node : GraphNode) (q k v : Strided) (call : FlashCall) : Prop where
  src0 : node.src 0 = some q
  src1 : node.src 1 = some k
  src2 : node.src 2 = some v
  remote : (∃ b, q.remote = some b) ∧ (∃ b, k.remote = some b) ∧ (∃ b, v.remote = some b) ∧
    ∃ b, node.toStrided.remote = some b
  headDimQ : (call.headDimQ : Int) = q.ne 0
  headDimV : (call.headDimV : Int) = v.ne 0
  nHead : (call.nHead : Int) = q.ne 2
  nHeadKv : (call.nHeadKv : Int) = k.ne 2
  nKv : (call.nKv : Int) = k.ne 1
  nToken : (call.nToken : Int) = q.ne 1
  qNb : call.qNb1 = q.nb 1 ∧ call.qNb2 = q.nb 2
  kNb : call.kNb1 = k.nb 1 ∧ call.kNb2 = k.nb 2
  vNb : call.vNb1 = v.nb 1 ∧ call.vNb2 = v.nb 2
  dstNb : call.dstNb1 = node.nb 1 ∧ call.dstNb2 = node.nb 2
  hasMask : call.mask.isSome = (node.src 3).isSome
  maskNb : ∀ mask, node.src 3 = some mask → call.maskNb1 = mask.nb 1

theorem prepareFlash_of_node {node : GraphNode} {op : Op} {call : FlashCall}
    (ha : appendFlashAttnExtF32Op node = some op) (hcall : call.Computed op) :
    ∃ q k v, FlashCallOf node q k v call := by
  simp only [appendFlashAttnExtF32Op, Option.bind_eq_bind, Option.bind_eq_some_iff,
    Option.some.injEq] at ha
  obtain ⟨q, hq, k, hk, v, hv, qB, hqB, kB, hkB, vB, hvB, dstB, hdstB, mask, hmask, rfl⟩ := ha
  have field : ∀ {x y : Int}, some x = some y → y = x := fun h => (Option.some.inj h).symm
  refine ⟨q, k, v, ?_⟩
  exact
    { src0 := hq
      src1 := hk
      src2 := hv
      remote := ⟨⟨qB, hqB⟩, ⟨kB, hkB⟩, ⟨vB, hvB⟩, ⟨dstB, hdstB⟩⟩
      headDimQ := field hcall.headDimQ
      headDimV := field hcall.headDimV
      nHead := field hcall.nHead
      nHeadKv := field hcall.nHeadKv
      nKv := field hcall.nKv.1
      nToken := field hcall.nToken.1
      qNb := ⟨field hcall.qNb.1, field hcall.qNb.2⟩
      kNb := ⟨field hcall.kNb.1, field hcall.kNb.2⟩
      vNb := ⟨field hcall.vNb.1, field hcall.vNb.2⟩
      dstNb := ⟨field hcall.dstNb.1, field hcall.dstNb.2⟩
      hasMask := hcall.hasMask
      maskNb := by
        intro t ht
        rw [hcall.maskNb]
        rw [ht, maskFields, Option.bind_eq_bind, Option.bind_eq_some_iff] at hmask
        obtain ⟨maskB, -, hmask⟩ := hmask
        cases hmask
        rfl }

/-- The staged ranges are ranges of records. -/
theorem mask_fits {σ : Type} {a : Allocator σ} {baseVa : Nat → Option Nat} {call : FlashCall}
    {o : Ps.Operand}
    (hadm : call.Admitted a baseVa) (h32 : Addressable a) (ho : call.mask = some o) :
    o.nbytes < 2 ^ 32 := by
  obtain ⟨staged, hstaged⟩ := hadm.staged
  obtain ⟨y, hy⟩ := Ps.mapM_ok hstaged o (by simp [FlashCall.operands, ho])
  obtain ⟨record, hmem, hle⟩ := Ps.slabPointerOrScratch_bound hy
  have := h32 record hmem
  omega

/-- The entries of the mask that the kernel reads are in its range exactly when its row
    stride holds an entry for each token of the cache. -/
theorem maskInRange_iff {σ : Type} {a : Allocator σ} {baseVa : Nat → Option Nat} {node : GraphNode}
    {q k v : Strided}
    {op : Op} {call : FlashCall} (hof : FlashCallOf node q k v call) (hcomp : call.Computed op)
    (hadm : call.Admitted a baseVa) (h32 : Addressable a) :
    (call.mask.isSome →
      call.RowsInRange .mask call.maskNb1 2 (cUint32 call.nToken) (cUint32 call.nKv) 2) ↔
      ∀ mask, node.src 3 = some mask → 2 * k.ne 1 ≤ mask.nb 1 := by
  obtain ⟨-, -, -, -, -, htoken0, -⟩ := FlashCall.rc_eq_zero hadm.rc
  cases hsrc : node.src 3 with
  | none =>
    have hmask : call.mask.isSome = false := by rw [hof.hasMask, hsrc]; rfl
    simp [hmask]
  | some mask =>
    have hsome : call.mask.isSome = true := by rw [hof.hasMask, hsrc]; rfl
    obtain ⟨o, ho⟩ := Option.isSome_iff_exists.mp hsome
    have hnb : call.maskNb1 = mask.nb 1 := hof.maskNb mask hsrc
    have hnbytes : o.nbytes = mask.nb 1 * call.nToken := by rw [hcomp.mask o ho, hnb]
    have hfit := mask_fits hadm h32 ho
    rw [hnbytes] at hfit
    have hkv : cUint32 call.nKv = call.nKv := by
      have := hcomp.cap
      unfold Ps.MAX_FLASH_ATTN_KV at this
      unfold cUint32
      omega
    have hinner : (mask.nb 1 : Int) ≠ 0 → cUint32 call.nToken = call.nToken := by
      intro hne
      have hle : 1 * (call.nToken : Int) ≤ mask.nb 1 * call.nToken :=
        Int.mul_le_mul_of_nonneg_right (by omega) (by omega)
      unfold cUint32
      omega
    have hiff := Ps.mask_iff (n := call.nKv) (by omega) htoken0 hinner hfit
    simp only [Option.isSome_some, true_imp_iff, Option.some.injEq, forall_eq',
      FlashCall.RowsInRange, FlashCall.InRange, FlashCall.rangeNbytes, ho, Option.map_some,
      Option.getD_some, hnbytes, hnb, hkv, ← hof.nKv]
    exact hiff

/-- For every attention op that the host emits and the board admits: every access of the
    kernel stays in the range computed for its operand exactly when the strides cover. -/
theorem flash_safe_iff {σ : Type} {a : Allocator σ} {baseVa : Nat → Option Nat}
    {node : GraphNode} {op : Op}
    {call : FlashCall} (hs : supportsFlashAttnExtF32 node = true)
    (ha : appendFlashAttnExtF32Op node = some op)
    (hcall : Ps.prepareFlash op = .ok call) (hadm : call.Admitted a baseVa)
    (hshape : ∀ q k v, node.src 0 = some q → node.src 1 = some k → node.src 2 = some v →
      FlashShape node.toStrided q k v)
    (hbacked : Backed a node.toStrided ∧ ∀ i t, node.src i = some t → Backed a t)
    (h32 : Addressable a) :
    call.Safe ↔ flashCovers node := by
  have hcomp := Ps.prepareFlash_computed hcall
  obtain ⟨q, k, v, hof⟩ := prepareFlash_of_node ha hcomp
  obtain ⟨⟨qB, hqB⟩, ⟨kB, hkB⟩, ⟨vB, hvB⟩, ⟨dstB, hdstB⟩⟩ := hof.remote
  have hsh := hshape q k v hof.src0 hof.src1 hof.src2
  obtain ⟨hdq0, hdv0, hhead0, hheadKv0, hkv0, htoken0, -⟩ := FlashCall.rc_eq_zero hadm.rc
  simp only [supportsFlashAttnExtF32, hof.src0, hof.src1, hof.src2, Bool.and_eq_true,
    decide_eq_true_eq] at hs
  obtain ⟨⟨⟨⟨⟨⟨-, hq3, hk3, hv3, hn3⟩, hqk, hq0, hv0, hkv1, hkv2, hq2, hk2, -⟩, hqnb, hknb, hvnb⟩,
    -⟩, -⟩, -⟩ := hs
  have hkvPos := hcomp.nKv.2
  have htokenPos := hcomp.nToken.2
  have hnKv := hof.nKv
  have hnToken := hof.nToken
  have hposQ : ∀ dim, 0 < q.ne dim := Tensor.ne_pos hq0 (by omega) hq2 (by omega)
  have hposK : ∀ dim, 0 < k.ne dim := Tensor.ne_pos (by omega) (by omega) hk2 (by omega)
  have hposV : ∀ dim, 0 < v.ne dim := Tensor.ne_pos hv0 (by omega) (by omega) (by omega)
  have hposN : ∀ dim, 0 < node.ne dim :=
    Tensor.ne_pos (by rw [hsh.headDim]; exact hv0) (by rw [hsh.heads]; exact hq2)
      (by rw [hsh.tokens]; omega) (by omega)
  obtain ⟨hdimQ, hltQ⟩ := Strided.offsets_lt hsh.qNbytes hqB (hbacked.2 0 q hof.src0) h32 hposQ
  obtain ⟨-, hltK⟩ := Strided.offsets_lt hsh.kNbytes hkB (hbacked.2 1 k hof.src1) h32 hposK
  obtain ⟨hdimV, hltV⟩ := Strided.offsets_lt hsh.vNbytes hvB (hbacked.2 2 v hof.src2) h32 hposV
  obtain ⟨-, hltN⟩ := Strided.offsets_lt hsh.nodeNbytes hdstB hbacked.1 h32 hposN
  -- The C function sees the head sizes whole, and so the rows.
  have hdq : cUint32 call.headDimQ = (q.ne 0).toNat := by
    rw [cUint32_of_stride hof.headDimQ hdimQ hdq0 (by rw [hqnb]; decide), ← hof.headDimQ,
      Int.toNat_natCast]
  have hdv : cUint32 call.headDimV = (v.ne 0).toNat := by
    rw [cUint32_of_stride hof.headDimV hdimV hdv0 (by rw [hvnb]; decide), ← hof.headDimV,
      Int.toNat_natCast]
  have hspec : flashCovers node ↔ strideCovers (q.nb 1) (q.nb 2) (q.ne 1) (4 * (q.ne 0).toNat) ∧
      strideCovers (k.nb 1) (k.nb 2) (k.ne 1) (2 * (k.ne 0).toNat) ∧
      strideCovers (v.nb 1) (v.nb 2) (v.ne 1) (2 * (v.ne 0).toNat) ∧
      (∀ mask, node.src 3 = some mask → 2 * k.ne 1 ≤ mask.nb 1) ∧
      strideCovers (node.nb 1) (node.nb 2) (node.ne 1) (4 * (node.ne 0).toNat) := by
    simp only [flashCovers, hof.src0, hof.src1, hof.src2]
  rw [FlashCall.safe_iff hadm.rc, hspec, hdq, hdv, hof.qNb.1, hof.qNb.2, hof.kNb.1, hof.kNb.2,
    hof.vNb.1, hof.vNb.2, hof.dstNb.1, hof.dstNb.2, ← hqk, hsh.headDim]
  -- operand by operand: its rows stay in its range exactly if its strides cover them
  refine and_congr ?_ (and_congr ?_ (and_congr ?_ (and_congr ?_ ?_)))
  · exact Strided.rowsInRange_iff hnToken hof.nHead htoken0 hhead0
      (by rw [FlashCall.rangeNbytes, hcomp.q, hof.qNb.1, hof.qNb.2]) hltQ
  · exact Strided.rowsInRange_iff hnKv hof.nHeadKv hkv0 hheadKv0
      (by rw [FlashCall.rangeNbytes, hcomp.k, hof.kNb.1, hof.kNb.2]) hltK
  · exact Strided.rowsInRange_iff (hnKv.trans hkv1) (hof.nHeadKv.trans hkv2) hkv0 hheadKv0
      (by rw [FlashCall.rangeNbytes, hcomp.v, hof.vNb.1, hof.vNb.2]) hltV
  · exact maskInRange_iff hof hcomp hadm h32
  · exact Strided.rowsInRange_iff (hof.nHead.trans hsh.heads.symm)
      (hnToken.trans hsh.tokens.symm) hhead0 htoken0
      (by rw [FlashCall.rangeNbytes, hcomp.dst, hof.dstNb.1, hof.dstNb.2]) hltN

/-- A board whose only tensors are those of `flashNode 1 nKv`, all in one slab. -/
def flashBoard (nKv : Nat) : Allocator Unit where
  slabs := [⟨2 ^ 24, ()⟩]
  free := [[]]
  records := [(1, 0, 8192), (2, 65536, 2048 * nKv), (3, 131072, 2048 * nKv), (4, 196608, 2 * nKv),
    (5, 262144, 8192)].map
    fun t => ⟨t.1, t.2.2, [], "", "", "", [⟨0, t.2.1, t.2.2⟩]⟩
  nextHandle := 6
  defaultAlignment := 64

theorem flashNode_backed (nKv : Nat) : Backed (flashBoard nKv) (flashNode 1 nKv).toStrided ∧
    ∀ i t, (flashNode 1 nKv).src i = some t → Backed (flashBoard nKv) t := by
  refine ⟨?_, ?_⟩
  · rintro b ⟨⟩
    simp [flashBoard]
  · intro i t ht
    unfold flashNode at ht
    simp only at ht
    split at ht
    all_goals cases ht
    all_goals
      rintro b ⟨⟩
      simp [flashBoard]

theorem flashBoard_addressable {nKv : Nat} (h : nKv ≤ 1024) : Addressable (flashBoard nKv) := by
  intro record hmem
  simp only [flashBoard, List.map_cons, List.map_nil, List.mem_cons, List.not_mem_nil, or_false]
    at hmem
  rcases hmem with rfl | rfl | rfl | rfl | rfl <;> simp only <;> omega

theorem flashNode_shape {nKv : Nat} (h : 0 < nKv) : ∀ q k v, (flashNode 1 nKv).src 0 = some q →
    (flashNode 1 nKv).src 1 = some k → (flashNode 1 nKv).src 2 = some v →
    FlashShape (flashNode 1 nKv).toStrided q k v := by
  rintro q k v ⟨⟩ ⟨⟩ ⟨⟩
  have hcache : ∀ t : Strided, t.ne = dims 128 (nKv : Int) 8 1 →
      t.nb = dims 2 2048 256 (2048 * nKv) →
      t.nbytes = 2048 * nKv → (t.nbytes : Int) = ggmlNbytes typeSizeF16 t := by
    intro t hne hnb ht
    have hpos : ∀ dim, 0 < t.ne dim := by
      apply Tensor.ne_pos <;> rw [hne] <;> simp only [dims] <;> omega
    rw [ggmlNbytes, if_pos hpos, hne, hnb, ht]
    simp only [dims, typeSizeF16]
    omega
  have hq : (8192 : Int) = ggmlNbytes typeSizeF32 ⟨⟨.f32, dims 128 1 16 1, false, 8192⟩,
      dims 4 8192 512 8192, .none⟩ := by
    decide
  have hdst : (8192 : Int) = ggmlNbytes typeSizeF32 ⟨⟨.f32, dims 128 16 1 1, true, 8192⟩,
      dims 4 512 8192 8192, .none⟩ := by
    decide
  exact ⟨hq, hcache _ rfl rfl rfl, hcache _ rfl rfl rfl, hdst, rfl, rfl, rfl⟩

/-- Two tokens over a cache of two, with the heads as the outer dimension in memory. -/
def packedNode : GraphNode :=
  { flashNode 2 2 with
    src := fun i =>
      match i with
      | 0 =>
        some ⟨⟨.f32, dims 128 2 16 1, true, 16384⟩, dims 4 512 1024 16384,
          some ⟨1, 16384, 16384, 0⟩⟩
      | 1 => some ⟨⟨.f16, dims 128 2 8 1, true, 4096⟩, dims 2 256 512 4096, some ⟨2, 4096, 4096, 0⟩⟩
      | 2 => some ⟨⟨.f16, dims 128 2 8 1, true, 4096⟩, dims 2 256 512 4096, some ⟨3, 4096, 4096, 0⟩⟩
      | 3 => some ⟨⟨.f16, dims 2 2 1 1, true, 8⟩, dims 2 4 8 8, some ⟨4, 8, 8, 0⟩⟩
      | _ => none }

def packedBoard : Allocator Unit where
  slabs := [⟨2 ^ 24, ()⟩]
  free := [[]]
  records := [(1, 0, 16384), (2, 65536, 4096), (3, 131072, 4096), (4, 196608, 8),
    (5, 262144, 16384)].map
    fun t => ⟨t.1, t.2.2, [], "", "", "", [⟨0, t.2.1, t.2.2⟩]⟩
  nextHandle := 6
  defaultAlignment := 64

theorem packedNode_backed : Backed packedBoard packedNode.toStrided ∧
    ∀ i t, packedNode.src i = some t → Backed packedBoard t := by
  refine ⟨?_, ?_⟩
  · rintro b ⟨⟩
    simp [packedBoard]
  · intro i t ht
    unfold packedNode at ht
    simp only at ht
    split at ht
    all_goals cases ht
    all_goals
      rintro b ⟨⟩
      simp [packedBoard]

theorem packedNode_shape : ∀ q k v, packedNode.src 0 = some q → packedNode.src 1 = some k →
    packedNode.src 2 = some v →
    FlashShape packedNode.toStrided q k v := by
  rintro q k v ⟨⟩ ⟨⟩ ⟨⟩
  exact ⟨by decide, by decide, by decide, by decide, rfl, rfl, rfl⟩

/-- When the heads are the outer dimension, the ranges hold every access of all tokens. -/
theorem flash_safe_iff_packed : ∃ op call, appendFlashAttnExtF32Op packedNode = some op ∧
    Ps.prepareFlash op = .ok call ∧ call.nToken = 2 ∧ call.nKv = 2 ∧
    call.Admitted packedBoard (fun _ => some 4096) ∧ call.Safe := by
  have hs : supportsFlashAttnExtF32 packedNode = true := by decide
  refine ⟨_, _, rfl, rfl, rfl, rfl, ⟨⟨_, rfl⟩, rfl⟩, ?_⟩
  have hcovers : flashCovers packedNode := by
    refine ⟨by decide, by decide, by decide, ?_, by decide⟩
    rintro mask ⟨⟩
    decide
  exact (flash_safe_iff hs rfl rfl
    (show FlashCall.Admitted packedBoard (fun _ => some 4096) _ from ⟨⟨_, rfl⟩, rfl⟩)
    packedNode_shape packedNode_backed (show ∀ record ∈ packedBoard.records,
      record.nbytes < 2 ^ 32 by decide)).mpr hcovers

/-- With two tokens the kernel reads rows of the cache outside of the range that was
    validated and staged. -/
theorem flash_reads_outside_range : supportsFlashAttnExtF32 (flashNode 1 2) = true ∧
    Addressable (flashBoard 2) ∧ (Backed (flashBoard 2) (flashNode 1 2).toStrided ∧
      ∀ i t, (flashNode 1 2).src i = some t → Backed (flashBoard 2) t) ∧
    (∀ q k v, (flashNode 1 2).src 0 = some q → (flashNode 1 2).src 1 = some k →
      (flashNode 1 2).src 2 = some v →
      FlashShape (flashNode 1 2).toStrided q k v) ∧
    ∃ op call, appendFlashAttnExtF32Op (flashNode 1 2) = some op ∧ Ps.prepareFlash op = .ok call ∧
      call.Admitted (flashBoard 2) (fun _ => some 4096) ∧ ¬ call.Safe := by
  refine ⟨by decide, flashBoard_addressable (by decide), flashNode_backed 2,
    flashNode_shape (by decide), _, _, rfl, rfl, ⟨⟨_, rfl⟩, rfl⟩, ?_⟩
  rw [FlashCall.safe_iff rfl]
  rintro ⟨-, hk, -⟩
  exact absurd (hk 1 (by decide) 0 (by decide)) (by unfold FlashCall.InRange; decide)

end Backend
