-- SUMMARY: Which matmuls fit the kernel: what the driver programs for every chunk, and the widest column the acts BRAM holds.
import BonsaiTpu.Backend.Lowering
import BonsaiTpu.Kernel.Run

/-!
# Kernel capacity

The driver passes the number of Q1 blocks and rowblocks of every chunk to the kernel.
The rowblocks are bounded by the chunk size; the Q1 blocks only by the op.
-/

namespace Board.Matmul

open Layout (Q1_BLOCK ROWS_PER_BLOCK PACKED_PER_Q1_BLOCK)

/-! ## The chunks of a run -/

/-- A start call for `q` Q1 blocks has a number of rowblocks that a chunk can have. -/
def Programs (q : Nat) (act : Act) : Prop :=
  ∀ c, act = .start c →
    c.numQ1Blocks = q ∧ 1 ≤ c.numRowblocks ∧
      c.numRowblocks ≤ MAX_WEIGHTS_NBYTES / PACKED_PER_Q1_BLOCK

theorem Programs.of_ne {q : Nat} {act : Act} (h : ∀ c, act ≠ .start c) : Programs q act :=
  fun c hc => absurd hc (h c)

/-- A chunk is never longer than eight MiB of weights, or one rowblock. -/
theorem Cursor.chunkRowblocks_le {rows : Nat} (cur : Cursor rows) {q : Nat} (hq : 1 ≤ q)
    (extRemaining : Nat) :
    cur.chunkRowblocks (q * PACKED_PER_Q1_BLOCK) extRemaining ≤
      MAX_WEIGHTS_NBYTES / PACKED_PER_Q1_BLOCK := by
  have hdiv : MAX_WEIGHTS_NBYTES / (q * PACKED_PER_Q1_BLOCK) ≤
      MAX_WEIGHTS_NBYTES / PACKED_PER_Q1_BLOCK :=
    Nat.div_le_div_left (Nat.le_mul_of_pos_left _ hq) (by decide)
  have hbound : 1 ≤ MAX_WEIGHTS_NBYTES / PACKED_PER_Q1_BLOCK := by decide
  simp only [chunkRowblocks, maxRowblocksPerChunk]
  split <;> omega

section

variable {σ : Type} {d : Driver} {a : Allocator σ} {q : Nat}

theorem resolveActs_programs (scratch : Option Buffer) (handle offset nbytes : Nat) :
    (resolveActs d a scratch handle offset nbytes).All (Programs q) := by
  unfold resolveActs
  split
  · exact .pure _
  · split
    · exact .bind (.lift _) fun _ _ => .bind (.lift _) fun _ _ =>
        .bind (.emit (.of_ne (by simp))) fun _ _ => .pure _
    · exact .raise _

theorem resolveWeightsPhys_programs (scratch : Buffer) (handle offset nbytes : Nat) :
    (resolveWeightsPhys d a scratch handle offset nbytes).All (Programs q) := by
  unfold resolveWeightsPhys
  split
  · exact .lift _
  · split
    · split
      · exact .raise _
      · exact .bind (.lift _) fun _ _ => .bind (.emit (.of_ne (by simp))) fun _ _ => .pure _
    · exact .raise _

variable {s : Setup}

theorem startChunk_programs (col rowblock weightsOffset resultPhys resultNbytes : Nat) {n : Nat}
    (hs : s.k / Q1_BLOCK = q) (hn : 1 ≤ n ∧ n ≤ MAX_WEIGHTS_NBYTES / PACKED_PER_Q1_BLOCK) :
    (startChunk d a s col rowblock weightsOffset resultPhys resultNbytes n).All (Programs q) := by
  refine .bind (resolveWeightsPhys_programs _ _ _ _) fun _ _ => .bind (.emit ?_) fun _ _ => .lift _
  rintro c hc
  cases hc
  exact ⟨hs, hn⟩

theorem waitChunk_programs (col rowblock : Nat) : (waitChunk d col rowblock).All (Programs q) :=
  .bind (.emit (.of_ne (by simp))) fun _ _ => .lift _

theorem runChunk_programs (col : Nat) (cur : Cursor s.rows) {n : Nat} (dirty : List Dirty)
    (hs : s.k / Q1_BLOCK = q) (hn : 1 ≤ n ∧ n ≤ MAX_WEIGHTS_NBYTES / PACKED_PER_Q1_BLOCK) :
    (runChunk d a s col cur n dirty).All (Programs q) := by
  unfold runChunk
  refine .bind (.lift _) fun view _ => ?_
  split
  · exact .bind (startChunk_programs _ _ _ _ _ hs hn) fun _ _ =>
      .bind (waitChunk_programs _ _) fun _ _ => .pure _
  · exact .bind (startChunk_programs _ _ _ _ _ hs hn) fun _ _ =>
      .bind (waitChunk_programs _ _) fun _ _ =>
      .bind (.emit (.of_ne (by simp))) fun _ _ => .bind (.lift _) fun _ _ =>
        .bind (.emit (.of_ne (by simp))) fun _ _ => .pure _

theorem chunkLoop_programs (hq : 1 ≤ q) (hs : s.k / Q1_BLOCK = q)
    (hpacked : s.packedBytesPerRb = q * PACKED_PER_Q1_BLOCK)
    (col : Nat) (cur : Cursor s.rows) (dirty : List Dirty) :
    (chunkLoop d a s col cur dirty).All (Programs q) := by
  induction hd : s.rows - cur.row using Nat.strong_induction_on generalizing cur dirty with
  | _ left ih =>
    rw [chunkLoop]
    split
    · next hrow =>
      refine .bind (.lift _) fun extRemaining _ => ?_
      have hn : 1 ≤ cur.chunkRowblocks s.packedBytesPerRb extRemaining ∧
          cur.chunkRowblocks s.packedBytesPerRb extRemaining ≤
            MAX_WEIGHTS_NBYTES / PACKED_PER_Q1_BLOCK :=
        ⟨cur.chunkRowblocks_pos hrow _ _, hpacked ▸ cur.chunkRowblocks_le hq _⟩
      have hlt := cur.row_lt_advance hrow hn.1
      refine .bind (runChunk_programs col cur dirty hs hn) fun dirty' _ => ?_
      exact ih _ (by omega) _ dirty' rfl
    · exact .pure _

theorem prepareColumn_programs (col : Nat) : (prepareColumn d s col).All (Programs q) :=
  .bind (.emit (.of_ne (by simp))) fun _ _ => .bind (.lift _) fun _ _ =>
    .bind (.emit (.of_ne (by simp))) fun _ _ => .lift _

theorem columnLoop_programs (hq : 1 ≤ q) (hs : s.k / Q1_BLOCK = q)
    (hpacked : s.packedBytesPerRb = q * PACKED_PER_Q1_BLOCK)
    (count col : Nat) (dirty : List Dirty) :
    (columnLoop d a s count col dirty).All (Programs q) := by
  induction count generalizing col dirty with
  | zero => exact .pure _
  | succ count ih =>
    exact .bind (prepareColumn_programs col) fun _ _ =>
      .bind (chunkLoop_programs hq hs hpacked col _ _) fun _ _ => ih _ _

theorem invalidateDirty_programs (dirty : List Dirty) :
    (invalidateDirty dirty).All (Programs q) := by
  induction dirty with
  | nil => exact .pure _
  | cons entry rest ih => exact .bind (.emit (.of_ne (by simp))) fun _ _ => ih

/-- A shape that passes the checks. -/
theorem checkShape_ok {op : Op} {rows cols k : Nat} (h : checkShape op = .ok (rows, cols, k)) :
    required op.rows "rows" = .ok rows ∧ required op.cols "cols" = .ok cols ∧
      required op.k "k" = .ok k ∧
      1 ≤ rows ∧ 1 ≤ cols ∧ 1 ≤ k ∧ k % Q1_BLOCK = 0 := by
  unfold checkShape at h
  cases hr : required op.rows "rows" with
  | error e => rw [hr] at h; cases h
  | ok r =>
    cases hc : required op.cols "cols" with
    | error e => rw [hr, hc] at h; cases h
    | ok c =>
      cases hk : required op.k "k" with
      | error e => rw [hr, hc, hk] at h; cases h
      | ok k' =>
        rw [hr, hc, hk] at h
        simp only [bind, Except.bind] at h
        split at h
        · cases h
        · split at h
          · cases h
          · cases h
            exact ⟨rfl, rfl, rfl, by omega, by omega, by omega, by omega⟩

theorem required_eq {value : Int} {key : String} {n : Nat}
    (h : required (some (some value)) key = .ok n) : value = n := by
  simp only [required, requiredInt, nonNegativeInt, toInt, bind, Except.bind] at h
  split at h
  · cases h
  · next parsed hparsed =>
    split at hparsed
    · cases hparsed
    · cases hparsed
      cases h
      omega

/-- The packed bytes of a rowblock and the Q1 blocks of an accepted shape. -/
theorem packed_of_shape {op : Op} {rows cols k packed : Nat}
    (h : checkShape op = .ok (rows, cols, k))
    (hp : liftLayout (Layout.packedBytesPerRowblock k) = .ok packed) :
    1 ≤ k / Q1_BLOCK ∧ packed = k / Q1_BLOCK * PACKED_PER_Q1_BLOCK := by
  obtain ⟨-, -, -, -, -, hpos, hmod⟩ := checkShape_ok h
  refine ⟨?_, liftLayout_ok (Layout.packedBytesPerRowblock_ok hmod) hp⟩
  simp only [Q1_BLOCK] at *
  omega

theorem run_programs (b : Buffers) {op : Op} {rows cols k : Nat}
    (h : checkShape op = .ok (rows, cols, k)) :
    (run d a b op).All (Programs (k / Q1_BLOCK)) := by
  refine .bind (.lift _) fun shape hshape => ?_
  obtain rfl : (rows, cols, k) = shape := Except.ok.inj (h.symm.trans hshape)
  refine .bind (.lift _) fun _ _ => .bind (.lift _) fun packed hp => .bind (.lift _) fun _ _ =>
    .bind (.lift _) fun _ _ => .bind (.lift _) fun _ _ =>
      .bind (.lift _) fun _ _ => .bind (.lift _) fun _ _ =>
    .bind (resolveActs_programs _ _ _ _) fun _ _ =>
      .bind (.lift _) fun _ _ => .bind (.lift _) fun _ _ =>
    .bind (.lift _) fun _ _ => .bind (.lift _) fun _ _ => .bind (.lift _) fun _ _ => ?_
  obtain ⟨hq, hpacked⟩ := packed_of_shape h hp
  exact .bind (columnLoop_programs hq rfl hpacked _ _ _) fun _ _ =>
    .bind (invalidateDirty_programs _) fun _ _ => .pure _

theorem runSync_programs (b : Buffers) {op : Op} {rows cols k : Nat}
    (h : checkShape op = .ok (rows, cols, k)) :
    (runSync d a b op).All (Programs (k / Q1_BLOCK)) :=
  .bind (run_programs b h) fun _ _ => .pure _

theorem runPipelined_programs (b : Buffers) (op : Op) {rows k packed : Nat} (hq : 1 ≤ k / Q1_BLOCK)
    (hpacked : packed = k / Q1_BLOCK * PACKED_PER_Q1_BLOCK) (hrows : 1 ≤ rows)
    (hmax : maxRowblocksPerChunk rows packed ≥ Layout.rowblocksFor rows)
    (weightsHandle weightsBaseOffset dstHandle dstBaseOffset resultPhys : Nat) :
    (runPipelined d a b op rows k packed weightsHandle weightsBaseOffset dstHandle
      dstBaseOffset resultPhys).All
      (Programs (k / Q1_BLOCK)) := by
  have hn : 1 ≤ Layout.rowblocksFor rows ∧
      Layout.rowblocksFor rows ≤ MAX_WEIGHTS_NBYTES / PACKED_PER_Q1_BLOCK := by
    have hdiv : MAX_WEIGHTS_NBYTES / packed ≤ MAX_WEIGHTS_NBYTES / PACKED_PER_Q1_BLOCK := by
      rw [hpacked]
      exact Nat.div_le_div_left (Nat.le_mul_of_pos_left _ hq) (by decide)
    have hbound : 1 ≤ MAX_WEIGHTS_NBYTES / PACKED_PER_Q1_BLOCK := by decide
    have hone : 1 ≤ Layout.rowblocksFor rows := by
      simp only [Layout.rowblocksFor, ROWS_PER_BLOCK]
      omega
    simp only [maxRowblocksPerChunk] at hmax
    omega
  exact .bind (.lift _) fun _ _ => .bind (.lift _) fun _ _ => .bind (.lift _) fun _ _ =>
    .bind (resolveActs_programs _ _ _ _) fun _ _ => .bind (.lift _) fun _ _ =>
    .bind (prepareColumn_programs _) fun _ _ =>
      .bind (startChunk_programs _ _ _ _ _ rfl hn) fun _ _ => .pure _

theorem runAsync_programs (b : Buffers) {op : Op} {rows cols k : Nat}
    (h : checkShape op = .ok (rows, cols, k)) :
    (runAsync d a b op).All (Programs (k / Q1_BLOCK)) := by
  obtain ⟨hrows, -, hk, hpos, -, -, -⟩ := checkShape_ok h
  refine .bind (.lift _) fun rows' hrows' =>
    .bind (.lift _) fun _ _ => .bind (.lift _) fun k' hk' => ?_
  obtain rfl : rows = rows' := Except.ok.inj (hrows.symm.trans hrows')
  obtain rfl : k = k' := Except.ok.inj (hk.symm.trans hk')
  split
  · exact runSync_programs b h
  · refine .bind (.lift _) fun _ _ => .bind (.lift _) fun _ _ => .bind (.lift _) fun _ _ =>
      .bind (.lift _) fun packed hp => .bind (.lift _) fun _ _ => .bind (.lift _) fun _ _ =>
      .bind (.lift _) fun _ _ => .bind (.lift _) fun _ _ => .bind (.lift _) fun _ _ => ?_
    obtain ⟨hq, hpacked⟩ := packed_of_shape h hp
    split
    · next hsingle =>
      split
      · exact runSync_programs b h
      · exact .raise _
      · split
        · exact runSync_programs b h
        · exact runPipelined_programs b op hq hpacked hpos hsingle.1 _ _ _ _ _
    · exact runSync_programs b h

/-! ## Every accepted op starts the kernel -/

def IsStart (act : Act) : Prop := ∃ c, act = .start c

theorem startChunk_emits (col rowblock weightsOffset resultPhys resultNbytes n : Nat) :
    (startChunk d a s col rowblock weightsOffset resultPhys resultNbytes n).Emits IsStart :=
  .bind_right fun _ _ => .bind_left (.emit ⟨_, rfl⟩)

theorem runChunk_emits (col : Nat) (cur : Cursor s.rows) (n : Nat) (dirty : List Dirty) :
    (runChunk d a s col cur n dirty).Emits IsStart := by
  refine .bind_right fun view _ => ?_
  split
  · exact .bind_left (startChunk_emits _ _ _ _ _ _)
  · exact .bind_left (startChunk_emits _ _ _ _ _ _)

theorem columnLoop_emits {count : Nat} (hrows : 1 ≤ s.rows) (hcount : 1 ≤ count) (col : Nat)
    (dirty : List Dirty) :
    (columnLoop d a s count col dirty).Emits IsStart := by
  obtain ⟨n, rfl⟩ := Nat.exists_eq_add_of_le' hcount
  refine .bind_right fun _ _ => .bind_left ?_
  rw [chunkLoop, dif_pos (show (Cursor.zero s.rows).row < s.rows from hrows)]
  exact .bind_right fun _ _ => .bind_left (runChunk_emits _ _ _ _)

theorem run_emits (b : Buffers) (op : Op) : (run d a b op).Emits IsStart := by
  refine .bind_right fun shape hshape => ?_
  obtain ⟨-, -, -, hrows, hcols, -, -⟩ := @checkShape_ok op shape.1 shape.2.1 shape.2.2 hshape
  exact .bind_right fun _ _ => .bind_right fun _ _ => .bind_right fun _ _ =>
    .bind_right fun _ _ => .bind_right fun _ _ => .bind_right fun _ _ => .bind_right fun _ _ =>
    .bind_right fun _ _ => .bind_right fun _ _ => .bind_right fun _ _ =>
    .bind_right fun _ _ => .bind_right fun _ _ =>
      .bind_right fun _ _ => .bind_left (columnLoop_emits hrows hcols _ _)

theorem runSync_emits (b : Buffers) (op : Op) : (runSync d a b op).Emits IsStart :=
  .bind_left (run_emits b op)

theorem runAsync_emits (b : Buffers) (op : Op) : (runAsync d a b op).Emits IsStart := by
  refine .bind_right fun rows _ => .bind_right fun _ _ => .bind_right fun k _ => ?_
  split
  · exact runSync_emits b op
  · refine .bind_right fun _ _ => .bind_right fun _ _ =>
      .bind_right fun _ _ => .bind_right fun _ _ =>
      .bind_right fun _ _ => .bind_right fun _ _ => .bind_right fun _ _ => .bind_right fun _ _ =>
      .bind_right fun _ _ => ?_
    split
    · split
      · exact runSync_emits b op
      · exact .raise _
      · split
        · exact runSync_emits b op
        · exact .bind_right fun _ _ => .bind_right fun _ _ =>
            .bind_right fun _ _ => .bind_right fun _ _ =>
            .bind_right fun _ _ => .bind_right fun _ _ => .bind_left (startChunk_emits _ _ _ _ _ _)
    · exact runSync_emits b op

end

/-! ## What fits -/

/-- `ctypes.c_uint32`. -/
def cUint32 (n : Nat) : BitVec 32 := BitVec.ofNat 32 n

/-- A count register of the kernel after the full-word write of a value. -/
def countReg (old : BitVec 16) (value : Nat) : BitVec 16 :=
  Q1a8.writeCount old 0xF#4 (cUint32 value)

/-- Sub-block `m` of a column in the acts BRAM. -/
def actsAddr (m : Nat) : BitVec 8 := Q1a8.subAddr (BitVec.ofNat 14 (m / 4)) (BitVec.ofNat 2 (m % 4))

/-- A chunk of a matmul with contraction length `k` fits the kernel: its counts are in
    range, no two sub-blocks of the column share a BRAM address, the registers hold the
    counts, and the lanes of every run are those of the whole column. -/
structure Fits (k : Nat) (c : Chunk) : Prop where
  q1Blocks : 1 ≤ c.numQ1Blocks ∧ c.numQ1Blocks ≤ Q1a8.MAX_SUB_INDEX / 4
  distinct : ∀ m < 4 * c.numQ1Blocks, ∀ m' < 4 * c.numQ1Blocks, actsAddr m = actsAddr m' → m = m'
  rowblocks : 1 ≤ c.numRowblocks ∧ c.numRowblocks < 2 ^ 16
  registers : ∀ old, (countReg old c.numQ1Blocks).toNat = c.numQ1Blocks ∧
    (countReg old c.numRowblocks).toNat = c.numRowblocks
  lanes : ∀ (s : Q1a8.Streams) (kernel : Q1a8.Kernel) (inp : Nat → Q1a8.Inputs) (old : BitVec 16),
    s.q1Blocks * Q1_BLOCK = k → s.rowblocks = c.numRowblocks → Q1a8.Reachable kernel →
      kernel.busyQ = false →
    Q1a8.Fed kernel inp s → (inp 0).numRowblocks = countReg old c.numRowblocks →
    (∀ n, Q1a8.Unfinished kernel inp (n + 1) → (inp n).numQ1Blocks = countReg old c.numQ1Blocks) →
    ∀ n, Q1a8.Unfinished kernel inp n → Q1a8.Observed kernel inp s n

/-- The count registers have sixteen bits. -/
theorem toNat_countReg (old : BitVec 16) (value : Nat) :
    (countReg old value).toNat = value % 2 ^ 16 := by
  have hreg : countReg old value = (cUint32 value).setWidth 16 := by
    have hset : countReg old value = (old.setPart 0 ((cUint32 value).extractLsb' 0 8)).setPart 8
        ((cUint32 value).extractLsb' 8 8) := rfl
    rw [hset]
    apply BitVec.eq_of_getLsbD_eq
    intro i hi
    rw [BitVec.getLsbD_setPart, BitVec.getLsbD_setPart, BitVec.getLsbD_setWidth]
    by_cases hlow : i < 8
    · simp [hlow, hi, show ¬8 ≤ i by omega]
    · have hsub : i - 8 < 8 := by omega
      simp [hi, hsub, show 8 ≤ i by omega]
  rw [hreg, BitVec.toNat_setWidth, cUint32, BitVec.toNat_ofNat]
  omega

theorem actsAddr_eq {m : Nat} (hm : m < 256) : actsAddr m = BitVec.ofNat 8 m := by
  apply Q1a8.subAddr_eq
  · rw [BitVec.toNat_ofNat]
    omega
  · rw [BitVec.toNat_ofNat]
    omega

/-- The widest column the kernel takes. -/
def MAX_K : Nat := Q1a8.MAX_SUB_INDEX / 4 * Q1_BLOCK

theorem fits_iff {k : Nat} {c : Chunk} (hk : 1 ≤ k) (hmod : k % Q1_BLOCK = 0)
    (hc : Programs (k / Q1_BLOCK) (.start c)) :
    Fits k c ↔ k ≤ MAX_K := by
  obtain ⟨hq, hrb, hmax⟩ := hc c rfl
  have hbound : MAX_WEIGHTS_NBYTES / PACKED_PER_Q1_BLOCK < 2 ^ 16 := by decide
  have hmaxk : MAX_K = 8192 := rfl
  have hblock : Q1_BLOCK = 128 := rfl
  rw [hblock] at hq hmod
  constructor
  · intro h
    have hle : c.numQ1Blocks ≤ 64 := h.q1Blocks.2
    omega
  · intro hle
    have hq1 : 1 ≤ c.numQ1Blocks ∧ c.numQ1Blocks ≤ 64 := by omega
    have hregs : ∀ old, (countReg old c.numQ1Blocks).toNat = c.numQ1Blocks ∧
        (countReg old c.numRowblocks).toNat = c.numRowblocks := by
      intro old
      rw [toNat_countReg, toNat_countReg]
      omega
    refine ⟨hq1, ?_, ⟨hrb, by omega⟩, hregs, ?_⟩
    · intro m hm m' hm' heq
      rw [actsAddr_eq (by omega), actsAddr_eq (by omega)] at heq
      have := congrArg BitVec.toNat heq
      simp only [BitVec.toNat_ofNat] at this
      omega
    · intro s kernel inp old hs hrows hreach hidle hfed hrbreg hq1reg n hun
      have hsq : s.q1Blocks = c.numQ1Blocks := by
        rw [hblock] at hs
        omega
      let j : Q1a8.Job := ⟨s, by omega, by omega, by omega, by omega⟩
      have hrun : Q1a8.Run kernel inp j.toStreams :=
        { hfed with
          numRowblocks := by rw [hrbreg, (hregs old).2, hrows]
          numQ1Blocks := fun n hun => by rw [hq1reg n hun, (hregs old).1, hsq] }
      exact hrun.observed hreach.rests hidle hun

/-- All chunks that a run programs fit. -/
def AllFit (k : Nat) {α : Type} (x : Drive α) : Prop := ∀ c, Act.start c ∈ x.events → Fits k c

theorem allFit_iff {k : Nat} {α : Type} {x : Drive α} (hk : 1 ≤ k) (hmod : k % Q1_BLOCK = 0)
    (hprog : x.All (Programs (k / Q1_BLOCK))) (hstart : ∃ act ∈ x.events, IsStart act) :
    AllFit k x ↔ k ≤ MAX_K := by
  constructor
  · intro hall
    obtain ⟨_, hmem, c, rfl⟩ := hstart
    exact (fits_iff hk hmod (hprog _ hmem)).mp (hall c hmem)
  · intro hle c hmem
    exact (fits_iff hk hmod (hprog _ hmem)).mpr hle

/-- Exactly the matmuls with `k` up to 8192 fit the kernel: of the ops that `run` or
    `run_async` accepts, with any extent layout, and of the nodes they are lowered from. -/
theorem matmul_fits_iff {σ : Type} (d : Driver) (a : Allocator σ) (b : Buffers) (op : Op)
    {rows cols k : Nat} (hshape : checkShape op = .ok (rows, cols, k)) :
    (∀ b', (run d a b op).result = .ok b' → (AllFit k (run d a b op) ↔ k ≤ 8192)) ∧
      (∀ r, (runAsync d a b op).result = .ok r → (AllFit k (runAsync d a b op) ↔ k ≤ 8192)) ∧
      ∀ blckSize node bindings, Backend.lowerMatmul blckSize node bindings = some op →
        Backend.supportsMatmulQ1a8 blckSize node = true ∧ ∃ weights,
          node.src0 = some weights ∧ weights.ne 0 = k := by
  obtain ⟨-, -, hk, -, -, hpos, hmod⟩ := checkShape_ok hshape
  refine ⟨?_, ?_, ?_⟩
  · intro b' hb'
    exact allFit_iff hpos hmod (run_programs b hshape) (run_emits b op b' hb')
  · intro r hr
    exact allFit_iff hpos hmod (runAsync_programs b hshape) (runAsync_emits b op r hr)
  · intro blckSize node bindings hlower
    obtain ⟨hsupports, weights, hw, hopk⟩ := Backend.lowerMatmul_k hlower
    exact ⟨hsupports, weights, hw, required_eq (hopk ▸ hk)⟩

/-! ### A matmul that fits and one that does not -/

/-- A board on which every call succeeds: one PYNQ slab and buffers at fixed addresses. -/
def quietDriver : Driver where
  ensureNative := .ok ()
  checkKernelId := .ok ()
  regRows := 8
  allocate nbytes := .ok ⟨nbytes, 0x18000000, 0x28000000⟩
  pynqBuffer _ := some 0x10000000
  baseVa _ := some 0x20000000
  quantizeRc _ := 0
  packActsRc _ := 0
  startRc _ _ := 0
  waitRc _ _ := 0

/-- An allocator with one slab and tensors for the weights, activations and result of a
    matmul of eight rows and one column. -/
def matmulAllocator (k : Nat) : Allocator Unit :=
  let attrs : Attrs := ⟨[], "u8", "tensor", "raw"⟩
  (calls ⟨fun _ _ _ _ => ([], ()), fun _ _ _ _ => ()⟩ ⟨[⟨65536, ()⟩], [[(0, 65536)]], [], 1, 64⟩
    [.allocate (k / 128 * 144 : Nat) attrs none, .allocate (4 * k : Nat) attrs none,
      .allocate 32 attrs none]).2

def noBuffers : Buffers := ⟨none, none, none, none⟩

/-- The MUL_MAT node of that matmul. -/
def matmulNode (k : Nat) : Backend.Node where
  type := .f32
  ne dim := if dim = 0 then 8 else 1
  isContiguous := true
  nbytes := 32
  op := .mulMat
  src0 :=
    some ⟨.q1_0, fun dim => if dim = 0 then k else if dim = 1 then 8 else 1, true, k / 128 * 144⟩
  src1 := some ⟨.f32, fun dim => if dim = 0 then k else 1, true, 4 * k⟩

def matmulBindings (k : Nat) : Backend.Bindings where
  weights := some ⟨1, k / 128 * 144, k / 128 * 144, 0⟩
  acts := some ⟨2, 4 * k, 4 * k, 0⟩
  dst := some ⟨3, 32, 32, 0⟩

def ggmlBlckSize : Backend.GgmlType → Int
  | .q1_0 => 128
  | _ => 1

/-- The op the node is lowered to. -/
def matmulOp (k : Nat) : Op :=
  ⟨some (some 8), some (some 1), some (some k), some (some 1), some (some 0),
    some (some 2), some (some 0), some (some 3), some (some 0)⟩

theorem matmul_fits_iff_narrow :
    Backend.lowerMatmul ggmlBlckSize (matmulNode 256) (matmulBindings 256) = some (matmulOp 256) ∧
      AllFit 256 (runAsync quietDriver (matmulAllocator 256) noBuffers (matmulOp 256)) := by
  have hshape : checkShape (matmulOp 256) = .ok (8, 1, 256) := rfl
  have hok : ∃ r, (runAsync quietDriver (matmulAllocator 256) noBuffers (matmulOp 256)).result =
      .ok r := ⟨_, rfl⟩
  obtain ⟨r, hr⟩ := hok
  refine ⟨rfl, ?_⟩
  exact ((matmul_fits_iff quietDriver (matmulAllocator 256) noBuffers (matmulOp 256) hshape).2.1 r
    hr).mpr (by decide)

/-- With `k = 8320` the node is accepted and the op runs, but its 65 Q1 blocks share
    BRAM addresses: the last overwrites the first. -/
theorem wide_matmul_aliases :
    Backend.supportsMatmulQ1a8 ggmlBlckSize (matmulNode 8320) = true ∧
      Backend.lowerMatmul ggmlBlckSize (matmulNode 8320) (matmulBindings 8320) =
        some (matmulOp 8320) ∧
      (∃ r, (runAsync quietDriver (matmulAllocator 8320) noBuffers (matmulOp 8320)).result =
        .ok r) ∧
      (∃ c, Act.start c ∈
        (runAsync quietDriver (matmulAllocator 8320) noBuffers (matmulOp 8320)).events ∧
        c.numQ1Blocks = 65) ∧
      actsAddr 256 = actsAddr 0 ∧
      ¬AllFit 8320 (runAsync quietDriver (matmulAllocator 8320) noBuffers (matmulOp 8320)) := by
  have hstart : ∃ c, Act.start c ∈
      (runAsync quietDriver (matmulAllocator 8320) noBuffers (matmulOp 8320)).events ∧
      c.numQ1Blocks = 65 := ⟨⟨_, _, _, _, _, _, _, _⟩, .tail _ (.tail _ (.head _)), rfl⟩
  refine ⟨rfl, rfl, ⟨_, rfl⟩, hstart, rfl, ?_⟩
  obtain ⟨c, hmem, hq⟩ := hstart
  intro hall
  have hle : c.numQ1Blocks ≤ 64 := (hall c hmem).q1Blocks.2
  omega

end Board.Matmul
