-- SUMMARY: A whole matmul on the chip: the value of every element of the result, each stored once.
import BonsaiTpu.Host.Exact

/-!
# The result of a matmul

The loops over batches, columns and pairs of rows store one value for each element of
the result. With a transport that keeps the promise of `plan.h`, the value of a row
is the fold of the exact integer sums of its blocks, each with the scales of its group
and its block.
-/

namespace Bonsai

section Results

variable {F σ : Type} (ops : FloatOps F) (job : MatMulJob F)

/-- The second row of pair `p`. -/
def secondRow (p : Nat) : Option Nat :=
  if ((p * tileRows : Nat) + 1 : Int) < job.nRows then some (p * tileRows + 1) else none

/-- The weights of pair `p`. -/
def rowPair (b2 b3 p : Nat) : Fin tileRows → Option (Nat → F) :=
  pairWeights job b2 b3 (p * tileRows) (secondRow job p)

/-- The value of an element: the exact sums of the blocks of its row, scaled and added up in
    order. -/
def cellValue (col b2 b3 row : Nat) : F :=
  foldBlocks ops (rowPair job b2 b3 (row / tileRows)) (colQuants ops job col b2 b3) job.k.toNat
    (Fin.ofNat tileRows row) (src0Row job b2 b3 row) ops.zero
    (keptBlocks ops (rowPair job b2 b3 (row / tileRows)) (colQuants ops job col b2 b3) job.k.toNat)

/-- The store of an element. -/
def elementStore (col b2 b3 row : Nat) : DstStore F :=
  dstCell job col b2 b3 row (cellValue ops job col b2 b3 row)

/-- The rows of pair `p`. -/
def pairRows (p : Nat) : List Nat := p * tileRows :: (secondRow job p).toList

variable {ops job}

theorem secondRow_eq_some {p row : Nat} (h : secondRow job p = some row) :
    row = p * tileRows + 1 := by
  unfold secondRow at h
  split at h
  · exact (Option.some.inj h).symm
  · cases h

/-- The pairs list all rows in order. -/
theorem flatMap_pairRows :
    (List.range ((job.nRows.toNat + tileRows - 1) / tileRows)).flatMap (pairRows job) =
      List.range job.nRows.toNat := by
  have hwhole : ∀ n, n * 2 ≤ job.nRows.toNat →
      (List.range n).flatMap (pairRows job) = List.range (n * 2) := by
    intro n
    induction n with
    | zero => intro _; rfl
    | succ n ih =>
      intro hn
      have hsecond : secondRow job n = some (n * 2 + 1) := if_pos (by simp only [tileRows]; omega)
      rw [List.range_succ, List.flatMap_append, ih (by omega), List.flatMap_singleton, pairRows,
        hsecond, Nat.succ_mul, List.range_succ, List.range_succ, List.append_assoc]
      rfl
  have heven := hwhole (job.nRows.toNat / 2) (by omega)
  rcases Nat.mod_two_eq_zero_or_one job.nRows.toNat with hmod | hmod
  · have hcount : (job.nRows.toNat + tileRows - 1) / tileRows = job.nRows.toNat / 2 := by
      simp only [tileRows]
      omega
    have hrows : job.nRows.toNat / 2 * 2 = job.nRows.toNat := by omega
    rw [hcount, heven, hrows]
  · -- The last pair of an odd number of rows has one row.
    have hcount : (job.nRows.toNat + tileRows - 1) / tileRows = job.nRows.toNat / 2 + 1 := by
      simp only [tileRows]
      omega
    have hrows : job.nRows.toNat = job.nRows.toNat / 2 * 2 + 1 := by omega
    have hsecond : secondRow job (job.nRows.toNat / 2) = none :=
      if_neg (by simp only [tileRows]; omega)
    rw [hcount, List.range_succ, List.flatMap_append, heven, List.flatMap_singleton,
      pairRows, hsecond]
    conv_rhs => rw [hrows, List.range_succ]
    rfl

/-- What the fold computes for the rows of a pair are the values of their elements. -/
theorem pairStores_eq {p col b2 b3 : Nat} (acc : Fin tileRows → F)
    (hacc : ∀ row w, rowPair job b2 b3 p row = some w → acc row =
      foldBlocks ops (rowPair job b2 b3 p) (colQuants ops job col b2 b3) job.k.toNat row w ops.zero
        (keptBlocks ops (rowPair job b2 b3 p) (colQuants ops job col b2 b3) job.k.toNat)) :
    dstCell job col b2 b3 (p * tileRows) (acc 0) ::
        (secondRow job p).toList.map (fun row => dstCell job col b2 b3 row (acc 1)) =
      (pairRows job p).map (elementStore ops job col b2 b3) := by
  have hrow0 : p * tileRows / tileRows = p := Nat.mul_div_cancel p (by decide)
  have hlane0 : Fin.ofNat tileRows (p * tileRows) = 0 := Fin.ext (Nat.mul_mod_left p tileRows)
  have hvalue0 : acc 0 = cellValue ops job col b2 b3 (p * tileRows) := by
    rw [hacc 0 (src0Row job b2 b3 (p * tileRows)) rfl, cellValue, hrow0, hlane0]
  rw [pairRows, List.map_cons, elementStore, ← hvalue0]
  refine congrArg _ (List.map_congr_left fun row hrow => ?_)
  have hsecond : secondRow job p = some row := Option.mem_toList.mp hrow
  have heq : row = p * 2 + 1 := secondRow_eq_some hsecond
  have hrow1 : row / tileRows = p := by
    show row / 2 = p
    omega
  have hlane1 : Fin.ofNat tileRows row = 1 := by
    refine Fin.ext ?_
    show row % 2 = 1
    omega
  have hw1 : rowPair job b2 b3 p 1 = some (src0Row job b2 b3 row) := by
    show (secondRow job p).map (src0Row job b2 b3) = _
    rw [hsecond, Option.map_some]
  rw [elementStore, hacc 1 _ hw1, cellValue, hrow1, hlane1]

variable {tr : Transport σ} {live : σ → Prop} {plans : Plan → Prop} (hobeys : tr.ObeysOn live plans)
  (hplans : ∀ weights quants, plans (cellPlan ops weights quants job.k.toNat).plan)

include hobeys hplans

variable (ops job) in
/-- A pair of rows. -/
theorem runCellPair_eq {s : σ} (hs : live s) (p col b2 b3 : Nat) :
    ∃ s', live s' ∧
      runCellPair ops tr job (p * tileRows) (secondRow job p) col b2 b3
        (colQuants ops job col b2 b3) s =
        (s', some ((pairRows job p).map (elementStore ops job col b2 b3))) := by
  have hweights : pairWeights job b2 b3 (p * tileRows) (secondRow job p) = rowPair job b2 b3 p :=
    rfl
  simp only [runCellPair, hweights]
  split_ifs with hempty
  · refine ⟨s, hs, congrArg (fun stores =>
      (s, some stores)) (pairStores_eq (fun _ => ops.zero) fun row w _ => ?_)⟩
    rw [cellPlan_plan_eq_nil (List.isEmpty_iff.mp hempty)]
    rfl
  · obtain ⟨s', psums, hexec, hs', hpsums⟩ := hobeys s
      (cellPlan ops (rowPair job b2 b3 p) (colQuants ops job col b2 b3) job.k.toNat).plan hs
      (by simpa using hempty)
      (hplans _ _) cellPlan_head
    refine ⟨s', hs', ?_⟩
    rw [hexec]
    exact congrArg (fun stores => (s', some stores)) (pairStores_eq _ fun row w hw =>
      foldPsums_eq hw hpsums)

omit hobeys hplans in
/-- A loop each of whose iterations adds stores and leaves the transport live. -/
theorem foldlM_stores {f : Progress F σ → Nat → Except (Progress F σ) (Progress F σ)}
    {piece : Nat → List (DstStore F)}
    {n : Nat} (h : ∀ i, ∀ st : Progress F σ, live st.1 → ∃ s',
      live s' ∧ f st i = .ok (s', st.2 ++ piece i))
    {st : Progress F σ} (hst : live st.1) :
    ∃ s', live s' ∧ (List.range n).foldlM f st =
      .ok (s', st.2 ++ (List.range n).flatMap piece) := by
  induction n with
  | zero => exact ⟨st.1, hst, by simp [pure, Except.pure]⟩
  | succ n ih =>
    obtain ⟨s₁, hs₁, hrun⟩ := ih
    obtain ⟨s₂, hs₂, hlast⟩ := h n (s₁, st.2 ++ (List.range n).flatMap piece) hs₁
    refine ⟨s₂, hs₂, ?_⟩
    rw [List.range_succ, List.foldlM_append, hrun, List.flatMap_append, List.flatMap_singleton,
      ← List.append_assoc, ← hlast]
    simp only [List.foldlM_cons, List.foldlM_nil, bind_pure]
    rfl

/-- All stores of a matmul, in order. -/
def resultStores (ops : FloatOps F) (job : MatMulJob F) : List (DstStore F) :=
  (List.range job.nB3.toNat).flatMap fun b3 => (List.range job.nB2.toNat).flatMap fun b2 =>
    (List.range job.nCols.toNat).flatMap fun col =>
      (List.range job.nRows.toNat).map (elementStore ops job col b2 b3)

variable (ops job) in
theorem runColumn_eq (b2 b3 col : Nat) {st : Progress F σ} (hst : live st.1) :
    ∃ s', live s' ∧ runColumn ops tr job b2 b3 st col =
      .ok (s', st.2 ++ (List.range job.nRows.toNat).map (elementStore ops job col b2 b3)) := by
  have hpair : ∀ p, ∀ st : Progress F σ, live st.1 → ∃ s', live s' ∧
      runPair ops tr job col b2 b3 (colQuants ops job col b2 b3) st p =
        .ok (s', st.2 ++ (pairRows job p).map (elementStore ops job col b2 b3)) := by
    intro p st hst
    obtain ⟨s', hs', hcell⟩ := runCellPair_eq ops job hobeys hplans hst p col b2 b3
    refine ⟨s', hs', ?_⟩
    have hrow1 :
        (if (((p * tileRows : Nat) : Int) + 1) < job.nRows then some (p * tileRows + 1) else none) =
        secondRow job p := rfl
    simp only [runPair, hrow1, hcell]
  obtain ⟨s', hs', hrun⟩ :=
    foldlM_stores (n := (job.nRows.toNat + tileRows - 1) / tileRows) hpair hst
  refine ⟨s', hs', ?_⟩
  rw [← List.map_flatMap, flatMap_pairRows] at hrun
  exact hrun

/-- There is nothing to compute. -/
def MatMulJob.Empty (job : MatMulJob F) : Prop :=
  job.nRows = 0 ∨ job.nCols = 0 ∨ job.nB2 = 0 ∨ job.nB3 = 0

instance : Decidable job.Empty := inferInstanceAs (Decidable (_ ∨ _))

variable (ops job) in
/-- The matmul makes all stores and leaves the transport live; its status decides the result. -/
theorem runBonsaiMatmul_eq {s : σ} (hs : live s) :
    ∃ s', live s' ∧ runBonsaiMatmul ops tr job s =
      (if job.Empty then true else tr.status s' &&& statusError == 0, s',
        resultStores ops job) := by
  rw [runBonsaiMatmul]
  by_cases hzero : job.Empty
  · have hsizes : job.nRows = 0 ∨ job.nCols = 0 ∨ job.nB2 = 0 ∨ job.nB3 = 0 := hzero
    refine ⟨s, hs, ?_⟩
    rw [if_pos hzero, if_pos hsizes]
    rcases hzero with h | h | h | h <;> simp [resultStores, h]
  · have hcols := fun b3 b2 (st : Progress F σ) (hst : live st.1) =>
      foldlM_stores (n := job.nCols.toNat)
      (fun col st hst => runColumn_eq ops job hobeys hplans b2 b3 col hst) hst
    have hb2 := fun b3 (st : Progress F σ) (hst : live st.1) =>
      foldlM_stores (n := job.nB2.toNat) (hcols b3) hst
    obtain ⟨s', hs', hrun⟩ :=
      foldlM_stores (n := job.nB3.toNat) hb2 (show live (s, ([] : List (DstStore F))).1 from hs)
    have hsizes : ¬ (job.nRows = 0 ∨ job.nCols = 0 ∨ job.nB2 = 0 ∨ job.nB3 = 0) := hzero
    refine ⟨s', hs', ?_⟩
    rw [if_neg hzero, if_neg hsizes]
    simp only [hrun]
    rfl

end Results

/-- On a transport that obeys every plan the matmul makes all stores. -/
theorem runBonsaiMatmul_stores {F σ : Type} (ops : FloatOps F) (job : MatMulJob F)
    {tr : Transport σ} {live : σ → Prop}
    (hobeys : tr.Obeys live) {s : σ} (hs : live s) :
    (runBonsaiMatmul ops tr job s).2.2 = resultStores ops job := by
  obtain ⟨s', -, hrun⟩ :=
    runBonsaiMatmul_eq ops job (hobeys.on fun _ => True) (fun _ _ => trivial) hs
  rw [hrun]


/-! ## Exactness -/

/-- What holds of the plan of a pair of rows, and of the sums that a transport reads. -/
structure ExactCell {F σ : Type} (ops : FloatOps F) (weights : Fin tileRows → Option (Nat → F))
    (quants : ActQuants F) (k : Nat) (tr : Transport σ) (live : σ → Prop) : Prop where
  /-- Each activation is in one block. -/
  cover : ∀ i a, a < blockCount k →
    (i ∈ Finset.Ico (a * kActBlock) (blockEnd k a) ↔ i < k ∧ a = i / kActBlock)
  /-- The plan has one run for each block that is not skipped, in increasing order. -/
  runs : (cellPlan ops weights quants k).plan =
    (keptBlocks ops weights quants k).flatMap (blockOps ops weights quants k)
  increasing : (keptBlocks ops weights quants k).Pairwise (· < ·)
  oneRun : ∀ (a t : Nat) (op : PlanOp), (blockOps ops weights quants k a)[t]? = some op →
    (op.startsRun = true ↔ t = 0) ∧
      (op.endsRun = true ↔ t + 1 = (blockOps ops weights quants k a).length)
  /-- A block is skipped only if its activations or the weights of both rows have scale zero. -/
  skipped : ∀ a < blockCount k, a ∉ keptBlocks ops weights quants k →
    ops.isZero (quants.scales a) = true ∨
    ∀ row, ops.isZero (blockScale ops weights k a row) = true
  /-- No sum leaves 16 bits. -/
  inRange : ∀ i < (cellPlan ops weights quants k).plan.length, ∀ row,
    -2 ^ 15 ≤ runPsum (currentRun ((cellPlan ops weights quants k).plan.take (i + 1))) row ∧
      runPsum (currentRun ((cellPlan ops weights quants k).plan.take (i + 1))) row < 2 ^ 15
  /-- Each block is folded once, with its own scales, at the exact sum of each row. -/
  folded : (cellPlan ops weights quants k).subBlocks.length =
    (keptBlocks ops weights quants k).length ∧
    ∀ (n a : Nat), (keptBlocks ops weights quants k)[n]? = some a → ∃ sb : SubBlockMeta F,
      (cellPlan ops weights quants k).subBlocks[n]? = some sb ∧ sb.dW = blockScale ops weights k a ∧
        sb.dA = quants.scales a ∧
      ∀ s psums, live s → (tr.execute s (cellPlan ops weights quants k).plan).2 = some psums →
        ∀ row w, weights row = some w → psums.getD (sb.tailOpIndex * tileRows + row) 0 =
          blockSum ops w quants k a

section Exact

variable {F σ : Type} {ops : FloatOps F} {weights : Fin tileRows → Option (Nat → F)}
    {quants : ActQuants F} {k : Nat}

theorem length_blockMetas (base : Nat) (blocks : List Nat) :
    (blockMetas ops weights quants k base blocks).length = blocks.length := by
  induction blocks generalizing base with
  | nil => rfl
  | cons a blocks ih => rw [blockMetas, List.length_cons, List.length_cons, ih]

variable (ops weights quants k) in
theorem getElem?_blockMetas (base : Nat) (pre : List Nat) (a : Nat) (post : List Nat) :
    (blockMetas ops weights quants k base (pre ++ a :: post))[pre.length]? =
      some ⟨base + (pre.flatMap (blockOps ops weights quants k)).length + (blockTiles k a - 1),
        blockScale ops weights k a, quants.scales a⟩ := by
  induction pre generalizing base with
  | nil => rfl
  | cons b pre ih =>
    rw [List.cons_append, blockMetas, List.length_cons, List.getElem?_cons_succ, ih,
      List.flatMap_cons, List.length_append, length_blockOps, Nat.add_assoc base]

theorem exactCell {tr : Transport σ} {live : σ → Prop} (hobeys : tr.Obeys live) :
    ExactCell ops weights quants k tr live := by
  have hplan : (cellPlan ops weights quants k).plan =
      (keptBlocks ops weights quants k).flatMap (blockOps ops weights quants k) := by
    rw [cellPlan_eq]
  have hmetas : (cellPlan ops weights quants k).subBlocks =
      blockMetas ops weights quants k 0 (keptBlocks ops weights quants k) := by rw [cellPlan_eq]
  refine ⟨fun i a ha => ?_, hplan, List.pairwise_lt_range.filter _, fun a t op hop => ?_,
    fun a ha hnot => ?_, fun i hi row => ?_, by rw [hmetas, length_blockMetas], fun n a hn => ?_⟩
  case refine_1 =>
    simp only [Finset.mem_Ico, blockEnd, blockCount, kActBlock] at *
    omega
  case refine_2 =>
    have ht : t < blockTiles k a := by
      have hlt := (List.getElem?_eq_some_iff.mp hop).1
      rwa [length_blockOps] at hlt
    rw [blockOps, List.getElem?_map, List.getElem?_range ht] at hop
    obtain rfl : _ = op := Option.some.inj hop
    simp only [tileOp, beq_iff_eq, length_blockOps]
    exact ⟨trivial, by omega⟩
  -- a block that is left out has a scale of zero: of its activations, or of both rows
  case refine_3 =>
    have hskip : Skipped ops weights quants k a := by
      by_contra hkeep
      exact hnot (mem_keptBlocks.mpr ⟨ha, hkeep⟩)
    refine hskip.imp id fun hzero row => ?_
    fin_cases row
    · exact hzero.1
    · exact hzero.2
  case refine_4 =>
    rw [hplan] at hi ⊢
    have hbounds := abs_le.mp (abs_runPsum_blocks_le hi row)
    omega
  -- the tail of the last tile of a block has the sum of the block
  case refine_5 =>
    obtain ⟨hlt, hget⟩ := List.getElem?_eq_some_iff.mp hn
    obtain ⟨pre, hpre⟩ : ∃ pre, (keptBlocks ops weights quants k).take n = pre := ⟨_, rfl⟩
    have hkept : keptBlocks ops weights quants k =
        pre ++ a :: (keptBlocks ops weights quants k).drop (n + 1) := by
      rw [← hpre, ← hget, ← List.drop_eq_getElem_cons hlt, List.take_append_drop]
    have hlen : pre.length = n := by
      rw [← hpre, List.length_take, Nat.min_eq_left (Nat.le_of_lt hlt)]
    have hmeta := getElem?_blockMetas ops weights quants k 0 pre a
      ((keptBlocks ops weights quants k).drop (n + 1))
    rw [← hkept, ← hmetas, hlen, Nat.zero_add] at hmeta
    refine ⟨_, hmeta, rfl, rfl, fun s psums hs hexec row w hw => ?_⟩
    have hne : (cellPlan ops weights quants k).plan ≠ [] := by
      intro hnil
      rw [cellPlan_plan_eq_nil hnil] at hlt
      exact absurd hlt (Nat.not_lt_zero n)
    obtain ⟨s', psums', hexec', -, hpsums⟩ := hobeys s _ hs hne cellPlan_head
    obtain rfl : psums' = psums := by
      rw [hexec'] at hexec
      exact Option.some.inj hexec
    rw [hplan] at hpsums
    exact tail_psum hkept (blockTiles_pos (mem_keptBlocks.mp (List.mem_of_getElem? hn)).1) hpsums hw

end Exact

/-! ## The elements of the result -/

section Elements

variable {τ F : Type}

/-- The offset of an element in the data of a tensor with strides `nb`, in 64 bits. -/
def elementOffset (nb : Fin 4 → Nat) (i0 i1 i2 i3 : Nat) : Nat :=
  (i0 * nb 0 + i1 * nb 1 + i2 * nb 2 + i3 * nb 3) % 2 ^ 64

/-- The elements of a tensor, by their indices from the last dimension to the first. -/
def elements (ne : Fin 4 → Int) : List (Nat × Nat × Nat × Nat) :=
  List.range (ne 3).toNat ×ˢ
    (List.range (ne 2).toNat ×ˢ (List.range (ne 1).toNat ×ˢ List.range (ne 0).toNat))

/-- The weights that a row of the result is made of: a matrix of `src0` serves several ones of the
    result. -/
def weightRow (src0 : GgmlTensor τ F) (ne : Fin 4 → Int) (b3 b2 row : Nat) : Nat → F :=
  src0.floats (elementOffset src0.nb 0 row (b2 / ((ne 2).toNat / (src0.ne 2).toNat))
    (b3 / ((ne 3).toNat / (src0.ne 3).toNat)))

/-- The quantised activations of a column. -/
def actColumn (ops : FloatOps F) (src0 src1 : GgmlTensor τ F) (b3 b2 col : Nat) : ActQuants F :=
  quantizeActsQ8 ops (src1.floats (elementOffset src1.nb 0 col b2 b3)) (src0.ne 0).toNat

/-- The weights of a row and of the one it is computed with. -/
def weightPair (src0 : GgmlTensor τ F) (ne : Fin 4 → Int) (b3 b2 row : Nat) :
    Fin tileRows → Option (Nat → F) := fun r =>
  if row / 2 * 2 + r < (ne 0).toNat then some (weightRow src0 ne b3 b2 (row / 2 * 2 + r)) else none

/-- What an element of the result is: the exact sums of the blocks of its row and its column, each
    with the scales of its group and its block, added up in order. Blocks are left out whose
    activations, or whose weights in both rows of the pair, have scale zero. -/
def exactValue (ops : FloatOps F) (src0 src1 : GgmlTensor τ F) (ne : Fin 4 → Int)
    (b3 b2 col row : Nat) : F :=
  foldBlocks ops (weightPair src0 ne b3 b2 row) (actColumn ops src0 src1 b3 b2 col)
    (src0.ne 0).toNat (Fin.ofNat tileRows row) (weightRow src0 ne b3 b2 row) ops.zero
    (keptBlocks ops (weightPair src0 ne b3 b2 row) (actColumn ops src0 src1 b3 b2 col)
      (src0.ne 0).toNat)

/-- The element of a store. -/
def DstStore.element (st : DstStore F) : Nat × Nat × Nat × Nat := (st.b3, st.b2, st.col, st.row)

/-- The stores of a product: one for each element, at its place. -/
def productStores (ops : FloatOps F) (src0 src1 dst : GgmlTensor τ F) : List (DstStore F) :=
  (elements dst.ne).map fun (b3, b2, col, row) =>
    ⟨b3, b2, col, row, elementOffset dst.nb row col b2 b3,
      exactValue ops src0 src1 dst.ne b3 b2 col row⟩

theorem mem_elements {ne : Fin 4 → Int} {b3 b2 col row : Nat} :
    (b3, b2, col, row) ∈ elements ne ↔ (b3 : Int) < ne 3 ∧ (b2 : Int) < ne 2 ∧ (col : Int) < ne 1 ∧
      (row : Int) < ne 0 := by
  simp only [elements, List.mem_product, List.mem_range]
  omega

theorem nodup_elements (ne : Fin 4 → Int) : (elements ne).Nodup :=
  List.nodup_range.product (List.nodup_range.product (List.nodup_range.product List.nodup_range))

theorem element_productStores (ops : FloatOps F) (src0 src1 dst : GgmlTensor τ F) :
    (productStores ops src0 src1 dst).map DstStore.element = elements dst.ne := by
  rw [productStores, List.map_map]
  exact List.map_id _

/-- Elements in different places are stored in different places. -/
theorem nodup_offset_productStores (ops : FloatOps F) (src0 src1 dst : GgmlTensor τ F)
    (h : ∀ e ∈ elements dst.ne, ∀ e' ∈ elements dst.ne,
      elementOffset dst.nb e.2.2.2 e.2.2.1 e.2.1 e.1 =
        elementOffset dst.nb e'.2.2.2 e'.2.2.1 e'.2.1 e'.1 → e = e') :
    ((productStores ops src0 src1 dst).map DstStore.offset).Nodup := by
  rw [productStores, List.map_map]
  exact (List.nodup_map_iff_inj_on (nodup_elements _)).mpr h

section Jobs

variable [DecidableEq τ] {traits : TypeTraits τ} {dst : MulMatNode τ F} {job : MatMulJob F}

/-- What an accepted job is made of. -/
structure JobOf (dst : MulMatNode τ F) (src0 src1 : GgmlTensor τ F) (job : MatMulJob F) : Prop where
  job : job =
    { src0Floats := src0.floats, src1Floats := src1.floats,
      k := src0.ne 0, nRows := dst.ne 0, nCols := dst.ne 1
      nB2 := dst.ne 2, nB3 := dst.ne 3
      src0B2 := (dst.ne 2).tdiv (src0.ne 2), src0B3 := (dst.ne 3).tdiv (src0.ne 3)
      src0Nb1 := src0.nb 1, src0Nb2 := src0.nb 2, src0Nb3 := src0.nb 3
      src1Nb1 := src1.nb 1, src1Nb2 := src1.nb 2, src1Nb3 := src1.nb 3
      dstNb0 := dst.nb 0, dstNb1 := dst.nb 1, dstNb2 := dst.nb 2, dstNb3 := dst.nb 3 }
  ne2_pos : 0 < src0.ne 2
  ne3_pos : 0 < src0.ne 3

theorem exists_jobOf (hjob : makeMatmulJob traits dst = some job) :
    ∃ src0 src1, dst.src0 = some src0 ∧ dst.src1 = some src1 ∧ JobOf dst src0 src1 job := by
  unfold makeMatmulJob at hjob
  split at hjob
  · cases hjob
  split at hjob
  · next src0 src1 hsrc0 hsrc1 =>
    split_ifs at hjob with _ _ _ _ hpos
    cases hjob
    simp only [not_or, not_le] at hpos
    exact ⟨src0, src1, hsrc0, hsrc1, rfl, hpos.1, hpos.2.1⟩
  · cases hjob

variable {src0 src1 : GgmlTensor τ F} (h : JobOf dst src0 src1 job)

include h

omit [DecidableEq τ] in
/-- The index of a matrix of `src0`, as the job divides. -/
theorem JobOf.src0Row_eq {b3 b2 : Nat} (hb3 : (b3 : Int) < dst.ne 3)
    (hb2 : (b2 : Int) < dst.ne 2) (row : Nat) :
    src0Row job b2 b3 row = weightRow src0 dst.ne b3 b2 row := by
  have hdiv : ∀ (x n : Int) (b : Nat), (b : Int) < x → 0 < n →
      (b : Int).tdiv (x.tdiv n) = (b / (x.toNat / n.toNat) : Nat) := by
    intro x n b hx hn
    obtain ⟨x, rfl⟩ := Int.eq_ofNat_of_zero_le (show 0 ≤ x by omega)
    obtain ⟨n, rfl⟩ := Int.eq_ofNat_of_zero_le (show 0 ≤ n by omega)
    rfl
  rw [h.job, src0Row, weightRow]
  dsimp only
  rw [hdiv _ _ _ hb3 h.ne3_pos, hdiv _ _ _ hb2 h.ne2_pos, offset64, elementOffset]
  congr 1
  rw [Nat.zero_mul, Nat.zero_add]
  exact_mod_cast rfl

omit [DecidableEq τ] in
theorem JobOf.colQuants_eq (ops : FloatOps F) (b3 b2 col : Nat) :
    colQuants ops job col b2 b3 = actColumn ops src0 src1 b3 b2 col := by
  rw [h.job, colQuants, actColumn, offset64, elementOffset, Nat.zero_mul, Nat.zero_add]
  congr 2

omit [DecidableEq τ] in
theorem JobOf.rowPair_eq {b3 b2 : Nat} (hb3 : (b3 : Int) < dst.ne 3)
    (hb2 : (b2 : Int) < dst.ne 2) {row : Nat}
    (hrow : (row : Int) < dst.ne 0) :
    rowPair job b2 b3 (row / tileRows) = weightPair src0 dst.ne b3 b2 row := by
  have hrows : job.nRows = dst.ne 0 := by rw [h.job]
  have hpair : row / tileRows * tileRows = row / 2 * 2 := rfl
  funext r
  fin_cases r
  · have hlt : row / 2 * 2 + 0 < (dst.ne 0).toNat := by omega
    show some (src0Row job b2 b3 (row / tileRows * tileRows)) =
        if row / 2 * 2 + 0 < (dst.ne 0).toNat then _ else none
    rw [if_pos hlt, h.src0Row_eq hb3 hb2, hpair]
    rfl
  · show (secondRow job (row / tileRows)).map (src0Row job b2 b3) =
      if row / 2 * 2 + 1 < (dst.ne 0).toNat then
        some (weightRow src0 dst.ne b3 b2 (row / 2 * 2 + 1)) else none
    rw [secondRow, hrows, hpair]
    by_cases hlt : row / 2 * 2 + 1 < (dst.ne 0).toNat
    · rw [if_pos (by omega), if_pos hlt, Option.map_some, h.src0Row_eq hb3 hb2]
    · rw [if_neg (by omega), if_neg hlt, Option.map_none]

omit [DecidableEq τ] in
/-- The stores of a job are those of its product. -/
theorem JobOf.resultStores_eq (ops : FloatOps F) :
    resultStores ops job = productStores ops src0 src1 dst.toGgmlTensor := by
  have hsizes : job.nB3 = dst.ne 3 ∧ job.nB2 = dst.ne 2 ∧ job.nCols = dst.ne 1 ∧
      job.nRows = dst.ne 0 ∧ job.k = src0.ne 0 := by
    rw [h.job]
    exact ⟨rfl, rfl, rfl, rfl, rfl⟩
  obtain ⟨h3, h2, h1, h0, hk⟩ := hsizes
  have hstore : ∀ b3 < (dst.ne 3).toNat, ∀ b2 < (dst.ne 2).toNat, ∀ col, ∀ row < (dst.ne 0).toNat,
      elementStore ops job col b2 b3 row =
        ⟨b3, b2, col, row, elementOffset dst.nb row col b2 b3,
          exactValue ops src0 src1 dst.ne b3 b2 col row⟩ := by
    intro b3 hb3 b2 hb2 col row hrow
    have hoffset : (dstCell job col b2 b3 row ops.zero).offset =
        elementOffset dst.nb row col b2 b3 := by
      rw [h.job, dstCell, offset64, elementOffset]
      exact_mod_cast rfl
    rw [elementStore, cellValue, h.rowPair_eq (by omega) (by omega) (by omega), h.colQuants_eq,
      h.src0Row_eq (by omega) (by omega), hk, ← exactValue, ← hoffset]
    rfl
  simp only [resultStores, productStores, elements, SProd.sprod, List.product, List.map_flatMap,
    List.map_map, h3, h2, h1, h0]
  refine List.flatMap_congr fun b3 hb3 => List.flatMap_congr fun b2 hb2 =>
    List.flatMap_congr fun col _ => List.map_congr_left fun row hrow => ?_
  exact hstore b3 (List.mem_range.mp hb3) b2 (List.mem_range.mp hb2) col row
    (List.mem_range.mp hrow)

end Jobs

end Elements

/-- A matmul that the backend accepts, on a transport that keeps the promise of `plan.h`: for every
    pair of rows, whatever the signs of the weights and the quantised activations, each block that
    is not skipped is one run that ends at its exact integer sum, and is folded once and in order
    with its own scales. Each element of the result is stored once, at its place in `dst`, with
    that fold of its row of weights and its column of activations. -/
theorem chip_matmul_exact {τ F σ : Type} [DecidableEq τ] {traits : TypeTraits τ}
    {dst : MulMatNode τ F} {job : MatMulJob F}
    (hjob : makeMatmulJob traits dst = some job) (ops : FloatOps F) {tr : Transport σ}
    {live : σ → Prop} (hobeys : tr.Obeys live) {s : σ} (hs : live s) :
    (∀ weights quants, ExactCell ops weights quants job.k.toNat tr live) ∧
      ∃ src0 src1, dst.src0 = some src0 ∧ dst.src1 = some src1 ∧
        (runBonsaiMatmul ops tr job s).2.2 =
          (elements dst.ne).map (fun (b3, b2, col, row) =>
            ⟨b3, b2, col, row, elementOffset dst.nb row col b2 b3,
              exactValue ops src0 src1 dst.ne b3 b2 col row⟩) ∧
        ((runBonsaiMatmul ops tr job s).2.2.map DstStore.element).Nodup ∧
        (∀ b3 b2 col row, (b3, b2, col, row) ∈
          (runBonsaiMatmul ops tr job s).2.2.map DstStore.element ↔
          (b3 : Int) < dst.ne 3 ∧ (b2 : Int) < dst.ne 2 ∧ (col : Int) < dst.ne 1 ∧
            (row : Int) < dst.ne 0) ∧
        ((∀ e ∈ elements dst.ne, ∀ e' ∈ elements dst.ne,
            elementOffset dst.nb e.2.2.2 e.2.2.1 e.2.1 e.1 =
              elementOffset dst.nb e'.2.2.2 e'.2.2.1 e'.2.1 e'.1 → e = e') →
          ((runBonsaiMatmul ops tr job s).2.2.map DstStore.offset).Nodup) := by
  obtain ⟨src0, src1, hsrc0, hsrc1, h⟩ := exists_jobOf hjob
  have hstores := (runBonsaiMatmul_stores ops job hobeys hs).trans (h.resultStores_eq ops)
  rw [hstores, element_productStores]
  exact ⟨fun weights quants => exactCell hobeys, src0, src1, hsrc0, hsrc1, rfl, nodup_elements _,
    fun b3 b2 col row => mem_elements, nodup_offset_productStores ops src0 src1 dst.toGgmlTensor⟩

/-- The transport that computes what `plan.h` says. -/
def planTransport : Transport Unit where
  execute _ plan := ((), some ((List.range (plan.length * tileRows)).map fun j =>
    toInt16 (runPsum (currentRun (plan.take (j / tileRows + 1))) (Fin.ofNat tileRows j))))
  status _ := 0

theorem planTransport_obeys : planTransport.Obeys fun _ => True := by
  intro s plan _ _ _
  refine ⟨(), _, rfl, trivial, fun i op hop _ row => ?_⟩
  have hi : i < plan.length := (List.getElem?_eq_some_iff.mp hop).1
  have hrow : (row : Nat) < 2 := row.isLt
  have hdiv : (i * tileRows + row) / tileRows = i := by
    simp only [tileRows]
    omega
  have hlane : Fin.ofNat tileRows (i * tileRows + row) = row := by
    refine Fin.ext ?_
    show (i * 2 + row) % 2 = row
    omega
  have hlt : i * tileRows + row < plan.length * tileRows := by
    simp only [tileRows]
    omega
  rw [List.getD_eq_getElem?_getD, List.getElem?_map, List.getElem?_range hlt, Option.map_some,
    Option.getD_some, hdiv, hlane]

/-- Integers in the place of floats. -/
def intOps : FloatOps Int where
  zero := 0
  isZero x := x == 0
  nonneg x := decide (0 ≤ x)
  isFinite _ := true
  abs x := |x|
  add x y := x + y
  mul x y := x * y
  div x y := x / y
  max x y := max x y
  ofInt x := x
  roundHalf x := x
  lround x := x

/-- Three rows of 33 weights, so that the last pair has one row and the last block one
    activation. -/
theorem chip_matmul_exact_three_rows :
    ∃ (dst : MulMatNode Unit Int) (job : MatMulJob Int),
      makeMatmulJob ⟨(), fun _ => true, fun _ => 1, fun _ => 4⟩ dst = some job ∧
      job.k = 33 ∧ job.nRows = 3 ∧
      (runBonsaiMatmul intOps planTransport job ()).2.2.map
        (fun st => (st.row, st.offset, st.value)) =
        [(0, 0, -185), (1, 4, -9), (2, 8, 163)] := by
  let weights : GgmlTensor Unit Int :=
    ⟨(), ![33, 3, 1, 1], ![4, 132, 396, 396], fun offset i =>
      if i % 3 = offset / 132 then -1 else 1⟩
  let acts : GgmlTensor Unit Int :=
    ⟨(), ![33, 1, 1, 1], ![4, 132, 132, 132], fun _ i => if i = 32 then -127 else 127 - 8 * i⟩
  let dst : MulMatNode Unit Int :=
    { type := (), ne := ![3, 1, 1, 1], nb := ![4, 12, 12, 12],
      floats := fun _ _ => 0, isMulMat := true
      src0 := some weights, src1 := some acts }
  let job : MatMulJob Int :=
    ⟨weights.floats, acts.floats, 33, 3, 1, 1, 1, 1, 1, 132, 396, 396, 132, 132, 132, 4, 12, 12, 12⟩
  have hjob : makeMatmulJob ⟨(), fun _ => true, fun _ => 1, fun _ => 4⟩ dst = some job := by
    simp [makeMatmulJob, typeCanConvertToFloat, dst, weights, acts, job]
  obtain ⟨-, src0, src1, hsrc0, hsrc1, hstores, -⟩ :=
    chip_matmul_exact hjob intOps planTransport_obeys trivial
  cases hsrc0
  cases hsrc1
  refine ⟨dst, job, hjob, rfl, rfl, ?_⟩
  rw [hstores]
  decide +kernel

end Bonsai
