-- SUMMARY: The chip computes the integer sums of a matmul exactly, each block once, and every element of the result is stored once.
import BonsaiTpu.Host.Matmul
import Mathlib.Algebra.BigOperators.Intervals
import Mathlib.Algebra.Order.BigOperators.Group.Finset
import Mathlib.Algebra.Order.Group.Abs
import Mathlib.Algebra.Order.Group.Int
import Mathlib.Data.List.ProdSigma

/-!
# Exactness of the matmul

Block `a` holds the activations from `32 * a` on, and belongs to group `a / 4` of the
weights. The plan of a pair of rows is the concatenation of one run for each block
that is not skipped (`cellPlan_eq`); a run's partial sums stay far inside 16 bits and
end at the integer sum of the block (`runPsum_blockOps`).
-/

namespace Bonsai

/-! ## Blocks -/

section Blocks

variable {F : Type} (ops : FloatOps F) (weights : Fin tileRows → Option (Nat → F))
    (quants : ActQuants F) (k : Nat)

/-- The end of block `a`. -/
def blockEnd (a : Nat) : Nat := min (a * kActBlock + kActBlock) k

/-- The number of tiles of block `a`. -/
def blockTiles (a : Nat) : Nat := (blockEnd k a - a * kActBlock + tileCols - 1) / tileCols

/-- The weight scales of the group of block `a`. -/
def blockScale (a : Nat) (row : Fin tileRows) : F :=
  groupScale ops weights row (a / 4 * kWeightGroup) (min (a / 4 * kWeightGroup + kWeightGroup) k)

/-- The activations of block `a`, or the weights of its group in both rows, have scale zero. -/
def Skipped (a : Nat) : Prop :=
  ops.isZero (quants.scales a) = true ∨
    ops.isZero (blockScale ops weights k a 0) = true ∧
      ops.isZero (blockScale ops weights k a 1) = true

instance (a : Nat) : Decidable (Skipped ops weights quants k a) :=
  inferInstanceAs (Decidable (_ ∨ _ ∧ _))

/-- The blocks of `k` activations. -/
def blockCount : Nat := (k + kActBlock - 1) / kActBlock

/-- The blocks that are computed, in increasing order. -/
def keptBlocks : List Nat := (List.range (blockCount k)).filter fun a =>
  ¬ Skipped ops weights quants k a

/-- The run of block `a`. -/
def blockOps (a : Nat) : Plan :=
  (List.range (blockTiles k a)).map
    (tileOp ops weights quants (a * kActBlock) (blockEnd k a) (blockTiles k a))

/-- What is recorded of the runs of some blocks, the first of which starts at `base`. -/
def blockMetas (base : Nat) : List Nat → List (SubBlockMeta F)
  | [] => []
  | a :: rest =>
    ⟨base + (blockTiles k a - 1), blockScale ops weights k a, quants.scales a⟩ ::
      blockMetas (base + blockTiles k a) rest

/-- What the loops do with block `a`. -/
def addBlock (st : CellPlan F) (a : Nat) : CellPlan F :=
  if Skipped ops weights quants k a then st
  else
    ⟨st.plan ++ blockOps ops weights quants k a,
      st.subBlocks ++
        [⟨st.plan.length + (blockTiles k a - 1), blockScale ops weights k a, quants.scales a⟩]⟩

variable {ops weights quants k}

theorem blockTiles_pos {a : Nat} (h : a < blockCount k) : 1 ≤ blockTiles k a := by
  simp only [blockTiles, blockCount, blockEnd, kActBlock, tileCols] at *
  omega

theorem blockTiles_le (a : Nat) : blockTiles k a ≤ 16 := by
  simp only [blockTiles, blockEnd, kActBlock, tileCols]
  omega

@[simp] theorem length_blockOps (a : Nat) :
    (blockOps ops weights quants k a).length = blockTiles k a := by
  rw [blockOps, List.length_map, List.length_range]

variable (ops weights quants k) in
/-- The blocks of a group of weights. -/
theorem addSubBlock_eq (st : CellPlan F) (a : Nat) :
    addSubBlock ops weights quants (blockScale ops weights k a)
      (min (a / 4 * kWeightGroup + kWeightGroup) k) st
        (a * kActBlock) =
      if ops.isZero (quants.scales a) then st
      else
        ⟨st.plan ++ blockOps ops weights quants k a,
          st.subBlocks ++ [⟨st.plan.length + (blockTiles k a - 1), blockScale ops weights k a,
            quants.scales a⟩]⟩ := by
  have hend : min (a * kActBlock + kActBlock) (min (a / 4 * kWeightGroup + kWeightGroup) k) =
      blockEnd k a := by
    simp only [blockEnd, kActBlock, kWeightGroup]
    omega
  have hblock : a * kActBlock / kActBlock = a := Nat.mul_div_cancel a (by decide)
  have happend : ∀ (f : Nat → PlanOp) (plan : Plan) (n : Nat),
      (List.range n).foldl (fun plan t => plan ++ [f t]) plan = plan ++ (List.range n).map f := by
    intro f plan n
    rw [List.foldl_append_eq_append, ← List.flatMap_def, ← List.map_eq_flatMap]
  simp only [addSubBlock, hend, hblock, happend]
  rfl

/-- The number of blocks of group `g`. -/
def groupBlocks (k g : Nat) : Nat :=
  (min (g * kWeightGroup + kWeightGroup) k - g * kWeightGroup + kActBlock - 1) / kActBlock

theorem addWeightGroup_eq (st : CellPlan F) (g : Nat) :
    addWeightGroup ops weights quants k st (g * kWeightGroup) =
      ((List.range (groupBlocks k g)).map (4 * g + ·)).foldl
        (addBlock ops weights quants k) st := by
  have hgroup : ∀ j < groupBlocks k g, (4 * g + j) / 4 = g := by
    intro j hj
    simp only [groupBlocks, kWeightGroup, kActBlock] at hj
    omega
  have hstart : ∀ j, g * kWeightGroup + j * kActBlock = (4 * g + j) * kActBlock := by
    intro j
    simp only [kWeightGroup, kActBlock]
    omega
  have hscales : ∀ j < groupBlocks k g, (fun row => groupScale ops weights row (g * kWeightGroup)
      (min (g * kWeightGroup + kWeightGroup) k)) = blockScale ops weights k (4 * g + j) := by
    intro j hj
    funext row
    rw [blockScale, hgroup j hj]
  rw [addWeightGroup, List.foldl_map]
  split_ifs with hzero
  · -- Every block of a group with scale zero is skipped.
    rw [Bool.and_eq_true] at hzero
    refine Eq.trans (List.foldl_fixed _).symm (List.foldl_ext _ _ _ fun st' j hj => ?_)
    have hj' := List.mem_range.mp hj
    have hskip : Skipped ops weights quants k (4 * g + j) :=
      .inr (by simpa only [blockScale, hgroup j hj'] using hzero)
    rw [addBlock, if_pos hskip]
  · refine List.foldl_ext _ _ _ fun st' j hj => ?_
    have hj' := List.mem_range.mp hj
    have hsub := addSubBlock_eq ops weights quants k st' (4 * g + j)
    rw [hgroup j hj'] at hsub
    have hiff : Skipped ops weights quants k (4 * g + j) ↔
        ops.isZero (quants.scales (4 * g + j)) = true := by
      simp only [Skipped, blockScale, hgroup j hj']
      rw [Bool.and_eq_true] at hzero
      exact or_iff_left hzero
    rw [hscales j hj', hstart, hsub, addBlock]
    simp only [hiff]

/-- The groups list all blocks in order. -/
theorem range_blocks (k : Nat) :
    (List.range ((k + kWeightGroup - 1) / kWeightGroup)).flatMap
      (fun g => (List.range (groupBlocks k g)).map (4 * g + ·)) =
      List.range (blockCount k) := by
  have hwhole : ∀ n, n * kWeightGroup ≤ k →
      (List.range n).flatMap (fun g => (List.range (groupBlocks k g)).map (4 * g + ·)) =
        List.range (4 * n) := by
    intro n
    induction n with
    | zero => intro _; rfl
    | succ n ih =>
      intro hn
      have hfour : groupBlocks k n = 4 := by
        simp only [groupBlocks, kWeightGroup, kActBlock] at *
        omega
      rw [List.range_succ, List.flatMap_append, ih (by rw [Nat.succ_mul] at hn; omega),
        List.flatMap_singleton, hfour, Nat.mul_succ, List.range_add]
  rcases Nat.eq_zero_or_pos k with rfl | hk
  · rfl
  · -- The last group may have fewer than four blocks.
    obtain ⟨n, hn⟩ : ∃ n, (k + kWeightGroup - 1) / kWeightGroup = n + 1 :=
      ⟨(k - 1) / kWeightGroup, by simp only [kWeightGroup]; omega⟩
    have hle : n * kWeightGroup ≤ k := by
      simp only [kWeightGroup] at *
      omega
    have hlast : 4 * n + groupBlocks k n = blockCount k := by
      simp only [groupBlocks, blockCount, kWeightGroup, kActBlock] at *
      omega
    rw [hn, List.range_succ, List.flatMap_append, hwhole n hle, List.flatMap_singleton,
      ← List.range_add, hlast]

variable (ops weights quants k) in
theorem foldl_addBlock (st : CellPlan F) (l : List Nat) :
    l.foldl (addBlock ops weights quants k) st =
      ⟨st.plan ++ (l.filter fun a => ¬ Skipped ops weights quants k a).flatMap
        (blockOps ops weights quants k),
        st.subBlocks ++ blockMetas ops weights quants k st.plan.length
          (l.filter fun a => ¬ Skipped ops weights quants k a)⟩ := by
  induction l generalizing st with
  | nil => simp [blockMetas]
  | cons a l ih =>
    rw [List.foldl_cons, ih, addBlock]
    by_cases hskip : Skipped ops weights quants k a
    · rw [if_pos hskip, List.filter_cons_of_neg (by simpa using hskip)]
    · rw [if_neg hskip, List.filter_cons_of_pos (by simpa using hskip),
        List.flatMap_cons, blockMetas]
      simp only [List.append_assoc, List.length_append, length_blockOps, List.singleton_append]

/-- The plan is the concatenation of the runs of the blocks that are not skipped. -/
theorem cellPlan_eq : cellPlan ops weights quants k =
    ⟨(keptBlocks ops weights quants k).flatMap (blockOps ops weights quants k),
      blockMetas ops weights quants k 0 (keptBlocks ops weights quants k)⟩ := by
  have hloop := foldl_addBlock ops weights quants k ⟨[], []⟩
    (List.range (blockCount k))
  rw [← range_blocks, List.foldl_flatMap] at hloop
  simp only [← addWeightGroup_eq, range_blocks] at hloop
  exact hloop

end Blocks

/-! ## Runs -/

/-- The plan so far does not matter for a run that starts after it. -/
theorem currentRun_run (plan : Plan) {op : PlanOp} {rest : Plan} (hop : op.startsRun = true)
    (hrest : ∀ op' ∈ rest, op'.startsRun = false) :
    currentRun (plan ++ op :: rest) = op :: rest := by
  induction rest using List.reverseRecOn with
  | nil => rw [currentRun_append, if_pos hop]
  | append_singleton rest last ih =>
    have hlast : last.startsRun = false := hrest last (by simp)
    rw [← List.cons_append, ← List.append_assoc, currentRun_append, hlast,
      ih fun op' hop' => hrest op' (List.mem_append_left _ hop')]
    rfl

theorem abs_dot_le (op : PlanOp) (r : Fin tileRows) : |op.dot r| ≤ 256 := by
  have hact : ∀ lane : Fin tileCols, |if (op.matmulTile.packedWeights r).getLsbD lane then
      (op.matmulTile.acts lane).toInt
      else -(op.matmulTile.acts lane).toInt| ≤ 128 := by
    intro lane
    have hle := BitVec.toInt_le (x := op.matmulTile.acts lane)
    have hge := BitVec.le_toInt (op.matmulTile.acts lane)
    rw [abs_le]
    split_ifs <;> constructor <;> omega
  calc |op.dot r| ≤ ∑ lane : Fin tileCols, |_| := Finset.abs_sum_le_sum_abs _ _
    _ ≤ ∑ _lane : Fin tileCols, 128 := Finset.sum_le_sum fun lane _ => hact lane
    _ = 256 := rfl

/-- A run with zero seeds of up to 16 tiles stays inside 13 bits. -/
theorem abs_runPsum_le {run : Plan} (hseeds : ∀ op ∈ run, ∀ r, op.matmulTile.seeds r = 0)
    (hlen : run.length ≤ 16) (r : Fin tileRows) : |runPsum run r| ≤ 4096 := by
  have hseed : (run.head?.elim 0 fun first => (first.matmulTile.seeds r).toInt) = 0 := by
    cases run with
    | nil => rfl
    | cons first rest =>
      have hzero := hseeds first (List.mem_cons_self ..) r
      simp [hzero]
  have hsum : ∀ l : Plan, |(l.map (·.dot r)).sum| ≤ 256 * l.length := by
    intro l
    induction l with
    | nil => simp
    | cons op l ih =>
      rw [List.map_cons, List.sum_cons, List.length_cons]
      have htri := abs_add_le (op.dot r) (l.map (·.dot r)).sum
      have hdot := abs_dot_le op r
      push_cast
      omega
  have hrun := hsum run
  rw [runPsum, hseed, zero_add]
  omega

theorem toInt16_of_abs_le {x : Int} (h : |x| ≤ 4096) : toInt16 x = x := by
  have hbounds := abs_le.mp h
  rw [toInt16, BitVec.toInt_ofInt]
  exact Int.bmod_eq_of_le (by omega) (by omega)

section Sums

variable {F : Type} {ops : FloatOps F} {weights : Fin tileRows → Option (Nat → F)}
    {quants : ActQuants F} {k : Nat}

/-- An activation with the sign of its weight. -/
def signedQuant (ops : FloatOps F) (w : Nat → F) (quants : ActQuants F) (i : Nat) : Int :=
  if ops.nonneg (w i) then (quants.q i).toInt else -(quants.q i).toInt

/-- The sum of the signed activations of block `a`. -/
def blockSum (ops : FloatOps F) (w : Nat → F) (quants : ActQuants F) (k a : Nat) : Int :=
  ∑ i ∈ Finset.Ico (a * kActBlock) (blockEnd k a), signedQuant ops w quants i

variable (ops) in
theorem packedWeights_bit {row : Fin tileRows} {w : Nat → F} (hw : weights row = some w)
    (k0 q8End : Nat) (lane : Fin tileCols)
    (h : k0 + lane < q8End) :
    (packedWeights ops weights k0 q8End row).getLsbD lane = ops.nonneg (w (k0 + lane)) := by
  have hrange : List.range tileCols = [0, 1] := rfl
  rw [packedWeights, hw, hrange]
  simp only [List.foldl_cons, List.foldl_nil]
  fin_cases lane
  · have h0 : k0 + 0 < q8End := h
    rw [if_pos h0]
    split_ifs <;> simp_all
  · have h1 : k0 + 1 < q8End := h
    have h0 : k0 + 0 < q8End := by omega
    rw [if_pos h1, if_pos h0]
    split_ifs <;> simp_all

variable (ops quants) in
/-- A tile adds the signed activations of its lanes that are in the block. -/
theorem dot_tileOp {row : Fin tileRows} {w : Nat → F} (hw : weights row = some w)
    (q8Start q8End nTiles t : Nat) :
    (tileOp ops weights quants q8Start q8End nTiles t).dot row =
      ∑ lane ∈ Finset.range 2,
        if q8Start + (2 * t + lane) < q8End then
          signedQuant ops w quants (q8Start + (2 * t + lane)) else 0 := by
  have hlane : ∀ lane : Fin tileCols, q8Start + t * tileCols + lane = q8Start + (2 * t + lane) := by
    intro lane
    simp only [tileCols]
    omega
  rw [PlanOp.dot, ← Fin.sum_univ_eq_sum_range fun lane =>
    if q8Start + (2 * t + lane) < q8End then
      signedQuant ops w quants (q8Start + (2 * t + lane)) else 0]
  refine Finset.sum_congr rfl fun lane _ => ?_
  by_cases hin : q8Start + (2 * t + lane) < q8End
  · have hbit := packedWeights_bit ops hw (q8Start + t * tileCols) q8End lane (by rwa [hlane])
    simp only [tileOp, hbit, hlane, if_pos hin, signedQuant]
  · simp only [tileOp, hlane, if_neg hin]
    split_ifs <;> rfl

/-- The first tiles of a run add up the signed activations they cover. -/
theorem runPsum_tiles {row : Fin tileRows} {w : Nat → F} (hw : weights row = some w)
    (q8Start q8End nTiles n : Nat) :
    runPsum ((List.range n).map (tileOp ops weights quants q8Start q8End nTiles)) row =
      ∑ i ∈ Finset.range (2 * n), if q8Start + i < q8End then
        signedQuant ops w quants (q8Start + i) else 0 := by
  induction n with
  | zero => rfl
  | succ n ih =>
    have hlast := dot_tileOp ops quants hw q8Start q8End nTiles n
    rw [List.range_succ, List.map_append, List.map_singleton, Nat.mul_succ,
      Finset.sum_range_add, ← ih, ← hlast]
    cases n with
    | zero => simp [runPsum, tileOp]
    | succ n => exact runPsum_append (by simp) _ row

/-- A whole run adds up to the sum of its block. -/
theorem runPsum_blockOps {row : Fin tileRows} {w : Nat → F} (hw : weights row = some w) (a : Nat) :
    runPsum (blockOps ops weights quants k a) row = blockSum ops w quants k a := by
  have hcover : blockEnd k a - a * kActBlock ≤ 2 * blockTiles k a := by
    simp only [blockTiles, tileCols]
    omega
  rw [blockOps, runPsum_tiles hw, blockSum, Finset.sum_Ico_eq_sum_range]
  symm
  refine Finset.sum_subset_zero_on_sdiff (Finset.range_mono hcover) (fun i hi => ?_) fun i hi => ?_
  · rw [Finset.mem_sdiff, Finset.mem_range, Finset.mem_range] at hi
    exact if_neg (by omega)
  · rw [Finset.mem_range] at hi
    exact (if_pos (by omega)).symm

end Sums

/-! ## The transport -/

/-- What `plan.h` says of a transport, in the states `live`: a plan that starts with a run is
    executed, and the sums read at the tail of a run are the seeds and contributions of the run,
    in 16 bits. -/
def Transport.Obeys {σ : Type} (tr : Transport σ) (live : σ → Prop) : Prop :=
  ∀ s plan, live s → plan ≠ [] → (∀ op ∈ plan.head?, op.startsRun = true) →
    ∃ s' psums, tr.execute s plan = (s', some psums) ∧ live s' ∧
      ∀ i op, plan[i]? = some op → op.endsRun = true → ∀ row : Fin tileRows,
        psums.getD (i * tileRows + row) 0 = toInt16 (runPsum (currentRun (plan.take (i + 1))) row)

/-- The same for the plans of a kind. -/
def Transport.ObeysOn {σ : Type} (tr : Transport σ) (live : σ → Prop)
    (plans : Plan → Prop) : Prop :=
  ∀ s plan, live s → plan ≠ [] → plans plan → (∀ op ∈ plan.head?, op.startsRun = true) →
    ∃ s' psums, tr.execute s plan = (s', some psums) ∧ live s' ∧
      ∀ i op, plan[i]? = some op → op.endsRun = true → ∀ row : Fin tileRows,
        psums.getD (i * tileRows + row) 0 = toInt16 (runPsum (currentRun (plan.take (i + 1))) row)

theorem Transport.Obeys.on {σ : Type} {tr : Transport σ} {live : σ → Prop} (h : tr.Obeys live)
    (plans : Plan → Prop) :
    tr.ObeysOn live plans := fun s plan hs hne _ => h s plan hs hne

section Cells

variable {F : Type} {ops : FloatOps F} {weights : Fin tileRows → Option (Nat → F)}
    {quants : ActQuants F} {k : Nat}

variable (ops weights quants) in
/-- Tile `t` of block `a` in a plan of blocks. -/
theorem getElem?_blocks (pre : List Nat) {a : Nat} (post : List Nat) {t : Nat}
    (ht : t < blockTiles k a) :
    ((pre ++ a :: post).flatMap
      (blockOps ops weights quants k))[(pre.flatMap (blockOps ops weights quants k)).length + t]? =
      some (tileOp ops weights quants (a * kActBlock) (blockEnd k a) (blockTiles k a) t) := by
  rw [List.flatMap_append, List.getElem?_append_right (Nat.le_add_right _ _),
    Nat.add_sub_cancel_left, List.flatMap_cons,
    List.getElem?_append_left (by rwa [length_blockOps]), blockOps, List.getElem?_map,
    List.getElem?_range ht, Option.map_some]

/-- The run of a tile is what the plan holds of its block. -/
theorem currentRun_blocks (pre : List Nat) {a : Nat} (post : List Nat) {t : Nat}
    (ht : t < blockTiles k a) :
    currentRun (((pre ++ a :: post).flatMap (blockOps ops weights quants k)).take
        ((pre.flatMap (blockOps ops weights quants k)).length + t + 1)) =
      (List.range (t + 1)).map
        (tileOp ops weights quants (a * kActBlock) (blockEnd k a) (blockTiles k a)) := by
  have htake : (blockOps ops weights quants k a).take (t + 1) =
      (List.range (t + 1)).map
        (tileOp ops weights quants (a * kActBlock) (blockEnd k a) (blockTiles k a)) := by
    rw [blockOps, ← List.map_take, List.take_range, Nat.min_eq_left ht]
  rw [List.flatMap_append, Nat.add_assoc, List.take_length_add_append, List.flatMap_cons,
    List.take_append_of_le_length (by rw [length_blockOps]; exact ht), htake,
    List.range_succ_eq_map, List.map_cons]
  refine currentRun_run _ rfl fun op hop => ?_
  obtain ⟨j, hj, rfl⟩ := List.mem_map.mp hop
  obtain ⟨i, -, rfl⟩ := List.mem_map.mp hj
  rfl

/-- Every position of a plan of blocks is a tile of one of them. -/
theorem exists_block_of_lt {kept : List Nat} {i : Nat}
    (h : i < (kept.flatMap (blockOps ops weights quants k)).length) :
    ∃ pre a post t, kept = pre ++ a :: post ∧ t < blockTiles k a ∧
      i = (pre.flatMap (blockOps ops weights quants k)).length + t := by
  induction kept generalizing i with
  | nil => simp at h
  | cons a kept ih =>
    rw [List.flatMap_cons, List.length_append, length_blockOps] at h
    by_cases hfirst : i < blockTiles k a
    · exact ⟨[], a, kept, i, rfl, hfirst, by simp⟩
    · obtain ⟨pre, b, post, t, rfl, ht, hi⟩ := ih (i := i - blockTiles k a) (by omega)
      refine ⟨a :: pre, b, post, t, rfl, ht, ?_⟩
      rw [List.flatMap_cons, List.length_append, length_blockOps]
      omega

/-- No partial sum of a plan of blocks comes near the bounds of 16 bits. -/
theorem abs_runPsum_blocks_le {kept : List Nat} {i : Nat}
    (h : i < (kept.flatMap (blockOps ops weights quants k)).length)
    (row : Fin tileRows) :
    |runPsum (currentRun ((kept.flatMap (blockOps ops weights quants k)).take (i + 1)))
      row| ≤ 4096 := by
  obtain ⟨pre, a, post, t, rfl, ht, rfl⟩ := exists_block_of_lt h
  have hle := blockTiles_le (k := k) a
  rw [currentRun_blocks pre post ht]
  refine abs_runPsum_le (fun op hop r => ?_) (by simp; omega) row
  obtain ⟨j, -, rfl⟩ := List.mem_map.mp hop
  rfl

/-- The sum that the transport reads at the tail of a block's run. -/
theorem tail_psum {psums : List Int} {kept pre post : List Nat} {a : Nat}
    (hkept : kept = pre ++ a :: post) (htiles : 1 ≤ blockTiles k a)
    (hpsums : ∀ i op, (kept.flatMap (blockOps ops weights quants k))[i]? = some op →
      op.endsRun = true →
      ∀ row : Fin tileRows, psums.getD (i * tileRows + row) 0 =
        toInt16
    (runPsum (currentRun ((kept.flatMap (blockOps ops weights quants k)).take (i + 1))) row))
    {row : Fin tileRows} {w : Nat → F} (hw : weights row = some w) :
    psums.getD (((pre.flatMap (blockOps ops weights quants k)).length + (blockTiles k a - 1)) *
      tileRows + row) 0 =
      blockSum ops w quants k a := by
  subst hkept
  have ht : blockTiles k a - 1 < blockTiles k a := by omega
  have hop := getElem?_blocks ops weights quants pre post ht
  have hends :
      (tileOp ops weights quants (a * kActBlock) (blockEnd k a) (blockTiles k a)
        (blockTiles k a - 1)).endsRun =
      true := beq_self_eq_true _
  have hlt := (List.getElem?_eq_some_iff.mp hop).1
  rw [hpsums _ _ hop hends row, toInt16_of_abs_le (abs_runPsum_blocks_le hlt row),
    currentRun_blocks pre post ht, Nat.sub_add_cancel htiles]
  exact runPsum_blockOps hw a

/-- The scaled sums of some blocks, added up in order. -/
def foldBlocks (ops : FloatOps F) (weights : Fin tileRows → Option (Nat → F))
    (quants : ActQuants F) (k : Nat)
    (row : Fin tileRows) (w : Nat → F) (acc : F) (blocks : List Nat) : F :=
  blocks.foldl (fun acc a => ops.add acc
    (ops.mul (ops.mul (blockScale ops weights k a row) (quants.scales a))
      (ops.ofInt (blockSum ops w quants k a)))) acc

/-- Folding the sums at the tails of the runs adds up the scaled sums of the blocks. -/
theorem foldl_blockMetas {psums : List Int} {row : Fin tileRows} {w : Nat → F}
    (hw : weights row = some w) {blocks : List Nat}
    {base : Nat} (hpsums : ∀ pre a post, blocks = pre ++ a :: post →
      psums.getD
    ((base + (pre.flatMap (blockOps ops weights quants k)).length + (blockTiles k a - 1)) *
      tileRows + row) 0 =
        blockSum ops w quants k a) (acc : Fin tileRows → F) :
    (blockMetas ops weights quants k base blocks).foldl (fun acc sb row =>
        if (weights row).isSome then
          ops.add (acc row)
            (ops.mul (ops.mul (sb.dW row) sb.dA)
              (ops.ofInt (psums.getD (sb.tailOpIndex * tileRows + row) 0)))
        else acc row) acc row =
      foldBlocks ops weights quants k row w (acc row) blocks := by
  induction blocks generalizing base acc with
  | nil => rfl
  | cons a blocks ih =>
    have hfirst := hpsums [] a blocks rfl
    have hrest : ∀ pre b post, blocks = pre ++ b :: post → psums.getD ((base + blockTiles k a +
        (pre.flatMap (blockOps ops weights quants k)).length +
          (blockTiles k b - 1)) * tileRows + row) 0 =
          blockSum ops w quants k b := by
      intro pre b post hblocks
      have hnext := hpsums (a :: pre) b post (by rw [hblocks, List.cons_append])
      rwa [List.flatMap_cons, List.length_append, length_blockOps, ← Nat.add_assoc] at hnext
    rw [List.flatMap_nil, List.length_nil, Nat.add_zero] at hfirst
    rw [blockMetas, List.foldl_cons, ih hrest, foldBlocks, foldBlocks, List.foldl_cons]
    simp only [hw, Option.isSome_some, if_true, hfirst]

theorem mem_keptBlocks {a : Nat} :
    a ∈ keptBlocks ops weights quants k ↔ a < blockCount k ∧ ¬ Skipped ops weights quants k a := by
  simp [keptBlocks]

theorem cellPlan_plan_eq_nil (h : (cellPlan ops weights quants k).plan = []) :
    keptBlocks ops weights quants k = [] := by
  rw [cellPlan_eq] at h
  cases hkept : keptBlocks ops weights quants k with
  | nil => rfl
  | cons a rest =>
    have htiles := blockTiles_pos (k := k) (mem_keptBlocks.mp (hkept ▸ List.mem_cons_self ..)).1
    have hlen := congrArg List.length h
    rw [hkept, List.flatMap_cons, List.length_append, length_blockOps, List.length_nil] at hlen
    omega

theorem cellPlan_head : ∀ op ∈ (cellPlan ops weights quants k).plan.head?, op.startsRun = true := by
  rw [cellPlan_eq]
  cases hkept : keptBlocks ops weights quants k with
  | nil => simp
  | cons a rest =>
    have htiles := blockTiles_pos (k := k) (mem_keptBlocks.mp (hkept ▸ List.mem_cons_self ..)).1
    have hop := getElem?_blocks ops weights quants [] rest (show 0 < blockTiles k a by omega)
    intro op hmem
    rw [List.head?_eq_getElem?] at hmem
    obtain rfl : _ = op := Option.some.inj (hop.symm.trans hmem)
    rfl

/-- The value of a row, when the transport executes the plan. -/
theorem foldPsums_eq {psums : List Int} {row : Fin tileRows} {w : Nat → F}
    (hw : weights row = some w)
    (hpsums : ∀ i op, (cellPlan ops weights quants k).plan[i]? = some op → op.endsRun = true →
      ∀ row : Fin tileRows, psums.getD (i * tileRows + row) 0 =
        toInt16 (runPsum (currentRun ((cellPlan ops weights quants k).plan.take (i + 1))) row)) :
    foldPsums ops weights psums (cellPlan ops weights quants k).subBlocks row =
      foldBlocks ops weights quants k row w ops.zero (keptBlocks ops weights quants k) := by
  rw [cellPlan_eq] at hpsums ⊢
  refine foldl_blockMetas hw (fun pre a post hkept => ?_) _
  have hmem : a ∈ keptBlocks ops weights quants k := by simp [hkept]
  rw [Nat.zero_add]
  exact tail_psum hkept (blockTiles_pos (mem_keptBlocks.mp hmem).1) hpsums hw

end Cells

end Bonsai
