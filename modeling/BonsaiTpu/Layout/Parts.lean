-- SUMMARY: Parts of packed weights: the rows from a rowblock on, a prefix of rowblocks, and where one byte of the source goes.
import BonsaiTpu.Layout.Readers
import Mathlib.Tactic.Ring

/-!
# Parts of packed weights

Packed weights can be cut between rowblocks: what follows is the packing of the rows
from there on (`packed_drop`), and the readers do not look past the rowblock of a row
(`Read.take`). `packed_spike` locates one byte of the source.
-/

namespace Layout

open Words Q1a8

/-! ## Rowblocks -/

/-- The words of the stream from word `w` on. -/
theorem drop_bytesOf (word : Nat → BitVec 64) {n w : Nat} (hw : w ≤ n) :
    (bytesOf word n).drop (8 * w) = bytesOf (fun i => word (w + i)) (n - w) := by
  refine List.ext_getElem? fun i => ?_
  rw [List.getElem?_drop]
  rcases Nat.lt_or_ge i (8 * (n - w)) with hi | hi
  · have hdiv : (8 * w + i) / 8 = w + i / 8 := by omega
    have hmod : (8 * w + i) % 8 = i % 8 := by omega
    rw [getElem?_bytesOf _ (by omega), getElem?_bytesOf _ hi, hdiv, hmod]
  · rw [List.getElem?_eq_none (by rw [length_bytesOf]; omega),
      List.getElem?_eq_none (by rw [length_bytesOf]; omega)]

section

variable {rows bpr a : Nat} {src : List Byte}

theorem rowScale_drop (r q : Nat) :
    rowScale (src.drop (blockOff bpr (ROWS_PER_BLOCK * a) 0)) bpr r q =
      rowScale src bpr (ROWS_PER_BLOCK * a + r) q := by
  have hoff : blockOff bpr (ROWS_PER_BLOCK * a) 0 + blockOff bpr r q =
      blockOff bpr (ROWS_PER_BLOCK * a + r) q := by
    simp only [blockOff]
    ring
  simp only [rowScale, readLeU16, List.getElem?_drop, ← hoff, Nat.add_assoc]

theorem rowBits_drop (r q s : Nat) :
    rowBits (src.drop (blockOff bpr (ROWS_PER_BLOCK * a) 0)) bpr r q s =
      rowBits src bpr (ROWS_PER_BLOCK * a + r) q s := by
  have hoff : blockOff bpr (ROWS_PER_BLOCK * a) 0 + blockOff bpr r q =
      blockOff bpr (ROWS_PER_BLOCK * a + r) q := by
    simp only [blockOff]
    ring
  simp only [rowBits, readLeU32, List.getElem?_drop, ← hoff, Nat.add_assoc]

/-- A lane of the rows from a rowblock on. -/
theorem lane_drop (h : ROWS_PER_BLOCK * a ≤ rows) (rb q s lane : Nat) :
    laneScale src rows bpr (a + rb) q lane =
        laneScale (src.drop (blockOff bpr (ROWS_PER_BLOCK * a) 0))
          (rows - ROWS_PER_BLOCK * a) bpr rb q lane ∧
      laneBits src rows bpr (a + rb) q s lane =
        laneBits (src.drop (blockOff bpr (ROWS_PER_BLOCK * a) 0)) (rows - ROWS_PER_BLOCK * a) bpr
          rb q s lane := by
  have hrow : (a + rb) * ROWS_PER_BLOCK + lane =
      ROWS_PER_BLOCK * a + (rb * ROWS_PER_BLOCK + lane) := by ring
  have hiff : (a + rb) * ROWS_PER_BLOCK + lane < rows ↔
      rb * ROWS_PER_BLOCK + lane < rows - ROWS_PER_BLOCK * a := by
    rw [hrow]
    omega
  simp only [laneScale, laneBits, rowScale_drop, rowBits_drop, ← hrow, hiff, and_self]

theorem blockWord_drop (h : ROWS_PER_BLOCK * a ≤ rows) (rb q t : Nat) :
    blockWord src rows bpr (a + rb) q t =
      blockWord (src.drop (blockOff bpr (ROWS_PER_BLOCK * a) 0)) (rows - ROWS_PER_BLOCK * a)
        bpr rb q t := by
  unfold blockWord
  split
  · exact congrArg pack16 (funext fun l => (lane_drop h rb q 0 _).1)
  · exact congrArg pack32 (funext fun l => (lane_drop h rb q _ _).2)

/-- The packed weights from a rowblock on are those of the rows from there on. -/
theorem packed_drop (h : ROWS_PER_BLOCK * a ≤ rows) (hbpr : 0 < bpr) :
    (packed src rows bpr).drop (a * (bpr * PACKED_PER_Q1_BLOCK)) =
      packed (src.drop (blockOff bpr (ROWS_PER_BLOCK * a) 0)) (rows - ROWS_PER_BLOCK * a) bpr := by
  have hstart : a * (bpr * PACKED_PER_Q1_BLOCK) = 8 * (18 * (a * bpr)) := by
    rw [← Nat.mul_assoc, Nat.mul_comm]
    exact Nat.mul_assoc 8 18 _
  have hblocks : rowblocksFor (rows - ROWS_PER_BLOCK * a) = rowblocksFor rows - a := by
    simp only [rowblocksFor, ROWS_PER_BLOCK] at h ⊢
    omega
  have ha : a ≤ rowblocksFor rows := by
    simp only [rowblocksFor, ROWS_PER_BLOCK] at h ⊢
    omega
  have hbeats : packedBeats (rows - ROWS_PER_BLOCK * a) bpr =
      packedBeats rows bpr - 18 * (a * bpr) := by
    rw [packedBeats, packedBeats, hblocks, Nat.sub_mul, Nat.mul_sub]
  have hle : 18 * (a * bpr) ≤ packedBeats rows bpr :=
    Nat.mul_le_mul_left 18 (Nat.mul_le_mul_right bpr ha)
  have hword : (fun i => packedWord src rows bpr (18 * (a * bpr) + i)) =
      packedWord (src.drop (blockOff bpr (ROWS_PER_BLOCK * a) 0))
        (rows - ROWS_PER_BLOCK * a) bpr := by
    funext i
    have hdiv : (18 * (a * bpr) + i) / 18 = a * bpr + i / 18 := by omega
    have hmod : (18 * (a * bpr) + i) % 18 = i % 18 := by omega
    have hrb : (a * bpr + i / 18) / bpr = a + i / 18 / bpr := by
      rw [Nat.add_comm, Nat.add_mul_div_right _ _ hbpr, Nat.add_comm]
    have hq : (a * bpr + i / 18) % bpr = i / 18 % bpr := by
      rw [Nat.add_comm, Nat.add_mul_mod_self_right]
    simp only [packedWord, hdiv, hmod, hrb, hq, blockWord_drop h]
  rw [hstart, packed, drop_bytesOf _ hle, hword, packed, hbeats]

end

section

variable {weights : List Byte} {n : Nat}

theorem readLeU16_take {off : Nat} (h : off + 2 ≤ n) :
    readLeU16 (weights.take n) off = readLeU16 weights off := by
  have hwin : Window (weights.take n) weights 0 n := Window.of_take (by simp)
  rw [hwin.readLeU16 h, Nat.zero_add]

theorem readLeU32_take {off : Nat} (h : off + 4 ≤ n) :
    readLeU32 (weights.take n) off = readLeU32 weights off := by
  have hwin : Window (weights.take n) weights 0 n := Window.of_take (by simp)
  rw [hwin.readLeU32 h, Nat.zero_add]

/-- A rowblock that is kept is streamed the same. -/
theorem Beats.of_take {bpr rb : Nat} {beats : Nat → BitVec 64}
    (h : Beats (weights.take n) bpr rb beats)
    (hn : (rb + 1) * (bpr * PACKED_PER_Q1_BLOCK) ≤ n) : Beats weights bpr rb beats := by
  intro c hc
  have hend : rb * (bpr * PACKED_PER_Q1_BLOCK) + 8 * c + 8 ≤ n := by
    have hbytes : bpr * PACKED_PER_Q1_BLOCK = 8 * (18 * bpr) := by
      rw [Nat.mul_comm]
      exact Nat.mul_assoc 8 18 bpr
    rw [Nat.succ_mul] at hn
    omega
  rw [h c hc, List.drop_take, List.take_take, Nat.min_eq_left (by omega)]

end

/-- The readers do not look past the rowblock of a row. -/
theorem Read.take {sizeBits rows k : Nat} (h : Sized sizeBits rows k) {weights : List Byte}
    {r q s n : Nat} {scale : BitVec 16}
    {bits : BitVec 32} (hread : Read sizeBits weights (k / Q1_BLOCK) r q s scale bits)
    (hr : r / ROWS_PER_BLOCK < rowblocksFor rows)
    (hn : r / ROWS_PER_BLOCK < n) (hq : q < k / Q1_BLOCK) (hs : s < 4) :
    Read sizeBits (weights.take (n * (k / Q1_BLOCK * PACKED_PER_Q1_BLOCK))) (k / Q1_BLOCK) r q s
      scale bits := by
  have hlane : r % ROWS_PER_BLOCK < 8 := Nat.mod_lt _ (by decide)
  -- the rowblock read ends before the cut
  have hrowblock : (r / ROWS_PER_BLOCK + 1) * (k / Q1_BLOCK * PACKED_PER_Q1_BLOCK) ≤
      n * (k / Q1_BLOCK * PACKED_PER_Q1_BLOCK) :=
    Nat.mul_le_mul_right _ hn
  have hend : Ps.block sizeBits (k / Q1_BLOCK) (r / ROWS_PER_BLOCK) q + 144 ≤
      n * (k / Q1_BLOCK * PACKED_PER_Q1_BLOCK) := by
    have hblock : q * PACKED_PER_Q1_BLOCK + 144 ≤ k / Q1_BLOCK * PACKED_PER_Q1_BLOCK := by
      have hle := Nat.mul_le_mul_right PACKED_PER_Q1_BLOCK hq
      rw [Nat.succ_mul] at hle
      exact hle
    have haddr : 8 * (18 * (r / ROWS_PER_BLOCK * (k / Q1_BLOCK) + q)) =
        r / ROWS_PER_BLOCK * (k / Q1_BLOCK * PACKED_PER_Q1_BLOCK) + q * PACKED_PER_Q1_BLOCK := by
      have hbytes : PACKED_PER_Q1_BLOCK = 8 * 18 := rfl
      rw [hbytes]
      ring
    rw [Nat.succ_mul] at hrowblock
    rw [Ps.block_eq h hr hq, haddr]
    omega
  have hscales : SCALES_BYTES = 16 := rfl
  have hsub := Ps.sizeT_subOffset h hs
  have hsmall : ∀ x ≤ 144, sizeT sizeBits x = x := fun x hx => Ps.sizeT_small h hx
  refine ⟨?_, ?_, ?_, ?_, fun kernel inp beats hbeats =>
    hread.latches kernel inp beats (hbeats.of_take hrowblock)⟩
  · rw [← hread.matmulScale]
    exact readLeU16_take (by omega)
  · rw [← hread.matmulWbits]
    refine readLeU32_take ?_
    rw [hsub, hscales, hsmall _ (by omega)]
    omega
  · rw [← hread.getRowsScale]
    refine readLeU16_take ?_
    rw [hsmall _ (by omega), hsmall _ (by omega)]
    omega
  · rw [← hread.getRowsBits]
    refine readLeU32_take ?_
    rw [hsub, hscales, hsmall _ (by omega), hsmall _ (by omega)]
    omega

/-- `bonsai_get_rows_q1_0` gets the same for a row from its rowblock alone. -/
theorem getRows_rowblock {sizeBits rows k : Nat} (h : Sized sizeBits rows k)
    (weights : List Byte) {r q s : Nat}
    (hr : r / ROWS_PER_BLOCK < rowblocksFor rows) (hq : q < k / Q1_BLOCK) (hs : s < 4) :
    let rowblock := (weights.drop (r / ROWS_PER_BLOCK * (k / Q1_BLOCK * PACKED_PER_Q1_BLOCK))).take
      (k / Q1_BLOCK * PACKED_PER_Q1_BLOCK)
    Ps.getRowsScale sizeBits rowblock (k / Q1_BLOCK) (r % ROWS_PER_BLOCK) q =
      Ps.getRowsScale sizeBits weights (k / Q1_BLOCK) r q ∧
      Ps.getRowsBits sizeBits rowblock (k / Q1_BLOCK) (r % ROWS_PER_BLOCK) q s =
        Ps.getRowsBits sizeBits weights (k / Q1_BLOCK) r q s := by
  intro rowblock
  have hlane : r % ROWS_PER_BLOCK < 8 := Nat.mod_lt _ (by decide)
  have hlane' : r % ROWS_PER_BLOCK % ROWS_PER_BLOCK = r % ROWS_PER_BLOCK := Nat.mod_mod _ _
  have hfirst : r % ROWS_PER_BLOCK / ROWS_PER_BLOCK = 0 := Nat.div_eq_of_lt hlane
  have hwin : Window rowblock weights (r / ROWS_PER_BLOCK * (k / Q1_BLOCK * PACKED_PER_Q1_BLOCK))
      (k / Q1_BLOCK * PACKED_PER_Q1_BLOCK) :=
    Window.of_take (by simp [rowblock])
  have hblock : q * PACKED_PER_Q1_BLOCK + 144 ≤ k / Q1_BLOCK * PACKED_PER_Q1_BLOCK := by
    have hle := Nat.mul_le_mul_right PACKED_PER_Q1_BLOCK hq
    rw [Nat.succ_mul] at hle
    exact hle
  have hpos : 0 < rowblocksFor rows := Nat.zero_lt_of_lt hr
  have hbytes : PACKED_PER_Q1_BLOCK = 8 * 18 := rfl
  have hlast : Ps.block sizeBits (k / Q1_BLOCK) 0 q = q * PACKED_PER_Q1_BLOCK := by
    rw [Ps.block_eq h hpos hq, hbytes]
    ring
  have haddr : Ps.block sizeBits (k / Q1_BLOCK) (r / ROWS_PER_BLOCK) q =
      r / ROWS_PER_BLOCK * (k / Q1_BLOCK * PACKED_PER_Q1_BLOCK) + q * PACKED_PER_Q1_BLOCK := by
    rw [Ps.block_eq h hr hq, hbytes]
    ring
  have hscales : SCALES_BYTES = 16 := rfl
  have hsub := Ps.sizeT_subOffset h hs
  have hsmall : ∀ x ≤ 144, sizeT sizeBits x = x := fun x hx => Ps.sizeT_small h hx
  constructor
  · simp only [Ps.getRowsScale, hfirst, hlane', hlast, haddr]
    rw [hsmall _ (by omega), hsmall _ (by omega), hwin.readLeU16 (by omega), Nat.add_assoc,
      Nat.add_assoc, Nat.add_assoc]
  · simp only [Ps.getRowsBits, hfirst, hlane', hlast, haddr]
    rw [hsub, hscales, hsmall _ (by omega), hsmall _ (by omega), hwin.readLeU32 (by omega)]
    simp only [Nat.add_assoc]

/-! ## One byte of the source -/

/-- `n` source bytes that are zero but for byte `p`, if there is one. -/
def spike (n p : Nat) : List Byte := (List.range n).map fun i => if i = p then 1 else 0

@[simp] theorem length_spike (n p : Nat) : (spike n p).length = n := by
  simp [spike]

theorem spike_of_ne {n p i : Nat} (hne : i ≠ p) :
    (spike n p)[i]? = none ∨ (spike n p)[i]? = some 0 := by
  rcases Nat.lt_or_ge i n with hi | hi
  · exact Or.inr (by simp [spike, hi, hne])
  · exact Or.inl (by simp [spike, hi])

theorem readLeU16_spike {n p off : Nat} (h : off + 1 < p ∨ p < off) :
    (readLeU16 (spike n p) off).getD 0 = 0 := by
  have h0 : (spike n p)[off]? = none ∨ (spike n p)[off]? = some 0 := spike_of_ne (by omega)
  have h1 : (spike n p)[off + 1]? = none ∨ (spike n p)[off + 1]? = some 0 := spike_of_ne (by omega)
  rcases h0 with h0 | h0 <;> rcases h1 with h1 | h1 <;> simp [readLeU16, h0, h1]

theorem readLeU32_spike {n p off : Nat} (h : off + 3 < p ∨ p < off) :
    (readLeU32 (spike n p) off).getD 0 = 0 := by
  have h0 : (spike n p)[off]? = none ∨ (spike n p)[off]? = some 0 := spike_of_ne (by omega)
  have h1 : (spike n p)[off + 1]? = none ∨ (spike n p)[off + 1]? = some 0 := spike_of_ne (by omega)
  have h2 : (spike n p)[off + 2]? = none ∨ (spike n p)[off + 2]? = some 0 := spike_of_ne (by omega)
  have h3 : (spike n p)[off + 3]? = none ∨ (spike n p)[off + 3]? = some 0 := spike_of_ne (by omega)
  rcases h0 with h0 | h0 <;> rcases h1 with h1 |
    h1 <;> rcases h2 with h2 | h2 <;> rcases h3 with h3 | h3 <;>
    simp [readLeU32, h0, h1, h2, h3]

section

variable {n rows bpr r q : Nat}

theorem blockOff_inj {r' q' : Nat} (hq : q < bpr) (hq' : q' < bpr)
    (h : blockOff bpr r' q' = blockOff bpr r q) :
    r' = r ∧ q' = q := by
  have hflat : r' * bpr + q' = r * bpr + q := by
    simp only [blockOff, Q1_BLOCK_BYTES] at h
    omega
  have hdiv := congrArg (· / bpr) hflat
  have hmod := congrArg (· % bpr) hflat
  simp only [Nat.mul_add_mod_of_lt hq, Nat.mul_add_mod_of_lt hq'] at hmod
  simp only [Nat.mul_comm _ bpr, Nat.mul_add_div (Nat.zero_lt_of_lt hq), Nat.div_eq_of_lt hq,
    Nat.div_eq_of_lt hq'] at hdiv
  omega

/-- The scale whose low byte is set. -/
theorem rowScale_spike (hn : blockOff bpr r q + 2 ≤ n) :
    rowScale (spike n (blockOff bpr r q)) bpr r q = 1 := by
  have h0 : blockOff bpr r q < n := by omega
  have h1 : blockOff bpr r q + 1 < n := by omega
  simp [rowScale, readLeU16, spike, h0, h1]

theorem rowScale_spike_ne {r' q' : Nat} (hq : q < bpr) (hq' : q' < bpr)
    (hne : ¬ (r' = r ∧ q' = q)) :
    rowScale (spike n (blockOff bpr r q)) bpr r' q' = 0 := by
  refine readLeU16_spike ?_
  have hoff : blockOff bpr r' q' ≠ blockOff bpr r q := fun h => hne (blockOff_inj hq hq' h)
  simp only [blockOff, Q1_BLOCK_BYTES] at hoff ⊢
  omega

theorem rowBits_spike {r' q' s : Nat} (hs : s < 4) :
    rowBits (spike n (blockOff bpr r q)) bpr r' q' s = 0 := by
  refine readLeU32_spike ?_
  simp only [blockOff, Q1_BLOCK_BYTES]
  rcases Nat.lt_or_ge (r' * bpr + q') (r * bpr + q) with hlt | hge
  · exact Or.inl (by omega)
  · exact Or.inr (by omega)

/-- The set byte is in one word of the packed weights; the others are zero. -/
theorem packedWord_spike (hq : q < bpr) {w : Nat}
    (hw : w ≠ 18 * (r / ROWS_PER_BLOCK * bpr + q) + r % ROWS_PER_BLOCK / 4) :
    packedWord (spike n (blockOff bpr r q)) rows bpr w = 0 := by
  have hbpr : 0 < bpr := Nat.zero_lt_of_lt hq
  have hblock : w / 18 / bpr * bpr + w / 18 % bpr = w / 18 := Nat.div_add_mod' _ _
  rw [packedWord, blockWord]
  split
  · next hscales =>
    have hzero : ∀ l < 4, laneScale (spike n (blockOff bpr r q)) rows bpr (w / 18 / bpr)
        (w / 18 % bpr) (w % 18 * 4 + l) = 0 := by
      intro l hl
      rw [laneScale]
      split
      · refine rowScale_spike_ne hq (Nat.mod_lt _ hbpr) ?_
        rintro ⟨hrow, hq'⟩
        apply hw
        have hrb : r / ROWS_PER_BLOCK = w / 18 / bpr := by
          simp only [ROWS_PER_BLOCK] at hrow ⊢
          omega
        have hlane : r % ROWS_PER_BLOCK / 4 = w % 18 := by
          simp only [ROWS_PER_BLOCK] at hrow ⊢
          omega
        rw [hrb, hlane, ← hq', hblock]
        omega
      · rfl
    exact pack16_zero hzero
  · have hzero : ∀ l < 2, laneBits (spike n (blockOff bpr r q)) rows bpr (w / 18 / bpr)
        (w / 18 % bpr) ((w % 18 - 2) / 4)
        ((w % 18 - 2) % 4 * 2 + l) = 0 := by
      intro l hl
      rw [laneBits]
      split
      · exact rowBits_spike (by omega)
      · rfl
    exact pack32_zero hzero

/-- So are the bytes outside of it. -/
theorem packed_spike (hq : q < bpr) {j : Nat} {b : Byte}
    (h : (packed (spike n (blockOff bpr r q)) rows bpr)[j]? = some b)
    (hj : j / 8 ≠ 18 * (r / ROWS_PER_BLOCK * bpr + q) + r % ROWS_PER_BLOCK / 4) : b = 0 := by
  have hlt : j < (packed (spike n (blockOff bpr r q)) rows bpr).length := by
    by_contra hge
    rw [List.getElem?_eq_none (Nat.not_lt.mp hge)] at h
    cases h
  rw [packed, length_bytesOf] at hlt
  rw [packed, getElem?_bytesOf _ hlt, packedWord_spike hq hj] at h
  simpa using h.symm

end

end Layout
