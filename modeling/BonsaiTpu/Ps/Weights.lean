-- SUMMARY: The readers of packed weights on the PS: the dot product of a row and the expansion of a row (`bonsai_matmul_q1a8`, `bonsai_get_rows_q1_0` in `native.c`).
import BonsaiTpu.Layout.Pack

/-!
# Packed weights on the PS

Both functions address the packed buffer by bytes with their own formulas. Offsets
are computed in `size_t`; a read outside the buffer has no result. Float arithmetic is
left open.
-/

namespace Ps

open Words Layout

/-- The float operations of the C code. -/
structure FloatOps (F : Type) where
  zero : F
  isZero : F → Bool
  ofHalf : BitVec 16 → F
  ofInt : Int → F
  add : F → F → F
  mul : F → F → F
  neg : F → F

section

variable (sizeBits : Nat) (packed : List Byte) (blocksPerRow : Nat)

/-- `rb_base` and the block pointer of both functions, as an offset. -/
def block (rb q1 : Nat) : Nat :=
  sizeT sizeBits (rb * sizeT sizeBits (blocksPerRow * PACKED_PER_Q1_BLOCK)) +
    sizeT sizeBits (q1 * PACKED_PER_Q1_BLOCK)

/-! ## `bonsai_matmul_q1a8` -/

def matmulScale (row q1 : Nat) : Option (BitVec 16) :=
  readLeU16 packed (block sizeBits blocksPerRow (row / ROWS_PER_BLOCK) q1 +
    2 * (row % ROWS_PER_BLOCK))

def matmulWbits (row q1 sub : Nat) : Option (BitVec 32) :=
  readLeU32 packed (block sizeBits blocksPerRow (row / ROWS_PER_BLOCK) q1 + SCALES_BYTES +
    sizeT sizeBits (sub * WBITS_BYTES) + sizeT sizeBits (row % ROWS_PER_BLOCK * 4))

/-! ## `bonsai_get_rows_q1_0` -/

def getRowsScale (i01 b : Nat) : Option (BitVec 16) :=
  let lane := i01 % ROWS_PER_BLOCK
  readLeU16 packed (block sizeBits blocksPerRow (i01 / ROWS_PER_BLOCK) b +
    sizeT sizeBits (lane / 4 * 8) +
    sizeT sizeBits (lane % 4 * 2))

def getRowsBits (i01 b sub : Nat) : Option (BitVec 32) :=
  let lane := i01 % ROWS_PER_BLOCK
  readLeU32 packed (block sizeBits blocksPerRow (i01 / ROWS_PER_BLOCK) b + SCALES_BYTES +
    sizeT sizeBits (sub * WBITS_BYTES) + sizeT sizeBits (lane / 2 * 8) +
      sizeT sizeBits (lane % 2 * 4))

end

section

variable {F : Type} (ops : FloatOps F)

/-- The signed sum of the activations of a sub-block. -/
def subSum (wbits : BitVec 32) (act : Nat → Int) : Int :=
  (List.range Q8_BLOCK).foldl (fun sum i => if wbits.getLsbD i then sum + act i else sum - act i) 0

/-- The loops over Q1 blocks and sub-blocks for one row, given the two reads. A zero scale
    skips what it multiplies. -/
def matmulRow (scaleAt : Nat → Option (BitVec 16)) (wbitsAt : Nat → Nat → Option (BitVec 32))
    (actQuants : Nat → Int) (actScales : Nat → F) (blocksPerRow : Nat) : Option F :=
  (List.range blocksPerRow).foldlM (fun acc q1 => do
    let weightScale := ops.ofHalf (← scaleAt q1)
    if ops.isZero weightScale then some acc
    else
      (List.range Q8_SUBBLOCKS).foldlM (fun acc sub => do
        let q8Base := q1 * Q1_BLOCK + sub * Q8_BLOCK
        let actScale := actScales (q8Base / Q8_BLOCK)
        if ops.isZero actScale then some acc
        else
          let wbits ← wbitsAt q1 sub
          let sum := subSum wbits fun i => actQuants (q8Base + i)
          some (ops.add acc (ops.mul (ops.mul weightScale actScale) (ops.ofInt sum)))) acc) ops.zero

/-- The row loop body of `bonsai_matmul_q1a8`, for quantised activations of a column. -/
def matmulQ1a8Row (sizeBits : Nat) (packed : List Byte) (actQuants : Nat → Int)
    (actScales : Nat → F) (blocksPerRow row : Nat) : Option F :=
  matmulRow ops (matmulScale sizeBits packed blocksPerRow row)
    (matmulWbits sizeBits packed blocksPerRow row) actQuants
    actScales blocksPerRow

/-- The floats of one sub-block. -/
def expand (scale : F) (bits : BitVec 32) : List F :=
  (List.range Q8_BLOCK).map fun i => if bits.getLsbD i then scale else ops.neg scale

/-- The loops over blocks and sub-blocks that fill a dst row, given the two reads. -/
def getRow (scaleAt : Nat → Option (BitVec 16)) (bitsAt : Nat → Nat → Option (BitVec 32))
    (blocksPerRow : Nat) :
    Option (List F) :=
  (List.range blocksPerRow).foldlM (fun row b => do
    let scale := ops.ofHalf (← scaleAt b)
    (List.range Q8_SUBBLOCKS).foldlM (fun row sub => do
      let bits ← bitsAt b sub
      some (row ++ expand ops scale bits)) row) []

/-- The row that `bonsai_get_rows_q1_0` writes for index `i01`. -/
def getRowsQ10Row (sizeBits : Nat) (packed : List Byte) (blocksPerRow i01 : Nat) :
    Option (List F) :=
  getRow ops (getRowsScale sizeBits packed blocksPerRow i01)
    (getRowsBits sizeBits packed blocksPerRow i01) blocksPerRow

end

/-! ## The reads are the lanes that were packed -/

section

variable {sizeBits rows k : Nat} {src : List Byte} (h : Sized sizeBits rows k)

include h

/-- The addresses of both functions, for a row of the packed rowblocks. -/
theorem block_eq {rb q : Nat} (hrb : rb < rowblocksFor rows) (hq : q < k / Q1_BLOCK) :
    block sizeBits (k / Q1_BLOCK) rb q = 8 * (18 * (rb * (k / Q1_BLOCK) + q)) := by
  have hfit := beats_fit hrb hq
  have hbytes : 8 * packedBeats rows (k / Q1_BLOCK) =
      rowblocksFor rows * (k / Q1_BLOCK) * PACKED_PER_Q1_BLOCK := by
    rw [packedBeats, ← Nat.mul_assoc, Nat.mul_comm]
    rfl
  have hrow : k / Q1_BLOCK * PACKED_PER_Q1_BLOCK ≤
      rowblocksFor rows * (k / Q1_BLOCK) * PACKED_PER_Q1_BLOCK := by
    rw [Nat.mul_assoc]
    exact Nat.le_mul_of_pos_left _ (Nat.lt_of_le_of_lt (Nat.zero_le rb) hrb)
  have hstart : rb * (k / Q1_BLOCK * PACKED_PER_Q1_BLOCK) = 8 * (18 * (rb * (k / Q1_BLOCK))) := by
    rw [← Nat.mul_assoc, Nat.mul_comm]
    exact Nat.mul_assoc 8 18 _
  have hblock : q * PACKED_PER_Q1_BLOCK = 8 * (18 * q) := by
    rw [Nat.mul_comm]
    exact Nat.mul_assoc 8 18 _
  rw [block, h.sizeT_eq hrow, hstart, hblock, h.sizeT_eq (by omega), h.sizeT_eq (by omega)]
  omega

/-- Small offsets fit any `size_t` that holds the packed buffer. -/
theorem sizeT_small {x : Nat} (hx : x ≤ 144) : sizeT sizeBits x = x := by
  have hone : 1 ≤ rowblocksFor rows * (k / Q1_BLOCK) :=
    Nat.mul_pos (by have := h.rowsPos; simp only [rowblocksFor, ROWS_PER_BLOCK]; omega) h.blocks_pos
  exact h.sizeT_eq (Nat.le_trans hx (Nat.le_mul_of_pos_left _ hone))

theorem sizeT_subOffset {s : Nat} (hs : s < 4) : sizeT sizeBits (s * WBITS_BYTES) = 32 * s := by
  have hbytes : s * WBITS_BYTES = 32 * s := Nat.mul_comm _ _
  rw [hbytes]
  exact sizeT_small h (by omega)

/-- The scale of a lane, read at the address both functions use for it. -/
theorem readLeU16_packed {rb q lane : Nat} (hrb : rb < rowblocksFor rows) (hq : q < k / Q1_BLOCK)
    (hlane : lane < 8) :
    readLeU16 (packed src rows (k / Q1_BLOCK)) (block sizeBits (k / Q1_BLOCK) rb q + 2 * lane) =
      some (laneScale src rows (k / Q1_BLOCK) rb q lane) := by
  have hfit := beats_fit hrb hq
  have haddr : block sizeBits (k / Q1_BLOCK) rb q + 2 * lane =
      8 * (18 * (rb * (k / Q1_BLOCK) + q) + lane / 4) + 2 * (lane % 4) := by
    rw [block_eq h hrb hq]
    omega
  have hlane' : lane / 4 * 4 + lane % 4 = lane := by omega
  rw [haddr, packed, readLeU16_bytesOf _ (by omega) (by omega), packedWord_block hq (by omega),
    blockWord_scales (by omega), extractLsb'_pack16 _ (by omega), hlane']

theorem readLeU32_packed {rb q s lane : Nat} (hrb : rb < rowblocksFor rows)
    (hq : q < k / Q1_BLOCK) (hs : s < 4) (hlane : lane < 8) :
    readLeU32 (packed src rows (k / Q1_BLOCK))
      (block sizeBits (k / Q1_BLOCK) rb q + 16 + 32 * s + 4 * lane) =
      some (laneBits src rows (k / Q1_BLOCK) rb q s lane) := by
  have hfit := beats_fit hrb hq
  have haddr : block sizeBits (k / Q1_BLOCK) rb q + 16 + 32 * s + 4 * lane =
      8 * (18 * (rb * (k / Q1_BLOCK) + q) + (2 + 4 * s + lane / 2)) + 4 * (lane % 2) := by
    rw [block_eq h hrb hq]
    omega
  have hlane' : lane / 2 * 2 + lane % 2 = lane := by omega
  rw [haddr, packed, readLeU32_bytesOf _ (by omega) (by omega), packedWord_block hq (by omega),
    blockWord_wbits (by omega), extractLsb'_pack32 _ (by omega), hlane']

variable {r q s : Nat} (hr : r / ROWS_PER_BLOCK < rowblocksFor rows) (hq : q < k / Q1_BLOCK)

include hr hq

theorem matmulScale_packed :
    matmulScale sizeBits (packed src rows (k / Q1_BLOCK)) (k / Q1_BLOCK) r q =
      some (laneScale src rows (k / Q1_BLOCK) (r / ROWS_PER_BLOCK) q (r % ROWS_PER_BLOCK)) :=
  readLeU16_packed h hr hq (Nat.mod_lt _ (by decide))

theorem getRowsScale_packed :
    getRowsScale sizeBits (packed src rows (k / Q1_BLOCK)) (k / Q1_BLOCK) r q =
      some (laneScale src rows (k / Q1_BLOCK) (r / ROWS_PER_BLOCK) q (r % ROWS_PER_BLOCK)) := by
  have hlane : r % ROWS_PER_BLOCK < 8 := Nat.mod_lt _ (by decide)
  have hpair : sizeT sizeBits (r % ROWS_PER_BLOCK / 4 * 8) +
      sizeT sizeBits (r % ROWS_PER_BLOCK % 4 * 2) =
      2 * (r % ROWS_PER_BLOCK) := by
    rw [sizeT_small h (by omega), sizeT_small h (by omega)]
    omega
  rw [← readLeU16_packed h hr hq hlane, getRowsScale, Nat.add_assoc, hpair]

theorem matmulWbits_packed (hs : s < 4) :
    matmulWbits sizeBits (packed src rows (k / Q1_BLOCK)) (k / Q1_BLOCK) r q s =
      some (laneBits src rows (k / Q1_BLOCK) (r / ROWS_PER_BLOCK) q s (r % ROWS_PER_BLOCK)) := by
  have hlane : r % ROWS_PER_BLOCK < 8 := Nat.mod_lt _ (by decide)
  have hsub : sizeT sizeBits (s * WBITS_BYTES) = 32 * s := sizeT_subOffset h hs
  have hword : sizeT sizeBits (r % ROWS_PER_BLOCK * 4) = 4 * (r % ROWS_PER_BLOCK) := by
    rw [sizeT_small h (by omega), Nat.mul_comm]
  rw [← readLeU32_packed h hr hq hs hlane, matmulWbits, hsub, hword]
  rfl

theorem getRowsBits_packed (hs : s < 4) :
    getRowsBits sizeBits (packed src rows (k / Q1_BLOCK)) (k / Q1_BLOCK) r q s =
      some (laneBits src rows (k / Q1_BLOCK) (r / ROWS_PER_BLOCK) q s (r % ROWS_PER_BLOCK)) := by
  have hlane : r % ROWS_PER_BLOCK < 8 := Nat.mod_lt _ (by decide)
  have hsub : sizeT sizeBits (s * WBITS_BYTES) = 32 * s := sizeT_subOffset h hs
  have hpair : sizeT sizeBits (r % ROWS_PER_BLOCK / 2 * 8) +
      sizeT sizeBits (r % ROWS_PER_BLOCK % 2 * 4) =
      4 * (r % ROWS_PER_BLOCK) := by
    rw [sizeT_small h (by omega), sizeT_small h (by omega)]
    omega
  rw [← readLeU32_packed h hr hq hs hlane, getRowsBits, hsub,
    Nat.add_assoc _ (sizeT _ _) (sizeT _ _), hpair]
  rfl

end

/-- A row of the source is a lane of its rowblock. -/
theorem rowblock_lt {rows r : Nat} (hr : r < rows) : r / ROWS_PER_BLOCK < rowblocksFor rows := by
  simp only [rowblocksFor, ROWS_PER_BLOCK]
  omega

end Ps
