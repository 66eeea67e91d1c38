-- SUMMARY: The two packers of Q1_0 weights, in C and in Python, and that both write the same words (`q1a8_layout.c`, `q1a8_layout.py`).
import BonsaiTpu.Base.Words
import BonsaiTpu.Layout.Format

/-!
# Packing weights

Both packers walk rowblocks, Q1 blocks and beats in order and store one 64-bit word
per beat at a cursor. The C packer computes in `uint32_t` and `size_t`, whose width
is a parameter; the Python packer in integers. A read or store outside a buffer has
no result in C and raises in Python.
-/

namespace Layout

open Words

/-- The store cursor and the output buffer. -/
structure Out where
  cursor : Nat
  bytes : List Byte

def u32 (x : Nat) : Nat := x % 2 ^ 32

/-- The stores of a Q1 block: its beats of scales, then the beats of weight bits of each
    sub-block. -/
def packBlock {m : Type → Type} [Monad m] {ω : Type} (write : Out → ω → m Out)
    (scaleWord : Nat → m ω) (wbitsWord : Nat → Nat → m ω) (st : Out) : m Out := do
  let st ← (List.range SCALE_BEATS).foldlM (fun st beat => do write st (← scaleWord beat)) st
  (List.range Q8_SUBBLOCKS).foldlM (fun st sub =>
    (List.range WBITS_BEATS).foldlM (fun st beat => do write st (← wbitsWord sub beat)) st) st

/-! ## The C packer -/

section C

variable (sizeBits : Nat) (src : List Byte)

def sizeT (x : Nat) : Nat := x % 2 ^ sizeBits

variable {sizeBits} in
theorem sizeT_of_lt {x : Nat} (h : x < 2 ^ sizeBits) : sizeT sizeBits x = x := Nat.mod_eq_of_lt h

/-- `write_le_u64` and the cursor step after it. -/
def writeLeU64 (st : Out) (word : BitVec 64) : Option Out := do
  let bytes ← store st.bytes st.cursor (leBytes word)
  some ⟨sizeT sizeBits (st.cursor + 8), bytes⟩

/-- The offset of a Q1 block in the source. -/
def blockOffC (rowStart lane weightRowBytes q1 : Nat) : Nat :=
  sizeT sizeBits (sizeT sizeBits (u32 (rowStart + lane) * weightRowBytes) +
    sizeT sizeBits (q1 * Q1_BLOCK_BYTES))

def scaleWordC (weightRowBytes rowStart rowCount q1 beat : Nat) : Option (BitVec 64) :=
  (List.range 4).foldlM (fun word loc => do
    let lane := beat * 4 + loc
    let scale ← (if lane < rowCount then readLeU16 src
      (blockOffC sizeBits rowStart lane weightRowBytes q1) else some 0)
    some (word ||| scale.setWidth 64 <<< (loc * 16))) 0

def wbitsWordC (weightRowBytes rowStart rowCount q1 sub beat : Nat) : Option (BitVec 64) :=
  (List.range 2).foldlM (fun word loc => do
    let lane := beat * 2 + loc
    let bits ←
      (if lane < rowCount then
        readLeU32 src (sizeT sizeBits (blockOffC sizeBits rowStart lane weightRowBytes q1 + 2 +
          sizeT sizeBits (sub * (Q8_BLOCK / 8))))
      else some 0)
    some (word ||| bits.setWidth 64 <<< (loc * 32))) 0

/-- The body of the loop over Q1 blocks. -/
def packBlockC (weightRowBytes rowStart rowCount : Nat) (st : Out) (q1 : Nat) : Option Out :=
  packBlock (writeLeU64 sizeBits) (scaleWordC sizeBits src weightRowBytes rowStart rowCount q1)
    (wbitsWordC sizeBits src weightRowBytes rowStart rowCount q1) st

/-- The body of the loop over rowblocks. -/
def packRowblockC (rows blocksPerRow weightRowBytes : Nat) (st : Out) (rb : Nat) : Option Out :=
  let rowStart := u32 (rb * ROWS_PER_BLOCK)
  let left := u32 (rows + 2 ^ 32 - rowStart)
  let rowCount := if left > ROWS_PER_BLOCK then ROWS_PER_BLOCK else left
  (List.range blocksPerRow).foldlM (packBlockC sizeBits src weightRowBytes rowStart rowCount) st

/-- `bonsai_q1a8_pack_weights`: the return code and the output buffer. -/
def packWeightsC (rows k : Nat) (out : List Byte) : Option (Int × List Byte) :=
  if k = 0 ∨ k % Q1_BLOCK ≠ 0 then some (-2, out)
  else if rows = 0 then some (-3, out)
  else do
    let blocksPerRow := k / Q1_BLOCK
    let weightRowBytes := u32 (blocksPerRow * Q1_BLOCK_BYTES)
    let rowblocks := u32 (rows + ROWS_PER_BLOCK - 1) / ROWS_PER_BLOCK
    let st ← (List.range rowblocks).foldlM
      (packRowblockC sizeBits src rows blocksPerRow weightRowBytes) ⟨0, out⟩
    some (0, st.bytes)

end C

/-! ## The Python packer -/

section Python

variable (src : List Byte)

/-- Indexing of `bytes`. -/
def index (i : Nat) : Except String Nat :=
  match src[i]? with
  | some byte => .ok byte.toNat
  | none => .error "index out of range"

/-- `struct.pack_into("<Q", out, cursor, word)` and the cursor step after it. -/
def packInto (st : Out) (word : Nat) : Except String Out :=
  if word < 2 ^ 64 then
    match store st.bytes st.cursor (leBytes (BitVec.ofNat 64 word)) with
    | some bytes => .ok ⟨st.cursor + 8, bytes⟩
    | none => .error "pack_into requires a larger buffer"
  else .error "int too large to convert"

def scaleBits (off : Nat) : Except String Nat := do
  let b0 ← index src off
  let b1 ← index src (off + 1)
  .ok (b0 ||| b1 <<< 8)

def wordBits (base : Nat) : Except String Nat := do
  let b0 ← index src base
  let b1 ← index src (base + 1)
  let b2 ← index src (base + 2)
  let b3 ← index src (base + 3)
  .ok (b0 ||| b1 <<< 8 ||| b2 <<< 16 ||| b3 <<< 24)

def scaleWordPy (weightRowBytes rowStart rowCount q1 beat : Nat) : Except String Nat :=
  (List.range 4).foldlM (fun word loc => do
    let lane := beat * 4 + loc
    let bits ←
      (if lane < rowCount then scaleBits src
        ((rowStart + lane) * weightRowBytes + q1 * Q1_BLOCK_BYTES) else .ok 0)
    .ok (word ||| bits <<< (loc * 16))) 0

def wbitsWordPy (weightRowBytes rowStart rowCount q1 sub beat : Nat) : Except String Nat :=
  (List.range 2).foldlM (fun word loc => do
    let lane := beat * 2 + loc
    let bits ←
      (if lane < rowCount then
        wordBits src ((rowStart + lane) * weightRowBytes + q1 * Q1_BLOCK_BYTES + 2 +
          sub * (Q8_BLOCK / 8))
      else .ok 0)
    .ok (word ||| bits <<< (loc * 32))) 0

def packBlockPy (weightRowBytes rowStart rowCount : Nat) (st : Out) (q1 : Nat) :
    Except String Out :=
  packBlock packInto (scaleWordPy src weightRowBytes rowStart rowCount q1)
    (wbitsWordPy src weightRowBytes rowStart rowCount q1) st

def packRowblockPy (rows bpr weightRowBytes : Nat) (st : Out) (rb : Nat) : Except String Out :=
  let rowStart := rb * ROWS_PER_BLOCK
  let rowCount := min ROWS_PER_BLOCK (rows - rowStart)
  (List.range bpr).foldlM (packBlockPy src weightRowBytes rowStart rowCount) st

/-- `pack_weights`. -/
def packWeights (rows k : Nat) : Except String (List Byte) := do
  let bpr ← blocksPerRow k
  let weightRowBytes := bpr * Q1_BLOCK_BYTES
  if src.length < rows * weightRowBytes then
    .error "q1_0_weights too short for the requested rows/k"
  else
    let rbs := rowblocksFor rows
    let out := List.replicate (rbs * bpr * PACKED_PER_Q1_BLOCK) 0
    let st ← (List.range rbs).foldlM (packRowblockPy src rows bpr weightRowBytes) ⟨0, out⟩
    .ok st.bytes

end Python

/-! ## What both packers write -/

section Packed

variable (src : List Byte) (rows bpr : Nat)

/-- The offset of Q1 block `q` of row `r` in the source. -/
def blockOff (r q : Nat) : Nat := (r * bpr + q) * Q1_BLOCK_BYTES

/-- The fp16 scale of a Q1 block of the source. -/
def rowScale (r q : Nat) : BitVec 16 := (readLeU16 src (blockOff bpr r q)).getD 0

/-- The 32 weight bits of sub-block `s` of a Q1 block of the source. -/
def rowBits (r q s : Nat) : BitVec 32 := (readLeU32 src (blockOff bpr r q + 2 + 4 * s)).getD 0

/-- The scale of a lane of a rowblock: zero beyond the last row. -/
def laneScale (rb q lane : Nat) : BitVec 16 :=
  if rb * ROWS_PER_BLOCK + lane < rows then rowScale src bpr (rb * ROWS_PER_BLOCK + lane) q else 0

def laneBits (rb q s lane : Nat) : BitVec 32 :=
  if rb * ROWS_PER_BLOCK + lane < rows then rowBits src bpr (rb * ROWS_PER_BLOCK + lane) q s else 0

/-- Beat `t` of a Q1 block of a rowblock. -/
def blockWord (rb q t : Nat) : BitVec 64 :=
  if t < 2 then pack16 fun l => laneScale src rows bpr rb q (t * 4 + l)
  else pack32 fun l => laneBits src rows bpr rb q ((t - 2) / 4) ((t - 2) % 4 * 2 + l)

/-- Beat `w` of the packed weights. -/
def packedWord (w : Nat) : BitVec 64 :=
  blockWord src rows bpr (w / 18 / bpr) (w / 18 % bpr) (w % 18)

/-- The beats of the packed weights. -/
def packedBeats : Nat := 18 * (rowblocksFor rows * bpr)

/-- The packed weights. -/
def packed : List Byte := bytesOf (packedWord src rows bpr) (packedBeats rows bpr)

/-- The output after `n` beats. -/
def outAfter (out : List Byte) (n : Nat) : Out := ⟨8 * n, filled (packedWord src rows bpr) out n⟩

variable {src rows bpr}

theorem packedWord_block {rb q t : Nat} (hq : q < bpr) (ht : t < 18) :
    packedWord src rows bpr (18 * (rb * bpr + q) + t) = blockWord src rows bpr rb q t := by
  have hdiv : (18 * (rb * bpr + q) + t) / 18 = rb * bpr + q := by omega
  have hmod : (18 * (rb * bpr + q) + t) % 18 = t := by omega
  have hrb : (rb * bpr + q) / bpr = rb := by
    rw [Nat.add_comm, Nat.add_mul_div_right _ _ (by omega), Nat.div_eq_of_lt hq, Nat.zero_add]
  have hq' : (rb * bpr + q) % bpr = q := by
    rw [Nat.add_comm, Nat.add_mul_mod_self_right, Nat.mod_eq_of_lt hq]
  rw [packedWord, hdiv, hmod, hrb, hq']

theorem blockWord_scales {rb q beat : Nat} (h : beat < 2) :
    blockWord src rows bpr rb q beat = pack16 fun l => laneScale src rows bpr rb q (beat * 4 + l) :=
  if_pos h

theorem blockWord_wbits {rb q s beat : Nat} (h : beat < 4) :
    blockWord src rows bpr rb q (2 + 4 * s + beat) =
      pack32 fun l => laneBits src rows bpr rb q s (beat * 2 + l) := by
  have hs : (2 + 4 * s + beat - 2) / 4 = s := by omega
  have hbeat : (2 + 4 * s + beat - 2) % 4 = beat := by omega
  rw [blockWord, if_neg (by omega), hs, hbeat]

theorem length_packed :
    (packed src rows bpr).length = rowblocksFor rows * bpr * PACKED_PER_Q1_BLOCK := by
  rw [packed, length_bytesOf, packedBeats, ← Nat.mul_assoc, Nat.mul_comm]
  rfl

/-- The reads of a row that exists are inside the source. -/
theorem blockOff_le (hsrc : src.length = rows * bpr * Q1_BLOCK_BYTES) {r q : Nat} (hr : r < rows)
    (hq : q < bpr) :
    blockOff bpr r q + Q1_BLOCK_BYTES ≤ src.length := by
  have hrow : r * bpr + q + 1 ≤ rows * bpr :=
    calc r * bpr + q + 1 ≤ r * bpr + bpr := by omega
      _ = (r + 1) * bpr := (Nat.succ_mul r bpr).symm
      _ ≤ rows * bpr := Nat.mul_le_mul_right _ hr
  rw [hsrc, blockOff, ← Nat.succ_mul]
  exact Nat.mul_le_mul_right _ hrow

theorem readLeU16_source (hsrc : src.length = rows * bpr * Q1_BLOCK_BYTES) {r q : Nat}
    (hr : r < rows) (hq : q < bpr) :
    readLeU16 src (blockOff bpr r q) = some (rowScale src bpr r q) := by
  have hle : blockOff bpr r q + 18 ≤ src.length := blockOff_le hsrc hr hq
  obtain ⟨v, hv⟩ :=
    Option.isSome_iff_exists.mp (readLeU16_isSome (show blockOff bpr r q + 2 ≤ src.length by omega))
  rw [rowScale, hv, Option.getD_some]

theorem readLeU32_source (hsrc : src.length = rows * bpr * Q1_BLOCK_BYTES) {r q s : Nat}
    (hr : r < rows) (hq : q < bpr)
    (hs : s < 4) : readLeU32 src (blockOff bpr r q + 2 + 4 * s) = some (rowBits src bpr r q s) := by
  have hle : blockOff bpr r q + 18 ≤ src.length := blockOff_le hsrc hr hq
  obtain ⟨v, hv⟩ := Option.isSome_iff_exists.mp
    (readLeU32_isSome (show blockOff bpr r q + 2 + 4 * s + 4 ≤ src.length by omega))
  rw [rowBits, hv, Option.getD_some]

theorem laneScale_of_row {r q : Nat} (hr : r < rows) :
    laneScale src rows bpr (r / ROWS_PER_BLOCK) q (r % ROWS_PER_BLOCK) = rowScale src bpr r q := by
  have hrow : r / ROWS_PER_BLOCK * ROWS_PER_BLOCK + r % ROWS_PER_BLOCK = r :=
    Nat.div_add_mod' r ROWS_PER_BLOCK
  rw [laneScale, hrow, if_pos hr]

theorem laneBits_of_row {r q s : Nat} (hr : r < rows) :
    laneBits src rows bpr (r / ROWS_PER_BLOCK) q s (r % ROWS_PER_BLOCK) =
      rowBits src bpr r q s := by
  have hrow : r / ROWS_PER_BLOCK * ROWS_PER_BLOCK + r % ROWS_PER_BLOCK = r :=
    Nat.div_add_mod' r ROWS_PER_BLOCK
  rw [laneBits, hrow, if_pos hr]

/-- The lanes beyond the last row are padding. -/
theorem lane_of_padding {r : Nat} (hr : rows ≤ r) (q s : Nat) :
    laneScale src rows bpr (r / ROWS_PER_BLOCK) q (r % ROWS_PER_BLOCK) = 0 ∧
      laneBits src rows bpr (r / ROWS_PER_BLOCK) q s (r % ROWS_PER_BLOCK) = 0 := by
  have hrow : r / ROWS_PER_BLOCK * ROWS_PER_BLOCK + r % ROWS_PER_BLOCK = r :=
    Nat.div_add_mod' r ROWS_PER_BLOCK
  rw [laneScale, laneBits, hrow, if_neg (Nat.not_lt.mpr hr), if_neg (Nat.not_lt.mpr hr)]
  exact ⟨rfl, rfl⟩

/-! ### The loops -/

section

variable {m : Type → Type} [Monad m] [LawfulMonad m] {ω : Type} {write : Out → ω → m Out}
    {out : List Byte}

/-- A packer whose stores and words are right writes the beats of a Q1 block. -/
theorem packBlock_eq (enc : BitVec 64 → ω) {rb q : Nat} (hq : q < bpr)
    (hfit : 18 * (rb * bpr + q + 1) ≤ packedBeats rows bpr)
    (hwrite : ∀ n < packedBeats rows bpr,
      write (outAfter src rows bpr out n) (enc (packedWord src rows bpr n)) =
      pure (outAfter src rows bpr out (n + 1)))
    {scaleWord : Nat → m ω}
    (hscales : ∀ beat < 2, scaleWord beat = pure (enc (blockWord src rows bpr rb q beat)))
    {wbitsWord : Nat → Nat → m ω}
    (hwbits : ∀ s < 4, ∀ beat < 4,
      wbitsWord s beat = pure (enc (blockWord src rows bpr rb q (2 + 4 * s + beat)))) :
    packBlock write scaleWord wbitsWord (outAfter src rows bpr out (18 * (rb * bpr + q))) =
      pure (outAfter src rows bpr out (18 * (rb * bpr + (q + 1)))) := by
  obtain ⟨base, hbase⟩ : ∃ base, 18 * (rb * bpr + q) = base := ⟨_, rfl⟩
  rw [hbase]
  have hstore : ∀ t < 18,
      write (outAfter src rows bpr out (base + t)) (enc (blockWord src rows bpr rb q t)) =
      pure (outAfter src rows bpr out (base + t + 1)) := by
    intro t ht
    have hword := hwrite (base + t) (by omega)
    rwa [← hbase, packedWord_block hq ht, hbase] at hword
  have hscaleLoop : (List.range SCALE_BEATS).foldlM (fun st beat => do write st (← scaleWord beat))
      (outAfter src rows bpr out base) = pure (outAfter src rows bpr out (base + 2)) := by
    refine foldlM_range (S := fun i => outAfter src rows bpr out (base + i)) fun beat hbeat => ?_
    rw [hscales beat hbeat, pure_bind]
    exact hstore beat (Nat.lt_trans hbeat (by decide))
  have hbeats : ∀ s < 4, (List.range WBITS_BEATS).foldlM (fun st beat =>
      do write st (← wbitsWord s beat))
      (outAfter src rows bpr out (base + (2 + 4 * s) + 0)) =
        pure (outAfter src rows bpr out (base + (2 + 4 * s) + 4)) := by
    intro s hs
    refine foldlM_range (S := fun i => outAfter src rows bpr out (base + (2 + 4 * s) + i))
      fun beat hbeat => ?_
    have hbeat' : beat < 4 := hbeat
    rw [hwbits s hs beat hbeat', pure_bind]
    simpa only [Nat.add_assoc] using hstore (2 + 4 * s + beat) (by omega)
  have hsubs : (List.range Q8_SUBBLOCKS).foldlM
      (fun st s =>
        (List.range WBITS_BEATS).foldlM (fun st beat => do write st (← wbitsWord s beat)) st)
      (outAfter src rows bpr out (base + (2 + 4 * 0))) =
        (pure (outAfter src rows bpr out (base + (2 + 4 * 4))) : m Out) :=
    foldlM_range (S := fun i => outAfter src rows bpr out (base + (2 + 4 * i))) hbeats
  have hend : base + (2 + 4 * 4) = 18 * (rb * bpr + (q + 1)) := by omega
  rw [packBlock, hscaleLoop, pure_bind]
  rwa [hend] at hsubs

/-- A packer whose Q1 blocks are right writes all beats. -/
theorem packRowblocks_eq {packBlock : Nat → Out → Nat → m Out}
    (hblock : ∀ rb < rowblocksFor rows, ∀ q < bpr,
      packBlock rb (outAfter src rows bpr out (18 * (rb * bpr + q))) q =
        pure (outAfter src rows bpr out (18 * (rb * bpr + (q + 1))))) :
    (List.range (rowblocksFor rows)).foldlM (fun st rb => (List.range bpr).foldlM (packBlock rb) st)
        (outAfter src rows bpr out 0) =
          pure (outAfter src rows bpr out (packedBeats rows bpr)) := by
  have hrow : ∀ rb < rowblocksFor rows, (List.range bpr).foldlM (packBlock rb)
      (outAfter src rows bpr out (18 * (rb * bpr))) =
        pure (outAfter src rows bpr out (18 * ((rb + 1) * bpr))) := by
    intro rb hrb
    rw [Nat.succ_mul rb]
    exact foldlM_range (S := fun q =>
      outAfter src rows bpr out (18 * (rb * bpr + q))) (hblock rb hrb)
  have hall : (List.range (rowblocksFor rows)).foldlM (fun st rb =>
      (List.range bpr).foldlM (packBlock rb) st)
      (outAfter src rows bpr out (18 * (0 * bpr))) =
        pure (outAfter src rows bpr out (packedBeats rows bpr)) :=
    foldlM_range (S := fun rb => outAfter src rows bpr out (18 * (rb * bpr))) hrow
  rwa [Nat.zero_mul, Nat.mul_zero] at hall

theorem beats_fit {rb q : Nat} (hrb : rb < rowblocksFor rows) (hq : q < bpr) :
    18 * (rb * bpr + q + 1) ≤ packedBeats rows bpr := by
  have hle : rb * bpr + q + 1 ≤ rowblocksFor rows * bpr :=
    calc rb * bpr + q + 1 ≤ rb * bpr + bpr := by omega
      _ = (rb + 1) * bpr := (Nat.succ_mul rb bpr).symm
      _ ≤ rowblocksFor rows * bpr := Nat.mul_le_mul_right _ hrb
  exact Nat.mul_le_mul_left 18 hle

end

end Packed

/-! ## The C packer writes the packed weights -/

/-- The rows, columns and `size_t` the C packer is called with: rows and columns fit their
    parameters, and the packed buffer has a size. -/
structure Sized (sizeBits rows k : Nat) : Prop where
  rowsPos : 1 ≤ rows
  rowsLt : rows + 7 < 2 ^ 32
  kPos : 1 ≤ k
  kLt : k < 2 ^ 32
  block : k % Q1_BLOCK = 0
  size : sizeBits = 64 ∨ rowblocksFor rows * (k / Q1_BLOCK) * PACKED_PER_Q1_BLOCK < 2 ^ sizeBits

namespace Sized

variable {sizeBits rows k : Nat} (h : Sized sizeBits rows k)

include h

theorem blocks_pos : 1 ≤ k / Q1_BLOCK := by
  have hk := h.kPos
  have hmod := h.block
  simp only [Q1_BLOCK] at *
  omega

theorem blocks_lt : k / Q1_BLOCK < 2 ^ 25 := by
  have hk := h.kLt
  simp only [Q1_BLOCK] at *
  omega

theorem rowblocks_lt : rowblocksFor rows < 2 ^ 29 := by
  have hrows := h.rowsLt
  simp only [rowblocksFor, ROWS_PER_BLOCK] at *
  omega

/-- Sizes up to the packed size do not wrap. -/
theorem sizeT_eq {x : Nat} (hx : x ≤ rowblocksFor rows * (k / Q1_BLOCK) * PACKED_PER_Q1_BLOCK) :
    sizeT sizeBits x = x := by
  refine Nat.mod_eq_of_lt (Nat.lt_of_le_of_lt hx ?_)
  rcases h.size with rfl | hsize
  · calc rowblocksFor rows * (k / Q1_BLOCK) * PACKED_PER_Q1_BLOCK
        ≤ 2 ^ 29 * 2 ^ 25 * PACKED_PER_Q1_BLOCK :=
          Nat.mul_le_mul_right
            _ (Nat.mul_le_mul (Nat.le_of_lt h.rowblocks_lt) (Nat.le_of_lt h.blocks_lt))
      _ < 2 ^ 64 := by decide
  · exact hsize

/-- Fewer rows. -/
theorem mono {rows' : Nat} (hpos : 1 ≤ rows') (hle : rows' ≤ rows) : Sized sizeBits rows' k := by
  have hrows := h.rowsLt
  refine ⟨hpos, by omega, h.kPos, h.kLt, h.block, h.size.imp_right fun hsize =>
    Nat.lt_of_le_of_lt ?_ hsize⟩
  have hblocks : rowblocksFor rows' ≤ rowblocksFor rows := Nat.div_le_div_right (by omega)
  exact Nat.mul_le_mul_right _ (Nat.mul_le_mul_right _ hblocks)

/-! The `uint32_t` values of the C packers do not wrap. -/

theorem weightRowBytes_eq :
    u32 (k / Q1_BLOCK * Q1_BLOCK_BYTES) = k / Q1_BLOCK * Q1_BLOCK_BYTES := by
  have hblocks := h.blocks_lt
  refine Nat.mod_eq_of_lt ?_
  simp only [Q1_BLOCK_BYTES]
  omega

variable {rb : Nat} (hrb : rb < rowblocksFor rows)

include hrb

omit h in
theorem rowStart_lt : rb * ROWS_PER_BLOCK < rows := by
  simp only [rowblocksFor, ROWS_PER_BLOCK] at *
  omega

theorem rowStart_eq : u32 (rb * ROWS_PER_BLOCK) = rb * ROWS_PER_BLOCK := by
  have hlt := h.rowsLt
  have hrow := rowStart_lt hrb
  exact Nat.mod_eq_of_lt (by omega)

/-- The lanes below `row_count` are the rows that exist. -/
theorem rowCount_iff {lane : Nat} (hlane : lane < 8) :
    lane < (if u32 (rows + 2 ^ 32 - rb * ROWS_PER_BLOCK) > ROWS_PER_BLOCK then ROWS_PER_BLOCK
      else u32 (rows + 2 ^ 32 - rb * ROWS_PER_BLOCK)) ↔ rb * ROWS_PER_BLOCK + lane < rows := by
  have hlt := h.rowsLt
  have hrow := rowStart_lt hrb
  have hwhole : lane < ROWS_PER_BLOCK := hlane
  have hleft : u32 (rows + 2 ^ 32 - rb * ROWS_PER_BLOCK) = rows - rb * ROWS_PER_BLOCK := by
    simp only [u32]
    omega
  rw [hleft]
  split_ifs with hmany
  · exact iff_of_true hwhole (by omega)
  · omega

omit h hrb in
/-- An offset into the source is one into the packed buffer. -/
theorem source_le : rows * (k / Q1_BLOCK) * Q1_BLOCK_BYTES ≤
    rowblocksFor rows * (k / Q1_BLOCK) * PACKED_PER_Q1_BLOCK := by
  have hrows : rows ≤ rowblocksFor rows * ROWS_PER_BLOCK := by
    simp only [rowblocksFor, ROWS_PER_BLOCK]
    omega
  calc rows * (k / Q1_BLOCK) * Q1_BLOCK_BYTES
      ≤ rowblocksFor rows * ROWS_PER_BLOCK * (k / Q1_BLOCK) * Q1_BLOCK_BYTES :=
        Nat.mul_le_mul_right _ (Nat.mul_le_mul_right _ hrows)
    _ = rowblocksFor rows * (k / Q1_BLOCK) * PACKED_PER_Q1_BLOCK := by
        rw [packedPerQ1Block_eq, ← Nat.mul_assoc, Nat.mul_right_comm (rowblocksFor rows)]

end Sized

section PackC

variable {sizeBits rows k : Nat} {src : List Byte} (h : Sized sizeBits rows k)
  (hsrc : src.length = rows * (k / Q1_BLOCK) * Q1_BLOCK_BYTES)

include h hsrc

theorem blockOffC_eq {rb lane q : Nat} (hlane : rb * ROWS_PER_BLOCK + lane < rows)
    (hq : q < k / Q1_BLOCK) :
    blockOffC sizeBits (rb * ROWS_PER_BLOCK) lane (k / Q1_BLOCK * Q1_BLOCK_BYTES) q =
      blockOff (k / Q1_BLOCK) (rb * ROWS_PER_BLOCK + lane) q := by
  have hoff := blockOff_le hsrc hlane hq
  have hle : src.length ≤ rowblocksFor rows * (k / Q1_BLOCK) * PACKED_PER_Q1_BLOCK :=
    hsrc ▸ Sized.source_le
  have hsum : blockOff (k / Q1_BLOCK) (rb * ROWS_PER_BLOCK + lane) q =
      (rb * ROWS_PER_BLOCK + lane) * (k / Q1_BLOCK * Q1_BLOCK_BYTES) + q * Q1_BLOCK_BYTES := by
    rw [blockOff, Nat.add_mul, Nat.mul_assoc]
  have hrow : u32 (rb * ROWS_PER_BLOCK + lane) = rb * ROWS_PER_BLOCK + lane :=
    Nat.mod_eq_of_lt (by have := h.rowsLt; omega)
  have hstart : sizeT sizeBits ((rb * ROWS_PER_BLOCK + lane) * (k / Q1_BLOCK * Q1_BLOCK_BYTES)) =
      (rb * ROWS_PER_BLOCK + lane) * (k / Q1_BLOCK * Q1_BLOCK_BYTES) := h.sizeT_eq (by omega)
  have hblock : sizeT sizeBits (q * Q1_BLOCK_BYTES) = q * Q1_BLOCK_BYTES := h.sizeT_eq (by omega)
  rw [blockOffC, hrow, hstart, hblock, ← hsum]
  exact h.sizeT_eq (by omega)

variable {rb q : Nat} (hrb : rb * ROWS_PER_BLOCK < rows) (hq : q < k / Q1_BLOCK) {rowCount : Nat}
  (hcount : ∀ lane < 8, lane < rowCount ↔ rb * ROWS_PER_BLOCK + lane < rows)

include hq hcount

theorem scaleWordC_eq {beat : Nat} (hbeat : beat < 2) :
    scaleWordC sizeBits src (k / Q1_BLOCK * Q1_BLOCK_BYTES) (rb * ROWS_PER_BLOCK) rowCount q beat =
      some (blockWord src rows (k / Q1_BLOCK) rb q beat) := by
  have hread : ∀ l < 4, (if beat * 4 + l < rowCount then
      readLeU16 src
        (blockOffC sizeBits (rb * ROWS_PER_BLOCK) (beat * 4 + l) (k / Q1_BLOCK * Q1_BLOCK_BYTES) q)
      else some 0) = some (laneScale src rows (k / Q1_BLOCK) rb q (beat * 4 + l)) := by
    intro l hl
    have hiff := hcount (beat * 4 + l) (by omega)
    rw [laneScale]
    by_cases hlane : rb * ROWS_PER_BLOCK + (beat * 4 + l) < rows
    · rw [if_pos (hiff.mpr hlane), if_pos hlane, blockOffC_eq h hsrc hlane hq,
        readLeU16_source hsrc hlane hq]
    · rw [if_neg (mt hiff.mp hlane), if_neg hlane]
  rw [blockWord_scales hbeat]
  exact foldlM_read (f := fun (word : BitVec 64) (scale : BitVec 16) l =>
    word ||| scale.setWidth 64 <<< (l * 16)) hread 0

theorem wbitsWordC_eq {s beat : Nat} (hs : s < 4) (hbeat : beat < 4) :
    wbitsWordC sizeBits src (k / Q1_BLOCK * Q1_BLOCK_BYTES) (rb * ROWS_PER_BLOCK)
      rowCount q s beat =
      some (blockWord src rows (k / Q1_BLOCK) rb q (2 + 4 * s + beat)) := by
  have hle : src.length ≤ rowblocksFor rows * (k / Q1_BLOCK) * PACKED_PER_Q1_BLOCK :=
    hsrc ▸ Sized.source_le
  have hread : ∀ l < 2, (if beat * 2 + l < rowCount then
      readLeU32 src (sizeT sizeBits
        (blockOffC sizeBits (rb * ROWS_PER_BLOCK) (beat * 2 + l)
          (k / Q1_BLOCK * Q1_BLOCK_BYTES) q + 2 +
          sizeT sizeBits (s * (Q8_BLOCK / 8))))
      else some 0) = some (laneBits src rows (k / Q1_BLOCK) rb q s (beat * 2 + l)) := by
    intro l hl
    have hiff := hcount (beat * 2 + l) (by omega)
    rw [laneBits]
    by_cases hlane : rb * ROWS_PER_BLOCK + (beat * 2 + l) < rows
    · have hoff : blockOff (k / Q1_BLOCK) (rb * ROWS_PER_BLOCK + (beat * 2 + l)) q +
          18 ≤ src.length :=
        blockOff_le hsrc hlane hq
      have hsub : s * (Q8_BLOCK / 8) = 4 * s := Nat.mul_comm _ _
      rw [if_pos (hiff.mpr hlane), if_pos hlane, blockOffC_eq h hsrc hlane hq, hsub,
        h.sizeT_eq (x := 4 * s) (by omega), h.sizeT_eq (by omega),
        readLeU32_source hsrc hlane hq hs]
    · rw [if_neg (mt hiff.mp hlane), if_neg hlane]
  rw [blockWord_wbits hbeat]
  exact foldlM_read (f := fun (word : BitVec 64) (bits : BitVec 32) l =>
    word ||| bits.setWidth 64 <<< (l * 32)) hread 0

end PackC

/-- The C packer fills the front of the output buffer with the packed weights. -/
theorem packWeightsC_eq {sizeBits rows k : Nat} (h : Sized sizeBits rows k) {src : List Byte}
    (hsrc : src.length = rows * (k / Q1_BLOCK) * Q1_BLOCK_BYTES) {out : List Byte}
    (hout : rowblocksFor rows * (k / Q1_BLOCK) * PACKED_PER_Q1_BLOCK ≤ out.length) :
    packWeightsC sizeBits src rows k out =
      some (0, packed src rows (k / Q1_BLOCK) ++
        out.drop (rowblocksFor rows * (k / Q1_BLOCK) * PACKED_PER_Q1_BLOCK)) := by
  have hbeats : 8 * packedBeats rows (k / Q1_BLOCK) =
      rowblocksFor rows * (k / Q1_BLOCK) * PACKED_PER_Q1_BLOCK := by
    rw [packedBeats, ← Nat.mul_assoc, Nat.mul_comm]
    rfl
  have hwrite : ∀ n < packedBeats rows (k / Q1_BLOCK),
      writeLeU64 sizeBits (outAfter src rows (k / Q1_BLOCK) out n)
        (packedWord src rows (k / Q1_BLOCK) n) =
        some (outAfter src rows (k / Q1_BLOCK) out (n + 1)) := by
    intro n hn
    have hstore :=
      store_filled (packedWord src rows (k / Q1_BLOCK)) (show 8 * (n + 1) ≤ out.length by omega)
    have hcursor : sizeT sizeBits (8 * n + 8) = 8 * (n + 1) := h.sizeT_eq (by omega)
    simp only [writeLeU64, outAfter, hstore, hcursor]
    rfl
  have hblock : ∀ rb < rowblocksFor rows, ∀ q < k / Q1_BLOCK,
      packBlockC sizeBits src (u32 (k / Q1_BLOCK * Q1_BLOCK_BYTES)) (u32 (rb * ROWS_PER_BLOCK))
          (if u32 (rows + 2 ^ 32 - u32 (rb * ROWS_PER_BLOCK)) > ROWS_PER_BLOCK then ROWS_PER_BLOCK
            else u32 (rows + 2 ^ 32 - u32 (rb * ROWS_PER_BLOCK)))
          (outAfter src rows (k / Q1_BLOCK) out (18 * (rb * (k / Q1_BLOCK) + q))) q =
        some (outAfter src rows (k / Q1_BLOCK) out (18 * (rb * (k / Q1_BLOCK) + (q + 1)))) := by
    intro rb hrb q hq
    have hcount := fun lane (hlane : lane < 8) => h.rowCount_iff hrb hlane
    rw [h.rowStart_eq hrb, h.weightRowBytes_eq]
    exact packBlock_eq id hq (beats_fit hrb hq) hwrite (fun beat hbeat =>
      scaleWordC_eq h hsrc hq hcount hbeat)
      fun s hs beat hbeat => wbitsWordC_eq h hsrc hq hcount hs hbeat
  have hrowblocks : u32 (rows + ROWS_PER_BLOCK - 1) / ROWS_PER_BLOCK = rowblocksFor rows := by
    have hrows : u32 (rows + ROWS_PER_BLOCK - 1) = rows + ROWS_PER_BLOCK - 1 :=
      Nat.mod_eq_of_lt h.rowsLt
    rw [hrows, rowblocksFor]
  have hloop : (List.range (rowblocksFor rows)).foldlM
      (packRowblockC sizeBits src rows (k / Q1_BLOCK) (u32 (k / Q1_BLOCK * Q1_BLOCK_BYTES)))
      ⟨0, out⟩ =
        some (outAfter src rows (k / Q1_BLOCK) out (packedBeats rows (k / Q1_BLOCK))) := by
    have hstart : outAfter src rows (k / Q1_BLOCK) out 0 = ⟨0, out⟩ := by simp [outAfter]
    rw [← hstart]
    exact packRowblocks_eq hblock
  have hk : ¬(k = 0 ∨ k % Q1_BLOCK ≠ 0) := by
    have := h.kPos
    have := h.block
    omega
  rw [packWeightsC, if_neg hk, if_neg (by have := h.rowsPos; omega)]
  simp only [hrowblocks, hloop, ← hbeats]
  rfl

/-! ## The Python packer writes the packed weights -/

theorem scaleBits_of_read {src : List Byte} {off : Nat} {scale : BitVec 16}
    (h : readLeU16 src off = some scale) :
    scaleBits src off = .ok scale.toNat := by
  simp only [readLeU16, Option.bind_eq_bind, Option.bind_eq_some_iff, Option.some.injEq] at h
  obtain ⟨b0, h0, b1, h1, rfl⟩ := h
  simp only [scaleBits, index, h0, h1]
  refine congrArg Except.ok ?_
  rw [BitVec.toNat_or, BitVec.toNat_setWidth_of_le (by decide), toNat_part _ (by decide)]

theorem wordBits_of_read {src : List Byte} {base : Nat} {bits : BitVec 32}
    (h : readLeU32 src base = some bits) :
    wordBits src base = .ok bits.toNat := by
  simp only [readLeU32, Option.bind_eq_bind, Option.bind_eq_some_iff, Option.some.injEq] at h
  obtain ⟨b0, h0, b1, h1, b2, h2, b3, h3, rfl⟩ := h
  simp only [wordBits, index, h0, h1, h2, h3]
  refine congrArg Except.ok ?_
  rw [BitVec.toNat_or, BitVec.toNat_or, BitVec.toNat_or, BitVec.toNat_setWidth_of_le (by decide),
    toNat_part _ (by decide), toNat_part _ (by decide), toNat_part _ (by decide)]

section PackPy

variable {rows bpr : Nat} {src : List Byte} (hsrc : src.length = rows * bpr * Q1_BLOCK_BYTES)
  {rb q : Nat} (hq : q < bpr) {rowCount : Nat}
    (hcount : ∀ lane < 8, lane < rowCount ↔ rb * ROWS_PER_BLOCK + lane < rows)

include hsrc hq hcount

theorem scaleWordPy_eq {beat : Nat} (hbeat : beat < 2) :
    scaleWordPy src (bpr * Q1_BLOCK_BYTES) (rb * ROWS_PER_BLOCK) rowCount q beat =
      .ok (blockWord src rows bpr rb q beat).toNat := by
  have hread : ∀ l < 4, (if beat * 4 + l < rowCount then
      scaleBits src ((rb * ROWS_PER_BLOCK + (beat * 4 + l)) * (bpr * Q1_BLOCK_BYTES) +
        q * Q1_BLOCK_BYTES)
      else .ok 0) = .ok (laneScale src rows bpr rb q (beat * 4 + l)).toNat := by
    intro l hl
    have hiff := hcount (beat * 4 + l) (by omega)
    rw [laneScale]
    by_cases hlane : rb * ROWS_PER_BLOCK + (beat * 4 + l) < rows
    · rw [if_pos (hiff.mpr hlane), if_pos hlane, ← Nat.mul_assoc, ← Nat.add_mul]
      exact scaleBits_of_read (readLeU16_source hsrc hlane hq)
    · rw [if_neg (mt hiff.mp hlane), if_neg hlane]
      rfl
  rw [blockWord_scales hbeat, toNat_pack16]
  exact foldlM_read (f := fun (word bits : Nat) l => word ||| bits <<< (l * 16)) hread 0

theorem wbitsWordPy_eq {s beat : Nat} (hs : s < 4) (hbeat : beat < 4) :
    wbitsWordPy src (bpr * Q1_BLOCK_BYTES) (rb * ROWS_PER_BLOCK) rowCount q s beat =
      .ok (blockWord src rows bpr rb q (2 + 4 * s + beat)).toNat := by
  have hread : ∀ l < 2, (if beat * 2 + l < rowCount then
      wordBits src ((rb * ROWS_PER_BLOCK + (beat * 2 + l)) * (bpr * Q1_BLOCK_BYTES) +
        q * Q1_BLOCK_BYTES + 2 +
        s * (Q8_BLOCK / 8))
      else .ok 0) = .ok (laneBits src rows bpr rb q s (beat * 2 + l)).toNat := by
    intro l hl
    have hiff := hcount (beat * 2 + l) (by omega)
    rw [laneBits]
    by_cases hlane : rb * ROWS_PER_BLOCK + (beat * 2 + l) < rows
    · have hsub : s * (Q8_BLOCK / 8) = 4 * s := Nat.mul_comm _ _
      rw [if_pos (hiff.mpr hlane), if_pos hlane, ← Nat.mul_assoc, ← Nat.add_mul, hsub]
      exact wordBits_of_read (readLeU32_source hsrc hlane hq hs)
    · rw [if_neg (mt hiff.mp hlane), if_neg hlane]
      rfl
  rw [blockWord_wbits hbeat, toNat_pack32]
  exact foldlM_read (f := fun (word bits : Nat) l => word ||| bits <<< (l * 32)) hread 0

end PackPy

/-- The Python packer returns the packed weights. -/
theorem packWeights_eq {rows k : Nat} (hk : k % Q1_BLOCK = 0) {src : List Byte}
    (hsrc : src.length = rows * (k / Q1_BLOCK) * Q1_BLOCK_BYTES) :
    packWeights src rows k = .ok (packed src rows (k / Q1_BLOCK)) := by
  let zeros : List Byte :=
    List.replicate (rowblocksFor rows * (k / Q1_BLOCK) * PACKED_PER_Q1_BLOCK) 0
  have hlen : zeros.length = 8 * packedBeats rows (k / Q1_BLOCK) := by
    rw [List.length_replicate, packedBeats, ← Nat.mul_assoc, Nat.mul_comm]
    rfl
  -- one beat, then the blocks of a rowblock, then the loop over the rowblocks
  have hwrite : ∀ n < packedBeats rows (k / Q1_BLOCK),
      packInto (outAfter src rows (k / Q1_BLOCK) zeros n)
        (packedWord src rows (k / Q1_BLOCK) n).toNat =
        .ok (outAfter src rows (k / Q1_BLOCK) zeros (n + 1)) := by
    intro n hn
    have hstore :=
      store_filled (packedWord src rows (k / Q1_BLOCK)) (show 8 * (n + 1) ≤ zeros.length by omega)
    simp only [packInto, outAfter, BitVec.isLt, if_true, BitVec.ofNat_toNat,
      BitVec.setWidth_eq, hstore]
    rfl
  have hblock : ∀ rb < rowblocksFor rows, ∀ q < k / Q1_BLOCK,
      packBlockPy src (k / Q1_BLOCK * Q1_BLOCK_BYTES) (rb * ROWS_PER_BLOCK)
          (min ROWS_PER_BLOCK (rows - rb * ROWS_PER_BLOCK))
          (outAfter src rows (k / Q1_BLOCK) zeros (18 * (rb * (k / Q1_BLOCK) + q))) q =
        .ok (outAfter src rows (k / Q1_BLOCK) zeros (18 * (rb * (k / Q1_BLOCK) + (q + 1)))) := by
    intro rb hrb q hq
    have hcount : ∀ lane < 8, lane < min ROWS_PER_BLOCK (rows - rb * ROWS_PER_BLOCK) ↔
        rb * ROWS_PER_BLOCK + lane < rows := by
      intro lane hlane
      have hwhole : lane < ROWS_PER_BLOCK := hlane
      omega
    exact packBlock_eq BitVec.toNat hq (beats_fit hrb hq) hwrite
      (fun beat hbeat => scaleWordPy_eq hsrc hq hcount hbeat) fun s hs beat hbeat =>
        wbitsWordPy_eq hsrc hq hcount hs hbeat
  have hloop : (List.range (rowblocksFor rows)).foldlM
      (packRowblockPy src rows (k / Q1_BLOCK) (k / Q1_BLOCK * Q1_BLOCK_BYTES)) ⟨0, zeros⟩ =
        .ok (outAfter src rows (k / Q1_BLOCK) zeros (packedBeats rows (k / Q1_BLOCK))) := by
    have hstart : outAfter src rows (k / Q1_BLOCK) zeros 0 = ⟨0, zeros⟩ := by simp [outAfter]
    rw [← hstart]
    exact packRowblocks_eq hblock
  have henough : ¬src.length < rows * (k / Q1_BLOCK * Q1_BLOCK_BYTES) := by
    rw [hsrc, Nat.mul_assoc]
    exact Nat.lt_irrefl _
  have hfull : filled (packedWord src rows (k / Q1_BLOCK)) zeros (packedBeats rows (k / Q1_BLOCK)) =
      packed src rows (k / Q1_BLOCK) := by
    rw [filled, ← hlen, List.drop_length, List.append_nil, packed]
  have hok : blocksPerRow k = .ok (k / Q1_BLOCK) := blocksPerRow_ok hk
  rw [packWeights, hok, ← hfull]
  show (if _ then _ else _) = _
  rw [if_neg henough]
  simp only [zeros] at hloop
  simp only [hloop]
  rfl

end Layout
