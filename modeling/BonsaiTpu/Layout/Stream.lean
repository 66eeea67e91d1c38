-- SUMMARY: The acts packer, the merge of acts into packed weights and the legacy packer of whole columns (`q1a8_layout.c`, `native.c`).
import BonsaiTpu.Layout.Pack

/-!
# Packing a matmul stream

The interleaved stream holds, for each Q1 block of a rowblock, the scales of the
weights and four sub-blocks of activations, their scale and weight bits. The legacy
packer writes it from the weights and the quantised columns. The split path packs the
weights once and merges the activations of a column into them, or packs the
activations of a column alone. A quant is its byte, a scale its fp16 bits. An access
outside a buffer has no result.
-/

namespace Layout

open Words

/-- Store at the pointer and step past it. -/
def storeAt (st : Out) (bytes : List Byte) : Option Out := do
  let stored ← store st.bytes st.cursor bytes
  some ⟨st.cursor + bytes.length, stored⟩

/-- `memcpy` to the pointer, and the step after it. -/
def memcpy (st : Out) (mem : List Byte) (off n : Nat) : Option Out :=
  if off + n ≤ mem.length then storeAt st ((mem.drop off).take n) else none

/-- `rowblocks` of the C packers, which wraps. -/
def rowblocksC (rows : Nat) : Nat := u32 (rows + ROWS_PER_BLOCK - 1) / ROWS_PER_BLOCK

/-! ## Activations of a column -/

section Acts

variable (sizeBits : Nat) (quants : List Byte) (scaleBits : List (BitVec 16))

/-- The body of the loop over sub-blocks of `bonsai_q1a8_pack_acts`. -/
def packActsSub (q1 : Nat) (s : Out) (sub : Nat) : Option Out := do
  let q8Idx := u32 (u32 (q1 * Q8_SUBBLOCKS) + sub)
  let s ← memcpy s quants (sizeT sizeBits (q8Idx * Q8_BLOCK)) ACTS_BYTES
  storeAt s (leBytes ((← scaleBits[q8Idx]?).setWidth 64))

/-- `bonsai_q1a8_pack_acts`: the return code and the output buffer. -/
def packActsC (k : Nat) (out : List Byte) : Option (Int × List Byte) :=
  if k = 0 ∨ k % Q1_BLOCK ≠ 0 then some (-2, out)
  else do
    let blocksPerRow := k / Q1_BLOCK
    let s ← (List.range blocksPerRow).foldlM
      (fun s q1 => (List.range Q8_SUBBLOCKS).foldlM (packActsSub sizeBits quants scaleBits q1) s)
      ⟨0, out⟩
    some (0, s.bytes)

end Acts

/-! ## Merging -/

/-- The read pointer into the packed weights and the stream. -/
structure MergeState where
  p : Nat
  s : Out

section Merge

variable (packedWeights quants : List Byte) (scaleBits : List (BitVec 16))

/-- The body of the loop over sub-blocks of `bonsai_q1a8_merge_acts`. -/
def mergeSub (q1 : Nat) (st : MergeState) (sub : Nat) : Option MergeState := do
  let aOff := u32 (u32 (q1 * Q1_BLOCK) + sub * Q8_BLOCK)
  let s ← memcpy st.s quants aOff ACTS_BYTES
  let scaleIndex := u32 (u32 (q1 * Q1_BLOCK) + sub * Q8_BLOCK) / Q8_BLOCK
  let s ← storeAt s (leBytes ((← scaleBits[scaleIndex]?).setWidth 64))
  let s ← memcpy s packedWeights st.p WBITS_BYTES
  some ⟨st.p + WBITS_BYTES, s⟩

/-- The body of the loop over Q1 blocks. -/
def mergeBlock (st : MergeState) (q1 : Nat) : Option MergeState := do
  let s ← memcpy st.s packedWeights st.p SCALES_BYTES
  (List.range Q8_SUBBLOCKS).foldlM (mergeSub packedWeights quants scaleBits q1)
    ⟨st.p + SCALES_BYTES, s⟩

/-- `bonsai_q1a8_merge_acts`: the return code and the stream. -/
def mergeActsC (rows k : Nat) (out : List Byte) : Option (Int × List Byte) :=
  if k = 0 ∨ k % Q1_BLOCK ≠ 0 then some (-2, out)
  else if rows = 0 then some (-3, out)
  else do
    let blocksPerRow := k / Q1_BLOCK
    let st ← (List.range (rowblocksC rows)).foldlM
      (fun st _ => (List.range blocksPerRow).foldlM (mergeBlock packedWeights quants scaleBits) st)
      ⟨0, ⟨0, out⟩⟩
    some (0, st.s.bytes)

end Merge

/-! ## The legacy packer -/

section Legacy

variable (sizeBits : Nat) (weights quants : List Byte) (scaleBits : List (BitVec 16))

/-- A beat of eight activations. -/
def actsWord (q8Base beat : Nat) : Option (BitVec 64) :=
  (List.range 8).foldlM (fun word byte => do
    let v ← quants[u32 (u32 (q8Base + beat * 8) + byte)]?
    some (word ||| v.setWidth 64 <<< (byte * 8))) 0

/-- A beat of weight bits, where the sub-block is given by its first column. -/
def wbitsWordLegacy (weightRowBytes rowStart rowCount q1 q8Local beat : Nat) : Option (BitVec 64) :=
  (List.range 2).foldlM (fun word loc => do
    let lane := beat * 2 + loc
    let bits ←
      (if lane < rowCount then
        readLeU32 weights
          (sizeT sizeBits (blockOffC sizeBits rowStart lane weightRowBytes q1 + 2 + q8Local / 8))
      else some 0)
    some (word ||| bits.setWidth 64 <<< (loc * 32))) 0

/-- The body of the loop over sub-blocks of `pack_rowblock`. -/
def packRowblockSub (weightRowBytes rowStart rowCount q1 : Nat) (st : Out) (sub : Nat) :
    Option Out := do
  let q8Local := sub * Q8_BLOCK
  let q8Base := u32 (u32 (q1 * Q1_BLOCK) + q8Local)
  let st ← (List.range 4).foldlM (fun st beat =>
    do writeLeU64 sizeBits st (← actsWord quants q8Base beat)) st
  let st ← writeLeU64 sizeBits st ((← scaleBits[q8Base / Q8_BLOCK]?).setWidth 64)
  (List.range WBITS_BEATS).foldlM (fun st beat => do
    writeLeU64 sizeBits st
      (← wbitsWordLegacy sizeBits weights weightRowBytes rowStart rowCount q1 q8Local beat)) st

/-- The body of the loop over Q1 blocks. -/
def packRowblockQ1 (weightRowBytes rowStart rowCount : Nat) (st : Out) (q1 : Nat) : Option Out := do
  let st ← (List.range SCALE_BEATS).foldlM (fun st beat => do
    writeLeU64 sizeBits st (← scaleWordC sizeBits weights weightRowBytes rowStart rowCount q1 beat))
      st
  (List.range Q8_SUBBLOCKS).foldlM
    (packRowblockSub sizeBits weights quants scaleBits weightRowBytes rowStart rowCount q1) st

/-- `pack_rowblock`: `out` is the buffer from the pointer on. -/
def packRowblock (rowStart rowCount weightRowBytes blocksPerRow : Nat) (out : List Byte) :
    Option (List Byte) := do
  let st ← (List.range blocksPerRow).foldlM
    (packRowblockQ1 sizeBits weights quants scaleBits weightRowBytes rowStart rowCount) ⟨0, out⟩
  some st.bytes

/-- The body of the loop over rowblocks of a column, which starts at `colOut`. -/
def packColumnRowblock (rows weightRowBytes blocksPerRow rowblockBytes colOut : Nat)
    (stream : List Byte) (rb : Nat) :
    Option (List Byte) := do
  let rowStart := u32 (rb * ROWS_PER_BLOCK)
  let left := u32 (rows + 2 ^ 32 - rowStart)
  let rowCount := if left > ROWS_PER_BLOCK then ROWS_PER_BLOCK else left
  let base := colOut + sizeT sizeBits (rb * rowblockBytes)
  let tail ← packRowblock sizeBits weights quants scaleBits rowStart rowCount weightRowBytes
    blocksPerRow (stream.drop base)
  some (stream.take base ++ tail)

end Legacy

/-- `bonsai_pack_matmul_q1a8_stream`: the return code and the stream. -/
def packMatmulStreamC (sizeBits : Nat) (weights quants : List Byte) (scaleBits : List (BitVec 16))
    (rows cols k : Nat) (out : List Byte) : Option (Int × List Byte) :=
  if rows = 0 ∨ cols = 0 then some (-1, out)
  else if k = 0 ∨ k % Q1_BLOCK ≠ 0 then some (-2, out)
  else do
    let blocksPerRow := k / Q1_BLOCK
    let weightRowBytes := u32 (blocksPerRow * Q1_BLOCK_BYTES)
    let scalesPerCol := k / Q8_BLOCK
    let rowblocksPerCol := rowblocksC rows
    let rowblockBytes := sizeT sizeBits (STREAM_PER_Q1_BLOCK * blocksPerRow)
    let colStride := sizeT sizeBits (rowblockBytes * rowblocksPerCol)
    let stream ← (List.range cols).foldlM (fun stream col =>
      let colQuants := quants.drop (sizeT sizeBits (col * k))
      let colScales := scaleBits.drop (sizeT sizeBits (col * scalesPerCol))
      (List.range rowblocksPerCol).foldlM
        (packColumnRowblock sizeBits weights colQuants colScales rows weightRowBytes
          blocksPerRow rowblockBytes
          (sizeT sizeBits (col * colStride))) stream) out
    some (0, stream)

/-! ## What the stream is -/

section Spec

variable (src : List Byte) (rows bpr : Nat) (quants : List Byte) (scaleBits : List (BitVec 16))

/-- The activations of a sub-block and the beat of their scale. -/
def actsBytes (q s : Nat) : List Byte :=
  (quants.drop (q * Q1_BLOCK + s * Q8_BLOCK)).take ACTS_BYTES ++
    leBytes ((scaleBits[q * Q8_SUBBLOCKS + s]?.getD 0).setWidth 64)

/-- The beats of scales of a Q1 block. -/
def scalesBytes (rb q : Nat) : List Byte := bytesOf (blockWord src rows bpr rb q) SCALE_BEATS

/-- The beats of weight bits of a sub-block. -/
def wbitsBytes (rb q s : Nat) : List Byte :=
  bytesOf (fun beat => blockWord src rows bpr rb q (2 + 4 * s + beat)) WBITS_BEATS

/-- A Q1 block of a rowblock in the interleaved stream. -/
def streamBlock (rb q : Nat) : List Byte :=
  scalesBytes src rows bpr rb q ++
    (List.range Q8_SUBBLOCKS).flatMap fun s =>
      actsBytes quants scaleBits q s ++ wbitsBytes src rows bpr rb q s

/-- A rowblock of the interleaved stream. -/
def streamRowblock (rb : Nat) : List Byte :=
  (List.range bpr).flatMap (streamBlock src rows bpr quants scaleBits rb)

/-- The interleaved stream of a column, of `n` rowblocks. -/
def stream (n : Nat) : List Byte :=
  (List.range n).flatMap (streamRowblock src rows bpr quants scaleBits)

/-- The acts stream of a column. -/
def actsStream : List Byte := (List.range bpr).flatMap fun q =>
  (List.range Q8_SUBBLOCKS).flatMap (actsBytes quants scaleBits q)

end Spec

/-- The beats of the packed weights and of the acts stream, for each rowblock and Q1 block in
    the order of the merged format. -/
def interleave (weights acts : List Byte) (rowblocks bpr : Nat) : List Byte :=
  (List.range rowblocks).flatMap fun rb => (List.range bpr).flatMap fun q =>
    let block := weights.drop ((rb * bpr + q) * PACKED_PER_Q1_BLOCK)
    block.take SCALES_BYTES ++ (List.range Q8_SUBBLOCKS).flatMap fun s =>
      (acts.drop (q * ACTS_PER_Q1_BLOCK + s * (ACTS_BYTES + ACT_SCALE_BYTES))).take
        (ACTS_BYTES + ACT_SCALE_BYTES) ++
        (block.drop (SCALES_BYTES + s * WBITS_BYTES)).take WBITS_BYTES

end Layout
