-- SUMMARY: The split path and the legacy packer write the same interleaved stream.
import BonsaiTpu.Base.Writer
import BonsaiTpu.Layout.Parts
import BonsaiTpu.Layout.Stream

/-!
# The stream of both paths

`stream` says what the stream of a column is. The legacy packer writes the streams of
the columns one after the other (`packMatmulStreamC_eq`), the merge of the packed
weights with a column writes the stream of that column (`mergeActsC_eq`), and
interleaving the packed weights with the acts stream gives it too
(`interleave_eq`).
-/

namespace Layout

open Words Writer

/-! ## Stores -/

/-- The buffer after `done` has been written to its front. -/
def wrote (out done : List Byte) : Out := ⟨done.length, done ++ out.drop done.length⟩

section Stores

variable {out : List Byte} {pos : Nat}

theorem store_wrote {done bytes : List Byte} (h : done.length + bytes.length ≤ out.length) :
    store (wrote out done).bytes (wrote out done).cursor bytes =
      some (wrote out (done ++ bytes)).bytes := by
  have hfit : done.length + bytes.length ≤ (done ++ out.drop done.length).length := by
    rw [List.length_append, List.length_drop]
    omega
  have hafter : (done ++ out.drop done.length).drop (done.length + bytes.length) =
      out.drop (done ++ bytes).length := by
    rw [List.drop_append, List.drop_of_length_le (Nat.le_add_right _ _), Nat.add_sub_cancel_left,
      List.nil_append, List.drop_drop, List.length_append]
  show store (done ++ out.drop done.length) done.length bytes = _
  rw [store, if_pos hfit, List.take_left, hafter]
  rfl

theorem storeAt_writes (bytes : List Byte) :
    Writes out.length pos (storeAt · bytes) (wrote out) (wrote out) bytes := by
  intro done hdone hroom
  show storeAt (wrote out done) bytes = _
  rw [storeAt, store_wrote (by omega)]
  simp only [Option.bind_eq_bind, Option.bind_some, wrote, List.length_append]

theorem memcpy_writes {mem : List Byte} {off n : Nat} (h : off + n ≤ mem.length) :
    Writes out.length pos (memcpy · mem off n) (wrote out) (wrote out) ((mem.drop off).take n) := by
  intro done hdone hroom
  show memcpy (wrote out done) mem off n = _
  rw [memcpy, if_pos h]
  exact storeAt_writes _ done hdone hroom

/-- The cursor of a store inside the buffer does not wrap. -/
theorem writeLeU64_writes {sizeBits : Nat} (hsize : out.length < 2 ^ sizeBits) (word : BitVec 64) :
    Writes out.length pos (writeLeU64 sizeBits · word) (wrote out) (wrote out) (leBytes word) := by
  intro done hdone hroom
  have hlen : (leBytes word).length = 8 := rfl
  have hcursor : sizeT sizeBits (done.length + 8) = (done ++ leBytes word).length := by
    rw [List.length_append, hlen]
    exact sizeT_of_lt (by omega)
  show writeLeU64 sizeBits (wrote out done) word = _
  rw [writeLeU64, store_wrote (by omega)]
  simp only [Option.bind_eq_bind, Option.bind_some, wrote, hcursor]

/-- A loop that stores a word an iteration. -/
theorem writeWords_writes (pos : Nat) {sizeBits : Nat} (hsize : out.length < 2 ^ sizeBits) {n : Nat}
    {read : Nat → Option (BitVec 64)}
    {word : Nat → BitVec 64} (hread : ∀ beat < n, read beat = some (word beat)) :
    Writes out.length pos (fun st =>
      (List.range n).foldlM (fun st beat => do writeLeU64 sizeBits st (← read beat)) st)
      (wrote out) (wrote out) (bytesOf word n) := by
  refine Writes.range (fun _ => wrote out) (m := 8) (fun _ _ => rfl) fun beat hbeat => ?_
  simp only [hread beat hbeat, Option.bind_eq_bind, Option.bind_some]
  exact writeLeU64_writes hsize (word beat)

end Stores

/-! ## Activations -/

section Acts

variable {k : Nat} {quants : List Byte} {scaleBits : List (BitVec 16)}

/-- The quants and scales of a column of `k` columns of weights. -/
structure Column (k : Nat) (quants : List Byte) (scaleBits : List (BitVec 16)) : Prop where
  kLt : k < 2 ^ 32
  block : k % Q1_BLOCK = 0
  quantsLen : k ≤ quants.length
  scalesLen : k / Q8_BLOCK ≤ scaleBits.length

namespace Column

variable (h : Column k quants scaleBits) {q s : Nat} (hq : q < k / Q1_BLOCK) (hs : s < 4)

include h hq hs

theorem quants_le : q * Q1_BLOCK + s * Q8_BLOCK + ACTS_BYTES ≤ quants.length := by
  have hlen := h.quantsLen
  simp only [Q1_BLOCK, Q8_BLOCK, ACTS_BYTES] at *
  omega

theorem length_actsBytes :
    (actsBytes quants scaleBits q s).length = ACTS_BYTES + ACT_SCALE_BYTES := by
  have hle := h.quants_le hq hs
  have hscale : ∀ word : BitVec 64, (leBytes word).length = ACT_SCALE_BYTES := fun _ => rfl
  rw [actsBytes, List.length_append, List.length_take, List.length_drop, hscale,
    Nat.min_eq_left (by omega)]

theorem exists_scale : ∃ scale, scaleBits[q * Q8_SUBBLOCKS + s]? = some scale := by
  have hlen := h.scalesLen
  have hblock := h.block
  have hlt : q * Q8_SUBBLOCKS + s < scaleBits.length := by
    simp only [Q1_BLOCK, Q8_BLOCK, Q8_SUBBLOCKS] at *
    omega
  exact ⟨_, List.getElem?_eq_getElem hlt⟩

/-- The index arithmetic of the packers does not wrap. -/
theorem aOff_eq : u32 (u32 (q * Q1_BLOCK) + s * Q8_BLOCK) = q * Q1_BLOCK + s * Q8_BLOCK := by
  have hk := h.kLt
  simp only [u32, Q1_BLOCK, Q8_BLOCK] at *
  omega

theorem q8Idx_eq : u32 (u32 (q * Q8_SUBBLOCKS) + s) = q * Q8_SUBBLOCKS + s := by
  have hk := h.kLt
  simp only [u32, Q1_BLOCK, Q8_BLOCK, Q8_SUBBLOCKS] at *
  omega

omit h hq hs in
theorem scaleIndex_eq : (q * Q1_BLOCK + s * Q8_BLOCK) / Q8_BLOCK = q * Q8_SUBBLOCKS + s := by
  simp only [Q1_BLOCK, Q8_BLOCK, Q8_SUBBLOCKS]
  omega

/-- A beat of the activations of a sub-block. -/
theorem actsWord_eq {beat : Nat} (hbeat : beat < 4) :
    actsWord quants (q * Q1_BLOCK + s * Q8_BLOCK) beat =
      some (pack8 fun i => quants[q * Q1_BLOCK + s * Q8_BLOCK + beat * 8 + i]?.getD 0) := by
  have hle := h.quants_le hq hs
  have hk := h.kLt
  have hread : ∀ i < 8, quants[u32 (u32 (q * Q1_BLOCK + s * Q8_BLOCK + beat * 8) + i)]? =
      some (quants[q * Q1_BLOCK + s * Q8_BLOCK + beat * 8 + i]?.getD 0) := by
    intro i hi
    have hindex : u32 (u32 (q * Q1_BLOCK + s * Q8_BLOCK + beat * 8) + i) =
        q * Q1_BLOCK + s * Q8_BLOCK + beat * 8 + i := by
      simp only [u32, Q1_BLOCK, Q8_BLOCK] at *
      omega
    have hlt : q * Q1_BLOCK + s * Q8_BLOCK + beat * 8 + i < quants.length := by
      simp only [Q1_BLOCK, Q8_BLOCK, ACTS_BYTES] at *
      omega
    rw [hindex, List.getElem?_eq_getElem hlt, Option.getD_some]
  exact foldlM_read (f := fun (word : BitVec 64) (v : Byte) i =>
    word ||| v.setWidth 64 <<< (i * 8)) hread 0

/-- The beats of the activations are the quants. -/
theorem bytesOf_actsWord :
    bytesOf (fun beat => pack8 fun i =>
      quants[q * Q1_BLOCK + s * Q8_BLOCK + beat * 8 + i]?.getD 0) 4 =
      (quants.drop (q * Q1_BLOCK + s * Q8_BLOCK)).take ACTS_BYTES := by
  have hle := h.quants_le hq hs
  have hacts : ACTS_BYTES = 4 * 8 := rfl
  rw [bytesOf, hacts, take_pieces]
  refine List.flatMap_congr fun beat hbeat => ?_
  have hbeat' : beat < 4 := List.mem_range.mp hbeat
  rw [leBytes_pack8, List.drop_drop]
  refine List.ext_getElem? fun i => ?_
  rcases Nat.lt_or_ge i 8 with hi | hi
  · have hlt : q * Q1_BLOCK + s * Q8_BLOCK + beat * 8 + i < quants.length := by omega
    rw [List.getElem?_map, List.getElem?_range hi, Option.map_some, List.getElem?_take_of_lt hi,
      List.getElem?_drop, List.getElem?_eq_getElem hlt, Option.getD_some]
  · rw [List.getElem?_take_eq_none hi, List.getElem?_eq_none (by simpa using hi)]

end Column

section PackActs

variable {sizeBits : Nat} (h : Column k quants scaleBits) (hquants : quants.length < 2 ^ sizeBits)
    {out : List Byte}

include h hquants

theorem packActsSub_writes {q s pos : Nat} (hq : q < k / Q1_BLOCK) (hs : s < 4) :
    Writes out.length pos (packActsSub sizeBits quants scaleBits q · s) (wrote out) (wrote out)
      (actsBytes quants scaleBits q s) := by
  have hle := h.quants_le hq hs
  have hindex : (q * Q8_SUBBLOCKS + s) * Q8_BLOCK = q * Q1_BLOCK + s * Q8_BLOCK := by
    simp only [Q1_BLOCK, Q8_BLOCK, Q8_SUBBLOCKS]
    omega
  have hoff : sizeT sizeBits (q * Q1_BLOCK + s * Q8_BLOCK) = q * Q1_BLOCK + s * Q8_BLOCK :=
    sizeT_of_lt (by omega)
  obtain ⟨scale, hscale⟩ := h.exists_scale hq hs
  simp only [packActsSub, h.q8Idx_eq hq hs, hindex, hoff, hscale, actsBytes, Option.getD_some]
  exact (memcpy_writes hle).bind (storeAt_writes _)

omit hquants in
theorem length_actsBlock {q : Nat} (hq : q < k / Q1_BLOCK) :
    ((List.range Q8_SUBBLOCKS).flatMap (actsBytes quants scaleBits q)).length = ACTS_PER_Q1_BLOCK :=
  length_pieces _ fun _ hs => h.length_actsBytes hq hs

omit hquants in
theorem length_actsStream :
    (actsStream (k / Q1_BLOCK) quants scaleBits).length = k / Q1_BLOCK * ACTS_PER_Q1_BLOCK :=
  length_pieces _ fun _ hq => length_actsBlock h hq

/-- The acts packer fills the front of the output buffer with the acts stream. -/
theorem packActsC_eq (hk : 1 ≤ k) (hout : k / Q1_BLOCK * ACTS_PER_Q1_BLOCK ≤ out.length) :
    packActsC sizeBits quants scaleBits k out =
      some (0, actsStream (k / Q1_BLOCK) quants scaleBits ++
        out.drop (k / Q1_BLOCK * ACTS_PER_Q1_BLOCK)) := by
  have hlen := length_actsStream h
  have hloop : Writes out.length 0 (fun s => (List.range (k / Q1_BLOCK)).foldlM
      (fun s q1 => (List.range Q8_SUBBLOCKS).foldlM (packActsSub sizeBits quants scaleBits q1) s) s)
      (wrote out) (wrote out) (actsStream (k / Q1_BLOCK) quants scaleBits) :=
    Writes.range (fun _ => wrote out) (fun _ hq => length_actsBlock h hq) fun q hq =>
      Writes.range (fun _ => wrote out) (fun _ hs => h.length_actsBytes hq hs) fun s hs =>
        packActsSub_writes h hquants hq hs
  have hblock := h.block
  rw [packActsC, if_neg (by omega), ← hlen]
  exact (hloop.map fun s => ((0 : Int), s.bytes)).run (by omega)

end PackActs

end Acts

/-! ## Weights -/

section Weights

/-- A run of words of a stream of words. -/
theorem slice_bytesOf (word : Nat → BitVec 64) (rest : List Byte) {n a m : Nat} (h : a + m ≤ n) :
    ((bytesOf word n ++ rest).drop (8 * a)).take (8 * m) = bytesOf (fun i => word (a + i)) m := by
  rw [Nat.mul_comm 8 m, take_pieces]
  refine List.flatMap_congr fun i hi => ?_
  have hi' : i < m := List.mem_range.mp hi
  have hpos : 8 * a + i * 8 = (a + i) * 8 := by omega
  rw [List.drop_drop, hpos]
  exact slice_pieces (fun i => leBytes (word i)) (m := 8) (fun _ _ => rfl) rest
    (show a + i < n by omega)

theorem bytesOf_congr {word word' : Nat → BitVec 64} {n : Nat} (h : ∀ i < n, word i = word' i) :
    bytesOf word n = bytesOf word' n :=
  List.flatMap_congr fun i hi => congrArg leBytes (h i (List.mem_range.mp hi))

/-- The buffer holds the packed beats of `n` rowblocks at its front. -/
def HoldsBlocks (weights src : List Byte) (rows bpr n : Nat) : Prop :=
  ∀ rb < n, ∀ q < bpr, (weights.drop ((rb * bpr + q) * PACKED_PER_Q1_BLOCK)).take
    PACKED_PER_Q1_BLOCK =
    bytesOf (blockWord src rows bpr rb q) 18

theorem holdsBlocks_packed {src : List Byte} {rows bpr : Nat} (rest : List Byte) :
    HoldsBlocks (packed src rows bpr ++ rest) src rows bpr (rowblocksFor rows) := by
  intro rb hrb q hq
  have hpos : (rb * bpr + q) * PACKED_PER_Q1_BLOCK = 8 * (18 * (rb * bpr + q)) := by
    rw [← Nat.mul_assoc, Nat.mul_comm]
    rfl
  have hsize : PACKED_PER_Q1_BLOCK = 8 * 18 := rfl
  have hfit := beats_fit hrb hq
  rw [hpos, hsize, packed, slice_bytesOf _ rest (by omega)]
  exact bytesOf_congr fun t ht => packedWord_block hq ht

section

variable {weights src : List Byte} {rows bpr n : Nat} (h : HoldsBlocks weights src rows bpr n)
    {rb q : Nat} (hrb : rb < n)
  (hq : q < bpr)

include h hrb hq

theorem HoldsBlocks.length_le :
    (rb * bpr + q) * PACKED_PER_Q1_BLOCK + PACKED_PER_Q1_BLOCK ≤ weights.length := by
  have hlen := congrArg List.length (h rb hrb q hq)
  rw [List.length_take, List.length_drop, length_bytesOf] at hlen
  have hsize : PACKED_PER_Q1_BLOCK = 8 * 18 := rfl
  omega

/-- A run of beats of a Q1 block. -/
theorem HoldsBlocks.slice {t m : Nat} (ht : t + m ≤ 18) :
    (weights.drop ((rb * bpr + q) * PACKED_PER_Q1_BLOCK + 8 * t)).take (8 * m) =
      bytesOf (fun i => blockWord src rows bpr rb q (t + i)) m := by
  have hblock := slice_bytesOf (blockWord src rows bpr rb q) [] ht
  rw [List.append_nil, ← h rb hrb q hq, List.drop_take, List.take_take, List.drop_drop] at hblock
  have hsize : PACKED_PER_Q1_BLOCK = 8 * 18 := rfl
  rwa [Nat.min_eq_left (by omega)] at hblock

theorem HoldsBlocks.scales :
    (weights.drop ((rb * bpr + q) * PACKED_PER_Q1_BLOCK)).take SCALES_BYTES =
      scalesBytes src rows bpr rb q := by
  have hslice := h.slice hrb hq (t := 0) (m := 2) (by decide)
  simp only [Nat.zero_add] at hslice
  exact hslice

theorem HoldsBlocks.wbits {s : Nat} (hs : s < 4) :
    (weights.drop ((rb * bpr + q) * PACKED_PER_Q1_BLOCK + (SCALES_BYTES + s * WBITS_BYTES))).take
      WBITS_BYTES =
      wbitsBytes src rows bpr rb q s := by
  have hslice := h.slice hrb hq (t := 2 + 4 * s) (m := 4) (by omega)
  have hpos : 8 * (2 + 4 * s) = SCALES_BYTES + s * WBITS_BYTES := by
    show 8 * (2 + 4 * s) = 16 + s * 32
    omega
  rw [hpos] at hslice
  exact hslice

end

end Weights

/-! ## Merging and interleaving -/

section Merge

variable {k rows n : Nat} {weights src quants : List Byte} {scaleBits : List (BitVec 16)}
    (h : Column k quants scaleBits)
  (hweights : HoldsBlocks weights src rows (k / Q1_BLOCK) n)

include h

theorem length_streamSub {rb q s : Nat} (hq : q < k / Q1_BLOCK) (hs : s < 4) :
    (actsBytes quants scaleBits q s ++ wbitsBytes src rows (k / Q1_BLOCK) rb q s).length =
      SUBBLOCK_STREAM_BYTES := by
  rw [List.length_append, h.length_actsBytes hq hs, wbitsBytes, length_bytesOf]
  rfl

theorem length_streamBlock {rb q : Nat} (hq : q < k / Q1_BLOCK) :
    (streamBlock src rows (k / Q1_BLOCK) quants scaleBits rb q).length = STREAM_PER_Q1_BLOCK := by
  have hsubs : ((List.range Q8_SUBBLOCKS).flatMap fun s =>
      actsBytes quants scaleBits q s ++ wbitsBytes src rows (k / Q1_BLOCK) rb q s).length =
        Q8_SUBBLOCKS * SUBBLOCK_STREAM_BYTES := length_pieces _ fun s hs => length_streamSub h hq hs
  rw [streamBlock, List.length_append, hsubs, scalesBytes, length_bytesOf]
  rfl

theorem length_streamRowblock {rb : Nat} :
    (streamRowblock src rows (k / Q1_BLOCK) quants scaleBits rb).length =
      k / Q1_BLOCK * STREAM_PER_Q1_BLOCK :=
  length_pieces _ fun _ hq => length_streamBlock h hq

theorem length_stream :
    (stream src rows (k / Q1_BLOCK) quants scaleBits n).length =
      n * (k / Q1_BLOCK * STREAM_PER_Q1_BLOCK) :=
  length_pieces _ fun _ _ => length_streamRowblock h

include hweights

variable {out : List Byte} {rb q pos : Nat} (hrb : rb < n) (hq : q < k / Q1_BLOCK)

include hrb hq

theorem mergeSub_writes {s : Nat} (hs : s < 4) :
    Writes out.length pos (mergeSub weights quants scaleBits q · s)
      (fun done =>
        ⟨(rb * (k / Q1_BLOCK) + q) * PACKED_PER_Q1_BLOCK + (SCALES_BYTES + s * WBITS_BYTES),
          wrote out done⟩)
      (fun done =>
        ⟨(rb * (k / Q1_BLOCK) + q) * PACKED_PER_Q1_BLOCK + (SCALES_BYTES + (s + 1) * WBITS_BYTES),
          wrote out done⟩)
      (actsBytes quants scaleBits q s ++ wbitsBytes src rows (k / Q1_BLOCK) rb q s) := by
  have hle := hweights.length_le hrb hq
  have hbits : (rb * (k / Q1_BLOCK) + q) * PACKED_PER_Q1_BLOCK +
      (SCALES_BYTES + s * WBITS_BYTES) + WBITS_BYTES ≤
      weights.length := by
    have hsizes : SCALES_BYTES + s * WBITS_BYTES + WBITS_BYTES ≤ PACKED_PER_Q1_BLOCK := by
      show 16 + s * 32 + 32 ≤ 144
      omega
    omega
  have hnext : (rb * (k / Q1_BLOCK) + q) * PACKED_PER_Q1_BLOCK +
      (SCALES_BYTES + (s + 1) * WBITS_BYTES) =
      (rb * (k / Q1_BLOCK) + q) * PACKED_PER_Q1_BLOCK + (SCALES_BYTES + s * WBITS_BYTES) +
        WBITS_BYTES := by
    rw [Nat.succ_mul, Nat.add_assoc, Nat.add_assoc]
  obtain ⟨scale, hscale⟩ := h.exists_scale hq hs
  simp only [mergeSub, h.aOff_eq hq hs, Column.scaleIndex_eq, hscale, hnext, actsBytes,
    Option.getD_some, ← hweights.wbits hrb hq hs, List.append_assoc]
  intro done hdone hroom
  exact ((memcpy_writes (h.quants_le hq hs)).bind
    ((storeAt_writes _).bind ((memcpy_writes hbits).map (MergeState.mk _))))
    done hdone hroom

omit hq in
theorem mergeBlock_writes (hq : q < k / Q1_BLOCK) :
    Writes out.length pos (mergeBlock weights quants scaleBits · q)
      (fun done => ⟨(rb * (k / Q1_BLOCK) + q) * PACKED_PER_Q1_BLOCK, wrote out done⟩)
      (fun done => ⟨(rb * (k / Q1_BLOCK) + (q + 1)) * PACKED_PER_Q1_BLOCK, wrote out done⟩)
      (streamBlock src rows (k / Q1_BLOCK) quants scaleBits rb q) := by
  have hle := hweights.length_le hrb hq
  have hnext : (rb * (k / Q1_BLOCK) + (q + 1)) * PACKED_PER_Q1_BLOCK =
      (rb * (k / Q1_BLOCK) + q) * PACKED_PER_Q1_BLOCK +
        (SCALES_BYTES + Q8_SUBBLOCKS * WBITS_BYTES) := by
    rw [← Nat.add_assoc, Nat.succ_mul]
    rfl
  have hscales : (rb * (k / Q1_BLOCK) + q) * PACKED_PER_Q1_BLOCK + SCALES_BYTES ≤
      weights.length := by
    have hsizes : SCALES_BYTES ≤ PACKED_PER_Q1_BLOCK := by decide
    omega
  have hsubs : ∀ pos, Writes out.length pos
      (fun s => (List.range Q8_SUBBLOCKS).foldlM (mergeSub weights quants scaleBits q)
        ⟨(rb * (k / Q1_BLOCK) + q) * PACKED_PER_Q1_BLOCK + SCALES_BYTES, s⟩) (wrote out)
      (fun done => ⟨(rb * (k / Q1_BLOCK) + (q + 1)) * PACKED_PER_Q1_BLOCK, wrote out done⟩)
      ((List.range Q8_SUBBLOCKS).flatMap fun s =>
        actsBytes quants scaleBits q s ++ wbitsBytes src rows (k / Q1_BLOCK) rb q s) := by
    intro pos done hdone hroom
    rw [hnext]
    exact Writes.range (fun s done =>
        (⟨(rb * (k / Q1_BLOCK) + q) * PACKED_PER_Q1_BLOCK + (SCALES_BYTES + s * WBITS_BYTES),
          wrote out done⟩ : MergeState))
      (fun s hs => length_streamSub h hq hs) (fun s hs => mergeSub_writes h hweights hrb hq hs)
        done hdone hroom
  rw [streamBlock, ← hweights.scales hrb hq]
  intro done hdone hroom
  exact ((memcpy_writes hscales).bind (hsubs _)) done hdone hroom

end Merge

section Merged

variable {k rows : Nat} {weights src quants : List Byte} {scaleBits : List (BitVec 16)}
    (h : Column k quants scaleBits)
  (hweights : HoldsBlocks weights src rows (k / Q1_BLOCK) (rowblocksC rows))

include h hweights

/-- The merge fills the front of the output buffer with the stream of the column. -/
theorem mergeActsC_eq (hk : 1 ≤ k) (hrows : 1 ≤ rows) {out : List Byte}
    (hout : rowblocksC rows * (k / Q1_BLOCK * STREAM_PER_Q1_BLOCK) ≤ out.length) :
    mergeActsC weights quants scaleBits rows k out =
      some (0, stream src rows (k / Q1_BLOCK) quants scaleBits (rowblocksC rows) ++
        out.drop (rowblocksC rows * (k / Q1_BLOCK * STREAM_PER_Q1_BLOCK))) := by
  have hlen : (stream src rows (k / Q1_BLOCK) quants scaleBits (rowblocksC rows)).length =
      _ := length_stream h
  have hrow : ∀ rb < rowblocksC rows, ∀ pos, Writes out.length pos
      (fun st => (List.range (k / Q1_BLOCK)).foldlM (mergeBlock weights quants scaleBits) st)
      (fun done => ⟨rb * (k / Q1_BLOCK) * PACKED_PER_Q1_BLOCK, wrote out done⟩)
      (fun done => ⟨(rb + 1) * (k / Q1_BLOCK) * PACKED_PER_Q1_BLOCK, wrote out done⟩)
      (streamRowblock src rows (k / Q1_BLOCK) quants scaleBits rb) := by
    intro rb hrb pos
    rw [Nat.succ_mul rb]
    exact Writes.range (fun q done =>
        (⟨(rb * (k / Q1_BLOCK) + q) * PACKED_PER_Q1_BLOCK, wrote out done⟩ : MergeState))
      (fun q hq => length_streamBlock h hq) fun q hq => mergeBlock_writes h hweights hrb hq
  have hloop : Writes out.length 0
      (fun st => (List.range (rowblocksC rows)).foldlM
        (fun st _ => (List.range (k / Q1_BLOCK)).foldlM (mergeBlock weights quants scaleBits) st)
        st)
      (fun done => ⟨0 * (k / Q1_BLOCK) * PACKED_PER_Q1_BLOCK, wrote out done⟩)
      (fun done => ⟨rowblocksC rows * (k / Q1_BLOCK) * PACKED_PER_Q1_BLOCK, wrote out done⟩)
      (stream src rows (k / Q1_BLOCK) quants scaleBits (rowblocksC rows)) :=
    Writes.range (fun rb done =>
      (⟨rb * (k / Q1_BLOCK) * PACKED_PER_Q1_BLOCK, wrote out done⟩ : MergeState))
      (fun rb _ => length_streamRowblock h) fun rb hrb => hrow rb hrb _
  simp only [Nat.zero_mul] at hloop
  have hblock := h.block
  rw [mergeActsC, if_neg (by omega), if_neg (by omega), ← hlen]
  exact (hloop.map fun st => ((0 : Int), st.s.bytes)).run (by omega)

/-- Interleaving the packed weights with the acts stream gives the stream of the column. -/
theorem interleave_eq (rest : List Byte) :
    interleave weights (actsStream (k / Q1_BLOCK) quants scaleBits ++ rest) (rowblocksC rows)
      (k / Q1_BLOCK) =
      stream src rows (k / Q1_BLOCK) quants scaleBits (rowblocksC rows) := by
  have hacts : ∀ q < k / Q1_BLOCK, ∀ s < 4,
      ((actsStream (k / Q1_BLOCK) quants scaleBits ++ rest).drop
          (q * ACTS_PER_Q1_BLOCK + s * (ACTS_BYTES + ACT_SCALE_BYTES))).take (ACTS_BYTES +
            ACT_SCALE_BYTES) =
        actsBytes quants scaleBits q s := by
    intro q hq s hs
    have hsub := slice_pieces (actsBytes quants scaleBits q) (n := Q8_SUBBLOCKS)
      (fun s hs => h.length_actsBytes hq hs) [] hs
    have hblock := slice_pieces _ (fun q hq => length_actsBlock h hq) rest hq
    have hend : s * (ACTS_BYTES + ACT_SCALE_BYTES) + (ACTS_BYTES + ACT_SCALE_BYTES) ≤
        ACTS_PER_Q1_BLOCK := by
      show s * 40 + 40 ≤ 160
      omega
    rw [List.append_nil] at hsub
    rw [← hsub, ← hblock, List.drop_take, List.take_take, List.drop_drop,
      Nat.min_eq_left (by omega)]
    rfl
  rw [interleave, stream]
  refine List.flatMap_congr fun rb hrb => List.flatMap_congr fun q hq => ?_
  have hrb' : rb < rowblocksC rows := List.mem_range.mp hrb
  have hq' : q < k / Q1_BLOCK := List.mem_range.mp hq
  rw [streamBlock, ← hweights.scales hrb' hq']
  refine congrArg _ (List.flatMap_congr fun s hs => ?_)
  have hs' : s < 4 := List.mem_range.mp hs
  rw [hacts q hq' s hs', ← hweights.wbits hrb' hq' hs', List.drop_drop]

end Merged

/-! ## The legacy packer -/

section Legacy

variable {sizeBits rows k : Nat} {src quants : List Byte} {scaleBits : List (BitVec 16)}
    (h : Column k quants scaleBits)

/-- Both packers read the weight bits of a sub-block at the same offset. -/
theorem wbitsWordLegacy_eq (weightRowBytes rowStart rowCount q1 sub beat : Nat) :
    wbitsWordLegacy sizeBits src weightRowBytes rowStart rowCount q1 (sub * Q8_BLOCK) beat =
      wbitsWordC sizeBits src weightRowBytes rowStart rowCount q1 sub beat := by
  have hsub : sub * Q8_BLOCK / 8 = sub * (Q8_BLOCK / 8) := by
    show sub * 32 / 8 = sub * 4
    omega
  simp only [wbitsWordLegacy, wbitsWordC, hsub, sizeT, Nat.add_mod_mod]

section Rowblock

variable (hsized : Sized sizeBits rows k)
    (hsrc : src.length = rows * (k / Q1_BLOCK) * Q1_BLOCK_BYTES)
  {rb rowCount : Nat} (hcount : ∀ lane < 8, lane < rowCount ↔ rb * ROWS_PER_BLOCK + lane < rows)
  {out : List Byte} (hsize : out.length < 2 ^ sizeBits)

include h hsized hsrc hcount hsize

theorem packRowblockSub_writes {q s pos : Nat} (hq : q < k / Q1_BLOCK) (hs : s < 4) :
    Writes out.length pos
      (packRowblockSub sizeBits src quants scaleBits (k / Q1_BLOCK * Q1_BLOCK_BYTES)
        (rb * ROWS_PER_BLOCK) rowCount q · s)
      (wrote out) (wrote out)
      (actsBytes quants scaleBits q s ++ wbitsBytes src rows (k / Q1_BLOCK) rb q s) := by
  obtain ⟨scale, hscale⟩ := h.exists_scale hq hs
  have hacts := fun pos => writeWords_writes pos hsize fun beat (hbeat : beat < 4) =>
    h.actsWord_eq hq hs hbeat
  have hwbits := fun pos => writeWords_writes pos hsize fun beat (hbeat : beat < 4) =>
    wbitsWordC_eq hsized hsrc hq hcount hs hbeat
  simp only [packRowblockSub, h.aOff_eq hq hs, Column.scaleIndex_eq, hscale, actsBytes,
    Option.getD_some, wbitsWordLegacy_eq, List.append_assoc, ← h.bytesOf_actsWord hq hs]
  exact (hacts _).bind ((writeLeU64_writes hsize _).bind (hwbits _))

theorem packRowblockQ1_writes {q pos : Nat} (hq : q < k / Q1_BLOCK) :
    Writes out.length pos
      (packRowblockQ1 sizeBits src quants scaleBits (k / Q1_BLOCK * Q1_BLOCK_BYTES)
        (rb * ROWS_PER_BLOCK) rowCount · q)
      (wrote out) (wrote out) (streamBlock src rows (k / Q1_BLOCK) quants scaleBits rb q) := by
  have hscales := writeWords_writes pos hsize fun beat (hbeat : beat < 2) =>
    scaleWordC_eq hsized hsrc hq hcount hbeat
  have hsubs : ∀ pos, Writes out.length pos _ _ _ _ := fun pos => Writes.range (fun _ => wrote out)
    (fun s hs => length_streamSub h hq hs) fun s hs =>
    packRowblockSub_writes h hsized hsrc hcount hsize hq hs
  exact hscales.bind (hsubs _)

/-- A rowblock is written to the front of the buffer at the pointer. -/
theorem packRowblock_eq (hroom : k / Q1_BLOCK * STREAM_PER_Q1_BLOCK ≤ out.length) :
    packRowblock sizeBits src quants scaleBits (rb * ROWS_PER_BLOCK) rowCount
      (k / Q1_BLOCK * Q1_BLOCK_BYTES)
        (k / Q1_BLOCK) out =
      some (streamRowblock src rows (k / Q1_BLOCK) quants scaleBits rb ++
        out.drop (k / Q1_BLOCK * STREAM_PER_Q1_BLOCK)) := by
  have hlen : (streamRowblock src rows (k / Q1_BLOCK) quants scaleBits rb).length = _ :=
    length_streamRowblock h
  have hloop : Writes out.length 0 _ _ _ _ := Writes.range (fun _ => wrote out)
    (fun q hq => length_streamBlock h hq) fun q hq =>
    packRowblockQ1_writes h hsized hsrc hcount hsize hq
  rw [← hlen] at hroom ⊢
  exact (hloop.map fun st => st.bytes).run hroom

omit hcount hsize in
/-- A rowblock of a column is written where the column's earlier rowblocks end. -/
theorem packColumnRowblock_writes {out : List Byte} (hsize : out.length < 2 ^ sizeBits)
    (hrb : rb < rowblocksFor rows)
    {rowblockBytes colOut pos : Nat} (hpos : colOut + sizeT sizeBits (rb * rowblockBytes) = pos) :
    Writes out.length pos
      (packColumnRowblock sizeBits src quants scaleBits rows
        (u32 (k / Q1_BLOCK * Q1_BLOCK_BYTES)) (k / Q1_BLOCK)
        rowblockBytes colOut · rb)
      (fun done => (wrote out done).bytes) (fun done => (wrote out done).bytes)
      (streamRowblock src rows (k / Q1_BLOCK) quants scaleBits rb) := by
  intro done hdone hroom
  have hlen : (streamRowblock src rows (k / Q1_BLOCK) quants scaleBits rb).length = _ :=
    length_streamRowblock h
  have hdrop : (out.drop done.length).length = out.length - done.length := List.length_drop
  have hrow := packRowblock_eq h hsized hsrc (fun lane hlane => hsized.rowCount_iff hrb hlane)
    (show (out.drop done.length).length < 2 ^ sizeBits by omega) (by omega)
  show packColumnRowblock _ _ _ _ _ _ _ _ _ (done ++ out.drop done.length) rb = _
  simp only [packColumnRowblock, hpos, hsized.rowStart_eq hrb, hsized.weightRowBytes_eq,
    ← hdone, List.drop_left, List.take_left, hrow, ← hlen, wrote]
  rw [List.length_append, ← List.drop_drop, List.append_assoc]
  rfl

end Rowblock

/-- The size of the stream of a column. -/
def colBytes (rows k : Nat) : Nat := rowblocksC rows * (k / Q1_BLOCK * STREAM_PER_Q1_BLOCK)

/-- Sizes of a call of the packers: the matrix fits its parameters, the buffers hold what they
    should, and their sizes are sizes. -/
structure StreamSized (sizeBits rows cols k : Nat) (src quants : List Byte)
    (scaleBits : List (BitVec 16)) : Prop where
  rowsPos : 1 ≤ rows
  rowsLt : rows < 2 ^ 32
  colsPos : 1 ≤ cols
  kPos : 1 ≤ k
  kLt : k < 2 ^ 32
  block : k % Q1_BLOCK = 0
  srcLen : src.length = rows * (k / Q1_BLOCK) * Q1_BLOCK_BYTES
  quantsLen : quants.length = cols * k
  quantsSize : quants.length < 2 ^ sizeBits
  scalesLen : scaleBits.length = cols * (k / Q8_BLOCK)
  scalesSize : scaleBits.length < 2 ^ sizeBits

namespace StreamSized

variable {cols : Nat} (hs : StreamSized sizeBits rows cols k src quants scaleBits)

include hs

theorem column {col : Nat} (hcol : col < cols) :
    Column k (quants.drop (col * k)) (scaleBits.drop (col * (k / Q8_BLOCK))) := by
  have hquants : col * k + k ≤ cols * k := by
    rw [← Nat.succ_mul]
    exact Nat.mul_le_mul_right k hcol
  have hscales : col * (k / Q8_BLOCK) + k / Q8_BLOCK ≤ cols * (k / Q8_BLOCK) := by
    rw [← Nat.succ_mul]
    exact Nat.mul_le_mul_right _ hcol
  have hquantsLen := hs.quantsLen
  have hscalesLen := hs.scalesLen
  refine ⟨hs.kLt, hs.block, ?_, ?_⟩
  · rw [List.length_drop]
    omega
  · rw [List.length_drop]
    omega

/-- With a rowblock to pack, the number of rowblocks does not wrap. -/
theorem rowblocksC_eq {rb : Nat} (hrb : rb < rowblocksC rows) :
    rows + 7 < 2 ^ 32 ∧ rowblocksC rows = rowblocksFor rows := by
  have hlt := hs.rowsLt
  simp only [rowblocksC, rowblocksFor, u32, ROWS_PER_BLOCK] at hrb ⊢
  omega

theorem sized {rb : Nat} (hrb : rb < rowblocksC rows)
    (hsize : rowblocksC rows * (k / Q1_BLOCK) * PACKED_PER_Q1_BLOCK < 2 ^ sizeBits) :
    Sized sizeBits rows k := by
  obtain ⟨hlt, hrows⟩ := hs.rowblocksC_eq hrb
  rw [hrows] at hsize
  exact ⟨hs.rowsPos, hlt, hs.kPos, hs.kLt, hs.block, .inr hsize⟩

/-- The packed weights hold the beats of every rowblock. -/
theorem packWeightsC_holds {out : List Byte}
    (hout : rowblocksC rows * (k / Q1_BLOCK) * PACKED_PER_Q1_BLOCK ≤ out.length)
    (hsize : out.length < 2 ^ sizeBits) :
    ∃ weights, packWeightsC sizeBits src rows k out = some (0, weights) ∧
      HoldsBlocks weights src rows (k / Q1_BLOCK) (rowblocksC rows) := by
  rcases Nat.eq_zero_or_pos (rowblocksC rows) with hzero | hpos
  · have hrows := hs.rowsPos
    have hk := hs.kPos
    have hblock := hs.block
    have hnone : u32 (rows + ROWS_PER_BLOCK - 1) / ROWS_PER_BLOCK = 0 := hzero
    refine ⟨out, ?_, fun rb hrb => by omega⟩
    rw [packWeightsC, if_neg (by omega), if_neg (by omega), hnone]
    rfl
  · obtain ⟨-, hrows⟩ := hs.rowblocksC_eq hpos
    have hsized := hs.sized hpos (Nat.lt_of_le_of_lt hout hsize)
    rw [hrows] at hout ⊢
    exact ⟨_, packWeightsC_eq hsized hs.srcLen hout, holdsBlocks_packed _⟩

/-- The rowblocks of a column are written where the columns before it end. -/
theorem packColumn_writes {out : List Byte} (hout : cols * colBytes rows k ≤ out.length)
    (hsize : out.length < 2 ^ sizeBits) {col : Nat} (hcol : col < cols) :
    Writes out.length (0 + col * colBytes rows k)
      (fun st => (List.range (rowblocksC rows)).foldlM
        (packColumnRowblock sizeBits src (quants.drop (sizeT sizeBits (col * k)))
          (scaleBits.drop (sizeT sizeBits (col * (k / Q8_BLOCK)))) rows
          (u32 (k / Q1_BLOCK * Q1_BLOCK_BYTES)) (k / Q1_BLOCK)
          (sizeT sizeBits (STREAM_PER_Q1_BLOCK * (k / Q1_BLOCK)))
          (sizeT sizeBits (col * sizeT sizeBits
            (sizeT sizeBits (STREAM_PER_Q1_BLOCK * (k / Q1_BLOCK)) * rowblocksC rows))))
        st)
      (fun done => (wrote out done).bytes) (fun done => (wrote out done).bytes)
      (stream src rows (k / Q1_BLOCK) (quants.drop (col * k))
        (scaleBits.drop (col * (k / Q8_BLOCK))) (rowblocksC rows)) := by
  have hquants : sizeT sizeBits (col * k) = col * k :=
    sizeT_of_lt (Nat.lt_of_le_of_lt (Nat.mul_le_mul_right k (Nat.le_of_lt hcol))
      (hs.quantsLen ▸ hs.quantsSize))
  have hscales : sizeT sizeBits (col * (k / Q8_BLOCK)) = col * (k / Q8_BLOCK) :=
    sizeT_of_lt (Nat.lt_of_le_of_lt (Nat.mul_le_mul_right _ (Nat.le_of_lt hcol))
      (hs.scalesLen ▸ hs.scalesSize))
  rw [hquants, hscales]
  refine Writes.range (fun _ done => (wrote out done).bytes) (fun rb _ =>
    length_streamRowblock (hs.column hcol))
    fun rb hrb => ?_
  -- The buffer holds a rowblock, so that none of the offsets wraps.
  obtain ⟨-, hrows⟩ := hs.rowblocksC_eq hrb
  obtain ⟨bytes, hbytes⟩ : ∃ bytes, k / Q1_BLOCK * STREAM_PER_Q1_BLOCK = bytes := ⟨_, rfl⟩
  have hcols : colBytes rows k ≤ cols * colBytes rows k := Nat.le_mul_of_pos_left _ hs.colsPos
  have hcolBytes : colBytes rows k = rowblocksC rows * bytes := by rw [colBytes, hbytes]
  have hone : bytes ≤ rowblocksC rows * bytes := Nat.le_mul_of_pos_left _ (by omega)
  have hstart : rb * bytes ≤ rowblocksC rows * bytes := Nat.mul_le_mul_right _ (Nat.le_of_lt hrb)
  have hcolStart : col * colBytes rows k ≤ cols * colBytes rows k :=
    Nat.mul_le_mul_right _ (Nat.le_of_lt hcol)
  have hrowblock : sizeT sizeBits (STREAM_PER_Q1_BLOCK * (k / Q1_BLOCK)) = bytes := by
    rw [Nat.mul_comm, hbytes]
    exact sizeT_of_lt (by omega)
  have hstride : sizeT sizeBits (bytes * rowblocksC rows) = colBytes rows k := by
    rw [Nat.mul_comm, ← hcolBytes]
    exact sizeT_of_lt (by omega)
  have hpacked : rowblocksC rows * (k / Q1_BLOCK) * PACKED_PER_Q1_BLOCK ≤ colBytes rows k := by
    rw [colBytes, Nat.mul_assoc]
    exact Nat.mul_le_mul_left _ (Nat.mul_le_mul_left _ (by decide))
  refine packColumnRowblock_writes (hs.column hcol) (hs.sized hrb (by omega)) hs.srcLen hsize
    (hrows ▸ hrb) ?_
  rw [hrowblock, hstride, sizeT_of_lt (by omega), sizeT_of_lt (by omega), hbytes, Nat.zero_add]

/-- The legacy packer writes the streams of the columns one after the other. -/
theorem packMatmulStreamC_eq {out : List Byte} (hout : cols * colBytes rows k ≤ out.length)
    (hsize : out.length < 2 ^ sizeBits) :
    packMatmulStreamC sizeBits src quants scaleBits rows cols k out =
      some (0, (List.range cols).flatMap (fun col =>
        stream src rows (k / Q1_BLOCK) (quants.drop (col * k))
        (scaleBits.drop (col * (k / Q8_BLOCK))) (rowblocksC rows)) ++
          out.drop (cols * colBytes rows k)) := by
  have hpiece : ∀ col < cols, (stream src rows (k / Q1_BLOCK) (quants.drop (col * k))
      (scaleBits.drop (col * (k / Q8_BLOCK))) (rowblocksC rows)).length = colBytes rows k :=
    fun col hcol => length_stream (hs.column hcol)
  have hloop := Writes.range (fun _ done => (wrote out done).bytes) hpiece fun col hcol =>
    hs.packColumn_writes hout hsize hcol
  have hlen := length_pieces _ hpiece
  have hrows := hs.rowsPos
  have hcols := hs.colsPos
  have hk := hs.kPos
  have hblock := hs.block
  rw [packMatmulStreamC, if_neg (by omega), if_neg (by omega), ← hlen]
  exact (hloop.map fun stream => ((0 : Int), stream)).run (by omega)

end StreamSized

end Legacy

/-! ## Both paths agree -/

/-- For each column, merging it into the packed weights gives the bytes of that column in the
    legacy stream, and so does interleaving the packed weights with the column's acts stream. -/
theorem split_stream_agrees {sizeBits rows cols k : Nat} {src quants : List Byte}
    {scaleBits : List (BitVec 16)}
    (hs : StreamSized sizeBits rows cols k src quants scaleBits)
    {packedOut legacyOut mergedOut actsOut : List Byte}
    (hpacked : rowblocksC rows * (k / Q1_BLOCK) * PACKED_PER_Q1_BLOCK ≤ packedOut.length)
    (hpackedSize : packedOut.length < 2 ^ sizeBits)
    (hlegacy : cols * colBytes rows k ≤ legacyOut.length)
    (hlegacySize : legacyOut.length < 2 ^ sizeBits) (hmerged : colBytes rows k ≤ mergedOut.length)
    (hacts : k / Q1_BLOCK * ACTS_PER_Q1_BLOCK ≤ actsOut.length) :
    ∃ weights legacy, packWeightsC sizeBits src rows k packedOut = some (0, weights) ∧
      packMatmulStreamC sizeBits src quants scaleBits rows cols k legacyOut = some (0, legacy) ∧
      ∀ col < cols, ∃ merged acts,
        mergeActsC weights (quants.drop (col * k)) (scaleBits.drop (col * (k / Q8_BLOCK)))
          rows k mergedOut =
          some (0, merged) ∧
        packActsC sizeBits (quants.drop (col * k)) (scaleBits.drop (col * (k / Q8_BLOCK))) k
          actsOut = some (0, acts) ∧
        merged.take (colBytes rows k) = (legacy.drop (col * colBytes rows k)).take
          (colBytes rows k) ∧
        interleave weights acts (rowblocksC rows) (k / Q1_BLOCK) =
          merged.take (colBytes rows k) := by
  obtain ⟨weights, hweights, hholds⟩ := hs.packWeightsC_holds hpacked hpackedSize
  refine ⟨weights, _, hweights, hs.packMatmulStreamC_eq hlegacy hlegacySize, fun col hcol => ?_⟩
  have hcolumn := hs.column hcol
  have hquantsSize : (quants.drop (col * k)).length < 2 ^ sizeBits := by
    have hsize := hs.quantsSize
    rw [List.length_drop]
    omega
  have htake : ∀ rest,
      (stream src rows (k / Q1_BLOCK) (quants.drop (col * k))
        (scaleBits.drop (col * (k / Q8_BLOCK)))
      (rowblocksC rows) ++ rest).take (colBytes rows k) = _ :=
    fun rest => List.take_left' (length_stream hcolumn)
  refine ⟨_, _, mergeActsC_eq hcolumn hholds hs.kPos hs.rowsPos hmerged,
    packActsC_eq hcolumn hquantsSize hs.kPos hacts, ?_, ?_⟩
  · rw [htake]
    exact (slice_pieces _ (fun col hcol => length_stream (hs.column hcol)) _ hcol).symm
  · rw [htake]
    exact interleave_eq hcolumn hholds _

/-- Two columns over nine rows, whose second rowblock has a single row. -/
theorem split_stream_agrees_nine_rows :
    rowblocksC 9 = 2 ∧ colBytes 9 128 = 608 ∧
    ∃ weights legacy, packWeightsC 32 (List.replicate 162 0xA5) 9 128 (List.replicate 288 0) =
      some (0, weights) ∧
      packMatmulStreamC 32 (List.replicate 162 0xA5) (List.replicate 256 0x81)
        (List.replicate 8 0x3C00) 9 2 128
        (List.replicate 1216 0) = some (0, legacy) ∧
      ∀ col < 2, ∃ merged acts,
        mergeActsC weights (List.drop (col * 128) (List.replicate 256 0x81))
          (List.drop (col * (128 / Q8_BLOCK)) (List.replicate 8 0x3C00)) 9 128
          (List.replicate 608 0) = some (0, merged) ∧
        packActsC 32 (List.drop (col * 128) (List.replicate 256 0x81))
          (List.drop (col * (128 / Q8_BLOCK)) (List.replicate 8 0x3C00)) 128
          (List.replicate 160 0) = some (0, acts) ∧
        merged.take (colBytes 9 128) = (legacy.drop (col * colBytes 9 128)).take (colBytes 9 128) ∧
        interleave weights acts (rowblocksC 9) (128 / Q1_BLOCK) = merged.take (colBytes 9 128) := by
  have hsized : StreamSized 32 9 2 128 (List.replicate 162 0xA5) (List.replicate 256 0x81)
      (List.replicate 8 0x3C00) :=
    ⟨by decide, by decide, by decide, by decide, by decide, by decide, List.length_replicate,
      List.length_replicate,
      by rw [List.length_replicate]; decide, List.length_replicate, by decide⟩
  refine ⟨by decide, by decide, split_stream_agrees hsized ?_ ?_ ?_ ?_ ?_ ?_⟩
  all_goals
    rw [List.length_replicate]
    decide

end Layout
