-- SUMMARY: A kernel run that is fed packed weights and a packed column gives the rows of the matrix times the column, in the arithmetic of the RTL.
import BonsaiTpu.Layout.Merge
import BonsaiTpu.Kernel.Sequence

/-!
# Rows of a matrix on the kernel

`rowResult` is what a row of a Q1_0 matrix times a quantized column is on the PL: the
contributions of its sub-blocks, added in their order. The streams of a run are bytes in
memory, some rowblocks of the packed weights and the packed column; `laneResult_rows` is
that its lanes are the rows.
-/

namespace Layout

open Words Q1a8 Writer

/-! ## Rows -/

/-- The sum of the 32 quants of a sub-block, each with the sign of its weight bit. -/
def subBlockDot (bits : BitVec 32) (quants : List Byte) (i : Nat) : Int :=
  ∑ l ∈ Finset.range 32,
    if bits.getLsbD l then (quants[32 * i + l]?.getD 0).toInt
    else -(quants[32 * i + l]?.getD 0).toInt

/-- The contribution of sub-block `i` of a row. -/
def rowTerm (src : List Byte) (bpr : Nat) (quants : List Byte) (scaleBits : List (BitVec 16))
    (r i : Nat) : Fp32 :=
  fp32Mul (fp32Mul (fp16ToFp32 (rowScale src bpr r (i / 4))) (fp16ToFp32 (scaleBits[i]?.getD 0)))
    (intToFp32 (BitVec.ofInt 14 (subBlockDot (rowBits src bpr r (i / 4) (i % 4)) quants i)))

/-- A row of the weights times a column. -/
def rowResult (src : List Byte) (bpr : Nat) (quants : List Byte) (scaleBits : List (BitVec 16))
    (r : Nat) : Fp32 :=
  (List.range (4 * bpr)).foldl (fun acc i => fp32Add acc (rowTerm src bpr quants scaleBits r i)) 0

/-! ## Beats of a memory -/

/-- The beat of eight bytes. -/
def beatOf (byte : Nat → Byte) : BitVec 64 := pack8 byte

theorem leBytes_beatOf (byte : Nat → Byte) : leBytes (beatOf byte) = (List.range 8).map byte :=
  leBytes_pack8 byte

/-- A beat is a word when its bytes are those of the word. -/
theorem beatOf_eq {byte : Nat → Byte} {w : BitVec 64}
    (h : ∀ i < 8, (leBytes w)[i]? = some (byte i)) : beatOf byte = w := by
  apply leBytes_injective
  rw [leBytes_beatOf]
  refine List.ext_getElem? fun i => ?_
  rcases Nat.lt_or_ge i 8 with hi | hi
  · rw [List.getElem?_map, List.getElem?_range hi, h i hi]
    rfl
  · rw [List.getElem?_eq_none (by simpa using hi),
      List.getElem?_eq_none (by simpa [leBytes] using hi)]

/-! ## Streams from memory -/

/-- The streams of a run that gets its beats from two memories. -/
def memoryStreams (bpr rowblocks : Nat) (acts weights : Nat → Byte) : Streams where
  q1Blocks := bpr
  rowblocks := rowblocks
  acts w := beatOf fun i => acts (8 * w + i)
  weights w := beatOf fun i => weights (8 * w + i)

theorem memoryStreams_weights (bpr rowblocks : Nat) (acts weights : Nat → Byte) (w : Nat) :
    (memoryStreams bpr rowblocks acts weights).weights w = beatOf fun i => weights (8 * w + i) :=
  rfl

theorem memoryStreams_acts (bpr rowblocks : Nat) (acts weights : Nat → Byte) (w : Nat) :
    (memoryStreams bpr rowblocks acts weights).acts w = beatOf fun i => acts (8 * w + i) := rfl

/-- The packed column of a run. -/
def HoldsColumn (bpr : Nat) (quants : List Byte) (scaleBits : List (BitVec 16))
    (acts : Nat → Byte) : Prop :=
  ∀ i < bpr * ACTS_PER_Q1_BLOCK, acts i = (actsStream bpr quants scaleBits)[i]?.getD 0

/-- The packed weights of some rowblocks. -/
def HoldsRowblocks (src : List Byte) (rows bpr rb n : Nat) (weights : Nat → Byte) : Prop :=
  ∀ i < n * (bpr * PACKED_PER_Q1_BLOCK),
    weights i = (packed src rows bpr)[rb * (bpr * PACKED_PER_Q1_BLOCK) + i]?.getD 0

/-- A byte of a piece. -/
theorem getElem?_pieces {β : Type} {f : Nat → List β} {n c : Nat} (h : ∀ i < n, (f i).length = c)
    {i u : Nat} (hi : i < n) (hu : u < c) :
    ((List.range n).flatMap f)[i * c + u]? = (f i)[u]? := by
  have hslice := slice_pieces f h [] hi
  rw [List.append_nil] at hslice
  rw [← hslice, List.getElem?_take_of_lt hu, List.getElem?_drop]

section Beats

variable {k : Nat} {quants : List Byte} {scaleBits : List (BitVec 16)}
    (h : Column k quants scaleBits)

include h

theorem getElem?_actsStream {q s u : Nat} (hq : q < k / Q1_BLOCK) (hs : s < 4) (hu : u < 40) :
    (actsStream (k / Q1_BLOCK) quants scaleBits)[160 * q + 40 * s + u]? =
      (actsBytes quants scaleBits q s)[u]? := by
  have hlt : 40 * s + u < ACTS_PER_Q1_BLOCK := by
    show 40 * s + u < 160
    omega
  have hblock := getElem?_pieces (fun q hq => length_actsBlock h hq) hq hlt
  have hsub := getElem?_pieces (fun s hs => h.length_actsBytes hq hs)
    (show s < Q8_SUBBLOCKS from hs) (show u < 40 from hu)
  have houter : 160 * q + 40 * s + u = q * ACTS_PER_Q1_BLOCK + (40 * s + u) := by
    show _ = q * 160 + _
    omega
  have hinner : 40 * s + u = s * (ACTS_BYTES + ACT_SCALE_BYTES) + u := by
    show _ = s * 40 + _
    omega
  rw [actsStream, houter, hblock, hinner]
  exact hsub

/-- A beat of quants. -/
theorem actsBeat_quants {bytes : Nat → Byte}
    (hbytes : HoldsColumn (k / Q1_BLOCK) quants scaleBits bytes) {q s t : Nat}
    (hq : q < k / Q1_BLOCK) (hs : s < 4) (ht : t < 4) :
    beatOf (fun i => bytes (8 * (20 * q + 5 * s + t) + i)) =
      pack8 fun i => quants[q * 128 + s * 32 + 8 * t + i]?.getD 0 := by
  refine beatOf_eq fun i hi => ?_
  have hle := h.quants_le hq hs
  have hin : 8 * (20 * q + 5 * s + t) + i < k / Q1_BLOCK * ACTS_PER_Q1_BLOCK := by
    show _ < k / Q1_BLOCK * 160
    omega
  have hindex : 8 * (20 * q + 5 * s + t) + i = 160 * q + 40 * s + (8 * t + i) := by omega
  have htake : 8 * t + i < ACTS_BYTES := by
    show _ < 32
    omega
  have hlt : q * Q1_BLOCK + s * Q8_BLOCK + (8 * t + i) < quants.length := by omega
  rw [leBytes_pack8, List.getElem?_map, List.getElem?_range hi, Option.map_some,
    hbytes _ hin, hindex, getElem?_actsStream h hq hs (by omega), actsBytes,
    List.getElem?_append_left, List.getElem?_take_of_lt htake, List.getElem?_drop]
  · rw [Nat.add_assoc]
    rfl
  · rw [List.length_take, List.length_drop]
    omega

/-- A beat of the scale of a sub-block. -/
theorem actsBeat_scale {bytes : Nat → Byte}
    (hbytes : HoldsColumn (k / Q1_BLOCK) quants scaleBits bytes) {q s : Nat}
    (hq : q < k / Q1_BLOCK) (hs : s < 4) :
    beatOf (fun i => bytes (8 * (20 * q + 5 * s + 4) + i)) =
      (scaleBits[q * 4 + s]?.getD 0).setWidth 64 := by
  refine beatOf_eq fun i hi => ?_
  have hle := h.quants_le hq hs
  have hin : 8 * (20 * q + 5 * s + 4) + i < k / Q1_BLOCK * ACTS_PER_Q1_BLOCK := by
    show _ < k / Q1_BLOCK * 160
    omega
  have hindex : 8 * (20 * q + 5 * s + 4) + i = 160 * q + 40 * s + (32 + i) := by omega
  have hlen : ((quants.drop (q * Q1_BLOCK + s * Q8_BLOCK)).take ACTS_BYTES).length = 32 := by
    rw [List.length_take, List.length_drop, Nat.min_eq_left (by omega)]
    rfl
  rw [hbytes _ hin, hindex, getElem?_actsStream h hq hs (by omega), actsBytes,
    List.getElem?_append_right (by omega), hlen, Nat.add_sub_cancel_left, getElem?_leBytes _ hi,
    getElem?_leBytes _ hi, Option.getD_some]
  rfl

end Beats

theorem extractLsb'_pack8 (part : Nat → Byte) {l : Nat} (hl : l < 8) :
    (pack8 part).extractLsb' (8 * l) 8 = part l := by
  have hbyte := getElem?_leBytes (pack8 part) hl
  rw [leBytes_pack8, List.getElem?_map, List.getElem?_range hl] at hbyte
  exact (Option.some.inj hbyte).symm

/-- A bit of a sub-block, in the beat that it came in; the first beat is lowest. -/
theorem getLsbD_actsWord (j : Streams) (q s : Nat) {t i : Nat} (ht : t < 4) (hi : i < 64) :
    (j.actsWord q s).getLsbD (64 * t + i) = (j.acts (20 * q + 5 * s + t)).getLsbD i := by
  rw [Streams.actsWord]
  simp only [BitVec.getLsbD_append]
  rcases (show t = 0 ∨ t = 1 ∨ t = 2 ∨ t = 3 by omega) with rfl | rfl | rfl | rfl
  · rw [if_pos (by omega), Nat.mul_zero, Nat.zero_add, Nat.add_zero]
  · rw [if_neg (by omega), if_pos (by omega), show 64 * 1 + i - 64 = i by omega]
  · rw [if_neg (by omega), if_neg (by omega), if_pos (by omega),
      show 64 * 2 + i - 64 - 64 = i by omega]
  · rw [if_neg (by omega), if_neg (by omega), if_neg (by omega),
      show 64 * 3 + i - 64 - 64 - 64 = i by omega]

/-- An activation of a sub-block. -/
theorem extractLsb'_actsWord (j : Streams) (q s : Nat) {l : Nat} (hl : l < 32) :
    (j.actsWord q s).extractLsb' (l * 8) 8 =
      (j.acts (20 * q + 5 * s + l / 8)).extractLsb' (8 * (l % 8)) 8 := by
  apply BitVec.eq_of_getLsbD_eq
  intro n hn
  have hindex : l * 8 + n = 64 * (l / 8) + (8 * (l % 8) + n) := by omega
  rw [BitVec.getLsbD_extractLsb', BitVec.getLsbD_extractLsb', hindex,
    getLsbD_actsWord j q s (by omega) (by omega)]

/-! ## Lanes are rows -/

section Lanes

variable {k : Nat} {quants : List Byte} {scaleBits : List (BitVec 16)} {src : List Byte}
    {rows rb n : Nat} {acts weights : Nat → Byte}

/-- A beat of the weights of a run. -/
theorem weightsBeat (hweights : HoldsRowblocks src rows (k / Q1_BLOCK) rb n weights)
    (hle : rb + n ≤ rowblocksFor rows) {b q t : Nat}
    (hb : b < n) (hq : q < k / Q1_BLOCK) (ht : t < 18) :
    (memoryStreams (k / Q1_BLOCK) n acts weights).weights (18 * (b * (k / Q1_BLOCK) + q) + t) =
      blockWord src rows (k / Q1_BLOCK) (rb + b) q t := by
  have hrow : (b + 1) * (k / Q1_BLOCK) ≤ n * (k / Q1_BLOCK) := Nat.mul_le_mul_right _ hb
  have hrows : (rb + b + 1) * (k / Q1_BLOCK) ≤ rowblocksFor rows * (k / Q1_BLOCK) :=
    Nat.mul_le_mul_right _ (by omega)
  rw [Nat.add_mul, Nat.one_mul] at hrow hrows
  rw [memoryStreams_weights]
  refine beatOf_eq fun i hi => ?_
  have hstart : rb * (k / Q1_BLOCK * PACKED_PER_Q1_BLOCK) = 8 * (18 * (rb * (k / Q1_BLOCK))) := by
    show rb * (k / Q1_BLOCK * 144) = _
    rw [← Nat.mul_assoc]
    omega
  have hin : 8 * (18 * (b * (k / Q1_BLOCK) + q) + t) + i <
      n * (k / Q1_BLOCK * PACKED_PER_Q1_BLOCK) := by
    show _ < n * (k / Q1_BLOCK * 144)
    rw [← Nat.mul_assoc]
    omega
  have hindex : rb * (k / Q1_BLOCK * PACKED_PER_Q1_BLOCK) +
      (8 * (18 * (b * (k / Q1_BLOCK) + q) + t) + i) =
      8 * (18 * ((rb + b) * (k / Q1_BLOCK) + q) + t) + i := by
    rw [hstart, Nat.add_mul rb b]
    omega
  have hlt : 8 * (18 * ((rb + b) * (k / Q1_BLOCK) + q) + t) + i <
      8 * packedBeats rows (k / Q1_BLOCK) := by
    rw [packedBeats]
    omega
  have hdiv : (8 * (18 * ((rb + b) * (k / Q1_BLOCK) + q) + t) + i) / 8 =
      18 * ((rb + b) * (k / Q1_BLOCK) + q) + t := by omega
  have hmod : (8 * (18 * ((rb + b) * (k / Q1_BLOCK) + q) + t) + i) % 8 = i := by omega
  rw [hweights _ hin, hindex, packed, getElem?_bytesOf _ hlt, hdiv, hmod, packedWord_block hq ht,
    getElem?_leBytes _ hi, Option.getD_some]

/-- The sum of a sub-block is that of its quants. -/
theorem signedSum_column (h : Column k quants scaleBits)
    (hacts : HoldsColumn (k / Q1_BLOCK) quants scaleBits acts) {q s : Nat}
    (hq : q < k / Q1_BLOCK) (hs : s < 4) (bits : BitVec 32) :
    signedSum bits ((memoryStreams (k / Q1_BLOCK) n acts weights).actsWord q s) =
      subBlockDot bits quants (4 * q + s) := by
  refine Finset.sum_congr rfl fun l hl => ?_
  have hl' : l < 32 := Finset.mem_range.mp hl
  have hindex : q * 128 + s * 32 + 8 * (l / 8) + l % 8 = 32 * (4 * q + s) + l := by omega
  rw [extractLsb'_actsWord _ q s hl', memoryStreams_acts, actsBeat_quants h hacts hq hs (by omega),
    extractLsb'_pack8 _ (by omega), hindex]

/-- A contribution to a lane is that to its row. -/
theorem term_row (h : Column k quants scaleBits)
    (hacts : HoldsColumn (k / Q1_BLOCK) quants scaleBits acts)
    (hweights : HoldsRowblocks src rows (k / Q1_BLOCK) rb n weights)
    (hle : rb + n ≤ rowblocksFor rows) {b lane i : Nat} (hb : b < n)
    (hlane : lane < 8) (hrow : (rb + b) * ROWS_PER_BLOCK + lane < rows)
    (hi : i < 4 * (k / Q1_BLOCK)) :
    (memoryStreams (k / Q1_BLOCK) n acts weights).term b lane i =
      rowTerm src (k / Q1_BLOCK) quants scaleBits ((rb + b) * ROWS_PER_BLOCK + lane) i := by
  have hq : i / 4 < k / Q1_BLOCK := by omega
  have hs : i % 4 < 4 := Nat.mod_lt _ (by decide)
  have hi' : 4 * (i / 4) + i % 4 = i := Nat.div_add_mod i 4
  have hscale : (memoryStreams (k / Q1_BLOCK) n acts weights).weightScale b (i / 4) lane =
      rowScale src (k / Q1_BLOCK) ((rb + b) * ROWS_PER_BLOCK + lane) (i / 4) := by
    have hlane' : lane / 4 * 4 + lane % 4 = lane := by omega
    rw [Streams.weightScale, Streams.weightBase]
    rw [show (memoryStreams (k / Q1_BLOCK) n acts weights).q1Blocks = k / Q1_BLOCK from rfl,
      weightsBeat hweights hle hb hq (by omega), blockWord_scales (by omega),
      Nat.mul_comm (lane % 4), extractLsb'_pack16 _ (by omega), hlane',
      laneScale, if_pos hrow]
  have hbits : (memoryStreams (k / Q1_BLOCK) n acts weights).weightBits b (i / 4) (i % 4) lane =
      rowBits src (k / Q1_BLOCK) ((rb + b) * ROWS_PER_BLOCK + lane) (i / 4) (i % 4) := by
    have hlane' : lane / 2 * 2 + lane % 2 = lane := by omega
    rw [Streams.weightBits, Streams.weightBase, Nat.add_assoc (18 * _), Nat.add_assoc (18 * _)]
    rw [show (memoryStreams (k / Q1_BLOCK) n acts weights).q1Blocks = k / Q1_BLOCK from rfl,
      weightsBeat hweights hle hb hq (by omega), blockWord_wbits (by omega),
      Nat.mul_comm (lane % 2), extractLsb'_pack32 _ (by omega), hlane',
      laneBits, if_pos hrow]
  have hactScale : (memoryStreams (k / Q1_BLOCK) n acts weights).actScale (i / 4) (i % 4) =
      scaleBits[i]?.getD 0 := by
    rw [Streams.actScale, memoryStreams_acts, actsBeat_scale h hacts hq hs,
      Nat.mul_comm (i / 4), hi']
    rw [BitVec.extractLsb'_setWidth_of_le (by decide)]
    simp
  rw [Streams.term, hscale, hbits, hactScale, contribution,
    signedSum_column h hacts hq hs, hi', rowTerm]

/-- The lanes of a run are rows of the matrix. -/
theorem laneResult_rows (h : Column k quants scaleBits)
    (hacts : HoldsColumn (k / Q1_BLOCK) quants scaleBits acts)
    (hweights : HoldsRowblocks src rows (k / Q1_BLOCK) rb n weights)
    (hle : rb + n ≤ rowblocksFor rows) {b lane : Nat} (hb : b < n)
    (hlane : lane < 8) (hrow : (rb + b) * ROWS_PER_BLOCK + lane < rows) :
    (memoryStreams (k / Q1_BLOCK) n acts weights).laneResult b lane =
      rowResult src (k / Q1_BLOCK) quants scaleBits ((rb + b) * ROWS_PER_BLOCK + lane) := by
  rw [Streams.laneResult, Streams.partialLane, rowResult]
  refine List.foldl_ext _ _ _ fun acc i hi => ?_
  rw [term_row h hacts hweights hle hb hlane hrow (List.mem_range.mp hi)]

end Lanes

end Layout
