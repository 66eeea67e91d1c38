-- SUMMARY: Packed weights mean the same to every reader: the two PS functions and the lanes of the PL kernel.
import BonsaiTpu.Kernel.Latch
import BonsaiTpu.Ps.Weights

/-!
# The readers of packed weights

A Q1_0 matrix is packed once and read in three ways. `Read` collects what each of
them gets for a row, and the main result says that it is what the source has.
-/

namespace Layout

open Words Q1a8

/-- The packed bytes of rowblock `rb` are the first beats of a stream, little-endian. -/
def Beats (weights : List Byte) (bpr rb : Nat) (beats : Nat → BitVec 64) : Prop :=
  ∀ c < 18 * bpr, leBytes (beats c) =
    (weights.drop (rb * (bpr * PACKED_PER_Q1_BLOCK) + 8 * c)).take 8

/-- Lane `lane` of the kernel latches a scale and weight bits for sub-block `s` of Q1 block
    `q` when rowblock `rb` is streamed, whatever the stalls: they are in its registers when
    the sub-block is issued, right after its last beat was accepted, and a fair stream gets
    that far from the start of the block. -/
def Latches (weights : List Byte) (bpr rb q s lane : Nat) (scale : BitVec 16)
    (bits : BitVec 32) : Prop :=
  ∀ (k : Kernel) (inp : Nat → Inputs) (beats : Nat → BitVec 64),
    Beats weights bpr rb beats → Streamed k inp beats →
    (∀ n, (cycle k inp n).weightsBeatAccept (inp n) = true →
      weightsAccepted k inp n = 18 * q + 4 * s + 5 →
      (cycle k inp (n + 1)).state = .issue ∧
        (cycle k inp (n + 1)).weightScalesFlat.field lane = scale ∧
        (cycle k inp (n + 1)).weightBitsFlat.field lane = bits) ∧
    ((∀ n, ∃ m, n ≤ m ∧ (inp m).sAxisTvalid = true) →
      ∀ n, (cycle k inp n).sAxisTready = true → weightsAccepted k inp n = 18 * q →
        ∃ m, n ≤ m ∧ (cycle k inp m).weightsBeatAccept (inp m) = true ∧
          weightsAccepted k inp m = 18 * q + 4 * s + 5)

/-- What the three readers get for sub-block `s` of Q1 block `q` of row `r`. -/
structure Read (sizeBits : Nat) (weights : List Byte) (bpr r q s : Nat) (scale : BitVec 16)
    (bits : BitVec 32) : Prop where
  matmulScale : Ps.matmulScale sizeBits weights bpr r q = some scale
  matmulWbits : Ps.matmulWbits sizeBits weights bpr r q s = some bits
  getRowsScale : Ps.getRowsScale sizeBits weights bpr r q = some scale
  getRowsBits : Ps.getRowsBits sizeBits weights bpr r q s = some bits
  latches : Latches weights bpr (r / ROWS_PER_BLOCK) q s (r % ROWS_PER_BLOCK) scale bits

section

variable {rows bpr : Nat} {src : List Byte} {rb q s lane : Nat}
    (hrb : rb < rowblocksFor rows) (hq : q < bpr)

include hrb hq

/-- The beats of a streamed rowblock are its packed words. -/
theorem Beats.eq_blockWord {beats : Nat → BitVec 64} (h : Beats (packed src rows bpr) bpr rb beats)
    {t : Nat} (ht : t < 18) :
    beats (18 * q + t) = blockWord src rows bpr rb q t := by
  have hfit := beats_fit hrb hq
  have haddr : rb * (bpr * PACKED_PER_Q1_BLOCK) + 8 * (18 * q + t) =
      8 * (18 * (rb * bpr + q) + t) := by
    have hstart : rb * (bpr * PACKED_PER_Q1_BLOCK) = 8 * (18 * (rb * bpr)) := by
      rw [← Nat.mul_assoc, Nat.mul_comm]
      exact Nat.mul_assoc 8 18 _
    omega
  have hbeat := h (18 * q + t) (by omega)
  rw [haddr, packed, take_drop_bytesOf _ (by omega), packedWord_block hq ht] at hbeat
  exact leBytes_injective hbeat

theorem latches_packed (hs : s < 4) (hlane : lane < 8) :
    Latches (packed src rows bpr) bpr rb q s lane (laneScale src rows bpr rb q lane)
      (laneBits src rows bpr rb q s lane) := by
  intro k inp beats hbeats hstreamed
  refine ⟨fun n haccept hcount => ?_, fun hfair n hready hcount => ?_⟩
  · have hissue := hstreamed.latched hs haccept hcount
    refine ⟨hissue.state, ?_, ?_⟩
    · have hlane' : lane / 4 * 4 + lane % 4 = lane := by omega
      rw [hissue.scales ⟨lane, hlane⟩ hlane, Streams.weightScale, Streams.weightBase_first]
      show (beats (18 * q + lane / 4)).extractLsb' (lane % 4 * 16) 16 = _
      rw [hbeats.eq_blockWord hrb hq (by omega), blockWord_scales (by omega), Nat.mul_comm,
        extractLsb'_pack16 _ (by omega), hlane']
    · have hlane' : lane / 2 * 2 + lane % 2 = lane := by omega
      rw [hissue.bits ⟨lane, hlane⟩ hlane, Streams.weightBits, Streams.weightBase_first]
      show (beats (18 * q + 2 + 4 * s + lane / 2)).extractLsb' (lane % 2 * 32) 32 = _
      rw [Nat.add_assoc (18 * q), Nat.add_assoc (18 * q), hbeats.eq_blockWord hrb hq (by omega),
        blockWord_wbits (by omega), Nat.mul_comm, extractLsb'_pack32 _ (by omega), hlane']
  · obtain ⟨m, hle, haccept, hm⟩ :=
      hstreamed.block_accepted hfair hready hcount (t := 4 * s + 5) (by omega)
    exact ⟨m, hle, haccept, hm⟩

end

/-- Every reader of the packed weights gets the lane that was packed. -/
theorem read_packed {sizeBits rows k : Nat} (h : Sized sizeBits rows k)
    (src : List Byte) {r q s : Nat}
    (hr : r / ROWS_PER_BLOCK < rowblocksFor rows) (hq : q < k / Q1_BLOCK) (hs : s < 4) :
    Read sizeBits (packed src rows (k / Q1_BLOCK)) (k / Q1_BLOCK) r q s
      (laneScale src rows (k / Q1_BLOCK) (r / ROWS_PER_BLOCK) q (r % ROWS_PER_BLOCK))
      (laneBits src rows (k / Q1_BLOCK) (r / ROWS_PER_BLOCK) q s (r % ROWS_PER_BLOCK)) where
  matmulScale := Ps.matmulScale_packed h hr hq
  matmulWbits := Ps.matmulWbits_packed h hr hq hs
  getRowsScale := Ps.getRowsScale_packed h hr hq
  getRowsBits := Ps.getRowsBits_packed h hr hq hs
  latches := latches_packed hr hq hs (Nat.mod_lt _ (by decide))

/-- Both packers produce the same bytes, and for every row of every rowblock the three
    readers of them get the scale and the weight bits of that row of the source, or
    zeros beyond the last row. -/
theorem packed_weights_agree (sizeBits rows k : Nat) (h : Sized sizeBits rows k) (src : List Byte)
    (hsrc : src.length = rows * (k / Q1_BLOCK) * Q1_BLOCK_BYTES) :
    ∃ weights, packWeights src rows k = .ok weights ∧ packedNbytes rows k = .ok weights.length ∧
      (∀ out : List Byte, weights.length ≤ out.length →
        packWeightsC sizeBits src rows k out = some (0, weights ++ out.drop weights.length)) ∧
      (∀ r < rows, ∀ q < k / Q1_BLOCK, ∀ s < Q8_SUBBLOCKS, ∃ scale bits,
        readLeU16 src ((r * (k / Q1_BLOCK) + q) * Q1_BLOCK_BYTES) = some scale ∧
          readLeU32 src ((r * (k / Q1_BLOCK) + q) * Q1_BLOCK_BYTES + 2 + 4 * s) = some bits ∧
          Read sizeBits weights (k / Q1_BLOCK) r q s scale bits) ∧
      ∀ r, rows ≤ r → r < rowblocksFor rows * ROWS_PER_BLOCK → ∀ q < k / Q1_BLOCK,
        ∀ s < Q8_SUBBLOCKS, Read sizeBits weights (k / Q1_BLOCK) r q s 0 0 := by
  have hlen : (packed src rows (k / Q1_BLOCK)).length =
      rowblocksFor rows * (k / Q1_BLOCK) * PACKED_PER_Q1_BLOCK :=
    length_packed
  refine ⟨packed src rows (k / Q1_BLOCK), packWeights_eq h.block hsrc, ?_,
    fun out hout => ?_, ?_, ?_⟩
  · rw [hlen]
    exact packedNbytes_ok h.block rows
  · rw [hlen] at hout ⊢
    exact packWeightsC_eq h hsrc hout
  · intro r hr q hq s hs
    have hread := read_packed h src (Ps.rowblock_lt hr) hq hs
    rw [laneScale_of_row hr, laneBits_of_row hr] at hread
    exact ⟨_, _, readLeU16_source hsrc hr hq, readLeU32_source hsrc hr hq hs, hread⟩
  · intro r hr hlast q hq s hs
    have hrb : r / ROWS_PER_BLOCK < rowblocksFor rows :=
      (Nat.div_lt_iff_lt_mul (by decide)).mpr hlast
    have hread := read_packed h src hrb hq hs
    rwa [(lane_of_padding hr q s).1, (lane_of_padding hr q s).2] at hread

/-- Nine rows of one Q1 block, all bytes different. -/
def smallSource : List Byte := (List.range 162).map fun i => BitVec.ofNat 8 i

theorem packed_weights_agree_small :
    Sized 32 9 128 ∧ smallSource.length = 9 * (128 / Q1_BLOCK) * Q1_BLOCK_BYTES ∧
      ∃ weights, packWeights smallSource 9 128 = .ok weights ∧ weights.length = 288 ∧
        packWeightsC 32 smallSource 9 128 weights = some (0, weights) ∧
        Read 32 weights 1 8 0 3 0x9190#16 0xA1A09F9E#32 ∧ Read 32 weights 1 9 0 3 0 0 := by
  have hsized : Sized 32 9 128 :=
    ⟨by decide, by decide, by decide, by decide, by decide, .inr (by decide)⟩
  have hlen : smallSource.length = 9 * (128 / Q1_BLOCK) * Q1_BLOCK_BYTES := by
    simp [smallSource, Q1_BLOCK, Q1_BLOCK_BYTES]
  obtain ⟨weights, hpy, hnbytes, hc, hrows, hpadding⟩ :=
    packed_weights_agree 32 9 128 hsized smallSource hlen
  obtain ⟨scale, bits, hscale, hbits, hread⟩ := hrows 8 (by decide) 0 (by decide) 3 (by decide)
  have hscale' : scale = 0x9190#16 := Option.some.inj (hscale.symm.trans (by decide))
  have hbits' : bits = 0xA1A09F9E#32 := Option.some.inj (hbits.symm.trans (by decide))
  have hlength : weights.length = 288 := (Except.ok.inj hnbytes).symm
  refine ⟨hsized, hlen, weights, hpy, hlength, ?_, hscale' ▸ hbits' ▸ hread,
    hpadding 9 (by decide) (by decide) 0 (by decide) 3 (by decide)⟩
  simpa using hc weights (Nat.le_refl _)

end Layout
