-- SUMMARY: The board under the PL matmul driver: its memory, the runs of the kernel between the DMA engines, and what the calls of the driver do to both.
import BonsaiTpu.Base.Ensures
import BonsaiTpu.Base.Ram
import BonsaiTpu.Board.Async
import BonsaiTpu.Kernel.Feed
import BonsaiTpu.Layout.Rows

/-!
# The board

The slabs and the buffers of the driver lie in one memory. A chunk is a run of the kernel
whose streams the two DMA engines move between it and the memory, with any stalls. What
the calls of the driver do is a relation between boards, and `Ensures` is what holds
after some calls, however the kernel and the engines take their time.
-/

namespace Board.Matmul

open Layout (Q1_BLOCK ROWS_PER_BLOCK)
open Ram (poke peek pokeAt)
open Q1a8 (Inputs cycle actsAccepted weightsAccepted emitted Unfinished)

/-! ## Chunks -/

/-- A beat that a DMA engine sends: the bytes of the memory from its source on. What the
    engine reads where the result is written meanwhile is open. -/
def Sends (w : Runner.Words) (dram : Nat → Byte) (source nbytes : BitVec 32) (beat : Nat)
    (data : BitVec 64) : Prop :=
  ∀ i < 8, 8 * beat + i < nbytes.toNat →
    ¬(w.resultPhysAddr.toNat ≤ source.toNat + (8 * beat + i) ∧
      source.toNat + (8 * beat + i) < w.resultPhysAddr.toNat + w.resultNbytes.toNat) →
    data.extractLsb' (8 * i) 8 = dram (source.toNat + (8 * beat + i))

/-- The clock edges of an idle kernel that is neither started nor reset. -/
inductive Dwells (k : Q1a8.Kernel) : Q1a8.Kernel → Prop
  | refl : Dwells k k
  | step {k' : Q1a8.Kernel} (i : Inputs) :
      Dwells k k' → i.startKernel = false → i.rstN = true → Dwells k (k'.step i)

/-- A run of the kernel in which the engines move a chunk, from its start up to the cycle in
    which the kernel is done. -/
structure Moves (w : Runner.Words) (dram dram' : Nat → Byte) (k : Q1a8.Kernel) (inp : Nat → Inputs)
    (n : Nat) : Prop where
  start : (inp 0).startKernel = true
  rstN : ∀ m < n, (inp m).rstN = true
  numRowblocks : (inp 0).numRowblocks = w.numRowblocks.setWidth 16
  numQ1Blocks : ∀ m < n, (inp m).numQ1Blocks = w.numQ1Blocks.setWidth 16
  acts : ∀ m < n, (cycle k inp m).actsBeatAccept (inp m) = true →
    Sends w dram w.actsPhysAddr w.actsNbytes (actsAccepted k inp m) (inp m).sAxisActsTdata
  weights : ∀ m < n, (cycle k inp m).weightsBeatAccept (inp m) = true →
    Sends w dram w.weightsPhysAddr w.weightsNbytes (weightsAccepted k inp m) (inp m).sAxisTdata
  pos : 1 ≤ n
  unfinished : Unfinished k inp n
  done : (cycle k inp n).kernelDone = true
  stored : ∀ m < n, (cycle k inp m).mAxisTvalid = true → (inp m).mAxisTready = true →
    ∀ i < 8, 8 * emitted k inp m + i < w.resultNbytes.toNat →
      dram' (w.resultPhysAddr.toNat + (8 * emitted k inp m + i)) =
        (cycle k inp m).mAxisTdata.extractLsb' (8 * i) 8
  kept : ∀ x, ¬(w.resultPhysAddr.toNat ≤ x ∧ x < w.resultPhysAddr.toNat + w.resultNbytes.toNat) →
    dram' x = dram x

/-- The streams of a chunk. -/
def chunkStreams (w : Runner.Words) (dram : Nat → Byte) : Q1a8.Streams :=
  Layout.memoryStreams w.numQ1Blocks.toNat w.numRowblocks.toNat (fun i =>
    dram (w.actsPhysAddr.toNat + i))
    fun i => dram (w.weightsPhysAddr.toNat + i)

/-- A byte of the result: a byte of a lane of a rowblock. -/
def resultByte (j : Q1a8.Streams) (i : Nat) : Byte :=
  (j.laneResult (i / 32) (i / 4 % 8)).extractLsb' (8 * (i % 4)) 8

/-- The memory behind a chunk. -/
def chunkMemory (w : Runner.Words) (dram : Nat → Byte) (x : Nat) : Byte :=
  if w.resultPhysAddr.toNat ≤ x ∧ x < w.resultPhysAddr.toNat + w.resultNbytes.toNat then
    resultByte (chunkStreams w dram) (x - w.resultPhysAddr.toNat)
  else dram x

/-- The words of a chunk are its numbers. -/
structure Chunk.Exact (c : Chunk) : Prop where
  weightsPhysAddr : c.words.weightsPhysAddr.toNat = c.weightsPhysAddr
  weightsNbytes : c.words.weightsNbytes.toNat = c.weightsNbytes
  actsPhysAddr : c.words.actsPhysAddr.toNat = c.actsPhysAddr
  actsNbytes : c.words.actsNbytes.toNat = c.actsNbytes
  resultPhysAddr : c.words.resultPhysAddr.toNat = c.resultPhysAddr
  resultNbytes : c.words.resultNbytes.toNat = c.resultNbytes
  numQ1Blocks : c.words.numQ1Blocks.toNat = c.numQ1Blocks
  numRowblocks : c.words.numRowblocks.toNat = c.numRowblocks

theorem toNat_cUint32 {n : Nat} (h : n < 2 ^ 32) : (cUint32 n).toNat = n := by
  rw [cUint32, BitVec.toNat_ofNat, Nat.mod_eq_of_lt h]

/-- A chunk that the kernel is made for, with sources beside the result. -/
structure Proper (w : Runner.Words) : Prop where
  q1Pos : 1 ≤ w.numQ1Blocks.toNat
  q1Le : w.numQ1Blocks.toNat ≤ 64
  rbPos : 1 ≤ w.numRowblocks.toNat
  rbLe : w.numRowblocks.toNat ≤ 65535
  actsNbytes : w.actsNbytes.toNat = 160 * w.numQ1Blocks.toNat
  weightsNbytes : w.weightsNbytes.toNat = 144 * (w.numQ1Blocks.toNat * w.numRowblocks.toNat)
  resultNbytes : w.resultNbytes.toNat = 32 * w.numRowblocks.toNat
  acts_apart : ∀ i < w.actsNbytes.toNat, ¬(w.resultPhysAddr.toNat ≤ w.actsPhysAddr.toNat + i ∧
    w.actsPhysAddr.toNat + i < w.resultPhysAddr.toNat + w.resultNbytes.toNat)
  weights_apart : ∀ i < w.weightsNbytes.toNat,
    ¬(w.resultPhysAddr.toNat ≤ w.weightsPhysAddr.toNat + i ∧
    w.weightsPhysAddr.toNat + i < w.resultPhysAddr.toNat + w.resultNbytes.toNat)

section

variable {w : Runner.Words} {dram dram' : Nat → Byte} {k k' : Q1a8.Kernel}
    {inp : Nat → Inputs} {n : Nat}

theorem Dwells.idle (h : Dwells k k') (hk : Q1a8.Reachable k) (hidle : k.busyQ = false) :
    Q1a8.Reachable k' ∧ k'.busyQ = false := by
  induction h with
  | refl => exact ⟨hk, hidle⟩
  | step i _ hstart hrst ih =>
    refine ⟨.step i ih.1, ?_⟩
    simp only [Q1a8.Kernel.step, Q1a8.Kernel.control, Q1a8.Kernel.startPulse, hstart, hrst, ih.2]
    exact ih.2

def Proper.job (h : Proper w) (dram : Nat → Byte) : Q1a8.Job where
  toStreams := chunkStreams w dram
  q1Pos := h.q1Pos
  q1Le := h.q1Le
  rbPos := h.rbPos
  rbLe := h.rbLe

/-- A beat that is sent from beside the result is the beat of the memory. -/
theorem Sends.eq {source nbytes : BitVec 32} {beat : Nat} {data : BitVec 64}
    (h : Sends w dram source nbytes beat data) (hin : 8 * beat + 8 ≤ nbytes.toNat)
    (hout : ∀ i < nbytes.toNat, ¬(w.resultPhysAddr.toNat ≤ source.toNat + i ∧
      source.toNat + i < w.resultPhysAddr.toNat + w.resultNbytes.toNat)) :
    data = Layout.beatOf fun i => dram (source.toNat + (8 * beat + i)) := by
  refine (Layout.beatOf_eq fun i hi => ?_).symm
  rw [Words.getElem?_leBytes _ hi, h i hi (by omega) (hout _ (by omega))]

/-- A beat of the memory can be sent. -/
theorem sends_beatOf (source nbytes : BitVec 32) (beat : Nat) :
    Sends w dram source nbytes beat (Layout.beatOf fun i => dram (source.toNat + (8 * beat + i))) :=
  fun _ hi _ _ => Layout.extractLsb'_pack8 _ hi

/-- The bytes of a result beat. -/
theorem extractLsb'_resultBeat (j : Q1a8.Streams) {e i : Nat} (hi : i < 8) :
    (j.resultBeat e).extractLsb' (8 * i) 8 = resultByte j (8 * e + i) := by
  have hlane : (8 * e + i) / 32 = e / 4 ∧ (8 * e + i) / 4 % 8 = 2 * (e % 4) + i / 4 ∧
      (8 * e + i) % 4 = i % 4 := by omega
  rw [resultByte, hlane.1, hlane.2.1, hlane.2.2, Q1a8.Streams.resultBeat]
  apply BitVec.eq_of_getLsbD_eq
  intro b hb
  rw [BitVec.getLsbD_extractLsb', BitVec.getLsbD_extractLsb', BitVec.getLsbD_append]
  by_cases hlow : i < 4
  · rw [if_pos (by omega), show 2 * (e % 4) + i / 4 = 2 * (e % 4) by omega, show i % 4 = i by omega]
  · rw [if_neg (by omega), show 2 * (e % 4) + i / 4 = 2 * (e % 4) + 1 by omega,
      show 8 * i + b - 32 = 8 * (i % 4) + b by omega]

/-! ## What a chunk leaves -/

section Chunk

variable (hp : Proper w) (hk : Q1a8.Reachable k) (hidle : k.busyQ = false)

/-- A cycle of a run that is not finished is one before its end. -/
theorem Moves.lt_of_unfinished (h : Moves w dram dram' k inp n) {c : Nat}
    (hun : Unfinished k inp (c + 1)) : c < n := by
  by_contra hle
  have hdone := hun n h.pos (by omega)
  rw [h.done] at hdone
  cases hdone

include hp hk hidle

/-- The run of a chunk is fed the streams of the chunk. -/
theorem Moves.run (h : Moves w dram dram' k inp n) : Q1a8.Run k inp (hp.job dram).toStreams := by
  have hrows : (inp 0).numRowblocks.toNat = (hp.job dram).rowblocks := by
    rw [h.numRowblocks, BitVec.toNat_setWidth]
    exact Nat.mod_eq_of_lt (Nat.lt_succ_of_le hp.rbLe)
  have hq1 : ∀ c, Unfinished k inp (c + 1) →
      (inp c).numQ1Blocks.toNat = (hp.job dram).q1Blocks := by
    intro c hun
    rw [h.numQ1Blocks c (h.lt_of_unfinished hun), BitVec.toNat_setWidth]
    exact Nat.mod_eq_of_lt (Nat.lt_of_le_of_lt hp.q1Le (by decide))
  have hrst : ∀ c, Unfinished k inp (c + 1) → (inp c).rstN = true :=
    fun c hun => h.rstN c (h.lt_of_unfinished hun)
  have hlt := fun c hun => Q1a8.accepted_lt (c := c) hk hidle h.start hrst hrows hq1 hun
  refine ⟨⟨h.start, hrst, fun c hun hc => ?_, fun c hun hc => ?_⟩, hrows, hq1⟩
  · have hbeat : actsAccepted k inp c < 20 * w.numQ1Blocks.toNat := (hlt c hun).1 hc
    have hnbytes := hp.actsNbytes
    refine (h.acts c (h.lt_of_unfinished hun) hc).eq (by omega) hp.acts_apart
  · have hbeat : weightsAccepted k inp c < 18 * w.numQ1Blocks.toNat * w.numRowblocks.toNat :=
      (hlt c hun).2 hc
    have hnbytes := hp.weightsNbytes
    rw [Nat.mul_assoc] at hbeat
    refine (h.weights c (h.lt_of_unfinished hun) hc).eq (by omega) hp.weights_apart

/-- Every byte of the result is a byte of a lane. -/
theorem Moves.result (h : Moves w dram dram' k inp n) {i : Nat} (hi : i < w.resultNbytes.toNat) :
    dram' (w.resultPhysAddr.toNat + i) = resultByte (chunkStreams w dram) i := by
  have hrun := h.run hp hk hidle
  have hobs := hrun.observed hk.rests hidle h.unfinished
  have hemitted : emitted k inp n = 4 * w.numRowblocks.toNat := (hobs.complete h.pos h.done).2.2
  have hnbytes := hp.resultNbytes
  have hlt : i / 8 < emitted k inp n := by omega
  obtain ⟨m, hm, hvalid, hready, hbeat⟩ := Q1a8.exists_emitted hlt
  have hun : Unfinished k inp m := h.unfinished.mono (Nat.le_of_lt hm)
  have hindex : 8 * emitted k inp m + i % 8 = i := by omega
  have hstored := h.stored m hm hvalid hready (i % 8) (by omega) (by omega)
  rw [((hrun.observed hk.rests hidle hun).beat hvalid).1, extractLsb'_resultBeat _ (by omega),
    hindex] at hstored
  exact hstored

/-- The kernel rests when it is done. -/
theorem Moves.idle (h : Moves w dram dram' k inp n) :
    Q1a8.Reachable (cycle k inp n) ∧ (cycle k inp n).busyQ = false := by
  have hreach : ∀ c, Q1a8.Reachable (cycle k inp c) := by
    intro c
    induction c with
    | zero => exact hk
    | succ c ih => exact .step (inp c) ih
  refine ⟨hreach n, ?_⟩
  obtain ⟨m, rfl⟩ := Nat.exists_eq_add_of_le' h.pos
  obtain ⟨p, ht⟩ := (h.run hp hk hidle).tracks hk.rests hidle h.unfinished
  obtain ⟨hbusy, hdone⟩ := ht.at_.flags
  rw [h.done] at hdone
  rw [hbusy, of_decide_eq_true hdone.symm]
  rfl

/-- A chunk leaves its results in the memory, and nothing else. -/
theorem Moves.memory (h : Moves w dram dram' k inp n) : dram' = chunkMemory w dram := by
  funext x
  unfold chunkMemory
  split
  · next hin =>
    have hresult := h.result hp hk hidle (i := x - w.resultPhysAddr.toNat) (by omega)
    rwa [Nat.add_sub_cancel' hin.1] at hresult
  · next hout => exact h.kept x hout

/-- Streams that never stall move a chunk. -/
theorem moves_feedInputs (dram : Nat → Byte) :
    ∃ n, Moves w dram (chunkMemory w dram) k (Q1a8.feedInputs (hp.job dram).toStreams k) n := by
  have hrun := Q1a8.run_feedInputs (hp.job dram) k
  obtain ⟨n, hpos, hun, hdone⟩ := hrun.finishes hk.rests hidle (Q1a8.fair_feedInputs _ k)
  have hnbytes := hp.resultNbytes
  refine ⟨n, ?_⟩
  exact
    { start := rfl, rstN := fun _ _ => rfl, pos := hpos, unfinished := hun, done := hdone
      numRowblocks := BitVec.ofNat_toNat ..
      numQ1Blocks := fun _ _ => BitVec.ofNat_toNat ..
      acts := fun m hm hc => by
        rw [hrun.acts m (hun.mono hm) hc]
        exact sends_beatOf _ _ _
      weights := fun m hm hc => by
        rw [hrun.weights m (hun.mono hm) hc]
        exact sends_beatOf _ _ _
      stored := fun m hm hvalid _ i hi hlt => by
        rw [chunkMemory, if_pos (by omega), Nat.add_sub_cancel_left,
          ((hrun.observed hk.rests hidle (hun.mono (Nat.le_of_lt hm))).beat hvalid).1,
          extractLsb'_resultBeat _ hi]
        rfl
      kept := fun x hx => if_neg hx }

/-- A chunk can be moved, from every idle state of the kernel. -/
theorem exists_moves (dram : Nat → Byte) : ∃ dram' inp n, Moves w dram dram' k inp n := by
  obtain ⟨n, hmoves⟩ := moves_feedInputs hp hk hidle dram
  exact ⟨_, _, n, hmoves⟩

end Chunk

end

/-! ## Calls -/

/-- What surrounds the driver: where user-space addresses lie in the memory, and
    `bonsai_quantize_q8_0_pl`. -/
structure Platform where
  translate : Nat → Nat
  quantize : List Byte → List Byte × List (BitVec 16)
  quants_length : ∀ floats, (quantize floats).1.length = floats.length / F32_BYTES
  scales_length : ∀ floats, (quantize floats).2.length = floats.length / F32_BYTES / Layout.Q8_BLOCK

/-- The memory, the quantized column, the chunk that was started and the kernel. -/
structure Fpga where
  dram : Nat → Byte
  quants : List Byte
  scaleBits : List (BitVec 16)
  started : Option Chunk
  kernel : Q1a8.Kernel

/-- The kernel waits for a start, and no chunk is under way. -/
structure Fpga.Rests (st : Fpga) : Prop where
  reachable : Q1a8.Reachable st.kernel
  idle : st.kernel.busyQ = false
  started : st.started = none

/-- The address of a byte of a slab. -/
def address (d : Driver) (loc : Loc) : Nat := (d.pynqBuffer loc.1).getD 0 + loc.2

/-- Where a buffer lies. -/
def startOf (buffer : Option Buffer) : Nat := (buffer.map Buffer.physicalAddress).getD 0

def sizeOf (buffer : Option Buffer) : Nat := (buffer.map Buffer.size).getD 0

@[simp] theorem startOf_some (buffer : Buffer) :
    startOf (some buffer) = buffer.physicalAddress := rfl

@[simp] theorem sizeOf_some (buffer : Buffer) : sizeOf (some buffer) = buffer.size := rfl

section

variable {σ : Type} (pf : Platform) (d : Driver) (a : Allocator σ) (b : Buffers)

/-- The addresses of a range of a tensor. -/
def rangeAddresses (handle offset nbytes : Nat) : List Nat :=
  match a.getRecord handle with
  | .ok record => (rangeLocations record.extents offset nbytes).map (address d)
  | .error _ => []

/-- What a call does to the board. -/
def Does : Act → Fpga → Fpga → Prop
  | .copyActs handle offset nbytes, st, st' =>
    st' =
      { st with
        dram := pokeAt st.dram (startOf b.actsIn)
          ((rangeAddresses d a handle offset nbytes).map st.dram) }
  | .quantize va k, st, st' =>
    let column :=
      pf.quantize ((List.range (k * F32_BYTES)).map fun i => st.dram (pf.translate (va + i)))
    st' = { st with quants := column.1, scaleBits := column.2 }
  | .packActs k, st, st' =>
    ∃ bytes, Layout.packActsC 32 st.quants st.scaleBits k
      (peek st.dram (startOf b.acts) (sizeOf b.acts)) = some (0, bytes) ∧
      st' = { st with dram := pokeAt st.dram (startOf b.acts) bytes }
  | .copyWeights handle offset nbytes, st, st' =>
    st' =
      { st with
        dram := pokeAt st.dram (startOf b.weightsDma)
          ((rangeAddresses d a handle offset nbytes).map st.dram) }
  -- nothing touches the memory between the start of a chunk and its wait, where it runs
  | .start c, st, st' => st' = { st with started := some c }
  | .wait, st, st' =>
    ∃ c k inp n, st.started = some c ∧ Dwells st.kernel k ∧ Moves c.words st.dram st'.dram k inp n ∧
      st' = { st with dram := st'.dram, started := none, kernel := cycle k inp n }
  | .writeResult handle offset nbytes, st, st' =>
    st' = { st with
      dram :=
        poke st.dram
          ((rangeAddresses d a handle offset nbytes).zip (peek st.dram (startOf b.result) nbytes)) }
  -- the caches show what is in the memory
  | .invalidateResult _, st, st' => st' = st
  | .invalidateRange .., st, st' => st' = st

variable {pf d a b} in
/-- Packing has one outcome. -/
theorem does_packActs {k : Nat} {st : Fpga} {bytes : List Byte}
    (h : Layout.packActsC 32 st.quants st.scaleBits k
      (peek st.dram (startOf b.acts) (sizeOf b.acts)) = some (0, bytes)) (st' : Fpga) :
    Does pf d a b (.packActs k) st st' ↔
      st' = { st with dram := pokeAt st.dram (startOf b.acts) bytes } := by
  constructor
  · rintro ⟨bytes', hbytes', rfl⟩
    obtain rfl := (Prod.mk.inj (Option.some.inj (h.symm.trans hbytes'))).2
    rfl
  · rintro rfl
    exact ⟨bytes, h, rfl⟩

/-- What is sure to hold after some calls. -/
abbrev Makes (acts : List Act) (post : Fpga → Prop) (st : Fpga) : Prop :=
  Ensures (Does pf d a b) acts post st

end

end Board.Matmul
