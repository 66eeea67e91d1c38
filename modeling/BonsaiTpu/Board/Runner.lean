-- SUMMARY: The register accesses of one matmul chunk: start, wait, and the serial call of both (`kernels/ps/q1a8_runner.c`).
import BonsaiTpu.Board.Matmul

/-!
# The chunk runner

The C runner pokes the registers of the kernel and of the two DMA engines. A device
answers reads and changes with every access; a run logs the writes it makes, in order.
-/

namespace Board.Runner

/-- The three register files. -/
inductive Regs where
  | kernel
  | dmaW
  | dmaA
  deriving DecidableEq

/-- A write of a word, with its offset in words. -/
structure Write where
  regs : Regs
  off : Nat
  value : BitVec 32
  deriving DecidableEq

def DMA_MM2S_DMACR : Nat := 0x00 / 4
def DMA_MM2S_DMASR : Nat := 0x04 / 4
def DMA_MM2S_SA : Nat := 0x18 / 4
def DMA_MM2S_LENGTH : Nat := 0x28 / 4
def DMA_S2MM_DMACR : Nat := 0x30 / 4
def DMA_S2MM_DMASR : Nat := 0x34 / 4
def DMA_S2MM_DA : Nat := 0x48 / 4
def DMA_S2MM_LENGTH : Nat := 0x58 / 4

def DMACR_RS : BitVec 32 := 1#32 <<< 0
def DMACR_RESET : BitVec 32 := 1#32 <<< 2
def DMASR_IDLE : BitVec 32 := 1#32 <<< 1
def DMASR_ERR_MASK : BitVec 32 := 0x70#32

def KREG_CTRL : Nat := 0x08 / 4
def KREG_STATUS : Nat := 0x0C / 4
def KREG_NUM_Q1_BLOCKS : Nat := 0x10 / 4
def KREG_NUM_ROWBLOCKS : Nat := 0x14 / 4
def KREG_CYCLES : Nat := 0x18 / 4

def KCTRL_START : BitVec 32 := 1#32 <<< 0
def KSTAT_DONE : BitVec 32 := 1#32 <<< 1

/-- What answers the accesses. -/
structure Device (δ : Type) where
  read : Regs → Nat → δ → BitVec 32 × δ
  write : Write → δ → δ

/-- The device and the writes so far. -/
structure Bus (δ : Type) where
  state : δ
  log : List Write

abbrev Access (δ : Type) := StateM (Bus δ)

section

variable {δ : Type} (dev : Device δ)

def mmioRd (regs : Regs) (off : Nat) : Access δ (BitVec 32) := fun bus =>
  ((dev.read regs off bus.state).1, { bus with state := (dev.read regs off bus.state).2 })

def mmioWr (regs : Regs) (off : Nat) (value : BitVec 32) : Access δ Unit := fun bus =>
  ((), ⟨dev.write ⟨regs, off, value⟩ bus.state, bus.log ++ [⟨regs, off, value⟩]⟩)

/-- The loop of `ensure_dma_running`. -/
def awaitReset (regs : Regs) (dmacrOff : Nat) : Nat → Access δ Unit
  | 0 => pure ()
  | count + 1 => do
    let cr ← mmioRd dev regs dmacrOff
    if cr &&& DMACR_RESET = 0 then pure () else awaitReset regs dmacrOff count

def ensureDmaRunning (regs : Regs) (dmacrOff : Nat) : Access δ Int := do
  let cr ← mmioRd dev regs dmacrOff
  if cr &&& DMACR_RS ≠ 0 then pure 0
  else
    mmioWr dev regs dmacrOff DMACR_RESET
    awaitReset dev regs dmacrOff 1000000
    let cr ← mmioRd dev regs dmacrOff
    if cr &&& DMACR_RESET ≠ 0 then pure (-1)
    else
      mmioWr dev regs dmacrOff DMACR_RS
      pure 0

def pollDmaIdle (regs : Regs) (dmasrOff : Nat) : Nat → Access δ Int
  | 0 => pure (-1)
  | pollLimit + 1 => do
    let sr ← mmioRd dev regs dmasrOff
    if sr &&& DMASR_ERR_MASK ≠ 0 then pure (-2)
    else if sr &&& DMASR_IDLE ≠ 0 then pure 0
    else pollDmaIdle regs dmasrOff pollLimit

/-- The last loop of `bonsai_q1a8_wait_matmul_chunk`; the cycles are returned beside the code. -/
def pollDone : Nat → Access δ (Int × Option (BitVec 32))
  | 0 => pure (-50, none)
  | pollLimit + 1 => do
    let status ← mmioRd dev .kernel KREG_STATUS
    if status &&& KSTAT_DONE ≠ 0 then
      let cycles ← mmioRd dev .kernel KREG_CYCLES
      pure (0, some cycles)
    else pollDone pollLimit

/-- The pointers of a call that are not null. -/
structure Pointers where
  kernelRegs : Bool
  dmaWRegs : Bool
  dmaARegs : Bool
  outCycles : Bool

/-- The words of a chunk that the driver passes. -/
structure Words where
  weightsPhysAddr : BitVec 32
  weightsNbytes : BitVec 32
  actsPhysAddr : BitVec 32
  actsNbytes : BitVec 32
  resultPhysAddr : BitVec 32
  resultNbytes : BitVec 32
  numQ1Blocks : BitVec 32
  numRowblocks : BitVec 32
  deriving DecidableEq

/-- The writes of a chunk, once the DMA channels run. -/
def chunkWrites (w : Words) : List Write :=
  [⟨.kernel, KREG_NUM_Q1_BLOCKS, w.numQ1Blocks⟩, ⟨.kernel, KREG_NUM_ROWBLOCKS, w.numRowblocks⟩,
    ⟨.dmaW, DMA_S2MM_DA, w.resultPhysAddr⟩, ⟨.dmaW, DMA_S2MM_LENGTH, w.resultNbytes⟩,
    ⟨.kernel, KREG_CTRL, KCTRL_START⟩,
    ⟨.dmaA, DMA_MM2S_SA, w.actsPhysAddr⟩, ⟨.dmaA, DMA_MM2S_LENGTH, w.actsNbytes⟩,
    ⟨.dmaW, DMA_MM2S_SA, w.weightsPhysAddr⟩, ⟨.dmaW, DMA_MM2S_LENGTH, w.weightsNbytes⟩]

/-- `bonsai_q1a8_start_matmul_chunk`. -/
def startMatmulChunk (ptrs : Pointers) (w : Words) : Access δ Int := do
  if !ptrs.kernelRegs || !ptrs.dmaWRegs || !ptrs.dmaARegs then pure (-1)
  else
    if (← ensureDmaRunning dev .dmaW DMA_MM2S_DMACR) ≠ 0 then pure (-10)
    else if (← ensureDmaRunning dev .dmaW DMA_S2MM_DMACR) ≠ 0 then pure (-11)
    else if (← ensureDmaRunning dev .dmaA DMA_MM2S_DMACR) ≠ 0 then pure (-12)
    else
      mmioWr dev .kernel KREG_NUM_Q1_BLOCKS w.numQ1Blocks
      mmioWr dev .kernel KREG_NUM_ROWBLOCKS w.numRowblocks
      mmioWr dev .dmaW DMA_S2MM_DA w.resultPhysAddr
      mmioWr dev .dmaW DMA_S2MM_LENGTH w.resultNbytes
      mmioWr dev .kernel KREG_CTRL KCTRL_START
      mmioWr dev .dmaA DMA_MM2S_SA w.actsPhysAddr
      mmioWr dev .dmaA DMA_MM2S_LENGTH w.actsNbytes
      mmioWr dev .dmaW DMA_MM2S_SA w.weightsPhysAddr
      mmioWr dev .dmaW DMA_MM2S_LENGTH w.weightsNbytes
      pure 0

/-- `bonsai_q1a8_wait_matmul_chunk`. -/
def waitMatmulChunk (ptrs : Pointers) (pollLimit : BitVec 32) :
    Access δ (Int × Option (BitVec 32)) := do
  if !ptrs.kernelRegs || !ptrs.dmaWRegs || !ptrs.dmaARegs || !ptrs.outCycles then pure (-1, none)
  else
    let rc ← pollDmaIdle dev .dmaA DMA_MM2S_DMASR pollLimit.toNat
    if rc ≠ 0 then pure (-20 + rc, none)
    else
      let rc ← pollDmaIdle dev .dmaW DMA_MM2S_DMASR pollLimit.toNat
      if rc ≠ 0 then pure (-30 + rc, none)
      else
        let rc ← pollDmaIdle dev .dmaW DMA_S2MM_DMASR pollLimit.toNat
        if rc ≠ 0 then pure (-40 + rc, none)
        else pollDone dev pollLimit.toNat

/-- `bonsai_q1a8_run_matmul_chunk`. -/
def runMatmulChunk (ptrs : Pointers) (w : Words) (pollLimit : BitVec 32) :
    Access δ (Int × Option (BitVec 32)) := do
  let rc ← startMatmulChunk dev ptrs w
  if rc ≠ 0 then pure (rc, none)
  else waitMatmulChunk dev ptrs pollLimit

/-! ## Writes -/

theorem bind_apply {α β : Type} (x : Access δ α) (f : α → Access δ β) (bus : Bus δ) :
    (x >>= f) bus = f (x bus).1 (x bus).2 := rfl

/-- A run that makes no writes. -/
def Silent {α : Type} (x : Access δ α) : Prop := ∀ bus, (x bus).2.log = bus.log

variable {dev}

theorem Silent.pure {α : Type} (v : α) : Silent (Pure.pure v : Access δ α) := fun _ => rfl

theorem Silent.bind {α β : Type} {x : Access δ α} {f : α → Access δ β} (hx : Silent x)
    (hf : ∀ v, Silent (f v)) :
    Silent (x >>= f) := fun bus => (hf _ _).trans (hx bus)

theorem silent_mmioRd (regs : Regs) (off : Nat) : Silent (mmioRd dev regs off) := fun _ => rfl

theorem silent_pollDmaIdle (regs : Regs) (off pollLimit : Nat) :
    Silent (pollDmaIdle dev regs off pollLimit) := by
  induction pollLimit with
  | zero => exact .pure _
  | succ n ih =>
    refine .bind (silent_mmioRd _ _) fun sr => ?_
    split
    · exact .pure _
    · split
      · exact .pure _
      · exact ih

theorem silent_pollDone (pollLimit : Nat) : Silent (pollDone dev pollLimit) := by
  induction pollLimit with
  | zero => exact .pure _
  | succ n ih =>
    refine .bind (silent_mmioRd _ _) fun status => ?_
    split
    · exact .bind (silent_mmioRd _ _) fun _ => .pure _
    · exact ih

/-- Waiting only reads. -/
theorem silent_waitMatmulChunk (ptrs : Pointers) (pollLimit : BitVec 32) :
    Silent (waitMatmulChunk dev ptrs pollLimit) := by
  unfold waitMatmulChunk
  split
  · exact .pure _
  · refine .bind (silent_pollDmaIdle _ _ _) fun rc => ?_
    split
    · exact .pure _
    · refine .bind (silent_pollDmaIdle _ _ _) fun rc => ?_
      split
      · exact .pure _
      · refine .bind (silent_pollDmaIdle _ _ _) fun rc => ?_
        split
        · exact .pure _
        · exact silent_pollDone _

/-- A run whose writes only reset or start DMA channels. -/
def Resets {α : Type} (x : Access δ α) : Prop :=
  ∀ bus, ∃ resets : List Write, (x bus).2.log = bus.log ++ resets ∧
    ∀ write ∈ resets, write.off = DMA_MM2S_DMACR ∨ write.off = DMA_S2MM_DMACR

theorem Silent.resets {α : Type} {x : Access δ α} (hx : Silent x) : Resets x := fun bus =>
  ⟨[], by rw [hx bus, List.append_nil], by simp⟩

theorem Resets.bind {α β : Type} {x : Access δ α} {f : α → Access δ β} (hx : Resets x)
    (hf : ∀ v, Resets (f v)) :
    Resets (x >>= f) := by
  intro bus
  obtain ⟨r, hr, hro⟩ := hx bus
  obtain ⟨r', hr', hro'⟩ := hf (x bus).1 (x bus).2
  refine ⟨r ++ r', ?_, ?_⟩
  · rw [← List.append_assoc, ← hr, ← hr']
    rfl
  · intro write hw
    rcases List.mem_append.mp hw with hw | hw
    · exact hro write hw
    · exact hro' write hw

theorem resets_mmioWr {off : Nat} (hoff : off = DMA_MM2S_DMACR ∨ off = DMA_S2MM_DMACR) (regs : Regs)
    (value : BitVec 32) :
    Resets (mmioWr dev regs off value) := by
  intro bus
  refine ⟨[⟨regs, off, value⟩], rfl, ?_⟩
  intro write hw
  obtain rfl := List.mem_singleton.mp hw
  exact hoff

theorem silent_awaitReset (regs : Regs) (off count : Nat) :
    Silent (awaitReset dev regs off count) := by
  induction count with
  | zero => exact .pure _
  | succ count ih =>
    refine .bind (silent_mmioRd _ _) fun cr => ?_
    split
    · exact .pure _
    · exact ih

theorem resets_ensureDmaRunning {off : Nat}
    (hoff : off = DMA_MM2S_DMACR ∨ off = DMA_S2MM_DMACR) (regs : Regs) :
    Resets (ensureDmaRunning dev regs off) := by
  refine .bind (silent_mmioRd _ _).resets fun cr => ?_
  split
  · exact (Silent.pure _).resets
  · refine .bind (resets_mmioWr hoff _ _) fun _ => .bind (silent_awaitReset _ _ _).resets fun _ =>
      .bind (silent_mmioRd _ _).resets fun cr => ?_
    split
    · exact (Silent.pure _).resets
    · exact .bind (resets_mmioWr hoff _ _) fun _ => (Silent.pure _).resets

/-- A start that returns 0 has brought up the DMA channels and then made the writes of its chunk. -/
theorem startMatmulChunk_log {ptrs : Pointers} {w : Words} {bus : Bus δ}
    (h : (startMatmulChunk dev ptrs w bus).1 = 0) :
    ∃ resets : List Write, (startMatmulChunk dev ptrs w bus).2.log =
      bus.log ++ resets ++ chunkWrites w ∧
      ∀ write ∈ resets, write.off = DMA_MM2S_DMACR ∨ write.off = DMA_S2MM_DMACR := by
  have hup : Resets (do
      let _ ← ensureDmaRunning dev .dmaW DMA_MM2S_DMACR
      let _ ← ensureDmaRunning dev .dmaW DMA_S2MM_DMACR
      ensureDmaRunning dev .dmaA DMA_MM2S_DMACR) :=
    .bind (resets_ensureDmaRunning (Or.inl rfl) _) fun _ =>
    .bind (resets_ensureDmaRunning (Or.inr rfl) _) fun _ =>
      resets_ensureDmaRunning (Or.inl rfl) _
  obtain ⟨resets, hlog, hoff⟩ := hup bus
  refine ⟨resets, ?_, hoff⟩
  rw [← hlog]
  unfold startMatmulChunk at h ⊢
  split at h
  · cases h
  · next hnull =>
    rw [if_neg hnull]
    -- each channel that fails to come up returns its own code
    rw [bind_apply] at h ⊢
    split at h
    · cases h
    · next h1 =>
      rw [if_neg h1, bind_apply] at *
      split at h
      · cases h
      · next h2 =>
        rw [if_neg h2, bind_apply] at *
        split at h
        · cases h
        · next h3 =>
          rw [if_neg h3]
          simp only [bind_apply, mmioWr, chunkWrites, List.append_assoc, List.cons_append,
            List.nil_append]
          rfl

/-- The serial call is the start and, when it returns 0, the wait; the writes of the call
    are those of the start, in their order. -/
theorem runMatmulChunk_eq (ptrs : Pointers) (w : Words) (pollLimit : BitVec 32) (bus : Bus δ) :
    let started := startMatmulChunk dev ptrs w bus
    runMatmulChunk dev ptrs w pollLimit bus =
        (if started.1 = 0 then waitMatmulChunk dev ptrs pollLimit
          started.2 else ((started.1, none), started.2)) ∧
      (runMatmulChunk dev ptrs w pollLimit bus).2.log = started.2.log := by
  intro started
  have hrun : runMatmulChunk dev ptrs w pollLimit bus =
      if started.1 = 0 then waitMatmulChunk dev ptrs pollLimit started.2
      else ((started.1, none), started.2) := by
    change (if started.1 ≠ 0 then (pure (started.1, none) : Access δ _) else waitMatmulChunk
      dev ptrs pollLimit)
      started.2 = _
    by_cases hrc : started.1 = 0
    · rw [if_neg (not_not_intro hrc), if_pos hrc]
    · rw [if_pos hrc, if_neg hrc]
      rfl
  refine ⟨hrun, ?_⟩
  rw [hrun]
  split
  · exact silent_waitMatmulChunk ptrs pollLimit started.2
  · rfl

end

end Board.Runner
