-- SUMMARY: The sequencer of the PL kernel: stream handshakes, the acts BRAM, the ten-state FSM and the result mux (`q1a8_kernel.v`).
import BonsaiTpu.Base.Machine
import BonsaiTpu.Kernel.Datapath

/-!
# The Q1A8 kernel

`q1a8_kernel.v` with `ROWS = 8` and `MAX_SUB_INDEX = 256`. The acts of a column are
loaded into a BRAM once; then every rowblock streams its weights past them. The
nonblocking assignments of one clock edge read the registers before the edge:
each state of the FSM is a function of the old registers.
-/

namespace Q1a8

/-- The parameter `MAX_SUB_INDEX`: the sub-blocks the acts BRAM holds. -/
def MAX_SUB_INDEX : Nat := 256

/-- The FSM states; `unused` stands for the encodings 10 to 15. -/
inductive State where
  | idle
  | loadActs
  | loadScale
  | scales
  | wbits
  | issue
  | waitDone
  | drain
  | emit
  | finish
  | unused
  deriving DecidableEq, Inhabited

structure Kernel where
  state : State
  busyQ : Bool
  q1Remaining : BitVec 16
  rowblockRemaining : BitVec 16
  q8Index : BitVec 2
  beatIndex : BitVec 8
  drainCnt : BitVec 2
  emitBeat : BitVec 2
  q1ProcessedQ : BitVec 14
  actsMem : BitVec 8 → BitVec 256
  actScaleMem : BitVec 8 → Fp16
  actsQ : BitVec 256
  actScaleQ : Fp16
  actsLoadAccum : BitVec 256
  actsLoadBeat : BitVec 3
  actsLoadQ1 : BitVec 14
  actsLoadSub : BitVec 2
  weightScalesFlat : BitVec (rows * 16)
  weightBitsFlat : BitVec (rows * 32)
  rowblockStart : Bool
  rowblockValid : Bool
  rowblockLast : Bool
  kernelDone : Bool
  rowblock : Rowblock
  deriving Inhabited

structure Inputs where
  rstN : Bool
  startKernel : Bool
  numQ1Blocks : BitVec 16
  numRowblocks : BitVec 16
  sAxisTdata : BitVec 64
  sAxisTvalid : Bool
  sAxisActsTdata : BitVec 64
  sAxisActsTvalid : Bool
  mAxisTready : Bool

/-- The BRAM address of a sub-block: `ADDR_W` is 8 and `Q1_IDX_W` is 6. -/
def subAddr (q1 : BitVec 14) (sub : BitVec 2) : BitVec 8 := q1.extractLsb' 0 6 ++ sub

/-- A write to a count register of `q1a8_kernel_top.v`, by byte strobes. -/
def writeCount (count : BitVec 16) (wstrb : BitVec 4) (wdata : BitVec 32) : BitVec 16 :=
  let low := if wstrb.getLsbD 0 then count.setPart 0 (wdata.extractLsb' 0 8) else count
  if wstrb.getLsbD 1 then low.setPart 8 (wdata.extractLsb' 8 8) else low

namespace Kernel

variable (k : Kernel) (i : Inputs)

def bramReadAddr : BitVec 8 := subAddr k.q1ProcessedQ k.q8Index

def actsLoadAddr : BitVec 8 := subAddr k.actsLoadQ1 k.actsLoadSub

def sAxisTready : Bool := k.busyQ && (k.state == .scales || k.state == .wbits)

def sAxisActsTready : Bool := k.busyQ && (k.state == .loadActs || k.state == .loadScale)

def weightsBeatAccept : Bool := i.sAxisTvalid && k.sAxisTready

def actsBeatAccept : Bool := i.sAxisActsTvalid && k.sAxisActsTready

def startPulse : Bool := i.startKernel && !k.busyQ

/-! ## The master stream -/

def emitWord : BitVec 64 :=
  let r := k.rowblock.accFlat
  match k.emitBeat.toNat with
  | 0 => r.extractLsb' 32 32 ++ r.extractLsb' 0 32
  | 1 => r.extractLsb' 96 32 ++ r.extractLsb' 64 32
  | 2 => r.extractLsb' 160 32 ++ r.extractLsb' 128 32
  | _ => r.extractLsb' 224 32 ++ r.extractLsb' 192 32

def mAxisTdata : BitVec 64 := k.emitWord

def mAxisTvalid : Bool := k.state == .emit

def mAxisTlast : Bool := k.state == .emit && k.emitBeat == 3#2 && k.rowblockRemaining == 1#16

/-! ## The FSM -/

def loadActs : Kernel :=
  if k.actsBeatAccept i then
    let accum := match k.actsLoadBeat.toNat with
      | 0 => k.actsLoadAccum.setPart 0 i.sAxisActsTdata
      | 1 => k.actsLoadAccum.setPart 64 i.sAxisActsTdata
      | 2 => k.actsLoadAccum.setPart 128 i.sAxisActsTdata
      | 3 => k.actsLoadAccum.setPart 192 i.sAxisActsTdata
      | _ => k.actsLoadAccum
    if k.actsLoadBeat = 3#3 then
      { k with actsLoadAccum := accum, actsLoadBeat := 4#3, state := .loadScale }
    else { k with actsLoadAccum := accum, actsLoadBeat := k.actsLoadBeat + 1#3 }
  else k

def loadScale : Kernel :=
  if k.actsBeatAccept i then
    let k' := { k with
      actsMem := fun a => if a = k.actsLoadAddr then k.actsLoadAccum else k.actsMem a
      actScaleMem := fun a =>
        if a = k.actsLoadAddr then i.sAxisActsTdata.extractLsb' 0 16 else k.actScaleMem a
      actsLoadBeat := 0#3 }
    if k.actsLoadSub = 3#2 then
      if k.actsLoadQ1.setWidth 16 + 1#16 = i.numQ1Blocks then
        { k' with actsLoadSub := 0#2, rowblockStart := true, state := .scales }
      else { k' with actsLoadSub := 0#2, actsLoadQ1 := k.actsLoadQ1 + 1#14, state := .loadActs }
    else { k' with actsLoadSub := k.actsLoadSub + 1#2, state := .loadActs }
  else k

def scales : Kernel :=
  if k.weightsBeatAccept i then
    let flat := k.weightScalesFlat.setLanes (k.beatIndex.toNat * 4) 4 fun lane =>
      i.sAxisTdata.extractLsb' (lane * 16) 16
    if k.beatIndex = 1#8 then
      { k with weightScalesFlat := flat, beatIndex := 0#8, q8Index := 0#2, state := .wbits }
    else { k with weightScalesFlat := flat, beatIndex := k.beatIndex + 1#8 }
  else k

def wbits : Kernel :=
  if k.weightsBeatAccept i then
    let flat := k.weightBitsFlat.setLanes (k.beatIndex.toNat * 2) 2 fun lane =>
      i.sAxisTdata.extractLsb' (lane * 32) 32
    if k.beatIndex = 3#8 then { k with weightBitsFlat := flat, beatIndex := 0#8, state := .issue }
    else { k with weightBitsFlat := flat, beatIndex := k.beatIndex + 1#8 }
  else k

def issue : Kernel :=
  let k' := { k with
    rowblockValid := true
    rowblockLast := k.q1Remaining == 1#16 && k.q8Index == 3#2 }
  if k.q8Index = 3#2 then
    if k.q1Remaining = 1#16 then { k' with q8Index := 0#2, state := .waitDone }
    else
      { k' with
        q8Index := 0#2
        q1Remaining := k.q1Remaining - 1#16
        q1ProcessedQ := k.q1ProcessedQ + 1#14
        state := .scales }
  else { k' with q8Index := k.q8Index + 1#2, state := .wbits }

def waitDone : Kernel :=
  if k.rowblock.done then { k with drainCnt := 2#2, state := .drain } else k

def drain : Kernel :=
  if k.drainCnt = 0#2 then { k with emitBeat := 0#2, state := .emit }
  else { k with drainCnt := k.drainCnt - 1#2 }

def emit : Kernel :=
  if i.mAxisTready then
    if k.emitBeat = 3#2 then
      if k.rowblockRemaining = 1#16 then { k with state := .finish }
      else
        { k with
          rowblockRemaining := k.rowblockRemaining - 1#16
          q1Remaining := i.numQ1Blocks
          q1ProcessedQ := 0#14
          q8Index := 0#2
          beatIndex := 0#8
          rowblockStart := true
          state := .scales }
    else { k with emitBeat := k.emitBeat + 1#2 }
  else k

def finish : Kernel := { k with kernelDone := true, busyQ := false, state := .idle }

/-- The sequencer while `busy`. -/
def busyStep : Kernel :=
  match k.state with
  | .loadActs => k.loadActs i
  | .loadScale => k.loadScale i
  | .scales => k.scales i
  | .wbits => k.wbits i
  | .issue => k.issue
  | .waitDone => k.waitDone
  | .drain => k.drain
  | .emit => k.emit i
  | .finish => k.finish
  | .idle => { k with state := .idle, busyQ := false }
  | .unused => { k with state := .idle, busyQ := false }

/-- The strobes last one cycle. -/
def clearStrobes : Kernel :=
  { k with rowblockStart := false, rowblockValid := false,
           rowblockLast := false, kernelDone := false }

def startStep : Kernel :=
  { k with
    busyQ := true
    q1Remaining := i.numQ1Blocks
    rowblockRemaining := i.numRowblocks
    q8Index := 0#2
    beatIndex := 0#8
    q1ProcessedQ := 0#14
    actsLoadBeat := 0#3
    actsLoadQ1 := 0#14
    actsLoadSub := 0#2
    state := .loadActs }

def reset : Kernel :=
  { k with
    state := .idle, busyQ := false
    q1Remaining := 0, rowblockRemaining := 0, q8Index := 0, beatIndex := 0
    drainCnt := 0, emitBeat := 0, q1ProcessedQ := 0, weightScalesFlat := 0, weightBitsFlat := 0
    rowblockStart := false, rowblockValid := false, rowblockLast := false, kernelDone := false
    actsLoadAccum := 0, actsLoadBeat := 0, actsLoadQ1 := 0, actsLoadSub := 0 }

/-- The control registers and stream registers after an edge. -/
def control : Kernel :=
  if !i.rstN then k.reset
  else if k.startPulse i then k.clearStrobes.startStep i
  else if k.busyQ then k.clearStrobes.busyStep i
  else k.clearStrobes

def rowblockIn : RowblockIn :=
  { start := k.rowblockStart
    validIn := k.rowblockValid
    lastIn := k.rowblockLast
    weightBitsFlat := k.weightBitsFlat
    weightScalesFlat := k.weightScalesFlat
    actsPacked := k.actsQ
    actScale := k.actScaleQ }

/-- One clock edge: the sequencer, the registered BRAM read and the rowblock. -/
def step : Kernel :=
  { k.control i with
    actsQ := k.actsMem k.bramReadAddr
    actScaleQ := k.actScaleMem k.bramReadAddr
    rowblock := k.rowblock.step i.rstN k.rowblockIn }

end Kernel

/-- The states after a reset edge. -/
def AfterReset (k : Kernel) : Prop := ∃ k₀ i, i.rstN = false ∧ k = Kernel.step k₀ i

abbrev Reachable (k : Kernel) : Prop := Machine.Reachable AfterReset Kernel.step k

/-- The sequencer leaves `busy` for the idle state only. -/
theorem Kernel.busyStep_idle {k : Kernel} (i : Inputs) (hbusy : k.busyQ = true)
    (h : (k.busyStep i).busyQ = false) : (k.busyStep i).state = .idle := by
  unfold busyStep at h ⊢
  cases hs : k.state with
  | loadActs => grind [loadActs]
  | loadScale => grind [loadScale]
  | scales => grind [scales]
  | wbits => grind [wbits]
  | issue => grind [issue]
  | waitDone => grind [waitDone]
  | drain => grind [drain]
  | emit => grind [emit]
  | finish => rfl
  | idle => rfl
  | unused => rfl

/-- When the kernel is not busy, its FSM is idle. -/
def Kernel.Rests (k : Kernel) : Prop := k.busyQ = false → k.state = .idle

theorem Kernel.Rests.step {k : Kernel} (h : k.Rests) (i : Inputs) : (k.step i).Rests := by
  intro hbusy
  simp only [Kernel.step, Kernel.control] at hbusy ⊢
  split at hbusy
  · next hrst =>
    rw [if_pos hrst]
    rfl
  · next hrst =>
    rw [if_neg hrst]
    split at hbusy
    · cases hbusy
    · next hstart =>
      rw [if_neg hstart]
      split at hbusy
      · next hb =>
        rw [if_pos hb]
        exact Kernel.busyStep_idle i hb hbusy
      · next hb =>
        rw [if_neg hb]
        exact h hbusy

theorem Reachable.rests {k : Kernel} (h : Reachable k) : k.Rests := by
  have hinit : ∀ k, AfterReset k → k.Rests := by
    rintro _ ⟨k₀, i, hrst, rfl⟩ -
    simp [Kernel.step, Kernel.control, hrst, Kernel.reset]
  exact Machine.Reachable.invariant hinit (fun k i hk => hk.step i) h

end Q1a8
