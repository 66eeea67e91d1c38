-- SUMMARY: What the kernel registers hold at every position of a run, and that every clock edge goes to the next position.
import BonsaiTpu.Kernel.Design
import BonsaiTpu.Kernel.Reduce

/-!
# Positions and registers

`At j p k` relates a kernel state to a position of the run of `j`. One lemma per
FSM state shows that an edge leads to `Pos.next`, whatever the streams do.
-/

namespace Q1a8

variable {j : Job}

/-! ## The acts BRAM -/

/-- The address of sub-block `m` of the column. -/
theorem subAddr_eq (q : BitVec 14) (s : BitVec 2) {m : Nat} (hq : q.toNat = m / 4)
    (hs : s.toNat = m % 4) :
    subAddr q s = BitVec.ofNat 8 m := by
  unfold subAddr
  apply BitVec.eq_of_toNat_eq
  have hlt : m % 4 < 2 ^ 2 := Nat.mod_lt _ (by decide)
  rw [BitVec.toNat_append, BitVec.extractLsb'_toNat, hq, hs, BitVec.toNat_ofNat,
    Nat.shiftRight_zero, ← Nat.shiftLeft_add_eq_or_of_lt hlt, Nat.shiftLeft_eq]
  omega

/-- The first `n` sub-blocks of the column are in the BRAM. -/
def Loaded (j : Job) (n : Nat) (k : Kernel) : Prop :=
  ∀ m < n, k.actsMem (BitVec.ofNat 8 m) = j.actsWord (m / 4) (m % 4) ∧
    k.actScaleMem (BitVec.ofNat 8 m) = j.actScale (m / 4) (m % 4)

/-! ## The registers at a position -/

/-- What holds in every rowblock. -/
structure Running (j : Job) (b : Nat) (k : Kernel) : Prop where
  busy : k.busyQ = true
  notDone : k.kernelDone = false
  loaded : Loaded j (4 * j.q1Blocks) k
  rowblocks : k.rowblockRemaining.toNat = j.rowblocks - b

/-- What holds in Q1 block `q` of a rowblock. -/
structure Streaming (j : Job) (b q : Nat) (k : Kernel) : Prop extends Running j b k where
  q1Remaining : k.q1Remaining.toNat = j.q1Blocks - q
  q1Processed : k.q1ProcessedQ.toNat = q

structure AtLoad (j : Job) (n : Nat) (k : Kernel) : Prop where
  state : k.state = if n % 5 = 4 then .loadScale else .loadActs
  busy : k.busyQ = true
  notDone : k.kernelDone = false
  beat : k.actsLoadBeat.toNat = n % 5
  sub : k.actsLoadSub.toNat = n / 5 % 4
  q1 : k.actsLoadQ1.toNat = n / 20
  accum : ∀ t < n % 5, k.actsLoadAccum.extractLsb' (64 * t) 64 = j.acts (5 * (n / 5) + t)
  loaded : Loaded j (n / 5) k
  q1Remaining : k.q1Remaining.toNat = j.q1Blocks
  q1Processed : k.q1ProcessedQ.toNat = 0
  rowblocks : k.rowblockRemaining.toNat = j.rowblocks
  beatIndex : k.beatIndex.toNat = 0
  validIn : k.rowblockValid = false
  validS1 : 1 ≤ n → ∀ lane, (k.rowblock.reducers lane).validS1 = false

structure AtScales (j : Job) (b q t : Nat) (k : Kernel) : Prop extends Streaming j b q k where
  state : k.state = .scales
  beatIndex : k.beatIndex.toNat = t
  lanes : ∀ lane : Fin rows, lane.val < 4 * t →
    k.weightScalesFlat.field lane = j.weightScale b q lane
  pipe : q = 0 ∧ t = 0 ∧ Fresh k.rowblockIn k.rowblock ∨
    Flight j b (4 * q) t k.rowblockIn k.rowblock

structure AtWbits (j : Job) (b i t : Nat) (k : Kernel) : Prop extends Streaming j b (i / 4) k where
  state : k.state = .wbits
  beatIndex : k.beatIndex.toNat = t
  q8Index : k.q8Index.toNat = i % 4
  scales : ∀ lane : Fin rows, k.weightScalesFlat.field lane = j.weightScale b (i / 4) lane
  lanes : ∀ lane : Fin rows, lane.val < 2 * t →
    k.weightBitsFlat.field lane = j.weightBits b (i / 4) (i % 4) lane
  pipe : Flight j b i t k.rowblockIn k.rowblock

structure AtIssue (j : Job) (b i : Nat) (k : Kernel) : Prop extends Streaming j b (i / 4) k where
  state : k.state = .issue
  beatIndex : k.beatIndex.toNat = 0
  q8Index : k.q8Index.toNat = i % 4
  scales : ∀ lane : Fin rows, k.weightScalesFlat.field lane = j.weightScale b (i / 4) lane
  bits : ∀ lane : Fin rows, k.weightBitsFlat.field lane = j.weightBits b (i / 4) (i % 4) lane
  pipe : Pipe j b i 0 false k.rowblockIn k.rowblock

structure AtWait (j : Job) (b c : Nat) (k : Kernel) : Prop extends Running j b k where
  state : k.state = .waitDone
  pipe : Pipe j b (4 * j.q1Blocks - 1) (c + 1) true k.rowblockIn k.rowblock

structure AtDrain (j : Job) (b d : Nat) (k : Kernel) : Prop extends Running j b k where
  state : k.state = .drain
  drainCnt : k.drainCnt.toNat = d
  pipe : Pipe j b (4 * j.q1Blocks) 0 true k.rowblockIn k.rowblock

structure AtEmit (j : Job) (b e : Nat) (k : Kernel) : Prop extends Running j b k where
  state : k.state = .emit
  emitBeat : k.emitBeat.toNat = e
  pipe : Pipe j b (4 * j.q1Blocks) 0 true k.rowblockIn k.rowblock

structure AtFinish (k : Kernel) : Prop where
  state : k.state = .finish
  busy : k.busyQ = true
  notDone : k.kernelDone = false

structure AtDone (k : Kernel) : Prop where
  state : k.state = .idle
  busy : k.busyQ = false
  done : k.kernelDone = true

/-- The registers hold what position `p` of the run says. -/
def At (j : Job) (p : Pos) (k : Kernel) : Prop :=
  match p with
  | .load n => AtLoad j n k
  | .scales b q t => AtScales j b q t k
  | .wbits b i t => AtWbits j b i t k
  | .issue b i => AtIssue j b i k
  | .wait b c => AtWait j b c k
  | .drain b d => AtDrain j b d k
  | .emit b e => AtEmit j b e k
  | .finish => AtFinish k
  | .done => AtDone k

/-- The inputs of a cycle at position `p`: no reset, the block count held, and the
    next beat on every stream that is taken from. -/
structure Drives (j : Job) (p : Pos) (i : Inputs) : Prop where
  rstN : i.rstN = true
  numQ1Blocks : i.numQ1Blocks.toNat = j.q1Blocks
  acts : i.sAxisActsTvalid && p.takesActs → i.sAxisActsTdata = j.acts (p.actsTaken j)
  weights : i.sAxisTvalid && p.takesWeights → i.sAxisTdata = j.weights (p.weightsTaken j)

def nextPos (j : Job) (p : Pos) (i : Inputs) : Pos :=
  p.next j i.sAxisActsTvalid i.sAxisTvalid i.mAxisTready

/-! ## Edges -/

section

variable {k : Kernel} {i : Inputs}

theorem step_busy (hrst : i.rstN = true) (hbusy : k.busyQ = true) :
    k.step i =
      { k.clearStrobes.busyStep i with
        actsQ := k.actsMem k.bramReadAddr
        actScaleQ := k.actScaleMem k.bramReadAddr
        rowblock := k.rowblock.step true k.rowblockIn } := by
  simp [Kernel.step, Kernel.control, Kernel.startPulse, hrst, hbusy]

theorem AtWait.step {b c : Nat} (h : AtWait j b c k) (hc : c < 4) (hin : Drives j (.wait b c) i) :
    At j (nextPos j (.wait b c) i) (k.step i) := by
  have hstep : k.clearStrobes.busyStep i = k.clearStrobes.waitDone := by
    rw [Kernel.busyStep, show k.clearStrobes.state = .waitDone from h.state]
  have hdone : k.clearStrobes.rowblock.done = decide (c + 1 = 4) := h.pipe.done
  rw [step_busy hin.rstN h.busy, hstep, nextPos, Pos.next, Kernel.waitDone, hdone]
  by_cases hlast : c = 3
  · subst hlast
    have hq := j.q1Pos
    exact
      { busy := h.busy, notDone := rfl, loaded := h.loaded,
        rowblocks := h.rowblocks, state := rfl, drainCnt := rfl
        pipe := h.pipe.land (by omega) rfl rfl rfl }
  · rw [if_neg hlast, if_neg (by simpa using hlast)]
    exact
      { busy := h.busy, notDone := rfl, loaded := h.loaded,
        rowblocks := h.rowblocks, state := h.state
        pipe := h.pipe.move (by omega) rfl rfl rfl }

theorem AtDrain.step {b d : Nat} (h : AtDrain j b d k) (hin : Drives j (.drain b d) i) :
    At j (nextPos j (.drain b d) i) (k.step i) := by
  have hstep : k.clearStrobes.busyStep i = k.clearStrobes.drain := by
    rw [Kernel.busyStep, show k.clearStrobes.state = .drain from h.state]
  have hcnt : k.clearStrobes.drainCnt = 0#2 ↔ d = 0 := by
    rw [← BitVec.toNat_inj]
    exact (congrArg (· = 0) h.drainCnt).to_iff
  rw [step_busy hin.rstN h.busy, hstep, nextPos, Pos.next, Kernel.drain]
  by_cases hd : d = 0
  · rw [if_pos hd, if_pos (hcnt.mpr hd)]
    exact
      { busy := h.busy, notDone := rfl, loaded := h.loaded,
        rowblocks := h.rowblocks, state := rfl, emitBeat := rfl
        pipe := h.pipe.step rfl rfl rfl }
  · rw [if_neg hd, if_neg (mt hcnt.mp hd)]
    exact
      { busy := h.busy, notDone := rfl, loaded := h.loaded,
        rowblocks := h.rowblocks, state := h.state
        drainCnt := by
          have := h.drainCnt
          show (k.drainCnt - 1#2).toNat = d - 1
          bv_omega
        pipe := h.pipe.step rfl rfl rfl }

theorem AtFinish.step (h : AtFinish k) (hin : Drives j .finish i) :
    At j (nextPos j .finish i) (k.step i) := by
  have hstep : k.clearStrobes.busyStep i = k.clearStrobes.finish := by
    rw [Kernel.busyStep, show k.clearStrobes.state = .finish from h.state]
  rw [step_busy hin.rstN h.busy, hstep]
  exact { state := rfl, busy := rfl, done := rfl }

theorem AtEmit.step {b e : Nat} (h : AtEmit j b e k) (hb : b < j.rowblocks) (he : e < 4)
    (hin : Drives j (.emit b e) i) : At j (nextPos j (.emit b e) i) (k.step i) := by
  have hstep : k.clearStrobes.busyStep i = k.clearStrobes.emit i := by
    rw [Kernel.busyStep, show k.clearStrobes.state = .emit from h.state]
  have hbeat : k.clearStrobes.emitBeat = 3#2 ↔ e = 3 := by
    rw [← BitVec.toNat_inj]
    exact (congrArg (· = 3) h.emitBeat).to_iff
  have hrow : k.clearStrobes.rowblockRemaining = 1#16 ↔ b + 1 = j.rowblocks := by
    have hr : k.clearStrobes.rowblockRemaining.toNat = j.rowblocks - b := h.rowblocks
    rw [← BitVec.toNat_inj, hr]
    exact (by omega : j.rowblocks - b = 1 ↔ b + 1 = j.rowblocks)
  have hpipe : Pipe j b (4 * j.q1Blocks) 0 true k.clearStrobes.rowblockIn
      (k.rowblock.step true k.rowblockIn) :=
    h.pipe.step rfl rfl rfl
  rw [step_busy hin.rstN h.busy, hstep, nextPos, Pos.next, Kernel.emit]
  by_cases hready : i.mAxisTready = true
  · rw [if_pos hready, if_pos hready]
    by_cases hlast : e = 3
    · -- the last beat of the rowblock: done, or the next rowblock is fetched
      rw [if_pos hlast, if_pos (hbeat.mpr hlast)]
      by_cases hend : b + 1 = j.rowblocks
      · rw [if_pos hend, if_pos (hrow.mpr hend)]
        exact { state := rfl, busy := h.busy, notDone := rfl }
      · rw [if_neg hend, if_neg (mt hrow.mp hend)]
        exact
          { busy := h.busy, notDone := rfl, loaded := h.loaded, state := rfl, beatIndex := rfl
            rowblocks := by
              have := h.rowblocks
              have := j.rbLe
              show (k.rowblockRemaining - 1#16).toNat = j.rowblocks - (b + 1)
              bv_omega
            q1Remaining := hin.numQ1Blocks
            q1Processed := rfl
            lanes := fun lane hlane => absurd hlane (Nat.not_lt_zero _)
            pipe := .inl ⟨rfl, rfl, rfl, rfl, hpipe.validS1, hpipe.validS2⟩ }
    · rw [if_neg hlast, if_neg (mt hbeat.mp hlast)]
      exact
        { busy := h.busy, notDone := rfl, loaded := h.loaded,
          rowblocks := h.rowblocks, state := h.state
          emitBeat := by
            have := h.emitBeat
            show (k.emitBeat + 1#2).toNat = e + 1
            bv_omega
          pipe := h.pipe.step rfl rfl rfl }
  · -- stalled: the same beat is offered again
    rw [if_neg hready, if_neg hready]
    exact
      { busy := h.busy, notDone := rfl, loaded := h.loaded,
        rowblocks := h.rowblocks, state := h.state
        emitBeat := h.emitBeat
        pipe := h.pipe.step rfl rfl rfl }

/-- The operands of a sub-block are at the inputs in the next cycle: the BRAM is read at this
    edge. -/
theorem AtIssue.operands {b m : Nat} (h : AtIssue j b m k) (hm : m < 4 * j.q1Blocks)
    {inp' : RowblockIn} {last : Bool}
    (hstart : inp'.start = false) (hvalid : inp'.validIn = true) (hlast : inp'.lastIn = last)
    (hbits : inp'.weightBitsFlat = k.weightBitsFlat)
    (hscales : inp'.weightScalesFlat = k.weightScalesFlat)
    (hacts : inp'.actsPacked = k.actsMem k.bramReadAddr)
    (hscale : inp'.actScale = k.actScaleMem k.bramReadAddr) :
    Pipe j b m 1 last inp' (k.rowblock.step true k.rowblockIn) := by
  have haddr : k.bramReadAddr = BitVec.ofNat 8 m := subAddr_eq _ _ h.q1Processed h.q8Index
  obtain ⟨hmem, hscaleMem⟩ := h.loaded m hm
  refine h.pipe.issue hstart hvalid hlast ⟨?_, ?_, ?_, ?_⟩
  · rw [hbits]
    exact h.bits
  · rw [hscales]
    exact h.scales
  · rw [hacts, haddr, hmem]
  · rw [hscale, haddr, hscaleMem]

theorem AtIssue.step {b m : Nat} (h : AtIssue j b m k) (hm : m < 4 * j.q1Blocks)
    (hin : Drives j (.issue b m) i) : At j (nextPos j (.issue b m) i) (k.step i) := by
  have hle := j.q1Le
  have hstep : k.clearStrobes.busyStep i = k.clearStrobes.issue := by
    rw [Kernel.busyStep, show k.clearStrobes.state = .issue from h.state]
  have hsub : k.clearStrobes.q8Index = 3#2 ↔ m % 4 = 3 := by
    rw [← BitVec.toNat_inj]
    exact (congrArg (· = 3) h.q8Index).to_iff
  have hrem : k.clearStrobes.q1Remaining = 1#16 ↔ m / 4 + 1 = j.q1Blocks := by
    have hr : k.clearStrobes.q1Remaining.toNat = j.q1Blocks - m / 4 := h.q1Remaining
    rw [← BitVec.toNat_inj, hr]
    exact (by omega : j.q1Blocks - m / 4 = 1 ↔ m / 4 + 1 = j.q1Blocks)
  rw [step_busy hin.rstN h.busy, hstep, nextPos, Pos.next, Kernel.issue]
  -- the last sub-block of a q1 block ends it, and the last q1 block ends the rowblock
  by_cases hs : m % 4 = 3
  · rw [if_pos hs, if_pos (hsub.mpr hs)]
    by_cases hlast : m + 1 = 4 * j.q1Blocks
    · have hm' : 4 * j.q1Blocks - 1 = m := by omega
      have hr : m / 4 + 1 = j.q1Blocks := by omega
      rw [if_pos hlast, if_pos (hrem.mpr hr)]
      exact
        { busy := h.busy, notDone := rfl, loaded := h.loaded, rowblocks := h.rowblocks, state := rfl
          pipe := by
            rw [hm']
            refine h.operands hm rfl rfl ?_ rfl rfl rfl rfl
            show (k.clearStrobes.q1Remaining == 1#16 && k.clearStrobes.q8Index == 3#2) = true
            rw [hrem.mpr hr, hsub.mpr hs]
            rfl }
    · have hr : ¬m / 4 + 1 = j.q1Blocks := by omega
      rw [if_neg hlast, if_neg (mt hrem.mp hr)]
      exact
        { busy := h.busy, notDone := rfl, loaded := h.loaded, rowblocks := h.rowblocks, state := rfl
          beatIndex := h.beatIndex
          q1Remaining := by
            have := h.q1Remaining
            show (k.q1Remaining - 1#16).toNat = j.q1Blocks - (m / 4 + 1)
            bv_omega
          q1Processed := by
            have := h.q1Processed
            show (k.q1ProcessedQ + 1#14).toNat = m / 4 + 1
            bv_omega
          lanes := fun lane hlane => absurd hlane (Nat.not_lt_zero _)
          pipe := by
            refine .inr (.inr ⟨m, 1, by omega, by decide, by decide,
              h.operands hm rfl rfl ?_ rfl rfl rfl rfl⟩)
            show (k.clearStrobes.q1Remaining == 1#16 && k.clearStrobes.q8Index == 3#2) = false
            rw [beq_eq_false_iff_ne.mpr (mt hrem.mp hr), Bool.false_and] }
  · have hq : (m + 1) / 4 = m / 4 := by omega
    rw [if_neg hs, if_neg (mt hsub.mp hs)]
    exact
      { busy := h.busy, notDone := rfl, loaded := h.loaded, rowblocks := h.rowblocks, state := rfl
        beatIndex := h.beatIndex
        q1Remaining := by rw [hq]; exact h.q1Remaining
        q1Processed := by rw [hq]; exact h.q1Processed
        q8Index := by
          have := h.q8Index
          show (k.q8Index + 1#2).toNat = (m + 1) % 4
          bv_omega
        scales := by rw [hq]; exact h.scales
        lanes := fun lane hlane => absurd hlane (Nat.not_lt_zero _)
        pipe := by
          refine .inr ⟨m, 1, rfl, by decide, by decide, h.operands hm rfl rfl ?_ rfl rfl rfl rfl⟩
          show (k.clearStrobes.q1Remaining == 1#16 && k.clearStrobes.q8Index == 3#2) = false
          rw [beq_eq_false_iff_ne.mpr (mt hsub.mp hs), Bool.and_false] }

/-- A beat of weight bits fills the next two lanes. -/
theorem field_wbitsBeat {j : Streams} {b q s t : Nat} {flat : BitVec (rows * 32)}
    {tdata : BitVec 64} (hdata : tdata = j.weights (j.weightBase b q + 2 + 4 * s + t))
    (hlanes : ∀ lane : Fin rows, lane.val < 2 * t → flat.field lane = j.weightBits b q s lane)
    (lane : Fin rows) (hlane : lane.val < 2 * (t + 1)) :
    (flat.setLanes (t * 2) 2 fun lane => tdata.extractLsb' (lane * 32) 32).field lane =
      j.weightBits b q s lane := by
  rw [BitVec.field_setLanes _ _ _ _ lane.isLt]
  split
  · have hdiv : lane.val / 2 = t := by omega
    have hmod : lane.val % 2 = lane.val - t * 2 := by omega
    rw [Streams.weightBits, hdiv, hmod, hdata]
  · exact hlanes lane (by omega)

/-- A beat of weight scales fills the next four lanes. -/
theorem field_scalesBeat {j : Streams} {b q t : Nat} {flat : BitVec (rows * 16)} {tdata : BitVec 64}
    (hdata : tdata = j.weights (j.weightBase b q + t))
    (hlanes : ∀ lane : Fin rows, lane.val < 4 * t → flat.field lane = j.weightScale b q lane)
    (lane : Fin rows) (hlane : lane.val < 4 * (t + 1)) :
    (flat.setLanes (t * 4) 4 fun lane => tdata.extractLsb' (lane * 16) 16).field lane =
      j.weightScale b q lane := by
  rw [BitVec.field_setLanes _ _ _ _ lane.isLt]
  split
  · have hdiv : lane.val / 4 = t := by omega
    have hmod : lane.val % 4 = lane.val - t * 4 := by omega
    rw [Streams.weightScale, hdiv, hmod, hdata]
  · exact hlanes lane (by omega)

theorem AtWbits.step {b m t : Nat} (h : AtWbits j b m t k) (ht : t < 4)
    (hin : Drives j (.wbits b m t) i) :
    At j (nextPos j (.wbits b m t) i) (k.step i) := by
  have hstep : k.clearStrobes.busyStep i = k.clearStrobes.wbits i := by
    rw [Kernel.busyStep, show k.clearStrobes.state = .wbits from h.state]
  have haccept : k.clearStrobes.weightsBeatAccept i = i.sAxisTvalid := by
    rw [Kernel.weightsBeatAccept, Kernel.sAxisTready,
      show k.clearStrobes.state = .wbits from h.state, show k.clearStrobes.busyQ = true from h.busy]
    simp
  have hindex : k.clearStrobes.beatIndex = 3#8 ↔ t = 3 := by
    rw [← BitVec.toNat_inj]
    exact (congrArg (· = 3) h.beatIndex).to_iff
  have hflight : ∀ {inp' : RowblockIn}, inp'.start = false → inp'.validIn = false →
      inp'.lastIn = false →
      Flight j b m (t + 1) inp' (k.rowblock.step true k.rowblockIn) :=
    fun hs hv hl => h.pipe.step hs hv hl
  rw [step_busy hin.rstN h.busy, hstep, nextPos, Pos.next, Kernel.wbits, haccept]
  by_cases hvalid : i.sAxisTvalid = true
  · have hdata := hin.weights (by rw [hvalid]; rfl)
    have hflat := field_wbitsBeat hdata h.lanes
    rw [← h.beatIndex] at hflat
    rw [if_pos hvalid, if_pos hvalid]
    by_cases hlast : t = 3
    · subst hlast
      rw [if_pos rfl, if_pos (hindex.mpr rfl)]
      exact
        { busy := h.busy, notDone := rfl, loaded := h.loaded, rowblocks := h.rowblocks, state := rfl
          q1Remaining := h.q1Remaining
          q1Processed := h.q1Processed, beatIndex := rfl, q8Index := h.q8Index
          scales := h.scales
          bits := fun lane =>
            hflat lane (by have := lane.isLt; have := h.beatIndex; simp only [rows] at *; omega)
          pipe := (hflight rfl rfl rfl).landed }
    · rw [if_neg hlast, if_neg (mt hindex.mp hlast)]
      exact
        { busy := h.busy, notDone := rfl, loaded := h.loaded,
          rowblocks := h.rowblocks, state := h.state
          q1Remaining := h.q1Remaining, q1Processed := h.q1Processed, q8Index := h.q8Index
          beatIndex := by
            have := h.beatIndex
            show (k.beatIndex + 1#8).toNat = t + 1
            bv_omega
          scales := h.scales
          lanes := fun lane hlane => hflat lane (by rw [h.beatIndex]; exact hlane)
          pipe := hflight rfl rfl rfl }
  · rw [if_neg hvalid, if_neg hvalid]
    exact
      { busy := h.busy, notDone := rfl, loaded := h.loaded,
        rowblocks := h.rowblocks, state := h.state
        q1Remaining := h.q1Remaining
        q1Processed := h.q1Processed, beatIndex := h.beatIndex, q8Index := h.q8Index
        scales := h.scales
        lanes := h.lanes
        pipe := (hflight rfl rfl rfl).mono (Nat.le_succ t) }

theorem AtScales.step {b q t : Nat} (h : AtScales j b q t k) (ht : t < 2)
    (hin : Drives j (.scales b q t) i) :
    At j (nextPos j (.scales b q t) i) (k.step i) := by
  have hstep : k.clearStrobes.busyStep i = k.clearStrobes.scales i := by
    rw [Kernel.busyStep, show k.clearStrobes.state = .scales from h.state]
  have haccept : k.clearStrobes.weightsBeatAccept i = i.sAxisTvalid := by
    rw [Kernel.weightsBeatAccept, Kernel.sAxisTready,
      show k.clearStrobes.state = .scales from h.state,
      show k.clearStrobes.busyQ = true from h.busy]
    simp
  have hindex : k.clearStrobes.beatIndex = 1#8 ↔ t = 1 := by
    rw [← BitVec.toNat_inj]
    exact (congrArg (· = 1) h.beatIndex).to_iff
  -- the rowblock goes on with what is in its pipeline, or is still fresh in the first sub-block
  have hflight : ∀ {inp' : RowblockIn}, inp'.start = false → inp'.validIn = false →
      inp'.lastIn = false →
      Flight j b (4 * q) (t + 1) inp' (k.rowblock.step true k.rowblockIn) := by
    intro inp' hs hv hl
    obtain ⟨rfl, rfl, hfresh⟩ | hflight := h.pipe
    · exact .inl (hfresh.step hs hv hl)
    · exact hflight.step hs hv hl
  rw [step_busy hin.rstN h.busy, hstep, nextPos, Pos.next, Kernel.scales, haccept]
  by_cases hvalid : i.sAxisTvalid = true
  · have hdata := hin.weights (by rw [hvalid]; rfl)
    have hflat := field_scalesBeat hdata h.lanes
    rw [← h.beatIndex] at hflat
    rw [if_pos hvalid, if_pos hvalid]
    -- the second beat ends the scales, and the bits of the first sub-block come next
    by_cases hlast : t = 1
    · subst hlast
      have hq : 4 * q / 4 = q := by omega
      rw [if_pos rfl, if_pos (hindex.mpr rfl)]
      exact
        { busy := h.busy, notDone := rfl, loaded := h.loaded, rowblocks := h.rowblocks, state := rfl
          q1Remaining := by rw [hq]; exact h.q1Remaining
          q1Processed := by rw [hq]; exact h.q1Processed
          beatIndex := rfl
          q8Index := by
            show 0 = 4 * q % 4
            omega
          scales := by
            intro lane
            rw [hq]
            exact hflat lane (by
              have := lane.isLt; have := h.beatIndex; simp only [rows] at *; omega)
          lanes := fun lane hlane => absurd hlane (Nat.not_lt_zero _)
          pipe := (hflight rfl rfl rfl).mono (Nat.zero_le _) }
    · rw [if_neg hlast, if_neg (mt hindex.mp hlast)]
      exact
        { busy := h.busy, notDone := rfl, loaded := h.loaded,
          rowblocks := h.rowblocks, state := h.state
          q1Remaining := h.q1Remaining, q1Processed := h.q1Processed
          beatIndex := by
            have := h.beatIndex
            show (k.beatIndex + 1#8).toNat = t + 1
            bv_omega
          lanes := fun lane hlane => hflat lane (by rw [h.beatIndex]; exact hlane)
          pipe := .inr (hflight rfl rfl rfl) }
  · -- no beat: the kernel waits in its place
    rw [if_neg hvalid, if_neg hvalid]
    exact
      { busy := h.busy, notDone := rfl, loaded := h.loaded,
        rowblocks := h.rowblocks, state := h.state
        q1Remaining := h.q1Remaining, q1Processed := h.q1Processed, beatIndex := h.beatIndex
        lanes := h.lanes
        pipe := .inr ((hflight rfl rfl rfl).mono (Nat.le_succ t)) }

/-! ### Loading the acts -/

theorem reducers_step_valid (inp : RowblockIn) (r : Rowblock) (lane : Fin rows) :
    ((r.step true inp).reducers lane).validS1 = inp.validIn ∧
      ((r.step true inp).reducers lane).validS2 = (r.reducers lane).validS1 := by
  rw [Rowblock.step]
  cases inp.start <;> exact ⟨rfl, rfl⟩

/-- Four beats make the word of a sub-block. -/
theorem eq_actsWord {m : Nat} {accum : BitVec 256}
    (h : ∀ t < 4, accum.extractLsb' (64 * t) 64 = j.acts (5 * m + t)) :
    accum = j.actsWord (m / 4) (m % 4) := by
  have hidx : ∀ t, 20 * (m / 4) + 5 * (m % 4) + t = 5 * m + t := by
    intro t
    omega
  have hidx0 : 20 * (m / 4) + 5 * (m % 4) = 5 * m := by omega
  rw [Streams.actsWord, hidx, hidx, hidx, hidx0, ← h 3 (by decide), ← h 2 (by decide),
    ← h 1 (by decide), ← Nat.add_zero (5 * m), ← h 0 (by decide)]
  apply BitVec.eq_of_getLsbD_eq
  intro n hn
  simp only [BitVec.getLsbD_append, BitVec.getLsbD_extractLsb']
  split_ifs <;> simp <;> grind

theorem loadActs_accept {t : Nat} (haccept : k.actsBeatAccept i = true)
    (hbeat : k.actsLoadBeat.toNat = t) (ht : t < 4) :
    k.loadActs i =
      { k with
        actsLoadAccum := k.actsLoadAccum.setPart (64 * t) i.sAxisActsTdata
        actsLoadBeat := k.actsLoadBeat + 1#3
        state := if t = 3 then .loadScale else k.state } := by
  have hthree : k.actsLoadBeat = 3#3 ↔ t = 3 := by
    rw [← BitVec.toNat_inj, hbeat]
    rfl
  rw [Kernel.loadActs, if_pos haccept, hbeat]
  by_cases hlast : t = 3
  · subst hlast
    have h3 := hthree.mpr rfl
    rw [if_pos h3, h3]
    rfl
  · rw [if_neg (mt hthree.mp hlast), if_neg hlast]
    have hcases : t = 0 ∨ t = 1 ∨ t = 2 := by omega
    obtain rfl | rfl | rfl := hcases <;> rfl

theorem AtLoad.accept {n : Nat} (h : AtLoad j n k) :
    k.clearStrobes.actsBeatAccept i = i.sAxisActsTvalid := by
  rw [Kernel.actsBeatAccept, Kernel.sAxisActsTready, show k.clearStrobes.state = _ from h.state,
    show k.clearStrobes.busyQ = true from h.busy]
  split <;> simp

/-- Without a beat the load waits. -/
theorem AtLoad.stay {n : Nat} (h : AtLoad j n k) (hin : Drives j (.load n) i)
    (hvalid : i.sAxisActsTvalid = false) :
    AtLoad j n (k.step i) := by
  have haccept : ¬k.clearStrobes.actsBeatAccept i = true := by
    rw [h.accept, hvalid]
    exact Bool.false_ne_true
  have hstep : k.clearStrobes.busyStep i = k.clearStrobes := by
    rw [Kernel.busyStep, show k.clearStrobes.state = _ from h.state]
    split_ifs
    · exact if_neg haccept
    · exact if_neg haccept
  rw [step_busy hin.rstN h.busy, hstep]
  exact
    { h with
      notDone := rfl, validIn := rfl
      validS1 := fun _ lane => (reducers_step_valid _ _ lane).1.trans h.validIn }

theorem AtLoad.step_acts {n : Nat} (h : AtLoad j n k) (hn : n % 5 ≠ 4) (hin : Drives j (.load n) i)
    (hvalid : i.sAxisActsTvalid = true) : AtLoad j (n + 1) (k.step i) := by
  have hmod : n % 5 < 4 := by omega
  have hdiv : (n + 1) / 5 = n / 5 := by omega
  have hstep : k.clearStrobes.busyStep i = k.clearStrobes.loadActs i := by
    rw [Kernel.busyStep, show k.clearStrobes.state = _ from h.state, if_neg hn]
  have haccept : k.clearStrobes.actsBeatAccept i = true := by rw [h.accept, hvalid]
  have hdata : i.sAxisActsTdata = j.acts n := hin.acts (by rw [hvalid]; rfl)
  rw [step_busy hin.rstN h.busy, hstep, loadActs_accept haccept h.beat hmod]
  exact
    { busy := h.busy, notDone := rfl, validIn := rfl
      state := by
        show (if n % 5 = 3 then State.loadScale else k.state) = _
        rw [h.state, if_neg hn]
        split_ifs <;> first | rfl | omega
      beat := by
        have := h.beat
        show (k.actsLoadBeat + 1#3).toNat = _
        bv_omega
      sub := by rw [hdiv]; exact h.sub
      q1 := by
        show k.actsLoadQ1.toNat = _
        rw [h.q1]
        omega
      accum := by
        intro t ht
        show (k.actsLoadAccum.setPart (64 * (n % 5)) i.sAxisActsTdata).extractLsb' (64 * t) 64 = _
        rw [hdiv]
        by_cases hlast : t = n % 5
        · rw [hlast, BitVec.extractLsb'_setPart_self _ _ _ (by omega), hdata]
          congr 1
          omega
        · rw [BitVec.extractLsb'_setPart_disjoint _ _ _ _ _ (by omega)]
          exact h.accum t (by omega)
      loaded := by rw [hdiv]; exact h.loaded
      q1Remaining := h.q1Remaining
      q1Processed := h.q1Processed, rowblocks := h.rowblocks, beatIndex := h.beatIndex
      validS1 := fun _ lane => (reducers_step_valid _ _ lane).1.trans h.validIn }

/-- The fifth beat of a sub-block writes it to the BRAM. -/
theorem AtLoad.loaded_scale {n : Nat} (h : AtLoad j n k) (hn : n % 5 = 4) (hlt : n < j.actsBeats)
    (hdata : i.sAxisActsTdata = j.acts n) {k' : Kernel}
    (hmem : k'.actsMem = fun a => if a = k.actsLoadAddr then k.actsLoadAccum else k.actsMem a)
    (hscale : k'.actScaleMem = fun a =>
      if a = k.actsLoadAddr then i.sAxisActsTdata.extractLsb' 0 16 else k.actScaleMem a) :
    Loaded j (n / 5 + 1) k' := by
  have hle := j.q1Le
  have hbound : n / 5 < 256 := by
    simp only [Streams.actsBeats] at hlt
    omega
  have haddr : k.actsLoadAddr = BitVec.ofNat 8 (n / 5) :=
    subAddr_eq _ _ (h.q1.trans (by omega)) h.sub
  intro m hm
  rw [hmem, hscale, haddr]
  beta_reduce
  by_cases hlast : m = n / 5
  · subst hlast
    refine ⟨?_, ?_⟩
    · rw [if_pos rfl]
      exact eq_actsWord fun t ht => h.accum t (by omega)
    · rw [if_pos rfl, hdata, Streams.actScale]
      congr 2
      omega
  · have hne : ¬BitVec.ofNat 8 m = BitVec.ofNat 8 (n / 5) := by
      intro heq
      have := congrArg BitVec.toNat heq
      simp only [BitVec.toNat_ofNat] at this
      omega
    rw [if_neg hne, if_neg hne]
    exact h.loaded m (by omega)

/-- After the fifth beat, with more sub-blocks to come. -/
theorem AtLoad.next_sub {n : Nat} (h : AtLoad j n k) (hn : n % 5 = 4) (hlt : n < j.actsBeats)
    (hdata : i.sAxisActsTdata = j.acts n) {sub : BitVec 2} {q1 : BitVec 14}
    (hsub : sub.toNat = (n + 1) / 5 % 4) (hq1 : q1.toNat = (n + 1) / 20) :
    AtLoad j (n + 1)
      { k.clearStrobes with
        actsMem := fun a => if a = k.actsLoadAddr then k.actsLoadAccum else k.actsMem a
        actScaleMem := fun a => if a = k.actsLoadAddr then i.sAxisActsTdata.extractLsb' 0 16
          else k.actScaleMem a
        actsLoadBeat := 0#3
        actsLoadSub := sub
        actsLoadQ1 := q1
        state := .loadActs
        actsQ := k.actsMem k.bramReadAddr
        actScaleQ := k.actScaleMem k.bramReadAddr
        rowblock := k.rowblock.step true k.rowblockIn } := by
  have hdiv : (n + 1) / 5 = n / 5 + 1 := by omega
  exact
    { busy := h.busy, notDone := rfl, validIn := rfl
      state := (if_neg (by omega)).symm
      beat := by
        show 0 = _
        omega
      sub := hsub, q1 := hq1
      accum := fun t ht => absurd ht (by omega)
      loaded := hdiv ▸ h.loaded_scale hn hlt hdata rfl rfl
      q1Remaining := h.q1Remaining, q1Processed := h.q1Processed, rowblocks := h.rowblocks
      beatIndex := h.beatIndex
      validS1 := fun _ lane => (reducers_step_valid _ _ lane).1.trans h.validIn }

/-- After the fifth beat of the last sub-block. -/
theorem AtLoad.last_sub {n : Nat} (h : AtLoad j n k) (hn : n % 5 = 4) (hlast : n + 1 = j.actsBeats)
    (hdata : i.sAxisActsTdata = j.acts n) :
    AtScales j 0 0 0
      { k.clearStrobes with
        actsMem := fun a => if a = k.actsLoadAddr then k.actsLoadAccum else k.actsMem a
        actScaleMem := fun a => if a = k.actsLoadAddr then i.sAxisActsTdata.extractLsb' 0 16
          else k.actScaleMem a
        actsLoadBeat := 0#3
        actsLoadSub := 0#2
        rowblockStart := true
        state := .scales
        actsQ := k.actsMem k.bramReadAddr
        actScaleQ := k.actScaleMem k.bramReadAddr
        rowblock := k.rowblock.step true k.rowblockIn } := by
  have htotal : n / 5 + 1 = 4 * j.q1Blocks := by
    simp only [Streams.actsBeats] at hlast
    omega
  have hvalidS1 : ∀ lane, ((k.rowblock.step true k.rowblockIn).reducers lane).validS1 = false :=
    fun lane => (reducers_step_valid _ _ lane).1.trans h.validIn
  exact
    { busy := h.busy, notDone := rfl, rowblocks := h.rowblocks, state := rfl
      loaded := htotal ▸ h.loaded_scale hn (by omega) hdata rfl rfl
      q1Remaining := h.q1Remaining, q1Processed := h.q1Processed, beatIndex := h.beatIndex
      lanes := fun lane hlane => absurd hlane (Nat.not_lt_zero _)
      pipe := .inl ⟨rfl, rfl, rfl, rfl, hvalidS1,
        fun lane => (reducers_step_valid _ _ lane).2.trans (h.validS1 (by omega) lane)⟩ }

theorem AtLoad.step_scale {n : Nat} (h : AtLoad j n k) (hn : n % 5 = 4) (hlt : n < j.actsBeats)
    (hin : Drives j (.load n) i) (hvalid : i.sAxisActsTvalid = true) :
    At j (if n + 1 = j.actsBeats then .scales 0 0 0 else .load (n + 1)) (k.step i) := by
  have hle := j.q1Le
  have hbeats : j.actsBeats = 20 * j.q1Blocks := rfl
  have hstep : k.clearStrobes.busyStep i = k.clearStrobes.loadScale i := by
    rw [Kernel.busyStep, show k.clearStrobes.state = _ from h.state, if_pos hn]
  have haccept : k.clearStrobes.actsBeatAccept i = true := by rw [h.accept, hvalid]
  have hdata : i.sAxisActsTdata = j.acts n := hin.acts (by rw [hvalid]; rfl)
  have hsub : k.clearStrobes.actsLoadSub = 3#2 ↔ n / 5 % 4 = 3 := by
    rw [← BitVec.toNat_inj]
    exact (congrArg (· = 3) h.sub).to_iff
  have hq1 : k.clearStrobes.actsLoadQ1.setWidth 16 + 1#16 = i.numQ1Blocks ↔
      n / 20 + 1 = j.q1Blocks := by
    have hq : k.clearStrobes.actsLoadQ1.toNat = n / 20 := h.q1
    have hnum := hin.numQ1Blocks
    rw [← BitVec.toNat_inj, BitVec.toNat_add, BitVec.toNat_setWidth, hq, hnum, BitVec.toNat_ofNat]
    omega
  rw [step_busy hin.rstN h.busy, hstep, Kernel.loadScale, if_pos haccept]
  by_cases hs : n / 5 % 4 = 3
  · rw [if_pos (hsub.mpr hs)]
    by_cases hlast : n + 1 = j.actsBeats
    · rw [if_pos hlast, if_pos (hq1.mpr (by omega))]
      exact h.last_sub hn hlast hdata
    · have hmore : ¬n / 20 + 1 = j.q1Blocks := by omega
      have hq1' : (k.actsLoadQ1 + 1#14).toNat = (n + 1) / 20 := by
        have := h.q1
        bv_omega
      rw [if_neg hlast, if_neg (mt hq1.mp hmore)]
      exact h.next_sub hn hlt hdata (by show 0 = _; omega) hq1'
  · have hmore : ¬n + 1 = j.actsBeats := by omega
    have hsub' : (k.actsLoadSub + 1#2).toNat = (n + 1) / 5 % 4 := by
      have := h.sub
      bv_omega
    have hq1' : k.actsLoadQ1.toNat = (n + 1) / 20 := by
      rw [h.q1]
      omega
    rw [if_neg (mt hsub.mp hs), if_neg hmore]
    exact h.next_sub hn hlt hdata hsub' hq1'

theorem AtLoad.step {n : Nat} (h : AtLoad j n k) (hlt : n < j.actsBeats)
    (hin : Drives j (.load n) i) :
    At j (nextPos j (.load n) i) (k.step i) := by
  rw [nextPos, Pos.next]
  cases hvalid : i.sAxisActsTvalid with
  | false => exact h.stay hin hvalid
  | true =>
    rw [if_pos rfl]
    by_cases hn : n % 5 = 4
    · exact h.step_scale hn hlt hin hvalid
    · have hmore : ¬n + 1 = j.actsBeats := by
        simp only [Streams.actsBeats]
        omega
      rw [if_neg hmore]
      exact h.step_acts hn hin hvalid

/-- Every edge of a run goes to the next position. -/
theorem At.step {p : Pos} (h : At j p k) (hp : p.Valid j) (hrun : p ≠ .done) (hin : Drives j p i) :
    At j (nextPos j p i) (k.step i) := by
  cases p with
  | load n => exact AtLoad.step h hp hin
  | scales b q t => exact AtScales.step h hp.2.2 hin
  | wbits b m t => exact AtWbits.step h hp.2.2 hin
  | issue b m => exact AtIssue.step h hp.2 hin
  | wait b c => exact AtWait.step h hp.2 hin
  | drain b d => exact AtDrain.step h hin
  | emit b e => exact AtEmit.step h hp.1 hp.2 hin
  | finish => exact AtFinish.step h hin
  | done => exact absurd rfl hrun

end

end Q1a8
