-- SUMMARY: One sub-block on its way through the reducers of a rowblock into the accumulator, cycle by cycle.
import BonsaiTpu.Kernel.Sequence

/-!
# The reduction pipeline

At most one sub-block is in the pipeline of a rowblock at a time. Its age says
where: 1 at the inputs, 2 and 3 in the reducer stages, 4 at the reducer outputs;
one edge later it is in the accumulators. Age 0 is the empty pipeline.
-/

namespace Q1a8

variable {j : Job}

/-- The rowblock inputs hold the operands of sub-block `m`. -/
structure Operands (j : Job) (b m : Nat) (inp : RowblockIn) : Prop where
  bits : ∀ lane : Fin rows, inp.weightBitsFlat.field lane = j.weightBits b (m / 4) (m % 4) lane
  scales : ∀ lane : Fin rows, inp.weightScalesFlat.field lane = j.weightScale b (m / 4) lane
  acts : inp.actsPacked = j.actsWord (m / 4) (m % 4)
  actScale : inp.actScale = j.actScale (m / 4) (m % 4)

/-- The first reducer stage holds sub-block `m`. -/
structure Stage1 (j : Job) (b m : Nat) (lane : Nat) (r : Reducer) : Prop where
  weightScale : r.weightScaleF32S1 = fp16ToFp32 (j.weightScale b (m / 4) lane)
  actScale : r.actScaleF32S1 = fp16ToFp32 (j.actScale (m / 4) (m % 4))
  sum : r.subSumS1 = BitVec.ofInt 14
    (signedSum (j.weightBits b (m / 4) (m % 4) lane) (j.actsWord (m / 4) (m % 4)))

structure Stage2 (j : Job) (b m : Nat) (lane : Nat) (r : Reducer) : Prop where
  combined : r.combinedF32S2 =
    fp32Mul (fp16ToFp32 (j.weightScale b (m / 4) lane)) (fp16ToFp32 (j.actScale (m / 4) (m % 4)))
  sum : r.subSumF32S2 = intToFp32 (BitVec.ofInt 14
    (signedSum (j.weightBits b (m / 4) (m % 4) lane) (j.actsWord (m / 4) (m % 4))))

/-- The accumulators hold the first `m` terms of rowblock `b`; sub-block `m` has
    age `a`, and carries the `last` flag with it. -/
structure Pipe (j : Job) (b m a : Nat) (last : Bool) (inp : RowblockIn) (r : Rowblock) : Prop where
  start : inp.start = false
  validIn : inp.validIn = decide (a = 1)
  lastIn : inp.lastIn = (last && decide (a = 1))
  validS1 : ∀ lane, (r.reducers lane).validS1 = decide (a = 2)
  validS2 : ∀ lane, (r.reducers lane).validS2 = decide (a = 3)
  validOut : ∀ lane, (r.reducers lane).validOut = decide (a = 4)
  lastPipe0 : r.lastPipe.getLsbD 0 = (last && decide (a = 2))
  lastPipe1 : r.lastPipe.getLsbD 1 = (last && decide (a = 3))
  done : r.done = (last && decide (a = 4))
  operands : a = 1 → Operands j b m inp
  stage1 : a = 2 → ∀ lane : Fin rows, Stage1 j b m lane (r.reducers lane)
  stage2 : a = 3 → ∀ lane : Fin rows, Stage2 j b m lane (r.reducers lane)
  stage3 : a = 4 → ∀ lane, (r.reducers lane).contribution = j.term b lane m
  acc : ∀ lane : Fin rows, r.accFlat.field lane = j.partialLane b lane m

/-- The pipeline is empty and the accumulators are about to be cleared. -/
structure Fresh (inp : RowblockIn) (r : Rowblock) : Prop where
  start : inp.start = true
  validIn : inp.validIn = false
  validS1 : ∀ lane, (r.reducers lane).validS1 = false
  validS2 : ∀ lane, (r.reducers lane).validS2 = false

def nextAge (a : Nat) : Nat := if a = 0 ∨ a = 4 then 0 else a + 1

theorem nextAge_ne_one (a : Nat) : nextAge a ≠ 1 := by
  unfold nextAge
  split <;> omega

theorem nextAge_eq {a : Nat} (n : Nat) (hn : 1 ≤ n ∧ n ≤ 3) : nextAge a = n + 1 ↔ a = n := by
  unfold nextAge
  split <;> omega

/-! ## Stages -/

theorem Operands.stage1 {b m : Nat} {inp : RowblockIn} (h : Operands j b m inp)
    (lane : Fin rows) (r : Reducer) :
    Stage1 j b m lane (r.step true inp.validIn (inp.weightBitsFlat.field lane) inp.actsPacked
      (inp.weightScalesFlat.field lane) inp.actScale) where
  weightScale := by
    show fp16ToFp32 _ = _
    rw [h.scales]
  actScale := by
    show fp16ToFp32 _ = _
    rw [h.actScale]
  sum := by
    show subSum _ _ = _
    rw [h.bits, h.acts, subSum_eq]

section

variable {b m lane : Nat} {r : Reducer} (v : Bool) (bits : BitVec 32)
    (acts : BitVec 256) (ws as : Fp16)

theorem Stage1.step (h : Stage1 j b m lane r) :
    Stage2 j b m lane (r.step true v bits acts ws as) where
  combined := by
    show fp32Mul _ _ = _
    rw [h.weightScale, h.actScale]
  sum := by
    show intToFp32 _ = _
    rw [h.sum]

theorem Stage2.step (h : Stage2 j b m lane r) :
    (r.step true v bits acts ws as).contribution = j.term b lane m := by
  show fp32Mul _ _ = _
  rw [h.combined, h.sum]
  rfl

end

/-! ## Edges -/

theorem lastPipe_shift (pipe : BitVec 2) (bit : Bool) :
    (pipe.extractLsb' 0 1 ++ BitVec.ofBool bit).getLsbD 0 = bit ∧
      (pipe.extractLsb' 0 1 ++ BitVec.ofBool bit).getLsbD 1 = pipe.getLsbD 0 := by
  revert pipe bit
  decide

section

variable {b m a : Nat} {last : Bool} {inp : RowblockIn} {r : Rowblock}

theorem Pipe.step_reducers (h : Pipe j b m a last inp r) (lane : Fin rows) :
    (r.step true inp).reducers lane = (r.reducers lane).step true inp.validIn
      (inp.weightBitsFlat.field lane)
      inp.actsPacked (inp.weightScalesFlat.field lane) inp.actScale := by
  rw [Rowblock.step, h.start]
  rfl

theorem Pipe.step_acc (h : Pipe j b m a last inp r) (lane : Fin rows) :
    (r.step true inp).accFlat.field lane = j.partialLane b lane (if a = 4 then m + 1 else m) := by
  have hacc : (r.step true inp).accFlat =
      r.accFlat.setFields (fun lane => (r.reducers lane).validOut)
      fun lane => fp32Add (r.accFlat.field lane) (r.reducers lane).contribution := by
    rw [Rowblock.step, h.start]
    rfl
  rw [hacc, BitVec.field_setFields, h.validOut, h.acc]
  by_cases ha : a = 4
  · rw [if_pos ha, ha, h.stage3 ha, j.partialLane_succ]
    rfl
  · rw [if_neg ha, decide_eq_false ha]
    rfl

/-- An edge moves the sub-block on by one stage. -/
theorem Pipe.step (h : Pipe j b m a last inp r) {inp' : RowblockIn} (hstart : inp'.start = false)
    (hvalid : inp'.validIn = false) (hlast : inp'.lastIn = false) :
    Pipe j b (if a = 4 then m + 1 else m) (nextAge a) last inp' (r.step true inp) := by
  have hone : decide (nextAge a = 1) = false := decide_eq_false (nextAge_ne_one a)
  have htwo : nextAge a = 2 ↔ a = 1 := nextAge_eq 1 (by decide)
  have hthree : nextAge a = 3 ↔ a = 2 := nextAge_eq 2 (by decide)
  have hfour : nextAge a = 4 ↔ a = 3 := nextAge_eq 3 (by decide)
  have hreg : (r.step true inp).lastPipe =
      r.lastPipe.extractLsb' 0 1 ++ BitVec.ofBool (inp.validIn && inp.lastIn) ∧
      (r.step true inp).done = r.lastPipe.getLsbD 1 := by
    rw [Rowblock.step, h.start]
    exact ⟨rfl, rfl⟩
  -- each stage holds what the one before it held
  refine
    { start := hstart
      validIn := by rw [hvalid, hone]
      lastIn := by rw [hlast, hone, Bool.and_false]
      validS1 := ?_, validS2 := ?_, validOut := ?_, lastPipe0 := ?_, lastPipe1 := ?_, done := ?_
      operands := fun h1 => absurd h1 (nextAge_ne_one a)
      stage1 := ?_, stage2 := ?_, stage3 := ?_
      acc := h.step_acc }
  · intro lane
    rw [h.step_reducers, decide_eq_decide.mpr htwo, ← h.validIn]
    rfl
  · intro lane
    rw [h.step_reducers, decide_eq_decide.mpr hthree, ← h.validS1 lane]
    rfl
  · intro lane
    rw [h.step_reducers, decide_eq_decide.mpr hfour, ← h.validS2 lane]
    rfl
  · rw [hreg.1, (lastPipe_shift _ _).1, h.lastIn, h.validIn]
    simp [htwo, Bool.and_left_comm]
  · rw [hreg.1, (lastPipe_shift _ _).2, decide_eq_decide.mpr hthree, h.lastPipe0]
  · rw [hreg.2, decide_eq_decide.mpr hfour, h.lastPipe1]
  · intro hage lane
    obtain rfl := htwo.mp hage
    rw [h.step_reducers]
    exact (h.operands rfl).stage1 lane _
  · intro hage lane
    obtain rfl := hthree.mp hage
    rw [h.step_reducers]
    exact (h.stage1 rfl lane).step _ _ _ _ _
  · intro hage lane
    obtain rfl := hfour.mp hage
    rw [h.step_reducers]
    exact (h.stage2 rfl lane).step _ _ _ _ _

theorem Pipe.move (h : Pipe j b m a last inp r) (ha : 1 ≤ a ∧ a < 4) {inp' : RowblockIn}
    (hstart : inp'.start = false) (hvalid : inp'.validIn = false) (hlast : inp'.lastIn = false) :
    Pipe j b m (a + 1) last inp' (r.step true inp) := by
  have hnext := h.step hstart hvalid hlast
  have hage : nextAge a = a + 1 := by
    unfold nextAge
    split <;> omega
  rwa [hage, if_neg (by omega)] at hnext

theorem Pipe.land {m' : Nat} (h : Pipe j b m 4 last inp r) (hm : m + 1 = m') {inp' : RowblockIn}
    (hstart : inp'.start = false) (hvalid : inp'.validIn = false) (hlast : inp'.lastIn = false) :
    Pipe j b m' 0 last inp' (r.step true inp) := by
  subst hm
  exact h.step hstart hvalid hlast

/-- A sub-block at the inputs of an empty pipeline. -/
theorem Pipe.enter (h : Pipe j b m 0 last inp r) {inp' : RowblockIn} {last' : Bool}
    (hstart : inp'.start = false)
    (hvalid : inp'.validIn = true) (hlast : inp'.lastIn = last') (hop : Operands j b m inp') :
    Pipe j b m 1 last' inp' r where
  start := hstart
  validIn := hvalid
  lastIn := by rw [hlast]; simp
  validS1 := h.validS1
  validS2 := h.validS2
  validOut := h.validOut
  lastPipe0 := by rw [h.lastPipe0]; simp
  lastPipe1 := by rw [h.lastPipe1]; simp
  done := by rw [h.done]; simp
  operands := fun _ => hop
  stage1 := by simp
  stage2 := by simp
  stage3 := by simp
  acc := h.acc

/-- An empty pipeline takes in sub-block `m`. -/
theorem Pipe.issue (h : Pipe j b m 0 last inp r) {inp' : RowblockIn} {last' : Bool}
    (hstart : inp'.start = false)
    (hvalid : inp'.validIn = true) (hlast : inp'.lastIn = last') (hop : Operands j b m inp') :
    Pipe j b m 1 last' inp' (r.step true inp) := by
  have hempty : Pipe j b m 0 last { inp' with validIn := false, lastIn := false }
      (r.step true inp) :=
    h.step hstart rfl rfl
  exact hempty.enter hstart hvalid hlast hop

/-- The start strobe clears the accumulators. -/
theorem Fresh.step (h : Fresh inp r) {inp' : RowblockIn} (hstart : inp'.start = false)
    (hvalid : inp'.validIn = false) (hlast : inp'.lastIn = false) :
    Pipe j b 0 0 false inp' (r.step true inp) := by
  have hstep : r.step true inp = ⟨fun lane => (r.reducers lane).step true inp.validIn
      (inp.weightBitsFlat.field lane) inp.actsPacked (inp.weightScalesFlat.field lane) inp.actScale,
      0, 0, false⟩ := by
    rw [Rowblock.step, h.start]
    rfl
  rw [hstep]
  refine
    { start := hstart, validIn := hvalid, lastIn := hlast
      validS1 := fun lane => h.validIn
      validS2 := fun lane => h.validS1 lane, validOut := fun lane => h.validS2 lane
      lastPipe0 := by simp, lastPipe1 := by simp, done := rfl
      operands := by simp, stage1 := by simp, stage2 := by simp, stage3 := by simp, acc := ?_ }
  intro lane
  rw [j.partialLane_zero]
  exact BitVec.extractLsb'_zero

/-! ## Sub-blocks in flight -/

/-- All sub-blocks before `i` have left the inputs: they are accumulated, or the last
    of them is in the pipeline and older than `t`. -/
def Flight (j : Job) (b i t : Nat) (inp : RowblockIn) (r : Rowblock) : Prop :=
  Pipe j b i 0 false inp r ∨ ∃ m a, m + 1 = i ∧ t < a ∧ a ≤ 4 ∧ Pipe j b m a false inp r

theorem Flight.mono {i t t' : Nat} (h : Flight j b i t inp r) (ht : t' ≤ t) :
    Flight j b i t' inp r := by
  obtain hempty | ⟨m, a, hm, hta, ha, hpipe⟩ := h
  · exact .inl hempty
  · exact .inr ⟨m, a, hm, by omega, ha, hpipe⟩

theorem Flight.landed {i : Nat} (h : Flight j b i 4 inp r) : Pipe j b i 0 false inp r := by
  obtain hempty | ⟨m, a, hm, hta, ha, hpipe⟩ := h
  · exact hempty
  · omega

theorem Flight.step {i t : Nat} (h : Flight j b i t inp r) {inp' : RowblockIn}
    (hstart : inp'.start = false) (hvalid : inp'.validIn = false) (hlast : inp'.lastIn = false) :
    Flight j b i (t + 1) inp' (r.step true inp) := by
  obtain hempty | ⟨m, a, hm, hta, ha, hpipe⟩ := h
  · exact .inl (hempty.step hstart hvalid hlast)
  · rcases Nat.lt_or_eq_of_le ha with hlt | rfl
    · exact .inr ⟨m, a + 1, hm, by omega, hlt, hpipe.move ⟨by omega, hlt⟩ hstart hvalid hlast⟩
    · exact .inl (hpipe.land hm hstart hvalid hlast)

end

end Q1a8
