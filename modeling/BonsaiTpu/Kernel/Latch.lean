-- SUMMARY: What the weight registers of the kernel hold of the beats it accepted, for streams of any length and any block counts.
import BonsaiTpu.Kernel.Run

/-!
# Latched weights

The kernel takes weights in groups of 18 beats, whatever the counts it was started
with, the results and the acts do: two beats of scales, then four times four beats
of weight bits. `Latch` says what the registers hold after `c` accepted beats.
-/

namespace Q1a8

variable {j : Streams} {k : Kernel} {i : Inputs} {c : Nat}

theorem Streams.weightBase_first (j : Streams) (q : Nat) : j.weightBase 0 q = 18 * q := by
  rw [Streams.weightBase, Nat.zero_mul, Nat.zero_add]

/-- The scales of block `q` are in the lanes below `n`. -/
def ScalesHeld (j : Streams) (q n : Nat) (k : Kernel) : Prop :=
  ∀ lane : Fin rows, lane.val < n → k.weightScalesFlat.field lane = j.weightScale 0 q lane

def BitsHeld (j : Streams) (q s n : Nat) (k : Kernel) : Prop :=
  ∀ lane : Fin rows, lane.val < n → k.weightBitsFlat.field lane = j.weightBits 0 q s lane

/-- In `ST_SCALES`, with `t` beats of block `q` accepted. -/
structure InScales (j : Streams) (q t : Nat) (k : Kernel) : Prop where
  busy : k.busyQ = true
  state : k.state = .scales
  beatIndex : k.beatIndex.toNat = t
  lanes : ScalesHeld j q (4 * t) k

/-- In `ST_WBITS`, with `t` beats of sub-block `s` accepted. -/
structure InWbits (j : Streams) (q s t : Nat) (k : Kernel) : Prop where
  busy : k.busyQ = true
  state : k.state = .wbits
  beatIndex : k.beatIndex.toNat = t
  q8Index : k.q8Index.toNat = s
  scales : ScalesHeld j q rows k
  lanes : BitsHeld j q s (2 * t) k

/-- In `ST_ISSUE`, with sub-block `s` complete. -/
structure InIssue (j : Streams) (q s : Nat) (k : Kernel) : Prop where
  busy : k.busyQ = true
  state : k.state = .issue
  beatIndex : k.beatIndex = 0#8
  q8Index : k.q8Index.toNat = s
  scales : ScalesHeld j q rows k
  bits : BitsHeld j q s rows k

/-- Between two groups of beats, outside the states that take or issue weights. -/
structure Between (k : Kernel) : Prop where
  beatIndex : k.busyQ = true → k.beatIndex = 0#8
  state : k.state ≠ .scales ∧ k.state ≠ .wbits ∧ k.state ≠ .issue
  rests : k.Rests

/-- The registers after `c` accepted beats of weights. -/
inductive Latch (j : Streams) (c : Nat) (k : Kernel) : Prop
  | scales (q t : Nat) (hc : c = 18 * q + t) (ht : t < 2) (h : InScales j q t k)
  | wbits (q s t : Nat) (hc : c = 18 * q + 2 + 4 * s + t) (hs : s < 4) (ht : t < 4)
      (h : InWbits j q s t k)
  | issue (q s : Nat) (hc : c = 18 * q + 2 + 4 * s + 4) (hs : s < 4) (h : InIssue j q s k)
  | between (q : Nat) (hc : c = 18 * q) (h : Between k)

/-! ## One edge -/

/-- The start of a group of beats. -/
theorem InScales.first (q : Nat) (hbusy : k.busyQ = true) (hstate : k.state = .scales)
    (hbeat : k.beatIndex = 0#8) :
    InScales j q 0 k where
  busy := hbusy
  state := hstate
  beatIndex := by rw [hbeat]; rfl
  lanes := fun lane hlane => absurd hlane (Nat.not_lt_zero _)

theorem InScales.accept (h : InScales j q t k) : k.weightsBeatAccept i = i.sAxisTvalid := by
  rw [Kernel.weightsBeatAccept, Kernel.sAxisTready, h.state, h.busy]
  simp

theorem InWbits.accept (h : InWbits j q s t k) : k.weightsBeatAccept i = i.sAxisTvalid := by
  rw [Kernel.weightsBeatAccept, Kernel.sAxisTready, h.state, h.busy]
  simp

theorem InIssue.accept (h : InIssue j q s k) : k.weightsBeatAccept i = false := by
  rw [Kernel.weightsBeatAccept, Kernel.sAxisTready, h.state]
  simp

theorem Between.accept (h : Between k) : k.weightsBeatAccept i = false := by
  rw [Kernel.weightsBeatAccept, Kernel.sAxisTready, beq_eq_false_iff_ne.mpr h.state.1,
    beq_eq_false_iff_ne.mpr h.state.2.1]
  simp

theorem InScales.step {q t : Nat} (h : InScales j q t k) (ht : t < 2) (hrst : i.rstN = true)
    (hvalid : i.sAxisTvalid = true) (hdata : i.sAxisTdata = j.weights (18 * q + t)) :
    if t = 1 then InWbits j q 0 0 (k.step i) else InScales j q (t + 1) (k.step i) := by
  have hstep : k.clearStrobes.busyStep i = k.clearStrobes.scales i := by
    rw [Kernel.busyStep, show k.clearStrobes.state = .scales from h.state]
  have haccept : k.clearStrobes.weightsBeatAccept i = true := (h.accept (i := i)).trans hvalid
  have hindex : k.clearStrobes.beatIndex = 1#8 ↔ t = 1 := by
    rw [← BitVec.toNat_inj]
    exact (congrArg (· = 1) h.beatIndex).to_iff
  have hbeat : i.sAxisTdata = j.weights (j.weightBase 0 q + t) := by
    rw [Streams.weightBase_first]
    exact hdata
  have hflat := field_scalesBeat hbeat h.lanes
  rw [← h.beatIndex] at hflat
  rw [step_busy hrst h.busy, hstep, Kernel.scales, if_pos haccept]
  by_cases hlast : t = 1
  · rw [if_pos hlast, if_pos (hindex.mpr hlast)]
    have hindex := h.beatIndex
    exact
      { busy := h.busy, state := rfl, beatIndex := rfl, q8Index := rfl
        scales := fun lane hlane => hflat lane (by simp only [rows] at hlane; omega)
        lanes := fun lane hlane => absurd hlane (Nat.not_lt_zero _) }
  · rw [if_neg hlast, if_neg (mt hindex.mp hlast)]
    exact
      { busy := h.busy, state := h.state
        beatIndex := by
          have := h.beatIndex
          show (k.beatIndex + 1#8).toNat = t + 1
          bv_omega
        lanes := fun lane hlane => hflat lane (by rw [h.beatIndex]; exact hlane) }

theorem InWbits.step {q s t : Nat} (h : InWbits j q s t k) (ht : t < 4) (hrst : i.rstN = true)
    (hvalid : i.sAxisTvalid = true) (hdata : i.sAxisTdata = j.weights (18 * q + 2 + 4 * s + t)) :
    if t = 3 then InIssue j q s (k.step i) else InWbits j q s (t + 1) (k.step i) := by
  have hstep : k.clearStrobes.busyStep i = k.clearStrobes.wbits i := by
    rw [Kernel.busyStep, show k.clearStrobes.state = .wbits from h.state]
  have haccept : k.clearStrobes.weightsBeatAccept i = true := (h.accept (i := i)).trans hvalid
  have hindex : k.clearStrobes.beatIndex = 3#8 ↔ t = 3 := by
    rw [← BitVec.toNat_inj]
    exact (congrArg (· = 3) h.beatIndex).to_iff
  have hbeat : i.sAxisTdata = j.weights (j.weightBase 0 q + 2 + 4 * s + t) := by
    rw [Streams.weightBase_first]
    exact hdata
  have hflat := field_wbitsBeat hbeat h.lanes
  rw [← h.beatIndex] at hflat
  rw [step_busy hrst h.busy, hstep, Kernel.wbits, if_pos haccept]
  by_cases hlast : t = 3
  · rw [if_pos hlast, if_pos (hindex.mpr hlast)]
    have hindex := h.beatIndex
    exact
      { busy := h.busy, state := rfl, beatIndex := rfl, q8Index := h.q8Index, scales := h.scales
        bits := fun lane hlane => hflat lane (by simp only [rows] at hlane; omega) }
  · rw [if_neg hlast, if_neg (mt hindex.mp hlast)]
    exact
      { busy := h.busy, state := h.state, q8Index := h.q8Index, scales := h.scales
        beatIndex := by
          have := h.beatIndex
          show (k.beatIndex + 1#8).toNat = t + 1
          bv_omega
        lanes := fun lane hlane => hflat lane (by rw [h.beatIndex]; exact hlane) }

/-- Without a beat the registers stay. -/
theorem InScales.stall {q t : Nat} (h : InScales j q t k) (hrst : i.rstN = true)
    (hvalid : i.sAxisTvalid = false) :
    InScales j q t (k.step i) := by
  have haccept : k.clearStrobes.weightsBeatAccept i = false := (h.accept (i := i)).trans hvalid
  rw [step_busy hrst h.busy, Kernel.busyStep, show k.clearStrobes.state = .scales from h.state]
  simp only [Kernel.scales, haccept]
  exact { busy := h.busy, state := h.state, beatIndex := h.beatIndex, lanes := h.lanes }

theorem InWbits.stall {q s t : Nat} (h : InWbits j q s t k) (hrst : i.rstN = true)
    (hvalid : i.sAxisTvalid = false) :
    InWbits j q s t (k.step i) := by
  have haccept : k.clearStrobes.weightsBeatAccept i = false := (h.accept (i := i)).trans hvalid
  rw [step_busy hrst h.busy, Kernel.busyStep, show k.clearStrobes.state = .wbits from h.state]
  simp only [Kernel.wbits, haccept]
  exact { busy := h.busy, state := h.state,
          beatIndex := h.beatIndex, q8Index := h.q8Index, scales := h.scales, lanes := h.lanes }

/-- `ST_ISSUE` is left for the next sub-block, the next block or the end of the rowblock. -/
theorem InIssue.step {q s : Nat} (h : InIssue j q s k) (hs : s < 4) (hrst : i.rstN = true) :
    if s = 3 then InScales j (q + 1) 0 (k.step i) ∨ Between (k.step i)
    else InWbits j q (s + 1) 0 (k.step i) := by
  have hstep : k.clearStrobes.busyStep i = k.clearStrobes.issue := by
    rw [Kernel.busyStep, show k.clearStrobes.state = .issue from h.state]
  have hsub : k.clearStrobes.q8Index = 3#2 ↔ s = 3 := by
    rw [← BitVec.toNat_inj]
    exact (congrArg (· = 3) h.q8Index).to_iff
  rw [step_busy hrst h.busy, hstep, Kernel.issue]
  by_cases hlast : s = 3
  · rw [if_pos hlast, if_pos (hsub.mpr hlast)]
    split
    · exact .inr ⟨fun _ => h.beatIndex, by simp, fun hbusy =>
        absurd h.busy (by rw [show k.busyQ = false from hbusy]; decide)⟩
    · exact .inl (.first _ h.busy rfl h.beatIndex)
  · rw [if_neg hlast, if_neg (mt hsub.mp hlast)]
    exact
      { busy := h.busy, state := rfl, scales := h.scales
        beatIndex := congrArg BitVec.toNat h.beatIndex
        q8Index := by
          have := h.q8Index
          show (k.q8Index + 1#2).toNat = s + 1
          bv_omega
        lanes := fun lane hlane => absurd hlane (Nat.not_lt_zero _) }

/-- Outside the weight states the sequencer keeps `beat_index` and enters `ST_SCALES` only. -/
theorem busyStep_between (i : Inputs) (hbusy : k.busyQ = true) (hbeat : k.beatIndex = 0#8)
    (hstate : k.state ≠ .scales ∧ k.state ≠ .wbits ∧ k.state ≠ .issue) :
    (k.busyStep i).beatIndex = 0#8 ∧
      ((k.busyStep i).busyQ = true ∧ (k.busyStep i).state = .scales ∨
        (k.busyStep i).state ≠ .scales ∧ (k.busyStep i).state ≠ .wbits ∧
          (k.busyStep i).state ≠ .issue) := by
  obtain ⟨hscales, hwbits, hissue⟩ := hstate
  unfold Kernel.busyStep
  cases hs : k.state with
  | scales => exact absurd hs hscales
  | wbits => exact absurd hs hwbits
  | issue => exact absurd hs hissue
  | loadActs => grind [Kernel.loadActs]
  | loadScale => grind [Kernel.loadScale]
  | waitDone => grind [Kernel.waitDone]
  | drain => grind [Kernel.drain]
  | emit => grind [Kernel.emit]
  | finish => grind [Kernel.finish]
  | idle => simp [hbeat]
  | unused => simp [hbeat]

theorem Between.step (h : Between k) (q : Nat) (hrst : i.rstN = true) :
    InScales j q 0 (k.step i) ∨ Between (k.step i) := by
  have hrests := h.rests.step i
  by_cases hbusy : k.busyQ = true
  · have hbeat : k.clearStrobes.beatIndex = 0#8 := h.beatIndex hbusy
    rw [step_busy hrst hbusy] at hrests ⊢
    obtain ⟨hbeat', hin | hout⟩ :=
      busyStep_between i (show k.clearStrobes.busyQ = true from hbusy) hbeat h.state
    · exact .inl (.first q hin.1 hin.2 hbeat')
    · exact .inr ⟨fun _ => hbeat', hout, hrests⟩
  · have hidle : k.busyQ = false := Bool.eq_false_iff.mpr hbusy
    refine .inr ⟨?_, ?_, hrests⟩
    · simp only [Kernel.step, Kernel.control, hrst, Kernel.startPulse, hidle]
      cases i.startKernel with
      | true => exact fun _ => rfl
      | false => exact fun hb => absurd hb (by simp [Kernel.clearStrobes, hidle])
    · simp only [Kernel.step, Kernel.control, hrst, Kernel.startPulse, hidle]
      cases i.startKernel with
      | true => simp [Kernel.startStep]
      | false => simpa [Kernel.clearStrobes] using h.state

/-- One edge keeps what the weight registers hold of the accepted beats. -/
theorem Latch.step (h : Latch j c k) (hrst : i.rstN = true)
    (hdata : k.weightsBeatAccept i = true → i.sAxisTdata = j.weights c) :
    Latch j (c + if k.weightsBeatAccept i then 1 else 0) (k.step i) := by
  cases h with
  | scales q t hc ht h =>
    rw [h.accept] at hdata ⊢
    cases hvalid : i.sAxisTvalid with
    | false => exact .scales q t hc ht (h.stall hrst hvalid)
    | true =>
      have hnext := h.step ht hrst hvalid (hc ▸ hdata hvalid)
      split at hnext
      · exact .wbits q 0 0 (by simp; omega) (by decide) (by decide) hnext
      · exact .scales q (t + 1) (by simp; omega) (by omega) hnext
  | wbits q s t hc hs ht h =>
    rw [h.accept] at hdata ⊢
    cases hvalid : i.sAxisTvalid with
    | false => exact .wbits q s t hc hs ht (h.stall hrst hvalid)
    | true =>
      have hnext := h.step ht hrst hvalid (hc ▸ hdata hvalid)
      split at hnext
      · exact .issue q s (by simp; omega) hs hnext
      · exact .wbits q s (t + 1) (by simp; omega) hs (by omega) hnext
  | issue q s hc hs h =>
    have hnext := h.step (i := i) hs hrst
    rw [h.accept]
    split at hnext
    · rcases hnext with hnext | hnext
      · exact .scales (q + 1) 0 (by simp; omega) (by decide) hnext
      · exact .between (q + 1) (by simp; omega) hnext
    · exact .wbits q (s + 1) 0 (by simp; omega) (by omega) (by decide) hnext
  | between q hc h =>
    rw [h.accept]
    rcases h.step (j := j) (i := i) q hrst with hnext | hnext
    · exact .scales q 0 hc (by decide) hnext
    · exact .between q hc hnext

/-! ## Runs -/

/-- A run from the start of a rowblock, without reset, in which the accepted weight beats
    are those of a stream. -/
structure Streamed (k : Kernel) (inp : Nat → Inputs) (beats : Nat → BitVec 64) : Prop where
  busy : k.busyQ = true
  state : k.state = .scales
  beatIndex : k.beatIndex = 0#8
  rstN : ∀ n, (inp n).rstN = true
  weights : ∀ n, (cycle k inp n).weightsBeatAccept (inp n) = true →
    (inp n).sAxisTdata = beats (weightsAccepted k inp n)

/-- The streams of a run that are not the weights do not matter here. -/
def weightStream (beats : Nat → BitVec 64) : Streams := ⟨0, 0, fun _ => 0, beats⟩

section

variable {inp : Nat → Inputs} {beats : Nat → BitVec 64} {n q s : Nat}

theorem weightsAccepted_succ (k : Kernel) (inp : Nat → Inputs) (n : Nat) :
    weightsAccepted k inp (n + 1) =
      weightsAccepted k inp n + if (cycle k inp n).weightsBeatAccept (inp n) then 1 else 0 :=
  count_succ_bool _ n

theorem Streamed.latch (h : Streamed k inp beats) (n : Nat) :
    Latch (weightStream beats) (weightsAccepted k inp n) (cycle k inp n) := by
  induction n with
  | zero => exact .scales 0 0 rfl (by decide) (.first 0 h.busy h.state h.beatIndex)
  | succ n ih =>
    rw [weightsAccepted_succ]
    exact ih.step (h.rstN n) (h.weights n)

/-- The last beat of a sub-block completes its lanes: they are in the registers when the
    sub-block is issued. -/
theorem Streamed.latched (h : Streamed k inp beats) (hs : s < 4)
    (haccept : (cycle k inp n).weightsBeatAccept (inp n) = true)
    (hcount : weightsAccepted k inp n = 18 * q + 4 * s + 5) :
    InIssue (weightStream beats) q s (cycle k inp (n + 1)) := by
  have hnext : cycle k inp (n + 1) = (cycle k inp n).step (inp n) := rfl
  cases h.latch n with
  | scales q' t hc ht hl => omega
  | wbits q' s' t hc hs' ht hl =>
    have hq : q' = q := by omega
    have hsub : s' = s := by omega
    have hlast : t = 3 := by omega
    have hstep := hl.step ht (h.rstN n) (hl.accept.symm.trans haccept) (hc ▸ h.weights n haccept)
    rwa [if_pos hlast, hq, hsub, ← hnext] at hstep
  | issue q' s' hc hs' hl =>
    rw [hl.accept] at haccept
    cases haccept
  | between q' hc hl =>
    rw [hl.accept] at haccept
    cases haccept

/-! ## Progress -/

theorem InScales.ready {q t : Nat} (h : InScales j q t k) : k.sAxisTready = true := by
  rw [Kernel.sAxisTready, h.state, h.busy]
  rfl

theorem InWbits.ready {q s t : Nat} (h : InWbits j q s t k) : k.sAxisTready = true := by
  rw [Kernel.sAxisTready, h.state, h.busy]
  rfl

/-- A kernel that is ready stays ready until it gets a beat. -/
theorem Latch.stall (h : Latch j c k) (hready : k.sAxisTready = true) (hrst : i.rstN = true)
    (hvalid : i.sAxisTvalid = false) : (k.step i).sAxisTready = true := by
  cases h with
  | scales q t hc ht h => exact (h.stall hrst hvalid).ready
  | wbits q s t hc hs ht h => exact (h.stall hrst hvalid).ready
  | issue q s hc hs h =>
    rw [Kernel.sAxisTready, h.state] at hready
    simp at hready
  | between q hc h =>
    rw [Kernel.sAxisTready, beq_eq_false_iff_ne.mpr h.state.1, beq_eq_false_iff_ne.mpr h.state.2.1]
      at hready
    simp at hready

/-- A ready kernel accepts its next beat when the stream is fair. -/
theorem Streamed.accepts (h : Streamed k inp beats)
    (hfair : ∀ n, ∃ m, n ≤ m ∧ (inp m).sAxisTvalid = true)
    (hready : (cycle k inp n).sAxisTready = true) :
    ∃ m, n ≤ m ∧ (cycle k inp m).weightsBeatAccept (inp m) = true ∧
      weightsAccepted k inp m = weightsAccepted k inp n := by
  let wait (m : Nat) : Prop :=
    n ≤ m ∧ (cycle k inp m).sAxisTready = true ∧ weightsAccepted k inp m = weightsAccepted k inp n
  have hgo : ∀ m, wait m → (inp m).sAxisTvalid = true →
      ∃ m', m + 1 = m' + 1 ∧ wait m' ∧ (cycle k inp m').weightsBeatAccept (inp m') = true := by
    intro m hwait hvalid
    refine ⟨m, rfl, hwait, ?_⟩
    rw [Kernel.weightsBeatAccept, hvalid, hwait.2.1]
    rfl
  have hstay : ∀ m, wait m → ¬(inp m).sAxisTvalid = true → wait (m + 1) := by
    rintro m ⟨hle, hr, hcount⟩ hvalid
    have hv : (inp m).sAxisTvalid = false := Bool.eq_false_iff.mpr hvalid
    refine ⟨Nat.le_succ_of_le hle, (h.latch m).stall hr (h.rstN m) hv, ?_⟩
    rw [weightsAccepted_succ, Kernel.weightsBeatAccept, hv]
    exact hcount
  let next (m : Nat) : Prop :=
    ∃ m', m = m' + 1 ∧ wait m' ∧ (cycle k inp m').weightsBeatAccept (inp m') = true
  have hnext : ∃ m, n < m ∧ next m :=
    Machine.exists_of_fair hgo hstay hfair ⟨Nat.le_refl n, hready, rfl⟩
  obtain ⟨m, -, m', -, ⟨hle, -, hcount⟩, haccept⟩ := hnext
  exact ⟨m', hle, haccept, hcount⟩

/-- Inside a group of beats the kernel is ready, at the latest after issuing a sub-block. -/
theorem Streamed.ready_inside (h : Streamed k inp beats) {t : Nat} (ht : 0 < t) (ht' : t < 18)
    (hcount : weightsAccepted k inp n = 18 * q + t) :
    ∃ m, n ≤ m ∧ (cycle k inp m).sAxisTready = true ∧ weightsAccepted k inp m = 18 * q + t := by
  cases h.latch n with
  | scales q' t' hc ht hl => exact ⟨n, Nat.le_refl n, hl.ready, hcount⟩
  | wbits q' s' t' hc hs ht hl => exact ⟨n, Nat.le_refl n, hl.ready, hcount⟩
  | issue q' s' hc hs hl =>
    have hnext := hl.step (i := inp n) hs (h.rstN n)
    rw [if_neg (by omega)] at hnext
    refine ⟨n + 1, Nat.le_succ n, hnext.ready, ?_⟩
    rw [weightsAccepted_succ, hl.accept]
    exact hcount
  | between q' hc hl => omega

/-- From the start of a block, every beat of the block is accepted at some time. -/
theorem Streamed.block_accepted (h : Streamed k inp beats)
    (hfair : ∀ n, ∃ m, n ≤ m ∧ (inp m).sAxisTvalid = true)
    (hready : (cycle k inp n).sAxisTready = true) (hcount : weightsAccepted k inp n = 18 * q)
    {t : Nat} (ht : t < 18) :
    ∃ m, n ≤ m ∧ (cycle k inp m).weightsBeatAccept (inp m) = true ∧
      weightsAccepted k inp m = 18 * q + t := by
  induction t with
  | zero =>
    obtain ⟨m, hle, haccept, hm⟩ := h.accepts hfair hready
    exact ⟨m, hle, haccept, hm.trans hcount⟩
  | succ t ih =>
    obtain ⟨m, hle, haccept, hm⟩ := ih (by omega)
    have hsucc : weightsAccepted k inp (m + 1) = 18 * q + (t + 1) := by
      rw [weightsAccepted_succ, haccept, hm]
      rfl
    obtain ⟨m', hle', hready', hm'⟩ := h.ready_inside (Nat.succ_pos t) ht hsucc
    obtain ⟨m'', hle'', haccept'', hm''⟩ := h.accepts hfair hready'
    exact ⟨m'', by omega, haccept'', hm''.trans hm'⟩

end

end Q1a8
