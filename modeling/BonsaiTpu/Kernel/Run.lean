-- SUMMARY: A complete kernel run: beat counts, result beats, stability under back pressure and completion.
import BonsaiTpu.Kernel.Phases
import Mathlib.Data.Nat.Count

/-!
# Kernel runs

A run starts in cycle 0 with an accepted `start_kernel` and ends in the first
later cycle in which `kernel_done` is high. The streams may stall in any cycle:
the run goes through the same positions, only later.
-/

namespace Q1a8

variable {j : Job}

/-! ## The wires at a position -/

/-- The FSM state of a position. -/
def Pos.state : Pos → State
  | load n => if n % 5 = 4 then .loadScale else .loadActs
  | scales .. => .scales
  | wbits .. => .wbits
  | issue .. => .issue
  | wait .. => .waitDone
  | drain .. => .drain
  | emit .. => .emit
  | finish => .finish
  | done => .idle

section

variable {p : Pos} {k : Kernel}

theorem At.state (h : At j p k) : k.state = p.state := by
  cases p with
  | load n => exact AtLoad.state h
  | scales b q t => exact AtScales.state h
  | wbits b i t => exact AtWbits.state h
  | issue b i => exact AtIssue.state h
  | wait b c => exact AtWait.state h
  | drain b d => exact AtDrain.state h
  | emit b e => exact AtEmit.state h
  | finish => exact AtFinish.state h
  | done => exact AtDone.state h

theorem At.flags (h : At j p k) :
    k.busyQ = decide (p ≠ .done) ∧ k.kernelDone = decide (p = .done) := by
  cases p with
  | load n => exact ⟨AtLoad.busy h, AtLoad.notDone h⟩
  | scales b q t => exact ⟨h.busy, h.notDone⟩
  | wbits b i t => exact ⟨h.busy, h.notDone⟩
  | issue b i => exact ⟨h.busy, h.notDone⟩
  | wait b c => exact ⟨h.busy, h.notDone⟩
  | drain b d => exact ⟨h.busy, h.notDone⟩
  | emit b e => exact ⟨h.busy, h.notDone⟩
  | finish => exact ⟨AtFinish.busy h, AtFinish.notDone h⟩
  | done => exact ⟨AtDone.busy h, AtDone.done h⟩

theorem At.sAxisActsTready (h : At j p k) : k.sAxisActsTready = p.takesActs := by
  rw [Kernel.sAxisActsTready, h.state, h.flags.1]
  cases p with
  | load n =>
    rw [Pos.state]
    split <;> rfl
  | _ => rfl

theorem At.sAxisTready (h : At j p k) : k.sAxisTready = p.takesWeights := by
  rw [Kernel.sAxisTready, h.state, h.flags.1]
  cases p with
  | load n =>
    rw [Pos.state]
    split <;> rfl
  | _ => rfl

theorem At.mAxisTvalid (h : At j p k) : k.mAxisTvalid = p.gives := by
  rw [Kernel.mAxisTvalid, h.state]
  cases p with
  | load n =>
    rw [Pos.state]
    split <;> rfl
  | _ => rfl

/-- A result beat holds two lanes of the rowblock. -/
theorem AtEmit.mAxisTdata {b e : Nat} (h : AtEmit j b e k) (he : e < 4) :
    k.mAxisTdata = j.resultBeat (4 * b + e) := by
  have hb : (4 * b + e) / 4 = b := by omega
  have he' : (4 * b + e) % 4 = e := by omega
  have hlane : ∀ lane < rows, k.rowblock.accFlat.extractLsb' (lane * 32) 32 = j.laneResult b lane :=
    fun lane hl => h.pipe.acc ⟨lane, hl⟩
  rw [Kernel.mAxisTdata, Kernel.emitWord, h.emitBeat, Streams.resultBeat, hb, he']
  have hcases : e = 0 ∨ e = 1 ∨ e = 2 ∨ e = 3 := by omega
  obtain rfl | rfl | rfl | rfl := hcases
  · exact congrArg₂ (· ++ ·) (hlane 1 (by decide)) (hlane 0 (by decide))
  · exact congrArg₂ (· ++ ·) (hlane 3 (by decide)) (hlane 2 (by decide))
  · exact congrArg₂ (· ++ ·) (hlane 5 (by decide)) (hlane 4 (by decide))
  · exact congrArg₂ (· ++ ·) (hlane 7 (by decide)) (hlane 6 (by decide))

theorem AtEmit.mAxisTlast {b e : Nat} (h : AtEmit j b e k) (hb : b < j.rowblocks) (he : e < 4) :
    k.mAxisTlast = decide (4 * b + e + 1 = j.resultBeats) := by
  have hbeat : k.emitBeat = 3#2 ↔ e = 3 := by
    rw [← BitVec.toNat_inj, h.emitBeat]
    rfl
  have hrow : k.rowblockRemaining = 1#16 ↔ b + 1 = j.rowblocks := by
    rw [← BitVec.toNat_inj, h.rowblocks]
    exact (by omega : j.rowblocks - b = 1 ↔ b + 1 = j.rowblocks)
  have hend : (4 * b + e + 1 = j.resultBeats) ↔ (e = 3 ∧ b + 1 = j.rowblocks) := by
    rw [Streams.resultBeats]
    omega
  rw [Kernel.mAxisTlast, h.state, decide_eq_decide.mpr hend, Bool.decide_and,
    ← decide_eq_decide.mpr hbeat, ← decide_eq_decide.mpr hrow]
  rfl

end

/-! ## Runs -/

section

variable (k : Kernel) (inp : Nat → Inputs)

/-- The kernel in each cycle. -/
def cycle (c : Nat) : Kernel := Machine.trace Kernel.step k inp c

/-- The acts beats accepted before cycle `n`. -/
def actsAccepted (n : Nat) : Nat :=
  Nat.count (fun c => (cycle k inp c).actsBeatAccept (inp c) = true) n

def weightsAccepted (n : Nat) : Nat :=
  Nat.count (fun c => (cycle k inp c).weightsBeatAccept (inp c) = true) n

/-- The result beats taken from the kernel before cycle `n`. -/
def emitted (n : Nat) : Nat :=
  Nat.count (fun c => ((cycle k inp c).mAxisTvalid && (inp c).mAxisTready) = true) n

/-- No `kernel_done` between the start cycle and cycle `n`. -/
def Unfinished (n : Nat) : Prop := ∀ c, 1 ≤ c → c < n → (cycle k inp c).kernelDone = false

/-- The surroundings of a run: the kernel is started in cycle 0 and not reset, and the
    accepted beats are those of the two streams, in order. -/
structure Fed (j : Streams) : Prop where
  start : (inp 0).startKernel = true
  rstN : ∀ c, Unfinished k inp (c + 1) → (inp c).rstN = true
  acts : ∀ c, Unfinished k inp (c + 1) → (cycle k inp c).actsBeatAccept (inp c) = true →
    (inp c).sAxisActsTdata = j.acts (actsAccepted k inp c)
  weights : ∀ c, Unfinished k inp (c + 1) → (cycle k inp c).weightsBeatAccept (inp c) = true →
    (inp c).sAxisTdata = j.weights (weightsAccepted k inp c)

/-- A run with the block counts of the streams at the inputs, held until it ends. -/
structure Run (j : Streams) : Prop extends Fed k inp j where
  numRowblocks : (inp 0).numRowblocks.toNat = j.rowblocks
  numQ1Blocks : ∀ c, Unfinished k inp (c + 1) → (inp c).numQ1Blocks.toNat = j.q1Blocks

/-- Every stream moves again and again. -/
structure Fair : Prop where
  acts : ∀ n, ∃ m, n ≤ m ∧ (inp m).sAxisActsTvalid = true
  weights : ∀ n, ∃ m, n ≤ m ∧ (inp m).sAxisTvalid = true
  results : ∀ n, ∃ m, n ≤ m ∧ (inp m).mAxisTready = true

/-- In cycle `n` the run is at position `p`, and the counters of `p` are the beats so far. -/
structure Tracks (j : Job) (n : Nat) (p : Pos) : Prop where
  at_ : At j p (cycle k inp n)
  valid : p.Valid j
  acts : actsAccepted k inp n = p.actsTaken j
  weights : weightsAccepted k inp n = p.weightsTaken j
  emitted : emitted k inp n = p.given j

end

section

variable {k : Kernel} {inp : Nat → Inputs} {n : Nat} {p : Pos}

theorem Unfinished.mono {m : Nat} (h : Unfinished k inp n) (hm : m ≤ n) : Unfinished k inp m :=
  fun c h1 hc => h c h1 (Nat.lt_of_lt_of_le hc hm)

theorem count_succ_bool (accept : Nat → Bool) (n : Nat) :
    Nat.count (fun c => accept c = true) (n + 1) =
      Nat.count (fun c => accept c = true) n + if accept n then 1 else 0 := Nat.count_succ _ _

/-- The first cycle of a run. -/
theorem Run.tracks_start (h : Run k inp j.toStreams) (hrests : k.Rests) (hidle : k.busyQ = false) :
    Tracks k inp j 1 (.load 0) := by
  have hzero : Unfinished k inp 1 := fun c h1 hc => by omega
  have hcontrol : k.control (inp 0) = k.clearStrobes.startStep (inp 0) := by
    simp [Kernel.control, Kernel.startPulse, h.rstN 0 hzero, h.start, hidle]
  have hstep : cycle k inp 1 =
      { k.clearStrobes.startStep (inp 0) with
        actsQ := k.actsMem k.bramReadAddr
        actScaleQ := k.actScaleMem k.bramReadAddr
        rowblock := k.rowblock.step (inp 0).rstN k.rowblockIn } := by
    show k.step (inp 0) = _
    rw [Kernel.step, hcontrol]
  have hcycle : cycle k inp 0 = k := rfl
  refine ⟨?_, ?_, ?_, ?_, ?_⟩
  · rw [hstep]
    exact
      { state := rfl, busy := rfl, notDone := rfl, beat := rfl, sub := rfl, q1 := rfl
        accum := fun t ht => absurd ht (Nat.not_lt_zero _)
        loaded := fun m hm => absurd hm (Nat.not_lt_zero _)
        q1Remaining := h.numQ1Blocks 0 hzero
        q1Processed := rfl, rowblocks := h.numRowblocks, beatIndex := rfl
        validIn := rfl, validS1 := fun h0 => absurd h0 (by decide) }
  · exact Nat.mul_pos (by decide) j.q1Pos
  · rw [actsAccepted, count_succ_bool, hcycle]
    simp [Kernel.actsBeatAccept, Kernel.sAxisActsTready, hidle, Pos.actsTaken]
  · rw [weightsAccepted, count_succ_bool, hcycle]
    simp [Kernel.weightsBeatAccept, Kernel.sAxisTready, hidle, Pos.weightsTaken]
  · rw [emitted, count_succ_bool, hcycle]
    simp [Kernel.mAxisTvalid, hrests hidle, Pos.given]

theorem Tracks.step (ht : Tracks k inp j n p) (h : Run k inp j.toStreams)
    (hun : Unfinished k inp (n + 1)) (hp : p ≠ .done) :
    Tracks k inp j (n + 1) (nextPos j p (inp n)) := by
  have hacts : (cycle k inp n).actsBeatAccept (inp n) =
      ((inp n).sAxisActsTvalid && p.takesActs) := by
    rw [Kernel.actsBeatAccept, ht.at_.sAxisActsTready]
  have hweights : (cycle k inp n).weightsBeatAccept (inp n) =
      ((inp n).sAxisTvalid && p.takesWeights) := by
    rw [Kernel.weightsBeatAccept, ht.at_.sAxisTready]
  have hdrives : Drives j p (inp n) :=
    { rstN := h.rstN n hun
      numQ1Blocks := h.numQ1Blocks n hun
      acts := fun ha => ht.acts ▸ h.acts n hun (hacts.trans ha)
      weights := fun hw => ht.weights ▸ h.weights n hun (hweights.trans hw) }
  refine ⟨ht.at_.step ht.valid hp hdrives, ht.valid.next _ _ _, ?_, ?_, ?_⟩
  · rw [nextPos, Pos.actsTaken_next ht.valid, ← ht.acts, ← hacts]
    exact count_succ_bool _ n
  · rw [nextPos, Pos.weightsTaken_next ht.valid, ← ht.weights, ← hweights]
    exact count_succ_bool _ n
  · rw [nextPos, Pos.given_next ht.valid, ← ht.emitted, ← ht.at_.mAxisTvalid]
    exact count_succ_bool _ n

/-- Every cycle of a run is at a position. -/
theorem Run.tracks (h : Run k inp j.toStreams) (hrests : k.Rests) (hidle : k.busyQ = false)
    (hun : Unfinished k inp (n + 1)) :
    ∃ p, Tracks k inp j (n + 1) p := by
  induction n with
  | zero => exact ⟨_, h.tracks_start hrests hidle⟩
  | succ n ih =>
    obtain ⟨p, hp⟩ := ih (hun.mono (Nat.le_succ _))
    have hdone : p ≠ .done := by
      rintro rfl
      have hlow := hun (n + 1) (Nat.succ_pos n) (Nat.lt_succ_self _)
      rw [hp.at_.flags.2] at hlow
      cases hlow
    exact ⟨_, hp.step h hun hdone⟩

theorem Tracks.unfinished (ht : Tracks k inp j n p) (hun : Unfinished k inp n) (hp : p ≠ .done) :
    Unfinished k inp (n + 1) := by
  intro c h1 hc
  rcases Nat.lt_succ_iff_lt_or_eq.mp hc with hlt | rfl
  · exact hun c h1 hlt
  · rw [ht.at_.flags.2]
    exact decide_eq_false hp

/-- What the surroundings see of a run in a cycle up to its end. -/
structure Observed (k : Kernel) (inp : Nat → Inputs) (j : Streams) (n : Nat) : Prop where
  acts_le : actsAccepted k inp n ≤ 20 * j.q1Blocks
  weights_le : weightsAccepted k inp n ≤ 18 * j.q1Blocks * j.rowblocks
  emitted_le : emitted k inp n ≤ 4 * j.rowblocks
  beat : (cycle k inp n).mAxisTvalid = true →
    (cycle k inp n).mAxisTdata = j.resultBeat (emitted k inp n) ∧
      (cycle k inp n).mAxisTlast = decide (emitted k inp n + 1 = 4 * j.rowblocks)
  stalled : (cycle k inp n).mAxisTvalid = true → (inp n).mAxisTready = false →
    (cycle k inp (n + 1)).mAxisTvalid = true ∧
      (cycle k inp (n + 1)).mAxisTdata = (cycle k inp n).mAxisTdata ∧
      (cycle k inp (n + 1)).mAxisTlast = (cycle k inp n).mAxisTlast
  complete : 1 ≤ n → (cycle k inp n).kernelDone = true →
    actsAccepted k inp n = 20 * j.q1Blocks ∧
      weightsAccepted k inp n = 18 * j.q1Blocks * j.rowblocks ∧
      emitted k inp n = 4 * j.rowblocks

theorem Tracks.beat (ht : Tracks k inp j n p) (hv : (cycle k inp n).mAxisTvalid = true) :
    (∃ b e, p = .emit b e) ∧ (cycle k inp n).mAxisTdata = j.resultBeat (p.given j) ∧
      (cycle k inp n).mAxisTlast = decide (p.given j + 1 = 4 * j.rowblocks) := by
  rw [ht.at_.mAxisTvalid] at hv
  cases p with
  | emit b e =>
    exact ⟨⟨b, e, rfl⟩, AtEmit.mAxisTdata ht.at_ ht.valid.2,
      AtEmit.mAxisTlast ht.at_ ht.valid.1 ht.valid.2⟩
  | _ => cases hv

theorem Tracks.observed (ht : Tracks k inp j n p) (h : Run k inp j.toStreams)
    (hun : Unfinished k inp n) :
    Observed k inp j.toStreams n where
  acts_le := ht.acts ▸ Pos.actsTaken_le ht.valid
  weights_le := ht.weights ▸ Pos.weightsTaken_le ht.valid
  emitted_le := ht.emitted ▸ Pos.given_le ht.valid
  beat hv := ht.emitted ▸ (ht.beat hv).2
  stalled := by
    intro hv hready
    obtain ⟨⟨b, e, rfl⟩, hdata, hlast⟩ := ht.beat hv
    have hnext := ht.step h (ht.unfinished hun (by simp)) (by simp)
    have hstay : nextPos j (.emit b e) (inp n) = .emit b e := by
      rw [nextPos, Pos.next, hready]
      rfl
    rw [hstay] at hnext
    have hv' : (cycle k inp (n + 1)).mAxisTvalid = true := hnext.at_.mAxisTvalid
    obtain ⟨-, hdata', hlast'⟩ := hnext.beat hv'
    exact ⟨hv', hdata'.trans hdata.symm, hlast'.trans hlast.symm⟩
  complete := by
    intro _ hdone
    rw [ht.at_.flags.2] at hdone
    obtain rfl : p = .done := of_decide_eq_true hdone
    exact ⟨ht.acts, ht.weights, ht.emitted⟩

/-- The start cycle: nothing moves yet. -/
theorem observed_zero (hrests : k.Rests) (hidle : k.busyQ = false) :
    Observed k inp j.toStreams 0 := by
  have hcycle : cycle k inp 0 = k := rfl
  have hvalid : (cycle k inp 0).mAxisTvalid = false := by
    rw [hcycle, Kernel.mAxisTvalid, hrests hidle]
    rfl
  exact
    { acts_le := Nat.zero_le _, weights_le := Nat.zero_le _, emitted_le := Nat.zero_le _
      beat := fun hv => absurd hv (by simp [hvalid])
      stalled := fun hv => absurd hv (by simp [hvalid])
      complete := fun h1 => absurd h1 (by decide) }

/-- Every cycle of a run up to its end is as observed. -/
theorem Run.observed (h : Run k inp j.toStreams) (hrests : k.Rests) (hidle : k.busyQ = false)
    (hun : Unfinished k inp n) : Observed k inp j.toStreams n := by
  cases n with
  | zero => exact observed_zero hrests hidle
  | succ n =>
    obtain ⟨p, ht⟩ := h.tracks hrests hidle hun
    exact ht.observed h hun

/-- A run at position `p` that has not ended gets to the next position. -/
theorem Tracks.progress (ht : Tracks k inp j n p) (h : Run k inp j.toStreams)
    (hun : Unfinished k inp n) (hp : p ≠ .done) (hfair : Fair inp) :
    ∃ m, n < m ∧ Tracks k inp j m (p.next j true true true) ∧ Unfinished k inp m := by
  have hgo : ∀ m, Tracks k inp j m p ∧ Unfinished k inp m →
      p.blocked (inp m).sAxisActsTvalid (inp m).sAxisTvalid (inp m).mAxisTready = false →
      Tracks k inp j (m + 1) (p.next j true true true) ∧ Unfinished k inp (m + 1) := by
    rintro m ⟨htm, hum⟩ hgo
    have hun' := htm.unfinished hum hp
    have hnext := htm.step h hun' hp
    rw [nextPos, Pos.next_eq, hgo] at hnext
    exact ⟨hnext, hun'⟩
  have hstay : ∀ m, Tracks k inp j m p ∧ Unfinished k inp m →
      ¬p.blocked (inp m).sAxisActsTvalid (inp m).sAxisTvalid (inp m).mAxisTready = false →
      Tracks k inp j (m + 1) p ∧ Unfinished k inp (m + 1) := by
    rintro m ⟨htm, hum⟩ hblocked
    have hun' := htm.unfinished hum hp
    have hnext := htm.step h hun' hp
    rw [nextPos, Pos.next_eq, eq_true_of_ne_false hblocked] at hnext
    exact ⟨hnext, hun'⟩
  exact Machine.exists_of_fair hgo hstay
    (Pos.exists_not_blocked hfair.acts hfair.weights hfair.results p) ⟨ht, hun⟩

theorem Run.finishes (h : Run k inp j.toStreams) (hrests : k.Rests) (hidle : k.busyQ = false)
    (hfair : Fair inp) :
    ∃ n, 1 ≤ n ∧ Unfinished k inp n ∧ (cycle k inp n).kernelDone = true := by
  let P (n r : Nat) : Prop := 1 ≤ n ∧ Unfinished k inp n ∧ ∃ p, Tracks k inp j n p ∧ p.cycles j = r
  have hrise : ∀ n r, P n r → r ≠ Pos.runCycles j → ∃ m, n < m ∧ P m (r + 1) := by
    rintro n r ⟨h1, hun, p, ht, rfl⟩ hr
    have hp : p ≠ .done := by
      rintro rfl
      exact hr rfl
    obtain ⟨m, hlt, htm, hum⟩ := ht.progress h hun hp hfair
    exact ⟨m, hlt, by omega, hum, _, htm, Pos.cycles_next ht.valid hp⟩
  have hstart : P 1 0 :=
    ⟨Nat.le_refl 1, fun c h1 hc => absurd hc (by omega), .load 0, h.tracks_start hrests hidle, rfl⟩
  obtain ⟨n, -, h1, hun, p, ht, hr⟩ := Machine.exists_of_rises hrise hstart (Nat.zero_le _)
  refine ⟨n, h1, hun, ?_⟩
  rw [ht.at_.flags.2]
  by_contra hp
  have hlt := Pos.cycles_lt ht.valid (of_decide_eq_false (Bool.not_eq_true _ ▸ hp))
  omega

end

/-- A kernel run from any reachable idle state, for any contents of the streams and any
    stalls: up to `kernel_done` no beat too many is accepted, the beats given are the
    lane results in order and hold still under back pressure, and at `kernel_done` the
    counts are exact; with fair streams `kernel_done` comes. -/
theorem kernel_run (j : Job) (k : Kernel) (hk : Reachable k) (hidle : k.busyQ = false)
    (inp : Nat → Inputs) (h : Run k inp j.toStreams) :
    (∀ n, Unfinished k inp n → Observed k inp j.toStreams n) ∧
      (Fair inp → ∃ n, 1 ≤ n ∧ Unfinished k inp n ∧ (cycle k inp n).kernelDone = true) := by
  exact ⟨fun n hun => h.observed hk.rests hidle hun, h.finishes hk.rests hidle⟩

/-- One Q1 block and one rowblock, with every beat of both streams the same. -/
def smallJob : Job where
  q1Blocks := 1
  rowblocks := 1
  acts _ := 0x3C003C003C003C00#64
  weights _ := 0x3C003C003C003C00#64
  q1Pos := by decide
  q1Le := by decide
  rbPos := by decide
  rbLe := by decide

/-- Streams that stall: weights and results move in every other cycle, acts in every third. -/
def smallInputs (c : Nat) : Inputs where
  rstN := true
  startKernel := decide (c = 0)
  numQ1Blocks := 1#16
  numRowblocks := 1#16
  sAxisTdata := 0x3C003C003C003C00#64
  sAxisTvalid := decide (c % 2 = 0)
  sAxisActsTdata := 0x3C003C003C003C00#64
  sAxisActsTvalid := decide (c % 3 = 0)
  mAxisTready := decide (c % 2 = 1)

/-- The kernel after a reset. -/
def resetKernel : Kernel := (default : Kernel).step { smallInputs 0 with rstN := false }

theorem kernel_run_small :
    Reachable resetKernel ∧ resetKernel.busyQ = false ∧
      Run resetKernel smallInputs smallJob.toStreams ∧
      ∃ n, (cycle resetKernel smallInputs n).kernelDone = true ∧
      actsAccepted resetKernel smallInputs n = 20 ∧
        weightsAccepted resetKernel smallInputs n = 18 ∧ emitted resetKernel smallInputs n = 4 := by
  have hk : Reachable resetKernel := .init ⟨default, _, rfl, rfl⟩
  have hrun : Run resetKernel smallInputs smallJob.toStreams :=
    { start := rfl, numRowblocks := rfl, rstN := fun _ _ => rfl, numQ1Blocks := fun _ _ => rfl
      acts := fun _ _ _ => rfl, weights := fun _ _ _ => rfl }
  have hfair : Fair smallInputs :=
    { acts := fun n => ⟨3 * n, by omega, by simp [smallInputs]⟩
      weights := fun n => ⟨2 * n, by omega, by simp [smallInputs]⟩
      results := fun n => ⟨2 * n + 1, by omega, by simp [smallInputs, Nat.add_mod]⟩ }
  obtain ⟨hobserved, hfinish⟩ := kernel_run smallJob resetKernel hk rfl smallInputs hrun
  obtain ⟨n, h1, hun, hdone⟩ := hfinish hfair
  exact ⟨hk, rfl, hrun, n, hdone, (hobserved n hun).complete h1 hdone⟩

end Q1a8
