-- SUMMARY: Runs of the kernel from outside: every result beat is given in some cycle, and streams that never stall make a run for every job.
import BonsaiTpu.Kernel.Run
import Mathlib.Data.Nat.Nth

/-!
# Feeding a run

The beats that a run is fed depend on how many it has accepted, so the surroundings are a
machine of their own, in step with the kernel: `feed` is both together, and its inputs are
a fair run of every job.
-/

namespace Q1a8

/-! ## Result beats -/

/-- Every beat that was given was given in some cycle. -/
theorem exists_emitted {k : Kernel} {inp : Nat → Inputs} {n e : Nat} (h : e < emitted k inp n) :
    ∃ m < n, (cycle k inp m).mAxisTvalid = true ∧ (inp m).mAxisTready = true ∧
      emitted k inp m = e := by
  induction n with
  | zero => exact absurd h (Nat.not_lt_zero _)
  | succ n ih =>
    rw [emitted, count_succ_bool] at h
    by_cases hlt : e < emitted k inp n
    · obtain ⟨m, hm, hbeat⟩ := ih hlt
      exact ⟨m, Nat.lt_succ_of_lt hm, hbeat⟩
    · rw [← emitted] at h
      split at h
      · next hgives =>
        rw [Bool.and_eq_true] at hgives
        exact ⟨n, Nat.lt_succ_self n, hgives.1, hgives.2, by omega⟩
      · omega

/-! ## What a run accepts -/

/-- The streams that the surroundings do feed a run of some counts. -/
noncomputable def acceptedJob (j : Job) (k : Kernel) (inp : Nat → Inputs) : Job :=
  { j with
    acts := fun beat =>
      (inp (Nat.nth (fun c => (cycle k inp c).actsBeatAccept (inp c) = true) beat)).sAxisActsTdata
    weights := fun beat =>
      (inp (Nat.nth (fun c => (cycle k inp c).weightsBeatAccept (inp c) = true) beat)).sAxisTdata }

/-- A run accepts no beat behind the last one of its counts, whatever it is fed. -/
theorem accepted_lt {j : Job} {k : Kernel} {inp : Nat → Inputs} {c : Nat} (hk : Reachable k)
    (hidle : k.busyQ = false)
    (hstart : (inp 0).startKernel = true)
    (hrst : ∀ c, Unfinished k inp (c + 1) → (inp c).rstN = true)
    (hrb : (inp 0).numRowblocks.toNat = j.rowblocks)
    (hq1 : ∀ c, Unfinished k inp (c + 1) → (inp c).numQ1Blocks.toNat = j.q1Blocks)
    (hun : Unfinished k inp (c + 1)) :
    ((cycle k inp c).actsBeatAccept (inp c) = true → actsAccepted k inp c < 20 * j.q1Blocks) ∧
      ((cycle k inp c).weightsBeatAccept (inp c) = true →
        weightsAccepted k inp c < 18 * j.q1Blocks * j.rowblocks) := by
  have hrun : Run k inp (acceptedJob j k inp).toStreams :=
    { start := hstart, rstN := hrst, numRowblocks := hrb, numQ1Blocks := hq1
      acts := fun c _ hc => congrArg (fun c => (inp c).sAxisActsTdata) (Nat.nth_count hc).symm
      weights := fun c _ hc => congrArg (fun c => (inp c).sAxisTdata) (Nat.nth_count hc).symm }
  have hobs := hrun.observed hk.rests hidle hun
  refine ⟨fun hc => ?_, fun hc => ?_⟩
  · have hle := hobs.acts_le
    rw [actsAccepted, count_succ_bool, if_pos hc] at hle
    exact hle
  · have hle := hobs.weights_le
    rw [weightsAccepted, count_succ_bool, if_pos hc] at hle
    exact hle

/-! ## Streams that never stall -/

/-- The kernel and the beats that it has accepted. -/
structure Feed where
  kernel : Kernel
  acts : Nat
  weights : Nat

/-- The inputs in a cycle: the next beat of each stream, and the start in cycle 0. -/
def Feed.inputs (j : Streams) (st : Feed) (c : Nat) : Inputs where
  rstN := true
  startKernel := decide (c = 0)
  numQ1Blocks := BitVec.ofNat 16 j.q1Blocks
  numRowblocks := BitVec.ofNat 16 j.rowblocks
  sAxisTdata := j.weights st.weights
  sAxisTvalid := true
  sAxisActsTdata := j.acts st.acts
  sAxisActsTvalid := true
  mAxisTready := true

def Feed.step (j : Streams) (st : Feed) (c : Nat) : Feed where
  kernel := st.kernel.step (st.inputs j c)
  acts := st.acts + if st.kernel.actsBeatAccept (st.inputs j c) then 1 else 0
  weights := st.weights + if st.kernel.weightsBeatAccept (st.inputs j c) then 1 else 0

/-- The run of both. -/
def feed (j : Streams) (k : Kernel) (c : Nat) : Feed := Machine.trace (Feed.step j) ⟨k, 0, 0⟩ id c

def feedInputs (j : Streams) (k : Kernel) (c : Nat) : Inputs := (feed j k c).inputs j c

theorem feed_eq (j : Streams) (k : Kernel) (c : Nat) :
    feed j k c = ⟨cycle k (feedInputs j k) c, actsAccepted k (feedInputs j k) c,
      weightsAccepted k (feedInputs j k) c⟩ := by
  induction c with
  | zero =>
    rw [actsAccepted, weightsAccepted, Nat.count_zero, Nat.count_zero]
    rfl
  | succ c ih =>
    have hstep : feed j k (c + 1) = (feed j k c).step j c := rfl
    have hinputs : (feed j k c).inputs j c = feedInputs j k c := rfl
    rw [hstep, Feed.step, hinputs, actsAccepted, weightsAccepted, count_succ_bool,
      count_succ_bool, ih]
    rfl

/-- Every job has a run on streams that never stall. -/
theorem run_feedInputs (j : Job) (k : Kernel) : Run k (feedInputs j.toStreams k) j.toStreams where
  start := rfl
  rstN _ _ := rfl
  acts c _ _ := by rw [feedInputs, Feed.inputs, feed_eq]
  weights c _ _ := by rw [feedInputs, Feed.inputs, feed_eq]
  numRowblocks := by
    have hle := j.rbLe
    rw [feedInputs, Feed.inputs, BitVec.toNat_ofNat, Nat.mod_eq_of_lt (by omega)]
  numQ1Blocks c _ := by
    have hle := j.q1Le
    rw [feedInputs, Feed.inputs, BitVec.toNat_ofNat, Nat.mod_eq_of_lt (by omega)]

theorem fair_feedInputs (j : Streams) (k : Kernel) : Fair (feedInputs j k) where
  acts n := ⟨n, Nat.le_refl n, rfl⟩
  weights n := ⟨n, Nat.le_refl n, rfl⟩
  results n := ⟨n, Nat.le_refl n, rfl⟩

end Q1a8
