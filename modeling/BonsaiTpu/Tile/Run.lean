-- SUMMARY: A complete tile run: latency, final accumulators and what a run leaves unchanged.
import BonsaiTpu.Tile.Phases
import Mathlib.Algebra.BigOperators.Fin
import Mathlib.Data.BitVec

/-!
# Tile runs

The phases of `Tile/Phases.lean` laid out on the clock: START is issued in cycle
`0`, the weights are shifted in cycles `1 .. cols`, the wavefront passes in the
following `rows + cols + 1` cycles, and the tile is idle again in cycle
`2 * cols + rows + 2`.
-/

namespace Tile

variable {g : Geometry}

/-- The busy cycles of a run. -/
def Geometry.runCycles (g : Geometry) : Nat := 2 * g.cols + g.rows + 1

/-- The pins of a run: START in cycle `0`, then any commands other than CLEAR
    while the tile is busy, with `rst_n` high throughout. -/
structure RunPins (g : Geometry) (inp : Nat → Pins) : Prop where
  start : (inp 0).cmd.start = true
  rstN : ∀ n ≤ g.runCycles, (inp n).rstN = true
  noClear : ∀ n, 1 ≤ n → n ≤ g.runCycles → (inp n).cmd.clear = false

/-- What a run computes: every accumulator has gained the signed sum of the
    activations, modulo the width of a partial sum, and the scratchpads and the
    error flag are those of the START cycle. -/
structure RunResult (t₀ t : Tile g) : Prop where
  idle : t.idle = true
  acc : ∀ r, t.accmem.row r = BitVec.ofInt g.psumWidth
    ((t₀.accmem.row r).toInt +
      ∑ c, if t₀.wmem r c then (t₀.amem c).toInt else -(t₀.amem c).toInt)
  doneLatched : t.ctrl.doneLatchedQ = true
  weightDoneLatched : t.ctrl.weightDoneQ = true
  allRowsDone : t.accmem.allRowsDone = true
  wmem : t.wmem = t₀.wmem
  amem : t.amem = t₀.amem
  errorLatched : t.errorLatched = t₀.errorLatched

/-! ## The partial sums as integers -/

private theorem partialPsum_eq (t : Tile g) (r : Fin g.rows) (k : Nat) :
    t.partialPsum r k = BitVec.ofInt g.psumWidth ((t.accmem.row r).toInt +
      ∑ j ∈ Finset.range k, if h : j < g.cols then
        (if t.wmem r ⟨j, h⟩ then (t.amem ⟨j, h⟩).toInt else -(t.amem ⟨j, h⟩).toInt) else 0) := by
  induction k with
  | zero => simp [partialPsum]
  | succ k ih =>
    rw [partialPsum, ih, Finset.sum_range_succ, ← add_assoc,
      BitVec.ofInt_add ((t.accmem.row r).toInt + _)]
    congr 1
    split
    · exact W1a8.contribExt_eq _ _ _
    · simp

theorem partialPsum_cols (t : Tile g) (r : Fin g.rows) :
    t.partialPsum r g.cols = BitVec.ofInt g.psumWidth ((t.accmem.row r).toInt +
      ∑ c, if t.wmem r c then (t.amem c).toInt else -(t.amem c).toInt) := by
  rw [partialPsum_eq, Finset.sum_range]
  congr 2
  apply Finset.sum_congr rfl
  intro c _
  rw [dif_pos c.isLt]

theorem Finished.result {t₀ t : Tile g} (h : Finished t₀ t) : RunResult t₀ t where
  idle := by simp [Ctrl.idle, h.state]
  acc r := (h.acc r).trans (partialPsum_cols t₀ r)
  doneLatched := h.done
  weightDoneLatched := h.weightDone
  allRowsDone := decide_eq_true h.accDone
  wmem := h.wmem
  amem := h.amem
  errorLatched := h.errorLatched

/-! ## The run on the clock -/

/-- The phase the tile is in, `n` cycles after START. -/
def PhaseAt (t₀ : Tile g) (n : Nat) (t : Tile g) : Prop :=
  if n = 0 then t = t₀
  else if n ≤ g.cols then Loading t₀ (n - 1) t
  else if n ≤ g.runCycles then Running t₀ (n - (g.cols + 1)) t
  else Finished t₀ t

/-- One clock edge leads from each cycle of the run to the next. -/
theorem PhaseAt.step {t₀ t : Tile g} {p : Pins} (hidle : t₀.ctrl.stateQ = .idle)
    (hquiet : t₀.array.Quiet) {n : Nat} (hn : n ≤ g.runCycles) (hrst : p.rstN = true)
    (hstart : n = 0 → p.cmd.start = true) (hclear : 1 ≤ n → p.cmd.clear = false)
    (h : PhaseAt t₀ n t) : PhaseAt t₀ (n + 1) (t.step p) := by
  have hc := g.colsPos
  by_cases hn0 : n = 0
  · have ht : t = t₀ := by simpa [PhaseAt, hn0] using h
    subst ht
    have hload := Loading.start hidle hquiet hrst (hstart hn0)
    have h1 : 0 + 1 ≤ g.cols := hc
    simpa [PhaseAt, hn0, h1] using hload
  · replace hclear := hclear (by omega)
    simp only [PhaseAt, hn0, if_false] at h
    simp only [PhaseAt, Nat.add_eq_zero_iff, one_ne_zero, and_false, if_false]
    have hrun : g.runCycles = 2 * g.cols + g.rows + 1 := rfl
    by_cases hload : n ≤ g.cols
    · rw [if_pos hload] at h
      by_cases hlast : n = g.cols
      · have hk : n - 1 + 1 = g.cols := by omega
        have hnext : ¬ n + 1 ≤ g.cols := by omega
        have hle : n + 1 ≤ g.runCycles := by omega
        have hzero : n + 1 - (g.cols + 1) = 0 := by omega
        rw [if_neg hnext, if_pos hle, hzero]
        exact h.enter hk hrst hclear
      · have hk : n - 1 + 1 < g.cols := by omega
        have hnext : n + 1 ≤ g.cols := by omega
        have hsub : n + 1 - 1 = n - 1 + 1 := by omega
        rw [if_pos hnext, hsub]
        exact h.next hk hrst hclear
    · rw [if_neg hload, if_pos hn] at h
      have hnext : ¬ n + 1 ≤ g.cols := by omega
      rw [if_neg hnext]
      by_cases hlast : n = g.runCycles
      · have he : n - (g.cols + 1) = g.rows + g.cols := by omega
        have hle : ¬ n + 1 ≤ g.runCycles := by omega
        rw [if_neg hle]
        exact h.finish he hrst hclear
      · have he : n - (g.cols + 1) < g.rows + g.cols := by omega
        have hle : n + 1 ≤ g.runCycles := by omega
        have hsub : n + 1 - (g.cols + 1) = n - (g.cols + 1) + 1 := by omega
        rw [if_pos hle, hsub]
        exact h.next he hrst hclear

theorem PhaseAt.trace {t : Tile g} {inp : Nat → Pins} (hidle : t.ctrl.stateQ = .idle)
    (hquiet : t.array.Quiet) (hp : RunPins g inp) {n : Nat} (hn : n ≤ g.runCycles + 1) :
    PhaseAt t n (Machine.trace Tile.step t inp n) := by
  apply Machine.trace_phase (P := PhaseAt t)
  · simp [PhaseAt]
  · intro k hk s hs
    have hk' : k ≤ g.runCycles := by omega
    refine PhaseAt.step hidle hquiet hk' (hp.rstN k hk') ?_ ?_ hs
    · rintro rfl
      exact hp.start
    · intro h1
      exact hp.noClear k h1 hk'

/-- The error flag does not move during a run. -/
theorem PhaseAt.errorLatched {t₀ t : Tile g} {n : Nat} (h : PhaseAt t₀ n t) :
    t.errorLatched = t₀.errorLatched := by
  unfold PhaseAt at h
  split at h
  · rw [h]
  · split at h
    · exact h.errorLatched
    · split at h
      · exact h.errorLatched
      · exact h.errorLatched

/-- During a run the FSM is busy and DONE is low. -/
theorem PhaseAt.busy {t₀ t : Tile g} {n : Nat} (h : PhaseAt t₀ n t) (h1 : 1 ≤ n)
    (hn : n ≤ g.runCycles) : t.busy = true ∧ t.ctrl.doneLatchedQ = false := by
  have hn0 : n ≠ 0 := by omega
  simp only [PhaseAt, hn0, if_false] at h
  by_cases hload : n ≤ g.cols
  · rw [if_pos hload] at h
    exact ⟨by simp [Ctrl.busy, Ctrl.idle, h.state], h.done⟩
  · rw [if_neg hload, if_pos hn] at h
    exact ⟨by simp [Ctrl.busy, Ctrl.idle, h.state], h.done⟩

theorem PhaseAt.finished {t₀ t : Tile g} (h : PhaseAt t₀ (g.runCycles + 1) t) : Finished t₀ t := by
  have hc : ¬ g.runCycles + 1 ≤ g.cols := by unfold Geometry.runCycles; omega
  have hr : ¬ g.runCycles + 1 ≤ g.runCycles := by omega
  simpa [PhaseAt, hc, hr] using h

/-- A tile run from any reachable idle state, whatever the host does meanwhile
    short of CLEAR: the tile is busy in cycles `1 .. 2 * cols + rows + 1`, and
    idle with the new accumulators in the cycle after. -/
theorem systolic_run_correct (t : Tile g) (ht : Reachable t) (hidle : t.idle = true)
    (inp : Nat → Pins) (hp : RunPins g inp) :
    (∀ n, 1 ≤ n → n ≤ 2 * g.cols + g.rows + 1 → (Machine.trace step t inp n).busy = true) ∧
      RunResult t (Machine.trace step t inp (2 * g.cols + g.rows + 2)) := by
  have hstate : t.ctrl.stateQ = .idle := by simpa [Ctrl.idle] using hidle
  have hquiet := Reachable.quiet ht hstate
  constructor
  · intro n h1 hn
    exact ((PhaseAt.trace hstate hquiet hp (Nat.le_succ_of_le hn)).busy h1 hn).1
  · exact (PhaseAt.trace hstate hquiet hp (Nat.le_refl _)).finished.result

/-- The geometry of the fabricated tile. -/
abbrev chip : Geometry where
  rows := 2
  cols := 2
  psumWidth := 16
  rowsPos := one_le_two_cols
  colsPos := one_le_two_cols
  colsLe := two_cols_le

/-- The chip with the weights `+1 -1` and `+1 +1`, the activations `5` and `-3`, and the
    accumulators `100` and `256`. -/
def loadedChip : Tile chip :=
  [⟨true, 0x02#8, 0x01#8⟩, ⟨true, 0x0a#8, 0x03#8⟩, ⟨true, 0x03#8, 0x05#8⟩, ⟨true, 0x0b#8, 0xfd#8⟩,
    ⟨true, 0x04#8, 0x64#8⟩, ⟨true, 0x1c#8, 0x01#8⟩].foldl step reset

/-- START, and a host that writes seeds while the tile is busy. -/
def busyPins (n : Nat) : Pins := if n = 0 then ⟨true, 0x05#8, 0⟩ else ⟨true, 0x04#8, 0xff#8⟩

theorem systolic_run_correct_chip :
    (∀ n, 1 ≤ n → n ≤ 7 → (Machine.trace step loadedChip busyPins n).busy = true) ∧
      RunResult loadedChip (Machine.trace step loadedChip busyPins 8) ∧
      (Machine.trace step loadedChip busyPins 8).accmem.row 0 = 108#16 ∧
      (Machine.trace step loadedChip busyPins 8).accmem.row 1 = 258#16 := by
  have hreset : Reachable (reset (g := chip)) := .init rfl
  have hloaded : Reachable loadedChip := (((((hreset.step _).step _).step _).step _).step _).step _
  have hpins : RunPins chip busyPins :=
    { start := rfl
      rstN := fun n _ => by cases n <;> rfl
      noClear := fun n h1 _ => by
        have hne : n ≠ 0 := by omega
        simp only [busyPins, hne, if_false]
        rfl }
  obtain ⟨hbusy, hresult⟩ := systolic_run_correct loadedChip hloaded (by decide) busyPins hpins
  refine ⟨hbusy, hresult, (hresult.acc 0).trans ?_, (hresult.acc 1).trans ?_⟩
  · rw [Fin.sum_univ_two]
    decide
  · rw [Fin.sum_univ_two]
    decide

end Tile
