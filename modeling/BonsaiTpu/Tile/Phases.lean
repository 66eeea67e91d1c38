-- SUMMARY: The load and run phases of the tile, cycle by cycle, and the invariant of its reachable states.
import BonsaiTpu.Tile.Design

/-!
# Phases of a tile run

A run is described relative to the state `t₀` in which START was issued:
`Loading t₀ k` is the state after `k` weight shifts and `Running t₀ e` the state
after `e` compute cycles. In `Running t₀ e` the wavefront is the anti-diagonal
`r + c + 1 = e`: the elements on it hold the only valid partial sums, and
everything behind and ahead of it is zero. One lemma per clock edge leads from
each phase to the next; no command except CLEAR can interfere.
-/

namespace Tile

variable {g : Geometry}

/-! ## Widths -/

theorem Geometry.le_two_pow_stepW (g : Geometry) : g.rows + g.cols ≤ 2 ^ g.stepW :=
  Nat.le_pow_clog (by decide) _

theorem le_two_pow_selW (n : Nat) : n ≤ 2 ^ selW n := by
  unfold selW
  split
  · omega
  · exact Nat.le_pow_clog (by decide) n

/-- The step counter does not wrap below the last compute step. -/
theorem toNat_stepQ_succ {x : BitVec g.stepW} (h : x.toNat + 1 < g.rows + g.cols) :
    (x + 1#g.stepW).toNat = x.toNat + 1 := by
  have hpow := g.le_two_pow_stepW
  have hone : (1#g.stepW).toNat = 1 := by
    simp only [BitVec.toNat_ofNat]
    exact Nat.mod_eq_of_lt (by omega)
  rw [BitVec.toNat_add, hone]
  exact Nat.mod_eq_of_lt (by omega)

theorem toNat_computeLastStep (g : Geometry) :
    (BitVec.ofNat g.stepW g.computeLastStep).toNat = g.rows + g.cols - 1 := by
  have hpow := g.le_two_pow_stepW
  have := g.rowsPos
  simp only [BitVec.toNat_ofNat, Geometry.computeLastStep]
  exact Nat.mod_eq_of_lt (by omega)

/-- During the load phase the columns are walked from the last one down. -/
theorem WeightMem.toNat_readCol {x : BitVec g.stepW} (h : x.toNat < g.cols) :
    (readCol x).toNat = g.cols - 1 - x.toNat := by
  have hpow : g.cols ≤ 2 ^ g.colSelW := le_two_pow_selW g.cols
  have hx : (x.extractLsb' 0 g.colSelW).toNat = x.toNat := by
    simp only [BitVec.extractLsb'_toNat, Nat.shiftRight_zero]
    exact Nat.mod_eq_of_lt (by omega)
  have hc : (BitVec.ofNat g.colSelW (g.cols - 1)).toNat = g.cols - 1 := by
    simp only [BitVec.toNat_ofNat]
    exact Nat.mod_eq_of_lt (by omega)
  rw [readCol, BitVec.toNat_sub, hx, hc]
  have hsum : 2 ^ g.colSelW - x.toNat + (g.cols - 1) = (g.cols - 1 - x.toNat) + 2 ^ g.colSelW := by
    omega
  rw [hsum, Nat.add_mod_right]
  exact Nat.mod_eq_of_lt (by omega)

/-! ## Commands -/

theorem cmd_of_start {p : Pins} (h : p.cmd.start = true) :
    p.cmd.clear = false ∧ p.cmd.ldw = false ∧ p.cmd.lda = false ∧ p.cmd.seed = false := by
  simp only [Pins.cmd, cmdDecode, beq_iff_eq] at h ⊢
  rw [h]
  decide

/-! ## Phase descriptions -/

/-- The partial sum of row `r` after its first `k` elements: the accumulator and
    the contributions of columns `0 .. k-1`. -/
def partialPsum (t : Tile g) (r : Fin g.rows) : Nat → BitVec g.psumWidth
  | 0 => t.accmem.row r
  | k + 1 =>
    partialPsum t r k +
      if h : k < g.cols then W1a8.contribExt g.psumWidth (t.wmem r ⟨k, h⟩) (t.amem ⟨k, h⟩) else 0

/-- What a run leaves alone: the scratchpads and the error flag. -/
structure SameScratch (t₀ t : Tile g) : Prop where
  wmem : t.wmem = t₀.wmem
  amem : t.amem = t₀.amem
  errorLatched : t.errorLatched = t₀.errorLatched

structure Loading (t₀ : Tile g) (k : Nat) (t : Tile g) : Prop extends SameScratch t₀ t where
  lt : k < g.cols
  state : t.ctrl.stateQ = .load
  stepQ : t.ctrl.stepQ.toNat = k
  done : t.ctrl.doneLatchedQ = false
  weightDone : t.ctrl.weightDoneQ = false
  acc : ∀ r, t.accmem.row r = t₀.accmem.row r
  accDone : ∀ r, t.accmem.accDoneQ r = false
  quiet : t.array.Quiet
  /-- Column `d` has been shifted to element `c` once `c + cols = d + k`. -/
  weights : ∀ r (c d : Fin g.cols), c.val + g.cols = d.val + k → (t.array r c).weightQ = t₀.wmem r d

structure Running (t₀ : Tile g) (e : Nat) (t : Tile g) : Prop extends SameScratch t₀ t where
  le : e ≤ g.rows + g.cols
  state : t.ctrl.stateQ = .run
  stepQ : t.ctrl.stepQ.toNat = min e (g.rows + g.cols - 1)
  done : t.ctrl.doneLatchedQ = false
  weightDone : t.ctrl.weightDoneQ = true
  acc : ∀ r, t.accmem.row r =
    if r.val + g.cols + 1 ≤ e then t₀.partialPsum r g.cols else t₀.accmem.row r
  accDone : ∀ r, t.accmem.accDoneQ r = decide (r.val + g.cols + 1 ≤ e)
  weights : ∀ r c, (t.array r c).weightQ = t₀.wmem r c
  act : ∀ r c, (t.array r c).actOut = if e = r.val + c.val + 1 then t₀.amem c else 0
  psum : ∀ r c, (t.array r c).psumOut =
    if e = r.val + c.val + 1 then t₀.partialPsum r (c.val + 1) else 0
  valid : ∀ r c, (t.array r c).validOut = decide (e = r.val + c.val + 1)

structure Finished (t₀ t : Tile g) : Prop extends SameScratch t₀ t where
  state : t.ctrl.stateQ = .idle
  done : t.ctrl.doneLatchedQ = true
  weightDone : t.ctrl.weightDoneQ = true
  acc : ∀ r, t.accmem.row r = t₀.partialPsum r g.cols
  accDone : ∀ r, t.accmem.accDoneQ r = true
  quiet : t.array.Quiet

/-! ## One clock edge -/

section Step

variable {t₀ t : Tile g} {p : Pins} {k e : Nat}

/-- While the FSM is busy the host write ports are closed, so one clock edge
    without reset or CLEAR only advances the FSM, the array and the capture. -/
theorem step_of_busy (hidle : t.idle = false) (hrst : p.rstN = true)
    (hclear : p.cmd.clear = false) :
    t.step p =
      { t with
        ctrl := t.ctrl.step true false p.cmd.start t.accmem.allRowsDone
        accmem :=
          { accQ := t.accmem.accQ.setFields (W1a8.Array.validOut t.arrayIn t.array)
              (W1a8.Array.psumOut t.arrayIn t.array)
            accDoneQ := fun r =>
              if W1a8.Array.validOut t.arrayIn t.array r then true else t.accmem.accDoneQ r }
        array := W1a8.Array.step ⟨true, false, t.ctrl.loadPhase⟩ t.arrayIn t.array } := by
  simp [step, hidle, hrst, hclear, WeightMem.step, WeightMem.err, ActMem.step, ActMem.err,
    AccMem.step, AccMem.err, Ctrl.startPulse]

/-- START in a quiet idle state enters the load phase. -/
theorem Loading.start (hidle : t.ctrl.stateQ = .idle) (hquiet : t.array.Quiet)
    (hrst : p.rstN = true) (hstart : p.cmd.start = true) : Loading t 0 (t.step p) := by
  obtain ⟨hclear, hldw, hlda, hseed⟩ := cmd_of_start hstart
  have hrun : t.ctrl.runPhase = false := by simp [Ctrl.runPhase, hidle]
  have hin : ∀ r, t.arrayIn.validIn r = false := by
    intro r
    simp [arrayIn, AccMem.arrayValidIn, hrun]
  have hvalid : ∀ r, W1a8.Array.validOut t.arrayIn t.array r = false :=
    hquiet.validOut g.colsPos
  refine ⟨⟨?_, ?_, ?_⟩, g.colsPos, ?_, ?_, ?_, ?_, ?_, ?_, hquiet.step hin _, ?_⟩
  · simp [step, hrst, hldw, WeightMem.step]
  · simp [step, hrst, hclear, hlda, ActMem.step]
  · simp [step, hrst, hclear, hldw, hlda, hseed, WeightMem.err, ActMem.err, AccMem.err]
  · simp [step, hrst, hclear, hstart, Ctrl.step, hidle]
  · simp [step, hrst, hclear, hstart, Ctrl.step, hidle]
  · simp [step, hrst, hclear, hstart, Ctrl.step, hidle]
  · simp [step, hrst, hclear, hstart, Ctrl.step, hidle]
  · intro r
    simp [step, hrst, hclear, hseed, AccMem.step, AccMem.row, BitVec.field_setFields, hvalid]
  · intro r
    simp [step, hrst, hclear, hstart, AccMem.step, Ctrl.startPulse, Ctrl.idle, hidle]
  · intro r c d hcd
    omega

/-- A load cycle moves column `d` one element to the right. -/
theorem Loading.array_step (h : Loading t₀ k t) (r : Fin g.rows) (c d : Fin g.cols)
    (hcd : c.val + g.cols = d.val + (k + 1)) :
    W1a8.Array.step ⟨true, false, true⟩ t.arrayIn t.array r c = W1a8.Pe.drained (t₀.wmem r d) := by
  have hlt := h.lt
  rw [W1a8.Array.step_load]
  congr 1
  by_cases hc : c.val = 0
  · -- The first element takes the column on the bus.
    have hcol : (WeightMem.readCol t.ctrl.stepQ).toNat = d := by
      rw [WeightMem.toNat_readCol (by rw [h.stepQ]; exact hlt), h.stepQ]
      omega
    have hc0 : c.castSucc = 0 := Fin.ext hc
    have hd : (WeightMem.readCol t.ctrl.stepQ).toNat < g.cols := by rw [hcol]; exact d.isLt
    have hload : t.ctrl.loadPhase = true := by simp [Ctrl.loadPhase, h.state]
    rw [hc0, W1a8.Row.weightChain, Fin.cons_zero]
    simp only [arrayIn, WeightMem.weightColOut, hload, if_true, dif_pos hd, h.wmem]
    exact congrArg (t₀.wmem r) (Fin.ext hcol)
  · rw [W1a8.Row.weightChain, W1a8.chain_castSucc _ _ c (by omega)]
    exact h.weights r _ d (by simp only; omega)

/-- The registers outside the FSM and the array in a load cycle. -/
theorem Loading.frame (h : Loading t₀ k t) (hrst : p.rstN = true) (hclear : p.cmd.clear = false) :
    SameScratch t₀ (t.step p) ∧ (∀ r, (t.step p).accmem.row r = t₀.accmem.row r) ∧
      (∀ r, (t.step p).accmem.accDoneQ r = false) ∧
      (t.step p).array = W1a8.Array.step ⟨true, false, true⟩ t.arrayIn t.array ∧
      (t.step p).ctrl = t.ctrl.step true false p.cmd.start t.accmem.allRowsDone := by
  have hidle : t.idle = false := by simp [Ctrl.idle, h.state]
  have hload : t.ctrl.loadPhase = true := by simp [Ctrl.loadPhase, h.state]
  have hvalid : ∀ r, W1a8.Array.validOut t.arrayIn t.array r = false := h.quiet.validOut g.colsPos
  rw [step_of_busy hidle hrst hclear]
  refine ⟨⟨h.wmem, h.amem, h.errorLatched⟩, ?_, ?_, ?_, rfl⟩
  · intro r
    simpa [AccMem.row, BitVec.field_setFields, hvalid] using h.acc r
  · intro r
    simp [hvalid, h.accDone]
  · simp [hload]

theorem Loading.quiet_step (i : W1a8.ArrayIn g.rows g.cols Geometry.actWidth g.psumWidth)
    (a : W1a8.Array g.rows g.cols Geometry.actWidth g.psumWidth) :
    (W1a8.Array.step ⟨true, false, true⟩ i a).Quiet := by
  intro r c
  rw [W1a8.Array.step_load]
  rfl

theorem Loading.next (h : Loading t₀ k t) (hk : k + 1 < g.cols) (hrst : p.rstN = true)
    (hclear : p.cmd.clear = false) : Loading t₀ (k + 1) (t.step p) := by
  obtain ⟨hsame, hacc, hdone, harray, hctrl⟩ := h.frame hrst hclear
  have hstep : t.ctrl.stepQ.toNat ≠ g.cols - 1 := by rw [h.stepQ]; omega
  have hctrl' : (t.step p).ctrl = { t.ctrl with stepQ := t.ctrl.stepQ + 1 } := by
    rw [hctrl]
    simp [Ctrl.step, h.state, hstep]
  refine ⟨hsame, hk, ?_, ?_, ?_, ?_, hacc, hdone, ?_, ?_⟩
  · rw [hctrl']; exact h.state
  · rw [hctrl', ← h.stepQ]
    exact toNat_stepQ_succ (by rw [h.stepQ]; omega)
  · rw [hctrl']; exact h.done
  · rw [hctrl']; exact h.weightDone
  · rw [harray]; exact Loading.quiet_step _ _
  · intro r c d hcd
    rw [harray, h.array_step r c d hcd]
    rfl

/-- The last weight shift enters the run phase with all weights in place. -/
theorem Loading.enter (h : Loading t₀ k t) (hk : k + 1 = g.cols) (hrst : p.rstN = true)
    (hclear : p.cmd.clear = false) : Running t₀ 0 (t.step p) := by
  obtain ⟨hsame, hacc, hdone, harray, hctrl⟩ := h.frame hrst hclear
  have hstep : t.ctrl.stepQ.toNat = g.cols - 1 := by rw [h.stepQ]; omega
  have hctrl' : (t.step p).ctrl =
      { t.ctrl with stateQ := .run, stepQ := 0, weightDoneQ := true } := by
    rw [hctrl]
    simp [Ctrl.step, h.state, hstep]
  have hpe : ∀ r c, (t.step p).array r c = W1a8.Pe.drained (t₀.wmem r c) := by
    intro r c
    rw [harray]
    exact h.array_step r c c (by omega)
  refine ⟨hsame, by omega, ?_, ?_, ?_, ?_, ?_, ?_, ?_, ?_, ?_, ?_⟩
  · rw [hctrl']
  · rw [hctrl']; simp
  · rw [hctrl']; exact h.done
  · rw [hctrl']
  · intro r; simpa using hacc r
  · intro r; simpa using hdone r
  all_goals intro r c; simp [hpe, W1a8.Pe.drained]

/-! ### The wavefront

In compute cycle `e` the edges of the array are driven so that every chain
carries its value on the anti-diagonal `r + c = e` and zero elsewhere. -/

theorem Running.runPhase (h : Running t₀ e t) : t.ctrl.runPhase = true := by
  simp [Ctrl.runPhase, h.state]

theorem Running.validIn (h : Running t₀ e t) (r : Fin g.rows) :
    t.arrayIn.validIn r = decide (e = r.val) := by
  have hr := r.isLt
  have hc := g.colsPos
  simp only [arrayIn, AccMem.arrayValidIn, h.runPhase, h.stepQ, Bool.true_and]
  exact decide_eq_decide.mpr (by omega)

theorem Running.psumIn (h : Running t₀ e t) (r : Fin g.rows) :
    t.arrayIn.psumIn r = if e = r.val then t₀.accmem.row r else 0 := by
  have hr := r.isLt
  have hc := g.colsPos
  have hiff : min e (g.rows + g.cols - 1) = r.val ↔ e = r.val := by omega
  simp only [arrayIn, AccMem.arrayPsumIn, h.runPhase, h.stepQ, hiff, Bool.true_and,
    decide_eq_true_eq]
  by_cases her : e = r.val
  · have hnot : ¬ r.val + g.cols + 1 ≤ e := by omega
    rw [if_pos her, if_pos her, h.acc, if_neg hnot]
  · rw [if_neg her, if_neg her]

theorem Running.actIn (h : Running t₀ e t) (c : Fin g.cols) :
    t.arrayIn.actIn c = if e = c.val then t₀.amem c else 0 := by
  have hc := c.isLt
  have hr := g.rowsPos
  have hiff : min e (g.rows + g.cols - 1) = c.val ↔ e = c.val := by omega
  simp only [arrayIn, ActMem.arrayActIn, h.runPhase, h.stepQ, hiff, Bool.true_and,
    decide_eq_true_eq, h.amem]

theorem Running.validChain (h : Running t₀ e t) (r : Fin g.rows) (c : Fin (g.cols + 1)) :
    W1a8.Row.validChain (t.arrayIn.validIn r) (t.array r) c = decide (e = r.val + c.val) :=
  W1a8.chain_eq (fun k => decide (e = r.val + k)) (h.validIn r) (fun c => h.valid r c) c

theorem Running.psumChain (h : Running t₀ e t) (r : Fin g.rows) (c : Fin (g.cols + 1)) :
    W1a8.Row.psumChain (t.arrayIn.psumIn r) (t.array r) c =
      if e = r.val + c.val then t₀.partialPsum r c else 0 :=
  W1a8.chain_eq (fun k => if e = r.val + k then t₀.partialPsum r k else 0) (h.psumIn r)
    (fun c => h.psum r c) c

theorem Running.actChain (h : Running t₀ e t) (r : Fin (g.rows + 1)) (c : Fin g.cols) :
    W1a8.Array.actChain t.arrayIn.actIn t.array r c = if e = r.val + c.val then
      t₀.amem c else 0 := by
  have hchain := W1a8.chain_eq (x := t.arrayIn.actIn) (f := fun r c => (t.array r c).actOut)
    (fun k c => if e = k + c.val then t₀.amem c else 0)
    (by funext c; simpa using h.actIn c)
    (by
      intro r
      funext c
      have hrc : r.val + 1 + c.val = r.val + c.val + 1 := by omega
      rw [h.act r c, hrc]) r
  exact congrFun hchain c

/-- The array after one more compute cycle. -/
theorem Running.array_step (h : Running t₀ e t) (r : Fin g.rows) (c : Fin g.cols) :
    W1a8.Array.step ⟨true, false, false⟩ t.arrayIn t.array r c =
      { weightQ := t₀.wmem r c
        actOut := if e = r.val + c.val then t₀.amem c else 0
        psumOut := if e = r.val + c.val then t₀.partialPsum r (c.val + 1) else 0
        validOut := decide (e = r.val + c.val) } := by
  rw [W1a8.Array.step_compute, h.validChain, h.psumChain, h.actChain, h.weights]
  by_cases he : e = r.val + c.val
  · simp [he, partialPsum]
  · simp [he]

/-- The capture of row `r` in compute cycle `e`. -/
theorem Running.validOut (h : Running t₀ e t) (r : Fin g.rows) :
    W1a8.Array.validOut t.arrayIn t.array r = decide (e = r.val + g.cols) :=
  h.validChain r (Fin.last g.cols)

theorem Running.psumOut (h : Running t₀ e t) (r : Fin g.rows) :
    W1a8.Array.psumOut t.arrayIn t.array r =
      if e = r.val + g.cols then t₀.partialPsum r g.cols else 0 :=
  h.psumChain r (Fin.last g.cols)

theorem Running.allRowsDone (h : Running t₀ e t) :
    t.accmem.allRowsDone = decide (g.rows + g.cols ≤ e) := by
  have hr := g.rowsPos
  simp only [AccMem.allRowsDone, h.accDone, decide_eq_true_eq]
  apply decide_eq_decide.mpr
  constructor
  · intro hall
    have := hall ⟨g.rows - 1, by omega⟩
    simp only at this
    omega
  · intro hle r
    have := r.isLt
    omega

/-- The registers outside the FSM in a compute cycle: row `r` is captured when
    its wavefront has left the last element. -/
theorem Running.frame (h : Running t₀ e t) (hrst : p.rstN = true) (hclear : p.cmd.clear = false) :
    SameScratch t₀ (t.step p) ∧
      (∀ r, (t.step p).accmem.row r =
        if r.val + g.cols ≤ e then t₀.partialPsum r g.cols else t₀.accmem.row r) ∧
      (∀ r, (t.step p).accmem.accDoneQ r = decide (r.val + g.cols ≤ e)) ∧
      (t.step p).array = W1a8.Array.step ⟨true, false, false⟩ t.arrayIn t.array ∧
      (t.step p).ctrl = t.ctrl.step true false p.cmd.start t.accmem.allRowsDone := by
  have hidle : t.idle = false := by simp [Ctrl.idle, h.state]
  have hload : t.ctrl.loadPhase = false := by simp [Ctrl.loadPhase, h.state]
  rw [step_of_busy hidle hrst hclear]
  refine ⟨⟨h.wmem, h.amem, h.errorLatched⟩, ?_, ?_, ?_, rfl⟩
  · intro r
    have hacc := h.acc r
    simp only [AccMem.row] at hacc ⊢
    rw [BitVec.field_setFields, h.validOut, h.psumOut, hacc]
    by_cases he : e = r.val + g.cols
    · simp [he]
    · have hiff : r.val + g.cols + 1 ≤ e ↔ r.val + g.cols ≤ e := by omega
      simp [he, hiff]
  · intro r
    simp only [h.validOut, h.accDone]
    by_cases he : e = r.val + g.cols
    · simp [he]
    · have hiff : r.val + g.cols + 1 ≤ e ↔ r.val + g.cols ≤ e := by omega
      simp [he, hiff]
  · simp [hload]

theorem Running.next (h : Running t₀ e t) (he : e < g.rows + g.cols) (hrst : p.rstN = true)
    (hclear : p.cmd.clear = false) : Running t₀ (e + 1) (t.step p) := by
  obtain ⟨hsame, hacc, hdone, harray, hctrl⟩ := h.frame hrst hclear
  have hr := g.rowsPos
  have hstay : ¬ g.rows + g.cols ≤ e := by omega
  have hlast := toNat_computeLastStep g
  have hctrl' : (t.step p).ctrl =
      if t.ctrl.stepQ < BitVec.ofNat g.stepW g.computeLastStep then
        { t.ctrl with stepQ := t.ctrl.stepQ + 1 }
      else t.ctrl := by
    rw [hctrl]
    simp [Ctrl.step, h.state, h.allRowsDone, hstay]
  have hstate : ∀ {α : Type} (f : Ctrl g → α),
      f { t.ctrl with stepQ := t.ctrl.stepQ + 1 } = f t.ctrl →
      f (t.step p).ctrl = f t.ctrl := by
    intro α f hf
    rw [hctrl']
    split
    · exact hf
    · rfl
  refine ⟨hsame, he, ?_, ?_, ?_, ?_, ?_, ?_, ?_, ?_, ?_, ?_⟩
  · rw [hstate Ctrl.stateQ rfl]; exact h.state
  · rw [hctrl']
    by_cases hlt : e < g.rows + g.cols - 1
    · have hltq : t.ctrl.stepQ < BitVec.ofNat g.stepW g.computeLastStep := by
        rw [BitVec.lt_def, hlast, h.stepQ]; omega
      have hsucc := toNat_stepQ_succ (x := t.ctrl.stepQ) (by rw [h.stepQ]; omega)
      rw [if_pos hltq]
      refine hsucc.trans ?_
      rw [h.stepQ]
      omega
    · have hltq : ¬ t.ctrl.stepQ < BitVec.ofNat g.stepW g.computeLastStep := by
        rw [BitVec.lt_def, hlast, h.stepQ]; omega
      rw [if_neg hltq, h.stepQ]
      omega
  · rw [hstate Ctrl.doneLatchedQ rfl]; exact h.done
  · rw [hstate Ctrl.weightDoneQ rfl]; exact h.weightDone
  · intro r
    simpa using hacc r
  · intro r
    simpa using hdone r
  all_goals
    intro r c
    simp [harray, h.array_step r c]

/-- Once the last row has been captured the FSM returns to IDLE. -/
theorem Running.finish (h : Running t₀ e t) (he : e = g.rows + g.cols) (hrst : p.rstN = true)
    (hclear : p.cmd.clear = false) : Finished t₀ (t.step p) := by
  obtain ⟨hsame, hacc, hdone, harray, hctrl⟩ := h.frame hrst hclear
  have hlast := toNat_computeLastStep g
  have hle : BitVec.ofNat g.stepW g.computeLastStep ≤ t.ctrl.stepQ := by
    rw [BitVec.le_def, hlast, h.stepQ]; omega
  have hnlt : ¬ t.ctrl.stepQ < BitVec.ofNat g.stepW g.computeLastStep := by
    rw [BitVec.lt_def, hlast, h.stepQ]; omega
  have hctrl' : (t.step p).ctrl = { t.ctrl with stateQ := .idle, doneLatchedQ := true } := by
    rw [hctrl]
    simp [Ctrl.step, h.state, h.allRowsDone, he, hle, hnlt]
  have hrow : ∀ r : Fin g.rows, r.val + g.cols ≤ e := by
    intro r
    have := r.isLt
    omega
  refine ⟨hsame, ?_, ?_, ?_, ?_, ?_, ?_⟩
  · rw [hctrl']
  · rw [hctrl']
  · rw [hctrl']; exact h.weightDone
  · intro r; rw [hacc r, if_pos (hrow r)]
  · intro r; rw [hdone r]; exact decide_eq_true (hrow r)
  · intro r c
    have hrc : e ≠ r.val + c.val := by
      have := r.isLt
      have := c.isLt
      omega
    rw [harray, h.array_step r c]
    exact decide_eq_false hrc

/-- CLEAR returns to a quiet idle state from any state. -/
theorem step_clear (hrst : p.rstN = true) (hclear : p.cmd.clear = true) :
    (t.step p).ctrl.stateQ = .idle ∧ (t.step p).array.Quiet := by
  constructor
  · simp [step, hrst, hclear, Ctrl.step, Ctrl.reset]
  · intro r c
    simp only [step, hrst, hclear, W1a8.Array.step_clear]
    rfl

theorem step_idle (hidle : t.ctrl.stateQ = .idle) (hquiet : t.array.Quiet) (hrst : p.rstN = true)
    (hclear : p.cmd.clear = false) (hstart : p.cmd.start = false) :
    (t.step p).ctrl = t.ctrl ∧ (t.step p).array.Quiet := by
  have hrun : t.ctrl.runPhase = false := by simp [Ctrl.runPhase, hidle]
  have hin : ∀ r, t.arrayIn.validIn r = false := by
    intro r
    simp [arrayIn, AccMem.arrayValidIn, hrun]
  exact ⟨by simp [step, hrst, hclear, hstart, Ctrl.step, hidle], hquiet.step hin _⟩

end Step

/-! ## Reachable states -/

/-- Every reachable state is idle with a quiet array or inside a run. -/
inductive Phase : Tile g → Prop
  | idle {t : Tile g} : t.ctrl.stateQ = .idle → t.array.Quiet → Phase t
  | loading {t : Tile g} (t₀ : Tile g) (k : Nat) : Loading t₀ k t → Phase t
  | running {t : Tile g} (t₀ : Tile g) (e : Nat) : Running t₀ e t → Phase t

theorem Phase.step {t : Tile g} (h : Phase t) (p : Pins) : Phase (t.step p) := by
  by_cases hrst : p.rstN = true
  · by_cases hclear : p.cmd.clear = true
    · obtain ⟨hidle, hquiet⟩ := step_clear (t := t) hrst hclear
      exact .idle hidle hquiet
    · replace hclear : p.cmd.clear = false := by simpa using hclear
      cases h with
      | idle hidle hquiet =>
        by_cases hstart : p.cmd.start = true
        · exact .loading t 0 (Loading.start hidle hquiet hrst hstart)
        · obtain ⟨hctrl, hquiet'⟩ :=
            step_idle hidle hquiet hrst hclear (by simpa using hstart)
          exact .idle (by rw [hctrl]; exact hidle) hquiet'
      | loading t₀ k hload =>
        by_cases hk : k + 1 = g.cols
        · exact .running t₀ 0 (hload.enter hk hrst hclear)
        · have := hload.lt
          exact .loading t₀ (k + 1) (hload.next (by omega) hrst hclear)
      | running t₀ e hrun =>
        by_cases he : e = g.rows + g.cols
        · have hfin := hrun.finish he hrst hclear
          exact .idle hfin.state hfin.quiet
        · have := hrun.le
          exact .running t₀ (e + 1) (hrun.next (by omega) hrst hclear)
  · rw [step_reset t (by simpa using hrst)]
    exact .idle rfl fun _ _ => rfl

theorem Reachable.phase {t : Tile g} (h : Reachable t) : Phase t :=
  Machine.Reachable.invariant (fun _ hs => hs ▸ .idle rfl fun _ _ => rfl)
    (fun _ p hs => hs.step p) h

/-- The array of a reachable idle tile is quiet: nothing of an earlier run, and
    nothing that CLEAR cut short, is still in flight. -/
theorem Reachable.quiet {t : Tile g} (h : Reachable t) (hidle : t.ctrl.stateQ = .idle) :
    t.array.Quiet := by
  cases Reachable.phase h with
  | idle _ hquiet => exact hquiet
  | loading t₀ k hload => simp [hload.state] at hidle
  | running t₀ e hrun => simp [hrun.state] at hidle

end Tile
