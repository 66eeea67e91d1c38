-- SUMMARY: CLEAR erases the history of the tile: two runs with the same weight memory have the same outputs after it.
import BonsaiTpu.Tile.Run

/-!
# CLEAR

CLEAR resets everything but the weight memory and the weight bits in the elements.
Those bits can differ between two tiles, but they are shifted out before a valid
partial sum passes them: in the load phase the first `step_q` columns already hold
bits of the weight memory.
-/

namespace Tile

variable {g : Geometry}

/-- Two arrays that agree except for their weight bits. -/
def SamePipeline (a b : W1a8.Array g.rows g.cols Geometry.actWidth g.psumWidth) : Prop :=
  ∀ r c, (a r c).actOut = (b r c).actOut ∧ (a r c).psumOut = (b r c).psumOut ∧
    (a r c).validOut = (b r c).validOut

/-- Two arrays with the same weight bits in the first `n` columns. -/
def SameWeights (n : Nat) (a b : W1a8.Array g.rows g.cols Geometry.actWidth g.psumWidth) : Prop :=
  ∀ r (c : Fin g.cols), c.val < n → (a r c).weightQ = (b r c).weightQ

/-- Two tiles that differ at most in weight bits that no output depends on any more. -/
structure Agree (t u : Tile g) : Prop where
  ctrl : t.ctrl = u.ctrl
  wmem : t.wmem = u.wmem
  amem : t.amem = u.amem
  accmem : t.accmem = u.accmem
  errorLatched : t.errorLatched = u.errorLatched
  pipeline : SamePipeline t.array u.array
  loading : t.ctrl.stateQ = .load → SameWeights t.ctrl.stepQ.toNat t.array u.array
  running : t.ctrl.stateQ = .run → SameWeights g.cols t.array u.array

section

variable {t u : Tile g} {p : Pins}

/-- The outputs do not see the array. -/
theorem Agree.uoOut (h : Agree t u) (p : Pins) : t.uoOut p = u.uoOut p := by
  simp only [Tile.uoOut, Tile.statusByte, Tile.idle, Tile.busy, h.ctrl, h.accmem, h.errorLatched]

theorem Agree.arrayIn (h : Agree t u) : t.arrayIn = u.arrayIn := by
  simp only [Tile.arrayIn, h.ctrl, h.wmem, h.amem, h.accmem]

theorem Agree.validOut (h : Agree t u) :
    W1a8.Array.validOut t.arrayIn t.array = W1a8.Array.validOut u.arrayIn u.array := by
  funext r
  rw [W1a8.Array.validOut_eq g.colsPos, W1a8.Array.validOut_eq g.colsPos]
  exact (h.pipeline r _).2.2

theorem Agree.psumOut (h : Agree t u) :
    W1a8.Array.psumOut t.arrayIn t.array = W1a8.Array.psumOut u.arrayIn u.array := by
  funext r
  rw [W1a8.Array.psumOut_eq g.colsPos, W1a8.Array.psumOut_eq g.colsPos]
  exact (h.pipeline r _).2.1

/-- The chains between the elements carry the same values. -/
theorem Agree.chains (h : Agree t u) (r : Fin g.rows) :
    W1a8.Row.validChain (t.arrayIn.validIn r) (t.array r) =
      W1a8.Row.validChain (u.arrayIn.validIn r) (u.array r) ∧
      W1a8.Row.psumChain (t.arrayIn.psumIn r) (t.array r) =
        W1a8.Row.psumChain (u.arrayIn.psumIn r) (u.array r) ∧
      W1a8.Array.actChain t.arrayIn.actIn t.array =
        W1a8.Array.actChain u.arrayIn.actIn u.array := by
  have hvalid : (fun c => (t.array r c).validOut) = fun c => (u.array r c).validOut :=
    funext fun c => (h.pipeline r c).2.2
  have hpsum : (fun c => (t.array r c).psumOut) = fun c => (u.array r c).psumOut :=
    funext fun c => (h.pipeline r c).2.1
  have hact : (fun r c => (t.array r c).actOut) = fun r c => (u.array r c).actOut :=
    funext fun r => funext fun c => (h.pipeline r c).1
  refine ⟨?_, ?_, ?_⟩
  · rw [W1a8.Row.validChain, W1a8.Row.validChain, h.arrayIn, hvalid]
  · rw [W1a8.Row.psumChain, W1a8.Row.psumChain, h.arrayIn, hpsum]
  · rw [W1a8.Array.actChain, W1a8.Array.actChain, h.arrayIn, hact]

/-! ## One clock edge -/

/-- CLEAR makes any two tiles with the same weight memory agree. -/
theorem Agree.clear (hwmem : t.wmem = u.wmem) (hrst : p.rstN = true) (hclear : p.cmd.clear = true) :
    Agree (t.step p) (u.step p) := by
  have hldw : p.cmd.ldw = false := by
    simp only [Pins.cmd, cmdDecode, beq_iff_eq] at hclear ⊢
    rw [hclear]
    decide
  have hctrl : ∀ t : Tile g, (t.step p).ctrl = Ctrl.reset := by
    intro t
    simp [step, hrst, hclear, Ctrl.step]
  refine ⟨?_, ?_, ?_, ?_, ?_, ?_, ?_, ?_⟩
  · rw [hctrl, hctrl]
  · simp [step, hrst, hldw, WeightMem.step, hwmem]
  · simp [step, hclear, ActMem.step]
  · simp [step, hclear, AccMem.step]
  · simp [step, hclear]
  · intro r c
    simp only [step, hrst, hclear, W1a8.Array.step_clear]
    exact ⟨rfl, rfl, rfl⟩
  · rw [hctrl]
    exact fun hload => absurd hload (by simp [Ctrl.reset])
  · rw [hctrl]
    exact fun hrun => absurd hrun (by simp [Ctrl.reset])

/-- The registers outside the array do not see its weight bits. -/
theorem Agree.frame (h : Agree t u) (p : Pins) :
    (t.step p).ctrl = (u.step p).ctrl ∧ (t.step p).wmem = (u.step p).wmem ∧
      (t.step p).amem = (u.step p).amem ∧
      (t.step p).accmem = (u.step p).accmem ∧
      (t.step p).errorLatched = (u.step p).errorLatched := by
  refine ⟨?_, ?_, ?_, ?_, ?_⟩
  · simp only [step, h.ctrl, h.accmem]
  · simp only [step, Tile.idle, h.ctrl, h.wmem]
  · simp only [step, Tile.idle, h.ctrl, h.amem]
  · simp only [step, Tile.idle, h.ctrl, h.accmem, h.validOut, h.psumOut]
  · simp only [step, Tile.idle, h.ctrl, h.errorLatched]

theorem step_array (hrst : p.rstN = true) (hclear : p.cmd.clear = false) :
    (t.step p).array = W1a8.Array.step ⟨true, false, t.ctrl.loadPhase⟩ t.arrayIn t.array := by
  simp only [step, hrst, hclear]

/-- A compute cycle keeps the pipelines equal when every valid partial sum passes equal
    weight bits. -/
theorem Agree.compute (h : Agree t u) (hrst : p.rstN = true) (hclear : p.cmd.clear = false)
    (hload : t.ctrl.loadPhase = false)
    (hweights : ∀ r (c : Fin g.cols),
      W1a8.Row.validChain (t.arrayIn.validIn r) (t.array r) c.castSucc = true →
      (t.array r c).weightQ = (u.array r c).weightQ) :
    SamePipeline (t.step p).array (u.step p).array := by
  have hload' : u.ctrl.loadPhase = false := h.ctrl ▸ hload
  intro r c
  obtain ⟨hvalid, hpsum, hact⟩ := h.chains r
  rw [step_array hrst hclear, step_array hrst hclear, hload, hload', W1a8.Array.step_compute,
    W1a8.Array.step_compute, ← hvalid, ← hpsum, ← hact]
  refine ⟨rfl, ?_, rfl⟩
  show (if _ then _ else _) = (if _ then _ else _)
  split
  · next hv => rw [hweights r c hv]
  · rfl

/-- A cycle of the load phase extends the columns with equal weight bits by one. -/
theorem Agree.load (h : Agree t u) (hrst : p.rstN = true) (hclear : p.cmd.clear = false)
    (hload : t.ctrl.stateQ = .load) :
    SamePipeline (t.step p).array (u.step p).array ∧
      SameWeights (t.ctrl.stepQ.toNat + 1) (t.step p).array (u.step p).array := by
  have hphase : t.ctrl.loadPhase = true := by simp [Ctrl.loadPhase, hload]
  have hphase' : u.ctrl.loadPhase = true := h.ctrl ▸ hphase
  rw [step_array hrst hclear, step_array hrst hclear, hphase, hphase']
  refine ⟨fun r c => ?_, fun r c hc => ?_⟩
  · rw [W1a8.Array.step_load, W1a8.Array.step_load]
    exact ⟨rfl, rfl, rfl⟩
  · rw [W1a8.Array.step_load, W1a8.Array.step_load]
    simp only [W1a8.Pe.drained]
    rw [W1a8.Row.weightChain, W1a8.Row.weightChain, h.arrayIn]
    by_cases hfirst : c.val = 0
    · have hc0 : c.castSucc = 0 := Fin.ext hfirst
      rw [hc0, Fin.cons_zero, Fin.cons_zero]
    · rw [W1a8.chain_castSucc _ _ c (by omega), W1a8.chain_castSucc _ _ c (by omega)]
      exact h.loading hload r _ (show c.val - 1 < _ by omega)

/-- A compute cycle keeps the weight bits. -/
theorem step_weightQ (hrst : p.rstN = true) (hclear : p.cmd.clear = false)
    (hload : t.ctrl.loadPhase = false)
    (r : Fin g.rows) (c : Fin g.cols) : ((t.step p).array r c).weightQ = (t.array r c).weightQ := by
  rw [step_array hrst hclear, hload, W1a8.Array.step_compute]

/-- One clock edge with the same command keeps two tiles in agreement. -/
theorem Agree.step (h : Agree t u) (hphase : Phase t) (hrst : p.rstN = true) :
    Agree (t.step p) (u.step p) := by
  by_cases hclear : p.cmd.clear = true
  · exact .clear h.wmem hrst hclear
  replace hclear : p.cmd.clear = false := by simpa using hclear
  obtain ⟨hctrl, hwmem, hamem, haccmem, herror⟩ := h.frame p
  -- idle: no column is valid, so the weights do not matter; loading: one more column agrees
  cases hphase with
  | idle hidle hquiet =>
    have hload : t.ctrl.loadPhase = false := by simp [Ctrl.loadPhase, hidle]
    have hvalid : ∀ r (c : Fin g.cols),
        W1a8.Row.validChain (t.arrayIn.validIn r) (t.array r) c.castSucc = false := by
      intro r c
      have hin : t.arrayIn.validIn r = false := by
        simp [Tile.arrayIn, AccMem.arrayValidIn, Ctrl.runPhase, hidle]
      exact W1a8.chain_eq (fun _ => false) hin (fun c => hquiet r c) c.castSucc
    refine ⟨hctrl, hwmem, hamem, haccmem, herror, ?_, ?_, ?_⟩
    · exact h.compute hrst hclear hload fun r c hv => absurd hv (by simp [hvalid r c])
    · -- START enters the load phase with no column shifted yet
      intro hnext
      by_cases hstart : p.cmd.start = true
      · rw [(Loading.start hidle hquiet hrst hstart).stepQ]
        exact fun r c hc => absurd hc (Nat.not_lt_zero _)
      · rw [(step_idle hidle hquiet hrst hclear (by simpa using hstart)).1, hidle] at hnext
        cases hnext
    · intro hnext
      by_cases hstart : p.cmd.start = true
      · rw [(Loading.start hidle hquiet hrst hstart).state] at hnext
        cases hnext
      · rw [(step_idle hidle hquiet hrst hclear (by simpa using hstart)).1, hidle] at hnext
        cases hnext
  | loading t₀ k hl =>
    obtain ⟨hpipeline, hweights⟩ := h.load hrst hclear hl.state
    rw [hl.stepQ] at hweights
    refine ⟨hctrl, hwmem, hamem, haccmem, herror, hpipeline, fun hnext => ?_, fun hnext => ?_⟩
    · by_cases hk : k + 1 = g.cols
      · rw [(hl.enter hk hrst hclear).state] at hnext
        cases hnext
      · have hlt := hl.lt
        rw [(hl.next (by omega) hrst hclear).stepQ]
        exact hweights
    · by_cases hk : k + 1 = g.cols
      · rw [← hk]
        exact hweights
      · have hlt := hl.lt
        rw [(hl.next (by omega) hrst hclear).state] at hnext
        cases hnext
  | running t₀ e hr =>
    have hload : t.ctrl.loadPhase = false := by simp [Ctrl.loadPhase, hr.state]
    have hload' : u.ctrl.loadPhase = false := h.ctrl ▸ hload
    have hweights := h.running hr.state
    refine ⟨hctrl, hwmem, hamem, haccmem, herror, ?_, fun hnext => ?_, fun _ r c hc => ?_⟩
    · exact h.compute hrst hclear hload fun r c _ => hweights r c c.isLt
    · by_cases he : e = g.rows + g.cols
      · rw [(hr.finish he hrst hclear).state] at hnext
        cases hnext
      · have hle := hr.le
        rw [(hr.next (by omega) hrst hclear).state] at hnext
        cases hnext
    · rw [step_weightQ hrst hclear hload, step_weightQ hrst hclear hload']
      exact hweights r c hc

end

/-! ## Runs -/

section

variable {t u : Tile g} {inp : Nat → Pins}

/-- After CLEAR both runs are in agreement in every cycle. -/
theorem trace_agree (hwmem : t.wmem = u.wmem) (hclear : (inp 0).cmd.clear = true)
    (hrst : ∀ n, (inp n).rstN = true)
    (n : Nat) : Agree (Machine.trace step t inp (n + 1)) (Machine.trace step u inp (n + 1)) ∧
      Phase (Machine.trace step t inp (n + 1)) := by
  induction n with
  | zero =>
    obtain ⟨hidle, hquiet⟩ := step_clear (t := t) (hrst 0) hclear
    exact ⟨.clear hwmem (hrst 0) hclear, .idle hidle hquiet⟩
  | succ n ih => exact ⟨ih.1.step ih.2 (hrst (n + 1)), ih.2.step (inp (n + 1))⟩

end

/-- CLEAR erases the history: whatever two tiles with the same weight memory were doing when
    CLEAR arrives in cycle `0`, under the same commands their outputs are the same in every
    later cycle. -/
theorem clear_erases_history (g : Geometry) (t u : Tile g) (hwmem : t.wmem = u.wmem)
    (inp : Nat → Pins)
    (hclear : (inp 0).cmd.clear = true) (hrst : ∀ n, (inp n).rstN = true) (n : Nat) (hn : 1 ≤ n) :
    (Machine.trace step t inp n).uoOut (inp n) = (Machine.trace step u inp n).uoOut (inp n) := by
  obtain ⟨m, rfl⟩ : ∃ m, n = m + 1 := ⟨n - 1, by omega⟩
  exact (trace_agree hwmem hclear hrst m).1.uoOut (inp (m + 1))

/-- The chip one cycle into the load phase, with an activation set. -/
def loadingChip : Tile chip :=
  ((reset.step ⟨true, 3#8, 7#8⟩).step ⟨true, 5#8, 0⟩).step ⟨true, 0#8, 0⟩

/-- CLEAR, then LDW and START again and again. -/
def clearPins (n : Nat) : Pins := if n = 0 then ⟨true, 1#8, 0⟩
    else if n % 9 = 1 then ⟨true, 2#8, 3#8⟩ else ⟨true, 5#8, 0⟩

theorem clear_erases_history_chip :
    Reachable loadingChip ∧ loadingChip.busy = true ∧ loadingChip.wmem = (reset (g := chip)).wmem ∧
      ∀ n, 1 ≤ n → (Machine.trace step loadingChip clearPins n).uoOut (clearPins n) =
        (Machine.trace step (reset (g := chip)) clearPins n).uoOut (clearPins n) := by
  have hreset : Reachable (reset (g := chip)) := .init rfl
  have hreach : Reachable loadingChip := ((hreset.step _).step _).step _
  have hwmem : loadingChip.wmem = (reset (g := chip)).wmem := rfl
  have hrst : ∀ n, (clearPins n).rstN = true := by
    intro n
    unfold clearPins
    split
    · rfl
    · split <;> rfl
  exact ⟨hreach, by decide, hwmem, fun n hn =>
    clear_erases_history chip loadingChip reset hwmem clearPins rfl hrst n hn⟩

end Tile
