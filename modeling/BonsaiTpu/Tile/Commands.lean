-- SUMMARY: What each command does to an idle tile, in terms of the scratchpads and accumulators only.
import BonsaiTpu.Tile.Run

/-!
# Commands on an idle tile

Between runs the host sees a tile as its two scratchpads and its accumulators.
`View` is that picture, `View.exec` and `View.fire` what the commands do to it,
and `Ready t v` says that the registers `t` are idle and show `v`. The drivers of
the chip are verified against `View` alone.
-/

namespace Tile

variable {g : Geometry}

/-- What the host sees of an idle tile. -/
@[ext] structure View (g : Geometry) where
  wmem : WeightMem g
  amem : ActMem g
  acc : Fin g.rows → BitVec g.psumWidth

/-- Every selector value denotes a row, a column or a byte of the tile, so no
    command can be out of bounds. -/
structure Geometry.Exact (g : Geometry) : Prop where
  rows : ∀ x : BitVec g.rowSelW, x.toNat < g.rows
  cols : ∀ x : BitVec g.colSelW, x.toNat < g.cols
  bytes : ∀ x : BitVec g.byteSelW, x.toNat * 8 + 8 ≤ g.psumWidth

/-- The tile is idle, nothing is in flight in its array, and it shows `v`. -/
structure Ready (t : Tile g) (v : View g) : Prop where
  state : t.ctrl.stateQ = .idle
  quiet : t.array.Quiet
  wmem : t.wmem = v.wmem
  amem : t.amem = v.amem
  acc : ∀ r, t.accmem.row r = v.acc r
  noError : t.errorLatched = false

/-- The effect of a command other than START. -/
def View.exec (v : View g) (cmd : Cmd) (data : BitVec 8) : View g :=
  if cmd.clear then { v with amem := fun _ => 0, acc := fun _ => 0 }
  else
    { wmem := fun r c =>
        if cmd.ldw ∧ (WeightMem.wrow g cmd.arg).toNat = r then data.getLsbD c else v.wmem r c
      amem := fun c => if cmd.lda ∧ (ActMem.wcol g cmd.arg).toNat = c then data else v.amem c
      acc := fun r =>
        if cmd.seed ∧ (AccMem.argRow g cmd.arg).toNat = r then
          (v.acc r).setPart ((AccMem.argByte g cmd.arg).toNat * 8) data
        else v.acc r }

/-- The effect of a run. -/
def View.fire (v : View g) : View g :=
  { v with
    acc := fun r => BitVec.ofInt g.psumWidth
      ((v.acc r).toInt + ∑ c, if v.wmem r c then (v.amem c).toInt else -(v.amem c).toInt) }

/-! ## Out-of-bounds selectors -/

namespace Geometry.Exact

variable (hx : g.Exact)
include hx

theorem weightErr (we : Bool) (arg : BitVec 5) : WeightMem.err g we arg = false := by
  have := hx.rows (WeightMem.wrow g arg)
  simp [WeightMem.err, WeightMem.rowOob, this]

theorem actErr (we : Bool) (arg : BitVec 5) : ActMem.err g we arg = false := by
  have := hx.cols (ActMem.wcol g arg)
  simp [ActMem.err, ActMem.colOob, this]

theorem accRowOob (arg : BitVec 5) : AccMem.rowOob g arg = false := by
  have := hx.rows (AccMem.argRow g arg)
  simp [AccMem.rowOob, this]

theorem accErr (we : Bool) (arg : BitVec 5) : AccMem.err g we arg = false := by
  simp [AccMem.err, hx.accRowOob]

/-- The error flag is never raised. -/
theorem errorLatched {t : Tile g} (h : Reachable t) : t.errorLatched = false := by
  refine @Machine.Reachable.invariant _ _ _ _ (fun t => t.errorLatched = false) ?_ ?_ _ h
  · rintro _ rfl
    rfl
  · intro t p ht
    simp [step, hx.weightErr, hx.actErr, hx.accErr, ht]

end Geometry.Exact

/-! ## Single commands -/

section Exec

variable {t : Tile g} {v : View g} {p : Pins}

theorem Ready.of_reachable (hx : g.Exact) (h : Reachable t) (hidle : t.idle = true) :
    Ready t ⟨t.wmem, t.amem, t.accmem.row⟩ := by
  have hstate : t.ctrl.stateQ = .idle := by simpa [Ctrl.idle] using hidle
  exact ⟨hstate, Reachable.quiet h hstate, rfl, rfl, fun _ => rfl, hx.errorLatched h⟩

theorem Ready.idle (h : Ready t v) : t.idle = true := by
  simp [Ctrl.idle, h.state]

theorem Ready.busy (h : Ready t v) : t.busy = false := by
  simp [Ctrl.busy, Ctrl.idle, h.state]

/-- The rows after a command, before the array is taken into account. -/
theorem Ready.row_step (hx : g.Exact) (h : Ready t v) (hrst : p.rstN = true) (r : Fin g.rows) :
    (t.step p).accmem.row r = (v.exec p.cmd p.uioIn).acc r := by
  have hvalid : ∀ r, W1a8.Array.validOut t.arrayIn t.array r = false := h.quiet.validOut g.colsPos
  have hrow := h.acc r
  simp only [AccMem.row] at hrow
  by_cases hclear : p.cmd.clear = true
  · simp [step, AccMem.step, AccMem.reset, AccMem.row, hrst, hclear, View.exec, BitVec.field]
  · by_cases hseed : p.cmd.seed = true
    · have hr := hx.rows (AccMem.argRow g p.cmd.arg)
      have hb := hx.bytes (AccMem.argByte g p.cmd.arg)
      simp only [step, AccMem.step, hrst, hclear, hseed, h.idle, hx.accRowOob, AccMem.row,
        AccMem.byteBase, View.exec, Bool.not_true, Bool.false_or, Bool.not_false, Bool.and_true,
        if_true, if_false, Bool.false_eq_true, true_and]
      rw [BitVec.field_setPart_within _ _ _ hr hb, BitVec.field_setFields, hvalid, hrow]
      by_cases hq : r.val = (AccMem.argRow g p.cmd.arg).toNat
      · simp [hq]
      · simp [hq, Ne.symm hq]
    · simp [step, AccMem.step, AccMem.row, hrst, hclear, hseed, View.exec, BitVec.field_setFields,
        hvalid, hrow]

/-- A command other than START keeps the tile idle and does what `View.exec` says. -/
theorem Ready.exec (hx : g.Exact) (h : Ready t v) (hrst : p.rstN = true)
    (hstart : p.cmd.start = false) : Ready (t.step p) (v.exec p.cmd p.uioIn) := by
  by_cases hclear : p.cmd.clear = true
  · obtain ⟨hidle, hquiet⟩ := step_clear (t := t) hrst hclear
    refine ⟨hidle, hquiet, ?_, ?_, h.row_step hx hrst, ?_⟩
    · have hldw : p.cmd.ldw = false := by
        simp only [Pins.cmd, cmdDecode, beq_iff_eq] at hclear ⊢
        rw [hclear]
        decide
      simp [step, WeightMem.step, hrst, hldw, hclear, View.exec, h.wmem]
    · simp [step, ActMem.step, hrst, hclear, View.exec]
    · simp [step, hrst, hclear]
  · replace hclear : p.cmd.clear = false := by simpa using hclear
    obtain ⟨hctrl, hquiet⟩ := step_idle h.state h.quiet hrst hclear hstart
    refine ⟨by rw [hctrl]; exact h.state, hquiet, ?_, ?_, h.row_step hx hrst, ?_⟩
    · have hoob : WeightMem.rowOob g p.cmd.arg = false := by
        simpa [WeightMem.err] using hx.weightErr true p.cmd.arg
      funext r c
      by_cases hldw : p.cmd.ldw = true
      · simp [step, WeightMem.step, hrst, hldw, h.idle, hoob, hclear, View.exec, h.wmem]
      · simp [step, WeightMem.step, hrst, hldw, hclear, View.exec, h.wmem]
    · have hoob : ActMem.colOob g p.cmd.arg = false := by
        simpa [ActMem.err] using hx.actErr true p.cmd.arg
      funext c
      by_cases hlda : p.cmd.lda = true
      · simp [step, ActMem.step, hrst, hlda, h.idle, hoob, hclear, View.exec, h.amem]
      · simp [step, ActMem.step, hrst, hlda, hclear, View.exec, h.amem]
    · simp [step, hx.weightErr, hx.actErr, hx.accErr, h.noError]

/-- RDP shows the selected byte of the selected accumulator. -/
theorem Ready.uoOut_rdp (hx : g.Exact) (h : Ready t v) (hrdp : p.cmd.rdp = true) (r : Fin g.rows)
    (hr : (AccMem.argRow g p.cmd.arg).toNat = r) :
    t.uoOut p = (v.acc r).extractLsb' ((AccMem.argByte g p.cmd.arg).toNat * 8) 8 := by
  have hb := hx.bytes (AccMem.argByte g p.cmd.arg)
  rw [uoOut, if_pos hrdp, AccMem.resultByte, hx.accRowOob, ← h.acc r, AccMem.row,
    BitVec.extractLsb'_field _ _ _ _ hb, AccMem.byteBase, hr]
  rfl

end Exec

/-! ## Sequences of commands -/

section Sequences

variable {t : Tile g} {v : View g}

/-- The pins of one driven cycle; `rst_n` is high. -/
def Pins.ofPair (p : BitVec 8 × BitVec 8) : Pins := ⟨true, p.1, p.2⟩

def View.execPair (v : View g) (p : BitVec 8 × BitVec 8) : View g := v.exec (cmdDecode p.1) p.2

theorem Ready.execPairs (hx : g.Exact) (h : Ready t v) (ps : List (BitVec 8 × BitVec 8))
    (hstart : ∀ p ∈ ps, (cmdDecode p.1).start = false) :
    Ready ((ps.map Pins.ofPair).foldl step t) (ps.foldl View.execPair v) := by
  induction ps generalizing t v with
  | nil => exact h
  | cons p ps ih =>
    obtain ⟨hp, hps⟩ := List.forall_mem_cons.mp hstart
    exact ih (h.exec hx (p := Pins.ofPair p) rfl hp) hps

/-- A run from a ready tile, on the clock. -/
theorem Ready.phaseAt (h : Ready t v) (p : Pins) (ps : List Pins) (hp : p.rstN = true)
    (hstart : p.cmd.start = true) (hps : ∀ q ∈ ps, q.rstN = true ∧ q.cmd.clear = false)
    (hlen : ps.length ≤ g.runCycles) : PhaseAt t (ps.length + 1) ((p :: ps).foldl step t) := by
  induction ps using List.reverseRecOn with
  | nil =>
    have h0 : PhaseAt t 0 t := by simp [PhaseAt]
    exact PhaseAt.step (n := 0) h.state h.quiet (Nat.zero_le _) hp (fun _ => hstart) (by omega) h0
  | append_singleton ps q ih =>
    have hq := hps q (by simp)
    have hlen' : ps.length + 1 ≤ g.runCycles := by simpa using hlen
    have hprev := ih (fun x hx => hps x (by simp [hx])) (by omega)
    rw [← List.cons_append, List.foldl_append, List.foldl_cons, List.foldl_nil,
      List.length_append, List.length_singleton]
    exact PhaseAt.step h.state h.quiet hlen' hq.1 (by omega) (fun _ => hq.2) hprev

theorem Ready.fired (h : Ready t v) {t' : Tile g} (hfin : Finished t t') : Ready t' v.fire := by
  refine ⟨hfin.state, hfin.quiet, hfin.wmem.trans h.wmem, hfin.amem.trans h.amem, ?_,
    hfin.errorLatched.trans h.noError⟩
  intro r
  rw [hfin.acc r, partialPsum_cols, h.acc r, h.wmem, h.amem]
  rfl

end Sequences

/-! ## The status byte -/

theorem statusByte_error (t : Tile g) : (t.statusByte &&& 0x40#8 ≠ 0) ↔ t.errorLatched = true := by
  unfold statusByte
  generalize t.errorLatched = e, t.idle = i, t.accmem.allRowsDone = a, t.ctrl.weightDoneQ = w,
    t.ctrl.doneLatchedQ = d, t.busy = b
  revert e i a w d b
  decide

theorem statusByte_done (t : Tile g) :
    (t.statusByte &&& 0x02#8 ≠ 0) ↔ t.ctrl.doneLatchedQ = true := by
  unfold statusByte
  generalize t.errorLatched = e, t.idle = i, t.accmem.allRowsDone = a, t.ctrl.weightDoneQ = w,
    t.ctrl.doneLatchedQ = d, t.busy = b
  revert e i a w d b
  decide

theorem statusByte_startReady (t : Tile g) : (t.statusByte &&& 0x10#8 ≠ 0) ↔ t.idle = true := by
  unfold statusByte
  generalize t.errorLatched = e, t.idle = i, t.accmem.allRowsDone = a, t.ctrl.weightDoneQ = w,
    t.ctrl.doneLatchedQ = d, t.busy = b
  revert e i a w d b
  decide

/-- Undriven pads read `0xff`; a tile never does. -/
theorem statusByte_ne_undriven (t : Tile g) : t.statusByte ≠ 0xff#8 := by
  unfold statusByte
  generalize t.errorLatched = e, t.idle = i, t.accmem.allRowsDone = a, t.ctrl.weightDoneQ = w,
    t.ctrl.doneLatchedQ = d, t.busy = b
  revert e i a w d b
  decide

end Tile
