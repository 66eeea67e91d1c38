-- SUMMARY: The tile RTL: command decode, FSM, scratchpads, status mux and the top-level wrapper (`tpu_*.v`, `project.v`).
import BonsaiTpu.Base.Machine
import BonsaiTpu.Base.PartSelect
import BonsaiTpu.Tile.Array
import Mathlib.Data.Nat.Log

/-!
# The tile

`tt_um_unclegravity_tpu` for any admissible geometry. The scratchpads, the
controller and the array are modelled module by module; `Tile.step` wires them
together as `project.v` does. `ena`, `uio_out` and `uio_oe` carry no behaviour.
-/

namespace Tile

/-- The width of a selector for `n` entries. -/
def selW (n : Nat) : Nat := if n ≤ 1 then 1 else Nat.clog 2 n

/-- The parameters of the tile. A row of weights fits the data byte. A selector that is
    wider than what is left of the 5-bit argument reads zeros there. -/
structure Geometry where
  rows : Nat
  cols : Nat
  psumWidth : Nat
  rowsPos : 1 ≤ rows
  colsPos : 1 ≤ cols
  colsLe : cols ≤ 8

/-- Two columns are allowed. -/
theorem one_le_two_cols : 1 ≤ 2 := by decide

theorem two_cols_le : 2 ≤ 8 := by decide

namespace Geometry

variable (g : Geometry)

def actWidth : Nat := 8
def stepW : Nat := Nat.clog 2 (g.rows + g.cols)
def rowSelW : Nat := selW g.rows
def colSelW : Nat := selW g.cols
def psumBytes : Nat := (g.psumWidth + 7) / 8
def byteSelW : Nat := selW g.psumBytes
def computeLastStep : Nat := g.rows + g.cols - 1

end Geometry

-- ---------------------------------------------------------------------------
-- tpu_cmd_decode
-- ---------------------------------------------------------------------------

/-- The command strobes and the argument carried by one `ui_in` byte. -/
structure Cmd where
  clear : Bool
  ldw : Bool
  lda : Bool
  seed : Bool
  start : Bool
  rdp : Bool
  arg : BitVec 5
  deriving DecidableEq

def cmdDecode (uiIn : BitVec 8) : Cmd :=
  let cmd := uiIn.extractLsb' 0 3
  { clear := cmd == 1#3
    ldw := cmd == 2#3
    lda := cmd == 3#3
    seed := cmd == 4#3
    start := cmd == 5#3
    rdp := cmd == 6#3
    arg := uiIn.extractLsb' 3 5 }

-- ---------------------------------------------------------------------------
-- tpu_tile_ctrl
-- ---------------------------------------------------------------------------

/-- The two-bit FSM encoding; `unused` is the value `2'd3`. -/
inductive CtrlState where
  | idle
  | load
  | run
  | unused
  deriving DecidableEq

structure Ctrl (g : Geometry) where
  stateQ : CtrlState
  stepQ : BitVec g.stepW
  doneLatchedQ : Bool
  weightDoneQ : Bool
  deriving DecidableEq

namespace Ctrl

variable {g : Geometry}

def idle (s : Ctrl g) : Bool := s.stateQ == .idle
def busy (s : Ctrl g) : Bool := !s.idle
def loadPhase (s : Ctrl g) : Bool := s.stateQ == .load
def runPhase (s : Ctrl g) : Bool := s.stateQ == .run
def startPulse (s : Ctrl g) (cmdStart : Bool) : Bool := s.idle && cmdStart

def reset : Ctrl g := ⟨.idle, 0, false, false⟩

def step (rstN clear cmdStart allRowsDone : Bool) (s : Ctrl g) : Ctrl g :=
  if !rstN || clear then reset
  else
    match s.stateQ with
    | .idle => if cmdStart then ⟨.load, 0, false, false⟩ else s
    | .load =>
      if s.stepQ.toNat = g.cols - 1 then { s with stateQ := .run, stepQ := 0, weightDoneQ := true }
      else { s with stepQ := s.stepQ + 1 }
    | .run =>
      let last := BitVec.ofNat g.stepW g.computeLastStep
      -- Both `if`s read the old `step_q`; the second may also leave the phase.
      let s' := if s.stepQ < last then { s with stepQ := s.stepQ + 1 } else s
      if last ≤ s.stepQ ∧ allRowsDone then { s' with stateQ := .idle, doneLatchedQ := true } else s'
    | .unused => { s with stateQ := .idle }

end Ctrl

-- ---------------------------------------------------------------------------
-- tpu_weight_mem
-- ---------------------------------------------------------------------------

abbrev WeightMem (g : Geometry) := Fin g.rows → Fin g.cols → Bool

namespace WeightMem

variable {g : Geometry}

def wrow (g : Geometry) (arg : BitVec 5) : BitVec g.rowSelW := arg.extractLsb' 0 g.rowSelW
def rowOob (g : Geometry) (arg : BitVec 5) : Bool := decide (g.rows ≤ (wrow g arg).toNat)
def err (g : Geometry) (we : Bool) (arg : BitVec 5) : Bool := we && rowOob g arg

def step (rstN we : Bool) (arg : BitVec 5) (wdata : BitVec 8) (m : WeightMem g) : WeightMem g :=
  if !rstN then fun _ _ => false
  else if we && !rowOob g arg then
    fun r c => if (wrow g arg).toNat = r then wdata.getLsbD c else m r c
  else m

def readCol (step : BitVec g.stepW) : BitVec g.colSelW :=
  BitVec.ofNat g.colSelW (g.cols - 1) - step.extractLsb' 0 g.colSelW

/-- The column presented to the array; the bus is zero outside the load phase. -/
def weightColOut (weightLoad : Bool) (step : BitVec g.stepW) (m : WeightMem g) (r : Fin g.rows) :
    Bool :=
  if weightLoad then
    if h : (readCol step).toNat < g.cols then m r ⟨(readCol step).toNat, h⟩ else false
  else false

end WeightMem

-- ---------------------------------------------------------------------------
-- tpu_act_mem
-- ---------------------------------------------------------------------------

abbrev ActMem (g : Geometry) := Fin g.cols → BitVec Geometry.actWidth

namespace ActMem

variable {g : Geometry}

def wcol (g : Geometry) (arg : BitVec 5) : BitVec g.colSelW := arg.extractLsb' 0 g.colSelW
def colOob (g : Geometry) (arg : BitVec 5) : Bool := decide (g.cols ≤ (wcol g arg).toNat)
def err (g : Geometry) (we : Bool) (arg : BitVec 5) : Bool := we && colOob g arg

def step (rstN clear we : Bool) (arg : BitVec 5) (wdata : BitVec 8) (m : ActMem g) : ActMem g :=
  if !rstN || clear then fun _ => 0
  else if we && !colOob g arg then fun c => if (wcol g arg).toNat = c then wdata else m c
  else m

/-- The skewed drive: column `gc` gets its activation at step `gc` of the run. -/
def arrayActIn (runPhase : Bool) (step : BitVec g.stepW) (m : ActMem g) (gc : Fin g.cols) :
    BitVec Geometry.actWidth :=
  if runPhase && decide (step.toNat = gc) then m gc else 0

end ActMem

-- ---------------------------------------------------------------------------
-- tpu_acc_mem
-- ---------------------------------------------------------------------------

structure AccMem (g : Geometry) where
  accQ : BitVec (g.rows * g.psumWidth)
  accDoneQ : Fin g.rows → Bool

namespace AccMem

variable {g : Geometry}

def argRow (g : Geometry) (arg : BitVec 5) : BitVec g.rowSelW := arg.extractLsb' 0 g.rowSelW
def argByte (g : Geometry) (arg : BitVec 5) : BitVec g.byteSelW :=
  arg.extractLsb' g.rowSelW g.byteSelW
def rowOob (g : Geometry) (arg : BitVec 5) : Bool := decide (g.rows ≤ (argRow g arg).toNat)
def err (g : Geometry) (weSeed : Bool) (arg : BitVec 5) : Bool := weSeed && rowOob g arg

/-- The first bit of the byte that SEED writes and RDP reads. -/
def byteBase (g : Geometry) (arg : BitVec 5) : Nat :=
  (argRow g arg).toNat * g.psumWidth + (argByte g arg).toNat * 8

/-- `acc_q[r]`, the accumulator of one row. -/
def row (m : AccMem g) (r : Fin g.rows) : BitVec g.psumWidth := m.accQ.field r

def allRowsDone (m : AccMem g) : Bool := decide (∀ r, m.accDoneQ r = true)

def resultByte (m : AccMem g) (arg : BitVec 5) : BitVec 8 :=
  if rowOob g arg then 0 else m.accQ.extractLsb' (byteBase g arg) 8

def reset : AccMem g := ⟨0, fun _ => false⟩

def step (rstN clear weSeed : Bool) (arg : BitVec 5) (wdata : BitVec 8)
    (captureValid : Fin g.rows → Bool) (capturePsum : Fin g.rows → BitVec g.psumWidth)
    (startPulse : Bool) (m : AccMem g) : AccMem g :=
  if !rstN || clear then reset
  else
    let captured := m.accQ.setFields captureValid capturePsum
    { accQ := if weSeed && !rowOob g arg then captured.setPart (byteBase g arg) wdata else captured
      accDoneQ := fun r => if startPulse then false
        else if captureValid r then true else m.accDoneQ r }

def arrayValidIn (runPhase : Bool) (step : BitVec g.stepW) (gr : Fin g.rows) : Bool :=
  runPhase && decide (step.toNat = gr)

def arrayPsumIn (runPhase : Bool) (step : BitVec g.stepW) (m : AccMem g) (gr : Fin g.rows) :
    BitVec g.psumWidth :=
  if runPhase && decide (step.toNat = gr) then m.row gr else 0

end AccMem

end Tile

-- ---------------------------------------------------------------------------
-- tt_um_unclegravity_tpu
-- ---------------------------------------------------------------------------

/-- The registers of the tile. -/
structure Tile (g : Tile.Geometry) where
  ctrl : Tile.Ctrl g
  wmem : Tile.WeightMem g
  amem : Tile.ActMem g
  accmem : Tile.AccMem g
  array : W1a8.Array g.rows g.cols Tile.Geometry.actWidth g.psumWidth
  errorLatched : Bool

namespace Tile

variable {g : Geometry}

/-- The input pins in one clock cycle. -/
structure Pins where
  rstN : Bool
  uiIn : BitVec 8
  uioIn : BitVec 8
  deriving DecidableEq

def Pins.cmd (p : Pins) : Cmd := cmdDecode p.uiIn

abbrev idle (t : Tile g) : Bool := t.ctrl.idle
abbrev busy (t : Tile g) : Bool := t.ctrl.busy

def arrayIn (t : Tile g) : W1a8.ArrayIn g.rows g.cols Geometry.actWidth g.psumWidth :=
  { weightIn := WeightMem.weightColOut t.ctrl.loadPhase t.ctrl.stepQ t.wmem
    actIn := ActMem.arrayActIn t.ctrl.runPhase t.ctrl.stepQ t.amem
    psumIn := AccMem.arrayPsumIn t.ctrl.runPhase t.ctrl.stepQ t.accmem
    validIn := AccMem.arrayValidIn t.ctrl.runPhase t.ctrl.stepQ }

/-- One clock edge of the whole tile. -/
def step (t : Tile g) (p : Pins) : Tile g :=
  let cmd := p.cmd
  let weightErr := WeightMem.err g (cmd.ldw && t.idle) cmd.arg
  let actErr := ActMem.err g (cmd.lda && t.idle) cmd.arg
  let accErr := AccMem.err g (cmd.seed && t.idle) cmd.arg
  { ctrl := t.ctrl.step p.rstN cmd.clear cmd.start t.accmem.allRowsDone
    wmem := t.wmem.step p.rstN (cmd.ldw && t.idle) cmd.arg p.uioIn
    amem := t.amem.step p.rstN cmd.clear (cmd.lda && t.idle) cmd.arg p.uioIn
    accmem := t.accmem.step p.rstN cmd.clear (cmd.seed && t.idle) cmd.arg p.uioIn
      (W1a8.Array.validOut t.arrayIn t.array) (W1a8.Array.psumOut t.arrayIn t.array)
      (t.ctrl.startPulse cmd.start)
    array := W1a8.Array.step ⟨p.rstN, cmd.clear, t.ctrl.loadPhase⟩ t.arrayIn t.array
    errorLatched :=
      if !p.rstN || cmd.clear then false
      else if weightErr || actErr || accErr then true
      else t.errorLatched }

-- ---------------------------------------------------------------------------
-- tpu_status
-- ---------------------------------------------------------------------------

def statusByte (t : Tile g) : BitVec 8 :=
  BitVec.ofBool false ++ BitVec.ofBool t.errorLatched ++ BitVec.ofBool t.idle
    ++ BitVec.ofBool t.idle ++ BitVec.ofBool t.accmem.allRowsDone
    ++ BitVec.ofBool t.ctrl.weightDoneQ ++ BitVec.ofBool t.ctrl.doneLatchedQ
    ++ BitVec.ofBool t.busy

/-- The output pins, combinational in the registers and the command. -/
def uoOut (t : Tile g) (p : Pins) : BitVec 8 :=
  if p.cmd.rdp then t.accmem.resultByte p.cmd.arg else t.statusByte

/-! ## Reachable states

Every register is cleared by a clock edge with `rst_n` low, so the states of a
powered-up tile are those reachable from `reset`. -/

def reset : Tile g :=
  { ctrl := Ctrl.reset
    wmem := fun _ _ => false
    amem := fun _ => 0
    accmem := AccMem.reset
    array := fun _ _ => W1a8.Pe.drained false
    errorLatched := false }

theorem step_reset (t : Tile g) {p : Pins} (h : p.rstN = false) : t.step p = reset := by
  have harray : W1a8.Array.step ⟨false, p.cmd.clear, t.ctrl.loadPhase⟩ t.arrayIn t.array =
      fun _ _ => W1a8.Pe.drained false := by
    funext r c
    simp [W1a8.Array.step, W1a8.Row.step, W1a8.Pe.step]
  simp [step, reset, h, harray, Ctrl.step, WeightMem.step, ActMem.step, AccMem.step]

abbrev Reachable (t : Tile g) : Prop := Machine.Reachable (· = reset) step t

end Tile
