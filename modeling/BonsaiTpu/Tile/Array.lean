-- SUMMARY: The W1A8 compute fabric: processing element, row and array (`w1a8_pe.v`, `w1a8_row.v`, `w1a8_array.v`).
import Mathlib.Data.Fin.Tuple.Basic
import Mathlib.Tactic.Common
import BonsaiTpu.Base.Indices

/-!
# The W1A8 systolic array

Each `always_ff` block of the RTL is a `step` function from the registers and
the inputs of one clock cycle to the registers of the next. The wires that chain
the elements of a row (`weight_chain`, `valid_chain`, `psum_chain`) and the rows
of the array (`act_chain`) are the vectors with one more entry than there are
elements: entry `0` is driven from outside and entry `c + 1` by element `c`.
-/

namespace W1a8

variable {rows cols actWidth psumWidth : Nat}

-- ---------------------------------------------------------------------------
-- Processing element
-- ---------------------------------------------------------------------------

/-- The registers of one processing element. -/
structure Pe (actWidth psumWidth : Nat) where
  weightQ : Bool
  actOut : BitVec actWidth
  psumOut : BitVec psumWidth
  validOut : Bool
  deriving DecidableEq

/-- The control inputs, common to every element of the array. -/
structure Ctl where
  rstN : Bool
  clear : Bool
  weightLoad : Bool

/-- The data inputs of one element. -/
structure PeIn (actWidth psumWidth : Nat) where
  weightIn : Bool
  actIn : BitVec actWidth
  psumIn : BitVec psumWidth
  validIn : Bool

/-- The signed contribution, one bit wider than the activation so that the
    negation of the most negative activation fits. -/
def contrib (weightQ : Bool) (actIn : BitVec actWidth) : BitVec (actWidth + 1) :=
  let actExt := actIn.signExtend (actWidth + 1)
  if weightQ then actExt else -actExt

def contribExt (psumWidth : Nat) (weightQ : Bool) (actIn : BitVec actWidth) : BitVec psumWidth :=
  (contrib weightQ actIn).signExtend psumWidth

namespace Pe

/-- An element whose pipeline registers are zero. -/
def drained (weightQ : Bool) : Pe actWidth psumWidth := ⟨weightQ, 0, 0, false⟩

def step (ctl : Ctl) (i : PeIn actWidth psumWidth) (pe : Pe actWidth psumWidth) :
    Pe actWidth psumWidth :=
  if !ctl.rstN then drained false
  else if ctl.clear then drained pe.weightQ
  else if ctl.weightLoad then drained i.weightIn
  else
    { pe with
      actOut := i.actIn
      psumOut := if i.validIn then i.psumIn + contribExt psumWidth pe.weightQ i.actIn else 0
      validOut := i.validIn }

end Pe

-- ---------------------------------------------------------------------------
-- Row
-- ---------------------------------------------------------------------------

abbrev Row (cols actWidth psumWidth : Nat) := Fin cols → Pe actWidth psumWidth

namespace Row

def weightChain (weightIn : Bool) (row : Row cols actWidth psumWidth) : Fin (cols + 1) → Bool :=
  Fin.cons weightIn fun c => (row c).weightQ

def validChain (validIn : Bool) (row : Row cols actWidth psumWidth) : Fin (cols + 1) → Bool :=
  Fin.cons validIn fun c => (row c).validOut

def psumChain (psumIn : BitVec psumWidth) (row : Row cols actWidth psumWidth) :
    Fin (cols + 1) → BitVec psumWidth :=
  Fin.cons psumIn fun c => (row c).psumOut

def step (ctl : Ctl) (weightIn : Bool) (actIn : Fin cols → BitVec actWidth)
    (psumIn : BitVec psumWidth) (validIn : Bool) (row : Row cols actWidth psumWidth) :
    Row cols actWidth psumWidth := fun col =>
  Pe.step ctl
    { weightIn := weightChain weightIn row col.castSucc
      actIn := actIn col
      psumIn := psumChain psumIn row col.castSucc
      validIn := validChain validIn row col.castSucc }
    (row col)

end Row

-- ---------------------------------------------------------------------------
-- Array
-- ---------------------------------------------------------------------------

abbrev Array (rows cols actWidth psumWidth : Nat) := Fin rows → Row cols actWidth psumWidth

/-- The data inputs at the left and top edges of the array. -/
structure ArrayIn (rows cols actWidth psumWidth : Nat) where
  weightIn : Fin rows → Bool
  actIn : Fin cols → BitVec actWidth
  psumIn : Fin rows → BitVec psumWidth
  validIn : Fin rows → Bool

namespace Array

def actChain (actIn : Fin cols → BitVec actWidth) (a : Array rows cols actWidth psumWidth) :
    Fin (rows + 1) → Fin cols → BitVec actWidth :=
  Fin.cons actIn fun r c => (a r c).actOut

def step (ctl : Ctl) (i : ArrayIn rows cols actWidth psumWidth)
    (a : Array rows cols actWidth psumWidth) : Array rows cols actWidth psumWidth := fun row =>
  Row.step ctl (i.weightIn row) (actChain i.actIn a row.castSucc) (i.psumIn row) (i.validIn row)
    (a row)

def psumOut (i : ArrayIn rows cols actWidth psumWidth) (a : Array rows cols actWidth psumWidth)
    (row : Fin rows) : BitVec psumWidth :=
  Row.psumChain (i.psumIn row) (a row) (Fin.last cols)

def validOut (i : ArrayIn rows cols actWidth psumWidth) (a : Array rows cols actWidth psumWidth)
    (row : Fin rows) : Bool :=
  Row.validChain (i.validIn row) (a row) (Fin.last cols)

/-- No element holds a valid partial sum. -/
def Quiet (a : Array rows cols actWidth psumWidth) : Prop := ∀ r c, (a r c).validOut = false

end Array

/-! ## Chains

A chain is determined by its values along the index: if the outside drives value
`g 0` and element `c` holds `g (c + 1)`, then entry `k` of the chain is `g k`. -/

theorem chain_eq {α : Type*} {n : Nat} {x : α} {f : Fin n → α} (g : Nat → α) (h0 : x = g 0)
    (hs : ∀ c : Fin n, f c = g (c + 1)) (k : Fin (n + 1)) :
    (Fin.cons x f : Fin (n + 1) → α) k = g k := by
  cases k using Fin.cases with
  | zero => simpa using h0
  | succ c => simpa using hs c

/-- Entry `c` of a chain is driven by element `c - 1`. -/
theorem chain_castSucc {α : Type*} {n : Nat} (x : α) (f : Fin n → α) (c : Fin n) (hc : 0 < c.val) :
    (Fin.cons x f : Fin (n + 1) → α) c.castSucc = f ⟨c - 1, by omega⟩ := by
  have hcast : c.castSucc = Fin.succ ⟨c.val - 1, by omega⟩ := by
    apply Fin.ext
    simp only [Fin.val_castSucc, Fin.val_succ]
    omega
  rw [hcast, Fin.cons_succ]

theorem chain_last {α : Type*} {n : Nat} (x : α) (f : Fin n → α) (hn : 0 < n) :
    (Fin.cons x f : Fin (n + 1) → α) (Fin.last n) = f ⟨n - 1, by omega⟩ := by
  have hlast : Fin.last n = Fin.succ ⟨n - 1, by omega⟩ := by
    apply Fin.ext
    simp only [Fin.val_last, Fin.val_succ]
    omega
  rw [hlast, Fin.cons_succ]

/-! ## Steps of the array -/

namespace Array

variable {i : ArrayIn rows cols actWidth psumWidth} {a : Array rows cols actWidth psumWidth}

theorem validOut_eq (hc : 0 < cols) (r : Fin rows) :
    validOut i a r = (a r ⟨cols - 1, by omega⟩).validOut :=
  chain_last _ _ hc

theorem psumOut_eq (hc : 0 < cols) (r : Fin rows) :
    psumOut i a r = (a r ⟨cols - 1, by omega⟩).psumOut :=
  chain_last _ _ hc

theorem Quiet.validOut (h : a.Quiet) (hc : 0 < cols) (r : Fin rows) :
    Array.validOut i a r = false := by
  rw [validOut_eq hc]
  exact h r _

/-- CLEAR drains the pipeline and keeps the weights. -/
theorem step_clear (load : Bool) (r : Fin rows) (c : Fin cols) :
    step ⟨true, true, load⟩ i a r c = Pe.drained (a r c).weightQ := by
  simp [step, Row.step, Pe.step]

/-- A load cycle drains the pipeline and shifts the weights by one element. -/
theorem step_load (r : Fin rows) (c : Fin cols) :
    step ⟨true, false, true⟩ i a r c =
      Pe.drained (Row.weightChain (i.weightIn r) (a r) c.castSucc) := by
  simp [step, Row.step, Pe.step]

theorem step_compute (r : Fin rows) (c : Fin cols) :
    step ⟨true, false, false⟩ i a r c =
      { weightQ := (a r c).weightQ
        actOut := actChain i.actIn a r.castSucc c
        psumOut :=
          if Row.validChain (i.validIn r) (a r) c.castSucc then
            Row.psumChain (i.psumIn r) (a r) c.castSucc +
              contribExt psumWidth (a r c).weightQ (actChain i.actIn a r.castSucc c)
          else 0
        validOut := Row.validChain (i.validIn r) (a r) c.castSucc } := by
  simp [step, Row.step, Pe.step]

/-- Nothing becomes valid in a quiet array that is offered nothing valid. -/
theorem Quiet.step (h : a.Quiet) (hin : ∀ r, i.validIn r = false) (ctl : Ctl) :
    (Array.step ctl i a).Quiet := by
  intro r c
  have hchain : Row.validChain (i.validIn r) (a r) c.castSucc = false :=
    chain_eq (fun _ => false) (hin r) (fun c => h r c) c.castSucc
  simp only [Array.step, Row.step, Pe.step, hchain]
  split
  · rfl
  · split
    · rfl
    · split <;> rfl

end Array

/-! ## Contributions -/

theorem toInt_contrib (weightQ : Bool) (actIn : BitVec actWidth) :
    (contrib weightQ actIn).toInt = if weightQ then actIn.toInt else -actIn.toInt := by
  have hext : (actIn.signExtend (actWidth + 1)).toInt = actIn.toInt :=
    BitVec.toInt_signExtend_of_le (by omega)
  cases weightQ with
  | true => simpa [contrib] using hext
  | false =>
    have hlo : -2 ^ actWidth ≤ 2 * actIn.toInt := BitVec.le_two_mul_toInt
    have hhi : 2 * actIn.toInt < 2 ^ actWidth := BitVec.two_mul_toInt_lt
    have hpow : ((2 ^ (actWidth + 1) : Nat) : Int) = 2 * 2 ^ actWidth := by
      rw [Nat.pow_succ]; push_cast; omega
    have hpos : (0 : Int) < 2 ^ actWidth := Int.pow_pos (by decide)
    simp only [contrib, Bool.false_eq_true, if_false, BitVec.toInt_neg, hext]
    exact Int.bmod_eq_of_le_mul_two (by omega) (by omega)

/-- Extended to the width of the partial sums, a contribution is the activation
    or its negation, modulo the width. -/
theorem contribExt_eq (psumWidth : Nat) (weightQ : Bool) (actIn : BitVec actWidth) :
    contribExt psumWidth weightQ actIn =
      BitVec.ofInt psumWidth (if weightQ then actIn.toInt else -actIn.toInt) := by
  rw [← toInt_contrib]
  rfl

end W1a8
