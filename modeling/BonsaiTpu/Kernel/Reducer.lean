-- SUMMARY: The reducer as a pipeline under any input stream: exact sums, and each input after three edges at the output (`q1a8_reducer.v`).
import BonsaiTpu.Base.Machine
import BonsaiTpu.Kernel.Conversions

/-!
# The reducer pipeline

Every stage of `q1a8_reducer` is a register that is loaded in each cycle, so the pipeline
never stalls: what is at the inputs in cycle `n` is at the outputs in cycle `n + 3`,
whatever comes before and after it.
-/

namespace Q1a8

open Floats

/-- The inputs of a reducer in one cycle. -/
structure ReducerIn where
  validIn : Bool
  weightBits : BitVec 32
  actsPacked : BitVec 256
  weightScale : Fp16
  actScale : Fp16

/-- One clock edge out of reset. -/
def Reducer.clock (r : Reducer) (i : ReducerIn) : Reducer :=
  r.step true i.validIn i.weightBits i.actsPacked i.weightScale i.actScale

/-- The scales that come with a valid input are those of the quantiser. -/
def Scaled (inp : Nat → ReducerIn) : Prop :=
  ∀ n, (inp n).validIn = true → IsScale (inp n).weightScale ∧ IsScale (inp n).actScale

/-- The state in a cycle. -/
abbrev reducerAt (r : Reducer) (inp : Nat → ReducerIn) (n : Nat) : Reducer :=
  Machine.trace Reducer.clock r inp n

/-- What is given in a cycle, if anything is. -/
def Reducer.given (r : Reducer) : Option Fp32 := if r.validOut then some r.contribution else none

/-- The operands of a sub-block in binary32. -/
structure ReducerIn.Operands (i : ReducerIn) (weightScale actScale subSum : Fp32) : Prop where
  weightScale : binary32.value weightScale.toNat = binary16.value i.weightScale.toNat
  actScale : binary32.value actScale.toNat = binary16.value i.actScale.toNat
  subSum : binary32.value subSum.toNat = signedSum i.weightBits i.actsPacked

/-- What an input contributes, if it is valid. -/
def ReducerIn.taken (i : ReducerIn) : Option Fp32 :=
  if i.validIn then
    some (fp32Mul (fp32Mul (fp16ToFp32 i.weightScale) (fp16ToFp32 i.actScale))
      (intToFp32 (subSum i.weightBits i.actsPacked)))
  else none

section

variable (r : Reducer) (inp : Nat → ReducerIn)

/-- One edge loads the first stage. -/
theorem reducerAt_one (n : Nat) :
    (reducerAt r inp (n + 1)).validS1 = (inp n).validIn ∧
      (reducerAt r inp (n + 1)).weightScaleF32S1 = fp16ToFp32 (inp n).weightScale ∧
      (reducerAt r inp (n + 1)).actScaleF32S1 = fp16ToFp32 (inp n).actScale ∧
      (reducerAt r inp (n + 1)).subSumS1 = subSum (inp n).weightBits (inp n).actsPacked := by
  rw [reducerAt, Machine.trace_succ]
  exact ⟨rfl, rfl, rfl, rfl⟩

/-- The next one loads the second. -/
theorem reducerAt_two (n : Nat) :
    (reducerAt r inp (n + 2)).validS2 = (inp n).validIn ∧
      (reducerAt r inp (n + 2)).combinedF32S2 =
        fp32Mul (fp16ToFp32 (inp n).weightScale) (fp16ToFp32 (inp n).actScale) ∧
      (reducerAt r inp (n + 2)).subSumF32S2 =
        intToFp32 (subSum (inp n).weightBits (inp n).actsPacked) := by
  obtain ⟨hvalid, hweight, hact, hsum⟩ := reducerAt_one r inp n
  rw [reducerAt, Machine.trace_succ]
  refine ⟨hvalid, ?_, ?_⟩
  · show fp32Mul _ _ = _
    rw [hweight, hact]
  · show intToFp32 _ = _
    rw [hsum]

/-- The third edge brings an input to the outputs. -/
theorem given_reducerAt (n : Nat) : (reducerAt r inp (n + 3)).given = (inp n).taken := by
  obtain ⟨hvalid, hcombined, hsum⟩ := reducerAt_two r inp n
  rw [Reducer.given, ReducerIn.taken, reducerAt, Machine.trace_succ]
  show (if (reducerAt r inp (n + 2)).validS2 then
    some (fp32Mul (reducerAt r inp (n + 2)).combinedF32S2 (reducerAt r inp (n + 2)).subSumF32S2)
      else none) = _
  rw [hvalid, hcombined, hsum]

/-- A reducer out of reset gives nothing before that. -/
theorem validOut_reset {n : Nat} (hn : n < 3) :
    (reducerAt Reducer.reset inp n).validOut = false := by
  match n, hn with
  | 0, _ => rfl
  | 1, _ => rfl
  | 2, _ => rfl

end

/-- For every stream of inputs, with gaps or without: no adder of the sum wraps around and all
    conversions are exact; the outputs of cycle `n + 3` are those of the inputs of cycle `n`;
    and what a reducer gives from its reset on is what it took, in order. -/
theorem reducer_pipeline (r : Reducer) (inp : Nat → ReducerIn) (hscaled : Scaled inp) (n : Nat) :
    (∀ m ≤ 32, (subSumChain (inp n).weightBits (inp n).actsPacked m).toInt =
      signedSumTo (inp n).weightBits (inp n).actsPacked m) ∧
    (subSum (inp n).weightBits (inp n).actsPacked).toInt =
      signedSum (inp n).weightBits (inp n).actsPacked ∧
    binary32.value (intToFp32 (subSum (inp n).weightBits (inp n).actsPacked)).toNat =
      signedSum (inp n).weightBits (inp n).actsPacked ∧
    (reducerAt r inp (n + 3)).validOut = (inp n).validIn ∧
    ((reducerAt r inp (n + 3)).validOut = true → ∃ weightScale actScale sum,
      (inp n).Operands weightScale actScale sum ∧
      weightScale = fp16ToFp32 (inp n).weightScale ∧ actScale = fp16ToFp32 (inp n).actScale ∧
      sum = intToFp32 (subSum (inp n).weightBits (inp n).actsPacked) ∧
      (reducerAt r inp (n + 3)).contribution = fp32Mul (fp32Mul weightScale actScale) sum) ∧
    (∀ k < 3, (reducerAt Reducer.reset inp k).validOut = false) ∧
    (List.range (n + 3)).filterMap (fun k => (reducerAt Reducer.reset inp k).given) =
      (List.range n).filterMap fun k => (inp k).taken := by
  have hsum := subSum_toInt (inp n).weightBits (inp n).actsPacked
  have hbound := signedSum_bound (inp n).weightBits (inp n).actsPacked
  have hexact : binary32.value (intToFp32 (subSum (inp n).weightBits (inp n).actsPacked)).toNat =
      signedSum (inp n).weightBits (inp n).actsPacked := by
    rw [value_intToFp32 (by omega), hsum]
  obtain ⟨hvalid, hcombined, hconverted⟩ := reducerAt_two r inp n
  have hout : (reducerAt r inp (n + 3)).validOut = (inp n).validIn := by
    rw [reducerAt, Machine.trace_succ]
    exact hvalid
  refine ⟨fun m hm => (subSumChain_toInt _ _ hm).1, hsum, hexact, hout, fun hgiven => ?_,
    fun k hk => validOut_reset inp hk, ?_⟩
  · rw [hout] at hgiven
    obtain ⟨hweight, hact⟩ := hscaled n hgiven
    refine ⟨_, _, _, ⟨value_fp16ToFp32 hweight, value_fp16ToFp32 hact, hexact⟩, rfl, rfl, rfl, ?_⟩
    rw [reducerAt, Machine.trace_succ]
    show fp32Mul (reducerAt r inp (n + 2)).combinedF32S2 (reducerAt r inp (n + 2)).subSumF32S2 = _
    rw [hcombined, hconverted]
  · refine Machine.collect_delayed (fun k hk => ?_) (given_reducerAt Reducer.reset inp) n
    rw [Reducer.given, validOut_reset inp hk, if_neg Bool.false_ne_true]

/-- Inputs in every other cycle: all bits set, activations of -128, scales 1 and 2. -/
def everyOther (n : Nat) : ReducerIn where
  validIn := decide (n % 2 = 0)
  weightBits := BitVec.allOnes 32
  actsPacked := 0x8080808080808080808080808080808080808080808080808080808080808080#256
  weightScale := 0x3C00#16
  actScale := 0x4000#16

theorem reducer_pipeline_every_other :
    (reducerAt Reducer.reset everyOther 3).validOut = true ∧
      (reducerAt Reducer.reset everyOther 4).validOut = false ∧
      (subSum (everyOther 0).weightBits (everyOther 0).actsPacked).toInt = -4096 ∧
      (reducerAt Reducer.reset everyOther 3).contribution = 0xC6000000#32 := by
  have hscaled : Scaled everyOther := fun _ _ =>
    ⟨show IsScale 0x3C00#16 by decide, show IsScale 0x4000#16 by decide⟩
  obtain ⟨-, -, -, hvalid, hgiven, -⟩ := reducer_pipeline Reducer.reset everyOther hscaled 0
  obtain ⟨-, -, -, hvalid', -⟩ := reducer_pipeline Reducer.reset everyOther hscaled 1
  obtain ⟨_, _, _, -, rfl, rfl, rfl, hcontribution⟩ := hgiven (hvalid.trans (by decide))
  refine ⟨hvalid.trans (by decide), hvalid'.trans (by decide), by decide +kernel, ?_⟩
  rw [hcontribution]
  decide +kernel

end Q1a8
