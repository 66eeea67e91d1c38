-- SUMMARY: The datapath of the PL kernel: fp32 conversion, addition and multiplication, the reducer pipeline and the rowblock accumulator.
import BonsaiTpu.Base.PartSelect
import Mathlib.Algebra.BigOperators.Group.Finset.Basic
import Mathlib.Data.BitVec

/-!
# The Q1A8 datapath

`fp16_to_fp32.v`, `int_to_fp32.v`, `fp32_mul.v` and `fp32_add.v` as functions,
`q1a8_reducer.v` and `q1a8_rowblock.v` as clocked modules with eight lanes. All
arithmetic is truncating and flushes subnormals, as the RTL documents.
-/

namespace Q1a8

abbrev Fp16 := BitVec 16
abbrev Fp32 := BitVec 32

/-! ## Number formats -/

def fp16ToFp32 (x : Fp16) : Fp32 :=
  let sign := x.extractLsb' 15 1
  let expIn := x.extractLsb' 10 5
  let mantIn := x.extractLsb' 0 10
  let expOut : BitVec 8 := expIn.setWidth 8 + 112#8
  let mantOut : BitVec 23 := mantIn ++ 0#13
  if expIn = 0 then sign ++ 0#31 else sign ++ expOut ++ mantOut

/-- The position of the leading one, zero for zero. -/
def leadPos {w : Nat} (x : BitVec w) : BitVec 5 :=
  (List.range w).foldl (fun pos i => if x.getLsbD i then BitVec.ofNat 5 i else pos) 0#5

/-- `int_to_fp32` with `WIDTH = 14`. -/
def intToFp32 (x : BitVec 14) : Fp32 :=
  let sign := x.extractLsb' 13 1
  let mag : BitVec 13 := if sign = 1#1 then (-x).extractLsb' 0 13 else x.extractLsb' 0 13
  let msbPos := leadPos mag
  let magNorm := mag <<< (12#32 - msbPos.setWidth 32)
  let mantissa : BitVec 23 := magNorm.extractLsb' 0 12 ++ 0#11
  let exponent : BitVec 8 := 127#8 + msbPos.setWidth 8
  if mag = 0 then 0#32 else sign ++ exponent ++ mantissa

def fp32Mul (a b : Fp32) : Fp32 :=
  let sa := a.extractLsb' 31 1
  let ea := a.extractLsb' 23 8
  let ma := a.extractLsb' 0 23
  let sb := b.extractLsb' 31 1
  let eb := b.extractLsb' 23 8
  let mb := b.extractLsb' 0 23
  let prod : BitVec 48 := (1#1 ++ ma).setWidth 48 * (1#1 ++ mb).setWidth 48
  let renorm := prod.getLsbD 47
  let mr := if renorm then prod.extractLsb' 24 23 else prod.extractLsb' 23 23
  let erPre : BitVec 10 := ea.setWidth 10 + eb.setWidth 10 - 127#10
  let er := erPre + (if renorm then 1#10 else 0#10)
  let sr := sa ^^^ sb
  if ea = 0 ∨ eb = 0 then 0#32
  else if er.toInt ≤ 0 then sr ++ 0#31
  else if er.toInt ≥ 255 then sr ++ 0xFE#8 ++ 0x7FFFFF#23
  else sr ++ er.extractLsb' 0 8 ++ mr

def fp32Add (a b : Fp32) : Fp32 :=
  let sa := a.extractLsb' 31 1
  let ea := a.extractLsb' 23 8
  let ma := a.extractLsb' 0 23
  let sb := b.extractLsb' 31 1
  let eb := b.extractLsb' 23 8
  let mb := b.extractLsb' 0 23
  let aGeB := decide (ea ≥ eb)
  let expBig := if aGeB then ea else eb
  let expSmall := if aGeB then eb else ea
  let mantBig : BitVec 24 := if aGeB then 1#1 ++ ma else 1#1 ++ mb
  let mantSmall : BitVec 24 := if aGeB then 1#1 ++ mb else 1#1 ++ ma
  let signBig := if aGeB then sa else sb
  let signSmall := if aGeB then sb else sa
  let expDiff := expBig - expSmall
  let mantSmallAligned : BitVec 24 := if expDiff > 24#8 then 0
    else mantSmall >>> expDiff.extractLsb' 0 5
  let smallMantBigger := decide (expDiff = 0 ∧ mantSmallAligned > mantBig)
  let m1 := if smallMantBigger then mantSmallAligned else mantBig
  let m2 := if smallMantBigger then mantBig else mantSmallAligned
  let resultSign := if smallMantBigger then signSmall else signBig
  let mantSum : BitVec 25 :=
    if signBig = signSmall then m1.setWidth 25 + m2.setWidth 25 else m1.setWidth 25 - m2.setWidth 25
  let pos := leadPos mantSum
  let shiftRight := decide (pos > 23#5)
  let rightAmount := if shiftRight then pos - 23#5 else 0#5
  let leftAmount := if pos < 23#5 then 23#5 - pos else 0#5
  let mantNormalized := if shiftRight then mantSum >>> rightAmount else mantSum <<< leftAmount
  let expSigned : BitVec 10 :=
    if shiftRight then expBig.setWidth 10 + rightAmount.setWidth 10
    else expBig.setWidth 10 - leftAmount.setWidth 10
  if ea = 0 then b
  else if eb = 0 then a
  else if mantSum = 0 ∨ expSigned.toInt ≤ 0 then resultSign ++ 0#31
  else if expSigned.toInt ≥ 255 then resultSign ++ 0xFE#8 ++ 0x7FFFFF#23
  else resultSign ++ expSigned.extractLsb' 0 8 ++ mantNormalized.extractLsb' 0 23

/-! ## The reducer -/

/-- The 14-bit adder chain: bit `i` selects the sign of activation `i`. -/
def subSum (weightBits : BitVec 32) (actsPacked : BitVec 256) : BitVec 14 :=
  (List.range 32).foldl (fun sum i =>
    let act := (actsPacked.extractLsb' (i * 8) 8).signExtend 14
    sum + if weightBits.getLsbD i then act else -act) 0

structure Reducer where
  validS1 : Bool
  weightScaleF32S1 : Fp32
  actScaleF32S1 : Fp32
  subSumS1 : BitVec 14
  validS2 : Bool
  combinedF32S2 : Fp32
  subSumF32S2 : Fp32
  validOut : Bool
  contribution : Fp32
  deriving Inhabited

def Reducer.reset : Reducer := ⟨false, 0, 0, 0, false, 0, 0, false, 0⟩

def Reducer.step (rstN validIn : Bool) (weightBits : BitVec 32) (actsPacked : BitVec 256)
    (weightScale actScale : Fp16) (r : Reducer) : Reducer :=
  if !rstN then Reducer.reset
  else
    { validS1 := validIn
      weightScaleF32S1 := fp16ToFp32 weightScale
      actScaleF32S1 := fp16ToFp32 actScale
      subSumS1 := subSum weightBits actsPacked
      validS2 := r.validS1
      combinedF32S2 := fp32Mul r.weightScaleF32S1 r.actScaleF32S1
      subSumF32S2 := intToFp32 r.subSumS1
      validOut := r.validS2
      contribution := fp32Mul r.combinedF32S2 r.subSumF32S2 }

/-! ## The rowblock -/

def rows : Nat := 8

structure Rowblock where
  reducers : Fin rows → Reducer
  accFlat : BitVec (rows * 32)
  lastPipe : BitVec 2
  done : Bool
  deriving Inhabited

structure RowblockIn where
  start : Bool
  validIn : Bool
  lastIn : Bool
  weightBitsFlat : BitVec (rows * 32)
  weightScalesFlat : BitVec (rows * 16)
  actsPacked : BitVec 256
  actScale : Fp16

def Rowblock.step (rstN : Bool) (i : RowblockIn) (r : Rowblock) : Rowblock :=
  let reducers := fun lane : Fin rows =>
    (r.reducers lane).step rstN i.validIn (i.weightBitsFlat.field lane)
    i.actsPacked (i.weightScalesFlat.field lane) i.actScale
  if !rstN then ⟨reducers, 0, 0, false⟩
  else if i.start then ⟨reducers, 0, 0, false⟩
  else
    { reducers
      accFlat := r.accFlat.setFields (fun lane => (r.reducers lane).validOut)
        fun lane => fp32Add (r.accFlat.field lane) (r.reducers lane).contribution
      lastPipe := r.lastPipe.extractLsb' 0 1 ++ BitVec.ofBool (i.validIn && i.lastIn)
      done := r.lastPipe.getLsbD 1 }

/-! ## What the pipeline computes -/

/-- The sum of the activations of a sub-block, each with the sign of its bit. -/
def signedSum (weightBits : BitVec 32) (actsPacked : BitVec 256) : Int :=
  ∑ i ∈ Finset.range 32,
    if weightBits.getLsbD i then (actsPacked.extractLsb' (i * 8) 8).toInt
    else -(actsPacked.extractLsb' (i * 8) 8).toInt

theorem toInt_term (bit : Bool) (act : BitVec 8) :
    (if bit then act.signExtend 14 else -act.signExtend 14).toInt = if bit then act.toInt
      else -act.toInt := by
  revert bit act
  decide +kernel

theorem term_bound (bit : Bool) (act : BitVec 8) :
    -128 ≤ (if bit then act.toInt else -act.toInt) ∧
      (if bit then act.toInt else -act.toInt) ≤ 128 := by
  have h1 := act.toInt_lt
  have h2 := act.le_toInt
  split <;> omega

/-- The adder chain after its first `n` adders. -/
def subSumChain (weightBits : BitVec 32) (actsPacked : BitVec 256) (n : Nat) : BitVec 14 :=
  (List.range n).foldl (fun sum i =>
    let act := (actsPacked.extractLsb' (i * 8) 8).signExtend 14
    sum + if weightBits.getLsbD i then act else -act) 0

/-- The sum of the first `n` activations. -/
def signedSumTo (weightBits : BitVec 32) (actsPacked : BitVec 256) (n : Nat) : Int :=
  ∑ i ∈ Finset.range n,
    if weightBits.getLsbD i then (actsPacked.extractLsb' (i * 8) 8).toInt
    else -(actsPacked.extractLsb' (i * 8) 8).toInt

/-- No adder of the chain wraps around. -/
theorem subSumChain_toInt (weightBits : BitVec 32) (actsPacked : BitVec 256)
    {n : Nat} (hn : n ≤ 32) :
    (subSumChain weightBits actsPacked n).toInt = signedSumTo weightBits actsPacked n ∧
      -(128 * n) ≤ signedSumTo weightBits actsPacked n ∧
      signedSumTo weightBits actsPacked n ≤ 128 * n := by
  induction n with
  | zero => exact ⟨rfl, by simp [signedSumTo]⟩
  | succ n ih =>
    obtain ⟨hsum, hlo, hhi⟩ := ih (by omega)
    have hterm := term_bound (weightBits.getLsbD n) (actsPacked.extractLsb' (n * 8) 8)
    have hnext : signedSumTo weightBits actsPacked (n + 1) = signedSumTo weightBits actsPacked n +
        if weightBits.getLsbD n then (actsPacked.extractLsb' (n * 8) 8).toInt
        else -(actsPacked.extractLsb' (n * 8) 8).toInt := Finset.sum_range_succ _ n
    have hstep : subSumChain weightBits actsPacked (n + 1) = subSumChain weightBits actsPacked n +
        if weightBits.getLsbD n then (actsPacked.extractLsb' (n * 8) 8).signExtend 14
        else -(actsPacked.extractLsb' (n * 8) 8).signExtend 14 := by
      simp only [subSumChain, List.range_succ, List.foldl_append, List.foldl_cons, List.foldl_nil]
    rw [hnext]
    refine ⟨?_, by omega, by omega⟩
    rw [hstep, BitVec.toInt_add, hsum, toInt_term]
    apply Int.bmod_eq_of_le <;> omega

/-- The adder chain has room for the sum. -/
theorem subSum_toInt (weightBits : BitVec 32) (actsPacked : BitVec 256) :
    (subSum weightBits actsPacked).toInt = signedSum weightBits actsPacked :=
  (subSumChain_toInt weightBits actsPacked (Nat.le_refl 32)).1

theorem signedSum_bound (weightBits : BitVec 32) (actsPacked : BitVec 256) :
    -4096 ≤ signedSum weightBits actsPacked ∧ signedSum weightBits actsPacked ≤ 4096 :=
  (subSumChain_toInt weightBits actsPacked (Nat.le_refl 32)).2

theorem subSum_eq (weightBits : BitVec 32) (actsPacked : BitVec 256) :
    subSum weightBits actsPacked = BitVec.ofInt 14 (signedSum weightBits actsPacked) := by
  rw [← subSum_toInt, BitVec.ofInt_toInt]

/-- The contribution of one sub-block to one lane. -/
def contribution (weightScale actScale : Fp16) (weightBits : BitVec 32)
    (actsPacked : BitVec 256) : Fp32 :=
  fp32Mul (fp32Mul (fp16ToFp32 weightScale) (fp16ToFp32 actScale))
    (intToFp32 (BitVec.ofInt 14 (signedSum weightBits actsPacked)))

end Q1a8
