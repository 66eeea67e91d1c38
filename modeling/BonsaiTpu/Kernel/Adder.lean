-- SUMMARY: The truncating adder of the PL kernel against rounding toward zero (`fp32_add.v`).
import BonsaiTpu.Base.Floats
import BonsaiTpu.Kernel.Datapath

/-!
# The adder

`fp32_add` shifts the operand with the smaller exponent to the place of the other one
and drops what goes out. A sum of two signs then rounds toward zero. A difference is
taken from an operand that has become too small, so that it rounds away from zero
whenever something was dropped, by far more than one place if the rest cancels.
-/

namespace Q1a8

open Floats

/-! ## The leading one -/

theorem log2_add_two_pow {m n : Nat} (h : m < 2 ^ n) : (m + 2 ^ n).log2 = n := by
  have hne : m + 2 ^ n ≠ 0 := by
    have := Nat.two_pow_pos n
    omega
  have hlo := (Nat.le_log2 hne).mpr (Nat.le_add_left (2 ^ n) m)
  have hhi := (Nat.log2_lt hne).mpr (show m + 2 ^ n < 2 ^ (n + 1) by rw [Nat.pow_succ]; omega)
  omega

/-- The search ends at the logarithm. -/
theorem leadPos_toNat {w : Nat} (hw : w ≤ 32) (x : BitVec w) :
    (leadPos x).toNat = x.toNat.log2 := by
  have key : ∀ n ≤ w,
      ((List.range n).foldl (fun pos i =>
        if x.getLsbD i then BitVec.ofNat 5 i else pos) 0#5).toNat =
      (x.toNat % 2 ^ n).log2 := by
    intro n hn
    induction n with
    | zero => rw [Nat.pow_zero, Nat.mod_one]; rfl
    | succ n ih =>
      have hlt : x.toNat % 2 ^ n < 2 ^ n := Nat.mod_lt _ (Nat.two_pow_pos n)
      have hbit : x.getLsbD n = decide (x.toNat / 2 ^ n % 2 = 1) := Nat.testBit_eq_decide_div_mod_eq
      rw [List.range_succ, List.foldl_append, List.foldl_cons, List.foldl_nil,
        Nat.mod_pow_succ, hbit]
      rcases Nat.mod_two_eq_zero_or_one (x.toNat / 2 ^ n) with h | h
      · rw [h, if_neg (by decide), Nat.mul_zero, Nat.add_zero, ih (by omega)]
      · rw [h, if_pos (by decide), Nat.mul_one, log2_add_two_pow hlt, BitVec.toNat_ofNat,
          Nat.mod_eq_of_lt (by omega)]
  rw [leadPos, key w (Nat.le_refl w), Nat.mod_eq_of_lt x.isLt]

/-- A number shifted left until its leading one is in place `w`. -/
theorem normalised_bounds {n w : Nat} (hne : n ≠ 0) (hle : n.log2 ≤ w) :
    2 ^ w ≤ n * 2 ^ (w - n.log2) ∧ n * 2 ^ (w - n.log2) < 2 ^ (w + 1) := by
  constructor
  · calc 2 ^ w = 2 ^ n.log2 * 2 ^ (w - n.log2) := by rw [← Nat.pow_add]; congr 1; omega
      _ ≤ n * 2 ^ (w - n.log2) := Nat.mul_le_mul_right _ (Nat.log2_self_le hne)
  · calc n * 2 ^ (w - n.log2) < 2 ^ (n.log2 + 1) * 2 ^ (w - n.log2) :=
          Nat.mul_lt_mul_of_pos_right Nat.lt_log2_self (Nat.two_pow_pos _)
      _ = 2 ^ (w + 1) := by rw [← Nat.pow_add]; congr 1; omega

/-! ## The adder on aligned operands -/

/-- The part of `fp32_add` after the operands are ordered by their exponents. -/
def addAligned (signBig signSmall : BitVec 1) (expBig expSmall : BitVec 8)
    (mantBig mantSmall : BitVec 24) : Fp32 :=
  let expDiff := expBig - expSmall
  let mantSmallAligned : BitVec 24 := if expDiff > 24#8 then 0
    else mantSmall >>> expDiff.extractLsb' 0 5
  let smallMantBigger := decide (expDiff = 0 ∧ mantSmallAligned > mantBig)
  let m1 := if smallMantBigger then mantSmallAligned else mantBig
  let m2 := if smallMantBigger then mantBig else mantSmallAligned
  let resultSign := if smallMantBigger then signSmall else signBig
  let mantSum : BitVec 25 :=
    if signBig = signSmall then m1.setWidth 25 + m2.setWidth 25 else m1.setWidth 25 - m2.setWidth 25
  let pos := leadPos mantSum
  let shiftRight := decide (pos > 23#5)
  let rightAmount := if shiftRight then pos - 23#5 else 0#5
  let leftAmount := if pos < 23#5 then 23#5 - pos else 0#5
  let mantNormalized := if shiftRight then mantSum >>> rightAmount else mantSum <<< leftAmount
  let expSigned : BitVec 10 :=
    if shiftRight then expBig.setWidth 10 + rightAmount.setWidth 10
    else expBig.setWidth 10 - leftAmount.setWidth 10
  if mantSum = 0 ∨ expSigned.toInt ≤ 0 then resultSign ++ 0#31
  else if expSigned.toInt ≥ 255 then resultSign ++ 0xFE#8 ++ 0x7FFFFF#23
  else resultSign ++ expSigned.extractLsb' 0 8 ++ mantNormalized.extractLsb' 0 23

theorem fp32Add_eq_addAligned {a b : Fp32} (ha : a.extractLsb' 23 8 ≠ 0)
    (hb : b.extractLsb' 23 8 ≠ 0) :
    fp32Add a b =
      if a.extractLsb' 23 8 ≥ b.extractLsb' 23 8 then
        addAligned (a.extractLsb' 31 1) (b.extractLsb' 31 1) (a.extractLsb' 23 8)
          (b.extractLsb' 23 8)
          (1#1 ++ a.extractLsb' 0 23) (1#1 ++ b.extractLsb' 0 23)
      else
        addAligned (b.extractLsb' 31 1) (a.extractLsb' 31 1) (b.extractLsb' 23 8)
          (a.extractLsb' 23 8)
          (1#1 ++ b.extractLsb' 0 23) (1#1 ++ a.extractLsb' 0 23) := by
  rw [fp32Add]
  simp only [ha, hb, if_false]
  by_cases h : a.extractLsb' 23 8 ≥ b.extractLsb' 23 8
  · simp only [h, decide_true, if_true]
    rfl
  · simp only [h, decide_false, if_false, Bool.false_eq_true]
    rfl

/-- The sum, or the difference, of the aligned mantissas. -/
def alignedSum (same : Bool) (mb al : Nat) : Nat := if same then mb + al else max mb al - min mb al

/-- What stands below the sign of the result: the sum at the exponent `eb`, normalised. -/
def addPayload (eb sum : Nat) : Nat :=
  if sum = 0 then 0
  else if sum < 2 ^ 24 then
    if eb + sum.log2 ≤ 23 then 0 else (eb + sum.log2 - 24) * 2 ^ 23 + sum * 2 ^ (23 - sum.log2)
  else if 254 ≤ eb then 254 * 2 ^ 23 + (2 ^ 23 - 1)
  else eb * 2 ^ 23 + sum / 2

section

variable {signBig signSmall : BitVec 1} {expBig expSmall : BitVec 8} {mantBig mantSmall : BitVec 24}

/-- The smaller operand loses the bits below the last place of the other one. -/
theorem toNat_aligned (mantSmall : BitVec 24) (hle : expSmall.toNat ≤ expBig.toNat) :
    (if expBig - expSmall > 24#8 then 0 else mantSmall >>>
      (expBig - expSmall).extractLsb' 0 5).toNat =
      mantSmall.toNat / 2 ^ (expBig.toNat - expSmall.toNat) := by
  have hdiff : (expBig - expSmall).toNat = expBig.toNat - expSmall.toNat :=
    BitVec.toNat_sub_of_le hle
  split
  · next hfar =>
    rw [gt_iff_lt, BitVec.lt_def, hdiff] at hfar
    have hpow : 2 ^ 24 ≤ 2 ^ (expBig.toNat - expSmall.toNat) :=
      Nat.pow_le_pow_right (by decide) (Nat.le_of_lt hfar)
    rw [Nat.div_eq_of_lt (Nat.lt_of_lt_of_le mantSmall.isLt hpow)]
    rfl
  · next hnear =>
    rw [gt_iff_lt, BitVec.lt_def, hdiff, Nat.not_lt] at hnear
    have hamount : ((expBig - expSmall).extractLsb' 0 5).toNat = expBig.toNat - expSmall.toNat := by
      have hnear' : expBig.toNat - expSmall.toNat ≤ 24 := hnear
      rw [toNat_extractLsb'_eq, Nat.pow_zero, Nat.div_one, hdiff]
      omega
    rw [BitVec.ushiftRight_eq', BitVec.toNat_ushiftRight, Nat.shiftRight_eq_div_pow, hamount]

theorem toNat_mantSum {m1 m2 : BitVec 24} {same : Bool} (hsame : signBig = signSmall ↔ same = true)
    (hle : m2.toNat ≤ m1.toNat) :
    (if signBig = signSmall then m1.setWidth 25 + m2.setWidth 25 else m1.setWidth 25 -
      m2.setWidth 25 : BitVec 25).toNat =
      alignedSum same m1.toNat m2.toNat := by
  have h1 : (m1.setWidth 25).toNat = m1.toNat := by
    rw [BitVec.toNat_setWidth, Nat.mod_eq_of_lt (by omega)]
  have h2 : (m2.setWidth 25).toNat = m2.toNat := by
    rw [BitVec.toNat_setWidth, Nat.mod_eq_of_lt (by omega)]
  rw [alignedSum]
  by_cases h : same = true
  · rw [if_pos (hsame.mpr h), if_pos h, BitVec.toNat_add, h1, h2, Nat.mod_eq_of_lt (by omega)]
  · rw [if_neg fun hs => h (hsame.mp hs), if_neg h,
      BitVec.toNat_sub_of_le (by rw [BitVec.le_def, h1, h2]; exact hle), h1, h2,
      Nat.max_eq_left hle, Nat.min_eq_right hle]

theorem alignedSum_comm (same : Bool) (m n : Nat) : alignedSum same m n = alignedSum same n m := by
  rw [alignedSum, alignedSum, Nat.add_comm, Nat.max_comm, Nat.min_comm]

theorem alignedSum_of_lt {m n : Nat} (h : n < m) : alignedSum false m n = m - n := by
  rw [alignedSum, if_neg Bool.false_ne_true, Nat.max_eq_left (Nat.le_of_lt h),
    Nat.min_eq_right (Nat.le_of_lt h)]

/-- The leading bit of a sum with a carry. -/
theorem log2_carry {sum : Nat} (hge : 2 ^ 24 ≤ sum) (hlt : sum < 2 ^ 25) : sum.log2 = 24 := by
  have hne : sum ≠ 0 := by omega
  have hlow := (Nat.le_log2 hne).mpr hge
  have hhigh := (Nat.log2_lt hne).mpr hlt
  omega

theorem toNat_expBig (expBig : BitVec 8) : (expBig.setWidth 10).toNat = expBig.toNat := by
  rw [BitVec.toNat_setWidth, Nat.mod_eq_of_lt (by omega)]

section

variable {resultSign : BitVec 1} {neg : Bool} {mantSum : BitVec 25}
    (hsign : resultSign.toNat = neg.toNat)

include hsign

theorem toNat_signedZero : (resultSign ++ 0#31).toNat = binary32.pattern neg 0 := by
  have hplace : binary32.signPlace = 2 ^ 31 := rfl
  rw [toNat_append_eq, hsign, Format.pattern, hplace, BitVec.toNat_zero]

/-- Without a carry the sum moves left by what is missing to bit 23. -/
theorem toNat_normalised_left (hexp : expBig.toNat ≤ 254) (hne : mantSum.toNat ≠ 0)
    (hp : mantSum.toNat.log2 ≤ 23)
    {left : BitVec 5} (hleft : left.toNat = 23 - mantSum.toNat.log2) :
    (if (expBig.setWidth 10 - left.setWidth 10).toInt ≤ 0 then resultSign ++ 0#31
      else if (expBig.setWidth 10 - left.setWidth 10).toInt ≥ 255 then
        resultSign ++ 0xFE#8 ++ 0x7FFFFF#23
      else resultSign ++ (expBig.setWidth 10 - left.setWidth 10).extractLsb' 0 8 ++
        (mantSum <<< left).extractLsb' 0 23 :
        BitVec 32).toNat =
      binary32.pattern neg
        (if expBig.toNat + mantSum.toNat.log2 ≤ 23 then 0
          else (expBig.toNat + mantSum.toNat.log2 - 24) * 2 ^ 23 +
            mantSum.toNat * 2 ^ (23 - mantSum.toNat.log2)) := by
  have hbig := toNat_expBig expBig
  have hleft' : (left.setWidth 10).toNat = 23 - mantSum.toNat.log2 := by
    rw [BitVec.toNat_setWidth, hleft, Nat.mod_eq_of_lt (by omega)]
  have hexpInt : (expBig.setWidth 10 - left.setWidth 10).toInt =
      expBig.toNat - (23 - mantSum.toNat.log2 : Int) := by
    rw [BitVec.toInt_sub, BitVec.toInt_eq_toNat_of_lt (by omega),
      BitVec.toInt_eq_toNat_of_lt (by omega), hbig, hleft',
      Nat.cast_sub hp]
    exact Int.bmod_eq_of_le (by omega) (by omega)
  obtain ⟨hstart, hend⟩ := normalised_bounds hne hp
  have hmant : (mantSum <<< left).toNat = mantSum.toNat * 2 ^ (23 - mantSum.toNat.log2) := by
    rw [BitVec.shiftLeft_eq', BitVec.toNat_shiftLeft, Nat.shiftLeft_eq, hleft,
      Nat.mod_eq_of_lt (by omega)]
  rw [hexpInt]
  by_cases hflush : expBig.toNat + mantSum.toNat.log2 ≤ 23
  · rw [if_pos (by omega), if_pos hflush]
    exact toNat_signedZero hsign
  · have hexp' : (expBig.setWidth 10 - left.setWidth 10).toNat =
        expBig.toNat - (23 - mantSum.toNat.log2) := by
      rw [BitVec.toNat_sub_of_le (by rw [BitVec.le_def, hbig, hleft']; omega), hbig, hleft']
    rw [if_neg (by omega), if_neg (by omega), if_neg hflush, toNat_float hsign,
      toNat_extractLsb'_eq, toNat_extractLsb'_eq, hexp', hmant, Nat.pow_zero, Nat.div_one,
      Nat.div_one, Format.pattern, Format.pattern, Nat.add_left_cancel_iff]
    generalize mantSum.toNat * 2 ^ (23 - mantSum.toNat.log2) = full at hstart hend ⊢
    omega

/-- With a carry it moves one place to the right. -/
theorem toNat_normalised_right (hexp : expBig.toNat ≤ 254) (hcarry : 2 ^ 24 ≤ mantSum.toNat) :
    (if (expBig.setWidth 10 + 1#10).toInt ≤ 0 then resultSign ++ 0#31
      else if (expBig.setWidth 10 + 1#10).toInt ≥ 255 then resultSign ++ 0xFE#8 ++ 0x7FFFFF#23
      else resultSign ++ (expBig.setWidth 10 + 1#10).extractLsb' 0 8 ++
        (mantSum >>> 1).extractLsb' 0 23 : BitVec 32).toNat =
      binary32.pattern neg
        (if 254 ≤ expBig.toNat then 254 * 2 ^ 23 + (2 ^ 23 - 1) else expBig.toNat * 2 ^ 23 +
          mantSum.toNat / 2) := by
  have hexp' : (expBig.setWidth 10 + 1#10).toNat = expBig.toNat + 1 := by
    rw [BitVec.toNat_add, toNat_expBig, BitVec.toNat_ofNat]
    omega
  have hexpInt : (expBig.setWidth 10 + 1#10).toInt = expBig.toNat + 1 := by
    rw [BitVec.toInt_eq_toNat_of_lt (by omega), hexp']
    rfl
  rw [hexpInt, if_neg (by omega)]
  by_cases hsat : 254 ≤ expBig.toNat
  · rw [if_pos (by omega), if_pos hsat, toNat_float hsign]
    rfl
  · rw [if_neg (by omega), if_neg hsat, toNat_float hsign, toNat_extractLsb'_eq,
      toNat_extractLsb'_eq, hexp', BitVec.toNat_ushiftRight, Nat.shiftRight_eq_div_pow,
      Nat.pow_zero, Nat.div_one, Nat.div_one, Nat.pow_one, Format.pattern, Format.pattern,
      Nat.add_left_cancel_iff]
    omega

/-- The normalisation of a sum. -/
theorem toNat_normalised (hexp : 1 ≤ expBig.toNat ∧ expBig.toNat ≤ 254) :
    (let pos := leadPos mantSum
     let shiftRight := decide (pos > 23#5)
     let rightAmount := if shiftRight then pos - 23#5 else 0#5
     let leftAmount := if pos < 23#5 then 23#5 - pos else 0#5
     let mantNormalized := if shiftRight then mantSum >>> rightAmount else mantSum <<< leftAmount
     let expSigned : BitVec 10 :=
      if shiftRight then expBig.setWidth 10 + rightAmount.setWidth 10
      else expBig.setWidth 10 - leftAmount.setWidth 10
     if mantSum = 0 ∨ expSigned.toInt ≤ 0 then resultSign ++ 0#31
     else if expSigned.toInt ≥ 255 then resultSign ++ 0xFE#8 ++ 0x7FFFFF#23
     else resultSign ++ expSigned.extractLsb' 0 8 ++
       mantNormalized.extractLsb' 0 23 : BitVec 32).toNat =
      binary32.pattern neg (addPayload expBig.toNat mantSum.toNat) := by
  have hpos := leadPos_toNat (by decide) mantSum
  have hsum0 : mantSum = 0 ↔ mantSum.toNat = 0 := by
    rw [← BitVec.toNat_inj]
    rfl
  rw [addPayload]
  by_cases hne : mantSum.toNat = 0
  · rw [if_pos hne]
    simp only [hsum0, hne, true_or, if_true]
    exact toNat_signedZero hsign
  simp only [hsum0, hne, false_or, if_false]
  by_cases hcarry : mantSum.toNat < 2 ^ 24
  · have hp : mantSum.toNat.log2 ≤ 23 := Nat.le_of_lt_succ ((Nat.log2_lt hne).mpr hcarry)
    have hnot : ¬leadPos mantSum > 23#5 := by
      rw [gt_iff_lt, BitVec.lt_def, hpos]
      exact Nat.not_lt.mpr hp
    have hleft : (if leadPos mantSum < 23#5 then 23#5 - leadPos mantSum else 0#5).toNat =
        23 - mantSum.toNat.log2 := by
      split
      · next hlt => exact (BitVec.toNat_sub_of_le (BitVec.le_of_lt hlt)).trans (by rw [hpos]; rfl)
      · next hge =>
        rw [BitVec.lt_def, hpos, Nat.not_lt] at hge
        have hge' : 23 ≤ mantSum.toNat.log2 := hge
        rw [BitVec.toNat_zero]
        omega
    simp only [hnot, decide_false, Bool.false_eq_true, if_false, if_pos hcarry]
    exact toNat_normalised_left hsign hexp.2 hne hp hleft
  · have hlead : leadPos mantSum = 24#5 :=
      BitVec.eq_of_toNat_eq (by rw [hpos, log2_carry (Nat.not_lt.mp hcarry) mantSum.isLt]; rfl)
    rw [if_neg hcarry, hlead]
    exact toNat_normalised_right hsign hexp.2 (Nat.not_lt.mp hcarry)

end

/-- The adder by the fields of its operands: the operand with the larger mantissa gives the sign. -/
theorem addAligned_toNat {negBig negSmall : Bool} (hle : expSmall.toNat ≤ expBig.toNat)
    (hexp : 1 ≤ expBig.toNat ∧ expBig.toNat ≤ 254) (hmant : 2 ^ 23 ≤ mantBig.toNat)
    (hbig : signBig.toNat = negBig.toNat) (hsmall : signSmall.toNat = negSmall.toNat) :
    (addAligned signBig signSmall expBig expSmall mantBig mantSmall).toNat =
      binary32.pattern
        (if mantBig.toNat < mantSmall.toNat / 2 ^ (expBig.toNat - expSmall.toNat)
          then negSmall else negBig)
        (addPayload expBig.toNat
          (alignedSum (negBig == negSmall) mantBig.toNat
            (mantSmall.toNat / 2 ^ (expBig.toNat - expSmall.toNat)))) := by
  have haligned := toNat_aligned mantSmall hle
  have hsame : signBig = signSmall ↔ (negBig == negSmall) = true := by
    rw [← BitVec.toNat_inj, hbig, hsmall, beq_iff_eq]
    cases negBig <;> cases negSmall <;> decide
  rw [addAligned]
  generalize (if expBig - expSmall > 24#8 then 0 else mantSmall >>>
    (expBig - expSmall).extractLsb' 0 5) = al at haligned ⊢
  have hcond : (expBig - expSmall = 0 ∧ al > mantBig) ↔
      mantBig.toNat < mantSmall.toNat / 2 ^ (expBig.toNat - expSmall.toNat) := by
    have hdiff : (expBig - expSmall).toNat = expBig.toNat - expSmall.toNat :=
      BitVec.toNat_sub_of_le hle
    have hzero : expBig - expSmall = 0 ↔ expBig.toNat - expSmall.toNat = 0 := by
      rw [← BitVec.toNat_inj, hdiff]
      rfl
    rw [hzero, gt_iff_lt, BitVec.lt_def, haligned]
    refine and_iff_right_of_imp fun hlt => ?_
    by_contra hne
    -- a shifted mantissa has lost its leading one
    have hpow : 2 ^ 1 ≤ 2 ^ (expBig.toNat - expSmall.toNat) :=
      Nat.pow_le_pow_right (by decide) (by omega)
    have hhalf : mantSmall.toNat / 2 ^ (expBig.toNat - expSmall.toNat) ≤ mantSmall.toNat / 2 :=
      Nat.div_le_div_left hpow (by decide)
    have hlt24 := mantSmall.isLt
    omega
  by_cases hbigger : mantBig.toNat < mantSmall.toNat / 2 ^ (expBig.toNat - expSmall.toNat)
  · simp only [hcond.mpr hbigger, and_self, decide_true, if_true, if_pos hbigger]
    rw [toNat_normalised hsmall hexp,
      toNat_mantSum hsame (by rw [haligned]; exact Nat.le_of_lt hbigger), haligned,
      alignedSum_comm]
  · have hnot : ¬(expBig - expSmall = 0 ∧ al > mantBig) := fun h => hbigger (hcond.mp h)
    simp only [hnot, decide_false, Bool.false_eq_true, if_false, if_neg hbigger]
    rw [toNat_normalised hbig hexp,
      toNat_mantSum hsame (by rw [haligned]; exact Nat.not_lt.mp hbigger), haligned]

end

/-! ## Truncation -/

/-- The pattern of a magnitude rounded toward zero, in units of the least subnormal number:
    nothing is left of what is no normal number, and the greatest one stands for what is
    beyond. -/
structure TruncatesTo (y n : Nat) : Prop where
  flush : y < 2 ^ 23 → n = 0
  saturate : 2 ^ 24 * 2 ^ 253 ≤ y → n = 254 * 2 ^ 23 + (2 ^ 23 - 1)
  normal : 2 ^ 23 ≤ y → y < 2 ^ 24 * 2 ^ 253 → n < 255 * 2 ^ 23 ∧
    ∃ c k, 2 ^ 23 ≤ c ∧ c < 2 ^ 24 ∧ mag 23 n = c * 2 ^ k ∧ c * 2 ^ k ≤ y ∧ y < (c + 1) * 2 ^ k

section

variable {eb sum y : Nat}

/-- A sum with no carry is kept, unless it is no normal number. -/
theorem addPayload_of_lt (heb : 1 ≤ eb ∧ eb ≤ 254) (hlt : sum < 2 ^ 24) :
    (sum * 2 ^ (eb - 1) < 2 ^ 23 ∧ addPayload eb sum = 0) ∨
      2 ^ 23 ≤ sum * 2 ^ (eb - 1) ∧ addPayload eb sum < 255 * 2 ^ 23 ∧
        sum * 2 ^ (eb - 1) < 2 ^ 24 * 2 ^ 253 ∧
        ∃ c k, 2 ^ 23 ≤ c ∧ c < 2 ^ 24 ∧ k ≤ eb - 1 ∧ mag 23 (addPayload eb sum) = c * 2 ^ k ∧
        c * 2 ^ k = sum * 2 ^ (eb - 1) := by
  rw [addPayload]
  rcases Nat.eq_zero_or_pos sum with rfl | hpos
  · left
    rw [if_pos rfl, Nat.zero_mul]
    exact ⟨by decide, rfl⟩
  have hne : sum ≠ 0 := by omega
  have hlo : 2 ^ sum.log2 ≤ sum := Nat.log2_self_le hne
  have hhi : sum < 2 ^ (sum.log2 + 1) := Nat.lt_log2_self
  have hp : sum.log2 ≤ 23 := Nat.le_of_lt_succ ((Nat.log2_lt hne).mpr hlt)
  rw [if_neg hne, if_pos hlt]
  by_cases hflush : eb + sum.log2 ≤ 23
  · left
    rw [if_pos hflush]
    refine ⟨?_, rfl⟩
    calc sum * 2 ^ (eb - 1) < 2 ^ (sum.log2 + 1) *
          2 ^ (eb - 1) := Nat.mul_lt_mul_of_pos_right hhi (Nat.two_pow_pos _)
      _ = 2 ^ (sum.log2 + eb) := by rw [← Nat.pow_add]; congr 1; omega
      _ ≤ 2 ^ 23 := Nat.pow_le_pow_right (by decide) (by omega)
  · right
    rw [if_neg hflush]
    obtain ⟨hstart, hend⟩ := normalised_bounds hne hp
    have hplace : sum * 2 ^ (23 - sum.log2) * 2 ^ (eb + sum.log2 - 24) = sum * 2 ^ (eb - 1) := by
      rw [Nat.mul_assoc, ← Nat.pow_add]
      congr 2
      omega
    refine ⟨?_, by omega, ?_, sum * 2 ^ (23 - sum.log2), eb + sum.log2 - 24, hstart, hend,
      by omega, ?_, hplace⟩
    · calc 2 ^ 23 = 2 ^ 23 * 1 := rfl
        _ ≤ sum * 2 ^ (23 - sum.log2) * 2 ^ (eb + sum.log2 - 24) :=
          Nat.mul_le_mul hstart (Nat.two_pow_pos _)
        _ = sum * 2 ^ (eb - 1) := hplace
    · calc sum * 2 ^ (eb - 1) < 2 ^ 24 * 2 ^ (eb - 1) :=
            Nat.mul_lt_mul_of_pos_right hlt (Nat.two_pow_pos _)
        _ ≤ 2 ^ 24 * 2 ^ 253 := Nat.mul_le_mul_left _ (Nat.pow_le_pow_right (by decide) (by omega))
    · exact mag_pack (.inr hstart) (Nat.le_of_lt hend)

theorem addPayload_lt (heb : 1 ≤ eb ∧ eb ≤ 254) (hsum : sum < 2 ^ 25) :
    addPayload eb sum < 255 * 2 ^ 23 := by
  by_cases hcarry : sum < 2 ^ 24
  · rcases addPayload_of_lt heb hcarry with ⟨-, hzero⟩ | ⟨-, hlt, -⟩
    · rw [hzero]
      decide
    · exact hlt
  · rw [addPayload, if_neg (by omega), if_neg hcarry]
    split <;> omega

/-- What is cut off below the place of a sum is cut off toward zero. -/
theorem truncatesTo_addPayload (heb : 1 ≤ eb ∧ eb ≤ 254) (hsum : sum < 2 ^ 25)
    (hexact : sum * 2 ^ (eb - 1) = y ∨ 2 ^ 23 ≤ sum)
    (hlo : sum * 2 ^ (eb - 1) ≤ y) (hhi : y < (sum + 1) * 2 ^ (eb - 1)) :
    TruncatesTo y (addPayload eb sum) := by
  have hpos : 1 ≤ 2 ^ (eb - 1) := Nat.two_pow_pos _
  have hle : 2 ^ (eb - 1) ≤ 2 ^ 253 := Nat.pow_le_pow_right (by decide) (by omega)
  -- without a carry the sum keeps its exponent or is shifted up; with one it is shifted down
  by_cases hcarry : sum < 2 ^ 24
  · have hbelow : y < 2 ^ 24 * 2 ^ 253 :=
      Nat.lt_of_lt_of_le hhi (Nat.mul_le_mul hcarry hle)
    rcases addPayload_of_lt heb hcarry with ⟨hflush, hzero⟩ |
      ⟨hnormal, hfinite, -, c, k, hc, hc', hk, hmag, hplace⟩
    · have hexact' : sum * 2 ^ (eb - 1) = y := by
        refine hexact.resolve_right fun hlarge => ?_
        have := Nat.mul_le_mul hlarge hpos
        omega
      exact ⟨fun _ => hzero, fun h => absurd h (by omega), fun h => absurd h (by omega)⟩
    · refine ⟨fun h => absurd h (by omega), fun h => absurd h (by omega), fun _ _ =>
        ⟨hfinite, c, k, hc, hc', hmag, by omega, ?_⟩⟩
      rcases hexact with heq | hlarge
      · rw [Nat.succ_mul, hplace, heq]
        exact Nat.lt_add_of_pos_right (Nat.two_pow_pos k)
      · -- a sum that fills its place is not shifted
        have hkeq : k = eb - 1 := by
          by_contra hne
          have hsplit : 2 ^ (eb - 1) = 2 ^ (eb - 1 - k) * 2 ^ k := by
            rw [← Nat.pow_add]; congr 1; omega
          have hceq : c = sum * 2 ^ (eb - 1 - k) := by
            rw [hsplit, ← Nat.mul_assoc] at hplace
            exact Nat.eq_of_mul_eq_mul_right (Nat.two_pow_pos k) hplace
          have htwo : 2 ^ 1 ≤ 2 ^ (eb - 1 - k) := Nat.pow_le_pow_right (by decide) (by omega)
          have := Nat.mul_le_mul hlarge htwo
          omega
        rw [hkeq] at hplace ⊢
        rw [Nat.eq_of_mul_eq_mul_right (Nat.two_pow_pos _) hplace]
        exact hhi
  · have hlarge : 2 ^ 24 * 2 ^ (eb - 1) ≤ y :=
      Nat.le_trans (Nat.mul_le_mul_right _ (Nat.not_lt.mp hcarry)) hlo
    rw [addPayload, if_neg (by omega), if_neg hcarry]
    -- the largest exponent saturates
    by_cases hsat : 254 ≤ eb
    · obtain rfl : eb = 254 := by omega
      rw [if_pos (Nat.le_refl _)]
      exact ⟨fun h => absurd h (by omega), fun _ => rfl, fun _ h =>
        absurd h (Nat.not_lt.mpr hlarge)⟩
    · have htwo : 2 ^ eb = 2 * 2 ^ (eb - 1) := by rw [← Nat.pow_succ']; congr 1; omega
      have hbelow : y < 2 ^ 24 * 2 ^ 253 := by
        have hle : 2 ^ (eb - 1) ≤ 2 ^ 252 := Nat.pow_le_pow_right (by decide) (by omega)
        calc y < (sum + 1) * 2 ^ (eb - 1) := hhi
          _ ≤ 2 ^ 25 * 2 ^ 252 := Nat.mul_le_mul hsum hle
          _ = 2 ^ 24 * 2 ^ 253 := by decide
      rw [if_neg hsat]
      refine ⟨fun h => absurd h (by omega), fun h => absurd h (by omega), fun _ _ =>
        ⟨by omega, sum / 2, eb, by omega, by omega, mag_pack (.inr (by omega)) (by omega), ?_, ?_⟩⟩
      · calc sum / 2 * 2 ^ eb = sum / 2 * 2 * 2 ^ (eb - 1) := by rw [htwo, Nat.mul_assoc]
          _ ≤ sum * 2 ^ (eb - 1) := Nat.mul_le_mul_right _ (by omega)
          _ ≤ y := hlo
      · calc y < (sum + 1) * 2 ^ (eb - 1) := hhi
          _ ≤ (sum / 2 + 1) * 2 * 2 ^ (eb - 1) := Nat.mul_le_mul_right _ (by omega)
          _ = (sum / 2 + 1) * 2 ^ eb := by rw [htwo, Nat.mul_assoc]

end

/-! ## Rounding toward zero -/

/-- The float is the number rounded toward zero to 24 bits, with zero for what is below the
    normal numbers and the greatest one for what is above them. -/
structure RoundsTowardZero (x : ℚ) (r : Fp32) : Prop where
  finite : binary32.IsFinite r.toNat
  flush : |x| < 2 ^ (-126 : ℤ) → binary32.value r.toNat = 0
  saturate : 2 ^ (128 : ℤ) ≤ |x| →
    r.toNat = binary32.pattern (decide (x < 0)) (254 * 2 ^ 23 + (2 ^ 23 - 1))
  normal : 2 ^ (-126 : ℤ) ≤ |x| → |x| < 2 ^ (128 : ℤ) →
    ∃ (c : Nat) (k : ℤ), 2 ^ 23 ≤ c ∧ c < 2 ^ 24 ∧
      binary32.value r.toNat = signed (decide (x < 0)) (c * 2 ^ k) ∧
      c * 2 ^ k ≤ |x| ∧ |x| < (c + 1) * 2 ^ k

theorem signed_neg_iff {neg : Bool} {q : ℚ} (hq : 0 < q) : decide (signed neg q < 0) = neg := by
  cases neg with
  | false => exact decide_eq_false (not_lt.mpr hq.le)
  | true => exact decide_eq_true (neg_neg_of_pos hq)

theorem abs_signed {neg : Bool} {q : ℚ} (hq : 0 ≤ q) : |signed neg q| = q := by
  cases neg with
  | false => exact abs_of_nonneg hq
  | true => exact (abs_neg q).trans (abs_of_nonneg hq)

/-- The bounds of the normal numbers in units of the least subnormal one. -/
theorem normal_bounds :
    (2 : ℚ) ^ (-126 : ℤ) = ((2 ^ 23 : Nat) : ℚ) * binary32.unit ∧
      (2 : ℚ) ^ (128 : ℤ) = ((2 ^ 24 * 2 ^ 253 : Nat) : ℚ) * binary32.unit := by
  rw [unit_binary32]
  constructor
  · norm_num
  · rw [Nat.cast_mul, Nat.cast_pow, Nat.cast_pow, ← zpow_natCast, ← zpow_natCast, Nat.cast_ofNat,
      ← zpow_add₀ (by norm_num), ← zpow_add₀ (by norm_num)]
    norm_num

section

variable {neg : Bool} {y n : Nat} {r : Fp32}

theorem TruncatesTo.roundsTowardZero (h : TruncatesTo y n) (hn : n < 2 ^ 31)
    (hr : r.toNat = binary32.pattern neg n) :
    RoundsTowardZero (signed neg (y * binary32.unit)) r := by
  have hu : 0 < binary32.unit := Format.unit_pos
  have habs : |signed neg (y * binary32.unit)| = y * binary32.unit := abs_signed (by positivity)
  have hpayload : binary32.payload r.toNat = n := by rw [hr, Format.payload_pattern hn]
  have hsign : binary32.sign r.toNat = neg := by rw [hr, Format.sign_pattern hn]
  have hlow : |signed neg (y * binary32.unit)| < 2 ^ (-126 : ℤ) ↔ y < 2 ^ 23 := by
    rw [habs, normal_bounds.1, mul_lt_mul_iff_left₀ hu, Nat.cast_lt]
  have hhigh : 2 ^ (128 : ℤ) ≤ |signed neg (y * binary32.unit)| ↔ 2 ^ 24 * 2 ^ 253 ≤ y := by
    rw [habs, normal_bounds.2, mul_le_mul_iff_left₀ hu, Nat.cast_le]
  have hpos : 2 ^ 23 ≤ y → decide (signed neg (y * binary32.unit) < 0) = neg := by
    intro hy
    have hcast : (0 : ℚ) < y := by
      have : 0 < y := by omega
      exact_mod_cast this
    exact signed_neg_iff (by positivity)
  have hvalue : binary32.value r.toNat = signed neg (mag 23 n * binary32.unit) := by
    rw [Format.value, hsign, Format.magnitude, hpayload]
    rfl
  have hfinite : n < 255 * 2 ^ 23 := by
    rcases Nat.lt_or_ge y (2 ^ 23) with hy | hy
    · rw [h.flush hy]
      decide
    · rcases Nat.lt_or_ge y (2 ^ 24 * 2 ^ 253) with hy' | hy'
      · exact (h.normal hy hy').1
      · rw [h.saturate hy']
        decide
  -- finite; below the normal numbers; above them; and between
  refine ⟨?_, fun hx => ?_, fun hx => ?_, fun hx hx' => ?_⟩
  · rw [Format.IsFinite, hpayload]
    exact hfinite
  · rw [Format.value_eq_zero, Format.magnitude, hpayload, h.flush (hlow.mp hx)]
    decide
  · have hy := hhigh.mp hx
    rw [hpos (Nat.le_trans (by decide) hy), hr, h.saturate hy]
  · have hy := Nat.not_lt.mp (hlow.not.mp (not_lt.mpr hx))
    obtain ⟨-, c, k, hc, hc', hmag, hle, hlt⟩ :=
      h.normal hy (Nat.not_le.mp (hhigh.not.mp (not_le.mpr hx')))
    have hplace : ((c * 2 ^ k : Nat) : ℚ) * binary32.unit = c * 2 ^ ((k : ℤ) - 149) := by
      rw [unit_binary32, Nat.cast_mul, Nat.cast_pow, Nat.cast_ofNat, mul_assoc, ← zpow_natCast,
        ← zpow_add₀ (by norm_num)]
      rfl
    have hnext : (((c + 1) * 2 ^ k : Nat) : ℚ) * binary32.unit = (c + 1) * 2 ^ ((k : ℤ) - 149) := by
      rw [unit_binary32, Nat.cast_mul, Nat.cast_pow, Nat.cast_ofNat, mul_assoc, ← zpow_natCast,
        ← zpow_add₀ (by norm_num), Nat.cast_add, Nat.cast_one]
      rfl
    refine ⟨c, (k : ℤ) - 149, hc, hc', ?_, ?_, ?_⟩
    · rw [hvalue, hmag, hplace, hpos hy]
    · rw [habs, ← hplace, mul_le_mul_iff_left₀ hu, Nat.cast_le]
      exact hle
    · rw [habs, ← hnext, mul_lt_mul_iff_left₀ hu, Nat.cast_lt]
      exact hlt

/-- A sum of normal size that is beyond the exact one is not rounded toward zero. -/
theorem overshoot_iff {eb part sum : Nat} (heb : 1 ≤ eb ∧ eb ≤ 254) (hsum : sum < 2 ^ 24)
    (htoo : sum * 2 ^ (eb - 1) = y + part) (hpart : part ≠ 0) (hlt : addPayload eb sum < 2 ^ 31)
    (hr : r.toNat = binary32.pattern neg (addPayload eb sum)) :
    RoundsTowardZero (signed neg (y * binary32.unit)) r ↔
      |signed neg (y * binary32.unit)| + part * binary32.unit < 2 ^ (-126 : ℤ) := by
  have hu : 0 < binary32.unit := Format.unit_pos
  have habs : |signed neg (y * binary32.unit)| = y * binary32.unit := abs_signed (by positivity)
  have hmag : binary32.magnitude r.toNat = mag 23 (addPayload eb sum) := by
    rw [Format.magnitude, hr, Format.payload_pattern hlt]
    rfl
  have hcond : |signed neg (y * binary32.unit)| + part * binary32.unit < 2 ^ (-126 : ℤ) ↔
      y + part < 2 ^ 23 := by
    rw [habs, normal_bounds.1, ← add_mul, mul_lt_mul_iff_left₀ hu, ← Nat.cast_add, Nat.cast_lt]
  rw [hcond]
  rcases addPayload_of_lt heb hsum with ⟨hflush, hzero⟩ |
    ⟨hnormal, -, hbelow, c, k, -, -, -, hplace, hplace'⟩
  · rw [htoo] at hflush
    refine iff_of_true ?_ hflush
    have htrunc : TruncatesTo y (addPayload eb sum) :=
      ⟨fun _ => hzero, fun h => absurd h (by omega), fun h => absurd h (by omega)⟩
    exact htrunc.roundsTowardZero hlt hr
  · rw [htoo] at hnormal hbelow
    refine iff_of_false (fun hround => ?_) (by omega)
    have hvalue : |binary32.value r.toNat| = ((y + part : Nat) : ℚ) * binary32.unit := by
      rw [Format.abs_value, hmag, hplace, hplace', htoo]
    rcases lt_or_ge |signed neg (y * binary32.unit)| (2 ^ (-126 : ℤ)) with hlow | hge
    · rw [hround.flush hlow, abs_zero] at hvalue
      have hzero := (mul_eq_zero.mp hvalue.symm).resolve_right hu.ne'
      have : y + part = 0 := by exact_mod_cast hzero
      omega
    · have hhigh : |signed neg (y * binary32.unit)| < 2 ^ (128 : ℤ) := by
        rw [habs, normal_bounds.2, mul_lt_mul_iff_left₀ hu, Nat.cast_lt]
        omega
      obtain ⟨c, k, -, -, hrounded, hle, -⟩ := hround.normal hge hhigh
      rw [hrounded, abs_signed (by positivity)] at hvalue
      rw [hvalue, habs, mul_le_mul_iff_left₀ hu, Nat.cast_le] at hle
      omega

end

/-! ## The sum of two floats -/

section

variable {eb es mb ms : Nat}

/-- The operand with the smaller exponent, cut at the place of the other one. -/
theorem aligned_add_dropped (ms : Nat) (hle : es ≤ eb) (hes : 1 ≤ es) :
    ms / 2 ^ (eb - es) * 2 ^ (eb - 1) + ms % 2 ^ (eb - es) * 2 ^ (es - 1) = ms * 2 ^ (es - 1) ∧
      ms % 2 ^ (eb - es) * 2 ^ (es - 1) < 2 ^ (eb - 1) := by
  have hsplit : 2 ^ (eb - 1) = 2 ^ (eb - es) * 2 ^ (es - 1) := by rw [← Nat.pow_add]; congr 1; omega
  constructor
  · rw [hsplit, ← Nat.mul_assoc, ← Nat.add_mul, Nat.div_add_mod']
  · rw [hsplit]
    exact Nat.mul_lt_mul_of_pos_right (Nat.mod_lt _ (Nat.two_pow_pos _)) (Nat.two_pow_pos _)

/-- A mantissa that was shifted is below the other one. -/
theorem aligned_lt (hmb : 2 ^ 23 ≤ mb) (hms : ms < 2 ^ 24) (hlt : es < eb) :
    ms / 2 ^ (eb - es) < mb := by
  have hpow : 2 ^ 1 ≤ 2 ^ (eb - es) := Nat.pow_le_pow_right (by decide) (by omega)
  have hhalf : ms / 2 ^ (eb - es) ≤ ms / 2 := Nat.div_le_div_left hpow (by decide)
  omega

variable (heb : 1 ≤ eb ∧ eb ≤ 254) (hes : 1 ≤ es) (hle : es ≤ eb) (hmb : 2 ^ 23 ≤ mb)
    (hmb' : mb < 2 ^ 24) (hms : ms < 2 ^ 24)

include heb hes hle hmb hmb' hms

theorem truncatesTo_sum :
    TruncatesTo (mb * 2 ^ (eb - 1) + ms * 2 ^ (es - 1))
      (addPayload eb (alignedSum true mb (ms / 2 ^ (eb - es)))) := by
  obtain ⟨hsplit, hdropped⟩ := aligned_add_dropped ms hle hes
  have hal : ms / 2 ^ (eb - es) ≤ ms := Nat.div_le_self _ _
  rw [alignedSum, if_pos rfl]
  refine truncatesTo_addPayload heb (by omega)
    (.inr (Nat.le_trans hmb (Nat.le_add_right _ _))) ?_ ?_
  · rw [Nat.add_mul]
    omega
  · rw [Nat.add_mul, Nat.add_mul]
    omega

/-- A difference of which nothing was dropped is exact. -/
theorem truncatesTo_difference (hdropped : ms % 2 ^ (eb - es) = 0) :
    TruncatesTo (max (mb * 2 ^ (eb - 1)) (ms * 2 ^ (es - 1)) -
      min (mb * 2 ^ (eb - 1)) (ms * 2 ^ (es - 1)))
      (addPayload eb (alignedSum false mb (ms / 2 ^ (eb - es)))) := by
  obtain ⟨hsplit, -⟩ := aligned_add_dropped ms hle hes
  rw [hdropped, Nat.zero_mul, Nat.add_zero] at hsplit
  have hal : ms / 2 ^ (eb - es) ≤ ms := Nat.div_le_self _ _
  have hpos := Nat.two_pow_pos (eb - 1)
  have hexact : (max mb (ms / 2 ^ (eb - es)) - min mb (ms / 2 ^ (eb - es))) * 2 ^ (eb - 1) =
      max (mb * 2 ^ (eb - 1)) (ms * 2 ^ (es - 1)) -
        min (mb * 2 ^ (eb - 1)) (ms * 2 ^ (es - 1)) := by
    rw [← hsplit, Nat.mul_max_mul_right, Nat.mul_min_mul_right, Nat.sub_mul]
  rw [alignedSum, if_neg (by decide)]
  refine truncatesTo_addPayload heb ?_ (.inl hexact) (Nat.le_of_eq hexact) ?_
  · generalize ms / 2 ^ (eb - es) = al at hal ⊢
    omega
  · rw [← hexact, Nat.succ_mul]
    omega

omit hmb' in
/-- If something was dropped the difference is too large. -/
theorem difference_dropped (hdropped : ms % 2 ^ (eb - es) ≠ 0) :
    ms / 2 ^ (eb - es) < mb ∧ ms * 2 ^ (es - 1) < mb * 2 ^ (eb - 1) ∧
      (mb - ms / 2 ^ (eb - es)) * 2 ^ (eb - 1) =
        mb * 2 ^ (eb - 1) - ms * 2 ^ (es - 1) + ms % 2 ^ (eb - es) * 2 ^ (es - 1) := by
  obtain ⟨hsplit, hlt⟩ := aligned_add_dropped ms hle hes
  have hne : es < eb := by
    by_contra hnot
    obtain rfl : es = eb := by omega
    rw [Nat.sub_self, Nat.pow_zero, Nat.mod_one] at hdropped
    exact hdropped rfl
  have hal := aligned_lt hmb hms hne
  have hmul : (ms / 2 ^ (eb - es) + 1) * 2 ^ (eb - 1) ≤ mb * 2 ^ (eb - 1) :=
    Nat.mul_le_mul_right _ hal
  rw [Nat.succ_mul] at hmul
  refine ⟨hal, by omega, ?_⟩
  rw [Nat.sub_mul]
  omega

variable {negBig negSmall : Bool} {r : Fp32}

omit hmb' in
/-- The exact sum has the sign of the result. -/
theorem signed_sum :
    signed negBig ((mb * 2 ^ (eb - 1) : Nat) * binary32.unit) +
      signed negSmall ((ms * 2 ^ (es - 1) : Nat) * binary32.unit) =
      signed (if mb < ms / 2 ^ (eb - es) then negSmall else negBig)
        ((alignedSum (negBig == negSmall) (mb * 2 ^ (eb - 1)) (ms * 2 ^ (es - 1)) : Nat) *
          binary32.unit) := by
  obtain ⟨hsplit, hdropped⟩ := aligned_add_dropped ms hle hes
  have horder : if mb < ms / 2 ^ (eb - es) then mb * 2 ^ (eb - 1) ≤ ms * 2 ^ (es - 1)
      else ms * 2 ^ (es - 1) ≤ mb * 2 ^ (eb - 1) := by
    split
    · next hlt =>
      have := Nat.mul_le_mul_right (2 ^ (eb - 1)) (Nat.le_of_lt hlt)
      omega
    · next hge =>
      rcases Nat.lt_or_ge es eb with hlt | hge'
      · have := Nat.mul_le_mul_right (2 ^ (eb - 1)) (Nat.succ_le_of_lt (aligned_lt hmb hms hlt))
        rw [Nat.succ_mul] at this
        omega
      · obtain rfl : es = eb := by omega
        rw [Nat.sub_self, Nat.pow_zero, Nat.div_one] at hge
        exact Nat.mul_le_mul_right _ (Nat.not_lt.mp hge)
  generalize mb * 2 ^ (eb - 1) = big at horder ⊢
  generalize ms * 2 ^ (es - 1) = small at horder ⊢
  rw [alignedSum]
  by_cases hsame : negBig = negSmall
  · subst hsame
    rw [ite_self, beq_self_eq_true, if_pos rfl, Nat.cast_add, signed, signed, signed]
    split
    · ring
    · ring
  · have hne : (negBig == negSmall) = false := beq_eq_false_iff_ne.mpr hsame
    rw [hne, if_neg Bool.false_ne_true]
    split at horder
    · next hlt =>
      rw [if_pos hlt, Nat.max_eq_right horder, Nat.min_eq_left horder, Nat.cast_sub horder]
      cases negBig <;> cases negSmall <;> simp_all [signed] <;> ring
    · next hge =>
      rw [if_neg hge, Nat.max_eq_left horder, Nat.min_eq_right horder, Nat.cast_sub horder]
      cases negBig <;> cases negSmall <;> simp_all [signed] <;> ring

/-- The sum is rounded toward zero exactly if it is one of equal signs, or nothing is dropped,
    or nothing is left of it anyway. -/
theorem roundsTowardZero_iff
    (hr : r.toNat = binary32.pattern (if mb < ms / 2 ^ (eb - es) then negSmall else negBig)
      (addPayload eb (alignedSum (negBig == negSmall) mb (ms / 2 ^ (eb - es))))) :
    RoundsTowardZero
      (signed negBig ((mb * 2 ^ (eb - 1) : Nat) * binary32.unit) +
        signed negSmall ((ms * 2 ^ (es - 1) : Nat) * binary32.unit))
      r ↔
      negBig = negSmall ∨ ms % 2 ^ (eb - es) * 2 ^ (es - 1) = 0 ∨
        |signed negBig ((mb * 2 ^ (eb - 1) : Nat) * binary32.unit) +
            signed negSmall ((ms * 2 ^ (es - 1) : Nat) * binary32.unit)| +
          (ms % 2 ^ (eb - es) * 2 ^ (es - 1) : Nat) * binary32.unit < 2 ^ (-126 : ℤ) := by
  have hal : ms / 2 ^ (eb - es) ≤ ms := Nat.div_le_self _ _
  have hlt : addPayload eb (alignedSum (negBig == negSmall) mb (ms / 2 ^ (eb - es))) < 2 ^ 31 := by
    refine Nat.lt_trans (addPayload_lt heb ?_) (by decide)
    rw [alignedSum]
    generalize ms / 2 ^ (eb - es) = al at hal
    split <;> omega
  rw [signed_sum heb hes hle hmb hms]
  generalize (if mb < ms / 2 ^ (eb - es) then negSmall else negBig) = neg at hr ⊢
  by_cases hsame : negBig = negSmall
  · subst hsame
    rw [beq_self_eq_true] at hr hlt ⊢
    exact iff_of_true ((truncatesTo_sum heb hes hle hmb hmb' hms).roundsTowardZero hlt hr)
      (.inl rfl)
  have hne : (negBig == negSmall) = false := beq_eq_false_iff_ne.mpr hsame
  rw [hne] at hr hlt ⊢
  by_cases hdropped : ms % 2 ^ (eb - es) = 0
  · refine iff_of_true ?_ (.inr (.inl (by rw [hdropped, Nat.zero_mul])))
    exact (truncatesTo_difference heb hes hle hmb hmb' hms hdropped).roundsTowardZero hlt hr
  obtain ⟨halt, horder, htoo⟩ := difference_dropped heb hes hle hmb hms hdropped
  have hpart : ms % 2 ^ (eb - es) * 2 ^ (es - 1) ≠ 0 :=
    Nat.mul_ne_zero hdropped (Nat.two_pow_pos _).ne'
  rw [alignedSum_of_lt halt] at hr hlt
  rw [alignedSum_of_lt horder, or_iff_right hsame, or_iff_right hpart]
  have hsub : mb - ms / 2 ^ (eb - es) < 2 ^ 24 := Nat.lt_of_le_of_lt (Nat.sub_le _ _) hmb'
  exact overshoot_iff heb hsub htoo hpart hlt hr

end

/-- What the adder drops of the operand with the smaller exponent, in units of the least
    subnormal number. -/
def droppedPart (a b : Fp32) : Nat :=
  let ea := (a.extractLsb' 23 8).toNat
  let eb := (b.extractLsb' 23 8).toNat
  if eb ≤ ea then (1#1 ++ b.extractLsb' 0 23).toNat % 2 ^ (ea - eb) * 2 ^ (eb - 1)
  else (1#1 ++ a.extractLsb' 0 23).toNat % 2 ^ (eb - ea) * 2 ^ (ea - 1)

section

variable {a : Fp32}

theorem toNat_mantissa (a : Fp32) :
    (1#1 ++ a.extractLsb' 0 23).toNat = 2 ^ 23 + a.toNat % 2 ^ 23 ∧
      2 ^ 23 ≤ (1#1 ++ a.extractLsb' 0 23).toNat ∧
      (1#1 ++ a.extractLsb' 0 23).toNat < 2 ^ 24 := by
  have hmant : (1#1 ++ a.extractLsb' 0 23).toNat = 2 ^ 23 + a.toNat % 2 ^ 23 := by
    rw [toNat_append_eq, toNat_extractLsb'_eq, Nat.pow_zero, Nat.div_one]
    rfl
  omega

theorem value_fields (ha : 1 ≤ (a.extractLsb' 23 8).toNat) :
    binary32.value a.toNat = signed (binary32.sign a.toNat)
      (((1#1 ++ a.extractLsb' 0 23).toNat * 2 ^ ((a.extractLsb' 23 8).toNat - 1) : Nat) *
        binary32.unit) := by
  rw [toNat_extractLsb'_eq] at ha ⊢
  rw [Format.value, magnitude_binary32, if_neg (by omega), (toNat_mantissa a).1]

theorem exp_ne_zero (ha : 1 ≤ (a.extractLsb' 23 8).toNat) : a.extractLsb' 23 8 ≠ 0 := by
  intro hzero
  rw [hzero] at ha
  exact absurd ha (by decide)

end

/-- The adder rounds toward zero exactly if the signs are equal, or no bit is dropped, or sum
    and dropped part together are below the normal numbers. -/
theorem fp32Add_toward_zero (a b : Fp32)
    (ha : 1 ≤ (a.extractLsb' 23 8).toNat ∧ (a.extractLsb' 23 8).toNat ≤ 254)
    (hb : 1 ≤ (b.extractLsb' 23 8).toNat ∧ (b.extractLsb' 23 8).toNat ≤ 254) :
    RoundsTowardZero (binary32.value a.toNat + binary32.value b.toNat) (fp32Add a b) ↔
      binary32.sign a.toNat = binary32.sign b.toNat ∨ droppedPart a b = 0 ∨
        |binary32.value a.toNat + binary32.value b.toNat| + droppedPart a b * binary32.unit <
          2 ^ (-126 : ℤ) := by
  rw [fp32Add_eq_addAligned (exp_ne_zero ha.1) (exp_ne_zero hb.1), value_fields ha.1,
    value_fields hb.1, droppedPart]
  obtain ⟨-, hma, hma'⟩ := toNat_mantissa a
  obtain ⟨-, hmb, hmb'⟩ := toNat_mantissa b
  have hsa := toNat_signBit a
  have hsb := toNat_signBit b
  by_cases h : (b.extractLsb' 23 8).toNat ≤ (a.extractLsb' 23 8).toNat
  · have h' : a.extractLsb' 23 8 ≥ b.extractLsb' 23 8 := h
    rw [if_pos h', if_pos h]
    exact roundsTowardZero_iff ha hb.1 h hma hma' hmb' (addAligned_toNat h ha hma hsa hsb)
  · have h' : ¬a.extractLsb' 23 8 ≥ b.extractLsb' 23 8 := h
    have hle := Nat.le_of_lt (Nat.not_le.mp h)
    rw [if_neg h', if_neg h, add_comm, eq_comm (a := binary32.sign a.toNat)]
    exact roundsTowardZero_iff hb ha.1 hle hmb hmb' hma' (addAligned_toNat hle hb hmb hsb hsa)

/-- Two operands of one sign: `1 + 2 ^ -24`. -/
theorem fp32Add_one_toward_zero :
    RoundsTowardZero (binary32.value (0x3f800000#32).toNat + binary32.value (0x33800000#32).toNat)
      (fp32Add 0x3f800000#32 0x33800000#32) :=
  (fp32Add_toward_zero 0x3f800000#32 0x33800000#32 (by decide) (by decide)).mpr (.inl (by decide))

/-- One minus the number just below it: the difference is twice the exact one. -/
theorem fp32Add_cancels :
    ¬RoundsTowardZero (binary32.value (0x3f800000#32).toNat + binary32.value (0xbf7fffff#32).toNat)
      (fp32Add 0x3f800000#32 0xbf7fffff#32) := by
  intro hround
  have hone : binary32.value (0x3f800000#32).toNat = 1 := by
    have hmag : binary32.magnitude (0x3f800000#32).toNat = 2 ^ 149 := by decide
    have hsign : binary32.sign (0x3f800000#32).toNat = false := by decide
    rw [Format.value, hsign, hmag, unit_binary32, signed, if_neg Bool.false_ne_true]
    norm_num
  have hother : binary32.value (0xbf7fffff#32).toNat = -(1 - 2 ^ (-24 : ℤ)) := by
    have hmag : binary32.magnitude (0xbf7fffff#32).toNat = (2 ^ 24 - 1) * 2 ^ 125 := by decide
    have hsign : binary32.sign (0xbf7fffff#32).toNat = true := by decide
    rw [Format.value, hsign, hmag, unit_binary32, signed, if_pos rfl]
    norm_num
  have hresult : |binary32.value (fp32Add 0x3f800000#32 0xbf7fffff#32).toNat| = 2 ^ (-23 : ℤ) := by
    have hmag : binary32.magnitude (fp32Add 0x3f800000#32 0xbf7fffff#32).toNat = 2 ^ 126 := by
      decide
    rw [Format.abs_value, hmag, unit_binary32]
    norm_num
  rw [hone, hother, show (1 : ℚ) + -(1 - 2 ^ (-24 : ℤ)) = 2 ^ (-24 : ℤ) by ring] at hround
  have habs : |(2 : ℚ) ^ (-24 : ℤ)| = 2 ^ (-24 : ℤ) := abs_of_pos (by positivity)
  obtain ⟨c, k, -, -, hvalue, hle, -⟩ :=
    hround.normal (by rw [habs]; norm_num) (by rw [habs]; norm_num)
  rw [hvalue, abs_signed (by positivity)] at hresult
  rw [hresult, habs] at hle
  norm_num at hle

end Q1a8
