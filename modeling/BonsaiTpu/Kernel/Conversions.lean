-- SUMMARY: The converters of the PL kernel are exact: normal halves (`fp16_to_fp32.v`) and sub-block sums (`int_to_fp32.v`).
import BonsaiTpu.Kernel.Adder

/-!
# Converters

Both converters move a number into the binary32 format without rounding: a half has fewer
exponents and a shorter fraction, and the magnitude of a 14-bit integer has at most
13 bits. What they do not keep is out of the range the kernel uses them on: subnormal
halves become zero, and the least 14-bit integer has no negative.
-/

namespace Q1a8

open Floats

/-! ## Halves -/

/-- What the PL puts below the sign. -/
theorem fp16ToFp32_toNat (h : Fp16) :
    (fp16ToFp32 h).toNat = binary32.pattern (binary16.sign h.toNat)
      (if h.toNat / 2 ^ 10 % 2 ^ 5 = 0 then 0 else (h.toNat / 2 ^ 10 % 2 ^ 5 + 112) * 2 ^ 23 +
        h.toNat % 2 ^ 10 * 2 ^ 13) := by
  have hsign : (h.extractLsb' 15 1).toNat = (binary16.sign h.toNat).toNat := by
    have hcases := Nat.mod_two_eq_zero_or_one (h.toNat / 2 ^ 15)
    have hdef : binary16.sign h.toNat = (h.toNat / 2 ^ 15 % 2 == 1) := rfl
    rw [toNat_extractLsb'_eq, hdef]
    rcases hcases with hbit | hbit
    · rw [Nat.pow_one, hbit]
      rfl
    · rw [Nat.pow_one, hbit]
      rfl
  have hexp : (h.extractLsb' 10 5).toNat = h.toNat / 2 ^ 10 % 2 ^ 5 := toNat_extractLsb'_eq h 10 5
  have hmant : (h.extractLsb' 0 10).toNat = h.toNat % 2 ^ 10 := by
    rw [toNat_extractLsb'_eq, Nat.pow_zero, Nat.div_one]
  have hzero : h.extractLsb' 10 5 = 0 ↔ h.toNat / 2 ^ 10 % 2 ^ 5 = 0 := by
    rw [← BitVec.toNat_inj, hexp]
    rfl
  have helt : h.toNat / 2 ^ 10 % 2 ^ 5 < 2 ^ 5 := Nat.mod_lt _ (Nat.two_pow_pos 5)
  rw [fp16ToFp32]
  by_cases he : h.toNat / 2 ^ 10 % 2 ^ 5 = 0
  · rw [if_pos (hzero.mpr he), if_pos he]
    have hplace : binary32.signPlace = 2 ^ 31 := rfl
    rw [toNat_append_eq, hsign, Format.pattern, hplace, BitVec.toNat_zero]
  · rw [if_neg fun hx => he (hzero.mp hx), if_neg he, toNat_float hsign, BitVec.toNat_add,
      BitVec.toNat_setWidth, hexp, toNat_append_eq, hmant]
    simp only [BitVec.toNat_ofNat]
    rw [Format.pattern, Format.pattern, Nat.add_left_cancel_iff]
    omega

/-- The scales that quantization gives: a zero or a normal half. -/
def IsScale (h : Fp16) : Prop :=
  h.extractLsb' 0 15 = 0 ∨ 1 ≤ (h.extractLsb' 10 5).toNat ∧ (h.extractLsb' 10 5).toNat ≤ 30

instance (h : Fp16) : Decidable (IsScale h) := inferInstanceAs (Decidable (_ ∨ _))

theorem fp16ToFp32_payload_lt (h : Fp16) :
    (if h.toNat / 2 ^ 10 % 2 ^ 5 = 0 then 0 else (h.toNat / 2 ^ 10 % 2 ^ 5 + 112) * 2 ^ 23 +
      h.toNat % 2 ^ 10 * 2 ^ 13) <
      144 * 2 ^ 23 := by
  split <;> omega

/-- A scale has the same value in both formats. -/
theorem value_fp16ToFp32 {h : Fp16} (hscale : IsScale h) :
    binary32.value (fp16ToFp32 h).toNat = binary16.value h.toNat := by
  have hlt : (if h.toNat / 2 ^ 10 % 2 ^ 5 = 0 then 0 else (h.toNat / 2 ^ 10 % 2 ^ 5 + 112) *
      2 ^ 23 + h.toNat % 2 ^ 10 * 2 ^ 13) <
      binary32.signPlace := Nat.lt_trans (fp16ToFp32_payload_lt h) (by decide)
  rw [fp16ToFp32_toNat, Format.value, Format.value, Format.sign_pattern hlt, Format.magnitude,
    Format.payload_pattern hlt, magnitude_binary16]
  congr 1
  rw [IsScale, ← BitVec.toNat_inj, toNat_extractLsb'_eq, toNat_extractLsb'_eq, Nat.pow_zero,
    Nat.div_one] at hscale
  have hmlt : h.toNat % 2 ^ 10 < 2 ^ 10 := Nat.mod_lt _ (Nat.two_pow_pos 10)
  split
  · next he =>
    have hzero : h.toNat % 2 ^ 10 = 0 := by
      rcases hscale with h0 | h1
      · have h0' : h.toNat % 2 ^ 15 = 0 := h0
        omega
      · omega
    rw [hzero, Nat.cast_zero, zero_mul, show mag binary32.fracBits 0 = 0 from by decide,
      Nat.cast_zero, zero_mul]
  · next he =>
    generalize h.toNat / 2 ^ 10 % 2 ^ 5 = e at he ⊢
    generalize h.toNat % 2 ^ 10 = m at hmlt ⊢
    have hpack : (e + 112) * 2 ^ 23 + m * 2 ^ 13 = (e + 111) * 2 ^ 23 + (2 ^ 10 + m) * 2 ^ 13 := by
      omega
    have hmag : mag 23 ((e + 112) * 2 ^ 23 + m * 2 ^ 13) =
        (2 ^ 10 + m) * 2 ^ (e - 1) * 2 ^ 125 := by
      rw [hpack, mag_pack (.inr (by omega)) (by omega), Nat.mul_assoc, Nat.mul_assoc,
        ← Nat.pow_add, ← Nat.pow_add]
      congr 2
      omega
    change ((mag 23 _ : Nat) : ℚ) * binary32.unit = _
    rw [hmag, Nat.cast_mul, mul_assoc, unit_binary32, unit_binary16]
    congr 1
    norm_num

/-! ## Sub-block sums -/

section

variable {x : BitVec 14}

/-- The magnitude that is converted. -/
theorem toNat_intMag (hx : x.toInt ≠ -8192) :
    (if x.extractLsb' 13 1 = 1#1 then (-x).extractLsb' 0 13
      else x.extractLsb' 0 13 : BitVec 13).toNat = x.toInt.natAbs := by
  have hsign : x.extractLsb' 13 1 = 1#1 ↔ 2 ^ 13 ≤ x.toNat := by
    have hlt := x.isLt
    rw [← BitVec.toNat_inj, toNat_extractLsb'_eq, BitVec.toNat_ofNat]
    omega
  have hlt := x.isLt
  rw [BitVec.toInt_eq_toNat_cond] at hx ⊢
  by_cases h : 2 ^ 13 ≤ x.toNat
  · rw [if_pos (hsign.mpr h), toNat_extractLsb'_eq, BitVec.toNat_neg, Nat.pow_zero, Nat.div_one]
    rw [if_neg (by omega)] at hx ⊢
    omega
  · rw [if_neg fun hs => h (hsign.mp hs), toNat_extractLsb'_eq, Nat.pow_zero, Nat.div_one,
      if_pos (by omega)]
    omega

/-- The sign bit of an integer. -/
theorem toNat_intSign (x : BitVec 14) :
    (x.extractLsb' 13 1).toNat = (decide (x.toInt < 0)).toNat := by
  have hlt := x.isLt
  rw [toNat_extractLsb'_eq, BitVec.toInt_eq_toNat_cond]
  by_cases h : 2 ^ 13 ≤ x.toNat
  · rw [if_neg (by omega), decide_eq_true (by omega)]
    change _ = 1
    omega
  · rw [if_pos (by omega), decide_eq_false (by omega)]
    change _ = 0
    omega

/-- The integer as a float: the leading one of its magnitude goes to place 23. -/
theorem intToFp32_toNat (hx : x.toInt ≠ -8192) :
    (intToFp32 x).toNat = if x.toInt = 0 then 0
      else binary32.pattern (decide (x.toInt < 0))
        ((126 + x.toInt.natAbs.log2) * 2 ^ 23 +
          x.toInt.natAbs * 2 ^ (23 - x.toInt.natAbs.log2)) := by
  have hmag := toNat_intMag hx
  have hsign := toNat_intSign x
  rw [intToFp32]
  generalize (if x.extractLsb' 13 1 = 1#1 then (-x).extractLsb' 0 13 else x.extractLsb' 0
    13 : BitVec 13) = mag at hmag ⊢
  have hlead := leadPos_toNat (by decide) mag
  rw [hmag] at hlead
  have hzero : mag = 0 ↔ x.toInt = 0 := by
    rw [← BitVec.toNat_inj, hmag]
    exact Int.natAbs_eq_zero
  by_cases h0 : x.toInt = 0
  · rw [if_pos (hzero.mpr h0), if_pos h0]
    rfl
  rw [if_neg fun hm => h0 (hzero.mp hm), if_neg h0, toNat_float hsign, Format.pattern,
    Format.pattern, Nat.add_left_cancel_iff]
  have hne : x.toInt.natAbs ≠ 0 := Int.natAbs_ne_zero.mpr h0
  have hlt : x.toInt.natAbs < 2 ^ 13 := by
    rw [← hmag]
    exact mag.isLt
  generalize x.toInt.natAbs = n at hmag hlead hne hlt ⊢
  have hp : n.log2 ≤ 12 := Nat.le_of_lt_succ ((Nat.log2_lt hne).mpr hlt)
  obtain ⟨hstart, hend⟩ := normalised_bounds hne hp
  have hamount : (12#32 - (leadPos mag).setWidth 32).toNat = 12 - n.log2 := by
    have hpos : ((leadPos mag).setWidth 32).toNat = n.log2 := by
      rw [BitVec.toNat_setWidth, hlead, Nat.mod_eq_of_lt (by omega)]
    rw [BitVec.toNat_sub_of_le (by rw [BitVec.le_def, hpos]; exact hp), hpos]
    rfl
  -- the magnitude is shifted left until its leading bit is bit 12
  have hnorm : (mag <<< (12#32 - (leadPos mag).setWidth 32)).toNat = n * 2 ^ (12 - n.log2) := by
    rw [BitVec.shiftLeft_eq', BitVec.toNat_shiftLeft, Nat.shiftLeft_eq, hamount, hmag,
      Nat.mod_eq_of_lt hend]
  have hexp : (127#8 + (leadPos mag).setWidth 8).toNat = 127 + n.log2 := by
    rw [BitVec.toNat_add, BitVec.toNat_setWidth, hlead, BitVec.toNat_ofNat]
    omega
  have hfull : n * 2 ^ (23 - n.log2) = n * 2 ^ (12 - n.log2) * 2 ^ 11 := by
    rw [Nat.mul_assoc, ← Nat.pow_add]
    congr 2
    omega
  rw [hexp, toNat_append_eq, toNat_extractLsb'_eq, hnorm, Nat.pow_zero, Nat.div_one,
    BitVec.toNat_zero, hfull]
  generalize n * 2 ^ (12 - n.log2) = norm at hstart hend ⊢
  omega

/-- The conversion is exact. -/
theorem value_intToFp32 (hx : x.toInt ≠ -8192) : binary32.value (intToFp32 x).toNat = x.toInt := by
  rw [intToFp32_toNat hx]
  by_cases h0 : x.toInt = 0
  · rw [if_pos h0, h0, Int.cast_zero, Format.value_eq_zero]
    decide
  rw [if_neg h0]
  have hne : x.toInt.natAbs ≠ 0 := Int.natAbs_ne_zero.mpr h0
  have hlt : x.toInt.natAbs < 2 ^ 13 := by
    have hlo := x.le_toInt
    have hhi := x.toInt_lt
    omega
  have hp : x.toInt.natAbs.log2 ≤ 12 := Nat.le_of_lt_succ ((Nat.log2_lt hne).mpr hlt)
  obtain ⟨hstart, hend⟩ := normalised_bounds hne (Nat.le_trans hp (show 12 ≤ 23 by decide))
  have hlt31 : (126 + x.toInt.natAbs.log2) * 2 ^ 23 +
      x.toInt.natAbs * 2 ^ (23 - x.toInt.natAbs.log2) < binary32.signPlace := by
    change _ < 2 ^ 31
    omega
  have hmag :
      mag 23 ((126 + x.toInt.natAbs.log2) * 2 ^ 23 +
        x.toInt.natAbs * 2 ^ (23 - x.toInt.natAbs.log2)) =
      x.toInt.natAbs * 2 ^ 149 := by
    rw [mag_pack (.inr hstart) (Nat.le_of_lt hend), Nat.mul_assoc, ← Nat.pow_add]
    congr 2
    omega
  rw [Format.value, Format.sign_pattern hlt31, Format.magnitude, Format.payload_pattern hlt31]
  change signed _ (((mag 23 _ : Nat) : ℚ) * binary32.unit) = _
  have habs : ((x.toInt.natAbs * 2 ^ 149 : Nat) : ℚ) * binary32.unit = |(x.toInt : ℚ)| := by
    rw [unit_binary32, Nat.cast_mul, mul_assoc, Nat.cast_natAbs, Int.cast_abs]
    norm_num
  rw [hmag, habs]
  by_cases hneg : x.toInt < 0
  · rw [decide_eq_true hneg, signed, if_pos rfl, abs_of_neg (by exact_mod_cast hneg), neg_neg]
  · rw [decide_eq_false hneg, signed, if_neg (by decide),
      abs_of_nonneg (by exact_mod_cast not_lt.mp hneg)]

end

end Q1a8
