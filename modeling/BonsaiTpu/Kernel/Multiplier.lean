-- SUMMARY: The multiplier of the PL kernel against rounding toward zero (`fp32_mul.v`).
import BonsaiTpu.Kernel.Adder

/-!
# The multiplier

`fp32_mul` keeps the upper bits of the product of the two mantissas, which has its
leading one in the first or the second place, and puts it at the sum of the exponents.
Nothing is added to what was cut off, so the product rounds toward zero.
-/

namespace Q1a8

open Floats

/-! ## The multiplier on fields -/

/-- The exponent field of a product before it is checked, with the bias still in it twice. -/
def productExp (ea eb prod : Nat) : Nat := ea + eb + if 2 ^ 47 ≤ prod then 1 else 0

/-- What stands below the sign of a product: the upper 24 bits, with the leading one counted
    into the exponent. -/
def mulPayload (ea eb prod : Nat) : Nat :=
  if productExp ea eb prod ≤ 127 then 0
  else if 382 ≤ productExp ea eb prod then 254 * 2 ^ 23 + (2 ^ 23 - 1)
  else (productExp ea eb prod - 128) * 2 ^ 23 + prod / 2 ^ (if 2 ^ 47 ≤ prod then 24 else 23)

section

variable {ea eb prod : Nat}

/-- The upper 24 bits of a product of mantissas. -/
theorem product_top (hlo : 2 ^ 46 ≤ prod) (hhi : prod < 2 ^ 48) :
    2 ^ 23 ≤ prod / 2 ^ (if 2 ^ 47 ≤ prod then 24 else 23) ∧
      prod / 2 ^ (if 2 ^ 47 ≤ prod then 24 else 23) < 2 ^ 24 := by
  split <;> omega

variable (ea eb) in
theorem mulPayload_lt (hlo : 2 ^ 46 ≤ prod) (hhi : prod < 2 ^ 48) :
    mulPayload ea eb prod < 255 * 2 ^ 23 := by
  obtain ⟨-, htop⟩ := product_top hlo hhi
  rw [mulPayload]
  split
  · decide
  · split
    · decide
    · omega

theorem mantissas_mul {ma mb : Nat} (hma : 2 ^ 23 ≤ ma) (hma' : ma < 2 ^ 24) (hmb : 2 ^ 23 ≤ mb)
    (hmb' : mb < 2 ^ 24) :
    2 ^ 46 ≤ ma * mb ∧ ma * mb < 2 ^ 48 := by
  constructor
  · calc 2 ^ 46 = 2 ^ 23 * 2 ^ 23 := by decide
      _ ≤ ma * mb := Nat.mul_le_mul hma hmb
  · calc ma * mb < 2 ^ 24 * 2 ^ 24 := Nat.mul_lt_mul'' hma' hmb'
      _ = 2 ^ 48 := by decide

end

section

variable {a b : Fp32}

/-- The sign of a product. -/
def productSign (a b : Fp32) : Bool := xor (binary32.sign a.toNat) (binary32.sign b.toNat)

theorem toNat_productSign (a b : Fp32) :
    (a.extractLsb' 31 1 ^^^ b.extractLsb' 31 1).toNat = (productSign a b).toNat := by
  rw [BitVec.toNat_xor, toNat_signBit, toNat_signBit, productSign]
  cases binary32.sign a.toNat <;> cases binary32.sign b.toNat <;> rfl

/-- The 48-bit product. -/
theorem toNat_product (a b : Fp32) :
    ((1#1 ++ a.extractLsb' 0 23).setWidth 48 *
      (1#1 ++ b.extractLsb' 0 23).setWidth 48 : BitVec 48).toNat =
      (1#1 ++ a.extractLsb' 0 23).toNat * (1#1 ++ b.extractLsb' 0 23).toNat := by
  obtain ⟨-, hma, hma'⟩ := toNat_mantissa a
  obtain ⟨-, hmb, hmb'⟩ := toNat_mantissa b
  obtain ⟨-, hlt⟩ := mantissas_mul hma hma' hmb hmb'
  rw [BitVec.toNat_mul, BitVec.toNat_setWidth, BitVec.toNat_setWidth,
    Nat.mod_eq_of_lt (Nat.lt_trans hma' (by decide)),
    Nat.mod_eq_of_lt (Nat.lt_trans hmb' (by decide)), Nat.mod_eq_of_lt hlt]

/-- The leading bit of the product. -/
theorem renorm_eq {prod : BitVec 48} : prod.getLsbD 47 = decide (2 ^ 47 ≤ prod.toNat) := by
  have hlt := prod.isLt
  have hbit : prod.getLsbD 47 = decide (prod.toNat / 2 ^ 47 % 2 = 1) :=
    Nat.testBit_eq_decide_div_mod_eq
  rw [hbit, decide_eq_decide]
  omega

/-- The exponent of the product is signed and has room for all sums. -/
theorem toInt_productExp (ea eb : BitVec 8) (p : Prop) [Decidable p] :
    (ea.setWidth 10 + eb.setWidth 10 - 127#10 + (if p then 1#10 else 0#10)).toInt =
      (ea.toNat + eb.toNat + (if p then 1 else 0) : Nat) - (127 : Int) := by
  have hea := ea.isLt
  have heb := eb.isLt
  have hea' : (ea.setWidth 10).toInt = ea.toNat := by
    rw [BitVec.toInt_eq_toNat_of_lt (by rw [BitVec.toNat_setWidth]; omega), BitVec.toNat_setWidth,
      Nat.mod_eq_of_lt (by omega)]
  have heb' : (eb.setWidth 10).toInt = eb.toNat := by
    rw [BitVec.toInt_eq_toNat_of_lt (by rw [BitVec.toNat_setWidth]; omega), BitVec.toNat_setWidth,
      Nat.mod_eq_of_lt (by omega)]
  have hsum : (ea.setWidth 10 + eb.setWidth 10).toInt = (ea.toNat + eb.toNat : Nat) := by
    rw [BitVec.toInt_add, hea', heb']
    exact Int.bmod_eq_of_le (by omega) (by omega)
  have hpre : (ea.setWidth 10 + eb.setWidth 10 - 127#10).toInt =
      (ea.toNat + eb.toNat : Nat) - (127 : Int) := by
    rw [BitVec.toInt_sub, hsum]
    exact Int.bmod_eq_of_le (by change _ ≤ _ - (127 : Int); omega)
      (by change _ - (127 : Int) < _; omega)
  have hcarry : (if p then 1#10 else 0#10 : BitVec 10).toInt = (if p then 1 else 0 : Nat) := by
    split <;> rfl
  have hone : (if p then 1 else 0 : Nat) ≤ 1 := by split <;> omega
  rw [BitVec.toInt_add, hpre, hcarry, Nat.cast_add (ea.toNat + eb.toNat)]
  generalize (if p then 1 else 0 : Nat) = carry at hone ⊢
  rw [Int.bmod_eq_of_le (by omega) (by omega)]
  omega

/-- The exponent of the product where it is not negative. -/
theorem toNat_productExp (ea eb : BitVec 8) (p : Prop) [Decidable p]
    (h : 127 ≤ ea.toNat + eb.toNat + if p then 1 else 0) :
    (ea.setWidth 10 + eb.setWidth 10 - 127#10 + (if p then 1#10 else 0#10)).toNat =
      ea.toNat + eb.toNat + (if p then 1 else 0) - 127 := by
  have hlt := (ea.setWidth 10 + eb.setWidth 10 - 127#10 + (if p then 1#10 else 0#10)).isLt
  have hint := toInt_productExp ea eb p
  generalize (ea.setWidth 10 + eb.setWidth 10 - 127#10 + (if p then 1#10 else 0#10)) =
    er at hlt hint ⊢
  generalize (if p then 1 else 0 : Nat) = carry at h hint ⊢
  rw [BitVec.toInt_eq_toNat_cond] at hint
  split at hint <;> omega

/-- The multiplier by the fields of its operands. -/
theorem fp32Mul_toNat (ha : a.extractLsb' 23 8 ≠ 0) (hb : b.extractLsb' 23 8 ≠ 0) :
    (fp32Mul a b).toNat = binary32.pattern (productSign a b)
      (mulPayload (a.extractLsb' 23 8).toNat (b.extractLsb' 23 8).toNat
        ((1#1 ++ a.extractLsb' 0 23).toNat * (1#1 ++ b.extractLsb' 0 23).toNat)) := by
  have hsign := toNat_productSign a b
  have hplace : binary32.signPlace = 2 ^ 31 := rfl
  obtain ⟨-, hma, hma'⟩ := toNat_mantissa a
  obtain ⟨-, hmb, hmb'⟩ := toNat_mantissa b
  obtain ⟨hlo, hhi⟩ := mantissas_mul hma hma' hmb hmb'
  have hprod := toNat_product a b
  rw [fp32Mul]
  simp only [ha, hb, or_self, if_false]
  generalize ((1#1 ++ a.extractLsb' 0 23).setWidth 48 *
    (1#1 ++ b.extractLsb' 0 23).setWidth 48 : BitVec 48) = prod at hprod ⊢
  generalize (1#1 ++ a.extractLsb' 0 23).toNat * (1#1 ++ b.extractLsb' 0 23).toNat = full
    at hprod hlo hhi ⊢
  obtain ⟨htop, htop'⟩ := product_top hlo hhi
  have hrenorm : prod.getLsbD 47 = decide (2 ^ 47 ≤ full) := by rw [renorm_eq, hprod]
  simp only [hrenorm, decide_eq_true_eq]
  simp only [toInt_productExp]
  rw [mulPayload]
  have hexp : (a.extractLsb' 23 8).toNat + (b.extractLsb' 23 8).toNat +
      (if 2 ^ 47 ≤ full then 1 else 0) =
      productExp (a.extractLsb' 23 8).toNat (b.extractLsb' 23 8).toNat full := rfl
  rw [hexp]
  by_cases hflush : productExp (a.extractLsb' 23 8).toNat (b.extractLsb' 23 8).toNat full ≤ 127
  · rw [if_pos (by omega), if_pos hflush, toNat_append_eq, hsign, Format.pattern, hplace,
      BitVec.toNat_zero]
  rw [if_neg (by omega), if_neg hflush]
  by_cases hsat : 382 ≤ productExp (a.extractLsb' 23 8).toNat (b.extractLsb' 23 8).toNat full
  · rw [if_pos (by omega), if_pos hsat, toNat_float hsign]
    rfl
  rw [if_neg (by omega), if_neg hsat, toNat_float hsign, toNat_extractLsb'_eq]
  have her := toNat_productExp (a.extractLsb' 23 8) (b.extractLsb' 23 8) (2 ^ 47 ≤ full)
  rw [hexp] at her
  have hmr : (if 2 ^ 47 ≤ full then prod.extractLsb' 24 23 else prod.extractLsb' 23 23).toNat =
      full / 2 ^ (if 2 ^ 47 ≤ full then 24 else 23) % 2 ^ 23 := by
    split
    · rw [toNat_extractLsb'_eq, hprod]
    · rw [toNat_extractLsb'_eq, hprod]
  rw [her (by omega), hmr, Format.pattern, Format.pattern, Nat.add_left_cancel_iff,
    Nat.pow_zero, Nat.div_one]
  generalize full / 2 ^ (if 2 ^ 47 ≤ full then 24 else 23) = top at htop htop' ⊢
  omega

end

/-! ## The product of two floats -/

theorem signed_mul (s t : Bool) (p q : ℚ) : signed s p * signed t q = signed (xor s t) (p * q) := by
  cases s <;> cases t <;> simp [signed]

/-- The place of a float with exponent field `e`. -/
theorem two_pow_place {e : Nat} (he : 1 ≤ e) (m : Nat) :
    ((m * 2 ^ (e - 1) : Nat) : ℚ) * binary32.unit = m * 2 ^ ((e : ℤ) - 150) := by
  rw [unit_binary32, Nat.cast_mul, Nat.cast_pow, Nat.cast_ofNat, mul_assoc, ← zpow_natCast,
    ← zpow_add₀ (by norm_num)]
  congr 2
  omega

theorem value_mul {a b : Fp32} (ha : 1 ≤ (a.extractLsb' 23 8).toNat)
    (hb : 1 ≤ (b.extractLsb' 23 8).toNat) :
    binary32.value a.toNat * binary32.value b.toNat = signed (productSign a b)
      (((1#1 ++ a.extractLsb' 0 23).toNat * (1#1 ++ b.extractLsb' 0 23).toNat : Nat) *
        2 ^ (((a.extractLsb' 23 8).toNat : ℤ) + (b.extractLsb' 23 8).toNat - 300)) := by
  rw [value_fields ha, value_fields hb, two_pow_place ha, two_pow_place hb, signed_mul,
    productSign, Nat.cast_mul]
  congr 1
  rw [mul_mul_mul_comm, ← zpow_add₀ (by norm_num)]
  congr 2
  omega

section

variable {ea eb prod : Nat} {neg : Bool} {r : Fp32} (hlo : 2 ^ 46 ≤ prod) (hhi : prod < 2 ^ 48)

include hlo hhi

variable (ea eb) in
/-- A product is a power of two away from its exponent, at most. -/
theorem product_bounds :
    (2 : ℚ) ^ ((productExp ea eb prod : ℤ) - 254) ≤ prod * 2 ^ ((ea : ℤ) + eb - 300) ∧
      (prod : ℚ) * 2 ^ ((ea : ℤ) + eb - 300) < 2 ^ ((productExp ea eb prod : ℤ) - 253) := by
  have hscale : ∀ n : Nat, (2 : ℚ) ^ ((ea : ℤ) + eb + n - 300) =
      (2 ^ n : Nat) * 2 ^ ((ea : ℤ) + eb - 300) := by
    intro n
    rw [Nat.cast_pow, Nat.cast_ofNat, ← zpow_natCast, ← zpow_add₀ (by norm_num)]
    congr 1
    omega
  have hpos : (0 : ℚ) < 2 ^ ((ea : ℤ) + eb - 300) := by positivity
  rw [productExp]
  split
  · next hcarry =>
    have hstart := hscale 47
    have hend := hscale 48
    refine ⟨?_, ?_⟩
    · rw [show ((ea + eb + 1 : Nat) : ℤ) - 254 = ea + eb + (47 : Nat) - 300 by omega, hstart,
        mul_le_mul_iff_left₀ hpos, Nat.cast_le]
      exact hcarry
    · rw [show ((ea + eb + 1 : Nat) : ℤ) - 253 = ea + eb + (48 : Nat) - 300 by omega, hend,
        mul_lt_mul_iff_left₀ hpos, Nat.cast_lt]
      exact hhi
  · next hcarry =>
    have hstart := hscale 46
    have hend := hscale 47
    refine ⟨?_, ?_⟩
    · rw [show ((ea + eb + 0 : Nat) : ℤ) - 254 = ea + eb + (46 : Nat) - 300 by omega, hstart,
        mul_le_mul_iff_left₀ hpos, Nat.cast_le]
      exact hlo
    · rw [show ((ea + eb + 0 : Nat) : ℤ) - 253 = ea + eb + (47 : Nat) - 300 by omega, hend,
        mul_lt_mul_iff_left₀ hpos, Nat.cast_lt]
      exact Nat.not_le.mp hcarry

variable (ea eb prod) in
omit hlo hhi in
/-- What is cut off a product is less than the last place that is kept. -/
theorem product_truncated :
    ((prod / 2 ^ (if 2 ^ 47 ≤ prod then 24 else 23) : Nat) : ℚ) *
      2 ^ ((productExp ea eb prod : ℤ) - 277) ≤
        prod * 2 ^ ((ea : ℤ) + eb - 300) ∧
      (prod : ℚ) * 2 ^ ((ea : ℤ) + eb - 300) <
        ((prod / 2 ^ (if 2 ^ 47 ≤ prod then 24 else 23) : Nat) + 1) *
          2 ^ ((productExp ea eb prod : ℤ) - 277) := by
  have hshift : ∃ n : Nat, (if 2 ^ 47 ≤ prod then 24 else 23) = n ∧
      (productExp ea eb prod : ℤ) - 277 = n + (ea + eb - 300) := by
    rw [productExp]
    split
    · exact ⟨24, rfl, by omega⟩
    · exact ⟨23, rfl, by omega⟩
  obtain ⟨n, hn, hexp⟩ := hshift
  have hpos : (0 : ℚ) < 2 ^ ((ea : ℤ) + eb - 300) := by positivity
  rw [hn, hexp, zpow_add₀ (by norm_num), zpow_natCast, ← mul_assoc, ← mul_assoc,
    mul_le_mul_iff_left₀ hpos, mul_lt_mul_iff_left₀ hpos]
  constructor
  · exact_mod_cast Nat.div_mul_le_self prod (2 ^ n)
  · exact_mod_cast (Nat.div_lt_iff_lt_mul (Nat.two_pow_pos n)).mp (Nat.lt_succ_self (prod / 2 ^ n))

/-- The multiplier rounds toward zero, and keeps the sign of what is too small. -/
theorem mulPayload_toward_zero (hr : r.toNat = binary32.pattern neg (mulPayload ea eb prod)) :
    RoundsTowardZero (signed neg (prod * 2 ^ ((ea : ℤ) + eb - 300))) r ∧
      (|signed neg (prod * 2 ^ ((ea : ℤ) + eb - 300))| < 2 ^ (-126 : ℤ) →
        r.toNat = binary32.pattern
          (decide (signed neg (prod * 2 ^ ((ea : ℤ) + eb - 300)) < 0)) 0) := by
  obtain ⟨hstart, hend⟩ := product_bounds ea eb hlo hhi
  obtain ⟨hbelow, habove⟩ := product_truncated ea eb prod
  obtain ⟨htop, htop'⟩ := product_top hlo hhi
  have hfinite := mulPayload_lt ea eb hlo hhi
  have hlt : mulPayload ea eb prod < binary32.signPlace := Nat.lt_trans hfinite (by decide)
  have hpayload : binary32.payload r.toNat = mulPayload ea eb prod := by
    rw [hr, Format.payload_pattern hlt]
  have hsign : binary32.sign r.toNat = neg := by rw [hr, Format.sign_pattern hlt]
  have hpos : (0 : ℚ) < prod * 2 ^ ((ea : ℤ) + eb - 300) := lt_of_lt_of_le (by positivity) hstart
  have hneg : decide (signed neg (prod * 2 ^ ((ea : ℤ) + eb - 300)) < 0) = neg :=
    signed_neg_iff hpos
  have habs : |signed neg (prod * 2 ^ ((ea : ℤ) + eb - 300))| = prod * 2 ^ ((ea : ℤ) + eb - 300) :=
    abs_signed hpos.le
  -- the exponents are compared through the powers of two that bound the product
  have hpow : ∀ i j : ℤ, (2 : ℚ) ^ i < 2 ^ j → i < j :=
    fun i j h => (zpow_lt_zpow_iff_right₀ (by norm_num)).mp h
  rw [hneg, habs]
  generalize (prod : ℚ) * 2 ^ ((ea : ℤ) + eb - 300) = x
    at hstart hend hbelow habove hpos hneg habs ⊢
  have hflush : x < 2 ^ (-126 : ℤ) → mulPayload ea eb prod = 0 := by
    intro hx
    have := hpow _ _ (lt_of_le_of_lt hstart hx)
    rw [mulPayload, if_pos (by omega)]
  refine ⟨⟨?_, fun hx => ?_, fun hx => ?_, fun hx hx' => ?_⟩, fun hx => by rw [hr, hflush hx]⟩
  · -- finite; flushed below the normal range; the largest value above it; truncated between
    rw [Format.IsFinite, hpayload]
    exact hfinite
  · rw [habs] at hx
    rw [Format.value_eq_zero, Format.magnitude, hpayload, hflush hx]
    decide
  · rw [habs] at hx
    have := hpow _ _ (lt_of_le_of_lt hx hend)
    rw [hneg, hr, mulPayload, if_neg (by omega), if_pos (by omega)]
  · rw [habs] at hx hx'
    have hlow := hpow _ _ (lt_of_le_of_lt hx hend)
    have hhigh := hpow _ _ (lt_of_le_of_lt hstart hx')
    refine ⟨_, (productExp ea eb prod : ℤ) - 277, htop, htop', ?_, ?_, ?_⟩
    · have hmag : binary32.magnitude r.toNat =
          prod / 2 ^ (if 2 ^ 47 ≤ prod then 24 else 23) * 2 ^ (productExp ea eb prod - 128) := by
        rw [Format.magnitude, hpayload, mulPayload, if_neg (by omega), if_neg (by omega)]
        exact mag_pack (.inr htop) (Nat.le_of_lt htop')
      rw [hneg, Format.value, hsign, hmag,
        show productExp ea eb prod - 128 = productExp ea eb prod - 127 - 1 by omega,
        two_pow_place (by omega), Nat.cast_sub (by omega)]
      congr 3
      push_cast
      ring
    · rw [habs]
      exact hbelow
    · rw [habs]
      exact habove

end

end Q1a8
