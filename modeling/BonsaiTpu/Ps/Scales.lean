-- SUMMARY: The scales of the quantiser as the PS kernels and the PL kernel decode them (`native.c`, `fp16_to_fp32.v`).
import BonsaiTpu.Kernel.Conversions
import BonsaiTpu.Layout.Format
import BonsaiTpu.Ps.Half

/-!
# Scales

A scale goes over the wire as a half. `half_to_float` is exact on it, and
`fp16_to_fp32.v` flushes what is subnormal: the two agree on zero and on the normal
halves. The quantiser makes its scale from the largest magnitude of a block, and can
make a subnormal one.
-/

namespace Ps

open Floats Q1a8

/-! ## The quantiser -/

/-- The quotient of two numbers, the second of which is not zero. -/
def divF32 (x y : BitVec 32) : BitVec 32 :=
  BitVec.ofNat 32 (binary32.round (binary32.sign x.toNat != binary32.sign y.toNat)
    (binary32.magnitude x.toNat * 2 ^ 149) (binary32.magnitude y.toNat))

/-- `bonsai_amax_f32`, in its scalar form. -/
def bonsaiAmaxF32 (v : List (BitVec 32)) : BitVec 32 :=
  v.foldl (fun amax value =>
    if binary32.IsFinite value.toNat then
      let a := if binary32.value value.toNat < 0 then value ^^^ 0x80000000#32 else value
      if binary32.value a.toNat > binary32.value amax.toNat then a else amax
    else amax) 0#32

/-- `amax / 127.0f`. -/
def blockScale (block : List (BitVec 32)) : BitVec 32 := divF32 (bonsaiAmaxF32 block) 0x42fe0000#32

/-- What `bonsai_quantize_q8_0_pl` stores as the scale of a block. -/
def blockScaleBits (block : List (BitVec 32)) : BitVec 16 :=
  if binary32.value (bonsaiAmaxF32 block).toNat = 0 then 0#16 else floatToHalf (blockScale block)

/-! ## Decoding -/

/-- The two decoders agree on the halves that are zero or normal. -/
theorem fp16ToFp32_eq_halfToFloat {h : BitVec 16} (hfinite : binary16.IsFinite h.toNat) :
    fp16ToFp32 h = halfToFloat h ↔ binary16.payload h.toNat = 0 ∨
      2 ^ 10 ≤ binary16.payload h.toNat := by
  obtain ⟨bits, n, hsome, hbits, -, hnumber⟩ := halfToFloatWithin_eq h (Nat.le_refl 10)
  have hfloat : halfToFloat h = bits := by rw [halfToFloat, hsome, Option.getD_some]
  have hpayload := payload_binary16 h.toNat
  rw [Format.IsFinite, hpayload, show binary16.infinity = 31 * 2 ^ 10 from rfl] at hfinite
  obtain ⟨-, hmag⟩ := hnumber (by omega)
  have hpl := fp16ToFp32_toNat h
  rw [← BitVec.toNat_inj, hfloat, hbits, hpl, Format.pattern, Format.pattern,
    Nat.add_left_cancel_iff, hpayload]
  have hlt : h.toNat % 2 ^ 10 < 2 ^ 10 := Nat.mod_lt _ (Nat.two_pow_pos 10)
  rw [magnitude_binary16] at hmag
  by_cases he : h.toNat / 2 ^ 10 % 2 ^ 5 = 0
  · rw [if_pos he] at hmag ⊢
    have hzero : mag 23 0 = 0 := by rw [mag]; simp
    rw [he]
    constructor
    · rintro rfl
      rw [hzero] at hmag
      left
      have := (Nat.mul_eq_zero.mp hmag.symm).resolve_right (by decide)
      omega
    · intro hcase
      have hm : h.toNat % 2 ^ 10 = 0 := by omega
      rw [hm, Nat.zero_mul, ← hzero] at hmag
      exact ((mag_strictMono 23).injective hmag).symm
  · rw [if_neg he] at hmag ⊢
    refine iff_of_true ((mag_strictMono 23).injective ?_) (.inr (by omega))
    generalize h.toNat / 2 ^ 10 % 2 ^ 5 = e at he hfinite hmag ⊢
    generalize h.toNat % 2 ^ 10 = m at hlt hmag ⊢
    have hpack : (e + 112) * 2 ^ 23 + m * 2 ^ 13 = (e + 111) * 2 ^ 23 + (2 ^ 10 + m) * 2 ^ 13 := by
      omega
    have hsum : 13 + (e + 111) = e - 1 + 125 := by omega
    rw [hmag, hpack, mag_pack (.inr (by omega)) (by omega), Nat.mul_assoc, Nat.mul_assoc,
      ← Nat.pow_add, ← Nat.pow_add, hsum]

/-! ## What a scale rounds to -/

theorem payload_floatToHalf {s : BitVec 32} (hfinite : binary32.IsFinite s.toNat)
    (hsmall : ¬TooLarge s) :
    binary16.payload (floatToHalf s).toNat =
      min (roundMag 10 (binary32.magnitude s.toNat) (2 ^ 125)) binary16.infinity := by
  rw [floatToHalf_eq_round hfinite hsmall, Format.round,
    Format.payload_pattern (Nat.lt_of_le_of_lt (Nat.min_le_right _ _) Format.infinity_lt)]
  rfl

/-- The halves that the PL flushes come from the numbers below the middle of the last
    subnormal and the first normal half. -/
theorem payload_floatToHalf_lt {s : BitVec 32} (hfinite : binary32.IsFinite s.toNat) :
    binary16.payload (floatToHalf s).toNat < 2 ^ 10 ↔
      2 * binary32.magnitude s.toNat < 2047 * 2 ^ 125 := by
  have hinf : binary16.infinity = 31 * 2 ^ 10 := rfl
  by_cases hlarge : TooLarge s
  · have he := (le_abs_value _).mp hlarge.2.1
    have hnan := floatToHalf_nan he hlarge.2.2
    rw [Format.IsNan, hinf] at hnan
    have hmag : 2 ^ 165 ≤ binary32.magnitude s.toNat := by
      rw [magnitude_binary32, if_neg (by omega)]
      have hpow : 2 ^ 142 ≤ 2 ^ (s.toNat / 2 ^ 23 % 2 ^ 8 - 1) :=
        Nat.pow_le_pow_right (by decide) (by omega)
      calc 2 ^ 165 = 2 ^ 23 * 2 ^ 142 := by decide
        _ ≤ (2 ^ 23 + s.toNat % 2 ^ 23) * 2 ^ (s.toNat / 2 ^ 23 % 2 ^ 8 - 1) :=
          Nat.mul_le_mul (Nat.le_add_right _ _) hpow
    refine iff_of_false (by omega) ?_
    omega
  · have hmag : mag 10 (2 ^ 10) = 1024 ∧ mag 10 (2 ^ 10 - 1) = 1023 := by decide
    have hround := le_roundMag_iff (w := 10) (x := binary32.magnitude s.toNat) (d := 2 ^ 125)
      (n := 2 ^ 10) (by decide)
      (Nat.two_pow_pos _) (by decide)
    rw [hmag.1, hmag.2] at hround
    rw [payload_floatToHalf hfinite hlarge, hinf]
    omega

/-- And zero from those up to half of the least subnormal half. -/
theorem payload_floatToHalf_eq_zero {s : BitVec 32} (hfinite : binary32.IsFinite s.toNat) :
    binary16.payload (floatToHalf s).toNat = 0 ↔ 2 * binary32.magnitude s.toNat ≤ 2 ^ 125 := by
  by_cases hlow : binary16.payload (floatToHalf s).toNat < 2 ^ 10
  · have hsmall : ¬TooLarge s := by
      intro hlarge
      have hnan := floatToHalf_nan ((le_abs_value _).mp hlarge.2.1) hlarge.2.2
      rw [Format.IsNan, show binary16.infinity = 31 * 2 ^ 10 from rfl] at hnan
      omega
    have hmag : mag 10 1 = 1 ∧ mag 10 (1 - 1) = 0 := by decide
    have hround := le_roundMag_iff (w := 10) (x := binary32.magnitude s.toNat) (d := 2 ^ 125)
      (n := 1) (by decide)
      (Nat.two_pow_pos _) (by decide)
    rw [hmag.1, hmag.2] at hround
    rw [payload_floatToHalf hfinite hsmall, show binary16.infinity = 31 * 2 ^ 10 from rfl]
    omega
  · have hnot := (payload_floatToHalf_lt hfinite).not.mp hlow
    refine iff_of_false (by omega) ?_
    omega

/-! ## The largest magnitude -/

section

variable {v : BitVec 32}

theorem value_of_sign {b : Nat} (hsign : binary32.sign b = false) :
    binary32.value b = binary32.magnitude b * binary32.unit := by
  rw [Format.value, hsign]
  rfl

theorem sign_of_value_pos {b : Nat} (hpos : 0 < binary32.value b) : binary32.sign b = false := by
  by_contra hsign
  have hmag : 0 ≤ (binary32.magnitude b : ℚ) * binary32.unit :=
    mul_nonneg (Nat.cast_nonneg _) Format.unit_pos.le
  rw [Format.value, Bool.eq_true_of_not_eq_false hsign, signed, if_pos rfl] at hpos
  linarith

theorem payload_neg (v : BitVec 32) :
    binary32.payload (v ^^^ 0x80000000#32).toNat = binary32.payload v.toNat := by
  rw [BitVec.toNat_xor]
  change (v.toNat ^^^ 2 ^ 31) % 2 ^ 31 = v.toNat % 2 ^ 31
  rw [Nat.xor_mod_two_pow, Nat.mod_self, Nat.xor_zero]

theorem sign_neg (v : BitVec 32) :
    binary32.sign (v ^^^ 0x80000000#32).toNat = !binary32.sign v.toNat := by
  rw [BitVec.toNat_xor]
  change ((v.toNat ^^^ 2 ^ 31) / 2 ^ 31 % 2 == 1) = !(v.toNat / 2 ^ 31 % 2 == 1)
  rw [Nat.xor_div_two_pow, Nat.div_self (by decide)]
  rw [Bool.eq_iff_iff, beq_iff_eq, Nat.xor_mod_two_eq_one, Bool.not_eq_true', beq_eq_false_iff_ne]
  simp

/-- What the loop compares. -/
theorem value_abs (v : BitVec 32) :
    binary32.value (if binary32.value v.toNat < 0 then v ^^^ 0x80000000#32 else v).toNat =
      |binary32.value v.toNat| := by
  split
  · next hneg =>
    have hsign : binary32.sign v.toNat = true := by
      by_contra hsign
      rw [value_of_sign (Bool.eq_false_of_not_eq_true hsign)] at hneg
      have hmag : 0 ≤ (binary32.magnitude v.toNat : ℚ) * binary32.unit :=
        mul_nonneg (Nat.cast_nonneg _) Format.unit_pos.le
      linarith
    rw [Format.abs_value, value_of_sign (by rw [sign_neg, hsign]; rfl), Format.magnitude,
      payload_neg, Format.magnitude]
  · next hnonneg => rw [abs_of_nonneg (not_lt.mp hnonneg)]

/-- The largest magnitude of the numbers of a block, or zero. -/
structure IsAmax (values : List (BitVec 32)) (amax : BitVec 32) : Prop where
  sign : binary32.sign amax.toNat = false
  finite : binary32.IsFinite amax.toNat
  bound : ∀ v ∈ values, binary32.IsFinite v.toNat →
    |binary32.value v.toNat| ≤ binary32.value amax.toNat
  attained : binary32.value amax.toNat = 0 ∨ ∃ v ∈ values,
    |binary32.value v.toNat| = binary32.value amax.toNat

theorem bonsaiAmaxF32_isAmax (values : List (BitVec 32)) :
    IsAmax values (bonsaiAmaxF32 values) := by
  -- from the right: one more value at the end of the block
  induction values using List.reverseRecOn with
  | nil => exact ⟨rfl, by decide, by simp, .inl (Format.value_eq_zero.mpr (by decide))⟩
  | append_singleton values v ih =>
    rw [bonsaiAmaxF32, List.foldl_append, ← bonsaiAmaxF32, List.foldl_cons, List.foldl_nil]
    have hpos : 0 ≤ binary32.value (bonsaiAmaxF32 values).toNat := by
      rw [value_of_sign ih.sign]
      exact mul_nonneg (Nat.cast_nonneg _) Format.unit_pos.le
    have hkept : ∀ w, (∃ v ∈ values, |binary32.value v.toNat| = w) → ∃ u ∈ values ++ [v],
        |binary32.value u.toNat| = w :=
      fun w ⟨u, hu, hw⟩ => ⟨u, List.mem_append_left _ hu, hw⟩
    split
    · next hfinite =>
      simp only
      have hvalue := value_abs v
      have hpayload : binary32.IsFinite
          (if binary32.value v.toNat < 0 then v ^^^ 0x80000000#32 else v).toNat := by
        split
        · rw [Format.IsFinite, payload_neg]
          exact hfinite
        · exact hfinite
      generalize (if binary32.value v.toNat < 0 then v ^^^ 0x80000000#32 else v) = a
        at hvalue hpayload ⊢
      split
      · next hgt =>
        refine ⟨sign_of_value_pos (lt_of_le_of_lt hpos hgt), hpayload, ?_,
          .inr ⟨v, by simp, hvalue.symm⟩⟩
        intro u hu hu'
        rcases List.mem_append.mp hu with hu | hu
        · exact (ih.bound u hu hu').trans hgt.le
        · rw [List.mem_singleton.mp hu, hvalue]
      · next hle =>
        refine ⟨ih.sign, ih.finite, ?_, ih.attained.imp id (hkept _)⟩
        intro u hu hu'
        rcases List.mem_append.mp hu with hu | hu
        · exact ih.bound u hu hu'
        · rw [List.mem_singleton.mp hu, ← hvalue]
          exact not_lt.mp hle
    · next hnot =>
      refine ⟨ih.sign, ih.finite, ?_, ih.attained.imp id (hkept _)⟩
      intro u hu hu'
      rcases List.mem_append.mp hu with hu | hu
      · exact ih.bound u hu hu'
      · exact absurd hu' (List.mem_singleton.mp hu ▸ hnot)

end

/-! ## The scale of a block -/

section

variable {amax : BitVec 32}

theorem magnitude_127 : binary32.magnitude (0x42fe0000#32).toNat = 127 * 2 ^ 149 := by decide

/-- A quotient by 127 in the pattern of a scale. -/
theorem divF32_toNat (hsign : binary32.sign amax.toNat = false)
    (hfinite : binary32.IsFinite amax.toNat) :
    (divF32 amax 0x42fe0000#32).toNat = roundMag 23 (binary32.magnitude amax.toNat * 2 ^ 149)
      (127 * 2 ^ 149) ∧
      roundMag 23 (binary32.magnitude amax.toNat * 2 ^ 149) (127 * 2 ^ 149) <
        binary32.infinity := by
  have hd : 0 < 127 * 2 ^ 149 := by decide
  have hlt : roundMag 23 (binary32.magnitude amax.toNat * 2 ^ 149) (127 * 2 ^ 149) <
      binary32.infinity := by
    by_contra hge
    have hover := (Format.infinity_le_roundMag (f := binary32) hd).mp (Nat.not_lt.mp hge)
    have hlimit := Format.limit_gt_of_isFinite hfinite
    rw [← Nat.mul_assoc] at hover
    have hle := Nat.le_of_mul_le_mul_right hover (Nat.two_pow_pos 149)
    omega
  have hsmall : roundMag 23 (binary32.magnitude amax.toNat * 2 ^ 149) (127 * 2 ^ 149) < 2 ^ 32 :=
    Nat.lt_trans hlt (by decide)
  refine ⟨?_, hlt⟩
  have hpos : binary32.sign (0x42fe0000#32).toNat = false := rfl
  have hfrac : binary32.fracBits = 23 := rfl
  rw [divF32, hsign, hpos, magnitude_127, Format.round, hfrac, Nat.min_eq_left (Nat.le_of_lt hlt),
    BitVec.toNat_ofNat, Format.pattern]
  change (0 * _ + _) % _ = _
  rw [Nat.zero_mul, Nat.zero_add, Nat.mod_eq_of_lt hsmall]

/-- The magnitude of a scale. -/
theorem magnitude_divF32 (hsign : binary32.sign amax.toNat = false)
    (hfinite : binary32.IsFinite amax.toNat) :
    binary32.IsFinite (divF32 amax 0x42fe0000#32).toNat ∧
      binary32.magnitude (divF32 amax 0x42fe0000#32).toNat =
        mag 23 (roundMag 23 (binary32.magnitude amax.toNat * 2 ^ 149) (127 * 2 ^ 149)) := by
  obtain ⟨hdiv, hlt⟩ := divF32_toNat hsign hfinite
  have hpayload : binary32.payload (divF32 amax 0x42fe0000#32).toNat =
      (divF32 amax 0x42fe0000#32).toNat :=
    Nat.mod_eq_of_lt (Nat.lt_trans (hdiv ▸ hlt) Format.infinity_lt)
  rw [Format.IsFinite, Format.magnitude, hpayload, hdiv]
  exact ⟨hlt, rfl⟩

/-- A scale is zero up to half of the least subnormal number. -/
theorem magnitude_divF32_eq_zero (hsign : binary32.sign amax.toNat = false)
    (hfinite : binary32.IsFinite amax.toNat) :
    binary32.magnitude (divF32 amax 0x42fe0000#32).toNat = 0 ↔
      2 * binary32.magnitude amax.toNat ≤ 127 := by
  have hmag : mag 23 1 = 1 ∧ mag 23 (1 - 1) = 0 := by decide
  have hround := le_roundMag_iff (w := 23) (x := binary32.magnitude amax.toNat * 2 ^ 149)
    (d := 127 * 2 ^ 149) (n := 1) (by decide) (by decide) (by decide)
  rw [hmag.1, hmag.2] at hround
  have hzero : mag 23 0 = 0 := by decide
  rw [(magnitude_divF32 hsign hfinite).2, ← hzero, (mag_strictMono 23).injective.eq_iff]
  omega

/-- A scale is below the normal halves up to the middle of two floats. -/
theorem magnitude_divF32_lt (hsign : binary32.sign amax.toNat = false)
    (hfinite : binary32.IsFinite amax.toNat) :
    2 * binary32.magnitude (divF32 amax 0x42fe0000#32).toNat < 2047 * 2 ^ 125 ↔
      binary32.magnitude amax.toNat < 127 * (2047 * 2 ^ 14 - 1) * 2 ^ 110 := by
  have hmag : mag 23 (111 * 2 ^ 23 + 2047 * 2 ^ 13) = 2047 * 2 ^ 124 ∧
      mag 23 (111 * 2 ^ 23 + 2047 * 2 ^ 13 - 1) = (2047 * 2 ^ 13 - 1) * 2 ^ 111 := by decide
  have hround := le_roundMag_iff (w := 23) (x := binary32.magnitude amax.toNat * 2 ^ 149)
    (d := 127 * 2 ^ 149) (n := 111 * 2 ^ 23 + 2047 * 2 ^ 13) (by decide) (by decide) (by decide)
  rw [hmag.1, hmag.2] at hround
  have hlt := (mag_strictMono 23).lt_iff_lt
    (a := roundMag 23 (binary32.magnitude amax.toNat * 2 ^ 149) (127 * 2 ^ 149))
    (b := 111 * 2 ^ 23 + 2047 * 2 ^ 13)
  rw [hmag.1] at hlt
  rw [(magnitude_divF32 hsign hfinite).2]
  omega

end

/-! ## Agreement -/

/-- The PL decodes the subnormal halves, and zero, as zero. -/
theorem value_fp16ToFp32_eq_zero (h : BitVec 16) :
    binary32.value (fp16ToFp32 h).toNat = 0 ↔ binary16.payload h.toNat < 2 ^ 10 := by
  have hpayload := payload_binary16 h.toNat
  have helt : h.toNat / 2 ^ 10 % 2 ^ 5 < 2 ^ 5 := Nat.mod_lt _ (Nat.two_pow_pos 5)
  have hmlt : h.toNat % 2 ^ 10 < 2 ^ 10 := Nat.mod_lt _ (Nat.two_pow_pos 10)
  have hzero : mag 23 0 = 0 := by decide
  have hplace : binary32.signPlace = 2 ^ 31 := rfl
  rw [Format.value_eq_zero, Format.magnitude, fp16ToFp32_toNat,
    Format.payload_pattern (by rw [hplace]; split <;> omega)]
  change mag 23 _ = 0 ↔ _
  rw [← hzero, (mag_strictMono 23).injective.eq_iff, hpayload]
  split <;> omega

section

variable {s : BitVec 32} (hsign : binary32.sign s.toNat = false)

include hsign

theorem value_le_iff : binary32.value s.toNat ≤ 2 ^ (-25 : ℤ) ↔
    2 * binary32.magnitude s.toNat ≤ 2 ^ 125 := by
  have hunit : (2 : ℚ) ^ (-25 : ℤ) = ((2 ^ 124 : Nat) : ℚ) * binary32.unit := by
    rw [unit_binary32]
    norm_num
  rw [value_of_sign hsign, hunit, mul_le_mul_iff_left₀ Format.unit_pos, Nat.cast_le]
  omega

theorem le_value_iff :
    2047 * 2 ^ (-25 : ℤ) ≤ binary32.value s.toNat ↔
      ¬2 * binary32.magnitude s.toNat < 2047 * 2 ^ 125 := by
  have hunit : 2047 * (2 : ℚ) ^ (-25 : ℤ) = ((2047 * 2 ^ 124 : Nat) : ℚ) * binary32.unit := by
    rw [unit_binary32]
    norm_num
  rw [value_of_sign hsign, hunit, mul_le_mul_iff_left₀ Format.unit_pos, Nat.cast_le]
  omega

theorem lt_value_iff : 127 * 2 ^ (-150 : ℤ) < binary32.value s.toNat ↔
    ¬2 * binary32.magnitude s.toNat ≤ 127 := by
  have hunit : 127 * (2 : ℚ) ^ (-150 : ℤ) * 2 = ((127 : Nat) : ℚ) * binary32.unit := by
    rw [unit_binary32]
    norm_num
  have hdouble : binary32.value s.toNat * 2 =
      ((2 * binary32.magnitude s.toNat : Nat) : ℚ) * binary32.unit := by
    rw [value_of_sign hsign, Nat.cast_mul]
    ring
  rw [← mul_lt_mul_iff_left₀ (two_pos : (0 : ℚ) < 2), hunit, hdouble,
    mul_lt_mul_iff_left₀ Format.unit_pos, Nat.cast_lt]
  omega

theorem value_lt_iff :
    binary32.value s.toNat < 127 * (2047 * 2 ^ 14 - 1) * 2 ^ (-39 : ℤ) ↔
      binary32.magnitude s.toNat < 127 * (2047 * 2 ^ 14 - 1) * 2 ^ 110 := by
  have hunit : 127 * (2047 * 2 ^ 14 - 1) * (2 : ℚ) ^ (-39 : ℤ) =
      ((127 * (2047 * 2 ^ 14 - 1) * 2 ^ 110 : Nat) : ℚ) * binary32.unit := by
    rw [unit_binary32]
    norm_num
  rw [value_of_sign hsign, hunit, mul_lt_mul_iff_left₀ Format.unit_pos, Nat.cast_lt]

/-- A scale that goes over the wire. -/
theorem wire_scale_iff (hfinite : binary32.IsFinite s.toNat)
    (hlt : binary32.value s.toNat < 65520) :
    fp16ToFp32 (floatToHalf s) = halfToFloat (floatToHalf s) ↔
      binary32.value s.toNat ≤ 2 ^ (-25 : ℤ) ∨ 2047 * 2 ^ (-25 : ℤ) ≤ binary32.value s.toNat := by
  have habs : |binary32.value s.toNat| = binary32.value s.toNat := by
    rw [Format.abs_value, value_of_sign hsign]
  have hsmall : ¬TooLarge s := by
    rintro ⟨-, hlarge, -⟩
    rw [habs] at hlarge
    norm_num at hlarge
    linarith
  have hround := floatToHalf_nearestEven hfinite hsmall
  have hhalf := hround.finite (by rw [habs, limit_binary16]; exact hlt)
  rw [fp16ToFp32_eq_halfToFloat hhalf, payload_floatToHalf_eq_zero hfinite, value_le_iff hsign,
    le_value_iff hsign, ← payload_floatToHalf_lt hfinite, Nat.not_lt]

end

/-- A weight scale. -/
theorem weight_scale_iff {h : BitVec 16} (hsign : binary16.sign h.toNat = false)
    (hfinite : binary16.IsFinite h.toNat) :
    fp16ToFp32 h = halfToFloat h ↔ binary16.value h.toNat = 0 ∨
      2 ^ (-14 : ℤ) ≤ binary16.value h.toNat := by
  have hunit : (2 : ℚ) ^ (-14 : ℤ) = ((2 ^ 10 : Nat) : ℚ) * binary16.unit := by
    rw [unit_binary16]
    norm_num
  have hvalue : binary16.value h.toNat = binary16.magnitude h.toNat * binary16.unit := by
    rw [Format.value, hsign]
    rfl
  have hmag : mag 10 0 = 0 ∧ mag 10 (2 ^ 10) = 2 ^ 10 := by decide
  rw [fp16ToFp32_eq_halfToFloat hfinite, Format.value_eq_zero, hvalue, hunit,
    mul_le_mul_iff_left₀ Format.unit_pos, Nat.cast_le, Format.magnitude]
  have hzero := (mag_strictMono 10).injective.eq_iff (a := binary16.payload h.toNat) (b := 0)
  have hnormal := (mag_strictMono 10).le_iff_le (a := 2 ^ 10) (b := binary16.payload h.toNat)
  rw [hmag.1] at hzero
  rw [hmag.2] at hnormal
  exact or_congr hzero.symm hnormal.symm

/-- A block whose scale is not zero and is decoded as zero by the PL. -/
theorem flushed_block_iff {block : List (BitVec 32)}
    (hfinite : ∀ v ∈ block, binary32.IsFinite v.toNat) :
    (binary32.value (blockScale block).toNat ≠ 0 ∧
      binary32.value (fp16ToFp32 (blockScaleBits block)).toNat = 0) ↔
      (∃ v ∈ block, 127 * 2 ^ (-150 : ℤ) < |binary32.value v.toNat|) ∧
        ∀ v ∈ block, |binary32.value v.toNat| < 127 * (2047 * 2 ^ 14 - 1) * 2 ^ (-39 : ℤ) := by
  have hamax := bonsaiAmaxF32_isAmax block
  have hexists : (∃ v ∈ block, 127 * 2 ^ (-150 : ℤ) < |binary32.value v.toNat|) ↔
      127 * 2 ^ (-150 : ℤ) < binary32.value (bonsaiAmaxF32 block).toNat := by
    constructor
    · rintro ⟨v, hv, hlt⟩
      exact hlt.trans_le (hamax.bound v hv (hfinite v hv))
    · intro hlt
      rcases hamax.attained with hzero | ⟨v, hv, hvalue⟩
      · rw [hzero] at hlt
        norm_num at hlt
      · exact ⟨v, hv, hvalue ▸ hlt⟩
  have hall : (∀ v ∈ block, |binary32.value v.toNat| < 127 * (2047 * 2 ^ 14 - 1) * 2 ^ (-39 : ℤ)) ↔
      binary32.value (bonsaiAmaxF32 block).toNat < 127 * (2047 * 2 ^ 14 - 1) * 2 ^ (-39 : ℤ) := by
    constructor
    · intro hlt
      rcases hamax.attained with hzero | ⟨v, hv, hvalue⟩
      · rw [hzero]
        norm_num
      · rw [← hvalue]
        exact hlt v hv
    · exact fun hlt v hv => (hamax.bound v hv (hfinite v hv)).trans_lt hlt
  rw [hexists, hall, lt_value_iff hamax.sign, value_lt_iff hamax.sign,
    ← magnitude_divF32_eq_zero hamax.sign hamax.finite,
    ← magnitude_divF32_lt hamax.sign hamax.finite, ne_eq, Format.value_eq_zero,
    value_fp16ToFp32_eq_zero]
  refine and_congr_right fun hne => ?_
  have hamaxne : ¬binary32.value (bonsaiAmaxF32 block).toNat = 0 := by
    rw [Format.value_eq_zero]
    intro hzero
    refine hne ((magnitude_divF32_eq_zero hamax.sign hamax.finite).mpr ?_)
    omega
  rw [blockScaleBits, if_neg hamaxne]
  exact payload_floatToHalf_lt (magnitude_divF32 hamax.sign hamax.finite).1

/-- The scales on which the two decoders agree: those that round to zero or to a normal half,
    and the weight scales that are zero or normal. A block has a scale that is not zero and
    is decoded as zero exactly if its magnitudes lie in a certain range. -/
theorem scales_agree (s : BitVec 32) (h : BitVec 16) (block : List (BitVec 32)) :
    (binary32.sign s.toNat = false → binary32.IsFinite s.toNat → binary32.value s.toNat < 65520 →
      (fp16ToFp32 (floatToHalf s) = halfToFloat (floatToHalf s) ↔
        binary32.value s.toNat ≤ 2 ^ (-25 : ℤ) ∨ 2047 * 2 ^ (-25 : ℤ) ≤ binary32.value s.toNat)) ∧
    (binary16.sign h.toNat = false → binary16.IsFinite h.toNat →
      (fp16ToFp32 h = halfToFloat h ↔ binary16.value h.toNat = 0 ∨
        2 ^ (-14 : ℤ) ≤ binary16.value h.toNat)) ∧
    ((∀ v ∈ block, binary32.IsFinite v.toNat) →
      ((binary32.value (blockScale block).toNat ≠ 0 ∧
        binary32.value (fp16ToFp32 (blockScaleBits block)).toNat = 0) ↔
        (∃ v ∈ block, 127 * 2 ^ (-150 : ℤ) < |binary32.value v.toNat|) ∧
          ∀ v ∈ block, |binary32.value v.toNat| < 127 * (2047 * 2 ^ 14 - 1) * 2 ^ (-39 : ℤ))) :=
  ⟨wire_scale_iff, weight_scale_iff, flushed_block_iff⟩

/-- The scale `2 ^ -20` of a block of `127 * 2 ^ -20` is exact on the PS and zero on the PL. -/
theorem scale_of_small_block :
    halfToFloat (floatToHalf 0x35800000#32) = 0x35800000#32 ∧
      fp16ToFp32 (floatToHalf 0x35800000#32) = 0#32 ∧
      binary32.value (blockScale (List.replicate 32 0x38fe0000#32)).toNat ≠ 0 ∧
      binary32.value (fp16ToFp32 (blockScaleBits (List.replicate 32 0x38fe0000#32))).toNat = 0 := by
  have hfinite : ∀ v ∈ List.replicate 32 0x38fe0000#32, binary32.IsFinite v.toNat := by
    intro v hv
    rw [List.eq_of_mem_replicate hv]
    decide
  have hvalue : |binary32.value (0x38fe0000#32).toNat| = 127 * 2 ^ (-20 : ℤ) := by
    have hmag : binary32.magnitude (0x38fe0000#32).toNat = 127 * 2 ^ 129 := by decide
    rw [Format.abs_value, hmag, unit_binary32]
    norm_num
  refine ⟨by decide, by decide,
    (flushed_block_iff hfinite).mpr ⟨⟨0x38fe0000#32, by simp, ?_⟩, fun v hv => ?_⟩⟩
  · rw [hvalue]
    norm_num
  · rw [List.eq_of_mem_replicate hv, hvalue]
    norm_num

end Ps
