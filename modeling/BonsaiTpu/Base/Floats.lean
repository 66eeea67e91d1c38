-- SUMMARY: Binary floating-point formats: patterns and their values, rounding to the nearest and toward zero.
import Mathlib.Algebra.Order.Field.Power
import Mathlib.Algebra.Order.Field.Rat
import Mathlib.Data.BitVec
import Mathlib.Order.Monotone.Basic
import Mathlib.Tactic.FieldSimp
import Mathlib.Tactic.Linarith
import Mathlib.Tactic.Positivity
import Mathlib.Tactic.Ring
import Mathlib.Tactic.NormNum

/-!
# Floating-point formats

A pattern is a natural number with a sign, an exponent and a fraction field. Without its
sign it is a magnitude, counted in units of the least subnormal number: the patterns from
`k * 2 ^ fracBits + 2 ^ fracBits` on are multiples of `2 ^ k`, and the magnitude grows
with the pattern. Rounding is then rounding of a quotient on one such grid.
-/

namespace Floats

/-! ## Magnitudes -/

/-- The magnitude of a pattern without its sign, with `w` bits of fraction. -/
def mag (w n : Nat) : Nat := if n / 2 ^ w = 0 then n % 2 ^ w
    else (2 ^ w + n % 2 ^ w) * 2 ^ (n / 2 ^ w - 1)

section

variable {w k c n : Nat}

/-- The patterns around those with exponent field `k + 1` are multiples of `2 ^ k`. -/
theorem mag_pack (hk : k = 0 ∨ 2 ^ w ≤ c) (hc : c ≤ 2 ^ (w + 1)) :
    mag w (k * 2 ^ w + c) = c * 2 ^ k := by
  have hpos : 0 < 2 ^ w := Nat.two_pow_pos w
  have hw : 2 ^ (w + 1) = 2 ^ w + 2 ^ w := by rw [Nat.pow_succ, Nat.mul_two]
  have hfields : ∀ e m, m < 2 ^ w → (e * 2 ^ w + m) / 2 ^ w = e ∧ (e * 2 ^ w + m) % 2 ^ w = m := by
    intro e m hm
    constructor
    · rw [Nat.mul_comm, Nat.mul_add_div hpos, Nat.div_eq_of_lt hm, Nat.add_zero]
    · rw [Nat.mul_comm, Nat.mul_add_mod, Nat.mod_eq_of_lt hm]
  rcases Nat.lt_or_ge c (2 ^ w) with hsub | hnormal
  · obtain rfl : k = 0 := hk.resolve_right (Nat.not_le.mpr hsub)
    rw [mag, (hfields 0 c hsub).1, (hfields 0 c hsub).2, if_pos rfl, Nat.pow_zero, Nat.mul_one]
  · rcases Nat.eq_or_lt_of_le hc with rfl | hlt
    · have hsplit : k * 2 ^ w + 2 ^ (w + 1) = (k + 2) * 2 ^ w + 0 := by rw [hw]; ring
      rw [hsplit, mag, (hfields _ 0 hpos).1, (hfields _ 0 hpos).2, if_neg (by omega), Nat.add_zero,
        show k + 2 - 1 = k + 1 by omega]
      ring
    · have hsplit : k * 2 ^ w + c = (k + 1) * 2 ^ w + (c - 2 ^ w) := by rw [Nat.succ_mul]; omega
      rw [hsplit, mag, (hfields _ _ (by omega)).1, (hfields _ _ (by omega)).2, if_neg (by omega),
        Nat.add_sub_cancel, show 2 ^ w + (c - 2 ^ w) = c by omega]

theorem exists_pack (w n : Nat) :
    ∃ k c, n = k * 2 ^ w + c ∧ (k = 0 ∨ 2 ^ w ≤ c) ∧ c < 2 ^ (w + 1) := by
  have hpos : 0 < 2 ^ w := Nat.two_pow_pos w
  have hw : 2 ^ (w + 1) = 2 ^ w + 2 ^ w := by rw [Nat.pow_succ, Nat.mul_two]
  have hdiv := Nat.div_add_mod n (2 ^ w)
  have hmod := Nat.mod_lt n hpos
  cases he : n / 2 ^ w with
  | zero => exact ⟨0, n, by omega, .inl rfl, by rw [he] at hdiv; omega⟩
  | succ k =>
    refine ⟨k, 2 ^ w + n % 2 ^ w, ?_, .inr (Nat.le_add_right _ _), by omega⟩
    rw [he, Nat.mul_comm, Nat.succ_mul] at hdiv
    omega

/-- The next magnitude is one step of the grid away. -/
theorem mag_succ (hk : k = 0 ∨ 2 ^ w ≤ c) (hc : c < 2 ^ (w + 1)) :
    mag w (k * 2 ^ w + c + 1) = mag w (k * 2 ^ w + c) + 2 ^ k := by
  rw [Nat.add_assoc, mag_pack (hk.imp id fun h => by omega) hc,
    mag_pack hk (Nat.le_of_lt hc), Nat.succ_mul]

theorem mag_strictMono (w : Nat) : StrictMono (mag w) := by
  refine strictMono_nat_of_lt_succ fun n => ?_
  obtain ⟨k, c, rfl, hk, hc⟩ := exists_pack w n
  rw [mag_succ hk hc]
  exact Nat.lt_add_of_pos_right (Nat.two_pow_pos k)

/-- A magnitude is on the grid, or below its start. -/
theorem mag_grid (w k n : Nat) : (∃ c, mag w n = c * 2 ^ k) ∨ mag w n < 2 ^ w * 2 ^ k := by
  rcases Nat.lt_or_ge n (k * 2 ^ w + 2 ^ w) with hlt | hge
  · right
    rw [← mag_pack (k := k) (.inr (Nat.le_refl _)) (by rw [Nat.pow_succ]; omega)]
    exact mag_strictMono w hlt
  · left
    obtain ⟨j, c, rfl, hj, hc⟩ := exists_pack w n
    have hle : k ≤ j := by
      by_contra hlt
      have hmul : (j + 1) * 2 ^ w ≤ k * 2 ^ w := Nat.mul_le_mul_right _ (by omega)
      rw [Nat.succ_mul] at hmul
      rw [Nat.pow_succ] at hc
      omega
    refine ⟨c * 2 ^ (j - k), ?_⟩
    rw [mag_pack hj (Nat.le_of_lt hc), Nat.mul_assoc, ← Nat.pow_add, Nat.sub_add_cancel hle]

end

/-! ## Rounding to the nearest -/

/-- A quotient rounded to the nearest number, and to the even one of two. -/
def roundQuot (x d : Nat) : Nat :=
  if d < 2 * (x % d) ∨ 2 * (x % d) = d ∧ x / d % 2 = 1 then x / d + 1 else x / d

/-- How far a multiple of `d` is from `x`. -/
def gap (x d c : Nat) : Nat := (c * d - x) + (x - c * d)

section

variable {w k c x d : Nat}

theorem gap_of_le (h : c * d ≤ x) : gap x d c = x - c * d := by
  rw [gap, Nat.sub_eq_zero_of_le h, Nat.zero_add]

theorem gap_of_ge (h : x ≤ c * d) : gap x d c = c * d - x := by
  rw [gap, Nat.sub_eq_zero_of_le h, Nat.add_zero]

/-- Multiples at or below the quotient, and above it. -/
theorem gap_cases (hd : 0 < d) (c : Nat) :
    c ≤ x / d ∧ gap x d c = x % d + (x / d - c) * d ∨ x / d < c ∧
      gap x d c + x % d = (c - x / d) * d := by
  have hdiv : x / d * d + x % d = x := Nat.div_add_mod' x d
  rcases Nat.lt_or_ge (x / d) c with hlt | hle
  · right
    have hmul : c * d = x / d * d + (c - x / d) * d := by
      rw [← Nat.add_mul, Nat.add_sub_cancel' (Nat.le_of_lt hlt)]
    have hone : 1 * d ≤ (c - x / d) * d := Nat.mul_le_mul_right d (by omega)
    have hmod := Nat.mod_lt x hd
    refine ⟨hlt, ?_⟩
    rw [gap_of_ge (by omega)]
    omega
  · left
    have hmul : x / d * d = c * d + (x / d - c) * d := by
      rw [← Nat.add_mul, Nat.add_sub_cancel' hle]
    refine ⟨hle, ?_⟩
    rw [gap_of_le (by omega)]
    omega

theorem gap_roundQuot_le (hd : 0 < d) (c : Nat) : gap x d (roundQuot x d) ≤ gap x d c := by
  have hmod := Nat.mod_lt x hd
  have hbelow := gap_cases (x := x) hd (x / d)
  have habove := gap_cases (x := x) hd (x / d + 1)
  rw [Nat.sub_self, Nat.zero_mul] at hbelow
  rw [Nat.add_sub_cancel_left, Nat.one_mul] at habove
  have hother : x % d ≤ gap x d c ∧ c ≤ x / d ∨ d - x % d ≤ gap x d c := by
    rcases gap_cases (x := x) hd c with ⟨hle, hgap⟩ | ⟨hlt, hgap⟩
    · exact .inl ⟨by omega, hle⟩
    · have hone : 1 * d ≤ (c - x / d) * d := Nat.mul_le_mul_right d (by omega)
      exact .inr (by omega)
  rw [roundQuot]
  split <;> omega

/-- Of two nearest multiples the even one is taken. -/
theorem roundQuot_even (hd : 0 < d) (htie : gap x d c = gap x d (roundQuot x d))
    (hne : c ≠ roundQuot x d) :
    roundQuot x d % 2 = 0 := by
  have hmod := Nat.mod_lt x hd
  have hbelow := gap_cases (x := x) hd (x / d)
  have habove := gap_cases (x := x) hd (x / d + 1)
  rw [Nat.sub_self, Nat.zero_mul] at hbelow
  rw [Nat.add_sub_cancel_left, Nat.one_mul] at habove
  have hother : c = x / d ∨ c = x / d + 1 ∨ x % d + d ≤ gap x d c ∨ 2 * d - x % d ≤ gap x d c := by
    rcases gap_cases (x := x) hd c with ⟨hle, hgap⟩ | ⟨hlt, hgap⟩
    · rcases Nat.eq_or_lt_of_le hle with h | h
      · exact .inl h
      · have hone : 1 * d ≤ (x / d - c) * d := Nat.mul_le_mul_right d (by omega)
        exact .inr (.inr (.inl (by omega)))
    · rcases Nat.eq_or_lt_of_le hlt with h | h
      · exact .inr (.inl h.symm)
      · have htwo : 2 * d ≤ (c - x / d) * d := Nat.mul_le_mul_right d (by omega)
        exact .inr (.inr (.inr (by omega)))
  by_cases hup : d < 2 * (x % d) ∨ 2 * (x % d) = d ∧ x / d % 2 = 1
  · have hround : roundQuot x d = x / d + 1 := if_pos hup
    rw [hround] at htie hne ⊢
    rcases hother with rfl | h | h | h <;> omega
  · have hround : roundQuot x d = x / d := if_neg hup
    rw [hround] at htie hne ⊢
    rcases hother with h | rfl | h | h <;> omega

theorem roundQuot_le {q : Nat} (hd : 0 < d) (h : x ≤ q * d) : roundQuot x d ≤ q := by
  have hdiv : x / d * d + x % d = x := Nat.div_add_mod' x d
  rw [roundQuot]
  rcases Nat.lt_or_ge (x / d) q with hlt | hge
  · split <;> omega
  · have hmul : q * d ≤ x / d * d := Nat.mul_le_mul_right d hge
    have hq : x / d = q := by
      refine Nat.le_antisymm ?_ hge
      exact Nat.le_of_mul_le_mul_right (by omega) hd
    rw [if_neg (by omega)]
    omega

theorem le_roundQuot {q : Nat} (hd : 0 < d) (h : q * d ≤ x) : q ≤ roundQuot x d := by
  have hq : q ≤ x / d := (Nat.le_div_iff_mul_le hd).mpr h
  rw [roundQuot]
  split <;> omega

theorem roundQuot_mul {p : Nat} (hp : 0 < p) (x d : Nat) :
    roundQuot (x * p) (d * p) = roundQuot x d := by
  rw [roundQuot, roundQuot, Nat.mul_mod_mul_right, Nat.mul_div_mul_right _ _ hp, ← Nat.mul_assoc]
  refine if_congr (or_congr ?_ (and_congr ?_ Iff.rfl)) rfl rfl
  · exact Nat.mul_lt_mul_right hp
  · exact Nat.mul_left_inj (by omega)

/-- An even multiple is passed through. -/
theorem roundQuot_add (hd : 0 < d) (heven : c % 2 = 0) (x : Nat) :
    roundQuot (c * d + x) d = c + roundQuot x d := by
  have hdiv : (c * d + x) / d = c + x / d := by rw [Nat.mul_comm, Nat.mul_add_div hd]
  have hmod : (c * d + x) % d = x % d := by rw [Nat.mul_comm, Nat.mul_add_mod]
  have hparity : (c + x / d) % 2 = x / d % 2 := by
    rw [Nat.add_mod, heven, Nat.zero_add, Nat.mod_mod]
  rw [roundQuot, roundQuot, hdiv, hmod, hparity]
  split
  · rfl
  · rfl

theorem roundQuot_eq_zero (h : 2 * x < d) : roundQuot x d = 0 := by
  rw [roundQuot, Nat.mod_eq_of_lt (by omega), Nat.div_eq_of_lt (by omega), if_neg (by omega)]

theorem gap_mul (x d c p : Nat) : gap x (p * d) c = gap x d (c * p) := by
  rw [gap, gap, Nat.mul_assoc]

/-- Rounding on the grid that starts at or below the quotient is rounding to the nearest of
    all magnitudes. -/
theorem gap_le_mag (hd : 0 < d) (hk : k = 0 ∨ 2 ^ w * 2 ^ k * d ≤ x) (n : Nat) :
    gap x d (roundQuot x (2 ^ k * d) * 2 ^ k) ≤ gap x d (mag w n) ∧
      (gap x d (mag w n) = gap x d (roundQuot x (2 ^ k * d) * 2 ^ k) →
        mag w n ≠ roundQuot x (2 ^ k * d) * 2 ^ k →
        roundQuot x (2 ^ k * d) % 2 = 0) := by
  have hpos : 0 < 2 ^ k * d := Nat.mul_pos (Nat.two_pow_pos k) hd
  have hnear : ∀ c, gap x d (roundQuot x (2 ^ k * d) * 2 ^ k) ≤ gap x d (c * 2 ^ k) := by
    intro c
    rw [← gap_mul, ← gap_mul]
    exact gap_roundQuot_le hpos c
  have hgrid : (∃ c, mag w n = c * 2 ^ k) ∨ mag w n < 2 ^ w * 2 ^ k ∧ 2 ^ w * 2 ^ k * d ≤ x := by
    rcases hk with rfl | hk
    · exact .inl ⟨mag w n, by rw [Nat.pow_zero, Nat.mul_one]⟩
    · exact (mag_grid w k n).imp id fun h => ⟨h, hk⟩
  rcases hgrid with ⟨c, hc⟩ | ⟨hlow, hk⟩
  · rw [hc]
    refine ⟨hnear c, fun htie hne => ?_⟩
    rw [← gap_mul, ← gap_mul] at htie
    exact roundQuot_even hpos htie fun h => hne (by rw [h])
  · -- below the start of the grid nothing is as near as its start
    have hstart : gap x d (roundQuot x (2 ^ k * d) * 2 ^ k) < gap x d (mag w n) := by
      have hmul : mag w n * d < 2 ^ w * 2 ^ k * d := Nat.mul_lt_mul_of_pos_right hlow hd
      refine Nat.lt_of_le_of_lt (hnear (2 ^ w)) ?_
      rw [gap_of_le hk, gap_of_le (by omega)]
      omega
    exact ⟨Nat.le_of_lt hstart, fun htie => absurd htie (by omega)⟩

/-- The pattern with the magnitude nearest to a quotient. -/
def roundMag (w x d : Nat) : Nat :=
  ((x / d).log2 - w) * 2 ^ w + roundQuot x (2 ^ ((x / d).log2 - w) * d)

theorem exists_grid (w x : Nat) (hd : 0 < d) :
    ∃ k, (k = 0 ∨ 2 ^ w * 2 ^ k * d ≤ x) ∧ x < 2 ^ (w + 1) * 2 ^ k * d := by
  refine ⟨(x / d).log2 - w, ?_, ?_⟩
  · rcases Nat.lt_or_ge w (x / d).log2 with hlt | hge
    · right
      rw [← Nat.pow_add, Nat.add_sub_cancel' (Nat.le_of_lt hlt), ← Nat.le_div_iff_mul_le hd]
      exact Nat.log2_self_le fun h => by rw [h] at hlt; simp at hlt
    · exact .inl (by omega)
  · rw [← Nat.pow_add, ← Nat.div_lt_iff_lt_mul hd]
    refine Nat.lt_of_lt_of_le Nat.lt_log2_self ?_
    exact Nat.pow_le_pow_right (by decide) (by omega)

/-- Any grid that holds the quotient gives the pattern. -/
theorem roundMag_eq (hd : 0 < d) (hk : k = 0 ∨ 2 ^ w * 2 ^ k * d ≤ x)
    (hx : x < 2 ^ (w + 1) * 2 ^ k * d) :
    roundMag w x d = k * 2 ^ w + roundQuot x (2 ^ k * d) := by
  have hlog : (x / d).log2 - w = k := by
    have hlt : x / d < 2 ^ (w + 1 + k) := by
      rw [Nat.div_lt_iff_lt_mul hd, Nat.pow_add]
      exact hx
    rcases hk with rfl | hk
    · rcases Nat.eq_zero_or_pos (x / d) with h0 | hpos
      · rw [h0]
        simp
      · have := (Nat.log2_lt (by omega)).mpr hlt
        omega
    · have hge : 2 ^ (w + k) ≤ x / d := by
        rw [Nat.le_div_iff_mul_le hd, Nat.pow_add]
        exact hk
      have hne : x / d ≠ 0 := by
        have := Nat.two_pow_pos (w + k)
        omega
      have := (Nat.log2_lt hne).mpr hlt
      have := (Nat.le_log2 hne).mpr hge
      omega
  rw [roundMag, hlog]

theorem mag_roundMag (hd : 0 < d) (hk : k = 0 ∨ 2 ^ w * 2 ^ k * d ≤ x)
    (hx : x < 2 ^ (w + 1) * 2 ^ k * d) :
    mag w (roundMag w x d) = roundQuot x (2 ^ k * d) * 2 ^ k := by
  have hpos : 0 < 2 ^ k * d := Nat.mul_pos (Nat.two_pow_pos k) hd
  rw [roundMag_eq hd hk hx]
  refine mag_pack (hk.imp id fun h => le_roundQuot hpos ?_) (roundQuot_le hpos ?_)
  · rw [← Nat.mul_assoc]
    exact h
  · rw [← Nat.mul_assoc]
    exact Nat.le_of_lt hx

theorem gap_roundMag_le (w : Nat) (hd : 0 < d) (n : Nat) :
    gap x d (mag w (roundMag w x d)) ≤ gap x d (mag w n) := by
  obtain ⟨k, hk, hx⟩ := exists_grid w x hd
  rw [mag_roundMag hd hk hx]
  exact (gap_le_mag hd hk n).1

theorem roundMag_even {n : Nat} (hw : 0 < w) (hd : 0 < d)
    (htie : gap x d (mag w n) = gap x d (mag w (roundMag w x d))) (hne : n ≠ roundMag w x d) :
    roundMag w x d % 2 = 0 := by
  obtain ⟨k, hk, hx⟩ := exists_grid w x hd
  have hmag : mag w n ≠ mag w (roundMag w x d) := fun h => hne ((mag_strictMono w).injective h)
  rw [mag_roundMag hd hk hx] at htie hmag
  have heven := (gap_le_mag hd hk n).2 htie hmag
  obtain ⟨v, rfl⟩ : ∃ v, w = v + 1 := ⟨w - 1, by omega⟩
  rw [roundMag_eq hd hk hx, Nat.pow_succ, ← Nat.mul_assoc]
  omega

/-- A quotient rounds to a pattern or beyond from the middle on, and in the middle if it is
    even. -/
theorem le_roundMag_iff {n : Nat} (hw : 0 < w) (hd : 0 < d) (hn : 0 < n) :
    n ≤ roundMag w x d ↔
      (mag w n + mag w (n - 1)) * d < 2 * x ∨ (mag w n + mag w (n - 1)) * d =
        2 * x ∧ n % 2 = 0 := by
  have hstep : mag w (n - 1) * d < mag w n * d :=
    Nat.mul_lt_mul_of_pos_right (mag_strictMono w (by omega)) hd
  have hnear := gap_roundMag_le (x := x) w hd
  rw [Nat.add_mul]
  constructor
  · intro hle
    have hmag := Nat.mul_le_mul_right d ((mag_strictMono w).monotone hle)
    by_contra hnot
    have hbelow := hnear (n - 1)
    rw [gap_of_ge (by omega), gap] at hbelow
    have hodd : n % 2 = 1 := by omega
    have hself : mag w (roundMag w x d) * d = mag w n * d := by omega
    have heq : roundMag w x d = n :=
      (mag_strictMono w).injective (Nat.eq_of_mul_eq_mul_right hd hself)
    have heven :=
      roundMag_even (x := x) (n := n - 1) hw hd (by rw [heq, gap, gap]; omega) (by omega)
    omega
  · intro hmiddle
    by_contra hlt
    have hmag :=
      Nat.mul_le_mul_right d ((mag_strictMono w).monotone (show roundMag w x d ≤ n - 1 by omega))
    have habove := hnear n
    rw [gap_of_le (by omega), gap] at habove
    have hself : mag w (roundMag w x d) * d = mag w (n - 1) * d := by omega
    have heq : roundMag w x d = n - 1 :=
      (mag_strictMono w).injective (Nat.eq_of_mul_eq_mul_right hd hself)
    have heven := roundMag_even (x := x) (n := n) hw hd (by rw [heq, gap, gap]; omega) (by omega)
    omega

end

/-! ## Formats -/

/-- The widths of the exponent and of the fraction. -/
structure Format where
  expBits : Nat
  fracBits : Nat
  two_le_expBits : 2 ≤ expBits
  fracBits_pos : 0 < fracBits

def signed (neg : Bool) (q : ℚ) : ℚ := if neg then -q else q

theorem abs_signed_sub (neg : Bool) (q q' : ℚ) : |signed neg q - signed neg q'| = |q - q'| := by
  cases neg with
  | false => rfl
  | true => rw [signed, signed, if_pos rfl, if_pos rfl, neg_sub_neg, abs_sub_comm]

namespace Format

variable (f : Format)

def signPlace : Nat := 2 ^ (f.expBits + f.fracBits)

def sign (b : Nat) : Bool := b / f.signPlace % 2 == 1

/-- A pattern without its sign. -/
def payload (b : Nat) : Nat := b % f.signPlace

def pattern (neg : Bool) (n : Nat) : Nat := neg.toNat * f.signPlace + n

/-- The pattern of infinity: the numbers are below it, and what is above is none. -/
def infinity : Nat := (2 ^ f.expBits - 1) * 2 ^ f.fracBits

def IsFinite (b : Nat) : Prop := f.payload b < f.infinity

def IsInf (b : Nat) : Prop := f.payload b = f.infinity

def IsNan (b : Nat) : Prop := f.infinity < f.payload b

instance (b : Nat) : Decidable (f.IsFinite b) := inferInstanceAs (Decidable (_ < _))

instance (b : Nat) : Decidable (f.IsNan b) := inferInstanceAs (Decidable (_ < _))

def magnitude (b : Nat) : Nat := mag f.fracBits (f.payload b)

/-- The least subnormal number. -/
def unit : ℚ := 2 ^ (2 - 2 ^ (f.expBits - 1) - f.fracBits : ℤ)

/-- The number of a finite pattern. -/
def value (b : Nat) : ℚ := signed (f.sign b) (f.magnitude b * f.unit)

/-- The middle between the greatest number and the one that would come next. -/
def limit : Nat := (2 ^ (f.fracBits + 2) - 1) * 2 ^ (2 ^ f.expBits - 4)

/-- Rounding to the nearest number, to the even one of two, and to infinity from the limit
    on: `r` is the pattern for the number of sign `neg` and magnitude `q`. -/
structure NearestEven (neg : Bool) (q : ℚ) (r : Nat) : Prop where
  sign : f.sign r = neg
  inf : f.limit * f.unit ≤ q → f.IsInf r
  finite : q < f.limit * f.unit → f.IsFinite r
  nearest : q < f.limit * f.unit → ∀ s, f.IsFinite s →
    |f.value r - signed neg q| ≤ |f.value s - signed neg q|
  even : q < f.limit * f.unit → ∀ s, f.IsFinite s → f.value s ≠ f.value r →
    |f.value s - signed neg q| = |f.value r - signed neg q| → r % 2 = 0

/-- The quotient `x / d`, in units of the least subnormal number, rounded. -/
def round (neg : Bool) (x d : Nat) : Nat := f.pattern neg (min (roundMag f.fracBits x d) f.infinity)

section

variable {f} {neg : Bool} {n x d b : Nat}

theorem unit_pos : 0 < f.unit := zpow_pos (by norm_num) _

theorem infinity_lt : f.infinity < f.signPlace := by
  have h1 : 0 < 2 ^ f.fracBits := Nat.two_pow_pos _
  have h2 : 0 < 2 ^ f.expBits := Nat.two_pow_pos _
  rw [infinity, signPlace, Nat.pow_add, Nat.sub_mul, Nat.one_mul]
  exact Nat.sub_lt (Nat.mul_pos h2 h1) h1

@[simp] theorem sign_pattern (h : n < f.signPlace) : f.sign (f.pattern neg n) = neg := by
  have hpos : 0 < f.signPlace := Nat.two_pow_pos _
  rw [sign, pattern, Nat.mul_comm, Nat.mul_add_div hpos, Nat.div_eq_of_lt h, Nat.add_zero]
  cases neg <;> rfl

@[simp] theorem payload_pattern (h : n < f.signPlace) : f.payload (f.pattern neg n) = n := by
  rw [payload, pattern, Nat.mul_comm, Nat.mul_add_mod, Nat.mod_eq_of_lt h]

theorem pattern_sign_payload (h : b < 2 * f.signPlace) :
    f.pattern (f.sign b) (f.payload b) = b := by
  have hpos : 0 < f.signPlace := Nat.two_pow_pos _
  have hdiv := Nat.div_add_mod' b f.signPlace
  have hlt : b / f.signPlace < 2 := (Nat.div_lt_iff_lt_mul hpos).mpr h
  rw [pattern, payload, sign]
  rcases Nat.le_one_iff_eq_zero_or_eq_one.mp (Nat.lt_succ_iff.mp hlt) with h0 | h1
  · rw [h0] at hdiv ⊢
    simpa using hdiv
  · rw [h1] at hdiv ⊢
    simpa using hdiv

/-- Numbers of one sign with one value have one pattern. -/
theorem eq_of_value {b' : Nat} (h : b < 2 * f.signPlace) (h' : b' < 2 * f.signPlace)
    (hsign : f.sign b = f.sign b') (hvalue : f.value b = f.value b') : b = b' := by
  have hmag : f.magnitude b = f.magnitude b' := by
    have hu := f.unit_pos.ne'
    rw [value, value, hsign, signed, signed] at hvalue
    split at hvalue
    · exact_mod_cast mul_right_cancel₀ hu (neg_injective hvalue)
    · exact_mod_cast mul_right_cancel₀ hu hvalue
  rw [← pattern_sign_payload h, ← pattern_sign_payload h', hsign, (mag_strictMono _).injective hmag]

theorem magnitude_infinity :
    mag f.fracBits f.infinity = 2 ^ (f.fracBits + 2) * 2 ^ (2 ^ f.expBits - 4) := by
  have h4 : 2 ^ 2 ≤ 2 ^ f.expBits := Nat.pow_le_pow_right (by decide) f.two_le_expBits
  have hsplit : f.infinity = (2 ^ f.expBits - 2) * 2 ^ f.fracBits + 2 ^ f.fracBits := by
    rw [infinity, ← Nat.succ_mul]
    congr 1
    omega
  rw [hsplit, mag_pack (.inr (Nat.le_refl _)) (Nat.pow_le_pow_right (by decide) (by omega)),
    ← Nat.pow_add, ← Nat.pow_add]
  congr 1
  omega

/-- The greatest number is two halves of its last place below. -/
theorem magnitude_greatest :
    mag f.fracBits (f.infinity - 1) + 2 * 2 ^ (2 ^ f.expBits - 4) = mag f.fracBits f.infinity := by
  have h4 : 2 ^ 2 ≤ 2 ^ f.expBits := Nat.pow_le_pow_right (by decide) f.two_le_expBits
  have hw : 2 ^ (f.fracBits + 1) = 2 ^ f.fracBits + 2 ^ f.fracBits := by
    rw [Nat.pow_succ, Nat.mul_two]
  have hpos : 0 < 2 ^ f.fracBits := Nat.two_pow_pos _
  have hsplit : f.infinity - 1 = (2 ^ f.expBits - 3) * 2 ^ f.fracBits +
      (2 ^ (f.fracBits + 1) - 1) := by
    have h3 : 2 ^ f.expBits - 1 = (2 ^ f.expBits - 3) + 2 := by omega
    rw [infinity, h3, Nat.add_mul, hw]
    omega
  have hsucc := mag_succ (w := f.fracBits) (k := 2 ^ f.expBits - 3) (c := 2 ^ (f.fracBits + 1) - 1)
    (.inr (by omega)) (by omega)
  rw [← hsplit, Nat.sub_add_cancel (by rw [infinity]; exact Nat.mul_pos (by omega) hpos)] at hsucc
  rw [hsucc, ← Nat.pow_succ']
  congr 2
  omega

theorem limit_add : f.limit + 2 ^ (2 ^ f.expBits - 4) = mag f.fracBits f.infinity := by
  have hpos : 0 < 2 ^ (f.fracBits + 2) := Nat.two_pow_pos _
  rw [magnitude_infinity, limit, ← Nat.succ_mul, Nat.succ_eq_add_one, Nat.sub_add_cancel hpos]

/-- A quotient rounds to infinity from the limit on. -/
theorem infinity_le_roundMag (hd : 0 < d) :
    f.infinity ≤ roundMag f.fracBits x d ↔ f.limit * d ≤ x := by
  have h4 : 2 ^ 2 ≤ 2 ^ f.expBits := Nat.pow_le_pow_right (by decide) f.two_le_expBits
  have hpos : 0 < f.infinity := Nat.mul_pos (by omega) (Nat.two_pow_pos _)
  have heven : f.infinity % 2 = 0 := by
    obtain ⟨v, hv⟩ : ∃ v, f.fracBits = v + 1 := ⟨f.fracBits - 1, by have := f.fracBits_pos; omega⟩
    rw [infinity, hv, Nat.pow_succ, ← Nat.mul_assoc, Nat.mul_mod_left]
  have hmiddle : mag f.fracBits f.infinity + mag f.fracBits (f.infinity - 1) = 2 * f.limit := by
    have hlimit := f.limit_add
    have hgreatest := f.magnitude_greatest
    omega
  rw [le_roundMag_iff f.fracBits_pos hd hpos, hmiddle, Nat.mul_assoc]
  omega

theorem gap_cast (x d c : Nat) : (gap x d c : ℚ) = |(c : ℚ) * d - x| := by
  rcases Nat.le_total (c * d) x with h | h
  · have hq : (c : ℚ) * d ≤ x := by exact_mod_cast h
    rw [gap_of_le h, Nat.cast_sub h, Nat.cast_mul, abs_sub_comm, abs_of_nonneg (by linarith)]
  · have hq : (x : ℚ) ≤ c * d := by exact_mod_cast h
    rw [gap_of_ge h, Nat.cast_sub h, Nat.cast_mul, abs_of_nonneg (by linarith)]

/-- The distance of a number from a quotient of the same sign. -/
theorem dist_eq_gap (hd : 0 < d) (c : Nat) :
    |signed neg (c * f.unit) - signed neg (x / d * f.unit)| = gap x d c * (f.unit / d) := by
  have hd' : (d : ℚ) ≠ 0 := by exact_mod_cast hd.ne'
  have hpos : 0 < f.unit / d := div_pos unit_pos (by exact_mod_cast hd)
  have hscale : (c : ℚ) * f.unit - x / d * f.unit = (c * d - x) * (f.unit / d) := by field_simp
  rw [abs_signed_sub, gap_cast, hscale, abs_mul, abs_of_pos hpos]

/-- Zero is nearer than a number of the other sign. -/
theorem dist_other_sign {q : ℚ} (hq : 0 ≤ q) (hsign : f.sign b ≠ neg) :
    |signed neg ((0 : Nat) * f.unit) - signed neg q| ≤ |f.value b - signed neg q| ∧
      (|f.value b - signed neg q| = |signed neg ((0 : Nat) * f.unit) - signed neg q| →
        f.value b = 0) := by
  have hmag : 0 ≤ (f.magnitude b : ℚ) * f.unit := mul_nonneg (Nat.cast_nonneg _) unit_pos.le
  have hother : |f.value b - signed neg q| = f.magnitude b * f.unit + q := by
    rw [value]
    cases neg with
    | false =>
      rw [Bool.eq_true_of_not_eq_false hsign, signed, signed, if_pos rfl, if_neg (by decide),
        abs_of_nonpos (by linarith)]
      ring
    | true =>
      rw [Bool.eq_false_of_not_eq_true hsign, signed, signed, if_neg (by decide), if_pos rfl,
        abs_of_nonneg (by linarith)]
      ring
  rw [abs_signed_sub, Nat.cast_zero, zero_mul, zero_sub, abs_neg, abs_of_nonneg hq, hother]
  refine ⟨by linarith, fun h => ?_⟩
  have hzero : (f.magnitude b : ℚ) * f.unit = 0 := by linarith
  rw [value, hzero, signed, neg_zero, ite_self]

theorem min_infinity_lt (m : Nat) : min m f.infinity < f.signPlace :=
  Nat.lt_of_le_of_lt (Nat.min_le_right _ _) infinity_lt

/-- The quotients that are rounded to infinity. -/
theorem limit_le_quotient (hd : 0 < d) :
    f.limit * f.unit ≤ x / d * f.unit ↔ f.infinity ≤ roundMag f.fracBits x d := by
  have hd' : (0 : ℚ) < d := by exact_mod_cast hd
  rw [mul_le_mul_iff_left₀ unit_pos, le_div_iff₀ hd', infinity_le_roundMag hd]
  exact_mod_cast Iff.rfl

theorem roundMag_lt_infinity (hd : 0 < d) (h : x / d * f.unit < f.limit * f.unit) :
    roundMag f.fracBits x d < f.infinity :=
  Nat.lt_of_not_le fun hle => absurd ((limit_le_quotient hd).mpr hle) (not_le.mpr h)

theorem value_round (hd : 0 < d) (h : x / d * f.unit < f.limit * f.unit) :
    f.value (f.round neg x d) = signed neg (mag f.fracBits (roundMag f.fracBits x d) * f.unit) := by
  have hlt := Nat.le_of_lt (roundMag_lt_infinity hd h)
  rw [value, magnitude, round, sign_pattern (min_infinity_lt _),
    payload_pattern (min_infinity_lt _), Nat.min_eq_left hlt]

theorem value_eq_signed {s : Nat} (hsign : f.sign s = neg) :
    f.value s = signed neg (mag f.fracBits (f.payload s) * f.unit) := by
  rw [← hsign]
  rfl

/-- The parity of a rounded number is that of its magnitude. -/
theorem round_mod_two (hd : 0 < d) (h : x / d * f.unit < f.limit * f.unit) :
    f.round neg x d % 2 = roundMag f.fracBits x d % 2 := by
  have hlt := Nat.le_of_lt (roundMag_lt_infinity hd h)
  obtain ⟨v, hv⟩ : ∃ v, f.signPlace = 2 * v := by
    refine ⟨2 ^ (f.expBits + f.fracBits - 1), ?_⟩
    rw [signPlace, ← Nat.pow_succ']
    congr 1
    have := f.fracBits_pos
    omega
  rw [round, pattern, Nat.min_eq_left hlt, hv, ← Nat.mul_assoc, Nat.mul_comm _ 2, Nat.mul_assoc,
    Nat.mul_add_mod]

/-- No magnitude is nearer than the rounded one. -/
theorem dist_roundMag_le (neg : Bool) (hd : 0 < d) (n : Nat) :
    |signed neg (mag f.fracBits (roundMag f.fracBits x d) * f.unit) - signed neg (x / d * f.unit)| ≤
      |signed neg (mag f.fracBits n * f.unit) - signed neg (x / d * f.unit)| := by
  have hunit : 0 < f.unit / d := div_pos unit_pos (by exact_mod_cast hd)
  rw [dist_eq_gap hd, dist_eq_gap hd, mul_le_mul_iff_left₀ hunit]
  exact_mod_cast gap_roundMag_le f.fracBits hd n

/-- If another magnitude is as near, the rounded one is even. -/
theorem roundMag_even_of_dist (hd : 0 < d)
    (htie : |signed neg (mag f.fracBits n * f.unit) - signed neg (x / d * f.unit)| =
      |signed neg (mag f.fracBits (roundMag f.fracBits x d) * f.unit) -
        signed neg (x / d * f.unit)|)
    (hne : n ≠ roundMag f.fracBits x d) : roundMag f.fracBits x d % 2 = 0 := by
  have hunit : 0 < f.unit / d := div_pos unit_pos (by exact_mod_cast hd)
  rw [dist_eq_gap hd, dist_eq_gap hd, mul_left_inj' hunit.ne'] at htie
  exact roundMag_even f.fracBits_pos hd (by exact_mod_cast htie) hne

theorem round_nearestEven (neg : Bool) (x : Nat) (hd : 0 < d) :
    f.NearestEven neg (x / d * f.unit) (f.round neg x d) := by
  have hq : 0 ≤ (x : ℚ) / d * f.unit := mul_nonneg (by positivity) unit_pos.le
  have hzero : mag f.fracBits 0 = 0 := by rw [mag, Nat.zero_div, if_pos rfl, Nat.zero_mod]
  have hnear := dist_roundMag_le (f := f) (x := x) neg hd
  refine ⟨sign_pattern (min_infinity_lt _), ?_, ?_, ?_, ?_⟩
  · intro h
    rw [IsInf, round, payload_pattern (min_infinity_lt _),
      Nat.min_eq_right ((limit_le_quotient hd).mp h)]
  · intro h
    have hlt := roundMag_lt_infinity hd h
    rw [IsFinite, round, payload_pattern (min_infinity_lt _), Nat.min_eq_left (Nat.le_of_lt hlt)]
    exact hlt
  · intro h s _
    rw [value_round hd h]
    by_cases hsign : f.sign s = neg
    · rw [value_eq_signed hsign]
      exact hnear (f.payload s)
    · have h0 := hnear 0
      rw [hzero] at h0
      exact h0.trans (dist_other_sign hq hsign).1
  · intro h s _ hne htie
    rw [round_mod_two hd h]
    rw [value_round hd h] at hne htie
    by_cases hsign : f.sign s = neg
    · rw [value_eq_signed hsign] at hne htie
      exact roundMag_even_of_dist hd htie fun hn => hne (by rw [hn])
    · -- a number of the other sign can only be as near if zero is
      by_cases h0 : roundMag f.fracBits x d = 0
      · rw [h0]
      · refine roundMag_even_of_dist (n := 0) hd (le_antisymm ?_ (hnear 0)) (Ne.symm h0)
        rw [← htie, hzero]
        exact (dist_other_sign hq hsign).1

theorem abs_value (b : Nat) : |f.value b| = f.magnitude b * f.unit := by
  have hnonneg : 0 ≤ (f.magnitude b : ℚ) * f.unit := mul_nonneg (Nat.cast_nonneg _) unit_pos.le
  rw [value, signed]
  split
  · rw [abs_neg, abs_of_nonneg hnonneg]
  · exact abs_of_nonneg hnonneg

theorem value_eq_zero : f.value b = 0 ↔ f.magnitude b = 0 := by
  rw [← abs_eq_zero, abs_value, mul_eq_zero, or_iff_left unit_pos.ne', Nat.cast_eq_zero]

theorem limit_gt_of_isFinite (h : f.IsFinite b) : f.magnitude b < f.limit := by
  have hlimit := f.limit_add
  have hgreatest := f.magnitude_greatest
  have hle := (mag_strictMono f.fracBits).monotone (Nat.le_sub_one_of_lt h)
  have hpos := Nat.two_pow_pos (2 ^ f.expBits - 4)
  rw [magnitude]
  omega

theorem NearestEven.not_isNan {q : ℚ} {r : Nat} (hr : f.NearestEven neg q r) : ¬f.IsNan r := by
  intro hnan
  rcases lt_or_ge q (f.limit * f.unit) with hlt | hge
  · exact absurd (hr.finite hlt) (Nat.not_lt.mpr (Nat.le_of_lt hnan))
  · exact absurd (hr.inf hge) (Nat.ne_of_gt hnan)

/-- A number of the format rounds to itself. -/
theorem NearestEven.eq_self {r : Nat} (hb : b < 2 * f.signPlace) (hr : r < 2 * f.signPlace)
    (hfinite : f.IsFinite b) (h : f.NearestEven (f.sign b) (f.magnitude b * f.unit) r) : r = b := by
  have hbelow : (f.magnitude b : ℚ) * f.unit < f.limit * f.unit :=
    mul_lt_mul_of_pos_right (by exact_mod_cast limit_gt_of_isFinite hfinite) unit_pos
  have hnear := h.nearest hbelow b hfinite
  have hself : f.value b - signed (f.sign b) (f.magnitude b * f.unit) = 0 := sub_self _
  rw [hself, abs_zero] at hnear
  refine eq_of_value hr hb h.sign ?_
  exact sub_eq_zero.mp (abs_nonpos_iff.mp hnear)

end

end Format

/-! ## Formats in use -/

def binary16 : Format := ⟨5, 10, by decide, by decide⟩

def binary32 : Format := ⟨8, 23, by decide, by decide⟩

/-- The magnitude of a pattern by its fields. -/
theorem magnitude_binary32 (b : Nat) :
    binary32.magnitude b =
      if b / 2 ^ 23 % 2 ^ 8 = 0 then b % 2 ^ 23
      else (2 ^ 23 + b % 2 ^ 23) * 2 ^ (b / 2 ^ 23 % 2 ^ 8 - 1) := by
  have hexp : b % 2 ^ 31 / 2 ^ 23 = b / 2 ^ 23 % 2 ^ 8 := by omega
  have hfrac : b % 2 ^ 31 % 2 ^ 23 = b % 2 ^ 23 := by omega
  rw [Format.magnitude, mag]
  exact if_congr (by rw [← hexp]; rfl) hfrac
    (congr (congrArg _ (congrArg _ hfrac)) (congrArg _ (congrArg (· - 1) hexp)))

theorem magnitude_binary16 (b : Nat) :
    binary16.magnitude b =
      if b / 2 ^ 10 % 2 ^ 5 = 0 then b % 2 ^ 10
      else (2 ^ 10 + b % 2 ^ 10) * 2 ^ (b / 2 ^ 10 % 2 ^ 5 - 1) := by
  have hexp : b % 2 ^ 15 / 2 ^ 10 = b / 2 ^ 10 % 2 ^ 5 := by omega
  have hfrac : b % 2 ^ 15 % 2 ^ 10 = b % 2 ^ 10 := by omega
  rw [Format.magnitude, mag]
  exact if_congr (by rw [← hexp]; rfl) hfrac
    (congr (congrArg _ (congrArg _ hfrac)) (congrArg _ (congrArg (· - 1) hexp)))

theorem unit_binary16 : binary16.unit = 2 ^ (-24 : ℤ) := by
  rw [Format.unit]
  rfl

theorem unit_binary32 : binary32.unit = 2 ^ (-149 : ℤ) := by
  rw [Format.unit]
  rfl

/-! ## Bits -/

theorem toNat_append_eq {a b : Nat} (x : BitVec a) (y : BitVec b) :
    (x ++ y).toNat = x.toNat * 2 ^ b + y.toNat := by
  rw [BitVec.toNat_append, Nat.shiftLeft_eq, Nat.mul_comm, ← Nat.two_pow_add_eq_or_of_lt y.isLt]

theorem toNat_extractLsb'_eq {a : Nat} (x : BitVec a) (i w : Nat) :
    (x.extractLsb' i w).toNat = x.toNat / 2 ^ i % 2 ^ w := by
  rw [BitVec.extractLsb'_toNat, Nat.shiftRight_eq_div_pow]

/-- The sign bit of a float. -/
theorem toNat_signBit (x : BitVec 32) :
    (x.extractLsb' 31 1).toNat = (binary32.sign x.toNat).toNat := by
  have hcases := Nat.mod_two_eq_zero_or_one (x.toNat / 2 ^ 31)
  have hsign : binary32.sign x.toNat = (x.toNat / 2 ^ 31 % 2 == 1) := rfl
  rw [toNat_extractLsb'_eq, hsign]
  rcases hcases with h | h
  · rw [Nat.pow_one, h]
    rfl
  · rw [Nat.pow_one, h]
    rfl

/-- A float by its three fields. -/
theorem toNat_float {s : BitVec 1} {e : BitVec 8} {m : BitVec 23} {neg : Bool}
    (hs : s.toNat = neg.toNat) :
    (s ++ e ++ m : BitVec 32).toNat = binary32.pattern neg (e.toNat * 2 ^ 23 + m.toNat) := by
  have happend : (s ++ e ++ m : BitVec 32).toNat =
      (s.toNat * 2 ^ 8 + e.toNat) * 2 ^ 23 + m.toNat := by
    rw [← toNat_append_eq, ← toNat_append_eq]
  have hplace : binary32.signPlace = 2 ^ 8 * 2 ^ 23 := rfl
  rw [happend, hs, Format.pattern, hplace]
  ring

end Floats
