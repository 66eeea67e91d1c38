-- SUMMARY: Softmax means in a real vector space, and the sums that an online computation of them keeps.
import Mathlib.Analysis.SpecialFunctions.Log.ERealExp
import Mathlib.Tactic.Ring

/-!
# Softmax

The softmax mean weighs each vector by the exponential of its score. An online
computation sees the scores one by one and keeps a reference `M`, the sum of the
weights relative to it and the weighted sum of the vectors; `Online` relates these to
what has been seen. The reference is minus infinity before the first score, and any
later change of it cancels in the quotient.
-/

namespace Softmax

variable {ι E : Type*} [AddCommGroup E] [Module ℝ E]

/-- The softmax weight of an index among those of `s`. -/
noncomputable def weight (s : Finset ι) (score : ι → ℝ) (i : ι) : ℝ :=
  Real.exp (score i) / ∑ j ∈ s, Real.exp (score j)

/-- The mean of vectors under softmax weights. -/
noncomputable def mean (s : Finset ι) (score : ι → ℝ) (v : ι → E) : E :=
  ∑ i ∈ s, weight s score i • v i

@[simp] theorem mean_empty (score : ι → ℝ) (v : ι → E) : mean ∅ score v = 0 := Finset.sum_empty

/-- The exponential of an extended real, where that of minus infinity is zero. -/
noncomputable def expE (x : EReal) : ℝ := (EReal.exp x).toReal

@[simp] theorem expE_bot : expE ⊥ = 0 := by rw [expE, EReal.exp_bot, ENNReal.toReal_zero]

@[simp] theorem expE_coe (x : ℝ) : expE x = Real.exp x := by
  rw [expE, EReal.exp_coe, ENNReal.toReal_ofReal (Real.exp_pos x).le]

/-! ## Relative sums -/

section Sums

variable (score : ι → ℝ) (v : ι → E)

/-- The sum of the weights relative to `m`. -/
noncomputable def total (m : ℝ) (seen : List ι) : ℝ :=
  (seen.map fun i => Real.exp (score i - m)).sum

/-- The weighted sum of the vectors relative to `m`. -/
noncomputable def weighted (m : ℝ) (seen : List ι) : E :=
  (seen.map fun i => Real.exp (score i - m) • v i).sum

theorem total_append (m : ℝ) (seen : List ι) (i : ι) :
    total score m (seen ++ [i]) = total score m seen + Real.exp (score i - m) := by
  simp [total]

theorem weighted_append (m : ℝ) (seen : List ι) (i : ι) :
    weighted score v m (seen ++ [i]) = weighted score v m seen + Real.exp (score i - m) • v i := by
  simp [weighted]

theorem exp_shift (x m m' : ℝ) : Real.exp (x - m') = Real.exp (m - m') * Real.exp (x - m) := by
  rw [← Real.exp_add]
  congr 1
  ring

/-- A change of the reference. -/
theorem total_shift (m m' : ℝ) (seen : List ι) :
    total score m' seen = Real.exp (m - m') * total score m seen := by
  rw [total, total, ← List.sum_map_mul_left]
  exact congrArg List.sum (List.map_congr_left fun i _ => exp_shift (score i) m m')

theorem weighted_shift (m m' : ℝ) (seen : List ι) :
    weighted score v m' seen = Real.exp (m - m') • weighted score v m seen := by
  rw [weighted, weighted, List.smul_sum, List.map_map]
  refine congrArg List.sum (List.map_congr_left fun i _ => ?_)
  rw [Function.comp_apply, smul_smul, ← exp_shift]

theorem total_pos (m : ℝ) {seen : List ι} (h : seen ≠ []) : 0 < total score m seen := by
  refine List.sum_pos _ (fun x hx => ?_) (by simpa using h)
  obtain ⟨i, -, rfl⟩ := List.mem_map.mp hx
  exact Real.exp_pos _

/-- The quotient of the relative sums is the softmax mean, whatever the reference. -/
theorem weighted_div_total [DecidableEq ι] (m : ℝ) {seen : List ι} (hnodup : seen.Nodup) :
    (1 / total score m seen) • weighted score v m seen = mean seen.toFinset score v := by
  have htotal : total score m seen = Real.exp (0 - m) * ∑ i ∈ seen.toFinset,
      Real.exp (score i) := by
    rw [total_shift score 0 m, List.sum_toFinset _ hnodup]
    simp [total]
  have hweighted : weighted score v m seen = Real.exp (0 - m) • ∑ i ∈ seen.toFinset,
      Real.exp (score i) • v i := by
    rw [weighted_shift score v 0 m, List.sum_toFinset _ hnodup]
    simp [weighted]
  have hcancel : ∀ z : ℝ, 1 / (Real.exp (0 - m) * z) * Real.exp (0 - m) = z⁻¹ := by
    intro z
    have hexp := Real.exp_ne_zero (0 - m)
    rw [one_div, mul_inv, mul_comm, ← mul_assoc, mul_inv_cancel₀ hexp, one_mul]
  rw [htotal, hweighted, smul_smul, hcancel, Finset.smul_sum, mean]
  refine Finset.sum_congr rfl fun i _ => ?_
  rw [smul_smul, weight, div_eq_inv_mul]

end Sums

/-! ## Online computation -/

section Online

variable (score : ι → ℝ) (v : ι → E)

/-- The reference, the sum of the weights and the weighted sum after the indices `seen`. -/
inductive Online : List ι → EReal → ℝ → E → Prop
  | nil : Online [] ⊥ 0 0
  | some {seen : List ι} (hseen : seen ≠ []) (m : ℝ) :
      Online seen m (total score m seen) (weighted score v m seen)

variable {score v} {seen : List ι} {M : EReal} {S : ℝ} {acc : E}

/-- A score above the reference becomes the reference, and the sums are rescaled. -/
theorem Online.raise (h : Online score v seen M S acc) (i : ι) :
    Online score v (seen ++ [i]) (score i) (S * expE (M - score i) + 1)
      (expE (M - score i) • acc + (1 : ℝ) • v i) := by
  have hnew : Online score v (seen ++ [i]) _ _ _ := .some (by simp) (score i)
  rw [total_append, weighted_append, sub_self, Real.exp_zero] at hnew
  cases h with
  | nil =>
    rw [EReal.bot_sub, expE_bot, mul_zero, zero_smul]
    simpa [total, weighted] using hnew
  | some hseen m =>
    rw [← EReal.coe_sub, expE_coe, mul_comm, ← total_shift, ← weighted_shift]
    exact hnew

/-- Another score is weighed relative to the reference. -/
theorem Online.keep (h : Online score v seen M S acc) {i : ι} (hle : score i ≤ M) :
    Online score v (seen ++ [i]) M (S + expE (score i - M)) (acc + expE (score i - M) • v i) := by
  cases h with
  | nil => exact absurd hle (by simp)
  | some hseen m =>
    rw [← EReal.coe_sub, expE_coe, ← total_append, ← weighted_append]
    exact .some (by simp) m

/-- The quotient at the end: zero when nothing was seen, else the softmax mean. -/
theorem Online.result [DecidableEq ι] (h : Online score v seen M S acc) (hnodup : seen.Nodup) :
    (if S = 0 then 0 else 1 / S) • acc = mean seen.toFinset score v := by
  cases h with
  | nil => simp
  | some hseen m =>
    rw [if_neg (total_pos score m hseen).ne']
    exact weighted_div_total score v m hnodup

end Online

end Softmax
