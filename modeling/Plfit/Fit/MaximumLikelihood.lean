import Mathlib
import Plfit.Fit.ContinuousFit

/-! # The estimated exponent maximises the likelihood

The estimator sums over a sorted tail and the likelihood over the samples as they came, so
the two sums have to be matched first. What is left is a logarithm below its tangent.
-/
namespace Plfit
open ExactArithmetic

section Likelihood
variable {xs ys : List ℝ} {xmin alpha : ℝ}

theorem logSum_perm (h : xs.Perm ys) : logSum xs xmin = logSum ys xmin := by
  unfold logSum
  apply List.Perm.sum_eq
  exact h.map _

theorem realLogLikelihood_perm (h : xs.Perm ys) :
    realLogLikelihood xs alpha xmin = realLogLikelihood ys alpha xmin := by
  rw [realLogLikelihood, realLogLikelihood, logSum_perm h, h.length_eq]

theorem tailFrom_perm : (tailFrom xs xmin).Perm (xs.filter (xmin ≤ ·)) := by
  apply List.Perm.filter
  exact List.perm_insertionSort _ xs

/-- Against the estimate the likelihood loses the gap between a logarithm and its tangent. -/
theorem realLogLikelihood_hillAlpha_sub (hx : 0 < xmin) (hsum : 0 < logSum ys xmin)
    (hlen : 0 < ys.length) (ha : 1 < alpha) :
    realLogLikelihood ys (hillAlpha ys xmin) xmin - realLogLikelihood ys alpha xmin =
      ys.length * ((alpha - 1) / (hillAlpha ys xmin - 1) - 1 -
        Real.log ((alpha - 1) / (hillAlpha ys xmin - 1))) := by
  have hm : (0 : ℝ) < ys.length := by exact_mod_cast hlen
  have hhill : hillAlpha ys xmin - 1 = ys.length / logSum ys xmin := by
    rw [hillAlpha, add_sub_cancel_left]
  have ha0 : 0 < alpha - 1 := sub_pos.mpr ha
  have hh0 : 0 < hillAlpha ys xmin - 1 := by
    rw [hhill]
    exact div_pos hm hsum
  have hratio : (alpha - 1) / (hillAlpha ys xmin - 1) * ys.length =
      (alpha - 1) * logSum ys xmin := by
    rw [hhill]
    field_simp
  have hscaled : (hillAlpha ys xmin - 1) * logSum ys xmin = ys.length := by
    rw [hhill, div_mul_cancel₀ _ hsum.ne']
  have hlog1 := Real.log_div hh0.ne' hx.ne'
  have hlog2 := Real.log_div ha0.ne' hx.ne'
  have hlog3 := Real.log_div ha0.ne' hh0.ne'
  simp only [realLogLikelihood, hlog1, hlog2, hlog3]
  linear_combination -hratio - hscaled

/-- No exponent has a larger likelihood than the estimate, and no other one the same. -/
theorem realLogLikelihood_le_hillAlpha (hx : 0 < xmin) (hys : ∀ y ∈ ys, xmin ≤ y)
    (habove : ∃ y ∈ ys, xmin < y) (ha : 1 < alpha) :
    realLogLikelihood ys alpha xmin ≤ realLogLikelihood ys (hillAlpha ys xmin) xmin ∧
      (realLogLikelihood ys alpha xmin = realLogLikelihood ys (hillAlpha ys xmin) xmin →
        alpha = hillAlpha ys xmin) := by
  have hlen : 0 < ys.length := by
    obtain ⟨y, hy, -⟩ := habove
    exact List.length_pos_of_mem hy
  have hm : (0 : ℝ) < ys.length := by exact_mod_cast hlen
  have hhill := one_lt_hillAlpha hx hys habove
  have hgap := realLogLikelihood_hillAlpha_sub hx (logSum_pos hx hys habove) hlen ha
  have hratio : 0 < (alpha - 1) / (hillAlpha ys xmin - 1) :=
    div_pos (sub_pos.mpr ha) (sub_pos.mpr hhill)
  constructor
  · have htangent := Real.log_le_sub_one_of_pos hratio
    have hnonneg := mul_nonneg hm.le (sub_nonneg.mpr htangent)
    linarith
  · intro htie
    by_contra hne
    have hone : (alpha - 1) / (hillAlpha ys xmin - 1) ≠ 1 := by
      intro hone
      rw [div_eq_one_iff_eq (sub_pos.mpr hhill).ne'] at hone
      exact hne (by linarith)
    have htangent := Real.log_lt_sub_one_of_pos hratio hone
    have hpos := mul_pos hm (sub_pos.mpr htangent)
    linarith

end Likelihood

section Estimator
variable {options : ContinuousOptions ℝ} {xs : List ℝ} {xmin : ℝ}

/-- Without the correction the fixed fit returns the exponent of largest likelihood on the
samples in the order they came in. -/
theorem estimateAlphaContinuous_maximises_likelihood (E : Environment ℝ)
    (huncorrected : options.finiteSizeCorrection = false) (hskip : options.pValueMethod = .skip)
    (hx : 0 < xmin) (habove : ∃ y ∈ xs, xmin < y) (result : PlfitResult ℝ) (rng : Rng) :
    ∃ out alpha L,
      estimateAlphaContinuous E (some options) (xs.map .fin) (.fin xmin) result rng = .ok out ∧
      out.failure = none ∧ out.result.alpha = .fin alpha ∧ 1 < alpha ∧
      logLikelihoodContinuous (xs.map .fin) (.fin alpha) (.fin xmin) = .ok (.fin L) ∧
      ∀ alpha' > 1, ∃ L',
        logLikelihoodContinuous (xs.map .fin) (.fin alpha') (.fin xmin) = .ok (.fin L') ∧
        L' ≤ L ∧ (L' = L → alpha' = alpha) := by
  have hys : ∀ y ∈ tailFrom xs xmin, xmin ≤ y := fun y hy => (mem_tailFrom.mp hy).2
  have habove' : ∃ y ∈ tailFrom xs xmin, xmin < y := by
    obtain ⟨y, hy, hxy⟩ := habove
    exact ⟨y, mem_tailFrom.mpr ⟨hy, hxy.le⟩, hxy⟩
  have halpha := one_lt_hillAlpha hx hys habove'
  have hlikelihood : ∀ alpha > 1, logLikelihoodContinuous (xs.map .fin) (.fin alpha) (.fin xmin) =
      .ok (.fin (realLogLikelihood (tailFrom xs xmin) alpha xmin)) := by
    intro alpha ha
    rw [logLikelihoodContinuous_filter ha hx, realLogLikelihood_perm tailFrom_perm]
  have hfit := estimateAlphaContinuous_real E hskip hx habove
    (by simp [huncorrected]) result rng
  refine ⟨_, hillAlpha (tailFrom xs xmin) xmin, _, hfit, rfl, ?_, halpha, hlikelihood _ halpha, ?_⟩
  · rw [tailFit, huncorrected, correctedAlpha, if_neg Bool.false_ne_true]
  · intro alpha ha
    exact ⟨_, hlikelihood alpha ha, realLogLikelihood_le_hillAlpha hx hys habove' ha⟩

/-- Two samples, the larger one first. -/
theorem estimateAlphaContinuous_maximises_on_two_samples :
    ∃ out alpha L,
      estimateAlphaContinuous idleEnvironment (some linearOptions) ([2, 1].map .fin) (.fin 1)
        idleEnvironment.lastResult (.builtin 1 (fun _ => 0)) = .ok out ∧
      out.failure = none ∧ out.result.alpha = .fin alpha ∧ 1 < alpha ∧
      logLikelihoodContinuous ([2, 1].map .fin) (.fin alpha) (.fin 1) = .ok (.fin L) ∧
      ∀ alpha' > (1 : ℝ), ∃ L',
        logLikelihoodContinuous ([2, 1].map .fin) (.fin alpha') (.fin 1) = .ok (.fin L') ∧
        L' ≤ L ∧ (L' = L → alpha' = alpha) :=
  estimateAlphaContinuous_maximises_likelihood idleEnvironment
    (rfl : linearOptions.finiteSizeCorrection = false) rfl one_pos ⟨2, by simp, one_lt_two⟩
    idleEnvironment.lastResult (.builtin 1 (fun _ => 0))

end Estimator

end Plfit
