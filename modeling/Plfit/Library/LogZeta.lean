import Mathlib
import Plfit.Library.HurwitzZeta

/-! # The logarithm of the Hurwitz zeta function

As a function of the exponent it is the cumulant generating function of minus the logarithm
under the counting measure. It is therefore smooth and convex, and it has a pole at one.
-/
namespace RealHurwitz
open MeasureTheory ProbabilityTheory

noncomputable def logZeta (x alpha : ℝ) : ℝ := Real.log (hurwitzZeta alpha x)

/-- The variable whose cumulants the derivatives of `logZeta` are. -/
noncomputable def minusLog (x : ℝ) (k : ℕ) : ℝ := -Real.log (x + k)

variable {x alpha : ℝ}

theorem exp_mul_minusLog (hx : 0 < x) (alpha : ℝ) (k : ℕ) :
    Real.exp (alpha * minusLog x k) = (x + k) ^ (-alpha) := by
  have hpos : 0 < x + k := by positivity
  rw [minusLog, Real.rpow_def_of_pos hpos]
  congr 1
  ring

theorem integrable_exp_minusLog (hx : 0 < x) :
    Integrable (fun k => Real.exp (alpha * minusLog x k)) Measure.count ↔ 1 < alpha := by
  rw [integrable_count_iff, ← summable_iff hx]
  apply summable_congr
  intro k
  rw [Real.norm_of_nonneg (Real.exp_nonneg _), exp_mul_minusLog hx]

theorem interior_integrableExpSet_minusLog (hx : 0 < x) :
    interior (integrableExpSet (minusLog x) Measure.count) = Set.Ioi 1 := by
  have hset : integrableExpSet (minusLog x) Measure.count = Set.Ioi 1 :=
    Set.ext fun alpha => integrable_exp_minusLog hx
  rw [hset, interior_Ioi]

theorem logZeta_eq_cgf (hx : 0 < x) :
    Set.EqOn (logZeta x) (cgf (minusLog x) Measure.count) (Set.Ioi 1) := by
  intro alpha ha
  rw [logZeta, cgf, mgf, integral_countable ((integrable_exp_minusLog hx).mpr ha), hurwitzZeta]
  congr 1
  apply tsum_congr
  intro k
  rw [measureReal_def, Measure.count_singleton, ENNReal.toReal_one, one_smul, exp_mul_minusLog hx]

theorem analyticOnNhd_logZeta (hx : 0 < x) : AnalyticOnNhd ℝ (logZeta x) (Set.Ioi 1) := by
  refine AnalyticOnNhd.congr isOpen_Ioi ?_ (logZeta_eq_cgf hx).symm
  rw [← interior_integrableExpSet_minusLog hx]
  exact analyticOnNhd_cgf

theorem differentiableAt_logZeta (hx : 0 < x) (ha : 1 < alpha) :
    DifferentiableAt ℝ (logZeta x) alpha :=
  (analyticOnNhd_logZeta hx alpha ha).differentiableAt

/-- The second cumulant is a variance. -/
theorem convexOn_logZeta (hx : 0 < x) : ConvexOn ℝ (Set.Ioi 1) (logZeta x) := by
  refine ConvexOn.congr ?_ (logZeta_eq_cgf hx).symm
  have hanalytic : AnalyticOnNhd ℝ (cgf (minusLog x) Measure.count) (Set.Ioi 1) := by
    rw [← interior_integrableExpSet_minusLog hx]
    exact analyticOnNhd_cgf
  refine convexOn_of_deriv2_nonneg' (convex_Ioi 1) hanalytic.differentiableOn
    hanalytic.deriv.differentiableOn ?_
  intro alpha ha
  rw [← interior_integrableExpSet_minusLog hx] at ha
  rw [← iteratedDeriv_eq_iterate, iteratedDeriv_two_cgf_eq_integral ha]
  apply div_nonneg _ mgf_nonneg
  apply integral_nonneg
  intro k
  exact mul_nonneg (sq_nonneg _) (Real.exp_nonneg _)

/-- Below the tangent there is nothing. -/
theorem logZeta_tangent (hx : 0 < x) (ha : 1 < alpha) {beta : ℝ} (hb : 1 < beta) :
    logZeta x alpha + deriv (logZeta x) alpha * (beta - alpha) ≤ logZeta x beta := by
  have hderiv := differentiableAt_logZeta hx ha
  rcases lt_trichotomy alpha beta with hlt | rfl | hlt
  · have hslope := (convexOn_logZeta hx).deriv_le_slope ha hb hlt hderiv
    rw [slope_def_field, le_div_iff₀ (sub_pos.mpr hlt)] at hslope
    linarith
  · simp
  · have hslope := (convexOn_logZeta hx).slope_le_deriv hb ha hlt hderiv
    rw [slope_def_field, div_le_iff₀ (sub_pos.mpr hlt)] at hslope
    linarith

/-- The derivative is Lipschitz on every interval of exponents above one. -/
theorem exists_lipschitz_deriv_logZeta (hx : 0 < x) {lo : ℝ} (hlo : 1 < lo) (hi : ℝ) :
    ∃ C, ∀ a ∈ Set.Icc lo hi, ∀ b ∈ Set.Icc lo hi,
      |deriv (logZeta x) a - deriv (logZeta x) b| ≤ C * |a - b| := by
  have hsub : Set.Icc lo hi ⊆ Set.Ioi 1 := fun a ha => hlo.trans_le ha.1
  have hderiv := (analyticOnNhd_logZeta hx).deriv
  have hcont : ContinuousOn (deriv (deriv (logZeta x))) (Set.Icc lo hi) :=
    hderiv.deriv.continuousOn.mono hsub
  obtain ⟨C, hC⟩ := isCompact_Icc.exists_bound_of_continuousOn hcont
  refine ⟨C, fun a ha b hb => ?_⟩
  have hmean := Convex.norm_image_sub_le_of_norm_deriv_le
    (fun t ht => (hderiv t (hsub ht)).differentiableAt) hC (convex_Icc lo hi) hb ha
  rwa [Real.norm_eq_abs, Real.norm_eq_abs] at hmean

theorem partial_sum_le_hurwitzZeta (ha : 1 < alpha) (hx : 0 < x) (n : ℕ) :
    ((Finset.range n).sum fun k => (x + k) ^ (-alpha)) ≤ hurwitzZeta alpha x := by
  apply ((summable_iff hx).mpr ha).sum_le_tsum
  intro k _
  positivity

theorem le_logZeta (ha : 1 < alpha) (hx : 0 < x) : -alpha * Real.log x ≤ logZeta x alpha := by
  have hfirst := partial_sum_le_hurwitzZeta ha hx 1
  rw [Finset.sum_range_one, Nat.cast_zero, add_zero] at hfirst
  rw [logZeta, ← Real.log_rpow hx]
  exact Real.log_le_log (Real.rpow_pos_of_pos hx _) hfirst

/-- The logarithm has a pole at one, where the partial sums are unbounded. -/
theorem exists_lt_logZeta (hx : 0 < x) (b : ℝ) :
    ∃ lo > 1, ∀ alpha ∈ Set.Ioo 1 lo, b < logZeta x alpha := by
  have hdiv : Filter.Tendsto (fun n => (Finset.range n).sum fun k : ℕ => (x + k) ^ (-1 : ℝ))
      Filter.atTop Filter.atTop := by
    refine (not_summable_iff_tendsto_nat_atTop_of_nonneg fun k => by positivity).mp ?_
    rw [summable_iff hx]
    exact lt_irrefl 1
  obtain ⟨n, hn⟩ := (hdiv.eventually_gt_atTop (Real.exp b)).exists
  have hcont : ContinuousAt (fun alpha : ℝ => (Finset.range n).sum fun k : ℕ => (x + k) ^ (-alpha))
      1 := by
    refine tendsto_finsetSum _ fun k _ => ?_
    have hpos : x + k ≠ 0 := by positivity
    exact (Real.continuousAt_const_rpow hpos).comp continuousAt_neg
  obtain ⟨δ, hδ, hnear⟩ := Metric.eventually_nhds_iff.mp
    (hcont.eventually (lt_mem_nhds hn))
  refine ⟨1 + δ, by linarith, fun alpha ha => ?_⟩
  have hdist : dist alpha 1 < δ := by
    rw [Real.dist_eq, abs_of_pos (sub_pos.mpr ha.1)]
    linarith [ha.2]
  rw [logZeta, Real.lt_log_iff_exp_lt (hurwitzZeta_pos ha.1 hx)]
  exact (hnear hdist).trans_le (partial_sum_le_hurwitzZeta ha.1 hx n)

end RealHurwitz
