import Mathlib
import Plfit.Fit.DiscreteFit

/-! # Fits of an empty tail

The continuous estimator looks for a sample that is not below `xmin`. The discrete one passes
an empty tail on: the optimizer and the grid return their starting points for it, and only the
method that borrows the continuous estimator fails.
-/
namespace Plfit
open ExactArithmetic

section EmptyTail
variable {K : Type} [Field K] [LinearOrder K] [IsStrictOrderedRing K] [FloorRing K] [MathLibrary K]
variable {E : Environment K}

/-- What the optimizer of `lbfgs.c` is relied on for: a start without a gradient is a minimum. -/
def ReturnsFlatStart (E : Environment K) : Prop :=
  ∀ f start, (f start 0).2 == (0 : Double K) →
    0 ≤ (E.lbfgs f start).1 ∧ (E.lbfgs f start).2 = start

/-- The derivative of the Hurwitz zeta function is a number where the function is defined. -/
def ZetaDifferentiable (E : Environment K) : Prop :=
  ∀ a x : K, 1 < a → 1 ≤ x → ∃ d, (E.lnhzetaDerivTuple (.fin a) (.fin x)).2 = .fin d

omit [FloorRing K] [MathLibrary K] in
theorem not_add_le_one {a s : Double K} (ha : ¬ a ≤ 1) (hs : ¬ s ≤ 0) : ¬ a + s ≤ 1 := by
  cases a with
  | nan => simp
  | ninf => exact absurd Double.ninf_le_fin ha
  | pinf =>
    cases s with
    | nan => simp
    | ninf => exact absurd Double.ninf_le_fin hs
    | fin y => exact Double.not_pinf_le_fin 1
    | pinf => exact Double.not_pinf_le_fin 1
  | fin x =>
    cases s with
    | nan => simp
    | ninf => exact absurd Double.ninf_le_fin hs
    | pinf => exact Double.not_pinf_le_fin 1
    | fin y =>
      rw [Double.one_def, Double.fin_le_fin, not_le] at ha
      rw [Double.zero_def, Double.fin_le_fin, not_le] at hs
      rw [Double.fin_add_fin, Double.one_def, Double.fin_le_fin, not_le]
      linarith

omit [FloorRing K] [MathLibrary K] in
/-- The correction of an exponent by no samples at all. -/
theorem not_finalAlpha_zero_le_one {alpha : Double K} (h : ¬ alpha ≤ 1)
    (finiteSizeCorrection : Bool) : ¬ finalAlpha finiteSizeCorrection alpha 0 ≤ 1 := by
  cases finiteSizeCorrection with
  | false => exact h
  | true =>
    have hwrap : (0 : K) < ((sizeSub 0 1 : ℕ) : K) := by
      exact_mod_cast (by decide : 0 < sizeSub 0 1)
    have hone : (1 : Double K) / ((0 : ℕ) : Double K) = .pinf := by
      rw [Double.one_def, Double.natCast_def, Nat.cast_zero, Double.fin_div_zero, sign_one]
      rfl
    have hzero : ((0 : ℕ) : Double K) = .fin 0 := by
      rw [Double.natCast_def, Nat.cast_zero]
    rw [finalAlpha, if_pos rfl, hone, hzero]
    cases alpha with
    | nan => simp only [Double.nan_mul, Double.nan_div, Double.nan_add, Double.not_nan_le,
        not_false_eq_true]
    | ninf => exact absurd Double.ninf_le_fin h
    | pinf =>
      have hdiv : (.pinf : Double K) / .fin 0 = .pinf := if_neg (lt_irrefl 0)
      rw [Double.natCast_def, Double.pinf_mul_fin hwrap, hdiv]
      exact Double.not_pinf_le_fin 1
    | fin a =>
      have ha : 0 < a := by
        rw [Double.one_def, Double.fin_le_fin, not_le] at h
        exact one_pos.trans h
      rw [Double.natCast_def, Double.fin_mul_fin, Double.fin_div_zero, sign_pos (mul_pos ha hwrap)]
      exact Double.not_pinf_le_fin 1

end EmptyTail

/-! ## The three estimators on no samples -/

section Estimators
variable {K : Type} [Field K] [LinearOrder K] [IsStrictOrderedRing K] [FloorRing K] [MathLibrary K]
variable {E : Environment K} {options : DiscreteOptions K} {xmin : K}

omit [FloorRing K] [MathLibrary K] in
theorem gridScan_ok {range : AlphaRange K} (hstep : ¬ range.step ≤ 0) {logsum zmin : Double K}
    {m rounds : ℕ} {curr best lMax alpha : Double K} (hcurr : ¬ curr ≤ 1) (hbest : ¬ best ≤ 1)
    (h : gridScan E range logsum m zmin rounds curr best lMax = .ok alpha) : ¬ alpha ≤ 1 := by
  induction rounds generalizing curr best lMax with
  | zero => cases h
  | succ rounds ih =>
    rw [gridScan] at h
    dsimp only at h
    have hnext := not_add_le_one hcurr hstep
    split_ifs at h
    · exact ih hnext hcurr h
    · exact ih hnext hbest h
    · cases h
      exact hbest

omit [FloorRing K] [MathLibrary K] in
/-- Without samples the objective of the optimizer has no gradient at its start. -/
theorem lbfgsEvaluate_flat (hzeta : ZetaDifferentiable E) (hx : 1 ≤ xmin) :
    (lbfgsEvaluate E { m := 0, logsum := 0, xmin := .fin xmin } 3 0).2 == (0 : Double K) := by
  obtain ⟨d, hd⟩ := hzeta 3 xmin (by norm_num) hx
  have hstep : (0 : Double K) == 0 := by simp
  have hthree : ¬ (3 : Double K) ≤ 1 := by
    rw [Double.ofNat_def, Double.one_def, Double.fin_le_fin]
    norm_num
  have hnext : ¬ (3 : Double K) + .fin (1 / 1000) ≤ 1 := by
    rw [Double.ofNat_def, Double.one_def, Double.fin_add_fin, Double.fin_le_fin]
    norm_num
  have hnan : isNan (3 : Double K) = false := rfl
  unfold lbfgsEvaluate
  simp only [hnan, hstep, or_true, if_true, if_neg hthree, if_neg hnext, Bool.false_eq_true,
    if_false]
  rw [Double.ofNat_def, hd, Double.natCast_def, Double.zero_def, Double.fin_mul_fin,
    Double.fin_add_fin]
  simp

/-- The optimizer and the grid give an exponent even when there is no sample. -/
theorem iEstimateAlphaDiscrete_nil (hflat : ReturnsFlatStart E) (hzeta : ZetaDifferentiable E)
    (hx : 1 ≤ xmin) (hmethod : options.alphaMethod ≠ .pretendContinuous)
    {r : Except Failure (Double K)}
    (hcheck : options.alphaMethod = .linearScan → alphaRangeCheck options.alpha = .ok ())
    (h : iEstimateAlphaDiscrete E [] (.fin xmin) options true = .ok r) :
    ∃ alpha, r = .ok alpha ∧ ¬ alpha ≤ 1 := by
  unfold iEstimateAlphaDiscrete at h
  cases hm : options.alphaMethod with
  | pretendContinuous => exact absurd hm hmethod
  | lbfgs =>
    rw [hm] at h
    obtain ⟨hcode, hstart⟩ := hflat _ 3 (lbfgsEvaluate_flat hzeta hx)
    have hsums : discreteTailSums ([] : List (Double K)) (.fin xmin) true = (0, 0) := rfl
    simp only [iEstimateAlphaDiscreteLbfgs, xminCheckOne_fin hx, bind, Except.bind, hsums] at h
    rw [if_neg (fun hbad => hcode.not_gt hbad.1), hstart] at h
    cases h
    refine ⟨3, rfl, ?_⟩
    rw [Double.ofNat_def, Double.one_def, Double.fin_le_fin]
    norm_num
  | linearScan =>
    rw [hm] at h
    have hrange := hcheck hm
    simp only [iEstimateAlphaDiscreteLinearScan, xminCheckOne_fin hx, hrange] at h
    obtain ⟨alpha, hgrid, h⟩ := bind_eq_ok.mp h
    cases h
    unfold alphaRangeCheck at hrange
    split_ifs at hrange with hmin hmax hstep
    exact ⟨alpha, rfl, gridScan_ok hstep hmin hmin hgrid⟩

end Estimators

/-! ## The entry points at a fixed `xmin` -/

section EntryPoints
variable {K : Type} [Field K] [LinearOrder K] [IsStrictOrderedRing K] [FloorRing K] [MathLibrary K]
variable {E : Environment K} {xs : List K} {xmin : K}

omit [Field K] [IsStrictOrderedRing K] [FloorRing K] [MathLibrary K] in
theorem tail_eq_nil (hempty : ∀ x ∈ xs, x < xmin) :
    (iCopyAndSort (xs.map Double.fin)).dropWhile (fun x => x < .fin xmin) = [] := by
  rw [List.dropWhile_eq_nil_iff, iCopyAndSort_map]
  intro x hx
  obtain ⟨y, hy, rfl⟩ := List.mem_map.mp hx
  simpa using hempty y ((List.mem_insertionSort _).mp hy)

omit [IsStrictOrderedRing K] in
/-- The calculation of a p-value fails for its precision only. -/
theorem iCalculatePValueDiscrete_ok {options : DiscreteOptions K}
    (htrials : options.pValueMethod = .exact →
      ∀ trials, numTrials options.pValuePrecision = .ok trials → 0 < trials)
    {data : List (Double K)} {xminFixed : Bool} {result : PlfitResult K} {rng : Rng}
    {out : Outcome K} (h : iCalculatePValueDiscrete E options data xminFixed result rng = .ok out) :
    out.failure = none := by
  unfold iCalculatePValueDiscrete at h
  cases hmethod : options.pValueMethod with
  | skip =>
    rw [hmethod] at h
    cases h
    rfl
  | approximate =>
    rw [hmethod] at h
    obtain ⟨p, -, h⟩ := bind_eq_ok.mp h
    cases h
    rfl
  | exact =>
    rw [hmethod] at h
    obtain ⟨trials, hnum, h⟩ := bind_eq_ok.mp h
    rw [if_neg (htrials hmethod trials hnum).not_ge] at h
    obtain ⟨⟨successes, rng'⟩, -, h⟩ := bind_eq_ok.mp h
    cases h
    rfl

/-- The optimizer and the grid make a successful fit of no samples. -/
theorem estimateAlphaDiscrete_nil (hflat : ReturnsFlatStart E) (hzeta : ZetaDifferentiable E)
    (hx : 1 ≤ xmin) (hempty : ∀ x ∈ xs, x < xmin) {options : DiscreteOptions K}
    (hcheck : discreteInputCheck (xs.map .fin) options = .ok ())
    (htrials : options.pValueMethod = .exact →
      ∀ trials, numTrials options.pValuePrecision = .ok trials → 0 < trials)
    (hmethod : options.alphaMethod ≠ .pretendContinuous) {result : PlfitResult K} {rng : Rng}
    {out : Outcome K}
    (h : estimateAlphaDiscrete E (some options) (xs.map .fin) (.fin xmin) result rng = .ok out) :
    out.failure = none := by
  have hrange : options.alphaMethod = .linearScan → alphaRangeCheck options.alpha = .ok () := by
    intro hlinear
    unfold discreteInputCheck at hcheck
    split_ifs at hcheck
    exact hcheck
  simp only [estimateAlphaDiscrete, Option.getD_some, estimateAlphaDiscreteWith, hcheck,
    tail_eq_nil hempty] at h
  obtain ⟨r, hestimate, h⟩ := bind_eq_ok.mp h
  obtain ⟨alpha, rfl, halpha⟩ := iEstimateAlphaDiscrete_nil hflat hzeta hx hmethod hrange hestimate
  have hxmin : ¬ (.fin xmin : Double K) < 1 := by simpa using hx
  obtain ⟨L, hL⟩ := (logLikelihoodDiscrete_ok_iff E [] _ (.fin xmin)).mpr
    (not_or.mpr ⟨not_finalAlpha_zero_le_one halpha options.finiteSizeCorrection, hxmin⟩)
  simp only [correct_eq, List.length_nil, hL] at h
  exact iCalculatePValueDiscrete_ok htrials h

omit [IsStrictOrderedRing K] in
/-- The continuous entry point rejects an empty tail. -/
theorem estimateAlphaContinuous_nil (E : Environment K) (hx : 0 < xmin)
    (hempty : ∀ x ∈ xs, x < xmin) (options : Option (ContinuousOptions K))
    (result : PlfitResult K) (rng : Rng) :
    estimateAlphaContinuous E options (xs.map .fin) (.fin xmin) result rng =
      .ok { failure := some { reason := "no data point was larger than xmin", errno := .einval }
            result := result
            rng := rng } := by
  have hcheck : ¬ (.fin xmin : Double K) ≤ 0 := by simpa using hx
  simp only [estimateAlphaContinuous, estimateAlphaContinuousWith, estimateAlphaContinuousSorted,
    tail_eq_nil hempty, iEstimateAlphaContinuousSorted, xminCheckZero, if_neg hcheck, bind,
    Except.bind, List.dropWhile_nil, if_true]

/-- A fit of an empty tail is rejected by the continuous entry point, and by the discrete one
with the method that borrows the continuous estimator only. -/
theorem empty_tail_rejected_iff (hflat : ReturnsFlatStart E) (hzeta : ZetaDifferentiable E)
    (hx : 1 ≤ xmin) (hempty : ∀ x ∈ xs, x < xmin)
    (continuousOptions : Option (ContinuousOptions K)) (options : Option (DiscreteOptions K))
    (hcheck : discreteInputCheck (xs.map .fin) (options.getD discreteDefaultOptions) = .ok ())
    (htrials : (options.getD discreteDefaultOptions).pValueMethod = .exact → ∀ trials,
      numTrials (options.getD discreteDefaultOptions).pValuePrecision = .ok trials → 0 < trials)
    (result : PlfitResult K) (rng : Rng) :
    (∃ out, estimateAlphaContinuous E continuousOptions (xs.map .fin) (.fin xmin) result rng =
        .ok out ∧ out.status = .einval) ∧
      ((∃ out, estimateAlphaDiscrete E options (xs.map .fin) (.fin xmin) result rng = .ok out ∧
          out.status = .einval) ↔
        (options.getD discreteDefaultOptions).alphaMethod = .pretendContinuous) := by
  have hpos : 0 < xmin := one_pos.trans_le hx
  have hzero : ∀ x : K, 0 < x → xminCheckZero (.fin x) = .ok () := by
    intro x hx
    rw [xminCheckZero, if_neg]
    simpa using hx
  have hoptions : estimateAlphaDiscrete E options =
      estimateAlphaDiscrete E (some (options.getD discreteDefaultOptions)) := by
    cases options <;> rfl
  rw [hoptions]
  generalize options.getD discreteDefaultOptions = o at hcheck htrials
  let failed : Outcome K :=
    { failure := some { reason := "no data point was larger than xmin", errno := .einval }
      result := result
      rng := rng }
  refine ⟨?_, ?_, ?_⟩
  · exact ⟨failed, estimateAlphaContinuous_nil E hpos hempty continuousOptions result rng, rfl⟩
  · rintro ⟨out, hrun, hstatus⟩
    by_contra hmethod
    have hsuccess := estimateAlphaDiscrete_nil hflat hzeta hx hempty hcheck htrials hmethod hrun
    rw [Outcome.status, hsuccess] at hstatus
    cases hstatus
  · intro hmethod
    refine ⟨failed, ?_, rfl⟩
    have hhalf : (0 : K) < xmin - 1 / 2 := by linarith
    simp only [estimateAlphaDiscrete, Option.getD_some, estimateAlphaDiscreteWith, hcheck,
      tail_eq_nil hempty, iEstimateAlphaDiscrete, hmethod, iEstimateAlphaDiscreteFast,
      xminCheckOne_fin hx, iEstimateAlphaContinuousSorted, Double.fin_sub_fin, hzero _ hhalf, bind,
      Except.bind, List.dropWhile_nil, if_true]
    rfl

theorem returnsFlatStart_idle : ReturnsFlatStart (idleEnvironment : Environment ℝ) :=
  fun _ _ _ => ⟨le_rfl, rfl⟩

theorem zetaDifferentiable_idle : ZetaDifferentiable (idleEnvironment : Environment ℝ) :=
  fun _ _ _ _ => ⟨0, rfl⟩

/-- One sample below `xmin` and the method that fails. -/
noncomputable def pretendOptions : DiscreteOptions ℝ :=
  { discreteDefaultOptions with alphaMethod := .pretendContinuous, pValueMethod := .skip }

theorem empty_tail_rejected_one :
    ∃ out, estimateAlphaDiscrete idleEnvironment (some pretendOptions) ([(1 : ℝ)].map .fin)
        (.fin 2) idleEnvironment.lastResult (.builtin 1 (fun _ => 0)) = .ok out ∧
      out.status = .einval :=
  (empty_tail_rejected_iff returnsFlatStart_idle zetaDifferentiable_idle
    (one_le_two : (1 : ℝ) ≤ 2) (by simp) none (some pretendOptions) rfl nofun _ _).2.mpr rfl

/-- With the optimizer the fit of no samples succeeds. -/
theorem empty_tail_fitted :
    ∃ out, estimateAlphaDiscrete idleEnvironment
        (some { discreteDefaultOptions with pValueMethod := .skip }) ([(1 : ℝ)].map .fin) (.fin 2)
        idleEnvironment.lastResult (.builtin 1 (fun _ => 0)) = .ok out ∧
      out.status = .success ∧ out.result.alpha = 3 := by
  have htail : (iCopyAndSort ([(1 : ℝ)].map Double.fin)).dropWhile (fun x => x < .fin 2) = [] :=
    tail_eq_nil (by simp)
  have hhalt : ¬ (3 : Double ℝ) ≤ 1 := by
    rw [Double.ofNat_def, Double.one_def, Double.fin_le_fin]
    norm_num
  have hxmin : ¬ (.fin 2 : Double ℝ) < 1 := by simp
  obtain ⟨L, hL⟩ := (logLikelihoodDiscrete_ok_iff (idleEnvironment : Environment ℝ) [] 3
    (.fin 2)).mpr (not_or.mpr ⟨hhalt, hxmin⟩)
  have hestimate : iEstimateAlphaDiscrete idleEnvironment [] (.fin (2 : ℝ))
      { discreteDefaultOptions with pValueMethod := .skip } true = .ok (.ok 3) := by
    simp only [iEstimateAlphaDiscrete, discreteDefaultOptions, iEstimateAlphaDiscreteLbfgs,
      xminCheckOne_fin (one_le_two : (1 : ℝ) ≤ 2), bind, Except.bind]
    rfl
  exact ⟨_, estimateAlphaDiscrete_skip rfl rfl htail hestimate hL _ _, rfl, rfl⟩

end EntryPoints

end Plfit
