import Mathlib
import Plfit.Fit.EmptyTail

/-! # Fits that divide by a log-sum of zero

The continuous estimator looks for an empty tail only. A tail of samples that are all equal to
`xmin` has the log-sum zero and an infinite exponent, which the likelihood does not refuse.
-/
namespace Plfit
open ExactArithmetic

section PValue
variable {K : Type} [Field K] [LinearOrder K] [FloorRing K] [MathLibrary K]

omit [MathLibrary K] in
theorem exactPValue_result {E : Environment K} {precision : Double K} {n : ℕ}
    {resample : Resampler K} {refit : Refit K} {result : PlfitResult K} {rng : Rng}
    {out : Outcome K} (h : exactPValue E precision n resample refit result rng = .ok out) :
    out.result = { result with p := out.result.p } := by
  obtain ⟨trials, -, h⟩ := bind_eq_ok.mp h
  by_cases hnone : trials ≤ 0
  · rw [if_pos hnone] at h
    cases h
    rfl
  · rw [if_neg hnone] at h
    obtain ⟨⟨successes, rng'⟩, -, h⟩ := bind_eq_ok.mp h
    cases h
    rfl

theorem iCalculatePValueContinuous_result {E : Environment K} {options : ContinuousOptions K}
    {xs : List (Double K)} {xminFixed : Bool} {result : PlfitResult K} {rng : Rng}
    {out : Outcome K}
    (h : iCalculatePValueContinuous E options xs xminFixed result rng = .ok out) :
    out.result = { result with p := out.result.p } := by
  unfold iCalculatePValueContinuous at h
  cases hmethod : options.pValueMethod with
  | skip =>
    rw [hmethod] at h
    cases h
    rfl
  | approximate =>
    rw [hmethod] at h
    obtain ⟨p, -, h⟩ := bind_eq_ok.mp h
    cases h
    rfl
  | exact =>
    rw [hmethod] at h
    exact exactPValue_result h

omit [FloorRing K] in
theorem errno_of_logLikelihoodContinuous {xs : List (Double K)} {alpha xmin : Double K}
    {f : Failure} (h : logLikelihoodContinuous xs alpha xmin = .error f) : f.errno = .einval := by
  rw [logLikelihoodContinuous, xminCheckZero] at h
  split_ifs at h
  · cases h
    rfl
  · cases h
    rfl
  · cases h

end PValue

section FixedFits
variable {E : Environment ℝ} {options : Option (ContinuousOptions ℝ)} {xs : List ℝ} {xmin : ℝ}

noncomputable def fixedLogSum (xs : List ℝ) (xmin : ℝ) : Double ℝ :=
  iLogsumContinuous ((iCopyAndSort (xs.map .fin)).dropWhile (fun x => x < .fin xmin)) (.fin xmin)

/-- A fit from at least one sample above `xmin`: the log-sum is a number other than zero, and the
exponent and the likelihood are numbers. -/
structure FiniteFit (xs : List ℝ) (xmin : ℝ) (result : PlfitResult ℝ) : Prop where
  logSum : ∃ s, fixedLogSum xs xmin = .fin s ∧ s ≠ 0
  above : ∃ x ∈ xs, xmin < x
  alpha : ∃ a, result.alpha = .fin a ∧ 1 < a
  likelihood : ∃ L, result.L = .fin L

/-- A fixed fit that succeeds is a fit from a sample above `xmin`, and without such a sample the
call is rejected. -/
def GuardsLogSum (E : Environment ℝ) (options : Option (ContinuousOptions ℝ)) (xs : List ℝ)
    (xmin : ℝ) (result : PlfitResult ℝ) (rng : Rng) : Prop :=
  (∀ out, estimateAlphaContinuous E options (xs.map .fin) (.fin xmin) result rng = .ok out →
    out.status = .success → FiniteFit xs xmin out.result) ∧
  ((∀ x ∈ xs, x ≤ xmin) → ∃ out,
    estimateAlphaContinuous E options (xs.map .fin) (.fin xmin) result rng = .ok out ∧
      out.status = .einval)

/-- With a sample above `xmin` a fit that succeeds has finite values. -/
theorem finiteFit_of_above (hx : 0 < xmin) (habove : ∃ x ∈ xs, xmin < x)
    {result : PlfitResult ℝ} {rng : Rng} {out : Outcome ℝ}
    (h : estimateAlphaContinuous E options (xs.map .fin) (.fin xmin) result rng = .ok out)
    (hsuccess : out.status = .success) : FiniteFit xs xmin out.result := by
  have hys : ∀ y ∈ tailFrom xs xmin, xmin ≤ y := fun y hy => (mem_tailFrom.mp hy).2
  have habove' : ∃ y ∈ tailFrom xs xmin, xmin < y := by
    obtain ⟨y, hy, hxy⟩ := habove
    exact ⟨y, mem_tailFrom.mpr ⟨hy, hxy.le⟩, hxy⟩
  have hsum : ∃ s, fixedLogSum xs xmin = .fin s ∧ s ≠ 0 := by
    refine ⟨logSum (tailFrom xs xmin) xmin, ?_, (logSum_pos hx hys habove').ne'⟩
    rw [fixedLogSum, dropWhile_sort, iLogsumContinuous_fin hx hys]
  rw [estimateAlphaContinuous, estimateAlphaContinuousWith_real _ hx habove] at h
  dsimp only at h
  cases hL : logLikelihoodContinuous ((tailFrom xs xmin).map .fin)
      (.fin (correctedAlpha (options.getD continuousDefaultOptions).finiteSizeCorrection
        (hillAlpha (tailFrom xs xmin) xmin) (tailFrom xs xmin).length)) (.fin xmin) with
  | error f =>
    rw [hL] at h
    cases h
    have herrno : f.errno = .success := hsuccess
    rw [errno_of_logLikelihoodContinuous hL] at herrno
    cases herrno
  | ok L =>
    rw [hL] at h
    have halpha := not_or.mp ((logLikelihoodContinuous_ok_iff _ _ _).mp ⟨L, hL⟩)
    rw [Double.one_def, Double.fin_le_fin, not_le] at halpha
    rw [logLikelihoodContinuous_fin halpha.1 hx hys] at hL
    cases hL
    rw [iCalculatePValueContinuous_result h]
    exact ⟨hsum, habove, ⟨_, rfl, halpha.1⟩, _, rfl⟩

noncomputable def skippingOptions : ContinuousOptions ℝ :=
  { (continuousDefaultOptions : ContinuousOptions ℝ) with pValueMethod := .skip }

/-- A tail of samples equal to `xmin` is fitted with an infinite exponent. -/
theorem estimateAlphaContinuous_equal (E : Environment ℝ) (hx : 0 < xmin) (hmem : xmin ∈ xs)
    (hle : ∀ x ∈ xs, x ≤ xmin) (result : PlfitResult ℝ) (rng : Rng) :
    ∃ out, estimateAlphaContinuous E (some skippingOptions) (xs.map .fin) (.fin xmin) result rng =
        .ok out ∧
      out.status = .success ∧ fixedLogSum xs xmin = .fin 0 ∧ out.result.alpha = .pinf := by
  have hequal : ∀ y ∈ tailFrom xs xmin, y = xmin := by
    intro y hy
    obtain ⟨hyxs, hxy⟩ := mem_tailFrom.mp hy
    exact (hle y hyxs).antisymm hxy
  have hne : tailFrom xs xmin ≠ [] := List.ne_nil_of_mem (mem_tailFrom.mpr ⟨hmem, le_rfl⟩)
  obtain ⟨hsum, hinfinite⟩ := iEstimateAlphaContinuousSorted_equal hx hequal hne
  have haccepted : ¬ ((.pinf : Double ℝ) ≤ 1 ∨ (.fin xmin : Double ℝ) ≤ 0) := by
    simpa using hx
  obtain ⟨L, hL⟩ :=
    (logLikelihoodContinuous_ok_iff ((tailFrom xs xmin).map .fin) .pinf (.fin xmin)).mpr haccepted
  have hcorrection : skippingOptions.finiteSizeCorrection = false := rfl
  have hskip : skippingOptions.pValueMethod = .skip := rfl
  have hrun : estimateAlphaContinuous E (some skippingOptions) (xs.map .fin) (.fin xmin) result
      rng = .ok { failure := none
                  result := { alpha := .pinf
                              xmin := .fin xmin
                              L := L
                              D := iKsTestContinuous ((tailFrom xs xmin).map .fin) .pinf (.fin xmin)
                              p := .nan }
                  rng := rng } := by
    simp only [estimateAlphaContinuous, Option.getD_some, iCalculatePValueContinuous_skip E hskip,
      estimateAlphaContinuousWith, estimateAlphaContinuousSorted, dropWhile_sort, hinfinite,
      hcorrection, Bool.false_eq_true, if_false, hL, skipPValue]
  exact ⟨_, hrun, rfl, by rw [fixedLogSum, dropWhile_sort, hsum], rfl⟩

/-- The log-sum is guarded unless `xmin` is the largest sample. -/
theorem guardsLogSum_iff (E : Environment ℝ) (xs : List ℝ) (hx : 0 < xmin)
    (result : PlfitResult ℝ) (rng : Rng) :
    (∀ options, GuardsLogSum E options xs xmin result rng) ↔
      (∃ x ∈ xs, xmin < x) ∨ ∀ x ∈ xs, x < xmin := by
  constructor
  · intro h
    by_contra hcases
    push Not at hcases
    obtain ⟨hle, x, hxs, hxge⟩ := hcases
    have hmem : xmin ∈ xs := (hle x hxs).antisymm hxge ▸ hxs
    obtain ⟨out, hrun, hsuccess, -⟩ := estimateAlphaContinuous_equal E hx hmem hle result rng
    obtain ⟨y, hy, hlt⟩ := ((h (some skippingOptions)).1 out hrun hsuccess).above
    exact (hle y hy).not_gt hlt
  · rintro (habove | hempty) options
    · refine ⟨fun out hrun hsuccess => finiteFit_of_above hx habove hrun hsuccess, ?_⟩
      intro hle
      obtain ⟨x, hxs, hlt⟩ := habove
      exact absurd hlt (hle x hxs).not_gt
    · have hrun := estimateAlphaContinuous_nil E hx hempty options result rng
      refine ⟨?_, fun _ => ⟨_, hrun, rfl⟩⟩
      intro out hout hsuccess
      rw [hrun] at hout
      cases hout
      cases hsuccess

theorem guardsLogSum_two : GuardsLogSum idleEnvironment (some skippingOptions) [1, 2] 1
    idleEnvironment.lastResult (.builtin 1 (fun _ => 0)) :=
  (guardsLogSum_iff idleEnvironment [1, 2] one_pos _ _).mpr (Or.inl ⟨2, by simp, one_lt_two⟩)
    (some skippingOptions)

/-- A single sample at `xmin` is fitted: nothing is above `xmin`, the log-sum is zero and the
exponent is infinite. -/
theorem single_sample_divides_by_zero :
    ¬ GuardsLogSum idleEnvironment (some skippingOptions) [1] 1 idleEnvironment.lastResult
        (.builtin 1 (fun _ => 0)) ∧
      ∃ out, estimateAlphaContinuous idleEnvironment (some skippingOptions) ([(1 : ℝ)].map .fin)
          (.fin 1) idleEnvironment.lastResult (.builtin 1 (fun _ => 0)) = .ok out ∧
        out.status = .success ∧ fixedLogSum [1] 1 = .fin 0 ∧ out.result.alpha = .pinf := by
  obtain ⟨out, hrun, hsuccess, hsum, halpha⟩ := estimateAlphaContinuous_equal
    (idleEnvironment : Environment ℝ) one_pos (List.mem_singleton_self (1 : ℝ)) (by simp)
    idleEnvironment.lastResult (.builtin 1 (fun _ => 0))
  refine ⟨?_, out, hrun, hsuccess, hsum, halpha⟩
  intro h
  obtain ⟨x, hx, hlt⟩ := (h.1 out hrun hsuccess).above
  rw [List.mem_singleton.mp hx] at hlt
  exact lt_irrefl 1 hlt

end FixedFits
end Plfit
