import Mathlib
import Plfit.Fit.EmptyTail
import Plfit.Fit.TailCount

/-! # The finite size correction

All four fits correct their exponent with the number of samples in the tail before the likelihood is
checked. From two samples on the corrected exponent lies between one and the old exponent. For a
single sample it is one, and without samples the correction divides by zero.
-/
namespace Plfit
open ExactArithmetic SortedBlocks StrictScan

/-! ## Fits in front of their correction -/

/-- A fit in front of the correction: its record, the number of samples that the correction is given,
and the likelihood that follows, which looks at the exponent and at `xmin`. -/
structure Uncorrected (K : Type) [Field K] [LinearOrder K] where
  result : PlfitResult K
  n : ℕ
  likelihood : Double K → Except Failure (Double K)
  rejectsXmin : Prop
  likelihood_ok_iff : ∀ alpha, (∃ L, likelihood alpha = .ok L) ↔ ¬ (alpha ≤ 1 ∨ rejectsXmin)

section Ends
variable {K : Type} [Field K] [LinearOrder K]

def Uncorrected.finish (fit : Uncorrected K) (correction : Bool) (rng : Rng) : Outcome K :=
  let result :=
    if correction then iPerformFiniteSizeCorrection fit.result fit.n else fit.result
  match fit.likelihood result.alpha with
  | .error f => { failure := some f, result := result, rng := rng }
  | .ok L => { failure := none, result := { result with L := L, p := .nan }, rng := rng }

/-- A fit that has not come as far as its correction, or the rest of it. -/
def endFit (result : PlfitResult K) (correction : Bool) (rng : Rng) :
    Except Failure (Uncorrected K) → Outcome K
  | .error f => { failure := some f, result := result, rng := rng }
  | .ok fit => fit.finish correction rng

end Ends

section Calls
variable {K : Type} [Field K] [LinearOrder K] [FloorRing K] [MathLibrary K]

inductive FitCall (K : Type)
  | continuousFixed (options : ContinuousOptions K) (xs : List K) (xmin : K)
  | continuous (options : ContinuousOptions K) (xs : List K)
  | discreteFixed (options : DiscreteOptions K) (xs : List K) (xmin : K)
  | discrete (options : DiscreteOptions K) (xs : List K)

/-- The options of a fit without a p-value, with the correction or without it. -/
def ContinuousOptions.skipping (options : ContinuousOptions K) (correction : Bool) :
    ContinuousOptions K :=
  { options with finiteSizeCorrection := correction, pValueMethod := .skip }

def DiscreteOptions.skipping (options : DiscreteOptions K) (correction : Bool) :
    DiscreteOptions K :=
  { options with finiteSizeCorrection := correction, pValueMethod := .skip }

def FitCall.run (E : Environment K) (correction : Bool) (call : FitCall K)
    (result : PlfitResult K) (rng : Rng) : Exec (Outcome K) :=
  match call with
  | continuousFixed options xs xmin =>
    estimateAlphaContinuous E (some (options.skipping correction)) (xs.map .fin) (.fin xmin) result
      rng
  | continuous options xs =>
    Plfit.continuous E (some (options.skipping correction)) (xs.map .fin) result rng
  | discreteFixed options xs xmin =>
    estimateAlphaDiscrete E (some (options.skipping correction)) (xs.map .fin) (.fin xmin) result rng
  | discrete options xs =>
    Plfit.discrete E (some (options.skipping correction)) (xs.map .fin) result rng

def uncorrectedContinuous (result : PlfitResult K) (n : ℕ) (tail : List (Double K)) :
    Uncorrected K where
  result := result
  n := n
  likelihood := fun alpha => logLikelihoodContinuous tail alpha result.xmin
  rejectsXmin := result.xmin ≤ 0
  likelihood_ok_iff := fun alpha => logLikelihoodContinuous_ok_iff tail alpha result.xmin

def uncorrectedDiscrete (E : Environment K) (result : PlfitResult K) (n : ℕ)
    (tail : List (Double K)) : Uncorrected K where
  result := result
  n := n
  likelihood := fun alpha => logLikelihoodDiscrete E tail alpha result.xmin
  rejectsXmin := result.xmin < 1
  likelihood_ok_iff := fun alpha => logLikelihoodDiscrete_ok_iff E tail alpha result.xmin

/-- What a call does before its correction. -/
def FitCall.uncorrected (E : Environment K) (call : FitCall K) (result : PlfitResult K) :
    Exec (Except Failure (Uncorrected K)) :=
  match call with
  | continuousFixed _ xs xmin =>
    let tail := (iCopyAndSort (xs.map Double.fin)).dropWhile (fun x => x < .fin xmin)
    .ok ((iEstimateAlphaContinuousSorted tail (.fin xmin)).map fun alpha =>
      uncorrectedContinuous
        { result with alpha := alpha, D := iKsTestContinuous tail alpha (.fin xmin), xmin := .fin xmin }
        tail.length tail)
  | continuous options xs =>
    if xs.length ≤ 0 then .ok (.error { reason := "no data points", errno := .einval })
    else do
      let search ← continuousSearch E iContinuousXminOptEvaluate options.xminMethod (xs.map .fin)
      let window ← tailWindow (iCopyAndSort (xs.map .fin)) search.best.n
      return .ok (uncorrectedContinuous search.best.result search.best.n window)
  | discreteFixed options xs xmin =>
    match discreteInputCheck (xs.map .fin) options with
    | .error f => .ok (.error f)
    | .ok () => do
      let tail := (iCopyAndSort (xs.map Double.fin)).dropWhile (fun x => x < .fin xmin)
      let alpha ← iEstimateAlphaDiscrete E tail (.fin xmin) options true
      return alpha.map fun alpha => uncorrectedDiscrete E
        { result with alpha := alpha, D := iKsTestDiscrete E tail alpha (.fin xmin), xmin := .fin xmin }
        tail.length tail
  | discrete options xs =>
    match discreteInputCheck (xs.map .fin) options with
    | .error f => .ok (.error f)
    | .ok () => do
      match ← discreteSearch E options (iCopyAndSort (xs.map .fin)) with
      | .error f => return .error f
      | .ok search => do
        let window ← tailWindow (iCopyAndSort (xs.map .fin)) search.best.n
        return .ok (uncorrectedDiscrete E search.best.result search.best.n window)

/-! The search of a discrete fit does not look at the correction. -/

omit [FloorRing K] [MathLibrary K] in
theorem discreteInputCheck_skipping (xs : List (Double K)) (options : DiscreteOptions K)
    (correction : Bool) :
    discreteInputCheck xs (options.skipping correction) = discreteInputCheck xs options :=
  rfl

theorem evaluateCandidate_skipping (E : Environment K) (options : DiscreteOptions K)
    (correction : Bool) (xs : List (Double K)) (st : DiscreteScan K) :
    evaluateCandidate E (options.skipping correction) xs st = evaluateCandidate E options xs st :=
  rfl

theorem discreteLoop_skipping (E : Environment K) (options : DiscreteOptions K) (correction : Bool)
    (xs : List (Double K)) (endXmin : ℕ) (st : DiscreteScan K) :
    discreteLoop E (options.skipping correction) xs endXmin st =
      discreteLoop E options xs endXmin st := by
  induction hk : endXmin - st.px using Nat.strong_induction_on generalizing st with
  | h k ih =>
    rw [discreteLoop, discreteLoop]
    by_cases hlt : st.px < endXmin
    · have hle := le_skipDuplicates_fst xs endXmin st.prevX st.px st.m
      simp only [dif_pos hlt, evaluateCandidate_skipping]
      split
      · rfl
      · rfl
      · refine ih _ ?_ _ rfl
        dsimp only
        omega
    · rw [dif_neg hlt, dif_neg hlt]

theorem discreteSearch_skipping (E : Environment K) (options : DiscreteOptions K)
    (correction : Bool) (xs : List (Double K)) :
    discreteSearch E (options.skipping correction) xs = discreteSearch E options xs := by
  simp only [discreteSearch, discreteLoop_skipping]

/-- A call is what it does before its correction, and then the rest. -/
theorem FitCall.run_eq (E : Environment K) (correction : Bool) (call : FitCall K)
    (result : PlfitResult K) (rng : Rng) :
    call.run E correction result rng =
      (call.uncorrected E result).map (endFit result correction rng) := by
  cases call with
  | continuousFixed options xs xmin =>
    have hp : iCalculatePValueContinuous E (options.skipping correction) = skipPValue := rfl
    simp only [FitCall.run, FitCall.uncorrected, estimateAlphaContinuous, Option.getD_some,
      estimateAlphaContinuousWith, estimateAlphaContinuousSorted, hp, Except.map]
    cases iEstimateAlphaContinuousSorted
      ((iCopyAndSort (xs.map Double.fin)).dropWhile (fun x => x < .fin xmin)) (.fin xmin) with
    | error f => rfl
    | ok alpha =>
      simp only [endFit, Uncorrected.finish, uncorrectedContinuous, correct_eq, skipPValue]
      dsimp only [ContinuousOptions.skipping]
      generalize (logLikelihoodContinuous _ _ _ : Except Failure (Double K)) = likelihood
      cases likelihood <;> rfl
  | continuous options xs =>
    have hp : iCalculatePValueContinuous E (options.skipping correction) = skipPValue := rfl
    simp only [FitCall.run, FitCall.uncorrected, Plfit.continuous, Option.getD_some, continuousWith,
      List.length_map, hp]
    by_cases hempty : xs.length ≤ 0
    · simp only [if_pos hempty]
      rfl
    · simp only [if_neg hempty, ContinuousOptions.skipping, bind, Except.bind]
      cases continuousSearch E iContinuousXminOptEvaluate options.xminMethod (xs.map .fin) with
      | error stop => rfl
      | ok search =>
        simp only [finishContinuous, correct_eq, bind, Except.bind]
        cases tailWindow (iCopyAndSort (xs.map .fin)) search.best.n with
        | error stop => rfl
        | ok window =>
          simp only [endFit, Except.map, Uncorrected.finish, uncorrectedContinuous, correct_eq,
            skipPValue, pure, Except.pure]
          generalize (logLikelihoodContinuous _ _ _ : Except Failure (Double K)) = likelihood
          cases likelihood <;> rfl
  | discreteFixed options xs xmin =>
    have hp : iCalculatePValueDiscrete E (options.skipping correction) = skipPValue := rfl
    have hest (tail : List (Double K)) :
        iEstimateAlphaDiscrete E tail (.fin xmin) (options.skipping correction) true =
          iEstimateAlphaDiscrete E tail (.fin xmin) options true := rfl
    simp only [FitCall.run, FitCall.uncorrected, estimateAlphaDiscrete, Option.getD_some,
      estimateAlphaDiscreteWith, discreteInputCheck_skipping, hp, hest]
    cases discreteInputCheck (xs.map Double.fin) options with
    | error f => rfl
    | ok _ =>
      simp only [bind, Except.bind]
      cases iEstimateAlphaDiscrete E
        ((iCopyAndSort (xs.map Double.fin)).dropWhile (fun x => x < .fin xmin)) (.fin xmin) options
        true with
      | error stop => rfl
      | ok estimate =>
        cases estimate with
        | error f => rfl
        | ok alpha =>
          simp only [endFit, Except.map, Uncorrected.finish, uncorrectedDiscrete, correct_eq,
            skipPValue, pure, Except.pure]
          dsimp only [DiscreteOptions.skipping]
          generalize logLikelihoodDiscrete E _ _ _ = likelihood
          cases likelihood <;> rfl
  | discrete options xs =>
    have hp : iCalculatePValueDiscrete E (options.skipping correction) = skipPValue := rfl
    simp only [FitCall.run, FitCall.uncorrected, Plfit.discrete, Option.getD_some, discreteWith,
      discreteInputCheck_skipping, discreteSearch_skipping, hp]
    cases discreteInputCheck (xs.map Double.fin) options with
    | error f => rfl
    | ok _ =>
      simp only [bind, Except.bind]
      cases discreteSearch E options (iCopyAndSort (xs.map .fin)) with
      | error stop => rfl
      | ok outcome =>
        cases outcome with
        | error f => rfl
        | ok search =>
          simp only [correct_eq]
          cases tailWindow (iCopyAndSort (xs.map .fin)) search.best.n with
          | error stop => rfl
          | ok window =>
            simp only [endFit, Except.map, Uncorrected.finish, uncorrectedDiscrete, correct_eq,
              skipPValue, pure, Except.pure]
            dsimp only [DiscreteOptions.skipping]
            generalize logLikelihoodDiscrete E _ _ _ = likelihood
            cases likelihood <;> rfl

end Calls

/-! ## The corrected exponent -/

section Corrected
variable {alpha : Double ℝ} {n : ℕ}

theorem finalAlpha_fin (a : ℝ) (hn : 0 < n) :
    finalAlpha true (.fin a) n = .fin (correctedAlpha true a n) := by
  have hn' : (n : ℝ) ≠ 0 := by exact_mod_cast hn.ne'
  simp only [finalAlpha, if_true, sizeSub_of_le hn, Double.natCast_def, Double.fin_mul_fin,
    Double.fin_div_fin hn', Double.one_def, Double.fin_add_fin, correctedAlpha]

theorem finalAlpha_pinf (hn : 2 ≤ n) : finalAlpha true (.pinf : Double ℝ) n = .pinf := by
  have hpos : (0 : ℝ) < ((n - 1 : ℕ) : ℝ) := by exact_mod_cast (by omega : 0 < n - 1)
  have hn' : (n : ℝ) ≠ 0 := by exact_mod_cast (by omega : n ≠ 0)
  have hdiv : (.pinf : Double ℝ) / .fin (n : ℝ) = .pinf := if_neg (Nat.cast_nonneg n).not_gt
  simp only [finalAlpha, if_true, sizeSub_of_le (by omega : 1 ≤ n), Double.natCast_def,
    Double.pinf_mul_fin hpos, hdiv, Double.one_def, Double.fin_div_fin hn']
  rfl

theorem finalAlpha_bounds (hn : 2 ≤ n) (h : 1 < alpha) :
    1 < finalAlpha true alpha n ∧ finalAlpha true alpha n ≤ alpha := by
  cases alpha with
  | nan => exact absurd h (Double.not_lt_nan _)
  | ninf => exact absurd h (Double.not_lt_ninf _)
  | pinf =>
    rw [finalAlpha_pinf hn]
    exact ⟨h, rfl⟩
  | fin a =>
    have ha : 1 < a := by simpa using h
    have hlower := one_lt_correctedAlpha true ha (fun _ => hn)
    have hn' : (0 : ℝ) < n := by exact_mod_cast (by omega : 0 < n)
    have hupper : correctedAlpha true a n ≤ a := by
      have hsplit : a * (n - 1 : ℕ) / n + 1 / n = a - (a - 1) / n := by
        rw [Nat.cast_sub (by omega), Nat.cast_one]
        field_simp
        ring
      rw [correctedAlpha, if_pos rfl, hsplit]
      exact sub_le_self a (div_nonneg (sub_nonneg.mpr ha.le) hn'.le)
    rw [finalAlpha_fin a (by omega)]
    exact ⟨by simpa using hlower, by simpa using hupper⟩

/-- The correction of a single sample gives the exponent one, or a NaN. -/
theorem not_one_lt_finalAlpha_one : ¬ 1 < finalAlpha true alpha 1 := by
  have hinf : ∀ s : SignType,
      (Double.ofSign (s * SignType.sign (0 : ℝ)) : Double ℝ) = .nan := by
    intro s
    rw [sign_zero, mul_zero]
    rfl
  cases alpha with
  | fin a =>
    rw [finalAlpha_fin a Nat.one_pos]
    simp [correctedAlpha]
  | nan => simp [finalAlpha]
  | ninf =>
    have hmul : (.ninf : Double ℝ) * .fin 0 = .nan := hinf (-1)
    simp [finalAlpha, hmul]
  | pinf =>
    have hmul : (.pinf : Double ℝ) * .fin 0 = .nan := hinf 1
    simp [finalAlpha, hmul]

end Corrected

/-! ## When the correction keeps a fit -/

section Sound
variable {E : Environment ℝ}

/-- A fit with an exponent above one still succeeds with the correction, with an exponent between
one and the old one, and no input makes the call correct an exponent with no samples. -/
structure CorrectionSound (E : Environment ℝ) (call : FitCall ℝ) : Prop where
  succeeds : ∀ result rng out, call.run E false result rng = .ok out → out.failure = none →
    1 < out.result.alpha → ∃ out', call.run E true result rng = .ok out' ∧ out'.failure = none ∧
      1 < out'.result.alpha ∧ out'.result.alpha ≤ out.result.alpha
  counted : ∀ result fit, call.uncorrected E result = .ok (.ok fit) → fit.n ≠ 0

/-- A call never corrects with no samples, nor an exponent above one with a single
sample. -/
def CorrectionCounts (E : Environment ℝ) (call : FitCall ℝ) : Prop :=
  ∀ result fit, call.uncorrected E result = .ok (.ok fit) →
    fit.n ≠ 0 ∧ (fit.n = 1 → 1 < fit.result.alpha → fit.rejectsXmin)

/-- The rest of a fit succeeds unless the likelihood refuses its exponent or its `xmin`. -/
theorem Uncorrected.finish_spec (fit : Uncorrected ℝ) (correction : Bool) (rng : Rng) :
    ((fit.finish correction rng).failure = none ↔
        ¬ (finalAlpha correction fit.result.alpha fit.n ≤ 1 ∨ fit.rejectsXmin)) ∧
      (fit.finish correction rng).result.alpha =
        finalAlpha correction fit.result.alpha fit.n := by
  rw [← fit.likelihood_ok_iff, Uncorrected.finish, correct_eq]
  dsimp only
  cases fit.likelihood (finalAlpha correction fit.result.alpha fit.n) with
  | error f => exact ⟨by simp, rfl⟩
  | ok L => exact ⟨by simp, rfl⟩

/-- All depends on the number of samples that the correction is given. -/
theorem correctionSound_iff_counts (call : FitCall ℝ) :
    CorrectionSound E call ↔ CorrectionCounts E call := by
  have hrun : ∀ correction result rng fit, call.uncorrected E result = .ok (.ok fit) →
      call.run E correction result rng = .ok (fit.finish correction rng) := by
    intro correction result rng fit hfit
    rw [FitCall.run_eq, hfit]
    rfl
  constructor
  · intro h result fit hfit
    refine ⟨h.counted result fit hfit, ?_⟩
    intro hone halpha
    by_contra hxmin
    obtain ⟨hsuccess, hold⟩ := fit.finish_spec false (.builtin 1 (fun _ => 0))
    obtain ⟨out', hout', -, hless, -⟩ := h.succeeds result _ _ (hrun false result _ fit hfit)
      (hsuccess.mpr (not_or.mpr ⟨Double.not_le_of_lt halpha, hxmin⟩)) (by rw [hold]; exact halpha)
    obtain rfl := Except.ok.inj ((hrun true result _ fit hfit).symm.trans hout')
    rw [(fit.finish_spec true _).2, hone] at hless
    exact not_one_lt_finalAlpha_one hless
  · intro h
    refine ⟨?_, fun result fit hfit => (h result fit hfit).1⟩
    intro result rng out hout hnone halpha
    rw [FitCall.run_eq] at hout
    cases hfit : call.uncorrected E result with
    | error stop =>
      rw [hfit] at hout
      cases hout
    | ok outcome =>
      cases outcome with
      | error f =>
        rw [hfit] at hout
        cases hout
        cases hnone
      | ok fit =>
        rw [hfit] at hout
        cases hout
        obtain ⟨hsuccess, hold⟩ := fit.finish_spec false rng
        obtain ⟨hsuccess', hnew⟩ := fit.finish_spec true rng
        have hxmin := (not_or.mp (hsuccess.mp hnone)).2
        rw [endFit, hold] at halpha
        obtain ⟨hzero, hone⟩ := h result fit hfit
        have htwo : 2 ≤ fit.n := by
          have : fit.n ≠ 1 := fun hn => hxmin (hone hn halpha)
          omega
        obtain ⟨hlower, hupper⟩ := finalAlpha_bounds htwo halpha
        refine ⟨_, hrun true result rng fit hfit, ?_, ?_, ?_⟩
        · exact hsuccess'.mpr (not_or.mpr ⟨Double.not_le_of_lt hlower, hxmin⟩)
        · rw [hnew]
          exact hlower
        · rw [hnew, endFit, hold]
          exact hupper

end Sound

/-! ## The counts of the four fits -/

section Counted
variable {E : Environment ℝ}

theorem length_tailFrom (xs : List ℝ) (xmin : ℝ) :
    (tailFrom xs xmin).length = xs.countP (xmin ≤ ·) := by
  rw [tailFrom, ← List.countP_eq_length_filter, (List.perm_insertionSort (· ≤ ·) xs).countP_eq]

/-- Every estimate of a continuous tail is above one. -/
theorem one_lt_of_estimated {xs : List ℝ} {xmin : ℝ} (hx : 0 < xmin)
    (hne : tailFrom xs xmin ≠ []) :
    ∃ alpha, iEstimateAlphaContinuousSorted ((tailFrom xs xmin).map .fin) (.fin xmin) =
      .ok alpha ∧ 1 < alpha := by
  have hys : ∀ y ∈ tailFrom xs xmin, xmin ≤ y := fun y hy => (mem_tailFrom.mp hy).2
  by_cases habove : ∃ y ∈ tailFrom xs xmin, xmin < y
  · refine ⟨_, iEstimateAlphaContinuousSorted_fin hx hys habove, ?_⟩
    simpa using one_lt_hillAlpha hx hys habove
  · push Not at habove
    have hequal : ∀ y ∈ tailFrom xs xmin, y = xmin := fun y hy => (habove y hy).antisymm (hys y hy)
    exact ⟨_, (iEstimateAlphaContinuousSorted_equal hx hequal hne).2, Double.fin_lt_pinf⟩

theorem continuousFixed_counts_iff (options : ContinuousOptions ℝ) (xs : List ℝ) (xmin : ℝ) :
    CorrectionCounts E (.continuousFixed options xs xmin) ↔
      (0 < xmin → xs.countP (xmin ≤ ·) ≠ 1) := by
  simp only [CorrectionCounts, FitCall.uncorrected, dropWhile_sort, ← length_tailFrom]
  constructor
  · intro h hx hone
    have hne : tailFrom xs xmin ≠ [] := List.ne_nil_of_length_pos (by omega)
    obtain ⟨alpha, hestimate, halpha⟩ := one_lt_of_estimated hx hne
    rw [hestimate] at h
    have hrejects := (h E.lastResult _ rfl).2 (by simpa [uncorrectedContinuous] using hone) halpha
    exact absurd (Double.fin_le_fin.mp hrejects) hx.not_ge
  · intro h result fit hfit
    cases hestimate : iEstimateAlphaContinuousSorted ((tailFrom xs xmin).map .fin)
        (.fin xmin) with
    | error f =>
      rw [hestimate] at hfit
      cases hfit
    | ok alpha =>
      rw [hestimate] at hfit
      cases hfit
      by_cases hx : 0 < xmin
      · have hne : tailFrom xs xmin ≠ [] := by
          intro hnil
          simp [iEstimateAlphaContinuousSorted, hnil, xminCheckZero_fin hx, bind, Except.bind]
            at hestimate
        have hpos := List.length_pos_of_ne_nil hne
        have hcount := h hx
        simp only [uncorrectedContinuous, List.length_map]
        exact ⟨by omega, fun hone => absurd hone hcount⟩
      · have hcheck : (.fin xmin : Double ℝ) ≤ 0 := by simpa using hx
        simp only [iEstimateAlphaContinuousSorted, xminCheckZero, if_pos hcheck, bind,
          Except.bind] at hestimate
        cases hestimate

theorem continuous_counts_iff (options : ContinuousOptions ℝ) (xs : List ℝ) :
    CorrectionCounts E (.continuous options xs) ↔
      (xs ≠ [] → ¬ (options.xminMethod = .gssOrLinear ∧ 2 ^ 31 + 5 ≤ (distinct xs).length) →
        SearchFinds E options.xminMethod (xs.insertionSort (· ≤ ·))) := by
  have hs : (xs.insertionSort (· ≤ ·)).SortedLE := List.sortedLE_insertionSort
  have hlen : (distinct (xs.insertionSort (· ≤ ·))).length = (distinct xs).length := by
    rw [distinct_insertionSort]
  have hends : xs ≠ [] →
      ¬ (options.xminMethod = .gssOrLinear ∧ 2 ^ 31 + 5 ≤ (distinct xs).length) →
      ∃ search, continuousSearch E iContinuousXminOptEvaluate options.xminMethod (xs.map .fin) =
          .ok search ∧
        (search.best.n = 0 ∨ TakesTail (xs.insertionSort (· ≤ ·)) search.best) ∧
        (search.best.n ≠ 0 ↔
          SearchFinds E options.xminMethod (xs.insertionSort (· ≤ ·))) := by
    intro hne hsize
    obtain ⟨x, hx⟩ := List.exists_mem_of_ne_nil xs hne
    rw [continuousSearch_eq]
    refine xminSearch_counts E hs options.xminMethod ?_ ?_
    · rw [hlen]
      exact List.length_pos_of_mem (mem_distinct.mpr hx)
    · intro hmethod
      rw [hlen]
      exact not_le.mp (fun hle => hsize ⟨hmethod, hle⟩)
  constructor
  · intro h hne hsize
    obtain ⟨search, hsearch, -, hcount⟩ := hends hne hsize
    by_contra hnot
    have hzero : search.best.n = 0 := not_not.mp (fun hn => hnot (hcount.mp hn))
    obtain ⟨window, hwindow⟩ : ∃ window,
        tailWindow (iCopyAndSort (xs.map Double.fin)) search.best.n = .ok window := by
      rw [hzero]
      exact ⟨_, if_pos (Nat.zero_le _)⟩
    have hpos : ¬ xs.length ≤ 0 := by simpa using hne
    have hfit : (FitCall.continuous options xs).uncorrected E E.lastResult =
        .ok (.ok (uncorrectedContinuous search.best.result search.best.n window)) := by
      simp only [FitCall.uncorrected, if_neg hpos, hsearch, hwindow, bind, Except.bind]
      rfl
    exact (h _ _ hfit).1 hzero
  · intro h result fit hfit
    by_cases hempty : xs.length ≤ 0
    · simp only [FitCall.uncorrected, if_pos hempty] at hfit
      cases hfit
    · simp only [FitCall.uncorrected, if_neg hempty, bind_eq_ok] at hfit
      obtain ⟨search, hsearch, window, -, hfit⟩ := hfit
      cases hfit
      have hne : xs ≠ [] := by simpa using hempty
      by_cases hsize : options.xminMethod = .gssOrLinear ∧ 2 ^ 31 + 5 ≤ (distinct xs).length
      · rw [continuousSearch_eq, hsize.1] at hsearch
        exact absurd hsearch (xminSearch_ne_ok (by rw [length_starts, hlen]; exact hsize.2) search)
      · obtain ⟨search', hsearch', htakes, hcount⟩ := hends hne hsize
        obtain rfl := Except.ok.inj (hsearch.symm.trans hsearch')
        have hnot := hcount.mpr (h hne hsize)
        have htwo := (htakes.resolve_left hnot).1
        refine ⟨hnot, fun hn => ?_⟩
        simp only [uncorrectedContinuous] at hn
        omega

/-- Every discrete estimator refuses an `xmin` below one. -/
theorem not_lt_one_of_estimated {options : DiscreteOptions ℝ} {tail : List (Double ℝ)}
    {xmin alpha : Double ℝ} (h : iEstimateAlphaDiscrete E tail xmin options true =
      .ok (.ok alpha)) : ¬ xmin < 1 := by
  intro hcheck
  cases hmethod : options.alphaMethod <;>
    simp only [iEstimateAlphaDiscrete, hmethod, iEstimateAlphaDiscreteLbfgs,
      iEstimateAlphaDiscreteLinearScan, iEstimateAlphaDiscreteFast, xminCheckOne, if_pos hcheck,
      bind, Except.bind] at h <;>
    cases h

theorem discreteFixed_counts_iff (options : DiscreteOptions ℝ) (xs : List ℝ) (xmin : ℝ) :
    CorrectionCounts E (.discreteFixed options xs xmin) ↔
      (discreteInputCheck (xs.map .fin) options = .ok () → ∀ alpha,
        iEstimateAlphaDiscrete E ((tailFrom xs xmin).map .fin) (.fin xmin) options true =
          .ok (.ok alpha) →
        xs.countP (xmin ≤ ·) ≠ 0 ∧ (xs.countP (xmin ≤ ·) = 1 → ¬ 1 < alpha)) := by
  have hlen : ((tailFrom xs xmin).map Double.fin).length = xs.countP (xmin ≤ ·) := by
    rw [List.length_map, length_tailFrom]
  constructor
  · intro h hcheck alpha halpha
    have hfit : ∃ fit, (FitCall.discreteFixed options xs xmin).uncorrected E E.lastResult =
        .ok (.ok fit) ∧ fit.n = ((tailFrom xs xmin).map Double.fin).length ∧
          fit.result.alpha = alpha ∧ (fit.rejectsXmin → (.fin xmin : Double ℝ) < 1) := by
      simp only [FitCall.uncorrected, hcheck, dropWhile_sort, halpha, bind, Except.bind]
      exact ⟨_, rfl, rfl, rfl, id⟩
    obtain ⟨fit, hfit, hn, hold, hrejects⟩ := hfit
    obtain ⟨hzero, hone⟩ := h _ fit hfit
    rw [hn, hlen] at hzero hone
    refine ⟨hzero, ?_⟩
    intro hcount hlt
    have hxmin := hrejects (hone hcount (by rwa [hold]))
    exact absurd hxmin (not_lt_one_of_estimated halpha)
  · intro h result fit hfit
    simp only [FitCall.uncorrected, dropWhile_sort] at hfit
    cases hcheck : discreteInputCheck (xs.map Double.fin) options with
    | error f =>
      rw [hcheck] at hfit
      cases hfit
    | ok _ =>
      rw [hcheck] at hfit
      obtain ⟨outcome, hestimate, hfit⟩ := bind_eq_ok.mp hfit
      cases outcome with
      | error f => cases hfit
      | ok alpha =>
        obtain ⟨hzero, hone⟩ := h hcheck alpha hestimate
        cases hfit
        simp only [uncorrectedDiscrete, hlen]
        exact ⟨hzero, fun hn halpha => absurd halpha (hone hn)⟩

/-- The search of a discrete fit holds nothing, or the tail of one of its candidates. -/
theorem discreteSearch_counts {options : DiscreteOptions ℝ} {xs : List ℝ}
    {search : DiscreteScan ℝ}
    (h : discreteSearch E options (iCopyAndSort (xs.map .fin)) = .ok (.ok search)) :
    (search.best.n = 0 ∧ ∀ v ∈ evaluatedValues (xs.insertionSort (· ≤ ·)),
        ¬ (candidateRecord E options ((xs.insertionSort (· ≤ ·)).map .fin)
          (below (xs.insertionSort (· ≤ ·)) v)).D < dblMax) ∨
      ∃ v ∈ evaluatedValues (xs.insertionSort (· ≤ ·)),
        (candidateRecord E options ((xs.insertionSort (· ≤ ·)).map .fin)
          (below (xs.insertionSort (· ≤ ·)) v)).D < dblMax ∧
        search.best.n = xs.countP (v ≤ ·) ∧ search.best.result.xmin = .fin v ∧
        search.best.result.alpha = candidateAlpha E options
          ((xs.insertionSort (· ≤ ·)).map .fin) (below (xs.insertionSort (· ≤ ·)) v) := by
  have hs : (xs.insertionSort (· ≤ ·)).SortedLE := List.sortedLE_insertionSort
  have hcount : ∀ v, (tailFrom xs v).length =
      ((xs.insertionSort (· ≤ ·)).drop (below (xs.insertionSort (· ≤ ·)) v)).length := by
    intro v
    rw [tailFrom, drop_below hs]
  rw [iCopyAndSort_map] at h
  have hbest := best_eq_scan_values hs h
  simp only [length_tailFrom] at hcount
  generalize xs.insertionSort (· ≤ ·) = sorted at *
  cases hscan : scan (valueKey E options sorted) (scoreBound ℝ) (evaluatedValues sorted) with
  | none =>
    rw [hscan] at hbest
    refine Or.inl ⟨by rw [hbest]; rfl, ?_⟩
    intro v hv hlt
    exact (scan_eq_none_iff.mp hscan v hv).not_gt ((Double.lt_iff_rank_lt dblMax_ne_nan).mp hlt)
  | some v =>
    rw [hscan] at hbest
    have hv := mem_of_scan hscan
    have hkey : valueKey E options sorted v < scoreBound ℝ := lt_bound_of_scan hscan
    have hxmin : (candidateRecord E options (sorted.map .fin) (below sorted v)).xmin = .fin v := by
      rw [candidateRecord_below hs (mem_of_mem_evaluatedValues hv).1]
    refine Or.inr ⟨v, hv, (Double.lt_iff_rank_lt dblMax_ne_nan).mpr hkey, ?_, ?_, ?_⟩
    · rw [hbest, hcount, List.length_drop]
      simp [candidateFit, fitOf]
    · rw [hbest]
      simp [candidateFit, fitOf, hxmin]
    · rw [hbest]
      rfl

theorem discrete_counts_iff (options : DiscreteOptions ℝ) (xs : List ℝ) :
    CorrectionCounts E (.discrete options xs) ↔
      (discreteInputCheck (xs.map .fin) options = .ok () →
        (∀ v ∈ evaluatedValues (xs.insertionSort (· ≤ ·)), Estimated E options
          ((xs.insertionSort (· ≤ ·)).map .fin) (below (xs.insertionSort (· ≤ ·)) v)) →
        (∃ v ∈ evaluatedValues (xs.insertionSort (· ≤ ·)),
          (candidateRecord E options ((xs.insertionSort (· ≤ ·)).map .fin)
            (below (xs.insertionSort (· ≤ ·)) v)).D < dblMax) ∧
        ∀ v ∈ evaluatedValues (xs.insertionSort (· ≤ ·)), xs.countP (v ≤ ·) = 1 →
          ¬ 1 < candidateAlpha E options ((xs.insertionSort (· ≤ ·)).map .fin)
            (below (xs.insertionSort (· ≤ ·)) v)) := by
  have hs : (xs.insertionSort (· ≤ ·)).SortedLE := List.sortedLE_insertionSort
  have hperm := List.perm_insertionSort (· ≤ ·) xs
  constructor
  · intro h hcheck hestimated
    have hne : xs.insertionSort (· ≤ ·) ≠ [] := by
      intro hnil
      have hnil' : xs = [] := List.perm_nil.mp (hnil ▸ hperm.symm)
      rw [discreteInputCheck, hnil', if_pos (by simp)] at hcheck
      cases hcheck
    obtain ⟨search, hsearch⟩ := discreteSearch_total hs hne hestimated
    rw [← iCopyAndSort_map] at hsearch
    have hcases := discreteSearch_counts hsearch
    have hn : search.best.n ≤ (iCopyAndSort (xs.map (Double.fin : ℝ → Double ℝ))).length := by
      rw [iCopyAndSort_map, List.length_map, hperm.length_eq]
      rcases hcases with ⟨hzero, -⟩ | ⟨v, -, -, hcount, -⟩
      · omega
      · rw [hcount]
        exact List.countP_le_length
    have hfit : ∃ fit, (FitCall.discrete options xs).uncorrected E E.lastResult =
        .ok (.ok fit) ∧ fit.n = search.best.n ∧ fit.result = search.best.result ∧
          (fit.rejectsXmin → search.best.result.xmin < 1) := by
      simp only [FitCall.uncorrected, hcheck, hsearch, tailWindow, if_pos hn, bind, Except.bind]
      exact ⟨_, rfl, rfl, rfl, id⟩
    obtain ⟨fit, hfit, hfitn, hresult, hrejects⟩ := hfit
    obtain ⟨hzero, hone⟩ := h _ fit hfit
    rw [hfitn] at hzero hone
    rw [hresult] at hone
    obtain ⟨w, hw, hscore, hcount, hxmin, halpha⟩ := hcases.resolve_left (fun h => hzero h.1)
    refine ⟨⟨w, hw, hscore⟩, ?_⟩
    intro v hv hsingle hlt
    have honly := evaluatedValues_eq_singleton hv (hperm.countP_eq _ ▸ hsingle)
    rw [honly] at hw
    obtain rfl := List.mem_singleton.mp hw
    have hrefused := hrejects (hone (hcount.trans hsingle) (by rwa [halpha]))
    rw [hxmin] at hrefused
    exact absurd (Double.fin_lt_fin.mp hrefused) (mem_of_mem_evaluatedValues hv).2.not_gt
  · intro h result fit hfit
    simp only [FitCall.uncorrected] at hfit
    cases hcheck : discreteInputCheck (xs.map Double.fin) options with
    | error f =>
      rw [hcheck] at hfit
      cases hfit
    | ok _ =>
      rw [hcheck] at hfit
      obtain ⟨outcome, hsearch, hfit⟩ := bind_eq_ok.mp hfit
      cases outcome with
      | error f => cases hfit
      | ok search =>
        obtain ⟨window, -, hfit⟩ := bind_eq_ok.mp hfit
        cases hfit
        have hcases := discreteSearch_counts hsearch
        rw [iCopyAndSort_map] at hsearch
        obtain ⟨⟨w, hw, hscore⟩, hone⟩ := h hcheck (discreteSearch_spec hs hsearch).2.2
        rcases hcases with ⟨-, hnone⟩ | ⟨v, hv, -, hcount, -, halpha⟩
        · exact absurd hscore (hnone w hw)
        · have hpos : 0 < xs.countP (v ≤ ·) := by
            have hmem := hperm.mem_iff.mp (mem_of_mem_evaluatedValues hv).1
            exact List.countP_pos_iff.mpr ⟨v, hmem, by simp⟩
          simp only [uncorrectedDiscrete, hcount, halpha]
          exact ⟨hpos.ne', fun hn hlt => absurd hlt (hone v hv hn)⟩

/-- What the correction relies on: two samples in the tail, or one with an exponent that is not
above one to begin with. A search has to find a score below `DBL_MAX` to count samples at all. -/
def CorrectionHolds (E : Environment ℝ) : FitCall ℝ → Prop
  | .continuousFixed _ xs xmin => 0 < xmin → xs.countP (xmin ≤ ·) ≠ 1
  | .continuous options xs =>
    xs ≠ [] → ¬ (options.xminMethod = .gssOrLinear ∧ 2 ^ 31 + 5 ≤ (distinct xs).length) →
      SearchFinds E options.xminMethod (xs.insertionSort (· ≤ ·))
  | .discreteFixed options xs xmin =>
    discreteInputCheck (xs.map .fin) options = .ok () → ∀ alpha,
      iEstimateAlphaDiscrete E ((tailFrom xs xmin).map .fin) (.fin xmin) options true =
        .ok (.ok alpha) →
      xs.countP (xmin ≤ ·) ≠ 0 ∧ (xs.countP (xmin ≤ ·) = 1 → ¬ 1 < alpha)
  | .discrete options xs =>
    let sorted := xs.insertionSort (· ≤ ·)
    discreteInputCheck (xs.map .fin) options = .ok () →
      (∀ v ∈ evaluatedValues sorted, Estimated E options (sorted.map .fin) (below sorted v)) →
      (∃ v ∈ evaluatedValues sorted,
        (candidateRecord E options (sorted.map .fin) (below sorted v)).D < dblMax) ∧
      ∀ v ∈ evaluatedValues sorted, xs.countP (v ≤ ·) = 1 →
        ¬ 1 < candidateAlpha E options (sorted.map .fin) (below sorted v)

/-- The correction keeps every fit with an exponent above one, and is never given a count of zero,
exactly for the calls that meet the condition. -/
theorem finite_size_correction_sound_iff (E : Environment ℝ) (call : FitCall ℝ) :
    CorrectionSound E call ↔ CorrectionHolds E call := by
  rw [correctionSound_iff_counts]
  cases call with
  | continuousFixed options xs xmin => exact continuousFixed_counts_iff options xs xmin
  | continuous options xs => exact continuous_counts_iff options xs
  | discreteFixed options xs xmin => exact discreteFixed_counts_iff options xs xmin
  | discrete options xs => exact discrete_counts_iff options xs

/-- The single sample two is fitted at one, and not with the correction, which takes its exponent
to one. Equal samples are corrected with a count of zero. -/
theorem correction_loses_single_sample :
    ¬ CorrectionSound idleEnvironment (.continuousFixed continuousDefaultOptions [2] 1) ∧
      ¬ CorrectionSound idleEnvironment (.continuous linearOptions [1, 1]) := by
  constructor
  · rw [correctionSound_iff_counts, continuousFixed_counts_iff]
    intro h
    exact h one_pos (by simp)
  · have hs : [(1 : ℝ), 1].SortedLE := by simp [List.sortedLE_iff_pairwise]
    have hsort : [(1 : ℝ), 1].insertionSort (· ≤ ·) = [1, 1] := hs.pairwise.insertionSort_eq
    have hdistinct : distinct [(1 : ℝ), 1] = [1] := by
      rw [distinct_cons hs, distinct_cons (sortedLE_cons.mp hs).2]
      simp [distinct]
    rw [correctionSound_iff_counts, continuous_counts_iff, hsort,
      searchFinds_iff_of_pos idleEnvironment _ (by simp) hs, hdistinct]
    intro h
    have htwo := h (by simp) (by simp [linearOptions])
    simp at htwo

end Counted
end Plfit
