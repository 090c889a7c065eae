import Mathlib
import Plfit.Search.CandidateSet
import Plfit.Fit.ContinuousFit

/-! # Discrete fits without a p-value

The score of a candidate is never a NaN, so the first strict minimum is the smallest
candidate with the least score. The window of the likelihood is the tail of that candidate,
and the fit at a fixed `xmin` cuts the same tail.
-/
namespace Plfit
open ExactArithmetic SortedBlocks StrictScan

section Score
variable {K : Type} [Field K] [LinearOrder K] [MathLibrary K]

/-- The distance at a block of equal samples with `m` samples before it. -/
def ksDistance (E : Environment K) (alpha : Double K) (n lnhzeta x : Double K) (m : ℕ) :
    Double K :=
  Double.fabs (MathLibrary.expm1 (E.lnhzeta alpha x - lnhzeta) + (m : Double K) / n)

/-- What holds of zero and is kept by every comparison holds of the score. -/
theorem iKsTestDiscrete_induction (E : Environment K) (alpha xmin : Double K)
    (xs : List (Double K)) (P : Double K → Prop) (hzero : P 0)
    (hstep : ∀ x ∈ xs, ∀ m < xs.length, ∀ r, P r →
      r < ksDistance E alpha xs.length (E.lnhzeta alpha xmin) x m →
        P (ksDistance E alpha xs.length (E.lnhzeta alpha xmin) x m)) :
    P (iKsTestDiscrete E xs alpha xmin) := by
  have hloop : ∀ (n : Double K) (ys : List (Double K)) (m : ℕ) (r : Double K),
      (∀ x ∈ ys, ∀ i < m + ys.length, ∀ r, P r →
        r < ksDistance E alpha n (E.lnhzeta alpha xmin) x i →
          P (ksDistance E alpha n (E.lnhzeta alpha xmin) x i)) → P r →
      P (iKsTestDiscrete.loop E alpha n (E.lnhzeta alpha xmin) ys m r) := by
    intro n ys m r hys hr
    fun_induction iKsTestDiscrete.loop E alpha n (E.lnhzeta alpha xmin) ys m r with
    | case1 m r => exact hr
    | case2 m r x rest d block ih =>
      refine ih ?_ ?_
      · intro y hy i hi
        have hblock : block.length ≤ rest.length := (List.takeWhile_sublist _).length_le
        refine hys y (List.mem_cons_of_mem x (List.mem_of_mem_drop hy)) i ?_
        simp only [List.length_drop, List.length_cons] at hi ⊢
        omega
      · split
        · rename_i hlt
          exact hys x List.mem_cons_self m (by simp) r hr hlt
        · exact hr
  rw [iKsTestDiscrete]
  exact hloop xs.length xs 0 0 (by simpa using hstep) hzero

/-- The score of a tail is a value that another one can be compared with. -/
theorem iKsTestDiscrete_ne_nan (E : Environment K) (alpha xmin : Double K)
    (xs : List (Double K)) : iKsTestDiscrete E xs alpha xmin ≠ .nan := by
  refine iKsTestDiscrete_induction E alpha xmin xs (· ≠ .nan) (nomatch ·) ?_
  intro x _ m _ r _ hlt hnan
  rw [hnan] at hlt
  exact Double.not_lt_nan r hlt

end Score

section RealScore
variable {E : Environment ℝ} {alpha : Double ℝ} {xmin : ℝ}

/-- Where the zeta value has not grown, a distance that is not a NaN lies between zero and one. -/
theorem ksDistance_bounds {x : ℝ}
    (hzeta : ¬ 0 < E.lnhzeta alpha (.fin x) - E.lnhzeta alpha (.fin xmin)) {m n : ℕ} (hm : m < n) :
    ksDistance E alpha n (E.lnhzeta alpha (.fin xmin)) (.fin x) m = .nan ∨
      ∃ d, ksDistance E alpha n (E.lnhzeta alpha (.fin xmin)) (.fin x) m = .fin d ∧
        0 ≤ d ∧ d ≤ 1 := by
  have hn : (0 : ℝ) < n := by exact_mod_cast Nat.zero_lt_of_lt hm
  have hquot : (0 : ℝ) ≤ m / n := by positivity
  have hquot' : (m : ℝ) / n ≤ 1 := (div_le_one hn).mpr (by exact_mod_cast hm.le)
  have hfabs : ∀ e : ℝ, -1 ≤ e → e ≤ 0 → ∃ d : ℝ,
      Double.fabs (.fin e + (m : Double ℝ) / (n : Double ℝ)) = .fin d ∧ 0 ≤ d ∧ d ≤ 1 := by
    intro e he he'
    rw [Double.natCast_def, Double.natCast_def, Double.fin_div_fin hn.ne', Double.fin_add_fin,
      Double.fabs_fin]
    exact ⟨_, rfl, abs_nonneg _, abs_le.mpr ⟨by linarith, by linarith⟩⟩
  unfold ksDistance
  cases hz : E.lnhzeta alpha (.fin x) - E.lnhzeta alpha (.fin xmin) with
  | nan =>
    refine Or.inl ?_
    change Double.fabs ((.nan : Double ℝ) + _) = _
    rw [Double.nan_add, Double.fabs_nan]
  | ninf => exact Or.inr (hfabs (-1) le_rfl (by norm_num))
  | fin t =>
    rw [hz] at hzeta
    have ht : t ≤ 0 := by simpa using hzeta
    rw [MathLibrary.expm1_fin]
    refine Or.inr (hfabs _ ?_ ?_)
    · linarith [Real.exp_pos t]
    · linarith [Real.exp_le_one_iff.mpr ht]
  | pinf =>
    rw [hz] at hzeta
    exact absurd Double.fin_lt_pinf hzeta

theorem iKsTestDiscrete_le_one {ys : List ℝ}
    (hzeta : ∀ y ∈ ys, ¬ 0 < E.lnhzeta alpha (.fin y) - E.lnhzeta alpha (.fin xmin)) :
    ∃ d, iKsTestDiscrete E (ys.map .fin) alpha (.fin xmin) = .fin d ∧ 0 ≤ d ∧ d ≤ 1 := by
  refine iKsTestDiscrete_induction E alpha (.fin xmin) (ys.map .fin)
    (fun r => ∃ d, r = .fin d ∧ 0 ≤ d ∧ d ≤ 1) ⟨0, rfl, le_rfl, zero_le_one⟩ ?_
  intro x hx m hm r _ hlt
  obtain ⟨y, hy, rfl⟩ := List.mem_map.mp hx
  rcases ksDistance_bounds (hzeta y hy) hm with hnan | hfin
  · rw [hnan] at hlt
    exact absurd hlt (Double.not_lt_nan r)
  · exact hfin

end RealScore

/-! ## The ends of both fits -/

section Ends
variable {K : Type} [Field K] [LinearOrder K] [FloorRing K] [MathLibrary K]
variable {E : Environment K} {options : DiscreteOptions K} {xs : List K}

def finalAlpha (finiteSizeCorrection : Bool) (alpha : Double K) (n : ℕ) : Double K :=
  if finiteSizeCorrection then
    alpha * (sizeSub n 1 : Double K) / (n : Double K) + 1 / (n : Double K)
  else alpha

omit [FloorRing K] [MathLibrary K] in
theorem correct_eq (finiteSizeCorrection : Bool) (result : PlfitResult K) (n : ℕ) :
    (if finiteSizeCorrection then iPerformFiniteSizeCorrection result n else result) =
      { result with alpha := finalAlpha finiteSizeCorrection result.alpha n } := by
  cases finiteSizeCorrection <;> rfl

theorem iCalculatePValueDiscrete_skip (E : Environment K) (hskip : options.pValueMethod = .skip) :
    iCalculatePValueDiscrete E options = skipPValue := by
  funext data xminFixed result rng
  simp only [iCalculatePValueDiscrete, hskip]

omit [FloorRing K] in
theorem logLikelihoodContinuous_ok_iff (xs : List (Double K)) (alpha xmin : Double K) :
    (∃ L, logLikelihoodContinuous xs alpha xmin = .ok L) ↔ ¬ (alpha ≤ 1 ∨ xmin ≤ 0) := by
  rw [logLikelihoodContinuous, xminCheckZero, not_or]
  split_ifs with halpha hxmin
  · refine ⟨?_, fun h => absurd halpha h.1⟩
    rintro ⟨L, hL⟩
    cases hL
  · refine ⟨?_, fun h => absurd hxmin h.2⟩
    rintro ⟨L, hL⟩
    cases hL
  · exact ⟨fun _ => ⟨halpha, hxmin⟩, fun _ => ⟨_, rfl⟩⟩

omit [FloorRing K] in
theorem logLikelihoodDiscrete_ok_iff (E : Environment K) (xs : List (Double K))
    (alpha xmin : Double K) :
    (∃ L, logLikelihoodDiscrete E xs alpha xmin = .ok L) ↔ ¬ (alpha ≤ 1 ∨ xmin < 1) := by
  rw [logLikelihoodDiscrete, xminCheckOne, not_or]
  split_ifs with halpha hxmin
  · refine ⟨?_, fun h => absurd halpha h.1⟩
    rintro ⟨L, hL⟩
    cases hL
  · refine ⟨?_, fun h => absurd hxmin h.2⟩
    rintro ⟨L, hL⟩
    cases hL
  · exact ⟨fun _ => ⟨halpha, hxmin⟩, fun _ => ⟨_, rfl⟩⟩

omit [FloorRing K] [MathLibrary K] in
theorem xminCheckOne_fin {xmin : K} (hx : 1 ≤ xmin) : xminCheckOne (.fin xmin) = .ok () := by
  rw [xminCheckOne, if_neg]
  simpa using hx

theorem estimateAlphaDiscrete_skip (hskip : options.pValueMethod = .skip)
    (hcheck : discreteInputCheck (xs.map .fin) options = .ok ()) {x : K} {alpha L : Double K}
    {tail : List (Double K)}
    (htail : (iCopyAndSort (xs.map Double.fin)).dropWhile (fun y => y < .fin x) = tail)
    (hest : iEstimateAlphaDiscrete E tail (.fin x) options true = .ok (.ok alpha))
    (hL : logLikelihoodDiscrete E tail
      (finalAlpha options.finiteSizeCorrection alpha tail.length) (.fin x) = .ok L)
    (result : PlfitResult K) (rng : Rng) :
    estimateAlphaDiscrete E (some options) (xs.map .fin) (.fin x) result rng =
      .ok { failure := none
            result := { alpha := finalAlpha options.finiteSizeCorrection alpha tail.length
                        xmin := .fin x
                        L := L
                        D := iKsTestDiscrete E tail alpha (.fin x)
                        p := .nan }
            rng := rng } := by
  simp only [estimateAlphaDiscrete, Option.getD_some, estimateAlphaDiscreteWith, hcheck, htail,
    hest, bind, Except.bind, correct_eq, hL, iCalculatePValueDiscrete_skip E hskip, skipPValue]

theorem discrete_skip (hskip : options.pValueMethod = .skip)
    (hcheck : discreteInputCheck (xs.map .fin) options = .ok ()) {search : DiscreteScan K}
    (hsearch : discreteSearch E options (iCopyAndSort (xs.map .fin)) = .ok (.ok search))
    {window : List (Double K)}
    (hwindow : tailWindow (iCopyAndSort (xs.map .fin)) search.best.n = .ok window)
    (result : PlfitResult K) (rng : Rng) :
    discrete E (some options) (xs.map .fin) result rng =
      let alpha := finalAlpha options.finiteSizeCorrection search.best.result.alpha search.best.n
      let fit := { search.best.result with alpha := alpha }
      match logLikelihoodDiscrete E window alpha fit.xmin with
      | .error f => .ok { failure := some f, result := fit, rng := rng }
      | .ok L => .ok { failure := none, result := { fit with L := L, p := .nan }, rng := rng } := by
  simp only [discrete, Option.getD_some, discreteWith, hcheck, hsearch, bind, Except.bind,
    correct_eq, hwindow, iCalculatePValueDiscrete_skip E hskip, skipPValue]
  rfl

theorem search_of_discrete {result : PlfitResult K} {rng : Rng} {out : Outcome K}
    (h : discrete E (some options) (xs.map .fin) result rng = .ok out)
    (hsuccess : out.failure = none) :
    discreteInputCheck (xs.map .fin) options = .ok () ∧
      ∃ search, discreteSearch E options (iCopyAndSort (xs.map .fin)) = .ok (.ok search) := by
  simp only [discrete, Option.getD_some, discreteWith] at h
  cases hcheck : discreteInputCheck (xs.map Double.fin) options with
  | error f =>
    rw [hcheck] at h
    cases h
    cases hsuccess
  | ok u =>
    refine ⟨rfl, ?_⟩
    simp only [hcheck, bind, Except.bind] at h
    cases hsearch : discreteSearch E options (iCopyAndSort (xs.map .fin)) with
    | error e =>
      rw [hsearch] at h
      cases h
    | ok outcome =>
      cases outcome with
      | error f =>
        rw [hsearch] at h
        cases h
        cases hsuccess
      | ok search => exact ⟨search, rfl⟩

end Ends

/-! ## The chosen candidate -/

section Choice
variable {K : Type} [Field K] [LinearOrder K] [FloorRing K] [MathLibrary K]
variable {E : Environment K} {options : DiscreteOptions K} {xs : List K}

def valueKey (E : Environment K) (options : DiscreteOptions K) (xs : List K) (v : K) :
    WithBot (WithTop K) :=
  scoreKey (candidateRecord E options (xs.map .fin)) (below xs v)

omit [Field K] [FloorRing K] [MathLibrary K] in
theorem getElem?_map_below (hs : xs.SortedLE) {v : K} (hv : v ∈ xs) :
    (xs.map Double.fin)[below xs v]? = some (.fin v) := by
  rw [List.getElem?_map, getElem?_below hs hv]
  rfl

theorem candidateRecord_below (hs : xs.SortedLE) {v : K} (hv : v ∈ xs) :
    candidateRecord E options (xs.map .fin) (below xs v) =
      { E.bestResult with
        alpha := candidateAlpha E options (xs.map .fin) (below xs v)
        xmin := .fin v
        D := iKsTestDiscrete E ((xs.map .fin).drop (below xs v))
          (candidateAlpha E options (xs.map .fin) (below xs v)) (.fin v) } := by
  rw [candidateRecord, getElem?_map_below hs hv, Option.getD_some]

theorem estimated_below (hs : xs.SortedLE) {v : K} (hv : v ∈ xs)
    (hest : Estimated E options (xs.map .fin) (below xs v)) :
    iEstimateAlphaDiscrete E ((xs.map .fin).drop (below xs v)) (.fin v) options true =
      .ok (.ok (candidateAlpha E options (xs.map .fin) (below xs v))) := by
  have hest' := hest.2
  rwa [getElem?_map_below hs hv, Option.getD_some] at hest'

/-- The search holds the first of its values with the least score. -/
theorem best_eq_scan_values [IsStrictOrderedRing K] (hs : xs.SortedLE) {search : DiscreteScan K}
    (h : discreteSearch E options (xs.map .fin) = .ok (.ok search)) :
    search.best = candidateFit E options (xs.map .fin)
      ((scan (valueKey E options xs) (scoreBound K) (evaluatedValues xs)).map (below xs)) := by
  rw [(discreteSearch_spec hs h).2.1, scan_map]
  rfl

/-- A fit that holds no candidate has the exponent one, and its likelihood is refused. -/
theorem failure_of_discreteBest [IsStrictOrderedRing K] (hskip : options.pValueMethod = .skip)
    (hcheck : discreteInputCheck (xs.map .fin) options = .ok ())
    (hcorrection : options.finiteSizeCorrection = false) {search : DiscreteScan K}
    (hsearch : discreteSearch E options (iCopyAndSort (xs.map .fin)) = .ok (.ok search))
    (hbest : search.best = discreteBest E) {result : PlfitResult K} {rng : Rng} {out : Outcome K}
    (h : discrete E (some options) (xs.map .fin) result rng = .ok out) : out.failure ≠ none := by
  have hwindow : ∃ window,
      tailWindow (iCopyAndSort (xs.map (Double.fin : K → Double K))) search.best.n =
        .ok window := by
    rw [hbest]
    exact ⟨_, if_pos (Nat.zero_le _)⟩
  obtain ⟨window, hwindow⟩ := hwindow
  have halpha : (1 : Double K) ≤ 1 := by simp
  rw [discrete_skip hskip hcheck hsearch hwindow, hbest] at h
  simp only [discreteBest, hcorrection, finalAlpha, Bool.false_eq_true, if_false,
    logLikelihoodDiscrete, if_pos halpha] at h
  cases h
  exact nofun

/-- The fit of the chosen candidate, before its likelihood. -/
def chosenFit (E : Environment K) (options : DiscreteOptions K) (sorted : List K) (x : K) :
    PlfitResult K :=
  { candidateRecord E options (sorted.map .fin) (below sorted x) with
    alpha := finalAlpha options.finiteSizeCorrection
      (candidateAlpha E options (sorted.map .fin) (below sorted x))
      ((sorted.map Double.fin).drop (below sorted x)).length
    xmin := .fin x }

/-- The search counts the samples of the chosen tail, and the fit ends with that tail. -/
theorem discrete_of_bestValue [IsStrictOrderedRing K] (hskip : options.pValueMethod = .skip)
    (hcheck : discreteInputCheck (xs.map .fin) options = .ok ()) {sorted : List K}
    (hs : sorted.SortedLE) (hsorted : iCopyAndSort (xs.map Double.fin) = sorted.map .fin)
    {search : DiscreteScan K}
    (hsearch : discreteSearch E options (sorted.map .fin) = .ok (.ok search)) {x : K}
    (hx : scan (valueKey E options sorted) (scoreBound K) (evaluatedValues sorted) = some x)
    (result : PlfitResult K) (rng : Rng) :
    search.best.n = ((sorted.map Double.fin).drop (below sorted x)).length ∧
      discrete E (some options) (xs.map .fin) result rng =
        match logLikelihoodDiscrete E ((sorted.map .fin).drop (below sorted x))
          (chosenFit E options sorted x).alpha (.fin x) with
        | .error f => .ok { failure := some f, result := chosenFit E options sorted x, rng := rng }
        | .ok L => .ok { failure := none
                         result := { chosenFit E options sorted x with L := L, p := .nan }
                         rng := rng } := by
  have hxmem := (mem_of_mem_evaluatedValues (mem_of_scan hx)).1
  have hbest := best_eq_scan_values hs hsearch
  rw [hx] at hbest
  have hrecord : search.best.result = candidateRecord E options (sorted.map .fin) (below sorted x) :=
    congrArg BestFit.result hbest
  have hn : search.best.n = ((sorted.map Double.fin).drop (below sorted x)).length := by
    rw [hbest, List.length_drop]
    rfl
  have hwindow : tailWindow (iCopyAndSort (xs.map Double.fin)) search.best.n =
      .ok ((sorted.map .fin).drop (below sorted x)) := by
    have hlt := below_lt_length hs hxmem
    rw [hsorted, hn, tailWindow, List.length_drop, if_pos (Nat.sub_le _ _), List.length_map,
      Nat.sub_sub_self hlt.le]
  have hxmin : (candidateRecord E options (sorted.map .fin) (below sorted x)).xmin = .fin x := by
    rw [candidateRecord_below hs hxmem]
  have halpha : (candidateRecord E options (sorted.map .fin) (below sorted x)).alpha =
      candidateAlpha E options (sorted.map .fin) (below sorted x) := rfl
  refine ⟨hn, ?_⟩
  rw [discrete_skip hskip hcheck (hsorted ▸ hsearch) hwindow, hrecord, hn]
  dsimp only [chosenFit]
  rw [hxmin, halpha]

end Choice

section Agreement
variable {E : Environment ℝ} {options : DiscreteOptions ℝ} {xs : List ℝ}

/-- The fit has chosen the smallest of the evaluated candidates with the least score, it counts
the samples from that candidate on, and the fit at the `xmin` it has chosen returns the same
exponent, score and likelihood. -/
def AgreesWithFixedXmin (E : Environment ℝ) (options : DiscreteOptions ℝ) (xs : List ℝ)
    (out : Outcome ℝ) : Prop :=
  ∃ x search,
    discreteSearch E options (iCopyAndSort (xs.map .fin)) = .ok (.ok search) ∧
    out.result.xmin = .fin x ∧
    (∃ s ∈ search.evaluated, (iCopyAndSort (xs.map Double.fin))[s]? = some (.fin x)) ∧
    (∀ s ∈ search.evaluated, ∃ v alpha,
      (iCopyAndSort (xs.map Double.fin))[s]? = some (.fin v) ∧
      iEstimateAlphaDiscrete E ((iCopyAndSort (xs.map .fin)).drop s) (.fin v) options true =
        .ok (.ok alpha) ∧
      out.result.D ≤ iKsTestDiscrete E ((iCopyAndSort (xs.map .fin)).drop s) alpha (.fin v) ∧
      (iKsTestDiscrete E ((iCopyAndSort (xs.map .fin)).drop s) alpha (.fin v) ≤ out.result.D →
        x ≤ v)) ∧
    search.best.n = xs.countP (x ≤ ·) ∧
    ∀ result' rng', ∃ out',
      estimateAlphaDiscrete E (some options) (xs.map .fin) (.fin x) result' rng' = .ok out' ∧
      out'.failure = none ∧ out'.result.alpha = out.result.alpha ∧
      out'.result.D = out.result.D ∧ out'.result.L = out.result.L

/-- Some evaluated candidate scores below `DBL_MAX`, with which the search starts. -/
def FindsScore (E : Environment ℝ) (options : DiscreteOptions ℝ) (xs : List ℝ) : Prop :=
  ∃ v ∈ evaluatedValues (xs.insertionSort (· ≤ ·)), ∃ alpha,
    iEstimateAlphaDiscrete E ((tailFrom xs v).map .fin) (.fin v) options true =
      .ok (.ok alpha) ∧
    iKsTestDiscrete E ((tailFrom xs v).map .fin) alpha (.fin v) < dblMax

/-- The search holds a candidate exactly when some score lies below its first one. -/
theorem findsScore_iff {search : DiscreteScan ℝ}
    (hsearch : discreteSearch E options (iCopyAndSort (xs.map .fin)) = .ok (.ok search)) :
    FindsScore E options xs ↔ scan (valueKey E options (xs.insertionSort (· ≤ ·)))
      (scoreBound ℝ) (evaluatedValues (xs.insertionSort (· ≤ ·))) ≠ none := by
  have hs : (xs.insertionSort (· ≤ ·)).SortedLE := List.sortedLE_insertionSort
  have htail : ∀ v, (tailFrom xs v).map Double.fin = ((xs.insertionSort (· ≤ ·)).map .fin).drop
      (below (xs.insertionSort (· ≤ ·)) v) := by
    intro v
    rw [tailFrom, ← drop_below hs, List.map_drop]
  rw [iCopyAndSort_map] at hsearch
  have hestimated := (discreteSearch_spec hs hsearch).2.2
  rw [FindsScore, Ne, scan_eq_none_iff]
  simp only [htail]
  generalize xs.insertionSort (· ≤ ·) = sorted at *
  have hkey : ∀ v ∈ evaluatedValues sorted, iKsTestDiscrete E
      ((sorted.map .fin).drop (below sorted v))
      (candidateAlpha E options (sorted.map .fin) (below sorted v)) (.fin v) < dblMax ↔
        valueKey E options sorted v < scoreBound ℝ := by
    intro v hv
    rw [valueKey, scoreKey, candidateRecord_below hs (mem_of_mem_evaluatedValues hv).1]
    exact Double.lt_iff_rank_lt dblMax_ne_nan
  push Not
  refine exists_congr (fun v => and_congr_right (fun hv => ?_))
  rw [← hkey v hv, estimated_below hs (mem_of_mem_evaluatedValues hv).1 (hestimated v hv)]
  constructor
  · rintro ⟨alpha, halpha, hlt⟩
    cases halpha
    exact hlt
  · exact fun hlt => ⟨_, rfl, hlt⟩

theorem agrees_of_bestValue (hskip : options.pValueMethod = .skip)
    (hcheck : discreteInputCheck (xs.map .fin) options = .ok ()) {search : DiscreteScan ℝ}
    (hsearch : discreteSearch E options (iCopyAndSort (xs.map .fin)) = .ok (.ok search)) {x : ℝ}
    (hx : scan (valueKey E options (xs.insertionSort (· ≤ ·))) (scoreBound ℝ)
      (evaluatedValues (xs.insertionSort (· ≤ ·))) = some x)
    {result : PlfitResult ℝ} {rng : Rng} {out : Outcome ℝ}
    (h : discrete E (some options) (xs.map .fin) result rng = .ok out)
    (hsuccess : out.failure = none) : AgreesWithFixedXmin E options xs out := by
  have hs : (xs.insertionSort (· ≤ ·)).SortedLE := List.sortedLE_insertionSort
  have hcount : xs.countP (x ≤ ·) = ((xs.insertionSort (· ≤ ·)).filter (x ≤ ·)).length := by
    rw [← List.countP_eq_length_filter, (List.perm_insertionSort (· ≤ ·) xs).countP_eq]
  have hsorted := iCopyAndSort_map xs
  rw [AgreesWithFixedXmin]
  rw [iCopyAndSort_map] at hsearch ⊢
  obtain ⟨hevaluated, -, hestimated⟩ := discreteSearch_spec hs hsearch
  generalize xs.insertionSort (· ≤ ·) = sorted at *
  have hxeval := mem_of_scan hx
  obtain ⟨hxmem, -⟩ := mem_of_mem_evaluatedValues hxeval
  have hkey : ∀ w ∈ sorted, valueKey E options sorted w =
      (iKsTestDiscrete E ((sorted.map .fin).drop (below sorted w))
        (candidateAlpha E options (sorted.map .fin) (below sorted w)) (.fin w)).rank := by
    intro w hw
    rw [valueKey, scoreKey, candidateRecord_below hs hw]
  have hD : (chosenFit E options sorted x).D =
      iKsTestDiscrete E ((sorted.map .fin).drop (below sorted x))
        (candidateAlpha E options (sorted.map .fin) (below sorted x)) (.fin x) := by
    rw [chosenFit, candidateRecord_below hs hxmem]
  obtain ⟨hn, hrun⟩ := discrete_of_bestValue hskip hcheck hs hsorted hsearch hx result rng
  rw [hrun] at h
  cases hL : logLikelihoodDiscrete E ((sorted.map .fin).drop (below sorted x))
      (chosenFit E options sorted x).alpha (.fin x) with
  | error f =>
    rw [hL] at h
    cases h
    cases hsuccess
  | ok L =>
    rw [hL] at h
    cases h
    refine ⟨x, search, hsearch, rfl, ⟨below sorted x, ?_, getElem?_map_below hs hxmem⟩, ?_, ?_,
      ?_⟩
    · rw [hevaluated]
      exact List.mem_map_of_mem hxeval
    · intro s hs'
      rw [hevaluated] at hs'
      obtain ⟨v, hv, rfl⟩ := List.mem_map.mp hs'
      obtain ⟨hvmem, -⟩ := mem_of_mem_evaluatedValues hv
      refine ⟨v, _, getElem?_map_below hs hvmem, estimated_below hs hvmem (hestimated v hv), ?_⟩
      have hle : ∀ a ∈ sorted, ∀ b ∈ sorted,
          (iKsTestDiscrete E ((sorted.map .fin).drop (below sorted a))
            (candidateAlpha E options (sorted.map .fin) (below sorted a)) (.fin a) ≤
          iKsTestDiscrete E ((sorted.map .fin).drop (below sorted b))
            (candidateAlpha E options (sorted.map .fin) (below sorted b)) (.fin b) ↔
          valueKey E options sorted a ≤ valueKey E options sorted b) := by
        intro a ha b hb
        rw [hkey a ha, hkey b hb]
        exact Double.le_iff_rank_le_of_ne_nan (iKsTestDiscrete_ne_nan _ _ _ _)
          (iKsTestDiscrete_ne_nan _ _ _ _)
      dsimp only
      rw [hD, hle x hxmem v hvmem, hle v hvmem x hxmem]
      exact ⟨le_of_scan hx hv, le_of_scan_of_key_le (evaluatedValues_sortedLT sorted) hx hv⟩
    · rw [hn, hcount, ← List.map_drop, List.length_map, drop_below hs]
    · intro result' rng'
      have htail : (iCopyAndSort (xs.map Double.fin)).dropWhile (fun y => y < .fin x) =
          (sorted.map .fin).drop (below sorted x) := by
        rw [hsorted, dropWhile_lt_map hs, List.map_drop]
      exact ⟨_, estimateAlphaDiscrete_skip hskip hcheck htail
        (estimated_below hs hxmem (hestimated x hxeval)) hL result' rng', rfl, rfl, hD.symm, rfl⟩

theorem finalAlpha_one_zero : finalAlpha true (1 : Double ℝ) 0 = .pinf := by
  have hsub : (0 : ℝ) < ((sizeSub 0 1 : ℕ) : ℝ) := by
    rw [sizeSub, if_neg one_pos.not_ge]
    norm_num
  simp [finalAlpha, Double.natCast_def, Double.one_def, Double.fin_div_zero, sign_pos hsub]
  rfl

/-- Where no score lies below `DBL_MAX`, the correction divides by the number of samples that the
search has counted, which is zero. Its infinite exponent passes the check of the likelihood. -/
theorem discrete_of_discreteBest (hskip : options.pValueMethod = .skip)
    (hcheck : discreteInputCheck (xs.map .fin) options = .ok ())
    (hcorrection : options.finiteSizeCorrection = true) {search : DiscreteScan ℝ}
    (hsearch : discreteSearch E options (iCopyAndSort (xs.map .fin)) = .ok (.ok search))
    (hbest : search.best = discreteBest E) (result : PlfitResult ℝ) (rng : Rng) :
    ∃ L, discrete E (some options) (xs.map .fin) result rng =
      .ok { failure := none
            result := { alpha := .pinf, xmin := 1, L := L, D := dblMax, p := .nan }
            rng := rng } := by
  have hwindow : tailWindow (iCopyAndSort (xs.map Double.fin)) search.best.n =
      .ok ((iCopyAndSort (xs.map Double.fin)).drop (iCopyAndSort (xs.map Double.fin)).length) := by
    rw [hbest]
    exact if_pos (Nat.zero_le _)
  have hrefused : ¬ ((.pinf : Double ℝ) ≤ 1 ∨ (1 : Double ℝ) < 1) := by
    simp [Double.one_def]
  obtain ⟨L, hL⟩ := (logLikelihoodDiscrete_ok_iff E
    ((iCopyAndSort (xs.map Double.fin)).drop (iCopyAndSort (xs.map Double.fin)).length)
    .pinf 1).mpr hrefused
  refine ⟨L, ?_⟩
  rw [discrete_skip hskip hcheck hsearch hwindow, hbest]
  simp only [discreteBest, hcorrection, finalAlpha_one_zero, hL]

/-- Without a p-value a discrete fit that succeeds agrees with the fit at a fixed `xmin`, with the
finite size correction only when the search finds a score. -/
theorem discrete_agrees_iff (hskip : options.pValueMethod = .skip)
    (hcandidate : ∃ x ∈ xs, 1 ≤ x) {result : PlfitResult ℝ} {rng : Rng} {out : Outcome ℝ}
    (h : discrete E (some options) (xs.map .fin) result rng = .ok out)
    (hsuccess : out.failure = none) :
    AgreesWithFixedXmin E options xs out ↔
      (options.finiteSizeCorrection = true → FindsScore E options xs) := by
  have hs : (xs.insertionSort (· ≤ ·)).SortedLE := List.sortedLE_insertionSort
  obtain ⟨hcheck, search, hsearch⟩ := search_of_discrete h hsuccess
  rw [findsScore_iff hsearch]
  cases hscan : scan (valueKey E options (xs.insertionSort (· ≤ ·))) (scoreBound ℝ)
      (evaluatedValues (xs.insertionSort (· ≤ ·))) with
  | some x =>
    exact iff_of_true (agrees_of_bestValue hskip hcheck hsearch hscan h hsuccess)
      (fun _ => Option.some_ne_none x)
  | none =>
    have hbest : search.best = discreteBest E := by
      have hsearch' := hsearch
      rw [iCopyAndSort_map] at hsearch'
      rw [best_eq_scan_values hs hsearch', hscan]
      rfl
    cases hcorrection : options.finiteSizeCorrection with
    | false => exact absurd hsuccess (failure_of_discreteBest hskip hcheck hcorrection hsearch hbest h)
    | true =>
      refine iff_of_false ?_ (by simp)
      rintro ⟨x, search', hsearch', hxmin, -, -, hn, -⟩
      obtain rfl := Except.ok.inj (Except.ok.inj (hsearch.symm.trans hsearch'))
      obtain ⟨L, hrun⟩ := discrete_of_discreteBest hskip hcheck hcorrection hsearch hbest result rng
      obtain rfl := Except.ok.inj (h.symm.trans hrun)
      obtain rfl := Double.fin.inj hxmin
      rw [hbest] at hn
      obtain ⟨y, hy, hy1⟩ := hcandidate
      have hpos : 0 < xs.countP ((1 : ℝ) ≤ ·) := List.countP_pos_iff.mpr ⟨y, hy, by simpa using hy1⟩
      exact hpos.ne hn

/-! ### Three samples with the finite size correction -/

section Examples

noncomputable def correctedOptions : DiscreteOptions ℝ :=
  { discreteDefaultOptions with finiteSizeCorrection := true, pValueMethod := .skip }

/-- A zeta function together with an optimizer that stays where it starts. -/
noncomputable def idleWith (lnhzeta : Double ℝ → Double ℝ → Double ℝ) : Environment ℝ :=
  { (idleEnvironment : Environment ℝ) with lnhzeta := lnhzeta }

theorem sort_three : [(2 : ℝ), 1, 3].insertionSort (· ≤ ·) = [1, 2, 3] := by
  norm_num [List.orderedInsert]

theorem sortedLE_three : [(1 : ℝ), 2, 3].SortedLE := by
  rw [List.sortedLE_iff_pairwise]
  norm_num

theorem evaluatedValues_three : evaluatedValues [(1 : ℝ), 2, 3] = [1] := by
  have hfrom : valuesFrom [(1 : ℝ), 2, 3] 1 = [1, 2, 3] := by
    refine valuesFrom_eq ?_ ?_
    · rw [List.sortedLT_iff_pairwise]
      norm_num
    · intro v
      simp
      rintro (rfl | rfl | rfl) <;> norm_num
  rw [evaluatedValues, hfrom]
  norm_num [expectedCandidates, overrun]

theorem tail_three : tailFrom [(2 : ℝ), 1, 3] 1 = [1, 2, 3] := by
  rw [tailFrom, sort_three]
  norm_num

theorem estimate_three (lnhzeta : Double ℝ → Double ℝ → Double ℝ) :
    iEstimateAlphaDiscrete (idleWith lnhzeta) ([(1 : ℝ), 2, 3].map .fin) (.fin 1)
      correctedOptions true = .ok (.ok (.fin 3)) := by
  simp [iEstimateAlphaDiscrete, correctedOptions, discreteDefaultOptions,
    iEstimateAlphaDiscreteLbfgs, xminCheckOne, idleWith, idleEnvironment, bind, Except.bind]

theorem findsScore_three (lnhzeta : Double ℝ → Double ℝ → Double ℝ) :
    FindsScore (idleWith lnhzeta) correctedOptions [2, 1, 3] ↔
      iKsTestDiscrete (idleWith lnhzeta) ([(1 : ℝ), 2, 3].map .fin) (.fin 3) (.fin 1) <
        dblMax := by
  rw [FindsScore, sort_three, evaluatedValues_three]
  simp only [List.mem_singleton, exists_eq_left, tail_three, estimate_three]
  constructor
  · rintro ⟨alpha, halpha, hlt⟩
    cases halpha
    exact hlt
  · exact fun hlt => ⟨_, rfl, hlt⟩

theorem search_three (lnhzeta : Double ℝ → Double ℝ → Double ℝ) :
    ∃ search, discreteSearch (idleWith lnhzeta) correctedOptions
      (iCopyAndSort ([2, 1, 3].map .fin)) = .ok (.ok search) :=
  discreteSearch_runs _ _ (List.cons_ne_nil _ _) rfl (fun _ _ => le_rfl)

theorem discrete_agrees_on_three_samples :
    ∃ out, discrete (idleWith (fun _ x => -x)) (some correctedOptions)
        ([2, 1, 3].map .fin) idleEnvironment.lastResult (.builtin 1 (fun _ => 0)) = .ok out ∧
      out.failure = none ∧
      AgreesWithFixedXmin (idleWith (fun _ x => -x)) correctedOptions [2, 1, 3] out := by
  have hcheck : discreteInputCheck ([(2 : ℝ), 1, 3].map .fin) correctedOptions = .ok () := rfl
  have hfinds : FindsScore (idleWith (fun _ x => -x)) correctedOptions [2, 1, 3] := by
    have hfalls : ∀ y ∈ [(1 : ℝ), 2, 3],
        ¬ 0 < (idleWith (fun _ x => -x)).lnhzeta (.fin 3) (.fin y) -
          (idleWith (fun _ x => -x)).lnhzeta (.fin 3) (.fin 1) := by
      simp [idleWith, Double.zero_def]
    obtain ⟨d, hd, -, hd1⟩ := iKsTestDiscrete_le_one hfalls
    rw [findsScore_three, hd]
    exact lt_dblMax_of_le_one hd1
  obtain ⟨search, hsearch⟩ := search_three (fun _ x => -x)
  obtain ⟨x, hx⟩ := Option.ne_none_iff_exists'.mp ((findsScore_iff hsearch).mp hfinds)
  rw [sort_three] at hx
  obtain rfl : x = 1 := by simpa [evaluatedValues_three] using mem_of_scan hx
  have hsorted : iCopyAndSort ([(2 : ℝ), 1, 3].map Double.fin) = [(1 : ℝ), 2, 3].map .fin := by
    rw [iCopyAndSort_map, sort_three]
  rw [hsorted] at hsearch
  obtain ⟨-, hrun⟩ := discrete_of_bestValue rfl hcheck sortedLE_three hsorted hsearch hx
    idleEnvironment.lastResult (.builtin 1 (fun _ => 0))
  have hbelow : below [(1 : ℝ), 2, 3] 1 = 0 := below_eq_zero (by simp)
  have hfinal : (chosenFit (idleWith (fun _ x => -x)) correctedOptions [1, 2, 3] 1).alpha =
      .fin (7 / 3) := by
    have halpha : candidateAlpha (idleWith (fun _ x => -x)) correctedOptions
        ([(1 : ℝ), 2, 3].map .fin) 0 = .fin 3 := by
      have hfirst : ([(1 : ℝ), 2, 3].map Double.fin)[0]? = some (.fin 1) := rfl
      rw [candidateAlpha, hfirst, List.drop_zero, Option.getD_some, estimate_three]
    have hthree : ((3 : ℕ) : ℝ) ≠ 0 := by norm_num
    rw [chosenFit, hbelow, halpha]
    change finalAlpha true (.fin 3 : Double ℝ) 3 = .fin (7 / 3)
    simp only [finalAlpha, if_true, sizeSub_of_le (by norm_num : 1 ≤ 3), Double.natCast_def,
      Double.one_def, Double.fin_mul_fin, Double.fin_div_fin hthree, Double.fin_add_fin]
    norm_num
  have haccepted : ¬ ((.fin (7 / 3) : Double ℝ) ≤ 1 ∨ (.fin 1 : Double ℝ) < 1) := by
    rw [Double.one_def, Double.fin_le_fin, Double.fin_lt_fin]
    norm_num
  obtain ⟨L, hL⟩ := (logLikelihoodDiscrete_ok_iff (idleWith (fun _ x => -x))
    (([(1 : ℝ), 2, 3].map Double.fin).drop (below [(1 : ℝ), 2, 3] 1)) (.fin (7 / 3))
    (.fin 1)).mpr haccepted
  rw [hfinal, hL] at hrun
  exact ⟨_, hrun, rfl, (discrete_agrees_iff rfl ⟨1, by simp, le_rfl⟩ hrun rfl).mpr
    (fun _ => hfinds)⟩

/-- With a zeta function that grows by `DBL_MAX` no score lies below `DBL_MAX`, and the fit
reports that of no candidate. -/
theorem discrete_disagrees_without_score :
    ∃ out,
      discrete (idleWith (fun _ x => if x ≤ 1 then 0 else dblMax)) (some correctedOptions)
        ([2, 1, 3].map .fin) idleEnvironment.lastResult (.builtin 1 (fun _ => 0)) = .ok out ∧
      out.failure = none ∧
      ¬ AgreesWithFixedXmin (idleWith (fun _ x => if x ≤ 1 then 0 else dblMax))
        correctedOptions [2, 1, 3] out := by
  set grows : Double ℝ → Double ℝ → Double ℝ := fun _ x => if x ≤ 1 then 0 else dblMax with hgrows
  have hcheck : discreteInputCheck ([(2 : ℝ), 1, 3].map .fin) correctedOptions = .ok () := rfl
  have hfinds : ¬ FindsScore (idleWith grows) correctedOptions [2, 1, 3] := by
    obtain ⟨M, hM, hM0⟩ : ∃ M : ℝ, (dblMax : Double ℝ) = .fin M ∧ 0 < M :=
      ⟨_, rfl, Double.fin_lt_fin.mp (lt_dblMax_of_le_one zero_le_one)⟩
    have hone : grows (.fin 3) (.fin 1) = 0 := if_pos (Double.fin_le_fin.mpr le_rfl)
    have hlarge : ∀ x : ℝ, 1 < x → grows (.fin 3) (.fin x) = .fin M := fun x hx =>
      (if_neg (by rw [Double.one_def, Double.fin_le_fin]; exact hx.not_ge)).trans hM
    have hexp := Real.add_one_le_exp M
    have habs : ∀ c : ℝ, 0 ≤ c → |Real.exp M - 1 + c| = Real.exp M - 1 + c := fun c hc =>
      abs_of_nonneg (by linarith)
    rw [findsScore_three, hM]
    simp [iKsTestDiscrete, iKsTestDiscrete.loop, idleWith, hone, hlarge,
      Double.fin_div_fin (three_ne_zero : (3 : ℝ) ≠ 0), habs (3⁻¹) (by norm_num),
      habs (2 / 3) (by norm_num)]
    split_ifs <;> simp <;> linarith
  obtain ⟨search, hsearch⟩ := search_three grows
  have hs : ([(2 : ℝ), 1, 3].insertionSort (· ≤ ·)).SortedLE := List.sortedLE_insertionSort
  have hscan := not_not.mp ((findsScore_iff hsearch).not.mp hfinds)
  have hbest : search.best = discreteBest (idleWith grows) := by
    have hsearch' := hsearch
    rw [iCopyAndSort_map] at hsearch'
    rw [best_eq_scan_values hs hsearch', hscan]
    rfl
  obtain ⟨L, hrun⟩ := discrete_of_discreteBest rfl hcheck rfl hsearch hbest
    idleEnvironment.lastResult (.builtin 1 (fun _ => 0))
  exact ⟨_, hrun, rfl, fun h => hfinds ((discrete_agrees_iff rfl ⟨1, by simp, le_rfl⟩ hrun
    rfl).mp h rfl)⟩

end Examples

end Agreement

end Plfit
