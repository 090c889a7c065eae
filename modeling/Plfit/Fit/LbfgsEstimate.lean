import Mathlib
import Plfit.Library.LogZeta
import Plfit.Fit.DiscreteDistance
import Plfit.Fit.GridScan
import Plfit.Optimizer.OneVariable

/-! # The estimator that minimises

The estimator hands minus the likelihood to the optimiser, with a pseudo-infinity at the
exponents up to one. The likelihood is concave in the exponent, so that an exponent at which
the optimiser finds the gradient small is close to the best one.
-/
namespace Plfit
open ExactArithmetic RealHurwitz

/-! ## The call of the optimiser -/

section Call
variable {K : Type} [Field K] [LinearOrder K] [MathLibrary K]

def iEstimateAlphaDiscreteLbfgsProgress : LbfgsProgress 1 K := fun _ _ _ _ _ _ _ _ => 0

/-- The parameters of the estimator: the defaults, without a bound on the iterations. -/
def estimateParam : LbfgsParameter K := { lbfgsDefparam with maxIterations := 0 }

/-- The callback for the only variable, `x[0]`, and the only component of the gradient. -/
def evaluateOne (evaluate : Double K → Double K → Double K × Double K) : LbfgsEvaluate 1 K :=
  fun x step => ((evaluate (x 0) step).1, fun _ => (evaluate (x 0) step).2)

/-- The call `lbfgs(1, variables, 0, evaluate, progress, &data, &param)`, followed for a number
of rounds: its code and the variable after it. -/
def lbfgsOne (rounds : ℕ) (evaluate : Double K → Double K → Double K × Double K)
    (start : Double K) : Exec (ℤ × Double K) := do
  let out ← lbfgs rounds estimateParam (evaluateOne evaluate)
    (some iEstimateAlphaDiscreteLbfgsProgress) (fun _ => start)
  return (out.ret, out.x 0)

/-- The estimator runs the optimiser: where the call ends, it ends as in `lbfgs`. -/
def RunsLbfgs (E : Environment K) : Prop :=
  ∀ evaluate start rounds out, lbfgsOne rounds evaluate start = .ok out →
    E.lbfgs evaluate start = out

end Call

/-- The function `hsl_sf_lnhzeta_deriv_tuple` is exact. -/
def ExactZetaDeriv (E : Environment ℝ) : Prop :=
  ∀ alpha > 1, ∀ x > 0, E.lnhzetaDerivTuple (.fin alpha) (.fin x) =
    (.fin (logZeta x alpha), .fin (deriv (logZeta x) alpha))

/-! ## The objective -/

section Objective
variable {ys : List ℝ} {xmin a b : ℝ}

noncomputable def negLogLikelihood (ys : List ℝ) (xmin a : ℝ) : ℝ :=
  a * logTotal ys + ys.length * logZeta xmin a

noncomputable def negLogLikelihoodDeriv (ys : List ℝ) (xmin a : ℝ) : ℝ :=
  logTotal ys + ys.length * deriv (logZeta xmin) a

/-- The objective with the pseudo-infinity of the callback. -/
noncomputable def guardedObjective (ys : List ℝ) (xmin : ℝ) (v : Fin 1 → ℝ) : ℝ :=
  if v 0 ≤ 1 then 10 ^ 10 else negLogLikelihood ys xmin (v 0)

noncomputable def guardedDeriv (ys : List ℝ) (xmin : ℝ) (v : Fin 1 → ℝ) : Fin 1 → ℝ :=
  fun _ => if v 0 ≤ 1 then -10 ^ 10 else negLogLikelihoodDeriv ys xmin (v 0)

/-- The steps of the search are not negative, so that the callback sees a positive `dx`. -/
theorem computes_lbfgsEvaluate {E : Environment ℝ} (hderiv : ExactZetaDeriv E) (ys : List ℝ)
    (hx : 0 < xmin) :
    Computes (evaluateOne (lbfgsEvaluate E ⟨ys.length, .fin (logTotal ys), .fin xmin⟩))
      (guardedObjective ys xmin) (guardedDeriv ys xmin) := by
  intro v t ht
  have hdx : ∃ dx : ℝ, 0 < dx ∧ (if (.fin (1 / 1000) : Double ℝ) < .fin t ∨
      (.fin t : Double ℝ) == 0 then .fin (1 / 1000)
      else if (.fin t : Double ℝ) < .fin (-(1 / 1000)) then .fin (-(1 / 1000)) else .fin t) =
      Double.fin dx := by
    by_cases hlarge : (.fin (1 / 1000) : Double ℝ) < .fin t ∨ (.fin t : Double ℝ) == 0
    · exact ⟨1 / 1000, by norm_num, if_pos hlarge⟩
    · have hsmall : ¬ (.fin t : Double ℝ) < .fin (-(1 / 1000)) := by
        rw [Double.fin_lt_fin, not_lt]
        linarith
      have hne : t ≠ 0 := by
        rintro rfl
        exact hlarge (.inr (by simp))
      exact ⟨t, ht.lt_of_ne hne.symm, by rw [if_neg hlarge, if_neg hsmall]⟩
  obtain ⟨dx, hpos, hdx⟩ := hdx
  by_cases hv : v 0 ≤ 1
  · have hle : (.fin (v 0) : Double ℝ) ≤ 1 := by simpa using hv
    have hdx0 : (0 : Double ℝ) < .fin dx := by simpa using hpos
    have hgrad : vec (guardedDeriv ys xmin v) = fun _ => .fin (-10 ^ 10) :=
      funext fun _ => congrArg Double.fin (if_pos hv)
    simp only [evaluateOne, lbfgsEvaluate, vec, hdx, isNan, Bool.false_eq_true, if_false,
      if_pos hle, if_pos hdx0, guardedObjective, if_pos hv, Double.neg_fin]
    exact congrArg _ hgrad.symm
  · have hgt : 1 < v 0 := not_le.mp hv
    have hle : ¬ (.fin (v 0) : Double ℝ) ≤ 1 := by simpa using hgt
    have hledx : ¬ (.fin (v 0 + dx) : Double ℝ) ≤ 1 := by
      rw [Double.one_def, Double.fin_le_fin]
      linarith
    have hgrad : vec (guardedDeriv ys xmin v) =
        fun _ => .fin (negLogLikelihoodDeriv ys xmin (v 0)) :=
      funext fun _ => congrArg Double.fin (if_neg hv)
    simp only [evaluateOne, lbfgsEvaluate, vec, hdx, isNan, Bool.false_eq_true, if_false,
      if_neg hle, Double.fin_add_fin, if_neg hledx, hderiv (v 0) hgt xmin hx, guardedObjective,
      if_neg hv, Double.natCast_def, Double.fin_mul_fin, negLogLikelihood]
    exact congrArg _ hgrad.symm

theorem negLogLikelihood_tangent (ys : List ℝ) (hx : 0 < xmin) (ha : 1 < a) (hb : 1 < b) :
    negLogLikelihood ys xmin a + negLogLikelihoodDeriv ys xmin a * (b - a) ≤ negLogLikelihood ys xmin b := by
  have hzeta := mul_le_mul_of_nonneg_left (logZeta_tangent hx ha hb)
    (Nat.cast_nonneg ys.length : (0 : ℝ) ≤ ys.length)
  rw [negLogLikelihood, negLogLikelihood, negLogLikelihoodDeriv]
  linarith

theorem logTotal_sub (ys : List ℝ) (xmin : ℝ) :
    logTotal ys - ys.length * Real.log xmin = (ys.map fun y => Real.log y - Real.log xmin).sum := by
  induction ys with
  | nil => simp [logTotal]
  | cons y ys ih =>
    rw [List.map_cons, List.sum_cons, ← ih]
    simp only [logTotal, List.map_cons, List.sum_cons, List.length_cons]
    push_cast
    ring

/-- The objective grows at least linearly when a sample lies above `xmin`. -/
theorem le_negLogLikelihood (hx : 0 < xmin) (ha : 1 < a) :
    a * (logTotal ys - ys.length * Real.log xmin) ≤ negLogLikelihood ys xmin a := by
  have hzeta := mul_le_mul_of_nonneg_left (le_logZeta ha hx)
    (Nat.cast_nonneg ys.length : (0 : ℝ) ≤ ys.length)
  rw [negLogLikelihood]
  linarith

theorem spread_nonneg (hx : 0 < xmin) (hys : ∀ y ∈ ys, xmin ≤ y) :
    0 ≤ logTotal ys - ys.length * Real.log xmin := by
  rw [logTotal_sub]
  apply List.sum_nonneg
  intro t ht
  obtain ⟨y, hy, rfl⟩ := List.mem_map.mp ht
  exact sub_nonneg.mpr (Real.log_le_log hx (hys y hy))

theorem spread_pos (hx : 0 < xmin) (hys : ∀ y ∈ ys, xmin ≤ y) (hspread : ∃ y ∈ ys, xmin < y) :
    0 < logTotal ys - ys.length * Real.log xmin := by
  obtain ⟨y, hy, hlt⟩ := hspread
  rw [logTotal_sub]
  refine (sub_pos.mpr (Real.log_lt_log hx hlt)).trans_le ?_
  apply List.single_le_sum
  · intro t ht
    obtain ⟨z, hz, rfl⟩ := List.mem_map.mp ht
    exact sub_nonneg.mpr (Real.log_le_log hx (hys z hz))
  · exact List.mem_map.mpr ⟨y, hy, rfl⟩

/-- Where the objective is bounded the exponents keep away from one and from infinity. -/
theorem exists_sublevel (hx : 1 ≤ xmin) (hys : ∀ y ∈ ys, xmin ≤ y)
    (hspread : ∃ y ∈ ys, xmin < y) (bound : ℝ) :
    ∃ lo hi : ℝ, 1 < lo ∧ ∀ a > 1, negLogLikelihood ys xmin a ≤ bound → a ∈ Set.Icc lo hi := by
  have hx0 : 0 < xmin := one_pos.trans_le hx
  have hgrowth := spread_pos hx0 hys hspread
  obtain ⟨lo, hlo, hpole⟩ := exists_lt_logZeta hx0 |bound|
  refine ⟨lo, bound / (logTotal ys - ys.length * Real.log xmin), hlo, fun a ha hle => ⟨?_, ?_⟩⟩
  · by_contra hlt
    have hzeta := hpole a ⟨ha, not_le.mp hlt⟩
    have hsum : 0 ≤ a * logTotal ys := by
      have hlog := mul_nonneg (Nat.cast_nonneg ys.length : (0 : ℝ) ≤ ys.length)
        (Real.log_nonneg hx)
      exact mul_nonneg (by linarith) (by linarith)
    have hlength : (1 : ℝ) ≤ ys.length := by
      obtain ⟨y, hy, -⟩ := hspread
      exact_mod_cast List.length_pos_of_mem hy
    have hmany : logZeta xmin a ≤ ys.length * logZeta xmin a :=
      le_mul_of_one_le_left ((abs_nonneg bound).trans hzeta.le) hlength
    rw [negLogLikelihood] at hle
    linarith [le_abs_self bound]
  · rw [le_div_iff₀ hgrowth]
    exact (le_negLogLikelihood hx0 ha).trans hle

/-! ## The run -/

/-- The problem of the estimator is not regularised. -/
noncomputable def estimateProblem : Unregularised (defaultParam .morethuente 0 1) :=
  defaultProblem .morethuente (by decide)

/-- A point that is no worse than the guess three is an exponent above one. -/
theorem inside_of_guardedObjective_le (hstart : negLogLikelihood ys xmin 3 < 10 ^ 10)
    {v : Fin 1 → ℝ} (hv : guardedObjective ys xmin v ≤ guardedObjective ys xmin (fun _ => 3)) :
    1 < v 0 ∧ negLogLikelihood ys xmin (v 0) ≤ negLogLikelihood ys xmin 3 := by
  have hguess : guardedObjective ys xmin (fun _ => 3) = negLogLikelihood ys xmin 3 :=
    if_neg (by norm_num)
  rw [hguess, guardedObjective] at hv
  split_ifs at hv with hle
  · exact absurd (hv.trans_lt hstart) (lt_irrefl _)
  · exact ⟨not_le.mp hle, hv⟩

theorem exists_lipschitz_guardedDeriv (hx : 1 ≤ xmin) (hys : ∀ y ∈ ys, xmin ≤ y)
    (hspread : ∃ y ∈ ys, xmin < y) (hstart : negLogLikelihood ys xmin 3 < 10 ^ 10) :
    ∃ C > 0, ∀ v w, guardedObjective ys xmin v ≤ guardedObjective ys xmin (fun _ => 3) →
      guardedObjective ys xmin w ≤ guardedObjective ys xmin (fun _ => 3) →
      |guardedDeriv ys xmin v 0 - guardedDeriv ys xmin w 0| ≤ C * |v 0 - w 0| := by
  obtain ⟨lo, hi, hlo, hsublevel⟩ := exists_sublevel hx hys hspread (negLogLikelihood ys xmin 3)
  obtain ⟨C, hC⟩ := exists_lipschitz_deriv_logZeta (one_pos.trans_le hx) hlo hi
  refine ⟨ys.length * |C| + 1, by positivity, fun v w hv hw => ?_⟩
  obtain ⟨hv1, hvle⟩ := inside_of_guardedObjective_le hstart hv
  obtain ⟨hw1, hwle⟩ := inside_of_guardedObjective_le hstart hw
  have hzeta := hC (v 0) (hsublevel _ hv1 hvle) (w 0) (hsublevel _ hw1 hwle)
  have hdiff : guardedDeriv ys xmin v 0 - guardedDeriv ys xmin w 0 =
      ys.length * (deriv (logZeta xmin) (v 0) - deriv (logZeta xmin) (w 0)) := by
    simp only [guardedDeriv, if_neg (not_le.mpr hv1), if_neg (not_le.mpr hw1),
      negLogLikelihoodDeriv]
    ring
  rw [hdiff, abs_mul, Nat.abs_cast]
  calc ys.length * |deriv (logZeta xmin) (v 0) - deriv (logZeta xmin) (w 0)|
      ≤ ys.length * (C * |v 0 - w 0|) := by gcongr
    _ ≤ ys.length * (|C| * |v 0 - w 0|) := by
      gcongr
      exact le_abs_self C
    _ ≤ (ys.length * |C| + 1) * |v 0 - w 0| := by linarith [abs_nonneg (v 0 - w 0)]

theorem guardedObjective_nonneg (hx : 0 < xmin) (hys : ∀ y ∈ ys, xmin ≤ y) (v : Fin 1 → ℝ) :
    0 ≤ guardedObjective ys xmin v := by
  rw [guardedObjective]
  split_ifs with hle
  · positivity
  · have hgt : 1 < v 0 := not_le.mp hle
    exact (mul_nonneg (one_pos.trans hgt).le (spread_nonneg hx hys)).trans
      (le_negLogLikelihood hx hgt)

/-- The call from the guess three ends at an exponent that is no worse than the guess. It has
found a small gradient there, or its last line search has failed. -/
theorem lbfgsOne_ends {E : Environment ℝ} (hderiv : ExactZetaDeriv E) (hx : 1 ≤ xmin)
    (hys : ∀ y ∈ ys, xmin ≤ y) (hspread : ∃ y ∈ ys, xmin < y)
    (hstart : negLogLikelihood ys xmin 3 < 10 ^ 10) :
    ∃ (rounds : ℕ) (ret : ℤ) (a : ℝ), 1 < a ∧
      lbfgsOne rounds (lbfgsEvaluate E ⟨ys.length, .fin (logTotal ys), .fin xmin⟩) 3 =
        .ok (ret, .fin a) ∧
      negLogLikelihood ys xmin a ≤ negLogLikelihood ys xmin 3 ∧
      (((ret = 0 ∨ ret = 2) ∧ |negLogLikelihoodDeriv ys xmin a| ≤ 1 / 10 ^ 5 * a) ∨
        ∃ e ∈ searchErrors, ret = e.code) := by
  have hx0 : 0 < xmin := one_pos.trans_le hx
  obtain ⟨C, hC, hlip⟩ := exists_lipschitz_guardedDeriv hx hys hspread hstart
  have hcheck : lbfgsCheck 1 (estimateParam : LbfgsParameter ℝ) = .ok (defaultParam .morethuente 0 1) :=
    lbfgsCheck_defaultParam le_rfl (.inr ⟨rfl, rfl⟩)
  have hdecrease : 0 < guaranteedDecrease estimateProblem C := by
    refine div_pos ?_ hC
    norm_num [estimateProblem, defaultProblem, defaultTolerances, Tolerances.slope]
  obtain ⟨rounds, hrounds⟩ := exists_nat_gt
    ((guardedObjective ys xmin (fun _ => 3) - 0) / guaranteedDecrease estimateProblem C)
  rw [div_lt_iff₀ hdecrease] at hrounds
  obtain ⟨r, v, before, hrun, hpath, hend⟩ := lbfgs_one_ends hcheck estimateProblem
    (computes_lbfgsEvaluate hderiv ys hx0) (fun _ => 3)
    (some iEstimateAlphaDiscreteLbfgsProgress) hC hlip (guardedObjective_nonneg hx0 hys) hrounds
  obtain ⟨ha, hle⟩ := inside_of_guardedObjective_le hstart hpath.le
  have hone : lbfgsOne rounds (lbfgsEvaluate E ⟨ys.length, .fin (logTotal ys), .fin xmin⟩) 3 =
      .ok (r.ret, r.x 0) := by
    change lbfgs rounds estimateParam _ _ (fun _ => 3) >>= _ = _
    have hthree : (fun _ => 3 : Vec 1 ℝ) = vec fun _ => 3 := rfl
    rw [hthree, hrun]
    rfl
  have hsmall : norm2 (guardedDeriv ys xmin v) ≤ 1 / 10 ^ 5 * max 1 (norm2 v) →
      |negLogLikelihoodDeriv ys xmin (v 0)| ≤ 1 / 10 ^ 5 * v 0 := by
    intro h
    rwa [norm2_one, norm2_one, guardedDeriv, if_neg (not_le.mpr ha),
      abs_of_pos (one_pos.trans ha), max_eq_right ha.le] at h
  refine ⟨rounds, r.ret, v 0, ha, ?_, hle, ?_⟩
  · rw [hone]
    cases hend <;> rfl
  · cases hend with
    | converged h => exact .inl ⟨.inl rfl, hsmall h⟩
    | alreadyMinimized _ h => exact .inl ⟨.inr rfl, hsmall h⟩
    | stopped h => exact absurd h (lt_irrefl 0)
    | maximumiteration h => exact absurd rfl h
    | cancelled hprogress hanswer =>
      cases hprogress
      exact absurd rfl hanswer
    | searchFailed he => exact .inr ⟨_, he, rfl⟩

end Objective

/-! ## The fit -/

section Fit
variable {E : Environment ℝ} {options : DiscreteOptions ℝ} {xmin : ℝ} {xs : List ℝ}

theorem logLikelihoodDiscrete_tail (hzeta : ExactZeta E) (xs : List ℝ) (hx : 1 ≤ xmin) {a : ℝ}
    (ha : 1 < a) :
    logLikelihoodDiscrete E ((tailFrom xs xmin).map .fin) (.fin a) (.fin xmin) =
      .ok (.fin (-negLogLikelihood (tailFrom xs xmin) xmin a)) := by
  have hfilter : (tailFrom xs xmin).filter (xmin ≤ ·) = tailFrom xs xmin :=
    List.filter_eq_self.mpr fun y hy => by simpa using (mem_tailFrom.mp hy).2
  rw [logLikelihoodDiscrete_filter ha hx, hfilter, scanLikelihood,
    hzeta a ha xmin (one_pos.trans_le hx), negLogLikelihood, logZeta]
  simp only [Double.natCast_def, Double.neg_fin, Double.fin_mul_fin, Double.fin_sub_fin]
  congr 2
  ring

theorem logLikelihoodDiscrete_samples (hzeta : ExactZeta E) (hx : 1 ≤ xmin) {a : ℝ} (ha : 1 < a) :
    logLikelihoodDiscrete E (xs.map .fin) (.fin a) (.fin xmin) =
      .ok (.fin (-negLogLikelihood (tailFrom xs xmin) xmin a)) := by
  have hfilter : (tailFrom xs xmin).filter (xmin ≤ ·) = tailFrom xs xmin :=
    List.filter_eq_self.mpr fun y hy => by simpa using (mem_tailFrom.mp hy).2
  rw [← logLikelihoodDiscrete_tail hzeta xs hx ha]
  apply logLikelihoodDiscrete_perm _ ha hx
  rw [hfilter]
  exact tailFrom_perm.symm

noncomputable def tailData (xs : List ℝ) (xmin : ℝ) : LbfgsData ℝ :=
  ⟨(tailFrom xs xmin).length, .fin (logTotal (tailFrom xs xmin)), .fin xmin⟩

/-- The estimator on a sorted tail looks at the code of the optimiser only. -/
theorem iEstimateAlphaDiscrete_lbfgs (hmethod : options.alphaMethod = .lbfgs) (hx : 1 ≤ xmin)
    {ret : ℤ} {alpha : ℝ} (hout : E.lbfgs (lbfgsEvaluate E (tailData xs xmin)) 3 = (ret, .fin alpha)) :
    iEstimateAlphaDiscrete E ((tailFrom xs xmin).map .fin) (.fin xmin) options true =
      .ok (if ret < 0 ∧ ret ∉ lbfgsAccepted then
        .error { reason := s!"L-BFGS optimization signaled an error (error code = {ret})",
                 errno := .failure }
      else .ok (.fin alpha)) := by
  have hpos : ∀ y ∈ tailFrom xs xmin, 0 < y := fun y hy =>
    (one_pos.trans_le hx).trans_le (mem_tailFrom.mp hy).2
  have hsums : discreteTailSums ((tailFrom xs xmin).map .fin) (.fin xmin) true =
      ((.fin (logTotal (tailFrom xs xmin)) : Double ℝ), (tailFrom xs xmin).length) := by
    rw [discreteTailSums, if_pos rfl, iLogsumDiscrete_fin hpos, List.length_map]
  rw [tailData] at hout
  simp only [iEstimateAlphaDiscrete, hmethod, iEstimateAlphaDiscreteLbfgs, xminCheckOne_fin hx,
    hsums, hout, bind, Except.bind]

/-- On a sample above `xmin` the fit ends. It succeeds with an exponent whose likelihood is at
least that of the guess and, unless the last line search has failed, at most below that of any
other exponent by the tolerance times the distance. It fails with the code of the line search
and leaves the record of the caller as it was. -/
theorem lbfgs_estimate (hlbfgs : RunsLbfgs E) (hzeta : ExactZeta E) (hderiv : ExactZetaDeriv E)
    (hmethod : options.alphaMethod = .lbfgs)
    (huncorrected : options.finiteSizeCorrection = false) (hskip : options.pValueMethod = .skip)
    (hx : 1 ≤ xmin) (hspread : ∃ y ∈ xs, xmin < y) {guess : ℝ}
    (hguess : logLikelihoodDiscrete E (xs.map .fin) (.fin 3) (.fin xmin) = .ok (.fin guess))
    (hlarge : -10 ^ 10 < guess) (result : PlfitResult ℝ) (rng : Rng) :
    ∃ (ret : ℤ) (alpha : ℝ) (out : Outcome ℝ), 1 < alpha ∧
      E.lbfgs (lbfgsEvaluate E (tailData xs xmin)) 3 = (ret, .fin alpha) ∧
      estimateAlphaDiscrete E (some options) (xs.map .fin) (.fin xmin) result rng = .ok out ∧
      ((out.failure = none ∧ out.result.alpha = .fin alpha ∧ ∃ L, out.result.L = .fin L ∧
          logLikelihoodDiscrete E (xs.map .fin) (.fin alpha) (.fin xmin) = .ok (.fin L) ∧
          guess ≤ L ∧
          (ret ∈ lbfgsAccepted ∨ ∀ b > 1, ∃ L',
            logLikelihoodDiscrete E (xs.map .fin) (.fin b) (.fin xmin) = .ok (.fin L') ∧
            L' ≤ L + 1 / 10 ^ 5 * alpha * |b - alpha|)) ∨
        ((ret = -999 ∨ ret = -996) ∧
          out = { failure := some
                    { reason := s!"L-BFGS optimization signaled an error (error code = {ret})",
                      errno := .failure }
                  result := result
                  rng := rng })) := by
  have hx0 : 0 < xmin := one_pos.trans_le hx
  have hys : ∀ y ∈ tailFrom xs xmin, xmin ≤ y := fun y hy => (mem_tailFrom.mp hy).2
  have htail : ∃ y ∈ tailFrom xs xmin, xmin < y := by
    obtain ⟨y, hy, hlt⟩ := hspread
    exact ⟨y, mem_tailFrom.mpr ⟨hy, hlt.le⟩, hlt⟩
  have hthree : guess = -negLogLikelihood (tailFrom xs xmin) xmin 3 := by
    rw [logLikelihoodDiscrete_samples hzeta hx (by norm_num), Except.ok.injEq,
      Double.fin.injEq] at hguess
    exact hguess.symm
  obtain ⟨rounds, ret, alpha, ha, hrun, hle, hret⟩ :=
    lbfgsOne_ends hderiv hx hys htail (by linarith)
  have hout := hlbfgs _ _ _ _ hrun
  have hest := iEstimateAlphaDiscrete_lbfgs (E := E) hmethod hx hout
  have hcheck : discreteInputCheck (xs.map .fin) options = .ok () := by
    have hne : ¬ (xs.map Double.fin).length ≤ 0 := by
      obtain ⟨y, hy, -⟩ := hspread
      simpa using List.ne_nil_of_mem hy
    rw [discreteInputCheck, if_neg hne, if_neg (by simp [hmethod])]
  by_cases hfail : ret < 0 ∧ ret ∉ lbfgsAccepted
  · rw [if_pos hfail] at hest
    refine ⟨ret, alpha, _, ha, hout, ?_, .inr ⟨?_, rfl⟩⟩
    · simp only [estimateAlphaDiscrete, Option.getD_some, estimateAlphaDiscreteWith, hcheck,
        dropWhile_sort, hest, bind, Except.bind, pure, Except.pure]
    · rcases hret with ⟨hsucceeds, -⟩ | ⟨e, he, rfl⟩
      · omega
      · revert hfail
        simp only [searchErrors, List.mem_cons, List.not_mem_nil, or_false] at he
        rcases he with rfl | rfl | rfl | rfl | rfl <;> decide
  · rw [if_neg hfail] at hest
    have hfinal : finalAlpha options.finiteSizeCorrection (.fin alpha : Double ℝ)
        ((tailFrom xs xmin).map Double.fin).length = .fin alpha := by
      rw [huncorrected, finalAlpha, if_neg Bool.false_ne_true]
    have hL := logLikelihoodDiscrete_tail hzeta xs hx ha
    rw [← hfinal] at hL
    have hfit := estimateAlphaDiscrete_skip hskip hcheck (dropWhile_sort xs xmin) hest hL result rng
    refine ⟨ret, alpha, _, ha, hout, hfit, .inl ⟨rfl, hfinal, _, rfl,
      logLikelihoodDiscrete_samples hzeta hx ha, by linarith, ?_⟩⟩
    rcases hret with ⟨-, hsmall⟩ | ⟨e, he, rfl⟩
    · refine .inr fun b hb => ⟨_, logLikelihoodDiscrete_samples hzeta hx hb, ?_⟩
      have htangent := negLogLikelihood_tangent (tailFrom xs xmin) hx0 ha hb
      have hslope := neg_abs_le (negLogLikelihoodDeriv (tailFrom xs xmin) xmin alpha * (b - alpha))
      rw [abs_mul] at hslope
      have hdistance := mul_le_mul_of_nonneg_right hsmall (abs_nonneg (b - alpha))
      linarith
    · left
      by_contra haccepted
      have hnonneg : ¬ e.code < 0 := fun hneg => hfail ⟨hneg, haccepted⟩
      cases e <;> exact hnonneg (by decide)

theorem lbfgsOne_unique {evaluate : Double ℝ → Double ℝ → Double ℝ × Double ℝ} {start : Double ℝ}
    {rounds rounds' : ℕ} {out out' : ℤ × Double ℝ} (h : lbfgsOne rounds evaluate start = .ok out)
    (h' : lbfgsOne rounds' evaluate start = .ok out') : out = out' := by
  obtain ⟨r, hr, hout⟩ := bind_eq_ok.mp h
  obtain ⟨r', hr', hout'⟩ := bind_eq_ok.mp h'
  have hle := lbfgs_mono (le_max_left rounds rounds') hr
  rw [lbfgs_mono (le_max_right rounds rounds') hr'] at hle
  cases hle
  exact Except.ok.inj (hout.symm.trans hout')

/-- An environment with the exact functions, in which the optimiser runs wherever it ends. -/
noncomputable def minimisingEnvironment : Environment ℝ :=
  open Classical in
  { zetaEnvironment with
    lnhzetaDerivTuple := fun alpha x =>
      match alpha, x with
      | .fin alpha, .fin x => (.fin (logZeta x alpha), .fin (deriv (logZeta x) alpha))
      | _, _ => (.nan, .nan)
    lbfgs := fun evaluate start =>
      if h : ∃ out rounds, lbfgsOne rounds evaluate start = .ok out then h.choose
      else (0, start) }

theorem runsLbfgs_minimisingEnvironment : RunsLbfgs minimisingEnvironment := by
  intro evaluate start rounds out hrun
  have h : ∃ out rounds, lbfgsOne rounds evaluate start = .ok out := ⟨out, rounds, hrun⟩
  obtain ⟨rounds', hrun'⟩ := h.choose_spec
  exact (dif_pos h).trans (lbfgsOne_unique hrun' hrun)

/-- The guess is far below the pseudo-infinity. -/
theorem hurwitzZeta_three_lt : hurwitzZeta 3 1 < 10 := by
  have hsquares : HasSum (fun k : ℕ => (1 : ℝ) / ((k + 1 : ℕ) : ℝ) ^ 2) (Real.pi ^ 2 / 6) := by
    have h := (hasSum_nat_add_iff' 1).mpr hasSum_zeta_two
    simpa using h
  have hle : hurwitzZeta 3 1 ≤ Real.pi ^ 2 / 6 := by
    rw [← hsquares.tsum_eq]
    apply Summable.tsum_le_tsum _ ((summable_iff one_pos).mpr (by norm_num)) hsquares.summable
    intro k
    have hone : (1 : ℝ) ≤ 1 + k := le_add_of_nonneg_right (Nat.cast_nonneg k)
    rw [Nat.cast_succ, add_comm (k : ℝ) 1, one_div, ← Real.rpow_natCast, ← Real.rpow_neg (by positivity)]
    exact Real.rpow_le_rpow_of_exponent_le hone (by norm_num)
  nlinarith [Real.pi_lt_four, Real.pi_pos]

noncomputable def lbfgsOptions : DiscreteOptions ℝ :=
  { discreteDefaultOptions with pValueMethod := .skip }

/-- The fit of a single sample at two. -/
theorem lbfgs_estimate_two :
    ∃ (ret : ℤ) (alpha : ℝ) (out : Outcome ℝ), 1 < alpha ∧
      minimisingEnvironment.lbfgs (lbfgsEvaluate minimisingEnvironment (tailData [2] 1)) 3 =
        (ret, .fin alpha) ∧
      estimateAlphaDiscrete minimisingEnvironment (some lbfgsOptions) ([2].map .fin) (.fin 1)
        idleEnvironment.lastResult (.builtin 1 (fun _ => 0)) = .ok out ∧
      ((out.failure = none ∧ out.result.alpha = .fin alpha ∧ ∃ L, out.result.L = .fin L ∧
          logLikelihoodDiscrete minimisingEnvironment ([2].map .fin) (.fin alpha) (.fin 1) =
            .ok (.fin L) ∧
          -negLogLikelihood (tailFrom [2] 1) 1 3 ≤ L ∧
          (ret ∈ lbfgsAccepted ∨ ∀ b > 1, ∃ L',
            logLikelihoodDiscrete minimisingEnvironment ([2].map .fin) (.fin b) (.fin 1) =
              .ok (.fin L') ∧
            L' ≤ L + 1 / 10 ^ 5 * alpha * |b - alpha|)) ∨
        ((ret = -999 ∨ ret = -996) ∧
          out = { failure := some
                    { reason := s!"L-BFGS optimization signaled an error (error code = {ret})",
                      errno := .failure }
                  result := idleEnvironment.lastResult
                  rng := .builtin 1 (fun _ => 0) })) := by
  have hzeta : ExactZeta minimisingEnvironment := fun _ _ _ _ => rfl
  have htail : tailFrom [2] 1 = [2] := by norm_num [tailFrom]
  have hlarge : -10 ^ 10 < -negLogLikelihood (tailFrom [2] 1) 1 3 := by
    have hpos : 0 < hurwitzZeta 3 1 := hurwitzZeta_pos (by norm_num) one_pos
    have hlog := Real.log_le_sub_one_of_pos hpos
    have hthree := hurwitzZeta_three_lt
    have htwo := Real.log_two_lt_d9
    rw [htail, negLogLikelihood, logZeta, logTotal]
    norm_num
    linarith
  exact lbfgs_estimate runsLbfgs_minimisingEnvironment hzeta (fun _ _ _ _ => rfl)
    (rfl : lbfgsOptions.alphaMethod = .lbfgs) rfl rfl le_rfl ⟨2, by simp, one_lt_two⟩
    (logLikelihoodDiscrete_samples hzeta le_rfl (by norm_num)) hlarge _ _

end Fit
end Plfit
