import Mathlib
import Plfit.Model.Continuous

/-! # Fitting discrete power laws

The discrete half of `plfit.c`: three estimators of the exponent, the Kolmogorov-Smirnov
score against the zeta distribution, and the search over the candidates for `xmin`.
-/
namespace Plfit
open ExactArithmetic

section Estimation
variable {K : Type} [Field K] [LinearOrder K] [FloorRing K] [MathLibrary K]

def iLogsumDiscrete (xs : List (Double K)) : Double K :=
  xs.foldl (fun logsum x => logsum + MathLibrary.log x) 0

def iLogsumLessThanDiscrete (xs : List (Double K)) (xmin : Double K) : Double K × ℕ :=
  xs.foldl (fun st x => if x < xmin then st else (st.1 + MathLibrary.log x, st.2 + 1)) (0, 0)

def xminCheckOne (xmin : Double K) : Except Failure Unit :=
  if xmin < 1 then .error { reason := "xmin must be at least 1", errno := .einval }
  else .ok ()

/-- The checks of the exponent range, which the linear scan makes once more. -/
def alphaRangeCheck (range : AlphaRange K) : Except Failure Unit :=
  if range.min ≤ 1 then
    .error { reason := "alpha.min must be greater than 1.0", errno := .einval }
  else if range.max < range.min then
    .error { reason := "alpha.max must be greater than alpha.min", errno := .einval }
  else if range.step ≤ 0 then
    .error { reason := "alpha.step must be positive", errno := .einval }
  else .ok ()

/-- The log-sum and the number of samples an estimator works with. A sorted tail has been
cut off already. -/
def discreteTailSums (xs : List (Double K)) (xmin : Double K) (sorted : Bool) : Double K × ℕ :=
  if sorted then (iLogsumDiscrete xs, xs.length) else iLogsumLessThanDiscrete xs xmin

def gridScan (E : Environment K) (range : AlphaRange K) (logsum : Double K) (m : ℕ)
    (xmin : Double K) : ℕ → Double K → Double K → Double K → Exec (Double K)
  | 0, _, _, _ => .error .endless
  | rounds + 1, currAlpha, bestAlpha, lMax =>
    if currAlpha ≤ range.max then
      let L := -currAlpha * logsum - (m : Double K) * E.lnhzeta currAlpha xmin
      let next := currAlpha + range.step
      if lMax < L then gridScan E range logsum m xmin rounds next currAlpha L
      else gridScan E range logsum m xmin rounds next bestAlpha lMax
    else .ok bestAlpha

def gridRounds (range : AlphaRange K) : ℕ :=
  match range.min, range.max, range.step with
  | .fin a, .fin b, .fin s => ⌊(b - a) / s⌋₊ + 2
  | _, _, _ => 2

def iEstimateAlphaDiscreteLinearScan (E : Environment K) (xs : List (Double K))
    (xmin : Double K) (options : DiscreteOptions K) (sorted : Bool) :
    Exec (Except Failure (Double K)) :=
  match xminCheckOne xmin with
  | .error f => .ok (.error f)
  | .ok () =>
    match alphaRangeCheck options.alpha with
    | .error f => .ok (.error f)
    | .ok () => do
      let (logsum, m) := discreteTailSums xs xmin sorted
      let alpha ← gridScan E options.alpha logsum m xmin (gridRounds options.alpha)
        options.alpha.min options.alpha.min (-dblMax)
      return .ok alpha

structure LbfgsData (K : Type) where
  m : ℕ
  logsum : Double K
  xmin : Double K

def isNan : Double K → Bool
  | .nan => true
  | _ => false

/-- `plfit_i_estimate_alpha_discrete_lbfgs_evaluate`: the objective and its gradient. -/
def lbfgsEvaluate (E : Environment K) (data : LbfgsData K) (x step : Double K) :
    Double K × Double K :=
  let huge : Double K := .fin (10 ^ 10)
  let milli : K := 1 / 1000
  let dx : Double K :=
    if .fin milli < step ∨ step == 0 then .fin milli
    else if step < .fin (-milli) then .fin (-milli)
    else step
  if isNan x then (huge, huge)
  else if x ≤ 1 then (huge, if 0 < dx then -huge else huge)
  else if x + dx ≤ 1 then
    (x * data.logsum + (data.m : Double K) * E.lnhzeta x data.xmin, huge)
  else
    let (lnhzetaX, lnhzetaDerivX) := E.lnhzetaDerivTuple x data.xmin
    (x * data.logsum + (data.m : Double K) * lnhzetaX,
      data.logsum + (data.m : Double K) * lnhzetaDerivX)

/-- The codes below zero that the estimator accepts: `LBFGSERR_ROUNDING_ERROR`,
`LBFGSERR_MAXIMUMLINESEARCH`, `LBFGSERR_MINIMUMSTEP` and `LBFGSERR_CANCELED`. -/
def lbfgsAccepted : List ℤ := [-1001, -998, -1000, -1021]

def iEstimateAlphaDiscreteLbfgs (E : Environment K) (xs : List (Double K)) (xmin : Double K)
    (sorted : Bool) : Except Failure (Double K) := do
  xminCheckOne xmin
  let (logsum, m) := discreteTailSums xs xmin sorted
  let data : LbfgsData K := { m := m, logsum := logsum, xmin := xmin }
  let (ret, x) := E.lbfgs (lbfgsEvaluate E data) 3
  if ret < 0 ∧ ret ∉ lbfgsAccepted then
    .error { reason := s!"L-BFGS optimization signaled an error (error code = {ret})",
             errno := .failure }
  else .ok x

def iEstimateAlphaDiscreteFast (xs : List (Double K)) (xmin : Double K) (sorted : Bool) :
    Except Failure (Double K) := do
  xminCheckOne xmin
  if sorted then iEstimateAlphaContinuousSorted xs (xmin - .fin (1 / 2))
  else iEstimateAlphaContinuous xs (xmin - .fin (1 / 2))

def iEstimateAlphaDiscrete (E : Environment K) (xs : List (Double K)) (xmin : Double K)
    (options : DiscreteOptions K) (sorted : Bool) : Exec (Except Failure (Double K)) :=
  match options.alphaMethod with
  | .lbfgs => .ok (iEstimateAlphaDiscreteLbfgs E xs xmin sorted)
  | .linearScan => iEstimateAlphaDiscreteLinearScan E xs xmin options sorted
  | .pretendContinuous => .ok (iEstimateAlphaDiscreteFast xs xmin sorted)

/-- `plfit_i_ks_test_discrete`; the inner loop walks to the end of a block. -/
def iKsTestDiscrete (E : Environment K) (xs : List (Double K)) (alpha xmin : Double K) :
    Double K :=
  let n : Double K := xs.length
  let lnhzeta := E.lnhzeta alpha xmin
  let rec loop (xs : List (Double K)) (m : ℕ) (result : Double K) : Double K :=
    match xs with
    | [] => result
    | x :: rest =>
      let d := Double.fabs
        (MathLibrary.expm1 (E.lnhzeta alpha x - lnhzeta) + (m : Double K) / n)
      let block := rest.takeWhile (fun y => y == x)
      loop (rest.drop block.length) (m + 1 + block.length) (if result < d then d else result)
  termination_by xs.length
  decreasing_by simp only [List.length_drop, List.length_cons]; omega
  loop xs 0 0

def logLikelihoodDiscrete (E : Environment K) (xs : List (Double K)) (alpha xmin : Double K) :
    Except Failure (Double K) := do
  if alpha ≤ 1 then
    .error { reason := "alpha must be greater than one", errno := .einval }
  else do
    xminCheckOne xmin
    let (logsum, m) := iLogsumLessThanDiscrete xs xmin
    .ok (-alpha * logsum - (m : Double K) * E.lnhzeta alpha xmin)

/-- The checks of the input at the start of both discrete fits. -/
def discreteInputCheck (xs : List (Double K)) (options : DiscreteOptions K) :
    Except Failure Unit :=
  if xs.length ≤ 0 then .error { reason := "no data points", errno := .einval }
  else if options.alphaMethod = .linearScan then alphaRangeCheck options.alpha
  else .ok ()

/-- `plfit_estimate_alpha_discrete` -/
def estimateAlphaDiscreteWith (E : Environment K) (pValue : PValueCalculation K)
    (options : DiscreteOptions K) (xs : List (Double K)) (xmin : Double K)
    (result : PlfitResult K) (rng : Rng) : Exec (Outcome K) :=
  match discreteInputCheck xs options with
  | .error f => .ok { failure := some f, result := result, rng := rng }
  | .ok () => do
    let tail := (iCopyAndSort xs).dropWhile (fun x => x < xmin)
    match ← iEstimateAlphaDiscrete E tail xmin options true with
    | .error f => return { failure := some f, result := result, rng := rng }
    | .ok alpha =>
      let result :=
        { result with alpha := alpha, D := iKsTestDiscrete E tail alpha xmin, xmin := xmin }
      let result :=
        if options.finiteSizeCorrection then iPerformFiniteSizeCorrection result tail.length
        else result
      match logLikelihoodDiscrete E tail result.alpha result.xmin with
      | .error f => return { failure := some f, result := result, rng := rng }
      | .ok L => pValue xs true { result with L := L } rng

end Estimation

/-! ## The search over the candidates -/

section Pointers
variable {K : Type} [LinearOrder K]

/-- `while (px < stop && p(*px)) px++` -/
def advanceWhile (p : Double K → Bool) (xs : List (Double K)) (stop px : ℕ) : ℕ :=
  if px < stop ∧ (xs[px]?).any p then advanceWhile p xs stop (px + 1) else px
termination_by stop - px

/-- `while (end_xmin > px && *end_xmin == prev_x) end_xmin--` -/
def retreatBlock (prevX : Double K) (xs : List (Double K)) (px : ℕ) : ℕ → ℕ
  | 0 => 0
  | e + 1 =>
    if px < e + 1 ∧ (xs[e + 1]?).any (fun x => x == prevX) then retreatBlock prevX xs px e
    else e + 1

/-- The bound of the candidates: back over two blocks of equal values, then one forward. -/
def candidateBound (xs : List (Double K)) (px : ℕ) : Exec ℕ := do
  let endXmin := xs.length - 1
  let endXmin := retreatBlock (← deref xs endXmin) xs px endXmin
  let endXmin := retreatBlock (← deref xs endXmin) xs px endXmin
  return endXmin + 1

/-- `while (px < end_xmin && *px == prev_x) { px++; m++; }` -/
def skipDuplicates (xs : List (Double K)) (stop : ℕ) (prevX : Double K) (px m : ℕ) : ℕ × ℕ :=
  if px < stop ∧ (xs[px]?).any (fun x => x == prevX) then
    skipDuplicates xs stop prevX (px + 1) (m + 1)
  else (px, m)
termination_by stop - px

theorem le_skipDuplicates_fst (xs : List (Double K)) (stop : ℕ) (prevX : Double K) (px m : ℕ) :
    px ≤ (skipDuplicates xs stop prevX px m).1 := by
  fun_induction skipDuplicates xs stop prevX px m with
  | case1 px m h ih => omega
  | case2 px m h => exact le_rfl

end Pointers

/-- The local variables of the main loop of `plfit_discrete`. The list `evaluated` is a
history variable: it collects the positions of the candidates in the order they are
evaluated. -/
structure DiscreteScan (K : Type) where
  px : ℕ
  m : ℕ
  prevX : Double K
  best : BestFit K
  evaluated : List ℕ

section Search
variable {K : Type} [Field K] [LinearOrder K] [FloorRing K] [MathLibrary K]

/-- The evaluation of one candidate at `px` and its comparison with the best one. -/
def evaluateCandidate (E : Environment K) (options : DiscreteOptions K) (xs : List (Double K))
    (st : DiscreteScan K) : Exec (Except Failure (DiscreteScan K)) := do
  let x ← deref xs st.px
  let tail := (xs.drop st.px).take (xs.length - st.m)
  match ← iEstimateAlphaDiscrete E tail x options true with
  | .error f => return .error f
  | .ok currAlpha =>
    let currD := iKsTestDiscrete E (xs.drop st.px) currAlpha x
    let best : BestFit K :=
      if currD < st.best.result.D then
        { result := { st.best.result with alpha := currAlpha, xmin := x, D := currD }
          n := sizeSub xs.length st.m }
      else st.best
    return .ok { st with prevX := x, best := best, evaluated := st.evaluated ++ [st.px] }

/-- The main loop of `plfit_discrete`. After the duplicates of the previous candidate have
been skipped a candidate is evaluated without another look at the bound. -/
def discreteLoop (E : Environment K) (options : DiscreteOptions K) (xs : List (Double K))
    (endXmin : ℕ) (st : DiscreteScan K) : Exec (Except Failure (DiscreteScan K)) :=
  if _h : st.px < endXmin then
    let skip := skipDuplicates xs endXmin st.prevX st.px st.m
    match evaluateCandidate E options xs { st with px := skip.1, m := skip.2 } with
    | .error e => .error e
    | .ok (.error f) => .ok (.error f)
    | .ok (.ok next) =>
      discreteLoop E options xs endXmin { next with px := skip.1 + 1, m := skip.2 + 1 }
  else .ok (.ok st)
termination_by endXmin - st.px
decreasing_by
  have := le_skipDuplicates_fst xs endXmin st.prevX st.px st.m
  omega

/-- The best result before any candidate has been evaluated. -/
def discreteBest (E : Environment K) : BestFit K :=
  { result := { E.bestResult with D := dblMax, xmin := 1, alpha := 1 }, n := 0 }

/-- `plfit_discrete` up to the end of its search, on the sorted copy. -/
def discreteSearch (E : Environment K) (options : DiscreteOptions K) (xs : List (Double K)) :
    Exec (Except Failure (DiscreteScan K)) := do
  let px := advanceWhile (fun x => x < 1) xs xs.length 0
  let endXmin ← candidateBound xs px
  discreteLoop E options xs endXmin
    { px := px, m := px, prevX := 0, best := discreteBest E, evaluated := [] }

/-- `plfit_discrete` -/
def discreteWith (E : Environment K) (pValue : PValueCalculation K) (options : DiscreteOptions K)
    (xs : List (Double K)) (result : PlfitResult K) (rng : Rng) : Exec (Outcome K) :=
  match discreteInputCheck xs options with
  | .error f => .ok { failure := some f, result := result, rng := rng }
  | .ok () => do
    let sorted := iCopyAndSort xs
    match ← discreteSearch E options sorted with
    | .error f => return { failure := some f, result := result, rng := rng }
    | .ok search =>
      let best := search.best
      let result :=
        if options.finiteSizeCorrection then iPerformFiniteSizeCorrection best.result best.n
        else best.result
      let window ← tailWindow sorted best.n
      match logLikelihoodDiscrete E window result.alpha result.xmin with
      | .error f => return { failure := some f, result := result, rng := rng }
      | .ok L => pValue sorted false { result with L := L } rng

end Search
end Plfit
