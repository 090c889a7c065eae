import Mathlib
import Plfit.Library.MathLibrary
import Plfit.Model.Arrays
import Plfit.Model.GoldenSection

/-! # Fitting continuous power laws

The continuous half of `plfit.c`. A fit ends with the calculation of the p-value, which may
fit synthetic data sets again, so the fits take that calculation as an argument here.
-/
namespace Plfit
open ExactArithmetic

/-- What a fit leaves behind: the failure it reports, the result record and the generator. -/
structure Outcome (K : Type) where
  failure : Option Failure
  result : PlfitResult K
  rng : Rng

def Outcome.status {K : Type} (o : Outcome K) : Status :=
  match o.failure with
  | none => .success
  | some f => f.errno

/-- The p-value calculation at the end of a fit: the data, whether `xmin` is fixed, and the
fit so far. -/
abbrev PValueCalculation (K : Type) :=
  List (Double K) → Bool → PlfitResult K → Rng → Exec (Outcome K)

section Estimation
variable {K : Type} [Field K] [LinearOrder K] [MathLibrary K]

def iPerformFiniteSizeCorrection (result : PlfitResult K) (n : ℕ) : PlfitResult K :=
  { result with
    alpha := result.alpha * (sizeSub n 1 : Double K) / (n : Double K) + 1 / (n : Double K) }

def iLogsumLessThanContinuous (xs : List (Double K)) (xmin : Double K) : Double K × ℕ :=
  xs.foldl (fun st x =>
    if xmin ≤ x then (st.1 + MathLibrary.log (x / xmin), st.2 + 1) else st) (0, 0)

def iLogsumContinuous (xs : List (Double K)) (xmin : Double K) : Double K :=
  xs.foldl (fun logsum x => logsum + MathLibrary.log (x / xmin)) 0

def xminCheckZero (xmin : Double K) : Except Failure Unit :=
  if xmin ≤ 0 then .error { reason := "xmin must be greater than zero", errno := .einval }
  else .ok ()

def iEstimateAlphaContinuous (xs : List (Double K)) (xmin : Double K) :
    Except Failure (Double K) := do
  xminCheckZero xmin
  let (logsum, m) := iLogsumLessThanContinuous xs xmin
  if m = 0 then
    .error { reason := "no data point was larger than xmin", errno := .einval }
  else .ok (1 + (m : Double K) / logsum)

def iEstimateAlphaContinuousSorted (xs : List (Double K)) (xmin : Double K) :
    Except Failure (Double K) := do
  xminCheckZero xmin
  let tail := xs.dropWhile (fun x => x < xmin)
  if tail = [] then
    .error { reason := "no data point was larger than xmin", errno := .einval }
  else .ok (1 + (tail.length : Double K) / iLogsumContinuous tail xmin)

def iKsTestContinuous (xs : List (Double K)) (alpha xmin : Double K) : Double K :=
  let n : Double K := xs.length
  (xs.foldl (fun (st : Double K × ℕ) x =>
    let d := Double.fabs
      (1 - MathLibrary.pow (xmin / x) (alpha - 1) - (st.2 : Double K) / n)
    (if st.1 < d then d else st.1, st.2 + 1)) (0, 0)).1

def logLikelihoodContinuous (xs : List (Double K)) (alpha xmin : Double K) :
    Except Failure (Double K) := do
  if alpha ≤ 1 then
    .error { reason := "alpha must be greater than one", errno := .einval }
  else do
    xminCheckZero xmin
    let c := (alpha - 1) / xmin
    let (logsum, m) := iLogsumLessThanContinuous xs xmin
    .ok (-alpha * logsum + MathLibrary.log c * (m : Double K))

def estimateAlphaContinuousSorted (pValue : PValueCalculation K) (options : ContinuousOptions K)
    (xs : List (Double K)) (xmin : Double K) (result : PlfitResult K) (rng : Rng) :
    Exec (Outcome K) :=
  let tail := xs.dropWhile (fun x => x < xmin)
  match iEstimateAlphaContinuousSorted tail xmin with
  | .error f => .ok { failure := some f, result := result, rng := rng }
  | .ok alpha =>
    let result := { result with alpha := alpha, D := iKsTestContinuous tail alpha xmin }
    let result :=
      if options.finiteSizeCorrection then iPerformFiniteSizeCorrection result tail.length
      else result
    let result := { result with xmin := xmin }
    match logLikelihoodContinuous tail result.alpha result.xmin with
    | .error f => .ok { failure := some f, result := result, rng := rng }
    | .ok L => pValue xs true { result with L := L } rng

/-- `plfit_estimate_alpha_continuous` -/
def estimateAlphaContinuousWith (pValue : PValueCalculation K) (options : ContinuousOptions K)
    (xs : List (Double K)) (xmin : Double K) (result : PlfitResult K) (rng : Rng) :
    Exec (Outcome K) :=
  estimateAlphaContinuousSorted pValue options (iCopyAndSort xs) xmin result rng

end Estimation

/-! ## The search for `xmin` -/

/-- `plfit_continuous_xmin_opt_data_t`. The list `evaluated` is a history variable: it
collects the positions of the probes that are evaluated. -/
structure XminOptData (K : Type) where
  xs : List (Double K)
  probes : List (Option ℕ)
  numProbes : ℕ
  last : PlfitResult K
  evaluated : List ℕ

structure BestFit (K : Type) where
  result : PlfitResult K
  n : ℕ

/-- An evaluation of the `x`-th probe updates the data it works on. -/
abbrev XminEvaluate (K : Type) := XminOptData K → ℕ → Exec (XminOptData K)

section Scan
variable {K : Type} [Field K] [LinearOrder K]

/-- `plfit_i_continuous_xmin_opt_evaluate`; a failed estimation leaves the last exponent. -/
def iContinuousXminOptEvaluate [MathLibrary K] : XminEvaluate K := fun data x => do
  let begin ← derefPointer data.probes x
  let xmin ← deref data.xs begin
  let tail := data.xs.drop begin
  let last := { data.last with xmin := xmin }
  let last :=
    match iEstimateAlphaContinuousSorted tail xmin with
    | .ok alpha => { last with alpha := alpha }
    | .error _ => last
  let last := { last with D := iKsTestContinuous tail last.alpha xmin }
  return { data with last := last, evaluated := data.evaluated ++ [begin] }

/-- The private best result a thread starts from. -/
def localBest : BestFit K :=
  { result := { alpha := 0, xmin := 0, L := .nan, D := dblMax, p := .nan }, n := 0 }

/-- The shared best result before any thread has finished. -/
def globalBest (E : Environment K) : BestFit K :=
  { result := { E.bestResult with D := dblMax, xmin := 0, alpha := 0 }, n := 0 }

def scanStep (evaluate : XminEvaluate K) (st : XminOptData K × BestFit K) (i : ℕ) :
    Exec (XminOptData K × BestFit K) := do
  let data ← evaluate st.1 i
  if data.last.D < st.2.result.D then do
    let probe ← derefPointer data.probes i
    return (data, { result := data.last, n := data.xs.length - probe })
  else return (data, st.2)

/-- The iterations given to one thread, on its own copy of the data. -/
def scanChunks (evaluate : XminEvaluate K) (data : XminOptData K) (indexes : List ℕ) :
    Exec (XminOptData K × BestFit K) :=
  indexes.foldlM (scanStep evaluate) (data, localBest)

def enterCritical (best thread : BestFit K) : BestFit K :=
  if thread.result.D < best.result.D then thread else best

/-- `plfit_i_continuous_xmin_opt_linear_scan` in the sequential build, with the history of
its evaluations. -/
def iContinuousXminOptLinearScan (E : Environment K) (evaluate : XminEvaluate K)
    (data : XminOptData K) : Exec (BestFit K × List ℕ) := do
  let (data, thread) ← scanChunks evaluate data (List.range (sizeSub data.numProbes 1))
  return (enterCritical (globalBest E) thread, data.evaluated)

/-- The iterations of a thread when chunks of ten consecutive ones are dealt out. -/
def threadIndexes {T : Type} [DecidableEq T] (owner : ℕ → T) (n : ℕ) (thread : T) : List ℕ :=
  (List.range n).filter (fun i => owner (i / 10) = thread)

/-- The parallel build: a chunk is executed by its owner, and the threads enter the critical
section in the given order. -/
def iContinuousXminOptParallelScan {T : Type} [DecidableEq T] (E : Environment K)
    (evaluate : XminEvaluate K) (data : XminOptData K) (owner : ℕ → T) (order : List T) :
    Exec (BestFit K) :=
  order.foldlM (fun best thread => do
    let (_, found) ← scanChunks evaluate data
      (threadIndexes owner (sizeSub data.numProbes 1) thread)
    return enterCritical best found) (globalBest E)

/-- What the search for `xmin` ends with, and the record that it leaves in its data. -/
structure XminSearch (K : Type) where
  success : Bool
  best : BestFit K
  evaluated : List ℕ
  last : PlfitResult K

/-- `PLFIT_GSS_OR_LINEAR` when there are enough distinct values. -/
def gssSearch [FloorRing K] (evaluate : XminEvaluate K) (data : XminOptData K)
    (best : BestFit K) : Exec (XminSearch K) := do
  let evaluateAt : GssEvaluate (XminOptData K) K := fun data x => do
    let i ← convert (Double.toSigned 64 (.fin x))
    let data ← evaluate data i.toNat
    return (data, data.last.D)
  let progress : GssProgress (XminOptData K) K := fun _ _ _ _ _ left right _ => do
    let l ← convert (Double.toSigned 32 (.fin left))
    let r ← convert (Double.toSigned 32 (.fin right))
    return decide (l = r)
  let out ← gss evaluateAt (some progress) gssDefaultParameter 0
    (sizeSub data.numProbes 5 : K) data
  match out.status, out.min with
  | .success, some x => do
    let i ← convert (Double.toSigned 32 (.fin x))
    let px ← derefPointer out.data.probes i.toNat
    return { success := true
             best := { result := out.data.last, n := data.xs.length - px + 1 }
             evaluated := out.data.evaluated
             last := out.data.last }
  | _, _ => return { success := false, best := best, evaluated := out.data.evaluated,
                     last := out.data.last }

def subdivisionLength : ℕ := 10

/-- The position of the stratum whose value is the `xmin` of the coarse scan. -/
def findStratum (xs : List (Double K)) (strata : List (Option ℕ)) (xmin : Double K) :
    List ℕ → Exec (Option ℕ)
  | [] => .ok none
  | i :: is => do
    let stratum ← derefPointer strata i
    let x ← deref xs stratum
    if x == xmin then return some i else findStratum xs strata xmin is

/-- The offset and the number of the probes around the winning stratum. -/
def strataWindow (numStrata i : ℕ) : ℕ × ℕ :=
  (if 0 < i then (i - 1) * subdivisionLength else 0,
    (if i ≠ 0 then subdivisionLength else 0) +
      (if i ≠ numStrata - 1 then subdivisionLength else 0))

/-- `PLFIT_STRATIFIED_SAMPLING` when there are enough distinct values. -/
def stratifiedSearch (E : Environment K) (evaluate : XminEvaluate K) (xs : List (Double K))
    (uniques : List (Option ℕ)) (numUniques : ℕ) : Exec (XminSearch K) := do
  let numStrata := numUniques / subdivisionLength
  let strata ← (List.range numStrata).mapM (fun i => deref uniques (i * subdivisionLength))
  let data : XminOptData K :=
    { xs := xs, probes := strata, numProbes := numStrata, last := E.lastResult, evaluated := [] }
  let (coarse, seen) ← iContinuousXminOptLinearScan E evaluate data
  match ← findStratum xs strata coarse.result.xmin (List.range numStrata) with
  | none => return { success := false, best := coarse, evaluated := seen, last := data.last }
  | some i => do
    let (offset, count) := strataWindow numStrata i
    if 0 < count then do
      let (fine, seen) ← iContinuousXminOptLinearScan E evaluate
        { data with probes := uniques.drop offset, numProbes := count, evaluated := seen }
      return { success := true, best := fine, evaluated := seen, last := data.last }
    else return { success := false, best := coarse, evaluated := seen, last := data.last }

/-- The search of `plfit_continuous` with its fallback to a linear scan. -/
def xminSearch [FloorRing K] (E : Environment K) (evaluate : XminEvaluate K)
    (method : ContinuousMethod) (xs : List (Double K)) (uniques : List (Option ℕ))
    (numUniques : ℕ) : Exec (XminSearch K) := do
  let unset : PlfitResult K := { alpha := .nan, xmin := .nan, L := .nan, D := .nan, p := .nan }
  let start : XminSearch K :=
    { success := false, best := { result := unset, n := xs.length }, evaluated := [],
      last := E.lastResult }
  let data : XminOptData K :=
    { xs := xs, probes := uniques, numProbes := numUniques, last := E.lastResult,
      evaluated := [] }
  let search ←
    match method with
    | .gssOrLinear =>
      if 5 < numUniques then gssSearch evaluate data start.best else pure start
    | .stratifiedSampling =>
      if 50 ≤ numUniques then stratifiedSearch E evaluate xs uniques numUniques else pure start
    | .linearOnly => pure start
  if search.success then return search
  else do
    let (best, seen) ← iContinuousXminOptLinearScan E evaluate
      { data with last := search.last, evaluated := search.evaluated }
    return { success := true, best := best, evaluated := seen, last := search.last }

/-- `plfit_continuous` up to the end of its search, on a sorted copy. -/
def continuousSearch [FloorRing K] (E : Environment K) (evaluate : XminEvaluate K)
    (method : ContinuousMethod) (xs : List (Double K)) : Exec (XminSearch K) := do
  let sorted := iCopyAndSort xs
  let (uniques, numUniques) ← uniqueElementPointers sorted
  xminSearch E evaluate method sorted uniques numUniques

end Scan

section Fit
variable {K : Type} [Field K] [LinearOrder K] [FloorRing K] [MathLibrary K]

/-- `plfit_continuous` after the search. -/
def finishContinuous (pValue : PValueCalculation K) (options : ContinuousOptions K)
    (xs : List (Double K)) (best : BestFit K) (rng : Rng) : Exec (Outcome K) := do
  let result :=
    if options.finiteSizeCorrection then iPerformFiniteSizeCorrection best.result best.n
    else best.result
  let window ← tailWindow xs best.n
  match logLikelihoodContinuous window result.alpha result.xmin with
  | .error f => return { failure := some f, result := result, rng := rng }
  | .ok L => pValue xs false { result with L := L } rng

/-- `plfit_continuous` -/
def continuousWith (E : Environment K) (pValue : PValueCalculation K)
    (options : ContinuousOptions K) (xs : List (Double K)) (result : PlfitResult K)
    (rng : Rng) : Exec (Outcome K) :=
  if xs.length ≤ 0 then
    .ok { failure := some { reason := "no data points", errno := .einval }, result := result,
          rng := rng }
  else do
    let search ← continuousSearch E iContinuousXminOptEvaluate options.xminMethod xs
    finishContinuous pValue options (iCopyAndSort xs) search.best rng

end Fit
end Plfit
