import Mathlib
import Plfit.Model.Sampling
import Plfit.Model.Discrete

/-! # Synthetic data and p-values

Resampling from the head of the data and the fitted tail, the three methods for the p-value,
and the public fitting functions, which end with one of them. The exact method refits every
synthetic data set with the p-value skipped and keeps one result record for all refits.
-/
namespace Plfit
open ExactArithmetic

section Resampling
variable {K : Type} [Field K] [LinearOrder K] [FloorRing K] [MathLibrary K]

/-- The index `(size_t) plfit_runif(0, num_smaller, rng)`. -/
def headIndex (K : Type) [Field K] [LinearOrder K] [FloorRing K] (numSmaller : ℕ) (rng : Rng) :
    Exec (ℕ × Rng) := do
  let (u, rng) := (runif 0 (numSmaller : Double K) rng : Double K × Rng)
  let i ← convert (Double.toUnsigned 64 u)
  return (i, rng)

def drawHead (xsHead : List (Double K)) (numSmaller : ℕ) : ℕ → Rng → Exec (List (Double K) × Rng)
  | 0, rng => .ok ([], rng)
  | k + 1, rng => do
    let (i, rng) ← headIndex K numSmaller rng
    let x ← deref xsHead i
    let (xs, rng) ← drawHead xsHead numSmaller k rng
    return (x :: xs, rng)

def numOrigSamples (E : Environment K) (numSmaller n numSamples : ℕ) (rng : Rng) : ℕ × Rng :=
  E.rbinom numSamples ((numSmaller : Double K) / (n : Double K)) rng

/-- `plfit_i_resample_continuous`; the list holds what is written to the result. -/
def iResampleContinuous (E : Environment K) (xsHead : List (Double K)) (numSmaller n : ℕ)
    (alpha xmin : Double K) (numSamples : ℕ) (rng : Rng) :
    Exec (Status × List (Double K) × Rng) := do
  let (k, rng) := numOrigSamples E numSmaller n numSamples rng
  let (head, rng) ← drawHead xsHead numSmaller k rng
  let (status, tail, rng) := rparetoArray xmin (alpha - 1) (sizeSub numSamples k) rng
  return (status, head ++ tail, rng)

def iResampleDiscrete (E : Environment K) (xsHead : List (Double K)) (numSmaller n : ℕ)
    (alpha xmin : Double K) (numSamples : ℕ) (rng : Rng) :
    Exec (Status × List (Double K) × Rng) := do
  let (k, rng) := numOrigSamples E numSmaller n numSamples rng
  let (head, rng) ← drawHead xsHead numSmaller k rng
  let x ← convert (Double.toSigned 64 xmin)
  let (status, tail, rng) ← rzetaArray E x alpha (sizeSub numSamples k) rng
  return (status, head ++ tail, rng)

def resampleContinuous (E : Environment K) (xs : List (Double K)) (alpha xmin : Double K)
    (numSamples : ℕ) (rng : Rng) : Exec (Status × List (Double K) × Rng) :=
  let (xsHead, numSmaller) := extractSmaller xs xmin
  iResampleContinuous E xsHead numSmaller xs.length alpha xmin numSamples rng

def resampleDiscrete (E : Environment K) (xs : List (Double K)) (alpha xmin : Double K)
    (numSamples : ℕ) (rng : Rng) : Exec (Status × List (Double K) × Rng) :=
  let (xsHead, numSmaller) := extractSmaller xs xmin
  iResampleDiscrete E xsHead numSmaller xs.length alpha xmin numSamples rng

end Resampling

/-! ## The Kolmogorov distribution -/

section Kolmogorov
variable {K : Type} [Field K] [LinearOrder K] [FloorRing K] [MathLibrary K]

/-- The array `r` of `plfit_kolmogorov`, filled up to `maxj`. -/
def kolmogorovTerms (v : Double K) : ℕ → List (Double K) → Exec (List (Double K))
  | 0, r => .ok r
  | j + 1, r => do
    let r ← kolmogorovTerms v j r
    let f ← deref [-2, -8, -18, -32] j
    if j < r.length then return r.set j (MathLibrary.exp (f * v)) else .error .outOfBounds

def kolmogorov (z : Double K) : Exec (Double K) :=
  let w : Double K := .fin (250662827 / 10 ^ 8)
  let c1 : Double K := .fin (-12337005501361697 / 10 ^ 16)
  let c2 : Double K := .fin (-11103304951225528 / 10 ^ 15)
  let c3 : Double K := .fin (-30842513753404244 / 10 ^ 15)
  let u := Double.fabs z
  if u < .fin (2 / 10) then .ok 1
  else if u < .fin (755 / 1000) then
    let v := 1 / (u * u)
    .ok (1 - w * (MathLibrary.exp (c1 * v) + MathLibrary.exp (c2 * v) +
      MathLibrary.exp (c3 * v)) / u)
  else if u < .fin (68116 / 10000) then do
    let maxj ← convert (Double.toSigned 64 (3 / u + .fin (1 / 2)))
    let maxj := if maxj < 1 then 1 else maxj
    let r ← kolmogorovTerms (u * u) maxj.toNat [0, 0, 0, 0]
    return 2 * ((← deref r 0) - (← deref r 1) + (← deref r 2) - (← deref r 3))
  else .ok 0

def ksTestOneSampleP (d : Double K) (n : ℕ) : Exec (Double K) :=
  kolmogorov (d * MathLibrary.sqrt (n : Double K))

end Kolmogorov

/-! ## p-values -/

section PValue
variable {K : Type} [Field K] [LinearOrder K] [FloorRing K] [MathLibrary K]

def skipPValue : PValueCalculation K := fun _ _ result rng =>
  .ok { failure := none, result := { result with p := .nan }, rng := rng }

def approximatePValue : PValueCalculation K := fun xs _ result rng => do
  let numSmaller := countSmaller xs result.xmin
  let p ← ksTestOneSampleP result.D (sizeSub xs.length numSmaller)
  return { failure := none, result := { result with p := p }, rng := rng }

def numTrials (precision : Double K) : Exec ℤ :=
  convert (Double.toSigned 64 (.fin (1 / 4) / precision / precision))

/-- Drawing a synthetic data set into the array `ys` of the caller. -/
abbrev Resampler (K : Type) := Rng → Exec (Status × List (Double K) × Rng)

/-- Refitting a synthetic data set into the result record of the caller. -/
abbrev Refit (K : Type) := List (Double K) → PlfitResult K → Exec (Outcome K)

/-- The samples are written over the front of `ys`. -/
def overwrite (written ys : List (Double K)) : Exec (List (Double K)) :=
  if written.length ≤ ys.length then .ok (written ++ ys.drop written.length)
  else .error .outOfBounds

/-- The loop over the trials: neither the status of the resampling nor that of the refit is
looked at. -/
def trialLoop (resample : Resampler K) (refit : Refit K) (D : Double K) :
    ℕ → List (Double K) → PlfitResult K → Rng → Exec (ℕ × Rng)
  | 0, _, _, rng => .ok (0, rng)
  | k + 1, ys, synthetic, rng => do
    let (_, written, rng) ← resample rng
    let ys ← overwrite written ys
    let out ← refit ys synthetic
    let (successes, rng) ← trialLoop resample refit D k ys out.result rng
    return (if D < out.result.D then successes + 1 else successes, rng)

def exactPValue (E : Environment K) (precision : Double K) (n : ℕ) (resample : Resampler K)
    (refit : Refit K) (result : PlfitResult K) (rng : Rng) : Exec (Outcome K) := do
  let trials ← numTrials precision
  if trials ≤ 0 then
    return { failure := some { reason := "invalid p-value precision", errno := .einval },
             result := result, rng := rng }
  else do
    let ys : List (Double K) := List.replicate n 0
    let (successes, rng) ←
      trialLoop resample refit result.D trials.toNat ys E.syntheticResult rng
    return { failure := none
             result := { result with p := (successes : Double K) / (trials : Double K) }
             rng := rng }

/-- The refit of a continuous synthetic data set. It draws no random numbers. -/
def refitContinuous (E : Environment K) (options : ContinuousOptions K) (xminFixed : Bool)
    (xmin : Double K) (rng : Rng) : Refit K := fun ys synthetic =>
  if xminFixed then estimateAlphaContinuousWith skipPValue options ys xmin synthetic rng
  else continuousWith E skipPValue options ys synthetic rng

def iCalculatePValueContinuous (E : Environment K) (options : ContinuousOptions K) :
    PValueCalculation K := fun xs xminFixed result rng =>
  match options.pValueMethod with
  | .skip => skipPValue xs xminFixed result rng
  | .approximate => approximatePValue xs xminFixed result rng
  | .exact =>
    let (xsHead, numSmaller) := extractSmaller xs result.xmin
    exactPValue E options.pValuePrecision xs.length
      (iResampleContinuous E xsHead numSmaller xs.length result.alpha result.xmin xs.length)
      (refitContinuous E { options with pValueMethod := .skip } xminFixed result.xmin rng)
      result rng

def refitDiscrete (E : Environment K) (options : DiscreteOptions K) (xminFixed : Bool)
    (xmin : Double K) (rng : Rng) : Refit K := fun ys synthetic =>
  if xminFixed then estimateAlphaDiscreteWith E skipPValue options ys xmin synthetic rng
  else discreteWith E skipPValue options ys synthetic rng

def iCalculatePValueDiscrete (E : Environment K) (options : DiscreteOptions K) :
    PValueCalculation K := fun xs xminFixed result rng =>
  match options.pValueMethod with
  | .skip => skipPValue xs xminFixed result rng
  | .approximate => approximatePValue xs xminFixed result rng
  | .exact =>
    let (xsHead, numSmaller) := extractSmaller xs result.xmin
    exactPValue E options.pValuePrecision xs.length
      (iResampleDiscrete E xsHead numSmaller xs.length result.alpha result.xmin xs.length)
      (refitDiscrete E { options with pValueMethod := .skip } xminFixed result.xmin rng)
      result rng

end PValue

/-! ## The public functions -/

section Public
variable {K : Type} [Field K] [LinearOrder K] [FloorRing K] [MathLibrary K]

/-- `plfit_estimate_alpha_continuous`; a null pointer stands for the default options. -/
def estimateAlphaContinuous (E : Environment K) (options : Option (ContinuousOptions K))
    (xs : List (Double K)) (xmin : Double K) (result : PlfitResult K) (rng : Rng) :
    Exec (Outcome K) :=
  let options := options.getD continuousDefaultOptions
  estimateAlphaContinuousWith (iCalculatePValueContinuous E options) options xs xmin result rng

def continuous (E : Environment K) (options : Option (ContinuousOptions K))
    (xs : List (Double K)) (result : PlfitResult K) (rng : Rng) : Exec (Outcome K) :=
  let options := options.getD continuousDefaultOptions
  continuousWith E (iCalculatePValueContinuous E options) options xs result rng

/-- `plfit_estimate_alpha_discrete`. The p-value is calculated from the data as they came,
not from the sorted copy. -/
def estimateAlphaDiscrete (E : Environment K) (options : Option (DiscreteOptions K))
    (xs : List (Double K)) (xmin : Double K) (result : PlfitResult K) (rng : Rng) :
    Exec (Outcome K) :=
  let options := options.getD discreteDefaultOptions
  estimateAlphaDiscreteWith E (iCalculatePValueDiscrete E options) options xs xmin result rng

def discrete (E : Environment K) (options : Option (DiscreteOptions K)) (xs : List (Double K))
    (result : PlfitResult K) (rng : Rng) : Exec (Outcome K) :=
  let options := options.getD discreteDefaultOptions
  discreteWith E (iCalculatePValueDiscrete E options) options xs result rng

end Public
end Plfit
