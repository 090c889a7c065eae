import Mathlib
import Plfit.Library.MathLibrary
import Plfit.Model.Basic

/-! # Descriptive statistics

The moments of `stats.c` in two passes. The accumulator of the variance is corrected, reported with
one denominator and scaled with another one for the higher moments.
-/
namespace Plfit
open ExactArithmetic

/-- Which of the output pointers are not null. -/
structure MomentsRequest where
  mean : Bool
  variance : Bool
  skewness : Bool
  kurtosis : Bool

/-- What `plfit_moments` writes. The list `divisors` is a history variable: it collects what the
execution divides by. -/
structure Moments (K : Type) where
  mean : Option (Double K)
  variance : Option (Double K)
  skewness : Option (Double K)
  kurtosis : Option (Double K)
  divisors : List (Double K)

/-- `if (pointer != 0) *pointer = x` -/
def storeIf {K : Type} (requested : Bool) (x : Double K) : Option (Double K) :=
  if requested then some x else none

structure MomentSums (K : Type) where
  error : Double K
  variance0 : Double K
  skewness0 : Double K
  kurtosis0 : Double K

section Moments
variable {K : Type} [Field K] [LinearOrder K]

/-- The second pass at one sample. -/
def MomentSums.add (mean0 : Double K) (sums : MomentSums K) (p : Double K) : MomentSums K :=
  let x := p - mean0
  let y := x * x
  { error := sums.error + x
    variance0 := sums.variance0 + y
    skewness0 := sums.skewness0 + y * x
    kurtosis0 := sums.kurtosis0 + y * x * x }

variable [MathLibrary K]

/-- The two passes for at least two samples. -/
def momentsPasses (request : MomentsRequest) (xs : List (Double K)) : Moments K :=
  let n : Double K := xs.length
  let mean0 := xs.foldl (fun sum x => sum + x) 0 / n
  let mean := storeIf request.mean mean0
  if !request.variance && !request.skewness && !request.kurtosis then
    { mean := mean, variance := none, skewness := none, kurtosis := none, divisors := [n] }
  else
    let sums := xs.foldl (MomentSums.add mean0)
      { error := 0, variance0 := 0, skewness0 := 0, kurtosis0 := 0 }
    let corrected := sums.variance0 - sums.error * sums.error / n
    let nMinus1 : Double K := (sizeSub xs.length 1 : ℕ)
    let variance0 := corrected / n
    let skewnessDivisor := n * variance0 * MathLibrary.sqrt variance0
    let kurtosisDivisor := n * variance0 * variance0
    { mean := mean
      variance := storeIf request.variance (corrected / nMinus1)
      skewness := storeIf request.skewness (sums.skewness0 / skewnessDivisor)
      kurtosis := storeIf request.kurtosis (sums.kurtosis0 / kurtosisDivisor)
      divisors := [n, n] ++ (storeIf request.variance nMinus1).toList ++ [n] ++
        (storeIf request.skewness skewnessDivisor).toList ++
        (storeIf request.kurtosis kurtosisDivisor).toList }

def moments (request : MomentsRequest) (xs : List (Double K)) : Status × Moments K :=
  match xs with
  | [] => (.success,
      { mean := storeIf request.mean 0
        variance := storeIf request.variance 0
        skewness := storeIf request.skewness 0
        kurtosis := storeIf request.kurtosis 0
        divisors := [] })
  | [x] => (.success,
      { mean := storeIf request.mean x
        variance := storeIf request.variance 0
        skewness := storeIf request.skewness 0
        kurtosis := storeIf request.kurtosis 0
        divisors := [] })
  | xs => (.success, momentsPasses request xs)

end Moments
end Plfit
