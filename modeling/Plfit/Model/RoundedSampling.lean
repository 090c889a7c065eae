import Mathlib
import Plfit.Model.Sampling

/-! # The zeta samplers with rounded operations

`plfit_rzeta` and `plfit_rzeta_array` from their guard to the end of the inner rejection loop. Every
operation on doubles is followed by a rounding, and any source can supply the uniform numbers.
-/
namespace Plfit
open ExactArithmetic

section RoundedZeta
variable {K : Type} [Field K] [LinearOrder K] [FloorRing K]

/-- `xmin = (long int) round(xmin)`, where the double of an integer is an integer. -/
def rzetaStart (rnd : Double K → Double K) (xmin : ℤ) : Exec ℤ :=
  convert (Double.toSigned 64 (rnd (xmin : Double K)))

variable [MathLibrary K]

def rzetaBRounded (rnd : Double K → Double K) (xmin : ℤ) (alpha : Double K) : Double K :=
  rnd (MathLibrary.pow (rnd (1 + rnd (1 / rnd (xmin : Double K)))) (rnd (alpha - 1)))

/-- `pow(1-u, minus_1_over_alpha_minus_1) * xmin` -/
def rzetaProposal (rnd : Double K → Double K) (xmin : ℤ) (alpha u : Double K) : Double K :=
  rnd (rnd (MathLibrary.pow (rnd (1 - u)) (rnd (-1 / rnd (alpha - 1)))) * rnd (xmin : Double K))

/-- The inner loop, followed for a number of rounds: the proposal and the second draw it ends
with, the rounds that are left, and the source. -/
def rzetaInner {G : Type} (runif : G → Double K × G) (rnd : Double K → Double K) (xmin : ℤ)
    (alpha : Double K) : ℕ → G → Exec (ℤ × Double K × ℕ × G)
  | 0, _ => .error .endless
  | rounds + 1, rng => do
    let (u, rng) := runif rng
    let (v, rng) := runif rng
    let x ← convert (Double.toSigned 64 (rzetaProposal rnd xmin alpha u).floor)
    if x < xmin then rzetaInner runif rnd xmin alpha rounds rng
    else .ok (x, v, rounds, rng)

/-- Without rounding it is the inner one of the two loops. -/
theorem rzetaReject_eq_inner (xmin : ℤ) (alpha b oneOverBMinus1 : Double K) (rounds : ℕ)
    (rng : Rng) :
    rzetaReject xmin alpha b oneOverBMinus1 rounds rng =
      (do let (x, v, rest, rng) ← rzetaInner runif01 id xmin alpha rounds rng
          let t := MathLibrary.pow (((x : Double K) + 1) / (x : Double K)) (alpha - 1)
          if t * (xmin : Double K) < v * (x : Double K) * (t - 1) * oneOverBMinus1 * b
          then rzetaReject xmin alpha b oneOverBMinus1 rest rng
          else .ok (x, rng)) := by
  induction rounds generalizing rng with
  | zero => rfl
  | succ rounds ih =>
    rw [rzetaReject, rzetaInner]
    simp only [rzetaProposal, id, bind, Except.bind]
    cases convert (Double.toSigned 64 (MathLibrary.pow (1 - (runif01 rng).1) (-1 / (alpha - 1)) *
        (xmin : Double K)).floor) with
    | error e => rfl
    | ok x =>
      by_cases hx : x < xmin
      · simp only [if_pos hx]
        exact ih _
      · simp only [if_neg hx]

end RoundedZeta
end Plfit
