import Mathlib
import Plfit.Model.MersenneTwister

/-! # Status codes, records and options

The records of `plfit.h` and `plfit_error.h`, and the ways an execution can stop without
returning: an access outside an array, a conversion to an integer type that cannot hold the
value, or a loop that does not end.
-/
namespace Plfit
open ExactArithmetic

inductive Status
  | success
  | failure
  | einval
  | undrflow
  | overflow
  | enomem
  | emaxiter
  deriving DecidableEq, Repr

/-- An execution that C gives no result. -/
inductive Stop
  | outOfBounds
  | conversion
  | endless
  deriving DecidableEq, Repr

abbrev Exec := Except Stop

/-- What `PLFIT_ERROR` passes on: the reason goes to the error handler, which returns here,
and the code to the caller. -/
structure Failure where
  reason : String
  errno : Status

def deref {α : Type*} (p : List α) (i : ℕ) : Exec α :=
  match p[i]? with
  | some x => .ok x
  | none => .error .outOfBounds

/-- A conversion that is undefined for the value it is given. -/
def convert {α : Type*} : Option α → Exec α
  | some z => .ok z
  | none => .error .conversion

/-- The difference of two `size_t` values wraps around below zero. -/
def sizeSub (a b : ℕ) : ℕ := if b ≤ a then a - b else 2 ^ 64 + a - b

def dblMax {K : Type} [Field K] : Double K := .fin ((((2 ^ 53 - 1) * 2 ^ 971 : ℕ)) : K)

def dblMin {K : Type} [Field K] : K := 1 / ((2 ^ 1022 : ℕ) : K)

structure PlfitResult (K : Type) where
  alpha : Double K
  xmin : Double K
  L : Double K
  D : Double K
  p : Double K

/-- What the fits take as given: the Hurwitz zeta function of `hzeta.c`, the optimizer of
`lbfgs.c`, the binomial generator of `rbinom.c`, the number of rejections a sampling loop is
followed for, and what the uninitialised records of the callers hold. -/
structure Environment (K : Type) where
  lnhzeta : Double K → Double K → Double K
  lnhzetaDerivTuple : Double K → Double K → Double K × Double K
  lbfgs : (Double K → Double K → Double K × Double K) → Double K → ℤ × Double K
  rbinom : ℕ → Double K → Rng → ℕ × Rng
  rejections : ℕ
  lastResult : PlfitResult K
  bestResult : PlfitResult K
  syntheticResult : PlfitResult K

/-- An environment whose functions do nothing and whose records hold zeros. -/
def idleEnvironment {K : Type} [Field K] : Environment K :=
  let zeros : PlfitResult K := { alpha := 0, xmin := 0, L := 0, D := 0, p := 0 }
  { lnhzeta := fun _ _ => 0
    lnhzetaDerivTuple := fun _ _ => (0, 0)
    lbfgs := fun _ start => (0, start)
    rbinom := fun _ _ rng => (0, rng)
    rejections := 0
    lastResult := zeros
    bestResult := zeros
    syntheticResult := zeros }

inductive ContinuousMethod
  | linearOnly
  | stratifiedSampling
  | gssOrLinear
  deriving DecidableEq, Repr

inductive DiscreteMethod
  | lbfgs
  | linearScan
  | pretendContinuous
  deriving DecidableEq, Repr

inductive PValueMethod
  | skip
  | approximate
  | exact
  deriving DecidableEq, Repr

/-- `plfit_continuous_options_t`; the generator it points to is passed separately, since
drawing from it changes it. -/
structure ContinuousOptions (K : Type) where
  finiteSizeCorrection : Bool
  xminMethod : ContinuousMethod
  pValueMethod : PValueMethod
  pValuePrecision : Double K

structure AlphaRange (K : Type) where
  min : Double K
  max : Double K
  step : Double K

/-- `plfit_discrete_options_t`, without the generator. -/
structure DiscreteOptions (K : Type) where
  finiteSizeCorrection : Bool
  alphaMethod : DiscreteMethod
  alpha : AlphaRange K
  pValueMethod : PValueMethod
  pValuePrecision : Double K

/-! The numerals of the sources are at least two by one instance each. -/

instance two_atLeastTwo : Nat.AtLeastTwo 2 := ⟨le_rfl⟩
instance three_atLeastTwo : Nat.AtLeastTwo 3 := ⟨by decide⟩
instance four_atLeastTwo : Nat.AtLeastTwo 4 := ⟨by decide⟩
instance ten_atLeastTwo : Nat.AtLeastTwo 10 := ⟨by decide⟩
instance thousand_atLeastTwo : Nat.AtLeastTwo 1000 := ⟨by decide⟩

section Defaults
variable {K : Type} [Field K]

def continuousDefaultOptions : ContinuousOptions K where
  finiteSizeCorrection := false
  xminMethod := .stratifiedSampling
  pValueMethod := .exact
  pValuePrecision := .fin (1 / 100)

def discreteDefaultOptions : DiscreteOptions K where
  finiteSizeCorrection := false
  alphaMethod := .lbfgs
  alpha := { min := .fin (101 / 100), max := .fin 5, step := .fin (1 / 100) }
  pValueMethod := .exact
  pValuePrecision := .fin (1 / 100)

end Defaults

@[simp] theorem sizeSub_of_le {a b : ℕ} (h : b ≤ a) : sizeSub a b = a - b := if_pos h

theorem dblMax_ne_nan {K : Type} [Field K] : (dblMax : Double K) ≠ .nan := by
  intro h
  cases h

theorem lt_dblMax_of_le_one {K : Type} [Field K] [LinearOrder K] [IsStrictOrderedRing K] {x : K}
    (hx : x ≤ 1) : (.fin x : Double K) < dblMax := by
  have hmax (k : ℕ) : 1 < (2 ^ 53 - 1) * 2 ^ k :=
    Nat.lt_of_lt_of_le (by decide : 1 < 2 ^ 53 - 1)
      (Nat.le_mul_of_pos_right _ (Nat.two_pow_pos k))
  have hcast : (1 : K) < (((2 ^ 53 - 1) * 2 ^ 971 : ℕ) : K) := Nat.one_lt_cast.mpr (hmax _)
  rw [dblMax, Double.fin_lt_fin]
  exact hx.trans_lt hcast

theorem deref_eq_ok {α : Type*} {p : List α} {i : ℕ} {x : α} :
    deref p i = .ok x ↔ p[i]? = some x := by
  unfold deref
  cases p[i]? <;> simp

theorem deref_of_lt {α : Type*} {p : List α} {i : ℕ} (h : i < p.length) :
    deref p i = .ok p[i] := by
  rw [deref_eq_ok, List.getElem?_eq_getElem h]

/-- A sequence of two computations gives a result only through a result of the first. -/
theorem bind_eq_ok {α β : Type} {first : Exec α} {rest : α → Exec β} {b : β} :
    first >>= rest = .ok b ↔ ∃ a, first = .ok a ∧ rest a = .ok b := by
  constructor
  · intro h
    cases first with
    | error stop => cases h
    | ok a => exact ⟨a, rfl, h⟩
  · rintro ⟨a, rfl, h⟩
    exact h

end Plfit
