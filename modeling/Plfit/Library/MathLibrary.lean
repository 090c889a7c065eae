import Mathlib
import Plfit.Library.ExactDouble

/-! # The functions of `math.h` on exact doubles

`MathLibrary K` is what a program may call on doubles over `K`. The instance at the real
numbers is the exact function wherever it is defined, and follows the C standard's rules
for the special values elsewhere.
-/
namespace ExactArithmetic
open Double

/-- The part of `math.h` that is not field arithmetic. -/
class MathLibrary (K : Type*) where
  log : Double K → Double K
  exp : Double K → Double K
  expm1 : Double K → Double K
  sqrt : Double K → Double K
  pow : Double K → Double K → Double K

/-- The functions that C99 adds. -/
class MathLibraryC99 (K : Type*) where
  log1p : Double K → Double K
  exp2 : Double K → Double K

namespace RealMath

noncomputable def log : Double ℝ → Double ℝ
  | fin x => if 0 < x then fin (Real.log x) else if x = 0 then ninf else nan
  | pinf => pinf
  | _ => nan

noncomputable def exp : Double ℝ → Double ℝ
  | fin x => fin (Real.exp x)
  | ninf => fin 0
  | a => a

noncomputable def expm1 : Double ℝ → Double ℝ
  | fin x => fin (Real.exp x - 1)
  | ninf => fin (-1)
  | a => a

noncomputable def sqrt : Double ℝ → Double ℝ
  | fin x => if 0 ≤ x then fin (Real.sqrt x) else nan
  | pinf => pinf
  | _ => nan

/-- The exponent is an odd integer: only then does a power keep the sign of its base. -/
noncomputable def oddInteger (y : ℝ) : Bool :=
  open Classical in decide (∃ k : ℤ, y = 2 * k + 1)

/-- A finite base to an infinite exponent grows, vanishes or stays at one. -/
noncomputable def powInfinite (x : ℝ) (grows : Bool) : Double ℝ :=
  if |x| = 1 then fin 1 else if decide (1 < |x|) = grows then pinf else fin 0

noncomputable def powFinite (x y : ℝ) : Double ℝ :=
  open Classical in
  if x = 0 then if y < 0 then pinf else fin 0
  else if x < 0 ∧ ¬ ∃ k : ℤ, y = k then nan
  else fin (x ^ y)

/-- One to any power and anything to the power zero are one, a NaN included. -/
noncomputable def pow (a b : Double ℝ) : Double ℝ :=
  if a == 1 then 1
  else if b == 0 then 1
  else match a, b with
    | nan, _ => nan
    | _, nan => nan
    | fin x, fin y => powFinite x y
    | fin x, pinf => powInfinite x true
    | fin x, ninf => powInfinite x false
    | pinf, b => if 0 < b then pinf else fin 0
    | ninf, fin y =>
      if 0 < y then if oddInteger y then ninf else pinf else fin 0
    | ninf, pinf => pinf
    | ninf, ninf => fin 0

noncomputable def log1p : Double ℝ → Double ℝ
  | fin x => if -1 < x then fin (Real.log (1 + x)) else if x = -1 then ninf else nan
  | pinf => pinf
  | _ => nan

noncomputable def exp2 : Double ℝ → Double ℝ
  | fin x => fin ((2 : ℕ) ^ x)
  | ninf => fin 0
  | a => a

end RealMath

noncomputable instance : MathLibrary ℝ where
  log := RealMath.log
  exp := RealMath.exp
  expm1 := RealMath.expm1
  sqrt := RealMath.sqrt
  pow := RealMath.pow

noncomputable instance : MathLibraryC99 ℝ where
  log1p := RealMath.log1p
  exp2 := RealMath.exp2

namespace MathLibrary

theorem log_fin {x : ℝ} (hx : 0 < x) : log (fin x) = fin (Real.log x) := by
  change RealMath.log (fin x) = _
  simp [RealMath.log, hx]

@[simp] theorem exp_fin (x : ℝ) : exp (fin x) = fin (Real.exp x) := rfl

@[simp] theorem expm1_fin (x : ℝ) : expm1 (fin x) = fin (Real.exp x - 1) := rfl

theorem pow_fin {x : ℝ} (hx : 0 < x) (y : ℝ) : pow (fin x) (fin y) = fin (x ^ y) := by
  change RealMath.pow (fin x) (fin y) = _
  rcases eq_or_ne x 1 with rfl | h1
  · simp [RealMath.pow]
  · rcases eq_or_ne y 0 with rfl | h0
    · simp [RealMath.pow, h1]
    · simp [RealMath.pow, RealMath.powFinite, h1, h0, hx.ne', hx.not_gt]

theorem pow_one_left (b : Double ℝ) : pow (fin 1) b = fin 1 := by
  change RealMath.pow (fin 1) b = _
  simp [RealMath.pow]

theorem pow_zero_right (a : Double ℝ) : pow a (fin 0) = fin 1 := by
  change RealMath.pow a (fin 0) = _
  simp [RealMath.pow]

theorem pow_nan_right {x : ℝ} (hx : x ≠ 1) : pow (fin x) nan = nan := by
  change RealMath.pow (fin x) nan = _
  have hzero : ((nan : Double ℝ) == fin 0) = false := rfl
  simp [RealMath.pow, hx, hzero]

theorem pow_pinf_right {x : ℝ} (hx : 1 < x) : pow (fin x) pinf = pinf := by
  change RealMath.pow (fin x) pinf = _
  have habs : |x| = x := abs_of_pos (one_pos.trans hx)
  have hzero : ((pinf : Double ℝ) == fin 0) = false := rfl
  simp [RealMath.pow, RealMath.powInfinite, hx, hx.ne', habs, hzero]

theorem pow_ninf_right {x : ℝ} (hx : 1 < x) : pow (fin x) ninf = fin 0 := by
  change RealMath.pow (fin x) ninf = _
  have habs : |x| = x := abs_of_pos (one_pos.trans hx)
  have hzero : ((ninf : Double ℝ) == fin 0) = false := rfl
  simp [RealMath.pow, RealMath.powInfinite, hx, hx.ne', habs, hzero]

theorem pow_zero_left {y : ℝ} (hy : y < 0) : pow (fin 0) (fin y) = pinf := by
  change RealMath.pow (fin 0) (fin y) = _
  simp [RealMath.pow, RealMath.powFinite, hy, hy.ne]

theorem pow_zero_left_of_pos {y : ℝ} (hy : 0 < y) : pow (fin 0) (fin y) = fin 0 := by
  change RealMath.pow (fin 0) (fin y) = _
  simp [RealMath.pow, RealMath.powFinite, hy.ne', hy.not_gt]

theorem pow_nan_left {y : ℝ} (hy : y ≠ 0) : pow nan (fin y) = nan := by
  change RealMath.pow nan (fin y) = _
  have hone : ((nan : Double ℝ) == fin 1) = false := rfl
  simp [RealMath.pow, hy, hone]

theorem sqrt_fin {x : ℝ} (hx : 0 ≤ x) : sqrt (fin x) = fin (Real.sqrt x) := if_pos hx

end MathLibrary

namespace MathLibraryC99

theorem log1p_fin {x : ℝ} (hx : -1 < x) : log1p (fin x) = fin (Real.log (1 + x)) := if_pos hx

@[simp] theorem exp2_fin (x : ℝ) : exp2 (fin x) = fin (2 ^ x) := rfl

end MathLibraryC99
end ExactArithmetic
