import Mathlib

/-! # The Hurwitz zeta function on the real numbers

The sum of the powers from a positive number on. It exists for the exponents above one only.
-/
namespace RealHurwitz

noncomputable def hurwitzZeta (alpha x : ℝ) : ℝ := tsum fun k : ℕ => (x + k) ^ (-alpha)

variable {alpha x y : ℝ}

theorem summable_iff (hx : 0 < x) : Summable (fun k : ℕ => (x + k) ^ (-alpha)) ↔ 1 < alpha := by
  rw [← Real.summable_one_div_nat_add_rpow x alpha]
  apply summable_congr
  intro k
  have hpos : (0 : ℝ) < k + x := by positivity
  rw [abs_of_pos hpos, one_div, add_comm x, Real.rpow_neg hpos.le]

theorem hurwitzZeta_pos (ha : 1 < alpha) (hx : 0 < x) : 0 < hurwitzZeta alpha x := by
  apply ((summable_iff hx).mpr ha).tsum_pos _ 0
  · apply Real.rpow_pos_of_pos
    positivity
  · intro k
    positivity

theorem hurwitzZeta_le (ha : 1 < alpha) (hx : 0 < x) (hxy : x ≤ y) :
    hurwitzZeta alpha y ≤ hurwitzZeta alpha x := by
  have hy : 0 < y := hx.trans_le hxy
  apply Summable.tsum_le_tsum _ ((summable_iff hy).mpr ha) ((summable_iff hx).mpr ha)
  intro k
  apply Real.rpow_le_rpow_of_nonpos (by positivity) (by linarith)
  linarith

end RealHurwitz
