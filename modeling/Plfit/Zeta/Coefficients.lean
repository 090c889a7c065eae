import Mathlib
import Plfit.Library.ZetaExpansion
import Plfit.Model.Hzeta

/-! # The tables of `hzeta.c`

The recurrence of the Bernoulli numbers gives the exact coefficients. The first table rounds
them, the second one is far above the coefficient that follows, and the corrections are small
against the leading terms.
-/
namespace Plfit
open ExactArithmetic EulerMaclaurin RealHurwitz

def tableCoeff (j : ℕ) : ℚ := eulermaclaurinSeriesCoeffs.getD j 0

def tableMajorant (j : ℕ) : ℚ := eulermaclaurinSeriesMajorantratios.getD j 0

theorem tableEntry_of_lt {table : List ℚ} {j : ℕ} (hj : j < table.length) :
    (tableEntry table j : Double ℝ) = .fin (table.getD j 0 : ℚ) := by
  rw [tableEntry, List.getElem?_eq_getElem hj, List.getD_eq_getElem _ _ hj]

theorem tableEntry_coeffs {j : ℕ} (hj : j ≤ 32) :
    (tableEntry eulermaclaurinSeriesCoeffs j : Double ℝ) = .fin (tableCoeff j) :=
  tableEntry_of_lt (Nat.lt_succ_of_le hj)

theorem tableEntry_majorantratios {j : ℕ} (hj : j ≤ 32) :
    (tableEntry eulermaclaurinSeriesMajorantratios j : Double ℝ) = .fin (tableMajorant j) :=
  tableEntry_of_lt (Nat.lt_succ_of_le hj)

/-- The exact coefficients of the corrections up to one past the tables. -/
theorem firstCoeffs_getD {i : ℕ} (hi : i < 33) : (firstCoeffs 33).getD i 0 = coeffRat i := by
  rw [firstCoeffs_eq, List.getD_eq_getElem _ _ (by simpa using hi), List.getElem_map,
    List.getElem_range]

theorem coeffs_checked : ∀ i ∈ List.range 32,
    |tableCoeff (i + 1) - (firstCoeffs 33).getD i 0| * 10 ^ 28 ≤ |(firstCoeffs 33).getD i 0| := by
  decide +kernel

theorem majorantratios_checked : ∀ i ∈ List.range 32,
    78 * |(firstCoeffs 33).getD (i + 1) 0| ≤ tableMajorant (i + 1) := by
  decide +kernel

/-- Every entry of the first table is its coefficient, rounded. -/
theorem tableCoeff_close {i : ℕ} (hi : i < 32) :
    |(tableCoeff (i + 1) : ℝ) - coeff (i + 1)| ≤ |coeff (i + 1)| / 10 ^ 28 := by
  have h := coeffs_checked i (List.mem_range.mpr hi)
  rw [firstCoeffs_getD (hi.trans (Nat.lt_succ_self 32))] at h
  rw [coeff_succ, le_div_iff₀ (by positivity)]
  exact_mod_cast h

/-- Every entry of the second table covers the next coefficient. -/
theorem tableMajorant_covers {i : ℕ} (hi : i < 32) :
    78 * |coeff (i + 2)| ≤ tableMajorant (i + 1) := by
  have h := majorantratios_checked i (List.mem_range.mpr hi)
  rw [firstCoeffs_getD (Nat.succ_lt_succ hi)] at h
  rw [coeff_succ]
  exact_mod_cast h

/-- What a correction is at most, relative to the term of the series ten steps before. -/
def correctionShare (c : ℚ) (i : ℕ) : ℚ :=
  |c| * ((2 * i + 1).factorial : ℚ) / ((10 ^ (2 * i + 1) : ℕ) : ℚ)

theorem shares_checked :
    ((List.range 33).map fun i => correctionShare ((firstCoeffs 33).getD i 0) i).sum ≤ 1 / 50 ∧
      correctionShare ((firstCoeffs 33).getD 31 0) 31 ≤ 1 / 10 ^ 20 := by
  decide +kernel

theorem correctionShare_nonneg (c : ℚ) (i : ℕ) : 0 ≤ correctionShare c i := by
  unfold correctionShare
  positivity

theorem sum_correctionShare :
    ((Finset.range 33).sum fun i => (correctionShare (coeffRat i) i : ℝ)) ≤ 1 / 50 := by
  have h : ((Finset.range 33).sum fun i => correctionShare (coeffRat i) i) ≤ 1 / 50 := by
    refine le_trans (le_of_eq ?_) shares_checked.1
    change ((List.range 33).map fun i => correctionShare (coeffRat i) i).sum = _
    congr 1
    apply List.map_congr_left
    intro i hi
    rw [firstCoeffs_getD (List.mem_range.mp hi)]
  have hcast := (Rat.cast_le (K := ℝ)).mpr h
  push_cast at hcast
  exact hcast

theorem last_correctionShare : (correctionShare (coeffRat 31) 31 : ℝ) ≤ 1 / 10 ^ 20 := by
  have h := shares_checked.2
  rw [firstCoeffs_getD (by decide)] at h
  have hcast := (Rat.cast_le (K := ℝ)).mpr h
  push_cast at hcast
  exact hcast

/-- The corrections at a point, against the term of the series ten steps before. -/
theorem coeff_powerDeriv_le {s a : ℝ} (hs : 0 < s) (ha : 10 < a) (i : ℕ) :
    |coeff (i + 1)| * powerDeriv s (2 * i + 1) a ≤
      (correctionShare (coeffRat i) i : ℝ) * (a - 10) ^ (-s) := by
  have h := mul_le_mul_of_nonneg_left
    (powerDeriv_le hs (by norm_num : (0 : ℝ) < 10) ha (2 * i + 1)) (abs_nonneg (coeff (i + 1)))
  refine h.trans (le_of_eq ?_)
  rw [coeff_succ, correctionShare]
  push_cast
  ring

/-- What a correction is at most, relative to the first one, at a point from a third of the
exponent on. -/
def tailShare (c : ℚ) (i : ℕ) : ℚ :=
  ((12 : ℕ) : ℚ) * |c| * (((13 ^ (2 * i) : ℕ) : ℚ) / ((4 ^ (2 * i) : ℕ) : ℚ))

theorem tails_checked :
    ((List.range 32).map fun i => tailShare ((firstCoeffs 33).getD (i + 1) 0) (i + 1)).sum ≤ 1 / 4 ∧
      tailShare ((firstCoeffs 33).getD 31 0) 31 ≤ 1 / 10 ^ 17 := by
  decide +kernel

theorem tailShare_nonneg (c : ℚ) (i : ℕ) : 0 ≤ tailShare c i := by
  unfold tailShare
  positivity

theorem sum_tailShare :
    ((Finset.range 32).sum fun i => (tailShare (coeffRat (i + 1)) (i + 1) : ℝ)) ≤ 1 / 4 := by
  have h : ((Finset.range 32).sum fun i => tailShare (coeffRat (i + 1)) (i + 1)) ≤ 1 / 4 := by
    refine le_trans (le_of_eq ?_) tails_checked.1
    change ((List.range 32).map fun i => tailShare (coeffRat (i + 1)) (i + 1)).sum = _
    congr 1
    apply List.map_congr_left
    intro i hi
    rw [firstCoeffs_getD (Nat.succ_lt_succ (List.mem_range.mp hi))]
  have hcast := (Rat.cast_le (K := ℝ)).mpr h
  push_cast at hcast
  exact hcast

theorem last_tailShare : (tailShare (coeffRat 31) 31 : ℝ) ≤ 1 / 10 ^ 17 := by
  have h := tails_checked.2
  rw [firstCoeffs_getD (by decide)] at h
  have hcast := (Rat.cast_le (K := ℝ)).mpr h
  push_cast at hcast
  exact hcast

theorem coeff_one : coeff 1 = 1 / 12 := by
  rw [coeff]
  norm_num [bernoulli_two]

theorem ratios_checked : (∀ i ∈ List.range 32,
      39 * |(firstCoeffs 33).getD (i + 1) 0| ≤ |(firstCoeffs 33).getD i 0|) ∧
    ∀ i ∈ List.range 33, (2 * i + 1).factorial * 4 ^ (2 * i) ≤ 10 ^ (2 * i) * 13 ^ (2 * i) := by
  decide +kernel

theorem coeff_ratio {i : ℕ} (hi : i < 32) : 39 * |coeff (i + 2)| ≤ |coeff (i + 1)| := by
  have h := ratios_checked.1 i (List.mem_range.mpr hi)
  rw [firstCoeffs_getD (hi.trans (Nat.lt_succ_self 32)), firstCoeffs_getD (Nat.succ_lt_succ hi)] at h
  rw [coeff_succ, coeff_succ]
  exact_mod_cast h

/-- The derivatives relative to the first one, at a point from ten times the exponent on. -/
theorem powerDeriv_le_of_far {s a : ℝ} (hs : 1 ≤ s) (ha : 10 * s ≤ a) (m : ℕ) :
    powerDeriv s (m + 1) a ≤ (m + 1).factorial / 10 ^ m * powerDeriv s 1 a := by
  have hpos : 0 < a := by linarith
  induction m with
  | zero => simp
  | succ m ih =>
    have hfactor : (s + (m + 1 : ℕ)) / a ≤ ((m + 2 : ℕ) : ℝ) / 10 := by
      rw [div_le_div_iff₀ hpos (by norm_num)]
      push_cast
      have hm : (0 : ℝ) ≤ m := Nat.cast_nonneg m
      nlinarith
    rw [powerDeriv_succ hpos]
    calc powerDeriv s (m + 1) a * ((s + (m + 1 : ℕ)) / a)
        ≤ (m + 1).factorial / 10 ^ m * powerDeriv s 1 a * (((m + 2 : ℕ) : ℝ) / 10) := by
          apply mul_le_mul ih hfactor (by positivity)
          exact mul_nonneg (by positivity) (powerDeriv_pos (by linarith) hpos _).le
      _ = (m + 1 + 1).factorial / 10 ^ (m + 1) * powerDeriv s 1 a := by
          rw [Nat.factorial_succ (m + 1), pow_succ]
          push_cast
          field_simp
          ring

/-- The same at a point from 256 and from a third of the exponent on. -/
theorem powerDeriv_le_of_large {s a : ℝ} (hs : 0 < s) (ha : 256 ≤ a) (hsa : s ≤ 3 * a) {m : ℕ}
    (hm : m ≤ 64) : powerDeriv s (m + 1) a ≤ (13 / 4) ^ m * powerDeriv s 1 a := by
  have hpos : 0 < a := by linarith
  induction m with
  | zero => simp
  | succ m ih =>
    have hfactor : (s + (m + 1 : ℕ)) / a ≤ 13 / 4 := by
      rw [div_le_div_iff₀ hpos (by norm_num)]
      have hm' : ((m + 1 : ℕ) : ℝ) ≤ 64 := by exact_mod_cast hm
      linarith
    rw [powerDeriv_succ hpos]
    calc powerDeriv s (m + 1) a * ((s + (m + 1 : ℕ)) / a)
        ≤ (13 / 4) ^ m * powerDeriv s 1 a * (13 / 4) := by
          apply mul_le_mul (ih (by omega)) hfactor (by positivity)
          exact mul_nonneg (by positivity) (powerDeriv_pos hs hpos _).le
      _ = (13 / 4) ^ (m + 1) * powerDeriv s 1 a := by ring

theorem coeff_powerDeriv_le_first {s a : ℝ} (hs : 1 ≤ s)
    (ha : 10 * s ≤ a ∨ 256 ≤ a ∧ s ≤ 3 * a) {i : ℕ} (hi : i ≤ 32) :
    |coeff (i + 1)| * powerDeriv s (2 * i + 1) a ≤
      (tailShare (coeffRat i) i : ℝ) * (|coeff 1| * powerDeriv s 1 a) := by
  have hpos : 0 < a := by
    rcases ha with ha | ha <;> linarith [ha]
  have hfirst : 0 < powerDeriv s 1 a := powerDeriv_pos (by linarith) hpos _
  have hgrowth : powerDeriv s (2 * i + 1) a ≤ (13 / 4) ^ (2 * i) * powerDeriv s 1 a := by
    rcases ha with hfar | ⟨hlarge, hsa⟩
    · refine (powerDeriv_le_of_far hs hfar (2 * i)).trans
        (mul_le_mul_of_nonneg_right ?_ hfirst.le)
      have h := ratios_checked.2 i (List.mem_range.mpr (by omega))
      rw [div_pow, div_le_div_iff₀ (by positivity) (by positivity)]
      rw [mul_comm (10 ^ (2 * i))] at h
      exact_mod_cast h
    · exact powerDeriv_le_of_large (by linarith) hlarge hsa (by omega)
  have h := mul_le_mul_of_nonneg_left hgrowth (abs_nonneg (coeff (i + 1)))
  refine h.trans (le_of_eq ?_)
  rw [coeff_one, coeff_succ, tailShare, abs_of_pos (by norm_num : (0 : ℝ) < 1 / 12)]
  push_cast
  rw [div_pow]
  ring

end Plfit
