import Mathlib
import Plfit.Zeta.HurwitzSum

/-! # The logarithm of the zeta function and the error that it reports

The zeta function is taken relative to its expansion without corrections. The shifted terms
are what the expansion misses at each step, and the corrections are added at the point that
the shift reaches: far enough from the exponent, or so near that the first shifted term
outweighs them.
-/
namespace Plfit
open ExactArithmetic EulerMaclaurin RealHurwitz

section LogZeta
variable {s q : ℝ}

/-! ## The leading terms -/

theorem zetaExpansion_zero (hq : 0 < q) (s : ℝ) :
    zetaExpansion s 0 q = q ^ (-s) * (1 / 2 + q / (s - 1)) := by
  rw [zetaExpansion_eq, Finset.sum_range_zero, show 1 - s = -s + 1 by ring,
    Real.rpow_add_one hq.ne']
  ring

theorem zetaExpansion_zero_pos (hs : 1 < s) (hq : 0 < q) : 0 < zetaExpansion s 0 q := by
  rw [zetaExpansion_zero hq]
  exact mul_pos (Real.rpow_pos_of_pos hq _)
    (add_pos (by norm_num) (div_pos hq (sub_pos.mpr hs)))

/-- The unit of the sums relative to the leading terms. -/
noncomputable def relativeUnit (s q : ℝ) : ℝ := (zetaExpansion s 0 q)⁻¹

theorem relativeUnit_pos (hs : 1 < s) (hq : 0 < q) : 0 < relativeUnit s q :=
  inv_pos.mpr (zetaExpansion_zero_pos hs hq)

theorem relativeUnit_eq (hs : 1 < s) (hq : 0 < q) :
    relativeUnit s q = (s - 1) / (q ^ (-s) * (q + 1 / 2 * (s - 1))) := by
  have hsm1 : s - 1 ≠ 0 := (sub_pos.mpr hs).ne'
  have hpow : q ^ (-s) ≠ 0 := (Real.rpow_pos_of_pos hq _).ne'
  rw [relativeUnit, zetaExpansion_zero hq]
  field_simp
  ring

/-- What the zeta function has above its leading terms, relative to them. -/
noncomputable def zetaExcess (s q : ℝ) : ℝ :=
  relativeUnit s q * (hurwitzZeta s q - zetaExpansion s 0 q)

theorem one_add_zetaExcess (hs : 1 < s) (hq : 0 < q) :
    zetaExpansion s 0 q * (1 + zetaExcess s q) = hurwitzZeta s q := by
  have hne := (zetaExpansion_zero_pos hs hq).ne'
  rw [zetaExcess, relativeUnit]
  field_simp
  ring

theorem zetaExcess_nonneg (hs : 1 < s) (hq : 0 < q) : 0 ≤ zetaExcess s q := by
  have h := zetaExpansion_sign hs hq 0
  rw [pow_zero, one_mul] at h
  exact mul_nonneg (relativeUnit_pos hs hq).le h

/-! ## The shifted terms -/

/-- What the expansion misses at one step. -/
noncomputable def stepExcess (s x : ℝ) : ℝ :=
  x ^ (-s) - (zetaExpansion s 0 x - zetaExpansion s 0 (x + 1))

theorem stepExcess_nonneg (hs : 1 < s) {x : ℝ} (hx : 0 < x) : 0 ≤ stepExcess s x :=
  sub_nonneg.mpr (zetaExpansion_zero_step hs hx)

theorem hslSfHZeta0Zed_eq (hs : 1 < s) {x : ℝ} (hx : 0 < x) :
    hslSfHZeta0Zed (.fin s) (.fin x) = .fin ((s - 1) * stepExcess s x / x ^ (-s)) := by
  have hinv : -1 < 1 / x := by linarith [one_div_pos.mpr hx]
  have hpow : x ^ (-s) ≠ 0 := (Real.rpow_pos_of_pos hx _).ne'
  have hsm1 : s - 1 ≠ 0 := (sub_pos.mpr hs).ne'
  have hexp : Real.exp (-s * Real.log (1 + 1 / x)) = (x + 1) ^ (-s) / x ^ (-s) := by
    rw [← Real.div_rpow (by linarith) hx.le, Real.rpow_def_of_pos (by positivity), mul_comm (-s)]
    congr 3
    field_simp
  rw [hslSfHZeta0Zed, Double.one_def, Double.fin_div_fin hx.ne', MathLibraryC99.log1p_fin hinv,
    Double.neg_fin, Double.fin_mul_fin, Double.fin_mul_fin, MathLibrary.expm1_fin, hexp]
  simp only [Double.fin_mul_fin, Double.fin_add_fin]
  congr 1
  rw [stepExcess, zetaExpansion_zero hx, zetaExpansion_zero (by linarith : 0 < x + 1)]
  field_simp
  ring

theorem exp_log1p_div (hq : 0 < q) (s : ℝ) (j : ℕ) :
    MathLibrary.exp (-.fin s * MathLibraryC99.log1p ((j : Double ℝ) * .fin (1 / q))) =
      .fin ((q + j) ^ (-s) / q ^ (-s)) := by
  have hratio : -1 < (j : ℝ) * (1 / q) := by
    have : 0 ≤ (j : ℝ) * (1 / q) := by positivity
    linarith
  rw [Double.natCast_def, Double.fin_mul_fin, MathLibraryC99.log1p_fin hratio, Double.neg_fin,
    Double.fin_mul_fin, MathLibrary.exp_fin, ← Real.div_rpow (by positivity) hq.le,
    Real.rpow_def_of_pos (by positivity), mul_comm (-s)]
  congr 4
  field_simp

theorem shiftLoop_total (hs : 1 < s) (hq : 0 < q) (rounds j : ℕ) {terms : Terms ℝ} {x : ℝ}
    (h : terms.Total x) :
    (shiftLoop (hslSfHZeta0Zed (.fin s))
        (fun _ j => MathLibrary.exp (-.fin s * MathLibraryC99.log1p ((j : Double ℝ) * .fin (1 / q))))
        (.fin (1 / (q + 1 / 2 * (s - 1)))) rounds j (.fin (q + j))
        (.fin ((q + j) ^ (-s) / q ^ (-s))) terms).1.Total
        (x + relativeUnit s q * (Finset.range rounds).sum fun k => stepExcess s (q + (j + k : ℕ))) ∧
      (shiftLoop (hslSfHZeta0Zed (.fin s))
        (fun _ j => MathLibrary.exp (-.fin s * MathLibraryC99.log1p ((j : Double ℝ) * .fin (1 / q))))
        (.fin (1 / (q + 1 / 2 * (s - 1)))) rounds j (.fin (q + j))
        (.fin ((q + j) ^ (-s) / q ^ (-s))) terms).2 =
        .fin ((q + (j + rounds : ℕ)) ^ (-s) / q ^ (-s)) := by
  induction rounds generalizing j terms x with
  | zero => exact ⟨by simpa [shiftLoop] using h, by simp [shiftLoop]⟩
  | succ rounds ih =>
    have hx : 0 < q + (j : ℝ) := by positivity
    have hnext : (.fin (q + (j : ℝ)) + 1 : Double ℝ) = .fin (q + ((j + 1 : ℕ) : ℝ)) := by
      rw [Double.one_def, Double.fin_add_fin]
      congr 1
      push_cast
      ring
    have hterm : (.fin ((q + j) ^ (-s) / q ^ (-s)) * hslSfHZeta0Zed (.fin s) (.fin (q + j)) *
        .fin (1 / (q + 1 / 2 * (s - 1))) : Double ℝ) =
        .fin (relativeUnit s q * stepExcess s (q + j)) := by
      have hne : (q + (j : ℝ)) ^ (-s) ≠ 0 := (Real.rpow_pos_of_pos hx _).ne'
      rw [hslSfHZeta0Zed_eq hs hx, Double.fin_mul_fin, Double.fin_mul_fin, relativeUnit_eq hs hq]
      congr 1
      field_simp
    have hpush := h.push (relativeUnit s q * stepExcess s (q + j))
    rw [shiftLoop, hnext, exp_log1p_div hq, hterm]
    obtain ⟨htotal, hweight⟩ := ih (j + 1) hpush
    have hindex (k : ℕ) : j + 1 + k = j + (k + 1) := by omega
    refine ⟨?_, ?_⟩
    · convert! htotal using 1
      rw [Finset.sum_range_succ']
      simp only [hindex, add_zero]
      ring
    · rw [hweight, hindex]

theorem sum_stepExcess (s q : ℝ) (n : ℕ) :
    ((Finset.range n).sum fun k => stepExcess s (q + (k : ℝ))) =
      ((Finset.range n).sum fun k => (q + (k : ℝ)) ^ (-s)) -
        (zetaExpansion s 0 q - zetaExpansion s 0 (q + n)) := by
  induction n with
  | zero => simp
  | succ n ih =>
    rw [Finset.sum_range_succ, Finset.sum_range_succ, ih, stepExcess, Nat.cast_succ, ← add_assoc]
    ring

/-! ## The point that the shift reaches -/

/-- The shift reaches ten times the exponent, or it is the largest one. -/
theorem lnhzetaShift_cases (s q : ℝ) :
    10 * s ≤ q + lnhzetaShift (.fin s : Double ℝ) (.fin q) ∨
      lnhzetaShift (.fin s : Double ℝ) (.fin q) = 256 := by
  have hcriterion : Double.ceil (.fin 10 * .fin s - .fin q : Double ℝ) =
      .fin (⌈10 * s - q⌉ : ℝ) := by
    rw [Double.fin_mul_fin, Double.fin_sub_fin]
    rfl
  have hle := Int.le_ceil (10 * s - q)
  rw [lnhzetaShift, hcriterion]
  simp only [Double.zero_def, Double.fin_lt_fin, seriesShiftMax, Double.natCast_def]
  by_cases hneg : ((⌈10 * s - q⌉ : ℤ) : ℝ) < 0
  · rw [if_pos hneg]
    left
    push_cast
    linarith
  · rw [if_neg hneg]
    by_cases hlt : ((⌈10 * s - q⌉ : ℤ) : ℝ) < ((256 : ℕ) : ℝ)
    · rw [if_pos hlt]
      left
      have hnonneg : 0 ≤ ⌈10 * s - q⌉ := by exact_mod_cast not_lt.mp hneg
      have hbound : ⌈10 * s - q⌉ < 2 ^ 64 := by
        have : ⌈10 * s - q⌉ < 256 := by exact_mod_cast hlt
        omega
      have htruncate : Double.truncate ((⌈10 * s - q⌉ : ℤ) : ℝ) = ⌈10 * s - q⌉ := by
        rw [Double.truncate, if_pos (not_lt.mp hneg), Int.floor_intCast]
      rw [Double.toUnsigned, htruncate, if_pos ⟨hnonneg, hbound⟩, Option.getD_some]
      have hcast : ((⌈10 * s - q⌉.toNat : ℕ) : ℝ) = ((⌈10 * s - q⌉ : ℤ) : ℝ) := by
        exact_mod_cast Int.toNat_of_nonneg hnonneg
      rw [hcast]
      linarith
    · rw [if_neg hlt]
      exact Or.inr rfl

/-- The sum is bounded below by a number that outweighs the corrections. -/
structure Outweighs (mu s a base floor : ℝ) : Prop where
  floor_pos : 0 < floor
  head : floor + (Finset.range 32).sum (fun i =>
    2 * (|coeff (i + 2)| * (mu * powerDeriv s (2 * (i + 1) + 1) a))) ≤
      base + 1 / 12 * (mu * powerDeriv s 1 a)
  later : ∀ i, i < 32 → |coeff (i + 2)| * (mu * powerDeriv s (2 * (i + 1) + 1) a) ≤ floor / 2
  first : 1 / 12 * (mu * powerDeriv s 1 a) ≤ 2 * floor
  last : |coeff 32| * (mu * powerDeriv s 63 a) ≤ 2 / 10 ^ 17 * floor

/-- Far from the exponent the first correction outweighs the others. -/
theorem outweighs_of_far {mu a base : ℝ} (hmu : 0 < mu) (hs : 1 ≤ s) (hbase : 0 ≤ base)
    (ha : 10 * s ≤ a ∨ 256 ≤ a ∧ s ≤ 3 * a) :
    Outweighs mu s a base (1 / 2 * (1 / 12 * (mu * powerDeriv s 1 a))) := by
  have hpos : 0 < a := by
    rcases ha with ha | ha <;> linarith [ha]
  have hfirst : 0 < 1 / 12 * (mu * powerDeriv s 1 a) :=
    mul_pos (by norm_num) (mul_pos hmu (powerDeriv_pos (by linarith) hpos _))
  have hshare {i : ℕ} (hi : i ≤ 32) : |coeff (i + 1)| * (mu * powerDeriv s (2 * i + 1) a) ≤
      (tailShare (coeffRat i) i : ℝ) * (1 / 12 * (mu * powerDeriv s 1 a)) := by
    have h := mul_le_mul_of_nonneg_left (coeff_powerDeriv_le_first hs ha hi) hmu.le
    rw [coeff_one, abs_of_pos (by norm_num : (0 : ℝ) < 1 / 12)] at h
    calc _ = mu * (|coeff (i + 1)| * powerDeriv s (2 * i + 1) a) := by ring
      _ ≤ _ := h
      _ = _ := by ring
  have hone {i : ℕ} (hi : i < 32) : (tailShare (coeffRat (i + 1)) (i + 1) : ℝ) ≤ 1 / 4 := by
    refine le_trans ?_ sum_tailShare
    exact Finset.single_le_sum (f := fun i => (tailShare (coeffRat (i + 1)) (i + 1) : ℝ))
      (fun k _ => by exact_mod_cast tailShare_nonneg _ _) (Finset.mem_range.mpr hi)
  constructor
  · linarith
  · have hsum : (Finset.range 32).sum (fun i =>
        2 * (|coeff (i + 2)| * (mu * powerDeriv s (2 * (i + 1) + 1) a))) ≤
        2 * (1 / 4 * (1 / 12 * (mu * powerDeriv s 1 a))) := by
      rw [← Finset.mul_sum]
      apply mul_le_mul_of_nonneg_left _ zero_le_two
      calc _ ≤ (Finset.range 32).sum fun i => (tailShare (coeffRat (i + 1)) (i + 1) : ℝ) *
            (1 / 12 * (mu * powerDeriv s 1 a)) := by
            apply Finset.sum_le_sum
            intro i hi
            exact hshare (Nat.succ_le_of_lt (Finset.mem_range.mp hi))
        _ ≤ 1 / 4 * (1 / 12 * (mu * powerDeriv s 1 a)) := by
            rw [← Finset.sum_mul]
            exact mul_le_mul_of_nonneg_right sum_tailShare hfirst.le
    linarith
  · intro i hi
    have h := (hshare (Nat.succ_le_of_lt hi)).trans
      (mul_le_mul_of_nonneg_right (hone hi) hfirst.le)
    change |coeff (i + 2)| * _ ≤ _ at h
    linarith
  · linarith
  · have h := (hshare (by norm_num : 31 ≤ 32)).trans
      (mul_le_mul_of_nonneg_right last_tailShare hfirst.le)
    change |coeff 32| * (mu * powerDeriv s 63 a) ≤ _ at h
    linarith

/-- Near the exponent the first shifted term outweighs the corrections. -/
theorem outweighs_of_near {base : ℝ} (hs : 1 < s) (hq : 0 < q) (hnear : 3 * (q + 256) < s)
    (hbase : relativeUnit s q * stepExcess s q ≤ base) :
    Outweighs (relativeUnit s q) s (q + 256) base (1 / 10) := by
  have hs0 : 0 < s := by linarith
  have hmu := relativeUnit_pos hs hq
  have hpow : 0 < q ^ (-s) := Real.rpow_pos_of_pos hq _
  have hden : 0 < q + 1 / 2 * (s - 1) := by linarith
  have hunit : relativeUnit s q * q ^ (-s) = (s - 1) / (q + 1 / 2 * (s - 1)) := by
    rw [relativeUnit_eq hs hq]
    field_simp
  have hunit_le : relativeUnit s q * q ^ (-s) ≤ 2 := by
    rw [hunit, div_le_iff₀ hden]
    linarith
  have hstep : 1 / 5 ≤ relativeUnit s q * stepExcess s q := by
    have hlead : relativeUnit s q * zetaExpansion s 0 q = 1 :=
      inv_mul_cancel₀ (zetaExpansion_zero_pos hs hq).ne'
    have hnext := mul_pos hmu (zetaExpansion_zero_pos hs (by linarith : 0 < q + 1))
    have hratio : 6 / 5 ≤ relativeUnit s q * q ^ (-s) := by
      rw [hunit, le_div_iff₀ hden]
      linarith
    rw [stepExcess]
    linarith
  have hshare {i : ℕ} (_ : i ≤ 32) :
      |coeff (i + 1)| * (relativeUnit s q * powerDeriv s (2 * i + 1) (q + 256)) ≤
        2 * (correctionShare (coeffRat i) i : ℝ) := by
    have hfar := powerDeriv_le hs0 (by norm_num : (0 : ℝ) < 256)
      (by linarith : 256 < q + 256) (2 * i + 1)
    rw [add_sub_cancel_right] at hfar
    have hscale : ((2 * i + 1).factorial : ℝ) / 256 ^ (2 * i + 1) ≤
        (2 * i + 1).factorial / 10 ^ (2 * i + 1) :=
      div_le_div_of_nonneg_left (Nat.cast_nonneg _) (by positivity)
        (pow_le_pow_left₀ (by norm_num) (by norm_num) _)
    have hall := hfar.trans (mul_le_mul_of_nonneg_right hscale hpow.le)
    calc |coeff (i + 1)| * (relativeUnit s q * powerDeriv s (2 * i + 1) (q + 256))
        ≤ |coeff (i + 1)| * (relativeUnit s q *
          ((2 * i + 1).factorial / 10 ^ (2 * i + 1) * q ^ (-s))) :=
          mul_le_mul_of_nonneg_left (mul_le_mul_of_nonneg_left hall hmu.le) (abs_nonneg _)
      _ = (correctionShare (coeffRat i) i : ℝ) * (relativeUnit s q * q ^ (-s)) := by
          rw [coeff_succ, correctionShare]
          push_cast
          ring
      _ ≤ (correctionShare (coeffRat i) i : ℝ) * 2 := by
          apply mul_le_mul_of_nonneg_left hunit_le
          exact_mod_cast correctionShare_nonneg _ _
      _ = 2 * (correctionShare (coeffRat i) i : ℝ) := mul_comm _ _
  have hnonneg (i : ℕ) : (0 : ℝ) ≤ correctionShare (coeffRat i) i := by
    exact_mod_cast correctionShare_nonneg _ _
  have hone {i : ℕ} (hi : i < 33) : (correctionShare (coeffRat i) i : ℝ) ≤ 1 / 50 :=
    le_trans (Finset.single_le_sum (f := fun i => (correctionShare (coeffRat i) i : ℝ))
      (fun k _ => hnonneg k) (Finset.mem_range.mpr hi)) sum_correctionShare
  have hfirst : 0 < 1 / 12 * (relativeUnit s q * powerDeriv s 1 (q + 256)) :=
    mul_pos (by norm_num) (mul_pos hmu (powerDeriv_pos hs0 (by linarith) _))
  constructor
  · norm_num
  · have hsum : (Finset.range 32).sum (fun i => 2 * (|coeff (i + 2)| *
        (relativeUnit s q * powerDeriv s (2 * (i + 1) + 1) (q + 256)))) ≤ 2 * (2 * (1 / 50)) := by
      rw [← Finset.mul_sum]
      apply mul_le_mul_of_nonneg_left _ zero_le_two
      calc _ ≤ (Finset.range 32).sum fun i =>
            2 * (correctionShare (coeffRat (i + 1)) (i + 1) : ℝ) := by
            apply Finset.sum_le_sum
            intro i hi
            exact hshare (Nat.succ_le_of_lt (Finset.mem_range.mp hi))
        _ ≤ 2 * (1 / 50) := by
            rw [← Finset.mul_sum]
            apply mul_le_mul_of_nonneg_left _ zero_le_two
            refine le_trans ?_ sum_correctionShare
            rw [Finset.sum_range_succ' _ 32]
            linarith [hnonneg 0]
    linarith
  · intro i hi
    have h := hshare (Nat.succ_le_of_lt hi)
    change |coeff (i + 2)| * _ ≤ _ at h
    linarith [hone (Nat.succ_lt_succ hi)]
  · have h := hshare (Nat.zero_le 32)
    rw [zero_add, coeff_one, abs_of_pos (by norm_num : (0 : ℝ) < 1 / 12), mul_zero, zero_add] at h
    linarith [hone (by norm_num : 0 < 33)]
  · have h := hshare (by norm_num : 31 ≤ 32)
    change |coeff 32| * (relativeUnit s q * powerDeriv s 63 (q + 256)) ≤ _ at h
    linarith [last_correctionShare]

theorem tableCoeff_one : (tableCoeff 1 : ℝ) = 1 / 12 := by
  norm_num [tableCoeff, eulermaclaurinSeriesCoeffs]

theorem Outweighs.floor_le {mu a base floor : ℝ} (h : Outweighs mu s a base floor) (hmu : 0 < mu)
    (hs : 0 < s) (ha : 0 < a) {n : ℕ} (hn : n < 32) :
    floor ≤ seriesSum mu s a base (n + 1) := by
  have hT (i : ℕ) : 0 < mu * powerDeriv s (2 * (i + 1) + 1) a := mul_pos hmu (powerDeriv_pos hs ha _)
  have hsum : |(Finset.range n).sum fun i =>
      (tableCoeff (i + 1 + 1) : ℝ) * (mu * powerDeriv s (2 * (i + 1) + 1) a)| ≤
      (Finset.range 32).sum fun i =>
        2 * (|coeff (i + 2)| * (mu * powerDeriv s (2 * (i + 1) + 1) a)) := by
    calc _ ≤ (Finset.range n).sum fun i =>
          |(tableCoeff (i + 1 + 1) : ℝ) * (mu * powerDeriv s (2 * (i + 1) + 1) a)| :=
          Finset.abs_sum_le_sum_abs _ _
      _ ≤ (Finset.range n).sum fun i =>
          2 * (|coeff (i + 2)| * (mu * powerDeriv s (2 * (i + 1) + 1) a)) := by
          apply Finset.sum_le_sum
          intro i hi
          have hi' : i + 1 < 32 := by
            have := Finset.mem_range.mp hi
            omega
          rw [abs_mul, abs_of_pos (hT i), ← mul_assoc (2 : ℝ)]
          exact mul_le_mul_of_nonneg_right (tableCoeff_le hi') (hT i).le
      _ ≤ _ := by
          apply Finset.sum_le_sum_of_subset_of_nonneg (Finset.range_mono (by omega))
          intro i _ _
          exact mul_nonneg zero_le_two (mul_nonneg (abs_nonneg _) (hT i).le)
  have hlower := neg_abs_le ((Finset.range n).sum fun i =>
    (tableCoeff (i + 1 + 1) : ℝ) * (mu * powerDeriv s (2 * (i + 1) + 1) a))
  rw [seriesSum, Finset.sum_range_succ', zero_add, mul_zero, zero_add, tableCoeff_one]
  linarith [h.head]

/-! ## The value of `hsl_sf_hZeta0` -/

/-- The loop falls below its precision before the table ends. -/
theorem Outweighs.last_lt {mu a base floor : ℝ} (h : Outweighs mu s a base floor) (hmu : 0 < mu)
    (hs : 0 < s) (ha : 0 < a) : |(tableCoeff 32 : ℝ) * (mu * powerDeriv s 63 a)| <
      halfEpsilon * seriesSum mu s a base 32 := by
  have hT : 0 < mu * powerDeriv s 63 a := mul_pos hmu (powerDeriv_pos hs ha _)
  have hle : |(tableCoeff 32 : ℝ)| * (mu * powerDeriv s 63 a) ≤
      2 * |coeff 32| * (mu * powerDeriv s 63 a) :=
    mul_le_mul_of_nonneg_right (tableCoeff_le (by norm_num : 31 < 32)) hT.le
  have heps : (4 : ℝ) / 10 ^ 17 < halfEpsilon := by
    rw [halfEpsilon]
    norm_num
  rw [abs_mul, abs_of_pos hT]
  calc |(tableCoeff 32 : ℝ)| * (mu * powerDeriv s 63 a)
      ≤ 4 / 10 ^ 17 * floor := by linarith [h.last]
    _ < halfEpsilon * floor := mul_lt_mul_of_pos_right heps h.floor_pos
    _ ≤ halfEpsilon * seriesSum mu s a base 32 :=
        mul_le_mul_of_nonneg_left (h.floor_le hmu hs ha (by norm_num : 31 < 32)) halfEpsilon_pos.le

/-- Far from the exponent or near it, the sum stays above a floor. -/
theorem exists_outweighs (hs : 1 < s) (hq : 0 < q) :
    ∃ floor, Outweighs (relativeUnit s q) s (q + lnhzetaShift (.fin s : Double ℝ) (.fin q))
      (relativeUnit s q * (Finset.range (lnhzetaShift (.fin s : Double ℝ) (.fin q))).sum
        fun k => stepExcess s (q + (k : ℝ))) floor := by
  have hmu : 0 < relativeUnit s q := relativeUnit_pos hs hq
  have hstep (k : ℕ) : 0 ≤ stepExcess s (q + (k : ℝ)) := stepExcess_nonneg hs (by positivity)
  have hbase := mul_nonneg hmu.le (Finset.sum_nonneg fun k
    (_ : k ∈ Finset.range (lnhzetaShift (.fin s : Double ℝ) (.fin q))) => hstep k)
  rcases lnhzetaShift_cases s q with hfar | hmax
  · exact ⟨_, outweighs_of_far hmu hs.le hbase (Or.inl hfar)⟩
  · have ha256 : q + (lnhzetaShift (.fin s : Double ℝ) (.fin q) : ℝ) = q + 256 := by
      rw [hmax]
      norm_num
    rcases le_or_gt s (3 * (q + (lnhzetaShift (.fin s : Double ℝ) (.fin q) : ℝ))) with hsa | hsa
    · exact ⟨_, outweighs_of_far hmu hs.le hbase (Or.inr ⟨by linarith, hsa⟩)⟩
    · refine ⟨1 / 10, ?_⟩
      rw [ha256] at hsa ⊢
      apply outweighs_of_near hs hq hsa
      apply mul_le_mul_of_nonneg_left _ hmu.le
      have h := Finset.single_le_sum (f := fun k : ℕ => stepExcess s (q + k))
        (fun k _ => hstep k) (Finset.mem_range.mpr
          (by rw [hmax]; norm_num : 0 < lnhzetaShift (.fin s : Double ℝ) (.fin q)))
      simpa using h

/-- The power with which the loop starts, which the source scales after a shift only. -/
theorem firstPcp_eq (hs : 1 < s) (hq : 0 < q) (shift : ℕ) :
    (if shift = 0 then (.fin (1 / (q + shift)) / (.fin 2 * .fin (q + shift) + .fin (s - 1)) :
        Double ℝ)
      else .fin (1 / (q + shift)) / (.fin 2 * .fin (q + shift) + .fin (s - 1)) *
        (.fin ((q + shift) ^ (-s) / q ^ (-s)) * (.fin (q + shift) + .fin (1 / 2 * (s - 1))) *
          .fin (1 / (q + 1 / 2 * (s - 1))))) =
      .fin (relativeUnit s q / (s - 1) * ((q + shift) ^ (-s) / (q + shift)) / 2) := by
  have hsm1 : 0 < s - 1 := sub_pos.mpr hs
  have ha : 0 < q + (shift : ℝ) := by positivity
  have htwo : 0 < 2 * (q + (shift : ℝ)) + (s - 1) := by positivity
  have hden : 0 < q + 1 / 2 * (s - 1) := by positivity
  have hqpow : 0 < q ^ (-s) := Real.rpow_pos_of_pos hq _
  rw [Double.fin_mul_fin, Double.fin_add_fin, Double.fin_div_fin htwo.ne', Double.fin_add_fin,
    Double.fin_mul_fin, Double.fin_mul_fin, Double.fin_mul_fin, relativeUnit_eq hs hq]
  by_cases hzero : shift = 0
  · rw [if_pos hzero, hzero, Nat.cast_zero, add_zero]
    congr 1
    field_simp
  · rw [if_neg hzero]
    congr 1
    field_simp

/-- The variables of the loop after the correction that is taken before it. -/
theorem afterCorrections_one (hs : 1 < s) {mu a base : ℝ} (ha : 0 < a) {terms : Terms ℝ}
    (h : terms.Total base) :
    AfterCorrections (s - 1) mu s a base 1
      (Corrections.next (.fin 2 * .fin (1 / a * (1 / a)))
        (.fin (s * (s - 1) * (mu / (s - 1) * (a ^ (-s) / a) / 2)) / ((6 : ℕ) : Double ℝ))
        { toTerms := terms
          tscp := .fin s
          scp := .fin (s * (s - 1))
          pcp := .fin (mu / (s - 1) * (a ^ (-s) / a) / 2)
          ratio := .fin (s * (s - 1) * (mu / (s - 1) * (a ^ (-s) / a) / 2)) }) := by
  have hsm1 : 0 < s - 1 := sub_pos.mpr hs
  have hdelta : (.fin (s * (s - 1) * (mu / (s - 1) * (a ^ (-s) / a) / 2)) /
      ((6 : ℕ) : Double ℝ)) = .fin (tableCoeff 1 * (mu * powerDeriv s 1 a)) := by
    rw [Double.natCast_def, Double.fin_div_fin (by norm_num), tableCoeff_one, powerDeriv_eq ha,
      rising_one, pow_one]
    congr 1
    push_cast
    field_simp
    ring
  have hscp : (.fin (s * (s - 1)) * (.fin s + 1) * (.fin s + 1 + 1) : Double ℝ) =
      .fin ((s - 1) * rising s (2 * 1 + 1)) := by
    rw [rising_succ s 2, rising_succ s 1, rising_one]
    simp only [Double.one_def, Double.fin_add_fin, Double.fin_mul_fin]
    congr 1
    push_cast
    ring
  have hpcp : (.fin (mu / (s - 1) * (a ^ (-s) / a) / 2) * (.fin 2 * .fin (1 / a * (1 / a))) :
      Double ℝ) = .fin (mu / (s - 1) * (a ^ (-s) / a ^ (2 * 1 + 1))) := by
    rw [Double.fin_mul_fin, Double.fin_mul_fin]
    congr 1
    field_simp
  rw [hdelta]
  constructor
  · rw [seriesSum_succ, seriesSum, Finset.sum_range_zero, add_zero]
    exact h.push _
  · change (.fin s + 1 + 1 : Double ℝ) = _
    simp only [Double.one_def, Double.fin_add_fin]
    congr 1
    push_cast
    ring
  · exact hscp
  · exact hpcp
  · change (.fin (s * (s - 1)) * (.fin s + 1) * (.fin s + 1 + 1) *
      (.fin (mu / (s - 1) * (a ^ (-s) / a) / 2) * (.fin 2 * .fin (1 / a * (1 / a)))) :
        Double ℝ) = _
    rw [hscp, hpcp, Double.fin_mul_fin, powerDeriv_eq ha]
    congr 1
    field_simp

/-- What the exact corrections leave of the excess, after any shift. -/
theorem zetaExcess_error (hs : 1 < s) (hq : 0 < q) (shift n : ℕ) :
    |zetaExcess s q - (relativeUnit s q * (Finset.range shift).sum
        (fun k => stepExcess s (q + (k : ℝ))) + (Finset.range n).sum fun i =>
          coeff (i + 1) * (relativeUnit s q * powerDeriv s (2 * i + 1) (q + shift)))| ≤
      |coeff (n + 1)| * (relativeUnit s q * powerDeriv s (2 * n + 1) (q + shift)) := by
  have hmu : 0 < relativeUnit s q := relativeUnit_pos hs hq
  have ha : 0 < q + (shift : ℝ) := by positivity
  have hzero : zetaExpansion s n (q + shift) = zetaExpansion s 0 (q + shift) +
      (Finset.range n).sum fun i => coeff (i + 1) * powerDeriv s (2 * i + 1) (q + shift) := by
    rw [zetaExpansion_eq, zetaExpansion_eq, Finset.sum_range_zero, add_zero]
  have hterms : ((Finset.range n).sum fun i =>
      coeff (i + 1) * (relativeUnit s q * powerDeriv s (2 * i + 1) (q + shift))) =
      relativeUnit s q * (Finset.range n).sum fun i =>
        coeff (i + 1) * powerDeriv s (2 * i + 1) (q + shift) := by
    rw [Finset.mul_sum]
    exact Finset.sum_congr rfl fun i _ => by ring
  have hvalue : zetaExcess s q - (relativeUnit s q * (Finset.range shift).sum
      (fun k => stepExcess s (q + (k : ℝ))) + (Finset.range n).sum fun i =>
        coeff (i + 1) * (relativeUnit s q * powerDeriv s (2 * i + 1) (q + shift))) =
      relativeUnit s q * (hurwitzZeta s (q + shift) - zetaExpansion s n (q + shift)) := by
    rw [hterms, sum_stepExcess, zetaExcess, hurwitzZeta_shift hs hq shift, hzero]
    ring
  rw [hvalue, abs_mul, abs_of_pos hmu]
  refine (mul_le_mul_of_nonneg_left (zetaExpansion_error hs ha n) hmu.le).trans (le_of_eq ?_)
  ring

theorem hslSfHZeta0_eq (hs : 1 < s) (hq : 0 < q) :
    ∃ (n : ℕ) (base floor : ℝ), 1 ≤ n ∧ n < 32 ∧
      hslSfHZeta0 (.fin s) (.fin q) =
        .ok (.fin (seriesSum (relativeUnit s q) s (q + lnhzetaShift (.fin s : Double ℝ) (.fin q))
            base (n + 1)),
          .fin (2 * ((lnhzetaShift (.fin s : Double ℝ) (.fin q) + 1) * (2 * halfEpsilon) *
            seriesSum (relativeUnit s q) s (q + lnhzetaShift (.fin s : Double ℝ) (.fin q)) base
              (n + 1) +
            tableMajorant (n + 1) * (relativeUnit s q * powerDeriv s (2 * (n + 1) + 1)
              (q + lnhzetaShift (.fin s : Double ℝ) (.fin q)))))) ∧
      Outweighs (relativeUnit s q) s (q + lnhzetaShift (.fin s : Double ℝ) (.fin q)) base floor ∧
      |(tableCoeff (n + 1) : ℝ) * (relativeUnit s q * powerDeriv s (2 * n + 1)
        (q + lnhzetaShift (.fin s : Double ℝ) (.fin q)))| < halfEpsilon *
          seriesSum (relativeUnit s q) s (q + lnhzetaShift (.fin s : Double ℝ) (.fin q)) base
            (n + 1) ∧
      |zetaExcess s q - (base + (Finset.range (n + 1)).sum fun i => coeff (i + 1) *
        (relativeUnit s q * powerDeriv s (2 * i + 1)
          (q + lnhzetaShift (.fin s : Double ℝ) (.fin q))))| ≤
        |coeff (n + 2)| * (relativeUnit s q * powerDeriv s (2 * (n + 1) + 1)
          (q + lnhzetaShift (.fin s : Double ℝ) (.fin q))) := by
  obtain ⟨floor, hfloor⟩ := exists_outweighs hs hq
  set shift := lnhzetaShift (.fin s : Double ℝ) (.fin q) with hshift
  have hs0 : 0 < s := one_pos.trans hs
  have ha : 0 < q + (shift : ℝ) := by positivity
  have hmu : 0 < relativeUnit s q := relativeUnit_pos hs hq
  have hden : 0 < q + 1 / 2 * (s - 1) := add_pos hq (by linarith)
  have hqpow : 0 < q ^ (-s) := Real.rpow_pos_of_pos hq _
  have hpos (n : ℕ) (hn1 : 1 ≤ n) (hn : n ≤ 32) : 0 < seriesSum (relativeUnit s q) s (q + shift)
      (relativeUnit s q * (Finset.range shift).sum fun k => stepExcess s (q + (k : ℝ))) n := by
    obtain ⟨m, rfl⟩ : ∃ m, n = m + 1 := ⟨n - 1, by omega⟩
    exact hfloor.floor_pos.trans_le (hfloor.floor_le hmu hs0 ha (Nat.lt_of_succ_le hn))
  -- the values of the variables
  have hqshift : (shift : Double ℝ) + .fin q = .fin (q + shift) := by
    rw [Double.natCast_def, Double.fin_add_fin, add_comm]
  have hinvQshift : (1 / .fin (q + shift) : Double ℝ) = .fin (1 / (q + shift)) := by
    rw [Double.one_def, Double.fin_div_fin ha.ne']
  have hinvQ : (1 / .fin q : Double ℝ) = .fin (1 / q) := by
    rw [Double.one_def, Double.fin_div_fin hq.ne']
  have hsub : (.fin s - 1 : Double ℝ) = .fin (s - 1) := by
    rw [Double.one_def, Double.fin_sub_fin]
  have hinvQphsm1 : (1 / (.fin q + .fin (1 / 2 * (s - 1))) : Double ℝ) =
      .fin (1 / (q + 1 / 2 * (s - 1))) := by
    rw [Double.one_def, Double.fin_add_fin, Double.fin_div_fin hden.ne']
  obtain ⟨htotal, hweight⟩ := shiftLoop_total hs hq shift 0 total_noTerms
  have hunit : (.fin ((q + ((0 : ℕ) : ℝ)) ^ (-s) / q ^ (-s)) : Double ℝ) = 1 := by
    rw [Nat.cast_zero, add_zero, div_self hqpow.ne', Double.one_def]
  rw [hunit, Nat.cast_zero, add_zero] at htotal hweight
  simp only [zero_add] at htotal hweight
  obtain ⟨n, hn1, hn, hsum, hsmall⟩ := sumSeries_eq (sub_pos.mpr hs).ne' ha hpos
    (hfloor.last_lt hmu hs0 ha) (by norm_num : 1 < 32) (afterCorrections_one hs ha htotal) shift
  refine ⟨n, _, floor, hn1, hn, ?_, hfloor, hsmall, zetaExcess_error hs hq shift (n + 1)⟩
  rw [← hsum, hslSfHZeta0]
  simp only [← hshift, hqshift, hinvQshift, hinvQ, hsub, Double.fin_mul_fin (1 / 2 : ℝ) (s - 1),
    hinvQphsm1, hweight, firstPcp_eq hs hq]
  rfl

/-- All corrections together are not more than a hundred times the sum. -/
theorem Outweighs.sum_le {mu a base floor v : ℝ} (h : Outweighs mu s a base floor)
    (hfloor : floor ≤ v) :
    ((Finset.range 32).sum fun i => |coeff (i + 1)| * (mu * powerDeriv s (2 * i + 1) a)) ≤
      100 * v := by
  have hlater : ((Finset.range 31).sum fun i =>
      |coeff (i + 1 + 1)| * (mu * powerDeriv s (2 * (i + 1) + 1) a)) ≤ 31 * (floor / 2) := by
    have hle := Finset.sum_le_card_nsmul (Finset.range 31) (fun i =>
      |coeff (i + 1 + 1)| * (mu * powerDeriv s (2 * (i + 1) + 1) a)) (floor / 2)
      fun i hi => h.later i (by have := Finset.mem_range.mp hi; omega)
    simpa using hle
  rw [Finset.sum_range_succ' _ 31, zero_add, coeff_one, mul_zero, zero_add,
    abs_of_pos (by norm_num : (0 : ℝ) < 1 / 12)]
  linarith [h.first, h.floor_pos]

/-- Far from the exponent the derivatives of a power grow slowly. -/
theorem powerDeriv_next_le {a : ℝ} (hs : 1 < s) (ha : 0 < a) (hfar : 10 * s ≤ a) {n : ℕ}
    (hn : n < 32) : powerDeriv s (2 * (n + 1) + 1) a ≤ 42 * powerDeriv s (2 * n + 1) a := by
  have hfactor {k : ℕ} : (s + k) / a ≤ (1 + k) / 10 := by
    rw [div_le_div_iff₀ ha (by norm_num)]
    have hk : (0 : ℝ) ≤ k := Nat.cast_nonneg k
    nlinarith
  have hn' : (n : ℝ) ≤ 31 := by exact_mod_cast Nat.le_of_lt_succ hn
  have hproduct : (s + (2 * n + 1 : ℕ)) / a * ((s + (2 * n + 1 + 1 : ℕ)) / a) ≤ 42 := by
    calc _ ≤ ((1 + (2 * n + 1 : ℕ)) / 10 : ℝ) * ((1 + (2 * n + 1 + 1 : ℕ)) / 10) :=
          mul_le_mul hfactor hfactor (by positivity) (by positivity)
      _ ≤ 42 := by
          push_cast
          nlinarith [(Nat.cast_nonneg n : (0 : ℝ) ≤ n)]
  rw [show 2 * (n + 1) + 1 = 2 * n + 1 + 1 + 1 from rfl, powerDeriv_succ ha, powerDeriv_succ ha,
    mul_assoc, mul_comm (42 : ℝ)]
  exact mul_le_mul_of_nonneg_left hproduct (powerDeriv_pos (one_pos.trans hs) ha _).le

/-- Far from the exponent the first correction that is left out is about the last one taken. -/
theorem left_out_le {mu a : ℝ} (hmu : 0 < mu) (hs : 1 < s) (ha : 0 < a) (hfar : 10 * s ≤ a) {n : ℕ}
    (hn : n < 32) : |coeff (n + 2)| * (mu * powerDeriv s (2 * (n + 1) + 1) a) ≤
      42 / 39 * (|coeff (n + 1)| * (mu * powerDeriv s (2 * n + 1) a)) := by
  have hcoeff := coeff_ratio hn
  have hratio := mul_le_mul_of_nonneg_left (powerDeriv_next_le hs ha hfar hn) hmu.le
  have hT := mul_pos hmu (powerDeriv_pos (one_pos.trans hs) ha (2 * (n + 1) + 1))
  calc |coeff (n + 2)| * (mu * powerDeriv s (2 * (n + 1) + 1) a)
      ≤ |coeff (n + 1)| / 39 * (mu * (42 * powerDeriv s (2 * n + 1) a)) :=
        mul_le_mul (by linarith) hratio hT.le (by positivity)
    _ = _ := by ring

/-- The value against the excess of the zeta function: within a hundredth of the bound, and
within six tenths of the value. For `q = 2` and small exponents it is within the precision of
the loop. -/
theorem hslSfHZeta0_error (hs : 1 < s) (hq : 0 < q) :
    ∃ v e : ℝ, hslSfHZeta0 (.fin s) (.fin q) = .ok (.fin v, .fin e) ∧ 0 < v ∧
      100 * |v - zetaExcess s q| ≤ e ∧ |v - zetaExcess s q| ≤ 6 / 10 * v ∧
      (10 * s ≤ q + lnhzetaShift (.fin s : Double ℝ) (.fin q) →
        |v - zetaExcess s q| ≤ 6 / 5 * halfEpsilon * v) := by
  obtain ⟨n, base, floor, hn1, hn, hok, hfloor, hsmall, hexact⟩ := hslSfHZeta0_eq hs hq
  set a : ℝ := q + lnhzetaShift (.fin s : Double ℝ) (.fin q) with hadef
  set mu := relativeUnit s q with hmudef
  set v := seriesSum mu s a base (n + 1) with hv
  have hs0 : 0 < s := one_pos.trans hs
  have ha : 0 < a := by positivity
  have hmu : 0 < mu := relativeUnit_pos hs hq
  have hfl : floor ≤ v := hfloor.floor_le hmu hs0 ha hn
  have hvpos : 0 < v := hfloor.floor_pos.trans_le hfl
  have hsize := hfloor.sum_le hfl
  have herror := seriesSum_error hmu hs0 ha hn (lnhzetaShift (.fin s : Double ℝ) (.fin q))
    hvpos hsize hexact
  -- the rounding of the table and the correction that is left out
  have hround := seriesSum_round hmu hs0 ha hn hsize
  have hsplit := abs_sub_le v (base + (Finset.range (n + 1)).sum fun i =>
    coeff (i + 1) * (mu * powerDeriv s (2 * i + 1) a)) (zetaExcess s q)
  rw [abs_sub_comm] at hexact
  refine ⟨v, _, hok, hvpos, herror, ?_, ?_⟩
  · have hnext := hfloor.later n hn
    linarith
  · intro hfar
    have hclose := tableCoeff_close hn
    have habs := abs_sub_abs_le_abs_sub (coeff (n + 1)) (tableCoeff (n + 1))
    rw [abs_sub_comm (coeff (n + 1))] at habs
    have htable : |coeff (n + 1)| * (1 - 1 / 10 ^ 28) ≤ |(tableCoeff (n + 1) : ℝ)| := by linarith
    have hTn : 0 < mu * powerDeriv s (2 * n + 1) a := mul_pos hmu (powerDeriv_pos hs0 ha _)
    rw [abs_mul, abs_of_pos hTn] at hsmall
    have hleft := left_out_le hmu hs ha hfar hn
    have hthis := mul_le_mul_of_nonneg_right htable hTn.le
    have hround' : 100 * v / 10 ^ 28 ≤ 1 / 100 * (halfEpsilon * v) := by
      have heps : (100 : ℝ) / 10 ^ 28 ≤ 1 / 100 * halfEpsilon := by
        rw [halfEpsilon]
        norm_num
      calc 100 * v / 10 ^ 28 = 100 / 10 ^ 28 * v := by ring
        _ ≤ 1 / 100 * halfEpsilon * v := mul_le_mul_of_nonneg_right heps hvpos.le
        _ = _ := by ring
    linarith

/-! ## The logarithm -/

theorem abs_log_sub_log_le {x y e : ℝ} (hx : 0 < x) (hy : 0 < y) (hxy : x ≤ 3 * y)
    (he : 3 * |x - y| ≤ e) : |Real.log x - Real.log y| ≤ e / x := by
  have hup := Real.log_le_sub_one_of_pos (div_pos hx hy)
  have hdown := Real.log_le_sub_one_of_pos (div_pos hy hx)
  rw [Real.log_div hx.ne' hy.ne'] at hup
  rw [Real.log_div hy.ne' hx.ne'] at hdown
  have hxy' : x / y - 1 ≤ e / x := by
    have h : x / y - 1 = (x - y) / y := by field_simp
    rw [h, div_le_div_iff₀ hy hx]
    have habs := le_abs_self (x - y)
    nlinarith [abs_nonneg (x - y)]
  have hyx' : y / x - 1 ≤ e / x := by
    have h : y / x - 1 = (y - x) / x := by field_simp
    rw [h]
    apply div_le_div_of_nonneg_right _ hx.le
    have habs := neg_abs_le (x - y)
    linarith [abs_nonneg (x - y)]
  rw [abs_le]
  constructor <;> linarith

theorem orNan_ok {α : Type} (failed a : α) : orNan failed (.ok a) = a := rfl

theorem hslSfLnhzetaE_ne_one (hs : 1 < s) (hq : 0 < q) (hq1 : q ≠ 1) :
    ∃ val err : ℝ, hslSfLnhzetaE (.fin s) (.fin q) = .ok ⟨.fin val, .fin err⟩ ∧
      |val - Real.log (hurwitzZeta s q)| ≤ err := by
  obtain ⟨v, e, hok, hv, herror, hnear, -⟩ := hslSfHZeta0_error hs hq
  have hsm1 : 0 < s - 1 := sub_pos.mpr hs
  have hlead : 0 < 1 / 2 + q / (s - 1) := add_pos (by norm_num) (div_pos hq hsm1)
  have hpow : 0 < q ^ (-s) := Real.rpow_pos_of_pos hq _
  have hexcess := zetaExcess_nonneg hs hq
  have hone : 0 < 1 + v := by positivity
  have hminus : -1 < v := neg_one_lt_zero.trans hv
  have hlog : Real.log (hurwitzZeta s q) =
      -s * Real.log q + Real.log (1 / 2 + q / (s - 1)) + Real.log (1 + zetaExcess s q) := by
    rw [← one_add_zetaExcess hs hq, zetaExpansion_zero hq,
      Real.log_mul (mul_pos hpow hlead).ne' (by linarith), Real.log_mul hpow.ne' hlead.ne',
      Real.log_rpow hq]
  refine ⟨-s * Real.log q + Real.log (1 / 2 + q / (s - 1)) + Real.log (1 + v),
    2 * (2 * halfEpsilon) * (|-s * Real.log q| + |Real.log (1 / 2 + q / (s - 1))|) + e / (1 + v),
    ?_, ?_⟩
  · have hbeq : ((.fin q : Double ℝ) == 1) = false := by
      rw [Double.one_def, Double.fin_beq_fin, decide_eq_false hq1]
    rw [hslSfLnhzetaE, hslSfLnhzetaDerivTupleE, hzetaArguments_ok hs hq]
    simp only [bind, Except.bind, hbeq, Bool.false_eq_true, if_false, hok, orNan_ok]
    generalize orNan _ (hslSfHZeta1 (K := ℝ) _ _ _) = derivative
    obtain ⟨hZeta1Value, hZeta1Abserror, ldHzCoeff1⟩ := derivative
    simp only [Double.one_def, Double.fin_sub_fin, Double.fin_div_fin hsm1.ne', Double.fin_add_fin,
      MathLibrary.log_fin hq, MathLibrary.log_fin hlead, MathLibraryC99.log1p_fin hminus,
      Double.neg_fin, Double.fin_mul_fin, Double.fabs_fin, gslDblEpsilon_eq,
      Double.fin_div_fin hone.ne']
    rfl
  · have hstep := abs_log_sub_log_le (x := 1 + v) (y := 1 + zetaExcess s q) (e := e)
      (by linarith) (by linarith) (by linarith [abs_le.mp hnear])
      (by rw [add_sub_add_left_eq_sub]; linarith [abs_nonneg (v - zetaExcess s q)])
    have heps : (0 : ℝ) ≤ 2 * (2 * halfEpsilon) := by linarith [halfEpsilon_pos]
    have hterms := mul_nonneg heps (add_nonneg (abs_nonneg (-s * Real.log q))
      (abs_nonneg (Real.log (1 / 2 + q / (s - 1)))))
    rw [hlog, add_sub_add_left_eq_sub]
    linarith

/-- The excess at two is small for small exponents. -/
theorem zetaExcess_two_le (hs : 1 < s) (hs2 : s < 3 / 2) : zetaExcess s 2 ≤ 1 / 2 := by
  have hsign := zetaExpansion_sign hs two_pos 1
  have hpow : (0 : ℝ) < 2 ^ (-s) := Real.rpow_pos_of_pos two_pos _
  have hone : zetaExpansion s 1 2 = zetaExpansion s 0 2 + 1 / 12 * (s * (2 ^ (-s) / 2)) := by
    rw [zetaExpansion_eq, zetaExpansion_eq, Finset.sum_range_one, Finset.sum_range_zero, zero_add,
      coeff_one, mul_zero, zero_add, powerDeriv_eq two_pos, rising_one, pow_one, add_zero]
  have hunit : relativeUnit s 2 * 2 ^ (-s) ≤ 2 := by
    rw [relativeUnit_eq hs two_pos, div_mul_eq_mul_div, div_le_iff₀ (by positivity)]
    nlinarith
  have hmu := relativeUnit_pos hs two_pos
  calc zetaExcess s 2 ≤ relativeUnit s 2 * (1 / 12 * (s * (2 ^ (-s) / 2))) := by
        apply mul_le_mul_of_nonneg_left _ hmu.le
        linarith
    _ = s / 24 * (relativeUnit s 2 * 2 ^ (-s)) := by ring
    _ ≤ s / 24 * 2 := mul_le_mul_of_nonneg_left hunit (by linarith)
    _ ≤ 1 / 2 := by linarith

/-- The coefficient that the branch for `q = 1` takes out of the sum. -/
theorem zetaExpansion_zero_two (s : ℝ) :
    zetaExpansion s 0 2 = (1 + 4 * (1 / (s - 1))) / 2 ^ (s + 1) := by
  have hcoeff0 : (0 : ℝ) < 2 ^ (s + 1) := Real.rpow_pos_of_pos two_pos _
  have hpow : (2 : ℝ) ^ (s + 1) * 2 ^ (-s) = 2 := by
    rw [← Real.rpow_add two_pos, show s + 1 + -s = 1 by ring, Real.rpow_one]
  rw [zetaExpansion_zero two_pos, eq_div_iff hcoeff0.ne']
  calc (2 : ℝ) ^ (-s) * (1 / 2 + 2 / (s - 1)) * 2 ^ (s + 1)
      = 2 ^ (s + 1) * 2 ^ (-s) * (1 / 2 + 2 / (s - 1)) := by ring
    _ = 1 + 4 * (1 / (s - 1)) := by
        rw [hpow]
        ring

theorem hurwitzZeta_one_eq (hs : 1 < s) :
    hurwitzZeta s 1 = 1 + zetaExpansion s 0 2 * (1 + zetaExcess s 2) := by
  rw [one_add_zetaExcess hs two_pos, hurwitzZeta_shift hs one_pos 1, Finset.sum_range_one,
    Nat.cast_zero, add_zero, Real.one_rpow, Nat.cast_one]
  norm_num

theorem zetaExpansion_zero_two_le (hs : 3 / 2 ≤ s) : zetaExpansion s 0 2 ≤ 9 / 4 := by
  have hfour : (4 : ℝ) ≤ 2 ^ (s + 1) := by
    calc (4 : ℝ) = 2 ^ (2 : ℝ) := by norm_num
      _ ≤ 2 ^ (s + 1) := Real.rpow_le_rpow_of_exponent_le one_le_two (by linarith)
  have hinv : 1 / (s - 1) ≤ 2 := by
    rw [div_le_iff₀ (by linarith)]
    linarith
  rw [zetaExpansion_zero_two, div_le_div_iff₀ (by linarith) (by norm_num)]
  linarith

/-- The error of the sum at two, scaled by the coefficient, is within what the branch reports. -/
theorem scaled_error_le (hs : 1 < s) {v e : ℝ} (hv : 0 < v) (herror : 100 * |v - zetaExcess s 2| ≤ e)
    (hclose : 10 * s ≤ 2 + lnhzetaShift (.fin s : Double ℝ) (.fin 2) →
      |v - zetaExcess s 2| ≤ 6 / 5 * halfEpsilon * v) :
    3 * (zetaExpansion s 0 2 * |v - zetaExcess s 2|) ≤
      2 * (2 * halfEpsilon) * zetaExpansion s 0 2 + e := by
  have hc0 := zetaExpansion_zero_pos hs two_pos
  have heps := halfEpsilon_pos
  have he : 0 ≤ e := le_trans (by positivity) herror
  rcases lt_or_ge s (3 / 2) with hsmall | hlarge
  · -- a large coefficient: the sum is within its own precision
    have hfar : 10 * s ≤ 2 + lnhzetaShift (.fin s : Double ℝ) (.fin 2) := by
      rcases lnhzetaShift_cases s 2 with h | h
      · exact h
      · rw [h]
        norm_num
        linarith
    have hle := hclose hfar
    have hz := zetaExcess_two_le hs hsmall
    have hthousand : halfEpsilon ≤ 1 / 1000 := by
      rw [halfEpsilon]
      norm_num
    have hprecision : 6 / 5 * halfEpsilon * v ≤ 6 / 5 * (1 / 1000) * v :=
      mul_le_mul_of_nonneg_right (by linarith) hv.le
    have hv1 : v ≤ 1 := by linarith [(abs_le.mp hle).2]
    have hhalf : halfEpsilon * v ≤ halfEpsilon * 1 := mul_le_mul_of_nonneg_left hv1 heps.le
    have hall : 3 * |v - zetaExcess s 2| ≤ 2 * (2 * halfEpsilon) := by linarith
    have hscaled := mul_le_mul_of_nonneg_left hall hc0.le
    linarith
  · have hscaled := mul_le_mul_of_nonneg_right (zetaExpansion_zero_two_le hlarge)
      (abs_nonneg (v - zetaExcess s 2))
    have hnonneg : 0 ≤ 2 * (2 * halfEpsilon) * zetaExpansion s 0 2 := by positivity
    linarith [abs_nonneg (v - zetaExcess s 2)]

theorem hslSfLnhzetaE_one (hs : 1 < s) :
    ∃ val err : ℝ, hslSfLnhzetaE (.fin s) (.fin 1) = .ok ⟨.fin val, .fin err⟩ ∧
      |val - Real.log (hurwitzZeta s 1)| ≤ err := by
  obtain ⟨v, e, hok, hv, herror, hnear, hclose⟩ := hslSfHZeta0_error hs two_pos
  have hsm1 : 0 < s - 1 := sub_pos.mpr hs
  have hcoeff0 : (0 : ℝ) < 2 ^ (s + 1) := Real.rpow_pos_of_pos two_pos _
  have hc0 := zetaExpansion_zero_pos hs two_pos
  have hexcess := zetaExcess_nonneg hs two_pos
  have hx : 0 < 1 + zetaExpansion s 0 2 * (v + 1) := by positivity
  refine ⟨Real.log (1 + zetaExpansion s 0 2 * (v + 1)),
    (2 * (2 * halfEpsilon) * zetaExpansion s 0 2 + e) / (1 + zetaExpansion s 0 2 * (v + 1)), ?_, ?_⟩
  · have hbeq : ((.fin 1 : Double ℝ) == 1) = true := by
      rw [Double.one_def, Double.fin_beq_fin, decide_eq_true rfl]
    have hfour : ((4 : ℕ) : Double ℝ) = .fin 4 := by rw [Double.natCast_def, Nat.cast_ofNat]
    have hminus : -1 < zetaExpansion s 0 2 * (v + 1) := neg_one_lt_zero.trans (by positivity)
    rw [hslSfLnhzetaE, hslSfLnhzetaDerivTupleE, hzetaArguments_ok hs one_pos]
    simp only [bind, Except.bind, hbeq, if_true, hok, orNan_ok]
    generalize orNan _ (hslSfHZeta1 (K := ℝ) _ _ _) = derivative
    obtain ⟨hZeta1Value, hZeta1Abserror, ldHzCoeff1⟩ := derivative
    simp only [hfour, Double.one_def, Double.fin_sub_fin, Double.fin_div_fin hsm1.ne',
      Double.fin_mul_fin, Double.fin_add_fin, MathLibraryC99.exp2_fin,
      Double.fin_div_fin hcoeff0.ne', ← zetaExpansion_zero_two, MathLibraryC99.log1p_fin hminus,
      gslDblEpsilon_eq, Double.fin_div_fin hx.ne']
    rfl
  · have hbounds := abs_le.mp hnear
    have hscale : 1 + zetaExpansion s 0 2 * (v + 1) ≤
        3 * (1 + zetaExpansion s 0 2 * (1 + zetaExcess s 2)) := by nlinarith
    have hdiff : |1 + zetaExpansion s 0 2 * (v + 1) -
        (1 + zetaExpansion s 0 2 * (1 + zetaExcess s 2))| =
        zetaExpansion s 0 2 * |v - zetaExcess s 2| := by
      rw [← abs_of_pos hc0, ← abs_mul, abs_of_pos hc0]
      congr 1
      ring
    rw [hurwitzZeta_one_eq hs]
    apply abs_log_sub_log_le hx (by positivity) hscale
    rw [hdiff]
    exact scaled_error_le hs hv herror hclose

/-- For arguments in range the value is as near to the logarithm as the error says. -/
theorem hslSfLnhzetaE_ok (hs : 1 < s) (hq : 0 < q) :
    ∃ val err : ℝ, hslSfLnhzetaE (.fin s) (.fin q) = .ok ⟨.fin val, .fin err⟩ ∧
      |val - Real.log (hurwitzZeta s q)| ≤ err := by
  rcases eq_or_ne q 1 with rfl | hq1
  · exact hslSfLnhzetaE_one hs
  · exact hslSfLnhzetaE_ne_one hs hq hq1

/-- The logarithm fails for arguments out of range only, and otherwise its value is as near to
the logarithm of the zeta function as the error that it reports. -/
theorem hslSfLnhzetaE_error (s q : ℝ) :
    (∃ val err : ℝ, hslSfLnhzetaE (.fin s) (.fin q) = .ok ⟨.fin val, .fin err⟩ ∧ 1 < s ∧ 0 < q ∧
      |val - Real.log (hurwitzZeta s q)| ≤ err) ∨
    (s ≤ 1 ∨ q ≤ 0) ∧
      ∃ e, hslSfLnhzetaE (.fin s : Double ℝ) (.fin q) = .error e ∧ e.errno = .einval := by
  by_cases hargs : s ≤ 1 ∨ q ≤ 0
  · right
    have hfail : ((.fin s : Double ℝ) ≤ 1 ∨ (.fin q : Double ℝ) ≤ 0) := by
      simpa only [Double.one_def, Double.zero_def, Double.fin_le_fin] using hargs
    refine ⟨hargs, ⟨"s must be larger than 1.0 and q must be larger than zero", .einval⟩, ?_, rfl⟩
    rw [hslSfLnhzetaE, hslSfLnhzetaDerivTupleE, hzetaArguments, if_pos hfail]
    rfl
  obtain ⟨hs, hq⟩ := not_or.mp hargs
  rw [not_le] at hs hq
  obtain ⟨val, err, hok, herror⟩ := hslSfLnhzetaE_ok hs hq
  exact .inl ⟨val, err, hok, hs, hq, herror⟩

end LogZeta
end Plfit
