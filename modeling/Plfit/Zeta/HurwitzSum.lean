import Mathlib
import Plfit.Zeta.Coefficients

/-! # The summation of `hzeta.c` and the error that it reports

The loop over the corrections always falls below its precision before the tables end, and the
bound that comes with the sum covers the corrections that are left out and the rounding of the
table.
-/
namespace Plfit
open ExactArithmetic EulerMaclaurin RealHurwitz

/-! ## Terms and corrections -/

/-- The terms on the array are numbers with the sum `x`. -/
def Terms.Total (t : Terms ℝ) (x : ℝ) : Prop :=
  t.ans = .fin x ∧ ∃ xs : List ℝ, t.terms = xs.map .fin ∧ xs.sum = x

theorem total_noTerms : (noTerms : Terms ℝ).Total 0 := ⟨rfl, [], rfl, rfl⟩

theorem Terms.Total.push {t : Terms ℝ} {x : ℝ} (h : t.Total x) (y : ℝ) :
    (t.push (.fin y)).Total (x + y) := by
  obtain ⟨hans, xs, hterms, hsum⟩ := h
  refine ⟨by rw [Terms.push, hans, Double.fin_add_fin], y :: xs, ?_, ?_⟩
  · rw [Terms.push, hterms, List.map_cons]
  · rw [List.sum_cons, hsum, add_comm]

theorem foldl_add_terms (xs : List ℝ) (x : ℝ) :
    (xs.map .fin).foldl (· + ·) (.fin x : Double ℝ) = .fin (x + xs.sum) := by
  induction xs generalizing x with
  | nil => simp
  | cons y xs ih =>
    rw [List.map_cons, List.foldl_cons, Double.fin_add_fin, ih, List.sum_cons, add_assoc]

theorem Terms.Total.sum_eq {t : Terms ℝ} {x : ℝ} (h : t.Total x) : t.sum = .fin x := by
  obtain ⟨-, xs, hterms, hsum⟩ := h
  rw [Terms.sum, hterms, Double.zero_def, foldl_add_terms, zero_add, hsum]

theorem powerDeriv_eq {a : ℝ} (ha : 0 < a) (s : ℝ) (m : ℕ) :
    powerDeriv s m a = rising s m * (a ^ (-s) / a ^ m) := by
  rw [powerDeriv, Real.rpow_sub_natCast ha.ne']

/-- The sum with `n` corrections of the table, in units of `mu`. -/
noncomputable def seriesSum (mu s a base : ℝ) (n : ℕ) : ℝ :=
  base + (Finset.range n).sum fun i =>
    (tableCoeff (i + 1) : ℝ) * (mu * powerDeriv s (2 * i + 1) a)

theorem seriesSum_succ (mu s a base : ℝ) (n : ℕ) : seriesSum mu s a base (n + 1) =
    seriesSum mu s a base n + tableCoeff (n + 1) * (mu * powerDeriv s (2 * n + 1) a) := by
  rw [seriesSum, Finset.sum_range_succ, ← add_assoc]
  rfl

structure AfterCorrections (kappa mu s a base : ℝ) (n : ℕ) (st : Corrections ℝ) : Prop where
  total : st.toTerms.Total (seriesSum mu s a base n)
  tscp : st.tscp = .fin (s + (2 * n : ℕ))
  scp : st.scp = .fin (kappa * rising s (2 * n + 1))
  pcp : st.pcp = .fin (mu / kappa * (a ^ (-s) / a ^ (2 * n + 1)))
  ratio : st.ratio = .fin (mu * powerDeriv s (2 * n + 1) a)

section Loop
variable {kappa mu s a base : ℝ} {n : ℕ} {st : Corrections ℝ}

theorem AfterCorrections.next (h : AfterCorrections kappa mu s a base n st) (hk : kappa ≠ 0)
    (ha : 0 < a) :
    AfterCorrections kappa mu s a base (n + 1)
      (st.next (.fin (1 / a * (1 / a)))
        (.fin (tableCoeff (n + 1) * (mu * powerDeriv s (2 * n + 1) a)))) := by
  have hscp : st.scp * (st.tscp + 1) * (st.tscp + 1 + 1) =
      .fin (kappa * rising s (2 * (n + 1) + 1)) := by
    rw [h.scp, h.tscp, show 2 * (n + 1) + 1 = 2 * n + 1 + 1 + 1 from rfl,
      rising_succ s (2 * n + 1 + 1), rising_succ s (2 * n + 1)]
    simp only [Double.one_def, Double.fin_add_fin, Double.fin_mul_fin]
    congr 1
    push_cast
    ring
  have hpcp : st.pcp * .fin (1 / a * (1 / a)) =
      .fin (mu / kappa * (a ^ (-s) / a ^ (2 * (n + 1) + 1))) := by
    rw [h.pcp, Double.fin_mul_fin]
    congr 1
    field_simp
    ring
  constructor
  · rw [seriesSum_succ]
    exact h.total.push _
  · change st.tscp + 1 + 1 = _
    rw [h.tscp]
    simp only [Double.one_def, Double.fin_add_fin]
    congr 1
    push_cast
    ring
  · exact hscp
  · exact hpcp
  · change st.scp * (st.tscp + 1) * (st.tscp + 1 + 1) * (st.pcp * .fin (1 / a * (1 / a))) = _
    rw [hscp, hpcp, Double.fin_mul_fin, powerDeriv_eq ha]
    congr 1
    field_simp

noncomputable def halfEpsilon : ℝ := ((2.2204460492503131e-16 / 2 : ℚ) : ℝ)

theorem halfEpsilon_pos : (0 : ℝ) < halfEpsilon := by
  rw [halfEpsilon]
  norm_num

theorem gslDblEpsilon_eq : (gslDblEpsilon : Double ℝ) = .fin (2 * halfEpsilon) := by
  rw [gslDblEpsilon, halfEpsilon]
  congr 1
  push_cast
  ring

theorem half_mul_gslDblEpsilon :
    (.fin (1 / 2) * gslDblEpsilon : Double ℝ) = .fin halfEpsilon := by
  rw [gslDblEpsilon, Double.fin_mul_fin, halfEpsilon]
  congr 1
  push_cast
  ring

/-- The loop stops when the last correction of the table is small enough. -/
theorem correctionLoop_stops (hk : kappa ≠ 0) (ha : 0 < a)
    (hpos : ∀ n, 1 ≤ n → n ≤ 32 → 0 < seriesSum mu s a base n)
    (hlast : |(tableCoeff 32 : ℝ) * (mu * powerDeriv s 63 a)| <
      halfEpsilon * seriesSum mu s a base 32) {rounds m : ℕ} (hrounds : m + rounds = 32)
    (hm : m < 32) (h : AfterCorrections kappa mu s a base m st) :
    ∃ n st', correctionLoop id (Corrections.next (.fin (1 / a * (1 / a)))) rounds (m + 1) st =
      some (n + 1, st') ∧ m ≤ n ∧ n < 32 ∧ AfterCorrections kappa mu s a base (n + 1) st' ∧
      |(tableCoeff (n + 1) : ℝ) * (mu * powerDeriv s (2 * n + 1) a)| <
        halfEpsilon * seriesSum mu s a base (n + 1) := by
  induction rounds generalizing m st with
  | zero => omega
  | succ rounds ih =>
    have hnext := h.next hk ha
    have hsum := hpos (m + 1) (by omega) hm
    have hdelta : tableEntry eulermaclaurinSeriesCoeffs (m + 1) * st.ratio =
        .fin (tableCoeff (m + 1) * (mu * powerDeriv s (2 * m + 1) a)) := by
      rw [tableEntry_coeffs hm, h.ratio, Double.fin_mul_fin]
    have htest : Double.fabs (.fin (tableCoeff (m + 1) * (mu * powerDeriv s (2 * m + 1) a)) /
        (st.next (.fin (1 / a * (1 / a)))
          (.fin (tableCoeff (m + 1) * (mu * powerDeriv s (2 * m + 1) a)))).ans) <
          .fin (1 / 2) * gslDblEpsilon ↔
        |(tableCoeff (m + 1) : ℝ) * (mu * powerDeriv s (2 * m + 1) a)| <
          halfEpsilon * seriesSum mu s a base (m + 1) := by
      rw [hnext.total.1, Double.fin_div_fin hsum.ne', Double.fabs_fin, half_mul_gslDblEpsilon,
        Double.fin_lt_fin, abs_div, abs_of_pos hsum, div_lt_iff₀ hsum]
    rw [correctionLoop]
    simp only [id, hdelta]
    by_cases hsmall : |(tableCoeff (m + 1) : ℝ) * (mu * powerDeriv s (2 * m + 1) a)| <
        halfEpsilon * seriesSum mu s a base (m + 1)
    · rw [if_pos (htest.mpr hsmall)]
      exact ⟨m, _, rfl, le_rfl, hm, hnext, hsmall⟩
    · rw [if_neg (htest.not.mpr hsmall)]
      have hm' : m + 1 < 32 := by
        by_contra hend
        obtain rfl : m = 31 := by omega
        exact hsmall hlast
      obtain ⟨n, st', hloop, hmn, hrest⟩ := ih (by omega) hm' hnext
      exact ⟨n, st', hloop, by omega, hrest⟩

theorem sumSeries_eq (hk : kappa ≠ 0) (ha : 0 < a)
    (hpos : ∀ n, 1 ≤ n → n ≤ 32 → 0 < seriesSum mu s a base n)
    (hlast : |(tableCoeff 32 : ℝ) * (mu * powerDeriv s 63 a)| <
      halfEpsilon * seriesSum mu s a base 32) {m : ℕ} (hm : m < 32)
    (h : AfterCorrections kappa mu s a base m st) (shift : ℕ) :
    ∃ n, m ≤ n ∧ n < 32 ∧
      sumSeries id (Corrections.next (.fin (1 / a * (1 / a)))) shift (m + 1) st =
        .ok (.fin (seriesSum mu s a base (n + 1)),
          .fin (2 * ((shift + 1) * (2 * halfEpsilon) * seriesSum mu s a base (n + 1) +
            tableMajorant (n + 1) * (mu * powerDeriv s (2 * (n + 1) + 1) a)))) ∧
      |(tableCoeff (n + 1) : ℝ) * (mu * powerDeriv s (2 * n + 1) a)| <
        halfEpsilon * seriesSum mu s a base (n + 1) := by
  obtain ⟨n, st', hloop, hmn, hn, hst', hsmall⟩ := correctionLoop_stops hk ha hpos hlast
    (show m + (seriesOrder + 1 - (m + 1)) = 32 by unfold seriesOrder; omega) hm h
  refine ⟨n, hmn, hn, ?_, hsmall⟩
  rw [sumSeries, hloop]
  simp only [id, hst'.total.sum_eq, tableEntry_majorantratios (Nat.succ_le_of_lt hn), hst'.ratio,
    Double.natCast_def, Double.one_def, Double.fin_add_fin, Double.fin_mul_fin, Double.fabs_fin,
    gslDblEpsilon_eq, abs_of_pos (hpos (n + 1) (by omega) hn)]

/-- The rounding of the table moves the sum by very little. -/
theorem seriesSum_round (hmu : 0 < mu) (hs : 0 < s) (ha : 0 < a) {n : ℕ} (hn : n < 32)
    (hsize : ((Finset.range 32).sum fun i => |coeff (i + 1)| * (mu * powerDeriv s (2 * i + 1) a)) ≤
      100 * seriesSum mu s a base (n + 1)) :
    |seriesSum mu s a base (n + 1) - (base + (Finset.range (n + 1)).sum fun i =>
      coeff (i + 1) * (mu * powerDeriv s (2 * i + 1) a))| ≤
      100 * seriesSum mu s a base (n + 1) / 10 ^ 28 := by
  have hT (i : ℕ) : 0 < mu * powerDeriv s (2 * i + 1) a := mul_pos hmu (powerDeriv_pos hs ha _)
  rw [seriesSum, add_sub_add_left_eq_sub, ← Finset.sum_sub_distrib, ← seriesSum]
  calc _ ≤ (Finset.range (n + 1)).sum fun i =>
        |(tableCoeff (i + 1) : ℝ) * (mu * powerDeriv s (2 * i + 1) a) -
          coeff (i + 1) * (mu * powerDeriv s (2 * i + 1) a)| := Finset.abs_sum_le_sum_abs _ _
    _ ≤ (Finset.range (n + 1)).sum fun i =>
        |coeff (i + 1)| * (mu * powerDeriv s (2 * i + 1) a) / 10 ^ 28 := by
        apply Finset.sum_le_sum
        intro i hi
        have hi' : i < 32 := by
          have := Finset.mem_range.mp hi
          omega
        rw [← sub_mul, abs_mul, abs_of_pos (hT i), mul_div_right_comm]
        exact mul_le_mul_of_nonneg_right (tableCoeff_close hi') (hT i).le
    _ ≤ (Finset.range 32).sum fun i =>
        |coeff (i + 1)| * (mu * powerDeriv s (2 * i + 1) a) / 10 ^ 28 := by
        apply Finset.sum_le_sum_of_subset_of_nonneg
        · exact Finset.range_mono (by omega)
        · intro i _ _
          exact div_nonneg (mul_nonneg (abs_nonneg _) (hT i).le) (by positivity)
    _ ≤ 100 * seriesSum mu s a base (n + 1) / 10 ^ 28 := by
        rw [← Finset.sum_div]
        exact div_le_div_of_nonneg_right hsize (by positivity)

/-- The bound covers the corrections that are left out and the rounding of the table. -/
theorem seriesSum_error {Z : ℝ} (hmu : 0 < mu) (hs : 0 < s) (ha : 0 < a) {n : ℕ} (hn : n < 32)
    (shift : ℕ) (hpos : 0 < seriesSum mu s a base (n + 1))
    (hsize : ((Finset.range 32).sum fun i => |coeff (i + 1)| * (mu * powerDeriv s (2 * i + 1) a)) ≤
      100 * seriesSum mu s a base (n + 1))
    (hZ : |Z - (base + (Finset.range (n + 1)).sum fun i =>
      coeff (i + 1) * (mu * powerDeriv s (2 * i + 1) a))| ≤
        |coeff (n + 2)| * (mu * powerDeriv s (2 * (n + 1) + 1) a)) :
    100 * |seriesSum mu s a base (n + 1) - Z| ≤
      2 * ((shift + 1) * (2 * halfEpsilon) * seriesSum mu s a base (n + 1) +
        tableMajorant (n + 1) * (mu * powerDeriv s (2 * (n + 1) + 1) a)) := by
  have hT (i : ℕ) : 0 < mu * powerDeriv s (2 * i + 1) a := mul_pos hmu (powerDeriv_pos hs ha _)
  have hround := seriesSum_round hmu hs ha hn hsize
  have hcover : 78 * (|coeff (n + 2)| * (mu * powerDeriv s (2 * (n + 1) + 1) a)) ≤
      tableMajorant (n + 1) * (mu * powerDeriv s (2 * (n + 1) + 1) a) := by
    rw [← mul_assoc]
    exact mul_le_mul_of_nonneg_right (tableMajorant_covers hn) (hT (n + 1)).le
  have hT' := hT (n + 1)
  have hcoeff : 0 ≤ |coeff (n + 2)| * (mu * powerDeriv s (2 * (n + 1) + 1) a) :=
    mul_nonneg (abs_nonneg _) hT'.le
  have hall := abs_sub_le (seriesSum mu s a base (n + 1)) (base + (Finset.range (n + 1)).sum
    fun i => coeff (i + 1) * (mu * powerDeriv s (2 * i + 1) a)) Z
  rw [abs_sub_comm] at hZ
  have hshift : seriesSum mu s a base (n + 1) ≤ (shift + 1) * seriesSum mu s a base (n + 1) :=
    le_mul_of_one_le_left hpos.le (by linarith [(Nat.cast_nonneg shift : (0 : ℝ) ≤ shift)])
  have heps : (10 : ℝ) ^ 4 / 10 ^ 28 ≤ 2 * (2 * halfEpsilon) := by
    rw [halfEpsilon]
    norm_num
  have hsplit : (shift + 1) * (2 * halfEpsilon) * seriesSum mu s a base (n + 1) =
      2 * halfEpsilon * ((shift + 1) * seriesSum mu s a base (n + 1)) := by ring
  have hfirst : 10 ^ 4 / 10 ^ 28 * seriesSum mu s a base (n + 1) ≤
      2 * (2 * halfEpsilon) * ((shift + 1) * seriesSum mu s a base (n + 1)) :=
    mul_le_mul heps hshift hpos.le (by rw [halfEpsilon]; norm_num)
  rw [hsplit]
  linarith

end Loop

/-! ## The zeta function -/

section Zeta
variable {s q : ℝ}

theorem total_head (hq : 0 < q) (s : ℝ) (n : ℕ) :
    ((List.range n).foldl (fun (terms : Terms ℝ) (j : ℕ) =>
      terms.push (MathLibrary.pow ((j : Double ℝ) + .fin q) (-.fin s))) noTerms).Total
      ((Finset.range n).sum fun k => (q + k) ^ (-s)) := by
  induction n with
  | zero => exact total_noTerms
  | succ n ih =>
    have hpos : 0 < (n : ℝ) + q := by positivity
    rw [List.range_succ, List.foldl_append, Finset.sum_range_succ, List.foldl_cons, List.foldl_nil,
      Double.natCast_def, Double.fin_add_fin, Double.neg_fin, MathLibrary.pow_fin hpos,
      add_comm (n : ℝ)]
    exact ih.push _

theorem tableCoeff_le {i : ℕ} (hi : i < 32) : |(tableCoeff (i + 1) : ℝ)| ≤ 2 * |coeff (i + 1)| := by
  have hclose := tableCoeff_close hi
  have hsmall : |coeff (i + 1)| / 10 ^ 28 ≤ |coeff (i + 1)| :=
    div_le_self (abs_nonneg _) (by norm_num)
  have := abs_sub_abs_le_abs_sub (tableCoeff (i + 1) : ℝ) (coeff (i + 1))
  linarith

/-- The corrections together are small against the first term. -/
theorem sum_corrections_le (hs : 0 < s) (hq : 0 < q) {n : ℕ} (hn : n ≤ 32) :
    ((Finset.range n).sum fun i => |coeff (i + 1)| * powerDeriv s (2 * i + 1) (q + 10)) ≤
      q ^ (-s) / 50 := by
  have hpos : 0 < q ^ (-s) := Real.rpow_pos_of_pos hq _
  calc _ ≤ (Finset.range 33).sum fun i =>
        |coeff (i + 1)| * powerDeriv s (2 * i + 1) (q + 10) := by
        apply Finset.sum_le_sum_of_subset_of_nonneg (Finset.range_mono (by omega))
        intro i _ _
        exact mul_nonneg (abs_nonneg _) (powerDeriv_pos hs (by positivity) _).le
    _ ≤ (Finset.range 33).sum fun i => (correctionShare (coeffRat i) i : ℝ) * q ^ (-s) := by
        apply Finset.sum_le_sum
        intro i _
        have h := coeff_powerDeriv_le hs (by linarith : 10 < q + 10) i
        rwa [add_sub_cancel_right] at h
    _ ≤ 1 / 50 * q ^ (-s) := by
        rw [← Finset.sum_mul]
        exact mul_le_mul_of_nonneg_right sum_correctionShare hpos.le
    _ = q ^ (-s) / 50 := by ring

theorem seriesSum_ge {base : ℝ} (hs : 0 < s) (hq : 0 < q) (hbase : q ^ (-s) ≤ base) {n : ℕ}
    (hn : n ≤ 32) : q ^ (-s) / 2 ≤ seriesSum 1 s (q + 10) base n := by
  have hT (i : ℕ) : 0 < powerDeriv s (2 * i + 1) (q + 10) := powerDeriv_pos hs (by positivity) _
  have hsum : |(Finset.range n).sum fun i =>
      (tableCoeff (i + 1) : ℝ) * (1 * powerDeriv s (2 * i + 1) (q + 10))| ≤
      2 * (q ^ (-s) / 50) := by
    calc _ ≤ (Finset.range n).sum fun i =>
          |(tableCoeff (i + 1) : ℝ) * (1 * powerDeriv s (2 * i + 1) (q + 10))| :=
          Finset.abs_sum_le_sum_abs _ _
      _ ≤ (Finset.range n).sum fun i =>
          2 * (|coeff (i + 1)| * powerDeriv s (2 * i + 1) (q + 10)) := by
          apply Finset.sum_le_sum
          intro i hi
          have hi' : i < 32 := (Finset.mem_range.mp hi).trans_le hn
          rw [one_mul, abs_mul, abs_of_pos (hT i), ← mul_assoc]
          exact mul_le_mul_of_nonneg_right (tableCoeff_le hi') (hT i).le
      _ ≤ 2 * (q ^ (-s) / 50) := by
          rw [← Finset.mul_sum]
          exact mul_le_mul_of_nonneg_left (sum_corrections_le hs hq hn) zero_le_two
  have hpos : 0 < q ^ (-s) := Real.rpow_pos_of_pos hq _
  have := neg_abs_le ((Finset.range n).sum fun i =>
    (tableCoeff (i + 1) : ℝ) * (1 * powerDeriv s (2 * i + 1) (q + 10)))
  rw [seriesSum]
  linarith

theorem hzetaEulerMaclaurin_error (hs : 1 < s) (hq : 0 < q) :
    ∃ val err : ℝ, hzetaEulerMaclaurin (.fin s) (.fin q) = .ok ⟨.fin val, .fin err⟩ ∧
      |val - hurwitzZeta s q| ≤ err := by
  have hs0 : 0 < s := one_pos.trans hs
  have ha : 0 < q + 10 := by linarith
  have hpos : 0 < q ^ (-s) := Real.rpow_pos_of_pos hq _
  set head : ℝ := (Finset.range 10).sum fun k => (q + (k : ℝ)) ^ (-s) with hhead
  set base : ℝ := head + 1 / 2 * (q + 10) ^ (-s) + (q + 10) ^ (-s) * (q + 10) * (1 / (s - 1))
    with hbase
  have hfirst : q ^ (-s) ≤ base := by
    have hterm : q ^ (-s) ≤ head := by
      have h := Finset.single_le_sum (s := Finset.range 10) (f := fun k : ℕ => (q + k) ^ (-s))
        (fun k _ => Real.rpow_nonneg (by positivity) _) (Finset.mem_range.mpr (by norm_num : 0 < 10))
      simpa using h
    have hhalf : 0 < (q + 10) ^ (-s) := Real.rpow_pos_of_pos ha _
    have hint : 0 < (q + 10) ^ (-s) * (q + 10) * (1 / (s - 1)) :=
      mul_pos (mul_pos hhalf ha) (one_div_pos.mpr (sub_pos.mpr hs))
    rw [hbase]
    linarith
  have hge {n : ℕ} (hn : n ≤ 32) := seriesSum_ge hs0 hq hfirst hn
  have hsums (n : ℕ) (_ : 1 ≤ n) (hn : n ≤ 32) : 0 < seriesSum 1 s (q + 10) base n := by
    linarith [hge hn]
  have hlast : |(tableCoeff 32 : ℝ) * (1 * powerDeriv s 63 (q + 10))| <
      halfEpsilon * seriesSum 1 s (q + 10) base 32 := by
    have hT : 0 < powerDeriv s 63 (q + 10) := powerDeriv_pos hs0 ha _
    have hshare := coeff_powerDeriv_le hs0 (by linarith : 10 < q + 10) 31
    rw [add_sub_cancel_right] at hshare
    have hsmall : |(tableCoeff 32 : ℝ) * (1 * powerDeriv s 63 (q + 10))| ≤
        2 * (1 / 10 ^ 20 * q ^ (-s)) := by
      rw [one_mul, abs_mul, abs_of_pos hT]
      calc |(tableCoeff 32 : ℝ)| * powerDeriv s 63 (q + 10)
          ≤ 2 * |coeff 32| * powerDeriv s 63 (q + 10) :=
            mul_le_mul_of_nonneg_right (tableCoeff_le (by norm_num : 31 < 32)) hT.le
        _ = 2 * (|coeff 32| * powerDeriv s 63 (q + 10)) := mul_assoc _ _ _
        _ ≤ 2 * (1 / 10 ^ 20 * q ^ (-s)) := by
            apply mul_le_mul_of_nonneg_left _ zero_le_two
            exact hshare.trans (mul_le_mul_of_nonneg_right last_correctionShare hpos.le)
    have heps : (2 * (1 / 10 ^ 20) : ℝ) < halfEpsilon / 2 := by
      rw [halfEpsilon]
      norm_num
    calc |(tableCoeff 32 : ℝ) * (1 * powerDeriv s 63 (q + 10))|
        ≤ 2 * (1 / 10 ^ 20) * q ^ (-s) := by linarith
      _ < halfEpsilon / 2 * q ^ (-s) := mul_lt_mul_of_pos_right heps hpos
      _ = halfEpsilon * (q ^ (-s) / 2) := by ring
      _ ≤ halfEpsilon * seriesSum 1 s (q + 10) base 32 :=
          mul_le_mul_of_nonneg_left (hge le_rfl) (by rw [halfEpsilon]; norm_num)
  have hqshift : (seriesShift : Double ℝ) + .fin q = .fin (q + 10) := by
    rw [seriesShift, Double.natCast_def, Double.fin_add_fin, add_comm]
    congr 1
  have hsm1 : (1 / (.fin s - 1) : Double ℝ) = .fin (1 / (s - 1)) := by
    rw [Double.one_def, Double.fin_sub_fin, Double.fin_div_fin (sub_pos.mpr hs).ne']
  have hstart : AfterCorrections 1 1 s (q + 10) base 0
      { toTerms := (((List.range seriesShift).foldl (fun (terms : Terms ℝ) (j : ℕ) =>
          terms.push (MathLibrary.pow ((j : Double ℝ) + .fin q) (-.fin s))) noTerms).push
            (.fin (1 / 2 * (q + 10) ^ (-s)))).push
              (.fin ((q + 10) ^ (-s) * (q + 10) * (1 / (s - 1))))
        tscp := .fin s, scp := .fin s, pcp := .fin ((q + 10) ^ (-s) * (1 / (q + 10)))
        ratio := .fin (s * ((q + 10) ^ (-s) * (1 / (q + 10)))) } := by
    constructor
    · have hsum : seriesSum 1 s (q + 10) base 0 = base := by simp [seriesSum]
      rw [hsum, hbase]
      exact ((total_head hq s 10).push _).push _
    · simp
    · simp [rising_one]
    · simp [div_eq_mul_inv]
    · simp [powerDeriv_eq ha, rising_one, div_eq_mul_inv]
  obtain ⟨n, -, hn, hsum, -⟩ := sumSeries_eq one_ne_zero ha hsums hlast (by norm_num : 0 < 32) hstart
    seriesShift
  have hok : hzetaEulerMaclaurin (.fin s) (.fin q) =
      .ok ⟨.fin (seriesSum 1 s (q + 10) base (n + 1)),
        .fin (2 * ((seriesShift + 1) * (2 * halfEpsilon) * seriesSum 1 s (q + 10) base (n + 1) +
          tableMajorant (n + 1) * (1 * powerDeriv s (2 * (n + 1) + 1) (q + 10))))⟩ := by
    have hinv : (1 / .fin (q + 10) : Double ℝ) = .fin (1 / (q + 10)) := by
      rw [Double.one_def, Double.fin_div_fin ha.ne']
    have hpmax : MathLibrary.pow (.fin (q + 10)) (-.fin s) = .fin ((q + 10) ^ (-s)) := by
      rw [Double.neg_fin, MathLibrary.pow_fin ha]
    dsimp only at hsum
    rw [zero_add] at hsum
    simp only [hzetaEulerMaclaurin, hqshift, hsm1, hinv, hpmax, Double.fin_mul_fin, hsum]
    rfl
  refine ⟨_, _, hok, ?_⟩
  have hZ := zetaExpansion_error hs ha (n + 1)
  have hshift := hurwitzZeta_shift hs hq 10
  have hcast : q + ((10 : ℕ) : ℝ) = q + 10 := by norm_num
  have hexp : (q + 10) ^ (1 - s) = (q + 10) ^ (-s) * (q + 10) := by
    rw [show 1 - s = -s + 1 by ring, Real.rpow_add_one ha.ne']
  rw [zetaExpansion_eq, hexp] at hZ
  rw [hcast] at hshift
  have hsize : ((Finset.range 32).sum fun i =>
      |coeff (i + 1)| * (1 * powerDeriv s (2 * i + 1) (q + 10))) ≤
      100 * seriesSum 1 s (q + 10) base (n + 1) := by
    simp only [one_mul]
    linarith [sum_corrections_le hs0 hq le_rfl, hge (Nat.succ_le_of_lt hn)]
  have hexact : |hurwitzZeta s q - (base + (Finset.range (n + 1)).sum fun i =>
      coeff (i + 1) * (1 * powerDeriv s (2 * i + 1) (q + 10)))| ≤
      |coeff (n + 2)| * (1 * powerDeriv s (2 * (n + 1) + 1) (q + 10)) := by
    simp only [one_mul]
    refine le_of_eq_of_le ?_ hZ
    rw [hshift, hbase]
    congr 1
    ring
  have herror := seriesSum_error one_pos hs0 ha hn seriesShift (hsums (n + 1) (by omega) hn) hsize
    hexact
  have hnonneg := abs_nonneg (seriesSum 1 s (q + 10) base (n + 1) - hurwitzZeta s q)
  exact le_trans (by linarith) herror

/-! ## The branches for large exponents -/

theorem hurwitzZeta_le_of_large {a : ℝ} (hs : 27 ≤ s) (ha1 : 1 ≤ a) (ha4 : a ≤ 4) :
    hurwitzZeta s a ≤ s / 9 * a ^ (-s) := by
  have ha : 0 < a := one_pos.trans_le ha1
  have hpos : 0 < a ^ (-s) := Real.rpow_pos_of_pos ha _
  have hsign := zetaExpansion_sign (by linarith : 1 < s) ha 1
  have hexp : a ^ (1 - s) = a ^ (-s) * a := by
    rw [show 1 - s = -s + 1 by ring, Real.rpow_add_one ha.ne']
  rw [zetaExpansion_eq, Finset.sum_range_one, coeff_one, hexp, mul_zero, zero_add, powerDeriv_eq ha,
    rising_one, pow_one, pow_one] at hsign
  have hfirst : a ^ (-s) * a / (s - 1) ≤ a ^ (-s) * (4 / 26) := by
    rw [mul_div_assoc]
    exact mul_le_mul_of_nonneg_left
      (div_le_div₀ (by norm_num) ha4 (by norm_num) (by linarith)) hpos.le
  have hlast : s * (a ^ (-s) / a) ≤ s * a ^ (-s) :=
    mul_le_mul_of_nonneg_left (div_le_self hpos.le ha1) (by linarith)
  have hscale : 24 * a ^ (-s) ≤ s * a ^ (-s) := mul_le_mul_of_nonneg_right (by linarith) hpos.le
  linarith

/-- A power that falls by half at each step outweighs a linear factor. -/
theorem mul_rpow_le_of_le {b : ℝ} {s₀ : ℕ} (hb : 0 < b) (hhalf : b ≤ 1 / 2) (hs₀ : 2 ≤ s₀)
    (hs : s₀ ≤ s) : s * b ^ s ≤ s₀ * b ^ s₀ := by
  have hstart : (2 : ℝ) ≤ s₀ := by exact_mod_cast hs₀
  obtain ⟨t, ht, rfl⟩ : ∃ t, 0 ≤ t ∧ s = s₀ + t := ⟨s - s₀, by linarith, by ring⟩
  have hgrow : 1 + t / 2 ≤ (2 : ℝ) ^ t := by
    rw [Real.rpow_def_of_pos two_pos]
    have hlog : t / 2 ≤ Real.log 2 * t := by nlinarith [Real.log_two_gt_d9]
    linarith [Real.add_one_le_exp (Real.log 2 * t)]
  have hfall : b ^ t * 2 ^ t ≤ 1 := by
    rw [← Real.mul_rpow hb.le zero_le_two]
    exact Real.rpow_le_one (by positivity) (by linarith) ht
  have hlinear : (s₀ : ℝ) + t ≤ s₀ * 2 ^ t := by
    have h := mul_le_mul_of_nonneg_left hgrow (by linarith : (0 : ℝ) ≤ s₀)
    nlinarith
  have hpow : 0 ≤ b ^ t := Real.rpow_nonneg hb.le t
  rw [Real.rpow_add hb, Real.rpow_natCast]
  calc ((s₀ : ℝ) + t) * (b ^ s₀ * b ^ t) ≤ s₀ * 2 ^ t * (b ^ s₀ * b ^ t) :=
        mul_le_mul_of_nonneg_right hlinear (mul_nonneg (by positivity) hpow)
    _ = s₀ * b ^ s₀ * (b ^ t * 2 ^ t) := by ring
    _ ≤ s₀ * b ^ s₀ * 1 := mul_le_mul_of_nonneg_left hfall (by positivity)
    _ = s₀ * b ^ s₀ := mul_one _

/-- The tail of the series, relative to its first term. -/
theorem hurwitzZeta_tail_le (s₀ : ℕ) {b n : ℝ} (hb : 0 < b) (hhalf : b ≤ 1 / 2) (hs₀ : 27 ≤ s₀)
    (hs : s₀ ≤ s) (hq : 0 < q) (hq1 : q ≤ 1) (hn : 1 ≤ n) (hn3 : n ≤ 3) (hqb : q ≤ b * (q + n)) :
    hurwitzZeta s (q + n) ≤ s₀ * b ^ s₀ / 9 * q ^ (-s) := by
  have hstart : (27 : ℝ) ≤ s₀ := by exact_mod_cast hs₀
  have hpos : 0 < q ^ (-s) := Real.rpow_pos_of_pos hq _
  have hrel : (q + n) ^ (-s) ≤ b ^ s * q ^ (-s) := by
    have hle : q ^ s ≤ b ^ s * (q + n) ^ s := by
      rw [← Real.mul_rpow hb.le (by linarith)]
      exact Real.rpow_le_rpow hq.le hqb (by linarith)
    rw [Real.rpow_neg hq.le, Real.rpow_neg (by linarith), ← div_eq_mul_inv, inv_eq_one_div,
      div_le_div_iff₀ (Real.rpow_pos_of_pos (by linarith) _) (Real.rpow_pos_of_pos hq _), one_mul]
    exact hle
  calc hurwitzZeta s (q + n) ≤ s / 9 * (q + n) ^ (-s) :=
        hurwitzZeta_le_of_large (by linarith) (by linarith) (by linarith)
    _ ≤ s / 9 * (b ^ s * q ^ (-s)) := mul_le_mul_of_nonneg_left hrel (by linarith)
    _ = s * b ^ s / 9 * q ^ (-s) := by ring
    _ ≤ s₀ * b ^ s₀ / 9 * q ^ (-s) := by
        apply mul_le_mul_of_nonneg_right _ hpos.le
        exact div_le_div_of_nonneg_right (mul_rpow_le_of_le hb hhalf (by omega) hs) (by norm_num)

/-- The terms after the first are negligible for large exponents. -/
theorem hurwitzZeta_add_one_le (hq : 0 < q)
    (hlarge : 54 < s ∧ q < 1 ∨ 27 < s ∧ q < 1 / 4) :
    hurwitzZeta s (q + 1) ≤ 2 * (2 * halfEpsilon) * q ^ (-s) := by
  have hpos : 0 < q ^ (-s) := Real.rpow_pos_of_pos hq _
  have hbound (s₀ : ℕ) {b : ℝ} (hb : 0 < b) (hhalf : b ≤ 1 / 2) (hs₀ : 27 ≤ s₀) (hs' : s₀ ≤ s)
      (hq1 : q ≤ 1) (hqb : q ≤ b * (q + 1))
      (hnum : (s₀ : ℝ) * b ^ s₀ / 9 ≤ 2 * (2 * halfEpsilon)) :
      hurwitzZeta s (q + 1) ≤ 2 * (2 * halfEpsilon) * q ^ (-s) :=
    (hurwitzZeta_tail_le s₀ hb hhalf hs₀ hs' hq hq1 le_rfl (by norm_num) hqb).trans
      (mul_le_mul_of_nonneg_right hnum hpos.le)
  rcases hlarge with ⟨hs', hq1⟩ | ⟨hs', hq4⟩
  · apply hbound 54 (b := 1 / 2) (by norm_num) le_rfl (by norm_num) (by exact_mod_cast hs'.le)
      hq1.le (by linarith)
    rw [halfEpsilon]
    norm_num
  · apply hbound 27 (b := 1 / 5) (by norm_num) (by norm_num) le_rfl (by exact_mod_cast hs'.le)
      (by linarith) (by linarith)
    rw [halfEpsilon]
    norm_num

/-- The terms after the first three are negligible for smaller exponents as well. -/
theorem hurwitzZeta_add_three_le (hs : 27 < s) (hq : 0 < q) (hq1 : q < 1) :
    hurwitzZeta s (q + 3) ≤ 2 * halfEpsilon * (2 + 1 / 2 * s) *
      (q ^ (-s) + (q + 1) ^ (-s) + (q + 2) ^ (-s)) := by
  have hpos : 0 < q ^ (-s) := Real.rpow_pos_of_pos hq _
  have hrest : 0 ≤ (q + 1) ^ (-s) + (q + 2) ^ (-s) := by positivity
  have heps := halfEpsilon_pos
  have htail := hurwitzZeta_tail_le 27 (b := 1 / 4) (by norm_num) (by norm_num) le_rfl
    (by exact_mod_cast hs.le) hq hq1.le (by norm_num : (1 : ℝ) ≤ 3) le_rfl (by linarith)
  calc hurwitzZeta s (q + 3) ≤ _ := htail
    _ ≤ 2 * halfEpsilon * (2 + 1 / 2 * 27) * q ^ (-s) := by
        apply mul_le_mul_of_nonneg_right _ hpos.le
        rw [halfEpsilon]
        norm_num
    _ ≤ 2 * halfEpsilon * (2 + 1 / 2 * s) * q ^ (-s) := by
        apply mul_le_mul_of_nonneg_right _ hpos.le
        exact mul_le_mul_of_nonneg_left (by linarith) (by linarith)
    _ ≤ 2 * halfEpsilon * (2 + 1 / 2 * s) * (q ^ (-s) + (q + 1) ^ (-s) + (q + 2) ^ (-s)) := by
        apply mul_le_mul_of_nonneg_left (by linarith)
        exact mul_nonneg (by linarith) (by linarith)

/-- The function takes the first term out of the powers. -/
theorem three_terms_eq (hq : 0 < q) :
    q ^ (-s) * (1 + (q / (1 + q)) ^ s + (q / (2 + q)) ^ s) =
      q ^ (-s) + (q + 1) ^ (-s) + (q + 2) ^ (-s) := by
  have hterm {n : ℝ} (hn : 0 < n) : q ^ (-s) * (q / (n + q)) ^ s = (q + n) ^ (-s) := by
    have hqn : 0 < n + q := by linarith
    rw [Real.div_rpow hq.le hqn.le, Real.rpow_neg hq.le, Real.rpow_neg (by linarith), add_comm n]
    have hne : q ^ s ≠ 0 := (Real.rpow_pos_of_pos hq s).ne'
    field_simp
  rw [mul_add, mul_add, mul_one, hterm one_pos, hterm two_pos]

theorem hzetaArguments_ok (hs : 1 < s) (hq : 0 < q) :
    hzetaArguments (.fin s : Double ℝ) (.fin q) = .ok () := by
  rw [hzetaArguments, if_neg]
  simp only [Double.one_def, Double.zero_def, Double.fin_le_fin]
  exact not_or.mpr ⟨not_le.mpr hs, not_le.mpr hq⟩

/-- For arguments in range the function succeeds, and the error is within the reported bound. -/
theorem hslSfHzetaE_ok (hs : 1 < s) (hq : 0 < q)
    (hlow : ¬ -s * Real.log q < ((-7.0839641853226408e+02 : ℚ) : ℝ) + 1)
    (hhigh : ¬ ((7.0978271289338397e+02 : ℚ) : ℝ) - 1 < -s * Real.log q) :
    ∃ val err : ℝ, hslSfHzetaE (.fin s) (.fin q) = .ok ⟨.fin val, .fin err⟩ ∧
      |val - hurwitzZeta s q| ≤ err := by
  have hrange : hzetaRange (-(.fin s) * MathLibrary.log (.fin q) : Double ℝ) = .ok () := by
    rw [MathLibrary.log_fin hq, Double.neg_fin, Double.fin_mul_fin, hzetaRange, gslLogDblMin,
      gslLogDblMax, Double.one_def, Double.fin_add_fin, Double.fin_sub_fin,
      if_neg (Double.fin_lt_fin.not.mpr hlow), if_neg (Double.fin_lt_fin.not.mpr hhigh)]
  have hpos : 0 < q ^ (-s) := Real.rpow_pos_of_pos hq _
  have htwentySeven : 1 / 2 * ((54 : ℕ) : ℝ) = 27 := by norm_num
  rw [hslSfHzetaE, hzetaArguments_ok hs hq, hrange]
  simp only [bind, Except.bind, pure, Except.pure, Double.natCast_def, Double.one_def,
    Double.fin_mul_fin, Double.fin_lt_fin, Double.neg_fin, MathLibrary.pow_fin hq,
    Double.fin_add_fin, gslDblEpsilon_eq, Double.fabs_fin, htwentySeven]
  by_cases hfirst : ((54 : ℕ) : ℝ) < s ∧ q < 1 ∨ 27 < s ∧ q < 1 / 4
  · rw [if_pos hfirst]
    refine ⟨_, _, rfl, ?_⟩
    have hshift := hurwitzZeta_shift hs hq 1
    have htail := hurwitzZeta_add_one_le hq (by exact_mod_cast hfirst)
    rw [Finset.sum_range_one, Nat.cast_zero, add_zero, Nat.cast_one] at hshift
    rw [hshift, abs_of_pos hpos, sub_add_cancel_left, abs_neg,
      abs_of_pos (hurwitzZeta_pos hs (by linarith))]
    exact htail
  · rw [if_neg hfirst]
    by_cases hsecond : 27 < s ∧ q < 1
    · rw [if_pos hsecond, Double.fin_div_fin (by linarith), Double.fin_div_fin (by linarith),
        MathLibrary.pow_fin (by positivity), MathLibrary.pow_fin (by positivity)]
      refine ⟨_, _, rfl, ?_⟩
      have hshift := hurwitzZeta_shift hs hq 3
      have hsum : 0 < q ^ (-s) + (q + 1) ^ (-s) + (q + 2) ^ (-s) := by positivity
      simp only [Finset.sum_range_succ, Finset.sum_range_zero, Nat.cast_zero, Nat.cast_one,
        Nat.cast_ofNat, add_zero, zero_add] at hshift
      rw [three_terms_eq hq, hshift, sub_add_cancel_left, abs_neg,
        abs_of_pos (hurwitzZeta_pos hs (by linarith)), abs_of_pos hsum]
      exact hurwitzZeta_add_three_le hsecond.1 hq hsecond.2
    · rw [if_neg hsecond]
      exact hzetaEulerMaclaurin_error hs hq

/-- The function fails for arguments out of range only, and otherwise the value that it gives
is as near to the zeta function as the error that it reports. -/
theorem hslSfHzetaE_error (s q : ℝ) :
    (∃ val err : ℝ, hslSfHzetaE (.fin s) (.fin q) = .ok ⟨.fin val, .fin err⟩ ∧ 1 < s ∧ 0 < q ∧
      ((-7.0839641853226408e+02 : ℚ) : ℝ) + 1 ≤ -s * Real.log q ∧
      -s * Real.log q ≤ ((7.0978271289338397e+02 : ℚ) : ℝ) - 1 ∧
      |val - hurwitzZeta s q| ≤ err) ∨
    ∃ e, hslSfHzetaE (.fin s : Double ℝ) (.fin q) = .error e ∧
      (e.errno = .einval ∧ (s ≤ 1 ∨ q ≤ 0) ∨
        1 < s ∧ 0 < q ∧
          (e.errno = .undrflow ∧ -s * Real.log q < ((-7.0839641853226408e+02 : ℚ) : ℝ) + 1 ∨
            e.errno = .overflow ∧ ((7.0978271289338397e+02 : ℚ) : ℝ) - 1 < -s * Real.log q)) := by
  by_cases hargs : s ≤ 1 ∨ q ≤ 0
  · right
    have hfail : ((.fin s : Double ℝ) ≤ 1 ∨ (.fin q : Double ℝ) ≤ 0) := by
      simpa only [Double.one_def, Double.zero_def, Double.fin_le_fin] using hargs
    refine ⟨⟨"s must be larger than 1.0 and q must be larger than zero", .einval⟩, ?_,
      Or.inl ⟨rfl, hargs⟩⟩
    rw [hslSfHzetaE, hzetaArguments, if_pos hfail]
    rfl
  obtain ⟨hs, hq⟩ := not_or.mp hargs
  rw [not_le] at hs hq
  have hpass : ¬ ((.fin s : Double ℝ) ≤ 1 ∨ (.fin q : Double ℝ) ≤ 0) := by
    simpa only [Double.one_def, Double.zero_def, Double.fin_le_fin] using hargs
  have hterm : (-(.fin s) * MathLibrary.log (.fin q) : Double ℝ) = .fin (-s * Real.log q) := by
    rw [MathLibrary.log_fin hq, Double.neg_fin, Double.fin_mul_fin]
  have hmin : (gslLogDblMin + 1 : Double ℝ) = .fin (((-7.0839641853226408e+02 : ℚ) : ℝ) + 1) := rfl
  have hmax : (gslLogDblMax - 1 : Double ℝ) = .fin (((7.0978271289338397e+02 : ℚ) : ℝ) - 1) := by
    rw [gslLogDblMax, Double.one_def, Double.fin_sub_fin]
  by_cases hlow : -s * Real.log q < ((-7.0839641853226408e+02 : ℚ) : ℝ) + 1
  · right
    refine ⟨⟨"underflow", .undrflow⟩, ?_, Or.inr ⟨hs, hq, Or.inl ⟨rfl, hlow⟩⟩⟩
    rw [hslSfHzetaE, hzetaArguments, if_neg hpass, hterm, hzetaRange, hmin,
      if_pos (Double.fin_lt_fin.mpr hlow)]
    rfl
  by_cases hhigh : ((7.0978271289338397e+02 : ℚ) : ℝ) - 1 < -s * Real.log q
  · right
    refine ⟨⟨"overflow", .overflow⟩, ?_, Or.inr ⟨hs, hq, Or.inr ⟨rfl, hhigh⟩⟩⟩
    rw [hslSfHzetaE, hzetaArguments, if_neg hpass, hterm, hzetaRange, hmin, hmax,
      if_neg (Double.fin_lt_fin.not.mpr hlow), if_pos (Double.fin_lt_fin.mpr hhigh)]
    rfl
  left
  obtain ⟨val, err, hok, herror⟩ := hslSfHzetaE_ok hs hq hlow hhigh
  exact ⟨val, err, hok, hs, hq, not_lt.mp hlow, not_lt.mp hhigh, herror⟩

end Zeta
end Plfit
