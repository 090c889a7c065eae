import Mathlib
import Plfit.Model.PValue

/-! # The range of the Kolmogorov distribution function

The two pieces in the middle are truncated series. The upper one alternates and decreases, so that it
stays below its first term; in the lower one the first term bounds the others, and a quadratic bounds
the exponential from below.
-/
namespace Plfit
open ExactArithmetic

section Alternating
variable {K : Type} [Field K] [LinearOrder K] [IsStrictOrderedRing K] {f : ℕ → K}

/-- A truncated alternating series of decreasing terms is between zero and its first term. -/
theorem alternatingSum_mem_Icc (hf : Antitone f) (hnonneg : ∀ i, 0 ≤ f i) (n : ℕ) :
    ∑ i ∈ Finset.range n, (-1) ^ i * f i ∈ Set.Icc 0 (f 0) := by
  induction n generalizing f with
  | zero => exact ⟨le_rfl, hnonneg 0⟩
  | succ n ih =>
    -- behind its first term the series is one with the opposite sign
    obtain ⟨hlow, hhigh⟩ := ih (f := fun i => f (i + 1)) (fun i j hij => hf (Nat.succ_le_succ hij))
      fun i => hnonneg (i + 1)
    have hshift : ∑ i ∈ Finset.range n, (-1) ^ (i + 1) * f (i + 1) =
        -∑ i ∈ Finset.range n, (-1) ^ i * f (i + 1) := by
      rw [← Finset.sum_neg_distrib]
      apply Finset.sum_congr rfl
      intro i _
      rw [pow_succ]
      ring
    have hfirst : f 1 ≤ f 0 := hf zero_le_one
    rw [Finset.sum_range_succ', hshift, pow_zero, one_mul]
    constructor
    · linarith
    · linarith

end Alternating

/-! ## The upper piece -/

section Terms

noncomputable def seriesTerm (v : ℝ) (j : ℕ) : ℝ := Real.exp (-2 * ((j : ℝ) + 1) ^ 2 * v)

theorem seriesTerm_antitone {v : ℝ} (hv : 0 ≤ v) : Antitone (seriesTerm v) := by
  intro i j hij
  have hcast : (i : ℝ) + 1 ≤ j + 1 := by
    have : (i : ℝ) ≤ j := by exact_mod_cast hij
    linarith
  have hsq : ((i : ℝ) + 1) ^ 2 ≤ ((j : ℝ) + 1) ^ 2 := pow_le_pow_left₀ (by positivity) hcast 2
  apply Real.exp_le_exp.mpr
  exact mul_le_mul_of_nonneg_right (by linarith) hv

/-- The entry at `j` of the array `r` when `m` terms are written. -/
noncomputable def seriesEntry (v : ℝ) (m j : ℕ) : ℝ := if j < m then seriesTerm v j else 0

noncomputable def seriesArray (v : ℝ) (m : ℕ) : List (Double ℝ) :=
  (List.range 4).map fun j => .fin (seriesEntry v m j)

theorem set_seriesArray (v : ℝ) {m : ℕ} (hm : m < 4) :
    (seriesArray v m).set m (.fin (seriesTerm v m)) = seriesArray v (m + 1) := by
  interval_cases m <;> simp [seriesArray, seriesEntry, List.range_succ]

theorem deref_factor {m : ℕ} (hm : m < 4) :
    deref ([-2, -8, -18, -32] : List (Double ℝ)) m = .ok (.fin (-2 * ((m : ℝ) + 1) ^ 2)) := by
  interval_cases m <;> simp [deref] <;> norm_num

theorem kolmogorovTerms_eq (v : ℝ) {m : ℕ} (hm : m ≤ 4) :
    kolmogorovTerms (.fin v) m [0, 0, 0, 0] = .ok (seriesArray v m) := by
  induction m with
  | zero => simp [kolmogorovTerms, seriesArray, seriesEntry, List.range_succ]
  | succ m ih =>
    have hlen : m < (seriesArray v m).length := by
      rw [seriesArray, List.length_map, List.length_range]
      exact hm
    have hterm : MathLibrary.exp (.fin (-2 * ((m : ℝ) + 1) ^ 2) * .fin v) =
        .fin (seriesTerm v m) := rfl
    simp only [kolmogorovTerms, ih (Nat.le_of_succ_le hm), deref_factor hm, bind, Except.bind, pure,
      Except.pure, if_pos hlen, hterm, set_seriesArray v hm]

/-- What is returned is twice the alternating sum of the terms that are written. -/
theorem seriesEntry_sum (v : ℝ) {m : ℕ} (hm : m ≤ 4) :
    seriesEntry v m 0 - seriesEntry v m 1 + seriesEntry v m 2 - seriesEntry v m 3 =
      ∑ i ∈ Finset.range m, (-1) ^ i * seriesTerm v i := by
  have hodd : (-1 : ℝ) ^ 3 = -1 := by norm_num
  interval_cases m <;> simp [seriesEntry, Finset.sum_range_succ, sub_eq_add_neg, hodd]

end Terms

/-! ## The lower piece -/

section Bounds

/-- The quadratic bound of the exponential, turned around. -/
theorem exp_neg_mul_le_one {x : ℝ} (hx : 0 ≤ x) : Real.exp (-x) * (1 + x + x ^ 2 / 2) ≤ 1 := by
  have hquadratic := Real.quadratic_le_exp_of_nonneg hx
  calc Real.exp (-x) * (1 + x + x ^ 2 / 2)
      ≤ Real.exp (-x) * Real.exp x := mul_le_mul_of_nonneg_left hquadratic (Real.exp_pos _).le
    _ = 1 := by rw [← Real.exp_add, neg_add_cancel, Real.exp_zero]

/-- A later term of the lower piece is at most a tenth of its first one. -/
theorem exp_le_tenth {a b v : ℝ} (hab : b ≤ a - 9) (hv : 1 ≤ v) :
    Real.exp (b * v) ≤ Real.exp (a * v) / 10 := by
  have hten := exp_neg_mul_le_one (x := 9) (by norm_num)
  have hsmall : Real.exp (-9) ≤ 1 / 10 := by linarith [Real.exp_pos (-9)]
  have hle : b * v ≤ a * v + -9 := by nlinarith
  calc Real.exp (b * v) ≤ Real.exp (a * v + -9) := Real.exp_le_exp.mpr hle
    _ = Real.exp (a * v) * Real.exp (-9) := Real.exp_add _ _
    _ ≤ Real.exp (a * v) * (1 / 10) := mul_le_mul_of_nonneg_left hsmall (Real.exp_pos _).le
    _ = Real.exp (a * v) / 10 := by ring

theorem seriesTerm_zero_le {v : ℝ} (hv : 1 / 2 ≤ v) : seriesTerm v 0 ≤ 1 / 2 := by
  have hneg : -2 * (((0 : ℕ) : ℝ) + 1) ^ 2 * v = -(2 * v) := by
    push_cast
    ring
  have hbound := exp_neg_mul_le_one (x := 2 * v) (by linarith)
  have htwo : 2 ≤ 1 + 2 * v + (2 * v) ^ 2 / 2 := by nlinarith
  rw [seriesTerm, hneg]
  nlinarith [Real.exp_pos (-(2 * v))]

/-- The three terms of the lower piece. -/
noncomputable def thetaSum (a b c v : ℝ) : ℝ := Real.exp (a * v) + Real.exp (b * v) + Real.exp (c * v)

theorem thetaSum_nonneg (a b c v : ℝ) : 0 ≤ thetaSum a b c v := by
  unfold thetaSum
  positivity

variable {a b c : ℝ}

theorem thetaSum_le (ha : a ≤ -(123 / 100)) (hb : b ≤ a - 9) (hc : c ≤ a - 9) {v : ℝ}
    (hv : 1 ≤ v) : thetaSum a b c v ≤ 12 / 10 * Real.exp (-(123 / 100 * v)) := by
  have hfirst : Real.exp (a * v) ≤ Real.exp (-(123 / 100 * v)) :=
    Real.exp_le_exp.mpr (by nlinarith)
  have hsecond := exp_le_tenth hb hv
  have hthird := exp_le_tenth hc hv
  unfold thetaSum
  linarith

/-- At `s = 1 / u` the exponential wins against the factor `s`. -/
theorem mul_thetaSum_le (ha : a ≤ -(123 / 100)) (hb : b ≤ a - 9) (hc : c ≤ a - 9) {w s : ℝ}
    (hw : w ≤ 251 / 100) (hs : 13 / 10 ≤ s) :
    w * thetaSum a b c (s ^ 2) * s ≤ 1 := by
  have hsq : 1 ≤ s ^ 2 := by nlinarith
  have hs0 : 0 ≤ s := by linarith
  have hpos := Real.exp_pos (-(123 / 100 * s ^ 2))
  have hpoly : 251 / 100 * (12 / 10) * s ≤
      1 + 123 / 100 * s ^ 2 + (123 / 100 * s ^ 2) ^ 2 / 2 := by
    nlinarith
  have hfactor : w * thetaSum a b c (s ^ 2) ≤
      251 / 100 * (12 / 10 * Real.exp (-(123 / 100 * s ^ 2))) :=
    mul_le_mul hw (thetaSum_le ha hb hc hsq) (thetaSum_nonneg a b c _) (by norm_num)
  calc w * thetaSum a b c (s ^ 2) * s
      ≤ 251 / 100 * (12 / 10 * Real.exp (-(123 / 100 * s ^ 2))) * s :=
        mul_le_mul_of_nonneg_right hfactor hs0
    _ = Real.exp (-(123 / 100 * s ^ 2)) * (251 / 100 * (12 / 10) * s) := by ring
    _ ≤ Real.exp (-(123 / 100 * s ^ 2)) *
          (1 + 123 / 100 * s ^ 2 + (123 / 100 * s ^ 2) ^ 2 / 2) :=
        mul_le_mul_of_nonneg_left hpoly hpos.le
    _ ≤ 1 := exp_neg_mul_le_one (by positivity)

end Bounds

/-! ## All pieces -/

section Range
variable {z : ℝ}

theorem numTerms_le {u : ℝ} (hu : 755 / 1000 ≤ u) :
    ∃ maxj, Double.toSigned 64 ((3 : Double ℝ) / .fin u + .fin (1 / 2)) = some maxj ∧
      (if maxj < 1 then 1 else maxj) ≤ 4 := by
  have hpos : 0 < u := by linarith
  have hquot : 3 / u < 4 := by
    rw [div_lt_iff₀ hpos]
    linarith
  have hterms : 3 / u + 1 / 2 < 5 := by linarith
  have hnonneg : 0 ≤ 3 / u + 1 / 2 := by positivity
  have hquotient : (3 : Double ℝ) / .fin u + .fin (1 / 2) = .fin (3 / u + 1 / 2) := by
    rw [Double.ofNat_def, Double.fin_div_fin hpos.ne', Double.fin_add_fin]
  refine ⟨(⌊3 / u + 1 / 2⌋₊ : ℤ), ?_, ?_⟩
  · rw [hquotient]
    exact Double.toSigned_of_lt hnonneg (hterms.trans (by norm_num))
  · have hfloor : ⌊3 / u + 1 / 2⌋₊ < 5 := (Nat.floor_lt hnonneg).mpr hterms
    split
    · norm_num
    · omega

theorem kolmogorov_lower (hlow : 2 / 10 ≤ |z|) (hhigh : |z| < 755 / 1000) :
    ∃ p : ℝ, kolmogorov (.fin z) = .ok (.fin p) ∧ p ∈ Set.Icc 0 1 := by
  have hpos : 0 < |z| := by linarith
  have hs : 13 / 10 ≤ 1 / |z| := by
    rw [le_div_iff₀ hpos]
    linarith
  have hv : (.fin 1 : Double ℝ) / .fin (|z| * |z|) = .fin ((1 / |z|) ^ 2) := by
    rw [Double.fin_div_fin (mul_ne_zero hpos.ne' hpos.ne'), one_div_pow, sq]
  have hsum : 250662827 / 10 ^ 8 * thetaSum (-12337005501361697 / 10 ^ 16)
      (-11103304951225528 / 10 ^ 15) (-30842513753404244 / 10 ^ 15) ((1 / |z|) ^ 2) * (1 / |z|) ≤ 1 :=
    mul_thetaSum_le (by norm_num) (by norm_num) (by norm_num) (by norm_num) hs
  have hnonneg := mul_nonneg (mul_nonneg (by norm_num : (0 : ℝ) ≤ 250662827 / 10 ^ 8)
    (thetaSum_nonneg (-12337005501361697 / 10 ^ 16) (-11103304951225528 / 10 ^ 15)
      (-30842513753404244 / 10 ^ 15) ((1 / |z|) ^ 2))) (one_div_pos.mpr hpos).le
  refine ⟨_, ?_, sub_nonneg.mpr hsum, sub_le_self 1 hnonneg⟩
  simp only [kolmogorov, Double.fabs_fin, Double.fin_lt_fin, not_lt.mpr hlow, hhigh, if_true,
    if_false, hv, Double.fin_mul_fin, MathLibrary.exp_fin, Double.fin_add_fin,
    Double.fin_div_fin hpos.ne', Double.one_def, Double.fin_sub_fin, thetaSum, mul_one_div]

theorem kolmogorov_upper (hlow : 755 / 1000 ≤ |z|) (hhigh : |z| < 68116 / 10000) :
    ∃ p : ℝ, kolmogorov (.fin z) = .ok (.fin p) ∧ p ∈ Set.Icc 0 1 := by
  obtain ⟨maxj, hmaxj, hterms⟩ := numTerms_le hlow
  set m := (if maxj < 1 then 1 else maxj).toNat with hm
  have hm4 : m ≤ 4 := by omega
  have hlow' : ¬ |z| < 2 / 10 := by linarith
  refine ⟨2 * ∑ i ∈ Finset.range m, (-1) ^ i * seriesTerm (|z| * |z|) i, ?_, ?_⟩
  · simp only [kolmogorov, Double.fabs_fin, Double.fin_lt_fin, hlow', not_lt.mpr hlow, hhigh, if_true,
      if_false, hmaxj, convert, bind, Except.bind, Double.fin_mul_fin, ← hm,
      kolmogorovTerms_eq _ hm4, pure, Except.pure, ← seriesEntry_sum _ hm4]
    rfl
  · obtain ⟨hnonneg, hfirst⟩ := alternatingSum_mem_Icc
      (seriesTerm_antitone (mul_self_nonneg |z|)) (fun i => (Real.exp_pos _).le) m
    have hhalf := seriesTerm_zero_le (v := |z| * |z|) (by nlinarith)
    constructor
    · linarith
    · linarith

/-- Everywhere the approximation is between zero and one. -/
theorem kolmogorov_mem_Icc (z : ℝ) :
    ∃ p : ℝ, kolmogorov (.fin z) = .ok (.fin p) ∧ p ∈ Set.Icc 0 1 := by
  rcases lt_or_ge |z| (2 / 10) with hflat | hlow
  · refine ⟨1, ?_, zero_le_one, le_rfl⟩
    simp [kolmogorov, hflat]
  rcases lt_or_ge |z| (755 / 1000) with hlower | hmiddle
  · exact kolmogorov_lower hlow hlower
  rcases lt_or_ge |z| (68116 / 10000) with hupper | hhigh
  · exact kolmogorov_upper hmiddle hupper
  · refine ⟨0, ?_, le_rfl, zero_le_one⟩
    simp [kolmogorov, not_lt.mpr hlow, not_lt.mpr hmiddle, not_lt.mpr hhigh]

/-- The value is a probability for every number, the array holds the terms that are asked for, and
the approximate p-value of every distance and sample size is a probability. -/
theorem kolmogorov_probability :
    (∀ z : ℝ, ∃ p : ℝ, kolmogorov (.fin z) = .ok (.fin p) ∧ p ∈ Set.Icc 0 1) ∧
      (∀ u : ℝ, 755 / 1000 ≤ u → u < 68116 / 10000 → ∃ maxj : ℤ,
        Double.toSigned 64 ((3 : Double ℝ) / .fin u + .fin (1 / 2)) = some maxj ∧
          ∀ j : ℤ, j < (if maxj < 1 then 1 else maxj) → j < 4) ∧
      ∀ (d : ℝ) (n : ℕ), ∃ p : ℝ, ksTestOneSampleP (.fin d) n = .ok (.fin p) ∧ p ∈ Set.Icc 0 1 := by
  refine ⟨kolmogorov_mem_Icc, ?_, ?_⟩
  · intro u hlow _
    obtain ⟨maxj, hmaxj, hterms⟩ := numTerms_le hlow
    exact ⟨maxj, hmaxj, fun j hj => hj.trans_le hterms⟩
  · intro d n
    rw [ksTestOneSampleP, Double.natCast_def, MathLibrary.sqrt_fin (Nat.cast_nonneg n),
      Double.fin_mul_fin]
    exact kolmogorov_mem_Icc _

end Range
end Plfit
