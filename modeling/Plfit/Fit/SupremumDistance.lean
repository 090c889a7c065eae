import Mathlib
import Plfit.Library.EmpiricalDistribution
import Plfit.Fit.ContinuousReal

/-! # The score as a distance of distributions

The score of a continuous tail is the largest distance just before a sample. It misses at most one
step of the Kolmogorov-Smirnov distance, which is the supremum over all real numbers from `xmin` on.
-/
namespace Plfit
open ExactArithmetic EmpiricalDistribution

section Pareto
variable {alpha xmin : ℝ}

noncomputable def paretoDistribution (ha : 1 < alpha) (hx : 0 < xmin) :
    DistributionFrom xmin where
  toFun x := 1 - (xmin / x) ^ (alpha - 1)
  map_lo := by
    rw [div_self hx.ne', Real.one_rpow, sub_self]
  le_one := by
    intro x hxx
    have hpow : 0 ≤ (xmin / x) ^ (alpha - 1) :=
      Real.rpow_nonneg (div_nonneg hx.le (hx.le.trans hxx)) _
    linarith
  monotoneOn := by
    intro x hxx y hxy hle
    have hpos : 0 < x := hx.trans_le hxx
    have hratio : xmin / y ≤ xmin / x := div_le_div_of_nonneg_left hx.le hpos hle
    have hpow : (xmin / y) ^ (alpha - 1) ≤ (xmin / x) ^ (alpha - 1) :=
      Real.rpow_le_rpow (div_nonneg hx.le (hpos.trans_le hle).le) hratio (by linarith)
    dsimp only
    linarith
  continuousOn := by
    refine continuousOn_const.sub ?_
    refine ContinuousOn.rpow_const ?_ ?_
    · exact continuousOn_const.div continuousOn_id (fun x hxx => (hx.trans_le hxx).ne')
    · exact fun x hxx => Or.inl (div_pos hx (hx.trans_le hxx)).ne'

theorem mem_ksDistances {n : ℝ} {ys : List ℝ} {d : ℝ} :
    d ∈ ksDistances alpha xmin n ys 0 ↔
      ∃ (i : ℕ) (v : ℝ), ys[i]? = some v ∧ |1 - (xmin / v) ^ (alpha - 1) - i / n| = d := by
  simp only [ksDistances, List.mem_map, Prod.exists, List.mem_zipIdx_iff_getElem?]
  exact exists_comm

/-- The score bounds the gaps before the samples. -/
theorem ksScore_le_iff_stepGap (ha : 1 < alpha) (hx : 0 < xmin) {ys : List ℝ} {t : ℝ} :
    ksScore ys alpha xmin ≤ t ↔ 0 ≤ t ∧ ∀ i v, ys[i]? = some v →
      stepGap (paretoDistribution ha hx) ys.length i v ≤ t := by
  simp only [ksScore_le_iff, mem_ksDistances]
  refine and_congr_right fun _ => ⟨fun h i v hv => h _ ⟨i, v, hv, rfl⟩, ?_⟩
  rintro h d ⟨i, v, hv, rfl⟩
  exact h i v hv

/-- The score is the Kolmogorov-Smirnov distance between the samples and the fitted power law, up
to the height of one step. -/
theorem iKsTestContinuous_near_distance (ha : 1 < alpha) (hx : 0 < xmin) {ys : List ℝ}
    (hs : ys.SortedLE) (hne : ys ≠ []) (hys : ∀ y ∈ ys, xmin ≤ y) :
    ∃ D K, iKsTestContinuous (ys.map .fin) (.fin alpha) (.fin xmin) = .fin D ∧
      IsLUB {g | ∃ x, xmin ≤ x ∧
        g = |(ys.countP (· ≤ x) : ℝ) / ys.length - (1 - (xmin / x) ^ (alpha - 1))|} K ∧
      D ≤ K ∧ K ≤ D + 1 / ys.length := by
  have hscore := (ksScore_le_iff_stepGap ha hx).mp (le_refl (ksScore ys alpha xmin))
  obtain ⟨hlub, hle⟩ := isLUB_distance hs hne hys hscore.1 hscore.2
  have hgaps : ∀ x ∈ Set.Ici xmin, gap (paretoDistribution ha hx) ys x ≤
      distance (paretoDistribution ha hx) ys :=
    fun x hxx => hlub.1 (Set.mem_image_of_mem _ hxx)
  have hset : {g | ∃ x, xmin ≤ x ∧
      g = |(ys.countP (· ≤ x) : ℝ) / ys.length - (1 - (xmin / x) ^ (alpha - 1))|} =
      gap (paretoDistribution ha hx) ys '' Set.Ici xmin := by
    ext g
    exact exists_congr fun x => and_congr_right fun _ => eq_comm
  refine ⟨_, _, iKsTestContinuous_fin hx hys, hset ▸ hlub, ?_, hle⟩
  refine (ksScore_le_iff_stepGap ha hx).mpr ⟨?_, ?_⟩
  · exact (abs_nonneg _).trans (hgaps xmin Set.self_mem_Ici)
  · exact fun i v hv => stepGap_le hs hys hgaps hv

theorem iKsTestContinuous_near_distance_ties :
    ∃ D K, iKsTestContinuous ([(1 : ℝ), 2, 2].map .fin) (.fin 2) (.fin 1) = .fin D ∧
      IsLUB {g | ∃ x, (1 : ℝ) ≤ x ∧
        g = |([(1 : ℝ), 2, 2].countP (· ≤ x) : ℝ) / ([(1 : ℝ), 2, 2].length : ℕ) -
          (1 - (1 / x) ^ ((2 : ℝ) - 1))|} K ∧
      D ≤ K ∧ K ≤ D + 1 / ([(1 : ℝ), 2, 2].length : ℕ) :=
  iKsTestContinuous_near_distance one_lt_two one_pos (by simp [List.sortedLE_iff_pairwise])
    (by simp) (by simp)

end Pareto
end Plfit
