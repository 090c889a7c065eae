import Mathlib
import Plfit.Search.Probes
import Plfit.Model.PValue

/-! # Continuous fits over the real numbers

On positive real samples the log-sum, the estimator of the exponent and the
Kolmogorov-Smirnov score are real numbers. The score lies between zero and one, and with at
least one sample above `xmin` the exponent is larger than one.
-/
namespace Plfit
open ExactArithmetic SortedBlocks

noncomputable def logSum (ys : List ℝ) (xmin : ℝ) : ℝ :=
  (ys.map (fun x => Real.log (x / xmin))).sum

noncomputable def hillAlpha (ys : List ℝ) (xmin : ℝ) : ℝ := 1 + ys.length / logSum ys xmin

/-- The distances between the fitted and the empirical distribution just before the samples,
counting on from a number of samples before them. -/
noncomputable def ksDistances (alpha xmin n : ℝ) (ys : List ℝ) (m : ℕ) : List ℝ :=
  (ys.zipIdx m).map (fun p => |1 - (xmin / p.1) ^ (alpha - 1) - p.2 / n|)

noncomputable def ksScore (ys : List ℝ) (alpha xmin : ℝ) : ℝ :=
  (ksDistances alpha xmin ys.length ys 0).foldl max 0

noncomputable def realLogLikelihood (ys : List ℝ) (alpha xmin : ℝ) : ℝ :=
  -alpha * logSum ys xmin + Real.log ((alpha - 1) / xmin) * ys.length

section Sums
variable {xmin : ℝ} {ys : List ℝ}

theorem iLogsumContinuous_fin (hx : 0 < xmin) (hys : ∀ y ∈ ys, xmin ≤ y) :
    iLogsumContinuous (ys.map .fin) (.fin xmin) = .fin (logSum ys xmin) := by
  have hfold : ∀ s : ℝ, (ys.map Double.fin).foldl
      (fun logsum (x : Double ℝ) => logsum + MathLibrary.log (x / (.fin xmin : Double ℝ)))
        (.fin s : Double ℝ) = .fin (s + logSum ys xmin) := by
    induction ys with
    | nil => simp [logSum]
    | cons y ys ih =>
      intro s
      have hy : 0 < y := hx.trans_le (hys y List.mem_cons_self)
      rw [List.map_cons, List.foldl_cons, Double.fin_div_fin hx.ne',
        MathLibrary.log_fin (div_pos hy hx), Double.fin_add_fin,
        ih (fun z hz => hys z (List.mem_cons_of_mem y hz))]
      simp only [logSum, List.map_cons, List.sum_cons, add_assoc]
  simpa [iLogsumContinuous] using hfold 0

/-- The filtering log-sum looks at the samples from `xmin` on, in any order. -/
theorem iLogsumLessThanContinuous_filter (hx : 0 < xmin) :
    iLogsumLessThanContinuous (ys.map .fin) (.fin xmin) =
      (.fin (logSum (ys.filter (xmin ≤ ·)) xmin), (ys.filter (xmin ≤ ·)).length) := by
  have hfold : ∀ (s : ℝ) (m : ℕ), (ys.map Double.fin).foldl
      (fun (st : Double ℝ × ℕ) (x : Double ℝ) => if (.fin xmin : Double ℝ) ≤ x then
        (st.1 + MathLibrary.log (x / (.fin xmin : Double ℝ)), st.2 + 1) else st)
        ((.fin s : Double ℝ), m) =
        (.fin (s + logSum (ys.filter (xmin ≤ ·)) xmin),
          m + (ys.filter (xmin ≤ ·)).length) := by
    induction ys with
    | nil => simp [logSum]
    | cons y ys ih =>
      intro s m
      rw [List.map_cons, List.foldl_cons]
      by_cases hle : xmin ≤ y
      · have hy : 0 < y := hx.trans_le hle
        rw [if_pos (Double.fin_le_fin.mpr hle), Double.fin_div_fin hx.ne',
          MathLibrary.log_fin (div_pos hy hx), Double.fin_add_fin, ih,
          List.filter_cons_of_pos (by simpa using hle)]
        simp only [logSum, List.map_cons, List.sum_cons, add_assoc, List.length_cons,
          Nat.add_comm 1]
      · rw [if_neg (by simpa using hle), ih, List.filter_cons_of_neg (by simpa using hle)]
  simpa [iLogsumLessThanContinuous] using hfold 0 0

/-- A sample above `xmin` keeps the log-sum away from zero. -/
theorem logSum_pos (hx : 0 < xmin) (hys : ∀ y ∈ ys, xmin ≤ y) (habove : ∃ y ∈ ys, xmin < y) :
    0 < logSum ys xmin := by
  obtain ⟨z, hz, hxz⟩ := habove
  have hnonneg : ∀ l ∈ ys.map (fun x => Real.log (x / xmin)), 0 ≤ l := by
    intro l hl
    obtain ⟨y, hy, rfl⟩ := List.mem_map.mp hl
    exact Real.log_nonneg ((one_le_div hx).mpr (hys y hy))
  calc 0 < Real.log (z / xmin) := Real.log_pos ((one_lt_div hx).mpr hxz)
    _ ≤ logSum ys xmin :=
      List.single_le_sum hnonneg _ (List.mem_map.mpr ⟨z, hz, rfl⟩)

theorem one_lt_hillAlpha (hx : 0 < xmin) (hys : ∀ y ∈ ys, xmin ≤ y)
    (habove : ∃ y ∈ ys, xmin < y) : 1 < hillAlpha ys xmin := by
  have hpos := logSum_pos hx hys habove
  have hlen : (0 : ℝ) < ys.length := by
    obtain ⟨z, hz, -⟩ := habove
    exact_mod_cast List.length_pos_of_mem hz
  rw [hillAlpha]
  exact lt_add_of_pos_right 1 (div_pos hlen hpos)

end Sums

section Score
variable {alpha xmin : ℝ}

theorem ksDistances_bounds {n : ℕ} (ha : 1 < alpha) (hx : 0 < xmin) {ys : List ℝ}
    (hys : ∀ y ∈ ys, xmin ≤ y) {m : ℕ} (hn : m + ys.length ≤ n) :
    ∀ d ∈ ksDistances alpha xmin n ys m, 0 ≤ d ∧ d ≤ 1 := by
  intro d hd
  obtain ⟨⟨y, i⟩, hmem, rfl⟩ := List.mem_map.mp hd
  obtain ⟨-, hi, hyi⟩ := List.mem_zipIdx hmem
  have hy : y ∈ ys := by
    rw [hyi]
    exact List.getElem_mem _
  have hpos : 0 < xmin / y := div_pos hx (hx.trans_le (hys y hy))
  have hle : xmin / y ≤ 1 := (div_le_one (hx.trans_le (hys y hy))).mpr (hys y hy)
  have hpow : 0 < (xmin / y) ^ (alpha - 1) := Real.rpow_pos_of_pos hpos _
  have hpow' : (xmin / y) ^ (alpha - 1) ≤ 1 :=
    Real.rpow_le_one hpos.le hle (sub_pos.mpr ha).le
  have hin : (i : ℝ) / n ≤ 1 := by
    have hcast : (i : ℝ) ≤ n := by exact_mod_cast (by omega : i ≤ n)
    exact div_le_one_of_le₀ hcast (Nat.cast_nonneg n)
  have hi0 : (0 : ℝ) ≤ (i : ℝ) / n := by positivity
  refine ⟨abs_nonneg _, abs_le.mpr ?_⟩
  dsimp only
  constructor <;> linarith only [hpow, hpow', hin, hi0]

theorem iKsTestContinuous_fin (hx : 0 < xmin) {ys : List ℝ} (hys : ∀ y ∈ ys, xmin ≤ y) :
    iKsTestContinuous (ys.map .fin) (.fin alpha) (.fin xmin) = .fin (ksScore ys alpha xmin) := by
  rcases List.eq_nil_or_concat ys with rfl | hne
  · rfl
  have hlen : (ys.length : ℝ) ≠ 0 := by
    obtain ⟨zs, z, rfl⟩ := hne
    simp
    positivity
  generalize hN : (ys.length : ℝ) = N at hlen
  have hfold : ∀ (r : ℝ) (m : ℕ), ((ys.map Double.fin).foldl
      (fun (st : Double ℝ × ℕ) (x : Double ℝ) =>
        let d := Double.fabs (1 - MathLibrary.pow ((.fin xmin : Double ℝ) / x)
          ((.fin alpha : Double ℝ) - 1) - (st.2 : Double ℝ) / (.fin N : Double ℝ))
        (if st.1 < d then d else st.1, st.2 + 1)) ((.fin r : Double ℝ), m)).1 =
        .fin ((ksDistances alpha xmin N ys m).foldl max r) := by
    clear hne hN
    induction ys with
    | nil => intro r m; rfl
    | cons y ys ih =>
      intro r m
      have hy : 0 < y := hx.trans_le (hys y List.mem_cons_self)
      have hstep : Double.fabs (1 - MathLibrary.pow ((.fin xmin : Double ℝ) / .fin y)
          ((.fin alpha : Double ℝ) - 1) - (m : Double ℝ) / (.fin N : Double ℝ)) =
          .fin |1 - (xmin / y) ^ (alpha - 1) - (m : ℝ) / N| := by
        rw [Double.fin_div_fin hy.ne', Double.one_def, Double.fin_sub_fin,
          MathLibrary.pow_fin (div_pos hx hy), Double.fin_sub_fin, Double.natCast_def,
          Double.fin_div_fin hlen, Double.fin_sub_fin, Double.fabs_fin]
      rw [List.map_cons, List.foldl_cons]
      simp only [hstep, Double.ite_lt_fin]
      rw [ih (fun z hz => hys z (List.mem_cons_of_mem y hz))]
      simp [ksDistances, List.zipIdx_cons]
  have hrun := hfold 0 0
  simp only [iKsTestContinuous, ksScore, List.length_map, Double.natCast_def, hN]
  exact hrun

theorem foldl_max_le_iff {ds : List ℝ} {r t : ℝ} :
    ds.foldl max r ≤ t ↔ r ≤ t ∧ ∀ d ∈ ds, d ≤ t := by
  induction ds generalizing r with
  | nil => simp
  | cons d ds ih => rw [List.foldl_cons, ih, max_le_iff, List.forall_mem_cons, and_assoc]

theorem ksScore_le_iff {ys : List ℝ} {t : ℝ} :
    ksScore ys alpha xmin ≤ t ↔ 0 ≤ t ∧ ∀ d ∈ ksDistances alpha xmin ys.length ys 0, d ≤ t :=
  foldl_max_le_iff

theorem ksScore_bounds (ha : 1 < alpha) (hx : 0 < xmin) {ys : List ℝ}
    (hys : ∀ y ∈ ys, xmin ≤ y) : 0 ≤ ksScore ys alpha xmin ∧ ksScore ys alpha xmin ≤ 1 := by
  have hbounds := ksDistances_bounds ha hx hys (Nat.zero_add ys.length).le
  constructor
  · exact (ksScore_le_iff.mp le_rfl).1
  · exact ksScore_le_iff.mpr ⟨zero_le_one, fun d hd => (hbounds d hd).2⟩

end Score

end Plfit
