import Mathlib
import Plfit.Library.HurwitzZeta
import Plfit.Library.IntegerDistribution
import Plfit.Fit.DiscreteFit

/-! # The discrete score as a distance of distributions

The loop over the blocks of equal samples looks at the samples only, and there at the height of the
step before each block. The Kolmogorov-Smirnov distance ranges over all integers from `xmin` on, and
may be attained just after a step.
-/
namespace Plfit
open ExactArithmetic SortedBlocks RealHurwitz IntegerDistribution

/-- The function `hsl_sf_lnhzeta` is the exact logarithm of the Hurwitz zeta function. -/
def ExactZeta (E : Environment ℝ) : Prop :=
  ∀ alpha > 1, ∀ x > 0, E.lnhzeta (.fin alpha) (.fin x) = .fin (Real.log (hurwitzZeta alpha x))

section Loop
variable {E : Environment ℝ} {alpha n lnhzeta : Double ℝ}

theorem ksLoop_cons (x : ℝ) (rest : List ℝ) (m : ℕ) {r d : ℝ}
    (hd : ksDistance E alpha n lnhzeta (.fin x) m = .fin d) :
    iKsTestDiscrete.loop E alpha n lnhzeta ((x :: rest).map .fin) m (.fin r) =
      iKsTestDiscrete.loop E alpha n lnhzeta ((rest.dropWhile (· == x)).map .fin)
        (m + (1 + (rest.takeWhile (· == x)).length)) (.fin (max r d)) := by
  have hblock : (rest.map Double.fin).takeWhile (fun z => z == Double.fin x) =
      (rest.takeWhile (· == x)).map Double.fin := by
    rw [List.takeWhile_map]
    congr 1
  rw [ksDistance] at hd
  rw [List.map_cons, iKsTestDiscrete.loop, hd, Double.ite_lt_fin]
  simp only [hblock, List.length_map, ← List.map_drop, drop_length_takeWhile, add_assoc]

/-- The loop ends with the largest distance at the first sample of a block, or with what it was
given. -/
theorem ksLoop_spec {g : ℕ → ℝ → ℝ} {ys : List ℝ} (hs : ys.SortedLE)
    (hg : ∀ i, ∀ y ∈ ys, ksDistance E alpha n lnhzeta (.fin y) i = .fin (g i y)) (m : ℕ) (r : ℝ) :
    ∃ d, iKsTestDiscrete.loop E alpha n lnhzeta (ys.map .fin) m (.fin r) = .fin d ∧ r ≤ d ∧
      (∀ y ∈ ys, g (m + below ys y) y ≤ d) ∧ (d = r ∨ ∃ y ∈ ys, d = g (m + below ys y) y) := by
  induction hlen : ys.length using Nat.strong_induction_on generalizing ys m r with
  | _ k ih =>
    subst hlen
    cases ys with
    | nil => exact ⟨r, by rw [List.map_nil, iKsTestDiscrete.loop], le_rfl, by simp, Or.inl rfl⟩
    | cons x rest =>
      have hfilter := dropWhile_eq_filter_lt hs
      have hrest : (rest.dropWhile (· == x)).SortedLE := by
        rw [hfilter]
        exact ((sortedLE_cons.mp hs).2.pairwise.filter _).sortedLE
      have hmem : ∀ y ∈ rest.dropWhile (· == x), y ∈ rest ∧ x < y := by
        intro y hy
        rw [hfilter] at hy
        simpa using hy
      have hfirst : below (x :: rest) x = 0 :=
        below_eq_zero (by simpa using (sortedLE_cons.mp hs).1)
      have hlater : ∀ y ∈ rest.dropWhile (· == x), m + below (x :: rest) y =
          m + (1 + (rest.takeWhile (· == x)).length) + below (rest.dropWhile (· == x)) y := by
        intro y hy
        rw [below_cons_block (hmem y hy).2]
        omega
      have hshort : (rest.dropWhile (· == x)).length < (x :: rest).length :=
        Nat.lt_succ_of_le (List.dropWhile_sublist _).length_le
      obtain ⟨d, hrun, hle, hall, hattained⟩ := ih _ hshort hrest
        (fun i y hy => hg i y (List.mem_cons_of_mem x (hmem y hy).1))
        (m + (1 + (rest.takeWhile (· == x)).length)) (max r (g m x)) rfl
      refine ⟨d, ?_, (le_max_left _ _).trans hle, ?_, ?_⟩
      · rw [ksLoop_cons x rest m (hg m x List.mem_cons_self)]
        exact hrun
      · intro y hy
        by_cases hxy : x < y
        · have hmem' : y ∈ rest.dropWhile (· == x) := by
            rw [hfilter, List.mem_filter]
            rcases List.mem_cons.mp hy with rfl | hy
            · exact absurd hxy (lt_irrefl y)
            · exact ⟨hy, by simpa using hxy⟩
          rw [hlater y hmem']
          exact hall y hmem'
        · have hyx : y = x := by
            rcases List.mem_cons.mp hy with rfl | hy
            · rfl
            · exact le_antisymm (not_lt.mp hxy) ((sortedLE_cons.mp hs).1 y hy)
          rw [hyx, hfirst]
          exact (le_max_right _ _).trans hle
      · rcases hattained with heq | ⟨y, hy, heq⟩
        · rcases max_choice r (g m x) with hmax | hmax
          · exact Or.inl (heq.trans hmax)
          · refine Or.inr ⟨x, List.mem_cons_self, ?_⟩
            rw [heq, hmax, hfirst, Nat.add_zero]
        · refine Or.inr ⟨y, List.mem_cons_of_mem x (hmem y hy).1, ?_⟩
          rw [heq, hlater y hy]
end Loop

/-! ## The fitted distribution -/

noncomputable def zetaCdf (alpha : ℝ) (xmin t : ℤ) : ℝ :=
  1 - hurwitzZeta alpha (t + 1) / hurwitzZeta alpha xmin

section Zeta
variable {alpha : ℝ} {xmin : ℤ}

noncomputable def zetaDistribution (ha : 1 < alpha) (hx : 1 ≤ xmin) : DistributionFrom xmin where
  toFun := zetaCdf alpha xmin
  map_pred := by
    have hxmin : (0 : ℝ) < xmin := by exact_mod_cast hx
    have hcast : ((xmin - 1 : ℤ) : ℝ) + 1 = xmin := by
      push_cast
      ring
    rw [zetaCdf, hcast, div_self (hurwitzZeta_pos ha hxmin).ne', sub_self]
  le_one := by
    intro t ht
    have hxmin : (0 : ℝ) < xmin := by exact_mod_cast hx
    have ht0 : (0 : ℝ) < t + 1 := by exact_mod_cast (by omega : 0 < t + 1)
    have hquot := div_pos (hurwitzZeta_pos ha ht0) (hurwitzZeta_pos ha hxmin)
    rw [zetaCdf]
    linarith
  monotone := by
    intro s t hs hst
    have hxmin : (0 : ℝ) < xmin := by exact_mod_cast hx
    have hs0 : (0 : ℝ) < s + 1 := by exact_mod_cast (by omega : 0 < s + 1)
    have hst' : (s : ℝ) + 1 ≤ t + 1 := by exact_mod_cast (by omega : s + 1 ≤ t + 1)
    have hquot := div_le_div_of_nonneg_right (hurwitzZeta_le ha hs0 hst')
      (hurwitzZeta_pos ha hxmin).le
    rw [zetaCdf, zetaCdf]
    linarith

variable {E : Environment ℝ} {ys : List ℤ}

theorem ksDistance_zeta (hE : ExactZeta E) (ha : 1 < alpha) (hx : 1 ≤ xmin) {n : ℕ} (hn : 0 < n)
    (i : ℕ) {y : ℤ} (hy : xmin ≤ y) :
    ksDistance E (.fin alpha) n (E.lnhzeta (.fin alpha) (.fin xmin)) (.fin y) i =
      .fin |hurwitzZeta alpha y / hurwitzZeta alpha xmin - 1 + i / n| := by
  have hxmin : (0 : ℝ) < xmin := by exact_mod_cast hx
  have hy0 : (0 : ℝ) < y := by exact_mod_cast hx.trans hy
  have hn0 : (n : ℝ) ≠ 0 := by exact_mod_cast hn.ne'
  rw [ksDistance, hE alpha ha y hy0, hE alpha ha xmin hxmin, Double.fin_sub_fin,
    MathLibrary.expm1_fin, Double.natCast_def, Double.natCast_def, Double.fin_div_fin hn0,
    Double.fin_add_fin, Double.fabs_fin, Real.exp_sub, Real.exp_log (hurwitzZeta_pos ha hy0),
    Real.exp_log (hurwitzZeta_pos ha hxmin)]

theorem gap_before (ha : 1 < alpha) (hx : 1 ≤ xmin) (y : ℤ) :
    gap (zetaDistribution ha hx) ys (y - 1) =
      |hurwitzZeta alpha y / hurwitzZeta alpha xmin - 1 + below ys y / ys.length| := by
  have hcount : ys.countP (· ≤ y - 1) = below ys y := by
    apply List.countP_congr
    intro z _
    simp only [decide_eq_true_eq]
    omega
  have hcast : ((y - 1 : ℤ) : ℝ) + 1 = y := by
    push_cast
    ring
  have hneg : 1 - hurwitzZeta alpha y / hurwitzZeta alpha xmin - (below ys y : ℝ) / ys.length =
      -(hurwitzZeta alpha y / hurwitzZeta alpha xmin - 1 + below ys y / ys.length) := by
    ring
  rw [gap, empirical, hcount]
  change |zetaCdf alpha xmin (y - 1) - _| = _
  rw [zetaCdf, hcast, hneg, abs_neg]

/-- The score is the largest gap just before a sample. -/
theorem iKsTestDiscrete_isGreatest (hE : ExactZeta E) (ha : 1 < alpha) (hx : 1 ≤ xmin)
    (hs : ys.SortedLE) (hne : ys ≠ []) (hys : ∀ y ∈ ys, xmin ≤ y) :
    ∃ D, iKsTestDiscrete E (ys.map fun y : ℤ => .fin (y : ℝ)) (.fin alpha) (.fin xmin) = .fin D ∧
      IsGreatest {g | ∃ w ∈ ys, g = gap (zetaDistribution ha hx) ys (w - 1)} D := by
  have hn : 0 < ys.length := List.length_pos_of_ne_nil hne
  have hcast : (ys.map fun y : ℤ => (.fin (y : ℝ) : Double ℝ)) = (ys.map Int.cast).map .fin := by
    rw [List.map_map]
    rfl
  have hsorted : (ys.map (Int.cast : ℤ → ℝ)).SortedLE :=
    (List.pairwise_map.mpr (hs.pairwise.imp fun h => by exact_mod_cast h)).sortedLE
  have hbelow : ∀ y : ℤ, below (ys.map (Int.cast : ℤ → ℝ)) y = below ys y := by
    intro y
    simp [below, List.countP_map, Function.comp_def]
  have hg : ∀ i, ∀ y ∈ ys.map (Int.cast : ℤ → ℝ),
      ksDistance E (.fin alpha) ys.length (E.lnhzeta (.fin alpha) (.fin xmin)) (.fin y) i =
        .fin |hurwitzZeta alpha y / hurwitzZeta alpha xmin - 1 + i / ys.length| := by
    intro i y hy
    obtain ⟨z, hz, rfl⟩ := List.mem_map.mp hy
    exact ksDistance_zeta hE ha hx hn i (hys z hz)
  obtain ⟨D, hrun, hnonneg, hall, hattained⟩ := ksLoop_spec hsorted hg 0 0
  have hgaps : ∀ y ∈ ys, gap (zetaDistribution ha hx) ys (y - 1) ≤ D := by
    intro y hy
    have hle := hall y (List.mem_map_of_mem hy)
    rwa [Nat.zero_add, hbelow, ← gap_before ha hx] at hle
  refine ⟨D, ?_, ?_, ?_⟩
  · rw [iKsTestDiscrete, List.length_map, hcast]
    exact hrun
  · rcases hattained with rfl | ⟨y, hy, heq⟩
    · obtain ⟨w, hw⟩ := List.exists_mem_of_ne_nil ys hne
      exact ⟨w, hw, le_antisymm (abs_nonneg _) (hgaps w hw)⟩
    · obtain ⟨w, hw, rfl⟩ := List.mem_map.mp hy
      rw [Nat.zero_add, hbelow, ← gap_before ha hx] at heq
      exact ⟨w, hw, heq⟩
  · rintro g ⟨w, hw, rfl⟩
    exact hgaps w hw

/-- The score is the Kolmogorov-Smirnov distance over all integers from `xmin` on exactly when no
sample leaves a larger gap just after it than there is just before some sample. -/
theorem iKsTestDiscrete_distance_iff (hE : ExactZeta E) (ha : 1 < alpha) (hx : 1 ≤ xmin)
    (hs : ys.SortedLE) (hne : ys ≠ []) (hys : ∀ y ∈ ys, xmin ≤ y) :
    (∃ D, iKsTestDiscrete E (ys.map fun y : ℤ => .fin (y : ℝ)) (.fin alpha) (.fin xmin) = .fin D ∧
      IsGreatest {g | ∃ t, xmin ≤ t ∧
        g = |zetaCdf alpha xmin t - (ys.countP (· ≤ t) : ℝ) / ys.length|} D) ↔
      ∀ v ∈ ys, ∃ w ∈ ys, (ys.countP (· ≤ v) : ℝ) / ys.length - zetaCdf alpha xmin v ≤
        |zetaCdf alpha xmin (w - 1) - (ys.countP (· ≤ w - 1) : ℝ) / ys.length| := by
  obtain ⟨D, hrun, hgreatest⟩ := iKsTestDiscrete_isGreatest hE ha hx hs hne hys
  have hiff := isGreatest_gap_iff hne hys hgreatest
  constructor
  · rintro ⟨D', hrun', hgreatest'⟩
    rw [hrun, Double.fin.injEq] at hrun'
    subst hrun'
    exact hiff.mp hgreatest'
  · intro hafter
    exact ⟨D, hrun, hiff.mpr hafter⟩

noncomputable def zetaEnvironment : Environment ℝ :=
  { idleEnvironment with
    lnhzeta := fun alpha x =>
      match alpha, x with
      | .fin alpha, .fin x => .fin (Real.log (hurwitzZeta alpha x))
      | _, _ => .nan }

theorem exactZeta_zetaEnvironment : ExactZeta zetaEnvironment := fun _ _ _ _ => rfl

theorem iKsTestDiscrete_distance_two :
    (∃ D, iKsTestDiscrete zetaEnvironment ([1, 2].map fun y : ℤ => .fin (y : ℝ)) (.fin 2)
        (.fin ((1 : ℤ) : ℝ)) = .fin D ∧
      IsGreatest {g | ∃ t, 1 ≤ t ∧
        g = |zetaCdf 2 1 t - ([1, 2].countP (· ≤ t) : ℝ) / ([(1 : ℤ), 2].length : ℕ)|} D) ↔
      ∀ v ∈ [(1 : ℤ), 2], ∃ w ∈ [(1 : ℤ), 2],
        ([(1 : ℤ), 2].countP (· ≤ v) : ℝ) / ([(1 : ℤ), 2].length : ℕ) - zetaCdf 2 1 v ≤
          |zetaCdf 2 1 (w - 1) -
            ([(1 : ℤ), 2].countP (· ≤ w - 1) : ℝ) / ([(1 : ℤ), 2].length : ℕ)| :=
  iKsTestDiscrete_distance_iff exactZeta_zetaEnvironment one_lt_two le_rfl
    (by simp [List.sortedLE_iff_pairwise]) (by simp) (by simp)

/-- A single sample at `xmin` has the score zero, but its distance is the probability of everything
above it. -/
theorem iKsTestDiscrete_misses_distance :
    ¬ ∃ D, iKsTestDiscrete zetaEnvironment ([1].map fun y : ℤ => .fin (y : ℝ)) (.fin 2)
        (.fin ((1 : ℤ) : ℝ)) = .fin D ∧
      IsGreatest {g | ∃ t, 1 ≤ t ∧
        g = |zetaCdf 2 1 t - ([1].countP (· ≤ t) : ℝ) / ([(1 : ℤ)].length : ℕ)|} D := by
  rintro ⟨D, hrun, -, hbound⟩
  obtain ⟨D', hrun', ⟨w, hw, rfl⟩, -⟩ := iKsTestDiscrete_isGreatest exactZeta_zetaEnvironment
    (one_lt_two : (1 : ℝ) < 2) (le_refl (1 : ℤ)) (by simp [List.sortedLE_iff_pairwise])
    (List.cons_ne_nil 1 []) (by simp)
  rw [hrun', Double.fin.injEq] at hrun
  obtain rfl := List.mem_singleton.mp hw
  have hzero : D = 0 := by
    rw [← hrun, gap, (zetaDistribution _ _).map_pred, empirical_eq_zero (by simp), sub_zero,
      abs_zero]
  have hgap := hbound ⟨1, le_rfl, rfl⟩
  have hcount : ([(1 : ℤ)].countP (· ≤ 1) : ℝ) / ([(1 : ℤ)].length : ℕ) = 1 := by simp
  have htail : 0 < hurwitzZeta 2 ((1 : ℤ) + 1) / hurwitzZeta 2 (1 : ℤ) :=
    div_pos (hurwitzZeta_pos one_lt_two (by norm_num)) (hurwitzZeta_pos one_lt_two (by norm_num))
  rw [hzero, hcount, abs_nonpos_iff, zetaCdf] at hgap
  linarith

end Zeta
end Plfit
