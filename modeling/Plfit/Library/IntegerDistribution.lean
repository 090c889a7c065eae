import Mathlib

/-! # The distance between an empirical and an integer distribution

A distribution function on the integers is compared with the empirical one of a sample. Between two
samples the empirical function is constant and the other one does not decrease, so the distance is
attained at a sample or just before one.
-/
namespace IntegerDistribution

/-- A distribution function on the integers from `lo` on. -/
structure DistributionFrom (lo : ℤ) where
  toFun : ℤ → ℝ
  map_pred : toFun (lo - 1) = 0
  le_one : ∀ t ≥ lo, toFun t ≤ 1
  monotone : ∀ s t, lo - 1 ≤ s → s ≤ t → toFun s ≤ toFun t

noncomputable def empirical (ys : List ℤ) (t : ℤ) : ℝ := ys.countP (· ≤ t) / ys.length

variable {lo : ℤ} (F : DistributionFrom lo) {ys : List ℤ}

noncomputable def gap (ys : List ℤ) (t : ℤ) : ℝ := |F.toFun t - empirical ys t|

noncomputable def excess (ys : List ℤ) (t : ℤ) : ℝ := empirical ys t - F.toFun t

variable {F}

theorem DistributionFrom.nonneg {t : ℤ} (ht : lo - 1 ≤ t) : 0 ≤ F.toFun t :=
  F.map_pred ▸ F.monotone _ _ le_rfl ht

/-- An interval without samples leaves the empirical function as it is. -/
theorem empirical_eq {s t : ℤ} (hst : s ≤ t) (hnone : ∀ y ∈ ys, y ≤ t → y ≤ s) :
    empirical ys s = empirical ys t := by
  have hcount : ys.countP (· ≤ s) = ys.countP (· ≤ t) := by
    apply List.countP_congr
    intro y hy
    simp only [decide_eq_true_eq]
    exact ⟨fun h => h.trans hst, hnone y hy⟩
  rw [empirical, empirical, hcount]

theorem empirical_eq_zero {t : ℤ} (hnone : ∀ y ∈ ys, t < y) : empirical ys t = 0 := by
  have hcount : ys.countP (· ≤ t) = 0 := by
    rw [List.countP_eq_zero]
    intro y hy
    simpa using hnone y hy
  rw [empirical, hcount, Nat.cast_zero, zero_div]

theorem empirical_eq_one (hne : ys ≠ []) {t : ℤ} (hall : ∀ y ∈ ys, y ≤ t) : empirical ys t = 1 := by
  have hcount : ys.countP (· ≤ t) = ys.length := by
    rw [List.countP_eq_length]
    intro y hy
    simpa using hall y hy
  have hpos : (0 : ℝ) < ys.length := by exact_mod_cast List.length_pos_of_ne_nil hne
  rw [empirical, hcount, div_self hpos.ne']

/-- The empirical function has last risen at a sample. -/
theorem excess_le {t : ℤ} (ht : lo ≤ t) {d : ℝ} (hd : 0 ≤ d)
    (hafter : ∀ v ∈ ys, excess F ys v ≤ d) (hys : ∀ y ∈ ys, lo ≤ y) : excess F ys t ≤ d := by
  by_cases hnone : ∀ y ∈ ys, t < y
  · have hF : 0 ≤ F.toFun t := F.nonneg (by omega)
    rw [excess, empirical_eq_zero hnone]
    linarith
  · push Not at hnone
    obtain ⟨y, hy, hyt⟩ := hnone
    obtain ⟨v, hv, hmax⟩ := (ys.toFinset.filter (· ≤ t)).exists_max_image id
      ⟨y, Finset.mem_filter.mpr ⟨List.mem_toFinset.mpr hy, hyt⟩⟩
    obtain ⟨hv, hvt⟩ := Finset.mem_filter.mp hv
    rw [List.mem_toFinset] at hv
    have hsame : empirical ys v = empirical ys t := by
      apply empirical_eq hvt
      intro z hz hzt
      exact hmax z (Finset.mem_filter.mpr ⟨List.mem_toFinset.mpr hz, hzt⟩)
    have hF : F.toFun v ≤ F.toFun t := F.monotone v t (by have := hys v hv; omega) hvt
    have hv' := hafter v hv
    rw [excess, hsame] at hv'
    rw [excess]
    linarith

/-- The empirical function rises next at a sample. -/
theorem neg_excess_le (hne : ys ≠ []) {t : ℤ} (ht : lo ≤ t) {d : ℝ} (hd : 0 ≤ d)
    (hbefore : ∀ w ∈ ys, gap F ys (w - 1) ≤ d) : -excess F ys t ≤ d := by
  by_cases hall : ∀ y ∈ ys, y ≤ t
  · have hF : F.toFun t ≤ 1 := F.le_one t ht
    rw [excess, empirical_eq_one hne hall]
    linarith
  · push Not at hall
    obtain ⟨y, hy, hyt⟩ := hall
    obtain ⟨w, hw, hmin⟩ := (ys.toFinset.filter (t < ·)).exists_min_image id
      ⟨y, Finset.mem_filter.mpr ⟨List.mem_toFinset.mpr hy, hyt⟩⟩
    obtain ⟨hw, htw⟩ := Finset.mem_filter.mp hw
    rw [List.mem_toFinset] at hw
    have hsame : empirical ys t = empirical ys (w - 1) := by
      apply empirical_eq (by omega)
      intro z hz hzw
      by_contra htz
      have := hmin z (Finset.mem_filter.mpr ⟨List.mem_toFinset.mpr hz, by omega⟩)
      simp only [id] at this
      omega
    have hF : F.toFun t ≤ F.toFun (w - 1) := F.monotone t (w - 1) (by omega) (by omega)
    have hw' := le_of_abs_le (hbefore w hw)
    rw [excess, hsame]
    linarith

/-- The largest gap just before a sample is the distance exactly when it is not exceeded after a
sample either. -/
theorem isGreatest_gap_iff (hne : ys ≠ []) (hys : ∀ y ∈ ys, lo ≤ y) {d : ℝ}
    (hd : IsGreatest {g | ∃ w ∈ ys, g = gap F ys (w - 1)} d) :
    IsGreatest {g | ∃ t, lo ≤ t ∧ g = gap F ys t} d ↔
      ∀ v ∈ ys, ∃ w ∈ ys, excess F ys v ≤ gap F ys (w - 1) := by
  obtain ⟨⟨w, hw, rfl⟩, hbefore⟩ := hd
  have hbound : ∀ z ∈ ys, gap F ys (z - 1) ≤ gap F ys (w - 1) :=
    fun z hz => hbefore ⟨z, hz, rfl⟩
  have hnonneg : 0 ≤ gap F ys (w - 1) := abs_nonneg _
  constructor
  · intro hgreatest v hv
    have hgap : gap F ys v ≤ gap F ys (w - 1) := hgreatest.2 ⟨v, hys v hv, rfl⟩
    refine ⟨w, hw, le_trans ?_ hgap⟩
    rw [excess, gap, abs_sub_comm]
    exact le_abs_self _
  · intro hafter
    have hexcess : ∀ v ∈ ys, excess F ys v ≤ gap F ys (w - 1) := by
      intro v hv
      obtain ⟨z, hz, hle⟩ := hafter v hv
      exact hle.trans (hbound z hz)
    have hall : ∀ t, lo ≤ t → gap F ys t ≤ gap F ys (w - 1) := by
      intro t ht
      have habove := excess_le ht hnonneg hexcess hys
      have hbelow := neg_excess_le hne ht hnonneg hbound
      rw [excess] at habove hbelow
      exact abs_sub_le_iff.mpr ⟨by linarith, by linarith⟩
    refine ⟨?_, ?_⟩
    · rcases (hys w hw).eq_or_lt with rfl | hlt
      · -- nothing lies before the first integer, so all gaps vanish
        have hnone : ∀ y ∈ ys, lo - 1 < y := fun y hy => by have := hys y hy; omega
        have hzero : gap F ys (lo - 1) = 0 := by
          rw [gap, F.map_pred, empirical_eq_zero hnone, sub_zero, abs_zero]
        refine ⟨lo, le_rfl, le_antisymm ?_ (hall lo le_rfl)⟩
        rw [hzero]
        exact abs_nonneg _
      · exact ⟨w - 1, by omega, rfl⟩
    · rintro g ⟨t, ht, rfl⟩
      exact hall t ht

end IntegerDistribution
