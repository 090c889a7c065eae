import Plfit.Fit.DiscreteDistance
import Plfit.Fit.GridScan
import Plfit.Zeta.LogHurwitz

/-! # The fits with the series linked in

The fits take the logarithm of the zeta function from their environment. With the one of `hzeta.c`
linked in, the likelihood of the samples is off by the error that the series reports, once for
each point of the tail, and by nothing else. The score is off by what the errors of two logarithms
make of a quotient of at most one.
-/
namespace Plfit
open ExactArithmetic RealHurwitz

section Link
variable {K : Type} [Field K] [LinearOrder K] [FloorRing K] [MathLibrary K] [MathLibraryC99 K]

/-- The environment with `hzeta.c` linked in. The two records stand for those that a failure
leaves uninitialised. -/
def linkHzeta (E : Environment K) (result0 result1 : GslSfResult K) : Environment K :=
  { E with
    lnhzeta := hslSfLnhzeta result0
    lnhzetaDerivTuple := hslSfLnhzetaDerivTuple result0 result1 }

end Link

/-! ## The likelihood -/

section LinkedLikelihood
variable {E : Environment ℝ} {ys : List ℝ} {alpha xmin : ℝ}

noncomputable def powerLawLogLikelihood (ys : List ℝ) (alpha xmin : ℝ) : ℝ :=
  (ys.map fun y => Real.log (y ^ (-alpha) / hurwitzZeta alpha xmin)).sum

theorem powerLawLogLikelihood_eq (ha : 1 < alpha) (hx : 0 < xmin) (hys : ∀ y ∈ ys, 0 < y) :
    powerLawLogLikelihood ys alpha xmin =
      -alpha * logTotal ys - ys.length * Real.log (hurwitzZeta alpha xmin) := by
  induction ys with
  | nil => simp [powerLawLogLikelihood, logTotal]
  | cons y ys ih =>
    have hy : 0 < y := hys y List.mem_cons_self
    have htail := ih fun z hz => hys z (List.mem_cons_of_mem y hz)
    have hhead : Real.log (y ^ (-alpha) / hurwitzZeta alpha xmin) =
        -alpha * Real.log y - Real.log (hurwitzZeta alpha xmin) := by
      rw [Real.log_div (Real.rpow_pos_of_pos hy _).ne' (hurwitzZeta_pos ha hx).ne',
        Real.log_rpow hy]
    rw [powerLawLogLikelihood, logTotal] at htail ⊢
    rw [List.map_cons, List.sum_cons, List.map_cons, List.sum_cons, htail, hhead, List.length_cons]
    push_cast
    ring

theorem linkHzeta_lnhzeta {val err : ℝ} {result0 result1 : GslSfResult ℝ}
    (h : hslSfLnhzetaE (.fin alpha) (.fin xmin) = .ok ⟨.fin val, .fin err⟩) :
    (linkHzeta E result0 result1).lnhzeta (.fin alpha) (.fin xmin) = .fin val := by
  change hslSfLnhzeta result0 (.fin alpha) (.fin xmin) = .fin val
  rw [hslSfLnhzeta, h, orNan_ok]

/-- The likelihood is refused for arguments out of range only. Otherwise it differs from that of
the power law by at most the error of the series for each sample of the tail. -/
theorem logLikelihoodDiscrete_linked (E : Environment ℝ) (result0 result1 : GslSfResult ℝ)
    (xs : List ℝ) (alpha xmin : ℝ) :
    (∃ val err L : ℝ, 1 < alpha ∧ 1 ≤ xmin ∧
      hslSfLnhzetaE (.fin alpha) (.fin xmin) = .ok ⟨.fin val, .fin err⟩ ∧
      logLikelihoodDiscrete (linkHzeta E result0 result1) (xs.map .fin) (.fin alpha) (.fin xmin) =
        .ok (.fin L) ∧
      |L - powerLawLogLikelihood (xs.filter (xmin ≤ ·)) alpha xmin| ≤
        (xs.filter (xmin ≤ ·)).length * err) ∨
    (alpha ≤ 1 ∨ xmin < 1) ∧
      ∃ e, logLikelihoodDiscrete (linkHzeta E result0 result1) (xs.map .fin) (.fin alpha)
        (.fin xmin) = .error e ∧ e.errno = .einval := by
  by_cases ha : alpha ≤ 1
  · right
    have halpha : (.fin alpha : Double ℝ) ≤ 1 := by simpa using ha
    rw [logLikelihoodDiscrete, if_pos halpha]
    exact ⟨.inl ha, _, rfl, rfl⟩
  have halpha : ¬ (.fin alpha : Double ℝ) ≤ 1 := by simpa using ha
  by_cases hx : xmin < 1
  · right
    have hxmin : (.fin xmin : Double ℝ) < 1 := by simpa using hx
    rw [logLikelihoodDiscrete, if_neg halpha, xminCheckOne, if_pos hxmin]
    exact ⟨.inr hx, _, rfl, rfl⟩
  left
  rw [not_le] at ha
  rw [not_lt] at hx
  have hx0 : 0 < xmin := one_pos.trans_le hx
  obtain ⟨val, err, hok, hnear⟩ := hslSfLnhzetaE_ok ha hx0
  have hpos : ∀ y ∈ xs.filter (xmin ≤ ·), 0 < y := fun y hy =>
    hx0.trans_le (by simpa using (List.mem_filter.mp hy).2)
  have hlen : (0 : ℝ) ≤ (xs.filter (xmin ≤ ·)).length := Nat.cast_nonneg _
  refine ⟨val, err, -alpha * logTotal (xs.filter (xmin ≤ ·)) -
    (xs.filter (xmin ≤ ·)).length * val, ha, hx, hok, ?_, ?_⟩
  · rw [logLikelihoodDiscrete_filter ha hx, scanLikelihood, linkHzeta_lnhzeta hok]
    simp only [Double.natCast_def, Double.neg_fin, Double.fin_mul_fin, Double.fin_sub_fin]
  · rw [powerLawLogLikelihood_eq ha hx0 hpos, sub_sub_sub_cancel_left, ← mul_sub, abs_mul,
      abs_of_nonneg hlen, abs_sub_comm]
    exact mul_le_mul_of_nonneg_left hnear hlen

end LinkedLikelihood

/-! ## The score -/

section LinkedScore
variable {E E' : Environment ℝ} {ys : List ℝ} {alpha xmin : ℝ}

theorem abs_exp_sub_exp_le {u v e : ℝ} (hv : v ≤ 0) (h : |u - v| ≤ e) :
    |Real.exp u - Real.exp v| ≤ Real.exp e - 1 := by
  obtain ⟨hlow, hhigh⟩ := abs_le.mp h
  have hone : Real.exp v ≤ 1 := Real.exp_le_one_iff.mpr hv
  have he : 1 ≤ Real.exp e := Real.one_le_exp ((abs_nonneg _).trans h)
  have hup : Real.exp u ≤ Real.exp v * Real.exp e := by
    rw [← Real.exp_add]
    exact Real.exp_le_exp.mpr (by linarith)
  have hdown : Real.exp v ≤ Real.exp u * Real.exp e := by
    rw [← Real.exp_add]
    exact Real.exp_le_exp.mpr (by linarith)
  rw [abs_le]
  constructor
  · rcases le_total (Real.exp u) 1 with hu | hu
    · have hscaled := mul_le_mul_of_nonneg_right hu (sub_nonneg.mpr he)
      linarith
    · linarith
  · have hscaled := mul_le_mul_of_nonneg_right hone (sub_nonneg.mpr he)
    linarith

/-- Loops whose distances are close end with scores that are as close. -/
theorem ksLoop_close {n lnhzeta lnhzeta' : Double ℝ} {g g' : ℕ → ℝ → ℝ} {delta : ℝ}
    (hs : ys.SortedLE)
    (hg : ∀ i, ∀ y ∈ ys, ksDistance E (.fin alpha) n lnhzeta (.fin y) i = .fin (g i y))
    (hg' : ∀ i, ∀ y ∈ ys, ksDistance E' (.fin alpha) n lnhzeta' (.fin y) i = .fin (g' i y))
    (hdelta : 0 ≤ delta) (hclose : ∀ i, ∀ y ∈ ys, |g i y - g' i y| ≤ delta) :
    ∃ D D' : ℝ,
      iKsTestDiscrete.loop E (.fin alpha) n lnhzeta (ys.map .fin) 0 0 = .fin D ∧
      iKsTestDiscrete.loop E' (.fin alpha) n lnhzeta' (ys.map .fin) 0 0 = .fin D' ∧
      |D - D'| ≤ delta := by
  obtain ⟨D, hrun, hnonneg, hall, hattained⟩ := ksLoop_spec hs hg 0 0
  obtain ⟨D', hrun', hnonneg', hall', hattained'⟩ := ksLoop_spec hs hg' 0 0
  refine ⟨D, D', hrun, hrun', ?_⟩
  rw [abs_le]
  constructor
  · rcases hattained' with rfl | ⟨y, hy, rfl⟩
    · linarith
    · linarith [hall y hy, (abs_le.mp (hclose (0 + SortedBlocks.below ys y) y hy)).1]
  · rcases hattained with rfl | ⟨y, hy, rfl⟩
    · linarith
    · linarith [hall' y hy, (abs_le.mp (hclose (0 + SortedBlocks.below ys y) y hy)).2]

theorem ksDistance_fin {n : ℕ} (hn : 0 < n) {y u v : ℝ}
    (hy : E.lnhzeta (.fin alpha) (.fin y) = .fin u) (i : ℕ) :
    ksDistance E (.fin alpha) n (.fin v) (.fin y) i = .fin |Real.exp (u - v) - 1 + i / n| := by
  have hn0 : (n : ℝ) ≠ 0 := by exact_mod_cast hn.ne'
  rw [ksDistance, hy, Double.fin_sub_fin, MathLibrary.expm1_fin, Double.natCast_def,
    Double.natCast_def, Double.fin_div_fin hn0, Double.fin_add_fin, Double.fabs_fin]

/-- If no error that the series reports for `xmin` or for a sample is above a bound, the score
differs from the one with the exact zeta function by at most what twice the bound adds to the
exponential function. -/
theorem iKsTestDiscrete_linked (E : Environment ℝ) (result0 result1 : GslSfResult ℝ)
    (ha : 1 < alpha) (hx : 0 < xmin) (hs : ys.SortedLE) (hys : ∀ y ∈ ys, xmin ≤ y) {bound : ℝ}
    (hbound : ∀ y ∈ xmin :: ys, ∃ val err : ℝ,
      hslSfLnhzetaE (.fin alpha) (.fin y) = .ok ⟨.fin val, .fin err⟩ ∧ err ≤ bound) :
    ∃ D D' : ℝ,
      iKsTestDiscrete (linkHzeta E result0 result1) (ys.map .fin) (.fin alpha) (.fin xmin) =
        .fin D ∧
      iKsTestDiscrete zetaEnvironment (ys.map .fin) (.fin alpha) (.fin xmin) = .fin D' ∧
      |D - D'| ≤ Real.exp (2 * bound) - 1 := by
  have hpos : ∀ y ∈ xmin :: ys, 0 < y := by
    intro y hy
    rcases List.mem_cons.mp hy with rfl | hy
    · exact hx
    · exact hx.trans_le (hys y hy)
  have hvalue : ∀ y ∈ xmin :: ys, ∃ val : ℝ,
      (linkHzeta E result0 result1).lnhzeta (.fin alpha) (.fin y) = .fin val ∧
      |val - Real.log (hurwitzZeta alpha y)| ≤ bound := by
    intro y hy
    obtain ⟨val, err, hok, hle⟩ := hbound y hy
    obtain ⟨val', err', hok', hnear⟩ := hslSfLnhzetaE_ok ha (hpos y hy)
    rw [hok, Except.ok.injEq, GslSfResult.mk.injEq, Double.fin.injEq, Double.fin.injEq] at hok'
    obtain ⟨rfl, rfl⟩ := hok'
    exact ⟨val, linkHzeta_lnhzeta hok, hnear.trans hle⟩
  choose! val hval hnear using hvalue
  have hnonneg : 0 ≤ bound := (abs_nonneg _).trans (hnear xmin List.mem_cons_self)
  have hexact : ∀ y, (zetaEnvironment.lnhzeta (.fin alpha) (.fin y) : Double ℝ) =
      .fin (Real.log (hurwitzZeta alpha y)) := fun _ => rfl
  have hn : ∀ y ∈ ys, 0 < ys.length := fun y hy => List.length_pos_of_mem hy
  have hdelta : 0 ≤ Real.exp (2 * bound) - 1 := sub_nonneg.mpr (Real.one_le_exp (by linarith))
  have hclose : ∀ i : ℕ, ∀ y ∈ ys, |(|Real.exp (val y - val xmin) - 1 + i / ys.length| -
      |Real.exp (Real.log (hurwitzZeta alpha y) - Real.log (hurwitzZeta alpha xmin)) - 1 +
        i / ys.length|)| ≤ Real.exp (2 * bound) - 1 := by
    intro i y hy
    have hsample := abs_le.mp (hnear y (List.mem_cons_of_mem _ hy))
    have hstart := abs_le.mp (hnear xmin List.mem_cons_self)
    have hratio : Real.log (hurwitzZeta alpha y) - Real.log (hurwitzZeta alpha xmin) ≤ 0 :=
      sub_nonpos.mpr (Real.log_le_log (hurwitzZeta_pos ha (hx.trans_le (hys y hy)))
        (hurwitzZeta_le ha hx (hys y hy)))
    refine (abs_abs_sub_abs_le_abs_sub _ _).trans ?_
    rw [add_sub_add_right_eq_sub, sub_sub_sub_cancel_right]
    apply abs_exp_sub_exp_le hratio
    rw [abs_le]
    constructor <;> linarith [hsample.1, hsample.2, hstart.1, hstart.2]
  obtain ⟨D, D', hrun, hrun', hnear'⟩ := ksLoop_close hs
    (fun i y hy => ksDistance_fin (hn y hy) (hval y (List.mem_cons_of_mem _ hy)) i)
    (fun i y hy => ksDistance_fin (hn y hy) (hexact y) i) hdelta hclose
  refine ⟨D, D', ?_, ?_, hnear'⟩
  · rw [iKsTestDiscrete, List.length_map, hval xmin List.mem_cons_self]
    exact hrun
  · rw [iKsTestDiscrete, List.length_map, hexact xmin]
    exact hrun'

/-- One sample at `xmin` and one above, with the larger of the two reported errors. -/
theorem iKsTestDiscrete_linked_pair :
    ∃ val₁ err₁ val₂ err₂ D D' : ℝ,
      hslSfLnhzetaE (.fin (2 : ℝ)) (.fin 1) = .ok ⟨.fin val₁, .fin err₁⟩ ∧
      hslSfLnhzetaE (.fin (2 : ℝ)) (.fin 2) = .ok ⟨.fin val₂, .fin err₂⟩ ∧
      iKsTestDiscrete (linkHzeta idleEnvironment ⟨0, 0⟩ ⟨0, 0⟩) ([(1 : ℝ), 2].map .fin) (.fin 2)
        (.fin 1) = .fin D ∧
      iKsTestDiscrete zetaEnvironment ([(1 : ℝ), 2].map .fin) (.fin 2) (.fin 1) = .fin D' ∧
      |D - D'| ≤ Real.exp (2 * max err₁ err₂) - 1 := by
  obtain ⟨val₁, err₁, hok₁, -⟩ := hslSfLnhzetaE_ok (one_lt_two : (1 : ℝ) < 2) one_pos
  obtain ⟨val₂, err₂, hok₂, -⟩ := hslSfLnhzetaE_ok (one_lt_two : (1 : ℝ) < 2) two_pos
  have hbound : ∀ y ∈ [(1 : ℝ), 1, 2], ∃ val err : ℝ,
      hslSfLnhzetaE (.fin 2) (.fin y) = .ok ⟨.fin val, .fin err⟩ ∧ err ≤ max err₁ err₂ := by
    intro y hy
    have hcases : y = 1 ∨ y = 2 := by simpa using hy
    rcases hcases with rfl | rfl
    · exact ⟨val₁, err₁, hok₁, le_max_left err₁ err₂⟩
    · exact ⟨val₂, err₂, hok₂, le_max_right err₁ err₂⟩
  have hsorted : [(1 : ℝ), 2].SortedLE := by
    rw [List.sortedLE_iff_pairwise]
    norm_num
  have hfrom : ∀ y ∈ [(1 : ℝ), 2], 1 ≤ y := by norm_num
  obtain ⟨D, D', hrun, hrun', hnear⟩ := iKsTestDiscrete_linked idleEnvironment ⟨0, 0⟩ ⟨0, 0⟩
    one_lt_two one_pos hsorted hfrom hbound
  exact ⟨val₁, err₁, val₂, err₂, D, D', hok₁, hok₂, hrun, hrun', hnear⟩

end LinkedScore
end Plfit
