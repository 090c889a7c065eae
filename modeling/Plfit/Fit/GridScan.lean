import Mathlib
import Plfit.Fit.DiscreteFit
import Plfit.Fit.MaximumLikelihood

/-! # The grid of the linear scan

The scan walks over the grid by repeated addition and keeps the first exponent of the largest
likelihood. Its own likelihood comes from the log-sum of the sorted tail, which is the sum that the
public likelihood takes over the samples in any order.
-/
namespace Plfit
open ExactArithmetic StrictScan

/-! ## The scan -/

section Grid
variable {K : Type} [Field K] [LinearOrder K] [IsStrictOrderedRing K] [FloorRing K]
variable {E : Environment K} {lo hi step : K} {logsum xmin : Double K} {m : ℕ}

def gridPoint (lo step : K) (k : ℕ) : K := lo + k * step

def scanLikelihood (E : Environment K) (logsum : Double K) (m : ℕ) (xmin : Double K) (alpha : K) :
    Double K :=
  -.fin alpha * logsum - (m : Double K) * E.lnhzeta (.fin alpha) xmin

/-- Larger likelihoods come first. -/
def likelihoodKey (L : Double K) : (WithBot (WithTop K))ᵒᵈ := OrderDual.toDual L.rank

def gridSize (lo hi step : K) : ℕ := ⌊(hi - lo) / step⌋₊ + 1

omit [LinearOrder K] [IsStrictOrderedRing K] [FloorRing K] in
theorem gridPoint_succ (k : ℕ) : gridPoint lo step (k + 1) = gridPoint lo step k + step := by
  rw [gridPoint, gridPoint]
  push_cast
  ring

theorem gridPoint_le_iff (hstep : 0 < step) (hhi : lo ≤ hi) {k : ℕ} :
    gridPoint lo step k ≤ hi ↔ k < gridSize lo hi step := by
  have hnonneg : 0 ≤ (hi - lo) / step := div_nonneg (sub_nonneg.mpr hhi) hstep.le
  rw [gridSize, Nat.lt_succ_iff, Nat.le_floor_iff hnonneg, le_div_iff₀ hstep, gridPoint,
    le_sub_iff_add_le']

omit [Field K] [IsStrictOrderedRing K] [FloorRing K] in
theorem likelihoodKey_lt_iff {L lMax : Double K} (hL : L ≠ .nan) :
    likelihoodKey L < likelihoodKey lMax ↔ lMax < L :=
  (Double.lt_iff_rank_lt hL).symm

omit [Field K] [IsStrictOrderedRing K] [FloorRing K] in
theorem likelihoodKey_le_iff {L L' : Double K} (hL : L ≠ .nan) (hL' : L' ≠ .nan) :
    likelihoodKey L ≤ likelihoodKey L' ↔ L' ≤ L :=
  (Double.le_iff_rank_le_of_ne_nan hL' hL).symm

/-- From any of its rounds on the scan goes through the rest of the grid. -/
theorem gridScan_spec (hstep : 0 < step) (hhi : lo ≤ hi) {lik : ℕ → Double K}
    (hlik : ∀ k, scanLikelihood E logsum m xmin (gridPoint lo step k) = lik k)
    (hnan : ∀ k < gridSize lo hi step, lik k ≠ .nan) (j k : ℕ) (hjk : k + j = gridSize lo hi step)
    (held : Option ℕ) :
    gridScan E { min := .fin lo, max := .fin hi, step := .fin step } logsum m xmin (j + 1)
        (.fin (gridPoint lo step k)) (held.elim (.fin lo) (fun i => .fin (gridPoint lo step i)))
        (held.elim (-dblMax) lik) =
      .ok (((List.range' k j).foldl
        (consider (fun i => likelihoodKey (lik i)) (likelihoodKey (-dblMax))) held).elim
          (.fin lo) (fun i => .fin (gridPoint lo step i))) := by
  induction j generalizing k held with
  | zero =>
    have hend : ¬ (.fin (gridPoint lo step k) : Double K) ≤ .fin hi := by
      rw [Double.fin_le_fin, gridPoint_le_iff hstep hhi]
      omega
    rw [gridScan, if_neg hend]
    rfl
  | succ j ih =>
    have hk : k < gridSize lo hi step := by omega
    have hinside : (.fin (gridPoint lo step k) : Double K) ≤ .fin hi := by
      rw [Double.fin_le_fin, gridPoint_le_iff hstep hhi]
      exact hk
    have hvalue : value (fun i => likelihoodKey (lik i)) (likelihoodKey (-dblMax)) held =
        likelihoodKey (held.elim (-dblMax) lik) := by
      cases held <;> rfl
    have hnext : (.fin (gridPoint lo step k) : Double K) + .fin step =
        .fin (gridPoint lo step (k + 1)) := by
      rw [Double.fin_add_fin, gridPoint_succ]
    have hL := hlik k
    rw [scanLikelihood] at hL
    rw [gridScan, if_pos hinside, List.range'_succ, List.foldl_cons, consider, hvalue]
    simp only [hL, hnext, likelihoodKey_lt_iff (hnan k hk)]
    split
    · exact ih (k + 1) (by omega) (some k)
    · exact ih (k + 1) (by omega) held

/-- The scan ends with the first exponent of the largest likelihood. -/
theorem gridScan_eq (hstep : 0 < step) (hhi : lo ≤ hi) {lik : ℕ → Double K}
    (hlik : ∀ k, scanLikelihood E logsum m xmin (gridPoint lo step k) = lik k)
    (hlarge : ∀ k < gridSize lo hi step, -dblMax < lik k) :
    ∃ k < gridSize lo hi step,
      gridScan E { min := .fin lo, max := .fin hi, step := .fin step } logsum m xmin
          (gridRounds { min := .fin lo, max := .fin hi, step := .fin step }) (.fin lo) (.fin lo)
          (-dblMax) = .ok (.fin (gridPoint lo step k)) ∧
      ∀ j < gridSize lo hi step, lik j ≤ lik k ∧ (lik k ≤ lik j → k ≤ j) := by
  have hnan : ∀ k < gridSize lo hi step, lik k ≠ .nan := by
    intro k hk hnan
    have hlt := hlarge k hk
    rw [hnan] at hlt
    exact Double.not_lt_nan _ hlt
  have hrun := gridScan_spec hstep hhi hlik hnan (gridSize lo hi step) 0 (Nat.zero_add _) none
  have hstart : gridPoint lo step 0 = lo := by
    rw [gridPoint, Nat.cast_zero, zero_mul, add_zero]
  rw [hstart, ← List.range_eq_range'] at hrun
  cases hscan : scan (fun i => likelihoodKey (lik i)) (likelihoodKey (-dblMax))
      (List.range (gridSize lo hi step)) with
  | none =>
    -- the first exponent of the grid beats the bound already
    have hfirst : 0 < gridSize lo hi step := Nat.succ_pos _
    have hbound := scan_eq_none_iff.mp hscan 0 (List.mem_range.mpr hfirst)
    exact absurd ((likelihoodKey_lt_iff (hnan 0 hfirst)).mpr (hlarge 0 hfirst)) hbound.not_gt
  | some k =>
    have hk : k < gridSize lo hi step := List.mem_range.mp (mem_of_scan hscan)
    refine ⟨k, hk, ?_, ?_⟩
    · rw [scan] at hscan
      rw [hscan] at hrun
      exact hrun
    · intro j hj
      have hmem : j ∈ List.range (gridSize lo hi step) := List.mem_range.mpr hj
      have hsorted : (List.range (gridSize lo hi step)).SortedLT := List.sortedLT_range _
      have hleast := le_of_scan hscan hmem
      constructor
      · exact (likelihoodKey_le_iff (hnan k hk) (hnan j hj)).mp hleast
      · intro hle
        have htie := (likelihoodKey_le_iff (hnan j hj) (hnan k hk)).mpr hle
        exact le_of_scan_of_key_le hsorted hscan hmem htie

end Grid

/-! ## The two log-sums -/

section LogSums
variable {E : Environment ℝ} {ys zs : List ℝ} {xmin alpha : ℝ}

noncomputable def logTotal (ys : List ℝ) : ℝ := (ys.map Real.log).sum

theorem iLogsumDiscrete_fin (hys : ∀ y ∈ ys, 0 < y) :
    iLogsumDiscrete (ys.map .fin) = .fin (logTotal ys) := by
  have hfold : ∀ s : ℝ, (ys.map Double.fin).foldl (fun logsum x => logsum + MathLibrary.log x)
      (.fin s : Double ℝ) = .fin (s + logTotal ys) := by
    induction ys with
    | nil => simp [logTotal]
    | cons y ys ih =>
      intro s
      rw [List.map_cons, List.foldl_cons, MathLibrary.log_fin (hys y List.mem_cons_self),
        Double.fin_add_fin, ih (fun z hz => hys z (List.mem_cons_of_mem y hz))]
      simp only [logTotal, List.map_cons, List.sum_cons, add_assoc]
  simpa [iLogsumDiscrete] using hfold 0

theorem iLogsumLessThanDiscrete_filter (hx : 0 < xmin) :
    iLogsumLessThanDiscrete (ys.map .fin) (.fin xmin) =
      (.fin (logTotal (ys.filter (xmin ≤ ·))), (ys.filter (xmin ≤ ·)).length) := by
  have hfold : ∀ (s : ℝ) (m : ℕ), (ys.map Double.fin).foldl
      (fun (st : Double ℝ × ℕ) (x : Double ℝ) =>
        if x < .fin xmin then st else (st.1 + MathLibrary.log x, st.2 + 1)) (.fin s, m) =
      (.fin (s + logTotal (ys.filter (xmin ≤ ·))), m + (ys.filter (xmin ≤ ·)).length) := by
    induction ys with
    | nil => simp [logTotal]
    | cons y ys ih =>
      intro s m
      rw [List.map_cons, List.foldl_cons]
      by_cases hle : xmin ≤ y
      · rw [if_neg (by simpa using hle), MathLibrary.log_fin (hx.trans_le hle), Double.fin_add_fin,
          ih, List.filter_cons_of_pos (by simpa using hle)]
        simp only [logTotal, List.map_cons, List.sum_cons, add_assoc, List.length_cons,
          Nat.add_comm 1]
      · rw [if_pos (by simpa using hle), ih, List.filter_cons_of_neg (by simpa using hle)]
  simpa [iLogsumLessThanDiscrete] using hfold 0 0

/-- The public likelihood is the one of the scan. -/
theorem logLikelihoodDiscrete_filter (ha : 1 < alpha) (hx : 1 ≤ xmin) :
    logLikelihoodDiscrete E (ys.map .fin) (.fin alpha) (.fin xmin) =
      .ok (scanLikelihood E (.fin (logTotal (ys.filter (xmin ≤ ·))))
        (ys.filter (xmin ≤ ·)).length (.fin xmin) alpha) := by
  have halpha : ¬ (.fin alpha : Double ℝ) ≤ 1 := by simpa using ha
  have hxmin : ¬ (.fin xmin : Double ℝ) < 1 := by simpa using hx
  rw [logLikelihoodDiscrete, if_neg halpha, xminCheckOne, if_neg hxmin,
    iLogsumLessThanDiscrete_filter (one_pos.trans_le hx)]
  rfl

theorem logLikelihoodDiscrete_perm (h : (ys.filter (xmin ≤ ·)).Perm (zs.filter (xmin ≤ ·)))
    (ha : 1 < alpha) (hx : 1 ≤ xmin) :
    logLikelihoodDiscrete E (ys.map .fin) (.fin alpha) (.fin xmin) =
      logLikelihoodDiscrete E (zs.map .fin) (.fin alpha) (.fin xmin) := by
  have hsum : logTotal (ys.filter (xmin ≤ ·)) = logTotal (zs.filter (xmin ≤ ·)) :=
    (h.map Real.log).sum_eq
  rw [logLikelihoodDiscrete_filter ha hx, logLikelihoodDiscrete_filter ha hx, hsum, h.length_eq]

end LogSums

/-! ## The fit -/

section Fit
variable {E : Environment ℝ} {options : DiscreteOptions ℝ} {lo hi step xmin : ℝ} {xs : List ℝ}

theorem alphaRangeCheck_fin (hlo : 1 < lo) (hhi : lo ≤ hi) (hstep : 0 < step) :
    alphaRangeCheck ({ min := .fin lo, max := .fin hi, step := .fin step } : AlphaRange ℝ) =
      .ok () := by
  have h₁ : ¬ (.fin lo : Double ℝ) ≤ 1 := by simpa using hlo
  have h₂ : ¬ (.fin hi : Double ℝ) < .fin lo := by simpa using hhi
  have h₃ : ¬ (.fin step : Double ℝ) ≤ 0 := by simpa using hstep
  rw [alphaRangeCheck, if_neg h₁, if_neg h₂, if_neg h₃]

/-- The scan of a sorted tail ends with the smallest exponent of the grid at which the public
likelihood of the samples, in the order they came in, is largest. The likelihood of the result is
this one. -/
theorem linearScan_maximises_likelihood (hmethod : options.alphaMethod = .linearScan)
    (hrange : options.alpha = { min := .fin lo, max := .fin hi, step := .fin step })
    (huncorrected : options.finiteSizeCorrection = false) (hskip : options.pValueMethod = .skip)
    (hlo : 1 < lo) (hhi : lo ≤ hi) (hstep : 0 < step) (hne : xs ≠ []) (hx : 1 ≤ xmin)
    (hlarge : ∀ k : ℕ, lo + k * step ≤ hi → ∃ L,
      logLikelihoodDiscrete E (xs.map .fin) (.fin (lo + k * step)) (.fin xmin) = .ok L ∧
        -dblMax < L)
    (result : PlfitResult ℝ) (rng : Rng) :
    ∃ out L, ∃ k : ℕ,
      estimateAlphaDiscrete E (some options) (xs.map .fin) (.fin xmin) result rng = .ok out ∧
      out.failure = none ∧ lo + k * step ≤ hi ∧ out.result.alpha = .fin (lo + k * step) ∧
      logLikelihoodDiscrete E (xs.map .fin) (.fin (lo + k * step)) (.fin xmin) = .ok L ∧
      out.result.L = L ∧
      ∀ j : ℕ, lo + j * step ≤ hi → ∃ L',
        logLikelihoodDiscrete E (xs.map .fin) (.fin (lo + j * step)) (.fin xmin) = .ok L' ∧
          L' ≤ L ∧ (L ≤ L' → k ≤ j) := by
  have hx0 : 0 < xmin := one_pos.trans_le hx
  have hgrid : ∀ k : ℕ, 1 < gridPoint lo step k := by
    intro k
    have hnonneg : 0 ≤ (k : ℝ) * step := mul_nonneg (Nat.cast_nonneg k) hstep.le
    rw [gridPoint]
    linarith
  have hfilter : (tailFrom xs xmin).filter (xmin ≤ ·) = tailFrom xs xmin :=
    List.filter_eq_self.mpr fun y hy => by simpa using (mem_tailFrom.mp hy).2
  have hperm : ((tailFrom xs xmin).filter (xmin ≤ ·)).Perm (xs.filter (xmin ≤ ·)) := by
    rw [hfilter]
    exact tailFrom_perm
  -- the likelihood of the scan at the exponents of the grid
  have hlik : ∀ k, logLikelihoodDiscrete E (xs.map .fin) (.fin (gridPoint lo step k)) (.fin xmin) =
      .ok (scanLikelihood E (.fin (logTotal (tailFrom xs xmin))) (tailFrom xs xmin).length
        (.fin xmin) (gridPoint lo step k)) := by
    intro k
    rw [← logLikelihoodDiscrete_perm hperm (hgrid k) hx, logLikelihoodDiscrete_filter (hgrid k) hx,
      hfilter]
  have hscans : ∀ k, scanLikelihood E (.fin (logTotal (tailFrom xs xmin))) (tailFrom xs xmin).length
      (.fin xmin) (gridPoint lo step k) = _ := fun _ => rfl
  obtain ⟨k, hk, hscan, hbest⟩ := gridScan_eq hstep hhi hscans
    (fun k hk => by
      obtain ⟨L, hL, hlt⟩ := hlarge k ((gridPoint_le_iff hstep hhi).mpr hk)
      rw [← gridPoint, hlik k] at hL
      rwa [← Except.ok.inj hL] at hlt)
  have hest : iEstimateAlphaDiscrete E ((tailFrom xs xmin).map .fin) (.fin xmin) options true =
      .ok (.ok (.fin (gridPoint lo step k))) := by
    have hpos : ∀ y ∈ tailFrom xs xmin, 0 < y := fun y hy => hx0.trans_le (mem_tailFrom.mp hy).2
    have hsums : discreteTailSums ((tailFrom xs xmin).map .fin) (.fin xmin) true =
        ((.fin (logTotal (tailFrom xs xmin)) : Double ℝ), (tailFrom xs xmin).length) := by
      rw [discreteTailSums, if_pos rfl, iLogsumDiscrete_fin hpos, List.length_map]
    simp only [iEstimateAlphaDiscrete, hmethod, iEstimateAlphaDiscreteLinearScan,
      xminCheckOne_fin hx, hrange, alphaRangeCheck_fin hlo hhi hstep, hsums, hscan, bind,
      Except.bind, pure, Except.pure]
  have hcheck : discreteInputCheck (xs.map .fin) options = .ok () := by
    have hlen : ¬ (xs.map Double.fin).length ≤ 0 := by simpa using hne
    rw [discreteInputCheck, if_neg hlen, if_pos hmethod, hrange, alphaRangeCheck_fin hlo hhi hstep]
  have hfinal : finalAlpha options.finiteSizeCorrection (.fin (gridPoint lo step k) : Double ℝ)
      ((tailFrom xs xmin).map Double.fin).length = .fin (gridPoint lo step k) := by
    rw [huncorrected, finalAlpha, if_neg Bool.false_ne_true]
  have hL := hlik k
  rw [← logLikelihoodDiscrete_perm hperm (hgrid k) hx, ← hfinal] at hL
  have hfit := estimateAlphaDiscrete_skip hskip hcheck (dropWhile_sort xs xmin) hest hL result rng
  refine ⟨_, _, k, hfit, rfl, (gridPoint_le_iff hstep hhi).mpr hk, hfinal, hlik k, rfl, ?_⟩
  intro j hj
  exact ⟨_, hlik j, hbest j ((gridPoint_le_iff hstep hhi).mp hj)⟩

noncomputable def gridOptions : DiscreteOptions ℝ :=
  { discreteDefaultOptions with
    alphaMethod := .linearScan
    alpha := { min := .fin 2, max := .fin 3, step := .fin 1 }
    pValueMethod := .skip }

/-- The zeta function cut off after its first term. -/
noncomputable def firstTerm : Environment ℝ :=
  idleWith fun alpha x => -alpha * MathLibrary.log x

theorem scanLikelihood_firstTerm {logsum a : ℝ} (hx : 0 < xmin) (m : ℕ) :
    scanLikelihood firstTerm (.fin logsum) m (.fin xmin) a =
      .fin (a * (m * Real.log xmin - logsum)) := by
  have hterm : firstTerm.lnhzeta (.fin a) (.fin xmin) = .fin (-a * Real.log xmin) := by
    change -.fin a * MathLibrary.log (.fin xmin) = _
    rw [MathLibrary.log_fin hx, Double.neg_fin, Double.fin_mul_fin]
  rw [scanLikelihood, hterm, Double.natCast_def, Double.neg_fin, Double.fin_mul_fin,
    Double.fin_mul_fin, Double.fin_sub_fin]
  congr 1
  ring

/-- The samples arrive unsorted and one of them is below `xmin`. The likelihood falls along the
grid. -/
theorem linearScan_maximises_falling_likelihood :
    ∃ out L, ∃ k : ℕ,
      estimateAlphaDiscrete firstTerm (some gridOptions) ([(4 : ℝ), 1, 3, 3].map .fin) (.fin 3)
        idleEnvironment.lastResult (.builtin 1 (fun _ => 0)) = .ok out ∧
      out.failure = none ∧ (2 : ℝ) + k * 1 ≤ 3 ∧ out.result.alpha = .fin (2 + k * 1) ∧
      logLikelihoodDiscrete firstTerm ([(4 : ℝ), 1, 3, 3].map .fin) (.fin (2 + k * 1))
        (.fin (3 : ℝ)) = .ok L ∧
      out.result.L = L ∧
      ∀ j : ℕ, (2 : ℝ) + j * 1 ≤ 3 → ∃ L',
        logLikelihoodDiscrete firstTerm ([(4 : ℝ), 1, 3, 3].map .fin) (.fin (2 + j * 1))
          (.fin (3 : ℝ)) = .ok L' ∧ L' ≤ L ∧ (L ≤ L' → k ≤ j) := by
  have htail : [(4 : ℝ), 1, 3, 3].filter (3 ≤ ·) = [4, 3, 3] := by norm_num [List.filter]
  have htotal : logTotal [(4 : ℝ), 3, 3] = Real.log 4 + 2 * Real.log 3 := by
    simp [logTotal]
    ring
  have hratio : Real.log 4 - Real.log 3 ≤ 1 / 3 := by
    rw [← Real.log_div four_ne_zero three_ne_zero]
    exact (Real.log_le_sub_one_of_pos (by norm_num)).trans_eq (by norm_num)
  have hrises : 0 ≤ Real.log 4 - Real.log 3 :=
    sub_nonneg.mpr (Real.log_le_log three_pos (by norm_num))
  have hlarge : ∀ k : ℕ, (2 : ℝ) + k * 1 ≤ 3 → ∃ L,
      logLikelihoodDiscrete firstTerm ([(4 : ℝ), 1, 3, 3].map .fin) (.fin (2 + k * 1))
        (.fin (3 : ℝ)) = .ok L ∧ -dblMax < L := by
    intro k hk
    have hone : (1 : ℝ) < 2 + k * 1 := by linarith [(Nat.cast_nonneg k : (0 : ℝ) ≤ k)]
    have hbound : -((2 + k * 1) * (3 * Real.log 3 - (Real.log 4 + 2 * Real.log 3))) ≤ 1 := by
      calc -((2 + k * 1) * (3 * Real.log 3 - (Real.log 4 + 2 * Real.log 3)))
          = (2 + k * 1) * (Real.log 4 - Real.log 3) := by ring
        _ ≤ 3 * (Real.log 4 - Real.log 3) := mul_le_mul_of_nonneg_right hk hrises
        _ ≤ 1 := by linarith
    have hmax := lt_dblMax_of_le_one hbound
    refine ⟨_, logLikelihoodDiscrete_filter hone (by norm_num), ?_⟩
    rw [htail, scanLikelihood_firstTerm three_pos, htotal, dblMax, Double.neg_fin,
      Double.fin_lt_fin, neg_lt]
    rwa [dblMax, Double.fin_lt_fin] at hmax
  exact linearScan_maximises_likelihood (rfl : gridOptions.alphaMethod = .linearScan) rfl rfl rfl
    one_lt_two (by norm_num) one_pos (List.cons_ne_nil 4 [1, 3, 3]) (by norm_num) hlarge
    idleEnvironment.lastResult (.builtin 1 (fun _ => 0))

end Fit
end Plfit
