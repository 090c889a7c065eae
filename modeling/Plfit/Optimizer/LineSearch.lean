import Mathlib
import Plfit.Optimizer.TwoLoop

/-! # What an accepted step satisfies

The line searches on a function that has numbers as values and gradients. A step that a
search accepts is positive, decreases the function by at least a fraction of what the slope
at the start predicts and, unless the Armijo condition alone is asked for, has lost a
fraction of that slope.
-/
namespace Plfit
open ExactArithmetic QuasiNewton

section Tolerances
variable {K : Type} [Field K] [LinearOrder K] {n : ℕ}

/-- The callback computes a function and its gradient, whatever step it is told. -/
def Computes (evaluate : LbfgsEvaluate n K) (f : (Fin n → K) → K)
    (grad : (Fin n → K) → Fin n → K) : Prop :=
  ∀ x t, 0 ≤ t → evaluate (vec x) (.fin t) = (.fin (f x), vec (grad x))

/-- The parameters of the line searches are numbers in the order that `lbfgs` checks. -/
structure Tolerances (param : LbfgsParameter K) where
  ftol : K
  wolfe : K
  gtol : K
  minStep : K
  maxStep : K
  ftol_eq : param.ftol = .fin ftol
  wolfe_eq : param.wolfe = .fin wolfe
  gtol_eq : param.gtol = .fin gtol
  minStep_eq : param.minStep = .fin minStep
  maxStep_eq : param.maxStep = .fin maxStep
  ftol_nonneg : 0 ≤ ftol
  minStep_nonneg : 0 ≤ minStep
  minStep_le : minStep ≤ maxStep

def Tolerances.slope {param : LbfgsParameter K} (T : Tolerances param) : K :=
  if param.linesearch = .morethuente then T.gtol else T.wolfe

def trialAt (f : (Fin n → K) → K) (grad : (Fin n → K) → Fin n → K) (x d : Fin n → K) (t : K) :
    LineSearchState n K :=
  { x := vec (x + t • d), f := .fin (f (x + t • d)), g := vec (grad (x + t • d)), stp := .fin t }

theorem tryStep_vec {evaluate : LbfgsEvaluate n K} {f : (Fin n → K) → K}
    {grad : (Fin n → K) → Fin n → K} (hev : Computes evaluate f grad) (x d : Fin n → K) {t : K}
    (ht : 0 ≤ t) : tryStep evaluate (vec x) (vec d) (.fin t) = trialAt f grad x d t := by
  rw [tryStep, vecadd_vec, hev _ t ht]
  rfl

/-- The sufficient decrease condition on the step `t`. -/
def Decreases (f : (Fin n → K) → K) (grad : (Fin n → K) → Fin n → K) (ftol : K)
    (x d : Fin n → K) (t : K) : Prop :=
  f (x + t • d) ≤ f x + t * (ftol * dotp (grad x) d)

/-- The curvature condition on the step `t`. -/
def Flattens (grad : (Fin n → K) → Fin n → K) (slope : K) (x d : Fin n → K) (t : K) : Prop :=
  slope * dotp (grad x) d ≤ dotp (grad (x + t • d)) d

/-- The curvature condition on the magnitudes of the slopes. -/
def StronglyFlattens (grad : (Fin n → K) → Fin n → K) (slope : K) (x d : Fin n → K) (t : K) :
    Prop :=
  |dotp (grad (x + t • d)) d| ≤ slope * -dotp (grad x) d

end Tolerances

section Searches
variable {K : Type} [Field K] [LinearOrder K] [IsStrictOrderedRing K] {n : ℕ}
  {param : LbfgsParameter K} {evaluate : LbfgsEvaluate n K} {f : (Fin n → K) → K}
  {grad : (Fin n → K) → Fin n → K} {x d : Fin n → K}

theorem StronglyFlattens.flattens {slope t : K} (h : StronglyFlattens grad slope x d t) :
    Flattens grad slope x d t := by
  have hle := (abs_le.mp h).1
  rwa [mul_neg, neg_neg] at hle

/-- A gradient that flattens along a descent direction has changed along it. -/
theorem Flattens.curved {slope t : K} (h : Flattens grad slope x d t) (hslope : slope < 1)
    (ht : 0 < t) (hd : dot n K (grad x) d < 0) :
    Curved (dot n K) ⟨x + t • d - x, grad (x + t • d) - grad x⟩ := by
  have hlt : dot n K (grad x) d < slope * dot n K (grad x) d := by nlinarith
  have hgrow : 0 < dot n K (grad (x + t • d) - grad x) d := by
    rw [map_sub, LinearMap.sub_apply, sub_pos]
    exact hlt.trans_le h
  change 0 < dot n K (grad (x + t • d) - grad x) (x + t • d - x)
  rw [add_sub_cancel_left, map_smul, smul_eq_mul]
  exact mul_pos ht hgrow

/-! ## Backtracking -/

omit [IsStrictOrderedRing K] in
/-- Which conditions `line_search_backtracking` asks for. -/
theorem backtrackingWidth_eq_none_iff (T : Tolerances param) (f : (Fin n → K) → K)
    (grad : (Fin n → K) → Fin n → K) (x d : Fin n → K) (t : K) :
    backtrackingWidth param (vec d) (.fin (f x)) (.fin (dot n K (grad x) d))
        (param.ftol * .fin (dot n K (grad x) d)) (trialAt f grad x d t) = none ↔
      Decreases f grad T.ftol x d t ∧
        (param.linesearch ≠ .backtrackingArmijo → Flattens grad T.wolfe x d t ∧
          (param.linesearch ≠ .backtrackingWolfe →
            dot n K (grad (x + t • d)) d ≤ -(T.wolfe * dot n K (grad x) d))) := by
  simp only [backtrackingWidth, trialAt, T.ftol_eq, T.wolfe_eq, vecdot_vec, Double.fin_mul_fin,
    Double.fin_add_fin, Double.neg_fin, Double.fin_lt_fin, neg_mul, Decreases, Flattens,
    dotp_def]
  split_ifs with hf harmijo hdg hwolfe hstrong
  · simp [not_le.mpr hf]
  · simp [not_lt.mp hf, harmijo]
  · simp [harmijo, not_le.mpr hdg]
  · simp [not_lt.mp hf, not_lt.mp hdg, hwolfe]
  · simp [harmijo, hwolfe, not_le.mpr hstrong]
  · simp [not_lt.mp hf, not_lt.mp hdg, not_lt.mp hstrong]

/-- The next step is the present one times a positive factor. -/
theorem exists_pos_of_backtrackingWidth {s : Vec n K} {finit dginit dgtest width : Double K}
    {trial : LineSearchState n K}
    (h : backtrackingWidth param s finit dginit dgtest trial = some width) :
    ∃ w, 0 < w ∧ .fin w = width := by
  simp only [backtrackingWidth] at h
  split_ifs at h <;> cases h <;> exact ⟨_, by norm_num, rfl⟩

omit [Field K] [IsStrictOrderedRing K] in
theorem stepBounds_ne_ok {stp : Double K} {count : ℕ} {e : LbfgsError}
    (h : stepBounds param stp count = some e) :
    e = .minimumstep ∨ e = .maximumstep ∨ e = .maximumlinesearch := by
  unfold stepBounds at h
  split_ifs at h <;> cases h <;> simp

/-- Every trial of the backtracking loop is at a positive step, and the last one is accepted
when the loop succeeds. -/
theorem backtrackingLoop_last (param : LbfgsParameter K) (hev : Computes evaluate f grad)
    (x d : Fin n → K) (finit dginit dgtest : Double K) {t : K} (ht : 0 < t) (count : ℕ) :
    ∃ t', 0 < t' ∧
      (backtrackingLoop param evaluate (vec x) (vec d) finit dginit dgtest (.fin t) count).last =
        trialAt f grad x d t' ∧
      match (backtrackingLoop param evaluate (vec x) (vec d) finit dginit dgtest (.fin t)
          count).ls with
      | .ok ls => backtrackingWidth param (vec d) finit dginit dgtest (trialAt f grad x d t') = none
          ∧ count < ls ∧ (ls = count + 1 ∨ (ls : ℤ) ≤ param.maxLinesearch)
      | .error e => e = .minimumstep ∨ e = .maximumstep ∨ e = .maximumlinesearch := by
  generalize hstp : (.fin t : Double K) = stp
  fun_induction backtrackingLoop param evaluate (vec x) (vec d) finit dginit dgtest stp count
    generalizing t with
  | case1 stp count trial =>
    rename_i haccept
    subst hstp
    rw [show trial = trialAt f grad x d t from tryStep_vec hev x d ht.le] at haccept ⊢
    exact ⟨t, ht, rfl, haccept, Nat.lt_succ_self count, .inl rfl⟩
  | case2 stp count trial width hwidth e =>
    rename_i hbound
    subst hstp
    rw [show trial = trialAt f grad x d t from tryStep_vec hev x d ht.le]
    exact ⟨t, ht, rfl, stepBounds_ne_ok hbound⟩
  | case3 stp count trial width hwidth hbound =>
    rename_i ih
    subst hstp
    obtain ⟨w, hw, rfl⟩ := exists_pos_of_backtrackingWidth hwidth
    obtain ⟨t', ht', hlast, hls⟩ := ih (mul_pos ht hw) (Double.fin_mul_fin t w).symm
    refine ⟨t', ht', hlast, ?_⟩
    revert hls
    split
    · rintro ⟨haccept, hcount, hle⟩
      have hmax := lt_of_stepBounds_eq_none hbound
      exact ⟨haccept, by omega, .inr (by omega)⟩
    · exact id

/-! ## The search of Moré and Thuente -/

/-- A step that the search may try: clipped to the range, the start, or a NaN. -/
def Tolerances.Tries (T : Tolerances param) (stp : Double K) : Prop :=
  stp = .nan ∨ ∃ t, (t = 0 ∨ t ∈ Set.Icc T.minStep T.maxStep) ∧ stp = .fin t

omit [IsStrictOrderedRing K] in
theorem tries_clipStep (T : Tolerances param) (stp : Double K) : T.Tries (clipStep param stp) := by
  have hle := T.minStep_le
  simp only [clipStep, T.minStep_eq, T.maxStep_eq]
  cases stp with
  | nan => exact .inl (by simp)
  | ninf =>
    rw [if_pos Double.ninf_lt_fin, if_neg (by simpa using hle)]
    exact .inr ⟨T.minStep, .inr ⟨le_rfl, hle⟩, rfl⟩
  | pinf =>
    rw [if_neg (Double.not_pinf_lt _), if_pos Double.fin_lt_pinf]
    exact .inr ⟨T.maxStep, .inr ⟨hle, le_rfl⟩, rfl⟩
  | fin t =>
    refine .inr ?_
    by_cases hmin : t < T.minStep
    · rw [if_pos (Double.fin_lt_fin.mpr hmin), if_neg (by simpa using hle)]
      exact ⟨T.minStep, .inr ⟨le_rfl, hle⟩, rfl⟩
    · rw [if_neg (Double.fin_lt_fin.not.mpr hmin)]
      by_cases hmax : T.maxStep < t
      · rw [if_pos (Double.fin_lt_fin.mpr hmax)]
        exact ⟨T.maxStep, .inr ⟨hle, le_rfl⟩, rfl⟩
      · rw [if_neg (Double.fin_lt_fin.not.mpr hmax)]
        exact ⟨t, .inr ⟨not_lt.mp hmin, not_lt.mp hmax⟩, rfl⟩

omit [IsStrictOrderedRing K] in
theorem tries_trialStep (T : Tolerances param) {st : MoreThuente K} (h : T.Tries st.I.x.t) :
    T.Tries (trialStep param st) := by
  simp only [trialStep]
  split
  · exact h
  · exact tries_clipStep T _

omit [IsStrictOrderedRing K] in
/-- The verdict is success only after both conditions have been checked. -/
theorem moreThuenteVerdict_eq_ok {st : MoreThuente K} {dginit dgtest ftest1 : Double K}
    {trial : StepSample K} {ls : ℕ}
    (h : moreThuenteVerdict param st dginit dgtest ftest1 trial = some (.ok ls)) :
    trial.f ≤ ftest1 ∧ Double.fabs trial.d ≤ param.gtol * (-dginit) ∧ ls = st.count + 1 ∧
      (ls : ℤ) < param.maxLinesearch := by
  simp only [moreThuenteVerdict] at h
  split_ifs at h with _ _ _ _ hcount haccept <;> cases h
  exact ⟨haccept.1, haccept.2, rfl, not_le.mp hcount⟩

omit [IsStrictOrderedRing K] in
theorem moreThuenteVerdict_eq_error {st : MoreThuente K} {dginit dgtest ftest1 : Double K}
    {trial : StepSample K} {e : LbfgsError}
    (h : moreThuenteVerdict param st dginit dgtest ftest1 trial = some (.error e)) :
    e ∈ [LbfgsError.roundingError, .maximumstep, .minimumstep, .widthtoosmall,
      .maximumlinesearch] := by
  simp only [moreThuenteVerdict] at h
  split_ifs at h <;> cases h <;> simp

variable [MathLibrary K]

omit [IsStrictOrderedRing K] in
theorem updateTrialInterval_x {I next : TrialInterval K} {t : StepSample K}
    {tmin tmax newt : Double K} (h : updateTrialInterval I t tmin tmax = .ok (next, newt)) :
    next.x = I.x ∨ next.x = t := by
  simp only [updateTrialInterval] at h
  split_ifs at h <;> cases h
  all_goals
    unfold updateEnds
    split_ifs <;> simp

omit [IsStrictOrderedRing K] in
theorem updateInterval_x (st : MoreThuente K) (dginit dgtest ftest1 : Double K)
    (trial : StepSample K) :
    (updateInterval param st dginit dgtest ftest1 trial).I.x.t = st.I.x.t ∨
      (updateInterval param st dginit dgtest ftest1 trial).I.x.t = trial.t := by
  simp only [updateInterval]
  split
  · split
    · rename_i I stp h
      change I.x.t = _ ∨ I.x.t = _
      rcases updateTrialInterval_x h with hx | hx <;> rw [hx]
      · exact .inl rfl
      · exact .inr rfl
    · exact .inl rfl
  · split
    · rename_i I stp h
      change I.x.t = _ ∨ I.x.t = _
      rcases updateTrialInterval_x h with hx | hx <;> rw [hx]
      · exact .inl rfl
      · exact .inr rfl
    · exact .inl rfl

omit [IsStrictOrderedRing K] [MathLibrary K] in
@[simp] theorem forceDecrease_x (st : MoreThuente K) : (forceDecrease st).I = st.I := by
  unfold forceDecrease
  split <;> rfl

omit [IsStrictOrderedRing K] in
/-- What the search has found when it stops. A NaN is never accepted, since every comparison
with it fails. -/
theorem moreThuenteLoop_last (T : Tolerances param) (hev : Computes evaluate f grad)
    (st : MoreThuente K) (hx : T.Tries st.I.x.t) :
    match moreThuenteLoop param evaluate (vec x) (vec d) (.fin (f x)) (.fin (dot n K (grad x) d))
        (.fin (T.ftol * dot n K (grad x) d)) st with
    | ⟨.ok ls, last⟩ => ∃ t, (t = 0 ∨ t ∈ Set.Icc T.minStep T.maxStep) ∧
        last = trialAt f grad x d t ∧ Decreases f grad T.ftol x d t ∧
        StronglyFlattens grad T.gtol x d t ∧ st.count < ls ∧ (ls : ℤ) < param.maxLinesearch
    | ⟨.error e, _⟩ => e ∈ [LbfgsError.roundingError, .maximumstep, .minimumstep, .widthtoosmall,
        .maximumlinesearch] := by
  fun_induction moreThuenteLoop param evaluate (vec x) (vec d) (.fin (f x))
    (.fin (dot n K (grad x) d)) (.fin (T.ftol * dot n K (grad x) d)) st with
  | case1 st last trial ftest1 ls =>
    rename_i hverdict
    cases ls with
    | error e => exact moreThuenteVerdict_eq_error hverdict
    | ok ls =>
      obtain ⟨hf, hd, hls, hmax⟩ := moreThuenteVerdict_eq_ok hverdict
      rcases tries_trialStep T hx with hnan | ⟨t, ht, hstp⟩
      · have hftest : ftest1 = .nan := by
          change Double.fin (f x) + trialStep param st * _ = _
          rw [hnan, Double.nan_mul, Double.add_nan]
        rw [hftest] at hf
        exact absurd hf (Double.not_le_nan _)
      · have hnonneg : 0 ≤ t := by
          rcases ht with rfl | ht
          · exact le_rfl
          · exact T.minStep_nonneg.trans ht.1
        have hlast : last = trialAt f grad x d t := by
          change tryStep evaluate (vec x) (vec d) (trialStep param st) = _
          rw [hstp, tryStep_vec hev x d hnonneg]
        refine ⟨t, ht, hlast, ?_, ?_, by omega, hmax⟩
        · change last.f ≤ .fin (f x) + last.stp * _ at hf
          rw [hlast] at hf
          exact Double.fin_le_fin.mp hf
        · change Double.fabs (vecdot last.g (vec d)) ≤ _ at hd
          rw [hlast, T.gtol_eq] at hd
          change Double.fabs (vecdot (vec _) (vec d)) ≤ _ at hd
          rw [vecdot_vec] at hd
          exact Double.fin_le_fin.mp hd
  | case2 st last trial ftest1 hverdict ih =>
    have hnext : T.Tries (forceDecrease (updateInterval param st
        (.fin (dot n K (grad x) d)) (.fin (T.ftol * dot n K (grad x) d)) ftest1 trial)).I.x.t := by
      rw [forceDecrease_x]
      rcases updateInterval_x st (.fin (dot n K (grad x) d))
        (.fin (T.ftol * dot n K (grad x) d)) ftest1 trial with h | h
      · rw [h]
        exact hx
      · rw [h]
        exact tries_trialStep T hx
    have hcount : (forceDecrease (updateInterval param st (.fin (dot n K (grad x) d))
        (.fin (T.ftol * dot n K (grad x) d)) ftest1 trial)).count = st.count + 1 := by simp
    have hrest := ih hnext
    revert hrest
    split
    · rintro ⟨t, ht, hlast, hf, hd, hlt, hmax⟩
      exact ⟨t, ht, hlast, hf, hd, by omega, hmax⟩
    · exact id

def lineSearchStart (f : (Fin n → K) → K) (grad : (Fin n → K) → Fin n → K) (x : Fin n → K) (t : K) :
    LineSearchState n K :=
  { x := vec x, f := .fin (f x), g := vec (grad x), stp := .fin t }

omit [IsStrictOrderedRing K] in
/-- A descent direction passes the checks, and the first trial starts from the step zero. -/
theorem lineSearchMorethuente_eq (T : Tolerances param) (hd : dot n K (grad x) d < 0) {t : K}
    (ht : 0 < t) :
    ∃ st : MoreThuente K, st.I.x.t = .fin 0 ∧ st.count = 0 ∧
      lineSearchMorethuente param evaluate (lineSearchStart f grad x t) (vec d) (vec x) =
        moreThuenteLoop param evaluate (vec x) (vec d) (.fin (f x)) (.fin (dot n K (grad x) d))
          (.fin (T.ftol * dot n K (grad x) d)) st := by
  have hstp : ¬ (Double.fin t : Double K) ≤ 0 := Double.fin_le_fin.not.mpr (not_le.mpr ht)
  have hdescent : ¬ (0 : Double K) < .fin (dot n K (grad x) d) :=
    Double.fin_lt_fin.not.mpr (not_lt.mpr hd.le)
  simp only [lineSearchMorethuente, lineSearchStart, if_neg hstp, vecdot_vec, if_neg hdescent, T.ftol_eq,
    Double.fin_mul_fin]
  exact ⟨_, rfl, rfl, rfl⟩

omit [IsStrictOrderedRing K] [MathLibrary K] in
theorem lineSearchBacktracking_eq (hd : dot n K (grad x) d < 0) {t : K} (ht : 0 < t) :
    lineSearchBacktracking param evaluate (lineSearchStart f grad x t) (vec d) (vec x) =
      backtrackingLoop param evaluate (vec x) (vec d) (.fin (f x)) (.fin (dot n K (grad x) d))
        (param.ftol * .fin (dot n K (grad x) d)) (.fin t) 0 := by
  have hstp : ¬ (Double.fin t : Double K) ≤ 0 := Double.fin_le_fin.not.mpr (not_le.mpr ht)
  have hdescent : ¬ (0 : Double K) < .fin (dot n K (grad x) d) :=
    Double.fin_lt_fin.not.mpr (not_lt.mpr hd.le)
  simp only [lineSearchBacktracking, lineSearchStart, if_neg hstp, vecdot_vec, if_neg hdescent]

/-- A step that the search of Moré and Thuente accepts is in the range of steps and satisfies
the strong Wolfe conditions, after fewer evaluations than the search may make. -/
theorem lineSearchMorethuente_accepts (T : Tolerances param) (hev : Computes evaluate f grad)
    (hgtol : T.gtol < 1) (hd : dot n K (grad x) d < 0) {t₀ : K} (ht₀ : 0 < t₀) {ls : ℕ}
    {last : LineSearchState n K}
    (hout : lineSearchMorethuente param evaluate (lineSearchStart f grad x t₀) (vec d) (vec x) =
      ⟨.ok ls, last⟩) :
    ∃ t, 0 < t ∧ t ∈ Set.Icc T.minStep T.maxStep ∧ last = trialAt f grad x d t ∧
      Decreases f grad T.ftol x d t ∧ StronglyFlattens grad T.gtol x d t ∧
      0 < ls ∧ (ls : ℤ) < param.maxLinesearch := by
  obtain ⟨st, hx, hcount, heq⟩ := lineSearchMorethuente_eq T hd ht₀
  have hspec := moreThuenteLoop_last T hev (x := x) (d := d) st (.inr ⟨0, .inl rfl, hx⟩)
  rw [← heq, hout, hcount] at hspec
  obtain ⟨t, ht, hlast, hf, hslope, hls⟩ := hspec
  have hpos : 0 < t := by
    have hne : t ≠ 0 := by
      rintro rfl
      -- the slope at the start is too steep for the curvature condition
      have habs : |dot n K (grad x) d| = -dot n K (grad x) d := abs_of_neg hd
      rw [StronglyFlattens, zero_smul, add_zero, dotp_def, habs] at hslope
      nlinarith
    rcases ht with h | h
    · exact absurd h hne
    · exact (T.minStep_nonneg.trans h.1).lt_of_ne hne.symm
  have hmem : t ∈ Set.Icc T.minStep T.maxStep := ht.resolve_left hpos.ne'
  exact ⟨t, hpos, hmem, hlast, hf, hslope, hls⟩

omit [MathLibrary K] in
/-- A step that backtracking accepts is positive and satisfies the conditions of its method. -/
theorem lineSearchBacktracking_accepts (T : Tolerances param) (hev : Computes evaluate f grad)
    (hd : dot n K (grad x) d < 0) {t₀ : K} (ht₀ : 0 < t₀) {ls : ℕ} {last : LineSearchState n K}
    (hout : lineSearchBacktracking param evaluate (lineSearchStart f grad x t₀) (vec d) (vec x) =
      ⟨.ok ls, last⟩) :
    ∃ t, 0 < t ∧ last = trialAt f grad x d t ∧ Decreases f grad T.ftol x d t ∧
      (param.linesearch ≠ .backtrackingArmijo → Flattens grad T.wolfe x d t ∧
        (param.linesearch ≠ .backtrackingWolfe →
          dot n K (grad (x + t • d)) d ≤ -(T.wolfe * dot n K (grad x) d))) ∧
      0 < ls ∧ (ls = 1 ∨ (ls : ℤ) ≤ param.maxLinesearch) := by
  rw [lineSearchBacktracking_eq hd ht₀] at hout
  obtain ⟨t, ht, hlast, hls⟩ := backtrackingLoop_last param hev x d (.fin (f x))
    (.fin (dot n K (grad x) d)) (param.ftol * .fin (dot n K (grad x) d)) ht₀ 0
  rw [hout] at hlast hls
  obtain ⟨haccept, hcount, hmax⟩ := hls
  obtain ⟨hf, hslope⟩ := (backtrackingWidth_eq_none_iff T f grad x d t).mp haccept
  exact ⟨t, ht, hlast, hf, hslope, hcount, by simpa using hmax⟩

def searchErrors : List LbfgsError :=
  [.roundingError, .maximumstep, .minimumstep, .widthtoosmall, .maximumlinesearch]

/-- One call of the line search of an unregularised problem. -/
theorem lineSearch_vec (T : Tolerances param) (hev : Computes evaluate f grad)
    (hc : (param.orthantwiseC == 0) = true) (hslope : T.slope < 1)
    (hd : dot n K (grad x) d < 0) {t₀ : K} (ht₀ : 0 < t₀) (pg : Vec n K) :
    match lineSearch param evaluate (lineSearchStart f grad x t₀) (vec d) (vec x) pg with
    | ⟨.ok ls, last⟩ => ∃ t, 0 < t ∧ last = trialAt f grad x d t ∧ Decreases f grad T.ftol x d t ∧
        (param.linesearch ≠ .backtrackingArmijo → Flattens grad T.slope x d t) ∧ 0 < ls
    | ⟨.error e, _⟩ => e ∈ searchErrors := by
  have hc' : ¬ (!(param.orthantwiseC == 0)) = true := by
    rw [hc]
    decide
  rw [lineSearch, if_neg hc']
  split_ifs with hmethod
  · have hgtol : T.gtol < 1 := by rwa [Tolerances.slope, if_pos hmethod] at hslope
    generalize hout : lineSearchMorethuente param evaluate (lineSearchStart f grad x t₀) (vec d) (vec x)
      = out
    obtain ⟨ls, last⟩ := out
    cases ls with
    | ok ls =>
      obtain ⟨t, ht, -, hlast, hf, hflat, hls, -⟩ :=
        lineSearchMorethuente_accepts T hev hgtol hd ht₀ hout
      refine ⟨t, ht, hlast, hf, fun _ => ?_, hls⟩
      rw [Tolerances.slope, if_pos hmethod]
      exact hflat.flattens
    | error e =>
      obtain ⟨st, hx, -, heq⟩ := lineSearchMorethuente_eq T hd ht₀
      have hspec := moreThuenteLoop_last T hev (x := x) (d := d) st (.inr ⟨0, .inl rfl, hx⟩)
      rw [← heq, hout] at hspec
      exact hspec
  · generalize hout : lineSearchBacktracking param evaluate (lineSearchStart f grad x t₀) (vec d) (vec x)
      = out
    obtain ⟨ls, last⟩ := out
    cases ls with
    | ok ls =>
      obtain ⟨t, ht, hlast, hf, hflat, hls, -⟩ := lineSearchBacktracking_accepts T hev hd ht₀ hout
      refine ⟨t, ht, hlast, hf, fun harmijo => ?_, hls⟩
      rw [Tolerances.slope, if_neg hmethod]
      exact (hflat harmijo).1
    | error e =>
      rw [lineSearchBacktracking_eq hd ht₀] at hout
      obtain ⟨t, -, -, hls⟩ := backtrackingLoop_last param hev x d (.fin (f x))
        (.fin (dot n K (grad x) d)) (param.ftol * .fin (dot n K (grad x) d)) ht₀ 0
      rw [hout] at hls
      rcases hls with rfl | rfl | rfl <;> simp [searchErrors]

/-- The conditions that a method asks of its last step, beside the sufficient decrease. -/
def Accepts (T : Tolerances param) (grad : (Fin n → K) → Fin n → K) (x d : Fin n → K) (t : K)
    (ls : ℕ) : LbfgsLinesearch → Prop
  | .morethuente => t ∈ Set.Icc T.minStep T.maxStep ∧ StronglyFlattens grad T.gtol x d t ∧
      (ls : ℤ) < param.maxLinesearch
  | .backtrackingArmijo => ls = 1 ∨ (ls : ℤ) ≤ param.maxLinesearch
  | .backtrackingWolfe =>
      Flattens grad T.wolfe x d t ∧ (ls = 1 ∨ (ls : ℤ) ≤ param.maxLinesearch)
  | _ => StronglyFlattens grad T.wolfe x d t ∧ (ls = 1 ∨ (ls : ℤ) ≤ param.maxLinesearch)

/-- A step that the line search of an unregularised problem accepts along a descent direction is
positive, lowers the function sufficiently and satisfies the conditions of its method, after as
many evaluations as the search may make. What the search hands back was computed at it. -/
theorem lineSearch_accepts (T : Tolerances param) (hev : Computes evaluate f grad)
    (hc : (param.orthantwiseC == 0) = true)
    (hgtol : param.linesearch = .morethuente → T.gtol < 1) (hd : dot n K (grad x) d < 0)
    {t₀ : K} (ht₀ : 0 < t₀) {pg : Vec n K} {ls : ℕ} {last : LineSearchState n K}
    (hout : lineSearch param evaluate (lineSearchStart f grad x t₀) (vec d) (vec x) pg =
      ⟨.ok ls, last⟩) :
    ∃ t, 0 < t ∧ last = trialAt f grad x d t ∧ Decreases f grad T.ftol x d t ∧ 0 < ls ∧
      Accepts T grad x d t ls param.linesearch := by
  have hc' : ¬ (!(param.orthantwiseC == 0)) = true := by
    rw [hc]
    decide
  rw [lineSearch, if_neg hc'] at hout
  split_ifs at hout with hmethod
  · obtain ⟨t, ht, hmem, hlast, hf, hflat, hls, hmax⟩ :=
      lineSearchMorethuente_accepts T hev (hgtol hmethod) hd ht₀ hout
    rw [hmethod]
    exact ⟨t, ht, hlast, hf, hls, hmem, hflat, hmax⟩
  · obtain ⟨t, ht, hlast, hf, hflat, hls, hmax⟩ := lineSearchBacktracking_accepts T hev hd ht₀ hout
    refine ⟨t, ht, hlast, hf, hls, ?_⟩
    have hstrong (h : dot n K (grad (x + t • d)) d ≤ -(T.wolfe * dot n K (grad x) d))
        (hflat : Flattens grad T.wolfe x d t) : StronglyFlattens grad T.wolfe x d t := by
      rw [StronglyFlattens, abs_le, mul_neg, neg_neg]
      exact ⟨hflat, h⟩
    cases hsearch : param.linesearch with
    | morethuente => exact absurd hsearch hmethod
    | backtrackingArmijo => exact hmax
    | backtrackingWolfe => exact ⟨(hflat (by simp [hsearch])).1, hmax⟩
    | backtrackingStrongWolfe =>
      obtain ⟨hle, hupper⟩ := hflat (by simp [hsearch])
      exact ⟨hstrong (hupper (by simp [hsearch])) hle, hmax⟩
    | unknown =>
      obtain ⟨hle, hupper⟩ := hflat (by simp [hsearch])
      exact ⟨hstrong (hupper (by simp [hsearch])) hle, hmax⟩

end Searches

/-! ## A search on the square -/

section Square

def square (x : Fin 1 → ℝ) : ℝ := x 0 * x 0

def squareGradient (x : Fin 1 → ℝ) : Fin 1 → ℝ := fun _ => 2 * x 0

noncomputable def evaluateSquare : LbfgsEvaluate 1 ℝ := fun x _ => (x 0 * x 0, fun _ => .fin 2 * x 0)

theorem computes_evaluateSquare : Computes evaluateSquare square squareGradient :=
  fun _ _ _ => rfl

noncomputable def defaultParam (linesearch : LbfgsLinesearch) (c : ℝ) (stop : ℤ) :
    LbfgsParameter ℝ :=
  { lbfgsDefparam with linesearch := linesearch, orthantwiseC := .fin c, orthantwiseEnd := stop }

theorem lbfgsCheck_defaultParam {linesearch : LbfgsLinesearch} {c : ℝ} (hc : 0 ≤ c)
    (hmethod : linesearch = .backtrackingWolfe ∨ linesearch = .morethuente ∧ c = 0) :
    lbfgsCheck 1 (defaultParam linesearch c (-1)) = .ok (defaultParam linesearch c 1) := by
  have hpow (k : ℕ) : ¬ (10 ^ k : ℝ) < 0 := not_lt.mpr (by positivity)
  have hrange : ¬ (10 ^ 20 : ℝ) < (10 ^ 20)⁻¹ := by norm_num
  have hwolfe : ¬ ((9 / 10 : ℝ) ≤ (10 ^ 4)⁻¹ ∨ (1 : ℝ) ≤ 9 / 10) := by norm_num
  have hgtol : ¬ (9 / 10 : ℝ) < 0 := by norm_num
  rcases hmethod with rfl | ⟨rfl, rfl⟩ <;>
    simp [lbfgsCheck, defaultParam, lbfgsDefparam, hpow, hrange, hwolfe, hgtol, not_lt.mpr hc]

noncomputable def defaultTolerances (linesearch : LbfgsLinesearch) (c : ℝ) (stop : ℤ) :
    Tolerances (defaultParam linesearch c stop) where
  ftol := 1 / 10 ^ 4
  wolfe := (9 : ℕ) / 10
  gtol := (9 : ℕ) / 10
  minStep := 1 / 10 ^ 20
  maxStep := 10 ^ 20
  ftol_eq := rfl
  wolfe_eq := rfl
  gtol_eq := rfl
  minStep_eq := rfl
  maxStep_eq := rfl
  ftol_nonneg := by norm_num
  minStep_nonneg := by norm_num
  minStep_le := by norm_num

theorem default_epsilon_nonneg : (0 : ℝ) ≤ 1 / 10 ^ 5 := by norm_num

theorem default_slope_lt (linesearch : LbfgsLinesearch) (c : ℝ) (stop : ℤ) :
    (defaultTolerances linesearch c stop).slope < 1 := by
  rw [Tolerances.slope, defaultTolerances]
  split_ifs <;> norm_num

theorem dot_one (x y : Fin 1 → ℝ) : dot 1 ℝ x y = x 0 * y 0 := by
  change dotProduct x y = _
  simp [dotProduct]

/-- From ten the first trial, at nine, is accepted. -/
theorem lineSearch_square (stop : ℤ) (pg : Vec 1 ℝ) :
    lineSearch (defaultParam .backtrackingWolfe 0 stop) evaluateSquare
      (lineSearchStart square squareGradient (fun _ => 10) (1 / 20))
      (vec (-squareGradient fun _ => 10)) (vec fun _ => 10) pg =
    ⟨.ok 1, trialAt square squareGradient (fun _ => 10) (-squareGradient fun _ => 10) (1 / 20)⟩ := by
  have hd : dot 1 ℝ (squareGradient fun _ => 10) (-squareGradient fun _ => 10) < 0 := by
    rw [dot_one]
    norm_num [squareGradient]
  have hstep : (0 : ℝ) < 1 / 20 := by norm_num
  have haccept := (backtrackingWidth_eq_none_iff (defaultTolerances .backtrackingWolfe 0 stop) square squareGradient
    (fun _ => 10) (-squareGradient fun _ => 10) (1 / 20)).mpr (by
      simp only [Decreases, Flattens, dotp_def, dot_one]
      norm_num [square, squareGradient, defaultTolerances, defaultParam])
  have hsearch : ¬ (!((defaultParam .backtrackingWolfe 0 stop).orthantwiseC == 0)) = true := by
    simp [defaultParam]
  rw [lineSearch, if_neg hsearch, if_neg (by simp [defaultParam]), lineSearchBacktracking_eq hd hstep,
    backtrackingLoop, tryStep_vec computes_evaluateSquare _ _ hstep.le]
  simp only [haccept]

theorem lineSearch_accepts_square :
    ∃ t : ℝ, 0 < t ∧
      trialAt square squareGradient (fun _ => 10) (-squareGradient fun _ => 10) (1 / 20) =
        trialAt square squareGradient (fun _ => 10) (-squareGradient fun _ => 10) t ∧
      Decreases square squareGradient (1 / 10 ^ 4) (fun _ => 10) (-squareGradient fun _ => 10) t ∧
      0 < 1 ∧
      Accepts (defaultTolerances .backtrackingWolfe 0 1) squareGradient (fun _ => 10) (-squareGradient fun _ => 10) t 1
        (defaultParam .backtrackingWolfe 0 1).linesearch := by
  have hd : dot 1 ℝ (squareGradient fun _ => 10) (-squareGradient fun _ => 10) < 0 := by
    rw [dot_one]
    norm_num [squareGradient]
  exact lineSearch_accepts (defaultTolerances .backtrackingWolfe 0 1) computes_evaluateSquare
    (by simp [defaultParam]) (fun hmethod => by simp [defaultParam] at hmethod) hd (by norm_num)
    (lineSearch_square 1 fun _ => 0)

end Square
end Plfit
