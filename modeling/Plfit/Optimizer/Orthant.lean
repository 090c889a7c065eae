import Mathlib
import Plfit.Optimizer.Scheme

/-! # Runs with an L1 penalty

With a penalty on all variables the optimiser follows the pseudo-gradient of the penalised
function. A direction keeps only the components that oppose it, and a trial is projected onto
the orthant of the point it starts from. Every accepted step therefore lowers the penalised
function, and a point with a small pseudo-gradient is nearly a minimum.
-/
namespace Plfit
open ExactArithmetic QuasiNewton

/-! ## One component -/

section Component
variable {c g x u d t y : ℝ}

noncomputable def pseudoPartial (c g x : ℝ) : ℝ :=
  if x < 0 then g - c else if 0 < x then g + c
  else if g < -c then g + c else if c < g then g - c else 0

noncomputable def orthantSign (x u : ℝ) : ℝ := if x = 0 then -u else x

/-- One component of a projected trial. -/
noncomputable def projectOnto (sign x : ℝ) : ℝ := if x * sign ≤ 0 then 0 else x

/-- The component of a direction that opposes the pseudo-gradient. -/
noncomputable def opposing (d u : ℝ) : ℝ := if 0 ≤ d * u then 0 else d

theorem pseudoPartial_le (hc : 0 ≤ c) : (pseudoPartial c g x - g) * (y - x) ≤ c * (|y| - |x|) := by
  have hy := mul_le_mul_of_nonneg_left (le_abs_self y) hc
  have hny := mul_le_mul_of_nonneg_left (neg_abs_le y) hc
  unfold pseudoPartial
  split_ifs with hneg hpos hlow hhigh
  · rw [abs_of_neg hneg]
    linarith
  · rw [abs_of_pos hpos]
    linarith
  all_goals
    obtain rfl : x = 0 := le_antisymm (not_lt.mp hpos) (not_lt.mp hneg)
    rw [abs_zero, sub_zero, sub_zero]
  · linarith
  · linarith
  · have habs : |g| ≤ c := abs_le.mpr ⟨not_lt.mp hlow, not_lt.mp hhigh⟩
    calc (0 - g) * y ≤ |(0 - g) * y| := le_abs_self _
      _ = |g| * |y| := by rw [abs_mul, zero_sub, abs_neg]
      _ ≤ c * |y| := mul_le_mul_of_nonneg_right habs (abs_nonneg y)

theorem opposing_mul_neg (h : opposing d u ≠ 0) : opposing d u * u < 0 := by
  unfold opposing at h ⊢
  split_ifs with hnonneg
  · exact absurd (if_pos hnonneg) h
  · exact not_le.mp hnonneg

theorem opposing_neg : opposing (-u) u = -u := by
  unfold opposing
  split_ifs with hnonneg
  · have hzero : u * u = 0 := le_antisymm (by linarith) (mul_self_nonneg u)
    rw [mul_self_eq_zero.mp hzero, neg_zero]
  · rfl

/-- The trial of a component moves against the pseudo-gradient. -/
theorem projectOnto_step (ht : 0 < t) (hd : d * u < 0) :
    (projectOnto (orthantSign x u) (x + t * d) - x) * u < 0 := by
  have hstep : t * (d * u) < 0 := mul_neg_of_pos_of_neg ht hd
  unfold projectOnto orthantSign
  split_ifs with hx h h
  · rw [hx] at h
    linarith
  · rw [hx]
    linarith
  · -- the step leads to the other side of zero, so that the component and `u` have one sign
    have hsquare : 0 < x * x := mul_self_pos.mpr hx
    have hdx : d * x < 0 := by
      by_contra hnonneg
      have := mul_nonneg ht.le (not_lt.mp hnonneg)
      linarith
    have hd0 : 0 < d * d := mul_self_pos.mpr (left_ne_zero_of_mul hd.ne)
    have hproduct : 0 < d * d * (x * u) := by
      have := mul_pos_of_neg_of_neg hdx hd
      linarith
    linarith [(mul_pos_iff_of_pos_left hd0).mp hproduct]
  · linarith

theorem projectOnto_stay : projectOnto (orthantSign x u) (x + t * 0) = x := by
  unfold projectOnto orthantSign
  rw [mul_zero, add_zero]
  split_ifs with hx h h
  · exact hx.symm
  · rfl
  · exact absurd h (not_le.mpr (mul_self_pos.mpr hx))
  · rfl

theorem projectOnto_mul_nonneg : 0 ≤ x * projectOnto (orthantSign x u) (x + t * d) := by
  unfold projectOnto orthantSign
  split_ifs with hx h h
  · rw [mul_zero]
  · rw [hx, zero_mul]
  · rw [mul_zero]
  · linarith

end Component

/-! ## The penalised function -/

section Penalised
variable {n : ℕ} {f : (Fin n → ℝ) → ℝ} {grad : (Fin n → ℝ) → Fin n → ℝ} {c t : ℝ}
  {x y d : Fin n → ℝ}

noncomputable def penalised (f : (Fin n → ℝ) → ℝ) (c : ℝ) (x : Fin n → ℝ) : ℝ :=
  f x + Finset.univ.sum (fun i => |x i|) * c

noncomputable def pseudoGradient (grad : (Fin n → ℝ) → Fin n → ℝ) (c : ℝ) (x : Fin n → ℝ) :
    Fin n → ℝ := fun i => pseudoPartial c (grad x i) (x i)

/-- The components of a direction that oppose the pseudo-gradient. -/
noncomputable def opposingDirection (d u : Fin n → ℝ) : Fin n → ℝ := fun i => opposing (d i) (u i)

/-- The trial of a step, in the orthant of the point. -/
noncomputable def orthantTrial (x u d : Fin n → ℝ) (t : ℝ) : Fin n → ℝ := fun i =>
  projectOnto (orthantSign (x i) (u i)) (x i + t * d i)

/-- The function lies above its tangents, and touches them in one point. -/
def StrictlyAbove (f : (Fin n → ℝ) → ℝ) (grad : (Fin n → ℝ) → Fin n → ℝ) : Prop :=
  ∀ x y, x ≠ y → f x + dotp (grad x) (y - x) < f y

theorem dot_eq_sum (x y : Fin n → ℝ) : dot n ℝ x y = Finset.univ.sum fun i => x i * y i := rfl

/-- The penalised function lies above the planes of its pseudo-gradient. -/
theorem penalised_le (hf : StrictlyAbove f grad) (hc : 0 ≤ c) (x y : Fin n → ℝ) :
    penalised f c x + dot n ℝ (pseudoGradient grad c x) (y - x) ≤ penalised f c y := by
  have hconvex : f x + dot n ℝ (grad x) (y - x) ≤ f y := by
    rcases eq_or_ne x y with rfl | hne
    · simp
    · exact (hf x y hne).le
  have hpenalty : (Finset.univ.sum fun i =>
      (pseudoPartial c (grad x i) (x i) - grad x i) * (y i - x i)) ≤
      Finset.univ.sum fun i => c * (|y i| - |x i|) :=
    Finset.sum_le_sum fun i _ => pseudoPartial_le hc
  have hsplit : dot n ℝ (pseudoGradient grad c x) (y - x) = dot n ℝ (grad x) (y - x) +
      Finset.univ.sum fun i => (pseudoPartial c (grad x i) (x i) - grad x i) * (y i - x i) := by
    rw [dot_eq_sum, dot_eq_sum, ← Finset.sum_add_distrib]
    apply Finset.sum_congr rfl
    intro i _
    rw [pseudoGradient, Pi.sub_apply]
    ring
  rw [← Finset.mul_sum, Finset.sum_sub_distrib] at hpenalty
  rw [penalised, penalised, hsplit]
  linarith

theorem curved_of_strictlyAbove (hf : StrictlyAbove f grad) (hne : x ≠ y) :
    Curved (dot n ℝ) ⟨y - x, grad y - grad x⟩ := by
  have hxy := hf x y hne
  have hyx := hf y x hne.symm
  rw [dotp_def] at hxy hyx
  change 0 < dot n ℝ (grad y - grad x) (y - x)
  rw [← neg_sub y x, map_neg] at hyx
  rw [map_sub (dot n ℝ), LinearMap.sub_apply]
  linarith

/-- A direction that goes downhill keeps a component. -/
theorem opposingDirection_ne_zero {u : Fin n → ℝ} (hd : dot n ℝ u d < 0) :
    opposingDirection d u ≠ 0 := by
  intro hzero
  rw [dot_eq_sum] at hd
  have hnonneg : 0 ≤ Finset.univ.sum fun i => u i * d i := by
    apply Finset.sum_nonneg
    intro i _
    by_contra hneg
    have hi : opposing (d i) (u i) = 0 := congrFun hzero i
    rw [opposing, if_neg (by linarith)] at hi
    rw [hi, mul_zero] at hneg
    exact hneg le_rfl
  linarith

theorem orthantTrial_term {u : Fin n → ℝ} (ht : 0 < t) (i : Fin n) :
    opposingDirection d u i = 0 ∧
        (orthantTrial x u (opposingDirection d u) t i - x i) * u i = 0 ∨
      (orthantTrial x u (opposingDirection d u) t i - x i) * u i < 0 := by
  by_cases hi : opposingDirection d u i = 0
  · refine .inl ⟨hi, ?_⟩
    rw [orthantTrial, hi, projectOnto_stay, sub_self, zero_mul]
  · exact .inr (projectOnto_step ht (opposing_mul_neg hi))

theorem orthantTrial_term_nonpos {u : Fin n → ℝ} (ht : 0 < t) (i : Fin n) :
    (orthantTrial x u (opposingDirection d u) t i - x i) * u i ≤ 0 := by
  rcases orthantTrial_term ht i with h | h
  · exact h.2.le
  · exact h.le

/-- The trial of a direction that opposes `u` in each component has a negative slope. -/
theorem orthantTrial_slope {u : Fin n → ℝ} (ht : 0 < t) (hd : opposingDirection d u ≠ 0) :
    dot n ℝ (orthantTrial x u (opposingDirection d u) t - x) u < 0 := by
  obtain ⟨i, hi⟩ := Function.ne_iff.mp hd
  rw [dot_eq_sum]
  apply Finset.sum_neg'
  · intro j _
    exact orthantTrial_term_nonpos ht j
  · exact ⟨i, Finset.mem_univ i, (orthantTrial_term ht i).resolve_left fun h => hi h.1⟩

end Penalised

/-! ## The scheme -/

/-- A problem with a penalty on all of its variables. -/
structure Regularised (n : ℕ) (param : LbfgsParameter ℝ) extends Tolerances param where
  epsilon : ℝ
  c : ℝ
  epsilon_eq : param.epsilon = .fin epsilon
  epsilon_nonneg : 0 ≤ epsilon
  c_eq : param.orthantwiseC = .fin c
  c_pos : 0 < c
  start : param.orthantwiseStart = 0
  stop : param.orthantwiseEnd = n
  memory : 1 ≤ param.m

section Regularised
variable {n : ℕ} {f : (Fin n → ℝ) → ℝ} {grad : (Fin n → ℝ) → Fin n → ℝ}
  {param : LbfgsParameter ℝ} {evaluate : LbfgsEvaluate n ℝ} {S : Regularised n param}
  {x d u : Fin n → ℝ} {t : ℝ}

theorem Regularised.inOrthant (S : Regularised n param) (i : Fin n) :
    inOrthant param.orthantwiseStart param.orthantwiseEnd i := by
  rw [Plfit.inOrthant, S.start, S.stop]
  omega

theorem Regularised.orthantwise (S : Regularised n param) : ¬ (param.orthantwiseC == 0) = true := by
  rw [S.c_eq]
  simpa using S.c_pos.ne'

theorem owlqnX1norm_vec (S : Regularised n param) (x : Fin n → ℝ) :
    owlqnX1norm (vec x) param.orthantwiseStart param.orthantwiseEnd =
      .fin (Finset.univ.sum fun i => |x i|) := by
  have hall : (List.finRange n).filter
      (fun i => Plfit.inOrthant param.orthantwiseStart param.orthantwiseEnd i) =
      List.finRange n := List.filter_eq_self.mpr fun i _ => decide_eq_true (S.inOrthant i)
  have hfold := foldl_add_map_fin (fun i => |x i|) (List.finRange n) 0
  rw [zero_add, ← Fin.sum_univ_def] at hfold
  rw [owlqnX1norm, hall]
  exact hfold

theorem owlqnPseudoGradient_vec (S : Regularised n param) (x g : Fin n → ℝ) :
    owlqnPseudoGradient (vec x) (vec g) param.orthantwiseC param.orthantwiseStart
      param.orthantwiseEnd = vec fun i => pseudoPartial S.c (g i) (x i) := by
  funext i
  have hneg : ∀ a : ℝ, ((.fin a : Double ℝ) < 0) = (a < 0) := fun a => propext Double.fin_lt_fin
  have hpos : ∀ a : ℝ, ((0 : Double ℝ) < .fin a) = (0 < a) := fun a => propext Double.fin_lt_fin
  simp only [owlqnPseudoGradient, if_pos (S.inOrthant i), S.c_eq, vec, hneg, hpos, Double.neg_fin,
    Double.fin_lt_fin, Double.fin_sub_fin, Double.fin_add_fin, pseudoPartial]
  split_ifs <;> rfl

theorem owlqnProject_vec (S : Regularised n param) (d sign : Fin n → ℝ) :
    owlqnProject (vec d) (vec sign) param.orthantwiseStart param.orthantwiseEnd =
      vec fun i => projectOnto (sign i) (d i) := by
  funext i
  have hle : ((.fin (d i * sign i) : Double ℝ) ≤ 0) = (d i * sign i ≤ 0) :=
    propext Double.fin_le_fin
  simp only [owlqnProject, S.inOrthant i, true_and, vec, Double.fin_mul_fin, hle, projectOnto]
  split_ifs <;> rfl

theorem constrainDirection_vec (S : Regularised n param) (d u : Fin n → ℝ) :
    constrainDirection param (vec d) (vec u) = vec (opposingDirection d u) := by
  rw [constrainDirection, if_neg S.orthantwise]
  funext i
  have hle : ((0 : Double ℝ) ≤ .fin (d i * u i)) = (0 ≤ d i * u i) := propext Double.fin_le_fin
  simp only [S.inOrthant i, true_and, vec, Double.fin_mul_fin, hle, opposingDirection, opposing]
  split_ifs <;> rfl

theorem tryOrthantStep_vec (S : Regularised n param) (hev : Computes evaluate f grad)
    (ht : 0 ≤ t) :
    tryOrthantStep param evaluate (vec x) (vec d)
        (fun i => if vec x i == 0 then -vec u i else vec x i) (.fin t) =
      lineSearchStart (penalised f S.c) grad (orthantTrial x u d t) t := by
  have hsign : (fun i => if vec x i == 0 then -vec u i else vec x i) =
      vec fun i => orthantSign (x i) (u i) := by
    funext i
    have hzero : (((.fin (x i) : Double ℝ) == 0) = true) = (x i = 0) := by simp
    simp only [vec, hzero, orthantSign]
    split_ifs <;> rfl
  have hproject : owlqnProject (vecadd (vec x) (vec d) (.fin t))
      (vec fun i => orthantSign (x i) (u i)) param.orthantwiseStart param.orthantwiseEnd =
      vec (orthantTrial x u d t) := by
    rw [vecadd_vec, owlqnProject_vec S]
    rfl
  simp only [tryOrthantStep, hsign, hproject, hev _ t ht, owlqnX1norm_vec S, S.c_eq]
  rfl

/-- The search stops at the first trial that lowers the penalised function sufficiently. -/
theorem owlqnLoop_first (S : Regularised n param) (hev : Computes evaluate f grad) {finit : ℝ}
    (ht : 0 ≤ t) (hle : penalised f S.c (orthantTrial x u d t) ≤
      finit + S.ftol * dot n ℝ (orthantTrial x u d t - x) u) (count : ℕ) :
    owlqnLoop param evaluate (vec x) (vec d) (vec u)
        (fun i => if vec x i == 0 then -vec u i else vec x i) (.fin finit) (.fin t) count =
      ⟨.ok (count + 1), lineSearchStart (penalised f S.c) grad (orthantTrial x u d t) t⟩ := by
  have hdgtest : vecdot (vecdiff (vec (orthantTrial x u d t)) (vec x)) (vec u) =
      .fin (dot n ℝ (orthantTrial x u d t - x) u) := by
    rw [vecdiff_vec, vecdot_vec]
  rw [owlqnLoop, tryOrthantStep_vec S hev ht]
  simp only [lineSearchStart, hdgtest, S.ftol_eq, Double.fin_mul_fin, Double.fin_add_fin,
    Double.fin_le_fin, if_pos hle]

/-- The last trial of the search is accepted when the search succeeds. -/
theorem owlqnLoop_last (S : Regularised n param) (hev : Computes evaluate f grad)
    (x d u : Fin n → ℝ) (finit : ℝ) (ht : 0 < t) (count : ℕ) :
    match owlqnLoop param evaluate (vec x) (vec d) (vec u)
        (fun i => if vec x i == 0 then -vec u i else vec x i) (.fin finit) (.fin t) count with
    | ⟨.ok _, last⟩ => ∃ t', 0 < t' ∧
        last = lineSearchStart (penalised f S.c) grad (orthantTrial x u d t') t' ∧
        penalised f S.c (orthantTrial x u d t') ≤
          finit + S.ftol * dot n ℝ (orthantTrial x u d t' - x) u
    | ⟨.error e, _⟩ => e ∈ searchErrors := by
  generalize hstp : (.fin t : Double ℝ) = stp
  fun_induction owlqnLoop param evaluate (vec x) (vec d) (vec u)
    (fun i => if vec x i == 0 then -vec u i else vec x i) (.fin finit) stp count
    generalizing t with
  | case1 stp count trial dgtest =>
    rename_i haccept
    subst hstp
    have htrial : trial = _ := tryOrthantStep_vec S hev ht.le
    have hdgtest : dgtest = .fin (dot n ℝ (orthantTrial x u d t - x) u) := by
      change vecdot (vecdiff trial.x (vec x)) (vec u) = _
      rw [htrial]
      exact (congrArg (vecdot · (vec u)) (vecdiff_vec _ x)).trans (vecdot_vec _ u)
    rw [htrial, hdgtest, S.ftol_eq] at haccept
    exact ⟨t, ht, htrial, Double.fin_le_fin.mp haccept⟩
  | case2 stp count trial dgtest haccept e =>
    rename_i hbound
    rcases stepBounds_ne_ok hbound with rfl | rfl | rfl <;> simp [searchErrors]
  | case3 stp count trial dgtest haccept hbound =>
    rename_i ih
    subst hstp
    exact ih (mul_pos ht (by norm_num : (0 : ℝ) < 1 / 2)) (Double.fin_mul_fin t (1 / 2)).symm

def Regularised.Accepted (S : Regularised n param) (f : (Fin n → ℝ) → ℝ)
    (grad : (Fin n → ℝ) → Fin n → ℝ) (x d x' : Fin n → ℝ) : Prop :=
  ∃ t : ℝ, 0 < t ∧ x' = orthantTrial x (pseudoGradient grad S.c x) d t ∧
    penalised f S.c x' ≤
      penalised f S.c x + S.ftol * dotp (x' - x) (pseudoGradient grad S.c x)

/-- The direction of the memory for the pseudo-gradient, constrained to oppose it. -/
noncomputable def Regularised.direction (S : Regularised n param)
    (grad : (Fin n → ℝ) → Fin n → ℝ) (ps : List (Correction (Fin n → ℝ))) (x : Fin n → ℝ) :
    Fin n → ℝ :=
  opposingDirection (memoryDirection param.m.toNat ps (pseudoGradient grad S.c x))
    (pseudoGradient grad S.c x)

theorem Regularised.direction_nil (S : Regularised n param) (x : Fin n → ℝ) :
    S.direction grad [] x = -pseudoGradient grad S.c x := by
  rw [Regularised.direction, memoryDirection_nil]
  funext i
  exact opposing_neg

theorem Regularised.usedGradient_eq (S : Regularised n param) (x : Fin n → ℝ) (pg : Vec n ℝ) :
    usedGradient param (vec (grad x)) (updatePseudoGradient param (vec x) (vec (grad x)) pg) =
      vec (pseudoGradient grad S.c x) := by
  rw [usedGradient, if_neg S.orthantwise, updatePseudoGradient, if_neg S.orthantwise,
    owlqnPseudoGradient_vec S]
  rfl

theorem Regularised.lbfgsStart_fx (S : Regularised n param) (hev : Computes evaluate f grad)
    (x : Fin n → ℝ) : (lbfgsStart param evaluate (vec x)).fx = .fin (penalised f S.c x) := by
  have hzero : evaluate (vec x) 0 = (.fin (f x), vec (grad x)) := hev x 0 le_rfl
  have hc := S.orthantwise
  rw [S.c_eq] at hc
  simp only [lbfgsStart, hzero, S.c_eq, if_neg hc, owlqnX1norm_vec S]
  rfl

theorem Regularised.constrainDirection_eq (S : Regularised n param)
    (ps : List (Correction (Fin n → ℝ))) (x : Fin n → ℝ) (pg : Vec n ℝ)
    (hpg : usedGradient param (vec (grad x)) pg = vec (pseudoGradient grad S.c x)) :
    constrainDirection param
        (vec (memoryDirection param.m.toNat ps (pseudoGradient grad S.c x))) pg =
      vec (S.direction grad ps x) := by
  rw [usedGradient, if_neg S.orthantwise] at hpg
  rw [hpg, constrainDirection_vec S]
  rfl

theorem Regularised.lineSearch_last (S : Regularised n param) (hev : Computes evaluate f grad)
    (ps : List (Correction (Fin n → ℝ))) (x : Fin n → ℝ) (t : ℝ) (pg : Vec n ℝ) (ht : 0 < t)
    (hpg : usedGradient param (vec (grad x)) pg = vec (pseudoGradient grad S.c x)) :
    match lineSearch param evaluate (lineSearchStart (penalised f S.c) grad x t)
        (vec (S.direction grad ps x)) (vec x) pg with
    | ⟨.ok _, last⟩ => ∃ t' x', last = lineSearchStart (penalised f S.c) grad x' t' ∧
        S.Accepted f grad x (S.direction grad ps x) x'
    | ⟨.error e, _⟩ => e ∈ searchErrors := by
  rw [usedGradient, if_neg S.orthantwise] at hpg
  have hstp : ¬ (Double.fin t : Double ℝ) ≤ 0 := Double.fin_le_fin.not.mpr (not_le.mpr ht)
  have hsearch : (!(param.orthantwiseC == 0)) = true := by simpa using S.orthantwise
  rw [hpg, lineSearch, if_pos hsearch, lineSearchBacktrackingOwlqn, lineSearchStart, if_neg hstp]
  have hlast := owlqnLoop_last S hev x (S.direction grad ps x) (pseudoGradient grad S.c x)
    (penalised f S.c x) ht 0
  dsimp only at hlast ⊢
  generalize owlqnLoop param evaluate _ _ _ _ _ _ _ = out at hlast ⊢
  obtain ⟨ls, last⟩ := out
  cases ls with
  | error e => exact hlast
  | ok ls =>
    obtain ⟨t', ht', rfl, hle⟩ := hlast
    exact ⟨t', _, rfl, t', ht', rfl, hle⟩

/-- An accepted step goes against the pseudo-gradient. -/
theorem Regularised.slope_neg (S : Regularised n param)
    {ps : List (Correction (Fin n → ℝ))} {x : Fin n → ℝ} {t : ℝ}
    (hne : pseudoGradient grad S.c x ≠ 0) (hps : ∀ p ∈ ps, Curved (dot n ℝ) p) (ht : 0 < t) :
    dot n ℝ (orthantTrial x (pseudoGradient grad S.c x) (S.direction grad ps x) t - x)
      (pseudoGradient grad S.c x) < 0 :=
  orthantTrial_slope ht (opposingDirection_ne_zero (memoryDirection_descends param.m.toNat hps hne))

theorem Regularised.downhill (S : Regularised n param)
    (ps : List (Correction (Fin n → ℝ))) (x x' : Fin n → ℝ)
    (hne : pseudoGradient grad S.c x ≠ 0) (hps : ∀ p ∈ ps, Curved (dot n ℝ) p)
    (h : S.Accepted f grad x (S.direction grad ps x) x') :
    penalised f S.c x' ≤ penalised f S.c x := by
  obtain ⟨t, ht, rfl, hle⟩ := h
  rw [dotp_def] at hle
  linarith [mul_nonpos_of_nonneg_of_nonpos S.ftol_nonneg (S.slope_neg hne hps ht).le]

theorem Regularised.curved (S : Regularised n param) (hf : StrictlyAbove f grad)
    (ps : List (Correction (Fin n → ℝ))) (x x' : Fin n → ℝ)
    (hne : pseudoGradient grad S.c x ≠ 0) (hps : ∀ p ∈ ps, Curved (dot n ℝ) p)
    (h : S.Accepted f grad x (S.direction grad ps x) x') :
    Curved (dot n ℝ) ⟨x' - x, grad x' - grad x⟩ := by
  obtain ⟨t, ht, rfl, -⟩ := h
  have hslope := S.slope_neg hne hps ht
  apply curved_of_strictlyAbove hf
  intro hsame
  rw [← hsame, sub_self, map_zero, LinearMap.zero_apply] at hslope
  exact hslope.false

/-- The pseudo-gradient is used for the gradient, and the direction is constrained to oppose
it. -/
noncomputable def Regularised.scheme (S : Regularised n param) (hev : Computes evaluate f grad)
    (hf : StrictlyAbove f grad) : Scheme param evaluate where
  epsilon := S.epsilon
  objective := penalised f S.c
  grad := grad
  used := pseudoGradient grad S.c
  direction := S.direction grad
  Accepted := S.Accepted f grad
  epsilon_eq := S.epsilon_eq
  epsilon_nonneg := S.epsilon_nonneg
  memory := S.memory
  used_eq := S.usedGradient_eq
  start_fx := S.lbfgsStart_fx hev
  start_g := hev.lbfgsStart_g
  direction_nil := S.direction_nil
  constrain_eq := S.constrainDirection_eq
  search ps x t pg _ _ := S.lineSearch_last hev ps x t pg
  downhill := S.downhill
  curved := S.curved hf

variable {x₀ : Fin n → ℝ} {progress : Option (LbfgsProgress n ℝ)}

theorem neg_norm2_mul_le_dot (x y : Fin n → ℝ) : -(norm2 x * norm2 y) ≤ dot n ℝ x y := by
  have hcauchy := Real.sum_mul_le_sqrt_mul_sqrt Finset.univ (fun i => -x i) y
  simp only [neg_mul, Finset.sum_neg_distrib, neg_sq] at hcauchy
  simp only [sq] at hcauchy
  exact neg_le.mp hcauchy

/-- In every round the direction opposes the pseudo-gradient in each component that it moves,
and the last step has neither crossed zero in a component nor followed the pseudo-gradient. -/
theorem owlqn_rounds (S : Regularised n param) (hev : Computes evaluate f grad)
    (hf : StrictlyAbove f grad) (hx₀ : ¬ (S.scheme hev hf).Small x₀) {st : LbfgsState n ℝ}
    (hrun : RoundsFrom param evaluate progress (lbfgsStart param evaluate (vec x₀)) st) :
    ∃ x before d, AcceptedPath (S.scheme hev hf) x₀ x before ∧ st.x = vec x ∧
      st.pg = vec (pseudoGradient grad S.c x) ∧ st.d = vec d ∧ d ≠ 0 ∧
      (∀ i, d i ≠ 0 → d i * pseudoGradient grad S.c x i < 0) ∧
      ∀ x₁ older, before = x₁ :: older → x ≠ x₁ ∧
        penalised f S.c x ≤ penalised f S.c x₁ +
          S.ftol * dot n ℝ (x - x₁) (pseudoGradient grad S.c x₁) ∧
        ∀ i, 0 ≤ x₁ i * x i ∧ (x i - x₁ i) * pseudoGradient grad S.c x₁ i ≤ 0 := by
  obtain ⟨x, before, h⟩ := hrun.tracks (R := S.scheme hev hf) (lbfgsStart_tracks hx₀)
  have hpg : st.pg = vec (pseudoGradient grad S.c x) := by
    have hused := h.used_eq
    rwa [usedGradient, if_neg S.orthantwise] at hused
  refine ⟨x, before, _, h.path, h.x_eq, hpg, h.d_eq, ?_, fun i hi => opposing_mul_neg hi, ?_⟩
  · exact opposingDirection_ne_zero (memoryDirection_descends param.m.toNat h.path.curved
      (Scheme.used_ne_zero h.unfinished))
  · rintro x₁ older rfl
    cases h.path with
    | step hpath hsmall haccept =>
      obtain ⟨t, ht, rfl, hle⟩ := haccept
      have hd := opposingDirection_ne_zero (memoryDirection_descends param.m.toNat hpath.curved
        (Scheme.used_ne_zero hsmall))
      have hslope := orthantTrial_slope (x := x₁) ht hd
      change dot n ℝ (orthantTrial x₁ (pseudoGradient grad S.c x₁)
        ((S.scheme hev hf).pathDirection x₁ older) t - x₁) (pseudoGradient grad S.c x₁) < 0 at hslope
      refine ⟨?_, hle, fun i => ⟨projectOnto_mul_nonneg, orthantTrial_term_nonpos ht i⟩⟩
      intro hsame
      rw [hsame, sub_self, map_zero, LinearMap.zero_apply] at hslope
      exact hslope.false

/-- A call never raises the penalised function. Where it finds that the pseudo-gradient is
small, no other point has a value below that of the point it hands back by more than the
tolerance times the distance. -/
theorem owlqn_near_minimum {param checked : LbfgsParameter ℝ}
    (hcheck : lbfgsCheck n param = .ok checked) (S : Regularised n checked)
    (hev : Computes evaluate f grad) (hf : StrictlyAbove f grad) (x₀ : Fin n → ℝ)
    (progress : Option (LbfgsProgress n ℝ)) (rounds : ℕ) :
    lbfgs rounds param evaluate progress (vec x₀) = .error .endless ∨
      ∃ r x before, lbfgs rounds param evaluate progress (vec x₀) = .ok r ∧
        AcceptedPath (S.scheme hev hf) x₀ x before ∧ penalised f S.c x ≤ penalised f S.c x₀ ∧
        LbfgsEnd (S.scheme hev hf) progress x before r ∧
        ((S.scheme hev hf).Small x → ∀ y, penalised f S.c x ≤
          penalised f S.c y + S.epsilon * max 1 (norm2 x) * norm2 (y - x)) := by
  rcases lbfgs_ends hcheck (S.scheme hev hf) x₀ progress rounds with hend | ⟨r, x, before, h⟩
  · exact .inl hend
  · refine .inr ⟨r, x, before, h.1, h.2.1, h.2.1.le, h.2.2, fun hsmall y => ?_⟩
    have habove := penalised_le hf S.c_pos.le x y
    have hproduct := neg_norm2_mul_le_dot (pseudoGradient grad S.c x) (y - x)
    have hbound : norm2 (pseudoGradient grad S.c x) * norm2 (y - x) ≤
        S.epsilon * max 1 (norm2 x) * norm2 (y - x) :=
      mul_le_mul_of_nonneg_right hsmall (Real.sqrt_nonneg _)
    linarith

end Regularised

/-! ## The square with a penalty -/

section Square

/-- The penalty needs the method that looks at the slope and backtracks. -/
noncomputable def penaltyProblem : Regularised 1 (defaultParam .backtrackingWolfe 1 1) where
  toTolerances := defaultTolerances .backtrackingWolfe 1 1
  epsilon := 1 / 10 ^ 5
  c := 1
  epsilon_eq := rfl
  epsilon_nonneg := default_epsilon_nonneg
  c_eq := rfl
  c_pos := one_pos
  start := rfl
  stop := rfl
  memory := by simp [defaultParam, lbfgsDefparam]

theorem strictlyAbove_square : StrictlyAbove square squareGradient := by
  intro x y hne
  have hdiff : 0 < (y 0 - x 0) * (y 0 - x 0) := by
    apply mul_self_pos.mpr
    intro hzero
    apply hne
    funext i
    rw [Subsingleton.elim i 0]
    linarith
  rw [dotp_def, dot_one, square, square, squareGradient, Pi.sub_apply]
  linarith

theorem owlqn_near_minimum_square :
    lbfgs 5 (defaultParam .backtrackingWolfe 1 (-1)) evaluateSquare none (vec fun _ => 10) = .error .endless ∨
      ∃ r x before, lbfgs 5 (defaultParam .backtrackingWolfe 1 (-1)) evaluateSquare none
          (vec fun _ => 10) = .ok r ∧
        AcceptedPath (penaltyProblem.scheme computes_evaluateSquare strictlyAbove_square)
          (fun _ => 10) x before ∧
        penalised square 1 x ≤ penalised square 1 (fun _ => 10) ∧
        LbfgsEnd (penaltyProblem.scheme computes_evaluateSquare strictlyAbove_square) none x
          before r ∧
        ((penaltyProblem.scheme computes_evaluateSquare strictlyAbove_square).Small x → ∀ y,
          penalised square 1 x ≤
            penalised square 1 y + 1 / 10 ^ 5 * max 1 (norm2 x) * norm2 (y - x)) :=
  owlqn_near_minimum (lbfgsCheck_defaultParam zero_le_one (.inl rfl)) penaltyProblem computes_evaluateSquare
    strictlyAbove_square (fun _ => 10) none 5

theorem not_small_penalty {x : ℝ} (hx : 1 ≤ x) :
    ¬ (penaltyProblem.scheme computes_evaluateSquare strictlyAbove_square).Small (fun _ => x) := by
  have hpos : 0 < x := one_pos.trans_le hx
  have hpartial : pseudoGradient squareGradient 1 (fun _ => x) 0 = 2 * x + 1 := by
    rw [pseudoGradient, pseudoPartial, if_neg hpos.not_gt, if_pos hpos, squareGradient]
  change ¬ norm2 (pseudoGradient squareGradient 1 fun _ => x) ≤
    penaltyProblem.epsilon * max 1 (norm2 fun _ => x)
  rw [norm2_one, norm2_one, hpartial, abs_of_pos (by linarith), abs_of_pos hpos, max_eq_right hx,
    penaltyProblem, not_le]
  linarith

theorem owlqn_square_rounds :
    ∃ st, RoundsFrom (defaultParam .backtrackingWolfe 1 1) evaluateSquare none
      (lbfgsStart (defaultParam .backtrackingWolfe 1 1) evaluateSquare (vec fun _ => 10)) st ∧ st.k = 2 := by
  set R := penaltyProblem.scheme computes_evaluateSquare strictlyAbove_square with hR
  set x₀ : Fin 1 → ℝ := fun _ => 10 with hx₀
  set st := lbfgsStart (defaultParam .backtrackingWolfe 1 1) evaluateSquare (vec x₀) with hst
  have h : Tracks R x₀ x₀ [] st := lbfgsStart_tracks (not_small_penalty (by norm_num))
  have hpg : R.used x₀ = fun _ => 21 := by
    funext i
    change pseudoPartial 1 (squareGradient x₀ i) (x₀ i) = 21
    norm_num [pseudoPartial, squareGradient, hx₀]
  have hdirection : R.pathDirection x₀ [] = fun _ => -21 := by
    rw [Scheme.pathDirection, corrections_singleton, R.direction_nil, hpg]
    rfl
  have hstep : st.step = .fin (1 / 21) := by
    change vec2norminv st.d = _
    rw [h.d_eq, hdirection, vec2norminv, vec2norm_vec, norm2_one, abs_neg, abs_of_pos (by norm_num),
      Double.one_def, Double.fin_div_fin (by norm_num)]
  have hslope : dot 1 ℝ ((fun _ => 9) - x₀) (fun _ => 21) = -21 := by
    rw [dot_one]
    norm_num [hx₀]
  have hten : R.objective x₀ = 110 := by
    change penalised square 1 x₀ = 110
    norm_num [penalised, square, hx₀]
  have hnine : R.objective (fun _ => 9) = 90 := by
    change penalised square 1 (fun _ => 9) = 90
    norm_num [penalised, square]
  have htrial : orthantTrial x₀ (fun _ => 21) (fun _ => -21) (1 / 21) = fun _ => 9 := by
    funext i
    norm_num [orthantTrial, projectOnto, orthantSign, hx₀]
  have hle : R.objective (fun _ => 9) ≤
      R.objective x₀ + penaltyProblem.ftol * dot 1 ℝ ((fun _ => 9) - x₀) (fun _ => 21) := by
    rw [hslope, hten, hnine]
    norm_num [penaltyProblem, defaultTolerances]
  have haccept : R.Accepted x₀ (R.pathDirection x₀ []) fun _ => 9 := by
    rw [hdirection]
    refine ⟨1 / 21, by norm_num, ?_, ?_⟩
    · change _ = orthantTrial x₀ (R.used x₀) _ _
      rw [hpg, htrial]
    · change R.objective _ ≤ R.objective _ + _ * dot 1 ℝ _ (R.used x₀)
      rwa [hpg]
  have hsearch : lineSearch (defaultParam .backtrackingWolfe 1 1) evaluateSquare
      { x := st.x, f := st.fx, g := st.g, stp := st.step } st.d st.x st.pg =
      ⟨.ok 1, lineSearchStart R.objective R.grad (fun _ => 9) (1 / 21)⟩ := by
    have hpositive : ¬ (Double.fin (1 / 21) : Double ℝ) ≤ 0 :=
      Double.fin_le_fin.not.mpr (by norm_num)
    have hpenalty : (!((defaultParam .backtrackingWolfe 1 1).orthantwiseC == 0)) = true := by
      simpa using penaltyProblem.orthantwise
    have hstpg : st.pg = vec fun _ => 21 := by
      have hused := h.used_eq
      rwa [usedGradient, if_neg penaltyProblem.orthantwise, hpg] at hused
    rw [h.d_eq, h.x_eq, h.fx_eq, hstep, hstpg, hdirection, lineSearch, if_pos hpenalty,
      lineSearchBacktrackingOwlqn, if_neg hpositive]
    dsimp only
    rw [owlqnLoop_first penaltyProblem computes_evaluateSquare (by norm_num) (by rwa [htrial]),
      htrial]
    rfl
  obtain ⟨next, hiterate, htracks⟩ := lbfgsIterate_next h hsearch haccept
    (not_small_penalty (by norm_num)) rfl rfl
  exact ⟨next, .round .start hiterate, htracks.k_eq⟩

theorem owlqn_rounds_square :
    ∃ st : LbfgsState 1 ℝ, st.k = 2 ∧ ∃ x before d,
      AcceptedPath (penaltyProblem.scheme computes_evaluateSquare strictlyAbove_square)
        (fun _ => 10) x before ∧
      st.x = vec x ∧ st.pg = vec (pseudoGradient squareGradient 1 x) ∧ st.d = vec d ∧ d ≠ 0 ∧
      (∀ i, d i ≠ 0 → d i * pseudoGradient squareGradient 1 x i < 0) ∧
      ∀ x₁ older, before = x₁ :: older → x ≠ x₁ ∧
        penalised square 1 x ≤ penalised square 1 x₁ +
          1 / 10 ^ 4 * dot 1 ℝ (x - x₁) (pseudoGradient squareGradient 1 x₁) ∧
        ∀ i, 0 ≤ x₁ i * x i ∧ (x i - x₁ i) * pseudoGradient squareGradient 1 x₁ i ≤ 0 := by
  obtain ⟨st, hrun, hk⟩ := owlqn_square_rounds
  exact ⟨st, hk, owlqn_rounds penaltyProblem computes_evaluateSquare strictlyAbove_square
    (not_small_penalty (by norm_num)) hrun⟩

end Square
end Plfit
