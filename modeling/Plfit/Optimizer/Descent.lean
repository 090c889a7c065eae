import Mathlib
import Plfit.Optimizer.Scheme

/-! # Descent along quasi-Newton directions

Without orthants every round searches along minus a symmetric positive operator applied to the
gradient, which is the inverse Hessian approximation of the newest steps. The curvature
condition on a step keeps the next operator positive.
-/
namespace Plfit
open ExactArithmetic QuasiNewton

/-- A problem without regularisation, and a line search that looks at the slope. -/
structure Unregularised (param : LbfgsParameter ℝ) extends Tolerances param where
  epsilon : ℝ
  epsilon_eq : param.epsilon = .fin epsilon
  epsilon_nonneg : 0 ≤ epsilon
  unregularised : (param.orthantwiseC == 0) = true
  method : param.linesearch ≠ .backtrackingArmijo
  slope_lt : toTolerances.slope < 1
  memory : 1 ≤ param.m

section Unregularised
variable {n : ℕ} {f : (Fin n → ℝ) → ℝ} {grad : (Fin n → ℝ) → Fin n → ℝ}
  {param : LbfgsParameter ℝ} {evaluate : LbfgsEvaluate n ℝ}

def Unregularised.Accepted (S : Unregularised param) (f : (Fin n → ℝ) → ℝ)
    (grad : (Fin n → ℝ) → Fin n → ℝ) (x d x' : Fin n → ℝ) : Prop :=
  ∃ t : ℝ, 0 < t ∧ x' = x + t • d ∧ Decreases f grad S.ftol x d t ∧
    Flattens grad S.toTolerances.slope x d t

/-- The gradient is used as it is, and the direction is not constrained. -/
noncomputable def Unregularised.scheme (S : Unregularised param) (hev : Computes evaluate f grad) :
    Scheme param evaluate where
  epsilon := S.epsilon
  objective := f
  grad := grad
  used := grad
  direction ps x := memoryDirection param.m.toNat ps (grad x)
  Accepted := S.Accepted f grad
  epsilon_eq := S.epsilon_eq
  epsilon_nonneg := S.epsilon_nonneg
  memory := S.memory
  used_eq _ _ := if_pos S.unregularised
  start_fx x := by
    have hzero : evaluate (vec x) 0 = (.fin (f x), vec (grad x)) := hev x 0 le_rfl
    simp only [lbfgsStart, hzero, S.unregularised, if_true]
  start_g := hev.lbfgsStart_g
  direction_nil x := memoryDirection_nil _ _
  constrain_eq _ _ _ _ := if_pos S.unregularised
  search ps x t pg hne hps ht _ := by
    have hd := memoryDirection_descends param.m.toNat hps hne
    have hsearch := lineSearch_vec S.toTolerances hev S.unregularised S.slope_lt hd ht pg
    generalize lineSearch param evaluate (lineSearchStart f grad x t)
      (vec (memoryDirection param.m.toNat ps (grad x))) (vec x) pg = out at hsearch ⊢
    obtain ⟨ls, last⟩ := out
    cases ls with
    | error e => exact hsearch
    | ok ls =>
      obtain ⟨t', ht', rfl, hf, hflat, -⟩ := hsearch
      exact ⟨t', _, rfl, t', ht', rfl, hf, hflat S.method⟩
  downhill ps x x' hne hps := by
    rintro ⟨t, ht, rfl, hf, -⟩
    have hd := memoryDirection_descends param.m.toNat hps hne
    have hterm := mul_nonpos_of_nonneg_of_nonpos S.ftol_nonneg hd.le
    rw [Decreases, dotp_def] at hf
    linarith [mul_nonpos_of_nonneg_of_nonpos ht.le hterm]
  curved ps x x' hne hps := by
    rintro ⟨t, ht, rfl, -, hflat⟩
    exact hflat.curved S.slope_lt ht (memoryDirection_descends param.m.toNat hps hne)

/-- The default parameters, with any method that looks at the slope. -/
noncomputable def defaultProblem (linesearch : LbfgsLinesearch)
    (hmethod : linesearch ≠ .backtrackingArmijo) :
    Unregularised (defaultParam linesearch 0 1) where
  toTolerances := defaultTolerances linesearch 0 1
  epsilon := 1 / 10 ^ 5
  epsilon_eq := rfl
  epsilon_nonneg := default_epsilon_nonneg
  unregularised := by simp [defaultParam]
  method := hmethod
  slope_lt := default_slope_lt linesearch 0 1
  memory := by simp [defaultParam, lbfgsDefparam]

variable {S : Unregularised param} {hev : Computes evaluate f grad} {x₀ x : Fin n → ℝ}
  {before : List (Fin n → ℝ)} {st : LbfgsState n ℝ} {progress : Option (LbfgsProgress n ℝ)}

/-- The direction comes from the inverse Hessian approximation of the path. -/
theorem Tracks.direction (h : Tracks (S.scheme hev) x₀ x before st) :
    ∃ H : (Fin n → ℝ) →ₗ[ℝ] (Fin n → ℝ), st.d = vec (H (-grad x)) ∧
      H = inverseHessian (dot n ℝ) (scaling (corrections grad (x :: before)) • LinearMap.id)
        ((corrections grad (x :: before)).take param.m.toNat) ∧
      IsPositive (dot n ℝ) H ∧
      ∀ x₁ older, before = x₁ :: older → H (grad x - grad x₁) = x - x₁ := by
  have hcurved : ∀ p ∈ corrections grad (x :: before), Curved (dot n ℝ) p := h.path.curved
  refine ⟨_, h.d_eq, rfl, inverseHessian_take_isPositive _ hcurved, ?_⟩
  rintro x₁ older rfl
  have hnewest := hcurved _ (List.mem_cons_self (a := ⟨x - x₁, grad x - grad x₁⟩)
    (l := corrections grad (x₁ :: older)))
  obtain ⟨m, hm⟩ : ∃ m, param.m.toNat = m + 1 := by
    have := S.memory
    exact ⟨param.m.toNat - 1, by omega⟩
  rw [hm, corrections, List.take_succ_cons]
  exact inverseHessian_secant dot_symm _ (p := ⟨x - x₁, grad x - grad x₁⟩) hnewest.ne' _

/-- In every round the direction is that of the quasi-Newton method: minus a symmetric
positive operator applied to the gradient, which is the inverse Hessian approximation of the
`m` newest steps and maps the newest change of the gradient to the newest step. -/
theorem lbfgs_direction (S : Unregularised param) (hev : Computes evaluate f grad)
    (hx₀ : ¬ (S.scheme hev).Small x₀)
    (hrun : RoundsFrom param evaluate progress (lbfgsStart param evaluate (vec x₀)) st) :
    ∃ x before, ∃ H : (Fin n → ℝ) →ₗ[ℝ] (Fin n → ℝ),
      AcceptedPath (S.scheme hev) x₀ x before ∧ st.k = before.length + 1 ∧
      st.x = vec x ∧ st.g = vec (grad x) ∧ st.d = vec (H (-grad x)) ∧
      H = inverseHessian (dot n ℝ) (scaling (corrections grad (x :: before)) • LinearMap.id)
        ((corrections grad (x :: before)).take param.m.toNat) ∧
      IsPositive (dot n ℝ) H ∧
      ∀ x₁ older, before = x₁ :: older → H (grad x - grad x₁) = x - x₁ := by
  obtain ⟨x, before, h⟩ := hrun.tracks (lbfgsStart_tracks hx₀)
  obtain ⟨H, hH⟩ := h.direction
  exact ⟨x, before, H, h.path, h.k_eq, h.x_eq, h.g_eq, hH⟩

/-- Without a penalty, and with a line search that looks at the slope, a call never goes uphill.
Whatever its callback does, it hands back the last point of an accepted path, which is not above
its start, and its code stands for a test that was met there. It reads inside its arrays. -/
theorem lbfgs_never_uphill {param checked : LbfgsParameter ℝ}
    (hcheck : lbfgsCheck n param = .ok checked) (S : Unregularised checked)
    (hev : Computes evaluate f grad) (x₀ : Fin n → ℝ) (progress : Option (LbfgsProgress n ℝ))
    (rounds : ℕ) :
    lbfgs rounds param evaluate progress (vec x₀) = .error .endless ∨
      ∃ r x before, lbfgs rounds param evaluate progress (vec x₀) = .ok r ∧
        AcceptedPath (S.scheme hev) x₀ x before ∧ f x ≤ f x₀ ∧
        LbfgsEnd (S.scheme hev) progress x before r := by
  rcases lbfgs_ends hcheck (S.scheme hev) x₀ progress rounds with hend | ⟨r, x, before, h⟩
  · exact .inl hend
  · exact .inr ⟨r, x, before, h.1, h.2.1, h.2.1.le, h.2.2⟩

end Unregularised

/-! ## The square -/

section Square

noncomputable def squareProblem : Unregularised (defaultParam .backtrackingWolfe 0 1) :=
  defaultProblem .backtrackingWolfe (by decide)

theorem not_small_square {x : ℝ} (hx : 1 ≤ x) :
    ¬ (squareProblem.scheme computes_evaluateSquare).Small (fun _ => x) := by
  have hpos : 0 < x := one_pos.trans_le hx
  change ¬ norm2 (squareGradient fun _ => x) ≤ squareProblem.epsilon * max 1 (norm2 fun _ => x)
  rw [norm2_one, norm2_one, squareGradient, abs_of_pos (by linarith), abs_of_pos hpos,
    max_eq_right hx, squareProblem, defaultProblem, not_le]
  linarith

theorem lbfgs_never_uphill_square :
    lbfgs 5 (defaultParam .backtrackingWolfe 0 (-1)) evaluateSquare none (vec fun _ => 10) = .error .endless ∨
      ∃ r x before, lbfgs 5 (defaultParam .backtrackingWolfe 0 (-1)) evaluateSquare none
          (vec fun _ => 10) = .ok r ∧
        AcceptedPath (squareProblem.scheme computes_evaluateSquare) (fun _ => 10) x before ∧
        square x ≤ square (fun _ => 10) ∧
        LbfgsEnd (squareProblem.scheme computes_evaluateSquare) none x before r :=
  lbfgs_never_uphill (lbfgsCheck_defaultParam le_rfl (.inl rfl)) squareProblem computes_evaluateSquare (fun _ => 10)
    none 5

theorem lbfgs_square_round :
    ∃ next, lbfgsIterate (defaultParam .backtrackingWolfe 0 1) evaluateSquare none
        (lbfgsStart (defaultParam .backtrackingWolfe 0 1) evaluateSquare (vec fun _ => 10)) = .ok (.inl next) ∧
      next.k = 2 := by
  set R := squareProblem.scheme computes_evaluateSquare with hR
  set x₀ : Fin 1 → ℝ := fun _ => 10 with hx₀
  set st := lbfgsStart (defaultParam .backtrackingWolfe 0 1) evaluateSquare (vec x₀) with hst
  have h : Tracks R x₀ x₀ [] st := lbfgsStart_tracks (not_small_square (by norm_num))
  have hd : st.d = vec (-squareGradient x₀) := by
    rw [h.d_eq, Scheme.pathDirection, corrections_singleton, R.direction_nil]
    rfl
  have hnorm : norm2 (-squareGradient x₀) = 20 := by
    rw [norm2_one]
    norm_num [squareGradient, hx₀]
  have hstep : st.step = .fin (1 / 20) := by
    change vec2norminv st.d = _
    rw [hd, vec2norminv, vec2norm_vec, hnorm, Double.one_def, Double.fin_div_fin (by norm_num)]
  have hsearch : lineSearch (defaultParam .backtrackingWolfe 0 1) evaluateSquare
      { x := st.x, f := st.fx, g := st.g, stp := st.step } st.d st.x st.pg =
      ⟨.ok 1, trialAt square squareGradient x₀ (-squareGradient x₀) (1 / 20)⟩ := by
    rw [← lineSearch_square 1 st.pg, h.x_eq, h.fx_eq, h.g_eq, hstep, hd]
    rfl
  have hnine : x₀ + (1 / 20 : ℝ) • -squareGradient x₀ = fun _ => 9 := by
    funext i
    norm_num [hx₀, squareGradient]
  have hunfinished : ¬ R.Small fun _ => 9 := not_small_square (by norm_num)
  have haccept : R.Accepted x₀ (R.pathDirection x₀ []) fun _ => 9 := by
    rw [Scheme.pathDirection, corrections_singleton, R.direction_nil]
    refine ⟨1 / 20, by norm_num, hnine.symm, ?_, ?_⟩
    · norm_num [Decreases, dotp_def, dot_one, square, squareGradient, squareProblem, defaultProblem,
        defaultTolerances, hR, Unregularised.scheme, hx₀]
    · norm_num [Flattens, dotp_def, dot_one, squareGradient, squareProblem, defaultProblem,
        defaultTolerances, defaultParam, hR, Unregularised.scheme, Tolerances.slope, hx₀]
  have hlast : trialAt square squareGradient x₀ (-squareGradient x₀) (1 / 20) =
      lineSearchStart R.objective R.grad (fun _ => 9) (1 / 20) := by
    rw [← hnine]
    rfl
  rw [hlast] at hsearch
  obtain ⟨next, hiterate, htracks⟩ := lbfgsIterate_next h hsearch haccept hunfinished rfl rfl
  exact ⟨next, hiterate, htracks.k_eq⟩

theorem lbfgs_square_rounds :
    ∃ st, RoundsFrom (defaultParam .backtrackingWolfe 0 1) evaluateSquare none
        (lbfgsStart (defaultParam .backtrackingWolfe 0 1) evaluateSquare (vec fun _ => 10)) st ∧ st.k = 2 := by
  obtain ⟨next, hround, hk⟩ := lbfgs_square_round
  exact ⟨next, .round .start hround, hk⟩

theorem lbfgs_direction_square :
    ∃ st : LbfgsState 1 ℝ, st.k = 2 ∧
    ∃ x before, ∃ H : (Fin 1 → ℝ) →ₗ[ℝ] (Fin 1 → ℝ),
      AcceptedPath (squareProblem.scheme computes_evaluateSquare) (fun _ => 10) x before ∧
      st.k = before.length + 1 ∧ st.x = vec x ∧ st.g = vec (squareGradient x) ∧
      st.d = vec (H (-squareGradient x)) ∧
      H = inverseHessian (dot 1 ℝ)
        (scaling (corrections squareGradient (x :: before)) • LinearMap.id)
        ((corrections squareGradient (x :: before)).take (defaultParam .backtrackingWolfe 0 1).m.toNat) ∧
      IsPositive (dot 1 ℝ) H ∧
      ∀ x₁ older, before = x₁ :: older → H (squareGradient x - squareGradient x₁) = x - x₁ := by
  obtain ⟨st, hrun, hk⟩ := lbfgs_square_rounds
  exact ⟨st, hk, lbfgs_direction squareProblem computes_evaluateSquare
    (not_small_square (by norm_num)) hrun⟩

end Square
end Plfit
