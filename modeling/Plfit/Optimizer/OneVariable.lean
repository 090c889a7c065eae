import Mathlib
import Plfit.Optimizer.Descent

/-! # Functions of one variable

With one variable the direction cannot turn away from the gradient: after the first round it
is the step of the secant method, and every accepted step lowers the function by a fixed
amount as long as the gradient is not small. A run on a function that is bounded below
therefore ends.
-/
namespace Plfit
open ExactArithmetic QuasiNewton

section OneVariable
variable {f : (Fin 1 → ℝ) → ℝ} {grad : (Fin 1 → ℝ) → Fin 1 → ℝ} {param : LbfgsParameter ℝ}
  {evaluate : LbfgsEvaluate 1 ℝ} {progress : Option (LbfgsProgress 1 ℝ)}
  {S : Unregularised param} {hev : Computes evaluate f grad} {x₀ x : Fin 1 → ℝ}
  {before : List (Fin 1 → ℝ)} {st : LbfgsState 1 ℝ}

/-- Whatever the memory is, the direction leads to the zero of the secant of the gradient
through the two newest points that the run has accepted. -/
theorem lbfgs_secant (S : Unregularised param) (hev : Computes evaluate f grad)
    (hx₀ : ¬ (S.scheme hev).Small x₀)
    (hrun : RoundsFrom param evaluate progress (lbfgsStart param evaluate (vec x₀)) st)
    (hst : st.k ≠ 1) :
    ∃ x x₁ older, AcceptedPath (S.scheme hev) x₀ x (x₁ :: older) ∧ st.k = older.length + 2 ∧
      st.x = vec x ∧ x 0 ≠ x₁ 0 ∧ grad x 0 ≠ grad x₁ 0 ∧
      st.d = vec (fun _ => -grad x 0 * (x 0 - x₁ 0) / (grad x 0 - grad x₁ 0)) := by
  obtain ⟨x, before, htracks⟩ := hrun.tracks (lbfgsStart_tracks hx₀)
  obtain ⟨H, hd, -, -, hsecant⟩ := htracks.direction
  obtain ⟨x₁, older, rfl⟩ : ∃ x₁ older, before = x₁ :: older := by
    cases before with
    | nil => exact absurd htracks.k_eq hst
    | cons x₁ older => exact ⟨x₁, older, rfl⟩
  have hcurved : 0 < (grad x 0 - grad x₁ 0) * (x 0 - x₁ 0) := by
    have := htracks.path.curved _ (List.mem_cons_self (a := ⟨x - x₁, grad x - grad x₁⟩)
      (l := corrections grad (x₁ :: older)))
    rwa [Curved, dot_one] at this
  have hy : grad x 0 - grad x₁ 0 ≠ 0 := left_ne_zero_of_mul hcurved.ne'
  have hs : x 0 - x₁ 0 ≠ 0 := right_ne_zero_of_mul hcurved.ne'
  refine ⟨x, x₁, older, htracks.path, htracks.k_eq, htracks.x_eq, sub_ne_zero.mp hs,
    sub_ne_zero.mp hy, ?_⟩
  -- the gradient is a multiple of its newest change
  have hmul : -grad x = (-grad x 0 / (grad x 0 - grad x₁ 0)) • (grad x - grad x₁) := by
    funext i
    rw [Subsingleton.elim i 0, Pi.smul_apply, Pi.sub_apply, smul_eq_mul, div_mul_cancel₀ _ hy,
      Pi.neg_apply]
  rw [hd, hmul, map_smul, hsecant x₁ older rfl]
  congr 1
  funext i
  rw [Subsingleton.elim i 0, Pi.smul_apply, Pi.sub_apply, smul_eq_mul, div_mul_eq_mul_div]

theorem lbfgs_secant_square :
    ∃ st : LbfgsState 1 ℝ, st.k = 2 ∧ ∃ x x₁ older,
      AcceptedPath (squareProblem.scheme computes_evaluateSquare) (fun _ => 10) x (x₁ :: older) ∧
      st.k = older.length + 2 ∧ st.x = vec x ∧ x 0 ≠ x₁ 0 ∧
      squareGradient x 0 ≠ squareGradient x₁ 0 ∧
      st.d = vec (fun _ => -squareGradient x 0 * (x 0 - x₁ 0) /
        (squareGradient x 0 - squareGradient x₁ 0)) := by
  obtain ⟨st, hrun, hk⟩ := lbfgs_square_rounds
  exact ⟨st, hk, lbfgs_secant squareProblem computes_evaluateSquare
    (not_small_square (by norm_num)) hrun (by omega)⟩

/-! ## Termination -/

/-- The amount by which an accepted step lowers the function, for a gradient that changes at
most by the factor `L`. -/
noncomputable def guaranteedDecrease (S : Unregularised param) (L : ℝ) : ℝ :=
  S.ftol * (1 - S.toTolerances.slope) * S.epsilon ^ 2 / L

variable {L b : ℝ}

/-- An accepted step is long enough for the slope to have changed, and so lowers the function. -/
theorem accepted_decrease (hL : 0 < L)
    (hlip : ∀ x y, f x ≤ f x₀ → f y ≤ f x₀ → |grad x 0 - grad y 0| ≤ L * |x 0 - y 0|)
    (hx : f x ≤ f x₀) (hsmall : S.epsilon ≤ |grad x 0|) {d : Fin 1 → ℝ}
    (hd : dot 1 ℝ (grad x) d < 0) {t : ℝ} (ht : 0 < t) (hf : Decreases f grad S.ftol x d t)
    (hflat : Flattens grad S.toTolerances.slope x d t) :
    f (x + t • d) + guaranteedDecrease S L ≤ f x := by
  set slope := S.toTolerances.slope with hslope
  have hslope1 : slope < 1 := S.slope_lt
  have hftol := S.ftol_nonneg
  rw [Decreases, dotp_def] at hf
  rw [Flattens, dotp_def, dotp_def] at hflat
  rw [dot_one] at hd hf hflat
  rw [dot_one] at hflat
  have hx' : f (x + t • d) ≤ f x₀ := by
    have hterm := mul_nonpos_of_nonneg_of_nonpos hftol hd.le
    linarith [mul_nonpos_of_nonneg_of_nonpos ht.le hterm]
  have hstep : (x + t • d) 0 - x 0 = t * d 0 := by simp
  have hchange := hlip (x + t • d) x hx' hx
  rw [hstep, abs_mul, abs_of_pos ht] at hchange
  -- the slope changes by at least the fraction that the search asks for
  have hgrow : (1 - slope) * |grad x 0 * d 0| ≤ L * (t * |d 0|) * |d 0| := by
    have hle : (1 - slope) * |grad x 0 * d 0| ≤ |grad (x + t • d) 0 - grad x 0| * |d 0| := by
      rw [abs_of_neg hd, ← abs_mul]
      refine le_trans ?_ (le_abs_self _)
      linarith
    exact hle.trans (mul_le_mul_of_nonneg_right hchange (abs_nonneg _))
  have hd0 : 0 < |d 0| := abs_pos.mpr (right_ne_zero_of_mul hd.ne)
  have hlong : (1 - slope) * |grad x 0| / L ≤ t * |d 0| := by
    rw [abs_mul] at hgrow
    rw [div_le_iff₀ hL]
    refine le_of_mul_le_mul_right ?_ hd0
    linarith
  have hproduct : (1 - slope) * S.epsilon ^ 2 / L ≤ t * -(grad x 0 * d 0) := by
    calc (1 - slope) * S.epsilon ^ 2 / L ≤ (1 - slope) * |grad x 0| ^ 2 / L := by
          have := pow_le_pow_left₀ S.epsilon_nonneg hsmall 2
          gcongr
      _ = |grad x 0| * ((1 - slope) * |grad x 0| / L) := by ring
      _ ≤ |grad x 0| * (t * |d 0|) := mul_le_mul_of_nonneg_left hlong (abs_nonneg _)
      _ = t * -(grad x 0 * d 0) := by rw [← abs_of_neg hd, abs_mul]; ring
  have hfinal := mul_le_mul_of_nonneg_left hproduct hftol
  have hdef : guaranteedDecrease S L = S.ftol * ((1 - slope) * S.epsilon ^ 2 / L) := by
    rw [guaranteedDecrease, mul_assoc, mul_div_assoc]
  rw [hdef]
  linarith

theorem le_gradient_of_not_small (hsmall : ¬ (S.scheme hev).Small x) : S.epsilon ≤ |grad x 0| := by
  have hlarge : S.epsilon * max 1 (norm2 x) < norm2 (grad x) := not_le.mp hsmall
  rw [norm2_one, norm2_one] at hlarge
  exact (le_mul_of_one_le_right S.epsilon_nonneg (le_max_left _ _)).trans hlarge.le

theorem AcceptedPath.decrease (hL : 0 < L)
    (hlip : ∀ x y, f x ≤ f x₀ → f y ≤ f x₀ → |grad x 0 - grad y 0| ≤ L * |x 0 - y 0|)
    (h : AcceptedPath (S.scheme hev) x₀ x before) :
    f x + before.length * guaranteedDecrease S L ≤ f x₀ := by
  induction h with
  | start => simp
  | step hpath hsmall haccept ih =>
    obtain ⟨t, ht, rfl, hf, hflat⟩ := haccept
    rename_i x before
    have hd : dot 1 ℝ (grad x) ((S.scheme hev).pathDirection x before) < 0 :=
      memoryDirection_descends param.m.toNat hpath.curved (Scheme.used_ne_zero hsmall)
    have hround := accepted_decrease hL hlip hpath.le (le_gradient_of_not_small hsmall) hd ht hf hflat
    rw [List.length_cons, Nat.cast_succ]
    linarith

/-- A run ends within a number of rounds that the possible decrease bounds. -/
theorem lbfgs_one_ends {param checked : LbfgsParameter ℝ}
    (hcheck : lbfgsCheck 1 param = .ok checked) (S : Unregularised checked)
    (hev : Computes evaluate f grad) (x₀ : Fin 1 → ℝ) (progress : Option (LbfgsProgress 1 ℝ))
    (hL : 0 < L)
    (hlip : ∀ x y, f x ≤ f x₀ → f y ≤ f x₀ → |grad x 0 - grad y 0| ≤ L * |x 0 - y 0|)
    (hbound : ∀ x, b ≤ f x) {rounds : ℕ}
    (hrounds : f x₀ - b < rounds * guaranteedDecrease S L) :
    ∃ r x before, lbfgs rounds param evaluate progress (vec x₀) = .ok r ∧
      AcceptedPath (S.scheme hev) x₀ x before ∧
        LbfgsEnd (S.scheme hev) progress x before r := by
  rcases lbfgs_ends hcheck (S.scheme hev) x₀ progress rounds with hrun | hend
  · exfalso
    obtain ⟨hfinished, hloop⟩ := lbfgs_eq hcheck (S.scheme hev) x₀ progress rounds
    by_cases hsmall : (S.scheme hev).Small x₀
    · rw [hfinished hsmall] at hrun
      cases hrun
    · rw [hloop hsmall] at hrun
      obtain ⟨x, before, hpath, hlength⟩ :=
        lbfgsLoop_endless rounds (lbfgsStart_tracks hsmall) hrun
      have hdecrease := hpath.decrease hL hlip
      rw [hlength, List.length_nil, zero_add] at hdecrease
      linarith [hbound x]
  · exact hend

/-- On a function of one variable that is bounded below, with a gradient that is Lipschitz
where the function is not above its value at the start, the optimiser ends, with the same
result however many more rounds it is followed for. The number of rounds is bounded by the
ratio of the possible decrease to that of one round. -/
theorem lbfgs_one_terminates {param checked : LbfgsParameter ℝ}
    (hcheck : lbfgsCheck 1 param = .ok checked) (S : Unregularised checked)
    (hev : Computes evaluate f grad) (x₀ : Fin 1 → ℝ) (progress : Option (LbfgsProgress 1 ℝ))
    (hL : 0 < L)
    (hlip : ∀ x y, f x ≤ f x₀ → f y ≤ f x₀ → |grad x 0 - grad y 0| ≤ L * |x 0 - y 0|)
    (hbound : ∀ x, b ≤ f x) {rounds : ℕ}
    (hrounds : f x₀ - b < rounds * guaranteedDecrease S L) :
    ∃ r x before, AcceptedPath (S.scheme hev) x₀ x before ∧
      LbfgsEnd (S.scheme hev) progress x before r ∧
      ∀ rounds' ≥ rounds, lbfgs rounds' param evaluate progress (vec x₀) = .ok r := by
  obtain ⟨r, x, before, hrun, hpath, hend⟩ :=
    lbfgs_one_ends hcheck S hev x₀ progress hL hlip hbound hrounds
  exact ⟨r, x, before, hpath, hend, fun rounds' hle => lbfgs_mono hle hrun⟩

theorem lbfgs_one_terminates_square :
    ∃ r x before, AcceptedPath (squareProblem.scheme computes_evaluateSquare) (fun _ => 10) x before ∧
      LbfgsEnd (squareProblem.scheme computes_evaluateSquare) none x before r ∧
      ∀ rounds' ≥ 10 ^ 18,
        lbfgs rounds' (defaultParam .backtrackingWolfe 0 (-1)) evaluateSquare none (vec fun _ => 10) = .ok r := by
  refine lbfgs_one_terminates (lbfgsCheck_defaultParam le_rfl (.inl rfl)) squareProblem computes_evaluateSquare
    (fun _ => 10) none two_pos (fun x y _ _ => ?_) (fun x => mul_self_nonneg (x 0)) ?_
  · rw [squareGradient, squareGradient, ← mul_sub, abs_mul, abs_two]
  · norm_num [square, guaranteedDecrease, squareProblem, defaultProblem, defaultTolerances,
      defaultParam, Tolerances.slope]

end OneVariable
end Plfit
