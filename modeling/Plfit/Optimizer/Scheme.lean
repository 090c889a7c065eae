import Mathlib
import Plfit.Optimizer.LineSearch

/-! # Runs of the optimiser

With and without the orthants the rounds have one shape: a search along the direction of the
corrections so far, and a new correction. A scheme says which gradient is used and which steps
are accepted, and that accepted steps go downhill and give curved corrections. A run of a
scheme ends in one of a few ways, at the last point of a path of accepted steps.
-/
namespace Plfit
open ExactArithmetic QuasiNewton

/-! ## Schemes -/

/-- What a run does with its callback and its parameters. -/
structure Scheme {n : ℕ} (param : LbfgsParameter ℝ) (evaluate : LbfgsEvaluate n ℝ) where
  epsilon : ℝ
  objective : (Fin n → ℝ) → ℝ
  grad : (Fin n → ℝ) → Fin n → ℝ
  used : (Fin n → ℝ) → Fin n → ℝ
  direction : List (Correction (Fin n → ℝ)) → (Fin n → ℝ) → Fin n → ℝ
  Accepted : (Fin n → ℝ) → (Fin n → ℝ) → (Fin n → ℝ) → Prop
  epsilon_eq : param.epsilon = .fin epsilon
  epsilon_nonneg : 0 ≤ epsilon
  memory : 1 ≤ param.m
  used_eq : ∀ x pg, usedGradient param (vec (grad x))
    (updatePseudoGradient param (vec x) (vec (grad x)) pg) = vec (used x)
  start_fx : ∀ x, (lbfgsStart param evaluate (vec x)).fx = .fin (objective x)
  start_g : ∀ x, (lbfgsStart param evaluate (vec x)).g = vec (grad x)
  direction_nil : ∀ x, direction [] x = -used x
  constrain_eq : ∀ ps x pg, usedGradient param (vec (grad x)) pg = vec (used x) →
    constrainDirection param (vec (memoryDirection param.m.toNat ps (used x))) pg =
      vec (direction ps x)
  search : ∀ ps x t pg, used x ≠ 0 → (∀ p ∈ ps, Curved (dot n ℝ) p) → 0 < t →
    usedGradient param (vec (grad x)) pg = vec (used x) →
    match lineSearch param evaluate (lineSearchStart objective grad x t) (vec (direction ps x))
        (vec x) pg with
    | ⟨.ok _, last⟩ => ∃ t' x', last = lineSearchStart objective grad x' t' ∧
        Accepted x (direction ps x) x'
    | ⟨.error e, _⟩ => e ∈ searchErrors
  downhill : ∀ ps x x', used x ≠ 0 → (∀ p ∈ ps, Curved (dot n ℝ) p) →
    Accepted x (direction ps x) x' → objective x' ≤ objective x
  curved : ∀ ps x x', used x ≠ 0 → (∀ p ∈ ps, Curved (dot n ℝ) p) →
    Accepted x (direction ps x) x' → Curved (dot n ℝ) ⟨x' - x, grad x' - grad x⟩

/-- A run starts with the gradient that its callback computes. -/
theorem Computes.lbfgsStart_g {n : ℕ} {param : LbfgsParameter ℝ} {evaluate : LbfgsEvaluate n ℝ}
    {f : (Fin n → ℝ) → ℝ} {grad : (Fin n → ℝ) → Fin n → ℝ} (hev : Computes evaluate f grad)
    (x : Fin n → ℝ) : (lbfgsStart param evaluate (vec x)).g = vec (grad x) :=
  congrArg Prod.snd (hev x 0 le_rfl)

/-! ## Paths of accepted points -/

section Paths
variable {n : ℕ} {grad : (Fin n → ℝ) → Fin n → ℝ}

noncomputable def corrections (grad : (Fin n → ℝ) → Fin n → ℝ) :
    List (Fin n → ℝ) → List (Correction (Fin n → ℝ))
  | x' :: x :: before => ⟨x' - x, grad x' - grad x⟩ :: corrections grad (x :: before)
  | _ => []

@[simp] theorem corrections_singleton (x : Fin n → ℝ) : corrections grad [x] = [] := rfl

theorem corrections_length (x : Fin n → ℝ) (before : List (Fin n → ℝ)) :
    (corrections grad (x :: before)).length = before.length := by
  induction before generalizing x with
  | nil => rfl
  | cons y before ih => rw [corrections, List.length_cons, ih, List.length_cons]

noncomputable def norm2 (x : Fin n → ℝ) : ℝ := √(dot n ℝ x x)

theorem vec2norm_vec (x : Fin n → ℝ) : vec2norm (vec x) = .fin (norm2 x) := by
  have hnonneg : 0 ≤ dotProduct x x := Finset.sum_nonneg fun i _ => mul_self_nonneg (x i)
  rw [vec2norm, vecdot_vec]
  exact MathLibrary.sqrt_fin hnonneg

theorem norm2_one (x : Fin 1 → ℝ) : norm2 x = |x 0| := by
  rw [norm2, dot_one, Real.sqrt_mul_self_eq_abs]

theorem norm2_pos {x : Fin n → ℝ} (hx : x ≠ 0) : 0 < norm2 x := Real.sqrt_pos.mpr (dot_self_pos hx)

variable {param : LbfgsParameter ℝ} {evaluate : LbfgsEvaluate n ℝ}

def Scheme.Small (R : Scheme param evaluate) (x : Fin n → ℝ) : Prop :=
  norm2 (R.used x) ≤ R.epsilon * max 1 (norm2 x)

noncomputable def Scheme.pathDirection (R : Scheme param evaluate) (x : Fin n → ℝ)
    (before : List (Fin n → ℝ)) : Fin n → ℝ :=
  R.direction (corrections R.grad (x :: before)) x

/-- The points that a run has accepted, the newest one first. -/
inductive AcceptedPath (R : Scheme param evaluate) (x₀ : Fin n → ℝ) :
    (Fin n → ℝ) → List (Fin n → ℝ) → Prop
  | start : AcceptedPath R x₀ x₀ []
  | step {x x' : Fin n → ℝ} {before : List (Fin n → ℝ)} :
      AcceptedPath R x₀ x before → ¬ R.Small x → R.Accepted x (R.pathDirection x before) x' →
      AcceptedPath R x₀ x' (x :: before)

variable {R : Scheme param evaluate} {x₀ x : Fin n → ℝ} {before : List (Fin n → ℝ)}

theorem Scheme.used_ne_zero (hx : ¬ R.Small x) : R.used x ≠ 0 := by
  intro hzero
  apply hx
  rw [Scheme.Small, hzero, norm2, map_zero, Real.sqrt_zero]
  exact mul_nonneg R.epsilon_nonneg (zero_le_one.trans (le_max_left _ _))

theorem AcceptedPath.curved (h : AcceptedPath R x₀ x before) :
    ∀ p ∈ corrections R.grad (x :: before), Curved (dot n ℝ) p := by
  induction h with
  | start => simp [corrections]
  | step _ hsmall haccept ih =>
    rw [corrections, List.forall_mem_cons]
    exact ⟨R.curved _ _ _ (R.used_ne_zero hsmall) ih haccept, ih⟩

theorem AcceptedPath.le (h : AcceptedPath R x₀ x before) : R.objective x ≤ R.objective x₀ := by
  induction h with
  | start => exact le_rfl
  | step hpath hsmall haccept ih =>
    exact (R.downhill _ _ _ (R.used_ne_zero hsmall) hpath.curved haccept).trans ih

end Paths

/-! ## The past values -/

/-- A ring of `past` cells in which the value of step `k`, counted from zero, has its place at
`k % past`. The values come newest first. -/
structure HoldsPast {α : Type*} (past : ℕ) (values pf : List α) : Prop where
  length : pf.length = past
  value : ∀ i < past, ∀ v, values[i]? = some v → pf[(values.length - 1 - i) % past]? = some v

section PastValues
variable {α : Type*} {past : ℕ} {values pf : List α}

theorem HoldsPast.push (h : HoldsPast past values pf) (hpast : 0 < past) (v : α) :
    HoldsPast past (v :: values) (pf.set (values.length % past) v) := by
  refine ⟨by rw [List.length_set, h.length], ?_⟩
  intro i hi w hw
  cases i with
  | zero =>
    have hlt : values.length % past < pf.length := by
      rw [h.length]
      exact Nat.mod_lt _ hpast
    rw [List.length_cons, Nat.add_sub_cancel, Nat.sub_zero, List.getElem?_set_self hlt]
    exact hw
  | succ i =>
    rw [List.getElem?_cons_succ] at hw
    obtain ⟨hlt, -⟩ := List.getElem?_eq_some_iff.mp hw
    have hplace : (v :: values).length - 1 - (i + 1) = values.length - 1 - i := by
      rw [List.length_cons]
      omega
    -- less than a whole turn of the ring apart
    have hne : values.length % past ≠ (values.length - 1 - i) % past := by
      intro hsame
      have hturn := (Nat.modEq_iff_dvd' (by omega)).mp (Eq.symm hsame)
      have hle := Nat.le_of_dvd (by omega) hturn
      omega
    rw [hplace, List.getElem?_set_ne hne]
    exact h.value i (by omega) w hw

/-- Once the ring is full, the cell that is written next holds the oldest value. -/
theorem HoldsPast.oldest (h : HoldsPast past values pf) (hpast : 0 < past)
    (hfull : past ≤ values.length) :
    ∃ v, values[past - 1]? = some v ∧ pf[values.length % past]? = some v := by
  have hlt : past - 1 < values.length := by omega
  have hvalue := h.value (past - 1) (by omega) _ (List.getElem?_eq_getElem hlt)
  have hplace : values.length - 1 - (past - 1) = values.length - past := by omega
  rw [hplace, ← Nat.mod_eq_sub_mod hfull] at hvalue
  exact ⟨_, List.getElem?_eq_getElem hlt, hvalue⟩

end PastValues

/-! ## The rounds of a run -/

section Rounds
variable {n : ℕ} {param : LbfgsParameter ℝ} {evaluate : LbfgsEvaluate n ℝ}
  {progress : Option (LbfgsProgress n ℝ)} {R : Scheme param evaluate} {x₀ x : Fin n → ℝ}
  {before : List (Fin n → ℝ)} {st : LbfgsState n ℝ}

/-- The state of a run at the head of its loop, after the path to `x`. -/
structure Tracks (R : Scheme param evaluate) (x₀ x : Fin n → ℝ) (before : List (Fin n → ℝ))
    (st : LbfgsState n ℝ) : Prop where
  path : AcceptedPath R x₀ x before
  unfinished : ¬ R.Small x
  x_eq : st.x = vec x
  fx_eq : st.fx = .fin (R.objective x)
  g_eq : st.g = vec (R.grad x)
  used_eq : usedGradient param st.g st.pg = vec (R.used x)
  d_eq : st.d = vec (R.pathDirection x before)
  step_pos : ∃ t, 0 < t ∧ st.step = .fin t
  stores : Stores param.m.toNat st.lm st.stop ((corrections R.grad (x :: before)).take param.m.toNat)
  k_eq : st.k = before.length + 1
  past_values : HoldsPast param.past.toNat ((x :: before).map fun y => .fin (R.objective y)) st.pf

/-- The ways in which a run ends at the point `x`, having accepted a point after each of those
before it. Each code comes with the test that was met. The value that is handed back is that of
`x`, except after a failed line search. -/
inductive LbfgsEnd (R : Scheme param evaluate) (progress : Option (LbfgsProgress n ℝ))
    (x : Fin n → ℝ) (before : List (Fin n → ℝ)) : LbfgsResult n ℝ → Prop
  | converged : R.Small x → LbfgsEnd R progress x before ⟨0, vec x, .fin (R.objective x)⟩
  | alreadyMinimized : before = [] → R.Small x →
      LbfgsEnd R progress x before ⟨2, vec x, .fin (R.objective x)⟩
  | stopped {y : Fin n → ℝ} : 0 < param.past → before[param.past.toNat - 1]? = some y →
      Double.fabs ((.fin (R.objective y) - .fin (R.objective x)) / .fin (R.objective x)) <
        param.delta →
      LbfgsEnd R progress x before ⟨1, vec x, .fin (R.objective x)⟩
  | maximumiteration : param.maxIterations ≠ 0 → param.maxIterations ≤ before.length →
      LbfgsEnd R progress x before
        ⟨LbfgsError.maximumiteration.code, vec x, .fin (R.objective x)⟩
  | cancelled {report : LbfgsProgress n ℝ} {step : Double ℝ} {ls : ℕ} :
      progress = some report →
      report (vec x) (vec (R.grad x)) (.fin (R.objective x)) (.fin (norm2 x))
        (.fin (norm2 (R.used x))) step before.length ls ≠ 0 →
      LbfgsEnd R progress x before
        ⟨report (vec x) (vec (R.grad x)) (.fin (R.objective x)) (.fin (norm2 x))
          (.fin (norm2 (R.used x))) step before.length ls, vec x, .fin (R.objective x)⟩
  | searchFailed {e : LbfgsError} {t : ℝ} {pg : Vec n ℝ} {last : LineSearchState n ℝ} :
      e ∈ searchErrors → 0 < t →
      lineSearch param evaluate (lineSearchStart R.objective R.grad x t)
        (vec (R.pathDirection x before)) (vec x) pg = ⟨.error e, last⟩ →
      LbfgsEnd R progress x before ⟨e.code, vec x, last.f⟩

theorem Scheme.converged_iff (R : Scheme param evaluate) (x : Fin n → ℝ) :
    converged param (.fin (norm2 x)) (.fin (norm2 (R.used x))) = true ↔ R.Small x := by
  have hmax : (if (.fin (norm2 x) : Double ℝ) < 1 then (1 : Double ℝ) else .fin (norm2 x)) =
      .fin (max 1 (norm2 x)) := by
    rw [Double.one_def]
    by_cases h : norm2 x < 1
    · rw [if_pos (Double.fin_lt_fin.mpr h), max_eq_left h.le]
    · rw [if_neg (Double.fin_lt_fin.not.mpr h), max_eq_right (not_lt.mp h)]
  have hpos : 0 < max 1 (norm2 x) := one_pos.trans_le (le_max_left _ _)
  rw [converged, hmax, R.epsilon_eq, Double.fin_div_fin hpos.ne', decide_eq_true_iff,
    Double.fin_le_fin, div_le_iff₀ hpos, Scheme.Small]

/-- The test of the improvement compares with the value that was accepted `past` steps ago, and
stores the new one in its place. -/
theorem improvementTest_ok (h : Tracks R x₀ x before st) (x' : Fin n → ℝ) :
    ∃ stopped pf, improvementTest param st (.fin (R.objective x')) = .ok (stopped, pf) ∧
      (stopped = true → 0 < param.past ∧ ∃ y, (x :: before)[param.past.toNat - 1]? = some y ∧
        Double.fabs ((.fin (R.objective y) - .fin (R.objective x')) / .fin (R.objective x')) <
          param.delta) ∧
      (stopped = false → HoldsPast param.past.toNat
        ((x' :: x :: before).map fun y => .fin (R.objective y)) pf) := by
  have hk : st.k = ((x :: before).map fun y => Double.fin (R.objective y)).length := by
    rw [h.k_eq, List.length_map, List.length_cons]
  unfold improvementTest
  by_cases hpast : 0 < param.past
  · have hpos : 0 < param.past.toNat := by omega
    have hlt : st.k % param.past.toNat < st.pf.length := by
      rw [h.past_values.length]
      exact Nat.mod_lt _ hpos
    rw [if_pos hpast]
    simp only [deref_of_lt hlt]
    by_cases hstop : param.past ≤ st.k ∧
        Double.fabs ((st.pf[st.k % param.past.toNat] - .fin (R.objective x')) /
          .fin (R.objective x')) < param.delta
    · refine ⟨true, st.pf, if_pos hstop, fun _ => ⟨hpast, ?_⟩, nofun⟩
      obtain ⟨v, hv, hcell⟩ := h.past_values.oldest hpos (by omega)
      rw [List.getElem?_map, Option.map_eq_some_iff] at hv
      obtain ⟨y, hy, rfl⟩ := hv
      have hsame : st.pf[st.k % param.past.toNat] = .fin (R.objective y) := by
        rw [← hk, List.getElem?_eq_getElem hlt] at hcell
        exact Option.some.inj hcell
      exact ⟨y, hy, hsame ▸ hstop.2⟩
    · refine ⟨false, _, if_neg hstop, nofun, fun _ => ?_⟩
      have hpush := h.past_values.push hpos (.fin (R.objective x'))
      rw [← hk] at hpush
      exact hpush
  · rw [if_neg hpast]
    have hzero : param.past.toNat = 0 := by omega
    refine ⟨false, st.pf, rfl, nofun, fun _ => ⟨h.past_values.length, ?_⟩⟩
    intro i hi
    omega

/-- The next state holds the next direction. -/
theorem nextState_tracks (h : Tracks R x₀ x before st) {x' : Fin n → ℝ}
    (hpath : AcceptedPath R x₀ x' (x :: before)) (hunfinished : ¬ R.Small x') (t : Double ℝ)
    {pf : List (Double ℝ)} (hpf : HoldsPast param.past.toNat
      ((x' :: x :: before).map fun y => .fin (R.objective y)) pf) :
    ∃ next, nextState param st ⟨vec x', .fin (R.objective x'), vec (R.grad x'), t⟩
        (updatePseudoGradient param (vec x') (vec (R.grad x')) st.pg) pf = .ok next ∧
      Tracks R x₀ x' (x :: before) next := by
  have hk : st.k = (corrections R.grad (x :: before)).length + 1 := by
    rw [h.k_eq, corrections_length]
  have hused := R.used_eq x' st.pg
  obtain ⟨lm, hnext, hstores⟩ := nextState_vec
    ⟨vec x', .fin (R.objective x'), vec (R.grad x'), t⟩ hused h.x_eq h.g_eq rfl rfl h.stores hk
    hpath.curved pf
  refine ⟨_, hnext, ?_⟩
  exact
    { path := hpath
      unfinished := hunfinished
      x_eq := rfl
      fx_eq := rfl
      g_eq := rfl
      used_eq := hused
      d_eq := R.constrain_eq _ _ _ hused
      step_pos := ⟨1, one_pos, rfl⟩
      stores := hstores
      k_eq := by rw [h.k_eq, List.length_cons]
      past_values := hpf }

theorem finishRound_tracks (progress : Option (LbfgsProgress n ℝ)) (h : Tracks R x₀ x before st) {x' : Fin n → ℝ}
    (hpath : AcceptedPath R x₀ x' (x :: before)) (t : ℝ) (ls : ℕ) :
    match finishRound param progress st (lineSearchStart R.objective R.grad x' t) ls with
    | .ok (.inl next) => Tracks R x₀ x' (x :: before) next
    | .ok (.inr r) => LbfgsEnd R progress x' (x :: before) r
    | .error _ => False := by
  have hk : st.k = (x :: before).length := h.k_eq
  simp only [finishRound, lineSearchStart, R.used_eq, vec2norm_vec]
  by_cases hanswer : reportProgress progress
      ⟨vec x', .fin (R.objective x'), vec (R.grad x'), .fin t⟩
      (.fin (norm2 x')) (.fin (norm2 (R.used x'))) st.k ls ≠ 0
  · rw [if_pos hanswer]
    cases progress with
    | none => exact absurd rfl hanswer
    | some report =>
      rw [hk] at hanswer ⊢
      exact .cancelled rfl hanswer
  rw [if_neg hanswer]
  by_cases hsmall : converged param (.fin (norm2 x')) (.fin (norm2 (R.used x'))) = true
  · rw [if_pos hsmall]
    exact .converged ((R.converged_iff x').mp hsmall)
  rw [if_neg hsmall]
  have hunfinished : ¬ R.Small x' := fun hs => hsmall ((R.converged_iff x').mpr hs)
  obtain ⟨stopped, pf, htest, hstop, hpf⟩ := improvementTest_ok h x'
  simp only [htest, bind, Except.bind]
  split_ifs with hstopped hmax
  · obtain ⟨hpast, y, hy, hrate⟩ := hstop hstopped
    exact .stopped hpast hy hrate
  · refine .maximumiteration hmax.1 ?_
    rw [← hk]
    omega
  · obtain ⟨next, hnext, htracks⟩ := nextState_tracks h hpath hunfinished (.fin t)
      (hpf (by simpa using hstopped))
    rw [hnext]
    exact htracks

/-- One round of the loop: an accepted step extends the path. -/
theorem lbfgsIterate_tracks (progress : Option (LbfgsProgress n ℝ)) (h : Tracks R x₀ x before st) :
    match lbfgsIterate param evaluate progress st with
    | .ok (.inl next) => ∃ x', Tracks R x₀ x' (x :: before) next
    | .ok (.inr r) => ∃ x before, AcceptedPath R x₀ x before ∧ LbfgsEnd R progress x before r
    | .error _ => False := by
  obtain ⟨t₀, ht₀, hstep⟩ := h.step_pos
  have hstart : ({ x := st.x, f := st.fx, g := st.g, stp := st.step } : LineSearchState n ℝ) =
      lineSearchStart R.objective R.grad x t₀ := by
    rw [h.x_eq, h.fx_eq, h.g_eq, hstep]
    rfl
  have hused := h.used_eq
  rw [h.g_eq] at hused
  have hsearch := R.search _ x t₀ st.pg (R.used_ne_zero h.unfinished) h.path.curved ht₀ hused
  rw [lbfgsIterate, hstart, h.d_eq, h.x_eq]
  rw [← Scheme.pathDirection] at hsearch
  generalize hout : lineSearch param evaluate (lineSearchStart R.objective R.grad x t₀)
    (vec (R.pathDirection x before)) (vec x) st.pg = out at hsearch ⊢
  obtain ⟨ls, last⟩ := out
  cases ls with
  | error e => exact ⟨x, before, h.path, .searchFailed hsearch ht₀ hout⟩
  | ok ls =>
    obtain ⟨t, x', rfl, haccept⟩ := hsearch
    have hpath : AcceptedPath R x₀ x' (x :: before) := .step h.path h.unfinished haccept
    have hround := finishRound_tracks progress h hpath t ls
    dsimp only
    cases hfinish : finishRound param progress st (lineSearchStart R.objective R.grad x' t) ls with
    | error e => rw [hfinish] at hround; exact hround
    | ok next =>
      rw [hfinish] at hround
      cases next with
      | inl next => exact ⟨x', hround⟩
      | inr r => exact ⟨x', _, hpath, hround⟩

/-- Without a callback and without limits a round goes on from every point at which the gradient
is not small. -/
theorem lbfgsIterate_next (h : Tracks R x₀ x before st) {x' : Fin n → ℝ} {t : ℝ} {ls : ℕ}
    (hsearch : lineSearch param evaluate { x := st.x, f := st.fx, g := st.g, stp := st.step } st.d
      st.x st.pg = ⟨.ok ls, lineSearchStart R.objective R.grad x' t⟩)
    (haccept : R.Accepted x (R.pathDirection x before) x') (hx' : ¬ R.Small x')
    (hpast : param.past = 0) (hmax : param.maxIterations = 0) :
    ∃ next, lbfgsIterate param evaluate none st = .ok (.inl next) ∧
      Tracks R x₀ x' (x :: before) next := by
  have hpf : HoldsPast param.past.toNat
      ((x' :: x :: before).map fun y => .fin (R.objective y)) st.pf :=
    ⟨h.past_values.length, fun i hi => by omega⟩
  obtain ⟨next, hnext, htracks⟩ :=
    nextState_tracks h (.step h.path h.unfinished haccept) hx' (.fin t) hpf
  have hunfinished : ¬ converged param (.fin (norm2 x')) (.fin (norm2 (R.used x'))) = true :=
    fun hsmall => hx' ((R.converged_iff x').mp hsmall)
  have htest : improvementTest param st (.fin (R.objective x')) = .ok (false, st.pf) :=
    if_neg (by omega)
  have hanswer : ∀ last xnorm gnorm, ¬ reportProgress (none : Option (LbfgsProgress n ℝ)) last xnorm
      gnorm st.k ls ≠ 0 := fun _ _ _ hne => hne rfl
  refine ⟨next, ?_, htracks⟩
  rw [lbfgsIterate, hsearch]
  simp only [finishRound, lineSearchStart, R.used_eq, vec2norm_vec, if_neg (hanswer _ _ _),
    if_neg hunfinished, htest, hmax, hnext, bind, Except.bind, pure, Except.pure,
    Bool.false_eq_true, if_false, ne_eq, not_true, false_and]

theorem Scheme.start_used (R : Scheme param evaluate) (x : Fin n → ℝ) :
    usedGradient param (lbfgsStart param evaluate (vec x)).g
      (lbfgsStart param evaluate (vec x)).pg = vec (R.used x) := by
  have hpg : (lbfgsStart param evaluate (vec x)).pg = updatePseudoGradient param (vec x)
      (lbfgsStart param evaluate (vec x)).g (fun _ => 0) := rfl
  rw [hpg, R.start_g, R.used_eq]

theorem lbfgsStart_tracks (hx₀ : ¬ R.Small x₀) :
    Tracks R x₀ x₀ [] (lbfgsStart param evaluate (vec x₀)) := by
  have hused := R.start_used x₀
  have hd : (lbfgsStart param evaluate (vec x₀)).d = vec (-R.used x₀) := by
    change vecncpy (usedGradient param (lbfgsStart param evaluate (vec x₀)).g
      (lbfgsStart param evaluate (vec x₀)).pg) = _
    rw [hused, vecncpy_vec]
  have hne : -R.used x₀ ≠ 0 := neg_ne_zero.mpr (R.used_ne_zero hx₀)
  have hmemory := R.memory
  constructor
  case path => exact .start
  case unfinished => exact hx₀
  case x_eq => rfl
  case fx_eq => exact R.start_fx x₀
  case g_eq => exact R.start_g x₀
  case used_eq => exact hused
  case d_eq => rw [hd, Scheme.pathDirection, corrections_singleton, R.direction_nil]
  case step_pos =>
    refine ⟨1 / norm2 (-R.used x₀), one_div_pos.mpr (norm2_pos hne), ?_⟩
    change vec2norminv (lbfgsStart param evaluate (vec x₀)).d = _
    rw [hd, vec2norminv, vec2norm_vec, Double.one_def, Double.fin_div_fin (norm2_pos hne).ne']
  case stores =>
    refine ⟨List.length_replicate, by simp, ?_, ?_⟩
    · change 0 < param.m.toNat
      omega
    · intro i hi
      simp at hi
  case k_eq => rfl
  case past_values =>
    have hpf : (lbfgsStart param evaluate (vec x₀)).pf =
        (List.replicate param.past.toNat 0).set 0 (.fin (R.objective x₀)) :=
      congrArg (List.set _ 0) (R.start_fx x₀)
    rw [hpf]
    refine ⟨by rw [List.length_set, List.length_replicate], ?_⟩
    rintro (- | i) hi v hv
    · rw [List.length_map, List.length_singleton, Nat.sub_self, Nat.zero_mod,
        List.getElem?_set_self (by rwa [List.length_replicate])]
      exact hv
    · simp at hv

/-- The loop ends at a point of an accepted path, if it ends within the rounds it is followed
for. -/
theorem lbfgsLoop_ends (progress : Option (LbfgsProgress n ℝ)) (rounds : ℕ) (h : Tracks R x₀ x before st) :
    match lbfgsLoop param evaluate progress rounds st with
    | .ok r => ∃ x before, AcceptedPath R x₀ x before ∧ LbfgsEnd R progress x before r
    | .error e => e = .endless := by
  induction rounds generalizing x before st with
  | zero => rfl
  | succ rounds ih =>
    have hround := lbfgsIterate_tracks progress h
    rw [lbfgsLoop]
    cases hiterate : lbfgsIterate param evaluate progress st with
    | error e =>
      rw [hiterate] at hround
      exact hround.elim
    | ok next =>
      rw [hiterate] at hround
      cases next with
      | inl next =>
        obtain ⟨x', hnext⟩ := hround
        exact ih hnext
      | inr r => exact hround

/-- A run that does not end has accepted a point in each of its rounds. -/
theorem lbfgsLoop_endless (rounds : ℕ) (h : Tracks R x₀ x before st)
    (hend : lbfgsLoop param evaluate progress rounds st = .error .endless) :
    ∃ x' before', AcceptedPath R x₀ x' before' ∧ before'.length = before.length + rounds := by
  induction rounds generalizing x before st with
  | zero => exact ⟨x, before, h.path, rfl⟩
  | succ rounds ih =>
    have hround := lbfgsIterate_tracks progress h
    rw [lbfgsLoop] at hend
    cases hiterate : lbfgsIterate param evaluate progress st with
    | error e =>
      rw [hiterate] at hround
      exact hround.elim
    | ok next =>
      rw [hiterate] at hround hend
      cases next with
      | inl next =>
        obtain ⟨x₁, hnext⟩ := hround
        obtain ⟨x', before', hpath, hlength⟩ := ih hnext hend
        exact ⟨x', before', hpath, by rw [hlength, List.length_cons]; omega⟩
      | inr r => cases hend

theorem lbfgsLoop_mono {rounds rounds' : ℕ} (hle : rounds ≤ rounds') {r : LbfgsResult n ℝ}
    (h : lbfgsLoop param evaluate progress rounds st = .ok r) :
    lbfgsLoop param evaluate progress rounds' st = .ok r := by
  induction rounds generalizing rounds' st with
  | zero => cases h
  | succ rounds ih =>
    obtain ⟨k, rfl⟩ : ∃ k, rounds' = k + 1 := ⟨rounds' - 1, by omega⟩
    rw [lbfgsLoop] at h ⊢
    cases hiterate : lbfgsIterate param evaluate progress st with
    | error e =>
      rw [hiterate] at h
      cases h
    | ok next =>
      rw [hiterate] at h
      cases next with
      | inl next => exact ih (Nat.le_of_succ_le_succ hle) h
      | inr r' => exact h

/-- A result does not depend on the number of rounds that a call is followed for. -/
theorem lbfgs_mono {rounds rounds' : ℕ} (hle : rounds ≤ rounds') {x : Vec n ℝ}
    {r : LbfgsResult n ℝ} (h : lbfgs rounds param evaluate progress x = .ok r) :
    lbfgs rounds' param evaluate progress x = .ok r := by
  unfold lbfgs at h ⊢
  cases hcheck : lbfgsCheck n param with
  | error e =>
    rw [hcheck] at h
    exact h
  | ok checked =>
    simp only [hcheck] at h ⊢
    split_ifs at h ⊢ with hmemory hconverged
    · exact h
    · exact h
    · exact lbfgsLoop_mono hle h

theorem lbfgs_eq {param checked : LbfgsParameter ℝ} (hcheck : lbfgsCheck n param = .ok checked)
    (R : Scheme checked evaluate) (x₀ : Fin n → ℝ) (progress : Option (LbfgsProgress n ℝ))
    (rounds : ℕ) :
    (R.Small x₀ →
      lbfgs rounds param evaluate progress (vec x₀) = .ok ⟨2, vec x₀, .fin (R.objective x₀)⟩) ∧
    (¬ R.Small x₀ →
      lbfgs rounds param evaluate progress (vec x₀) =
        lbfgsLoop checked evaluate progress rounds (lbfgsStart checked evaluate (vec x₀))) := by
  have hmemory : ¬ checked.m < 0 := by
    have := R.memory
    omega
  simp only [lbfgs, hcheck, if_neg hmemory, R.start_used, vec2norm_vec, R.start_fx]
  exact ⟨fun hs => if_pos ((R.converged_iff x₀).mpr hs),
    fun hs => if_neg fun h => hs ((R.converged_iff x₀).mp h)⟩

/-- A call ends in one of the listed ways at a point it has accepted. -/
theorem lbfgs_ends {param checked : LbfgsParameter ℝ} (hcheck : lbfgsCheck n param = .ok checked)
    (R : Scheme checked evaluate) (x₀ : Fin n → ℝ) (progress : Option (LbfgsProgress n ℝ))
    (rounds : ℕ) :
    lbfgs rounds param evaluate progress (vec x₀) = .error .endless ∨
      ∃ r x before, lbfgs rounds param evaluate progress (vec x₀) = .ok r ∧
        AcceptedPath R x₀ x before ∧ LbfgsEnd R progress x before r := by
  obtain ⟨hfinished, hloop⟩ := lbfgs_eq hcheck R x₀ progress rounds
  by_cases hsmall : R.Small x₀
  · exact .inr ⟨_, x₀, [], hfinished hsmall, .start, .alreadyMinimized rfl hsmall⟩
  · have hends := lbfgsLoop_ends progress rounds (lbfgsStart_tracks hsmall)
    rw [hloop hsmall]
    cases hrun : lbfgsLoop checked evaluate progress rounds
      (lbfgsStart checked evaluate (vec x₀)) with
    | error e =>
      rw [hrun] at hends
      exact .inl (congrArg _ hends)
    | ok r =>
      rw [hrun] at hends
      obtain ⟨x, before, hpath, hend⟩ := hends
      exact .inr ⟨r, x, before, rfl, hpath, hend⟩

/-- The states at the head of the loop. -/
inductive RoundsFrom (param : LbfgsParameter ℝ) (evaluate : LbfgsEvaluate n ℝ)
    (progress : Option (LbfgsProgress n ℝ)) (st₀ : LbfgsState n ℝ) : LbfgsState n ℝ → Prop
  | start : RoundsFrom param evaluate progress st₀ st₀
  | round {st next : LbfgsState n ℝ} : RoundsFrom param evaluate progress st₀ st →
      lbfgsIterate param evaluate progress st = .ok (.inl next) →
      RoundsFrom param evaluate progress st₀ next

theorem RoundsFrom.tracks {st₀ : LbfgsState n ℝ} (h₀ : Tracks R x₀ x₀ [] st₀)
    (h : RoundsFrom param evaluate progress st₀ st) : ∃ x before, Tracks R x₀ x before st := by
  induction h with
  | start => exact ⟨x₀, [], h₀⟩
  | round _ hiterate ih =>
    obtain ⟨x, before, htracks⟩ := ih
    have hround := lbfgsIterate_tracks progress htracks
    rw [hiterate] at hround
    obtain ⟨x', hnext⟩ := hround
    exact ⟨_, _, hnext⟩

end Rounds
end Plfit
