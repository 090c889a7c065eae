import Mathlib

/-! # Limited-memory quasi-Newton directions

The BFGS update of an inverse Hessian approximation in a space with a positive symmetric
bilinear form, and the two-loop recursion that applies a chain of updates to a vector
without building the operator.
-/
namespace QuasiNewton

/-- A correction pair: a displacement and the change of the gradient along it. -/
structure Correction (V : Type*) where
  s : V
  y : V

section Update
variable {K V : Type*} [Field K] [AddCommGroup V] [Module K V]
variable (B : LinearMap.BilinForm K V)

/-- The vectors lose their component along `u`, as measured by `v`. -/
def project (u v : V) : V →ₗ[K] V := LinearMap.id - (B v u)⁻¹ • (B v).smulRight u

theorem project_apply (u v w : V) : project B u v w = w - (B v w / B v u) • u := by
  simp [project, smul_smul, div_eq_inv_mul]

/-- The BFGS update of an inverse Hessian approximation by one correction. -/
def update (p : Correction V) (H : V →ₗ[K] V) : V →ₗ[K] V :=
  project B p.s p.y ∘ₗ H ∘ₗ project B p.y p.s + (B p.y p.s)⁻¹ • (B p.s).smulRight p.s

/-- The approximation after a list of corrections, the newest one first. -/
def inverseHessian (H₀ : V →ₗ[K] V) : List (Correction V) → V →ₗ[K] V
  | [] => H₀
  | p :: older => update B p (inverseHessian H₀ older)

/-- The two-loop recursion: on the way down to the oldest correction a multiple of each `y`
is subtracted, on the way back a multiple of each `s` is added. -/
def twoLoop (H₀ : V → V) : List (Correction V) → V → V
  | [], q => H₀ q
  | p :: older, q =>
    let alpha := B p.s q / B p.y p.s
    let r := twoLoop H₀ older (q - alpha • p.y)
    r + (alpha - B p.y r / B p.y p.s) • p.s

variable {B}

theorem update_apply (hsymm : ∀ v w, B v w = B w v) (p : Correction V) (H : V →ₗ[K] V) (q : V) :
    update B p H q =
      H (q - (B p.s q / B p.y p.s) • p.y) +
        (B p.s q / B p.y p.s -
          B p.y (H (q - (B p.s q / B p.y p.s) • p.y)) / B p.y p.s) • p.s := by
  rw [update, LinearMap.add_apply, LinearMap.comp_apply, LinearMap.comp_apply, project_apply,
    project_apply, hsymm p.s p.y]
  simp only [LinearMap.smul_apply, LinearMap.smulRight_apply, smul_smul]
  rw [sub_smul, ← div_eq_inv_mul]
  abel

/-- The recursion applies the approximation. -/
theorem twoLoop_eq (hsymm : ∀ v w, B v w = B w v) (H₀ : V →ₗ[K] V)
    (ps : List (Correction V)) (q : V) : twoLoop B H₀ ps q = inverseHessian B H₀ ps q := by
  induction ps generalizing q with
  | nil => rfl
  | cons p older ih => rw [twoLoop, inverseHessian, update_apply hsymm, ih]

/-- The newest displacement is recovered from the newest change of the gradient. -/
theorem inverseHessian_secant (hsymm : ∀ v w, B v w = B w v) (H₀ : V →ₗ[K] V)
    {p : Correction V} (hp : B p.y p.s ≠ 0) (older : List (Correction V)) :
    inverseHessian B H₀ (p :: older) p.y = p.s := by
  rw [inverseHessian, update_apply hsymm, hsymm p.s p.y, div_self hp, one_smul, sub_self,
    map_zero, map_zero, zero_div, sub_zero, zero_add, one_smul]

end Update

section Positive
variable {K V : Type*} [Field K] [LinearOrder K] [IsStrictOrderedRing K] [AddCommGroup V]
  [Module K V] {B : LinearMap.BilinForm K V}

structure IsPositive (B : LinearMap.BilinForm K V) (H : V →ₗ[K] V) : Prop where
  symm : ∀ v w, B v (H w) = B (H v) w
  pos : ∀ v, v ≠ 0 → 0 < B v (H v)

/-- A correction along which the gradient grows. -/
def Curved (B : LinearMap.BilinForm K V) (p : Correction V) : Prop := 0 < B p.y p.s

omit [IsStrictOrderedRing K] in
theorem Curved.ne_zero {p : Correction V} (hp : Curved B p) : p.y ≠ 0 := by
  intro h
  rw [Curved, h, map_zero, LinearMap.zero_apply] at hp
  exact hp.false

omit [LinearOrder K] [IsStrictOrderedRing K] in
theorem project_adjoint (hsymm : ∀ v w, B v w = B w v) (u w v x : V) :
    B v (project B u w x) = B (project B w u v) x := by
  simp only [project_apply, map_sub, map_smul, LinearMap.sub_apply, LinearMap.smul_apply,
    smul_eq_mul]
  rw [hsymm w u, hsymm v u, hsymm w x]
  ring

theorem update_isPositive (hsymm : ∀ v w, B v w = B w v) {p : Correction V} (hp : Curved B p)
    {H : V →ₗ[K] V} (hH : IsPositive B H) : IsPositive B (update B p H) where
  symm v w := by
    simp only [update, LinearMap.add_apply, LinearMap.comp_apply, map_add, LinearMap.smul_apply,
      LinearMap.smulRight_apply, map_smul, smul_eq_mul]
    rw [project_adjoint hsymm, hH.symm, ← project_adjoint hsymm, hsymm v p.s]
    ring
  pos v hv := by
    have hform : B v (update B p H v) =
        B (project B p.y p.s v) (H (project B p.y p.s v)) + (B p.s v) ^ 2 / B p.y p.s := by
      simp only [update, LinearMap.add_apply, LinearMap.comp_apply, map_add,
        LinearMap.smul_apply, LinearMap.smulRight_apply, map_smul, smul_eq_mul]
      rw [project_adjoint hsymm, hsymm v p.s]
      ring
    rw [hform]
    have hsquare : 0 ≤ (B p.s v) ^ 2 / B p.y p.s := div_nonneg (sq_nonneg _) hp.le
    by_cases hzero : project B p.y p.s v = 0
    · -- then `v` is a multiple of `y`, which is not orthogonal to `s`
      have hmul : v = (B p.s v / B p.s p.y) • p.y := by
        rw [project_apply, sub_eq_zero] at hzero
        exact hzero
      have hne : B p.s v ≠ 0 := by
        intro h
        rw [h, zero_div, zero_smul] at hmul
        exact hv hmul
      rw [hzero, map_zero, LinearMap.zero_apply, zero_add]
      exact div_pos (sq_pos_of_ne_zero hne) hp
    · exact add_pos_of_pos_of_nonneg (hH.pos _ hzero) hsquare

theorem inverseHessian_isPositive (hsymm : ∀ v w, B v w = B w v) {H₀ : V →ₗ[K] V}
    (h₀ : IsPositive B H₀) {ps : List (Correction V)} (hps : ∀ p ∈ ps, Curved B p) :
    IsPositive B (inverseHessian B H₀ ps) := by
  induction ps with
  | nil => exact h₀
  | cons p older ih =>
    rw [List.forall_mem_cons] at hps
    exact update_isPositive hsymm hps.1 (ih hps.2)

theorem smul_id_isPositive (hpos : ∀ v, v ≠ 0 → 0 < B v v) {c : K} (hc : 0 < c) :
    IsPositive B (c • LinearMap.id) where
  symm v w := by simp
  pos v hv := by
    rw [LinearMap.smul_apply, LinearMap.id_apply, map_smul, smul_eq_mul]
    exact mul_pos hc (hpos v hv)

theorem IsPositive.neg_descends {H : V →ₗ[K] V} (hH : IsPositive B H) {g : V} (hg : g ≠ 0) :
    B g (H (-g)) < 0 := by
  rw [map_neg, map_neg]
  exact neg_neg_of_pos (hH.pos g hg)

end Positive
end QuasiNewton
