import Mathlib
import Plfit.Sampling.ZetaGuard

/-! # Arrays of samples and single samples

The samplers for arrays repeat the loops of the samplers for one number, with the constants taken
out of them. Both check the parameters by the same comparisons, which a NaN passes.
-/
namespace Plfit
open ExactArithmetic

section Calls
variable {K : Type}

/-- The results of `n` calls of a sampler, and the generator after them. -/
def successiveCalls (draw : Rng → Exec (Double K × Rng)) : ℕ → Rng → Exec (List (Double K) × Rng)
  | 0, rng => .ok ([], rng)
  | n + 1, rng => do
    let (x, rng) ← draw rng
    let (xs, rng) ← successiveCalls draw n rng
    return (x :: xs, rng)

/-- What an array sampler returns when it has written the results of the calls. -/
def written (run : Exec (List (Double K) × Rng)) : Exec (Status × List (Double K) × Rng) :=
  run.map fun out => (.success, out)

theorem written_succ (draw : Rng → Exec (Double K × Rng)) (n : ℕ) (rng : Rng) :
    written (successiveCalls draw (n + 1) rng) = draw rng >>= fun out =>
      written (successiveCalls draw n out.2) >>= fun rest =>
        .ok (rest.1, out.1 :: rest.2.1, rest.2.2) := by
  rw [successiveCalls, written]
  cases draw rng with
  | error stop => rfl
  | ok out =>
    obtain ⟨x, rng₁⟩ := out
    simp only [bind, Except.bind]
    cases successiveCalls draw n rng₁ <;> rfl

end Calls

/-! ## Zeta samples -/

section Zeta
variable {E : Environment ℝ} {xmin : ℤ} {alpha : Double ℝ}

/-- The extra exit of the array sampler is never taken. -/
theorem rzetaLoop_eq (hvalid : ¬ (alpha ≤ 0 ∨ xmin < 1)) (n : ℕ) (rng : Rng) :
    rzetaLoop E xmin alpha (rzetaB xmin alpha) n rng =
      written (successiveCalls (rzeta E xmin alpha) n rng) := by
  induction n generalizing rng with
  | zero => rfl
  | succ n ih =>
    rw [written_succ, rzetaLoop, rzeta, if_neg hvalid]
    cases hreject : rzetaReject xmin alpha (rzetaB xmin alpha) (1 / (rzetaB xmin alpha - 1))
        E.rejections rng with
    | error stop => simp only [hreject, bind, Except.bind]
    | ok out =>
      obtain ⟨x, rng₁⟩ := out
      have hx := rzetaReject_ok hreject
      have hxmin : ¬ x < 0 := by
        have := not_lt.mp (not_or.mp hvalid).2
        omega
      simp only [hreject, bind, Except.bind, pure, Except.pure, hxmin, if_false, ih]

theorem rzetaArray_eq (hvalid : ¬ (alpha ≤ 0 ∨ xmin < 1)) (n : ℕ) (rng : Rng) :
    rzetaArray E xmin alpha n rng = written (successiveCalls (rzeta E xmin alpha) n rng) := by
  rw [rzetaArray, if_neg hvalid]
  split
  · subst n
    rfl
  · exact rzetaLoop_eq hvalid n rng

end Zeta

/-! ## Pareto samples -/

section Pareto
variable {K : Type} [Field K] [LinearOrder K] [MathLibrary K] {xmin alpha : Double K}

theorem rparetoLoop_eq (hvalid : ¬ (alpha ≤ 0 ∨ xmin ≤ 0)) (n : ℕ) (rng : Rng) :
    written (successiveCalls (fun rng => .ok (rpareto xmin alpha rng)) n rng) =
      .ok (.success, rparetoLoop xmin (-1 / alpha) n rng) := by
  induction n generalizing rng with
  | zero => rfl
  | succ n ih =>
    rw [written_succ, rpareto, if_neg hvalid]
    simp only [bind, Except.bind, ih]
    rfl

theorem rparetoArray_eq (hvalid : ¬ (alpha ≤ 0 ∨ xmin ≤ 0)) (n : ℕ) (rng : Rng) :
    written (successiveCalls (fun rng => .ok (rpareto xmin alpha rng)) n rng) =
      .ok (rparetoArray xmin alpha n rng) := by
  rw [rparetoLoop_eq hvalid, rparetoArray, if_neg hvalid]
  split
  · subst n
    rfl
  · rfl

theorem rparetoArray_einval_iff {n : ℕ} {rng : Rng} :
    (rparetoArray xmin alpha n rng).1 = .einval ↔ alpha ≤ 0 ∨ xmin ≤ 0 := by
  rw [rparetoArray]
  split
  · exact iff_of_true rfl (by assumption)
  · split
    · exact iff_of_false nofun (by assumption)
    · exact iff_of_false nofun (by assumption)

end Pareto

/-! ## What a Pareto sample is -/

section Samples
variable {xmin alpha : Double ℝ} {rng : Rng}

/-- An exponent that is a positive number, or infinite, takes a draw to a positive number or to
infinity. -/
theorem pow_draw (halpha : ¬ alpha ≤ 0) (hnan : alpha ≠ .nan) {u : ℝ} (hu : u ≤ 1) :
    MathLibrary.pow (1 - .fin u) (-1 / alpha) = .pinf ∨
      ∃ q > 0, MathLibrary.pow (1 - .fin u) (-1 / alpha) = .fin q := by
  have hbase : (1 - .fin u : Double ℝ) = .fin (1 - u) := by
    rw [Double.one_def, Double.fin_sub_fin]
  rw [hbase]
  cases alpha with
  | nan => exact absurd rfl hnan
  | ninf => exact absurd Double.ninf_le_fin halpha
  | pinf =>
    have hexp : (-1 / .pinf : Double ℝ) = .fin 0 := rfl
    rw [hexp, MathLibrary.pow_zero_right]
    exact Or.inr ⟨1, one_pos, rfl⟩
  | fin a =>
    have ha : 0 < a := by simpa using halpha
    rw [Double.one_def, Double.neg_fin, Double.fin_div_fin ha.ne']
    rcases hu.lt_or_eq with hlt | rfl
    · have hpos : 0 < 1 - u := sub_pos.mpr hlt
      rw [MathLibrary.pow_fin hpos]
      exact Or.inr ⟨_, Real.rpow_pos_of_pos hpos _, rfl⟩
    · rw [sub_self, MathLibrary.pow_zero_left (div_neg_of_neg_of_pos (by norm_num) ha)]
      exact Or.inl rfl

theorem mul_ne_nan {p : Double ℝ} (hp : p = .pinf ∨ ∃ q > 0, p = .fin q) (hxmin : ¬ xmin ≤ 0)
    (hnan : xmin ≠ .nan) : p * xmin ≠ .nan := by
  cases xmin with
  | nan => exact absurd rfl hnan
  | ninf => exact absurd Double.ninf_le_fin hxmin
  | pinf =>
    rcases hp with rfl | ⟨q, hq, rfl⟩
    · nofun
    · rw [Double.fin_mul_pinf hq]
      nofun
  | fin x =>
    have hx : 0 < x := by simpa using hxmin
    rcases hp with rfl | ⟨q, hq, rfl⟩
    · rw [Double.pinf_mul_fin hx]
      nofun
    · nofun

/-- No draw of valid parameters gives a NaN. -/
theorem rpareto_eq_nan_iff (halpha : alpha ≠ .nan) (hxmin : xmin ≠ .nan) (h : rng.Bounded) :
    (rpareto xmin alpha rng).1 = .nan ↔ alpha ≤ 0 ∨ xmin ≤ 0 := by
  rw [rpareto]
  split
  · exact iff_of_true rfl (by assumption)
  · rename_i hvalid
    obtain ⟨hpos, hpos'⟩ := not_or.mp hvalid
    have hmax : (rng.maximum : ℝ) ≠ 0 := by exact_mod_cast h.1.ne'
    have hdraw : (runif01 rng : Double ℝ × Rng).1 =
        .fin ((rng.output 0 : ℝ) / (rng.maximum : ℝ)) := by
      rw [runif01_fst, Double.natCast_def, Double.natCast_def, Double.fin_div_fin hmax]
    refine iff_of_false ?_ hvalid
    dsimp only
    rw [hdraw]
    exact mul_ne_nan (pow_draw hpos halpha (uniform_bounds h).2) hpos' hxmin

def halvesRng : Rng := .builtin 2 (fun _ => 1)

theorem bounded_halvesRng : halvesRng.Bounded := ⟨two_pos, fun _ => one_le_two⟩

/-- A NaN that is accepted comes back as the sample. -/
theorem rpareto_halvesRng (hvalid : ¬ (alpha ≤ 0 ∨ xmin ≤ 0)) (hnan : alpha = .nan ∨ xmin = .nan) :
    (rpareto xmin alpha halvesRng).1 = .nan := by
  have hdraw : (runif01 halvesRng : Double ℝ × Rng).1 = .fin (1 / 2) := by
    rw [runif01_fst]
    change ((1 : ℕ) : Double ℝ) / ((2 : ℕ) : Double ℝ) = _
    rw [Double.natCast_def, Double.natCast_def, Nat.cast_one, Nat.cast_ofNat,
      Double.fin_div_fin two_ne_zero]
  rw [rpareto, if_neg hvalid]
  dsimp only
  rw [hdraw, Double.one_def, Double.fin_sub_fin]
  rcases hnan with rfl | rfl
  · have hexp : (-(.fin 1) / .nan : Double ℝ) = .nan := rfl
    rw [hexp, MathLibrary.pow_nan_right (by norm_num), Double.nan_mul]
  · exact Double.mul_nan _

end Samples

/-! ## The agreement -/

section Agreement

/-- The array sampler does what successive calls do, and refuses what a call answers with a NaN. -/
structure ZetaAgrees (E : Environment ℝ) (xmin : ℤ) (alpha : Double ℝ) : Prop where
  samples : 1 ≤ xmin → 0 < alpha → ∀ n rng,
    rzetaArray E xmin alpha n rng = written (successiveCalls (rzeta E xmin alpha) n rng)
  refused : ∀ n rng, (∃ out, rzetaArray E xmin alpha n rng = .ok (.einval, out)) ↔
    ∃ rng', rzeta E xmin alpha rng = .ok (.nan, rng')

structure ParetoAgrees (xmin alpha : Double ℝ) : Prop where
  samples : 0 < xmin → 0 < alpha → ∀ n rng,
    .ok (rparetoArray xmin alpha n rng) =
      written (successiveCalls (fun rng => .ok (rpareto xmin alpha rng)) n rng)
  refused : ∀ n rng, rng.Bounded →
    ((rparetoArray xmin alpha n rng).1 = .einval ↔ (rpareto xmin alpha rng).1 = .nan)

variable {E : Environment ℝ}

theorem zetaAgrees (E : Environment ℝ) (z : ℤ) (a : Double ℝ) : ZetaAgrees E z a where
  samples := by
    intro hz ha n rng
    have hvalid : ¬ (a ≤ 0 ∨ z < 1) := not_or.mpr ⟨Double.not_le_of_lt ha, hz.not_gt⟩
    exact rzetaArray_eq hvalid n rng
  refused := fun n rng => rzetaArray_einval_iff.trans (rzeta_eq_nan_iff E rng).symm

theorem paretoAgrees_iff (xmin alpha : Double ℝ) :
    ParetoAgrees xmin alpha ↔ (xmin ≠ .nan ∧ alpha ≠ .nan) ∨ xmin ≤ 0 ∨ alpha ≤ 0 := by
  constructor
  · intro h
    by_contra hnot
    obtain ⟨hnan, hguard⟩ := not_or.mp hnot
    have hvalid : ¬ (alpha ≤ 0 ∨ xmin ≤ 0) := fun h => hguard h.symm
    have hnan' : alpha = .nan ∨ xmin = .nan := by
      by_contra hnone
      obtain ⟨halpha, hxmin⟩ := not_or.mp hnone
      exact hnan ⟨hxmin, halpha⟩
    have hcall := rpareto_halvesRng hvalid hnan'
    exact hvalid (rparetoArray_einval_iff.mp ((h.refused 1 _ bounded_halvesRng).mpr hcall))
  · intro h
    constructor
    · intro hxmin halpha n rng
      have hvalid : ¬ (alpha ≤ 0 ∨ xmin ≤ 0) :=
        not_or.mpr ⟨Double.not_le_of_lt halpha, Double.not_le_of_lt hxmin⟩
      exact (rparetoArray_eq hvalid n rng).symm
    · intro n rng hrng
      rw [rparetoArray_einval_iff]
      rcases h with ⟨hxmin, halpha⟩ | hguard
      · exact (rpareto_eq_nan_iff halpha hxmin hrng).symm
      · have hinvalid : alpha ≤ 0 ∨ xmin ≤ 0 := hguard.symm
        rw [rpareto, if_pos hinvalid]
        exact iff_of_true hinvalid rfl

/-- The samplers for arrays agree with successive calls, except that a NaN among the parameters of
the Pareto sampler comes back from a call and is accepted for an array. -/
theorem array_samplers_agree_iff (E : Environment ℝ) (z : ℤ) (a xmin alpha : Double ℝ) :
    ZetaAgrees E z a ∧ ParetoAgrees xmin alpha ↔
      (xmin ≠ .nan ∧ alpha ≠ .nan) ∨ xmin ≤ 0 ∨ alpha ≤ 0 := by
  rw [and_iff_right (zetaAgrees E z a), paretoAgrees_iff]

/-- A call with the exponent NaN answers NaN, but the array of one sample is a success. -/
theorem array_sampler_accepts_nan :
    ¬ (ZetaAgrees idleEnvironment 1 (.fin 2) ∧ ParetoAgrees (.fin 1) .nan) := by
  rintro ⟨-, h⟩
  rcases (paretoAgrees_iff _ _).mp h with ⟨-, hnan⟩ | hguard | hguard
  · exact hnan rfl
  · rw [Double.zero_def, Double.fin_le_fin] at hguard
    exact absurd hguard one_pos.not_ge
  · exact Double.not_nan_le 0 hguard

end Agreement
end Plfit
