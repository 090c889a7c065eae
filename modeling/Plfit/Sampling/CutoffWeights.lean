import Mathlib
import Plfit.Model.Generator

/-! # The weights of a power law with a cutoff

The counter of the weights is unsigned, so its negative wraps around for every outcome but
the first one. All the others get the same additional factor. The generator draws its samples
from the table of these weights.
-/
namespace Plfit
open ExactArithmetic

/-- The documented cutoff. For an infinite `kappa` there is none. -/
noncomputable def documentedCutoff (kappa : Double ℝ) (k : ℝ) : ℝ :=
  match kappa with
  | .fin x => Real.exp (-k / x)
  | _ => 1

/-- The documented density, without its normalization. -/
noncomputable def documentedDensity (gamma : ℝ) (kappa : Double ℝ) (k : ℝ) : ℝ :=
  k ^ (-gamma) * documentedCutoff kappa k

noncomputable def cutoffOptions (gamma : ℝ) (kappa : Double ℝ) (xmin : ℕ) : CmdOptions ℝ where
  numSamples := 1
  gamma := .fin gamma
  kappa := kappa
  offset := 0
  xmin := .fin xmin

/-- The weights are proportional to the documented density. For `gamma >= 0` they are at most one
and do not increase. -/
structure FollowsDensity (gamma : ℝ) (kappa : Double ℝ) (xmin : ℕ) : Prop where
  proportional : ∃ c : ℝ, ∀ i < numProbs, (cutoffWeights (cutoffOptions gamma kappa xmin))[i]? =
    some (.fin (c * documentedDensity gamma kappa (xmin + i)))
  decreasing : 0 ≤ gamma → ∀ i j, i ≤ j → j < numProbs → ∃ a b : ℝ,
    (cutoffWeights (cutoffOptions gamma kappa xmin))[i]? = some (.fin a) ∧
    (cutoffWeights (cutoffOptions gamma kappa xmin))[j]? = some (.fin b) ∧ b ≤ a ∧ a ≤ 1

/-- What the wrapped counter multiplies the weight of an outcome by. -/
noncomputable def wrapFactor (kappa : ℝ) (i : ℕ) : ℝ :=
  if i = 0 then 1 else Real.exp (2 ^ 64 / kappa)

section Weights
variable {gamma kappa : ℝ} {xmin : ℕ}

theorem documentedDensity_pos (gamma : ℝ) (kappa : Double ℝ) {k : ℝ} (hk : 0 < k) :
    0 < documentedDensity gamma kappa k := by
  refine mul_pos (Real.rpow_pos_of_pos hk _) ?_
  cases kappa with
  | fin x => exact Real.exp_pos _
  | _ => exact one_pos

theorem getElem?_cutoffWeights (opts : CmdOptions ℝ) {i : ℕ} (hi : i < numProbs) :
    (cutoffWeights opts)[i]? = some (cutoffWeight opts i) := by
  rw [cutoffWeights, List.getElem?_map, List.getElem?_range hi, Option.map_some]

theorem exp_counter (kappa : ℝ) {i : ℕ} (hi : i < 2 ^ 64) :
    Real.exp ((sizeSub 0 i : ℕ) / kappa) = wrapFactor kappa i * Real.exp (-i / kappa) := by
  unfold wrapFactor
  cases i with
  | zero => simp
  | succ i =>
    have hwrap : ((sizeSub 0 (i + 1) : ℕ) : ℝ) = 2 ^ 64 + -((i + 1 : ℕ) : ℝ) := by
      rw [sizeSub, if_neg (by omega), Nat.cast_sub (by omega)]
      push_cast
      ring
    rw [if_neg (Nat.succ_ne_zero i), hwrap, add_div, Real.exp_add]

theorem rpow_ratio (gamma : ℝ) (hx : 1 ≤ xmin) (i : ℕ) :
    ((xmin : ℝ) + i) ^ (-gamma) / (xmin : ℝ) ^ (-gamma) = ((i + xmin : ℝ) / xmin) ^ (-gamma) := by
  have hbase : (0 : ℝ) ≤ i + xmin := by positivity
  rw [Real.div_rpow hbase (Nat.cast_nonneg xmin), add_comm (i : ℝ)]

theorem documentedDensity_ratio (gamma kappa : ℝ) (hx : 1 ≤ xmin) (i : ℕ) :
    documentedDensity gamma (.fin kappa) (xmin + i) / documentedDensity gamma (.fin kappa) xmin =
      Real.exp (-i / kappa) * ((i + xmin : ℝ) / xmin) ^ (-gamma) := by
  have hexp : Real.exp (-(xmin + i) / kappa) = Real.exp (-i / kappa) * Real.exp (-xmin / kappa) := by
    rw [← Real.exp_add]
    ring_nf
  simp only [documentedDensity, documentedCutoff]
  rw [hexp, ← rpow_ratio gamma hx i]
  field_simp

/-- Each weight is the documented one relative to the first outcome, times the factor that
comes from the wrapped counter. -/
theorem cutoffWeight_eq (hk : 0 < kappa) (hx : 1 ≤ xmin) {i : ℕ} (hi : i < 2 ^ 64) :
    cutoffWeight (cutoffOptions gamma (.fin kappa) xmin) i =
      .fin (wrapFactor kappa i * (documentedDensity gamma (.fin kappa) (xmin + i) /
        documentedDensity gamma (.fin kappa) xmin)) := by
  have hx0 : (0 : ℝ) < xmin := by exact_mod_cast hx
  have hbase : (0 : ℝ) < (i + xmin) / xmin := by positivity
  simp only [cutoffWeight, cutoffOptions, Double.natCast_def, Double.fin_div_fin hk.ne',
    MathLibrary.exp_fin, Double.fin_add_fin, Double.fin_div_fin hx0.ne', Double.neg_fin,
    MathLibrary.pow_fin hbase, Double.fin_mul_fin, exp_counter kappa hi]
  rw [documentedDensity_ratio gamma kappa hx i, mul_assoc]

/-- With an infinite `kappa` the wrapped counter is divided away. -/
theorem cutoffWeight_pinf (hx : 1 ≤ xmin) (i : ℕ) :
    cutoffWeight (cutoffOptions gamma .pinf xmin) i =
      .fin (((i + xmin : ℝ) / xmin) ^ (-gamma)) := by
  have hx0 : (0 : ℝ) < xmin := by exact_mod_cast hx
  have hbase : (0 : ℝ) < (i + xmin) / xmin := by positivity
  have hquotient (r : ℝ) : (.fin r : Double ℝ) / .pinf = .fin 0 := rfl
  simp only [cutoffWeight, cutoffOptions, hquotient, MathLibrary.exp_fin, Real.exp_zero,
    Double.natCast_def, Double.fin_add_fin, Double.fin_div_fin hx0.ne', Double.neg_fin,
    MathLibrary.pow_fin hbase, Double.fin_mul_fin, one_mul]

/-- For a number `kappa` the weights are not proportional to the documented density: the first
outcome lacks the factor that all the others have. -/
theorem not_followsDensity_fin (hk : 0 < kappa) (hx : 1 ≤ xmin) :
    ¬ FollowsDensity gamma (.fin kappa) xmin := by
  intro hfollows
  obtain ⟨c, hproportional⟩ := hfollows.proportional
  have hx0 : (0 : ℝ) < xmin := by exact_mod_cast hx
  have hfirst := documentedDensity_pos gamma (.fin kappa) hx0
  have hweight : ∀ i < numProbs,
      wrapFactor kappa i / documentedDensity gamma (.fin kappa) xmin = c := by
    intro i hi
    have hpos : 0 < documentedDensity gamma (.fin kappa) (xmin + i) :=
      documentedDensity_pos gamma _ (by positivity)
    have hi' : i < 2 ^ 64 := hi.trans (by decide)
    have h := hproportional i hi
    rw [getElem?_cutoffWeights _ hi, cutoffWeight_eq hk hx hi', Option.some_inj,
      Double.fin.injEq] at h
    apply mul_right_cancel₀ hpos.ne'
    rw [← h]
    ring
  have hsame := (hweight 0 (by decide)).trans (hweight 1 (by decide)).symm
  rw [div_left_inj' hfirst.ne'] at hsame
  have hlarge : (1 : ℝ) < wrapFactor kappa 1 := Real.one_lt_exp_iff.mpr (by positivity)
  exact hlarge.ne hsame

theorem followsDensity_pinf (gamma : ℝ) (hx : 1 ≤ xmin) : FollowsDensity gamma .pinf xmin := by
  have hx0 : (0 : ℝ) < xmin := by exact_mod_cast hx
  refine ⟨⟨1 / (xmin : ℝ) ^ (-gamma), ?_⟩, ?_⟩
  · intro i hi
    have hdensity : documentedDensity gamma .pinf (xmin + i) = ((xmin : ℝ) + i) ^ (-gamma) :=
      mul_one _
    rw [getElem?_cutoffWeights _ hi, cutoffWeight_pinf hx, ← rpow_ratio gamma hx i, hdensity,
      one_div_mul_eq_div]
  · intro hgamma i j hij hj
    have hneg : -gamma ≤ 0 := neg_nonpos.mpr hgamma
    have hbase : (1 : ℝ) ≤ (i + xmin) / xmin := by
      rw [le_div_iff₀ hx0, one_mul]
      exact le_add_of_nonneg_left (Nat.cast_nonneg i)
    have hle : ((i : ℝ) + xmin) / xmin ≤ (j + xmin) / xmin := by gcongr
    refine ⟨_, _, ?_, ?_, Real.rpow_le_rpow_of_nonpos (one_pos.trans_le hbase) hle hneg,
      Real.rpow_le_one_of_one_le_of_nonpos hbase hneg⟩
    · rw [getElem?_cutoffWeights _ (hij.trans_lt hj), cutoffWeight_pinf hx]
    · rw [getElem?_cutoffWeights _ hj, cutoffWeight_pinf hx]

/-- The weights follow the documented density only where it has no cutoff. -/
theorem cutoffWeights_follow_iff {kappa : Double ℝ} (hk : 0 < kappa) (hx : 1 ≤ xmin) :
    FollowsDensity gamma kappa xmin ↔ kappa = .pinf := by
  cases kappa with
  | nan => exact absurd hk (Double.not_lt_nan _)
  | ninf => exact absurd hk (Double.not_lt_ninf _)
  | pinf => exact iff_of_true (followsDensity_pinf gamma hx) rfl
  | fin kappa =>
    exact iff_of_false (not_followsDensity_fin (Double.fin_lt_fin.mp hk) hx) (by simp)

theorem cutoffWeights_follow_one : FollowsDensity 2 .pinf 1 :=
  (cutoffWeights_follow_iff Double.fin_lt_pinf le_rfl).mpr rfl

/-- The second weight is larger than one and than the first one, where the documented density
decreases. -/
theorem cutoffWeights_increase :
    ∃ w0 w1 : ℝ, (cutoffWeights (cutoffOptions 2 (.fin 10) 1))[0]? = some (.fin w0) ∧
      (cutoffWeights (cutoffOptions 2 (.fin 10) 1))[1]? = some (.fin w1) ∧ 1 < w1 ∧ w0 < w1 ∧
      documentedDensity 2 (.fin 10) 2 < documentedDensity 2 (.fin 10) 1 ∧
      ∀ c, ¬ (w0 = c * documentedDensity 2 (.fin 10) 1 ∧ w1 = c * documentedDensity 2 (.fin 10) 2) := by
  have hone := documentedDensity_pos 2 (.fin 10) (one_pos : (0 : ℝ) < 1)
  have hratio : documentedDensity 2 (.fin 10) 2 / documentedDensity 2 (.fin 10) 1 =
      Real.exp (-1 / 10) * (2 : ℝ) ^ (-2 : ℝ) := by
    have h := documentedDensity_ratio 2 10 (le_refl 1) 1
    norm_num at h ⊢
    exact h
  have hquarter : (2 : ℝ) ^ (-2 : ℝ) = 1 / 4 := by
    rw [Real.rpow_neg zero_le_two, Real.rpow_two]
    norm_num
  have hdecrease : documentedDensity 2 (.fin 10) 2 / documentedDensity 2 (.fin 10) 1 < 1 := by
    have hexp : Real.exp (-1 / 10) ≤ 1 := Real.exp_le_one_iff.mpr (by norm_num)
    rw [hratio, hquarter]
    linarith
  have hfactor : (4 : ℝ) < Real.exp (2 ^ 64 / 10) * Real.exp (-1 / 10) := by
    rw [← Real.exp_add]
    have := Real.add_one_le_exp (2 ^ 64 / 10 + -1 / 10)
    linarith
  have hlarge : 1 < wrapFactor 10 1 *
      (documentedDensity 2 (.fin 10) 2 / documentedDensity 2 (.fin 10) 1) := by
    have hwrap : wrapFactor 10 1 = Real.exp (2 ^ 64 / 10) := rfl
    rw [hwrap, hratio, hquarter]
    linarith
  have hget : ∀ i < numProbs, (cutoffWeights (cutoffOptions 2 (.fin 10) 1))[i]? =
      some (.fin (wrapFactor 10 i * (documentedDensity 2 (.fin 10) ((1 : ℕ) + i) /
        documentedDensity 2 (.fin 10) (1 : ℕ)))) := by
    intro i hi
    have hi' : i < 2 ^ 64 := hi.trans (by decide)
    rw [getElem?_cutoffWeights _ hi, cutoffWeight_eq (by norm_num) le_rfl hi']
  refine ⟨1, _, ?_, ?_, hlarge, hlarge, (div_lt_one hone).mp hdecrease, ?_⟩
  · rw [hget 0 (by decide), Nat.cast_zero, add_zero, Nat.cast_one, div_self hone.ne']
    simp [wrapFactor]
  · rw [hget 1 (by decide), Nat.cast_one, one_add_one_eq_two]
  · rintro c ⟨hfirst, hsecond⟩
    have hc : c = 1 / documentedDensity 2 (.fin 10) 1 := (eq_div_iff hone.ne').mpr hfirst.symm
    rw [hsecond, hc, one_div_mul_eq_div] at hlarge
    exact hlarge.not_gt hdecrease

end Weights

/-! ## The samples of the generator -/

section Generator
variable {K : Type} [Field K] [LinearOrder K] [MathLibrary K] [FloorRing K]
  {E : Environment K} {opts : CmdOptions K} {sampler : WalkerAliasSampler K}

omit [MathLibrary K] [FloorRing K] in
/-- Drawing some samples and then some more is drawing all of them. -/
theorem walkerAliasSamplerSample_append {m n : ℕ} {rng rng₁ rng₂ : Rng} {xs ys : List ℕ}
    (hxs : walkerAliasSamplerSample sampler m rng = .ok (xs, rng₁))
    (hys : walkerAliasSamplerSample sampler n rng₁ = .ok (ys, rng₂)) :
    walkerAliasSamplerSample sampler (m + n) rng = .ok (xs ++ ys, rng₂) := by
  induction m generalizing rng xs with
  | zero =>
    cases hxs
    rwa [Nat.zero_add, List.nil_append]
  | succ m ih =>
    rw [walkerAliasSamplerSample] at hxs
    obtain ⟨⟨x, rng'⟩, hdraw, hxs⟩ := bind_eq_ok.mp hxs
    obtain ⟨⟨rest, rng''⟩, hrest, hxs⟩ := bind_eq_ok.mp hxs
    cases hxs
    rw [Nat.succ_add, walkerAliasSamplerSample]
    simp only [hdraw, ih hrest, bind, Except.bind]
    rfl

omit [MathLibrary K] in
/-- The blocks of the output make no difference: the printed lines are the shifted indexes of as
many draws as are asked for. -/
theorem cutoffLoop_samples {remaining : ℕ} {lines : List ℤ} {rng rng' : Rng}
    (h : cutoffLoop opts sampler remaining rng = .ok (lines, rng')) :
    ∃ samples, walkerAliasSamplerSample sampler remaining rng = .ok (samples, rng') ∧
      printBlock opts samples = .ok lines := by
  induction remaining using Nat.strong_induction_on generalizing lines rng with
  | h remaining ih =>
    rw [cutoffLoop] at h
    by_cases hzero : remaining = 0
    · rw [dif_pos hzero] at h
      cases h
      subst hzero
      exact ⟨[], rfl, rfl⟩
    · rw [dif_neg hzero] at h
      obtain ⟨n, hn⟩ : ∃ n, (if blockSize < remaining then blockSize else remaining) = n := ⟨_, rfl⟩
      have hsize : 0 < n ∧ n ≤ remaining := by
        unfold blockSize at hn
        split_ifs at hn <;> omega
      simp only [hn] at h
      obtain ⟨⟨block, rng₁⟩, hblock, h⟩ := bind_eq_ok.mp h
      obtain ⟨front, hfront, h⟩ := bind_eq_ok.mp h
      obtain ⟨⟨rest, rng₂⟩, hrest, h⟩ := bind_eq_ok.mp h
      cases h
      obtain ⟨samples, hsamples, hprinted⟩ := ih (remaining - n) (by omega) hrest
      refine ⟨block ++ samples, ?_, ?_⟩
      · rw [← Nat.add_sub_cancel' hsize.2]
        exact walkerAliasSamplerSample_append hblock hsamples
      · rw [printBlock] at hfront hprinted ⊢
        simp only [List.mapM_append, hfront, hprinted, bind, Except.bind]
        rfl

/-- A run of the generator with a cutoff prints the shifted indexes that the alias sampler over the
weights draws, or it ends with the code for a sampler that could not be prepared. -/
theorem sampleDiscrete_cutoff (hn : 0 < opts.numSamples) (hk : 0 < opts.kappa) {code : ℤ}
    {lines : List ℤ} {rng rng' : Rng} (h : sampleDiscrete E opts rng = .ok (code, lines, rng')) :
    (∃ sampler samples, walkerAliasSamplerInit (cutoffWeights opts) = .ok (.ok sampler) ∧
      walkerAliasSamplerSample sampler opts.numSamples.toNat rng = .ok (samples, rng') ∧
      printBlock opts samples = .ok lines ∧ code = 0) ∨
    (∃ f, walkerAliasSamplerInit (cutoffWeights opts) = .ok (.error f)) ∧ code = 9 ∧ lines = [] := by
  rw [sampleDiscrete, if_neg hn.not_ge, if_pos hk] at h
  obtain ⟨prepared, hinit, h⟩ := bind_eq_ok.mp h
  cases prepared with
  | error f =>
    cases h
    exact Or.inr ⟨⟨f, hinit⟩, rfl, rfl⟩
  | ok sampler =>
    obtain ⟨⟨printed, rng₁⟩, hloop, h⟩ := bind_eq_ok.mp h
    cases h
    obtain ⟨samples, hsamples, hprinted⟩ := cutoffLoop_samples hloop
    exact Or.inl ⟨sampler, samples, hinit, hsamples, hprinted, rfl⟩

end Generator
end Plfit
