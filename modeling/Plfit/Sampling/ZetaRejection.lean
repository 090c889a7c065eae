import Mathlib
import Plfit.Model.Sampling

/-! # The rejection step of the zeta samplers

A round draws a proposal by inversion and keeps it with a probability that depends on it. The
proposal has the mass of a unit interval under a Pareto distribution; the two factors multiply
to the zeta distribution up to one constant.
-/
namespace Plfit
open ExactArithmetic MeasureTheory Set

section Round
variable {K : Type} [Field K] [LinearOrder K] [FloorRing K] [MathLibrary K]

/-- One round on the two draws: the sample it ends with, or nothing. -/
def rzetaRound (xmin : ℤ) (alpha b oneOverBMinus1 u v : Double K) : Exec (Option ℤ) := do
  let y := MathLibrary.pow (1 - u) (-1 / (alpha - 1)) * (xmin : Double K)
  let x ← convert (Double.toSigned 64 y.floor)
  if x < xmin then return none
  else
    let t := MathLibrary.pow (((x : Double K) + 1) / (x : Double K)) (alpha - 1)
    return if t * (xmin : Double K) < v * (x : Double K) * (t - 1) * oneOverBMinus1 * b
      then none else some x

/-- The loops of both samplers are rounds until one of them ends with a sample. -/
theorem rzetaReject_succ (xmin : ℤ) (alpha b oneOverBMinus1 : Double K) (rounds : ℕ) (rng : Rng) :
    rzetaReject xmin alpha b oneOverBMinus1 (rounds + 1) rng =
      (do let sample ← rzetaRound xmin alpha b oneOverBMinus1
            (runif01 rng).1 (runif01 (rng.advance 1)).1
          match sample with
          | some x => .ok (x, rng.advance 2)
          | none => rzetaReject xmin alpha b oneOverBMinus1 rounds (rng.advance 2)) := by
  have hfirst : (runif01 rng : Double K × Rng) = ((runif01 rng).1, rng.advance 1) :=
    Prod.ext rfl (runif01_snd rng)
  have hsecond : (runif01 (rng.advance 1) : Double K × Rng) =
      ((runif01 (rng.advance 1)).1, rng.advance 2) := by
    rw [Rng.advance_add rng 1 1]
    exact Prod.ext rfl (runif01_snd _)
  rw [rzetaReject, rzetaRound, hfirst]
  dsimp only
  rw [hsecond]
  dsimp only
  cases convert (Double.toSigned 64 (MathLibrary.pow (1 - (runif01 rng).1) (-1 / (alpha - 1)) *
      (xmin : Double K)).floor) with
  | error e => rfl
  | ok x =>
    simp only [bind, Except.bind]
    by_cases hx : x < xmin
    · rw [if_pos hx, if_pos hx]
      rfl
    · rw [if_neg hx, if_neg hx]
      split <;> rfl

end Round

/-! ## The envelope -/

section Envelope
variable {a : ℝ}

/-- The slope of a negative power away from one only flattens. -/
theorem slope_rpow_neg {r s : ℝ} (hr : 0 ≤ r) (hr' : r ≤ 1) (hs : 0 ≤ s) (ha : 0 ≤ a) :
    r * (1 - (1 + s) ^ (-a)) ≤ 1 - (1 + r * s) ^ (-a) := by
  have hbase : (0 : ℝ) < 1 + s := by positivity
  have hpow : (0 : ℝ) < (1 + s) ^ r := Real.rpow_pos_of_pos hbase r
  have hlinear : (1 + s) ^ r ≤ 1 + r * s :=
    rpow_one_add_le_one_add_mul_self (by linarith) hr hr'
  have hbelow : (-1 : ℝ) ≤ (1 + s) ^ (-a) - 1 := by
    have := (Real.rpow_pos_of_pos hbase (-a)).le
    linarith
  have hneg : (1 + r * s) ^ (-a) ≤ 1 + r * ((1 + s) ^ (-a) - 1) := by
    calc (1 + r * s) ^ (-a) ≤ ((1 + s) ^ r) ^ (-a) :=
          Real.rpow_le_rpow_of_nonpos hpow hlinear (neg_nonpos.mpr ha)
      _ = (1 + ((1 + s) ^ (-a) - 1)) ^ r := by
          rw [← Real.rpow_mul hbase.le, mul_comm, Real.rpow_mul hbase.le, add_sub_cancel]
      _ ≤ 1 + r * ((1 + s) ^ (-a) - 1) :=
          rpow_one_add_le_one_add_mul_self hbelow hr hr'
  linarith

end Envelope

noncomputable def zetaProposal (xmin : ℤ) (alpha u : ℝ) : ℤ :=
  ⌊(1 - u) ^ (-1 / (alpha - 1)) * xmin⌋

/-- The growth of the tail from an integer to the next one: `b` at `xmin`, `t` at the sample. -/
noncomputable def zetaGrowth (alpha : ℝ) (x : ℤ) : ℝ := (1 + 1 / (x : ℝ)) ^ (alpha - 1)

noncomputable def zetaRatio (xmin : ℤ) (alpha : ℝ) (x : ℤ) : ℝ :=
  zetaGrowth alpha x * xmin /
    (x * (zetaGrowth alpha x - 1) * zetaGrowth alpha xmin / (zetaGrowth alpha xmin - 1))

/-- The mass of the proposals from an integer on. -/
noncomputable def zetaTail (xmin : ℤ) (alpha : ℝ) (x : ℤ) : ℝ := ((x : ℝ) / xmin) ^ (-(alpha - 1))

section Mass
variable {alpha : ℝ} {xmin x : ℤ}

theorem one_lt_zetaGrowth (ha : 1 < alpha) (hx : 1 ≤ x) : 1 < zetaGrowth alpha x := by
  have hx0 : (0 : ℝ) < x := by exact_mod_cast hx
  apply Real.one_lt_rpow _ (sub_pos.mpr ha)
  exact lt_add_of_pos_right 1 (one_div_pos.mpr hx0)

theorem zetaRatio_pos (ha : 1 < alpha) (hxmin : 1 ≤ xmin) (hx : xmin ≤ x) :
    0 < zetaRatio xmin alpha x := by
  have hb := one_lt_zetaGrowth ha hxmin
  have ht := one_lt_zetaGrowth ha (hxmin.trans hx)
  have hx0 : (0 : ℝ) < x := by exact_mod_cast hxmin.trans hx
  have hxmin0 : (0 : ℝ) < xmin := by exact_mod_cast hxmin
  have hb0 : 0 < zetaGrowth alpha xmin - 1 := sub_pos.mpr hb
  have ht0 : 0 < zetaGrowth alpha x - 1 := sub_pos.mpr ht
  unfold zetaRatio
  positivity

theorem zetaRatio_le_one (ha : 1 < alpha) (hxmin : 1 ≤ xmin) (hx : xmin ≤ x) :
    zetaRatio xmin alpha x ≤ 1 := by
  have hb := one_lt_zetaGrowth ha hxmin
  have ht := one_lt_zetaGrowth ha (hxmin.trans hx)
  have hx0 : (0 : ℝ) < x := by exact_mod_cast hxmin.trans hx
  have hxmin0 : (0 : ℝ) < xmin := by exact_mod_cast hxmin
  have hle : (xmin : ℝ) ≤ x := by exact_mod_cast hx
  -- the slope between `1 / xmin` and `1 / x`
  have hslope := slope_rpow_neg (r := xmin / x) (s := 1 / xmin) (a := alpha - 1) (by positivity)
    ((div_le_one hx0).mpr hle) (by positivity) (sub_pos.mpr ha).le
  have hproduct : (xmin : ℝ) / x * (1 / xmin) = 1 / x := by field_simp
  have hbinv : (1 + 1 / (xmin : ℝ)) ^ (-(alpha - 1)) = (zetaGrowth alpha xmin)⁻¹ :=
    Real.rpow_neg (by positivity) _
  have htinv : (1 + 1 / (x : ℝ)) ^ (-(alpha - 1)) = (zetaGrowth alpha x)⁻¹ :=
    Real.rpow_neg (by positivity) _
  rw [hproduct, hbinv, htinv] at hslope
  have hb0 : 0 < zetaGrowth alpha xmin - 1 := sub_pos.mpr hb
  have ht0 : 0 < zetaGrowth alpha x - 1 := sub_pos.mpr ht
  have hbpos : 0 < zetaGrowth alpha xmin := one_pos.trans hb
  have htpos : 0 < zetaGrowth alpha x := one_pos.trans ht
  have hratio : zetaRatio xmin alpha x =
      (xmin / x * (1 - (zetaGrowth alpha xmin)⁻¹)) / (1 - (zetaGrowth alpha x)⁻¹) := by
    have hinv : 1 - (zetaGrowth alpha x)⁻¹ = (zetaGrowth alpha x - 1) / zetaGrowth alpha x := by
      field_simp
    rw [hinv, zetaRatio]
    field_simp
  have hpos : 0 < 1 - (zetaGrowth alpha x)⁻¹ := sub_pos.mpr (inv_lt_one_of_one_lt₀ ht)
  rw [hratio]
  exact (div_le_one hpos).mpr hslope

theorem zetaTail_succ (hxmin : 1 ≤ xmin) (hx : xmin ≤ x) :
    zetaTail xmin alpha (x + 1) = zetaTail xmin alpha x * (zetaGrowth alpha x)⁻¹ := by
  have hx0 : (0 : ℝ) < x := by exact_mod_cast hxmin.trans hx
  have hxmin0 : (0 : ℝ) < xmin := by exact_mod_cast hxmin
  have hsplit : ((x + 1 : ℤ) : ℝ) / xmin = x / xmin * (1 + 1 / x) := by
    push_cast
    field_simp
  rw [zetaTail, hsplit, Real.mul_rpow (by positivity) (by positivity),
    Real.rpow_neg (by positivity : (0 : ℝ) ≤ 1 + 1 / x)]
  rfl

theorem zetaTail_pos (hxmin : 1 ≤ xmin) (hx : xmin ≤ x) : 0 < zetaTail xmin alpha x := by
  have hx0 : (0 : ℝ) < x := by exact_mod_cast hxmin.trans hx
  have hxmin0 : (0 : ℝ) < xmin := by exact_mod_cast hxmin
  exact Real.rpow_pos_of_pos (div_pos hx0 hxmin0) _

theorem zetaTail_le_one (ha : 1 < alpha) (hxmin : 1 ≤ xmin) (hx : xmin ≤ x) :
    zetaTail xmin alpha x ≤ 1 := by
  have hxmin0 : (0 : ℝ) < xmin := by exact_mod_cast hxmin
  have hle : (xmin : ℝ) ≤ x := by exact_mod_cast hx
  apply Real.rpow_le_one_of_one_le_of_nonpos ((one_le_div hxmin0).mpr hle)
  linarith

theorem le_zetaProposal_iff (ha : 1 < alpha) (hxmin : 1 ≤ xmin) (hx : xmin ≤ x) {u : ℝ}
    (hu : u < 1) : x ≤ zetaProposal xmin alpha u ↔ 1 - zetaTail xmin alpha x ≤ u := by
  have hx0 : (0 : ℝ) < x := by exact_mod_cast hxmin.trans hx
  have hxmin0 : (0 : ℝ) < xmin := by exact_mod_cast hxmin
  have hexp : -1 / (alpha - 1) = (-(alpha - 1))⁻¹ := by
    rw [inv_neg, neg_div, one_div]
  rw [zetaProposal, Int.le_floor, ← div_le_iff₀ hxmin0, hexp, Real.le_rpow_inv_iff_of_neg
    (div_pos hx0 hxmin0) (sub_pos.mpr hu) (by linarith), sub_le_comm]
  rfl

theorem zetaProposal_eq_iff (ha : 1 < alpha) (hxmin : 1 ≤ xmin) (hx : xmin ≤ x) {u : ℝ}
    (hu : u < 1) : zetaProposal xmin alpha u = x ↔
      1 - zetaTail xmin alpha x ≤ u ∧ u < 1 - zetaTail xmin alpha (x + 1) := by
  rw [← le_zetaProposal_iff ha hxmin hx hu, ← not_le,
    ← le_zetaProposal_iff ha hxmin (hx.trans (Int.le_add_one le_rfl)) hu]
  omega

/-- The draws that propose an integer form an interval. -/
theorem proposalDraws_eq (ha : 1 < alpha) (hxmin : 1 ≤ xmin) (hx : xmin ≤ x) :
    {u | u ∈ Ico (0 : ℝ) 1 ∧ zetaProposal xmin alpha u = x} =
      Ico (1 - zetaTail xmin alpha x) (1 - zetaTail xmin alpha (x + 1)) := by
  have hle := zetaTail_le_one ha hxmin hx
  have hpos : 0 < zetaTail xmin alpha (x + 1) :=
    zetaTail_pos hxmin (hx.trans (Int.le_add_one le_rfl))
  ext u
  constructor
  · rintro ⟨⟨-, hu⟩, hprop⟩
    exact (zetaProposal_eq_iff ha hxmin hx hu).mp hprop
  · rintro ⟨hlow, hhigh⟩
    have hu : u < 1 := by linarith
    exact ⟨⟨by linarith, hu⟩, (zetaProposal_eq_iff ha hxmin hx hu).mpr ⟨hlow, hhigh⟩⟩

theorem volume_proposalDraws (ha : 1 < alpha) (hxmin : 1 ≤ xmin) (hx : xmin ≤ x) :
    volume.real {u | u ∈ Ico (0 : ℝ) 1 ∧ zetaProposal xmin alpha u = x} =
      zetaTail xmin alpha x - zetaTail xmin alpha (x + 1) := by
  have hpos : 0 < zetaTail xmin alpha x := zetaTail_pos hxmin hx
  have hinv := inv_le_one_of_one_le₀ (one_lt_zetaGrowth ha (hxmin.trans hx)).le
  rw [proposalDraws_eq ha hxmin hx, Real.volume_real_Ico_of_le]
  · ring
  · rw [zetaTail_succ hxmin hx]
    have := mul_le_of_le_one_right hpos.le hinv
    linarith

noncomputable def zetaConstant (xmin : ℤ) (alpha : ℝ) : ℝ :=
  (xmin : ℝ) ^ alpha * (zetaGrowth alpha xmin - 1) / zetaGrowth alpha xmin

theorem zetaConstant_pos (ha : 1 < alpha) (hxmin : 1 ≤ xmin) : 0 < zetaConstant xmin alpha := by
  have hb := one_lt_zetaGrowth ha hxmin
  have hxmin0 : (0 : ℝ) < xmin := by exact_mod_cast hxmin
  exact div_pos (mul_pos (Real.rpow_pos_of_pos hxmin0 _) (sub_pos.mpr hb)) (one_pos.trans hb)

/-- The proposal mass times the acceptance ratio is the zeta distribution. -/
theorem mass_mul_zetaRatio (ha : 1 < alpha) (hxmin : 1 ≤ xmin) (hx : xmin ≤ x) :
    (zetaTail xmin alpha x - zetaTail xmin alpha (x + 1)) * zetaRatio xmin alpha x =
      zetaConstant xmin alpha * (x : ℝ) ^ (-alpha) := by
  have hx0 : (0 : ℝ) < x := by exact_mod_cast hxmin.trans hx
  have hxmin0 : (0 : ℝ) < xmin := by exact_mod_cast hxmin
  have hb := one_lt_zetaGrowth ha hxmin
  have ht := one_lt_zetaGrowth ha (hxmin.trans hx)
  have hb0 : zetaGrowth alpha xmin - 1 ≠ 0 := (sub_pos.mpr hb).ne'
  have ht0 : zetaGrowth alpha x - 1 ≠ 0 := (sub_pos.mpr ht).ne'
  have hbpos : zetaGrowth alpha xmin ≠ 0 := (one_pos.trans hb).ne'
  have htpos : zetaGrowth alpha x ≠ 0 := (one_pos.trans ht).ne'
  have htail : zetaTail xmin alpha x * (xmin / x) = (xmin : ℝ) ^ alpha * (x : ℝ) ^ (-alpha) := by
    have hdiv : (xmin : ℝ) / x = ((x : ℝ) / xmin) ^ (-1 : ℝ) := by
      rw [Real.rpow_neg_one, inv_div]
    have hexp : -(alpha - 1) + -1 = -alpha := by ring
    rw [zetaTail, hdiv, ← Real.rpow_add (div_pos hx0 hxmin0), hexp,
      Real.div_rpow hx0.le hxmin0.le, Real.rpow_neg hxmin0.le, div_inv_eq_mul, mul_comm]
  calc (zetaTail xmin alpha x - zetaTail xmin alpha (x + 1)) * zetaRatio xmin alpha x
      = zetaTail xmin alpha x * (xmin / x) *
          ((zetaGrowth alpha xmin - 1) / zetaGrowth alpha xmin) := by
        rw [zetaTail_succ hxmin hx, zetaRatio]
        field_simp
    _ = zetaConstant xmin alpha * (x : ℝ) ^ (-alpha) := by
        rw [htail, zetaConstant]
        ring

end Mass

/-! ## A round over the reals -/

section Real
variable {alpha : ℝ} {xmin : ℤ}

theorem rzetaB_fin (hxmin : 1 ≤ xmin) :
    rzetaB xmin (.fin alpha) = .fin (zetaGrowth alpha xmin) := by
  have hxmin0 : (0 : ℝ) < xmin := by exact_mod_cast hxmin
  have hpos : (0 : ℝ) < 1 + 1 / xmin := by positivity
  rw [rzetaB, Double.one_def, Double.intCast_def, Double.fin_div_fin hxmin0.ne',
    Double.fin_add_fin, Double.fin_sub_fin, MathLibrary.pow_fin hpos]
  rfl

theorem xmin_le_zetaProposal (ha : 1 < alpha) (hxmin : 1 ≤ xmin) {u : ℝ} (hu : 0 ≤ u)
    (hu' : u < 1) : xmin ≤ zetaProposal xmin alpha u := by
  have hxmin0 : (xmin : ℝ) ≠ 0 := by exact_mod_cast (by omega : xmin ≠ 0)
  rw [le_zetaProposal_iff ha hxmin le_rfl hu', zetaTail, div_self hxmin0, Real.one_rpow]
  linarith

/-- The proposal is converted to a `long int`, which has to hold it. -/
theorem toSigned_zetaProposal (ha : 1 < alpha) (hxmin : 1 ≤ xmin) {u : ℝ} (hu : 0 ≤ u)
    (hu' : u < 1) :
    Double.toSigned 64 (MathLibrary.pow (1 - .fin u : Double ℝ) (-1 / (.fin alpha - 1)) *
        (xmin : Double ℝ)).floor =
      if zetaProposal xmin alpha u < 2 ^ 63 then some (zetaProposal xmin alpha u) else none := by
  have ha0 : alpha - 1 ≠ 0 := (sub_pos.mpr ha).ne'
  have hlow := xmin_le_zetaProposal ha hxmin hu hu'
  have hfloor : (MathLibrary.pow (1 - .fin u : Double ℝ) (-1 / (.fin alpha - 1)) *
      (xmin : Double ℝ)).floor = .fin (zetaProposal xmin alpha u : ℝ) := by
    rw [Double.one_def, Double.fin_sub_fin, Double.fin_sub_fin, Double.neg_fin,
      Double.fin_div_fin ha0, MathLibrary.pow_fin (sub_pos.mpr hu'), Double.intCast_def,
      Double.fin_mul_fin]
    rfl
  have hnonneg : (0 : ℝ) ≤ (zetaProposal xmin alpha u : ℤ) := by
    exact_mod_cast (by omega : 0 ≤ zetaProposal xmin alpha u)
  have htruncate : Double.truncate (zetaProposal xmin alpha u : ℝ) =
      zetaProposal xmin alpha u := by
    rw [Double.truncate, if_pos hnonneg, Int.floor_intCast]
  rw [hfloor, Double.toSigned, htruncate]
  split_ifs <;> first | rfl | omega

theorem rzetaRound_fin (ha : 1 < alpha) (hxmin : 1 ≤ xmin) {u : ℝ} (hu : 0 ≤ u) (hu' : u < 1)
    (hfits : zetaProposal xmin alpha u < 2 ^ 63) (v : ℝ) :
    rzetaRound xmin (.fin alpha) (rzetaB xmin (.fin alpha)) (1 / (rzetaB xmin (.fin alpha) - 1))
        (.fin u) (.fin v) =
      .ok (if v ≤ zetaRatio xmin alpha (zetaProposal xmin alpha u)
        then some (zetaProposal xmin alpha u) else none) := by
  have hlow := xmin_le_zetaProposal ha hxmin hu hu'
  have hproposal := toSigned_zetaProposal ha hxmin hu hu'
  rw [if_pos hfits] at hproposal
  generalize zetaProposal xmin alpha u = x at hlow hproposal
  have hx1 : 1 ≤ x := hxmin.trans hlow
  have hx0 : (0 : ℝ) < x := by exact_mod_cast hx1
  have hb0 : 0 < zetaGrowth alpha xmin - 1 := sub_pos.mpr (one_lt_zetaGrowth ha hxmin)
  have ht0 : 0 < zetaGrowth alpha x - 1 := sub_pos.mpr (one_lt_zetaGrowth ha hx1)
  have hbpos : 0 < zetaGrowth alpha xmin := one_pos.trans (one_lt_zetaGrowth ha hxmin)
  have ht : MathLibrary.pow ((.fin (x : ℝ) + .fin 1) / .fin (x : ℝ)) (.fin (alpha - 1)) =
      .fin (zetaGrowth alpha x) := by
    have hquotient : ((x : ℝ) + 1) / x = 1 + 1 / x := by
      rw [add_div, div_self hx0.ne']
    rw [Double.fin_add_fin, Double.fin_div_fin hx0.ne', hquotient,
      MathLibrary.pow_fin (by positivity)]
    rfl
  have htest : zetaGrowth alpha x * xmin <
      v * x * (zetaGrowth alpha x - 1) * (1 / (zetaGrowth alpha xmin - 1)) *
        zetaGrowth alpha xmin ↔ zetaRatio xmin alpha x < v := by
    have hden : 0 < (x : ℝ) * (zetaGrowth alpha x - 1) * zetaGrowth alpha xmin /
        (zetaGrowth alpha xmin - 1) := by positivity
    have hshape : v * x * (zetaGrowth alpha x - 1) * (1 / (zetaGrowth alpha xmin - 1)) *
        zetaGrowth alpha xmin = v * (x * (zetaGrowth alpha x - 1) * zetaGrowth alpha xmin /
          (zetaGrowth alpha xmin - 1)) := by ring
    rw [hshape, zetaRatio, div_lt_iff₀ hden]
  rw [rzetaRound, hproposal]
  simp only [convert, bind, Except.bind, if_neg hlow.not_gt, ht, rzetaB_fin hxmin,
    Double.one_def, Double.intCast_def, Double.fin_sub_fin, Double.fin_div_fin hb0.ne',
    Double.fin_mul_fin, Double.fin_lt_fin, htest]
  by_cases hv : v ≤ zetaRatio xmin alpha x
  · rw [if_pos hv, if_neg hv.not_gt]
    rfl
  · rw [if_neg hv, if_pos (not_le.mp hv)]
    rfl

theorem acceptedDraws_eq (ha : 1 < alpha) (hxmin : 1 ≤ xmin) {x : ℤ} (hfits : x < 2 ^ 63) :
    {p : ℝ × ℝ | p ∈ Ico (0 : ℝ) 1 ×ˢ Ico (0 : ℝ) 1 ∧
        rzetaRound xmin (.fin alpha) (rzetaB xmin (.fin alpha))
          (1 / (rzetaB xmin (.fin alpha) - 1)) (.fin p.1) (.fin p.2) = .ok (some x)} =
      {u | u ∈ Ico (0 : ℝ) 1 ∧ zetaProposal xmin alpha u = x} ×ˢ
        {v | v ∈ Ico (0 : ℝ) 1 ∧ v ≤ zetaRatio xmin alpha x} := by
  ext ⟨u, v⟩
  constructor
  · rintro ⟨⟨hu, hv⟩, hround⟩
    by_cases hproposal : zetaProposal xmin alpha u < 2 ^ 63
    · rw [rzetaRound_fin ha hxmin hu.1 hu.2 hproposal] at hround
      split_ifs at hround with hv'
      · cases hround
        exact ⟨⟨hu, rfl⟩, hv, hv'⟩
      · cases hround
    · have hconvert := toSigned_zetaProposal ha hxmin hu.1 hu.2
      rw [if_neg hproposal] at hconvert
      rw [rzetaRound, hconvert] at hround
      cases hround
  · rintro ⟨⟨hu, rfl⟩, hv, hv'⟩
    refine ⟨⟨hu, hv⟩, ?_⟩
    rw [rzetaRound_fin ha hxmin hu.1 hu.2 hfits, if_pos hv']

theorem volume_acceptedDraws {r : ℝ} (hr : 0 < r) (hr' : r ≤ 1) :
    volume.real {v | v ∈ Ico (0 : ℝ) 1 ∧ v ≤ r} = r := by
  rcases hr'.lt_or_eq with hlt | rfl
  · have hset : {v | v ∈ Ico (0 : ℝ) 1 ∧ v ≤ r} = Icc 0 r := by
      ext v
      exact ⟨fun h => ⟨h.1.1, h.2⟩, fun h => ⟨⟨h.1, h.2.trans_lt hlt⟩, h.2⟩⟩
    rw [hset, Real.volume_real_Icc_of_le hr.le, sub_zero]
  · have hset : {v | v ∈ Ico (0 : ℝ) 1 ∧ v ≤ 1} = Ico 0 1 := by
      ext v
      exact ⟨fun h => h.1, fun h => ⟨h, h.2.le⟩⟩
    rw [hset, Real.volume_real_Ico_of_le hr.le, sub_zero]

/-- Both samplers go through rounds that keep a proposal with a probability in `(0, 1]`, and
end with an integer with a probability proportional to its weight in the zeta distribution. -/
theorem rzeta_rejection_samples_zeta (ha : 1 < alpha) (hxmin : 1 ≤ xmin) :
    (∀ rounds rng u v, (runif01 rng).1 = .fin u → (runif01 (rng.advance 1)).1 = .fin v →
      0 ≤ u → u < 1 → zetaProposal xmin alpha u < 2 ^ 63 →
      rzetaReject xmin (.fin alpha) (rzetaB xmin (.fin alpha))
          (1 / (rzetaB xmin (.fin alpha) - 1)) (rounds + 1) rng =
        if v ≤ zetaRatio xmin alpha (zetaProposal xmin alpha u)
        then .ok (zetaProposal xmin alpha u, rng.advance 2)
        else rzetaReject xmin (.fin alpha) (rzetaB xmin (.fin alpha))
          (1 / (rzetaB xmin (.fin alpha) - 1)) rounds (rng.advance 2)) ∧
    ∃ c > 0, ∀ x ≥ xmin, 0 < zetaRatio xmin alpha x ∧ zetaRatio xmin alpha x ≤ 1 ∧
      volume.real {u | u ∈ Ico (0 : ℝ) 1 ∧ zetaProposal xmin alpha u = x} *
        zetaRatio xmin alpha x = c * (x : ℝ) ^ (-alpha) ∧
      (x < 2 ^ 63 →
        volume.real {p : ℝ × ℝ | p ∈ Ico (0 : ℝ) 1 ×ˢ Ico (0 : ℝ) 1 ∧
          rzetaRound xmin (.fin alpha) (rzetaB xmin (.fin alpha))
            (1 / (rzetaB xmin (.fin alpha) - 1)) (.fin p.1) (.fin p.2) = .ok (some x)} =
          c * (x : ℝ) ^ (-alpha)) := by
  have hmass : ∀ x ≥ xmin, volume.real {u | u ∈ Ico (0 : ℝ) 1 ∧ zetaProposal xmin alpha u = x} *
      zetaRatio xmin alpha x = zetaConstant xmin alpha * (x : ℝ) ^ (-alpha) := by
    intro x hx
    rw [volume_proposalDraws ha hxmin hx, mass_mul_zetaRatio ha hxmin hx]
  constructor
  · intro rounds rng u v hu hv hu0 hu1 hfits
    rw [rzetaReject_succ, hu, hv, rzetaRound_fin ha hxmin hu0 hu1 hfits]
    by_cases hv' : v ≤ zetaRatio xmin alpha (zetaProposal xmin alpha u)
    · rw [if_pos hv', if_pos hv']
      rfl
    · rw [if_neg hv', if_neg hv']
      rfl
  · refine ⟨zetaConstant xmin alpha, zetaConstant_pos ha hxmin, ?_⟩
    intro x hx
    have hpos := zetaRatio_pos ha hxmin hx
    have hle := zetaRatio_le_one ha hxmin hx
    refine ⟨hpos, hle, hmass x hx, ?_⟩
    intro hfits
    rw [acceptedDraws_eq ha hxmin hfits, Measure.volume_eq_prod, measureReal_prod_prod,
      volume_acceptedDraws hpos hle, hmass x hx]

theorem rzeta_rejection_samples_zeta_two :
    ∃ c > 0, ∀ x ≥ (1 : ℤ), 0 < zetaRatio 1 2 x ∧ zetaRatio 1 2 x ≤ 1 ∧
      volume.real {u | u ∈ Ico (0 : ℝ) 1 ∧ zetaProposal 1 2 u = x} * zetaRatio 1 2 x =
        c * (x : ℝ) ^ (-(2 : ℝ)) := by
  obtain ⟨-, c, hc, hmass⟩ :=
    rzeta_rejection_samples_zeta (one_lt_two : (1 : ℝ) < 2) (le_refl (1 : ℤ))
  refine ⟨c, hc, ?_⟩
  intro x hx
  obtain ⟨hpos, hle, hproduct, -⟩ := hmass x hx
  exact ⟨hpos, hle, hproduct⟩

end Real

end Plfit
