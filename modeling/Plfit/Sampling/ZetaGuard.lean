import Mathlib
import Plfit.Library.HurwitzZeta
import Plfit.Library.NearestEven
import Plfit.Model.RoundedSampling
import Plfit.Sampling.SplitResampling

/-! # The guard of the zeta samplers

Both samplers reject the exponents up to zero, but a zeta distribution needs one above one. Above
one the constant `b` can be rounded to one, which divides by zero, and a large draw can propose a
number that does not fit the integer type that it is converted to.
-/
namespace Plfit
open ExactArithmetic RealHurwitz NearestEven

section Definitions

/-- The proposal before its conversion to a `long int`. -/
noncomputable def zetaDraw (xmin : ℤ) (alpha : Double ℝ) (u : ℝ) : Double ℝ :=
  (MathLibrary.pow (1 - .fin u : Double ℝ) (-1 / (alpha - 1)) * (xmin : Double ℝ)).floor

/-- Neither sampler reports an invalid parameter. -/
def RzetaAccepts (xmin : ℤ) (alpha : Double ℝ) : Prop :=
  ∀ (E : Environment ℝ) (rng : Rng), (∀ rng', rzeta E xmin alpha rng ≠ .ok (.nan, rng')) ∧
    ∀ n out, rzetaArray E xmin alpha n rng ≠ .ok (.einval, out)

/-- The divisors of the constants of the rejection step are not zero. -/
def DividesByNonzero (xmin : ℤ) (alpha : Double ℝ) : Prop :=
  ¬ roundDouble (alpha - 1) == 0 ∧ ¬ roundDouble (rzetaBRounded roundDouble xmin alpha - 1) == 0

/-- Whatever supplies the uniform numbers, the inner loop ends in its first round, with a proposal
from `xmin` on, when the first number is a double between zero and one. -/
def EndsAtFirstDraw (xmin : ℤ) (alpha : Double ℝ) : Prop :=
  ∀ (G : Type) (runif : G → Double ℝ × G) (rng : G) (u : ℝ), (runif rng).1 = .fin u →
    roundDouble (.fin u) = .fin u → 0 < u → u < 1 →
    ∃ x, xmin ≤ x ∧ ∀ rounds, rzetaInner runif roundDouble xmin alpha (rounds + 1) rng =
      .ok (x, (runif (runif rng).2).1, rounds, (runif (runif rng).2).2)

/-- The rejection step is well defined and makes progress. -/
def RejectionWorks (xmin : ℤ) (alpha : Double ℝ) : Prop :=
  ∃ start, rzetaStart (roundDouble : Double ℝ → Double ℝ) xmin = .ok start ∧
    DividesByNonzero start alpha ∧ EndsAtFirstDraw start alpha

noncomputable def halfUnit : ℝ := 1 / ((2 : ℕ) : ℝ) ^ 53

/-- The power that gives `b` lies more than half a unit in the last place above one. -/
def GrowsInDoubles (xmin : ℤ) (alpha : Double ℝ) : Prop :=
  (.fin (1 + halfUnit) : Double ℝ) <
    MathLibrary.pow (roundDouble (1 + roundDouble (1 / roundDouble (xmin : Double ℝ))))
      (roundDouble (alpha - 1))

/-- The largest double below one proposes a number that fits a `long int`. -/
def LargestDrawFits (xmin : ℤ) (alpha : Double ℝ) : Prop :=
  roundDouble (roundDouble (MathLibrary.pow (.fin halfUnit)
    (roundDouble (-1 / roundDouble (alpha - 1)))) * roundDouble (xmin : Double ℝ)) <
      .fin (((2 : ℕ) : ℝ) ^ 63)

/-- The powers of the integers from `xmin` on, relative to the first one, are the weights of a
distribution. -/
def HasZetaDistribution (xmin : ℤ) (alpha : Double ℝ) : Prop :=
  1 ≤ xmin ∧ ∃ w : ℕ → ℝ,
    (∀ k : ℕ, MathLibrary.pow (.fin ((xmin + k : ℝ) / xmin)) (-alpha) = .fin (w k)) ∧ Summable w

end Definitions

/-! ## What is accepted -/

section Guard
variable {xmin : ℤ} {alpha : Double ℝ}

theorem rzetaLoop_ne_einval {E : Environment ℝ} {b : Double ℝ} (hx : 1 ≤ xmin) {n : ℕ} {rng : Rng}
    {out : List (Double ℝ) × Rng} : rzetaLoop E xmin alpha b n rng ≠ .ok (.einval, out) := by
  intro h
  induction n generalizing rng out with
  | zero => cases h
  | succ n ih =>
    rw [rzetaLoop] at h
    obtain ⟨⟨z, rng₁⟩, hreject, h⟩ := bind_eq_ok.mp h
    have hz := rzetaReject_ok hreject
    dsimp only at h
    rw [if_neg (by omega)] at h
    obtain ⟨⟨status, rest, rng₂⟩, hrest, h⟩ := bind_eq_ok.mp h
    cases h
    exact ih hrest

/-- The scalar sampler gives a NaN for the parameters that it rejects only. -/
theorem rzeta_eq_nan_iff (E : Environment ℝ) (rng : Rng) :
    (∃ rng', rzeta E xmin alpha rng = .ok (.nan, rng')) ↔ alpha ≤ 0 ∨ xmin < 1 := by
  constructor
  · rintro ⟨rng', h⟩
    by_contra hvalid
    rw [rzeta, if_neg hvalid] at h
    obtain ⟨⟨z, rng₁⟩, -, h⟩ := bind_eq_ok.mp h
    cases h
  · intro hinvalid
    exact ⟨rng, by rw [rzeta, if_pos hinvalid]⟩

theorem rzetaArray_einval_iff {E : Environment ℝ} {n : ℕ} {rng : Rng} :
    (∃ out, rzetaArray E xmin alpha n rng = .ok (.einval, out)) ↔ alpha ≤ 0 ∨ xmin < 1 := by
  constructor
  · rintro ⟨out, h⟩
    by_contra hvalid
    have hx : 1 ≤ xmin := not_lt.mp (not_or.mp hvalid).2
    rw [rzetaArray, if_neg hvalid] at h
    split_ifs at h
    · cases h
    · exact rzetaLoop_ne_einval hx h
  · intro hinvalid
    exact ⟨_, by rw [rzetaArray, if_pos hinvalid]⟩

theorem rzetaAccepts_iff : RzetaAccepts xmin alpha ↔ ¬ (alpha ≤ 0 ∨ xmin < 1) := by
  constructor
  · intro h hinvalid
    obtain ⟨rng', hnan⟩ := (rzeta_eq_nan_iff idleEnvironment zerosRng).mpr hinvalid
    exact (h _ _).1 rng' hnan
  · intro hvalid E rng
    exact ⟨fun rng' h => hvalid ((rzeta_eq_nan_iff E rng).mp ⟨rng', h⟩),
      fun n out h => hvalid (rzetaArray_einval_iff.mp ⟨out, h⟩)⟩

end Guard

/-! ## Rounded operations -/

section Rounded
variable {xmin : ℤ} {alpha : Double ℝ} {u : ℝ}

theorem halfUnit_pos : 0 < halfUnit := by
  unfold halfUnit
  positivity

theorem halfUnit_le_one : halfUnit ≤ 1 := by
  unfold halfUnit
  norm_num

theorem roundTo_halfUnit : roundTo 53 halfUnit = halfUnit := by
  have h := roundTo_eq_self (K := ℝ) (p := 53) 1 (by norm_num) (-53)
  have hpow : ((1 : ℤ) : ℝ) * ((2 : ℕ) : ℝ) ^ (-53 : ℤ) = halfUnit := by
    rw [halfUnit, zpow_neg, Int.cast_one, one_mul, one_div]
    norm_cast
  rwa [hpow] at h

theorem roundTo_intCast {m : ℤ} (hm : |m| < 2 ^ 53) : roundTo 53 (m : ℝ) = m := by
  simpa using roundTo_eq_self (K := ℝ) (p := 53) m hm 0

theorem one_le_roundTo {x : ℝ} (hx : 1 ≤ x) : 1 ≤ roundTo 53 x := by
  have h := roundTo_le_roundTo (K := ℝ) (p := 53) (by norm_num) one_pos hx
  rwa [roundTo_one (by norm_num)] at h

theorem roundDouble_xmin (hx : 1 ≤ xmin) (hx' : xmin < 2 ^ 53) :
    roundDouble (xmin : Double ℝ) = .fin (xmin : ℝ) := by
  rw [Double.intCast_def, roundDouble_fin, roundTo_intCast (by rw [abs_lt]; omega)]

theorem rzetaStart_eq (hx : 1 ≤ xmin) (hx' : xmin < 2 ^ 53) :
    rzetaStart (roundDouble : Double ℝ → Double ℝ) xmin = .ok xmin := by
  have hxmin : (0 : ℝ) ≤ (xmin : ℝ) := by exact_mod_cast zero_le_one.trans hx
  have htruncate : Double.truncate (xmin : ℝ) = xmin := by
    rw [Double.truncate, if_pos hxmin, Int.floor_intCast]
  rw [rzetaStart, roundDouble_xmin hx hx', Double.toSigned, htruncate, if_pos (by omega)]
  rfl

theorem le_rzetaStart (hx : 2 ^ 53 ≤ xmin) {start : ℤ}
    (h : rzetaStart (roundDouble : Double ℝ → Double ℝ) xmin = .ok start) : 2 ^ 53 ≤ start := by
  have hxmin : ((2 : ℕ) : ℝ) ^ (53 : ℤ) ≤ (xmin : ℝ) := by exact_mod_cast hx
  have hround := le_roundTo (p := 53) (by norm_num) hxmin
  have hfloor : (2 ^ 53 : ℤ) ≤ ⌊roundTo 53 (xmin : ℝ)⌋ := by
    rw [Int.le_floor]
    exact_mod_cast hround
  have hnonneg : (0 : ℝ) ≤ roundTo 53 (xmin : ℝ) := le_trans (by positivity) hround
  rw [rzetaStart, Double.intCast_def, roundDouble_fin, Double.toSigned, Double.truncate,
    if_pos hnonneg] at h
  split_ifs at h with hfits <;> cases h
  exact hfloor

/-- From 53 digits on, the reciprocal is lost next to one. -/
theorem base_eq_one (hx : 2 ^ 53 ≤ xmin) :
    roundDouble (1 + roundDouble (1 / roundDouble (xmin : Double ℝ))) = .fin 1 := by
  have hxmin : ((2 : ℕ) : ℝ) ^ (53 : ℤ) ≤ (xmin : ℝ) := by exact_mod_cast hx
  have hround := le_roundTo (p := 53) (by norm_num) hxmin
  have hpos : 0 < roundTo 53 (xmin : ℝ) := lt_of_lt_of_le (by positivity) hround
  have hsmall : 1 / roundTo 53 (xmin : ℝ) ≤ halfUnit :=
    one_div_le_one_div_of_le (by positivity) (by exact_mod_cast hround)
  have hrecip := roundTo_le_roundTo (p := 53) (by norm_num) (one_div_pos.mpr hpos) hsmall
  have hnonneg : 0 ≤ roundTo 53 (1 / roundTo 53 (xmin : ℝ)) := roundTo_nonneg (one_div_pos.mpr hpos).le
  rw [roundTo_halfUnit] at hrecip
  rw [Double.intCast_def, roundDouble_fin, Double.one_def, Double.fin_div_fin hpos.ne',
    roundDouble_fin, Double.fin_add_fin, roundDouble_fin,
    (roundTo_eq_one_iff (by norm_num) (by linarith)).mpr]
  exact add_le_add_right hrecip 1

theorem base_fin (hx : 1 ≤ xmin) : ∃ c : ℝ, 1 ≤ c ∧
    roundDouble (1 + roundDouble (1 / roundDouble (xmin : Double ℝ))) = .fin c := by
  have hxmin : (0 : ℝ) < xmin := by exact_mod_cast hx
  have hround : 0 < roundTo 53 (xmin : ℝ) := roundTo_pos (by norm_num) hxmin
  have hnonneg : 0 ≤ roundTo 53 (1 / roundTo 53 (xmin : ℝ)) :=
    roundTo_nonneg (one_div_pos.mpr hround).le
  refine ⟨_, one_le_roundTo (le_add_of_nonneg_right hnonneg), ?_⟩
  rw [Double.intCast_def, roundDouble_fin, Double.one_def, Double.fin_div_fin hround.ne',
    roundDouble_fin, Double.fin_add_fin, roundDouble_fin]

/-- What grows starts below 53 digits. -/
theorem GrowsInDoubles.lt (h : GrowsInDoubles xmin alpha) : xmin < 2 ^ 53 := by
  by_contra hlarge
  rw [GrowsInDoubles, base_eq_one (not_lt.mp hlarge), MathLibrary.pow_one_left,
    Double.fin_lt_fin] at h
  linarith [halfUnit_pos]

theorem rounded_eq_zero_iff {x : ℝ} (hx : 0 ≤ x) :
    (roundDouble (.fin x) == (0 : Double ℝ)) = true ↔ x = 0 := by
  rw [roundDouble_fin, Double.zero_def, Double.fin_beq_fin, decide_eq_true_iff]
  constructor
  · intro h
    by_contra hne
    exact (roundTo_pos (p := 53) (by norm_num) (lt_of_le_of_ne hx (Ne.symm hne))).ne' h
  · rintro rfl
    exact roundTo_zero 53

/-- The second divisor is not zero exactly when the power is not rounded to one. -/
theorem dividesByNonzero_iff (hx : 1 ≤ xmin) (ha : 1 < alpha) :
    DividesByNonzero xmin alpha ↔ GrowsInDoubles xmin alpha := by
  obtain ⟨c, hc, hbase⟩ := base_fin hx
  rw [DividesByNonzero, GrowsInDoubles, rzetaBRounded, hbase]
  cases alpha with
  | nan => exact absurd ha (Double.not_lt_nan 1)
  | ninf => exact absurd ha (Double.not_lt_ninf 1)
  | pinf =>
    have hinfinite : roundDouble ((.pinf : Double ℝ) - 1) = .pinf := rfl
    have hne : ¬ (.pinf : Double ℝ) == 0 := Bool.false_ne_true
    rw [hinfinite]
    rcases hc.eq_or_lt with rfl | hlt
    · rw [MathLibrary.pow_one_left, roundDouble_fin, roundTo_one (by norm_num), Double.one_def,
        Double.fin_sub_fin, sub_self]
      refine iff_of_false (fun h => h.2 ((rounded_eq_zero_iff le_rfl).mpr rfl)) ?_
      rw [Double.fin_lt_fin, not_lt]
      exact (lt_add_of_pos_right 1 halfUnit_pos).le
    · rw [MathLibrary.pow_pinf_right hlt]
      exact iff_of_true ⟨hne, hne⟩ Double.fin_lt_pinf
  | fin a =>
    rw [Double.one_def, Double.fin_lt_fin] at ha
    have hs : 0 < roundTo 53 (a - 1) := roundTo_pos (by norm_num) (sub_pos.mpr ha)
    have hpower : 1 ≤ c ^ roundTo 53 (a - 1) := Real.one_le_rpow hc hs.le
    have hfirst : ¬ (roundDouble (.fin (a - 1)) == (0 : Double ℝ)) = true := by
      rw [rounded_eq_zero_iff (sub_pos.mpr ha).le]
      exact (sub_pos.mpr ha).ne'
    rw [Double.one_def, Double.fin_sub_fin, and_iff_right hfirst, roundDouble_fin,
      MathLibrary.pow_fin (one_pos.trans_le hc), roundDouble_fin, Double.fin_sub_fin,
      rounded_eq_zero_iff (sub_nonneg.mpr (one_le_roundTo hpower)), sub_eq_zero,
      roundTo_eq_one_iff (by norm_num) hpower, not_le, Double.fin_lt_fin, halfUnit]

/-- Above one the exponent of the proposal is a number that is not positive. -/
theorem exponent_fin (ha : 1 < alpha) :
    ∃ r : ℝ, r ≤ 0 ∧ roundDouble (-1 / roundDouble (alpha - 1)) = .fin r := by
  cases alpha with
  | nan => exact absurd ha (Double.not_lt_nan 1)
  | ninf => exact absurd ha (Double.not_lt_ninf 1)
  | pinf => exact ⟨0, le_rfl, congrArg Double.fin (roundTo_zero 53)⟩
  | fin a =>
    rw [Double.one_def, Double.fin_lt_fin] at ha
    have hs : 0 < roundTo 53 (a - 1) := roundTo_pos (by norm_num) (sub_pos.mpr ha)
    refine ⟨roundTo 53 (-1 / roundTo 53 (a - 1)), roundTo_nonpos ?_, ?_⟩
    · exact div_nonpos_of_nonpos_of_nonneg (by norm_num) hs.le
    · rw [Double.one_def, Double.fin_sub_fin, roundDouble_fin, Double.neg_fin,
        Double.fin_div_fin hs.ne', roundDouble_fin]

/-- The proposal for a base `c` of the power. -/
noncomputable def roundedProposal (xmin : ℤ) (r c : ℝ) : ℝ :=
  roundTo 53 (roundTo 53 (c ^ r) * xmin)

theorem xmin_le_roundedProposal (hx : 1 ≤ xmin) (hx' : xmin < 2 ^ 53) {r c : ℝ} (hr : r ≤ 0)
    (hc : 0 < c) (hc' : c ≤ 1) : (xmin : ℝ) ≤ roundedProposal xmin r c := by
  have hxmin : (0 : ℝ) < xmin := by exact_mod_cast hx
  have hpower : 1 ≤ roundTo 53 (c ^ r) :=
    one_le_roundTo (Real.one_le_rpow_of_pos_of_le_one_of_nonpos hc hc' hr)
  have hmono := roundTo_le_roundTo (p := 53) (by norm_num) hxmin
    (le_mul_of_one_le_left hxmin.le hpower)
  rwa [roundTo_intCast (by rw [abs_lt]; omega)] at hmono

/-- The smaller the base, the larger the proposal. -/
theorem roundedProposal_le (hx : 1 ≤ xmin) {r c c' : ℝ} (hr : r ≤ 0) (hc : 0 < c) (h : c ≤ c') :
    roundedProposal xmin r c' ≤ roundedProposal xmin r c := by
  have hxmin : (0 : ℝ) < xmin := by exact_mod_cast hx
  have hpower : 0 < c' ^ r := Real.rpow_pos_of_pos (hc.trans_le h) r
  have hround := roundTo_le_roundTo (p := 53) (by norm_num) hpower
    (Real.rpow_le_rpow_of_nonpos hc h hr)
  exact roundTo_le_roundTo (by norm_num)
    (mul_pos (roundTo_pos (by norm_num) hpower) hxmin) (mul_le_mul_of_nonneg_right hround hxmin.le)

theorem rzetaProposal_eq (hx : 1 ≤ xmin) (hx' : xmin < 2 ^ 53) {r : ℝ}
    (hr : roundDouble (-1 / roundDouble (alpha - 1)) = .fin r) (hu : u < 1) :
    rzetaProposal roundDouble xmin alpha (.fin u) =
      .fin (roundedProposal xmin r (roundTo 53 (1 - u))) := by
  have hc : 0 < roundTo 53 (1 - u) := roundTo_pos (by norm_num) (sub_pos.mpr hu)
  rw [rzetaProposal, hr, roundDouble_xmin hx hx', Double.one_def, Double.fin_sub_fin,
    roundDouble_fin, MathLibrary.pow_fin hc, roundDouble_fin, Double.fin_mul_fin, roundDouble_fin]
  rfl

theorem toSigned_floor {y : ℝ} (hy : 0 ≤ y) :
    Double.toSigned 64 (Double.floor (.fin y)) = if y < 2 ^ 63 then some ⌊y⌋ else none := by
  have hfloor : 0 ≤ ⌊y⌋ := Int.floor_nonneg.mpr hy
  have hcast : (0 : ℝ) ≤ (⌊y⌋ : ℤ) := by exact_mod_cast hfloor
  have hfits : ⌊y⌋ < 2 ^ 63 ↔ y < 2 ^ 63 := by
    rw [Int.floor_lt]
    norm_num
  rw [Double.floor, Double.toSigned, Double.truncate, if_pos hcast, Int.floor_intCast]
  simp only [← hfits]
  split_ifs <;> first | rfl | omega

/-- The largest of the doubles below one. -/
theorem le_one_sub_halfUnit (hu : 0 < u) (hu' : u < 1) (hdouble : roundTo 53 u = u) :
    u ≤ 1 - halfUnit := by
  have h := roundTo_le_of_lt_one (K := ℝ) (p := 53) (by norm_num) hu (by rwa [hdouble])
  rwa [hdouble] at h

theorem roundTo_one_sub_halfUnit : roundTo 53 (1 - halfUnit) = 1 - halfUnit := by
  have h := roundTo_eq_self (K := ℝ) (p := 53) (2 ^ 53 - 1) (by norm_num) (-53)
  have hpow : ((2 ^ 53 - 1 : ℤ) : ℝ) * ((2 : ℕ) : ℝ) ^ (-53 : ℤ) = 1 - halfUnit := by
    rw [halfUnit, zpow_neg]
    norm_num
  rwa [hpow] at h

theorem largestDrawFits_iff (hx : 1 ≤ xmin) (hx' : xmin < 2 ^ 53) {r : ℝ}
    (hr : roundDouble (-1 / roundDouble (alpha - 1)) = .fin r) :
    LargestDrawFits xmin alpha ↔ roundedProposal xmin r halfUnit < 2 ^ 63 := by
  have hcast : ((2 : ℕ) : ℝ) ^ 63 = 2 ^ 63 := by norm_num
  rw [LargestDrawFits, hr, roundDouble_xmin hx hx', MathLibrary.pow_fin halfUnit_pos,
    roundDouble_fin, Double.fin_mul_fin, roundDouble_fin, Double.fin_lt_fin, hcast]
  rfl

/-- The inner loop ends at the first draw, whatever it is, exactly when the largest proposal fits
the integer type. -/
theorem endsAtFirstDraw_iff (hx : 1 ≤ xmin) (hx' : xmin < 2 ^ 53) (ha : 1 < alpha) :
    EndsAtFirstDraw xmin alpha ↔ LargestDrawFits xmin alpha := by
  obtain ⟨r, hr, hexponent⟩ := exponent_fin ha
  have hxmin : (0 : ℝ) ≤ xmin := by exact_mod_cast zero_le_one.trans hx
  rw [largestDrawFits_iff hx hx' hexponent]
  constructor
  · intro h
    have hbelow : 1 - halfUnit < 1 := sub_lt_self 1 halfUnit_pos
    have hpositive : 0 < 1 - halfUnit := by
      norm_num [halfUnit]
    obtain ⟨x, -, hrun⟩ := h Unit (fun _ => (.fin (1 - halfUnit), ())) () (1 - halfUnit) rfl
      (congrArg Double.fin roundTo_one_sub_halfUnit) hpositive hbelow
    have hfirst := hrun 0
    have hlow := xmin_le_roundedProposal hx hx' hr halfUnit_pos halfUnit_le_one
    rw [rzetaInner] at hfirst
    simp only [rzetaProposal_eq hx hx' hexponent hbelow, sub_sub_cancel, roundTo_halfUnit,
      toSigned_floor (hxmin.trans hlow)] at hfirst
    by_contra hlarge
    rw [if_neg hlarge] at hfirst
    cases hfirst
  · intro hfits G runif rng u hfirst hdouble hu hu'
    have hhalf : halfUnit ≤ 1 - u := by
      have h := le_one_sub_halfUnit hu hu' (Double.fin.inj hdouble)
      linarith
    have hc := roundTo_le_roundTo (p := 53) (by norm_num) halfUnit_pos hhalf
    rw [roundTo_halfUnit] at hc
    have hc' : roundTo 53 (1 - u) ≤ 1 := by
      have h := roundTo_le_roundTo (p := 53) (by norm_num) (sub_pos.mpr hu') (by linarith : 1 - u ≤ 1)
      rwa [roundTo_one (by norm_num)] at h
    have hlow := xmin_le_roundedProposal hx hx' hr (halfUnit_pos.trans_le hc) hc'
    have hhigh := (roundedProposal_le hx hr halfUnit_pos hc).trans_lt hfits
    have hfloor : xmin ≤ ⌊roundedProposal xmin r (roundTo 53 (1 - u))⌋ := Int.le_floor.mpr hlow
    refine ⟨_, hfloor, fun rounds => ?_⟩
    rw [rzetaInner]
    simp only [hfirst, rzetaProposal_eq hx hx' hexponent hu', toSigned_floor (hxmin.trans hlow),
      if_pos hhigh, convert, bind, Except.bind, if_neg hfloor.not_gt]

/-- For an exponent above one the step works where neither rounding nor conversion fails. -/
theorem rejectionWorks_iff (hx : 1 ≤ xmin) (ha : 1 < alpha) :
    RejectionWorks xmin alpha ↔ GrowsInDoubles xmin alpha ∧ LargestDrawFits xmin alpha := by
  rcases lt_or_ge xmin (2 ^ 53) with hsmall | hlarge
  · rw [← dividesByNonzero_iff hx ha, ← endsAtFirstDraw_iff hx hsmall ha, RejectionWorks,
      rzetaStart_eq hx hsmall]
    simp
  · refine iff_of_false ?_ (fun h => h.1.lt.not_ge hlarge)
    rintro ⟨start, hstart, hdivides, -⟩
    have hstart := le_rzetaStart hlarge hstart
    have hgrows := (dividesByNonzero_iff (by omega) ha).mp hdivides
    exact hgrows.lt.not_ge hstart

end Rounded

/-! ## Distributions -/

section Exponents
variable {xmin : ℤ}

/-- A zeta distribution has an exponent above one. -/
theorem hasZetaDistribution_iff {alpha : Double ℝ} (hx : 1 ≤ xmin) :
    HasZetaDistribution xmin alpha ↔ 1 < alpha := by
  have hxmin : (0 : ℝ) < xmin := by exact_mod_cast hx
  have hfirst : ((xmin : ℝ) + (0 : ℕ)) / xmin = 1 := by
    rw [Nat.cast_zero, add_zero, div_self hxmin.ne']
  have hlater : ∀ k : ℕ, 1 < ((xmin : ℝ) + (k + 1 : ℕ)) / xmin := by
    intro k
    rw [one_lt_div hxmin]
    push_cast
    linarith [(Nat.cast_nonneg k : (0 : ℝ) ≤ k)]
  cases alpha with
  | nan =>
    refine iff_of_false ?_ (Double.not_lt_nan 1)
    rintro ⟨-, w, hw, -⟩
    have hone := hw 1
    rw [Double.neg_nan, MathLibrary.pow_nan_right (hlater 0).ne'] at hone
    cases hone
  | ninf =>
    refine iff_of_false ?_ (Double.not_lt_ninf 1)
    rintro ⟨-, w, hw, -⟩
    have hone := hw 1
    have hneg : -(.ninf : Double ℝ) = .pinf := rfl
    rw [hneg, MathLibrary.pow_pinf_right (hlater 0)] at hone
    cases hone
  | pinf =>
    refine iff_of_true ⟨hx, fun k => if k = 0 then 1 else 0, ?_, ?_⟩ Double.fin_lt_pinf
    · intro k
      have hneg : -(.pinf : Double ℝ) = .ninf := rfl
      cases k with
      | zero =>
        rw [hfirst, MathLibrary.pow_one_left]
        rfl
      | succ k =>
        rw [hneg, MathLibrary.pow_ninf_right (hlater k)]
        rfl
    · exact summable_of_ne_finset_zero (s := {0}) fun k hk => if_neg (by simpa using hk)
  | fin a =>
    have hbase : ∀ k : ℕ, 0 < ((xmin : ℝ) + k) / xmin := fun k => by positivity
    have hpow : ∀ k : ℕ, MathLibrary.pow (.fin ((xmin + k : ℝ) / xmin)) (-.fin a) =
        .fin (((xmin : ℝ) + k) ^ (-a) / (xmin : ℝ) ^ (-a)) := by
      intro k
      rw [Double.neg_fin, MathLibrary.pow_fin (hbase k), Real.div_rpow (by positivity) hxmin.le]
    have hsum : Summable (fun k : ℕ => ((xmin : ℝ) + k) ^ (-a) / (xmin : ℝ) ^ (-a)) ↔ 1 < a := by
      rw [summable_div_const_iff (Real.rpow_pos_of_pos hxmin _).ne', summable_iff hxmin]
    rw [Double.one_def, Double.fin_lt_fin, ← hsum]
    constructor
    · rintro ⟨-, w, hw, hsummable⟩
      refine hsummable.congr fun k => ?_
      exact Double.fin.inj ((hw k).symm.trans (hpow k))
    · exact fun hsummable => ⟨hx, _, hpow, hsummable⟩

end Exponents

/-! ## The two guards -/

section Results
variable {xmin : ℤ}

/-- What the samplers accept works and has a distribution exactly for the parameters that they
reject, and for the exponents above one that neither the rounding of `b` nor the conversion of the
largest proposal spoils. -/
theorem rzeta_guard_iff (xmin : ℤ) (alpha : Double ℝ) :
    ((RzetaAccepts xmin alpha → RejectionWorks xmin alpha) ∧
      (¬ HasZetaDistribution xmin alpha → ¬ RzetaAccepts xmin alpha)) ↔
      alpha ≤ 0 ∨ xmin < 1 ∨
        (1 < alpha ∧ GrowsInDoubles xmin alpha ∧ LargestDrawFits xmin alpha) := by
  rw [rzetaAccepts_iff, ← or_assoc]
  by_cases hinvalid : alpha ≤ 0 ∨ xmin < 1
  · exact iff_of_true ⟨fun h => absurd hinvalid h, fun _ h => h hinvalid⟩ (Or.inl hinvalid)
  · have hx : 1 ≤ xmin := not_lt.mp (not_or.mp hinvalid).2
    rw [or_iff_right hinvalid, hasZetaDistribution_iff hx]
    constructor
    · rintro ⟨hworks, hdistribution⟩
      have ha : 1 < alpha := by
        by_contra hnone
        exact hdistribution hnone hinvalid
      exact ⟨ha, (rejectionWorks_iff hx ha).mp (hworks hinvalid)⟩
    · rintro ⟨ha, hrest⟩
      exact ⟨fun _ => (rejectionWorks_iff hx ha).mpr hrest, fun hnone => absurd ha hnone⟩

/-- An exponent between zero and one is accepted, but has no distribution. -/
theorem rzeta_guard_accepts_half :
    ¬ ((RzetaAccepts 1 (.fin (1 / 2)) → RejectionWorks 1 (.fin (1 / 2))) ∧
      (¬ HasZetaDistribution 1 (.fin (1 / 2)) → ¬ RzetaAccepts 1 (.fin (1 / 2)))) := by
  rintro ⟨-, hrejects⟩
  have hpos : ¬ (.fin (1 / 2) : Double ℝ) ≤ 0 := by
    rw [Double.zero_def, Double.fin_le_fin]
    norm_num
  refine hrejects ?_ (rzetaAccepts_iff.mpr (not_or.mpr ⟨hpos, lt_irrefl 1⟩))
  rw [hasZetaDistribution_iff le_rfl, Double.one_def, Double.fin_lt_fin]
  norm_num

/-- The proposal is converted to itself exactly when the draw stays away from one. -/
theorem zetaDraw_converted_iff {a u : ℝ} (ha : 1 < a) (hx : 1 ≤ xmin) (hx' : xmin ≤ 2 ^ 63 - 1)
    (hu : 0 ≤ u) (hu' : u < 1) :
    Double.toSigned 64 (zetaDraw xmin (.fin a) u) = some ⌊(1 - u) ^ (-1 / (a - 1)) * xmin⌋ ↔
      u < 1 - (2 ^ 63 / (xmin : ℝ)) ^ (-(a - 1)) := by
  have hlong : xmin ≤ 2 ^ 63 := by omega
  have hcast : zetaTail xmin a (2 ^ 63) = (2 ^ 63 / (xmin : ℝ)) ^ (-(a - 1)) := by
    rw [zetaTail, Int.cast_pow, Int.cast_ofNat]
  have hfits : u < 1 - (2 ^ 63 / (xmin : ℝ)) ^ (-(a - 1)) ↔ zetaProposal xmin a u < 2 ^ 63 := by
    rw [← hcast, ← not_le, ← le_zetaProposal_iff ha hx hlong hu', not_le]
  rw [hfits, zetaDraw, toSigned_zetaProposal ha hx hu hu']
  split
  · exact iff_of_true rfl (by assumption)
  · exact iff_of_false (Option.some_ne_none _).symm (by assumption)

/-- The first quarter of the draws is converted for `xmin` three. -/
theorem zetaDraw_converted_three :
    Double.toSigned 64 (zetaDraw 3 (.fin 2) (1 / 4)) =
        some ⌊(1 - 1 / 4 : ℝ) ^ (-1 / ((2 : ℝ) - 1)) * (3 : ℤ)⌋ ↔
      (1 / 4 : ℝ) < 1 - (2 ^ 63 / ((3 : ℤ) : ℝ)) ^ (-((2 : ℝ) - 1)) :=
  zetaDraw_converted_iff one_lt_two (by norm_num) (by norm_num) (by norm_num) (by norm_num)

/-- The largest draw of the Mersenne Twister below one proposes an integer of 64 bits. -/
theorem zetaDraw_not_converted :
    ¬ Double.toSigned 64 (zetaDraw 1 (.fin (3 / 2)) (4294967294 / 4294967295)) =
      some ⌊(1 - 4294967294 / 4294967295 : ℝ) ^ (-1 / ((3 / 2 : ℝ) - 1)) * (1 : ℤ)⌋ := by
  have hexp : -1 / ((3 / 2 : ℝ) - 1) = ((-2 : ℤ) : ℝ) := by norm_num
  have hlarge : 2 ^ 63 ≤ zetaProposal 1 (3 / 2) (4294967294 / 4294967295) := by
    rw [zetaProposal, hexp, Real.rpow_intCast, Int.le_floor]
    norm_num
  rw [zetaDraw, toSigned_zetaProposal (by norm_num) le_rfl (by norm_num) (by norm_num),
    if_neg hlarge.not_gt]
  exact (Option.some_ne_none _).symm

end Results
end Plfit
