import Mathlib
import Plfit.Sampling.Resampling
import Plfit.Sampling.ZetaRejection

/-! # The two parts of a synthetic data set

The samples drawn from the head of the data are below `xmin`. The continuous tail starts at
`xmin`, the discrete one at `xmin` cut to an integer.
-/
namespace Plfit
open ExactArithmetic

/-- The samples of a synthetic data set: `k` of them from the data below `xmin`, and the rest
from `xmin` on. -/
structure SplitsAt (xs : List (Double ℝ)) (xmin : Double ℝ) (numSamples k : ℕ)
    (written : List (Double ℝ)) : Prop where
  length : written.length = numSamples
  head : ∀ x ∈ written.take k, x ∈ xs ∧ x < xmin
  tail : ∀ x ∈ written.drop k, xmin ≤ x

abbrev DataResampler := Environment ℝ → List (Double ℝ) → Double ℝ → Double ℝ → ℕ → Rng →
  Exec (Status × List (Double ℝ) × Rng)

/-- Every successful run splits its samples at `xmin` where the binomial draw says. -/
def SplitsEveryRun (resample : DataResampler) (xs : List (Double ℝ)) (alpha xmin : Double ℝ)
    (numSamples : ℕ) : Prop :=
  ∀ E rng k rng' written rng'', BinomialGenerator E →
    numOrigSamples E (countSmaller xs xmin) xs.length numSamples rng = (k, rng') →
    rng'.Bounded → resample E xs alpha xmin numSamples rng = .ok (.success, written, rng'') →
    SplitsAt xs xmin numSamples k written

/-! ## The head -/

section Head
variable {xs xsHead head : List (Double ℝ)} {rng rng' : Rng}

theorem headIndex_ok {numSmaller i : ℕ}
    (h : headIndex ℝ numSmaller rng = .ok (i, rng')) :
    rng' = rng.advance 1 := by
  unfold headIndex runif at h
  obtain ⟨j, -, hj⟩ := bind_eq_ok.mp h
  cases hj
  exact runif01_snd rng

theorem drawHead_ok {numSmaller k : ℕ} (h : drawHead xsHead numSmaller k rng = .ok (head, rng')) :
    head.length = k ∧ (∀ x ∈ head, x ∈ xsHead) ∧ rng' = rng.advance k := by
  induction k generalizing rng head with
  | zero =>
    cases h
    exact ⟨rfl, by simp, (Rng.advance_zero _).symm⟩
  | succ k ih =>
    rw [drawHead] at h
    obtain ⟨⟨i, rng₁⟩, hindex, h⟩ := bind_eq_ok.mp h
    obtain rfl := headIndex_ok hindex
    obtain ⟨x, hderef, h⟩ := bind_eq_ok.mp h
    obtain ⟨⟨rest, rng₂⟩, hrest, h⟩ := bind_eq_ok.mp h
    cases h
    obtain ⟨hlength, hmem, hrng⟩ := ih hrest
    refine ⟨by rw [List.length_cons, hlength], ?_, ?_⟩
    · intro y hy
      rcases List.mem_cons.mp hy with rfl | hy
      · exact List.mem_of_getElem? (deref_eq_ok.mp hderef)
      · exact hmem y hy
    · rw [hrng, ← Rng.advance_succ]

theorem numOrigSamples_spec {E : Environment ℝ} (hbinom : BinomialGenerator E) (hne : xs ≠ [])
    {xmin : Double ℝ} {numSamples k : ℕ}
    (hk : numOrigSamples E (countSmaller xs xmin) xs.length numSamples rng = (k, rng')) :
    k ≤ numSamples ∧ (countSmaller xs xmin = 0 → k = 0) ∧
      (countSmaller xs xmin = xs.length → k = numSamples) := by
  have hlength : (xs.length : ℝ) ≠ 0 := by
    exact_mod_cast (List.length_pos_iff.mpr hne).ne'
  unfold numOrigSamples at hk
  have hk' := congrArg Prod.fst hk
  refine ⟨?_, ?_, ?_⟩
  · rw [← show _ = k from hk']
    exact hbinom.le numSamples _ rng
  · intro hcount
    rw [hcount, Double.natCast_def, Double.natCast_def, Double.fin_div_fin hlength,
      Nat.cast_zero, zero_div] at hk'
    exact hk'.symm.trans (hbinom.zero numSamples rng)
  · intro hcount
    rw [hcount, Double.natCast_def, Double.fin_div_fin hlength, div_self hlength] at hk'
    exact hk'.symm.trans (hbinom.one numSamples rng)

theorem head_spec {xmin : Double ℝ} {k : ℕ} (hzero : countSmaller xs xmin = 0 → k = 0)
    (h : drawHead (extractSmaller xs xmin).1 (countSmaller xs xmin) k rng = .ok (head, rng')) :
    head.length = k ∧ (∀ x ∈ head, x ∈ xs ∧ x < xmin) ∧ rng' = rng.advance k := by
  obtain ⟨hlength, hmem, hrng⟩ := drawHead_ok h
  refine ⟨hlength, ?_, hrng⟩
  intro x hx
  have hfilter : xs.filter (fun x => x < xmin) ≠ [] := by
    intro hempty
    have hcount : countSmaller xs xmin = 0 := by
      rw [countSmaller, List.countP_eq_length_filter, hempty, List.length_nil]
    rw [List.length_eq_zero_iff.mp (hlength.trans (hzero hcount))] at hx
    cases hx
  have hx' := hmem x hx
  rw [extractSmaller, if_neg hfilter] at hx'
  simpa using hx'

/-- A head and a tail of the right lengths. -/
theorem SplitsAt.append {xmin : Double ℝ} {numSamples k : ℕ} {tail : List (Double ℝ)}
    (hk : k ≤ numSamples) (hhead : head.length = k) (htail : tail.length = numSamples - k)
    (hsmaller : ∀ x ∈ head, x ∈ xs ∧ x < xmin) (hlarger : ∀ x ∈ tail, xmin ≤ x) :
    SplitsAt xs xmin numSamples k (head ++ tail) := by
  subst hhead
  refine ⟨?_, ?_, ?_⟩
  · rw [List.length_append, htail]
    omega
  · rw [List.take_left]
    exact hsmaller
  · rw [List.drop_left]
    exact hlarger

end Head

/-! ## The continuous tail -/

section Pareto
variable {xmin : ℝ}

/-- A power of the complement of a uniform number is not below one, when it is a number. -/
theorem le_pow_mul {u gamma : ℝ} (hu : 0 ≤ u) (hu' : u ≤ 1) (hgamma : gamma < 0)
    (hx : 0 < xmin) :
    (.fin xmin : Double ℝ) ≤ MathLibrary.pow (1 - .fin u) (.fin gamma) * .fin xmin := by
  rw [Double.one_def, Double.fin_sub_fin]
  rcases hu'.lt_or_eq with hlt | rfl
  · rw [MathLibrary.pow_fin (sub_pos.mpr hlt), Double.fin_mul_fin, Double.fin_le_fin]
    apply le_mul_of_one_le_left hx.le
    exact Real.one_le_rpow_of_pos_of_le_one_of_nonpos (sub_pos.mpr hlt) (by linarith) hgamma.le
  · have hpow : MathLibrary.pow (.fin (1 - 1)) (.fin gamma) = (.pinf : Double ℝ) := by
      change RealMath.pow _ _ = _
      simp [RealMath.pow, RealMath.powFinite, hgamma, hgamma.ne]
    have hmul : (.pinf : Double ℝ) * .fin xmin = .pinf := by
      change Double.ofSign (1 * SignType.sign xmin) = _
      rw [sign_pos hx]
      rfl
    rw [hpow, hmul]
    exact Double.fin_le_pinf

theorem rparetoLoop_spec {gamma : ℝ} (hgamma : gamma < 0) (hx : 0 < xmin) (n : ℕ) {rng : Rng}
    (h : rng.Bounded) :
    (rparetoLoop (.fin xmin) (.fin gamma) n rng).1.length = n ∧
      ∀ x ∈ (rparetoLoop (.fin xmin) (.fin gamma) n rng).1, (.fin xmin : Double ℝ) ≤ x := by
  induction n generalizing rng with
  | zero => exact ⟨rfl, by simp [rparetoLoop]⟩
  | succ n ih =>
    have hmax : (rng.maximum : ℝ) ≠ 0 := by exact_mod_cast h.1.ne'
    have hfirst : (runif01 rng : Double ℝ × Rng).1 =
        .fin ((rng.output 0 : ℝ) / (rng.maximum : ℝ)) := by
      rw [runif01_fst, Double.natCast_def, Double.natCast_def, Double.fin_div_fin hmax]
    obtain ⟨hu, hu'⟩ := uniform_bounds (K := ℝ) h
    obtain ⟨hlength, hle⟩ := ih (h.advance 1)
    simp only [rparetoLoop, hfirst, runif01_snd]
    refine ⟨by rw [List.length_cons, hlength], ?_⟩
    intro x hmem
    rcases List.mem_cons.mp hmem with rfl | hmem
    · exact le_pow_mul hu hu' hgamma hx
    · exact hle x hmem

theorem rparetoArray_spec {alpha : ℝ} (ha : 0 < alpha) (hx : 0 < xmin) (n : ℕ) {rng : Rng}
    (h : rng.Bounded) :
    (rparetoArray (.fin xmin) (.fin alpha) n rng).2.1.length = n ∧
      ∀ x ∈ (rparetoArray (.fin xmin) (.fin alpha) n rng).2.1, (.fin xmin : Double ℝ) ≤ x := by
  have hvalid : ¬ ((.fin alpha : Double ℝ) ≤ 0 ∨ (.fin xmin : Double ℝ) ≤ 0) := by
    simp [ha, hx]
  unfold rparetoArray
  rw [if_neg hvalid]
  rcases Nat.eq_zero_or_pos n with rfl | hn
  · exact ⟨rfl, by simp⟩
  · rw [if_neg hn.ne']
    have hgamma : (-1 : Double ℝ) / .fin alpha = .fin (-1 / alpha) := by
      rw [Double.one_def, Double.neg_fin, Double.fin_div_fin ha.ne']
    rw [hgamma]
    exact rparetoLoop_spec (div_neg_of_neg_of_pos (by norm_num) ha) hx n h

end Pareto

/-! ## The discrete tail -/

section Zeta
variable {E : Environment ℝ} {xmin : ℤ} {alpha b : Double ℝ}

/-- The rejection loops end with an integer that is not below their threshold. -/
theorem rzetaReject_ok {c : Double ℝ} {rounds : ℕ} {rng rng' : Rng} {x : ℤ}
    (h : rzetaReject xmin alpha b c rounds rng = .ok (x, rng')) : xmin ≤ x := by
  induction rounds generalizing rng with
  | zero => cases h
  | succ rounds ih =>
    rw [rzetaReject_succ] at h
    obtain ⟨sample, hround, h⟩ := bind_eq_ok.mp h
    cases sample with
    | none => exact ih h
    | some y =>
      cases h
      obtain ⟨z, -, hround⟩ := bind_eq_ok.mp hround
      dsimp only at hround
      split_ifs at hround with hlow
      · cases hround
      · cases hround
      · cases hround
        exact not_lt.mp hlow

theorem rzetaLoop_spec {n : ℕ} {rng rng' : Rng} {written : List (Double ℝ)}
    (h : rzetaLoop E xmin alpha b n rng = .ok (.success, written, rng')) :
    written.length = n ∧ ∀ x ∈ written, ∃ z : ℤ, x = z ∧ xmin ≤ z := by
  induction n generalizing rng written with
  | zero =>
    cases h
    exact ⟨rfl, by simp⟩
  | succ n ih =>
    rw [rzetaLoop] at h
    obtain ⟨⟨z, rng₁⟩, hreject, h⟩ := bind_eq_ok.mp h
    dsimp only at h
    split_ifs at h with hneg
    · cases h
    · obtain ⟨⟨status, rest, rng₂⟩, hrest, h⟩ := bind_eq_ok.mp h
      cases h
      obtain ⟨hlength, hmem⟩ := ih hrest
      refine ⟨by rw [List.length_cons, hlength], ?_⟩
      intro x hx
      rcases List.mem_cons.mp hx with rfl | hx
      · exact ⟨z, rfl, rzetaReject_ok hreject⟩
      · exact hmem x hx

theorem rzetaArray_spec {n : ℕ} {rng rng' : Rng} {written : List (Double ℝ)}
    (h : rzetaArray E xmin alpha n rng = .ok (.success, written, rng')) :
    written.length = n ∧ ∀ x ∈ written, ∃ z : ℤ, x = z ∧ xmin ≤ z := by
  unfold rzetaArray at h
  split_ifs at h with hinvalid hn
  · cases h
  · cases h
    exact ⟨hn.symm, by simp⟩
  · exact rzetaLoop_spec h

/-- Two draws of zero give the threshold itself. -/
theorem rzetaReject_of_zeros {alpha : ℝ} (ha : 1 < alpha) (hx : 1 ≤ xmin) (hfits : xmin < 2 ^ 63)
    {rounds : ℕ} (hrounds : 0 < rounds) {rng : Rng} (hu : (runif01 rng).1 = (.fin 0 : Double ℝ))
    (hv : (runif01 (rng.advance 1)).1 = (.fin 0 : Double ℝ)) :
    rzetaReject xmin (.fin alpha) (rzetaB xmin (.fin alpha))
      (1 / (rzetaB xmin (.fin alpha) - 1)) rounds rng = .ok (xmin, rng.advance 2) := by
  obtain ⟨rounds, rfl⟩ := Nat.exists_eq_add_of_lt hrounds
  have hproposal : zetaProposal xmin alpha 0 = xmin := by
    rw [zetaProposal, sub_zero, Real.one_rpow, one_mul, Int.floor_intCast]
  rw [zero_add, rzetaReject_succ, hu, hv, rzetaRound_fin ha hx le_rfl one_pos
    (by rwa [hproposal]), hproposal, if_pos (zetaRatio_pos ha hx le_rfl).le]
  rfl

def zerosRng : Rng := .builtin 1 (fun _ => 0)

theorem rzetaArray_zerosRng {alpha : ℝ} (ha : 1 < alpha) (hx : 1 ≤ xmin) (hfits : xmin < 2 ^ 63)
    (hrounds : 0 < E.rejections) (n : ℕ) :
    rzetaArray E xmin (.fin alpha) n zerosRng =
      .ok (.success, List.replicate n (xmin : Double ℝ), zerosRng) := by
  have hadvance : ∀ k, zerosRng.advance k = zerosRng := by
    intro k
    induction k with
    | zero => exact Rng.advance_zero _
    | succ k ih =>
      rw [Rng.advance_succ]
      exact ih
  have hzero : (runif01 zerosRng).1 = (.fin 0 : Double ℝ) := by
    rw [runif01_fst]
    change (.fin ((0 : ℕ) : ℝ) / .fin ((1 : ℕ) : ℝ) : Double ℝ) = _
    rw [Double.fin_div_fin (by simp)]
    simp
  have hreject := rzetaReject_of_zeros ha hx hfits hrounds hzero (by rwa [hadvance])
  have hloop : rzetaLoop E xmin (.fin alpha) (rzetaB xmin (.fin alpha)) n zerosRng =
      .ok (.success, List.replicate n (xmin : Double ℝ), zerosRng) := by
    induction n with
    | zero => rfl
    | succ n ih =>
      rw [hadvance] at hreject
      rw [rzetaLoop, hreject]
      simp only [bind, Except.bind, ih, if_neg (by omega : ¬ xmin < 0)]
      rfl
  have hvalid : ¬ ((.fin alpha : Double ℝ) ≤ 0 ∨ xmin < 1) := by
    simp [one_pos.trans ha, hx]
  rw [rzetaArray, if_neg hvalid]
  split_ifs with hn
  · rw [hn]
    rfl
  · exact hloop

end Zeta

/-! ## Both resamplers -/

section Resamplers
variable {xs : List (Double ℝ)} {alpha xmin : ℝ} {numSamples : ℕ}

theorem resampleContinuous_splits (hne : xs ≠ []) (ha : 1 < alpha) (hx : 1 ≤ xmin) :
    SplitsEveryRun resampleContinuous xs (.fin alpha) (.fin xmin) numSamples := by
  intro E rng k rng' written rng'' hbinom hk hbounded hrun
  obtain ⟨hle, hzero, -⟩ := numOrigSamples_spec hbinom hne hk
  have hsplit : (extractSmaller xs (.fin xmin)).2 = countSmaller xs (.fin xmin) := rfl
  unfold resampleContinuous iResampleContinuous at hrun
  simp only [hsplit, hk] at hrun
  obtain ⟨⟨head, rng₁⟩, hdraw, hrun⟩ := bind_eq_ok.mp hrun
  obtain ⟨hlength, hhead, rfl⟩ := head_spec hzero hdraw
  obtain ⟨htail, hlarger⟩ := rparetoArray_spec (sub_pos.mpr ha) (one_pos.trans_le hx)
    (numSamples - k) (hbounded.advance k)
  rw [Double.one_def, Double.fin_sub_fin, sizeSub_of_le hle] at hrun
  dsimp only at hrun
  generalize rparetoArray (.fin xmin) (.fin (alpha - 1)) (numSamples - k) (rng'.advance k) = drawn
    at hrun htail hlarger
  obtain ⟨status, tail, rng₂⟩ := drawn
  cases hrun
  exact SplitsAt.append hle hlength htail hhead hlarger

/-- The discrete resampler splits at the integer part of `xmin`. -/
theorem resampleDiscrete_splits (hne : xs ≠ []) (hx : 1 ≤ xmin)
    (hthreshold : (∃ z : ℤ, xmin = z) ∨ numSamples = 0 ∨ ∀ x ∈ xs, x < .fin xmin) :
    SplitsEveryRun resampleDiscrete xs (.fin alpha) (.fin xmin) numSamples := by
  intro E rng k rng' written rng'' hbinom hk hbounded hrun
  obtain ⟨hle, hzero, hall⟩ := numOrigSamples_spec hbinom hne hk
  have hsplit : (extractSmaller xs (.fin xmin)).2 = countSmaller xs (.fin xmin) := rfl
  unfold resampleDiscrete iResampleDiscrete at hrun
  simp only [hsplit, hk] at hrun
  obtain ⟨⟨head, rng₁⟩, hdraw, hrun⟩ := bind_eq_ok.mp hrun
  obtain ⟨hlength, hhead, rfl⟩ := head_spec hzero hdraw
  obtain ⟨threshold, hconvert, hrun⟩ := bind_eq_ok.mp hrun
  obtain ⟨⟨status, tail, rng₂⟩, htail, hrun⟩ := bind_eq_ok.mp hrun
  rw [sizeSub_of_le hle] at htail
  cases hrun
  obtain ⟨hlength', hmem⟩ := rzetaArray_spec htail
  apply SplitsAt.append hle hlength hlength' hhead
  intro x hxtail
  obtain ⟨z, rfl, hz⟩ := hmem x hxtail
  rcases hthreshold with ⟨w, rfl⟩ | hnone | hsmaller
  · -- an integer is its own integer part
    have hw : threshold = w := by
      have hnonneg : (0 : ℝ) ≤ w := zero_le_one.trans hx
      rw [Double.toSigned, Double.truncate, if_pos hnonneg, Int.floor_intCast] at hconvert
      split_ifs at hconvert
      · cases hconvert
        rfl
      · cases hconvert
    rw [Double.intCast_def, Double.fin_le_fin, ← hw]
    exact_mod_cast hz
  · have htail' : tail.length = 0 := by omega
    rw [List.length_eq_zero_iff.mp htail'] at hxtail
    cases hxtail
  · have hcount : countSmaller xs (.fin xmin) = xs.length := by
      rw [countSmaller, List.countP_eq_length]
      simpa using hsmaller
    have htail' : tail.length = 0 := by
      have := hall hcount
      omega
    rw [List.length_eq_zero_iff.mp htail'] at hxtail
    cases hxtail

noncomputable def smallestBinomial : Environment ℝ :=
  { idleEnvironment with
    rbinom := fun n p rng => (if p == 1 then n else 0, rng)
    rejections := 1 }

theorem binomialGenerator_smallest : BinomialGenerator smallestBinomial where
  le := by
    intro n p rng
    change (if p == 1 then n else 0) ≤ n
    split
    · exact le_rfl
    · exact Nat.zero_le n
  zero := by
    intro n rng
    change (if (.fin 0 : Double ℝ) == .fin 1 then n else 0) = 0
    rw [if_neg (by simp)]
  one := by
    intro n rng
    change (if (.fin 1 : Double ℝ) == .fin 1 then n else 0) = n
    rw [if_pos (by simp)]
  twister := fun n p mt => ⟨mt, rfl⟩

theorem numOrigSamples_smallest {xmin : Double ℝ} (hne : xs ≠ []) (hsome : ¬ ∀ x ∈ xs, x < xmin)
    (rng : Rng) :
    numOrigSamples smallestBinomial (countSmaller xs xmin) xs.length numSamples rng =
      (0, rng) := by
  have hlength : (xs.length : ℝ) ≠ 0 := by
    exact_mod_cast (List.length_pos_iff.mpr hne).ne'
  have hcount : ((countSmaller xs xmin : ℕ) : ℝ) / xs.length ≠ 1 := by
    rw [Ne, div_eq_one_iff_eq hlength, Nat.cast_inj, countSmaller, List.countP_eq_length]
    simpa using hsome
  unfold numOrigSamples
  rw [Double.natCast_def, Double.natCast_def, Double.fin_div_fin hlength]
  change (if (.fin _ : Double ℝ) == .fin 1 then numSamples else 0, rng) = _
  rw [if_neg (by simpa using hcount)]

/-- Without samples from the head, draws of zero fill the tail with the integer part. -/
theorem resampleDiscrete_smallest (hne : xs ≠ []) (hx : 1 ≤ xmin) (hfits : xmin < 2 ^ 63)
    (hsome : ¬ ∀ x ∈ xs, x < .fin xmin) {rng rng' : Rng}
    {tail : List (Double ℝ)}
    (htail : rzetaArray smallestBinomial ⌊xmin⌋ (.fin alpha) numSamples rng =
      .ok (.success, tail, rng')) :
    resampleDiscrete smallestBinomial xs (.fin alpha) (.fin xmin) numSamples rng =
      .ok (.success, tail, rng') := by
  have hsplit : (extractSmaller xs (.fin xmin)).2 = countSmaller xs (.fin xmin) := rfl
  have hfloor : ⌊xmin⌋ < 2 ^ 63 := by
    rw [Int.floor_lt]
    exact_mod_cast hfits
  have hpos : 1 ≤ ⌊xmin⌋ := by
    rw [Int.le_floor]
    exact_mod_cast hx
  have hconvert : convert (Double.toSigned 64 (.fin xmin)) = .ok ⌊xmin⌋ := by
    rw [Double.toSigned, Double.truncate, if_pos (zero_le_one.trans hx), if_pos ⟨by omega, hfloor⟩]
    rfl
  unfold resampleDiscrete iResampleDiscrete
  simp only [hsplit, numOrigSamples_smallest hne hsome, drawHead, bind, Except.bind, hconvert,
    sizeSub_of_le (Nat.zero_le _), Nat.sub_zero, htail]
  rfl

theorem not_le_floor (hx : ¬ ∃ z : ℤ, xmin = z) :
    ¬ (.fin xmin : Double ℝ) ≤ ((⌊xmin⌋ : ℤ) : Double ℝ) := by
  rw [Double.intCast_def, Double.fin_le_fin]
  intro hle
  exact hx ⟨⌊xmin⌋, le_antisymm hle (Int.floor_le xmin)⟩

/-- The continuous resampler always splits at `xmin`, the discrete one when `xmin` is an
integer or when it draws no tail at all. From `2 ^ 63` on no `long int` holds `xmin`. -/
theorem resample_splits_iff (hne : xs ≠ []) (ha : 1 < alpha) (hx : 1 ≤ xmin) (numSamples : ℕ) :
    SplitsEveryRun resampleContinuous xs (.fin alpha) (.fin xmin) numSamples ∧
      (SplitsEveryRun resampleDiscrete xs (.fin alpha) (.fin xmin) numSamples ↔
        (∃ z : ℤ, xmin = z) ∨ 2 ^ 63 ≤ xmin ∨ numSamples = 0 ∨ ∀ x ∈ xs, x < .fin xmin) := by
  refine ⟨resampleContinuous_splits hne ha hx, ?_, ?_⟩
  · intro hsplits
    by_contra hnot
    push Not at hnot
    obtain ⟨hinteger, hfits, hdraws, x, hmem, hnlt⟩ := hnot
    have hsome : ¬ ∀ x ∈ xs, x < .fin xmin := fun hall => hnlt (hall x hmem)
    have hpos : 1 ≤ ⌊xmin⌋ := by
      rw [Int.le_floor]
      exact_mod_cast hx
    have hfloor : ⌊xmin⌋ < 2 ^ 63 := by
      rw [Int.floor_lt]
      exact_mod_cast hfits
    have hbounded : zerosRng.Bounded := ⟨Nat.one_pos, fun _ => Nat.zero_le 1⟩
    have hrun := resampleDiscrete_smallest hne hx hfits hsome
      (rzetaArray_zerosRng (E := smallestBinomial) ha hpos hfloor Nat.one_pos numSamples)
    have hsplit := hsplits _ _ 0 zerosRng _ _ binomialGenerator_smallest
      (numOrigSamples_smallest hne hsome zerosRng) hbounded hrun
    have hfirst : ((⌊xmin⌋ : ℤ) : Double ℝ) ∈
        (List.replicate numSamples ((⌊xmin⌋ : ℤ) : Double ℝ)).drop 0 := by
      rw [List.drop_zero, List.mem_replicate]
      exact ⟨hdraws, rfl⟩
    exact not_le_floor (not_exists.mpr hinteger) (hsplit.tail _ hfirst)
  · rintro (hinteger | hbig | hnone)
    · exact resampleDiscrete_splits hne hx (Or.inl hinteger)
    · -- the conversion of `xmin` has no result
      intro E rng k rng' written rng'' hbinom hk hbounded hrun
      have hfloor : (2 : ℤ) ^ 63 ≤ ⌊xmin⌋ := by
        rw [Int.le_floor]
        exact_mod_cast hbig
      have hsplit : (extractSmaller xs (.fin xmin)).2 = countSmaller xs (.fin xmin) := rfl
      unfold resampleDiscrete iResampleDiscrete at hrun
      simp only [hsplit, hk] at hrun
      obtain ⟨⟨head, rng₁⟩, -, hrun⟩ := bind_eq_ok.mp hrun
      obtain ⟨threshold, hconvert, -⟩ := bind_eq_ok.mp hrun
      rw [Double.toSigned, Double.truncate, if_pos (zero_le_one.trans hx),
        if_neg (fun h => hfloor.not_gt h.2)] at hconvert
      cases hconvert
    · exact resampleDiscrete_splits hne hx (Or.inr hnone)

theorem resample_splits_two :
    SplitsEveryRun resampleContinuous [.fin 1, .fin 2] (.fin 3) (.fin 2) 1 ∧
      SplitsEveryRun resampleDiscrete [.fin 1, .fin 2] (.fin 3) (.fin 2) 1 := by
  have hsplits := resample_splits_iff (by simp : [(.fin 1 : Double ℝ), .fin 2] ≠ [])
    (by norm_num : (1 : ℝ) < 3) (by norm_num : (1 : ℝ) ≤ 2) 1
  exact ⟨hsplits.1, hsplits.2.mpr (Or.inl ⟨2, by norm_num⟩)⟩

/-- With `xmin` between two integers the tail may start below it. -/
theorem resampleDiscrete_below_xmin :
    ∃ mt rng', resampleDiscrete smallestBinomial [.fin 1, .fin 2] (.fin 3) (.fin (3 / 2)) 1
        (.twister mt) = .ok (.success, [.fin 1], rng') ∧
      numOrigSamples smallestBinomial (countSmaller [(.fin 1 : Double ℝ), .fin 2] (.fin (3 / 2))) 2 1
        (.twister mt) = (0, .twister mt) ∧
      ¬ SplitsAt [.fin 1, .fin 2] (.fin (3 / 2)) 1 0 [.fin 1] := by
  obtain ⟨mt, hzero, hzero'⟩ := exists_outputs 0 0
  have hne : [(.fin 1 : Double ℝ), .fin 2] ≠ [] := by simp
  have hsome : ¬ ∀ x ∈ [(.fin 1 : Double ℝ), .fin 2], x < .fin (3 / 2) := by
    intro hall
    have htwo := Double.fin_lt_fin.mp (hall (.fin 2) (by simp))
    norm_num at htwo
  have hfloor : ⌊(3 / 2 : ℝ)⌋ = 1 := by norm_num
  have hmax : ((mtRandMax : ℕ) : ℝ) ≠ 0 := by simp [mtRandMax]
  have hdraw : ∀ rng : Rng, rng.output 0 = 0 → rng.maximum = mtRandMax →
      (runif01 rng).1 = (.fin 0 : Double ℝ) := by
    intro rng hfirst hlargest
    rw [runif01_fst, hfirst, hlargest, Double.natCast_def, Double.natCast_def,
      Double.fin_div_fin hmax, Nat.cast_zero, zero_div]
  have hu := hdraw (.twister mt) (by simp [Rng.output, hzero]) rfl
  have hv := hdraw ((Rng.twister mt).advance 1)
    (by rw [Rng.output_advance_one]; simp [Rng.output, hzero'])
    (Rng.maximum_advance _ 1)
  have hreject := rzetaReject_of_zeros (by norm_num : (1 : ℝ) < 3) (le_refl (1 : ℤ))
    (by norm_num) Nat.one_pos hu hv
  have htail : rzetaArray smallestBinomial ⌊(3 / 2 : ℝ)⌋ (.fin 3) 1 (.twister mt) =
      .ok (.success, [.fin 1], (Rng.twister mt).advance 2) := by
    have hvalid : ¬ ((.fin 3 : Double ℝ) ≤ 0 ∨ (1 : ℤ) < 1) := by simp
    have hreject' : rzetaReject 1 (.fin (3 : ℝ)) (rzetaB 1 (.fin 3))
        (1 / (rzetaB 1 (.fin 3) - 1)) smallestBinomial.rejections (.twister mt) =
          .ok (1, (Rng.twister mt).advance 2) := hreject
    rw [hfloor, rzetaArray, if_neg hvalid, if_neg Nat.one_ne_zero, rzetaLoop, hreject']
    simp only [bind, Except.bind, rzetaLoop, if_neg (by norm_num : ¬ (1 : ℤ) < 0)]
    simp [pure, Except.pure]
  refine ⟨mt, _, resampleDiscrete_smallest hne (by norm_num) (by norm_num) hsome htail,
    numOrigSamples_smallest hne hsome _, ?_⟩
  intro hsplit
  have hle := hsplit.tail (.fin 1) (by simp)
  rw [Double.fin_le_fin] at hle
  norm_num at hle

end Resamplers

end Plfit
