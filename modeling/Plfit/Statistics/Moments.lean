import Mathlib
import Plfit.Library.SampleMoments
import Plfit.Model.Stats

/-! # The moments of a sample

With two samples or more the accumulators hold the sums of the powers of the deviations. The higher
moments are divided by powers of the variance, which is not looked at before.
-/
namespace Plfit
open ExactArithmetic SampleMoments

section Passes
variable {K : Type} [Field K] [LinearOrder K]

omit [LinearOrder K] in
theorem foldl_add_sum (ys : List K) (s : K) :
    (ys.map Double.fin).foldl (fun sum x => sum + x) (.fin s) = .fin (s + ys.sum) := by
  induction ys generalizing s with
  | nil => simp
  | cons y ys ih => rw [List.map_cons, List.foldl_cons, Double.fin_add_fin, ih, List.sum_cons, add_assoc]

theorem foldl_momentSums (m : K) (ys : List K) (e v s k : K) :
    (ys.map Double.fin).foldl (MomentSums.add (.fin m))
        { error := .fin e, variance0 := .fin v, skewness0 := .fin s, kurtosis0 := .fin k } =
      { error := .fin (e + (ys.map fun y => (y - m) ^ 1).sum)
        variance0 := .fin (v + (ys.map fun y => (y - m) ^ 2).sum)
        skewness0 := .fin (s + (ys.map fun y => (y - m) ^ 3).sum)
        kurtosis0 := .fin (k + (ys.map fun y => (y - m) ^ 4).sum) } := by
  induction ys generalizing e v s k with
  | nil => simp
  | cons y ys ih =>
    have hstep : MomentSums.add (.fin m)
        { error := .fin e, variance0 := .fin v, skewness0 := .fin s, kurtosis0 := .fin k }
          (.fin y) =
        { error := .fin (e + (y - m) ^ 1), variance0 := .fin (v + (y - m) ^ 2)
          skewness0 := .fin (s + (y - m) ^ 3), kurtosis0 := .fin (k + (y - m) ^ 4) } := by
      simp only [MomentSums.add, Double.fin_sub_fin, Double.fin_mul_fin, Double.fin_add_fin]
      congr 2 <;> ring
    simp only [List.map_cons, List.foldl_cons, hstep, ih, List.sum_cons, add_assoc]

end Passes

section Real
variable {ys : List ℝ} {request : MomentsRequest}

noncomputable def skewness (ys : List ℝ) : ℝ :=
  if centralMoment 2 ys = 0 then 0 else centralMoment 3 ys / centralMoment 2 ys ^ (3 / 2 : ℝ)

noncomputable def kurtosis (ys : List ℝ) : ℝ :=
  if centralMoment 2 ys = 0 then 0 else centralMoment 4 ys / centralMoment 2 ys ^ 2

/-- Every requested output holds its moment, and nothing is divided by zero. -/
structure MomentsDefined (request : MomentsRequest) (ys : List ℝ) (out : Moments ℝ) : Prop where
  divisors : ∀ d ∈ out.divisors, ¬ d == 0
  mean : out.mean = storeIf request.mean (.fin (mean ys))
  variance : out.variance = storeIf request.variance (.fin (variance ys))
  skewness : out.skewness = storeIf request.skewness (.fin (skewness ys))
  kurtosis : out.kurtosis = storeIf request.kurtosis (.fin (kurtosis ys))

theorem momentsPasses_fin (request : MomentsRequest) (hlen : 2 ≤ ys.length) :
    momentsPasses request (ys.map .fin) =
      if !request.variance && !request.skewness && !request.kurtosis then
        { mean := storeIf request.mean (.fin (mean ys)), variance := none, skewness := none
          kurtosis := none, divisors := [.fin ys.length] }
      else
        let n : Double ℝ := .fin ys.length
        let skewnessDivisor : Double ℝ :=
          .fin (ys.length * centralMoment 2 ys * Real.sqrt (centralMoment 2 ys))
        let kurtosisDivisor : Double ℝ :=
          .fin (ys.length * centralMoment 2 ys * centralMoment 2 ys)
        { mean := storeIf request.mean (.fin (mean ys))
          variance := storeIf request.variance (.fin (variance ys))
          skewness := storeIf request.skewness (.fin (powerSum 3 ys) / skewnessDivisor)
          kurtosis := storeIf request.kurtosis (.fin (powerSum 4 ys) / kurtosisDivisor)
          divisors := [n, n] ++ (storeIf request.variance (.fin (ys.length - 1 : ℝ))).toList ++ [n] ++
            (storeIf request.skewness skewnessDivisor).toList ++
            (storeIf request.kurtosis kurtosisDivisor).toList } := by
  have hn : (ys.length : ℝ) ≠ 0 := by
    have : ys.length ≠ 0 := by omega
    exact_mod_cast this
  have hn1 : (ys.length : ℝ) - 1 ≠ 0 := by
    have : (2 : ℝ) ≤ ys.length := by exact_mod_cast hlen
    linarith
  have hpred : ((ys.length - 1 : ℕ) : ℝ) = ys.length - 1 := by
    rw [Nat.cast_sub (by omega), Nat.cast_one]
  have hmean : (ys.map Double.fin).foldl (fun sum x => sum + x) (.fin 0) / (.fin ys.length) =
      (.fin (mean ys) : Double ℝ) := by
    rw [foldl_add_sum, zero_add, Double.fin_div_fin hn, mean]
  have hcentral : (.fin (powerSum 2 ys) : Double ℝ) / .fin ys.length =
      .fin (centralMoment 2 ys) := Double.fin_div_fin hn
  have hsums := foldl_momentSums (mean ys) ys 0 0 0 0
  simp only [zero_add] at hsums
  have herror : (ys.map fun y => (y - mean ys) ^ 1).sum = 0 := powerSum_one ys
  rw [herror] at hsums
  have hcorrected : (.fin ((ys.map fun y => (y - mean ys) ^ 2).sum) : Double ℝ) -
      .fin (0 * 0) / .fin ys.length = .fin (powerSum 2 ys) := by
    rw [mul_zero, Double.fin_div_fin hn, zero_div, Double.fin_sub_fin, sub_zero]
    rfl
  have hvariance : (.fin (powerSum 2 ys) : Double ℝ) / .fin (ys.length - 1) = .fin (variance ys) :=
    Double.fin_div_fin hn1
  have hsqrt : MathLibrary.sqrt (.fin (centralMoment 2 ys)) = .fin (Real.sqrt (centralMoment 2 ys)) :=
    MathLibrary.sqrt_fin (div_nonneg (powerSum_two_nonneg ys) (Nat.cast_nonneg _))
  unfold momentsPasses
  simp only [List.length_map, Double.natCast_def, sizeSub_of_le (by omega : 1 ≤ ys.length), hpred,
    Double.zero_def, hmean, hsums, hcorrected, hcentral, hvariance, hsqrt, Double.fin_mul_fin]
  rfl

theorem not_fin_beq_zero {x : ℝ} (hx : x ≠ 0) : ¬ (.fin x : Double ℝ) == 0 := by
  simpa using hx

theorem mem_toList_storeIf {requested : Bool} {x d : Double ℝ} :
    d ∈ (storeIf requested x).toList ↔ requested = true ∧ d = x := by
  cases requested with
  | false => simp [storeIf]
  | true => simp [storeIf]

theorem nothing_requested {a b c : Bool} (h : (!a && !b && !c) = true) :
    a = false ∧ b = false ∧ c = false := by
  simpa [and_assoc] using h

theorem skewness_eq (hlen : (ys.length : ℝ) ≠ 0) (hvaries : 0 < centralMoment 2 ys) :
    (.fin (powerSum 3 ys) : Double ℝ) /
        .fin (ys.length * centralMoment 2 ys * Real.sqrt (centralMoment 2 ys)) =
      .fin (skewness ys) := by
  have hsqrt : 0 < Real.sqrt (centralMoment 2 ys) := Real.sqrt_pos.mpr hvaries
  have hexp : (3 / 2 : ℝ) = 1 + 1 / 2 := by norm_num
  have hpow : centralMoment 2 ys ^ (3 / 2 : ℝ) =
      centralMoment 2 ys * Real.sqrt (centralMoment 2 ys) := by
    rw [hexp, Real.rpow_add hvaries, Real.rpow_one, Real.sqrt_eq_rpow]
  have hthird : centralMoment 3 ys = powerSum 3 ys / ys.length := rfl
  rw [Double.fin_div_fin (mul_ne_zero (mul_ne_zero hlen hvaries.ne') hsqrt.ne'), skewness,
    if_neg hvaries.ne', hpow, hthird, div_div, ← mul_assoc]

theorem kurtosis_eq (hlen : (ys.length : ℝ) ≠ 0) (hvaries : 0 < centralMoment 2 ys) :
    (.fin (powerSum 4 ys) : Double ℝ) /
        .fin (ys.length * centralMoment 2 ys * centralMoment 2 ys) = .fin (kurtosis ys) := by
  have hfourth : centralMoment 4 ys = powerSum 4 ys / ys.length := rfl
  rw [Double.fin_div_fin (mul_ne_zero (mul_ne_zero hlen hvaries.ne') hvaries.ne'), kurtosis,
    if_neg hvaries.ne', hfourth, div_div, sq, ← mul_assoc]

/-- The requested moments are defined with a variance, and without one when no moment is requested
that is divided by it. -/
theorem momentsPasses_defined_iff (request : MomentsRequest) (hlen : 2 ≤ ys.length) :
    MomentsDefined request ys (momentsPasses request (ys.map .fin)) ↔
      0 < centralMoment 2 ys ∨ (request.skewness = false ∧ request.kurtosis = false) := by
  have hn2 : (2 : ℝ) ≤ ys.length := by exact_mod_cast hlen
  have hn : (ys.length : ℝ) ≠ 0 := by linarith
  have hn1 : (ys.length : ℝ) - 1 ≠ 0 := by linarith
  have hnonneg : 0 ≤ centralMoment 2 ys := div_nonneg (powerSum_two_nonneg ys) (Nat.cast_nonneg _)
  rw [momentsPasses_fin request hlen]
  split
  · rename_i hnone
    obtain ⟨hvariance, hskewness, hkurtosis⟩ := nothing_requested hnone
    refine iff_of_true ⟨?_, rfl, ?_, ?_, ?_⟩ (Or.inr ⟨hskewness, hkurtosis⟩)
    · intro d hd
      obtain rfl := List.mem_singleton.mp hd
      exact not_fin_beq_zero hn
    · rw [hvariance]
      rfl
    · rw [hskewness]
      rfl
    · rw [hkurtosis]
      rfl
  · constructor
    · intro h
      by_contra hor
      obtain ⟨hflat, hrequested⟩ := not_or.mp hor
      -- the divisors of the higher moments are zero
      have hdivisors := h.divisors (.fin 0)
      have hzero : (.fin 0 : Double ℝ) == 0 := by simp
      simp only [le_antisymm (not_lt.mp hflat) hnonneg, mul_zero, zero_mul, List.mem_append,
        mem_toList_storeIf, and_true] at hdivisors
      apply hrequested
      constructor
      · by_contra hskewness
        rw [Bool.not_eq_false] at hskewness
        exact hdivisors (Or.inl (Or.inr hskewness)) hzero
      · by_contra hkurtosis
        rw [Bool.not_eq_false] at hkurtosis
        exact hdivisors (Or.inr hkurtosis) hzero
    · intro h
      have hskewness : request.skewness = true → 0 < centralMoment 2 ys := fun hrequested =>
        h.resolve_right fun hnone => Bool.false_ne_true (hnone.1.symm.trans hrequested)
      have hkurtosis : request.kurtosis = true → 0 < centralMoment 2 ys := fun hrequested =>
        h.resolve_right fun hnone => Bool.false_ne_true (hnone.2.symm.trans hrequested)
      refine ⟨?_, rfl, rfl, ?_, ?_⟩
      · intro d hd
        simp only [List.mem_append, List.mem_cons, List.not_mem_nil, or_false, or_self,
          mem_toList_storeIf] at hd
        rcases hd with (((rfl | ⟨-, rfl⟩) | rfl) | ⟨hrequested, rfl⟩) | ⟨hrequested, rfl⟩
        · exact not_fin_beq_zero hn
        · exact not_fin_beq_zero hn1
        · exact not_fin_beq_zero hn
        · have hvaries := hskewness hrequested
          have hsqrt : 0 < Real.sqrt (centralMoment 2 ys) := Real.sqrt_pos.mpr hvaries
          exact not_fin_beq_zero (mul_ne_zero (mul_ne_zero hn hvaries.ne') hsqrt.ne')
        · have hvaries := hkurtosis hrequested
          exact not_fin_beq_zero (mul_ne_zero (mul_ne_zero hn hvaries.ne') hvaries.ne')
      · cases hrequested : request.skewness with
        | false => rfl
        | true => exact congrArg (storeIf true) (skewness_eq hn (hskewness hrequested))
      · cases hrequested : request.kurtosis with
        | false => rfl
        | true => exact congrArg (storeIf true) (kurtosis_eq hn (hkurtosis hrequested))

/-- The moments of at most one sample are zero, its mean apart. -/
theorem moments_short (request : MomentsRequest) (hlen : ys.length ≤ 1) :
    MomentsDefined request ys (moments request (ys.map .fin)).2 := by
  cases ys with
  | nil =>
    refine ⟨fun d hd => absurd hd List.not_mem_nil, ?_, ?_, ?_, ?_⟩
    · simp [moments, mean]
    · simp [moments, variance, powerSum]
    · simp [moments, skewness, centralMoment, powerSum]
    · simp [moments, kurtosis, centralMoment, powerSum]
  | cons y ys =>
    obtain rfl : ys = [] := List.length_eq_zero_iff.mp (Nat.le_zero.mp (Nat.le_of_succ_le_succ hlen))
    have hmean : mean [y] = y := mean_replicate one_ne_zero y
    refine ⟨fun d hd => absurd hd List.not_mem_nil, ?_, ?_, ?_, ?_⟩
    · simp [moments, hmean]
    · simp [moments, variance, powerSum, hmean]
    · simp [moments, skewness, centralMoment, powerSum, hmean]
    · simp [moments, kurtosis, centralMoment, powerSum, hmean]

theorem moments_long (request : MomentsRequest) (hlen : 2 ≤ ys.length) :
    moments request (ys.map .fin) = (.success, momentsPasses request (ys.map .fin)) := by
  match ys, hlen with
  | _ :: _ :: _, _ => rfl

theorem centralMoment_two_pos_iff (hlen : 2 ≤ ys.length) :
    0 < centralMoment 2 ys ↔ ∃ y ∈ ys, ∃ z ∈ ys, y ≠ z := by
  have hn : (0 : ℝ) < ys.length := by
    have : 0 < ys.length := by omega
    exact_mod_cast this
  rw [← powerSum_two_ne_zero_iff, ← (powerSum_two_nonneg ys).lt_iff_ne']
  exact div_pos_iff_of_pos_right hn

/-- All requested moments are defined as they should be exactly for the samples with two different
values, for at most one sample, or when neither skewness nor kurtosis is requested. -/
theorem moments_defined_iff (request : MomentsRequest) (ys : List ℝ) :
    (moments request (ys.map .fin)).1 = .success ∧
        MomentsDefined request ys (moments request (ys.map .fin)).2 ↔
      ys.length ≤ 1 ∨ (∃ y ∈ ys, ∃ z ∈ ys, y ≠ z) ∨
        (request.skewness = false ∧ request.kurtosis = false) := by
  rcases Nat.lt_or_ge 1 ys.length with hlen | hlen
  · rw [moments_long request hlen, momentsPasses_defined_iff request hlen,
      centralMoment_two_pos_iff hlen, or_iff_right (not_le.mpr hlen)]
    exact and_iff_right rfl
  · refine iff_of_true ⟨?_, moments_short request hlen⟩ (Or.inl hlen)
    match ys, hlen with
    | [], _ => rfl
    | [_], _ => rfl

/-- Of two equal samples the skewness is a quotient of zeros. -/
theorem moments_two_equal :
    ¬ MomentsDefined { mean := true, variance := true, skewness := true, kurtosis := true } [1, 1]
      (moments { mean := true, variance := true, skewness := true, kurtosis := true }
        ([1, 1].map .fin)).2 := by
  have hlen : 2 ≤ ([1, 1] : List ℝ).length := by simp
  rw [moments_long _ hlen, momentsPasses_defined_iff _ hlen, centralMoment_two_pos_iff hlen]
  simp

end Real
end Plfit
