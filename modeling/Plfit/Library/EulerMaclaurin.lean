import Mathlib

/-! # The Euler–Maclaurin sum of a completely monotone function

The sum of a function over the integers from a point on is its integral, half its first value
and corrections by its derivatives of odd order. Every derivative of even order is
nonnegative, so that the sums with one correction more lie on the other side of the true sum,
and the error is at most the first correction that is left out.
-/
namespace EulerMaclaurin
open Filter Topology

/-- The factor of the correction by the derivative of order `2 * j - 1`. -/
noncomputable def coeff (j : ℕ) : ℝ := bernoulli (2 * j) / (2 * j).factorial

/-! ## The coefficients as rational numbers -/

def nextCoeff (cs : List ℚ) : ℚ :=
  let n := cs.length
  1 / ((2 * (2 * n + 2).factorial : ℕ) : ℚ) - 1 / (((2 * n + 3).factorial : ℕ) : ℚ) -
    (cs.zipIdx.map fun c => c.1 / (((2 * n + 1 - 2 * c.2).factorial : ℕ) : ℚ)).sum

def firstCoeffs : ℕ → List ℚ
  | 0 => []
  | n + 1 => firstCoeffs n ++ [nextCoeff (firstCoeffs n)]

def coeffRat (j : ℕ) : ℚ := bernoulli (2 * (j + 1)) / (2 * (j + 1)).factorial

theorem coeff_succ (j : ℕ) : coeff (j + 1) = coeffRat j := by
  rw [coeff, coeffRat]
  push_cast
  rfl

theorem sum_range_pairs (g : ℕ → ℚ) (m : ℕ) :
    (Finset.range (2 * m + 1)).sum g =
      g 0 + (Finset.range m).sum fun j => g (2 * j + 1) + g (2 * (j + 1)) := by
  induction m with
  | zero => simp
  | succ m ih =>
    rw [show 2 * (m + 1) + 1 = 2 * m + 1 + 1 + 1 from rfl, Finset.sum_range_succ,
      Finset.sum_range_succ, ih, Finset.sum_range_succ _ m, add_assoc, add_assoc]
    rfl

theorem coeffRat_recurrence (n : ℕ) :
    coeffRat n = 1 / ((2 * (2 * n + 2).factorial : ℕ) : ℚ) -
      1 / (((2 * n + 3).factorial : ℕ) : ℚ) -
      (Finset.range n).sum fun j => coeffRat j / (((2 * n + 1 - 2 * j).factorial : ℕ) : ℚ) := by
  set term : ℕ → ℚ := fun k =>
    bernoulli k / ((k.factorial : ℚ) * (2 * n + 3 - k).factorial) with hterm
  have hsum : (Finset.range (2 * (n + 1) + 1)).sum term = 0 := by
    have hbernoulli : ((Finset.range (2 * n + 3)).sum fun k =>
        ((2 * n + 3).choose k : ℚ) * bernoulli k) = 0 := by
      rw [sum_bernoulli, if_neg (by omega)]
    have hfactor : ((2 * n + 3).factorial : ℚ) ≠ 0 := Nat.cast_ne_zero.mpr (Nat.factorial_ne_zero _)
    have hscaled : (Finset.range (2 * (n + 1) + 1)).sum term =
        ((Finset.range (2 * n + 3)).sum fun k => ((2 * n + 3).choose k : ℚ) * bernoulli k) /
          (2 * n + 3).factorial := by
      rw [Finset.sum_div]
      apply Finset.sum_congr rfl
      intro k hk
      have hle : k ≤ 2 * n + 3 := (Finset.mem_range.mp hk).le
      rw [Nat.cast_choose ℚ hle, hterm]
      field_simp
    rw [hscaled, hbernoulli, zero_div]
  have hodd (j : ℕ) : term (2 * (j + 1) + 1) = 0 := by
    rw [hterm]
    simp only [bernoulli_eq_zero_of_odd (odd_two_mul_add_one (j + 1)) (by omega), zero_div]
  have heven (j : ℕ) : term (2 * (j + 1)) =
      coeffRat j / (((2 * n + 1 - 2 * j).factorial : ℕ) : ℚ) := by
    have hleft : 2 * n + 3 - 2 * (j + 1) = 2 * n + 1 - 2 * j := by omega
    rw [hterm, coeffRat, ← hleft, div_div]
  have hfirst : term 0 = 1 / (((2 * n + 3).factorial : ℕ) : ℚ) := by simp [hterm]
  have hsecond : term (2 * 0 + 1) = -(1 / ((2 * (2 * n + 2).factorial : ℕ) : ℚ)) := by
    simp only [hterm, mul_zero, zero_add, bernoulli_one, Nat.factorial_one, Nat.cast_one, one_mul]
    rw [show 2 * n + 3 - 1 = 2 * n + 2 from rfl]
    push_cast
    field_simp
  rw [sum_range_pairs, Finset.sum_add_distrib, Finset.sum_range_succ', Finset.sum_range_succ _ n,
    hfirst, hsecond, heven n] at hsum
  simp only [hodd, heven, Finset.sum_const_zero, zero_add, Nat.add_sub_cancel_left,
    Nat.factorial_one, Nat.cast_one, div_one] at hsum
  linarith

theorem firstCoeffs_eq (n : ℕ) : firstCoeffs n = (List.range n).map coeffRat := by
  induction n with
  | zero => rfl
  | succ n ih =>
    have hzip : ((List.range n).map coeffRat).zipIdx = (List.range n).map fun j => (coeffRat j, j) := by
      apply List.ext_getElem
      · simp
      · intro i _ _
        simp
    rw [firstCoeffs, ih, List.range_succ, List.map_append, nextCoeff, hzip, List.map_map,
      List.length_map, List.length_range, List.map_singleton, coeffRat_recurrence n]
    rfl

/-! ## The sign of the error -/

/-- On the unit interval a Bernoulli polynomial of even order stays on one side of its value
at the ends. -/
theorem bernoulliFun_sub_sign {M : ℕ} (hM : M ≠ 0) {x : ℝ} (hx : x ∈ Set.Icc (0 : ℝ) 1) :
    0 ≤ (-1) ^ M * (bernoulliFun (2 * M) x - bernoulliFun (2 * M) 0) := by
  have hsum := (hasSum_one_div_nat_pow_mul_cos hM (Set.left_mem_Icc.mpr zero_le_one)).sub
    (hasSum_one_div_nat_pow_mul_cos hM hx)
  have hterm (n : ℕ) : 0 ≤ 1 / (n : ℝ) ^ (2 * M) * Real.cos (2 * Real.pi * n * 0) -
      1 / (n : ℝ) ^ (2 * M) * Real.cos (2 * Real.pi * n * x) := by
    rw [mul_zero, Real.cos_zero, ← mul_sub]
    exact mul_nonneg (by positivity) (sub_nonneg.mpr (Real.cos_le_one _))
  have hvalue := hsum.nonneg hterm
  rw [← mul_sub] at hvalue
  change 0 ≤ _ * (bernoulliFun (2 * M) 0 - bernoulliFun (2 * M) x) at hvalue
  have hfactor : 0 < (2 * Real.pi) ^ (2 * M) / 2 / ((2 * M).factorial : ℝ) := by positivity
  refine nonneg_of_mul_nonneg_right (b := _) ?_ hfactor
  calc (0 : ℝ) ≤ _ := hvalue
    _ = _ := by ring

/-- A function of the positive numbers with an antiderivative and its derivatives. -/
structure Tower (G : ℝ → ℝ) (f : ℕ → ℝ → ℝ) : Prop where
  antideriv : ∀ x, 0 < x → HasDerivAt G (f 0 x) x
  deriv : ∀ m x, 0 < x → HasDerivAt (f m) (f (m + 1) x) x
  even_nonneg : ∀ m x, 0 < x → 0 ≤ f (2 * m) x

/-- The sum with `M` corrections. -/
noncomputable def expansion (G : ℝ → ℝ) (f : ℕ → ℝ → ℝ) (M : ℕ) (a : ℝ) : ℝ :=
  -G a + f 0 a / (2 : ℕ) - (Finset.range M).sum fun j => coeff (j + 1) * f (2 * j + 1) a

theorem expansion_eq (G : ℝ → ℝ) (f : ℕ → ℝ → ℝ) (M : ℕ) (a : ℝ) : expansion G f M a =
    -G a + f 0 a / 2 - (Finset.range M).sum fun j => coeff (j + 1) * f (2 * j + 1) a := rfl

section Tower
variable {G : ℝ → ℝ} {f : ℕ → ℝ → ℝ} {a : ℝ}

/-- Integration by parts against the Bernoulli polynomials, carried out `m` times. -/
noncomputable def parts (f : ℕ → ℝ → ℝ) (m : ℕ) (a x : ℝ) : ℝ :=
  (Finset.range m).sum fun i =>
    (-1) ^ i * (bernoulliFun (i + 1) (x - a) / (i + 1).factorial) * f i x

theorem hasDerivAt_bernoulliFun_div (i : ℕ) (a x : ℝ) :
    HasDerivAt (fun x => bernoulliFun (i + 1) (x - a) / (i + 1).factorial)
      (bernoulliFun i (x - a) / i.factorial) x := by
  have hpoly := (hasDerivAt_bernoulliFun (i + 1) (x - a)).comp_sub_const x a
  have hdiv := hpoly.div_const ((i + 1).factorial : ℝ)
  convert! hdiv using 1
  rw [Nat.factorial_succ, Nat.add_sub_cancel]
  push_cast
  have hne : ((i : ℝ) + 1) ≠ 0 := by positivity
  field_simp

theorem Tower.hasDerivAt_parts (h : Tower G f) (m : ℕ) (a : ℝ) {x : ℝ} (hx : 0 < x) :
    HasDerivAt (parts f m a)
      (f 0 x - (-1) ^ m * (bernoulliFun m (x - a) / m.factorial) * f m x) x := by
  induction m with
  | zero =>
    have hzero : parts f 0 a = fun _ => 0 := by
      funext x
      rfl
    rw [hzero]
    convert! hasDerivAt_const x (0 : ℝ) using 1
    simp
  | succ m ih =>
    have hsucc : parts f (m + 1) a = fun x => parts f m a x +
        (-1) ^ m * (bernoulliFun (m + 1) (x - a) / (m + 1).factorial) * f m x := by
      funext x
      exact Finset.sum_range_succ _ m
    rw [hsucc]
    have hterm := ((hasDerivAt_bernoulliFun_div m a x).const_mul ((-1 : ℝ) ^ m)).mul
      (h.deriv m x hx)
    convert! ih.add hterm using 1
    rw [pow_succ]
    ring

/-- The odd Bernoulli numbers vanish, so that each two rounds leave one correction. -/
theorem parts_endpoints (f : ℕ → ℝ → ℝ) (M : ℕ) (a : ℝ) :
    parts f (2 * (M + 1)) a (a + 1) - parts f (2 * (M + 1)) a a =
      (f 0 a + f 0 (a + 1)) / 2 -
        (Finset.range (M + 1)).sum fun j =>
          coeff (j + 1) * (f (2 * j + 1) (a + 1) - f (2 * j + 1) a) := by
  induction M with
  | zero =>
    simp [parts, Finset.sum_range_succ, coeff, bernoulliFun_one, bernoulliFun_two,
      bernoulli_two]
    ring
  | succ M ih =>
    have hodd : bernoulliFun (2 * (M + 1) + 1) 0 = 0 := by
      rw [bernoulliFun_eval_zero, bernoulli_eq_zero_of_odd (by exact odd_two_mul_add_one _)
        (by omega), Rat.cast_zero]
    have hodd' : bernoulliFun (2 * (M + 1) + 1) 1 = 0 := by
      rw [bernoulliFun_endpoints_eq_of_ne_one (by omega), hodd]
    have heven : bernoulliFun (2 * (M + 1) + 1 + 1) 1 = bernoulliFun (2 * (M + 1) + 1 + 1) 0 :=
      bernoulliFun_endpoints_eq_of_ne_one (by omega)
    have hsign : (-1 : ℝ) ^ (2 * (M + 1) + 1) = -1 := by
      rw [pow_succ, pow_mul, neg_one_sq, one_pow, one_mul]
    have hcoeff : coeff (M + 1 + 1) =
        bernoulliFun (2 * (M + 1) + 1 + 1) 0 / (2 * (M + 1) + 1 + 1).factorial := by
      rw [bernoulliFun_eval_zero]
      rfl
    have hrounds (x : ℝ) : parts f (2 * (M + 1 + 1)) a x = parts f (2 * (M + 1)) a x +
        (-1) ^ (2 * (M + 1)) *
          (bernoulliFun (2 * (M + 1) + 1) (x - a) / (2 * (M + 1) + 1).factorial) *
            f (2 * (M + 1)) x +
        (-1) ^ (2 * (M + 1) + 1) *
          (bernoulliFun (2 * (M + 1) + 1 + 1) (x - a) / (2 * (M + 1) + 1 + 1).factorial) *
            f (2 * (M + 1) + 1) x := by
      rw [parts, show 2 * (M + 1 + 1) = 2 * (M + 1) + 1 + 1 from rfl, Finset.sum_range_succ,
        Finset.sum_range_succ]
      rfl
    rw [hrounds, hrounds, Finset.sum_range_succ _ (M + 1), hcoeff, add_sub_cancel_left, sub_self,
      hodd, hodd', heven, hsign]
    linear_combination ih

/-- One value of the function, against the change of the sum with `M` corrections. -/
theorem Tower.step_sign (h : Tower G f) (M : ℕ) (ha : 0 < a) :
    0 ≤ (-1) ^ M * (f 0 a - (expansion G f M a - expansion G f M (a + 1))) := by
  set b : ℝ := bernoulliFun (2 * (M + 1)) 0 / (2 * (M + 1)).factorial with hb
  set gap : ℝ → ℝ := fun x => (-1) ^ (M + 1) *
    (G x - (parts f (2 * (M + 1)) a x + b * f (2 * M + 1) x)) with hgap
  have hderiv (x : ℝ) (hx : 0 < x) : HasDerivAt gap ((-1) ^ (M + 1) *
      ((bernoulliFun (2 * (M + 1)) (x - a) - bernoulliFun (2 * (M + 1)) 0) /
        (2 * (M + 1)).factorial * f (2 * (M + 1)) x)) x := by
    have hparts := h.hasDerivAt_parts (2 * (M + 1)) a hx
    have hlast := (h.deriv (2 * M + 1) x hx).const_mul b
    have hall := ((h.antideriv x hx).sub (hparts.add hlast)).const_mul ((-1 : ℝ) ^ (M + 1))
    convert! hall using 1
    rw [show 2 * M + 1 + 1 = 2 * (M + 1) from rfl, pow_mul (-1 : ℝ) 2, neg_one_sq, one_pow, hb]
    ring
  have hmono : MonotoneOn gap (Set.Icc a (a + 1)) := by
    have hpos {x : ℝ} (hx : x ∈ Set.Icc a (a + 1)) : 0 < x := ha.trans_le hx.1
    apply monotoneOn_of_deriv_nonneg (convex_Icc a (a + 1))
    · intro x hx
      exact (hderiv x (hpos hx)).continuousAt.continuousWithinAt
    · intro x hx
      exact (hderiv x (hpos (interior_subset hx))).differentiableAt.differentiableWithinAt
    · intro x hx
      have hx' := interior_subset hx
      rw [(hderiv x (hpos hx')).deriv, ← mul_assoc, ← mul_div_assoc]
      have hsign := bernoulliFun_sub_sign M.succ_ne_zero
        (⟨sub_nonneg.mpr hx'.1, by linarith [hx'.2]⟩ : x - a ∈ Set.Icc (0 : ℝ) 1)
      exact mul_nonneg (div_nonneg hsign (Nat.cast_nonneg _)) (h.even_nonneg _ x (hpos hx'))
  have hends : gap a ≤ gap (a + 1) :=
    hmono (Set.left_mem_Icc.mpr (by linarith)) (Set.right_mem_Icc.mpr (by linarith))
      (by linarith : a ≤ a + 1)
  have hparts := parts_endpoints f M a
  have hcoeff : coeff (M + 1) = b := by
    rw [hb, bernoulliFun_eval_zero]
    rfl
  rw [Finset.sum_range_succ, hcoeff] at hparts
  have hsum : ((Finset.range M).sum fun j => coeff (j + 1) * (f (2 * j + 1) (a + 1) -
      f (2 * j + 1) a)) = ((Finset.range M).sum fun j => coeff (j + 1) * f (2 * j + 1) (a + 1)) -
      (Finset.range M).sum fun j => coeff (j + 1) * f (2 * j + 1) a := by
    rw [← Finset.sum_sub_distrib]
    exact Finset.sum_congr rfl fun j _ => mul_sub _ _ _
  rw [hsum] at hparts
  have hvalue : (-1) ^ M * (f 0 a - (expansion G f M a - expansion G f M (a + 1))) =
      gap (a + 1) - gap a := by
    simp only [expansion_eq, hgap, pow_succ]
    linear_combination -(-1 : ℝ) ^ M * hparts
  rw [hvalue]
  linarith

/-- The sums with an even number of corrections lie below the sum of the function, the others
above. -/
theorem Tower.sum_sign (h : Tower G f) (M : ℕ) (ha : 0 < a)
    (hsum : Summable fun k : ℕ => f 0 (a + k))
    (hlim : Tendsto (fun k : ℕ => expansion G f M (a + k)) atTop (𝓝 0)) :
    0 ≤ (-1) ^ M * ((tsum fun k : ℕ => f 0 (a + k)) - expansion G f M a) := by
  have hpartial (n : ℕ) : 0 ≤ (-1) ^ M *
      (((Finset.range n).sum fun k => f 0 (a + k)) -
        (expansion G f M a - expansion G f M (a + n))) := by
    induction n with
    | zero => simp
    | succ n ih =>
      have hstep := h.step_sign M (by positivity : 0 < a + n)
      have hnext : a + ((n + 1 : ℕ) : ℝ) = a + n + 1 := by
        push_cast
        ring
      rw [Finset.sum_range_succ, hnext]
      linarith
  have hleft := (hsum.hasSum.tendsto_sum_nat.sub
    (tendsto_const_nhds (x := expansion G f M a) |>.sub hlim)).const_mul ((-1 : ℝ) ^ M)
  rw [sub_zero] at hleft
  exact ge_of_tendsto' hleft hpartial

/-- The error is at most the first correction that is left out. -/
theorem Tower.sum_error (h : Tower G f) (M : ℕ) (ha : 0 < a)
    (hsum : Summable fun k : ℕ => f 0 (a + k))
    (hlim : ∀ M, Tendsto (fun k : ℕ => expansion G f M (a + k)) atTop (𝓝 0)) :
    |(tsum fun k : ℕ => f 0 (a + k)) - expansion G f M a| ≤
      |coeff (M + 1) * f (2 * M + 1) a| := by
  have hthis := h.sum_sign M ha hsum (hlim M)
  have hnext := h.sum_sign (M + 1) ha hsum (hlim (M + 1))
  have hdiff : expansion G f (M + 1) a =
      expansion G f M a - coeff (M + 1) * f (2 * M + 1) a := by
    rw [expansion_eq, expansion_eq, Finset.sum_range_succ]
    ring
  rw [hdiff, pow_succ] at hnext
  rcases neg_one_pow_eq_or ℝ M with hM | hM <;> rw [hM] at hthis hnext
  · rw [abs_of_nonneg (by linarith), abs_of_nonpos (by linarith)]
    linarith
  · rw [abs_of_nonpos (by linarith), abs_of_nonneg (by linarith)]
    linarith

end Tower
end EulerMaclaurin
