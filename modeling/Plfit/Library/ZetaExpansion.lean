import Mathlib
import Plfit.Library.EulerMaclaurin
import Plfit.Library.HurwitzZeta

/-! # The expansion of the Hurwitz zeta function

The Euler–Maclaurin sum of a power with a negative exponent. Its corrections are products of
consecutive numbers from the exponent on, and a Taylor polynomial bounds each of them by a
term of the series itself.
-/
namespace RealHurwitz
open Filter Topology EulerMaclaurin

noncomputable def rising (s : ℝ) (m : ℕ) : ℝ := (ascPochhammer ℝ m).eval s

@[simp] theorem rising_zero (s : ℝ) : rising s 0 = 1 := by simp [rising]

theorem rising_succ (s : ℝ) (m : ℕ) : rising s (m + 1) = rising s m * (s + m) :=
  ascPochhammer_succ_eval m s

theorem rising_succ_left (s : ℝ) (m : ℕ) : rising s (m + 1) = s * rising (s + 1) m := by
  simp [rising, ascPochhammer_succ_left]

theorem rising_one (s : ℝ) : rising s 1 = s := by simp [rising]

theorem rising_pos {s : ℝ} (hs : 0 < s) (m : ℕ) : 0 < rising s m := ascPochhammer_pos m s hs

noncomputable def powerDeriv (s : ℝ) (m : ℕ) (a : ℝ) : ℝ := rising s m * a ^ (-s - m)

theorem powerDeriv_zero (s a : ℝ) : powerDeriv s 0 a = a ^ (-s) := by simp [powerDeriv]

theorem powerDeriv_pos {s a : ℝ} (hs : 0 < s) (ha : 0 < a) (m : ℕ) : 0 < powerDeriv s m a :=
  mul_pos (rising_pos hs m) (Real.rpow_pos_of_pos ha _)

theorem powerDeriv_succ {s a : ℝ} (ha : 0 < a) (m : ℕ) :
    powerDeriv s (m + 1) a = powerDeriv s m a * ((s + m) / a) := by
  have hexp : -s - ((m + 1 : ℕ) : ℝ) = -s - m - 1 := by
    push_cast
    ring
  rw [powerDeriv, powerDeriv, rising_succ, hexp, Real.rpow_sub_one ha.ne']
  ring

/-- The sum with `M` corrections. -/
noncomputable def zetaExpansion (s : ℝ) (M : ℕ) (a : ℝ) : ℝ :=
  a ^ (1 - s) / (s - 1) + a ^ (-s) / (2 : ℕ) +
    (Finset.range M).sum fun j => coeff (j + 1) * powerDeriv s (2 * j + 1) a

theorem zetaExpansion_eq (s : ℝ) (M : ℕ) (a : ℝ) : zetaExpansion s M a =
    a ^ (1 - s) / (s - 1) + a ^ (-s) / 2 +
      (Finset.range M).sum fun j => coeff (j + 1) * powerDeriv s (2 * j + 1) a := rfl

section Expansion
variable {s a : ℝ}

/-- The antiderivative and the derivatives with their signs. -/
theorem power_tower (hs : 1 < s) :
    Tower (fun x => x ^ (1 - s) / (1 - s)) fun m x => (-1) ^ m * powerDeriv s m x where
  antideriv x hx := by
    have hne : 1 - s ≠ 0 := by linarith
    have h := ((hasDerivAt_id x).rpow_const (p := 1 - s) (Or.inl hx.ne')).div_const (1 - s)
    convert! h using 1
    rw [powerDeriv_zero, pow_zero, sub_sub_cancel_left, id]
    field_simp
  deriv m x hx := by
    have h := ((hasDerivAt_id x).rpow_const (p := -s - m) (Or.inl hx.ne')).const_mul
      ((-1) ^ m * rising s m)
    have hfun : (fun x => (-1) ^ m * powerDeriv s m x) =
        fun x => (-1) ^ m * rising s m * id x ^ (-s - m) := by
      funext y
      rw [powerDeriv, mul_assoc, id]
    have hexp : -s - (m : ℝ) - 1 = -s - (m + 1 : ℕ) := by
      push_cast
      ring
    rw [hfun]
    convert! h using 1
    rw [powerDeriv, rising_succ, pow_succ, hexp, id]
    ring
  even_nonneg m x hx := by
    rw [pow_mul, neg_one_sq, one_pow, one_mul]
    exact (powerDeriv_pos (one_pos.trans hs) hx _).le

theorem expansion_power (s : ℝ) (M : ℕ) (a : ℝ) :
    expansion (fun x => x ^ (1 - s) / (1 - s)) (fun m x => (-1) ^ m * powerDeriv s m x) M a =
      zetaExpansion s M a := by
  have hodd (j : ℕ) : ((-1 : ℝ) ^ (2 * j + 1)) = -1 := by
    rw [pow_succ, pow_mul, neg_one_sq, one_pow, one_mul]
  have hsum : ((Finset.range M).sum fun j =>
      coeff (j + 1) * ((-1) ^ (2 * j + 1) * powerDeriv s (2 * j + 1) a)) =
      -(Finset.range M).sum fun j => coeff (j + 1) * powerDeriv s (2 * j + 1) a := by
    rw [← Finset.sum_neg_distrib]
    exact Finset.sum_congr rfl fun j _ => by rw [hodd]; ring
  rw [expansion_eq, hsum, powerDeriv_zero, pow_zero, one_mul, zetaExpansion_eq, ← neg_sub 1 s, div_neg]
  ring

theorem tendsto_zetaExpansion (hs : 1 < s) (M : ℕ) (a : ℝ) :
    Tendsto (fun k : ℕ => zetaExpansion s M (a + k)) atTop (𝓝 0) := by
  have hpow {c : ℝ} (hc : 0 < c) : Tendsto (fun k : ℕ => (a + k) ^ (-c)) atTop (𝓝 0) :=
    (tendsto_rpow_neg_atTop hc).comp
      (tendsto_atTop_add_const_left _ a tendsto_natCast_atTop_atTop)
  have hhead := ((hpow (by linarith : 0 < s - 1)).div_const (s - 1)).add
    ((hpow (by linarith : 0 < s)).div_const 2)
  have hcorr (j : ℕ) : Tendsto (fun k : ℕ => coeff (j + 1) * powerDeriv s (2 * j + 1) (a + k))
      atTop (𝓝 0) := by
    have hexp : -s - ((2 * j + 1 : ℕ) : ℝ) = -(s + (2 * j + 1 : ℕ)) := by ring
    have h := ((hpow (by positivity : 0 < s + (2 * j + 1 : ℕ))).const_mul
      (rising s (2 * j + 1))).const_mul (coeff (j + 1))
    simp only [mul_zero] at h
    simpa only [powerDeriv, hexp] using h
  have hall := hhead.add (tendsto_finsetSum (Finset.range M) fun j _ => hcorr j)
  simpa only [neg_sub, zero_div, add_zero, Finset.sum_const_zero, zetaExpansion_eq] using hall

/-- The sums with an even number of corrections lie below the zeta function, the others
above. -/
theorem zetaExpansion_sign (hs : 1 < s) (ha : 0 < a) (M : ℕ) :
    0 ≤ (-1) ^ M * (hurwitzZeta s a - zetaExpansion s M a) := by
  have hterm (k : ℕ) : (-1 : ℝ) ^ 0 * powerDeriv s 0 (a + k) = (a + k) ^ (-s) := by
    rw [pow_zero, one_mul, powerDeriv_zero]
  have h := (power_tower hs).sum_sign M ha
    (by simpa only [hterm] using (summable_iff ha).mpr hs)
    (by simpa only [expansion_power] using tendsto_zetaExpansion hs M a)
  simpa only [hterm, expansion_power, hurwitzZeta] using h

theorem zetaExpansion_error (hs : 1 < s) (ha : 0 < a) (M : ℕ) :
    |hurwitzZeta s a - zetaExpansion s M a| ≤
      |coeff (M + 1)| * powerDeriv s (2 * M + 1) a := by
  have hterm (k : ℕ) : (-1 : ℝ) ^ 0 * powerDeriv s 0 (a + k) = (a + k) ^ (-s) := by
    rw [pow_zero, one_mul, powerDeriv_zero]
  have h := (power_tower hs).sum_error M ha
    (by simpa only [hterm] using (summable_iff ha).mpr hs)
    (by simpa only [expansion_power] using fun M => tendsto_zetaExpansion hs M a)
  rw [abs_mul, abs_mul, abs_pow, abs_neg, abs_one, one_pow, one_mul,
    abs_of_pos (powerDeriv_pos (by linarith) ha _)] at h
  simpa only [hterm, expansion_power, hurwitzZeta] using h

/-- One value of the power, against the change of the expansion without corrections. -/
theorem zetaExpansion_zero_step (hs : 1 < s) (ha : 0 < a) :
    zetaExpansion s 0 a - zetaExpansion s 0 (a + 1) ≤ a ^ (-s) := by
  have h := (power_tower hs).step_sign 0 ha
  simp only [expansion_power, powerDeriv_zero, pow_zero, one_mul] at h
  linarith

theorem hurwitzZeta_shift (hs : 1 < s) (ha : 0 < a) (n : ℕ) :
    hurwitzZeta s a = ((Finset.range n).sum fun k => (a + k) ^ (-s)) + hurwitzZeta s (a + n) := by
  rw [hurwitzZeta, ← ((summable_iff ha).mpr hs).sum_add_tsum_nat_add n, hurwitzZeta]
  congr 1
  apply tsum_congr
  intro k
  push_cast
  ring_nf

end Expansion

/-! ## The corrections in terms of the series -/

/-- The terms of a Taylor series with positive coefficients are below its sum. -/
theorem rising_mul_pow_le {s y : ℝ} (hs : 0 < s) (hy : 0 ≤ y) (hy1 : y < 1) (m : ℕ) :
    rising s m * y ^ m ≤ m.factorial * (1 - y) ^ (-s) := by
  induction m generalizing s y with
  | zero =>
    simp only [rising_zero, pow_zero, mul_one, Nat.factorial_zero, Nat.cast_one, one_mul]
    exact Real.one_le_rpow_of_pos_of_le_one_of_nonpos (by linarith) (by linarith) (by linarith)
  | succ m ih =>
    set gap : ℝ → ℝ := fun t =>
      (m + 1).factorial * (1 - t) ^ (-s) - rising s (m + 1) * t ^ (m + 1) with hgap
    have hderiv {t : ℝ} (ht : t < 1) : HasDerivAt gap
        (s * (m + 1) * (m.factorial * (1 - t) ^ (-(s + 1)) - rising (s + 1) m * t ^ m)) t := by
      have hpow := ((hasDerivAt_id t).const_sub 1).rpow_const (p := -s)
        (Or.inl (by simpa using (sub_pos.mpr ht).ne'))
      have hall := (hpow.const_mul ((m + 1).factorial : ℝ)).sub
        ((hasDerivAt_pow (m + 1) t).const_mul (rising s (m + 1)))
      convert! hall using 1
      rw [Nat.factorial_succ, rising_succ_left, Nat.add_sub_cancel, id, neg_add']
      push_cast
      ring
    have hmono : MonotoneOn gap (Set.Icc 0 y) := by
      have hlt {t : ℝ} (ht : t ∈ Set.Icc 0 y) : t < 1 := ht.2.trans_lt hy1
      apply monotoneOn_of_deriv_nonneg (convex_Icc 0 y)
      · intro t ht
        exact (hderiv (hlt ht)).continuousAt.continuousWithinAt
      · intro t ht
        exact (hderiv (hlt (interior_subset ht))).differentiableAt.differentiableWithinAt
      · intro t ht
        have ht' := interior_subset ht
        rw [(hderiv (hlt ht')).deriv]
        exact mul_nonneg (by positivity)
          (sub_nonneg.mpr (ih (by linarith) ht'.1 (hlt ht')))
    have hends := hmono (Set.left_mem_Icc.mpr hy) (Set.right_mem_Icc.mpr hy) hy
    have hstart : gap 0 = (m + 1).factorial := by simp [hgap]
    rw [hstart] at hends
    have hpos : (0 : ℝ) ≤ (m + 1).factorial := Nat.cast_nonneg _
    linarith

/-- A derivative at a point, against the power at a point `h` before it. -/
theorem powerDeriv_le {s a h : ℝ} (hs : 0 < s) (hh : 0 < h) (ha : h < a) (m : ℕ) :
    powerDeriv s m a ≤ m.factorial / h ^ m * (a - h) ^ (-s) := by
  have hpos : 0 < a := hh.trans ha
  have hle := rising_mul_pow_le hs (div_pos hh hpos).le ((div_lt_one hpos).mpr ha) m
  have hsplit : 1 - h / a = (a - h) / a := by field_simp
  rw [hsplit, Real.div_rpow (by linarith) hpos.le, div_pow] at hle
  rw [powerDeriv, Real.rpow_sub_natCast hpos.ne', div_mul_eq_mul_div,
    le_div_iff₀ (pow_pos hh m)]
  have hne : a ^ (-s) ≠ 0 := (Real.rpow_pos_of_pos hpos _).ne'
  calc rising s m * (a ^ (-s) / a ^ m) * h ^ m
      = rising s m * (h ^ m / a ^ m) * a ^ (-s) := by ring
    _ ≤ m.factorial * ((a - h) ^ (-s) / a ^ (-s)) * a ^ (-s) :=
        mul_le_mul_of_nonneg_right hle (Real.rpow_nonneg hpos.le _)
    _ = m.factorial * (a - h) ^ (-s) := by field_simp

end RealHurwitz
