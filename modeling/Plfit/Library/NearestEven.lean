import Mathlib
import Plfit.Library.ExactDouble

/-! # Rounding to nearest, ties to even

A number is rounded to an integer multiple of a unit that depends on its magnitude, so that the
multiple has a given number of binary digits. The exponent has no bounds, so nothing overflows
and nothing becomes subnormal.
-/
namespace NearestEven
open ExactArithmetic

section Integers
variable {K : Type*} [Field K] [LinearOrder K] [FloorRing K]

/-- Of two integers that are equally near the even one is taken. -/
def roundEven (x : K) : ℤ :=
  if Int.fract x + Int.fract x < 1 then ⌊x⌋
  else if 1 < Int.fract x + Int.fract x then ⌊x⌋ + 1
  else if Even ⌊x⌋ then ⌊x⌋ else ⌊x⌋ + 1

theorem floor_le_roundEven (x : K) : ⌊x⌋ ≤ roundEven x := by
  unfold roundEven
  split_ifs <;> omega

theorem roundEven_le_floor_add_one (x : K) : roundEven x ≤ ⌊x⌋ + 1 := by
  unfold roundEven
  split_ifs <;> omega

variable [IsStrictOrderedRing K]

@[simp] theorem roundEven_intCast (n : ℤ) : roundEven (n : K) = n := by
  rw [roundEven, Int.fract_intCast, add_zero, if_pos one_pos, Int.floor_intCast]

theorem roundEven_mono {x y : K} (h : x ≤ y) : roundEven x ≤ roundEven y := by
  rcases (Int.floor_mono h).lt_or_eq with hlt | heq
  · have hx := roundEven_le_floor_add_one x
    have hy := floor_le_roundEven y
    omega
  · have hfract : Int.fract x ≤ Int.fract y := by
      rw [Int.fract, Int.fract, heq]
      linarith
    unfold roundEven
    rw [heq]
    split_ifs <;> first | omega | linarith

/-- From an even integer on, the numbers up to half a unit above are rounded to it. -/
theorem roundEven_eq_iff {n : ℤ} (hn : Even n) {x : K} (hx : (n : K) ≤ x) :
    roundEven x = n ↔ x + x ≤ n + n + 1 := by
  rcases lt_or_ge x (n + 1) with hlt | hge
  · have hfloor : ⌊x⌋ = n := Int.floor_eq_iff.mpr ⟨hx, hlt⟩
    rw [roundEven, Int.fract, hfloor]
    split_ifs with hbelow habove
    · exact iff_of_true rfl (by linarith)
    · exact iff_of_false (by omega) (by linarith)
    · exact iff_of_true rfl (by linarith)
  · have hnext : n + 1 ≤ roundEven x := by
      have hmono := roundEven_mono (K := K) (x := ((n + 1 : ℤ) : K)) (y := x) (by push_cast; exact hge)
      rwa [roundEven_intCast] at hmono
    exact iff_of_false (by omega) (by linarith)

end Integers

/-! ## A given number of digits -/

section Digits
variable {K : Type*} [Field K] [LinearOrder K] [FloorRing K]

/-- The unit in the last of `p` digits. -/
def unit (p : ℕ) (x : K) : K := ((2 : ℕ) : K) ^ (Int.log 2 |x| + 1 - p)

def roundTo (p : ℕ) (x : K) : K := roundEven (x / unit p x) * unit p x

variable [IsStrictOrderedRing K] {p : ℕ} {x y : K}

theorem unit_pos (p : ℕ) (x : K) : 0 < unit p x := zpow_pos (by norm_num) _

@[simp] theorem roundTo_zero (p : ℕ) : roundTo p (0 : K) = 0 := by
  have hzero := roundEven_intCast (K := K) 0
  rw [Int.cast_zero] at hzero
  rw [roundTo, zero_div, hzero, Int.cast_zero, zero_mul]

theorem roundTo_nonneg (hx : 0 ≤ x) : 0 ≤ roundTo p x := by
  have hmono := roundEven_mono (div_nonneg hx (unit_pos p x).le)
  rw [← Int.cast_zero, roundEven_intCast] at hmono
  exact mul_nonneg (Int.cast_nonneg hmono) (unit_pos p x).le

theorem roundTo_nonpos (hx : x ≤ 0) : roundTo p x ≤ 0 := by
  have hmono := roundEven_mono (div_nonpos_of_nonpos_of_nonneg hx (unit_pos p x).le)
  rw [← Int.cast_zero, roundEven_intCast] at hmono
  exact mul_nonpos_of_nonpos_of_nonneg (Int.cast_nonpos.mpr hmono) (unit_pos p x).le

theorem roundTo_eq_self (m : ℤ) (hm : |m| < 2 ^ p) (e : ℤ) :
    roundTo p ((m : K) * ((2 : ℕ) : K) ^ e) = m * ((2 : ℕ) : K) ^ e := by
  rcases eq_or_ne m 0 with rfl | hne
  · rw [Int.cast_zero, zero_mul, roundTo_zero]
  set x : K := m * ((2 : ℕ) : K) ^ e with hx
  have htwo : (0 : K) < ((2 : ℕ) : K) := by norm_num
  have habs : |x| = |(m : K)| * ((2 : ℕ) : K) ^ e := by
    rw [hx, abs_mul, abs_of_pos (zpow_pos htwo e)]
  have hpos : 0 < |x| := by
    rw [habs]
    exact mul_pos (abs_pos.mpr (Int.cast_ne_zero.mpr hne)) (zpow_pos htwo e)
  have hlt : |x| < ((2 : ℕ) : K) ^ ((p : ℤ) + e) := by
    rw [habs, zpow_add₀ htwo.ne', zpow_natCast]
    exact mul_lt_mul_of_pos_right (by exact_mod_cast hm) (zpow_pos htwo e)
  rw [Int.lt_zpow_iff_log_lt one_lt_two hpos] at hlt
  -- the unit divides the power of two
  obtain ⟨k, hk⟩ : ∃ k : ℕ, e = k + (Int.log 2 |x| + 1 - p) :=
    ⟨(e - (Int.log 2 |x| + 1 - p)).toNat, by omega⟩
  have hquotient : x / unit p x = ((m * 2 ^ k : ℤ) : K) := by
    rw [div_eq_iff (unit_pos p x).ne', unit]
    nth_rewrite 1 [hx]
    rw [hk, zpow_add₀ htwo.ne', zpow_natCast]
    push_cast
    ring
  rw [roundTo, hquotient, roundEven_intCast, ← hquotient, div_mul_cancel₀ _ (unit_pos p x).ne']

theorem roundTo_one (hp : 0 < p) : roundTo p (1 : K) = 1 := by
  have hlt : |(1 : ℤ)| < 2 ^ p := by
    rw [abs_one]
    exact one_lt_pow₀ one_lt_two hp.ne'
  simpa using roundTo_eq_self (K := K) 1 hlt 0

theorem le_roundTo {k : ℤ} (hp : 0 < p) (hx : ((2 : ℕ) : K) ^ k ≤ x) :
    ((2 : ℕ) : K) ^ k ≤ roundTo p x := by
  have htwo : (0 : K) < ((2 : ℕ) : K) := by norm_num
  have hpos : 0 < x := (zpow_pos htwo k).trans_le hx
  have hlog : k ≤ Int.log 2 |x| := by
    rwa [← Int.zpow_le_iff_le_log one_lt_two (abs_pos.mpr hpos.ne'), abs_of_pos hpos]
  have hself : ((2 : ℕ) : K) ^ Int.log 2 |x| ≤ x := by
    have h := Int.zpow_log_le_self (R := K) one_lt_two (abs_pos.mpr hpos.ne')
    rwa [abs_of_pos hpos] at h ⊢
  have hsplit : ((2 : ℕ) : K) ^ Int.log 2 |x| = ((2 ^ (p - 1) : ℤ) : K) * unit p x := by
    rw [unit, Int.cast_pow, ← zpow_natCast]
    push_cast
    rw [← zpow_add₀ (by norm_num : (2 : K) ≠ 0)]
    congr 1
    omega
  have hquotient : ((2 ^ (p - 1) : ℤ) : K) ≤ x / unit p x := by
    rwa [le_div_iff₀ (unit_pos p x), ← hsplit]
  have hmono := roundEven_mono hquotient
  rw [roundEven_intCast] at hmono
  calc ((2 : ℕ) : K) ^ k ≤ ((2 : ℕ) : K) ^ Int.log 2 |x| := zpow_le_zpow_right₀ (by norm_num) hlog
    _ = ((2 ^ (p - 1) : ℤ) : K) * unit p x := hsplit
    _ ≤ roundTo p x := mul_le_mul_of_nonneg_right (by exact_mod_cast hmono) (unit_pos p x).le

theorem roundTo_le (p : ℕ) (hx : 0 < x) : roundTo p x ≤ ((2 : ℕ) : K) ^ (Int.log 2 x + 1) := by
  have hsplit : ((2 : ℕ) : K) ^ (Int.log 2 x + 1) = ((2 ^ p : ℤ) : K) * unit p x := by
    rw [unit, abs_of_pos hx, Int.cast_pow, ← zpow_natCast]
    push_cast
    rw [← zpow_add₀ (by norm_num : (2 : K) ≠ 0)]
    congr 1
    omega
  have hquotient : x / unit p x ≤ ((2 ^ p : ℤ) : K) := by
    rw [div_le_iff₀ (unit_pos p x), ← hsplit]
    exact (Int.lt_zpow_succ_log_self one_lt_two x).le
  have hmono := roundEven_mono hquotient
  rw [roundEven_intCast] at hmono
  rw [hsplit]
  exact mul_le_mul_of_nonneg_right (by exact_mod_cast hmono) (unit_pos p x).le

theorem roundTo_le_roundTo (hp : 0 < p) (hx : 0 < x) (hxy : x ≤ y) : roundTo p x ≤ roundTo p y := by
  have hy : 0 < y := hx.trans_le hxy
  rcases (Int.log_mono_right (b := 2) hx hxy).lt_or_eq with hlt | heq
  · have hself := Int.zpow_log_le_self (R := K) one_lt_two hy
    calc roundTo p x ≤ ((2 : ℕ) : K) ^ (Int.log 2 x + 1) := roundTo_le p hx
      _ ≤ ((2 : ℕ) : K) ^ Int.log 2 y := zpow_le_zpow_right₀ (by norm_num) (by omega)
      _ ≤ roundTo p y := le_roundTo hp hself
  · have hunit : unit p x = unit p y := by
      rw [unit, unit, abs_of_pos hx, abs_of_pos hy, heq]
    rw [roundTo, roundTo, hunit]
    have hmono := roundEven_mono (div_le_div_of_nonneg_right hxy (unit_pos p y).le)
    exact mul_le_mul_of_nonneg_right (by exact_mod_cast hmono) (unit_pos p y).le

theorem roundTo_pos (hp : 0 < p) (hx : 0 < x) : 0 < roundTo p x :=
  (zpow_pos (by norm_num) _).trans_le (le_roundTo hp (Int.zpow_log_le_self (R := K) one_lt_two hx))

/-- Just above one, half a unit is lost. -/
theorem roundTo_eq_one_iff (hp : 2 ≤ p) (hx : 1 ≤ x) :
    roundTo p x = 1 ↔ x ≤ 1 + 1 / ((2 : ℕ) : K) ^ p := by
  have htwo : (0 : K) < ((2 : ℕ) : K) := by norm_num
  have hpow : (1 : K) < ((2 : ℕ) : K) ^ p := one_lt_pow₀ (by norm_num) (by omega)
  rcases lt_or_ge x ((2 : ℕ) : K) with hlt | hge
  · have hlog : Int.log 2 |x| = 0 := by
      rw [abs_of_pos (one_pos.trans_le hx)]
      apply le_antisymm
      · apply Int.lt_add_one_iff.mp
        rw [← Int.lt_zpow_iff_log_lt one_lt_two (one_pos.trans_le hx)]
        simpa using hlt
      · rw [← Int.zpow_le_iff_le_log one_lt_two (one_pos.trans_le hx)]
        simpa using hx
    obtain ⟨k, rfl⟩ : ∃ k, p = k + 2 := ⟨p - 2, by omega⟩
    have hunit : unit (k + 2) x = 1 / ((2 ^ (k + 1) : ℤ) : K) := by
      rw [unit, hlog]
      push_cast
      have hexponent : 1 - ((k : ℤ) + 2) = -((k + 1 : ℕ) : ℤ) := by
        push_cast
        ring
      rw [hexponent, zpow_neg, zpow_natCast, one_div]
    have hN : (0 : K) < ((2 ^ (k + 1) : ℤ) : K) := by positivity
    have heven : Even (2 ^ (k + 1) : ℤ) := by
      rw [pow_succ]
      exact Even.mul_left even_two _
    have hquotient : ((2 ^ (k + 1) : ℤ) : K) ≤ x / (1 / ((2 ^ (k + 1) : ℤ) : K)) := by
      rw [div_div_eq_mul_div, div_one]
      exact le_mul_of_one_le_left hN.le hx
    have hround := roundEven_eq_iff heven hquotient
    have hdouble : ((2 : ℕ) : K) ^ (k + 2) =
        ((2 ^ (k + 1) : ℤ) : K) + ((2 ^ (k + 1) : ℤ) : K) := by
      push_cast
      ring
    rw [roundTo, hunit, mul_one_div, div_eq_one_iff_eq hN.ne', Int.cast_inj, hround,
      div_div_eq_mul_div, div_one, hdouble, ← sub_le_iff_le_add' (b := (1 : K)) (c := 1 / _),
      le_div_iff₀ (by linarith)]
    constructor <;> intro h <;> linarith
  · refine iff_of_false (fun h => ?_) (fun h => ?_)
    · have hle := le_roundTo (p := p) (k := 1) (by omega) (by simpa using hge)
      rw [h, zpow_one] at hle
      norm_num at hle
    · have hhalf : 1 / ((2 : ℕ) : K) ^ p < 1 := (div_lt_one (by positivity)).mpr hpow
      have hcast : ((2 : ℕ) : K) = 2 := by norm_num
      linarith

/-- The largest rounded number below one. -/
theorem roundTo_le_of_lt_one (hp : 0 < p) (hx : 0 < x) (h : roundTo p x < 1) :
    roundTo p x ≤ 1 - 1 / ((2 : ℕ) : K) ^ p := by
  have htwo : (0 : K) < ((2 : ℕ) : K) := by norm_num
  have hlog : Int.log 2 x < 0 := by
    by_contra hnot
    have hone : ((2 : ℕ) : K) ^ (0 : ℤ) ≤ x :=
      (Int.zpow_le_iff_le_log one_lt_two hx).mpr (not_lt.mp hnot)
    have hle := le_roundTo hp hone
    rw [zpow_zero] at hle
    exact hle.not_gt h
  rcases (Int.le_sub_one_of_lt hlog).lt_or_eq with hlt | heq
  · have hle : roundTo p x ≤ ((2 : ℕ) : K) ^ (-1 : ℤ) :=
      (roundTo_le p hx).trans (zpow_le_zpow_right₀ (by norm_num) (by omega))
    have hhalf : 1 / ((2 : ℕ) : K) ^ p ≤ ((2 : ℕ) : K) ^ (-1 : ℤ) := by
      rw [one_div, zpow_neg_one]
      exact inv_anti₀ htwo (le_self_pow₀ (by norm_num) hp.ne')
    have hsum : ((2 : ℕ) : K) ^ (-1 : ℤ) + ((2 : ℕ) : K) ^ (-1 : ℤ) = 1 := by
      rw [zpow_neg_one]
      push_cast
      norm_num
    linarith
  · have hunit : unit p x = 1 / ((2 : ℕ) : K) ^ p := by
      rw [unit, abs_of_pos hx, heq, zero_sub, neg_add_cancel, zero_sub, zpow_neg, zpow_natCast,
        one_div]
    have hN : (0 : K) < ((2 : ℕ) : K) ^ p := by positivity
    rw [roundTo, hunit, mul_one_div, div_lt_one hN] at h
    have hint : roundEven (x / (1 / ((2 : ℕ) : K) ^ p)) + 1 ≤ ((2 ^ p : ℕ) : ℤ) := by
      have hcast : ((roundEven (x / (1 / ((2 : ℕ) : K) ^ p)) : ℤ) : K) < (((2 ^ p : ℕ) : ℤ) : K) := by
        push_cast at h ⊢
        exact h
      exact Int.cast_lt.mp hcast
    rw [roundTo, hunit, mul_one_div, div_le_iff₀ hN, sub_mul, div_mul_cancel₀ _ hN.ne', one_mul,
      le_sub_iff_add_le]
    exact_mod_cast hint

end Digits

/-! ## Doubles -/

section Doubles
variable {K : Type*} [Field K] [LinearOrder K] [FloorRing K]

/-- The 53 digits of a double; the special values stay what they are. -/
def roundDouble : Double K → Double K
  | .fin x => .fin (roundTo 53 x)
  | a => a

@[simp] theorem roundDouble_fin (x : K) : roundDouble (.fin x) = .fin (roundTo 53 x) := rfl

end Doubles
end NearestEven
