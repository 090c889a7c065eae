import Mathlib

/-! # Moments of a sample

The mean and the central moments of a list of numbers. The deviations from the mean add up to zero,
and their squares do only for equal numbers.
-/
namespace SampleMoments

section Sums
variable {K : Type*} [Field K]

def mean (ys : List K) : K := ys.sum / ys.length

def powerSum (k : ℕ) (ys : List K) : K := (ys.map fun y => (y - mean ys) ^ k).sum

def centralMoment (k : ℕ) (ys : List K) : K := powerSum k ys / ys.length

def variance (ys : List K) : K := powerSum 2 ys / (ys.length - 1)

theorem sum_sub_const (ys : List K) (c : K) :
    (ys.map fun y => y - c).sum = ys.sum - ys.length * c := by
  induction ys with
  | nil => simp
  | cons y ys ih =>
    rw [List.map_cons, List.sum_cons, ih, List.sum_cons, List.length_cons]
    push_cast
    ring

variable [CharZero K]

theorem powerSum_one (ys : List K) : powerSum 1 ys = 0 := by
  have hpow : (fun y => (y - mean ys) ^ 1) = fun y => y - mean ys := by
    funext y
    exact pow_one _
  rw [powerSum, hpow, sum_sub_const, mean]
  cases ys with
  | nil => simp
  | cons y ys =>
    have hlen : ((y :: ys).length : K) ≠ 0 := Nat.cast_ne_zero.mpr (Nat.succ_ne_zero _)
    rw [mul_div_cancel₀ _ hlen, sub_self]

end Sums

section Order
variable {K : Type*} [Field K] [LinearOrder K] [IsStrictOrderedRing K] {ys : List K}

theorem powerSum_two_nonneg (ys : List K) : 0 ≤ powerSum 2 ys := by
  apply List.sum_nonneg
  intro d hd
  obtain ⟨y, -, rfl⟩ := List.mem_map.mp hd
  exact sq_nonneg _

theorem powerSum_two_eq_zero_iff : powerSum 2 ys = 0 ↔ ∀ y ∈ ys, y = mean ys := by
  constructor
  · intro hzero y hy
    have hnonneg : ∀ d ∈ ys.map fun y => (y - mean ys) ^ 2, 0 ≤ d := by
      intro d hd
      obtain ⟨z, -, rfl⟩ := List.mem_map.mp hd
      exact sq_nonneg _
    have hle := List.single_le_sum hnonneg _ (List.mem_map_of_mem hy)
    rw [powerSum] at hzero
    rw [hzero] at hle
    exact sub_eq_zero.mp (pow_eq_zero_iff two_ne_zero |>.mp (le_antisymm hle (sq_nonneg _)))
  · intro hall
    apply List.sum_eq_zero
    intro d hd
    obtain ⟨y, hy, rfl⟩ := List.mem_map.mp hd
    rw [hall y hy, sub_self, zero_pow two_ne_zero]

theorem mean_replicate {n : ℕ} (hn : n ≠ 0) (c : K) : mean (List.replicate n c) = c := by
  have hn' : (n : K) ≠ 0 := Nat.cast_ne_zero.mpr hn
  rw [mean, List.sum_replicate, List.length_replicate, nsmul_eq_mul, mul_div_cancel_left₀ _ hn']

theorem powerSum_two_ne_zero_iff : powerSum 2 ys ≠ 0 ↔ ∃ y ∈ ys, ∃ z ∈ ys, y ≠ z := by
  rw [Ne, powerSum_two_eq_zero_iff]
  constructor
  · intro h
    by_contra hequal
    push Not at hequal
    cases ys with
    | nil => exact h (by simp)
    | cons x xs =>
      have hrep : x :: xs = List.replicate (xs.length + 1) x :=
        List.eq_replicate_of_mem fun y hy => hequal y hy x List.mem_cons_self
      apply h
      intro y hy
      rw [hequal y hy x List.mem_cons_self, hrep, mean_replicate (Nat.succ_ne_zero _)]
  · rintro ⟨y, hy, z, hz, hne⟩ hall
    exact hne ((hall y hy).trans (hall z hz).symm)

end Order
end SampleMoments
