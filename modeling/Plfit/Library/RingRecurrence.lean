import Mathlib

/-! # Recurrences in a ring of cells

A recurrence gives every term of a stream from the term one order before it, the next one, and
a third one at a fixed distance. A ring with as many cells as the order holds a window of the
stream, the term `p` in the cell `p` modulo the order. Overwriting the oldest cell with the
next term moves the window by one.
-/
namespace RingRecurrence
variable {α : Type*}

structure Recurrence (α : Type*) where
  order : ℕ
  tap : ℕ
  next : α → α → α → α
  one_lt_order : 1 < order
  tap_lt_order : tap < order

namespace Recurrence
variable (R : Recurrence α)

def Obeys (y : ℕ → α) : Prop :=
  ∀ k, y (k + R.order) = R.next (y k) (y (k + 1)) (y (k + R.tap))

def stream (start : ℕ → α) (p : ℕ) : α :=
  if p < R.order then start p
  else R.next (stream start (p - R.order)) (stream start (p - R.order + 1))
    (stream start (p - R.order + R.tap))
termination_by p
decreasing_by
  all_goals
    have := R.one_lt_order
    have := R.tap_lt_order
    omega

/-- The cells hold the terms from `t` on. -/
def Window (y : ℕ → α) (t : ℕ) (cells : ℕ → α) : Prop :=
  ∀ p, t ≤ p → p < t + R.order → cells (p % R.order) = y p

variable {R} {x y : ℕ → α} {t : ℕ} {cells : ℕ → α}

theorem order_pos : 0 < R.order := Nat.zero_lt_of_lt R.one_lt_order

theorem stream_of_lt {start : ℕ → α} {p : ℕ} (h : p < R.order) : R.stream start p = start p := by
  rw [stream, if_pos h]

theorem obeys_stream (start : ℕ → α) : R.Obeys (R.stream start) := by
  intro k
  rw [stream, if_neg (Nat.not_lt.mpr (Nat.le_add_left _ k)), Nat.add_sub_cancel]

theorem Obeys.shift (h : R.Obeys y) (s : ℕ) : R.Obeys (fun k => y (s + k)) := by
  intro k
  simpa only [Nat.add_assoc] using h (s + k)

theorem Obeys.ext (hx : R.Obeys x) (hy : R.Obeys y) (h : ∀ p < R.order, x p = y p) : x = y := by
  funext p
  induction p using Nat.strong_induction_on with
  | h p ih =>
    by_cases hp : p < R.order
    · exact h p hp
    · obtain ⟨k, rfl⟩ : ∃ k, p = k + R.order := ⟨p - R.order, by omega⟩
      have hone := R.one_lt_order
      have htap := R.tap_lt_order
      rw [hx k, hy k, ih k (by omega), ih (k + 1) (by omega), ih (k + R.tap) (by omega)]

theorem Window.get (h : R.Window y t cells) {d : ℕ} (hd : d < R.order) :
    cells ((t + d) % R.order) = y (t + d) :=
  h (t + d) (Nat.le_add_right t d) (Nat.add_lt_add_left hd t)

theorem Window.step (hy : R.Obeys y) (h : R.Window y t cells) :
    R.Window y (t + 1) (Function.update cells (t % R.order)
      (R.next (cells (t % R.order)) (cells ((t + 1) % R.order))
        (cells ((t + R.tap) % R.order)))) := by
  intro p htp hpt
  have hnew : R.next (cells (t % R.order)) (cells ((t + 1) % R.order))
      (cells ((t + R.tap) % R.order)) = y (t + R.order) := by
    have hzero := h.get (order_pos (R := R))
    rw [Nat.add_zero] at hzero
    rw [hy t, hzero, h.get R.one_lt_order, h.get R.tap_lt_order]
  rw [hnew]
  rcases Nat.lt_or_ge p (t + R.order) with hlt | hge
  · have hne : p % R.order ≠ t % R.order := by
      intro hmod
      have hdvd : R.order ∣ p - t := (Nat.modEq_iff_dvd' (by omega)).mp hmod.symm
      exact Nat.not_dvd_of_pos_of_lt (by omega) (by omega) hdvd
    rw [Function.update_of_ne hne]
    exact h p (by omega) hlt
  · obtain rfl : p = t + R.order := by omega
    rw [Nat.add_mod_right, Function.update_self]

/-- A window that starts a block starts with it again. -/
theorem Window.of_block (h : R.Window y R.order cells) :
    R.Window (fun k => y (R.order + k)) 0 cells := by
  intro p _ hp
  rw [Nat.zero_add] at hp
  have hcell := h (R.order + p) (Nat.le_add_right _ p) (Nat.add_lt_add_left hp _)
  rwa [Nat.add_mod_left] at hcell

/-- The cells start their own stream. -/
theorem window_stream (cells : ℕ → α) : R.Window (R.stream cells) 0 cells := by
  intro p _ hp
  rw [Nat.zero_add] at hp
  rw [Nat.mod_eq_of_lt hp, stream_of_lt hp]

end Recurrence
end RingRecurrence
