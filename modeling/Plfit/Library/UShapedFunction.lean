import Mathlib

/-! # Functions that fall and then rise

Strictly between two points such a function stays below the greater of their values, so the values
at two points tell on which side nothing better can lie.
-/
namespace UShapedFunction
variable {α β : Type*} [LinearOrder α] [LinearOrder β]

/-- `f` falls from `lo` to `x` and rises from `x` to `hi`. -/
structure UShaped (f : α → β) (lo hi x : α) : Prop where
  mem : x ∈ Set.Icc lo hi
  anti : StrictAntiOn f (Set.Icc lo x)
  mono : StrictMonoOn f (Set.Icc x hi)

/-- `q` lies strictly between `p` and `r`, in either orientation. -/
def Between (p q r : α) : Prop := p < q ∧ q < r ∨ r < q ∧ q < p

theorem Between.symm {p q r : α} (h : Between p q r) : Between r q p := Or.symm h

theorem Between.mem {p q r lo hi : α} (h : Between p q r) (hp : p ∈ Set.Icc lo hi)
    (hr : r ∈ Set.Icc lo hi) : q ∈ Set.Icc lo hi := by
  rcases h with ⟨hpq, hqr⟩ | ⟨hrq, hqp⟩
  · exact ⟨hp.1.trans hpq.le, hqr.le.trans hr.2⟩
  · exact ⟨hr.1.trans hrq.le, hqp.le.trans hp.2⟩

variable {f : α → β} {lo hi x : α}

theorem UShaped.le_of_mem (h : UShaped f lo hi x) {y : α} (hy : y ∈ Set.Icc lo hi) :
    f x ≤ f y := by
  rcases le_total y x with hyx | hxy
  · exact h.anti.antitoneOn ⟨hy.1, hyx⟩ (Set.right_mem_Icc.mpr h.mem.1) hyx
  · exact h.mono.monotoneOn (Set.left_mem_Icc.mpr h.mem.2) ⟨hxy, hy.2⟩ hxy

theorem UShaped.lt_max (h : UShaped f lo hi x) {p q r : α} (hp : p ∈ Set.Icc lo hi)
    (hr : r ∈ Set.Icc lo hi) (hq : Between p q r) : f q < max (f p) (f r) := by
  have hordered : ∀ p r : α, p ∈ Set.Icc lo hi → r ∈ Set.Icc lo hi → p < q → q < r →
      f q < max (f p) (f r) := by
    intro p r hp hr hpq hqr
    rcases le_total q x with hqx | hxq
    · have hfall : f q < f p := h.anti ⟨hp.1, hpq.le.trans hqx⟩ ⟨hp.1.trans hpq.le, hqx⟩ hpq
      exact hfall.trans_le (le_max_left _ _)
    · have hrise : f q < f r := h.mono ⟨hxq, hqr.le.trans hr.2⟩ ⟨hxq.trans hqr.le, hr.2⟩ hqr
      exact hrise.trans_le (le_max_right _ _)
  rcases hq with ⟨hpq, hqr⟩ | ⟨hrq, hqp⟩
  · exact hordered p r hp hr hpq hqr
  · rw [max_comm]
    exact hordered r p hr hp hrq hqp

theorem UShaped.not_between (h : UShaped f lo hi x) {p q r : α} (hp : p ∈ Set.Icc lo hi)
    (hr : r ∈ Set.Icc lo hi) (hpq : f p ≤ f q) (hrq : f r ≤ f q) : ¬ Between p q r :=
  fun hq => (h.lt_max hp hr hq).not_ge (max_le hpq hrq)

/-- Of four points in a row, a point between the outer ones that is no worse than the inner ones
lies on the side of the better inner one. -/
theorem UShaped.mem_uIcc_of_le (h : UShaped f lo hi x) {a c d b y : α}
    (ha : a ∈ Set.Icc lo hi) (hb : b ∈ Set.Icc lo hi) (hc : Between a c d) (hd : Between c d b)
    (hy : y ∈ Set.uIcc a b) (hle : f c ≤ f d) (hyd : f y ≤ f d) : y ∈ Set.uIcc d a := by
  have hy' : y ∈ Set.Icc lo hi := Set.uIcc_subset_Icc ha hb hy
  rcases hc with ⟨hac, hcd⟩ | ⟨hdc, hca⟩
  · have hdb : d < b := (hd.resolve_right fun h' => h'.2.not_ge hcd.le).2
    have hab : a ≤ b := (hac.trans (hcd.trans hdb)).le
    rw [Set.uIcc_of_le hab] at hy
    rw [Set.uIcc_of_ge (hac.trans hcd).le]
    have hbetween := h.not_between ⟨ha.1.trans hac.le, (hcd.trans hdb).le.trans hb.2⟩ hy' hle hyd
    exact ⟨hy.1, not_lt.mp fun hdy => hbetween (Or.inl ⟨hcd, hdy⟩)⟩
  · have hbd : b < d := (hd.resolve_left fun h' => h'.1.not_ge hdc.le).1
    have hba : b ≤ a := (hbd.trans (hdc.trans hca)).le
    rw [Set.uIcc_of_ge hba] at hy
    rw [Set.uIcc_of_le (hdc.trans hca).le]
    have hbetween := h.not_between ⟨hb.1.trans (hbd.trans hdc).le, hca.le.trans ha.2⟩ hy' hle hyd
    exact ⟨not_lt.mp fun hyd' => hbetween (Or.inr ⟨hyd', hdc⟩), hy.2⟩

end UShapedFunction
