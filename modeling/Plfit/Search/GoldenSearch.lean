import Mathlib
import Plfit.Search.GoldenBracket
import Plfit.Search.StratifiedSearch

/-! # The golden section search over the probes

The search looks for the least score on a range of reals and evaluates the probe whose index
is the integer part of a point. Its callback ends it as soon as the bracket points to one
probe only.
-/
namespace Plfit
open ExactArithmetic SortedBlocks
variable {K : Type} [Field K] [LinearOrder K] [FloorRing K]

/-- The objective that `gssSearch` passes to `gss`. -/
def evaluateAt (evaluate : XminEvaluate K) : GssEvaluate (XminOptData K) K := fun data x => do
  let i ← convert (Double.toSigned 64 (.fin x))
  let data ← evaluate data i.toNat
  return (data, data.last.D)

def iContinuousXminOptProgress : GssProgress (XminOptData K) K :=
  fun _ _ _ _ _ left right _ => do
    let l ← convert (Double.toSigned 32 (.fin left))
    let r ← convert (Double.toSigned 32 (.fin right))
    return decide (l = r)

/-- What `plfit_continuous` does with the end of the search. -/
def takeMinimum (data : XminOptData K) (best : BestFit K) (out : GssOutcome (XminOptData K) K) :
    Exec (XminSearch K) :=
  match out.status, out.min with
  | .success, some x => do
    let i ← convert (Double.toSigned 32 (.fin x))
    let px ← derefPointer out.data.probes i.toNat
    return { success := true
             best := { result := out.data.last, n := data.xs.length - px + 1 }
             evaluated := out.data.evaluated
             last := out.data.last }
  | _, _ => return { success := false, best := best, evaluated := out.data.evaluated,
                     last := out.data.last }

theorem gssSearch_eq (evaluate : XminEvaluate K) (data : XminOptData K) (best : BestFit K) :
    gssSearch evaluate data best =
      gss (evaluateAt evaluate) (some iContinuousXminOptProgress) gssDefaultParameter 0
        (sizeSub data.numProbes 5 : K) data >>= takeMinimum data best := by
  rfl

variable [IsStrictOrderedRing K]

theorem toSigned_of_le {n : ℕ} (hn : n < 2 ^ 31) {x : K} (hx : x ∈ Set.Icc 0 (n : K)) :
    Double.toSigned 32 (.fin x) = some (⌊x⌋₊ : ℤ) ∧ Double.toSigned 64 (.fin x) = some (⌊x⌋₊ : ℤ) ∧
      ⌊x⌋₊ ≤ n := by
  have hcast : (n : K) < 2 ^ 31 := by exact_mod_cast hn
  have hpow : (2 ^ 31 : K) ≤ 2 ^ 63 := pow_le_pow_right₀ one_le_two (by norm_num)
  have hlt : x < 2 ^ 31 := hx.2.trans_lt hcast
  exact ⟨Double.toSigned_of_lt hx.1 hlt, Double.toSigned_of_lt hx.1 (hlt.trans_le hpow),
    Nat.floor_le_of_le hx.2⟩

section Ranges
variable {evaluate : XminEvaluate K} {Good : XminOptData K → Prop}
variable {Shows : ℕ → XminOptData K → Prop} {n : ℕ}

/-- Evaluations of probes give a search on the range of their indexes. -/
theorem searchesProbes (hn : n < 2 ^ 31)
    (hstep : ∀ d, Good d → ∀ j ≤ n, ∃ d', evaluate d j = .ok d' ∧ Good d' ∧ Shows j d') :
    SearchesRange (evaluateAt evaluate) iContinuousXminOptProgress 0 (n : K) Good
      (fun x fx d => fx = d.last.D ∧ Shows ⌊x⌋₊ d)
      (fun left right => decide (⌊left⌋₊ = ⌊right⌋₊)) where
  evaluate := by
    intro d x hd hx
    obtain ⟨-, hconvert, hle⟩ := toSigned_of_le hn hx
    obtain ⟨d', hrun, hgood, hshows⟩ := hstep d hd _ hle
    refine ⟨d', d'.last.D, ?_, hgood, rfl, hshows⟩
    simp only [evaluateAt, hconvert, convert, bind, Except.bind, Int.toNat_natCast, hrun]
    rfl
  report := by
    intro d x fx m fm left right k hleft hright
    simp only [iContinuousXminOptProgress, (toSigned_of_le hn hleft).1, (toSigned_of_le hn hright).1,
      convert, bind, Except.bind, Int.natCast_inj]
    rfl

theorem evaluateAt_zero {data d : XminOptData K} (hrun : evaluate data 0 = .ok d) :
    evaluateAt evaluate data (0 : K) = .ok (d, d.last.D) := by
  have hconvert : Double.toSigned 64 (.fin (0 : K)) = some (0 : ℤ) := by
    rw [Double.toSigned_of_lt le_rfl (by positivity), Nat.floor_zero]
    rfl
  simp only [evaluateAt, hconvert, convert, bind, Except.bind, Int.toNat_zero, hrun]
  rfl

theorem not_stop_of_pos (hpos : 0 < n) :
    decide (⌊(0 : K)⌋₊ = ⌊(n : K)⌋₊) = false := by
  rw [Nat.floor_zero, Nat.floor_natCast]
  exact decide_eq_false hpos.ne

theorem dblMin_pos : (0 : K) < (gssDefaultParameter (K := K)).epsilon := by
  rw [gssDefaultParameter, dblMin]
  positivity

theorem gss_ends {data d₀ : XminOptData K} (hpos : 0 < n) (hn : n < 2 ^ 31)
    (hstep : ∀ d, Good d → ∀ j ≤ n, ∃ d', evaluate d j = .ok d' ∧ Good d')
    (hfirst : evaluate data 0 = .ok d₀) (hgood : Good d₀) :
    ∃ out, gss (evaluateAt evaluate) (some iContinuousXminOptProgress) gssDefaultParameter 0
        (n : K) data = .ok out ∧ Good out.data ∧
      (out.status = .success → ∃ x ∈ Set.Icc 0 (n : K), out.min = some x) := by
  have hstep' : ∀ d, Good d → ∀ j ≤ n, ∃ d', evaluate d j = .ok d' ∧ Good d' ∧ Good d' := by
    intro d hd j hj
    obtain ⟨d', hrun, hgood'⟩ := hstep d hd j hj
    exact ⟨d', hrun, hgood', hgood'⟩
  have hrange : SearchesRange (evaluateAt evaluate) iContinuousXminOptProgress 0 (n : K) Good
      (fun _ fx d => fx = d.last.D ∧ Good d) (fun left right => decide (⌊left⌋₊ = ⌊right⌋₊)) :=
    searchesProbes hn hstep'
  exact hrange.gss_ok (Nat.cast_nonneg n) (not_stop_of_pos hpos) rfl dblMin_pos
    ⟨d₀, _, evaluateAt_zero hfirst, hgood, rfl, hgood⟩

theorem takeMinimum_ok (data : XminOptData K) (best : BestFit K)
    {out : GssOutcome (XminOptData K) K} (hn : n < 2 ^ 31)
    (hprobes : ∀ j ≤ n, ∃ p, derefPointer out.data.probes j = .ok p)
    (hmin : out.status = .success → ∃ x ∈ Set.Icc 0 (n : K), out.min = some x) :
    ∃ search, takeMinimum data best out = .ok search ∧
      search.evaluated = out.data.evaluated ∧ search.last = out.data.last ∧
      (search.success = true ↔ out.status = .success) ∧
      (out.status = .success → search.best.result = out.data.last ∧
        ∃ j ≤ n, ∃ p, derefPointer out.data.probes j = .ok p ∧
          search.best.n = data.xs.length - p + 1) := by
  unfold takeMinimum
  split
  · rename_i x hstatus hx
    obtain ⟨x', hmem, hx'⟩ := hmin hstatus
    obtain rfl : x = x' := Option.some.inj (hx.symm.trans hx')
    obtain ⟨hconvert, -, hle⟩ := toSigned_of_le hn hmem
    obtain ⟨p, hp⟩ := hprobes _ hle
    simp only [hconvert, convert, bind, Except.bind, Int.toNat_natCast, hp]
    exact ⟨_, rfl, rfl, rfl, iff_of_true rfl hstatus, fun _ => ⟨rfl, _, hle, p, hp, rfl⟩⟩
  · rename_i hnot
    have hfailed : out.status ≠ .success := by
      intro hstatus
      obtain ⟨x, -, hx⟩ := hmin hstatus
      exact hnot x hstatus hx
    exact ⟨_, rfl, rfl, rfl, iff_of_false Bool.false_ne_true hfailed,
      fun hstatus => absurd hstatus hfailed⟩

theorem gssSearch_ok {data d₀ : XminOptData K} (best : BestFit K)
    (hsize : sizeSub data.numProbes 5 = n) (hpos : 0 < n) (hn : n < 2 ^ 31)
    (hstep : ∀ d, Good d → ∀ j ≤ n, ∃ d', evaluate d j = .ok d' ∧ Good d')
    (hprobes : ∀ d, Good d → ∀ j ≤ n, ∃ p, derefPointer d.probes j = .ok p)
    (hfirst : evaluate data 0 = .ok d₀) (hgood : Good d₀) :
    ∃ search d, gssSearch evaluate data best = .ok search ∧ Good d ∧
      search.evaluated = d.evaluated := by
  obtain ⟨out, hrun, hout, hmin⟩ := gss_ends hpos hn hstep hfirst hgood
  obtain ⟨search, htake, hseen, -⟩ := takeMinimum_ok data best hn (hprobes _ hout) hmin
  refine ⟨search, out.data, ?_, hout, hseen⟩
  rw [gssSearch_eq, hsize, hrun]
  exact htake

theorem toSigned_eq_none {x : K} (hx : 2 ^ 31 ≤ x) : Double.toSigned 32 (.fin x) = none := by
  have hnonneg : 0 ≤ x := (by positivity : (0 : K) ≤ 2 ^ 31).trans hx
  have hfloor : 2 ^ 31 ≤ ⌊x⌋ := by
    rw [Int.le_floor]
    exact_mod_cast hx
  rw [Double.toSigned, Double.truncate, if_pos hnonneg, if_neg]
  rintro ⟨-, hlt⟩
  exact absurd hfloor (not_le.mpr hlt)

/-- An `int` holds no bracket end from `2 ^ 31` on. -/
theorem gss_ne_ok (param : GssParameter K) {hi : K} (hlarge : 2 ^ 31 ≤ hi) (data : XminOptData K)
    (out : GssOutcome (XminOptData K) K) :
    gss (evaluateAt evaluate) (some iContinuousXminOptProgress) param 0 hi data ≠ .ok out := by
  intro hgss
  have hpos : 0 < hi := lt_of_lt_of_le (by positivity) hlarge
  have hright : convert (Double.toSigned 32 (.fin hi)) = .error .conversion := by
    rw [toSigned_eq_none hlarge, convert]
  simp only [gss, if_neg hpos.le.not_gt, bind_eq_ok, gssEvaluate] at hgss
  obtain ⟨_, -, _, ⟨_, -, _, hreport, -⟩, -⟩ := hgss
  simp only [apply_ite GssState.a, apply_ite GssState.b, ite_self, if_pos hpos,
    iContinuousXminOptProgress, hright, bind_eq_ok] at hreport
  obtain ⟨_, -, _, hnone, -⟩ := hreport
  cases hnone

theorem gssSearch_ne_ok {data : XminOptData K} (best : BestFit K)
    (hsize : 2 ^ 31 ≤ sizeSub data.numProbes 5) (search : XminSearch K) :
    gssSearch evaluate data best ≠ .ok search := by
  intro h
  rw [gssSearch_eq, bind_eq_ok] at h
  obtain ⟨out, hgss, -⟩ := h
  exact gss_ne_ok _ (by exact_mod_cast hsize) _ _ hgss

end Ranges
end Plfit
