import Mathlib
import Plfit.Search.DiscreteSearch

/-! # The set of candidates of the discrete search

The search is meant to leave at least three distinct values in the tail of a candidate. It
does so unless the last value it should evaluate occurs more than once: then it evaluates the
next one as well.
-/
namespace Plfit
open ExactArithmetic SortedBlocks
variable {K : Type} [Field K] [LinearOrder K]

omit [Field K] in
theorem overrun_eq_nil_iff (xs vs : List K) :
    overrun xs vs = [] ↔ (3 ≤ vs.length → ∀ v ∈ vs[vs.length - 3]?, xs.count v = 1) := by
  unfold overrun
  constructor
  · intro hnil hlen v hv
    by_contra hcount
    have hall : ∀ w ∈ vs[vs.length - 3]?, xs.count w ≠ 1 := by
      intro w hw
      rwa [Option.mem_unique hw hv]
    have hget : vs[vs.length - 2]? = some (vs.get ⟨vs.length - 2, by omega⟩) :=
      List.getElem?_eq_getElem _
    rw [if_pos ⟨hlen, hall⟩, hget] at hnil
    simp at hnil
  · intro hcond
    refine if_neg ?_
    rintro ⟨hlen, hall⟩
    have hget : vs[vs.length - 3]? = some (vs.get ⟨vs.length - 3, by omega⟩) :=
      List.getElem?_eq_getElem _
    exact hall _ hget (hcond hlen _ hget)

section Unsorted
variable [FloorRing K] [MathLibrary K] [IsStrictOrderedRing K] {E : Environment K}
variable {options : DiscreteOptions K} {xs : List K}

/-- The run on the sorted copy, in terms of the samples as they came. -/
theorem discreteSearch_evaluated {last : DiscreteScan K}
    (h : discreteSearch E options (iCopyAndSort (xs.map .fin)) = .ok (.ok last)) :
    last.evaluated = (expectedCandidates (valuesFrom xs 1)).map (below xs) ++
      (overrun xs (valuesFrom xs 1)).map (below xs) := by
  have hs : (xs.insertionSort (· ≤ ·)).SortedLE := List.sortedLE_insertionSort
  have hperm := List.perm_insertionSort (· ≤ ·) xs
  have hbelow : below (xs.insertionSort (· ≤ ·)) = below xs := funext (below_eq_of_perm hperm)
  have hoverrun : ∀ vs, overrun (xs.insertionSort (· ≤ ·)) vs = overrun xs vs := by
    intro vs
    simp only [overrun, hperm.count_eq]
  rw [iCopyAndSort_map] at h
  rw [(discreteSearch_spec hs h).1, evaluatedValues, valuesFrom_eq_of_perm hperm, hoverrun,
    hbelow, List.map_append]

/-- A run without a failure evaluates exactly the expected values, each at its first
occurrence, if and only if the last of them occurs once, when there are three values. -/
theorem discreteSearch_candidates_iff {last : DiscreteScan K}
    (h : discreteSearch E options (iCopyAndSort (xs.map .fin)) = .ok (.ok last)) :
    last.evaluated = (expectedCandidates (valuesFrom xs 1)).map (below xs) ↔
      (3 ≤ (valuesFrom xs 1).length →
        ∀ v ∈ (valuesFrom xs 1)[(valuesFrom xs 1).length - 3]?, xs.count v = 1) := by
  rw [discreteSearch_evaluated h, List.append_right_eq_self, List.map_eq_nil_iff,
    overrun_eq_nil_iff]

theorem discreteSearch_runs (E : Environment K) (options : DiscreteOptions K) (hne : xs ≠ [])
    (hmethod : options.alphaMethod = .lbfgs) (hlbfgs : ∀ f x, 0 ≤ (E.lbfgs f x).1) :
    ∃ last, discreteSearch E options (iCopyAndSort (xs.map .fin)) = .ok (.ok last) := by
  have hs : (xs.insertionSort (· ≤ ·)).SortedLE := List.sortedLE_insertionSort
  rw [iCopyAndSort_map]
  refine discreteSearch_total hs ?_ ?_
  · intro hnil
    exact hne (List.perm_nil.mp (hnil ▸ (List.perm_insertionSort (· ≤ ·) xs).symm))
  · intro v hv
    obtain ⟨hmem, h1⟩ := mem_of_mem_evaluatedValues hv
    exact estimated_of_lbfgs hs hmethod hlbfgs hmem h1

end Unsorted

/-! Three values, the first of them once or twice. -/

theorem valuesFrom_threeValues {xs : List ℝ} (h : ∀ v, v ∈ xs ↔ v = 1 ∨ v = 2 ∨ v = 3) :
    valuesFrom xs 1 = [1, 2, 3] := by
  refine valuesFrom_eq ?_ ?_
  · rw [List.sortedLT_iff_pairwise]
    norm_num
  · intro v
    rw [h v]
    constructor
    · intro hv
      have hv' : v = 1 ∨ v = 2 ∨ v = 3 := by simpa using hv
      refine ⟨hv', ?_⟩
      rcases hv' with rfl | rfl | rfl <;> norm_num
    · rintro ⟨hv, -⟩
      simpa using hv

theorem discreteSearch_candidates_once :
    ∃ last, discreteSearch idleEnvironment discreteDefaultOptions
        (iCopyAndSort ([(1 : ℝ), 2, 3].map .fin)) = .ok (.ok last) ∧
      last.evaluated =
        (expectedCandidates (valuesFrom [(1 : ℝ), 2, 3] 1)).map (below [(1 : ℝ), 2, 3]) := by
  have hne : [(1 : ℝ), 2, 3] ≠ [] := by simp
  obtain ⟨last, hlast⟩ := discreteSearch_runs idleEnvironment discreteDefaultOptions hne rfl
    (fun _ _ => le_rfl)
  refine ⟨last, hlast, (discreteSearch_candidates_iff hlast).mpr ?_⟩
  intro _ v hv
  rw [valuesFrom_threeValues (by simp)] at hv
  obtain rfl : (1 : ℝ) = v := by simpa using hv
  norm_num

/-- The smallest value occurs twice, and the second one is evaluated as well. -/
theorem discreteSearch_overruns :
    ∃ last, discreteSearch idleEnvironment discreteDefaultOptions
        (iCopyAndSort ([(1 : ℝ), 1, 2, 3].map .fin)) = .ok (.ok last) ∧
      last.evaluated ≠
        (expectedCandidates (valuesFrom [(1 : ℝ), 1, 2, 3] 1)).map (below [(1 : ℝ), 1, 2, 3]) := by
  have hne : [(1 : ℝ), 1, 2, 3] ≠ [] := by simp
  obtain ⟨last, hlast⟩ := discreteSearch_runs idleEnvironment discreteDefaultOptions hne rfl
    (fun _ _ => le_rfl)
  refine ⟨last, hlast, ?_⟩
  rw [discreteSearch_evaluated hlast, Ne, List.append_right_eq_self, List.map_eq_nil_iff,
    overrun_eq_nil_iff, valuesFrom_threeValues (by simp)]
  intro hcond
  have hcount := hcond (by simp) 1 (by simp)
  simp at hcount

end Plfit
