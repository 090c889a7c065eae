import Mathlib
import Plfit.Search.BlockPointers
import Plfit.Search.LinearScan

/-! # The probe tables of the continuous search

On a sorted array of numbers the table of block pointers lists the first occurrences of the
distinct values. Tables cut out of it again point to increasing positions.
-/
namespace Plfit
open ExactArithmetic SortedBlocks

section Sorting
variable {K : Type} [LinearOrder K]

theorem iCopyAndSort_map (xs : List K) :
    iCopyAndSort (xs.map Double.fin) = (xs.insertionSort (· ≤ ·)).map Double.fin := by
  rw [iCopyAndSort]
  refine (List.map_insertionSort (· ≤ ·) _ Double.fin xs ?_).symm
  intro a _ b _
  simp

theorem dropWhile_lt_map {xs : List K} (hs : xs.SortedLE) (v : K) :
    (xs.map Double.fin).dropWhile (fun x => x < Double.fin v) =
      (xs.drop (below xs v)).map Double.fin := by
  rw [List.dropWhile_map, ← dropWhile_lt hs]
  simp [Function.comp_def]

omit [LinearOrder K] in
theorem deref_map {xs : List K} {p : ℕ} {x : K} (h : xs[p]? = some x) :
    deref (xs.map Double.fin) p = .ok (.fin x) := by
  rw [deref_eq_ok, List.getElem?_map, h]
  rfl

end Sorting

/-! ## The table of first occurrences -/

section Uniques
variable {K : Type} [LinearOrder K]

/-- On numbers the positions at which the value changes are the first occurrences. -/
theorem blockStart_map_iff {xs : List K} (hs : xs.SortedLE) (p : ℕ) :
    BlockStart (xs.map Double.fin) p ↔ p ∈ starts xs := by
  have hget : ∀ {q : ℕ} {x : K}, xs[q]? = some x →
      (xs.map Double.fin)[q]? = some (Double.fin x) := by
    intro q x hx
    rw [List.getElem?_map, hx]
    rfl
  constructor
  · rintro ⟨_, hx, hne⟩
    obtain ⟨x, hx', rfl⟩ : ∃ x, xs[p]? = some x ∧ Double.fin x = _ := by simpa using hx
    rw [getElem?_of_mem_starts hs hx']
    cases p with
    | zero => exact (Nat.eq_zero_of_not_pos fun h => lt_irrefl x ((lt_iff_lt_below hs hx' x).mpr h)).symm
    | succ p =>
      have hp : p < xs.length := (Nat.lt_succ_self p).trans (List.getElem?_eq_some_iff.mp hx').1
      have hprev : xs[p]? = some xs[p] := List.getElem?_eq_getElem hp
      refine eq_below_of_ne hs hx' hprev ?_
      intro heq
      exact hne p _ rfl (hget hprev) (by simp [heq])
  · intro hp
    have hlt := lt_length_of_mem_starts hs hp
    have hx : xs[p]? = some xs[p] := List.getElem?_eq_getElem hlt
    refine ⟨.fin xs[p], hget hx, ?_⟩
    rintro q _ rfl hy hbeq
    obtain ⟨y, hy', rfl⟩ : ∃ y, xs[q]? = some y ∧ Double.fin y = _ := by simpa using hy
    -- the element before a first occurrence is below it
    have hbelow := (getElem?_of_mem_starts hs hx).mp hp
    have hyx := (lt_iff_lt_below hs hy' xs[q + 1]).mpr (by omega)
    exact hyx.ne' (by simpa using hbeq)

theorem uniqueElementPointers_map {xs : List K} (hs : xs.SortedLE) :
    uniqueElementPointers (xs.map Double.fin) =
      .ok ((starts xs).map some ++ [none], (starts xs).length) := by
  obtain ⟨positions, hrun, hsorted, hmem⟩ := uniqueElementPointers_positions (xs.map Double.fin)
  have hstarts : positions = starts xs := by
    refine hsorted.eq_of_mem_iff (starts_sortedLT hs) ?_
    intro p
    rw [hmem, blockStart_map_iff hs]
  rw [hrun, hstarts]

end Uniques

/-! ## Tables of probes -/

section Tables
variable {K : Type}

/-- A table whose entries are increasing positions of the data. -/
theorem probesAt_of_sortedLT {data : XminOptData K} {positions : List ℕ}
    (hs : positions.SortedLT) (hlt : ∀ p ∈ positions, p < data.xs.length)
    (hpos : 0 < data.numProbes) (hlen : data.numProbes ≤ positions.length)
    (hget : ∀ i < data.numProbes, data.probes[i]? = positions[i]?.map some) :
    ProbesAt data (positions.getD · 0) := by
  have hgetD : ∀ i < data.numProbes, positions[i]? = some (positions.getD i 0) := by
    intro i hi
    rw [List.getElem?_eq_getElem (hi.trans_le hlen), List.getD_eq_getElem]
  refine ⟨hpos, ?_, ?_, ?_⟩
  · intro i hi
    rw [hget i hi, hgetD i hi]
    rfl
  · intro i hi
    exact hlt _ (List.mem_of_getElem? (hgetD i hi))
  · intro i j hij hj
    rw [List.getD_eq_getElem _ _ ((hij.trans hj).trans_le hlen),
      List.getD_eq_getElem _ _ (hj.trans_le hlen)]
    exact hs.getElem_lt_getElem_iff.mpr hij

end Tables
end Plfit
