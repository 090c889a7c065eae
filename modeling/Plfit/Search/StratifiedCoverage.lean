import Mathlib
import Plfit.Search.StratifiedSearch

/-! # What the stratified search covers

The two stages promise the least score among the strata and among all values around the best
stratum. Two values are left out: the last stratum, by the coarse scan, and the last value
before the next stratum, by the fine scan. The promise is kept exactly when neither of them
beats what is scanned.
-/
namespace Plfit
open ExactArithmetic SortedBlocks StrictScan
variable {K : Type}

section Coverage
variable [Field K] [LinearOrder K]

/-- The score is no larger than that of any stratum, nor than that of any distinct value from
the stratum before the best one up to the stratum after it. -/
def CoversStrata (score : ℕ → Double K) (numUniques : ℕ) (D : Double K) : Prop :=
  (∀ i < numUniques / subdivisionLength, ¬ score (i * subdivisionLength) < D) ∧
  ∀ i, IsFirstBest (fun s => score (s * subdivisionLength))
      (numUniques / subdivisionLength - 1) i →
    ∀ j, (i - 1) * subdivisionLength ≤ j → j < (i + 1) * subdivisionLength → ¬ score j < D

/-- The values that decide: the last one of the window, and the last stratum. -/
theorem coversStrata_iff (score : ℕ → Double K) {k : ℕ} (hn : 50 ≤ k) {D : Double K}
    (hD : ∀ x, ¬ score x < D ↔
      value (fun j => (score j).rank) (scoreBound K) (stratifiedBest (fun j => (score j).rank) k) ≤
        (score x).rank) :
    CoversStrata score k D ↔
      ∀ i, IsFirstBest (fun s => score (s * subdivisionLength)) (k / subdivisionLength - 1) i →
        ∃ j, (i - 1) * subdivisionLength ≤ j ∧ j + 1 < (i + 1) * subdivisionLength ∧
          score j ≤ score (i * subdivisionLength) ∧
          ¬ score ((i + 1) * subdivisionLength - 1) < score j ∧
          ¬ score ((k / subdivisionLength - 1) * subdivisionLength) < score j := by
  have hten : (subdivisionLength : ℕ) = 10 := rfl
  have hfirst : ∀ i, IsFirstBest (fun s => score (s * subdivisionLength))
      (k / subdivisionLength - 1) i ↔ bestStratum (fun j => (score j).rank) k = some i :=
    fun i => scan_range_eq_some_iff.symm
  have hmid : ∀ i, i + 1 < k / subdivisionLength →
      i * subdivisionLength ∈ finePositions k i := by
    intro i hi
    rw [mem_finePositions hi, hten]
    omega
  have hfinite : ∀ i, bestStratum (fun j => (score j).rank) k = some i →
      (score (i * subdivisionLength)).rank < ⊤ := fun i hi =>
    (lt_bound_of_scan hi).trans (WithBot.coe_lt_coe.mpr (WithTop.coe_lt_top _))
  rw [CoversStrata]
  simp only [hD]
  constructor
  · rintro ⟨hstrata, hwindow⟩ i hi
    have hbest := (hfirst i).mp hi
    have hlt := bestStratum_lt hbest
    rw [stratifiedBest, hbest] at hstrata hwindow
    dsimp only at hstrata hwindow
    have hle : value (fun j => (score j).rank) (scoreBound K)
        (scan (fun j => (score j).rank) (scoreBound K) (finePositions k i)) ≤
          (score (i * subdivisionLength)).rank := value_scan_le_of_mem (hmid i hlt)
    cases hscan : scan (fun j => (score j).rank) (scoreBound K) (finePositions k i) with
    | none =>
      rw [hscan] at hle
      exact absurd (lt_bound_of_scan hbest) hle.not_gt
    | some w =>
      rw [hscan] at hle hstrata hwindow
      simp only [value_some] at hle hstrata hwindow
      have hw := (mem_finePositions hlt).mp (mem_of_scan hscan)
      have hnan : score w ≠ .nan := by
        intro hnan
        rw [hnan] at hle
        exact (hfinite i hbest).not_ge hle
      refine ⟨w, hw.1, hw.2, (Double.le_iff_rank_le (hfinite i hbest)).mpr hle, ?_, ?_⟩
      · rw [Double.lt_iff_rank_lt hnan, not_lt]
        exact hwindow i hi _ (by omega) (by omega)
      · rw [Double.lt_iff_rank_lt hnan, not_lt]
        exact hstrata _ (by omega)
  · intro hcond
    cases hbest : bestStratum (fun j => (score j).rank) k with
    | none =>
      rw [stratifiedBest, hbest]
      refine ⟨?_, ?_⟩
      · intro i hi
        rw [hten] at hi ⊢
        exact value_scan_le_of_mem (List.mem_range.mpr (by omega))
      · intro i hi
        rw [hfirst, hbest] at hi
        exact absurd hi (by simp)
    | some i =>
      have hlt := bestStratum_lt hbest
      obtain ⟨j, hj, hj', hji, hend, hlast⟩ := hcond i ((hfirst i).mpr hbest)
      rw [Double.le_iff_rank_le (hfinite i hbest)] at hji
      have hnan : score j ≠ .nan := by
        intro hnan
        rw [hnan] at hji
        exact (hfinite i hbest).not_ge hji
      rw [Double.lt_iff_rank_lt hnan, not_lt] at hend hlast
      have hfine : ∀ x, x ∈ finePositions k i →
          value (fun j => (score j).rank) (scoreBound K)
            (stratifiedBest (fun j => (score j).rank) k) ≤ (score x).rank := by
        intro x hx
        rw [stratifiedBest, hbest]
        exact value_scan_le_of_mem hx
      have hvj := hfine j ((mem_finePositions hlt).mpr ⟨hj, hj'⟩)
      refine ⟨?_, ?_⟩
      · intro s hs
        rcases Nat.lt_or_ge s (k / subdivisionLength - 1) with h | h
        · have hcoarse := le_of_scan hbest (List.mem_range.mpr h)
          exact (hfine _ (hmid i hlt)).trans hcoarse
        · obtain rfl : s = k / subdivisionLength - 1 := by omega
          exact hvj.trans hlast
      · intro i' hi' x hx hx'
        rw [hfirst, hbest, Option.some.injEq] at hi'
        subst hi'
        rcases Nat.lt_or_ge (x + 1) ((i + 1) * subdivisionLength) with h | h
        · exact hfine x ((mem_finePositions hlt).mpr ⟨hx, h⟩)
        · obtain rfl : x = (i + 1) * subdivisionLength - 1 := by omega
          exact hvj.trans hend

theorem stratifiedSampling_best [FloorRing K] (E : Environment K) (alpha D : ℕ → Double K)
    {xs : List K} (hpositive : ∀ x ∈ xs, 0 < x) (hn : 50 ≤ (distinct xs).length) :
    ∃ search, continuousSearch E (tableEvaluate alpha D) .stratifiedSampling (xs.map .fin) =
        .ok search ∧
      ∀ x, ¬ D (startAt xs x) < search.best.result.D ↔
        value (fun j => (D (startAt xs j)).rank) (scoreBound K)
          (stratifiedBest (fun j => (D (startAt xs j)).rank) (distinct xs).length) ≤
            (D (startAt xs x)).rank := by
  have hs : (xs.insertionSort (· ≤ ·)).SortedLE := List.sortedLE_insertionSort
  rw [← distinct_insertionSort] at hn
  obtain ⟨positions, -, hrun⟩ := xminSearch_stratified E hs
    (fun x hx => hpositive x ((List.mem_insertionSort _).mp hx)) hn
    (followsTables_table alpha D _ _)
  have hkey : uniqueKey D (xs.insertionSort (· ≤ ·)) = fun j => (D (startAt xs j)).rank := by
    funext j
    rw [uniqueKey, startAt_insertionSort]
  refine ⟨_, (continuousSearch_eq E _ _ xs).trans hrun, ?_⟩
  intro x
  have hheld : value (uniqueKey D (xs.insertionSort (· ≤ ·))) (scoreBound K)
      (stratifiedBest (uniqueKey D (xs.insertionSort (· ≤ ·)))
        (distinct (xs.insertionSort (· ≤ ·))).length) ≤ scoreBound K := by
    rw [stratifiedBest]
    split <;> exact value_scan_le _
  have hlt := not_lt_uniqueFit_iff E alpha D (xs.insertionSort (· ≤ ·)) hheld x
  rw [startAt_insertionSort, hkey, distinct_insertionSort] at hlt
  simpa only [hkey, distinct_insertionSort] using hlt

/-- The stratified search keeps its promise if and only if, around the best stratum, some
scanned value is no worse than the last value of the window and the last stratum. -/
theorem stratifiedSampling_covers_iff [FloorRing K] (E : Environment K)
    (alpha D : ℕ → Double K) {xs : List K} (hpositive : ∀ x ∈ xs, 0 < x)
    (hn : 50 ≤ (distinct xs).length) :
    (∃ search, continuousSearch E (tableEvaluate alpha D) .stratifiedSampling (xs.map .fin) =
        .ok search ∧
      CoversStrata (fun j => D (startAt xs j)) (distinct xs).length search.best.result.D) ↔
    ∀ i, IsFirstBest (fun s => D (startAt xs (s * subdivisionLength)))
        ((distinct xs).length / subdivisionLength - 1) i →
      ∃ j, (i - 1) * subdivisionLength ≤ j ∧ j + 1 < (i + 1) * subdivisionLength ∧
        D (startAt xs j) ≤ D (startAt xs (i * subdivisionLength)) ∧
        ¬ D (startAt xs ((i + 1) * subdivisionLength - 1)) < D (startAt xs j) ∧
        ¬ D (startAt xs (((distinct xs).length / subdivisionLength - 1) * subdivisionLength)) <
          D (startAt xs j) := by
  obtain ⟨search, hrun, hbest⟩ := stratifiedSampling_best E alpha D hpositive hn
  have hcovers := coversStrata_iff (fun j => D (startAt xs j)) hn hbest
  rw [← hcovers, hrun]
  constructor
  · rintro ⟨search', hsearch, hc⟩
    cases hsearch
    exact hc
  · exact fun hc => ⟨search, rfl, hc⟩

end Coverage

/-! Fifty samples without repetitions: the positions are the places in the order. -/

section Fifty

def fiftySamples : List ℚ := (List.range 50).map (fun i : ℕ => (i : ℚ) + 1)

theorem fiftySamples_sortedLT : fiftySamples.SortedLT := by
  rw [List.sortedLT_iff_pairwise, fiftySamples, List.pairwise_map]
  refine List.pairwise_lt_range.imp ?_
  intro a b hab
  have hcast : (a : ℚ) < b := by exact_mod_cast hab
  linarith

theorem fiftySamples_positive : ∀ x ∈ fiftySamples, 0 < x := by
  intro x hx
  obtain ⟨i, -, rfl⟩ := List.mem_map.mp hx
  positivity

theorem length_distinct_fiftySamples : (distinct fiftySamples).length = 50 := by
  rw [distinct_of_sortedLT fiftySamples_sortedLT, fiftySamples, List.length_map,
    List.length_range]

theorem startAt_fiftySamples {j : ℕ} (hj : j < 50) : startAt fiftySamples j = j := by
  have hlen : j < fiftySamples.length := by simpa [fiftySamples] using hj
  rw [startAt, starts_of_sortedLT fiftySamples_sortedLT, List.getD_eq_getElem _ _ (by simpa),
    List.getElem_range]

def flatScores (_ : ℕ) : Double ℚ := .fin (1 / 2)

/-- The tenth value, the last one before the second stratum, has the least score. -/
def hiddenMinimum (p : ℕ) : Double ℚ := .fin (if p = 9 then 1 / 10 else 1 / 2)

theorem stratifiedSampling_covers_flat :
    ∃ search, continuousSearch idleEnvironment (tableEvaluate (fun _ => 2) flatScores)
        .stratifiedSampling (fiftySamples.map .fin) = .ok search ∧
      CoversStrata (fun j => flatScores (startAt fiftySamples j))
        (distinct fiftySamples).length search.best.result.D := by
  refine (stratifiedSampling_covers_iff idleEnvironment _ _ fiftySamples_positive
    length_distinct_fiftySamples.ge).mpr ?_
  rintro i -
  refine ⟨i * subdivisionLength, ?_, ?_, ?_, Double.lt_irrefl _, Double.lt_irrefl _⟩
  · exact Nat.mul_le_mul_right _ (Nat.sub_le i 1)
  · simp only [subdivisionLength]
    omega
  · simp [flatScores]

/-- The first stratum wins, and the scan around it stops one value too early. -/
theorem stratifiedSampling_misses_minimum :
    ¬ ∃ search, continuousSearch idleEnvironment (tableEvaluate (fun _ => 2) hiddenMinimum)
        .stratifiedSampling (fiftySamples.map .fin) = .ok search ∧
      CoversStrata (fun j => hiddenMinimum (startAt fiftySamples j))
        (distinct fiftySamples).length search.best.result.D := by
  rintro ⟨search', hsearch, hcovers⟩
  obtain ⟨search, hrun, hbest⟩ := stratifiedSampling_best idleEnvironment (fun _ => 2)
    hiddenMinimum fiftySamples_positive length_distinct_fiftySamples.ge
  obtain rfl : search' = search := by
    rw [hrun] at hsearch
    exact (Except.ok.inj hsearch).symm
  rw [coversStrata_iff _ length_distinct_fiftySamples.ge hbest, length_distinct_fiftySamples]
    at hcovers
  have hscore : ∀ j < 50, hiddenMinimum (startAt fiftySamples j) = hiddenMinimum j :=
    fun j hj => by rw [startAt_fiftySamples hj]
  have hstratum : ∀ s < 50 / subdivisionLength - 1,
      hiddenMinimum (startAt fiftySamples (s * subdivisionLength)) = .fin (1 / 2) := by
    intro s hs
    have hs' : s * subdivisionLength < 50 ∧ s * subdivisionLength ≠ 9 := by
      simp only [subdivisionLength] at hs ⊢
      omega
    rw [hscore _ hs'.1, hiddenMinimum, if_neg hs'.2]
  have hfirst : IsFirstBest
      (fun s => hiddenMinimum (startAt fiftySamples (s * subdivisionLength)))
      (50 / subdivisionLength - 1) 0 := by
    refine ⟨by decide, ?_, ?_, fun s hs => absurd hs (Nat.not_lt_zero s)⟩
    · dsimp only
      rw [hstratum 0 (by decide)]
      exact lt_dblMax_of_le_one (by norm_num)
    · intro s hs
      dsimp only
      rw [hstratum s hs, hstratum 0 (by decide)]
      exact Double.lt_irrefl _
  obtain ⟨j, -, hj, -, hend, -⟩ := hcovers 0 hfirst
  simp only [subdivisionLength] at hj hend
  rw [hscore _ (by omega), hscore _ (by omega)] at hend
  refine hend ?_
  have hne : j ≠ 9 := by omega
  simp only [hiddenMinimum, hne, if_false, Double.fin_lt_fin]
  norm_num

end Fifty

end Plfit
