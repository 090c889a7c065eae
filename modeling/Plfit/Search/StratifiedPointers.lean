import Mathlib
import Plfit.Search.StratifiedCoverage

/-! # The pointers of the stratified search

The strata and the window around the winning one are cut out of the table of distinct values. All
pointers that both stages follow lie in front of the guard, the stratum that has won is found by its
value and by no other, and the window contains it.
-/
namespace Plfit
open ExactArithmetic SortedBlocks StrictScan

section Stages
variable {K : Type} [Field K] [LinearOrder K]

def strataOf (uniques : List (Option ℕ)) (numUniques : ℕ) : Exec (List (Option ℕ)) :=
  (List.range (numUniques / subdivisionLength)).mapM
    (fun i => deref uniques (i * subdivisionLength))

def scanData (E : Environment K) (xs : List (Double K)) (probes : List (Option ℕ))
    (numProbes : ℕ) : XminOptData K :=
  { xs := xs, probes := probes, numProbes := numProbes, last := E.lastResult, evaluated := [] }

/-- Both stages of a search that has found the stratum `i`. The guard is the entry `numUniques` of
the table. -/
structure StratifiedStages (E : Environment K) (evaluate : XminEvaluate K) (xs : List (Double K))
    (uniques : List (Option ℕ)) (numUniques : ℕ) (strata : List (Option ℕ)) (coarse : BestFit K)
    (i : ℕ) (best : BestFit K) : Prop where
  strata_eq : strataOf uniques numUniques = .ok strata
  strata_length : strata.length = numUniques / subdivisionLength
  strata_get : ∀ s < numUniques / subdivisionLength, s * subdivisionLength < numUniques ∧
    ∃ p < xs.length, strata[s]? = some (some p)
  coarse_eq : ∃ seen, iContinuousXminOptLinearScan E evaluate
    (scanData E xs strata (numUniques / subdivisionLength)) = .ok (coarse, seen)
  winner_lt : i < numUniques / subdivisionLength
  matches_iff : ∀ s < numUniques / subdivisionLength, ∃ p x, derefPointer strata s = .ok p ∧
    deref xs p = .ok x ∧ ((x == coarse.result.xmin) = true ↔ s = i)
  window_start : (strataWindow (numUniques / subdivisionLength) i).1 ≤ i * subdivisionLength
  window_end : (strataWindow (numUniques / subdivisionLength) i).1 +
    (strataWindow (numUniques / subdivisionLength) i).2 ≤ numUniques
  fine_eq : ∃ seen, iContinuousXminOptLinearScan E evaluate
      (scanData E xs (uniques.drop (strataWindow (numUniques / subdivisionLength) i).1)
        (strataWindow (numUniques / subdivisionLength) i).2) = .ok (best, seen) ∧
    ∃ p ∈ seen, strata[i]? = some (some p)
  fine_le : best.result.D ≤ coarse.result.D
  two_le : 2 ≤ best.n
  le_length : best.n ≤ xs.length

end Stages

section Pointers
variable {K : Type} [Field K] [LinearOrder K] {evaluate : XminEvaluate K} {alpha D : ℕ → Double K}
variable {xs : List K}

theorem exists_scan {key : ℕ → WithBot (WithTop K)} {positions : List ℕ} {j : ℕ}
    (hj : j ∈ positions) (hkey : key j < scoreBound K) :
    ∃ w, scan key (scoreBound K) positions = some w := by
  cases hscan : scan key (scoreBound K) positions with
  | none => exact absurd hkey (scan_eq_none_iff.mp hscan j hj).not_gt
  | some w => exact ⟨w, rfl⟩

def strataTable (xs : List K) (k : ℕ) : List (Option ℕ) :=
  (List.range (k / subdivisionLength)).map (fun s => some (startAt xs (s * subdivisionLength)))

omit [Field K] in
theorem getElem?_strataTable {k s : ℕ} (hs : s < k / subdivisionLength) :
    (strataTable xs k)[s]? = some (some (startAt xs (s * subdivisionLength))) := by
  simp [strataTable, hs]

theorem stratum_lt {k s : ℕ} (hs : s < k / subdivisionLength) : s * subdivisionLength < k :=
  (Nat.mul_lt_mul_of_pos_right hs (by decide)).trans_le (Nat.div_mul_le_self k _)

/-- A stratum has the value of another one only if it is the other one. -/
theorem stratum_beq_iff (E : Environment K) (hs : xs.SortedLE) {s i : ℕ}
    (hslt : s * subdivisionLength < (distinct xs).length)
    (hilt : i * subdivisionLength < (distinct xs).length) :
    ((.fin (distinct xs)[s * subdivisionLength] : Double K) ==
        (uniqueFit E alpha D xs (some (i * subdivisionLength))).result.xmin) = true ↔ s = i := by
  have hxmin : (uniqueFit E alpha D xs (some (i * subdivisionLength))).result.xmin =
      .fin (distinct xs)[i * subdivisionLength] := uniqueRecord_xmin hs hilt E.lastResult
  rw [hxmin, Double.fin_beq_fin, decide_eq_true_iff, (distinct_sortedLT xs).nodup.getElem_inj_iff]
  exact Nat.mul_left_inj (by decide)

/-- The stages around the stratum that the coarse scan holds, which ends with one of the values that
the fine scan looks at. -/
theorem stages_of_bestStratum (E : Environment K) (hs : xs.SortedLE) {k : ℕ}
    (hk : (distinct xs).length = k) (hn : 50 ≤ k)
    (hfollow : FollowsTables evaluate alpha D (xs.map .fin)
      (fun p => ∃ j < (distinct xs).length - 1, p = startAt xs j)) {i w : ℕ}
    (hbest : bestStratum (uniqueKey D xs) k = some i)
    (hw : scan (uniqueKey D xs) (scoreBound K) (finePositions k i) = some w) :
    StratifiedStages E evaluate (xs.map .fin) ((starts xs).map some ++ [none]) k
      (strataTable xs k) (uniqueFit E alpha D xs (some (i * subdivisionLength))) i
      (uniqueFit E alpha D xs (some w)) := by
  have hten : (subdivisionLength : ℕ) = 10 := rfl
  have hi := bestStratum_lt hbest
  have hilt : i < k / subdivisionLength := by omega
  have hlen : ∀ s < k / subdivisionLength, s * subdivisionLength < (distinct xs).length :=
    fun s hs' => hk.symm ▸ stratum_lt hs'
  have hmem : i * subdivisionLength ∈ finePositions k i := by
    rw [mem_finePositions hi, hten]
    omega
  have hwindow := (mem_finePositions hi).mp (mem_of_scan hw)
  have htail : startAt xs w + 2 ≤ xs.length := by
    refine startAt_add_two_le hs ?_
    rw [hk]
    rw [hten] at hi hwindow
    omega
  have hcount : (uniqueFit E alpha D xs (some w)).n = xs.length - startAt xs w := rfl
  have hcoarse := coarseScan_spec E hs hk hn hfollow
  have hfine := fineScan_spec E hs hk hfollow hi []
  rw [hbest] at hcoarse
  rw [hw] at hfine
  exact
    { strata_eq := strata_eq hs hlen
      strata_length := by simp [strataTable]
      strata_get := by
        intro s hs'
        refine ⟨stratum_lt hs', _, ?_, getElem?_strataTable hs'⟩
        simpa using startAt_lt_length hs (hlen s hs')
      coarse_eq := ⟨_, hcoarse⟩
      winner_lt := hilt
      matches_iff := by
        intro s hs'
        refine ⟨_, _, derefPointer_eq_ok (getElem?_strataTable hs'), deref_startAt hs (hlen s hs'),
          ?_⟩
        exact stratum_beq_iff E hs (hlen s hs') (hlen i hilt)
      window_start := by
        rw [strataWindow_of_lt hi, hten]
        omega
      window_end := by
        rw [strataWindow_of_lt hi, hten]
        rw [hten] at hi
        omega
      fine_eq := ⟨_, hfine, _, List.mem_map_of_mem hmem, getElem?_strataTable hilt⟩
      fine_le := by
        have hfinite : (D (startAt xs (i * subdivisionLength))).rank < ⊤ :=
          (lt_bound_of_scan hbest).trans (WithBot.coe_lt_coe.mpr (WithTop.coe_lt_top _))
        have hkeys : uniqueKey D xs w ≤ uniqueKey D xs (i * subdivisionLength) :=
          le_of_scan hw hmem
        exact (Double.le_iff_rank_le hfinite).mpr hkeys
      two_le := by
        rw [hcount]
        omega
      le_length := by simp [hcount] }

/-- With all scores below `DBL_MAX` the stratified search finds a stratum and scans the window
around it. -/
theorem stratifiedSearch_stages (E : Environment K) (hs : xs.SortedLE) (hpositive : ∀ x ∈ xs, 0 < x)
    {k : ℕ} (hk : (distinct xs).length = k) (hn : 50 ≤ k)
    (hfollow : FollowsTables evaluate alpha D (xs.map .fin)
      (fun p => ∃ j < (distinct xs).length - 1, p = startAt xs j))
    (hD : ∀ j < k - 1, D (startAt xs j) < dblMax) :
    ∃ strata coarse i search,
      stratifiedSearch E evaluate (xs.map .fin) ((starts xs).map some ++ [none]) k = .ok search ∧
      search.success = true ∧
      StratifiedStages E evaluate (xs.map .fin) ((starts xs).map some ++ [none]) k strata coarse i
        search.best := by
  have hten : (subdivisionLength : ℕ) = 10 := rfl
  have hkey : ∀ j < k - 1, uniqueKey D xs j < scoreBound K := by
    intro j hj
    exact (Double.lt_iff_rank_lt dblMax_ne_nan).mp (hD j hj)
  obtain ⟨i, hbest⟩ : ∃ i, bestStratum (uniqueKey D xs) k = some i := by
    have hfirst : 0 < k / subdivisionLength - 1 := by
      rw [hten]
      omega
    exact exists_scan (List.mem_range.mpr hfirst) (hkey _ (by omega))
  have hi := bestStratum_lt hbest
  have hmem : i * subdivisionLength ∈ finePositions k i := by
    rw [mem_finePositions hi, hten]
    omega
  have hilt : i * subdivisionLength < k - 1 := by
    rw [hten] at hi ⊢
    omega
  obtain ⟨w, hw⟩ := exists_scan hmem (hkey _ hilt)
  have hsearch := stratifiedSearch_spec E hs hpositive hk hn hfollow
  simp only [hbest, Option.bind_some, hw] at hsearch
  exact ⟨_, _, i, _, hsearch, rfl, stages_of_bestStratum E hs hk hn hfollow hbest hw⟩

/-- On positive samples with at least fifty distinct values and scores below `DBL_MAX`, the
stratified path follows no pointer outside the tables, and ends with a score that is not larger than
that of its coarse scan and a tail of at least two samples. -/
theorem stratified_path_in_bounds [FloorRing K] (E : Environment K) {samples : List K}
    (hpositive : ∀ x ∈ samples, 0 < x) {uniques : List (Option ℕ)} {numUniques : ℕ}
    (huniques : uniqueElementPointers (iCopyAndSort (samples.map .fin)) = .ok (uniques, numUniques))
    (hn : 50 ≤ numUniques)
    (hfollow : FollowsTables evaluate alpha D (iCopyAndSort (samples.map .fin))
      (fun p => ∃ j < numUniques - 1, uniques[j]? = some (some p)))
    (hD : ∀ j < numUniques - 1, ∀ p, uniques[j]? = some (some p) → D p < dblMax) :
    uniques[numUniques]? = some none ∧
      ∃ strata coarse i search,
        stratifiedSearch E evaluate (iCopyAndSort (samples.map .fin)) uniques numUniques =
          .ok search ∧ search.success = true ∧
        continuousSearch E evaluate .stratifiedSampling (samples.map .fin) = .ok search ∧
        StratifiedStages E evaluate (iCopyAndSort (samples.map .fin)) uniques numUniques strata
          coarse i search.best := by
  have hs : (samples.insertionSort (· ≤ ·)).SortedLE := List.sortedLE_insertionSort
  have hpositive' : ∀ x ∈ samples.insertionSort (· ≤ ·), 0 < x :=
    fun x hx => hpositive x ((List.mem_insertionSort _).mp hx)
  have hcontinuous := continuousSearch_eq E evaluate .stratifiedSampling samples
  rw [iCopyAndSort_map] at huniques hfollow ⊢
  rw [uniqueElementPointers_map hs] at huniques
  cases huniques
  generalize samples.insertionSort (· ≤ ·) = sorted at *
  rw [length_starts] at *
  have hget : ∀ j < (distinct sorted).length - 1,
      ((starts sorted).map some ++ [none])[j]? = some (some (startAt sorted j)) :=
    fun j hj => getElem?_uniques hs (by omega)
  have hfollow' : FollowsTables evaluate alpha D (sorted.map .fin)
      (fun p => ∃ j < (distinct sorted).length - 1, p = startAt sorted j) := by
    rintro d x p hxs hptr ⟨j, hj, rfl⟩
    exact hfollow d x _ hxs hptr ⟨j, hj, hget j hj⟩
  obtain ⟨strata, coarse, i, search, hsearch, hsuccess, hstages⟩ :=
    stratifiedSearch_stages E hs hpositive' rfl hn hfollow' (fun j hj => hD j hj _ (hget j hj))
  refine ⟨?_, strata, coarse, i, search, hsearch, hsuccess, ?_, hstages⟩
  · simp
  · rw [hcontinuous]
    simp only [xminSearch, if_pos hn, hsearch, bind, Except.bind, hsuccess, if_true]
    rfl

theorem stratified_path_on_fifty :
    ∃ search, continuousSearch idleEnvironment (tableEvaluate (fun _ => 2) flatScores)
        .stratifiedSampling (fiftySamples.map .fin) = .ok search ∧
      2 ≤ search.best.n ∧ search.best.n ≤ (iCopyAndSort (fiftySamples.map .fin)).length := by
  have huniques : uniqueElementPointers (iCopyAndSort (fiftySamples.map .fin)) =
      .ok ((starts (fiftySamples.insertionSort (· ≤ ·))).map some ++ [none],
        (starts (fiftySamples.insertionSort (· ≤ ·))).length) := by
    rw [iCopyAndSort_map, uniqueElementPointers_map List.sortedLE_insertionSort]
  have hn : 50 ≤ (starts (fiftySamples.insertionSort (· ≤ ·))).length := by
    rw [length_starts, distinct_insertionSort, length_distinct_fiftySamples]
  have hscore : ∀ p, flatScores p < dblMax := fun p => lt_dblMax_of_le_one (by norm_num)
  obtain ⟨-, strata, coarse, i, search, -, -, hsearch, hstages⟩ :=
    stratified_path_in_bounds (idleEnvironment : Environment ℚ) fiftySamples_positive huniques hn
      (followsTables_table (fun _ => 2) flatScores _ _) (fun _ _ p _ => hscore p)
  exact ⟨search, hsearch, hstages.two_le, hstages.le_length⟩

end Pointers
end Plfit
