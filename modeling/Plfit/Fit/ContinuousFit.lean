import Mathlib
import Plfit.Fit.ContinuousReal
import Plfit.Search.StratifiedSearch

/-! # Continuous fits without a p-value

Both entry points end with the same record when they use the same `xmin`: the fixed fit cuts
the tail at a value, the search at the position of its first occurrence. The search never
evaluates the largest value, so every tail has a sample above its `xmin`.
-/
namespace Plfit
open ExactArithmetic SortedBlocks StrictScan

/-- The samples from `xmin` on, sorted. -/
noncomputable def tailFrom (xs : List ℝ) (xmin : ℝ) : List ℝ :=
  (xs.insertionSort (· ≤ ·)).filter (xmin ≤ ·)

noncomputable def correctedAlpha (finiteSizeCorrection : Bool) (alpha : ℝ) (n : ℕ) : ℝ :=
  if finiteSizeCorrection then alpha * (n - 1 : ℕ) / n + 1 / n else alpha

/-- The record of a fit of a tail. -/
noncomputable def tailFit (finiteSizeCorrection : Bool) (ys : List ℝ) (xmin : ℝ) :
    PlfitResult ℝ where
  alpha := .fin (correctedAlpha finiteSizeCorrection (hillAlpha ys xmin) ys.length)
  xmin := .fin xmin
  L := .fin (realLogLikelihood ys
    (correctedAlpha finiteSizeCorrection (hillAlpha ys xmin) ys.length) xmin)
  D := .fin (ksScore ys (hillAlpha ys xmin) xmin)
  p := .nan

section Tail
variable {ys : List ℝ} {xmin : ℝ}

theorem mem_tailFrom {xs : List ℝ} {y : ℝ} : y ∈ tailFrom xs xmin ↔ y ∈ xs ∧ xmin ≤ y := by
  simp [tailFrom]

theorem dropWhile_of_le (hys : ∀ y ∈ ys, xmin ≤ y) :
    (ys.map Double.fin).dropWhile (fun x => x < .fin xmin) = ys.map .fin := by
  cases ys with
  | nil => rfl
  | cons y ys =>
    have hy := hys y List.mem_cons_self
    rw [List.map_cons, List.dropWhile_cons_of_neg]
    simpa using hy

theorem xminCheckZero_fin (hx : 0 < xmin) : xminCheckZero (.fin xmin : Double ℝ) = .ok () := by
  rw [xminCheckZero, if_neg]
  simpa using hx

theorem iEstimateAlphaContinuousSorted_fin (hx : 0 < xmin) (hys : ∀ y ∈ ys, xmin ≤ y)
    (habove : ∃ y ∈ ys, xmin < y) :
    iEstimateAlphaContinuousSorted (ys.map .fin) (.fin xmin) = .ok (.fin (hillAlpha ys xmin)) := by
  have hne : ys.map (Double.fin : ℝ → Double ℝ) ≠ [] := by
    obtain ⟨y, hy, -⟩ := habove
    simpa using List.ne_nil_of_mem hy
  simp only [iEstimateAlphaContinuousSorted, xminCheckZero_fin hx, bind, Except.bind,
    dropWhile_of_le hys, if_neg hne, iLogsumContinuous_fin hx hys, List.length_map,
    Double.natCast_def, Double.fin_div_fin (logSum_pos hx hys habove).ne', Double.one_def,
    Double.fin_add_fin]
  rfl

/-- Samples equal to `xmin` have the log-sum zero, and their exponent is infinite. -/
theorem iEstimateAlphaContinuousSorted_equal (hx : 0 < xmin) (hys : ∀ y ∈ ys, y = xmin)
    (hne : ys ≠ []) :
    iLogsumContinuous (ys.map .fin) (.fin xmin) = .fin 0 ∧
      iEstimateAlphaContinuousSorted (ys.map .fin) (.fin xmin) = .ok .pinf := by
  have hle : ∀ y ∈ ys, xmin ≤ y := fun y hy => (hys y hy).ge
  have hlen : (0 : ℝ) < ys.length := by exact_mod_cast List.length_pos_of_ne_nil hne
  have hzero : logSum ys xmin = 0 := by
    refine List.sum_eq_zero ?_
    intro l hl
    obtain ⟨y, hy, rfl⟩ := List.mem_map.mp hl
    rw [hys y hy, div_self hx.ne', Real.log_one]
  have hsum : iLogsumContinuous (ys.map .fin) (.fin xmin) = .fin 0 := by
    rw [iLogsumContinuous_fin hx hle, hzero]
  have hmap : ys.map (Double.fin : ℝ → Double ℝ) ≠ [] := by simpa using hne
  refine ⟨hsum, ?_⟩
  simp only [iEstimateAlphaContinuousSorted, xminCheckZero_fin hx, bind, Except.bind,
    dropWhile_of_le hle, hsum, if_neg hmap, List.length_map, Double.natCast_def,
    Double.fin_div_zero, sign_pos hlen]
  rfl

theorem logLikelihoodContinuous_filter {alpha : ℝ} (ha : 1 < alpha) (hx : 0 < xmin) :
    logLikelihoodContinuous (ys.map .fin) (.fin alpha) (.fin xmin) =
      .ok (.fin (realLogLikelihood (ys.filter (xmin ≤ ·)) alpha xmin)) := by
  have hnot : ¬ (.fin alpha : Double ℝ) ≤ .fin 1 := by simpa using ha
  have hc : 0 < (alpha - 1) / xmin := div_pos (sub_pos.mpr ha) hx
  simp only [logLikelihoodContinuous, Double.one_def, if_neg hnot, xminCheckZero_fin hx, bind,
    Except.bind, iLogsumLessThanContinuous_filter hx, Double.fin_sub_fin,
    Double.fin_div_fin hx.ne', MathLibrary.log_fin hc, Double.neg_fin, Double.fin_mul_fin,
    Double.natCast_def, Double.fin_add_fin, realLogLikelihood]

theorem logLikelihoodContinuous_fin {alpha : ℝ} (ha : 1 < alpha) (hx : 0 < xmin)
    (hys : ∀ y ∈ ys, xmin ≤ y) :
    logLikelihoodContinuous (ys.map .fin) (.fin alpha) (.fin xmin) =
      .ok (.fin (realLogLikelihood ys alpha xmin)) := by
  rw [logLikelihoodContinuous_filter ha hx, List.filter_eq_self.mpr (by simpa using hys)]

end Tail

section Correction

theorem iPerformFiniteSizeCorrection_fin {result : PlfitResult ℝ} {alpha : ℝ}
    (ha : result.alpha = .fin alpha) {n : ℕ} (hn : 0 < n) :
    iPerformFiniteSizeCorrection result n =
      { result with alpha := .fin (correctedAlpha true alpha n) } := by
  have hn' : (n : ℝ) ≠ 0 := by exact_mod_cast hn.ne'
  simp only [iPerformFiniteSizeCorrection, ha, sizeSub_of_le hn, Double.natCast_def,
    Double.fin_mul_fin, Double.fin_div_fin hn', Double.one_def, Double.fin_add_fin,
    correctedAlpha, if_true]

theorem one_lt_correctedAlpha (finiteSizeCorrection : Bool) {alpha : ℝ} (ha : 1 < alpha) {n : ℕ}
    (hlen : finiteSizeCorrection = true → 2 ≤ n) :
    1 < correctedAlpha finiteSizeCorrection alpha n := by
  cases finiteSizeCorrection with
  | false => exact ha
  | true =>
    have hn := hlen rfl
    have hn0 : (0 : ℝ) < n := by exact_mod_cast (by omega : 0 < n)
    have hn1 : (1 : ℝ) < n := by exact_mod_cast (by omega : 1 < n)
    have hsplit : alpha * (n - 1 : ℕ) / n + 1 / n = 1 + (alpha - 1) * (n - 1) / n := by
      rw [Nat.cast_sub (by omega), Nat.cast_one]
      field_simp
      ring
    rw [correctedAlpha, if_pos rfl, hsplit]
    exact lt_add_of_pos_right 1
      (div_pos (mul_pos (sub_pos.mpr ha) (sub_pos.mpr hn1)) hn0)

theorem correct_fin (finiteSizeCorrection : Bool) {result : PlfitResult ℝ} (alpha : ℝ)
    (ha : result.alpha = .fin alpha) {n : ℕ} (hn : 0 < n) :
    (if finiteSizeCorrection then iPerformFiniteSizeCorrection result n else result) =
      { result with alpha := .fin (correctedAlpha finiteSizeCorrection alpha n) } := by
  cases finiteSizeCorrection with
  | false =>
    rw [if_neg Bool.false_ne_true, correctedAlpha, if_neg Bool.false_ne_true, ← ha]
  | true => rw [if_pos rfl, iPerformFiniteSizeCorrection_fin ha hn]

end Correction

/-! ## The fit at a fixed `xmin` -/

section Fixed
variable {options : ContinuousOptions ℝ} {xs : List ℝ} {xmin : ℝ}

theorem length_tailFrom_ge_two (hmem : xmin ∈ xs) (habove : ∃ y ∈ xs, xmin < y) :
    2 ≤ (tailFrom xs xmin).length := by
  obtain ⟨y, hy, hxy⟩ := habove
  exact two_le_length (mem_tailFrom.mpr ⟨hmem, le_rfl⟩) (mem_tailFrom.mpr ⟨hy, hxy.le⟩) hxy.ne

theorem iCalculatePValueContinuous_skip (E : Environment ℝ) (hskip : options.pValueMethod = .skip) :
    iCalculatePValueContinuous E options = skipPValue := by
  funext data xminFixed result rng
  simp only [iCalculatePValueContinuous, hskip]

theorem dropWhile_sort (xs : List ℝ) (xmin : ℝ) :
    (iCopyAndSort (xs.map .fin)).dropWhile (fun x => x < .fin xmin) =
      (tailFrom xs xmin).map .fin := by
  have hs : (xs.insertionSort (· ≤ ·)).SortedLE := List.sortedLE_insertionSort
  rw [iCopyAndSort_map, dropWhile_lt_map hs, drop_below hs]
  rfl

/-- The fixed fit estimates the samples from `xmin` on, and its likelihood refuses what is left
of the exponent after the correction, or the p-value is calculated. -/
theorem estimateAlphaContinuousWith_real (pValue : PValueCalculation ℝ) (hx : 0 < xmin)
    (habove : ∃ y ∈ xs, xmin < y) (result : PlfitResult ℝ) (rng : Rng) :
    estimateAlphaContinuousWith pValue options (xs.map .fin) (.fin xmin) result rng =
      let tail := tailFrom xs xmin
      let alpha := correctedAlpha options.finiteSizeCorrection (hillAlpha tail xmin) tail.length
      let fit := { tailFit options.finiteSizeCorrection tail xmin with
                   L := result.L, p := result.p }
      match logLikelihoodContinuous (tail.map .fin) (.fin alpha) (.fin xmin) with
      | .error f => .ok { failure := some f, result := fit, rng := rng }
      | .ok L => pValue (iCopyAndSort (xs.map .fin)) true { fit with L := L } rng := by
  have hys : ∀ y ∈ tailFrom xs xmin, xmin ≤ y := fun y hy => (mem_tailFrom.mp hy).2
  have habove' : ∃ y ∈ tailFrom xs xmin, xmin < y := by
    obtain ⟨y, hy, hxy⟩ := habove
    exact ⟨y, mem_tailFrom.mpr ⟨hy, hxy.le⟩, hxy⟩
  have hpos : 0 < (tailFrom xs xmin).length := by
    obtain ⟨y, hy, -⟩ := habove'
    exact List.length_pos_of_mem hy
  simp only [estimateAlphaContinuousWith, estimateAlphaContinuousSorted, dropWhile_sort,
    iEstimateAlphaContinuousSorted_fin hx hys habove', iKsTestContinuous_fin hx hys,
    List.length_map]
  rw [correct_fin options.finiteSizeCorrection (hillAlpha (tailFrom xs xmin) xmin) rfl hpos]
  dsimp only [tailFit]
  cases logLikelihoodContinuous ((tailFrom xs xmin).map .fin) (.fin (correctedAlpha
    options.finiteSizeCorrection (hillAlpha (tailFrom xs xmin) xmin)
    (tailFrom xs xmin).length)) (.fin xmin) <;> rfl

/-- The fixed fit returns the record of the samples from `xmin` on. The correction of a
single sample would take the exponent to one. -/
theorem estimateAlphaContinuous_real (E : Environment ℝ) (hskip : options.pValueMethod = .skip)
    (hx : 0 < xmin) (habove : ∃ y ∈ xs, xmin < y)
    (hlen : options.finiteSizeCorrection = true → 2 ≤ (tailFrom xs xmin).length)
    (result : PlfitResult ℝ) (rng : Rng) :
    estimateAlphaContinuous E (some options) (xs.map .fin) (.fin xmin) result rng =
      .ok { failure := none
            result := tailFit options.finiteSizeCorrection (tailFrom xs xmin) xmin
            rng := rng } := by
  have hys : ∀ y ∈ tailFrom xs xmin, xmin ≤ y := fun y hy => (mem_tailFrom.mp hy).2
  have habove' : ∃ y ∈ tailFrom xs xmin, xmin < y := by
    obtain ⟨y, hy, hxy⟩ := habove
    exact ⟨y, mem_tailFrom.mpr ⟨hy, hxy.le⟩, hxy⟩
  have hcorrect := one_lt_correctedAlpha options.finiteSizeCorrection
    (one_lt_hillAlpha hx hys habove') hlen
  simp only [estimateAlphaContinuous, Option.getD_some, iCalculatePValueContinuous_skip E hskip,
    estimateAlphaContinuousWith_real skipPValue hx habove,
    logLikelihoodContinuous_fin hcorrect hx hys, skipPValue, tailFit]

end Fixed

/-! ## The fit with a search for `xmin` -/

section Searched
variable {xs : List ℝ}

noncomputable def positionAlpha (sorted : List ℝ) (p : ℕ) : Double ℝ :=
  .fin (hillAlpha (sorted.drop p) (sorted.getD p 0))

noncomputable def positionScore (sorted : List ℝ) (p : ℕ) : Double ℝ :=
  .fin (ksScore (sorted.drop p) (hillAlpha (sorted.drop p) (sorted.getD p 0)) (sorted.getD p 0))

/-- The tail at the first occurrence of a distinct value, and the value. -/
theorem startAt_spec (hs : xs.SortedLE) {j : ℕ} (hj : j < (distinct xs).length) :
    xs[startAt xs j]? = some (distinct xs)[j] ∧
      xs.drop (startAt xs j) = xs.filter ((distinct xs)[j] ≤ ·) := by
  have hv : (distinct xs)[j]? = some (distinct xs)[j] := List.getElem?_eq_getElem hj
  have hget := getElem?_startAt hs hv
  have hstart : startAt xs j = below xs (distinct xs)[j] := by
    rw [startAt, starts, List.getD_eq_getElem?_getD, List.getElem?_map, hv]
    rfl
  exact ⟨hget, by rw [hstart, drop_below hs]⟩

theorem exists_above (hj : j + 1 < (distinct xs).length) :
    ∃ y ∈ xs, (distinct xs)[j] < y :=
  ⟨(distinct xs)[j + 1], mem_distinct.mp (List.getElem_mem _),
    (distinct_sortedLT xs).getElem_lt_getElem_iff.mpr (Nat.lt_succ_self j)⟩

/-- The tail a probe cuts off: it starts with its `xmin`, and it goes beyond it. -/
structure ProbeTail (xs : List ℝ) (p : ℕ) (xmin : ℝ) : Prop where
  get : xs[p]? = some xmin
  pos : 0 < xmin
  drop_eq : xs.drop p = xs.filter (xmin ≤ ·)
  le : ∀ y ∈ xs.drop p, xmin ≤ y
  above : ∃ y ∈ xs.drop p, xmin < y
  two_le : 2 ≤ (xs.drop p).length

theorem probeTail_of_pos (hs : xs.SortedLE) {j : ℕ} (hj : j < (distinct xs).length - 1)
    (hj' : j < (distinct xs).length) (hpos : 0 < (distinct xs)[j]) :
    ProbeTail xs (startAt xs j) (distinct xs)[j] := by
  obtain ⟨hget, hdrop⟩ := startAt_spec hs hj'
  have hmem : (distinct xs)[j] ∈ xs := mem_distinct.mp (List.getElem_mem hj')
  obtain ⟨y, hy, hlt⟩ : ∃ y ∈ xs, (distinct xs)[j] < y := exists_above (by omega)
  have hfilter : xs.filter ((distinct xs)[j] ≤ ·) = tailFrom xs (distinct xs)[j] := by
    rw [tailFrom, hs.pairwise.insertionSort_eq]
  refine ⟨hget, hpos, hdrop, ?_, ⟨y, ?_, hlt⟩, ?_⟩
  · intro z hz
    rw [hdrop, hfilter] at hz
    exact (mem_tailFrom.mp hz).2
  · rw [hdrop, hfilter]
    exact mem_tailFrom.mpr ⟨hy, hlt.le⟩
  · rw [hdrop, hfilter]
    exact length_tailFrom_ge_two hmem ⟨y, hy, hlt⟩

theorem probeTail_startAt (hs : xs.SortedLE) (hpositive : ∀ x ∈ xs, 0 < x) {j : ℕ}
    (hj : j < (distinct xs).length - 1) (hj' : j < (distinct xs).length) :
    ProbeTail xs (startAt xs j) (distinct xs)[j] :=
  probeTail_of_pos hs hj hj' (hpositive _ (mem_distinct.mp (List.getElem_mem hj')))

theorem ProbeTail.getD {p : ℕ} {xmin : ℝ} (h : ProbeTail xs p xmin) : xs.getD p 0 = xmin := by
  rw [List.getD_eq_getElem?_getD, h.get]
  rfl

/-- The evaluation finds the exponent and the score of its own tail. -/
theorem followsTables_evaluate (hs : xs.SortedLE) (hpositive : ∀ x ∈ xs, 0 < x) :
    FollowsTables iContinuousXminOptEvaluate (positionAlpha xs) (positionScore xs) (xs.map .fin)
      (fun p => ∃ j < (distinct xs).length - 1, p = startAt xs j) := by
  rintro d i p hxs hptr ⟨j, hj, rfl⟩
  have hj' : j < (distinct xs).length := by omega
  have htail := probeTail_startAt hs hpositive hj hj'
  simp only [iContinuousXminOptEvaluate, tableEvaluate, hptr, bind, Except.bind, hxs,
    deref_map htail.get, ← List.map_drop, positionAlpha, positionScore, htail.getD,
    iEstimateAlphaContinuousSorted_fin htail.pos htail.le htail.above,
    iKsTestContinuous_fin htail.pos htail.le]

theorem positionScore_lt (hs : xs.SortedLE) (hpositive : ∀ x ∈ xs, 0 < x) {j : ℕ}
    (hj : j < (distinct xs).length - 1) :
    uniqueKey (positionScore xs) xs j < scoreBound ℝ := by
  have hj' : j < (distinct xs).length := by omega
  have htail := probeTail_startAt hs hpositive hj hj'
  have halpha := one_lt_hillAlpha htail.pos htail.le htail.above
  have hscore := (ksScore_bounds halpha htail.pos htail.le).2
  rw [uniqueKey, scoreBound, positionScore, htail.getD]
  exact (Double.lt_iff_rank_lt dblMax_ne_nan).mp (lt_dblMax_of_le_one hscore)

theorem continuousSearch_real (E : Environment ℝ) {method : ContinuousMethod}
    (hmethod : method = .linearOnly ∨ method = .stratifiedSampling)
    (hpositive : ∀ x ∈ xs, 0 < x) (hdistinct : 2 ≤ (distinct xs).length) :
    ∃ w < (distinct xs).length - 1, ∃ positions : List ℕ,
      (∀ j ∈ positions, j < (distinct xs).length - 1) ∧
      continuousSearch E iContinuousXminOptEvaluate method (xs.map .fin) =
        .ok { success := true
              best := uniqueFit E (positionAlpha (xs.insertionSort (· ≤ ·)))
                (positionScore (xs.insertionSort (· ≤ ·))) (xs.insertionSort (· ≤ ·)) (some w)
              evaluated := positions.map (startAt (xs.insertionSort (· ≤ ·)))
              last := E.lastResult } ∧
      (method = .linearOnly → scan (uniqueKey (positionScore (xs.insertionSort (· ≤ ·)))
        (xs.insertionSort (· ≤ ·))) (scoreBound ℝ) (List.range ((distinct xs).length - 1)) =
          some w) := by
  have hs : (xs.insertionSort (· ≤ ·)).SortedLE := List.sortedLE_insertionSort
  have hpositive' : ∀ x ∈ xs.insertionSort (· ≤ ·), 0 < x :=
    fun x hx => hpositive x ((List.mem_insertionSort _).mp hx)
  rw [continuousSearch_eq, ← distinct_insertionSort] at *
  generalize xs.insertionSort (· ≤ ·) = sorted at hs hpositive' hdistinct ⊢
  have hfollow := followsTables_evaluate hs hpositive'
  have hlinear : ∃ w < (distinct sorted).length - 1, ∃ positions : List ℕ,
      (∀ j ∈ positions, j < (distinct sorted).length - 1) ∧
      xminSearch E iContinuousXminOptEvaluate .linearOnly (sorted.map .fin)
          ((starts sorted).map some ++ [none]) (starts sorted).length =
        .ok { success := true
              best := uniqueFit E (positionAlpha sorted) (positionScore sorted) sorted (some w)
              evaluated := positions.map (startAt sorted)
              last := E.lastResult } ∧
      scan (uniqueKey (positionScore sorted) sorted) (scoreBound ℝ)
        (List.range ((distinct sorted).length - 1)) = some w := by
    have hrun := xminSearch_linearOnly E hs (by omega) hfollow
    cases hscan : scan (uniqueKey (positionScore sorted) sorted) (scoreBound ℝ)
        (List.range ((distinct sorted).length - 1)) with
    | none =>
      have hlt := positionScore_lt hs hpositive' (j := 0) (by omega)
      exact absurd hlt (scan_eq_none_iff.mp hscan 0 (List.mem_range.mpr (by omega))).not_gt
    | some w =>
      rw [hscan] at hrun
      exact ⟨w, List.mem_range.mp (mem_of_scan hscan), _,
        fun j hj => List.mem_range.mp hj, hrun, rfl⟩
  rcases hmethod with rfl | rfl
  · obtain ⟨w, hw, positions, hpositions, hrun, hscan⟩ := hlinear
    exact ⟨w, hw, positions, hpositions, hrun, fun _ => hscan⟩
  · rcases Nat.lt_or_ge (distinct sorted).length 50 with hfew | hmany
    · obtain ⟨w, hw, positions, hpositions, hrun, -⟩ := hlinear
      refine ⟨w, hw, positions, hpositions, ?_, nofun⟩
      rw [← hrun]
      simp only [xminSearch, length_starts, if_neg hfew.not_ge]
    · obtain ⟨positions, hpositions, hrun⟩ := xminSearch_stratified E hs hpositive' hmany hfollow
      obtain ⟨w, hw, hbest⟩ := stratifiedBest_eq_some hmany
        (fun j hj => positionScore_lt hs hpositive' hj)
      rw [hbest] at hrun
      exact ⟨w, hw, positions, hpositions, hrun, nofun⟩

/-- The end of the search: the window of the likelihood is the tail of the chosen probe. -/
theorem finishContinuous_real (E : Environment ℝ) (options : ContinuousOptions ℝ)
    (hs : xs.SortedLE) (hpositive : ∀ x ∈ xs, 0 < x) {w : ℕ}
    (hw : w < (distinct xs).length - 1) (hw' : w < (distinct xs).length) (rng : Rng) :
    finishContinuous skipPValue options (xs.map .fin)
        (uniqueFit E (positionAlpha xs) (positionScore xs) xs (some w)) rng =
      .ok { failure := none
            result := tailFit options.finiteSizeCorrection (xs.filter ((distinct xs)[w] ≤ ·))
              (distinct xs)[w]
            rng := rng } := by
  have htail := probeTail_startAt hs hpositive hw hw'
  have halpha := one_lt_hillAlpha htail.pos htail.le htail.above
  have hcorrect := one_lt_correctedAlpha options.finiteSizeCorrection halpha
    (fun _ => htail.two_le)
  have hlen : (xs.drop (startAt xs w)).length = xs.length - startAt xs w := List.length_drop
  have hwindow : tailWindow (xs.map Double.fin) (xs.length - startAt xs w) =
      .ok ((xs.drop (startAt xs w)).map .fin) := by
    have hle : startAt xs w ≤ xs.length := (List.getElem?_eq_some_iff.mp htail.get).1.le
    rw [tailWindow, List.length_map, if_pos (Nat.sub_le _ _), Nat.sub_sub_self hle, List.map_drop]
  rw [← hlen] at hwindow
  have hxmin : (uniqueRecord (positionAlpha xs) (positionScore xs) xs E.lastResult w).xmin = _ :=
    uniqueRecord_xmin hs hw' E.lastResult
  have hrecord : uniqueRecord (positionAlpha xs) (positionScore xs) xs E.lastResult w =
      { E.lastResult with
        alpha := .fin (hillAlpha (xs.drop (startAt xs w)) (distinct xs)[w])
        xmin := .fin (distinct xs)[w]
        D := .fin (ksScore (xs.drop (startAt xs w))
          (hillAlpha (xs.drop (startAt xs w)) (distinct xs)[w]) (distinct xs)[w]) } := by
    rw [← hxmin]
    simp only [uniqueRecord, positionAlpha, positionScore, htail.getD]
  simp only [finishContinuous, uniqueFit, fitOf, hrecord]
  rw [correct_fin options.finiteSizeCorrection
    (hillAlpha (xs.drop (startAt xs w)) (distinct xs)[w]) rfl (by have := htail.two_le; omega)]
  simp only [← hlen, hwindow, bind, Except.bind, logLikelihoodContinuous_fin hcorrect htail.pos
    htail.le, skipPValue, tailFit, ← htail.drop_eq]

end Searched

/-! ## Both entry points agree -/

section Agreement
variable {options : ContinuousOptions ℝ} {xs : List ℝ}

theorem two_le_length_distinct (hdistinct : ∃ x ∈ xs, ∃ y ∈ xs, x < y) :
    2 ≤ (distinct xs).length := by
  obtain ⟨x, hx, y, hy, hxy⟩ := hdistinct
  exact two_le_length (mem_distinct.mpr hx) (mem_distinct.mpr hy) hxy.ne

theorem continuous_real (E : Environment ℝ) (hskip : options.pValueMethod = .skip)
    (hpositive : ∀ x ∈ xs, 0 < x) {search : XminSearch ℝ}
    (hsearch : continuousSearch E iContinuousXminOptEvaluate options.xminMethod (xs.map .fin) =
      .ok search) {w : ℕ} (hw : w < (distinct xs).length - 1) (hw' : w < (distinct xs).length)
    (hbest : search.best = uniqueFit E (positionAlpha (xs.insertionSort (· ≤ ·)))
      (positionScore (xs.insertionSort (· ≤ ·))) (xs.insertionSort (· ≤ ·)) (some w))
    (result : PlfitResult ℝ) (rng : Rng) :
    continuous E (some options) (xs.map .fin) result rng =
      .ok { failure := none
            result := tailFit options.finiteSizeCorrection (tailFrom xs (distinct xs)[w])
              (distinct xs)[w]
            rng := rng } := by
  have hs : (xs.insertionSort (· ≤ ·)).SortedLE := List.sortedLE_insertionSort
  have hpositive' : ∀ x ∈ xs.insertionSort (· ≤ ·), 0 < x :=
    fun x hx => hpositive x ((List.mem_insertionSort _).mp hx)
  have hne : ¬ (xs.map (Double.fin : ℝ → Double ℝ)).length ≤ 0 := by
    have hmem : (distinct xs)[w] ∈ xs := mem_distinct.mp (List.getElem_mem hw')
    have := List.length_pos_of_mem hmem
    rw [List.length_map]
    omega
  have hdistinct := distinct_insertionSort xs
  have hfinish := finishContinuous_real E options hs hpositive' (w := w)
    (by rwa [hdistinct]) (by rwa [hdistinct]) rng
  simp only [hdistinct] at hfinish
  simp only [continuous, Option.getD_some, iCalculatePValueContinuous_skip E hskip,
    continuousWith, if_neg hne, hsearch, bind, Except.bind, iCopyAndSort_map, hbest]
  exact hfinish

theorem uniqueKey_positionScore (hpositive : ∀ x ∈ xs, 0 < x) {j : ℕ}
    (hj : j < (distinct xs).length - 1) (hj' : j < (distinct xs).length)
    (finiteSizeCorrection : Bool) :
    uniqueKey (positionScore (xs.insertionSort (· ≤ ·))) (xs.insertionSort (· ≤ ·)) j =
      (tailFit finiteSizeCorrection (tailFrom xs (distinct xs)[j]) (distinct xs)[j]).D.rank := by
  have hs : (xs.insertionSort (· ≤ ·)).SortedLE := List.sortedLE_insertionSort
  have hpositive' : ∀ x ∈ xs.insertionSort (· ≤ ·), 0 < x :=
    fun x hx => hpositive x ((List.mem_insertionSort _).mp hx)
  have hdistinct := distinct_insertionSort xs
  have htail := probeTail_startAt hs hpositive' (j := j) (by rwa [hdistinct]) (by rwa [hdistinct])
  simp only [hdistinct] at htail
  rw [uniqueKey, positionScore, htail.getD, htail.drop_eq]
  rfl

/-- Without a p-value the fit with a linear or a stratified search succeeds, it chooses a
sample below the largest one, it divides by no zero log-sum, and the fit at the `xmin` it
chooses returns the same exponent, score and likelihood. The linear search chooses the
smallest of the samples with the least score. -/
theorem continuous_agrees_with_fixed_xmin (E : Environment ℝ)
    (hmethod : options.xminMethod = .linearOnly ∨ options.xminMethod = .stratifiedSampling)
    (hskip : options.pValueMethod = .skip) (hpositive : ∀ x ∈ xs, 0 < x)
    (hdistinct : ∃ x ∈ xs, ∃ y ∈ xs, x < y) (result : PlfitResult ℝ) (rng : Rng) :
    ∃ x out search,
      continuous E (some options) (xs.map .fin) result rng = .ok out ∧ out.failure = none ∧
      out.result.xmin = .fin x ∧ x ∈ xs ∧ (∃ y ∈ xs, x < y) ∧
      continuousSearch E iContinuousXminOptEvaluate options.xminMethod (xs.map .fin) =
        .ok search ∧
      (∀ p ∈ search.evaluated, ∃ xmin logsum,
        (iCopyAndSort (xs.map Double.fin))[p]? = some (.fin xmin) ∧
        iLogsumContinuous (((iCopyAndSort (xs.map .fin)).drop p).dropWhile (· < .fin xmin))
          (.fin xmin) = .fin logsum ∧ logsum ≠ 0) ∧
      (∀ result' rng', ∃ out',
        estimateAlphaContinuous E (some options) (xs.map .fin) (.fin x) result' rng' = .ok out' ∧
        out'.failure = none ∧ out'.result.alpha = out.result.alpha ∧
        out'.result.D = out.result.D ∧ out'.result.L = out.result.L) ∧
      (options.xminMethod = .linearOnly → ∀ y ∈ xs, (∃ z ∈ xs, y < z) →
        ∀ result' rng', ∃ out',
          estimateAlphaContinuous E (some options) (xs.map .fin) (.fin y) result' rng' =
            .ok out' ∧
          out.result.D ≤ out'.result.D ∧ (out'.result.D ≤ out.result.D → x ≤ y)) := by
  have hs : (xs.insertionSort (· ≤ ·)).SortedLE := List.sortedLE_insertionSort
  have hpositive' : ∀ x ∈ xs.insertionSort (· ≤ ·), 0 < x :=
    fun x hx => hpositive x ((List.mem_insertionSort _).mp hx)
  obtain ⟨w, hw, positions, hpositions, hsearch, hleast⟩ :=
    continuousSearch_real E hmethod hpositive (two_le_length_distinct hdistinct)
  have hw' : w < (distinct xs).length := by omega
  have hfit := continuous_real E hskip hpositive hsearch hw hw' rfl result rng
  have hmem : (distinct xs)[w] ∈ xs := mem_distinct.mp (List.getElem_mem hw')
  have habove : ∃ y ∈ xs, (distinct xs)[w] < y := exists_above (by omega)
  refine ⟨(distinct xs)[w], _, _, hfit, rfl, rfl, hmem, habove, hsearch, ?_, ?_, ?_⟩
  · intro p hp
    obtain ⟨j, hj, rfl⟩ := List.mem_map.mp hp
    have hdistinct := distinct_insertionSort xs
    have hj' := hpositions j hj
    rw [← hdistinct] at hj'
    have hj'' : j < (distinct (xs.insertionSort (· ≤ ·))).length := by omega
    have htail := probeTail_startAt hs hpositive' hj' hj''
    refine ⟨(distinct (xs.insertionSort (· ≤ ·)))[j], _, ?_, ?_,
      (logSum_pos htail.pos htail.le htail.above).ne'⟩
    · rw [iCopyAndSort_map, List.getElem?_map, htail.get]
      rfl
    · rw [iCopyAndSort_map, ← List.map_drop, dropWhile_of_le htail.le,
        iLogsumContinuous_fin htail.pos htail.le]
  · intro result' rng'
    exact ⟨_, estimateAlphaContinuous_real E hskip (hpositive _ hmem) habove
      (fun _ => length_tailFrom_ge_two hmem habove) result' rng', rfl, rfl, rfl, rfl⟩
  · intro hlinear y hy hyz result' rng'
    refine ⟨_, estimateAlphaContinuous_real E hskip (hpositive y hy) hyz
      (fun _ => length_tailFrom_ge_two hy hyz) result' rng', ?_⟩
    obtain ⟨j, hj', hjy⟩ := List.mem_iff_getElem.mp (mem_distinct.mpr hy)
    obtain ⟨z, hz, hyz⟩ := hyz
    have hj : j < (distinct xs).length - 1 := by
      obtain ⟨i, hi, hiz⟩ := List.mem_iff_getElem.mp (mem_distinct.mpr hz)
      have hlt : (distinct xs)[j] < (distinct xs)[i] := by
        rw [hjy, hiz]
        exact hyz
      have hji := (distinct_sortedLT xs).getElem_lt_getElem_iff.mp hlt
      omega
    have hkey := fun i hi hi' =>
      uniqueKey_positionScore hpositive (j := i) hi hi' options.finiteSizeCorrection
    subst hjy
    have hle := le_of_scan (hleast hlinear) (List.mem_range.mpr hj)
    rw [hkey w hw hw', hkey j hj hj'] at hle
    refine ⟨Double.fin_le_fin.mpr (Double.rank_fin_le.mp hle), ?_⟩
    intro htie
    have hwj : w ≤ j := by
      refine le_of_scan_of_key_le List.pairwise_lt_range.sortedLT (hleast hlinear)
        (List.mem_range.mpr hj) ?_
      rw [hkey w hw hw', hkey j hj hj']
      exact Double.rank_fin_le.mpr (Double.fin_le_fin.mp htie)
    exact (distinct_sortedLT xs).getElem_le_getElem_iff.mpr hwj

/-- Two samples, a linear search and no p-value. -/
noncomputable def linearOptions : ContinuousOptions ℝ :=
  { continuousDefaultOptions with xminMethod := .linearOnly, pValueMethod := .skip }

theorem continuous_agrees_on_two_samples :
    ∃ x out, continuous idleEnvironment (some linearOptions) ([2, 1].map .fin)
        idleEnvironment.lastResult (.builtin 1 (fun _ => 0)) = .ok out ∧
      out.failure = none ∧ out.result.xmin = .fin x ∧ x ∈ [(2 : ℝ), 1] := by
  have htwo : ∃ x ∈ [(2 : ℝ), 1], ∃ y ∈ [(2 : ℝ), 1], x < y := ⟨1, by simp, 2, by simp, by norm_num⟩
  obtain ⟨x, out, -, hrun, hsuccess, hxmin, hx, -⟩ :=
    continuous_agrees_with_fixed_xmin idleEnvironment
      (.inl (rfl : linearOptions.xminMethod = .linearOnly)) rfl (by simp) htwo
      idleEnvironment.lastResult (.builtin 1 (fun _ => 0))
  exact ⟨x, out, hrun, hsuccess, hxmin, hx⟩

end Agreement

end Plfit
