import Mathlib
import Plfit.Fit.FailingProbes

/-! # The number of samples that a search counts

A scan that meets a score below `DBL_MAX` counts at least two samples, and none otherwise. The
scores of positive probes are always below it. The others come first in the sorted data, and
their scores use the exponent of the record that the search starts with.
-/
namespace Plfit
open ExactArithmetic SortedBlocks

section Scores
variable {xs : List ℝ} {stale : Double ℝ}

/-- The exponent for the tail of a distinct value: the record keeps what it holds when the
estimation fails. -/
noncomputable def staleAlpha (stale : Double ℝ) (xs : List ℝ) (j : ℕ) : Double ℝ :=
  match iEstimateAlphaContinuousSorted ((xs.map .fin).drop (startAt xs j))
      (.fin ((distinct xs).getD j 0)) with
  | .ok alpha => alpha
  | .error _ => stale

noncomputable def staleScore (stale : Double ℝ) (xs : List ℝ) (j : ℕ) : Double ℝ :=
  iKsTestContinuous ((xs.map .fin).drop (startAt xs j)) (staleAlpha stale xs j)
    (.fin ((distinct xs).getD j 0))

theorem evaluate_startAt (hs : xs.SortedLE) {d : XminOptData ℝ} {i j : ℕ}
    (hxs : d.xs = xs.map .fin) (hptr : derefPointer d.probes i = .ok (startAt xs j))
    (hj : j < (distinct xs).length) :
    iContinuousXminOptEvaluate d i = .ok { d with
      last := { d.last with
        alpha := staleAlpha d.last.alpha xs j
        xmin := .fin ((distinct xs).getD j 0)
        D := staleScore d.last.alpha xs j }
      evaluated := d.evaluated ++ [startAt xs j] } := by
  have hvalue : (distinct xs)[j] = (distinct xs).getD j 0 := (List.getD_eq_getElem _ _ hj).symm
  have hderef := deref_startAt hs hj
  rw [hvalue] at hderef
  simp only [iContinuousXminOptEvaluate, hptr, bind, Except.bind, hxs, hderef, staleScore,
    staleAlpha]
  cases iEstimateAlphaContinuousSorted ((xs.map Double.fin).drop (startAt xs j))
    (.fin ((distinct xs).getD j 0)) <;> rfl

/-- The estimation for a value fails exactly if the value is not positive. -/
theorem exists_estimate_iff (hs : xs.SortedLE) {j : ℕ} (hj : j < (distinct xs).length) :
    (∃ alpha, iEstimateAlphaContinuousSorted ((xs.map Double.fin).drop (startAt xs j))
      (.fin ((distinct xs).getD j 0)) = .ok alpha) ↔ 0 < (distinct xs).getD j 0 := by
  have hvalue : (distinct xs)[j]? = some ((distinct xs).getD j 0) := by
    rw [List.getD_eq_getElem _ _ hj, List.getElem?_eq_getElem hj]
  have hget := getElem?_startAt hs hvalue
  rw [← exists_ownAlpha_iff hget]
  constructor
  · rintro ⟨alpha, halpha⟩
    exact ⟨alpha, _, deref_map hget, halpha⟩
  · rintro ⟨alpha, xmin, hxmin, halpha⟩
    obtain rfl : .fin ((distinct xs).getD j 0) = xmin :=
      Except.ok.inj ((deref_map hget).symm.trans hxmin)
    exact ⟨alpha, halpha⟩

theorem staleScore_of_pos (hs : xs.SortedLE) {j : ℕ} (hj : j < (distinct xs).length)
    (hpos : 0 < (distinct xs).getD j 0) (stale' : Double ℝ) :
    staleScore stale xs j = staleScore stale' xs j := by
  obtain ⟨alpha, halpha⟩ := (exists_estimate_iff hs hj).mpr hpos
  simp only [staleScore, staleAlpha, halpha]

/-- The exponent of a positive value that is not the largest one is its own, and above one. -/
theorem one_lt_staleAlpha (hs : xs.SortedLE) {j : ℕ} (hj : j < (distinct xs).length - 1)
    (hpos : 0 < (distinct xs).getD j 0) :
    ∃ alpha : ℝ, 1 < alpha ∧ staleAlpha stale xs j = .fin alpha := by
  have hj' : j < (distinct xs).length := by omega
  have hvalue : (distinct xs).getD j 0 = (distinct xs)[j] := List.getD_eq_getElem _ _ hj'
  rw [hvalue] at hpos
  have htail := probeTail_of_pos hs hj hj' hpos
  refine ⟨_, one_lt_hillAlpha htail.pos htail.le htail.above, ?_⟩
  simp only [staleAlpha, hvalue, ← List.map_drop,
    iEstimateAlphaContinuousSorted_fin htail.pos htail.le htail.above]

theorem staleAlpha_of_not_pos (hs : xs.SortedLE) {j : ℕ} (hj : j < (distinct xs).length)
    (hneg : ¬ 0 < (distinct xs).getD j 0) : staleAlpha stale xs j = stale := by
  rw [staleAlpha]
  split
  · rename_i alpha halpha
    exact absurd ((exists_estimate_iff hs hj).mp ⟨alpha, halpha⟩) hneg
  · rfl

theorem staleScore_lt_of_pos (hs : xs.SortedLE) {j : ℕ} (hj : j < (distinct xs).length - 1)
    (hpos : 0 < (distinct xs).getD j 0) : staleScore stale xs j < dblMax := by
  have hj' : j < (distinct xs).length := by omega
  have hvalue : (distinct xs).getD j 0 = (distinct xs)[j] := List.getD_eq_getElem _ _ hj'
  rw [hvalue] at hpos
  have htail := probeTail_of_pos hs hj hj' hpos
  have halpha := one_lt_hillAlpha htail.pos htail.le htail.above
  simp only [staleScore, staleAlpha, hvalue, ← List.map_drop,
    iEstimateAlphaContinuousSorted_fin htail.pos htail.le htail.above,
    iKsTestContinuous_fin htail.pos htail.le]
  exact lt_dblMax_of_le_one (ksScore_bounds halpha htail.pos htail.le).2

theorem getD_lt_getD {i j : ℕ} (hij : i < j) (hj : j < (distinct xs).length) :
    (distinct xs).getD i 0 < (distinct xs).getD j 0 := by
  rw [List.getD_eq_getElem _ _ hj, List.getD_eq_getElem _ _ (hij.trans hj)]
  exact (distinct_sortedLT xs).getElem_lt_getElem_iff.mpr hij

/-- The record of a distinct value. The exponent of a positive value is its own. -/
structure RecordOf (xs : List ℝ) (record : PlfitResult ℝ) (j : ℕ) : Prop where
  lt : j < (distinct xs).length - 1
  xmin_eq : record.xmin = .fin ((distinct xs).getD j 0)
  one_lt : 0 < (distinct xs).getD j 0 → ∃ alpha : ℝ, 1 < alpha ∧ record.alpha = .fin alpha

/-- What a search takes over: the tail of one of the values, which has two samples at least. -/
def TakesTail (xs : List ℝ) (best : BestFit ℝ) : Prop :=
  2 ≤ best.n ∧ ∃ j, RecordOf xs best.result j

/-! ## Scans -/

/-- A scan over some of the distinct values meets a score that it can hold. -/
def Finds (stale : Double ℝ) (xs : List ℝ) (probes : List ℕ) : Prop :=
  ∃ j ∈ probes, staleScore stale xs j < dblMax

/-- What a scan over some of the distinct values holds: nothing, with no samples counted, or the
tail of one of the values, which has two samples at least. -/
inductive Counts (stale : Double ℝ) (xs : List ℝ) (probes : List ℕ) (best : BestFit ℝ) : Prop
  | nothing (hn : best.n = 0) (hxmin : best.result.xmin = 0) (hD : best.result.D = dblMax)
      (hnone : ∀ j ∈ probes, ¬ staleScore stale xs j < dblMax)
  | tail (hn : 2 ≤ best.n) (hD : best.result.D < dblMax) (j : ℕ) (hj : j ∈ probes)
      (hscore : staleScore stale xs j < dblMax) (hrecord : RecordOf xs best.result j)

theorem Counts.n_ne_zero_iff {probes : List ℕ} {best : BestFit ℝ}
    (h : Counts stale xs probes best) :
    best.n ≠ 0 ↔ Finds stale xs probes := by
  cases h with
  | nothing hn _ _ hnone =>
    refine iff_of_false (fun h => h hn) ?_
    rintro ⟨j, hj, hscore⟩
    exact hnone j hj hscore
  | tail hn _ j hj hscore _ => exact iff_of_true (by omega) ⟨j, hj, hscore⟩

theorem Counts.cases {probes : List ℕ} {best : BestFit ℝ} (h : Counts stale xs probes best) :
    best.n = 0 ∨ TakesTail xs best := by
  cases h with
  | nothing hn => exact Or.inl hn
  | tail hn _ j _ _ hrecord => exact Or.inr ⟨hn, j, hrecord⟩

/-- The state of a scan that has looked at some values. -/
structure Scanning (stale : Double ℝ) (xs : List ℝ) (data : XminOptData ℝ) (probes : List ℕ)
    (st : XminOptData ℝ × BestFit ℝ) : Prop where
  xs_eq : st.1.xs = xs.map .fin
  probes_eq : st.1.probes = data.probes
  kept : st.1.last.alpha = stale ∨ ∃ j ∈ probes, 0 < (distinct xs).getD j 0
  counts : Counts stale xs probes st.2

/-- One more value. Once a value was positive, the values after it are, and the exponent that
the record holds does not matter any more. -/
theorem Scanning.step (hs : xs.SortedLE) {data : XminOptData ℝ} {probes : List ℕ}
    {st : XminOptData ℝ × BestFit ℝ} (h : Scanning stale xs data probes st) {i j : ℕ}
    (hj : j < (distinct xs).length - 1) (hlt : ∀ p ∈ probes, p < j)
    (hptr : derefPointer data.probes i = .ok (startAt xs j)) :
    ∃ st', scanStep iContinuousXminOptEvaluate st i = .ok st' ∧
      Scanning stale xs data (probes ++ [j]) st' := by
  have hj' : j < (distinct xs).length := by omega
  have hptr' : derefPointer st.1.probes i = .ok (startAt xs j) := by rw [h.probes_eq, hptr]
  have hscore : staleScore st.1.last.alpha xs j = staleScore stale xs j := by
    rcases h.kept with hstale | ⟨p, hp, hpos⟩
    · rw [hstale]
    · exact staleScore_of_pos hs hj' (hpos.trans (getD_lt_getD (hlt p hp) hj')) stale
  have hstale : staleAlpha st.1.last.alpha xs j = stale ∨
      ∃ p ∈ probes ++ [j], 0 < (distinct xs).getD p 0 := by
    by_cases hpos : 0 < (distinct xs).getD j 0
    · exact Or.inr ⟨j, by simp, hpos⟩
    rcases h.kept with hkept | ⟨p, hp, hpos'⟩
    · exact Or.inl ((staleAlpha_of_not_pos hs hj' hpos).trans hkept)
    · exact Or.inr ⟨p, List.mem_append_left _ hp, hpos'⟩
  have htwo := startAt_add_two_le hs (j := j) (by omega)
  have hlen : st.1.xs.length = xs.length := by rw [h.xs_eq, List.length_map]
  simp only [scanStep, evaluate_startAt hs h.xs_eq hptr' hj', bind, Except.bind, hscore, hptr']
  by_cases hbetter : staleScore stale xs j < st.2.result.D
  · rw [if_pos hbetter]
    refine ⟨_, rfl, h.xs_eq, h.probes_eq, hstale, ?_⟩
    have hfound : staleScore stale xs j < dblMax := by
      cases h.counts with
      | nothing _ _ hD _ => rwa [hD] at hbetter
      | tail _ hD => exact Double.lt_trans hbetter hD
    refine .tail ?_ hfound j (by simp) hfound ⟨hj, rfl, one_lt_staleAlpha hs hj⟩
    dsimp only
    omega
  · rw [if_neg hbetter]
    refine ⟨_, rfl, h.xs_eq, h.probes_eq, hstale, ?_⟩
    cases h.counts with
    | nothing hn hxmin hD hnone =>
      refine .nothing hn hxmin hD ?_
      intro p hp
      rcases List.mem_append.mp hp with hp | hp
      · exact hnone p hp
      · rw [List.mem_singleton.mp hp, ← hD]
        exact hbetter
    | tail hn hD p hp hscore' hrecord =>
      exact .tail hn hD p (List.mem_append_left _ hp) hscore' hrecord

/-- A linear scan over increasing distinct values. -/
theorem selectedScan_counts (E : Environment ℝ) (hs : xs.SortedLE) {f : ℕ → ℕ} (hf : StrictMono f)
    {data : XminOptData ℝ} (hxs : data.xs = xs.map .fin) (hpos : 0 < data.numProbes)
    (hlt : ∀ i < data.numProbes, f i < (distinct xs).length)
    (hget : ∀ i < data.numProbes, data.probes[i]? = ((starts xs).map some ++ [none])[f i]?) :
    ∃ best seen, iContinuousXminOptLinearScan E iContinuousXminOptEvaluate data =
        .ok (best, seen) ∧
      Counts data.last.alpha xs ((List.range (data.numProbes - 1)).map f) best := by
  have hchunks : ∀ n ≤ data.numProbes - 1, ∃ st,
      scanChunks iContinuousXminOptEvaluate data (List.range n) = .ok st ∧
        Scanning data.last.alpha xs data ((List.range n).map f) st := by
    intro n hn
    induction n with
    | zero => exact ⟨_, rfl, hxs, rfl, Or.inl rfl, .nothing rfl rfl rfl (by simp)⟩
    | succ n ih =>
      obtain ⟨st, hrun, hst⟩ := ih (by omega)
      have hnext := hlt (n + 1) (by omega)
      have hmono : f n < f (n + 1) := hf (Nat.lt_succ_self n)
      have hearlier : ∀ p ∈ (List.range n).map f, p < f n := by
        intro p hp
        obtain ⟨i, hi, rfl⟩ := List.mem_map.mp hp
        exact hf (List.mem_range.mp hi)
      have hptr : derefPointer data.probes n = .ok (startAt xs (f n)) := by
        apply derefPointer_eq_ok
        rw [hget n (by omega), getElem?_uniques hs (hlt n (by omega))]
      obtain ⟨st', hstep, hst'⟩ := hst.step hs (by omega) hearlier hptr
      refine ⟨st', ?_, ?_⟩
      · rw [scanChunks] at hrun ⊢
        rw [List.range_succ, List.foldlM_append, hrun]
        simp only [bind, Except.bind, List.foldlM_cons, List.foldlM_nil, hstep]
        rfl
      · rw [List.range_succ, List.map_append]
        exact hst'
  obtain ⟨st, hrun, hst⟩ := hchunks _ le_rfl
  refine ⟨enterCritical (globalBest E) st.2, st.1.evaluated, ?_, ?_⟩
  · simp only [iContinuousXminOptLinearScan, sizeSub_of_le hpos, hrun, bind, Except.bind]
    rfl
  · rw [enterCritical]
    cases hst.counts with
    | nothing hn hxmin hD hnone =>
      have hnot : ¬ st.2.result.D < (globalBest E).result.D := by
        rw [hD]
        exact Double.lt_irrefl _
      rw [if_neg hnot]
      exact .nothing rfl rfl rfl hnone
    | tail hn hD j hj hscore hrecord =>
      have hbetter : st.2.result.D < (globalBest E).result.D := hD
      rw [if_pos hbetter]
      exact .tail hn hD j hj hscore hrecord

theorem uniqueScan_counts (E : Environment ℝ) (hs : xs.SortedLE) (hpos : 0 < (distinct xs).length)
    (last : PlfitResult ℝ) (seen : List ℕ) :
    ∃ best seen', iContinuousXminOptLinearScan E iContinuousXminOptEvaluate
        (uniqueProbes xs last seen) = .ok (best, seen') ∧
      Counts last.alpha xs (List.range ((distinct xs).length - 1)) best := by
  have hlen : (uniqueProbes xs last seen).numProbes = (distinct xs).length := by
    simp [uniqueProbes]
  obtain ⟨best, seen', hrun, hcounts⟩ := selectedScan_counts E hs strictMono_id
    rfl (by rwa [hlen]) (by rw [hlen]; exact fun i hi => hi)
    (fun i _ => rfl)
  rw [hlen, List.map_id] at hcounts
  exact ⟨best, seen', hrun, hcounts⟩

end Scores

/-! ## The stratified search -/

section Strata
variable {xs : List ℝ}

/-- The distinct values that the fine scan around a stratum looks at. -/
def windowProbes (numStrata i : ℕ) : List ℕ :=
  (List.range ((strataWindow numStrata i).2 - 1)).map ((strataWindow numStrata i).1 + ·)

/-- Some scan of the search with strata finds a score: the coarse one, or the one that follows
when it has found nothing. Its `xmin` is zero then, which may be the value of a stratum. -/
def StrataFind (E : Environment ℝ) (xs : List ℝ) : Prop :=
  let numStrata := (distinct xs).length / subdivisionLength
  Finds E.lastResult.alpha xs ((List.range (numStrata - 1)).map (· * subdivisionLength)) ∨
    match (List.range numStrata).find?
        (fun i => (distinct xs).getD (i * subdivisionLength) 0 = 0) with
    | none => Finds E.lastResult.alpha xs (List.range ((distinct xs).length - 1))
    | some i => Finds E.lastResult.alpha xs (windowProbes numStrata i)

theorem strataWindow_pos {numStrata i : ℕ} (hmany : 2 ≤ numStrata) :
    0 < (strataWindow numStrata i).2 := by
  simp only [strataWindow, subdivisionLength]
  split_ifs <;> omega

theorem mem_windowProbes {numStrata i : ℕ} (hi : i < numStrata - 1) :
    i * subdivisionLength ∈ windowProbes numStrata i := by
  rw [windowProbes, strataWindow_of_lt (by omega)]
  refine List.mem_map.mpr ⟨i * subdivisionLength - (i - 1) * subdivisionLength, ?_, ?_⟩
  · rw [List.mem_range, subdivisionLength]
    omega
  · rw [subdivisionLength]
    omega

theorem coarseScan_counts (E : Environment ℝ) (hs : xs.SortedLE) {numStrata : ℕ}
    (hpos : 0 < numStrata)
    (hlen : ∀ i < numStrata, i * subdivisionLength < (distinct xs).length) :
    ∃ best seen, iContinuousXminOptLinearScan E iContinuousXminOptEvaluate
        { xs := xs.map .fin
          probes := (List.range numStrata).map (fun i => some (startAt xs (i * subdivisionLength)))
          numProbes := numStrata, last := E.lastResult, evaluated := [] } = .ok (best, seen) ∧
      Counts E.lastResult.alpha xs ((List.range (numStrata - 1)).map (· * subdivisionLength))
        best := by
  have hten : StrictMono (fun i => i * subdivisionLength) :=
    fun i j hij => Nat.mul_lt_mul_of_pos_right hij (by decide)
  refine selectedScan_counts E hs hten rfl hpos hlen ?_
  intro i hi
  rw [List.getElem?_map, List.getElem?_range hi, getElem?_uniques hs (hlen i hi)]
  rfl

theorem fineScan_counts (E : Environment ℝ) (hs : xs.SortedLE) {numStrata i : ℕ}
    (hmany : 2 ≤ numStrata) (hi : i < numStrata)
    (hfit : numStrata * subdivisionLength ≤ (distinct xs).length) (seen : List ℕ) :
    ∃ best seen', iContinuousXminOptLinearScan E iContinuousXminOptEvaluate
        { xs := xs.map .fin
          probes := ((starts xs).map some ++ [none]).drop (strataWindow numStrata i).1
          numProbes := (strataWindow numStrata i).2
          last := E.lastResult, evaluated := seen } = .ok (best, seen') ∧
      Counts E.lastResult.alpha xs (windowProbes numStrata i) best := by
  refine selectedScan_counts E hs (f := ((strataWindow numStrata i).1 + ·))
    (fun a b hab => Nat.add_lt_add_left hab _) rfl (strataWindow_pos hmany) ?_
    (fun j _ => List.getElem?_drop)
  intro j hj
  exact (Nat.add_lt_add_left hj _).trans_le ((strataWindow_end_le hi).trans hfit)

/-- The search with strata counts samples exactly if one of its scans finds a score. Where it
does not succeed the linear scan over all values takes over. -/
theorem stratifiedSearch_counts (E : Environment ℝ) (hs : xs.SortedLE)
    (hn : 50 ≤ (distinct xs).length) :
    ∃ search, stratifiedSearch E iContinuousXminOptEvaluate (xs.map .fin)
        ((starts xs).map some ++ [none]) (distinct xs).length = .ok search ∧
      search.last = E.lastResult ∧
      (search.success = true → (search.best.n = 0 ∨ TakesTail xs search.best) ∧
        (search.best.n ≠ 0 ↔ StrataFind E xs)) ∧
      (search.success = false →
        (StrataFind E xs ↔
          Finds E.lastResult.alpha xs (List.range ((distinct xs).length - 1)))) := by
  obtain ⟨numStrata, hstrata⟩ : ∃ n, (distinct xs).length / subdivisionLength = n := ⟨_, rfl⟩
  have hmany : 2 ≤ numStrata := by
    rw [← hstrata, subdivisionLength]
    omega
  have hfit : numStrata * subdivisionLength ≤ (distinct xs).length := by
    rw [← hstrata]
    exact Nat.div_mul_le_self _ _
  have hlen : ∀ i < numStrata, i * subdivisionLength < (distinct xs).length := by
    intro i hi
    exact (Nat.mul_lt_mul_of_pos_right hi (by decide)).trans_le hfit
  obtain ⟨coarse, seen, hcoarse, hcounts⟩ := coarseScan_counts E hs (by omega) hlen
  have hvalue : ∀ i ∈ List.range numStrata, ∃ p,
      derefPointer ((List.range numStrata).map
        (fun i => some (startAt xs (i * subdivisionLength)))) i = .ok p ∧
      deref (xs.map Double.fin) p =
        .ok (.fin ((distinct xs).getD (i * subdivisionLength) 0)) := by
    intro i hi
    have hi' := List.mem_range.mp hi
    refine ⟨startAt xs (i * subdivisionLength), derefPointer_eq_ok ?_, ?_⟩
    · rw [List.getElem?_map, List.getElem?_range hi']
      rfl
    · rw [deref_startAt hs (hlen i hi'), List.getD_eq_getElem]
  have hfind := findStratum_eq
    (fun i => .fin ((distinct xs).getD (i * subdivisionLength) 0)) coarse.result.xmin hvalue
  simp only [stratifiedSearch, hstrata, strata_eq hs hlen, bind, Except.bind, hcoarse, hfind,
    if_pos (strataWindow_pos hmany)]
  simp only [StrataFind, hstrata]
  have hfine := fun i hi => fineScan_counts E hs (i := i) hmany hi hfit seen
  cases hcounts with
  | nothing hn hxmin hD hnone =>
    have hcoarse' : ¬ Finds E.lastResult.alpha xs
        ((List.range (numStrata - 1)).map (· * subdivisionLength)) := by
      rintro ⟨j, hj, hscore⟩
      exact hnone j hj hscore
    simp only [hxmin, Double.zero_def, Double.fin_beq_fin, or_iff_right hcoarse']
    cases hzero : (List.range numStrata).find?
        (fun i => (distinct xs).getD (i * subdivisionLength) 0 = 0) with
    | none =>
      refine ⟨_, rfl, rfl, ?_, fun _ => Iff.rfl⟩
      intro h
      cases h
    | some i =>
      obtain ⟨fine, seen', hrun, hfinds⟩ :=
        hfine i (List.mem_range.mp (List.mem_of_find?_eq_some hzero))
      simp only [hrun]
      refine ⟨_, rfl, rfl, fun _ => ⟨hfinds.cases, hfinds.n_ne_zero_iff⟩, ?_⟩
      intro h
      cases h
  | tail hn hD j hj hscore hrecord =>
    obtain ⟨i, hi, rfl⟩ := List.mem_map.mp hj
    have hi' := List.mem_range.mp hi
    have hfound : (List.range numStrata).find? (fun s =>
        (.fin ((distinct xs).getD (s * subdivisionLength) 0) : Double ℝ) ==
          coarse.result.xmin) = some i := by
      rw [hrecord.xmin_eq, List.find?_range_eq_some]
      refine ⟨by simp, List.mem_range.mpr (by omega), ?_⟩
      intro s hs'
      have hlt := getD_lt_getD (Nat.mul_lt_mul_of_pos_right hs' (by decide : 0 < subdivisionLength))
        (hlen i (by omega))
      simpa using hlt.ne
    obtain ⟨fine, seen', hrun, hfinds⟩ := hfine i (by omega)
    have hwindow : Finds E.lastResult.alpha xs (windowProbes numStrata i) :=
      ⟨_, mem_windowProbes hi', hscore⟩
    simp only [hfound, hrun]
    refine ⟨_, rfl, rfl, fun _ => ⟨hfinds.cases, ?_⟩, ?_⟩
    · exact iff_of_true (hfinds.n_ne_zero_iff.mpr hwindow) (Or.inl ⟨_, hj, hscore⟩)
    · intro h
      cases h

end Strata

/-! ## The golden section search -/

section Golden
variable {xs : List ℝ}

/-- The golden section search over the probes is made, and ends with a minimum. -/
def GoldenSucceeds (E : Environment ℝ) (xs : List ℝ) : Prop :=
  5 < (distinct xs).length ∧
    ∃ out, gss (evaluateAt iContinuousXminOptEvaluate) (some iContinuousXminOptProgress)
        gssDefaultParameter 0 (((distinct xs).length - 5 : ℕ) : ℝ)
        (uniqueProbes xs E.lastResult []) = .ok out ∧
      out.status = .success

/-- The data of a search whose record holds the exponent it has started with, or one that the
scan over all values does not use. -/
structure KeepsStale (stale : Double ℝ) (xs : List ℝ) (d : XminOptData ℝ) : Prop where
  xs_eq : d.xs = xs.map .fin
  probes_eq : d.probes = (starts xs).map some ++ [none]
  finds_iff : Finds d.last.alpha xs (List.range ((distinct xs).length - 1)) ↔
    Finds stale xs (List.range ((distinct xs).length - 1))

/-- A search never looks at the last probe, so that a positive probe it has looked at gives the
scan a score. -/
theorem KeepsStale.step (hs : xs.SortedLE) {stale : Double ℝ} {d : XminOptData ℝ}
    (h : KeepsStale stale xs d) {j : ℕ} (hj : j < (distinct xs).length - 1) :
    ∃ d', iContinuousXminOptEvaluate d j = .ok d' ∧
      KeepsStale stale xs d' ∧ ∃ i, RecordOf xs d'.last i := by
  have hj' : j < (distinct xs).length := by omega
  have hptr : derefPointer d.probes j = .ok (startAt xs j) := by
    rw [h.probes_eq]
    exact derefPointer_eq_ok (getElem?_uniques hs hj')
  refine ⟨_, evaluate_startAt hs h.xs_eq hptr hj', ⟨h.xs_eq, h.probes_eq, ?_⟩, j, hj, rfl,
    one_lt_staleAlpha hs hj⟩
  by_cases hpos : 0 < (distinct xs).getD j 0
  · have hmem := List.mem_range.mpr hj
    exact iff_of_true ⟨j, hmem, staleScore_lt_of_pos hs hj hpos⟩
      ⟨j, hmem, staleScore_lt_of_pos hs hj hpos⟩
  · dsimp only
    rw [staleAlpha_of_not_pos hs hj' hpos]
    exact h.finds_iff

/-- A golden section search that succeeds counts two samples at least, one more than are left
from its minimum on. Otherwise a scan with the record that it leaves behind takes over. -/
theorem goldenSearch_counts (E : Environment ℝ) (hs : xs.SortedLE)
    (hn : 5 < (distinct xs).length) (hsize : (distinct xs).length < 2 ^ 31 + 5)
    (best : BestFit ℝ) :
    ∃ search, gssSearch iContinuousXminOptEvaluate (uniqueProbes xs E.lastResult []) best =
        .ok search ∧
      (search.success = true ↔ GoldenSucceeds E xs) ∧
      (search.success = true → TakesTail xs search.best) ∧
      (Finds search.last.alpha xs (List.range ((distinct xs).length - 1)) ↔
        Finds E.lastResult.alpha xs (List.range ((distinct xs).length - 1))) := by
  have hnum : sizeSub (uniqueProbes xs E.lastResult []).numProbes 5 = (distinct xs).length - 5 := by
    simp only [uniqueProbes, length_starts]
    exact sizeSub_of_le hn.le
  have hstart : KeepsStale E.lastResult.alpha xs (uniqueProbes xs E.lastResult []) :=
    ⟨rfl, rfl, Iff.rfl⟩
  have hstep : ∀ d, (KeepsStale E.lastResult.alpha xs d ∧ ∃ i, RecordOf xs d.last i) →
      ∀ j ≤ (distinct xs).length - 5, ∃ d', iContinuousXminOptEvaluate d j = .ok d' ∧
        KeepsStale E.lastResult.alpha xs d' ∧ ∃ i, RecordOf xs d'.last i := by
    intro d hd j hj
    exact hd.1.step hs (by omega)
  obtain ⟨d₀, hfirst, hd₀⟩ := hstart.step hs (j := 0) (by omega)
  obtain ⟨out, hrun, ⟨hout, hlook⟩, hmin⟩ := gss_ends (by omega) (by omega) hstep hfirst hd₀
  have hprobe : ∀ j ≤ (distinct xs).length - 5,
      derefPointer out.data.probes j = .ok (startAt xs j) := by
    intro j hj
    rw [hout.probes_eq]
    exact derefPointer_eq_ok (getElem?_uniques hs (by omega))
  obtain ⟨search, htake, -, hlast, hsuccess, hcount⟩ :=
    takeMinimum_ok (uniqueProbes xs E.lastResult []) best (by omega)
      (fun j hj => ⟨_, hprobe j hj⟩) hmin
  refine ⟨search, ?_, ?_, ?_, ?_⟩
  · rw [gssSearch_eq, hnum, hrun]
    exact htake
  · rw [hsuccess]
    constructor
    · intro hstatus
      exact ⟨hn, out, hrun, hstatus⟩
    · rintro ⟨-, out', hrun', hstatus⟩
      obtain rfl : out = out' := Except.ok.inj (hrun.symm.trans hrun')
      exact hstatus
  · intro hsearch
    obtain ⟨hrecord, j, hj, p, hp, hbest⟩ := hcount (hsuccess.mp hsearch)
    obtain rfl : startAt xs j = p := Except.ok.inj ((hprobe j hj).symm.trans hp)
    have hlt := startAt_lt_length hs (j := j) (by omega)
    have hlen : (uniqueProbes xs E.lastResult []).xs.length = xs.length := List.length_map _
    rw [← hrecord] at hlook
    exact ⟨by omega, hlook⟩
  · rw [hlast]
    exact hout.finds_iff

/-! ## Every search -/

/-- A search meets a score that it can hold, or ends before its scan. -/
def SearchFinds (E : Environment ℝ) (method : ContinuousMethod) (xs : List ℝ) : Prop :=
  match method with
  | .linearOnly => Finds E.lastResult.alpha xs (List.range ((distinct xs).length - 1))
  | .gssOrLinear =>
    GoldenSucceeds E xs ∨ Finds E.lastResult.alpha xs (List.range ((distinct xs).length - 1))
  | .stratifiedSampling =>
    if 50 ≤ (distinct xs).length then StrataFind E xs
    else Finds E.lastResult.alpha xs (List.range ((distinct xs).length - 1))

theorem xminSearch_counts (E : Environment ℝ) (hs : xs.SortedLE) (method : ContinuousMethod)
    (hpos : 0 < (distinct xs).length)
    (hsize : method = .gssOrLinear → (distinct xs).length < 2 ^ 31 + 5) :
    ∃ search, xminSearch E iContinuousXminOptEvaluate method (xs.map .fin)
        ((starts xs).map some ++ [none]) (starts xs).length = .ok search ∧
      (search.best.n = 0 ∨ TakesTail xs search.best) ∧
      (search.best.n ≠ 0 ↔ SearchFinds E method xs) := by
  have hscan := uniqueScan_counts E hs hpos
  simp only [uniqueProbes, length_starts] at hscan
  obtain ⟨best, seen, hrun, hcounts⟩ := hscan E.lastResult []
  rw [length_starts]
  cases method with
  | linearOnly =>
    simp only [xminSearch, pure, Except.pure, bind, Except.bind, Bool.false_eq_true, if_false,
      hrun]
    exact ⟨_, rfl, hcounts.cases, hcounts.n_ne_zero_iff⟩
  | gssOrLinear =>
    by_cases hfew : 5 < (distinct xs).length
    · obtain ⟨search, hgolden, hsuccess, htakes, hfinds⟩ := goldenSearch_counts E hs hfew (hsize rfl)
        { result := { alpha := .nan, xmin := .nan, L := .nan, D := .nan, p := .nan }
          n := (xs.map Double.fin).length }
      rw [uniqueProbes, length_starts] at hgolden
      obtain ⟨best, seen, hrun, hcounts⟩ := hscan search.last search.evaluated
      simp only [xminSearch, if_pos hfew, hgolden, bind, Except.bind, hrun, pure, Except.pure,
        SearchFinds, ← hsuccess]
      cases hflag : search.success with
      | true =>
        have htail := htakes hflag
        exact ⟨_, rfl, Or.inr htail, iff_of_true (by have := htail.1; omega) (Or.inl rfl)⟩
      | false =>
        rw [or_iff_right Bool.false_ne_true, ← hfinds]
        exact ⟨_, rfl, hcounts.cases, hcounts.n_ne_zero_iff⟩
    · have hnot : ¬ GoldenSucceeds E xs := fun h => hfew h.1
      simp only [xminSearch, if_neg hfew, pure, Except.pure, bind, Except.bind,
        Bool.false_eq_true, if_false, hrun, SearchFinds, or_iff_right hnot]
      exact ⟨_, rfl, hcounts.cases, hcounts.n_ne_zero_iff⟩
  | stratifiedSampling =>
    by_cases hfew : 50 ≤ (distinct xs).length
    · obtain ⟨search, hstrata, hlast, hsuccess, hfailed⟩ := stratifiedSearch_counts E hs hfew
      obtain ⟨best, seen, hrun, hcounts⟩ := hscan search.last search.evaluated
      rw [hlast] at hcounts
      simp only [xminSearch, if_pos hfew, hstrata, bind, Except.bind, hrun, pure, Except.pure,
        SearchFinds]
      cases hflag : search.success with
      | true => exact ⟨_, rfl, hsuccess hflag⟩
      | false =>
        rw [hfailed hflag]
        exact ⟨_, rfl, hcounts.cases, hcounts.n_ne_zero_iff⟩
    · simp only [xminSearch, if_neg hfew, pure, Except.pure, bind, Except.bind,
        Bool.false_eq_true, if_false, hrun, SearchFinds]
      exact ⟨_, rfl, hcounts.cases, hcounts.n_ne_zero_iff⟩

/-- On positive samples the condition is that there are two different ones. -/
theorem searchFinds_iff_of_pos (E : Environment ℝ) (method : ContinuousMethod)
    (hpositive : ∀ x ∈ xs, 0 < x) (hs : xs.SortedLE) :
    SearchFinds E method xs ↔ 2 ≤ (distinct xs).length := by
  have hscore : ∀ j < (distinct xs).length - 1,
      staleScore E.lastResult.alpha xs j < dblMax := by
    intro j hj
    have hj' : j < (distinct xs).length := by omega
    refine staleScore_lt_of_pos hs hj ?_
    rw [List.getD_eq_getElem _ _ hj']
    exact hpositive _ (mem_distinct.mp (List.getElem_mem hj'))
  have hall : Finds E.lastResult.alpha xs (List.range ((distinct xs).length - 1)) ↔
      2 ≤ (distinct xs).length := by
    constructor
    · rintro ⟨j, hj, -⟩
      have := List.mem_range.mp hj
      omega
    · intro htwo
      exact ⟨0, List.mem_range.mpr (by omega), hscore 0 (by omega)⟩
  cases method with
  | linearOnly => exact hall
  | gssOrLinear =>
    rw [SearchFinds, hall, or_iff_right_iff_imp]
    rintro ⟨hmany, -⟩
    omega
  | stratifiedSampling =>
    rw [SearchFinds]
    split_ifs with hmany
    · refine iff_of_true (Or.inl ⟨0, ?_, hscore 0 (by omega)⟩) (by omega)
      refine List.mem_map.mpr ⟨0, List.mem_range.mpr ?_, rfl⟩
      rw [subdivisionLength]
      omega
    · exact hall

end Golden
end Plfit
