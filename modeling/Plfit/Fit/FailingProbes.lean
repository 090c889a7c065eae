import Mathlib
import Plfit.Fit.ContinuousFit
import Plfit.Search.GoldenSearch

/-! # Probes whose estimation fails

The smallest sample is the first probe of every search. When it is not positive its estimation
fails, and its score is computed with the exponent that the shared record happens to hold.
-/
namespace Plfit
open ExactArithmetic SortedBlocks

/-! ## Searches over arbitrary data -/

section Total
variable {K : Type} [Field K] [LinearOrder K]

/-- An evaluation of a probe in the array ends and changes the record and the history only. -/
def EvaluatesProbes (evaluate : XminEvaluate K) (xs : List (Double K)) : Prop :=
  ∀ d i p, d.xs = xs → derefPointer d.probes i = .ok p → p < xs.length →
    ∃ last, evaluate d i = .ok { d with last := last, evaluated := d.evaluated ++ [p] }

variable {E : Environment K} {evaluate : XminEvaluate K}

omit [Field K] in
theorem scanStep_ok {data d : XminOptData K} {ptr : ℕ → ℕ} (hp : ProbesAt data ptr)
    (heval : EvaluatesProbes evaluate data.xs) (hxs : d.xs = data.xs)
    (hprobes : d.probes = data.probes) (best : BestFit K) {i : ℕ} (hi : i < data.numProbes) :
    ∃ d' best', scanStep evaluate (d, best) i = .ok (d', best') ∧ d'.xs = data.xs ∧
      d'.probes = data.probes ∧ d'.evaluated = d.evaluated ++ [ptr i] := by
  have hptr : derefPointer d.probes i = .ok (ptr i) := by
    rw [hprobes]
    exact hp.derefPointer hi
  obtain ⟨last, hrun⟩ := heval d i (ptr i) hxs hptr (hp.lt_length i hi)
  simp only [scanStep, hrun, bind, Except.bind, hptr]
  split
  · exact ⟨_, _, rfl, hxs, hprobes, rfl⟩
  · exact ⟨_, _, rfl, hxs, hprobes, rfl⟩

/-- A linear scan evaluates all its probes but the last. -/
theorem linearScan_ok {data : XminOptData K} {ptr : ℕ → ℕ} (hp : ProbesAt data ptr)
    (heval : EvaluatesProbes evaluate data.xs) :
    ∃ best, iContinuousXminOptLinearScan E evaluate data =
      .ok (best, data.evaluated ++ (List.range (data.numProbes - 1)).map ptr) := by
  have hchunks : ∀ n ≤ data.numProbes - 1, ∃ d best,
      scanChunks evaluate data (List.range n) = .ok (d, best) ∧ d.xs = data.xs ∧
        d.probes = data.probes ∧ d.evaluated = data.evaluated ++ (List.range n).map ptr := by
    intro n hn
    induction n with
    | zero => exact ⟨data, localBest, rfl, rfl, rfl, by simp⟩
    | succ n ih =>
      obtain ⟨d, best, hrun, hxs, hprobes, hseen⟩ := ih (by omega)
      obtain ⟨d', best', hstep, hxs', hprobes', hseen'⟩ :=
        scanStep_ok hp heval hxs hprobes best (i := n) (by omega)
      refine ⟨d', best', ?_, hxs', hprobes', ?_⟩
      · rw [scanChunks] at hrun ⊢
        rw [List.range_succ, List.foldlM_append, hrun]
        simp only [bind, Except.bind, List.foldlM_cons, List.foldlM_nil, hstep]
        rfl
      · rw [hseen', hseen, List.range_succ, List.map_append, List.append_assoc]
        rfl
  obtain ⟨d, best, hrun, -, -, hseen⟩ := hchunks _ le_rfl
  refine ⟨enterCritical (globalBest E) best, ?_⟩
  simp only [iContinuousXminOptLinearScan, sizeSub_of_le hp.pos, hrun, bind, Except.bind, hseen]
  rfl

/-- The history of a search: it has looked at the smallest sample, and at samples only. -/
structure LookedAtFirst (xs : List K) (seen : List ℕ) : Prop where
  first : 0 ∈ seen
  lt_length : ∀ p ∈ seen, p < xs.length

omit [Field K] in
theorem startAt_zero {xs : List K} (hpos : 0 < (distinct xs).length) : startAt xs 0 = 0 := by
  have hstart : startAt xs 0 = below xs (distinct xs)[0] := by
    rw [startAt, starts, List.getD_eq_getElem _ _ (by rwa [List.length_map]), List.getElem_map]
  rw [hstart]
  apply below_eq_zero
  intro x hx
  obtain ⟨i, hi, rfl⟩ := List.mem_iff_getElem.mp (mem_distinct.mpr hx)
  exact (distinct_sortedLT xs).sortedLE.getElem_le_getElem_of_le (Nat.zero_le i)

/-- The data of a search over the distinct values that has looked at the smallest one. -/
structure SearchesValues (xs : List K) (d : XminOptData K) : Prop where
  xs_eq : d.xs = xs.map .fin
  probes_eq : d.probes = (starts xs).map some ++ [none]
  seen : LookedAtFirst xs d.evaluated

omit [Field K] in
/-- Scans over distinct values that begin with the first one. -/
theorem LookedAtFirst.of_map {xs : List K} (hs : xs.SortedLE) {positions : List ℕ}
    (hzero : 0 ∈ positions) (hlt : ∀ j ∈ positions, j < (distinct xs).length) :
    LookedAtFirst xs (positions.map (startAt xs)) where
  first := by
    refine List.mem_map.mpr ⟨0, hzero, startAt_zero (hlt 0 hzero)⟩
  lt_length := by
    intro p hp
    obtain ⟨j, hj, rfl⟩ := List.mem_map.mp hp
    exact startAt_lt_length hs (hlt j hj)

omit [Field K] in
theorem LookedAtFirst.append {xs : List K} {seen : List ℕ} (h : LookedAtFirst xs seen)
    (hs : xs.SortedLE) (positions : List ℕ) (hlt : ∀ j ∈ positions, j < (distinct xs).length) :
    LookedAtFirst xs (seen ++ positions.map (startAt xs)) where
  first := List.mem_append_left _ h.first
  lt_length := by
    intro p hp
    rcases List.mem_append.mp hp with hp | hp
    · exact h.lt_length p hp
    · obtain ⟨j, hj, rfl⟩ := List.mem_map.mp hp
      exact startAt_lt_length hs (hlt j hj)

theorem strataWindow_end_le {numStrata i : ℕ} (hi : i < numStrata) :
    (strataWindow numStrata i).1 + (strataWindow numStrata i).2 ≤
      numStrata * subdivisionLength := by
  simp only [strataWindow, subdivisionLength]
  split_ifs <;> omega

section Stages
variable {xs : List K} (hs : xs.SortedLE) (heval : EvaluatesProbes evaluate (xs.map .fin))
include hs heval

theorem selectedScan_ok {f : ℕ → ℕ} (hf : StrictMono f) (data : XminOptData K)
    (hxs : data.xs = xs.map .fin) (hpos : 0 < data.numProbes)
    (hlt : ∀ i < data.numProbes, f i < (distinct xs).length)
    (hget : ∀ i < data.numProbes,
      data.probes[i]? = ((starts xs).map some ++ [none])[f i]?) :
    ∃ best, iContinuousXminOptLinearScan E evaluate data =
      .ok (best, data.evaluated ++
        ((List.range (data.numProbes - 1)).map f).map (startAt xs)) := by
  have hpos' : 0 < (distinct xs).length := (Nat.zero_le _).trans_lt (hlt 0 hpos)
  have hp : ProbesAt data (fun i => startAt xs (f i)) := by
    refine (uniqueProbes_probesAt hs hpos' data.last []).select hf hxs hpos ?_ hget
    intro i hi
    simpa [uniqueProbes] using hlt i hi
  rw [← hxs] at heval
  rw [List.map_map]
  exact linearScan_ok hp heval

theorem uniqueScan_ok (hpos : 0 < (distinct xs).length) (last : PlfitResult K) (seen : List ℕ) :
    ∃ best, iContinuousXminOptLinearScan E evaluate (uniqueProbes xs last seen) =
      .ok (best, seen ++ (List.range ((distinct xs).length - 1)).map (startAt xs)) := by
  have hlen : (uniqueProbes xs last seen).numProbes = (distinct xs).length := by
    simp [uniqueProbes]
  obtain ⟨best, hrun⟩ := selectedScan_ok (E := E) hs heval strictMono_id
    (uniqueProbes xs last seen) rfl (by rwa [hlen]) (by rw [hlen]; exact fun i hi => hi)
    (fun i _ => rfl)
  rw [hlen, List.map_id] at hrun
  exact ⟨best, hrun⟩

/-- The stratified search ends, with or without a winning stratum. -/
theorem stratifiedSearch_ok (hn : 50 ≤ (distinct xs).length) :
    ∃ search, stratifiedSearch E evaluate (xs.map .fin) ((starts xs).map some ++ [none])
        (distinct xs).length = .ok search ∧ LookedAtFirst xs search.evaluated := by
  obtain ⟨numStrata, hstrata⟩ : ∃ n, (distinct xs).length / subdivisionLength = n := ⟨_, rfl⟩
  have hmany : 5 ≤ numStrata := by
    rw [← hstrata, subdivisionLength]
    omega
  have hlen : ∀ i < numStrata, i * subdivisionLength < (distinct xs).length := by
    intro i hi
    rw [← hstrata, subdivisionLength] at hi
    rw [subdivisionLength]
    omega
  have hten : StrictMono (fun i => i * subdivisionLength) :=
    fun i j hij => Nat.mul_lt_mul_of_pos_right hij (by decide)
  have hget : ∀ i < numStrata, ((List.range numStrata).map
      (fun i => some (startAt xs (i * subdivisionLength))))[i]? =
        some (some (startAt xs (i * subdivisionLength))) := by
    intro i hi
    rw [List.getElem?_map, List.getElem?_range hi]
    rfl
  obtain ⟨coarse, hcoarse⟩ := selectedScan_ok (E := E) hs heval hten
    { xs := xs.map .fin, probes := (List.range numStrata).map
        (fun i => some (startAt xs (i * subdivisionLength)))
      numProbes := numStrata, last := E.lastResult, evaluated := [] } rfl
    (Nat.lt_of_lt_of_le (by decide) hmany) hlen
    (fun i hi => (hget i hi).trans (getElem?_uniques hs (hlen i hi)).symm)
  have hfirst : LookedAtFirst xs (([] : List ℕ) ++ ((List.range (numStrata - 1)).map
      (fun i => i * subdivisionLength)).map (startAt xs)) := by
    apply LookedAtFirst.of_map hs
    · exact List.mem_map.mpr ⟨0, List.mem_range.mpr (by omega), Nat.zero_mul _⟩
    · intro j hj
      obtain ⟨i, hi, rfl⟩ := List.mem_map.mp hj
      exact hlen i ((List.mem_range.mp hi).trans_le (Nat.sub_le _ _))
  have hvalue : ∀ i ∈ List.range numStrata, ∃ p,
      derefPointer ((List.range numStrata).map
        (fun i => some (startAt xs (i * subdivisionLength)))) i = .ok p ∧
      deref (xs.map Double.fin) p =
        .ok (.fin ((distinct xs).getD (i * subdivisionLength) 0)) := by
    intro i hi
    have hi' := List.mem_range.mp hi
    refine ⟨_, derefPointer_eq_ok (hget i hi'), ?_⟩
    rw [deref_startAt hs (hlen i hi'), List.getD_eq_getElem]
  simp only [stratifiedSearch, hstrata, strata_eq hs hlen, bind, Except.bind, hcoarse,
    findStratum_eq (fun i => .fin ((distinct xs).getD (i * subdivisionLength) 0)) _ hvalue]
  cases hfind : (List.range numStrata).find? (fun i =>
      (.fin ((distinct xs).getD (i * subdivisionLength) 0) : Double K) == coarse.result.xmin) with
  | none => exact ⟨_, rfl, hfirst⟩
  | some i =>
    have hi : i < numStrata := List.mem_range.mp (List.mem_of_find?_eq_some hfind)
    have hend := strataWindow_end_le hi
    have hfit : numStrata * subdivisionLength ≤ (distinct xs).length := by
      rw [← hstrata]
      exact Nat.div_mul_le_self _ _
    dsimp only
    split
    · rename_i hcount
      obtain ⟨fine, hfine⟩ := selectedScan_ok (E := E) hs heval
        (f := fun j => (strataWindow numStrata i).1 + j)
        (fun a b hab => Nat.add_lt_add_left hab _)
        { xs := xs.map .fin
          probes := ((starts xs).map some ++ [none]).drop (strataWindow numStrata i).1
          numProbes := (strataWindow numStrata i).2, last := E.lastResult
          evaluated := [] ++ ((List.range (numStrata - 1)).map
            (fun i => i * subdivisionLength)).map (startAt xs) } rfl hcount
        (fun j hj => (Nat.add_lt_add_left hj _).trans_le (hend.trans hfit))
        (fun j _ => List.getElem?_drop)
      rw [hfine]
      refine ⟨_, rfl, hfirst.append hs _ ?_⟩
      intro j hj
      obtain ⟨a, ha, rfl⟩ := List.mem_map.mp hj
      have ha' := (List.mem_range.mp ha).trans_le (Nat.sub_le _ _)
      exact (Nat.add_lt_add_left ha' _).trans_le (hend.trans hfit)
    · exact ⟨_, rfl, hfirst⟩

theorem goldenSearch_ok [IsStrictOrderedRing K] [FloorRing K] (hn : 5 < (distinct xs).length)
    (hsize : (distinct xs).length < 2 ^ 31 + 5) (last : PlfitResult K) (best : BestFit K) :
    ∃ search, gssSearch evaluate (uniqueProbes xs last []) best = .ok search ∧
      LookedAtFirst xs search.evaluated := by
  have hpos : 0 < (distinct xs).length := by omega
  have hnum : (uniqueProbes xs last []).numProbes = (distinct xs).length := by
    simp [uniqueProbes]
  have hprobe : ∀ j < (distinct xs).length,
      derefPointer ((starts xs).map some ++ [none]) j = .ok (startAt xs j) :=
    fun j hj => derefPointer_eq_ok (getElem?_uniques hs hj)
  have hlen : ∀ j < (distinct xs).length, startAt xs j < (xs.map Double.fin).length := by
    intro j hj
    rw [List.length_map]
    exact startAt_lt_length hs hj
  obtain ⟨last', hfirst⟩ := heval (uniqueProbes xs last []) 0 _ rfl (hprobe 0 hpos) (hlen 0 hpos)
  have hstep : ∀ d, SearchesValues xs d → ∀ j ≤ (distinct xs).length - 5,
      ∃ d', evaluate d j = .ok d' ∧ SearchesValues xs d' := by
    intro d hd j hj
    have hj' : j < (distinct xs).length := by omega
    obtain ⟨last, hrun⟩ := heval d j _ hd.xs_eq (by rw [hd.probes_eq]; exact hprobe j hj')
      (hlen j hj')
    refine ⟨_, hrun, hd.xs_eq, hd.probes_eq, hd.seen.append hs [j] ?_⟩
    intro i hi
    rwa [List.mem_singleton.mp hi]
  have hread : ∀ d, SearchesValues xs d → ∀ j ≤ (distinct xs).length - 5,
      ∃ p, derefPointer d.probes j = .ok p := by
    intro d hd j hj
    rw [hd.probes_eq]
    exact ⟨_, hprobe j (by omega)⟩
  have hstart : LookedAtFirst xs ([0].map (startAt xs)) := by
    apply LookedAtFirst.of_map hs
    · exact List.mem_singleton.mpr rfl
    · intro j hj
      rwa [List.mem_singleton.mp hj]
  obtain ⟨search, d, hrun, hd, hseen⟩ := gssSearch_ok best
    (by rw [hnum, sizeSub_of_le (by omega)]) (by omega) (by omega) hstep hread hfirst
    ⟨rfl, rfl, hstart⟩
  refine ⟨search, hrun, ?_⟩
  rw [hseen]
  exact hd.seen

/-- Every search on two distinct values or more ends, unless an `int` has to hold a bracket end
that is too large for it. -/
theorem xminSearch_ok [IsStrictOrderedRing K] [FloorRing K] (method : ContinuousMethod)
    (hn : 2 ≤ (distinct xs).length)
    (hsize : method = .gssOrLinear → (distinct xs).length < 2 ^ 31 + 5) :
    ∃ search, xminSearch E evaluate method (xs.map .fin) ((starts xs).map some ++ [none])
        (starts xs).length = .ok search ∧ LookedAtFirst xs search.evaluated := by
  have hrange : ∀ j ∈ List.range ((distinct xs).length - 1), j < (distinct xs).length :=
    fun j hj => (List.mem_range.mp hj).trans_le (Nat.sub_le _ _)
  have hall : LookedAtFirst xs (([] : List ℕ) ++
      (List.range ((distinct xs).length - 1)).map (startAt xs)) :=
    LookedAtFirst.of_map hs (List.mem_range.mpr (by omega)) hrange
  obtain ⟨best, hscan⟩ := uniqueScan_ok (E := E) hs heval (by omega) E.lastResult []
  have hfallback : ∀ search : XminSearch K, LookedAtFirst xs search.evaluated →
      ∃ best, iContinuousXminOptLinearScan E evaluate
          (uniqueProbes xs search.last search.evaluated) =
        .ok (best, search.evaluated ++ (List.range ((distinct xs).length - 1)).map (startAt xs)) ∧
        LookedAtFirst xs
          (search.evaluated ++ (List.range ((distinct xs).length - 1)).map (startAt xs)) := by
    intro search hseen
    obtain ⟨best, hscan⟩ := uniqueScan_ok (E := E) hs heval (by omega) search.last search.evaluated
    exact ⟨best, hscan, hseen.append hs _ hrange⟩
  rw [uniqueProbes, length_starts] at hscan
  simp only [uniqueProbes, length_starts] at hfallback
  rw [length_starts]
  cases method with
  | linearOnly =>
    simp only [xminSearch, pure, Except.pure, bind, Except.bind, Bool.false_eq_true, if_false,
      hscan]
    exact ⟨_, rfl, hall⟩
  | gssOrLinear =>
    by_cases hfew : 5 < (distinct xs).length
    · obtain ⟨search, hrun, hseen⟩ := goldenSearch_ok hs heval hfew (hsize rfl) E.lastResult
        { result := { alpha := .nan, xmin := .nan, L := .nan, D := .nan, p := .nan }
          n := (xs.map Double.fin).length }
      rw [uniqueProbes, length_starts] at hrun
      obtain ⟨best, hscan', hall'⟩ := hfallback search hseen
      simp only [xminSearch, if_pos hfew, hrun, bind, Except.bind, hscan', pure, Except.pure]
      split
      · exact ⟨_, rfl, hseen⟩
      · exact ⟨_, rfl, hall'⟩
    · simp only [xminSearch, if_neg hfew, pure, Except.pure, bind, Except.bind,
        Bool.false_eq_true, if_false, hscan]
      exact ⟨_, rfl, hall⟩
  | stratifiedSampling =>
    by_cases hfew : 50 ≤ (distinct xs).length
    · obtain ⟨search, hrun, hseen⟩ := stratifiedSearch_ok (E := E) hs heval hfew
      obtain ⟨best, hscan', hall'⟩ := hfallback search hseen
      simp only [xminSearch, if_pos hfew, hrun, bind, Except.bind, hscan', pure, Except.pure]
      split
      · exact ⟨_, rfl, hseen⟩
      · exact ⟨_, rfl, hall'⟩
    · simp only [xminSearch, if_neg hfew, pure, Except.pure, bind, Except.bind,
        Bool.false_eq_true, if_false, hscan]
      exact ⟨_, rfl, hall⟩

theorem xminSearch_single [FloorRing K] (method : ContinuousMethod)
    (hn : (distinct xs).length = 1) :
    ∃ search, xminSearch E evaluate method (xs.map .fin) ((starts xs).map some ++ [none])
        (starts xs).length = .ok search ∧ search.evaluated = [] := by
  obtain ⟨best, hscan⟩ := uniqueScan_ok (E := E) hs heval (by omega) E.lastResult []
  rw [uniqueProbes, length_starts, hn] at hscan
  rw [length_starts, hn]
  cases method <;>
    simp [xminSearch, pure, Except.pure, bind, Except.bind, hscan]

end Stages

theorem linearScan_empty (hstop : ∀ d, d.probes = [none] → evaluate d 0 = .error .outOfBounds)
    {data : XminOptData K} (hnum : data.numProbes = 0) (hprobes : data.probes = [none]) :
    iContinuousXminOptLinearScan E evaluate data = .error .outOfBounds := by
  obtain ⟨n, hwrap⟩ : ∃ n, sizeSub data.numProbes 1 = n + 1 := by
    refine ⟨2 ^ 64 - 2, ?_⟩
    rw [hnum, sizeSub, if_neg Nat.one_pos.not_ge]
    norm_num
  have hscan : scanChunks evaluate data (List.range (n + 1)) = .error .outOfBounds := by
    simp only [scanChunks, List.range_succ_eq_map, List.foldlM_cons, scanStep,
      hstop data hprobes, bind, Except.bind]
  rw [iContinuousXminOptLinearScan, hwrap, hscan]
  rfl

theorem xminSearch_empty [FloorRing K]
    (hstop : ∀ d, d.probes = [none] → evaluate d 0 = .error .outOfBounds)
    (method : ContinuousMethod) {k : ℕ} (hk : k = 0) :
    xminSearch E evaluate method [] [none] k = .error .outOfBounds := by
  have hgolden : ¬ 5 < k := by omega
  have hstratified : ¬ 50 ≤ k := by omega
  have hscan : iContinuousXminOptLinearScan E evaluate
      { xs := [], probes := [none], numProbes := k, last := E.lastResult, evaluated := [] } =
        .error .outOfBounds := linearScan_empty hstop hk rfl
  cases method <;>
    simp only [xminSearch, hgolden, hstratified, if_false, pure, Except.pure, bind, Except.bind,
      Bool.false_eq_true, hscan]

/-- An `int` that cannot hold the end of the bracket stops the search. -/
theorem xminSearch_ne_ok [IsStrictOrderedRing K] [FloorRing K] {xs : List (Double K)}
    {probes : List (Option ℕ)} {k : ℕ} (hsize : 2 ^ 31 + 5 ≤ k) (search : XminSearch K) :
    xminSearch E evaluate .gssOrLinear xs probes k ≠ .ok search := by
  intro h
  simp only [xminSearch, if_pos (by omega : 5 < k), bind_eq_ok] at h
  obtain ⟨_, hgss, -⟩ := h
  refine gssSearch_ne_ok _ ?_ _ hgss
  show 2 ^ 31 ≤ sizeSub k 5
  rw [sizeSub_of_le (by omega)]
  omega

end Total

/-! ## The score of a failing probe -/

section Scores
variable {xs : List ℝ}

/-- The exponent that the estimation for the probe at a position gives. -/
def OwnAlpha (sorted : List (Double ℝ)) (p : ℕ) (alpha : Double ℝ) : Prop :=
  ∃ xmin, deref sorted p = .ok xmin ∧
    iEstimateAlphaContinuousSorted (sorted.drop p) xmin = .ok alpha

/-- In every search the estimation succeeds for each probe that is evaluated, and the score of
the probe comes from the exponent estimated for it in this evaluation. -/
structure ScoresOwnAlpha (E : Environment ℝ) (method : ContinuousMethod) (xs : List (Double ℝ)) :
    Prop where
  estimated : ∀ search, continuousSearch E iContinuousXminOptEvaluate method xs = .ok search →
    ∀ p ∈ search.evaluated, ∃ alpha, OwnAlpha (iCopyAndSort xs) p alpha
  scored : ∀ d i p d', d.xs = iCopyAndSort xs → derefPointer d.probes i = .ok p →
    iContinuousXminOptEvaluate d i = .ok d' → ∀ alpha, OwnAlpha (iCopyAndSort xs) p alpha →
      d'.last.alpha = alpha ∧
        d'.last.D = iKsTestContinuous ((iCopyAndSort xs).drop p) alpha d'.last.xmin

theorem evaluatesProbes_evaluate (xs : List (Double ℝ)) :
    EvaluatesProbes iContinuousXminOptEvaluate xs := by
  intro d i p hxs hptr hp
  simp only [iContinuousXminOptEvaluate, hptr, bind, Except.bind, hxs, deref_of_lt hp]
  exact ⟨_, rfl⟩

theorem evaluate_guard {d : XminOptData ℝ} (hprobes : d.probes = [none]) :
    iContinuousXminOptEvaluate d 0 = .error .outOfBounds := by
  simp only [iContinuousXminOptEvaluate, hprobes]
  rfl

theorem exists_ownAlpha_iff {p : ℕ} {x : ℝ} (hx : xs[p]? = some x) :
    (∃ alpha, OwnAlpha (xs.map .fin) p alpha) ↔ 0 < x := by
  have hderef := deref_map hx
  constructor
  · rintro ⟨alpha, xmin, hxmin, halpha⟩
    obtain rfl : .fin x = xmin := Except.ok.inj (hderef.symm.trans hxmin)
    by_contra hneg
    have hcheck : (.fin x : Double ℝ) ≤ 0 := by simpa using hneg
    simp only [iEstimateAlphaContinuousSorted, xminCheckZero, if_pos hcheck, bind, Except.bind]
      at halpha
    cases halpha
  · intro hpos
    obtain ⟨hlt, hget⟩ := List.getElem?_eq_some_iff.mp hx
    have hdrop : ((xs.map Double.fin).drop p).dropWhile (fun y => y < (.fin x : Double ℝ)) ≠ [] := by
      rw [← List.map_drop, List.drop_eq_getElem_cons hlt, hget, List.map_cons,
        List.dropWhile_cons_of_neg (by simp)]
      exact List.cons_ne_nil _ _
    have hestimate : ∃ alpha, iEstimateAlphaContinuousSorted ((xs.map Double.fin).drop p)
        (.fin x) = .ok alpha := by
      simp only [iEstimateAlphaContinuousSorted, xminCheckZero_fin hpos, bind, Except.bind,
        if_neg hdrop]
      exact ⟨_, rfl⟩
    obtain ⟨alpha, halpha⟩ := hestimate
    exact ⟨alpha, _, hderef, halpha⟩

theorem evaluate_scored {sorted : List (Double ℝ)} {d d' : XminOptData ℝ} {i p : ℕ}
    (hxs : d.xs = sorted) (hptr : derefPointer d.probes i = .ok p)
    (hrun : iContinuousXminOptEvaluate d i = .ok d') {alpha : Double ℝ}
    (halpha : OwnAlpha sorted p alpha) :
    d'.last.alpha = alpha ∧ d'.last.D = iKsTestContinuous (sorted.drop p) alpha d'.last.xmin := by
  obtain ⟨xmin, hderef, hestimate⟩ := halpha
  simp only [iContinuousXminOptEvaluate, hptr, bind, Except.bind, hxs, hderef, hestimate] at hrun
  obtain rfl := Except.ok.inj hrun
  exact ⟨rfl, rfl⟩

/-- The array is sorted, so its first element decides whether all of them are positive. -/
theorem forall_pos_iff_head (hs : xs.SortedLE) {x : ℝ} (hx : xs[0]? = some x) :
    (∀ y ∈ xs, 0 < y) ↔ 0 < x := by
  constructor
  · intro h
    exact h x (List.mem_of_getElem? hx)
  · intro hpos y hy
    obtain ⟨i, hi, rfl⟩ := List.mem_iff_getElem.mp hy
    obtain ⟨hlt, rfl⟩ := List.getElem?_eq_some_iff.mp hx
    exact hpos.trans_le (hs.getElem_le_getElem_of_le (Nat.zero_le i))

/-- Every score of a search comes from the exponent of its own probe exactly if no sample fails
the estimation, or no probe is evaluated at all. -/
theorem scoresOwnAlpha_iff (E : Environment ℝ) (method : ContinuousMethod) (xs : List ℝ) :
    ScoresOwnAlpha E method (xs.map .fin) ↔
      (∀ x ∈ xs, 0 < x) ∨ (distinct xs).length < 2 ∨
        (method = .gssOrLinear ∧ 2 ^ 31 + 5 ≤ (distinct xs).length) := by
  have hs : (xs.insertionSort (· ≤ ·)).SortedLE := List.sortedLE_insertionSort
  have hmem : ∀ x, x ∈ xs.insertionSort (· ≤ ·) ↔ x ∈ xs := fun x => List.mem_insertionSort _
  have hsearch := continuousSearch_eq E iContinuousXminOptEvaluate method xs
  have hsort := iCopyAndSort_map xs
  rw [← distinct_insertionSort, ← forall_congr' (fun x => imp_congr_left (hmem x))]
  generalize xs.insertionSort (· ≤ ·) = sorted at hs hsearch hsort
  have heval := evaluatesProbes_evaluate (sorted.map .fin)
  have hends : 2 ≤ (distinct sorted).length →
      ¬ (method = .gssOrLinear ∧ 2 ^ 31 + 5 ≤ (distinct sorted).length) →
      ∃ search, continuousSearch E iContinuousXminOptEvaluate method (xs.map .fin) = .ok search ∧
        LookedAtFirst sorted search.evaluated := by
    intro htwo hsize
    rw [hsearch]
    exact xminSearch_ok hs heval method htwo (fun h => not_le.mp (fun hle => hsize ⟨h, hle⟩))
  constructor
  · intro h
    by_contra hnot
    push Not at hnot
    obtain ⟨⟨x, hx, hneg⟩, htwo, hsize⟩ := hnot
    obtain ⟨search, hrun, hlooked⟩ := hends htwo (fun h => (hsize h.1).not_ge h.2)
    obtain ⟨alpha, halpha⟩ := h.estimated search hrun 0 hlooked.first
    rw [hsort] at halpha
    have hlt := hlooked.lt_length 0 hlooked.first
    have hhead := (exists_ownAlpha_iff (List.getElem?_eq_getElem hlt)).mp ⟨alpha, halpha⟩
    exact hneg.not_gt ((forall_pos_iff_head hs (List.getElem?_eq_getElem hlt)).mpr hhead x hx)
  · intro h
    refine ⟨?_, fun d i p d' hxs hptr hrun alpha halpha => evaluate_scored hxs hptr hrun halpha⟩
    intro search hrun p hp
    rcases Nat.lt_or_ge (distinct sorted).length 2 with hfew | htwo
    · -- no probe is evaluated
      rw [hsearch] at hrun
      rcases Nat.eq_zero_or_pos (distinct sorted).length with hzero | hone
      · have hstarts : starts sorted = [] :=
          List.eq_nil_of_length_eq_zero (by rw [length_starts, hzero])
        have hnil : sorted = [] := by
          apply List.eq_nil_of_subset_nil
          intro x hx
          have hx' := mem_distinct.mpr hx
          rwa [List.eq_nil_of_length_eq_zero hzero] at hx'
        have htable : (starts sorted).map some ++ [none] = [none] := by rw [hstarts]; rfl
        have hdata : sorted.map Double.fin = [] := by rw [hnil]; rfl
        rw [htable, hdata,
          xminSearch_empty (fun _ => evaluate_guard) method (by rw [length_starts, hzero])]
          at hrun
        cases hrun
      · obtain ⟨search', hrun', hseen⟩ := xminSearch_single (E := E) hs heval method (by omega)
        obtain rfl : search = search' := Except.ok.inj (hrun.symm.trans hrun')
        rw [hseen] at hp
        exact absurd hp List.not_mem_nil
    by_cases hsize : method = .gssOrLinear ∧ 2 ^ 31 + 5 ≤ (distinct sorted).length
    · rw [hsearch, hsize.1] at hrun
      exact absurd hrun (xminSearch_ne_ok (by rw [length_starts]; exact hsize.2) search)
    · obtain ⟨search', hrun', hlooked⟩ := hends htwo hsize
      obtain rfl : search = search' := Except.ok.inj (hrun.symm.trans hrun')
      have hpositive : ∀ x ∈ sorted, 0 < x :=
        h.resolve_right (not_or.mpr ⟨not_lt.mpr htwo, hsize⟩)
      have hlt := hlooked.lt_length p hp
      rw [hsort]
      exact (exists_ownAlpha_iff (List.getElem?_eq_getElem hlt)).mpr
        (hpositive _ (List.getElem_mem hlt))

/-- The record in which the search starts, before any probe is evaluated. -/
noncomputable def staleEnvironment (alpha : ℝ) : Environment ℝ :=
  { (idleEnvironment : Environment ℝ) with
    lastResult := { alpha := .fin alpha, xmin := 0, L := 0, D := 0, p := 0 } }

theorem iKsTestContinuous_zero_one :
    iKsTestContinuous [.fin 0, .fin 1] (.fin 3) (.fin 0) = (.fin (1 / 2) : Double ℝ) := by
  have hnan := MathLibrary.pow_nan_left (two_ne_zero : (2 : ℝ) ≠ 0)
  have hzero := MathLibrary.pow_zero_left_of_pos (two_pos : (0 : ℝ) < 2)
  have htwo : (3 : ℝ) - 1 = 2 := by norm_num
  have hfirst : (.fin 0 : Double ℝ) / .fin 0 = .nan := by
    rw [Double.fin_div_zero, sign_zero]
    rfl
  have hsecond : (.fin 0 : Double ℝ) / .fin 1 = .fin 0 := by
    rw [Double.fin_div_fin one_ne_zero, zero_div]
  have hhalf : (.fin 1 : Double ℝ) / .fin 2 = .fin (1 / 2) := Double.fin_div_fin two_ne_zero
  have hlen : ([.fin 0, .fin 1] : List (Double ℝ)).length = 2 := rfl
  have hd₀ : Double.fabs ((1 : Double ℝ) - MathLibrary.pow ((.fin 0 : Double ℝ) / .fin 0)
      ((.fin 3 : Double ℝ) - 1) - ((0 : ℕ) : Double ℝ) / ((2 : ℕ) : Double ℝ)) = .nan := by
    simp [hfirst, htwo, hnan]
  have hd₁ : Double.fabs ((1 : Double ℝ) - MathLibrary.pow ((.fin 0 : Double ℝ) / .fin 1)
      ((.fin 3 : Double ℝ) - 1) - ((0 + 1 : ℕ) : Double ℝ) / ((2 : ℕ) : Double ℝ)) =
      .fin (1 / 2) := by
    have habs : |1 - (2 : ℝ)⁻¹| = 1 / 2 := by norm_num
    simp [hsecond, htwo, hzero, hhalf, habs]
  have hpos : (0 : Double ℝ) < .fin (1 / 2) := by simp
  simp only [iKsTestContinuous, hlen, List.foldl_cons, List.foldl_nil, hd₀, hd₁,
    Double.not_lt_nan, if_false, hpos, if_true]

/-- The linear search over a zero and a one chooses the zero, whose estimation fails, and
returns the exponent it has found in its record. -/
theorem search_chooses_failing_probe :
    ¬ ScoresOwnAlpha (staleEnvironment 3) .linearOnly ([0, 1].map .fin) ∧
      ∃ search, continuousSearch (staleEnvironment 3) iContinuousXminOptEvaluate .linearOnly
          ([0, 1].map .fin) = .ok search ∧
        search.best.result.alpha = .fin 3 ∧ search.best.result.xmin = .fin 0 ∧
        search.best.result.D = .fin (1 / 2) := by
  have hsorted : ([0, 1] : List ℝ).SortedLT := by
    apply List.Pairwise.sortedLT
    simp
  have hsort : ([0, 1] : List ℝ).insertionSort (· ≤ ·) = [0, 1] :=
    hsorted.sortedLE.pairwise.insertionSort_eq
  have hstarts : starts ([0, 1] : List ℝ) = [0, 1] := by
    rw [starts_of_sortedLT hsorted]
    rfl
  have hsearch := continuousSearch_eq (staleEnvironment 3) iContinuousXminOptEvaluate .linearOnly
    [0, 1]
  rw [hsort, hstarts] at hsearch
  have hfails : ∃ f, iEstimateAlphaContinuousSorted ([.fin 0, .fin 1] : List (Double ℝ)) (.fin 0) =
      .error f := by
    have hcheck : (.fin 0 : Double ℝ) ≤ 0 := by simp
    simp only [iEstimateAlphaContinuousSorted, xminCheckZero, if_pos hcheck, bind, Except.bind]
    exact ⟨_, rfl⟩
  obtain ⟨f, hfails⟩ := hfails
  have hrun : continuousSearch (staleEnvironment 3) iContinuousXminOptEvaluate .linearOnly
      ([0, 1].map .fin) = .ok
        { success := true
          best := { result := { alpha := .fin 3, xmin := .fin 0, L := 0, D := .fin (1 / 2), p := 0 }
                    n := 2 }
          evaluated := [0]
          last := (staleEnvironment 3).lastResult } := by
    rw [hsearch]
    have hprobe : derefPointer [some 0, some 1, none] 0 = .ok 0 := rfl
    have hfirst : deref ([.fin 0, .fin 1] : List (Double ℝ)) 0 = .ok (.fin 0) := rfl
    have hindexes : List.range (sizeSub (0 + 1 + 1) 1) = [0] := rfl
    have hless : (.fin (1 / 2) : Double ℝ) < dblMax := lt_dblMax_of_le_one (by norm_num)
    simp only [xminSearch, iContinuousXminOptLinearScan, scanChunks, List.map_cons, List.map_nil,
      List.cons_append, List.nil_append, List.length_cons, List.length_nil, hindexes,
      List.foldlM_cons, List.foldlM_nil, scanStep, iContinuousXminOptEvaluate, hprobe, hfirst,
      List.drop_zero, hfails, iKsTestContinuous_zero_one, staleEnvironment, bind, Except.bind,
      pure, Except.pure, Bool.false_eq_true, if_false, localBest, globalBest, enterCritical,
      hless, if_true]
  refine ⟨?_, _, hrun, rfl, rfl, rfl⟩
  intro h
  obtain ⟨alpha, xmin, hxmin, halpha⟩ := h.estimated _ hrun 0 (List.mem_singleton.mpr rfl)
  rw [iCopyAndSort_map, hsort] at hxmin halpha
  obtain rfl := Except.ok.inj hxmin
  have hboth := hfails.symm.trans halpha
  cases hboth

end Scores
end Plfit
