import Mathlib
import Plfit.Search.Candidates

/-! # Runs of the discrete search

A run that ends without a failure evaluates the candidates in order, keeps the number of
skipped samples equal to the position, and holds the first candidate with the least score.
-/
namespace Plfit
open ExactArithmetic SortedBlocks StrictScan
variable {K : Type} [Field K] [LinearOrder K] [FloorRing K] [MathLibrary K]

def candidateAlpha (E : Environment K) (options : DiscreteOptions K) (xs : List (Double K))
    (s : ℕ) : Double K :=
  match iEstimateAlphaDiscrete E (xs.drop s) ((xs[s]?).getD .nan) options true with
  | .ok (.ok alpha) => alpha
  | _ => .nan

def candidateRecord (E : Environment K) (options : DiscreteOptions K) (xs : List (Double K))
    (s : ℕ) : PlfitResult K :=
  { E.bestResult with
    alpha := candidateAlpha E options xs s
    xmin := (xs[s]?).getD .nan
    D := iKsTestDiscrete E (xs.drop s) (candidateAlpha E options xs s) ((xs[s]?).getD .nan) }

/-- The best fit when the search holds a candidate, or nothing yet. -/
def candidateFit (E : Environment K) (options : DiscreteOptions K) (xs : List (Double K))
    (held : Option ℕ) : BestFit K :=
  fitOf xs.length id (candidateRecord E options xs) (discreteBest E) held

def Estimated (E : Environment K) (options : DiscreteOptions K) (xs : List (Double K))
    (s : ℕ) : Prop :=
  s < xs.length ∧ iEstimateAlphaDiscrete E (xs.drop s) ((xs[s]?).getD .nan) options true =
    .ok (.ok (candidateAlpha E options xs s))

section Run
variable {E : Environment K} {options : DiscreteOptions K} {xs : List (Double K)}

omit [Field K] [FloorRing K] [MathLibrary K] in
theorem skipDuplicates_snd (stop : ℕ) (prevX : Double K) (px m : ℕ) :
    (skipDuplicates xs stop prevX px m).2 + px = (skipDuplicates xs stop prevX px m).1 + m := by
  fun_induction skipDuplicates xs stop prevX px m with
  | case1 px m h ih => omega
  | case2 px m h => exact Nat.add_comm m px

omit [Field K] [FloorRing K] [MathLibrary K] in
theorem skipDuplicates_diag (xs : List (Double K)) (stop : ℕ) (prevX : Double K) (px : ℕ) :
    (skipDuplicates xs stop prevX px px).2 = (skipDuplicates xs stop prevX px px).1 :=
  Nat.add_right_cancel (skipDuplicates_snd stop prevX px px)

theorem estimated_of_ok {st next : DiscreteScan K} (hm : st.m = st.px)
    (h : evaluateCandidate E options xs st = .ok (.ok next)) : Estimated E options xs st.px := by
  unfold evaluateCandidate at h
  cases hx : deref xs st.px with
  | error e =>
    rw [hx] at h
    cases h
  | ok x =>
    have hget : xs[st.px]? = some x := deref_eq_ok.mp hx
    have htail : (xs.drop st.px).take (xs.length - st.m) = xs.drop st.px := by
      rw [hm]
      exact List.take_of_length_le List.length_drop.le
    rw [hx] at h
    simp only [bind, Except.bind, htail] at h
    rw [Estimated, candidateAlpha, hget, Option.getD_some]
    cases hest : iEstimateAlphaDiscrete E (xs.drop st.px) x options true with
    | error e =>
      rw [hest] at h
      cases h
    | ok outcome =>
      cases outcome with
      | error f =>
        rw [hest] at h
        cases h
      | ok alpha => exact ⟨(List.getElem?_eq_some_iff.mp hget).1, rfl⟩

theorem evaluateCandidate_eq {st : DiscreteScan K} (hm : st.m = st.px)
    {held : Option ℕ} (hbest : st.best = candidateFit E options xs held)
    (hheld : value (scoreKey (candidateRecord E options xs)) (scoreBound K) held ≤ scoreBound K)
    (hest : Estimated E options xs st.px) :
    evaluateCandidate E options xs st = .ok (.ok { st with
      prevX := (xs[st.px]?).getD .nan
      best := candidateFit E options xs
        (consider (scoreKey (candidateRecord E options xs)) (scoreBound K) held st.px)
      evaluated := st.evaluated ++ [st.px] }) := by
  obtain ⟨hlt, hest⟩ := hest
  have hget : xs[st.px]? = some xs[st.px] := List.getElem?_eq_getElem hlt
  have htail : (xs.drop st.px).take (xs.length - st.px) = xs.drop st.px :=
    List.take_of_length_le List.length_drop.le
  rw [hget, Option.getD_some] at hest ⊢
  have hrecord : candidateRecord E options xs st.px =
      { E.bestResult with
        alpha := candidateAlpha E options xs st.px, xmin := xs[st.px]
        D := iKsTestDiscrete E (xs.drop st.px) (candidateAlpha E options xs st.px) xs[st.px] } := by
    rw [candidateRecord, hget, Option.getD_some]
  have hcmp : (candidateRecord E options xs st.px).D < (candidateFit E options xs held).result.D ↔
      _ := lt_fitOf_iff xs.length id (candidateRecord E options xs)
    (rfl : (discreteBest E).result.D = _) hheld (candidateRecord E options xs st.px).D
  simp only [evaluateCandidate, deref_of_lt hlt, bind, Except.bind, htail, hest, hbest, hm,
    sizeSub_of_le hlt.le, pure, Except.pure]
  rw [hrecord] at hcmp
  simp only [consider, scoreKey, hrecord] at hcmp ⊢
  by_cases hbetter : iKsTestDiscrete E (xs.drop st.px) (candidateAlpha E options xs st.px)
      xs[st.px] < (candidateFit E options xs held).result.D
  · rw [if_pos hbetter, if_pos (hcmp.mp hbetter)]
    simp only [candidateFit, fitOf, hrecord, id]
    cases held <;> rfl
  · rw [if_neg hbetter, if_neg (fun hk => hbetter (hcmp.mpr hk))]

/-- A run of the main loop evaluates its candidates and scans their scores. -/
theorem discreteLoop_spec {stop : ℕ} {st last : DiscreteScan K} (hm : st.m = st.px)
    {held : Option ℕ} (hbest : st.best = candidateFit E options xs held)
    (hheld : value (scoreKey (candidateRecord E options xs)) (scoreBound K) held ≤ scoreBound K)
    (h : discreteLoop E options xs stop st = .ok (.ok last)) :
    last.evaluated = st.evaluated ++ candidates xs stop st.prevX st.px ∧
      last.best = candidateFit E options xs ((candidates xs stop st.prevX st.px).foldl
        (consider (scoreKey (candidateRecord E options xs)) (scoreBound K)) held) ∧
      ∀ s ∈ candidates xs stop st.prevX st.px, Estimated E options xs s := by
  induction hk : stop - st.px using Nat.strong_induction_on generalizing st held with
  | h k ih =>
    by_cases hlt : st.px < stop
    · have hle := le_skipDuplicates_fst xs stop st.prevX st.px st.px
      have hdiag := skipDuplicates_diag xs stop st.prevX st.px
      rw [discreteLoop, dif_pos hlt, hm] at h
      dsimp only at h
      rw [hdiag] at h
      rw [candidates, dif_pos hlt]
      generalize hs : (skipDuplicates xs stop st.prevX st.px st.px).1 = s at h hle ⊢
      dsimp only at h ⊢
      cases heval : evaluateCandidate E options xs { st with px := s, m := s } with
      | error e =>
        rw [heval] at h
        cases h
      | ok outcome =>
        cases outcome with
        | error f =>
          rw [heval] at h
          cases h
        | ok next =>
          have hest := estimated_of_ok rfl heval
          have heq := @evaluateCandidate_eq K _ _ _ _ E options xs { st with px := s, m := s } rfl
            held hbest hheld hest
          rw [heq] at h
          have hvalue : value (scoreKey (candidateRecord E options xs)) (scoreBound K)
              (consider (scoreKey (candidateRecord E options xs)) (scoreBound K) held s) ≤
                scoreBound K := (value_consider_le held s).trans hheld
          obtain ⟨hev, hfit, hall⟩ := ih (stop - (s + 1)) (by omega) rfl rfl hvalue h rfl
          refine ⟨?_, hfit, ?_⟩
          · rw [hev, List.append_assoc, List.singleton_append]
          · intro p hp
            rcases List.mem_cons.mp hp with rfl | hp
            · exact hest
            · exact hall p hp
    · rw [discreteLoop, dif_neg hlt] at h
      cases h
      rw [candidates_of_le (not_lt.mp hlt)]
      exact ⟨(List.append_nil _).symm, hbest, by simp⟩

theorem discreteLoop_total {stop : ℕ} {st : DiscreteScan K} (hm : st.m = st.px)
    {held : Option ℕ} (hbest : st.best = candidateFit E options xs held)
    (hheld : value (scoreKey (candidateRecord E options xs)) (scoreBound K) held ≤ scoreBound K)
    (h : ∀ s ∈ candidates xs stop st.prevX st.px, Estimated E options xs s) :
    ∃ last, discreteLoop E options xs stop st = .ok (.ok last) := by
  induction hk : stop - st.px using Nat.strong_induction_on generalizing st held with
  | h k ih =>
    by_cases hlt : st.px < stop
    · have hle := le_skipDuplicates_fst xs stop st.prevX st.px st.px
      have hdiag := skipDuplicates_diag xs stop st.prevX st.px
      rw [candidates, dif_pos hlt] at h
      rw [discreteLoop, dif_pos hlt, hm]
      dsimp only
      rw [hdiag]
      generalize (skipDuplicates xs stop st.prevX st.px st.px).1 = s at h hle ⊢
      have heq := @evaluateCandidate_eq K _ _ _ _ E options xs { st with px := s, m := s } rfl
        held hbest hheld (h s List.mem_cons_self)
      rw [heq]
      exact ih (stop - (s + 1)) (by omega) rfl rfl ((value_consider_le held s).trans hheld)
        (fun p hp => h p (List.mem_cons_of_mem s hp)) rfl
    · exact ⟨st, by rw [discreteLoop, dif_neg hlt]⟩

end Run

/-! ## The search on a sorted array -/

section Search
variable [IsStrictOrderedRing K] {E : Environment K} {options : DiscreteOptions K} {xs : List K}

def evaluatedValues (xs : List K) : List K :=
  expectedCandidates (valuesFrom xs 1) ++ overrun xs (valuesFrom xs 1)

omit [FloorRing K] [MathLibrary K] in
theorem searchStart (hs : xs.SortedLE) (hne : xs ≠ []) :
    ∃ stop, candidateBound (xs.map Double.fin) (below xs 1) = .ok stop ∧
      candidates (xs.map Double.fin) stop 0 (below xs 1) =
        (evaluatedValues xs).map (below xs) := by
  refine candidates_eq hs hne ?_
  intro v hv
  simpa using (zero_lt_one.trans_le hv).ne'

omit [IsStrictOrderedRing K] in
theorem discreteSearch_eq (hs : xs.SortedLE) {stop : ℕ}
    (hstop : candidateBound (xs.map Double.fin) (below xs 1) = .ok stop) :
    discreteSearch E options (xs.map .fin) =
      discreteLoop E options (xs.map .fin) stop
        { px := below xs 1, m := below xs 1, prevX := 0, best := discreteBest E,
          evaluated := [] } := by
  have hstart : advanceWhile (fun x => x < 1) (xs.map Double.fin) (xs.map Double.fin).length 0 =
      below xs 1 := by
    rw [List.length_map]
    exact advanceWhile_lt hs 1 (Nat.zero_le _)
  simp only [discreteSearch, hstart, hstop, bind, Except.bind]

/-- A run without a failure evaluates its values at their first occurrences and holds the
first of them with the least score. -/
theorem discreteSearch_spec (hs : xs.SortedLE) {last : DiscreteScan K}
    (h : discreteSearch E options (xs.map .fin) = .ok (.ok last)) :
    last.evaluated = (evaluatedValues xs).map (below xs) ∧
      last.best = candidateFit E options (xs.map .fin)
        (scan (scoreKey (candidateRecord E options (xs.map .fin))) (scoreBound K)
          ((evaluatedValues xs).map (below xs))) ∧
      ∀ v ∈ evaluatedValues xs, Estimated E options (xs.map .fin) (below xs v) := by
  rcases eq_or_ne xs [] with rfl | hne
  · cases h
  · obtain ⟨stop, hstop, hcandidates⟩ := searchStart hs hne
    rw [discreteSearch_eq hs hstop] at h
    have hnone : discreteBest E = candidateFit E options (xs.map .fin) none := rfl
    obtain ⟨hev, hbest, hall⟩ := discreteLoop_spec rfl hnone le_rfl h
    rw [hcandidates] at hev hbest hall
    exact ⟨hev, hbest, fun v hv => hall _ (List.mem_map.mpr ⟨v, hv, rfl⟩)⟩

theorem discreteSearch_total (hs : xs.SortedLE) (hne : xs ≠ [])
    (h : ∀ v ∈ evaluatedValues xs, Estimated E options (xs.map .fin) (below xs v)) :
    ∃ last, discreteSearch E options (xs.map .fin) = .ok (.ok last) := by
  obtain ⟨stop, hstop, hcandidates⟩ := searchStart hs hne
  rw [discreteSearch_eq hs hstop]
  have hnone : discreteBest E = candidateFit E options (xs.map .fin) none := rfl
  refine discreteLoop_total rfl hnone le_rfl ?_
  rw [hcandidates]
  intro s hs'
  obtain ⟨v, hv, rfl⟩ := List.mem_map.mp hs'
  exact h v hv

omit [FloorRing K] [MathLibrary K] [IsStrictOrderedRing K] in
/-- The search evaluates an initial segment of the values, and never an empty one. The largest
value belongs to it only if there is no other. -/
theorem evaluatedValues_eq_take (xs : List K) :
    ∃ k, 0 < k ∧ (k = 1 ∨ k < (valuesFrom xs 1).length) ∧
      evaluatedValues xs = (valuesFrom xs 1).take k := by
  unfold evaluatedValues expectedCandidates overrun
  generalize valuesFrom xs 1 = vs
  by_cases hlen : 3 ≤ vs.length
  · rw [if_pos hlen]
    by_cases hcount : ∀ v ∈ vs[vs.length - 3]?, xs.count v ≠ 1
    · refine ⟨vs.length - 2 + 1, Nat.succ_pos _, by omega, ?_⟩
      rw [if_pos ⟨hlen, hcount⟩, List.take_add_one]
    · refine ⟨vs.length - 2, by omega, by omega, ?_⟩
      rw [if_neg (fun h => hcount h.2), List.append_nil]
  · refine ⟨1, Nat.one_pos, Or.inl rfl, ?_⟩
    rw [if_neg hlen, if_neg (fun h => hlen h.1), List.append_nil]

omit [FloorRing K] [MathLibrary K] [IsStrictOrderedRing K] in
theorem mem_of_mem_evaluatedValues {v : K} (h : v ∈ evaluatedValues xs) : v ∈ xs ∧ 1 ≤ v := by
  obtain ⟨k, -, -, htake⟩ := evaluatedValues_eq_take xs
  rw [htake] at h
  exact mem_valuesFrom.mp (List.mem_of_mem_take h)

omit [FloorRing K] [MathLibrary K] [IsStrictOrderedRing K] in
theorem evaluatedValues_sortedLT (xs : List K) : (evaluatedValues xs).SortedLT := by
  obtain ⟨k, -, -, htake⟩ := evaluatedValues_eq_take xs
  rw [htake]
  exact ((valuesFrom_sortedLT xs 1).pairwise.take).sortedLT

omit [FloorRing K] [MathLibrary K] [IsStrictOrderedRing K] in
/-- A value that one sample only reaches is evaluated when it is the only one. -/
theorem evaluatedValues_eq_singleton {v : K} (h : v ∈ evaluatedValues xs)
    (hone : xs.countP (v ≤ ·) = 1) : evaluatedValues xs = [v] := by
  obtain ⟨k, -, hk, htake⟩ := evaluatedValues_eq_take xs
  rw [htake] at h ⊢
  rcases hk with rfl | hlt
  · cases hvalues : valuesFrom xs 1 with
    | nil => simp [hvalues] at h
    | cons w rest =>
      rw [hvalues] at h
      simpa using (List.mem_singleton.mp h).symm
  · obtain ⟨i, hi, rfl⟩ := List.mem_iff_getElem.mp h
    rw [List.length_take] at hi
    have hnext : i + 1 < (valuesFrom xs 1).length := by omega
    have hless : (valuesFrom xs 1)[i] < (valuesFrom xs 1)[i + 1] :=
      (valuesFrom_sortedLT xs 1).getElem_lt_getElem_iff.mpr (Nat.lt_succ_self i)
    have hmem : ∀ j (hj : j < (valuesFrom xs 1).length), (valuesFrom xs 1)[j] ∈ xs :=
      fun j hj => (mem_valuesFrom.mp (List.getElem_mem hj)).1
    have htwo : 2 ≤ (xs.filter ((valuesFrom xs 1)[i] ≤ ·)).length :=
      two_le_length (List.mem_filter.mpr ⟨hmem i (by omega), by simp⟩)
        (List.mem_filter.mpr ⟨hmem (i + 1) hnext, by simpa using hless.le⟩) hless.ne
    rw [← List.countP_eq_length_filter] at htwo
    simp only [List.getElem_take] at hone
    omega

omit [IsStrictOrderedRing K] in
/-- An optimizer that reports no error never stops the search. -/
theorem estimated_of_lbfgs (hs : xs.SortedLE) (hmethod : options.alphaMethod = .lbfgs)
    (hlbfgs : ∀ f x, 0 ≤ (E.lbfgs f x).1) {v : K} (hv : v ∈ xs) (hv1 : 1 ≤ v) :
    Estimated E options (xs.map .fin) (below xs v) := by
  have hget : (xs.map Double.fin)[below xs v]? = some (.fin v) := by
    rw [List.getElem?_map, getElem?_below hs hv]
    rfl
  refine ⟨by simpa using below_lt_length hs hv, ?_⟩
  have hok : ∀ ys, ∃ alpha, iEstimateAlphaDiscrete E ys (.fin v) options true =
      .ok (.ok alpha) := by
    intro ys
    have hnot : ¬ (.fin v : Double K) < .fin 1 := by simpa using hv1
    have hret : ∀ f x, ¬ ((E.lbfgs f x).1 < 0 ∧ (E.lbfgs f x).1 ∉ lbfgsAccepted) :=
      fun f x h => h.1.not_ge (hlbfgs f x)
    simp only [iEstimateAlphaDiscrete, hmethod, iEstimateAlphaDiscreteLbfgs, xminCheckOne,
      Double.one_def, if_neg hnot, bind, Except.bind, if_neg (hret _ _)]
    exact ⟨_, rfl⟩
  obtain ⟨alpha, halpha⟩ := hok ((xs.map .fin).drop (below xs v))
  simp only [candidateAlpha, hget, Option.getD_some, halpha]

end Search

end Plfit
