import Mathlib
import Plfit.Library.StrictScan
import Plfit.Model.Continuous

/-! # The linear scan, sequential and parallel

Both builds of the scan are running minima over the scores of the probes. The sequential one
looks at the probes in order; the parallel one at the probes of the threads in the order in
which the threads enter the critical section.
-/
namespace Plfit
open ExactArithmetic StrictScan
variable {K : Type} [Field K] [LinearOrder K]

/-- The probes point to increasing positions of the data. -/
structure ProbesAt (data : XminOptData K) (ptr : ℕ → ℕ) : Prop where
  pos : 0 < data.numProbes
  get : ∀ i < data.numProbes, data.probes[i]? = some (some (ptr i))
  lt_length : ∀ i < data.numProbes, ptr i < data.xs.length
  mono : ∀ i j, i < j → j < data.numProbes → ptr i < ptr j

theorem derefPointer_eq_ok {probes : List (Option ℕ)} {i p : ℕ} (h : probes[i]? = some (some p)) :
    derefPointer probes i = .ok p := by
  simp only [derefPointer, deref_eq_ok.mpr h]
  rfl

omit [Field K] [LinearOrder K] in
theorem ProbesAt.derefPointer {data : XminOptData K} {ptr : ℕ → ℕ} (h : ProbesAt data ptr)
    {i : ℕ} (hi : i < data.numProbes) : derefPointer data.probes i = .ok (ptr i) :=
  derefPointer_eq_ok (h.get i hi)

omit [Field K] [LinearOrder K] in
theorem ProbesAt.injective {data : XminOptData K} {ptr : ℕ → ℕ} (h : ProbesAt data ptr)
    {i j : ℕ} (hi : i < data.numProbes) (hj : j < data.numProbes) (he : ptr i = ptr j) :
    i = j := by
  rcases lt_trichotomy i j with hij | hij | hij
  · have := h.mono i j hij hj
    omega
  · exact hij
  · have := h.mono j i hij hi
    omega

/-- Every evaluation of the `i`-th probe ends with the same record, whatever was evaluated
before. The invariant `P` is what an evaluation may rely on. -/
structure Scores (evaluate : XminEvaluate K) (data : XminOptData K) (ptr : ℕ → ℕ)
    (record : ℕ → PlfitResult K) (n : ℕ) (P : XminOptData K → Prop) : Prop where
  start : P data
  xs_eq : ∀ d, P d → d.xs = data.xs
  probes_eq : ∀ d, P d → d.probes = data.probes
  step : ∀ d, P d → ∀ i < n, ∃ d', evaluate d i = .ok d' ∧ P d' ∧ d'.last = record i ∧
    d'.evaluated = d.evaluated ++ [ptr i]

def scoreKey (record : ℕ → PlfitResult K) (i : ℕ) : WithBot (WithTop K) := (record i).D.rank

def scoreBound (K : Type) [Field K] [LinearOrder K] : WithBot (WithTop K) :=
  (dblMax : Double K).rank

/-- The best fit when the scan holds a probe, or nothing yet. -/
def fitOf (n : ℕ) (ptr : ℕ → ℕ) (record : ℕ → PlfitResult K) (start : BestFit K) :
    Option ℕ → BestFit K
  | none => start
  | some i => { result := record i, n := n - ptr i }

/-- The score of the best fit is the value to beat. -/
theorem lt_fitOf_iff (n : ℕ) (ptr : ℕ → ℕ) (record : ℕ → PlfitResult K) {start : BestFit K}
    (hstart : start.result.D = dblMax) {held : Option ℕ}
    (hheld : value (scoreKey record) (scoreBound K) held ≤ scoreBound K) (D : Double K) :
    D < (fitOf n ptr record start held).result.D ↔
      D.rank < value (scoreKey record) (scoreBound K) held := by
  have hbound : scoreBound K < ⊤ := WithBot.coe_lt_coe.mpr (WithTop.coe_lt_top _)
  cases held with
  | none =>
    simp only [fitOf, hstart, value_none]
    exact Double.lt_iff_rank_lt dblMax_ne_nan
  | some j =>
    refine Double.lt_iff_rank_lt ?_
    intro hnan
    simp only [fitOf] at hnan
    simp only [value_some, scoreKey, hnan] at hheld
    exact absurd (hheld.trans_lt hbound) (by simp [Double.rank])

section Scan
variable {evaluate : XminEvaluate K} {data : XminOptData K} {ptr : ℕ → ℕ}
variable {record : ℕ → PlfitResult K} {n : ℕ} {P : XminOptData K → Prop}

theorem scanStep_spec (hp : ProbesAt data ptr) (hn : n ≤ data.numProbes)
    (hs : Scores evaluate data ptr record n P) {d : XminOptData K} (hd : P d) {held : Option ℕ}
    (hheld : value (scoreKey record) (scoreBound K) held ≤ scoreBound K) {i : ℕ} (hi : i < n) :
    ∃ d', scanStep evaluate (d, fitOf data.xs.length ptr record localBest held) i =
        .ok (d', fitOf data.xs.length ptr record localBest
          (consider (scoreKey record) (scoreBound K) held i)) ∧
      P d' ∧ d'.evaluated = d.evaluated ++ [ptr i] := by
  obtain ⟨d', he, hd', hlast, hev⟩ := hs.step d hd i hi
  have hcmp := lt_fitOf_iff data.xs.length ptr record (rfl : (localBest : BestFit K).result.D = _)
    hheld (record i).D
  have hptr : derefPointer d'.probes i = .ok (ptr i) := by
    rw [hs.probes_eq d' hd']
    exact hp.derefPointer (hi.trans_le hn)
  refine ⟨d', ?_, hd', hev⟩
  simp only [scanStep, he, bind, Except.bind, hlast]
  by_cases hlt : (record i).D < (fitOf data.xs.length ptr record localBest held).result.D
  · have hk : scoreKey record i < value (scoreKey record) (scoreBound K) held := hcmp.mp hlt
    rw [if_pos hlt, hptr, consider, if_pos hk]
    simp only [fitOf, hs.xs_eq d' hd']
    rfl
  · have hk : ¬ scoreKey record i < value (scoreKey record) (scoreBound K) held := by
      rw [scoreKey, ← hcmp]
      exact hlt
    rw [if_neg hlt, consider, if_neg hk]
    rfl

/-- A thread ends with the first minimum of the probes given to it. -/
theorem scanChunks_spec (hp : ProbesAt data ptr) (hn : n ≤ data.numProbes)
    (hs : Scores evaluate data ptr record n P) {indexes : List ℕ} (hi : ∀ i ∈ indexes, i < n) :
    ∃ d', scanChunks evaluate data indexes =
        .ok (d', fitOf data.xs.length ptr record localBest
          (scan (scoreKey record) (scoreBound K) indexes)) ∧
      P d' ∧ d'.evaluated = data.evaluated ++ indexes.map ptr := by
  induction indexes using List.reverseRecOn with
  | nil => exact ⟨data, rfl, hs.start, by simp⟩
  | append_singleton indexes i ih =>
    obtain ⟨d, hrun, hd, hev⟩ := ih (fun j hj => hi j (List.mem_append_left _ hj))
    obtain ⟨d', hstep, hd', hev'⟩ := scanStep_spec hp hn hs hd
      (value_scan_le indexes) (hi i (by simp))
    refine ⟨d', ?_, hd', by simp [hev', hev]⟩
    rw [scanChunks] at hrun ⊢
    rw [List.foldlM_append, hrun, scan_append_singleton]
    simp only [bind, Except.bind, List.foldlM_cons, List.foldlM_nil, hstep]
    rfl

theorem enterCritical_fitOf (E : Environment K) {held found : Option ℕ}
    (hheld : value (scoreKey record) (scoreBound K) held ≤ scoreBound K) :
    enterCritical (fitOf data.xs.length ptr record (globalBest E) held)
        (fitOf data.xs.length ptr record localBest found) =
      fitOf data.xs.length ptr record (globalBest E)
        (merge (scoreKey record) (scoreBound K) held found) := by
  have hcmp := lt_fitOf_iff data.xs.length ptr record (rfl : (globalBest E).result.D = _) hheld
    (fitOf data.xs.length ptr record localBest found).result.D
  cases found with
  | none =>
    have hno : ¬ scoreBound K < value (scoreKey record) (scoreBound K) held := hheld.not_gt
    have hD : (fitOf data.xs.length ptr record localBest none).result.D.rank = scoreBound K := rfl
    rw [hD] at hcmp
    rw [enterCritical, if_neg (fun h => hno (hcmp.mp h)), merge, value_none, if_neg hno]
  | some i =>
    rw [enterCritical, merge, value_some]
    by_cases hlt : scoreKey record i < value (scoreKey record) (scoreBound K) held
    · rw [if_pos (hcmp.mpr hlt), if_pos hlt]
      rfl
    · rw [if_neg (fun h => hlt (hcmp.mp h)), if_neg hlt]

/-- The sequential scan returns the first minimum of all probes but the last. -/
theorem linearScan_spec (E : Environment K) (hp : ProbesAt data ptr)
    (hs : Scores evaluate data ptr record (data.numProbes - 1) P) :
    iContinuousXminOptLinearScan E evaluate data =
      .ok (fitOf data.xs.length ptr record (globalBest E)
          (scan (scoreKey record) (scoreBound K) (List.range (data.numProbes - 1))),
        data.evaluated ++ (List.range (data.numProbes - 1)).map ptr) := by
  have hrange : ∀ i ∈ List.range (data.numProbes - 1), i < data.numProbes - 1 :=
    fun i hi => List.mem_range.mp hi
  obtain ⟨d, hrun, -, hev⟩ := scanChunks_spec hp (Nat.sub_le _ _) hs hrange
  have hcrit (found : Option ℕ) :
      enterCritical (fitOf data.xs.length ptr record (globalBest E) none)
          (fitOf data.xs.length ptr record localBest found) =
        fitOf data.xs.length ptr record (globalBest E)
          (merge (scoreKey record) (scoreBound K) none found) := enterCritical_fitOf E le_rfl
  have hbest := hcrit (scan (scoreKey record) (scoreBound K) (List.range (data.numProbes - 1)))
  rw [merge_none_scan] at hbest
  simp only [iContinuousXminOptLinearScan, sizeSub_of_le hp.pos, hrun, bind, Except.bind, hev]
  exact congrArg (fun b => Except.ok (b, _)) hbest

theorem mem_threadIndexes {T : Type} [DecidableEq T] {owner : ℕ → T} {n i : ℕ} {t : T} :
    i ∈ threadIndexes owner n t ↔ i < n ∧ owner (i / 10) = t := by
  simp [threadIndexes]

/-- The parallel scan returns the first minimum in the order of the critical sections. -/
theorem parallelScan_spec {T : Type} [DecidableEq T] (E : Environment K) (hp : ProbesAt data ptr)
    (hs : Scores evaluate data ptr record (data.numProbes - 1) P) (owner : ℕ → T)
    (order : List T) :
    iContinuousXminOptParallelScan E evaluate data owner order =
      .ok (fitOf data.xs.length ptr record (globalBest E)
        (scan (scoreKey record) (scoreBound K)
          (grouped (fun i => owner (i / 10)) (List.range (data.numProbes - 1)) order))) := by
  induction order using List.reverseRecOn with
  | nil => rfl
  | append_singleton order t ih =>
    have hthread : ∀ i ∈ threadIndexes owner (data.numProbes - 1) t, i < data.numProbes - 1 :=
      fun i hi => (mem_threadIndexes.mp hi).1
    obtain ⟨d, hrun, -, -⟩ := scanChunks_spec hp (Nat.sub_le _ _) hs hthread
    have hsplit : grouped (fun i => owner (i / 10)) (List.range (data.numProbes - 1))
        (order ++ [t]) =
        grouped (fun i => owner (i / 10)) (List.range (data.numProbes - 1)) order ++
          threadIndexes owner (data.numProbes - 1) t := by
      simp [grouped, threadIndexes]
    rw [iContinuousXminOptParallelScan] at ih ⊢
    rw [List.foldlM_append, ih, hsplit, scan_append, ← enterCritical_fitOf E (value_scan_le _)]
    simp only [bind, Except.bind, List.foldlM_cons, List.foldlM_nil, sizeSub_of_le hp.pos, hrun,
      pure, Except.pure]

end Scan

/-! ## Scores from a table -/

section Table
variable {K : Type} [Field K]

/-- The evaluation that takes the exponent and the score of a probe from tables. -/
def tableEvaluate (alpha D : ℕ → Double K) : XminEvaluate K := fun data x => do
  let begin ← derefPointer data.probes x
  let xmin ← deref data.xs begin
  let last := { data.last with alpha := alpha begin, xmin := xmin, D := D begin }
  return { data with last := last, evaluated := data.evaluated ++ [begin] }

def tableRecord (alpha D : ℕ → Double K) (data : XminOptData K) (ptr : ℕ → ℕ) (i : ℕ) :
    PlfitResult K :=
  { data.last with alpha := alpha (ptr i), xmin := data.xs.getD (ptr i) 0, D := D (ptr i) }

/-- An evaluation leaves the samples, the probes and the fields `L` and `p` as they are. -/
def TableInvariant (data d : XminOptData K) : Prop :=
  d.xs = data.xs ∧ d.probes = data.probes ∧ d.last.L = data.last.L ∧ d.last.p = data.last.p

theorem tableEvaluate_scores (alpha D : ℕ → Double K) {data : XminOptData K} {ptr : ℕ → ℕ}
    (hp : ProbesAt data ptr) {n : ℕ} (hn : n ≤ data.numProbes) :
    Scores (tableEvaluate alpha D) data ptr (tableRecord alpha D data ptr) n
      (TableInvariant data) where
  start := ⟨rfl, rfl, rfl, rfl⟩
  xs_eq := fun d hd => hd.1
  probes_eq := fun d hd => hd.2.1
  step := by
    rintro d ⟨hxs, hprobes, hL, hpv⟩ i hi
    have hptr : derefPointer d.probes i = .ok (ptr i) := by
      rw [hprobes]
      exact hp.derefPointer (hi.trans_le hn)
    have hlt := hp.lt_length i (hi.trans_le hn)
    have hx : deref d.xs (ptr i) = .ok (data.xs.getD (ptr i) 0) := by
      rw [hxs, deref_of_lt hlt, List.getD_eq_getElem]
    refine ⟨{ d with last := tableRecord alpha D data ptr i, evaluated := d.evaluated ++ [ptr i] },
      ?_, ⟨hxs, hprobes, rfl, rfl⟩, rfl, rfl⟩
    simp only [tableEvaluate, hptr, bind, Except.bind, hx, hL, hpv, tableRecord]
    rfl

/-- On the allowed positions an evaluation does what the tables say. -/
def FollowsTables [LinearOrder K] (evaluate : XminEvaluate K) (alpha D : ℕ → Double K)
    (xs : List (Double K)) (allowed : ℕ → Prop) : Prop :=
  ∀ d i p, d.xs = xs → derefPointer d.probes i = .ok p → allowed p →
    evaluate d i = tableEvaluate alpha D d i

theorem FollowsTables.scores [LinearOrder K] {evaluate : XminEvaluate K} {alpha D : ℕ → Double K}
    {data : XminOptData K} {ptr : ℕ → ℕ} {allowed : ℕ → Prop}
    (h : FollowsTables evaluate alpha D data.xs allowed) (hp : ProbesAt data ptr) {n : ℕ}
    (hn : n ≤ data.numProbes) (hallowed : ∀ i < n, allowed (ptr i)) :
    Scores evaluate data ptr (tableRecord alpha D data ptr) n (TableInvariant data) where
  start := ⟨rfl, rfl, rfl, rfl⟩
  xs_eq := fun d hd => hd.1
  probes_eq := fun d hd => hd.2.1
  step := by
    intro d hd i hi
    have hptr : derefPointer d.probes i = .ok (ptr i) := by
      rw [hd.2.1]
      exact hp.derefPointer (hi.trans_le hn)
    rw [h d i (ptr i) hd.1 hptr (hallowed i hi)]
    exact (tableEvaluate_scores alpha D hp hn).step d hd i hi

end Table

/-! ## The first best probe -/

/-- The first probe with the least score among the first `n`, provided that score lies below
`DBL_MAX`. A NaN never is the least score. -/
def IsFirstBest (score : ℕ → Double K) (n w : ℕ) : Prop :=
  w < n ∧ score w < dblMax ∧ (∀ i < n, ¬ score i < score w) ∧ ∀ i < w, ¬ score i ≤ score w

theorem scan_range_eq_some_iff {score : ℕ → Double K} {n w : ℕ} :
    scan (fun i => (score i).rank) (scoreBound K) (List.range n) = some w ↔
      IsFirstBest score n w := by
  have hfinite : ∀ w, (score w).rank < scoreBound K → (score w).rank < ⊤ := fun w hw =>
    hw.trans (WithBot.coe_lt_coe.mpr (WithTop.coe_lt_top _))
  have hbound : ∀ w, score w < dblMax ↔ (score w).rank < scoreBound K := fun w =>
    Double.lt_iff_rank_lt dblMax_ne_nan
  have hle : ∀ w i, (score w).rank < scoreBound K →
      (score i ≤ score w ↔ (score i).rank ≤ (score w).rank) := fun w i hw =>
    Double.le_iff_rank_le (hfinite w hw)
  have hlt : ∀ w i, (score w).rank < scoreBound K →
      (score i < score w ↔ (score i).rank < (score w).rank) := fun w i hw =>
    Double.lt_iff_rank_lt (Double.ne_nan_of_lt ((hbound w).mpr hw))
  have hsorted : (List.range n).SortedLT := List.pairwise_lt_range.sortedLT
  rw [IsFirstBest]
  constructor
  · intro hscan
    have hw := lt_bound_of_scan hscan
    have hwn := List.mem_range.mp (mem_of_scan hscan)
    refine ⟨hwn, (hbound w).mpr hw, ?_, ?_⟩
    · intro i hi
      rw [hlt w i hw]
      exact (le_of_scan hscan (List.mem_range.mpr hi)).not_gt
    · intro i hi hiw
      have hin := List.mem_range.mpr (hi.trans hwn)
      exact hi.not_ge (le_of_scan_of_key_le hsorted hscan hin ((hle w i hw).mp hiw))
  · rintro ⟨hwn, hw, hmin, hfirst⟩
    rw [hbound] at hw
    refine scan_eq_some_iff.mpr ⟨⟨List.mem_range.mpr hwn, ?_, ?_⟩, hw⟩
    · intro i hi
      exact not_lt.mp (fun h => hmin i (List.mem_range.mp hi) ((hlt w i hw).mpr h))
    · intro i hi hiw
      rw [idxOf_le_idxOf_iff hsorted (List.mem_range.mpr hwn) hi]
      exact not_lt.mp (fun h => hfirst i h ((hle w i hw).mpr hiw))

end Plfit
