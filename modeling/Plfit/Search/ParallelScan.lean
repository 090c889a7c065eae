import Mathlib
import Plfit.Search.LinearScan

/-! # The parallel scan over all schedules

The parallel build returns the same score as the sequential one, but not always the same
fit: among probes that share the least score the one whose thread enters the critical section
first is kept.
-/
namespace Plfit
open ExactArithmetic StrictScan
variable {K : Type} [Field K] [LinearOrder K]

/-- A schedule deals the chunks of ten consecutive iterations out to the threads and lets
every thread enter the critical section once. -/
structure Schedule (threads : ℕ) where
  owner : ℕ → Fin threads
  order : List (Fin threads)
  nodup : order.Nodup
  complete : ∀ thread, thread ∈ order

def Schedule.entry {threads : ℕ} (s : Schedule threads) (i : ℕ) : ℕ :=
  s.order.idxOf (s.owner (i / 10))

def SameFit (a b : BestFit K) : Prop :=
  a.result.alpha = b.result.alpha ∧ a.result.xmin = b.result.xmin ∧
    a.result.D = b.result.D ∧ a.n = b.n

omit [Field K] [LinearOrder K] in
/-- Different probes leave tails of different lengths, so the fit tells the probe. -/
theorem sameFit_fitOf_iff {data : XminOptData K} {ptr : ℕ → ℕ} (hp : ProbesAt data ptr)
    (record : ℕ → PlfitResult K) {start : BestFit K} (hstart : start.n = 0)
    {held found : Option ℕ} (hheld : ∀ i ∈ held, i < data.numProbes)
    (hfound : ∀ i ∈ found, i < data.numProbes) :
    SameFit (fitOf data.xs.length ptr record start held)
      (fitOf data.xs.length ptr record start found) ↔ held = found := by
  constructor
  · rintro ⟨-, -, -, hn⟩
    cases held with
    | none =>
      cases found with
      | none => rfl
      | some j =>
        have hj := hp.lt_length j (hfound j rfl)
        simp only [fitOf, hstart] at hn
        omega
    | some i =>
      have hi := hp.lt_length i (hheld i rfl)
      cases found with
      | none =>
        simp only [fitOf, hstart] at hn
        omega
      | some j =>
        have hj := hp.lt_length j (hfound j rfl)
        simp only [fitOf] at hn
        have hptr : ptr i = ptr j := by omega
        rw [hp.injective (hheld i rfl) (hfound j rfl) hptr]
  · rintro rfl
    exact ⟨rfl, rfl, rfl, rfl⟩

def BuildsAgree {threads : ℕ} (E : Environment K) (evaluate : XminEvaluate K)
    (data : XminOptData K) (s : Schedule threads) : Prop :=
  ∃ seq seen par, iContinuousXminOptLinearScan E evaluate data = .ok (seq, seen) ∧
    iContinuousXminOptParallelScan E evaluate data s.owner s.order = .ok par ∧ SameFit par seq

/-- Whether the two builds agree is decided by the thread that owns the first best probe. -/
theorem parallelScan_sameFit_iff {evaluate : XminEvaluate K} {data : XminOptData K}
    {ptr : ℕ → ℕ} {record : ℕ → PlfitResult K} {P : XminOptData K → Prop} {threads : ℕ}
    (E : Environment K) (hp : ProbesAt data ptr)
    (hs : Scores evaluate data ptr record (data.numProbes - 1) P) (s : Schedule threads) :
    BuildsAgree E evaluate data s ↔
    ∀ w, IsFirstBest (fun i => (record i).D) (data.numProbes - 1) w →
      ∀ i < data.numProbes - 1, (record i).D ≤ (record w).D → s.entry w ≤ s.entry i := by
  have hsorted : (List.range (data.numProbes - 1)).SortedLT := List.pairwise_lt_range.sortedLT
  have hall : ∀ i ∈ List.range (data.numProbes - 1), s.owner (i / 10) ∈ s.order :=
    fun i _ => s.complete _
  have hlt : ∀ xs : List ℕ, (∀ i ∈ xs, i < data.numProbes - 1) →
      ∀ i ∈ scan (scoreKey record) (scoreBound K) xs, i < data.numProbes := by
    intro xs hxs i hi
    have := hxs i (mem_of_scan hi)
    omega
  have hagree := sameFit_fitOf_iff hp record (rfl : (globalBest E).n = 0)
    (hlt (grouped (fun i => s.owner (i / 10)) (List.range (data.numProbes - 1)) s.order)
      (fun i hi => List.mem_range.mp (mem_grouped.mp hi).1))
    (hlt (List.range (data.numProbes - 1)) (fun i hi => List.mem_range.mp hi))
  rw [scan_grouped_eq_iff hsorted hall] at hagree
  rw [BuildsAgree, linearScan_spec E hp hs, parallelScan_spec E hp hs s.owner s.order]
  constructor
  · rintro ⟨seq, seen, par, hseq, hpar, hsame⟩ w hw i hi hiw
    cases hseq
    cases hpar
    have hw' := scan_range_eq_some_iff.mpr hw
    refine hagree.mp hsame w hw' i (List.mem_range.mpr hi) ?_
    have hfin := (lt_bound_of_scan hw').trans (WithBot.coe_lt_coe.mpr (WithTop.coe_lt_top _))
    exact (Double.le_iff_rank_le hfin).mp hiw
  · intro hentry
    refine ⟨_, _, _, rfl, rfl, hagree.mpr ?_⟩
    intro w hw i hi hiw
    have hfin := (lt_bound_of_scan hw).trans (WithBot.coe_lt_coe.mpr (WithTop.coe_lt_top _))
    exact hentry w (scan_range_eq_some_iff.mp hw) i (List.mem_range.mp hi)
      ((Double.le_iff_rank_le hfin).mpr hiw)

/-- The parallel build returns the sequential fit if and only if no thread that owns another
probe with the least score enters the critical section before the owner of the first one. -/
theorem parallelScan_agrees_iff {threads : ℕ} (E : Environment K) (alpha D : ℕ → Double K)
    {data : XminOptData K} {ptr : ℕ → ℕ} (hp : ProbesAt data ptr) (s : Schedule threads) :
    BuildsAgree E (tableEvaluate alpha D) data s ↔
    ∀ w, IsFirstBest (fun i => D (ptr i)) (data.numProbes - 1) w →
      ∀ i < data.numProbes - 1, D (ptr i) ≤ D (ptr w) →
        s.entry w ≤ s.entry i :=
  parallelScan_sameFit_iff E hp (tableEvaluate_scores alpha D hp (Nat.sub_le _ _)) s

/-! Twelve distinct samples give two chunks of probes. -/

def twelveProbes : XminOptData ℚ where
  xs := (List.range 12).map (fun i : ℕ => .fin (i + 1))
  probes := (List.range 12).map some ++ [none]
  numProbes := 12
  last := idleEnvironment.lastResult
  evaluated := []

theorem twelveProbes_probesAt : ProbesAt twelveProbes id where
  pos := by decide
  get := by decide
  lt_length := by simp [twelveProbes]
  mono := fun i j hij _ => hij

def tiedAlphas (_ : ℕ) : Double ℚ := 2

def tiedScores (_ : ℕ) : Double ℚ := .fin (1 / 10)

/-- Two threads with one chunk each, and the order of their critical sections. -/
def twoThreads (order : List (Fin 2)) (nodup : order.Nodup) (complete : ∀ t, t ∈ order) :
    Schedule 2 :=
  { owner := fun chunk => if chunk = 0 then 0 else 1, order, nodup, complete }

theorem parallelScan_agrees_in_order :
    BuildsAgree idleEnvironment (tableEvaluate tiedAlphas tiedScores) twelveProbes
      (twoThreads [0, 1] (by decide) (by decide)) := by
  refine (parallelScan_agrees_iff _ _ _ twelveProbes_probesAt _).mpr ?_
  rintro w ⟨-, -, -, hfirst⟩ i - -
  have hw : w = 0 := by
    by_contra hne
    exact hfirst 0 (Nat.pos_of_ne_zero hne) (by simp [tiedScores])
  subst hw
  exact Nat.zero_le _

/-- The second thread arrives first and wins the tie. -/
theorem parallelScan_disagrees_out_of_order :
    ¬ BuildsAgree idleEnvironment (tableEvaluate tiedAlphas tiedScores) twelveProbes
      (twoThreads [1, 0] (by decide) (by decide)) := by
  intro hsame
  have hscores := tableEvaluate_scores tiedAlphas tiedScores twelveProbes_probesAt (Nat.sub_le _ 1)
  have hentry := (parallelScan_sameFit_iff idleEnvironment twelveProbes_probesAt hscores
    (twoThreads [1, 0] (by decide) (by decide))).mp hsame 0 ?_ 10 (by decide)
    (by simp [tableRecord, tiedScores])
  · exact absurd hentry (by decide)
  · refine ⟨by decide, ?_, ?_, ?_⟩
    · exact lt_dblMax_of_le_one (by norm_num)
    · intro i hi
      exact Double.lt_irrefl _
    · intro i hi
      omega

end Plfit
