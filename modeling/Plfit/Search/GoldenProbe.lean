import Mathlib
import Plfit.Search.GoldenMinimum
import Plfit.Search.GoldenSearch

/-! # The probe of a cancelled search

The callback ends a search when both ends of the bracket stand for one probe. The best point and the
point that was evaluated last are in that bracket, so the record of the last evaluation is the one of
the best probe.
-/
namespace Plfit
open ExactArithmetic

section Probes
variable {K : Type} [Field K] [LinearOrder K] [FloorRing K]

def floorScore (score : ℕ → K) (x : K) : K := score ⌊x⌋₊

/-- The data of a search that has evaluated the points in `past`. -/
structure SearchesProbes (data : XminOptData K) (ptr : ℕ → ℕ) (score : ℕ → K)
    (P : XminOptData K → Prop) (past : List K) (st : GssState (XminOptData K) K) : Prop where
  good : P st.data
  evaluated : st.data.evaluated = data.evaluated ++ past.map (fun y => ptr ⌊y⌋₊)
  best : BestOf (floorScore score) past st

/-- A search has ended at its best probe, which it has looked at last. -/
structure EndsAtBest (data : XminOptData K) (ptr : ℕ → ℕ) (record : ℕ → PlfitResult K)
    (score : ℕ → K) (P : XminOptData K → Prop) (n : ℕ) (past : List K)
    (out : GssOutcome (XminOptData K) K) (x : K) : Prop where
  min_eq : out.min = some x
  last_point : ∃ y, past.getLast? = some y ∧ ⌊y⌋₊ = ⌊x⌋₊
  last_record : out.data.last = record ⌊x⌋₊
  good : P out.data
  evaluated : out.data.evaluated = data.evaluated ++ past.map (fun y => ptr ⌊y⌋₊)
  least : ∀ y ∈ past, score ⌊x⌋₊ ≤ score ⌊y⌋₊
  pos : 0 < ⌊x⌋₊
  lt : ⌊x⌋₊ < n

variable [IsStrictOrderedRing K] {evaluate : XminEvaluate K} {data : XminOptData K}
variable {ptr : ℕ → ℕ} {record : ℕ → PlfitResult K} {score : ℕ → K} {P : XminOptData K → Prop}
variable {n : ℕ} {past : List K} {st st' : GssState (XminOptData K) K} {x fx : _} {stopped : Bool}

theorem evaluateAt_probe (hscores : Scores evaluate data ptr record (n + 1) P)
    (hD : ∀ i ≤ n, (record i).D = .fin (score i)) (hn : n < 2 ^ 31) (hx : x ∈ Set.Icc 0 (n : K))
    {d : XminOptData K} (hd : P d) :
    ∃ d', evaluateAt evaluate d x = .ok (d', .fin (floorScore score x)) ∧ P d' ∧
      d'.last = record ⌊x⌋₊ ∧ d'.evaluated = d.evaluated ++ [ptr ⌊x⌋₊] := by
  obtain ⟨-, hconvert, hle⟩ := toSigned_of_le hn hx
  obtain ⟨d', hrun, hgood, hlast, hseen⟩ := hscores.step d hd ⌊x⌋₊ (by omega)
  refine ⟨d', ?_, hgood, hlast, hseen⟩
  have hscore : .fin (floorScore score x) = d'.last.D := by rw [hlast, hD _ hle, floorScore]
  simp only [evaluateAt, hconvert, convert, bind, Except.bind, Int.toNat_natCast, hrun, hscore]
  rfl

theorem SearchesProbes.step (hst : SearchesProbes data ptr score P past st)
    (hscores : Scores evaluate data ptr record (n + 1) P)
    (hD : ∀ i ≤ n, (record i).D = .fin (score i)) (hn : n < 2 ^ 31) (hx : x ∈ Set.Icc 0 (n : K))
    (h : Evaluates (evaluateAt evaluate) (some iContinuousXminOptProgress) st x st' fx stopped) :
    fx = .fin (floorScore score x) ∧ SearchesProbes data ptr score P (past ++ [x]) st' ∧
      (∃ d, st' = st.observe d x (.fin (floorScore score x))) ∧
      (st'.min = st.min ∨ st'.min = x) ∧ st'.data.last = record ⌊x⌋₊ := by
  obtain ⟨d, hvalue, rfl⟩ := h.value
  obtain ⟨d', hrun, hgood, hlast, hseen⟩ := evaluateAt_probe hscores hD hn hx hst.good
  rw [hrun] at hvalue
  cases hvalue
  obtain ⟨hbest, hmin⟩ := hst.best.observe d x
  refine ⟨rfl, ⟨hgood, ?_, hbest⟩, ⟨d, rfl⟩, hmin, hlast⟩
  show d.evaluated = _
  rw [hseen, hst.evaluated, List.map_append, ← List.append_assoc]
  rfl

/-- The callback has seen one probe at both ends of the bracket. -/
theorem Evaluates.same_floor (hn : n < 2 ^ 31)
    (h : Evaluates (evaluateAt evaluate) (some iContinuousXminOptProgress) st x st' fx true)
    (ha : st.a ∈ Set.Icc 0 (n : K)) (hb : st.b ∈ Set.Icc 0 (n : K)) :
    ⌊min st.a st.b⌋₊ = ⌊max st.a st.b⌋₊ := by
  obtain ⟨report, hreport, hrun⟩ := h.report rfl
  cases hreport
  have hleft : min st.a st.b ∈ Set.Icc 0 (n : K) :=
    ⟨le_min ha.1 hb.1, (min_le_left _ _).trans ha.2⟩
  have hright : max st.a st.b ∈ Set.Icc 0 (n : K) :=
    ⟨ha.1.trans (le_max_left _ _), max_le ha.2 hb.2⟩
  simp only [iContinuousXminOptProgress, (toSigned_of_le hn hleft).1, (toSigned_of_le hn hright).1,
    convert, bind, Except.bind, Int.natCast_inj] at hrun
  exact of_decide_eq_true (Except.ok.inj hrun)

structure SearchesBest (data : XminOptData K) (ptr : ℕ → ℕ) (score : ℕ → K)
    (P : XminOptData K → Prop) (n : ℕ) (past : List K) (st : GssState (XminOptData K) K) :
    Prop where
  probes : SearchesProbes data ptr score P past st
  bracket : BracketIn 0 (n : K) st
  holds : HoldsInterior (floorScore score) 0 (n : K) st

omit [FloorRing K] [IsStrictOrderedRing K] in
/-- A round keeps the best point inside the bracket. -/
theorem HoldsInterior.next {σ : Type} {g : K → K} {lo hi : K} {st next : GssState σ K} {d : σ}
    (h : HoldsInterior g lo hi st)
    (hnext : NextBracket ({ st with k := st.k + 1 }.observe d (nextPoint st.b st.c)
      (.fin (g (nextPoint st.b st.c)))) (nextPoint st.b st.c) (.fin (g (nextPoint st.b st.c)))
      next) : HoldsInterior g lo hi next := by
  have hheld : HoldsInterior g lo hi { st with k := st.k + 1 } :=
    ⟨h.min_eq, h.fmin_eq, h.fc_eq, h.lt_lo, h.lt_hi⟩
  obtain ⟨hmin, hfmin⟩ := hheld.observe d (nextPoint st.b st.c)
  rw [← hnext.min] at hmin
  rw [← hnext.fmin] at hfmin
  rcases hnext.bracket with ⟨hkeep, -, -, hc, hfc⟩ | ⟨hmove, -, -, hc, hfc⟩
  · have hkeep : g st.c ≤ g (nextPoint st.b st.c) := by
      rwa [GssState.observe, h.fc_eq, Double.fin_le_fin] at hkeep
    rw [if_neg hkeep.not_gt] at hmin hfmin
    refine ⟨hmin.trans hc.symm, ?_, ?_, ?_, ?_⟩
    · rw [hfmin, hc]
      rfl
    · rw [hfc, hc]
      exact h.fc_eq
    · rw [hc]
      exact h.lt_lo
    · rw [hc]
      exact h.lt_hi
  · have hmove : g (nextPoint st.b st.c) < g st.c := by
      rwa [GssState.observe, h.fc_eq, Double.fin_le_fin, not_le] at hmove
    rw [if_pos hmove] at hmin hfmin
    refine ⟨hmin.trans hc.symm, ?_, ?_, ?_, ?_⟩
    · rw [hfmin, hc]
    · rw [hfc, hc]
    · rw [hc]
      exact hmove.trans h.lt_lo
    · rw [hc]
      exact hmove.trans h.lt_hi

/-- One more evaluation between ends that stand for one probe. -/
theorem SearchesProbes.endsAtBest (hst : SearchesProbes data ptr score P past st)
    (hscores : Scores evaluate data ptr record (n + 1) P)
    (hD : ∀ i ≤ n, (record i).D = .fin (score i)) (hn : n < 2 ^ 31) {left right : K}
    (hright : right ≤ n) (hmin : st.min ∈ Set.Icc left right) (hx : x ∈ Set.Icc left right)
    (hx' : x ∈ Set.Icc 0 (n : K)) (hfloor : ⌊left⌋₊ = ⌊right⌋₊)
    (hlo : floorScore score st.min < score 0) (hhi : floorScore score st.min < score n)
    (h : Evaluates (evaluateAt evaluate) (some iContinuousXminOptProgress) st x st' fx stopped) :
    EndsAtBest data ptr record score P n (past ++ [x]) st'.terminate st'.min := by
  obtain ⟨-, hprobes, -, hmin', hlast⟩ := hst.step hscores hD hn hx' h
  have hsame : ∀ y ∈ Set.Icc left right, ⌊y⌋₊ = ⌊left⌋₊ := by
    intro y hy
    exact le_antisymm ((Nat.floor_mono hy.2).trans hfloor.ge) (Nat.floor_mono hy.1)
  have hmem : st'.min ∈ Set.Icc left right := by
    rcases hmin' with hmin' | hmin'
    · exact hmin' ▸ hmin
    · exact hmin' ▸ hx
  have hbest : ⌊st'.min⌋₊ = ⌊st.min⌋₊ := (hsame _ hmem).trans (hsame _ hmin).symm
  rw [floorScore, ← hbest] at hlo hhi
  have hlt : ⌊st'.min⌋₊ < n := by
    refine lt_of_le_of_ne (Nat.floor_le_of_le (hmem.2.trans hright)) ?_
    intro heq
    rw [heq] at hhi
    exact hhi.false
  have hpos : 0 < ⌊st'.min⌋₊ := by
    rw [Nat.pos_iff_ne_zero]
    intro heq
    rw [heq] at hlo
    exact hlo.false
  refine ⟨rfl, ⟨x, List.getLast?_concat, ?_⟩, ?_, hprobes.good, hprobes.evaluated,
    hprobes.best.least, hpos, hlt⟩
  · exact (hsame x hx).trans (hsame _ hmem).symm
  · rw [hsame _ hmem, ← hsame x hx]
    exact hlast

def CancelledAtBest (data : XminOptData K) (ptr : ℕ → ℕ) (record : ℕ → PlfitResult K)
    (score : ℕ → K) (P : XminOptData K → Prop) (n : ℕ) (past : List K)
    (out : GssOutcome (XminOptData K) K) (cancelled : Bool) : Prop :=
  cancelled = true → out.status = .success → ∃ x, EndsAtBest data ptr record score P n past out x

/-- The callback ends a search in its loop, or behind it, with `st₀` in front of the evaluation. -/
theorem SearchesBest.endsAtBest {st₀ : GssState (XminOptData K) K}
    (hI : SearchesBest data ptr score P n past st)
    (hscores : Scores evaluate data ptr record (n + 1) P)
    (hD : ∀ i ≤ n, (record i).D = .fin (score i)) (hn : n < 2 ^ 31)
    (hprobes : SearchesProbes data ptr score P past st₀) (ha : st₀.a = st.a) (hb : st₀.b = st.b)
    (hmin : st₀.min = st.min) (hx : x ∈ Set.Icc (min st.a st.b) (max st.a st.b))
    (h : Evaluates (evaluateAt evaluate) (some iContinuousXminOptProgress) st₀ x st' fx true) :
    EndsAtBest data ptr record score P n (past ++ [x]) st'.terminate st'.min := by
  have hin := hI.bracket
  have hleft : 0 ≤ min st.a st.b := le_min hin.a.1 hin.b.1
  have hright : max st.a st.b ≤ n := max_le hin.a.2 hin.b.2
  have hfloor := h.same_floor hn
  rw [ha, hb] at hfloor
  have hlo := hI.holds.lt_lo
  have hhi := hI.holds.lt_hi
  rw [← hI.holds.min_eq, ← hmin] at hlo hhi
  rw [floorScore, floorScore, Nat.floor_zero] at hlo
  rw [floorScore, floorScore, Nat.floor_natCast] at hhi
  refine hprobes.endsAtBest hscores hD hn hright ?_ hx ⟨hleft.trans hx.1, hx.2.trans hright⟩
    (hfloor hin.a hin.b) hlo hhi h
  rw [hmin, hI.holds.min_eq]
  exact hin.golden.mem_uIcc.1

theorem searchesBest_rule (hscores : Scores evaluate data ptr record (n + 1) P)
    (hD : ∀ i ≤ n, (record i).D = .fin (score i)) (hn : n < 2 ^ 31) {param : GssParameter K}
    (fa fb : Double K) :
    RunRule (evaluateAt evaluate) (some iContinuousXminOptProgress) param fa fb
      (SearchesBest data ptr score P n) (CancelledAtBest data ptr record score P n) where
  cancel := by
    intro past st st' fd hI _ heval _ _
    have hprobes : SearchesProbes data ptr score P past { st with k := st.k + 1 } :=
      ⟨hI.probes.good, hI.probes.evaluated, hI.probes.best.fmin_eq, hI.probes.best.least⟩
    exact ⟨_, hI.endsAtBest hscores hD hn hprobes rfl rfl rfl hI.bracket.golden.mem_uIcc.2 heval⟩
  reject := fun _ _ _ _ _ _ _ _ _ => nofun
  round := by
    intro past st st' fd next hI _ heval _ hnext
    have hin := hI.bracket
    have hprobes : SearchesProbes data ptr score P past { st with k := st.k + 1 } :=
      ⟨hI.probes.good, hI.probes.evaluated, hI.probes.best.fmin_eq, hI.probes.best.least⟩
    obtain ⟨rfl, hprobes', ⟨d, rfl⟩, -, -⟩ :=
      hprobes.step hscores hD hn (nextPoint_mem hin.b hin.c) heval
    refine ⟨⟨?_, ?_, ?_, ?_⟩, ?_, hI.holds.next hnext⟩
    · rw [hnext.data]
      exact hprobes'.good
    · rw [hnext.data]
      exact hprobes'.evaluated
    · rw [hnext.fmin, hnext.min]
      exact hprobes'.best.fmin_eq
    · rw [hnext.min]
      exact hprobes'.best.least
    · exact (hnext.bracketIn hin heval).1
  finish := by
    intro past st st' fx stopped hI _ heval hcancelled _
    subst hcancelled
    have hprobes : SearchesProbes data ptr score P past
        { st with c := (st.a + st.b) / 2, k := st.k + 1 } :=
      ⟨hI.probes.good, hI.probes.evaluated, hI.probes.best.fmin_eq, hI.probes.best.least⟩
    have hmid := midpoint_mem (⟨min_le_left st.a st.b, le_max_left st.a st.b⟩ :
      st.a ∈ Set.Icc (min st.a st.b) (max st.a st.b)) ⟨min_le_right st.a st.b, le_max_right st.a st.b⟩
    exact ⟨_, hI.endsAtBest hscores hD hn hprobes rfl rfl rfl hmid heval⟩

/-- A search that the callback has ended with success ends at a probe between the outermost ones that
has the least score of all probes it has looked at, and it has looked at this probe last. -/
theorem gssRun_cancelled (hscores : Scores evaluate data ptr record (n + 1) P)
    (hD : ∀ i ≤ n, (record i).D = .fin (score i)) (hpos : 0 < n) (hn : n < 2 ^ 31)
    {param : GssParameter K} (hparam : param.onError = .stop) {run : GssRun (XminOptData K) K}
    (hrun : gssRun (evaluateAt evaluate) (some iContinuousXminOptProgress) param 0 (n : K) data =
      .ok run) (hcancelled : run.cancelled = true) (hsuccess : run.outcome.status = .success) :
    ∃ x, EndsAtBest data ptr record score P n run.points run.outcome x := by
  have hle : (0 : K) ≤ n := Nat.cast_nonneg n
  have hlo : (0 : K) ∈ Set.Icc 0 (n : K) := Set.left_mem_Icc.mpr hle
  have hhi : (n : K) ∈ Set.Icc 0 (n : K) := Set.right_mem_Icc.mpr hle
  have hc : 0 + resphi * ((n : K) - 0) ∈ Set.Icc 0 (n : K) := nextPoint_mem hhi hlo
  refine (gssRun_rule
    (P := fun past st => SearchesProbes data ptr score P past st ∧
      (st.min = 0 ∨ st.min = (n : K) ∨ st.min = 0 + resphi * ((n : K) - 0)))
    (V := fun x fx => fx = .fin (floorScore score x)) (I := SearchesBest data ptr score P n)
    (Q := CancelledAtBest data ptr record score P n) (min_eq_left hle) (max_eq_right hle)
    ?_ ?_ ?_ ?_ ?_ hrun).1 hcancelled hsuccess
  · intro d fx hvalue
    obtain ⟨d', hrun', hgood, -, hseen⟩ := evaluateAt_probe hscores hD hn hlo hscores.start
    rw [hrun'] at hvalue
    cases hvalue
    refine ⟨⟨hgood, hseen, rfl, ?_⟩, Or.inl rfl⟩
    intro y hy
    exact List.mem_singleton.mp hy ▸ le_rfl
  · intro past st x st' fx stopped _ hst hx heval
    have hx' : x ∈ Set.Icc 0 (n : K) := by
      rcases hx with rfl | rfl | rfl
      · exact hlo
      · exact hhi
      · exact hc
    obtain ⟨hfx, hprobes, -, hmin, -⟩ := hst.1.step hscores hD hn hx' heval
    refine ⟨⟨hprobes, ?_⟩, hfx⟩
    rcases hmin with hmin | hmin
    · rw [hmin]
      exact hst.2
    · rw [hmin]
      exact hx
  · intro past st x st' fx hst _ heval _
    have hfloor := heval.same_floor hn
    rw [hst.a, hst.b, min_eq_left hle, max_eq_right hle, Nat.floor_zero, Nat.floor_natCast] at hfloor
    exact absurd (hfloor hlo hhi) hpos.ne
  · exact fun _ _ _ _ => nofun
  · intro past st fa fb fc warning hst hprobes hevaluated hfa hfb hfc hbetter
    refine ⟨searchesBest_rule hscores hD hn fa fb, ⟨hprobes.1.good, hprobes.1.evaluated,
      hprobes.1.best.fmin_eq, hprobes.1.best.least⟩, hst.bracketIn hle warning fc, ?_⟩
    subst hfa hfb hfc
    have hworse := hbetter hparam
    rw [Double.fin_le_fin, Double.fin_le_fin, not_or, not_le, not_le] at hworse
    have hleast := hprobes.1.best.least _ (hevaluated _ (Or.inr (Or.inr rfl)))
    have hmin : st.min = st.c := by
      rw [hst.c]
      rcases hprobes.2 with hmin | hmin | hmin
      · exact absurd hworse.1 (hmin ▸ hleast).not_gt
      · exact absurd hworse.2 (hmin ▸ hleast).not_gt
      · exact hmin
    refine ⟨hmin, ?_, ?_, ?_, ?_⟩
    · show st.fmin = .fin (floorScore score st.c)
      rw [hprobes.1.best.fmin_eq, hmin]
    · show _ = Double.fin (floorScore score st.c)
      rw [hst.c]
    · show floorScore score st.c < _
      rw [hst.c]
      exact hworse.1
    · show floorScore score st.c < _
      rw [hst.c]
      exact hworse.2

/-- A search of `plfit_continuous` that the callback has ended with success takes the record of its
last evaluation for the best one. This is the record of the probe at the location that it returns,
which has the least score of all probes it has looked at and is not one of the two outermost ones. -/
theorem gssSearch_takes_best {alpha : ℕ → Double K} {score : ℕ → K} (hp : ProbesAt data ptr)
    (hmany : 5 < data.numProbes) (hint : data.numProbes < 2 ^ 31)
    (hfollow : FollowsTables evaluate alpha (fun p => .fin (score p)) data.xs
      (fun p => ∃ j ≤ data.numProbes - 5, p = ptr j)) {run : GssRun (XminOptData K) K}
    (hrun : gssRun (evaluateAt evaluate) (some iContinuousXminOptProgress) gssDefaultParameter 0
      (sizeSub data.numProbes 5 : K) data = .ok run)
    (hcancelled : run.cancelled = true) (hsuccess : run.outcome.status = .success)
    (best : BestFit K) :
    ∃ x y, run.outcome.min = some x ∧ run.points.getLast? = some y ∧ ⌊y⌋₊ = ⌊x⌋₊ ∧
      0 < ⌊x⌋₊ ∧ ⌊x⌋₊ < data.numProbes - 5 ∧
      run.outcome.data.evaluated = data.evaluated ++ run.points.map (fun z => ptr ⌊z⌋₊) ∧
      run.outcome.data.last = tableRecord alpha (fun p => .fin (score p)) data ptr ⌊x⌋₊ ∧
      (∀ z ∈ run.points, score (ptr ⌊x⌋₊) ≤ score (ptr ⌊z⌋₊)) ∧
      gssSearch evaluate data best = .ok
        { success := true
          best := { result := run.outcome.data.last, n := data.xs.length - ptr ⌊x⌋₊ + 1 }
          evaluated := run.outcome.data.evaluated
          last := run.outcome.data.last } := by
  have hn : data.numProbes - 5 + 1 ≤ data.numProbes := by omega
  have hscores := hfollow.scores hp hn (fun i hi => ⟨i, Nat.lt_succ_iff.mp hi, rfl⟩)
  have hsize : sizeSub data.numProbes 5 = data.numProbes - 5 := sizeSub_of_le hmany.le
  have hgss := hrun
  rw [hsize] at hrun
  have hvalues : ∀ i ≤ data.numProbes - 5,
      (tableRecord alpha (fun p => .fin (score p)) data ptr i).D = .fin (score (ptr i)) :=
    fun _ _ => rfl
  obtain ⟨x, hend⟩ := gssRun_cancelled hscores hvalues (by omega) (by omega) rfl hrun hcancelled
    hsuccess
  obtain ⟨y, hlast, hfloor⟩ := hend.last_point
  refine ⟨x, y, hend.min_eq, hlast, hfloor, hend.pos, hend.lt, hend.evaluated, hend.last_record,
    hend.least, ?_⟩
  have hptr : derefPointer run.outcome.data.probes ⌊x⌋₊ = .ok (ptr ⌊x⌋₊) := by
    rw [hend.good.2.1]
    exact hp.derefPointer (hend.lt.trans_le (Nat.sub_le _ _))
  have hx : x ∈ Set.Icc 0 ((data.numProbes - 5 : ℕ) : K) :=
    ⟨(Nat.floor_pos.mp hend.pos).trans' zero_le_one, (Nat.floor_lt' (by omega)).mp hend.lt |>.le⟩
  obtain ⟨hconvert, -, -⟩ := toSigned_of_le (by omega) hx
  rw [gssSearch_eq, gss_eq_map, hgss]
  simp only [Except.map, bind, Except.bind, takeMinimum, hsuccess, hend.min_eq, hconvert, convert,
    Int.toNat_natCast, hptr]
  rfl

end Probes

section Nine

def nineProbes : XminOptData ℚ where
  xs := (List.range 9).map (fun i => .fin (i + 1 : ℚ))
  probes := (List.range 9).map some ++ [none]
  numProbes := 9
  last := { alpha := .nan, xmin := .nan, L := .nan, D := .nan, p := .nan }
  evaluated := []

/-- The third sample has the least score. -/
def nineScores (p : ℕ) : ℚ := [3, 2, 1, 2].getD p 3

theorem nineProbes_probesAt : ProbesAt nineProbes id where
  pos := by decide
  get := by decide
  lt_length := by decide
  mono := fun _ _ hij _ => hij

theorem nineProbes_cancelled :
    (gssRun (evaluateAt (tableEvaluate (fun _ => 2) (fun p => .fin (nineScores p))))
        (some iContinuousXminOptProgress) gssDefaultParameter 0
        (sizeSub nineProbes.numProbes 5 : ℚ) nineProbes).map
      (fun run => (run.cancelled, run.outcome.status)) = .ok (true, .success) := by
  decide +kernel

theorem gssSearch_takes_best_of_nine :
    ∃ run x y, gssRun (evaluateAt (tableEvaluate (fun _ => 2) (fun p => .fin (nineScores p))))
        (some iContinuousXminOptProgress) gssDefaultParameter 0
        (sizeSub nineProbes.numProbes 5 : ℚ) nineProbes = .ok run ∧
      run.outcome.min = some x ∧ run.points.getLast? = some y ∧ ⌊y⌋₊ = ⌊x⌋₊ ∧
      ∀ z ∈ run.points, nineScores ⌊x⌋₊ ≤ nineScores ⌊z⌋₊ := by
  have hended := nineProbes_cancelled
  cases hrun : gssRun (evaluateAt (tableEvaluate (fun _ => 2) (fun p => .fin (nineScores p))))
      (some iContinuousXminOptProgress) gssDefaultParameter 0
      (sizeSub nineProbes.numProbes 5 : ℚ) nineProbes with
  | error stop =>
    rw [hrun] at hended
    cases hended
  | ok run =>
    rw [hrun] at hended
    obtain ⟨hcancelled, hsuccess⟩ := Prod.mk.inj (Except.ok.inj hended)
    obtain ⟨x, y, hx, hy, hfloor, -, -, -, -, hleast, -⟩ :=
      gssSearch_takes_best nineProbes_probesAt (by decide) (by decide)
        (followsTables_table (fun _ => 2) (fun p => .fin (nineScores p)) _ _) hrun hcancelled
        hsuccess { result := nineProbes.last, n := 9 }
    exact ⟨run, x, y, rfl, hx, hy, hfloor, hleast⟩

end Nine
end Plfit
