import Mathlib
import Plfit.Library.UShapedFunction
import Plfit.Search.GoldenTermination

/-! # What the golden section search finds

The search for the least value of a U-shaped function keeps that value and its own best point
inside the bracket, whichever way the bracket is oriented.
-/
namespace Plfit
open ExactArithmetic UShapedFunction

section Geometry
variable {K : Type} [Field K] [LinearOrder K] [IsStrictOrderedRing K] {a b c : K}

theorem AtGoldenPoint.between (h : AtGoldenPoint a b c) (hne : a ≠ b) :
    Between a c (nextPoint b c) ∧ Between c (nextPoint b c) b := by
  rcases h.order hne with ⟨hac, hcd, hdb⟩ | ⟨hbd, hdc, hca⟩
  · exact ⟨Or.inl ⟨hac, hcd⟩, Or.inl ⟨hcd, hdb⟩⟩
  · exact ⟨Or.inr ⟨hdc, hca⟩, Or.inr ⟨hbd, hdc⟩⟩

end Geometry

theorem uShaped_square {lo hi : ℝ} (hlo : lo ≤ 0) (hhi : 0 ≤ hi) :
    UShaped (fun y : ℝ => y ^ 2) lo hi 0 where
  mem := ⟨hlo, hhi⟩
  anti := by
    intro y _ z hz hyz
    have hsum : z + y < 0 := by linarith [hz.2]
    exact sub_neg.mp (sq_sub_sq z y ▸ mul_neg_of_neg_of_pos hsum (sub_pos.mpr hyz))
  mono := fun y hy z _ hyz => pow_lt_pow_left₀ hyz hy.1 two_ne_zero

section Minimum
variable {σ K : Type} [Field K] [LinearOrder K] [IsStrictOrderedRing K]

def objective (update : σ → K → σ) (f : K → K) : σ → K → σ × Double K :=
  fun data x => (update data x, .fin (f x))

/-- The best point so far is no worse than any point in `past`. -/
structure BestOf (f : K → K) (past : List K) (st : GssState σ K) : Prop where
  fmin_eq : st.fmin = .fin (f st.min)
  least : ∀ y ∈ past, f st.min ≤ f y

variable {update : σ → K → σ} {f : K → K} {progress : Option (GssProgress σ K)}
variable {param : GssParameter K} {lo hi x : K}

omit [Field K] [IsStrictOrderedRing K] in
/-- An evaluation of `y` moves the best point to `y` or leaves it where it is. -/
theorem Evaluates.of_objective {st st' : GssState σ K} {y : K} {fy : Double K} {stopped : Bool}
    (h : Evaluates (returning (objective update f)) progress st y st' fy stopped) :
    fy = .fin (f y) ∧ st' = st.observe (update st.data y) y (.fin (f y)) := by
  obtain ⟨data, hrun, hst'⟩ := h.value
  cases hrun
  exact ⟨rfl, hst'⟩

omit [Field K] [IsStrictOrderedRing K] in
theorem BestOf.observe {past : List K} {st : GssState σ K} (h : BestOf f past st) (data : σ)
    (y : K) :
    BestOf f (past ++ [y]) (st.observe data y (.fin (f y))) ∧
      ((st.observe data y (.fin (f y))).min = st.min ∨
        (st.observe data y (.fin (f y))).min = y) := by
  unfold GssState.observe
  by_cases hless : f y < f st.min
  · have hbetter : (.fin (f y) : Double K) < st.fmin := by
      rw [h.fmin_eq]
      exact Double.fin_lt_fin.mpr hless
    simp only [if_pos hbetter]
    refine ⟨⟨rfl, ?_⟩, Or.inr trivial⟩
    intro z hz
    rcases List.mem_append.mp hz with hz | hz
    · exact hless.le.trans (h.least z hz)
    · exact List.mem_singleton.mp hz ▸ le_rfl
  · have hbetter : ¬ (.fin (f y) : Double K) < st.fmin := by
      rw [h.fmin_eq]
      exact fun hlt => hless (Double.fin_lt_fin.mp hlt)
    simp only [if_neg hbetter]
    refine ⟨⟨h.fmin_eq, ?_⟩, Or.inl trivial⟩
    intro z hz
    rcases List.mem_append.mp hz with hz | hz
    · exact h.least z hz
    · exact List.mem_singleton.mp hz ▸ not_lt.mp hless

/-- The bracket has the least value of `f` and the best point so far. -/
structure Encloses (f : K → K) (lo hi x : K) (past : List K) (st : GssState σ K) : Prop where
  bracket : BracketIn lo hi st
  x_mem : x ∈ Set.uIcc st.a st.b
  min_mem : st.min ∈ Set.uIcc st.a st.b
  c_mem : st.c ∈ past
  fc_eq : st.fc = .fin (f st.c)
  best : BestOf f past st

/-- A point that is no worse than the two inner points stays in the bracket. -/
theorem NextBracket.mem_uIcc (hf : UShaped f lo hi x) {st next : GssState σ K} {data : σ}
    (hst : BracketIn lo hi st) (hne : st.a ≠ st.b) (hfc : st.fc = .fin (f st.c))
    (h : NextBracket ({ st with k := st.k + 1 }.observe data (nextPoint st.b st.c)
      (.fin (f (nextPoint st.b st.c)))) (nextPoint st.b st.c) (.fin (f (nextPoint st.b st.c))) next)
    {y : K} (hy : y ∈ Set.uIcc st.a st.b) (hyc : f y ≤ f st.c)
    (hyd : f y ≤ f (nextPoint st.b st.c)) : y ∈ Set.uIcc next.a next.b := by
  obtain ⟨hleft, hright⟩ := hst.golden.between hne
  rcases h.bracket with ⟨hle, ha, hb, -⟩ | ⟨hlt, ha, hb, -⟩
  · have hle : f st.c ≤ f (nextPoint st.b st.c) := by
      rwa [GssState.observe, hfc, Double.fin_le_fin] at hle
    rw [ha, hb]
    exact hf.mem_uIcc_of_le hst.a hst.b hleft hright hy hle hyd
  · have hlt : f (nextPoint st.b st.c) < f st.c := by
      rwa [GssState.observe, hfc, Double.fin_le_fin, not_le] at hlt
    rw [ha, hb]
    rw [Set.uIcc_comm] at hy
    exact hf.mem_uIcc_of_le hst.b hst.a hright.symm hleft.symm hy hlt.le hyc

/-- A run that nobody has cancelled returns a point near the least value. -/
def FoundMinimum (f : K → K) (x epsilon : K) (past : List K) (out : GssOutcome σ K)
    (cancelled : Bool) : Prop :=
  cancelled = false → out.status = .success →
    ∃ m, out.min = some m ∧ |m - x| ≤ epsilon ∧ out.fmin = some (.fin (f m)) ∧
      ∀ y ∈ past, f m ≤ f y

theorem Encloses.round (hf : UShaped f lo hi x) (heps : 0 ≤ param.epsilon) {past : List K}
    {st next : GssState σ K} {data : σ} (hI : Encloses f lo hi x past st)
    (hlong : param.epsilon < |st.a - st.b|)
    (h : NextBracket ({ st with k := st.k + 1 }.observe data (nextPoint st.b st.c)
      (.fin (f (nextPoint st.b st.c)))) (nextPoint st.b st.c) (.fin (f (nextPoint st.b st.c)))
      next) : Encloses f lo hi x (past ++ [nextPoint st.b st.c]) next := by
  have hne : st.a ≠ st.b := sub_ne_zero.mp (abs_pos.mp (heps.trans_lt hlong))
  have hd := nextPoint_mem hI.bracket.b hI.bracket.c
  have hbest : BestOf f past { st with k := st.k + 1 } := ⟨hI.best.fmin_eq, hI.best.least⟩
  obtain ⟨⟨hfmin, hleast⟩, hmin⟩ := hbest.observe data (nextPoint st.b st.c)
  -- the best point has not left the old bracket
  have hmin_mem : ({ st with k := st.k + 1 }.observe data (nextPoint st.b st.c)
      (.fin (f (nextPoint st.b st.c)))).min ∈ Set.uIcc st.a st.b := by
    rcases hmin with hmin | hmin
    · rw [hmin]
      exact hI.min_mem
    · rw [hmin]
      exact hI.bracket.golden.mem_uIcc.2
  have hc_mem : st.c ∈ past ++ [nextPoint st.b st.c] := List.mem_append_left _ hI.c_mem
  have hd_mem : nextPoint st.b st.c ∈ past ++ [nextPoint st.b st.c] :=
    List.mem_append_right _ (List.mem_singleton_self _)
  refine ⟨?_, ?_, ?_, ?_, ?_, ?_, ?_⟩
  · rcases h.bracket with ⟨-, ha, hb, hc, -⟩ | ⟨-, ha, hb, hc, -⟩
    · exact (hI.bracket.keep next ha hb hc).1
    · exact (hI.bracket.move next ha hb hc).1
  · exact h.mem_uIcc hf hI.bracket hne hI.fc_eq hI.x_mem (hf.le_of_mem hI.bracket.c)
      (hf.le_of_mem hd)
  · rw [h.min]
    exact h.mem_uIcc hf hI.bracket hne hI.fc_eq hmin_mem (hleast _ hc_mem) (hleast _ hd_mem)
  · rcases h.bracket with ⟨-, -, -, hc, -⟩ | ⟨-, -, -, hc, -⟩
    · rw [hc]
      exact hc_mem
    · rw [hc]
      exact hd_mem
  · rcases h.bracket with ⟨-, -, -, hc, hfc⟩ | ⟨-, -, -, hc, hfc⟩
    · rw [hc, hfc]
      exact hI.fc_eq
    · rw [hc, hfc]
  · rw [h.fmin, h.min]
    exact hfmin
  · rw [h.min]
    exact hleast

/-- The best point of a bracket with the least value is within its length of it. -/
theorem Encloses.finish {past : List K} {st : GssState σ K} (hI : Encloses f lo hi x past st)
    (hshort : |st.a - st.b| ≤ param.epsilon) (data : σ) (cancelled : Bool) :
    FoundMinimum f x param.epsilon (past ++ [(st.a + st.b) / 2])
      ({ st with c := (st.a + st.b) / 2, k := st.k + 1 }.observe data ((st.a + st.b) / 2)
        (.fin (f ((st.a + st.b) / 2)))).terminate cancelled := by
  intro _ _
  have hbest : BestOf f past { st with c := (st.a + st.b) / 2, k := st.k + 1 } :=
    ⟨hI.best.fmin_eq, hI.best.least⟩
  obtain ⟨⟨hfmin, hleast⟩, hmin⟩ := hbest.observe data ((st.a + st.b) / 2)
  refine ⟨_, rfl, ?_, congrArg some hfmin, hleast⟩
  have hmid : (st.a + st.b) / 2 ∈ Set.uIcc st.a st.b :=
    midpoint_mem Set.left_mem_uIcc Set.right_mem_uIcc
  have hmem : ∀ m ∈ Set.uIcc st.a st.b, |m - x| ≤ param.epsilon := by
    intro m hm
    exact (Set.abs_sub_le_of_uIcc_subset_uIcc (Set.uIcc_subset_uIcc hI.x_mem hm)).trans
      (abs_sub_comm st.a st.b ▸ hshort)
  rcases hmin with hmin | hmin
  · rw [hmin]
    exact hmem _ hI.min_mem
  · rw [hmin]
    exact hmem _ hmid

theorem encloses_rule (hf : UShaped f lo hi x) (heps : 0 ≤ param.epsilon) (fa fb : Double K) :
    RunRule (returning (objective update f)) progress param fa fb (Encloses f lo hi x)
      (FoundMinimum f x param.epsilon) where
  cancel := fun _ _ _ _ _ _ _ => nofun
  reject := fun _ _ _ _ _ _ _ _ _ _ => nofun
  round := by
    intro past st st' fd next hI hlong heval _ hnext
    obtain ⟨rfl, rfl⟩ := heval.of_objective
    exact hI.round hf heps hlong hnext
  finish := by
    intro past st st' fx stopped hI hshort heval
    obtain ⟨rfl, rfl⟩ := heval.of_objective
    exact hI.finish hshort _ stopped

/-- A search that is not cancelled and succeeds returns a point within the tolerance of the place
of the least value, with the least value of all points it has evaluated. -/
theorem gss_finds_minimum [FloorRing K] (update : σ → K → σ)
    (p : Option (σ → K → Double K → K → Double K → K → K → ℕ → Bool)) {a b : K}
    (hf : UShaped f a b x) (heps : 0 < param.epsilon) (data : σ) :
    ∃ run, gssRun (returning (objective update f)) (p.map answering) param a b data = .ok run ∧
      gss (returning (objective update f)) (p.map answering) param a b data = .ok run.outcome ∧
      (run.cancelled = false → run.outcome.status = .success →
        ∃ m, run.outcome.min = some m ∧ |m - x| ≤ param.epsilon ∧
          run.outcome.fmin = some (.fin (f m)) ∧ ∀ y ∈ run.points, f m ≤ f y) := by
  have hab : a ≤ b := hf.mem.1.trans hf.mem.2
  have ha : a ∈ Set.Icc a b := Set.left_mem_Icc.mpr hab
  have hb : b ∈ Set.Icc a b := Set.right_mem_Icc.mpr hab
  have hc : a + resphi * (b - a) ∈ Set.Icc a b := nextPoint_mem hb ha
  obtain ⟨run, hrun⟩ := gssRun_returning (objective update f) p heps a b data
  refine ⟨run, hrun, ?_, ?_⟩
  · rw [gss_eq_map, hrun]
    rfl
  · refine (gssRun_rule (P := fun past st => BestOf f past st ∧ st.min ∈ Set.Icc a b)
      (V := fun y fy => fy = .fin (f y)) (I := Encloses f a b x)
      (Q := FoundMinimum f x param.epsilon) (min_eq_left hab) (max_eq_right hab) ?_ ?_ ?_ ?_ ?_
      hrun).1
    · intro d fy hvalue
      cases hvalue
      refine ⟨⟨rfl, ?_⟩, ha⟩
      intro y hy
      exact List.mem_singleton.mp hy ▸ le_rfl
    · intro past st y st' fy stopped _ hpast hy heval
      obtain ⟨rfl, rfl⟩ := heval.of_objective
      obtain ⟨hbest, hmin⟩ := hpast.1.observe (update st.data y) y
      refine ⟨⟨hbest, ?_⟩, rfl⟩
      rcases hmin with hmin | hmin
      · rw [hmin]
        exact hpast.2
      · rw [hmin]
        rcases hy with rfl | rfl | rfl
        · exact ha
        · exact hb
        · exact hc
    · exact fun _ _ _ _ _ _ _ _ _ => nofun
    · exact fun _ _ _ _ _ => nofun
    · intro past st fa fb fc warning hst hpast hevaluated _ _ hfc _
      refine ⟨encloses_rule hf heps.le fa fb, hst.bracketIn hab warning fc, ?_, ?_, ?_, ?_, hpast.1.fmin_eq,
        hpast.1.least⟩
      · rw [hst.a, hst.b, Set.uIcc_of_le hab]
        exact hf.mem
      · rw [hst.a, hst.b, Set.uIcc_of_le hab]
        exact hpast.2
      · rw [hst.c]
        exact hevaluated _ (Or.inr (Or.inr rfl))
      · rw [hst.c]
        exact hfc

theorem gss_finds_minimum_square :
    ∃ run m, gssRun (returning (objective (fun (data : Unit) (_ : ℝ) => data) (fun y => y ^ 2))) none
        { epsilon := 1 / 100, onError := .warn } (-1) 1 () = .ok run ∧
      run.outcome.min = some m ∧ |m - 0| ≤ (1 / 100 : ℝ) ∧ ∀ y ∈ run.points, m ^ 2 ≤ y ^ 2 := by
  have heps : 0 < ({ epsilon := 1 / 100, onError := .warn } : GssParameter ℝ).epsilon := by norm_num
  have hsquare := uShaped_square (by norm_num : (-1 : ℝ) ≤ 0) zero_le_one
  obtain ⟨run, hrun, -, hfound⟩ :=
    gss_finds_minimum (fun (data : Unit) (_ : ℝ) => data) none hsquare heps ()
  obtain ⟨hgo, hwarn⟩ := gssRun_unobserved hrun
  obtain ⟨m, hm, hnear, -, hleast⟩ := hfound hgo (hwarn rfl)
  exact ⟨run, m, hrun, hm, hnear, hleast⟩

end Minimum
end Plfit
