import Mathlib
import Plfit.Search.GoldenMinimum

/-! # The shape test of the golden section search

Every interior point is compared with the values at the ends that the search was given. A U-shaped
function passes this test at the points between two points that have passed it, so what decides are
the points of a ladder from the first interior point towards one end.
-/
namespace Plfit
open ExactArithmetic UShapedFunction

/-! ## Ladders -/

section Ladders
variable {K : Type} [Field K] [LinearOrder K]

/-- The points that are reached from `p` by always moving on towards `b`. -/
def ladder (b p : K) (k : ℕ) : K := b - (1 - resphi) ^ k * (b - p)

omit [LinearOrder K] in
@[simp] theorem ladder_zero (b p : K) : ladder b p 0 = p := by
  rw [ladder, pow_zero, one_mul, sub_sub_cancel]

omit [LinearOrder K] in
theorem ladder_succ (b p : K) (k : ℕ) : ladder b p (k + 1) = ladder b (nextPoint b p) k := by
  rw [ladder, ladder, nextPoint]
  ring

variable [IsStrictOrderedRing K] {f : K → K} {lo hi x m epsilon a b c p : K}

theorem nextPoint_between (hne : p ≠ b) : Between p (nextPoint b p) b := by
  have hr : (0 : K) < resphi := resphi_pos
  have hr1 : (0 : K) < 1 - resphi := one_sub_resphi_pos
  have hleft := nextPoint_sub b p
  have hright := sub_nextPoint b p
  rcases lt_or_gt_of_ne hne with hlt | hgt
  · have hlen : 0 < b - p := sub_pos.mpr hlt
    exact Or.inl ⟨sub_pos.mp (hleft ▸ mul_pos hr hlen), sub_pos.mp (hright ▸ mul_pos hr1 hlen)⟩
  · have hlen : b - p < 0 := sub_neg.mpr hgt
    exact Or.inr ⟨sub_neg.mp (hright ▸ mul_neg_of_pos_of_neg hr1 hlen),
      sub_neg.mp (hleft ▸ mul_neg_of_pos_of_neg hr hlen)⟩

theorem abs_ladder_sub_le (b p : K) (k : ℕ) : |ladder b p k - b| ≤ |p - b| := by
  have hnonneg : (0 : K) ≤ 1 - resphi := one_sub_resphi_pos.le
  have hle : (1 - resphi : K) ^ k ≤ 1 := pow_le_one₀ hnonneg (sub_le_self 1 resphi_pos.le)
  have hsub : ladder b p k - b = (1 - resphi) ^ k * (p - b) := by
    rw [ladder]
    ring
  rw [hsub, abs_mul, abs_of_nonneg (pow_nonneg hnonneg k)]
  exact mul_le_of_le_one_left (abs_nonneg _) hle

/-- Where the ladder has risen once it goes on rising. -/
theorem ladder_falls_first (hf : UShaped f lo hi x) (hb : b ∈ Set.Icc lo hi)
    (hp : p ∈ Set.Icc lo hi) (hne : p ≠ b) {k : ℕ}
    (hfall : f (ladder b p (k + 1)) < f (ladder b p k)) : f (nextPoint b p) < f p := by
  induction k generalizing p with
  | zero => rwa [ladder_succ, ladder_zero, ladder_zero] at hfall
  | succ k ih =>
    rw [ladder_succ b p (k + 1), ladder_succ b p k] at hfall
    have hbetween := nextPoint_between hne
    have hd : nextPoint b p ∈ Set.Icc lo hi := hbetween.mem hp hb
    have hne' : nextPoint b p ≠ b := by
      rcases hbetween with ⟨-, hlt⟩ | ⟨hlt, -⟩
      · exact hlt.ne
      · exact hlt.ne'
    have hbetween' := nextPoint_between hne'
    have hrow : Between p (nextPoint b p) (nextPoint b (nextPoint b p)) := by
      rcases hbetween with ⟨hpd, hdb⟩ | ⟨hbd, hdp⟩
      · exact Or.inl ⟨hpd, (hbetween'.resolve_right fun h => (h.1.trans h.2).not_gt hdb).1⟩
      · exact Or.inr ⟨(hbetween'.resolve_left fun h => (h.1.trans h.2).not_gt hbd).2, hdp⟩
    have hnext := ih hd hne' hfall
    by_contra hle
    exact hf.not_between hp (hbetween'.mem hd hb) (not_lt.mp hle) hnext.le hrow

/-- The points of the ladder from `p` towards `b` that are looked at stay below `m`. A point is
looked at while the bracket is long and the ladder falls, and the first bracket is from `e` to `b`. -/
structure ClimbsBelow (f : K → K) (m epsilon e b p : K) : Prop where
  first : epsilon < |e - b| → f (nextPoint b p) < m
  later : ∀ k, epsilon < |ladder b p k - b| → f (ladder b p (k + 1)) < f (ladder b p k) →
    f (ladder b p (k + 2)) < m

omit [IsStrictOrderedRing K] in
theorem ClimbsBelow.move {e : K} (h : ClimbsBelow f m epsilon e b p)
    (hfall : f (nextPoint b p) < f p) : ClimbsBelow f m epsilon p b (nextPoint b p) where
  first := by
    intro hlong
    rw [← ladder_zero b p] at hlong
    have hlater := h.later 0 hlong
    rw [ladder_succ, ladder_succ, ladder_succ, ladder_zero, ladder_zero, ladder_zero] at hlater
    exact hlater hfall
  later := by
    intro k
    rw [← ladder_succ, ← ladder_succ, ← ladder_succ]
    exact h.later (k + 1)

omit [IsStrictOrderedRing K] in
theorem ClimbsBelow.of_move {e : K} (h : ClimbsBelow f m epsilon p b (nextPoint b p))
    (hd : f (nextPoint b p) < m) : ClimbsBelow f m epsilon e b p where
  first := fun _ => hd
  later := by
    intro k hlong hfall
    cases k with
    | zero =>
      rw [ladder_succ, ladder_succ, ladder_zero]
      rw [ladder_zero] at hlong
      exact h.first hlong
    | succ k =>
      rw [ladder_succ b p (k + 2)]
      rw [ladder_succ b p k] at hlong hfall
      rw [ladder_succ b p (k + 1)] at hfall
      exact h.later k hlong hfall

end Ladders

/-! ## The points of a bracket -/

section Brackets
variable {K : Type} [Field K] [LinearOrder K]

/-- In its first `n` rounds from the given bracket a search meets no value from `m` on. -/
def PassesTest (f : K → K) (m epsilon : K) : ℕ → K → K → K → Prop
  | 0, _, _, _ => True
  | n + 1, a, b, c =>
    epsilon < |a - b| → f (nextPoint b c) < m ∧
      if f c ≤ f (nextPoint b c) then PassesTest f m epsilon n (nextPoint b c) a c
      else PassesTest f m epsilon n c b (nextPoint b c)

theorem forall_passesTest (f : K → K) (m epsilon a b c : K) :
    (∀ n, PassesTest f m epsilon n a b c) ↔
      (epsilon < |a - b| → f (nextPoint b c) < m ∧
        ∀ n, if f c ≤ f (nextPoint b c) then PassesTest f m epsilon n (nextPoint b c) a c
          else PassesTest f m epsilon n c b (nextPoint b c)) := by
  constructor
  · exact fun h hlong => ⟨(h 1 hlong).1, fun n => (h (n + 1) hlong).2⟩
  · rintro h (_ | n)
    · trivial
    · exact fun hlong => ⟨(h hlong).1, (h hlong).2 n⟩

variable [IsStrictOrderedRing K] {f : K → K} {lo hi x m epsilon a b c e p : K}

/-- Between two points below `m` all points are. -/
theorem passesTest_inside (hf : UShaped f lo hi x) (heps : 0 ≤ epsilon) (n : ℕ)
    (ha : a ∈ Set.Icc lo hi) (hb : b ∈ Set.Icc lo hi) (hgolden : AtGoldenPoint a b c)
    (ham : f a < m) (hbm : f b < m) : PassesTest f m epsilon n a b c := by
  induction n generalizing a b c with
  | zero => trivial
  | succ n ih =>
    intro hlong
    have hne : a ≠ b := sub_ne_zero.mp (abs_pos.mp (heps.trans_lt hlong))
    obtain ⟨hleft, hright⟩ := hgolden.between hne
    have hinner : Between a c b := by
      rcases hgolden.order hne with ⟨hac, hcd, hdb⟩ | ⟨hbd, hdc, hca⟩
      · exact Or.inl ⟨hac, hcd.trans hdb⟩
      · exact Or.inr ⟨hbd.trans hdc, hca⟩
    have hc : c ∈ Set.Icc lo hi := hinner.mem ha hb
    have hcm : f c < m := (hf.lt_max ha hb hinner).trans (max_lt ham hbm)
    have hd : nextPoint b c ∈ Set.Icc lo hi := hright.mem hc hb
    have hdm : f (nextPoint b c) < m := (hf.lt_max hc hb hright).trans (max_lt hcm hbm)
    refine ⟨hdm, ?_⟩
    split
    · exact ih hd ha hgolden.keep hdm ham
    · exact ih hc hb AtGoldenPoint.move hcm hbm

/-- While the ladder falls the search moves along it. -/
theorem passesTest_of_falls (hf : UShaped f lo hi x) (heps : 0 ≤ epsilon) (hb : b ∈ Set.Icc lo hi)
    (hp : p ∈ Set.Icc lo hi) (hgolden : AtGoldenPoint e b p) {k : ℕ}
    (hlong : epsilon < |ladder b p k - b|) (hfall : f (ladder b p (k + 1)) < f (ladder b p k))
    (h : ∀ n, PassesTest f m epsilon n e b p) :
    epsilon < |p - b| ∧ ∀ n, PassesTest f m epsilon n p b (nextPoint b p) := by
  have hrest : epsilon < |p - b| := hlong.trans_le (abs_ladder_sub_le b p k)
  have hne : p ≠ b := sub_ne_zero.mp (abs_pos.mp (heps.trans_lt hrest))
  have hwhole : epsilon < |e - b| := by
    have hshort := hgolden.shortens_move.le
    linarith [abs_nonneg (e - b)]
  refine ⟨hrest, ?_⟩
  intro n
  have hnext := (h (n + 1) hwhole).2
  rwa [if_neg (ladder_falls_first hf hb hp hne hfall).not_ge] at hnext

theorem passesTest_iff (hf : UShaped f lo hi x) (heps : 0 ≤ epsilon) (he : e ∈ Set.Icc lo hi)
    (hb : b ∈ Set.Icc lo hi) (hp : p ∈ Set.Icc lo hi) (hgolden : AtGoldenPoint e b p)
    (hem : f e < m) (hpm : f p < m) :
    (∀ n, PassesTest f m epsilon n e b p) ↔ ClimbsBelow f m epsilon e b p := by
  constructor
  · intro h
    refine ⟨fun hlong => (h 1 hlong).1, ?_⟩
    intro k hlong hfall
    clear hem hpm
    induction k generalizing e p with
    | zero =>
      obtain ⟨hrest, hmove⟩ := passesTest_of_falls hf heps hb hp hgolden hlong hfall h
      rw [ladder_succ, ladder_succ, ladder_zero]
      exact (hmove 1 hrest).1
    | succ k ih =>
      obtain ⟨hrest, hmove⟩ := passesTest_of_falls hf heps hb hp hgolden hlong hfall h
      rw [ladder_succ b p k] at hlong hfall
      rw [ladder_succ b p (k + 1)] at hfall
      rw [ladder_succ b p (k + 2)]
      exact ih hp (nextPoint_mem hb hp) AtGoldenPoint.move hmove hlong hfall
  · intro h n
    induction n generalizing e p with
    | zero => trivial
    | succ n ih =>
      intro hlong
      have hdm := h.first hlong
      have hd := nextPoint_mem hb hp
      refine ⟨hdm, ?_⟩
      split
      · exact passesTest_inside hf heps n hd he hgolden.keep hdm hem
      · rename_i hkeep
        exact ih hp hd AtGoldenPoint.move hpm hdm (h.move (not_le.mp hkeep))

/-- The rounds from the first bracket: the ladder towards `b`, and if it does not fall at once the
one towards `a`. -/
theorem passesTest_start_iff (hf : UShaped f lo hi x) (heps : 0 ≤ epsilon)
    (ha : a ∈ Set.Icc lo hi) (hb : b ∈ Set.Icc lo hi) (hgolden : AtGoldenPoint a b c)
    (hc : c ∈ Set.Icc lo hi) (hcm : f c < m) :
    (∀ n, PassesTest f m epsilon n a b c) ↔ ClimbsBelow f m epsilon a b c ∧
      (epsilon < |a - b| → f c ≤ f (nextPoint b c) →
        ClimbsBelow f m epsilon (nextPoint b c) a c) := by
  have hd : nextPoint b c ∈ Set.Icc lo hi := nextPoint_mem hb hc
  have hshorter : ∀ k, epsilon < |ladder b c k - b| → epsilon < |a - b| := by
    intro k hlong
    have hshort := hgolden.shortens_move.le
    linarith [abs_ladder_sub_le b c k, abs_nonneg (a - b)]
  rw [forall_passesTest]
  by_cases hkeep : f c ≤ f (nextPoint b c)
  · simp only [hkeep, if_true, true_implies]
    constructor
    · intro h
      refine ⟨⟨fun hlong => (h hlong).1, ?_⟩, ?_⟩
      · intro k hlong hfall
        have hne : c ≠ b := sub_ne_zero.mp
          (abs_pos.mp ((heps.trans_lt hlong).trans_le (abs_ladder_sub_le b c k)))
        exact absurd (ladder_falls_first hf hb hc hne hfall) hkeep.not_gt
      · intro hlong
        exact (passesTest_iff hf heps hd ha hc hgolden.keep (h hlong).1 hcm).mp (h hlong).2
    · intro h hlong
      have hdm := h.1.first hlong
      exact ⟨hdm, (passesTest_iff hf heps hd ha hc hgolden.keep hdm hcm).mpr (h.2 hlong)⟩
  · have hfall := not_le.mp hkeep
    simp only [hkeep, if_false, false_implies, implies_true, and_true]
    have hdm : f (nextPoint b c) < m := hfall.trans hcm
    constructor
    · intro h
      refine ⟨fun _ => hdm, ?_⟩
      intro k hlong
      have hmoved := (passesTest_iff hf heps hc hb hd AtGoldenPoint.move hcm hdm).mp
        (h (hshorter k hlong)).2
      have hladder : ClimbsBelow f m epsilon a b c := hmoved.of_move hdm
      exact hladder.later k hlong
    · intro h _
      exact ⟨hdm, (passesTest_iff hf heps hc hb hd AtGoldenPoint.move hcm hdm).mpr (h.move hfall)⟩

end Brackets

/-! ## Runs -/

section Runs
variable {σ K : Type} [Field K] [LinearOrder K] [FloorRing K]
variable {update : σ → K → σ} {f : K → K} {param : GssParameter K} {lo hi : K}

/-- A search does not say that the function is not U-shaped. -/
def Accepted (param : GssParameter K) (out : GssOutcome σ K) : Prop :=
  (param.onError = .stop → out.status ≠ .failure) ∧ (param.onError = .warn → out.warning = false)

omit [Field K] [FloorRing K] in
theorem gssEvaluate_objective (st : GssState σ K) (x : K) :
    gssEvaluate (returning (objective update f)) none st x =
      .ok (st.observe (update st.data x) x (.fin (f x)), .fin (f x), false) := by
  unfold gssEvaluate GssState.observe
  simp only [returning, objective, bind, Except.bind]
  split <;> rfl

omit [Field K] [FloorRing K] in
theorem afterEvaluation_below {fa fb fd : Double K} (st : GssState σ K) (d : K)
    (h : ¬ (fa ≤ fd ∨ fb ≤ fd)) :
    afterEvaluation param fa fb st d fd false =
      if st.fc ≤ fd then .inr { st with b := st.a, a := d }
      else .inr { st with a := st.c, c := d, fc := fd } := by
  unfold afterEvaluation
  simp only [h, false_and, if_false, Bool.false_eq_true]

omit [Field K] [FloorRing K] in
theorem afterEvaluation_above {fa fb fd : Double K} (st : GssState σ K) (d : K)
    (h : fa ≤ fd ∨ fb ≤ fd) :
    afterEvaluation param fa fb st d fd false =
      if param.onError = .stop then .inl st.fail
      else if st.fc ≤ fd then .inr { st with b := st.a, a := d, warning := true }
      else .inr { st with a := st.c, c := d, fc := fd, warning := true } := by
  unfold afterEvaluation
  simp only [h, true_and, if_true, Bool.false_eq_true, if_false]

omit [Field K] [FloorRing K] in
theorem ends_le_iff (y : K) :
    ((.fin (f lo) : Double K) ≤ .fin (f y) ∨ (.fin (f hi) : Double K) ≤ .fin (f y)) ↔
      ¬ f y < min (f lo) (f hi) := by
  rw [Double.fin_le_fin, Double.fin_le_fin, not_lt, min_le_iff]

/-- The loop says nothing when it starts without a warning and its points pass the test. -/
theorem gssLoop_accepted_iff {rounds : ℕ} {st : GssState σ K} {out : GssOutcome σ K}
    (h : gssLoop (returning (objective update f)) none param (.fin (f lo)) (.fin (f hi)) rounds st =
      .ok out) (hfc : st.fc = .fin (f st.c)) :
    Accepted param out ↔ (param.onError = .warn → st.warning = false) ∧
      ∀ n, PassesTest f (min (f lo) (f hi)) param.epsilon n st.a st.b st.c := by
  induction rounds generalizing st with
  | zero => cases h
  | succ rounds ih =>
    rw [gssLoop_succ] at h
    rw [forall_passesTest]
    by_cases hlong : param.epsilon < |st.a - st.b|
    · rw [if_pos hlong, gssRound_eq (gssEvaluate_objective _ _)] at h
      simp only [hlong, true_implies]
      have hkeep_iff : st.fc ≤ .fin (f (nextPoint st.b st.c)) ↔ f st.c ≤ f (nextPoint st.b st.c) := by
        rw [hfc, Double.fin_le_fin]
      by_cases hbelow : f (nextPoint st.b st.c) < min (f lo) (f hi)
      · rw [afterEvaluation_below _ _ ((ends_le_iff _).not.mpr (not_not.mpr hbelow))] at h
        simp only [hbelow, true_and]
        by_cases hkeep : f st.c ≤ f (nextPoint st.b st.c)
        · rw [if_pos (by exact hkeep_iff.mpr hkeep)] at h
          simp only [if_pos hkeep]
          exact ih h hfc
        · rw [if_neg (by exact hkeep_iff.not.mpr hkeep)] at h
          simp only [if_neg hkeep]
          exact ih h rfl
      · rw [afterEvaluation_above _ _ ((ends_le_iff _).mpr hbelow)] at h
        simp only [hbelow, false_and, and_false, iff_false]
        cases hmode : param.onError with
        | stop =>
          rw [if_pos hmode] at h
          cases h
          exact fun haccepted => haccepted.1 hmode rfl
        | warn =>
          rw [if_neg (by rw [hmode]; exact nofun)] at h
          intro haccepted
          by_cases hkeep : f st.c ≤ f (nextPoint st.b st.c)
          · rw [if_pos (by exact hkeep_iff.mpr hkeep)] at h
            exact Bool.noConfusion (((ih h hfc).mp haccepted).1 hmode)
          · rw [if_neg (by exact hkeep_iff.not.mpr hkeep)] at h
            exact Bool.noConfusion (((ih h rfl).mp haccepted).1 hmode)
    · rw [if_neg hlong] at h
      unfold gssFinish at h
      simp only [gssEvaluate_objective, bind, Except.bind] at h
      cases h
      simp only [hlong, false_implies, and_true]
      exact ⟨fun h => h.2, fun h => ⟨fun _ => nofun, h⟩⟩

/-- The points that a search looks at stay below both ends: the first interior point, and what
follows it on the ladder to the right and, if that one does not fall at once, on the one to the
left. -/
structure StaysBelowEnds (f : K → K) (epsilon lo hi : K) : Prop where
  inner : f (lo + resphi * (hi - lo)) < min (f lo) (f hi)
  right : ClimbsBelow f (min (f lo) (f hi)) epsilon lo hi (lo + resphi * (hi - lo))
  left : epsilon < |lo - hi| →
    f (lo + resphi * (hi - lo)) ≤ f (nextPoint hi (lo + resphi * (hi - lo))) →
    ClimbsBelow f (min (f lo) (f hi)) epsilon (nextPoint hi (lo + resphi * (hi - lo))) lo
      (lo + resphi * (hi - lo))

section Ordered
variable [IsStrictOrderedRing K] {a b x : K}

omit [FloorRing K] in
theorem ladder_between {p : K} (hp : Between lo p hi) (hb : b = lo ∨ b = hi) (k : ℕ) :
    Between lo (ladder b p k) hi := by
  induction k generalizing p with
  | zero => rwa [ladder_zero]
  | succ k ih =>
    rw [ladder_succ]
    refine ih ?_
    rcases hp with ⟨hlo, hhi⟩ | ⟨hhi, hlo⟩
    · rcases hb with rfl | rfl
      · rcases nextPoint_between hlo.ne' with ⟨h, h'⟩ | ⟨h, h'⟩
        · exact absurd (h.trans h') hlo.not_gt
        · exact Or.inl ⟨h, h'.trans hhi⟩
      · rcases nextPoint_between hhi.ne with ⟨h, h'⟩ | ⟨h, h'⟩
        · exact Or.inl ⟨hlo.trans h, h'⟩
        · exact absurd (h.trans h') hhi.not_gt
    · rcases hb with rfl | rfl
      · rcases nextPoint_between hlo.ne with ⟨h, h'⟩ | ⟨h, h'⟩
        · exact Or.inr ⟨hhi.trans h, h'⟩
        · exact absurd (h.trans h') hlo.not_gt
      · rcases nextPoint_between hhi.ne' with ⟨h, h'⟩ | ⟨h, h'⟩
        · exact absurd (h.trans h') hhi.not_gt
        · exact Or.inr ⟨h, h'.trans hlo⟩

omit [FloorRing K] in
/-- Equal values at the ends are enough. -/
theorem staysBelowEnds_of_eq (hf : UShaped f lo hi x) (hne : lo ≠ hi) (heq : f lo = f hi)
    (epsilon : K) : StaysBelowEnds f epsilon lo hi := by
  have hle : lo ≤ hi := hf.mem.1.trans hf.mem.2
  have hbelow : ∀ y, Between lo y hi → f y < min (f lo) (f hi) := by
    intro y hy
    have hmax := hf.lt_max (Set.left_mem_Icc.mpr hle) (Set.right_mem_Icc.mpr hle) hy
    rw [← heq, max_self] at hmax
    rwa [← heq, min_self]
  have hclimbs : ∀ e b p, Between lo p hi → b = lo ∨ b = hi →
      ClimbsBelow f (min (f lo) (f hi)) epsilon e b p := by
    intro e b p hp hb
    have hd := ladder_between hp hb 1
    rw [ladder_succ, ladder_zero] at hd
    exact ⟨fun _ => hbelow _ hd, fun k _ _ => hbelow _ (ladder_between hp hb (k + 2))⟩
  have hinner : Between lo (lo + resphi * (hi - lo)) hi := nextPoint_between hne
  exact ⟨hbelow _ hinner, hclimbs _ _ _ hinner (Or.inr rfl),
    fun _ _ => hclimbs _ _ _ hinner (Or.inl rfl)⟩

theorem gss_objective (update : σ → K → σ) (f : K → K) (heps : 0 < param.epsilon) (a b : K)
    (data : σ) : ∃ out, gss (returning (objective update f)) none param a b data = .ok out := by
  obtain ⟨run, hrun⟩ := gssRun_returning (objective update f) none heps a b data
  refine ⟨run.outcome, ?_⟩
  rw [gss_eq_map]
  exact congrArg (Except.map GssRun.outcome) hrun

omit [IsStrictOrderedRing K] in
theorem gss_inner {data : σ} {out : GssOutcome σ K} (hab : a ≤ b)
    (h : gss (returning (objective update f)) none param a b data = .ok out) :
    Accepted param out ↔ f (a + resphi * (b - a)) < min (f a) (f b) ∧
      ∀ n, PassesTest f (min (f a) (f b)) param.epsilon n a b (a + resphi * (b - a)) := by
  have hfirst : returning (objective update f) data a = .ok (update data a, .fin (f a)) := rfl
  unfold gss at h
  simp only [if_neg hab.not_gt, hfirst, gssEvaluate_objective, bind, Except.bind,
    Bool.false_eq_true, if_false, ends_le_iff] at h
  by_cases hinner : f (a + resphi * (b - a)) < min (f a) (f b)
  · simp only [hinner, not_true_eq_false, false_and, if_false] at h
    simp only [hinner, true_and]
    exact (gssLoop_accepted_iff h rfl).trans (and_iff_right fun _ => rfl)
  · simp only [hinner, not_false_eq_true, true_and, if_true] at h
    refine iff_of_false ?_ fun hpasses => hinner hpasses.1
    cases hmode : param.onError with
    | stop =>
      rw [if_pos hmode] at h
      cases h
      exact fun haccepted => haccepted.1 hmode rfl
    | warn =>
      rw [if_neg (by rw [hmode]; exact nofun)] at h
      exact fun haccepted =>
        Bool.noConfusion (((gssLoop_accepted_iff h rfl).mp haccepted).1 hmode)

/-- A search without a callback accepts a U-shaped function exactly when the points it looks at stay
below both ends. -/
theorem gss_accepts_iff (update : σ → K → σ) (hf : UShaped f a b x) (heps : 0 < param.epsilon)
    (data : σ) :
    ∃ out, gss (returning (objective update f)) none param a b data = .ok out ∧
      ((param.onError = .stop → out.status ≠ .failure) ∧
        (param.onError = .warn → out.warning = false) ↔ StaysBelowEnds f param.epsilon a b) := by
  have hab : a ≤ b := hf.mem.1.trans hf.mem.2
  have ha : a ∈ Set.Icc a b := Set.left_mem_Icc.mpr hab
  have hb : b ∈ Set.Icc a b := Set.right_mem_Icc.mpr hab
  obtain ⟨out, hgss⟩ := gss_objective update f heps a b data
  refine ⟨out, hgss, (gss_inner hab hgss).trans ?_⟩
  constructor
  · rintro ⟨hinner, hpasses⟩
    obtain ⟨hright, hleft⟩ := (passesTest_start_iff hf heps.le ha hb (atGoldenPoint_start a b)
      (nextPoint_mem hb ha) hinner).mp hpasses
    exact ⟨hinner, hright, hleft⟩
  · intro h
    exact ⟨h.inner, (passesTest_start_iff hf heps.le ha hb (atGoldenPoint_start a b)
      (nextPoint_mem hb ha) h.inner).mpr ⟨h.right, h.left⟩⟩

end Ordered
end Runs

section Square

theorem gss_accepts_symmetric_square :
    ∃ out, gss (returning (objective (fun (data : Unit) (_ : ℝ) => data) (fun y => y ^ 2))) none
        { epsilon := 1 / 100, onError := .stop } (-1) 1 () = .ok out ∧ out.status ≠ .failure := by
  have heps : 0 < ({ epsilon := 1 / 100, onError := .stop } : GssParameter ℝ).epsilon := by norm_num
  have hsquare := uShaped_square (by norm_num : (-1 : ℝ) ≤ 0) zero_le_one
  obtain ⟨out, hgss, hiff⟩ := gss_accepts_iff (fun (data : Unit) (_ : ℝ) => data) hsquare heps ()
  exact ⟨out, hgss, (hiff.mpr (staysBelowEnds_of_eq hsquare (by norm_num) (by norm_num) _)).1 rfl⟩

/-- The square function on `[-1, 10]`. The first interior point is near 3.2, where the function is
larger than at -1. -/
theorem gss_rejects_square :
    UShaped (fun y : ℝ => y ^ 2) (-1) 10 0 ∧ (0 : ℝ) ∈ Set.Ioo (-1) 10 ∧
      (∃ out, gss (returning (objective (fun (data : Unit) (_ : ℝ) => data) (fun y => y ^ 2))) none
          { epsilon := 1 / 100, onError := .stop } (-1) 10 () = .ok out ∧ out.status = .failure) ∧
      ∃ out, gss (returning (objective (fun (data : Unit) (_ : ℝ) => data) (fun y => y ^ 2))) none
          { epsilon := 1 / 100, onError := .warn } (-1) 10 () = .ok out ∧ out.warning = true := by
  have hlow : (19 / 50 : ℝ) < resphi := lt_resphi
  have hinner : ¬ (-1 + resphi * (10 - -1) : ℝ) ^ 2 < min ((-1) ^ 2) (10 ^ 2) := by
    rw [not_lt]
    refine (min_le_left _ _).trans ?_
    nlinarith
  have hend : (-1 : ℝ) ≤ 10 := by norm_num
  refine ⟨uShaped_square (by norm_num) (by norm_num), by norm_num, ?_, ?_⟩
  · have heps : 0 < ({ epsilon := 1 / 100, onError := .stop } : GssParameter ℝ).epsilon := by
      norm_num
    obtain ⟨out, hgss⟩ :=
      gss_objective (fun (data : Unit) (_ : ℝ) => data) (fun y => y ^ 2) heps (-1) 10 ()
    refine ⟨out, hgss, ?_⟩
    by_contra hstatus
    exact hinner ((gss_inner hend hgss).mp ⟨fun _ => hstatus, nofun⟩).1
  · have heps : 0 < ({ epsilon := 1 / 100, onError := .warn } : GssParameter ℝ).epsilon := by
      norm_num
    obtain ⟨out, hgss⟩ :=
      gss_objective (fun (data : Unit) (_ : ℝ) => data) (fun y => y ^ 2) heps (-1) 10 ()
    refine ⟨out, hgss, ?_⟩
    by_contra hwarning
    exact hinner ((gss_inner hend hgss).mp ⟨nofun, fun _ => Bool.eq_false_iff.mpr hwarning⟩).1

end Square
end Plfit
