import Mathlib
import Plfit.Library.TwoRuns
import Plfit.Model.GoldenSection

/-! # Runs of the golden section search

The interior point of a bracket is at one of two places, and a round takes each of them to
the other one or back to the first. Every round shortens the bracket by the same factor, so
the loop ends for every objective.
-/
namespace Plfit
open ExactArithmetic

/-! ## Brackets -/

section Brackets
variable {K : Type} [Field K] [LinearOrder K] [IsStrictOrderedRing K]

theorem resphi_lower : (38196601125 / 10 ^ 11 : K) < resphi := by
  rw [resphi, div_lt_div_iff₀ (by positivity) (by positivity)]
  norm_num

theorem resphi_upper : (resphi : K) < 38196601126 / 10 ^ 11 := by
  rw [resphi, div_lt_div_iff₀ (by positivity) (by positivity)]
  norm_num

theorem lt_resphi : (19 / 50 : K) < resphi :=
  lt_trans (by norm_num) resphi_lower

theorem resphi_lt : (resphi : K) < 383 / 1000 :=
  lt_trans resphi_upper (by norm_num)

theorem resphi_pos : (0 : K) < resphi :=
  lt_trans (by norm_num) lt_resphi

theorem one_sub_resphi_pos : (0 : K) < 1 - resphi :=
  sub_pos.mpr (resphi_lt.trans (by norm_num))

/-- The places of the interior point `c` of a bracket with the ends `a` and `b`. -/
def AtGoldenPoint (a b c : K) : Prop :=
  c - a = resphi * (b - a) ∨ (2 - resphi) * (c - a) = (1 - resphi) * (b - a)

def nextPoint (b c : K) : K := c + resphi * (b - c)

variable {a b c lo hi : K}

omit [LinearOrder K] [IsStrictOrderedRing K] in
theorem atGoldenPoint_start (a b : K) : AtGoldenPoint a b (a + resphi * (b - a)) :=
  Or.inl (add_sub_cancel_left a _)

omit [LinearOrder K] [IsStrictOrderedRing K] in
theorem nextPoint_sub (b c : K) : nextPoint b c - c = resphi * (b - c) :=
  add_sub_cancel_left c _

omit [LinearOrder K] [IsStrictOrderedRing K] in
theorem sub_nextPoint (b c : K) : b - nextPoint b c = (1 - resphi) * (b - c) := by
  rw [nextPoint]
  ring

theorem nextPoint_mem (hb : b ∈ Set.Icc lo hi) (hc : c ∈ Set.Icc lo hi) :
    nextPoint b c ∈ Set.Icc lo hi := by
  have hconvex : nextPoint b c = (1 - resphi : K) • c + (resphi : K) • b := by
    rw [nextPoint, smul_eq_mul, smul_eq_mul]
    ring
  rw [hconvex]
  exact convex_Icc lo hi hc hb one_sub_resphi_pos.le resphi_pos.le (sub_add_cancel 1 resphi)

/-- The point divides the bracket from its end `a` in one of two ratios. -/
theorem AtGoldenPoint.ratio (h : AtGoldenPoint a b c) :
    ∃ t : K, c - a = t * (b - a) ∧ 38 / 100 < t ∧ t < 31 / 50 ∧ 1 - t < 31 / 50 ∧
      t + resphi * (1 - t) < 31 / 50 := by
  have hlow : (19 / 50 : K) < resphi := lt_resphi
  have hhigh : (resphi : K) < 383 / 1000 := resphi_lt
  unfold AtGoldenPoint at h
  -- of the constant only its two bounds are used
  generalize (resphi : K) = r at h hlow hhigh ⊢
  rcases h with h | h
  · have hsq : (617 / 1000 : K) ^ 2 ≤ (1 - r) ^ 2 :=
      pow_le_pow_left₀ (by norm_num) (by linarith only [hhigh]) 2
    refine ⟨r, h, ?_, ?_, ?_, ?_⟩
    · linarith only [hlow]
    · linarith only [hhigh]
    · linarith only [hlow]
    · linarith only [hsq]
  · have hden : 0 < 2 - r := by linarith only [hhigh]
    refine ⟨(1 - r) / (2 - r), ?_, ?_, ?_, ?_, ?_⟩
    · rw [div_mul_eq_mul_div, eq_div_iff hden.ne', mul_comm, h]
    · rw [lt_div_iff₀ hden]
      linarith only [hhigh]
    · rw [div_lt_iff₀ hden]
      linarith only [hlow]
    · rw [sub_lt_iff_lt_add, ← sub_lt_iff_lt_add', lt_div_iff₀ hden]
      linarith only [hhigh]
    · have hsum : (1 - r) / (2 - r) + r * (1 - (1 - r) / (2 - r)) = 1 / (2 - r) := by
        field_simp
        ring
      rw [hsum, div_lt_iff₀ hden]
      linarith only [hhigh]

/-- Keeping the interior point mirrors the bracket. -/
theorem AtGoldenPoint.keep (h : AtGoldenPoint a b c) : AtGoldenPoint (nextPoint b c) a c := by
  unfold nextPoint
  rcases h with h | h
  · right
    linear_combination h
  · left
    linear_combination resphi * h

omit [LinearOrder K] [IsStrictOrderedRing K] in
/-- Moving on to the new point keeps the orientation. -/
theorem AtGoldenPoint.move : AtGoldenPoint c b (nextPoint b c) :=
  atGoldenPoint_start c b

/-- The new bracket is shorter than the old one by a factor below 0.62. -/
def Shortens (st next : K × K) : Prop :=
  ∃ q, 0 < q ∧ q < 31 / 50 ∧ |next.1 - next.2| = q * |st.1 - st.2|

theorem Shortens.le {st next : K × K} (h : Shortens st next) :
    |next.1 - next.2| ≤ 31 / 50 * |st.1 - st.2| := by
  obtain ⟨q, -, hq, hlen⟩ := h
  rw [hlen]
  exact mul_le_mul_of_nonneg_right hq.le (abs_nonneg _)

theorem AtGoldenPoint.shortens_keep (h : AtGoldenPoint a b c) :
    Shortens (a, b) (nextPoint b c, a) := by
  obtain ⟨t, ht, hpos, hsmall, -, hnext⟩ := h.ratio
  have hsum : nextPoint b c - a = (t + resphi * (1 - t)) * (b - a) := by
    rw [nextPoint]
    linear_combination (1 - resphi) * ht
  have ht0 : 0 < t := by linarith only [hpos]
  have ht1 : 0 < 1 - t := by linarith only [hsmall]
  have hq : 0 < t + resphi * (1 - t) := add_pos ht0 (mul_pos resphi_pos ht1)
  refine ⟨t + resphi * (1 - t), hq, hnext, ?_⟩
  rw [hsum, abs_mul, abs_of_pos hq, abs_sub_comm b a]

theorem AtGoldenPoint.shortens_move (h : AtGoldenPoint a b c) : Shortens (a, b) (c, b) := by
  obtain ⟨t, ht, -, hsmall, hlarge, -⟩ := h.ratio
  have hsum : c - b = (1 - t) * (a - b) := by linear_combination ht
  have hq : 0 < 1 - t := by linarith only [hsmall]
  refine ⟨1 - t, hq, hlarge, ?_⟩
  rw [hsum, abs_mul, abs_of_pos hq]

end Brackets

/-! ## Rounds -/

section Rounds
variable {σ K : Type} [Field K] [LinearOrder K]

def GssState.observe (st : GssState σ K) (data : σ) (x : K) (fx : Double K) : GssState σ K :=
  { st with
    data := data
    min := if fx < st.fmin then x else st.min
    fmin := if fx < st.fmin then fx else st.fmin }

/-- One round of the loop: the end of the search, or the state to go on with. -/
def gssRound [FloorRing K] (evaluate : GssEvaluate σ K) (progress : Option (GssProgress σ K))
    (param : GssParameter K) (fa fb : Double K) (st : GssState σ K) :
    Exec (GssOutcome σ K ⊕ GssState σ K) := do
  let st := { st with k := st.k + 1 }
  let d := nextPoint st.b st.c
  let (st, fd, stopped) ← gssEvaluate evaluate progress st d
  if stopped then return .inl st.terminate
  if (fa ≤ fd ∨ fb ≤ fd) ∧ param.onError = .stop then return .inl st.fail
  let st := if fa ≤ fd ∨ fb ≤ fd then { st with warning := true } else st
  if st.fc ≤ fd then return .inr { st with b := st.a, a := d }
  else return .inr { st with a := st.c, c := d, fc := fd }

theorem gssLoop_succ [FloorRing K] (evaluate : GssEvaluate σ K)
    (progress : Option (GssProgress σ K)) (param : GssParameter K) (fa fb : Double K)
    (rounds : ℕ) (st : GssState σ K) :
    gssLoop evaluate progress param fa fb (rounds + 1) st =
      if param.epsilon < |st.a - st.b| then
        gssRound evaluate progress param fa fb st >>= fun r =>
          match r with
          | .inl out => .ok out
          | .inr st => gssLoop evaluate progress param fa fb rounds st
      else gssFinish evaluate progress st := by
  rw [gssLoop]
  split
  · unfold gssRound nextPoint
    dsimp only
    generalize gssEvaluate evaluate progress { st with k := st.k + 1 }
      (st.c + resphi * (st.b - st.c)) = evaluated
    cases evaluated with
    | error stop => rfl
    | ok p =>
      obtain ⟨st', fd, stopped⟩ := p
      simp only [bind, Except.bind]
      split_ifs <;> rfl
  · rfl

/-- What a round does with the value at its point. -/
def afterEvaluation (param : GssParameter K) (fa fb : Double K) (st : GssState σ K) (d : K)
    (fd : Double K) (stopped : Bool) : GssOutcome σ K ⊕ GssState σ K :=
  if stopped then .inl st.terminate
  else if (fa ≤ fd ∨ fb ≤ fd) ∧ param.onError = .stop then .inl st.fail
  else
    let st := if fa ≤ fd ∨ fb ≤ fd then { st with warning := true } else st
    if st.fc ≤ fd then .inr { st with b := st.a, a := d }
    else .inr { st with a := st.c, c := d, fc := fd }

omit [Field K] in
/-- With the error handling of the default parameters no warning is ever raised. -/
theorem afterEvaluation_of_stop {param : GssParameter K} (hparam : param.onError = .stop)
    (fa fb : Double K) (st : GssState σ K) (d : K) (fd : Double K) (stopped : Bool) :
    afterEvaluation param fa fb st d fd stopped =
      if stopped then .inl st.terminate
      else if fa ≤ fd ∨ fb ≤ fd then .inl st.fail
      else if st.fc ≤ fd then .inr { st with b := st.a, a := d }
      else .inr { st with a := st.c, c := d, fc := fd } := by
  unfold afterEvaluation
  by_cases hworse : fa ≤ fd ∨ fb ≤ fd
  · simp only [hworse, hparam, and_self, if_true]
  · simp only [hworse, false_and, if_false]

theorem gssRound_eq [FloorRing K] {evaluate : GssEvaluate σ K}
    {progress : Option (GssProgress σ K)} {st st' : GssState σ K} {fd : Double K} {stopped : Bool}
    (h : gssEvaluate evaluate progress { st with k := st.k + 1 } (nextPoint st.b st.c) =
      .ok (st', fd, stopped)) (param : GssParameter K) (fa fb : Double K) :
    gssRound evaluate progress param fa fb st =
      .ok (afterEvaluation param fa fb st' (nextPoint st.b st.c) fd stopped) := by
  unfold gssRound afterEvaluation
  simp only [h, bind, Except.bind]
  split_ifs <;> rfl

end Rounds

section Rule
variable {σ K : Type} [Field K] [LinearOrder K] [IsStrictOrderedRing K] [FloorRing K]
variable {evaluate : GssEvaluate σ K} {progress : Option (GssProgress σ K)}
variable {param : GssParameter K} {fa fb : Double K}

/-- The loop ends, with what an invariant of its rounds implies. The bracket is the variant. -/
theorem gssLoop_rule (I : GssState σ K → Prop) (Q : GssOutcome σ K → Prop)
    (heps : 0 < param.epsilon)
    (hround : ∀ st, I st → param.epsilon < |st.a - st.b| →
      (∃ out, gssRound evaluate progress param fa fb st = .ok (.inl out) ∧ Q out) ∨
        ∃ st', gssRound evaluate progress param fa fb st = .ok (.inr st') ∧ I st' ∧
          |st'.a - st'.b| ≤ 31 / 50 * |st.a - st.b|)
    (hfinish : ∀ st, I st → |st.a - st.b| ≤ param.epsilon →
      ∃ out, gssFinish evaluate progress st = .ok out ∧ Q out)
    {rounds : ℕ} {st : GssState σ K} (hI : I st)
    (hrounds : 4 * |st.a - st.b| / param.epsilon < rounds) :
    ∃ out, gssLoop evaluate progress param fa fb rounds st = .ok out ∧ Q out := by
  induction rounds generalizing st with
  | zero =>
    have hnonneg : 0 ≤ 4 * |st.a - st.b| / param.epsilon := by positivity
    rw [Nat.cast_zero] at hrounds
    exact absurd hrounds hnonneg.not_gt
  | succ rounds ih =>
    rw [gssLoop_succ]
    by_cases hlong : param.epsilon < |st.a - st.b|
    · rw [if_pos hlong]
      rcases hround st hI hlong with ⟨out, hout, hQ⟩ | ⟨st', hst', hI', hshort⟩
      · exact ⟨out, by rw [hout]; rfl, hQ⟩
      · have hfewer : 4 * |st'.a - st'.b| / param.epsilon < rounds := by
          rw [div_lt_iff₀ heps] at hrounds ⊢
          rw [Nat.cast_succ, add_one_mul] at hrounds
          linarith only [hrounds, hshort, hlong, abs_nonneg (st.a - st.b)]
        obtain ⟨out, hout, hQ⟩ := ih hI' hfewer
        exact ⟨out, by rw [hst']; exact hout, hQ⟩
    · rw [if_neg hlong]
      exact hfinish st hI (not_lt.mp hlong)

theorem lt_gssRounds (param : GssParameter K) (a b : K) :
    4 * |a - b| / param.epsilon < (gssRounds param a b : ℕ) := by
  have hceil := Nat.le_ceil (4 * |a - b| / param.epsilon)
  rw [gssRounds]
  push_cast
  linarith

end Rule

/-! ## Searches on a range -/

section Range
variable {σ K : Type} [Field K] [LinearOrder K] [IsStrictOrderedRing K] [FloorRing K]

/-- On a range of points an evaluation keeps the data good and shows its value, and the
callback looks at the bracket only. -/
structure SearchesRange (evaluate : GssEvaluate σ K) (report : GssProgress σ K) (lo hi : K)
    (Good : σ → Prop) (Shows : K → Double K → σ → Prop) (stop : K → K → Bool) : Prop where
  evaluate : ∀ data x, Good data → x ∈ Set.Icc lo hi →
    ∃ data' fx, evaluate data x = .ok (data', fx) ∧ Good data' ∧ Shows x fx data'
  report : ∀ data x fx m fm left right k, left ∈ Set.Icc lo hi → right ∈ Set.Icc lo hi →
    report data x fx m fm left right k = .ok (stop left right)

/-- A bracket on the range with its interior point at its place. -/
structure BracketIn (lo hi : K) (st : GssState σ K) : Prop where
  a : st.a ∈ Set.Icc lo hi
  b : st.b ∈ Set.Icc lo hi
  c : st.c ∈ Set.Icc lo hi
  golden : AtGoldenPoint st.a st.b st.c

variable {evaluate : GssEvaluate σ K} {report : GssProgress σ K} {lo hi : K}
variable {Good : σ → Prop} {Shows : K → Double K → σ → Prop} {stop : K → K → Bool}

omit [Field K] [IsStrictOrderedRing K] [FloorRing K] in
theorem ite_lt_eq_min_max (a b : K) :
    (if a < b then a else b) = min a b ∧ (if a < b then b else a) = max a b := by
  rcases lt_or_ge a b with h | h
  · rw [if_pos h, if_pos h, min_eq_left h.le, max_eq_right h.le]
    exact ⟨rfl, rfl⟩
  · rw [if_neg h.not_gt, if_neg h.not_gt, min_eq_right h, max_eq_left h]
    exact ⟨rfl, rfl⟩

omit [Field K] [IsStrictOrderedRing K] [FloorRing K] in
theorem SearchesRange.gssEvaluate (h : SearchesRange evaluate report lo hi Good Shows stop)
    (st : GssState σ K) (hdata : Good st.data) (ha : st.a ∈ Set.Icc lo hi)
    (hb : st.b ∈ Set.Icc lo hi) {x : K} (hx : x ∈ Set.Icc lo hi) :
    ∃ data fx, gssEvaluate evaluate (some report) st x =
        .ok (st.observe data x fx, fx, stop (min st.a st.b) (max st.a st.b)) ∧
      Good data ∧ Shows x fx data := by
  obtain ⟨data, fx, hrun, hgood, hshows⟩ := h.evaluate st.data x hdata hx
  refine ⟨data, fx, ?_, hgood, hshows⟩
  obtain ⟨hmin, hmax⟩ := ite_lt_eq_min_max st.a st.b
  have hleft : min st.a st.b ∈ Set.Icc lo hi := ⟨le_min ha.1 hb.1, (min_le_left _ _).trans ha.2⟩
  have hright : max st.a st.b ∈ Set.Icc lo hi := ⟨ha.1.trans (le_max_left _ _), max_le ha.2 hb.2⟩
  unfold Plfit.gssEvaluate GssState.observe
  simp only [hrun, bind, Except.bind]
  by_cases hless : fx < st.fmin
  · simp only [if_pos hless, hmin, hmax, h.report _ _ _ _ _ _ _ _ hleft hright]
    rfl
  · simp only [if_neg hless, hmin, hmax, h.report _ _ _ _ _ _ _ _ hleft hright]
    rfl

omit [FloorRing K] in
theorem BracketIn.keep {st : GssState σ K} (h : BracketIn lo hi st) (st' : GssState σ K)
    (ha : st'.a = nextPoint st.b st.c) (hb : st'.b = st.a) (hc : st'.c = st.c) :
    BracketIn lo hi st' ∧ |st'.a - st'.b| ≤ 31 / 50 * |st.a - st.b| := by
  refine ⟨⟨?_, ?_, ?_, ?_⟩, ?_⟩
  · rw [ha]
    exact nextPoint_mem h.b h.c
  · rw [hb]
    exact h.a
  · rw [hc]
    exact h.c
  · rw [ha, hb, hc]
    exact h.golden.keep
  · rw [ha, hb]
    exact h.golden.shortens_keep.le

omit [FloorRing K] in
theorem BracketIn.move {st : GssState σ K} (h : BracketIn lo hi st) (st' : GssState σ K)
    (ha : st'.a = st.c) (hb : st'.b = st.b) (hc : st'.c = nextPoint st.b st.c) :
    BracketIn lo hi st' ∧ |st'.a - st'.b| ≤ 31 / 50 * |st.a - st.b| := by
  refine ⟨⟨?_, ?_, ?_, ?_⟩, ?_⟩
  · rw [ha]
    exact h.c
  · rw [hb]
    exact h.b
  · rw [hc]
    exact nextPoint_mem h.b h.c
  · rw [ha, hb, hc]
    exact AtGoldenPoint.move
  · rw [ha, hb]
    exact h.golden.shortens_move.le

/-- The four ways a round can end. -/
theorem SearchesRange.gssRound_cases (h : SearchesRange evaluate report lo hi Good Shows stop)
    {st : GssState σ K} (hdata : Good st.data) (hbracket : BracketIn lo hi st)
    {param : GssParameter K} (hparam : param.onError = .stop) (fa fb : Double K) :
    ∃ data fd st', Good data ∧ Shows (nextPoint st.b st.c) fd data ∧
      st' = { st with k := st.k + 1 }.observe data (nextPoint st.b st.c) fd ∧
      ((stop (min st.a st.b) (max st.a st.b) = true ∧
          gssRound evaluate (some report) param fa fb st = .ok (.inl st'.terminate)) ∨
        (stop (min st.a st.b) (max st.a st.b) = false ∧ (fa ≤ fd ∨ fb ≤ fd) ∧
          gssRound evaluate (some report) param fa fb st = .ok (.inl st'.fail)) ∨
        (stop (min st.a st.b) (max st.a st.b) = false ∧ ¬ fa ≤ fd ∧ ¬ fb ≤ fd ∧ st.fc ≤ fd ∧
          gssRound evaluate (some report) param fa fb st =
            .ok (.inr { st' with b := st.a, a := nextPoint st.b st.c })) ∨
        (stop (min st.a st.b) (max st.a st.b) = false ∧ ¬ fa ≤ fd ∧ ¬ fb ≤ fd ∧ ¬ st.fc ≤ fd ∧
          gssRound evaluate (some report) param fa fb st =
            .ok (.inr { st' with a := st.c, c := nextPoint st.b st.c, fc := fd }))) := by
  obtain ⟨data, fd, hrun, hgood, hshows⟩ :=
    h.gssEvaluate { st with k := st.k + 1 } hdata hbracket.a hbracket.b
      (nextPoint_mem hbracket.b hbracket.c)
  refine ⟨data, fd, _, hgood, hshows, rfl, ?_⟩
  rw [gssRound_eq hrun, afterEvaluation_of_stop hparam]
  cases hstop : stop (min st.a st.b) (max st.a st.b) with
  | true => exact Or.inl ⟨rfl, by rw [if_pos rfl]⟩
  | false =>
    rw [if_neg Bool.false_ne_true]
    by_cases hworse : fa ≤ fd ∨ fb ≤ fd
    · exact Or.inr (Or.inl ⟨rfl, hworse, by rw [if_pos hworse]⟩)
    · rw [if_neg hworse]
      obtain ⟨hfa, hfb⟩ := not_or.mp hworse
      by_cases hkeep : st.fc ≤ fd
      · exact Or.inr (Or.inr (Or.inl ⟨rfl, hfa, hfb, hkeep, by rw [if_pos (by exact hkeep)]; rfl⟩))
      · exact Or.inr (Or.inr (Or.inr ⟨rfl, hfa, hfb, hkeep, by rw [if_neg (by exact hkeep)]; rfl⟩))

/-- The state in front of the loop, after the evaluations at the ends and at the interior
point. -/
def GssState.start (lo hi : K) (d₀ d₁ d₂ d₃ : σ) (f₀ fa fb fc : Double K) : GssState σ K :=
  let c := lo + resphi * (hi - lo)
  let st : GssState σ K :=
    { data := d₀, a := lo, b := hi, c := c, min := lo, fmin := f₀, fc := f₀, k := 0,
      warning := false }
  { ((st.observe d₁ lo fa).observe d₂ hi fb).observe d₃ c fc with fc := fc }

omit [FloorRing K] in
theorem bracketIn_start (hle : lo ≤ hi) (d₀ d₁ d₂ d₃ : σ) (f₀ fa fb fc : Double K) :
    BracketIn lo hi (GssState.start lo hi d₀ d₁ d₂ d₃ f₀ fa fb fc) where
  a := Set.left_mem_Icc.mpr hle
  b := Set.right_mem_Icc.mpr hle
  c := nextPoint_mem (Set.right_mem_Icc.mpr hle) (Set.left_mem_Icc.mpr hle)
  golden := atGoldenPoint_start lo hi

theorem SearchesRange.gss_start (h : SearchesRange evaluate report lo hi Good Shows stop)
    (hle : lo ≤ hi) (hgo : stop lo hi = false) {param : GssParameter K}
    (hparam : param.onError = .stop) {data : σ}
    (hfirst : ∃ d f, evaluate data lo = .ok (d, f) ∧ Good d ∧ Shows lo f d) :
    ∃ d₀ d₁ d₂ d₃ f₀ fa fb fc, Shows lo f₀ d₀ ∧ Shows lo fa d₁ ∧ Shows hi fb d₂ ∧
      Shows (lo + resphi * (hi - lo)) fc d₃ ∧ Good d₃ ∧
      gss evaluate (some report) param lo hi data =
        if fa ≤ fc ∨ fb ≤ fc then .ok (GssState.start lo hi d₀ d₁ d₂ d₃ f₀ fa fb fc).fail
        else gssLoop evaluate (some report) param fa fb (gssRounds param lo hi)
          (GssState.start lo hi d₀ d₁ d₂ d₃ f₀ fa fb fc) := by
  have hlo : lo ∈ Set.Icc lo hi := Set.left_mem_Icc.mpr hle
  have hhi : hi ∈ Set.Icc lo hi := Set.right_mem_Icc.mpr hle
  have hc : lo + resphi * (hi - lo) ∈ Set.Icc lo hi := nextPoint_mem hhi hlo
  obtain ⟨d₀, f₀, hfirst, hgood, hshows⟩ := hfirst
  obtain ⟨st₀, hst₀⟩ : ∃ st : GssState σ K, st =
      { data := d₀, a := lo, b := hi, c := lo + resphi * (hi - lo), min := lo, fmin := f₀,
        fc := f₀, k := 0, warning := false } := ⟨_, rfl⟩
  have heval : ∀ st : GssState σ K, st.a = lo → st.b = hi → Good st.data →
      ∀ x ∈ Set.Icc lo hi, ∃ d fx, Plfit.gssEvaluate evaluate (some report) st x =
        .ok (st.observe d x fx, fx, false) ∧ Good d ∧ Shows x fx d := by
    intro st ha hb hst x hx
    obtain ⟨d, fx, hrun, hgood, hshows⟩ :=
      h.gssEvaluate st hst (by rwa [ha]) (by rwa [hb]) hx
    rw [ha, hb, min_eq_left hle, max_eq_right hle, hgo] at hrun
    exact ⟨d, fx, hrun, hgood, hshows⟩
  obtain ⟨d₁, fa, hleft, hgood₁, hshows₁⟩ :=
    heval st₀ (by rw [hst₀]) (by rw [hst₀]) (by rw [hst₀]; exact hgood) lo hlo
  obtain ⟨d₂, fb, hright, hgood₂, hshows₂⟩ :=
    heval (st₀.observe d₁ lo fa) (by rw [hst₀]; rfl) (by rw [hst₀]; rfl) hgood₁ hi hhi
  obtain ⟨d₃, fc, hinner, hgood₃, hshows₃⟩ :=
    heval ((st₀.observe d₁ lo fa).observe d₂ hi fb) (by rw [hst₀]; rfl) (by rw [hst₀]; rfl) hgood₂
      _ hc
  refine ⟨d₀, d₁, d₂, d₃, f₀, fa, fb, fc, hshows, hshows₁, hshows₂, hshows₃, hgood₃, ?_⟩
  have hstart : GssState.start lo hi d₀ d₁ d₂ d₃ f₀ fa fb fc =
      { ((st₀.observe d₁ lo fa).observe d₂ hi fb).observe d₃ (lo + resphi * (hi - lo)) fc with
        fc := fc } := by
    rw [hst₀]
    rfl
  rw [hstart]
  unfold gss
  simp only [if_neg hle.not_gt, hfirst, ← hst₀, bind, Except.bind, hleft, hright, hinner,
    Bool.false_eq_true, if_false]
  by_cases hworse : fa ≤ fc ∨ fb ≤ fc
  · simp only [hworse, hparam, and_self, if_true]
    rfl
  · simp only [hworse, false_and, if_false]

omit [FloorRing K] in
theorem midpoint_mem {a b lo hi : K} (ha : a ∈ Set.Icc lo hi) (hb : b ∈ Set.Icc lo hi) :
    (a + b) / 2 ∈ Set.Icc lo hi := by
  constructor
  · linarith [ha.1, hb.1]
  · linarith [ha.2, hb.2]

omit [FloorRing K] in
theorem SearchesRange.gssFinish (h : SearchesRange evaluate report lo hi Good Shows stop)
    {st : GssState σ K} (hdata : Good st.data) (hbracket : BracketIn lo hi st) :
    ∃ data fx, gssFinish evaluate (some report) st =
        .ok ({ st with c := (st.a + st.b) / 2, k := st.k + 1 }.observe data ((st.a + st.b) / 2)
          fx).terminate ∧
      Good data ∧ Shows ((st.a + st.b) / 2) fx data := by
  obtain ⟨data, fx, hrun, hgood, hshows⟩ :=
    h.gssEvaluate { st with c := (st.a + st.b) / 2, k := st.k + 1 } hdata hbracket.a
      hbracket.b (midpoint_mem hbracket.a hbracket.b)
  refine ⟨data, fx, ?_, hgood, hshows⟩
  unfold Plfit.gssFinish
  simp only [hrun, bind, Except.bind]
  rfl

structure SearchIn (lo hi : K) (Good : σ → Prop) (st : GssState σ K) : Prop where
  good : Good st.data
  bracket : BracketIn lo hi st
  min_mem : st.min ∈ Set.Icc lo hi

omit [Field K] [IsStrictOrderedRing K] [FloorRing K] in
theorem observe_min_mem {st : GssState σ K} (hmin : st.min ∈ Set.Icc lo hi) (data : σ) {x : K}
    (hx : x ∈ Set.Icc lo hi) (fx : Double K) : (st.observe data x fx).min ∈ Set.Icc lo hi := by
  unfold GssState.observe
  dsimp only
  split
  · exact hx
  · exact hmin

/-- A search on a good range ends, and its data are good. -/
theorem SearchesRange.gss_ok (h : SearchesRange evaluate report lo hi Good Shows stop)
    (hle : lo ≤ hi) (hgo : stop lo hi = false) {param : GssParameter K}
    (hparam : param.onError = .stop) (heps : 0 < param.epsilon) {data : σ}
    (hfirst : ∃ d f, evaluate data lo = .ok (d, f) ∧ Good d ∧ Shows lo f d) :
    ∃ out, gss evaluate (some report) param lo hi data = .ok out ∧ Good out.data ∧
      (out.status = .success → ∃ x ∈ Set.Icc lo hi, out.min = some x) := by
  have hlo : lo ∈ Set.Icc lo hi := Set.left_mem_Icc.mpr hle
  have hhi : hi ∈ Set.Icc lo hi := Set.right_mem_Icc.mpr hle
  have hbracket : ∀ (d₀ d₁ d₂ d₃ : σ) (f₀ fa fb fc : Double K),
      BracketIn lo hi (GssState.start lo hi d₀ d₁ d₂ d₃ f₀ fa fb fc) := bracketIn_start hle
  obtain ⟨d₀, d₁, d₂, d₃, f₀, fa, fb, fc, -, -, -, -, hgood, hgss⟩ :=
    h.gss_start hle hgo hparam hfirst
  have hstart : SearchIn lo hi Good (GssState.start lo hi d₀ d₁ d₂ d₃ f₀ fa fb fc) :=
    ⟨hgood, hbracket .., observe_min_mem (observe_min_mem (observe_min_mem hlo d₁ hlo fa) d₂ hhi fb)
      d₃ (hbracket d₀ d₁ d₂ d₃ f₀ fa fb fc).c fc⟩
  rw [hgss]
  split
  · exact ⟨_, rfl, hgood, nofun⟩
  · refine gssLoop_rule (SearchIn lo hi Good)
      (fun out => Good out.data ∧ (out.status = .success → ∃ x ∈ Set.Icc lo hi, out.min = some x))
      heps ?_ ?_ hstart (lt_gssRounds param lo hi)
    · intro st hst _
      have hd := nextPoint_mem hst.bracket.b hst.bracket.c
      obtain ⟨data, fd, st', hdata, -, hst', hround⟩ :=
        h.gssRound_cases hst.good hst.bracket hparam fa fb
      have hgood' : Good st'.data := by rw [hst']; exact hdata
      have hmin : st'.min ∈ Set.Icc lo hi := by
        rw [hst']
        exact observe_min_mem hst.min_mem data hd fd
      rcases hround with ⟨-, hrun⟩ | ⟨-, -, hrun⟩ | ⟨-, -, -, -, hrun⟩ | ⟨-, -, -, -, hrun⟩
      · exact Or.inl ⟨_, hrun, hgood', fun _ => ⟨_, hmin, rfl⟩⟩
      · exact Or.inl ⟨_, hrun, hgood', nofun⟩
      · obtain ⟨hnext, hshort⟩ := hst.bracket.keep
          { st' with b := st.a, a := nextPoint st.b st.c } rfl rfl (by rw [hst']; rfl)
        exact Or.inr ⟨_, hrun, ⟨hgood', hnext, hmin⟩, hshort⟩
      · obtain ⟨hnext, hshort⟩ := hst.bracket.move
          { st' with a := st.c, c := nextPoint st.b st.c, fc := fd } rfl (by rw [hst']; rfl) rfl
        exact Or.inr ⟨_, hrun, ⟨hgood', hnext, hmin⟩, hshort⟩
    · intro st hst _
      obtain ⟨data, fx, hrun, hdata, -⟩ := h.gssFinish hst.good hst.bracket
      exact ⟨_, hrun, hdata, fun _ => ⟨_, observe_min_mem hst.min_mem data
        (midpoint_mem hst.bracket.a hst.bracket.b) fx, rfl⟩⟩

/-! ## The least value of a function -/

/-- The bracket holds the best point so far, which beats both ends of the range. -/
structure HoldsInterior (g : K → K) (lo hi : K) (st : GssState σ K) : Prop where
  min_eq : st.min = st.c
  fmin_eq : st.fmin = .fin (g st.c)
  fc_eq : st.fc = .fin (g st.c)
  lt_lo : g st.c < g lo
  lt_hi : g st.c < g hi

/-- Where a search has ended: the best point `x`, the last evaluated point `y` and the last
bracket. -/
structure NarrowedTo (g : K → K) (lo hi epsilon : K) (stop : K → K → Bool)
    (x y left right : K) : Prop where
  left_mem : left ∈ Set.Icc lo hi
  right_mem : right ∈ Set.Icc lo hi
  x_mem : x ∈ Set.Icc left right
  y_mem : y ∈ Set.Icc left right
  ended : stop left right = true ∨ right - left ≤ epsilon
  lt_lo : g x < g lo
  lt_hi : g x < g hi

omit [FloorRing K] in
/-- The last bracket contains its interior point and the next one. -/
theorem AtGoldenPoint.mem_uIcc {a b c : K} (h : AtGoldenPoint a b c) :
    c ∈ Set.Icc (min a b) (max a b) ∧ nextPoint b c ∈ Set.Icc (min a b) (max a b) := by
  have ha : a ∈ Set.Icc (min a b) (max a b) := ⟨min_le_left a b, le_max_left a b⟩
  have hb : b ∈ Set.Icc (min a b) (max a b) := ⟨min_le_right a b, le_max_right a b⟩
  obtain ⟨t, ht, hpos, hsmall, -⟩ := h.ratio
  have ht0 : 0 ≤ t := by linarith only [hpos]
  have ht1 : 0 ≤ 1 - t := by linarith only [hsmall]
  have hc : c ∈ Set.Icc (min a b) (max a b) := by
    have hconvex : c = (1 - t) • a + t • b := by
      rw [smul_eq_mul, smul_eq_mul]
      linear_combination ht
    rw [hconvex]
    exact convex_Icc _ _ ha hb ht1 ht0 (sub_add_cancel 1 t)
  exact ⟨hc, nextPoint_mem hb hc⟩

omit [Field K] [IsStrictOrderedRing K] [FloorRing K] in
theorem HoldsInterior.observe {g : K → K} {st : GssState σ K} (h : HoldsInterior g lo hi st)
    (data : σ) (x : K) :
    (st.observe data x (.fin (g x))).min = (if g x < g st.c then x else st.c) ∧
      (st.observe data x (.fin (g x))).fmin = .fin (if g x < g st.c then g x else g st.c) := by
  unfold GssState.observe
  rw [h.fmin_eq, h.min_eq]
  simp only [Double.fin_lt_fin, true_and]
  split <;> rfl

omit [FloorRing K] in
/-- A bracket of the search in which the loop ends. -/
theorem HoldsInterior.narrowedTo {g : K → K} {st : GssState σ K} (h : HoldsInterior g lo hi st)
    (hbracket : BracketIn lo hi st) {stop : K → K → Bool} {epsilon y : K}
    (hy : y ∈ Set.Icc (min st.a st.b) (max st.a st.b))
    (hend : stop (min st.a st.b) (max st.a st.b) = true ∨ |st.a - st.b| ≤ epsilon) :
    NarrowedTo g lo hi epsilon stop (if g y < g st.c then y else st.c) y (min st.a st.b)
      (max st.a st.b) where
  left_mem := ⟨le_min hbracket.a.1 hbracket.b.1, (min_le_left _ _).trans hbracket.a.2⟩
  right_mem := ⟨hbracket.a.1.trans (le_max_left _ _), max_le hbracket.a.2 hbracket.b.2⟩
  x_mem := by
    split
    · exact hy
    · exact hbracket.golden.mem_uIcc.1
  y_mem := hy
  ended := by
    rw [max_sub_min_eq_abs, abs_sub_comm]
    exact hend
  lt_lo := by
    split
    · exact lt_trans (by assumption) h.lt_lo
    · exact h.lt_lo
  lt_hi := by
    split
    · exact lt_trans (by assumption) h.lt_hi
    · exact h.lt_hi

omit [IsStrictOrderedRing K] [FloorRing K] in
/-- The first test lets a search go on only with its best point inside the bracket. -/
theorem holdsInterior_start {g : K → K} (d₀ d₁ d₂ d₃ : σ)
    (hlo : ¬ g lo ≤ g (lo + resphi * (hi - lo))) (hhi : ¬ g hi ≤ g (lo + resphi * (hi - lo))) :
    HoldsInterior g lo hi (GssState.start lo hi d₀ d₁ d₂ d₃ (.fin (g lo)) (.fin (g lo))
      (.fin (g hi)) (.fin (g (lo + resphi * (hi - lo))))) := by
  rw [not_le] at hlo hhi
  -- the best of the two ends so far is beaten by the interior point
  have hbeats : (.fin (g (lo + resphi * (hi - lo))) : Double K) <
      if g hi < g lo then .fin (g hi) else .fin (g lo) := by
    split
    · exact Double.fin_lt_fin.mpr hhi
    · exact Double.fin_lt_fin.mpr hlo
  refine ⟨?_, ?_, rfl, hlo, hhi⟩
  · simp only [GssState.start, GssState.observe, ite_self, Double.fin_lt_fin, if_pos hbeats]
  · simp only [GssState.start, GssState.observe, ite_self, Double.fin_lt_fin, if_pos hbeats]

/-- What a search for the least value of `g` keeps. -/
structure Searching (g : K → K) (lo hi : K) (Good : σ → Prop) (st : GssState σ K) : Prop where
  good : Good st.data
  bracket : BracketIn lo hi st
  holds : HoldsInterior g lo hi st

/-- A search has ended at `x` with an evaluation at `y`. -/
structure EndsAt (g : K → K) (Good : σ → Prop) (Shows : K → Double K → σ → Prop) (x y : K)
    (out : GssOutcome σ K) : Prop where
  success : out.status = .success
  min_eq : out.min = some x
  good : Good out.data
  shows : Shows y (.fin (g y)) out.data

/-- The four ways a round of such a search can end. -/
theorem Searching.round_cases {g : K → K} {st : GssState σ K} (hst : Searching g lo hi Good st)
    (h : SearchesRange evaluate report lo hi Good Shows stop)
    (hg : ∀ x fx data, Shows x fx data → fx = .fin (g x)) {param : GssParameter K}
    (hparam : param.onError = .stop) {d : K} (hd : nextPoint st.b st.c = d) :
    (stop (min st.a st.b) (max st.a st.b) = true ∧ ∃ out,
        gssRound evaluate (some report) param (.fin (g lo)) (.fin (g hi)) st = .ok (.inl out) ∧
        EndsAt g Good Shows (if g d < g st.c then d else st.c) d out) ∨
      (stop (min st.a st.b) (max st.a st.b) = false ∧ (g lo ≤ g d ∨ g hi ≤ g d) ∧ ∃ out,
        gssRound evaluate (some report) param (.fin (g lo)) (.fin (g hi)) st = .ok (.inl out) ∧
        out.status = .failure ∧ Good out.data) ∨
      (stop (min st.a st.b) (max st.a st.b) = false ∧ ¬ (g lo ≤ g d ∨ g hi ≤ g d) ∧
        g st.c ≤ g d ∧ ∃ st',
        gssRound evaluate (some report) param (.fin (g lo)) (.fin (g hi)) st = .ok (.inr st') ∧
        Searching g lo hi Good st' ∧ st'.a = d ∧ st'.b = st.a ∧ st'.c = st.c) ∨
      (stop (min st.a st.b) (max st.a st.b) = false ∧ g d < g st.c ∧ ∃ st',
        gssRound evaluate (some report) param (.fin (g lo)) (.fin (g hi)) st = .ok (.inr st') ∧
        Searching g lo hi Good st' ∧ st'.a = st.c ∧ st'.b = st.b ∧ st'.c = d) := by
  subst hd
  obtain ⟨hdata, hin, hheld⟩ := hst
  obtain ⟨data, fd, st', hgood, hshows, hst', hround⟩ :=
    h.gssRound_cases hdata hin hparam (.fin (g lo)) (.fin (g hi))
  obtain rfl := hg _ _ _ hshows
  have hgood' : Good st'.data := by rw [hst']; exact hgood
  have hheld' : HoldsInterior g lo hi { st with k := st.k + 1 } :=
    ⟨hheld.min_eq, hheld.fmin_eq, hheld.fc_eq, hheld.lt_lo, hheld.lt_hi⟩
  obtain ⟨hmin, hfmin⟩ := hheld'.observe data (nextPoint st.b st.c)
  rw [← hst'] at hmin hfmin
  rcases hround with ⟨hstop, hrun⟩ | ⟨hstop, hworse, hrun⟩ | ⟨hstop, hfa, hfb, hkeep, hrun⟩ |
    ⟨hstop, hfa, hfb, hmove, hrun⟩
  · refine Or.inl ⟨hstop, _, hrun, rfl, congrArg some hmin, hgood', ?_⟩
    rw [hst']
    exact hshows
  · rw [Double.fin_le_fin, Double.fin_le_fin] at hworse
    exact Or.inr (Or.inl ⟨hstop, hworse, _, hrun, rfl, hgood'⟩)
  · rw [hheld.fc_eq, Double.fin_le_fin] at hkeep
    rw [if_neg hkeep.not_gt] at hmin hfmin
    have hc : st'.c = st.c := by rw [hst']; rfl
    have hfc : st'.fc = .fin (g st.c) := by rw [hst']; exact hheld.fc_eq
    obtain ⟨hnext, -⟩ := hin.keep { st' with b := st.a, a := nextPoint st.b st.c } rfl rfl hc
    have hholds : HoldsInterior g lo hi { st' with b := st.a, a := nextPoint st.b st.c } :=
      ⟨by rw [hmin, hc], by rw [hfmin, hc], by rw [hfc, hc], by rw [hc]; exact hheld.lt_lo,
        by rw [hc]; exact hheld.lt_hi⟩
    rw [Double.fin_le_fin] at hfa hfb
    exact Or.inr (Or.inr (Or.inl
      ⟨hstop, not_or.mpr ⟨hfa, hfb⟩, hkeep, _, hrun, ⟨hgood', hnext, hholds⟩, rfl, rfl, hc⟩))
  · rw [hheld.fc_eq, Double.fin_le_fin, not_le] at hmove
    rw [if_pos hmove] at hmin hfmin
    rw [Double.fin_le_fin, not_le] at hfa hfb
    have hb : st'.b = st.b := by rw [hst']; rfl
    obtain ⟨hnext, -⟩ := hin.move
      { st' with a := st.c, c := nextPoint st.b st.c, fc := .fin (g (nextPoint st.b st.c)) } rfl
      hb rfl
    have hholds : HoldsInterior g lo hi
        { st' with a := st.c, c := nextPoint st.b st.c, fc := .fin (g (nextPoint st.b st.c)) } :=
      ⟨hmin, hfmin, rfl, hfa, hfb⟩
    exact Or.inr (Or.inr (Or.inr ⟨hstop, hmove, _, hrun, ⟨hgood', hnext, hholds⟩, rfl, hb, rfl⟩))

theorem SearchesRange.gss_searching (h : SearchesRange evaluate report lo hi Good Shows stop)
    {g : K → K} (hg : ∀ x fx data, Shows x fx data → fx = .fin (g x)) (hle : lo ≤ hi)
    (hgo : stop lo hi = false) {param : GssParameter K} (hparam : param.onError = .stop) {data : σ}
    (hfirst : ∃ d f, evaluate data lo = .ok (d, f) ∧ Good d ∧ Shows lo f d) {c : K}
    (hc : lo + resphi * (hi - lo) = c) :
    ((g lo ≤ g c ∨ g hi ≤ g c) ∧ ∃ out, gss evaluate (some report) param lo hi data = .ok out ∧
        out.status = .failure ∧ Good out.data) ∨
      ∃ st, Searching g lo hi Good st ∧ st.a = lo ∧ st.b = hi ∧ st.c = c ∧
        gss evaluate (some report) param lo hi data =
          gssLoop evaluate (some report) param (.fin (g lo)) (.fin (g hi))
            (gssRounds param lo hi) st := by
  subst hc
  obtain ⟨d₀, d₁, d₂, d₃, f₀, fa, fb, fc, h₀, h₁, h₂, h₃, hgood, hgss⟩ :=
    h.gss_start hle hgo hparam hfirst
  obtain rfl := hg _ _ _ h₀
  obtain rfl := hg _ _ _ h₁
  obtain rfl := hg _ _ _ h₂
  obtain rfl := hg _ _ _ h₃
  by_cases hworse : g lo ≤ g (lo + resphi * (hi - lo)) ∨ g hi ≤ g (lo + resphi * (hi - lo))
  · rw [if_pos (by simpa using hworse)] at hgss
    exact Or.inl ⟨hworse, _, hgss, rfl, hgood⟩
  · rw [if_neg (by simpa using hworse)] at hgss
    obtain ⟨hlo, hhi⟩ := not_or.mp hworse
    exact Or.inr ⟨_, ⟨hgood, bracketIn_start hle .., holdsInterior_start d₀ d₁ d₂ d₃ hlo hhi⟩, rfl,
      rfl, rfl, hgss⟩

section Followed
variable {g : K → K} {param : GssParameter K} {st : GssState σ K} {d : K}

/-- A round whose point is worse than the interior point, but better than both ends. -/
theorem Searching.keep_round (hst : Searching g lo hi Good st)
    (h : SearchesRange evaluate report lo hi Good Shows stop)
    (hg : ∀ x fx data, Shows x fx data → fx = .fin (g x)) (hparam : param.onError = .stop)
    (hd : nextPoint st.b st.c = d) (hlong : param.epsilon < |st.a - st.b|)
    (hgo : stop (min st.a st.b) (max st.a st.b) = false) (hlo : g d < g lo) (hhi : g d < g hi)
    (hkeep : g st.c ≤ g d) :
    ∃ st', Searching g lo hi Good st' ∧ st'.a = d ∧ st'.b = st.a ∧ st'.c = st.c ∧ ∀ rounds,
      gssLoop evaluate (some report) param (.fin (g lo)) (.fin (g hi)) (rounds + 1) st =
        gssLoop evaluate (some report) param (.fin (g lo)) (.fin (g hi)) rounds st' := by
  rcases hst.round_cases h hg hparam hd with ⟨hstop, -⟩ | ⟨-, hworse, -⟩ |
    ⟨-, -, -, st', hrun, hst', ha, hb, hc⟩ | ⟨-, hmove, -⟩
  · exact absurd hstop (by rw [hgo]; exact Bool.false_ne_true)
  · exact absurd hworse (not_or.mpr ⟨hlo.not_ge, hhi.not_ge⟩)
  · refine ⟨st', hst', ha, hb, hc, ?_⟩
    intro rounds
    rw [gssLoop_succ, if_pos hlong, hrun]
    rfl
  · exact absurd hmove hkeep.not_gt

/-- A round whose point is better than the interior point. -/
theorem Searching.move_round (hst : Searching g lo hi Good st)
    (h : SearchesRange evaluate report lo hi Good Shows stop)
    (hg : ∀ x fx data, Shows x fx data → fx = .fin (g x)) (hparam : param.onError = .stop)
    (hd : nextPoint st.b st.c = d) (hlong : param.epsilon < |st.a - st.b|)
    (hgo : stop (min st.a st.b) (max st.a st.b) = false) (hmove : g d < g st.c) :
    ∃ st', Searching g lo hi Good st' ∧ st'.a = st.c ∧ st'.b = st.b ∧ st'.c = d ∧ ∀ rounds,
      gssLoop evaluate (some report) param (.fin (g lo)) (.fin (g hi)) (rounds + 1) st =
        gssLoop evaluate (some report) param (.fin (g lo)) (.fin (g hi)) rounds st' := by
  have hlo := hmove.trans hst.holds.lt_lo
  have hhi := hmove.trans hst.holds.lt_hi
  rcases hst.round_cases h hg hparam hd with ⟨hstop, -⟩ | ⟨-, hworse, -⟩ | ⟨-, -, hkeep, -⟩ |
    ⟨-, -, st', hrun, hst', ha, hb, hc⟩
  · exact absurd hstop (by rw [hgo]; exact Bool.false_ne_true)
  · exact absurd hworse (not_or.mpr ⟨hlo.not_ge, hhi.not_ge⟩)
  · exact absurd hmove hkeep.not_gt
  · refine ⟨st', hst', ha, hb, hc, ?_⟩
    intro rounds
    rw [gssLoop_succ, if_pos hlong, hrun]
    rfl

/-- The round in which the callback ends the search. -/
theorem Searching.last_round (hst : Searching g lo hi Good st)
    (h : SearchesRange evaluate report lo hi Good Shows stop)
    (hg : ∀ x fx data, Shows x fx data → fx = .fin (g x)) (hparam : param.onError = .stop)
    (hd : nextPoint st.b st.c = d) (hlong : param.epsilon < |st.a - st.b|)
    (hstop : stop (min st.a st.b) (max st.a st.b) = true) :
    ∃ out, EndsAt g Good Shows (if g d < g st.c then d else st.c) d out ∧ ∀ rounds,
      gssLoop evaluate (some report) param (.fin (g lo)) (.fin (g hi)) (rounds + 1) st =
        .ok out := by
  rcases hst.round_cases h hg hparam hd with ⟨-, out, hrun, hend⟩ | ⟨hgo, -⟩ | ⟨hgo, -⟩ | ⟨hgo, -⟩
  · refine ⟨out, hend, ?_⟩
    intro rounds
    rw [gssLoop_succ, if_pos hlong, hrun]
    rfl
  all_goals exact absurd hstop (by rw [hgo]; exact Bool.false_ne_true)

end Followed

end Range

end Plfit
