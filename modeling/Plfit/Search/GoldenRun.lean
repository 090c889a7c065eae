import Mathlib
import Plfit.Search.GoldenBracket

/-! # Golden section searches with their history

The history of a call has the points that are evaluated, the states at the head of the loop, and
whether the callback has ended the search. Forgetting the history gives the search itself, and an
invariant of its rounds that may speak of all points so far holds at every head.
-/
namespace Plfit
open ExactArithmetic

structure GssRun (σ K : Type) where
  outcome : GssOutcome σ K
  cancelled : Bool
  heads : List (GssState σ K)
  points : List K

section Run
variable {σ K : Type} [Field K] [LinearOrder K]

def gssRunLoop (evaluate : GssEvaluate σ K) (progress : Option (GssProgress σ K))
    (param : GssParameter K) (fa fb : Double K) : ℕ → GssState σ K → Exec (GssRun σ K)
  | 0, _ => .error .endless
  | rounds + 1, st =>
    if param.epsilon < |st.a - st.b| then do
      let d := nextPoint st.b st.c
      let (st', fd, stopped) ← gssEvaluate evaluate progress { st with k := st.k + 1 } d
      match afterEvaluation param fa fb st' d fd stopped with
      | .inl out => return { outcome := out, cancelled := stopped, heads := [st], points := [d] }
      | .inr next => do
        let run ← gssRunLoop evaluate progress param fa fb rounds next
        return { run with heads := st :: run.heads, points := d :: run.points }
    else do
      let c := (st.a + st.b) / 2
      let (st', _, stopped) ← gssEvaluate evaluate progress { st with c := c, k := st.k + 1 } c
      return { outcome := st'.terminate, cancelled := stopped, heads := [st], points := [c] }

def gssRun [FloorRing K] (evaluate : GssEvaluate σ K) (progress : Option (GssProgress σ K))
    (param : GssParameter K) (a b : K) (data : σ) : Exec (GssRun σ K) := do
  let (a, b) := if b < a then (b, a) else (a, b)
  let (data, fmin) ← evaluate data a
  let c := a + resphi * (b - a)
  let st : GssState σ K :=
    { data := data, a := a, b := b, c := c, min := a, fmin := fmin, fc := fmin, k := 0,
      warning := false }
  let (st, fa, stopped) ← gssEvaluate evaluate progress st a
  if stopped then
    return { outcome := st.terminate, cancelled := true, heads := [], points := [a, a] }
  let (st, fb, stopped) ← gssEvaluate evaluate progress st b
  if stopped then
    return { outcome := st.terminate, cancelled := true, heads := [], points := [a, a, b] }
  let (st, fc, stopped) ← gssEvaluate evaluate progress st c
  if stopped then
    return { outcome := st.terminate, cancelled := true, heads := [], points := [a, a, b, c] }
  if (fa ≤ fc ∨ fb ≤ fc) ∧ param.onError = .stop then
    return { outcome := st.fail, cancelled := false, heads := [], points := [a, a, b, c] }
  let st := if fa ≤ fc ∨ fb ≤ fc then { st with warning := true } else st
  let run ← gssRunLoop evaluate progress param fa fb (gssRounds param a b) { st with fc := fc }
  return { run with points := [a, a, b, c] ++ run.points }

variable {evaluate : GssEvaluate σ K} {progress : Option (GssProgress σ K)}
variable {param : GssParameter K} {fa fb : Double K}

theorem gssLoop_eq_map [FloorRing K] (rounds : ℕ) (st : GssState σ K) :
    gssLoop evaluate progress param fa fb rounds st =
      (gssRunLoop evaluate progress param fa fb rounds st).map GssRun.outcome := by
  induction rounds generalizing st with
  | zero => rfl
  | succ rounds ih =>
    rw [gssLoop_succ, gssRunLoop]
    split
    · cases hrun : gssEvaluate evaluate progress { st with k := st.k + 1 }
          (nextPoint st.b st.c) with
      | error stop => simp only [gssRound, hrun, bind, Except.bind, Except.map]
      | ok p =>
        obtain ⟨st', fd, stopped⟩ := p
        simp only [gssRound_eq hrun, hrun, bind, Except.bind]
        cases afterEvaluation param fa fb st' (nextPoint st.b st.c) fd stopped with
        | inl out => rfl
        | inr next =>
          simp only [ih next]
          cases gssRunLoop evaluate progress param fa fb rounds next <;> rfl
    · unfold gssFinish
      dsimp only
      cases gssEvaluate evaluate progress { st with c := (st.a + st.b) / 2, k := st.k + 1 }
        ((st.a + st.b) / 2) <;> rfl

/-- The search is what is left of a run without its history. -/
theorem gss_eq_map [FloorRing K] (a b : K) (data : σ) :
    gss evaluate progress param a b data =
      (gssRun evaluate progress param a b data).map GssRun.outcome := by
  unfold gss gssRun
  generalize (if b < a then (b, a) else (a, b)) = ends
  obtain ⟨a, b⟩ := ends
  dsimp only
  cases evaluate data a with
  | error stop => rfl
  | ok first =>
    simp only [bind, Except.bind]
    cases gssEvaluate evaluate progress _ a with
    | error stop => rfl
    | ok left =>
      obtain ⟨st₁, fa, stopped⟩ := left
      cases stopped with
      | true => rfl
      | false =>
        simp only [Bool.false_eq_true, if_false]
        cases gssEvaluate evaluate progress st₁ b with
        | error stop => rfl
        | ok right =>
          obtain ⟨st₂, fb, stopped⟩ := right
          cases stopped with
          | true => rfl
          | false =>
            simp only [Bool.false_eq_true, if_false]
            cases gssEvaluate evaluate progress st₂ _ with
            | error stop => rfl
            | ok inner =>
              obtain ⟨st₃, fc, stopped⟩ := inner
              cases stopped with
              | true => rfl
              | false =>
                simp only [Bool.false_eq_true, if_false]
                split
                · rfl
                · simp only [gssLoop_eq_map]
                  cases gssRunLoop evaluate progress param fa fb (gssRounds param a b) _ <;> rfl

/-- What a successful evaluation does. -/
structure Evaluates (evaluate : GssEvaluate σ K) (progress : Option (GssProgress σ K))
    (st : GssState σ K) (x : K) (st' : GssState σ K) (fx : Double K) (stopped : Bool) : Prop where
  value : ∃ data, evaluate st.data x = .ok (data, fx) ∧ st' = st.observe data x fx
  report : stopped = true → ∃ report, progress = some report ∧
    report st'.data x fx st'.min st'.fmin (min st.a st.b) (max st.a st.b) st.k = .ok true

omit [Field K] in
theorem evaluates_of_ok {st st' : GssState σ K} {x : K} {fx : Double K} {stopped : Bool}
    (h : gssEvaluate evaluate progress st x = .ok (st', fx, stopped)) :
    Evaluates evaluate progress st x st' fx stopped := by
  unfold gssEvaluate at h
  obtain ⟨⟨data, fy⟩, hrun, h⟩ := bind_eq_ok.mp h
  dsimp only at h
  have hstate : (if fy < st.fmin then { st with data := data, min := x, fmin := fy }
      else { st with data := data } : GssState σ K) = st.observe data x fy := by
    unfold GssState.observe
    split <;> rfl
  rw [hstate] at h
  cases progress with
  | none =>
    cases h
    exact ⟨⟨data, hrun, rfl⟩, nofun⟩
  | some report =>
    dsimp only at h
    obtain ⟨answer, hreport, h⟩ := bind_eq_ok.mp h
    cases h
    refine ⟨⟨data, hrun, rfl⟩, ?_⟩
    rintro rfl
    obtain ⟨hmin, hmax⟩ := ite_lt_eq_min_max st.a st.b
    rw [← hmin, ← hmax]
    exact ⟨report, rfl, hreport⟩

/-- The next bracket, and what the state keeps for it. -/
structure NextBracket (st : GssState σ K) (d : K) (fd : Double K) (next : GssState σ K) : Prop where
  data : next.data = st.data
  min : next.min = st.min
  fmin : next.fmin = st.fmin
  bracket : (st.fc ≤ fd ∧ next.a = d ∧ next.b = st.a ∧ next.c = st.c ∧ next.fc = st.fc) ∨
    (¬ st.fc ≤ fd ∧ next.a = st.c ∧ next.b = st.b ∧ next.c = d ∧ next.fc = fd)

omit [Field K] in
theorem afterEvaluation_eq_inl {st : GssState σ K} {d : K} {fd : Double K} {stopped : Bool}
    {out : GssOutcome σ K} (h : afterEvaluation param fa fb st d fd stopped = .inl out) :
    (stopped = true ∧ out = st.terminate) ∨
      (stopped = false ∧ (fa ≤ fd ∨ fb ≤ fd) ∧ param.onError = .stop ∧ out = st.fail) := by
  unfold afterEvaluation at h
  cases stopped with
  | true =>
    cases h
    exact Or.inl ⟨rfl, rfl⟩
  | false =>
    by_cases hreject : (fa ≤ fd ∨ fb ≤ fd) ∧ param.onError = .stop
    · rw [if_neg Bool.false_ne_true, if_pos hreject] at h
      cases h
      exact Or.inr ⟨rfl, hreject.1, hreject.2, rfl⟩
    · rw [if_neg Bool.false_ne_true, if_neg hreject] at h
      dsimp only at h
      split_ifs at h

omit [Field K] in
theorem afterEvaluation_eq_inr {st next : GssState σ K} {d : K} {fd : Double K} {stopped : Bool}
    (h : afterEvaluation param fa fb st d fd stopped = .inr next) :
    stopped = false ∧ (param.onError = .stop → ¬ (fa ≤ fd ∨ fb ≤ fd)) ∧
      NextBracket st d fd next := by
  unfold afterEvaluation at h
  cases stopped with
  | true => cases h
  | false =>
    by_cases hreject : (fa ≤ fd ∨ fb ≤ fd) ∧ param.onError = .stop
    · rw [if_neg Bool.false_ne_true, if_pos hreject] at h
      cases h
    · rw [if_neg Bool.false_ne_true, if_neg hreject] at h
      refine ⟨rfl, fun hstop hworse => hreject ⟨hworse, hstop⟩, ?_⟩
      obtain ⟨warning, hwarned⟩ : ∃ warning, (if fa ≤ fd ∨ fb ≤ fd then
          { st with warning := true } else st : GssState σ K) = { st with warning := warning } := by
        split
        · exact ⟨true, rfl⟩
        · exact ⟨st.warning, rfl⟩
      rw [hwarned] at h
      dsimp only at h
      by_cases hkeep : st.fc ≤ fd
      · rw [if_pos hkeep] at h
        cases h
        exact ⟨rfl, rfl, rfl, Or.inl ⟨hkeep, rfl, rfl, rfl, rfl⟩⟩
      · rw [if_neg hkeep] at h
        cases h
        exact ⟨rfl, rfl, rfl, Or.inr ⟨hkeep, rfl, rfl, rfl, rfl⟩⟩

def Follows (evaluate : GssEvaluate σ K) (progress : Option (GssProgress σ K))
    (param : GssParameter K) (st next : GssState σ K) : Prop :=
  param.epsilon < |st.a - st.b| ∧ ∃ st' fd,
    Evaluates evaluate progress { st with k := st.k + 1 } (nextPoint st.b st.c) st' fd false ∧
      NextBracket st' (nextPoint st.b st.c) fd next

/-- An invariant of the rounds that may speak of all points so far. -/
structure RunRule (evaluate : GssEvaluate σ K) (progress : Option (GssProgress σ K))
    (param : GssParameter K) (fa fb : Double K) (I : List K → GssState σ K → Prop)
    (Q : List K → GssOutcome σ K → Bool → Prop) : Prop where
  cancel : ∀ past st st' fd, I past st → param.epsilon < |st.a - st.b| →
    Evaluates evaluate progress { st with k := st.k + 1 } (nextPoint st.b st.c) st' fd true →
      Q (past ++ [nextPoint st.b st.c]) st'.terminate true
  reject : ∀ past st st' fd, I past st → param.epsilon < |st.a - st.b| →
    Evaluates evaluate progress { st with k := st.k + 1 } (nextPoint st.b st.c) st' fd false →
      fa ≤ fd ∨ fb ≤ fd → param.onError = .stop →
      Q (past ++ [nextPoint st.b st.c]) st'.fail false
  round : ∀ past st st' fd next, I past st → param.epsilon < |st.a - st.b| →
    Evaluates evaluate progress { st with k := st.k + 1 } (nextPoint st.b st.c) st' fd false →
      (param.onError = .stop → ¬ (fa ≤ fd ∨ fb ≤ fd)) →
      NextBracket st' (nextPoint st.b st.c) fd next → I (past ++ [nextPoint st.b st.c]) next
  finish : ∀ past st st' fx stopped, I past st → |st.a - st.b| ≤ param.epsilon →
    Evaluates evaluate progress { st with c := (st.a + st.b) / 2, k := st.k + 1 }
      ((st.a + st.b) / 2) st' fx stopped →
      Q (past ++ [(st.a + st.b) / 2]) st'.terminate stopped

/-- The invariant holds at every head of a run, and the heads follow each other. -/
theorem RunRule.loop {I : List K → GssState σ K → Prop}
    {Q : List K → GssOutcome σ K → Bool → Prop} (h : RunRule evaluate progress param fa fb I Q)
    {rounds : ℕ} {past : List K} {st : GssState σ K} {run : GssRun σ K} (hI : I past st)
    (hrun : gssRunLoop evaluate progress param fa fb rounds st = .ok run) :
    Q (past ++ run.points) run.outcome run.cancelled ∧ run.heads.head? = some st ∧
      (∀ s ∈ run.heads, ∃ past, I past s) ∧
      run.heads.IsChain (Follows evaluate progress param) := by
  induction rounds generalizing past st run with
  | zero => cases hrun
  | succ rounds ih =>
    rw [gssRunLoop] at hrun
    by_cases hlong : param.epsilon < |st.a - st.b|
    · rw [if_pos hlong] at hrun
      obtain ⟨⟨st', fd, stopped⟩, hvalue, hrun⟩ := bind_eq_ok.mp hrun
      have heval := evaluates_of_ok hvalue
      dsimp only at hrun
      cases hafter : afterEvaluation param fa fb st' (nextPoint st.b st.c) fd stopped with
      | inl out =>
        rw [hafter] at hrun
        cases hrun
        refine ⟨?_, rfl, ?_, List.isChain_singleton st⟩
        · rcases afterEvaluation_eq_inl hafter with ⟨rfl, rfl⟩ | ⟨rfl, hworse, hstop, rfl⟩
          · exact h.cancel past st st' fd hI hlong heval
          · exact h.reject past st st' fd hI hlong heval hworse hstop
        · intro s hs
          rw [List.mem_singleton.mp hs]
          exact ⟨past, hI⟩
      | inr next =>
        rw [hafter] at hrun
        obtain ⟨rest, hrest, hrun⟩ := bind_eq_ok.mp hrun
        cases hrun
        obtain ⟨rfl, hbetter, hnext⟩ := afterEvaluation_eq_inr hafter
        have hI' := h.round past st st' fd next hI hlong heval hbetter hnext
        obtain ⟨hQ, hhead, hheads, hchain⟩ := ih hI' hrest
        refine ⟨?_, rfl, ?_, ?_⟩
        · rwa [List.append_assoc] at hQ
        · intro s hs
          rcases List.mem_cons.mp hs with rfl | hs
          · exact ⟨past, hI⟩
          · exact hheads s hs
        · refine List.IsChain.cons hchain ?_
          intro s hs
          rw [hhead, Option.mem_some_iff] at hs
          subst hs
          exact ⟨hlong, st', fd, heval, hnext⟩
    · rw [if_neg hlong] at hrun
      obtain ⟨⟨st', fx, stopped⟩, hvalue, hrun⟩ := bind_eq_ok.mp hrun
      cases hrun
      refine ⟨?_, rfl, ?_, List.isChain_singleton st⟩
      · exact h.finish past st st' fx stopped hI (not_lt.mp hlong) (evaluates_of_ok hvalue)
      · intro s hs
        rw [List.mem_singleton.mp hs]
        exact ⟨past, hI⟩

def GssState.initial (lo hi : K) (data : σ) (f : Double K) : GssState σ K where
  data := data
  a := lo
  b := hi
  c := lo + resphi * (hi - lo)
  min := lo
  fmin := f
  fc := f
  k := 0
  warning := false

structure AtStart (lo hi : K) (st : GssState σ K) : Prop where
  a : st.a = lo
  b : st.b = hi
  c : st.c = lo + resphi * (hi - lo)

theorem AtStart.observe {lo hi : K} {st st' : GssState σ K} (h : AtStart lo hi st) {x : K}
    {fx : Double K} {stopped : Bool} (heval : Evaluates evaluate progress st x st' fx stopped) :
    AtStart lo hi st' := by
  obtain ⟨data, -, rfl⟩ := heval.value
  exact ⟨h.a, h.b, h.c⟩

theorem AtStart.bracketIn [IsStrictOrderedRing K] {lo hi : K} (hle : lo ≤ hi) {st : GssState σ K}
    (h : AtStart lo hi st) (warning : Bool) (fc : Double K) :
    BracketIn lo hi { st with warning := warning, fc := fc } := by
  have hlo : lo ∈ Set.Icc lo hi := Set.left_mem_Icc.mpr hle
  have hhi : hi ∈ Set.Icc lo hi := Set.right_mem_Icc.mpr hle
  refine ⟨?_, ?_, ?_, ?_⟩
  · rw [h.a]
    exact hlo
  · rw [h.b]
    exact hhi
  · rw [h.c]
    exact nextPoint_mem hhi hlo
  · rw [h.a, h.b, h.c]
    exact atGoldenPoint_start lo hi

/-- A run keeps `P` in front of the loop and `I` inside it. -/
theorem gssRun_rule [FloorRing K] {P : List K → GssState σ K → Prop} {V : K → Double K → Prop}
    {I : List K → GssState σ K → Prop} {Q : List K → GssOutcome σ K → Bool → Prop} {a b lo hi : K}
    (hlo : min a b = lo) (hhi : max a b = hi) {data : σ} {run : GssRun σ K}
    (hfirst : ∀ d f, evaluate data lo = .ok (d, f) → P [lo] (GssState.initial lo hi d f))
    (hstep : ∀ past st x st' fx stopped, AtStart lo hi st → P past st →
      x = lo ∨ x = hi ∨ x = lo + resphi * (hi - lo) →
      Evaluates evaluate progress st x st' fx stopped → P (past ++ [x]) st' ∧ V x fx)
    (hcancel : ∀ past st x st' fx, AtStart lo hi st → P past st →
      Evaluates evaluate progress st x st' fx true → P (past ++ [x]) st' →
      Q (past ++ [x]) st'.terminate true)
    (hreject : ∀ past st, P past st → param.onError = .stop → Q past st.fail false)
    (henter : ∀ past st fa fb fc warning, AtStart lo hi st → P past st →
      (∀ x, x = lo ∨ x = hi ∨ x = lo + resphi * (hi - lo) → x ∈ past) → V lo fa → V hi fb →
      V (lo + resphi * (hi - lo)) fc → (param.onError = .stop → ¬ (fa ≤ fc ∨ fb ≤ fc)) →
      RunRule evaluate progress param fa fb I Q ∧ I past { st with warning := warning, fc := fc })
    (h : gssRun evaluate progress param a b data = .ok run) :
    Q run.points run.outcome run.cancelled ∧ (∀ s ∈ run.heads, ∃ past, I past s) ∧
      (∀ s ∈ run.heads.head?, AtStart lo hi s) ∧
      run.heads.IsChain (Follows evaluate progress param) := by
  have hends : (if b < a then (b, a) else (a, b)) = (lo, hi) := by
    subst hlo hhi
    rcases lt_or_ge b a with hlt | hge
    · rw [if_pos hlt, min_eq_right hlt.le, max_eq_left hlt.le]
    · rw [if_neg hge.not_gt, min_eq_left hge, max_eq_right hge]
  have hnone : ∀ (points : List K) (out : GssOutcome σ K) (cancelled : Bool),
      Q points out cancelled →
      Q points out cancelled ∧ (∀ s ∈ ([] : List (GssState σ K)), ∃ past, I past s) ∧
        (∀ s ∈ ([] : List (GssState σ K)).head?, AtStart lo hi s) ∧
        ([] : List (GssState σ K)).IsChain (Follows evaluate progress param) := by
    intro points out cancelled hQ
    exact ⟨hQ, nofun, nofun, List.isChain_nil⟩
  unfold gssRun at h
  rw [hends] at h
  dsimp only at h
  obtain ⟨⟨d, f⟩, hvalue, h⟩ := bind_eq_ok.mp h
  have hstart : AtStart lo hi (GssState.initial lo hi d f) := ⟨rfl, rfl, rfl⟩
  have hP := hfirst d f hvalue
  -- the evaluation at `lo`
  obtain ⟨⟨st₁, fa, stopped⟩, hleft, h⟩ := bind_eq_ok.mp h
  have heval := evaluates_of_ok hleft
  obtain ⟨hP₁, hfa⟩ := hstep _ _ _ _ _ _ hstart hP (Or.inl rfl) heval
  have hstart₁ := hstart.observe heval
  cases stopped with
  | true =>
    cases h
    exact hnone _ _ _ (hcancel _ _ _ _ _ hstart hP heval hP₁)
  | false =>
  -- the evaluation at `hi`
  obtain ⟨⟨st₂, fb, stopped⟩, hright, h⟩ := bind_eq_ok.mp h
  have heval := evaluates_of_ok hright
  obtain ⟨hP₂, hfb⟩ := hstep _ _ _ _ _ _ hstart₁ hP₁ (Or.inr (Or.inl rfl)) heval
  have hstart₂ := hstart₁.observe heval
  cases stopped with
  | true =>
    cases h
    exact hnone _ _ _ (hcancel _ _ _ _ _ hstart₁ hP₁ heval hP₂)
  | false =>
  -- the evaluation at the interior point
  obtain ⟨⟨st₃, fc, stopped⟩, hinner, h⟩ := bind_eq_ok.mp h
  have heval := evaluates_of_ok hinner
  obtain ⟨hP₃, hfc⟩ := hstep _ _ _ _ _ _ hstart₂ hP₂ (Or.inr (Or.inr rfl)) heval
  have hstart₃ := hstart₂.observe heval
  cases stopped with
  | true =>
    cases h
    exact hnone _ _ _ (hcancel _ _ _ _ _ hstart₂ hP₂ heval hP₃)
  | false =>
  dsimp only at h
  rw [if_neg Bool.false_ne_true] at h
  by_cases hworse : (fa ≤ fc ∨ fb ≤ fc) ∧ param.onError = .stop
  · rw [if_pos hworse] at h
    cases h
    exact hnone _ _ _ (hreject _ _ hP₃ hworse.2)
  · rw [if_neg hworse] at h
    have hbetter : param.onError = .stop → ¬ (fa ≤ fc ∨ fb ≤ fc) :=
      fun hstop hle => hworse ⟨hle, hstop⟩
    obtain ⟨rest, hrest, h⟩ := bind_eq_ok.mp h
    cases h
    obtain ⟨warning, hwarned⟩ : ∃ warning, (if fa ≤ fc ∨ fb ≤ fc then
        { st₃ with warning := true } else st₃ : GssState σ K) = { st₃ with warning := warning } := by
      split
      · exact ⟨true, rfl⟩
      · exact ⟨st₃.warning, rfl⟩
    rw [hwarned] at hrest
    have hevaluated : ∀ x, x = lo ∨ x = hi ∨ x = lo + resphi * (hi - lo) →
        x ∈ [lo] ++ [lo] ++ [hi] ++ [lo + resphi * (hi - lo)] := by
      rintro x (rfl | rfl | rfl) <;> simp
    obtain ⟨hrule, hI⟩ := henter _ _ _ _ _ warning hstart₃ hP₃ hevaluated hfa hfb hfc hbetter
    obtain ⟨hQ, hhead, hheads, hchain⟩ := hrule.loop hI hrest
    refine ⟨hQ, hheads, ?_, hchain⟩
    intro s hs
    rw [hhead, Option.mem_some_iff] at hs
    subst hs
    exact ⟨hstart₃.a, hstart₃.b, hstart₃.c⟩

/-- Without a callback nobody cancels a run, and with warnings only it succeeds. -/
theorem gssRun_unobserved [FloorRing K] {a b : K} {data : σ} {run : GssRun σ K}
    (h : gssRun evaluate none param a b data = .ok run) :
    run.cancelled = false ∧ (param.onError = .warn → run.outcome.status = .success) := by
  have hgo : ∀ {st st' : GssState σ K} {x : K} {fx : Double K},
      ¬ Evaluates evaluate none st x st' fx true := by
    intro st st' x fx heval
    obtain ⟨_, hnone, -⟩ := heval.report rfl
    cases hnone
  refine (gssRun_rule (P := fun _ _ => True) (V := fun _ _ => True) (I := fun _ _ => True)
    (Q := fun _ out cancelled => cancelled = false ∧ (param.onError = .warn → out.status = .success))
    rfl rfl ?_ ?_ ?_ ?_ ?_ h).1
  · exact fun _ _ _ => trivial
  · exact fun _ _ _ _ _ _ _ _ _ _ => ⟨trivial, trivial⟩
  · exact fun _ _ _ _ _ _ _ heval _ => absurd heval hgo
  · exact fun _ st _ hstop => ⟨rfl, fun hwarn => by rw [hstop] at hwarn; cases hwarn⟩
  · refine fun _ st fa fb fc warning _ _ _ _ _ _ _ => ⟨⟨?_, ?_, ?_, ?_⟩, trivial⟩
    · exact fun _ _ _ _ _ _ heval => absurd heval hgo
    · exact fun _ _ _ _ _ _ _ _ hstop => ⟨rfl, fun hwarn => by rw [hstop] at hwarn; cases hwarn⟩
    · exact fun _ _ _ _ _ _ _ _ _ _ => trivial
    · intro _ _ _ _ stopped _ _ heval
      cases stopped with
      | true => exact absurd heval hgo
      | false => exact ⟨rfl, fun _ => rfl⟩

end Run
end Plfit
