import Mathlib
import Plfit.Library.TwoRuns
import Plfit.Fit.RefittedData

/-! # The trials of an exact p-value

All trials of an exact p-value share one record, and the status of a refit is not looked at. A
refit that fails before it writes the record leaves the score of an earlier trial in it, and a
refit whose likelihood fails leaves the score that was refused.
-/
namespace Plfit
open ExactArithmetic SortedBlocks TwoRuns

section Trials
variable {K : Type} [Field K] [LinearOrder K]

/-- The data sets of the trials. A sampler that fails leaves samples of the trial before in
their places. -/
def drawTrials (resample : Resampler K) :
    ℕ → List (Double K) → Rng → Exec (List (List (Double K)) × Rng)
  | 0, _, rng => .ok ([], rng)
  | k + 1, ys, rng => do
    let (_, written, rng) ← resample rng
    let ys ← overwrite written ys
    let (datasets, rng) ← drawTrials resample k ys rng
    return (ys :: datasets, rng)

/-- The trials of a run: each data set, and the outcome that the comparison looks at. -/
def refitTrials (resample : Resampler K) (refit : Refit K) :
    ℕ → List (Double K) → PlfitResult K → Rng → Exec (List (List (Double K) × Outcome K) × Rng)
  | 0, _, _, rng => .ok ([], rng)
  | k + 1, ys, record, rng => do
    let (_, written, rng) ← resample rng
    let ys ← overwrite written ys
    let out ← refit ys record
    let (history, rng) ← refitTrials resample refit k ys out.result rng
    return ((ys, out) :: history, rng)

/-- A data set counts when a refit of its own succeeds with a larger score. -/
def refittedAbove (refit : Refit K) (fresh : PlfitResult K) (D : Double K)
    (ys : List (Double K)) : Bool :=
  match refit ys fresh with
  | .ok out => out.failure.isNone && D < out.result.D
  | .error _ => false

/-- The refit of a trial has succeeded, and the comparison looks at the score that a refit of the
data set of this very trial produces. -/
def OwnScore (refit : Refit K) (fresh : PlfitResult K) (trial : List (Double K) × Outcome K) :
    Prop :=
  trial.2.failure = none ∧ ∃ own, refit trial.1 fresh = .ok own ∧ own.failure = none ∧
    trial.2.result.D = own.result.D

/-- The score in the record after a refit: a failed estimation writes nothing. -/
def heldAfter (held : Double K) : Option (Rescored K) → Double K
  | none => held
  | some s => s.D

/-- What a refit does to the record, as far as its estimation tells. -/
structure Leaves (record : PlfitResult K) (out : Outcome K) (score : Option (Rescored K)) :
    Prop where
  held : out.result.D = heldAfter record.D score
  success : out.failure = none ↔ score.any (fun s => !s.refused) = true

/-- The estimation explains every refit, whatever the record holds. -/
def Explains (rescore : List (Double K) → Exec (Option (Rescored K))) (refit : Refit K) : Prop :=
  ∀ ys record, Related (Leaves record) (refit ys record) (rescore ys)

variable {resample : Resampler K} {refit : Refit K}
  {rescore : List (Double K) → Exec (Option (Rescored K))}

omit [Field K] in
/-- A run of the loop counts the larger scores of its trials. -/
theorem trialLoop_history {D : Double K} {k successes : ℕ} {ys : List (Double K)}
    {record : PlfitResult K} {rng rng' : Rng}
    (h : trialLoop resample refit D k ys record rng = .ok (successes, rng')) :
    ∃ history, refitTrials resample refit k ys record rng = .ok (history, rng') ∧
      successes = history.countP (fun trial => D < trial.2.result.D) := by
  induction k generalizing successes ys record rng with
  | zero =>
    cases h
    exact ⟨[], rfl, rfl⟩
  | succ k ih =>
    rw [trialLoop] at h
    obtain ⟨⟨status, written, rng₁⟩, hresample, h⟩ := bind_eq_ok.mp h
    obtain ⟨ys', hwrite, h⟩ := bind_eq_ok.mp h
    obtain ⟨out, hrefit, h⟩ := bind_eq_ok.mp h
    obtain ⟨⟨rest, rng₂⟩, hloop, h⟩ := bind_eq_ok.mp h
    cases h
    obtain ⟨history, hhistory, rfl⟩ := ih hloop
    refine ⟨(ys', out) :: history, ?_, ?_⟩
    · simp only [refitTrials, hresample, hwrite, hrefit, hhistory, bind, Except.bind]
      rfl
    · rw [List.countP_cons]
      split_ifs with hD hD <;> simp_all

omit [Field K] [LinearOrder K] in
/-- The data sets do not depend on the refits, and every outcome is that of a refit. -/
theorem drawTrials_of_refitTrials {k : ℕ} {ys : List (Double K)} {record : PlfitResult K}
    {rng rng' : Rng} {history : List (List (Double K) × Outcome K)}
    (h : refitTrials resample refit k ys record rng = .ok (history, rng')) :
    drawTrials resample k ys rng = .ok (history.map Prod.fst, rng') ∧
      ∀ trial ∈ history, ∃ held, refit trial.1 held = .ok trial.2 := by
  induction k generalizing ys record rng history with
  | zero =>
    cases h
    exact ⟨rfl, by simp⟩
  | succ k ih =>
    rw [refitTrials] at h
    obtain ⟨⟨status, written, rng₁⟩, hresample, h⟩ := bind_eq_ok.mp h
    obtain ⟨ys', hwrite, h⟩ := bind_eq_ok.mp h
    obtain ⟨out, hrefit, h⟩ := bind_eq_ok.mp h
    obtain ⟨⟨rest, rng₂⟩, hrest, h⟩ := bind_eq_ok.mp h
    cases h
    obtain ⟨hdraw, hmem⟩ := ih hrest
    refine ⟨?_, List.forall_mem_cons.mpr ⟨⟨record, hrefit⟩, hmem⟩⟩
    simp only [drawTrials, hresample, hwrite, hdraw, bind, Except.bind]
    rfl

omit [Field K] [LinearOrder K] in
/-- The comparison of a trial is made with a score of its own exactly when the estimation on its
data set finds something that the likelihood takes. -/
theorem ownScore_iff (hexplains : Explains rescore refit) (fresh : PlfitResult K)
    {trial : List (Double K) × Outcome K} {held : PlfitResult K}
    (hrun : refit trial.1 held = .ok trial.2) :
    OwnScore refit fresh trial ↔ RefitAccepted (rescore trial.1) := by
  obtain ⟨score, hscore, hleaves⟩ := (hexplains trial.1 held).of_ok hrun
  obtain ⟨own, hown, hleaves'⟩ := (hexplains trial.1 fresh).of_ok_right hscore
  rw [hscore, accepted_ok_iff, ← hleaves.success]
  constructor
  · exact fun h => h.1
  · intro hsuccess
    have htaken := hleaves.success.mp hsuccess
    refine ⟨hsuccess, own, hown, hleaves'.success.mpr htaken, ?_⟩
    rw [hleaves.held, hleaves'.held]
    cases score with
    | none => cases htaken
    | some s => rfl

omit [Field K] in
/-- A comparison with a score of its own counts the data set. -/
theorem OwnScore.refittedAbove_eq {fresh : PlfitResult K} {trial : List (Double K) × Outcome K}
    (h : OwnScore refit fresh trial) (D : Double K) :
    refittedAbove refit fresh D trial.1 = decide (D < trial.2.result.D) := by
  obtain ⟨-, own, hown, hnone, heq⟩ := h
  rw [refittedAbove, hown, heq]
  simp [hnone]

omit [Field K] in
/-- The trials run to their end when every data set can be drawn and estimated. -/
theorem trialLoop_ok (hexplains : Explains rescore refit) (D : Double K) {k : ℕ}
    {ys : List (Double K)} {rng rng' : Rng} {datasets : List (List (Double K))}
    {scores : List (Option (Rescored K))}
    (hdraw : drawTrials resample k ys rng = .ok (datasets, rng'))
    (hscores : datasets.mapM rescore = .ok scores) (record : PlfitResult K) :
    ∃ successes, trialLoop resample refit D k ys record rng = .ok (successes, rng') := by
  induction k generalizing ys rng datasets scores record with
  | zero =>
    cases hdraw
    exact ⟨0, rfl⟩
  | succ k ih =>
    rw [drawTrials] at hdraw
    obtain ⟨⟨status, written, rng₁⟩, hresample, hdraw⟩ := bind_eq_ok.mp hdraw
    obtain ⟨ys', hwrite, hdraw⟩ := bind_eq_ok.mp hdraw
    obtain ⟨⟨rest, rng₂⟩, hrest, hdraw⟩ := bind_eq_ok.mp hdraw
    cases hdraw
    rw [List.mapM_cons] at hscores
    obtain ⟨score, hscore, hscores⟩ := bind_eq_ok.mp hscores
    obtain ⟨later, hlater, -⟩ := bind_eq_ok.mp hscores
    obtain ⟨out, hrefit, -⟩ := (hexplains ys' record).of_ok_right hscore
    obtain ⟨successes, hloop⟩ := ih hrest hlater out.result
    refine ⟨if D < out.result.D then successes + 1 else successes, ?_⟩
    simp only [trialLoop, hresample, hwrite, hrefit, hloop, bind, Except.bind]
    rfl

end Trials

/-! ## The share of the successes -/

section Share
variable {K : Type} [Field K] [LinearOrder K] [IsStrictOrderedRing K] [FloorRing K]
  [MathLibrary K]

/-- The exact p-value as it is meant: the share of the trials whose data set was refitted
successfully with a larger score, whatever record a refit starts with. -/
def CountsRefits (precision : Double K) (n : ℕ) (resample : Resampler K) (refit : Refit K)
    (fresh : PlfitResult K) (D : Double K) (rng : Rng) (p : Double K) : Prop :=
  ∃ trials datasets rng', numTrials precision = .ok trials ∧
    drawTrials resample trials.toNat (List.replicate n 0) rng = .ok (datasets, rng') ∧
    p = ((datasets.countP (refittedAbove refit fresh D) : ℕ) : Double K) / (trials : Double K)

/-- The p-value is the one that is meant, and every comparison on the way to it is made with the
score that a successful refit of the same trial has produced. The first refit starts with
`record`. -/
structure CountsOwnRefits (precision : Double K) (n : ℕ) (resample : Resampler K)
    (refit : Refit K) (record fresh : PlfitResult K) (D : Double K) (rng : Rng) (p : Double K) :
    Prop where
  counts : CountsRefits precision n resample refit fresh D rng p
  own : ∀ trials history rng', numTrials precision = .ok trials →
    refitTrials resample refit trials.toNat (List.replicate n 0) record rng =
      .ok (history, rng') →
    ∀ trial ∈ history, OwnScore refit fresh trial

/-- Every data set of the calculation meets a condition. -/
def EveryDataSet (precision : Double K) (n : ℕ) (resample : Resampler K) (rng : Rng)
    (Fits : List (Double K) → Prop) : Prop :=
  ∀ trials datasets rng', numTrials precision = .ok trials →
    drawTrials resample trials.toNat (List.replicate n 0) rng = .ok (datasets, rng') →
    ∀ ys ∈ datasets, Fits ys

variable {E : Environment K} {resample : Resampler K} {refit : Refit K}
  {rescore : List (Double K) → Exec (Option (Rescored K))} {precision : Double K} {n : ℕ}
  {result : PlfitResult K} {rng : Rng} {out : Outcome K}

omit [IsStrictOrderedRing K] [MathLibrary K] in
theorem exactPValue_ok (hexplains : Explains rescore refit) {trials : ℤ} {rng' : Rng}
    {datasets : List (List (Double K))} {scores : List (Option (Rescored K))}
    (htrials : numTrials precision = .ok trials) (hpos : 0 < trials)
    (hdraw : drawTrials resample trials.toNat (List.replicate n 0) rng = .ok (datasets, rng'))
    (hscores : datasets.mapM rescore = .ok scores) (result : PlfitResult K) :
    ∃ out, exactPValue E precision n resample refit result rng = .ok out ∧ out.failure = none := by
  obtain ⟨successes, hloop⟩ :=
    trialLoop_ok hexplains result.D hdraw hscores E.syntheticResult
  have hrun : exactPValue E precision n resample refit result rng =
      .ok { failure := none
            result := { result with p := (successes : Double K) / (trials : Double K) }
            rng := rng' } := by
    simp only [exactPValue, htrials, if_neg hpos.not_ge, hloop, bind, Except.bind]
    rfl
  exact ⟨_, hrun, rfl⟩

omit [IsStrictOrderedRing K] [MathLibrary K] in
/-- A p-value is the share of the larger scores that the comparisons have seen. -/
theorem exactPValue_history
    (h : exactPValue E precision n resample refit result rng = .ok out)
    (hsuccess : out.failure = none) :
    ∃ trials history rng', numTrials precision = .ok trials ∧ 0 < trials ∧
      refitTrials resample refit trials.toNat (List.replicate n 0) E.syntheticResult rng =
        .ok (history, rng') ∧
      out.result.p = ((history.countP (fun trial => result.D < trial.2.result.D) : ℕ) : Double K) /
        (trials : Double K) := by
  obtain ⟨trials, htrials, h⟩ := bind_eq_ok.mp h
  split_ifs at h with hnone
  · cases h
    cases hsuccess
  · obtain ⟨⟨successes, rng'⟩, hloop, h⟩ := bind_eq_ok.mp h
    cases h
    obtain ⟨history, hhistory, rfl⟩ := trialLoop_history hloop
    exact ⟨trials, history, rng', htrials, not_le.mp hnone, hhistory, rfl⟩

omit [IsStrictOrderedRing K] [MathLibrary K] in
/-- The p-value is the one that is meant, with comparisons of own scores, when every data set is one
that is refitted successfully. -/
theorem exactPValue_counts_iff (hexplains : Explains rescore refit)
    {Fits : List (Double K) → Prop}
    (hfits : ∀ ys score, rescore ys = .ok score → (RefitAccepted (rescore ys) ↔ Fits ys))
    (fresh : PlfitResult K)
    (h : exactPValue E precision n resample refit result rng = .ok out)
    (hsuccess : out.failure = none) :
    CountsOwnRefits precision n resample refit E.syntheticResult fresh result.D rng
        out.result.p ↔
      EveryDataSet precision n resample rng Fits := by
  obtain ⟨trials, history, rng', htrials, -, hhistory, hp⟩ := exactPValue_history h hsuccess
  obtain ⟨hdraw, hmem⟩ := drawTrials_of_refitTrials hhistory
  have hown : ∀ trial ∈ history, (OwnScore refit fresh trial ↔ Fits trial.1) := by
    intro trial htrial
    obtain ⟨held, hrun⟩ := hmem trial htrial
    obtain ⟨score, hscore, -⟩ := (hexplains trial.1 held).of_ok hrun
    rw [ownScore_iff hexplains fresh hrun, hfits _ _ hscore]
  constructor
  · rintro hcounts trials' datasets rng'' htrials' hdraw' ys hys
    cases htrials.symm.trans htrials'
    cases hdraw.symm.trans hdraw'
    obtain ⟨trial, htrial, rfl⟩ := List.mem_map.mp hys
    exact (hown trial htrial).mp (hcounts.own _ _ _ htrials hhistory trial htrial)
  · intro hall
    have hscores : ∀ trial ∈ history, OwnScore refit fresh trial := by
      intro trial htrial
      exact (hown trial htrial).mpr
        (hall _ _ _ htrials hdraw _ (List.mem_map_of_mem htrial))
    refine ⟨⟨trials, _, rng', htrials, hdraw, ?_⟩, ?_⟩
    · rw [hp, List.countP_map]
      congr 2
      apply List.countP_congr
      intro trial htrial
      rw [Function.comp_apply, (hscores trial htrial).refittedAbove_eq]
    · intro trials' history' rng'' htrials' hhistory'
      cases htrials.symm.trans htrials'
      cases hhistory.symm.trans hhistory'
      exact hscores

end Share

/-! ## The refits -/

section Refits
variable {K : Type} [Field K] [LinearOrder K] [FloorRing K] [MathLibrary K]

omit [Field K] [LinearOrder K] [FloorRing K] [MathLibrary K] in
/-- The end of a refit: the record has been written, and the likelihood decides. -/
theorem leaves_likelihood {likelihood : Except Failure (Double K)} {refused : Prop}
    [Decidable refused] (h : (∃ L, likelihood = .ok L) ↔ ¬ refused) (record fit : PlfitResult K)
    (xs : List (Double K)) (xminFixed : Bool) (rng : Rng) :
    Related (Leaves record)
      (match likelihood with
        | .error f => .ok { failure := some f, result := fit, rng := rng }
        | .ok L => skipPValue xs xminFixed { fit with L := L } rng)
      (.ok (some { D := fit.D, refused := refused })) := by
  cases likelihood with
  | error f =>
    have hrefused : refused := by
      by_contra hnot
      obtain ⟨L, hL⟩ := h.mpr hnot
      cases hL
    refine Related.ok ⟨rfl, ?_⟩
    simp [hrefused]
  | ok L =>
    have hnot : ¬ refused := h.mp ⟨L, rfl⟩
    refine Related.ok ⟨rfl, ?_⟩
    simp [hnot]

theorem explains_continuous (E : Environment K) (options : ContinuousOptions K)
    (xminFixed : Bool) (xmin : Double K) (rng : Rng) :
    Explains (rescoreContinuous E options xminFixed xmin)
      (refitContinuous E options xminFixed xmin rng) := by
  intro ys record
  cases xminFixed with
  | true =>
    simp only [refitContinuous, rescoreContinuous, cutTail, estimateAlphaContinuousWith,
      estimateAlphaContinuousSorted, if_true, correct_eq]
    cases iEstimateAlphaContinuousSorted
        ((iCopyAndSort ys).dropWhile (fun y => y < xmin)) xmin with
    | error f => exact Related.ok ⟨rfl, by simp⟩
    | ok alpha => exact leaves_likelihood (logLikelihoodContinuous_ok_iff _ _ _) _ _ _ _ _
  | false =>
    simp only [refitContinuous, rescoreContinuous, continuousWith, Bool.false_eq_true, if_false,
      finishContinuous, correct_eq]
    split_ifs with hempty
    · exact Related.ok ⟨rfl, by simp⟩
    · apply Related.bind_left
      intro search
      apply Related.bind_left
      intro window
      exact leaves_likelihood (logLikelihoodContinuous_ok_iff _ _ _) _ _ _ _ _

theorem explains_discrete (E : Environment K) (options : DiscreteOptions K)
    (xminFixed : Bool) (xmin : Double K) (rng : Rng) :
    Explains (rescoreDiscrete E options xminFixed xmin)
      (refitDiscrete E options xminFixed xmin rng) := by
  intro ys record
  cases xminFixed with
  | true =>
    simp only [refitDiscrete, rescoreDiscrete, cutTail, estimateAlphaDiscreteWith, if_true, correct_eq]
    cases discreteInputCheck ys options with
    | error f => exact Related.ok ⟨rfl, by simp⟩
    | ok u =>
      apply Related.bind_left
      intro estimate
      cases estimate with
      | error f => exact Related.ok ⟨rfl, by simp⟩
      | ok alpha => exact leaves_likelihood (logLikelihoodDiscrete_ok_iff _ _ _ _) _ _ _ _ _
  | false =>
    simp only [refitDiscrete, rescoreDiscrete, discreteWith, Bool.false_eq_true, if_false,
      correct_eq]
    cases discreteInputCheck ys options with
    | error f => exact Related.ok ⟨rfl, by simp⟩
    | ok u =>
      apply Related.bind_left
      intro found
      cases found with
      | error f => exact Related.ok ⟨rfl, by simp⟩
      | ok search =>
        apply Related.bind_left
        intro window
        exact leaves_likelihood (logLikelihoodDiscrete_ok_iff _ _ _ _) _ _ _ _ _

end Refits

/-! ## One trial of equal samples -/

section EqualSamples
variable {rng : Rng}

/-- A Pareto sample that is drawn with the uniform number zero is `xmin`. -/
theorem rparetoLoop_zeros (xmin : ℝ) (gamma : Double ℝ) {n : ℕ} (hmax : 0 < rng.maximum)
    (hzeros : ∀ i < n, rng.output i = 0) :
    rparetoLoop (.fin xmin) gamma n rng = (List.replicate n (.fin xmin), rng.advance n) := by
  induction n generalizing rng with
  | zero => rw [Rng.advance_zero]; rfl
  | succ n ih =>
    have hne : (rng.maximum : ℝ) ≠ 0 := by exact_mod_cast hmax.ne'
    have hpair : (runif01 rng : Double ℝ × Rng) = (.fin 0, rng.advance 1) := by
      refine Prod.ext ?_ (runif01_snd rng)
      rw [runif01_fst, hzeros 0 n.succ_pos, Double.natCast_def, Double.natCast_def,
        Double.fin_div_fin hne, Nat.cast_zero, zero_div]
    have hpow : MathLibrary.pow (1 - .fin 0) gamma = (.fin 1 : Double ℝ) := by
      have hone : (1 : Double ℝ) - .fin 0 = .fin 1 := by
        rw [Double.one_def, Double.fin_sub_fin, sub_zero]
      rw [hone]
      change RealMath.pow (.fin 1) gamma = .fin 1
      simp [RealMath.pow]
    have hmax' : 0 < (rng.advance 1).maximum := by rwa [Rng.maximum_advance]
    have hzeros' : ∀ i < n, (rng.advance 1).output i = 0 := by
      intro i hi
      rw [Rng.output_advance_one]
      exact hzeros (i + 1) (by omega)
    have hrest := ih hmax' hzeros'
    rw [rparetoLoop, hpair]
    simp only [hpow, hrest, Double.fin_mul_fin, one_mul]
    rw [Rng.advance_succ rng n, List.replicate_succ]

/-- Without samples below `xmin` and with zeros drawn, a trial consists of `xmin` only. -/
theorem drawTrials_zeros {xs : List (Double ℝ)} {alpha xmin : ℝ} (ha : 1 < alpha) (hx : 0 < xmin)
    (hnone : ∀ x ∈ xs, ¬ x < .fin xmin) (hne : xs ≠ []) (hmax : 0 < rng.maximum)
    (hzeros : ∀ i < xs.length, rng.output i = 0) :
    drawTrials (resampleContinuous idleEnvironment xs (.fin alpha) (.fin xmin) xs.length) 1
        (List.replicate xs.length 0) rng =
      .ok ([List.replicate xs.length (.fin xmin)], rng.advance xs.length) := by
  have hcount : countSmaller xs (.fin xmin) = 0 := by
    rw [countSmaller, List.countP_eq_zero]
    simpa using hnone
  have hvalid : ¬ ((.fin alpha : Double ℝ) - 1 ≤ 0 ∨ (.fin xmin : Double ℝ) ≤ 0) := by
    rw [Double.one_def, Double.zero_def, Double.fin_sub_fin, Double.fin_le_fin, Double.fin_le_fin,
      not_or, not_le, not_le]
    exact ⟨sub_pos.mpr ha, hx⟩
  have hlen : xs.length ≠ 0 := by simpa using hne
  have htail : rparetoArray (.fin xmin) ((.fin alpha : Double ℝ) - 1) xs.length rng =
      (.success, List.replicate xs.length (.fin xmin), rng.advance xs.length) := by
    rw [rparetoArray, if_neg hvalid, if_neg hlen]
    simp only [rparetoLoop_zeros xmin _ hmax hzeros]
  have hresample : resampleContinuous idleEnvironment xs (.fin alpha) (.fin xmin) xs.length rng =
      .ok (.success, List.replicate xs.length (.fin xmin), rng.advance xs.length) := by
    simp only [resampleContinuous, extractSmaller, iResampleContinuous, hcount, numOrigSamples,
      idleEnvironment, drawHead, bind, Except.bind, sizeSub_of_le (Nat.zero_le _), Nat.sub_zero,
      htail, List.nil_append]
    rfl
  have hwrite : overwrite (List.replicate xs.length (.fin xmin : Double ℝ))
      (List.replicate xs.length 0) = .ok (List.replicate xs.length (.fin xmin)) := by
    simp [overwrite]
  simp only [drawTrials, hresample, hwrite, bind, Except.bind]
  rfl

theorem numTrials_half : numTrials (.fin (1 / 2) : Double ℝ) = .ok 1 := by
  have hquotient : (.fin (1 / 4) : Double ℝ) / .fin (1 / 2) / .fin (1 / 2) = .fin 1 := by
    rw [Double.fin_div_fin (by norm_num), Double.fin_div_fin (by norm_num)]
    norm_num
  rw [numTrials, hquotient, Double.toSigned, Double.truncate, if_pos zero_le_one, Int.floor_one]
  rfl

/-- A linear search and an exact p-value from one trial. -/
noncomputable def oneTrialOptions : ContinuousOptions ℝ :=
  { (continuousDefaultOptions : ContinuousOptions ℝ) with
    xminMethod := .linearOnly, pValuePrecision := .fin (1 / 2) }

def fitAtOne (alpha D L : ℝ) : PlfitResult ℝ where
  alpha := .fin alpha
  xmin := .fin 1
  L := .fin L
  D := .fin D
  p := .nan

/-- The fit of two samples starts its tail at the smaller one. -/
theorem continuous_two_samples (rng : Rng) :
    ∃ alpha D L : ℝ, 1 < alpha ∧ D ≤ 1 ∧
      continuous idleEnvironment (some linearOptions) ([1, 2].map .fin)
          idleEnvironment.lastResult rng =
        .ok { failure := none, result := fitAtOne alpha D L, rng := rng } := by
  have hpositive : ∀ x ∈ [(1 : ℝ), 2], 0 < x := by simp
  have hsorted : [(1 : ℝ), 2].SortedLE := by simp [List.sortedLE_iff_pairwise]
  have hdistinct : distinct [(1 : ℝ), 2] = [1, 2] := by
    rw [distinct_cons hsorted, distinct_cons (sortedLE_cons.mp hsorted).2]
    simp [distinct]
  obtain ⟨w, hw, positions, hpositions, hsearch, -⟩ :=
    continuousSearch_real idleEnvironment (.inl (rfl : linearOptions.xminMethod = .linearOnly))
      hpositive (by simp [hdistinct])
  have hw' : w < (distinct [(1 : ℝ), 2]).length := by omega
  have hfit := continuous_real idleEnvironment rfl hpositive hsearch hw hw' rfl
    idleEnvironment.lastResult rng
  have hxmin : (distinct [(1 : ℝ), 2])[w] = 1 := by
    have hzero : w = 0 := by
      simp only [hdistinct, List.length_cons, List.length_nil] at hw
      omega
    subst hzero
    simp only [hdistinct, List.getElem_cons_zero]
  rw [hxmin] at hfit
  have hle : ∀ y ∈ tailFrom [1, 2] (1 : ℝ), 1 ≤ y := fun y hy => (mem_tailFrom.mp hy).2
  have habove : ∃ y ∈ tailFrom [1, 2] (1 : ℝ), 1 < y :=
    ⟨2, mem_tailFrom.mpr ⟨by simp, one_le_two⟩, one_lt_two⟩
  have halpha := one_lt_hillAlpha one_pos hle habove
  exact ⟨_, _, _, halpha, (ksScore_bounds halpha one_pos hle).2, hfit⟩

end EqualSamples

/-! ## A calculation with one trial -/

section OneTrial
variable {mt : MtRng} {alpha D L : ℝ} {xminFixed : Bool} {score : Option (Rescored ℝ)}

theorem drawTrials_one (hzero : mt.output 0 = 0) (hone : mt.output 1 = 0) (ha : 1 < alpha) :
    drawTrials (resampleContinuous idleEnvironment ([1, 2].map .fin) (.fin alpha) (.fin 1) 2) 1
        (List.replicate 2 0) (.twister mt) =
      .ok ([[1, 1].map .fin], (Rng.twister mt).advance 2) := by
  refine drawTrials_zeros ha one_pos ?_ (by simp) (Nat.succ_pos _) ?_
  · simp
  · intro i hi
    match i, hi with
    | 0, _ => simp [Rng.output, hzero]
    | 1, _ => simp [Rng.output, hone]

/-- Equal samples from the fixed `xmin` on have an infinite exponent, which is not refused. -/
theorem rescore_ones :
    rescoreContinuous idleEnvironment { oneTrialOptions with pValueMethod := .skip } true (.fin 1)
        ([1, 1].map .fin) =
      .ok (some { D := iKsTestContinuous ([1, 1].map .fin) .pinf (.fin 1), refused := false }) := by
  have hle : ∀ y ∈ [(1 : ℝ), 1], 1 ≤ y := by simp
  have hequal : ∀ y ∈ [(1 : ℝ), 1], y = 1 := by simp
  have hinfinite := (iEstimateAlphaContinuousSorted_equal one_pos hequal (by simp)).2
  have hrefused : ¬ ((.pinf : Double ℝ) ≤ 1 ∨ (.fin 1 : Double ℝ) ≤ 0) := by
    simp
  have hsort : iCopyAndSort ([1, 1].map Double.fin) = [(1 : ℝ), 1].map .fin := by
    rw [iCopyAndSort_map]
    simp
  have hfinal (n : ℕ) : finalAlpha oneTrialOptions.finiteSizeCorrection (.pinf : Double ℝ) n =
      .pinf := rfl
  simp only [rescoreContinuous, cutTail, if_true, hsort, dropWhile_of_le hle, hinfinite, hfinal,
    hrefused, decide_false]

/-- The calculation gives a p-value once the trial has been estimated. -/
theorem one_trial_ok (hzero : mt.output 0 = 0) (hone : mt.output 1 = 0) (ha : 1 < alpha)
    (hscore : rescoreContinuous idleEnvironment { oneTrialOptions with pValueMethod := .skip }
      xminFixed (.fin 1) ([1, 1].map .fin) = .ok score) :
    ∃ out, iCalculatePValueContinuous idleEnvironment oneTrialOptions ([1, 2].map .fin) xminFixed
      (fitAtOne alpha D L) (.twister mt) = .ok out ∧ out.failure = none := by
  have hscores : [[1, 1].map Double.fin].mapM (rescoreContinuous idleEnvironment
      { oneTrialOptions with pValueMethod := .skip } xminFixed (.fin 1)) = .ok [score] := by
    simp only [List.mapM_cons, List.mapM_nil, hscore, bind, Except.bind, pure, Except.pure]
  exact exactPValue_ok (explains_continuous idleEnvironment _ xminFixed (.fin 1) (.twister mt))
    numTrials_half one_pos (drawTrials_one hzero hone ha) hscores (fitAtOne alpha D L)

/-- A refused estimation with a larger score makes the p-value one, where zero is meant. -/
theorem one_trial_miscounted (hzero : mt.output 0 = 0) (hone : mt.output 1 = 0) (ha : 1 < alpha)
    {s : Rescored ℝ} (hscore : rescoreContinuous idleEnvironment
      { oneTrialOptions with pValueMethod := .skip } xminFixed (.fin 1) ([1, 1].map .fin) =
        .ok (some s)) (hrefused : s.refused = true) (hlarger : .fin D < s.D) {out : Outcome ℝ}
    (hrun : iCalculatePValueContinuous idleEnvironment oneTrialOptions ([1, 2].map .fin) xminFixed
      (fitAtOne alpha D L) (.twister mt) = .ok out) (hsuccess : out.failure = none)
    (fresh : PlfitResult ℝ) :
    ¬ CountsRefits (.fin (1 / 2)) 2
      (resampleContinuous idleEnvironment ([1, 2].map .fin) (.fin alpha) (.fin 1) 2)
      (refitContinuous idleEnvironment { oneTrialOptions with pValueMethod := .skip } xminFixed
        (.fin 1) (.twister mt)) fresh (.fin D) (.twister mt) out.result.p := by
  have hexplains := explains_continuous idleEnvironment
    { oneTrialOptions with pValueMethod := .skip } xminFixed (.fin 1) (.twister mt)
  obtain ⟨trials, history, rng', htrials, -, hhistory, hp⟩ := exactPValue_history hrun hsuccess
  obtain ⟨hdraw, hmem⟩ := drawTrials_of_refitTrials hhistory
  cases numTrials_half.symm.trans htrials
  have hdatasets : [[1, 1].map Double.fin] = history.map Prod.fst :=
    congrArg Prod.fst (Except.ok.inj ((drawTrials_one hzero hone ha).symm.trans hdraw))
  obtain ⟨trial, rfl, hfst⟩ : ∃ trial, history = [trial] ∧ trial.1 = [1, 1].map .fin := by
    obtain ⟨trial, rest, rfl, hfst, hrest⟩ := List.map_eq_cons_iff.mp hdatasets.symm
    exact ⟨trial, by rw [List.map_eq_nil_iff.mp hrest], hfst⟩
  obtain ⟨held, hrefit⟩ := hmem trial List.mem_cons_self
  rw [hfst] at hrefit
  obtain ⟨score', hscore', hleaves⟩ := (hexplains _ held).of_ok hrefit
  cases hscore.symm.trans hscore'
  have hone' : trial.2.result.D = s.D := hleaves.held
  rintro ⟨trials', datasets', rng'', htrials', hdraw', hmeant⟩
  cases numTrials_half.symm.trans htrials'
  cases (drawTrials_one hzero hone ha).symm.trans hdraw'
  have hnone : refittedAbove (refitContinuous idleEnvironment
      { oneTrialOptions with pValueMethod := .skip } xminFixed (.fin 1) (.twister mt)) fresh
      (.fin D) ([1, 1].map .fin) = false := by
    obtain ⟨own, hown, hleaves'⟩ := (hexplains _ fresh).of_ok_right hscore
    have hfails : own.failure.isNone = false := by
      rw [Option.isNone_eq_false_iff, Option.isSome_iff_ne_none]
      intro hsucceeds
      simpa [hrefused] using hleaves'.success.mp hsucceeds
    rw [refittedAbove, hown]
    simp [hfails]
  have hlarger' : (fitAtOne alpha D L).D < trial.2.result.D := by
    rw [hone']
    exact hlarger
  rw [hp, List.countP_cons_of_pos (by simpa using hlarger'),
    List.countP_cons_of_neg (by rw [hnone]; exact Bool.false_ne_true)] at hmeant
  simp [Double.fin_div_fin] at hmeant

end OneTrial

/-! ## The p-values of both families -/

section PValues

/-- In a run that gives an exact p-value, the p-value is the share of the trials that were
refitted successfully with a larger score, found by comparing the scores of these very refits,
exactly when every data set is one that is refitted successfully. -/
theorem exact_pValues_count_iff (E : Environment ℝ) (continuousOptions : ContinuousOptions ℝ)
    (discreteOptions : DiscreteOptions ℝ) (hcontinuous : continuousOptions.pValueMethod = .exact)
    (hdiscrete : discreteOptions.pValueMethod = .exact) (xs : List (Double ℝ)) (xminFixed : Bool)
    (result fresh : PlfitResult ℝ) (rng : Rng) :
    (∀ out, iCalculatePValueContinuous E continuousOptions xs xminFixed result rng = .ok out →
      out.failure = none →
      (CountsOwnRefits continuousOptions.pValuePrecision xs.length
          (resampleContinuous E xs result.alpha result.xmin xs.length)
          (refitContinuous E { continuousOptions with pValueMethod := .skip } xminFixed
            result.xmin rng) E.syntheticResult fresh result.D rng out.result.p ↔
        EveryDataSet continuousOptions.pValuePrecision xs.length
          (resampleContinuous E xs result.alpha result.xmin xs.length) rng
          (ContinuousFits E { continuousOptions with pValueMethod := .skip } xminFixed
            result.xmin))) ∧
    (∀ out, iCalculatePValueDiscrete E discreteOptions xs xminFixed result rng = .ok out →
      out.failure = none →
      (CountsOwnRefits discreteOptions.pValuePrecision xs.length
          (resampleDiscrete E xs result.alpha result.xmin xs.length)
          (refitDiscrete E { discreteOptions with pValueMethod := .skip } xminFixed
            result.xmin rng) E.syntheticResult fresh result.D rng out.result.p ↔
        EveryDataSet discreteOptions.pValuePrecision xs.length
          (resampleDiscrete E xs result.alpha result.xmin xs.length) rng
          (DiscreteFits E { discreteOptions with pValueMethod := .skip } xminFixed
            result.xmin))) := by
  constructor
  · intro out h hsuccess
    rw [iCalculatePValueContinuous, hcontinuous] at h
    exact exactPValue_counts_iff (explains_continuous E _ xminFixed result.xmin rng)
      (fun _ _ => accepted_continuous_iff) fresh h hsuccess
  · intro out h hsuccess
    rw [iCalculatePValueDiscrete, hdiscrete] at h
    exact exactPValue_counts_iff (explains_discrete E _ xminFixed result.xmin rng)
      (fun _ _ => accepted_discrete_iff) fresh h hsuccess

/-- The refit at the fixed `xmin` succeeds on equal samples. -/
theorem exact_pValues_count_two :
    ∃ mt out, iCalculatePValueContinuous idleEnvironment oneTrialOptions ([1, 2].map .fin)
        true (fitAtOne 2 0 0) (.twister mt) = .ok out ∧
      CountsOwnRefits (.fin (1 / 2)) 2
        (resampleContinuous idleEnvironment ([1, 2].map .fin) (.fin 2) (.fin 1) 2)
        (refitContinuous idleEnvironment { oneTrialOptions with pValueMethod := .skip } true
          (.fin 1) (.twister mt))
        idleEnvironment.syntheticResult (fitAtOne 2 0 0) (.fin 0) (.twister mt)
        out.result.p := by
  obtain ⟨mt, hzero, hone⟩ := exists_outputs 0 0
  obtain ⟨out, hrun, hsuccess⟩ :=
    one_trial_ok (D := 0) (L := 0) hzero hone one_lt_two rescore_ones
  refine ⟨mt, out, hrun, ?_⟩
  refine ((exact_pValues_count_iff idleEnvironment oneTrialOptions
    { (discreteDefaultOptions : DiscreteOptions ℝ) with pValueMethod := .exact } rfl rfl
    ([1, 2].map .fin) true (fitAtOne 2 0 0) (fitAtOne 2 0 0)
    (.twister mt)).1 out hrun hsuccess).mpr ?_
  intro trials datasets rng' htrials hdraw ys hys
  cases numTrials_half.symm.trans htrials
  cases (drawTrials_one hzero hone one_lt_two).symm.trans hdraw
  obtain rfl := List.mem_singleton.mp hys
  rw [ContinuousFits, if_pos rfl]
  refine ⟨by simp [fitAtOne], ⟨.fin 1, by simp, by simp [fitAtOne]⟩, ?_⟩
  exact Or.inr (Or.inr (Or.inr ⟨by simp, by simp [fitAtOne]⟩))

/-- A trial of equal samples has no fit, and it is counted with the initial score of its
search. -/
theorem exact_pValue_counts_failure :
    ∃ mt base out, continuous idleEnvironment (some linearOptions) ([1, 2].map .fin)
        idleEnvironment.lastResult (.twister mt) = .ok base ∧ base.failure = none ∧
      iCalculatePValueContinuous idleEnvironment oneTrialOptions ([1, 2].map .fin) false
        base.result (.twister mt) = .ok out ∧ out.failure = none ∧
      ∀ fresh, ¬ CountsRefits (.fin (1 / 2)) 2
        (resampleContinuous idleEnvironment ([1, 2].map .fin) base.result.alpha
          base.result.xmin 2)
        (refitContinuous idleEnvironment { oneTrialOptions with pValueMethod := .skip } false
          base.result.xmin (.twister mt))
        fresh base.result.D (.twister mt) out.result.p := by
  obtain ⟨mt, hzero, hone⟩ := exists_outputs 0 0
  obtain ⟨alpha, D, L, ha, hD, hbase⟩ := continuous_two_samples (.twister mt)
  have hsingle : (distinct [(1 : ℝ), 1]).length = 1 := by
    rw [distinct_cons (by simp [List.sortedLE_iff_pairwise]),
      distinct_cons (by simp [List.sortedLE_iff_pairwise])]
    simp [distinct]
  have hscore := rescoreContinuous_single idleEnvironment
    { oneTrialOptions with pValueMethod := .skip } (.fin 1) hsingle
  obtain ⟨out, hrun, hsuccess⟩ := one_trial_ok (D := D) (L := L) hzero hone ha hscore
  refine ⟨mt, _, out, hbase, rfl, hrun, hsuccess, ?_⟩
  exact one_trial_miscounted hzero hone ha hscore rfl (lt_dblMax_of_le_one hD) hrun hsuccess

end PValues
end Plfit
