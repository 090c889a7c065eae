import Mathlib
import Plfit.Fit.FiniteSizeCorrection

/-! # The data sets that a refit accepts

What a refit finds depends on its data set only, and so does whether it succeeds. At a fixed `xmin`
a sample has to reach it, and in a search two samples have to differ. The discrete estimators add
what they ask for themselves.
-/
namespace Plfit
open ExactArithmetic SortedBlocks StrictScan

/-! ## The estimation of a refit -/

section Rescore
variable {K : Type} [Field K] [LinearOrder K] [FloorRing K] [MathLibrary K]

/-- What the estimation on a data set finds: the score that is written to the record, and
whether the likelihood refuses the exponent and the `xmin` it belongs to. -/
structure Rescored (K : Type) where
  D : Double K
  refused : Bool

/-- The samples from `xmin` on, as the fits at a fixed `xmin` cut them off. -/
def cutTail (ys : List (Double K)) (xmin : Double K) : List (Double K) :=
  (iCopyAndSort ys).dropWhile (fun y => y < xmin)

/-- The refit of a continuous data set up to its likelihood. -/
def rescoreContinuous (E : Environment K) (options : ContinuousOptions K) (xminFixed : Bool)
    (xmin : Double K) (ys : List (Double K)) : Exec (Option (Rescored K)) :=
  if xminFixed then
    let tail := cutTail ys xmin
    match iEstimateAlphaContinuousSorted tail xmin with
    | .error _ => .ok none
    | .ok alpha =>
      let final := finalAlpha options.finiteSizeCorrection alpha tail.length
      .ok (some { D := iKsTestContinuous tail alpha xmin, refused := final ≤ 1 ∨ xmin ≤ 0 })
  else if ys.length ≤ 0 then .ok none
  else do
    let search ← continuousSearch E iContinuousXminOptEvaluate options.xminMethod ys
    let fit := search.best.result
    let final := finalAlpha options.finiteSizeCorrection fit.alpha search.best.n
    let _ ← tailWindow (iCopyAndSort ys) search.best.n
    return some { D := fit.D, refused := final ≤ 1 ∨ fit.xmin ≤ 0 }

/-- The refit of a discrete data set up to its likelihood. -/
def rescoreDiscrete (E : Environment K) (options : DiscreteOptions K) (xminFixed : Bool)
    (xmin : Double K) (ys : List (Double K)) : Exec (Option (Rescored K)) :=
  match discreteInputCheck ys options with
  | .error _ => .ok none
  | .ok () =>
    if xminFixed then do
      let tail := cutTail ys xmin
      match ← iEstimateAlphaDiscrete E tail xmin options true with
      | .error _ => return none
      | .ok alpha =>
        let final := finalAlpha options.finiteSizeCorrection alpha tail.length
        return some { D := iKsTestDiscrete E tail alpha xmin, refused := final ≤ 1 ∨ xmin < 1 }
    else do
      match ← discreteSearch E options (iCopyAndSort ys) with
      | .error _ => return none
      | .ok search =>
        let fit := search.best.result
        let final := finalAlpha options.finiteSizeCorrection fit.alpha search.best.n
        let _ ← tailWindow (iCopyAndSort ys) search.best.n
        return some { D := fit.D, refused := final ≤ 1 ∨ fit.xmin < 1 }

/-- The estimation finds something, and the likelihood takes it. -/
def RefitAccepted (score : Exec (Option (Rescored K))) : Prop :=
  ∃ s, score = .ok (some s) ∧ s.refused = false

omit [Field K] [LinearOrder K] [FloorRing K] [MathLibrary K] in
theorem accepted_ok_iff {score : Option (Rescored K)} :
    RefitAccepted (.ok score) ↔ score.any (fun s => !s.refused) = true := by
  cases score with
  | none => simp [RefitAccepted]
  | some s => simp [RefitAccepted]

end Rescore

/-! ## Continuous data sets at a fixed `xmin` -/

section Tails
variable {ys : List (Double ℝ)} {xmin : Double ℝ}

theorem mem_iCopyAndSort {y : Double ℝ} : y ∈ iCopyAndSort ys ↔ y ∈ ys :=
  List.mem_insertionSort _

theorem cutTail_eq_nil_iff : cutTail ys xmin = [] ↔ ∀ y ∈ ys, y < xmin := by
  simp only [cutTail, List.dropWhile_eq_nil_iff, mem_iCopyAndSort, decide_eq_true_eq]

theorem mem_of_mem_cutTail {y : Double ℝ} (hy : y ∈ cutTail ys xmin) : y ∈ ys :=
  mem_iCopyAndSort.mp (List.dropWhile_sublist _ |>.mem hy)

theorem mem_cutTail {y : Double ℝ} (hy : y ∈ ys) (hxmin : ¬ y < xmin) : y ∈ cutTail ys xmin := by
  have hsorted := mem_iCopyAndSort.mpr hy
  have hsplit : (iCopyAndSort ys).takeWhile (fun y => y < xmin) ++ cutTail ys xmin =
      iCopyAndSort ys := List.takeWhile_append_dropWhile
  rw [← hsplit, List.mem_append] at hsorted
  rcases hsorted with htake | hdrop
  · have hlt := List.mem_takeWhile_imp (p := fun y => decide (y < xmin)) htake
    exact absurd (of_decide_eq_true hlt) hxmin
  · exact hdrop

/-- Without a NaN the array is sorted, and the tail consists of the samples from `xmin` on. -/
theorem rank_cutTail {x : ℝ} (hnan : .nan ∉ ys) :
    (cutTail ys (.fin x)).map Double.rank =
      ((ys.map Double.rank).insertionSort (· ≤ ·)).filter ((Double.fin x).rank ≤ ·) := by
  have hne : ∀ y ∈ ys, y ≠ .nan := fun y hy h => hnan (h ▸ hy)
  have hsort : (iCopyAndSort ys).map Double.rank =
      (ys.map Double.rank).insertionSort (· ≤ ·) := by
    rw [iCopyAndSort]
    refine List.map_insertionSort _ (· ≤ ·) Double.rank ys ?_
    intro a ha b _
    rw [Double.lt_iff_rank_lt (hne a ha), not_lt]
  have hs : ((ys.map Double.rank).insertionSort (· ≤ ·)).SortedLE := List.sortedLE_insertionSort
  have hlt : (fun y : Double ℝ => decide (y < .fin x)) =
      (fun r => decide (r < (Double.fin x).rank)) ∘ Double.rank := by
    funext y
    exact decide_eq_decide.mpr (Double.lt_iff_rank_lt (by simp))
  rw [cutTail, hlt, ← List.dropWhile_map, hsort, dropWhile_lt hs, drop_below hs]

theorem not_lt_of_mem_cutTail {x : ℝ} (hnan : .nan ∉ ys) {y : Double ℝ}
    (hy : y ∈ cutTail ys (.fin x)) : ¬ y < .fin x := by
  have hmem := List.mem_map_of_mem (f := Double.rank) hy
  rw [rank_cutTail hnan, List.mem_filter] at hmem
  rw [Double.lt_iff_rank_lt (by simp), not_lt]
  exact of_decide_eq_true hmem.2

theorem length_cutTail {x : ℝ} (hnan : .nan ∉ ys) :
    (cutTail ys (.fin x)).length = ys.countP (fun y => ¬ y < .fin x) := by
  have hlen := congrArg List.length (rank_cutTail (x := x) hnan)
  rw [List.length_map] at hlen
  rw [hlen, ← List.countP_eq_length_filter, (List.perm_insertionSort (· ≤ ·) _).countP_eq,
    List.countP_map]
  apply List.countP_congr
  intro y _
  simp [Double.lt_iff_rank_lt]

theorem cases_of_mem_cutTail {x : ℝ} (hnan : .nan ∉ ys) {t : Double ℝ}
    (ht : t ∈ cutTail ys (.fin x)) : t = .pinf ∨ ∃ y, x ≤ y ∧ t = .fin y := by
  have hlt := not_lt_of_mem_cutTail hnan ht
  cases t with
  | nan => exact absurd (mem_of_mem_cutTail ht) hnan
  | ninf => exact absurd Double.ninf_lt_fin hlt
  | pinf => exact Or.inl rfl
  | fin y => exact Or.inr ⟨y, by simpa using hlt, rfl⟩

theorem cutTail_eq_map {x : ℝ} (hnan : .nan ∉ ys) (hinf : .pinf ∉ ys) :
    ∃ zs : List ℝ, cutTail ys (.fin x) = zs.map .fin ∧ ∀ z ∈ zs, x ≤ z := by
  have hreal : ∀ t ∈ cutTail ys (.fin x), ∃ y, x ≤ y ∧ t = .fin y := by
    intro t ht
    exact (cases_of_mem_cutTail hnan ht).resolve_left (fun h => hinf (h ▸ mem_of_mem_cutTail ht))
  generalize cutTail ys (.fin x) = ts at hreal
  induction ts with
  | nil => exact ⟨[], rfl, by simp⟩
  | cons t ts ih =>
    obtain ⟨y, hy, rfl⟩ := hreal t List.mem_cons_self
    obtain ⟨zs, rfl, hzs⟩ := ih (fun t ht => hreal t (List.mem_cons_of_mem _ ht))
    exact ⟨y :: zs, rfl, List.forall_mem_cons.mpr ⟨hy, hzs⟩⟩

/-! The log-sum of a tail with a NaN or an infinite sample -/

theorem foldl_nan (f : Double ℝ → Double ℝ) (ts : List (Double ℝ)) :
    ts.foldl (fun s t => s + f t) .nan = .nan := by
  induction ts with
  | nil => rfl
  | cons t ts ih => rw [List.foldl_cons, Double.nan_add, ih]

theorem iLogsumContinuous_nan {ts : List (Double ℝ)}
    (h : ∃ t ∈ ts, MathLibrary.log (t / xmin) = (.nan : Double ℝ)) :
    iLogsumContinuous ts xmin = .nan := by
  obtain ⟨t, ht, hlog⟩ := h
  obtain ⟨before, after, rfl⟩ := List.append_of_mem ht
  rw [iLogsumContinuous, List.foldl_append, List.foldl_cons, hlog, Double.add_nan, foldl_nan]

/-- Once the sum is infinite, larger samples keep it so. -/
theorem foldl_log_pinf {x : ℝ} (hx : 0 < x) {ts : List (Double ℝ)}
    (hts : ∀ t ∈ ts, t = .pinf ∨ ∃ y, x ≤ y ∧ t = .fin y) {s : Double ℝ}
    (h : s = .pinf ∨ (∃ r, s = .fin r) ∧ .pinf ∈ ts) :
    ts.foldl (fun s t => s + MathLibrary.log (t / (.fin x : Double ℝ))) s = .pinf := by
  have hinf : MathLibrary.log ((.pinf : Double ℝ) / .fin x) = .pinf := by
    have hdiv : (.pinf : Double ℝ) / .fin x = .pinf := if_neg hx.not_gt
    rw [hdiv]
    rfl
  have hreal : ∀ y : ℝ, x ≤ y → ∃ l : ℝ,
      MathLibrary.log ((.fin y : Double ℝ) / .fin x) = .fin l := by
    intro y hy
    rw [Double.fin_div_fin hx.ne', MathLibrary.log_fin (div_pos (hx.trans_le hy) hx)]
    exact ⟨_, rfl⟩
  induction ts generalizing s with
  | nil =>
    rcases h with rfl | ⟨-, hmem⟩
    · rfl
    · exact absurd hmem List.not_mem_nil
  | cons t ts ih =>
    have hts' : ∀ t ∈ ts, t = .pinf ∨ ∃ y, x ≤ y ∧ t = .fin y :=
      fun t ht => hts t (List.mem_cons_of_mem _ ht)
    rw [List.foldl_cons]
    apply ih hts'
    rcases hts t List.mem_cons_self with rfl | ⟨y, hy, rfl⟩
    · left
      rw [hinf]
      rcases h with rfl | ⟨⟨r, rfl⟩, -⟩ <;> rfl
    · obtain ⟨l, hl⟩ := hreal y hy
      rw [hl]
      rcases h with rfl | ⟨⟨r, rfl⟩, hmem⟩
      · exact Or.inl rfl
      · refine Or.inr ⟨⟨r + l, rfl⟩, ?_⟩
        simpa using hmem

end Tails

section Fixed
variable {ys : List (Double ℝ)} {xmin : Double ℝ} {correction : Bool}

theorem finalAlpha_nan (n : ℕ) : finalAlpha correction (.nan : Double ℝ) n = .nan := by
  cases correction with
  | false => rfl
  | true => simp [finalAlpha]

theorem finalAlpha_one {n : ℕ} (hn : 0 < n) :
    finalAlpha correction (.fin 1 : Double ℝ) n = .fin 1 := by
  cases correction with
  | false => rfl
  | true =>
    have hn' : (n : ℝ) ≠ 0 := by exact_mod_cast hn.ne'
    rw [finalAlpha_fin 1 hn, correctedAlpha, if_pos rfl, Nat.cast_sub hn]
    congr 1
    field_simp
    simp

/-- A data set that is refitted successfully at a fixed `xmin`: a sample reaches it, none is
infinite, and with the correction a single one does not go beyond it. A NaN for an exponent is not
refused. -/
structure FixedFits (correction : Bool) (xmin : Double ℝ) (ys : List (Double ℝ)) : Prop where
  positive : ¬ xmin ≤ 0
  reached : ∃ y ∈ ys, ¬ y < xmin
  taken : xmin = .nan ∨ xmin = .pinf ∨ .nan ∈ ys ∨ .pinf ∉ ys ∧
    (correction = true → ys.countP (fun y => ¬ y < xmin) = 1 → ∀ y ∈ ys, ¬ xmin < y)

/-- The exponent that is estimated on the tail of a data set, before the correction. -/
noncomputable def tailAlpha (ys : List (Double ℝ)) (xmin : Double ℝ) : Double ℝ :=
  1 + ((cutTail ys xmin).length : Double ℝ) / iLogsumContinuous (cutTail ys xmin) xmin

theorem accepted_fixed_iff (E : Environment ℝ) (options : ContinuousOptions ℝ) :
    RefitAccepted (rescoreContinuous E options true xmin ys) ↔
      ¬ xmin ≤ 0 ∧ cutTail ys xmin ≠ [] ∧
        ¬ finalAlpha options.finiteSizeCorrection (tailAlpha ys xmin) (cutTail ys xmin).length ≤
          1 := by
  have hcut : (cutTail ys xmin).dropWhile (fun y => y < xmin) = cutTail ys xmin :=
    List.dropWhile_idempotent _ _
  have hestimate : iEstimateAlphaContinuousSorted (cutTail ys xmin) xmin =
      xminCheckZero xmin >>= fun _ =>
        if cutTail ys xmin = [] then
          .error { reason := "no data point was larger than xmin", errno := .einval }
        else .ok (tailAlpha ys xmin) := by
    rw [iEstimateAlphaContinuousSorted, hcut]
    rfl
  simp only [rescoreContinuous, if_true, hestimate, xminCheckZero]
  by_cases hx : xmin ≤ 0
  · rw [if_pos hx]
    exact iff_of_false (by simp [accepted_ok_iff, bind, Except.bind]) (fun h => h.1 hx)
  · rw [if_neg hx]
    by_cases hnil : cutTail ys xmin = []
    · simp only [if_pos hnil, bind, Except.bind]
      exact iff_of_false (by simp [accepted_ok_iff]) (fun h => h.2.1 hnil)
    · simp only [if_neg hnil, bind, Except.bind, accepted_ok_iff, Option.any_some,
        Bool.not_eq_true', decide_eq_false_iff_not, or_iff_left hx]
      exact ⟨fun h => ⟨hx, hnil, h⟩, fun h => h.2.2⟩

/-- A NaN among the quotients makes the exponent a NaN, which is not refused. -/
theorem not_refused_of_nan
    (h : ∃ t ∈ cutTail ys xmin, MathLibrary.log (t / xmin) = (.nan : Double ℝ)) :
    ¬ finalAlpha correction (tailAlpha ys xmin) (cutTail ys xmin).length ≤ 1 := by
  have hdiv (a : Double ℝ) : a / .nan = .nan := by cases a <;> rfl
  rw [tailAlpha, iLogsumContinuous_nan h, hdiv, Double.add_nan, finalAlpha_nan]
  exact Double.not_nan_le _

/-- An infinite sample makes the exponent one. -/
theorem refused_of_pinf {x : ℝ} (hx : 0 < x) (hnan : .nan ∉ ys) (hinf : .pinf ∈ ys) :
    finalAlpha correction (tailAlpha ys (.fin x)) (cutTail ys (.fin x)).length ≤ 1 := by
  have hmem : .pinf ∈ cutTail ys (.fin x) := mem_cutTail hinf (by simp)
  have hsum : iLogsumContinuous (cutTail ys (.fin x)) (.fin x) = .pinf :=
    foldl_log_pinf hx (fun t => cases_of_mem_cutTail hnan) (Or.inr ⟨⟨0, rfl⟩, hmem⟩)
  have hone : tailAlpha ys (.fin x) = .fin 1 := by
    have hdiv (r : ℝ) : (.fin r : Double ℝ) / .pinf = .fin 0 := rfl
    rw [tailAlpha, hsum, Double.natCast_def, hdiv, Double.one_def, Double.fin_add_fin, add_zero]
  rw [hone, finalAlpha_one (List.length_pos_of_mem hmem)]
  exact Double.fin_le_fin.mpr le_rfl

/-- The exponent of a tail of numbers is above one, also after the correction from two samples
on. -/
theorem refused_of_real {x : ℝ} (hx : 0 < x) (hnan : .nan ∉ ys) (hinf : .pinf ∉ ys)
    (hne : cutTail ys (.fin x) ≠ []) :
    ¬ finalAlpha correction (tailAlpha ys (.fin x)) (cutTail ys (.fin x)).length ≤ 1 ↔
      (correction = true → (cutTail ys (.fin x)).length = 1 → ∀ y ∈ ys, ¬ .fin x < y) := by
  obtain ⟨zs, hzs, hle⟩ := cutTail_eq_map (x := x) hnan hinf
  have habove : (∃ z ∈ zs, x < z) ↔ ∃ y ∈ ys, .fin x < y := by
    constructor
    · rintro ⟨z, hz, hlt⟩
      have hmem : .fin z ∈ cutTail ys (.fin x) := hzs ▸ List.mem_map_of_mem hz
      exact ⟨.fin z, mem_of_mem_cutTail hmem, Double.fin_lt_fin.mpr hlt⟩
    · rintro ⟨y, hy, hlt⟩
      have hmem := mem_cutTail hy (fun h => Double.lt_irrefl _ (Double.lt_trans hlt h))
      rw [hzs] at hmem
      obtain ⟨z, hz, rfl⟩ := List.mem_map.mp hmem
      exact ⟨z, hz, Double.fin_lt_fin.mp hlt⟩
  have hzne : zs ≠ [] := by
    rintro rfl
    exact hne hzs
  have hpos := List.length_pos_of_ne_nil hzne
  have hsum := iLogsumContinuous_fin hx hle
  rw [tailAlpha, hzs, hsum, List.length_map]
  by_cases hexists : ∃ z ∈ zs, x < z
  · have halpha := one_lt_hillAlpha hx hle hexists
    have hhill : (1 : Double ℝ) + ((zs.length : ℕ) : Double ℝ) / .fin (logSum zs x) =
        .fin (hillAlpha zs x) := by
      rw [Double.natCast_def, Double.fin_div_fin (logSum_pos hx hle hexists).ne', Double.one_def,
        Double.fin_add_fin, hillAlpha]
    have hnot : ¬ ∀ y ∈ ys, ¬ .fin x < y := by
      push Not
      exact habove.mp hexists
    rw [hhill]
    simp only [hnot, imp_false]
    cases correction with
    | false => exact iff_of_true (by simpa [finalAlpha] using halpha) (by simp)
    | true =>
      rw [finalAlpha_fin _ hpos, Double.one_def, Double.fin_le_fin, not_le]
      constructor
      · intro hlt _ hone
        rw [hone] at hlt
        simp [correctedAlpha] at hlt
      · intro hone
        exact one_lt_correctedAlpha true halpha (fun _ => by have := hone rfl; omega)
  · have hequal : ∀ z ∈ zs, z = x := by
      push Not at hexists
      exact fun z hz => (hexists z hz).antisymm (hle z hz)
    have hzero : logSum zs x = 0 := by
      have hfold := (iEstimateAlphaContinuousSorted_equal hx hequal hzne).1
      rw [hsum] at hfold
      exact Double.fin.inj hfold
    have hinfinite : (1 : Double ℝ) + ((zs.length : ℕ) : Double ℝ) / .fin 0 = .pinf := by
      have hlen : (0 : ℝ) < zs.length := by exact_mod_cast hpos
      rw [Double.natCast_def, Double.fin_div_zero, sign_pos hlen]
      rfl
    have hnone : ∀ y ∈ ys, ¬ .fin x < y := by
      intro y hy hlt
      exact hexists (habove.mpr ⟨y, hy, hlt⟩)
    rw [hzero, hinfinite]
    refine iff_of_true ?_ (fun _ _ => hnone)
    cases correction with
    | false => simp [finalAlpha]
    | true =>
      rcases Nat.lt_or_ge zs.length 2 with hone | htwo
      · have hinf : (.pinf : Double ℝ) * .fin 0 = .nan := by
          change Double.ofSign (1 * SignType.sign (0 : ℝ)) = _
          rw [sign_zero, mul_zero]
          rfl
        have hlen : zs.length = 1 := by omega
        rw [hlen]
        simp [finalAlpha, hinf]
      · rw [finalAlpha_pinf htwo]
        simp

/-- At a fixed `xmin` the samples decide. -/
theorem accepted_continuous_fixed_iff (E : Environment ℝ) (options : ContinuousOptions ℝ) :
    RefitAccepted (rescoreContinuous E options true xmin ys) ↔
      FixedFits options.finiteSizeCorrection xmin ys := by
  rw [accepted_fixed_iff]
  have hreach : cutTail ys xmin ≠ [] ↔ ∃ y ∈ ys, ¬ y < xmin := by
    rw [Ne, cutTail_eq_nil_iff]
    push Not
    rfl
  have hfits : FixedFits options.finiteSizeCorrection xmin ys ↔ ¬ xmin ≤ 0 ∧
      (∃ y ∈ ys, ¬ y < xmin) ∧ (xmin = .nan ∨ xmin = .pinf ∨ .nan ∈ ys ∨ .pinf ∉ ys ∧
        (options.finiteSizeCorrection = true → ys.countP (fun y => ¬ y < xmin) = 1 →
          ∀ y ∈ ys, ¬ xmin < y)) :=
    ⟨fun h => ⟨h.positive, h.reached, h.taken⟩, fun h => ⟨h.1, h.2.1, h.2.2⟩⟩
  rw [hfits, ← hreach]
  refine and_congr_right (fun hpositive => and_congr_right (fun hne => ?_))
  have hdivNan (a : Double ℝ) : MathLibrary.log (a / .nan) = (.nan : Double ℝ) := by
    cases a <;> rfl
  by_cases hnan : .nan ∈ ys
  · have hmem : .nan ∈ cutTail ys xmin := mem_cutTail hnan (Double.not_nan_lt _)
    refine iff_of_true (not_refused_of_nan ⟨.nan, hmem, ?_⟩) (Or.inr (Or.inr (Or.inl hnan)))
    rw [Double.nan_div]
    rfl
  cases xmin with
  | nan =>
    obtain ⟨t, ht⟩ := List.exists_mem_of_ne_nil _ hne
    exact iff_of_true (not_refused_of_nan ⟨t, ht, hdivNan t⟩) (Or.inl rfl)
  | ninf => exact absurd Double.ninf_le_fin hpositive
  | pinf =>
    obtain ⟨y, hy, hlt⟩ := hreach.mp hne
    have hinf : y = .pinf := by
      cases y with
      | pinf => rfl
      | nan => exact absurd hy hnan
      | fin r => exact absurd Double.fin_lt_pinf hlt
      | ninf => exact absurd rfl hlt
    rw [hinf] at hy
    exact iff_of_true (not_refused_of_nan ⟨.pinf, mem_cutTail hy (Double.lt_irrefl _), rfl⟩)
      (Or.inr (Or.inl rfl))
  | fin x =>
    have hx : 0 < x := by simpa using hpositive
    rw [or_iff_right (by simp), or_iff_right (by simp), or_iff_right hnan]
    by_cases hinf : .pinf ∈ ys
    · exact iff_of_false (not_not.mpr (refused_of_pinf hx hnan hinf)) (fun h => h.1 hinf)
    · rw [refused_of_real hx hnan hinf hne, length_cutTail hnan, and_iff_right hinf]

end Fixed

/-! ## Continuous data sets in a search -/

section Searched
variable {E : Environment ℝ} {options : ContinuousOptions ℝ} {xmin : Double ℝ}

/-- What a search has taken over is refused for its `xmin` only. -/
theorem TakesTail.refused_iff {xs : List ℝ} {best : BestFit ℝ} (h : TakesTail xs best)
    (hpositive : ∀ x ∈ xs, 0 < x) (correction : Bool) :
    ¬ (finalAlpha correction best.result.alpha best.n ≤ 1 ∨ best.result.xmin ≤ 0) := by
  obtain ⟨hn, j, hrecord⟩ := h
  have hj : j < (distinct xs).length := by have := hrecord.lt; omega
  have hpos : 0 < (distinct xs).getD j 0 := by
    rw [List.getD_eq_getElem _ _ hj]
    exact hpositive _ (mem_distinct.mp (List.getElem_mem hj))
  obtain ⟨alpha, halpha, heq⟩ := hrecord.one_lt hpos
  rw [heq, hrecord.xmin_eq, not_or]
  refine ⟨?_, ?_⟩
  · cases correction with
    | false => simpa [finalAlpha] using halpha
    | true => exact Double.not_le_of_lt (finalAlpha_bounds hn (Double.fin_lt_fin.mpr halpha)).1
  · simpa using hpos

/-- A data set of one value has no candidate for `xmin`: the search ends with its initial
score, and the likelihood refuses what it has found. -/
theorem rescoreContinuous_single (E : Environment ℝ) (options : ContinuousOptions ℝ)
    (xmin : Double ℝ) {xs : List ℝ} (hsingle : (distinct xs).length = 1) :
    rescoreContinuous E options false xmin (xs.map .fin) =
      .ok (some { D := dblMax, refused := true }) := by
  have hne : ¬ (xs.map (Double.fin : ℝ → Double ℝ)).length ≤ 0 := by
    obtain ⟨x, hx⟩ := List.exists_mem_of_length_pos (hsingle ▸ Nat.one_pos)
    have := List.length_pos_of_mem (mem_distinct.mp hx)
    rw [List.length_map]
    omega
  have hirrefl : ¬ (localBest : BestFit ℝ).result.D < (globalBest E).result.D :=
    Double.lt_irrefl _
  have hsearch : continuousSearch E iContinuousXminOptEvaluate options.xminMethod
      (xs.map .fin) = .ok
        { success := true, best := globalBest E, evaluated := [], last := E.lastResult } := by
    have hscan : ∀ data : XminOptData ℝ, data.numProbes = 1 → data.evaluated = [] →
        iContinuousXminOptLinearScan E iContinuousXminOptEvaluate data =
          .ok (globalBest E, []) := by
      intro data hnum hseen
      simp only [iContinuousXminOptLinearScan, hnum, sizeSub_of_le le_rfl, Nat.sub_self,
        List.range_zero, scanChunks, List.foldlM_nil, bind, Except.bind, pure, Except.pure, hseen,
        enterCritical]
      rw [if_neg hirrefl]
    rw [continuousSearch_eq, length_starts, distinct_insertionSort, hsingle]
    cases hmethod : options.xminMethod <;>
      simp [xminSearch, bind, Except.bind, pure, Except.pure, hscan]
  have hwindow : tailWindow (iCopyAndSort (xs.map Double.fin)) (globalBest E).n =
      .ok ((iCopyAndSort (xs.map .fin)).drop (iCopyAndSort (xs.map Double.fin)).length) := rfl
  have hrefused : (globalBest E).result.xmin ≤ 0 := Double.fin_le_fin.mpr le_rfl
  simp only [rescoreContinuous, Bool.false_eq_true, if_false, if_neg hne, hsearch, hwindow, bind,
    Except.bind, hrefused, or_true, decide_true]
  rfl

/-- In a search over positive samples two of them have to differ. -/
theorem accepted_continuous_search_iff {zs : List ℝ} (hpositive : ∀ z ∈ zs, 0 < z)
    {score : Option (Rescored ℝ)}
    (hrun : rescoreContinuous E options false xmin (zs.map .fin) = .ok score) :
    RefitAccepted (rescoreContinuous E options false xmin (zs.map .fin)) ↔
      2 ≤ (distinct zs).length := by
  constructor
  · rintro ⟨s, hs, htaken⟩
    by_contra hfew
    obtain hzero | hsingle : (distinct zs).length = 0 ∨ (distinct zs).length = 1 := by omega
    · have hnil : zs = [] := by
        rw [List.eq_nil_iff_forall_not_mem]
        intro z hz
        have := List.length_pos_of_mem (mem_distinct.mpr hz)
        omega
      subst hnil
      simp [rescoreContinuous] at hs
    · rw [rescoreContinuous_single E options xmin hsingle] at hs
      cases hs
      cases htaken
  · intro htwo
    have hs : (zs.insertionSort (· ≤ ·)).SortedLE := List.sortedLE_insertionSort
    have hpositive' : ∀ z ∈ zs.insertionSort (· ≤ ·), 0 < z :=
      fun z hz => hpositive z ((List.mem_insertionSort _).mp hz)
    have hlen : (distinct (zs.insertionSort (· ≤ ·))).length = (distinct zs).length := by
      rw [distinct_insertionSort]
    have hne : ¬ (zs.map (Double.fin : ℝ → Double ℝ)).length ≤ 0 := by
      have hmem := mem_distinct.mp (List.getElem_mem (by omega : 0 < (distinct zs).length))
      have := List.length_pos_of_mem hmem
      rw [List.length_map]
      omega
    have hresult := hrun
    simp only [rescoreContinuous, Bool.false_eq_true, if_false, if_neg hne] at hresult
    obtain ⟨search, hsearch, hresult⟩ := bind_eq_ok.mp hresult
    obtain ⟨window, -, hresult⟩ := bind_eq_ok.mp hresult
    cases hresult
    rw [continuousSearch_eq] at hsearch
    have hsize : options.xminMethod = .gssOrLinear →
        (distinct (zs.insertionSort (· ≤ ·))).length < 2 ^ 31 + 5 := by
      intro hmethod
      by_contra hlarge
      rw [hmethod] at hsearch
      exact xminSearch_ne_ok (by rw [length_starts]; omega) search hsearch
    obtain ⟨search', hsearch', htakes, hcount⟩ := xminSearch_counts E hs options.xminMethod
      (by omega) hsize
    obtain rfl := Except.ok.inj (hsearch.symm.trans hsearch')
    have hfinds := (searchFinds_iff_of_pos E options.xminMethod hpositive' hs).mpr (by omega)
    have htail := htakes.resolve_left (hcount.mpr hfinds)
    rw [hrun]
    exact ⟨_, rfl, decide_eq_false
      (htail.refused_iff hpositive' options.finiteSizeCorrection)⟩

/-- The search ends with an exponent and an `xmin` that the likelihood takes. -/
def SearchTaken (E : Environment ℝ) (options : ContinuousOptions ℝ) (ys : List (Double ℝ)) : Prop :=
  ys ≠ [] ∧ ∃ search,
    continuousSearch E iContinuousXminOptEvaluate options.xminMethod ys = .ok search ∧
    ¬ (finalAlpha options.finiteSizeCorrection search.best.result.alpha search.best.n ≤ 1 ∨
      search.best.result.xmin ≤ 0)

theorem accepted_iff_searchTaken {ys : List (Double ℝ)} {score : Option (Rescored ℝ)}
    (hrun : rescoreContinuous E options false xmin ys = .ok score) :
    RefitAccepted (rescoreContinuous E options false xmin ys) ↔ SearchTaken E options ys := by
  rw [hrun, accepted_ok_iff]
  simp only [rescoreContinuous, Bool.false_eq_true, if_false] at hrun
  split_ifs at hrun with hempty
  · cases hrun
    have hnil : ys = [] := List.eq_nil_of_length_eq_zero (Nat.le_zero.mp hempty)
    exact iff_of_false (by simp) (fun h => h.1 hnil)
  · obtain ⟨search, hsearch, hresult⟩ := bind_eq_ok.mp hrun
    obtain ⟨window, -, hresult⟩ := bind_eq_ok.mp hresult
    cases hresult
    have hne : ys ≠ [] := by
      rintro rfl
      exact hempty le_rfl
    simp only [Option.any_some, Bool.not_eq_true', decide_eq_false_iff_not]
    constructor
    · intro htaken
      exact ⟨hne, search, hsearch, htaken⟩
    · rintro ⟨-, search', hsearch', htaken⟩
      obtain rfl := Except.ok.inj (hsearch.symm.trans hsearch')
      exact htaken

/-- The continuous data sets that are refitted successfully. For a search over something else than
positive numbers it matters what the search ends with. -/
def ContinuousFits (E : Environment ℝ) (options : ContinuousOptions ℝ) (xminFixed : Bool)
    (xmin : Double ℝ) (ys : List (Double ℝ)) : Prop :=
  if xminFixed then FixedFits options.finiteSizeCorrection xmin ys
  else
    (∀ zs : List ℝ, ys = zs.map .fin → (∀ z ∈ zs, 0 < z) → 2 ≤ (distinct zs).length) ∧
      ((¬ ∃ zs : List ℝ, ys = zs.map .fin ∧ ∀ z ∈ zs, 0 < z) → SearchTaken E options ys)

theorem accepted_continuous_iff {xminFixed : Bool} {ys : List (Double ℝ)}
    {score : Option (Rescored ℝ)}
    (hrun : rescoreContinuous E options xminFixed xmin ys = .ok score) :
    RefitAccepted (rescoreContinuous E options xminFixed xmin ys) ↔
      ContinuousFits E options xminFixed xmin ys := by
  cases xminFixed with
  | true => exact accepted_continuous_fixed_iff E options
  | false =>
    rw [ContinuousFits, if_neg Bool.false_ne_true]
    by_cases hordinary : ∃ zs : List ℝ, ys = zs.map .fin ∧ ∀ z ∈ zs, 0 < z
    · obtain ⟨zs, rfl, hpositive⟩ := hordinary
      rw [accepted_continuous_search_iff hpositive hrun]
      constructor
      · intro htwo
        refine ⟨?_, fun hnot => absurd ⟨zs, rfl, hpositive⟩ hnot⟩
        intro zs' heq _
        obtain rfl := List.map_injective_iff.mpr (fun _ _ => Double.fin.inj) heq
        exact htwo
      · intro h
        exact h.1 zs rfl hpositive
    · constructor
      · intro haccepted
        refine ⟨?_, fun _ => (accepted_iff_searchTaken hrun).mp haccepted⟩
        intro zs heq hpositive
        exact absurd ⟨zs, heq, hpositive⟩ hordinary
      · intro h
        exact (accepted_iff_searchTaken hrun).mpr (h.2 hordinary)

end Searched

/-! ## Discrete data sets -/

section Discrete
variable {E : Environment ℝ} {options : DiscreteOptions ℝ} {xmin : Double ℝ}
  {ys : List (Double ℝ)}

/-- The estimator gives the samples from `xmin` on an exponent that the likelihood takes. -/
def TailFits (E : Environment ℝ) (options : DiscreteOptions ℝ) (ys : List (Double ℝ))
    (xmin : Double ℝ) : Prop :=
  ∃ alpha, iEstimateAlphaDiscrete E (cutTail ys xmin) xmin options true = .ok (.ok alpha) ∧
    ¬ finalAlpha options.finiteSizeCorrection alpha (cutTail ys xmin).length ≤ 1

/-- The numbers that are refitted successfully in a search: every candidate has an exponent, the
likelihood takes the one of the first candidate with the least score, and where no score lies below
`DBL_MAX`, only the correction by zero samples saves the fit. -/
structure CandidatesFit (E : Environment ℝ) (options : DiscreteOptions ℝ) (zs : List ℝ) :
    Prop where
  estimated : ∀ v ∈ evaluatedValues (zs.insertionSort (· ≤ ·)), ∃ alpha,
    iEstimateAlphaDiscrete E ((tailFrom zs v).map .fin) (.fin v) options true = .ok (.ok alpha)
  taken : ∀ v, scan (valueKey E options (zs.insertionSort (· ≤ ·))) (scoreBound ℝ)
    (evaluatedValues (zs.insertionSort (· ≤ ·))) = some v →
      TailFits E options (zs.map .fin) (.fin v)
  found : options.finiteSizeCorrection = false → FindsScore E options zs

/-- The search ends with an exponent and an `xmin` that the likelihood takes. -/
def DiscreteSearchTaken (E : Environment ℝ) (options : DiscreteOptions ℝ) (ys : List (Double ℝ)) :
    Prop :=
  ∃ search, discreteSearch E options (iCopyAndSort ys) = .ok (.ok search) ∧
    ¬ (finalAlpha options.finiteSizeCorrection search.best.result.alpha search.best.n ≤ 1 ∨
      search.best.result.xmin < 1)

/-- The discrete data sets that are refitted successfully. -/
def DiscreteFits (E : Environment ℝ) (options : DiscreteOptions ℝ) (xminFixed : Bool)
    (xmin : Double ℝ) (ys : List (Double ℝ)) : Prop :=
  discreteInputCheck ys options = .ok () ∧
    if xminFixed then TailFits E options ys xmin
    else
      (∀ zs : List ℝ, ys = zs.map .fin → CandidatesFit E options zs) ∧
        ((¬ ∃ zs : List ℝ, ys = zs.map .fin) → DiscreteSearchTaken E options ys)

theorem accepted_discrete_fixed_iff (hcheck : discreteInputCheck ys options = .ok ()) :
    RefitAccepted (rescoreDiscrete E options true xmin ys) ↔ TailFits E options ys xmin := by
  simp only [rescoreDiscrete, hcheck, if_true, TailFits]
  cases hestimate : iEstimateAlphaDiscrete E (cutTail ys xmin) xmin options true with
  | error stop => simp [RefitAccepted, bind, Except.bind]
  | ok estimate =>
    cases estimate with
    | error f => simp [RefitAccepted, bind, Except.bind, pure, Except.pure]
    | ok alpha =>
      have hxmin := not_lt_one_of_estimated hestimate
      simp only [bind, Except.bind, pure, Except.pure, accepted_ok_iff, Option.any_some,
        Bool.not_eq_true', decide_eq_false_iff_not, or_iff_left hxmin]
      constructor
      · intro h
        exact ⟨alpha, rfl, h⟩
      · rintro ⟨alpha', halpha, h⟩
        cases halpha
        exact h

theorem accepted_iff_discreteSearchTaken {score : Option (Rescored ℝ)}
    (hcheck : discreteInputCheck ys options = .ok ())
    (hrun : rescoreDiscrete E options false xmin ys = .ok score) :
    RefitAccepted (rescoreDiscrete E options false xmin ys) ↔ DiscreteSearchTaken E options ys := by
  rw [hrun, accepted_ok_iff]
  simp only [rescoreDiscrete, hcheck, Bool.false_eq_true, if_false] at hrun
  obtain ⟨found, hsearch, hresult⟩ := bind_eq_ok.mp hrun
  cases found with
  | error f =>
    cases hresult
    refine iff_of_false (by simp) ?_
    rintro ⟨search, hsearch', -⟩
    cases hsearch.symm.trans hsearch'
  | ok search =>
    obtain ⟨window, -, hresult⟩ := bind_eq_ok.mp hresult
    cases hresult
    simp only [Option.any_some, Bool.not_eq_true', decide_eq_false_iff_not]
    constructor
    · intro htaken
      exact ⟨search, hsearch, htaken⟩
    · rintro ⟨search', hsearch', htaken⟩
      cases hsearch.symm.trans hsearch'
      exact htaken

/-- The search is through with its candidates when each of them has an exponent. -/
theorem estimated_iff {sorted zs : List ℝ} (hs : sorted.SortedLE)
    (hsorted : zs.insertionSort (· ≤ ·) = sorted) {v : ℝ} (hv : v ∈ sorted) :
    Estimated E options (sorted.map .fin) (below sorted v) ↔ ∃ alpha,
      iEstimateAlphaDiscrete E ((tailFrom zs v).map .fin) (.fin v) options true =
        .ok (.ok alpha) := by
  have htail : (tailFrom zs v).map Double.fin = (sorted.map .fin).drop (below sorted v) := by
    rw [tailFrom, hsorted, ← drop_below hs, List.map_drop]
  rw [htail]
  constructor
  · intro h
    exact ⟨_, estimated_below hs hv h⟩
  · rintro ⟨alpha, halpha⟩
    have hget : ((sorted.map Double.fin)[below sorted v]?).getD .nan = .fin v := by
      rw [getElem?_map_below hs hv, Option.getD_some]
    refine ⟨by simpa using below_lt_length hs hv, ?_⟩
    rw [candidateAlpha, hget, halpha]

/-- What a search ends with is taken when the candidate that it holds fits. -/
theorem search_taken_iff {zs : List ℝ} {search : DiscreteScan ℝ}
    (hsearch : discreteSearch E options (iCopyAndSort (zs.map .fin)) = .ok (.ok search)) :
    ¬ (finalAlpha options.finiteSizeCorrection search.best.result.alpha search.best.n ≤ 1 ∨
        search.best.result.xmin < 1) ↔
      (∀ v, scan (valueKey E options (zs.insertionSort (· ≤ ·))) (scoreBound ℝ)
        (evaluatedValues (zs.insertionSort (· ≤ ·))) = some v →
          TailFits E options (zs.map .fin) (.fin v)) ∧
      (options.finiteSizeCorrection = false → FindsScore E options zs) := by
  have hs : (zs.insertionSort (· ≤ ·)).SortedLE := List.sortedLE_insertionSort
  rw [findsScore_iff hsearch]
  rw [iCopyAndSort_map] at hsearch
  have hbest := best_eq_scan_values hs hsearch
  have hall := (discreteSearch_spec hs hsearch).2.2
  cases hscan : scan (valueKey E options (zs.insertionSort (· ≤ ·))) (scoreBound ℝ)
      (evaluatedValues (zs.insertionSort (· ≤ ·))) with
  | none =>
    rw [hscan] at hbest
    have hrecord : search.best = discreteBest E := hbest
    have hxmin : ¬ (1 : Double ℝ) < 1 := Double.lt_irrefl _
    simp only [hrecord, discreteBest, reduceCtorEq, false_implies, implies_true, true_and,
      hxmin, or_false, ne_eq, not_true_eq_false, imp_false, Bool.not_eq_false]
    cases options.finiteSizeCorrection with
    | false => simp [finalAlpha]
    | true =>
      rw [finalAlpha_one_zero]
      exact iff_of_true (Double.not_pinf_le_fin 1) rfl
  | some v =>
    have hv := mem_of_scan hscan
    obtain ⟨hmem, hone⟩ := mem_of_mem_evaluatedValues hv
    have htail : cutTail (zs.map .fin) (.fin v) = (tailFrom zs v).map Double.fin :=
      dropWhile_sort zs v
    have hdrop : (tailFrom zs v).map Double.fin =
        ((zs.insertionSort (· ≤ ·)).map .fin).drop (below (zs.insertionSort (· ≤ ·)) v) := by
      rw [tailFrom, ← drop_below hs, List.map_drop]
    have halpha := estimated_below hs hmem (hall v hv)
    rw [hscan] at hbest
    have hn : search.best.n = (cutTail (zs.map Double.fin) (.fin v)).length := by
      rw [hbest, htail, hdrop, List.length_drop]
      rfl
    have hold : search.best.result.alpha = candidateAlpha E options
        ((zs.insertionSort (· ≤ ·)).map .fin) (below (zs.insertionSort (· ≤ ·)) v) := by
      rw [hbest]
      rfl
    have hxmin : ¬ search.best.result.xmin < 1 := by
      have hrecord : search.best.result.xmin = .fin v := by
        rw [hbest]
        simp [candidateFit, fitOf, candidateRecord_below hs hmem]
      rw [hrecord, Double.one_def, Double.fin_lt_fin]
      exact hone.not_gt
    rw [or_iff_left hxmin, hold, hn]
    constructor
    · intro htaken
      refine ⟨?_, fun _ => Option.some_ne_none v⟩
      intro w hw
      cases hw
      exact ⟨_, by rw [htail, hdrop]; exact halpha, htaken⟩
    · rintro ⟨htaken, -⟩
      obtain ⟨alpha, hestimate, hfinal⟩ := htaken v rfl
      rw [htail, hdrop, halpha] at hestimate
      cases hestimate
      rwa [htail, hdrop] at hfinal ⊢

/-- What the search over numbers ends with is taken when its candidates fit. -/
theorem discreteSearchTaken_iff {zs : List ℝ}
    (hcheck : discreteInputCheck (zs.map Double.fin) options = .ok ()) :
    DiscreteSearchTaken E options (zs.map .fin) ↔ CandidatesFit E options zs := by
  have hs : (zs.insertionSort (· ≤ ·)).SortedLE := List.sortedLE_insertionSort
  have hne : zs.insertionSort (· ≤ ·) ≠ [] := by
    intro hnil
    have hperm := List.perm_insertionSort (· ≤ ·) zs
    rw [hnil] at hperm
    rw [List.nil_perm.mp hperm] at hcheck
    cases hcheck
  have hestimated : ∀ v ∈ evaluatedValues (zs.insertionSort (· ≤ ·)),
      (Estimated E options ((zs.insertionSort (· ≤ ·)).map .fin)
        (below (zs.insertionSort (· ≤ ·)) v) ↔ ∃ alpha,
        iEstimateAlphaDiscrete E ((tailFrom zs v).map .fin) (.fin v) options true =
          .ok (.ok alpha)) :=
    fun v hv => estimated_iff hs rfl (mem_of_mem_evaluatedValues hv).1
  constructor
  · rintro ⟨search, hsearch, htaken⟩
    obtain ⟨htails, hfound⟩ := (search_taken_iff hsearch).mp htaken
    rw [iCopyAndSort_map] at hsearch
    have hall := (discreteSearch_spec hs hsearch).2.2
    exact ⟨fun v hv => (hestimated v hv).mp (hall v hv), htails, hfound⟩
  · intro h
    obtain ⟨search, hsearch⟩ := discreteSearch_total hs hne
      (fun v hv => (hestimated v hv).mpr (h.estimated v hv))
    rw [← iCopyAndSort_map] at hsearch
    exact ⟨search, hsearch, (search_taken_iff hsearch).mpr ⟨h.taken, h.found⟩⟩

theorem accepted_discrete_iff {xminFixed : Bool} {score : Option (Rescored ℝ)}
    (hrun : rescoreDiscrete E options xminFixed xmin ys = .ok score) :
    RefitAccepted (rescoreDiscrete E options xminFixed xmin ys) ↔
      DiscreteFits E options xminFixed xmin ys := by
  cases hcheck : discreteInputCheck ys options with
  | error f =>
    have hnone : rescoreDiscrete E options xminFixed xmin ys = .ok none := by
      simp only [rescoreDiscrete, hcheck]
    rw [hnone, accepted_ok_iff]
    refine iff_of_false (by simp) (fun h => ?_)
    rw [DiscreteFits, hcheck] at h
    cases h.1
  | ok u =>
    cases xminFixed with
    | true =>
      rw [accepted_discrete_fixed_iff hcheck, DiscreteFits, if_pos rfl, and_iff_right hcheck]
    | false =>
      rw [accepted_iff_discreteSearchTaken hcheck hrun, DiscreteFits, if_neg Bool.false_ne_true,
        and_iff_right hcheck]
      by_cases hordinary : ∃ zs : List ℝ, ys = zs.map .fin
      · obtain ⟨zs, rfl⟩ := hordinary
        rw [discreteSearchTaken_iff hcheck]
        constructor
        · intro hfits
          refine ⟨?_, fun hnot => absurd ⟨zs, rfl⟩ hnot⟩
          intro zs' heq
          obtain rfl := List.map_injective_iff.mpr (fun _ _ => Double.fin.inj) heq
          exact hfits
        · intro h
          exact h.1 zs rfl
      · constructor
        · intro htaken
          refine ⟨?_, fun _ => htaken⟩
          intro zs heq
          exact absurd ⟨zs, heq⟩ hordinary
        · intro h
          exact h.2 hordinary

end Discrete
end Plfit
