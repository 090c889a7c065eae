import Mathlib
import Plfit.Fit.ContinuousFit
import Plfit.Search.BracketPath
import Plfit.Search.GoldenSearch

/-! # Fits with a golden section search

The search returns its location, and the record of the probe it has looked at last. The two
belong together, but the size of the tail is counted from the location and one too large.
-/
namespace Plfit
open ExactArithmetic SortedBlocks

section Search
variable {xs : List ℝ}

/-- The score of the probe that a point of the range stands for. -/
noncomputable def probeScore (xs : List ℝ) (x : ℝ) : ℝ :=
  let p := startAt xs ⌊x⌋₊
  ksScore (xs.drop p) (hillAlpha (xs.drop p) (xs.getD p 0)) (xs.getD p 0)

noncomputable def probeRecord (E : Environment ℝ) (xs : List ℝ) (j : ℕ) : PlfitResult ℝ :=
  uniqueRecord (positionAlpha xs) (positionScore xs) xs E.lastResult j

def LastProbe (E : Environment ℝ) (xs : List ℝ) (j : ℕ) (d : XminOptData ℝ) : Prop :=
  d.last = probeRecord E xs j ∧ d.evaluated.getLast? = some (startAt xs j)

noncomputable def goldenCall (E : Environment ℝ) (xs : List ℝ) :
    Exec (GssOutcome (XminOptData ℝ) ℝ) :=
  gss (evaluateAt iContinuousXminOptEvaluate) (some iContinuousXminOptProgress)
    gssDefaultParameter 0 (sizeSub (distinct xs).length 5 : ℝ) (uniqueProbes xs E.lastResult [])

def unsetBest (n : ℕ) : BestFit ℝ :=
  { result := { alpha := .nan, xmin := .nan, L := .nan, D := .nan, p := .nan }, n := n }

noncomputable def goldenSearch (E : Environment ℝ) (xs : List ℝ) : Exec (XminSearch ℝ) :=
  gssSearch iContinuousXminOptEvaluate (uniqueProbes xs E.lastResult []) (unsetBest xs.length)

/-- The callback: both ends of the bracket stand for one probe. -/
noncomputable def sameProbe (left right : ℝ) : Bool := decide (⌊left⌋₊ = ⌊right⌋₊)

/-- The golden section over the scores of the probes ends with the bracket `B`. -/
def ScoresNarrowTo (xs : List ℝ) (B : Bracket ℝ) : Prop :=
  ∃ n, EndsAfter (probeScore xs) 0 (((distinct xs).length - 5 : ℕ) : ℝ) dblMin sameProbe n ∧
    bracketAfter (probeScore xs) 0 (((distinct xs).length - 5 : ℕ) : ℝ) n = B

/-- A bracket that has shrunk to `DBL_MIN` with an interior point that is no worse than the midpoint
and stands for the sample right behind the one that the midpoint stands for. -/
structure AroundBoundary (xs : List ℝ) (B : Bracket ℝ) : Prop where
  short : |B.a - B.b| ≤ dblMin
  le_midpoint : probeScore xs B.c ≤ probeScore xs ((B.a + B.b) / 2)
  next : startAt xs ⌊B.c⌋₊ = startAt xs ⌊(B.a + B.b) / 2⌋₊ + 1

theorem numProbes_uniqueProbes (xs : List ℝ) (last : PlfitResult ℝ) (seen : List ℕ) :
    (uniqueProbes xs last seen).numProbes = (distinct xs).length := by
  rw [uniqueProbes, length_starts]

theorem searchesRange_real (E : Environment ℝ) (hs : xs.SortedLE) (hpositive : ∀ x ∈ xs, 0 < x)
    (hmany : 5 < (distinct xs).length) (hsize : (distinct xs).length < 2 ^ 31 + 5) :
    SearchesRange (evaluateAt iContinuousXminOptEvaluate) iContinuousXminOptProgress 0
      (((distinct xs).length - 5 : ℕ) : ℝ)
      (TableInvariant (uniqueProbes xs E.lastResult []))
      (fun x fx d => fx = d.last.D ∧ LastProbe E xs ⌊x⌋₊ d) sameProbe := by
  have hprobes := uniqueProbes_probesAt hs (by omega) E.lastResult []
  have hnum := numProbes_uniqueProbes xs E.lastResult []
  have hscores := (followsTables_evaluate hs hpositive).scores hprobes
    (n := (distinct xs).length - 1) (by omega) (fun i hi => ⟨i, hi, rfl⟩)
  apply searchesProbes (by omega)
  intro d hd j hj
  obtain ⟨d', hrun, hd', hlast, hseen⟩ := hscores.step d hd j (by omega)
  refine ⟨d', hrun, hd', hlast, ?_⟩
  rw [hseen, List.getLast?_concat]

theorem score_of_lastProbe {E : Environment ℝ} {x : ℝ} {fx : Double ℝ} {d : XminOptData ℝ}
    (h : fx = d.last.D ∧ LastProbe E xs ⌊x⌋₊ d) : fx = .fin (probeScore xs x) := by
  obtain ⟨rfl, hlast, -⟩ := h
  rw [hlast]
  rfl

theorem ScoresNarrowTo.unique {B B' : Bracket ℝ} (h : ScoresNarrowTo xs B)
    (h' : ScoresNarrowTo xs B') : B = B' := by
  obtain ⟨m, hm, rfl⟩ := h
  obtain ⟨n, hn, rfl⟩ := h'
  rw [hm.unique hn]

/-- The search fails, or it ends with the bracket to which the scores of the probes lead. -/
theorem goldenCall_cases (E : Environment ℝ) (hs : xs.SortedLE) (hpositive : ∀ x ∈ xs, 0 < x)
    (hmany : 5 < (distinct xs).length) (hsize : (distinct xs).length < 2 ^ 31 + 5) :
    ∃ out, goldenCall E xs = .ok out ∧ out.data.probes = (starts xs).map some ++ [none] ∧
      (out.status = .failure ∧ (∀ B, ¬ ScoresNarrowTo xs B) ∨
        ∃ B, ScoresNarrowTo xs B ∧ out.status = .success ∧
          out.min = some (B.best (probeScore xs) dblMin) ∧
          LastProbe E xs ⌊B.last dblMin⌋₊ out.data ∧
          NarrowedTo (probeScore xs) 0 (((distinct xs).length - 5 : ℕ) : ℝ) dblMin sameProbe
            (B.best (probeScore xs) dblMin) (B.last dblMin) (min B.a B.b) (max B.a B.b)) := by
  have hrange := searchesRange_real E hs hpositive hmany hsize
  have hzero : (0 : ℝ) ∈ Set.Icc 0 (((distinct xs).length - 5 : ℕ) : ℝ) :=
    ⟨le_rfl, Nat.cast_nonneg _⟩
  obtain ⟨out, hrun, hgood, hout⟩ := hrange.gss_follows (fun _ _ _ => score_of_lastProbe)
    (Nat.cast_nonneg _) (not_stop_of_pos (by omega)) rfl dblMin_pos
    (hrange.evaluate _ 0 ⟨rfl, rfl, rfl, rfl⟩ hzero)
  refine ⟨out, ?_, hgood.2.1, ?_⟩
  · rw [goldenCall, sizeSub_of_le (by omega)]
    exact hrun
  · rcases hout with ⟨hfail, hnone⟩ | ⟨n, B, hend, hB, hout, hnarrow⟩
    · exact Or.inl ⟨hfail, fun B ⟨n, hend, _⟩ => hnone n hend⟩
    · exact Or.inr ⟨B, ⟨n, hend, hB⟩, hout.success, hout.min_eq, hout.shows.2, hnarrow⟩

/-- Between ends that stand for one probe all points stand for it. -/
theorem aroundBoundary_iff {B : Bracket ℝ} {hi : ℝ}
    (h : NarrowedTo (probeScore xs) 0 hi dblMin sameProbe (B.best (probeScore xs) dblMin)
      (B.last dblMin) (min B.a B.b) (max B.a B.b)) :
    AroundBoundary xs B ↔ startAt xs ⌊B.best (probeScore xs) dblMin⌋₊ =
      startAt xs ⌊B.last dblMin⌋₊ + 1 := by
  constructor
  · intro hb
    have hlast : B.last dblMin = (B.a + B.b) / 2 := if_neg hb.short.not_gt
    have hbest : B.best (probeScore xs) dblMin = B.c := by
      rw [Bracket.best, hlast, if_neg hb.le_midpoint.not_gt]
    rw [hbest, hlast, hb.next]
  · intro hnext
    rcases h.ended with hsame | hshort
    · have hfloor : ⌊min B.a B.b⌋₊ = ⌊max B.a B.b⌋₊ := of_decide_eq_true hsame
      have hprobe : ∀ z ∈ Set.Icc (min B.a B.b) (max B.a B.b), ⌊z⌋₊ = ⌊max B.a B.b⌋₊ :=
        fun z hz => le_antisymm (Nat.floor_mono hz.2) (hfloor ▸ Nat.floor_mono hz.1)
      rw [hprobe _ h.x_mem, hprobe _ h.y_mem] at hnext
      omega
    · rw [max_sub_min_eq_abs, abs_sub_comm] at hshort
      have hlast : B.last dblMin = (B.a + B.b) / 2 := if_neg hshort.not_gt
      rw [Bracket.best, hlast] at hnext
      split at hnext
      · omega
      · rename_i hle
        exact ⟨hshort, not_lt.mp hle, hnext⟩

/-- A range that an `int` does not hold stops the search. -/
theorem goldenCall_size (E : Environment ℝ) {out : GssOutcome (XminOptData ℝ) ℝ}
    (hrun : goldenCall E xs = .ok out) : (distinct xs).length < 2 ^ 31 + 5 := by
  by_contra hlarge
  refine gss_ne_ok _ ?_ _ _ hrun
  rw [sizeSub_of_le (by omega)]
  exact_mod_cast (by omega : 2 ^ 31 ≤ (distinct xs).length - 5)

theorem goldenCall_success (E : Environment ℝ) (hs : xs.SortedLE) (hpositive : ∀ x ∈ xs, 0 < x)
    (hmany : 5 < (distinct xs).length) {out : GssOutcome (XminOptData ℝ) ℝ}
    (hrun : goldenCall E xs = .ok out) (hsuccess : out.status = .success) {x : ℝ}
    (hmin : out.min = some x) :
    ∃ B j, ScoresNarrowTo xs B ∧ (AroundBoundary xs B ↔ startAt xs ⌊x⌋₊ = startAt xs j + 1) ∧
      j < (distinct xs).length - 1 ∧ LastProbe E xs j out.data ∧ 0 < ⌊x⌋₊ ∧
      ⌊x⌋₊ < (distinct xs).length - 1 ∧
      takeMinimum (uniqueProbes xs E.lastResult []) (unsetBest xs.length) out =
        .ok { success := true
              best := { result := probeRecord E xs j, n := xs.length - startAt xs ⌊x⌋₊ + 1 }
              evaluated := out.data.evaluated
              last := out.data.last } := by
  have hsize := goldenCall_size E hrun
  obtain ⟨out', hrun', hprobes, hend⟩ := goldenCall_cases E hs hpositive hmany hsize
  obtain rfl : out = out' := Except.ok.inj (hrun.symm.trans hrun')
  rcases hend with ⟨hfail, -⟩ | ⟨B, hB, -, hmin', hlast, hnarrow⟩
  · rw [hsuccess] at hfail
    cases hfail
  have hboundary := aroundBoundary_iff hnarrow
  rw [← Option.some.inj (hmin.symm.trans hmin')] at hboundary hnarrow
  have hrange : ∀ z ∈ Set.Icc (min B.a B.b) (max B.a B.b),
      z ∈ Set.Icc (0 : ℝ) (((distinct xs).length - 5 : ℕ) : ℝ) :=
    fun z hz => ⟨hnarrow.left_mem.1.trans hz.1, hz.2.trans hnarrow.right_mem.2⟩
  obtain ⟨hconvert, -, hle⟩ := toSigned_of_le (by omega) (hrange _ hnarrow.x_mem)
  have hley := Nat.floor_le_of_le (hrange _ hnarrow.y_mem).2
  refine ⟨B, ⌊B.last dblMin⌋₊, hB, hboundary, by omega, hlast, ?_, by omega, ?_⟩
  · -- the location is better than the first probe
    rw [Nat.pos_iff_ne_zero]
    intro hzero
    have hless := hnarrow.lt_lo
    rw [probeScore, probeScore, hzero, Nat.floor_zero] at hless
    exact hless.false
  · have hptr : derefPointer out.data.probes ⌊x⌋₊ = .ok (startAt xs ⌊x⌋₊) := by
      rw [hprobes]
      exact derefPointer_eq_ok (getElem?_uniques hs (by omega))
    simp only [takeMinimum, hsuccess, hmin, hconvert, convert, bind, Except.bind,
      Int.toNat_natCast, hptr, hlast.1, uniqueProbes, List.length_map]
    rfl

/-! ## The end of a fit -/

noncomputable def goldenFit (finiteSizeCorrection : Bool) (xs : List ℝ) (i : ℕ) (tail : List ℝ)
    (xmin : ℝ) : PlfitResult ℝ where
  alpha := .fin (correctedAlpha finiteSizeCorrection (hillAlpha tail xmin)
    (xs.length - startAt xs i + 1))
  xmin := .fin xmin
  L := .fin (realLogLikelihood ((xs.drop (startAt xs i - 1)).filter (xmin ≤ ·))
    (correctedAlpha finiteSizeCorrection (hillAlpha tail xmin) (xs.length - startAt xs i + 1)) xmin)
  D := .fin (ksScore tail (hillAlpha tail xmin) xmin)
  p := .nan

theorem finishContinuous_golden (E : Environment ℝ) (options : ContinuousOptions ℝ)
    (hs : xs.SortedLE) (hpositive : ∀ x ∈ xs, 0 < x) {i j : ℕ} (hi : 0 < i)
    (hi' : i < (distinct xs).length) (hj : j < (distinct xs).length - 1)
    (hj' : j < (distinct xs).length) (rng : Rng) :
    finishContinuous skipPValue options (xs.map .fin)
        { result := probeRecord E xs j, n := xs.length - startAt xs i + 1 } rng =
      .ok { failure := none
            result := goldenFit options.finiteSizeCorrection xs i (xs.drop (startAt xs j))
              (distinct xs)[j]
            rng := rng } := by
  have htail := probeTail_startAt hs hpositive hj hj'
  have halpha := one_lt_hillAlpha htail.pos htail.le htail.above
  have hlt : startAt xs i < xs.length :=
    (List.getElem?_eq_some_iff.mp (startAt_spec hs hi').1).1
  have hpos : 0 < startAt xs i := (Nat.zero_le _).trans_lt (startAt_lt_startAt hs hi hi')
  have hcorrect := one_lt_correctedAlpha options.finiteSizeCorrection halpha
    (n := xs.length - startAt xs i + 1) (fun _ => by omega)
  have hwindow : tailWindow (xs.map Double.fin) (xs.length - startAt xs i + 1) =
      .ok ((xs.drop (startAt xs i - 1)).map .fin) := by
    rw [tailWindow, List.length_map, if_pos (by omega), List.map_drop]
    congr 2
    omega
  have hxmin : (probeRecord E xs j).xmin = .fin (distinct xs)[j] :=
    uniqueRecord_xmin hs hj' E.lastResult
  have hrecord : probeRecord E xs j =
      { E.lastResult with
        alpha := .fin (hillAlpha (xs.drop (startAt xs j)) (distinct xs)[j])
        xmin := .fin (distinct xs)[j]
        D := .fin (ksScore (xs.drop (startAt xs j))
          (hillAlpha (xs.drop (startAt xs j)) (distinct xs)[j]) (distinct xs)[j]) } := by
    rw [← hxmin]
    simp only [probeRecord, uniqueRecord, positionAlpha, positionScore, htail.getD]
  simp only [finishContinuous, hrecord]
  rw [correct_fin options.finiteSizeCorrection
    (hillAlpha (xs.drop (startAt xs j)) (distinct xs)[j]) rfl (Nat.succ_pos _)]
  simp only [hwindow, bind, Except.bind, logLikelihoodContinuous_filter hcorrect htail.pos,
    skipPValue, goldenFit]

end Search

/-! ## The agreement with the fit at the chosen `xmin` -/

section Agreement
variable {options : ContinuousOptions ℝ} {xs : List ℝ}

/-- A fit has ended like the fit at the `xmin` it has chosen, and has counted the samples from
there on. -/
def AgreesWithFixed (E : Environment ℝ) (options : ContinuousOptions ℝ) (xs : List ℝ) (bestN : ℕ)
    (out : Outcome ℝ) : Prop :=
  ∃ xmin, out.result.xmin = .fin xmin ∧ bestN = (xs.filter (xmin ≤ ·)).length ∧
    ∀ result rng, ∃ fixed,
      estimateAlphaContinuous E (some options) (xs.map .fin) (.fin xmin) result rng = .ok fixed ∧
      out.failure = fixed.failure ∧ out.result.alpha = fixed.result.alpha ∧
      out.result.D = fixed.result.D ∧ out.result.L = fixed.result.L

/-- Whenever the golden section search succeeds, the fit agrees with the fit at its `xmin`. -/
def GoldenAgrees (E : Environment ℝ) (options : ContinuousOptions ℝ) (xs : List ℝ) : Prop :=
  ∀ search, goldenSearch E (xs.insertionSort (· ≤ ·)) = .ok search → search.success = true →
    ∀ result rng, ∃ out, continuous E (some options) (xs.map .fin) result rng = .ok out ∧
      AgreesWithFixed E options xs search.best.n out

/-- Where the golden section over the scores of the probes ends, it has shrunk to a boundary. From
`2 ^ 31` on no `int` holds the end of its range. -/
def EndsAtBoundary (xs : List ℝ) : Prop :=
  (distinct xs).length < 2 ^ 31 + 5 → ∀ B, ScoresNarrowTo xs B → AroundBoundary xs B

theorem goldenSearch_eq (E : Environment ℝ) (xs : List ℝ) :
    goldenSearch E xs = goldenCall E xs >>=
      takeMinimum (uniqueProbes xs E.lastResult []) (unsetBest xs.length) := by
  rw [goldenSearch, gssSearch_eq, goldenCall, numProbes_uniqueProbes]

theorem continuous_of_goldenSearch (E : Environment ℝ) (hmethod : options.xminMethod = .gssOrLinear)
    (hskip : options.pValueMethod = .skip) (hmany : 5 < (distinct xs).length)
    {search : XminSearch ℝ} (hsearch : goldenSearch E (xs.insertionSort (· ≤ ·)) = .ok search)
    (hsuccess : search.success = true) (result : PlfitResult ℝ) (rng : Rng) :
    continuous E (some options) (xs.map .fin) result rng =
      finishContinuous skipPValue options ((xs.insertionSort (· ≤ ·)).map .fin) search.best rng := by
  have hne : ¬ (xs.map (Double.fin : ℝ → Double ℝ)).length ≤ 0 := by
    have hmem : (distinct xs)[0] ∈ xs := mem_distinct.mp (List.getElem_mem (by omega))
    have := List.length_pos_of_mem hmem
    rw [List.length_map]
    omega
  rw [← distinct_insertionSort] at hmany
  have hrun : continuousSearch E iContinuousXminOptEvaluate options.xminMethod (xs.map .fin) =
      .ok search := by
    rw [goldenSearch, uniqueProbes, unsetBest, length_starts] at hsearch
    rw [continuousSearch_eq, hmethod, length_starts]
    simp only [xminSearch, if_pos hmany, List.length_map, hsearch, bind, Except.bind, hsuccess,
      if_true]
    rfl
  simp only [continuous, Option.getD_some, iCalculatePValueContinuous_skip E hskip,
    continuousWith, if_neg hne, hrun, bind, Except.bind, iCopyAndSort_map]

theorem length_filter_sort (xs : List ℝ) (v : ℝ) :
    (xs.filter (v ≤ ·)).length = ((xs.insertionSort (· ≤ ·)).filter (v ≤ ·)).length :=
  ((List.perm_insertionSort (· ≤ ·) xs).filter _).length_eq.symm

/-- The size of the tail is right exactly if the location is one sample behind the last probe,
and then the whole record is. -/
theorem agreesWithFixed_iff (E : Environment ℝ) (hskip : options.pValueMethod = .skip)
    (hpositive : ∀ x ∈ xs, 0 < x) {i j : ℕ} (hi' : i < (distinct xs).length - 1)
    (hj : j < (distinct xs).length - 1) (rng : Rng) :
    let sorted := xs.insertionSort (· ≤ ·)
    AgreesWithFixed E options xs (sorted.length - startAt sorted i + 1)
        { failure := none
          result := goldenFit options.finiteSizeCorrection sorted i (sorted.drop (startAt sorted j))
            ((distinct xs).getD j 0)
          rng := rng } ↔ startAt sorted i = startAt sorted j + 1 := by
  intro sorted
  have hs : sorted.SortedLE := List.sortedLE_insertionSort
  have hpositive' : ∀ x ∈ sorted, 0 < x := fun x hx => hpositive x ((List.mem_insertionSort _).mp hx)
  have hdistinct : distinct sorted = distinct xs := distinct_insertionSort xs
  rw [← hdistinct] at hi' hj ⊢
  have hj' : j < (distinct sorted).length := by omega
  have hiu : i < (distinct sorted).length := by omega
  obtain ⟨v, hv⟩ : ∃ v, (distinct sorted)[j] = v := ⟨_, rfl⟩
  have htail := probeTail_startAt hs hpositive' hj hj'
  have hlt : startAt sorted i < sorted.length :=
    (List.getElem?_eq_some_iff.mp (startAt_spec hs hiu).1).1
  have hltj : startAt sorted j < sorted.length := (List.getElem?_eq_some_iff.mp htail.get).1
  have hmem : v ∈ xs := (List.mem_insertionSort _).mp (List.mem_of_getElem? (hv ▸ htail.get))
  have habove : ∃ y ∈ xs, v < y := by
    obtain ⟨y, hy, hvy⟩ := htail.above
    exact ⟨y, (List.mem_insertionSort _).mp (List.mem_of_mem_drop hy), hv ▸ hvy⟩
  rw [List.getD_eq_getElem _ _ hj', hv]
  rw [hv] at htail
  have hlen : (xs.filter (v ≤ ·)).length = sorted.length - startAt sorted j := by
    rw [length_filter_sort, ← htail.drop_eq, List.length_drop]
  constructor
  · rintro ⟨xmin, hxmin, hsize, -⟩
    obtain rfl : v = xmin := Double.fin.inj hxmin
    omega
  · intro hnext
    have hsize : sorted.length - startAt sorted i + 1 = (sorted.drop (startAt sorted j)).length := by
      rw [List.length_drop]
      omega
    have hbegin : startAt sorted i - 1 = startAt sorted j := by omega
    have hwindow : (sorted.drop (startAt sorted j)).filter (v ≤ ·) =
        sorted.drop (startAt sorted j) := List.filter_eq_self.mpr (by simpa using htail.le)
    have hfixed := estimateAlphaContinuous_real E hskip (hpositive v hmem) habove
      (fun _ => length_tailFrom_ge_two hmem habove)
    have htailFrom : tailFrom xs v = sorted.drop (startAt sorted j) := htail.drop_eq.symm
    refine ⟨v, rfl, by omega, ?_⟩
    intro result rng'
    refine ⟨_, hfixed result rng', rfl, ?_, ?_, ?_⟩
    · simp only [goldenFit, tailFit, htailFrom, hsize]
    · simp only [goldenFit, tailFit, htailFrom]
    · simp only [goldenFit, tailFit, htailFrom, hsize, hbegin, hwindow]

end Agreement

/-! ## Powers of two -/

section Powers
variable {es : List ℕ} {b : ℕ}

noncomputable def powers (es : List ℕ) : List ℝ := es.map (fun e => (2 : ℝ) ^ e)

/-- The exponent of the fitted distribution function at `2 ^ e` in a tail from `2 ^ b` on. -/
def powerQuotient (es : List ℕ) (b e : ℕ) : ℚ :=
  (es.length * (e - b : ℕ) : ℚ) / ((es.map (· - b)).sum : ℕ)

theorem exp_neg_bounds {q : ℝ} (h0 : 0 ≤ q) (h32 : q ≤ 32) :
    (1 - q / 32) ^ 32 ≤ Real.exp (-q) ∧ Real.exp (-q) ≤ 1 / (1 + q / 32) ^ 32 := by
  constructor
  · exact_mod_cast Real.one_sub_div_pow_le_exp_neg (n := 32) (by exact_mod_cast h32)
  · have hpow : (1 + q / 32) ^ 32 ≤ Real.exp q := by
      have hroot : 1 + q / 32 ≤ Real.exp (q / 32) := by
        rw [add_comm]
        exact Real.add_one_le_exp _
      calc (1 + q / 32) ^ 32 ≤ Real.exp (q / 32) ^ 32 := pow_le_pow_left₀ (by positivity) hroot 32
        _ = Real.exp q := by
          rw [← Real.exp_nat_mul]
          congr 1
          norm_num
          ring
    rw [Real.exp_neg, one_div]
    exact inv_anti₀ (by positivity) hpow

theorem log_power_ratio {e : ℕ} (he : b ≤ e) :
    Real.log ((2 : ℝ) ^ e / 2 ^ b) = ((e - b : ℕ) : ℝ) * Real.log 2 := by
  rw [Real.log_div (by positivity) (by positivity), Real.log_pow, Real.log_pow, Nat.cast_sub he]
  ring

theorem logSum_powers (hb : ∀ e ∈ es, b ≤ e) :
    logSum (powers es) (2 ^ b) = ((es.map (· - b)).sum : ℕ) * Real.log 2 := by
  induction es with
  | nil => simp [logSum, powers]
  | cons e es ih =>
    have hrest := ih (fun e' he' => hb e' (List.mem_cons_of_mem e he'))
    simp only [logSum, powers, List.map_cons, List.sum_cons] at hrest ⊢
    rw [log_power_ratio (hb e List.mem_cons_self), hrest, Nat.cast_add]
    ring

theorem rpow_powers (hb : ∀ e ∈ es, b ≤ e) (hS : 0 < (es.map (· - b)).sum) {e : ℕ} (he : b ≤ e) :
    ((2 : ℝ) ^ b / 2 ^ e) ^ (hillAlpha (powers es) (2 ^ b) - 1) =
      Real.exp (-(powerQuotient es b e : ℝ)) := by
  have hlog : Real.log ((2 : ℝ) ^ b / 2 ^ e) = -(((e - b : ℕ) : ℝ) * Real.log 2) := by
    rw [← log_power_ratio he, ← Real.log_inv, inv_div]
  have hlog2 : Real.log 2 ≠ 0 := (Real.log_pos one_lt_two).ne'
  rw [Real.rpow_def_of_pos (by positivity), hlog, hillAlpha, logSum_powers hb, powerQuotient]
  generalize (es.map (· - b)).sum = S at hS
  have hS' : (S : ℝ) ≠ 0 := by exact_mod_cast hS.ne'
  congr 1
  push_cast
  rw [powers, List.length_map]
  field_simp
  ring

theorem ksDistances_powers (hb : ∀ e ∈ es, b ≤ e) (hS : 0 < (es.map (· - b)).sum) :
    ksDistances (hillAlpha (powers es) (2 ^ b)) (2 ^ b) (powers es).length (powers es) 0 =
      es.zipIdx.map (fun p => |1 - Real.exp (-(powerQuotient es b p.1 : ℝ)) - p.2 / es.length|) := by
  have hlen : (powers es).length = es.length := List.length_map _
  rw [ksDistances, hlen]
  conv_lhs => rw [powers, List.zipIdx_map, List.map_map]
  apply List.map_congr_left
  intro p hp
  have he : p.1 ∈ es := List.fst_mem_of_mem_zipIdx hp
  have hpow := rpow_powers hb hS (hb _ he)
  rw [powers] at hpow
  simp only [Function.comp_apply, Prod.map_fst, Prod.map_snd, id_eq]
  rw [hpow]

theorem powerQuotient_nonneg (es : List ℕ) (b e : ℕ) : 0 ≤ powerQuotient es b e := by
  rw [powerQuotient]
  positivity

theorem ksScore_powers_le (hb : ∀ e ∈ es, b ≤ e) (hS : 0 < (es.map (· - b)).sum) {t : ℚ}
    (ht : 0 ≤ t) (hcheck : ∀ p ∈ es.zipIdx, powerQuotient es b p.1 ≤ 32 ∧
      1 - (1 - powerQuotient es b p.1 / 32) ^ 32 - p.2 / es.length ≤ t ∧
      -t ≤ 1 - 1 / (1 + powerQuotient es b p.1 / 32) ^ 32 - p.2 / es.length) :
    ksScore (powers es) (hillAlpha (powers es) (2 ^ b)) (2 ^ b) ≤ t := by
  rw [ksScore_le_iff, ksDistances_powers hb hS]
  refine ⟨by exact_mod_cast ht, ?_⟩
  intro d hd
  obtain ⟨p, hp, rfl⟩ := List.mem_map.mp hd
  obtain ⟨h32, hupper, hlower⟩ := hcheck p hp
  have hnonneg := powerQuotient_nonneg es b p.1
  generalize powerQuotient es b p.1 = q at h32 hupper hlower hnonneg
  obtain ⟨hlow, hhigh⟩ := exp_neg_bounds (q := q) (by exact_mod_cast hnonneg)
    (by exact_mod_cast h32)
  rw [← Rat.cast_le (K := ℝ)] at hupper hlower
  push_cast at hupper hlower
  refine abs_le.mpr ⟨?_, ?_⟩
  · linarith only [hlower, hhigh]
  · linarith only [hupper, hlow]

theorem le_ksScore_powers (hb : ∀ e ∈ es, b ≤ e) (hS : 0 < (es.map (· - b)).sum) {t : ℚ}
    {p : ℕ × ℕ} (hp : p ∈ es.zipIdx) (h32 : powerQuotient es b p.1 ≤ 32)
    (hcheck : t ≤ 1 - 1 / (1 + powerQuotient es b p.1 / 32) ^ 32 - p.2 / es.length) :
    (t : ℝ) ≤ ksScore (powers es) (hillAlpha (powers es) (2 ^ b)) (2 ^ b) := by
  have hscore := (ksScore_le_iff.mp (le_refl
    (ksScore (powers es) (hillAlpha (powers es) (2 ^ b)) (2 ^ b)))).2
  rw [ksDistances_powers hb hS] at hscore
  have hdistance := hscore _ (List.mem_map_of_mem hp)
  have hnonneg := powerQuotient_nonneg es b p.1
  generalize powerQuotient es b p.1 = q at h32 hcheck hnonneg hdistance
  obtain ⟨-, hhigh⟩ := exp_neg_bounds (q := q) (by exact_mod_cast hnonneg)
    (by exact_mod_cast h32)
  rw [← Rat.cast_le (K := ℝ)] at hcheck
  push_cast at hcheck
  refine le_trans ?_ ((le_abs_self _).trans hdistance)
  linarith only [hcheck, hhigh]

theorem powers_sortedLT (hes : es.SortedLT) : (powers es).SortedLT := by
  refine (List.Pairwise.map _ ?_ hes.pairwise).sortedLT
  intro a b hab
  exact pow_lt_pow_right₀ one_lt_two hab

theorem powers_pos : ∀ x ∈ powers es, 0 < x := by
  intro x hx
  obtain ⟨e, -, rfl⟩ := List.mem_map.mp hx
  positivity

theorem startAt_powers (hes : es.SortedLT) {j : ℕ} (hj : j < es.length) :
    startAt (powers es) j = j := by
  have hlen : (powers es).length = es.length := List.length_map _
  rw [startAt, starts_of_sortedLT (powers_sortedLT hes), List.getD_eq_getElem _ _ (by simpa [hlen]),
    List.getElem_range]

theorem probeScore_powers (hes : es.SortedLT) {x : ℝ} {j : ℕ} (hx : ⌊x⌋₊ = j)
    (hj : j < es.length) :
    probeScore (powers es) x =
      ksScore (powers (es.drop j)) (hillAlpha (powers (es.drop j)) (2 ^ es[j])) (2 ^ es[j]) := by
  have hget : (powers es).getD j 0 = 2 ^ es[j] := by
    rw [powers, List.getD_eq_getElem _ _ (by rwa [List.length_map]), List.getElem_map]
  simp only [probeScore, hx, startAt_powers hes hj, hget]
  rw [powers, ← List.map_drop]
  rfl

/-- Nine samples whose best probe is the third one. -/
def nineExponents : List ℕ := [0, 6, 10, 12, 13, 14, 18, 19, 20]

theorem nineExponents_sortedLT : nineExponents.SortedLT := by
  apply List.Pairwise.sortedLT
  decide

theorem length_distinct_nine : (distinct (powers nineExponents)).length = 9 := by
  rw [distinct_of_sortedLT (powers_sortedLT nineExponents_sortedLT), powers, List.length_map]
  rfl

theorem nine_ends {x : ℝ} (hx : ⌊x⌋₊ = 0 ∨ ⌊x⌋₊ = 4) :
    3 / 10 < probeScore (powers nineExponents) x := by
  have hthird : (3 / 10 : ℝ) < ((8 / 25 : ℚ) : ℝ) := by norm_num
  apply hthird.trans_le
  rcases hx with hx | hx
  · rw [probeScore_powers nineExponents_sortedLT hx (by decide)]
    exact le_ksScore_powers (p := (10, 2)) (by decide) (by decide) (by decide) (by decide +kernel)
      (by decide +kernel)
  · rw [probeScore_powers nineExponents_sortedLT hx (by decide)]
    exact le_ksScore_powers (p := (18, 2)) (by decide) (by decide) (by decide) (by decide +kernel)
      (by decide +kernel)

theorem nine_neighbours {x : ℝ} (hx : ⌊x⌋₊ = 1 ∨ ⌊x⌋₊ = 3) :
    1 / 4 < probeScore (powers nineExponents) x ∧ probeScore (powers nineExponents) x ≤ 3 / 10 := by
  have hlow : (1 / 4 : ℝ) < ((13 / 50 : ℚ) : ℝ) := by norm_num
  have hhigh : (3 / 10 : ℝ) = ((3 / 10 : ℚ) : ℝ) := by norm_num
  rw [hhigh]
  rcases hx with hx | hx
  · rw [probeScore_powers nineExponents_sortedLT hx (by decide)]
    constructor
    · exact hlow.trans_le (le_ksScore_powers (p := (12, 2)) (by decide) (by decide) (by decide)
        (by decide +kernel) (by decide +kernel))
    · exact ksScore_powers_le (by decide) (by decide) (by decide +kernel) (by decide +kernel)
  · rw [probeScore_powers nineExponents_sortedLT hx (by decide)]
    constructor
    · exact hlow.trans_le (le_ksScore_powers (p := (18, 3)) (by decide) (by decide) (by decide)
        (by decide +kernel) (by decide +kernel))
    · exact ksScore_powers_le (by decide) (by decide) (by decide +kernel) (by decide +kernel)

theorem nine_best {x : ℝ} (hx : ⌊x⌋₊ = 2) : probeScore (powers nineExponents) x ≤ 1 / 4 := by
  have hhigh : (1 / 4 : ℝ) = ((1 / 4 : ℚ) : ℝ) := by norm_num
  rw [hhigh, probeScore_powers nineExponents_sortedLT hx (by decide)]
  exact ksScore_powers_le (by decide) (by decide) (by decide +kernel) (by decide +kernel)

theorem sameProbe_min_max (a b : ℝ) :
    sameProbe (min a b) (max a b) = decide (⌊a⌋₊ = ⌊b⌋₊) := by
  rcases le_total a b with h | h
  · rw [min_eq_left h, max_eq_right h]
    rfl
  · rw [min_eq_right h, max_eq_left h, sameProbe]
    exact decide_eq_decide.mpr eq_comm

theorem floor_eq_of_mem_Ioo {x lo hi : ℝ} (hx : x ∈ Set.Ioo lo hi) (k : ℕ) (hlo : (k : ℝ) ≤ lo)
    (hhi : hi ≤ k + 1) : ⌊x⌋₊ = k := by
  have hlow : (k : ℝ) ≤ x := hlo.trans hx.1.le
  exact (Nat.floor_eq_iff ((Nat.cast_nonneg k).trans hlow)).mpr ⟨hlow, hx.2.trans_le hhi⟩

theorem dblMin_lt : (dblMin : ℝ) < 1 / 10 := by
  have hpow (k : ℕ) (hk : 4 ≤ k) : (10 : ℝ) < ((2 ^ k : ℕ) : ℝ) := by
    have hbig : 2 ^ 4 ≤ 2 ^ k := Nat.pow_le_pow_right (by decide) hk
    exact_mod_cast lt_of_lt_of_le (by decide : 10 < 2 ^ 4) hbig
  rw [dblMin]
  exact one_div_lt_one_div_of_lt (by norm_num) (hpow _ (by decide))

/-- The points of a search from zero to four that moves to its second point and then stays. -/
theorem nine_points {c d₀ d₁ d₂ d₃ d₄ : ℝ} (hc : 0 + resphi * (4 - 0) = c)
    (hd₀ : nextPoint 4 c = d₀) (hd₁ : nextPoint 4 d₀ = d₁) (hd₂ : nextPoint c d₀ = d₂)
    (hd₃ : nextPoint d₁ d₀ = d₃) (hd₄ : nextPoint d₂ d₀ = d₄) :
    c ∈ Set.Ioo (1527 / 1000) (1528 / 1000) ∧ d₀ ∈ Set.Ioo (247 / 100) (248 / 100) ∧
      d₁ ∈ Set.Ioo (305 / 100) (307 / 100) ∧ d₂ ∈ Set.Ioo (21 / 10) (22 / 10) ∧
      d₃ ∈ Set.Ioo (26 / 10) (28 / 10) ∧ d₄ ∈ Set.Ioo (22 / 10) (24 / 10) := by
  simp only [nextPoint, resphi] at hc hd₀ hd₁ hd₂ hd₃ hd₄
  have hcb : 1527 / 1000 < c ∧ c < 1528 / 1000 := by constructor <;> linarith only [hc]
  have hd₀b : 247 / 100 < d₀ ∧ d₀ < 248 / 100 := by constructor <;> linarith only [hcb, hd₀]
  have hd₁b : 305 / 100 < d₁ ∧ d₁ < 307 / 100 := by constructor <;> linarith only [hd₀b, hd₁]
  have hd₂b : 21 / 10 < d₂ ∧ d₂ < 22 / 10 := by constructor <;> linarith only [hcb, hd₀b, hd₂]
  have hd₃b : 26 / 10 < d₃ ∧ d₃ < 28 / 10 := by constructor <;> linarith only [hd₀b, hd₁b, hd₃]
  have hd₄b : 22 / 10 < d₄ ∧ d₄ < 24 / 10 := by constructor <;> linarith only [hd₀b, hd₂b, hd₄]
  exact ⟨hcb, hd₀b, hd₁b, hd₂b, hd₃b, hd₄b⟩

/-- The probes between the outermost ones are better than these. -/
theorem nine_inner {z y : ℝ} (hz : ⌊z⌋₊ = 1 ∨ ⌊z⌋₊ = 2 ∨ ⌊z⌋₊ = 3) (hy : ⌊y⌋₊ = 0 ∨ ⌊y⌋₊ = 4) :
    probeScore (powers nineExponents) z < probeScore (powers nineExponents) y := by
  have hy' := nine_ends hy
  rcases hz with hz | hz | hz
  · exact (nine_neighbours (Or.inl hz)).2.trans_lt hy'
  · linarith only [nine_best hz, hy']
  · exact (nine_neighbours (Or.inr hz)).2.trans_lt hy'

theorem nine_best_le {z y : ℝ} (hz : ⌊z⌋₊ = 2) (hy : ⌊y⌋₊ = 1 ∨ ⌊y⌋₊ = 2 ∨ ⌊y⌋₊ = 3) :
    probeScore (powers nineExponents) z ≤ probeScore (powers nineExponents) y := by
  rcases hy with hy | hy | hy
  · exact (nine_best hz).trans (nine_neighbours (Or.inl hy)).1.le
  · rw [probeScore, probeScore, hz, hy]
  · exact (nine_best hz).trans (nine_neighbours (Or.inr hy)).1.le

theorem nine_searchesRange (E : Environment ℝ) :
    SearchesRange (evaluateAt iContinuousXminOptEvaluate) iContinuousXminOptProgress 0 (4 : ℝ)
      (TableInvariant (uniqueProbes (powers nineExponents) E.lastResult []))
      (fun x fx d => fx = d.last.D ∧ LastProbe E (powers nineExponents) ⌊x⌋₊ d) sameProbe := by
  have hlen := length_distinct_nine
  have hfour : ((9 - 5 : ℕ) : ℝ) = 4 := by norm_num
  have hrange := searchesRange_real E (powers_sortedLT nineExponents_sortedLT).sortedLE powers_pos
    (by rw [hlen]; decide) (by rw [hlen]; decide)
  rwa [hlen, hfour] at hrange

/-- A round among them that stays at the third probe. -/
theorem nine_stays {E : Environment ℝ} {st : GssState (XminOptData ℝ) ℝ} {a b c d : ℝ}
    (hst : Searching (probeScore (powers nineExponents)) 0 4
      (TableInvariant (uniqueProbes (powers nineExponents) E.lastResult [])) st)
    (ha : st.a = a) (hb : st.b = b) (hc : st.c = c) (hd : nextPoint b c = d)
    (hlong : 1 / 10 < |a - b|) (hab : ⌊a⌋₊ ≠ ⌊b⌋₊) (hcf : ⌊c⌋₊ = 2)
    (hdf : ⌊d⌋₊ = 2 ∨ ⌊d⌋₊ = 3) :
    ∃ st', Searching (probeScore (powers nineExponents)) 0 4
        (TableInvariant (uniqueProbes (powers nineExponents) E.lastResult [])) st' ∧
      st'.a = d ∧ st'.b = a ∧ st'.c = c ∧ ∀ rounds,
        gssLoop (evaluateAt iContinuousXminOptEvaluate) (some iContinuousXminOptProgress)
            gssDefaultParameter (.fin (probeScore (powers nineExponents) 0))
            (.fin (probeScore (powers nineExponents) 4)) (rounds + 1) st =
          gssLoop (evaluateAt iContinuousXminOptEvaluate) (some iContinuousXminOptProgress)
            gssDefaultParameter (.fin (probeScore (powers nineExponents) 0))
            (.fin (probeScore (powers nineExponents) 4)) rounds st' := by
  subst ha hb hc
  have hgo : sameProbe (min st.a st.b) (max st.a st.b) = false := by
    rw [sameProbe_min_max]
    exact decide_eq_false hab
  have hfour : ⌊(4 : ℝ)⌋₊ = 4 := Nat.floor_ofNat 4
  exact hst.keep_round (nine_searchesRange E) (fun _ _ _ => score_of_lastProbe) rfl hd
    (dblMin_lt.trans hlong) hgo (nine_inner (Or.inr hdf) (Or.inl Nat.floor_zero))
    (nine_inner (Or.inr hdf) (Or.inr hfour)) (nine_best_le hcf (Or.inr hdf))

theorem nine_rounds : ∃ n, gssRounds (gssDefaultParameter (K := ℝ)) 0 4 = n + 5 := by
  apply Nat.exists_eq_add_of_le'
  have hmany : (4 : ℝ) < 4 * |(0 : ℝ) - 4| / (gssDefaultParameter (K := ℝ)).epsilon := by
    have heps : (gssDefaultParameter (K := ℝ)).epsilon < 1 / 10 := dblMin_lt
    rw [lt_div_iff₀ dblMin_pos]
    norm_num
    linarith
  have hcast : ((4 : ℕ) : ℝ) < (gssRounds (gssDefaultParameter (K := ℝ)) 0 4 : ℕ) := by
    exact_mod_cast hmany.trans (lt_gssRounds gssDefaultParameter 0 4)
  exact Nat.cast_lt.mp hcast

/-- The search among them ends with its location and its last evaluation at the third one. -/
theorem nine_search (E : Environment ℝ) :
    ∃ out x, goldenCall E (powers nineExponents) = .ok out ∧ out.status = .success ∧
      out.min = some x ∧ ⌊x⌋₊ = 2 ∧ LastProbe E (powers nineExponents) 2 out.data := by
  have hrange := nine_searchesRange E
  have hscore : ∀ x fx d, (fx = d.last.D ∧ LastProbe E (powers nineExponents) ⌊x⌋₊ d) →
      fx = .fin (probeScore (powers nineExponents) x) := fun _ _ _ => score_of_lastProbe
  obtain ⟨c, hc⟩ : ∃ c : ℝ, 0 + resphi * (4 - 0) = c := ⟨_, rfl⟩
  obtain ⟨d₀, hd₀⟩ : ∃ d, nextPoint 4 c = d := ⟨_, rfl⟩
  obtain ⟨d₁, hd₁⟩ : ∃ d, nextPoint 4 d₀ = d := ⟨_, rfl⟩
  obtain ⟨d₂, hd₂⟩ : ∃ d, nextPoint c d₀ = d := ⟨_, rfl⟩
  obtain ⟨d₃, hd₃⟩ : ∃ d, nextPoint d₁ d₀ = d := ⟨_, rfl⟩
  obtain ⟨d₄, hd₄⟩ : ∃ d, nextPoint d₂ d₀ = d := ⟨_, rfl⟩
  obtain ⟨hcb, hd₀b, hd₁b, hd₂b, hd₃b, hd₄b⟩ := nine_points hc hd₀ hd₁ hd₂ hd₃ hd₄
  have hzero : ⌊(0 : ℝ)⌋₊ = 0 := Nat.floor_zero
  have hfour : ⌊(4 : ℝ)⌋₊ = 4 := Nat.floor_ofNat 4
  have hcf : ⌊c⌋₊ = 1 := floor_eq_of_mem_Ioo hcb 1 (by norm_num) (by norm_num)
  have hd₀f : ⌊d₀⌋₊ = 2 := floor_eq_of_mem_Ioo hd₀b 2 (by norm_num) (by norm_num)
  have hd₁f : ⌊d₁⌋₊ = 3 := floor_eq_of_mem_Ioo hd₁b 3 (by norm_num) (by norm_num)
  have hd₂f : ⌊d₂⌋₊ = 2 := floor_eq_of_mem_Ioo hd₂b 2 (by norm_num) (by norm_num)
  have hd₃f : ⌊d₃⌋₊ = 2 := floor_eq_of_mem_Ioo hd₃b 2 (by norm_num) (by norm_num)
  have hd₄f : ⌊d₄⌋₊ = 2 := floor_eq_of_mem_Ioo hd₄b 2 (by norm_num) (by norm_num)
  have hmove : probeScore (powers nineExponents) d₀ < probeScore (powers nineExponents) c :=
    (nine_best hd₀f).trans_lt (nine_neighbours (Or.inl hcf)).1
  have hfirst := hrange.evaluate (uniqueProbes (powers nineExponents) E.lastResult []) 0
    ⟨rfl, rfl, rfl, rfl⟩ ⟨le_rfl, by norm_num⟩
  have hgo : sameProbe 0 4 = false := by
    rw [sameProbe, hzero, hfour]
    rfl
  have hparam : (gssDefaultParameter (K := ℝ)).onError = .stop := rfl
  -- the evaluations at the ends and five rounds
  rcases hrange.gss_searching hscore (by norm_num) hgo hparam hfirst hc with
    ⟨hworse, -⟩ | ⟨st₀, hst₀, ha₀, hb₀, hc₀, hrun⟩
  · have hinner : ∀ y : ℝ, (⌊y⌋₊ = 0 ∨ ⌊y⌋₊ = 4) → probeScore (powers nineExponents) c <
        probeScore (powers nineExponents) y := fun y hy => nine_inner (Or.inl hcf) hy
    rcases hworse with h | h
    · exact absurd h (hinner 0 (Or.inl hzero)).not_ge
    · exact absurd h (hinner 4 (Or.inr hfour)).not_ge
  have hgo₀ : sameProbe (min st₀.a st₀.b) (max st₀.a st₀.b) = false := by
    rw [ha₀, hb₀, sameProbe_min_max, hzero, hfour]
    rfl
  have hlong₀ : (gssDefaultParameter (K := ℝ)).epsilon < |st₀.a - st₀.b| := by
    refine dblMin_lt.trans ?_
    rw [ha₀, hb₀]
    norm_num
  obtain ⟨st₁, hst₁, ha₁, hb₁, hc₁, hloop₁⟩ := hst₀.move_round hrange hscore hparam
    (by rw [hb₀, hc₀, hd₀]) hlong₀ hgo₀ (by rw [hc₀]; exact hmove)
  rw [hc₀] at ha₁
  rw [hb₀] at hb₁
  obtain ⟨st₂, hst₂, ha₂, hb₂, hc₂, hloop₂⟩ := nine_stays hst₁ ha₁ hb₁ hc₁ hd₁
    (lt_abs.mpr (Or.inr (by linarith only [hcb.2]))) (by rw [hcf, hfour]; decide) hd₀f
    (Or.inr hd₁f)
  obtain ⟨st₃, hst₃, ha₃, hb₃, hc₃, hloop₃⟩ := nine_stays hst₂ ha₂ hb₂ hc₂ hd₂
    (lt_abs.mpr (Or.inl (by linarith only [hd₁b.1, hcb.2]))) (by rw [hd₁f, hcf]; decide) hd₀f
    (Or.inl hd₂f)
  obtain ⟨st₄, hst₄, ha₄, hb₄, hc₄, hloop₄⟩ := nine_stays hst₃ ha₃ hb₃ hc₃ hd₃
    (lt_abs.mpr (Or.inr (by linarith only [hd₁b.1, hd₂b.2]))) (by rw [hd₂f, hd₁f]; decide) hd₀f
    (Or.inl hd₃f)
  have hstop : sameProbe (min st₄.a st₄.b) (max st₄.a st₄.b) = true := by
    rw [ha₄, hb₄, sameProbe_min_max, hd₃f, hd₂f]
    rfl
  have hlong₄ : (gssDefaultParameter (K := ℝ)).epsilon < |st₄.a - st₄.b| := by
    refine dblMin_lt.trans ?_
    rw [ha₄, hb₄]
    exact lt_abs.mpr (Or.inl (by linarith only [hd₃b.1, hd₂b.2]))
  obtain ⟨out, hend, hloop₅⟩ := hst₄.last_round hrange hscore hparam (by rw [hb₄, hc₄, hd₄])
    hlong₄ hstop
  obtain ⟨n, hn⟩ := nine_rounds
  have hfour' : ((9 - 5 : ℕ) : ℝ) = 4 := by norm_num
  rw [hc₄, if_neg (nine_best_le hd₀f (Or.inr (Or.inl hd₄f))).not_gt] at hend
  refine ⟨out, d₀, ?_, hend.success, hend.min_eq, hd₀f, ?_⟩
  · rw [goldenCall, length_distinct_nine, sizeSub_of_le (by decide), hfour', hrun, hn, hloop₁,
      hloop₂, hloop₃, hloop₄, hloop₅]
  · have hlast := hend.shows.2
    rwa [hd₄f] at hlast

end Powers

/-! ## The search and the fit at its `xmin` -/

section Golden
variable {options : ContinuousOptions ℝ} {xs : List ℝ}

/-- A fit with a successful golden section search counts the samples of its tail correctly, and
agrees with the fit at its `xmin`, only when the scores of the probes keep the search from ending in
one probe. -/
theorem golden_agrees_iff (E : Environment ℝ) (hmethod : options.xminMethod = .gssOrLinear)
    (hskip : options.pValueMethod = .skip) (hpositive : ∀ x ∈ xs, 0 < x)
    (hmany : 5 < (distinct xs).length) :
    GoldenAgrees E options xs ↔ EndsAtBoundary (xs.insertionSort (· ≤ ·)) := by
  have hs : (xs.insertionSort (· ≤ ·)).SortedLE := List.sortedLE_insertionSort
  have hpositive' : ∀ x ∈ xs.insertionSort (· ≤ ·), 0 < x :=
    fun x hx => hpositive x ((List.mem_insertionSort _).mp hx)
  have hdistinct := distinct_insertionSort xs
  have hfit : ∀ out x, goldenCall E (xs.insertionSort (· ≤ ·)) = .ok out →
      out.status = .success → out.min = some x → ∃ B search,
        ScoresNarrowTo (xs.insertionSort (· ≤ ·)) B ∧
        goldenSearch E (xs.insertionSort (· ≤ ·)) = .ok search ∧ search.success = true ∧
        ∀ result rng, ∃ fit, continuous E (some options) (xs.map .fin) result rng = .ok fit ∧
          (AgreesWithFixed E options xs search.best.n fit ↔
            AroundBoundary (xs.insertionSort (· ≤ ·)) B) := by
    intro out x hrun hsuccess hmin
    obtain ⟨B, j, hB, hboundary, hj, -, hpos, hlt, htake⟩ :=
      goldenCall_success E hs hpositive' (by rwa [hdistinct]) hrun hsuccess hmin
    rw [hdistinct] at hj hlt
    have hsearch := goldenSearch_eq E (xs.insertionSort (· ≤ ·))
    rw [hrun] at hsearch
    replace hsearch := hsearch.trans htake
    refine ⟨B, _, hB, hsearch, rfl, ?_⟩
    intro result rng
    refine ⟨_, ?_, (agreesWithFixed_iff E hskip hpositive hlt hj rng).trans hboundary.symm⟩
    rw [continuous_of_goldenSearch E hmethod hskip hmany hsearch rfl,
      finishContinuous_golden E options hs hpositive' hpos (by rw [hdistinct]; omega)
        (by rwa [hdistinct]) (by rw [hdistinct]; omega)]
    simp only [hdistinct, List.getD_eq_getElem _ _ (by omega : j < (distinct xs).length)]
  constructor
  · intro h hsize B hB
    obtain ⟨out, hrun, -, hend⟩ := goldenCall_cases E hs hpositive' (by rwa [hdistinct]) hsize
    rcases hend with ⟨-, hnone⟩ | ⟨B', hB', hsuccess, hmin, -⟩
    · exact absurd hB (hnone B)
    obtain ⟨B₁, search, hB₁, hsearch, hfound, hends⟩ := hfit out _ hrun hsuccess hmin
    obtain rfl := hB.unique hB₁
    obtain ⟨fit, hcontinuous, hiff⟩ := hends E.lastResult (.builtin 0 (fun _ => 0))
    obtain ⟨fit', hcontinuous', hagrees⟩ := h search hsearch hfound E.lastResult
      (.builtin 0 (fun _ => 0))
    obtain rfl : fit = fit' := Except.ok.inj (hcontinuous.symm.trans hcontinuous')
    exact hiff.mp hagrees
  · intro h search hsearch hfound result rng
    have htaken := hsearch
    rw [goldenSearch_eq, bind_eq_ok] at htaken
    obtain ⟨out, hrun, htake⟩ := htaken
    unfold takeMinimum at htake
    split at htake
    · rename_i x hsuccess hmin
      obtain ⟨B, search', hB, hsearch', -, hends⟩ := hfit out x hrun hsuccess hmin
      obtain rfl : search = search' := Except.ok.inj (hsearch.symm.trans hsearch')
      obtain ⟨fit, hcontinuous, hiff⟩ := hends result rng
      exact ⟨fit, hcontinuous, hiff.mpr (h (goldenCall_size E hrun) B hB)⟩
    · obtain rfl := Except.ok.inj htake
      cases hfound

noncomputable def goldenOptions : ContinuousOptions ℝ :=
  { continuousDefaultOptions with
    finiteSizeCorrection := true, xminMethod := .gssOrLinear, pValueMethod := .skip }

theorem golden_agrees_on_nine :
    GoldenAgrees idleEnvironment goldenOptions (powers nineExponents) ↔
      EndsAtBoundary ((powers nineExponents).insertionSort (· ≤ ·)) :=
  golden_agrees_iff idleEnvironment rfl rfl powers_pos (by rw [length_distinct_nine]; decide)

/-- On nine powers of two the search ends at the third one. It counts eight samples from there on
instead of seven, and corrects the exponent with the wrong number. -/
theorem golden_disagrees_on_nine :
    ¬ GoldenAgrees idleEnvironment goldenOptions (powers nineExponents) ∧
      ∃ search out fixed,
        goldenSearch idleEnvironment (powers nineExponents) = .ok search ∧
        search.success = true ∧ search.best.n = 8 ∧
        continuous idleEnvironment (some goldenOptions) ((powers nineExponents).map .fin)
          idleEnvironment.lastResult (.builtin 0 (fun _ => 0)) = .ok out ∧
        out.failure = none ∧ out.result.xmin = .fin (2 ^ 10) ∧
        estimateAlphaContinuous idleEnvironment (some goldenOptions)
          ((powers nineExponents).map .fin) (.fin (2 ^ 10)) idleEnvironment.lastResult
          (.builtin 0 (fun _ => 0)) = .ok fixed ∧
        fixed.failure = none ∧ out.result.alpha ≠ fixed.result.alpha := by
  have hs : (powers nineExponents).SortedLE := (powers_sortedLT nineExponents_sortedLT).sortedLE
  have hsort : (powers nineExponents).insertionSort (· ≤ ·) = powers nineExponents :=
    hs.pairwise.insertionSort_eq
  have hmany : 5 < (distinct (powers nineExponents)).length := by
    rw [length_distinct_nine]
    decide
  obtain ⟨out, x, hrun, hsuccess, hmin, hx, hlast⟩ := nine_search idleEnvironment
  obtain ⟨_, j, -, -, hj, hlast', hpos, hlt, htake⟩ :=
    goldenCall_success idleEnvironment hs powers_pos hmany hrun hsuccess hmin
  have hlen : (powers nineExponents).length = 9 := List.length_map _
  have hstart : startAt (powers nineExponents) 2 = 2 :=
    startAt_powers nineExponents_sortedLT (by decide)
  obtain rfl : j = 2 := by
    have hsame := Option.some.inj (hlast'.2.symm.trans hlast.2)
    rw [length_distinct_nine] at hj
    rwa [hstart, startAt_powers nineExponents_sortedLT (hj.trans (by decide))] at hsame
  have hsearch := goldenSearch_eq idleEnvironment (powers nineExponents)
  rw [hrun] at hsearch
  replace hsearch := hsearch.trans htake
  rw [hx, hstart, hlen] at hsearch
  have hget : (distinct (powers nineExponents))[2] = 2 ^ 10 := by
    simp only [distinct_of_sortedLT (powers_sortedLT nineExponents_sortedLT)]
    rfl
  have htwo : 2 < (distinct (powers nineExponents)).length - 1 := by
    rw [length_distinct_nine]
    decide
  have htail := probeTail_startAt hs powers_pos htwo (by omega)
  have hfit : ∀ result rng, continuous idleEnvironment (some goldenOptions)
      ((powers nineExponents).map .fin) result rng =
        .ok { failure := none
              result := goldenFit true (powers nineExponents) 2 ((powers nineExponents).drop 2)
                (2 ^ 10)
              rng := rng } := by
    intro result rng
    have hfinish := finishContinuous_golden idleEnvironment goldenOptions hs powers_pos
      (by decide : 0 < 2) (by omega) htwo (by omega) rng
    rw [hstart, hget, hlen] at hfinish
    rw [← hsort] at hsearch
    rw [continuous_of_goldenSearch idleEnvironment rfl rfl hmany hsearch rfl, hsort]
    exact hfinish
  rw [hget, hstart] at htail
  have hmem : (2 : ℝ) ^ 10 ∈ powers nineExponents := List.mem_of_getElem? htail.get
  have habove : ∃ y ∈ powers nineExponents, (2 : ℝ) ^ 10 < y := by
    obtain ⟨y, hy, hlt⟩ := htail.above
    exact ⟨y, List.mem_of_mem_drop hy, hlt⟩
  have hfixed : ∀ result rng, estimateAlphaContinuous idleEnvironment (some goldenOptions)
      ((powers nineExponents).map .fin) (.fin (2 ^ 10)) result rng = _ :=
    estimateAlphaContinuous_real idleEnvironment rfl (by positivity) habove
      (fun _ => length_tailFrom_ge_two hmem habove)
  have htailFrom : tailFrom (powers nineExponents) (2 ^ 10) = (powers nineExponents).drop 2 := by
    rw [htail.drop_eq, tailFrom, hsort]
  rw [htailFrom] at hfixed
  have hseven : ((powers nineExponents).drop 2).length = 7 := by rw [List.length_drop, hlen]
  refine ⟨?_, _, _, _, hsearch, rfl, rfl, hfit _ _, rfl, rfl, hfixed _ _, rfl, ?_⟩
  · intro h
    rw [← hsort] at hsearch
    obtain ⟨out', hout', xmin, hxmin, hsize, -⟩ := h _ hsearch rfl idleEnvironment.lastResult
      (.builtin 0 (fun _ => 0))
    obtain rfl := Except.ok.inj ((hfit _ _).symm.trans hout')
    obtain rfl : (2 : ℝ) ^ 10 = xmin := Double.fin.inj hxmin
    rw [← htail.drop_eq, hseven] at hsize
    have hcount : 8 = 7 := hsize
    omega
  · -- eight samples in the correction of the search, seven in the one of the fixed fit
    have halpha := one_lt_hillAlpha htail.pos htail.le htail.above
    intro hequal
    have hvalues := Double.fin.inj hequal
    have hcorrection : goldenOptions.finiteSizeCorrection = true := rfl
    rw [hlen, hstart, hseven, hcorrection] at hvalues
    simp only [correctedAlpha, if_true] at hvalues
    norm_num at hvalues halpha
    linarith

end Golden
end Plfit
