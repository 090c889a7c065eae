import Mathlib
import Plfit.Search.Probes

/-! # The stratified search

Every tenth distinct value is tried first, and then the values around the best of them. Both
stages are linear scans that leave out their last probe, so the last stratum and the last
value before the stratum after the best one are never looked at.
-/
namespace Plfit
open ExactArithmetic SortedBlocks StrictScan
variable {K : Type}

theorem mapM_eq_ok {α β : Type} {f : α → Exec β} {g : α → β} {xs : List α}
    (h : ∀ x ∈ xs, f x = .ok (g x)) : xs.mapM f = .ok (xs.map g) := by
  induction xs with
  | nil => rfl
  | cons x xs ih =>
    have hx := h x List.mem_cons_self
    have hxs := ih (fun y hy => h y (List.mem_cons_of_mem x hy))
    simp only [List.mapM_cons, hx, hxs, bind, Except.bind, pure, Except.pure, List.map_cons]

/-- Probes chosen in increasing order from a table of probes. -/
theorem ProbesAt.select {data data' : XminOptData K} {ptr : ℕ → ℕ} (hp : ProbesAt data ptr)
    {f : ℕ → ℕ} (hf : StrictMono f) (hxs : data'.xs = data.xs) (hpos : 0 < data'.numProbes)
    (hlt : ∀ i < data'.numProbes, f i < data.numProbes)
    (hget : ∀ i < data'.numProbes, data'.probes[i]? = data.probes[f i]?) :
    ProbesAt data' (fun i => ptr (f i)) where
  pos := hpos
  get := fun i hi => by rw [hget i hi, hp.get _ (hlt i hi)]
  lt_length := fun i hi => by rw [hxs]; exact hp.lt_length _ (hlt i hi)
  mono := fun i j hij hj => hp.mono _ _ (hf hij) (hlt j hj)

section Values
variable [LinearOrder K]

/-- The `j`-th pointer of the table of first occurrences. -/
def startAt (xs : List K) (j : ℕ) : ℕ := (starts xs).getD j 0

def uniqueProbes (xs : List K) (last : PlfitResult K) (evaluated : List ℕ) : XminOptData K :=
  { xs := xs.map .fin, probes := (starts xs).map some ++ [none], numProbes := (starts xs).length,
    last := last, evaluated := evaluated }

theorem uniqueProbes_probesAt {xs : List K} (hs : xs.SortedLE) (hpos : 0 < (distinct xs).length)
    (last : PlfitResult K) (evaluated : List ℕ) :
    ProbesAt (uniqueProbes xs last evaluated) (startAt xs) := by
  refine probesAt_of_sortedLT (starts_sortedLT hs) ?_ ?_ le_rfl ?_
  · intro p hp
    simpa [uniqueProbes] using lt_length_of_mem_starts hs hp
  · simpa [uniqueProbes] using hpos
  · intro i hi
    have hi' : i < (starts xs).length := hi
    simp only [uniqueProbes]
    rw [List.getElem?_append_left (by simpa using hi'), List.getElem?_map]

theorem getElem?_startAt {xs : List K} (hs : xs.SortedLE) {j : ℕ} {v : K}
    (hv : (distinct xs)[j]? = some v) : xs[startAt xs j]? = some v := by
  have hstart : startAt xs j = below xs v := by
    rw [startAt, starts, List.getD_eq_getElem?_getD, List.getElem?_map, hv]
    rfl
  rw [hstart, getElem?_below hs (mem_distinct.mp (List.mem_of_getElem? hv))]

theorem startAt_lt_length {xs : List K} (hs : xs.SortedLE) {j : ℕ}
    (hj : j < (distinct xs).length) : startAt xs j < xs.length :=
  (List.getElem?_eq_some_iff.mp (getElem?_startAt hs (List.getElem?_eq_getElem hj))).1

theorem startAt_lt_startAt {xs : List K} (hs : xs.SortedLE) {i j : ℕ} (hij : i < j)
    (hj : j < (distinct xs).length) : startAt xs i < startAt xs j := by
  have hp := uniqueProbes_probesAt hs ((Nat.zero_le i).trans_lt (hij.trans hj))
    (⟨.nan, .nan, .nan, .nan, .nan⟩ : PlfitResult K) []
  exact hp.mono i j hij (by simpa [uniqueProbes] using hj)

/-- At least two samples are left from every distinct value but the last. -/
theorem startAt_add_two_le {xs : List K} (hs : xs.SortedLE) {j : ℕ}
    (hj : j + 1 < (distinct xs).length) : startAt xs j + 2 ≤ xs.length := by
  have hlt : startAt xs j < startAt xs (j + 1) := startAt_lt_startAt hs (Nat.lt_succ_self j) hj
  have hlen := startAt_lt_length hs hj
  omega

end Values

section FindStratum
variable [LinearOrder K]

theorem findStratum_eq {xs : List (Double K)} {strata : List (Option ℕ)} (value : ℕ → Double K)
    (xmin : Double K) {is : List ℕ} (h : ∀ i ∈ is, ∃ p, derefPointer strata i = .ok p ∧
      deref xs p = .ok (value i)) :
    findStratum xs strata xmin is = .ok (is.find? (fun i => value i == xmin)) := by
  induction is with
  | nil => rfl
  | cons i is ih =>
    obtain ⟨p, hp, hx⟩ := h i List.mem_cons_self
    have hrest := ih (fun j hj => h j (List.mem_cons_of_mem i hj))
    simp only [findStratum, hp, hx, bind, Except.bind, List.find?_cons]
    cases hi : value i == xmin with
    | true => rfl
    | false => simpa using hrest

end FindStratum

/-! ## Scans over the distinct values -/

section Scans
variable [Field K] [LinearOrder K] {evaluate : XminEvaluate K} {alpha D : ℕ → Double K}

def uniqueRecord (alpha D : ℕ → Double K) (xs : List K) (last : PlfitResult K) (j : ℕ) :
    PlfitResult K :=
  { last with
    alpha := alpha (startAt xs j)
    xmin := (xs.map Double.fin).getD (startAt xs j) 0
    D := D (startAt xs j) }

def uniqueKey (D : ℕ → Double K) (xs : List K) (j : ℕ) : WithBot (WithTop K) :=
  (D (startAt xs j)).rank

def uniqueFit (E : Environment K) (alpha D : ℕ → Double K) (xs : List K) (held : Option ℕ) :
    BestFit K :=
  fitOf xs.length (startAt xs) (uniqueRecord alpha D xs E.lastResult) (globalBest E) held

theorem selectedScan_spec (E : Environment K) {xs : List K} (hs : xs.SortedLE)
    (hfollow : FollowsTables evaluate alpha D (xs.map .fin)
      (fun p => ∃ j < (distinct xs).length - 1, p = startAt xs j))
    {f : ℕ → ℕ} (hf : StrictMono f) {data : XminOptData K} (hxs : data.xs = xs.map .fin)
    (hlast : data.last = E.lastResult) (hpos : 0 < data.numProbes)
    (hlt : ∀ i < data.numProbes, f i < (distinct xs).length)
    (hlt' : ∀ i < data.numProbes - 1, f i < (distinct xs).length - 1)
    (hget : ∀ i < data.numProbes,
      data.probes[i]? = ((starts xs).map some ++ [none])[f i]?) :
    iContinuousXminOptLinearScan E evaluate data =
      .ok (uniqueFit E alpha D xs (scan (uniqueKey D xs) (scoreBound K)
          ((List.range (data.numProbes - 1)).map f)),
        data.evaluated ++ (List.range (data.numProbes - 1)).map (fun i => startAt xs (f i))) := by
  have hpos' : 0 < (distinct xs).length := (Nat.zero_le _).trans_lt (hlt 0 hpos)
  have hp : ProbesAt data (fun i => startAt xs (f i)) := by
    refine (uniqueProbes_probesAt hs hpos' E.lastResult []).select hf hxs hpos ?_ hget
    intro i hi
    simpa [uniqueProbes] using hlt i hi
  rw [← hxs] at hfollow
  have hscores := hfollow.scores hp (Nat.sub_le data.numProbes 1)
    (fun i hi => ⟨f i, hlt' i hi, rfl⟩)
  have hrecord : tableRecord alpha D data (fun i => startAt xs (f i)) =
      fun i => uniqueRecord alpha D xs E.lastResult (f i) := by
    funext i
    simp only [tableRecord, uniqueRecord, hxs, hlast]
  rw [linearScan_spec E hp hscores, hrecord, scan_map]
  have hlen : data.xs.length = xs.length := by rw [hxs, List.length_map]
  have hkey : (scoreKey fun i => uniqueRecord alpha D xs E.lastResult (f i)) =
      fun i => uniqueKey D xs (f i) := rfl
  rw [hlen, hkey]
  cases scan (fun i => uniqueKey D xs (f i)) (scoreBound K) (List.range (data.numProbes - 1)) <;>
    rfl

theorem uniqueScan_spec (E : Environment K) {xs : List K} (hs : xs.SortedLE)
    (hfollow : FollowsTables evaluate alpha D (xs.map .fin)
      (fun p => ∃ j < (distinct xs).length - 1, p = startAt xs j))
    (hpos : 0 < (distinct xs).length) (evaluated : List ℕ) :
    iContinuousXminOptLinearScan E evaluate (uniqueProbes xs E.lastResult evaluated) =
      .ok (uniqueFit E alpha D xs (scan (uniqueKey D xs) (scoreBound K)
          (List.range ((distinct xs).length - 1))),
        evaluated ++ (List.range ((distinct xs).length - 1)).map (startAt xs)) := by
  have hlen : (uniqueProbes xs E.lastResult evaluated).numProbes = (distinct xs).length := by
    simp [uniqueProbes]
  have hscan : iContinuousXminOptLinearScan E evaluate (uniqueProbes xs E.lastResult evaluated) =
      _ := selectedScan_spec E hs hfollow strictMono_id rfl rfl (by rwa [hlen])
    (by rw [hlen]; exact fun i hi => hi) (by rw [hlen]; exact fun i hi => hi) (fun i _ => rfl)
  rw [hlen, List.map_id] at hscan
  exact hscan

/-! ## The two stages -/

def bestStratum (key : ℕ → WithBot (WithTop K)) (numUniques : ℕ) : Option ℕ :=
  scan (fun i => key (i * subdivisionLength)) (scoreBound K)
    (List.range (numUniques / subdivisionLength - 1))

/-- The distinct values the fine scan around a stratum looks at. -/
def finePositions (numUniques i : ℕ) : List ℕ :=
  let (offset, count) := strataWindow (numUniques / subdivisionLength) i
  (List.range (count - 1)).map (offset + ·)

def stratifiedBest (key : ℕ → WithBot (WithTop K)) (numUniques : ℕ) : Option ℕ :=
  match bestStratum key numUniques with
  | none => scan key (scoreBound K) (List.range (numUniques - 1))
  | some i => scan key (scoreBound K) (finePositions numUniques i)

/-- Around every stratum but the last the window ends where the next stratum begins. -/
theorem strataWindow_of_lt {numStrata i : ℕ} (h : i + 1 < numStrata) :
    strataWindow numStrata i =
      ((i - 1) * subdivisionLength, (i + 1) * subdivisionLength - (i - 1) * subdivisionLength) := by
  have hlast : i ≠ numStrata - 1 := by omega
  unfold strataWindow
  rcases Nat.eq_zero_or_pos i with rfl | hi
  · simp [hlast]
  · rw [if_pos hi, if_pos hi.ne', if_pos hlast]
    simp only [subdivisionLength, Prod.mk.injEq, true_and]
    omega

theorem getElem?_uniques {xs : List K} (hs : xs.SortedLE) {j : ℕ}
    (hj : j < (distinct xs).length) :
    ((starts xs).map some ++ [none])[j]? = some (some (startAt xs j)) := by
  have hpos : 0 < (distinct xs).length := (Nat.zero_le j).trans_lt hj
  exact (uniqueProbes_probesAt hs hpos ⟨0, 0, 0, 0, 0⟩ []).get j (by simpa [uniqueProbes] using hj)

omit [Field K] in
theorem deref_startAt {xs : List K} (hs : xs.SortedLE) {j : ℕ} (hj : j < (distinct xs).length) :
    deref (xs.map Double.fin) (startAt xs j) = .ok (.fin (distinct xs)[j]) :=
  deref_map (getElem?_startAt hs (List.getElem?_eq_getElem hj))

theorem uniqueRecord_xmin {xs : List K} (hs : xs.SortedLE) {j : ℕ}
    (hj : j < (distinct xs).length) (last : PlfitResult K) :
    (uniqueRecord alpha D xs last j).xmin = .fin (distinct xs)[j] := by
  have hx := deref_startAt hs hj
  rw [deref_eq_ok] at hx
  simp only [uniqueRecord, List.getD_eq_getElem?_getD, hx, Option.getD_some]

/-- The winning stratum is found again by its value, and no stratum by the value zero. -/
theorem findStratum_spec (alpha D : ℕ → Double K) (E : Environment K) {xs : List K} (hs : xs.SortedLE)
    (hpositive : ∀ x ∈ xs, 0 < x) {strata : List (Option ℕ)} {numStrata : ℕ}
    (hstrata : ∀ i < numStrata, strata[i]? = some (some (startAt xs (i * subdivisionLength))))
    (hlen : ∀ i < numStrata, i * subdivisionLength < (distinct xs).length) (held : Option ℕ)
    (hheld : ∀ i ∈ held, i < numStrata) :
    findStratum (xs.map Double.fin) strata
        (uniqueFit E alpha D xs (held.map (· * subdivisionLength))).result.xmin
        (List.range numStrata) = .ok held := by
  have hvalue : ∀ i ∈ List.range numStrata, ∃ p, derefPointer strata i = .ok p ∧
      deref (xs.map Double.fin) p =
        .ok (.fin ((distinct xs).getD (i * subdivisionLength) 0)) := by
    intro i hi
    have hi' := List.mem_range.mp hi
    refine ⟨_, derefPointer_eq_ok (hstrata i hi'), ?_⟩
    rw [deref_startAt hs (hlen i hi'), List.getD_eq_getElem]
  rw [findStratum_eq (fun i => .fin ((distinct xs).getD (i * subdivisionLength) 0)) _ hvalue]
  congr 1
  cases held with
  | none =>
    rw [List.find?_range_eq_none]
    intro i hi
    have hi' := hlen i hi
    have hmem : (distinct xs)[i * subdivisionLength] ∈ xs := mem_distinct.mp (List.getElem_mem _)
    rw [List.getD_eq_getElem _ _ hi']
    simpa [uniqueFit, fitOf, globalBest] using (hpositive _ hmem).ne'
  | some w =>
    have hw := hheld w rfl
    have hw' := hlen w hw
    have hxmin : (uniqueFit E alpha D xs ((some w).map (· * subdivisionLength))).result.xmin =
        .fin (distinct xs)[w * subdivisionLength] := uniqueRecord_xmin hs hw' E.lastResult
    rw [hxmin, List.find?_range_eq_some]
    refine ⟨?_, List.mem_range.mpr hw, ?_⟩
    · rw [List.getD_eq_getElem _ _ hw']
      simp
    · intro i hi
      have hi' := hlen i (hi.trans hw)
      have hlt : (distinct xs)[i * subdivisionLength] < (distinct xs)[w * subdivisionLength] :=
        (distinct_sortedLT xs).getElem_lt_getElem_iff.mpr
          (Nat.mul_lt_mul_of_pos_right hi (by decide))
      rw [List.getD_eq_getElem _ _ hi']
      simpa using hlt.ne

theorem strata_eq {xs : List K} (hs : xs.SortedLE) {numStrata : ℕ}
    (hlen : ∀ i < numStrata, i * subdivisionLength < (distinct xs).length) :
    (List.range numStrata).mapM
        (fun i => deref ((starts xs).map some ++ [none]) (i * subdivisionLength)) =
      .ok ((List.range numStrata).map (fun i => some (startAt xs (i * subdivisionLength)))) := by
  refine mapM_eq_ok ?_
  intro i hi
  exact deref_eq_ok.mpr (getElem?_uniques hs (hlen i (List.mem_range.mp hi)))

theorem bestStratum_lt {key : ℕ → WithBot (WithTop K)} {k i : ℕ}
    (h : bestStratum key k = some i) : i + 1 < k / subdivisionLength := by
  have hi := List.mem_range.mp (mem_of_scan h)
  omega

theorem coarseScan_spec (E : Environment K) {xs : List K} (hs : xs.SortedLE) {k : ℕ}
    (hk : (distinct xs).length = k) (hn : 50 ≤ k)
    (hfollow : FollowsTables evaluate alpha D (xs.map .fin)
      (fun p => ∃ j < (distinct xs).length - 1, p = startAt xs j)) :
    iContinuousXminOptLinearScan E evaluate
        { xs := xs.map .fin
          probes := (List.range (k / subdivisionLength)).map
            (fun i => some (startAt xs (i * subdivisionLength)))
          numProbes := k / subdivisionLength, last := E.lastResult, evaluated := [] } =
      .ok (uniqueFit E alpha D xs
          ((bestStratum (uniqueKey D xs) k).map (· * subdivisionLength)),
        (List.range (k / subdivisionLength - 1)).map
          (fun i => startAt xs (i * subdivisionLength))) := by
  have hten : StrictMono (fun i => i * subdivisionLength) :=
    fun i j hij => Nat.mul_lt_mul_of_pos_right hij (by decide)
  have hlen : ∀ i < k / subdivisionLength, i * subdivisionLength < (distinct xs).length := by
    intro i hi
    rw [subdivisionLength] at hi ⊢
    omega
  have hlen' : ∀ i < k / subdivisionLength - 1,
      i * subdivisionLength < (distinct xs).length - 1 := by
    intro i hi
    rw [subdivisionLength] at hi ⊢
    omega
  have hget : ∀ i < k / subdivisionLength, ((List.range (k / subdivisionLength)).map
      (fun i => some (startAt xs (i * subdivisionLength))))[i]? =
        ((starts xs).map some ++ [none])[i * subdivisionLength]? := by
    intro i hi
    rw [List.getElem?_map, List.getElem?_range hi, getElem?_uniques hs (hlen i hi)]
    rfl
  have hpos : 0 < k / subdivisionLength := Nat.div_pos (by rw [subdivisionLength]; omega) (by decide)
  rw [bestStratum, ← scan_map]
  exact selectedScan_spec E hs hfollow hten rfl rfl hpos hlen hlen' hget

theorem fineScan_spec (E : Environment K) {xs : List K} (hs : xs.SortedLE) {k : ℕ}
    (hk : (distinct xs).length = k)
    (hfollow : FollowsTables evaluate alpha D (xs.map .fin)
      (fun p => ∃ j < (distinct xs).length - 1, p = startAt xs j)) {i : ℕ}
    (hi : i + 1 < k / subdivisionLength) (seen : List ℕ) :
    iContinuousXminOptLinearScan E evaluate
        { xs := xs.map .fin
          probes := ((starts xs).map some ++ [none]).drop
            (strataWindow (k / subdivisionLength) i).1
          numProbes := (strataWindow (k / subdivisionLength) i).2
          last := E.lastResult, evaluated := seen } =
      .ok (uniqueFit E alpha D xs
          (scan (uniqueKey D xs) (scoreBound K) (finePositions k i)),
        seen ++ (finePositions k i).map (startAt xs)) := by
  rw [finePositions, strataWindow_of_lt hi, List.map_map]
  refine selectedScan_spec E hs hfollow ?_ rfl rfl ?_ ?_ ?_ ?_
  · exact fun a b hab => Nat.add_lt_add_left hab _
  · simp only [subdivisionLength]
    omega
  · simp only [subdivisionLength] at hi ⊢
    omega
  · simp only [subdivisionLength] at hi ⊢
    omega
  · intro a _
    exact List.getElem?_drop

/-- The two stages. Without a best stratum nothing has been found yet. -/
theorem stratifiedSearch_spec (E : Environment K) {xs : List K} (hs : xs.SortedLE)
    (hpositive : ∀ x ∈ xs, 0 < x) {k : ℕ} (hk : (distinct xs).length = k) (hn : 50 ≤ k)
    (hfollow : FollowsTables evaluate alpha D (xs.map .fin)
      (fun p => ∃ j < (distinct xs).length - 1, p = startAt xs j)) :
    stratifiedSearch E evaluate (xs.map .fin) ((starts xs).map some ++ [none]) k =
      .ok { success := (bestStratum (uniqueKey D xs) k).isSome
            best := uniqueFit E alpha D xs ((bestStratum (uniqueKey D xs) k).bind
              (fun i => scan (uniqueKey D xs) (scoreBound K) (finePositions k i)))
            evaluated := ((List.range (k / subdivisionLength - 1)).map (· * subdivisionLength) ++
              (bestStratum (uniqueKey D xs) k).elim [] (finePositions k)).map (startAt xs)
            last := E.lastResult } := by
  have hlen : ∀ i < k / subdivisionLength, i * subdivisionLength < (distinct xs).length := by
    intro i hi
    rw [subdivisionLength] at hi ⊢
    omega
  have hstrata : ∀ i < k / subdivisionLength, ((List.range (k / subdivisionLength)).map
      (fun i => some (startAt xs (i * subdivisionLength))))[i]? =
        some (some (startAt xs (i * subdivisionLength))) := by
    intro i hi
    rw [List.getElem?_map, List.getElem?_range hi]
    rfl
  have hfind := findStratum_spec alpha D E hs hpositive hstrata hlen (bestStratum (uniqueKey D xs) k)
    (fun i hi => (Nat.lt_succ_self i).trans (bestStratum_lt hi))
  simp only [stratifiedSearch, strata_eq hs hlen, bind, Except.bind,
    coarseScan_spec E hs hk hn hfollow, hfind]
  cases hbest : bestStratum (uniqueKey D xs) k with
  | none => simp [pure, Except.pure, Function.comp_def]
  | some i =>
    have hi := bestStratum_lt hbest
    have hcount : 0 < (strataWindow (k / subdivisionLength) i).2 := by
      rw [strataWindow_of_lt hi, subdivisionLength]
      omega
    simp only [if_pos hcount, fineScan_spec E hs hk hfollow hi, pure, Except.pure]
    simp [Function.comp_def]

theorem mem_finePositions {k i j : ℕ} (hi : i + 1 < k / subdivisionLength) :
    j ∈ finePositions k i ↔
      (i - 1) * subdivisionLength ≤ j ∧ j + 1 < (i + 1) * subdivisionLength := by
  rw [finePositions, strataWindow_of_lt hi]
  simp only [List.mem_map, List.mem_range, subdivisionLength]
  constructor
  · rintro ⟨a, ha, rfl⟩
    omega
  · rintro ⟨hl, hr⟩
    exact ⟨j - (i - 1) * 10, by omega, by omega⟩

/-- When every score lies below the bound, the stratified search ends with a value. -/
theorem stratifiedBest_eq_some {key : ℕ → WithBot (WithTop K)} {k : ℕ} (hn : 50 ≤ k)
    (hkey : ∀ j < k - 1, key j < scoreBound K) : ∃ w < k - 1, stratifiedBest key k = some w := by
  have hsome : ∀ positions : List ℕ, (∀ j ∈ positions, j < k - 1) → positions ≠ [] →
      ∃ w < k - 1, scan key (scoreBound K) positions = some w := by
    intro positions hlt hne
    obtain ⟨j, hj⟩ := List.exists_mem_of_ne_nil _ hne
    cases hscan : scan key (scoreBound K) positions with
    | none => exact absurd (hkey j (hlt j hj)) (scan_eq_none_iff.mp hscan j hj).not_gt
    | some w => exact ⟨w, hlt w (mem_of_scan hscan), rfl⟩
  cases hbest : bestStratum key k with
  | none =>
    rw [stratifiedBest, hbest]
    refine hsome _ (fun j hj => List.mem_range.mp hj) ?_
    rw [Ne, List.range_eq_nil]
    omega
  | some i =>
    have hi := bestStratum_lt hbest
    rw [stratifiedBest, hbest]
    refine hsome _ ?_ (List.ne_nil_of_mem ((mem_finePositions (j := i * subdivisionLength) hi).mpr
      ⟨Nat.mul_le_mul_right _ (Nat.sub_le i 1), ?_⟩))
    · intro j hj
      have hj' := (mem_finePositions hi).mp hj
      rw [subdivisionLength] at hi hj'
      omega
    · rw [subdivisionLength]
      omega

theorem xminSearch_linearOnly [FloorRing K] (E : Environment K) {xs : List K} (hs : xs.SortedLE)
    (hpos : 0 < (distinct xs).length)
    (hfollow : FollowsTables evaluate alpha D (xs.map .fin)
      (fun p => ∃ j < (distinct xs).length - 1, p = startAt xs j)) :
    xminSearch E evaluate .linearOnly (xs.map .fin) ((starts xs).map some ++ [none])
        (starts xs).length =
      .ok { success := true
            best := uniqueFit E alpha D xs (scan (uniqueKey D xs) (scoreBound K)
              (List.range ((distinct xs).length - 1)))
            evaluated := (List.range ((distinct xs).length - 1)).map (startAt xs)
            last := E.lastResult } := by
  have hscan := uniqueScan_spec E hs hfollow hpos []
  rw [uniqueProbes] at hscan
  simp only [xminSearch, pure, Except.pure, bind, Except.bind, Bool.false_eq_true, if_false, hscan,
    List.nil_append]

/-- The stratified search, with the linear search when it finds no stratum. -/
theorem xminSearch_stratified [FloorRing K] (E : Environment K) {xs : List K} (hs : xs.SortedLE)
    (hpositive : ∀ x ∈ xs, 0 < x) (hn : 50 ≤ (distinct xs).length)
    (hfollow : FollowsTables evaluate alpha D (xs.map .fin)
      (fun p => ∃ j < (distinct xs).length - 1, p = startAt xs j)) :
    ∃ positions : List ℕ, (∀ j ∈ positions, j < (distinct xs).length - 1) ∧
      xminSearch E evaluate .stratifiedSampling (xs.map .fin) ((starts xs).map some ++ [none])
          (starts xs).length =
        .ok { success := true
              best := uniqueFit E alpha D xs
                (stratifiedBest (uniqueKey D xs) (distinct xs).length)
              evaluated := positions.map (startAt xs)
              last := E.lastResult } := by
  have hpos : 0 < (distinct xs).length := by omega
  have hstratified := stratifiedSearch_spec E hs hpositive rfl hn hfollow
  have hcoarse : ∀ j ∈ (List.range ((distinct xs).length / subdivisionLength - 1)).map
      (· * subdivisionLength), j < (distinct xs).length - 1 := by
    intro j hj
    obtain ⟨i, hi, rfl⟩ := List.mem_map.mp hj
    rw [List.mem_range, subdivisionLength] at hi
    rw [subdivisionLength]
    omega
  cases hbest : bestStratum (uniqueKey D xs) (distinct xs).length with
  | none =>
    have hscan := uniqueScan_spec E hs hfollow hpos
      (((List.range ((distinct xs).length / subdivisionLength - 1)).map
        (· * subdivisionLength)).map (startAt xs))
    rw [uniqueProbes, length_starts] at hscan
    refine ⟨(List.range ((distinct xs).length / subdivisionLength - 1)).map
      (· * subdivisionLength) ++ List.range ((distinct xs).length - 1), ?_, ?_⟩
    · intro j hj
      rcases List.mem_append.mp hj with hj | hj
      · exact hcoarse j hj
      · exact List.mem_range.mp hj
    · rw [hbest] at hstratified
      simp only [xminSearch, stratifiedBest, hbest, length_starts, if_pos hn, hstratified, bind,
        Except.bind, Option.isSome_none, Bool.false_eq_true, if_false, Option.elim_none,
        List.append_nil, hscan, pure, Except.pure, List.map_append]
  | some i =>
    have hi := bestStratum_lt hbest
    refine ⟨(List.range ((distinct xs).length / subdivisionLength - 1)).map
      (· * subdivisionLength) ++ finePositions (distinct xs).length i, ?_, ?_⟩
    · intro j hj
      rcases List.mem_append.mp hj with hj | hj
      · exact hcoarse j hj
      · have hj' := (mem_finePositions hi).mp hj
        rw [subdivisionLength] at hi hj'
        omega
    · rw [hbest] at hstratified
      simp only [xminSearch, stratifiedBest, hbest, length_starts, if_pos hn, hstratified, bind,
        Except.bind, Option.isSome_some, if_true, Option.elim_some, Option.bind_some, pure,
        Except.pure]

end Scans

/-! ## The search on an array that is not sorted yet -/

section Unsorted
variable [Field K] [LinearOrder K]

theorem continuousSearch_eq [FloorRing K] (E : Environment K) (evaluate : XminEvaluate K)
    (method : ContinuousMethod) (xs : List K) :
    continuousSearch E evaluate method (xs.map .fin) =
      xminSearch E evaluate method ((xs.insertionSort (· ≤ ·)).map .fin)
        ((starts (xs.insertionSort (· ≤ ·))).map some ++ [none])
        (starts (xs.insertionSort (· ≤ ·))).length := by
  have hs : (xs.insertionSort (· ≤ ·)).SortedLE := List.sortedLE_insertionSort
  simp only [continuousSearch, iCopyAndSort_map, uniqueElementPointers_map hs, bind, Except.bind]

omit [Field K] in
theorem followsTables_table (alpha D : ℕ → Double K) (xs : List (Double K))
    (allowed : ℕ → Prop) : FollowsTables (tableEvaluate alpha D) alpha D xs allowed :=
  fun _ _ _ _ _ _ => rfl

theorem not_lt_uniqueFit_iff (E : Environment K) (alpha D : ℕ → Double K) (xs : List K)
    {held : Option ℕ} (hheld : value (uniqueKey D xs) (scoreBound K) held ≤ scoreBound K)
    (x : ℕ) : ¬ D (startAt xs x) < (uniqueFit E alpha D xs held).result.D ↔
      value (uniqueKey D xs) (scoreBound K) held ≤ uniqueKey D xs x := by
  have hlt := lt_fitOf_iff xs.length (startAt xs) (uniqueRecord alpha D xs E.lastResult)
    (rfl : (globalBest E).result.D = _) hheld (D (startAt xs x))
  rw [uniqueFit, hlt]
  exact not_lt

omit [Field K] in
theorem startAt_insertionSort (xs : List K) :
    startAt (xs.insertionSort (· ≤ ·)) = startAt xs := by
  funext j
  rw [startAt, startAt, starts_eq_of_perm (List.perm_insertionSort (· ≤ ·) xs)]

omit [Field K] in
theorem distinct_insertionSort (xs : List K) :
    distinct (xs.insertionSort (· ≤ ·)) = distinct xs :=
  distinct_eq_of_perm (List.perm_insertionSort (· ≤ ·) xs)

end Unsorted

end Plfit
