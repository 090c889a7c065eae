import Mathlib
import Plfit.Library.AliasTable
import Plfit.Model.Sampling

/-! # The alias table of `sampling.c`

The loop that prepares the index table fills the bins of an alias table. Its stacks never
outgrow their arrays, and at its end every stick that is left has the probability one, so the
final loops change nothing.
-/
namespace Plfit
open ExactArithmetic AliasTable
variable {K : Type} [Field K] [LinearOrder K]

/-! ## The normalized weights -/

def scaledWeights (ws : List K) : List K := ws.map (fun w => w * (ws.length / ws.sum))

omit [LinearOrder K] in
theorem foldl_add_fin (ws : List K) (s : K) :
    (ws.map Double.fin).foldl (fun sum p => sum + p) (.fin s) = .fin (s + ws.sum) := by
  induction ws generalizing s with
  | nil => simp
  | cons w ws ih =>
    rw [List.map_cons, List.foldl_cons, Double.fin_add_fin, ih, List.sum_cons, add_assoc]

theorem normalizeWeights_fin {ws : List K} (hsum : ws.sum ≠ 0) :
    normalizeWeights (ws.map Double.fin) = (scaledWeights ws).map .fin := by
  have hfold := foldl_add_fin ws 0
  rw [zero_add] at hfold
  simp only [normalizeWeights, Double.zero_def, hfold, List.length_map, Double.natCast_def,
    Double.fin_div_fin hsum, List.map_map, scaledWeights]
  apply List.map_congr_left
  intro w _
  exact Double.fin_mul_fin _ _

omit [LinearOrder K] in
theorem sum_scaledWeights {ws : List K} (hsum : ws.sum ≠ 0) :
    (scaledWeights ws).sum = ws.length := by
  rw [scaledWeights, List.sum_map_mul_right, List.map_id', mul_div_cancel₀ _ hsum]

/-! ## Filling the stacks -/

section Stacks
variable (qs : List K)

/-- The first bins on one of the stacks, the last one on top. -/
def stacked (P : K → Prop) [DecidablePred P] (i : ℕ) : List ℕ :=
  ((List.range i).filter (fun j => P (qs.getD j 0))).reverse

variable (P : K → Prop) [DecidablePred P]

omit [LinearOrder K] in
theorem stacked_succ (i : ℕ) : stacked qs P (i + 1) =
    if P (qs.getD i 0) then i :: stacked qs P i else stacked qs P i := by
  unfold stacked
  rw [List.range_succ, List.filter_append, List.reverse_append]
  by_cases h : P (qs.getD i 0)
  · rw [if_pos h, List.filter_cons_of_pos (by simpa using h)]
    rfl
  · rw [if_neg h, List.filter_cons_of_neg (by simpa using h)]
    rfl

variable {qs P}

omit [LinearOrder K] in
theorem mem_stacked {i j : ℕ} : j ∈ stacked qs P i ↔ j < i ∧ P (qs.getD j 0) := by
  simp [stacked]

omit [LinearOrder K] in
theorem nodup_stacked (i : ℕ) : (stacked qs P i).Nodup :=
  List.nodup_reverse.mpr (List.nodup_range.filter _)

omit [LinearOrder K] in
theorem map_getD_range (qs : List K) :
    (List.range qs.length).map (fun j => qs.getD j 0) = qs := by
  apply List.ext_getElem
  · simp
  · intro i hi hi'
    simp [hi']

omit [LinearOrder K] in
/-- All bins with a property are as many as their levels. -/
theorem length_stacked : (stacked qs P qs.length).length = qs.countP (fun q => P q) := by
  conv_rhs => rw [← map_getD_range qs]
  rw [List.countP_map, stacked, List.length_reverse, ← List.countP_eq_length_filter]
  rfl

omit [LinearOrder K] in
theorem length_stacked_le {i n : ℕ} (h : i ≤ n) :
    (stacked qs P i).length ≤ (stacked qs P n).length := by
  unfold stacked
  rw [List.length_reverse, List.length_reverse]
  exact ((List.range_sublist.mpr h).filter _).length_le

end Stacks

def sticksUpTo (qs : List K) (i : ℕ) : Sticks × Sticks :=
  ({ capacity := max (qs.countP (fun q => q < 1)) 1, items := stacked qs (· < 1) i },
    { capacity := max (qs.countP (fun q => 1 < q)) 1, items := stacked qs (1 < ·) i })

theorem allocateSticks_fin (qs : List K) : allocateSticks (qs.map .fin) = sticksUpTo qs 0 := by
  have hlong : ∀ q : K, (¬ q < 1 ∧ 1 < q) ↔ 1 < q :=
    fun q => ⟨fun h => h.2, fun h => ⟨h.not_gt, h⟩⟩
  simp only [allocateSticks, List.countP_map, sticksUpTo, stacked, List.range_zero,
    List.filter_nil, List.reverse_nil, Double.one_def, Function.comp_def, Double.fin_lt_fin, hlong]

omit [LinearOrder K] in
theorem push_stacked {qs : List K} (P : K → Prop) [DecidablePred P] {i : ℕ} (hi : i < qs.length)
    (hP : P (qs.getD i 0)) :
    Sticks.push { capacity := max (qs.countP (fun q => P q)) 1, items := stacked qs P i } i =
      .ok { capacity := max (qs.countP (fun q => P q)) 1, items := stacked qs P (i + 1) } := by
  have hle : (stacked qs P (i + 1)).length ≤ (stacked qs P qs.length).length :=
    length_stacked_le hi
  have hsucc := stacked_succ qs P i
  rw [if_pos hP] at hsucc
  rw [length_stacked, hsucc, List.length_cons] at hle
  rw [Sticks.push, if_pos (lt_max_of_lt_left hle), hsucc]

theorem fillSticks_sticksUpTo {qs : List K} {i : ℕ} (hi : i < qs.length) :
    fillSticks (qs.map .fin) (sticksUpTo qs i) i = .ok (sticksUpTo qs (i + 1)) := by
  have hget : (qs.map Double.fin)[i]? = some (.fin (qs.getD i 0)) := by
    rw [List.getElem?_map, List.getElem?_eq_getElem hi, List.getD_eq_getElem _ _ hi]
    rfl
  have hshort := stacked_succ qs (· < 1) i
  have hlong := stacked_succ qs (1 < ·) i
  simp only [fillSticks, deref_eq_ok.mpr hget, bind, Except.bind, Double.one_def,
    Double.fin_lt_fin]
  rcases lt_trichotomy (qs.getD i 0) 1 with hlt | heq | hgt
  · have hpush := push_stacked (· < 1) hi hlt
    rw [if_neg hlt.not_gt] at hlong
    rw [if_pos hlt]
    simp only [sticksUpTo, hpush, hlong]
    rfl
  · rw [if_neg heq.not_lt] at hshort
    rw [if_neg heq.not_gt] at hlong
    rw [if_neg heq.not_lt, if_neg heq.not_gt]
    simp only [sticksUpTo, hshort, hlong]
    rfl
  · have hpush := push_stacked (1 < ·) hi hgt
    rw [if_neg hgt.not_gt] at hshort
    rw [if_neg hgt.not_gt, if_pos hgt]
    simp only [sticksUpTo, hpush, hshort]
    rfl

/-- The loop that fills the stacks never runs out of room. -/
theorem foldlM_fillSticks (qs : List K) :
    (List.range qs.length).foldlM (fillSticks (qs.map .fin)) (allocateSticks (qs.map .fin)) =
      .ok (sticksUpTo qs qs.length) := by
  have hfront : ∀ i ≤ qs.length, (List.range i).foldlM (fillSticks (qs.map Double.fin))
      (allocateSticks (qs.map .fin)) = .ok (sticksUpTo qs i) := by
    intro i hi
    induction i with
    | zero =>
      rw [List.range_zero, List.foldlM_nil, allocateSticks_fin]
      rfl
    | succ i ih =>
      rw [List.range_succ, List.foldlM_append, ih (Nat.le_of_succ_le hi)]
      simp only [bind, Except.bind, List.foldlM_cons, List.foldlM_nil,
        fillSticks_sticksUpTo hi]
      rfl
  exact hfront qs.length le_rfl

/-! ## Preparing the index table -/

def tableOf (qs : List K) (indexes : List ℕ) (filled : Finset ℕ) : Table ℕ K where
  level := fun i => qs.getD i 0
  other := fun i => indexes.getD i 0
  filled := filled

/-- A state of the loop, whose bins outside `filled` have no alias yet. -/
structure Represents (n : ℕ) (target : ℕ → K) (st : AliasState K) (qs : List K)
    (filled : Finset ℕ) : Prop where
  probs_eq : st.probs = qs.map .fin
  length_qs : qs.length = n
  length_indexes : st.indexes.length = n
  room : st.shortSticks.items.length ≤ st.shortSticks.capacity
  unassigned : ∀ j, j ∉ filled → st.indexes.getD j 0 = 0
  filling : Filling (Finset.range n) target st.shortSticks.items st.longSticks.items
    (tableOf qs st.indexes filled)

theorem getD_set {α : Type*} {xs : List α} {i : ℕ} (hi : i < xs.length) (a d : α) :
    (fun j => (xs.set i a).getD j d) = Function.update (fun j => xs.getD j d) i a := by
  funext j
  rcases eq_or_ne j i with rfl | hne
  · simp [hi]
  · simp [Function.update_of_ne hne, List.getElem?_set_ne hne.symm]

omit [LinearOrder K] in
theorem tableOf_fill {qs : List K} {indexes : List ℕ} {filled : Finset ℕ} {s l : ℕ}
    (hs : s < indexes.length) (hl : l < qs.length) :
    tableOf (qs.set l (qs.getD l 0 + qs.getD s 0 - 1)) (indexes.set s l) (insert s filled) =
      (tableOf qs indexes filled).fill s l := by
  unfold tableOf Table.fill
  rw [getD_set hl, getD_set hs]

def nextRound (st : AliasState K) (qs : List K) (s l : ℕ) (shorts longs : List ℕ) :
    AliasState K :=
  let r := qs.getD l 0 + qs.getD s 0 - 1
  { indexes := st.indexes.set s l
    probs := st.probs.set l (.fin r)
    shortSticks := { st.shortSticks with items := if r < 1 then l :: shorts else shorts }
    longSticks := { st.longSticks with items := if r < 1 then longs else l :: longs } }

section Rounds
variable [IsStrictOrderedRing K] {n : ℕ} {target : ℕ → K} {st : AliasState K} {qs : List K}
variable {filled : Finset ℕ} {s l : ℕ} {shorts longs : List ℕ}

omit [IsStrictOrderedRing K] in
theorem Represents.tops_lt (h : Represents n target st qs filled)
    (hs : st.shortSticks.items = s :: shorts) (hl : st.longSticks.items = l :: longs) :
    s < n ∧ l < n := by
  have hshort := (h.filling.short s (hs ▸ List.mem_cons_self)).1
  have hlong := (h.filling.long l (hl ▸ List.mem_cons_self)).1
  exact ⟨Finset.mem_range.mp (Finset.mem_sdiff.mp hshort).1,
    Finset.mem_range.mp (Finset.mem_sdiff.mp hlong).1⟩

theorem Represents.nextRound (h : Represents n target st qs filled)
    (hs : st.shortSticks.items = s :: shorts) (hl : st.longSticks.items = l :: longs) :
    Represents n target (nextRound st qs s l shorts longs)
      (qs.set l (qs.getD l 0 + qs.getD s 0 - 1)) (insert s filled) := by
  obtain ⟨hsn, hln⟩ := h.tops_lt hs hl
  have hfill := @tableOf_fill K _ qs st.indexes filled s l (h.length_indexes ▸ hsn)
    (h.length_qs ▸ hln)
  have hroom := h.room
  rw [hs, List.length_cons] at hroom
  refine ⟨?_, ?_, ?_, ?_, ?_, ?_⟩
  · rw [Plfit.nextRound, h.probs_eq, List.map_set]
  · rw [List.length_set, h.length_qs]
  · rw [Plfit.nextRound, List.length_set, h.length_indexes]
  · unfold Plfit.nextRound
    dsimp only
    split
    · exact hroom
    · exact Nat.le_of_succ_le hroom
  · intro j hj
    rw [Finset.mem_insert, not_or] at hj
    have hget := h.unassigned j hj.2
    simpa [Plfit.nextRound, List.getElem?_set_ne (Ne.symm hj.1)] using hget
  · have hfilling := h.filling
    rw [hs, hl] at hfilling
    have hlevel : ((tableOf qs st.indexes filled).fill s l).level l =
        qs.getD l 0 + qs.getD s 0 - 1 := Table.fill_level_self
    have hnext := hfilling.fill
    rw [hlevel, ← hfill] at hnext
    exact hnext

/-- The loop ends with an empty stack, inside its arrays. -/
theorem prepareIndexTable_spec (h : Represents n target st qs filled) :
    ∃ st' qs' filled', prepareIndexTable st = .ok st' ∧ Represents n target st' qs' filled' ∧
      (st'.shortSticks.items = [] ∨ st'.longSticks.items = []) := by
  induction hk : st.shortSticks.items.length + st.longSticks.items.length
    using Nat.strong_induction_on generalizing st qs filled with
  | h k ih =>
    unfold prepareIndexTable
    split
    · rename_i s shorts l longs hs hl
      obtain ⟨hsn, hln⟩ := h.tops_lt hs hl
      have hget : ∀ i < n, deref st.probs i = .ok (.fin (qs.getD i 0)) := by
        intro i hi
        rw [← h.length_qs] at hi
        rw [h.probs_eq, deref_eq_ok, List.getElem?_map, List.getElem?_eq_getElem hi,
          List.getD_eq_getElem _ _ hi]
        rfl
      have hnext := h.nextRound hs hl
      have hroom := h.room
      rw [hs, List.length_cons] at hroom
      have hsize : (nextRound st qs s l shorts longs).shortSticks.items.length +
          (nextRound st qs s l shorts longs).longSticks.items.length < k := by
        rw [← hk, hs, hl]
        unfold nextRound
        dsimp only
        split <;> simp only [List.length_cons] <;> omega
      obtain ⟨st', qs', filled', hrun, hst', hend⟩ := ih _ hsize hnext rfl
      refine ⟨st', qs', filled', ?_, hst', hend⟩
      rw [← hrun]
      simp only [hget s hsn, hget l hln, bind, Except.bind, Double.fin_add_fin, Double.one_def,
        Double.fin_sub_fin, Double.fin_lt_fin]
      unfold nextRound
      by_cases hr : qs.getD l 0 + qs.getD s 0 - 1 < 1
      · simp only [if_pos hr, if_pos (Nat.lt_of_succ_le hroom)]
      · simp only [if_neg hr]
    · rename_i hno
      refine ⟨st, qs, filled, rfl, h, ?_⟩
      by_contra hboth
      rw [not_or] at hboth
      obtain ⟨s, shorts, hs⟩ := List.exists_cons_of_ne_nil hboth.1
      obtain ⟨l, longs, hl⟩ := List.exists_cons_of_ne_nil hboth.2
      exact hno s shorts l longs hs hl

end Rounds

/-! ## The sampler -/

section Sampler
variable [IsStrictOrderedRing K] {ws : List K}

omit [LinearOrder K] [IsStrictOrderedRing K] in
theorem getD_scaledWeights (i : ℕ) :
    (scaledWeights ws).getD i 0 = ws.length * ws.getD i 0 / ws.sum := by
  unfold scaledWeights
  rw [List.getD_eq_getElem?_getD, List.getElem?_map, List.getD_eq_getElem?_getD]
  cases ws[i]? with
  | none => simp
  | some w =>
    simp only [Option.map_some, Option.getD_some]
    ring

theorem represents_start (hnonneg : ∀ w ∈ ws, 0 ≤ w) (hsum : 0 < ws.sum) :
    Represents ws.length (fun i => (scaledWeights ws).getD i 0)
      { indexes := List.replicate ws.length 0
        probs := (scaledWeights ws).map .fin
        shortSticks := (sticksUpTo (scaledWeights ws) ws.length).1
        longSticks := (sticksUpTo (scaledWeights ws) ws.length).2 }
      (scaledWeights ws) ∅ := by
  have hlength : (scaledWeights ws).length = ws.length := List.length_map _
  have hopen : Finset.range ws.length \
      (tableOf (scaledWeights ws) (List.replicate ws.length 0) ∅).filled =
        Finset.range ws.length := Finset.sdiff_empty
  have hlevel0 : ∀ i < ws.length, 0 ≤ (scaledWeights ws).getD i 0 := by
    intro i hi
    rw [getD_scaledWeights, List.getD_eq_getElem _ _ hi]
    have := hnonneg _ (List.getElem_mem hi)
    positivity
  have hlevels : ∑ j ∈ Finset.range ws.length, (scaledWeights ws).getD j 0 = ws.length := by
    rw [← sum_scaledWeights hsum.ne', ← hlength]
    conv_rhs => rw [← map_getD_range (scaledWeights ws)]
    rfl
  have hshorts : ∀ i, i ∈ (sticksUpTo (scaledWeights ws) ws.length).1.items ↔
      i < ws.length ∧ (scaledWeights ws).getD i 0 < 1 := fun i => mem_stacked (P := (· < 1))
  have hlongs : ∀ i, i ∈ (sticksUpTo (scaledWeights ws) ws.length).2.items ↔
      i < ws.length ∧ 1 < (scaledWeights ws).getD i 0 := fun i => mem_stacked (P := (1 < ·))
  refine ⟨rfl, hlength, List.length_replicate, ?_, ?_, ?_⟩
  · have hcount := @length_stacked K _ (scaledWeights ws) (· < 1) _
    rw [hlength] at hcount
    exact hcount.le.trans (le_max_left _ _)
  · intro j _
    simp
  · constructor
    · intro i
      simp [Table.share, tableOf]
    · rw [Table.excess, hopen, Finset.sum_sub_distrib]
      change ∑ j ∈ Finset.range ws.length, (scaledWeights ws).getD j 0 - _ = 0
      rw [hlevels]
      simp
    · rw [hopen, Finset.nonempty_range_iff]
      rintro hzero
      rw [List.length_eq_zero_iff.mp hzero] at hsum
      exact hsum.ne' rfl
    · intro i hi
      obtain ⟨hi, hq⟩ := (hshorts i).mp hi
      rw [hopen]
      exact ⟨Finset.mem_range.mpr hi, hlevel0 i hi, hq⟩
    · intro i hi
      obtain ⟨hi, hq⟩ := (hlongs i).mp hi
      rw [hopen]
      exact ⟨Finset.mem_range.mpr hi, hq.le⟩
    · have hshort : (stacked (scaledWeights ws) (· < 1) ws.length).Nodup := nodup_stacked _
      have hlong : (stacked (scaledWeights ws) (1 < ·) ws.length).Nodup := nodup_stacked _
      apply hshort.append hlong
      intro i hi hi'
      exact lt_asymm ((hshorts i).mp hi).2 ((hlongs i).mp hi').2
    · intro i hi hshort hlong
      rw [hopen, Finset.mem_range] at hi
      apply le_antisymm
      · exact not_lt.mp fun h => hlong ((hlongs i).mpr ⟨hi, h⟩)
      · exact not_lt.mp fun h => hshort ((hshorts i).mpr ⟨hi, h⟩)
    · intro i hi
      exact absurd hi (Finset.notMem_empty i)

omit [LinearOrder K] [IsStrictOrderedRing K] in
/-- The final loops leave sticks of probability one as they are. -/
theorem fixSticks_eq {probs : List (Double K)} {sticks : Sticks}
    (h : ∀ i ∈ sticks.items, probs[i]? = some 1) : fixSticks probs sticks = probs := by
  unfold fixSticks
  generalize sticks.items = items at h
  induction items with
  | nil => rfl
  | cons i items ih =>
    obtain ⟨hi, hget⟩ := List.getElem?_eq_some_iff.mp (h i List.mem_cons_self)
    rw [List.foldl_cons, ← hget, List.set_getElem_self, hget]
    exact ih (fun j hj => h j (List.mem_cons_of_mem i hj))

theorem walkerAliasSamplerInit_spec (hnonneg : ∀ w ∈ ws, 0 ≤ w) (hsum : 0 < ws.sum)
    (hlen : ws.length ≤ 2 ^ 63 - 1) :
    ∃ st qs filled, walkerAliasPrepare (ws.map .fin) = .ok st ∧
      Represents ws.length (fun i => (scaledWeights ws).getD i 0) st qs filled ∧
      (st.shortSticks.items = [] ∨ st.longSticks.items = []) ∧
      walkerAliasSamplerInit (ws.map .fin) =
        .ok (.ok { numBins := ws.length, indexes := st.indexes, probs := st.probs }) := by
  obtain ⟨st, qs, filled, hrun, hst, hend⟩ :=
    prepareIndexTable_spec (represents_start hnonneg hsum)
  have hlength : (scaledWeights ws).length = ws.length := List.length_map _
  have hstacks := foldlM_fillSticks (scaledWeights ws)
  rw [hlength] at hstacks
  have hprepare : walkerAliasPrepare (ws.map .fin) = .ok st := by
    simp only [walkerAliasPrepare, normalizeWeights_fin hsum.ne', List.length_map, hstacks, bind,
      Except.bind]
    exact hrun
  have hone : ∀ i, i ∈ st.shortSticks.items ∨ i ∈ st.longSticks.items →
      st.probs[i]? = some 1 := by
    intro i hi
    have hopen : i ∈ Finset.range ws.length \ (tableOf qs st.indexes filled).filled :=
      hi.elim (fun h => (hst.filling.short i h).1) (fun h => (hst.filling.long i h).1)
    have hlevel : qs.getD i 0 = 1 := hst.filling.level_eq_one hend hopen
    have hlt : i < qs.length :=
      hst.length_qs ▸ Finset.mem_range.mp (Finset.mem_sdiff.mp hopen).1
    rw [List.getD_eq_getElem _ _ hlt] at hlevel
    rw [hst.probs_eq, List.getElem?_map, List.getElem?_eq_getElem hlt, hlevel]
    rfl
  refine ⟨st, qs, filled, hprepare, hst, hend, ?_⟩
  rw [walkerAliasSamplerInit, List.length_map, if_neg hlen.not_gt]
  simp only [hprepare, bind, Except.bind, fixSticks_eq (fun i hi => hone i (Or.inr hi)),
    fixSticks_eq (fun i hi => hone i (Or.inl hi))]
  rfl

/-- The sampler realizes the requested distribution: the probability of a bin and what the
other bins pass on to it make up its share of the weights. No stack overflows, and the final
loops change nothing. -/
theorem walkerAliasSamplerInit_realizes (hnonneg : ∀ w ∈ ws, 0 ≤ w) (hsum : 0 < ws.sum)
    (hlen : ws.length ≤ 2 ^ 63 - 1) :
    ∃ sampler st, ∃ qs : List K,
      walkerAliasSamplerInit (ws.map .fin) = .ok (.ok sampler) ∧
      sampler.probs = qs.map .fin ∧ qs.length = ws.length ∧ sampler.numBins = ws.length ∧
      sampler.indexes.length = ws.length ∧
      (∀ q ∈ qs, 0 ≤ q ∧ q ≤ 1) ∧ (∀ j ∈ sampler.indexes, j < ws.length) ∧
      (∀ i < ws.length, qs.getD i 0 +
        ∑ j ∈ Finset.range ws.length with sampler.indexes.getD j 0 = i, (1 - qs.getD j 0) =
          ws.length * ws.getD i 0 / ws.sum) ∧
      walkerAliasPrepare (ws.map .fin) = .ok st ∧ sampler.probs = st.probs := by
  obtain ⟨st, qs, filled, hprepare, hst, hend, hinit⟩ :=
    walkerAliasSamplerInit_spec hnonneg hsum hlen
  refine ⟨_, st, qs, hinit, hst.probs_eq, hst.length_qs, rfl, hst.length_indexes, ?_, ?_, ?_,
    hprepare, rfl⟩
  · intro q hq
    obtain ⟨i, hi, rfl⟩ := List.mem_iff_getElem.mp hq
    have hlevel := hst.filling.level_mem hend (Finset.mem_range.mpr (hst.length_qs ▸ hi))
    have hget : (tableOf qs st.indexes filled).level i = qs[i] := List.getD_eq_getElem _ _ hi
    rwa [hget] at hlevel
  · intro k hk
    obtain ⟨j, hj, rfl⟩ := List.mem_iff_getElem.mp hk
    have hlt : j < ws.length := hst.length_indexes ▸ hj
    have hget := List.getD_eq_getElem st.indexes 0 hj
    rw [← hget]
    by_cases hfilled : j ∈ filled
    · exact Finset.mem_range.mp (hst.filling.filled j hfilled).2.2.2
    · rw [hst.unassigned j hfilled]
      exact Nat.zero_lt_of_lt hlt
  · intro i hi
    rw [← getD_scaledWeights]
    exact hst.filling.realizes hend i

theorem walkerAliasSamplerInit_realizes_two :
    ∃ sampler, ∃ qs : List ℚ, walkerAliasSamplerInit ([1, 3].map .fin) = .ok (.ok sampler) ∧
      sampler.probs = qs.map .fin ∧ ∀ i < 2, qs.getD i 0 +
        ∑ j ∈ Finset.range 2 with sampler.indexes.getD j 0 = i, (1 - qs.getD j 0) =
          2 * [(1 : ℚ), 3].getD i 0 / 4 := by
  have hnonneg : ∀ w ∈ [(1 : ℚ), 3], 0 ≤ w := by simp
  obtain ⟨sampler, -, qs, hinit, hprobs, -, -, -, -, -, hshare, -⟩ :=
    walkerAliasSamplerInit_realizes hnonneg (by norm_num) (by simp)
  refine ⟨sampler, qs, hinit, hprobs, ?_⟩
  intro i hi
  have hi' := hshare i hi
  norm_num at hi' ⊢
  exact hi'

end Sampler

end Plfit
