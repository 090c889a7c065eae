import Mathlib
import Plfit.Sampling.WalkerAlias

/-! # Drawing from the alias table

A draw of the largest integer makes the uniform number one. A bin of probability one then
hands out its alias, and a bin that was never filled has the alias zero. So an item without
weight can be drawn, and it is the first one.
-/
namespace Plfit
open ExactArithmetic AliasTable
variable {K : Type} [Field K] [LinearOrder K]

/-! ## Runs of the sampler -/

/-- The item for a uniform number and the integer that selects the bin. -/
def drawnItem (sampler : WalkerAliasSampler K) (u : Double K) (r : ℕ) : ℕ :=
  if u < sampler.probs.getD (r % sampler.numBins) 0 then r % sampler.numBins
  else sampler.indexes.getD (r % sampler.numBins) 0

section Run
variable {sampler : WalkerAliasSampler K}

theorem walkerAliasDraw_eq (hbins : 0 < sampler.numBins)
    (hprobs : sampler.probs.length = sampler.numBins)
    (hindexes : sampler.indexes.length = sampler.numBins) (rng : Rng) :
    walkerAliasDraw sampler rng =
      .ok (drawnItem sampler (runif01 rng).1 (rng.output 1), rng.advance 2) := by
  have hadvance : rng.advance 2 = (rng.advance 1).advance 1 := Rng.advance_succ rng 1
  have hp : rng.output 1 % sampler.numBins < sampler.probs.length := by
    rw [hprobs]
    exact Nat.mod_lt _ hbins
  have hi : rng.output 1 % sampler.numBins < sampler.indexes.length := by
    rw [hindexes]
    exact Nat.mod_lt _ hbins
  simp only [walkerAliasDraw, runif01_snd, Rng.next_fst, Rng.next_snd, Rng.output_advance_one,
    Nat.zero_add, bind, Except.bind, deref_of_lt hp, deref_of_lt hi, drawnItem, hadvance,
    List.getD_eq_getElem _ _ hp, List.getD_eq_getElem _ _ hi]
  rfl

/-- Every draw takes two integers. -/
theorem walkerAliasSamplerSample_eq (hbins : 0 < sampler.numBins)
    (hprobs : sampler.probs.length = sampler.numBins)
    (hindexes : sampler.indexes.length = sampler.numBins) (n : ℕ) (rng : Rng) :
    walkerAliasSamplerSample sampler n rng =
      .ok ((List.range n).map (fun k => drawnItem sampler
        ((rng.output (2 * k) : Double K) / (rng.maximum : Double K)) (rng.output (2 * k + 1))),
        rng.advance (2 * n)) := by
  induction n generalizing rng with
  | zero =>
    rw [Nat.mul_zero, Rng.advance_zero]
    rfl
  | succ n ih =>
    have hadvance : rng.advance (2 * (n + 1)) = (rng.advance 2).advance (2 * n) := by
      rw [← Rng.advance_add, Nat.mul_succ, Nat.add_comm]
    have houtput : ∀ k, (rng.advance 2).output k = rng.output (k + 2) := by
      intro k
      rw [Rng.output_advance, Nat.add_comm]
    rw [walkerAliasSamplerSample, walkerAliasDraw_eq hbins hprobs hindexes]
    simp only [bind, Except.bind, ih, List.range_succ_eq_map, List.map_cons, List.map_map,
      Function.comp_def, houtput, Rng.maximum_advance, runif01_fst, hadvance]
    rfl

end Run

/-! ## Items without weight -/

section Weights
variable [IsStrictOrderedRing K] {ws : List K} {st : AliasState K} {qs : List K}
variable {filled : Finset ℕ}

omit [IsStrictOrderedRing K] in
theorem weight_pos_of_share (hnonneg : ∀ w ∈ ws, 0 ≤ w) {i : ℕ}
    (h : 0 < (scaledWeights ws).getD i 0) : 0 < ws.getD i 0 := by
  have hne : ws.getD i 0 ≠ 0 := by
    intro hzero
    rw [getD_scaledWeights, hzero, mul_zero, zero_div] at h
    exact h.false
  have hnonneg' : 0 ≤ ws.getD i 0 := by
    rcases Nat.lt_or_ge i ws.length with hi | hi
    · rw [List.getD_eq_getElem _ _ hi]
      exact hnonneg _ (List.getElem_mem hi)
    · rw [List.getD_eq_default _ _ hi]
  exact lt_of_le_of_ne hnonneg' hne.symm

/-- A draw goes wrong in one case only: the uniform number is one, the bin was never filled,
and the first item has no weight. -/
theorem drawnItem_pos_iff (hnonneg : ∀ w ∈ ws, 0 ≤ w) (hne : ws ≠ [])
    (hst : Represents ws.length (fun i => (scaledWeights ws).getD i 0) st qs filled)
    (hend : st.shortSticks.items = [] ∨ st.longSticks.items = []) {u : K} (hu0 : 0 ≤ u)
    (hu1 : u ≤ 1) (r : ℕ) :
    0 < ws.getD (drawnItem { numBins := ws.length, indexes := st.indexes, probs := st.probs }
        (.fin u) r) 0 ↔
      ¬ (u = 1 ∧ qs.getD (r % ws.length) 0 = 1 ∧ ¬ 0 < ws.getD 0 0) := by
  have hlt : r % ws.length < ws.length := Nat.mod_lt r (List.length_pos_iff.mpr hne)
  have hget : st.probs.getD (r % ws.length) 0 = .fin (qs.getD (r % ws.length) 0) := by
    have hlt' : r % ws.length < qs.length := hst.length_qs.symm ▸ hlt
    rw [hst.probs_eq, List.getD_eq_getElem _ _ hlt', List.getD_eq_getElem _ _ (by simpa using hlt'),
      List.getElem_map]
  simp only [drawnItem, hget, Double.fin_lt_fin]
  generalize r % ws.length = j at hlt
  by_cases hu : u < qs.getD j 0
  · have hshare : 0 < (scaledWeights ws).getD j 0 :=
      (hu0.trans_lt hu).trans_le (hst.filling.level_le_target j)
    have hq : qs.getD j 0 ≤ 1 := (hst.filling.level_mem hend (Finset.mem_range.mpr hlt)).2
    rw [if_pos hu]
    refine iff_of_true (weight_pos_of_share hnonneg hshare) ?_
    rintro ⟨rfl, -, -⟩
    exact hu.not_ge hq
  · rw [if_neg hu]
    by_cases hfilled : j ∈ filled
    · have hq : qs.getD j 0 < 1 := (hst.filling.filled j hfilled).2.2.1
      have hshare : 0 < (scaledWeights ws).getD (st.indexes.getD j 0) 0 :=
        (sub_pos.mpr hq).trans_le (hst.filling.part_le_target hend hfilled)
      exact iff_of_true (weight_pos_of_share hnonneg hshare) (fun h => hq.ne h.2.1)
    · have hq : qs.getD j 0 = 1 := hst.filling.level_eq_one hend
        (Finset.mem_sdiff.mpr ⟨Finset.mem_range.mpr hlt, hfilled⟩)
      have hu' : u = 1 := le_antisymm hu1 (not_lt.mp (hq ▸ hu))
      rw [hst.unassigned j hfilled]
      exact ⟨fun hpos h => h.2.2 hpos, fun h => by_contra fun hpos => h ⟨hu', hq, hpos⟩⟩

omit [IsStrictOrderedRing K] in
theorem getD_probs_eq_one_iff
    (hst : Represents ws.length (fun i => (scaledWeights ws).getD i 0) st qs filled) {j : ℕ}
    (hj : j < ws.length) : st.probs.getD j 0 = 1 ↔ qs.getD j 0 = 1 := by
  have hj' : j < qs.length := hst.length_qs.symm ▸ hj
  rw [hst.probs_eq, List.getD_eq_getElem _ _ hj', List.getD_eq_getElem _ _ (by simpa using hj'),
    List.getElem_map, Double.one_def, Double.fin.injEq]

theorem sample_spec (hnonneg : ∀ w ∈ ws, 0 ≤ w) (hsum : 0 < ws.sum)
    (hlen : ws.length ≤ 2 ^ 63 - 1) :
    ∃ st qs filled, walkerAliasSamplerInit (ws.map .fin) =
        .ok (.ok { numBins := ws.length, indexes := st.indexes, probs := st.probs }) ∧
      Represents ws.length (fun i => (scaledWeights ws).getD i 0) st qs filled ∧
      (∀ j < ws.length, j ∉ filled → st.probs.getD j 0 = 1) ∧
      ∀ (mt : MtRng) (n : ℕ), ∃ items rng,
        walkerAliasSamplerSample
          { numBins := ws.length, indexes := st.indexes, probs := st.probs } n (.twister mt) =
            .ok (items, rng) ∧
        items.length = n ∧
        ((∀ x ∈ items, 0 < ws.getD x 0) ↔ ∀ k < n, ¬ ((mt.output (2 * k)).toNat = mtRandMax ∧
          st.probs.getD ((mt.output (2 * k + 1)).toNat % ws.length) 0 = 1 ∧
            ¬ 0 < ws.getD 0 0)) := by
  obtain ⟨st, qs, filled, -, hst, hend, hinit⟩ := walkerAliasSamplerInit_spec hnonneg hsum hlen
  have hne : ws ≠ [] := by
    rintro rfl
    exact hsum.ne' rfl
  have hpos : 0 < ws.length := List.length_pos_iff.mpr hne
  have hprobs : st.probs.length = ws.length := by
    rw [hst.probs_eq, List.length_map, hst.length_qs]
  have hmax : (0 : K) < (mtRandMax : K) := Nat.cast_pos.mpr (by decide)
  refine ⟨st, qs, filled, hinit, hst, ?_, ?_⟩
  · intro j hj hopen
    rw [getD_probs_eq_one_iff hst hj]
    exact hst.filling.level_eq_one hend (Finset.mem_sdiff.mpr ⟨Finset.mem_range.mpr hj, hopen⟩)
  · intro mt n
    refine ⟨_, _, walkerAliasSamplerSample_eq hpos hprobs hst.length_indexes n (.twister mt),
      by simp, ?_⟩
    have hdraw : ∀ k, 0 < ws.getD (drawnItem
        { numBins := ws.length, indexes := st.indexes, probs := st.probs }
        (((Rng.twister mt).output (2 * k) : Double K) / ((Rng.twister mt).maximum : Double K))
        ((Rng.twister mt).output (2 * k + 1))) 0 ↔
        ¬ ((mt.output (2 * k)).toNat = mtRandMax ∧
          st.probs.getD ((mt.output (2 * k + 1)).toNat % ws.length) 0 = 1 ∧
            ¬ 0 < ws.getD 0 0) := by
      intro k
      have hu : (((Rng.twister mt).output (2 * k) : Double K) /
          ((Rng.twister mt).maximum : Double K)) =
            .fin ((mt.output (2 * k)).toNat / mtRandMax) := Double.fin_div_fin hmax.ne'
      have hle : ((mt.output (2 * k)).toNat : K) ≤ mtRandMax := by
        exact_mod_cast mt.output_le (2 * k)
      have hu0 : (0 : K) ≤ (mt.output (2 * k)).toNat / mtRandMax := by positivity
      have hone : ((mt.output (2 * k)).toNat : K) / mtRandMax = 1 ↔
          (mt.output (2 * k)).toNat = mtRandMax := by
        rw [div_eq_one_iff_eq hmax.ne', Nat.cast_inj]
      rw [hu, drawnItem_pos_iff hnonneg hne hst hend hu0 ((div_le_one hmax).mpr hle), hone,
        getD_probs_eq_one_iff hst (Nat.mod_lt _ hpos)]
      rfl
    simp only [List.mem_map, List.mem_range, forall_exists_index, and_imp,
      forall_apply_eq_imp_iff₂, hdraw]

/-- All items of a run have weight if and only if the first item has, or no draw of the largest
integer meets a bin that was left at probability one. -/
theorem walkerAliasSamplerSample_positive_iff (hnonneg : ∀ w ∈ ws, 0 ≤ w) (hsum : 0 < ws.sum)
    (hlen : ws.length ≤ 2 ^ 63 - 1) (mt : MtRng) (n : ℕ) :
    ∃ sampler items rng,
      walkerAliasSamplerInit (ws.map .fin) = .ok (.ok sampler) ∧
      walkerAliasSamplerSample sampler n (.twister mt) = .ok (items, rng) ∧ items.length = n ∧
      ((∀ x ∈ items, 0 < ws.getD x 0) ↔
        0 < ws.getD 0 0 ∨ ∀ k < n, ¬ ((mt.output (2 * k)).toNat = mtRandMax ∧
          sampler.probs.getD ((mt.output (2 * k + 1)).toNat % ws.length) 0 = 1)) := by
  obtain ⟨st, qs, filled, hinit, -, -, hsample⟩ := sample_spec hnonneg hsum hlen
  obtain ⟨items, rng, hrun, hlength, hiff⟩ := hsample mt n
  refine ⟨_, items, rng, hinit, hrun, hlength, hiff.trans ?_⟩
  by_cases hfirst : 0 < ws.getD 0 0
  · exact iff_of_true (fun k _ h => h.2.2 hfirst) (Or.inl hfirst)
  · simp only [hfirst, not_false_eq_true, and_true, false_or]

theorem sample_positive_two :
    ∃ mt sampler items rng,
      walkerAliasSamplerInit ([(1 : ℚ), 3].map .fin) = .ok (.ok sampler) ∧
      walkerAliasSamplerSample sampler 2 (.twister mt) = .ok (items, rng) ∧ items.length = 2 ∧
      ∀ x ∈ items, 0 < [(1 : ℚ), 3].getD x 0 := by
  have hnonneg : ∀ w ∈ [(1 : ℚ), 3], 0 ≤ w := by simp
  obtain ⟨sampler, items, rng, hinit, hrun, hlength, hiff⟩ :=
    walkerAliasSamplerSample_positive_iff hnonneg (by norm_num) (by simp)
      { mtIndex := 0, mtBuffer := Vector.replicate mtLen 0 } 2
  exact ⟨_, sampler, items, rng, hinit, hrun, hlength, hiff.mpr (Or.inl (by simp))⟩

/-- A state of the generator makes the sampler draw the first item although it has no
weight. -/
theorem exists_draw_of_first (hnonneg : ∀ w ∈ ws, 0 ≤ w) (hsum : 0 < ws.sum)
    (hlen : ws.length ≤ 2 ^ 32) (hfirst : ¬ 0 < ws.getD 0 0) :
    ∃ mt sampler items rng,
      walkerAliasSamplerInit (ws.map .fin) = .ok (.ok sampler) ∧
      walkerAliasSamplerSample sampler 1 (.twister mt) = .ok (items, rng) ∧
      ¬ ∀ x ∈ items, 0 < ws.getD x 0 := by
  obtain ⟨st, qs, filled, hinit, hst, hopen, hsample⟩ :=
    sample_spec hnonneg hsum (hlen.trans (by decide))
  obtain ⟨j, hj⟩ := hst.filling.some_open
  obtain ⟨hjn, hjf⟩ := Finset.mem_sdiff.mp hj
  rw [Finset.mem_range] at hjn
  obtain ⟨mt, hmax, hbin⟩ := exists_outputs 0xFFFFFFFF (UInt32.ofNat j)
  obtain ⟨items, rng, hrun, -, hiff⟩ := hsample mt 1
  refine ⟨mt, _, items, rng, hinit, hrun, ?_⟩
  rw [hiff]
  intro hall
  have hnat : (UInt32.ofNat j).toNat = j := by
    rw [UInt32.toNat_ofNat']
    exact Nat.mod_eq_of_lt (hjn.trans_le hlen)
  refine hall 0 Nat.one_pos ⟨?_, ?_, hfirst⟩
  · rw [Nat.mul_zero, hmax]
    rfl
  · rw [Nat.mul_zero, Nat.zero_add, hbin, hnat, Nat.mod_eq_of_lt hjn]
    exact hopen j hjn hjf

/-- The weights zero and one: the first item is drawn. -/
theorem sample_draws_item_without_weight :
    ∃ mt sampler items rng,
      walkerAliasSamplerInit ([(0 : ℚ), 1].map .fin) = .ok (.ok sampler) ∧
      walkerAliasSamplerSample sampler 1 (.twister mt) = .ok (items, rng) ∧
      ¬ ∀ x ∈ items, 0 < [(0 : ℚ), 1].getD x 0 :=
  exists_draw_of_first (by simp) (by norm_num) (by simp) (by simp)

end Weights

end Plfit
