import Mathlib
import Plfit.Search.Probes
import Plfit.Model.Discrete

/-! # The candidates of the discrete search

The control flow of the search depends on the samples only. The bound is the start of the
last but one block, and the loop jumps from the start of a block to the start of the next
one. The jump out of the last block before the bound ends at the bound itself, unless that
block has a single element.
-/
namespace Plfit
open ExactArithmetic SortedBlocks
variable {K : Type} [LinearOrder K] {xs : List K}

theorem any_beq_iff {v : K} {p : ℕ} :
    (((xs.map Double.fin)[p]?).any (fun x => x == .fin v)) = true ↔ xs[p]? = some v := by
  rw [List.getElem?_map]
  cases xs[p]? <;> simp

/-- The first loop stops at the first sample that is not below the bound. -/
theorem advanceWhile_lt (hs : xs.SortedLE) (c : K) {px : ℕ} (h : px ≤ below xs c) :
    advanceWhile (fun x => x < .fin c) (xs.map Double.fin) xs.length px = below xs c := by
  induction hk : below xs c - px generalizing px with
  | zero =>
    obtain rfl : px = below xs c := by omega
    rw [advanceWhile, if_neg]
    rintro ⟨hlt, hany⟩
    rw [List.getElem?_map, List.getElem?_eq_getElem hlt] at hany
    have hx := List.getElem?_eq_getElem hlt
    have hxc : xs[below xs c] < c := by simpa using hany
    exact lt_irrefl _ ((lt_iff_lt_below hs hx c).mp hxc)
  | succ k ih =>
    have hlt : px < xs.length := by
      have := below_le_length xs c
      omega
    have hx := List.getElem?_eq_getElem hlt
    have hxc : xs[px] < c := (lt_iff_lt_below hs hx c).mpr (by omega)
    rw [advanceWhile, if_pos ⟨hlt, by rw [List.getElem?_map, hx]; simpa using hxc⟩]
    exact ih (by omega) (by omega)

/-- Skipping the duplicates of a value stops at the end of its block or at the bound. -/
theorem skipDuplicates_block (hs : xs.SortedLE) {v : K} (stop : ℕ) {px : ℕ} (m : ℕ)
    (hl : below xs v ≤ px) (hr : px ≤ upTo xs v) (hstop : px ≤ stop) :
    skipDuplicates (xs.map Double.fin) stop (.fin v) px m =
      (min stop (upTo xs v), m + (min stop (upTo xs v) - px)) := by
  induction hk : min stop (upTo xs v) - px generalizing px m with
  | zero =>
    have hpx : px = min stop (upTo xs v) := by omega
    rw [skipDuplicates, if_neg, ← hpx, Nat.add_zero]
    rintro ⟨hlt, hany⟩
    have := (getElem?_eq_some_iff_block hs).mp (any_beq_iff.mp hany)
    omega
  | succ k ih =>
    have hblock : xs[px]? = some v := (getElem?_eq_some_iff_block hs).mpr ⟨hl, by omega⟩
    rw [skipDuplicates, if_pos ⟨by omega, any_beq_iff.mpr hblock⟩,
      ih (m + 1) (by omega) (by omega) (by omega) (by omega), Nat.add_assoc, Nat.add_comm 1]

/-- Going back over a block stops before it, or at the first candidate. -/
theorem retreatBlock_block (hs : xs.SortedLE) {v : K} {px e : ℕ} (hl : below xs v ≤ e + 1)
    (hr : e < upTo xs v) :
    retreatBlock (.fin v) (xs.map Double.fin) px e =
      if e ≤ px then e else max px (below xs v - 1) := by
  induction e with
  | zero => simp [retreatBlock]
  | succ e ih =>
    have hany := any_beq_iff.trans (getElem?_eq_some_iff_block hs (v := v) (p := e + 1))
    rw [retreatBlock]
    by_cases hblock : px < e + 1 ∧ below xs v ≤ e + 1
    · rw [if_pos ⟨hblock.1, hany.mpr ⟨hblock.2, hr⟩⟩, ih hblock.2 (by omega)]
      split <;> split <;> omega
    · rw [if_neg (fun h => hblock ⟨h.1, (hany.mp h.2).1⟩)]
      split <;> omega

/-! ## The bound -/

section Bound
variable {c : K}

/-- There is nothing between the bound and the first value from it on. -/
theorem below_eq_below_head {v : K} {vs : List K} (h : valuesFrom xs c = v :: vs) :
    below xs c = below xs v := by
  refine List.countP_congr ?_
  intro x hx
  have hcv : c ≤ v := (mem_valuesFrom.mp (h ▸ List.mem_cons_self)).2
  have hmin : c ≤ x → v ≤ x := by
    intro hcx
    have hmem : x ∈ v :: vs := h ▸ mem_valuesFrom.mpr ⟨hx, hcx⟩
    have hsorted := (List.sortedLT_iff_pairwise.mp (h ▸ valuesFrom_sortedLT xs c))
    rcases List.mem_cons.mp hmem with rfl | hmem
    · exact le_rfl
    · exact ((List.pairwise_cons.mp hsorted).1 x hmem).le
  simp only [decide_eq_true_eq]
  constructor
  · exact fun h' => h'.trans_le hcv
  · exact fun h' => lt_of_not_ge fun hcx => h'.not_ge (hmin hcx)

theorem upTo_last {t : K} (vs : List K) (h : valuesFrom xs c = vs ++ [t]) :
    upTo xs t = xs.length := by
  rw [upTo, List.countP_eq_length]
  intro x hx
  have hct : c ≤ t := (mem_valuesFrom.mp (h ▸ List.mem_append_right vs List.mem_cons_self)).2
  rw [decide_eq_true_eq]
  rcases lt_or_ge x c with hxc | hcx
  · exact (hxc.trans_le hct).le
  · have hmem : x ∈ vs ++ [t] := h ▸ mem_valuesFrom.mpr ⟨hx, hcx⟩
    have hsorted := (List.sortedLT_iff_pairwise.mp (h ▸ valuesFrom_sortedLT xs c))
    rcases List.mem_append.mp hmem with hmem | hmem
    · exact ((List.pairwise_append.mp hsorted).2.2 x hmem t List.mem_cons_self).le
    · exact (List.mem_singleton.mp hmem).le

theorem candidateBound_eq {px e₁ e₂ : ℕ} {t u : K}
    (ht : xs[xs.length - 1]? = some t)
    (he₁ : retreatBlock (.fin t) (xs.map Double.fin) px (xs.length - 1) = e₁)
    (hu : xs[e₁]? = some u)
    (he₂ : retreatBlock (.fin u) (xs.map Double.fin) px e₁ = e₂) :
    candidateBound (xs.map Double.fin) px = .ok (e₂ + 1) := by
  simp only [candidateBound, List.length_map, deref_map ht, bind, Except.bind, he₁, deref_map hu,
    he₂, pure, Except.pure]

theorem candidateBound_nil (hs : xs.SortedLE) (hne : xs ≠ []) (h : valuesFrom xs c = []) :
    candidateBound (xs.map Double.fin) (below xs c) = .ok xs.length ∧
      below xs c = xs.length := by
  have hlen : 0 < xs.length := List.length_pos_of_ne_nil hne
  have hlast : xs.length - 1 < xs.length := by omega
  have hbelow : below xs c = xs.length := by
    rw [below, List.countP_eq_length]
    intro x hx
    rw [decide_eq_true_eq]
    refine lt_of_not_ge fun hcx => ?_
    have hmem := mem_valuesFrom.mpr ⟨hx, hcx⟩
    rw [h] at hmem
    exact absurd hmem List.not_mem_nil
  have ht : xs[xs.length - 1]? = some xs[xs.length - 1] := List.getElem?_eq_getElem hlast
  have hblock := (getElem?_eq_some_iff_block hs).mp ht
  have hretreat : retreatBlock (.fin xs[xs.length - 1]) (xs.map Double.fin) (below xs c)
      (xs.length - 1) = xs.length - 1 := by
    rw [retreatBlock_block hs (by omega) hblock.2, if_pos (by omega)]
  refine ⟨?_, hbelow⟩
  rw [candidateBound_eq ht hretreat ht hretreat, Nat.sub_add_cancel hlen]

/-- With one value the bound is one step ahead. -/
theorem candidateBound_singleton (hs : xs.SortedLE) {t : K} (h : valuesFrom xs c = [t]) :
    candidateBound (xs.map Double.fin) (below xs c) = .ok (below xs c + 1) := by
  have htop : upTo xs t = xs.length := upTo_last [] h
  have hmem : t ∈ xs := (mem_valuesFrom.mp (h ▸ List.mem_cons_self)).1
  have hlt := below_lt_upTo hmem
  have hstart := below_eq_below_head h
  have ht : xs[xs.length - 1]? = some t :=
    (getElem?_eq_some_iff_block hs).mpr ⟨by omega, by omega⟩
  refine candidateBound_eq ht ?_ (getElem?_below hs hmem) ?_
  · rw [retreatBlock_block hs (by omega) (by omega)]
    split <;> omega
  · rw [retreatBlock_block hs (by omega) hlt, if_pos (by omega), hstart]

theorem candidateBound_pair (hs : xs.SortedLE) {u t : K} (h : valuesFrom xs c = [u, t]) :
    candidateBound (xs.map Double.fin) (below xs c) = .ok (below xs c + 1) := by
  have htop : upTo xs t = xs.length := upTo_last [u] h
  have hmem : ∀ x ∈ [u, t], x ∈ xs := fun x hx => (mem_valuesFrom.mp (h ▸ hx)).1
  have hut := below_lt_upTo (hmem u (by simp))
  have htt := below_lt_upTo (hmem t (by simp))
  have hadjacent : upTo xs u = below xs t := by
    have hchain := h ▸ isChain_valuesFrom xs c
    simpa using hchain
  have hstart := below_eq_below_head h
  have ht : xs[xs.length - 1]? = some t :=
    (getElem?_eq_some_iff_block hs).mpr ⟨by omega, by omega⟩
  have hu : xs[below xs t - 1]? = some u :=
    (getElem?_eq_some_iff_block hs).mpr ⟨by omega, by omega⟩
  refine candidateBound_eq ht ?_ hu ?_
  · rw [retreatBlock_block hs (by omega) (by omega)]
    split <;> omega
  · rw [retreatBlock_block hs (by omega) (by omega)]
    split <;> omega

theorem upTo_le_of_isChain {v u : K} {mid : List K} (hmem : ∀ x ∈ v :: mid, x ∈ xs)
    (h : (v :: mid ++ [u]).IsChain (fun a b => upTo xs a = below xs b)) :
    upTo xs v ≤ below xs u := by
  induction mid generalizing v with
  | nil =>
    have hvu : upTo xs v = below xs u := by simpa using h
    exact hvu.le
  | cons w mid ih =>
    obtain ⟨hvw, hrest⟩ : upTo xs v = below xs w ∧
        (w :: mid ++ [u]).IsChain (fun a b => upTo xs a = below xs b) := by simpa using h
    have hw := below_lt_upTo (hmem w (by simp))
    have := ih (fun x hx => hmem x (List.mem_cons_of_mem v hx)) hrest
    omega

/-- With three values or more the bound is the start of the last but one block. -/
theorem candidateBound_long (hs : xs.SortedLE) {v u t : K} {mid : List K}
    (h : valuesFrom xs c = v :: mid ++ [u] ++ [t]) :
    candidateBound (xs.map Double.fin) (below xs c) = .ok (below xs u) := by
  have htop : upTo xs t = xs.length := upTo_last _ h
  have hmem : ∀ x ∈ v :: mid ++ [u] ++ [t], x ∈ xs := fun x hx => (mem_valuesFrom.mp (h ▸ hx)).1
  have hchain := h ▸ isChain_valuesFrom xs c
  have hfront := (List.isChain_append.mp hchain).1
  have hvu := upTo_le_of_isChain (fun x hx => hmem x (by simp at hx ⊢; tauto)) hfront
  have hvv := below_lt_upTo (hmem v (by simp))
  have hut := below_lt_upTo (hmem u (by simp))
  have htt := below_lt_upTo (hmem t (by simp))
  have hadjacent : upTo xs u = below xs t := 
    (List.isChain_append.mp hchain).2.2 u (List.getLast?_concat) t rfl
  have hstart := below_eq_below_head h
  have ht : xs[xs.length - 1]? = some t :=
    (getElem?_eq_some_iff_block hs).mpr ⟨by omega, by omega⟩
  have hu : xs[below xs t - 1]? = some u :=
    (getElem?_eq_some_iff_block hs).mpr ⟨by omega, by omega⟩
  have hbound : below xs u - 1 + 1 = below xs u := by omega
  rw [← hbound]
  refine candidateBound_eq ht ?_ hu ?_
  · rw [retreatBlock_block hs (by omega) (by omega)]
    split <;> omega
  · rw [retreatBlock_block hs (by omega) (by omega)]
    split <;> omega

end Bound

/-! ## The positions the loop evaluates -/

section Positions

/-- The positions the main loop evaluates from `px` on, after the value `prevX`. -/
def candidates (xs : List (Double K)) (stop : ℕ) (prevX : Double K) (px : ℕ) : List ℕ :=
  if _h : px < stop then
    let s := (skipDuplicates xs stop prevX px px).1
    s :: candidates xs stop ((xs[s]?).getD .nan) (s + 1)
  else []
termination_by stop - px
decreasing_by
  have := le_skipDuplicates_fst xs stop prevX px px
  omega

theorem candidates_of_le {prevX : Double K} {stop px : ℕ} (h : stop ≤ px) (xs : List (Double K)) :
    candidates xs stop prevX px = [] := by
  rw [candidates, dif_neg h.not_gt]

/-- The first candidate is the first value, whatever other value came before. -/
theorem candidates_first {prevX : Double K} {stop px : ℕ} {v : K} (h : px < stop)
    (hx : xs[px]? = some v) (hne : (.fin v == prevX) = false) :
    candidates (xs.map Double.fin) stop prevX px =
      px :: candidates (xs.map Double.fin) stop (.fin v) (px + 1) := by
  have hget : (xs.map Double.fin)[px]? = some (.fin v) := by
    rw [List.getElem?_map, hx]
    rfl
  have hskip : skipDuplicates (xs.map Double.fin) stop prevX px px = (px, px) := by
    rw [skipDuplicates, if_neg]
    rintro ⟨-, hany⟩
    rw [hget, Option.any_some, hne] at hany
    exact Bool.false_ne_true hany
  rw [candidates, dif_pos h]
  simp only [hskip, hget, Option.getD_some]

/-- After a value the loop goes on with the next one while there is room before the bound. -/
theorem candidates_next (hs : xs.SortedLE) {v w : K} {stop : ℕ} (hv : v ∈ xs) (hw : w ∈ xs)
    (hadjacent : upTo xs v = below xs w) (hroom : below xs v + 1 < stop)
    (hstop : below xs w ≤ stop) :
    candidates (xs.map Double.fin) stop (.fin v) (below xs v + 1) =
      below xs w :: candidates (xs.map Double.fin) stop (.fin w) (below xs w + 1) := by
  have hlt := below_lt_upTo hv
  have hskip := skipDuplicates_block hs stop (below xs v + 1) (Nat.le_succ _) hlt hroom.le
  have hget : (xs.map Double.fin)[below xs w]? = some (.fin w) := by
    rw [List.getElem?_map, getElem?_below hs hw]
    rfl
  rw [candidates, dif_pos hroom]
  simp only [hskip, hadjacent, min_eq_right hstop, hget, Option.getD_some]

/-- From a value to the bound: the values between them, and the value at the bound unless
the block before it has one element. -/
theorem candidates_chain (hs : xs.SortedLE) {v u : K} {mid : List K} (hv : v ∈ xs)
    (hmid : ∀ x ∈ mid, x ∈ xs) (hu : u ∈ xs)
    (hchain : (v :: mid ++ [u]).IsChain (fun a b => upTo xs a = below xs b)) :
    candidates (xs.map Double.fin) (below xs u) (.fin v) (below xs v + 1) =
      mid.map (below xs) ++
        if xs.count (mid.getLastD v) = 1 then [] else [below xs u] := by
  induction mid generalizing v with
  | nil =>
    have hadjacent : upTo xs v = below xs u := by simpa using hchain
    have hcount := upTo_eq xs v
    have hpos := List.count_pos_iff.mpr hv
    rw [List.map_nil, List.nil_append, List.getLastD_nil]
    split
    · exact candidates_of_le (by omega) _
    · rw [candidates_next hs hv hu hadjacent (by omega) le_rfl, candidates_of_le (Nat.le_succ _)]
  | cons w mid ih =>
    obtain ⟨hadjacent, hrest⟩ : upTo xs v = below xs w ∧
        (w :: mid ++ [u]).IsChain (fun a b => upTo xs a = below xs b) := by simpa using hchain
    have hw : w ∈ xs := hmid w List.mem_cons_self
    have hmid' : ∀ x ∈ mid, x ∈ xs := fun x hx => hmid x (List.mem_cons_of_mem w hx)
    have hvw := below_lt_upTo hv
    have hww := below_lt_upTo hw
    have hwu := upTo_le_of_isChain (fun x hx => by
      rcases List.mem_cons.mp hx with rfl | hx
      · exact hw
      · exact hmid' x hx) hrest
    rw [candidates_next hs hv hw hadjacent (by omega) (by omega), ih hw hmid' hrest,
      List.map_cons, List.cons_append, List.getLastD_cons]

/-- The values that leave at least three distinct values in their tails, or the first one. -/
def expectedCandidates (vs : List K) : List K :=
  if 3 ≤ vs.length then vs.take (vs.length - 2) else vs.take 1

/-- The value the loop runs into when the block before the bound has several elements. -/
def overrun (xs vs : List K) : List K :=
  if 3 ≤ vs.length ∧ ∀ v ∈ vs[vs.length - 3]?, xs.count v ≠ 1 then
    (vs[vs.length - 2]?).toList
  else []

omit [LinearOrder K] in
theorem exists_split {vs : List K} (h : 3 ≤ vs.length) :
    ∃ v mid u t, vs = v :: mid ++ [u] ++ [t] := by
  obtain rfl | ⟨init, t, rfl⟩ := List.eq_nil_or_concat vs
  · simp at h
  obtain rfl | ⟨init, u, rfl⟩ := List.eq_nil_or_concat init
  · simp at h
  cases init with
  | nil => simp at h
  | cons v mid => exact ⟨v, mid, u, t, by simp⟩

omit [LinearOrder K] in
theorem expectedCandidates_split (v u t : K) (mid : List K) :
    expectedCandidates (v :: mid ++ [u] ++ [t]) = v :: mid := by
  have hlen : (v :: mid ++ [u] ++ [t]).length = (v :: mid).length + 2 := by simp
  rw [expectedCandidates, if_pos (by simp), hlen, Nat.add_sub_cancel, List.append_assoc,
    List.take_left]

theorem overrun_split (v u t : K) (mid : List K) :
    overrun xs (v :: mid ++ [u] ++ [t]) =
      if xs.count (mid.getLastD v) = 1 then [] else [u] := by
  have hlen : (v :: mid ++ [u] ++ [t]).length = mid.length + 3 := by simp
  have hlast : (v :: mid ++ [u] ++ [t])[mid.length]? = some (mid.getLastD v) := by
    have hlast : (v :: mid).getLast? = some (mid.getLastD v) := by
      rw [List.getLast?_cons, List.getLastD_eq_getLast?]
    rw [List.append_assoc, List.getElem?_append_left (by simp), ← hlast,
      List.getLast?_eq_getElem?]
    rfl
  have hu : (v :: mid ++ [u] ++ [t])[mid.length + 1]? = some u := by simp
  rw [overrun, hlen, Nat.add_sub_cancel, hlast, Nat.add_sub_assoc (by decide), hu]
  by_cases hcount : xs.count (mid.getLastD v) = 1
  · rw [if_pos hcount, if_neg]
    rintro ⟨-, h⟩
    exact h _ rfl hcount
  · rw [if_neg hcount, if_pos ⟨by omega, by simpa using hcount⟩]
    rfl

/-- The bound exists, and up to it the loop evaluates the expected values at their first
occurrences and then the one it runs into. -/
theorem candidates_eq (hs : xs.SortedLE) (hne : xs ≠ []) {c : K} {prevX : Double K}
    (hprev : ∀ v, c ≤ v → (.fin v == prevX) = false) :
    ∃ stop, candidateBound (xs.map Double.fin) (below xs c) = .ok stop ∧
      candidates (xs.map Double.fin) stop prevX (below xs c) =
        (expectedCandidates (valuesFrom xs c) ++ overrun xs (valuesFrom xs c)).map (below xs) := by
  have hfirst : ∀ v vs, valuesFrom xs c = v :: vs → ∀ stop, below xs c < stop →
      candidates (xs.map Double.fin) stop prevX (below xs c) =
        below xs v :: candidates (xs.map Double.fin) stop (.fin v) (below xs v + 1) := by
    intro v vs h stop hstop
    have hv := mem_valuesFrom.mp (h ▸ List.mem_cons_self : v ∈ valuesFrom xs c)
    rw [below_eq_below_head h] at hstop ⊢
    exact candidates_first hstop (getElem?_below hs hv.1) (hprev v hv.2)
  by_cases hlen : 3 ≤ (valuesFrom xs c).length
  · obtain ⟨v, mid, u, t, h⟩ := exists_split hlen
    have hmem : ∀ x ∈ v :: mid ++ [u] ++ [t], x ∈ xs :=
      fun x hx => (mem_valuesFrom.mp (h ▸ hx)).1
    have hchain := (List.isChain_append.mp (h ▸ isChain_valuesFrom xs c)).1
    have hvu := upTo_le_of_isChain (fun x hx => hmem x (by simp at hx ⊢; tauto)) hchain
    have hvv := below_lt_upTo (hmem v (by simp))
    refine ⟨below xs u, candidateBound_long hs h, ?_⟩
    rw [hfirst v _ h _ (by rw [below_eq_below_head h]; omega),
      candidates_chain hs (hmem v (by simp)) (fun x hx => hmem x (by simp [hx]))
        (hmem u (by simp)) hchain, h, expectedCandidates_split, overrun_split]
    split <;> simp
  · match h : valuesFrom xs c with
    | [] =>
      obtain ⟨hbound, hbelow⟩ := candidateBound_nil hs hne h
      exact ⟨_, hbound, by rw [candidates_of_le hbelow.ge]; simp [expectedCandidates, overrun]⟩
    | [t] =>
      refine ⟨_, candidateBound_singleton hs h, ?_⟩
      rw [hfirst t _ h _ (Nat.lt_succ_self _), below_eq_below_head h, candidates_of_le le_rfl]
      simp [expectedCandidates, overrun]
    | [u, t] =>
      refine ⟨_, candidateBound_pair hs h, ?_⟩
      rw [hfirst u _ h _ (Nat.lt_succ_self _), below_eq_below_head h, candidates_of_le le_rfl]
      simp [expectedCandidates, overrun]
    | _ :: _ :: _ :: _ =>
      rw [h] at hlen
      simp at hlen

end Positions

end Plfit
