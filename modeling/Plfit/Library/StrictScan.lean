import Mathlib

/-! # Running minima with a strict comparison

A scan holds the best candidate seen so far, starting from a bound that no candidate has to
reach, and replaces it only by a strictly better one. The result is the first minimum of the
list when that minimum lies below the bound. Scanning pieces separately and merging their
results by the same comparison is scanning the pieces in the order of the merges.
-/
namespace StrictScan
variable {ι β : Type*} [LinearOrder β] {key : ι → β} {bound : β}

/-- The value to beat: the bound until a candidate is held. -/
def value (key : ι → β) (bound : β) : Option ι → β
  | none => bound
  | some i => key i

def consider (key : ι → β) (bound : β) (held : Option ι) (i : ι) : Option ι :=
  if key i < value key bound held then some i else held

def scan (key : ι → β) (bound : β) (xs : List ι) : Option ι :=
  xs.foldl (consider key bound) none

def merge (key : ι → β) (bound : β) (held found : Option ι) : Option ι :=
  if value key bound found < value key bound held then found else held

omit [LinearOrder β] in
@[simp] theorem value_none : value key bound none = bound := rfl
omit [LinearOrder β] in
@[simp] theorem value_some (i : ι) : value key bound (some i) = key i := rfl
@[simp] theorem scan_nil : scan key bound ([] : List ι) = none := rfl

theorem scan_append_singleton (xs : List ι) (i : ι) :
    scan key bound (xs ++ [i]) = consider key bound (scan key bound xs) i := by
  simp [scan]

/-- The scan is the first minimum, provided it lies below the bound. -/
theorem scan_eq_argmin (xs : List ι) :
    scan key bound xs = (xs.argmin key).filter (fun i => key i < bound) := by
  induction xs using List.reverseRecOn with
  | nil => rfl
  | append_singleton xs i ih =>
    rw [scan_append_singleton, ih, List.argmin_concat]
    cases h : xs.argmin key with
    | none => by_cases hi : key i < bound <;> simp [consider, Option.filter, hi]
    | some c =>
      dsimp only
      by_cases hc : key c < bound
      · by_cases hic : key i < key c
        · simp [consider, Option.filter, hc, hic, hic.trans hc]
        · simp [consider, Option.filter, hc, hic]
      · by_cases hi : key i < bound
        · have hic : key i < key c := hi.trans_le (not_lt.mp hc)
          simp [consider, Option.filter, hc, hi, hic]
        · by_cases hic : key i < key c <;> simp [consider, Option.filter, hc, hi, hic]

theorem scan_eq_some_iff [DecidableEq ι] {xs : List ι} {w : ι} :
    scan key bound xs = some w ↔
      (w ∈ xs ∧ (∀ x ∈ xs, key w ≤ key x) ∧
        ∀ x ∈ xs, key x ≤ key w → xs.idxOf w ≤ xs.idxOf x) ∧ key w < bound := by
  rw [scan_eq_argmin, Option.filter_eq_some_iff, List.argmin_eq_some_iff]
  simp

theorem scan_eq_none_iff {xs : List ι} :
    scan key bound xs = none ↔ ∀ x ∈ xs, bound ≤ key x := by
  rw [scan_eq_argmin]
  cases h : xs.argmin key with
  | none => simp [List.argmin_eq_none.mp h]
  | some c =>
    have hmin : ∀ x ∈ xs, key c ≤ key x := fun x hx => List.le_of_mem_argmin hx h
    simp only [Option.filter_some, decide_eq_true_eq, ite_eq_right_iff, reduceCtorEq, imp_false,
      not_lt]
    exact ⟨fun hc x hx => hc.trans (hmin x hx), fun hall => hall c (List.argmin_mem h)⟩

theorem mem_of_scan {xs : List ι} {w : ι} (h : scan key bound xs = some w) : w ∈ xs := by
  rw [scan_eq_argmin, Option.filter_eq_some_iff] at h
  exact List.argmin_mem h.1

theorem lt_bound_of_scan {xs : List ι} {w : ι} (h : scan key bound xs = some w) :
    key w < bound := by
  rw [scan_eq_argmin, Option.filter_eq_some_iff] at h
  simpa using h.2

theorem le_of_scan {xs : List ι} {w x : ι} (h : scan key bound xs = some w) (hx : x ∈ xs) :
    key w ≤ key x := by
  rw [scan_eq_argmin, Option.filter_eq_some_iff] at h
  exact List.le_of_mem_argmin hx h.1

theorem value_consider_le (held : Option ι) (i : ι) :
    value key bound (consider key bound held i) ≤ value key bound held := by
  unfold consider
  split
  · rename_i h
    exact h.le
  · exact le_rfl

theorem value_scan_le (xs : List ι) : value key bound (scan key bound xs) ≤ bound := by
  cases h : scan key bound xs with
  | none => exact le_rfl
  | some w => exact (lt_bound_of_scan h).le

theorem value_scan_le_of_mem {xs : List ι} {x : ι} (hx : x ∈ xs) :
    value key bound (scan key bound xs) ≤ key x := by
  cases h : scan key bound xs with
  | none => exact scan_eq_none_iff.mp h x hx
  | some w => exact le_of_scan h hx

/-- In an increasing list the first minimum is the smallest candidate that attains it. -/
theorem le_of_scan_of_key_le [LinearOrder ι] {xs : List ι} (hs : xs.SortedLT) {w x : ι}
    (h : scan key bound xs = some w) (hx : x ∈ xs) (hk : key x ≤ key w) : w ≤ x := by
  obtain ⟨⟨hw, -, hfirst⟩, -⟩ := scan_eq_some_iff.mp h
  have hidx := hfirst x hx hk
  have hmono := hs.sortedLE.monotone_get
  have hw' := List.idxOf_lt_length_iff.mpr hw
  have hx' := List.idxOf_lt_length_iff.mpr hx
  have hle : xs.get ⟨xs.idxOf w, hw'⟩ ≤ xs.get ⟨xs.idxOf x, hx'⟩ := hmono hidx
  simpa using hle

/-- Going on with a list is merging the result of scanning it on its own. -/
theorem foldl_consider_eq_merge {held : Option ι} (hheld : value key bound held ≤ bound)
    (xs : List ι) :
    xs.foldl (consider key bound) held = merge key bound held (scan key bound xs) := by
  induction xs using List.reverseRecOn with
  | nil => simp [merge, hheld.not_gt]
  | append_singleton xs i ih =>
    rw [List.foldl_append, ih, scan_append_singleton]
    simp only [List.foldl_cons, List.foldl_nil]
    cases held with
    | none => cases scan key bound xs <;> simp only [merge, consider, value] at * <;> grind
    | some h => cases scan key bound xs <;> simp only [merge, consider, value] at * <;> grind

theorem scan_map {κ : Type*} (f : κ → ι) (xs : List κ) :
    scan key bound (xs.map f) = (scan (fun x => key (f x)) bound xs).map f := by
  induction xs using List.reverseRecOn with
  | nil => rfl
  | append_singleton xs x ih =>
    rw [List.map_append, List.map_singleton, scan_append_singleton, scan_append_singleton, ih]
    have hvalue : value key bound ((scan (fun x => key (f x)) bound xs).map f) =
        value (fun x => key (f x)) bound (scan (fun x => key (f x)) bound xs) := by
      cases scan (fun x => key (f x)) bound xs <;> rfl
    unfold consider
    rw [hvalue]
    split <;> rfl

theorem merge_none_scan (xs : List ι) :
    merge key bound none (scan key bound xs) = scan key bound xs :=
  (foldl_consider_eq_merge le_rfl xs).symm

theorem scan_append (xs ys : List ι) :
    scan key bound (xs ++ ys) = merge key bound (scan key bound xs) (scan key bound ys) := by
  rw [← foldl_consider_eq_merge (value_scan_le xs)]
  exact List.foldl_append

/-! ## Candidates dealt out to groups -/

section Groups
variable {γ : Type*} [DecidableEq γ] [LinearOrder ι] {owner : ι → γ}

theorem idxOf_le_idxOf_iff {xs : List ι} (hs : xs.SortedLT) {x y : ι} (hx : x ∈ xs)
    (hy : y ∈ xs) : xs.idxOf x ≤ xs.idxOf y ↔ x ≤ y := by
  have hx' := List.idxOf_lt_length_iff.mpr hx
  have hy' := List.idxOf_lt_length_iff.mpr hy
  have hle := hs.strictMono_get.le_iff_le (a := ⟨xs.idxOf x, hx'⟩) (b := ⟨xs.idxOf y, hy'⟩)
  simpa using hle.symm

/-- The elements of an increasing list as the groups come: group by group, each in order. -/
def grouped (owner : ι → γ) (xs : List ι) (order : List γ) : List ι :=
  (order.map (fun g => xs.filter (fun x => owner x = g))).flatten

omit [LinearOrder ι] in
theorem mem_grouped {xs : List ι} {order : List γ} {x : ι} :
    x ∈ grouped owner xs order ↔ x ∈ xs ∧ owner x ∈ order := by
  simp only [grouped, List.mem_flatten, List.mem_map]
  constructor
  · rintro ⟨-, ⟨g, hg, rfl⟩, hx⟩
    obtain ⟨hxs, rfl⟩ : x ∈ xs ∧ owner x = g := by simpa using hx
    exact ⟨hxs, hg⟩
  · rintro ⟨hxs, hg⟩
    exact ⟨_, ⟨owner x, hg, rfl⟩, by simpa using hxs⟩

/-- The place of an element is decided by its group first. -/
theorem idxOf_grouped_le_iff {xs : List ι} (hs : xs.SortedLT) {order : List γ} {x y : ι}
    (hx : x ∈ grouped owner xs order) (hy : y ∈ grouped owner xs order) :
    (grouped owner xs order).idxOf x ≤ (grouped owner xs order).idxOf y ↔
      order.idxOf (owner x) < order.idxOf (owner y) ∨ owner x = owner y ∧ x ≤ y := by
  induction order with
  | nil => simp [mem_grouped] at hx
  | cons g order ih =>
    have hsplit : grouped owner xs (g :: order) =
        xs.filter (fun x => owner x = g) ++ grouped owner xs order := by simp [grouped]
    obtain ⟨hxs, hxo⟩ := mem_grouped.mp hx
    obtain ⟨hys, hyo⟩ := mem_grouped.mp hy
    have hmem : ∀ z ∈ xs, (z ∈ xs.filter (fun x => owner x = g) ↔ owner z = g) := by
      intro z hz
      simp [hz]
    rw [hsplit, List.idxOf_append, List.idxOf_append]
    simp only [hmem x hxs, hmem y hys]
    by_cases hgx : owner x = g <;> by_cases hgy : owner y = g
    · have hfilter : (xs.filter (fun x => owner x = g)).SortedLT :=
        (hs.pairwise.filter _).sortedLT
      rw [if_pos hgx, if_pos hgy, idxOf_le_idxOf_iff hfilter ((hmem x hxs).mpr hgx)
        ((hmem y hys).mpr hgy)]
      simp [hgx, hgy]
    · have hlt : (xs.filter (fun x => owner x = g)).idxOf x <
          (xs.filter (fun x => owner x = g)).length := by
        rw [List.idxOf_lt_length_iff, hmem x hxs]
        exact hgx
      have hne : g ≠ owner y := fun h => hgy h.symm
      rw [if_pos hgx, if_neg hgy, hgx, List.idxOf_cons_self, List.idxOf_cons_ne _ hne]
      refine iff_of_true ?_ (Or.inl ?_) <;> omega
    · have hlt : (xs.filter (fun x => owner x = g)).idxOf y <
          (xs.filter (fun x => owner x = g)).length := by
        rw [List.idxOf_lt_length_iff, hmem y hys]
        exact hgy
      have hne : g ≠ owner x := fun h => hgx h.symm
      rw [if_neg hgx, if_pos hgy, hgy, List.idxOf_cons_self, List.idxOf_cons_ne _ hne]
      refine iff_of_false ?_ ?_
      · omega
      · rintro (h | h)
        · omega
        · exact hgx h.1
    · have hnex : g ≠ owner x := fun h => hgx h.symm
      have hney : g ≠ owner y := fun h => hgy h.symm
      have hxo' : owner x ∈ order := (List.mem_cons.mp hxo).resolve_left hgx
      have hyo' : owner y ∈ order := (List.mem_cons.mp hyo).resolve_left hgy
      have hrec := ih (mem_grouped.mpr ⟨hxs, hxo'⟩) (mem_grouped.mpr ⟨hys, hyo'⟩)
      rw [if_neg hgx, if_neg hgy, List.idxOf_cons_ne _ hnex, List.idxOf_cons_ne _ hney]
      rw [Nat.succ_lt_succ_iff, ← hrec]
      omega

/-- Scanning group by group finds the same candidate exactly when the group of the first
minimum does not come after that of another one. -/
theorem scan_grouped_eq_iff {xs : List ι} (hs : xs.SortedLT) {order : List γ}
    (hall : ∀ x ∈ xs, owner x ∈ order) :
    scan key bound (grouped owner xs order) = scan key bound xs ↔
      ∀ w, scan key bound xs = some w → ∀ x ∈ xs, key x ≤ key w →
        order.idxOf (owner w) ≤ order.idxOf (owner x) := by
  have hmem : ∀ x, x ∈ grouped owner xs order ↔ x ∈ xs := fun x =>
    mem_grouped.trans (and_iff_left_of_imp (hall x))
  constructor
  · intro heq w hw x hx hk
    rw [← heq] at hw
    obtain ⟨⟨hw, -, hfirst⟩, -⟩ := scan_eq_some_iff.mp hw
    have hidx := hfirst x ((hmem x).mpr hx) hk
    rcases (idxOf_grouped_le_iff hs hw ((hmem x).mpr hx)).mp hidx with h | h
    · exact h.le
    · rw [h.1]
  · intro hfirst
    cases hscan : scan key bound xs with
    | none =>
      rw [scan_eq_none_iff] at hscan ⊢
      exact fun x hx => hscan x ((hmem x).mp hx)
    | some w =>
      have hwxs := mem_of_scan hscan
      have hw := (hmem w).mpr hwxs
      refine scan_eq_some_iff.mpr ⟨⟨hw, ?_, ?_⟩, lt_bound_of_scan hscan⟩
      · exact fun x hx => le_of_scan hscan ((hmem x).mp hx)
      · intro x hx hk
        have hxs := (hmem x).mp hx
        have hle := hfirst w hscan x hxs hk
        rw [idxOf_grouped_le_iff hs hw hx]
        rcases hle.lt_or_eq with h | h
        · exact Or.inl h
        · refine Or.inr ⟨?_, le_of_scan_of_key_le hs hscan hxs hk⟩
          exact (List.idxOf_inj (hall w hwxs)).mp h

end Groups

end StrictScan
