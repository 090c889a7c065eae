import Mathlib

/-! # Blocks of equal elements in a sorted list

In a sorted list the elements below a value form an initial segment, so their number is also
the position of the first occurrence of the value. The first occurrences of all values are
the images of the distinct values, in increasing order.
-/
namespace SortedBlocks
variable {α : Type*} [LinearOrder α]

def below (xs : List α) (v : α) : ℕ := xs.countP (· < v)

def distinct (xs : List α) : List α := xs.toFinset.sort

omit [LinearOrder α] in
theorem two_le_length {xs : List α} {x y : α} (hx : x ∈ xs) (hy : y ∈ xs) (hne : x ≠ y) :
    2 ≤ xs.length := by
  have hsub : [x, y].Subperm xs := by
    refine (List.nodup_cons.mpr ⟨by simpa using hne, List.nodup_singleton y⟩).subperm ?_
    intro z hz
    rcases List.mem_pair.mp hz with rfl | rfl
    · exact hx
    · exact hy
  simpa using hsub.length_le

@[simp] theorem below_nil (v : α) : below [] v = 0 := rfl

theorem below_cons_of_lt {x v : α} (h : x < v) (xs : List α) :
    below (x :: xs) v = below xs v + 1 := by
  simp [below, h]

theorem below_cons_of_le {x v : α} (h : v ≤ x) (xs : List α) :
    below (x :: xs) v = below xs v := by
  simp [below, h.not_gt]

theorem below_le_length (xs : List α) (v : α) : below xs v ≤ xs.length := List.countP_le_length

theorem below_eq_of_perm {xs ys : List α} (h : xs.Perm ys) (v : α) : below xs v = below ys v :=
  h.countP_eq _

theorem below_eq_zero {xs : List α} {v : α} (h : ∀ x ∈ xs, v ≤ x) : below xs v = 0 := by
  rw [below, List.countP_eq_zero]
  intro x hx
  simpa using h x hx

theorem sortedLE_cons {x : α} {xs : List α} :
    (x :: xs).SortedLE ↔ (∀ y ∈ xs, x ≤ y) ∧ xs.SortedLE := by
  simp [List.sortedLE_iff_pairwise]

/-- The elements with a property that smaller elements share are those at the first
positions. -/
theorem iff_lt_countP {P : α → Prop} [DecidablePred P] (hP : ∀ a b, a ≤ b → P b → P a)
    {xs : List α} (hs : xs.SortedLE) {p : ℕ} {x : α} (hx : xs[p]? = some x) :
    P x ↔ p < xs.countP P := by
  induction xs generalizing p with
  | nil => simp at hx
  | cons y ys ih =>
    obtain ⟨hy, hys⟩ := sortedLE_cons.mp hs
    by_cases hPy : P y
    · rw [List.countP_cons_of_pos (by simpa using hPy)]
      cases p with
      | zero =>
        obtain rfl : y = x := by simpa using hx
        simp [hPy]
      | succ p => rw [ih hys (by simpa using hx), Nat.add_lt_add_iff_right]
    · have hnot : ∀ z ∈ y :: ys, ¬ P z := by
        rintro z (_ | ⟨_, hz⟩)
        · exact hPy
        · exact fun h => hPy (hP y z (hy z hz) h)
      rw [List.countP_eq_zero.mpr (by simpa using hnot)]
      exact iff_of_false (hnot x (List.mem_of_getElem? hx)) (Nat.not_lt_zero p)

theorem lt_iff_lt_below {xs : List α} (hs : xs.SortedLE) {p : ℕ} {x : α} (hx : xs[p]? = some x)
    (v : α) : x < v ↔ p < below xs v :=
  iff_lt_countP (fun _ _ hab hb => hab.trans_lt hb) hs hx

theorem dropWhile_lt {xs : List α} (hs : xs.SortedLE) (v : α) :
    xs.dropWhile (· < v) = xs.drop (below xs v) := by
  induction xs with
  | nil => rfl
  | cons y ys ih =>
    obtain ⟨hy, hys⟩ := sortedLE_cons.mp hs
    rcases lt_or_ge y v with hv | hv
    · rw [List.dropWhile_cons_of_pos (by simpa using hv), below_cons_of_lt hv, List.drop_succ_cons,
        ih hys]
    · have hge : ∀ z ∈ ys, v ≤ z := fun z hz => hv.trans (hy z hz)
      rw [List.dropWhile_cons_of_neg (by simpa using hv), below_cons_of_le hv, below_eq_zero hge,
        List.drop_zero]

theorem drop_below {xs : List α} (hs : xs.SortedLE) (v : α) :
    xs.drop (below xs v) = xs.filter (v ≤ ·) := by
  induction xs with
  | nil => rfl
  | cons y ys ih =>
    obtain ⟨hy, hys⟩ := sortedLE_cons.mp hs
    rcases lt_or_ge y v with hv | hv
    · rw [below_cons_of_lt hv, List.drop_succ_cons, ih hys,
        List.filter_cons_of_neg (by simpa using hv)]
    · have hge : ∀ z ∈ y :: ys, v ≤ z := by
        rintro z (_ | ⟨_, hz⟩)
        · exact hv
        · exact hv.trans (hy z hz)
      rw [below_eq_zero hge, List.drop_zero, List.filter_eq_self.mpr]
      exact fun z hz => by simpa using hge z hz

theorem getElem?_below {xs : List α} (hs : xs.SortedLE) {v : α} (hv : v ∈ xs) :
    xs[below xs v]? = some v := by
  obtain ⟨p, hp⟩ := List.mem_iff_getElem?.mp hv
  have hbp : below xs v ≤ p := not_lt.mp (fun h => lt_irrefl v ((lt_iff_lt_below hs hp v).mpr h))
  have hlt : p < xs.length := (List.getElem?_eq_some_iff.mp hp).1
  have hb : xs[below xs v]? = some xs[below xs v] := List.getElem?_eq_getElem (by omega)
  have hge : v ≤ xs[below xs v] :=
    not_lt.mp (fun h => lt_irrefl _ ((lt_iff_lt_below hs hb v).mp h))
  have hle : xs[below xs v] ≤ v := calc
    xs[below xs v] ≤ xs[p] := hs.monotone_get (a := ⟨_, by omega⟩) (b := ⟨p, hlt⟩) hbp
    _ = v := (List.getElem?_eq_some_iff.mp hp).2
  rw [hb, le_antisymm hle hge]

theorem below_lt_length {xs : List α} (hs : xs.SortedLE) {v : α} (hv : v ∈ xs) :
    below xs v < xs.length :=
  (List.getElem?_eq_some_iff.mp (getElem?_below hs hv)).1

theorem below_lt_below {xs : List α} (hs : xs.SortedLE) {v w : α} (hv : v ∈ xs) (h : v < w) :
    below xs v < below xs w :=
  (lt_iff_lt_below hs (getElem?_below hs hv) w).mp h

/-- A position whose predecessor holds something else is a first occurrence. -/
theorem eq_below_of_ne {xs : List α} (hs : xs.SortedLE) {p : ℕ} {x y : α}
    (hx : xs[p + 1]? = some x) (hy : xs[p]? = some y) (hne : y ≠ x) : p + 1 = below xs x := by
  have hle : ¬ p + 1 < below xs x := fun h => lt_irrefl x ((lt_iff_lt_below hs hx x).mpr h)
  have hyx : y ≤ x := by
    obtain ⟨hp, rfl⟩ := List.getElem?_eq_some_iff.mp hy
    obtain ⟨hp', rfl⟩ := List.getElem?_eq_some_iff.mp hx
    exact hs.monotone_get (a := ⟨p, hp⟩) (b := ⟨p + 1, hp'⟩) (Nat.le_succ p)
  have hlt := (lt_iff_lt_below hs hy x).mp (lt_of_le_of_ne hyx hne)
  omega

@[simp] theorem mem_distinct {xs : List α} {v : α} : v ∈ distinct xs ↔ v ∈ xs := by
  simp [distinct]

theorem distinct_sortedLT (xs : List α) : (distinct xs).SortedLT := Finset.sortedLT_sort _

theorem distinct_eq_of_perm {xs ys : List α} (h : xs.Perm ys) : distinct xs = distinct ys := by
  rw [distinct, distinct, List.toFinset_eq_of_perm _ _ h]

/-- The first value comes first, and the other distinct values are above it. -/
theorem distinct_cons {x : α} {xs : List α} (hs : (x :: xs).SortedLE) :
    distinct (x :: xs) = x :: (distinct xs).filter (x < ·) := by
  obtain ⟨hx, -⟩ := sortedLE_cons.mp hs
  refine (distinct_sortedLT _).eq_of_mem_iff ?_ ?_
  · rw [List.sortedLT_iff_pairwise, List.pairwise_cons]
    refine ⟨fun y hy => by simpa using (List.mem_filter.mp hy).2, ?_⟩
    exact (distinct_sortedLT xs).pairwise.filter _
  · intro v
    simp only [mem_distinct, List.mem_cons, List.mem_filter, decide_eq_true_eq]
    constructor
    · rintro (rfl | hv)
      · exact Or.inl rfl
      · rcases (hx v hv).eq_or_lt with rfl | hlt
        · exact Or.inl rfl
        · exact Or.inr ⟨hv, hlt⟩
    · rintro (rfl | ⟨hv, -⟩)
      · exact Or.inl rfl
      · exact Or.inr hv

def starts (xs : List α) : List ℕ := (distinct xs).map (below xs)

@[simp] theorem length_starts (xs : List α) : (starts xs).length = (distinct xs).length := by
  simp [starts]

theorem lt_length_of_mem_starts {xs : List α} (hs : xs.SortedLE) {p : ℕ} (hp : p ∈ starts xs) :
    p < xs.length := by
  obtain ⟨v, hv, rfl⟩ := List.mem_map.mp hp
  exact below_lt_length hs (mem_distinct.mp hv)

theorem starts_sortedLT {xs : List α} (hs : xs.SortedLE) : (starts xs).SortedLT := by
  rw [List.sortedLT_iff_pairwise, starts, List.pairwise_map]
  refine (distinct_sortedLT xs).pairwise.imp_of_mem ?_
  intro v w hv _ h
  exact below_lt_below hs (mem_distinct.mp hv) h

theorem getElem?_of_mem_starts {xs : List α} (hs : xs.SortedLE) {p : ℕ} {x : α}
    (hx : xs[p]? = some x) : p ∈ starts xs ↔ p = below xs x := by
  constructor
  · intro hp
    obtain ⟨v, hv, rfl⟩ := List.mem_map.mp hp
    rw [getElem?_below hs (mem_distinct.mp hv), Option.some.injEq] at hx
    rw [hx]
  · rintro rfl
    exact List.mem_map.mpr ⟨x, mem_distinct.mpr (List.mem_of_getElem? hx), rfl⟩

theorem starts_eq_of_perm {xs ys : List α} (h : xs.Perm ys) : starts xs = starts ys := by
  rw [starts, starts, distinct_eq_of_perm h]
  refine List.map_congr_left ?_
  intro v _
  exact below_eq_of_perm h v

theorem distinct_of_sortedLT {xs : List α} (hs : xs.SortedLT) : distinct xs = xs :=
  (distinct_sortedLT xs).eq_of_mem_iff hs (fun _ => mem_distinct)

theorem starts_of_sortedLT {xs : List α} (hs : xs.SortedLT) :
    starts xs = List.range xs.length := by
  refine (starts_sortedLT hs.sortedLE).eq_of_mem_iff List.pairwise_lt_range.sortedLT ?_
  intro p
  rw [List.mem_range]
  constructor
  · exact fun hp => lt_length_of_mem_starts hs.sortedLE hp
  · intro hp
    have hx : xs[p]? = some xs[p] := List.getElem?_eq_getElem hp
    have hb := getElem?_below hs.sortedLE (List.getElem_mem hp)
    rw [getElem?_of_mem_starts hs.sortedLE hx]
    exact (List.getElem?_inj hp hs.nodup).mp (hx.trans hb.symm)

/-! ## The block at the head -/

omit [LinearOrder α] in
theorem drop_length_takeWhile (p : α → Bool) (xs : List α) :
    xs.drop (xs.takeWhile p).length = xs.dropWhile p := by
  have h : (xs.takeWhile p ++ xs.dropWhile p).drop (xs.takeWhile p).length = xs.dropWhile p :=
    List.drop_left
  rwa [List.takeWhile_append_dropWhile] at h

theorem dropWhile_eq_filter_lt {x : α} {xs : List α} (hs : (x :: xs).SortedLE) :
    xs.dropWhile (· == x) = xs.filter (x < ·) := by
  induction xs with
  | nil => rfl
  | cons y ys ih =>
    obtain ⟨hx, hys⟩ := sortedLE_cons.mp hs
    obtain ⟨hy, hys'⟩ := sortedLE_cons.mp hys
    rcases (hx y List.mem_cons_self).eq_or_lt with rfl | hlt
    · rw [List.dropWhile_cons_of_pos (by simp), List.filter_cons_of_neg (by simp), ih hys]
    · have hall : ∀ z ∈ y :: ys, x < z := by
        rintro z (_ | ⟨_, hz⟩)
        · exact hlt
        · exact hlt.trans_le (hy z hz)
      rw [List.dropWhile_cons_of_neg (by simpa using hlt.ne'), List.filter_eq_self.mpr]
      exact fun z hz => by simpa using hall z hz

theorem below_cons_block {x z : α} {xs : List α} (hz : x < z) :
    below (x :: xs) z =
      1 + (xs.takeWhile (· == x)).length + below (xs.dropWhile (· == x)) z := by
  have hblock : (xs.takeWhile (· == x)).countP (· < z) = (xs.takeWhile (· == x)).length := by
    rw [List.countP_eq_length]
    intro y hy
    have hyx : y = x := by simpa using List.mem_takeWhile_imp hy
    simpa [hyx] using hz
  have hsplit : below (xs.takeWhile (· == x) ++ xs.dropWhile (· == x)) z =
      (xs.takeWhile (· == x)).length + below (xs.dropWhile (· == x)) z := by
    rw [below, List.countP_append, hblock, below]
  rw [List.takeWhile_append_dropWhile] at hsplit
  rw [below_cons_of_lt hz, hsplit]
  omega

/-! ## Ends of blocks -/

def upTo (xs : List α) (v : α) : ℕ := xs.countP (· ≤ v)

/-- A block is as long as its value is frequent. -/
theorem upTo_eq (xs : List α) (v : α) : upTo xs v = below xs v + xs.count v := by
  induction xs with
  | nil => rfl
  | cons x xs ih =>
    rcases lt_trichotomy x v with h | rfl | h
    · rw [below_cons_of_lt h, List.count_cons_of_ne h.ne]
      simp only [upTo] at ih ⊢
      rw [List.countP_cons_of_pos (by simpa using h.le), ih]
      omega
    · rw [below_cons_of_le le_rfl, List.count_cons_self]
      simp only [upTo] at ih ⊢
      rw [List.countP_cons_of_pos (by simp), ih]
      omega
    · rw [below_cons_of_le h.le, List.count_cons_of_ne h.ne']
      simp only [upTo] at ih ⊢
      rw [List.countP_cons_of_neg (by simpa using h), ih]

theorem upTo_le_length (xs : List α) (v : α) : upTo xs v ≤ xs.length := List.countP_le_length

theorem below_lt_upTo {xs : List α} {v : α} (hv : v ∈ xs) : below xs v < upTo xs v := by
  have := List.count_pos_iff.mpr hv
  rw [upTo_eq]
  omega

theorem upTo_eq_below {xs : List α} {v w : α} (hvw : v < w) (hnext : ∀ x ∈ xs, x ≤ v ∨ w ≤ x) :
    upTo xs v = below xs w := by
  refine List.countP_congr ?_
  intro x hx
  simp only [decide_eq_true_eq]
  constructor
  · exact fun h => h.trans_lt hvw
  · intro h
    rcases hnext x hx with h' | h'
    · exact h'
    · exact absurd h h'.not_gt

/-- A block is a segment of positions. -/
theorem getElem?_eq_some_iff_block {xs : List α} (hs : xs.SortedLE) {v : α} {p : ℕ} :
    xs[p]? = some v ↔ below xs v ≤ p ∧ p < upTo xs v := by
  have hupTo : ∀ x, xs[p]? = some x → (x ≤ v ↔ p < upTo xs v) := fun x hx =>
    iff_lt_countP (fun _ _ hab hb => hab.trans hb) hs hx
  constructor
  · intro hp
    refine ⟨not_lt.mp fun h => lt_irrefl v ((lt_iff_lt_below hs hp v).mpr h), ?_⟩
    exact (hupTo v hp).mp le_rfl
  · rintro ⟨hl, hr⟩
    have hlt : p < xs.length := hr.trans_le (upTo_le_length xs v)
    have hx : xs[p]? = some xs[p] := List.getElem?_eq_getElem hlt
    rw [hx, Option.some.injEq]
    refine le_antisymm ((hupTo _ hx).mpr hr) ?_
    exact not_lt.mp fun h => hl.not_gt ((lt_iff_lt_below hs hx v).mp h)

def valuesFrom (xs : List α) (c : α) : List α := (distinct xs).filter (c ≤ ·)

theorem mem_valuesFrom {xs : List α} {c v : α} : v ∈ valuesFrom xs c ↔ v ∈ xs ∧ c ≤ v := by
  simp [valuesFrom]

theorem valuesFrom_sortedLT (xs : List α) (c : α) : (valuesFrom xs c).SortedLT :=
  ((distinct_sortedLT xs).pairwise.filter _).sortedLT

/-- Consecutive values have adjacent blocks. -/
theorem isChain_valuesFrom (xs : List α) (c : α) :
    (valuesFrom xs c).IsChain (fun v w => upTo xs v = below xs w) := by
  rw [List.isChain_iff_getElem]
  intro i hi
  have hlt : (valuesFrom xs c)[i] < (valuesFrom xs c)[i + 1] :=
    (valuesFrom_sortedLT xs c).getElem_lt_getElem_iff.mpr (Nat.lt_succ_self i)
  refine upTo_eq_below hlt ?_
  intro x hx
  rcases lt_or_ge x c with hxc | hcx
  · have hle := (mem_valuesFrom.mp (List.getElem_mem (i.lt_succ_self.trans hi))).2
    exact Or.inl (hxc.le.trans hle)
  · obtain ⟨q, hq, rfl⟩ := List.mem_iff_getElem.mp (mem_valuesFrom.mpr ⟨hx, hcx⟩)
    rcases Nat.lt_or_ge i q with h | h
    · exact Or.inr ((valuesFrom_sortedLT xs c).getElem_le_getElem_iff.mpr h)
    · exact Or.inl ((valuesFrom_sortedLT xs c).getElem_le_getElem_iff.mpr h)

theorem valuesFrom_eq_of_perm {xs ys : List α} (h : xs.Perm ys) (c : α) :
    valuesFrom xs c = valuesFrom ys c := by
  rw [valuesFrom, valuesFrom, distinct_eq_of_perm h]

theorem valuesFrom_eq {xs vs : List α} {c : α} (hvs : vs.SortedLT)
    (h : ∀ v, v ∈ vs ↔ v ∈ xs ∧ c ≤ v) : valuesFrom xs c = vs :=
  (valuesFrom_sortedLT xs c).eq_of_mem_iff hvs (fun v => mem_valuesFrom.trans (h v).symm)

/-! ## Blocks of adjacent equal elements -/

section Changes
variable {β : Type*} [BEq β]

/-- The positions from `ptr` on at which an element differs from the one before it. -/
def changes (prev : β) (ptr : ℕ) : List β → List ℕ
  | [] => []
  | x :: xs => if x == prev then changes prev (ptr + 1) xs else ptr :: changes x (ptr + 1) xs

theorem le_of_mem_changes {prev : β} {ptr p : ℕ} {xs : List β} (hp : p ∈ changes prev ptr xs) :
    ptr ≤ p := by
  induction xs generalizing prev ptr with
  | nil => cases hp
  | cons x xs ih =>
    rw [changes] at hp
    split at hp
    · exact (Nat.le_succ ptr).trans (ih hp)
    · rcases List.mem_cons.mp hp with rfl | hp
      · exact le_rfl
      · exact (Nat.le_succ ptr).trans (ih hp)

theorem changes_sortedLT (prev : β) (ptr : ℕ) (xs : List β) : (changes prev ptr xs).SortedLT := by
  rw [List.sortedLT_iff_pairwise]
  induction xs generalizing prev ptr with
  | nil => exact List.Pairwise.nil
  | cons x xs ih =>
    rw [changes]
    split
    · exact ih prev (ptr + 1)
    · exact List.pairwise_cons.mpr ⟨fun p hp => le_of_mem_changes hp, ih x (ptr + 1)⟩

/-- When only equal elements pass the test, comparing with the first element of a block is comparing
with the element before. -/
theorem mem_changes (heq : ∀ x y : β, x == y → x = y) {prev : β} {ptr p : ℕ} {xs : List β} :
    p ∈ changes prev ptr xs ↔
      ∃ q x y, p = ptr + q ∧ xs[q]? = some x ∧ (prev :: xs)[q]? = some y ∧ ¬ x == y := by
  induction xs generalizing prev ptr with
  | nil => simp [changes]
  | cons x xs ih =>
    -- the position is the one of `x` or one behind it
    have hsplit : (∃ q z y, p = ptr + q ∧ (x :: xs)[q]? = some z ∧
          (prev :: x :: xs)[q]? = some y ∧ ¬ z == y) ↔
        (p = ptr ∧ ¬ x == prev) ∨ ∃ q z y, p = ptr + 1 + q ∧ xs[q]? = some z ∧
          (x :: xs)[q]? = some y ∧ ¬ z == y := by
      constructor
      · rintro ⟨q, z, y, hp, hz, hy, hne⟩
        cases q with
        | zero =>
          obtain rfl : x = z := by simpa using hz
          obtain rfl : prev = y := by simpa using hy
          exact Or.inl ⟨hp, hne⟩
        | succ q => exact Or.inr ⟨q, z, y, by omega, by simpa using hz, by simpa using hy, hne⟩
      · rintro (⟨hp, hne⟩ | ⟨q, z, y, hp, hz, hy, hne⟩)
        · exact ⟨0, x, prev, hp, rfl, rfl, hne⟩
        · exact ⟨q + 1, z, y, by omega, by simpa using hz, by simpa using hy, hne⟩
    rw [hsplit, changes]
    split
    · rename_i hsame
      obtain rfl := heq x prev hsame
      simp [ih, hsame]
    · rename_i hdiffers
      simp [ih, hdiffers]

end Changes
end SortedBlocks
