import Mathlib
import Plfit.Library.SortedBlocks
import Plfit.Model.Arrays

/-! # The table of block pointers

The result array grows while it is filled. Before an element is stored the reallocation leaves room
for it and for the guard, so that the guard needs no check of its own.
-/
namespace Plfit
open ExactArithmetic SortedBlocks

section Growth

theorem UniqueTable.store_of_le {t : UniqueTable} (h : t.entries.length ≤ t.numElts)
    (ptr : Option ℕ) : t.store ptr = .ok { t with entries := t.entries ++ [ptr] } :=
  if_pos (Nat.lt_succ_of_le h)

@[simp] theorem UniqueTable.grow_entries (t : UniqueTable) : t.grow.entries = t.entries := by
  unfold UniqueTable.grow
  split <;> rfl

/-- After the reallocation there is room for an element and the guard. -/
theorem UniqueTable.length_lt_grow {t : UniqueTable} (h : t.entries.length ≤ t.numElts) :
    t.entries.length < t.grow.numElts := by
  unfold UniqueTable.grow
  split
  · dsimp only
    omega
  · omega

end Growth

section Loop
variable {K : Type} [LinearOrder K]

/-- The loop stores the positions at which the value changes, and the room for the guard is left. -/
theorem uniqueLoop_changes (prevX : Double K) (ptr : ℕ) {t : UniqueTable}
    (ht : t.entries.length ≤ t.numElts) (xs : List (Double K)) :
    ∃ t', uniqueLoop prevX ptr t xs = .ok t' ∧
      t'.entries = t.entries ++ (changes prevX ptr xs).map some ∧
      t'.entries.length ≤ t'.numElts := by
  induction xs generalizing prevX ptr t with
  | nil => exact ⟨t, rfl, by simp [changes], ht⟩
  | cons x xs ih =>
    rw [uniqueLoop, changes]
    split
    · exact ih prevX (ptr + 1) ht
    · have hroom := UniqueTable.length_lt_grow ht
      have hstore : t.grow.store (some ptr) =
          .ok { t.grow with entries := t.entries ++ [some ptr] } := by
        rw [UniqueTable.store_of_le (by rw [UniqueTable.grow_entries]; exact hroom.le),
          UniqueTable.grow_entries]
      obtain ⟨t', hrun, hentries, hlen⟩ := ih x (ptr + 1)
        (t := { t.grow with entries := t.entries ++ [some ptr] }) (by simpa using hroom)
      refine ⟨t', ?_, ?_, hlen⟩
      · rw [hstore]
        exact hrun
      · rw [hentries]
        simp

theorem uniqueElementPointers_cons (x : Double K) (xs : List (Double K)) :
    uniqueElementPointers (x :: xs) =
      .ok ((0 :: changes x 1 xs).map some ++ [none], (0 :: changes x 1 xs).length) := by
  obtain ⟨t, hrun, hentries, hlen⟩ := uniqueLoop_changes x 1
    (t := { numElts := 15, entries := [some 0] }) (by decide) xs
  have hfirst : UniqueTable.store { numElts := 15, entries := [] } (some 0) =
      .ok { numElts := 15, entries := [some 0] } := rfl
  have hpositions : t.entries = (0 :: changes x 1 xs).map some := by
    rw [hentries]
    rfl
  simp only [uniqueElementPointers, hfirst, hrun, bind, Except.bind, UniqueTable.store_of_le hlen,
    pure, Except.pure]
  rw [hpositions, List.length_map]

end Loop

/-! ## The first positions of the blocks -/

section Blocks
variable {K : Type} [LinearOrder K]

/-- A position that holds another value than the one before it. -/
def BlockStart (xs : List (Double K)) (p : ℕ) : Prop :=
  ∃ x, xs[p]? = some x ∧ ∀ q y, q + 1 = p → xs[q]? = some y → ¬ x == y

def FirstOccurrence (xs : List (Double K)) (p : ℕ) : Prop :=
  ∃ x, xs[p]? = some x ∧ ∀ q y, q < p → xs[q]? = some y → ¬ x == y

theorem blockStart_cons_iff {x : Double K} {xs : List (Double K)} {p : ℕ} :
    BlockStart (x :: xs) p ↔ p ∈ 0 :: changes x 1 xs := by
  rw [List.mem_cons, mem_changes fun _ _ => Double.eq_of_beq]
  cases p with
  | zero => exact iff_of_true ⟨x, rfl, fun q y hq => absurd hq (Nat.succ_ne_zero q)⟩ (Or.inl rfl)
  | succ p =>
    constructor
    · rintro ⟨y, hy, hne⟩
      have hlt : p < (x :: xs).length :=
        (Nat.lt_succ_self p).trans (List.getElem?_eq_some_iff.mp hy).1
      have hprev : (x :: xs)[p]? = some (x :: xs)[p] := List.getElem?_eq_getElem hlt
      exact Or.inr ⟨p, y, _, Nat.add_comm p 1, by simpa using hy, hprev, hne p _ rfl hprev⟩
    · rintro (h | ⟨q, y, z, hq, hy, hz, hne⟩)
      · exact absurd h (Nat.succ_ne_zero p)
      · obtain rfl : p = q := by omega
        refine ⟨y, by simpa using hy, ?_⟩
        intro r w hr hw
        obtain rfl : r = p := by omega
        obtain rfl : z = w := Option.some.inj (hz.symm.trans hw)
        exact hne

omit [LinearOrder K] in
theorem rel_of_getElem? {R : Double K → Double K → Prop} {xs : List (Double K)} (hs : xs.Pairwise R)
    {i j : ℕ} {x y : Double K} (hij : i < j) (hx : xs[i]? = some x) (hy : xs[j]? = some y) :
    R x y := by
  obtain ⟨hi, rfl⟩ := List.getElem?_eq_some_iff.mp hx
  obtain ⟨hj, rfl⟩ := List.getElem?_eq_some_iff.mp hy
  exact List.pairwise_iff_getElem.mp hs i j hi hj hij

/-- In a sorted array a block holds all occurrences of its value. -/
theorem blockStart_iff_firstOccurrence {xs : List (Double K)} (hs : xs.Pairwise (· ≤ ·)) (p : ℕ) :
    BlockStart xs p ↔ FirstOccurrence xs p := by
  constructor
  · rintro ⟨x, hx, hne⟩
    refine ⟨x, hx, ?_⟩
    intro q y hqp hy hxy
    obtain ⟨r, rfl⟩ : ∃ r, p = r + 1 := ⟨p - 1, by omega⟩
    obtain rfl := Double.eq_of_beq hxy
    have hr : r < xs.length := (Nat.lt_succ_self r).trans (List.getElem?_eq_some_iff.mp hx).1
    have hprev : xs[r]? = some xs[r] := List.getElem?_eq_getElem hr
    have hle : xs[r] ≤ x := rel_of_getElem? hs (Nat.lt_succ_self r) hprev hx
    rcases (Nat.le_of_lt_succ hqp).eq_or_lt with rfl | hlt
    · exact hne q x rfl hy hxy
    · exact hne r xs[r] rfl hprev (Double.beq_of_le_of_le (rel_of_getElem? hs hlt hy hprev) hle)
  · rintro ⟨x, hx, hne⟩
    exact ⟨x, hx, fun q y hq hy => hne q y (hq ▸ Nat.lt_succ_self q) hy⟩

theorem uniqueElementPointers_positions (xs : List (Double K)) :
    ∃ positions : List ℕ, uniqueElementPointers xs =
        .ok (positions.map some ++ [none], positions.length) ∧
      positions.SortedLT ∧ ∀ p, p ∈ positions ↔ BlockStart xs p := by
  cases xs with
  | nil =>
    refine ⟨[], rfl, List.sortedLT_iff_pairwise.mpr List.Pairwise.nil, ?_⟩
    intro p
    exact iff_of_false List.not_mem_nil fun ⟨x, hx, _⟩ => nomatch hx
  | cons x xs =>
    refine ⟨0 :: changes x 1 xs, uniqueElementPointers_cons x xs, ?_, ?_⟩
    · rw [List.sortedLT_iff_pairwise, List.pairwise_cons]
      exact ⟨fun p hp => le_of_mem_changes hp, (changes_sortedLT x 1 xs).pairwise⟩
    · exact fun p => blockStart_cons_iff.symm

/-- The table lists the first positions of the blocks in their order, and then the guard. It is
obtained for every array: a store behind the allocated slots would have stopped the run. At every
element of the loop the entries leave room for the guard. -/
theorem uniqueElementPointers_blocks (xs : List (Double K)) :
    (∃ positions : List ℕ, uniqueElementPointers xs =
        .ok (positions.map some ++ [none], positions.length) ∧
      positions.SortedLT ∧ (∀ p, p ∈ positions ↔ BlockStart xs p) ∧
      (xs.Pairwise (· ≤ ·) → ∀ p, p ∈ positions ↔ FirstOccurrence xs p)) ∧
    ∀ x rest, xs = x :: rest → ∀ k, ∃ t,
      uniqueLoop x 1 { numElts := 15, entries := [some 0] } (rest.take k) = .ok t ∧
        t.entries.length + 1 ≤ t.numElts + 1 := by
  constructor
  · obtain ⟨positions, hrun, hsorted, hmem⟩ := uniqueElementPointers_positions xs
    refine ⟨positions, hrun, hsorted, hmem, ?_⟩
    intro hs p
    rw [hmem, blockStart_iff_firstOccurrence hs]
  · rintro x rest - k
    obtain ⟨t, hrun, -, hlen⟩ := uniqueLoop_changes x 1
      (t := { numElts := 15, entries := [some 0] }) (by decide) (rest.take k)
    exact ⟨t, hrun, Nat.succ_le_succ hlen⟩

end Blocks
end Plfit
