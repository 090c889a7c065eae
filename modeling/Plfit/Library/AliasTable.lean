import Mathlib

/-! # Alias tables

A table gives every item a bin with a level. A bin below level one is filled up by another
item, its alias, whose own level sinks by the missing part. The share of an item is its level
and the parts of other bins that it fills: filling changes no share, and it keeps the sum of
the levels of the open bins at their number. So when no open bin is below one, or none is
above it, all of them are at level one and the table is complete.
-/
namespace AliasTable
variable {ι K : Type*} [DecidableEq ι] [Field K]

structure Table (ι K : Type*) where
  level : ι → K
  other : ι → ι
  filled : Finset ι

namespace Table

def fill (T : Table ι K) (s l : ι) : Table ι K where
  level := Function.update T.level l (T.level l + T.level s - 1)
  other := Function.update T.other s l
  filled := insert s T.filled

def share (T : Table ι K) (i : ι) : K :=
  T.level i + ∑ j ∈ T.filled with T.other j = i, (1 - T.level j)

def excess (T : Table ι K) (bins : Finset ι) : K := ∑ j ∈ bins \ T.filled, (T.level j - 1)

variable {T : Table ι K} {s l : ι} {bins : Finset ι}

theorem fill_level_self : (T.fill s l).level l = T.level l + T.level s - 1 := by
  unfold fill
  exact Function.update_self _ _ _

theorem fill_level_of_ne {j : ι} (h : j ≠ l) : (T.fill s l).level j = T.level j := by
  unfold fill
  exact Function.update_of_ne h _ _

theorem fill_other_self : (T.fill s l).other s = l := by
  unfold fill
  exact Function.update_self _ _ _

theorem fill_other_of_ne {j : ι} (h : j ≠ s) : (T.fill s l).other j = T.other j := by
  unfold fill
  exact Function.update_of_ne h _ _

theorem mem_fill_filled {j : ι} : j ∈ (T.fill s l).filled ↔ j = s ∨ j ∈ T.filled :=
  Finset.mem_insert

theorem share_fill (hs : s ∉ T.filled) (hl : l ∉ T.filled) (hne : s ≠ l) (i : ι) :
    (T.fill s l).share i = T.share i := by
  have hrest : ∑ j ∈ T.filled, (if (T.fill s l).other j = i then 1 - (T.fill s l).level j else 0) =
      ∑ j ∈ T.filled, (if T.other j = i then 1 - T.level j else 0) := by
    apply Finset.sum_congr rfl
    intro j hj
    have hjs : j ≠ s := fun h => hs (h ▸ hj)
    have hjl : j ≠ l := fun h => hl (h ▸ hj)
    rw [fill_other_of_ne hjs, fill_level_of_ne hjl]
  unfold share
  rw [Finset.sum_filter, Finset.sum_filter, show (T.fill s l).filled = insert s T.filled from rfl,
    Finset.sum_insert hs, hrest, fill_other_self, fill_level_of_ne hne]
  by_cases hi : l = i
  · subst hi
    rw [if_pos rfl, fill_level_self]
    ring
  · rw [if_neg hi, fill_level_of_ne (Ne.symm hi), zero_add]

theorem excess_fill (hs : s ∈ bins \ T.filled) (hl : l ∈ bins \ T.filled) (hne : s ≠ l) :
    (T.fill s l).excess bins = T.excess bins := by
  have hl' : l ∈ (bins \ T.filled).erase s := Finset.mem_erase.mpr ⟨hne.symm, hl⟩
  have hrest : ∑ j ∈ ((bins \ T.filled).erase s).erase l, ((T.fill s l).level j - 1) =
      ∑ j ∈ ((bins \ T.filled).erase s).erase l, (T.level j - 1) := by
    apply Finset.sum_congr rfl
    intro j hj
    rw [fill_level_of_ne (Finset.ne_of_mem_erase hj)]
  unfold excess
  rw [show (T.fill s l).filled = insert s T.filled from rfl, Finset.sdiff_insert,
    ← Finset.add_sum_erase _ _ hl', hrest, fill_level_self, ← Finset.add_sum_erase _ _ hs,
    ← Finset.add_sum_erase _ _ hl']
  ring

end Table

/-! ## Filling with two stacks -/

variable [LinearOrder K]

/-- The open bins with a level below one and those above it stand on two stacks. A long bin
that has been drained to level one may stay on its stack. -/
structure Filling (bins : Finset ι) (target : ι → K) (shorts longs : List ι)
    (T : Table ι K) : Prop where
  share_eq : ∀ i, T.share i = target i
  excess_eq : T.excess bins = 0
  some_open : (bins \ T.filled).Nonempty
  short : ∀ i ∈ shorts, i ∈ bins \ T.filled ∧ 0 ≤ T.level i ∧ T.level i < 1
  long : ∀ i ∈ longs, i ∈ bins \ T.filled ∧ 1 ≤ T.level i
  nodup : (shorts ++ longs).Nodup
  rest : ∀ i ∈ bins \ T.filled, i ∉ shorts → i ∉ longs → T.level i = 1
  filled : ∀ i ∈ T.filled, i ∈ bins ∧ 0 ≤ T.level i ∧ T.level i < 1 ∧ T.other i ∈ bins

namespace Filling
variable [IsStrictOrderedRing K] {bins : Finset ι} {target : ι → K} {T : Table ι K}
variable {s l : ι} {shorts longs : List ι}

omit [IsStrictOrderedRing K] in
theorem ne_of_tops (h : Filling bins target (s :: shorts) (l :: longs) T) : s ≠ l := by
  intro he
  have hnot := (List.nodup_cons.mp h.nodup).1
  exact hnot (List.mem_append_right shorts (he ▸ List.mem_cons_self))

omit [IsStrictOrderedRing K] in
/-- What lies below the tops of the stacks keeps its level and stays open. -/
theorem fill_below (h : Filling bins target (s :: shorts) (l :: longs) T) {j : ι}
    (hj : j ∈ shorts ++ longs) :
    (T.fill s l).level j = T.level j ∧ (j ∈ bins \ T.filled → j ∈ bins \ (T.fill s l).filled) := by
  have hnodup : (s :: l :: (shorts ++ longs)).Nodup :=
    (List.perm_middle.cons s).nodup_iff.mp h.nodup
  have hjl : j ≠ l := by
    rintro rfl
    exact (List.nodup_cons.mp (List.nodup_cons.mp hnodup).2).1 hj
  have hjs : j ≠ s := by
    rintro rfl
    exact (List.nodup_cons.mp hnodup).1 (List.mem_cons_of_mem l hj)
  refine ⟨Table.fill_level_of_ne hjl, ?_⟩
  intro hopen
  rw [Finset.mem_sdiff, Table.mem_fill_filled] at *
  exact ⟨hopen.1, fun hfilled => hfilled.elim hjs hopen.2⟩

/-- One round: the top of the short stack is filled up by the top of the long stack, which
changes stacks when it has become short. -/
theorem fill (h : Filling bins target (s :: shorts) (l :: longs) T) :
    Filling bins target (if (T.fill s l).level l < 1 then l :: shorts else shorts)
      (if (T.fill s l).level l < 1 then longs else l :: longs) (T.fill s l) := by
  have hne := h.ne_of_tops
  obtain ⟨hs, hs0, hs1⟩ := h.short s List.mem_cons_self
  obtain ⟨hl, hl1⟩ := h.long l List.mem_cons_self
  have hl' : l ∈ bins \ (T.fill s l).filled := by
    rw [Finset.mem_sdiff, Table.mem_fill_filled] at *
    exact ⟨hl.1, fun hfilled => hfilled.elim hne.symm hl.2⟩
  have hlevel0 : 0 ≤ (T.fill s l).level l := by
    rw [Table.fill_level_self]
    linarith
  have hshort : ∀ j ∈ shorts, j ∈ bins \ (T.fill s l).filled ∧
      0 ≤ (T.fill s l).level j ∧ (T.fill s l).level j < 1 := by
    intro j hj
    obtain ⟨hlevel, hopen⟩ := h.fill_below (List.mem_append_left longs hj)
    obtain ⟨hj', hj0, hj1⟩ := h.short j (List.mem_cons_of_mem s hj)
    rw [hlevel]
    exact ⟨hopen hj', hj0, hj1⟩
  have hlong : ∀ j ∈ longs, j ∈ bins \ (T.fill s l).filled ∧ 1 ≤ (T.fill s l).level j := by
    intro j hj
    obtain ⟨hlevel, hopen⟩ := h.fill_below (List.mem_append_right shorts hj)
    obtain ⟨hj', hj1⟩ := h.long j (List.mem_cons_of_mem l hj)
    rw [hlevel]
    exact ⟨hopen hj', hj1⟩
  have hrest : ∀ i ∈ bins \ (T.fill s l).filled, i ≠ l → i ∉ shorts → i ∉ longs →
      (T.fill s l).level i = 1 := by
    intro i hi hil hshorts hlongs
    rw [Finset.mem_sdiff, Table.mem_fill_filled, not_or] at hi
    obtain ⟨hbin, his, hopen⟩ := hi
    rw [Table.fill_level_of_ne hil]
    apply h.rest i (Finset.mem_sdiff.mpr ⟨hbin, hopen⟩)
    · exact List.not_mem_cons_of_ne_of_not_mem his hshorts
    · exact List.not_mem_cons_of_ne_of_not_mem hil hlongs
  have hfilled : ∀ i ∈ (T.fill s l).filled, i ∈ bins ∧ 0 ≤ (T.fill s l).level i ∧
      (T.fill s l).level i < 1 ∧ (T.fill s l).other i ∈ bins := by
    intro i hi
    rw [Table.mem_fill_filled] at hi
    rcases hi with rfl | hi
    · rw [Table.fill_level_of_ne hne, Table.fill_other_self]
      exact ⟨(Finset.mem_sdiff.mp hs).1, hs0, hs1, (Finset.mem_sdiff.mp hl).1⟩
    · have his : i ≠ s := fun he => (Finset.mem_sdiff.mp hs).2 (he ▸ hi)
      have hil : i ≠ l := fun he => (Finset.mem_sdiff.mp hl).2 (he ▸ hi)
      rw [Table.fill_level_of_ne hil, Table.fill_other_of_ne his]
      exact h.filled i hi
  have hshare : ∀ i, (T.fill s l).share i = target i := by
    intro i
    rw [Table.share_fill (Finset.mem_sdiff.mp hs).2 (Finset.mem_sdiff.mp hl).2 hne, h.share_eq]
  have hexcess : (T.fill s l).excess bins = 0 := by
    rw [Table.excess_fill hs hl hne, h.excess_eq]
  have hnodup : (l :: (shorts ++ longs)).Nodup :=
    (List.nodup_cons.mp ((List.perm_middle.cons s).nodup_iff.mp h.nodup)).2
  by_cases hr : (T.fill s l).level l < 1
  · rw [if_pos hr, if_pos hr]
    refine ⟨hshare, hexcess, ⟨l, hl'⟩, ?_, hlong, hnodup, ?_, hfilled⟩
    · intro j hj
      rcases List.mem_cons.mp hj with rfl | hj
      · exact ⟨hl', hlevel0, hr⟩
      · exact hshort j hj
    · intro i hi hshorts hlongs
      exact hrest i hi (List.ne_of_not_mem_cons hshorts) (List.not_mem_of_not_mem_cons hshorts)
        hlongs
  · rw [if_neg hr, if_neg hr]
    refine ⟨hshare, hexcess, ⟨l, hl'⟩, hshort, ?_, List.perm_middle.nodup_iff.mpr hnodup, ?_,
      hfilled⟩
    · intro j hj
      rcases List.mem_cons.mp hj with rfl | hj
      · exact ⟨hl', not_lt.mp hr⟩
      · exact hlong j hj
    · intro i hi hshorts hlongs
      exact hrest i hi (List.ne_of_not_mem_cons hlongs) hshorts
        (List.not_mem_of_not_mem_cons hlongs)

/-- With an empty stack every open bin is at level one. -/
theorem level_eq_one (h : Filling bins target shorts longs T) (hend : shorts = [] ∨ longs = [])
    {i : ι} (hi : i ∈ bins \ T.filled) : T.level i = 1 := by
  have hsum := h.excess_eq
  unfold Table.excess at hsum
  rcases hend with rfl | rfl
  · have hge : ∀ j ∈ bins \ T.filled, 0 ≤ T.level j - 1 := by
      intro j hj
      rw [sub_nonneg]
      by_cases hlong : j ∈ longs
      · exact (h.long j hlong).2
      · exact (h.rest j hj List.not_mem_nil hlong).ge
    exact sub_eq_zero.mp ((Finset.sum_eq_zero_iff_of_nonneg hge).mp hsum i hi)
  · have hle : ∀ j ∈ bins \ T.filled, T.level j - 1 ≤ 0 := by
      intro j hj
      rw [sub_nonpos]
      by_cases hshort : j ∈ shorts
      · exact (h.short j hshort).2.2.le
      · exact (h.rest j hj hshort List.not_mem_nil).le
    exact sub_eq_zero.mp ((Finset.sum_eq_zero_iff_of_nonpos hle).mp hsum i hi)

theorem level_mem (h : Filling bins target shorts longs T) (hend : shorts = [] ∨ longs = [])
    {i : ι} (hi : i ∈ bins) : 0 ≤ T.level i ∧ T.level i ≤ 1 := by
  by_cases hfilled : i ∈ T.filled
  · obtain ⟨-, h0, h1, -⟩ := h.filled i hfilled
    exact ⟨h0, h1.le⟩
  · rw [h.level_eq_one hend (Finset.mem_sdiff.mpr ⟨hi, hfilled⟩)]
    exact ⟨zero_le_one, le_rfl⟩

/-- A complete table gives every item its share; the aliases of open bins do not matter. -/
theorem realizes (h : Filling bins target shorts longs T) (hend : shorts = [] ∨ longs = [])
    (i : ι) : T.level i + ∑ j ∈ bins with T.other j = i, (1 - T.level j) = target i := by
  have hsubset : T.filled.filter (T.other · = i) ⊆ bins.filter (T.other · = i) := by
    intro j hj
    obtain ⟨hj, hother⟩ := Finset.mem_filter.mp hj
    exact Finset.mem_filter.mpr ⟨(h.filled j hj).1, hother⟩
  rw [← h.share_eq i, Table.share, Finset.sum_subset hsubset]
  intro j hj hnot
  obtain ⟨hbin, hother⟩ := Finset.mem_filter.mp hj
  have hopen : j ∉ T.filled := fun hj' => hnot (Finset.mem_filter.mpr ⟨hj', hother⟩)
  rw [h.level_eq_one hend (Finset.mem_sdiff.mpr ⟨hbin, hopen⟩), sub_self]

theorem level_le_target (h : Filling bins target shorts longs T) (i : ι) :
    T.level i ≤ target i := by
  rw [← h.share_eq i, Table.share, le_add_iff_nonneg_right]
  apply Finset.sum_nonneg
  intro j hj
  exact sub_nonneg.mpr (h.filled j (Finset.mem_filter.mp hj).1).2.2.1.le

/-- What fills up a bin is part of the share of its alias. -/
theorem part_le_target (h : Filling bins target shorts longs T)
    (hend : shorts = [] ∨ longs = []) {j : ι} (hj : j ∈ T.filled) :
    1 - T.level j ≤ target (T.other j) := by
  have hlevel := (h.level_mem hend (h.filled j hj).2.2.2).1
  have hmem : j ∈ T.filled.filter (T.other · = T.other j) := Finset.mem_filter.mpr ⟨hj, rfl⟩
  have hparts : ∀ k ∈ T.filled.filter (T.other · = T.other j), 0 ≤ 1 - T.level k := by
    intro k hk
    exact sub_nonneg.mpr (h.filled k (Finset.mem_filter.mp hk).1).2.2.1.le
  calc 1 - T.level j
      ≤ ∑ k ∈ T.filled with T.other k = T.other j, (1 - T.level k) :=
        Finset.single_le_sum hparts hmem
    _ ≤ T.share (T.other j) := le_add_of_nonneg_left hlevel
    _ = target (T.other j) := h.share_eq _

end Filling
end AliasTable
