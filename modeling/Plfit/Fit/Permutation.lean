import Mathlib
import Plfit.Library.TwoRuns
import Plfit.Search.Probes
import Plfit.Model.PValue

/-! # Fits do not depend on the order of the samples

Three of the four fits only see a sorted copy. The discrete fit at a fixed `xmin` resamples
from the data as they came: its synthetic data sets differ in samples below `xmin`, and those
are cut off again by every refit.
-/
namespace Plfit
open ExactArithmetic List TwoRuns

section Arrays
variable {K : Type} [LinearOrder K]

theorem iCopyAndSort_perm {xs ys : List K} (h : xs.Perm ys) :
    iCopyAndSort (xs.map .fin) = iCopyAndSort (ys.map .fin) := by
  rw [iCopyAndSort_map, iCopyAndSort_map]
  apply congrArg (List.map Double.fin)
  apply Perm.eq_of_sortedLE sortedLE_insertionSort sortedLE_insertionSort
  exact ((perm_insertionSort _ xs).trans h).trans (perm_insertionSort _ ys).symm

theorem countSmaller_perm {xs ys : List (Double K)} (h : xs.Perm ys) (xmin : Double K) :
    countSmaller xs xmin = countSmaller ys xmin :=
  h.countP_eq _

/-- Dropping the front of a sorted array removes all samples below the threshold. -/
theorem dropWhile_eq_filter {xs : List K} (hs : xs.SortedLE) (xmin : Double K) :
    (xs.map Double.fin).dropWhile (fun x => x < xmin) =
      (xs.filter (fun x => ¬ .fin x < xmin)).map .fin := by
  induction xs with
  | nil => rfl
  | cons x xs ih =>
    obtain ⟨hx, hxs⟩ := SortedBlocks.sortedLE_cons.mp hs
    by_cases hlt : .fin x < xmin
    · rw [map_cons, dropWhile_cons_of_pos (by simpa using hlt), ih hxs,
        filter_cons_of_neg (by simpa using hlt)]
    · -- a larger number is not below the threshold either
      have hall : ∀ y ∈ x :: xs, ¬ .fin y < xmin := by
        intro y hy hylt
        apply hlt
        rcases mem_cons.mp hy with rfl | hy
        · exact hylt
        · cases xmin with
          | nan => exact absurd hylt (Double.not_lt_nan _)
          | ninf => exact absurd hylt (Double.not_lt_ninf _)
          | fin v => exact Double.fin_lt_fin.mpr ((hx y hy).trans_lt (Double.fin_lt_fin.mp hylt))
          | pinf => exact Double.fin_lt_pinf
      rw [map_cons, dropWhile_cons_of_neg (by simpa using hlt),
        filter_eq_self.mpr (by simpa using hall), map_cons]

end Arrays

/-! ## Data that agree from `xmin` on -/

section Agreement
variable {K : Type} [LinearOrder K] {xmin : Double K}

/-- Two numbers at the same place of two synthetic data sets. -/
def SameOrBelow (xmin : Double K) (x y : K) : Prop :=
  x = y ∨ Double.fin x < xmin ∧ Double.fin y < xmin

/-- Arrays of numbers that differ in places with samples below `xmin` only. -/
def AgreeFrom (xmin : Double K) (ys zs : List (Double K)) : Prop :=
  ∃ as bs : List K, ys = as.map .fin ∧ zs = bs.map .fin ∧ Forall₂ (SameOrBelow xmin) as bs

theorem AgreeFrom.refl (xs : List K) : AgreeFrom xmin (xs.map .fin) (xs.map .fin) :=
  ⟨xs, xs, rfl, rfl, forall₂_same.mpr (fun _ _ => Or.inl rfl)⟩

theorem AgreeFrom.length_eq {ys zs : List (Double K)} (h : AgreeFrom xmin ys zs) :
    ys.length = zs.length := by
  obtain ⟨as, bs, rfl, rfl, h⟩ := h
  rw [length_map, length_map, h.length_eq]

theorem AgreeFrom.append {ys zs ys' zs' : List (Double K)} (h : AgreeFrom xmin ys zs)
    (h' : AgreeFrom xmin ys' zs') : AgreeFrom xmin (ys ++ ys') (zs ++ zs') := by
  obtain ⟨as, bs, rfl, rfl, h⟩ := h
  obtain ⟨as', bs', rfl, rfl, h'⟩ := h'
  exact ⟨as ++ as', bs ++ bs', map_append.symm, map_append.symm, rel_append h h'⟩

theorem AgreeFrom.drop {ys zs : List (Double K)} (h : AgreeFrom xmin ys zs) (n : ℕ) :
    AgreeFrom xmin (ys.drop n) (zs.drop n) := by
  obtain ⟨as, bs, rfl, rfl, h⟩ := h
  exact ⟨as.drop n, bs.drop n, map_drop.symm, map_drop.symm, forall₂_drop n h⟩

theorem filter_eq_of_forall₂ {as bs : List K} (h : Forall₂ (SameOrBelow xmin) as bs) :
    as.filter (fun x => ¬ .fin x < xmin) = bs.filter (fun x => ¬ .fin x < xmin) := by
  induction h with
  | nil => rfl
  | cons hab _ ih =>
    rcases hab with rfl | ⟨ha, hb⟩
    · rw [filter_cons, filter_cons, ih]
    · rw [filter_cons_of_neg (by simpa using ha), filter_cons_of_neg (by simpa using hb), ih]

theorem deref_agree {ys zs : List (Double K)} (h : AgreeFrom xmin ys zs) (i : ℕ) :
    Related (fun y z => AgreeFrom xmin [y] [z]) (deref ys i) (deref zs i) := by
  obtain ⟨as, bs, rfl, rfl, h⟩ := h
  unfold deref
  rw [getElem?_map, getElem?_map]
  induction h generalizing i with
  | nil => exact Related.stop _
  | cons hab _ ih =>
    cases i with
    | zero => exact Related.ok ⟨[_], [_], rfl, rfl, forall₂_cons.mpr ⟨hab, Forall₂.nil⟩⟩
    | succ i => exact ih i

/-- A fit at `xmin` cuts the same tail out of both. -/
theorem AgreeFrom.tail_eq {ys zs : List (Double K)} (h : AgreeFrom xmin ys zs) :
    (iCopyAndSort ys).dropWhile (fun x => x < xmin) =
      (iCopyAndSort zs).dropWhile (fun x => x < xmin) := by
  obtain ⟨as, bs, rfl, rfl, h⟩ := h
  rw [iCopyAndSort_map, iCopyAndSort_map, dropWhile_eq_filter sortedLE_insertionSort,
    dropWhile_eq_filter sortedLE_insertionSort]
  apply congrArg (List.map Double.fin)
  apply Perm.eq_of_sortedLE
  · exact (sortedLE_insertionSort.pairwise.filter _).sortedLE
  · exact (sortedLE_insertionSort.pairwise.filter _).sortedLE
  · have hleft := (perm_insertionSort (· ≤ ·) as).filter (fun x => ¬ Double.fin x < xmin)
    have hright := (perm_insertionSort (· ≤ ·) bs).filter (fun x => ¬ Double.fin x < xmin)
    rw [filter_eq_of_forall₂ h] at hleft
    exact hleft.trans hright.symm

end Agreement

/-! ## Synthetic data sets from permuted data -/

section Resampling
variable {K : Type} [Field K] [LinearOrder K] [FloorRing K] {xmin : Double K}

/-- The samples of two runs of a resampler, with everything else the same. -/
def SameRun (xmin : Double K) (a b : Status × List (Double K) × Rng) : Prop :=
  a.1 = b.1 ∧ AgreeFrom xmin a.2.1 b.2.1 ∧ a.2.2 = b.2.2

/-- Two draws from the heads of permuted data read the same positions. -/
theorem drawHead_agree {head head' : List (Double K)} (h : AgreeFrom xmin head head')
    (numSmaller k : ℕ) (rng : Rng) :
    Related (fun a b => AgreeFrom xmin a.1 b.1 ∧ a.2 = b.2) (drawHead head numSmaller k rng)
      (drawHead head' numSmaller k rng) := by
  induction k generalizing rng with
  | zero => exact Related.ok ⟨AgreeFrom.refl [], rfl⟩
  | succ k ih =>
    rw [drawHead, drawHead]
    apply Related.bind_left
    rintro ⟨i, rng⟩
    apply Related.bind (deref_agree h i)
    intro x x' hx
    apply Related.bind (ih rng)
    rintro ⟨ys, rng₁⟩ ⟨ys', rng₂⟩ ⟨hys, hrng⟩
    exact Related.ok ⟨AgreeFrom.append hx hys, hrng⟩

omit [FloorRing K] in
/-- The heads of permuted data have the same length, and all their samples are below `xmin`,
unless both hold the zero that stands for no sample. -/
theorem extractSmaller_agree {xs ys : List K} (h : xs.Perm ys) :
    AgreeFrom xmin (extractSmaller (xs.map .fin) xmin).1 (extractSmaller (ys.map .fin) xmin).1 := by
  have hhead : ∀ zs : List K, (extractSmaller (zs.map .fin) xmin).1 =
      (if zs.filter (fun x => .fin x < xmin) = [] then [0]
        else zs.filter (fun x => .fin x < xmin)).map .fin := by
    intro zs
    unfold extractSmaller
    rw [filter_map]
    simp only [map_eq_nil_iff, Function.comp_def]
    split <;> rfl
  have hperm := h.filter (fun x => .fin x < xmin)
  have hnil : xs.filter (fun x => .fin x < xmin) = [] ↔ ys.filter (fun x => .fin x < xmin) = [] := by
    rw [← length_eq_zero_iff, hperm.length_eq, length_eq_zero_iff]
  rw [hhead, hhead]
  by_cases hempty : xs.filter (fun x => .fin x < xmin) = []
  · rw [if_pos hempty, if_pos (hnil.mp hempty)]
    exact AgreeFrom.refl [0]
  · rw [if_neg hempty, if_neg (fun h => hempty (hnil.mpr h))]
    refine ⟨_, _, rfl, rfl, forall₂_iff_get.mpr ⟨hperm.length_eq, ?_⟩⟩
    intro i hi hi'
    have hleft := of_mem_filter (get_mem _ ⟨i, hi⟩)
    have hright := of_mem_filter (get_mem _ ⟨i, hi'⟩)
    exact Or.inr ⟨by simpa using hleft, by simpa using hright⟩

variable [MathLibrary K] {E : Environment K}

theorem rzetaLoop_integers {z : ℤ} {alpha b : Double K} {n : ℕ} {rng : Rng}
    {out : Status × List (Double K) × Rng} (h : rzetaLoop E z alpha b n rng = .ok out) :
    ∃ as : List K, out.2.1 = as.map .fin := by
  induction n generalizing rng out with
  | zero =>
    cases h
    exact ⟨[], rfl⟩
  | succ n ih =>
    rw [rzetaLoop] at h
    obtain ⟨⟨x, rng₁⟩, -, h⟩ := bind_eq_ok.mp h
    dsimp only at h
    split_ifs at h
    · cases h
      exact ⟨[(x : K)], rfl⟩
    · obtain ⟨⟨status, rest, rng₂⟩, hrest, h⟩ := bind_eq_ok.mp h
      cases h
      obtain ⟨as, has⟩ := ih hrest
      exact ⟨(x : K) :: as, congrArg (List.cons (.fin (x : K))) has⟩

theorem rzetaArray_integers {z : ℤ} {alpha : Double K} {n : ℕ} {rng : Rng}
    {out : Status × List (Double K) × Rng} (h : rzetaArray E z alpha n rng = .ok out) :
    ∃ as : List K, out.2.1 = as.map .fin := by
  unfold rzetaArray at h
  split_ifs at h
  · cases h
    exact ⟨[], rfl⟩
  · cases h
    exact ⟨[], rfl⟩
  · exact rzetaLoop_integers h

/-- Two runs of the resampler on the heads of permuted data. -/
theorem iResampleDiscrete_agree {head head' : List (Double K)} (h : AgreeFrom xmin head head')
    (numSmaller n : ℕ) (alpha : Double K) (numSamples : ℕ) (rng : Rng) :
    Related (SameRun xmin) (iResampleDiscrete E head numSmaller n alpha xmin numSamples rng)
      (iResampleDiscrete E head' numSmaller n alpha xmin numSamples rng) := by
  unfold iResampleDiscrete
  obtain ⟨k, rng⟩ := numOrigSamples E numSmaller n numSamples rng
  apply Related.bind (drawHead_agree h numSmaller k rng)
  rintro ⟨ys, rng₁⟩ ⟨ys', rng₂⟩ ⟨hys, rfl⟩
  apply Related.bind_left
  intro z
  cases htail : rzetaArray E z alpha (sizeSub numSamples k) rng₁ with
  | error stop => exact Related.stop stop
  | ok out =>
    obtain ⟨as, has⟩ := rzetaArray_integers htail
    refine Related.ok ⟨rfl, ?_, rfl⟩
    dsimp only
    rw [has]
    exact AgreeFrom.append hys (AgreeFrom.refl as)

omit [Field K] [FloorRing K] [MathLibrary K] in
theorem overwrite_agree {written written' ys ys' : List (Double K)}
    (h : AgreeFrom xmin written written') (hys : AgreeFrom xmin ys ys') :
    Related (AgreeFrom xmin) (overwrite written ys) (overwrite written' ys') := by
  unfold overwrite
  rw [← h.length_eq, ← hys.length_eq]
  split
  · exact Related.ok (h.append (hys.drop _))
  · exact Related.stop _

/-- A refit at `xmin` sees the tail of its data only. -/
theorem refitDiscrete_agree {options : DiscreteOptions K} {ys ys' : List (Double K)}
    (h : AgreeFrom xmin ys ys') (rng : Rng) (synthetic : PlfitResult K) :
    refitDiscrete E options true xmin rng ys synthetic =
      refitDiscrete E options true xmin rng ys' synthetic := by
  have hcheck : discreteInputCheck ys options = discreteInputCheck ys' options := by
    rw [discreteInputCheck, discreteInputCheck, h.length_eq]
  simp only [refitDiscrete, if_true, estimateAlphaDiscreteWith, hcheck, h.tail_eq, skipPValue]

omit [Field K] [FloorRing K] [MathLibrary K] in
/-- The trials count the same successes, whatever record they start from. -/
theorem trialLoop_agree {resample resample' : Resampler K} {refit : Refit K} {D : Double K}
    (hresample : ∀ rng, Related (SameRun xmin) (resample rng) (resample' rng))
    (hrefit : ∀ ys ys' synthetic, AgreeFrom xmin ys ys' → refit ys synthetic = refit ys' synthetic)
    (k : ℕ) {ys ys' : List (Double K)} (h : AgreeFrom xmin ys ys') (synthetic : PlfitResult K)
    (rng : Rng) :
    trialLoop resample refit D k ys synthetic rng =
      trialLoop resample' refit D k ys' synthetic rng := by
  apply Related.eq
  induction k generalizing ys ys' synthetic rng with
  | zero => exact Related.ok rfl
  | succ k ih =>
    rw [trialLoop, trialLoop]
    apply Related.bind (hresample rng)
    rintro ⟨status, written, rng₁⟩ ⟨status', written', rng₂⟩ ⟨-, hwritten, hrng⟩
    obtain rfl : rng₁ = rng₂ := hrng
    apply Related.bind (overwrite_agree hwritten h)
    intro zs zs' hzs
    dsimp only
    rw [hrefit zs zs' synthetic hzs]
    apply Related.bind_left
    intro out
    apply Related.bind (ih hzs out.result rng₁)
    rintro out₁ _ rfl
    exact Related.of_eq rfl

omit [MathLibrary K] in
theorem exactPValue_agree {resample resample' : Resampler K} {refit : Refit K}
    (hresample : ∀ rng, Related (SameRun xmin) (resample rng) (resample' rng))
    (hrefit : ∀ ys ys' synthetic, AgreeFrom xmin ys ys' → refit ys synthetic = refit ys' synthetic)
    (precision : Double K) (n : ℕ) (result : PlfitResult K) (rng : Rng) :
    exactPValue E precision n resample refit result rng =
      exactPValue E precision n resample' refit result rng := by
  have hzeros : AgreeFrom xmin (replicate n 0) (replicate n 0) := by
    have hmap : replicate n (0 : Double K) = (replicate n (0 : K)).map .fin := by
      rw [map_replicate]
      rfl
    rw [hmap]
    exact AgreeFrom.refl _
  unfold exactPValue
  simp only [trialLoop_agree hresample hrefit _ hzeros]

/-- Data in another order have the same p-value at a fixed `xmin`. -/
theorem iCalculatePValueDiscrete_perm (options : DiscreteOptions K) {xs ys : List K}
    (h : xs.Perm ys) (result : PlfitResult K) (rng : Rng) :
    iCalculatePValueDiscrete E options (xs.map .fin) true result rng =
      iCalculatePValueDiscrete E options (ys.map .fin) true result rng := by
  have hcount := countSmaller_perm (h.map Double.fin) result.xmin
  have hlength : (xs.map (Double.fin (K := K))).length = (ys.map Double.fin).length := by
    rw [length_map, length_map, h.length_eq]
  unfold iCalculatePValueDiscrete
  cases options.pValueMethod with
  | skip => rfl
  | approximate =>
    dsimp only
    rw [approximatePValue, approximatePValue, hcount, hlength]
  | exact =>
    have hsplit : ∀ zs : List (Double K),
        (extractSmaller zs result.xmin).2 = countSmaller zs result.xmin := fun _ => rfl
    dsimp only
    rw [hsplit, hsplit, hcount, hlength]
    apply exactPValue_agree
    · exact fun rng => iResampleDiscrete_agree (extractSmaller_agree h) _ _ _ _ rng
    · exact fun zs zs' synthetic hzs => refitDiscrete_agree hzs rng synthetic

end Resampling

/-! ## The four fits -/

section Fits
variable {K : Type} [Field K] [LinearOrder K] [FloorRing K] [MathLibrary K]

/-- Permuted data have the same fits: the status, the record and the generator. -/
theorem fits_of_permuted_samples (E : Environment K) {xs ys : List K} (h : xs.Perm ys)
    (continuousOptions : Option (ContinuousOptions K)) (discreteOptions : Option (DiscreteOptions K))
    (xmin : Double K) (result : PlfitResult K) (rng : Rng) :
    continuous E continuousOptions (xs.map .fin) result rng =
        continuous E continuousOptions (ys.map .fin) result rng ∧
      estimateAlphaContinuous E continuousOptions (xs.map .fin) xmin result rng =
        estimateAlphaContinuous E continuousOptions (ys.map .fin) xmin result rng ∧
      discrete E discreteOptions (xs.map .fin) result rng =
        discrete E discreteOptions (ys.map .fin) result rng ∧
      estimateAlphaDiscrete E discreteOptions (xs.map .fin) xmin result rng =
        estimateAlphaDiscrete E discreteOptions (ys.map .fin) xmin result rng := by
  have hsort := iCopyAndSort_perm h
  have hlength : (xs.map (Double.fin (K := K))).length = (ys.map Double.fin).length := by
    rw [length_map, length_map, h.length_eq]
  have hcheck : ∀ options : DiscreteOptions K, discreteInputCheck (xs.map .fin) options =
      discreteInputCheck (ys.map .fin) options := by
    intro options
    rw [discreteInputCheck, discreteInputCheck, hlength]
  refine ⟨?_, ?_, ?_, ?_⟩
  · simp only [continuous, continuousWith, continuousSearch, hlength, hsort]
  · simp only [estimateAlphaContinuous, estimateAlphaContinuousWith, hsort]
  · simp only [discrete, discreteWith, hcheck, hsort]
  · simp only [estimateAlphaDiscrete, estimateAlphaDiscreteWith, hcheck, hsort,
      iCalculatePValueDiscrete_perm _ h]

theorem fits_of_two_samples :
    estimateAlphaDiscrete idleEnvironment none ([2, 1].map .fin) (.fin 1)
        idleEnvironment.lastResult (.builtin 0 (fun _ => 0)) =
      estimateAlphaDiscrete idleEnvironment none ([1, 2].map .fin) (.fin (1 : ℝ))
        idleEnvironment.lastResult (.builtin 0 (fun _ => 0)) :=
  (fits_of_permuted_samples idleEnvironment (Perm.swap 1 2 []) none none (.fin 1)
    idleEnvironment.lastResult (.builtin 0 (fun _ => 0))).2.2.2

end Fits

end Plfit
