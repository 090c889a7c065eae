import Mathlib
import Plfit.Model.PValue

/-! # Resampling from the head of the data

An index into the head is a uniform number times the number of its samples, rounded down. The
generator divides by its largest integer, so that integer itself gives the uniform number one
and an index just behind the head.
-/
namespace Plfit
open ExactArithmetic
variable {K : Type} [Field K] [LinearOrder K] [IsStrictOrderedRing K] [FloorRing K]

/-- What the binomial generator of `rbinom.c` is relied on for. -/
structure BinomialGenerator (E : Environment K) : Prop where
  le : ∀ n p rng, (E.rbinom n p rng).1 ≤ n
  zero : ∀ n rng, (E.rbinom n 0 rng).1 = 0
  one : ∀ n rng, (E.rbinom n 1 rng).1 = n
  twister : ∀ n p mt, ∃ mt', (E.rbinom n p (.twister mt)).2 = .twister mt'

/-! ## One index -/

/-- The integers of a generator, which are not larger than its largest one. -/
def Rng.Bounded (rng : Rng) : Prop :=
  0 < rng.maximum ∧ ∀ i, rng.output i ≤ rng.maximum

theorem Rng.bounded_twister (mt : MtRng) : (Rng.twister mt).Bounded :=
  ⟨Nat.succ_pos _, mt.output_le⟩

theorem Rng.Bounded.advance {rng : Rng} (h : rng.Bounded) (k : ℕ) : (rng.advance k).Bounded := by
  refine ⟨?_, ?_⟩
  · rw [Rng.maximum_advance]
    exact h.1
  · intro i
    rw [Rng.maximum_advance, Rng.output_advance]
    exact h.2 (k + i)

def drawnIndex (K : Type) [Field K] [LinearOrder K] [FloorRing K] (numSmaller : ℕ)
    (rng : Rng) : ℕ :=
  (⌊(rng.output 0 : K) / (rng.maximum : K) * (numSmaller : K)⌋).toNat

section Index
variable {rng : Rng} {numSmaller : ℕ}

theorem uniform_bounds (h : rng.Bounded) :
    (0 : K) ≤ (rng.output 0 : K) / (rng.maximum : K) ∧
      (rng.output 0 : K) / (rng.maximum : K) ≤ 1 := by
  have hmax : (0 : K) < rng.maximum := by exact_mod_cast h.1
  have hle : (rng.output 0 : K) ≤ rng.maximum := by exact_mod_cast h.2 0
  exact ⟨by positivity, (div_le_one hmax).mpr hle⟩

theorem headIndex_eq (h : rng.Bounded) (hsize : numSmaller < 2 ^ 64) :
    headIndex K numSmaller rng = .ok (drawnIndex K numSmaller rng, rng.advance 1) := by
  obtain ⟨h0, h1⟩ := uniform_bounds (K := K) h
  have hmax : (rng.maximum : K) ≠ 0 := by exact_mod_cast h.1.ne'
  have hnonneg : (0 : K) ≤ (rng.output 0 : K) / (rng.maximum : K) * (numSmaller : K) := by
    positivity
  have hle : (rng.output 0 : K) / (rng.maximum : K) * (numSmaller : K) ≤ numSmaller :=
    mul_le_of_le_one_left (Nat.cast_nonneg _) h1
  have hrunif : (runif 0 (numSmaller : Double K) rng : Double K × Rng) =
      (.fin ((rng.output 0 : K) / (rng.maximum : K) * (numSmaller : K)), rng.advance 1) := by
    have hpair : (runif01 rng : Double K × Rng) =
        (.fin ((rng.output 0 : K) / (rng.maximum : K)), rng.advance 1) := by
      rw [← runif01_snd (K := K), ← Double.fin_div_fin hmax]
      exact Prod.ext (runif01_fst rng) rfl
    simp only [runif, hpair, Double.zero_def, Double.natCast_def, Double.fin_sub_fin,
      Double.fin_mul_fin, Double.fin_add_fin, zero_add, sub_zero]
  unfold headIndex
  rw [hrunif]
  unfold drawnIndex
  generalize (rng.output 0 : K) / (rng.maximum : K) * (numSmaller : K) = x at hnonneg hle
  have hfloor : ⌊x⌋ ≤ numSmaller := by
    rw [← Int.cast_le (R := K), Int.cast_natCast]
    exact (Int.floor_le x).trans hle
  have hconvert : Double.toUnsigned 64 (.fin x) = some ⌊x⌋.toNat := by
    have htruncate : Double.truncate x = ⌊x⌋ := if_pos hnonneg
    rw [Double.toUnsigned, htruncate, if_pos]
    exact ⟨Int.floor_nonneg.mpr hnonneg, hfloor.trans_lt (by exact_mod_cast hsize)⟩
  simp only [hconvert, convert, bind, Except.bind]
  rfl

theorem drawnIndex_lt_iff (h : rng.Bounded) (hpos : 0 < numSmaller) :
    drawnIndex K numSmaller rng < numSmaller ↔ rng.output 0 ≠ rng.maximum := by
  obtain ⟨h0, h1⟩ := uniform_bounds (K := K) h
  have hmax : (rng.maximum : K) ≠ 0 := by exact_mod_cast h.1.ne'
  have hsmaller : (0 : K) < numSmaller := by exact_mod_cast hpos
  have hfloor : 0 ≤ ⌊(rng.output 0 : K) / (rng.maximum : K) * (numSmaller : K)⌋ :=
    Int.floor_nonneg.mpr (mul_nonneg h0 hsmaller.le)
  rw [drawnIndex, Int.toNat_lt hfloor, Int.floor_lt, Int.cast_natCast]
  rw [mul_lt_iff_lt_one_left hsmaller, lt_iff_le_and_ne, and_iff_right h1, Ne, Ne,
    div_eq_one_iff_eq hmax, Nat.cast_inj]

end Index

/-! ## The draws from the head -/

section Head
variable {xsHead : List (Double K)} {rng : Rng}

theorem drawHead_spec (h : rng.Bounded) (hne : xsHead ≠ []) (hsize : xsHead.length < 2 ^ 64)
    (k : ℕ) :
    (∀ i < k, rng.output i ≠ rng.maximum) ∧
        (∃ xs, drawHead xsHead xsHead.length k rng = .ok (xs, rng.advance k)) ∨
      (∃ i < k, rng.output i = rng.maximum) ∧
        drawHead xsHead xsHead.length k rng = .error .outOfBounds := by
  have hpos : 0 < xsHead.length := List.length_pos_iff.mpr hne
  induction k generalizing rng with
  | zero => exact Or.inl ⟨by simp, [], by rw [Rng.advance_zero]; rfl⟩
  | succ k ih =>
    have hindex := headIndex_eq (K := K) h hsize
    have hlt := drawnIndex_lt_iff (K := K) h hpos
    rw [drawHead]
    simp only [hindex, bind, Except.bind]
    by_cases hmax : rng.output 0 = rng.maximum
    · refine Or.inr ⟨⟨0, Nat.succ_pos k, hmax⟩, ?_⟩
      have hout : xsHead[drawnIndex K xsHead.length rng]? = none := by
        rw [List.getElem?_eq_none_iff]
        exact not_lt.mp (fun hi => hlt.mp hi hmax)
      simp only [deref, hout]
    · obtain ⟨x, hderef⟩ : ∃ x, deref xsHead (drawnIndex K xsHead.length rng) = .ok x :=
        ⟨_, deref_of_lt (hlt.mpr hmax)⟩
      have hshift : ∀ i, (rng.advance 1).output i = rng.output (i + 1) :=
        fun i => Rng.output_advance_one rng i
      simp only [hderef]
      rcases ih (h.advance 1) with ⟨hall, xs, hrun⟩ | ⟨⟨i, hi, hbad⟩, hrun⟩
      · refine Or.inl ⟨?_, x :: xs, ?_⟩
        · intro i hi
          cases i with
          | zero => exact hmax
          | succ i =>
            have hi' := hall i (Nat.lt_of_succ_lt_succ hi)
            rwa [hshift, Rng.maximum_advance] at hi'
        · simp only [hrun, ← Rng.advance_succ]
          rfl
      · rw [hshift, Rng.maximum_advance] at hbad
        refine Or.inr ⟨⟨i + 1, Nat.succ_lt_succ hi, hbad⟩, ?_⟩
        simp only [hrun]

end Head

/-! ## The zeta sampler reads no array -/

section Zeta
variable [MathLibrary K] {E : Environment K}

theorem bind_ne_error {α β : Type} {x : Exec α} {f : α → Exec β} {e : Stop}
    (hx : x ≠ .error e) (hf : ∀ a, f a ≠ .error e) : (x >>= f) ≠ .error e := by
  cases x with
  | error d => exact fun h => hx (congrArg Except.error (Except.error.inj h))
  | ok a => exact hf a

theorem convert_ne_outOfBounds {α : Type} (z : Option α) : convert z ≠ .error .outOfBounds := by
  cases z <;> exact nofun

omit [IsStrictOrderedRing K] in
theorem rzetaReject_ne_outOfBounds (xmin : ℤ) (alpha b c : Double K) (rounds : ℕ) (rng : Rng) :
    rzetaReject xmin alpha b c rounds rng ≠ .error .outOfBounds := by
  induction rounds generalizing rng with
  | zero => exact nofun
  | succ rounds ih =>
    rw [rzetaReject]
    obtain ⟨u, rng⟩ := (runif01 rng : Double K × Rng)
    dsimp only
    obtain ⟨v, rng⟩ := (runif01 rng : Double K × Rng)
    apply bind_ne_error (convert_ne_outOfBounds _)
    intro x
    dsimp only
    split
    · exact ih _
    · split
      · exact ih _
      · exact nofun

omit [IsStrictOrderedRing K] in
theorem rzetaLoop_ne_outOfBounds (xmin : ℤ) (alpha b : Double K) (n : ℕ) (rng : Rng) :
    rzetaLoop E xmin alpha b n rng ≠ .error .outOfBounds := by
  induction n generalizing rng with
  | zero => exact nofun
  | succ n ih =>
    rw [rzetaLoop]
    apply bind_ne_error (rzetaReject_ne_outOfBounds _ _ _ _ _ _)
    rintro ⟨x, rng⟩
    dsimp only
    split
    · exact nofun
    · apply bind_ne_error (ih rng)
      rintro ⟨status, xs, rng⟩
      exact nofun

omit [IsStrictOrderedRing K] in
theorem rzetaArray_ne_outOfBounds (xmin : ℤ) (alpha : Double K) (n : ℕ) (rng : Rng) :
    rzetaArray E xmin alpha n rng ≠ .error .outOfBounds := by
  unfold rzetaArray
  split
  · exact nofun
  · split
    · exact nofun
    · exact rzetaLoop_ne_outOfBounds _ _ _ _ _

end Zeta

/-! ## Both resamplers -/

section Resamplers
variable [MathLibrary K] {E : Environment K} {xs : List (Double K)}

omit [IsStrictOrderedRing K] [FloorRing K] [MathLibrary K] in
theorem extractSmaller_of_pos {xmin : Double K} (hpos : 0 < countSmaller xs xmin) :
    ∃ xsHead, extractSmaller xs xmin = (xsHead, countSmaller xs xmin) ∧ xsHead ≠ [] ∧
      xsHead.length = countSmaller xs xmin := by
  have hlength : (xs.filter (fun x => x < xmin)).length = countSmaller xs xmin :=
    List.countP_eq_length_filter.symm
  have hne : xs.filter (fun x => x < xmin) ≠ [] := by
    rw [← List.length_pos_iff, hlength]
    exact hpos
  exact ⟨_, by rw [extractSmaller, if_neg hne], hne, hlength⟩

omit [MathLibrary K] in
/-- What the draws from the head do before the tail is sampled. -/
theorem drawHead_extractSmaller (hbinom : BinomialGenerator E) (hne : xs ≠ [])
    (hsize : xs.length < 2 ^ 64) (xmin : Double K) (numSamples : ℕ) (mt : MtRng) :
    ∃ k mt', numOrigSamples E (countSmaller xs xmin) xs.length numSamples (.twister mt) =
        (k, .twister mt') ∧ k ≤ numSamples ∧ (countSmaller xs xmin = 0 → k = 0) ∧
      ((∀ i < k, (mt'.output i).toNat ≠ mtRandMax) ∧
          (∃ head, drawHead (extractSmaller xs xmin).1 (countSmaller xs xmin) k (.twister mt') =
            .ok (head, (Rng.twister mt').advance k)) ∨
        (∃ i < k, (mt'.output i).toNat = mtRandMax) ∧
          drawHead (extractSmaller xs xmin).1 (countSmaller xs xmin) k (.twister mt') =
            .error .outOfBounds) := by
  obtain ⟨mt', hmt'⟩ := hbinom.twister numSamples
    ((countSmaller xs xmin : Double K) / (xs.length : Double K)) mt
  obtain ⟨k, hk⟩ : ∃ k, (numOrigSamples E (countSmaller xs xmin) xs.length numSamples
      (.twister mt)).1 = k := ⟨_, rfl⟩
  have hle : k ≤ numSamples := hk ▸ hbinom.le numSamples _ _
  have hzero : countSmaller xs xmin = 0 → k = 0 := by
    intro hcount
    have hlength : (xs.length : K) ≠ 0 := by
      exact_mod_cast (List.length_pos_iff.mpr hne).ne'
    have hp : (countSmaller xs xmin : Double K) / (xs.length : Double K) = 0 := by
      rw [hcount, Double.natCast_def, Double.natCast_def, Double.fin_div_fin hlength,
        Nat.cast_zero, zero_div]
      rfl
    rw [← hk, numOrigSamples, hp]
    exact hbinom.zero numSamples _
  refine ⟨k, mt', Prod.ext hk hmt', hle, hzero, ?_⟩
  rcases Nat.eq_zero_or_pos (countSmaller xs xmin) with hcount | hpos
  · rw [hzero hcount]
    exact Or.inl ⟨by simp, [], by rw [Rng.advance_zero]; rfl⟩
  · obtain ⟨xsHead, hsplit, hnonempty, hlength⟩ := extractSmaller_of_pos hpos
    have hsmaller : countSmaller xs xmin ≤ xs.length := List.countP_le_length
    rw [hsplit, ← hlength]
    exact drawHead_spec (Rng.bounded_twister mt') hnonempty
      ((hlength.trans_le hsmaller).trans_lt hsize) _

omit [IsStrictOrderedRing K] in
/-- A read behind the head ends both resamplers. -/
theorem resample_of_drawHead_error {xmin : Double K} {numSamples k : ℕ} {rng rng' : Rng}
    (hk : numOrigSamples E (countSmaller xs xmin) xs.length numSamples rng = (k, rng')) {e : Stop}
    (h : drawHead (extractSmaller xs xmin).1 (countSmaller xs xmin) k rng' = .error e)
    (alpha : Double K) :
    resampleContinuous E xs alpha xmin numSamples rng = .error e ∧
      resampleDiscrete E xs alpha xmin numSamples rng = .error e := by
  have hsplit : (extractSmaller xs xmin).2 = countSmaller xs xmin := rfl
  unfold resampleContinuous iResampleContinuous resampleDiscrete iResampleDiscrete
  simp only [hsplit, hk, h, bind, Except.bind, and_self]

/-- The two resamplers read behind the head exactly when one of the integers that select a
sample of the head is the largest one. -/
theorem resample_reads_head_iff (hbinom : BinomialGenerator E) (hne : xs ≠ [])
    (hsize : xs.length < 2 ^ 64) (alpha xmin : Double K) (numSamples : ℕ) (mt : MtRng) :
    ∃ k mt', numOrigSamples E (countSmaller xs xmin) xs.length numSamples (.twister mt) =
        (k, .twister mt') ∧ k ≤ numSamples ∧
      ((∀ i < k, ∃ index rng, headIndex K (countSmaller xs xmin) ((Rng.twister mt').advance i) =
          .ok (index, rng) ∧ index < countSmaller xs xmin) ↔
        ∀ i < k, (mt'.output i).toNat ≠ mtRandMax) ∧
      (resampleContinuous E xs alpha xmin numSamples (.twister mt) ≠ .error .outOfBounds ↔
        ∀ i < k, (mt'.output i).toNat ≠ mtRandMax) ∧
      (resampleDiscrete E xs alpha xmin numSamples (.twister mt) ≠ .error .outOfBounds ↔
        ∀ i < k, (mt'.output i).toNat ≠ mtRandMax) := by
  obtain ⟨k, mt', hk, hle, hzero, hdraws⟩ :=
    drawHead_extractSmaller hbinom hne hsize xmin numSamples mt
  have hsmaller : countSmaller xs xmin ≤ xs.length := List.countP_le_length
  have hindex : ∀ i < k, (∃ index rng,
      headIndex K (countSmaller xs xmin) ((Rng.twister mt').advance i) = .ok (index, rng) ∧
        index < countSmaller xs xmin) ↔ (mt'.output i).toNat ≠ mtRandMax := by
    intro i hi
    have hpos : 0 < countSmaller xs xmin := by
      apply Nat.pos_of_ne_zero
      intro h
      rw [hzero h] at hi
      exact Nat.not_lt_zero i hi
    have hbounded := (Rng.bounded_twister mt').advance i
    have hiff := drawnIndex_lt_iff (K := K) hbounded hpos
    rw [Rng.output_advance, Rng.maximum_advance, Nat.add_zero] at hiff
    rw [headIndex_eq hbounded (hsmaller.trans_lt hsize)]
    refine Iff.trans ⟨?_, ?_⟩ hiff
    · rintro ⟨index, rng, heq, hlt⟩
      cases heq
      exact hlt
    · exact fun hlt => ⟨_, _, rfl, hlt⟩
  refine ⟨k, mt', hk, hle, forall₂_congr hindex, ?_, ?_⟩
  · rcases hdraws with ⟨hgood, head, hrun⟩ | ⟨⟨i, hi, hbad⟩, hrun⟩
    · have hsplit : (extractSmaller xs xmin).2 = countSmaller xs xmin := rfl
      refine iff_of_true ?_ hgood
      unfold resampleContinuous iResampleContinuous
      simp only [hsplit, hk, hrun, bind, Except.bind]
      exact nofun
    · refine iff_of_false ?_ (fun hall => hall i hi hbad)
      exact fun hne => hne (resample_of_drawHead_error hk hrun alpha).1
  · rcases hdraws with ⟨hgood, head, hrun⟩ | ⟨⟨i, hi, hbad⟩, hrun⟩
    · have hsplit : (extractSmaller xs xmin).2 = countSmaller xs xmin := rfl
      refine iff_of_true ?_ hgood
      unfold resampleDiscrete iResampleDiscrete
      simp only [hsplit, hk, hrun]
      apply bind_ne_error (convert_ne_outOfBounds _)
      intro x
      apply bind_ne_error (rzetaArray_ne_outOfBounds _ _ _ _)
      rintro ⟨status, tail, rng⟩
      exact nofun
    · refine iff_of_false ?_ (fun hall => hall i hi hbad)
      exact fun hne => hne (resample_of_drawHead_error hk hrun alpha).2

end Resamplers

/-! Two samples, one of them below `xmin`, and one sample to draw. -/

noncomputable def largestBinomial : Environment ℝ :=
  { idleEnvironment with rbinom := fun n p rng => (if p == 0 then 0 else n, rng) }

theorem binomialGenerator_largest : BinomialGenerator largestBinomial where
  le := by
    intro n p rng
    change (if p == 0 then 0 else n) ≤ n
    split
    · exact Nat.zero_le n
    · exact le_rfl
  zero := by
    intro n rng
    change (if (.fin 0 : Double ℝ) == .fin 0 then 0 else n) = 0
    rw [if_pos (by simp)]
  one := by
    intro n rng
    change (if (.fin 1 : Double ℝ) == .fin 0 then 0 else n) = n
    rw [if_neg (by simp)]
  twister := fun n p mt => ⟨mt, rfl⟩

theorem numOrigSamples_two (mt : MtRng) :
    countSmaller [(.fin 1 : Double ℝ), .fin 2] (.fin 2) = 1 ∧
      numOrigSamples largestBinomial 1 2 1 (.twister mt) = (1, .twister mt) := by
  refine ⟨by simp [countSmaller], ?_⟩
  have htwo : ((2 : ℕ) : ℝ) ≠ 0 := by norm_num
  unfold numOrigSamples
  rw [Double.natCast_def, Double.natCast_def, Double.fin_div_fin htwo]
  change (if (.fin _ : Double ℝ) == .fin 0 then 0 else 1, Rng.twister mt) = _
  rw [Double.fin_beq_fin, if_neg (by simp)]

/-- The integer zero reads the only sample of the head. -/
theorem resample_reads_head_zero :
    ∃ mt, resampleContinuous largestBinomial [.fin 1, .fin 2] (.fin 3) (.fin 2) 1
      (.twister mt) ≠ .error .outOfBounds := by
  obtain ⟨mt, hzero, -⟩ := exists_outputs 0 0
  have hsize : [(.fin 1 : Double ℝ), .fin 2].length < 2 ^ 64 := by simp
  obtain ⟨k, mt', hk, hle, -, hcontinuous, -⟩ := resample_reads_head_iff
    binomialGenerator_largest (by simp) hsize (.fin 3) (.fin 2) 1 mt
  obtain ⟨hcount, hdraw⟩ := numOrigSamples_two mt
  refine ⟨mt, hcontinuous.mpr ?_⟩
  intro i hi
  rw [hcount] at hk
  cases hdraw.symm.trans hk
  obtain rfl : i = 0 := Nat.lt_one_iff.mp hi
  rw [hzero]
  exact nofun

/-- The largest integer reads behind it. -/
theorem resample_reads_behind_head :
    ∃ mt, headIndex ℝ 1 (.twister mt) = .ok (1, (Rng.twister mt).advance 1) ∧
      resampleContinuous largestBinomial [.fin 1, .fin 2] (.fin 3) (.fin 2) 1 (.twister mt) =
        .error .outOfBounds ∧
      resampleDiscrete largestBinomial [.fin 1, .fin 2] (.fin 3) (.fin 2) 1 (.twister mt) =
        .error .outOfBounds := by
  obtain ⟨mt, hmax, -⟩ := exists_outputs 0xFFFFFFFF 0
  obtain ⟨hcount, hdraw⟩ := numOrigSamples_two mt
  have hbounded := Rng.bounded_twister mt
  have houtput : (Rng.twister mt).output 0 = (Rng.twister mt).maximum := by
    change (mt.output 0).toNat = mtRandMax
    rw [hmax]
    rfl
  have hhead : (extractSmaller [(.fin 1 : Double ℝ), .fin 2] (.fin 2)).1 = [.fin 1] := by
    simp [extractSmaller]
  have hk : numOrigSamples largestBinomial
      (countSmaller [(.fin 1 : Double ℝ), .fin 2] (.fin 2)) 2 1 (.twister mt) =
        (1, .twister mt) := by
    rw [hcount]
    exact hdraw
  have hrun : drawHead (extractSmaller [(.fin 1 : Double ℝ), .fin 2] (.fin 2)).1
      (countSmaller [(.fin 1 : Double ℝ), .fin 2] (.fin 2)) 1 (.twister mt) =
        .error .outOfBounds := by
    rw [hcount, hhead]
    have hspec := drawHead_spec hbounded (List.cons_ne_nil (.fin 1 : Double ℝ) []) (by simp) 1
    rcases hspec with ⟨hgood, -⟩ | ⟨-, hrun⟩
    · exact absurd houtput (hgood 0 Nat.one_pos)
    · exact hrun
  have hindex : drawnIndex ℝ 1 (.twister mt) = 1 := by
    have hmax' : (((Rng.twister mt).maximum : ℕ) : ℝ) ≠ 0 := by
      exact_mod_cast hbounded.1.ne'
    rw [drawnIndex, houtput, div_self hmax']
    simp
  refine ⟨mt, ?_, resample_of_drawHead_error hk hrun (.fin 3)⟩
  rw [headIndex_eq hbounded (by norm_num), hindex]

end Plfit
