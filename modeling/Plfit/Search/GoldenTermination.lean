import Mathlib
import Plfit.Search.GoldenRun

/-! # The golden section search ends

For every objective and every callback the points stay inside the initial bracket, and each round
shortens the bracket by a factor below 0.62, so the number of rounds is bounded by a logarithm.
-/
namespace Plfit
open ExactArithmetic

/-- A quantity that every step of a chain multiplies by `r` at most. -/
theorem le_pow_mul_of_isChain {α K : Type} [Field K] [LinearOrder K] [IsStrictOrderedRing K]
    {f : α → K} {r : K} (hr : 0 ≤ r) {l : List α} (h : l.IsChain (fun x y => f y ≤ r * f x)) {x : α}
    (hx : l.head? = some x) {i : ℕ} {y : α} (hy : l[i]? = some y) : f y ≤ r ^ i * f x := by
  induction l generalizing x i with
  | nil => cases hx
  | cons z l ih =>
    cases hx
    cases i with
    | zero =>
      cases hy
      simp
    | succ i =>
      cases l with
      | nil => cases hy
      | cons w l =>
        obtain ⟨hstep, hrest⟩ := List.isChain_cons_cons.mp h
        calc f y ≤ r ^ i * f w := ih hrest rfl hy
          _ ≤ r ^ i * (r * f z) := mul_le_mul_of_nonneg_left hstep (pow_nonneg hr i)
          _ = r ^ (i + 1) * f z := by ring

section Geometry
variable {K : Type} [Field K] [LinearOrder K] [IsStrictOrderedRing K] {a b c : K}

/-- The interior point and the next one lie in their order between the ends. -/
theorem AtGoldenPoint.order (h : AtGoldenPoint a b c) (hne : a ≠ b) :
    (a < c ∧ c < nextPoint b c ∧ nextPoint b c < b) ∨
      (b < nextPoint b c ∧ nextPoint b c < c ∧ c < a) := by
  obtain ⟨t, hca, hpos, hsmall, -⟩ := h.ratio
  have hbc : b - c = (1 - t) * (b - a) := by linear_combination -hca
  have hdc := nextPoint_sub b c
  have hbd := sub_nextPoint b c
  have ht0 : 0 < t := by linarith only [hpos]
  have ht1 : 0 < 1 - t := by linarith only [hsmall]
  have hr1 : (0 : K) < 1 - resphi := one_sub_resphi_pos
  have hr0 : (0 : K) < resphi := resphi_pos
  rcases lt_or_gt_of_ne hne with hab | hab
  · have hlen : 0 < b - a := sub_pos.mpr hab
    have hrest : 0 < b - c := hbc ▸ mul_pos ht1 hlen
    refine Or.inl ⟨?_, ?_, ?_⟩
    · exact sub_pos.mp (hca ▸ mul_pos ht0 hlen)
    · exact sub_pos.mp (hdc ▸ mul_pos hr0 hrest)
    · exact sub_pos.mp (hbd ▸ mul_pos hr1 hrest)
  · have hlen : b - a < 0 := sub_neg.mpr hab
    have hrest : b - c < 0 := hbc ▸ mul_neg_of_pos_of_neg ht1 hlen
    refine Or.inr ⟨?_, ?_, ?_⟩
    · exact sub_neg.mp (hbd ▸ mul_neg_of_pos_of_neg hr1 hrest)
    · exact sub_neg.mp (hdc ▸ mul_neg_of_pos_of_neg hr0 hrest)
    · exact sub_neg.mp (hca ▸ mul_neg_of_pos_of_neg ht0 hlen)

theorem AtGoldenPoint.mem_Ioo (h : AtGoldenPoint a b c) (hne : a ≠ b) :
    c ∈ Set.Ioo (min a b) (max a b) := by
  rcases h.order hne with ⟨hac, hcd, hdb⟩ | ⟨hbd, hdc, hca⟩
  · exact ⟨min_lt_of_left_lt hac, lt_max_of_lt_right (hcd.trans hdb)⟩
  · exact ⟨min_lt_of_right_lt (hbd.trans hdc), lt_max_of_lt_left hca⟩

end Geometry

section Rounds
variable {σ K : Type} [Field K] [LinearOrder K] [IsStrictOrderedRing K]
variable {evaluate : GssEvaluate σ K} {progress : Option (GssProgress σ K)}
variable {param : GssParameter K} {lo hi : K}

theorem NextBracket.bracketIn {st st' next : GssState σ K} {x fx : _} {stopped : Bool}
    {fd : Double K} (hst : BracketIn lo hi st)
    (heval : Evaluates evaluate progress { st with k := st.k + 1 } x st' fx stopped)
    (h : NextBracket st' (nextPoint st.b st.c) fd next) :
    BracketIn lo hi next ∧ Shortens (st.a, st.b) (next.a, next.b) := by
  obtain ⟨data, -, rfl⟩ := heval.value
  rcases h.bracket with ⟨-, ha, hb, hc, -⟩ | ⟨-, ha, hb, hc, -⟩
  · refine ⟨(hst.keep next ha hb hc).1, ?_⟩
    rw [ha, hb]
    exact hst.golden.shortens_keep
  · refine ⟨(hst.move next ha hb hc).1, ?_⟩
    rw [ha, hb]
    exact hst.golden.shortens_move

structure OnRange (lo hi : K) (past : List K) (st : GssState σ K) : Prop where
  bracket : BracketIn lo hi st
  ne : lo ≠ hi → st.a ≠ st.b
  points : ∀ x ∈ past, x ∈ Set.Icc lo hi

omit [Field K] [IsStrictOrderedRing K] in
theorem forall_mem_append_singleton {past : List K} (h : ∀ x ∈ past, x ∈ Set.Icc lo hi) {y : K}
    (hy : y ∈ Set.Icc lo hi) : ∀ x ∈ past ++ [y], x ∈ Set.Icc lo hi := by
  intro x hx
  rcases List.mem_append.mp hx with hx | hx
  · exact h x hx
  · exact List.mem_singleton.mp hx ▸ hy

theorem onRange_rule (fa fb : Double K) :
    RunRule evaluate progress param fa fb (OnRange lo hi)
      (fun past _ _ => ∀ x ∈ past, x ∈ Set.Icc lo hi) where
  cancel := fun past st st' fd hI _ _ =>
    forall_mem_append_singleton hI.points (nextPoint_mem hI.bracket.b hI.bracket.c)
  reject := fun past st st' fd hI _ _ _ _ =>
    forall_mem_append_singleton hI.points (nextPoint_mem hI.bracket.b hI.bracket.c)
  round := by
    intro past st st' fd next hI _ heval _ hnext
    obtain ⟨hbracket, q, hq, -, hlen⟩ := hnext.bracketIn hI.bracket heval
    refine ⟨hbracket, ?_,
      forall_mem_append_singleton hI.points (nextPoint_mem hI.bracket.b hI.bracket.c)⟩
    intro hne
    have hpos : 0 < |st.a - st.b| := abs_pos.mpr (sub_ne_zero.mpr (hI.ne hne))
    exact sub_ne_zero.mp (abs_pos.mp (hlen ▸ mul_pos hq hpos))
  finish := fun past st st' fx stopped hI _ _ =>
    forall_mem_append_singleton hI.points (midpoint_mem hI.bracket.a hI.bracket.b)

end Rounds

/-! ## Callbacks that return -/

section Returning
variable {σ K : Type} [Field K] [LinearOrder K] [IsStrictOrderedRing K] [FloorRing K]

def returning (f : σ → K → σ × Double K) : GssEvaluate σ K := fun data x => .ok (f data x)

def answering (p : σ → K → Double K → K → Double K → K → K → ℕ → Bool) : GssProgress σ K :=
  fun data x fx min fmin left right k => .ok (p data x fx min fmin left right k)

variable (f : σ → K → σ × Double K)
variable (p : Option (σ → K → Double K → K → Double K → K → K → ℕ → Bool))

omit [Field K] [IsStrictOrderedRing K] [FloorRing K] in
theorem gssEvaluate_returning (st : GssState σ K) (x : K) :
    ∃ st' fx stopped, gssEvaluate (returning f) (p.map answering) st x = .ok (st', fx, stopped) ∧
      Evaluates (returning f) (p.map answering) st x st' fx stopped := by
  obtain ⟨r, hr⟩ : ∃ r, gssEvaluate (returning f) (p.map answering) st x = .ok r := by
    cases p <;> exact ⟨_, rfl⟩
  exact ⟨r.1, r.2.1, r.2.2, hr, evaluates_of_ok hr⟩

theorem gssRun_returning {param : GssParameter K} (heps : 0 < param.epsilon) (a b : K) (data : σ) :
    ∃ run, gssRun (returning f) (p.map answering) param a b data = .ok run := by
  have hloop : ∀ fa fb : Double K, ∀ (lo hi : K) (st : GssState σ K), AtStart lo hi st →
      ∃ out, gssLoop (returning f) (p.map answering) param fa fb (gssRounds param lo hi) st =
        .ok out ∧ True := by
    intro fa fb lo hi st hst
    refine gssLoop_rule (fun st => AtGoldenPoint st.a st.b st.c) (fun _ => True) heps ?_ ?_ ?_ ?_
    · intro st hI _
      obtain ⟨st', fd, stopped, hrun, heval⟩ :=
        gssEvaluate_returning f p { st with k := st.k + 1 } (nextPoint st.b st.c)
      have hround := gssRound_eq hrun param fa fb
      cases hafter : afterEvaluation param fa fb st' (nextPoint st.b st.c) fd stopped with
      | inl out => exact Or.inl ⟨out, hafter ▸ hround, trivial⟩
      | inr next =>
        obtain ⟨-, -, hnext⟩ := afterEvaluation_eq_inr hafter
        obtain ⟨d, -, rfl⟩ := heval.value
        refine Or.inr ⟨next, hafter ▸ hround, ?_⟩
        rcases hnext.bracket with ⟨-, ha, hb, hc, -⟩ | ⟨-, ha, hb, hc, -⟩
        · rw [ha, hb, hc]
          exact ⟨hI.keep, hI.shortens_keep.le⟩
        · rw [ha, hb, hc]
          exact ⟨AtGoldenPoint.move, hI.shortens_move.le⟩
    · intro st _ _
      obtain ⟨st', fx, stopped, hrun, -⟩ :=
        gssEvaluate_returning f p { st with c := (st.a + st.b) / 2, k := st.k + 1 }
          ((st.a + st.b) / 2)
      exact ⟨st'.terminate, by simp only [gssFinish, hrun]; rfl, trivial⟩
    · rw [hst.a, hst.b, hst.c]
      exact atGoldenPoint_start lo hi
    · rw [hst.a, hst.b]
      exact lt_gssRounds param lo hi
  have hrun : ∃ out, gss (returning f) (p.map answering) param a b data = .ok out := by
    unfold gss
    generalize (if b < a then (b, a) else (a, b)) = ends
    obtain ⟨lo, hi⟩ := ends
    have hfirst : returning f data lo = .ok (f data lo) := rfl
    obtain ⟨st₁, fa, stopped₁, h₁, heval₁⟩ :=
      gssEvaluate_returning f p (GssState.initial lo hi (f data lo).1 (f data lo).2) lo
    obtain ⟨st₂, fb, stopped₂, h₂, heval₂⟩ := gssEvaluate_returning f p st₁ hi
    obtain ⟨st₃, fc, stopped₃, h₃, heval₃⟩ :=
      gssEvaluate_returning f p st₂ (lo + resphi * (hi - lo))
    have hstart : AtStart lo hi (GssState.initial lo hi (f data lo).1 (f data lo).2) :=
      ⟨rfl, rfl, rfl⟩
    have hstart₃ := ((hstart.observe heval₁).observe heval₂).observe heval₃
    simp only [GssState.initial] at h₁
    simp only [hfirst, bind, Except.bind, h₁, h₂, h₃]
    split_ifs
    · exact ⟨_, rfl⟩
    · exact ⟨_, rfl⟩
    · exact ⟨_, rfl⟩
    · exact ⟨_, rfl⟩
    · obtain ⟨out, hrun, -⟩ := hloop fa fb lo hi { st₃ with warning := true, fc := fc }
        ⟨hstart₃.a, hstart₃.b, hstart₃.c⟩
      exact ⟨out, hrun⟩
    · obtain ⟨out, hrun, -⟩ := hloop fa fb lo hi { st₃ with fc := fc }
        ⟨hstart₃.a, hstart₃.b, hstart₃.c⟩
      exact ⟨out, hrun⟩
  obtain ⟨out, hrun⟩ := hrun
  rw [gss_eq_map] at hrun
  cases hgss : gssRun (returning f) (p.map answering) param a b data with
  | error stop =>
    rw [hgss] at hrun
    cases hrun
  | ok run => exact ⟨run, rfl⟩

end Returning

section Logarithm
variable {σ : Type}

/-- A round that is entered as the `i`-th one had a long bracket. -/
theorem lt_logb_of_long {epsilon len l : ℝ} (heps : 0 < epsilon) {i : ℕ} (hlong : epsilon < l)
    (hle : l ≤ (31 / 50) ^ i * len) : (i : ℝ) < Real.logb (50 / 31) (len / epsilon) := by
  have hpow : (0 : ℝ) < (31 / 50) ^ i := by positivity
  have hlen : 0 < len := (mul_pos_iff_of_pos_left hpow).mp ((heps.trans hlong).trans_le hle)
  have hbound : ((50 : ℝ) / 31) ^ (i : ℝ) < len / epsilon := by
    rw [Real.rpow_natCast, lt_div_iff₀ heps]
    calc ((50 : ℝ) / 31) ^ i * epsilon < (50 / 31) ^ i * ((31 / 50) ^ i * len) :=
          mul_lt_mul_of_pos_left (hlong.trans_le hle) (by positivity)
      _ = len := by
          rw [← mul_assoc, ← mul_pow]
          norm_num
  exact (Real.lt_logb_iff_rpow_lt (by norm_num) (div_pos hlen heps)).mpr hbound

/-- Only the first `n` elements of a list can have a property that fails from `n` on. -/
theorem countP_le_of_getElem? {α : Type} {P : α → Bool} {l : List α} {n : ℕ}
    (h : ∀ i x, l[i]? = some x → P x = true → i < n) : l.countP P ≤ n := by
  have hdrop : (l.drop n).countP P = 0 := by
    rw [List.countP_eq_zero]
    intro x hx hP
    obtain ⟨i, hi⟩ := List.mem_iff_getElem?.mp hx
    rw [List.getElem?_drop] at hi
    exact absurd (h _ x hi hP) (by omega)
  calc l.countP P = (l.take n).countP P + (l.drop n).countP P := by
        rw [← List.countP_append, List.take_append_drop]
    _ ≤ n := by
        rw [hdrop, Nat.add_zero]
        exact List.countP_le_length.trans (List.length_take_le n l)

/-- A search ends for every objective and every callback. Its points lie between the ends it was
given, the interior point strictly between the ends of its bracket, every round shortens the bracket
by a factor below 0.62, and the number of rounds is bounded by a logarithm. -/
theorem gss_narrows_bracket (f : σ → ℝ → σ × Double ℝ)
    (p : Option (σ → ℝ → Double ℝ → ℝ → Double ℝ → ℝ → ℝ → ℕ → Bool)) {param : GssParameter ℝ}
    (heps : 0 < param.epsilon) (a b : ℝ) (data : σ) :
    ∃ run, gssRun (returning f) (p.map answering) param a b data = .ok run ∧
      gss (returning f) (p.map answering) param a b data = .ok run.outcome ∧
      (∀ x ∈ run.points, x ∈ Set.uIcc a b) ∧
      (a ≠ b → ∀ st ∈ run.heads, st.c ∈ Set.Ioo (min st.a st.b) (max st.a st.b)) ∧
      run.heads.IsChain (fun st next =>
        ∃ q, 0 < q ∧ q < 31 / 50 ∧ |next.a - next.b| = q * |st.a - st.b|) ∧
      run.heads.countP (fun st => param.epsilon < |st.a - st.b|) ≤
        ⌈Real.logb (50 / 31) (|a - b| / param.epsilon)⌉₊ := by
  obtain ⟨run, hrun⟩ := gssRun_returning f p heps a b data
  have hle : min a b ≤ max a b := min_le_max
  have hlo : min a b ∈ Set.Icc (min a b) (max a b) := Set.left_mem_Icc.mpr hle
  have hhi : max a b ∈ Set.Icc (min a b) (max a b) := Set.right_mem_Icc.mpr hle
  obtain ⟨hpoints, hheads, hhead, hchain⟩ := gssRun_rule
    (P := fun past _ => ∀ x ∈ past, x ∈ Set.Icc (min a b) (max a b)) (V := fun _ _ => True)
    (I := OnRange (min a b) (max a b))
    (Q := fun past _ _ => ∀ x ∈ past, x ∈ Set.Icc (min a b) (max a b)) rfl rfl
    (fun d fx _ x hx => List.mem_singleton.mp hx ▸ hlo)
    (by
      intro past st x st' fx stopped hst hpast hx _
      refine ⟨forall_mem_append_singleton hpast ?_, trivial⟩
      rcases hx with rfl | rfl | rfl
      · exact hlo
      · exact hhi
      · exact nextPoint_mem hhi hlo)
    (fun past st x st' fx _ _ _ hpast => hpast)
    (fun past st hpast _ => hpast)
    (by
      intro past st fa fb fc warning hst hpast _ _ _ _ _
      refine ⟨onRange_rule fa fb, hst.bracketIn hle warning fc, ?_, hpast⟩
      rw [hst.a, hst.b]
      exact id) hrun
  have hshorter : run.heads.IsChain (fun st next => Shortens (st.a, st.b) (next.a, next.b)) := by
    refine List.IsChain.imp_of_mem_imp ?_ hchain
    rintro st next hst - ⟨-, st', fd, heval, hnext⟩
    obtain ⟨past, hI⟩ := hheads st hst
    exact (hnext.bracketIn hI.bracket heval).2
  refine ⟨run, hrun, ?_, hpoints, ?_, hshorter, ?_⟩
  · rw [gss_eq_map, hrun]
    rfl
  · intro hne st hst
    obtain ⟨past, hI⟩ := hheads st hst
    refine hI.bracket.golden.mem_Ioo (hI.ne ?_)
    exact fun heq => hne (inf_eq_sup.mp heq)
  · apply countP_le_of_getElem?
    intro i st hi hlong
    have hlong : param.epsilon < |st.a - st.b| := of_decide_eq_true hlong
    obtain ⟨first, hfirst⟩ : ∃ first, run.heads.head? = some first := by
      cases hlist : run.heads with
      | nil =>
        rw [hlist] at hi
        cases hi
      | cons first rest => exact ⟨first, rfl⟩
    have hstart := hhead first hfirst
    have hbound : |st.a - st.b| ≤ (31 / 50) ^ i * |first.a - first.b| := by
      refine le_pow_mul_of_isChain (f := fun st => |st.a - st.b|) (r := 31 / 50) (by norm_num) ?_
        hfirst hi
      refine List.IsChain.imp ?_ hshorter
      rintro st next ⟨q, -, hq, hlen⟩
      exact hlen.le.trans (mul_le_mul_of_nonneg_right hq.le (abs_nonneg _))
    have hinitial : |first.a - first.b| = |a - b| := by
      rw [hstart.a, hstart.b, abs_sub_comm, max_sub_min_eq_abs, abs_abs, abs_sub_comm]
    rw [hinitial] at hbound
    exact Nat.lt_ceil.mpr (lt_logb_of_long heps hlong hbound)

/-- The square function from 2 down to -1 takes at most twelve rounds. -/
theorem gss_narrows_bracket_square :
    ∃ run, gssRun (returning fun (data : Unit) (x : ℝ) => (data, .fin (x ^ 2))) none
        { epsilon := 1 / 100, onError := .stop } 2 (-1) () = .ok run ∧
      (∀ x ∈ run.points, x ∈ Set.uIcc 2 (-1)) ∧
      run.heads.countP (fun st => (1 / 100 : ℝ) < |st.a - st.b|) ≤ 12 := by
  have heps : 0 < ({ epsilon := 1 / 100, onError := .stop } : GssParameter ℝ).epsilon := by norm_num
  obtain ⟨run, hrun, -, hpoints, -, -, hrounds⟩ :=
    gss_narrows_bracket (fun (data : Unit) (x : ℝ) => (data, .fin (x ^ 2))) none heps 2 (-1) ()
  refine ⟨run, hrun, hpoints, hrounds.trans (Nat.ceil_le.mpr ?_)⟩
  have hlen : |(2 : ℝ) - -1| / (1 / 100) = 300 := by norm_num
  have hpow : ((50 : ℝ) / 31) ^ ((12 : ℕ) : ℝ) = (50 / 31) ^ 12 := Real.rpow_natCast _ 12
  rw [hlen, Real.logb_le_iff_le_rpow (by norm_num) (by norm_num), hpow]
  norm_num

end Logarithm
end Plfit
