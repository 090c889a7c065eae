import Mathlib
import Plfit.Search.GoldenBracket

/-! # The brackets of a golden section

A search that evaluates a function goes through brackets that depend on the function alone. It
ends with the first one that is short or in which the callback stops it, and fails at a point that
is not better than both ends of the range.
-/
namespace Plfit
open ExactArithmetic

section Path
variable {K : Type} [Field K] [LinearOrder K]

/-- The ends `a` and `b` with the interior point `c`, which lies nearer to `a`. -/
structure Bracket (K : Type) where
  a : K
  b : K
  c : K

/-- The side without the worse one of the two interior points is kept. -/
def Bracket.next (g : K → K) (B : Bracket K) : Bracket K :=
  if g B.c ≤ g (nextPoint B.b B.c) then { a := nextPoint B.b B.c, b := B.a, c := B.c }
  else { a := B.c, b := B.b, c := nextPoint B.b B.c }

def bracketAfter (g : K → K) (lo hi : K) : ℕ → Bracket K
  | 0 => { a := lo, b := hi, c := lo + resphi * (hi - lo) }
  | n + 1 => (bracketAfter g lo hi n).next g

def Bracket.Ends (epsilon : K) (stop : K → K → Bool) (B : Bracket K) : Prop :=
  |B.a - B.b| ≤ epsilon ∨ stop (min B.a B.b) (max B.a B.b) = true

/-- The point that is evaluated when the search ends. -/
def Bracket.last (epsilon : K) (B : Bracket K) : K :=
  if epsilon < |B.a - B.b| then nextPoint B.b B.c else (B.a + B.b) / 2

def Bracket.best (g : K → K) (epsilon : K) (B : Bracket K) : K :=
  if g (B.last epsilon) < g B.c then B.last epsilon else B.c

/-- The search goes on to the bracket after `n` rounds: the interior points of the brackets before
it are better than both ends of the range. -/
structure Reaches (g : K → K) (lo hi epsilon : K) (stop : K → K → Bool) (n : ℕ) : Prop where
  start : ¬ (g lo ≤ g (lo + resphi * (hi - lo)) ∨ g hi ≤ g (lo + resphi * (hi - lo)))
  goes : ∀ i < n, ¬ (bracketAfter g lo hi i).Ends epsilon stop
  below : ∀ i < n, ∀ B, bracketAfter g lo hi i = B →
    ¬ (g lo ≤ g (nextPoint B.b B.c) ∨ g hi ≤ g (nextPoint B.b B.c))

/-- The search ends with the bracket after `n` rounds. -/
structure EndsAfter (g : K → K) (lo hi epsilon : K) (stop : K → K → Bool) (n : ℕ) : Prop where
  reaches : Reaches g lo hi epsilon stop n
  ends : (bracketAfter g lo hi n).Ends epsilon stop

variable {g : K → K} {lo hi epsilon : K} {stop : K → K → Bool} {m n : ℕ}

theorem not_ends {B : Bracket K} (hlong : epsilon < |B.a - B.b|)
    (hgo : stop (min B.a B.b) (max B.a B.b) = false) : ¬ B.Ends epsilon stop :=
  not_or.mpr ⟨hlong.not_ge, by rw [hgo]; exact Bool.false_ne_true⟩

theorem Reaches.succ (h : Reaches g lo hi epsilon stop n) {B : Bracket K}
    (hB : bracketAfter g lo hi n = B) (hgo : ¬ B.Ends epsilon stop)
    (hbelow : ¬ (g lo ≤ g (nextPoint B.b B.c) ∨ g hi ≤ g (nextPoint B.b B.c))) :
    Reaches g lo hi epsilon stop (n + 1) where
  start := h.start
  goes := by
    intro i hi'
    rcases Nat.lt_succ_iff_lt_or_eq.mp hi' with hlt | rfl
    · exact h.goes i hlt
    · rwa [hB]
  below := by
    intro i hi' B' hB'
    rcases Nat.lt_succ_iff_lt_or_eq.mp hi' with hlt | rfl
    · exact h.below i hlt B' hB'
    · obtain rfl := hB.symm.trans hB'
      exact hbelow

/-- A search that fails in a round ends with no bracket. -/
theorem Reaches.not_endsAfter (h : Reaches g lo hi epsilon stop n) {B : Bracket K}
    (hB : bracketAfter g lo hi n = B) (hgo : ¬ B.Ends epsilon stop)
    (hworse : g lo ≤ g (nextPoint B.b B.c) ∨ g hi ≤ g (nextPoint B.b B.c)) :
    ¬ EndsAfter g lo hi epsilon stop m := by
  intro hend
  rcases lt_trichotomy m n with hlt | rfl | hgt
  · exact h.goes m hlt hend.ends
  · exact hgo (hB ▸ hend.ends)
  · exact hend.reaches.below n hgt B hB hworse

theorem EndsAfter.unique (h : EndsAfter g lo hi epsilon stop m)
    (h' : EndsAfter g lo hi epsilon stop n) : m = n := by
  rcases lt_trichotomy m n with hlt | heq | hgt
  · exact absurd h.ends (h'.reaches.goes m hlt)
  · exact heq
  · exact absurd h'.ends (h.reaches.goes n hgt)

end Path

/-! ## The search and its brackets -/

section Range
variable {σ K : Type} [Field K] [LinearOrder K] [IsStrictOrderedRing K] [FloorRing K]
variable {evaluate : GssEvaluate σ K} {report : GssProgress σ K} {lo hi : K}
variable {Good : σ → Prop} {Shows : K → Double K → σ → Prop} {stop : K → K → Bool} {g : K → K}

/-- A search for the least value of `g` follows the brackets of the golden section. It fails where
they meet a bad point, and otherwise it ends in the last of them. -/
theorem SearchesRange.gss_follows (h : SearchesRange evaluate report lo hi Good Shows stop)
    (hg : ∀ x fx data, Shows x fx data → fx = .fin (g x)) (hle : lo ≤ hi)
    (hgo : stop lo hi = false) {param : GssParameter K} (hparam : param.onError = .stop)
    (heps : 0 < param.epsilon) {data : σ}
    (hfirst : ∃ d f, evaluate data lo = .ok (d, f) ∧ Good d ∧ Shows lo f d) :
    ∃ out, gss evaluate (some report) param lo hi data = .ok out ∧ Good out.data ∧
      (out.status = .failure ∧ (∀ n, ¬ EndsAfter g lo hi param.epsilon stop n) ∨
        ∃ n B, EndsAfter g lo hi param.epsilon stop n ∧ bracketAfter g lo hi n = B ∧
          EndsAt g Good Shows (B.best g param.epsilon) (B.last param.epsilon) out ∧
          NarrowedTo g lo hi param.epsilon stop (B.best g param.epsilon) (B.last param.epsilon)
            (min B.a B.b) (max B.a B.b)) := by
  rcases h.gss_searching hg hle hgo hparam hfirst rfl with
    ⟨hworse, out, hrun, hfail, hgood⟩ | ⟨st, hst, ha, hb, hc, hrun⟩
  · exact ⟨out, hrun, hgood, Or.inl ⟨hfail, fun n hend => hend.reaches.start hworse⟩⟩
  rw [hrun]
  have hstart : Reaches g lo hi param.epsilon stop 0 :=
    ⟨fun hworse => not_or.mpr ⟨hst.holds.lt_lo.not_ge, hst.holds.lt_hi.not_ge⟩ (hc ▸ hworse),
      fun i hi' => absurd hi' i.not_lt_zero, fun i hi' => absurd hi' i.not_lt_zero⟩
  refine gssLoop_rule
    (fun st => Searching g lo hi Good st ∧ ∃ n, Reaches g lo hi param.epsilon stop n ∧
      bracketAfter g lo hi n = { a := st.a, b := st.b, c := st.c }) _
    heps ?_ ?_ ⟨hst, 0, hstart, by rw [ha, hb, hc]; rfl⟩
    (by rw [ha, hb]; exact lt_gssRounds param lo hi)
  · rintro st ⟨hst, n, hreaches, hB⟩ hlong
    have hgolden := hst.bracket.golden
    rcases hst.round_cases h hg hparam rfl with ⟨hstop, out, hrun, hend⟩ |
      ⟨hgo, hworse, out, hrun, hfail, hgood⟩ | ⟨hgo, hbelow, hkeep, st', hrun, hst', ha, hb, hc⟩ |
      ⟨hgo, hmove, st', hrun, hst', ha, hb, hc⟩
    · -- the callback looks at the bracket
      refine Or.inl ⟨out, hrun, hend.good, Or.inr ⟨n, _, ⟨hreaches, ?_⟩, hB, ?_⟩⟩
      · rw [hB]
        exact Or.inr hstop
      · simp only [Bracket.best, Bracket.last, if_pos hlong]
        exact ⟨hend, hst.holds.narrowedTo hst.bracket hgolden.mem_uIcc.2 (Or.inl hstop)⟩
    · exact Or.inl ⟨out, hrun, hgood,
        Or.inl ⟨hfail, fun m => hreaches.not_endsAfter hB (not_ends hlong hgo) hworse⟩⟩
    · refine Or.inr ⟨st', hrun, ⟨hst', n + 1, hreaches.succ hB (not_ends hlong hgo) hbelow, ?_⟩, ?_⟩
      · rw [bracketAfter, hB, Bracket.next, if_pos hkeep, ha, hb, hc]
      · rw [ha, hb]
        exact hgolden.shortens_keep.le
    · have hbelow : ¬ (g lo ≤ g (nextPoint st.b st.c) ∨ g hi ≤ g (nextPoint st.b st.c)) :=
        not_or.mpr ⟨(hmove.trans hst.holds.lt_lo).not_ge, (hmove.trans hst.holds.lt_hi).not_ge⟩
      refine Or.inr ⟨st', hrun, ⟨hst', n + 1, hreaches.succ hB (not_ends hlong hgo) hbelow, ?_⟩, ?_⟩
      · rw [bracketAfter, hB, Bracket.next, if_neg hmove.not_ge, ha, hb, hc]
      · rw [ha, hb]
        exact hgolden.shortens_move.le
  · rintro st ⟨hst, n, hreaches, hB⟩ hshort
    obtain ⟨data, fd, hrun, hdata, hshows⟩ := h.gssFinish hst.good hst.bracket
    obtain rfl := hg _ _ _ hshows
    have hmid := midpoint_mem ⟨min_le_left st.a st.b, le_max_left st.a st.b⟩
      ⟨min_le_right st.a st.b, le_max_right st.a st.b⟩
    refine ⟨_, hrun, hdata, Or.inr ⟨n, _, ⟨hreaches, ?_⟩, hB, ?_⟩⟩
    · rw [hB]
      exact Or.inl hshort
    · simp only [Bracket.best, Bracket.last, if_neg hshort.not_gt]
      refine ⟨⟨rfl, ?_, hdata, hshows⟩, hst.holds.narrowedTo hst.bracket hmid (Or.inr hshort)⟩
      unfold GssState.terminate GssState.observe
      simp only [hst.holds.min_eq, hst.holds.fmin_eq, Double.fin_lt_fin]

end Range
end Plfit
