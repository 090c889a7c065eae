import Mathlib
import Plfit.Library.SortedBlocks

/-! # The distance between an empirical and a continuous distribution

A continuous distribution function is compared with the empirical one of a sorted sample. The
distance is the supremum over the whole half-line. Looking at the samples only, and there at the
height of the step before each of them, misses at most the height of one step.
-/
namespace EmpiricalDistribution
open SortedBlocks Filter Topology

/-- A continuous distribution function on the half-line from `lo`. -/
structure DistributionFrom (lo : ℝ) where
  toFun : ℝ → ℝ
  map_lo : toFun lo = 0
  le_one : ∀ x ∈ Set.Ici lo, toFun x ≤ 1
  monotoneOn : MonotoneOn toFun (Set.Ici lo)
  continuousOn : ContinuousOn toFun (Set.Ici lo)

noncomputable def empirical (ys : List ℝ) (x : ℝ) : ℝ := ys.countP (· ≤ x) / ys.length

variable {lo : ℝ} (F : DistributionFrom lo) {ys : List ℝ}

noncomputable def gap (ys : List ℝ) (x : ℝ) : ℝ := |empirical ys x - F.toFun x|

/-- The gap just before the sample `v` at the position `i` when the samples before it, equal ones
included, are counted. -/
noncomputable def stepGap (n i : ℕ) (v : ℝ) : ℝ := |F.toFun v - i / n|

noncomputable def distance (ys : List ℝ) : ℝ := sSup (gap F ys '' Set.Ici lo)

variable {F}

theorem DistributionFrom.nonneg {x : ℝ} (hx : lo ≤ x) : 0 ≤ F.toFun x :=
  F.map_lo ▸ F.monotoneOn Set.self_mem_Ici hx hx

theorem DistributionFrom.mono {x y : ℝ} (hx : lo ≤ x) (hxy : x ≤ y) :
    F.toFun x ≤ F.toFun y :=
  F.monotoneOn hx (hx.trans hxy) hxy

/-- Between two samples the gap exceeds a gap before a sample by one step at most. -/
theorem gap_le (hs : ys.SortedLE) (hne : ys ≠ []) (hys : ∀ y ∈ ys, lo ≤ y) {d : ℝ} (hd : 0 ≤ d)
    (hsteps : ∀ i v, ys[i]? = some v → stepGap F ys.length i v ≤ d) {x : ℝ} (hx : lo ≤ x) :
    gap F ys x ≤ d + 1 / ys.length := by
  have hdown : ∀ a b : ℝ, a ≤ b → b ≤ x → a ≤ x := fun a b => le_trans
  have hstep : (0 : ℝ) ≤ 1 / ys.length := by positivity
  have hcount : ys.countP (· ≤ x) ≤ ys.length := List.countP_le_length
  generalize hk : ys.countP (· ≤ x) = k at hcount
  have hempirical : empirical ys x = (k : ℝ) / ys.length := by rw [empirical, hk]
  have hbelow : (k : ℝ) / ys.length - F.toFun x ≤ d + 1 / ys.length := by
    cases k with
    | zero =>
      have hnonneg : 0 ≤ F.toFun x := F.nonneg hx
      simp only [Nat.cast_zero, zero_div]
      linarith
    | succ k =>
      have hget : ys[k]? = some ys[k] := List.getElem?_eq_getElem hcount
      have hle : ys[k] ≤ x := (iff_lt_countP hdown hs hget).mpr (by omega)
      have hF : F.toFun ys[k] ≤ F.toFun x := F.mono (hys _ (List.getElem_mem hcount)) hle
      have hgap := neg_le_of_abs_le (hsteps k _ hget)
      have hsplit : ((k + 1 : ℕ) : ℝ) / ys.length = k / ys.length + 1 / ys.length := by
        push_cast
        exact add_div _ _ _
      linarith
  have habove : F.toFun x - (k : ℝ) / ys.length ≤ d + 1 / ys.length := by
    rcases hcount.lt_or_eq with hlt | heq
    · have hget : ys[k]? = some ys[k] := List.getElem?_eq_getElem hlt
      have hxv : x < ys[k] := not_le.mp (mt (iff_lt_countP hdown hs hget).mp (by omega))
      have hF : F.toFun x ≤ F.toFun ys[k] := F.mono hx hxv.le
      have hgap := le_of_abs_le (hsteps k _ hget)
      linarith
    · have hone : F.toFun x ≤ 1 := F.le_one x hx
      have hquot : (k : ℝ) / ys.length = 1 := by
        rw [heq, div_self]
        exact_mod_cast (List.length_pos_of_ne_nil hne).ne'
      linarith
  rw [gap, hempirical]
  exact abs_sub_le_iff.mpr ⟨hbelow, habove⟩

/-- Close to a value and left of it the same samples are counted. -/
theorem eventually_empirical (ys : List ℝ) (v : ℝ) :
    ∀ᶠ x in 𝓝[<] v, empirical ys x = (below ys v : ℝ) / ys.length := by
  have hsame : ∀ y ∈ ys, ∀ᶠ x in 𝓝[<] v, y ≤ x ↔ y < v := by
    intro y _
    rcases lt_or_ge y v with hlt | hge
    · have hnear : ∀ᶠ x in 𝓝[<] v, y < x :=
        eventually_nhdsWithin_of_eventually_nhds (eventually_gt_nhds hlt)
      filter_upwards [hnear] with x hx
      exact iff_of_true hx.le hlt
    · filter_upwards [self_mem_nhdsWithin] with x hx
      exact iff_of_false (hx.trans_le hge).not_ge hge.not_gt
  have hall : ∀ᶠ x in 𝓝[<] v, ∀ y ∈ ys, y ≤ x ↔ y < v :=
    (List.finite_toSet ys).eventually_all.mpr hsame
  filter_upwards [hall] with x hx
  have hcount : ys.countP (· ≤ x) = below ys v := List.countP_congr (by simpa using hx)
  rw [empirical, hcount]

/-- The gap at the left end of a jump is a limit of gaps. -/
theorem gap_before_le {K v : ℝ} (hK : ∀ x ∈ Set.Ici lo, gap F ys x ≤ K) (hv : lo < v) :
    |(below ys v : ℝ) / ys.length - F.toFun v| ≤ K := by
  have hF : Tendsto F.toFun (𝓝[<] v) (𝓝 (F.toFun v)) :=
    ((F.continuousOn.continuousAt (Ici_mem_nhds hv)).tendsto).mono_left nhdsWithin_le_nhds
  have hlimit : Tendsto (fun x => |(below ys v : ℝ) / ys.length - F.toFun x|) (𝓝[<] v)
      (𝓝 |(below ys v : ℝ) / ys.length - F.toFun v|) :=
    (tendsto_const_nhds.sub hF).abs
  have hnear : ∀ᶠ x in 𝓝[<] v, lo ≤ x :=
    eventually_nhdsWithin_of_eventually_nhds (eventually_ge_nhds hv)
  refine le_of_tendsto hlimit ?_
  filter_upwards [hnear, eventually_empirical ys v] with x hx hempirical
  have hgap := hK x hx
  rwa [gap, hempirical] at hgap

/-- A gap before a sample lies between the gaps at both ends of the jump at its value. -/
theorem stepGap_le (hs : ys.SortedLE) (hys : ∀ y ∈ ys, lo ≤ y) {K : ℝ}
    (hK : ∀ x ∈ Set.Ici lo, gap F ys x ≤ K) {i : ℕ} {v : ℝ} (hi : ys[i]? = some v) :
    stepGap F ys.length i v ≤ K := by
  have hmem : v ∈ ys := List.mem_of_getElem? hi
  have hdown : ∀ a b : ℝ, a ≤ b → b ≤ v → a ≤ v := fun a b => le_trans
  have hlow : below ys v ≤ i :=
    not_lt.mp (mt (lt_iff_lt_below hs hi v).mpr (lt_irrefl v))
  have hhigh : i ≤ ys.countP (· ≤ v) := ((iff_lt_countP hdown hs hi).mp le_rfl).le
  have hbefore : |(below ys v : ℝ) / ys.length - F.toFun v| ≤ K := by
    rcases (hys v hmem).eq_or_lt with rfl | hlt
    · have hzero : below ys lo = 0 := below_eq_zero hys
      have hnonneg : 0 ≤ gap F ys lo := abs_nonneg _
      have hgap := hnonneg.trans (hK lo Set.self_mem_Ici)
      simpa [hzero, F.map_lo] using hgap
    · exact gap_before_le hK hlt
  have hafter : gap F ys v ≤ K := hK v (hys v hmem)
  have hn : (0 : ℝ) ≤ ys.length := Nat.cast_nonneg _
  have hlow' : (below ys v : ℝ) / ys.length ≤ i / ys.length :=
    div_le_div_of_nonneg_right (by exact_mod_cast hlow) hn
  have hhigh' : (i : ℝ) / ys.length ≤ empirical ys v :=
    div_le_div_of_nonneg_right (by exact_mod_cast hhigh) hn
  have hleft := neg_le_of_abs_le hbefore
  have hright := le_of_abs_le hafter
  exact abs_sub_le_iff.mpr ⟨by linarith, by linarith⟩

/-- The largest gap before a sample is the distance up to the height of one step. -/
theorem isLUB_distance (hs : ys.SortedLE) (hne : ys ≠ []) (hys : ∀ y ∈ ys, lo ≤ y) {d : ℝ}
    (hd : 0 ≤ d) (hsteps : ∀ i v, ys[i]? = some v → stepGap F ys.length i v ≤ d) :
    IsLUB (gap F ys '' Set.Ici lo) (distance F ys) ∧ distance F ys ≤ d + 1 / ys.length := by
  have hbound : ∀ g ∈ gap F ys '' Set.Ici lo, g ≤ d + 1 / ys.length := by
    rintro g ⟨x, hx, rfl⟩
    exact gap_le hs hne hys hd hsteps hx
  have hnonempty : (gap F ys '' Set.Ici lo).Nonempty := Set.nonempty_Ici.image _
  exact ⟨isLUB_csSup hnonempty ⟨_, hbound⟩, csSup_le hnonempty hbound⟩

end EmpiricalDistribution
