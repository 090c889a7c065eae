import Mathlib
import Plfit.Library.QuasiNewton
import Plfit.Model.Lbfgs

/-! # The two loops over the stored corrections

The corrections are kept in a ring of `m` slots. On arrays of numbers the two loops over the
ring compute the quasi-Newton direction of the corrections it stores, the newest one first.
-/
namespace Plfit
open ExactArithmetic QuasiNewton

/-! ## Arrays of numbers -/

section Numbers
variable {K : Type} {n : ℕ}

def vec (r : Fin n → K) : Vec n K := fun i => .fin (r i)

variable [Field K]

def dot (n : ℕ) (K : Type) [Field K] : LinearMap.BilinForm K (Fin n → K) :=
  dotProductBilin K K

def dotp (x y : Fin n → K) : K := dot n K x y

theorem dotp_def (x y : Fin n → K) : dotp x y = dot n K x y := rfl

theorem dot_symm (x y : Fin n → K) : dot n K x y = dot n K y x := dotProduct_comm x y

theorem foldl_add_map_fin {ι : Type} (f : ι → K) (l : List ι) (c : K) :
    l.foldl (fun s i => s + .fin (f i)) (.fin c : Double K) = .fin (c + (l.map f).sum) := by
  induction l generalizing c with
  | nil => simp
  | cons i rest ih => rw [List.foldl_cons, Double.fin_add_fin, ih, List.map_cons, List.sum_cons,
      add_assoc]

variable [LinearOrder K]

omit [LinearOrder K] in
@[simp] theorem vecncpy_vec (x : Fin n → K) : vecncpy (vec x) = vec (-x) := rfl

@[simp] theorem vecadd_vec (y x : Fin n → K) (c : K) :
    vecadd (vec y) (vec x) (.fin c) = vec (y + c • x) := rfl

omit [LinearOrder K] in
@[simp] theorem vecdiff_vec (x y : Fin n → K) : vecdiff (vec x) (vec y) = vec (x - y) := by
  funext i
  exact Double.fin_sub_fin _ _

@[simp] theorem vecscale_vec (y : Fin n → K) (c : K) : vecscale (vec y) (.fin c) = vec (c • y) := by
  funext i
  change Double.fin (y i * c) = Double.fin (c * y i)
  rw [mul_comm]

@[simp] theorem vecdot_vec (x y : Fin n → K) : vecdot (vec x) (vec y) = .fin (dot n K x y) := by
  have hfold := foldl_add_map_fin (fun i => x i * y i) (List.finRange n) 0
  rw [zero_add, ← Fin.sum_univ_def] at hfold
  exact hfold

end Numbers

/-! ## The ring of corrections -/

/-- The slot that is `i + 1` places before `j` in a ring of `m` slots. -/
def slot (m j i : ℕ) : ℕ := (j + m - 1 - i) % m

theorem slot_eq {m j i : ℕ} (hj : j < m) (hi : i < m) :
    slot m j i = if i < j then j - 1 - i else j + m - 1 - i := by
  unfold slot
  split
  · rw [show j + m - 1 - i = j - 1 - i + m by omega, Nat.add_mod_right, Nat.mod_eq_of_lt (by omega)]
  · exact Nat.mod_eq_of_lt (by omega)

theorem slot_lt {m j : ℕ} (hj : j < m) (i : ℕ) : slot m j i < m :=
  Nat.mod_lt _ (Nat.zero_lt_of_lt hj)

theorem slot_ne {m j a b : ℕ} (hj : j < m) (hab : a < b) (hb : b < m) :
    slot m j a ≠ slot m j b := by
  rw [slot_eq hj (hab.trans hb), slot_eq hj hb]
  split <;> split <;> omega

/-- Seen from the newest slot, the places before it are counted from one. -/
theorem slot_slot_zero {m j i : ℕ} (hj : j < m) (hi : i + 1 < m) :
    slot m (slot m j 0) i = slot m j (i + 1) := by
  rw [slot_eq (slot_lt hj 0) (by omega), slot_eq hj (by omega), slot_eq hj hi]
  split <;> split <;> split <;> omega

theorem slot_zero_succ {m j : ℕ} (hj : j < m) : (slot m j 0 + 1) % m = j := by
  rw [slot_eq hj (by omega)]
  split
  · rw [show j - 1 - 0 + 1 = j by omega, Nat.mod_eq_of_lt hj]
  · rw [show j + m - 1 - 0 + 1 = j + m by omega, Nat.add_mod_right, Nat.mod_eq_of_lt hj]

theorem slot_succ_zero {m j : ℕ} (hj : j < m) : slot m ((j + 1) % m) 0 = j := by
  rcases Nat.lt_or_ge (j + 1) m with h | h
  · rw [Nat.mod_eq_of_lt h, slot_eq h (by omega), if_pos (by omega)]
    omega
  · rw [show j + 1 = m by omega, Nat.mod_self, slot_eq (by omega) (by omega), if_neg (by omega)]
    omega

section Ring
variable {K : Type} [Field K] {n m : ℕ}

/-- A slot with a correction of numbers and its scalar product; the multiplier `alpha` is
scratch space of the loops. -/
structure IterationData.Holds (it : IterationData n K) (p : Correction (Fin n → K)) : Prop where
  s : it.s = vec p.s
  y : it.y = vec p.y
  ys : it.ys = .fin (dot n K p.y p.s)

/-- The slots before `j` hold the corrections `ps`, the newest one first. -/
structure Stores (m : ℕ) (lm : List (IterationData n K)) (j : ℕ)
    (ps : List (Correction (Fin n → K))) : Prop where
  length : lm.length = m
  size : ps.length ≤ m
  position : j < m
  entry : ∀ i (h : i < ps.length), ∃ it, lm[slot m j i]? = some it ∧ it.Holds ps[i]

theorem Stores.head {lm : List (IterationData n K)} {j : ℕ} {p : Correction (Fin n → K)}
    {older : List (Correction (Fin n → K))} (h : Stores m lm j (p :: older)) :
    ∃ it, lm[slot m j 0]? = some it ∧ it.Holds p :=
  h.entry 0 (by simp)

/-- A change of the newest slot leaves the older corrections where they are. -/
theorem Stores.older {lm : List (IterationData n K)} {j : ℕ} {p : Correction (Fin n → K)}
    {older : List (Correction (Fin n → K))} (h : Stores m lm j (p :: older))
    (it : IterationData n K) : Stores m (lm.set (slot m j 0) it) (slot m j 0) older where
  length := by rw [List.length_set, h.length]
  size := by
    have := h.size
    rw [List.length_cons] at this
    omega
  position := slot_lt h.position 0
  entry i hi := by
    have hsize := h.size
    rw [List.length_cons] at hsize
    rw [slot_slot_zero h.position (by omega),
      List.getElem?_set_ne (slot_ne h.position (Nat.succ_pos i) (by omega))]
    exact h.entry (i + 1) (Nat.succ_lt_succ hi)

/-- Writing a correction into the next slot drops the oldest one when the ring is full. -/
theorem Stores.push {lm : List (IterationData n K)} {j : ℕ} {ps : List (Correction (Fin n → K))}
    (h : Stores m lm j ps) {it : IterationData n K} {p : Correction (Fin n → K)}
    (hit : it.Holds p) :
    Stores m (lm.set j it) ((j + 1) % m) ((p :: ps).take m) := by
  have hj := h.position
  have hnext : (j + 1) % m < m := Nat.mod_lt _ (by omega)
  refine ⟨by rw [List.length_set, h.length], by rw [List.length_take]; omega, hnext, ?_⟩
  intro i hi
  rw [List.length_take, List.length_cons] at hi
  cases i with
  | zero =>
    rw [slot_succ_zero hj]
    exact ⟨it, List.getElem?_set_self (by rw [h.length]; exact hj), by simpa using hit⟩
  | succ i =>
    have hslot : slot m ((j + 1) % m) (i + 1) = slot m j i := by
      rw [← slot_slot_zero hnext (by omega), slot_succ_zero hj]
    have hne : j ≠ slot m ((j + 1) % m) (i + 1) := by
      have := slot_ne hnext (Nat.succ_pos i) (by omega : i + 1 < m)
      rwa [slot_succ_zero hj] at this
    rw [List.getElem?_set_ne hne, hslot]
    simpa using h.entry i (by omega)

/-! ## The two loops -/

variable [LinearOrder K]

theorem secondLoop_succ (bound : ℕ) (st : Recursion n K) :
    secondLoop m (bound + 1) st = secondLoop m bound st >>= secondLoop m 1 := by
  induction bound generalizing st with
  | zero => rfl
  | succ bound ih =>
    rw [secondLoop]
    cases hit : deref st.lm st.j with
    | error e => rw [secondLoop, hit]; rfl
    | ok it =>
      change secondLoop m (bound + 1) _ = _
      rw [ih, secondLoop, hit]
      rfl

theorem firstLoop_succ_vec {lm : List (IterationData n K)} {j : ℕ} {it : IterationData n K}
    {p : Correction (Fin n → K)} (hit : lm[slot m j 0]? = some it) (hholds : it.Holds p)
    (hp : dot n K p.y p.s ≠ 0) (bound : ℕ) (q : Fin n → K) :
    firstLoop m (bound + 1) { lm := lm, j := j, d := vec q } =
      firstLoop m bound
        { lm := lm.set (slot m j 0) { it with alpha := .fin (dot n K p.s q / dot n K p.y p.s) }
          j := slot m j 0, d := vec (q - (dot n K p.s q / dot n K p.y p.s) • p.y) } := by
  have halpha : vecdot it.s (vec q) / it.ys = .fin (dot n K p.s q / dot n K p.y p.s) := by
    rw [hholds.s, hholds.ys, vecdot_vec, Double.fin_div_fin hp]
  have hd : vecadd (vec q) it.y (-.fin (dot n K p.s q / dot n K p.y p.s)) =
      vec (q - (dot n K p.s q / dot n K p.y p.s) • p.y) := by
    rw [hholds.y, Double.neg_fin, vecadd_vec, neg_smul, ← sub_eq_add_neg]
  rw [firstLoop]
  change deref lm (slot m j 0) >>= _ = _
  rw [deref_eq_ok.mpr hit]
  change firstLoop m bound
    { lm := lm.set (slot m j 0) { it with alpha := vecdot it.s (vec q) / it.ys }
      j := slot m j 0, d := vecadd (vec q) it.y (-(vecdot it.s (vec q) / it.ys)) } = _
  rw [halpha, hd]

theorem secondLoop_one_vec {lm : List (IterationData n K)} {j : ℕ} {it : IterationData n K}
    {p : Correction (Fin n → K)} {alpha : K} (hit : lm[j]? = some it) (hholds : it.Holds p)
    (halpha : it.alpha = .fin alpha) (hp : dot n K p.y p.s ≠ 0) (r : Fin n → K) :
    secondLoop m 1 { lm := lm, j := j, d := vec r } =
      .ok { lm := lm, j := (j + 1) % m,
            d := vec (r + (alpha - dot n K p.y r / dot n K p.y p.s) • p.s) } := by
  have hbeta : vecdot it.y (vec r) / it.ys = .fin (dot n K p.y r / dot n K p.y p.s) := by
    rw [hholds.y, hholds.ys, vecdot_vec, Double.fin_div_fin hp]
  rw [secondLoop]
  change deref lm j >>= _ = _
  rw [deref_eq_ok.mpr hit]
  change Except.ok (Recursion.mk lm ((j + 1) % m)
    (vecadd (vec r) it.s (it.alpha - vecdot it.y (vec r) / it.ys))) = _
  rw [hbeta, halpha, hholds.s, Double.fin_sub_fin, vecadd_vec]

/-- Down the ring and up again, with a scaling at the bottom. The loops change the
multipliers of the slots they visit and nothing else. -/
theorem loops_eq_twoLoop {ps : List (Correction (Fin n → K))} (c : K)
    (hps : ∀ p ∈ ps, dot n K p.y p.s ≠ 0) {lm : List (IterationData n K)} {j : ℕ}
    (hstores : Stores m lm j ps) (q : Fin n → K) :
    ∃ down r, firstLoop m ps.length { lm := lm, j := j, d := vec q } = .ok down ∧
      down.d = vec r ∧ Stores m down.lm j ps ∧
      (∀ a < m, (∀ i < ps.length, slot m j i ≠ a) → down.lm[a]? = lm[a]?) ∧
      secondLoop m ps.length { down with d := vecscale (vec r) (.fin c) } =
        .ok { lm := down.lm, j := j,
              d := vec (twoLoop (dot n K) (fun v => c • v) ps q) } := by
  induction ps generalizing lm j q with
  | nil =>
    refine ⟨_, q, rfl, rfl, hstores, fun _ _ _ => rfl, ?_⟩
    rw [vecscale_vec]
    rfl
  | cons p older ih =>
    rw [List.forall_mem_cons] at hps
    obtain ⟨it, hit, hholds⟩ := hstores.head
    have hj := hstores.position
    have hlt := slot_lt hj 0
    have hsize := hstores.size
    rw [List.length_cons] at hsize
    obtain ⟨down, r, hdown, hr, hstored, hframe, hup⟩ := ih hps.2 (hstores.older
      { it with alpha := .fin (dot n K p.s q / dot n K p.y p.s) })
      (q - (dot n K p.s q / dot n K p.y p.s) • p.y)
    -- the rounds at older slots leave the newest one alone
    have hnewest : down.lm[slot m j 0]? =
        some { it with alpha := .fin (dot n K p.s q / dot n K p.y p.s) } := by
      rw [hframe _ hlt, List.getElem?_set_self (by rw [hstores.length]; exact hlt)]
      intro i hi
      rw [slot_slot_zero hj (by omega)]
      exact (slot_ne hj (Nat.succ_pos i) (by omega)).symm
    refine ⟨down, r, ?_, hr, ⟨hstored.length, hstores.size, hj, ?_⟩, ?_, ?_⟩
    · rw [List.length_cons, firstLoop_succ_vec hit hholds hps.1, hdown]
    · intro i hi
      cases i with
      | zero => exact ⟨_, hnewest, ⟨hholds.s, hholds.y, hholds.ys⟩⟩
      | succ i =>
        rw [List.length_cons] at hi
        rw [← slot_slot_zero hj (by omega)]
        exact hstored.entry i (by omega)
    · intro a ha hne
      rw [hframe a ha, List.getElem?_set_ne (hne 0 (Nat.succ_pos _))]
      intro i hi
      rw [slot_slot_zero hj (by omega)]
      exact hne (i + 1) (Nat.succ_lt_succ hi)
    · rw [List.length_cons, secondLoop_succ, hup]
      change secondLoop m 1 _ = _
      rw [secondLoop_one_vec hnewest ⟨hholds.s, hholds.y, hholds.ys⟩ rfl hps.1,
        slot_zero_succ hj]
      rfl

theorem recursiveDirection_vec {ps : List (Correction (Fin n → K))}
    (hps : ∀ p ∈ ps, dot n K p.y p.s ≠ 0) {lm : List (IterationData n K)} {j : ℕ}
    (hstores : Stores m lm j ps) (c : K) (g : Fin n → K) :
    ∃ lm', recursiveDirection m ps.length j lm (.fin c) (vec g) =
        .ok (lm', vec (inverseHessian (dot n K) (c • LinearMap.id) ps (-g))) ∧
      Stores m lm' j ps := by
  obtain ⟨down, r, hdown, hr, hstored, -, hup⟩ := loops_eq_twoLoop c hps hstores (-g)
  refine ⟨down.lm, ?_, hstored⟩
  rw [recursiveDirection, vecncpy_vec, hdown]
  change (secondLoop m ps.length { down with d := vecscale down.d (.fin c) } >>= fun up =>
    pure (up.lm, up.d)) = _
  rw [hr, hup, ← twoLoop_eq dot_symm]
  rfl

end Ring

/-! ## The direction of a round -/

section Direction
variable {K : Type} [Field K] {n : ℕ}

/-- The factor of the identity at the bottom of the loops. -/
def scaling : List (Correction (Fin n → K)) → K
  | [] => 1
  | p :: _ => dot n K p.y p.s / dot n K p.y p.y

/-- The direction for the gradient `g` after the corrections `ps`, of which the `m` newest
ones are remembered. -/
def memoryDirection (m : ℕ) (ps : List (Correction (Fin n → K))) (g : Fin n → K) : Fin n → K :=
  inverseHessian (dot n K) (scaling ps • LinearMap.id) (ps.take m) (-g)

@[simp] theorem memoryDirection_nil (m : ℕ) (g : Fin n → K) : memoryDirection m [] g = -g := by
  simp [memoryDirection, scaling, inverseHessian]

variable [LinearOrder K] [IsStrictOrderedRing K]

theorem dot_self_pos {v : Fin n → K} (hv : v ≠ 0) : 0 < dot n K v v := by
  have hnonneg : 0 ≤ dotProduct v v := Finset.sum_nonneg fun i _ => mul_self_nonneg (v i)
  have hne : dotProduct v v ≠ 0 := dotProduct_self_eq_zero.not.mpr hv
  exact hnonneg.lt_of_ne hne.symm

theorem scaling_pos {ps : List (Correction (Fin n → K))} (hps : ∀ p ∈ ps, Curved (dot n K) p) :
    0 < scaling ps := by
  cases ps with
  | nil => exact one_pos
  | cons p older =>
    have hp : Curved (dot n K) p := hps p List.mem_cons_self
    exact div_pos hp (dot_self_pos hp.ne_zero)

/-- The operator behind the direction is symmetric and positive. -/
theorem inverseHessian_take_isPositive (m : ℕ) {ps : List (Correction (Fin n → K))}
    (hps : ∀ p ∈ ps, Curved (dot n K) p) :
    IsPositive (dot n K) (inverseHessian (dot n K) (scaling ps • LinearMap.id) (ps.take m)) :=
  inverseHessian_isPositive dot_symm
    (smul_id_isPositive (fun _ hv => dot_self_pos hv) (scaling_pos hps))
    (fun p hp => hps p (List.mem_of_mem_take hp))

theorem memoryDirection_descends (m : ℕ) {ps : List (Correction (Fin n → K))}
    (hps : ∀ p ∈ ps, Curved (dot n K) p) {g : Fin n → K} (hg : g ≠ 0) :
    dot n K g (memoryDirection m ps g) < 0 :=
  (inverseHessian_take_isPositive m hps).neg_descends hg

/-- The end of a round computes the direction from the remembered corrections and the gradient
that the method uses. -/
theorem nextState_vec {param : LbfgsParameter K} {st : LbfgsState n K}
    (last : LineSearchState n K) {ps : List (Correction (Fin n → K))} {x x' g g' u : Fin n → K}
    {pg : Vec n K} (hu : usedGradient param last.g pg = vec u) (hx : st.x = vec x)
    (hg : st.g = vec g) (hx' : last.x = vec x') (hg' : last.g = vec g')
    (hstores : Stores param.m.toNat st.lm st.stop (ps.take param.m.toNat))
    (hk : st.k = ps.length + 1)
    (hps : ∀ p ∈ (⟨x' - x, g' - g⟩ :: ps), Curved (dot n K) p) (pf : List (Double K)) :
    ∃ lm, nextState param st last pg pf =
        .ok { x := last.x, fx := last.f, g := last.g, pg := pg,
              d := constrainDirection param
                (vec (memoryDirection param.m.toNat (⟨x' - x, g' - g⟩ :: ps) u)) pg,
              step := 1, lm := lm, stop := (st.stop + 1) % param.m.toNat, k := st.k + 1, pf := pf } ∧
      Stores param.m.toNat lm ((st.stop + 1) % param.m.toNat)
        ((⟨x' - x, g' - g⟩ :: ps).take param.m.toNat) := by
  set m := param.m.toNat with hm
  set p : Correction (Fin n → K) := ⟨x' - x, g' - g⟩ with hp
  have hlt : st.stop < st.lm.length := by rw [hstores.length]; exact hstores.position
  obtain ⟨it, hit⟩ : ∃ it, st.lm[st.stop]? = some it := ⟨_, List.getElem?_eq_getElem hlt⟩
  have hcurved : Curved (dot n K) p := hps p List.mem_cons_self
  have hholds : IterationData.Holds
      { it with s := vec p.s, y := vec p.y, ys := .fin (dot n K p.y p.s) } p := ⟨rfl, rfl, rfl⟩
  have htake : (p :: ps.take m).take m = (p :: ps).take m := by
    rcases m with - | m
    · rfl
    · rw [List.take_succ_cons, List.take_succ_cons, List.take_take, min_eq_left (by omega)]
  have hpush := hstores.push hholds
  rw [htake] at hpush
  have hlength : ((p :: ps).take m).length = if m ≤ st.k then m else st.k := by
    rw [List.length_take, List.length_cons, ← hk]
    split <;> omega
  obtain ⟨lm, hdirection, hstored⟩ := recursiveDirection_vec
    (fun q hq => (hps q (List.mem_of_mem_take hq)).ne') hpush (scaling (p :: ps)) u
  refine ⟨lm, ?_, hstored⟩
  have hscale : (.fin (dot n K p.y p.s) : Double K) / .fin (dot n K p.y p.y) =
      .fin (scaling (p :: ps)) := Double.fin_div_fin (dot_self_pos hcurved.ne_zero).ne'
  rw [hlength] at hdirection
  rw [hg'] at hu
  simp only [nextState, deref_eq_ok.mpr hit, hu, hx, hg, hx', hg', vecdiff_vec, vecdot_vec, ← hm]
  change (recursiveDirection m (if m ≤ st.k then m else st.k) ((st.stop + 1) % m)
    (st.lm.set st.stop { it with s := vec p.s, y := vec p.y, ys := .fin (dot n K p.y p.s) })
    (.fin (dot n K p.y p.s) / .fin (dot n K p.y p.y)) (vec u) >>= _) = _
  rw [hscale, hdirection]
  rfl

end Direction
end Plfit
