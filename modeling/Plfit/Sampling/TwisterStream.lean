import Mathlib
import Plfit.Library.RingRecurrence
import Plfit.Model.MersenneTwister

/-! # The output stream of the Mersenne Twister

The buffer is a ring with one cell for every word of a block. Renewing it in place is one step
of the recurrence for every cell, so the outputs across all blocks are a single stream.
-/
namespace Plfit
open RingRecurrence

def twisterRecurrence : Recurrence UInt32 where
  order := mtLen
  tap := 397
  next := fun u v w =>
    let s := (u &&& 0x80000000) ||| (v &&& 0x7FFFFFFF)
    w ^^^ (s >>> 1) ^^^ magic s
  one_lt_order := by decide
  tap_lt_order := by decide

/-! ## Renewing the buffer -/

/-- The cells that the assignments of `regenerate` write and read. -/
def regenerateAccesses : List (ℕ × ℕ × ℕ) :=
  (List.range (mtLen - 397)).map (fun i => (i, i + 1, i + 397)) ++
    (List.range' (mtLen - 397) 396).map (fun i => (i, i + 1, i - (mtLen - 397))) ++
    [(mtLen - 1, 0, 396)]

theorem regenerate_eq_foldl (b : Vector UInt32 mtLen) :
    regenerate b = regenerateAccesses.foldl (fun b a => regenerateWord a.1 a.2.1 a.2.2 b) b := by
  unfold regenerateAccesses
  rw [List.foldl_append, List.foldl_append, List.foldl_map, List.foldl_map]
  rfl

/-- The assignments go through the ring once. -/
theorem regenerateAccesses_eq : regenerateAccesses =
    (List.range mtLen).map (fun i => (i, (i + 1) % mtLen, (i + 397) % mtLen)) := by
  have hlen : mtLen = 624 := rfl
  have hsplit : List.range mtLen =
      List.range (mtLen - 397) ++ List.range' (mtLen - 397) 396 ++ [mtLen - 1] := by
    rw [hlen, List.range_eq_range', List.range_eq_range']
    rw [show List.range' (624 - 397) 396 = List.range' (0 + (624 - 397)) 396 from rfl,
      List.range'_append_1, show [624 - 1] = List.range' (0 + (624 - 397 + 396)) 1 from rfl,
      List.range'_append_1]
  rw [hsplit, List.map_append, List.map_append]
  unfold regenerateAccesses
  refine congrArg₂ (· ++ ·) (congrArg₂ (· ++ ·) ?_ ?_) rfl
  · apply List.map_congr_left
    intro i hi
    rw [List.mem_range] at hi
    rw [Nat.mod_eq_of_lt (by omega), Nat.mod_eq_of_lt (by omega)]
  · apply List.map_congr_left
    intro i hi
    rw [List.mem_range'_1] at hi
    have hnext : (i + 1) % mtLen = i + 1 := Nat.mod_eq_of_lt (by omega)
    have htap : (i + 397) % mtLen = i - (mtLen - 397) := by
      rw [hlen] at hi ⊢
      omega
    rw [hnext, htap]

def cellsOf (b : Vector UInt32 mtLen) (i : ℕ) : UInt32 := b.getD i 0

theorem cellsOf_setIfInBounds (b : Vector UInt32 mtLen) {i : ℕ} (hi : i < mtLen) (a : UInt32) :
    cellsOf (b.setIfInBounds i a) = Function.update (cellsOf b) i a := by
  funext j
  unfold cellsOf Vector.getD
  rcases eq_or_ne j i with rfl | hne
  · rw [Function.update_self]
    simp [hi]
  · rw [Function.update_of_ne hne]
    simp [Array.getElem?_setIfInBounds_ne hne.symm]

theorem Window.regenerateWord {y : ℕ → UInt32} (hy : twisterRecurrence.Obeys y) {i : ℕ}
    (hi : i < mtLen) {b : Vector UInt32 mtLen}
    (h : twisterRecurrence.Window y i (cellsOf b)) :
    twisterRecurrence.Window y (i + 1)
      (cellsOf (regenerateWord i ((i + 1) % mtLen) ((i + 397) % mtLen) b)) := by
  have hstep := h.step hy
  unfold Plfit.regenerateWord
  rw [cellsOf_setIfInBounds b hi]
  rw [show twisterRecurrence.order = mtLen from rfl, Nat.mod_eq_of_lt hi] at hstep
  exact hstep

/-- Renewing the buffer moves the window by one block. -/
theorem Window.regenerate {y : ℕ → UInt32} (hy : twisterRecurrence.Obeys y)
    {b : Vector UInt32 mtLen} (h : twisterRecurrence.Window y 0 (cellsOf b)) :
    twisterRecurrence.Window (fun k => y (mtLen + k)) 0 (cellsOf (regenerate b)) := by
  rw [regenerate_eq_foldl, regenerateAccesses_eq, List.foldl_map]
  have hfront : ∀ i ≤ mtLen, twisterRecurrence.Window y i (cellsOf ((List.range i).foldl
      (fun b i => Plfit.regenerateWord i ((i + 1) % mtLen) ((i + 397) % mtLen) b) b)) := by
    intro i hi
    induction i with
    | zero => exact h
    | succ i ih =>
      rw [List.range_succ, List.foldl_append]
      exact Window.regenerateWord hy hi (ih (Nat.le_of_succ_le hi))
  exact (hfront mtLen le_rfl).of_block

/-! ## The stream of a state -/

/-- A state that some number of calls can leave behind: the offset is a whole number of words
inside the buffer or just behind it. -/
def MtRng.Valid (rng : MtRng) : Prop := ∃ i ≤ mtLen, rng.mtIndex = 4 * i

/-- A state reads the stream `y` from its position `i` on. -/
def MtRng.Reads (rng : MtRng) (y : ℕ → UInt32) (i : ℕ) : Prop :=
  i ≤ mtLen ∧ rng.mtIndex = 4 * i ∧ twisterRecurrence.Obeys y ∧
    twisterRecurrence.Window y 0 (cellsOf rng.mtBuffer)

theorem MtRng.Valid.reads {rng : MtRng} (h : rng.Valid) :
    ∃ i, rng.Reads (twisterRecurrence.stream (cellsOf rng.mtBuffer)) i := by
  obtain ⟨i, hi, hindex⟩ := h
  exact ⟨i, hi, hindex, Recurrence.obeys_stream _, Recurrence.window_stream _⟩

theorem cells_of_window {y : ℕ → UInt32} {b : Vector UInt32 mtLen}
    (h : twisterRecurrence.Window y 0 (cellsOf b)) {i : ℕ} (hi : i < mtLen) :
    b.getD i 0 = y i := by
  have hcell := h i (Nat.zero_le i) (by rw [Nat.zero_add]; exact hi)
  rwa [show twisterRecurrence.order = mtLen from rfl, Nat.mod_eq_of_lt hi] at hcell

/-- A call returns the next word of the stream and moves on. -/
theorem MtRng.Reads.next {rng : MtRng} {y : ℕ → UInt32} {i : ℕ} (h : rng.Reads y i) :
    (mtRandom rng).1 = y i ∧ ∃ z j, (mtRandom rng).2.Reads z j ∧ 0 < j ∧
      ∀ k, z (j + k) = y (i + 1 + k) := by
  obtain ⟨hi, hindex, hy, hwindow⟩ := h
  have hquot : ∀ j, 4 * j / 4 = j := fun j => Nat.mul_div_cancel_left j (by decide)
  unfold mtRandom
  rcases hi.lt_or_eq with hlt | rfl
  · have hne : rng.mtIndex ≠ mtLen * 4 := by omega
    rw [if_neg hne]
    dsimp only
    rw [hindex, hquot]
    refine ⟨cells_of_window hwindow hlt, y, i + 1, ⟨hlt, ?_, hy, hwindow⟩, Nat.succ_pos i, ?_⟩
    · rw [Nat.mul_succ]
    · exact fun k => rfl
  · have heq : rng.mtIndex = mtLen * 4 := by omega
    rw [if_pos heq]
    dsimp only
    rw [Nat.zero_div]
    have hwindow' := Window.regenerate hy hwindow
    have hpos : 0 < mtLen := twisterRecurrence.order_pos
    have hfirst := cells_of_window hwindow' hpos
    rw [Nat.add_zero] at hfirst
    refine ⟨hfirst, fun k => y (mtLen + k), 1, ⟨hpos, rfl, hy.shift mtLen, hwindow'⟩,
      Nat.one_pos, ?_⟩
    intro k
    rw [Nat.add_assoc]

theorem MtRng.Reads.output {rng : MtRng} {y : ℕ → UInt32} {i : ℕ} (h : rng.Reads y i) (k : ℕ) :
    rng.output k = y (i + k) := by
  induction k generalizing rng y i with
  | zero => exact h.next.1
  | succ k ih =>
    obtain ⟨-, z, j, hz, -, heq⟩ := h.next
    rw [MtRng.output, ih hz, heq, Nat.add_assoc, Nat.add_comm 1]

theorem MtRng.Valid.obeys {rng : MtRng} (h : rng.Valid) : twisterRecurrence.Obeys rng.output := by
  obtain ⟨i, hi⟩ := h.reads
  have hstream : rng.output =
      fun k => twisterRecurrence.stream (cellsOf rng.mtBuffer) (i + k) := funext hi.output
  rw [hstream]
  exact (Recurrence.obeys_stream _).shift i

theorem MtRng.Valid.next {rng : MtRng} (h : rng.Valid) : (mtRandom rng).2.Valid := by
  obtain ⟨i, hi⟩ := h.reads
  obtain ⟨-, z, j, ⟨hj, hindex, -⟩, -⟩ := hi.next
  exact ⟨j, hj, hindex⟩

theorem MtRng.Valid.iterate {rng : MtRng} (h : rng.Valid) (k : ℕ) :
    ((fun r => (mtRandom r).2)^[k] rng).Valid := by
  induction k with
  | zero => exact h
  | succ k ih =>
    rw [Function.iterate_succ_apply']
    exact ih.next

theorem valid_of_buffer (b : Vector UInt32 mtLen) : MtRng.Valid { mtIndex := 0, mtBuffer := b } :=
  ⟨0, Nat.zero_le _, rfl⟩

theorem output_of_buffer (b : Vector UInt32 mtLen) {k : ℕ} (hk : k < mtLen) :
    MtRng.output { mtIndex := 0, mtBuffer := b } k = b.getD k 0 := by
  have hreads : MtRng.Reads { mtIndex := 0, mtBuffer := b }
      (twisterRecurrence.stream (cellsOf b)) 0 :=
    ⟨Nat.zero_le _, rfl, Recurrence.obeys_stream _, Recurrence.window_stream _⟩
  rw [hreads.output, Nat.zero_add]
  exact Recurrence.stream_of_lt hk

theorem regenerateAccesses_lt : ∀ a ∈ regenerateAccesses,
    a.1 < mtLen ∧ a.2.1 < mtLen ∧ a.2.2 < mtLen := by
  have hpos : 0 < mtLen := twisterRecurrence.order_pos
  rw [regenerateAccesses_eq]
  intro a ha
  obtain ⟨i, hi, rfl⟩ := List.mem_map.mp ha
  exact ⟨List.mem_range.mp hi, Nat.mod_lt _ hpos, Nat.mod_lt _ hpos⟩

/-- The outputs of a fresh generator are its buffer followed by the recurrence, for ever, and
the offset always points to a word of the buffer or just behind it. -/
theorem mtRandom_recurrence (b : Vector UInt32 mtLen) :
    (∀ k < mtLen, MtRng.output { mtIndex := 0, mtBuffer := b } k = b.getD k 0) ∧
      (∀ k, let y := MtRng.output { mtIndex := 0, mtBuffer := b }
        let s := (y k &&& 0x80000000) ||| (y (k + 1) &&& 0x7FFFFFFF)
        y (k + 624) = y (k + 397) ^^^ (s >>> 1) ^^^ ((s &&& 1) * 0x9908B0DF)) ∧
      (∀ k, let rng := (fun r => (mtRandom r).2)^[k] { mtIndex := 0, mtBuffer := b }
        4 ∣ rng.mtIndex ∧ rng.mtIndex ≤ 2496) ∧
      regenerate b = regenerateAccesses.foldl (fun b a => regenerateWord a.1 a.2.1 a.2.2 b) b ∧
      ∀ a ∈ regenerateAccesses, a.1 < mtLen ∧ a.2.1 < mtLen ∧ a.2.2 < mtLen := by
  have hvalid := valid_of_buffer b
  refine ⟨fun k hk => output_of_buffer b hk, hvalid.obeys, ?_, regenerate_eq_foldl b,
    regenerateAccesses_lt⟩
  intro k
  obtain ⟨i, hi, hindex⟩ := hvalid.iterate k
  have hlen : mtLen = 624 := rfl
  dsimp only
  rw [hindex]
  exact ⟨Nat.dvd_mul_right 4 i, by omega⟩

/-! ## Generators seeded from another one -/

theorem MtRng.output_iterate (rng : MtRng) (i k : ℕ) :
    ((fun r => (mtRandom r).2)^[i] rng).output k = rng.output (i + k) := by
  induction i generalizing rng with
  | zero => rw [Nat.zero_add, Function.iterate_zero_apply]
  | succ i ih => rw [Function.iterate_succ_apply, ih, Nat.succ_add, MtRng.output]

theorem mtInitFromRng_eq (seeder : MtRng) :
    ∃ b, mtInitFromRng seeder =
        ({ mtIndex := 0, mtBuffer := b }, (fun r => (mtRandom r).2)^[mtLen] seeder) ∧
      ∀ k < mtLen, b.getD k 0 = seeder.output k := by
  have hfront : ∀ i ≤ mtLen, ∃ b, (List.range i).foldl
      (fun (st : Vector UInt32 mtLen × MtRng) i =>
        (st.1.setIfInBounds i (mtRandom st.2).1, (mtRandom st.2).2))
      (Vector.replicate mtLen 0, seeder) = (b, (fun r => (mtRandom r).2)^[i] seeder) ∧
      ∀ k < i, b.getD k 0 = seeder.output k := by
    intro i hi
    induction i with
    | zero => exact ⟨_, rfl, fun k hk => absurd hk (Nat.not_lt_zero k)⟩
    | succ i ih =>
      obtain ⟨b, hfold, hb⟩ := ih (Nat.le_of_succ_le hi)
      rw [List.range_succ, List.foldl_append, hfold, List.foldl_cons, List.foldl_nil,
        Function.iterate_succ_apply']
      refine ⟨_, rfl, ?_⟩
      intro k hk
      have hword : (mtRandom ((fun r => (mtRandom r).2)^[i] seeder)).1 = seeder.output i := by
        have hshift := seeder.output_iterate i 0
        rwa [Nat.add_zero] at hshift
      have hcells := congrFun (cellsOf_setIfInBounds b hi
        (mtRandom ((fun r => (mtRandom r).2)^[i] seeder)).1) k
      unfold cellsOf at hcells
      rw [hcells]
      rcases Nat.lt_succ_iff_lt_or_eq.mp hk with hlt | rfl
      · rw [Function.update_of_ne hlt.ne]
        exact hb k hlt
      · rw [Function.update_self, hword]
  obtain ⟨b, hfold, hb⟩ := hfront mtLen le_rfl
  refine ⟨b, ?_, hb⟩
  unfold mtInitFromRng
  rw [show (List.range mtLen).foldl (fun (st : Vector UInt32 mtLen × MtRng) i =>
    (st.1.setIfInBounds i (mtRandom st.2).1, (mtRandom st.2).2))
      (Vector.replicate mtLen 0, seeder) = _ from hfold]

/-- Without tempering the seeded generator repeats the whole stream of its seeder, and the
seeder goes on one block later. -/
theorem mtInitFromRng_output {seeder : MtRng} (h : seeder.Valid) :
    (mtInitFromRng seeder).1.output = seeder.output ∧ (mtInitFromRng seeder).1.Valid ∧
      (mtInitFromRng seeder).2.Valid ∧
      ∀ k, (mtInitFromRng seeder).2.output k = seeder.output (mtLen + k) := by
  obtain ⟨b, heq, hb⟩ := mtInitFromRng_eq seeder
  have hvalid := h.iterate mtLen
  have hrest := seeder.output_iterate mtLen
  generalize (fun r => (mtRandom r).2)^[mtLen] seeder = rest at heq hvalid hrest
  rw [heq]
  refine ⟨?_, valid_of_buffer b, hvalid, hrest⟩
  apply (valid_of_buffer b).obeys.ext h.obeys
  intro k hk
  rw [output_of_buffer b hk, hb k hk]

/-- The second child repeats the stream of the first one from its second block on. -/
theorem children_output {master : MtRng} (h : master.Valid) (k : ℕ) :
    (mtInitFromRng (mtInitFromRng master).2).1.output k =
      (mtInitFromRng master).1.output (mtLen + k) := by
  obtain ⟨hfirst, -, hvalid, hrest⟩ := mtInitFromRng_output h
  obtain ⟨hsecond, -, -, -⟩ := mtInitFromRng_output hvalid
  calc (mtInitFromRng (mtInitFromRng master).2).1.output k
      = (mtInitFromRng master).2.output k := congrFun hsecond k
    _ = master.output (mtLen + k) := hrest k
    _ = (mtInitFromRng master).1.output (mtLen + k) := (congrFun hfirst (mtLen + k)).symm

/-- Two children of one master are to draw from streams of their own. -/
def ChildrenSeparate (master : MtRng) : Prop :=
  let first := mtInitFromRng master
  let second := mtInitFromRng first.2
  (∀ s, ¬ ∀ k, second.1.output k = first.1.output (s + k)) ∧
    first.1.output ≠ first.2.output ∧ second.1.output ≠ second.2.output

/-- No master has such children, whether its stream is periodic or not. -/
theorem not_childrenSeparate {master : MtRng} (h : master.Valid) : ¬ ChildrenSeparate master := by
  intro hseparate
  exact hseparate.1 mtLen (children_output h)

/-! A master whose stream is one, then zeros until the next block. -/

def oneThenZeros : MtRng :=
  { mtIndex := 0, mtBuffer := (Vector.replicate mtLen 0).setIfInBounds 0 1 }

theorem output_oneThenZeros {k : ℕ} (hk : k < mtLen) :
    oneThenZeros.output k = if k = 0 then 1 else 0 := by
  have hpos : 0 < mtLen := twisterRecurrence.order_pos
  have hcells := congrFun (cellsOf_setIfInBounds (Vector.replicate mtLen 0) hpos 1) k
  have hzero : cellsOf (Vector.replicate mtLen 0) k = 0 := by
    unfold cellsOf Vector.getD
    simp [hk]
  rw [oneThenZeros, output_of_buffer _ hk]
  unfold cellsOf at hcells hzero
  rw [hcells, Function.update_apply, hzero]

/-- Its stream has no period that divides the order. -/
theorem oneThenZeros_not_periodic {d : ℕ} (hd : d ∣ mtLen) :
    ¬ ∀ k, oneThenZeros.output (k + d) = oneThenZeros.output k := by
  intro hperiod
  obtain ⟨q, hq⟩ := hd
  have hmultiple : ∀ q, oneThenZeros.output (d * q) = oneThenZeros.output 0 := by
    intro q
    induction q with
    | zero => rw [Nat.mul_zero]
    | succ q ih => rw [Nat.mul_succ, hperiod, ih]
  have hword : oneThenZeros.output mtLen = 0 := by
    have hrec := (valid_of_buffer oneThenZeros.mtBuffer).obeys 0
    have h0 := output_oneThenZeros twisterRecurrence.order_pos
    have h1 := output_oneThenZeros twisterRecurrence.one_lt_order
    have htap := output_oneThenZeros twisterRecurrence.tap_lt_order
    change oneThenZeros.output (0 + mtLen) = twisterRecurrence.next (oneThenZeros.output 0)
      (oneThenZeros.output (0 + 1)) (oneThenZeros.output (0 + twisterRecurrence.tap)) at hrec
    rw [Nat.zero_add, Nat.zero_add, Nat.zero_add, h0, h1, htap] at hrec
    rw [hrec]
    decide
  have hfirst := output_oneThenZeros twisterRecurrence.order_pos
  rw [← hmultiple q, ← hq, hword] at hfirst
  exact absurd hfirst (by decide)

theorem not_childrenSeparate_oneThenZeros : ¬ ChildrenSeparate oneThenZeros :=
  not_childrenSeparate (valid_of_buffer _)

/-- The streams of its children overlap although it is not periodic. -/
theorem children_overlap :
    (∀ d, d ∣ mtLen → ¬ ∀ k, oneThenZeros.output (k + d) = oneThenZeros.output k) ∧
      ¬ ∀ s, ¬ ∀ k, (mtInitFromRng (mtInitFromRng oneThenZeros).2).1.output k =
        (mtInitFromRng oneThenZeros).1.output (s + k) := by
  refine ⟨fun _ hd => oneThenZeros_not_periodic hd, ?_⟩
  intro hshift
  exact hshift mtLen (children_output (valid_of_buffer _))

end Plfit
