import Mathlib
import Plfit.Input.ReadingLoop

/-! # Files with bytes that cannot be parsed

A file is refused when the counter of its parse errors is not zero. The counter has sixteen bits
and goes on counting after the last message, so it comes back to zero.
-/
namespace Plfit
open ExactArithmetic

section Files
variable {K : Type} [Field K] [LinearOrder K] [FloorRing K]

def IsInteger (x : Double K) : Prop := ∃ z : ℤ, x = .fin (z : K)

variable {fscanf : Fscanf K} {text : List Char} {items : List (Item K)}

def ExitsWith (fscanf : Fscanf K) (forceContinuous : Bool) (text : List Char)
    (out : FileOutcome K) : Prop :=
  ∃ enough, ∀ rounds, enough ≤ rounds → processFile fscanf rounds forceContinuous text = .ok out

/-- A fit begins exactly on the files with a number and without a byte that cannot be parsed, and
then on all numbers in their order, as a discrete fit if they are integers and continuous fitting
was not forced. -/
def ReadsAsDocumented (fscanf : Fscanf K) (forceContinuous : Bool) (text : List Char)
    (items : List (Item K)) : Prop :=
  ∃ out, ExitsWith fscanf forceContinuous text out ∧
    ((∃ data discrete, out = .fits data discrete) ↔
      numbers items ≠ [] ∧ unparsableBytes items = 0) ∧
    ∀ data discrete, out = .fits data discrete → data = numbers items ∧
      (discrete = true ↔ forceContinuous = false ∧ ∀ x ∈ numbers items, IsInteger x)

def exitOf (forceContinuous : Bool) (items : List (Item K)) : FileOutcome K :=
  if unparsableBytes items % 2 ^ 16 ≠ 0 then .corrupted
  else if numbers items = [] then .noData
  else .fits (numbers items) (!forceContinuous && (numbers items).all (fun x => x.floor == x))

theorem exitOf_eq_fits_iff {forceContinuous discrete : Bool} {data : List (Double K)} :
    exitOf forceContinuous items = .fits data discrete ↔
      unparsableBytes items % 2 ^ 16 = 0 ∧ numbers items ≠ [] ∧ data = numbers items ∧
        discrete = (!forceContinuous && (numbers items).all (fun x => x.floor == x)) := by
  unfold exitOf
  split_ifs with hbad hnone
  · exact ⟨nofun, fun h => absurd h.1 hbad⟩
  · exact ⟨nofun, fun h => absurd hnone h.2.1⟩
  · rw [FileOutcome.fits.injEq, eq_comm, @eq_comm _ _ discrete, and_iff_right (not_not.mp hbad),
      and_iff_right hnone]

theorem Reads.exitsWith (h : Reads fscanf text items) (forceContinuous : Bool) :
    ExitsWith fscanf forceContinuous text (exitOf forceContinuous items) := by
  obtain ⟨enough, hruns⟩ := h.runs
  refine ⟨enough, ?_⟩
  intro rounds hrounds
  obtain ⟨final, hrun, hfinal⟩ := hruns rounds hrounds (ReadState.start K forceContinuous text) rfl
    (by simp [ReadState.start]) (by simp [ReadState.start])
  have hdata : final.data = numbers items := hfinal.data
  have hwarned : final.warned = unparsableBytes items % 2 ^ 16 := by
    rw [hfinal.warned, ReadState.start, Nat.zero_add]
  have hdiscrete : final.discrete =
      (!forceContinuous && (numbers items).all (fun x => x.floor == x)) := hfinal.discrete
  unfold processFile exitOf
  simp only [hrun, bind, Except.bind, hdata, hwarned, hdiscrete, List.length_eq_zero_iff]
  split_ifs <;> rfl

theorem ExitsWith.unique {forceContinuous : Bool} {out out' : FileOutcome K}
    (h : ExitsWith fscanf forceContinuous text out)
    (h' : ExitsWith fscanf forceContinuous text out') : out = out' := by
  obtain ⟨enough, h⟩ := h
  obtain ⟨enough', h'⟩ := h'
  exact Except.ok.inj ((h _ (le_max_left enough enough')).symm.trans (h' _ (le_max_right _ _)))

variable [IsStrictOrderedRing K]

/-- The infinities equal their floor as well. -/
theorem floor_beq_iff (x : Double K) :
    (x.floor == x) = true ↔ IsInteger x ∨ x = .pinf ∨ x = .ninf := by
  cases x with
  | nan => simp [IsInteger, Double.floor, Double.beq_def, Double.eqBool]
  | ninf => simp [Double.floor, Double.beq_def, Double.eqBool]
  | pinf => simp [Double.floor, Double.beq_def, Double.eqBool]
  | fin x =>
    simp only [Double.floor, Double.fin_beq_fin, decide_eq_true_eq, IsInteger, reduceCtorEq,
      or_false, Double.fin.injEq]
    constructor
    · intro h
      exact ⟨⌊x⌋, h.symm⟩
    · rintro ⟨z, rfl⟩
      rw [Int.floor_intCast]

/-- The files on which the reading loop does what is documented. -/
theorem reads_as_documented_iff (hreads : Reads fscanf text items) (forceContinuous : Bool) :
    ReadsAsDocumented fscanf forceContinuous text items ↔
      (numbers items ≠ [] → unparsableBytes items % 2 ^ 16 = 0 →
        unparsableBytes items = 0 ∧
        (forceContinuous = false →
          (∀ x ∈ numbers items, IsInteger x ∨ x = .pinf ∨ x = .ninf) →
            ∀ x ∈ numbers items, IsInteger x)) := by
  have hexits := hreads.exitsWith forceContinuous
  have hflag : (!forceContinuous && (numbers items).all (fun x => x.floor == x)) = true ↔
      forceContinuous = false ∧ ∀ x ∈ numbers items, IsInteger x ∨ x = .pinf ∨ x = .ninf := by
    rw [Bool.and_eq_true, Bool.not_eq_true', List.all_eq_true]
    simp only [floor_beq_iff]
  have hweaken : (∀ x ∈ numbers items, IsInteger x) →
      ∀ x ∈ numbers items, IsInteger x ∨ x = .pinf ∨ x = .ninf := fun h x hx => Or.inl (h x hx)
  constructor
  · rintro ⟨out, hout, hbegins, hfit⟩ hnumbers hcounter
    obtain rfl := hout.unique hexits
    have hrun : exitOf forceContinuous items = .fits (numbers items)
        (!forceContinuous && (numbers items).all (fun x => x.floor == x)) :=
      exitOf_eq_fits_iff.mpr ⟨hcounter, hnumbers, rfl, rfl⟩
    refine ⟨(hbegins.mp ⟨_, _, hrun⟩).2, ?_⟩
    intro hforce hfloors
    exact ((hfit _ _ hrun).2.mp (hflag.mpr ⟨hforce, hfloors⟩)).2
  · intro h
    refine ⟨_, hexits, ⟨?_, ?_⟩, ?_⟩
    · rintro ⟨data, discrete, hrun⟩
      obtain ⟨hcounter, hnumbers, -⟩ := exitOf_eq_fits_iff.mp hrun
      exact ⟨hnumbers, (h hnumbers hcounter).1⟩
    · rintro ⟨hnumbers, hnone⟩
      exact ⟨_, _, exitOf_eq_fits_iff.mpr ⟨by rw [hnone, Nat.zero_mod], hnumbers, rfl, rfl⟩⟩
    · intro data discrete hrun
      obtain ⟨hcounter, hnumbers, rfl, rfl⟩ := exitOf_eq_fits_iff.mp hrun
      refine ⟨rfl, hflag.trans ⟨?_, ?_⟩⟩
      · rintro ⟨hforce, hfloors⟩
        exact ⟨hforce, (h hnumbers hcounter).2 hforce hfloors⟩
      · rintro ⟨hforce, hintegers⟩
        exact ⟨hforce, hweaken hintegers⟩

end Files

section Counter

theorem reads_one : Reads (scanDecimal ℚ) ['1'] [.number (1 : ℕ)] := by
  have hscan : scanDecimal ℚ ['1'] = .number (1 : ℕ) [] := rfl
  exact Reads.number hscan (Reads.done rfl)

/-- Two numbers, a comment behind the second, and a third number on the next line. -/
theorem reads_as_documented_comment :
    ReadsAsDocumented (scanDecimal ℚ) false ['1', ' ', '1', '2', '#', 'a', '4', '\n', '3']
      [.number (1 : ℕ), .number (12 : ℕ), .comment, .number (3 : ℕ)] := by
  have hfirst : scanDecimal ℚ ['1', ' ', '1', '2', '#', 'a', '4', '\n', '3'] =
      .number (1 : ℕ) [' ', '1', '2', '#', 'a', '4', '\n', '3'] := rfl
  have hsecond : scanDecimal ℚ [' ', '1', '2', '#', 'a', '4', '\n', '3'] =
      .number (12 : ℕ) ['#', 'a', '4', '\n', '3'] := rfl
  have hcomment : scanDecimal ℚ ['#', 'a', '4', '\n', '3'] =
      .failed ('#' :: ['a', '4'] ++ '\n' :: ['3']) := rfl
  have hthird : scanDecimal ℚ ['3'] = .number (3 : ℕ) [] := rfl
  have hreads : Reads (scanDecimal ℚ) ['1', ' ', '1', '2', '#', 'a', '4', '\n', '3']
      [.number (1 : ℕ), .number (12 : ℕ), .comment, .number (3 : ℕ)] := by
    refine Reads.number hfirst (Reads.number hsecond (Reads.comment hcomment (by decide) ?_))
    exact Reads.number hthird (Reads.done rfl)
  refine (reads_as_documented_iff hreads false).mpr ?_
  intro _ _
  refine ⟨rfl, ?_⟩
  intro _ _ x hx
  simp only [numbers, List.mem_cons, List.not_mem_nil, or_false] at hx
  rcases hx with rfl | rfl | rfl
  · exact ⟨1, rfl⟩
  · exact ⟨12, rfl⟩
  · exact ⟨3, rfl⟩

theorem reads_letters {text : List Char} {items : List (Item ℚ)}
    (h : Reads (scanDecimal ℚ) text items) (n : ℕ) :
    Reads (scanDecimal ℚ) (List.replicate n 'x' ++ text) (List.replicate n .unparsable ++ items) := by
  induction n with
  | zero => exact h
  | succ n ih =>
    rw [List.replicate_succ, List.replicate_succ]
    have hscan : scanDecimal ℚ ('x' :: (List.replicate n 'x' ++ text)) =
        .failed ('x' :: (List.replicate n 'x' ++ text)) := rfl
    exact Reads.unparsable hscan (by simp [fgetc]) ih

theorem numbers_letters (items : List (Item ℚ)) (n : ℕ) :
    numbers (List.replicate n .unparsable ++ items) = numbers items ∧
      unparsableBytes (List.replicate n .unparsable ++ items) = unparsableBytes items + n := by
  induction n with
  | zero => exact ⟨rfl, rfl⟩
  | succ n ih =>
    rw [List.replicate_succ, List.cons_append, numbers, unparsableBytes, ih.1, ih.2]
    exact ⟨rfl, rfl⟩

/-- After 65536 letters the counter is zero again, and the number behind them is fitted. -/
theorem reads_corrupted_file :
    ¬ ReadsAsDocumented (scanDecimal ℚ) false (List.replicate 65536 'x' ++ ['1'])
        (List.replicate 65536 .unparsable ++ [.number (1 : ℕ)]) ∧
      ExitsWith (scanDecimal ℚ) false (List.replicate 65536 'x' ++ ['1'])
        (.fits [(1 : ℕ)] true) := by
  have hreads := reads_letters reads_one 65536
  obtain ⟨hnumbers, hbytes⟩ := numbers_letters [.number (1 : ℕ)] 65536
  have hexit : exitOf false (List.replicate 65536 .unparsable ++ [.number ((1 : ℕ) : Double ℚ)]) =
      .fits [(1 : ℕ)] true := by
    refine exitOf_eq_fits_iff.mpr ⟨?_, ?_, ?_, ?_⟩
    · rw [hbytes]
      rfl
    · rw [hnumbers]
      exact List.cons_ne_nil _ _
    · rw [hnumbers]
      rfl
    · rw [hnumbers]
      simp [numbers, Double.floor]
  have hrun := hreads.exitsWith false
  rw [hexit] at hrun
  refine ⟨?_, hrun⟩
  rintro ⟨out, hout, hbegins, -⟩
  obtain rfl := hout.unique hrun
  have hnone := (hbegins.mp ⟨_, _, rfl⟩).2
  rw [hbytes] at hnone
  exact absurd hnone (by simp [unparsableBytes])

end Counter
end Plfit
