import Mathlib
import Plfit.Model.InputFile

/-! # The reading loop ends

A file is a sequence of numbers, comments and bytes that cannot be parsed. Every round of the
loop reads one of them, unless a comment is not closed by a newline: the loop that skips it
does not look for the end of the file.
-/
namespace Plfit
open ExactArithmetic

section Items
variable {K : Type}

/-- What the scanner of the C library is relied on for. It gives `EOF` at the end of a file, and
otherwise reads a number or stops at a character that cannot start one, as a hash. -/
structure ScansNumbers (fscanf : Fscanf K) : Prop where
  atEnd : fscanf [] = .eof
  eof : ∀ text, fscanf text = .eof → '#' ∉ text
  failed : ∀ text rest, fscanf text = .failed rest →
    ∃ skipped, text = skipped ++ rest ∧ '#' ∉ skipped
  number : ∀ text x rest, fscanf text = .number x rest →
    ∃ token, text = token ++ rest ∧ token ≠ [] ∧ '#' ∉ token

inductive Item (K : Type)
  | number (x : Double K)
  | comment
  | unparsable

/-- A file read as a sequence of its parts. -/
inductive Reads (fscanf : Fscanf K) : List Char → List (Item K) → Prop
  | done {text : List Char} (h : fscanf text = .eof) : Reads fscanf text []
  | number {text rest : List Char} {x : Double K} {items : List (Item K)}
      (h : fscanf text = .number x rest) (hrest : Reads fscanf rest items) :
      Reads fscanf text (.number x :: items)
  | comment {text body rest : List Char} {items : List (Item K)}
      (h : fscanf text = .failed ('#' :: body ++ '\n' :: rest)) (hbody : '\n' ∉ body)
      (hrest : Reads fscanf rest items) : Reads fscanf text (.comment :: items)
  | unparsable {text rest : List Char} {items : List (Item K)}
      (h : fscanf text = .failed rest) (hbyte : (fgetc rest).1 ≠ some '#')
      (hrest : Reads fscanf (fgetc rest).2 items) : Reads fscanf text (.unparsable :: items)

def CommentsClosed : List Char → Prop
  | [] => True
  | c :: text => (c = '#' → '\n' ∈ text) ∧ CommentsClosed text

/-- What comes before the first hash does not matter. -/
theorem commentsClosed_append_iff {skipped text : List Char} (h : '#' ∉ skipped) :
    CommentsClosed (skipped ++ text) ↔ CommentsClosed text := by
  induction skipped with
  | nil => rfl
  | cons c skipped ih =>
    rw [List.mem_cons, not_or] at h
    rw [List.cons_append, CommentsClosed, ih h.2, and_iff_right]
    exact fun hc => absurd hc.symm h.1

/-- A newline closes everything before it. -/
theorem commentsClosed_newline_iff {body rest : List Char} :
    CommentsClosed (body ++ '\n' :: rest) ↔ CommentsClosed rest := by
  induction body with
  | nil => simp [CommentsClosed]
  | cons c body ih =>
    rw [List.cons_append, CommentsClosed, ih, and_iff_right]
    simp

variable {fscanf : Fscanf K}

theorem Reads.commentsClosed (hscan : ScansNumbers fscanf) {text : List Char}
    {items : List (Item K)} (h : Reads fscanf text items) : CommentsClosed text := by
  induction h with
  | @done text h =>
    have hclosed : CommentsClosed (text ++ []) :=
      (commentsClosed_append_iff (hscan.eof _ h)).mpr trivial
    rwa [List.append_nil] at hclosed
  | number h hrest ih =>
    obtain ⟨token, rfl, -, htoken⟩ := hscan.number _ _ _ h
    exact (commentsClosed_append_iff htoken).mpr ih
  | @comment text body rest items h hbody hrest ih =>
    obtain ⟨skipped, rfl, hskipped⟩ := hscan.failed _ _ h
    exact (commentsClosed_append_iff hskipped).mpr (commentsClosed_newline_iff.mpr ih)
  | @unparsable text rest items h hbyte hrest ih =>
    obtain ⟨skipped, rfl, hskipped⟩ := hscan.failed _ _ h
    rw [commentsClosed_append_iff hskipped]
    cases rest with
    | nil => trivial
    | cons c rest =>
      refine ⟨?_, ih⟩
      rintro rfl
      exact absurd rfl hbyte

theorem exists_reads (hscan : ScansNumbers fscanf) {text : List Char}
    (h : CommentsClosed text) : ∃ items, Reads fscanf text items := by
  induction hlen : text.length using Nat.strong_induction_on generalizing text with
  | _ n ih =>
    subst hlen
    cases hrun : fscanf text with
    | eof => exact ⟨[], Reads.done hrun⟩
    | number x rest =>
      obtain ⟨token, rfl, hne, htoken⟩ := hscan.number _ _ _ hrun
      have hshort : rest.length < (token ++ rest).length := by
        have := List.length_pos_iff.mpr hne
        rw [List.length_append]
        omega
      obtain ⟨items, hitems⟩ := ih _ hshort ((commentsClosed_append_iff htoken).mp h) rfl
      exact ⟨_, Reads.number hrun hitems⟩
    | failed rest =>
      obtain ⟨skipped, rfl, hskipped⟩ := hscan.failed _ _ hrun
      rw [commentsClosed_append_iff hskipped] at h
      cases rest with
      | nil => exact ⟨_, Reads.unparsable hrun nofun (Reads.done hscan.atEnd)⟩
      | cons c rest =>
        obtain ⟨hclosed, hrest⟩ := h
        by_cases hc : c = '#'
        · subst hc
          obtain ⟨body, tail, rfl, hbody⟩ := List.eq_append_cons_of_mem (hclosed rfl)
          have hshort : tail.length < (skipped ++ '#' :: (body ++ '\n' :: tail)).length := by
            simp only [List.length_append, List.length_cons]
            omega
          obtain ⟨items, hitems⟩ := ih _ hshort (commentsClosed_newline_iff.mp hrest) rfl
          exact ⟨_, Reads.comment hrun hbody hitems⟩
        · have hshort : rest.length < (skipped ++ c :: rest).length := by
            rw [List.length_append, List.length_cons]
            omega
          obtain ⟨items, hitems⟩ := ih _ hshort hrest rfl
          exact ⟨_, Reads.unparsable hrun (fun h => hc (Option.some.inj h)) hitems⟩

end Items

/-! ## Runs of the loop -/

section Runs
variable {K : Type} [Field K] [LinearOrder K] [FloorRing K] {fscanf : Fscanf K}

def numbers : List (Item K) → List (Double K)
  | [] => []
  | .number x :: items => x :: numbers items
  | .comment :: items => numbers items
  | .unparsable :: items => numbers items

def unparsableBytes : List (Item K) → ℕ
  | [] => 0
  | .number _ :: items => unparsableBytes items
  | .comment :: items => unparsableBytes items
  | .unparsable :: items => unparsableBytes items + 1

theorem skipComment_newline {body : List Char} (hbody : '\n' ∉ body) (rest : List Char)
    {rounds : ℕ} (hrounds : body.length < rounds) :
    skipComment rounds (body ++ '\n' :: rest) = .ok rest := by
  induction body generalizing rounds with
  | nil =>
    obtain ⟨rounds, rfl⟩ := Nat.exists_eq_add_of_lt hrounds
    simp [skipComment, fgetc]
  | cons c body ih =>
    rw [List.mem_cons, not_or] at hbody
    cases rounds with
    | zero => exact absurd hrounds (Nat.not_lt_zero _)
    | succ rounds =>
      have hc : some c ≠ some '\n' := fun h => hbody.1 (Option.some.inj h).symm
      simp only [skipComment, List.cons_append, fgetc, ne_eq, hc, not_false_eq_true, if_true]
      exact ih hbody.2 (Nat.lt_of_succ_lt_succ hrounds)

/-- The loop over a comment ends behind its newline only. -/
theorem skipComment_eq_ok {rounds : ℕ} {text rest : List Char}
    (h : skipComment rounds text = .ok rest) :
    ∃ body, text = body ++ '\n' :: rest ∧ '\n' ∉ body := by
  induction rounds generalizing text with
  | zero => cases h
  | succ rounds ih =>
    cases text with
    | nil =>
      have hrun : skipComment rounds [] = .ok rest := by simpa [skipComment, fgetc] using h
      obtain ⟨body, hbody, -⟩ := ih hrun
      simp at hbody
    | cons c text =>
      by_cases hc : c = '\n'
      · subst hc
        obtain rfl : text = rest := by simpa [skipComment, fgetc] using h
        exact ⟨[], rfl, List.not_mem_nil⟩
      · have hrun : skipComment rounds text = .ok rest := by
          simpa [skipComment, fgetc, hc] using h
        obtain ⟨body, rfl, hbody⟩ := ih hrun
        exact ⟨c :: body, rfl, by simp [hbody, Ne.symm hc]⟩

/-- The end of the loop: what it has stored, counted and decided. -/
structure ReadTo (st : ReadState K) (items : List (Item K)) (final : ReadState K) : Prop where
  data : final.data = st.data ++ numbers items
  warned : final.warned = (st.warned + unparsableBytes items) % 2 ^ 16
  discrete : final.discrete = (st.discrete && (numbers items).all (fun x => x.floor == x))

theorem storeNumber_spec (x : Double K) (st : ReadState K) (hroom : st.data.length < st.nalloc) :
    ∃ st', storeNumber x st = .ok st' ∧ st'.text = st.text ∧ st'.data = st.data ++ [x] ∧
      st'.data.length < st'.nalloc ∧ st'.warned = st.warned ∧
      st'.discrete = (st.discrete && (x.floor == x)) := by
  rw [storeNumber, if_pos hroom]
  refine ⟨_, rfl, rfl, rfl, ?_, rfl, ?_⟩
  · have hlen : (st.data ++ [x]).length = st.data.length + 1 := by simp
    dsimp only
    rw [hlen]
    split <;> omega
  · cases st.discrete <;> cases x.floor == x <;> rfl

theorem storeNumber_text {x : Double K} {st st' : ReadState K}
    (h : storeNumber x st = .ok st') : st'.text = st.text := by
  unfold storeNumber at h
  split at h
  · cases h
    rfl
  · cases h

/-- A file that can be read to its end is read by the loop, with enough rounds. -/
theorem Reads.runs {text : List Char} {items : List (Item K)} (h : Reads fscanf text items) :
    ∃ enough, ∀ rounds, enough ≤ rounds → ∀ st : ReadState K, st.text = text →
      st.data.length < st.nalloc → st.warned < 2 ^ 16 →
      ∃ final, readLoop fscanf rounds st = .ok final ∧ ReadTo st items final := by
  induction h with
  | done h =>
    refine ⟨1, ?_⟩
    rintro (_ | rounds) hrounds st rfl hroom hwarned
    · omega
    · refine ⟨st, by rw [readLoop, h], ?_, ?_, ?_⟩
      · simp [numbers]
      · rw [unparsableBytes, Nat.add_zero, Nat.mod_eq_of_lt hwarned]
      · simp [numbers]
  | @number text rest x items h hrest ih =>
    obtain ⟨enough, ih⟩ := ih
    refine ⟨enough + 1, ?_⟩
    rintro (_ | rounds) hrounds st rfl hroom hwarned
    · omega
    · obtain ⟨st', hstore, htext, hdata, hroom', hwarned', hdiscrete⟩ :=
        storeNumber_spec x { st with text := rest } hroom
      obtain ⟨final, hrun, hfinal⟩ := ih rounds (by omega) st' htext hroom' (hwarned' ▸ hwarned)
      refine ⟨final, ?_, ?_, ?_, ?_⟩
      · rw [readLoop, h]
        simp only [hstore, bind, Except.bind]
        exact hrun
      · rw [hfinal.data, hdata, numbers, List.append_assoc]
        rfl
      · rw [hfinal.warned, hwarned', unparsableBytes]
      · rw [hfinal.discrete, hdiscrete, numbers, List.all_cons, Bool.and_assoc]
  | @comment text body rest items h hbody hrest ih =>
    obtain ⟨enough, ih⟩ := ih
    refine ⟨enough + body.length + 2, ?_⟩
    rintro (_ | rounds) hrounds st rfl hroom hwarned
    · omega
    · obtain ⟨final, hrun, hfinal⟩ := ih rounds (by omega) { st with text := rest } rfl hroom hwarned
      refine ⟨final, ?_, hfinal.data, hfinal.warned, hfinal.discrete⟩
      rw [readLoop, h]
      simp only [parseError, fgetc, List.cons_append, if_true,
        skipComment_newline hbody rest (by omega : body.length < rounds), bind, Except.bind]
      exact hrun
  | @unparsable text rest items h hbyte hrest ih =>
    obtain ⟨enough, ih⟩ := ih
    refine ⟨enough + 1, ?_⟩
    rintro (_ | rounds) hrounds st rfl hroom hwarned
    · omega
    · obtain ⟨final, hrun, hfinal⟩ := ih rounds (by omega)
        { st with text := (fgetc rest).2, warned := (st.warned + 1) % 2 ^ 16 } rfl hroom
        (Nat.mod_lt _ (by decide))
      refine ⟨final, ?_, hfinal.data, ?_, hfinal.discrete⟩
      · rw [readLoop, h]
        simp only [parseError, if_neg hbyte, bind, Except.bind]
        exact hrun
      · rw [hfinal.warned, unparsableBytes]
        dsimp only
        omega

/-- A run of the loop that ends has read the file to its end. -/
theorem reads_of_readLoop {rounds : ℕ} {st final : ReadState K}
    (h : readLoop fscanf rounds st = .ok final) : ∃ items, Reads fscanf st.text items := by
  induction rounds generalizing st with
  | zero => cases h
  | succ rounds ih =>
    rw [readLoop] at h
    cases hscan : fscanf st.text with
    | eof => exact ⟨[], Reads.done hscan⟩
    | number x rest =>
      rw [hscan] at h
      obtain ⟨st', hstore, hrun⟩ := bind_eq_ok.mp h
      obtain ⟨items, hitems⟩ := ih hrun
      rw [storeNumber_text hstore] at hitems
      exact ⟨_, Reads.number hscan hitems⟩
    | failed rest =>
      rw [hscan] at h
      obtain ⟨st', herror, hrun⟩ := bind_eq_ok.mp h
      obtain ⟨items, hitems⟩ := ih hrun
      unfold parseError at herror
      dsimp only at herror
      split_ifs at herror with hbyte
      · obtain ⟨tail, hskip, herror⟩ := bind_eq_ok.mp herror
        cases herror
        obtain ⟨body, htext, hbody⟩ := skipComment_eq_ok hskip
        cases rest with
        | nil => cases hbyte
        | cons c rest =>
          obtain rfl : c = '#' := Option.some.inj hbyte
          obtain rfl : rest = body ++ '\n' :: tail := htext
          exact ⟨_, Reads.comment hscan hbody hitems⟩
      · cases herror
        exact ⟨_, Reads.unparsable hscan hbyte hitems⟩

end Runs

/-! ## A scanner of decimal integers -/

section Decimal
variable (K : Type) [Field K]

/-- Unsigned decimal integers separated by blanks. -/
def scanDecimal : Fscanf K := fun text =>
  let text := text.dropWhile Char.isWhitespace
  let digits := text.takeWhile Char.isDigit
  if text = [] then .eof
  else if digits = [] then .failed text
  else .number ((digits.foldl (fun n c => 10 * n + (c.toNat - '0'.toNat)) 0 : ℕ) : Double K)
    (text.dropWhile Char.isDigit)

theorem scansNumbers_decimal : ScansNumbers (scanDecimal K) where
  atEnd := rfl
  eof := by
    intro text h hash
    unfold scanDecimal at h
    dsimp only at h
    split_ifs at h with hblank
    have := List.dropWhile_eq_nil_iff.mp hblank '#' hash
    exact absurd this (by decide)
  failed := by
    intro text rest h
    unfold scanDecimal at h
    dsimp only at h
    split_ifs at h
    cases h
    refine ⟨text.takeWhile Char.isWhitespace, List.takeWhile_append_dropWhile.symm, ?_⟩
    intro hash
    exact absurd (List.mem_takeWhile_imp hash) (by decide)
  number := by
    intro text x rest h
    unfold scanDecimal at h
    dsimp only at h
    split_ifs at h with hblank hdigits
    cases h
    refine ⟨text.takeWhile Char.isWhitespace ++
      (text.dropWhile Char.isWhitespace).takeWhile Char.isDigit, ?_, ?_, ?_⟩
    · rw [List.append_assoc, List.takeWhile_append_dropWhile, List.takeWhile_append_dropWhile]
    · exact fun h => hdigits (List.append_eq_nil_iff.mp h).2
    · intro hash
      rcases List.mem_append.mp hash with hash | hash
      · exact absurd (List.mem_takeWhile_imp hash) (by decide)
      · exact absurd (List.mem_takeWhile_imp hash) (by decide)

end Decimal

section Termination
variable {K : Type} [Field K] [LinearOrder K] [FloorRing K] {fscanf : Fscanf K}

/-- The reading loop ends exactly on the files whose comments are all closed by a newline. -/
theorem readLoop_ends_iff (hscan : ScansNumbers fscanf) (forceContinuous : Bool)
    (text : List Char) :
    (∃ rounds final, readLoop fscanf rounds (ReadState.start K forceContinuous text) =
      .ok final) ↔ CommentsClosed text := by
  constructor
  · rintro ⟨rounds, final, hrun⟩
    obtain ⟨items, hitems⟩ := reads_of_readLoop hrun
    exact hitems.commentsClosed hscan
  · intro hclosed
    obtain ⟨items, hitems⟩ := exists_reads hscan hclosed
    obtain ⟨enough, hruns⟩ := hitems.runs
    obtain ⟨final, hrun, -⟩ := hruns enough le_rfl (ReadState.start K forceContinuous text) rfl
      (by simp [ReadState.start]) (by simp [ReadState.start])
    exact ⟨enough, final, hrun⟩

theorem readLoop_ends_closed :
    ∃ rounds final, readLoop (scanDecimal ℚ) rounds
      (ReadState.start ℚ false ['1', '#', 'a', '\n']) = .ok final :=
  (readLoop_ends_iff (scansNumbers_decimal ℚ) false _).mpr (by simp [CommentsClosed])

/-- A comment on a last line without a newline is never left. -/
theorem readLoop_endless_comment :
    ¬ ∃ rounds final, readLoop (scanDecimal ℚ) rounds (ReadState.start ℚ false ['1', '#']) =
      .ok final := by
  rintro ⟨rounds, final, hrun⟩
  obtain ⟨items, hitems⟩ := reads_of_readLoop hrun
  have hclosed := hitems.commentsClosed (scansNumbers_decimal ℚ)
  simp [ReadState.start, CommentsClosed] at hclosed

end Termination
end Plfit
