import Mathlib
import Plfit.Model.Basic

/-! # Reading a data file

The reading loop of `process_file` in `main.c`. A file is the list of its bytes. The number
scanner of the C library is an argument, and the two loops are followed for a number of rounds.
-/
namespace Plfit
open ExactArithmetic

/-- What `fscanf(f, "%lf", ...)` ends with, and what it leaves unread. -/
inductive Scanned (K : Type)
  | eof
  | failed (rest : List Char)
  | number (x : Double K) (rest : List Char)

abbrev Fscanf (K : Type) := List Char → Scanned K

/-- `fgetc`; behind the end of a file it gives `EOF` again and again. -/
def fgetc : List Char → Option Char × List Char
  | [] => (none, [])
  | c :: rest => (some c, rest)

/-- `do { c = fgetc(f); } while (c != '\n');` -/
def skipComment : ℕ → List Char → Exec (List Char)
  | 0, _ => .error .endless
  | rounds + 1, text =>
    let (c, text) := fgetc text
    if c ≠ some '\n' then skipComment rounds text else .ok text

/-- The local variables of the loop; `n` is the length of `data`. -/
structure ReadState (K : Type) where
  text : List Char
  data : List (Double K)
  nalloc : ℕ
  warned : ℕ
  discrete : Bool

def ReadState.start (K : Type) (forceContinuous : Bool) (text : List Char) : ReadState K :=
  { text := text, data := [], nalloc := 100, warned := 0, discrete := !forceContinuous }

section Reading
variable {K : Type} [Field K] [LinearOrder K] [FloorRing K]

/-- The branch for a parse error. The counter is an unsigned short integer. -/
def parseError (rounds : ℕ) (st : ReadState K) : Exec (ReadState K) :=
  let (c, text) := fgetc st.text
  if c = some '#' then do
    let text ← skipComment rounds text
    return { st with text := text }
  else .ok { st with text := text, warned := (st.warned + 1) % 2 ^ 16 }

/-- The branch for a number, which has been written to `data[n]`. -/
def storeNumber (x : Double K) (st : ReadState K) : Exec (ReadState K) :=
  if st.data.length < st.nalloc then
    let discrete := if st.discrete && !(x.floor == x) then false else st.discrete
    let data := st.data ++ [x]
    let nalloc := if data.length = st.nalloc then st.nalloc * 2 else st.nalloc
    .ok { st with data := data, nalloc := nalloc, discrete := discrete }
  else .error .outOfBounds

def readLoop (fscanf : Fscanf K) : ℕ → ReadState K → Exec (ReadState K)
  | 0, _ => .error .endless
  | rounds + 1, st =>
    match fscanf st.text with
    | .eof => .ok st
    | .failed rest => do
      let st ← parseError rounds { st with text := rest }
      readLoop fscanf rounds st
    | .number x rest => do
      let st ← storeNumber x { st with text := rest }
      readLoop fscanf rounds st

/-- The exits of `process_file` behind its loop: both failures exit with `EX_DATAERR`. -/
inductive FileOutcome (K : Type)
  | corrupted
  | noData
  | fits (data : List (Double K)) (discrete : Bool)

/-- `process_file` up to the point where it begins to fit. -/
def processFile (fscanf : Fscanf K) (rounds : ℕ) (forceContinuous : Bool) (text : List Char) :
    Exec (FileOutcome K) := do
  let st ← readLoop fscanf rounds (ReadState.start K forceContinuous text)
  if st.warned ≠ 0 then return .corrupted
  else if st.data.length = 0 then return .noData
  else return .fits st.data st.discrete

end Reading
end Plfit
