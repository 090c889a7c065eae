import Mathlib
import Plfit.Model.Basic

/-! # The golden section search of `gss.c`

The objective and the progress report are callbacks on an instance, as in the C code. The
bracket loop is followed for as many rounds as a bracket of the given length can need.
-/
namespace Plfit
open ExactArithmetic

inductive GssErrorHandling
  | stop
  | warn
  deriving DecidableEq, Repr

structure GssParameter (K : Type) where
  epsilon : K
  onError : GssErrorHandling

/-- What a call of `gss` leaves behind. The location and the value of the minimum are
written on success only. -/
structure GssOutcome (σ K : Type) where
  status : Status
  min : Option K
  fmin : Option (Double K)
  warning : Bool
  data : σ

structure GssState (σ K : Type) where
  data : σ
  a : K
  b : K
  c : K
  min : K
  fmin : Double K
  fc : Double K
  k : ℕ
  warning : Bool

abbrev GssEvaluate (σ K : Type) := σ → K → Exec (σ × Double K)

/-- The callback gets the evaluated point and its value, the best ones so far, the bracket
and the iteration, and asks to stop by returning true. -/
abbrev GssProgress (σ K : Type) := σ → K → Double K → K → Double K → K → K → ℕ → Exec Bool

section Search
variable {σ K : Type} [Field K] [LinearOrder K] [FloorRing K]

def resphi : K := 3819660112501051 / 10 ^ 16

/-- `_defparam` -/
def gssDefaultParameter : GssParameter K := { epsilon := dblMin, onError := .stop }

/-- `TERMINATE` with a zero return code. -/
def GssState.terminate (st : GssState σ K) : GssOutcome σ K :=
  { status := .success, min := some st.min, fmin := some st.fmin, warning := st.warning,
    data := st.data }

/-- The return without an assignment to the outputs. -/
def GssState.fail (st : GssState σ K) : GssOutcome σ K :=
  { status := .failure, min := none, fmin := none, warning := st.warning, data := st.data }

/-- `EVALUATE(x, fx)`: the value at `x` and whether the progress callback stops the search. -/
def gssEvaluate (evaluate : GssEvaluate σ K) (progress : Option (GssProgress σ K))
    (st : GssState σ K) (x : K) : Exec (GssState σ K × Double K × Bool) := do
  let (data, fx) ← evaluate st.data x
  let st := { st with data := data }
  let st := if fx < st.fmin then { st with min := x, fmin := fx } else st
  match progress with
  | none => return (st, fx, false)
  | some report =>
    let left := if st.a < st.b then st.a else st.b
    let right := if st.a < st.b then st.b else st.a
    let stopped ← report st.data x fx st.min st.fmin left right st.k
    return (st, fx, stopped)

/-- The part after the loop: the midpoint of the last bracket is evaluated. -/
def gssFinish (evaluate : GssEvaluate σ K) (progress : Option (GssProgress σ K))
    (st : GssState σ K) : Exec (GssOutcome σ K) := do
  let c := (st.a + st.b) / 2
  let st := { st with c := c, k := st.k + 1 }
  let (st, _, _) ← gssEvaluate evaluate progress st c
  return st.terminate

/-- The loop of `gss` with the values `fa` and `fb` at the initial ends. -/
def gssLoop (evaluate : GssEvaluate σ K) (progress : Option (GssProgress σ K))
    (param : GssParameter K) (fa fb : Double K) : ℕ → GssState σ K → Exec (GssOutcome σ K)
  | 0, _ => .error .endless
  | rounds + 1, st =>
    if param.epsilon < |st.a - st.b| then do
      let st := { st with k := st.k + 1 }
      let d := st.c + resphi * (st.b - st.c)
      let (st, fd, stopped) ← gssEvaluate evaluate progress st d
      if stopped then return st.terminate
      if (fa ≤ fd ∨ fb ≤ fd) ∧ param.onError = .stop then return st.fail
      let st := if fa ≤ fd ∨ fb ≤ fd then { st with warning := true } else st
      if st.fc ≤ fd then
        gssLoop evaluate progress param fa fb rounds { st with b := st.a, a := d }
      else
        gssLoop evaluate progress param fa fb rounds { st with a := st.c, c := d, fc := fd }
    else gssFinish evaluate progress st

/-- A bracket of the given length is narrowed below the tolerance in fewer rounds. -/
def gssRounds (param : GssParameter K) (a b : K) : ℕ := ⌈4 * |a - b| / param.epsilon⌉₊ + 1

def gss (evaluate : GssEvaluate σ K) (progress : Option (GssProgress σ K))
    (param : GssParameter K) (a b : K) (data : σ) : Exec (GssOutcome σ K) := do
  let (a, b) := if b < a then (b, a) else (a, b)
  let (data, fmin) ← evaluate data a
  let c := a + resphi * (b - a)
  let st : GssState σ K :=
    { data := data, a := a, b := b, c := c, min := a, fmin := fmin, fc := fmin, k := 0,
      warning := false }
  let (st, fa, stopped) ← gssEvaluate evaluate progress st a
  if stopped then return st.terminate
  let (st, fb, stopped) ← gssEvaluate evaluate progress st b
  if stopped then return st.terminate
  let (st, fc, stopped) ← gssEvaluate evaluate progress st c
  if stopped then return st.terminate
  if (fa ≤ fc ∨ fb ≤ fc) ∧ param.onError = .stop then return st.fail
  let st := if fa ≤ fc ∨ fb ≤ fc then { st with warning := true } else st
  gssLoop evaluate progress param fa fb (gssRounds param a b) { st with fc := fc }

end Search
end Plfit
