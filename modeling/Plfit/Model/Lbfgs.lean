import Mathlib
import Plfit.Library.MathLibrary
import Plfit.Model.Basic

/-! # The optimiser of `lbfgs.c`

Limited-memory quasi-Newton minimisation of a function of `n` variables with its three line
searches, on the vector operations of `arithmetic_ansi.h`. A negative status code of the
library is an `LbfgsError`.
-/
namespace Plfit
open ExactArithmetic

/-- The errors that `lbfgs` returns, and `LBFGSERR_CANCELED`, which its callers accept. -/
inductive LbfgsError
  | outofmemory
  | canceled
  | invalidN
  | invalidEpsilon
  | invalidTestperiod
  | invalidDelta
  | invalidLinesearch
  | invalidMinstep
  | invalidMaxstep
  | invalidFtol
  | invalidWolfe
  | invalidGtol
  | invalidXtol
  | invalidMaxlinesearch
  | invalidOrthantwise
  | invalidOrthantwiseStart
  | invalidOrthantwiseEnd
  | outofinterval
  | incorrectTminmax
  | roundingError
  | minimumstep
  | maximumstep
  | maximumlinesearch
  | maximumiteration
  | widthtoosmall
  | invalidparameters
  | increasegradient
  deriving DecidableEq, Repr

/-- The numbers that the enumeration of `lbfgs.h` gives to the errors. -/
def LbfgsError.code : LbfgsError → ℤ
  | outofmemory => -1022
  | canceled => -1021
  | invalidN => -1020
  | invalidEpsilon => -1017
  | invalidTestperiod => -1016
  | invalidDelta => -1015
  | invalidLinesearch => -1014
  | invalidMinstep => -1013
  | invalidMaxstep => -1012
  | invalidFtol => -1011
  | invalidWolfe => -1010
  | invalidGtol => -1009
  | invalidXtol => -1008
  | invalidMaxlinesearch => -1007
  | invalidOrthantwise => -1006
  | invalidOrthantwiseStart => -1005
  | invalidOrthantwiseEnd => -1004
  | outofinterval => -1003
  | incorrectTminmax => -1002
  | roundingError => -1001
  | minimumstep => -1000
  | maximumstep => -999
  | maximumlinesearch => -998
  | maximumiteration => -997
  | widthtoosmall => -996
  | invalidparameters => -995
  | increasegradient => -994

/-- The line searches. Every other value of the `int` is unknown to `lbfgs`. -/
inductive LbfgsLinesearch
  | morethuente
  | backtrackingArmijo
  | backtrackingWolfe
  | backtrackingStrongWolfe
  | unknown
  deriving DecidableEq, Repr

structure LbfgsParameter (K : Type) where
  m : ℤ
  epsilon : Double K
  past : ℤ
  delta : Double K
  maxIterations : ℤ
  linesearch : LbfgsLinesearch
  maxLinesearch : ℤ
  minStep : Double K
  maxStep : Double K
  ftol : Double K
  wolfe : Double K
  gtol : Double K
  xtol : Double K
  orthantwiseC : Double K
  orthantwiseStart : ℤ
  orthantwiseEnd : ℤ

/-- `_defparam` -/
def lbfgsDefparam {K : Type} [Field K] : LbfgsParameter K where
  m := 6
  epsilon := .fin (1 / 10 ^ 5)
  past := 0
  delta := .fin (1 / 10 ^ 5)
  maxIterations := 0
  linesearch := .morethuente
  maxLinesearch := 40
  minStep := .fin (1 / 10 ^ 20)
  maxStep := .fin (10 ^ 20)
  ftol := .fin (1 / 10 ^ 4)
  wolfe := .fin ((9 : ℕ) / 10)
  gtol := .fin ((9 : ℕ) / 10)
  xtol := .fin (1 / 10 ^ 16)
  orthantwiseC := 0
  orthantwiseStart := 0
  orthantwiseEnd := -1

/-- The numeral of the only index of one variable is in range by this instance. -/
instance one_neZero : NeZero (1 : ℕ) := ⟨Nat.one_ne_zero⟩

abbrev Vec (n : ℕ) (K : Type) := Fin n → Double K

/-- `lbfgs_evaluate_t`: the objective value and the gradient at a point, for the current
step of the line search. -/
abbrev LbfgsEvaluate (n : ℕ) (K : Type) := Vec n K → Double K → Double K × Vec n K

/-! ## Vectors -/

section Vectors
variable {K : Type} [Field K] [LinearOrder K] {n : ℕ}

def vecncpy (x : Vec n K) : Vec n K := fun i => -x i

def vecadd (y x : Vec n K) (c : Double K) : Vec n K := fun i => y i + c * x i

def vecdiff (x y : Vec n K) : Vec n K := fun i => x i - y i

def vecscale (y : Vec n K) (c : Double K) : Vec n K := fun i => y i * c

def vecdot (x y : Vec n K) : Double K :=
  (List.finRange n).foldl (fun s i => s + x i * y i) 0

def vec2norm [MathLibrary K] (x : Vec n K) : Double K := MathLibrary.sqrt (vecdot x x)

def vec2norminv [MathLibrary K] (x : Vec n K) : Double K := 1 / vec2norm x

/-- The indices with a regularised variable. -/
def inOrthant (start stop : ℤ) (i : Fin n) : Prop := start ≤ i ∧ (i : ℤ) < stop

instance (start stop : ℤ) (i : Fin n) : Decidable (inOrthant start stop i) :=
  inferInstanceAs (Decidable (_ ∧ _))

def owlqnX1norm (x : Vec n K) (start stop : ℤ) : Double K :=
  ((List.finRange n).filter (fun i => inOrthant start stop i)).foldl
    (fun norm i => norm + Double.fabs (x i)) 0

def owlqnPseudoGradient (x g : Vec n K) (c : Double K) (start stop : ℤ) : Vec n K := fun i =>
  if inOrthant start stop i then
    if x i < 0 then g i - c
    else if 0 < x i then g i + c
    else if g i < -c then g i + c
    else if c < g i then g i - c
    else 0
  else g i

def owlqnProject (d sign : Vec n K) (start stop : ℤ) : Vec n K := fun i =>
  if inOrthant start stop i ∧ d i * sign i ≤ 0 then 0 else d i

def min2 (a b : Double K) : Double K := if a ≤ b then a else b

def max2 (a b : Double K) : Double K := if b ≤ a then a else b

def max3 (a b c : Double K) : Double K := max2 (max2 a b) c

end Vectors

/-! ## Line searches -/

/-- The variables that a line search writes through its pointers. -/
structure LineSearchState (n : ℕ) (K : Type) where
  x : Vec n K
  f : Double K
  g : Vec n K
  stp : Double K

/-- What a line search returns: the number of its evaluations or an error. -/
structure LineSearchOutcome (n : ℕ) (K : Type) where
  ls : Except LbfgsError ℕ
  last : LineSearchState n K

section LineSearch
variable {K : Type} [Field K] [LinearOrder K] [MathLibrary K] {n : ℕ}

/-- `x <- xp + stp * s` and the evaluation there. -/
def tryStep (evaluate : LbfgsEvaluate n K) (xp s : Vec n K) (stp : Double K) :
    LineSearchState n K :=
  let x := vecadd xp s stp
  let (f, g) := evaluate x stp
  { x := x, f := f, g := g, stp := stp }

/-- The conditions of `line_search_backtracking` on a trial: the factor of the next step, or
nothing when the step is accepted. -/
def backtrackingWidth (param : LbfgsParameter K) (s : Vec n K) (finit dginit dgtest : Double K)
    (trial : LineSearchState n K) : Option (Double K) :=
  if finit + trial.stp * dgtest < trial.f then some (.fin (1 / 2))
  else if param.linesearch = .backtrackingArmijo then none
  else
    let dg := vecdot trial.g s
    if dg < param.wolfe * dginit then some (.fin (21 / 10))
    else if param.linesearch = .backtrackingWolfe then none
    else if -param.wolfe * dginit < dg then some (.fin (1 / 2))
    else none

/-- The bounds on the step and on the evaluations that a rejected trial must respect. -/
def stepBounds (param : LbfgsParameter K) (stp : Double K) (count : ℕ) : Option LbfgsError :=
  if stp < param.minStep then some .minimumstep
  else if param.maxStep < stp then some .maximumstep
  else if param.maxLinesearch ≤ count then some .maximumlinesearch
  else none

omit [Field K] [MathLibrary K] in
theorem lt_of_stepBounds_eq_none {param : LbfgsParameter K} {stp : Double K} {count : ℕ}
    (h : stepBounds param stp count = none) : count < param.maxLinesearch := by
  unfold stepBounds at h
  split_ifs at h with _ _ hcount
  exact not_le.mp hcount

def backtrackingLoop (param : LbfgsParameter K) (evaluate : LbfgsEvaluate n K) (xp s : Vec n K)
    (finit dginit dgtest stp : Double K) (count : ℕ) : LineSearchOutcome n K :=
  let trial := tryStep evaluate xp s stp
  match backtrackingWidth param s finit dginit dgtest trial with
  | none => { ls := .ok (count + 1), last := trial }
  | some width =>
    match _h : stepBounds param stp (count + 1) with
    | some e => { ls := .error e, last := trial }
    | none =>
      backtrackingLoop param evaluate xp s finit dginit dgtest (stp * width) (count + 1)
termination_by (param.maxLinesearch - count).toNat
decreasing_by
  have := lt_of_stepBounds_eq_none _h
  push_cast at this
  omega

def lineSearchBacktracking (param : LbfgsParameter K) (evaluate : LbfgsEvaluate n K)
    (st : LineSearchState n K) (s xp : Vec n K) : LineSearchOutcome n K :=
  if st.stp ≤ 0 then { ls := .error .invalidparameters, last := st }
  else
    let dginit := vecdot st.g s
    if 0 < dginit then { ls := .error .increasegradient, last := st }
    else backtrackingLoop param evaluate xp s st.f dginit (param.ftol * dginit) st.stp 0

/-- A trial of `line_search_backtracking_owlqn`: the point is projected onto the orthant and
the value includes the L1 norm. -/
def tryOrthantStep (param : LbfgsParameter K) (evaluate : LbfgsEvaluate n K)
    (xp s wp : Vec n K) (stp : Double K) : LineSearchState n K :=
  let x := owlqnProject (vecadd xp s stp) wp param.orthantwiseStart param.orthantwiseEnd
  let (f, g) := evaluate x stp
  let norm := owlqnX1norm x param.orthantwiseStart param.orthantwiseEnd
  { x := x, f := f + norm * param.orthantwiseC, g := g, stp := stp }

def owlqnLoop (param : LbfgsParameter K) (evaluate : LbfgsEvaluate n K) (xp s gp wp : Vec n K)
    (finit stp : Double K) (count : ℕ) : LineSearchOutcome n K :=
  let trial := tryOrthantStep param evaluate xp s wp stp
  let dgtest := vecdot (vecdiff trial.x xp) gp
  if trial.f ≤ finit + param.ftol * dgtest then { ls := .ok (count + 1), last := trial }
  else
    match _h : stepBounds param stp (count + 1) with
    | some e => { ls := .error e, last := trial }
    | none => owlqnLoop param evaluate xp s gp wp finit (stp * .fin (1 / 2)) (count + 1)
termination_by (param.maxLinesearch - count).toNat
decreasing_by
  have := lt_of_stepBounds_eq_none _h
  push_cast at this
  omega

def lineSearchBacktrackingOwlqn (param : LbfgsParameter K) (evaluate : LbfgsEvaluate n K)
    (st : LineSearchState n K) (s xp gp : Vec n K) : LineSearchOutcome n K :=
  if st.stp ≤ 0 then { ls := .error .invalidparameters, last := st }
  else
    let wp : Vec n K := fun i => if xp i == 0 then -gp i else xp i
    owlqnLoop param evaluate xp s gp wp st.f st.stp 0

/-! ### The search of Moré and Thuente -/

/-- A step with the value and the derivative of the function along the direction. -/
structure StepSample (K : Type) where
  t : Double K
  f : Double K
  d : Double K

def cubicMinimizer (u v : StepSample K) : Double K :=
  let d := v.t - u.t
  let theta := (u.f - v.f) * 3 / d + u.d + v.d
  let s := max3 (Double.fabs theta) (Double.fabs u.d) (Double.fabs v.d)
  let a := theta / s
  let gamma := s * MathLibrary.sqrt (a * a - u.d / s * (v.d / s))
  let gamma := if v.t < u.t then -gamma else gamma
  let p := gamma - u.d + theta
  let q := gamma - u.d + gamma + v.d
  let r := p / q
  u.t + r * d

def cubicMinimizer2 (u v : StepSample K) (xmin xmax : Double K) : Double K :=
  let d := v.t - u.t
  let theta := (u.f - v.f) * 3 / d + u.d + v.d
  let s := max3 (Double.fabs theta) (Double.fabs u.d) (Double.fabs v.d)
  let a := theta / s
  let gamma := s * MathLibrary.sqrt (max2 0 (a * a - u.d / s * (v.d / s)))
  let gamma := if u.t < v.t then -gamma else gamma
  let p := gamma - v.d + theta
  let q := gamma - v.d + gamma + u.d
  let r := p / q
  if r < 0 ∧ !(gamma == 0) then v.t - r * d
  else if 0 < d then xmax
  else xmin

def quadMinimizer (u v : StepSample K) : Double K :=
  let a := v.t - u.t
  u.t + u.d / ((u.f - v.f) / a + u.d) / 2 * a

def quadMinimizer2 (u v : StepSample K) : Double K :=
  let a := u.t - v.t
  v.t + v.d / (v.d - u.d) * a

def fsigndiff (x y : Double K) : Bool := x * (y / Double.fabs y) < 0

/-- The interval of uncertainty: the step with the least value, the other end, and whether
the two enclose a minimum. -/
structure TrialInterval (K : Type) where
  x : StepSample K
  y : StepSample K
  brackt : Bool

/-- The new trial value of `update_trial_interval` before it is clipped, and whether it has
to keep away from the other end. -/
def selectTrial (I : TrialInterval K) (t : StepSample K) (tmin tmax : Double K) :
    Double K × Bool × Bool :=
  let dsign := fsigndiff t.d I.x.d
  if I.x.f < t.f then
    -- case 1: a higher function value
    let mc := cubicMinimizer I.x t
    let mq := quadMinimizer I.x t
    let newt :=
      if Double.fabs (mc - I.x.t) < Double.fabs (mq - I.x.t) then mc
      else mc + .fin (1 / 2) * (mq - mc)
    (newt, true, true)
  else if dsign then
    -- case 2: derivatives of opposite sign
    let mc := cubicMinimizer I.x t
    let mq := quadMinimizer2 I.x t
    let newt := if Double.fabs (mq - t.t) < Double.fabs (mc - t.t) then mc else mq
    (newt, true, false)
  else if Double.fabs t.d < Double.fabs I.x.d then
    -- case 3: the magnitude of the derivative decreases
    let mc := cubicMinimizer2 I.x t tmin tmax
    let mq := quadMinimizer2 I.x t
    let newt :=
      if I.brackt then
        if Double.fabs (t.t - mc) < Double.fabs (t.t - mq) then mc else mq
      else if Double.fabs (t.t - mq) < Double.fabs (t.t - mc) then mc else mq
    (newt, I.brackt, true)
  else
    -- case 4: it does not decrease
    let newt :=
      if I.brackt then cubicMinimizer t I.y
      else if I.x.t < t.t then tmax
      else tmin
    (newt, I.brackt, false)

/-- The ends of the interval after a trial, whatever the next trial is. -/
def updateEnds (I : TrialInterval K) (t : StepSample K) (brackt : Bool) : TrialInterval K :=
  if I.x.f < t.f then { I with y := t, brackt := brackt }
  else if fsigndiff t.d I.x.d then { x := t, y := I.x, brackt := brackt }
  else { I with x := t, brackt := brackt }

def updateTrialInterval (I : TrialInterval K) (t : StepSample K) (tmin tmax : Double K) :
    Except LbfgsError (TrialInterval K × Double K) :=
  if I.brackt ∧ (t.t ≤ min2 I.x.t I.y.t ∨ max2 I.x.t I.y.t ≤ t.t) then .error .outofinterval
  else if I.brackt ∧ 0 ≤ I.x.d * (t.t - I.x.t) then .error .increasegradient
  else if I.brackt ∧ tmax < tmin then .error .incorrectTminmax
  else
    let (newt, brackt, bound) := selectTrial I t tmin tmax
    let next := updateEnds I t brackt
    let newt := if tmax < newt then tmax else newt
    let newt := if newt < tmin then tmin else newt
    let newt :=
      if brackt ∧ bound then
        let mq := next.x.t + .fin ((66 : ℕ) / (100 : ℕ)) * (next.y.t - next.x.t)
        if next.x.t < next.y.t then if mq < newt then mq else newt
        else if newt < mq then mq else newt
      else newt
    .ok (next, newt)

structure MoreThuente (K : Type) where
  I : TrialInterval K
  stage1 : Bool
  uinfo : Option LbfgsError
  width : Double K
  prevWidth : Double K
  stp : Double K
  count : ℕ

/-- The bounds on the step in the present interval of uncertainty. -/
def stepRange (st : MoreThuente K) : Double K × Double K :=
  if st.I.brackt then (min2 st.I.x.t st.I.y.t, max2 st.I.x.t st.I.y.t)
  else (st.I.x.t, st.stp + 4 * (st.stp - st.I.x.t))

def clipStep (param : LbfgsParameter K) (stp : Double K) : Double K :=
  let stp := if stp < param.minStep then param.minStep else stp
  if param.maxStep < stp then param.maxStep else stp

/-- The step of the next trial: the best one so far when the search is about to give up. -/
def trialStep (param : LbfgsParameter K) (st : MoreThuente K) : Double K :=
  let (stmin, stmax) := stepRange st
  let stp := clipStep param st.stp
  if (st.I.brackt ∧ ((stp ≤ stmin ∨ stmax ≤ stp) ∨ param.maxLinesearch ≤ st.count + 1 ∨
        st.uinfo.isSome)) ∨
      (st.I.brackt ∧ stmax - stmin ≤ param.xtol * stmax) then st.I.x.t
  else stp

/-- The tests for errors and convergence, in the order in which they are made. -/
def moreThuenteVerdict (param : LbfgsParameter K) (st : MoreThuente K)
    (dginit dgtest ftest1 : Double K) (trial : StepSample K) : Option (Except LbfgsError ℕ) :=
  let (stmin, stmax) := stepRange st
  let count := st.count + 1
  if st.I.brackt ∧ ((trial.t ≤ stmin ∨ stmax ≤ trial.t) ∨ st.uinfo.isSome) then
    some (.error .roundingError)
  else if trial.t == param.maxStep ∧ trial.f ≤ ftest1 ∧ trial.d ≤ dgtest then
    some (.error .maximumstep)
  else if trial.t == param.minStep ∧ (ftest1 < trial.f ∨ dgtest ≤ trial.d) then
    some (.error .minimumstep)
  else if st.I.brackt ∧ stmax - stmin ≤ param.xtol * stmax then
    some (.error .widthtoosmall)
  else if param.maxLinesearch ≤ count then some (.error .maximumlinesearch)
  else if trial.f ≤ ftest1 ∧ Double.fabs trial.d ≤ param.gtol * (-dginit) then some (.ok count)
  else none

omit [MathLibrary K] in
theorem lt_of_moreThuenteVerdict_eq_none {param : LbfgsParameter K} {st : MoreThuente K}
    {dginit dgtest ftest1 : Double K} {trial : StepSample K}
    (h : moreThuenteVerdict param st dginit dgtest ftest1 trial = none) :
    ((st.count + 1 : ℕ) : ℤ) < param.maxLinesearch := by
  simp only [moreThuenteVerdict] at h
  split_ifs at h with _ _ _ _ hcount _
  exact not_le.mp hcount

/-- A sample of the modified function, which subtracts the tangent of the sufficient
decrease; the inverse operation adds it. -/
def StepSample.tilt (p : StepSample K) (dgtest : Double K) : StepSample K :=
  { p with f := p.f - p.t * dgtest, d := p.d - dgtest }

def StepSample.untilt (p : StepSample K) (dgtest : Double K) : StepSample K :=
  { p with f := p.f + p.t * dgtest, d := p.d + dgtest }

/-- The update of the interval with the function itself or, in the first stage, with the
modified one. An update that is refused leaves interval and step as they are. -/
def updateInterval (param : LbfgsParameter K) (st : MoreThuente K)
    (dginit dgtest ftest1 : Double K) (trial : StepSample K) : MoreThuente K :=
  let (stmin, stmax) := stepRange st
  let stage1 := st.stage1 ∧
    ¬ (trial.f ≤ ftest1 ∧ min2 param.ftol param.gtol * dginit ≤ trial.d)
  if stage1 ∧ ftest1 < trial.f ∧ trial.f ≤ st.I.x.f then
    let I : TrialInterval K :=
      { st.I with x := st.I.x.tilt dgtest, y := st.I.y.tilt dgtest }
    match updateTrialInterval I (trial.tilt dgtest) stmin stmax with
    | .ok (I, stp) =>
      { st with
        I := { I with x := I.x.untilt dgtest, y := I.y.untilt dgtest }
        stage1 := stage1, uinfo := none, stp := stp, count := st.count + 1 }
    | .error e =>
      { st with
        I := { I with x := I.x.untilt dgtest, y := I.y.untilt dgtest }
        stage1 := stage1, uinfo := some e, stp := trial.t, count := st.count + 1 }
  else
    match updateTrialInterval st.I trial stmin stmax with
    | .ok (I, stp) =>
      { st with I := I, stage1 := stage1, uinfo := none, stp := stp, count := st.count + 1 }
    | .error e =>
      { st with stage1 := stage1, uinfo := some e, stp := trial.t, count := st.count + 1 }

/-- A bracket that has not shrunk enough is bisected. -/
def forceDecrease (st : MoreThuente K) : MoreThuente K :=
  if st.I.brackt then
    let length := Double.fabs (st.I.y.t - st.I.x.t)
    { st with
      stp := if .fin ((66 : ℕ) / (100 : ℕ)) * st.prevWidth ≤ length then
          st.I.x.t + .fin (1 / 2) * (st.I.y.t - st.I.x.t)
        else st.stp
      prevWidth := st.width
      width := length }
  else st

omit [MathLibrary K] in
@[simp] theorem forceDecrease_count (st : MoreThuente K) :
    (forceDecrease st).count = st.count := by
  unfold forceDecrease
  split <;> rfl

@[simp] theorem updateInterval_count (param : LbfgsParameter K) (st : MoreThuente K)
    (dginit dgtest ftest1 : Double K) (trial : StepSample K) :
    (updateInterval param st dginit dgtest ftest1 trial).count = st.count + 1 := by
  simp only [updateInterval]
  split <;> split <;> rfl

def moreThuenteLoop (param : LbfgsParameter K) (evaluate : LbfgsEvaluate n K) (xp s : Vec n K)
    (finit dginit dgtest : Double K) (st : MoreThuente K) : LineSearchOutcome n K :=
  let last := tryStep evaluate xp s (trialStep param st)
  let trial : StepSample K := { t := last.stp, f := last.f, d := vecdot last.g s }
  let ftest1 := finit + trial.t * dgtest
  match _h : moreThuenteVerdict param st dginit dgtest ftest1 trial with
  | some ls => { ls := ls, last := last }
  | none =>
    moreThuenteLoop param evaluate xp s finit dginit dgtest
      (forceDecrease (updateInterval param st dginit dgtest ftest1 trial))
termination_by (param.maxLinesearch - st.count).toNat
decreasing_by
  have := lt_of_moreThuenteVerdict_eq_none _h
  simp only [forceDecrease_count, updateInterval_count]
  push_cast at this ⊢
  omega

def lineSearchMorethuente (param : LbfgsParameter K) (evaluate : LbfgsEvaluate n K)
    (st : LineSearchState n K) (s xp : Vec n K) : LineSearchOutcome n K :=
  if st.stp ≤ 0 then { ls := .error .invalidparameters, last := st }
  else
    let dginit := vecdot st.g s
    if 0 < dginit then { ls := .error .increasegradient, last := st }
    else
      let width := param.maxStep - param.minStep
      let start : StepSample K := { t := 0, f := st.f, d := dginit }
      moreThuenteLoop param evaluate xp s st.f dginit (param.ftol * dginit)
        { I := { x := start, y := start, brackt := false }
          stage1 := true, uinfo := none
          width := width, prevWidth := 2 * width, stp := st.stp, count := 0 }

end LineSearch

/-! ## The minimisation -/

structure IterationData (n : ℕ) (K : Type) where
  alpha : Double K
  s : Vec n K
  y : Vec n K
  ys : Double K

structure LbfgsState (n : ℕ) (K : Type) where
  x : Vec n K
  fx : Double K
  g : Vec n K
  pg : Vec n K
  d : Vec n K
  step : Double K
  lm : List (IterationData n K)
  stop : ℕ
  k : ℕ
  pf : List (Double K)

/-- `lbfgs_progress_t`: a value other than zero cancels the minimisation. -/
abbrev LbfgsProgress (n : ℕ) (K : Type) :=
  Vec n K → Vec n K → Double K → Double K → Double K → Double K → ℕ → ℕ → ℤ

/-- The status code, the variables and `*ptr_fx`. -/
structure LbfgsResult (n : ℕ) (K : Type) where
  ret : ℤ
  x : Vec n K
  fx : Double K

structure Recursion (n : ℕ) (K : Type) where
  lm : List (IterationData n K)
  j : ℕ
  d : Vec n K

section Minimisation
variable {K : Type} [Field K] [LinearOrder K] [MathLibrary K] {n : ℕ}

/-- The checks of the parameters. What passes has the end of the regularised variables
filled in. -/
def lbfgsCheck (n : ℕ) (param : LbfgsParameter K) : Except LbfgsError (LbfgsParameter K) :=
  if n ≤ 0 then .error .invalidN
  else if param.epsilon < 0 then .error .invalidEpsilon
  else if param.past < 0 then .error .invalidTestperiod
  else if param.delta < 0 then .error .invalidDelta
  else if param.minStep < 0 then .error .invalidMinstep
  else if param.maxStep < param.minStep then .error .invalidMaxstep
  else if param.ftol < 0 then .error .invalidFtol
  else if (param.linesearch = .backtrackingWolfe ∨ param.linesearch = .backtrackingStrongWolfe) ∧
      (param.wolfe ≤ param.ftol ∨ 1 ≤ param.wolfe) then .error .invalidWolfe
  else if param.gtol < 0 then .error .invalidGtol
  else if param.xtol < 0 then .error .invalidXtol
  else if param.maxLinesearch ≤ 0 then .error .invalidMaxlinesearch
  else if param.orthantwiseC < 0 then .error .invalidOrthantwise
  else if param.orthantwiseStart < 0 ∨ (n : ℤ) < param.orthantwiseStart then
    .error .invalidOrthantwiseStart
  else
    let param :=
      if param.orthantwiseEnd < 0 then { param with orthantwiseEnd := n } else param
    if (n : ℤ) < param.orthantwiseEnd then .error .invalidOrthantwiseEnd
    else if !(param.orthantwiseC == 0) then
      if param.linesearch = .backtrackingWolfe then .ok param else .error .invalidLinesearch
    else if param.linesearch = .unknown then .error .invalidLinesearch
    else .ok param

/-- The call of the line search that the parameters select. -/
def lineSearch (param : LbfgsParameter K) (evaluate : LbfgsEvaluate n K)
    (st : LineSearchState n K) (s xp pg : Vec n K) : LineSearchOutcome n K :=
  if !(param.orthantwiseC == 0) then lineSearchBacktrackingOwlqn param evaluate st s xp pg
  else if param.linesearch = .morethuente then lineSearchMorethuente param evaluate st s xp
  else lineSearchBacktracking param evaluate st s xp

/-- The gradient that the convergence test and the direction use. -/
def usedGradient (param : LbfgsParameter K) (g pg : Vec n K) : Vec n K :=
  if param.orthantwiseC == 0 then g else pg

/-- The pseudo-gradient is computed for regularised problems only. -/
def updatePseudoGradient (param : LbfgsParameter K) (x g pg : Vec n K) : Vec n K :=
  if param.orthantwiseC == 0 then pg
  else owlqnPseudoGradient x g param.orthantwiseC param.orthantwiseStart param.orthantwiseEnd

/-- The loop from the newest correction to the oldest one. -/
def firstLoop (m : ℕ) : ℕ → Recursion n K → Exec (Recursion n K)
  | 0, st => .ok st
  | bound + 1, st => do
    let j := (st.j + m - 1) % m
    let it ← deref st.lm j
    let alpha := vecdot it.s st.d / it.ys
    firstLoop m bound
      { lm := st.lm.set j { it with alpha := alpha }, j := j, d := vecadd st.d it.y (-alpha) }

def secondLoop (m : ℕ) : ℕ → Recursion n K → Exec (Recursion n K)
  | 0, st => .ok st
  | bound + 1, st => do
    let it ← deref st.lm st.j
    let beta := vecdot it.y st.d / it.ys
    secondLoop m bound
      { st with j := (st.j + 1) % m, d := vecadd st.d it.s (it.alpha - beta) }

/-- The direction for a gradient: the two loops with a scaling between them. -/
def recursiveDirection (m bound stop : ℕ) (lm : List (IterationData n K)) (scale : Double K)
    (g : Vec n K) : Exec (List (IterationData n K) × Vec n K) := do
  let down ← firstLoop m bound { lm := lm, j := stop, d := vecncpy g }
  let up ← secondLoop m bound { down with d := vecscale down.d scale }
  return (up.lm, up.d)

/-- The components of the direction that do not oppose the pseudo-gradient are dropped. -/
def constrainDirection (param : LbfgsParameter K) (d pg : Vec n K) : Vec n K :=
  if param.orthantwiseC == 0 then d
  else fun i =>
    if inOrthant param.orthantwiseStart param.orthantwiseEnd i ∧ 0 ≤ d i * pg i then 0 else d i

/-- `if (xnorm < 1.0) xnorm = 1.0` and the convergence test. -/
def converged (param : LbfgsParameter K) (xnorm gnorm : Double K) : Bool :=
  gnorm / (if xnorm < 1 then 1 else xnorm) ≤ param.epsilon

/-- The test of the improvement over the last `past` iterations, and the stored values after
it. -/
def improvementTest (param : LbfgsParameter K) (st : LbfgsState n K) (fx : Double K) :
    Exec (Bool × List (Double K)) :=
  if 0 < param.past then do
    let i := st.k % param.past.toNat
    let old ← deref st.pf i
    let rate := (old - fx) / fx
    if param.past ≤ st.k ∧ Double.fabs rate < param.delta then return (true, st.pf)
    else return (false, st.pf.set i fx)
  else return (false, st.pf)

/-- The rest of an iteration after its tests: the new correction replaces the oldest one, and
the next direction is computed from it and its predecessors. -/
def nextState (param : LbfgsParameter K) (st : LbfgsState n K) (last : LineSearchState n K)
    (pg : Vec n K) (pf : List (Double K)) : Exec (LbfgsState n K) := do
  let m := param.m.toNat
  let it ← deref st.lm st.stop
  let s := vecdiff last.x st.x
  let y := vecdiff last.g st.g
  let ys := vecdot y s
  let yy := vecdot y y
  let lm := st.lm.set st.stop { it with s := s, y := y, ys := ys }
  let bound := if m ≤ st.k then m else st.k
  let stop := (st.stop + 1) % m
  let (lm, d) ← recursiveDirection m bound stop lm (ys / yy) (usedGradient param last.g pg)
  return { x := last.x, fx := last.f, g := last.g, pg := pg, d := constrainDirection param d pg,
           step := 1, lm := lm, stop := stop, k := st.k + 1, pf := pf }

/-- The answer of the progress callback; without one the minimisation goes on. -/
def reportProgress (progress : Option (LbfgsProgress n K)) (last : LineSearchState n K)
    (xnorm gnorm : Double K) (k ls : ℕ) : ℤ :=
  match progress with
  | some report => report last.x last.g last.f xnorm gnorm last.stp k ls
  | none => 0

/-- What follows a successful line search: the report of the progress and the tests, in the
order in which they are made, and the next state when none of them ends the run. -/
def finishRound (param : LbfgsParameter K) (progress : Option (LbfgsProgress n K))
    (st : LbfgsState n K) (last : LineSearchState n K) (ls : ℕ) :
    Exec (LbfgsState n K ⊕ LbfgsResult n K) :=
  let pg := updatePseudoGradient param last.x last.g st.pg
  let xnorm := vec2norm last.x
  let gnorm := vec2norm (usedGradient param last.g pg)
  let answer := reportProgress progress last xnorm gnorm st.k ls
  if answer ≠ 0 then .ok (.inr { ret := answer, x := last.x, fx := last.f })
  else if converged param xnorm gnorm then .ok (.inr { ret := 0, x := last.x, fx := last.f })
  else do
    let (stopped, pf) ← improvementTest param st last.f
    if stopped then return .inr { ret := 1, x := last.x, fx := last.f }
    else if param.maxIterations ≠ 0 ∧ param.maxIterations < st.k + 1 then
      return .inr { ret := LbfgsError.maximumiteration.code, x := last.x, fx := last.f }
    else return .inl (← nextState param st last pg pf)

/-- One round of the loop of `lbfgs`: the state of the next one, or the result. -/
def lbfgsIterate (param : LbfgsParameter K) (evaluate : LbfgsEvaluate n K)
    (progress : Option (LbfgsProgress n K)) (st : LbfgsState n K) :
    Exec (LbfgsState n K ⊕ LbfgsResult n K) :=
  let out := lineSearch param evaluate { x := st.x, f := st.fx, g := st.g, stp := st.step }
    st.d st.x st.pg
  match out.ls with
  | .error e => .ok (.inr { ret := e.code, x := st.x, fx := out.last.f })
  | .ok ls => finishRound param progress st out.last ls

/-- The loop of `lbfgs`, followed for a number of rounds. -/
def lbfgsLoop (param : LbfgsParameter K) (evaluate : LbfgsEvaluate n K)
    (progress : Option (LbfgsProgress n K)) : ℕ → LbfgsState n K → Exec (LbfgsResult n K)
  | 0, _ => .error .endless
  | rounds + 1, st => do
    match ← lbfgsIterate param evaluate progress st with
    | .inl next => lbfgsLoop param evaluate progress rounds next
    | .inr result => return result

def lbfgsStart (param : LbfgsParameter K) (evaluate : LbfgsEvaluate n K) (x : Vec n K) :
    LbfgsState n K :=
  let (value, g) := evaluate x 0
  let fx := if param.orthantwiseC == 0 then value
    else value + owlqnX1norm x param.orthantwiseStart param.orthantwiseEnd * param.orthantwiseC
  let pg := updatePseudoGradient param x g (fun _ => 0)
  let d := vecncpy (usedGradient param g pg)
  { x := x, fx := fx, g := g, pg := pg, d := d, step := vec2norminv d
    lm := List.replicate param.m.toNat { alpha := 0, s := fun _ => 0, y := fun _ => 0, ys := 0 }
    stop := 0, k := 1
    pf := (List.replicate param.past.toNat 0).set 0 fx }

/-- `lbfgs`. A negative `m` asks for more memory than there is. -/
def lbfgs (rounds : ℕ) (param : LbfgsParameter K) (evaluate : LbfgsEvaluate n K)
    (progress : Option (LbfgsProgress n K)) (x : Vec n K) : Exec (LbfgsResult n K) :=
  match lbfgsCheck n param with
  | .error e => .ok { ret := e.code, x := x, fx := 0 }
  | .ok param =>
    if param.m < 0 then .ok { ret := LbfgsError.outofmemory.code, x := x, fx := 0 }
    else
      let st := lbfgsStart param evaluate x
      if converged param (vec2norm x) (vec2norm (usedGradient param st.g st.pg)) then
        .ok { ret := 2, x := x, fx := st.fx }
      else lbfgsLoop param evaluate progress rounds st

end Minimisation
end Plfit
