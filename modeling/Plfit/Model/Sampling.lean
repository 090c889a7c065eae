import Mathlib
import Plfit.Library.MathLibrary
import Plfit.Model.Basic

/-! # The samplers of `sampling.c`

Pareto and zeta samples by inversion and rejection, and Walker's alias sampler with its two
stacks of sticks. Writes into the stacks are checked against what was allocated for them.
-/
namespace Plfit
open ExactArithmetic

section Pareto
variable {K : Type} [Field K] [LinearOrder K] [MathLibrary K]

def rparetoLoop (xmin gamma : Double K) : ℕ → Rng → List (Double K) × Rng
  | 0, rng => ([], rng)
  | n + 1, rng =>
    let (u, rng) := runif01 rng
    let x := MathLibrary.pow (1 - u) gamma * xmin
    let (xs, rng) := rparetoLoop xmin gamma n rng
    (x :: xs, rng)

/-- `plfit_rpareto_array`; the list holds what is written to the result. -/
def rparetoArray (xmin alpha : Double K) (n : ℕ) (rng : Rng) : Status × List (Double K) × Rng :=
  if alpha ≤ 0 ∨ xmin ≤ 0 then (.einval, [], rng)
  else if n = 0 then (.success, [], rng)
  else
    let gamma := -1 / alpha
    (.success, rparetoLoop xmin gamma n rng)

def rpareto (xmin alpha : Double K) (rng : Rng) : Double K × Rng :=
  if alpha ≤ 0 ∨ xmin ≤ 0 then (.nan, rng)
  else
    let (u, rng) := runif01 rng
    (MathLibrary.pow (1 - u) (-1 / alpha) * xmin, rng)

end Pareto

section Zeta
variable {K : Type} [Field K] [LinearOrder K] [FloorRing K] [MathLibrary K]

/-- The two nested rejection loops of `plfit_rzeta`, followed for a number of rounds. Both
conditions send the execution back to the draw of `u` and `v`. -/
def rzetaReject (xmin : ℤ) (alpha b oneOverBMinus1 : Double K) : ℕ → Rng → Exec (ℤ × Rng)
  | 0, _ => .error .endless
  | rounds + 1, rng => do
    let alphaMinus1 := alpha - 1
    let (u, rng) := runif01 rng
    let (v, rng) := runif01 rng
    let y := MathLibrary.pow (1 - u) (-1 / (alpha - 1)) * (xmin : Double K)
    let x ← convert (Double.toSigned 64 y.floor)
    if x < xmin then rzetaReject xmin alpha b oneOverBMinus1 rounds rng
    else
      let t := MathLibrary.pow (((x : Double K) + 1) / (x : Double K)) alphaMinus1
      if t * (xmin : Double K) < v * (x : Double K) * (t - 1) * oneOverBMinus1 * b
      then rzetaReject xmin alpha b oneOverBMinus1 rounds rng
      else .ok (x, rng)

def rzetaB (xmin : ℤ) (alpha : Double K) : Double K :=
  MathLibrary.pow (1 + 1 / (xmin : Double K)) (alpha - 1)

def rzeta (E : Environment K) (xmin : ℤ) (alpha : Double K) (rng : Rng) :
    Exec (Double K × Rng) :=
  if alpha ≤ 0 ∨ xmin < 1 then .ok (.nan, rng)
  else do
    let b := rzetaB xmin alpha
    let (x, rng) ← rzetaReject xmin alpha b (1 / (b - 1)) E.rejections rng
    return ((x : Double K), rng)

/-- The loop of `plfit_rzeta_array`: a negative sample is stored and ends it. -/
def rzetaLoop (E : Environment K) (xmin : ℤ) (alpha b : Double K) :
    ℕ → Rng → Exec (Status × List (Double K) × Rng)
  | 0, rng => .ok (.success, [], rng)
  | n + 1, rng => do
    let (x, rng) ← rzetaReject xmin alpha b (1 / (b - 1)) E.rejections rng
    if x < 0 then return (.einval, [(x : Double K)], rng)
    let (status, xs, rng) ← rzetaLoop E xmin alpha b n rng
    return (status, (x : Double K) :: xs, rng)

def rzetaArray (E : Environment K) (xmin : ℤ) (alpha : Double K) (n : ℕ) (rng : Rng) :
    Exec (Status × List (Double K) × Rng) :=
  if alpha ≤ 0 ∨ xmin < 1 then .ok (.einval, [], rng)
  else if n = 0 then .ok (.success, [], rng)
  else rzetaLoop E xmin alpha (rzetaB xmin alpha) n rng

end Zeta

/-! ## Walker's alias method -/

/-- An allocated stack of stick indexes, its top first. -/
structure Sticks where
  capacity : ℕ
  items : List ℕ

/-- `sticks[num++] = i`; the array has one slot even when no stick was counted. -/
def Sticks.push (s : Sticks) (i : ℕ) : Exec Sticks :=
  if s.items.length < s.capacity then .ok { s with items := i :: s.items }
  else .error .outOfBounds

structure WalkerAliasSampler (K : Type) where
  numBins : ℕ
  indexes : List ℕ
  probs : List (Double K)

/-- The sampler under construction with its two stacks. -/
structure AliasState (K : Type) where
  indexes : List ℕ
  probs : List (Double K)
  shortSticks : Sticks
  longSticks : Sticks

section Alias
variable {K : Type} [Field K] [LinearOrder K]

def normalizeWeights (ps : List (Double K)) : List (Double K) :=
  let sum := ps.foldl (fun sum p => sum + p) 0
  let sum := (ps.length : Double K) / sum
  ps.map (fun p => p * sum)

/-- Allocation of the two stacks by the number of sticks of each kind. -/
def allocateSticks (probs : List (Double K)) : Sticks × Sticks :=
  let numShort := probs.countP (fun p => p < 1)
  let numLong := probs.countP (fun p => ¬ p < 1 ∧ 1 < p)
  ({ capacity := max numShort 1, items := [] }, { capacity := max numLong 1, items := [] })

def fillSticks (probs : List (Double K)) (st : Sticks × Sticks) (i : ℕ) :
    Exec (Sticks × Sticks) := do
  let p ← deref probs i
  if p < 1 then return (← st.1.push i, st.2)
  else if 1 < p then return (st.1, ← st.2.push i)
  else return st

/-- The loop that prepares the index table. A long stick fills the bin of a short one; once
it has become short itself it changes stacks. -/
def prepareIndexTable (st : AliasState K) : Exec (AliasState K) :=
  match hs : st.shortSticks.items, hl : st.longSticks.items with
  | short :: shorts, long :: longs => do
    let p ← deref st.probs short
    let q ← deref st.probs long
    let r := (q + p) - 1
    let next : AliasState K :=
      { indexes := st.indexes.set short long
        probs := st.probs.set long r
        shortSticks := { st.shortSticks with items := shorts }
        longSticks := { st.longSticks with items := long :: longs } }
    if r < 1 then
      if shorts.length < st.shortSticks.capacity then
        prepareIndexTable
          { next with
            shortSticks := { st.shortSticks with items := long :: shorts }
            longSticks := { st.longSticks with items := longs } }
      else .error .outOfBounds
    else prepareIndexTable next
  | _, _ => .ok st
termination_by st.shortSticks.items.length + st.longSticks.items.length
decreasing_by all_goals simp only [hs, hl, List.length_cons]; omega

/-- The final loops: every stick left on a stack gets probability one. -/
def fixSticks (probs : List (Double K)) (sticks : Sticks) : List (Double K) :=
  sticks.items.foldl (fun probs i => probs.set i 1) probs

/-- The state of `plfit_walker_alias_sampler_init` when the index table is prepared. -/
def walkerAliasPrepare (ps : List (Double K)) : Exec (AliasState K) := do
  let probs := normalizeWeights ps
  let (shortSticks, longSticks) ←
    (List.range ps.length).foldlM (fillSticks probs) (allocateSticks probs)
  prepareIndexTable
    { indexes := List.replicate ps.length 0
      probs := probs
      shortSticks := shortSticks
      longSticks := longSticks }

def walkerAliasSamplerInit (ps : List (Double K)) :
    Exec (Except Status (WalkerAliasSampler K)) :=
  if 2 ^ 63 - 1 < ps.length then .ok (.error .einval)
  else do
    let st ← walkerAliasPrepare ps
    let probs := fixSticks (fixSticks st.probs st.longSticks) st.shortSticks
    return .ok { numBins := ps.length, indexes := st.indexes, probs := probs }

/-- One item: the uniform draw comes first, then the bin. -/
def walkerAliasDraw (sampler : WalkerAliasSampler K) (rng : Rng) : Exec (ℕ × Rng) := do
  let (u, rng) := (runif01 rng : Double K × Rng)
  let (r, rng) := rng.next
  let j := r % sampler.numBins
  let p ← deref sampler.probs j
  let other ← deref sampler.indexes j
  return (if u < p then j else other, rng)

def walkerAliasSamplerSample (sampler : WalkerAliasSampler K) : ℕ → Rng → Exec (List ℕ × Rng)
  | 0, rng => .ok ([], rng)
  | n + 1, rng => do
    let (x, rng) ← walkerAliasDraw sampler rng
    let (xs, rng) ← walkerAliasSamplerSample sampler n rng
    return (x :: xs, rng)

end Alias
end Plfit
