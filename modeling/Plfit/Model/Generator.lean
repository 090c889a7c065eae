import Mathlib
import Plfit.Model.Sampling

/-! # The sample generator of `plgen.c`

With an exponential cutoff the discrete samples come from an alias sampler over a table of
weights, without one from the zeta sampler. An execution gives the return code, the printed
numbers and the generator.
-/
namespace Plfit
open ExactArithmetic

/-- `cmd_options_t`, as far as the discrete samples depend on it. -/
structure CmdOptions (K : Type) where
  numSamples : ℤ
  gamma : Double K
  kappa : Double K
  offset : Double K
  xmin : Double K

def blockSize : ℕ := 16384

def numProbs : ℕ := 100000

section Generator
variable {K : Type} [Field K] [LinearOrder K] [MathLibrary K]

/-- The weight of the `i`-th outcome. The counter is a `size_t`, and so is its negative. -/
def cutoffWeight (opts : CmdOptions K) (i : ℕ) : Double K :=
  MathLibrary.exp ((sizeSub 0 i : Double K) / opts.kappa) *
    MathLibrary.pow (((i : Double K) + opts.xmin) / opts.xmin) (-opts.gamma)

def cutoffWeights (opts : CmdOptions K) : List (Double K) :=
  (List.range numProbs).map (cutoffWeight opts)

variable [FloorRing K]

/-- The printed lines for a block of sampled indexes. -/
def printBlock (opts : CmdOptions K) (samples : List ℕ) : Exec (List ℤ) :=
  samples.mapM fun i : ℕ =>
    convert (Double.toSigned 64 ((i : Double K) + opts.offset + opts.xmin))

/-- The loop over the blocks of at most `blockSize` samples. -/
def cutoffLoop (opts : CmdOptions K) (sampler : WalkerAliasSampler K) (remaining : ℕ) (rng : Rng) :
    Exec (List ℤ × Rng) :=
  if _h : remaining = 0 then .ok ([], rng)
  else do
    let n := if blockSize < remaining then blockSize else remaining
    let (samples, rng) ← walkerAliasSamplerSample sampler n rng
    let lines ← printBlock opts samples
    let (rest, rng) ← cutoffLoop opts sampler (remaining - n) rng
    return (lines ++ rest, rng)
termination_by remaining
decreasing_by
  unfold blockSize
  split <;> omega

/-- The loop that prints the samples of a pure power law. -/
def pureLoop (E : Environment K) (opts : CmdOptions K) (xmin : ℤ) :
    ℕ → Rng → Exec (List ℤ × Rng)
  | 0, rng => .ok ([], rng)
  | k + 1, rng => do
    let (x, rng) ← rzeta E xmin opts.gamma rng
    let line ← convert (Double.toSigned 64 (x + opts.offset))
    let (rest, rng) ← pureLoop E opts xmin k rng
    return (line :: rest, rng)

def sampleDiscrete (E : Environment K) (opts : CmdOptions K) (rng : Rng) :
    Exec (ℤ × List ℤ × Rng) :=
  if opts.numSamples ≤ 0 then .ok (0, [], rng)
  else if 0 < opts.kappa then do
    match ← walkerAliasSamplerInit (cutoffWeights opts) with
    | .error _ => return (9, [], rng)
    | .ok sampler => do
      let (lines, rng) ← cutoffLoop opts sampler opts.numSamples.toNat rng
      return (0, lines, rng)
  else do
    let xmin ← convert (Double.toSigned 64 opts.xmin)
    let (lines, rng) ← pureLoop E opts xmin opts.numSamples.toNat rng
    return (0, lines, rng)

end Generator
end Plfit
