import Mathlib
import Plfit.Library.ExactDouble

/-! # The Mersenne Twister of `mt.c`

The generator keeps 624 words and the byte offset of the next one. When the offset reaches
the end of the buffer all words are regenerated in place; the outputs are not tempered.
-/
namespace Plfit
open ExactArithmetic

abbrev mtLen : ℕ := 624

def mtRandMax : ℕ := 0xFFFFFFFF

structure MtRng where
  mtIndex : ℕ
  mtBuffer : Vector UInt32 mtLen

def twist (b : Vector UInt32 mtLen) (i j : ℕ) : UInt32 :=
  (b.getD i 0 &&& 0x80000000) ||| (b.getD j 0 &&& 0x7FFFFFFF)

def magic (s : UInt32) : UInt32 := (s &&& 1) * 0x9908B0DF

/-- One assignment `b[i] = b[k] ^ (s >> 1) ^ MAGIC(s)` with `s = TWIST(b, i, j)`. -/
def regenerateWord (i j k : ℕ) (b : Vector UInt32 mtLen) : Vector UInt32 mtLen :=
  let s := twist b i j
  b.setIfInBounds i (b.getD k 0 ^^^ (s >>> 1) ^^^ magic s)

/-- The two loops and the special last word that renew the buffer in place. -/
def regenerate (b : Vector UInt32 mtLen) : Vector UInt32 mtLen :=
  let b := (List.range (mtLen - 397)).foldl (fun b i => regenerateWord i (i + 1) (i + 397) b) b
  let b := (List.range' (mtLen - 397) 396).foldl
    (fun b i => regenerateWord i (i + 1) (i - (mtLen - 397)) b) b
  regenerateWord (mtLen - 1) 0 396 b

def mtRandom (rng : MtRng) : UInt32 × MtRng :=
  let (b, idx) :=
    if rng.mtIndex = mtLen * 4 then (regenerate rng.mtBuffer, 0)
    else (rng.mtBuffer, rng.mtIndex)
  (b.getD (idx / 4) 0, { mtIndex := idx + 4, mtBuffer := b })

def MtRng.output (rng : MtRng) : ℕ → UInt32
  | 0 => (mtRandom rng).1
  | k + 1 => (mtRandom rng).2.output k

/-- `plfit_mt_init_from_rng` with a seeder: the buffer takes the seeder's next outputs. -/
def mtInitFromRng (seeder : MtRng) : MtRng × MtRng :=
  let (buffer, seeder) := (List.range mtLen).foldl
    (fun (st : Vector UInt32 mtLen × MtRng) i =>
      let (r, seeder) := mtRandom st.2
      (st.1.setIfInBounds i r, seeder))
    (Vector.replicate mtLen 0, seeder)
  ({ mtIndex := 0, mtBuffer := buffer }, seeder)

/-- The generator behind an `rng` pointer: a Mersenne Twister or, for a null pointer, the
`rand()` of the C library with its remaining values. -/
inductive Rng
  | builtin (randMax : ℕ) (rand : ℕ → ℕ)
  | twister (rng : MtRng)

def Rng.output : Rng → ℕ → ℕ
  | .builtin _ rand, k => rand k
  | .twister rng, k => (rng.output k).toNat

def Rng.advance : Rng → ℕ → Rng
  | rng, 0 => rng
  | .builtin m rand, k + 1 => (Rng.builtin m (fun i => rand (i + 1))).advance k
  | .twister rng, k + 1 => (Rng.twister (mtRandom rng).2).advance k

def Rng.maximum : Rng → ℕ
  | .builtin randMax _ => randMax
  | .twister _ => mtRandMax

def Rng.next : Rng → ℕ × Rng
  | .builtin randMax rand => (rand 0, .builtin randMax (fun k => rand (k + 1)))
  | .twister rng => let (r, rng) := mtRandom rng; (r.toNat, .twister rng)

section Uniform
variable {K : Type} [Field K] [LinearOrder K]

def mtUniform01 (rng : MtRng) : Double K × MtRng :=
  let (r, rng) := mtRandom rng
  ((r.toNat : Double K) / (mtRandMax : Double K), rng)

def runif01 : Rng → Double K × Rng
  | .builtin randMax rand =>
    ((rand 0 : Double K) / (randMax : Double K), .builtin randMax (fun k => rand (k + 1)))
  | .twister rng => let (u, rng) := mtUniform01 rng; (u, .twister rng)

def runif (lo hi : Double K) (rng : Rng) : Double K × Rng :=
  let (u, rng) := runif01 rng
  (lo + u * (hi - lo), rng)

end Uniform

@[simp] theorem Rng.next_fst (rng : Rng) : rng.next.1 = rng.output 0 := by
  cases rng <;> rfl

@[simp] theorem Rng.next_snd (rng : Rng) : rng.next.2 = rng.advance 1 := by
  cases rng <;> rfl

@[simp] theorem Rng.advance_zero (rng : Rng) : rng.advance 0 = rng := by
  cases rng <;> rfl

theorem Rng.advance_succ (rng : Rng) (k : ℕ) : rng.advance (k + 1) = (rng.advance 1).advance k := by
  cases rng <;> rfl

@[simp] theorem Rng.output_advance_one (rng : Rng) (k : ℕ) :
    (rng.advance 1).output k = rng.output (k + 1) := by
  cases rng <;> rfl

theorem Rng.advance_add (rng : Rng) (a b : ℕ) : rng.advance (a + b) = (rng.advance a).advance b := by
  induction a generalizing rng with
  | zero => rw [Nat.zero_add, Rng.advance_zero]
  | succ a ih => rw [Nat.succ_add, Rng.advance_succ, ih, ← Rng.advance_succ]

theorem Rng.output_advance (rng : Rng) (a k : ℕ) :
    (rng.advance a).output k = rng.output (a + k) := by
  induction a generalizing rng with
  | zero => rw [Nat.zero_add, Rng.advance_zero]
  | succ a ih => rw [Rng.advance_succ, ih, Rng.output_advance_one, Nat.succ_add]

@[simp] theorem Rng.maximum_advance (rng : Rng) (k : ℕ) :
    (rng.advance k).maximum = rng.maximum := by
  induction k generalizing rng with
  | zero => rw [Rng.advance_zero]
  | succ k ih =>
    rw [Rng.advance_succ, ih]
    cases rng <;> rfl

@[simp] theorem runif01_snd {K : Type} [Field K] [LinearOrder K] (rng : Rng) :
    (runif01 rng : Double K × Rng).2 = rng.advance 1 := by
  cases rng <;> rfl

theorem runif01_fst {K : Type} [Field K] [LinearOrder K] (rng : Rng) :
    (runif01 rng : Double K × Rng).1 = (rng.output 0 : Double K) / (rng.maximum : Double K) := by
  cases rng <;> rfl

theorem MtRng.output_le (rng : MtRng) (k : ℕ) : (rng.output k).toNat ≤ mtRandMax :=
  Nat.le_of_lt_succ (UInt32.toNat_lt _)

/-- A buffer can hold any two words next. -/
theorem exists_outputs (a b : UInt32) : ∃ rng : MtRng, rng.output 0 = a ∧ rng.output 1 = b := by
  let start : Vector UInt32 mtLen := Vector.replicate mtLen 0
  refine ⟨{ mtIndex := 0, mtBuffer := (start.setIfInBounds 0 a).setIfInBounds 1 b }, ?_, ?_⟩
  · simp only [MtRng.output, mtRandom]
    unfold Vector.getD
    simp
  · simp only [MtRng.output, mtRandom]
    unfold Vector.getD
    simp

end Plfit
