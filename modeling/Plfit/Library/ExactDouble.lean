import Mathlib

/-! # Doubles in exact arithmetic

A double is a number of an ordered field or one of the special values of IEEE 754.
Operations on numbers are the exact field operations; the special values follow the
standard, with a single zero. Comparisons with a NaN are false, so `¬ a < b` and
`b ≤ a` are different conditions and code is translated with the one it uses.
-/
namespace ExactArithmetic

/-- A floating-point value without rounding. -/
inductive Double (K : Type*)
  | nan
  | ninf
  | fin (x : K)
  | pinf

namespace Double
variable {K : Type*}

section Order
variable [LinearOrder K]

def ltBool : Double K → Double K → Bool
  | fin x, fin y => decide (x < y)
  | ninf, fin _ => true
  | ninf, pinf => true
  | fin _, pinf => true
  | _, _ => false

def leBool : Double K → Double K → Bool
  | fin x, fin y => decide (x ≤ y)
  | ninf, ninf => true
  | ninf, fin _ => true
  | ninf, pinf => true
  | fin _, pinf => true
  | pinf, pinf => true
  | _, _ => false

/-- The equality test of IEEE 754: a NaN differs from itself. -/
def eqBool : Double K → Double K → Bool
  | fin x, fin y => decide (x = y)
  | ninf, ninf => true
  | pinf, pinf => true
  | _, _ => false

instance : LT (Double K) := ⟨fun a b => ltBool a b = true⟩
instance : LE (Double K) := ⟨fun a b => leBool a b = true⟩
instance : BEq (Double K) := ⟨eqBool⟩
instance : DecidableLT (Double K) := fun a b => inferInstanceAs (Decidable (ltBool a b = true))
instance : DecidableLE (Double K) := fun a b => inferInstanceAs (Decidable (leBool a b = true))

theorem lt_def (a b : Double K) : a < b ↔ ltBool a b = true := Iff.rfl
theorem le_def (a b : Double K) : a ≤ b ↔ leBool a b = true := Iff.rfl
theorem beq_def (a b : Double K) : (a == b) = eqBool a b := rfl

@[simp] theorem fin_lt_fin {x y : K} : (fin x : Double K) < fin y ↔ x < y := by
  simp [lt_def, ltBool]
@[simp] theorem fin_le_fin {x y : K} : (fin x : Double K) ≤ fin y ↔ x ≤ y := by
  simp [le_def, leBool]
@[simp] theorem fin_beq_fin {x y : K} : ((fin x : Double K) == fin y) = decide (x = y) := rfl
@[simp] theorem fin_lt_pinf {x : K} : (fin x : Double K) < pinf := rfl
@[simp] theorem ninf_lt_fin {x : K} : (ninf : Double K) < fin x := rfl
@[simp] theorem fin_le_pinf {x : K} : (fin x : Double K) ≤ pinf := rfl
@[simp] theorem ninf_le_fin {x : K} : (ninf : Double K) ≤ fin x := rfl
@[simp] theorem not_lt_nan (a : Double K) : ¬ a < nan := by cases a <;> simp [lt_def, ltBool]
@[simp] theorem not_nan_lt (a : Double K) : ¬ nan < a := by cases a <;> simp [lt_def, ltBool]
@[simp] theorem not_le_nan (a : Double K) : ¬ a ≤ nan := by cases a <;> simp [le_def, leBool]
@[simp] theorem not_nan_le (a : Double K) : ¬ nan ≤ a := by cases a <;> simp [le_def, leBool]
@[simp] theorem not_pinf_lt (a : Double K) : ¬ pinf < a := by cases a <;> simp [lt_def, ltBool]
@[simp] theorem not_lt_ninf (a : Double K) : ¬ a < ninf := by cases a <;> simp [lt_def, ltBool]
@[simp] theorem not_pinf_le_fin (x : K) : ¬ (pinf : Double K) ≤ fin x := by
  simp [le_def, leBool]
@[simp] theorem not_fin_le_ninf (x : K) : ¬ (fin x : Double K) ≤ ninf := by
  simp [le_def, leBool]

protected theorem lt_irrefl (a : Double K) : ¬ a < a := by
  cases a <;> simp [lt_def, ltBool]

/-- The place of a double in the order of the numbers and the infinities. A NaN is put at
the top, where no strict comparison selects it. -/
def rank : Double K → WithBot (WithTop K)
  | nan => ⊤
  | ninf => ⊥
  | fin x => ((x : WithTop K) : WithBot (WithTop K))
  | pinf => ⊤

/-- Against anything but a NaN the strict comparison is the comparison of ranks. -/
theorem lt_iff_rank_lt {a b : Double K} (hb : b ≠ nan) : a < b ↔ rank a < rank b := by
  have hcoe : ∀ x : K, ((x : WithTop K) : WithBot (WithTop K)) < ⊤ := by
    intro x
    exact WithBot.coe_lt_coe.mpr (WithTop.coe_lt_top x)
  cases a <;> cases b <;>
    simp [lt_def, ltBool, rank, WithBot.bot_lt_coe, hcoe, bot_lt_top] at hb ⊢

/-- Below the infinity the weak comparison is the comparison of ranks as well. -/
theorem le_iff_rank_le {a b : Double K} (hb : rank b < ⊤) : a ≤ b ↔ rank a ≤ rank b := by
  have hcoe : ∀ x : K, ((x : WithTop K) : WithBot (WithTop K)) < ⊤ := by
    intro x
    exact WithBot.coe_lt_coe.mpr (WithTop.coe_lt_top x)
  cases a <;> cases b <;>
    simp [le_def, leBool, rank, bot_lt_top, (hcoe _).not_ge] at hb ⊢

theorem le_iff_rank_le_of_ne_nan {a b : Double K} (ha : a ≠ nan) (hb : b ≠ nan) :
    a ≤ b ↔ rank a ≤ rank b := by
  have hcoe : ∀ x : K, ((x : WithTop K) : WithBot (WithTop K)) < ⊤ := by
    intro x
    exact WithBot.coe_lt_coe.mpr (WithTop.coe_lt_top x)
  cases a <;> cases b <;>
    simp [le_def, leBool, rank, (hcoe _).not_ge] at ha hb ⊢

theorem ne_nan_of_lt {a b : Double K} (h : a < b) : a ≠ nan := by
  rintro rfl
  exact not_nan_lt b h

protected theorem lt_trans {a b c : Double K} (hab : a < b) (hbc : b < c) : a < c := by
  have hb := ne_nan_of_lt hbc
  have hc : c ≠ nan := by
    rintro rfl
    exact not_lt_nan b hbc
  rw [lt_iff_rank_lt hc] at hbc ⊢
  exact ((lt_iff_rank_lt hb).mp hab).trans hbc

protected theorem not_le_of_lt {a b : Double K} (h : a < b) : ¬ b ≤ a := by
  have hb : b ≠ nan := by
    rintro rfl
    exact not_lt_nan a h
  rw [le_iff_rank_le_of_ne_nan hb (ne_nan_of_lt h), not_le]
  exact (lt_iff_rank_lt hb).mp h

/-- Only equal values pass the test; a NaN fails it against everything. -/
protected theorem eq_of_beq {a b : Double K} (h : a == b) : a = b := by
  cases a <;> cases b <;> simp_all [beq_def, eqBool]

theorem beq_of_le_of_le {a b : Double K} (hab : a ≤ b) (hba : b ≤ a) : a == b := by
  cases a with
  | fin x =>
    cases b with
    | fin y =>
      rw [fin_le_fin] at hab hba
      simpa using le_antisymm hab hba
    | _ => simp_all [le_def, leBool]
  | _ => cases b <;> simp_all [le_def, leBool, beq_def, eqBool]

theorem ite_lt_fin (x y : K) : (if (fin x : Double K) < fin y then fin y else fin x) = fin (max x y) := by
  by_cases h : x < y
  · rw [if_pos (fin_lt_fin.mpr h), max_eq_right h.le]
  · rw [if_neg (fin_lt_fin.not.mpr h), max_eq_left (not_lt.mp h)]

@[simp] theorem rank_fin_le {x y : K} : rank (fin x) ≤ rank (fin y) ↔ x ≤ y := by
  simp [rank]
@[simp] theorem rank_fin_lt {x y : K} : rank (fin x) < rank (fin y) ↔ x < y := by
  simp [rank]

end Order

section Addition
variable [Field K]

def neg : Double K → Double K
  | nan => nan
  | ninf => pinf
  | fin x => fin (-x)
  | pinf => ninf

def add : Double K → Double K → Double K
  | fin x, fin y => fin (x + y)
  | fin _, pinf => pinf
  | pinf, fin _ => pinf
  | pinf, pinf => pinf
  | fin _, ninf => ninf
  | ninf, fin _ => ninf
  | ninf, ninf => ninf
  | _, _ => nan

instance : Zero (Double K) := ⟨fin 0⟩
instance : One (Double K) := ⟨fin 1⟩
instance : NatCast (Double K) := ⟨fun n => fin n⟩
instance : IntCast (Double K) := ⟨fun n => fin n⟩
instance : Neg (Double K) := ⟨neg⟩
instance : Add (Double K) := ⟨add⟩
instance : Sub (Double K) := ⟨fun a b => add a (neg b)⟩

@[simp] theorem zero_def : (0 : Double K) = fin 0 := rfl
@[simp] theorem one_def : (1 : Double K) = fin 1 := rfl
@[simp] theorem natCast_def (n : ℕ) : (n : Double K) = fin (n : K) := rfl
@[simp] theorem intCast_def (n : ℤ) : (n : Double K) = fin (n : K) := rfl
@[simp] theorem ofNat_def (n : ℕ) [n.AtLeastTwo] :
    (OfNat.ofNat n : Double K) = fin (OfNat.ofNat n : K) := rfl

@[simp] theorem neg_fin (x : K) : -(fin x : Double K) = fin (-x) := rfl
@[simp] theorem neg_nan : -(nan : Double K) = nan := rfl
@[simp] theorem fin_add_fin (x y : K) : (fin x : Double K) + fin y = fin (x + y) := rfl
@[simp] theorem fin_sub_fin (x y : K) : (fin x : Double K) - fin y = fin (x - y) := by
  change fin (x + -y) = _
  rw [← sub_eq_add_neg]
@[simp] theorem nan_add (a : Double K) : nan + a = nan := by cases a <;> rfl
@[simp] theorem add_nan (a : Double K) : a + nan = nan := by cases a <;> rfl
@[simp] theorem nan_sub (a : Double K) : nan - a = nan := by cases a <;> rfl
@[simp] theorem sub_nan (a : Double K) : a - nan = nan := by cases a <;> rfl

end Addition

section Multiplication
variable [Field K] [LinearOrder K]

/-- The infinity of a given sign; the sign of an invalid operation gives a NaN. -/
def ofSign : SignType → Double K
  | .neg => ninf
  | .zero => nan
  | .pos => pinf

def sgn : Double K → SignType
  | nan => 0
  | ninf => -1
  | fin x => SignType.sign x
  | pinf => 1

/-- An infinity times zero is invalid, which is the sign zero here. -/
def mul : Double K → Double K → Double K
  | fin x, fin y => fin (x * y)
  | a, b => ofSign (sgn a * sgn b)

/-- Division by the only zero: `0 / 0` is invalid, everything else divided by zero is the
infinity of its own sign. -/
def div : Double K → Double K → Double K
  | fin x, fin y => if y = 0 then ofSign (SignType.sign x) else fin (x / y)
  | fin _, pinf => fin 0
  | fin _, ninf => fin 0
  | pinf, fin y => if y < 0 then ninf else pinf
  | ninf, fin y => if y < 0 then pinf else ninf
  | _, _ => nan

def fabs : Double K → Double K
  | nan => nan
  | fin x => fin |x|
  | _ => pinf

instance : Mul (Double K) := ⟨mul⟩
instance : Div (Double K) := ⟨div⟩

@[simp] theorem fin_mul_fin (x y : K) : (fin x : Double K) * fin y = fin (x * y) := rfl
@[simp] theorem fabs_fin (x : K) : fabs (fin x : Double K) = fin |x| := rfl
@[simp] theorem fabs_nan : fabs (nan : Double K) = nan := rfl

@[simp] theorem nan_mul (a : Double K) : nan * a = nan := by
  change mul nan a = nan
  cases a <;> simp [mul, sgn, ofSign]
@[simp] theorem nan_div (a : Double K) : nan / a = nan := by cases a <;> rfl

theorem pinf_mul_fin {x : K} (hx : 0 < x) : pinf * fin x = (pinf : Double K) := by
  change ofSign (1 * SignType.sign x) = pinf
  rw [sign_pos hx]
  rfl

theorem fin_mul_pinf {x : K} (hx : 0 < x) : fin x * pinf = (pinf : Double K) := by
  change ofSign (SignType.sign x * 1) = pinf
  rw [sign_pos hx]
  rfl

@[simp] theorem mul_nan (a : Double K) : a * nan = nan := by
  change mul a nan = nan
  cases a <;> simp [mul, sgn, ofSign]

theorem fin_div_fin {x y : K} (hy : y ≠ 0) : (fin x : Double K) / fin y = fin (x / y) := by
  change div (fin x) (fin y) = _
  simp [div, hy]

theorem fin_div_zero (x : K) : (fin x : Double K) / fin 0 = ofSign (SignType.sign x) := by
  change div (fin x) (fin 0) = _
  simp [div]

end Multiplication

section Conversion
variable [Field K] [LinearOrder K] [FloorRing K]

def truncate (x : K) : ℤ := if 0 ≤ x then ⌊x⌋ else ⌈x⌉

/-- Conversion to a signed integer of the given width. It is undefined, and gives nothing,
unless the truncated value can be represented. -/
def toSigned (bits : ℕ) : Double K → Option ℤ
  | fin x => if -2 ^ (bits - 1) ≤ truncate x ∧ truncate x < 2 ^ (bits - 1)
      then some (truncate x) else none
  | _ => none

theorem toSigned_of_lt {bits : ℕ} {x : K} (hx : 0 ≤ x) (hlt : x < 2 ^ (bits - 1)) :
    toSigned bits (.fin x) = some (⌊x⌋₊ : ℤ) := by
  have hfloor : ⌊x⌋ < 2 ^ (bits - 1) := by
    rw [Int.floor_lt]
    exact_mod_cast hlt
  have hnonneg : 0 ≤ ⌊x⌋ := Int.floor_nonneg.mpr hx
  have hlow : (-2 ^ (bits - 1) : ℤ) ≤ 0 := by simp
  rw [toSigned, truncate, if_pos hx, if_pos ⟨hlow.trans hnonneg, hfloor⟩,
    Int.natCast_floor_eq_floor hx]

/-- Conversion to an unsigned integer of the given width, undefined out of its range. -/
def toUnsigned (bits : ℕ) : Double K → Option ℕ
  | fin x => if 0 ≤ truncate x ∧ truncate x < 2 ^ bits then some (truncate x).toNat else none
  | _ => none

/-- The largest integer below a number; special values stay what they are. -/
def floor : Double K → Double K
  | fin x => fin (⌊x⌋ : K)
  | a => a

/-- The smallest integer above a number; special values stay what they are. -/
def ceil : Double K → Double K
  | fin x => fin (⌈x⌉ : K)
  | a => a

end Conversion

end Double
end ExactArithmetic
