import Mathlib
import Plfit.Model.Basic

/-! # Array helpers of `plfit.c`

Sorting, splitting at a threshold, and the table of the first elements of the blocks of
equal values. An array is a list and a pointer into it a position.
-/
namespace Plfit
open ExactArithmetic

section Arrays
variable {K : Type} [LinearOrder K]

/-- `plfit_i_copy_and_sort`. The comparator orders `a` before `b` unless `a > b`. -/
def iCopyAndSort (xs : List (Double K)) : List (Double K) :=
  xs.insertionSort (fun a b => ¬ b < a)

def countSmaller (xs : List (Double K)) (xmin : Double K) : ℕ :=
  xs.countP (fun x => x < xmin)

/-- `extract_smaller`: the elements below the threshold, in an array that has one zero
element when there are none, and their number. -/
def extractSmaller [Zero K] (xs : List (Double K)) (xmin : Double K) : List (Double K) × ℕ :=
  let smaller := xs.filter (fun x => x < xmin)
  (if smaller = [] then [.fin 0] else smaller, countSmaller xs xmin)

/-- The result array of `unique_element_pointers` while it is filled: `numElts + 1` slots
are allocated, and the written ones are kept in order. -/
structure UniqueTable where
  numElts : ℕ
  entries : List (Option ℕ)

/-- `result[used_elts++] = ptr`, inside the allocated slots or not at all. -/
def UniqueTable.store (t : UniqueTable) (ptr : Option ℕ) : Exec UniqueTable :=
  if t.entries.length < t.numElts + 1 then .ok { t with entries := t.entries ++ [ptr] }
  else .error .outOfBounds

def UniqueTable.grow (t : UniqueTable) : UniqueTable :=
  if t.numElts ≤ t.entries.length then { t with numElts := t.numElts * 2 + 1 } else t

/-- The loop over the elements at `ptr`, `ptr + 1`, ... -/
def uniqueLoop (prevX : Double K) (ptr : ℕ) (t : UniqueTable) :
    List (Double K) → Exec UniqueTable
  | [] => .ok t
  | x :: xs =>
    if x == prevX then uniqueLoop prevX (ptr + 1) t xs
    else do
      let t ← t.grow.store (some ptr)
      uniqueLoop x (ptr + 1) t xs

/-- `unique_element_pointers`: the table with its guard entry and the number of blocks. -/
def uniqueElementPointers (xs : List (Double K)) : Exec (List (Option ℕ) × ℕ) :=
  match xs with
  | [] => .ok ([none], 0)
  | x :: rest => do
    let t ← UniqueTable.store { numElts := 15, entries := [] } (some 0)
    let t ← uniqueLoop x 1 t rest
    let resultLength := t.entries.length
    let t ← t.store none
    return (t.entries, resultLength)

/-- Dereferencing an entry of a table of pointers, which must not be the guard. -/
def derefPointer (probes : List (Option ℕ)) (i : ℕ) : Exec ℕ := do
  match ← deref probes i with
  | some p => return p
  | none => .error .outOfBounds

/-- The array of length `n` from `begin + n - m`, read to its end. -/
def tailWindow (xs : List (Double K)) (m : ℕ) : Exec (List (Double K)) :=
  if m ≤ xs.length then .ok (xs.drop (xs.length - m)) else .error .outOfBounds

end Arrays
end Plfit
