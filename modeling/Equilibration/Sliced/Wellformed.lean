import Equilibration.Sliced.Basic

/-!
# Sliced — Wellformed

When do three arrays describe a matrix? `checkArrays` asks a few local
questions in a fixed order and names the first that fails; the order
matters, since malformed arrays usually fail several. A matrix with as many
slices as there are machine words has no number of pointers, and the check
of its arrays stops there.
-/

namespace Equilibration

open Checked

/-- Why arrays describe no matrix. -/
inductive LayoutError where
  /-- A length disagrees with the dimensions or with another length. -/
  | lengthMismatch
  /-- The pointers do not start at zero, or decrease somewhere. -/
  | pointerOrder
  /-- An index reaches beyond the secondary dimension. -/
  | indexRange
deriving DecidableEq, Repr

/-- The text of a layout error. -/
def LayoutError.message : LayoutError → String
  | .lengthMismatch =>
    "Matrix dimension fields and/or array lengths are incompatible"
  | .pointerOrder => "Bad pointer values"
  | .indexRange => "Index value exceeds the matrix dimension"

/-- Whether no element is followed by a smaller one. -/
def isNondecreasing : List Nat → Bool
  | s :: t :: rest => decide (s ≤ t) && isNondecreasing (t :: rest)
  | _ => true

/-- Checks that `starts` cuts the entries into `slices` slices and that the
indices lie below `bound`. -/
def checkSlices (slices bound : Nat) (starts indices : Array Nat) :
    Except LayoutError Unit :=
  if starts.size ≠ slices + 1 ∨ starts[slices]? ≠ some indices.size then
    .error .lengthMismatch
  else if starts[0]? ≠ some 0 ∨ ¬ isNondecreasing starts.toList then
    .error .pointerOrder
  else if ¬ indices.all (· < bound) then .error .indexRange
  else .ok ()

/-- Checks that arrays describe a matrix with `slices` slices and indices
below `bound`. Arrays of different lengths are refused before the pointers
are counted, so only then must their number fit a machine word. -/
def checkArrays (slices bound : Nat) (starts indices : Array Nat)
    (valueCount : Nat) :
    Checked (Except LayoutError Unit) :=
  if indices.size ≠ valueCount then pure (.error .lengthMismatch)
  else do
    require (slices + 1 < UInt64.size) .capacity
    pure (checkSlices slices bound starts indices)

/-- Checks that the fields of a matrix describe a matrix. -/
def SlicedMatrix.check {α : Type} (A : SlicedMatrix α) :
    Checked (Except LayoutError Unit) :=
  checkArrays A.sliceCount A.indexBound A.starts A.indices A.values.size

/-- With a number of pointers that fits a machine word the check always
comes to a verdict. -/
theorem checkArrays_eq_ok {slices bound : Nat} {starts indices : Array Nat}
    {valueCount : Nat} (h : slices + 1 < UInt64.size) :
    checkArrays slices bound starts indices valueCount
      = .ok (if indices.size ≠ valueCount then .error .lengthMismatch
          else checkSlices slices bound starts indices) := by
  unfold checkArrays
  split
  · rfl
  · rw [require, if_pos h]
    rfl

end Equilibration
