import Equilibration.Sliced.Wellformed

/-!
# MatrixInput — what a caller hands over

Three arrays, together with the dimensions and the number of entries that
the caller states for them. Nothing is checked before `MatrixInput.check`.
-/

namespace Equilibration

/-- The arrays of a caller and what the caller says of them. -/
structure MatrixInput (α : Type) where
  /-- Whether the slices are rows or columns. -/
  order : StorageOrder
  /-- The stated number of rows. -/
  rows : Nat
  /-- The stated number of columns. -/
  cols : Nat
  /-- The stated number of entries. -/
  entryCount : Nat
  /-- Where each slice begins. -/
  starts : Array Nat
  /-- The secondary index of each entry. -/
  indices : Array Nat
  /-- The value of each entry. -/
  values : Array α
deriving BEq, Repr

namespace MatrixInput

variable {α : Type}

/-- Checks that the arrays describe a matrix of the stated dimensions with
the stated number of entries. -/
def check (input : MatrixInput α) : Checked (Except LayoutError Unit) :=
  if input.values.size ≠ input.entryCount then pure (.error .lengthMismatch)
  else
    checkArrays (input.order.primary input.rows input.cols)
      (input.order.flip.primary input.rows input.cols)
      input.starts input.indices input.values.size

/-- The matrix of the arrays, in their own order. -/
def toSliced (input : MatrixInput α) : Checked (SlicedMatrix α) :=
  SlicedMatrix.ofArrays input.order input.rows input.cols input.starts
    input.indices input.values

end MatrixInput

end Equilibration
