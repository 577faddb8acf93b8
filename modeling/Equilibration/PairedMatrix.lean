import Equilibration.MatrixInput
import Equilibration.PackedSigns
import Equilibration.Sliced.Conversion
import Equilibration.Sliced.Product
import Equilibration.Sliced.Scaling

/-!
# PairedMatrix — one matrix in both storage orders

A matrix that is multiplied from both sides is kept twice, by rows and by
columns, so that products with it and with its transpose both gather. The
two forms hold the same entries in different places; every change of the
values is made to both, and the pattern never changes.
-/

namespace Equilibration

open Checked

/-- The row form and the column form of one matrix. -/
structure PairedMatrix (α : Type) where
  /-- The matrix by rows. -/
  row : SlicedMatrix α
  /-- The matrix by columns. -/
  col : SlicedMatrix α
  /-- The order of the input that the forms were made from. -/
  order : StorageOrder
deriving BEq, Repr

namespace PairedMatrix

variable {α : Type}

/-- Copies the input in its own order and converts the copy to the
other. -/
def ofInput [Scalar α] (input : MatrixInput α) : Checked (PairedMatrix α) := do
  let own ← input.toSliced
  let other ← own.inOrder input.order.flip
  match input.order with
  | .row => pure { row := own, col := other, order := input.order }
  | .col => pure { row := other, col := own, order := input.order }

/-- The form in the order of the input. -/
def inputForm (P : PairedMatrix α) : SlicedMatrix α :=
  match P.order with
  | .row => P.row
  | .col => P.col

/-- The number of entries of each form. -/
def entryCount (P : PairedMatrix α) : Checked Nat := P.row.entryCount

/-- The same pattern with other values in the two forms. -/
def withValues (P : PairedMatrix α) (rowValues colValues : Array α) :
    PairedMatrix α :=
  { P with row := { P.row with values := rowValues },
           col := { P.col with values := colValues } }

variable [Scalar α]

/-- `a * op(A) * x + b * y`, computed from the form that gathers. -/
def multiply (P : PairedMatrix α) (shape : Shape) (y x : Array α) (a b : α) :
    Checked (Array α) :=
  match shape with
  | .normal => P.row.multiply .normal y x a b
  | .transposed => P.col.multiply .transposed y x a b

/-- `diag(d) * A * diag(e)`, in both forms. -/
def scaleBySides (P : PairedMatrix α) (d e : Array α) :
    Checked (PairedMatrix α) := do
  let row ← P.row.scaleBySides d e
  let col ← P.col.scaleBySides d e
  pure { P with row, col }

/-- `c * A`, in both forms. -/
def scale (P : PairedMatrix α) (c : α) : PairedMatrix α :=
  { P with row := P.row.scale c, col := P.col.scale c }

/-- Replaces the values of both forms by magnitudes and gives the signs of
the row form and of the column form. -/
def splitSigns (P : PairedMatrix α) (t : Magnitude) :
    Checked ((PackedSigns × PackedSigns) × PairedMatrix α) := do
  let (rowSigns, rowValues) ← PackedSigns.split t P.row.values
  let (colSigns, colValues) ← PackedSigns.split t P.col.values
  pure ((rowSigns, colSigns), P.withValues rowValues colValues)

/-- Puts the signs back on the magnitudes of both forms. -/
def joinSigns (P : PairedMatrix α) (signs : PackedSigns × PackedSigns)
    (t : Magnitude) :
    Checked (PairedMatrix α) := do
  let rowValues ← signs.1.join t P.row.values
  let colValues ← signs.2.join t P.col.values
  pure (P.withValues rowValues colValues)

end PairedMatrix

end Equilibration
