import Equilibration.Sliced.Basic
import Equilibration.Vec

/-!
# Sliced — Product

Matrix-vector products `y := a * A * x + b * y`. Applied along its storage
order a sliced matrix *gathers*: every slice gives one element of the
result, and the elements are independent (`gatherElement`). Applied against
its storage order it *scatters*: every slice adds to many elements of the
result, one slice after the other.

With `b = 0` the old `y` is overwritten and not multiplied, so that what it
held cannot reach the result.
-/

namespace Equilibration

open Checked

namespace SlicedMatrix

variable {α : Type} [Scalar α]

/-- Adds the products of the entries of a slice with the elements of `x`,
from left to right. -/
def dotSlice (x : Array α) (es : List (Nat × α)) : Checked α :=
  es.foldlM (fun acc e => do
    let xj ← read x e.1
    pure (acc + e.2 * xj)) 0

/-- Replaces element `k` of `y` by its new value. -/
def gatherElement (A : SlicedMatrix α) (x : Array α) (a b : α) (y : Array α)
    (k : Nat) :
    Checked (Array α) := do
  let es ← A.slice k
  let dot ← dotSlice x es
  let yk ← read y k
  write y k (if b == 0 then a * dot else b * yk + a * dot)

/-- `a * A * x + b * y` with one element for each slice. -/
def gather (A : SlicedMatrix α) (y x : Array α) (a b : α) :
    Checked (Array α) := do
  let count ← A.entryCount
  require (A.values.size = count) .length
  require (x.size = A.indexBound) .length
  require (y.size = A.sliceCount) .length
  (List.range y.size).foldlM (A.gatherElement x a b) y

/-- `b * y`, without a multiplication where `b` is zero, one or minus
one. -/
def prescale (b : α) (y : Array α) : Array α :=
  if b == 0 then Vec.fill y 0
  else if b == 1 then y
  else if b == -1 then Vec.negate y
  else Vec.scale y b

/-- Adds `c` times the entries of slice `k` to the elements of `y`. -/
def scatterSlice (A : SlicedMatrix α) (y : Array α) (k : Nat) (c : α) :
    Checked (Array α) := do
  let es ← A.entries k
  es.foldlM (fun y e => do
    let yj ← read y e.1
    write y e.1 (yj + e.2 * c)) y

/-- `a * A * x + b * y` with one element of `x` for each slice. With
`a = 0` neither the matrix nor `x` is looked at. -/
def scatter (A : SlicedMatrix α) (y x : Array α) (a b : α) :
    Checked (Array α) := do
  let y := prescale b y
  if a == 0 then
    pure y
  else
    let count ← A.entryCount
    require (A.values.size = count) .length
    require (x.size = A.sliceCount) .length
    require (y.size = A.indexBound) .length
    x.toList.zipIdx.foldlM (fun y xk => A.scatterSlice y xk.2 (a * xk.1)) y

/-- `a * op(A) * x + b * y`, where `op(A)` is the matrix or its
transpose. -/
def multiply (A : SlicedMatrix α) (shape : Shape) (y x : Array α) (a b : α) :
    Checked (Array α) :=
  match A.order, shape with
  | .row, .normal | .col, .transposed => A.gather y x a b
  | .col, .normal | .row, .transposed => A.scatter y x a b

end SlicedMatrix

end Equilibration
