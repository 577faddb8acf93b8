import Equilibration.Checked
import Equilibration.Scalar
import Equilibration.StorageOrder

/-!
# Sliced — Basic

A sparse matrix in compressed storage. The *primary* dimension, rows or
columns after the storage order, is cut into slices; `starts` tells where
each slice begins in `indices` and `values` and ends with the number of
entries. The *secondary* dimension is the one that `indices` counts.

The fields may hold anything. `SlicedMatrix.ofArrays` refuses lengths that
do not fit together, and `Sliced/Wellformed` says when the three arrays
really describe a matrix.
-/

namespace Equilibration

open Checked

/-- A sparse matrix stored slice by slice. -/
structure SlicedMatrix (α : Type) where
  /-- Whether the slices are rows or columns. -/
  order : StorageOrder
  /-- The number of rows. -/
  rows : Nat
  /-- The number of columns. -/
  cols : Nat
  /-- Where each slice begins, and after the last one the number of
  entries. -/
  starts : Array Nat
  /-- The secondary index of each entry. -/
  indices : Array Nat
  /-- The value of each entry. -/
  values : Array α
deriving BEq, Repr

namespace SlicedMatrix

variable {α : Type}

/-- The number of slices. -/
def sliceCount (A : SlicedMatrix α) : Nat := A.order.primary A.rows A.cols

/-- The bound on the indices. -/
def indexBound (A : SlicedMatrix α) : Nat := A.order.flip.primary A.rows A.cols

/-- The matrix of three arrays whose lengths fit the dimensions. Nothing
is asked of the indices. -/
def ofArrays (order : StorageOrder) (rows cols : Nat)
    (starts indices : Array Nat) (values : Array α) :
    Checked (SlicedMatrix α) := do
  let primary := order.primary rows cols
  require (indices.size = values.size) .length
  require (starts.size = primary + 1) .length
  let last ← read starts primary
  require (last = indices.size) .length
  pure { order, rows, cols, starts, indices, values }

/-- A matrix with room for `entries` entries, all of them zeros at index
zero in the last slice. -/
def withRoom [Scalar α] (order : StorageOrder) (rows cols entries : Nat) :
    Checked (SlicedMatrix α) := do
  let primary := order.primary rows cols
  let starts ← allocate (primary + 1) 0
  let indices ← allocate entries 0
  let values ← allocate entries 0
  let starts ← write starts primary entries
  ofArrays order rows cols starts indices values

/-- The number of entries, as the last pointer tells it. -/
def entryCount (A : SlicedMatrix α) : Checked Nat := read A.starts A.sliceCount

/-- Where slice `k` begins and ends. -/
def bounds (A : SlicedMatrix α) (k : Nat) : Checked (Nat × Nat) := do
  let lo ← read A.starts k
  let hi ← read A.starts (k + 1)
  pure (lo, hi)

/-- The indices and values of slice `k`, read entry by entry. -/
def entries (A : SlicedMatrix α) (k : Nat) : Checked (List (Nat × α)) := do
  let (lo, hi) ← A.bounds k
  let js ← readRange A.indices lo hi
  let vs ← readRange A.values lo hi
  pure (js.zip vs)

/-- The indices and values of slice `k`, cut out of their arrays. -/
def slice (A : SlicedMatrix α) (k : Nat) : Checked (List (Nat × α)) := do
  let (lo, hi) ← A.bounds k
  let js ← cut A.indices lo hi
  let vs ← cut A.values lo hi
  pure (js.zip vs)

/-- The value of the first entry stored for a position, if there is one. -/
def entry? (A : SlicedMatrix α) (row col : Nat) : Checked (Option α) := do
  require (row < A.rows ∧ col < A.cols) .index
  let (k, j) := A.order.locate row col
  let (lo, hi) ← A.bounds k
  let js ← cut A.indices lo hi
  match js.findIdx? (· == j) with
  | none => pure none
  | some p => do
    let v ← read A.values (lo + p)
    pure (some v)

end SlicedMatrix

end Equilibration
