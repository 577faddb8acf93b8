import Equilibration.Sliced.Basic

/-!
# Sliced — Conversion

Conversion to the opposite storage order by a counting sort. The entries
are counted by index, the counts are summed to the place where each new
slice begins, and the old slices are then read in turn, each entry going
to the next free place of its new slice.

The array of free places moves as the new slices fill: at first it holds
the start of each new slice, at the end the start of the one after it. It
has one cell more than there are slices, which holds the total once it is
shifted back (`Fill.starts`). An index equal to the secondary dimension
uses that cell as if it were a slice; only a larger one is out of range.
-/

namespace Equilibration

open Checked

/-- The total of the elements before each position, and of `total`. -/
def runningTotals (total : Nat) : List Nat → Checked (List Nat)
  | [] => pure []
  | c :: cs => do
    let next ← addWords total c
    let rest ← runningTotals next cs
    pure (total :: rest)

/-- The arrays of a matrix that is being filled slice by slice. -/
structure Fill (α : Type) where
  /-- The next free place of each slice. -/
  next : Array Nat
  /-- The indices placed so far. -/
  indices : Array Nat
  /-- The values placed so far. -/
  values : Array α

namespace Fill

variable {α : Type}

/-- Puts an entry with index `k` and value `v` at the next free place of
slice `j`. -/
def place (f : Fill α) (j k : Nat) (v : α) : Checked (Fill α) := do
  let dest ← read f.next j
  let indices ← write f.indices dest k
  let values ← write f.values dest v
  let free ← addWords dest 1
  let next ← write f.next j free
  pure { next, indices, values }

/-- Where each slice of a completed fill begins: the places next to fill,
shifted back by one slice. -/
def starts (f : Fill α) : Array Nat :=
  (0 :: f.next.toList.dropLast).toArray

end Fill

namespace SlicedMatrix

variable {α : Type}

/-- How many entries have each index, the secondary dimension itself
included. -/
def indexCounts (A : SlicedMatrix α) : Checked (Array Nat) := do
  let zeros ← allocate (A.indexBound + 1) 0
  A.indices.toList.foldlM (fun counts j => do
    let c ← read counts j
    let c ← addWords c 1
    write counts j c) zeros

/-- Moves the entries of slice `k` to the slices of their indices. -/
def placeSlice (A : SlicedMatrix α) (f : Fill α) (k : Nat) :
    Checked (Fill α) := do
  let es ← A.entries k
  es.foldlM (fun f e => f.place e.1 k e.2) f

/-- The same entries in the opposite storage order. Within a slice of the
result the entries keep the order in which the old slices held them. -/
def regroup [Scalar α] (A : SlicedMatrix α) : Checked (SlicedMatrix α) := do
  let count ← A.entryCount
  let counts ← A.indexCounts
  let indices ← allocate count 0
  let values ← allocate count 0
  let totals ← runningTotals 0 counts.toList
  let empty : Fill α := { next := totals.toArray, indices, values }
  let full ← (List.range A.sliceCount).foldlM A.placeSlice empty
  pure { order := A.order.flip, rows := A.rows, cols := A.cols,
         starts := full.starts, indices := full.indices, values := full.values }

/-- The same matrix in the given storage order. -/
def inOrder [Scalar α] (A : SlicedMatrix α) (o : StorageOrder) :
    Checked (SlicedMatrix α) :=
  if o = A.order then .ok A else A.regroup

end SlicedMatrix

end Equilibration
