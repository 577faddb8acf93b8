import Equilibration.Sliced.Basic
import Equilibration.Vec

/-!
# Sliced — Scaling

Scaling by a number, and scaling by a diagonal from each side. The diagonal
scaling hands out the values in consecutive pieces, one for each slice; the
lengths of the pieces are the differences of neighbouring pointers, and
each piece is rescaled on its own (`rescalePiece`).
-/

namespace Equilibration

open Checked

/-- A piece of a vector, and the slice that it belongs to. -/
structure Piece where
  offset : Nat
  length : Nat
  slice : Nat
deriving DecidableEq, Repr

/-- The consecutive pieces that the differences of neighbouring pointers
cut off a vector, from slice `k` and position `offset` on. No more than
`room` elements are left there. -/
def cutPieces (k offset room : Nat) : List Nat → Checked (List Piece)
  | s :: t :: rest => do
    require (s ≤ t ∧ t - s ≤ room) .slice
    let pieces ← cutPieces (k + 1) (offset + (t - s)) (room - (t - s))
      (t :: rest)
    pure (⟨offset, t - s, k⟩ :: pieces)
  | _ => .ok []

namespace SlicedMatrix

variable {α : Type} [Scalar α]

/-- Multiplies every value by `c`. -/
def scale (A : SlicedMatrix α) (c : α) : SlicedMatrix α :=
  { A with values := Vec.scale A.values c }

/-- Multiplies the values of a piece by the factor of its slice and the
factors of their indices. -/
def rescalePiece (A : SlicedMatrix α) (primary secondary values : Array α)
    (p : Piece) :
    Checked (Array α) := do
  let (lo, hi) ← A.bounds p.slice
  let js ← cut A.indices lo hi
  let pk ← read primary p.slice
  let factors ← (js.take p.length).mapM fun j => do
    let sj ← read secondary j
    pure (pk * sj)
  updateFrom (· * ·) values p.offset factors

/-- `diag(l) * A * diag(r)`. -/
def scaleBySides (A : SlicedMatrix α) (l r : Array α) :
    Checked (SlicedMatrix α) := do
  require (l.size = A.rows) .length
  require (r.size = A.cols) .length
  let count ← A.entryCount
  require (A.values.size = count) .length
  let (primary, secondary) := match A.order with
    | .row => (l, r)
    | .col => (r, l)
  let pieces ← cutPieces 0 0 A.values.size A.starts.toList
  let values ← pieces.foldlM (A.rescalePiece primary secondary) A.values
  pure { A with values }

end SlicedMatrix

end Equilibration
