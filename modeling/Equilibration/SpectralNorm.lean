import Equilibration.Operator
import Equilibration.Vec

/-!
# SpectralNorm — estimating the largest singular value

Power iteration on `A' * A`. The start is `A' * w` for a vector `w` of
ones; if that vanishes, `w` is the ramp `1, 2, 3, …`, and if that vanishes
too the estimate is zero. The iteration stops once two estimates in a row
differ by less than a given part of the newer one.
-/

namespace Equilibration.SpectralNorm

open Checked

variable {σ α : Type} [Scalar α]

/-- Up to `budget` iterations from the unit vector `x`, with room `w` for
its image and the last estimate `estimate`. -/
def iterate (A : Operator σ α) (tol : α) :
    (budget : Nat) → (estimate : α) → (x w : Array α) →
      ExceptT Refusal (StateT σ Checked) α
  | 0, estimate, _, _ => pure estimate
  | budget + 1, last, x, w => do
    let w ← A.apply .normal x w
    let image := Vec.norm w
    if image == 0 then
      pure 0
    else
      let y ← A.apply .transposed w x
      let (length, x) := Vec.normalize y
      let estimate := length / image
      if Scalar.abs (estimate - last) < tol * estimate then
        pure estimate
      else
        iterate A tol budget estimate x w

/-- The vector `1, 2, 3, …`. -/
def ramp (size : Nat) : Array α :=
  Array.ofFn fun i : Fin size => Scalar.ofNat (i.val + 1)

/-- Estimates the largest singular value with at most `budget`
iterations. -/
def estimate (A : Operator σ α) (budget : Nat) (tol : α) :
    ExceptT Refusal (StateT σ Checked) α := do
  if A.rows = 0 ∨ A.cols = 0 then
    pure 0
  else
    let x ← (allocate A.cols 0 : Checked _)
    let ones ← (allocate A.rows 1 : Checked _)
    let y ← A.apply .transposed ones x
    let (length, x) := Vec.normalize y
    if length == 0 then
      let y ← A.apply .transposed (ramp A.rows) x
      let (length, x) := Vec.normalize y
      if length == 0 then
        pure 0
      else
        iterate A tol budget 0 x (ramp A.rows)
    else
      iterate A tol budget 0 x ones

end Equilibration.SpectralNorm
