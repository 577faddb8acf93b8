import Equilibration.Operator
import Equilibration.Vec

/-!
# Balancing — Sinkhorn–Knopp iteration

Alternating row and column scaling of a nonnegative `m × n` matrix `A`. The
iteration looks for vectors `d` and `e` such that
`diag(d) * A * diag(e)` has row sums `n` and column sums `m`:

    e := m ./ (A' * d)
    d := n ./ (A * e)

Row sums are exact after every iteration, so the deviation of the column
sums measures progress (`worstDeviation`). A row or column whose sum is not
positive keeps the factor one. Running out of iterations is no error; a
product that fails ends the run with the vectors as they are.
-/

namespace Equilibration

open Checked

/-- How a balancing run went. -/
structure BalanceRecord (α : Type) where
  /-- The number of completed iterations. -/
  iterations : Nat
  /-- Whether the column sums came close enough to their target. -/
  converged : Bool
  /-- The largest relative deviation of a column sum, as last measured. -/
  residual : α
deriving DecidableEq, Repr

/-- What a balancing run leaves behind. -/
structure BalanceRun (α : Type) where
  /-- The row factors. -/
  d : Array α
  /-- The column factors. -/
  e : Array α
  /-- How the run went, or the error of the product that ended it. -/
  outcome : Except Refusal (BalanceRecord α)

namespace Balancing

/-- The vectors and the record of a run between two iterations. -/
structure State (α : Type) where
  /-- The row factors. -/
  d : Array α
  /-- The column factors. -/
  e : Array α
  /-- Room for the column sums. -/
  sums : Array α
  /-- The record so far. -/
  record : BalanceRecord α

variable {σ α : Type} [Scalar α]

/-- The factor that brings a sum to its target. -/
def factor (target s : α) : α :=
  if 0 < s then target / s else 1

/-- The relative deviation of the scaled sum `e * s` from the target. -/
def deviation (target s e : α) : α := Scalar.abs (e * s / target - 1)

/-- The largest relative deviation among the columns with a positive
sum. -/
def worstDeviation (sums e : Array α) (target : α) : α :=
  (sums.toList.zip e.toList).foldl (fun worst (s, ej) =>
      if 0 < s then Scalar.max worst (deviation target s ej) else worst) 0

/-- The record once the column sums of an iteration are known. The first
iteration has nothing to measure yet. -/
def measure (target : α) (sums e : Array α) (record : BalanceRecord α) :
    BalanceRecord α :=
  if record.iterations = 0 then record
  else { record with residual := worstDeviation sums e target }

/-- Up to `budget` iterations. -/
def iterate (A : Operator σ α) (tol : α) :
    (budget : Nat) → State α → StateT σ Checked (BalanceRun α)
  | 0, s => pure { d := s.d, e := s.e, outcome := .ok s.record }
  | budget + 1, s => do
    let columns ← A.multiply .transposed 1 s.d 0 s.sums
    match columns.failure with
    | some error => pure { d := s.d, e := s.e, outcome := .error error }
    | none =>
      let record := measure (Scalar.ofNat A.rows) columns.y s.e s.record
      if 0 < record.iterations ∧ record.residual < tol then
        pure { d := s.d, e := s.e,
               outcome := .ok { record with converged := true } }
      else
        let e := Vec.overwrite (factor (Scalar.ofNat A.rows)) s.e columns.y
        let rows ← A.multiply .normal 1 e 0 s.d
        match rows.failure with
        | some error => pure { d := rows.y, e, outcome := .error error }
        | none =>
          iterate A tol budget
            { d := rows.y.map (factor (Scalar.ofNat A.cols))
              e
              sums := columns.y
              record := { record with iterations := record.iterations + 1 } }

/-- The state before the first iteration, with every factor one. -/
def start (d e sums : Array α) : State α where
  d := Vec.fill d 1
  e := Vec.fill e 1
  sums
  record := { iterations := 0, converged := false, residual := Scalar.infinity }

/-- Balances the matrix of an operator with at most `budget` iterations,
until the column sums deviate by less than `tol`. What `d` and `e` held
before does not matter. -/
def run (A : Operator σ α) (d e : Array α) (budget : Nat) (tol : α) :
    StateT σ Checked (BalanceRun α) := do
  require (d.size = A.rows) .length
  require (e.size = A.cols) .length
  let sums ← allocate A.cols 0
  iterate A tol budget (start d e sums)

end Balancing

end Equilibration
