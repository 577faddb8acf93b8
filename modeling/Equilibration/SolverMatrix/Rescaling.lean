import Equilibration.Balancing
import Equilibration.Report
import Equilibration.SolverMatrix.Product

/-!
# SolverMatrix — Rescaling

Equilibration scales a built matrix by a diagonal from each side, in place.
The values are replaced by magnitudes, balanced, and given their signs
back; the balancing factors, or their roots if the magnitudes were squares,
are then multiplied into the values. At last the matrix is divided by its
norm, and each of the two diagonals takes one over the root of the norm.

Everything that can be refused is refused before the first change. The
report is printed after the last one, and a failure to print does not
matter.
-/

namespace Equilibration

open Checked

/-- How an equilibration went. -/
structure EquilibrationSummary (α : Type) where
  /-- How balancing went. -/
  balance : BalanceRecord α
  /-- The norm of the balanced matrix before normalization. -/
  norm : α
  /-- The time it took. -/
  time : Nat
deriving DecidableEq, Repr

/-- What a part of an equilibration leaves behind. -/
structure Rescaled (α β : Type) where
  /-- The result or the error. -/
  result : Except Refusal β
  /-- The matrix afterwards. -/
  matrix : SolverMatrix α
  /-- The row factors. -/
  d : Array α
  /-- The column factors. -/
  e : Array α

/-- What an equilibration leaves behind. -/
structure Equilibrated (α : Type) extends Rescaled α
    (EquilibrationSummary α) where
  /-- The world afterwards. -/
  world : World

namespace SolverMatrix

variable {α : Type} [Scalar α]

/-- How values become magnitudes for balancing in a norm. -/
def magnitudeFor (norm : NormPolicy) : Magnitude :=
  if norm.usesSquares then .square else .absolute

/-- Divides the matrix by its norm, and gives each diagonal its share. A
norm that is not a positive finite number divides nothing. -/
def normalize (M : SolverMatrix α) (d e : Array α) :
    Checked (Rescaled α α) := do
  match ← M.normEstimate M.options.normalizeNorm M.options with
  | .error error => pure { result := .error error, matrix := M, d, e }
  | .ok norm =>
    if 0 < norm ∧ Scalar.isFinite norm then
      match M.pair with
      | .error error => pure { result := .error error, matrix := M, d, e }
      | .ok pair =>
        let share := Scalar.recip (Scalar.sqrt norm)
        pure
          { result := .ok norm
            matrix :=
              { M with storage := .built (pair.scale (Scalar.recip norm)) }
            d := Vec.scale d share
            e := Vec.scale e share }
    else
      pure { result := .ok norm, matrix := M, d, e }

/-- The factors for a matrix from those for its magnitudes. -/
def factorsFor (t : Magnitude) (x : Array α) : Array α :=
  match t with
  | .absolute => x
  | .square => Vec.sqrt x

/-- Balances and normalizes the matrix, with `t` for its magnitudes. -/
def rescale (M : SolverMatrix α) (t : Magnitude) (d e : Array α) :
    Timed (Rescaled α (BalanceRecord α × α)) := do
  match M.pair with
  | .error error => pure { result := .error error, matrix := M, d, e }
  | .ok pair =>
    let (signs, magnitudes) ← pair.splitSigns t
    let M := { M with storage := .built magnitudes }
    let (run, _) ← Timed.timed "balance"
      ((Balancing.run M.operator d e M.options.balanceBudget.toNat
        M.options.balanceTolerance).run () : Checked _)
    match run.outcome with
    | .error error =>
      pure { result := .error error, matrix := M, d := run.d, e := run.e }
    | .ok record =>
      let signed ← magnitudes.joinSigns signs t
      let d := factorsFor t run.d
      let e := factorsFor t run.e
      let balanced ← signed.scaleBySides d e
      let normalized ← Timed.timed "normalize"
        (normalize { M with storage := .built balanced } d e)
      pure { normalized with
          result := normalized.result.map fun norm => (record, norm) }

/-- The report of an equilibration. -/
def report (M : SolverMatrix α) (summary : EquilibrationSummary α)
    (d e : Array α) :
    Report α where
  rows := M.rows
  cols := M.cols
  entryCount := M.entryCount
  order := M.order
  balanceNorm := M.options.balanceNorm
  normalizeNorm := M.options.normalizeNorm
  balance := summary.balance
  norm := summary.norm
  d
  e
  time := summary.time

/-- Prints the report of an equilibration if the options ask for it. -/
def printReport [Displayed α] (M : SolverMatrix α)
    (summary : EquilibrationSummary α) (d e : Array α) (w : World) :
    SolverMatrix α × World :=
  if M.options.verbose then
    let (outlet, w) := M.outlet.writeLines (M.report summary d e).lines w
    ({ M with outlet }, w)
  else
    (M, w)

/-- Equilibrates the matrix and gives the row factors `d` and the column
factors `e`. What the two vectors held before is overwritten. -/
def equilibrate [Displayed α] (M : SolverMatrix α) (d e : Array α) (w : World) :
    Checked (Equilibrated α) := do
  if ¬ M.isBuilt then
    pure { result := .error .notBuilt, matrix := M, d, e, world := w }
  else if M.options.normalizeNorm = .one then
    pure { result := .error (.unsupportedNorm .one), matrix := M, d, e,
           world := w }
  else
    require (d.size = M.rows) .length
    require (e.size = M.cols) .length
    let (rescaled, watches, w) ←
      (Timed.timed "equilibrate"
        (M.rescale (magnitudeFor M.options.balanceNorm) d e)).run (M.watches, w)
    let matrix := { rescaled.matrix with watches }
    match rescaled.result with
    | .error error =>
      pure { result := .error error, matrix, d := rescaled.d, e := rescaled.e,
             world := w }
    | .ok (balance, norm) =>
      let time :=
        watches.elapsed "equilibrate" - M.watches.elapsed "equilibrate"
      let summary : EquilibrationSummary α := { balance, norm, time }
      let (matrix, world) := matrix.printReport summary rescaled.d rescaled.e w
      pure { result := .ok summary, matrix, d := rescaled.d,
             e := rescaled.e, world }

end SolverMatrix

end Equilibration
