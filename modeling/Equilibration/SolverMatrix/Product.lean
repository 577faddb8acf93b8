import Equilibration.SolverMatrix.Basic
import Equilibration.SpectralNorm

/-!
# SolverMatrix — Product

Products with a built matrix and what is made of them: the matrix as an
operator, and estimates of its norm.

Whether the matrix is built is asked before anything else, so an unbuilt
matrix refuses a product even of vectors that do not fit.
-/

namespace Equilibration

open Checked

namespace SolverMatrix

variable {α : Type} [Scalar α]

/-- `a * op(A) * x + b * y`. -/
def multiply (M : SolverMatrix α) (shape : Shape) (a : α) (x : Array α) (b : α)
    (y : Array α) :
    Checked (Except Refusal (Array α)) :=
  match M.pair with
  | .error error => pure (.error error)
  | .ok pair => do
    let (domain, codomain) := match shape with
      | .normal => (M.cols, M.rows)
      | .transposed => (M.rows, M.cols)
    require (x.size = domain) .length
    require (y.size = codomain) .length
    let y ← pair.multiply shape y x a b
    pure (.ok y)

/-- The matrix as an operator. A product that fails leaves its vector as
it is. -/
def operator (M : SolverMatrix α) : Operator Unit α where
  rows := M.rows
  cols := M.cols
  multiply shape a x b y := do
    match ← M.multiply shape a x b y with
    | .error error => pure ⟨y, some error⟩
    | .ok y => pure ⟨y, none⟩

/-- The Frobenius norm of the stored values, relative to that of an
identity matrix of the smaller dimension. -/
def frobeniusNorm (M : SolverMatrix α) : Except Refusal α :=
  M.values.map fun values =>
    Vec.norm values / Scalar.sqrt (Scalar.ofNat (min M.rows M.cols))

/-- Estimates a norm of the matrix. There is no estimate of the 1-norm. -/
def normEstimate (M : SolverMatrix α) (norm : NormPolicy)
    (options : Options α) :
    Checked (Except Refusal α) :=
  match norm with
  | .two => do
    let (result, _) ← (SpectralNorm.estimate M.operator options.normBudget.toNat
        options.normTolerance).run ()
    pure result
  | .frobenius => pure M.frobeniusNorm
  | .one => pure (.error (.unsupportedNorm .one))

end SolverMatrix

end Equilibration
