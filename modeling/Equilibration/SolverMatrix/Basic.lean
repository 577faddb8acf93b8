import Equilibration.Operator
import Equilibration.Options.Basic
import Equilibration.Outlet
import Equilibration.PairedMatrix

/-!
# SolverMatrix — Basic

The matrix of a first-order solver. It starts *unbuilt*, holding the arrays
of the caller unchecked; `build` checks them and makes both storage forms,
once. Dimensions, entry count and storage order are what the caller stated
and never change.
-/

namespace Equilibration

/-- What a solver matrix holds: the caller's arrays, or both storage
forms. -/
inductive Storage (α : Type) where
  | unbuilt (starts indices : Array Nat) (values : Array α)
  | built (pair : PairedMatrix α)

/-- A sparse matrix with its options, its outlet and its stopwatches. -/
structure SolverMatrix (α : Type) where
  /-- The order of the caller's arrays. -/
  order : StorageOrder
  /-- The number of rows. -/
  rows : Nat
  /-- The number of columns. -/
  cols : Nat
  /-- The number of entries. -/
  entryCount : Nat
  /-- The arrays or the storage forms. -/
  storage : Storage α
  /-- How the matrix is equilibrated. -/
  options : Options α
  /-- Where reports go. -/
  outlet : Outlet := .stdout
  /-- The time spent on building and equilibrating. -/
  watches : Stopwatches := {}

/-- What an operation on a solver matrix leaves behind. -/
structure Outcome (α β : Type) where
  /-- The result or the error. -/
  result : Except Refusal β
  /-- The matrix afterwards. -/
  matrix : SolverMatrix α
  /-- The world afterwards. -/
  world : World

namespace SolverMatrix

variable {α : Type}

/-- The unbuilt matrix of some input, with the given options. They need not
be sound. -/
def ofInput (input : MatrixInput α) (options : Options α) : SolverMatrix α where
  order := input.order
  rows := input.rows
  cols := input.cols
  entryCount := input.entryCount
  storage := .unbuilt input.starts input.indices input.values
  options

/-- The unbuilt matrix of some input, with the standard options. -/
def ofInputStandard [Interchange α] (input : MatrixInput α) : SolverMatrix α :=
  ofInput input .standard

/-- The input of a matrix that is not built. -/
def input? (M : SolverMatrix α) : Option (MatrixInput α) :=
  match M.storage with
  | .unbuilt starts indices values =>
    some { order := M.order, rows := M.rows, cols := M.cols,
           entryCount := M.entryCount, starts, indices, values }
  | .built _ => none

/-- Whether the matrix is built. -/
def isBuilt (M : SolverMatrix α) : Bool :=
  match M.storage with
  | .unbuilt .. => false
  | .built _ => true

/-- The storage forms of a built matrix. -/
def pair (M : SolverMatrix α) : Except Refusal (PairedMatrix α) :=
  match M.storage with
  | .unbuilt .. => .error .notBuilt
  | .built pair => .ok pair

/-- The stored values in the order of the input. -/
def values (M : SolverMatrix α) : Except Refusal (Array α) :=
  M.pair.map fun pair => pair.inputForm.values

/-- Where the stored slices begin, in the order of the input. -/
def starts (M : SolverMatrix α) : Except Refusal (Array Nat) :=
  M.pair.map fun pair => pair.inputForm.starts

/-- The stored indices in the order of the input. -/
def indices (M : SolverMatrix α) : Except Refusal (Array Nat) :=
  M.pair.map fun pair => pair.inputForm.indices

/-- The time spent on building and equilibrating so far. -/
def timeSpent (M : SolverMatrix α) : Nat := M.watches.total

/-- A fresh unbuilt matrix of the same input, with the same options. A
built matrix has none, since it has let go of its input. -/
def unbuiltCopy? (M : SolverMatrix α) : Option (SolverMatrix α) :=
  M.input?.map fun input => ofInput input M.options

/-- Replaces the options by sound ones. -/
def withOptions [Scalar α] (M : SolverMatrix α) (options : Options α) :
    Except OptionsError (SolverMatrix α) :=
  options.check.map fun _ => { M with options }

/-- Redirects reports. -/
def printTo (M : SolverMatrix α) (outlet : Outlet) : SolverMatrix α :=
  { M with outlet }

/-- Checks the input and makes both storage forms of it. A refused input
leaves the matrix unbuilt. -/
def build [Scalar α] (M : SolverMatrix α) (w : World) :
    Checked (Outcome α Unit) :=
  match M.input? with
  | none => pure { result := .error .alreadyBuilt, matrix := M, world := w }
  | some input => do
    match ← input.check with
    | .error reason =>
      pure { result := .error (.malformed reason), matrix := M, world := w }
    | .ok () =>
      let (pair, watches, world) ←
        (Timed.timed "build" (PairedMatrix.ofInput input)).run (M.watches, w)
      pure { result := .ok (),
             matrix := { M with storage := .built pair, watches }, world }

end SolverMatrix

end Equilibration
