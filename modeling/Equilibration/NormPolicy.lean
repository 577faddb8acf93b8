/-!
# NormPolicy — the norm in which a matrix is balanced or normalized

Balancing in the 2-norm or the Frobenius norm works on squared magnitudes,
balancing in the 1-norm on magnitudes. Normalization by the 1-norm is
refused elsewhere, since it treats rows and columns differently.
-/

namespace Equilibration

/-- The choice of a matrix norm. -/
inductive NormPolicy where
  /-- The 1-norm. -/
  | one
  /-- The 2-norm, that is the largest singular value. -/
  | two
  /-- The root of the sum of squares. -/
  | frobenius
deriving DecidableEq, Repr

namespace NormPolicy

/-- Whether balancing in this norm works on squared magnitudes. -/
def usesSquares : NormPolicy → Bool
  | .one => false
  | .two | .frobenius => true

/-- How a norm is called in messages and reports. -/
def display : NormPolicy → String
  | .one => "1-norm"
  | .two => "2-norm"
  | .frobenius => "Frobenius"

/-- How a norm is written in options. -/
def name : NormPolicy → String
  | .one => "One"
  | .two => "Two"
  | .frobenius => "Frobenius"

/-- Every norm. -/
def all : List NormPolicy := [.one, .two, .frobenius]

/-- The norm that options write as `s`. -/
def ofName? (s : String) : Option NormPolicy := all.find? fun p => p.name == s

@[simp] theorem ofName?_name (p : NormPolicy) : ofName? p.name = some p := by
  cases p <;> decide

end NormPolicy

end Equilibration
