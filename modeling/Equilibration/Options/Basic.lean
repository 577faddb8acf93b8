import Equilibration.NormPolicy
import Equilibration.Scalar

/-!
# Options — Basic

How a matrix is equilibrated, and which options are sound. The 1-norm
balances but does not normalize, and a tolerance must be at least zero,
which a value that is no number is not. `Options.check` names the first
option that breaks a rule.
-/

namespace Equilibration

/-- The options of an equilibration. -/
structure Options (α : Type) where
  /-- Whether every equilibration prints a report. -/
  verbose : Bool
  /-- The norm in which rows and columns are balanced. -/
  balanceNorm : NormPolicy
  /-- The norm that the equilibrated matrix has as its unit. -/
  normalizeNorm : NormPolicy
  /-- The most balancing iterations. -/
  balanceBudget : UInt32
  /-- The relative deviation of a column sum that balancing accepts. -/
  balanceTolerance : α
  /-- The most iterations of an estimate of the 2-norm. -/
  normBudget : UInt32
  /-- The relative change that ends an estimate of the 2-norm. -/
  normTolerance : α
deriving DecidableEq, Repr

/-- The keys of the options, in their order. -/
inductive OptionKey where
  | verbose
  | balanceNorm
  | normalizeNorm
  | balanceBudget
  | balanceTolerance
  | normBudget
  | normTolerance
deriving DecidableEq, Repr

namespace OptionKey

/-- Every key. -/
def all : List OptionKey :=
  [.verbose, .balanceNorm, .normalizeNorm, .balanceBudget, .balanceTolerance,
    .normBudget, .normTolerance]

/-- How a key is written in messages and in JSON texts. -/
def name : OptionKey → String
  | .verbose => "verbose"
  | .balanceNorm => "equilibrate_norm"
  | .normalizeNorm => "normalize_norm"
  | .balanceBudget => "sinkhorn_max_iter"
  | .balanceTolerance => "sinkhorn_tol"
  | .normBudget => "norm_est_max_iter"
  | .normTolerance => "norm_est_tol"

/-- The key that is written as `s`. -/
def ofName? (s : String) : Option OptionKey :=
  all.find? fun key => key.name == s

@[simp] theorem ofName?_name (key : OptionKey) :
    ofName? key.name = some key := by
  cases key <;> decide

end OptionKey

/-- Options that break a rule. -/
inductive OptionsError where
  | badValue (key : OptionKey)
deriving DecidableEq, Repr

/-- The text of an options error. -/
def OptionsError.message : OptionsError → String
  | .badValue key => "Bad value for field \"" ++ key.name ++ "\""

namespace Options

variable {α : Type}

/-- Sound normalization norms are all but the 1-norm. -/
def checkNormalizeNorm (norm : NormPolicy) : Except OptionsError Unit :=
  if norm = .one then .error (.badValue .normalizeNorm) else .ok ()

/-- Sound tolerances are at least zero. -/
def checkTolerance [Scalar α] (key : OptionKey) (v : α) :
    Except OptionsError Unit :=
  if 0 ≤ v then .ok () else .error (.badValue key)

/-- Checks that the options are sound. -/
def check [Scalar α] (o : Options α) : Except OptionsError Unit := do
  checkNormalizeNorm o.normalizeNorm
  checkTolerance .balanceTolerance o.balanceTolerance
  checkTolerance .normTolerance o.normTolerance

/-- The options of a caller who chooses nothing. The tolerances are the
numbers nearest to the doubles `1e-6` and `1e-3`. -/
def standard [Interchange α] : Options α where
  verbose := false
  balanceNorm := .two
  normalizeNorm := .frobenius
  balanceBudget := 50
  balanceTolerance := Interchange.convert
    (Interchange.ofRatio false { num := 1, den := 1000000 } : Float)
  normBudget := 50
  normTolerance := Interchange.convert
    (Interchange.ofRatio false { num := 1, den := 1000 } : Float)

end Options

end Equilibration
