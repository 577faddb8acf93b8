import Equilibration.Options.Basic

/-!
# Options — Choices

Options under construction: each is chosen or left open, and a later choice
for a key replaces an earlier one. What is left open takes its standard
value in the end. Only chosen values are checked, since the standard ones
are sound.
-/

namespace Equilibration

/-- A choice for any number of the options. -/
structure Choices (α : Type) where
  verbose : Option Bool := none
  balanceNorm : Option NormPolicy := none
  normalizeNorm : Option NormPolicy := none
  balanceBudget : Option UInt32 := none
  balanceTolerance : Option α := none
  normBudget : Option UInt32 := none
  normTolerance : Option α := none
deriving DecidableEq, Repr

/-- A choice for one option. -/
inductive Choice (α : Type) where
  | verbose (value : Bool)
  | balanceNorm (norm : NormPolicy)
  | normalizeNorm (norm : NormPolicy)
  | balanceBudget (iterations : UInt32)
  | balanceTolerance (tolerance : α)
  | normBudget (iterations : UInt32)
  | normTolerance (tolerance : α)
deriving DecidableEq, Repr

/-- The key that a choice is for. -/
def Choice.key {α : Type} : Choice α → OptionKey
  | .verbose _ => .verbose
  | .balanceNorm _ => .balanceNorm
  | .normalizeNorm _ => .normalizeNorm
  | .balanceBudget _ => .balanceBudget
  | .balanceTolerance _ => .balanceTolerance
  | .normBudget _ => .normBudget
  | .normTolerance _ => .normTolerance

/-- The options with one of them replaced. -/
def Options.set {α : Type} (o : Options α) : Choice α → Options α
  | .verbose v => { o with verbose := v }
  | .balanceNorm v => { o with balanceNorm := v }
  | .normalizeNorm v => { o with normalizeNorm := v }
  | .balanceBudget v => { o with balanceBudget := v }
  | .balanceTolerance v => { o with balanceTolerance := v }
  | .normBudget v => { o with normBudget := v }
  | .normTolerance v => { o with normTolerance := v }

namespace Choices

variable {α : Type}

/-- Makes a choice, in place of any earlier one for its key. -/
def set (c : Choices α) : Choice α → Choices α
  | .verbose v => { c with verbose := some v }
  | .balanceNorm v => { c with balanceNorm := some v }
  | .normalizeNorm v => { c with normalizeNorm := some v }
  | .balanceBudget v => { c with balanceBudget := some v }
  | .balanceTolerance v => { c with balanceTolerance := some v }
  | .normBudget v => { c with normBudget := some v }
  | .normTolerance v => { c with normTolerance := some v }

/-- The choices made one after the other. -/
def ofList (cs : List (Choice α)) : Choices α := cs.foldl set {}

/-- Whether a key has a choice. -/
def isChosen (c : Choices α) : OptionKey → Bool
  | .verbose => c.verbose.isSome
  | .balanceNorm => c.balanceNorm.isSome
  | .normalizeNorm => c.normalizeNorm.isSome
  | .balanceBudget => c.balanceBudget.isSome
  | .balanceTolerance => c.balanceTolerance.isSome
  | .normBudget => c.normBudget.isSome
  | .normTolerance => c.normTolerance.isSome

/-- The options with everything chosen replaced. -/
def applyTo (c : Choices α) (o : Options α) : Options α where
  verbose := c.verbose.getD o.verbose
  balanceNorm := c.balanceNorm.getD o.balanceNorm
  normalizeNorm := c.normalizeNorm.getD o.normalizeNorm
  balanceBudget := c.balanceBudget.getD o.balanceBudget
  balanceTolerance := c.balanceTolerance.getD o.balanceTolerance
  normBudget := c.normBudget.getD o.normBudget
  normTolerance := c.normTolerance.getD o.normTolerance

/-- Does nothing for an open choice. -/
def checkChosen {β : Type} (check : β → Except OptionsError Unit) :
    Option β → Except OptionsError Unit
  | none => .ok ()
  | some v => check v

/-- Checks that the chosen values are sound. -/
def check [Scalar α] (c : Choices α) : Except OptionsError Unit := do
  checkChosen Options.checkNormalizeNorm c.normalizeNorm
  checkChosen (Options.checkTolerance .balanceTolerance) c.balanceTolerance
  checkChosen (Options.checkTolerance .normTolerance) c.normTolerance

/-- The options of sound choices. -/
def toOptions [Interchange α] (c : Choices α) :
    Except OptionsError (Options α) := do
  c.check
  pure (c.applyTo .standard)

/-! ## One choice at a time -/

theorem applyTo_set (c : Choices α) (x : Choice α) (o : Options α) :
    (c.set x).applyTo o = (c.applyTo o).set x := by
  cases x <;> rfl

/-- Making choices one after the other is replacing options one after the
other. -/
theorem applyTo_foldl_set (cs : List (Choice α)) (c : Choices α)
    (o : Options α) :
    (cs.foldl set c).applyTo o = cs.foldl Options.set (c.applyTo o) := by
  induction cs generalizing c with
  | nil => rfl
  | cons x xs ih => rw [List.foldl_cons, List.foldl_cons, ih, applyTo_set]

theorem isChosen_set (c : Choices α) (x : Choice α) (key : OptionKey) :
    (c.set x).isChosen key = (decide (x.key = key) || c.isChosen key) := by
  cases x <;> cases key <;> rfl

end Choices

end Equilibration
