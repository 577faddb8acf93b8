import Equilibration.Checked
import Equilibration.NormPolicy
import Equilibration.Scalar
import Equilibration.Sliced.Wellformed
import Equilibration.StorageOrder

/-!
# Operator — a matrix as its products

Balancing and norm estimation need nothing of a matrix but its dimensions
and products with it and with its transpose. An `Operator` offers just
that. Its products may fail with a `Refusal`, and it may carry a state
`σ` from one product to the next, so that an operator can count, tire or
change its mind.
-/

namespace Equilibration

/-- Why a matrix refuses a request. -/
inductive Refusal where
  /-- The storage forms have not been built. -/
  | notBuilt
  /-- The storage forms have been built before. -/
  | alreadyBuilt
  /-- The norm cannot serve this purpose. -/
  | unsupportedNorm (norm : NormPolicy)
  /-- The input arrays describe no matrix. -/
  | malformed (reason : LayoutError)
deriving DecidableEq, Repr

/-- The text of a refusal. -/
def Refusal.message : Refusal → String
  | .notBuilt => "Matrix storage has not been initialized"
  | .alreadyBuilt => "Matrix storage is already initialized"
  | .unsupportedNorm norm => "Unsupported norm policy (" ++ norm.display ++ ")"
  | .malformed reason => "Bad sparse input: " ++ reason.message

/-- What a product leaves behind: the vector it wrote to, and the error if
it failed. -/
structure Product (α : Type) where
  /-- The vector after the product. -/
  y : Array α
  /-- Why there is no product, if there is none. -/
  failure : Option Refusal
deriving DecidableEq, Repr

/-- A matrix known by its dimensions and its products. -/
structure Operator (σ α : Type) where
  /-- The number of rows. -/
  rows : Nat
  /-- The number of columns. -/
  cols : Nat
  /-- `y := a * op(A) * x + b * y`. -/
  multiply : Shape → (a : α) → (x : Array α) → (b : α) → (y : Array α) →
    StateT σ Checked (Product α)

namespace Operator

variable {σ α : Type}

/-- The operator that works for a number of products and then fails every
further one, leaving the vector as it is. Its state counts the products
that are left. -/
def failingAfter (A : Operator σ α) (error : Refusal) :
    Operator (Nat × σ) α where
  rows := A.rows
  cols := A.cols
  multiply shape a x b y := fun (left, s) =>
    match left with
    | 0 => .ok (⟨y, some error⟩, (0, s))
    | left + 1 => do
      let (p, s) ← A.multiply shape a x b y s
      pure (p, (left, s))

/-- `op(A) * x`, in place of `y`. -/
def apply [Scalar α] (A : Operator σ α) (shape : Shape) (x y : Array α) :
    ExceptT Refusal (StateT σ Checked) (Array α) :=
  ExceptT.mk do
    let p ← A.multiply shape 1 x 0 y
    match p.failure with
    | some error => pure (.error error)
    | none => pure (.ok p.y)

end Operator

end Equilibration
