import Mathlib.Algebra.Order.Ring.Abs
import Mathlib.Algebra.Order.Field.Basic
import Equilibration.Scalar

/-!
# ExactArithmetic — scalars that do not round

The kernels assume no law of their scalars. What they compute is easiest to
say where there are laws: `ExactRing` is a scalar type with the arithmetic
of a commutative ring, enough for products; `ExactOrderedField` one with
that of a linearly ordered field, enough for balancing; and `ExactField` one
that has square roots as well, enough for everything.

All extend `Scalar` and the algebraic structure at once, so that the
operations of the kernels are those of the ring.
-/

namespace Equilibration

/-- Scalars with the arithmetic of a commutative ring, on which `==` is
equality. Nothing is said of the order and of square roots. -/
class ExactRing (α : Type) extends Scalar α, CommRing α, LawfulBEq α

/-- Any commutative ring with decidable equality; what a ring does not have
is filled in without meaning. -/
@[reducible] def ExactRing.ofCommRing (R : Type) [CommRing R] [DecidableEq R] :
    ExactRing R where
  __ := (inferInstance : CommRing R)
  div a _ := a
  beq a b := decide (a = b)
  lt _ _ := False
  le _ _ := True
  decidableLT _ _ := inferInstanceAs (Decidable False)
  decidableLE _ _ := inferInstanceAs (Decidable True)
  sqrt a := a
  abs a := a
  isNaN _ := false
  isFinite _ := true
  infinity := 0
  nan := 0
  ofNat n := n
  eq_of_beq h := of_decide_eq_true h
  rfl := decide_eq_true rfl

/-- Scalars with the arithmetic of a linearly ordered field. Nothing is said
of square roots. -/
class ExactOrderedField (α : Type) extends
    ExactRing α, Field α, LinearOrder α, IsStrictOrderedRing α where
  abs_eq : ∀ a : α, Scalar.abs a = |a|
  isNaN_eq : ∀ a : α, Scalar.isNaN a = false
  isFinite_eq : ∀ a : α, Scalar.isFinite a = true
  ofNat_eq : ∀ n : Nat, (Scalar.ofNat n : α) = n

/-- Any linearly ordered field with a function for the root. All of its
numbers are proper ones; the bound above them is filled in without
meaning. -/
@[reducible] def ExactOrderedField.ofField (K : Type) [Field K] [LinearOrder K]
    [IsStrictOrderedRing K] (root : K → K) : ExactOrderedField K where
  __ := (inferInstance : Field K)
  __ := (inferInstance : LinearOrder K)
  __ := (inferInstance : IsStrictOrderedRing K)
  beq a b := decide (a = b)
  decidableLT := inferInstance
  decidableLE := inferInstance
  sqrt := root
  abs a := |a|
  isNaN _ := false
  isFinite _ := true
  infinity := 0
  nan := 0
  ofNat n := n
  eq_of_beq h := of_decide_eq_true h
  rfl := decide_eq_true rfl
  abs_eq _ := rfl
  isNaN_eq _ := rfl
  isFinite_eq _ := rfl
  ofNat_eq _ := rfl

/-- Scalars with the arithmetic of a linearly ordered field, in which every
nonnegative number has a square root. -/
class ExactField (α : Type) extends ExactOrderedField α where
  sqrt_nonneg : ∀ {a : α}, 0 ≤ a → 0 ≤ Scalar.sqrt a
  sqrt_mul_self : ∀ {a : α}, 0 ≤ a → Scalar.sqrt a * Scalar.sqrt a = a

/-- Any linearly ordered field with square roots. -/
@[reducible] def ExactField.ofField (K : Type) [Field K] [LinearOrder K]
    [IsStrictOrderedRing K]
    (root : K → K) (root_nonneg : ∀ {a : K}, 0 ≤ a → 0 ≤ root a)
    (root_mul_self : ∀ {a : K}, 0 ≤ a → root a * root a = a) :
    ExactField K where
  __ := ExactOrderedField.ofField K root
  sqrt_nonneg := root_nonneg
  sqrt_mul_self := root_mul_self

end Equilibration
