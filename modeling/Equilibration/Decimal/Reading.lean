import Equilibration.Scalar
import Equilibration.Decimal.Digits

/-!
# Decimal — Reading

Decimals are read in double precision with a single operation. The leading
digits that fit a machine word become a double, and it is multiplied or
divided by the double nearest to a power of ten. With at most fifteen
digits and a power up to `10 ^ 22` both operands are exact, so the reading
is the double nearest to the decimal; beyond that it may miss it by the
last few bits. The double is then converted to the type that is wanted.

No double reaches `10 ^ 309`. A nonzero decimal with a larger power of ten
has no reading, nor has one whose product is too large; a divisor that is
too large is divided by in several steps, which may end at zero.
-/

namespace Equilibration

namespace Decimal

/-! ## Leading digits -/

/-- Appends digits to a number as long as the result fits a machine word,
and counts the digits that it took. -/
def appendDigits (n : Nat) : List Nat → Nat × Nat
  | [] => (n, 0)
  | d :: ds =>
    if 10 * n + d < UInt64.size then
      let (m, count) := appendDigits (10 * n + d) ds
      (m, count + 1)
    else (n, 0)

/-- The leading digits of a decimal. Digits before the point are taken as
long as they fit, and one that is left out raises the exponent; digits
behind it are then taken as long as they fit, and each lowers the exponent.
All others are dropped. -/
def Scaled.leading (whole fraction : List Nat) (exponent : Int) : Scaled :=
  let (n, wholeCount) := appendDigits 0 whole
  let (n, fractionCount) := appendDigits n fraction
  ⟨n, exponent + (whole.length - wholeCount : Nat) - fractionCount⟩

/-! ## Scaling -/

/-- The largest power of ten below the bound of the doubles. -/
def largestPower : Nat := 308

/-- The double nearest to a power of ten. -/
def powerOfTen (k : Nat) : Float :=
  Interchange.ofRatio false ((Ratio.ofNat 1).shift 10 k)

/-- The product with `10 ^ k`, unless it is too large. -/
def timesPower? (x : Float) (k : Nat) : Option Float :=
  if k ≤ largestPower then
    let y := x * powerOfTen k
    if Scalar.isFinite y then some y else none
  else if x == 0 then some x
  else none

/-- The quotient by `10 ^ k`. If that is too large for a double, the
largest power is divided out first, unless nothing is left to divide. -/
def overPower (x : Float) (k : Nat) : Float :=
  if k ≤ largestPower then x / powerOfTen k
  else if x == 0 then x
  else overPower (x / powerOfTen largestPower) (k - largestPower)
termination_by k
decreasing_by
  simp only [largestPower] at *
  omega

/-- The double that a decimal reads as. -/
def Scaled.double? (s : Scaled) : Option Float :=
  let x : Float := Scalar.ofNat s.coefficient
  if 0 ≤ s.exponent then timesPower? x s.exponent.toNat
  else some (overPower x (-s.exponent).toNat)

end Decimal

namespace Interchange

/-- The number that a decimal with a sign reads as, by way of a double. -/
def ofDecimal? {α : Type} [Interchange α] (negative : Bool)
    (s : Decimal.Scaled) : Option α :=
  s.double?.map fun x => convert (if negative then -x else x)

end Interchange

end Equilibration
