import Equilibration.Scalar
import Equilibration.Decimal.Digits

/-!
# Decimal — Scientific

Scientific notation with a fixed number of decimals, as reports use it:
`-1.25e-03`. The digits are those of the exact binary value, rounded to the
nearest, a half going to the even digit; a carry out of the first digit
moves the exponent (`roundTo`). The exponent is then given a sign and at
least two digits (`padExponent`).
-/

namespace Equilibration

namespace Decimal

/-- A mantissa with a digit before the point and `places` after it, and its
decimal exponent. -/
structure Rounded where
  /-- The mantissa as a whole number, without its point. -/
  mantissa : Nat
  exponent : Int
deriving DecidableEq, Repr

/-- A positive ratio rounded to `places` decimals. -/
def roundTo (places : Nat) (r : Ratio) : Rounded :=
  let e := r.exponent10
  let mantissa := (r.shift 10 (places - e)).nearest
  if mantissa = Nat.pow 10 (places + 1) then ⟨Nat.pow 10 places, e + 1⟩
    else ⟨mantissa, e⟩

/-- The mantissa with its point, then the exponent as it is. -/
def Rounded.text (r : Rounded) (places : Nat) : String :=
  let ds := ((digits r.mantissa).map digitChar)
  let padded := ds ++ List.replicate (places + 1 - ds.length) '0'
  let point := if places = 0 then [] else ['.']
  let sign := if r.exponent < 0 then "-" else ""
  String.ofList (padded.take 1 ++ point ++ padded.drop 1) ++ "e" ++ sign
    ++ natText r.exponent.natAbs

/-- Gives the exponent behind the mark `e` a sign and at least two digits. A
text without the mark stays as it is. -/
def padExponent (text : String) : String :=
  match text.toList.dropWhile (· ≠ 'e') with
  | [] => text
  | mark :: exponent =>
    let mantissa := text.toList.takeWhile (· ≠ 'e')
    let negative := exponent.head? == some '-'
    let shift := if negative then 1 else 0
    let padding := match negative, exponent.length - shift == 1 with
      | false, true => ['+', '0']
      | false, false => ['+']
      | true, true => ['0']
      | true, false => []
    String.ofList (mantissa
        ++ mark :: (exponent.take shift ++ padding ++ exponent.drop shift))

/-- A number in scientific notation with `places` decimals. -/
def scientific (places : Nat) : Binary.Value → String
  | .nan => "NaN"
  | .infinite negative => if negative then "-inf" else "inf"
  | .finite negative significand exponent =>
    let sign := if negative then "-" else ""
    let rounded :=
      if significand = 0 then ⟨0, 0⟩
      else roundTo places ((Ratio.ofNat significand).shift 2 exponent)
    padExponent (sign ++ rounded.text places)

end Decimal

/-- Numbers that reports can show. -/
class Displayed (α : Type) where
  /-- The text of a number with so many decimals. -/
  scientific : (places : Nat) → α → String

instance {α : Type} [Interchange α] : Displayed α where
  scientific places x := Decimal.scientific places (Interchange.value x)

end Equilibration
