import Equilibration.Ratio

/-!
# Binary — Format

The two binary interchange formats, as arithmetic on natural numbers. A
number of a format is stored as a bit pattern; `Format.decode` reads the
pattern as a signed multiple of a power of two, and `Format.encode` finds
the pattern nearest to a signed ratio, ties going to the even pattern.

Magnitude patterns are ordered as the numbers they stand for, and
consecutive patterns stand for consecutive numbers. That is why
`Format.magnitude` can add the binade's first pattern to the rounded
significand: a carry out of the significand lands on the next pattern, and
a carry out of the largest finite number lands on infinity.
-/

namespace Equilibration.Binary

/-- The widths of the two fields of a pattern. -/
structure Format where
  /-- How many bits of the significand are stored. -/
  fractionBits : Nat
  /-- How many bits the exponent has. -/
  exponentBits : Nat
deriving DecidableEq, Repr

/-- What a bit pattern stands for. A finite number is
`± significand * 2 ^ exponent`. -/
inductive Value where
  | finite (negative : Bool) (significand : Nat) (exponent : Int)
  | infinite (negative : Bool)
  | nan
deriving DecidableEq, Repr

namespace Format

/-- Double precision. -/
def binary64 : Format := ⟨52, 11⟩

/-- Single precision. -/
def binary32 : Format := ⟨23, 8⟩

/-- How many numbers a binade has, and the first normal significand. -/
def binade (f : Format) : Nat := Nat.pow 2 f.fractionBits

/-- The largest value of the exponent field, which infinities and patterns
of no number have. -/
def exponentLimit (f : Format) : Nat := Nat.pow 2 f.exponentBits - 1

/-- The patterns of negative numbers are those of the positive ones with
this bit added. -/
def signBit (f : Format) : Nat := Nat.pow 2 (f.fractionBits + f.exponentBits)

/-- The exponent of the least positive number, `2 ^ unitExponent`. -/
def unitExponent (f : Format) : Int :=
  2 - (Nat.pow 2 (f.exponentBits - 1) : Nat) - f.fractionBits

/-- The pattern of positive infinity, one above the largest finite number. -/
def infinity (f : Format) : Nat := f.exponentLimit * f.binade

/-- The pattern written for every value that is not a number. -/
def quietNaN (f : Format) : Nat := f.infinity + f.binade / 2

/-- Reads a bit pattern. Below the first binade the significand has no
leading one, and the exponent stays at `unitExponent`. -/
def decode (f : Format) (pattern : Nat) : Value :=
  let negative := pattern / f.signBit % 2 == 1
  let magnitude := pattern % f.signBit
  let fraction := magnitude % f.binade
  let biased := magnitude / f.binade
  if biased = f.exponentLimit then
    if fraction = 0 then .infinite negative else .nan
  else if biased = 0 then
    .finite negative fraction f.unitExponent
  else
    .finite negative (f.binade + fraction) (f.unitExponent + (biased - 1 : Nat))

/-- The pattern of the number nearest to a ratio, ties going to the even
pattern; infinity when the ratio is too large for the format. -/
def magnitude (f : Format) (r : Ratio) : Nat :=
  if r.num = 0 then 0
  else
    let unit := max (r.exponent2 - f.fractionBits) f.unitExponent
    let significand := (r.shift 2 (-unit)).nearest
    min ((unit - f.unitExponent).toNat * f.binade + significand) f.infinity

/-- Adds the sign to a magnitude pattern. -/
def withSign (f : Format) (negative : Bool) (pattern : Nat) : Nat :=
  if negative then f.signBit + pattern else pattern

/-- The pattern of the number nearest to a ratio with a sign. -/
def encode (f : Format) (negative : Bool) (r : Ratio) : Nat :=
  f.withSign negative (f.magnitude r)

/-- The pattern of the number nearest to a value of any other format. -/
def ofValue (f : Format) : Value → Nat
  | .finite negative significand exponent =>
    f.encode negative ((Ratio.ofNat significand).shift 2 exponent)
  | .infinite negative => f.withSign negative f.infinity
  | .nan => f.quietNaN

/-- The pattern of the number nearest to a natural number. -/
def ofNat (f : Format) (n : Nat) : Nat := f.magnitude (.ofNat n)

example : binary64.unitExponent = -1074 ∧ binary32.unitExponent = -149 := by
  decide

end Format

end Equilibration.Binary
