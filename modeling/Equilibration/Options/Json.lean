import Equilibration.Decimal.Reading
import Equilibration.Decimal.Shortest
import Equilibration.Json.Value
import Equilibration.Options.Choices

/-!
# Options — Json

Options as JSON texts. Written, they are an object with every option in
order; tolerances have the fewest digits that round to them. Read, they may
be an object with any of the options, in any order and among any unknown
members, or an array of the first few values; what is missing takes its
standard value. An option may not be given twice.

A count must be written as a plain whole number. A tolerance may be any
number: whole numbers that fit a machine word are converted directly, all
others by way of a double (`Decimal/Reading`), so that a tolerance with
many digits may come back changed in its last bits.
-/

namespace Equilibration

open Json (NumberLiteral)

/-! ## Numbers -/

namespace Json.NumberLiteral

/-- The whole number that a literal without a point and an exponent writes,
with its sign apart. -/
def whole? (n : NumberLiteral) : Option Nat :=
  if n.fraction.isNone && n.exponent.isNone then some (Decimal.ofDigits n.whole)
    else none

/-- The literal of a natural number. -/
def ofNat (n : Nat) : NumberLiteral := ⟨false, Decimal.digits n, none, none⟩

/-- The power of ten that the exponent of a literal writes. -/
def power (n : NumberLiteral) : Int :=
  match n.exponent with
  | none => 0
  | some (negative, ds) =>
    if negative then -(Decimal.ofDigits ds : Int) else Decimal.ofDigits ds

/-- The leading digits of a literal, with their power of ten. -/
def leading (n : NumberLiteral) : Decimal.Scaled :=
  .leading n.whole (n.fraction.getD []) n.power

/-- The 32-bit count that a literal writes. -/
def count? (n : NumberLiteral) : Option UInt32 := do
  let v ← n.whole?
  if n.negative ∨ UInt32.size ≤ v then none else some (.ofNat v)

/-- Whether a literal is a whole number in the range of a signed or an
unsigned machine word. Minus zero is not, since no word holds it. -/
def isWord (n : NumberLiteral) : Bool :=
  match n.whole? with
  | none => false
  | some v =>
    if n.negative then decide (v ≠ 0 ∧ 2 * v ≤ UInt64.size)
      else decide (v < UInt64.size)

/-- The scalar that a literal writes. -/
def scalar? {α : Type} [Interchange α] (n : NumberLiteral) : Option α :=
  if n.isWord then
    some (Interchange.ofRatio n.negative (.ofNat (Decimal.ofDigits n.whole)))
  else Interchange.ofDecimal? n.negative n.leading

/-- The first-digit exponents at which numbers are written without an
exponent, from the first to the second. -/
def plainRange (f : Binary.Format) : Int × Int :=
  if f = .binary32 then (-6, 12) else (-5, 15)

/-- The literal of a decimal. Within `plainRange` it is written with a
point and at least one digit on either side of it, elsewhere with an
exponent. -/
def ofScaled (f : Binary.Format) (negative : Bool) (s : Decimal.Scaled) :
    NumberLiteral :=
  let ds := Decimal.digits s.coefficient
  let e := s.firstExponent
  let (low, high) := plainRange f
  if low ≤ e ∧ e ≤ high then
    if e < 0 then
      ⟨negative, [0], some (List.replicate (-e - 1).toNat 0 ++ ds), none⟩
    else
      let padded := ds ++ List.replicate s.exponent.toNat 0
      let fraction := padded.drop (e.toNat + 1)
      ⟨negative, padded.take (e.toNat + 1),
        some (if fraction = [] then [0] else fraction), none⟩
  else
    let fraction := ds.drop 1
    ⟨negative, ds.take 1, if fraction = [] then none else some fraction,
      some (decide (e < 0), Decimal.digits e.natAbs)⟩

end Json.NumberLiteral

namespace Json

/-- The value of a scalar: a literal with the fewest digits that round to
it, or `null` if the scalar is not finite. -/
def ofScalar {α : Type} [Interchange α] (x : α) : Json :=
  match Interchange.value x with
  | .finite negative significand exponent =>
    if significand = 0 then .number ⟨negative, [0], some [0], none⟩
    else
      let f := Interchange.format α
      .number (.ofScaled f negative (Decimal.shortest f significand exponent))
  | _ => .null

/-- The value of a name. -/
def ofName (s : String) : Json := .string (some s)

/-- The value of a count. -/
def ofCount (n : UInt32) : Json := .number (.ofNat n.toNat)

/-- The truth value that a value is. -/
def bool? : Json → Option Bool
  | .bool b => some b
  | _ => none

/-- The norm that a value names: by a string, or by the only member of an
object, whose value is then `null`. -/
def norm? : Json → Option NormPolicy
  | .string (some s) => NormPolicy.ofName? s
  | .object [(some s, .null)] => NormPolicy.ofName? s
  | _ => none

/-- The count that a value is. -/
def count? : Json → Option UInt32
  | .number n => n.count?
  | _ => none

/-- The scalar that a value is. -/
def scalar? {α : Type} [Interchange α] : Json → Option α
  | .number n => n.scalar?
  | _ => none

/-- The choice that a value makes for an option. -/
def choice? {α : Type} [Interchange α] (key : OptionKey) (j : Json) :
    Option (Choice α) :=
  match key with
  | .verbose => j.bool?.map .verbose
  | .balanceNorm => j.norm?.map .balanceNorm
  | .normalizeNorm => j.norm?.map .normalizeNorm
  | .balanceBudget => j.count?.map .balanceBudget
  | .balanceTolerance => j.scalar?.map .balanceTolerance
  | .normBudget => j.count?.map .normBudget
  | .normTolerance => j.scalar?.map .normTolerance

end Json

/-! ## Options -/

namespace Choices

variable {α : Type} [Interchange α]

/-- Adds the choice that a member of an object makes. A member with an
unknown name makes none. -/
def addMember? (c : Choices α) (member : Option String × Json) :
    Option (Choices α) := do
  let name ← member.1
  match OptionKey.ofName? name with
  | none => pure c
  | some key =>
    if c.isChosen key then none
    else do
      let x ← member.2.choice? key
      pure (c.set x)

/-- Adds the choice that an item of an array makes for the option at its
place. -/
def addItem? (c : Choices α) (item : OptionKey × Json) :
    Option (Choices α) := do
  let x ← item.2.choice? item.1
  pure (c.set x)

/-- The choices that a value makes. -/
def ofJson? : Json → Option (Choices α)
  | .object members => members.foldlM addMember? {}
  | .array items =>
    if OptionKey.all.length < items.length then none
    else (OptionKey.all.zip items).foldlM addItem? {}
  | _ => none

end Choices

namespace Options

variable {α : Type} [Interchange α]

/-- The value of an option. -/
def valueJson (o : Options α) : OptionKey → Json
  | .verbose => .bool o.verbose
  | .balanceNorm => .ofName o.balanceNorm.name
  | .normalizeNorm => .ofName o.normalizeNorm.name
  | .balanceBudget => .ofCount o.balanceBudget
  | .balanceTolerance => .ofScalar o.balanceTolerance
  | .normBudget => .ofCount o.normBudget
  | .normTolerance => .ofScalar o.normTolerance

/-- The object of all options, in their order. -/
def toJson (o : Options α) : Json :=
  .object (OptionKey.all.map fun key => (some key.name, o.valueJson key))

/-- The options that a value describes. They need not be sound. -/
def ofJson? (j : Json) : Option (Options α) :=
  (Choices.ofJson? j).map (·.applyTo .standard)

/-- The options as a JSON text. -/
def toText (o : Options α) : String := o.toJson.text

/-- The options that a JSON text describes. They need not be sound. -/
def ofText? (text : String) : Option (Options α) :=
  (Json.ofText? text).bind ofJson?

end Options

end Equilibration
