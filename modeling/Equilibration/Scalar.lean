import Equilibration.Binary.Format

/-!
# Scalar — the numbers a matrix holds

`Scalar α` lists the operations that the kernels of this library use, and
assumes no law about them: `+`, `*` and the rest may round, comparisons may
fail on both sides, and `==` need not be reflexive. Everything generic is
written against this class, so one definition serves single precision,
double precision and exact arithmetic.

`Interchange α` adds what only the two floating-point types have: a bit
pattern for every number. Texts of numbers, conversions between the types
and default tolerances need it; the matrix kernels do not.
-/

namespace Equilibration

/-- The operations on matrix entries. Two numbers are compared with `<`,
`≤` and `==`, all of which are false when either is not a number. -/
class Scalar (α : Type) extends
    Zero α, One α, Add α, Sub α, Mul α, Div α, Neg α, BEq α, LT α, LE α where
  /-- Whether one number is below another can be tested. -/
  decidableLT : DecidableLT α
  /-- Whether one number is at most another can be tested. -/
  decidableLE : DecidableLE α
  /-- The square root. -/
  sqrt : α → α
  /-- The magnitude. -/
  abs : α → α
  /-- Tells the results that are no number. -/
  isNaN : α → Bool
  /-- Tells proper numbers from infinities and from no number at all. -/
  isFinite : α → Bool
  /-- The bound above all numbers. -/
  infinity : α
  /-- The result that is no number. -/
  nan : α
  /-- The scalar nearest to a count. -/
  ofNat : Nat → α

attribute [reducible, instance] Scalar.decidableLT Scalar.decidableLE

namespace Scalar

variable {α : Type} [Scalar α]

/-- `1 / v`. -/
def recip (v : α) : α := 1 / v

/-- The larger of two numbers, the first if they are equal; if one is not a
number, the other. -/
def max (a b : α) : α :=
  if isNaN a then b else if a < b then b else a

/-- The smaller of two numbers, the first if they are equal; if one is not a
number, the other. -/
def min (a b : α) : α :=
  if isNaN a then b else if b < a then b else a

end Scalar

/-- A scalar whose numbers are the bit patterns of a binary format. -/
class Interchange (α : Type) extends Scalar α where
  /-- The format of the patterns. -/
  format : Binary.Format
  /-- The pattern of a number; all that are not a number share one. -/
  toBits : α → Nat
  /-- The number of a pattern. -/
  ofBits : Nat → α

namespace Interchange

/-- What a number stands for. -/
def value {α : Type} [Interchange α] (x : α) : Binary.Value :=
  (format α).decode (toBits x)

/-- The number nearest to a ratio with a sign. -/
def ofRatio {α : Type} [Interchange α] (negative : Bool) (r : Ratio) : α :=
  ofBits ((format α).encode negative r)

/-- The number nearest to a number of another type. -/
def convert {α β : Type} [Interchange α] [Interchange β] (x : α) : β :=
  ofBits ((format β).ofValue (value x))

end Interchange

instance : Scalar Float where
  zero := Float.ofBits 0
  one := Float.ofBits 0x3ff0000000000000
  decidableLT := inferInstance
  decidableLE := inferInstance
  sqrt := Float.sqrt
  abs := Float.abs
  isNaN := Float.isNaN
  isFinite := Float.isFinite
  infinity := Float.ofBits 0x7ff0000000000000
  nan := Float.ofBits 0x7ff8000000000000
  ofNat n := Float.ofBits (.ofNat (Binary.Format.binary64.ofNat n))

instance : Interchange Float where
  format := .binary64
  toBits x := x.toBits.toNat
  ofBits p := Float.ofBits (.ofNat p)

instance : Scalar Float32 where
  zero := Float32.ofBits 0
  one := Float32.ofBits 0x3f800000
  decidableLT := inferInstance
  decidableLE := inferInstance
  sqrt := Float32.sqrt
  abs := Float32.abs
  isNaN := Float32.isNaN
  isFinite := Float32.isFinite
  infinity := Float32.ofBits 0x7f800000
  nan := Float32.ofBits 0x7fc00000
  ofNat n := Float32.ofBits (.ofNat (Binary.Format.binary32.ofNat n))

instance : Interchange Float32 where
  format := .binary32
  toBits x := x.toBits.toNat
  ofBits p := Float32.ofBits (.ofNat p)

end Equilibration
