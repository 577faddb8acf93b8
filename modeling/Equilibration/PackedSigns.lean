import Equilibration.Checked
import Equilibration.Scalar

/-!
# PackedSigns — magnitudes in place, signs aside

Balancing works on nonnegative numbers. `PackedSigns.split` replaces every
value by a magnitude and keeps its sign in a bit; `PackedSigns.join` puts
value and sign together again.

Values are taken in chunks of eight. Chunk `k` belongs to byte `k`, and bit
`i` of that byte is the sign of value `8 * k + i`; the last chunk may be
short, and its unused bits are clear. `splitChunk` and `joinChunk` are the
units of work: each reads and writes one chunk and its byte, and nothing
else.
-/

namespace Equilibration

open Checked

/-- How a value becomes a magnitude. -/
inductive Magnitude where
  /-- `|v|`, undone by leaving the value alone. -/
  | absolute
  /-- `v * v`, undone by the square root. -/
  | square
deriving DecidableEq, Repr

namespace Magnitude

variable {α : Type} [Scalar α]

/-- The magnitude of a value. -/
def of : Magnitude → α → α
  | .absolute, v => Scalar.abs v
  | .square, v => v * v

/-- The nonnegative value of a magnitude. -/
def undo : Magnitude → α → α
  | .absolute, v => v
  | .square, v => Scalar.sqrt v

end Magnitude

/-- The signs of a vector, eight to a byte. -/
structure PackedSigns where
  /-- The packed signs. -/
  bytes : Array UInt8
  /-- How many values they belong to. -/
  size : Nat
deriving DecidableEq, Repr

namespace PackedSigns

variable {α : Type} [Scalar α]

/-- How many values share a byte. -/
def chunkSize : Nat := 8

/-- How many chunks `n` values make. -/
def chunkCount (n : Nat) : Nat := (n + (chunkSize - 1)) / chunkSize

/-- The signs of a chunk as a number, the first value's in the lowest
bit. -/
def pack : List α → Nat
  | [] => 0
  | v :: vs => (if v < 0 then 1 else 0) + 2 * pack vs

/-- Records the signs of chunk `k` and replaces its values by magnitudes. -/
def splitChunk (t : Magnitude) (buffers : Array α × Array UInt8) (k : Nat) :
    Checked (Array α × Array UInt8) := do
  let (values, bytes) := buffers
  let chunk :=
    (values.extract (chunkSize * k) (chunkSize * k + chunkSize)).toList
  let bytes ← write bytes k (.ofNat (pack chunk))
  let values ← updateFrom (fun v _ => t.of v) values (chunkSize * k) chunk
  pure (values, bytes)

/-- Records the sign of every value and replaces the value by its
magnitude. -/
def split (t : Magnitude) (values : Array α) :
    Checked (PackedSigns × Array α) := do
  let padded ← addWords values.size (chunkSize - 1)
  let chunks := padded / chunkSize
  let (magnitudes, bytes) ←
    (List.range chunks).foldlM (splitChunk t) (values, Array.replicate chunks 0)
  pure (⟨bytes, values.size⟩, magnitudes)

/-- The value of a magnitude and a sign. -/
def joinValue (t : Magnitude) (magnitude : α) (negative : Bool) : α :=
  if negative then -(t.undo magnitude) else t.undo magnitude

/-- Replaces the magnitudes of chunk `k` by values with the recorded
signs. -/
def joinChunk (signs : PackedSigns) (t : Magnitude) (values : Array α)
    (k : Nat) :
    Checked (Array α) := do
  let byte ← read signs.bytes k
  let count := min chunkSize (values.size - chunkSize * k)
  updateFrom (joinValue t) values (chunkSize * k)
    ((List.range count).map byte.toNat.testBit)

/-- Replaces every magnitude by a value with the recorded sign. -/
def join (signs : PackedSigns) (t : Magnitude) (values : Array α) :
    Checked (Array α) := do
  require (values.size = signs.size) .length
  (List.range (chunkCount values.size)).foldlM (signs.joinChunk t) values

/-- Whether no sign is recorded. -/
def isEmpty (signs : PackedSigns) : Bool := signs.size == 0

/-- Whether value `i` was negative. -/
def signAt (signs : PackedSigns) (i : Nat) : Checked Bool := do
  require (i < signs.size) .index
  let byte ← read signs.bytes (i / chunkSize)
  pure (byte.toNat.testBit (i % chunkSize))

end PackedSigns

end Equilibration
