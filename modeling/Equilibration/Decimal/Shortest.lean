import Equilibration.Binary.Format
import Equilibration.Decimal.Digits

/-!
# Decimal — Shortest

The shortest decimal that rounds to a given binary number. Around each
number of a format lies the interval of ratios that round to it; its ends
belong to it exactly if the number's significand is even. Decimal grids are
tried from the coarsest on. On each grid only the two neighbours of the
number can lie in its interval without a coarser point doing so, so the
first grid with a neighbour inside gives the fewest digits; of two
neighbours inside the nearer one is taken, the even one if they are equally
near.
-/

namespace Equilibration.Decimal

/-- The ratios that round to one number: those between `below` and
`above`, around `value`. -/
structure Rounding where
  value : Ratio
  below : Ratio
  above : Ratio
  /-- Whether the two ends round to the number as well. -/
  closed : Bool

namespace Rounding

/-- The interval of the number `significand * 2 ^ exponent` of a format.
Its ends are halfway to its neighbours. They are one unit away, except that
the lower neighbour of the first number of a binade is half a unit away. -/
def ofFinite (f : Binary.Format) (significand : Nat) (exponent : Int) :
    Rounding :=
  let firstOfBinade :=
    significand == f.binade && decide (f.unitExponent < exponent)
  let quarters (n : Nat) : Ratio := (Ratio.ofNat n).shift 2 (exponent - 2)
  { value := quarters (4 * significand)
    below := quarters (4 * significand - (if firstOfBinade then 1 else 2))
    above := quarters (4 * significand + 2)
    closed := significand % 2 == 0 }

/-- Whether `c * 10 ^ k` rounds to the number. -/
def contains (r : Rounding) (c : Nat) (k : Int) : Bool :=
  let point := (Ratio.ofNat c).shift 10 k
  if r.closed then r.below.le point && point.le r.above
  else r.below.lt point && point.lt r.above

/-- The point of the grid of multiples of `10 ^ k` that stands for the
number, if there is one. -/
def gridPoint? (r : Rounding) (k : Int) : Option Nat :=
  let scaled := r.value.shift 10 (-k)
  let c := scaled.floor
  match r.contains c k, r.contains (c + 1) k with
  | true, true => some scaled.nearest
  | true, false => some c
  | false, true => some (c + 1)
  | false, false => none

/-- The point of the coarsest of `budget` grids, from `10 ^ k` downwards,
that has one; the number itself rounded down on the next grid if none
has. -/
def coarsest (r : Rounding) : (budget : Nat) → (k : Int) → Scaled
  | 0, k => ⟨(r.value.shift 10 (-k)).floor, k⟩
  | budget + 1, k =>
    match r.gridPoint? k with
    | some c => ⟨c, k⟩
    | none => r.coarsest budget (k - 1)

end Rounding

/-- The shortest decimal that rounds to `significand * 2 ^ exponent`, and
the nearest such. -/
def shortest (f : Binary.Format) (significand : Nat) (exponent : Int) :
    Scaled :=
  let r := Rounding.ofFinite f significand exponent
  r.coarsest f.fractionBits (r.value.exponent10 + 1)

end Equilibration.Decimal
