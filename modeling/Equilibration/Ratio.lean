/-!
# Ratio — exact nonnegative ratios

Every conversion between decimal text and binary numbers in this library is
exact arithmetic on ratios of natural numbers, with one rounding at the
end. `Ratio.shift` multiplies by a power of a base, `Ratio.exponentFrom`
places a ratio between two powers, and `Ratio.nearest` rounds it to a whole
number, a half going to the even one.

A ratio carries the proof that its denominator is positive. A literal one is
checked by evaluation; the bases are two and ten.

* `nearest_shift_ofNat` says that rounding leaves a whole number alone that is
  shifted up.
-/

namespace Equilibration

/-- The ratio `num / den`. -/
structure Ratio where
  num : Nat
  den : Nat
  den_pos : 0 < den := by decide
deriving DecidableEq, Repr

namespace Ratio

theorem ten_pos : 0 < 10 := by decide

/-- A whole number as a ratio. -/
def ofNat (n : Nat) : Ratio := ⟨n, 1, Nat.one_pos⟩

/-- `r * base ^ k`. -/
def shift (r : Ratio) (base : Nat) (k : Int)
    (hbase : 0 < base := by first | exact Nat.two_pos | exact Ratio.ten_pos) :
    Ratio where
  num := r.num * Nat.pow base k.toNat
  den := r.den * Nat.pow base (-k).toNat
  den_pos := Nat.mul_pos r.den_pos (Nat.pow_pos hbase)

/-- Whether `r ≤ s`. -/
def le (r s : Ratio) : Bool := decide (r.num * s.den ≤ s.num * r.den)

/-- Whether `r < s`. -/
def lt (r s : Ratio) : Bool := decide (r.num * s.den < s.num * r.den)

/-- The largest whole number not above the ratio. -/
def floor (r : Ratio) : Nat := r.num / r.den

/-- The nearest whole number, a half going to the even neighbour. -/
def nearest (r : Ratio) : Nat :=
  let q := r.num / r.den
  let rest := r.num % r.den
  if 2 * rest < r.den then q
  else if r.den < 2 * rest then q + 1
  else q + q % 2

/-- The `e` with `base ^ e ≤ r < base ^ (e + 1)`, given a guess that is
right or one too large. -/
def exponentFrom (r : Ratio) (base : Nat) (guess : Int)
    (hbase : 0 < base := by first | exact Nat.two_pos | exact Ratio.ten_pos) :
    Int :=
  if ((ofNat 1).shift base guess hbase).le r then guess else guess - 1

/-- The `e` with `2 ^ e ≤ r < 2 ^ (e + 1)`, for a positive ratio. -/
def exponent2 (r : Ratio) : Int :=
  r.exponentFrom 2 ((Nat.log2 r.num : Int) - Nat.log2 r.den)

/-! ## Rounding -/

/-- A whole number that is shifted up stays whole. -/
theorem nearest_shift_ofNat (n : Nat) {base : Nat} (hbase : 0 < base) {k : Int}
    (hk : 0 ≤ k) :
    ((ofNat n).shift base k hbase).nearest = n * Nat.pow base k.toNat := by
  have hnum : ((ofNat n).shift base k hbase).num = n * Nat.pow base k.toNat :=
    rfl
  have hden : ((ofNat n).shift base k hbase).den = 1 := by
    show 1 * base ^ (-k).toNat = 1
    rw [Int.toNat_of_nonpos (by omega), Nat.pow_zero, Nat.mul_one]
  simp [nearest, hnum, hden, Nat.mod_one]

end Ratio

end Equilibration
