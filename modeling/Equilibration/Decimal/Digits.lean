import Equilibration.Ratio

/-!
# Decimal — Digits

Natural numbers in decimal: the digits of a number, the most significant
first (`digits`), the number of a list of digits (`ofDigits`), numbers with
a power of ten (`Scaled`), and the decimal exponent of a ratio
(`Ratio.exponent10`).

`ofDigits_digits` says that writing and reading a number gives it back.
-/

namespace Equilibration.Decimal

/-- The decimal digits of a number, the most significant first. Zero has
the one digit zero. -/
def digits (n : Nat) : List Nat :=
  if n < 10 then [n] else digits (n / 10) ++ [n % 10]
termination_by n
decreasing_by omega

/-- The number that a list of digits stands for. -/
def ofDigits (ds : List Nat) : Nat := ds.foldl (fun n d => 10 * n + d) 0

/-- The character of a digit. -/
def digitChar (d : Nat) : Char := Char.ofNat ('0'.toNat + d)

/-- The digit of a character, if it is one of the ten. -/
def digitOf? (c : Char) : Option Nat :=
  if '0'.toNat ≤ c.toNat ∧ c.toNat ≤ '9'.toNat then some (c.toNat - '0'.toNat)
    else none

/-- The decimal text of a natural number. -/
def natText (n : Nat) : String := String.ofList ((digits n).map digitChar)

/-- The number `coefficient * 10 ^ exponent`. -/
structure Scaled where
  coefficient : Nat
  exponent : Int
deriving DecidableEq, Repr

/-- The decimal exponent of the first digit. -/
def Scaled.firstExponent (s : Scaled) : Int :=
  s.exponent + ((digits s.coefficient).length - 1 : Nat)

theorem ofDigits_append_singleton (ds : List Nat) (d : Nat) :
    ofDigits (ds ++ [d]) = 10 * ofDigits ds + d := by
  simp [ofDigits]

/-- Reading the digits of a number gives the number. -/
@[simp] theorem ofDigits_digits (n : Nat) : ofDigits (digits n) = n := by
  fun_induction digits n with
  | case1 n h => simp [ofDigits]
  | case2 n h ih => rw [ofDigits_append_singleton, ih]; omega

theorem digits_ne_nil (n : Nat) : digits n ≠ [] := by
  unfold digits
  split <;> simp

/-- Every digit is below ten. -/
theorem lt_ten_of_mem_digits {n d : Nat} (h : d ∈ digits n) : d < 10 := by
  fun_induction digits n with
  | case1 n hn => simp at h; omega
  | case2 n hn ih =>
    rcases List.mem_append.1 h with h | h
    · exact ih h
    · simp at h; omega

/-- The character of a digit reads as that digit. -/
theorem digitOf?_digitChar {d : Nat} (h : d < 10) :
    digitOf? (digitChar d) = some d := by
  decide +revert

end Equilibration.Decimal

/-- The `e` with `10 ^ e ≤ r < 10 ^ (e + 1)`, for a positive ratio. -/
def Equilibration.Ratio.exponent10 (r : Ratio) : Int :=
  r.exponentFrom 10
    (((Decimal.digits r.num).length : Int) - (Decimal.digits r.den).length)
