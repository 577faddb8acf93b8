import Equilibration.Proofs.EntryRanges
import Equilibration.Proofs.RangeEnds
import Equilibration.Proofs.RelativeErrors
import Equilibration.Proofs.SignCodec

/-!
# SquareCodec — values from their squares

Splitting with squares and joining again takes the root of a rounded square.
The root halves the relative error of the square, so what comes back is off
by little more than the root's own rounding, as long as the square is neither
out of range nor so small that its significand has few bits left
(`FloatingPoint.sqrt_square`). Squares that are out of range come back as
infinities and squares below half of the smallest number as zero: the values
themselves are far from the ends of the range then, since a square has twice
the exponent.

Main result: which values come back from their squares
(`PackedSigns.squares_restored`).
-/

namespace Equilibration

open Rounding Float.Model Float.Model.UnpackedFloat

/-- A root is relatively half as far off as its square, or hardly more. -/
theorem abs_sqrt_sub_abs_le {q y δ : ℝ} (hq : 0 ≤ q) (hδ : δ ≤ 1 / 2)
    (h : |q - y ^ 2| ≤ δ * y ^ 2) : abs (√q - |y|) ≤ 2 / 3 * δ * |y| := by
  have hroot := Real.sqrt_nonneg q
  have hy := abs_nonneg y
  rw [← sq_abs y, ← Real.sq_sqrt hq, sq_sub_sq, abs_mul,
    abs_of_nonneg (add_nonneg hroot hy)] at h
  rcases hy.eq_or_lt with hzero | hpos
  · rw [← hzero] at h ⊢
    have hroot0 : √q * |√q| ≤ 0 := by simpa using h
    rw [abs_of_nonneg hroot] at hroot0
    have : √q = 0 := by nlinarith
    rw [this]
    simp
  · -- the root is more than half of the value
    have hhalf : |y| / 2 ≤ √q := by
      by_contra hsmall
      rw [not_le] at hsmall
      have hgap : abs (√q - |y|) = |y| - √q := by
        rw [abs_sub_comm, abs_of_nonneg (by linarith)]
      rw [hgap] at h
      nlinarith
    have hsum : 3 / 2 * |y| ≤ √q + |y| := by linarith
    have hle :=
      (mul_le_mul_of_nonneg_right hsum (abs_nonneg (√q - |y|))).trans h
    refine le_of_mul_le_mul_left ?_ hpos
    nlinarith

namespace FloatingPoint

variable {α : Type} [Scalar α] [FloatingPoint α] {x : α}

/-- A square that is not among the smallest numbers dwarfs them, and so does the
value itself. -/
theorem smallest_le_of_square (hbits : 24 ≤ (model α).mantissaBits)
    (hlow : (2 : ℝ) ^ ((model α).minExponent + 20) ≤ toReal x ^ 2) :
    smallest α ≤ toReal x ^ 2 / 2 ^ 20 ∧ smallest α ≤ |toReal x| / 2 ^ 23 := by
  have hbias := mantissaBits_le (α := α)
  have hmin := minExponent_eq (model α)
  have hsquare : smallest α ≤ toReal x ^ 2 / 2 ^ 20 := by
    rw [le_div_iff₀ (by positivity), smallest_eq, ← zpow_natCast,
      ← zpow_add₀ two_ne_zero]
    exact hlow
  have htiny : smallest α ≤ 1 / 2 ^ 26 := by
    have hle : smallest α ≤ 2 ^ (-26 : ℤ) := by
      rw [smallest_eq]
      exact zpow_le_zpow.mpr (by omega)
    exact hle.trans_eq (by norm_num)
  refine ⟨hsquare, le_of_sq_le_sq ?_ (by positivity)⟩
  calc smallest α ^ 2 = smallest α * smallest α := sq _
    _ ≤ 1 / 2 ^ 26 * (toReal x ^ 2 / 2 ^ 20) :=
        mul_le_mul htiny hsquare (smallest_pos α).le (by positivity)
    _ = (|toReal x| / 2 ^ 23) ^ 2 := by
        rw [div_pow, sq_abs]
        ring

theorem roundoff_le (hbits : 24 ≤ (model α).mantissaBits) :
    roundoff α ≤ 1 / 2 ^ 23 := by
  have hle : roundoff α ≤ 2 ^ (-23 : ℤ) := by
    rw [roundoff_eq]
    exact zpow_le_zpow.mpr (by omega)
  exact hle.trans_eq (by norm_num)

/-- **A value comes back from its square**, if the square is neither out of
range nor among the smallest numbers. -/
theorem sqrt_square (hbits : 24 ≤ (model α).mantissaBits)
    (hfin : Scalar.isFinite x = true)
    (hlow : (2 : ℝ) ^ ((model α).minExponent + 20) ≤ toReal x ^ 2)
    (hhigh : toReal x ^ 2 < 2 ^ ((model α).exponentBias + 1)) :
    Scalar.isFinite (Scalar.sqrt (x * x)) = true
      ∧ abs (toReal (Scalar.sqrt (x * x)) - |toReal x|)
        ≤ 1e-6 * |toReal x| := by
  have hunit := roundoff_le (α := α) hbits
  obtain ⟨hsquare, hvalue⟩ := smallest_le_of_square hbits hlow
  -- the square
  have hrounded := rounded_square hfin hhigh
  have hnonneg : 0 ≤ toReal (x * x) :=
    hrounded.faithful.le_of_le (grid_zero _) (sq_nonneg _)
  have herror : |toReal (x * x) - toReal x ^ 2|
      ≤ (1 / 2 ^ 23 + 1 / 2 ^ 20) * toReal x ^ 2 := by
    have h := hrounded.abs_sub_le
    rw [abs_of_nonneg (sq_nonneg (toReal x))] at h
    linarith [mul_le_mul_of_nonneg_right hunit (sq_nonneg (toReal x))]
  -- the exact root of the square
  have hroot := abs_sqrt_sub_abs_le hnonneg (by norm_num) herror
  have hroot0 := Real.sqrt_nonneg (toReal (x * x))
  have hfits : √(toReal (x * x)) ≤ 2 ^ (model α).exponentBias := by
    rw [Real.sqrt_le_left (by positivity), ← pow_mul]
    refine (le_abs_self _).trans ((abs_toReal_lt (x * x)).le.trans ?_)
    exact pow_le_pow_right₀ one_le_two (by have := exponentBias_pos α; omega)
  have hupper : √(toReal (x * x)) ≤ (1 + 1 / 2 ^ 20) * |toReal x| := by
    linarith [(abs_le.mp hroot).2, abs_nonneg (toReal x)]
  -- and its rounding
  have hlast := rounded_sqrt hrounded.finite hnonneg hfits
  have hlast' := hlast.abs_sub_le
  rw [abs_of_nonneg hroot0] at hlast'
  have hstep := mul_le_mul hunit hupper hroot0 (by positivity)
  refine ⟨hlast.finite, ?_⟩
  calc abs (toReal (Scalar.sqrt (x * x)) - |toReal x|)
      ≤ |toReal (Scalar.sqrt (x * x)) - √(toReal (x * x))|
          + abs (√(toReal (x * x)) - |toReal x|) := abs_sub_le _ _ _
    _ ≤ 1e-6 * |toReal x| := by linarith [abs_nonneg (toReal x)]

section UniquelyPacked

variable [UniquelyPacked α]

theorem isFinite_neg (x : α) : Scalar.isFinite (-x) = Scalar.isFinite x := by
  rw [← isFinite_unpacked, ← isFinite_unpacked, unpacked_neg]
  cases unpacked x <;> rfl

theorem toReal_neg (x : α) : toReal (-x) = -toReal x := by
  rw [toReal, toReal, unpacked_neg]
  rcases unpacked x with s | - | s | ⟨_ | _, m, e, hm⟩
  · exact neg_zero.symm
  · exact neg_zero.symm
  · exact neg_zero.symm
  · exact (neg_neg _).symm
  · rfl

end UniquelyPacked

theorem unpacked_sqrt_of_infinity {x : α}
    (hx : unpacked x = .infinity .positive) :
    unpacked (Scalar.sqrt x) = .infinity .positive := by
  rw [unpacked_sqrt, hx]
  exact unpack_pack_infinity _

end FloatingPoint

/-! ## Values with their signs -/

namespace PackedSigns

open FloatingPoint

variable {α : Type} [Scalar α] [FloatingPoint α] [UniquelyPacked α] {v w : α}

theorem isFinite_joinValue (t : Magnitude) (w : α) (negative : Bool) :
    Scalar.isFinite (joinValue t w negative) = Scalar.isFinite (t.undo w) := by
  unfold joinValue
  split
  · exact isFinite_neg _
  · rfl

theorem toReal_joinValue (t : Magnitude) (w : α) (negative : Bool) :
    toReal (joinValue t w negative)
      = if negative then -toReal (t.undo w) else toReal (t.undo w) := by
  unfold joinValue
  split
  · exact toReal_neg _
  · rfl

/-- The sign is right, so it is the magnitude that may be off. -/
theorem abs_joinValue_sub (t : Magnitude) (hv : Scalar.isFinite v = true) :
    |toReal (joinValue t w (decide (v < 0))) - toReal v|
      = abs (toReal (t.undo w) - |toReal v|) := by
  rw [toReal_joinValue, decide_eq_decide.mpr (lt_zero_iff hv)]
  by_cases hneg : toReal v < 0
  · rw [if_pos (decide_eq_true hneg), abs_of_neg hneg, ← abs_neg]
    congr 1
    ring
  · rw [if_neg (by simpa using hneg), abs_of_nonneg (not_lt.mp hneg)]

/-- **Which values come back from their squares.** Splitting any finite values
into signs and squares and joining these again succeeds. A zero comes back as
zero, and a value comes back with a relative error of at most `1e-6` if its
square is below the first power of two out of range and at least `2 ^ 20`
times the smallest positive number: for double precision if its magnitude is
at least `2 ^ (-527)` and below `2 ^ 512`, and for single precision if it is
at least `2 ^ (-64)` and below `2 ^ 64`. A value whose square is out of range
does not come back as a finite number, and a value whose square is below half
of the smallest positive number comes back as zero.

Between these two bounds for small squares, in some 20 binades, a square has
only a few bits left, and what comes back is left open. So is the sign of what
is not finite; and values that are not finite themselves are left out. -/
theorem squares_restored (hbits : 24 ≤ (model α).mantissaBits)
    {values : Array α} (hsize : values.size + (chunkSize - 1) < UInt64.size)
    (hfinite : ∀ v ∈ values, Scalar.isFinite v = true) :
    ∃ signs : PackedSigns, ∃ restored : Array α,
      split .square values = .ok (signs, values.map (Magnitude.of .square))
      ∧ signs.join .square (values.map (Magnitude.of .square)) = .ok restored
      ∧ restored.size = values.size
      ∧ ∀ (i : Nat) (v r : α), values[i]? = some v → restored[i]? = some r →
        (toReal v = 0 ∨ ((2 : ℝ) ^ ((model α).minExponent + 20) ≤ toReal v ^ 2
            ∧ toReal v ^ 2 < 2 ^ ((model α).exponentBias + 1)) →
          Scalar.isFinite r = true ∧ |toReal r - toReal v| ≤ 1e-6 * |toReal v|)
        ∧ (2 ^ ((model α).exponentBias + 1) ≤ toReal v ^ 2 →
          Scalar.isFinite r = false)
        ∧ (toReal v ^ 2 < 2 ^ ((model α).minExponent - 1) →
          Scalar.isFinite r = true ∧ toReal r = 0) := by
  refine ⟨_, _, split_eq_ok .square hsize, join_signsOf .square Array.size_map,
    by simp, ?_⟩
  intro i v r hv hr
  have hfin := hfinite v (Array.mem_of_getElem? hv)
  obtain rfl : r = joinValue .square (v * v) (decide (v < 0)) := by
    simp only [Array.getElem?_zipWith, Array.getElem?_map, hv] at hr
    exact (Option.some.inj hr).symm
  rw [isFinite_joinValue]
  refine ⟨?_, fun hlarge => ?_, fun hsmall => ?_⟩
  · rw [abs_joinValue_sub .square hfin]
    rintro (hzero | ⟨hlow, hhigh⟩)
    · obtain ⟨hof, hof'⟩ := Magnitude.of_zero (t := .square) hfin hzero
      obtain ⟨hundo, hundo'⟩ := Magnitude.undo_zero (t := .square) hof hof'
      refine ⟨hundo, ?_⟩
      change toReal (Magnitude.square.undo (v * v)) = 0 at hundo'
      rw [hundo', hzero]
      simp
    · exact sqrt_square hbits hfin hlow hhigh
  · rw [← isFinite_unpacked]
    show (unpacked (Scalar.sqrt (v * v))).isFinite = false
    rw [unpacked_sqrt_of_infinity (unpacked_square_of_large hfin hlarge)]
    rfl
  · have hroot := unpacked_sqrt_of_zero (unpacked_square_of_small hfin hsmall)
    have hundo : toReal (Magnitude.square.undo (v * v)) = 0 :=
      congrArg value hroot
    refine ⟨?_, ?_⟩
    · rw [← isFinite_unpacked]
      exact congrArg UnpackedFloat.isFinite hroot
    · rw [toReal_joinValue, hundo, neg_zero, ite_self]

/-- Of two doubles the negative one comes back with its sign; both squares are
well inside the range. -/
theorem squares_restored_pair :
    let values : Array Float := #[3, -5]
    24 ≤ (model Float).mantissaBits
    ∧ values.size + (chunkSize - 1) < UInt64.size
    ∧ (∀ v ∈ values, Scalar.isFinite v = true)
    ∧ ∃ (signs : PackedSigns) (restored : Array Float) (r : Float),
      split .square values = .ok (signs, #[9, 25])
      ∧ signs.join .square #[9, 25] = .ok restored ∧ restored[1]? = some r
      ∧ Scalar.isFinite r = true ∧ |toReal r - -5| ≤ 1e-6 * 5 := by
  intro values
  have hbits : 24 ≤ (model Float).mantissaBits := by decide
  have hsize : values.size + (chunkSize - 1) < UInt64.size := by decide
  have hfinite : ∀ v ∈ values, Scalar.isFinite v = true := by decide +kernel
  obtain ⟨signs, restored, hsplit, hjoin, hlen, hall⟩ :=
    squares_restored hbits hsize hfinite
  have hsquares : values.map (Magnitude.of .square) = #[9, 25] := by
    decide +kernel
  rw [hsquares] at hsplit hjoin
  have hi : 1 < restored.size := by
    rw [hlen]
    decide
  have hfive : toReal (-5 : Float) = -5 := by
    rw [toReal_neg, show (5 : Float) = Scalar.ofNat 5 by decide +kernel,
      (isFinite_ofNat (α := Float) (n := 5) (by decide)).2]
    norm_num
  have hr : restored[1]? = some restored[1] := Array.getElem?_eq_getElem hi
  obtain ⟨hfin, hclose⟩ := (hall 1 (-5) restored[1] rfl hr).1 (.inr (by
    rw [hfive]
    constructor
    · refine (zpow_le_zpow.mpr (show (model Float).minExponent + 20
          ≤ 0 by decide)).trans ?_
      norm_num
    · refine lt_of_lt_of_le (b := 2 ^ 5) (by norm_num)
        (pow_le_pow_right₀ one_le_two ?_)
      decide))
  rw [hfive] at hclose
  refine ⟨hbits, hsize, hfinite, signs, restored, _, hsplit, hjoin, hr,
    hfin, ?_⟩
  exact hclose.trans_eq (by norm_num)

/-- The doubles `2 ^ 512` and `2 ^ (-538)` come back as infinity and zero. -/
theorem squares_lost :
    let large := Float.ofBits 0x5ff0000000000000
    let small := Float.ofBits 0x1e50000000000000
    (Scalar.isFinite large = true ∧ Scalar.isFinite small = true)
    ∧ split .square #[large, small] = .ok (⟨#[0], 2⟩, #[Scalar.infinity, 0])
    ∧ join ⟨#[0], 2⟩ .square #[Scalar.infinity, 0]
      = .ok #[Scalar.infinity, (0 : Float)]
    ∧ Scalar.isFinite (Scalar.infinity : Float) = false
    ∧ ¬ |toReal (0 : Float) - toReal small| ≤ 1e-6 * |toReal small| := by
  intro large small
  have hsmall : Scalar.isFinite small = true := by decide +kernel
  refine ⟨by decide +kernel, by decide +kernel, by decide +kernel,
    by decide +kernel, ?_⟩
  have hpos := (zero_lt_iff hsmall).mp (by decide +kernel)
  have hzero : toReal (0 : Float) = 0 := isFinite_zero.2
  rw [hzero, zero_sub, abs_neg, abs_of_pos hpos]
  norm_num
  linarith

end PackedSigns

end Equilibration
