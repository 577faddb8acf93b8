import Mathlib.Data.Int.Log
import Equilibration.Proofs.FloatingPoint
import Equilibration.Vec

/-!
# Ranges — how large rounded numbers can be

Bounds by powers of two, which rounding respects: a product of numbers
between powers of two lies between the products of these powers, and so do
quotients and roots, as long as the powers are powers of the format
(`Between`). For sums the bounds are multiples of a power
(`Within`, `SumOf`). A sum of numbers that are not negative is at least each
of them, rounding included.
-/

namespace Equilibration

open Rounding Float.Model UnpackedFloat

namespace FloatingPoint

variable {α : Type} [Scalar α] [FloatingPoint α]

/-! ## Powers of two -/

theorem zpow_le_zpow {a b : ℤ} : (2 : ℝ) ^ a ≤ 2 ^ b ↔ a ≤ b :=
  zpow_le_zpow_iff_right₀ one_lt_two

theorem abs_signed (s : Sign) (y : ℝ) : |signed s y| = |y| := by
  cases s
  · exact abs_neg y
  · rfl

theorem sign_mul_self (s : Sign) : s * s = .positive := by cases s <;> rfl

/-! ## Numbers between powers of two -/

/-- A finite number of sign `s` with a magnitude from `2 ^ lo` to
`2 ^ hi`. -/
structure Between (s : Sign) (lo hi : ℤ) (x : α) : Prop where
  finite : Scalar.isFinite x = true
  lower : (2 : ℝ) ^ lo ≤ signed s (toReal x)
  upper : signed s (toReal x) ≤ (2 : ℝ) ^ hi

namespace Between

variable {s t : Sign} {a b c d : ℤ} {x y : α}

theorem pos (h : Between s a b x) : 0 < signed s (toReal x) :=
  (zpow_pos two_pos a).trans_le h.lower

theorem le (h : Between s a b x) : a ≤ b :=
  zpow_le_zpow.mp (h.lower.trans h.upper)

theorem toReal_pos (h : Between .positive a b x) : 0 < toReal x := h.pos

theorem zero_lt (h : Between .positive a b x) : 0 < x :=
  (zero_lt_iff h.finite).mpr h.pos

theorem lt_zero (h : Between .negative a b x) : x < 0 :=
  (lt_zero_iff h.finite).mpr (neg_pos.mp h.pos)

theorem abs_eq (h : Between s a b x) : |toReal x| = signed s (toReal x) := by
  rw [← abs_signed s, abs_of_pos h.pos]

theorem mono (h : Between s a b x) (hlo : c ≤ a) (hhi : b ≤ d) :
    Between s c d x :=
  ⟨h.finite, (zpow_le_zpow.mpr hlo).trans h.lower,
    h.upper.trans (zpow_le_zpow.mpr hhi)⟩

end Between

/-- Powers of two of the format bound the rounding of what they bound. -/
theorem Rounded.between {y : ℝ} {x : α} (h : Rounded y x) {s : Sign} {a b : ℤ}
    (hlo : (model α).minExponent ≤ a) (hlower : (2 : ℝ) ^ a ≤ signed s y)
    (hupper : signed s y ≤ (2 : ℝ) ^ b) : Between s a b x := by
  have hab : a ≤ b := zpow_le_zpow.mp (hlower.trans hupper)
  have hround := h.faithful.signed s
  exact ⟨h.finite, hround.le_of_le (grid_two_zpow hlo) hlower,
    hround.ge_of_ge (grid_two_zpow (hlo.trans hab)) hupper⟩

namespace Between

variable {s t : Sign} {a b c d : ℤ} {x y : α}

theorem mul_bounds (hx : Between s a b x) (hy : Between t c d y) :
    (2 : ℝ) ^ (a + c) ≤ signed (s * t) (toReal x * toReal y)
      ∧ signed (s * t) (toReal x * toReal y) ≤ (2 : ℝ) ^ (b + d) := by
  rw [signed_mul, zpow_add₀ two_ne_zero, zpow_add₀ two_ne_zero]
  exact ⟨mul_le_mul hx.lower hy.lower (zpow_pos two_pos c).le hx.pos.le,
    mul_le_mul hx.upper hy.upper hy.pos.le (zpow_pos two_pos b).le⟩

theorem rounded_mul (hx : Between s a b x) (hy : Between t c d y)
    (hhi : b + d ≤ (model α).exponentBias) :
    Rounded (toReal x * toReal y) (x * y) := by
  refine FloatingPoint.rounded_mul hx.finite hy.finite ?_
  rw [abs_mul, hx.abs_eq, hy.abs_eq, ← signed_mul, ← zpow_natCast]
  exact (hx.mul_bounds hy).2.trans (zpow_le_zpow.mpr hhi)

theorem mul (hx : Between s a b x) (hy : Between t c d y)
    (hlo : (model α).minExponent ≤ a + c)
    (hhi : b + d ≤ (model α).exponentBias) :
    Between (s * t) (a + c) (b + d) (x * y) :=
  (hx.rounded_mul hy hhi).between hlo (hx.mul_bounds hy).1 (hx.mul_bounds hy).2

theorem div_bounds (hx : Between s a b x) (hy : Between t c d y) :
    (2 : ℝ) ^ (a - d) ≤ signed (s / t) (toReal x / toReal y)
      ∧ signed (s / t) (toReal x / toReal y) ≤ (2 : ℝ) ^ (b - c) := by
  rw [signed_div, zpow_sub₀ two_ne_zero, zpow_sub₀ two_ne_zero]
  exact ⟨div_le_div₀ hx.pos.le hx.lower hy.pos hy.upper,
    div_le_div₀ (zpow_pos two_pos b).le hx.upper (zpow_pos two_pos c) hy.lower⟩

theorem rounded_div (hx : Between s a b x) (hy : Between t c d y)
    (hhi : b - c ≤ (model α).exponentBias) :
    Rounded (toReal x / toReal y) (x / y) := by
  have hy0 : toReal y ≠ 0 := abs_pos.mp (hy.abs_eq.trans_gt hy.pos)
  refine FloatingPoint.rounded_div hx.finite hy.finite hy0 ?_
  rw [abs_div, hx.abs_eq, hy.abs_eq, ← signed_div, ← zpow_natCast]
  exact (hx.div_bounds hy).2.trans (zpow_le_zpow.mpr hhi)

theorem div (hx : Between s a b x) (hy : Between t c d y)
    (hlo : (model α).minExponent ≤ a - d)
    (hhi : b - c ≤ (model α).exponentBias) :
    Between (s / t) (a - d) (b - c) (x / y) :=
  (hx.rounded_div hy hhi).between hlo (hx.div_bounds hy).1 (hx.div_bounds hy).2

theorem sqrt_bounds (hx : Between .positive a b x) (hc : 2 * c ≤ a)
    (hd : b ≤ 2 * d) :
    (2 : ℝ) ^ c ≤ √(toReal x) ∧ √(toReal x) ≤ (2 : ℝ) ^ d := by
  have hsq : ∀ k : ℤ, ((2 : ℝ) ^ k) ^ 2 = 2 ^ (2 * k) := fun k => by
    rw [← zpow_natCast, ← zpow_mul, mul_comm k]
    rfl
  constructor
  · apply Real.le_sqrt_of_sq_le
    rw [hsq]
    exact (zpow_le_zpow.mpr hc).trans hx.lower
  · rw [Real.sqrt_le_left (zpow_pos two_pos d).le, hsq]
    exact hx.upper.trans (zpow_le_zpow.mpr hd)

theorem rounded_sqrt (hx : Between .positive a b x) (hd : b ≤ 2 * d)
    (hhi : d ≤ (model α).exponentBias) :
    Rounded √(toReal x) (Scalar.sqrt x) := by
  refine FloatingPoint.rounded_sqrt hx.finite hx.toReal_pos.le ?_
  rw [← zpow_natCast]
  exact (hx.sqrt_bounds (c := a / 2) (by omega) hd).2.trans
    (zpow_le_zpow.mpr hhi)

theorem sqrt (hx : Between .positive a b x) (hc : 2 * c ≤ a) (hd : b ≤ 2 * d)
    (hlo : (model α).minExponent ≤ c) (hhi : d ≤ (model α).exponentBias) :
    Between .positive c d (Scalar.sqrt x) :=
  (hx.rounded_sqrt hd hhi).between hlo (hx.sqrt_bounds hc hd).1
    (hx.sqrt_bounds hc hd).2

theorem neg (hx : Between .positive a b x) (hlo : (model α).minExponent ≤ a)
    (hhi : b ≤ (model α).exponentBias) : Between .negative a b (-x) := by
  have hneg : signed .negative (-toReal x) = signed .positive (toReal x) :=
    neg_neg _
  refine (rounded_neg hx.finite ?_).between hlo (hx.lower.trans_eq hneg.symm)
    (hneg.trans_le hx.upper)
  rw [hx.abs_eq, ← zpow_natCast]
  exact hx.upper.trans (zpow_le_zpow.mpr hhi)

theorem abs (hx : Between s a b x) (hlo : (model α).minExponent ≤ a)
    (hhi : b ≤ (model α).exponentBias) :
    Between .positive a b (Scalar.abs x) := by
  have habs : signed .positive |toReal x| = signed s (toReal x) := hx.abs_eq
  refine (rounded_abs hx.finite ?_).between hlo (hx.lower.trans_eq habs.symm)
    (habs.trans_le hx.upper)
  rw [hx.abs_eq, ← zpow_natCast]
  exact hx.upper.trans (zpow_le_zpow.mpr hhi)

end Between

/-- One is two to the power of nothing. -/
theorem between_one : Between .positive 0 0 (1 : α) := by
  obtain ⟨hfin, hone⟩ := isFinite_one (α := α)
  exact ⟨hfin, by rw [zpow_zero, hone]; exact le_rfl,
    by rw [zpow_zero, hone]; exact le_rfl⟩

theorem between_ofNat {n q : ℕ} (hn : 1 ≤ n) (hle : n ≤ 2 ^ q)
    (hq : q < (model α).mantissaBits) :
    Between .positive 0 q (Scalar.ofNat n : α) := by
  obtain ⟨hfin, hvalue⟩ := isFinite_ofNat (α := α)
    (hle.trans_lt (Nat.pow_lt_pow_right one_lt_two hq))
  refine ⟨hfin, ?_, ?_⟩
  · show _ ≤ toReal _
    rw [hvalue, zpow_zero]
    exact_mod_cast hn
  · show toReal _ ≤ _
    rw [hvalue, zpow_natCast]
    exact_mod_cast hle

/-- Rounding at most doubles a number that is not tiny, and at most halves
it. -/
theorem Rounded.le_two_mul {y : ℝ} {x : α} (h : Rounded y x)
    (hy : (2 : ℝ) ^ (model α).minExponent ≤ y) :
    toReal x ≤ 2 * y ∧ y ≤ 2 * toReal x := by
  obtain ⟨i, hlow, hhigh⟩ :=
    exists_mem_Ico_zpow ((zpow_pos two_pos _).trans_le hy) (one_lt_two (α := ℝ))
  have hi : (model α).minExponent ≤ i := by
    have := (zpow_lt_zpow_iff_right₀ one_lt_two).mp (hy.trans_lt hhigh)
    omega
  have hle := h.faithful.le_of_le (grid_two_zpow hi) hlow
  have hge := h.faithful.ge_of_ge (grid_two_zpow (by omega)) hhigh.le
  rw [zpow_add_one₀ two_ne_zero] at hhigh hge
  constructor <;> linarith

/-! ## Multiples of a power of two -/

/-- `count * 2 ^ hi` and all smaller multiples are numbers of the format. -/
structure Representable (α : Type) [Scalar α] [FloatingPoint α] (hi : ℤ)
    (count : ℕ) : Prop where
  exponent : (model α).minExponent ≤ hi
  fits : count ≤ 2 ^ (model α).mantissaBits
  bounded : (count : ℝ) * 2 ^ hi ≤ 2 ^ (model α).exponentBias

theorem Representable.grid {hi : ℤ} {count : ℕ} (h : Representable α hi count) :
    Grid (model α) (count * (2 : ℝ) ^ hi) := grid_natCast_mul h.fits h.exponent

theorem Representable.mono {hi : ℤ} {count count' : ℕ}
    (h : Representable α hi count) (hle : count' ≤ count) :
    Representable α hi count' :=
  ⟨h.exponent, hle.trans h.fits, (mul_le_mul_of_nonneg_right
      (by exact_mod_cast hle) (zpow_pos two_pos hi).le).trans h.bounded⟩

theorem representable_of_le {hi : ℤ} {count q : ℕ}
    (hlo : (model α).minExponent ≤ hi) (hcount : count ≤ 2 ^ q)
    (hq : q ≤ (model α).mantissaBits) (hhi : hi + q ≤ (model α).exponentBias) :
    Representable α hi count where
  exponent := hlo
  fits := hcount.trans (Nat.pow_le_pow_right two_pos hq)
  bounded := by
    calc (count : ℝ) * 2 ^ hi ≤ 2 ^ q * 2 ^ hi :=
          mul_le_mul_of_nonneg_right (by exact_mod_cast hcount)
            (zpow_pos two_pos hi).le
      _ = 2 ^ (hi + q) := by rw [zpow_add₀ two_ne_zero, zpow_natCast, mul_comm]
      _ ≤ 2 ^ ((model α).exponentBias : ℤ) := zpow_le_zpow.mpr hhi
      _ = 2 ^ (model α).exponentBias := zpow_natCast 2 _

/-- A finite number with a magnitude of at most `count * 2 ^ hi`. -/
structure Within (hi : ℤ) (count : ℕ) (x : α) : Prop where
  finite : Scalar.isFinite x = true
  le : |toReal x| ≤ count * (2 : ℝ) ^ hi

/-- A finite number that is zero or at least `2 ^ lo`, and at most
`count * 2 ^ hi`: a sum of `count` terms from `2 ^ lo` to `2 ^ hi`, some of
which may be missing. -/
structure SumOf (lo hi : ℤ) (count : ℕ) (x : α) :
    Prop extends Within hi count x where
  atLeast : toReal x = 0 ∨ (2 : ℝ) ^ lo ≤ toReal x

variable {x y : α} {lo hi : ℤ} {m n : ℕ}

theorem Rounded.within {r : ℝ} (h : Rounded r x) (hrep : Representable α hi n)
    (hr : |r| ≤ n * (2 : ℝ) ^ hi) : Within hi n x :=
  ⟨h.finite, h.faithful.abs_value_le hrep.grid hr⟩

theorem Within.mono (h : Within hi m x) (hle : m ≤ n) : Within hi n x :=
  ⟨h.finite, h.le.trans (mul_le_mul_of_nonneg_right (by exact_mod_cast hle)
      (zpow_pos two_pos hi).le)⟩

/-- A bound by a multiple of a power, as a bound by a power. -/
theorem Within.of_count {q : ℕ} (h : Within hi n x) (hn : n ≤ 2 ^ q) :
    Within (hi + q) 1 x := by
  refine ⟨h.finite, h.le.trans ?_⟩
  rw [Nat.cast_one, one_mul, zpow_add₀ two_ne_zero, zpow_natCast, mul_comm]
  exact mul_le_mul_of_nonneg_left (by exact_mod_cast hn)
    (zpow_pos two_pos hi).le

theorem within_zero (hi : ℤ) (n : ℕ) : Within hi n (0 : α) := by
  obtain ⟨hfin, hzero⟩ := isFinite_zero (α := α)
  refine ⟨hfin, ?_⟩
  rw [hzero, abs_zero]
  exact mul_nonneg (Nat.cast_nonneg n) (zpow_pos two_pos hi).le

theorem sumOf_zero (lo hi : ℤ) (n : ℕ) : SumOf lo hi n (0 : α) :=
  ⟨within_zero hi n, .inl isFinite_zero.2⟩

theorem SumOf.nonneg (h : SumOf lo hi n x) : 0 ≤ toReal x := by
  rcases h.atLeast with h0 | hle
  · exact h0.ge
  · exact (zpow_pos two_pos lo).le.trans hle

theorem SumOf.mono (h : SumOf lo hi m x) (hle : m ≤ n) : SumOf lo hi n x :=
  ⟨h.toWithin.mono hle, h.atLeast⟩

theorem Between.sumOf (h : Between .positive lo hi x) : SumOf lo hi 1 x :=
  ⟨⟨h.finite, by rw [h.abs_eq, Nat.cast_one, one_mul]; exact h.upper⟩,
    .inr h.lower⟩

theorem Between.within {s : Sign} (h : Between s lo hi x) : Within hi 1 x :=
  ⟨h.finite, by rw [h.abs_eq, Nat.cast_one, one_mul]; exact h.upper⟩

theorem SumOf.between {q : ℕ} (h : SumOf lo hi n x) (hn : n ≤ 2 ^ q)
    (hpos : 0 < toReal x) :
    Between .positive lo (hi + q) x := by
  have hbound := h.toWithin.of_count hn
  refine ⟨h.finite, h.atLeast.resolve_left hpos.ne', ?_⟩
  have := hbound.le
  rwa [abs_of_pos hpos, Nat.cast_one, one_mul] at this

theorem Within.add (hx : Within hi m x) (hy : Within hi n y)
    (hrep : Representable α hi (m + n)) : Within hi (m + n) (x + y) := by
  have hsum : |toReal x + toReal y| ≤ (m + n : ℕ) * (2 : ℝ) ^ hi := by
    push_cast
    rw [add_mul]
    exact (abs_add_le _ _).trans (add_le_add hx.le hy.le)
  exact (rounded_add hx.finite hy.finite (hsum.trans hrep.bounded)).within
    hrep hsum

/-- A sum of numbers that are not negative is at least each of the two. -/
theorem SumOf.add (hx : SumOf lo hi m x) (hy : SumOf lo hi n y)
    (hrep : Representable α hi (m + n)) :
    SumOf lo hi (m + n) (x + y) ∧ toReal x ≤ toReal (x + y)
      ∧ toReal y ≤ toReal (x + y) := by
  have hwithin := hx.toWithin.add hy.toWithin hrep
  have hround := rounded_add hx.finite hy.finite (by
    refine le_trans ?_ hrep.bounded
    push_cast
    rw [add_mul]
    exact (abs_add_le _ _).trans (add_le_add hx.le hy.le))
  have hxle :=
    hround.faithful.le_of_le (grid_toReal x) (le_add_of_nonneg_right hy.nonneg)
  have hyle :=
    hround.faithful.le_of_le (grid_toReal y) (le_add_of_nonneg_left hx.nonneg)
  refine ⟨⟨hwithin, ?_⟩, hxle, hyle⟩
  rcases hx.atLeast with hx0 | hx1
  · rcases hy.atLeast with hy0 | hy1
    · left
      have hzero : toReal x + toReal y = 0 := by rw [hx0, hy0, add_zero]
      rw [hround.toReal_eq (hzero ▸ grid_zero _), hzero]
    · exact .inr (hy1.trans hyle)
  · exact .inr (hx1.trans hxle)

theorem SumOf.cases (h : SumOf lo hi 1 x) :
    (Scalar.isFinite x = true ∧ toReal x = 0) ∨ Between .positive lo hi x := by
  rcases h.atLeast with h0 | hle
  · exact .inl ⟨h.finite, h0⟩
  · refine .inr ⟨h.finite, hle, ?_⟩
    have := h.le
    rwa [abs_of_nonneg h.nonneg, Nat.cast_one, one_mul] at this

theorem SumOf.of_count {q : ℕ} (h : SumOf lo hi n x) (hn : n ≤ 2 ^ q) :
    SumOf lo (hi + q) 1 x :=
  ⟨h.toWithin.of_count hn, h.atLeast⟩

theorem SumOf.widen {lo' hi' : ℤ} (h : SumOf lo hi 1 x) (hlo : lo' ≤ lo)
    (hhi : hi ≤ hi') :
    SumOf lo' hi' 1 x := by
  refine ⟨⟨h.finite, h.le.trans ?_⟩,
    h.atLeast.imp_right (zpow_le_zpow.mpr hlo).trans⟩
  exact mul_le_mul_of_nonneg_left (zpow_le_zpow.mpr hhi) (Nat.cast_nonneg 1)

theorem Within.widen {hi' : ℤ} (h : Within hi 1 x) (hhi : hi ≤ hi') :
    Within hi' 1 x :=
  ⟨h.finite, h.le.trans
    (mul_le_mul_of_nonneg_left (zpow_le_zpow.mpr hhi) (Nat.cast_nonneg 1))⟩

/-- A number that is not negative is zero or at least the smallest power of
two. -/
theorem Within.sumOf (h : Within hi n x) (h0 : 0 ≤ toReal x) :
    SumOf (model α).minExponent hi n x := ⟨h, (grid_toReal x).eq_zero_or_le h0⟩

/-- Zero is a sum without terms. -/
theorem sumOf_of_zero (lo hi : ℤ) (hx : Scalar.isFinite x = true)
    (h0 : toReal x = 0) :
    SumOf lo hi 1 x := by
  refine ⟨⟨hx, ?_⟩, .inl h0⟩
  rw [h0, abs_zero]
  exact mul_nonneg (Nat.cast_nonneg 1) (zpow_pos two_pos hi).le

theorem sumOf_of_rounded {lo hi : ℤ} {y : ℝ} (hy : y = 0) (hx : Rounded y x) :
    SumOf lo hi 1 x := by
  subst hy
  exact sumOf_of_zero lo hi hx.of_zero.1 hx.of_zero.2

section Multiplication

variable {a b c d : ℤ}

theorem rounded_mul_zero (hx : Scalar.isFinite x = true)
    (hy : Scalar.isFinite y = true) (h : toReal x = 0 ∨ toReal y = 0) :
    Scalar.isFinite (x * y) = true ∧ toReal (x * y) = 0 := by
  have hzero : toReal x * toReal y = 0 := mul_eq_zero.mpr h
  have hround := rounded_mul hx hy (by rw [hzero, abs_zero]; positivity)
  rw [hzero] at hround
  exact hround.of_zero

theorem representable_one (hlo : (model α).minExponent ≤ b)
    (hhi : b ≤ (model α).exponentBias) : Representable α b 1 :=
  representable_of_le (q := 0) hlo le_rfl (Nat.zero_le _) (by simpa using hhi)

theorem Within.abs_mul_le (hx : Within b 1 x) (hy : Within d 1 y) :
    |toReal x * toReal y| ≤ (1 : ℕ) * (2 : ℝ) ^ (b + d) := by
  have hxle := hx.le
  have hyle := hy.le
  rw [Nat.cast_one, one_mul] at hxle hyle ⊢
  rw [abs_mul, zpow_add₀ two_ne_zero]
  exact mul_le_mul hxle hyle (abs_nonneg _) (zpow_pos two_pos b).le

theorem Within.rounded_mul (hx : Within b 1 x) (hy : Within d 1 y)
    (hlo : (model α).minExponent ≤ b + d)
    (hhi : b + d ≤ (model α).exponentBias) :
    Rounded (toReal x * toReal y) (x * y) :=
  FloatingPoint.rounded_mul hx.finite hy.finite
    ((hx.abs_mul_le hy).trans (representable_one hlo hhi).bounded)

theorem Within.mul (hx : Within b 1 x) (hy : Within d 1 y)
    (hlo : (model α).minExponent ≤ b + d)
    (hhi : b + d ≤ (model α).exponentBias) :
    Within (b + d) 1 (x * y) :=
  (hx.rounded_mul hy hlo hhi).within (representable_one hlo hhi)
    (hx.abs_mul_le hy)

theorem SumOf.mul (hx : SumOf a b 1 x) (hy : SumOf c d 1 y)
    (hlo : (model α).minExponent ≤ a + c)
    (hhi : b + d ≤ (model α).exponentBias) :
    SumOf (a + c) (b + d) 1 (x * y) := by
  rcases hx.cases with ⟨-, hx0⟩ | hx1
  · obtain ⟨hfin, h0⟩ := rounded_mul_zero hx.finite hy.finite (.inl hx0)
    exact sumOf_of_zero _ _ hfin h0
  · rcases hy.cases with ⟨-, hy0⟩ | hy1
    · obtain ⟨hfin, h0⟩ := rounded_mul_zero hx.finite hy.finite (.inr hy0)
      exact sumOf_of_zero _ _ hfin h0
    · exact (hx1.mul hy1 hlo hhi).sumOf

theorem SumOf.div (hx : SumOf a b 1 x) (hy : Between .positive c d y)
    (hlo : (model α).minExponent ≤ a - d)
    (hhi : b - c ≤ (model α).exponentBias) :
    SumOf (a - d) (b - c) 1 (x / y) := by
  rcases hx.cases with ⟨-, hx0⟩ | hx1
  · have hzero : toReal x / toReal y = 0 := by rw [hx0, zero_div]
    exact sumOf_of_rounded hzero (rounded_div hx.finite hy.finite
      hy.toReal_pos.ne' (by rw [hzero, abs_zero]; positivity))
  · exact (hx1.div hy hlo hhi).sumOf

theorem SumOf.sqrt (hx : SumOf a b 1 x) (hc : 2 * c ≤ a) (hd : b ≤ 2 * d)
    (hlo : (model α).minExponent ≤ c) (hhi : d ≤ (model α).exponentBias) :
    SumOf c d 1 (Scalar.sqrt x) := by
  rcases hx.cases with ⟨-, hx0⟩ | hx1
  · have hzero : √(toReal x) = 0 := by rw [hx0, Real.sqrt_zero]
    exact sumOf_of_rounded hzero
      (rounded_sqrt hx.finite hx0.ge (by rw [hzero]; positivity))
  · exact (hx1.sqrt hc hd hlo hhi).sumOf

/-- The reciprocal of a number that is at least `2 ^ c`. -/
theorem within_recip (hx : Scalar.isFinite x = true)
    (hc : (2 : ℝ) ^ c ≤ toReal x) (hlo : (model α).minExponent ≤ -c)
    (hhi : -c ≤ (model α).exponentBias) :
    Within (-c) 1 (Scalar.recip x) := by
  obtain ⟨hone, hone'⟩ := isFinite_one (α := α)
  have hpos : 0 < toReal x := (zpow_pos two_pos c).trans_le hc
  have hrep : Representable α (-c) 1 := representable_one hlo hhi
  have hquot : |toReal (1 : α) / toReal x| ≤ (1 : ℕ) * (2 : ℝ) ^ (-c) := by
    rw [hone', Nat.cast_one, one_mul, abs_of_pos (one_div_pos.mpr hpos),
      zpow_neg, ← one_div]
    exact one_div_le_one_div_of_le (zpow_pos two_pos c) hc
  exact (rounded_div hone hx hpos.ne' (hquot.trans hrep.bounded)).within
    hrep hquot

end Multiplication

/-! ## Sums of terms -/

theorem within_foldl {l : List α} (hl : ∀ t ∈ l, Within hi 1 t) {acc : α}
    (hacc : Within hi m acc) (hrep : Representable α hi (m + l.length)) :
    Within hi (m + l.length) (l.foldl (· + ·) acc) := by
  induction l generalizing acc m with
  | nil => exact hacc
  | cons t l ih =>
    have hlen : m + (t :: l).length = m + 1 + l.length := by
      rw [List.length_cons]
      omega
    rw [hlen] at hrep ⊢
    exact ih (fun u hu => hl u (List.mem_cons_of_mem t hu))
      (hacc.add (hl t List.mem_cons_self) (hrep.mono (Nat.le_add_right _ _)))
      hrep

theorem sumOf_foldl {l : List α} (hl : ∀ t ∈ l, SumOf lo hi 1 t) {acc : α}
    (hacc : SumOf lo hi m acc) (hrep : Representable α hi (m + l.length)) :
    SumOf lo hi (m + l.length) (l.foldl (· + ·) acc)
      ∧ toReal acc ≤ toReal (l.foldl (· + ·) acc)
      ∧ ∀ t ∈ l, toReal t ≤ toReal (l.foldl (· + ·) acc) := by
  induction l generalizing acc m with
  | nil => exact ⟨hacc, le_rfl, nofun⟩
  | cons t l ih =>
    have hlen : m + (t :: l).length = m + 1 + l.length := by
      rw [List.length_cons]
      omega
    rw [hlen] at hrep ⊢
    obtain ⟨hsum, haccle, htle⟩ := hacc.add (hl t List.mem_cons_self)
      (hrep.mono (Nat.le_add_right _ _))
    obtain ⟨htotal, hle, hterms⟩ :=
      ih (fun u hu => hl u (List.mem_cons_of_mem t hu)) hsum hrep
    refine ⟨htotal, haccle.trans hle, ?_⟩
    intro u hu
    rcases List.mem_cons.mp hu with rfl | hu
    · exact htle.trans hle
    · exact hterms u hu

/-- Adding up pairwise, the same bounds hold. -/
theorem sumOf_pairwiseSum (l : List α) (hl : ∀ t ∈ l, SumOf lo hi 1 t)
    (hrep : Representable α hi l.length) :
    SumOf lo hi l.length (Vec.pairwiseSum l) ∧ ∀ t ∈ l,
      toReal t ≤ toReal (Vec.pairwiseSum l) := by
  fun_induction Vec.pairwiseSum l with
  | case1 l h =>
    have hfold := sumOf_foldl hl (sumOf_zero lo hi 0) (by rwa [Nat.zero_add])
    rw [Nat.zero_add] at hfold
    exact ⟨hfold.1, hfold.2.2⟩
  | case2 l h ih₁ ih₂ =>
    have hlen : (l.take (l.length / 2)).length + (l.drop (l.length / 2)).length
        = l.length := by
      rw [← List.length_append, List.take_append_drop]
    obtain ⟨hfirst, hle₁⟩ := ih₁ (fun t ht => hl t (List.mem_of_mem_take ht))
      (hrep.mono (by omega))
    obtain ⟨hsecond, hle₂⟩ := ih₂ (fun t ht => hl t (List.mem_of_mem_drop ht))
      (hrep.mono (by omega))
    obtain ⟨hsum, hfirstle, hsecondle⟩ := hfirst.add hsecond (by rwa [hlen])
    rw [hlen] at hsum
    refine ⟨hsum, ?_⟩
    intro t ht
    rw [← List.take_append_drop (l.length / 2) l, List.mem_append] at ht
    rcases ht with ht | ht
    · exact (hle₁ t ht).trans hfirstle
    · exact (hle₂ t ht).trans hsecondle

end FloatingPoint

end Equilibration
