import Equilibration.Proofs.SignedResults

/-!
# RangeEnds — results at the ends of the exponent range

Packing keeps every rounded number below the first power of two that is out of
range, and makes an infinity of every larger one
(`Rounds.unpack_pack_of_lt`, `Rounds.unpack_pack_of_le`). At the other end a
product below half of the smallest number is zero (`mul_eq_zero_of_lt`). So
the square of a number is a rounding of the exact square, infinite or zero,
and which of them depends on the exact square alone.
-/

namespace Equilibration

open Float.Model Float.Model.UnpackedFloat

namespace Rounding

variable {F : Format} {u : UnpackedFloat} {y : ℝ}

theorem abs_value_finite (s : Sign) {m : ℕ} (e : ℤ) (hm : 0 < m) :
    |value (.finite s m e hm)| = m * (2 : ℝ) ^ e := by
  rw [value_finite]
  cases s
  · exact (abs_neg _).trans (abs_of_pos (magnitude_pos hm e))
  · exact abs_of_pos (magnitude_pos hm e)

/-- The powers of two around a full significand. -/
theorem two_zpow_mantissaBits (F : Format) (e : ℤ) :
    (2 : ℝ) ^ (F.mantissaBits + e : ℤ)
      = ((2 ^ F.mantissaBits : ℕ) : ℝ) * 2 ^ e := by
  rw [zpow_add₀ two_ne_zero, zpow_natCast, Nat.cast_pow, Nat.cast_two]

/-- The largest number of the format below `2 ^ k`, if the exponent of its
unit is not too small. -/
noncomputable def largestBelow (F : Format) (k : ℤ) : ℝ :=
  ((2 ^ F.mantissaBits - 1 : ℕ) : ℝ) * ((2 : ℕ) : ℝ) ^ (k - F.mantissaBits)

theorem largestBelow_eq_mul (F : Format) (k : ℤ) :
    largestBelow F k
      = ((2 ^ F.mantissaBits - 1 : ℕ) : ℝ) * 2 ^ (k - F.mantissaBits) := by
  rw [largestBelow, Nat.cast_two]

theorem largestBelow_eq (F : Format) (k : ℤ) :
    largestBelow F k = 2 ^ k - 2 ^ (k - F.mantissaBits) := by
  have hsplit := two_zpow_mantissaBits F (k - F.mantissaBits)
  rw [add_sub_cancel] at hsplit
  rw [largestBelow_eq_mul, hsplit, Nat.cast_sub Nat.one_le_two_pow]
  push_cast
  ring

theorem largestBelow_lt (F : Format) (k : ℤ) : largestBelow F k < 2 ^ k := by
  rw [largestBelow_eq]
  exact sub_lt_self _ (zpow_pos two_pos _)

theorem largestBelow_nonneg (F : Format) (k : ℤ) : 0 ≤ largestBelow F k := by
  unfold largestBelow
  positivity

theorem grid_largestBelow {k : ℤ} (hk : F.minExponent + F.mantissaBits ≤ k) :
    Grid F (largestBelow F k) := by
  rw [largestBelow_eq_mul]
  exact grid_natCast_mul (Nat.sub_le _ _) (by omega)

theorem Grid.le_largestBelow {g : ℝ} (hg : Grid F g) {k : ℤ} (hlt : g < 2 ^ k) :
    g ≤ largestBelow F k := by
  have hfull : 2 ^ F.mantissaBitsWithoutImplicit ≤ 2 ^ F.mantissaBits - 1 := by
    have := Nat.two_pow_pos F.mantissaBitsWithoutImplicit
    rw [mantissaBits_eq, pow_succ]
    omega
  refine (hg.not_between (t := k - F.mantissaBits) (.inl hfull)).resolve_right
    fun hle => ?_
  rw [add_one_mul, ← largestBelow_eq_mul, largestBelow_eq, sub_add_cancel]
    at hle
  exact hle.not_gt hlt

/-- The square of the largest number below a power is below the largest one
below its square. -/
theorem largestBelow_sq_le (k : ℤ) :
    largestBelow F k ^ 2 ≤ largestBelow F (2 * k) := by
  have hle : largestBelow F k * 2 ^ k = largestBelow F (2 * k) := by
    rw [largestBelow_eq_mul, largestBelow_eq_mul, mul_assoc,
      ← zpow_add₀ two_ne_zero]
    congr 2
    ring
  rw [sq, ← hle]
  exact mul_le_mul_of_nonneg_left (largestBelow_lt F k).le
    (largestBelow_nonneg F k)

/-! ## The upper end -/

/-- What is below the first power of two that is out of range can be stored. -/
theorem Rounds.unpack_pack_of_lt (h : Rounds F y u)
    (hbias : F.mantissaBits ≤ F.exponentBias)
    (hu : |value u| < 2 ^ (F.exponentBias + 1)) :
    UnpackedFloat.unpack F (UnpackedFloat.pack F u) = u := by
  obtain ⟨s, rfl⟩ | ⟨s, m, e, hm, rfl⟩ := finite_cases h.finite
  · exact unpack_pack_zero s
  · refine unpack_pack_finite s hm h.canonical ?_
    obtain ⟨-, -, hfull⟩ := h.canonical
    have hbits := mantissaBits_eq F
    rcases hfull with hfull | rfl
    · -- a full significand bounds the exponent
      have hlt : (2 : ℝ) ^ (F.mantissaBitsWithoutImplicit + e : ℤ)
          < (2 : ℝ) ^ ((F.exponentBias + 1 : ℕ) : ℤ) := by
        rw [abs_value_finite] at hu
        rw [zpow_add₀ two_ne_zero, zpow_natCast, zpow_natCast]
        refine lt_of_le_of_lt ?_ hu
        exact mul_le_mul_of_nonneg_right (by exact_mod_cast hfull)
          (zpow_pos two_pos e).le
      have := (zpow_lt_zpow_iff_right₀ one_lt_two).mp hlt
      push_cast at this
      omega
    · have := minExponent_eq F
      omega

/-- What is not below it is stored as infinity. -/
theorem Rounds.unpack_pack_of_le (h : Rounds F y u)
    (hy : (2 : ℝ) ^ (F.exponentBias + 1) ≤ y) :
    UnpackedFloat.unpack F (UnpackedFloat.pack F u) = .infinity .positive := by
  have hgrid : Grid F ((2 : ℝ) ^ (F.exponentBias + 1)) := by
    have := grid_two_zpow (F := F) (b := (F.exponentBias + 1 : ℕ))
      (by have := minExponent_nonpos F; omega)
    rwa [zpow_natCast] at this
  have hle := h.faithful.le_of_le hgrid hy
  have hpos : 0 < value u :=
    (by positivity : (0 : ℝ) < 2 ^ (F.exponentBias + 1)).trans_le hle
  obtain ⟨s, rfl⟩ | ⟨s, m, e, hm, rfl⟩ := finite_cases h.finite
  · exact absurd hpos (by simp)
  · obtain ⟨hfits, -, -⟩ := h.canonical
    rw [← abs_of_pos hpos, abs_value_finite] at hle
    obtain rfl : s = .positive := by
      cases s
      · exact absurd hpos (not_lt.mpr (neg_nonpos.mpr (magnitude_pos hm e).le))
      · rfl
    -- a significand that fits bounds the exponent from below
    have hlt : (2 : ℝ) ^ ((F.exponentBias + 1 : ℕ) : ℤ)
        < 2 ^ (F.mantissaBits + e : ℤ) := by
      rw [two_zpow_mantissaBits, zpow_natCast]
      refine hle.trans_lt (mul_lt_mul_of_pos_right ?_ (zpow_pos two_pos e))
      exact_mod_cast hfits
    have hexponent := (zpow_lt_zpow_iff_right₀ one_lt_two).mp hlt
    have hcap := two_pow_exponentBits F
    have hbits := mantissaBits_eq F
    have hlarge : 2 ^ F.exponentBits
        ≤ (e + F.exponentBias + F.mantissaBitsWithoutImplicit).toNat + 1 := by
      push_cast at hexponent
      omega
    have hpack : UnpackedFloat.pack F (.finite .positive m e hm)
        = UnpackedFloat.pack F (.infinity .positive) := by
      unfold UnpackedFloat.pack
      dsimp only
      rw [if_pos hlarge]
    rw [hpack, unpack_pack_infinity]

/-- Everything that is stored is below it. -/
theorem abs_value_unpack_lt (hbias : F.mantissaBits ≤ F.exponentBias)
    (b : BitVec F.numBits) :
    |value (UnpackedFloat.unpack F b)| < 2 ^ (F.exponentBias + 1) := by
  have hzero : |(0 : ℝ)| < 2 ^ (F.exponentBias + 1) := by
    rw [abs_zero]
    positivity
  rcases hu : UnpackedFloat.unpack F b with s | - | s | ⟨s, m, e, hm⟩
  · exact hzero
  · exact hzero
  · exact hzero
  · have hdecode := decode_toNat b
    rw [hu] at hdecode
    obtain ⟨hfits, hunit, -, hbounded⟩ :=
      (Binary.Format.eq_patternOf_of_decode (toNat_lt b)
        (one_lt_exponentLimit hbias) hdecode).1
    rw [two_mul_binade_patterns] at hfits
    rw [unitExponent_patterns] at hunit hbounded
    have hlimit : (e - F.minExponent).toNat + 1 < 2 ^ F.exponentBits - 1 :=
      hbounded
    have hcap := two_pow_exponentBits F
    have hmin := minExponent_eq F
    rw [abs_value_finite]
    calc (m : ℝ) * 2 ^ e < 2 ^ (F.mantissaBits + e : ℤ) := by
          rw [two_zpow_mantissaBits]
          exact mul_lt_mul_of_pos_right (by exact_mod_cast hfits)
            (zpow_pos two_pos e)
      _ ≤ (2 : ℝ) ^ ((F.exponentBias + 1 : ℕ) : ℤ) := by
          refine zpow_le_zpow_right₀ one_le_two ?_
          push_cast
          omega
      _ = 2 ^ (F.exponentBias + 1) := zpow_natCast _ _

/-! ## The lower end -/

/-- A product below half of the smallest number is zero. -/
theorem mul_eq_zero_of_lt {s t : Sign} {m n : ℕ} {e f : ℤ} {hm : 0 < m}
    {hn : 0 < n} (hcm : Canonical F (.finite s m e hm))
    (hcn : Canonical F (.finite t n f hn))
    (hlt : m * (2 : ℝ) ^ e * (n * (2 : ℝ) ^ f) < 2 ^ (F.minExponent - 1)) :
    UnpackedFloat.mul F (.finite s m e hm) (.finite t n f hn)
      = .zero (s * t) := by
  have hexact :
      m * (2 : ℝ) ^ e * (n * (2 : ℝ) ^ f) = (m * n : ℕ) * 2 ^ (e + f) := by
    rw [zpow_add₀ two_ne_zero]
    push_cast
    ring
  rw [hexact] at hlt
  have hk := mul_exponent_le hcm hcn
  generalize ht : F.targetExponent (totalExponent (m * n) (e + f)) = k at hk
  -- the product is so small that its unit is the smallest one
  have hunit : k = F.minExponent := by
    have hlow :
        (2 : ℝ) ^ ((m * n).log2 + (e + f) : ℤ) < 2 ^ (F.minExponent - 1) := by
      rw [zpow_add₀ two_ne_zero, zpow_natCast]
      refine lt_of_le_of_lt ?_ hlt
      exact mul_le_mul_of_nonneg_right
        (by exact_mod_cast Nat.log2_self_le (Nat.mul_pos hm hn).ne')
        (zpow_pos two_pos _).le
    have := (zpow_lt_zpow_iff_right₀ one_lt_two).mp hlow
    have := mantissaBits_eq F
    rw [targetExponent_eq] at ht
    omega
  have hnearest : Nearest ((m * n : ℕ) * (2 : ℝ) ^ (e + f) / 2 ^ k)
      (ExtendedMantissa.ofMantissaAndAccuracy (m * n) .exact
        >>> (k - (e + f)).toNat ).roundedMantissa := by
    have h := ((locates_exact (m * n)).shiftRight (k - (e + f)).toNat).nearest
    have hshift : ((k - (e + f)).toNat : ℤ) = k - (e + f) := by omega
    rwa [← zpow_natCast, hshift, zpow_sub₀ two_ne_zero, div_div_eq_mul_div] at h
  have hbelow : (m * n : ℕ) * (2 : ℝ) ^ (e + f) / 2 ^ k < 1 / 2 := by
    rw [div_lt_iff₀ (zpow_pos two_pos k), hunit]
    rwa [zpow_sub_one₀ two_ne_zero, mul_comm (2 ^ _), ← one_div] at hlt
  have hzero : Nearest ((m * n : ℕ) * (2 : ℝ) ^ (e + f) / 2 ^ k) 0 := by
    refine ⟨?_, fun _ => rfl⟩
    rw [Nat.cast_zero, sub_zero, abs_of_nonneg (by positivity)]
    exact hbelow.le
  have hrounded := hnearest.unique hzero
  show roundWithAccuracy F (s * t) (m * n) (e + f) .exact = _
  rw [roundWithAccuracy_eq ht.symm hk hrounded (Nat.zero_le _), ofRounded,
    dif_pos rfl]

end Rounding

/-! ## Scalars -/

open Rounding

namespace FloatingPoint

variable {α : Type} [Scalar α] [FloatingPoint α] {x : α}

theorem abs_toReal_lt (x : α) : |toReal x| < 2 ^ ((model α).exponentBias + 1) :=
  abs_value_unpack_lt mantissaBits_le (bits x)

/-- A finite number that is not negative and not zero is at least the smallest
number of the format. -/
theorem two_zpow_le_toReal (h : 0 < toReal x) :
    (2 : ℝ) ^ (model α).minExponent ≤ toReal x :=
  ((grid_toReal x).eq_zero_or_le h.le).resolve_left h.ne'

/-! ### Squares -/

/-- The first power of two that is out of range is a square. -/
theorem exists_square_end (α : Type) [Scalar α] [FloatingPoint α] :
    ∃ k : ℕ, (model α).exponentBias + 1 = 2 * k := by
  have hcap := two_pow_exponentBits (model α)
  have hpos := exponentBias_pos α
  obtain ⟨n, hn⟩ : ∃ n, (model α).exponentBits = n + 2 := by
    refine Nat.exists_eq_add_of_le' ?_
    by_contra hsmall
    have :=
      Nat.pow_le_pow_right two_pos (show (model α).exponentBits ≤ 1 by omega)
    omega
  refine ⟨2 ^ n, ?_⟩
  rw [hn, pow_add] at hcap
  omega

theorem rounds_square (hfin : Scalar.isFinite x = true) :
    Rounds (model α) (toReal x ^ 2)
      (.mul (model α) (unpacked x) (unpacked x)) := by
  rw [sq]
  have h := (isFinite_unpacked x).trans hfin
  exact rounds_mul h h (canonical_unpacked x) (canonical_unpacked x)

/-- No number of the format has a square that rounding would take out of
range. -/
theorem rounded_square (hfin : Scalar.isFinite x = true)
    (hlt : toReal x ^ 2 < 2 ^ ((model α).exponentBias + 1)) :
    Rounded (toReal x ^ 2) (x * x) := by
  have hrounds := rounds_square hfin
  obtain ⟨k, hk⟩ := exists_square_end α
  have hbias := mantissaBits_le (α := α)
  have hmin := minExponent_le (model α)
  have hgrid : Grid (model α) |toReal x| := by
    rcases abs_choice (toReal x) with h | h <;> rw [h]
    · exact grid_toReal x
    · exact (grid_toReal x).neg
  have hroot : |toReal x| ≤ largestBelow (model α) k := by
    refine hgrid.le_largestBelow (lt_of_pow_lt_pow_left₀ 2 (by positivity) ?_)
    rwa [sq_abs, zpow_natCast, ← pow_mul, mul_comm, ← hk]
  have hsquare : |toReal x ^ 2| ≤ largestBelow (model α) (2 * k) := by
    rw [abs_of_nonneg (sq_nonneg _), ← sq_abs]
    exact (pow_le_pow_left₀ (abs_nonneg _) hroot 2).trans (largestBelow_sq_le k)
  have hvalue :=
    hrounds.faithful.abs_value_le (grid_largestBelow (by omega)) hsquare
  have hunpacked :
      unpacked (x * x) = .mul (model α) (unpacked x) (unpacked x) := by
    rw [unpacked_mul]
    refine hrounds.unpack_pack_of_lt mantissaBits_le (hvalue.trans_lt ?_)
    have hcast : (2 * k : ℤ) = ((model α).exponentBias + 1 : ℕ) := by
      exact_mod_cast hk.symm
    rw [hcast, ← zpow_natCast]
    exact largestBelow_lt _ _
  refine ⟨?_, ?_⟩
  · rw [← isFinite_unpacked, hunpacked]
    exact hrounds.finite
  · show Faithful (model α) _ (value (unpacked (x * x)))
    rw [hunpacked]
    exact hrounds.faithful

theorem unpacked_square_of_large (hfin : Scalar.isFinite x = true)
    (hle : 2 ^ ((model α).exponentBias + 1) ≤ toReal x ^ 2) :
    unpacked (x * x) = .infinity .positive := by
  rw [unpacked_mul]
  exact (rounds_square hfin).unpack_pack_of_le hle

theorem unpacked_square_of_small (hfin : Scalar.isFinite x = true)
    (hlt : toReal x ^ 2 < 2 ^ ((model α).minExponent - 1)) :
    unpacked (x * x) = .zero .positive := by
  have hcanonical := canonical_unpacked x
  rw [unpacked_mul]
  rw [← isFinite_unpacked] at hfin
  rw [toReal] at hlt
  obtain ⟨s, hx⟩ | ⟨s, m, e, hm, hx⟩ := finite_cases hfin
  · rw [hx]
    have hsign : s * s = .positive := by cases s <;> rfl
    show packed α (.zero (s * s)) = _
    rw [hsign, packed_zero]
  · have hsign : s * s = .positive := by cases s <;> rfl
    rw [hx] at hcanonical hlt ⊢
    rw [← sq_abs, abs_value_finite, sq] at hlt
    rw [mul_eq_zero_of_lt hcanonical hcanonical hlt, hsign, packed_zero]

end FloatingPoint

end Equilibration
