import Mathlib

/-!
# Rounding — what the unpacked arithmetic computes
-/

namespace Equilibration.Rounding

open Float.Model Float.Model.UnpackedFloat

variable {F : Format}

/-! ## The numbers of a format -/

/-- The numbers of a format, as if there were no largest one: a significand
that fits, times a power of two that is not too small. -/
def Grid (F : Format) (g : ℝ) : Prop :=
  ∃ k b : ℤ, |k| ≤ 2 ^ F.mantissaBits ∧ F.minExponent ≤ b ∧ g = k * (2 : ℝ) ^ b

/-- `r` is a faithful rounding of `y`: no number of the format separates the
two, and a number of the format is its own rounding. -/
structure Faithful (F : Format) (y r : ℝ) : Prop where
  le_of_le {g : ℝ} : Grid F g → g ≤ y → g ≤ r
  ge_of_ge {g : ℝ} : Grid F g → y ≤ g → r ≤ g

theorem Grid.neg {g : ℝ} (h : Grid F g) : Grid F (-g) := by
  obtain ⟨k, b, hk, hb, rfl⟩ := h
  exact ⟨-k, b, by rwa [abs_neg], hb, by push_cast; ring⟩

/-- Small multiples of a power of two are numbers of the format. -/
theorem grid_natCast_mul {n : ℕ} {b : ℤ} (hn : n ≤ 2 ^ F.mantissaBits)
    (hb : F.minExponent ≤ b) :
    Grid F (n * (2 : ℝ) ^ b) :=
  ⟨n, b, by rw [abs_of_nonneg (Int.natCast_nonneg n)]; exact_mod_cast hn, hb,
    by push_cast; rfl⟩

theorem grid_two_zpow {b : ℤ} (hb : F.minExponent ≤ b) :
    Grid F ((2 : ℝ) ^ b) := by
  simpa using grid_natCast_mul (n := 1) Nat.one_le_two_pow hb

theorem grid_zero (F : Format) : Grid F 0 := by
  simpa using grid_natCast_mul (n := 0) (Nat.zero_le _) (le_refl F.minExponent)

/-- A positive number of the format is at least the smallest power of two. -/
theorem Grid.eq_zero_or_le {g : ℝ} (h : Grid F g) (hg : 0 ≤ g) :
    g = 0 ∨ (2 : ℝ) ^ F.minExponent ≤ g := by
  obtain ⟨k, b, -, hb, rfl⟩ := h
  have hb0 : (0 : ℝ) < 2 ^ b := zpow_pos two_pos b
  have hk : 0 ≤ k := by exact_mod_cast nonneg_of_mul_nonneg_left hg hb0
  rcases hk.eq_or_lt with rfl | hk
  · exact .inl (by rw [Int.cast_zero, zero_mul])
  · right
    have hone : (1 : ℝ) ≤ k := by exact_mod_cast hk
    exact (zpow_le_zpow_right₀ one_le_two hb).trans
      (le_mul_of_one_le_left hb0.le hone)

theorem Faithful.refl (y : ℝ) : Faithful F y y := ⟨fun _ h => h, fun _ h => h⟩

theorem Faithful.neg {y r : ℝ} (h : Faithful F y r) : Faithful F (-y) (-r) where
  le_of_le hg hle := le_neg_of_le_neg (h.ge_of_ge hg.neg (le_neg_of_le_neg hle))
  ge_of_ge hg hle := neg_le_of_neg_le (h.le_of_le hg.neg (neg_le_of_neg_le hle))

/-- A bound of the format for a magnitude survives rounding. -/
theorem Faithful.abs_value_le {y r g : ℝ} (h : Faithful F y r) (hg : Grid F g)
    (hy : |y| ≤ g) :
    |r| ≤ g :=
  abs_le.mpr ⟨h.le_of_le hg.neg (abs_le.mp hy).1,
    h.ge_of_ge hg (abs_le.mp hy).2⟩

/-- A number of the format is its own rounding. -/
theorem Faithful.eq_of_grid {y r : ℝ} (h : Faithful F y r) (hy : Grid F y) :
    r = y :=
  le_antisymm (h.ge_of_ge hy le_rfl) (h.le_of_le hy le_rfl)

/-- Between two neighbouring multiples of a power of two there is no number
of the format, if the lower one has a full significand or the power is the
smallest. -/
theorem Grid.not_between {g : ℝ} (hg : Grid F g) {M : ℕ} {t : ℤ}
    (hM : 2 ^ F.mantissaBitsWithoutImplicit ≤ M ∨ t = F.minExponent) :
    g ≤ M * (2 : ℝ) ^ t ∨ (M + 1) * (2 : ℝ) ^ t ≤ g := by
  obtain ⟨k, b, hk, hb, rfl⟩ := hg
  have htpos : (0 : ℝ) < 2 ^ t := zpow_pos two_pos t
  rcases le_or_gt t b with htb | hbt
  · -- a multiple of the same power
    obtain ⟨n, rfl⟩ := Int.le.dest htb
    have hscaled :
        (k : ℝ) * 2 ^ (t + n : ℤ) = ((k * 2 ^ n : ℤ) : ℝ) * 2 ^ t := by
      rw [zpow_add₀ two_ne_zero, zpow_natCast]
      push_cast
      ring
    rw [hscaled]
    rcases le_or_gt (k * 2 ^ n) (M : ℤ) with hle | hgt
    · left
      exact mul_le_mul_of_nonneg_right (by exact_mod_cast hle) htpos.le
    · right
      exact mul_le_mul_of_nonneg_right (by exact_mod_cast hgt) htpos.le
  · -- a finer power, so the number is too small to be above
    left
    have hM' : 2 ^ F.mantissaBitsWithoutImplicit ≤ M :=
      hM.resolve_right (by omega)
    have hkR : (k : ℝ) ≤ 2 ^ F.mantissaBits := by
      exact_mod_cast (le_abs_self k).trans hk
    calc (k : ℝ) * 2 ^ b ≤ 2 ^ F.mantissaBits * 2 ^ (t - 1) := by
          apply mul_le_mul hkR _ (zpow_pos two_pos b).le (by positivity)
          exact zpow_le_zpow_right₀ one_le_two (by omega)
      _ = 2 ^ F.mantissaBitsWithoutImplicit * 2 ^ t := by
          rw [Format.mantissaBits, pow_add, zpow_sub_one₀ two_ne_zero]
          ring
      _ ≤ M * 2 ^ t :=
          mul_le_mul_of_nonneg_right (by exact_mod_cast hM') htpos.le

/-! ## Values -/

/-- A magnitude with a sign. -/
def signed (s : Sign) (y : ℝ) : ℝ :=
  match s with
  | .negative => -y
  | .positive => y

/-- The number that a finite float stands for. -/
noncomputable def value : UnpackedFloat → ℝ
  | .finite s m e _ => signed s (m * (2 : ℝ) ^ e)
  | _ => 0

/-- The significand fits, and it is full unless the exponent is the
smallest. -/
def Canonical (F : Format) : UnpackedFloat → Prop
  | .finite _ m e _ => m < 2 ^ F.mantissaBits ∧ F.minExponent ≤ e
      ∧ (2 ^ F.mantissaBitsWithoutImplicit ≤ m ∨ e = F.minExponent)
  | _ => True

/-- `u` is the result of rounding `y`. -/
structure Rounds (F : Format) (y : ℝ) (u : UnpackedFloat) : Prop where
  finite : u.isFinite = true
  canonical : Canonical F u
  faithful : Faithful F y (value u)

theorem Faithful.signed {y r : ℝ} (h : Faithful F y r) (s : Sign) :
    Faithful F (signed s y) (signed s r) := by
  cases s
  · exact h.neg
  · exact h

theorem signed_mul (s t : Sign) (x y : ℝ) :
    signed (s * t) (x * y) = signed s x * signed t y := by
  cases s <;> cases t <;> show _ = _ * _ <;> simp [signed]

/-! ## Dropping bits -/

/-- The mantissa is `z` with its fraction cut off, and the two residual bits
tell whether something was cut off. -/
def Describes (em : ExtendedMantissa) (z : ℝ) : Prop :=
  if em.roundBit || em.stickyBit then (em.mantissa : ℝ) < z
    ∧ z < em.mantissa + 1
  else z = em.mantissa

theorem Describes.shiftRightOne {em : ExtendedMantissa} {z : ℝ}
    (h : Describes em z) :
    Describes em.shiftRightOne (z / 2) := by
  obtain ⟨m, r, s⟩ := em
  have hparity : (m : ℝ) = 2 * (m / 2 : ℕ) + (m % 2 : ℕ) := by
    exact_mod_cast (Nat.div_add_mod m 2).symm
  have hbit : ((m % 2 : ℕ) : ℝ) = 0 ∨ ((m % 2 : ℕ) : ℝ) = 1 := by
    exact_mod_cast Nat.mod_two_eq_zero_or_one m
  unfold Describes ExtendedMantissa.shiftRightOne at *
  dsimp only at *
  by_cases hres : r || s
  · rw [if_pos hres] at h
    rw [if_pos (by simp [hres])]
    constructor <;> rcases hbit with hb | hb <;> linarith [h.1, h.2]
  · rw [if_neg hres] at h
    by_cases hodd : m % 2 = 0
    · rw [if_neg (by simp [hodd, hres]), h, hparity, hodd]
      push_cast
      ring
    · have hone : ((m % 2 : ℕ) : ℝ) = 1 :=
        hbit.resolve_left (by exact_mod_cast hodd)
      rw [if_pos (by simp [Nat.mod_two_ne_zero.mp hodd])]
      constructor <;> linarith

/-- What holds of a mantissa for a number, and still after a shift by one bit
for half the number, holds after any shift. -/
theorem shiftRight_of_shiftRightOne {P : ExtendedMantissa → ℝ → Prop}
    (hone : ∀ {em z}, P em z → P em.shiftRightOne (z / 2))
    {em : ExtendedMantissa} {z : ℝ} (h : P em z) (n : ℕ) :
    P (em >>> n) (z / 2 ^ n) := by
  induction n with
  | zero =>
    rw [pow_zero, div_one]
    exact h
  | succ n ih =>
    rw [pow_succ, ← div_div]
    exact hone ih

theorem Describes.shiftRight {em : ExtendedMantissa} {z : ℝ}
    (h : Describes em z) (n : ℕ) : Describes (em >>> n) (z / 2 ^ n) :=
  shiftRight_of_shiftRightOne Describes.shiftRightOne h n

theorem mantissa_shiftRight (em : ExtendedMantissa) (n : ℕ) :
    (em >>> n).mantissa = em.mantissa / 2 ^ n := by
  induction n with
  | zero => exact (Nat.div_one _).symm
  | succ n ih =>
    rw [pow_succ, ← Nat.div_div_eq_div_mul, ← ih]
    rfl

/-- Rounding adds at most one unit, and nothing if no bits were dropped. -/
theorem roundedMantissa_cases (em : ExtendedMantissa) :
    em.roundedMantissa = em.mantissa
      ∨ (em.roundBit || em.stickyBit) = true
        ∧ em.roundedMantissa = em.mantissa + 1 := by
  obtain ⟨m, r, s⟩ := em
  cases r <;> cases s <;>
    simp only [ExtendedMantissa.roundedMantissa, ExtendedMantissa.accuracy,
      Accuracy.roundToNearestEven] <;> simp
  omega

/-- **Rounding to a multiple of a power of two is faithful**, if the mantissa
is full or the power is the smallest. -/
theorem Describes.faithful {em : ExtendedMantissa} {y : ℝ} {t : ℤ}
    (h : Describes em (y / (2 : ℝ) ^ t))
    (hfull : 2 ^ F.mantissaBitsWithoutImplicit ≤ em.mantissa
      ∨ t = F.minExponent) :
    Faithful F y (em.roundedMantissa * (2 : ℝ) ^ t) := by
  have ht : (0 : ℝ) < 2 ^ t := zpow_pos two_pos t
  unfold Describes at h
  split at h
  · rw [lt_div_iff₀ ht, div_lt_iff₀ ht] at h
    have hle : (em.mantissa : ℝ) ≤ em.roundedMantissa
        ∧ (em.roundedMantissa : ℝ) ≤ em.mantissa + 1 := by
      rcases roundedMantissa_cases em with hr | ⟨-, hr⟩ <;> rw [hr]
        <;> push_cast <;>
        constructor <;> linarith
    have hlow := mul_le_mul_of_nonneg_right hle.1 ht.le
    have hhigh := mul_le_mul_of_nonneg_right hle.2 ht.le
    constructor
    · intro g hg hgy
      rcases hg.not_between hfull with hbelow | habove
      · exact hbelow.trans hlow
      · linarith [h.2]
    · intro g hg hgy
      rcases hg.not_between hfull with hbelow | habove
      · linarith [h.1]
      · exact hhigh.trans habove
  · next hexact =>
    have hr : em.roundedMantissa = em.mantissa :=
      (roundedMantissa_cases em).resolve_right fun hr => hexact hr.1
    rw [div_eq_iff ht.ne'] at h
    rw [hr, ← h]
    exact .refl y

/-! ## Rounding to the format -/

theorem targetExponent_eq (m : ℕ) (e : ℤ) :
    F.targetExponent (totalExponent m e)
      = max (m.log2 + 1 + e - F.mantissaBits) F.minExponent := rfl

theorem mantissaBits_eq (F : Format) :
    F.mantissaBits = F.mantissaBitsWithoutImplicit + 1 :=
  Nat.add_comm _ _

theorem minExponent_eq (F : Format) :
    F.minExponent = 2 - F.exponentBias - F.mantissaBits := by
  have hpow : 1 ≤ 2 ^ (F.exponentBits - 1) := Nat.one_le_two_pow
  rw [Format.minExponent, Format.exponentBias, Nat.cast_sub hpow]
  push_cast
  ring

/-- There is as much room below one as above. -/
theorem minExponent_le (F : Format) :
    F.minExponent ≤ -(F.exponentBias : ℤ) := by
  have hmin := minExponent_eq F
  have hbits := mantissaBits_eq F
  have hpos := F.hm
  omega

theorem minExponent_nonpos (F : Format) : F.minExponent ≤ 0 :=
  (minExponent_le F).trans (neg_nonpos.mpr (Int.natCast_nonneg _))

section Shift

variable {m : ℕ} {e t : ℤ} (ht : t = F.targetExponent (totalExponent m e))
  (he : e ≤ t)

include ht he

theorem shiftToTargetExponent_eq (acc : Accuracy) :
    shiftToTargetExponent F m e acc
      = (ExtendedMantissa.ofMantissaAndAccuracy m acc >>> (t - e).toNat,
        t) := by
  unfold shiftToTargetExponent shiftToExponent
  rw [← ht]
  dsimp only
  congr 1
  omega

/-- After the shift the mantissa fits. -/
theorem shifted_lt : m / 2 ^ (t - e).toNat < 2 ^ F.mantissaBits := by
  rw [Nat.div_lt_iff_lt_mul (by positivity), ← pow_add]
  refine Nat.lt_log2_self.trans_le (Nat.pow_le_pow_right two_pos ?_)
  rw [targetExponent_eq] at ht
  omega

/-- After the shift the mantissa is full, unless the exponent is the
smallest. -/
theorem shifted_full :
    2 ^ F.mantissaBitsWithoutImplicit ≤ m / 2 ^ (t - e).toNat
      ∨ t = F.minExponent := by
  rw [targetExponent_eq] at ht
  have hbits := mantissaBits_eq F
  have hpos := F.hm
  by_cases hmin : t = F.minExponent
  · exact .inr hmin
  · left
    have hm : m ≠ 0 := by
      rintro rfl
      rw [Nat.log2_zero] at ht
      omega
    rw [Nat.le_div_iff_mul_le (by positivity), ← pow_add]
    refine le_trans (Nat.pow_le_pow_right two_pos ?_) (Nat.log2_self_le hm)
    omega

end Shift

theorem mantissa_ofMantissaAndAccuracy (m : ℕ) (acc : Accuracy) :
    (ExtendedMantissa.ofMantissaAndAccuracy m acc).mantissa = m := by
  rcases acc with - | (- | - | -) <;> rfl

/-- The number that rounding a mantissa to `r` at exponent `t` gives, after
a carry if there is one. -/
def ofRounded (F : Format) (s : Sign) (r : ℕ) (t : ℤ) : UnpackedFloat :=
  if h : r = 0 then .zero s
  else if r < 2 ^ F.mantissaBits then .finite s r t (Nat.pos_of_ne_zero h)
  else .finite s (2 ^ F.mantissaBitsWithoutImplicit) (t + 1) (by positivity)

theorem log2_lt_mantissaBits {r : ℕ} (hr : r < 2 ^ F.mantissaBits) :
    r.log2 < F.mantissaBits := by
  by_cases h : r = 0
  · rw [h, Nat.log2_zero, mantissaBits_eq]
    exact Nat.succ_pos _
  · exact (Nat.log2_lt h).mpr hr

/-- A mantissa that fits is left alone. -/
theorem shift_of_fits {r : ℕ} {t : ℤ} (hr : r < 2 ^ F.mantissaBits)
    (ht : F.minExponent ≤ t) :
    shiftToTargetExponent F r t .exact = (⟨r, false, false⟩, t) := by
  have hlog := log2_lt_mantissaBits hr
  have hshift : (F.targetExponent (totalExponent r t) - t).toNat = 0 := by
    rw [targetExponent_eq]
    omega
  unfold shiftToTargetExponent shiftToExponent
  simp only [hshift, Nat.cast_zero, add_zero]
  rfl

/-- A carry is one more bit to drop. -/
theorem shift_of_carry {t : ℤ} (ht : F.minExponent ≤ t) :
    shiftToTargetExponent F (2 ^ F.mantissaBits) t .exact
      = (⟨2 ^ F.mantissaBitsWithoutImplicit, false, false⟩, t + 1) := by
  have htarget :
      t + 1 = F.targetExponent (totalExponent (2 ^ F.mantissaBits) t) := by
    rw [targetExponent_eq, Nat.log2_two_pow]
    omega
  have hone : (t + 1 - t).toNat = 1 := by omega
  rw [shiftToTargetExponent_eq htarget (by omega), hone, mantissaBits_eq,
    pow_succ]
  show (ExtendedMantissa.shiftRightOne ⟨_, false, false⟩, _) = _
  simp [ExtendedMantissa.shiftRightOne]

theorem roundWithAccuracy_eq {s : Sign} {m : ℕ} {e t : ℤ} {acc : Accuracy}
    (ht : t = F.targetExponent (totalExponent m e)) (he : e ≤ t)
    {r : ℕ} (hr : (ExtendedMantissa.ofMantissaAndAccuracy m acc
      >>> (t - e).toNat).roundedMantissa = r) (hle : r ≤ 2 ^ F.mantissaBits) :
    roundWithAccuracy F s m e acc = ofRounded F s r t := by
  have hmin : F.minExponent ≤ t := by
    rw [ht, targetExponent_eq]; exact le_max_right _ _
  unfold roundWithAccuracy ofRounded
  rw [shiftToTargetExponent_eq ht he]
  dsimp only
  rw [hr]
  rcases hle.lt_or_eq with hlt | rfl
  · simp only [shift_of_fits hlt hmin, if_pos hlt]
  · simp only [shift_of_carry hmin, lt_irrefl, if_false]
    rw [dif_neg (by positivity), dif_neg (by positivity)]

theorem value_ofRounded (s : Sign) {r : ℕ} (hr : r ≤ 2 ^ F.mantissaBits)
    (t : ℤ) :
    value (ofRounded F s r t) = signed s (r * (2 : ℝ) ^ t) := by
  unfold ofRounded
  split
  · next h =>
    rw [h]
    cases s <;> simp [value, signed]
  · split
    · rfl
    · next h =>
      have hcarry : r = 2 ^ F.mantissaBits := hr.antisymm (not_lt.mp h)
      rw [hcarry, mantissaBits_eq, value, zpow_add_one₀ two_ne_zero]
      congr 1
      push_cast
      ring

theorem canonical_ofRounded (s : Sign) {r : ℕ} {t : ℤ} (ht : F.minExponent ≤ t)
    (hfull : 2 ^ F.mantissaBitsWithoutImplicit ≤ r ∨ t = F.minExponent) :
    Canonical F (ofRounded F s r t) := by
  unfold ofRounded
  split
  · trivial
  · split
    · next h => exact ⟨h, ht, hfull⟩
    · refine ⟨?_, by omega, .inl le_rfl⟩
      rw [mantissaBits_eq]
      exact Nat.pow_lt_pow_right one_lt_two (Nat.lt_succ_self _)

theorem isFinite_ofRounded (s : Sign) (r : ℕ) (t : ℤ) :
    (ofRounded F s r t).isFinite = true := by
  unfold ofRounded
  split
  · rfl
  · split <;> rfl

/-- **Rounding to a format is faithful.** The mantissa must have been long
enough, so that bits are dropped and none are missing. -/
theorem rounds_roundWithAccuracy (s : Sign) {m : ℕ} {e : ℤ} {acc : Accuracy}
    {y : ℝ} (hdesc : Describes (.ofMantissaAndAccuracy m acc) (y / (2 : ℝ) ^ e))
    (he : e ≤ F.targetExponent (totalExponent m e)) :
    Rounds F (signed s y) (roundWithAccuracy F s m e acc) := by
  generalize ht : F.targetExponent (totalExponent m e) = t at he
  have hmin : F.minExponent ≤ t := by
    rw [← ht, targetExponent_eq]; exact le_max_right _ _
  generalize hem :
      ExtendedMantissa.ofMantissaAndAccuracy m acc >>> (t - e).toNat = em
  have hmantissa : em.mantissa = m / 2 ^ (t - e).toNat := by
    rw [← hem, mantissa_shiftRight, mantissa_ofMantissaAndAccuracy]
  have hlt : em.mantissa < 2 ^ F.mantissaBits :=
    hmantissa ▸ shifted_lt ht.symm he
  have hfull := shifted_full ht.symm he
  rw [← hmantissa] at hfull
  have hshifted : Describes em (y / (2 : ℝ) ^ t) := by
    have h := hdesc.shiftRight (t - e).toNat
    rw [hem, div_div, ← zpow_natCast, ← zpow_add₀ two_ne_zero] at h
    convert h using 3
    omega
  have hround : em.mantissa ≤ em.roundedMantissa
      ∧ em.roundedMantissa ≤ em.mantissa + 1 := by
    rcases roundedMantissa_cases em with h | ⟨-, h⟩ <;> omega
  rw [roundWithAccuracy_eq ht.symm he rfl (by rw [hem]; omega), hem]
  refine ⟨isFinite_ofRounded _ _ _,
    canonical_ofRounded s hmin (hfull.imp_left fun h => h.trans hround.1), ?_⟩
  rw [value_ofRounded s (by omega)]
  exact (hshifted.faithful hfull).signed s

end Equilibration.Rounding
