import Equilibration.Proofs.NearestNumbers
import Equilibration.Proofs.Packing

/-!
# NearestOperations — products and quotients are rounded to the nearest

Faithful rounding leaves two candidates for a result. The two residual bits of
a mantissa say which one it is: they place the exact result in a half of the
unit after the mantissa (`Locates`), through every shift. So the result of a
product or a quotient is the number whose interval holds the exact result
(`mul_eq_of_captures`, `div_eq_of_captures`).
-/

namespace Equilibration.Rounding

open Float.Model Float.Model.UnpackedFloat

variable {F : Format}

/-! ## Residual bits -/

/-- The mantissa and the round bit are `z` cut off after a half, and the
sticky bit tells whether something was cut off. -/
@[mk_iff]
structure Locates (em : ExtendedMantissa) (z : ℝ) : Prop where
  between : em.stickyBit = true →
    em.mantissa + (if em.roundBit then 1 / 2 else 0) < z
      ∧ z < em.mantissa + (if em.roundBit then 1 / 2 else 0) + 1 / 2
  exact : em.stickyBit = false →
      z = em.mantissa + (if em.roundBit then 1 / 2 else 0)

theorem locates_exact (m : ℕ) :
    Locates (.ofMantissaAndAccuracy m .exact) m := by
  simp [locates_iff, ExtendedMantissa.ofMantissaAndAccuracy]

theorem Locates.shiftRightOne {em : ExtendedMantissa} {z : ℝ}
    (h : Locates em z) :
    Locates em.shiftRightOne (z / 2) := by
  obtain ⟨m, r, s⟩ := em
  have hparity : (m : ℝ) = 2 * (m / 2 : ℕ) + (m % 2 : ℕ) := by
    exact_mod_cast (Nat.div_add_mod m 2).symm
  rw [locates_iff] at *
  unfold ExtendedMantissa.shiftRightOne
  dsimp only at *
  rcases Nat.mod_two_eq_zero_or_one m with hbit | hbit <;> rw [hbit] at hparity
    <;>
    cases r <;> cases s <;> simp [hbit] at h ⊢ <;> push_cast at hparity
  all_goals first
    | linarith
    | exact ⟨by linarith, by linarith⟩

theorem Locates.shiftRight {em : ExtendedMantissa} {z : ℝ}
    (h : Locates em z) (n : ℕ) : Locates (em >>> n) (z / 2 ^ n) :=
  shiftRight_of_shiftRightOne Locates.shiftRightOne h n

theorem Locates.floor {em : ExtendedMantissa} {z : ℝ} (h : Locates em z) :
    em.mantissa ≤ z ∧ z < em.mantissa + 1 := by
  obtain ⟨m, r, s⟩ := em
  rw [locates_iff] at h
  cases r <;> cases s <;> simp at h ⊢ <;> constructor <;> linarith

/-- The mantissa is rounded to the nearest. -/
theorem Locates.nearest {em : ExtendedMantissa} {z : ℝ} (h : Locates em z) :
    Nearest z em.roundedMantissa := by
  obtain ⟨m, r, s⟩ := em
  rw [locates_iff] at h
  cases r <;> cases s <;>
    simp [ExtendedMantissa.roundedMantissa, ExtendedMantissa.accuracy,
      Accuracy.roundToNearestEven] at h ⊢
  · -- nothing was cut off
    rw [h]
    exact ⟨by simp, fun hhalf => by simp at hhalf⟩
  · refine ⟨abs_le.mpr ⟨by linarith, by linarith⟩, fun hhalf => ?_⟩
    rw [abs_of_pos (by linarith)] at hhalf
    linarith
  · -- exactly a half
    rw [h]
    rcases Nat.mod_two_eq_zero_or_one m with hbit | hbit <;> rw [hbit]
    · exact ⟨by rw [add_zero, add_sub_cancel_left]; norm_num, fun _ => by omega⟩
    · refine ⟨?_, fun _ => by omega⟩
      push_cast
      rw [show (m : ℝ) + 2⁻¹ - (m + 1) = -(1 / 2) by ring]
      norm_num
  · refine ⟨abs_le.mpr ⟨by push_cast; linarith, by push_cast; linarith⟩,
      fun hhalf => ?_⟩
    push_cast at hhalf
    rw [abs_of_neg (by linarith)] at hhalf
    linarith

/-- Integer division locates the quotient. -/
theorem locates_div (m : ℕ) {n : ℕ} (hn : 0 < n) :
    Locates (.ofMantissaAndAccuracy (m / n) (accuracyOfFraction (m % n) n))
      ((m : ℝ) / n) := by
  have hnR : (0 : ℝ) < n := by exact_mod_cast hn
  have hsplit : (m : ℝ) / n = (m / n : ℕ) + ((m % n : ℕ) : ℝ) / n := by
    have : (m : ℝ) = n * (m / n : ℕ) + (m % n : ℕ) := by
      exact_mod_cast (Nat.div_add_mod m n).symm
    rw [div_eq_iff hnR.ne', add_mul, div_mul_cancel₀ _ hnR.ne']
    linarith
  have hhigh : ((m % n : ℕ) : ℝ) / n < 1 := by
    rw [div_lt_one hnR]
    exact_mod_cast Nat.mod_lt m hn
  rw [hsplit]
  unfold accuracyOfFraction
  split
  · next hrest => simpa [hrest] using locates_exact (m / n)
  · next hrest =>
    have hlow : (0 : ℝ) < ((m % n : ℕ) : ℝ) / n :=
      div_pos (by exact_mod_cast Nat.pos_of_ne_zero hrest) hnR
    have hhalf : ∀ q : ℕ, (2 * q < n ↔ (q : ℝ) / n < 1 / 2)
        ∧ (n < 2 * q ↔ 1 / 2 < (q : ℝ) / n) := by
      intro q
      rw [div_lt_div_iff₀ hnR two_pos, div_lt_div_iff₀ two_pos hnR, one_mul,
        mul_comm (q : ℝ)]
      constructor <;> exact_mod_cast Iff.rfl
    rcases hcompare : compare (2 * (m % n)) n with - | - | -
    · have := (hhalf (m % n)).1.mp (Nat.compare_eq_lt.mp hcompare)
      simp [locates_iff, ExtendedMantissa.ofMantissaAndAccuracy]
      constructor <;> linarith
    · have heq := Nat.compare_eq_eq.mp hcompare
      have heqR : 2 * ((m % n : ℕ) : ℝ) = n := by exact_mod_cast heq
      simp [locates_iff, ExtendedMantissa.ofMantissaAndAccuracy]
      rw [div_eq_iff hnR.ne']
      linarith
    · have := (hhalf (m % n)).2.mp (Nat.compare_eq_gt.mp hcompare)
      simp [locates_iff, ExtendedMantissa.ofMantissaAndAccuracy]
      constructor <;> linarith

/-! ## Rounding to the format -/

section Captured

variable {sign : Sign} {m s : ℕ} {e k : ℤ} {acc : Accuracy} {y : ℝ} (hs : 0 < s)
  (hc : (patterns F).Canonical s e) (hy : (patterns F).Captures s e y)

include hc hy

/-- **Rounding finds the number** whose interval holds the exact result. -/
theorem roundWithAccuracy_eq_of_captures
    (hloc : Locates (.ofMantissaAndAccuracy m acc) (y / (2 : ℝ) ^ k))
    (hk : k ≤ F.targetExponent (totalExponent m k)) :
    roundWithAccuracy F sign m k acc = .finite sign s e hs := by
  have hpos : (0 : ℝ) < 2 ^ k := zpow_pos two_pos k
  have hypos := hy.pos hs
  have hbits := mantissaBits_eq F
  have hbinade := two_mul_binade_patterns F
  generalize ht : F.targetExponent (totalExponent m k) = t at hk
  have hnearest : Nearest (y / 2 ^ t)
      (ExtendedMantissa.ofMantissaAndAccuracy m acc
        >>> (t - k).toNat).roundedMantissa := by
    have h := (hloc.shiftRight (t - k).toNat).nearest
    have hsum : k + ((t - k).toNat : ℤ) = t := by omega
    rwa [div_div, ← zpow_natCast, ← zpow_add₀ two_ne_zero, hsum] at h
  -- the size of the result decides the power of two
  obtain ⟨l, hlow, hhigh, hl⟩ : ∃ l : ℤ, (2 : ℝ) ^ l ≤ y ∧ y < 2 ^ (l + 1)
      ∧ t = max (l - (patterns F).fractionBits) (patterns F).unitExponent := by
    have hfloor := hloc.floor
    rw [mantissa_ofMantissaAndAccuracy, le_div_iff₀ hpos, div_lt_iff₀ hpos]
      at hfloor
    rw [unitExponent_patterns]
    show ∃ l : ℤ, _ ∧ _
      ∧ t = max (l - (F.mantissaBitsWithoutImplicit : ℤ)) F.minExponent
    rw [targetExponent_eq] at ht
    rcases Nat.eq_zero_or_pos m with rfl | hm
    · -- the result is below the power of two, and that is small enough anyway
      obtain ⟨l, hl⟩ := exists_mem_Ico_zpow hypos (one_lt_two (α := ℝ))
      refine ⟨l, hl.1, hl.2, ?_⟩
      have hlk : (2 : ℝ) ^ l < 2 ^ k := hl.1.trans_lt (by simpa using hfloor.2)
      have := (zpow_lt_zpow_iff_right₀ one_lt_two).mp hlk
      have := F.hm
      rw [Nat.log2_zero] at ht
      omega
    · refine ⟨m.log2 + k, ?_, ?_, by omega⟩
      · refine le_trans ?_ hfloor.1
        rw [zpow_add₀ two_ne_zero, zpow_natCast]
        exact mul_le_mul_of_nonneg_right
          (by exact_mod_cast Nat.log2_self_le hm.ne') hpos.le
      · refine hfloor.2.trans_le ?_
        have hle : m + 1 ≤ 2 ^ (m.log2 + 1) := Nat.lt_log2_self
        rw [add_right_comm, zpow_add₀ two_ne_zero]
        exact mul_le_mul_of_nonneg_right (by exact_mod_cast hle) hpos.le
  rcases hy.nearest hs hc hlow hhigh hl hnearest
    with ⟨rfl, hr⟩ | ⟨rfl, hr, hfirst⟩
  · have hfits : s < 2 ^ F.mantissaBits := hbinade ▸ hc.fits
    rw [roundWithAccuracy_eq ht.symm hk hr hfits.le, ofRounded, dif_neg hs.ne',
      if_pos hfits]
  · -- a carry into the binade of the number
    have hne : 2 * (patterns F).binade ≠ 0 :=
      (Nat.mul_pos two_pos (patterns F).binade_pos).ne'
    rw [roundWithAccuracy_eq ht.symm hk hr hbinade.le, ofRounded, dif_neg hne,
      if_neg hbinade.symm.le.not_gt]
    congr 1
    exact hfirst.symm

/-- A product is the number whose interval holds the exact product. -/
theorem mul_eq_of_captures {sm sn : Sign} {n : ℕ} {em en : ℤ} {hm : 0 < m}
    {hn : 0 < n} (hcm : Canonical F (.finite sm m em hm))
    (hcn : Canonical F (.finite sn n en hn))
    (hmul : y = m * (2 : ℝ) ^ em * (n * (2 : ℝ) ^ en)) :
    UnpackedFloat.mul F (.finite sm m em hm) (.finite sn n en hn)
      = .finite (sm * sn) s e hs := by
  refine roundWithAccuracy_eq_of_captures hs hc hy ?_ (mul_exponent_le hcm hcn)
  have hexact : y / (2 : ℝ) ^ (em + en) = (m * n : ℕ) := by
    rw [hmul, div_eq_iff (zpow_pos two_pos _).ne', zpow_add₀ two_ne_zero]
    push_cast
    ring
  rw [hexact]
  exact locates_exact _

/-- A quotient is the number whose interval holds the exact quotient. -/
theorem div_eq_of_captures {sm sn : Sign} {n : ℕ} {em en : ℤ} (hm : 0 < m)
    (hn : 0 < n) (hdiv : y = m * (2 : ℝ) ^ em / (n * (2 : ℝ) ^ en)) :
    UnpackedFloat.div F (.finite sm m em hm) (.finite sn n en hn)
      = .finite (sm / sn) s e hs := by
  generalize ht : min (em - en)
    (F.targetExponent (totalExponent m em - totalExponent n en)) = t
  have hloc := locates_div (m <<< (em - en - t).toNat) hn
  rw [shifted_quotient m n (ht ▸ min_le_left _ _), ← hdiv] at hloc
  show roundWithAccuracy F (sm / sn) _ _ _ = _
  rw [ht]
  exact roundWithAccuracy_eq_of_captures hs hc hy hloc
    (divCore_exponent_le hm hn em en ht.symm)

end Captured

end Equilibration.Rounding
