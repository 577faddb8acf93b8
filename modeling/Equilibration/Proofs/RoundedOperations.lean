import Equilibration.Proofs.Rounding

/-!
# RoundedOperations — the operations on unpacked numbers

Product, quotient, square root and sum of finite numbers round the exact
result faithfully (`rounds_mul`, `rounds_div`, `rounds_sqrt`, `rounds_add`);
negation and magnitude are exact.
-/

namespace Equilibration.Rounding

open Float.Model Float.Model.UnpackedFloat

variable {F : Format} {u v : UnpackedFloat}

theorem finite_cases (h : u.isFinite = true) :
    (∃ s, u = .zero s) ∨ ∃ s m e, ∃ hm : 0 < m, u = .finite s m e hm := by
  cases u with
  | infinity s => cases h
  | notANumber => cases h
  | zero s => exact .inl ⟨s, rfl⟩
  | finite s m e hm => exact .inr ⟨s, m, e, hm, rfl⟩

@[simp] theorem value_zero (s : Sign) : value (.zero s) = 0 := rfl

@[simp] theorem value_finite (s : Sign) {m : ℕ} (e : ℤ) (hm : 0 < m) :
    value (.finite s m e hm) = signed s (m * (2 : ℝ) ^ e) := rfl

theorem le_log2_of_le {k n : ℕ} (h : 2 ^ k ≤ n) : k ≤ n.log2 :=
  (Nat.le_log2 ((Nat.two_pow_pos k).trans_le h).ne').mpr h

theorem magnitude_pos {m : ℕ} (hm : 0 < m) (e : ℤ) :
    0 < (m : ℝ) * (2 : ℝ) ^ e :=
  mul_pos (by exact_mod_cast hm) (zpow_pos two_pos e)

/-! ## Exact results -/

theorem rounds_zero (s : Sign) : Rounds F 0 (.zero s) := ⟨rfl, trivial, .refl 0⟩

/-- A number of the format is its own rounding. -/
theorem Rounds.of_canonical (hfin : u.isFinite = true) (hu : Canonical F u) :
    Rounds F (value u) u := ⟨hfin, hu, .refl _⟩

theorem rounds_neg (hu : u.isFinite = true) (hcu : Canonical F u) :
    Rounds F (-value u) u.neg := by
  obtain ⟨s, rfl⟩ | ⟨s, m, e, hm, rfl⟩ := finite_cases hu
  · rw [value_zero, neg_zero]
    exact rounds_zero _
  · have hvalue : -value (.finite s m e hm)
        = value (UnpackedFloat.neg (.finite s m e hm)) := by
      cases s
      · exact neg_neg _
      · rfl
    rw [hvalue]
    exact .of_canonical rfl hcu

theorem rounds_abs (hu : u.isFinite = true) (hcu : Canonical F u) :
    Rounds F |value u| u.abs := by
  obtain ⟨s, rfl⟩ | ⟨s, m, e, hm, rfl⟩ := finite_cases hu
  · rw [value_zero, abs_zero]
    exact rounds_zero _
  · have hpos := magnitude_pos hm e
    have hvalue : |value (.finite s m e hm)|
        = value (UnpackedFloat.abs (.finite s m e hm)) := by
      cases s
      · exact (abs_neg _).trans (abs_of_pos hpos)
      · exact abs_of_pos hpos
    rw [hvalue]
    exact .of_canonical rfl hcu

/-! ## Products -/

theorem Canonical.le_log2 {s : Sign} {m : ℕ} {e : ℤ} {hm : 0 < m}
    (h : Canonical F (.finite s m e hm)) (he : e ≠ F.minExponent) :
    F.mantissaBitsWithoutImplicit ≤ m.log2 :=
  (Nat.le_log2 hm.ne').mpr (h.2.2.resolve_right he)

/-- The product of two mantissas has enough bits: one of them is full, unless
both exponents are the smallest. -/
theorem mul_exponent_le {s t : Sign} {m n : ℕ} {e f : ℤ} {hm : 0 < m}
    {hn : 0 < n} (hcu : Canonical F (.finite s m e hm))
    (hcv : Canonical F (.finite t n f hn)) :
    e + f ≤ F.targetExponent (totalExponent (m * n) (e + f)) := by
  have hne : m * n ≠ 0 := (Nat.mul_pos hm hn).ne'
  have hlogm : m.log2 ≤ (m * n).log2 := (Nat.le_log2 hne).mpr
    ((Nat.log2_self_le hm.ne').trans (Nat.le_mul_of_pos_right m hn))
  have hlogn : n.log2 ≤ (m * n).log2 := (Nat.le_log2 hne).mpr
    ((Nat.log2_self_le hn.ne').trans (Nat.le_mul_of_pos_left n hm))
  have hmin := minExponent_nonpos F
  have hbits := mantissaBits_eq F
  rw [targetExponent_eq]
  by_cases he : e = F.minExponent
  · by_cases hf : f = F.minExponent
    · omega
    · have := hcv.le_log2 hf
      omega
  · have := hcu.le_log2 he
    have := hcv.2.1
    omega

theorem rounds_mul (hu : u.isFinite = true) (hv : v.isFinite = true)
    (hcu : Canonical F u) (hcv : Canonical F v) :
    Rounds F (value u * value v) (UnpackedFloat.mul F u v) := by
  obtain ⟨s, rfl⟩ | ⟨s, m, e, hm, rfl⟩ := finite_cases hu
  · rw [value_zero, zero_mul]
    obtain ⟨t, rfl⟩ | ⟨t, n, f, hn, rfl⟩ := finite_cases hv
    · exact rounds_zero _
    · exact rounds_zero _
  · obtain ⟨t, rfl⟩ | ⟨t, n, f, hn, rfl⟩ := finite_cases hv
    · rw [value_zero, mul_zero]
      exact rounds_zero _
    · rw [value_finite, value_finite, ← signed_mul]
      refine rounds_roundWithAccuracy (s * t) ?_ (mul_exponent_le hcu hcv)
      show _ = ((m * n : ℕ) : ℝ)
      rw [div_eq_iff (zpow_pos two_pos _).ne', zpow_add₀ two_ne_zero]
      push_cast
      ring

/-! ## Quotients -/

/-- Integer division describes the quotient. -/
theorem describes_div (m : ℕ) {n : ℕ} (hn : 0 < n) :
    Describes (.ofMantissaAndAccuracy (m / n) (accuracyOfFraction (m % n) n))
      ((m : ℝ) / n) := by
  have hnR : (0 : ℝ) < n := by exact_mod_cast hn
  have hsplit : (m : ℝ) = n * (m / n : ℕ) + (m % n : ℕ) := by
    exact_mod_cast (Nat.div_add_mod m n).symm
  unfold accuracyOfFraction
  split
  · next hrest =>
    show (m : ℝ) / n = (m / n : ℕ)
    rw [hrest, Nat.cast_zero, add_zero] at hsplit
    rw [div_eq_iff hnR.ne', mul_comm]
    exact hsplit
  · next hrest =>
    have hlow : (0 : ℝ) < (m % n : ℕ) := by
      exact_mod_cast Nat.pos_of_ne_zero hrest
    have hhigh : ((m % n : ℕ) : ℝ) < n := by exact_mod_cast Nat.mod_lt m hn
    have hstrict :
        ((m / n : ℕ) : ℝ) < m / n ∧ (m : ℝ) / n < (m / n : ℕ) + 1 := by
      rw [lt_div_iff₀ hnR, div_lt_iff₀ hnR]
      constructor <;> linarith
    cases compare (2 * (m % n)) n <;> exact hstrict

theorem signed_div (s t : Sign) (x y : ℝ) :
    signed (s / t) (x / y) = signed s x / signed t y := by
  cases s <;> cases t
  · exact (neg_div_neg_eq x y).symm
  · exact (neg_div y x).symm
  · exact (div_neg x).symm
  · rfl

/-- The quotient of the core has enough bits. -/
theorem divCore_exponent_le {m n : ℕ} (hm : 0 < m) (hn : 0 < n) (e f : ℤ)
    {t : ℤ} (ht : t = min (e - f)
      (F.targetExponent (totalExponent m e - totalExponent n f))) :
    t ≤ F.targetExponent (totalExponent ((m <<< (e - f - t).toNat) / n) t) := by
  rw [targetExponent_eq]
  unfold Format.targetExponent totalExponent at ht
  by_cases hmin : t ≤ F.minExponent
  · exact hmin.trans (le_max_right _ _)
  · have hbits := mantissaBits_eq F
    refine le_trans ?_ (le_max_left _ _)
    -- the shifted dividend has `mantissaBits` bits more than the divisor
    have hlog : F.mantissaBitsWithoutImplicit
        ≤ ((m <<< (e - f - t).toNat) / n).log2 := by
      have hle : 2 ^ F.mantissaBitsWithoutImplicit
          ≤ (m <<< (e - f - t).toNat) / n := by
        rw [Nat.le_div_iff_mul_le hn, Nat.shiftLeft_eq]
        calc 2 ^ F.mantissaBitsWithoutImplicit * n
            ≤ 2 ^ F.mantissaBitsWithoutImplicit * 2 ^ (n.log2 + 1) :=
              Nat.mul_le_mul_left _ Nat.lt_log2_self.le
          _ ≤ 2 ^ m.log2 * 2 ^ (e - f - t).toNat := by
              rw [← pow_add, ← pow_add]
              exact Nat.pow_le_pow_right two_pos (by omega)
          _ ≤ m * 2 ^ (e - f - t).toNat :=
              Nat.mul_le_mul_right _ (Nat.log2_self_le hm.ne')
      exact le_log2_of_le hle
    omega

/-- Shifting the dividend scales the quotient. -/
theorem shifted_quotient (m n : ℕ) {e f k : ℤ} (hk : k ≤ e - f) :
    ((m <<< (e - f - k).toNat : ℕ) : ℝ) / n
      = m * (2 : ℝ) ^ e / (n * (2 : ℝ) ^ f) / (2 : ℝ) ^ k := by
  have hshift : ((e - f - k).toNat : ℤ) = e - f - k :=
    Int.toNat_of_nonneg (by omega)
  rw [Nat.shiftLeft_eq, Nat.cast_mul, Nat.cast_pow, Nat.cast_two,
    ← zpow_natCast, hshift, zpow_sub₀ two_ne_zero, zpow_sub₀ two_ne_zero]
  field_simp

theorem rounds_div (hu : u.isFinite = true) (hv : v.isFinite = true)
    (hv0 : value v ≠ 0) :
    Rounds F (value u / value v) (UnpackedFloat.div F u v) := by
  obtain ⟨t, rfl⟩ | ⟨t, n, f, hn, rfl⟩ := finite_cases hv
  · exact absurd rfl hv0
  · obtain ⟨s, rfl⟩ | ⟨s, m, e, hm, rfl⟩ := finite_cases hu
    · rw [value_zero, zero_div]
      exact rounds_zero _
    · rw [value_finite, value_finite, ← signed_div]
      generalize ht :
          min (e - f) (F.targetExponent (totalExponent m e - totalExponent n f))
            = k
      have hdesc := describes_div (m <<< (e - f - k).toNat) hn
      rw [shifted_quotient m n (ht ▸ min_le_left _ _)] at hdesc
      show Rounds F _ (roundWithAccuracy F (s / t) _ _ _)
      rw [ht]
      exact rounds_roundWithAccuracy (s / t) hdesc
        (divCore_exponent_le hm hn e f ht.symm)

/-! ## Square roots -/

/-- The integer root describes the root. -/
theorem describes_sqrt (m : ℕ) :
    Describes (.ofMantissaAndAccuracy (Nat.sqrt m)
      (if m - Nat.sqrt m * Nat.sqrt m = 0 then .exact else .inexact
        (if m - Nat.sqrt m * Nat.sqrt m ≤ Nat.sqrt m then .lt else .gt)))
      (√(m : ℝ)) := by
  have hlow := Nat.sqrt_le m
  have hhigh := Nat.lt_succ_sqrt m
  have hroot : (0 : ℝ) ≤ Nat.sqrt m := Nat.cast_nonneg _
  split
  · next hrest =>
    have hsq : (m : ℝ) = (Nat.sqrt m : ℝ) * Nat.sqrt m := by
      exact_mod_cast (by omega : m = Nat.sqrt m * Nat.sqrt m)
    show √(m : ℝ) = (Nat.sqrt m : ℝ)
    conv_lhs => rw [hsq]
    exact Real.sqrt_mul_self hroot
  · next hrest =>
    have hstrict :
        (Nat.sqrt m : ℝ) < √(m : ℝ) ∧ √(m : ℝ) < (Nat.sqrt m : ℝ) + 1 := by
      constructor
      · rw [Real.lt_sqrt hroot, sq]
        exact_mod_cast (by omega : Nat.sqrt m * Nat.sqrt m < m)
      · rw [Real.sqrt_lt' (by positivity), sq]
        exact_mod_cast hhigh
    split <;> exact hstrict

/-- The root of the core has enough bits. -/
theorem sqrtCore_exponent_le {m : ℕ} (hm : 0 < m) (e : ℤ) {t : ℤ}
    (ht : t = min (e / 2) (F.targetExponent ((totalExponent m e + 1) / 2))) :
    t ≤ F.targetExponent
      (totalExponent (Nat.sqrt (m <<< (e - 2 * t).toNat)) t) := by
  rw [targetExponent_eq]
  unfold Format.targetExponent totalExponent at ht
  by_cases hmin : t ≤ F.minExponent
  · exact hmin.trans (le_max_right _ _)
  · have hbits := mantissaBits_eq F
    refine le_trans ?_ (le_max_left _ _)
    have htarget : 2 * t ≤ m.log2 + 2 + e - 2 * F.mantissaBits ∧ 2 * t ≤ e := by
      omega
    have hlog : F.mantissaBitsWithoutImplicit
        ≤ (Nat.sqrt (m <<< (e - 2 * t).toNat)).log2 := by
      have hle : 2 ^ F.mantissaBitsWithoutImplicit
          ≤ Nat.sqrt (m <<< (e - 2 * t).toNat) := by
        rw [Nat.le_sqrt, ← pow_add, Nat.shiftLeft_eq]
        calc 2 ^ (F.mantissaBitsWithoutImplicit + F.mantissaBitsWithoutImplicit)
            ≤ 2 ^ m.log2 * 2 ^ (e - 2 * t).toNat := by
              rw [← pow_add]
              exact Nat.pow_le_pow_right two_pos (by omega)
          _ ≤ m * 2 ^ (e - 2 * t).toNat :=
              Nat.mul_le_mul_right _ (Nat.log2_self_le hm.ne')
      exact le_log2_of_le hle
    omega

theorem rounds_sqrt (hu : u.isFinite = true) (hnonneg : 0 ≤ value u) :
    Rounds F √(value u) (UnpackedFloat.sqrt F u) := by
  obtain ⟨s, rfl⟩ | ⟨s, m, e, hm, rfl⟩ := finite_cases hu
  · rw [value_zero, Real.sqrt_zero]
    exact rounds_zero s
  · have hpos := magnitude_pos hm e
    cases s with
    | negative =>
      rw [value_finite, signed] at hnonneg
      linarith
    | positive =>
      generalize ht :
          min (e / 2) (F.targetExponent ((totalExponent m e + 1) / 2)) = t
      have hle := sqrtCore_exponent_le hm e ht.symm
      have hdesc := describes_sqrt (m <<< (e - 2 * t).toNat)
      have hshift : √((m <<< (e - 2 * t).toNat : ℕ) : ℝ)
          = √(m * (2 : ℝ) ^ e) / (2 : ℝ) ^ t := by
        have hk : ((e - 2 * t).toNat : ℤ) = e - 2 * t := by
          have := ht.symm.trans_le (min_le_left _ _)
          omega
        have hsq : (m : ℝ) * (2 : ℝ) ^ e
            = ((m <<< (e - 2 * t).toNat : ℕ) : ℝ) * ((2 : ℝ) ^ t) ^ 2 := by
          rw [Nat.shiftLeft_eq, Nat.cast_mul, Nat.cast_pow, Nat.cast_two,
            ← zpow_natCast, hk, mul_assoc, ← zpow_natCast, ← zpow_mul,
            ← zpow_add₀ two_ne_zero]
          congr 2
          push_cast
          ring
        have ht0 : (0 : ℝ) < 2 ^ t := zpow_pos two_pos t
        rw [hsq, Real.sqrt_mul (Nat.cast_nonneg _), Real.sqrt_sq ht0.le,
          mul_div_cancel_right₀ _ ht0.ne']
      rw [hshift] at hdesc
      subst ht
      show Rounds F (signed .positive _) (roundWithAccuracy F .positive _ _ _)
      exact rounds_roundWithAccuracy .positive hdesc hle

/-! ## Sums -/

theorem decreaseExponent_value (m : ℕ) (e t : ℤ) :
    ((decreaseExponent m e t).1 : ℝ) * (2 : ℝ) ^ (decreaseExponent m e t).2
      = m * (2 : ℝ) ^ e := by
  unfold decreaseExponent
  dsimp only
  rw [Nat.shiftLeft_eq, Nat.cast_mul, Nat.cast_pow, Nat.cast_two,
    ← zpow_natCast, mul_assoc, ← zpow_add₀ two_ne_zero]
  congr 2
  omega

theorem rounds_round (s : Sign) {m : ℕ} (hm : 0 < m) (e : ℤ) :
    Rounds F (signed s (m * (2 : ℝ) ^ e)) (UnpackedFloat.round F s m e) := by
  unfold UnpackedFloat.round
  generalize ht : F.targetExponent (totalExponent m e) = t
  have hvalue := decreaseExponent_value m e t
  refine rounds_roundWithAccuracy s (y := m * (2 : ℝ) ^ e) ?_ ?_
  · show _ / _ = ((decreaseExponent m e t).1 : ℝ)
    rw [← hvalue]
    exact mul_div_cancel_right₀ _ (zpow_pos two_pos _).ne'
  · -- moving the exponent does not lower the target
    have hlog : m.log2 + (e - t).toNat ≤ (m <<< (e - t).toNat).log2 := by
      apply le_log2_of_le
      rw [pow_add, Nat.shiftLeft_eq]
      exact Nat.mul_le_mul_right _ (Nat.log2_self_le hm.ne')
    rw [targetExponent_eq] at ht ⊢
    omega

theorem rounds_normalize (k e : ℤ) (s : Sign) :
    Rounds F (k * (2 : ℝ) ^ e) (UnpackedFloat.normalize F k e s) := by
  unfold UnpackedFloat.normalize
  split
  · next h =>
    have hneg : k < 0 := Int.compare_eq_lt.mp h
    have hcast : (k : ℝ) = -((-k).toNat : ℕ) := by
      exact_mod_cast (by omega : k = -((-k).toNat : ℤ))
    have hround :=
      rounds_round (F := F) .negative (m := (-k).toNat) (by omega) e
    rw [signed, ← neg_mul, ← hcast] at hround
    exact hround
  · next h =>
    rw [Int.compare_eq_eq.mp h, Int.cast_zero, zero_mul]
    exact rounds_zero s
  · next h =>
    have hpos : 0 < k := Int.compare_eq_gt.mp h
    have hcast : (k : ℝ) = (k.toNat : ℕ) := by
      exact_mod_cast (by omega : k = (k.toNat : ℤ))
    have hround := rounds_round (F := F) .positive (m := k.toNat) (by omega) e
    rw [signed, ← hcast] at hround
    exact hround

theorem cast_apply (s : Sign) (k : ℤ) : ((s.apply k : ℤ) : ℝ) = signed s k := by
  cases s
  · exact Int.cast_neg k
  · rfl

theorem signed_mul_right (s : Sign) (x y : ℝ) :
    signed s (x * y) = signed s x * y := by
  cases s
  · exact (neg_mul x y).symm
  · rfl

theorem rounds_add (hu : u.isFinite = true) (hv : v.isFinite = true)
    (hcu : Canonical F u) (hcv : Canonical F v) :
    Rounds F (value u + value v) (UnpackedFloat.add F u v) := by
  obtain ⟨s, rfl⟩ | ⟨s, m, e, hm, rfl⟩ := finite_cases hu
  · rw [value_zero, zero_add]
    obtain ⟨t, rfl⟩ | ⟨t, n, f, hn, rfl⟩ := finite_cases hv
    · unfold UnpackedFloat.add
      dsimp only
      split <;> exact rounds_zero _
    · exact .of_canonical rfl hcv
  · obtain ⟨t, rfl⟩ | ⟨t, n, f, hn, rfl⟩ := finite_cases hv
    · rw [value_zero, add_zero]
      exact .of_canonical rfl hcu
    · have hscale : ∀ (r : Sign) {l : ℕ} (g : ℤ) (hl : 0 < l), min e f ≤ g →
          value (.finite r l g hl)
            = (r.apply (decreaseExponent l g (min e f)).1 : ℤ)
              * (2 : ℝ) ^ min e f := by
        intro r l g hl hg
        have hexp : (decreaseExponent l g (min e f)).2 = min e f := by
          unfold decreaseExponent
          dsimp only
          omega
        have hvalue := decreaseExponent_value l g (min e f)
        rw [hexp] at hvalue
        rw [value_finite, ← hvalue, cast_apply, signed_mul_right]
        rfl
      rw [hscale s e hm (min_le_left e f), hscale t f hn (min_le_right e f),
        ← add_mul, ← Int.cast_add]
      exact rounds_normalize _ _ _

/-! ## Comparison with zero -/

theorem zero_lt_iff (s : Sign) (hu : u.isFinite = true) :
    (UnpackedFloat.zero s).lt u = true ↔ 0 < value u := by
  obtain ⟨t, rfl⟩ | ⟨t, m, e, hm, rfl⟩ := finite_cases hu
  · simp [UnpackedFloat.lt, UnpackedFloat.compare]
  · have hpos := magnitude_pos hm e
    cases t
      <;> simp [UnpackedFloat.lt, UnpackedFloat.compare, signed, hpos, hpos.le]

theorem lt_zero_iff (s : Sign) (hu : u.isFinite = true) :
    u.lt (.zero s) = true ↔ value u < 0 := by
  obtain ⟨t, rfl⟩ | ⟨t, m, e, hm, rfl⟩ := finite_cases hu
  · simp [UnpackedFloat.lt, UnpackedFloat.compare]
  · have hpos := magnitude_pos hm e
    cases t
      <;> simp [UnpackedFloat.lt, UnpackedFloat.compare, signed, hpos, hpos.le]

theorem beq_zero_iff (s : Sign) (hu : u.isFinite = true) :
    u.beq (.zero s) = true ↔ value u = 0 := by
  obtain ⟨t, rfl⟩ | ⟨t, m, e, hm, rfl⟩ := finite_cases hu
  · simp [UnpackedFloat.beq, UnpackedFloat.compare]
  · have hpos := magnitude_pos hm e
    cases t
      <;> simp [UnpackedFloat.beq, UnpackedFloat.compare, signed, hpos.ne']

end Equilibration.Rounding
