import Equilibration.Proofs.Negation

/-!
# ExactResults — equations with one and zero

A finite number has one unpacked form only (`Rounding.eq_of_value_eq`), so a
rounded result that stands for the same real is the same number. Products with
one and the root of one are such results: they hold as equations of numbers,
for infinities and what is no number as well.

A product with zero is zero or no number, depending on the other factor, and
sums of such products stay so (`FloatingPoint.Vanishes`). None of them is
positive.
-/

namespace Equilibration

open Float.Model Float.Model.UnpackedFloat

namespace Rounding

variable {F : Format} {u v : UnpackedFloat}

/-- Canonical forms of one magnitude have one exponent. -/
theorem Canonical.exponent_le {s t : Sign} {m n : ℕ} {e f : ℤ} {hm : 0 < m}
    {hn : 0 < n} (hcu : Canonical F (.finite s m e hm))
    (hcv : Canonical F (.finite t n f hn)) (h : (m : ℝ) * 2 ^ e = n * 2 ^ f) :
    f ≤ e := by
  by_contra hlt
  rw [not_le] at hlt
  -- the larger exponent has a full significand, and the other one twice of it
  have hfull : 2 ^ F.mantissaBitsWithoutImplicit ≤ n :=
    hcv.2.2.resolve_right fun hmin => hlt.not_ge (hmin ▸ hcu.2.1)
  have hsplit : (m : ℝ) = n * 2 ^ (f - e) := by
    rw [zpow_sub₀ two_ne_zero, mul_div_assoc', ← h, mul_div_assoc,
      div_self (zpow_pos two_pos e).ne', mul_one]
  have htwo : (2 : ℝ) ≤ 2 ^ (f - e) := by
    have :=
      zpow_le_zpow_right₀ (one_le_two (α := ℝ)) (show (1 : ℤ) ≤ f - e by omega)
    rwa [zpow_one] at this
  have hge : 2 ^ F.mantissaBits ≤ m := by
    have hcast : ((2 ^ F.mantissaBitsWithoutImplicit : ℕ) : ℝ) * 2 ≤ m := by
      rw [hsplit]
      exact mul_le_mul (by exact_mod_cast hfull) htwo two_pos.le
        (Nat.cast_nonneg n)
    rw [mantissaBits_eq, pow_succ]
    exact_mod_cast hcast
  exact hge.not_gt hcu.1

/-- **A finite number that is not zero has one unpacked form.** -/
theorem eq_of_value_eq {s : Sign} {m : ℕ} {e : ℤ} {hm : 0 < m}
    (hcv : Canonical F (.finite s m e hm)) (hu : u.isFinite = true)
    (hcu : Canonical F u) (h : value u = value (.finite s m e hm)) :
    u = .finite s m e hm := by
  obtain ⟨t, rfl⟩ | ⟨t, n, f, hn, rfl⟩ := finite_cases hu
  · have hpos := magnitude_pos hm e
    rw [value_zero, value_finite] at h
    cases s <;> simp only [signed] at h <;> linarith
  · have hposm := magnitude_pos hm e
    have hposn := magnitude_pos hn f
    rw [value_finite, value_finite] at h
    obtain ⟨rfl, hmagnitude⟩ : t = s ∧ (n : ℝ) * 2 ^ f = m * 2 ^ e := by
      cases t <;> cases s <;> simp only [signed] at h
      · exact ⟨rfl, neg_injective h⟩
      · linarith
      · linarith
      · exact ⟨rfl, h⟩
    obtain rfl : f = e :=
      le_antisymm (hcv.exponent_le hcu hmagnitude.symm)
        (hcu.exponent_le hcv hmagnitude)
    have hsame : (n : ℝ) = m :=
      mul_right_cancel₀ (zpow_pos two_pos f).ne' hmagnitude
    obtain rfl : n = m := by exact_mod_cast hsame
    rfl

end Rounding

open Rounding

namespace FloatingPoint

variable {α : Type} [Scalar α] [FloatingPoint α] {a b c : α}

/-! ## One -/

section One

variable [UniquelyPacked α]

/-- A rounding of a number of the format is that number, if it is not zero. -/
theorem Rounded.eq_of_toReal {y : ℝ} {x : α} (h : Rounded y x)
    (hc : Scalar.isFinite c = true) (hy : y = toReal c)
    (hnonzero : toReal c ≠ 0) : x = c := by
  rw [← isFinite_unpacked] at hc
  have hfin := (isFinite_unpacked x).trans h.finite
  have hvalue : value (unpacked x) = value (unpacked c) :=
    h.toReal_eq (hy ▸ grid_toReal c) |>.trans hy
  refine eq_of_unpacked ?_
  obtain ⟨s, hzero⟩ | ⟨s, m, e, hm, hfinite⟩ := finite_cases hc
  · exact absurd (congrArg value hzero) hnonzero
  · have hcanonical := canonical_unpacked c
    rw [hfinite] at hcanonical hvalue ⊢
    exact eq_of_value_eq hcanonical hfin (canonical_unpacked x) hvalue

theorem sqrt_one : Scalar.sqrt (1 : α) = 1 := by
  obtain ⟨hfin, hone⟩ := isFinite_one (α := α)
  have hroot := rounded_sqrt hfin (hone ▸ zero_le_one) (by
    rw [hone, Real.sqrt_one]
    exact one_le_pow₀ one_le_two)
  exact hroot.eq_of_toReal hfin (by rw [hone, Real.sqrt_one])
    (by rw [hone]; exact one_ne_zero)

/-- **One is neutral**, for infinities and what is no number as well. -/
protected theorem one_mul (c : α) : 1 * c = c := by
  have hexact : UnpackedFloat.mul (model α) (unpacked (1 : α)) (unpacked c)
      = unpacked c := by
    obtain ⟨m, e, hm, hone, -⟩ := unpacked_one (α := α)
    have hsign : ∀ s : Sign, .positive * s = s := fun s => by cases s <;> rfl
    cases hc : unpacked c with
    | notANumber =>
      rw [hone]
      rfl
    | infinity s =>
      rw [hone]
      exact congrArg UnpackedFloat.infinity (hsign s)
    | zero s =>
      rw [hone]
      exact congrArg UnpackedFloat.zero (hsign s)
    | finite s n f hn =>
      -- the exact product is a number of the format
      have hcanonical := canonical_unpacked c
      have hgrid := grid_toReal c
      rw [toReal, hc] at hgrid
      rw [hc] at hcanonical
      have hrounds := rounds_mul (u := unpacked (1 : α)) (v := .finite s n f hn)
        ((isFinite_unpacked _).trans isFinite_one.1) rfl
        (canonical_unpacked _) hcanonical
      rw [show value (unpacked (1 : α)) = 1 from isFinite_one.2, one_mul]
        at hrounds
      exact eq_of_value_eq hcanonical hrounds.finite hrounds.canonical
        (hrounds.faithful.eq_of_grid hgrid)
  exact eq_of_unpacked (by rw [unpacked_mul, hexact, packed_unpacked])

end One

/-! ## Zero -/

/-- Zero, or no number: what a product with zero can be. -/
def Vanishes (v : α) : Prop :=
  (∃ s, unpacked v = .zero s) ∨ unpacked v = .notANumber

theorem vanishes_zero : Vanishes (0 : α) := .inl ⟨_, unpacked_zero⟩

/-- What vanishes is not positive. -/
theorem Vanishes.not_pos (h : Vanishes a) : ¬ 0 < a := by
  rw [pos_iff]
  rcases h with ⟨s, hu⟩ | hu <;> rw [hu] <;> simp

theorem packed_notANumber : packed α .notANumber = .notANumber :=
  unpack_pack_notANumber

/-- A result vanishes if it is zero or no number before it is packed. -/
theorem vanishes_of_packed {u : UnpackedFloat}
    (hu : (∃ s, u = .zero s) ∨ u = .notANumber)
    (ha : unpacked a = packed α u) : Vanishes a := by
  unfold Vanishes
  rw [ha]
  rcases hu with ⟨s, rfl⟩ | rfl
  · exact .inl ⟨s, packed_zero s⟩
  · exact .inr packed_notANumber

theorem Vanishes.add (ha : Vanishes a) (hb : Vanishes b) :
    Vanishes (a + b) := by
  refine vanishes_of_packed ?_ (unpacked_add a b)
  rcases ha with ⟨s, ha⟩ | ha <;> rcases hb with ⟨t, hb⟩ | hb <;> rw [ha, hb]
  · cases s <;> cases t <;> exact .inl ⟨_, rfl⟩
  · exact .inr rfl
  · exact .inr rfl
  · exact .inr rfl

/-- An operation that takes a zero and anything to zero or to no number,
vanishes at zero. -/
theorem vanishes_of_zero_left
    {op : UnpackedFloat → UnpackedFloat → UnpackedFloat}
    (hop : ∀ s u, (∃ t, op (.zero s) u = .zero t)
      ∨ op (.zero s) u = .notANumber)
    (ha : (a == 0) = true)
    (hc : unpacked c = packed α (op (unpacked a) (unpacked b))) :
    Vanishes c := by
  obtain ⟨s, ha⟩ := beq_zero_iff_unpacked.mp ha
  rw [ha] at hc
  exact vanishes_of_packed (hop s _) hc

/-- A product with zero vanishes, whatever the other factor is. -/
theorem vanishes_zero_mul (ha : (a == 0) = true) (b : α) : Vanishes (a * b) :=
  vanishes_of_zero_left (fun s u => by cases u <;> simp [UnpackedFloat.mul]) ha
    (unpacked_mul a b)

/-- Zero divided by anything vanishes. -/
theorem vanishes_zero_div (ha : (a == 0) = true) (b : α) : Vanishes (a / b) :=
  vanishes_of_zero_left (fun s u => by cases u <;> simp [UnpackedFloat.div]) ha
    (unpacked_div a b)

theorem zero_add_zero (ha : (a == 0) = true) (hb : (b == 0) = true) :
    (a + b == 0) = true := by
  obtain ⟨s, ha⟩ := beq_zero_iff_unpacked.mp ha
  obtain ⟨t, hb⟩ := beq_zero_iff_unpacked.mp hb
  rw [beq_zero_iff_unpacked, unpacked_add, ha, hb]
  cases s <;> cases t <;> exact ⟨_, packed_zero _⟩

theorem zero_mul_of_finite (ha : (a == 0) = true)
    (hb : Scalar.isFinite b = true) :
    (a * b == 0) = true := by
  obtain ⟨s, ha⟩ := beq_zero_iff_unpacked.mp ha
  rw [← isFinite_unpacked] at hb
  rw [beq_zero_iff_unpacked, unpacked_mul, ha]
  obtain ⟨t, hb⟩ | ⟨t, m, e, hm, hb⟩ :=
    finite_cases hb <;> rw [hb] <;> exact ⟨_, packed_zero _⟩

theorem isFinite_of_zero (h : (a == 0) = true) : Scalar.isFinite a = true := by
  obtain ⟨s, h⟩ := beq_zero_iff_unpacked.mp h
  rw [← isFinite_unpacked, h]
  rfl

theorem sqrt_of_zero (h : (a == 0) = true) : (Scalar.sqrt a == 0) = true := by
  obtain ⟨s, h⟩ := beq_zero_iff_unpacked.mp h
  rw [beq_zero_iff_unpacked, unpacked_sqrt, h]
  exact ⟨s, packed_zero s⟩

end FloatingPoint

end Equilibration
