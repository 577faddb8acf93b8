import Equilibration.Proofs.Ranges

/-!
# RelativeErrors — how far a rounded sum is off

One operation is off by at most one unit of the significand, relative to its
exact result, and by the smallest number of the format (`Rounded.abs_sub_le`).
A sum is never off by the latter, since its terms are multiples of that number
(`abs_add_sub_le`). So a sum that is rounded after every step is off by a small
part of the sum of all magnitudes (`foldl_error`).
-/

namespace Equilibration

open Rounding Float.Model

/-! ## One rounding -/

namespace Rounding

variable {F : Format}

/-- Unless the exact result is very small, a faithful rounding is off by less
than one unit of the significand. -/
theorem Faithful.abs_sub_le {y r : ℝ} (h : Faithful F y r) {k : ℤ}
    (hlow : (2 : ℝ) ^ k ≤ y)
    (hk : F.minExponent + F.mantissaBitsWithoutImplicit ≤ k) :
    |r - y| ≤ y / 2 ^ F.mantissaBitsWithoutImplicit := by
  have hypos : 0 < y := (zpow_pos two_pos k).trans_le hlow
  obtain ⟨l, hl, hl'⟩ := exists_mem_Ico_zpow hypos (one_lt_two (α := ℝ))
  have hkl : k < l + 1 :=
    (zpow_lt_zpow_iff_right₀ (one_lt_two (α := ℝ))).mp (hlow.trans_lt hl')
  have ht : (0 : ℝ) < 2 ^ (l - F.mantissaBitsWithoutImplicit) :=
    zpow_pos two_pos _
  have hunit : (2 : ℝ) ^ (l - F.mantissaBitsWithoutImplicit)
      = 2 ^ l / 2 ^ F.mantissaBitsWithoutImplicit := by
    rw [zpow_sub₀ two_ne_zero, zpow_natCast]
  -- the neighbours are multiples of the unit
  generalize hn : ⌊y / 2 ^ (l - F.mantissaBitsWithoutImplicit)⌋₊ = n
  have hbelow : (n : ℝ) * 2 ^ (l - F.mantissaBitsWithoutImplicit) ≤ y := by
    rw [← le_div_iff₀ ht, ← hn]
    exact Nat.floor_le (by positivity)
  have habove :
      y < ((n + 1 : ℕ) : ℝ) * 2 ^ (l - F.mantissaBitsWithoutImplicit) := by
    rw [← div_lt_iff₀ ht, ← hn]
    exact_mod_cast Nat.lt_floor_add_one _
  have hfits : n + 1 ≤ 2 ^ F.mantissaBits := by
    have hlt : (n : ℝ) < (2 ^ F.mantissaBits : ℕ) := by
      have hsplit : (2 : ℝ) ^ (l + 1)
          = (2 ^ F.mantissaBits : ℕ)
            * 2 ^ (l - F.mantissaBitsWithoutImplicit) := by
        rw [Nat.cast_pow, Nat.cast_two, ← zpow_natCast, ← zpow_add₀ two_ne_zero,
          mantissaBits_eq]
        congr 1
        push_cast
        ring
      have := hbelow.trans_lt hl'
      rw [hsplit] at this
      exact lt_of_mul_lt_mul_right this ht.le
    exact_mod_cast hlt
  have hlow' := h.le_of_le (grid_natCast_mul (by omega) (by omega)) hbelow
  have hhigh' := h.ge_of_ge (grid_natCast_mul hfits (by omega)) habove.le
  push_cast at habove hhigh'
  have hstep : |r - y| ≤ 2 ^ (l - F.mantissaBitsWithoutImplicit) := by
    rw [abs_le]
    constructor <;> linarith
  rw [hunit] at hstep
  exact hstep.trans (div_le_div_of_nonneg_right hl (by positivity))

/-- A faithful rounding of a multiple of the smallest number of the format. -/
theorem Faithful.abs_sub_le_of_multiple {y r : ℝ} (h : Faithful F y r) {k : ℤ}
    (hy : y = k * (2 : ℝ) ^ F.minExponent) :
    |r - y| ≤ |y| / 2 ^ F.mantissaBitsWithoutImplicit := by
  by_cases hk : |k| ≤ 2 ^ F.mantissaBits
  · -- such a multiple is a number of the format
    rw [h.eq_of_grid ⟨k, _, hk, le_rfl, hy⟩, sub_self, abs_zero]
    positivity
  · have hlow : (2 : ℝ) ^ (F.minExponent + F.mantissaBits) ≤ |y| := by
      have hkR : ((2 : ℝ) ^ F.mantissaBits) ≤ |(k : ℝ)| := by
        exact_mod_cast (not_le.mp hk).le
      rw [hy, abs_mul, abs_of_pos (a := (2 : ℝ) ^ F.minExponent)
        (zpow_pos two_pos _), zpow_add₀ two_ne_zero, zpow_natCast, mul_comm]
      exact mul_le_mul_of_nonneg_right hkR (zpow_pos two_pos _).le
    have hbits := mantissaBits_eq F
    rcases le_total 0 y with hpos | hneg
    · rw [abs_of_nonneg hpos] at hlow ⊢
      exact h.abs_sub_le hlow (by omega)
    · rw [abs_of_nonpos hneg] at hlow ⊢
      have := h.neg.abs_sub_le hlow (by omega)
      rwa [← neg_sub', abs_neg] at this

/-- Any faithful rounding. -/
theorem Faithful.abs_sub_le_add {y r : ℝ} (h : Faithful F y r) :
    |r - y|
      ≤ |y| / 2 ^ F.mantissaBitsWithoutImplicit + (2 : ℝ) ^ F.minExponent := by
  wlog hpos : 0 ≤ y generalizing y r with hwlog
  · have := hwlog h.neg (by linarith)
    rwa [abs_neg, ← neg_sub', abs_neg] at this
  · have hω : (0 : ℝ) < 2 ^ F.minExponent := zpow_pos two_pos _
    rw [abs_of_nonneg hpos]
    by_cases hlow :
        (2 : ℝ) ^ (F.minExponent + F.mantissaBitsWithoutImplicit) ≤ y
    · exact (h.abs_sub_le hlow le_rfl).trans (le_add_of_nonneg_right hω.le)
    · -- the neighbours are multiples of the smallest number
      generalize hn : ⌊y / 2 ^ F.minExponent⌋₊ = n
      have hbelow : (n : ℝ) * 2 ^ F.minExponent ≤ y := by
        rw [← le_div_iff₀ hω, ← hn]
        exact Nat.floor_le (by positivity)
      have habove : y < ((n + 1 : ℕ) : ℝ) * 2 ^ F.minExponent := by
        rw [← div_lt_iff₀ hω, ← hn]
        exact_mod_cast Nat.lt_floor_add_one _
      have hfits : n < 2 ^ F.mantissaBitsWithoutImplicit := by
        have := hbelow.trans_lt (not_le.mp hlow)
        rw [zpow_add₀ two_ne_zero, mul_comm ((2 : ℝ) ^ F.minExponent),
          zpow_natCast] at this
        exact_mod_cast lt_of_mul_lt_mul_right this hω.le
      have hbits : 2 ^ F.mantissaBitsWithoutImplicit ≤ 2 ^ F.mantissaBits :=
        Nat.pow_le_pow_right two_pos ((mantissaBits_eq F).symm ▸ Nat.le_succ _)
      have hlow' := h.le_of_le (grid_natCast_mul (by omega) le_rfl) hbelow
      have hhigh' := h.ge_of_ge (grid_natCast_mul (by omega) le_rfl) habove.le
      push_cast at habove hhigh'
      have hstep : |r - y| ≤ 2 ^ F.minExponent := by
        rw [abs_le]
        constructor <;> linarith
      exact hstep.trans (le_add_of_nonneg_left (by positivity))

/-- The numbers of a format are multiples of the smallest one. -/
theorem Grid.exists_multiple {g : ℝ} (h : Grid F g) :
    ∃ k : ℤ, g = k * (2 : ℝ) ^ F.minExponent := by
  obtain ⟨k, b, -, hb, rfl⟩ := h
  obtain ⟨n, rfl⟩ := Int.le.dest hb
  refine ⟨k * 2 ^ n, ?_⟩
  rw [zpow_add₀ two_ne_zero, zpow_natCast]
  push_cast
  ring

end Rounding

namespace FloatingPoint

variable (α : Type) [Scalar α] [FloatingPoint α]

/-- One unit of the significand, relative to the smallest significand. -/
noncomputable def roundoff : ℝ :=
  ((2 ^ (model α).mantissaBitsWithoutImplicit : ℕ) : ℝ)⁻¹

/-- The smallest positive number of the format. -/
noncomputable def smallest : ℝ := ((2 : ℕ) : ℝ) ^ (model α).minExponent

theorem roundoff_eq :
    roundoff α = (2 : ℝ) ^ (1 - (model α).mantissaBits : ℤ) := by
  rw [roundoff, mantissaBits_eq, Nat.cast_pow, Nat.cast_ofNat, ← zpow_natCast,
    ← zpow_neg]
  congr 1
  push_cast
  ring

theorem smallest_eq : smallest α = (2 : ℝ) ^ (model α).minExponent := by
  rw [smallest, Nat.cast_ofNat]

theorem roundoff_nonneg : 0 ≤ roundoff α := by
  rw [roundoff_eq]
  positivity

theorem smallest_pos : 0 < smallest α := by
  rw [smallest_eq]
  positivity

theorem roundoff_mul (y : ℝ) :
    roundoff α * y = y / 2 ^ (model α).mantissaBitsWithoutImplicit := by
  rw [roundoff, Nat.cast_pow, Nat.cast_ofNat, inv_mul_eq_div]

variable {α}

theorem Rounded.abs_sub_le {y : ℝ} {x : α} (h : Rounded y x) :
    |toReal x - y| ≤ roundoff α * |y| + smallest α := by
  rw [roundoff_mul, smallest_eq]
  exact h.faithful.abs_sub_le_add

/-- A sum of two numbers is not off by the smallest number. -/
theorem abs_add_sub_le {a b : α} (ha : Scalar.isFinite a = true)
    (hb : Scalar.isFinite b = true)
    (h : |toReal a + toReal b| ≤ 2 ^ (model α).exponentBias) :
    |toReal (a + b) - (toReal a + toReal b)|
      ≤ roundoff α * |toReal a + toReal b| := by
  obtain ⟨k, hk⟩ := (grid_toReal a).exists_multiple
  obtain ⟨l, hl⟩ := (grid_toReal b).exists_multiple
  rw [roundoff_mul]
  refine (rounded_add ha hb h).faithful.abs_sub_le_of_multiple (k := k + l) ?_
  rw [hk, hl]
  push_cast
  ring

/-! ## Sums of products -/

/-- Adding up from left to right is off by a part of the sum of all
magnitudes, which grows with the number of terms. -/
theorem foldl_error {l : List α} {b : ℤ} {m : ℕ} (hl : ∀ t ∈ l, Within b 1 t)
    {acc : α} (hacc : Within b m acc)
    (hrep : Representable α b (m + l.length)) :
    |toReal (l.foldl (· + ·) acc) - (toReal acc + (l.map toReal).sum)|
      ≤ ((1 + roundoff α) ^ l.length - 1)
        * (|toReal acc| + (l.map fun t => |toReal t|).sum) := by
  induction l generalizing acc m with
  | nil => simp
  | cons t l ih =>
    have hu := roundoff_nonneg α
    have hlen : m + (t :: l).length = m + 1 + l.length := by
      rw [List.length_cons]
      omega
    rw [hlen] at hrep
    have ht := hl t List.mem_cons_self
    have hfits := hrep.mono (Nat.le_add_right (m + 1) l.length)
    have hstep := abs_add_sub_le hacc.finite ht.finite (by
      refine le_trans ?_ hfits.bounded
      push_cast
      rw [add_mul]
      have := ht.le
      rw [Nat.cast_one] at this
      exact (abs_add_le _ _).trans (add_le_add hacc.le this))
    have hrest :=
      ih (fun u hu => hl u (List.mem_cons_of_mem t hu)) (hacc.add ht hfits) hrep
    have hsum := abs_add_le (toReal acc) (toReal t)
    have hnew : |toReal (acc + t)|
        ≤ (1 + roundoff α) * (|toReal acc| + |toReal t|) := by
      have := abs_sub_abs_le_abs_sub (toReal (acc + t)) (toReal acc + toReal t)
      nlinarith [mul_le_mul_of_nonneg_left hsum hu]
    have hmass : 0 ≤ (l.map fun t => |toReal t|).sum := by
      apply List.sum_nonneg
      intro a ha
      obtain ⟨t, -, rfl⟩ := List.mem_map.mp ha
      exact abs_nonneg _
    have hgrowth : 0 ≤ (1 + roundoff α) ^ l.length - 1 :=
      sub_nonneg.mpr (one_le_pow₀ (by linarith))
    rw [List.foldl_cons, List.map_cons, List.sum_cons, List.map_cons,
      List.sum_cons, List.length_cons, pow_succ]
    -- the new error, and the old terms as the rest of the loop sees them
    calc |toReal (l.foldl (· + ·) (acc + t))
           - (toReal acc + (toReal t + (l.map toReal).sum))|
        = |(toReal (l.foldl (· + ·) (acc + t))
          - (toReal (acc + t) + (l.map toReal).sum))
            + (toReal (acc + t) - (toReal acc + toReal t))| := by ring_nf
      _ ≤ ((1 + roundoff α) ^ l.length - 1)
              * ((1 + roundoff α) * (|toReal acc| + |toReal t|)
                + (1 + roundoff α) * (l.map fun t => |toReal t|).sum)
            + roundoff α * (|toReal acc|
              + (|toReal t| + (l.map fun t => |toReal t|).sum)) := by
          refine (abs_add_le _ _).trans
            (add_le_add (hrest.trans ?_) (hstep.trans ?_))
          · refine mul_le_mul_of_nonneg_left (add_le_add hnew ?_) hgrowth
            nlinarith
          · exact mul_le_mul_of_nonneg_left (by linarith) hu
      _ = _ := by ring

/-- Terms that are off a little each. -/
theorem sum_error {β : Type} {s : List β} {f g : β → ℝ} {u ω : ℝ}
    (h : ∀ e ∈ s, |f e - g e| ≤ u * |g e| + ω) :
    |(s.map f).sum - (s.map g).sum|
      ≤ u * (s.map fun e => |g e|).sum + s.length * ω
      ∧ (s.map fun e => |f e|).sum
        ≤ (1 + u) * (s.map fun e => |g e|).sum + s.length * ω := by
  induction s with
  | nil => simp
  | cons e s ih =>
    obtain ⟨hdiff, hmass⟩ := ih fun e he => h e (List.mem_cons_of_mem _ he)
    have hterm := h e List.mem_cons_self
    have hsize := abs_sub_abs_le_abs_sub (f e) (g e)
    simp only [List.map_cons, List.sum_cons, List.length_cons]
    push_cast
    constructor
    · calc |f e + (s.map f).sum - (g e + (s.map g).sum)|
          = |(f e - g e) + ((s.map f).sum - (s.map g).sum)| := by ring_nf
        _ ≤ _ := (abs_add_le _ _).trans (by linarith)
    · linarith

/-- Rounding factors multiply up to hardly more than their sum. -/
theorem pow_le_one_add {u : ℝ} (hu : 0 ≤ u) {n : ℕ} (h : n * u ≤ 1 / 2) :
    (1 + u) ^ n ≤ 1 + 2 * (n * u) := by
  induction n with
  | zero => simp
  | succ n ih =>
    push_cast at h ⊢
    have hn : n * u ≤ 1 / 2 := by linarith
    have hnu : 0 ≤ (n : ℝ) * u := mul_nonneg (Nat.cast_nonneg n) hu
    rw [pow_succ]
    calc (1 + u) ^ n * (1 + u) ≤ (1 + 2 * (n * u)) * (1 + u) :=
          mul_le_mul_of_nonneg_right (ih hn) (by linarith)
      _ ≤ 1 + 2 * ((n + 1) * u) := by nlinarith

theorem two_pow_mul_roundoff {q : ℕ} (hq : q + 2 ≤ (model α).mantissaBits) :
    2 ^ q * roundoff α ≤ 1 / 2 := by
  rw [roundoff_eq, ← zpow_natCast, ← zpow_add₀ two_ne_zero, one_div,
    ← zpow_neg_one]
  exact zpow_le_zpow.mpr (by omega)

end FloatingPoint

end Equilibration
