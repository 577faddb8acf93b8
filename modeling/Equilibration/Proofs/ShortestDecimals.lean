import Equilibration.Decimal.Shortest
import Equilibration.Proofs.NearestNumbers
import Equilibration.Proofs.WrittenNumbers

/-!
# ShortestDecimals — which decimal is written for a number

The decimal that is written lies in the interval of its number, and on its
grid no other point of the interval is closer (`Closest`). It is found before
the grids run out, since a grid without a point in the interval has at least
half the spacing of the numbers (`gridPoint?_eq_none`). For the same reason
the coefficient is not much larger than the significand.
-/

namespace Equilibration

open Binary

namespace Decimal

/-! ## Exponents -/

theorem exponent10_spec {r : Ratio} (hnum : r.num ≠ 0) :
    (10 : ℝ) ^ r.exponent10 ≤ r.real
      ∧ r.real < (10 : ℝ) ^ (r.exponent10 + 1) := by
  have hpred : ∀ n : ℕ, (digits n).length - 1 + 1 = (digits n).length :=
    fun n => Nat.succ_pred_eq_of_pos (length_digits_pos n)
  have h := Ratio.real_bounds Ratio.ten_pos (pow_length_digits_le hnum)
    (by rw [hpred]; exact lt_pow_length_digits _)
    (pow_length_digits_le r.den_pos.ne')
    (by rw [hpred]; exact lt_pow_length_digits _)
  have hguess :
      (((digits r.num).length - 1 : ℕ) : ℤ) - ((digits r.den).length - 1 : ℕ)
        = (digits r.num).length - (digits r.den).length := by
    have := hpred r.num
    have := hpred r.den
    omega
  rw [hguess] at h
  have hspec := Ratio.exponentFrom_spec Ratio.ten_pos h.1 h.2
  rw [Nat.cast_ofNat] at hspec
  exact hspec

/-! ## Points of a grid -/

/-- `c * 10 ^ k` rounds to the number, the number lies between its two
neighbours on the grid, and no other point of the grid that rounds to the
number is closer. -/
structure Closest (f : Format) (s : ℕ) (e : ℤ) (c : ℕ) (k : ℤ) : Prop where
  captured : f.Captures s e (c * (10 : ℝ) ^ k)
  pred_le : (c - 1) * (10 : ℝ) ^ k ≤ s * 2 ^ e
  lt_succ : (s : ℝ) * 2 ^ e < (c + 1) * 10 ^ k
  closest {c' : ℕ} : f.Captures s e (c' * (10 : ℝ) ^ k) →
    |c * (10 : ℝ) ^ k - s * 2 ^ e| ≤ |c' * (10 : ℝ) ^ k - s * 2 ^ e|

namespace Rounding

variable {f : Format} {s : ℕ} {e : ℤ}

section Points

variable (f s e) (c : ℕ) (k : ℤ)

theorem real_point : ((Ratio.ofNat c).shift 10 k).real = c * (10 : ℝ) ^ k := by
  rw [Ratio.real_shift, Ratio.real_ofNat, Nat.cast_ofNat]

theorem real_quarters (n : ℕ) :
    ((Ratio.ofNat n).shift 2 (e - 2)).real = n * (2 : ℝ) ^ (e - 2) := by
  rw [Ratio.real_shift, Ratio.real_ofNat, Nat.cast_ofNat]

theorem real_value : (ofFinite f s e).value.real = s * (2 : ℝ) ^ e := by
  show ((Ratio.ofNat (4 * s)).shift 2 (e - 2)).real = _
  rw [real_quarters, Format.two_zpow_sub_two]
  push_cast
  ring

/-- The interval that is searched is the one of the number. -/
theorem contains_ofFinite :
    (ofFinite f s e).contains c k = true
      ↔ f.Captures s e (c * (10 : ℝ) ^ k) := by
  have hbelow :
      (ofFinite f s e).below.real = f.lowQuarters s e * (2 : ℝ) ^ (e - 2) :=
    real_quarters _ _
  have habove :
      (ofFinite f s e).above.real = (4 * s + 2 : ℕ) * (2 : ℝ) ^ (e - 2) :=
    real_quarters _ _
  have hclosed : (ofFinite f s e).closed = (s % 2 == 0) := rfl
  unfold contains
  dsimp only
  rw [hclosed]
  split
  · next heven =>
    rw [Bool.and_eq_true, Ratio.le_iff, Ratio.le_iff, hbelow, habove,
      real_point]
    rw [beq_iff_eq] at heven
    exact ⟨fun h => ⟨h.1, h.2, fun hodd => by omega⟩, fun h =>
      ⟨h.lower, h.upper⟩⟩
  · next hodd =>
    rw [Bool.and_eq_true, Ratio.lt_iff, Ratio.lt_iff, hbelow, habove,
      real_point]
    rw [beq_iff_eq] at hodd
    exact ⟨fun h => ⟨h.1.le, h.2.le, fun _ => h⟩, fun h =>
      h.strict (Nat.mod_two_ne_zero.mp hodd)⟩

end Points

section Grid

variable {c : ℕ} {k : ℤ}

/-- The number in units of the grid. -/
theorem real_scaled_value :
    ((ofFinite f s e).value.shift 10 (-k)).real = s * (2 : ℝ) ^ e / 10 ^ k := by
  rw [Ratio.real_shift, real_value, Nat.cast_ofNat, zpow_neg, div_eq_mul_inv]

theorem distance_eq (c : ℕ) :
    |c * (10 : ℝ) ^ k - s * 2 ^ e|
      = |c - s * (2 : ℝ) ^ e / 10 ^ k| * 10 ^ k := by
  have hpos : (0 : ℝ) < 10 ^ k := zpow_pos (by norm_num) k
  rw [← abs_of_pos hpos, ← abs_mul, sub_mul, abs_of_pos hpos,
    div_mul_cancel₀ _ hpos.ne']

/-- Every point but the two next to the number is at least one unit away, so
it is enough to be as close as these. -/
theorem closest_of_next {n : ℕ} (hn : (n : ℝ) ≤ s * 2 ^ e / 10 ^ k)
    (hn' : (s : ℝ) * 2 ^ e / 10 ^ k < n + 1) (hc : c = n ∨ c = n + 1)
    (hcaptured : (ofFinite f s e).contains c k = true)
    (hclosest : ∀ c' : ℕ, (c' = n ∨ c' = n + 1) →
      (ofFinite f s e).contains c' k = true →
      |(c : ℝ) - s * 2 ^ e / 10 ^ k| ≤ |(c' : ℝ) - s * 2 ^ e / 10 ^ k|) :
    Closest f s e c k := by
  have hpos : (0 : ℝ) < 10 ^ k := zpow_pos (by norm_num) k
  have hvalue : (s : ℝ) * 2 ^ e = s * 2 ^ e / 10 ^ k * 10 ^ k :=
    (div_mul_cancel₀ _ hpos.ne').symm
  have hnear :
      (c : ℝ) - 1 ≤ s * 2 ^ e / 10 ^ k ∧ (s : ℝ) * 2 ^ e / 10 ^ k < c + 1
        ∧ |(c : ℝ) - s * 2 ^ e / 10 ^ k| ≤ 1 := by
    rcases hc with rfl | rfl
    · refine ⟨by linarith, hn', ?_⟩
      rw [abs_of_nonpos (by linarith)]
      linarith
    · push_cast
      refine ⟨by linarith, by linarith, ?_⟩
      rw [abs_of_nonneg (by linarith)]
      linarith
  refine ⟨(contains_ofFinite f s e c k).mp hcaptured, ?_, ?_, ?_⟩
  · rw [hvalue]
    exact mul_le_mul_of_nonneg_right hnear.1 hpos.le
  · rw [hvalue]
    exact mul_lt_mul_of_pos_right hnear.2.1 hpos
  · intro c' hc'
    rw [distance_eq, distance_eq]
    refine mul_le_mul_of_nonneg_right ?_ hpos.le
    by_cases hnext : c' = n ∨ c' = n + 1
    · exact hclosest c' hnext ((contains_ofFinite f s e c' k).mpr hc')
    · rw [not_or] at hnext
      refine hnear.2.2.trans ?_
      rcases Nat.lt_or_gt_of_ne hnext.1 with hlt | hgt
      · have : (c' : ℝ) + 1 ≤ n := by exact_mod_cast hlt
        rw [abs_of_nonpos (by linarith)]
        linarith
      · have hle : n + 2 ≤ c' := by omega
        have : (n : ℝ) + 2 ≤ c' := by exact_mod_cast hle
        rw [abs_of_nonneg (by linarith)]
        linarith

/-- Of two neighbours the nearest whole number is the closer one. -/
theorem closer_of_nearest {z : ℝ} {n m : ℕ} (hn : (n : ℝ) ≤ z) (hn' : z < n + 1)
    (hm : |z - m| ≤ 1 / 2) :
    (m = n ∨ m = n + 1) ∧ ∀ c', (c' = n ∨ c' = n + 1) →
    |(m : ℝ) - z| ≤ |(c' : ℝ) - z| := by
  have hm' := abs_le.mp hm
  have hcases : m = n ∨ m = n + 1 := by
    have hlow : (n : ℝ) < m + 1 := by linarith
    have hhigh : (m : ℝ) < n + 2 := by linarith
    have : n < m + 1 := by exact_mod_cast hlow
    have : m < n + 2 := by exact_mod_cast hhigh
    omega
  refine ⟨hcases, ?_⟩
  rintro c' hc'
  rw [abs_sub_comm] at hm
  rcases hc' with rfl | rfl <;> rcases hcases with rfl | rfl
  · exact le_rfl
  · push_cast at *
    exact hm.trans (by rw [abs_of_nonpos (by linarith)]; linarith)
  · push_cast
    exact hm.trans (by rw [abs_of_nonneg (by linarith)]; linarith)
  · exact le_rfl

/-- A point that is found is the closest one. -/
theorem closest_of_gridPoint? (h : (ofFinite f s e).gridPoint? k = some c) :
    Closest f s e c k := by
  have hfloor := ((ofFinite f s e).value.shift 10 (-k)).floor_le
  have hceil := ((ofFinite f s e).value.shift 10 (-k)).lt_floor_add_one
  have hnearest := ((ofFinite f s e).value.shift 10 (-k)).nearest_real.near
  rw [real_scaled_value] at hfloor hceil hnearest
  unfold gridPoint? at h
  dsimp only at h
  generalize ((ofFinite f s e).value.shift 10 (-k)).floor = n at *
  split at h
  · next hn hn' =>
    obtain ⟨hcases, hcloser⟩ := closer_of_nearest hfloor hceil hnearest
    cases h
    refine closest_of_next hfloor hceil hcases ?_ fun c' hc' _ => hcloser c' hc'
    rcases hcases with hm | hm <;> rw [hm] <;> assumption
  · next hn hn' =>
    cases h
    refine closest_of_next hfloor hceil (.inl rfl) hn ?_
    rintro c' (rfl | rfl) hc'
    · exact le_rfl
    · simp [hn'] at hc'
  · next hn hn' =>
    cases h
    refine closest_of_next hfloor hceil (.inr rfl) hn' ?_
    rintro c' (rfl | rfl) hc'
    · simp [hn] at hc'
    · exact le_rfl
  · cases h

/-- A grid without a point is not finer than half a unit. -/
theorem gridPoint?_eq_none (hs : 0 < s)
    (h : (ofFinite f s e).gridPoint? k = none) :
    (2 : ℝ) ^ e / 2 ≤ 10 ^ k := by
  have hpos : (0 : ℝ) < 10 ^ k := zpow_pos (by norm_num) k
  have hfloor := ((ofFinite f s e).value.shift 10 (-k)).floor_le
  have hceil := ((ofFinite f s e).value.shift 10 (-k)).lt_floor_add_one
  rw [real_scaled_value] at hfloor hceil
  unfold gridPoint? at h
  dsimp only at h
  generalize ((ofFinite f s e).value.shift 10 (-k)).floor = n at *
  have hnot : ¬ f.Captures s e ((n + 1 : ℕ) * (10 : ℝ) ^ k) := by
    rw [← contains_ofFinite]
    intro hn'
    rw [hn'] at h
    split at h <;> simp_all
  by_contra hfine
  rw [not_le] at hfine
  rw [le_div_iff₀ hpos] at hfloor
  rw [div_lt_iff₀ hpos] at hceil
  refine hnot (Format.captures_of_lt hs ?_ ?_)
  · push_cast
    exact hceil.le
  · rw [Format.two_zpow_sub_two]
    push_cast
    linarith

end Grid

/-- If one of the grids has a point, then the one that is taken has, and the
grid before it has none. -/
theorem coarsest_spec (r : Rounding) {budget : ℕ} {k : ℤ} {n : ℕ}
    (hn : n < budget) (h : r.gridPoint? (k - n) ≠ none) :
    r.gridPoint? (r.coarsest budget k).exponent
      = some (r.coarsest budget k).coefficient
      ∧ ((r.coarsest budget k).exponent = k
        ∨ r.gridPoint? ((r.coarsest budget k).exponent + 1) = none) := by
  induction budget generalizing k n with
  | zero => exact absurd hn (Nat.not_lt_zero n)
  | succ budget ih =>
    unfold coarsest
    split
    · next c hc => exact ⟨hc, .inl rfl⟩
    · next hnone =>
      obtain ⟨m, rfl⟩ : ∃ m, n = m + 1 := by
        refine Nat.exists_eq_succ_of_ne_zero ?_
        rintro rfl
        exact h (by simpa using hnone)
      have hshift : k - 1 - (m : ℤ) = k - (m + 1 : ℕ) := by
        push_cast
        ring
      obtain ⟨hpoint, hbefore⟩ :=
        ih (k := k - 1) (n := m) (by omega) (by rwa [hshift])
      refine ⟨hpoint, .inr ?_⟩
      rcases hbefore with hstart | hbefore
      · rw [hstart, sub_add_cancel]
        exact hnone
      · exact hbefore

end Rounding

/-! ## The decimal that is written -/

/-- There are more grids than it takes to get below the spacing of the
numbers. -/
def FineGrids (f : Format) : Prop :=
  2 ^ (f.fractionBits + 2) ≤ 10 ^ (f.fractionBits - 2)

theorem fineGrids_binary64 : FineGrids .binary64 := by
  show 2 ^ 54 ≤ 10 ^ 50
  norm_num

theorem fineGrids_binary32 : FineGrids .binary32 := by
  show 2 ^ 25 ≤ 10 ^ 21
  norm_num

section Shortest

variable {f : Format} (hf : FineGrids f) {s : ℕ} (hs : 0 < s)
  (hfits : s < 2 * f.binade) {e : ℤ}

include hf hs hfits

/-- The search ends at a point of a grid, the first or one after a grid
without a point. -/
theorem shortest_spec :
    (Rounding.ofFinite f s e).gridPoint? (shortest f s e).exponent
        = some (shortest f s e).coefficient
      ∧ ((shortest f s e).exponent
        = (Rounding.ofFinite f s e).value.exponent10 + 1
        ∨ (Rounding.ofFinite f s e).gridPoint? ((shortest f s e).exponent + 1)
          = none) := by
  have hbits : 2 ≤ f.fractionBits := by
    by_contra hlt
    unfold FineGrids at hf
    rw [Nat.sub_eq_zero_of_le (by omega), pow_zero] at hf
    have := Nat.one_lt_two_pow (n := f.fractionBits + 2) (by omega)
    omega
  refine Rounding.coarsest_spec _ (n := f.fractionBits - 1)
    (by omega) fun hnone => ?_
  have hreal := Rounding.real_value f s e
  have hunit : (0 : ℝ) < 2 ^ e := zpow_pos two_pos e
  have hnum : (Rounding.ofFinite f s e).value.num ≠ 0 :=
    (Nat.mul_pos (Nat.mul_pos four_pos hs) (Nat.pow_pos two_pos)).ne'
  have hlow := (exponent10_spec hnum).1
  have hcoarse := Rounding.gridPoint?_eq_none hs hnone
  generalize (Rounding.ofFinite f s e).value.exponent10 = k at *
  rw [hreal] at hlow
  -- the last grid is finer than half a unit
  have hsplit : (10 : ℝ) ^ (k + 1 - ((f.fractionBits - 1 : ℕ) : ℤ))
      * 10 ^ (f.fractionBits - 2)
      = 10 ^ k := by
    rw [← zpow_natCast, ← zpow_add₀ (by norm_num)]
    congr 1
    omega
  have hfitsR : (s : ℝ) < 2 ^ (f.fractionBits + 1) := by
    have : (s : ℝ) < 2 * f.binade := by exact_mod_cast hfits
    rwa [Format.cast_binade, mul_comm, ← pow_succ] at this
  have hfR : (2 : ℝ) ^ (f.fractionBits + 2) ≤ 10 ^ (f.fractionBits - 2) := by
    exact_mod_cast hf
  have hstep : (2 : ℝ) ^ e / 2 * 2 ^ (f.fractionBits + 2) ≤ 10 ^ k := by
    rw [← hsplit]
    exact mul_le_mul hcoarse hfR (by positivity) (zpow_pos (by norm_num) _).le
  have hgt : (s : ℝ) * 2 ^ e < 2 ^ (f.fractionBits + 1) * 2 ^ e :=
    mul_lt_mul_of_pos_right hfitsR hunit
  have hpow :
      (2 : ℝ) ^ (f.fractionBits + 2) = 2 * 2 ^ (f.fractionBits + 1) := by
    rw [pow_succ' _ (f.fractionBits + 1)]
  rw [hpow] at hstep
  linarith

/-- **The decimal that is written for a number** is the closest on its
grid. -/
theorem closest_shortest :
    Closest f s e (shortest f s e).coefficient (shortest f s e).exponent :=
  Rounding.closest_of_gridPoint? (shortest_spec hf hs hfits).1

theorem coefficient_shortest_ne_zero : (shortest f s e).coefficient ≠ 0 :=
  ((closest_shortest hf hs hfits).captured.coefficient_pos hs).ne'

/-- The grid is not much finer than the spacing of the numbers. -/
theorem unit_le_shortest :
    (2 : ℝ) ^ e ≤ 20 * 10 ^ (shortest f s e).exponent := by
  have hpos : (0 : ℝ) < 10 ^ (shortest f s e).exponent :=
    zpow_pos (by norm_num) _
  rcases (shortest_spec (e := e) hf hs hfits).2 with hstart | hnone
  · -- the first grid is coarser than the number is large
    have hnum : (Rounding.ofFinite f s e).value.num ≠ 0 :=
      (Nat.mul_pos (Nat.mul_pos four_pos hs) (Nat.pow_pos two_pos)).ne'
    have hhigh := (exponent10_spec hnum).2
    rw [← hstart, Rounding.real_value] at hhigh
    have hunit : (2 : ℝ) ^ e ≤ s * 2 ^ e :=
      le_mul_of_one_le_left (zpow_pos two_pos e).le (by exact_mod_cast hs)
    linarith
  · have hcoarse := Rounding.gridPoint?_eq_none hs hnone
    rw [zpow_add_one₀ (by norm_num)] at hcoarse
    linarith

/-- The coefficient has a few bits more than the significand. -/
theorem coefficient_shortest_le :
    (shortest f s e).coefficient ≤ 20 * s + 1 := by
  have hpos : (0 : ℝ) < 10 ^ (shortest f s e).exponent :=
    zpow_pos (by norm_num) _
  have hlt :
      ((shortest f s e).coefficient - 1 : ℝ) * 10 ^ (shortest f s e).exponent
        ≤ 20 * s * 10 ^ (shortest f s e).exponent :=
    calc ((shortest f s e).coefficient - 1 : ℝ) * 10 ^ (shortest f s e).exponent
        ≤ s * 2 ^ e := (closest_shortest hf hs hfits).pred_le
      _ ≤ s * (20 * 10 ^ (shortest f s e).exponent) :=
        mul_le_mul_of_nonneg_left (unit_le_shortest hf hs hfits)
          (Nat.cast_nonneg s)
      _ = 20 * s * 10 ^ (shortest f s e).exponent := by ring
  have hle := le_of_mul_le_mul_right hlt hpos
  have : ((shortest f s e).coefficient : ℝ) ≤ (20 * s + 1 : ℕ) := by
    push_cast
    linarith
  exact_mod_cast this

end Shortest

end Decimal

end Equilibration
