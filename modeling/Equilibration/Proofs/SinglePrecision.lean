import Equilibration.Proofs.PowersApart
import Equilibration.Proofs.Rereading

/-!
# SinglePrecision — every number of single precision comes back

A decimal is rounded twice on its way to single precision: to a double and
then to a single. Both roundings together go wrong only if the double is an
end of the interval of a number, or beyond, and the decimal is not. A decimal
that is the closest on its grid and that close to an end has a grid as coarse
as the numbers (`halfExponent_le_of_near`), and then it is either equal to the
end, and the double is exact, or too far away for a double to reach
(`captures_of_close`). The one decimal for which this is not so is read as the
double just below the end.
-/

namespace Equilibration

open Rounding FloatingPoint Decimal
open Binary (Format)

namespace Decimal

variable {s : ℕ} {e : ℤ}

/-! ## Ends of intervals -/

/-- The ends of the interval of a number. -/
inductive IsEnd (f : Format) (s : ℕ) (e : ℤ) : ℝ → Prop
  | low : IsEnd f s e (f.lowQuarters s e * 2 ^ (e - 2))
  | high : IsEnd f s e ((4 * s + 2 : ℕ) * 2 ^ (e - 2))

/-- The exponent in which both ends of the interval of a number are whole. -/
def halfExponent (f : Format) (s : ℕ) (e : ℤ) : ℤ :=
  if f.firstOfBinade s e then e - 2 else e - 1

section Ends

variable (hs : 0 < s) (hc : Format.binary32.Canonical s e)

include hs hc

theorem IsEnd.eq_whole {M : ℝ} (hM : IsEnd .binary32 s e M) :
    ∃ W, 0 < W ∧ W ≤ largestNumerator
      ∧ M = W * 2 ^ halfExponent .binary32 s e := by
  have hfits : s < 2 ^ 24 := hc.fits
  have hhalf : (2 : ℝ) ^ (e - 1) = 2 * 2 ^ (e - 2) := by
    rw [← zpow_one_add₀ two_ne_zero]
    congr 1
    ring
  unfold halfExponent largestNumerator
  cases hM with
  | low =>
    unfold Format.lowQuarters
    split
    · next hfirst =>
      have hbinade : s = 2 ^ 23 := Format.eq_binade_of_first hfirst
      exact ⟨4 * s - 1, by omega, by omega, rfl⟩
    · refine ⟨2 * s - 1, by omega, by omega, ?_⟩
      rw [hhalf, ← mul_assoc]
      congr 1
      have : 4 * s - 2 = (2 * s - 1) * 2 := by omega
      exact_mod_cast this
  | high =>
    split
    · next hfirst =>
      have hbinade : s = 2 ^ 23 := Format.eq_binade_of_first hfirst
      exact ⟨4 * s + 2, by omega, by omega, rfl⟩
    · refine ⟨2 * s + 1, by omega, by omega, ?_⟩
      rw [hhalf, ← mul_assoc]
      congr 1
      push_cast
      ring

omit hc in
/-- The ends are a half away on the lower side and at least as far on the
upper one. -/
theorem ends_eq : Format.binary32.lowQuarters s e * (2 : ℝ) ^ (e - 2)
      = s * 2 ^ e - 2 ^ halfExponent .binary32 s e
    ∧ s * (2 : ℝ) ^ e + 2 ^ halfExponent .binary32 s e
      ≤ (4 * s + 2 : ℕ) * 2 ^ (e - 2) := by
  have hpos : (0 : ℝ) < 2 ^ e := zpow_pos two_pos e
  have hhalf : (2 : ℝ) ^ (e - 1) = 2 ^ e / 2 := zpow_sub_one₀ two_ne_zero e
  rw [Format.cast_lowQuarters hs, Format.two_zpow_sub_two]
  unfold halfExponent
  push_cast
  split
  · rw [Format.two_zpow_sub_two]
    constructor <;> linarith
  · rw [hhalf]
    constructor <;> linarith

omit hc in
/-- The points of a grid are nearly as far apart as the ends of an interval if
its closest point is near to an end: the next point of the grid is closer to
the number or beyond the other end. -/
theorem coarse_of_near {c : ℕ} {k : ℤ} (h : Closest .binary32 s e c k) {M δ : ℝ}
    (hM : IsEnd .binary32 s e M) (hnear : |c * (10 : ℝ) ^ k - M| < δ)
    (hδ : δ ≤ 2 ^ halfExponent .binary32 s e / 2) :
    2 * (2 : ℝ) ^ halfExponent .binary32 s e - 2 * δ ≤ 10 ^ k := by
  obtain ⟨hlow, hhigh⟩ := ends_eq hs (e := e)
  have hunit : (0 : ℝ) < 2 ^ halfExponent .binary32 s e := zpow_pos two_pos _
  have hcaptured := h.captured
  have hlower := h.captured.lower
  have hupper := h.captured.upper
  have hpred := h.pred_le
  have hsucc := h.lt_succ
  have hclosest := @h.closest
  rw [hlow] at hlower
  generalize halfExponent .binary32 s e = q at *
  generalize hv : (s : ℝ) * 2 ^ e = v at *
  obtain ⟨hnear1, hnear2⟩ := abs_lt.mp hnear
  cases hM with
  | low =>
    rw [hlow] at *
    have hcast : ((c + 1 : ℕ) : ℝ) = c + 1 := Nat.cast_succ c
    by_cases hnext : Format.binary32.Captures s e ((c + 1 : ℕ) * (10 : ℝ) ^ k)
    · have hle := hclosest hnext
      rw [hcast] at hle
      rw [abs_of_neg (by linarith), abs_of_pos (by linarith)] at hle
      linarith
    · have hout :
          (4 * s + 2 : ℕ) * (2 : ℝ) ^ (e - 2) ≤ (c + 1 : ℕ) * 10 ^ k := by
        by_contra hin
        refine hnext (Format.captures_of_lt hs ?_ (not_le.mp hin))
        rw [hv, hcast]
        exact hsucc.le
      rw [hcast] at hout
      linarith
  | high =>
    have hc1 : 1 ≤ c := hcaptured.coefficient_pos hs
    by_cases hprev : Format.binary32.Captures s e ((c - 1 : ℕ) * (10 : ℝ) ^ k)
    · have hle := hclosest hprev
      rw [Nat.cast_sub hc1, Nat.cast_one] at hle
      rw [abs_of_pos (by linarith), abs_of_nonpos (by linarith)] at hle
      linarith
    · have hout : ((c - 1 : ℕ) : ℝ) * 10 ^ k ≤ v - 2 ^ q := by
        by_contra hin
        have hbelow := not_le.mp hin
        have habove :
            ((c - 1 : ℕ) : ℝ) * 10 ^ k < (4 * s + 2 : ℕ) * 2 ^ (e - 2) := by
          rw [Nat.cast_sub hc1, Nat.cast_one]
          linarith
        rw [← hlow] at hbelow
        exact hprev ⟨hbelow.le, habove.le, fun _ => ⟨hbelow, habove⟩⟩
      rw [Nat.cast_sub hc1, Nat.cast_one] at hout
      linarith

/-- **Close to an end the grid is coarse.** -/
theorem halfExponent_le_of_near {c : ℕ} {k : ℤ} (hk : -46 ≤ k) (hk' : k ≤ 38)
    (h : Closest .binary32 s e c k) {M : ℝ} (hM : IsEnd .binary32 s e M)
    (hnear : |c * (10 : ℝ) ^ k - M| < M * (31 / 10 / 2 ^ 53)) :
    halfExponent .binary32 s e ≤ spacing k := by
  obtain ⟨W, hW0, hW, hMW⟩ := hM.eq_whole hs hc
  have hten := ten_zpow_lt hk hk'
  have hunit : (0 : ℝ) < 2 ^ halfExponent .binary32 s e := zpow_pos two_pos _
  have hWR : (W : ℝ) ≤ 2 ^ 25 + 2 := by exact_mod_cast hW
  have hsmall :
      M * (31 / 10 / 2 ^ 53) ≤ 2 ^ halfExponent .binary32 s e / 2 ^ 24 := by
    rw [hMW, mul_right_comm, mul_comm, div_eq_mul_inv]
    refine mul_le_mul_of_nonneg_left ?_ hunit.le
    linarith
  have hcoarse := coarse_of_near hs h hM hnear (by linarith)
  have hlt :
      (2 : ℝ) ^ (halfExponent .binary32 s e + 1) < 2 ^ (spacing k + 2) := by
    rw [zpow_add_one₀ two_ne_zero]
    have hpos : (0 : ℝ) < 2 ^ (spacing k + 2) := zpow_pos two_pos _
    linarith
  have := (zpow_lt_zpow_iff_right₀ one_lt_two).mp hlt
  omega

/-- The closest decimal is an end, or apart from it, up to one exception. -/
theorem end_cases {c : ℕ} {k : ℤ} (hk : -46 ≤ k) (hk' : k ≤ 38)
    (h : Closest .binary32 s e c k) {M : ℝ} (hM : IsEnd .binary32 s e M) :
    0 < M ∧ Grid (model Float) M ∧ (c * (10 : ℝ) ^ k = M ∧ k.natAbs ≤ 22
      ∨ M * (31 / 10 / 2 ^ 53) ≤ |c * (10 : ℝ) ^ k - M|
      ∨ k = -32 ∧ c = 7038531 ∧ M = 22841339 * 2 ^ (-108 : ℤ)) := by
  obtain ⟨W, hW0, hW, hMW⟩ := hM.eq_whole hs hc
  have hWR : (0 : ℝ) < W := by exact_mod_cast hW0
  refine ⟨by rw [hMW]; exact mul_pos hWR (zpow_pos two_pos _), ?_, ?_⟩
  · rw [hMW]
    refine grid_natCast_mul (hW.trans (by decide)) ?_
    have hunit : (-149 : ℤ) ≤ e := hc.unit_le
    have hmin : (model Float).minExponent = -1074 := by decide
    unfold halfExponent
    split <;> omega
  · by_cases hnear : |c * (10 : ℝ) ^ k - M| < M * (31 / 10 / 2 ^ 53)
    · have hq := halfExponent_le_of_near hs hc hk hk' h hM hnear
      rw [hMW] at hnear ⊢
      rcases apart hk hk' hW0 hW hq with hequal | hfar | ⟨rfl, hcC, rfl⟩
      · exact .inl hequal
      · exact .inr (.inl hfar)
      · right; right
        -- the coefficient is odd, so the power of two is the largest one
        have hspacing : spacing (-32) = -108 := by decide +kernel
        rw [hspacing] at hcC hq
        have hzero : (-108 - halfExponent .binary32 s e).toNat = 0 := by
          by_contra hne
          obtain ⟨n, hn⟩ := Nat.exists_eq_succ_of_ne_zero hne
          have heven : c * (2 ^ n * 2) % 2 = 0 := by
            rw [← mul_assoc]
            exact Nat.mul_mod_left _ _
          rw [hn, pow_succ] at hcC
          rw [hcC] at heven
          exact absurd heven (by decide)
        rw [hzero, pow_zero, mul_one] at hcC
        have hexp : halfExponent .binary32 s e = -108 := by omega
        refine ⟨rfl, hcC, ?_⟩
        rw [hexp]
        norm_num
    · exact .inr (.inl (not_lt.mp hnear))

/-- **A close reading rounds to the number.** -/
theorem captures_of_close {c : ℕ} {k : ℤ} (hk : -46 ≤ k) (hk' : k ≤ 38)
    (h : Closest .binary32 s e c k) {r : ℝ}
    (hclose : |r - c * (10 : ℝ) ^ k| ≤ c * (10 : ℝ) ^ k * (302 / 100 / 2 ^ 53))
    (hexact : k.natAbs ≤ 22 → Grid (model Float) (c * (10 : ℝ) ^ k) →
      r = c * (10 : ℝ) ^ k)
    (hexception : k = -32 → c = 7038531 → r < 22841339 * 2 ^ (-108 : ℤ)) :
    Format.binary32.Captures s e r := by
  by_cases hsame : r = c * (10 : ℝ) ^ k
  · rw [hsame]
    exact h.captured
  · obtain ⟨hr1, hr2⟩ := abs_le.mp hclose
    have hlower := h.captured.lower
    have hupper := h.captured.upper
    have hlow : Format.binary32.lowQuarters s e * (2 : ℝ) ^ (e - 2) < r := by
      obtain ⟨hpos, hgrid, hcases⟩ := end_cases hs hc hk hk' h .low
      generalize Format.binary32.lowQuarters s e * (2 : ℝ) ^ (e - 2) = M at *
      rcases hcases with ⟨hequal, hk22⟩ | hfar | ⟨rfl, rfl, hM⟩
      · exact absurd (hexact hk22 (hequal ▸ hgrid)) hsame
      · rw [abs_of_nonneg (by linarith)] at hfar
        linarith
      · -- the exceptional decimal is below the end
        rw [hM] at hlower
        norm_num at hlower
    have hhigh : r < (4 * s + 2 : ℕ) * (2 : ℝ) ^ (e - 2) := by
      obtain ⟨hpos, hgrid, hcases⟩ := end_cases hs hc hk hk' h .high
      generalize ((4 * s + 2 : ℕ) : ℝ) * 2 ^ (e - 2) = M at *
      rcases hcases with ⟨hequal, hk22⟩ | hfar | ⟨rfl, rfl, hM⟩
      · exact absurd (hexact hk22 (hequal ▸ hgrid)) hsame
      · rw [abs_of_nonpos (by linarith)] at hfar
        linarith
      · rw [hM]
        exact hexception rfl rfl
    exact ⟨hlow.le, hhigh.le, fun _ => ⟨hlow, hhigh⟩⟩

/-! ## Written literals -/

theorem exponent_shortest_bounds : -46 ≤ (shortest .binary32 s e).exponent
    ∧ (shortest .binary32 s e).exponent ≤ 38 := by
  have hunit : (-149 : ℤ) ≤ e := hc.unit_le
  have hbounded : (e + 149).toNat + 1 < 255 := hc.bounded
  have hfits : s < 2 ^ 24 := hc.fits
  have hclosest := closest_shortest (e := e) fineGrids_binary32 hs hc.fits
  have hfine := unit_le_shortest (e := e) fineGrids_binary32 hs hc.fits
  have hc0 :=
    coefficient_shortest_ne_zero (e := e) fineGrids_binary32 hs hc.fits
  have hupper := hclosest.captured.upper
  generalize (shortest .binary32 s e).exponent = k at *
  generalize (shortest .binary32 s e).coefficient = c at *
  constructor
  · by_contra hlt
    have hk : (10 : ℝ) ^ k ≤ 10 ^ (-47 : ℤ) :=
      zpow_le_zpow_right₀ (by norm_num) (by omega)
    have he : (2 : ℝ) ^ (-149 : ℤ) ≤ 2 ^ e :=
      zpow_le_zpow_right₀ one_le_two hunit
    norm_num at hk he
    linarith
  · by_contra hgt
    have hk : (10 : ℝ) ^ (39 : ℤ) ≤ 10 ^ k :=
      zpow_le_zpow_right₀ (by norm_num) (by omega)
    have he : (2 : ℝ) ^ (e - 2) ≤ 2 ^ (102 : ℤ) :=
      zpow_le_zpow_right₀ one_le_two (by omega)
    have hs' : ((4 * s + 2 : ℕ) : ℝ) ≤ 2 ^ 26 := by
      have : 4 * s + 2 ≤ 2 ^ 26 := by omega
      exact_mod_cast this
    have hc1 : (1 : ℝ) ≤ c := by exact_mod_cast Nat.one_le_iff_ne_zero.mpr hc0
    have hpos : (0 : ℝ) < 10 ^ k := zpow_pos (by norm_num) k
    have := calc (10 : ℝ) ^ (39 : ℤ)
      _ ≤ c * 10 ^ k := hk.trans (le_mul_of_one_le_left hpos.le hc1)
      _ ≤ (4 * s + 2 : ℕ) * 2 ^ (e - 2) := hupper
      _ ≤ 2 ^ 26 * 2 ^ (102 : ℤ) :=
          mul_le_mul hs' he (zpow_pos two_pos _).le (by positivity)
    norm_num at this

omit hs hc in
theorem double?_exception :
    (Scaled.mk 7038531 (-32)).double?.map Interchange.value
      = some (.finite false 6131425250115583 (-136)) := by
  decide +kernel

omit hs hc in
/-- A whole number below `10 ^ 13` that is written with its zeros is a
double. -/
theorem double?_whole {c n : ℕ} (hc0 : c ≠ 0)
    (hn : n + ((digits c).length - 1) ≤ 12) :
    c * 10 ^ (n + 1) < 2 ^ 53
      ∧ ∃ d, (Scaled.mk (c * 10 ^ (n + 1)) (-1)).double? = some d
      ∧ Scalar.isFinite d = true ∧ toReal d = c * 10 ^ (n : ℤ) := by
  have hpos := length_digits_pos c
  have hsmall : c * 10 ^ (n + 1) < 2 ^ 53 :=
    calc c * 10 ^ (n + 1) < 10 ^ (digits c).length * 10 ^ (n + 1) :=
          Nat.mul_lt_mul_of_pos_right (lt_pow_length_digits c) (by positivity)
      _ ≤ 10 ^ 14 := by
        rw [← pow_add]
        exact Nat.pow_le_pow_right (by norm_num) (by omega)
      _ < 2 ^ 53 := by norm_num
  have hwhole : ((c * 10 ^ (n + 1) : ℕ) : ℝ) * 10 ^ (-1 : ℤ)
      = (c * 10 ^ n : ℕ) * 2 ^ (0 : ℤ) := by
    push_cast
    rw [pow_succ]
    norm_num
    ring
  obtain ⟨d, hd, hfin, -, hexact⟩ := close_double? (k := -1)
    (Nat.mul_pos (Nat.pos_of_ne_zero hc0) (by positivity)) hsmall (by decide)
  refine ⟨hsmall, d, hd, hfin, ?_⟩
  rw [hexact (by decide) ?_, hwhole]
  · push_cast
    rw [zpow_natCast, zpow_zero, mul_one]
  · rw [hwhole]
    refine grid_natCast_mul ?_ (by decide)
    rw [pow_succ, ← mul_assoc] at hsmall
    exact (by omega : c * 10 ^ n ≤ 2 ^ 53)

/-- The literal of a number is read in the interval of the number. -/
theorem exists_reading (negative : Bool) : ∃ d,
    (Json.NumberLiteral.ofScaled .binary32 negative
      (shortest .binary32 s e)).leading.double?
      = some d
      ∧ Scalar.isFinite d = true ∧ Format.binary32.Captures s e (toReal d) := by
  have hfits : s < 2 ^ 24 := hc.fits
  have hclosest := closest_shortest (e := e) fineGrids_binary32 hs hc.fits
  have hle := coefficient_shortest_le (e := e) fineGrids_binary32 hs hc.fits
  have hc0 :=
    coefficient_shortest_ne_zero (e := e) fineGrids_binary32 hs hc.fits
  obtain ⟨hk, hk'⟩ := exponent_shortest_bounds hs hc
  generalize shortest .binary32 s e = t at *
  generalize hn : Json.NumberLiteral.ofScaled .binary32 negative t = n
  have hwell : n.WellFormed := hn ▸ Json.NumberLiteral.wellFormed_ofScaled hc0
  have hleading : n.scaled.coefficient < 2 ^ 53 → n.leading = n.scaled := by
    intro hsmall
    have := n.leading_coefficient_le
    exact Json.NumberLiteral.leading_eq_scaled hwell
      (show 10 * n.leading.coefficient + 9 < 2 ^ 64 by omega)
  obtain ⟨c, k⟩ := t
  dsimp only at *
  have hcases : n.scaled = ⟨c, k⟩ ∨ 0 ≤ k ∧ k + ((digits c).length - 1 : ℕ) ≤ 12
      ∧ n.scaled = ⟨c * 10 ^ (k.toNat + 1), -1⟩ :=
    hn ▸ Json.NumberLiteral.scaled_ofScaled
  rcases hcases with hscaled | ⟨hk0, hfirst, hscaled⟩
  · rw [hleading (by rw [hscaled]; dsimp only; omega), hscaled]
    obtain ⟨d, hd, hfin, hclose, hexact⟩ := close_double? (c := c) (k := k)
      (Nat.pos_of_ne_zero hc0) (by omega) (by omega)
    refine ⟨d, hd, hfin,
      captures_of_close hs hc hk hk' hclosest hclose hexact ?_⟩
    rintro rfl rfl
    obtain ⟨d', hd', hvalue⟩ := Option.map_eq_some_iff.mp double?_exception
    obtain rfl := Option.some.inj (hd.symm.trans hd')
    rw [Stored.toReal_of_value hvalue]
    norm_num [signed, signOf]
  · obtain ⟨hsmall, d, hd, hfin, hreal⟩ :=
      double?_whole (n := k.toNat) hc0 (by omega)
    rw [Int.toNat_of_nonneg hk0] at hreal
    rw [hleading (by rw [hscaled]; exact hsmall), hscaled]
    exact ⟨d, hd, hfin, hreal ▸ hclosest.captured⟩

end Ends

end Decimal

/-- **Every finite number of single precision comes back**, bit for bit. -/
theorem Json.reread_single {x : Float32} (hx : Scalar.isFinite x = true) :
    Json.reread x = some x := by
  obtain ⟨negative, s, e, hvalue⟩ := Stored.isFinite_iff.mp hx
  rcases Nat.eq_zero_or_pos s with rfl | hs
  · exact reread_of_zero hvalue
  · obtain ⟨d, hd, hfin, hcaptured⟩ :=
      exists_reading hs (Stored.eq_ofBits hvalue).1 negative
    exact reread_of_double? hvalue hs hd hfin hcaptured

end Equilibration
