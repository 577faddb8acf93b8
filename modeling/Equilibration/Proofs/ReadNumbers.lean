import Equilibration.Proofs.RelativeErrors
import Equilibration.Proofs.ShortestDecimals
import Equilibration.Proofs.StoredNumbers

/-!
# ReadNumbers — how close a reading is

A decimal is read as the product or the quotient of two doubles. If its
coefficient is below `2 ^ 53` and its power of ten at most `10 ^ 22`, both are
exact, and the reading is the double whose interval holds the decimal
(`value_double?`). With a larger power of ten the reading is still within one
unit and a half of the last place (`close_double?`), which is what the shorter
type needs.
-/

namespace Equilibration

open Rounding FloatingPoint Decimal

namespace Decimal

/-! ## Powers of ten -/

/-- Whether a number is within half a unit of a power of ten, relative to the
significand of a double, and equal to it if that is exact. -/
def nearPower (k : ℕ) : Binary.Value → Bool
  | .finite false s e =>
    let r := (Ratio.ofNat s).shift 2 e
    decide (2 ^ 53 * r.num ≤ (2 ^ 53 + 1) * (10 ^ k * r.den)
      ∧ 2 ^ 53 * (10 ^ k * r.den) ≤ 2 ^ 53 * r.num + 10 ^ k * r.den
      ∧ (k ≤ 22 → r.num = 10 ^ k * r.den))
  | _ => false

theorem nearPower_powerOfTen :
    ∀ k < 47, nearPower k (Interchange.value (powerOfTen k)) = true := by
  decide +kernel

/-- The double nearest to a power of ten. -/
theorem powerOfTen_spec {k : ℕ} (hk : k < 47) :
    Scalar.isFinite (powerOfTen k) = true
      ∧ |toReal (powerOfTen k) - 10 ^ k| ≤ 10 ^ k / 2 ^ 53
      ∧ (k ≤ 22 → toReal (powerOfTen k) = 10 ^ k) := by
  have h := nearPower_powerOfTen k hk
  unfold nearPower at h
  split at h
  · next s e hvalue =>
    obtain ⟨hhigh, hlow, hexact⟩ := of_decide_eq_true h
    have hdenR := ((Ratio.ofNat s).shift 2 e).cast_den_pos
    have hreal : toReal (powerOfTen k) = ((Ratio.ofNat s).shift 2 e).real := by
      rw [Stored.toReal_of_value hvalue, Ratio.real_shift, Ratio.real_ofNat,
        Nat.cast_ofNat]
      rfl
    refine ⟨Stored.isFinite_iff.mpr ⟨_, _, _, hvalue⟩, ?_, ?_⟩
    · have hhighR : (2 ^ 53 : ℝ) * ((Ratio.ofNat s).shift 2 e).num
          ≤ (2 ^ 53 + 1) * (10 ^ k * ((Ratio.ofNat s).shift 2 e).den) := by
        exact_mod_cast hhigh
      have hlowR : (2 ^ 53 : ℝ) * (10 ^ k * ((Ratio.ofNat s).shift 2 e).den)
          ≤ 2 ^ 53 * ((Ratio.ofNat s).shift 2 e).num
            + 10 ^ k * ((Ratio.ofNat s).shift 2 e).den := by exact_mod_cast hlow
      rw [hreal, Ratio.real, abs_le, neg_le_sub_iff_le_add, sub_le_iff_le_add]
      constructor
      · rw [← sub_le_iff_le_add, le_div_iff₀ hdenR]
        linarith
      · rw [div_le_iff₀ hdenR]
        linarith
    · intro hk22
      rw [hreal, Ratio.real, div_eq_iff hdenR.ne']
      exact_mod_cast hexact hk22
  · cases h

theorem toReal_powerOfTen_pos {k : ℕ} (hk : k < 47) :
    0 < toReal (powerOfTen k) := by
  have hclose := (abs_le.mp (powerOfTen_spec hk).2.1).1
  have hpos : (0 : ℝ) < 10 ^ k := by positivity
  linarith

/-! ## Doubles -/

section Double

variable {c : ℕ} {k : ℤ} (hc0 : 0 < c) (hc : c < 2 ^ 53) (hk : k.natAbs < 47)

include hk in
/-- A decimal is read as a product or a quotient. -/
theorem double?_eq : (Scaled.mk c k).double?
    = if 0 ≤ k then
        if Scalar.isFinite ((Scalar.ofNat c : Float) * powerOfTen k.natAbs) then
          some (Scalar.ofNat c * powerOfTen k.natAbs)
        else none
      else some (Scalar.ofNat c / powerOfTen k.natAbs) := by
  have hle : k.natAbs ≤ largestPower := by
    unfold largestPower
    omega
  unfold Scaled.double?
  dsimp only
  split
  · have habs : k.toNat = k.natAbs := by omega
    rw [habs, timesPower?, if_pos hle]
  · have habs : (-k).toNat = k.natAbs := by omega
    rw [habs, overPower, if_pos hle]

theorem mul_zpow_of_nonneg (h : 0 ≤ k) :
    (c : ℝ) * 10 ^ k = c * 10 ^ k.natAbs := by
  rw [← zpow_natCast, Int.natAbs_of_nonneg h]

theorem mul_zpow_of_neg (h : ¬ 0 ≤ k) :
    (c : ℝ) * 10 ^ k = c / 10 ^ k.natAbs := by
  have hneg : k = -(k.natAbs : ℤ) := by omega
  conv_lhs => rw [hneg, zpow_neg, zpow_natCast]
  rw [div_eq_mul_inv]

include hc0 hc

/-- **Exact operands** make the reading the double whose interval holds the
decimal. -/
theorem value_double? (hk : k.natAbs ≤ 22) {s : ℕ} {e : ℤ} (hs : 0 < s)
    (hcan : Binary.Format.binary64.Canonical s e)
    (h : Binary.Format.binary64.Captures s e (c * (10 : ℝ) ^ k)) :
    ∃ d, (Scaled.mk c k).double? = some d
      ∧ Interchange.value d = .finite false s e := by
  obtain ⟨hfin, hreal⟩ := isFinite_ofNat (α := Float) hc
  obtain ⟨hpfin, -, hpexact⟩ := powerOfTen_spec (k := k.natAbs) (by omega)
  have hc0R : 0 < toReal (Scalar.ofNat c : Float) := by
    rw [hreal]
    exact_mod_cast hc0
  have hp0 := toReal_powerOfTen_pos (k := k.natAbs) (by omega)
  rw [double?_eq (by omega)]
  split
  · next hsign =>
    rw [mul_zpow_of_nonneg hsign, ← hreal, ← hpexact hk] at h
    have hvalue := Stored.value_mul hfin hpfin hc0R hp0 hs hcan h
    rw [if_pos (Stored.isFinite_iff.mpr ⟨_, _, _, hvalue⟩)]
    exact ⟨_, rfl, hvalue⟩
  · next hsign =>
    rw [mul_zpow_of_neg hsign, ← hreal, ← hpexact hk] at h
    exact ⟨_, rfl, Stored.value_div hfin hpfin hc0R hp0 hs hcan h⟩

include hk

/-- A reading rounds a number that is as close to the decimal as the power of
ten allows. -/
theorem rounded_double? :
    ∃ d w, (Scaled.mk c k).double? = some d ∧ FloatingPoint.Rounded w d
      ∧ |w - c * (10 : ℝ) ^ k| ≤ c * (10 : ℝ) ^ k * (101 / 100 / 2 ^ 53)
      ∧ (k.natAbs ≤ 22 → w = c * (10 : ℝ) ^ k) := by
  obtain ⟨hfin, hreal⟩ := isFinite_ofNat (α := Float) hc
  obtain ⟨hpfin, hperror, hpexact⟩ := powerOfTen_spec hk
  have hp0 := toReal_powerOfTen_pos hk
  have hcR : (0 : ℝ) < c := by exact_mod_cast hc0
  have hcR' : (c : ℝ) < 2 ^ 53 := by exact_mod_cast hc
  have hpow : (1 : ℝ) ≤ 10 ^ k.natAbs := one_le_pow₀ (by norm_num)
  have hpow' : (10 : ℝ) ^ k.natAbs ≤ 10 ^ 46 :=
    pow_le_pow_right₀ (by norm_num) (by omega)
  have hbias : (2 : ℝ) ^ 250 ≤ 2 ^ (model Float).exponentBias :=
    pow_le_pow_right₀ one_le_two (by decide)
  have hbounds := abs_le.mp hperror
  generalize hp : toReal (powerOfTen k.natAbs) = p at *
  rw [double?_eq hk]
  split
  · next hsign =>
    have hrounded : FloatingPoint.Rounded (c * p)
        ((Scalar.ofNat c : Float) * powerOfTen k.natAbs) := by
      have := rounded_mul hfin hpfin
      rw [hreal, hp, abs_of_pos (by positivity)] at this
      refine this (le_trans ?_ hbias)
      calc c * p ≤ 2 ^ 53 * (2 * 10 ^ 46) :=
            mul_le_mul hcR'.le (by linarith) hp0.le (by positivity)
        _ ≤ 2 ^ 250 := by norm_num
    rw [if_pos hrounded.finite, mul_zpow_of_nonneg hsign]
    refine ⟨_, _, rfl, hrounded, ?_, fun h22 => by rw [hpexact h22]⟩
    rw [← mul_sub, abs_mul, abs_of_pos hcR, mul_assoc]
    refine mul_le_mul_of_nonneg_left (hperror.trans ?_) hcR.le
    linarith
  · next hsign =>
    have hp1 : (1 : ℝ) / 2 ≤ p := by linarith
    have hrounded : FloatingPoint.Rounded (c / p)
        ((Scalar.ofNat c : Float) / powerOfTen k.natAbs) := by
      have := rounded_div hfin hpfin (hp ▸ hp0.ne')
      rw [hreal, hp, abs_of_pos (by positivity)] at this
      refine this (le_trans ?_ hbias)
      rw [div_le_iff₀ hp0]
      calc (c : ℝ) ≤ 2 ^ 250 * (1 / 2) := hcR'.le.trans (by norm_num)
        _ ≤ 2 ^ 250 * p := mul_le_mul_of_nonneg_left hp1 (by positivity)
    rw [mul_zpow_of_neg hsign]
    refine ⟨_, _, rfl, hrounded, ?_, fun h22 => by rw [hpexact h22]⟩
    -- the error of the divisor, relative to the divisor itself
    have hdiff : c / p - c / 10 ^ k.natAbs
        = c / 10 ^ k.natAbs * ((10 ^ k.natAbs - p) / p) := by
      field_simp
    rw [hdiff, abs_mul, abs_of_pos (by positivity), abs_div, abs_of_pos hp0,
      abs_sub_comm]
    refine mul_le_mul_of_nonneg_left ?_ (by positivity)
    rw [div_le_iff₀ hp0]
    refine hperror.trans ?_
    linarith

/-- **Any reading is close**: it is off by little more than one unit and a
half, relative to the significand of a double. Where the power of ten is
exact, a double is read as itself. -/
theorem close_double? :
    ∃ d, (Scaled.mk c k).double? = some d ∧ Scalar.isFinite d = true
      ∧ |toReal d - c * (10 : ℝ) ^ k| ≤ c * (10 : ℝ) ^ k * (302 / 100 / 2 ^ 53)
      ∧ (k.natAbs ≤ 22 → Grid (model Float) (c * (10 : ℝ) ^ k) →
      toReal d = c * (10 : ℝ) ^ k) := by
  obtain ⟨d, w, hd, hrounded, hwerror, hwexact⟩ := rounded_double? hc0 hc hk
  refine ⟨d, hd, hrounded.finite, ?_, fun h22 hgrid => ?_⟩
  · have hy : (2 : ℝ) ^ (-199 : ℤ) ≤ c * (10 : ℝ) ^ k := by
      have hone : (1 : ℝ) ≤ c := by exact_mod_cast hc0
      calc (2 : ℝ) ^ (-199 : ℤ) ≤ 10 ^ (-46 : ℤ) := by norm_num
        _ ≤ 10 ^ k := zpow_le_zpow_right₀ (by norm_num) (by omega)
        _ ≤ c * (10 : ℝ) ^ k :=
            le_mul_of_one_le_left (zpow_pos (by norm_num) k).le hone
    generalize (c : ℝ) * 10 ^ k = y at *
    have hy0 : 0 < y := (zpow_pos two_pos _).trans_le hy
    have hw := abs_le.mp hwerror
    have hwlow : (2 : ℝ) ^ (-200 : ℤ) ≤ w := by
      have hhalf : (2 : ℝ) ^ (-199 : ℤ) = 2 * 2 ^ (-200 : ℤ) := by norm_num
      rw [hhalf] at hy
      linarith
    have hstep := hrounded.faithful.abs_sub_le hwlow (by decide)
    have hbits : (2 : ℝ) ^ (model Float).mantissaBitsWithoutImplicit
        = 2 ^ 52 := by norm_num [model]
    rw [hbits] at hstep
    have hd := abs_le.mp hstep
    rw [abs_le]
    constructor <;> linarith
  · rw [hwexact h22] at hrounded
    exact hrounded.toReal_eq hgrid

end Double

end Decimal

end Equilibration
