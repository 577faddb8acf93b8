import Equilibration.Binary.Format
import Equilibration.Proofs.RoundedOperations

/-!
# Packing — numbers as bit patterns

Unpacking a packed number gives the number back if it is finite and not too
large, and what is unpacked is always in canonical form. So a result of
rounding survives packing (`Rounds.unpack_pack`). The patterns that
`Binary.Format.ofNat` finds for whole numbers are those of their exact
values, as long as the significand has room (`ofNat_pattern`).
-/

namespace Equilibration.Rounding

open Float.Model Float.Model.UnpackedFloat

variable {F : Format}

/-! ## Packing -/

theorem two_pow_exponentBits (F : Format) :
    2 ^ F.exponentBits = 2 * F.exponentBias + 2 := by
  have hpow : 1 ≤ 2 ^ (F.exponentBits - 1) := Nat.one_le_two_pow
  obtain ⟨k, hk⟩ := Nat.exists_eq_succ_of_ne_zero F.he.ne'
  rw [Format.exponentBias, hk, Nat.succ_sub_one, pow_succ]
  rw [hk, Nat.succ_sub_one] at hpow
  omega

theorem toNat_append_one {n : ℕ} (m : BitVec n) :
    (1#1 ++ m).toNat = 2 ^ n + m.toNat := by
  rw [BitVec.toNat_append, ← Nat.shiftLeft_add_eq_or_of_lt m.isLt,
    Nat.shiftLeft_eq]
  simp

theorem ofBitVec_toBitVec (s : Sign) : Sign.ofBitVec s.toBitVec = s := by
  cases s <;> rfl

theorem unpackSign_packComponents (s : Sign) (E : BitVec F.exponentBits)
    (m : BitVec F.mantissaBitsWithoutImplicit) :
    unpackSign (packComponents F s E m) = s.toBitVec := by
  apply BitVec.eq_of_getLsbD_eq
  intro i hi
  have hzero : i = 0 := by omega
  subst hzero
  simp [unpackSign, packComponents, BitVec.getLsbD_append,
    BitVec.getElem_append]

theorem zero_ne_neg_one : (0#F.exponentBits) ≠ -1#_ := by
  intro h
  have hnat := congrArg BitVec.toNat h
  have hpow := Nat.pow_le_pow_right two_pos F.he
  rw [BitVec.neg_one_eq_allOnes, BitVec.toNat_allOnes, BitVec.toNat_zero]
    at hnat
  omega

theorem unpack_pack_notANumber :
    UnpackedFloat.unpack F (UnpackedFloat.pack F .notANumber)
      = .notANumber := by
  have hm :
      (1#F.mantissaBitsWithoutImplicit) <<< (F.mantissaBitsWithoutImplicit - 1)
        ≠ 0#_ := by
    intro h
    have hnat := congrArg BitVec.toNat h
    have hpos := F.hm
    have hlt : 2 ^ (F.mantissaBitsWithoutImplicit - 1)
        < 2 ^ F.mantissaBitsWithoutImplicit :=
      Nat.pow_lt_pow_right one_lt_two (by omega)
    have hone := Nat.one_lt_two_pow hpos.ne'
    rw [BitVec.toNat_shiftLeft, BitVec.toNat_ofNat, Nat.mod_eq_of_lt hone,
      Nat.one_shiftLeft, Nat.mod_eq_of_lt hlt, BitVec.toNat_zero] at hnat
    exact (Nat.two_pow_pos _).ne' hnat
  show UnpackedFloat.unpack F (packedNaN F) = _
  unfold UnpackedFloat.unpack packedNaN
  simp only [unpackMantissa_packComponents, unpackExponent_packComponents,
    if_true, if_neg hm]

/-- Packing and unpacking changes nothing in a number that is not too
large. -/
theorem unpack_pack_finite (s : Sign) {m : ℕ} {e : ℤ} (hm : 0 < m)
    (hc : Canonical F (.finite s m e hm))
    (he : e ≤ F.exponentBias - F.mantissaBitsWithoutImplicit) :
    UnpackedFloat.unpack F (UnpackedFloat.pack F (.finite s m e hm))
      = .finite s m e hm := by
  obtain ⟨hfits, hmin, hfull⟩ := hc
  have hmin' := minExponent_eq F
  have hbits := mantissaBits_eq F
  have hcap := two_pow_exponentBits F
  generalize hb : (e + F.exponentBias + F.mantissaBitsWithoutImplicit).toNat = b
  have hbound : ¬ 2 ^ F.exponentBits ≤ b + 1 := by omega
  unfold UnpackedFloat.pack
  simp only [hb, if_neg hbound]
  by_cases hnormal : 2 ^ F.mantissaBitsWithoutImplicit ≤ m
  · have hlog : m.log2 + 1 = F.mantissaBits := by
      have := le_log2_of_le hnormal
      have := log2_lt_mantissaBits hfits
      omega
    have hE : (BitVec.ofNat F.exponentBits b).toNat = b := by
      rw [BitVec.toNat_ofNat, Nat.mod_eq_of_lt (by omega)]
    have hE0 : BitVec.ofNat F.exponentBits b ≠ 0#_ := by
      intro h
      rw [h, BitVec.toNat_zero] at hE
      omega
    have hE1 : BitVec.ofNat F.exponentBits b ≠ -1#_ := by
      intro h
      rw [h, BitVec.neg_one_eq_allOnes, BitVec.toNat_allOnes] at hE
      omega
    have hmant :
        (1#1 ++ BitVec.ofNat F.mantissaBitsWithoutImplicit m).toNat = m := by
      rw [mantissaBits_eq, pow_succ] at hfits
      rw [toNat_append_one, BitVec.toNat_ofNat, Nat.mod_eq_sub_mod hnormal,
        Nat.mod_eq_of_lt (by omega)]
      omega
    rw [if_pos hlog]
    unfold UnpackedFloat.unpack
    simp only [unpackMantissa_packComponents, unpackExponent_packComponents,
      unpackSign_packComponents, ofBitVec_toBitVec, if_neg hE1, if_neg hE0,
      hE, hmant]
    congr 1
    omega
  · have hlt : m < 2 ^ F.mantissaBitsWithoutImplicit := not_le.mp hnormal
    have hlog : m.log2 + 1 ≠ F.mantissaBits := by
      have := (Nat.log2_lt hm.ne').mpr hlt
      omega
    have hmant : (BitVec.ofNat F.mantissaBitsWithoutImplicit m).toNat = m := by
      rw [BitVec.toNat_ofNat, Nat.mod_eq_of_lt hlt]
    have hm0 : BitVec.ofNat F.mantissaBitsWithoutImplicit m ≠ 0#_ := by
      intro h
      rw [h, BitVec.toNat_zero] at hmant
      omega
    rw [if_neg hlog]
    unfold UnpackedFloat.unpack
    simp only [unpackMantissa_packComponents, unpackExponent_packComponents,
      unpackSign_packComponents, ofBitVec_toBitVec, if_neg zero_ne_neg_one,
      if_true, dif_neg hm0, hmant, BitVec.toNat_zero]
    congr 1
    have := hfull.resolve_left hnormal
    push_cast
    omega

/-- What is unpacked is in canonical form. -/
theorem canonical_unpack (b : BitVec F.numBits) :
    Canonical F (UnpackedFloat.unpack F b) := by
  have hmin := minExponent_eq F
  have hbits := mantissaBits_eq F
  unfold UnpackedFloat.unpack
  dsimp only
  split
  · split <;> trivial
  · split
    · next hE =>
      split
      · trivial
      · -- subnormal
        have hlt := (unpackMantissa b).isLt
        have hexp : ((unpackExponent b).toNat : ℤ)
            - (F.exponentBias + F.mantissaBitsWithoutImplicit) + 1
            = F.minExponent := by
          rw [hE, BitVec.toNat_zero]
          push_cast
          omega
        refine ⟨hlt.trans (Nat.pow_lt_pow_right one_lt_two (by omega)), hexp.ge,
          .inr hexp⟩
    · next hE =>
      have hlt := (unpackMantissa b).isLt
      have hpos : 0 < (unpackExponent b).toNat :=
        Nat.pos_of_ne_zero fun h => hE (BitVec.eq_of_toNat_eq h)
      refine ⟨?_, by omega, .inl ?_⟩
      · rw [toNat_append_one, mantissaBits_eq, pow_succ]
        omega
      · rw [toNat_append_one]
        exact Nat.le_add_right _ _

theorem unpack_pack_zero (s : Sign) :
    UnpackedFloat.unpack F (UnpackedFloat.pack F (.zero s)) = .zero s := by
  show UnpackedFloat.unpack F (packedZero F s) = _
  unfold UnpackedFloat.unpack packedZero
  simp only [unpackMantissa_packComponents, unpackExponent_packComponents,
    unpackSign_packComponents, ofBitVec_toBitVec]
  rw [if_neg (show (0 : BitVec F.exponentBits) ≠ -1#_ from zero_ne_neg_one),
    if_pos (show (0 : BitVec F.exponentBits) = 0#_ from rfl)]
  exact dif_pos rfl

/-- **The result of rounding survives packing**, if the exact result is not
too large. -/
theorem Rounds.unpack_pack {y : ℝ} {u : UnpackedFloat} (h : Rounds F y u)
    (hbias : 0 < F.exponentBias) (hy : |y| ≤ 2 ^ F.exponentBias) :
    UnpackedFloat.unpack F (UnpackedFloat.pack F u) = u := by
  have hgrid : Grid F ((2 : ℝ) ^ F.exponentBias) := by
    have := grid_two_zpow (F := F) (b := F.exponentBias)
      (by have := minExponent_nonpos F; omega)
    rwa [zpow_natCast] at this
  have hvalue := h.faithful.abs_value_le hgrid hy
  obtain ⟨s, rfl⟩ | ⟨s, m, e, hm, rfl⟩ := finite_cases h.finite
  · exact unpack_pack_zero s
  · apply unpack_pack_finite s hm h.canonical
    obtain ⟨hfits, hmin, hfull⟩ := h.canonical
    rcases hfull with hfull | rfl
    · -- a full mantissa bounds the exponent
      have habs : |value (.finite s m e hm)| = m * (2 : ℝ) ^ e := by
        cases s
        · exact (abs_neg _).trans (abs_of_pos (magnitude_pos hm e))
        · exact abs_of_pos (magnitude_pos hm e)
      have hle : (2 : ℝ) ^ (F.mantissaBitsWithoutImplicit + e : ℤ)
          ≤ (2 : ℝ) ^ (F.exponentBias : ℤ) := by
        rw [zpow_add₀ two_ne_zero, zpow_natCast, zpow_natCast]
        refine le_trans ?_ (habs ▸ hvalue)
        exact mul_le_mul_of_nonneg_right (by exact_mod_cast hfull)
          (zpow_pos two_pos e).le
      have := (zpow_le_zpow_iff_right₀ one_lt_two).mp hle
      omega
    · have := minExponent_eq F
      have := mantissaBits_eq F
      omega

/-! ## Patterns of whole numbers -/

theorem toNat_packComponents (E : BitVec F.exponentBits)
    (m : BitVec F.mantissaBitsWithoutImplicit) :
    (packComponents F .positive E m).toNat
      = E.toNat * 2 ^ F.mantissaBitsWithoutImplicit + m.toNat := by
  unfold packComponents Sign.toBitVec
  rw [BitVec.toNat_append, BitVec.toNat_append, ← Nat.shiftLeft_add_eq_or_of_lt
    m.isLt, ← Nat.shiftLeft_add_eq_or_of_lt E.isLt, Nat.shiftLeft_eq]
  simp

/-- The format of the patterns as `Binary` has it. -/
def patterns (F : Format) : Binary.Format :=
  ⟨F.mantissaBitsWithoutImplicit, F.exponentBits⟩

theorem unitExponent_patterns (F : Format) :
    (patterns F).unitExponent = F.minExponent := by
  have hpow : 1 ≤ 2 ^ (F.exponentBits - 1) := Nat.one_le_two_pow
  rw [minExponent_eq, mantissaBits_eq, Format.exponentBias, Nat.cast_sub hpow]
  show (2 - ((2 ^ (F.exponentBits - 1) : ℕ) : ℤ)
      - (F.mantissaBitsWithoutImplicit : ℤ)) = _
  push_cast
  ring

theorem two_mul_binade_patterns (F : Format) :
    2 * (patterns F).binade = 2 ^ F.mantissaBits := by
  rw [mantissaBits_eq, pow_succ, mul_comm]
  rfl

theorem exponent2_ofNat {n : ℕ} (hn : 0 < n) :
    (Ratio.ofNat n).exponent2 = n.log2 := by
  unfold Ratio.exponent2 Ratio.exponentFrom
  have hlog : Nat.log2 1 = 0 := by decide
  apply (if_pos _).trans
  · show (n.log2 : ℤ) - (Nat.log2 1 : ℤ) = _
    rw [hlog]
    simp
  · show decide _ = true
    rw [decide_eq_true_iff]
    have := Nat.log2_self_le hn.ne'
    simpa [Ratio.shift, Ratio.ofNat, hlog] using this

/-- The pattern of a whole number, by the exponent of its first bit. -/
theorem ofNat_eq_min (hbias : 0 < F.exponentBias) {n : ℕ} (hn : 0 < n) :
    (patterns F).ofNat n
      = min ((n.log2 + F.exponentBias - 1) * (patterns F).binade
          + ((Ratio.ofNat n).shift 2
              (-((n.log2 : ℤ) - F.mantissaBitsWithoutImplicit))).nearest)
        (patterns F).infinity := by
  have hbits := mantissaBits_eq F
  have hunit := unitExponent_patterns F
  rw [minExponent_eq] at hunit
  have hmax : max ((n.log2 : ℤ) - F.mantissaBitsWithoutImplicit)
      (patterns F).unitExponent = n.log2 - F.mantissaBitsWithoutImplicit := by
    rw [hunit]
    omega
  have hshift : ((n.log2 : ℤ) - F.mantissaBitsWithoutImplicit
      - (patterns F).unitExponent).toNat = n.log2 + F.exponentBias - 1 := by
    rw [hunit]
    omega
  unfold Binary.Format.ofNat Binary.Format.magnitude
  rw [if_neg (show (Ratio.ofNat n).num ≠ 0 from hn.ne'), exponent2_ofNat hn]
  dsimp only
  rw [show ((patterns F).fractionBits : ℤ)
    = F.mantissaBitsWithoutImplicit from rfl, hmax, hshift]

section OfNat

variable {n : ℕ} (hn : 0 < n) (hfits : n < 2 ^ F.mantissaBits)
  (hbias : F.mantissaBits ≤ F.exponentBias)

include hn hfits

/-- The full mantissa of a whole number. -/
theorem full_mantissa :
    2 ^ F.mantissaBitsWithoutImplicit
      ≤ n * 2 ^ (F.mantissaBitsWithoutImplicit - n.log2)
      ∧ n * 2 ^ (F.mantissaBitsWithoutImplicit - n.log2)
        < 2 * 2 ^ F.mantissaBitsWithoutImplicit := by
  have hlog := log2_lt_mantissaBits hfits
  have hbits := mantissaBits_eq F
  have hsplit : F.mantissaBitsWithoutImplicit
      = n.log2 + (F.mantissaBitsWithoutImplicit - n.log2) := by omega
  have hpow : 2 ^ F.mantissaBitsWithoutImplicit
      = 2 ^ n.log2 * 2 ^ (F.mantissaBitsWithoutImplicit - n.log2) := by
    conv_lhs => rw [hsplit, pow_add]
  have hhigh : n < 2 * 2 ^ n.log2 := by
    rw [mul_comm, ← pow_succ]
    exact Nat.lt_log2_self
  rw [hpow, ← mul_assoc]
  exact ⟨Nat.mul_le_mul_right _ (Nat.log2_self_le hn.ne'),
    Nat.mul_lt_mul_of_pos_right hhigh (Nat.two_pow_pos _)⟩

include hbias

theorem patterns_ofNat :
    (patterns F).ofNat n
      = (n.log2 + F.exponentBias) * 2 ^ F.mantissaBitsWithoutImplicit
        + (n * 2 ^ (F.mantissaBitsWithoutImplicit - n.log2)
          - 2 ^ F.mantissaBitsWithoutImplicit) := by
  obtain ⟨hlow, hhigh⟩ := full_mantissa hn hfits
  have hlog := log2_lt_mantissaBits hfits
  have hbits := mantissaBits_eq F
  have hcap := two_pow_exponentBits F
  have hnearest : ((Ratio.ofNat n).shift 2
      (-(n.log2 - F.mantissaBitsWithoutImplicit : ℤ))).nearest
        = n * 2 ^ (F.mantissaBitsWithoutImplicit - n.log2) := by
    rw [Ratio.nearest_shift_ofNat n two_pos (by omega)]
    show n * 2 ^ _ = _
    congr 2
    omega
  rw [ofNat_eq_min (by omega) hn, hnearest]
  show min (_ * 2 ^ F.mantissaBitsWithoutImplicit + _)
    ((2 ^ F.exponentBits - 1) * 2 ^ F.mantissaBitsWithoutImplicit) = _
  rw [min_eq_left]
  · have hcarry : (n.log2 + F.exponentBias) * 2 ^ F.mantissaBitsWithoutImplicit
        = (n.log2 + F.exponentBias - 1) * 2 ^ F.mantissaBitsWithoutImplicit
          + 2 ^ F.mantissaBitsWithoutImplicit := by
      rw [← Nat.succ_mul]
      congr 1
      omega
    omega
  · calc (n.log2 + F.exponentBias - 1) * 2 ^ F.mantissaBitsWithoutImplicit
          + n * 2 ^ (F.mantissaBitsWithoutImplicit - n.log2)
        ≤ (n.log2 + F.exponentBias - 1) * 2 ^ F.mantissaBitsWithoutImplicit
          + 2 * 2 ^ F.mantissaBitsWithoutImplicit :=
      Nat.add_le_add_left hhigh.le _
      _ = (n.log2 + F.exponentBias - 1 + 2)
          * 2 ^ F.mantissaBitsWithoutImplicit :=
          (Nat.add_mul _ _ _).symm
      _ ≤ _ := Nat.mul_le_mul_right _ (by omega)

/-- The pattern of a whole number is that of its exact value. -/
theorem ofNat_pattern :
    ∃ hpos, BitVec.ofNat F.numBits ((patterns F).ofNat n)
      = UnpackedFloat.pack F (.finite .positive
          (n * 2 ^ (F.mantissaBitsWithoutImplicit - n.log2))
          (n.log2 - F.mantissaBitsWithoutImplicit) hpos) := by
  obtain ⟨hlow, hhigh⟩ := full_mantissa hn hfits
  have hlog := log2_lt_mantissaBits hfits
  have hbits := mantissaBits_eq F
  have hcap := two_pow_exponentBits F
  have hfull : (n * 2 ^ (F.mantissaBitsWithoutImplicit - n.log2)).log2 + 1
      = F.mantissaBits := by
    have hle := le_log2_of_le hlow
    have hlt := (Nat.log2_lt ((Nat.two_pow_pos _).trans_le hlow).ne').mpr
      (hhigh.trans_eq (by rw [mul_comm, ← pow_succ]))
    omega
  have hbiased : ((n.log2 : ℤ) - F.mantissaBitsWithoutImplicit + F.exponentBias
      + F.mantissaBitsWithoutImplicit).toNat = n.log2 + F.exponentBias := by
    omega
  refine ⟨(Nat.two_pow_pos _).trans_le hlow, ?_⟩
  unfold UnpackedFloat.pack
  simp only [hbiased, hfull, if_true]
  rw [if_neg (by omega)]
  apply BitVec.eq_of_toNat_eq
  rw [toNat_packComponents, patterns_ofNat hn hfits hbias, BitVec.toNat_ofNat,
    BitVec.toNat_ofNat, BitVec.toNat_ofNat, Nat.mod_eq_of_lt
      (a := n.log2 + F.exponentBias) (by omega), Nat.mod_eq_sub_mod hlow,
      Nat.mod_eq_of_lt (b := 2 ^ F.mantissaBitsWithoutImplicit) (by omega)]
  apply Nat.mod_eq_of_lt
  calc (n.log2 + F.exponentBias) * 2 ^ F.mantissaBitsWithoutImplicit
        + (n * 2 ^ (F.mantissaBitsWithoutImplicit - n.log2)
          - 2 ^ F.mantissaBitsWithoutImplicit)
      < (n.log2 + F.exponentBias) * 2 ^ F.mantissaBitsWithoutImplicit
        + 2 ^ F.mantissaBitsWithoutImplicit := by omega
    _ = (n.log2 + F.exponentBias + 1) * 2 ^ F.mantissaBitsWithoutImplicit :=
        (Nat.succ_mul _ _).symm
    _ ≤ 2 ^ F.exponentBits * 2 ^ F.mantissaBitsWithoutImplicit :=
        Nat.mul_le_mul_right _ (by omega)
    _ ≤ 2 ^ F.numBits := by
        rw [← pow_add]
        exact Nat.pow_le_pow_right two_pos
          (by simp only [Format.numBits]; omega)

end OfNat

end Equilibration.Rounding
