import Equilibration.Proofs.Comparisons
import Equilibration.Proofs.StoredNumbers

/-!
# SignedResults — signs, infinity and no number

What an operation does outside of the range in which it rounds: a sum,
product or quotient of numbers that are not negative is not negative, even
if it overflows or is no number (`Rounding.NotNegative`), and it is no number
only where infinity meets zero or another infinity. Packing changes neither,
whatever is packed.

So the factors of balancing are never negative and always numbers
(`Balancing.zero_le_factor`), and sums of entries that are not negative may
be infinite or no number but not negative.
-/

namespace Equilibration

open Float.Model Float.Model.UnpackedFloat

namespace Rounding

variable {F : Format} {u v : UnpackedFloat}

/-! ## Packing -/

theorem isNaN_unpack_of_exponent {b : BitVec F.numBits}
    (h : unpackExponent b ≠ -1#_) :
    (UnpackedFloat.unpack F b).isNaN = false := by
  unfold UnpackedFloat.unpack
  dsimp only
  rw [if_neg h]
  split
  · split <;> rfl
  · rfl

/-- Packing neither loses a number nor makes one. -/
theorem isNaN_unpack_pack (F : Format) (u : UnpackedFloat) :
    (UnpackedFloat.unpack F (UnpackedFloat.pack F u)).isNaN = u.isNaN := by
  cases u with
  | notANumber => rw [unpack_pack_notANumber]
  | infinity s => rw [unpack_pack_infinity]
  | zero s => rw [unpack_pack_zero]
  | finite s m e hm =>
    unfold UnpackedFloat.pack
    dsimp only
    split
    · show (UnpackedFloat.unpack F (UnpackedFloat.pack F (.infinity s))).isNaN
        = false
      rw [unpack_pack_infinity]
      rfl
    · next hbounded =>
      split
      · refine isNaN_unpack_of_exponent ?_
        rw [unpackExponent_packComponents]
        intro h
        have hnat := congrArg BitVec.toNat h
        rw [BitVec.neg_one_eq_allOnes, BitVec.toNat_allOnes, BitVec.toNat_ofNat,
          Nat.mod_eq_of_lt (by omega)] at hnat
        omega
      · refine isNaN_unpack_of_exponent ?_
        rw [unpackExponent_packComponents]
        exact zero_ne_neg_one

/-- Only a zero may have a minus sign. -/
def NotNegative : UnpackedFloat → Prop
  | .infinity s => s = .positive
  | .finite s _ _ _ => s = .positive
  | .zero _ => True
  | .notANumber => True

theorem notNegative_unpack_packComponents (E : BitVec F.exponentBits)
    (m : BitVec F.mantissaBitsWithoutImplicit) :
    NotNegative (UnpackedFloat.unpack F (packComponents F .positive E m)) := by
  unfold UnpackedFloat.unpack
  simp only [unpackSign_packComponents, ofBitVec_toBitVec]
  split
  · split <;> trivial
  · split
    · split <;> trivial
    · rfl

theorem NotNegative.unpack_pack (h : NotNegative u) :
    NotNegative (UnpackedFloat.unpack F (UnpackedFloat.pack F u)) := by
  cases u with
  | notANumber => rwa [unpack_pack_notANumber]
  | infinity s => rwa [unpack_pack_infinity]
  | zero s => rwa [unpack_pack_zero]
  | finite s m e hm =>
    obtain rfl : s = .positive := h
    unfold UnpackedFloat.pack
    dsimp only
    split
    · exact notNegative_unpack_packComponents _ _
    · split
      · exact notNegative_unpack_packComponents _ _
      · exact notNegative_unpack_packComponents _ _

/-! ## Operations -/

theorem notNegative_roundWithAccuracy (m : ℕ) (e : ℤ) (acc : Accuracy) :
    NotNegative (roundWithAccuracy F .positive m e acc) := by
  unfold roundWithAccuracy
  dsimp only
  split
  · trivial
  · rfl

theorem isNaN_roundWithAccuracy (s : Sign) (m : ℕ) (e : ℤ) (acc : Accuracy) :
    (roundWithAccuracy F s m e acc).isNaN = false := by
  unfold roundWithAccuracy
  dsimp only
  split
  · rfl
  · rfl

theorem isNaN_normalize (k e : ℤ) (s : Sign) :
    (normalize F k e s).isNaN = false := by
  unfold UnpackedFloat.normalize
  split
  · exact isNaN_roundWithAccuracy _ _ _ _
  · rfl
  · exact isNaN_roundWithAccuracy _ _ _ _

theorem notNegative_normalize {k : ℤ} (hk : 0 ≤ k) (e : ℤ) :
    NotNegative (normalize F k e .positive) := by
  unfold UnpackedFloat.normalize
  split
  · next h => exact absurd (Int.compare_eq_lt.mp h) hk.not_gt
  · trivial
  · exact notNegative_roundWithAccuracy _ _ _

theorem NotNegative.add (hu : NotNegative u) (hv : NotNegative v) :
    NotNegative (UnpackedFloat.add F u v) := by
  cases u with
  | notANumber => trivial
  | infinity s =>
    obtain rfl : s = .positive := hu
    cases v with
    | infinity t =>
      obtain rfl : t = .positive := hv
      rfl
    | notANumber => trivial
    | zero t => rfl
    | finite t n f hn => rfl
  | zero s =>
    cases v with
    | zero t => cases s <;> cases t <;> trivial
    | notANumber => trivial
    | infinity t => exact hv
    | finite t n f hn => exact hv
  | finite s m e hm =>
    obtain rfl : s = .positive := hu
    cases v with
    | notANumber => trivial
    | infinity t => exact hv
    | zero t => rfl
    | finite t n f hn =>
      obtain rfl : t = .positive := hv
      exact notNegative_normalize
        (Int.add_nonneg (Int.natCast_nonneg _) (Int.natCast_nonneg _)) _

theorem NotNegative.mul (hu : NotNegative u) (hv : NotNegative v) :
    NotNegative (UnpackedFloat.mul F u v) := by
  cases u with
  | notANumber => trivial
  | zero s => cases v <;> trivial
  | infinity s =>
    obtain rfl : s = .positive := hu
    cases v with
    | notANumber => trivial
    | zero t => trivial
    | infinity t =>
      obtain rfl : t = .positive := hv
      rfl
    | finite t n f hn =>
      obtain rfl : t = .positive := hv
      rfl
  | finite s m e hm =>
    obtain rfl : s = .positive := hu
    cases v with
    | notANumber => trivial
    | zero t => trivial
    | infinity t =>
      obtain rfl : t = .positive := hv
      rfl
    | finite t n f hn =>
      obtain rfl : t = .positive := hv
      exact notNegative_roundWithAccuracy _ _ _

theorem NotNegative.div (hu : NotNegative u) (hv : NotNegative v)
    (hv0 : ∀ s, v ≠ .zero s) : NotNegative (UnpackedFloat.div F u v) := by
  cases v with
  | zero t => exact absurd rfl (hv0 t)
  | notANumber => cases u <;> trivial
  | infinity t => cases u <;> trivial
  | finite t n f hn =>
    obtain rfl : t = .positive := hv
    cases u with
    | notANumber => trivial
    | zero s => trivial
    | infinity s =>
      obtain rfl : s = .positive := hu
      rfl
    | finite s m e hm =>
      obtain rfl : s = .positive := hu
      exact notNegative_roundWithAccuracy _ _ _

/-- A product is no number if a factor is none or infinity meets zero. -/
theorem isNaN_mul_iff : (UnpackedFloat.mul F u v).isNaN = true
    ↔ (u.isNaN = true ∨ v.isNaN = true)
      ∨ (∃ s t, u = .infinity s ∧ v = .zero t) ∨ ∃ s t,
        u = .zero s ∧ v = .infinity t := by
  cases u <;> cases v <;> simp only [UnpackedFloat.mul, isNaN_roundWithAccuracy]
    <;>
    simp [UnpackedFloat.isNaN]

theorem isNaN_div_finite (u : UnpackedFloat) {s : Sign} {m : ℕ} {e : ℤ}
    (hm : 0 < m) :
    (UnpackedFloat.div F u (.finite s m e hm)).isNaN = u.isNaN := by
  cases u with
  | finite t n f hn => exact isNaN_roundWithAccuracy _ _ _ _
  | _ => rfl

theorem isNaN_sub_finite (u : UnpackedFloat) {s : Sign} {m : ℕ} {e : ℤ}
    (hm : 0 < m) :
    (UnpackedFloat.sub F u (.finite s m e hm)).isNaN = u.isNaN := by
  cases u with
  | finite t n f hn => exact isNaN_normalize _ _ _
  | _ => rfl

theorem isNaN_abs (u : UnpackedFloat) : u.abs.isNaN = u.isNaN := by
  cases u <;> rfl

/-! ## Whole numbers -/

/-- The significand that is found for a whole number fills one binade. -/
theorem significand_bounds (F : Format) {n s : ℕ} (hn : 0 < n)
    (hs : ((Ratio.ofNat n).shift 2
      (-((n.log2 : ℤ) - F.mantissaBitsWithoutImplicit))).nearest
      = s) : 0 < s ∧ s ≤ 2 * (patterns F).binade := by
  have hnear := ((Ratio.ofNat n).shift 2
    (-((n.log2 : ℤ) - F.mantissaBitsWithoutImplicit))).nearest_real.near
  rw [hs, Ratio.real_shift, Ratio.real_ofNat, neg_sub, Nat.cast_ofNat,
    zpow_sub₀ two_ne_zero, zpow_natCast, zpow_natCast] at hnear
  have hlow : (2 : ℝ) ^ n.log2 ≤ n := by exact_mod_cast Nat.log2_self_le hn.ne'
  have hhigh : (n : ℝ) ≤ 2 ^ n.log2 * 2 := by
    exact_mod_cast (Nat.lt_log2_self (n := n)).le
  have hpow : (0 : ℝ) < 2 ^ n.log2 := by positivity
  have hbinade : (1 : ℝ) ≤ 2 ^ F.mantissaBitsWithoutImplicit :=
    one_le_pow₀ one_le_two
  have hfull : (2 : ℝ) ^ F.mantissaBitsWithoutImplicit
      ≤ n * (2 ^ F.mantissaBitsWithoutImplicit / 2 ^ n.log2) := by
    rw [mul_div_assoc', le_div_iff₀ hpow, mul_comm]
    exact mul_le_mul_of_nonneg_right hlow (by positivity)
  have hfits : n * ((2 : ℝ) ^ F.mantissaBitsWithoutImplicit / 2 ^ n.log2)
      ≤ 2 * 2 ^ F.mantissaBitsWithoutImplicit := by
    rw [mul_div_assoc', div_le_iff₀ hpow, mul_right_comm, mul_comm 2]
    exact mul_le_mul_of_nonneg_right hhigh (by positivity)
  obtain ⟨hnear₁, hnear₂⟩ := abs_le.mp hnear
  constructor
  · have hpos : (0 : ℝ) < s := by linarith
    exact_mod_cast hpos
  · have hlt : (s : ℝ) < 2 * 2 ^ F.mantissaBitsWithoutImplicit + 1 := by
      linarith
    exact Nat.lt_succ_iff.mp (by exact_mod_cast hlt)

/-- The pattern of a whole number that is not too large lies between those of
zero and infinity. -/
theorem ofNat_bounds {n : ℕ} (hn : 0 < n) (hlog : n.log2 < F.exponentBias) :
    0 < (patterns F).ofNat n
      ∧ (patterns F).ofNat n < (patterns F).infinity := by
  have hcap := two_pow_exponentBits F
  have hpattern := ofNat_eq_min (Nat.zero_lt_of_lt hlog) hn
  generalize hs : ((Ratio.ofNat n).shift 2
    (-((n.log2 : ℤ) - F.mantissaBitsWithoutImplicit))).nearest = s at hpattern
  obtain ⟨hpos, hfits⟩ := significand_bounds F hn hs
  have hbelow : (n.log2 + F.exponentBias - 1) * (patterns F).binade + s
      < (patterns F).infinity := by
    calc (n.log2 + F.exponentBias - 1) * (patterns F).binade + s
        ≤ (n.log2 + F.exponentBias - 1 + 2) * (patterns F).binade := by
          rw [Nat.add_mul]
          exact Nat.add_le_add_left hfits _
      _ < (patterns F).exponentLimit * (patterns F).binade := by
          refine Nat.mul_lt_mul_of_pos_right ?_ (patterns F).binade_pos
          show _ < 2 ^ F.exponentBits - 1
          omega
  rw [hpattern, min_eq_left hbelow.le]
  exact ⟨Nat.add_pos_right _ hpos, hbelow⟩

/-- A pattern between those of zero and infinity is that of a positive
number. -/
theorem unpack_of_bounds (hbias : F.mantissaBits ≤ F.exponentBias) {p : ℕ}
    (hpos : 0 < p) (hlt : p < (patterns F).infinity) :
    ∃ m e, ∃ hm : 0 < m,
      UnpackedFloat.unpack F (.ofNat _ p) = .finite .positive m e hm
        ∧ (patterns F).Canonical m e := by
  have hlimit := one_lt_exponentLimit hbias
  have hbinade := (patterns F).binade_pos
  have hbelow : p < (patterns F).signBit := by
    rw [(patterns F).signBit_eq]
    exact hlt.trans_le (Nat.mul_le_mul_right _ (Nat.le_succ _))
  have hnat : (BitVec.ofNat F.numBits p).toNat = p := by
    rw [BitVec.toNat_ofNat]
    refine Nat.mod_eq_of_lt (hbelow.trans_le (Nat.pow_le_pow_right two_pos ?_))
    show F.mantissaBitsWithoutImplicit + F.exponentBits ≤ F.numBits
    simp only [Format.numBits]
    omega
  have hbiased : p / (patterns F).binade < (patterns F).exponentLimit := by
    rwa [Nat.div_lt_iff_lt_mul hbinade]
  obtain ⟨m, e, hm, hdecode⟩ :
      ∃ m e, 0 < m ∧ (patterns F).decode p = .finite false m e := by
    unfold Binary.Format.decode
    simp only [Nat.mod_eq_of_lt hbelow, Nat.div_eq_of_lt hbelow,
      if_neg hbiased.ne]
    split
    · next hzero =>
      refine ⟨_, _, ?_, rfl⟩
      rwa [Nat.mod_eq_of_lt ((Nat.div_eq_zero_iff_lt hbinade).mp hzero)]
    · exact ⟨_, _, Nat.add_pos_left hbinade _, rfl⟩
  have hunpack := decode_toNat (BitVec.ofNat F.numBits p)
  rw [hnat, hdecode] at hunpack
  refine ⟨m, e, hm, ?_,
    (Binary.Format.eq_patternOf_of_decode (by omega) hlimit hdecode).1⟩
  rcases hu : UnpackedFloat.unpack F (BitVec.ofNat F.numBits p)
      with t | - | t | ⟨t, k, l, hk⟩ <;>
      rw [hu] at hunpack <;>
      simp only [decoded, Binary.Value.finite.injEq, reduceCtorEq] at hunpack
  · omega
  · obtain ⟨ht, rfl, rfl⟩ := hunpack
    cases t with
    | negative => cases ht
    | positive => rfl

end Rounding

/-! ## Scalars -/

open Rounding

namespace FloatingPoint

variable {α : Type} [Scalar α] [FloatingPoint α] {a b : α}

/-- What packing leaves of the result of an operation. -/
def packed (α : Type) [Scalar α] [FloatingPoint α] (u : UnpackedFloat) :
    UnpackedFloat :=
  .unpack (model α) (UnpackedFloat.pack (model α) u)

theorem unpacked_add (a b : α) :
    unpacked (a + b) = packed α (.add (model α) (unpacked a) (unpacked b)) :=
  congrArg (UnpackedFloat.unpack (model α)) (bits_add a b)

theorem unpacked_mul (a b : α) :
    unpacked (a * b) = packed α (.mul (model α) (unpacked a) (unpacked b)) :=
  congrArg (UnpackedFloat.unpack (model α)) (bits_mul a b)

theorem unpacked_div (a b : α) :
    unpacked (a / b) = packed α (.div (model α) (unpacked a) (unpacked b)) :=
  congrArg (UnpackedFloat.unpack (model α)) (bits_div a b)

theorem unpacked_sub [StandardFloat α] (a b : α) :
    unpacked (a - b) = packed α (.sub (model α) (unpacked a) (unpacked b)) :=
  congrArg (UnpackedFloat.unpack (model α)) (StandardFloat.bits_sub a b)

theorem unpacked_abs (a : α) :
    unpacked (Scalar.abs a) = packed α (unpacked a).abs :=
  congrArg (UnpackedFloat.unpack (model α)) (bits_abs a)

theorem unpacked_sqrt (a : α) :
    unpacked (Scalar.sqrt a) = packed α (.sqrt (model α) (unpacked a)) :=
  congrArg (UnpackedFloat.unpack (model α)) (bits_sqrt a)

theorem packed_zero (s : Sign) : packed α (.zero s) = .zero s :=
  unpack_pack_zero s

theorem packed_finite (s : Sign) {m : ℕ} {e : ℤ} (hm : 0 < m)
    (hc : (patterns (model α)).Canonical m e) :
    packed α (.finite s m e hm) = .finite s m e hm :=
  unpack_pack_of_canonical hm hc

theorem notNegative_packed {u : UnpackedFloat} (hu : NotNegative u) :
    NotNegative (packed α u) :=
  hu.unpack_pack

/-- Whole numbers are positive numbers up to the end of the format. -/
theorem unpacked_ofNat_pos {n : ℕ} (hn : 0 < n)
    (hlog : n.log2 < (model α).exponentBias) :
    ∃ m e, ∃ hm : 0 < m, unpacked (Scalar.ofNat n : α)
      = .finite .positive m e hm
      ∧ (patterns (model α)).Canonical m e := by
  obtain ⟨hpos, hlt⟩ := ofNat_bounds hn hlog
  obtain ⟨m, e, hm, hunpack, hcanonical⟩ :=
    unpack_of_bounds mantissaBits_le hpos hlt
  refine ⟨m, e, hm, ?_, hcanonical⟩
  rw [unpacked, bits_ofNat, hunpack]
  exact unpack_pack_of_canonical hm hcanonical

theorem exponentBias_pos (α : Type) [Scalar α] [FloatingPoint α] :
    0 < (model α).exponentBias :=
  (Nat.succ_pos _).trans_le
    ((mantissaBits_eq (model α)).symm.trans_le mantissaBits_le)

theorem unpacked_one :
    ∃ m e, ∃ hm : 0 < m, unpacked (1 : α) = .finite .positive m e hm
      ∧ (patterns (model α)).Canonical m e := by
  rw [one_eq]
  exact unpacked_ofNat_pos Nat.one_pos (exponentBias_pos α)

/-! ### Signs -/

theorem not_neg_iff : ¬ a < 0 ↔ NotNegative (unpacked a) := by
  rw [lt_iff]
  show ¬ UnpackedFloat.lt (unpacked a) (unpacked 0) = true ↔ _
  rw [unpacked_zero]
  rcases unpacked a with (_ | _) | - | (_ | _) | ⟨_ | _, m, e, hm⟩ <;>
    simp [NotNegative, UnpackedFloat.lt, UnpackedFloat.compare]

theorem pos_iff : 0 < a ↔ unpacked a = .infinity .positive
    ∨ ∃ m e, ∃ hm : 0 < m, unpacked a = .finite .positive m e hm := by
  rw [lt_iff]
  show UnpackedFloat.lt (unpacked 0) (unpacked a) = true ↔ _
  rw [unpacked_zero]
  rcases unpacked a with (_ | _) | - | (_ | _) | ⟨_ | _, m, e, hm⟩ <;>
    simp [UnpackedFloat.lt, UnpackedFloat.compare]
  exact hm

theorem beq_zero_iff_unpacked :
    (a == 0) = true ↔ ∃ s, unpacked a = .zero s := by
  rw [beq_eq]
  show UnpackedFloat.beq (unpacked a) (unpacked 0) = true ↔ _
  rw [unpacked_zero]
  rcases unpacked a with (_ | _) | - | (_ | _) | ⟨_ | _, m, e, hm⟩ <;>
    simp [UnpackedFloat.beq, UnpackedFloat.compare]

theorem add_not_neg (ha : ¬ a < 0) (hb : ¬ b < 0) : ¬ a + b < 0 := by
  rw [not_neg_iff] at ha hb ⊢
  rw [unpacked_add]
  exact notNegative_packed (ha.add hb)

theorem mul_not_neg (ha : ¬ a < 0) (hb : ¬ b < 0) : ¬ a * b < 0 := by
  rw [not_neg_iff] at ha hb ⊢
  rw [unpacked_mul]
  exact notNegative_packed (ha.mul hb)

theorem not_neg_zero : ¬ (0 : α) < 0 := by
  rw [not_neg_iff, unpacked_zero]
  trivial

theorem foldl_add_not_neg {l : List α} (hl : ∀ t ∈ l, ¬ t < 0) {acc : α}
    (hacc : ¬ acc < 0) :
    ¬ l.foldl (· + ·) acc < 0 := by
  induction l generalizing acc with
  | nil => exact hacc
  | cons t l ih =>
    exact ih (fun u hu => hl u (List.mem_cons_of_mem t hu))
      (add_not_neg hacc (hl t List.mem_cons_self))

/-- A count is a number, as long as the format reaches beyond it. -/
theorem ofNat_not_neg {n : ℕ} (hlog : n.log2 < (model α).exponentBias) :
    Scalar.isFinite (Scalar.ofNat n : α) = true
      ∧ ¬ (Scalar.ofNat n : α) < 0 := by
  rw [not_neg_iff, ← isFinite_unpacked]
  rcases Nat.eq_zero_or_pos n with rfl | hn
  · rw [unpacked_ofNat_zero]
    exact ⟨rfl, trivial⟩
  · obtain ⟨m, e, hm, h, -⟩ := unpacked_ofNat_pos (α := α) hn hlog
    rw [h]
    exact ⟨rfl, rfl⟩

/-- A product with zero is zero. -/
theorem zero_of_mul_zero (ha : Scalar.isFinite a = true)
    (hb : (b == 0) = true) :
    (a * b == 0) = true := by
  obtain ⟨t, hb⟩ := beq_zero_iff_unpacked.mp hb
  rw [← isFinite_unpacked] at ha
  rw [beq_zero_iff_unpacked, unpacked_mul, hb]
  obtain ⟨s, ha⟩ | ⟨s, m, e, hm, ha⟩ := finite_cases ha <;> rw [ha] <;>
    exact ⟨_, packed_zero _⟩

theorem zero_of_div_ofNat {n : ℕ} (hn : 0 < n)
    (hlog : n.log2 < (model α).exponentBias) (ha : (a == 0) = true) :
    (a / Scalar.ofNat n == 0) = true := by
  obtain ⟨t, ha⟩ := beq_zero_iff_unpacked.mp ha
  obtain ⟨m, e, hm, h, -⟩ := unpacked_ofNat_pos (α := α) hn hlog
  rw [beq_zero_iff_unpacked, unpacked_div, ha, h]
  exact ⟨_, packed_zero _⟩

/-! ### Results that are no number -/

section NaN

variable [StandardFloat α]

theorem isNaN_of_packed {x : α} {u : UnpackedFloat}
    (h : unpacked x = packed α u) :
    Scalar.isNaN x = u.isNaN := by
  rw [StandardFloat.isNaN_eq, h]
  exact isNaN_unpack_pack _ u

theorem not_lt_of_isNaN (h : Scalar.isNaN a = true) : ¬ a < b := by
  rw [StandardFloat.isNaN_eq] at h
  intro hlt
  rw [(lt_iff_rank.mp hlt).1] at h
  cases h

theorem zero_le_iff : 0 ≤ a ↔ Scalar.isNaN a = false ∧ ¬ a < 0 := by
  rw [StandardFloat.isNaN_eq, not_neg_iff, StandardFloat.le_iff, unpacked_zero]
  rcases unpacked a with (_ | _) | - | (_ | _) | ⟨_ | _, m, e, hm⟩ <;>
    simp [NotNegative, UnpackedFloat.isNaN, UnpackedFloat.le,
      UnpackedFloat.compare]

/-- What is not negative is positive, zero or no number. -/
theorem not_neg_cases (h : ¬ a < 0) :
    0 < a ∨ (0 ≤ a ∧ (a == 0) = true) ∨ Scalar.isNaN a = true := by
  rw [not_neg_iff] at h
  rw [zero_le_iff, not_neg_iff, StandardFloat.isNaN_eq, beq_zero_iff_unpacked,
    pos_iff]
  cases hu : unpacked a with
  | infinity s =>
    rw [hu] at h
    obtain rfl : s = .positive := h
    exact .inl (.inl rfl)
  | finite s m e hm =>
    rw [hu] at h
    obtain rfl : s = .positive := h
    exact .inl (.inr ⟨m, e, hm, rfl⟩)
  | zero s => exact .inr (.inl ⟨⟨rfl, trivial⟩, s, rfl⟩)
  | notANumber => exact .inr (.inr rfl)

theorem zero_le_of_pos (h : 0 < a) : 0 ≤ a ∧ (a == 0) = false := by
  refine ⟨FloatingPoint.le_of_lt h, Bool.eq_false_iff.mpr fun hzero => ?_⟩
  obtain ⟨s, hzero⟩ := beq_zero_iff_unpacked.mp hzero
  rcases pos_iff.mp h with h | ⟨m, e, hm, h⟩ <;> rw [hzero] at h <;> cases h

theorem beq_zero_of_isNaN (h : Scalar.isNaN a = true) : (a == 0) = false := by
  refine Bool.eq_false_iff.mpr fun hzero => ?_
  obtain ⟨s, hzero⟩ := beq_zero_iff_unpacked.mp hzero
  rw [StandardFloat.isNaN_eq, hzero] at h
  cases h

theorem isNaN_mul_right (a : α) (hb : Scalar.isNaN b = true) :
    Scalar.isNaN (a * b) = true := by
  rw [StandardFloat.isNaN_eq] at hb
  rw [isNaN_of_packed (unpacked_mul a b), Rounding.isNaN_mul_iff]
  exact .inl (.inr hb)

/-- What is finite is a number. -/
theorem isNaN_of_isFinite (h : Scalar.isFinite a = true) :
    Scalar.isNaN a = false := by
  rw [← isFinite_unpacked] at h
  rw [StandardFloat.isNaN_eq]
  cases hu : unpacked a with
  | notANumber =>
    rw [hu] at h
    cases h
  | _ => rfl

/-- A quotient of a finite number by a positive one is a number, even if
that is infinite. -/
theorem zero_le_div (ha : Scalar.isFinite a = true) (ha' : ¬ a < 0)
    (hb : 0 < b) :
    0 ≤ a / b := by
  rw [← isFinite_unpacked] at ha
  rw [not_neg_iff] at ha'
  obtain ⟨hpositive, hnonzero, hnumber⟩ : NotNegative (unpacked b)
      ∧ (∀ s, unpacked b ≠ .zero s)
      ∧ (UnpackedFloat.div (model α) (unpacked a) (unpacked b)).isNaN
        = false := by
    rcases pos_iff.mp hb with h | ⟨m, e, hm, h⟩
    · rw [h]
      refine ⟨rfl, (fun s h => nomatch h), ?_⟩
      rcases finite_cases ha with ⟨s, ha⟩ | ⟨s, m, e, hm, ha⟩
        <;> rw [ha] <;> rfl
    · rw [h]
      refine ⟨rfl, (fun s h => nomatch h), ?_⟩
      rw [isNaN_div_finite _ hm]
      rcases finite_cases ha with ⟨s, ha⟩ | ⟨s, m, e, hm, ha⟩
        <;> rw [ha] <;> rfl
  rw [zero_le_iff, isNaN_of_packed (unpacked_div a b), not_neg_iff,
    unpacked_div]
  exact ⟨hnumber, notNegative_packed (ha'.div hpositive hnonzero)⟩

/-- A product of numbers that are not negative is no number just where
infinity meets zero. -/
theorem isNaN_mul_iff_of_zero_le (ha : 0 ≤ a) (hb : 0 ≤ b) :
    Scalar.isNaN (a * b) = true
      ↔ (Scalar.isFinite a = false ∧ (b == 0) = true)
        ∨ ((a == 0) = true ∧ Scalar.isFinite b = false) := by
  obtain ⟨ha', -⟩ := zero_le_iff.mp ha
  obtain ⟨hb', -⟩ := zero_le_iff.mp hb
  rw [StandardFloat.isNaN_eq] at ha' hb'
  rw [isNaN_of_packed (unpacked_mul a b), Rounding.isNaN_mul_iff,
    beq_zero_iff_unpacked, beq_zero_iff_unpacked, ← isFinite_unpacked,
    ← isFinite_unpacked]
  generalize unpacked a = u at ha' ⊢
  generalize unpacked b = v at hb' ⊢
  cases u <;> cases v <;> simp_all [UnpackedFloat.isFinite, UnpackedFloat.isNaN]

protected theorem zero_le_one : (0 : α) ≤ 1 := by
  obtain ⟨m, e, hm, h, -⟩ := unpacked_one (α := α)
  rw [zero_le_iff, StandardFloat.isNaN_eq, not_neg_iff, h]
  exact ⟨rfl, rfl⟩

/-! ### The steps of a relative deviation -/

theorem isNaN_abs (a : α) : Scalar.isNaN (Scalar.abs a) = Scalar.isNaN a := by
  rw [isNaN_of_packed (unpacked_abs a), Rounding.isNaN_abs,
    StandardFloat.isNaN_eq]

theorem isNaN_sub_one (a : α) : Scalar.isNaN (a - 1) = Scalar.isNaN a := by
  obtain ⟨m, e, hm, h, -⟩ := unpacked_one (α := α)
  rw [isNaN_of_packed (unpacked_sub a 1), h, isNaN_sub_finite _ hm,
    StandardFloat.isNaN_eq]

theorem isNaN_div_ofNat {n : ℕ} (hn : 0 < n)
    (hlog : n.log2 < (model α).exponentBias) (a : α) :
    Scalar.isNaN (a / Scalar.ofNat n) = Scalar.isNaN a := by
  obtain ⟨m, e, hm, h, -⟩ := unpacked_ofNat_pos (α := α) hn hlog
  rw [isNaN_of_packed (unpacked_div a _), h, isNaN_div_finite _ hm,
    StandardFloat.isNaN_eq]

/-- Zero differs from one by one. -/
theorem unpacked_abs_zero_sub_one (ha : (a == 0) = true) :
    unpacked (Scalar.abs (a - 1)) = unpacked (1 : α) := by
  obtain ⟨t, ha⟩ := beq_zero_iff_unpacked.mp ha
  obtain ⟨m, e, hm, h, hcanonical⟩ := unpacked_one (α := α)
  have hdifference : unpacked (a - 1) = .finite .negative m e hm := by
    rw [unpacked_sub, ha, h]
    exact packed_finite _ hm hcanonical
  rw [unpacked_abs, hdifference, h]
  exact packed_finite _ hm hcanonical

end NaN

end FloatingPoint

end Equilibration
