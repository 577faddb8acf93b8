import Equilibration.Proofs.Packing
import Equilibration.Scalar

/-!
# FloatingPoint — scalars as rounded reals

`FloatingPoint α` says of a scalar type that its numbers are the packed
numbers of a binary format and that its operations unpack, compute and
pack; both precisions are instances by definition. A finite number then
stands for a real number (`FloatingPoint.toReal`), and the result of an
operation on finite numbers is a faithful rounding of the exact result,
unless that is too large (`FloatingPoint.Rounded`).
-/

namespace Equilibration

open Rounding Float.Model

/-- A scalar whose numbers are the packed numbers of a binary format, and
whose operations unpack, compute and pack. -/
class FloatingPoint (α : Type) [Scalar α] where
  /-- The format. -/
  model : Format
  /-- The packed number. -/
  bits : α → BitVec model.numBits
  mantissaBits_le : model.mantissaBits ≤ model.exponentBias
  bits_add (a b : α) : bits (a + b)
    = UnpackedFloat.pack model
      (.add model (.unpack model (bits a)) (.unpack model (bits b)))
  bits_mul (a b : α) : bits (a * b)
    = UnpackedFloat.pack model
      (.mul model (.unpack model (bits a)) (.unpack model (bits b)))
  bits_div (a b : α) : bits (a / b)
    = UnpackedFloat.pack model
      (.div model (.unpack model (bits a)) (.unpack model (bits b)))
  bits_neg (a : α) : bits (-a)
    = UnpackedFloat.pack model (UnpackedFloat.unpack model (bits a)).neg
  bits_abs (a : α) : bits (Scalar.abs a)
    = UnpackedFloat.pack model (UnpackedFloat.unpack model (bits a)).abs
  bits_sqrt (a : α) : bits (Scalar.sqrt a)
    = UnpackedFloat.pack model (.sqrt model (.unpack model (bits a)))
  bits_ofNat (n : Nat) : bits (Scalar.ofNat n)
    = UnpackedFloat.pack model
      (.unpack model (.ofNat _ ((patterns model).ofNat n)))
  lt_iff (a b : α) :
    a < b ↔ UnpackedFloat.lt (.unpack model (bits a)) (.unpack model (bits b))
      = true
  beq_eq (a b : α) :
    (a == b)
      = UnpackedFloat.beq (.unpack model (bits a)) (.unpack model (bits b))
  isFinite_eq (a : α) :
    Scalar.isFinite a = UnpackedFloat.isFinite (.unpack model (bits a))
  zero_eq : (0 : α) = Scalar.ofNat 0
  one_eq : (1 : α) = Scalar.ofNat 1

instance : FloatingPoint Float where
  model := .binary64
  bits x := x.toModel.toBits.toBitVec
  mantissaBits_le := by decide
  bits_add _ _ := rfl
  bits_mul _ _ := rfl
  bits_div _ _ := rfl
  bits_neg _ := rfl
  bits_abs _ := rfl
  bits_sqrt _ := rfl
  bits_ofNat _ := rfl
  lt_iff _ _ := decide_eq_true_iff
  beq_eq _ _ := rfl
  isFinite_eq _ := rfl
  zero_eq := by decide +kernel
  one_eq := by decide +kernel

instance : FloatingPoint Float32 where
  model := .binary32
  bits x := x.toModel.toBits.toBitVec
  mantissaBits_le := by decide
  bits_add _ _ := rfl
  bits_mul _ _ := rfl
  bits_div _ _ := rfl
  bits_neg _ := rfl
  bits_abs _ := rfl
  bits_sqrt _ := rfl
  bits_ofNat _ := rfl
  lt_iff _ _ := decide_eq_true_iff
  beq_eq _ _ := rfl
  isFinite_eq _ := rfl
  zero_eq := by decide +kernel
  one_eq := by decide +kernel

namespace FloatingPoint

theorem bits_double_injective :
    Function.Injective (bits : Float → BitVec (model Float).numBits) := by
  rintro ⟨⟨⟨b⟩, _⟩⟩ ⟨⟨⟨c⟩, _⟩⟩ h
  cases h
  rfl

theorem bits_single_injective :
    Function.Injective (bits : Float32 → BitVec (model Float32).numBits) := by
  rintro ⟨⟨⟨b⟩, _⟩⟩ ⟨⟨⟨c⟩, _⟩⟩ h
  cases h
  rfl

variable {α : Type} [Scalar α] [FloatingPoint α]

/-- The unpacked number. -/
def unpacked (x : α) : UnpackedFloat := .unpack (model α) (bits x)

/-- The real number that a finite number stands for. -/
noncomputable def toReal (x : α) : ℝ := value (unpacked x)

/-- `x` is finite and a faithful rounding of `y`. -/
structure Rounded (y : ℝ) (x : α) : Prop where
  finite : Scalar.isFinite x = true
  faithful : Faithful (model α) y (toReal x)

section Laws

variable {a b : α}

theorem isFinite_unpacked (x : α) : (unpacked x).isFinite = Scalar.isFinite x :=
  (isFinite_eq x).symm

theorem canonical_unpacked (x : α) : Canonical (model α) (unpacked x) :=
  canonical_unpack _

theorem rounded_of_bits {y : ℝ} {x : α} {u : UnpackedFloat}
    (hbits : bits x = UnpackedFloat.pack (model α) u)
    (hu : Rounds (model α) y u) (hy : |y| ≤ 2 ^ (model α).exponentBias) :
    Rounded y x := by
  have hbias : 0 < (model α).exponentBias :=
    (Nat.succ_pos _).trans_le
      ((mantissaBits_eq (model α)).symm.trans_le mantissaBits_le)
  have hunpacked : unpacked x = u := by
    rw [unpacked, hbits]
    exact hu.unpack_pack hbias hy
  refine ⟨?_, ?_⟩
  · rw [← isFinite_unpacked, hunpacked]
    exact hu.finite
  · rw [toReal, hunpacked]
    exact hu.faithful

theorem rounded_add (ha : Scalar.isFinite a = true)
    (hb : Scalar.isFinite b = true)
    (h : |toReal a + toReal b| ≤ 2 ^ (model α).exponentBias) :
    Rounded (toReal a + toReal b) (a + b) :=
  rounded_of_bits (bits_add a b) (rounds_add ((isFinite_unpacked a).trans ha)
      ((isFinite_unpacked b).trans hb)
      (canonical_unpacked a) (canonical_unpacked b)) h

theorem rounded_mul (ha : Scalar.isFinite a = true)
    (hb : Scalar.isFinite b = true)
    (h : |toReal a * toReal b| ≤ 2 ^ (model α).exponentBias) :
    Rounded (toReal a * toReal b) (a * b) :=
  rounded_of_bits (bits_mul a b) (rounds_mul ((isFinite_unpacked a).trans ha)
      ((isFinite_unpacked b).trans hb)
      (canonical_unpacked a) (canonical_unpacked b)) h

theorem rounded_div (ha : Scalar.isFinite a = true)
    (hb : Scalar.isFinite b = true) (hb0 : toReal b ≠ 0)
    (h : |toReal a / toReal b| ≤ 2 ^ (model α).exponentBias) :
    Rounded (toReal a / toReal b) (a / b) :=
  rounded_of_bits (bits_div a b) (rounds_div ((isFinite_unpacked a).trans ha)
      ((isFinite_unpacked b).trans hb) hb0) h

theorem rounded_sqrt (ha : Scalar.isFinite a = true) (hnonneg : 0 ≤ toReal a)
    (h : √(toReal a) ≤ 2 ^ (model α).exponentBias) :
    Rounded √(toReal a) (Scalar.sqrt a) :=
  rounded_of_bits (bits_sqrt a)
    (rounds_sqrt ((isFinite_unpacked a).trans ha) hnonneg)
    (by rwa [abs_of_nonneg (Real.sqrt_nonneg _)])

theorem rounded_neg (ha : Scalar.isFinite a = true)
    (h : |toReal a| ≤ 2 ^ (model α).exponentBias) : Rounded (-toReal a) (-a) :=
  rounded_of_bits (bits_neg a)
    (rounds_neg ((isFinite_unpacked a).trans ha) (canonical_unpacked a))
    (by rwa [abs_neg])

theorem rounded_abs (ha : Scalar.isFinite a = true)
    (h : |toReal a| ≤ 2 ^ (model α).exponentBias) :
    Rounded |toReal a| (Scalar.abs a) :=
  rounded_of_bits (bits_abs a)
    (rounds_abs ((isFinite_unpacked a).trans ha) (canonical_unpacked a))
    (by rwa [abs_abs])

/-- Every number stands for a number of the format. -/
theorem grid_toReal (x : α) : Grid (model α) (toReal x) := by
  have hc := canonical_unpacked x
  unfold toReal
  generalize unpacked x = u at hc
  rcases u with s | - | s | ⟨s, m, e, hm⟩
  · exact grid_zero _
  · exact grid_zero _
  · exact grid_zero _
  · have hgrid := grid_natCast_mul hc.1.le hc.2.1
    cases s
    · exact hgrid.neg
    · exact hgrid

/-- A number of the format is its own rounding. -/
theorem Rounded.toReal_eq {y : ℝ} {x : α} (h : Rounded y x)
    (hy : Grid (model α) y) :
    toReal x = y := h.faithful.eq_of_grid hy

theorem Rounded.of_zero {x : α} (h : Rounded 0 x) :
    Scalar.isFinite x = true ∧ toReal x = 0 :=
  ⟨h.finite, h.toReal_eq (grid_zero _)⟩

/-! ### Whole numbers -/

theorem unpacked_ofNat_zero :
    unpacked (Scalar.ofNat 0 : α) = .zero .positive := by
  have hpattern :
      (BitVec.ofNat (model α).numBits ((patterns (model α)).ofNat 0))
        = UnpackedFloat.pack (model α) (.zero .positive) := by
    apply BitVec.eq_of_toNat_eq
    show _ = (UnpackedFloat.packComponents (model α) .positive 0 0).toNat
    rw [toNat_packComponents]
    simp [Binary.Format.ofNat, Binary.Format.magnitude, Ratio.ofNat]
  rw [unpacked, bits_ofNat, hpattern, unpack_pack_zero, unpack_pack_zero]

/-- Whole numbers are exact as long as the significand has room. -/
theorem isFinite_ofNat {n : ℕ} (hfits : n < 2 ^ (model α).mantissaBits) :
    Scalar.isFinite (Scalar.ofNat n : α) = true
      ∧ toReal (Scalar.ofNat n : α) = n := by
  rw [← isFinite_unpacked, toReal]
  rcases Nat.eq_zero_or_pos n with rfl | hn
  · rw [unpacked_ofNat_zero]
    exact ⟨rfl, Nat.cast_zero.symm⟩
  · have hlog := log2_lt_mantissaBits hfits
    have hbits := mantissaBits_eq (model α)
    have hmin := minExponent_eq (model α)
    have hbias := mantissaBits_le (α := α)
    obtain ⟨hlow, hhigh⟩ := full_mantissa hn hfits
    obtain ⟨hpos, hpattern⟩ := ofNat_pattern hn hfits hbias
    have hunpacked : unpacked (Scalar.ofNat n : α) = .finite .positive _
        (n.log2 - (model α).mantissaBitsWithoutImplicit) hpos := by
      have hpack := unpack_pack_finite (F := model α) .positive
        (e := n.log2 - (model α).mantissaBitsWithoutImplicit) hpos
        ⟨hhigh.trans_eq (by rw [mul_comm, ← pow_succ, hbits]), by omega,
          .inl hlow⟩ (by omega)
      rw [unpacked, bits_ofNat, hpattern, hpack, hpack]
    rw [hunpacked]
    refine ⟨rfl, ?_⟩
    show ((n * 2 ^ ((model α).mantissaBitsWithoutImplicit - n.log2) : ℕ) : ℝ)
      * 2 ^ _ = n
    rw [Nat.cast_mul, Nat.cast_pow, Nat.cast_two, ← zpow_natCast, mul_assoc,
      ← zpow_add₀ two_ne_zero, Nat.cast_sub (by omega)]
    simp

theorem isFinite_zero :
    Scalar.isFinite (0 : α) = true ∧ toReal (0 : α) = 0 := by
  rw [zero_eq]
  exact_mod_cast isFinite_ofNat (α := α) (Nat.two_pow_pos _)

theorem isFinite_one : Scalar.isFinite (1 : α) = true ∧ toReal (1 : α) = 1 := by
  rw [one_eq]
  have hbits := mantissaBits_eq (model α)
  exact_mod_cast isFinite_ofNat (α := α) (Nat.one_lt_two_pow (by omega))

/-! ### Comparison with zero -/

theorem unpacked_zero : unpacked (0 : α) = .zero .positive := by
  rw [zero_eq]
  exact unpacked_ofNat_zero

theorem zero_lt_iff (ha : Scalar.isFinite a = true) : 0 < a ↔ 0 < toReal a := by
  rw [lt_iff]
  show UnpackedFloat.lt (unpacked 0) (unpacked a) = true ↔ _
  rw [unpacked_zero]
  exact Rounding.zero_lt_iff _ ((isFinite_unpacked a).trans ha)

theorem lt_zero_iff (ha : Scalar.isFinite a = true) : a < 0 ↔ toReal a < 0 := by
  rw [lt_iff]
  show UnpackedFloat.lt (unpacked a) (unpacked 0) = true ↔ _
  rw [unpacked_zero]
  exact Rounding.lt_zero_iff _ ((isFinite_unpacked a).trans ha)

theorem beq_zero_iff (ha : Scalar.isFinite a = true) :
    (a == 0) = true ↔ toReal a = 0 := by
  rw [beq_eq]
  show UnpackedFloat.beq (unpacked a) (unpacked 0) = true ↔ _
  rw [unpacked_zero]
  exact Rounding.beq_zero_iff _ ((isFinite_unpacked a).trans ha)

theorem zero_beq_zero : ((0 : α) == 0) = true :=
  (beq_zero_iff isFinite_zero.1).mpr isFinite_zero.2

theorem unpacked_sqrt_of_zero {x : α} (hx : unpacked x = .zero .positive) :
    unpacked (Scalar.sqrt x) = .zero .positive := by
  rw [unpacked, bits_sqrt]
  show UnpackedFloat.unpack _ (UnpackedFloat.pack _ (.sqrt _ (unpacked x))) = _
  rw [hx]
  exact unpack_pack_zero _

/-- The quotient of two zeros is not a number, and so not positive. -/
theorem not_pos_zero_div {a b : α} (ha : unpacked a = .zero .positive)
    (hb : unpacked b = .zero .positive) : ¬ 0 < a / b := by
  rw [lt_iff, bits_div]
  show ¬ UnpackedFloat.lt (unpacked 0) (UnpackedFloat.unpack _
    (UnpackedFloat.pack _ (.div _ (unpacked a) (unpacked b)))) = true
  rw [ha, hb, unpacked_zero,
    show UnpackedFloat.div (model α) (.zero .positive) (.zero .positive)
      = .notANumber from rfl, unpack_pack_notANumber]
  exact Bool.false_ne_true

end Laws

end FloatingPoint

end Equilibration
