import Equilibration.Proofs.SignedResults

/-!
# Negation — numbers that differ in their sign

Rounding looks at the magnitude only, and so does packing: whatever is
computed from the opposite of a number is the opposite of what is computed
from the number, or the same where the sign cancels (`FloatingPoint.neg_mul`,
`FloatingPoint.neg_mul_neg`, `FloatingPoint.abs_neg`). These are equations
between numbers, not between what they stand for. They need that no two
numbers unpack alike (`UniquelyPacked`), which holds of both precisions since
all that are not a number are one.
-/

namespace Equilibration

open Float.Model Float.Model.UnpackedFloat

namespace Rounding

variable {F : Format} {u v : UnpackedFloat}

theorem neg_neg_sign (s : Sign) : - -s = s := by cases s <;> rfl

theorem neg_mul_sign (s t : Sign) : -s * t = -(s * t) := by
  cases s <;> cases t <;> rfl

theorem neg_mul_neg_sign (s t : Sign) : -s * -t = s * t := by
  cases s <;> cases t <;> rfl

theorem neg_neg_unpacked (u : UnpackedFloat) : u.neg.neg = u := by
  cases u <;> simp only [UnpackedFloat.neg, neg_neg_sign]

theorem abs_neg_unpacked (u : UnpackedFloat) : u.neg.abs = u.abs := by
  cases u <;> rfl

theorem neg_of_isNaN (h : u.isNaN = true) : u.neg = u := by
  cases u with
  | notANumber => rfl
  | _ => cases h

theorem neg_roundWithAccuracy (s : Sign) (m : ℕ) (e : ℤ) (acc : Accuracy) :
    roundWithAccuracy F (-s) m e acc = (roundWithAccuracy F s m e acc).neg := by
  unfold roundWithAccuracy
  dsimp only
  split <;> rfl

theorem neg_mul_unpacked (u v : UnpackedFloat) :
    UnpackedFloat.mul F u.neg v = (UnpackedFloat.mul F u v).neg := by
  cases u <;> cases v <;>
    simp only [UnpackedFloat.neg, UnpackedFloat.mul, neg_mul_sign,
      neg_roundWithAccuracy]

theorem neg_mul_neg_unpacked (u v : UnpackedFloat) :
    UnpackedFloat.mul F u.neg v.neg = UnpackedFloat.mul F u v := by
  cases u <;> cases v
    <;> simp only [UnpackedFloat.neg, UnpackedFloat.mul, neg_mul_neg_sign]

theorem neg_unpack_packComponents (s : Sign) (E : BitVec F.exponentBits)
    (m : BitVec F.mantissaBitsWithoutImplicit) :
    UnpackedFloat.unpack F (packComponents F (-s) E m)
      = (UnpackedFloat.unpack F (packComponents F s E m)).neg := by
  unfold UnpackedFloat.unpack
  simp only [unpackSign_packComponents, unpackExponent_packComponents,
    unpackMantissa_packComponents, ofBitVec_toBitVec]
  split
  · split <;> rfl
  · split
    · split <;> rfl
    · rfl

/-- Packing forgets the same of a number as of its opposite. -/
theorem neg_unpack_pack (u : UnpackedFloat) :
    UnpackedFloat.unpack F (UnpackedFloat.pack F u.neg)
      = (UnpackedFloat.unpack F (UnpackedFloat.pack F u)).neg := by
  cases u with
  | notANumber =>
    rw [UnpackedFloat.neg, unpack_pack_notANumber, UnpackedFloat.neg]
  | infinity s =>
    rw [UnpackedFloat.neg, unpack_pack_infinity, unpack_pack_infinity,
      UnpackedFloat.neg]
  | zero s =>
    rw [UnpackedFloat.neg, unpack_pack_zero, unpack_pack_zero,
      UnpackedFloat.neg]
  | finite s m e hm =>
    unfold UnpackedFloat.neg UnpackedFloat.pack
    dsimp only
    split
    · exact neg_unpack_packComponents _ _ _
    · split
      · exact neg_unpack_packComponents _ _ _
      · exact neg_unpack_packComponents _ _ _

end Rounding

open Rounding FloatingPoint

/-- A scalar type in which no two numbers unpack alike. -/
class UniquelyPacked (α : Type) [Scalar α] [FloatingPoint α] : Prop where
  pack_unpacked (x : α) : UnpackedFloat.pack (model α) (unpacked x) = bits x
  eq_of_bits {x y : α} : bits x = bits y → x = y

/-- A valid pattern is that of the number it unpacks to. -/
theorem pack_unpack_of_valid {F : Format} (hF : 2 ≤ F.exponentBits)
    {b : BitVec F.numBits} (h : F.Valid b) :
    UnpackedFloat.pack F (UnpackedFloat.unpack F b) = b := by
  rw [UnpackedFloat.pack_unpack b hF]
  split
  · next hnan =>
    obtain ⟨hexponent, hmantissa⟩ := of_decide_eq_true hnan
    exact (h.eq_packedNaN hexponent hmantissa).symm
  · rfl

instance : UniquelyPacked Float where
  pack_unpacked x := pack_unpack_of_valid (by decide) x.toModel.valid
  eq_of_bits h := bits_double_injective h

instance : UniquelyPacked Float32 where
  pack_unpacked x := pack_unpack_of_valid (by decide) x.toModel.valid
  eq_of_bits h := bits_single_injective h

namespace FloatingPoint

variable {α : Type} [Scalar α] [FloatingPoint α] {a b : α}

theorem packed_neg (u : UnpackedFloat) : packed α u.neg = (packed α u).neg :=
  neg_unpack_pack u

theorem not_neg_of_zero (h : (a == 0) = true) : ¬ a < 0 := by
  obtain ⟨s, hzero⟩ := beq_zero_iff_unpacked.mp h
  exact not_neg_iff.mpr (by rw [hzero]; trivial)

theorem isNaN_sqrt [StandardFloat α] (h : Scalar.isNaN a = true) :
    Scalar.isNaN (Scalar.sqrt a) = true := by
  rw [StandardFloat.isNaN_eq] at h
  rw [isNaN_of_packed (unpacked_sqrt a)]
  cases hu : unpacked a with
  | notANumber => rfl
  | _ =>
    rw [hu] at h
    cases h

section UniquelyPacked

variable [UniquelyPacked α]

theorem eq_of_unpacked (h : unpacked a = unpacked b) : a = b := by
  apply UniquelyPacked.eq_of_bits
  rw [← UniquelyPacked.pack_unpacked a, h, UniquelyPacked.pack_unpacked]

theorem packed_unpacked (a : α) : packed α (unpacked a) = unpacked a :=
  congrArg (UnpackedFloat.unpack (model α)) (UniquelyPacked.pack_unpacked a)

theorem unpacked_neg (a : α) : unpacked (-a) = (unpacked a).neg := by
  have hbits : unpacked (-a) = packed α (unpacked a).neg :=
    congrArg (UnpackedFloat.unpack (model α)) (bits_neg a)
  rw [hbits, packed_neg, packed_unpacked]

protected theorem neg_neg (a : α) : - -a = a :=
  eq_of_unpacked (by rw [unpacked_neg, unpacked_neg, neg_neg_unpacked])

protected theorem neg_mul (a b : α) : -a * b = -(a * b) :=
  eq_of_unpacked (by rw [unpacked_mul, unpacked_neg, neg_mul_unpacked,
      packed_neg, unpacked_neg, unpacked_mul])

protected theorem neg_mul_neg (a b : α) : -a * -b = a * b :=
  eq_of_unpacked
    (by rw [unpacked_mul, unpacked_neg, unpacked_neg, neg_mul_neg_unpacked,
      unpacked_mul])

protected theorem abs_neg (a : α) : Scalar.abs (-a) = Scalar.abs a :=
  eq_of_unpacked
    (by rw [unpacked_abs, unpacked_neg, abs_neg_unpacked, unpacked_abs])

/-! ### Magnitude and sign -/

theorem neg_beq_zero (a : α) : (-a == 0) = (a == 0) := by
  rw [Bool.eq_iff_iff, beq_zero_iff_unpacked, beq_zero_iff_unpacked,
    unpacked_neg]
  cases unpacked a <;> simp [UnpackedFloat.neg]

theorem abs_of_zero (h : (a == 0) = true) : Scalar.abs a = 0 := by
  obtain ⟨s, hzero⟩ := beq_zero_iff_unpacked.mp h
  exact eq_of_unpacked
    (by rw [unpacked_abs, hzero, UnpackedFloat.abs, packed_zero, unpacked_zero])

theorem abs_of_not_neg (h : ¬ a < 0) (hnonzero : (a == 0) = false) :
    Scalar.abs a = a := by
  have habs : (unpacked a).abs = unpacked a := by
    rw [not_neg_iff] at h
    rw [Bool.eq_false_iff, Ne, beq_zero_iff_unpacked] at hnonzero
    cases hu : unpacked a with
    | notANumber => rfl
    | zero s => exact absurd ⟨s, hu⟩ hnonzero
    | infinity s =>
      rw [hu] at h
      obtain rfl : s = .positive := h
      rfl
    | finite s m e hm =>
      rw [hu] at h
      obtain rfl : s = .positive := h
      rfl
  exact eq_of_unpacked (by rw [unpacked_abs, habs, packed_unpacked])

theorem neg_abs_of_neg (h : a < 0) : -Scalar.abs a = a := by
  have hopposite : (unpacked a).abs.neg = unpacked a := by
    have hnot : ¬ NotNegative (unpacked a) := fun hn => not_neg_iff.mpr hn h
    cases hu : unpacked a with
    | notANumber => rfl
    | zero s => exact absurd (by rw [hu]; trivial) hnot
    | infinity s =>
      cases s with
      | positive => exact absurd (by rw [hu]; rfl) hnot
      | negative => rfl
    | finite s m e hm =>
      cases s with
      | positive => exact absurd (by rw [hu]; rfl) hnot
      | negative => rfl
  exact eq_of_unpacked
    (by rw [unpacked_neg, unpacked_abs, ← packed_neg, hopposite,
      packed_unpacked])

/-- A magnitude with the sign of the number is the number, but a zero has no
sign. -/
theorem signed_abs (a : α) :
    (if a < 0 then -Scalar.abs a else Scalar.abs a)
      = if a == 0 then 0 else a := by
  by_cases hneg : a < 0
  · have hnonzero : (a == 0) = false :=
      Bool.eq_false_iff.mpr fun hzero => not_neg_of_zero hzero hneg
    rw [if_pos hneg, neg_abs_of_neg hneg, hnonzero, if_neg Bool.false_ne_true]
  · rw [if_neg hneg]
    cases hzero : a == 0 with
    | true => rw [if_pos rfl, abs_of_zero hzero]
    | false => rw [if_neg Bool.false_ne_true, abs_of_not_neg hneg hzero]

/-! ### Results that are no number -/

section NaN

variable [StandardFloat α]

theorem neg_eq_of_isNaN (h : Scalar.isNaN a = true) : -a = a := by
  rw [StandardFloat.isNaN_eq] at h
  exact eq_of_unpacked (by rw [unpacked_neg, neg_of_isNaN h])

/-- Of a number that is not zero and its opposite, one is negative. -/
theorem neg_lt_zero_iff (hnumber : Scalar.isNaN a = false)
    (hnonzero : (a == 0) = false) :
    -a < 0 ↔ ¬ a < 0 := by
  rw [StandardFloat.isNaN_eq] at hnumber
  rw [Bool.eq_false_iff, Ne, beq_zero_iff_unpacked] at hnonzero
  rw [← not_iff_not, not_neg_iff, not_neg_iff, unpacked_neg]
  cases hu : unpacked a with
  | notANumber =>
    rw [hu] at hnumber
    cases hnumber
  | zero s => exact absurd ⟨s, hu⟩ hnonzero
  | infinity s => cases s <;> simp [UnpackedFloat.neg, NotNegative, Neg.neg]
  | finite s m e hm =>
    cases s <;> simp [UnpackedFloat.neg, NotNegative, Neg.neg]

end NaN

end UniquelyPacked

end FloatingPoint

end Equilibration
