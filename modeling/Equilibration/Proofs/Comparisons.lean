import Equilibration.Checked
import Equilibration.Proofs.FloatingPoint
import Mathlib.Data.Prod.Lex

/-!
# Comparisons — the order of floating-point numbers

Numbers of a format are compared by sign, exponent and mantissa. So every
number has a rank in a linear order (`Rounding.rank`), and one number is
below another if neither is no number and the rank is
(`FloatingPoint.lt_iff_rank`). Everything that is known of comparisons
follows: they are transitive, what is no number compares with nothing,
nothing is above infinity, and the largest of some values is at least each
of those that are numbers (`FloatingPoint.le_foldl_max`).
-/

namespace Equilibration

open Float.Model Float.Model.UnpackedFloat

namespace Rounding

/-! ## Ranks -/

/-- The place of a number in the order: first its side of zero, then the
exponent, then the mantissa. -/
def rank : UnpackedFloat → ℤ ×ₗ ℤ ×ₗ ℤ
  | .infinity .negative => toLex (-2, toLex (0, 0))
  | .finite .negative m e _ => toLex (-1, toLex (-e, -m))
  | .zero _ => toLex (0, toLex (0, 0))
  | .finite .positive m e _ => toLex (1, toLex (e, m))
  | .infinity .positive => toLex (2, toLex (0, 0))
  | .notANumber => toLex (0, toLex (0, 0))

theorem compare_neg (a b : ℤ) : compare (-a) (-b) = (compare a b).swap := by
  rw [Int.compare_swap]
  simp only [compare, compareOfLessAndEq]
  split_ifs <;> first | rfl | omega

theorem compare_natCast (m n : ℕ) : compare (m : ℤ) n = compare m n := by
  simp only [compare, compareOfLessAndEq]
  split_ifs <;> first | rfl | omega

theorem compare_toLex (a c : ℤ) {β : Type} [LinearOrder β] (b d : β) :
    compare (toLex (a, b)) (toLex (c, d)) = (compare a c).then (compare b d) :=
  rfl

/-- On one side of zero the rest of the rank decides. -/
theorem compare_same_side (a : ℤ) {β : Type} [LinearOrder β] (b d : β) :
    compare (toLex (a, b)) (toLex (a, d)) = compare b d := by
  rw [compare_toLex, compare_eq_iff_eq.mpr rfl]
  rfl

theorem compare_eq_rank {u v : UnpackedFloat} (hu : u.isNaN = false)
    (hv : v.isNaN = false) :
    u.compare v = some (compare (rank u) (rank v)) := by
  -- only two finite numbers of one sign differ in more than their kind
  rcases u with (_ | _) | - | (_ | _) | ⟨_ | _, m, e, hm⟩ <;>
    rcases v with (_ | _) | - | (_ | _) | ⟨_ | _, n, f, hn⟩ <;>
    first | rfl | (cases hu; done) | (cases hv; done) | skip
  · show _ = some (compare (toLex (_, toLex (-e, -(m : ℤ))))
        (toLex (_, toLex (-f, -(n : ℤ)))))
    rw [compare_same_side, compare_toLex, compare_neg, compare_neg,
      compare_natCast, ← Ordering.swap_then]
    rfl
  · show _ = some (compare (toLex (_, toLex (e, (m : ℤ))))
        (toLex (_, toLex (f, (n : ℤ)))))
    rw [compare_same_side, compare_toLex, compare_natCast]
    rfl

theorem compare_eq_none {u v : UnpackedFloat}
    (h : u.isNaN = true ∨ v.isNaN = true) :
    u.compare v = none := by
  cases u <;> cases v <;> first | rfl | (rcases h with h | h <;> cases h)

/-- A comparison is a comparison of ranks, and fails where there is no
number. -/
theorem any_compare_iff (p : Ordering → Bool) (u v : UnpackedFloat) :
    (u.compare v).any p = true
      ↔ u.isNaN = false ∧ v.isNaN = false
        ∧ p (compare (rank u) (rank v)) = true := by
  by_cases hu : u.isNaN = true
  · simp [compare_eq_none (.inl hu), hu]
  · by_cases hv : v.isNaN = true
    · simp [compare_eq_none (.inr hv), hv]
    · rw [Bool.not_eq_true] at hu hv
      rw [compare_eq_rank hu hv, Option.any_some]
      exact ⟨fun h => ⟨hu, hv, h⟩, fun h => h.2.2⟩

theorem compare_beq_iff (o : Ordering) (u v : UnpackedFloat) :
    (u.compare v == some o) = true
      ↔ u.isNaN = false ∧ v.isNaN = false ∧ compare (rank u) (rank v) = o := by
  have hany : (u.compare v == some o) = (u.compare v).any (· == o) := by
    cases u.compare v <;> rfl
  rw [hany, any_compare_iff, beq_iff_eq]

theorem lt_iff_rank (u v : UnpackedFloat) :
    u.lt v = true ↔ u.isNaN = false ∧ v.isNaN = false ∧ rank u < rank v := by
  unfold UnpackedFloat.lt
  rw [compare_beq_iff, compare_lt_iff_lt]

theorem le_iff_rank (u v : UnpackedFloat) :
    u.le v = true ↔ u.isNaN = false ∧ v.isNaN = false ∧ rank u ≤ rank v := by
  unfold UnpackedFloat.le
  rw [any_compare_iff, Ordering.isLE_iff_ne_gt, compare_gt_iff_gt, not_lt]

theorem unpack_pack_infinity {F : Format} (s : Sign) :
    UnpackedFloat.unpack F (UnpackedFloat.pack F (.infinity s))
      = .infinity s := by
  show UnpackedFloat.unpack F (packedInfinity F s) = _
  unfold UnpackedFloat.unpack packedInfinity
  simp only [unpackMantissa_packComponents, unpackExponent_packComponents,
    unpackSign_packComponents, ofBitVec_toBitVec, if_true]
  rfl

theorem rank_le_infinity (u : UnpackedFloat) :
    rank u ≤ rank (.infinity .positive) := by
  rcases u with (_ | _) | - | s | ⟨_ | _, m, e, hm⟩ <;>
    first
    | exact le_rfl
    | exact Prod.Lex.toLex_le_toLex.mpr (.inl (show (_ : ℤ) < 2 by norm_num))

end Rounding

/-! ## Comparing scalars -/

/-- A floating-point type whose remaining operations are those of its format,
too. -/
class StandardFloat (α : Type) [Scalar α] [FloatingPoint α] : Prop where
  bits_sub (a b : α) : FloatingPoint.bits (a - b)
    = UnpackedFloat.pack (FloatingPoint.model α) (.sub (FloatingPoint.model α)
      (FloatingPoint.unpacked a) (FloatingPoint.unpacked b))
  le_iff (a b : α) :
    a ≤ b
      ↔ UnpackedFloat.le (FloatingPoint.unpacked a) (FloatingPoint.unpacked b)
        = true
  isNaN_eq (a : α) : Scalar.isNaN a = (FloatingPoint.unpacked a).isNaN
  /-- The format reaches beyond every machine word. -/
  word_le : UInt64.size ≤ 2 ^ (FloatingPoint.model α).exponentBias
  bits_infinity : FloatingPoint.bits (Scalar.infinity : α)
    = UnpackedFloat.pack (FloatingPoint.model α) (.infinity .positive)

instance : StandardFloat Float where
  bits_sub _ _ := rfl
  le_iff _ _ := decide_eq_true_iff
  isNaN_eq _ := rfl
  word_le := by decide +kernel
  bits_infinity := by decide +kernel

instance : StandardFloat Float32 where
  bits_sub _ _ := rfl
  le_iff _ _ := decide_eq_true_iff
  isNaN_eq _ := rfl
  word_le := by decide +kernel
  bits_infinity := by decide +kernel

namespace FloatingPoint

variable {α : Type} [Scalar α] [FloatingPoint α] {a b c : α}

theorem lt_iff_rank : a < b
      ↔ (unpacked a).isNaN = false ∧ (unpacked b).isNaN = false
        ∧ Rounding.rank (unpacked a) < Rounding.rank (unpacked b) :=
  (lt_iff a b).trans (Rounding.lt_iff_rank _ _)

variable [StandardFloat α]

theorem le_iff_rank : a ≤ b
      ↔ (unpacked a).isNaN = false ∧ (unpacked b).isNaN = false
        ∧ Rounding.rank (unpacked a) ≤ Rounding.rank (unpacked b) :=
  (StandardFloat.le_iff a b).trans (Rounding.le_iff_rank _ _)

protected theorem le_refl (ha : Scalar.isNaN a = false) : a ≤ a := by
  rw [StandardFloat.isNaN_eq] at ha
  exact le_iff_rank.mpr ⟨ha, ha, le_rfl⟩

protected theorem le_trans (hab : a ≤ b) (hbc : b ≤ c) : a ≤ c := by
  obtain ⟨ha, -, hle⟩ := le_iff_rank.mp hab
  obtain ⟨-, hc, hle'⟩ := le_iff_rank.mp hbc
  exact le_iff_rank.mpr ⟨ha, hc, hle.trans hle'⟩

protected theorem lt_of_le_of_lt (hab : a ≤ b) (hbc : b < c) : a < c := by
  obtain ⟨ha, -, hle⟩ := le_iff_rank.mp hab
  obtain ⟨-, hc, hlt⟩ := lt_iff_rank.mp hbc
  exact lt_iff_rank.mpr ⟨ha, hc, hle.trans_lt hlt⟩

protected theorem lt_of_lt_of_le (hab : a < b) (hbc : b ≤ c) : a < c := by
  obtain ⟨ha, -, hlt⟩ := lt_iff_rank.mp hab
  obtain ⟨-, hc, hle⟩ := le_iff_rank.mp hbc
  exact lt_iff_rank.mpr ⟨ha, hc, hlt.trans_le hle⟩

theorem unpacked_infinity :
    unpacked (Scalar.infinity : α) = .infinity .positive := by
  rw [unpacked, StandardFloat.bits_infinity, Rounding.unpack_pack_infinity]

/-- Two numbers compare in one way or the other. -/
protected theorem le_of_not_lt (ha : Scalar.isNaN a = false)
    (hb : Scalar.isNaN b = false) (h : ¬ a < b) : b ≤ a := by
  rw [StandardFloat.isNaN_eq] at ha hb
  refine le_iff_rank.mpr ⟨hb, ha, not_lt.mp fun hlt => h ?_⟩
  exact lt_iff_rank.mpr ⟨ha, hb, hlt⟩

protected theorem le_of_lt (h : a < b) : a ≤ b := by
  obtain ⟨ha, hb, hlt⟩ := lt_iff_rank.mp h
  exact le_iff_rank.mpr ⟨ha, hb, hlt.le⟩

/-- The larger of two numbers is a number and at least as large as both. -/
theorem max_spec (ha : Scalar.isNaN a = false) (hb : Scalar.isNaN b = false) :
    Scalar.isNaN (Scalar.max a b) = false ∧ a ≤ Scalar.max a b
      ∧ b ≤ Scalar.max a b := by
  rw [Scalar.max, ha, if_neg Bool.false_ne_true]
  split
  · next hlt => exact ⟨hb, FloatingPoint.le_of_lt hlt, FloatingPoint.le_refl hb⟩
  · next hlt =>
      exact ⟨ha, FloatingPoint.le_refl ha, FloatingPoint.le_of_not_lt ha hb hlt⟩

/-- What is no number does not count. -/
theorem max_of_isNaN (ha : Scalar.isNaN a = false)
    (hb : Scalar.isNaN b = true) :
    Scalar.max a b = a := by
  have hlt : ¬ a < b := by
    intro h
    rw [StandardFloat.isNaN_eq, (lt_iff_rank.mp h).2.1] at hb
    cases hb
  rw [Scalar.max, ha, if_neg Bool.false_ne_true, if_neg hlt]

/-- The largest of some values is at least each of those that are numbers. -/
theorem le_foldl_max (l : List α) (ha : Scalar.isNaN a = false) :
    a ≤ l.foldl Scalar.max a
      ∧ ∀ b ∈ l, Scalar.isNaN b = false → b ≤ l.foldl Scalar.max a := by
  induction l generalizing a with
  | nil => exact ⟨FloatingPoint.le_refl ha, nofun⟩
  | cons c l ih =>
    -- one more value makes the largest larger, or leaves it
    have hmax : Scalar.isNaN (Scalar.max a c) = false ∧ a ≤ Scalar.max a c
        ∧ (Scalar.isNaN c = false → c ≤ Scalar.max a c) := by
      cases hc : Scalar.isNaN c with
      | false =>
        obtain ⟨hnan, hle, hle'⟩ := max_spec ha hc
        exact ⟨hnan, hle, fun _ => hle'⟩
      | true =>
        rw [max_of_isNaN ha hc]
        exact ⟨ha, FloatingPoint.le_refl ha, nofun⟩
    obtain ⟨hnan, hle, hc⟩ := hmax
    obtain ⟨hrest, hall⟩ := ih hnan
    rw [List.foldl_cons]
    refine ⟨FloatingPoint.le_trans hle hrest, fun b hb hnumber => ?_⟩
    rcases List.mem_cons.mp hb with rfl | hb
    · exact FloatingPoint.le_trans (hc hnumber) hrest
    · exact hall b hb hnumber

/-- Nothing is above infinity. -/
theorem not_infinity_lt (a : α) : ¬ Scalar.infinity < a := by
  intro h
  obtain ⟨-, -, hlt⟩ := lt_iff_rank.mp h
  rw [unpacked_infinity] at hlt
  exact (Rounding.rank_le_infinity _).not_gt hlt

end FloatingPoint

end Equilibration
