import Mathlib.Algebra.BigOperators.Ring.List
import Mathlib.Algebra.Order.BigOperators.Group.List
import Mathlib.Tactic.Ring
import Equilibration.Proofs.ExactArithmetic
import Equilibration.Vec

/-!
# ExactVectors — roots and norms without rounding

In a field with square roots the vector operations are what their names
say: a pairwise sum is the sum, the norm is homogeneous, and scaling to
unit norm forgets a positive factor (`normalize_scale`).
-/

namespace Equilibration

variable {α : Type}

namespace ExactField

variable [ExactField α]

/-- A nonnegative number with the right square is the root. -/
theorem sqrt_eq {a b : α} (hb : 0 ≤ b) (h : b * b = a) : Scalar.sqrt a = b := by
  have ha : 0 ≤ a := h ▸ mul_self_nonneg b
  have hsq : Scalar.sqrt a * Scalar.sqrt a = b * b :=
    (sqrt_mul_self ha).trans h.symm
  exact (mul_self_inj (sqrt_nonneg ha) hb).mp hsq

theorem sqrt_mul_self' (a : α) : Scalar.sqrt (a * a) = |a| :=
  sqrt_eq (abs_nonneg a) (abs_mul_abs_self a)

theorem sqrt_zero : Scalar.sqrt (0 : α) = 0 := sqrt_eq le_rfl (mul_zero 0)

theorem sqrt_pos {a : α} (h : 0 < a) : 0 < Scalar.sqrt a := by
  rcases (sqrt_nonneg h.le).lt_or_eq with hpos | hzero
  · exact hpos
  · have := sqrt_mul_self h.le
    rw [← hzero, mul_zero] at this
    exact absurd this h.ne

theorem sqrt_eq_zero {a : α} (ha : 0 ≤ a) : Scalar.sqrt a = 0 ↔ a = 0 := by
  constructor
  · intro h
    rw [← sqrt_mul_self ha, h, mul_zero]
  · rintro rfl
    exact sqrt_zero

theorem sqrt_sq_mul {c a : α} (hc : 0 ≤ c) (ha : 0 ≤ a) :
    Scalar.sqrt (c * c * a) = c * Scalar.sqrt a := by
  apply sqrt_eq (mul_nonneg hc (sqrt_nonneg ha))
  rw [mul_mul_mul_comm, sqrt_mul_self ha]

theorem recip_eq (v : α) : Scalar.recip v = v⁻¹ := one_div v

end ExactField

namespace Vec

section Ring

variable [ExactRing α]

/-- How a sum is grouped does not matter. -/
theorem pairwiseSum_eq_sum (terms : List α) :
    pairwiseSum terms = terms.sum := by
  fun_induction pairwiseSum terms with
  | case1 terms h => exact List.sum_eq_foldl.symm
  | case2 terms h ih₁ ih₂ =>
    rw [ih₁, ih₂, ← List.sum_append, List.take_append_drop]

theorem sumSquares_eq_sum (x : Array α) :
    sumSquares x = (x.toList.map fun v => v * v).sum := by
  rw [sumSquares, pairwiseSum_eq_sum, products, List.zipWith_self]

end Ring

section Field

open ExactField

variable [ExactField α]

theorem sumSquares_nonneg (x : Array α) : 0 ≤ sumSquares x := by
  rw [sumSquares_eq_sum]
  apply List.sum_nonneg
  intro a ha
  obtain ⟨v, -, rfl⟩ := List.mem_map.mp ha
  exact mul_self_nonneg v

theorem norm_nonneg (x : Array α) : 0 ≤ norm x :=
  sqrt_nonneg (sumSquares_nonneg x)

theorem sumSquares_scale (x : Array α) (c : α) :
    sumSquares (scale x c) = c * c * sumSquares x := by
  rw [sumSquares_eq_sum, sumSquares_eq_sum, scale, Array.toList_map,
    List.map_map, ← List.sum_map_mul_left]
  congr 2
  funext v
  show v * c * (v * c) = c * c * (v * v)
  ring

/-- The norm is homogeneous. -/
theorem norm_scale (x : Array α) {c : α} (hc : 0 ≤ c) :
    norm (scale x c) = c * norm x := by
  rw [norm, sumSquares_scale, sqrt_sq_mul hc (sumSquares_nonneg x), norm]

/-- Only zeros have norm zero. -/
theorem eq_zero_of_norm_eq_zero {x : Array α} (h : norm x = 0) {v : α}
    (hv : v ∈ x) : v = 0 := by
  have hsum : (x.toList.map fun v => v * v).sum = 0 := by
    rw [← sumSquares_eq_sum]
    exact (sqrt_eq_zero (sumSquares_nonneg x)).mp h
  have hnonneg : ∀ a ∈ x.toList.map fun v => v * v, 0 ≤ a := by
    intro a ha
    obtain ⟨u, -, rfl⟩ := List.mem_map.mp ha
    exact mul_self_nonneg u
  have hle := List.single_le_sum hnonneg (v * v)
    (List.mem_map_of_mem (Array.mem_toList_iff.mpr hv))
  rw [hsum] at hle
  exact mul_self_eq_zero.mp (le_antisymm hle (mul_self_nonneg v))

theorem getD_scale (x : Array α) (c : α) (i : Nat) :
    (scale x c).getD i 0 = x.getD i 0 * c := by
  rw [scale, Array.getD_eq_getD_getElem?, Array.getD_eq_getD_getElem?,
    Array.getElem?_map]
  cases x[i]? with
  | none => exact (zero_mul c).symm
  | some v => rfl

theorem getD_sqrt (x : Array α) (i : Nat) :
    (sqrt x).getD i 0 = Scalar.sqrt (x.getD i 0) := by
  rw [sqrt, Array.getD_eq_getD_getElem?, Array.getD_eq_getD_getElem?,
    Array.getElem?_map]
  cases x[i]? with
  | none => exact sqrt_zero.symm
  | some v => rfl

theorem scale_scale (x : Array α) (a b : α) :
    scale (scale x a) b = scale x (a * b) := by
  rw [scale, scale, scale, Array.map_map]
  congr 1
  funext v
  exact mul_assoc v a b

/-- A unit vector does not remember a positive factor. -/
theorem normalize_scale (x : Array α) {c : α} (hc : 0 < c) :
    normalize (scale x c) = (c * (normalize x).1, (normalize x).2) := by
  unfold normalize
  rw [norm_scale x hc.le]
  by_cases h : norm x = 0
  · have hfix : scale x c = x := by
      apply Array.ext
      · simp
      · intro i hi hi'
        have hzero := eq_zero_of_norm_eq_zero h (Array.getElem_mem hi')
        simp only [scale, Array.getElem_map, hzero, zero_mul]
    rw [h, mul_zero, hfix]
    simp
  · have hcn : c * norm x ≠ 0 := mul_ne_zero hc.ne' h
    have hfactor : c * Scalar.recip (c * norm x) = Scalar.recip (norm x) := by
      rw [recip_eq, recip_eq, mul_inv, mul_inv_cancel_left₀ hc.ne']
    simp only [beq_iff_eq, hcn, h, if_false, scale_scale, hfactor]

end Field

end Vec

end Equilibration
