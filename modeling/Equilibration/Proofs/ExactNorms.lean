import Equilibration.Proofs.ExactVectors
import Equilibration.Proofs.Rescaling

/-!
# ExactNorms — estimates of a multiple of a matrix

Without rounding, both norm estimates are homogeneous: the estimate for a
positive multiple of a matrix is that multiple of the estimate. For the
power iteration this holds step by step (`SpectralNorm.iterateOn_scaled`):
the unit vectors are the same, every estimate is the multiple, and so each
comparison, that with the tolerance included, goes the same way.
-/

namespace Equilibration

open Checked Slices

variable {α : Type} [ExactField α]

/-- The products `f'` are `c` times the products `f`, which are homogeneous
in the vector and do not depend on what they overwrite. -/
structure ScaledProducts (c : α) (f f' : Shape → Array α → Array α → Array α) :
    Prop where
  scaled : ∀ shape x y, f' shape x y = Vec.scale (f shape x y) c
  homogeneous :
      ∀ shape x y a, f shape (Vec.scale x a) y = Vec.scale (f shape x y) a
  overwrites : ∀ shape x y y', y.size = y'.size → f shape x y = f shape x y'

namespace SlicedMatrix

theorem dotOf_scale_entries (x : Array α) (s : List (Nat × α)) (c : α) :
    dotOf x (s.map fun e => (e.1, e.2 * c)) = dotOf x s * c := by
  rw [dotOf_eq_sum_map, dotOf_eq_sum_map, List.map_map,
    ← List.sum_map_mul_right]
  congr 2
  funext e
  show e.2 * c * _ = e.2 * _ * c
  ring

theorem dotOf_scale (x : Array α) (s : List (Nat × α)) (c : α) :
    dotOf (Vec.scale x c) s = dotOf x s * c := by
  rw [dotOf_eq_sum_map, dotOf_eq_sum_map, ← List.sum_map_mul_right]
  congr 2
  funext e
  rw [Vec.getD_scale, mul_assoc]

/-- A plain product has the product along a slice in every place. -/
theorem product_eq (A : SlicedMatrix α) (shape : Shape) (x y : Array α) :
    A.product shape 1 0 x y = y.mapIdx fun k _ =>
      dotOf x
        (((PairedMatrix.ofForm A).gathering shape).slices[k]?.getD []) := by
  unfold product
  congr 1
  funext k yk
  rw [combine_eq, one_mul, zero_mul, add_zero]

omit [ExactField α] in
theorem gathering_mapEntries {β : Type} {A : SlicedMatrix α}
    (h : A.check = .ok (.ok ())) (f : Nat → Nat → α → β) (shape : Shape) :
    (PairedMatrix.ofForm (A.mapEntries f)).gathering shape
      = ((PairedMatrix.ofForm A).gathering shape).mapEntries f := by
  rw [PairedMatrix.ofForm_mapEntries h]
  cases shape <;> rfl

theorem scaledProducts {A : SlicedMatrix α} (h : A.check = .ok (.ok ()))
    (c : α) :
    ScaledProducts c (fun shape x y => A.product shape 1 0 x y)
      fun shape x y =>
      (A.mapEntries fun _ _ v => v * c).product shape 1 0 x y where
  scaled shape x y := by
    rw [product_eq, product_eq, gathering_mapEntries h, slices_mapEntries]
    apply Array.ext
    · simp [Vec.scale]
    · intro k hk hk'
      simp only [Vec.scale, Array.getElem_mapIdx, Array.getElem_map,
        getElem?_mapValues]
      rw [← dotOf_scale_entries]
      cases ((PairedMatrix.ofForm A).gathering shape).slices[k]? <;> rfl
  homogeneous shape x y a := by
    rw [product_eq, product_eq]
    apply Array.ext
    · simp [Vec.scale]
    · intro k hk hk'
      simp only [Array.getElem_mapIdx, Vec.scale, Array.getElem_map]
      exact dotOf_scale x _ a
  overwrites shape x y y' hsize := by
    rw [product_eq, product_eq]
    apply Array.ext
    · simpa using hsize
    · intro k hk hk'
      simp only [Array.getElem_mapIdx]

end SlicedMatrix

namespace SpectralNorm

variable {f f' : Shape → Array α → Array α → Array α} {c : α} (hc : 0 < c)
  (hf : ScaledProducts c f f')

include hc hf

/-- The iteration on the multiple runs through the same unit vectors. -/
theorem iterateOn_scaled (tol : α) (budget : Nat) (last : α) (x : Array α)
    {w w' : Array α} (hw : w.size = w'.size) :
    iterateOn f' tol budget (c * last) x w'
      = c * iterateOn f tol budget last x w := by
  induction budget generalizing last x w w' with
  | zero => rfl
  | succ budget ih =>
    have himage : f' .normal x w' = Vec.scale (f .normal x w) c := by
      rw [hf.scaled, hf.overwrites .normal x w w' hw]
    rw [iterateOn, iterateOn, himage, Vec.norm_scale _ hc.le]
    dsimp only
    generalize f .normal x w = image
    by_cases hzero : Vec.norm image = 0
    · rw [hzero, mul_zero, if_pos (beq_self_eq_true 0),
        if_pos (beq_self_eq_true 0), mul_zero]
    · have hnorm : ¬ (Vec.norm image == 0) = true := by rwa [beq_iff_eq]
      have hnorm' : ¬ (c * Vec.norm image == 0) = true := by
        rw [beq_iff_eq]
        exact mul_ne_zero hc.ne' hzero
      rw [if_neg hnorm, if_neg hnorm', hf.scaled, hf.homogeneous,
        Vec.scale_scale, Vec.normalize_scale _ (mul_pos hc hc)]
      generalize Vec.normalize (f .transposed image x) = unit
      -- the new estimate is the multiple, and the comparison goes the same way
      have hestimate : c * c * unit.1 / (c * Vec.norm image)
          = c * (unit.1 / Vec.norm image) := by
        rw [mul_assoc, mul_div_mul_left _ _ hc.ne', mul_div_assoc]
      rw [hestimate]
      generalize unit.1 / Vec.norm image = estimate
      have hstop : Scalar.abs (c * estimate - c * last) < tol * (c * estimate)
          ↔ Scalar.abs (estimate - last) < tol * estimate := by
        rw [ExactOrderedField.abs_eq, ExactOrderedField.abs_eq, ← mul_sub,
          abs_mul, abs_of_pos hc, mul_left_comm, mul_lt_mul_iff_right₀ hc]
      by_cases hlt : Scalar.abs (estimate - last) < tol * estimate
      · rw [if_pos hlt, if_pos (hstop.mpr hlt)]
      · rw [if_neg hlt, if_neg (hstop.not.mpr hlt)]
        exact ih _ _ (Vec.size_scale image c).symm

theorem estimateOn_scaled (rows cols budget : Nat) (tol : α) :
    estimateOn f' rows cols budget tol
      = c * estimateOn f rows cols budget tol := by
  have hzero : ∀ v : α, (c * v == 0) = (v == 0) := by
    intro v
    rw [Bool.eq_iff_iff, beq_iff_eq, beq_iff_eq, mul_eq_zero,
      or_iff_right hc.ne']
  -- the first estimate is zero, and so is its multiple
  have hiterate : ∀ x w, iterateOn f' tol budget 0 x w
      = c * iterateOn f tol budget 0 x w := by
    intro x w
    have := iterateOn_scaled hc hf tol budget 0 x (w := w) rfl
    rwa [mul_zero] at this
  unfold estimateOn
  split
  · exact (mul_zero c).symm
  · dsimp only
    rw [hf.scaled, Vec.normalize_scale _ hc, hzero]
    split
    · rw [hf.scaled, Vec.normalize_scale _ hc, hzero]
      split
      · exact (mul_zero c).symm
      · exact hiterate _ _
    · exact hiterate _ _

end SpectralNorm

namespace SolverMatrix

/-- Estimates of the norm are homogeneous. -/
theorem Holds.normEstimate_scaled {M M' : SolverMatrix α} {A : SlicedMatrix α}
    {c : α} (hM : M.Holds A) (hM' : M'.Holds (A.mapEntries fun _ _ v => v * c))
    (hc : 0 < c) {norm : NormPolicy} {options : Options α} {r : α}
    (h : M.normEstimate norm options = .ok (.ok r)) :
    M'.normEstimate norm options = .ok (.ok (c * r)) := by
  have hrows : M'.rows = M.rows := hM'.rows_eq.trans hM.rows_eq.symm
  have hcols : M'.cols = M.cols := hM'.cols_eq.trans hM.cols_eq.symm
  cases norm with
  | one => cases h
  | frobenius =>
    have hvalues :
        (A.mapEntries fun _ _ v => v * c).values = Vec.scale A.values c :=
      SlicedMatrix.values_mapEntries hM.check (· * c)
    unfold normEstimate at h ⊢
    rw [hM.frobeniusNorm_eq] at h
    rw [hM'.frobeniusNorm_eq, hvalues, Vec.norm_scale _ hc.le, hrows, hcols,
      mul_div_assoc]
    cases h
    rfl
  | two =>
    obtain ⟨p, hp, hr⟩ := bind_eq_ok_iff.mp h
    rw [SpectralNorm.of_estimate hM.computes hp] at hr
    cases hr
    have hroom := SpectralNorm.capacity_of_estimate hp
    refine bind_eq_ok_iff.mpr ⟨_, SpectralNorm.estimate_eq hM'.computes ?_ _ _,
      ?_⟩
    · show (M'.rows = 0 ∨ M'.cols = 0) ∨ M'.rows < capacity ∧ M'.cols < capacity
      rwa [hrows, hcols]
    · show Except.ok (Except.ok (SpectralNorm.estimateOn _ M'.rows M'.cols _ _))
        = _
      rw [SpectralNorm.estimateOn_scaled hc
        (SlicedMatrix.scaledProducts hM.check c), hrows, hcols]
      rfl

end SolverMatrix

end Equilibration
