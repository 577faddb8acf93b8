import Mathlib
import Equilibration.Proofs.ProductErrors

/-!
# Cancellation — how much of a start is left

The norm estimate starts from the product of the transposed matrix with a vector
of ones or with a ramp (`SlicedMatrix.startVector`). The entries of a column may
cancel in it. How much they do is measured against the magnitudes that are
stored (`SlicedMatrix.Clear`). Nothing cancels if the entries of every column
have one sign (`SlicedMatrix.clear_of_coherent`).
-/

namespace Equilibration

open FloatingPoint Rounding Vec

attribute [local instance] realField

namespace SpectralNorm

variable {K : Type} [ExactField K]

/-- Every entry is at most the Frobenius norm. -/
theorem abs_le_frobenius (a : ℕ → ℕ → K) {rows cols i j : ℕ} (hi : i < rows)
    (hj : j < cols) :
    |a i j| ≤ frobenius a rows cols := by
  refine abs_le_of_sq_le_sq ?_
    (ExactField.sqrt_nonneg (frobenius_sum_nonneg a rows cols))
  rw [frobenius, sq (Scalar.sqrt _),
    ExactField.sqrt_mul_self (frobenius_sum_nonneg a rows cols), sq]
  refine (Finset.single_le_sum (f := fun j => a i j * a i j)
      (fun j _ => mul_self_nonneg (a i j)) (Finset.mem_range.mpr hj)).trans ?_
  exact Finset.single_le_sum
    (f := fun i => ∑ j ∈ Finset.range cols, a i j * a i j)
    (fun i _ => Finset.sum_nonneg fun j _ => mul_self_nonneg (a i j))
    (Finset.mem_range.mpr hi)

end SpectralNorm

namespace SlicedMatrix

variable {α : Type} [Scalar α] [FloatingPoint α] {A : SlicedMatrix α}

/-- The vector that the estimate starts from. -/
def startVector (A : SlicedMatrix α) : Array α :=
  if norm (A.product .transposed 1 0 (.replicate A.rows 1)
      (.replicate A.cols 0)) == 0 then
    SpectralNorm.ramp A.rows
  else .replicate A.rows 1

/-- The length of the product of the transposed matrix with a vector, without
rounding. -/
noncomputable def lengthUnder (A : SlicedMatrix α) (w : Array α) : ℝ :=
  norm
    (denseProducts A.realEntry .transposed (w.map toReal) (.replicate A.cols 0))

/-- In the product of the transposed matrix with a vector no more than `s` bits
cancel. -/
structure Clear (A : SlicedMatrix α) (s : ℕ) (w : Array α) : Prop where
  pos : 0 < A.lengthUnder w
  le : A.massNorm * lengthOf w ≤ 2 ^ s * A.lengthUnder w

section Entries

variable (h : A.check = .ok (.ok ())) {i j : ℕ}

include h

theorem massEntry_eq (hi : i < A.rows) (hj : j < A.cols) :
    A.massEntry i j = ((A.valuesAt i j).map fun v => |toReal v|).sum := by
  rw [massEntry, coefficient_eq (check_mapEntries h fun _ _ v => |toReal v|) hi
    hj, valuesAt_mapEntries]

theorem realEntry_eq (hi : i < A.rows) (hj : j < A.cols) :
    A.realEntry i j = ((A.valuesAt i j).map toReal).sum := by
  rw [realEntry, coefficient_eq (check_mapEntries h fun _ _ v => toReal v) hi
    hj, valuesAt_mapEntries]

/-- Every stored value is at most the norm of all magnitudes. -/
theorem abs_le_massNorm {v : α} (hv : (i, j, v) ∈ A.triplets) :
    |toReal v| ≤ A.massNorm := by
  obtain ⟨hi, hj⟩ := lt_of_mem_triplets h hv
  refine le_trans ?_
    ((le_abs_self _).trans (SpectralNorm.abs_le_frobenius A.massEntry hi hj))
  rw [massEntry_eq h hi hj]
  exact List.single_le_sum (fun a ha => by
    obtain ⟨u, -, rfl⟩ := List.mem_map.mp ha
    exact abs_nonneg _) _ (List.mem_map_of_mem (mem_valuesAt.mpr hv))

end Entries

/-- An element of the product of the transposed matrix with a vector, without
rounding. -/
theorem getD_under {w : Array α} (hw : w.size = A.rows) {j : ℕ}
    (hj : j < A.cols) :
    (denseProducts A.realEntry .transposed (w.map toReal)
      (.replicate A.cols 0)).getD j 0
      = ∑ i ∈ Finset.range A.rows, A.realEntry i j * toReal (w.getD i 0) := by
  rw [denseProducts, getD_denseProduct _ _
    (hj.trans_eq Array.size_replicate.symm), Array.size_map, hw]
  simp only [getD_map_toReal]
  rfl

theorem size_under (w : Array α) :
    (denseProducts A.realEntry .transposed (w.map toReal)
      (.replicate A.cols 0)).size = A.cols :=
  (SpectralNorm.size_denseProducts A.realEntry .transposed _ _).trans
    Array.size_replicate

/-- Only a matrix with an entry that is not zero leaves anything of a start. -/
theorem exists_ne_zero_of_lengthUnder (h : A.check = .ok (.ok ())) {w : Array α}
    (hw : w.size = A.rows) (hpos : 0 < A.lengthUnder w) :
    ∃ v ∈ A.values, toReal v ≠ 0 := by
  by_contra hzero
  push Not at hzero
  refine absurd hpos (not_lt.mpr ?_)
  have hle : A.lengthUnder w ≤ (A.cols : ℝ) * 0 := by
    rw [← size_under (A := A) w]
    refine norm_le_of_elements le_rfl fun j hj => ?_
    have hj' : j < A.cols := hj.trans_eq (size_under w)
    rw [getD_under hw hj', Finset.sum_eq_zero, abs_zero]
    intro i hi
    have hentry : A.realEntry i j = 0 := by
      rw [realEntry_eq h (Finset.mem_range.mp hi) hj']
      refine List.sum_eq_zero fun a ha => ?_
      obtain ⟨v, hv, rfl⟩ := List.mem_map.mp ha
      exact hzero v (mem_values_of_mem_triplets h (mem_valuesAt.mp hv))
    rw [hentry, zero_mul]
  rwa [mul_zero] at hle

/-! ## Columns of one sign -/

/-- The entries of every column have one sign. -/
def Coherent (A : SlicedMatrix α) : Prop :=
  ∀ j, (∀ i v, (i, j, v) ∈ A.triplets → 0 ≤ toReal v) ∨ ∀ i v,
    (i, j, v) ∈ A.triplets → toReal v ≤ 0

/-- The entries of a column of one sign are their magnitudes, up to that
sign. -/
theorem Coherent.exists_sign (hA : A.Coherent) (h : A.check = .ok (.ok ()))
    {j : ℕ} (hj : j < A.cols) :
    ∃ σ : ℝ, |σ| = 1 ∧ ∀ i < A.rows, A.realEntry i j = σ * A.massEntry i j := by
  have hsum :
      ∀ {σ : ℝ}, (∀ i v, (i, j, v) ∈ A.triplets → toReal v = σ * |toReal v|) →
      ∀ i < A.rows, A.realEntry i j = σ * A.massEntry i j :=
    fun {σ} hσ i hi => by
    rw [realEntry_eq h hi hj, massEntry_eq h hi hj, ← List.sum_map_mul_left]
    exact congrArg List.sum (List.map_congr_left fun v hv =>
        hσ i v (mem_valuesAt.mp hv))
  rcases hA j with hpos | hneg
  · exact ⟨1, abs_one,
      hsum fun i v hv => by rw [abs_of_nonneg (hpos i v hv), one_mul]⟩
  · exact ⟨-1, by rw [abs_neg, abs_one], hsum fun i v hv => by
      rw [abs_of_nonpos (hneg i v hv), neg_mul, one_mul, neg_neg]⟩

theorem massEntry_nonneg (h : A.check = .ok (.ok ())) {i j : ℕ}
    (hi : i < A.rows) (hj : j < A.cols) : 0 ≤ A.massEntry i j := by
  rw [massEntry_eq h hi hj]
  refine List.sum_nonneg fun a ha => ?_
  obtain ⟨v, -, rfl⟩ := List.mem_map.mp ha
  exact abs_nonneg _

/-- Nothing cancels in a column of one sign. -/
theorem Coherent.sum_massEntry_le (hA : A.Coherent) (h : A.check = .ok (.ok ()))
    {w : Array α} (hw : ∀ i < A.rows, 1 ≤ toReal (w.getD i 0)) {j : ℕ}
    (hj : j < A.cols) :
    ∑ i ∈ Finset.range A.rows, A.massEntry i j
      ≤ |∑ i ∈ Finset.range A.rows, A.realEntry i j * toReal (w.getD i 0)| := by
  obtain ⟨σ, hσ, hentry⟩ := hA.exists_sign h hj
  calc ∑ i ∈ Finset.range A.rows, A.massEntry i j
      ≤ ∑ i ∈ Finset.range A.rows, A.massEntry i j * toReal (w.getD i 0) :=
        Finset.sum_le_sum fun i hi =>
          le_mul_of_one_le_right
            (massEntry_nonneg h (Finset.mem_range.mp hi) hj)
            (hw i (Finset.mem_range.mp hi))
    _ ≤ |∑ i ∈ Finset.range A.rows, A.massEntry i j * toReal (w.getD i 0)| :=
        le_abs_self _
    _ = |∑ i ∈ Finset.range A.rows, A.realEntry i j * toReal (w.getD i 0)| := by
        rw [← one_mul |_|, ← hσ, ← abs_mul, Finset.mul_sum]
        refine congrArg abs (Finset.sum_congr rfl fun i hi => ?_)
        rw [hentry i (Finset.mem_range.mp hi), mul_assoc]

/-- If all columns are of one sign, a start with elements of at least one is
left in full. -/
theorem Coherent.massNorm_le (hA : A.Coherent) (h : A.check = .ok (.ok ()))
    {w : Array α} (hsize : w.size = A.rows)
    (hw : ∀ i < A.rows, 1 ≤ toReal (w.getD i 0)) :
    A.massNorm ≤ A.lengthUnder w := by
  refine (abs_le_of_sq_le_sq' ?_ (Vec.norm_nonneg _)).2
  have hcolumn : ∀ j ∈ Finset.range A.cols,
      ∑ i ∈ Finset.range A.rows, A.massEntry i j * A.massEntry i j
        ≤ (denseProducts A.realEntry .transposed (w.map toReal)
          (.replicate A.cols 0)).getD j 0
          * (denseProducts A.realEntry .transposed (w.map toReal)
            (.replicate A.cols 0)).getD j 0 := by
    intro j hj
    rw [getD_under hsize (Finset.mem_range.mp hj), ← abs_mul_abs_self]
    have hmass : ∀ i ∈ Finset.range A.rows, 0 ≤ A.massEntry i j := fun i hi =>
      massEntry_nonneg h (Finset.mem_range.mp hi) (Finset.mem_range.mp hj)
    have hle := hA.sum_massEntry_le h hw (Finset.mem_range.mp hj)
    refine le_trans ?_ (mul_self_le_mul_self (Finset.sum_nonneg hmass) hle)
    rw [Finset.sum_mul]
    exact Finset.sum_le_sum fun i hi =>
      mul_le_mul_of_nonneg_left (Finset.single_le_sum hmass hi) (hmass i hi)
  calc A.massNorm ^ 2
      = ∑ i ∈ Finset.range A.rows, ∑ j ∈ Finset.range A.cols,
          A.massEntry i j * A.massEntry i j := by
        rw [sq]
        exact ExactField.sqrt_mul_self (SpectralNorm.frobenius_sum_nonneg _ _ _)
    _ = ∑ j ∈ Finset.range A.cols, ∑ i ∈ Finset.range A.rows,
          A.massEntry i j * A.massEntry i j := Finset.sum_comm
    _ ≤ _ := Finset.sum_le_sum hcolumn
    _ = A.lengthUnder w ^ 2 := by
        rw [sq, lengthUnder, norm_mul_norm_of_size (size_under w)]
        rfl

omit [FloatingPoint α] in
theorem size_startVector (A : SlicedMatrix α) :
    A.startVector.size = A.rows := by
  rw [startVector]
  split
  · exact SpectralNorm.size_ramp A.rows
  · exact Array.size_replicate

/-- The elements of a start are at least one, and bounded by the number of
rows. -/
theorem startVector_range {q : ℕ} (hrows : A.rows ≤ 2 ^ q)
    (hq : q < (model α).mantissaBits) :
    ∀ v ∈ A.startVector, 1 ≤ toReal v ∧ Within q 1 v := by
  intro v hv
  rw [startVector] at hv
  split at hv
  · refine ⟨?_, SpectralNorm.within_ramp hrows hq v hv⟩
    obtain ⟨k, hk, rfl⟩ := Array.mem_iff_getElem.mp hv
    have hk' : k < A.rows := hk.trans_eq (SpectralNorm.size_ramp A.rows)
    simp only [SpectralNorm.ramp, Array.getElem_ofFn]
    exact (between_ofNat (Nat.succ_pos k)
        (hk'.trans_le hrows) hq).lower.trans_eq' (zpow_zero 2).symm
  · refine ⟨?_,
      (SpectralNorm.within_ones A.rows v hv).widen (Int.natCast_nonneg q)⟩
    rw [Array.eq_of_mem_replicate hv]
    exact isFinite_one.2.ge

/-- **Columns of one sign are clear.** -/
theorem clear_of_coherent (hA : A.Coherent) (h : A.check = .ok (.ok ())) {q : ℕ}
    (hrows : A.rows ≤ 2 ^ q) (hq : q < (model α).mantissaBits)
    (hne : ∃ v ∈ A.values, toReal v ≠ 0) : A.Clear (2 * q) A.startVector := by
  have hsize := A.size_startVector
  have hrange := startVector_range hrows hq
  have hmass := hA.massNorm_le h hsize fun i hi =>
    (hrange _ (Vec.getD_mem (hi.trans_eq hsize.symm) 0)).1
  obtain ⟨v, hv, hv0⟩ := hne
  obtain ⟨i, j, hij⟩ := mem_triplets_of_mem_values h hv
  have hlength : lengthOf A.startVector ≤ 2 ^ (2 * q) := by
    refine (norm_le_of_elements (M := 2 ^ q) (by positivity) fun k hk =>
        ?_).trans ?_
    · rw [getD_map_toReal]
      have := (hrange _ (Vec.getD_mem (hk.trans_eq (Array.size_map ..)) 0)).2.le
      rwa [Nat.cast_one, one_mul, zpow_natCast] at this
    · rw [Array.size_map, hsize, two_mul, pow_add]
      exact mul_le_mul_of_nonneg_right (by exact_mod_cast hrows) (by positivity)
  refine ⟨(abs_pos.mpr hv0).trans_le ((abs_le_massNorm h hij).trans hmass), ?_⟩
  rw [mul_comm]
  exact mul_le_mul hlength hmass A.massNorm_nonneg (by positivity)

end SlicedMatrix

end Equilibration
