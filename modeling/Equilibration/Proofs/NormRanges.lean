import Equilibration.Proofs.Rescaling
import Equilibration.Proofs.VectorRanges

/-!
# NormRanges — norm estimates within bounds

If the entries of a matrix are not too large for its size, no step of
either norm estimate leaves the range of the format, and an estimate that is
positive is neither very small nor very large
(`SolverMatrix.Holds.between_normEstimate`).
-/

namespace Equilibration

open Checked FloatingPoint Rounding Vec

variable {α : Type} [Scalar α] [FloatingPoint α]

/-- There are at most `2 ^ q` rows, columns and entries, and such numbers are
exact. -/
structure SlicedMatrix.Sized (A : SlicedMatrix α) (q : ℕ) : Prop where
  rows_le : A.rows ≤ 2 ^ q
  cols_le : A.cols ≤ 2 ^ q
  count_le : A.values.size ≤ 2 ^ q
  precise : q < (model α).mantissaBits

/-- The entries are at most `2 ^ b`, and the powers that norm estimation of a
matrix of this size comes to are powers of the format. -/
structure SlicedMatrix.Tame (A : SlicedMatrix α) (b q : ℕ) :
    Prop extends A.Sized q where
  values : ∀ v ∈ A.values, Within (b : ℤ) 1 v
  room : 4 * b + 7 * q + 8 ≤ (model α).exponentBias

/-- The exponent that bounds a norm estimate. -/
def normExponent (b q : ℕ) : ℤ := b + 2 * q + 2

theorem SlicedMatrix.Sized.mapEntries {A : SlicedMatrix α} {q : ℕ}
    (hA : A.Sized q) (h : A.check = .ok (.ok ())) (f : Nat → Nat → α → α) :
    (A.mapEntries f).Sized q :=
  ⟨hA.rows_le, hA.cols_le, (size_values_mapEntries h f).trans_le hA.count_le,
    hA.precise⟩

theorem SlicedMatrix.values_eq_empty {α : Type} {A : SlicedMatrix α}
    (h : A.check = .ok (.ok ())) (hempty : A.rows = 0 ∨ A.cols = 0) :
    A.values = #[] := by
  apply Array.eq_empty_of_size_eq_zero
  rw [← length_flatten_slices h, ← Slices.length_cells, List.length_eq_zero_iff,
    List.eq_nil_iff_forall_not_mem]
  intro c hc
  have hlt :=
    lt_of_mem_triplets h (List.mem_map_of_mem (f := Cell.triplet A.order) hc)
  omega

namespace SpectralNorm

/-! ## The vectors that an estimate starts from -/

theorem within_ones (rows : ℕ) :
    ∀ v ∈ Array.replicate rows (1 : α), Within 0 1 v := by
  intro v hv
  rw [Array.eq_of_mem_replicate hv]
  exact between_one.within

theorem within_ramp {rows q : ℕ} (hrows : rows ≤ 2 ^ q)
    (hq : q < (model α).mantissaBits) :
    ∀ v ∈ (ramp rows : Array α), Within q 1 v := by
  intro v hv
  obtain ⟨k, hk, rfl⟩ := Array.mem_iff_getElem.mp hv
  have hk' : k < rows := by simpa [ramp] using hk
  simp only [ramp, Array.getElem_ofFn]
  exact (between_ofNat (Nat.succ_pos k) (hk'.trans_le hrows) hq).within

/-! ## Estimates -/

section Estimate

variable {A : SlicedMatrix α} (h : A.check = .ok (.ok ())) (hroom : A.HasRoom)
  {b q : ℕ} (hA : A.Tame b q)

include h hroom hA

/-- A product with a vector of bounded elements, and its normalization. -/
theorem product_range (shape : Shape) {x y : Array α} {d : ℤ}
    (hx : ∀ v ∈ x, Within d 1 v)
    (hy : y.size ≤ 2 ^ q) (hlo : (model α).minExponent ≤ 2 * (b + d + q))
    (hhi : 2 * (b + d + q) + q ≤ (model α).exponentBias)
    (hd : (model α).minExponent ≤ b + d) :
    let z := A.product shape 1 0 x y
    z.size ≤ 2 ^ q ∧ (∀ v ∈ z, Within (b + d + q) 1 v)
      ∧ SumOf (leastRoot α) (b + d + q + q) 1 (norm z)
      ∧ SumOf (leastRoot α) (b + d + q + q) 1 (normalize z).1
      ∧ (∀ v ∈ (normalize z).2, Within 2 1 v)
      ∧ ∀ v ∈ z, |toReal v| ≤ 2 * toReal (norm z)
      ∨ |toReal v| ≤ (2 : ℝ) ^ (leastRoot α + 1) := by
  intro z
  have hq : q ≤ (model α).mantissaBits := hA.precise.le
  have hsize : z.size ≤ 2 ^ q :=
    (SlicedMatrix.size_product A shape 1 0 x y).trans_le hy
  have hrep : Representable α (b + d) A.values.size :=
    representable_of_le hd hA.count_le hq (by omega)
  have hz : ∀ v ∈ z, Within (b + d + q) 1 v := fun v hv =>
    (within_product h hroom shape hA.values hx hrep (by omega) v hv).of_count
      hA.count_le
  exact ⟨hsize, hz, sumOf_norm hz hsize hq (by omega) (by omega),
    (normalize_cases hz hsize hq (by omega) (by omega)).1,
    (normalize_cases hz hsize hq (by omega) (by omega)).2,
    fun v hv => abs_le_norm hz hsize hq (by omega) (by omega) hv⟩

theorem iterateOn_range (tol : α) (budget : ℕ) {last : α} {x w : Array α}
    (hlast : SumOf (leastRoot α - normExponent b q) (normExponent b q) 1 last)
    (hx : ∀ v ∈ x, Within 2 1 v) (hxsize : x.size ≤ 2 ^ q)
    (hwsize : w.size ≤ 2 ^ q) :
    SumOf (leastRoot α - normExponent b q) (normExponent b q) 1
      (iterateOn (fun shape x y =>
        A.product shape 1 0 x y) tol budget last x w) := by
  obtain ⟨hroot, hroot'⟩ := leastRoot_bounds α
  have hmin := minExponent_eq (model α)
  have hroomy := hA.room
  have hprecise := hA.precise
  have hbias := mantissaBits_le (α := α)
  induction budget generalizing last x w with
  | zero => exact hlast
  | succ budget ih =>
    obtain ⟨hsize, hw, himage, -, -, hwle⟩ :=
      product_range h hroom hA .normal (y := w) hx hwsize
        (by omega) (by omega) (by omega)
    rw [iterateOn]
    dsimp only
    split
    · exact sumOf_zero _ _ 1
    · next hnonzero =>
      -- the image has a size, and its elements and their images are of that
      -- size
      have himage0 : Between .positive (leastRoot α) (b + 2 + q + q)
          (norm (A.product .normal 1 0 x w)) :=
        himage.cases.resolve_left fun h0 =>
          hnonzero ((beq_zero_iff himage.finite).mpr h0.2)
      obtain ⟨i, hlow, hhigh⟩ :=
        exists_mem_Ico_zpow himage0.toReal_pos (one_lt_two (α := ℝ))
      have hil : leastRoot α ≤ i := by
        have :=
          (zpow_lt_zpow_iff_right₀ one_lt_two).mp (himage0.lower.trans_lt hhigh)
        omega
      have hih : i ≤ b + 2 + q + q := zpow_le_zpow.mp (hlow.trans himage0.upper)
      have hwi : ∀ v ∈ A.product .normal 1 0 x w, Within (i + 2) 1 v := by
        intro v hv
        refine ⟨(hw v hv).finite, ?_⟩
        rw [Nat.cast_one, one_mul]
        rcases hwle v hv with hle | hle
        · have hdouble : (2 : ℝ) ^ (i + 2) = 2 * 2 ^ (i + 1) := by
            rw [← zpow_one_add₀ two_ne_zero]
            congr 1
            ring
          rw [hdouble]
          exact hle.trans (mul_le_mul_of_nonneg_left hhigh.le two_pos.le)
        · exact hle.trans (zpow_le_zpow.mpr (by omega))
      obtain ⟨hsize', -, -, hlength, hunit, -⟩ := product_range h hroom hA
        .transposed (y := x) hwi hxsize (by omega) (by omega) (by omega)
      have hestimate : SumOf (leastRoot α - normExponent b q)
          (normExponent b q) 1 ((normalize
            (A.product .transposed 1 0 (A.product .normal 1 0 x w) x)).1
            / norm (A.product .normal 1 0 x w)) := by
        have hbetween : Between .positive i (normExponent b q)
            (norm (A.product .normal 1 0 x w)) :=
          ⟨himage0.finite, hlow, himage0.upper.trans
            (zpow_le_zpow.mpr (by unfold normExponent; omega))⟩
        have hquot := hlength.div hbetween (by unfold normExponent; omega)
          (by omega)
        exact hquot.widen le_rfl (by unfold normExponent; omega)
      split
      · exact hestimate
      · exact ih hestimate hunit ((size_normalize _).trans_le hsize') hsize

theorem estimateOn_range (budget : ℕ) (tol : α) :
    SumOf (leastRoot α - normExponent b q) (normExponent b q) 1
      (estimateOn (fun shape x y =>
        A.product shape 1 0 x y) A.rows A.cols budget tol) := by
  obtain ⟨hroot, hroot'⟩ := leastRoot_bounds α
  have hmin := minExponent_eq (model α)
  have hroomy := hA.room
  have hprecise := hA.precise
  have hbias := mantissaBits_le (α := α)
  have hones : ∀ v ∈ Array.replicate A.rows (1 : α), Within 0 1 v :=
    within_ones A.rows
  have hramp : ∀ v ∈ (ramp A.rows : Array α), Within q 1 v :=
    within_ramp hA.rows_le hA.precise
  have hrows : (Array.replicate A.rows (1 : α)).size ≤ 2 ^ q :=
    Array.size_replicate.trans_le hA.rows_le
  obtain ⟨hsize, -, -, -, hunit, -⟩ := product_range h hroom hA .transposed
    (y := Array.replicate A.cols 0) hones
    (Array.size_replicate.trans_le hA.cols_le) (by omega) (by omega) (by omega)
  unfold estimateOn
  split
  · exact sumOf_zero _ _ 1
  · dsimp only
    split
    · obtain ⟨hsize', -, -, -, hunit', -⟩ :=
        product_range h hroom hA .transposed
          (y := (normalize (A.product .transposed 1 0 (.replicate A.rows 1)
            (.replicate A.cols 0))).2) hramp
        ((size_normalize _).trans_le hsize) (by omega) (by omega) (by omega)
      split
      · exact sumOf_zero _ _ 1
      · exact iterateOn_range h hroom hA tol budget (sumOf_zero _ _ 1) hunit'
          ((size_normalize _).trans_le hsize')
          ((size_ramp A.rows).trans_le hA.rows_le)
    · exact iterateOn_range h hroom hA tol budget (sumOf_zero _ _ 1) hunit
        ((size_normalize _).trans_le hsize) hrows

end Estimate

end SpectralNorm

namespace SolverMatrix

/-- **Norm estimates stay in range.** The estimate of a tame matrix is not
positive, or it lies between two powers of two. -/
theorem Holds.between_normEstimate {M : SolverMatrix α} {A : SlicedMatrix α}
    (hM : M.Holds A) {b q : ℕ} (hA : A.Tame b q) {policy : NormPolicy}
    {options : Options α} {norm : α}
    (h : M.normEstimate policy options = .ok (.ok norm)) (hpos : 0 < norm) :
    Between .positive (leastRoot α - normExponent b q)
      (normExponent b q) norm := by
  obtain ⟨hroot, hroot'⟩ := leastRoot_bounds α
  have hmin := minExponent_eq (model α)
  have hroomy := hA.room
  have hprecise := hA.precise
  have hbias := mantissaBits_le (α := α)
  have hpositive :
      SumOf (leastRoot α - normExponent b q) (normExponent b q) 1 norm →
      Between .positive (leastRoot α - normExponent b q)
        (normExponent b q) norm := by
    intro hsum
    refine hsum.cases.resolve_left fun h0 => ?_
    exact ((zero_lt_iff h0.1).mp hpos).ne' h0.2
  cases policy with
  | one => cases h
  | two =>
    obtain ⟨p, hp, hr⟩ := bind_eq_ok_iff.mp h
    rw [SpectralNorm.of_estimate hM.computes hp] at hr
    cases hr
    have hrange := SpectralNorm.estimateOn_range hM.check hM.room hA
      options.normBudget.toNat options.normTolerance
    rw [← hM.rows_eq, ← hM.cols_eq] at hrange
    exact hpositive hrange
  | frobenius =>
    have hnorm : norm
        = Vec.norm A.values / Scalar.sqrt (Scalar.ofNat (min M.rows M.cols)) :=
      (Except.ok.inj (hM.frobeniusNorm_eq.symm.trans (Except.ok.inj h))).symm
    rw [hM.rows_eq, hM.cols_eq] at hnorm
    rcases Nat.eq_zero_or_pos (min A.rows A.cols) with hmin0 | hmin0
    · -- without rows or without columns the norm is not a number
      have hvalues : A.values = #[] :=
        SlicedMatrix.values_eq_empty hM.check (by omega)
      rw [hnorm, hmin0, hvalues] at hpos
      refine absurd hpos (not_pos_zero_div (unpacked_sqrt_of_zero ?_)
        (unpacked_sqrt_of_zero unpacked_ofNat_zero))
      rw [Vec.sumSquares, Vec.pairwiseSum]
      exact unpacked_zero
    · have hle : min A.rows A.cols ≤ 2 ^ q := (min_le_left _ _).trans hA.rows_le
      have hcount :
          Between .positive 0 q (Scalar.ofNat (min A.rows A.cols) : α) :=
        between_ofNat hmin0 hle hprecise
      have hroot := hcount.sqrt (c := 0) (d := q) (by omega) (by omega)
        (by omega) (by omega)
      have hvalues :=
        sumOf_norm hA.values hA.count_le hprecise.le (by omega) (by omega)
      rw [hnorm]
      rw [hnorm] at hpositive
      exact hpositive ((hvalues.div hroot (by omega) (by omega)).widen
        (by unfold normExponent; omega) (by unfold normExponent; omega))

end SolverMatrix

end Equilibration
