import Mathlib
import Equilibration.Proofs.ClearStarts
import Equilibration.Proofs.LevelledRows
import Equilibration.Proofs.Lifecycle
import Equilibration.Proofs.Reconstruction
import Equilibration.Proofs.Requests

/-!
# LostStarts — estimates that vanish

The norm estimate knows two starts, the ones and the ramp. A matrix whose
columns cancel against both of them is lost: its estimate is zero, although its
entries are not (`SpectralNorm.lost_column`). Without rounding an estimate of
zero says just this of a matrix, and an equilibration leaves out its last step
just for balanced matrices of this kind.

With rounding, a start that cancels to the last bit may vanish as well. From a
start that does not (`SlicedMatrix.Clear`) the estimate is a positive number as
long as entries, dimensions and budget are moderate.

Main result: `SpectralNorm.positive_unless_lost`.
-/

namespace Equilibration

open Checked FloatingPoint Rounding

namespace SpectralNorm

/-! ## Without rounding -/

section Exact

variable {K : Type} [ExactField K] {a b : ℕ → ℕ → K} {rows cols : ℕ}

/-- In every column the entries cancel, as they are and in multiples given by
the numbers of their rows. -/
def Lost (a : ℕ → ℕ → K) (rows cols : ℕ) : Prop :=
  ∀ j < cols, ∑ i ∈ Finset.range rows, a i j = 0
    ∧ ∑ i ∈ Finset.range rows, a i j * (i + 1) = 0

theorem vanishes_iff {w : Array K} (hw : w.size = rows) :
    Vanishes a cols w
      ↔ ∀ j < cols, ∑ i ∈ Finset.range rows, a i j * w.getD i 0 = 0 := by
  have hsize :
      (denseProducts a .transposed w (.replicate cols 0)).size = cols :=
    (size_denseProducts a .transposed w _).trans Array.size_replicate
  have helement :
      ∀ j < cols, (denseProducts a .transposed w (.replicate cols 0)).getD j 0
        = ∑ i ∈ Finset.range rows, a i j * w.getD i 0 := fun j hj => by
    rw [denseProducts,
      getD_denseProduct _ _ (hj.trans_eq Array.size_replicate.symm), hw]
    rfl
  constructor
  · intro h j hj
    rw [← helement j hj]
    exact Vec.eq_zero_of_norm_eq_zero h
      (Vec.getD_mem (hj.trans_eq hsize.symm) 0)
  · intro h
    refine le_antisymm ?_ (Vec.norm_nonneg _)
    have hle := Vec.norm_le_of_elements
      (x := denseProducts a .transposed w (.replicate cols 0))
      le_rfl fun j hj => by
        rw [helement j (hj.trans_eq hsize), h j (hj.trans_eq hsize), abs_zero]
    rwa [mul_zero] at hle

theorem vanishes_ones_iff : Vanishes a cols (.replicate rows 1)
    ↔ ∀ j < cols, ∑ i ∈ Finset.range rows, a i j = 0 := by
  have hones :
      ∀ i ∈ Finset.range rows, (Array.replicate rows (1 : K)).getD i 0 = 1 := by
    intro i hi
    rw [Array.getD,
      dif_pos ((Finset.mem_range.mp hi).trans_eq Array.size_replicate.symm),
      Array.getInternal_eq_getElem, Array.getElem_replicate]
  rw [vanishes_iff Array.size_replicate]
  refine forall₂_congr fun j _ => ?_
  rw [Finset.sum_congr rfl fun i hi => by rw [hones i hi, mul_one]]

theorem vanishes_ramp_iff : Vanishes a cols (ramp rows)
    ↔ ∀ j < cols, ∑ i ∈ Finset.range rows, a i j * (i + 1) = 0 := by
  have hramp :
      ∀ i ∈ Finset.range rows, (ramp rows : Array K).getD i 0 = i + 1 := by
    intro i hi
    rw [Array.getD,
      dif_pos ((Finset.mem_range.mp hi).trans_eq (size_ramp rows).symm),
      Array.getInternal_eq_getElem]
    simp only [ramp, Array.getElem_ofFn, ExactOrderedField.ofNat_eq,
      Nat.cast_add, Nat.cast_one]
  rw [vanishes_iff (size_ramp rows)]
  refine forall₂_congr fun j _ => ?_
  rw [Finset.sum_congr rfl fun i hi => by rw [hramp i hi]]

/-- The matrices without a start are those that are lost. -/
theorem noStart_iff_lost : NoStart a rows cols ↔ Lost a rows cols := by
  constructor
  · rintro ((hrows | hcols) | ⟨hones, hramp⟩) j hj
    · subst hrows
      exact ⟨Finset.sum_range_zero _, Finset.sum_range_zero _⟩
    · exact absurd hj (hcols ▸ Nat.not_lt_zero j)
    · exact ⟨vanishes_ones_iff.mp hones j hj, vanishes_ramp_iff.mp hramp j hj⟩
  · intro h
    exact .inr ⟨vanishes_ones_iff.mpr fun j hj => (h j hj).1,
      vanishes_ramp_iff.mpr fun j hj => (h j hj).2⟩

/-- The estimate of a matrix is zero if it is lost, and only then. -/
theorem estimateOn_eq_zero_iff {budget : ℕ} (hbudget : 0 < budget) (tol : K) :
    estimateOn (denseProducts a) rows cols budget tol = 0
      ↔ Lost a rows cols := by
  rw [← noStart_iff_lost]
  refine ⟨fun hzero => ?_, fun h => estimateOn_of_noStart h budget tol⟩
  by_contra hstart
  obtain ⟨w, hstarted, hvalue⟩ := exists_estimateAfter hstart
  obtain ⟨n, settled, hstops, heq⟩ := hvalue budget tol
  have hn : 0 < n := by
    cases settled with
    | true => exact (hstops.close rfl).1
    | false => exact hbudget.trans_eq (hstops.spent rfl).symm
  rw [heq] at hzero
  exact (hstarted.estimateAfter_pos hn).ne' hzero

/-- A common factor of the entries makes no difference. -/
theorem lost_iff_of_mul {c : K} (hc : c ≠ 0)
    (h : ∀ i < rows, ∀ j < cols, b i j = c * a i j) :
    Lost b rows cols ↔ Lost a rows cols := by
  refine forall₂_congr fun j hj => and_congr ?_ ?_
  · rw [Finset.sum_congr rfl fun i hi => h i (Finset.mem_range.mp hi) j hj,
      ← Finset.mul_sum, mul_eq_zero, or_iff_right hc]
  · rw [Finset.sum_congr rfl
      fun i hi => by rw [h i (Finset.mem_range.mp hi) j hj, mul_assoc],
      ← Finset.mul_sum, mul_eq_zero, or_iff_right hc]

/-- There are no more than two rows, or every column is of one sign. -/
def Plain (a : ℕ → ℕ → K) (rows cols : ℕ) : Prop :=
  rows ≤ 2 ∨ ∀ j < cols, (∀ i < rows, 0 ≤ a i j) ∨ ∀ i < rows, a i j ≤ 0

/-- Of the plain matrices only the zero matrix is lost. -/
theorem Lost.eq_zero (h : Lost a rows cols) (hplain : Plain a rows cols) :
    ∀ i < rows, ∀ j < cols, a i j = 0 := by
  intro i hi j hj
  obtain ⟨hsum, hramp⟩ := h j hj
  rcases hplain with hrows | hsign
  · obtain rfl | rfl : rows = 1 ∨ rows = 2 := by omega
    · rwa [Finset.sum_range_one, ← Nat.lt_one_iff.mp hi] at hsum
    · rw [Finset.sum_range_succ, Finset.sum_range_one] at hsum hramp
      push_cast at hramp
      interval_cases i <;> linarith
  · rcases hsign j hj with hpos | hneg
    · exact (Finset.sum_eq_zero_iff_of_nonneg fun i hi =>
          hpos i (Finset.mem_range.mp hi)).mp hsum i (Finset.mem_range.mpr hi)
    · exact (Finset.sum_eq_zero_iff_of_nonpos fun i hi =>
          hneg i (Finset.mem_range.mp hi)).mp hsum i (Finset.mem_range.mpr hi)

end Exact

end SpectralNorm

namespace SolverMatrix.Holds

open SpectralNorm

theorem estimate_of_normEstimate {α : Type} [Scalar α] {M : SolverMatrix α}
    {options : Options α} {r : α}
    (h : M.normEstimate .two options = .ok (.ok r)) :
    (estimate M.operator options.normBudget.toNat options.normTolerance).run ()
      = .ok (.ok r, ()) := by
  obtain ⟨p, hp, hr⟩ := bind_eq_ok_iff.mp h
  rw [hp]
  exact congrArg (fun r => Except.ok (r, ())) (Except.ok.inj hr)

section Exact

variable {K : Type} [ExactField K] {M : SolverMatrix K} {A : SlicedMatrix K}
  (hM : M.Holds A)

include hM

/-- An estimate is not negative, and zero if the matrix is lost, and only
then. -/
theorem estimate_eq_zero_iff {budget : ℕ} (hbudget : 0 < budget) {tol r : K}
    (h : (estimate M.operator budget tol).run () = .ok (.ok r, ())) :
    0 ≤ r ∧ (r = 0 ↔ Lost A.coefficient A.rows A.cols) := by
  have hr := of_estimate hM.multiplies h
  have hrows : M.operator.rows = A.rows := hM.rows_eq
  have hcols : M.operator.cols = A.cols := hM.cols_eq
  rw [hrows, hcols] at hr
  rw [Except.ok.inj (Prod.mk.inj hr).1]
  exact ⟨(rises_estimateOn A.coefficient A.rows A.cols).nonneg budget tol,
    estimateOn_eq_zero_iff hbudget tol⟩

omit hM in
/-- The entries between the factors of a balancing run. -/
theorem coefficient_balanced (hcheck : A.check = .ok (.ok ())) (t : Magnitude)
    (x y : Array K) {i j : ℕ} (hi : i < A.rows) (hj : j < A.cols) :
    (balanced A t x y).coefficient i j
      = x.getD i 0 * A.coefficient i j * y.getD j 0 := by
  rw [balanced,
    SlicedMatrix.coefficient_eq (SlicedMatrix.check_mapEntries hcheck _) hi hj,
    SlicedMatrix.valuesAt_mapEntries, SlicedMatrix.coefficient_eq hcheck hi hj,
    mul_right_comm]
  simp only [PackedSigns.joinValue_of]
  rw [List.sum_map_mul_right, List.map_id', mul_comm]

variable [Displayed K] {d e : Array K} {w : World} {out : Equilibrated K}
  {summary : EquilibrationSummary K}

/-- An equilibration finds the norm zero if the matrix with its factors is lost,
and only then. -/
theorem norm_eq_zero_iff (htwo : M.options.normalizeNorm = .two)
    (hbudget : 0 < M.options.normBudget.toNat)
    (h : M.equilibrate d e w = .ok out) (hok : out.result = .ok summary) :
    0 ≤ summary.norm ∧ (summary.norm = 0
      ↔ Lost (fun i j => out.d.getD i 0 * A.coefficient i j * out.e.getD j 0)
        A.rows A.cols) := by
  obtain ⟨t, run, watches, outlet, -, -, -, hnorm, -, hd, he⟩ :=
    hM.of_equilibrate_ok mul_comm h hok
  have hB := hM.holding_balanced t (factorsFor t run.d) (factorsFor t run.e)
  rw [htwo] at hnorm
  obtain ⟨hnonneg, hzero⟩ :=
    hB.estimate_eq_zero_iff hbudget (estimate_of_normEstimate hnorm)
  -- normalization multiplies all entries by one number
  have hshare := (mul_pos (share_pos summary.norm) (share_pos summary.norm)).ne'
  refine ⟨hnonneg,
    hzero.trans (lost_iff_of_mul hshare fun i hi j hj => ?_).symm⟩
  rw [coefficient_balanced hM.check t _ _ hi hj, hd, he,
    (factors_normalizedBy _ _ summary.norm _ _ i).1,
    (factors_normalizedBy _ _ summary.norm _ _ j).2]
  ring

end Exact

end SolverMatrix.Holds

/-! ## With rounding -/

variable {α : Type} [Scalar α] [FloatingPoint α]

namespace SlicedMatrix

variable {A : SlicedMatrix α} {h q s : ℕ}

theorem Clear.mono {s' : ℕ} {w : Array α} (hclear : A.Clear s w)
    (hle : s ≤ s') : A.Clear s' w where
  pos := hclear.pos
  le := hclear.le.trans (mul_le_mul_of_nonneg_right
      (pow_le_pow_right₀ one_le_two hle) hclear.pos.le)

/-- A matrix of moderate entries is large enough for estimates. -/
theorem Moderate.estimable (hA : A.Moderate h q)
    (hcheck : A.check = .ok (.ok ())) (hclear : A.Clear s A.startVector)
    (hrange : 4 * (h + s) + 7 * q + 12 ≤ (model α).exponentBias)
    (hfine : q + s + 8 ≤ (model α).mantissaBits) : A.Estimable h h q s where
  toSized := hA.toSized
  values v hv := by
    rcases hA.cases hv with ⟨hfin, h0⟩ | ⟨sign, hsign⟩
    · exact (sumOf_of_zero 0 _ hfin h0).toWithin
    · exact hsign.within
  room := by omega
  mass := by
    obtain ⟨v, hv, hv0⟩ :=
      exists_ne_zero_of_lengthUnder hcheck A.size_startVector hclear.pos
    obtain ⟨i, j, hmem⟩ := mem_triplets_of_mem_values hcheck hv
    rcases hA.cases hv with ⟨-, h0⟩ | ⟨sign, hsign⟩
    · exact absurd h0 hv0
    · exact (hsign.lower.trans_eq hsign.abs_eq.symm).trans
        (abs_le_massNorm hcheck hmem)
  deep := by omega
  fine := hfine

end SlicedMatrix

namespace SolverMatrix.Holds

open SpectralNorm

variable {M : SolverMatrix α} {A : SlicedMatrix α} (hM : M.Holds A)

include hM

/-- The estimate of a matrix that is large enough, from a start that is
clear. -/
theorem estimate_pos {a b q s : ℕ} (hA : A.Estimable a b q s)
    (hclear : A.Clear s A.startVector) {budget L : ℕ} (hpos : 0 < budget)
    (hbudget : budget < 2 ^ L)
    (hfine : q + L + s + 8 ≤ (model α).mantissaBits) {tol r : α}
    (h : (estimate M.operator budget tol).run () = .ok (.ok r, ())) :
    Scalar.isFinite r = true ∧ 0 < r := by
  have hr := of_estimate hM.computes h
  have hrows : M.operator.rows = A.rows := hM.rows_eq
  have hcols : M.operator.cols = A.cols := hM.cols_eq
  rw [hrows, hcols] at hr
  obtain ⟨c, d, hbetween⟩ :=
    estimateOn_pos hM.check hM.room hA tol hpos hbudget hfine hclear
  rw [Except.ok.inj (Prod.mk.inj hr).1]
  exact ⟨hbetween.finite, hbetween.zero_lt⟩

section Balanced

variable {h q s : ℕ} (hA : A.Moderate h q) (t : Magnitude) {d e : Array α}
  {budget : Nat} {tol : α} {run : BalanceRun α} {record : BalanceRecord α}
  (hrun : Balancing.run (M.holding (magnitudes A t)).operator d e budget tol ()
    = .ok (run, ()))
  (hok : run.outcome = .ok record)
  (hhi : 2 * Balancing.spread (2 * h) q record.iterations
    + (12 * q + 4 * h + (model α).mantissaBits + 32) ≤ (model α).exponentBias)

include hA hrun hok hhi

/-- A balanced entry comes from one of the same sign. -/
theorem sign_of_balanced {i j : ℕ} {b : α}
    (hb : (i, j, b)
      ∈ (balanced A t (factorsFor t run.d) (factorsFor t run.e)).triplets) :
    ∃ v, (i, j, v) ∈ A.triplets ∧ (0 ≤ toReal v → 0 ≤ toReal b)
      ∧ (toReal v ≤ 0 → toReal b ≤ 0) := by
  have hX := Balancing.spread_nonneg (2 * h) q record.iterations
  have hF := hM.factored_of_run hA t hrun hok (by omega) (by omega)
  rw [balanced, SlicedMatrix.triplets_mapEntries] at hb
  obtain ⟨⟨i', j', v⟩, hv, heq⟩ := List.mem_map.mp hb
  cases heq
  refine ⟨v, hv, ?_⟩
  rcases balanced_cases hM.check hA hF hhi hv
    with ⟨-, -, -, h0⟩ | ⟨sign, hs, hb⟩
  · exact ⟨fun _ => h0.ge, fun _ => h0.le⟩
  · cases sign with
    | positive =>
      exact ⟨fun _ => hb.toReal_pos.le, fun h => absurd h hs.toReal_pos.not_ge⟩
    | negative =>
      exact ⟨fun h => absurd h ((lt_zero_iff hs.finite).mp hs.lt_zero).not_ge,
        fun _ => ((lt_zero_iff hb.finite).mp hb.lt_zero).le⟩

theorem estimable_balanced
    (hclear : (balanced A t (factorsFor t run.d) (factorsFor t run.e)).Clear s
      (balanced A t (factorsFor t run.d) (factorsFor t run.e)).startVector)
    (hdeep : 12 * q + 4 * h + 4 * s + (model α).mantissaBits + 32
      ≤ (model α).exponentBias)
    (hfine : q + s + 8 ≤ (model α).mantissaBits) :
    (balanced A t (factorsFor t run.d) (factorsFor t run.e)).Estimable
      (h + q + 7) (q + h + 6) q s := by
  have hX := Balancing.spread_nonneg (2 * h) q record.iterations
  have hF := hM.factored_of_run hA t hrun hok (by omega) (by omega)
  have hcheck :=
    (hM.holding_balanced t (factorsFor t run.d) (factorsFor t run.e)).check
  obtain ⟨b, hb, hb0⟩ := SlicedMatrix.exists_ne_zero_of_lengthUnder hcheck
    (SlicedMatrix.size_startVector _) hclear.pos
  obtain ⟨i, j, hmem⟩ := SlicedMatrix.mem_triplets_of_mem_values hcheck hb
  obtain ⟨v, hv, hnonneg, hnonpos⟩ := hM.sign_of_balanced hA t hrun hok hhi hmem
  have hv0 : toReal v ≠ 0 :=
    fun h0 => hb0 (le_antisymm (hnonpos h0.le) (hnonneg h0.ge))
  obtain ⟨i, j, u, hu, hle⟩ := hM.exists_le_abs_balanced hA t hrun hok hhi
    (SlicedMatrix.mem_values_of_mem_triplets hM.check hv) hv0
  refine ⟨tame_balanced hM.check hA hF hhi, ?_, by omega, hfine⟩
  push_cast
  exact hle.trans (SlicedMatrix.abs_le_massNorm hcheck hu)

/-- Columns of one sign stay so. -/
theorem coherent_balanced (hcoherent : A.Coherent) :
    (balanced A t (factorsFor t run.d) (factorsFor t run.e)).Coherent := by
  intro j
  refine (hcoherent j).imp (fun hpos i b hb => ?_) fun hneg i b hb => ?_
  · obtain ⟨v, hv, hnonneg, -⟩ := hM.sign_of_balanced hA t hrun hok hhi hb
    exact hnonneg (hpos i v hv)
  · obtain ⟨v, hv, -, hnonpos⟩ := hM.sign_of_balanced hA t hrun hok hhi hb
    exact hnonpos (hneg i v hv)

end Balanced

variable [Displayed α] {h q s : ℕ} {d e : Array α} {w : World}
  {out : Equilibrated α} {summary : EquilibrationSummary α}

/-- An equilibration normalizes, unless the start of the balanced matrix is not
clear. -/
theorem normalizes_unless_lost (hcomm : ∀ a b : α, a * b = b * a)
    (htwo : M.options.normalizeNorm = .two) {L : ℕ}
    (hpos : 0 < M.options.normBudget.toNat)
    (hbudget : M.options.normBudget.toNat < 2 ^ L)
    (hfine : q + L + s + 8 ≤ (model α).mantissaBits) (hA : A.Moderate h q)
    (hout : M.equilibrate d e w = .ok out) (hok : out.result = .ok summary)
    (hrange : 4 * summary.balance.iterations * (2 * h + q)
      + (12 * q + 4 * h + 4 * s + (model α).mantissaBits + 32)
      ≤ (model α).exponentBias) :
    ((Scalar.isFinite summary.norm = true ∧ 0 < summary.norm)
        ∨ ∃ B, out.matrix.Holds B ∧ ¬ B.Clear s B.startVector)
      ∧ (A.Coherent → 2 * q ≤ s → (∃ v ∈ A.values, toReal v ≠ 0) →
        Scalar.isFinite summary.norm = true ∧ 0 < summary.norm) := by
  obtain ⟨t, run, watches, outlet, -, hrun, hrecord, hnorm, hmatrix, -, -⟩ :=
    hM.of_equilibrate_ok hcomm hout hok
  have hhi : 2 * Balancing.spread (2 * h) q summary.balance.iterations
      + (12 * q + 4 * h + (model α).mantissaBits + 32)
      ≤ (model α).exponentBias := by
    rw [Balancing.two_mul_spread]
    omega
  have hB := hM.holding_balanced t (factorsFor t run.d) (factorsFor t run.e)
  rw [htwo] at hnorm
  have hpositive :
      (balanced A t (factorsFor t run.d) (factorsFor t run.e)).Clear s
        (balanced A t (factorsFor t run.d) (factorsFor t run.e)).startVector →
        Scalar.isFinite summary.norm = true ∧ 0 < summary.norm := fun hclear =>
    hB.estimate_pos
      (hM.estimable_balanced hA t hrun hrecord hhi hclear (by omega) (by omega))
      hclear hpos hbudget hfine (estimate_of_normEstimate hnorm)
  refine ⟨?_, fun hcoherent hs hne => hpositive ?_⟩
  · by_cases hguard : 0 < summary.norm ∧ Scalar.isFinite summary.norm
    · exact .inl hguard.symm
    · refine .inr ⟨_, ?_, fun h => hguard (hpositive h).symm⟩
      rw [hmatrix, normalizedBy, if_neg hguard]
      exact hB.of_rest _ _ _
  · obtain ⟨v, hv, hv0⟩ := hne
    obtain ⟨i, j, b, hb, hle⟩ :=
      hM.exists_le_abs_balanced hA t hrun hrecord hhi hv hv0
    have hb0 : toReal b ≠ 0 := abs_pos.mp ((zpow_pos two_pos _).trans_le hle)
    exact (SlicedMatrix.clear_of_coherent (hM.coherent_balanced hA t hrun
        hrecord hhi hcoherent) hB.check hA.rows_le hA.precise
      ⟨b, SlicedMatrix.mem_values_of_mem_triplets hB.check hb, hb0⟩).mono hs

end SolverMatrix.Holds

namespace SpectralNorm

/-- **Estimates vanish only on matrices that are lost.** Build a matrix of any
well-formed input. Without rounding there is an estimate, and it is zero just
if the matrix is lost; an equilibration finds the norm zero just if the matrix
with its factors is lost, and otherwise leaves one with estimate one. Of the
matrices with two rows, or with columns of one sign, only zero is lost.

With rounding, let the values be zero or from `2 ^ -h` to `2 ^ h`, with at most
`2 ^ q` rows, columns and entries, and the budget be less than `2 ^ L`. If no
more than `s` bits cancel in the start and these exponents leave room in the
format, the estimate is a positive number. So is the norm that an equilibration
finds, unless more bits cancel in the start of the balanced matrix, which they
do not if columns are of one sign.

The room that an equilibration asks for is enough, not necessary, and narrow,
since the factors may drift in every iteration: in double precision it is
`2 * h + q ≤ 4` after 50 iterations, and in single precision one iteration
leaves room for at most `2 ^ 4` rows, columns and entries, or `2 ^ 2` where
columns of one sign are asked for. -/
theorem positive_unless_lost {K : Type} [ExactField K] [Displayed K]
    [Displayed α] [hmul : Std.Commutative fun a b : α => a * b] :
    (∀ (M : SolverMatrix K) (input : MatrixInput K) (w : World)
      (built : Outcome K Unit),
      M.input? = some input → input.check = .ok (.ok ()) →
      M.build w = .ok built →
      (∀ (budget : ℕ) (tol : K), 0 < budget →
        (input.rows = 0 ∨ input.cols = 0)
          ∨ input.rows < capacity ∧ input.cols < capacity →
        ∃ r,
          (estimate built.matrix.operator budget tol).run () = .ok (.ok r, ())
          ∧ (r = 0 ↔ Lost input.coefficient input.rows input.cols))
      ∧ ∀ (d e : Array K) (w : World) (out : Equilibrated K)
        (summary : EquilibrationSummary K),
        built.matrix.options.normalizeNorm = .two →
        0 < built.matrix.options.normBudget.toNat →
        built.matrix.equilibrate d e w = .ok out → out.result = .ok summary →
        (summary.norm = 0
          ↔ Lost (fun i j => out.d.getD i 0 * input.coefficient i j
            * out.e.getD j 0) input.rows input.cols)
          ∧ (summary.norm ≠ 0 →
            out.matrix.normEstimate .two built.matrix.options = .ok (.ok 1)))
    ∧ (∀ (a : ℕ → ℕ → K) (rows cols : ℕ), Plain a rows cols → Lost a rows cols →
      ∀ i < rows, ∀ j < cols, a i j = 0)
    ∧ ∀ (M : SolverMatrix α) (input : MatrixInput α) (w : World)
      (built : Outcome α Unit) (h q s L : ℕ),
      M.input? = some input → input.check = .ok (.ok ()) →
      M.build w = .ok built →
      input.matrix.Moderate h q → q + L + s + 8 ≤ (model α).mantissaBits →
      (∀ (budget : ℕ) (tol : α), 0 < budget → budget < 2 ^ L →
        4 * (h + s) + 7 * q + 12 ≤ (model α).exponentBias →
        input.rows < capacity ∧ input.cols < capacity →
        input.matrix.Clear s input.matrix.startVector →
        ∃ r,
          (estimate built.matrix.operator budget tol).run () = .ok (.ok r, ())
          ∧ Scalar.isFinite r = true ∧ 0 < r)
      ∧ ∀ (d e : Array α) (w : World) (out : Equilibrated α)
        (summary : EquilibrationSummary α),
        built.matrix.options.normalizeNorm = .two →
        0 < built.matrix.options.normBudget.toNat →
        built.matrix.options.normBudget.toNat < 2 ^ L →
        built.matrix.equilibrate d e w = .ok out → out.result = .ok summary →
        4 * summary.balance.iterations * (2 * h + q)
          + (12 * q + 4 * h + 4 * s + (model α).mantissaBits + 32)
          ≤ (model α).exponentBias →
        ((Scalar.isFinite summary.norm = true ∧ 0 < summary.norm)
            ∨ ∃ B, out.matrix.Holds B ∧ ¬ B.Clear s B.startVector)
          ∧ (input.matrix.Coherent → 2 * q ≤ s →
            (∃ v ∈ input.values, toReal v ≠ 0) →
            Scalar.isFinite summary.norm = true ∧ 0 < summary.norm) := by
  refine ⟨?_, fun a rows cols hplain hlost => hlost.eq_zero hplain, ?_⟩
  · intro M input w built hinput hcheck hbuilt
    have hM := SolverMatrix.holds_of_build hcheck hinput hbuilt
    refine ⟨fun budget tol hbudget hroom => ?_,
      fun d e w out summary htwo hbudget hout hok => ?_⟩
    · have hestimate := estimate_eq hM.multiplies (by
        rwa [show built.matrix.operator.rows = input.rows from hM.rows_eq,
          show built.matrix.operator.cols = input.cols from hM.cols_eq])
          budget tol
      exact ⟨_, hestimate, (hM.estimate_eq_zero_iff hbudget hestimate).2⟩
    · obtain ⟨hnonneg, hzero⟩ := hM.norm_eq_zero_iff htwo hbudget hout hok
      refine ⟨hzero, fun hne => ?_⟩
      have hunit := hM.unit_norm_of_equilibrate hout hok (hnonneg.lt_of_ne' hne)
      rwa [htwo] at hunit
  · intro M input w built h q s L hinput hcheck hbuilt hA hfine
    have hM := SolverMatrix.holds_of_build hcheck hinput hbuilt
    refine ⟨fun budget tol hpos hbudget hrange hroom hclear => ?_,
      fun d e w out summary htwo hpos hbudget hout hok hrange =>
        hM.normalizes_unless_lost hmul.comm htwo hpos hbudget hfine hA hout
          hok hrange⟩
    have hestimate := estimate_eq hM.computes (.inr (by
      rwa [show built.matrix.operator.rows = input.rows from hM.rows_eq,
        show built.matrix.operator.cols = input.cols from hM.cols_eq]))
        budget tol
    exact ⟨_, hestimate, hM.estimate_pos (hA.estimable hM.check hclear hrange
        (by omega)) hclear hpos hbudget hfine hestimate⟩

/-- Columns of two positive numbers, one exact and one of doubles. -/
theorem positive_unless_lost_pair :
    let _ := realField
    let _ : Displayed ℝ := ⟨fun _ _ => ""⟩
    let exact : MatrixInput ℝ := ⟨.row, 2, 1, 2, #[0, 1, 2], #[0, 0], #[3, 4]⟩
    let rounded : MatrixInput Float :=
      ⟨.col, 2, 1, 2, #[0, 2], #[0, 1], #[1, 2]⟩
    let options : Options Float :=
      { (.standard : Options Float) with normalizeNorm := .two }
    let w : World := { readings := fun n => n }
    (∃ built r out summary,
        (SolverMatrix.ofInput exact ⟨false, .one, .two, 9, 0, 9, 0⟩).build w
          = .ok built
        ∧ (estimate built.matrix.operator 9 0).run () = .ok (.ok r, ()) ∧ r ≠ 0
        ∧ built.matrix.equilibrate #[0, 0] #[0] w = .ok out
        ∧ out.result = .ok summary
        ∧ (summary.norm = 0 → out.d.getD 0 0 * 3 * out.e.getD 0 0 = 0))
      ∧ ∃ built r out summary,
        (SolverMatrix.ofInput rounded options).build w = .ok built
        ∧ (estimate built.matrix.operator 50 0).run () = .ok (.ok r, ()) ∧ 0 < r
        ∧ built.matrix.equilibrate #[0, 0] #[0] w = .ok out
        ∧ out.result = .ok summary ∧ 0 < summary.norm := by
  intro _ _ exact rounded options w
  obtain ⟨hexact, hplain, hrounded⟩ :=
    positive_unless_lost (K := ℝ) (α := Float)
  constructor
  · have hcheck : exact.check = .ok (.ok ()) := by decide +kernel
    have hbuilt := (SolverMatrix.build_eq_ok_iff
      (M := SolverMatrix.ofInput exact ⟨false, .one, .two, 9, 0, 9, 0⟩)
      (w := w) rfl hcheck).mpr ⟨⟨by decide, by decide⟩, rfl⟩
    have hM := SolverMatrix.holds_of_build hcheck rfl hbuilt
    obtain ⟨out, hout⟩ :=
      hM.equilibrate_total mul_comm (d := #[0, 0]) (e := #[0]) rfl rfl
        (by decide) (by decide) w
    obtain ⟨summary, hok⟩ := hM.summary_of_equilibrate mul_comm (by decide) hout
    obtain ⟨hestimate, hequilibrate⟩ := hexact _ exact w _ rfl hcheck hbuilt
    obtain ⟨r, hr, hzero⟩ :=
      hestimate 9 0 (by decide) (.inr ⟨by decide, by decide⟩)
    obtain ⟨hnorm, -⟩ :=
      hequilibrate #[0, 0] #[0] w out summary rfl (by decide) hout hok
    have hthree : exact.coefficient 0 0 = 3 := by
      simp [MatrixInput.coefficient, denseEntry, StorageOrder.locate, exact]
    refine ⟨_, r, out, summary, hbuilt, hr, fun h0 => ?_, hout, hok,
      fun h0 => ?_⟩
    · have :=
        hplain _ 2 1 (.inl le_rfl) (hzero.mp h0) 0 (by decide) 0 (by decide)
      rw [hthree] at this
      norm_num at this
    · have :=
        hplain _ 2 1 (.inl le_rfl) (hnorm.mp h0) 0 (by decide) 0 (by decide)
      rwa [hthree] at this
  · have hcheck : rounded.check = .ok (.ok ()) := by decide +kernel
    have hbuilt := (SolverMatrix.build_eq_ok_iff
      (M := SolverMatrix.ofInput rounded options) (w := w) rfl hcheck).mpr
        ⟨⟨by decide, by decide⟩, rfl⟩
    have hM := SolverMatrix.holds_of_build hcheck rfl hbuilt
    have hcomm :=
      (inferInstance : Std.Commutative fun a b : Float => a * b).comm
    obtain ⟨out, hout⟩ :=
      hM.equilibrate_total hcomm (d := #[0, 0]) (e := #[0]) rfl rfl
        (by decide) (by decide) w
    obtain ⟨summary, hok⟩ := hM.summary_of_equilibrate hcomm (by decide) hout
    have hiterations : summary.balance.iterations ≤ 50 :=
      hM.iterations_le_of_equilibrate hcomm hout hok
    have hvalues : ∀ v ∈ rounded.values, Between .positive (-1) 1 v := by
      have hcases :
          ∀ v ∈ rounded.values, v = Scalar.ofNat 1 ∨ v = Scalar.ofNat 2 := by
        decide +kernel
      intro v hv
      rcases hcases v hv with rfl | rfl
      · exact (between_ofNat (q := 0) (by decide) (by decide) (by decide)).mono
          (by decide) (by decide)
      · exact (between_ofNat (q := 1) (by decide) (by decide) (by decide)).mono
          (by decide) (by decide)
    have hmoderate : rounded.matrix.Moderate 1 1 :=
      ⟨⟨by decide, by decide, by decide, by decide⟩, fun v hv =>
        (hvalues v hv).moderate⟩
    have hcoherent : rounded.matrix.Coherent := fun j => .inl fun i v hv =>
      (hvalues v
          (SlicedMatrix.mem_values_of_mem_triplets hM.check hv)).toReal_pos.le
    have hne : ∃ v ∈ rounded.values, toReal v ≠ 0 :=
      ⟨_, Array.getElem_mem (i := 0) (by decide),
        (hvalues _ (Array.getElem_mem _)).toReal_pos.ne'⟩
    obtain ⟨hestimate, hequilibrate⟩ :=
      hrounded _ rounded w _ 1 1 2 6 rfl hcheck hbuilt hmoderate (by decide)
    obtain ⟨r, hr, -, hpos⟩ :=
      hestimate 50 0 (by decide) (by decide) (by decide) ⟨by decide, by decide⟩
        (SlicedMatrix.clear_of_coherent hcoherent hM.check (q := 1) (by decide)
          (by decide) hne)
    obtain ⟨-, hnorm⟩ := hequilibrate #[0, 0] #[0] w out summary rfl (by decide)
      (by decide) hout hok (by
        show 4 * summary.balance.iterations * 3 + 109 ≤ 1023
        omega)
    exact ⟨_, r, out, summary, hbuilt, hr, hpos, hout, hok,
      (hnorm hcoherent le_rfl hne).2⟩

/-- The estimate of the column and the norm that an equilibration finds are
zero, and the values are not. -/
def vanished : Checked (List (Reply Float) × Session Float) → Bool
  | .ok ([.answer .done, .norm (.ok r), .answer (.equilibrated summary _ _)],
        s) =>
    decide (r = 0 ∧ summary.norm = 0
      ∧ s.matrix.pair.map (fun P => P.row.values) = .ok #[1, -1, -1, 1])
  | _ => false

/-- A column of doubles that cancels against the ones and against the ramp: its
estimate is zero, and an equilibration leaves it without normalization. -/
theorem lost_column :
    let input : MatrixInput Float :=
      ⟨.col, 4, 1, 4, #[0, 4], #[0, 1, 2, 3], #[1, -1, -1, 1]⟩
    let options : Options Float :=
      { (.standard : Options Float) with normalizeNorm := .two }
    let w : World := { readings := fun n => n }
    input.check = .ok (.ok ()) ∧ options.check = .ok ()
    ∧ (∀ v ∈ input.values, Scalar.isFinite v = true)
    ∧ input.matrix.triplets = [(0, 0, 1), (1, 0, -1), (2, 0, -1), (3, 0, 1)]
    ∧ 0 < options.normBudget.toNat ∧ 0 ≤ options.normTolerance
    ∧ ∃ r summary d e s P, Session.serveAll ⟨.ofInput input options, w⟩
        [.call .build, .spectralNorm options.normBudget options.normTolerance,
          .call (.equilibrate #[0, 0, 0, 0] #[0])]
        = .ok ([.answer .done, .norm (.ok r),
          .answer (.equilibrated summary d e)], s)
      ∧ r = 0 ∧ summary.norm = 0
      ∧ s.matrix.pair = .ok P ∧ P.row.values = #[1, -1, -1, 1] := by
  intro input options w
  refine ⟨by decide +kernel, by decide +kernel, by decide +kernel,
    by decide +kernel, by decide +kernel, by decide +kernel, ?_⟩
  have h : vanished (Session.serveAll ⟨.ofInput input options, w⟩
      [.call .build, .spectralNorm options.normBudget options.normTolerance,
        .call (.equilibrate #[0, 0, 0, 0] #[0])]) = true := by
    decide +kernel
  revert h
  generalize Session.serveAll (_ : Session Float) _ = r
  intro h
  unfold vanished at h
  split at h
  · next r summary d e s =>
    obtain ⟨hr, hnorm, hvalues⟩ := of_decide_eq_true h
    cases hP : s.matrix.pair with
    | error v =>
      rw [hP] at hvalues
      cases hvalues
    | ok P =>
      rw [hP] at hvalues
      exact ⟨r, summary, d, e, s, P, rfl, hr, hnorm, hP, Except.ok.inj hvalues⟩
  · cases h

end SpectralNorm

end Equilibration
