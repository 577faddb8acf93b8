import Mathlib.Algebra.Field.Rat
import Mathlib.Algebra.Order.Ring.Rat
import Equilibration.Proofs.UnroundedRuns

/-!
# BalancingLaw — what balancing promises

What the factors of a run are worth, in exact arithmetic and for every
matrix without negative entries (`Balancing.Balances`). The parts of the law
belong to different moments of an iteration. The row factors are computed
last, so the row sums are exact whenever an iteration was completed, however
the run ended. The column sums are measured before the factors change, and
closeness ends the run at once, so the verdict is one on the factors that
are returned. The factor one of an empty row or column is never touched.
-/

namespace Equilibration

open Checked

namespace Balancing

variable {K : Type} [ExactOrderedField K]

/-- The law of balancing, for the factors `d` and `e` that a run returns with
its record. -/
structure Balances (a : Nat → Nat → K) (rows cols : Nat) (tol : K)
    (d e : Array K) (record : BalanceRecord K) : Prop where
  d_size : d.size = rows
  e_size : e.size = cols
  d_pos : ∀ i < rows, 0 < d.getD i 0
  e_pos : ∀ j < cols, 0 < e.getD j 0
  row_sum : 0 < record.iterations → ∀ i < rows, RowOccupied a cols i →
    ∑ j ∈ Finset.range cols, d.getD i 0 * a i j * e.getD j 0 = cols
  row_empty : ∀ i < rows, ¬ RowOccupied a cols i → d.getD i 0 = 1
  col_empty : ∀ j < cols, ¬ ColOccupied a rows j → e.getD j 0 = 1
  col_sum : record.converged = true → ∀ j < cols, ColOccupied a rows j →
    |∑ i ∈ Finset.range rows, d.getD i 0 * a i j * e.getD j 0 - rows|
      < tol * rows

variable {a : Nat → Nat → K}

/-- A state that has the factors of the exact iteration keeps the law. -/
theorem balances_of_agrees {A : Operator Unit K} (ha : Nonneg a A.rows A.cols)
    {s : State K} (hfits : s.Fits A) {record : BalanceRecord K} {tol : K}
    (hagrees : (s.scaling id).Agrees A.rows A.cols
      (scaling a A.rows A.cols record.iterations))
    (hclose : record.converged = true →
      (scaling a A.rows A.cols record.iterations).Close a A.rows A.cols tol) :
    Balances a A.rows A.cols tol s.d s.e record := by
  have hd : ∀ i < A.rows, s.d.getD i 0
      = (scaling a A.rows A.cols record.iterations).row i :=
    hagrees.row
  have he : ∀ j < A.cols, s.e.getD j 0
      = (scaling a A.rows A.cols record.iterations).col j :=
    hagrees.col
  refine ⟨hfits.d_size, hfits.e_size, fun i hi => ?_, fun j hj => ?_,
    fun hpos i hi hocc => ?_, fun i hi hempty => ?_, fun j hj hempty => ?_,
    fun hconverged j hj hocc => ?_⟩
  · rw [hd i hi]
    exact row_pos _ i
  · rw [he j hj]
    exact col_pos _ j
  · obtain ⟨k, hk⟩ := Nat.exists_eq_succ_of_ne_zero hpos.ne'
    rw [hk] at hd he
    rw [← sum_row ha k hi hocc]
    refine Finset.sum_congr rfl fun j hj => ?_
    rw [hd i hi, he j (Finset.mem_range.mp hj)]
    rfl
  · rw [hd i hi, row_eq_one ha _ hi hempty]
  · rw [he j hj, col_eq_one ha _ hj hempty]
  · refine lt_of_eq_of_lt ?_ (abs_sum_col_sub_lt ha (hclose hconverged) hj hocc)
    congr 2
    refine Finset.sum_congr rfl fun i hi => ?_
    rw [hd i (Finset.mem_range.mp hi), he j hj]
    rfl

/-- A run on an operator with exact products ends, and its factors keep the
law. -/
theorem run_balances {A : Operator Unit K} (hA : A.Multiplies a)
    (ha : Nonneg a A.rows A.cols) {d e : Array K} (hd : d.size = A.rows)
    (he : e.size = A.cols) (hcols : A.cols < capacity) (budget : Nat)
    (tol : K) :
    ∃ d' e' record, run A d e budget tol () = .ok (⟨d', e', .ok record⟩, ())
      ∧ Balances a A.rows A.cols tol d' e' record := by
  obtain ⟨record, hrun, hends⟩ := run_ends hA hd he hcols budget tol
  have hexact := unroundedRun_exact hA hd he tol record.iterations
  refine ⟨_, _, record, hrun, balances_of_agrees ha (fits_stateAfter hA hd he _)
    (hexact.agrees hA hd he le_rfl) fun hconverged => ?_⟩
  obtain ⟨hpos, -, hclose⟩ := hends.close hconverged
  exact (hexact.close_iff hA hd he hpos le_rfl).mp hclose

/-- **The law of balancing**, for every operator that multiplies by a matrix
without negative entries, and for every matrix that was built from
well-formed arrays without negative values. -/
theorem exact_runs_balance :
    (∀ (A : Operator Unit K) (a : Nat → Nat → K), A.Multiplies a →
      Nonneg a A.rows A.cols →
      ∀ d e : Array K, d.size = A.rows → e.size = A.cols → A.cols < capacity →
        ∀ (budget : Nat) (tol : K), ∃ d' e' record,
          run A d e budget tol () = .ok (⟨d', e', .ok record⟩, ())
            ∧ Balances a A.rows A.cols tol d' e' record)
    ∧ ∀ (M : SolverMatrix K) (input : MatrixInput K) (w : World)
      (out : Outcome K Unit),
      M.input? = some input → input.check = .ok (.ok ()) →
      (∀ v ∈ input.values, 0 ≤ v) → M.build w = .ok out →
      ∀ d e : Array K, d.size = input.rows → e.size = input.cols →
      input.cols < capacity →
        ∀ (budget : Nat) (tol : K), ∃ d' e' record,
          run out.matrix.operator d e budget tol ()
            = .ok (⟨d', e', .ok record⟩, ())
            ∧ Balances input.coefficient input.rows input.cols tol
              d' e' record := by
  constructor
  · intro A a hA ha d e hd he hcols budget tol
    exact run_balances hA ha hd he hcols budget tol
  · intro M input w out hinput hcheck hvalues hout d e hd he hcols budget tol
    have hM := SolverMatrix.holds_of_build hcheck hinput hout
    have hrows' : out.matrix.operator.rows = input.rows := hM.rows_eq
    have hcols' : out.matrix.operator.cols = input.cols := hM.cols_eq
    rw [← hrows'] at hd
    rw [← hcols'] at he hcols
    rw [← hrows', ← hcols']
    exact run_balances hM.multiplies (fun i _ j _ =>
        SlicedMatrix.coefficient_nonneg hvalues i j) hd he hcols budget tol

/-- Three rows and two columns of rational numbers, the second row empty: the
column sums come within a half of their target in one iteration. -/
theorem exact_runs_balance_rational :
    let _ := ExactOrderedField.ofField ℚ id
    let input : MatrixInput ℚ :=
      ⟨.row, 3, 2, 4, #[0, 2, 2, 4], #[0, 1, 0, 1], #[1, 1, 1, 1]⟩
    let options : Options ℚ := ⟨false, .one, .frobenius, 10, 0, 10, 0⟩
    input.check = .ok (.ok ()) ∧ (∀ v ∈ input.values, 0 ≤ v)
      ∧ ∃ out, (SolverMatrix.ofInput input options).build
        { readings := fun n => n } = .ok out
        ∧ ∃ d e record, run out.matrix.operator #[0, 0, 0] #[0, 0] 5 (1 / 2) ()
            = .ok (⟨d, e, .ok record⟩, ())
            ∧ record.converged = true ∧ record.iterations = 1
            ∧ Balances input.coefficient 3 2 (1 / 2) d e record := by
  intro _ input options
  have hcheck : input.check = .ok (.ok ()) := by decide +kernel
  have hvalues : ∀ v ∈ input.values, 0 ≤ v := by decide +kernel
  have hroom : input.matrix.HasRoom := ⟨by decide, by decide⟩
  have hout :=
    (SolverMatrix.build_eq_ok_iff (M := SolverMatrix.ofInput input options)
      (w := { readings := fun n => n }) rfl hcheck).mpr ⟨hroom, rfl⟩
  refine ⟨hcheck, hvalues, _, hout, ?_⟩
  have hM := SolverMatrix.holds_of_build hcheck rfl hout
  have hclose : (scaling input.coefficient 3 2 1).Close input.coefficient 3 2
      (1 / 2) := by
    decide +kernel
  obtain ⟨d, e, record, hrun, hconverged, hiterations⟩ :=
    exact_run_of_first hM.multiplies (d := #[0, 0, 0]) (e := #[0, 0]) rfl rfl
      (by decide) 5 Nat.one_pos (by decide) hclose (fun l hl hl' => by omega)
  obtain ⟨d', e', record', hrun', hlaw⟩ := exact_runs_balance.2 _ input _ _ rfl
    hcheck hvalues hout #[0, 0, 0] #[0, 0] rfl rfl (by decide) 5 (1 / 2)
  rw [hrun] at hrun'
  cases hrun'
  exact ⟨d, e, record, hrun, hconverged, hiterations, hlaw⟩

end Balancing

end Equilibration
