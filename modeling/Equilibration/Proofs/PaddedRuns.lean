import Equilibration.Proofs.EmptyPadding

/-!
# PaddedRuns — runs on a matrix and on a padded one

A run that converged, against a run on the same matrix with empty rows and
columns added (`Balancing.PaddedVerdict`). The added rows and columns always
keep the factor one. The verdict and the number of iterations are the same
where rows and columns were added in the ratio that the matrix has, and for
a matrix of zeros. They need not be the same otherwise, since the sums are
brought to the full dimensions: one more column takes the single entry one
from balanced to never balanced (`padded_column_never_converges`).
-/

namespace Equilibration

open Checked

namespace Balancing

variable {K : Type} [ExactOrderedField K]

/-- What adding empty rows and columns does to a run that converged after `n`
iterations: the row factors `d`, the column factors `e` and the record of
the run on the padded matrix. -/
structure PaddedVerdict {α : Type} (a : Nat → Nat → K)
    (rows cols rows' cols' : Nat) (tol : K) (n : Nat) (d e : Nat → K)
    (record : BalanceRecord α) : Prop where
  row_one : ∀ i, rows ≤ i → i < rows' → d i = 1
  col_one : ∀ j, cols ≤ j → j < cols' → e j = 1
  same : (rows' * cols = rows * cols' ∨ ∀ i < rows, ∀ j < cols, a i j = 0) →
    record.converged = true ∧ record.iterations = n
  ratio : record.converged = true → (∃ i < rows, ∃ j < cols, 0 < a i j) →
    (1 - tol) * (rows' * cols) < (1 + tol) * (rows * cols')
      ∧ (1 - tol) * (rows * cols') < (1 + tol) * (rows' * cols)

section Unrounded

variable {α : Type} [Scalar α] {φ : α → K} {A A' : Operator Unit α}
  {f f' : Shape → Array α → Array α → Array α} {a a' : Nat → Nat → K}

/-- Both runs follow the exact iteration, whose verdicts are compared after
each iteration. -/
theorem paddedVerdict_of_ends (hA : A.Computes f) (hA' : A'.Computes f')
    (ha : Nonneg a A.rows A.cols) (h : Pads a A.rows A.cols a' A'.rows A'.cols)
    {d e d' e' : Array α} (hd : d.size = A.rows) (he : e.size = A.cols)
    (hd' : d'.size = A'.rows) (he' : e'.size = A'.cols) {budget : Nat} {tol : α}
    {record record' : BalanceRecord α}
    (hends : RunEnds f A.rows A.cols d e budget tol record.iterations
      record.converged)
    (hends' : RunEnds f' A'.rows A'.cols d' e' budget tol record'.iterations
      record'.converged)
    (hexact : UnroundedRun φ f a A.rows A.cols d e tol record.iterations)
    (hexact' : UnroundedRun φ f' a' A'.rows A'.cols d' e' tol
      record'.iterations)
    (hconverged : record.converged = true) :
    PaddedVerdict a A.rows A.cols A'.rows A'.cols (φ tol) record.iterations
      ((stateAfter f' A'.rows A'.cols d' e' record'.iterations).scaling φ).row
      ((stateAfter f' A'.rows A'.cols d' e' record'.iterations).scaling φ).col
      record' := by
  have hagrees := hexact'.agrees hA' hd' he' le_rfl
  obtain ⟨hpos, hbudget, hclose⟩ := hends.close hconverged
  have hclose := (hexact.close_iff hA hd he hpos le_rfl).mp hclose
  refine ⟨fun i hnew hi => ?_, fun j hnew hj => ?_, fun hsame => ?_,
    fun hconverged' hentry => ?_⟩
  · rw [hagrees.row i hi,
      row_eq_one (h.nonneg ha) _ hi (h.not_rowOccupied hi hnew)]
  · rw [hagrees.col j hj,
      col_eq_one (h.nonneg ha) _ hj (h.not_colOccupied hj hnew)]
  · have hiff : ∀ l, 0 < l →
        ((scaling a' A'.rows A'.cols l).Close a' A'.rows A'.cols (φ tol)
          ↔ (scaling a A.rows A.cols l).Close a A.rows A.cols (φ tol)) :=
      fun l hl => by
      rcases hsame with hratio | hzero
      · exact h.close_iff_of_ratio ha hratio hl _
      · exact h.close_iff_of_zero ha hzero _ _ _
    refine hends'.of_first hpos hbudget (fun hle => ?_) fun l hl hlk hle => ?_
    · exact (hexact'.close_iff hA' hd' he' hpos hle).mpr
        ((hiff _ hpos).mpr hclose)
    · rw [hexact'.close_iff hA' hd' he' hl hle, hiff l hl,
        ← hexact.close_iff hA hd he hl hlk.le]
      exact hends.not_close l hl hlk
  · obtain ⟨hpos', -, hclose'⟩ := hends'.close hconverged'
    exact h.ratio_of_close ha hentry hpos hpos' hclose
      ((hexact'.close_iff hA' hd' he' hpos' le_rfl).mp hclose')

/-- The record of a run is that of the state where it ends. -/
theorem ends_of_run (hA : A.Computes f) {d e : Array α} {budget : Nat} {tol : α}
    {x y : Array α} {record : BalanceRecord α}
    (h : run A d e budget tol () = .ok (⟨x, y, .ok record⟩, ())) :
    x = (stateAfter f A.rows A.cols d e record.iterations).d
      ∧ y = (stateAfter f A.rows A.cols d e record.iterations).e
      ∧ RunEnds f A.rows A.cols d e budget tol record.iterations
        record.converged := by
  obtain ⟨hd, he, hcols⟩ := sizes_of_run h
  obtain ⟨record', hrun, hends⟩ := run_ends hA hd he hcols budget tol
  rw [h] at hrun
  cases hrun
  exact ⟨rfl, rfl, hends⟩

end Unrounded

/-- **Empty rows and columns**, in exact arithmetic for matrices that were
built from well-formed arrays, and for any operators and scalars where the
two runs do not round. -/
theorem padding_keeps_verdict_in_ratio :
    (∀ (M M' : SolverMatrix K) (input input' : MatrixInput K) (w w' : World)
        (out out' : Outcome K Unit),
      M.input? = some input → input.check = .ok (.ok ()) →
      (∀ v ∈ input.values, 0 ≤ v) → M.build w = .ok out →
      M'.input? = some input' → input'.check = .ok (.ok ()) →
      M'.build w' = .ok out' →
      Pads input.coefficient input.rows input.cols
        input'.coefficient input'.rows input'.cols →
      ∀ (d e d' e' : Array K) (budget : Nat) (tol : K) (x y : Array K)
        (record : BalanceRecord K),
        d'.size = input'.rows → e'.size = input'.cols → input'.cols < capacity →
        run out.matrix.operator d e budget tol ()
          = .ok (⟨x, y, .ok record⟩, ()) →
        record.converged = true →
        ∃ x' y' record',
          run out'.matrix.operator d' e' budget tol ()
            = .ok (⟨x', y', .ok record'⟩, ())
          ∧ PaddedVerdict input.coefficient input.rows input.cols
            input'.rows input'.cols tol record.iterations
            (x'.getD · 0) (y'.getD · 0) record')
    ∧ ∀ (α : Type) [Scalar α] (φ : α → K) (A A' : Operator Unit α)
        (f f' : Shape → Array α → Array α → Array α) (a a' : Nat → Nat → K),
      A.Computes f → A'.Computes f' → Nonneg a A.rows A.cols →
      Pads a A.rows A.cols a' A'.rows A'.cols →
      ∀ (d e d' e' : Array α) (budget : Nat) (tol : α) (x y x' y' : Array α)
          (record record' : BalanceRecord α),
        run A d e budget tol () = .ok (⟨x, y, .ok record⟩, ()) →
        record.converged = true →
        run A' d' e' budget tol () = .ok (⟨x', y', .ok record'⟩, ()) →
        UnroundedRun φ f a A.rows A.cols d e tol record.iterations →
        UnroundedRun φ f' a' A'.rows A'.cols d' e' tol record'.iterations →
          PaddedVerdict a A.rows A.cols A'.rows A'.cols (φ tol)
            record.iterations
            (fun i => φ (x'.getD i 0)) (fun j => φ (y'.getD j 0)) record' := by
  constructor
  · intro M M' input input' w w' out out' hinput hcheck hvalues hout hinput'
      hcheck' hout' hpads d e d' e' budget tol x y record hd' he' hcols' hrun
      hconverged
    have hM := SolverMatrix.holds_of_build hcheck hinput hout
    have hM' := SolverMatrix.holds_of_build hcheck' hinput' hout'
    have hA := hM.multiplies
    have hA' := hM'.multiplies
    have hrows_eq : out.matrix.operator.rows = input.rows := hM.rows_eq
    have hcols_eq : out.matrix.operator.cols = input.cols := hM.cols_eq
    have hrows_eq' : out'.matrix.operator.rows = input'.rows := hM'.rows_eq
    have hcols_eq' : out'.matrix.operator.cols = input'.cols := hM'.cols_eq
    rw [← hrows_eq'] at hd'
    rw [← hcols_eq'] at he' hcols'
    rw [← hrows_eq, ← hcols_eq, ← hrows_eq', ← hcols_eq'] at hpads ⊢
    obtain ⟨hd, he, -⟩ := sizes_of_run hrun
    obtain ⟨-, -, hends⟩ := ends_of_run hA hrun
    obtain ⟨record', hrun', hends'⟩ := run_ends hA' hd' he' hcols' budget tol
    have ha : Nonneg input.coefficient out.matrix.operator.rows
        out.matrix.operator.cols :=
      fun i _ j _ =>
        SlicedMatrix.coefficient_nonneg (A := input.matrix) hvalues i j
    exact ⟨_, _, record', hrun', paddedVerdict_of_ends hA hA' ha hpads hd he hd'
      he' hends hends' (unroundedRun_exact hA hd he tol _)
      (unroundedRun_exact hA' hd' he' tol _) hconverged⟩
  · intro α _ φ A A' f f' a a' hA hA' ha hpads d e d' e' budget tol x y x' y'
      record record' hrun hconverged hrun' hexact hexact'
    obtain ⟨hd, he, -⟩ := sizes_of_run hrun
    obtain ⟨hd', he', -⟩ := sizes_of_run hrun'
    obtain ⟨-, -, hends⟩ := ends_of_run hA hrun
    obtain ⟨rfl, rfl, hends'⟩ := ends_of_run hA' hrun'
    exact paddedVerdict_of_ends hA hA' ha hpads hd he hd' he' hends hends'
      hexact hexact' hconverged

section OneEntry

/-- The matrix of one entry, with room for empty rows and columns. -/
def oneEntry (K : Type) [One K] (rows cols : Nat) : MatrixInput K :=
  { order := .row, rows, cols, entryCount := 1,
    starts := #[0] ++ .replicate rows 1, indices := #[0], values := #[1] }

/-- A matrix that is built from well-formed arrays, as an operator. -/
theorem exists_built {α : Type} [ExactRing α] {input : MatrixInput α}
    (hcheck : input.check = .ok (.ok ())) (hroom : input.matrix.HasRoom)
    (options : Options α) (w : World) :
    ∃ out, (SolverMatrix.ofInput input options).build w = .ok out
      ∧ out.matrix.operator.Multiplies input.coefficient
      ∧ out.matrix.operator.rows = input.rows
      ∧ out.matrix.operator.cols = input.cols := by
  have hout :=
    (SolverMatrix.build_eq_ok_iff (M := SolverMatrix.ofInput input options)
      (w := w) rfl hcheck).mpr ⟨hroom, rfl⟩
  exact ⟨_, hout, (SolverMatrix.holds_of_build hcheck rfl hout).multiplies,
    rfl, rfl⟩

/-- One more row and one more column for the single entry one: both runs
converge in one iteration. -/
theorem padding_keeps_verdict_in_ratio_square :
    let _ := ExactOrderedField.ofField ℚ id
    let options : Options ℚ := ⟨false, .one, .frobenius, 10, 0, 10, 0⟩
    let w : World := { readings := fun n => n }
    ∃ out out',
      (SolverMatrix.ofInput (oneEntry ℚ 1 1) options).build w = .ok out
      ∧ (SolverMatrix.ofInput (oneEntry ℚ 2 2) options).build w = .ok out'
      ∧ ∃ d e record d' e' record',
        run out.matrix.operator #[0] #[0] 50 (1 / 10 ^ 6) ()
          = .ok (⟨d, e, .ok record⟩, ())
        ∧ record.converged = true
        ∧ run out'.matrix.operator #[0, 0] #[0, 0] 50 (1 / 10 ^ 6) ()
          = .ok (⟨d', e', .ok record'⟩, ())
        ∧ record'.converged = true ∧ record'.iterations = record.iterations
        ∧ d'.getD 1 0 = 1 ∧ e'.getD 1 0 = 1 := by
  intro _ options w
  have hcheck : (oneEntry ℚ 1 1).check = .ok (.ok ()) := by decide +kernel
  have hcheck' : (oneEntry ℚ 2 2).check = .ok (.ok ()) := by decide +kernel
  obtain ⟨out, hout, hA, hrows, hcols⟩ :=
    exists_built hcheck ⟨by decide, by decide⟩ options w
  obtain ⟨out', hout', hA', hrows', hcols'⟩ :=
    exists_built hcheck' ⟨by decide, by decide⟩ options w
  have hclose : (scaling (oneEntry ℚ 1 1).coefficient 1 1 1).Close
      (oneEntry ℚ 1 1).coefficient 1 1 (1 / 10 ^ 6) := by decide +kernel
  have hpads :
      Pads (oneEntry ℚ 1 1).coefficient 1 1 (oneEntry ℚ 2 2).coefficient 2 2 :=
    ⟨by decide, by decide, by decide +kernel⟩
  obtain ⟨d, e, record, hrun, hconverged, -⟩ :=
    exact_run_of_first hA (d := #[0]) (e := #[0])
      hrows.symm hcols.symm (by rw [hcols]; decide) 50 Nat.one_pos (by decide)
      (by rw [hrows, hcols]; exact hclose) (fun l hl hl' => by omega)
  obtain ⟨hexact, hunrounded⟩ := padding_keeps_verdict_in_ratio (K := ℚ)
  obtain ⟨d', e', record', hrun', hverdict⟩ :=
    hexact _ _ _ _ w w _ _ rfl hcheck (by decide +kernel) hout rfl hcheck' hout'
      hpads _ _ #[0, 0] #[0, 0] _ _ _ _ _ rfl rfl (by decide) hrun hconverged
  -- the same again without saying how the operators came about
  obtain ⟨hd, he, -⟩ := sizes_of_run hrun
  obtain ⟨hd', he', -⟩ := sizes_of_run hrun'
  have hnonneg : Nonneg (oneEntry ℚ 1 1).coefficient 1 1 := by decide +kernel
  have hverdict' :=
    hunrounded ℚ id _ _ _ _ _ _ hA hA' (by rw [hrows, hcols]; exact hnonneg)
      (by rw [hrows, hcols, hrows', hcols']; exact hpads) _ _ _ _ _ _ _ _ _ _ _
      _ hrun hconverged hrun' (unroundedRun_exact hA hd he _ _)
      (unroundedRun_exact hA' hd' he' _ _)
  obtain ⟨hconverged', hiterations⟩ := hverdict.same (.inl rfl)
  exact ⟨out, out', hout, hout', d, e, record, d', e', record', hrun,
    hconverged, hrun', hconverged', hiterations, hverdict'.row_one 1 hrows.le
      (Nat.lt_of_lt_of_eq Nat.one_lt_two hrows'.symm),
      hverdict.col_one 1 le_rfl Nat.one_lt_two⟩

/-- **One more column** for the single entry one: the run that converged in
one iteration never does. -/
theorem padded_column_never_converges :
    let _ := ExactOrderedField.ofField ℚ id
    let options : Options ℚ := ⟨false, .one, .frobenius, 10, 0, 10, 0⟩
    let w : World := { readings := fun n => n }
    (oneEntry ℚ 1 1).check = .ok (.ok ())
      ∧ (oneEntry ℚ 1 2).check = .ok (.ok ())
      ∧ Pads (oneEntry ℚ 1 1).coefficient 1 1 (oneEntry ℚ 1 2).coefficient 1 2
      ∧ ∃ out out',
        (SolverMatrix.ofInput (oneEntry ℚ 1 1) options).build w = .ok out
        ∧ (SolverMatrix.ofInput (oneEntry ℚ 1 2) options).build w = .ok out'
        ∧ (∃ d e record,
          run out.matrix.operator #[0] #[0] 50 (1 / 10 ^ 6) ()
            = .ok (⟨d, e, .ok record⟩, ())
          ∧ record.converged = true ∧ record.iterations = 1)
        ∧ ∃ d e record,
          run out'.matrix.operator #[0] #[0, 0] 50 (1 / 10 ^ 6) ()
            = .ok (⟨d, e, .ok record⟩, ())
          ∧ record.converged = false ∧ record.iterations = 50 := by
  intro _ options w
  have hcheck : (oneEntry ℚ 1 1).check = .ok (.ok ()) := by decide +kernel
  have hcheck' : (oneEntry ℚ 1 2).check = .ok (.ok ()) := by decide +kernel
  obtain ⟨out, hout, hA, hrows, hcols⟩ :=
    exists_built hcheck ⟨by decide, by decide⟩ options w
  obtain ⟨out', hout', hA', hrows', hcols'⟩ :=
    exists_built hcheck' ⟨by decide, by decide⟩ options w
  have hclose : (scaling (oneEntry ℚ 1 1).coefficient 1 1 1).Close
      (oneEntry ℚ 1 1).coefficient 1 1 (1 / 10 ^ 6) := by decide +kernel
  have hpads :
      Pads (oneEntry ℚ 1 1).coefficient 1 1 (oneEntry ℚ 1 2).coefficient 1 2 :=
    ⟨by decide, by decide, by decide +kernel⟩
  have hnonneg : Nonneg (oneEntry ℚ 1 1).coefficient 1 1 := by decide +kernel
  have hentry : ∃ i < 1, ∃ j < 1, 0 < (oneEntry ℚ 1 1).coefficient i j := by
    decide +kernel
  have hnever : ∀ l, 0 < l →
      ¬ (scaling (oneEntry ℚ 1 2).coefficient 1 2 l).Close
        (oneEntry ℚ 1 2).coefficient 1 2 (1 / 10 ^ 6) := by
    intro l hl hclose'
    have hratio :=
      (hpads.ratio_of_close hnonneg hentry Nat.one_pos hl hclose hclose').2
    norm_num at hratio
  refine ⟨hcheck, hcheck', hpads, out, out', hout, hout', ?_, ?_⟩
  · exact exact_run_of_first hA (d := #[0]) (e := #[0]) hrows.symm hcols.symm
      (by rw [hcols]; decide) 50 Nat.one_pos (by decide)
      (by rw [hrows, hcols]; exact hclose) (fun l hl hl' => by omega)
  · exact exact_run_of_never hA' (d := #[0])
      (e := #[0, 0]) hrows'.symm hcols'.symm
      (by rw [hcols']; decide) 50 (by rw [hrows', hcols']; exact hnever)

end OneEntry

end Balancing

end Equilibration
