import Equilibration.Proofs.Comparisons
import Equilibration.Proofs.Overwriting
import Equilibration.Proofs.StatefulRuns

/-!
# BalancingReports — what the record of a run tells

On an operator whose products are fixed functions of their vectors, the
factors after `k` iterations depend on `k` alone (`Balancing.factorsAfter`),
whatever the budget, the tolerance and the state of the operator. So does
the deviation of the column sums there, and a run only picks `k`.

The record says exactly which one it was and why
(`Balancing.reports_are_exact`), and two runs with other budgets or
tolerances go the same way, one perhaps farther than the other
(`Balancing.runs_differ_in_length`).
-/

namespace Equilibration

open Checked

variable {σ α : Type} [Scalar α]

omit [Scalar α] in
/-- Overwriting all of a vector leaves nothing of it. -/
theorem Vec.overwrite_eq_map (g : α → α) {x v : Array α} (h : x.size = v.size) :
    Vec.overwrite g x v = v.map g := by
  apply Array.ext
  · rw [Vec.size_overwrite, Array.size_map, h]
  · intro i hi hi'
    rw [Array.size_map] at hi'
    simp [Vec.overwrite, hi']

/-! ## Operators with fixed products -/

/-- With `b = 0` every product of vectors with the right lengths succeeds,
and is `f shape a x` whatever the vector held and the operator was asked
before. -/
def Operator.Fixed (A : Operator σ α)
    (f : Shape → α → Array α → Array α) : Prop :=
  ∀ shape a x y s, x.size = shape.domain A.rows A.cols →
    y.size = shape.codomain A.rows A.cols →
    (∃ s', A.multiply shape a x 0 y s = .ok (⟨f shape a x, none⟩, s'))
      ∧ (f shape a x).size = y.size

namespace Operator.Fixed

variable {A : Operator σ α} {f : Shape → α → Array α → Array α}

theorem succeeds (hA : A.Fixed f) : A.Succeeds := by
  intro shape x y s hx hy
  obtain ⟨⟨s', h⟩, hsize⟩ := hA shape 1 x y s hx hy
  exact ⟨_, s', h, hsize⟩

theorem answer_eq (hA : A.Fixed f) (shape : Shape) {x y : Array α}
    (hx : x.size = shape.domain A.rows A.cols)
    (hy : y.size = shape.codomain A.rows A.cols) (s : σ) :
    (A.answer shape x y s).1 = f shape 1 x := by
  obtain ⟨⟨s', h⟩, -⟩ := hA shape 1 x y s hx hy
  rw [answer, h]

end Operator.Fixed

/-- A built matrix is such an operator. -/
theorem SolverMatrix.Holds.fixed [FloatingPoint α] {M : SolverMatrix α}
    {W : SlicedMatrix α} (hM : M.Holds W) : M.operator.Fixed fun shape a x =>
      W.product shape a 0 x (.replicate (shape.codomain W.rows W.cols) 0) := by
  intro shape a x y s hx hy
  have hzero : ((0 : α) == 0) = true :=
    (FloatingPoint.beq_zero_iff FloatingPoint.isFinite_zero.1).mpr
      FloatingPoint.isFinite_zero.2
  have hsize : y.size
      = (Array.replicate (shape.codomain W.rows W.cols) (0 : α)).size := by
    rw [Array.size_replicate, ← hM.rows_eq, ← hM.cols_eq]
    exact hy
  dsimp only
  rw [← SlicedMatrix.product_overwrites hzero a shape hsize]
  refine ⟨⟨(), ?_⟩, SlicedMatrix.size_product W shape a 0 x y⟩
  unfold operator
  dsimp only
  rw [hM.multiply_eq_ok shape a 0 hx hy]
  rfl

namespace Balancing

open SolverMatrix (exists_holds)

/-! ## The factors after some iterations -/

/-- Row and column factors. -/
structure Factors (α : Type) where
  /-- The row factors. -/
  d : Array α
  /-- The column factors. -/
  e : Array α
deriving DecidableEq

section Iterates

variable (f : Shape → α → Array α → Array α) (rows cols : Nat)

/-- The factors after `k` iterations. -/
def factorsAfter : Nat → Factors α
  | 0 => { d := .replicate rows 1, e := .replicate cols 1 }
  | k + 1 =>
    let e :=
      (f .transposed 1 (factorsAfter k).d).map (factor (Scalar.ofNat rows))
    { d := (f .normal 1 e).map (factor (Scalar.ofNat cols)), e }

/-- The largest relative deviation of a column sum, for given factors. -/
def columnResidual (x : Factors α) : α :=
  worstDeviation (f .transposed 1 x.d) x.e (Scalar.ofNat rows)

/-- The record of a run that stops after `n` iterations. A run that
converged has measured the factors it returns, and any other the ones
before; without two iterations there was nothing to measure. -/
def recordAfter (n : Nat) (converged : Bool) : BalanceRecord α where
  iterations := n
  converged := converged
  residual :=
    if converged then columnResidual f rows (factorsAfter f rows cols n)
    else if n ≤ 1 then Scalar.infinity
    else columnResidual f rows (factorsAfter f rows cols (n - 1))

/-- The outcome of a run that stops after `n` iterations. -/
def runAfter (n : Nat) (converged : Bool) : BalanceRun α where
  d := (factorsAfter f rows cols n).d
  e := (factorsAfter f rows cols n).e
  outcome := .ok (recordAfter f rows cols n converged)

end Iterates

section Fixed

variable {A : Operator σ α} {f : Shape → α → Array α → Array α} (hA : A.Fixed f)

include hA

/-- What an operator with fixed products goes through does not depend on its
state. -/
theorem factors_vectors (s : σ) (k : Nat) :
    (vectors A s k).d = (factorsAfter f A.rows A.cols k).d
      ∧ (vectors A s k).e = (factorsAfter f A.rows A.cols k).e := by
  induction k with
  | zero => exact ⟨rfl, rfl⟩
  | succ k ih =>
    have hfits := fits_vectors hA.succeeds s k
    have hcolumns :
        ((vectors A s k).columns A).1 = f .transposed 1 (vectors A s k).d :=
      hA.answer_eq .transposed hfits.d_size hfits.sums_size _
    have he : (vectors A s k).columnFactors A
        = (f .transposed 1 (vectors A s k).d).map
          (factor (Scalar.ofNat A.rows)) := by
      rw [← hcolumns]
      exact Vec.overwrite_eq_map _
        (hfits.e_size.trans (hfits.size_columns hA.succeeds).symm)
    have hrows : ((vectors A s k).rows A).1
        = f .normal 1 ((vectors A s k).columnFactors A) :=
      hA.answer_eq .normal hfits.size_columnFactors hfits.d_size _
    rw [vectors_succ, Vectors.next, hrows, he, ih.1]
    exact ⟨rfl, rfl⟩

theorem deviation_vectors (s : σ) (k : Nat) :
    (vectors A s k).deviation A
      = columnResidual f A.rows (factorsAfter f A.rows A.cols k) := by
  obtain ⟨hd, he⟩ := factors_vectors hA s k
  have hfits := fits_vectors hA.succeeds s k
  have hcolumns :
      ((vectors A s k).columns A).1 = f .transposed 1 (vectors A s k).d :=
    hA.answer_eq .transposed hfits.d_size hfits.sums_size _
  rw [Vectors.deviation, hcolumns, hd, he]
  rfl

theorem outcome_eq_runAfter (s : σ) (n : Nat) (converged : Bool) :
    outcome A s n converged = runAfter f A.rows A.cols n converged := by
  obtain ⟨hd, he⟩ := factors_vectors hA s n
  have hrecord : finalRecord A s n converged
      = recordAfter f A.rows A.cols n converged := by
    unfold finalRecord recordAfter openRecord
    rw [deviation_vectors hA, deviation_vectors hA]
    cases converged <;> rfl
  rw [outcome, hd, he, hrecord]
  rfl

/-- Every run stops somewhere, and its outcome is that of the place. -/
theorem run_stops {d e : Array α} (hd : d.size = A.rows) (he : e.size = A.cols)
    (hcols : A.cols < capacity) (budget : Nat) (tol : α) (s : σ) :
    ∃ n converged s', run A d e budget tol s
      = .ok (runAfter f A.rows A.cols n converged, s')
      ∧ Stops (fun k =>
        columnResidual f A.rows (factorsAfter f A.rows A.cols k) < tol)
        budget n converged := by
  have hclose : CloseAfter A s tol
      = fun k =>
        columnResidual f A.rows (factorsAfter f A.rows A.cols k) < tol := by
    funext k
    rw [CloseAfter, deviation_vectors hA]
  obtain ⟨n, converged, hstops⟩ := Stops.exists_stop (CloseAfter A s tol) budget
  refine ⟨n, converged, finalState A s n converged, ?_, hclose ▸ hstops⟩
  rw [run_eq_outcome hA.succeeds hd he hcols hstops, outcome_eq_runAfter hA]

end Fixed

/-! ## Reports -/

/-- What the record of a run says. -/
structure Reports (f : Shape → α → Array α → Array α) (rows cols budget : Nat)
    (tol : α) (record : BalanceRecord α) : Prop where
  converged_iff : record.converged = true ↔ record.residual < tol
  close_iff : record.residual < tol ↔ record.iterations < budget
  /-- A run that converged did so after an iteration, and has measured the
  factors that it returns. -/
  measured : record.converged = true → 1 ≤ record.iterations
    ∧ record.residual
      = columnResidual f rows (factorsAfter f rows cols record.iterations)
  /-- No earlier measurement was close. -/
  not_close : ∀ k, 0 < k → k < record.iterations →
    ¬ columnResidual f rows (factorsAfter f rows cols k) < tol
  /-- Any other run used up its budget. -/
  spent : record.converged = false → record.iterations = budget
    ∧ record.residual = if budget ≤ 1 then Scalar.infinity
        else columnResidual f rows (factorsAfter f rows cols (budget - 1))

variable [FloatingPoint α] [StandardFloat α]

/-- The record of a run that stops is a report. -/
theorem reports_of_stops {f : Shape → α → Array α → Array α}
    {rows cols budget n : Nat} {tol : α} {converged : Bool}
    (h : Stops (fun k => columnResidual f rows (factorsAfter f rows cols k)
      < tol) budget n converged) :
    Reports f rows cols budget tol (recordAfter f rows cols n converged) := by
  have hconverged : converged = true
      ↔ (recordAfter f rows cols n converged).residual < tol := by
    cases converged with
    | true => exact iff_of_true rfl (h.close rfl).2.2
    | false =>
      refine iff_of_false Bool.false_ne_true ?_
      show ¬ (if n ≤ 1 then Scalar.infinity else _) < tol
      split
      · exact FloatingPoint.not_infinity_lt tol
      · -- the last measurement is one of those that were not close
        exact h.not_close (n - 1) (by omega) (by omega)
  refine ⟨hconverged, hconverged.symm.trans h.converged_iff, ?_,
    h.not_close, ?_⟩
  · rintro rfl
    exact ⟨(h.close rfl).1, rfl⟩
  · rintro rfl
    obtain rfl := h.spent rfl
    exact ⟨rfl, rfl⟩

/-- **Reports are exact.** On every operator with fixed products, with every
budget and every tolerance, the run returns the factors after as many
iterations as the record says, and the record says how close they are. -/
theorem reports_are_exact {A : Operator σ α} {f : Shape → α → Array α → Array α}
    (hA : A.Fixed f) {d e : Array α} (hd : d.size = A.rows)
    (he : e.size = A.cols) (hcols : A.cols < capacity) (budget : Nat) (tol : α)
    (s : σ) :
    ∃ record s', run A d e budget tol s
        = .ok (⟨(factorsAfter f A.rows A.cols record.iterations).d,
            (factorsAfter f A.rows A.cols record.iterations).e, .ok record⟩, s')
      ∧ Reports f A.rows A.cols budget tol record := by
  obtain ⟨n, converged, s', hrun, hstops⟩ :=
    run_stops hA hd he hcols budget tol s
  exact ⟨recordAfter f A.rows A.cols n converged, s', hrun,
    reports_of_stops hstops⟩

/-- Doubles in columns, with a repeated index and a zero, and a tolerance
that is no number. -/
theorem reports_are_exact_nan :
    let input : MatrixInput Float :=
      ⟨.col, 2, 2, 4, #[0, 3, 4], #[1, 0, 1, 0], #[2, 1, 0, 3]⟩
    ∃ out, (SolverMatrix.ofInput input .standard).build
      { readings := fun n => n } = .ok out
      ∧ ∃ f, out.matrix.operator.Fixed f ∧ ∃ record,
        run out.matrix.operator #[0, 0] #[5, 7] 50 Scalar.nan ()
          = .ok (⟨(factorsAfter f 2 2 record.iterations).d,
              (factorsAfter f 2 2 record.iterations).e, .ok record⟩, ())
        ∧ Reports f 2 2 50 Scalar.nan record := by
  intro input
  obtain ⟨out, hbuild, hholds⟩ := exists_holds input (by decide +kernel)
    ⟨by decide, by decide, by decide⟩
  have hrows : out.matrix.operator.rows = 2 := hholds.rows_eq
  have hcols : out.matrix.operator.cols = 2 := hholds.cols_eq
  obtain ⟨record, s', hrun, hreports⟩ :=
    reports_are_exact hholds.fixed (d := #[0, 0]) (e := #[5, 7]) hrows.symm
      hcols.symm (hcols.trans_lt (by decide)) 50 Scalar.nan ()
  rw [hrows, hcols] at hrun hreports
  exact ⟨out, hbuild, _, hholds.fixed, record, hrun, hreports⟩

/-- **Budget and tolerance only choose where a run stops.** Runs of equal
length return the same factors. A larger budget changes nothing in a run
that converged, and lets no other stop earlier. A larger tolerance lets no
run stop later, and none fail to converge. -/
theorem runs_differ_in_length {A : Operator σ α}
    {f : Shape → α → Array α → Array α} (hA : A.Fixed f) {d₁ e₁ d₂ e₂ : Array α}
    (hd₁ : d₁.size = A.rows) (he₁ : e₁.size = A.cols) (hd₂ : d₂.size = A.rows)
    (he₂ : e₂.size = A.cols) (hcols : A.cols < capacity) (N₁ N₂ : Nat)
    (tol₁ tol₂ : α) (s₁ s₂ : σ) :
    ∃ r₁ r₂ record₁ record₂ s₁' s₂',
      run A d₁ e₁ N₁ tol₁ s₁ = .ok (r₁, s₁') ∧ r₁.outcome = .ok record₁
      ∧ run A d₂ e₂ N₂ tol₂ s₂ = .ok (r₂, s₂') ∧ r₂.outcome = .ok record₂
      ∧ (record₁.iterations = record₂.iterations → r₁.d = r₂.d ∧ r₁.e = r₂.e)
      ∧ (tol₁ = tol₂ → N₁ ≤ N₂ →
          (record₁.converged = true → r₂ = r₁)
          ∧ (record₁.converged = false → N₁ ≤ record₂.iterations))
      ∧ (N₁ = N₂ → tol₁ ≤ tol₂ →
          record₂.iterations ≤ record₁.iterations
          ∧ (record₁.converged = true → record₂.converged = true)) := by
  obtain ⟨n₁, c₁, s₁', hrun₁, hstops₁⟩ := run_stops hA hd₁ he₁ hcols N₁ tol₁ s₁
  obtain ⟨n₂, c₂, s₂', hrun₂, hstops₂⟩ := run_stops hA hd₂ he₂ hcols N₂ tol₂ s₂
  refine ⟨_, _, _, _, s₁', s₂', hrun₁, rfl, hrun₂, rfl, ?_, ?_, ?_⟩
  · intro hn
    obtain rfl : n₁ = n₂ := hn
    exact ⟨rfl, rfl⟩
  · rintro rfl hle
    obtain ⟨hsame, hlonger⟩ := hstops₁.of_budget_le hstops₂ hle
    refine ⟨fun hconverged => ?_, hlonger⟩
    obtain ⟨rfl, hconverged₂⟩ := hsame hconverged
    rw [hconverged₂, show c₁ = true from hconverged]
  · rintro rfl hle
    exact hstops₁.of_imp hstops₂ fun k hk => FloatingPoint.lt_of_lt_of_le hk hle

/-- Two runs on the same doubles, with other vectors, budgets and
tolerances. -/
theorem runs_differ_in_length_repeated :
    let input : MatrixInput Float :=
      ⟨.col, 2, 2, 4, #[0, 3, 4], #[1, 0, 1, 0], #[2, 1, 0, 3]⟩
    ∃ out, (SolverMatrix.ofInput input .standard).build
      { readings := fun n => n } = .ok out
      ∧ ∃ r₁ r₂ record₁ record₂,
        run out.matrix.operator #[0, 0] #[5, 7] 3 0.5 () = .ok (r₁, ())
        ∧ r₁.outcome = .ok record₁
        ∧ run out.matrix.operator #[1, 2] #[0, 0] 20 0.5 () = .ok (r₂, ())
        ∧ r₂.outcome = .ok record₂
        ∧ (record₁.converged = true → r₂ = r₁)
        ∧ (record₁.converged = false → 3 ≤ record₂.iterations) := by
  intro input
  obtain ⟨out, hbuild, hholds⟩ := exists_holds input (by decide +kernel)
    ⟨by decide, by decide, by decide⟩
  have hrows : out.matrix.operator.rows = 2 := hholds.rows_eq
  have hcols : out.matrix.operator.cols = 2 := hholds.cols_eq
  have hd₁ : (#[0, 0] : Array Float).size = out.matrix.operator.rows :=
    hrows.symm
  have he₁ : (#[5, 7] : Array Float).size = out.matrix.operator.cols :=
    hcols.symm
  have hd₂ : (#[1, 2] : Array Float).size = out.matrix.operator.rows :=
    hrows.symm
  have he₂ : (#[0, 0] : Array Float).size = out.matrix.operator.cols :=
    hcols.symm
  obtain ⟨r₁, r₂, record₁, record₂, s₁, s₂, hrun₁, hok₁, hrun₂, hok₂, -,
    hlonger, -⟩ :=
    runs_differ_in_length hholds.fixed hd₁ he₁ hd₂ he₂
      (hcols.trans_lt (by decide)) 3 20 0.5 0.5 () ()
  exact ⟨out, hbuild, r₁, r₂, record₁, record₂, hrun₁, hok₁, hrun₂, hok₂,
    hlonger rfl (by decide)⟩

end Balancing

end Equilibration
