import Equilibration.Proofs.Iterations
import Equilibration.Proofs.Kernels
import Equilibration.SolverMatrix.Rescaling

/-!
# Rescaling — what an equilibration does to the entries

An equilibration of a built matrix is a few changes of its entries, one
after the other: magnitudes, signs again, two diagonals, the norm
(`SolverMatrix.Holds.of_equilibrate`). Nothing in between can fail. A call
that is refused leaves the matrix alone.
-/

namespace Equilibration

open Checked

namespace SolverMatrix

variable {α : Type}

/-- The same matrix, built from other entries. -/
def holding (M : SolverMatrix α) (A : SlicedMatrix α) : SolverMatrix α :=
  { M with storage := .built (.ofForm A) }

theorem Holds.holding_mapEntries {M : SolverMatrix α} {A : SlicedMatrix α}
    (hM : M.Holds A) (f : Nat → Nat → α → α) :
    (M.holding (A.mapEntries f)).Holds (A.mapEntries f) where
  storage := rfl
  rows_eq := hM.rows_eq
  cols_eq := hM.cols_eq
  check := SlicedMatrix.check_mapEntries hM.check f
  room := (SlicedMatrix.hasRoom_mapEntries hM.check f).mpr hM.room

/-- Options, outlet and stopwatches are not part of what is stored. -/
theorem Holds.of_rest {M : SolverMatrix α} {A : SlicedMatrix α} (hM : M.Holds A)
    (options : Options α) (outlet : Outlet) (watches : Stopwatches) :
    Holds { M with options, outlet, watches } A :=
  ⟨hM.storage, hM.rows_eq, hM.cols_eq, hM.check, hM.room⟩

variable [Scalar α]

section Unbuilt

variable {M : SolverMatrix α} {input : MatrixInput α}
  (hM : M.input? = some input)

include hM

/-- A matrix that is not built refuses every product. -/
theorem multiply_of_input (shape : Shape) (a : α) (x : Array α) (b : α)
    (y : Array α) :
    M.multiply shape a x b y = .ok (.error .notBuilt) := by
  unfold multiply
  rw [pair_of_input hM]
  rfl

/-- As an operator it leaves the vector as it is. -/
theorem operator_of_input (shape : Shape) (a : α) (x : Array α) (b : α)
    (y : Array α) :
    M.operator.multiply shape a x b y () = .ok (⟨y, some .notBuilt⟩, ()) := by
  unfold operator
  dsimp only
  rw [multiply_of_input hM]
  rfl

theorem normEstimate_of_input (hrows : M.rows < capacity)
    (hcols : M.cols < capacity) (norm : NormPolicy) (options : Options α) :
    ∃ r, M.normEstimate norm options = .ok r := by
  cases norm with
  | one => exact ⟨_, rfl⟩
  | frobenius => exact ⟨_, rfl⟩
  | two =>
    obtain ⟨r, hr⟩ := SpectralNorm.estimate_of_refusing (operator_of_input hM)
      hrows hcols options.normBudget.toNat options.normTolerance
    exact ⟨r, bind_eq_ok_iff.mpr ⟨_, hr, rfl⟩⟩

end Unbuilt

theorem size_factorsFor (t : Magnitude) (x : Array α) :
    (factorsFor t x).size = x.size := by
  cases t
  · rfl
  · exact Vec.size_sqrt x

/-- The magnitudes of the entries. -/
def magnitudes (A : SlicedMatrix α) (t : Magnitude) : SlicedMatrix α :=
  A.mapEntries fun _ _ v => t.of v

/-- The magnitudes with the signs of the entries, taken back. -/
def resigned (A : SlicedMatrix α) (t : Magnitude) : SlicedMatrix α :=
  A.mapEntries fun _ _ v => PackedSigns.joinValue t (t.of v) (decide (v < 0))

/-- The entries with their signs put back, multiplied by the factors of
their row and their column. -/
def balanced (A : SlicedMatrix α) (t : Magnitude) (d e : Array α) :
    SlicedMatrix α :=
  A.mapEntries fun i j v =>
    PackedSigns.joinValue t (t.of v) (decide (v < 0))
      * (d.getD i 0 * e.getD j 0)

theorem Holds.holding_magnitudes {M : SolverMatrix α} {A : SlicedMatrix α}
    (hM : M.Holds A) (t : Magnitude) :
    (M.holding (magnitudes A t)).Holds (magnitudes A t) :=
  hM.holding_mapEntries _

theorem Holds.holding_balanced {M : SolverMatrix α} {A : SlicedMatrix α}
    (hM : M.Holds A) (t : Magnitude) (d e : Array α) :
    (M.holding (balanced A t d e)).Holds (balanced A t d e) :=
  hM.holding_mapEntries _

/-- What normalization leaves of a matrix with the given norm. -/
def normalizedBy (M : SolverMatrix α) (A : SlicedMatrix α) (norm : α)
    (d e : Array α) :
    Rescaled α α :=
  if 0 < norm ∧ Scalar.isFinite norm then
    { result := .ok norm
      matrix := M.holding (A.mapEntries fun _ _ v => v * Scalar.recip norm)
      d := Vec.scale d (Scalar.recip (Scalar.sqrt norm))
      e := Vec.scale e (Scalar.recip (Scalar.sqrt norm)) }
  else
    { result := .ok norm, matrix := M, d, e }

/-- The entry that an equilibration puts in the place of `v`. -/
def rescaledEntry (t : Magnitude) (norm : α) (d e : Array α) (i j : Nat)
    (v : α) : α :=
  let b := PackedSigns.joinValue t (t.of v) (decide (v < 0))
    * (d.getD i 0 * e.getD j 0)
  if 0 < norm ∧ Scalar.isFinite norm then b * Scalar.recip norm else b

theorem matrix_normalizedBy (M : SolverMatrix α) (A : SlicedMatrix α)
    (t : Magnitude) (norm : α) (d e : Array α) :
    ((M.holding (balanced A t d e)).normalizedBy
      (balanced A t d e) norm d e).matrix
      = M.holding (A.mapEntries (rescaledEntry t norm d e)) := by
  unfold normalizedBy rescaledEntry
  split
  · rw [balanced, SlicedMatrix.mapEntries_mapEntries]
    rfl
  · rfl

/-- What an equilibration leaves behind after normalization: a summary and
its report, or the error. -/
def concluded [Displayed α] (M : SolverMatrix α) (balance : BalanceRecord α)
    (watches : Stopwatches) (w : World) (N : Rescaled α α) : Equilibrated α :=
  let matrix := { N.matrix with watches }
  match N.result with
  | .error error =>
    { result := .error error, matrix, d := N.d, e := N.e, world := w }
  | .ok norm =>
    let time := watches.elapsed "equilibrate" - M.watches.elapsed "equilibrate"
    let summary : EquilibrationSummary α := { balance, norm, time }
    let (matrix, world) := matrix.printReport summary N.d N.e w
    { result := .ok summary, matrix, d := N.d, e := N.e, world }

theorem result_normalizedBy (M : SolverMatrix α) (A : SlicedMatrix α) (norm : α)
    (d e : Array α) : (M.normalizedBy A norm d e).result = .ok norm := by
  unfold normalizedBy
  split <;> rfl

theorem concluded_eq [Displayed α] (M : SolverMatrix α)
    (record : BalanceRecord α) (watches : Stopwatches) (w : World)
    {N : Rescaled α α} {norm : α} (h : N.result = .ok norm) :
    ∃ (time : Nat) (outlet : Outlet),
      (M.concluded record watches w N).result = .ok ⟨record, norm, time⟩
        ∧ (M.concluded record watches w N).matrix
          = { N.matrix with watches, outlet }
        ∧ (M.concluded record watches w N).d = N.d
        ∧ (M.concluded record watches w N).e = N.e := by
  unfold concluded printReport
  rw [h]
  dsimp only
  split
  · exact ⟨_, _, rfl, rfl, rfl, rfl⟩
  · exact ⟨_, _, rfl, rfl, rfl, rfl⟩

namespace Holds

variable {M : SolverMatrix α} {A : SlicedMatrix α} (hM : M.Holds A)

include hM

omit [Scalar α] in
theorem isBuilt : ¬ ¬ M.isBuilt = true := by
  unfold SolverMatrix.isBuilt
  rw [hM.storage]
  exact not_not.mpr rfl

theorem frobeniusNorm_eq :
    M.frobeniusNorm = .ok
      (Vec.norm A.values / Scalar.sqrt (Scalar.ofNat (min M.rows M.cols))) := by
  unfold frobeniusNorm values
  rw [hM.pair]
  show Except.ok (Vec.norm (PairedMatrix.ofForm A).inputForm.values / _) = _
  rw [PairedMatrix.inputForm_ofForm]

/-- An estimate that comes to a result is not refused, except of the
1-norm. -/
theorem of_normEstimate {norm : NormPolicy} (hnorm : norm ≠ .one)
    {options : Options α} {r : Except Refusal α}
    (h : M.normEstimate norm options = .ok r) : ∃ v, r = .ok v := by
  cases norm with
  | one => exact absurd rfl hnorm
  | frobenius =>
    cases h
    exact ⟨_, hM.frobeniusNorm_eq⟩
  | two =>
    unfold normEstimate at h
    obtain ⟨p, hp, hr⟩ := bind_eq_ok_iff.mp h
    rw [SpectralNorm.of_estimate hM.computes hp] at hr
    cases hr
    exact ⟨_, rfl⟩

theorem normalize_eq (d e : Array α) :
    M.normalize d e = (do
      match ← M.normEstimate M.options.normalizeNorm M.options with
      | .error error => pure { result := .error error, matrix := M, d, e }
      | .ok norm => pure (M.normalizedBy A norm d e)) := by
  unfold normalize
  congr 1
  funext r
  cases r with
  | error error => rfl
  | ok norm =>
    simp only [hM.pair, normalizedBy]
    split
    · rw [PairedMatrix.scale_ofForm hM.check hM.room]
      rfl
    · rfl

theorem normalize_of_normEstimate {norm : α}
    (h : M.normEstimate M.options.normalizeNorm M.options = .ok (.ok norm))
    {d e : Array α} :
    M.normalize d e = .ok (M.normalizedBy A norm d e) := by
  rw [hM.normalize_eq, h]
  rfl

/-- The computation from the magnitudes on. -/
theorem rescale_eq (hcomm : ∀ a b : α, a * b = b * a) (t : Magnitude)
    {d e : Array α} (hd : d.size = M.rows) (he : e.size = M.cols)
    (hcols : M.cols < capacity) (s : Stopwatches × World) :
    ∃ (run : BalanceRun α) (record : BalanceRecord α),
      Balancing.run
        (M.holding (magnitudes A t)).operator d e M.options.balanceBudget.toNat
          M.options.balanceTolerance () = .ok (run, ())
        ∧ run.outcome = .ok record ∧ run.d.size = M.rows ∧ run.e.size = M.cols
        ∧ M.rescale t d e s = (do
          let N ← (M.holding (balanced A t (factorsFor t run.d)
              (factorsFor t run.e))).normalize
            (factorsFor t run.d) (factorsFor t run.e)
          pure ({ N with result := N.result.map fun norm => (record, norm) },
            Timed.lap "normalize" (Timed.lap "balance" s))) := by
  have hmag := hM.holding_magnitudes t
  obtain ⟨b, record, -, hb, -, hrun⟩ :=
    Balancing.run_rule hmag.computes (fun _ => True) trivial
      (fun _ _ _ => trivial) hd he hcols M.options.balanceBudget.toNat
      M.options.balanceTolerance
  have hsizes :
      (factorsFor t b.d).size = A.rows ∧ (factorsFor t b.e).size = A.cols := by
    rw [← hM.rows_eq, ← hM.cols_eq]
    exact ⟨(size_factorsFor t b.d).trans hb.d_size,
      (size_factorsFor t b.e).trans hb.e_size⟩
  refine ⟨⟨b.d, b.e, .ok record⟩, record, hrun, rfl, hb.d_size, hb.e_size, ?_⟩
  have hsplit := PairedMatrix.splitSigns_ofForm hM.check hM.room t
  have hjoin := PairedMatrix.joinSigns_ofForm hM.check hM.room t
  have hsigned : (M.holding (resigned A t)).Holds (resigned A t) :=
    hM.holding_mapEntries _
  have hscale := PairedMatrix.scaleBySides_ofForm hsigned.check hsigned.room
    hcomm hsizes.1 hsizes.2
  rw [resigned, SlicedMatrix.mapEntries_mapEntries] at hscale
  unfold rescale
  simp only [hM.pair]
  rw [Timed.lift_bind hsplit]
  dsimp only
  rw [Timed.timed_bind]
  show (do
    let r ← Balancing.run (M.holding (magnitudes A t)).operator d e
      M.options.balanceBudget.toNat M.options.balanceTolerance ()
    _) = _
  rw [hrun, ok_bind]
  dsimp only
  rw [Timed.lift_bind hjoin, Timed.lift_bind hscale, Timed.timed_bind]
  rfl

theorem cols_lt_of_rescale {t : Magnitude} {d e : Array α}
    {s : Stopwatches × World}
    {r : Rescaled α (BalanceRecord α × α) × Stopwatches × World}
    (h : M.rescale t d e s = .ok r) : M.cols < capacity := by
  unfold rescale at h
  simp only [hM.pair] at h
  rw [Timed.lift_bind (PairedMatrix.splitSigns_ofForm hM.check hM.room t)] at h
  dsimp only at h
  rw [Timed.timed_bind, bind_eq_ok_iff] at h
  obtain ⟨run, hrun, -⟩ := h
  exact (Balancing.sizes_of_run hrun).2.2

/-- An equilibration is balancing, normalization and the report. -/
theorem equilibrate_eq [Displayed α] (hcomm : ∀ a b : α, a * b = b * a)
    (hnorm : M.options.normalizeNorm ≠ .one) {d e : Array α}
    (hd : d.size = M.rows) (he : e.size = M.cols) (hcols : M.cols < capacity)
    (w : World) :
    ∃ (run : BalanceRun α) (record : BalanceRecord α) (watches : Stopwatches)
      (w' : World),
      Balancing.run (M.holding
        (magnitudes A (magnitudeFor M.options.balanceNorm))).operator d e
          M.options.balanceBudget.toNat M.options.balanceTolerance ()
            = .ok (run, ())
        ∧ run.outcome = .ok record ∧ run.d.size = M.rows ∧ run.e.size = M.cols
        ∧ M.equilibrate d e w = (do
          let N ← (M.holding (balanced A (magnitudeFor M.options.balanceNorm)
              (factorsFor (magnitudeFor M.options.balanceNorm) run.d)
              (factorsFor
                (magnitudeFor M.options.balanceNorm) run.e))).normalize
            (factorsFor (magnitudeFor M.options.balanceNorm) run.d)
            (factorsFor (magnitudeFor M.options.balanceNorm) run.e)
          pure (M.concluded record watches w' N)) := by
  obtain ⟨run, record, hrun, hok, hsd, hse, hrescale⟩ := hM.rescale_eq hcomm
    (magnitudeFor M.options.balanceNorm) hd he hcols
    (M.watches.start "equilibrate" w.now, w.look)
  generalize Timed.lap "normalize"
    (Timed.lap "balance" (M.watches.start "equilibrate" w.now, w.look))
      = s at hrescale
  refine ⟨run, record, s.1.stop s.2.now, s.2.look, hrun, hok, hsd, hse, ?_⟩
  unfold equilibrate
  rw [if_neg hM.isBuilt, if_neg hnorm, require_eq_ok hd, ok_bind,
    require_eq_ok he, ok_bind]
  unfold StateT.run
  rw [Timed.timed_eq, hrescale]
  generalize (M.holding _).normalize _ _ = result
  cases result with
  | error v => rfl
  | ok N =>
    obtain ⟨result, matrix, d', e'⟩ := N
    cases result <;> rfl

/-- An equilibration that comes to a result was given vectors that fit,
unless it was refused. -/
theorem sizes_of_equilibrate [Displayed α]
    (hnorm : M.options.normalizeNorm ≠ .one) {d e : Array α} {w : World}
    {out : Equilibrated α} (h : M.equilibrate d e w = .ok out) :
    d.size = M.rows ∧ e.size = M.cols ∧ M.cols < capacity := by
  unfold equilibrate at h
  rw [if_neg hM.isBuilt, if_neg hnorm, bind_eq_ok_iff] at h
  obtain ⟨_, hd, h⟩ := h
  rw [bind_eq_ok_iff] at h
  obtain ⟨_, he, h⟩ := h
  rw [bind_eq_ok_iff] at h
  obtain ⟨s, hs, -⟩ := h
  unfold StateT.run at hs
  rw [Timed.timed_eq, bind_eq_ok_iff] at hs
  obtain ⟨r, hr, -⟩ := hs
  exact ⟨of_require hd, of_require he, hM.cols_lt_of_rescale hr⟩

/-- **What an equilibration does.** Either it is refused and changes
nothing; or the factors of a balancing run of the magnitudes scale the
entries, which are then divided by an estimate of their norm. -/
theorem of_equilibrate [Displayed α] (hcomm : ∀ a b : α, a * b = b * a)
    {d e : Array α} {w : World} {out : Equilibrated α}
    (h : M.equilibrate d e w = .ok out) :
    (M.options.normalizeNorm = .one ∧ ∃ r, out.result = .error r
      ∧ out.matrix = M)
    ∨ ∃ (run : BalanceRun α) (record : BalanceRecord α) (norm : α) (time : Nat)
        (watches : Stopwatches) (outlet : Outlet),
      let t := magnitudeFor M.options.balanceNorm
      let B := balanced A t (factorsFor t run.d) (factorsFor t run.e)
      let N := (M.holding B).normalizedBy B norm (factorsFor t run.d)
        (factorsFor t run.e)
      Balancing.run (M.holding (magnitudes A t)).operator d e
        M.options.balanceBudget.toNat M.options.balanceTolerance ()
            = .ok (run, ())
        ∧ run.outcome = .ok record ∧ run.d.size = M.rows ∧ run.e.size = M.cols
        ∧ M.options.normalizeNorm ≠ .one
        ∧ (M.holding B).normEstimate M.options.normalizeNorm M.options
          = .ok (.ok norm)
        ∧ out.result = .ok ⟨record, norm, time⟩
        ∧ out.matrix = { N.matrix with watches, outlet } ∧ out.d = N.d
        ∧ out.e = N.e := by
  by_cases hnorm : M.options.normalizeNorm = .one
  · left
    unfold equilibrate at h
    rw [if_neg hM.isBuilt, if_pos hnorm] at h
    cases h
    exact ⟨hnorm, _, rfl, rfl⟩
  · right
    obtain ⟨hd, he, hcols⟩ := hM.sizes_of_equilibrate hnorm h
    obtain ⟨run, record, watches, w', hrun, hok, hsd, hse, heq⟩ :=
      hM.equilibrate_eq hcomm hnorm hd he hcols w
    generalize hB : balanced A (magnitudeFor M.options.balanceNorm)
      (factorsFor (magnitudeFor M.options.balanceNorm) run.d)
      (factorsFor (magnitudeFor M.options.balanceNorm) run.e) = B at heq
    have hholds : (M.holding B).Holds B := hB ▸ hM.holding_balanced _ _ _
    rw [heq, hholds.normalize_eq, bind_eq_ok_iff] at h
    obtain ⟨N, hN, hout⟩ := h
    rw [bind_eq_ok_iff] at hN
    obtain ⟨r, hr, hN⟩ := hN
    obtain ⟨norm, rfl⟩ := hholds.of_normEstimate hnorm hr
    cases hN
    cases hout
    obtain ⟨time, outlet, hresult, hmatrix, hdout, heout⟩ :=
      M.concluded_eq record watches w' ((M.holding B).result_normalizedBy B norm
        (factorsFor (magnitudeFor M.options.balanceNorm) run.d)
        (factorsFor (magnitudeFor M.options.balanceNorm) run.e))
    exact ⟨run, record, norm, time, watches, outlet, hrun, hok, hsd, hse, hnorm,
      hB ▸ hr, hB ▸ hresult, hB ▸ hmatrix, hB ▸ hdout, hB ▸ heout⟩

/-- An equilibration with a summary, told in its own words. -/
theorem of_equilibrate_ok [Displayed α] (hcomm : ∀ a b : α, a * b = b * a)
    {d e : Array α} {w : World} {out : Equilibrated α}
    (h : M.equilibrate d e w = .ok out) {summary : EquilibrationSummary α}
    (hok : out.result = .ok summary) :
    ∃ (t : Magnitude) (run : BalanceRun α) (watches : Stopwatches)
      (outlet : Outlet),
      let B := balanced A t (factorsFor t run.d) (factorsFor t run.e)
      let N := (M.holding B).normalizedBy B summary.norm (factorsFor t run.d)
        (factorsFor t run.e)
      t = magnitudeFor M.options.balanceNorm
        ∧ Balancing.run (M.holding (magnitudes A t)).operator d e
          M.options.balanceBudget.toNat M.options.balanceTolerance ()
            = .ok (run, ())
        ∧ run.outcome = .ok summary.balance
        ∧ (M.holding B).normEstimate M.options.normalizeNorm M.options
          = .ok (.ok summary.norm)
        ∧ out.matrix = { N.matrix with watches, outlet } ∧ out.d = N.d
        ∧ out.e = N.e := by
  rcases hM.of_equilibrate hcomm h with ⟨-, r, hr, -⟩ |
    ⟨run, record, norm, time, watches, outlet, hrun, hrecord, -, -, -, hnorm,
      hresult, hmatrix, hdout, heout⟩
  · rw [hr] at hok
    cases hok
  · rw [hresult] at hok
    cases hok
    exact ⟨_, run, watches, outlet, rfl, hrun, hrecord, hnorm, hmatrix,
      hdout, heout⟩

/-- The iterations that are reported are within the budget. -/
theorem iterations_le_of_equilibrate [Displayed α]
    (hcomm : ∀ a b : α, a * b = b * a) {d e : Array α} {w : World}
    {out : Equilibrated α} (h : M.equilibrate d e w = .ok out)
    {summary : EquilibrationSummary α} (hok : out.result = .ok summary) :
    summary.balance.iterations ≤ M.options.balanceBudget.toNat := by
  obtain ⟨t, run, watches, outlet, -, hrun, hrecord, -⟩ :=
    hM.of_equilibrate_ok hcomm h hok
  exact Balancing.iterations_le (hM.holding_magnitudes t).computes hrun hrecord

theorem matrix_of_refused [Displayed α] (hcomm : ∀ a b : α, a * b = b * a)
    {d e : Array α} {w : World} {out : Equilibrated α}
    (h : M.equilibrate d e w = .ok out) {r : Refusal}
    (hr : out.result = .error r) : out.matrix = M := by
  rcases hM.of_equilibrate hcomm h with ⟨-, -, -, hmatrix⟩ |
    ⟨_, _, _, _, _, _, -, -, -, -, -, -, hresult, -, -, -⟩
  · exact hmatrix
  · rw [hr] at hresult
    cases hresult

/-- With room for the vectors there is an estimate of every norm but the
1-norm. -/
theorem normEstimate_total {norm : NormPolicy} (hnorm : norm ≠ .one)
    (options : Options α) (hrows : M.rows < capacity)
    (hcols : M.cols < capacity) :
    ∃ v, M.normEstimate norm options = .ok (.ok v) := by
  cases norm with
  | one => exact absurd rfl hnorm
  | frobenius => exact ⟨_, congrArg Except.ok hM.frobeniusNorm_eq⟩
  | two =>
    have hestimate := SpectralNorm.estimate_eq hM.computes (.inr ⟨hrows, hcols⟩)
      options.normBudget.toNat options.normTolerance
    exact ⟨_, bind_eq_ok_iff.mpr ⟨_, hestimate, rfl⟩⟩

/-- An equilibration with vectors that fit comes to a result. -/
theorem equilibrate_total [Displayed α] (hcomm : ∀ a b : α, a * b = b * a)
    {d e : Array α} (hd : d.size = M.rows) (he : e.size = M.cols)
    (hrows : M.rows < capacity) (hcols : M.cols < capacity) (w : World) :
    ∃ out, M.equilibrate d e w = .ok out := by
  by_cases hnorm : M.options.normalizeNorm = .one
  · refine ⟨{ result := .error (.unsupportedNorm .one), matrix := M, d, e,
              world := w }, ?_⟩
    unfold equilibrate
    rw [if_neg hM.isBuilt, if_pos hnorm]
    rfl
  · obtain ⟨run, record, watches, w', -, -, -, -, heq⟩ :=
      hM.equilibrate_eq hcomm hnorm hd he hcols w
    have hB := hM.holding_balanced (magnitudeFor M.options.balanceNorm)
      (factorsFor (magnitudeFor M.options.balanceNorm) run.d)
      (factorsFor (magnitudeFor M.options.balanceNorm) run.e)
    obtain ⟨v, hv⟩ := hB.normEstimate_total hnorm M.options hrows hcols
    rw [heq, hB.normalize_of_normEstimate hv]
    exact ⟨_, rfl⟩

theorem holds_of_equilibrate [Displayed α] (hcomm : ∀ a b : α, a * b = b * a)
    {d e : Array α} {w : World} {out : Equilibrated α}
    (h : M.equilibrate d e w = .ok out) :
    ∃ f, out.matrix.Holds (A.mapEntries f) := by
  rcases hM.of_equilibrate hcomm h with ⟨-, _, -, hmatrix⟩ |
    ⟨run, record, norm, time, watches, outlet, -, -, -, -, -, -, -, hmatrix, -⟩
  · rw [hmatrix]
    exact ⟨fun _ _ v => v, by rwa [SlicedMatrix.mapEntries_id hM.check]⟩
  · rw [matrix_normalizedBy] at hmatrix
    have hN := hM.holding_mapEntries
      (rescaledEntry (magnitudeFor M.options.balanceNorm) norm
        (factorsFor (magnitudeFor M.options.balanceNorm) run.d)
        (factorsFor (magnitudeFor M.options.balanceNorm) run.e))
    rw [hmatrix]
    exact ⟨_, hN.of_rest _ _ _⟩

end Holds

end SolverMatrix

end Equilibration
