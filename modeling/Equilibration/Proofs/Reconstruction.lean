import Mathlib.Analysis.Real.Sqrt
import Equilibration.Proofs.ExactBalancing
import Equilibration.Proofs.Sessions

/-!
# Reconstruction — what the factors of a session say

Without rounding, the factors that come back from the equilibrations of a
session explain its matrix: every entry is the one that was built, between
the products of its row factors and of its column factors
(`Session.Explained`). The matrix that an equilibration leaves has norm one
and balanced rows.
-/

namespace Equilibration

open Checked

variable {α : Type}

namespace Answer

/-- The factor of a row, one if nothing was equilibrated. -/
def rowFactor [Scalar α] (a : Answer α) (i : Nat) : α :=
  match a.factors with
  | some (d, _) => d.getD i 0
  | none => 1

/-- The factor of a column, one if nothing was equilibrated. -/
def colFactor [Scalar α] (a : Answer α) (j : Nat) : α :=
  match a.factors with
  | some (_, e) => e.getD j 0
  | none => 1

end Answer

variable [ExactField α]

/-! ## One equilibration -/

namespace SolverMatrix

theorem factors_normalizedBy (M : SolverMatrix α) (A : SlicedMatrix α)
    (norm : α) (d e : Array α) (i : Nat) :
    (M.normalizedBy A norm d e).d.getD i 0 = d.getD i 0 * share norm
      ∧ (M.normalizedBy A norm d e).e.getD i 0 = e.getD i 0 * share norm := by
  have hfinite : (0 < norm ∧ Scalar.isFinite norm) ↔ 0 < norm :=
    and_iff_left (ExactOrderedField.isFinite_eq norm)
  unfold normalizedBy share
  by_cases h : 0 < norm
  · rw [if_pos (hfinite.mpr h), if_pos h]
    exact ⟨Vec.getD_scale d _ i, Vec.getD_scale e _ i⟩
  · rw [if_neg (hfinite.not.mpr h), if_neg h, mul_one, mul_one]
    exact ⟨rfl, rfl⟩

namespace Holds

variable {M : SolverMatrix α} {A : SlicedMatrix α} (hM : M.Holds A)
  [Displayed α] {d e : Array α} {w : World} {out : Equilibrated α}
  (h : M.equilibrate d e w = .ok out) {summary : EquilibrationSummary α}
  (hok : out.result = .ok summary)

include hM h hok

/-- The factors that an equilibration gives are those of the entries. -/
theorem entries_of_equilibrate :
    out.matrix.Holds
      (A.mapEntries fun i j v => out.d.getD i 0 * v * out.e.getD j 0) := by
  obtain ⟨t, run, watches, outlet, -, -, -, -, hmatrix, hd, he⟩ :=
    hM.of_equilibrate_ok mul_comm h hok
  have hentry : ∀ i j v, rescaledEntry t summary.norm (factorsFor t run.d)
        (factorsFor t run.e) i j v
        = out.d.getD i 0 * v * out.e.getD j 0 := by
    intro i j v
    rw [rescaledEntry_eq, hd, he,
      (factors_normalizedBy _ _ summary.norm _ _ i).1,
      (factors_normalizedBy _ _ summary.norm _ _ j).2]
  have hN := hM.holding_mapEntries
    (rescaledEntry t summary.norm (factorsFor t run.d) (factorsFor t run.e))
  rw [hmatrix, matrix_normalizedBy]
  simp only [← hentry]
  exact hN.of_rest _ _ _

/-- After a norm that was not zero, the estimate of the norm is one. -/
theorem unit_norm_of_equilibrate (hpos : 0 < summary.norm) :
    out.matrix.normEstimate M.options.normalizeNorm M.options
      = .ok (.ok 1) := by
  obtain ⟨t, run, watches, outlet, -, -, -, hnorm, hmatrix, -, -⟩ :=
    hM.of_equilibrate_ok mul_comm h hok
  have hB := hM.holding_balanced t (factorsFor t run.d) (factorsFor t run.e)
  -- normalization is a multiple of the balanced matrix, so the estimate is that
  -- multiple
  have hN := hB.holding_mapEntries fun _ _ v => v * Scalar.recip summary.norm
  rw [normalizedBy, if_pos ⟨hpos, ExactOrderedField.isFinite_eq _⟩] at hmatrix
  have hout : out.matrix.Holds ((balanced A t (factorsFor t run.d) (factorsFor t
      run.e)).mapEntries fun _ _ v => v * Scalar.recip summary.norm) := by
    rw [hmatrix]
    exact hN.of_rest _ _ _
  have hunit := hB.normEstimate_scaled hout (one_div_pos.mpr hpos) hnorm
  rwa [ExactField.recip_eq, inv_mul_cancel₀ hpos.ne'] at hunit

/-- The Frobenius norm vanishes only with all entries. -/
theorem norm_pos_of_equilibrate
    (hfrobenius : M.options.normalizeNorm = .frobenius) {i j : Nat} {v : α}
    (hmem : (i, j, v) ∈ A.triplets) (hv : v ≠ 0) : 0 < summary.norm := by
  obtain ⟨t, run, watches, outlet, -, hrun, hrecord, hnorm, -, -, -⟩ :=
    hM.of_equilibrate_ok mul_comm h hok
  obtain ⟨s, hs, ⟨hd, he⟩, ⟨hsd, hse⟩, -⟩ := hM.balanced_of_run t hrun hrecord
  obtain ⟨hi, hj⟩ := SlicedMatrix.lt_of_mem_triplets hM.check hmem
  have hB := hM.holding_balanced t (factorsFor t run.d) (factorsFor t run.e)
  rw [← hsd, ← hse] at hnorm hB
  have hvalue :
      ∃ u ∈ (balanced A t (factorsFor t s.d) (factorsFor t s.e)).values,
      u ≠ 0 := by
    have hdi :=
      t.factorsFor_pos (hs.d_getD_pos (Nat.zero_lt_of_lt hj) (hd ▸ hi))
    have hej :=
      t.factorsFor_pos (hs.e_getD_pos (Nat.zero_lt_of_lt hi) (he ▸ hj))
    refine ⟨v * ((factorsFor t s.d).getD i 0 * (factorsFor t s.e).getD j 0), ?_,
      mul_ne_zero hv (mul_pos hdi hej).ne'⟩
    have hmem' : (i, j, PackedSigns.joinValue t (t.of v) (decide (v < 0))
        * ((factorsFor t s.d).getD i 0 * (factorsFor t s.e).getD j 0))
        ∈ (balanced A t (factorsFor t s.d) (factorsFor t s.e)).triplets :=
      SlicedMatrix.mem_triplets_mapEntries _ hmem
    rw [PackedSigns.joinValue_of] at hmem'
    exact SlicedMatrix.mem_values_of_mem_triplets hB.check hmem'
  obtain ⟨u, hu, hu0⟩ := hvalue
  rw [hfrobenius, normEstimate, hB.frobeniusNorm_eq] at hnorm
  have heq : _ = summary.norm := Except.ok.inj (Except.ok.inj hnorm)
  have hmin : 0 < min M.rows M.cols := by
    rw [hM.rows_eq, hM.cols_eq]
    exact lt_min (Nat.zero_lt_of_lt hi) (Nat.zero_lt_of_lt hj)
  rw [← heq]
  refine div_pos ((Vec.norm_nonneg _).lt_of_ne ?_)
    (ExactField.sqrt_pos (Balancing.ofNat_pos hmin))
  intro hzero
  exact hu0 (Vec.eq_zero_of_norm_eq_zero hzero.symm hu)

/-- With a budget there is an iteration. -/
theorem iterations_pos_of_equilibrate
    (hbudget : 0 < M.options.balanceBudget.toNat) :
    0 < summary.balance.iterations := by
  obtain ⟨t, run, watches, outlet, -, hrun, hrecord, -, -, -, -⟩ :=
    hM.of_equilibrate_ok mul_comm h hok
  exact Balancing.iterations_pos (hM.holding_magnitudes t).computes hbudget
    hrun hrecord

/-- After an iteration of balancing, all rows that are not zero have one
total. -/
theorem rowTotal_of_equilibrate (hiter : 0 < summary.balance.iterations)
    {P : PairedMatrix α} (hP : out.matrix.pair = .ok P) :
    let t := magnitudeFor M.options.balanceNorm
    ∃ total, ∀ i, (P.row.NonzeroRow i → P.row.rowTotal t i = total)
      ∧ (P.col.NonzeroRow i → P.col.rowTotal t i = total) := by
  obtain ⟨t, run, watches, outlet, ht, hrun, hrecord, -, hmatrix, -, -⟩ :=
    hM.of_equilibrate_ok mul_comm h hok
  obtain ⟨s, hs, ⟨hd, he⟩, ⟨hsd, hse⟩, hrounds⟩ :=
    hM.balanced_of_run t hrun hrecord
  have hrow := fun i =>
    rowTotal_rescaled (i := i) hM.check t hs hd he summary.norm
      (hrounds ▸ hiter)
  rw [hsd, hse] at hrow
  rw [hmatrix, matrix_normalizedBy] at hP
  cases hP
  dsimp only
  rw [← ht]
  -- both forms hold the same triplets
  have hperm :=
    SlicedMatrix.triplets_forms_perm (SlicedMatrix.check_mapEntries hM.check
      (rescaledEntry t summary.norm (factorsFor t run.d) (factorsFor t run.e)))
  refine ⟨_, fun i => ⟨hrow i, ?_⟩⟩
  rintro ⟨j, v, hmem, hv⟩
  rw [← SlicedMatrix.rowTotal_perm hperm]
  exact hrow i ⟨j, v, hperm.mem_iff.mpr hmem, hv⟩

end Holds

end SolverMatrix

/-! ## All the calls of a session -/

namespace Session

/-- The product of all factors that came back for a row. -/
def rowProduct (answers : List (Answer α)) (i : Nat) : α :=
  (answers.map fun a => a.rowFactor i).prod

/-- The product of all factors that came back for a column. -/
def colProduct (answers : List (Answer α)) (j : Nat) : α :=
  (answers.map fun a => a.colFactor j).prod

/-- What became of the entry `v` after these answers. -/
def entryAfter (answers : List (Answer α)) (i j : Nat) (v : α) : α :=
  rowProduct answers i * v * colProduct answers j

/-- The answers explain the matrix: it is not built, and there are no
factors yet, or its entries are those of the input between the products of
their factors. -/
def Explained (input : MatrixInput α) (answers : List (Answer α))
    (M : SolverMatrix α) : Prop :=
  (M.input? = some input ∧ ∀ a ∈ answers, a.factors = none)
    ∨ M.Holds (input.matrix.mapEntries (entryAfter answers))

theorem entryAfter_append (answers : List (Answer α)) (a : Answer α) (i j : Nat)
    (v : α) :
    entryAfter (answers ++ [a]) i j v
      = a.rowFactor i * entryAfter answers i j v * a.colFactor j := by
  simp only [entryAfter, rowProduct, colProduct, List.map_append,
    List.prod_append, List.map_cons, List.map_nil, List.prod_singleton]
  ring

theorem factors_of_none {a : Answer α} (h : a.factors = none) (i : Nat) :
    a.rowFactor i = 1 ∧ a.colFactor i = 1 := by
  rw [Answer.rowFactor, Answer.colFactor, h]
  exact ⟨rfl, rfl⟩

theorem entryAfter_append_of_none (answers : List (Answer α)) {a : Answer α}
    (h : a.factors = none) :
    entryAfter (answers ++ [a]) = entryAfter answers := by
  funext i j v
  rw [entryAfter_append, (factors_of_none h i).1, (factors_of_none h j).2,
    one_mul, mul_one]

/-- Without factors an entry is what it was. -/
theorem entryAfter_of_none {answers : List (Answer α)}
    (h : ∀ a ∈ answers, a.factors = none) (i j : Nat) (v : α) :
    entryAfter answers i j v = v := by
  have hrow : rowProduct answers i = 1 := by
    apply List.prod_eq_one
    intro x hx
    obtain ⟨a, ha, rfl⟩ := List.mem_map.mp hx
    exact (factors_of_none (h a ha) i).1
  have hcol : colProduct answers j = 1 := by
    apply List.prod_eq_one
    intro x hx
    obtain ⟨a, ha, rfl⟩ := List.mem_map.mp hx
    exact (factors_of_none (h a ha) j).2
  rw [entryAfter, hrow, hcol, one_mul, mul_one]

section Steps

variable [Displayed α] {input : MatrixInput α}
  (hcheck : input.check = .ok (.ok ()))

include hcheck

/-- Every call is explained by its answer. -/
theorem Explained.perform {before : List (Answer α)} {s s' : Session α}
    {c : Call α} {a : Answer α} (hs : Explained input before s.matrix)
    (h : s.perform c = .ok (a, s')) :
    Explained input (before ++ [a]) s'.matrix := by
  have hnone :
      ∀ {answers : List (Answer α)}, (∀ a ∈ answers, a.factors = none) →
      a.factors = none → ∀ b ∈ answers ++ [a], b.factors = none := by
    intro answers hanswers ha b hb
    rcases List.mem_append.mp hb with hb | hb
    · exact hanswers b hb
    · rw [List.mem_singleton.mp hb]
      exact ha
  rcases perform_cases h
    with ⟨-, ha, options, outlet, hM⟩ | ⟨-, ha, out, hout, hM⟩
    | ⟨d, e, out, -, hout, hM, ha⟩
  · rw [hM]
    rcases hs with ⟨hinput, hbefore⟩ | hs
    · exact .inl ⟨hinput, hnone hbefore ha⟩
    · right
      rw [entryAfter_append_of_none before ha]
      exact hs.of_rest options outlet _
  · right
    rw [hM, entryAfter_append_of_none before ha]
    rcases hs with ⟨hinput, hbefore⟩ | hs
    · -- the build
      have hid : entryAfter before = fun _ _ v => v := by
        funext i j v
        exact entryAfter_of_none hbefore i j v
      rw [hid,
        SlicedMatrix.mapEntries_id (MatrixInput.check_eq_ok_iff.mp hcheck).2]
      exact SolverMatrix.holds_of_build hcheck hinput hout
    · rw [hs.build_eq hout]
      exact hs
  · rw [hM]
    rcases hs with ⟨hinput, hbefore⟩ | hs
    · left
      rw [equilibrate_of_input hinput] at hout
      cases hout
      exact ⟨hinput, hnone hbefore (congrArg Answer.factors ha)⟩
    · right
      cases hresult : out.result with
      | error r =>
        rw [hresult] at ha
        rw [entryAfter_append_of_none before (congrArg Answer.factors ha),
          hs.matrix_of_refused mul_comm hout hresult]
        exact hs
      | ok summary =>
        rw [hresult] at ha
        have hentries := hs.entries_of_equilibrate hout hresult
        rw [SlicedMatrix.mapEntries_mapEntries] at hentries
        have hafter : entryAfter (before ++ [a])
            = fun i j v =>
              out.d.getD i 0 * entryAfter before i j v * out.e.getD j 0 := by
          funext i j v
          rw [entryAfter_append, ha]
          rfl
        rw [hafter]
        exact hentries

theorem Explained.run {calls : List (Call α)} {before answers : List (Answer α)}
    {s s' : Session α} (hs : Explained input before s.matrix)
    (h : s.run calls = .ok (answers, s')) :
    Explained input (before ++ answers) s'.matrix :=
  run_rule (P := fun _ as s => Explained input as s.matrix)
    (Explained.perform hcheck) [] before hs h

omit hcheck in
/-- A built matrix is equilibrated, if the vectors fit. -/
theorem Built.equilibrated
    (hmem : FitsMemory input.rows input.cols input.values.size) {s : Session α}
    (hs : Built input s.matrix) (hnorm : s.matrix.options.normalizeNorm ≠ .one)
    {d e : Array α} (hd : d.size = input.rows) (he : e.size = input.cols) :
    ∃ summary d' e' s', s.perform (.equilibrate d e)
      = .ok (.equilibrated summary d' e', s') := by
  obtain ⟨f, hs⟩ := hs
  have hrows : s.matrix.rows = input.rows := hs.rows_eq
  have hcols : s.matrix.cols = input.cols := hs.cols_eq
  obtain ⟨out, hout⟩ :=
    hs.equilibrate_total mul_comm (hd.trans hrows.symm) (he.trans hcols.symm)
      (hrows ▸ Nat.lt_of_succ_lt hmem.rows_lt)
      (hcols ▸ Nat.lt_of_succ_lt hmem.cols_lt) s.world
  rcases hs.of_equilibrate mul_comm hout with ⟨hone, -⟩ |
    ⟨_, record, norm, time, _, _, -, -, -, -, -, -, hresult, -, -, -⟩
  · exact absurd hone hnorm
  · exact ⟨⟨record, norm, time⟩, out.d, out.e, _,
      perform_equilibrate_of_ok hout hresult⟩

omit hcheck in
theorem of_perform_equilibrate {s s' : Session α} {d e d' e' : Array α}
    {summary : EquilibrationSummary α}
    (h : s.perform (.equilibrate d e) = .ok (.equilibrated summary d' e', s')) :
    ∃ out, s.matrix.equilibrate d e s.world = .ok out ∧ out.result = .ok summary
      ∧ s'.matrix = out.matrix := by
  obtain ⟨out, hout, hok, hs', -⟩ := equilibrated_of_perform h
  exact ⟨out, hout, hok, hs'⟩

omit hcheck in
/-- Only a built matrix is equilibrated. -/
theorem Explained.holds_of_equilibrate {before : List (Answer α)}
    {s : Session α} (hs : Explained input before s.matrix) {d e : Array α}
    {out : Equilibrated α} (hout : s.matrix.equilibrate d e s.world = .ok out)
    {summary : EquilibrationSummary α} (hok : out.result = .ok summary) :
    s.matrix.Holds (input.matrix.mapEntries (entryAfter before)) := by
  rcases hs with ⟨hinput, -⟩ | hs
  · rw [equilibrate_of_input hinput] at hout
    cases hout
    cases hok
  · exact hs

end Steps

/-- **Equilibrations explain the matrix.** Take any input that passes the
check, any unbuilt matrix of it and any sequence of calls. Every entry of
both forms is then the one that was built, between the products of the
factors that came back for its row and for its column.

A built matrix in such a session can be equilibrated once more, in any
norms but the 1-norm for normalization. If the norm was not zero, the
matrix then has norm one by the same estimate and the same options; and if
balancing did an iteration, all rows that are not zero have the same total
of squares or magnitudes. -/
theorem equilibrations_reconstruct [Displayed α] (input : MatrixInput α)
    (hcheck : input.check = .ok (.ok ())) (M : SolverMatrix α)
    (hM : M.input? = some input) (w : World) (calls : List (Call α))
    (answers : List (Answer α)) (s : Session α)
    (hrun : run ⟨M, w⟩ calls = .ok (answers, s)) :
    (∀ P, s.matrix.pair = .ok P → ∃ P₀, PairedMatrix.ofInput input = .ok P₀
      ∧ P.row.triplets = P₀.row.triplets.map (fun (i, j, v) =>
        (i, j, rowProduct answers i * v * colProduct answers j))
      ∧ P.col.triplets = P₀.col.triplets.map fun (i, j, v) =>
        (i, j, rowProduct answers i * v * colProduct answers j))
    ∧ (∀ d e P, FitsMemory input.rows input.cols input.values.size →
      d.size = input.rows → e.size = input.cols →
      s.matrix.pair = .ok P → s.matrix.options.normalizeNorm ≠ .one →
        ∃ summary d' e' s', s.perform (.equilibrate d e)
          = .ok (.equilibrated summary d' e', s'))
    ∧ ∀ d e summary d' e' s',
      s.perform (.equilibrate d e) = .ok (.equilibrated summary d' e', s') →
        (0 < summary.norm →
          s'.matrix.normEstimate s.matrix.options.normalizeNorm s.matrix.options
            = .ok (.ok 1))
        ∧ (0 < summary.balance.iterations → ∀ P, s'.matrix.pair = .ok P →
          let t := SolverMatrix.magnitudeFor s.matrix.options.balanceNorm
          ∃ total, ∀ i, (P.row.NonzeroRow i → P.row.rowTotal t i = total)
            ∧ (P.col.NonzeroRow i → P.col.rowTotal t i = total)) := by
  have hmatrix := (MatrixInput.check_eq_ok_iff.mp hcheck).2
  have hstart : Explained input [] M := .inl ⟨hM, nofun⟩
  have hs : Explained input answers s.matrix :=
    Explained.run hcheck (s := ⟨M, w⟩) hstart hrun
  have hbuilt : ∀ P, s.matrix.pair = .ok P →
      s.matrix.Holds (input.matrix.mapEntries (entryAfter answers)) := by
    intro P hP
    rcases hs with ⟨hinput, -⟩ | hs
    · -- an unbuilt matrix has no forms
      rw [SolverMatrix.pair_of_input hinput] at hP
      cases hP
    · exact hs
  refine ⟨?_, ?_, ?_⟩
  · -- the entries
    intro P hP
    have hholds := hbuilt P hP
    have hroom := (SlicedMatrix.hasRoom_mapEntries hmatrix _).mp hholds.room
    refine ⟨_, (PairedMatrix.ofInput_eq_ok_iff hmatrix).mpr ⟨hroom, rfl⟩, ?_⟩
    rw [hholds.pair] at hP
    cases hP
    rw [PairedMatrix.ofForm_mapEntries hmatrix]
    exact ⟨SlicedMatrix.triplets_mapEntries _ _,
      SlicedMatrix.triplets_mapEntries _ _⟩
  · -- one more equilibration
    intro d e P hmem hd he hP hnorm
    exact Built.equilibrated hmem ⟨_, hbuilt P hP⟩ hnorm hd he
  · -- its norm and its rows
    intro d e summary d' e' s' h
    obtain ⟨out, hout, hok, hs'⟩ := of_perform_equilibrate h
    have hholds := hs.holds_of_equilibrate hout hok
    rw [hs']
    exact ⟨hholds.unit_norm_of_equilibrate hout hok,
      fun hiter P hP => hholds.rowTotal_of_equilibrate hout hok hiter hP⟩

/-- Real numbers in columns, with a repeated index and a zero: built and
equilibrated once. -/
theorem equilibrations_reconstruct_repeated :
    let _ := ExactField.ofField ℝ Real.sqrt
      (fun _ => Real.sqrt_nonneg _) Real.mul_self_sqrt
    let _ : Displayed ℝ := ⟨fun _ _ => ""⟩
    let input : MatrixInput ℝ :=
      ⟨.col, 3, 2, 4, #[0, 3, 4], #[2, 0, 2, 1], #[1, -2, 0, 3]⟩
    let options : Options ℝ := ⟨true, .two, .frobenius, 1, 0, 1, 0⟩
    let M := SolverMatrix.ofInput input options
    let w : World := { readings := fun n => n }
    input.check = .ok (.ok ()) ∧ ∃ answers s summary d e s',
      run ⟨M, w⟩ [.build] = .ok (answers, s)
        ∧ s.perform (.equilibrate #[0, 0, 0] #[0, 0])
          = .ok (.equilibrated summary d e, s')
        ∧ s'.matrix.normEstimate .frobenius options = .ok (.ok 1)
        ∧ ∃ P P₀, s'.matrix.pair = .ok P ∧ PairedMatrix.ofInput input = .ok P₀
          ∧ (P.col.triplets = P₀.col.triplets.map fun (i, j, v) =>
            (i, j, d.getD i 0 * v * e.getD j 0))
          ∧ ∃ total, ∀ i, P.row.NonzeroRow i →
            P.row.rowTotal .square i = total := by
  intro _ _ input options M w
  have hcheck : input.check = .ok (.ok ()) := by decide +kernel
  have hmem : FitsMemory input.rows input.cols input.values.size :=
    ⟨by decide, by decide, by decide⟩
  obtain ⟨out₀, hbuild, hresult, hoptions⟩ :
      ∃ out₀, M.build w = .ok out₀ ∧ out₀.result = .ok ()
        ∧ out₀.matrix.options = options :=
    ⟨_, (SolverMatrix.build_eq_ok_iff rfl hcheck).mpr
      ⟨hmem.hasRoom (A := input.matrix), rfl⟩, rfl, rfl⟩
  have hs := SolverMatrix.holds_of_build hcheck (M := M) rfl hbuild
  have hdone := perform_build_of_ok (s := ⟨M, w⟩) hbuild hresult
  have hrun₀ :
      run ⟨M, w⟩ [.build] = .ok ([.done], ⟨out₀.matrix, out₀.world⟩) := by
    rw [run, hdone]
    rfl
  obtain ⟨-, haccepted, hlast⟩ :=
    equilibrations_reconstruct input hcheck M rfl w [.build] _ _ hrun₀
  obtain ⟨summary, d, e, s', hcall⟩ :=
    haccepted #[0, 0, 0] #[0, 0] _ hmem rfl rfl hs.pair
      (by rw [hoptions]; decide)
  obtain ⟨hunit, hrows⟩ := hlast _ _ summary d e s' hcall
  rw [hoptions] at hunit hrows
  obtain ⟨out, hout, hok, hs'⟩ := of_perform_equilibrate hcall
  have hnorm : 0 < summary.norm :=
    hs.norm_pos_of_equilibrate hout hok (by rw [hoptions])
      (i := 2) (j := 0) (v := 1) (List.mem_of_getElem? (i := 0) rfl) one_ne_zero
  have hiter : 0 < summary.balance.iterations :=
    hs.iterations_pos_of_equilibrate hout hok (by rw [hoptions]; decide)
  have hpair := (hs.entries_of_equilibrate hout hok).pair
  rw [← hs'] at hpair
  have hrun : run ⟨M, w⟩ [.build, .equilibrate #[0, 0, 0] #[0, 0]]
      = .ok ([.done, .equilibrated summary d e], s') := by
    rw [run, hdone, ok_bind]
    dsimp only
    rw [run, hcall]
    rfl
  obtain ⟨hentries, -⟩ :=
    equilibrations_reconstruct input hcheck M rfl w _ _ _ hrun
  obtain ⟨P₀, hP₀, -, hcol⟩ := hentries _ hpair
  obtain ⟨total, htotal⟩ := hrows hiter _ hpair
  refine ⟨hcheck, _, _, summary, d, e, s', hrun₀, hcall, hunit hnorm, _, P₀,
    hpair, hP₀, ?_, total, fun i => (htotal i).1⟩
  rw [hcol]
  apply List.map_congr_left
  rintro ⟨i, j, v⟩ -
  show (i, j, 1 * (d.getD i 0 * 1) * v * (1 * (e.getD j 0 * 1))) = _
  simp only [one_mul, mul_one]

end Session

end Equilibration
