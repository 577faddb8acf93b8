import Equilibration.Proofs.EntryRanges
import Equilibration.Proofs.Lifecycle

/-!
# UsableScalings — when the factors of an equilibration are of use

The entries of an equilibrated matrix can be taken back to those that were
put in if all factors are positive numbers and no entry was lost. In exact
arithmetic that is always so. With rounding it is so as long as the values,
the dimensions and the number of iterations are moderate
(`Session.scalings_usable`): squares, sums, quotients and norms then stay
between the ends of the format. What is moderate there is small, as no use is
made of how the factors converge.

In general it is not so: the square of a large number is infinite, and its
factor is then zero (`Session.scalings_unusable_large`).
-/

namespace Equilibration

open Checked FloatingPoint Rounding

variable {α : Type} [Scalar α] [FloatingPoint α]

namespace SlicedMatrix

/-- All entries of `A` are of use in `B`: they are numbers, in the same
places and with the same signs. -/
structure SurvivesIn (A B : SlicedMatrix α) : Prop where
  finite : ∀ v ∈ B.values, Scalar.isFinite v = true
  entries : List.Forall₂ (fun a b => b.1 = a.1 ∧ b.2.1 = a.2.1
      ∧ Survives a.2.2 b.2.2) A.triplets B.triplets

omit [FloatingPoint α] in
theorem survivesIn_mapEntries {A : SlicedMatrix α} (h : A.check = .ok (.ok ()))
    {f : Nat → Nat → α → α}
    (hf : ∀ i j v, (i, j, v) ∈ A.triplets → Survives v (f i j v)) :
    A.SurvivesIn (A.mapEntries f) where
  finite v hv := by
    obtain ⟨i, j, hmem⟩ := mem_triplets_of_mem_values (check_mapEntries h f) hv
    rw [triplets_mapEntries] at hmem
    obtain ⟨⟨i', j', u⟩, hu, heq⟩ := List.mem_map.mp hmem
    cases heq
    exact (hf _ _ u hu).finite
  entries := by
    rw [triplets_mapEntries, List.forall₂_map_right_iff, List.forall₂_same]
    rintro ⟨i, j, v⟩ hv
    exact ⟨rfl, rfl, hf i j v hv⟩

end SlicedMatrix

/-- One equilibration of a matrix with moderate entries. -/
theorem SolverMatrix.Holds.usable_of_equilibrate [Displayed α]
    {M : SolverMatrix α} {A : SlicedMatrix α} (hM : M.Holds A)
    (hcomm : ∀ a b : α, a * b = b * a) {h q : ℕ}
    (hA : A.Moderate h q) {d e : Array α} {w : World} {out : Equilibrated α}
    (hout : M.equilibrate d e w = .ok out) {summary : EquilibrationSummary α}
    (hok : out.result = .ok summary)
    (hrange : 4 * summary.balance.iterations * (2 * h + q)
      + (12 * q + 4 * h + (model α).mantissaBits + 32)
      ≤ (model α).exponentBias) :
    ((out.d.size = A.rows ∧ ∀ u ∈ out.d, Scalar.isFinite u = true ∧ 0 < u)
      ∧ out.e.size = A.cols ∧ ∀ u ∈ out.e, Scalar.isFinite u = true ∧ 0 < u)
    ∧ ∃ f : Nat → Nat → α → α, out.matrix.Holds (A.mapEntries f)
      ∧ ∀ i j v, (i, j, v) ∈ A.triplets → Survives v (f i j v) := by
  obtain ⟨t, run, watches, outlet, -, hrun, hrecord, hnorm, hmatrix, hd, he⟩ :=
    hM.of_equilibrate_ok hcomm hout hok
  have hspread := Balancing.two_mul_spread h q summary.balance.iterations
  have hX := Balancing.spread_nonneg (2 * h) q summary.balance.iterations
  have hF := hM.factored_of_run hA t hrun hrecord (by omega) (by omega)
  generalize Balancing.spread (2 * h) q summary.balance.iterations = X
    at hspread hX hF
  have hroom : 2 * X + (12 * q + 4 * h + (model α).mantissaBits + 32)
      ≤ (model α).exponentBias := by omega
  have hpositive := fun hpos => (hM.holding_balanced t (factorsFor t run.d)
    (factorsFor t run.e)).between_normEstimate
    (tame_balanced hM.check hA hF hroom) hnorm hpos
  refine ⟨hd ▸ he ▸ usable_normalizedBy hF hroom hpositive _ _,
    rescaledEntry t summary.norm (factorsFor t run.d) (factorsFor t run.e), ?_,
    fun i j v hv =>
      survives_rescaledEntry hM.check hA hF hroom hpositive hv⟩
  rw [hmatrix, matrix_normalizedBy]
  exact (hM.holding_mapEntries _).of_rest _ _ _

namespace Session

/-- **Scalings stay usable.** Build a matrix of any well-formed input,
equilibrate it with any options, and let the values be zero or from `2 ^ -h`
to `2 ^ h`, with at most `2 ^ q` rows, columns and entries. If these
exponents and the number of balancing iterations leave room in the format,
all factors are positive numbers, and in both forms every value is a number
and every entry that was not zero has kept its sign.

The room is enough, not necessary: it allows for factors that drift as far as
they can in every iteration. So it is narrow. In double precision it is
`2 * h + q ≤ 4` after 50 iterations, and in single precision one iteration
leaves room for at most `2 ^ 4` rows, columns and entries. -/
theorem scalings_usable [Displayed α]
    [hmul : Std.Commutative fun a b : α => a * b] (input : MatrixInput α)
    (hcheck : input.check = .ok (.ok ())) (M : SolverMatrix α)
    (hM : M.input? = some input) (w : World) (d e d' e' : Array α)
    (summary : EquilibrationSummary α) (s : Session α)
    (hrun : run ⟨M, w⟩ [.build, .equilibrate d e]
      = .ok ([.done, .equilibrated summary d' e'], s))
    (h q : ℕ) (hmoderate : input.matrix.Moderate h q)
    (hrange : 4 * summary.balance.iterations * (2 * h + q)
      + (12 * q + 4 * h + (model α).mantissaBits + 32)
      ≤ (model α).exponentBias) :
    (d'.size = input.rows ∧ ∀ u ∈ d', Scalar.isFinite u = true ∧ 0 < u)
    ∧ (e'.size = input.cols ∧ ∀ u ∈ e', Scalar.isFinite u = true ∧ 0 < u)
    ∧ ∃ P₀ P, PairedMatrix.ofInput input = .ok P₀ ∧ s.matrix.pair = .ok P
      ∧ P₀.row.SurvivesIn P.row ∧ P₀.col.SurvivesIn P.col := by
  have hmatrix := (MatrixInput.check_eq_ok_iff.mp hcheck).2
  obtain ⟨⟨a, s₁⟩, hbuild, hrun⟩ := bind_eq_ok_iff.mp hrun
  obtain ⟨⟨answers, s₂⟩, hrun, heq⟩ := bind_eq_ok_iff.mp hrun
  cases heq
  obtain ⟨⟨a, s₃⟩, hequilibrate, hrun⟩ := bind_eq_ok_iff.mp hrun
  cases hrun
  obtain ⟨built, hbuilt, heq⟩ := bind_eq_ok_iff.mp hbuild
  obtain ⟨-, rfl⟩ := Prod.mk.inj (Except.ok.inj heq)
  have hholds := SolverMatrix.holds_of_build hcheck hM hbuilt
  obtain ⟨out, hout, hok, hs, rfl, rfl⟩ := equilibrated_of_perform hequilibrate
  obtain ⟨⟨hd, he⟩, f, hf, hsurvives⟩ :=
    hholds.usable_of_equilibrate hmul.comm hmoderate hout hok hrange
  obtain ⟨hrow, hcol⟩ := PairedMatrix.check_forms hmatrix hholds.room
  obtain ⟨hrows, hcols⟩ := SlicedMatrix.triplets_ofForm_perm hmatrix
  have hpair := hf.pair
  rw [PairedMatrix.ofForm_mapEntries hmatrix] at hpair
  refine ⟨hd, he, _, _, (PairedMatrix.ofInput_eq_ok_iff hmatrix).mpr
    ⟨hholds.room, rfl⟩, hs ▸ hpair, ?_, ?_⟩
  · exact SlicedMatrix.survivesIn_mapEntries hrow fun i j v hv =>
      hsurvives i j v (hrows.mem_iff.mp hv)
  · exact SlicedMatrix.survivesIn_mapEntries hcol fun i j v hv =>
      hsurvives i j v (hcols.mem_iff.mp hv)

/-- Doubles in columns, with a repeated index, a zero and a negative number,
and the options of a caller who chooses nothing. -/
theorem scalings_usable_repeated :
    let input : MatrixInput Float :=
      ⟨.col, 2, 2, 4, #[0, 3, 4], #[1, 0, 1, 0], #[2, -1, 0, 1]⟩
    let M := SolverMatrix.ofInput input .standard
    let w : World := { readings := fun n => n }
    input.check = .ok (.ok ()) ∧ input.matrix.Moderate 1 2 ∧ ∃ summary d e s,
      run ⟨M, w⟩ [.build, .equilibrate #[0, 0] #[0, 0]]
        = .ok ([.done, .equilibrated summary d e], s)
      ∧ (∀ u ∈ d, Scalar.isFinite u = true ∧ 0 < u)
      ∧ ∀ u ∈ e, Scalar.isFinite u = true ∧ 0 < u := by
  intro input M w
  have hcheck : input.check = .ok (.ok ()) := by decide +kernel
  have hmoderate : input.matrix.Moderate 1 2 := by
    have hvalues : ∀ v ∈ input.values, v = Scalar.ofNat 2 ∨ v = -Scalar.ofNat 1
          ∨ v = 0 ∨ v = Scalar.ofNat 1 := by decide +kernel
    refine ⟨⟨by decide, by decide, by decide, by decide⟩, ?_⟩
    intro v hv
    have hone : Between .positive 0 0 (Scalar.ofNat 1 : Float) :=
      between_ofNat (q := 0) (by decide) (by decide) (by decide)
    rcases hvalues v hv with rfl | rfl | rfl | rfl
    · exact ((between_ofNat (q := 1) (by decide) (by decide) (by decide)).mono
        (by decide) (by decide)).moderate
    · exact ((hone.neg (by decide) (by decide)).mono (by decide)
          (by decide)).moderate
    · exact ⟨isFinite_zero.1, .inl isFinite_zero.2⟩
    · exact (hone.mono (by decide) (by decide)).moderate
  obtain ⟨summary, d, e, s, hrun, hbudget⟩ := run_build_equilibrate
    (inferInstance : Std.Commutative fun a b : Float => a * b).comm hcheck
    ⟨by decide, by decide, by decide⟩ (M := M) rfl nofun w (d := #[0, 0])
    (e := #[0, 0]) rfl rfl
  obtain ⟨⟨-, hd⟩, ⟨-, he⟩, -⟩ := scalings_usable input hcheck M rfl w #[0, 0]
    #[0, 0] d e summary s hrun 1 2 hmoderate (by
      have hle : summary.balance.iterations ≤ 50 := hbudget
      show 4 * summary.balance.iterations * 4 + 113 ≤ 1023
      omega)
  exact ⟨hcheck, hmoderate, summary, d, e, s, hrun, hd, he⟩

/-- Both calls went well, the factor of the only column is zero and the value
that is stored is not a number. -/
def lostEntry : Checked (List (Answer Float) × Session Float) → Bool
  | .ok ([.done, .equilibrated _ _ e], s) =>
    decide (e = #[0] ∧ s.matrix.pair.map (fun P =>
        P.row.values.map Scalar.isFinite) = .ok #[false])
  | _ => false

/-- A double whose square is infinite: the column sum is infinite, the factor
of the column is zero, and the value that is stored is not a number. -/
theorem scalings_unusable_large :
    let input : MatrixInput Float :=
      ⟨.row, 1, 1, 1, #[0, 1], #[0], #[Float.ofBits 0x6570000000000000]⟩
    let options : Options Float := .standard
    input.check = .ok (.ok ()) ∧ options.check = .ok ()
    ∧ (∀ v ∈ input.values, Scalar.isFinite v = true)
    ∧ ∃ summary d e s P,
      run ⟨.ofInput input options, { readings := fun n => n }⟩
          [.build, .equilibrate #[0] #[0]]
        = .ok ([.done, .equilibrated summary d e], s)
      ∧ e = #[0] ∧ s.matrix.pair = .ok P
      ∧ P.row.values.map Scalar.isFinite = #[false] := by
  intro input options
  refine ⟨by decide +kernel, by decide +kernel, by decide +kernel, ?_⟩
  have h : lostEntry (run ⟨.ofInput input options, { readings := fun n => n }⟩
      [.build, .equilibrate #[0] #[0]]) = true := by
    decide +kernel
  revert h
  generalize run (_ : Session Float) _ = r
  intro h
  unfold lostEntry at h
  split at h
  · next summary d e s =>
    obtain ⟨he, hvalues⟩ := of_decide_eq_true h
    cases hP : s.matrix.pair with
    | error v =>
      rw [hP] at hvalues
      cases hvalues
    | ok P =>
      rw [hP] at hvalues
      exact ⟨summary, d, e, s, P, rfl, he, hP, Except.ok.inj hvalues⟩
  · cases h

end Session

end Equilibration
