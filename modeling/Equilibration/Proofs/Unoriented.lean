import Equilibration.Proofs.Transcripts

/-!
# Unoriented — a matrix without the order of its input

A built matrix remembers the order of its input next to its two forms.
Products, balancing, estimates of the 2-norm and equilibrations by it never
look at that order: each gives on the matrix without it
(`SolverMatrix.unoriented`) what it gives on the matrix. The one exception
is the Frobenius norm, which adds up the values in the order of the input.
An equilibration is cut in two at the place where it would matter: the
matrix is balanced first (`SolverMatrix.rebalance`), and normalized then.
-/

namespace Equilibration

open Checked

variable {α : Type}

/-- The row form and the column form of a built matrix. -/
def SolverMatrix.forms (M : SolverMatrix α) :
    Except Refusal (SlicedMatrix α × SlicedMatrix α) :=
  M.pair.map fun P => (P.row, P.col)

/-- The two forms without the order of their input. -/
def PairedMatrix.unoriented (P : PairedMatrix α) : PairedMatrix α :=
  { P with order := .row }

def Storage.unoriented : Storage α → Storage α
  | .unbuilt starts indices values => .unbuilt starts indices values
  | .built P => .built P.unoriented

/-- The matrix without the order of its input. -/
def SolverMatrix.unoriented (M : SolverMatrix α) : SolverMatrix α :=
  { M with order := .row, storage := M.storage.unoriented }

def Rescaled.unoriented {β : Type} (r : Rescaled α β) : Rescaled α β :=
  { r with matrix := r.matrix.unoriented }

/-- What an equilibration leaves behind, apart from durations and from the
order of the input. -/
def Equilibrated.unoriented (out : Equilibrated α) :
    Except Refusal (EquilibrationSummary α)
      × SolverMatrix α × Array α × Array α :=
  { out with matrix := out.matrix.unoriented : Equilibrated α }.timeless

namespace PairedMatrix

variable [Scalar α] (P : PairedMatrix α)

omit [Scalar α] in
/-- Given in sorted slices, a matrix is stored alike in either order. -/
theorem unoriented_ofForm_flipped {A : SlicedMatrix α}
    (h : A.check = .ok (.ok ())) (hsorted : A.slices.Sorted) :
    (ofForm A.flipped).unoriented = (ofForm A).unoriented := by
  have hback : A.flipped.flipped = A := by
    rw [SlicedMatrix.flipped_flipped h,
      SlicedMatrix.stablySorted_of_sorted h hsorted]
  have horder : A.flipped.order = A.order.flip := rfl
  cases ho : A.order with
  | row =>
    rw [ho] at horder
    rw [ofForm_row ho, ofForm_col horder, hback]
    rfl
  | col =>
    rw [ho] at horder
    rw [ofForm_col ho, ofForm_row horder, hback]
    rfl

theorem splitSigns_unoriented (t : Magnitude) :
    P.unoriented.splitSigns t = (P.splitSigns t).map fun r =>
      (r.1, r.2.unoriented) := by
  unfold splitSigns
  show (PackedSigns.split t P.row.values >>= _) = _
  cases PackedSigns.split t P.row.values with
  | error v => rfl
  | ok row =>
    show (PackedSigns.split t P.col.values >>= _)
      = Except.map _ (PackedSigns.split t P.col.values >>= _)
    cases PackedSigns.split t P.col.values <;> rfl

theorem joinSigns_unoriented (signs : PackedSigns × PackedSigns)
    (t : Magnitude) :
    P.unoriented.joinSigns signs t = (P.joinSigns signs t).map unoriented := by
  unfold joinSigns
  show (signs.1.join t P.row.values >>= _) = _
  cases signs.1.join t P.row.values with
  | error v => rfl
  | ok row =>
    show (signs.2.join t P.col.values >>= _)
      = Except.map _ (signs.2.join t P.col.values >>= _)
    cases signs.2.join t P.col.values <;> rfl

theorem scaleBySides_unoriented (d e : Array α) :
    P.unoriented.scaleBySides d e = (P.scaleBySides d e).map unoriented := by
  unfold scaleBySides
  show (P.row.scaleBySides d e >>= _) = _
  cases P.row.scaleBySides d e with
  | error v => rfl
  | ok row =>
    show (P.col.scaleBySides d e >>= _)
      = Except.map _ (P.col.scaleBySides d e >>= _)
    cases P.col.scaleBySides d e <;> rfl

end PairedMatrix

namespace Timed

variable {β γ : Type} {g : γ × Stopwatches × World → γ × Stopwatches × World}
  {s : Stopwatches × World}

/-- After a step that gives the image of what another one gives, the rest
gives an image as soon as it does for every result. -/
theorem map_lift_bind {f : β → β} {k l : β → Timed γ} {c : Checked β}
    (hk : ∀ b, k (f b) s = (l b s).map g) :
    ((c.map f : Timed β) >>= k) s = (((c : Timed β) >>= l) s).map g := by
  cases c with
  | error v => rfl
  | ok b => exact hk b

theorem map_timed_bind {key : String} {k l : β → Timed γ} {c : Checked β}
    (hk : ∀ b, k b (lap key s) = (l b (lap key s)).map g) :
    (timed key (c : Timed β) >>= k) s
      = ((timed key (c : Timed β) >>= l) s).map g := by
  rw [timed_bind, timed_bind]
  cases c with
  | error v => rfl
  | ok b => exact hk b

end Timed

namespace SolverMatrix

variable (M : SolverMatrix α)

theorem pair_unoriented :
    M.unoriented.pair = M.pair.map PairedMatrix.unoriented := by
  obtain ⟨_, _, _, _, storage, _, _, _⟩ := M
  cases storage <;> rfl

theorem isBuilt_unoriented : M.unoriented.isBuilt = M.isBuilt := by
  obtain ⟨_, _, _, _, storage, _, _, _⟩ := M
  cases storage <;> rfl

@[simp] theorem unoriented_unoriented :
    M.unoriented.unoriented = M.unoriented := by
  obtain ⟨_, _, _, _, storage, _, _, _⟩ := M
  cases storage <;> rfl

theorem forms_unoriented : M.unoriented.forms = M.forms := by
  unfold forms
  rw [pair_unoriented]
  cases M.pair <;> rfl

variable [Scalar α]

theorem multiply_unoriented : M.unoriented.multiply = M.multiply := by
  funext shape a x b y
  unfold multiply
  rw [pair_unoriented]
  cases M.pair <;> rfl

theorem operator_unoriented : M.unoriented.operator = M.operator := by
  unfold operator
  rw [multiply_unoriented]
  rfl

/-- Only the Frobenius norm depends on the order of the values. -/
theorem normEstimate_unoriented {norm : NormPolicy} (h : norm ≠ .frobenius)
    (options : Options α) :
    M.unoriented.normEstimate norm options = M.normEstimate norm options := by
  cases norm with
  | one => rfl
  | two =>
    unfold normEstimate
    rw [operator_unoriented]
  | frobenius => exact absurd rfl h

theorem normalize_unoriented (h : M.options.normalizeNorm ≠ .frobenius)
    (d e : Array α) :
    M.unoriented.normalize d e = (M.normalize d e).map Rescaled.unoriented := by
  unfold normalize
  show (M.unoriented.normEstimate M.options.normalizeNorm M.options >>= _) = _
  rw [normEstimate_unoriented M h, pair_unoriented]
  cases M.normEstimate M.options.normalizeNorm M.options with
  | error v => rfl
  | ok r =>
    cases r with
    | error error => rfl
    | ok norm =>
      simp only [ok_bind]
      split
      · cases M.pair <;> rfl
      · rfl

/-- The first part of an equilibration: the matrix is balanced, and not yet
normalized. -/
def rebalance (M : SolverMatrix α) (t : Magnitude) (d e : Array α) :
    Timed (Rescaled α (BalanceRecord α)) := do
  match M.pair with
  | .error error => pure { result := .error error, matrix := M, d, e }
  | .ok pair =>
    let (signs, magnitudes) ← pair.splitSigns t
    let M := { M with storage := .built magnitudes }
    let (run, _) ← Timed.timed "balance"
      ((Balancing.run M.operator d e M.options.balanceBudget.toNat
        M.options.balanceTolerance).run () : Checked _)
    match run.outcome with
    | .error error =>
      pure { result := .error error, matrix := M, d := run.d, e := run.e }
    | .ok record =>
      let signed ← magnitudes.joinSigns signs t
      let d := factorsFor t run.d
      let e := factorsFor t run.e
      let balanced ← signed.scaleBySides d e
      pure { result := .ok record,
             matrix := { M with storage := .built balanced }, d, e }

/-- The second part of an equilibration, after `rebalance`. -/
def thenNormalize (B : Rescaled α (BalanceRecord α)) :
    Timed (Rescaled α (BalanceRecord α × α)) := do
  match B.result with
  | .error error => pure { B with result := .error error }
  | .ok record =>
    let normalized ← Timed.timed "normalize" (B.matrix.normalize B.d B.e)
    pure { normalized with
        result := normalized.result.map fun norm => (record, norm) }

theorem rescale_eq_bind (t : Magnitude) (d e : Array α) :
    M.rescale t d e = M.rebalance t d e >>= thenNormalize := by
  unfold rescale rebalance
  cases M.pair with
  | error error => rfl
  | ok pair =>
    simp only [bind_assoc]
    refine bind_congr fun split => bind_congr fun run => ?_
    cases run.1.outcome with
    | error error => rfl
    | ok record =>
      simp only [bind_assoc]
      rfl

/-- Balancing never looks at the order of the input. -/
theorem rebalance_unoriented (t : Magnitude) (d e : Array α)
    (s : Stopwatches × World) :
    M.unoriented.rebalance t d e s = (M.rebalance t d e s).map fun r =>
      (r.1.unoriented, r.2) := by
  unfold rebalance
  rw [pair_unoriented]
  cases M.pair with
  | error error => rfl
  | ok pair =>
    dsimp only [Except.map]
    rw [PairedMatrix.splitSigns_unoriented]
    refine Timed.map_lift_bind ?_
    rintro ⟨signs, magnitudes⟩
    have hoperator :
        { M.unoriented with storage := .built magnitudes.unoriented }.operator
          = { M with storage := .built magnitudes }.operator :=
      operator_unoriented { M with storage := .built magnitudes }
    dsimp only
    rw [hoperator]
    refine Timed.map_timed_bind ?_
    rintro ⟨run, _⟩
    dsimp only
    cases run.outcome with
    | error error => rfl
    | ok record =>
      dsimp only
      rw [PairedMatrix.joinSigns_unoriented]
      refine Timed.map_lift_bind fun signed => ?_
      rw [PairedMatrix.scaleBySides_unoriented]
      exact Timed.map_lift_bind fun balanced => rfl

/-- Balancing changes nothing but the storage, and comes to a record only of a
built matrix. -/
theorem of_rebalance {t : Magnitude} {d e : Array α}
    {s s' : Stopwatches × World} {B : Rescaled α (BalanceRecord α)}
    (h : M.rebalance t d e s = .ok (B, s')) :
    (∃ storage, B.matrix = { M with storage })
      ∧ ∀ record, B.result = .ok record → ∃ P, B.matrix.pair = .ok P := by
  unfold rebalance at h
  cases hpair : M.pair with
  | error error =>
    rw [hpair] at h
    cases h
    exact ⟨⟨_, rfl⟩, nofun⟩
  | ok pair =>
    rw [hpair] at h
    obtain ⟨⟨⟨signs, magnitudes⟩, _⟩, -, h⟩ := bind_eq_ok_iff.mp h
    obtain ⟨⟨⟨run, _⟩, _⟩, -, h⟩ := bind_eq_ok_iff.mp h
    dsimp only at h
    cases hrun : run.outcome with
    | error error =>
      rw [hrun] at h
      cases h
      exact ⟨⟨_, rfl⟩, nofun⟩
    | ok record =>
      rw [hrun] at h
      obtain ⟨⟨signed, _⟩, -, h⟩ := bind_eq_ok_iff.mp h
      obtain ⟨⟨balanced, _⟩, -, h⟩ := bind_eq_ok_iff.mp h
      cases h
      exact ⟨⟨_, rfl⟩, fun _ _ => ⟨balanced, rfl⟩⟩

/-- A map of the matrix that balancing commutes with, and normalization of what
balancing leaves, commutes with an equilibration. -/
theorem rescale_map (f : SolverMatrix α → SolverMatrix α) (t : Magnitude)
    (d e : Array α) (s : Stopwatches × World)
    (hbalance : (f M).rebalance t d e s
      = (M.rebalance t d e s).map
          fun r => ({ r.1 with matrix := f r.1.matrix }, r.2))
    (hnormalize : ∀ B s', M.rebalance t d e s = .ok (B, s') →
      (f B.matrix).normalize B.d B.e
        = (B.matrix.normalize B.d B.e).map
            fun N => { N with matrix := f N.matrix }) :
    (f M).rescale t d e s
      = (M.rescale t d e s).map
          fun r => ({ r.1 with matrix := f r.1.matrix }, r.2) := by
  rw [rescale_eq_bind, rescale_eq_bind]
  show ((f M).rebalance t d e s >>= fun r => thenNormalize r.1 r.2)
    = Except.map _ (M.rebalance t d e s >>= fun r => thenNormalize r.1 r.2)
  rw [hbalance]
  cases hB : M.rebalance t d e s with
  | error v => rfl
  | ok r =>
    obtain ⟨B, s'⟩ := r
    show thenNormalize { B with matrix := f B.matrix } s'
      = (thenNormalize B s').map _
    unfold thenNormalize
    dsimp only
    cases B.result with
    | error error => rfl
    | ok record =>
      dsimp only
      rw [hnormalize B s' hB, Timed.timed_bind, Timed.timed_bind]
      cases B.matrix.normalize B.d B.e <;> rfl

/-- An equilibration that does not normalize by the Frobenius norm never
looks at the order of the input. -/
theorem rescale_unoriented (h : M.options.normalizeNorm ≠ .frobenius)
    (t : Magnitude) (d e : Array α) (s : Stopwatches × World) :
    M.unoriented.rescale t d e s
      = (M.rescale t d e s).map fun r => (r.1.unoriented, r.2) := by
  refine M.rescale_map unoriented t d e s (M.rebalance_unoriented t d e s) ?_
  intro B s' hB
  -- balancing leaves the options, so the norm is still not the Frobenius norm
  obtain ⟨⟨storage, hmatrix⟩, -⟩ := M.of_rebalance hB
  have hoptions : B.matrix.options = M.options := by rw [hmatrix]
  exact B.matrix.normalize_unoriented (hoptions ▸ h) B.d B.e

/-- Normalization by the Frobenius norm always comes to a norm. -/
theorem normalize_frobenius {P : PairedMatrix α} (hP : M.pair = .ok P)
    (h : M.options.normalizeNorm = .frobenius) (d e : Array α) :
    ∃ (N : Rescaled α α) (norm : α), M.normalize d e = .ok N
      ∧ N.result = .ok norm := by
  unfold normalize normEstimate frobeniusNorm values
  rw [h, hP]
  simp only [Except.map, pure_eq_ok, ok_bind]
  split <;> exact ⟨_, _, rfl, rfl⟩

/-- Whatever the norm, the balancing that is reported is that of the
unoriented matrix. -/
theorem balance_unoriented (t : Magnitude) (d e : Array α)
    (s : Stopwatches × World) :
    (M.unoriented.rescale t d e s).map (fun r => r.1.result.map Prod.fst)
      = (M.rescale t d e s).map fun r => r.1.result.map Prod.fst := by
  by_cases hnorm : M.options.normalizeNorm = .frobenius
  · rw [rescale_eq_bind, rescale_eq_bind]
    show Except.map _ (M.unoriented.rebalance t d e s >>= fun r =>
        thenNormalize r.1 r.2)
      = Except.map _ (M.rebalance t d e s >>= fun r => thenNormalize r.1 r.2)
    rw [rebalance_unoriented]
    cases hB : M.rebalance t d e s with
    | error v => rfl
    | ok r =>
      obtain ⟨B, s'⟩ := r
      obtain ⟨⟨storage, hmatrix⟩, hpair⟩ := M.of_rebalance hB
      have hoptions : B.matrix.options = M.options := by rw [hmatrix]
      have htold : ∀ B' : Rescaled α (BalanceRecord α), B'.result = B.result →
          B'.matrix.options.normalizeNorm = .frobenius →
          (∀ record, B.result = .ok record → ∃ P, B'.matrix.pair = .ok P) →
          (thenNormalize B' s').map (fun r => r.1.result.map Prod.fst)
            = .ok B.result := by
        intro B' hresult hnorm hpair
        unfold thenNormalize
        rw [hresult]
        cases hrecord : B.result with
        | error error => rfl
        | ok record =>
          obtain ⟨P, hP⟩ := hpair record hrecord
          obtain ⟨N, norm, hN, hnorm⟩ :=
            normalize_frobenius B'.matrix hP hnorm B'.d B'.e
          dsimp only
          rw [Timed.timed_bind, hN]
          show Except.ok ((N.result.map _).map Prod.fst) = _
          rw [hnorm]
          rfl
      refine (htold B.unoriented rfl (hoptions ▸ hnorm) ?_).trans
        (htold B rfl (hoptions ▸ hnorm) hpair).symm
      intro record hrecord
      obtain ⟨P, hP⟩ := hpair record hrecord
      refine ⟨P.unoriented, ?_⟩
      show B.matrix.unoriented.pair = _
      rw [pair_unoriented, hP]
      rfl
  · rw [rescale_unoriented M hnorm]
    cases M.rescale t d e s <;> rfl

section Equilibrate

variable [Displayed α]

theorem equilibrate_unoriented (h : M.options.normalizeNorm ≠ .frobenius)
    (d e : Array α) (w : World) :
    (M.unoriented.equilibrate d e w).map Equilibrated.unoriented
      = (M.equilibrate d e w).map Equilibrated.unoriented := by
  refine equilibrate_congr M M.unoriented (fun N => N.unoriented.muted)
    (fun N N' hN => congrArg unoriented hN) M.isBuilt_unoriented rfl rfl rfl rfl
    (congrArg muted M.unoriented_unoriented) d e w w fun s s' => ?_
  have hsame : ∀ r : Rescaled α (BalanceRecord α × α),
      r.unoriented.unoriented.muted = r.unoriented.muted := fun r =>
    congrArg (fun N => { r with matrix := N }.muted)
      r.matrix.unoriented_unoriented
  refine Eq.trans ?_
    (map_comp_congr Rescaled.unoriented (M.rescale_timeless _ d e s s'))
  rw [M.rescale_unoriented h]
  cases M.rescale (magnitudeFor M.options.balanceNorm) d e s' with
  | error v => rfl
  | ok r => exact congrArg Except.ok (hsame r.1)

/-- The balancing that an equilibration reports. -/
def reported (out : Equilibrated α) : Except Refusal (BalanceRecord α) :=
  out.result.map EquilibrationSummary.balance

theorem reported_unoriented (d e : Array α) (w : World) :
    (M.unoriented.equilibrate d e w).map reported
      = (M.equilibrate d e w).map reported := by
  have hbuilt := M.isBuilt_unoriented
  have hoptions : M.unoriented.options = M.options := rfl
  have hrows : M.unoriented.rows = M.rows := rfl
  have hcols : M.unoriented.cols = M.cols := rfl
  have hwatches : M.unoriented.watches = M.watches := rfl
  unfold equilibrate StateT.run
  rw [hbuilt, hoptions, hrows, hcols, hwatches]
  split
  · rfl
  · split
    · rfl
    · refine map_bind_same fun _ => map_bind_same fun _ => ?_
      rw [Timed.timed_eq, Timed.timed_eq]
      refine map_bind_congr (f := fun s => s.1.result.map Prod.fst)
        (map_bind_congr (M.balance_unoriented _ d e _) fun _ _ h =>
          congrArg Except.ok h) ?_
      rintro ⟨⟨result, matrix, d, e⟩, watches, w⟩
        ⟨⟨result', matrix', d', e'⟩, watches', w'⟩ h
      cases result with
      | error error =>
        cases result' with
        | error error' =>
          cases h
          rfl
        | ok p' => cases h
      | ok p =>
        cases result' with
        | error error' => cases h
        | ok p' => exact congrArg Except.ok h

theorem reported_muted (d e : Array α) (w w' : World) :
    (M.muted.equilibrate d e w').map reported
      = (M.equilibrate d e w).map reported := by
  -- the balancing is part of what is left without durations
  have htold : ∀ out : Equilibrated α,
      reported out = out.timeless.1.map EquilibrationSummary.balance := by
    rintro ⟨⟨result, _, _, _⟩, _⟩
    cases result <;> rfl
  rw [funext htold]
  exact map_comp_congr (fun p => p.1.map EquilibrationSummary.balance)
    (M.equilibrate_muted d e w w')

end Equilibrate

end SolverMatrix

end Equilibration
