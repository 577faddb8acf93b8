import Equilibration.Proofs.Negation
import Equilibration.Proofs.Overwriting
import Equilibration.Proofs.SoundOptions

/-!
# SignFlips — equilibration does not see signs

Two inputs that differ in the signs of some values are equilibrated in
parallel. Balancing sees magnitudes only, so both runs are one run; every
product that comes after it turns its sign with its factor, rounding
included; and the Frobenius norm is made of squares again.

To follow a value through two storage orders, it carries its mark with it: a
matrix of marked values (`MatrixInput.marked`) maps to either matrix, and new
values commute with conversion.

Main result: the records agree, and after normalization in the Frobenius norm
all results agree up to the signs (`Session.signs_unobservable`). A zero takes
no part in it, since it loses its sign whether or not it was turned.
-/

namespace Equilibration

open Checked FloatingPoint

section Values

variable {α : Type} [Scalar α]

/-- The number, or its opposite. -/
def turned (b : Bool) (v : α) : α := if b then -v else v

/-- The input with the values at the marks negated. -/
def MatrixInput.flipSigns (input : MatrixInput α) (marks : Array Bool) :
    MatrixInput α :=
  { input with
      values := Array.zipWith (fun v b => turned b v) input.values marks }

/-- Every value of `after'` is the one of `after`, or its opposite where it is
marked and the value of `before` was not zero; `before'` differs from `before`
by the marks. -/
structure SignsFollow (marks : SlicedMatrix Bool)
    (before before' after after' : SlicedMatrix α) : Prop where
  starts_eq : after'.starts = after.starts
  indices_eq : after'.indices = after.indices
  sizes_eq : before.values.size = marks.values.size
    ∧ before'.values.size = marks.values.size
    ∧ after.values.size = marks.values.size
    ∧ after'.values.size = marks.values.size
  turned_at : ∀ p < marks.values.size, ∃ b v u, marks.values[p]? = some b
    ∧ before.values[p]? = some v ∧ before'.values[p]? = some (turned b v)
    ∧ after.values[p]? = some u
    ∧ after'.values[p]? = some (turned (b && !(v == 0)) u)

variable [FloatingPoint α]

theorem Magnitude.isNaN_undo_of [StandardFloat α] (t : Magnitude) {v : α}
    (h : Scalar.isNaN v = true) :
    Scalar.isNaN (t.undo (t.of v)) = true := by
  cases t with
  | absolute => exact (FloatingPoint.isNaN_abs v).trans h
  | square => exact isNaN_sqrt (isNaN_mul_right v h)

variable [UniquelyPacked α]

theorem turned_mul (b : Bool) (v w : α) :
    turned b v * w = turned b (v * w) := by
  cases b
  · rfl
  · exact FloatingPoint.neg_mul v w

theorem turned_mul_turned (b : Bool) (v : α) :
    turned b v * turned b v = v * v := by
  cases b
  · rfl
  · exact FloatingPoint.neg_mul_neg v v

theorem Magnitude.of_turned (t : Magnitude) (b : Bool) (v : α) :
    t.of (turned b v) = t.of v := by
  cases b
  · rfl
  · cases t with
    | absolute => exact FloatingPoint.abs_neg v
    | square => exact FloatingPoint.neg_mul_neg v v

/-- Of a magnitude and a sign, the sign is turned, unless the value is zero. -/
theorem joinValue_turned [StandardFloat α] (t : Magnitude) (b : Bool) (v : α) :
    PackedSigns.joinValue t (t.of (turned b v)) (decide (turned b v < 0))
      = turned (b && !(v == 0))
        (PackedSigns.joinValue t (t.of v) (decide (v < 0))) := by
  rw [Magnitude.of_turned]
  cases b with
  | false => rfl
  | true =>
    cases hzero : v == 0 with
    | true =>
      have hneg : ¬ turned true v < 0 :=
        not_neg_of_zero ((neg_beq_zero v).trans hzero)
      rw [decide_eq_false hneg, decide_eq_false (not_neg_of_zero hzero)]
      rfl
    | false =>
      show PackedSigns.joinValue t (t.of v) (decide (-v < 0))
        = -PackedSigns.joinValue t (t.of v) (decide (v < 0))
      cases hnan : Scalar.isNaN v with
      | true =>
        rw [neg_eq_of_isNaN hnan, decide_eq_false (not_lt_of_isNaN hnan)]
        exact (neg_eq_of_isNaN (t.isNaN_undo_of hnan)).symm
      | false =>
        have hiff := neg_lt_zero_iff hnan hzero
        by_cases hneg : v < 0
        · rw [decide_eq_true hneg, decide_eq_false fun h => hiff.mp h hneg]
          exact (FloatingPoint.neg_neg _).symm
        · rw [decide_eq_false hneg, decide_eq_true (hiff.mpr hneg)]
          rfl

namespace SolverMatrix

theorem rescaledEntry_turned [StandardFloat α] (t : Magnitude) (norm : α)
    (d e : Array α) (i j : Nat) (b : Bool) (v : α) :
    rescaledEntry t norm d e i j (turned b v)
      = turned (b && !(v == 0)) (rescaledEntry t norm d e i j v) := by
  unfold rescaledEntry
  simp only [joinValue_turned, turned_mul]
  split <;> rfl

end SolverMatrix

end Values

/-! ## Marked entries -/

namespace SlicedMatrix

variable {α β : Type}

/-- A change that does not look at positions, array by array. -/
theorem mapEntries_eq {A : SlicedMatrix α} (h : A.check = .ok (.ok ()))
    (g : α → β) :
    (A.mapEntries fun _ _ v => g v)
      = { order := A.order, rows := A.rows, cols := A.cols, starts := A.starts,
          indices := A.indices, values := A.values.map g } := by
  rw [← starts_mapEntries h fun _ _ v => g v,
    ← indices_mapEntries h fun _ _ v => g v, ← values_mapEntries h]
  rfl

/-- The marks without the values. -/
def marks (A : SlicedMatrix (α × Bool)) : SlicedMatrix Bool :=
  A.mapEntries fun _ _ p => p.2

/-- The values without the marks. -/
def unmarked (A : SlicedMatrix (α × Bool)) : SlicedMatrix α :=
  A.mapEntries fun _ _ p => p.1

/-- The values, negated at the marks. -/
def turnedAtMarks [Scalar α] (A : SlicedMatrix (α × Bool)) : SlicedMatrix α :=
  A.mapEntries fun _ _ p => turned p.2 p.1

/-- New values that turn with the old ones. -/
theorem signsFollow_mapEntries [Scalar α] {A : SlicedMatrix (α × Bool)}
    (h : A.check = .ok (.ok ())) {r : Nat → Nat → α → α}
    (hr : ∀ i j b v, r i j (turned b v) = turned (b && !(v == 0)) (r i j v)) :
    SignsFollow A.marks A.unmarked A.turnedAtMarks (A.unmarked.mapEntries r)
      (A.turnedAtMarks.mapEntries r) := by
  -- all five are made of the values with their marks and their new values
  have hresults := check_mapEntries h fun i j p => (p, r i j p.1)
  have hmarks : A.marks.values
      = (A.mapEntries fun i j p => (p, r i j p.1)).values.map (·.1.2) := by
    rw [← values_mapEntries hresults, mapEntries_mapEntries, marks]
  have hbefore : A.unmarked.values
      = (A.mapEntries fun i j p => (p, r i j p.1)).values.map (·.1.1) := by
    rw [← values_mapEntries hresults, mapEntries_mapEntries, unmarked]
  have hbefore' : A.turnedAtMarks.values
      = (A.mapEntries fun i j p => (p, r i j p.1)).values.map fun q =>
        turned q.1.2 q.1.1 := by
    rw [← values_mapEntries hresults, mapEntries_mapEntries, turnedAtMarks]
  have hafter : (A.unmarked.mapEntries r).values
      = (A.mapEntries fun i j p => (p, r i j p.1)).values.map (·.2) := by
    rw [← values_mapEntries hresults, mapEntries_mapEntries, unmarked,
      mapEntries_mapEntries]
  have hafter' : (A.turnedAtMarks.mapEntries r).values
      = (A.mapEntries fun i j p => (p, r i j p.1)).values.map
        fun q => turned (q.1.2 && !(q.1.1 == 0)) q.2 := by
    rw [← values_mapEntries hresults, mapEntries_mapEntries, turnedAtMarks,
      mapEntries_mapEntries]
    simp only [hr]
  have hstarts : ∀ f : Nat → Nat → α × Bool → α,
      ((A.mapEntries f).mapEntries r).starts = A.starts :=
    fun f => by
      rw [starts_mapEntries (check_mapEntries h f), starts_mapEntries h]
  have hindices : ∀ f : Nat → Nat → α × Bool → α,
      ((A.mapEntries f).mapEntries r).indices = A.indices :=
    fun f => by
      rw [indices_mapEntries (check_mapEntries h f), indices_mapEntries h]
  refine ⟨(hstarts _).trans (hstarts _).symm,
    (hindices _).trans (hindices _).symm, ?_, ?_⟩
  · rw [hmarks, hbefore, hbefore', hafter, hafter']
    simp only [Array.size_map, and_self]
  · intro p hp
    rw [hmarks, Array.size_map] at hp
    generalize (A.mapEntries fun i j p => (p, r i j p.1)).values = results at *
    refine ⟨results[p].1.2, results[p].1.1, results[p].2, ?_⟩
    rw [hmarks, hbefore, hbefore', hafter, hafter']
    simp only [Array.getElem?_map, Array.getElem?_eq_getElem hp,
      Option.map_some, and_self]

/-- The norm is made of the squares of the values. -/
theorem norm_values_congr [Scalar α] {A : SlicedMatrix β}
    (h : A.check = .ok (.ok ())) {f g : Nat → Nat → β → α}
    (hfg : ∀ i j v, f i j v * f i j v = g i j v * g i j v) :
    Vec.norm (A.mapEntries f).values = Vec.norm (A.mapEntries g).values := by
  have hsquares : ∀ f : Nat → Nat → β → α,
      (A.mapEntries f).values.map (fun v => v * v)
        = (A.mapEntries fun i j v => f i j v * f i j v).values := fun f => by
    rw [← values_mapEntries (check_mapEntries h f), mapEntries_mapEntries]
  have hproducts : ∀ x : Array α, Vec.products x x
      = (x.map fun v => v * v).toList := fun x => by
    rw [Vec.products, List.zipWith_self, Array.toList_map]
  rw [Vec.norm, Vec.norm, Vec.sumSquares, Vec.sumSquares, hproducts, hproducts,
    hsquares, hsquares]
  simp only [hfg]

end SlicedMatrix

namespace MatrixInput

variable {α : Type}

/-- The matrix of an input, with marks instead of the values. -/
def withMarks (input : MatrixInput α) (marks : Array Bool) :
    SlicedMatrix Bool :=
  { order := input.order, rows := input.rows, cols := input.cols,
    starts := input.starts, indices := input.indices, values := marks }

/-- The matrix of an input, with a mark beside every value. -/
def marked (input : MatrixInput α) (marks : Array Bool) :
    SlicedMatrix (α × Bool) :=
  { order := input.order, rows := input.rows, cols := input.cols,
    starts := input.starts,
    indices := input.indices, values := input.values.zip marks }

variable {input : MatrixInput α} {marks : Array Bool}
  (hmarks : marks.size = input.values.size)
  (hcheck : input.matrix.check = .ok (.ok ()))

include hmarks hcheck

theorem check_marked : (input.marked marks).check = .ok (.ok ()) := by
  have hsize : (input.marked marks).values.size = input.values.size := by
    show (input.values.zip marks).size = _
    rw [Array.size_zip, hmarks, Nat.min_self]
  rw [← hcheck]
  show checkArrays _ _ _ _ (input.marked marks).values.size = _
  rw [hsize]
  rfl

theorem unmarked_marked : (input.marked marks).unmarked = input.matrix := by
  rw [SlicedMatrix.unmarked,
    SlicedMatrix.mapEntries_eq (check_marked hmarks hcheck)]
  show SlicedMatrix.mk _ _ _ _ _ ((input.values.zip marks).map Prod.fst) = _
  rw [Array.map_fst_zip hmarks.ge]
  rfl

theorem marks_marked : (input.marked marks).marks = input.withMarks marks := by
  rw [SlicedMatrix.marks,
    SlicedMatrix.mapEntries_eq (check_marked hmarks hcheck)]
  show SlicedMatrix.mk _ _ _ _ _ ((input.values.zip marks).map Prod.snd) = _
  rw [Array.map_snd_zip hmarks.le]
  rfl

theorem turned_marked [Scalar α] :
    (input.marked marks).turnedAtMarks = (input.flipSigns marks).matrix := by
  rw [SlicedMatrix.turnedAtMarks,
    SlicedMatrix.mapEntries_eq (check_marked hmarks hcheck)]
  show SlicedMatrix.mk _ _ _ _ _ ((input.values.zip marks).map fun p =>
      turned p.2 p.1) = _
  rw [Array.map_zip_eq_zipWith]
  rfl

end MatrixInput

theorem PairedMatrix.signsFollow_forms {α : Type} [Scalar α]
    {A : SlicedMatrix (α × Bool)} (hA : A.check = .ok (.ok ()))
    (hroom : A.unmarked.HasRoom) {r : Nat → Nat → α → α}
    (hr : ∀ i j b v, r i j (turned b v) = turned (b && !(v == 0)) (r i j v)) :
    SignsFollow (ofForm A.marks).row (ofForm A.unmarked).row
      (ofForm A.turnedAtMarks).row
        (ofForm (A.unmarked.mapEntries r)).row
        (ofForm (A.turnedAtMarks.mapEntries r)).row
      ∧ SignsFollow (ofForm A.marks).col (ofForm A.unmarked).col
        (ofForm A.turnedAtMarks).col
        (ofForm (A.unmarked.mapEntries r)).col
        (ofForm (A.turnedAtMarks.mapEntries r)).col := by
  obtain ⟨hrow, hcol⟩ :=
    check_forms hA ((SlicedMatrix.hasRoom_mapEntries hA _).mp hroom)
  have hunmarked : A.unmarked.check = .ok (.ok ()) :=
    SlicedMatrix.check_mapEntries hA _
  have hturned : A.turnedAtMarks.check = .ok (.ok ()) :=
    SlicedMatrix.check_mapEntries hA _
  rw [ofForm_mapEntries hunmarked, ofForm_mapEntries hturned,
    SlicedMatrix.marks, SlicedMatrix.unmarked, SlicedMatrix.turnedAtMarks,
    ofForm_mapEntries hA, ofForm_mapEntries hA, ofForm_mapEntries hA]
  exact ⟨SlicedMatrix.signsFollow_mapEntries hrow hr,
    SlicedMatrix.signsFollow_mapEntries hcol hr⟩

/-! ## Two equilibrations -/

protected theorem FloatingPoint.mul_comm {α : Type} [Scalar α] [FloatingPoint α]
    [UniquelyPacked α] (a b : α) : a * b = b * a :=
  eq_of_unpacked (by rw [unpacked_mul, Session.unpackedMul_comm, unpacked_mul])

namespace SolverMatrix

variable {α : Type} [Scalar α]

theorem operator_holding {M M' : SolverMatrix α} (hrows : M'.rows = M.rows)
    (hcols : M'.cols = M.cols) (B : SlicedMatrix α) :
    (M'.holding B).operator = (M.holding B).operator := by
  unfold operator multiply pair holding
  simp only [hrows, hcols]

variable [FloatingPoint α] [StandardFloat α] [UniquelyPacked α]
  {A : SlicedMatrix (α × Bool)}

omit [StandardFloat α] in
theorem magnitudes_turned (A : SlicedMatrix (α × Bool)) (t : Magnitude) :
    magnitudes A.turnedAtMarks t = magnitudes A.unmarked t := by
  simp only [magnitudes, SlicedMatrix.turnedAtMarks, SlicedMatrix.unmarked,
    SlicedMatrix.mapEntries_mapEntries, Magnitude.of_turned]

theorem norm_balanced_turned (hA : A.check = .ok (.ok ())) (t : Magnitude)
    (d e : Array α) :
    Vec.norm (balanced A.turnedAtMarks t d e).values
      = Vec.norm (balanced A.unmarked t d e).values := by
  simp only [balanced, SlicedMatrix.turnedAtMarks, SlicedMatrix.unmarked,
    SlicedMatrix.mapEntries_mapEntries]
  refine SlicedMatrix.norm_values_congr hA fun i j p => ?_
  rw [joinValue_turned, turned_mul, turned_mul_turned]

/-- **Two runs that differ in signs.** -/
theorem Holds.equilibrate_turned [Displayed α]
    (hcomm : ∀ a b : α, a * b = b * a) (hA : A.check = .ok (.ok ()))
    {M M' : SolverMatrix α} (hM : M.Holds A.unmarked)
    (hM' : M'.Holds A.turnedAtMarks) (hoptions : M'.options = M.options)
    (hnorm : M.options.normalizeNorm ≠ .one) {d e d₁ e₁ : Array α}
    {w w' : World}
    {out out' : Equilibrated α} (hout : M.equilibrate d e w = .ok out)
    (hout' : M'.equilibrate d₁ e₁ w' = .ok out')
    {summary summary' : EquilibrationSummary α} (hok : out.result = .ok summary)
    (hok' : out'.result = .ok summary') :
    summary'.balance = summary.balance
    ∧ (M.options.normalizeNorm = .frobenius →
      summary'.norm = summary.norm ∧ out'.d = out.d ∧ out'.e = out.e
      ∧ ∃ r : Nat → Nat → α → α,
        (∀ i j b v, r i j (turned b v) = turned (b && !(v == 0)) (r i j v))
        ∧ out.matrix.pair = .ok (.ofForm (A.unmarked.mapEntries r))
        ∧ out'.matrix.pair = .ok (.ofForm (A.turnedAtMarks.mapEntries r))) := by
  have hrows : M'.rows = M.rows := hM'.rows_eq.trans hM.rows_eq.symm
  have hcols : M'.cols = M.cols := hM'.cols_eq.trans hM.cols_eq.symm
  obtain ⟨hd, he, -⟩ := hM.sizes_of_equilibrate hnorm hout
  obtain ⟨hd', he', -⟩ := hM'.sizes_of_equilibrate (hoptions ▸ hnorm) hout'
  obtain ⟨t, run, watches, outlet, ht, hrun, hrecord, hestimate, hmatrix, hdout,
    heout⟩ :=
    hM.of_equilibrate_ok hcomm hout hok
  obtain ⟨t', run', watches', outlet', ht', hrun', hrecord', hestimate',
    hmatrix', hdout', heout'⟩ := hM'.of_equilibrate_ok hcomm hout' hok'
  rw [hoptions] at ht' hrun' hestimate'
  obtain rfl : t' = t := ht'.trans ht.symm
  -- balancing sees the magnitudes, and they are the same
  rw [magnitudes_turned, operator_holding hrows hcols, Balancing.run_overwrites
    _ (hd'.trans (hrows.trans hd.symm)) (he'.trans (hcols.trans he.symm)), hrun]
    at hrun'
  obtain rfl : run = run' := congrArg Prod.fst (Except.ok.inj hrun')
  refine ⟨Except.ok.inj (hrecord'.symm.trans hrecord), fun hfrobenius => ?_⟩
  have hvalue : summary'.norm = summary.norm := by
    have hB :=
      hM.holding_balanced t' (factorsFor t' run.d) (factorsFor t' run.e)
    have hB' :=
      hM'.holding_balanced t' (factorsFor t' run.d) (factorsFor t' run.e)
    rw [hfrobenius] at hestimate hestimate'
    have hestimate : frobeniusNorm _ = .ok summary.norm :=
      Except.ok.inj hestimate
    have hestimate' : frobeniusNorm _ = .ok summary'.norm :=
      Except.ok.inj hestimate'
    rw [hB.frobeniusNorm_eq] at hestimate
    rw [hB'.frobeniusNorm_eq, norm_balanced_turned hA] at hestimate'
    refine Except.ok.inj (hestimate'.symm.trans (Eq.trans ?_ hestimate))
    show Except.ok (_ / Scalar.sqrt (Scalar.ofNat (min M'.rows M'.cols))) = _
    rw [hrows, hcols]
    rfl
  refine ⟨hvalue, ?_, ?_, rescaledEntry t' summary.norm (factorsFor t' run.d)
    (factorsFor t' run.e), rescaledEntry_turned _ _ _ _, ?_, ?_⟩
  · rw [hdout, hdout', hvalue]
    unfold normalizedBy
    split <;> rfl
  · rw [heout, heout', hvalue]
    unfold normalizedBy
    split <;> rfl
  · rw [hmatrix, matrix_normalizedBy]
    rfl
  · rw [hmatrix', matrix_normalizedBy, hvalue]
    rfl

end SolverMatrix

namespace Session

variable {α : Type} [Scalar α] [FloatingPoint α] [StandardFloat α]
  [UniquelyPacked α]

/-- **Signs are not observed.** Let two well-formed inputs differ in the signs
of the values at some marks, build and equilibrate both with the same options,
in any two worlds and with any two pairs of vectors. Both are refused, or both
are balanced with the same record. After normalization in the Frobenius norm
the norm, the row factors and the column factors are the same, and in both
forms every stored value is the opposite of the other one where it is marked
and was not zero, and the same elsewhere. -/
theorem signs_unobservable [Displayed α] (input : MatrixInput α)
    (hcheck : input.check = .ok (.ok ()))
    (hmem : FitsMemory input.rows input.cols input.values.size)
    (marks : Array Bool) (hmarks : marks.size = input.values.size)
    (options : Options α) (w w' : World)
    (d e d₁ e₁ : Array α) (hd : d.size = input.rows) (he : e.size = input.cols)
    (hd₁ : d₁.size = input.rows) (he₁ : e₁.size = input.cols) :
    (options.normalizeNorm = .one → ∃ s s',
      run ⟨.ofInput input options, w⟩ [.build, .equilibrate d e]
        = .ok ([.done, .refused (.unsupportedNorm .one)], s)
      ∧ run ⟨.ofInput (input.flipSigns marks) options, w'⟩
          [.build, .equilibrate d₁ e₁]
        = .ok ([.done, .refused (.unsupportedNorm .one)], s'))
    ∧ (options.normalizeNorm ≠ .one → ∃ summary summary' d' e' d₁' e₁' s s',
      run ⟨.ofInput input options, w⟩ [.build, .equilibrate d e]
        = .ok ([.done, .equilibrated summary d' e'], s)
      ∧ run ⟨.ofInput (input.flipSigns marks) options, w'⟩
          [.build, .equilibrate d₁ e₁]
        = .ok ([.done, .equilibrated summary' d₁' e₁'], s')
      ∧ summary'.balance = summary.balance
      ∧ (options.normalizeNorm = .frobenius →
        summary'.norm = summary.norm ∧ d₁' = d' ∧ e₁' = e'
        ∧ ∃ P₀ P₀' P P', PairedMatrix.ofInput input = .ok P₀
          ∧ PairedMatrix.ofInput (input.flipSigns marks) = .ok P₀'
          ∧ s.matrix.pair = .ok P ∧ s'.matrix.pair = .ok P'
          ∧ SignsFollow (PairedMatrix.ofForm (input.withMarks marks)).row
            P₀.row P₀'.row P.row P'.row
          ∧ SignsFollow (PairedMatrix.ofForm (input.withMarks marks)).col
            P₀.col P₀'.col P.col P'.col)) := by
  obtain ⟨hcount, hmatrix⟩ := MatrixInput.check_eq_ok_iff.mp hcheck
  have hsize : (input.flipSigns marks).values.size = input.values.size := by
    show (Array.zipWith _ input.values marks).size = _
    rw [Array.size_zipWith, hmarks, Nat.min_self]
  have hA := MatrixInput.check_marked hmarks hmatrix
  have hvalues := MatrixInput.unmarked_marked hmarks hmatrix
  have hturned := MatrixInput.turned_marked hmarks hmatrix
  have hmatrix' : (input.flipSigns marks).matrix.check = .ok (.ok ()) := by
    rw [← hturned]
    exact SlicedMatrix.check_mapEntries hA _
  have hcheck' : (input.flipSigns marks).check = .ok (.ok ()) :=
    MatrixInput.check_eq_ok_iff.mpr ⟨hsize.trans hcount, hmatrix'⟩
  have hmem' :
      FitsMemory (input.flipSigns marks).rows (input.flipSigns marks).cols
        (input.flipSigns marks).values.size := hsize.symm ▸ hmem
  constructor
  · intro hone
    obtain ⟨s, hrun⟩ :=
      run_build_refused hcheck hmem (M := .ofInput input options) rfl hone w d e
    obtain ⟨s', hrun'⟩ := run_build_refused hcheck' hmem'
      (M := .ofInput (input.flipSigns marks) options) rfl hone w' d₁ e₁
    exact ⟨s, s', hrun, hrun'⟩
  · intro hnorm
    obtain ⟨summary, d', e', s, hrun, -⟩ :=
      run_build_equilibrate FloatingPoint.mul_comm hcheck hmem
        (M := .ofInput input options) rfl hnorm w hd he
    obtain ⟨summary', d₁', e₁', s', hrun', -⟩ :=
      run_build_equilibrate FloatingPoint.mul_comm hcheck' hmem'
        (M := .ofInput (input.flipSigns marks) options) rfl hnorm w' hd₁ he₁
    obtain ⟨M, v, out, hM, hoptions, hout, hok, hs, rfl, rfl⟩ :=
      of_run_build_equilibrate hcheck rfl hrun
    obtain ⟨M', v', out', hM', hoptions', hout', hok', hs', rfl, rfl⟩ :=
      of_run_build_equilibrate hcheck' rfl hrun'
    rw [← hvalues] at hM
    rw [← hturned] at hM'
    have hsame : M.options.normalizeNorm = options.normalizeNorm := by
      rw [hoptions]; rfl
    obtain ⟨hbalance, hfrobenius⟩ :=
      hM.equilibrate_turned FloatingPoint.mul_comm hA hM'
        (hoptions'.trans hoptions.symm) (hsame ▸ hnorm) hout hout' hok hok'
    refine ⟨summary, summary', _, _, _, _, s, s', hrun, hrun', hbalance,
      fun h => ?_⟩
    obtain ⟨hvalue, hd', he', r, hr, hpair, hpair'⟩ :=
      hfrobenius (hsame.trans h)
    refine ⟨hvalue, hd', he', _, _, _, _,
      (PairedMatrix.ofInput_eq_ok_iff hmatrix).mpr
        ⟨hmem.hasRoom (A := input.matrix), rfl⟩,
        (PairedMatrix.ofInput_eq_ok_iff hmatrix').mpr
          ⟨hmem'.hasRoom (A := (input.flipSigns marks).matrix), rfl⟩,
      hs ▸ hpair, hs' ▸ hpair', ?_⟩
    rw [← MatrixInput.marks_marked hmarks hmatrix, ← hvalues, ← hturned]
    exact PairedMatrix.signsFollow_forms hA
      (hvalues ▸ hmem.hasRoom (A := input.matrix)) hr

/-- Doubles in columns, with a repeated index and a zero, of which the first
three are negated. -/
theorem signs_unobservable_repeated :
    let input : MatrixInput Float :=
      ⟨.col, 2, 2, 4, #[0, 3, 4], #[1, 0, 1, 0], #[2, -1, 0, 1]⟩
    let marks := #[true, true, true, false]
    let options : Options Float :=
      { Options.standard with normalizeNorm := .frobenius }
    let w : World := { readings := fun n => n }
    input.check = .ok (.ok ())
    ∧ (input.flipSigns marks).values = #[-2, 1, -0, 1]
    ∧ ∃ summary summary' d e s s',
      run ⟨.ofInput input options, w⟩ [.build, .equilibrate #[0, 0] #[0, 0]]
        = .ok ([.done, .equilibrated summary d e], s)
      ∧ run ⟨.ofInput (input.flipSigns marks) options, w⟩
          [.build, .equilibrate #[7, 7] #[7, 7]]
        = .ok ([.done, .equilibrated summary' d e], s')
      ∧ summary'.balance = summary.balance ∧ summary'.norm = summary.norm := by
  intro input marks options w
  have hcheck : input.check = .ok (.ok ()) := by decide +kernel
  have hvalues : (input.flipSigns marks).values = #[-2, 1, -0, 1] := by
    decide +kernel
  obtain ⟨summary, summary', d, e, d', e', s, s', hrun, hrun', hbalance,
    hfrobenius⟩ :=
    (signs_unobservable input hcheck ⟨by decide, by decide, by decide⟩ marks rfl
        options w w #[0, 0] #[0, 0] #[7, 7] #[7, 7] rfl rfl rfl rfl).2 nofun
  obtain ⟨hnorm, rfl, rfl, -⟩ := hfrobenius rfl
  exact ⟨hcheck, hvalues, summary, summary', _, _, s, s', hrun, hrun',
    hbalance, hnorm⟩

end Session

end Equilibration
