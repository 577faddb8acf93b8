import Equilibration.Proofs.DenseProducts
import Equilibration.Proofs.ExactScalings
import Equilibration.Proofs.Iterations

/-!
# UnroundedRuns — runs that compute the exact iteration

A run works on arrays of its own scalars, in the order of the kernels. Where
no operation rounds, its factors are those of `Balancing.scaling`, the
iteration on entries in exact arithmetic. The scalars may be any, read as
numbers of an exact field by a function `φ`: `UnroundedRun` says that
through `φ` the sums of products, the quotients and the tests for closeness
of the run come out exactly, and `UnroundedRun.agrees` and
`UnroundedRun.close_iff` are what follows for the run as a whole.

In exact arithmetic every run is such a run (`unroundedRun_exact`), on each
operator whose products are those of a function of entries; a built matrix
is one (`SolverMatrix.Holds.multiplies`).
-/

namespace Equilibration

open Checked

namespace Vec

variable {α : Type} [Scalar α]

theorem getD_map_of_lt {x : Array α} {i : Nat} (h : i < x.size) (g : α → α) :
    (x.map g).getD i 0 = g (x.getD i 0) := by
  rw [Array.getD_eq_getD_getElem?, Array.getD_eq_getD_getElem?,
    Array.getElem?_map, Array.getElem?_eq_getElem h]
  rfl

theorem getD_overwrite_of_lt {x v : Array α} {i : Nat} (hx : i < x.size)
    (hv : i < v.size) (g : α → α) :
    (overwrite g x v).getD i 0 = g (v.getD i 0) := by
  rw [Array.getD_eq_getD_getElem?, Array.getD_eq_getD_getElem?, overwrite,
    Array.getElem?_mapIdx,
    Array.getElem?_eq_getElem hx, Array.getElem?_eq_getElem hv]
  rfl

end Vec

/-! ## Exact products -/

/-- The products with the matrix of a function. -/
def denseProducts {α : Type} [ExactRing α] (a : Nat → Nat → α) (shape : Shape)
    (x y : Array α) :
    Array α :=
  denseProduct (shape.entryOf a) 1 0 x y

/-- The operator computes the products with the matrix of a function. -/
def Operator.Multiplies {α : Type} [ExactRing α] (A : Operator Unit α)
    (a : Nat → Nat → α) : Prop :=
  A.Computes (denseProducts a)

theorem getD_denseProduct {α : Type} [ExactRing α] (entry : Nat → Nat → α)
    (x : Array α) {y : Array α} {i : Nat} (hi : i < y.size) :
    (denseProduct entry 1 0 x y).getD i 0
      = ∑ j ∈ Finset.range x.size, entry i j * x.getD j 0 := by
  rw [Array.getD_eq_getD_getElem?, denseProduct, Array.getElem?_mapIdx,
    Array.getElem?_eq_getElem hi, Option.map_some, Option.getD_some, one_mul,
    zero_mul, add_zero]

/-- A built matrix multiplies by the entries that it holds. -/
theorem SolverMatrix.Holds.multiplies {α : Type} [ExactRing α]
    {M : SolverMatrix α} {A : SlicedMatrix α} (hM : M.Holds A) :
    M.operator.Multiplies A.coefficient := by
  intro shape x y hx hy
  refine ⟨?_, by simp [denseProducts, denseProduct]⟩
  have hproduct : M.multiply shape 1 x 0 y
      = .ok (.ok (denseProducts A.coefficient shape x y)) := by
    have hx' : x.size = shape.domain A.rows A.cols := by
      rw [← hM.rows_eq, ← hM.cols_eq]
      exact hx
    have hy' : y.size = shape.codomain A.rows A.cols := by
      rw [← hM.rows_eq, ← hM.cols_eq]
      exact hy
    rw [multiply_built hM.pair hx hy,
      PairedMatrix.multiply_ofForm hM.check hM.room shape 1 0 hx' hy']
    rfl
  unfold SolverMatrix.operator
  dsimp only
  rw [hproduct]
  rfl

/-- Values that are not negative add up to entries that are not. -/
theorem SlicedMatrix.coefficient_nonneg {α : Type} [ExactOrderedField α]
    {A : SlicedMatrix α} (h : ∀ v ∈ A.values, 0 ≤ v) (i j : Nat) :
    0 ≤ A.coefficient i j := by
  have hvalue : ∀ p, 0 ≤ A.values.getD p 0 := fun p => by
    by_cases hp : p < A.values.size
    · exact h _ (Vec.getD_mem hp 0)
    · rw [Array.getD, dif_neg hp]
  unfold coefficient denseEntry
  obtain ⟨k, l⟩ := A.order.locate i j
  refine Finset.sum_nonneg fun p _ => ?_
  split
  · exact hvalue p
  · exact le_rfl

namespace Balancing

section Reading

variable {α K : Type} [Scalar α] [ExactOrderedField K]

/-- The factors of a state, read by `φ`. -/
def State.scaling (φ : α → K) (s : State α) : Scaling K where
  row i := φ (s.d.getD i 0)
  col j := φ (s.e.getD j 0)

variable (φ : α → K) (f : Shape → Array α → Array α → Array α)
  (a : Nat → Nat → K) (rows cols : Nat)

/-- Nothing is rounded in the iteration after a state. Read by `φ`, the sums
of products are those of the entries `a`, and the factors are quotients. -/
structure Unrounded (s : State α) : Prop where
  colSum : ∀ j < cols,
    φ ((f .transposed s.d s.sums).getD j 0) = colSum a rows (s.scaling φ).row j
  col : ∀ j < cols,
      φ (factor (Scalar.ofNat rows) ((f .transposed s.d s.sums).getD j 0))
        = factor (rows : K) (φ ((f .transposed s.d s.sums).getD j 0))
  rowSum : ∀ i < rows, φ ((f .normal (next f rows cols s).e s.d).getD i 0)
    = rowSum a cols ((next f rows cols s).scaling φ).col i
  row : ∀ i < rows, φ (factor (Scalar.ofNat cols)
      ((f .normal (next f rows cols s).e s.d).getD i 0))
    = factor (cols : K) (φ ((f .normal (next f rows cols s).e s.d).getD i 0))

/-- Nothing is rounded in the first `k` iterations of a run, and its tests
for closeness up to then answer as exact ones. -/
structure UnroundedRun (d e : Array α) (tol : α) (k : Nat) : Prop where
  one : φ 1 = 1
  steps : ∀ l < k, Unrounded φ f a rows cols (stateAfter f rows cols d e l)
  tests : ∀ l, 0 < l → l ≤ k → (Close f rows tol (stateAfter f rows cols d e l)
    ↔ ((stateAfter f rows cols d e l).scaling φ).Close a rows cols (φ tol))

variable {φ f a rows cols}

theorem Scaling.Agrees.next {x y : Scaling K} (h : x.Agrees rows cols y) :
    (x.next a rows cols).Agrees rows cols (y.next a rows cols) := by
  have hcol : ∀ j < cols, (x.next a rows cols).col j
      = (y.next a rows cols).col j := fun j _ => by
    show factor _ (Balancing.colSum a rows x.row j)
      = factor _ (Balancing.colSum a rows y.row j)
    rw [colSum_congr h.row]
  refine ⟨fun i _ => ?_, hcol⟩
  show factor _ (Balancing.rowSum a cols (x.next a rows cols).col i)
    = factor _ (Balancing.rowSum a cols (y.next a rows cols).col i)
  rw [rowSum_congr hcol]

/-- An iteration that does not round is an iteration on the entries. -/
theorem Unrounded.agrees_next {A : Operator Unit α} (hA : A.Computes f)
    {s : State α} (hfits : s.Fits A) (h : Unrounded φ f a A.rows A.cols s) :
    ((Balancing.next f A.rows A.cols s).scaling φ).Agrees A.rows A.cols
      ((s.scaling φ).next a A.rows A.cols) := by
  obtain ⟨-, hsums⟩ := hA .transposed s.d s.sums hfits.d_size hfits.sums_size
  obtain ⟨-, hd⟩ := hA .normal _ s.d (hfits.next hA).e_size hfits.d_size
  have hcol : ∀ j < A.cols, ((Balancing.next f A.rows A.cols s).scaling φ).col j
      = ((s.scaling φ).next a A.rows A.cols).col j := fun j hj => by
    show φ ((Vec.overwrite _ s.e (f .transposed s.d s.sums)).getD j 0)
      = factor _ _
    rw [Vec.getD_overwrite_of_lt (hj.trans_eq hfits.e_size.symm)
      (hj.trans_eq (hsums.trans hfits.sums_size).symm), h.col j hj,
      h.colSum j hj]
  refine ⟨fun i hi => ?_, hcol⟩
  show φ (((f .normal (Balancing.next f A.rows A.cols s).e s.d).map _).getD i 0)
    = factor _ _
  rw [Vec.getD_map_of_lt (hi.trans_eq (hd.trans hfits.d_size).symm), h.row i hi,
    h.rowSum i hi, rowSum_congr hcol]
  rfl

theorem agrees_start (hone : φ 1 = 1) (d e : Array α) (hd : d.size = rows)
    (he : e.size = cols) :
    ((stateAfter f rows cols d e 0).scaling φ).Agrees rows cols
      (scaling a rows cols 0) where
  row i hi := by
    show φ ((Vec.fill d 1).getD i 0) = 1
    rw [Vec.fill, Vec.getD_map_of_lt (hi.trans_eq hd.symm), hone]
  col j hj := by
    show φ ((Vec.fill e 1).getD j 0) = 1
    rw [Vec.fill, Vec.getD_map_of_lt (hj.trans_eq he.symm), hone]

/-- **A run that does not round** has the factors of the exact iteration. -/
theorem UnroundedRun.agrees {A : Operator Unit α} (hA : A.Computes f)
    {d e : Array α} (hd : d.size = A.rows) (he : e.size = A.cols) {tol : α}
    {k : Nat} (h : UnroundedRun φ f a A.rows A.cols d e tol k) {l : Nat}
    (hl : l ≤ k) :
    ((stateAfter f A.rows A.cols d e l).scaling φ).Agrees A.rows A.cols
      (scaling a A.rows A.cols l) := by
  induction l with
  | zero => exact agrees_start h.one d e hd he
  | succ l ih =>
    rw [stateAfter_succ]
    have hstep := (h.steps l hl).agrees_next hA (fits_stateAfter hA hd he l)
    have hprev := (ih (Nat.le_of_lt hl)).next (a := a)
    exact ⟨fun i hi => (hstep.row i hi).trans (hprev.row i hi),
      fun j hj => (hstep.col j hj).trans (hprev.col j hj)⟩

theorem UnroundedRun.close_iff {A : Operator Unit α} (hA : A.Computes f)
    {d e : Array α} (hd : d.size = A.rows) (he : e.size = A.cols) {tol : α}
    {k : Nat} (h : UnroundedRun φ f a A.rows A.cols d e tol k) {l : Nat}
    (hpos : 0 < l) (hl : l ≤ k) :
    Close f A.rows tol (stateAfter f A.rows A.cols d e l)
      ↔ (scaling a A.rows A.cols l).Close a A.rows A.cols (φ tol) :=
  (h.tests l hpos hl).trans ((h.agrees hA hd he hl).close_iff _)

end Reading

/-! ## Exact arithmetic -/

section Exact

variable {K : Type} [ExactOrderedField K] {a : Nat → Nat → K}
  {A : Operator Unit K}

theorem scalarMax_eq (x y : K) : Scalar.max x y = max x y := by
  rw [Scalar.max, ExactOrderedField.isNaN_eq, if_neg Bool.false_ne_true]
  split
  · next h => exact (max_eq_right h.le).symm
  · next h => exact (max_eq_left (not_lt.mp h)).symm

/-- A largest deviation is small when all are. -/
theorem foldl_deviation_lt_iff (target tol worst : K) (pairs : List (K × K)) :
    pairs.foldl (fun worst (s, ej) =>
        if 0 < s then Scalar.max worst (deviation target s ej) else worst) worst
          < tol
      ↔ worst < tol ∧ ∀ p ∈ pairs, 0 < p.1 →
        |p.2 * p.1 / target - 1| < tol := by
  induction pairs generalizing worst with
  | nil => simp
  | cons p pairs ih =>
    obtain ⟨s, ej⟩ := p
    rw [List.foldl_cons, ih, List.forall_mem_cons]
    dsimp only
    by_cases hs : 0 < s
    · rw [if_pos hs, scalarMax_eq, max_lt_iff, deviation,
        ExactOrderedField.abs_eq, and_assoc, forall_prop_of_true hs]
    · rw [if_neg hs, forall_prop_of_false hs, true_and]

theorem worstDeviation_lt_iff {sums e : Array K} (hsize : sums.size = e.size)
    (target tol : K) :
    worstDeviation sums e target < tol
      ↔ 0 < tol ∧ ∀ j < sums.size, 0 < sums.getD j 0 →
        |e.getD j 0 * sums.getD j 0 / target - 1| < tol := by
  rw [worstDeviation, foldl_deviation_lt_iff]
  refine and_congr_right fun _ => ?_
  have hget : ∀ {x : Array K} {j : Nat} (h : j < x.size),
      x.getD j 0 = x.toList[j] := fun h => by
    rw [Array.getD, dif_pos h]
    rfl
  constructor
  · intro h j hj
    have hsums : j < sums.toList.length := hj
    have he : j < e.toList.length := hj.trans_eq hsize
    rw [hget hj, hget (hj.trans_eq hsize)]
    refine h (sums.toList[j], e.toList[j]) ?_
    rw [← List.getElem_zip
      (h := by rw [List.length_zip]; exact lt_min hsums he)]
    exact List.getElem_mem _
  · intro h p hp
    obtain ⟨j, hj, rfl⟩ := List.mem_iff_getElem.mp hp
    rw [List.length_zip, Array.length_toList, Array.length_toList, ← hsize,
      min_self] at hj
    have := h j hj
    rw [hget hj, hget (hj.trans_eq hsize)] at this
    rw [List.getElem_zip]
    exact this

/-- In exact arithmetic nothing is ever rounded. -/
theorem unroundedRun_exact (hA : A.Multiplies a) {d e : Array K}
    (hd : d.size = A.rows) (he : e.size = A.cols) (tol : K) (k : Nat) :
    UnroundedRun id (denseProducts a) a A.rows A.cols d e tol k := by
  have hcolSum : ∀ l, ∀ j < A.cols, ((denseProducts a) .transposed
      (stateAfter (denseProducts a) A.rows A.cols d e l).d
      (stateAfter (denseProducts a) A.rows A.cols d e l).sums).getD j 0
        = colSum a A.rows
          ((stateAfter (denseProducts a) A.rows A.cols d e l).scaling id).row
          j := by
    intro l j hj
    have hfits := fits_stateAfter hA hd he l
    rw [denseProducts, getD_denseProduct _ _ (hj.trans_eq hfits.sums_size.symm),
      hfits.d_size]
    rfl
  refine ⟨rfl, fun l _ => ?_, fun l _ _ => ?_⟩
  · have hfits := fits_stateAfter hA hd he l
    have hfits' := hfits.next hA
    refine ⟨hcolSum l, fun j _ => ?_, fun i hi => ?_, fun i _ => ?_⟩
    · rw [ExactOrderedField.ofNat_eq]
      rfl
    · rw [denseProducts, getD_denseProduct _ _ (hi.trans_eq hfits.d_size.symm),
        hfits'.e_size]
      rfl
    · rw [ExactOrderedField.ofNat_eq]
      rfl
  · have hfits := fits_stateAfter hA hd he l
    have hsums : (denseProducts a .transposed
        (stateAfter (denseProducts a) A.rows A.cols d e l).d
        (stateAfter (denseProducts a) A.rows A.cols d e l).sums).size
      = A.cols := by
      rw [denseProducts, denseProduct, Array.size_mapIdx]
      exact hfits.sums_size
    rw [Close, worstDeviation_lt_iff (hsums.trans hfits.e_size.symm),
      ExactOrderedField.ofNat_eq, hsums]
    refine and_congr_right fun _ => forall₂_congr fun j hj => ?_
    rw [hcolSum l j hj]
    rfl

/-- Where a run ends in exact arithmetic: with the first close scaling, if
the budget lasts. -/
theorem exact_run_of_first (hA : A.Multiplies a) {d e : Array K}
    (hd : d.size = A.rows) (he : e.size = A.cols) (hcols : A.cols < capacity)
    (budget : Nat) {k : Nat} {tol : K} (hpos : 0 < k) (hbudget : k < budget)
    (hclose : (scaling a A.rows A.cols k).Close a A.rows A.cols tol)
    (hfirst : ∀ l, 0 < l → l < k →
      ¬ (scaling a A.rows A.cols l).Close a A.rows A.cols tol) :
    ∃ d' e' record, run A d e budget tol () = .ok (⟨d', e', .ok record⟩, ())
      ∧ record.converged = true ∧ record.iterations = k := by
  obtain ⟨record, hrun, hends⟩ := run_ends hA hd he hcols budget tol
  have hexact := unroundedRun_exact hA hd he tol k
  exact ⟨_, _, record, hrun, hends.of_first hpos hbudget (fun _ =>
      (hexact.close_iff hA hd he hpos le_rfl).mpr hclose) fun l hl hlk _ =>
    (hexact.close_iff hA hd he hl hlk.le).not.mpr (hfirst l hl hlk)⟩

/-- A run that never comes to a close scaling uses up its budget. -/
theorem exact_run_of_never (hA : A.Multiplies a) {d e : Array K}
    (hd : d.size = A.rows)
    (he : e.size = A.cols) (hcols : A.cols < capacity) (budget : Nat) {tol : K}
    (hnever : ∀ l, 0 < l →
      ¬ (scaling a A.rows A.cols l).Close a A.rows A.cols tol) :
    ∃ d' e' record, run A d e budget tol () = .ok (⟨d', e', .ok record⟩, ())
      ∧ record.converged = false ∧ record.iterations = budget := by
  obtain ⟨record, hrun, hends⟩ := run_ends hA hd he hcols budget tol
  have hexact := unroundedRun_exact hA hd he tol record.iterations
  have hconverged : record.converged = false := by
    rw [Bool.eq_false_iff]
    intro hconverged
    obtain ⟨hpos, -, hclose⟩ := hends.close hconverged
    exact hnever _ hpos ((hexact.close_iff hA hd he hpos le_rfl).mp hclose)
  exact ⟨_, _, record, hrun, hconverged, hends.spent hconverged⟩

end Exact

end Balancing

end Equilibration
