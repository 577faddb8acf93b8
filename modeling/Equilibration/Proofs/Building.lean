import Equilibration.Proofs.OrderConversion
import Equilibration.SolverMatrix.Basic

/-!
# Building — what a built matrix holds

A matrix is built from arrays that pass the check, and then holds both
storage forms of them: the arrays as they are, and their stable transpose
(`PairedMatrix.ofForm`). The only other end of a build is that the second
form finds no room.
-/

namespace Equilibration

open Checked

namespace MatrixInput

variable {α : Type} {input : MatrixInput α}

/-- The arrays of an input, taken for a matrix. -/
def matrix (input : MatrixInput α) : SlicedMatrix α where
  order := input.order
  rows := input.rows
  cols := input.cols
  starts := input.starts
  indices := input.indices
  values := input.values

theorem check_eq_ok_iff :
    input.check = .ok (.ok ())
      ↔ input.values.size = input.entryCount
        ∧ input.matrix.check = .ok (.ok ()) := by
  unfold check
  constructor
  · intro h
    split at h
    · cases h
    · next heq => exact ⟨not_not.mp heq, h⟩
  · rintro ⟨heq, h⟩
    rw [if_neg (not_not.mpr heq)]
    exact h

theorem toSliced_eq_ok (h : input.matrix.check = .ok (.ok ())) :
    input.toSliced = .ok input.matrix := by
  obtain ⟨-, hvalues, hsize, hlast, -, -, -⟩ := SlicedMatrix.of_check h
  obtain ⟨hlt, hget⟩ := Array.getElem?_eq_some_iff.mp hlast
  -- the lengths asked for here are those of the check, spelled differently
  show SlicedMatrix.ofArrays input.matrix.order input.matrix.rows
    input.matrix.cols input.matrix.starts input.matrix.indices
    input.matrix.values = _
  rw [SlicedMatrix.ofArrays, require_eq_ok hvalues, ok_bind,
    ← SlicedMatrix.sliceCount, require_eq_ok hsize, ok_bind, read_eq_ok hlt,
    ok_bind, require_eq_ok hget]
  rfl

end MatrixInput

namespace PairedMatrix

variable {α : Type}

/-- Both forms of a matrix that is given in one of them. -/
def ofForm (A : SlicedMatrix α) : PairedMatrix α :=
  match A.order with
  | .row => { row := A, col := A.flipped, order := .row }
  | .col => { row := A.flipped, col := A, order := .col }

/-- The form in the order that the input does not have. -/
def otherForm (P : PairedMatrix α) : SlicedMatrix α :=
  match P.order with
  | .row => P.col
  | .col => P.row

theorem ofForm_row {A : SlicedMatrix α} (h : A.order = .row) :
    ofForm A = { row := A, col := A.flipped, order := .row } := by
  rw [ofForm, h]

theorem ofForm_col {A : SlicedMatrix α} (h : A.order = .col) :
    ofForm A = { row := A.flipped, col := A, order := .col } := by
  rw [ofForm, h]

@[simp] theorem order_ofForm (A : SlicedMatrix α) :
    (ofForm A).order = A.order := by
  cases h : A.order
  · rw [ofForm_row h]
  · rw [ofForm_col h]

@[simp] theorem inputForm_ofForm (A : SlicedMatrix α) :
    (ofForm A).inputForm = A := by
  cases h : A.order
  · rw [ofForm_row h, inputForm]
  · rw [ofForm_col h, inputForm]

@[simp] theorem otherForm_ofForm (A : SlicedMatrix α) :
    (ofForm A).otherForm = A.flipped := by
  cases h : A.order
  · rw [ofForm_row h, otherForm]
  · rw [ofForm_col h, otherForm]

/-- Each form has its order, and the dimensions are the same. -/
theorem dims_forms (A : SlicedMatrix α) :
    (ofForm A).row.order = .row ∧ (ofForm A).col.order = .col
      ∧ ((ofForm A).row.rows = A.rows ∧ (ofForm A).row.cols = A.cols)
      ∧ (ofForm A).col.rows = A.rows ∧ (ofForm A).col.cols = A.cols := by
  cases horder : A.order
  · rw [ofForm_row horder]
    exact ⟨horder, congrArg StorageOrder.flip horder, ⟨rfl, rfl⟩, rfl, rfl⟩
  · rw [ofForm_col horder]
    exact ⟨congrArg StorageOrder.flip horder, horder, ⟨rfl, rfl⟩, rfl, rfl⟩

theorem size_values_forms {A : SlicedMatrix α} (h : A.check = .ok (.ok ())) :
    (ofForm A).row.values.size = A.values.size
      ∧ (ofForm A).col.values.size = A.values.size := by
  have hother := SlicedMatrix.size_values_flipped h
  cases horder : A.order
  · rw [ofForm_row horder]
    exact ⟨rfl, hother⟩
  · rw [ofForm_col horder]
    exact ⟨hother, rfl⟩

theorem check_forms {A : SlicedMatrix α} (h : A.check = .ok (.ok ()))
    (hroom : A.HasRoom) :
    (ofForm A).row.check = .ok (.ok ())
      ∧ (ofForm A).col.check = .ok (.ok ()) := by
  have hother := SlicedMatrix.check_flipped h hroom
  cases horder : A.order
  · rw [ofForm_row horder]
    exact ⟨h, hother⟩
  · rw [ofForm_col horder]
    exact ⟨hother, h⟩

theorem ofInput_eq_ok_iff [Scalar α] {input : MatrixInput α}
    {P : PairedMatrix α} (h : input.matrix.check = .ok (.ok ())) :
    ofInput input = .ok P ↔ input.matrix.HasRoom ∧ P = ofForm input.matrix := by
  have hconv : ∀ B, input.matrix.inOrder input.order.flip = .ok B
      ↔ input.matrix.HasRoom ∧ B = input.matrix.flipped :=
    fun B => SlicedMatrix.inOrder_flip_iff h
  rw [ofInput, MatrixInput.toSliced_eq_ok h, ok_bind, bind_eq_ok_iff]
  simp only [hconv]
  constructor
  · rintro ⟨B, ⟨hroom, rfl⟩, hP⟩
    refine ⟨hroom, ?_⟩
    cases horder : input.order <;> rw [horder] at hP <;> cases hP
    · rw [ofForm_row (A := input.matrix) horder]
    · rw [ofForm_col (A := input.matrix) horder]
  · rintro ⟨hroom, rfl⟩
    refine ⟨input.matrix.flipped, ⟨hroom, rfl⟩, ?_⟩
    cases horder : input.order
    · rw [ofForm_row (A := input.matrix) horder]
      rfl
    · rw [ofForm_col (A := input.matrix) horder]
      rfl

end PairedMatrix

namespace Timed

/-- Stopwatches and world after a computation under a stopwatch that does
not look at the clock itself. -/
def lap (key : String) (s : Stopwatches × World) : Stopwatches × World :=
  ((s.1.start key s.2.now).stop s.2.look.now, s.2.look.look)

theorem timed_eq {β : Type} (key : String) (act : Timed β)
    (watches : Stopwatches) (w : World) :
    timed key act (watches, w) = (do
      let (r, watches, w) ← act (watches.start key w.now, w.look)
      pure (r, watches.stop w.now, w.look)) := rfl

theorem timed_lift {β : Type} (key : String) (c : Checked β)
    (s : Stopwatches × World) :
    timed key (c : Timed β) s = (do
      let r ← c
      pure (r, lap key s)) := by
  cases c <;> rfl

/-- The rest of a computation after a part of it under a stopwatch. -/
theorem timed_bind {β γ : Type} (key : String) (c : Checked β) (k : β → Timed γ)
    (s : Stopwatches × World) :
    (timed key (c : Timed β) >>= k) s = (do
      let r ← c
      k r (lap key s)) := by
  cases c <;> rfl

/-- The rest of a computation after a step that never looks at the clock. -/
theorem lift_bind {β γ : Type} {c : Checked β} {r : β} (h : c = .ok r)
    (k : β → Timed γ) (s : Stopwatches × World) :
    ((c : Timed β) >>= k) s = k r s := by
  rw [h]
  rfl

end Timed

namespace SolverMatrix

variable {α : Type}

theorem dims_of_input {M : SolverMatrix α} {input : MatrixInput α}
    (h : M.input? = some input) :
    M.rows = input.rows ∧ M.cols = input.cols := by
  unfold input? at h
  split at h
  · cases h
    exact ⟨rfl, rfl⟩
  · cases h

theorem pair_of_input {M : SolverMatrix α} {input : MatrixInput α}
    (h : M.input? = some input) :
    M.pair = .error .notBuilt := by
  unfold input? at h
  unfold pair
  split at h
  · rfl
  · cases h

variable [Scalar α]

/-- A build stores both forms of the input, unless the second form finds no
room. -/
theorem build_eq_ok_iff {M : SolverMatrix α} {input : MatrixInput α} {w : World}
    {out : Outcome α Unit} (hinput : M.input? = some input)
    (hcheck : input.check = .ok (.ok ())) :
    M.build w = .ok out ↔ input.matrix.HasRoom
      ∧ out = { result := .ok ()
                matrix := { M with
                  storage := .built (.ofForm input.matrix)
                  watches := (Timed.lap "build" (M.watches, w)).1 }
                world := (Timed.lap "build" (M.watches, w)).2 } := by
  have hpair : ∀ P, PairedMatrix.ofInput input = .ok P
      ↔ input.matrix.HasRoom ∧ P = .ofForm input.matrix :=
    fun P =>
      PairedMatrix.ofInput_eq_ok_iff (MatrixInput.check_eq_ok_iff.mp hcheck).2
  unfold build StateT.run
  rw [hinput]
  simp only [hcheck, ok_bind]
  rw [Timed.timed_lift]
  constructor
  · intro h
    rw [bind_eq_ok_iff] at h
    obtain ⟨r, hr, hout⟩ := h
    rw [bind_eq_ok_iff] at hr
    obtain ⟨P, hP, hr⟩ := hr
    obtain ⟨hroom, rfl⟩ := (hpair P).mp hP
    cases hr
    cases hout
    exact ⟨hroom, rfl⟩
  · rintro ⟨hroom, rfl⟩
    rw [(hpair _).mpr ⟨hroom, rfl⟩]
    rfl

end SolverMatrix

end Equilibration
