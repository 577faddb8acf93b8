import Equilibration.Proofs.Requests

/-!
# Progress — one check is enough

Every read, write, cut, length and sum of the kernels is checked, and a
violation ends the computation. Nothing is ever violated once the arrays
have passed the one check of their format: all kernels come to a result on a
matrix that passes, and what they return passes again
(`SlicedMatrix.Kept`); so does every request to a solver matrix, whether it
is built or not (`Session.no_violation_after_check`). Values and options
play no part in it.
-/

namespace Equilibration

open Checked

variable {α : Type}

namespace SlicedMatrix

/-- The other matrix is as well formed, of the same shape and size. -/
structure Kept (A B : SlicedMatrix α) : Prop where
  check : B.check = .ok (.ok ())
  rows_eq : B.rows = A.rows
  cols_eq : B.cols = A.cols
  size_eq : B.values.size = A.values.size

section Kernels

variable {A : SlicedMatrix α} (h : A.check = .ok (.ok ()))

include h

theorem kept_mapEntries (f : Nat → Nat → α → α) : A.Kept (A.mapEntries f) :=
  ⟨check_mapEntries h f, rfl, rfl, size_values_mapEntries h f⟩

variable [Scalar α]

theorem kept_of_inOrder (hmem : FitsMemory A.rows A.cols A.values.size)
    (o : StorageOrder) :
    ∃ B, A.inOrder o = .ok B ∧ A.Kept B := by
  by_cases ho : o = A.order
  · exact ⟨A, if_pos ho, h, rfl, rfl, rfl⟩
  · rw [A.order.eq_flip_of_ne ho]
    exact ⟨A.flipped, inOrder_flip h hmem.hasRoom, check_flipped h hmem.hasRoom,
      rfl, rfl, size_values_flipped h⟩

theorem scatter_total {x y : Array α} (a b : α) (hx : x.size = A.sliceCount)
    (hy : y.size = A.indexBound) : ∃ y', A.scatter y x a b = .ok y' := by
  have := scatter_ofSlices (fits_slices h) a b hx hy
  rw [ofSlices_slices h] at this
  exact ⟨_, this⟩

/-- Both kernels come to a result, for the matrix and for its transpose. -/
theorem multiply_total (shape : Shape) {x y : Array α} (a b : α)
    (hx : x.size = shape.domain A.rows A.cols)
    (hy : y.size = shape.codomain A.rows A.cols) :
    ∃ y', A.multiply shape y x a b = .ok y' := by
  rw [multiply.eq_def]
  -- along the slices the product gathers, against them it scatters
  cases horder : A.order <;> cases shape
  · exact ⟨_, gather_eq_ok h a b (by rw [hx, indexBound, horder]; rfl)
      (by rw [hy, sliceCount, horder]; rfl)⟩
  · exact scatter_total h a b (by rw [hx, sliceCount, horder]; rfl)
      (by rw [hy, indexBound, horder]; rfl)
  · exact scatter_total h a b (by rw [hx, sliceCount, horder]; rfl)
      (by rw [hy, indexBound, horder]; rfl)
  · exact ⟨_, gather_eq_ok h a b (by rw [hx, indexBound, horder]; rfl)
      (by rw [hy, sliceCount, horder]; rfl)⟩

omit [Scalar α] in
theorem entry_total {row col : Nat} (hrow : row < A.rows)
    (hcol : col < A.cols) :
    ∃ v, A.entry? row col = .ok v := ⟨_, entry_eq_ok h hrow hcol⟩

theorem kept_scale (c : α) : A.Kept (A.scale c) := by
  rw [scale_eq h]
  exact kept_mapEntries h _

theorem kept_of_scaleBySides (hcomm : ∀ a b : α, a * b = b * a) {l r : Array α}
    (hl : l.size = A.rows) (hr : r.size = A.cols) :
    ∃ B, A.scaleBySides l r = .ok B ∧ A.Kept B :=
  ⟨_, scaleBySides_eq_ok hcomm h hl hr, kept_mapEntries h _⟩

end Kernels

end SlicedMatrix

/-- Balancing on an operator that fails at once comes to an end all the
same. -/
theorem Balancing.run_of_refusing [Scalar α] {A : Operator Unit α} {r : Refusal}
    (hA : ∀ shape a x b y, A.multiply shape a x b y () = .ok (⟨y, some r⟩, ()))
    {d e : Array α} (hd : d.size = A.rows) (he : e.size = A.cols)
    (hcols : A.cols < capacity) (budget : Nat) (tol : α) :
    ∃ result, run A d e budget tol () = .ok (result, ()) := by
  rw [run_eq hd he hcols]
  cases budget with
  | zero => exact ⟨_, rfl⟩
  | succ budget =>
    rw [iterate, StateT.bind_of_ok (hA _ _ _ _ _)]
    exact ⟨_, rfl⟩

namespace Session

section Requests

variable [Scalar α] [Displayed α] (hcomm : ∀ a b : α, a * b = b * a)
  {input : MatrixInput α} (hcheck : input.check = .ok (.ok ()))
  (hmem : FitsMemory input.rows input.cols input.values.size)

include hcomm hcheck hmem

/-- A request with vectors that fit comes to a reply. -/
theorem Follows.serve_total {s : Session α} (hs : Follows input s.matrix)
    {r : Request α} (hr : r.Fits input.rows input.cols) :
    ∃ p, s.serve r = .ok p := by
  obtain ⟨hrows, hcols⟩ := hs.dims
  have hrows' : s.matrix.rows < capacity :=
    hrows ▸ Nat.lt_of_succ_lt hmem.rows_lt
  have hcols' : s.matrix.cols < capacity :=
    hcols ▸ Nat.lt_of_succ_lt hmem.cols_lt
  cases r with
  | call c =>
    obtain ⟨p, hp⟩ := hs.perform_total hcomm hcheck hmem hr
    exact ⟨_, bind_eq_ok_iff.mpr ⟨p, hp, rfl⟩⟩
  | balance d e budget tolerance =>
    have hd : d.size = s.matrix.operator.rows := hr.1.trans hrows.symm
    have he : e.size = s.matrix.operator.cols := hr.2.trans hcols.symm
    obtain ⟨run, hrun⟩ :
        ∃ run, Balancing.run s.matrix.operator d e budget.toNat tolerance ()
          = .ok (run, ()) := by
      rcases hs with hs | ⟨f, hs⟩
      · exact Balancing.run_of_refusing (SolverMatrix.operator_of_input hs) hd
          he hcols' _ _
      · obtain ⟨t, record, -, -, -, hrun⟩ :=
          Balancing.run_rule hs.computes (fun _ => True) trivial
            (fun _ _ _ => trivial) hd he hcols' budget.toNat tolerance
        exact ⟨_, hrun⟩
    exact ⟨_, bind_eq_ok_iff.mpr ⟨_, hrun, rfl⟩⟩
  | spectralNorm budget tolerance =>
    obtain ⟨result, hresult⟩ : ∃ result,
        (SpectralNorm.estimate s.matrix.operator budget.toNat tolerance).run ()
          = .ok (result, ()) := by
      rcases hs with hs | ⟨f, hs⟩
      · exact SpectralNorm.estimate_of_refusing
          (SolverMatrix.operator_of_input hs) hrows' hcols' _ _
      · exact ⟨_,
          SpectralNorm.estimate_eq hs.computes (.inr ⟨hrows', hcols'⟩) _ _⟩
    exact ⟨_, bind_eq_ok_iff.mpr ⟨_, hresult, rfl⟩⟩
  | inspect => exact ⟨_, rfl⟩
  | copy => exact ⟨_, rfl⟩

theorem Follows.serveAll_total {requests : List (Request α)} {s : Session α}
    (hs : Follows input s.matrix)
    (hrequests : ∀ r ∈ requests, r.Fits input.rows input.cols) :
    ∃ p, s.serveAll requests = .ok p := by
  induction requests generalizing s with
  | nil => exact ⟨_, rfl⟩
  | cons r requests ih =>
    obtain ⟨⟨reply, t⟩, ht⟩ :=
      hs.serve_total hcomm hcheck hmem (hrequests r List.mem_cons_self)
    have hfollows : Follows input t.matrix := by
      rcases serve_cases ht with ⟨-, rfl⟩ | ⟨c, a, -, -, hperform⟩
      · exact hs
      · exact (hs.perform hcomm hcheck hperform).1
    obtain ⟨p, hp⟩ :=
      ih hfollows fun r' hr' => hrequests r' (List.mem_cons_of_mem r hr')
    exact ⟨_, bind_eq_ok_iff.mpr ⟨_, ht, bind_eq_ok_iff.mpr ⟨p, hp, rfl⟩⟩⟩

end Requests

/-- **One check of the format is enough.** Take any input that passes the
check and both storage forms of which can be allocated. Whatever is asked of
a matrix of it, in any order and with any options, nothing is violated, as
long as the vectors fit. And whatever the kernels do to a sliced matrix that
passes the check, they come to a result, and a matrix that they return
passes the check again. -/
theorem no_violation_after_check [Scalar α] [Displayed α]
    [hmul : Std.Commutative fun a b : α => a * b] :
    (∀ input : MatrixInput α, input.check = .ok (.ok ()) →
      FitsMemory input.rows input.cols input.values.size →
      ∀ M : SolverMatrix α, M.input? = some input →
      ∀ (w : World) (requests : List (Request α)),
        (∀ r ∈ requests, r.Fits input.rows input.cols) →
        ∃ replies s, serveAll ⟨M, w⟩ requests = .ok (replies, s))
    ∧ ∀ A : SlicedMatrix α, A.check = .ok (.ok ()) →
      FitsMemory A.rows A.cols A.values.size →
      (∀ o, ∃ B, A.inOrder o = .ok B ∧ A.Kept B)
        ∧ (∀ (shape : Shape) (a b : α) (x y : Array α),
          x.size = shape.domain A.rows A.cols →
          y.size = shape.codomain A.rows A.cols →
          ∃ y', A.multiply shape y x a b = .ok y')
        ∧ (∀ c, A.Kept (A.scale c))
        ∧ (∀ l r : Array α, l.size = A.rows → r.size = A.cols →
          ∃ B, A.scaleBySides l r = .ok B ∧ A.Kept B)
        ∧ ∀ row col, row < A.rows → col < A.cols →
          ∃ v, A.entry? row col = .ok v := by
  have hcomm : ∀ a b : α, a * b = b * a := hmul.comm
  constructor
  · intro input hcheck hmem M hM w requests hrequests
    obtain ⟨⟨replies, s⟩, hrun⟩ :=
      Follows.serveAll_total hcomm hcheck hmem (s := ⟨M, w⟩) (.inl hM) hrequests
    exact ⟨replies, s, hrun⟩
  · intro A h hmem
    exact ⟨SlicedMatrix.kept_of_inOrder h hmem,
      fun shape a b _ _ hx hy => SlicedMatrix.multiply_total h shape a b hx hy,
      SlicedMatrix.kept_scale h, fun _ _ => SlicedMatrix.kept_of_scaleBySides h
        hcomm, fun _ _ => SlicedMatrix.entry_total h⟩

/-- A column with an unsorted and repeated index, values that are no numbers
or infinite, options that no check would pass, and requests that come before
the build. -/
theorem no_violation_after_check_repeated :
    let input : MatrixInput Float :=
      ⟨.col, 3, 2, 4, #[0, 3, 4], #[2, 0, 2, 1], #[1, -(1 / 0), 0 / 0, 3]⟩
    let options : Options Float := ⟨true, .one, .two, 7, 0 / 0, 3, -1⟩
    let requests : List (Request Float) :=
      [.balance #[0, 0, 0] #[0, 0] 5 0, .copy, .call .build, .spectralNorm 2 0,
        .call (.equilibrate #[0, 0, 0] #[0, 0]),
        .balance #[1, 1, 1] #[1, 1] 5 (0 / 0),
        .call (.multiply .transposed 1 #[1, 1, 1] 0 #[0, 0])]
    input.check = .ok (.ok ())
      ∧ (∃ replies s,
        serveAll ⟨.ofInput input options, { readings := fun n => n }⟩ requests
          = .ok (replies, s))
      ∧ ∃ B, input.matrix.inOrder .row = .ok B ∧ input.matrix.Kept B := by
  intro input options requests
  have hcheck : input.check = .ok (.ok ()) := by decide +kernel
  have hmem : FitsMemory input.rows input.cols input.values.size :=
    ⟨by decide, by decide, by decide⟩
  have hfits : ∀ r ∈ requests, r.Fits input.rows input.cols := by
    intro r hr
    simp only [requests, List.mem_cons, List.not_mem_nil, or_false] at hr
    rcases hr with rfl | rfl | rfl | rfl | rfl | rfl | rfl
    · exact ⟨rfl, rfl⟩
    · trivial
    · trivial
    · trivial
    · exact ⟨rfl, rfl⟩
    · exact ⟨rfl, rfl⟩
    · exact ⟨rfl, rfl⟩
  obtain ⟨hserved, hkernels⟩ := no_violation_after_check (α := Float)
  exact ⟨hcheck, hserved input hcheck hmem _ rfl _ requests hfits,
    (hkernels input.matrix (MatrixInput.check_eq_ok_iff.mp hcheck).2 hmem).1
      .row⟩

end Session

end Equilibration
