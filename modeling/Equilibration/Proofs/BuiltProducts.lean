import Equilibration.Proofs.Building
import Equilibration.Proofs.Products
import Equilibration.SolverMatrix.Product

/-!
# BuiltProducts — products of a built matrix

A built matrix multiplies from the form that gathers, so each element of
the result is one product along a slice (`SlicedMatrix.product`). Vectors
of the right lengths are always multiplied; as an operator a built matrix
`Computes` its products and never fails.
-/

namespace Equilibration

open Checked Slices

namespace Shape

/-- The length of `x` in `op(A) * x`. -/
def domain (shape : Shape) (rows cols : Nat) : Nat :=
  match shape with
  | .normal => cols
  | .transposed => rows

/-- The length of `op(A) * x`. -/
def codomain (shape : Shape) (rows cols : Nat) : Nat :=
  match shape with
  | .normal => rows
  | .transposed => cols

end Shape

/-- With `x` and `y` of the right lengths the operator always computes
`f shape x y`, which has the length of `y`. Only products with `a = 1` and
`b = 0` are asked of it. -/
def Operator.Computes {α : Type} [Scalar α] (A : Operator Unit α)
    (f : Shape → Array α → Array α → Array α) : Prop :=
  ∀ shape x y, x.size = shape.domain A.rows A.cols →
    y.size = shape.codomain A.rows A.cols →
    A.multiply shape 1 x 0 y () = .ok (⟨f shape x y, none⟩, ())
      ∧ (f shape x y).size = y.size

variable {α : Type}

/-- The form whose slices give the elements of a product. -/
def PairedMatrix.gathering (P : PairedMatrix α) (shape : Shape) :
    SlicedMatrix α :=
  match shape with
  | .normal => P.row
  | .transposed => P.col

variable [Scalar α]

/-- `a * op(A) * x + b * y`, slice by slice. -/
def SlicedMatrix.product (A : SlicedMatrix α) (shape : Shape) (a b : α)
    (x y : Array α) : Array α :=
  y.mapIdx fun k yk =>
    combine a b yk
      (dotOf x (((PairedMatrix.ofForm A).gathering shape).slices[k]?.getD []))

@[simp] theorem SlicedMatrix.size_product (A : SlicedMatrix α) (shape : Shape)
    (a b : α) (x y : Array α) : (A.product shape a b x y).size = y.size := by
  simp [product]

theorem SlicedMatrix.gather_eq_ok {A : SlicedMatrix α}
    (h : A.check = .ok (.ok ())) {x y : Array α} (a b : α)
    (hx : x.size = A.indexBound) (hy : y.size = A.sliceCount) :
    A.gather y x a b
      = .ok (y.mapIdx fun k yk =>
        combine a b yk (dotOf x (A.slices[k]?.getD []))) := by
  have := gather_ofSlices (fits_slices h) a b hx hy
  rwa [ofSlices_slices h] at this

/-- A product of a well-formed pair has a result. -/
theorem PairedMatrix.multiply_eq_ok {A : SlicedMatrix α}
    (h : A.check = .ok (.ok ())) (hroom : A.HasRoom) (shape : Shape)
    {x y : Array α} (a b : α) (hx : x.size = shape.domain A.rows A.cols)
    (hy : y.size = shape.codomain A.rows A.cols) :
    (ofForm A).multiply shape y x a b = .ok (A.product shape a b x y) := by
  obtain ⟨hrow, hcol⟩ := check_forms h hroom
  obtain ⟨horow, hocol, ⟨hrr, hrc⟩, hcr, hcc⟩ := dims_forms A
  cases shape
  · have hgather := SlicedMatrix.gather_eq_ok hrow a b
      (by rw [hx, SlicedMatrix.indexBound, horow, hrr, hrc]; rfl)
      (by rw [hy, SlicedMatrix.sliceCount, horow, hrr, hrc]; rfl)
    rw [multiply, SlicedMatrix.multiply.eq_def, horow]
    exact hgather
  · have hgather := SlicedMatrix.gather_eq_ok hcol a b
      (by rw [hx, SlicedMatrix.indexBound, hocol, hcr, hcc]; rfl)
      (by rw [hy, SlicedMatrix.sliceCount, hocol, hcr, hcc]; rfl)
    rw [multiply, SlicedMatrix.multiply.eq_def, hocol]
    exact hgather

namespace SolverMatrix

variable {M : SolverMatrix α}

theorem multiply_built {P : PairedMatrix α} {shape : Shape} {a b : α}
    {x y : Array α}
    (hpair : M.pair = .ok P) (hx : x.size = shape.domain M.rows M.cols)
    (hy : y.size = shape.codomain M.rows M.cols) :
    M.multiply shape a x b y = (do
      let y ← P.multiply shape y x a b
      pure (.ok y)) := by
  unfold multiply
  rw [hpair]
  cases shape
  · have hx' : x.size = M.cols := hx
    have hy' : y.size = M.rows := hy
    simp only [require, if_pos hx', if_pos hy', ok_bind]
  · have hx' : x.size = M.rows := hx
    have hy' : y.size = M.cols := hy
    simp only [require, if_pos hx', if_pos hy', ok_bind]

/-- The matrix is built and holds both forms of `A`, which has its
dimensions. -/
structure Holds (M : SolverMatrix α) (A : SlicedMatrix α) : Prop where
  storage : M.storage = .built (.ofForm A)
  rows_eq : M.rows = A.rows
  cols_eq : M.cols = A.cols
  check : A.check = .ok (.ok ())
  room : A.HasRoom

omit [Scalar α] in
theorem Holds.pair {A : SlicedMatrix α} (hM : M.Holds A) :
    M.pair = .ok (.ofForm A) := by
  unfold SolverMatrix.pair
  rw [hM.storage]

theorem holds_of_build {input : MatrixInput α}
    (hcheck : input.check = .ok (.ok ())) (hM : M.input? = some input)
    {w : World} {out : Outcome α Unit} (h : M.build w = .ok out) :
    out.matrix.Holds input.matrix := by
  obtain ⟨hroom, rfl⟩ := (build_eq_ok_iff hM hcheck).mp h
  obtain ⟨hrows, hcols⟩ := dims_of_input hM
  exact ⟨rfl, hrows, hcols, (MatrixInput.check_eq_ok_iff.mp hcheck).2, hroom⟩

theorem Holds.build_eq {A : SlicedMatrix α} (hM : M.Holds A) {w : World}
    {out : Outcome α Unit} (h : M.build w = .ok out) : out.matrix = M := by
  have hinput : M.input? = none := by
    unfold input?
    rw [hM.storage]
  unfold build at h
  rw [hinput] at h
  cases h
  rfl

theorem Holds.multiply_eq_ok {A : SlicedMatrix α} (hM : M.Holds A)
    (shape : Shape) {x y : Array α}
    (a b : α) (hx : x.size = shape.domain M.rows M.cols)
    (hy : y.size = shape.codomain M.rows M.cols) :
    M.multiply shape a x b y = .ok (.ok (A.product shape a b x y)) := by
  rw [multiply_built hM.pair hx hy]
  rw [hM.rows_eq, hM.cols_eq] at hx hy
  rw [PairedMatrix.multiply_eq_ok hM.check hM.room shape a b hx hy]
  rfl

/-- A built matrix never fails as an operator. -/
theorem Holds.computes {A : SlicedMatrix α} (hM : M.Holds A) :
    M.operator.Computes fun shape x y => A.product shape 1 0 x y := by
  intro shape x y hx hy
  refine ⟨?_, SlicedMatrix.size_product A shape 1 0 x y⟩
  unfold operator
  dsimp only
  rw [hM.multiply_eq_ok shape 1 0 hx hy]
  rfl

end SolverMatrix

/-- A well-formed input that fits the memory can be built. -/
theorem SolverMatrix.exists_holds {β : Type} [Interchange β]
    (input : MatrixInput β) (hcheck : input.check = .ok (.ok ()))
    (hmem : FitsMemory input.rows input.cols input.values.size) :
    ∃ out, (ofInput input .standard).build { readings := fun n => n } = .ok out
      ∧ out.matrix.Holds input.matrix := by
  have hbuild := (build_eq_ok_iff (M := ofInput input .standard)
      (w := { readings := fun n => n }) rfl hcheck).mpr
    ⟨hmem.hasRoom (A := input.matrix), rfl⟩
  exact ⟨_, hbuild, holds_of_build hcheck rfl hbuild⟩

end Equilibration
