import Mathlib.Algebra.BigOperators.Fin
import Mathlib.Algebra.BigOperators.Intervals
import Equilibration.Proofs.BuiltProducts

/-!
# DenseProducts — one formula for all products

Read off the arrays, a compressed matrix is a function from positions to
numbers: the entry of a position is the sum of the values between the
pointers of its slice that carry its index (`denseEntry`). Every product of
the library is the textbook product with that function, whichever kernel
computes it.

The gathering kernel adds up slice by slice, which is the formula with the
sum over a slice sorted by index. The scattering kernel is the same formula
on the transposed slices, since an element of its result receives exactly
the products of the entries of its index.
-/

namespace Equilibration

open Checked Slices

namespace Shape

/-- The entries of `op(A)`. -/
def entryOf {β : Type} (shape : Shape) (entry : Nat → Nat → β)
    (i j : Nat) : β :=
  match shape with
  | .normal => entry i j
  | .transposed => entry j i

end Shape

variable {α : Type} [ExactRing α]

/-- The entry of a position, read off three arrays. Values that are stored
for one position add up. -/
def denseEntry (order : StorageOrder) (starts indices : Array Nat)
    (values : Array α) (row col : Nat) : α :=
  let (k, j) := order.locate row col
  ∑ p ∈ Finset.Ico (starts.getD k 0) (starts.getD (k + 1) 0),
    if indices.getD p 0 = j then values.getD p 0 else 0

/-- `a * A * x + b * y` for the matrix of a function. -/
def denseProduct (entry : Nat → Nat → α) (a b : α) (x y : Array α) : Array α :=
  y.mapIdx fun i yi =>
    a * ∑ j ∈ Finset.range x.size, entry i j * x.getD j 0 + b * yi

theorem denseProduct_congr {entry entry' : Nat → Nat → α} {a b : α}
    {x y : Array α}
    (h : ∀ i, i < y.size → ∀ j, j < x.size → entry i j = entry' i j) :
    denseProduct entry a b x y = denseProduct entry' a b x y := by
  apply Array.ext
  · simp [denseProduct]
  · intro i hi hi'
    have hiy : i < y.size := by simpa [denseProduct] using hi
    simp only [denseProduct, Array.getElem_mapIdx]
    rw [Finset.sum_congr rfl
      fun j hj => by rw [h i hiy j (Finset.mem_range.mp hj)]]

namespace SlicedMatrix

/-- The entry of a position. -/
def coefficient (A : SlicedMatrix α) : Nat → Nat → α :=
  denseEntry A.order A.starts A.indices A.values

/-! ## Entries and slices -/

theorem sum_valuesOf (s : List (Nat × α)) (j : Nat) :
    (valuesOf s j).sum = (s.map fun e => if e.1 = j then e.2 else 0).sum := by
  induction s with
  | nil => rfl
  | cons e s ih =>
    rw [valuesOf_cons, List.map_cons, List.sum_cons, ← ih]
    by_cases h : e.1 = j
    · rw [if_pos h, if_pos h, List.sum_cons]
    · rw [if_neg h, if_neg h, zero_add]

theorem sum_slice_ofSlices (order : StorageOrder) (rows cols : Nat)
    {ss : Slices α} {k : Nat} (hk : k < ss.length) (j : Nat) :
    (∑ p ∈ Finset.Ico ((ofSlices order rows cols ss).starts.getD k 0)
        ((ofSlices order rows cols ss).starts.getD (k + 1) 0),
      if (ofSlices order rows cols ss).indices.getD p 0 = j
      then (ofSlices order rows cols ss).values.getD p 0 else 0)
    = (ss.valuesAt k j).sum := by
  have hlen : ss.start (k + 1) - ss.start k = ss[k].length := by
    rw [start_succ ss hk, Nat.add_sub_cancel_left]
  rw [Array.getD_eq_getD_getElem?, Array.getD_eq_getD_getElem?,
    getElem?_starts_ofSlices (Nat.le_of_lt hk), getElem?_starts_ofSlices hk,
    Option.getD_some, Option.getD_some, Finset.sum_Ico_eq_sum_range, hlen,
    Finset.sum_range, Slices.valuesAt, List.getElem?_eq_getElem hk,
    Option.getD_some, sum_valuesOf, ← Fin.sum_univ_fun_getElem]
  apply Finset.sum_congr rfl
  intro p _
  have hget := ss.getElem?_flatten hk p.isLt
  simp [ofSlices, -List.map_flatten, hget]

variable {A : SlicedMatrix α} (h : A.check = .ok (.ok ()))

include h

/-- The entry of a position is the sum of the values stored for it. -/
theorem coefficient_eq {row col : Nat} (hrow : row < A.rows)
    (hcol : col < A.cols) :
    A.coefficient row col = (A.valuesAt row col).sum := by
  have hk : (A.order.locate row col).1 < A.slices.length := by
    rw [(fits_slices h).length_eq, sliceCount]
    cases A.order
    · exact hrow
    · exact hcol
  have hsum := sum_slice_ofSlices A.order A.rows A.cols hk
    (A.order.locate row col).2
  rwa [ofSlices_slices h] at hsum

/-! ## The two kernels -/

theorem gather_eq_dense {x y : Array α} (a b : α) (hx : x.size = A.indexBound)
    (hy : y.size = A.sliceCount) :
    A.gather y x a b
      = .ok
        (denseProduct (fun k j => (A.slices.valuesAt k j).sum) a b x y) := by
  have hgather := gather_ofSlices (fits_slices h) a b hx hy
  rw [ofSlices_slices h] at hgather
  rw [hgather]
  congr 1
  apply Array.ext
  · simp [denseProduct]
  · intro k hk hk'
    simp only [denseProduct, Array.getElem_mapIdx, combine_eq, Slices.valuesAt]
    rw [dotOf_eq_sum]
    intro e he
    have hky : k < A.slices.length := by
      rw [(fits_slices h).length_eq, ← hy]
      simpa using hk
    rw [List.getElem?_eq_getElem hky, Option.getD_some] at he
    rw [hx]
    exact (fits_slices h).index_lt _ (List.getElem_mem hky) e he

theorem scatter_eq_dense {x y : Array α} (a b : α) (hx : x.size = A.sliceCount)
    (hy : y.size = A.indexBound) :
    A.scatter y x a b
      = .ok
        (denseProduct (fun j k => (A.slices.valuesAt k j).sum) a b x y) := by
  have hfits := fits_slices h
  have hscatter := scatter_ofSlices hfits a b hx hy
  rw [ofSlices_slices h] at hscatter
  rw [hscatter]
  congr 1
  apply Array.ext_getElem?
  intro i
  -- element `i` receives a product along slice `i` of the transposed slices
  have hbucket : i < y.size → dotOf x (bucket A.slices.cells i)
      = ∑ k ∈ Finset.range x.size, (A.slices.valuesAt k i).sum
        * x.getD k 0 := by
    intro hi
    have hslice := getElem?_transposed A.slices (hy ▸ hi)
    rw [dotOf_eq_sum]
    · apply Finset.sum_congr rfl
      intro k _
      rw [← hfits.valuesAt_transposed, Slices.valuesAt, hslice,
        Option.getD_some]
    · intro e he
      rw [hx, ← hfits.length_eq]
      exact (fits_transposed A.slices A.indexBound).index_lt _
        (List.mem_of_getElem? hslice) e he
  have hentry :
      (denseProduct (fun j k => (A.slices.valuesAt k j).sum) a b x y)[i]?
        = y[i]?.map fun yi =>
        a * ∑ k ∈ Finset.range x.size, (A.slices.valuesAt k i).sum * x.getD k 0
          + b * yi := by
    rw [denseProduct, Array.getElem?_mapIdx]
  rw [hentry]
  split
  · next ha =>
    -- with `a = 0` the kernel stops after the first step
    rw [eq_of_beq ha, getElem?_prescale]
    simp only [zero_mul, zero_add]
  · rw [getElem?_foldl_addTo, getElem?_prescale, Option.map_map]
    by_cases hi : i < y.size
    · rw [hbucket hi, Array.getElem?_eq_getElem hi, Option.map_some,
        Option.map_some, Function.comp_apply, add_comm]
    · rw [Array.getElem?_eq_none (Nat.le_of_not_lt hi), Option.map_none,
        Option.map_none]

/-- A product is the textbook product, whichever kernel computes it. -/
theorem multiply_eq_ok (shape : Shape) {x y : Array α} (a b : α)
    (hx : x.size = shape.domain A.rows A.cols)
    (hy : y.size = shape.codomain A.rows A.cols) :
    A.multiply shape y x a b
      = .ok (denseProduct (shape.entryOf A.coefficient) a b x y) := by
  have hcoefficient : ∀ i, i < y.size → ∀ j, j < x.size →
      shape.entryOf A.coefficient i j = (shape.entryOf A.valuesAt i j).sum := by
    intro i hi j hj
    rw [hx] at hj
    rw [hy] at hi
    cases shape
    · exact coefficient_eq h hi hj
    · exact coefficient_eq h hj hi
  rw [denseProduct_congr hcoefficient]
  unfold multiply SlicedMatrix.valuesAt
  cases horder : A.order <;> cases shape
  · exact gather_eq_dense h a b (by rw [hx, indexBound, horder]; rfl)
      (by rw [hy, sliceCount, horder]; rfl)
  · exact scatter_eq_dense h a b (by rw [hx, sliceCount, horder]; rfl)
      (by rw [hy, indexBound, horder]; rfl)
  · exact scatter_eq_dense h a b (by rw [hx, sliceCount, horder]; rfl)
      (by rw [hy, indexBound, horder]; rfl)
  · exact gather_eq_dense h a b (by rw [hx, indexBound, horder]; rfl)
      (by rw [hy, sliceCount, horder]; rfl)

/-- Both storage orders hold the same entries. -/
theorem coefficient_flipped (hroom : A.HasRoom) {row col : Nat}
    (hrow : row < A.rows) (hcol : col < A.cols) :
    A.flipped.coefficient row col = A.coefficient row col := by
  rw [coefficient_eq (check_flipped h hroom) hrow hcol,
    coefficient_eq h hrow hcol, valuesAt_flipped h]

theorem multiply_flipped (hroom : A.HasRoom) (shape : Shape) {x y : Array α}
    (a b : α) (hx : x.size = shape.domain A.rows A.cols)
    (hy : y.size = shape.codomain A.rows A.cols) :
    A.flipped.multiply shape y x a b = A.multiply shape y x a b := by
  have hentries : ∀ i, i < y.size → ∀ j, j < x.size →
      shape.entryOf A.flipped.coefficient i j
        = shape.entryOf A.coefficient i j := by
    intro i hi j hj
    rw [hy] at hi
    rw [hx] at hj
    cases shape
    · exact coefficient_flipped h hroom hi hj
    · exact coefficient_flipped h hroom hj hi
  rw [multiply_eq_ok (check_flipped h hroom) shape a b hx hy,
    multiply_eq_ok h shape a b hx hy, denseProduct_congr hentries]

end SlicedMatrix

/-! ## A built matrix -/

/-- The entry of a position, read off the arrays of the caller. -/
def MatrixInput.coefficient (input : MatrixInput α) : Nat → Nat → α :=
  denseEntry input.order input.starts input.indices input.values

theorem PairedMatrix.multiply_ofForm {A : SlicedMatrix α}
    (h : A.check = .ok (.ok ())) (hroom : A.HasRoom) (shape : Shape)
    {x y : Array α} (a b : α) (hx : x.size = shape.domain A.rows A.cols)
    (hy : y.size = shape.codomain A.rows A.cols) :
    (ofForm A).multiply shape y x a b
      = .ok (denseProduct (shape.entryOf A.coefficient) a b x y) := by
  rw [← SlicedMatrix.multiply_eq_ok h shape a b hx hy]
  -- one of the two forms is `A`, the other one is flipped
  cases horder : A.order
  · rw [ofForm_row horder]
    cases shape
    · rfl
    · exact SlicedMatrix.multiply_flipped h hroom .transposed a b hx hy
  · rw [ofForm_col horder]
    cases shape
    · exact SlicedMatrix.multiply_flipped h hroom .normal a b hx hy
    · rfl

namespace SolverMatrix

/-- **All products compute one formula.** A well-formed matrix can be
multiplied in either storage order, as it is or transposed, and a matrix
that was built from well-formed arrays computes the same: every element of
the result is `a` times the sum of entries times elements of `x`, plus `b`
times the old element. The entries are read off the arrays, where repeated
positions add up. -/
theorem products_are_dense :
    (∀ A : SlicedMatrix α, A.check = .ok (.ok ()) →
      (FitsMemory A.rows A.cols A.values.size → ∀ o, ∃ B, A.inOrder o = .ok B)
        ∧ ∀ o B, A.inOrder o = .ok B →
          ∀ (shape : Shape) (a b : α) (x y : Array α),
          x.size = shape.domain A.rows A.cols →
          y.size = shape.codomain A.rows A.cols →
            B.multiply shape y x a b
              = .ok (denseProduct (shape.entryOf A.coefficient) a b x y))
    ∧ ∀ (M : SolverMatrix α) (input : MatrixInput α) (w : World),
      M.input? = some input → input.check = .ok (.ok ()) →
        (FitsMemory input.rows input.cols input.values.size →
          ∃ out, M.build w = .ok out)
          ∧ ∀ out, M.build w = .ok out → out.result = .ok ()
            ∧ ∀ (shape : Shape) (a b : α) (x y : Array α),
              x.size = shape.domain input.rows input.cols →
              y.size = shape.codomain input.rows input.cols →
                out.matrix.multiply shape a x b y
                  = .ok (.ok (denseProduct
                    (shape.entryOf input.coefficient) a b x y)) := by
  constructor
  · -- a matrix in either order
    intro A h
    constructor
    · intro hmem o
      by_cases ho : o = A.order
      · exact ⟨A, if_pos ho⟩
      · rw [A.order.eq_flip_of_ne ho]
        exact ⟨A.flipped, SlicedMatrix.inOrder_flip h hmem.hasRoom⟩
    · intro o B hB shape a b x y hx hy
      rw [← SlicedMatrix.multiply_eq_ok h shape a b hx hy]
      by_cases ho : o = A.order
      · rw [SlicedMatrix.inOrder, if_pos ho] at hB
        cases hB
        rfl
      · rw [A.order.eq_flip_of_ne ho] at hB
        obtain ⟨hroom, rfl⟩ := (SlicedMatrix.inOrder_flip_iff h).mp hB
        exact SlicedMatrix.multiply_flipped h hroom shape a b hx hy
  -- a matrix that was built
  intro M input w hinput hcheck
  constructor
  · intro hmem
    exact ⟨_, (build_eq_ok_iff hinput hcheck).mpr
      ⟨hmem.hasRoom (A := input.matrix), rfl⟩⟩
  · intro out hout
    obtain ⟨hroom, rfl⟩ := (build_eq_ok_iff hinput hcheck).mp hout
    refine ⟨rfl, ?_⟩
    intro shape a b x y hx hy
    have hmatrix := (MatrixInput.check_eq_ok_iff.mp hcheck).2
    have hproduct := PairedMatrix.multiply_ofForm hmatrix hroom shape a b hx hy
    obtain ⟨hrows, hcols⟩ := dims_of_input hinput
    rw [multiply_built rfl (by rw [hrows, hcols]; exact hx)
      (by rw [hrows, hcols]; exact hy), hproduct]
    rfl

/-- Integers in columns, the first one out of order and with a repeated
index: multiplied against the order of storage, and transposed once built. -/
theorem products_are_dense_repeated :
    let _ := ExactRing.ofCommRing ℤ
    let A : SlicedMatrix ℤ :=
      ⟨.col, 2, 2, #[0, 3, 4], #[1, 0, 1, 0], #[2, 3, 5, 7]⟩
    let input : MatrixInput ℤ := ⟨.col, 2, 2, 4, A.starts, A.indices, A.values⟩
    let options : Options ℤ := ⟨false, .one, .frobenius, 10, 0, 10, 0⟩
    (A.check = .ok (.ok ()) ∧ FitsMemory A.rows A.cols A.values.size
      ∧ ∃ B, A.inOrder .row = .ok B ∧ B.multiply .normal #[1, 2] #[1, 10] 2 (-1)
        = .ok (denseProduct A.coefficient 2 (-1) #[1, 10] #[1, 2]))
    ∧ input.check = .ok (.ok ())
    ∧ ∃ out, (ofInput input options).build { readings := fun n => n } = .ok out
      ∧ out.matrix.multiply .transposed 0 #[1, 10] 1 #[1, 2]
        = .ok (.ok (denseProduct
          (fun i j => input.coefficient j i) 0 1 #[1, 10] #[1, 2])) := by
  intro _ A input options
  obtain ⟨hmatrix, hbuilt⟩ := products_are_dense (α := ℤ)
  have hcheck : A.check = .ok (.ok ()) := by decide +kernel
  have hmem : FitsMemory A.rows A.cols A.values.size :=
    ⟨by decide, by decide, by decide⟩
  have hcheck' : input.check = .ok (.ok ()) := by decide +kernel
  obtain ⟨hconvert, hproducts⟩ := hmatrix A hcheck
  obtain ⟨B, hB⟩ := hconvert hmem .row
  obtain ⟨hbuild, hbuilt⟩ :=
    hbuilt (ofInput input options) input { readings := fun n => n } rfl hcheck'
  obtain ⟨out, hout⟩ := hbuild hmem
  exact ⟨⟨hcheck, hmem, B, hB, hproducts .row B hB .normal 2 (-1) _ _ rfl rfl⟩,
    hcheck', out, hout, (hbuilt out hout).2 .transposed 0 1 _ _ rfl rfl⟩

end SolverMatrix

end Equilibration
