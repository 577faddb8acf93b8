import Equilibration.Checked
import Equilibration.Scalar

/-!
# Vec — dense vectors

Vectors are arrays of scalars. Two rules of this module decide the last
digits of everything built on it:

* sums of products are accumulated pairwise (`pairwiseSum`): a block of
  fewer than `blockLength` terms is added from left to right, a longer one
  is cut in half;
* extrema either let a value that is no number win (`maxAbs`) or ignore
  it (`minimum`, `maximum`, `maxAbsDiff`).
-/

namespace Equilibration.Vec

variable {α : Type} [Scalar α]

open Checked (require)

/-! ## Elementwise changes -/

/-- Sets every element to `c`. -/
def fill (x : Array α) (c : α) : Array α := x.map fun _ => c

/-- Multiplies every element by `c`. -/
def scale (x : Array α) (c : α) : Array α := x.map (· * c)

/-- Takes the square root of every element. -/
def sqrt (x : Array α) : Array α := x.map Scalar.sqrt

/-- Negates every element. -/
def negate (x : Array α) : Array α := x.map fun v => -v

/-- Replaces the elements of `x` by the images of those of `v`, as far as
`v` reaches. -/
def overwrite (f : α → α) (x v : Array α) : Array α :=
  x.mapIdx fun i xi => match v[i]? with
    | some vi => f vi
    | none => xi

/-! ## Sums of products -/

/-- Blocks shorter than this are added from left to right. -/
def blockLength : Nat := 16

/-- Adds the terms, a long block as the sum of its two halves. -/
def pairwiseSum (terms : List α) : α :=
  if _ : terms.length < blockLength then terms.foldl (· + ·) 0
  else
    pairwiseSum (terms.take (terms.length / 2))
      + pairwiseSum (terms.drop (terms.length / 2))
termination_by terms.length
decreasing_by
  all_goals
    rename_i h
    simp only [blockLength] at h
    simp only [List.length_take, List.length_drop]
    omega

/-- The products of the elements at equal positions. -/
def products (x y : Array α) : List α := List.zipWith (· * ·) x.toList y.toList

/-- The inner product of two vectors of one length. -/
def dot (x y : Array α) : Checked α := do
  require (x.size = y.size) .length
  pure (pairwiseSum (products x y))

/-- The sum of the squares of the elements. -/
def sumSquares (x : Array α) : α := pairwiseSum (products x x)

/-- The Euclidean norm. -/
def norm (x : Array α) : α := Scalar.sqrt (sumSquares x)

/-- Scales a vector to unit norm and gives the norm it had. A vector of
norm zero stays as it is. -/
def normalize (x : Array α) : α × Array α :=
  let length := norm x
  if length == 0 then (0, x) else (length, scale x (Scalar.recip length))

/-! ## Extrema -/

/-- The largest magnitude, zero for the empty vector; no number as soon as
some element is none. -/
def maxAbs (x : Array α) : α :=
  if x.any fun v => Scalar.isNaN (Scalar.abs v) then Scalar.nan
  else x.foldl (fun out v => if out < Scalar.abs v then Scalar.abs v else out) 0

/-- The largest magnitude of a difference, as far as both vectors reach.
Differences that are no number are ignored. -/
def maxAbsDiff (x y : Array α) : α :=
  (List.zipWith (fun a b => Scalar.abs (a - b)) x.toList y.toList).foldl
    Scalar.max 0

/-- The smallest element, infinity if there is none. -/
def minimum (x : Array α) : α := x.foldl Scalar.min Scalar.infinity

/-- The largest element, minus infinity if there is none. -/
def maximum (x : Array α) : α := x.foldl Scalar.max (-Scalar.infinity)

/-! ## Sizes and elements -/

omit [Scalar α] in
@[simp] theorem size_fill (x : Array α) (c : α) : (fill x c).size = x.size := by
  simp [fill]

@[simp] theorem size_scale (x : Array α) (c : α) :
    (scale x c).size = x.size := by simp [scale]

@[simp] theorem size_sqrt (x : Array α) : (sqrt x).size = x.size := by
  simp [sqrt]

@[simp] theorem size_negate (x : Array α) : (negate x).size = x.size := by
  simp [negate]

omit [Scalar α] in
@[simp] theorem size_overwrite (f : α → α) (x v : Array α) :
    (overwrite f x v).size = x.size := by simp [overwrite]

omit [Scalar α] in
theorem getD_mem {x : Array α} {i : Nat} (h : i < x.size) (default : α) :
    x.getD i default ∈ x := by
  rw [Array.getD, dif_pos h]
  exact Array.getElem_mem h

end Equilibration.Vec
