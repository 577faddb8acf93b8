import Mathlib.Algebra.BigOperators.Ring.Finset
import Mathlib.Algebra.Order.BigOperators.Group.Finset
import Mathlib.Tactic.FieldSimp
import Equilibration.Balancing
import Equilibration.Proofs.ExactArithmetic

/-!
# ExactScalings — balancing without rounding

The iteration of balancing on the entries of a matrix, in exact arithmetic
and with a factor for every position (`Balancing.scaling`). What it does
depends on which rows and columns are empty: a sum is positive just when
its row or column has a positive entry (`Balancing.colSum_pos_iff`), and an
empty one keeps the factor one.

After an iteration each row that is not empty sums to the number of columns.
The sum of all entries is then known without the entries, which tells what
column sums a run can hope for (`Balancing.sum_relative`).
-/

namespace Equilibration.Balancing

open Finset (range mem_range)

variable {K : Type} [ExactOrderedField K]

/-! ## Factors -/

theorem factor_pos {target s : K} (h : 0 < s → 0 < target) :
    0 < factor target s := by
  unfold factor
  split
  · next hs => exact div_pos (h hs) hs
  · exact one_pos

/-- A factor for `n` terms is positive, since a sum of none is not. -/
theorem factor_sum_pos (n : Nat) (f : Nat → K) :
    0 < factor (n : K) (∑ i ∈ range n, f i) := by
  refine factor_pos fun hsum => ?_
  rcases Nat.eq_zero_or_pos n with rfl | hn
  · rw [Finset.range_zero, Finset.sum_empty] at hsum
    exact absurd hsum (lt_irrefl 0)
  · exact Nat.cast_pos.mpr hn

theorem factor_of_pos (target : K) {s : K} (h : 0 < s) :
    factor target s = target / s := if_pos h

theorem factor_zero (target : K) : factor target 0 = 1 := if_neg (lt_irrefl 0)

/-! ## Sums and scalings -/

/-- A factor for every row and every column. -/
structure Scaling (K : Type) where
  row : Nat → K
  col : Nat → K

variable (a : Nat → Nat → K) (rows cols : Nat)

/-- A column sum of the matrix with scaled rows. -/
def colSum (row : Nat → K) (j : Nat) : K := ∑ i ∈ range rows, a i j * row i

/-- A row sum of the matrix with scaled columns. -/
def rowSum (col : Nat → K) (i : Nat) : K := ∑ j ∈ range cols, a i j * col j

namespace Scaling

/-- The scaling after one more iteration. -/
def next (x : Scaling K) : Scaling K :=
  let col := fun j => factor (rows : K) (colSum a rows x.row j)
  { row := fun i => factor (cols : K) (rowSum a cols col i), col }

/-- A column sum relative to its target. -/
def relative (x : Scaling K) (j : Nat) : K :=
  x.col j * colSum a rows x.row j / rows

/-- The sums of all columns that are not empty deviate by less than the
tolerance. -/
def Close (tol : K) (x : Scaling K) : Prop :=
  0 < tol ∧ ∀ j < cols, 0 < colSum a rows x.row j →
    |x.relative a rows j - 1| < tol

/-- Two scalings have the same factors within the matrix. -/
structure Agrees (x y : Scaling K) : Prop where
  row : ∀ i < rows, x.row i = y.row i
  col : ∀ j < cols, x.col j = y.col j

end Scaling

/-- The scaling after `k` iterations. -/
def scaling : Nat → Scaling K
  | 0 => { row := fun _ => 1, col := fun _ => 1 }
  | k + 1 => (scaling k).next a rows cols

/-- No entry is negative. -/
def Nonneg : Prop := ∀ i < rows, ∀ j < cols, 0 ≤ a i j

/-- The row has a positive entry. -/
def RowOccupied (i : Nat) : Prop := ∃ j < cols, 0 < a i j

/-- The column has a positive entry. -/
def ColOccupied (j : Nat) : Prop := ∃ i < rows, 0 < a i j

instance : Decidable (Nonneg a rows cols) :=
  inferInstanceAs (Decidable (∀ i < rows, ∀ j < cols, 0 ≤ a i j))

instance (i : Nat) : Decidable (RowOccupied a cols i) :=
  inferInstanceAs (Decidable (∃ j < cols, 0 < a i j))

instance (j : Nat) : Decidable (ColOccupied a rows j) :=
  inferInstanceAs (Decidable (∃ i < rows, 0 < a i j))

instance (tol : K) (x : Scaling K) : Decidable (x.Close a rows cols tol) :=
  inferInstanceAs
    (Decidable (0 < tol ∧ ∀ j < cols, 0 < colSum a rows x.row j → _))

variable {a rows cols}

theorem colSum_congr {row row' : Nat → K} (h : ∀ i < rows, row i = row' i)
    (j : Nat) :
    colSum a rows row j = colSum a rows row' j :=
  Finset.sum_congr rfl fun i hi => by rw [h i (mem_range.mp hi)]

theorem rowSum_congr {col col' : Nat → K} (h : ∀ j < cols, col j = col' j)
    (i : Nat) :
    rowSum a cols col i = rowSum a cols col' i :=
  Finset.sum_congr rfl fun j hj => by rw [h j (mem_range.mp hj)]

theorem Scaling.Agrees.close_iff {x y : Scaling K} (h : x.Agrees rows cols y)
    (tol : K) :
    x.Close a rows cols tol ↔ y.Close a rows cols tol := by
  refine and_congr_right fun _ => forall₂_congr fun j hj => ?_
  rw [Scaling.relative, Scaling.relative, colSum_congr h.row, h.col j hj]

/-! ## Occupied rows and columns -/

theorem colSum_pos_iff (ha : Nonneg a rows cols) {row : Nat → K}
    (hrow : ∀ i < rows, 0 < row i) {j : Nat} (hj : j < cols) :
    0 < colSum a rows row j ↔ ColOccupied a rows j := by
  have hterm : ∀ i ∈ range rows, 0 ≤ a i j * row i := fun i hi =>
    mul_nonneg (ha i (mem_range.mp hi) j hj) (hrow i (mem_range.mp hi)).le
  rw [colSum, Finset.sum_pos_iff_of_nonneg hterm]
  refine exists_congr fun i => ?_
  rw [mem_range]
  refine and_congr_right fun hi => ?_
  exact mul_pos_iff_of_pos_right (hrow i hi)

/-- Row sums are column sums of the transpose. -/
theorem rowSum_pos_iff (ha : Nonneg a rows cols) {col : Nat → K}
    (hcol : ∀ j < cols, 0 < col j) {i : Nat} (hi : i < rows) :
    0 < rowSum a cols col i ↔ RowOccupied a cols i :=
  colSum_pos_iff (a := fun j i => a i j) (fun j hj i hi => ha i hi j hj) hcol hi

theorem colSum_eq_zero (ha : Nonneg a rows cols) {j : Nat} (hj : j < cols)
    (h : ¬ ColOccupied a rows j) (row : Nat → K) : colSum a rows row j = 0 := by
  refine Finset.sum_eq_zero fun i hi => ?_
  have hi := mem_range.mp hi
  rw [((ha i hi j hj).eq_of_not_lt fun hpos => h ⟨i, hi, hpos⟩).symm, zero_mul]

theorem rowSum_eq_zero (ha : Nonneg a rows cols) {i : Nat} (hi : i < rows)
    (h : ¬ RowOccupied a cols i) (col : Nat → K) : rowSum a cols col i = 0 :=
  colSum_eq_zero (a := fun j i => a i j) (fun j hj i hi => ha i hi j hj)
    hi h col

/-! ## The iteration -/

theorem col_pos (k j : Nat) : 0 < (scaling a rows cols k).col j := by
  cases k with
  | zero => exact one_pos
  | succ k => exact factor_sum_pos rows _

theorem row_pos (k i : Nat) : 0 < (scaling a rows cols k).row i := by
  cases k with
  | zero => exact one_pos
  | succ k => exact factor_sum_pos cols _

theorem colSum_scaling_pos_iff (ha : Nonneg a rows cols) (k : Nat) {j : Nat}
    (hj : j < cols) :
    0 < colSum a rows (scaling a rows cols k).row j ↔ ColOccupied a rows j :=
  colSum_pos_iff ha (fun i _ => row_pos k i) hj

theorem rowSum_scaling_pos_iff (ha : Nonneg a rows cols) (k : Nat) {i : Nat}
    (hi : i < rows) :
    0 < rowSum a cols (scaling a rows cols k).col i ↔ RowOccupied a cols i :=
  rowSum_pos_iff ha (fun j _ => col_pos k j) hi

theorem row_eq_one (ha : Nonneg a rows cols) (k : Nat) {i : Nat} (hi : i < rows)
    (h : ¬ RowOccupied a cols i) : (scaling a rows cols k).row i = 1 := by
  cases k with
  | zero => rfl
  | succ k =>
    show factor _ (rowSum a cols _ i) = 1
    rw [rowSum_eq_zero ha hi h, factor_zero]

theorem col_eq_one (ha : Nonneg a rows cols) (k : Nat) {j : Nat} (hj : j < cols)
    (h : ¬ ColOccupied a rows j) : (scaling a rows cols k).col j = 1 := by
  cases k with
  | zero => rfl
  | succ k =>
    show factor _ (colSum a rows _ j) = 1
    rw [colSum_eq_zero ha hj h, factor_zero]

/-- The entry of the scaled matrix. -/
def Scaling.entry (x : Scaling K) (a : Nat → Nat → K) (i j : Nat) : K :=
  x.row i * a i j * x.col j

theorem sum_entry_row (x : Scaling K) (a : Nat → Nat → K) (cols i : Nat) :
    ∑ j ∈ range cols, x.entry a i j = x.row i * rowSum a cols x.col i := by
  rw [rowSum, Finset.mul_sum]
  exact Finset.sum_congr rfl fun j _ => mul_assoc _ _ _

theorem sum_entry_col (x : Scaling K) (a : Nat → Nat → K) (rows j : Nat) :
    ∑ i ∈ range rows, x.entry a i j = x.col j * colSum a rows x.row j := by
  rw [colSum, Finset.mul_sum]
  refine Finset.sum_congr rfl fun i _ => ?_
  rw [Scaling.entry, mul_comm, mul_comm (x.row i)]

/-- An iteration makes the row sums exact. -/
theorem sum_row (ha : Nonneg a rows cols) (k : Nat) {i : Nat} (hi : i < rows)
    (h : RowOccupied a cols i) :
    ∑ j ∈ range cols, (scaling a rows cols (k + 1)).entry a i j = cols := by
  have hpos := (rowSum_scaling_pos_iff ha (k + 1) hi).mpr h
  rw [sum_entry_row]
  show factor _ (rowSum a cols (scaling a rows cols (k + 1)).col i) * _ = _
  rw [factor_of_pos _ hpos, div_mul_cancel₀ _ hpos.ne']

/-- What closeness says of the scaled matrix. -/
theorem abs_sum_col_sub_lt (ha : Nonneg a rows cols) {k : Nat} {tol : K}
    (hclose : (scaling a rows cols k).Close a rows cols tol) {j : Nat}
    (hj : j < cols) (h : ColOccupied a rows j) :
    |∑ i ∈ range rows, (scaling a rows cols k).entry a i j - rows|
      < tol * rows := by
  have hrows : (0 : K) < rows := by
    obtain ⟨i, hi, -⟩ := h
    exact Nat.cast_pos.mpr (Nat.zero_lt_of_lt hi)
  have hlt := hclose.2 j hj ((colSum_scaling_pos_iff ha k hj).mpr h)
  rw [sum_entry_col]
  calc |(scaling a rows cols k).col j * colSum a rows (scaling a rows cols
           k).row j - rows|
      = |(scaling a rows cols k).relative a rows j - 1| * rows := by
        rw [← abs_of_pos hrows, ← abs_mul, abs_of_pos hrows, sub_mul, one_mul,
          Scaling.relative, div_mul_cancel₀ _ hrows.ne']
    _ < tol * rows := mul_lt_mul_of_pos_right hlt hrows

/-! ## The sum of all entries -/

/-- The rows that have a positive entry. -/
def occupiedRows (a : Nat → Nat → K) (rows cols : Nat) : Finset Nat :=
  {i ∈ range rows | RowOccupied a cols i}

/-- The columns that have a positive entry. -/
def occupiedCols (a : Nat → Nat → K) (rows cols : Nat) : Finset Nat :=
  {j ∈ range cols | ColOccupied a rows j}

theorem mem_occupiedRows {i : Nat} :
    i ∈ occupiedRows a rows cols ↔ i < rows ∧ RowOccupied a cols i := by
  rw [occupiedRows, Finset.mem_filter, mem_range]

theorem mem_occupiedCols {j : Nat} :
    j ∈ occupiedCols a rows cols ↔ j < cols ∧ ColOccupied a rows j := by
  rw [occupiedCols, Finset.mem_filter, mem_range]

theorem occupiedRows_subset (a : Nat → Nat → K) (rows cols : Nat) :
    occupiedRows a rows cols ⊆ range rows := Finset.filter_subset ..

theorem occupiedCols_subset (a : Nat → Nat → K) (rows cols : Nat) :
    occupiedCols a rows cols ⊆ range cols := Finset.filter_subset ..

/-- Summed by rows and summed by columns the scaled entries are the same. -/
theorem sum_relative (ha : Nonneg a rows cols) (k : Nat) :
    (rows : K) * ∑ j ∈ occupiedCols a rows cols,
      (scaling a rows cols (k + 1)).relative a rows j
        = (occupiedRows a rows cols).card * cols := by
  set x := scaling a rows cols (k + 1) with hx
  have hbyRow : ∑ i ∈ range rows, ∑ j ∈ range cols, x.entry a i j
      = (occupiedRows a rows cols).card * cols := by
    rw [← Finset.sum_subset (occupiedRows_subset a rows cols)]
    · rw [Finset.sum_congr rfl fun i hi =>
        sum_row ha k (mem_occupiedRows.mp hi).1
          (mem_occupiedRows.mp hi).2, Finset.sum_const, nsmul_eq_mul]
    · intro i hi hnot
      have hempty : ¬ RowOccupied a cols i := fun h =>
        hnot (mem_occupiedRows.mpr ⟨mem_range.mp hi, h⟩)
      rw [sum_entry_row, rowSum_eq_zero ha (mem_range.mp hi) hempty, mul_zero]
  have hbyCol : ∑ j ∈ range cols, ∑ i ∈ range rows, x.entry a i j
      = (rows : K) * ∑ j ∈ occupiedCols a rows cols, x.relative a rows j := by
    rw [Finset.mul_sum, ← Finset.sum_subset (occupiedCols_subset a rows cols)]
    · refine Finset.sum_congr rfl fun j hj => ?_
      obtain ⟨i, hi, -⟩ := (mem_occupiedCols.mp hj).2
      have hrows : (rows : K) ≠ 0 := Nat.cast_ne_zero.mpr (Nat.ne_zero_of_lt hi)
      rw [sum_entry_col, Scaling.relative, mul_div_cancel₀ _ hrows]
    · intro j hj hnot
      have hempty : ¬ ColOccupied a rows j := fun h =>
        hnot (mem_occupiedCols.mpr ⟨mem_range.mp hj, h⟩)
      rw [sum_entry_col, colSum_eq_zero ha (mem_range.mp hj) hempty, mul_zero]
  rw [← hbyCol, Finset.sum_comm, hbyRow]

end Equilibration.Balancing
