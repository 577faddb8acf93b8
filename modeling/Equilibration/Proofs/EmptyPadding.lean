import Mathlib.Tactic.FieldSimp
import Mathlib.Tactic.Linarith
import Mathlib.Tactic.NormNum
import Mathlib.Tactic.Ring
import Equilibration.Proofs.BalancingLaw

/-!
# EmptyPadding — balancing with empty rows and columns added

Empty rows and columns take no part in the products of an iteration, and
keep the factor one. But they count: the targets of the sums are the full
dimensions, so adding `p` rows and `q` columns moves the row target from `n`
to `n + q` and the column target from `m` to `m + p`. Where the two grow in
the same ratio the padded run has the same column sums relative to their
target, and the same verdict after each iteration. Otherwise every relative
column sum is off by the factor `skew`, which no iteration takes away
(`Pads.relative_eq`): a padded run can still converge only where the
tolerance is wide enough for both (`Pads.ratio_of_close`).
-/

namespace Equilibration

open Checked

namespace Balancing

open Finset (range mem_range)

variable {K : Type} [ExactOrderedField K]

/-- The entries `a'` are the entries `a` with empty rows and columns added
below and to the right. -/
structure Pads (a : Nat → Nat → K) (rows cols : Nat) (a' : Nat → Nat → K)
    (rows' cols' : Nat) :
    Prop where
  rows_le : rows ≤ rows'
  cols_le : cols ≤ cols'
  entry : ∀ i < rows', ∀ j < cols',
      a' i j = if i < rows ∧ j < cols then a i j else 0

/-- By how much the ratio of the columns to the rows grows. -/
def skew (K : Type) [ExactOrderedField K] (rows cols rows' cols' : Nat) : K :=
  (rows * cols') / (rows' * cols)

namespace Pads

variable {a a' : Nat → Nat → K} {rows cols rows' cols' : Nat}

/-! ## What is kept and what is added -/

section Entries

variable (h : Pads a rows cols a' rows' cols')

include h

theorem kept {i j : Nat} (hi : i < rows) (hj : j < cols) : a' i j = a i j := by
  rw [h.entry i (hi.trans_le h.rows_le) j (hj.trans_le h.cols_le),
    if_pos ⟨hi, hj⟩]

theorem added {i j : Nat} (hi : i < rows') (hj : j < cols')
    (hnew : rows ≤ i ∨ cols ≤ j) :
    a' i j = 0 := by
  rw [h.entry i hi j hj, if_neg]
  omega

theorem nonneg (ha : Nonneg a rows cols) : Nonneg a' rows' cols' := by
  intro i hi j hj
  rw [h.entry i hi j hj]
  split
  · next hij => exact ha i hij.1 j hij.2
  · exact le_rfl

theorem not_rowOccupied {i : Nat} (hi : i < rows') (hnew : rows ≤ i) :
    ¬ RowOccupied a' cols' i := by
  rintro ⟨j, hj, hpos⟩
  exact hpos.ne' (h.added hi hj (.inl hnew))

theorem not_colOccupied {j : Nat} (hj : j < cols') (hnew : cols ≤ j) :
    ¬ ColOccupied a' rows' j := by
  rintro ⟨i, hi, hpos⟩
  exact hpos.ne' (h.added hi hj (.inr hnew))

/-- The added rows do not count in a column sum. -/
theorem colSum_eq (row : Nat → K) {j : Nat} (hj : j < cols) :
    colSum a' rows' row j = colSum a rows row j := by
  have hj' := hj.trans_le h.cols_le
  rw [colSum, colSum, ← Finset.sum_subset (Finset.range_mono h.rows_le)]
  · exact Finset.sum_congr rfl fun i hi => by rw [h.kept (mem_range.mp hi) hj]
  · intro i hi hnew
    rw [h.added (mem_range.mp hi) hj' (.inl (by simpa using hnew)), zero_mul]

theorem rowSum_eq (col : Nat → K) {i : Nat} (hi : i < rows) :
    rowSum a' cols' col i = rowSum a cols col i := by
  have hi' := hi.trans_le h.rows_le
  rw [rowSum, rowSum, ← Finset.sum_subset (Finset.range_mono h.cols_le)]
  · exact Finset.sum_congr rfl fun j hj => by rw [h.kept hi (mem_range.mp hj)]
  · intro j hj hnew
    rw [h.added hi' (mem_range.mp hj) (.inr (by simpa using hnew)), zero_mul]

/-- No column that was added is judged. -/
theorem close_iff (ha : Nonneg a rows cols) (tol : K) (x : Scaling K) :
    x.Close a' rows' cols' tol
      ↔ 0 < tol ∧ ∀ j < cols, 0 < colSum a rows x.row j →
      |x.relative a' rows' j - 1| < tol := by
  refine and_congr_right fun _ =>
    ⟨fun hclose j hj hpos => ?_, fun hclose j hj hpos => ?_⟩
  · exact hclose j (hj.trans_le h.cols_le) (by rwa [h.colSum_eq x.row hj])
  · by_cases hnew : cols ≤ j
    · rw [colSum_eq_zero (h.nonneg ha) hj (h.not_colOccupied hj hnew)] at hpos
      exact absurd hpos (lt_irrefl 0)
    · have hj' := Nat.lt_of_not_le hnew
      exact hclose j hj' (by rwa [← h.colSum_eq x.row hj'])

end Entries

/-! ## The padded iteration -/

section Iteration

variable (h : Pads a rows cols a' rows' cols') (ha : Nonneg a rows cols)
  (hrows : 0 < rows) (hcols : 0 < cols)

include h hrows hcols

theorem skew_mul :
    skew K rows cols rows' cols' * (rows' * cols) = rows * cols' := by
  have hm' : (rows' : K) ≠ 0 :=
    Nat.cast_ne_zero.mpr (hrows.trans_le h.rows_le).ne'
  have hn : (cols : K) ≠ 0 := Nat.cast_ne_zero.mpr hcols.ne'
  rw [skew]
  field_simp

theorem skew_pos : 0 < skew K rows cols rows' cols' := by
  have hrows' : (0 : K) < rows' := Nat.cast_pos.mpr (hrows.trans_le h.rows_le)
  have hcols' : (0 : K) < cols' := Nat.cast_pos.mpr (hcols.trans_le h.cols_le)
  have hm : (0 : K) < rows := Nat.cast_pos.mpr hrows
  have hn : (0 : K) < cols := Nat.cast_pos.mpr hcols
  exact div_pos (mul_pos hm hcols') (mul_pos hrows' hn)

include ha

/-- The column factors follow from the column sums before them. -/
theorem col_eq {k : Nat} {j : Nat} (hj : j < cols) (hocc : ColOccupied a rows j)
    (hsum : colSum a' rows' (scaling a' rows' cols' k).row j
      = skew K rows cols rows' cols' ^ k * colSum a rows
      (scaling a rows cols k).row j) :
    (scaling a' rows' cols' (k + 1)).col j
      = rows' / (rows * skew K rows cols rows' cols' ^ k)
        * (scaling a rows cols (k + 1)).col j := by
  have hpos := (colSum_scaling_pos_iff ha k hj).mpr hocc
  have hskew := pow_pos (h.skew_pos hrows hcols) k
  have hm : (rows : K) ≠ 0 := Nat.cast_ne_zero.mpr hrows.ne'
  show factor (rows' : K) (colSum a' rows' (scaling a' rows' cols' k).row j)
    = _ * factor (rows : K) (colSum a rows (scaling a rows cols k).row j)
  rw [hsum, factor_of_pos _ (mul_pos hskew hpos), factor_of_pos _ hpos]
  field_simp

/-- The row factors follow from the column factors before them. -/
theorem row_eq {k : Nat} {i : Nat} (hi : i < rows) (hocc : RowOccupied a cols i)
    (hcol : ∀ j < cols, ColOccupied a rows j →
      (scaling a' rows' cols' (k + 1)).col j
      = rows' / (rows * skew K rows cols rows' cols' ^ k)
      * (scaling a rows cols (k + 1)).col j) :
    (scaling a' rows' cols' (k + 1)).row i
      = skew K rows cols rows' cols' ^ (k + 1)
        * (scaling a rows cols (k + 1)).row i := by
  have hpos := (rowSum_scaling_pos_iff ha (k + 1) hi).mpr hocc
  have hskew := h.skew_pos hrows hcols
  have hm : (0 : K) < rows := Nat.cast_pos.mpr hrows
  have hn : (0 : K) < cols := Nat.cast_pos.mpr hcols
  have hm' : (0 : K) < rows' := Nat.cast_pos.mpr (hrows.trans_le h.rows_le)
  have hsum : rowSum a' cols' (scaling a' rows' cols' (k + 1)).col i
      = rows' / (rows * skew K rows cols rows' cols' ^ k)
        * rowSum a cols (scaling a rows cols (k + 1)).col i := by
    rw [h.rowSum_eq _ hi, rowSum, rowSum, Finset.mul_sum]
    refine Finset.sum_congr rfl fun j hj => ?_
    have hj := mem_range.mp hj
    by_cases hoccj : ColOccupied a rows j
    · rw [hcol j hj hoccj]
      ring
    · -- the factors may differ where there is no entry
      have hzero : a i j = 0 :=
        ((ha i hi j hj).eq_of_not_lt fun hij => hoccj ⟨i, hi, hij⟩).symm
      rw [hzero, zero_mul, zero_mul, mul_zero]
  have hratio := div_pos hm' (mul_pos hm (pow_pos hskew k))
  show factor (cols' : K)
    (rowSum a' cols' (scaling a' rows' cols' (k + 1)).col i)
    = _ * factor (cols : K) (rowSum a cols (scaling a rows cols (k + 1)).col i)
  rw [hsum, factor_of_pos _ (mul_pos hratio hpos), factor_of_pos _ hpos,
    pow_succ]
  have hmul := h.skew_mul hrows hcols
  generalize skew K rows cols rows' cols' = c at hskew hmul ⊢
  field_simp
  rw [mul_comm (cols' : K), ← hmul]
  ring

/-- After `k` iterations the column sums of the padded matrix are off by the
skew to the power of `k`. -/
theorem colSum_scaling (k : Nat) {j : Nat} (hj : j < cols) :
    colSum a' rows' (scaling a' rows' cols' k).row j
      = skew K rows cols rows' cols' ^ k
        * colSum a rows (scaling a rows cols k).row j := by
  induction k generalizing j with
  | zero =>
    rw [pow_zero, one_mul]
    exact h.colSum_eq _ hj
  | succ k ih =>
    rw [h.colSum_eq _ hj, colSum, colSum, Finset.mul_sum]
    refine Finset.sum_congr rfl fun i hi => ?_
    have hi := mem_range.mp hi
    by_cases hocc : RowOccupied a cols i
    · rw [h.row_eq ha hrows hcols hi hocc fun j hj hoccj =>
        h.col_eq ha hrows hcols hj hoccj (ih hj)]
      ring
    · have hzero : a i j = 0 :=
        ((ha i hi j hj).eq_of_not_lt fun hij => hocc ⟨j, hj, hij⟩).symm
      rw [hzero, zero_mul, zero_mul, mul_zero]

/-- Relative to their targets they are off by the skew, once and for all. -/
theorem relative_eq (k : Nat) {j : Nat} (hj : j < cols)
    (hocc : ColOccupied a rows j) :
    (scaling a' rows' cols' (k + 1)).relative a' rows' j
      = skew K rows cols rows' cols'
        * (scaling a rows cols (k + 1)).relative a rows j := by
  have hskew := (h.skew_pos hrows hcols).ne'
  have hm : (rows : K) ≠ 0 := Nat.cast_ne_zero.mpr hrows.ne'
  have hm' : (rows' : K) ≠ 0 :=
    Nat.cast_ne_zero.mpr (hrows.trans_le h.rows_le).ne'
  rw [Scaling.relative, Scaling.relative,
    h.colSum_scaling ha hrows hcols (k + 1) hj, h.col_eq ha hrows hcols hj hocc
      (h.colSum_scaling ha hrows hcols k hj), pow_succ]
  field_simp

end Iteration

/-! ## The verdict -/

section Verdict

variable (h : Pads a rows cols a' rows' cols') (ha : Nonneg a rows cols)

include h ha

/-- In the same ratio of the dimensions the verdict is the same. -/
theorem close_iff_of_ratio (hratio : rows' * cols = rows * cols') {k : Nat}
    (hk : 0 < k) (tol : K) :
    (scaling a' rows' cols' k).Close a' rows' cols' tol
      ↔ (scaling a rows cols k).Close a rows cols tol := by
  obtain ⟨k, rfl⟩ := Nat.exists_eq_succ_of_ne_zero hk.ne'
  rw [h.close_iff ha]
  refine and_congr_right fun _ => forall₂_congr fun j hj => ?_
  have hoccupied : 0 < colSum a rows (scaling a' rows' cols' (k + 1)).row j
      ↔ ColOccupied a rows j :=
    colSum_pos_iff ha (fun i _ => row_pos _ i) hj
  rw [Nat.succ_eq_add_one, hoccupied, colSum_scaling_pos_iff ha (k + 1) hj]
  refine forall_congr' fun hocc => ?_
  have hrows : 0 < rows := hocc.elim fun i hi => Nat.zero_lt_of_lt hi.1
  have hcols : 0 < cols := Nat.zero_lt_of_lt hj
  have hm' : (rows' : K) ≠ 0 :=
    Nat.cast_ne_zero.mpr (hrows.trans_le h.rows_le).ne'
  have hn : (cols : K) ≠ 0 := Nat.cast_ne_zero.mpr hcols.ne'
  have hskew : skew K rows cols rows' cols' = 1 := by
    rw [skew, div_eq_one_iff_eq (mul_ne_zero hm' hn)]
    exact_mod_cast hratio.symm
  rw [h.relative_eq ha hrows hcols k hj hocc, hskew, one_mul]

/-- A matrix without entries has no column to judge. -/
theorem close_iff_of_zero (hzero : ∀ i < rows, ∀ j < cols, a i j = 0) (tol : K)
    (x y : Scaling K) :
    x.Close a' rows' cols' tol ↔ y.Close a rows cols tol := by
  have hnone : ∀ (x : Scaling K), ∀ j < cols, ¬ 0 < colSum a rows x.row j :=
    fun x j hj hpos => by
    have hempty : ¬ ColOccupied a rows j :=
      fun ⟨i, hi, hij⟩ => hij.ne' (hzero i hi j hj)
    rw [colSum_eq_zero ha hj hempty] at hpos
    exact lt_irrefl 0 hpos
  rw [h.close_iff ha]
  exact and_congr_right fun _ =>
    ⟨fun _ j hj hpos => absurd hpos (hnone y j hj), fun _ j hj hpos =>
      absurd hpos (hnone x j hj)⟩

end Verdict

/-- Of a sum of relative column sums that are all close to one. -/
theorem sum_bounds {s : Finset Nat} (hs : s.Nonempty) {f : Nat → K} {tol : K}
    (hf : ∀ j ∈ s, |f j - 1| < tol) :
    s.card * (1 - tol) < ∑ j ∈ s, f j ∧ ∑ j ∈ s, f j < s.card * (1 + tol) := by
  have hbounds : ∀ j ∈ s, 1 - tol < f j ∧ f j < 1 + tol := fun j hj => by
    obtain ⟨hlow, hhigh⟩ := abs_lt.mp (hf j hj)
    constructor <;> linarith
  rw [← nsmul_eq_mul, ← nsmul_eq_mul, ← Finset.sum_const, ← Finset.sum_const]
  exact ⟨Finset.sum_lt_sum_of_nonempty hs fun j hj => (hbounds j hj).1,
    Finset.sum_lt_sum_of_nonempty hs fun j hj => (hbounds j hj).2⟩

/-- The sum of the relative column sums is the same after each iteration, so
a matrix and a padded one can both come close, after whatever numbers of
iterations, only if the tolerance covers the skew. -/
theorem skew_of_close (h : Pads a rows cols a' rows' cols')
    (ha : Nonneg a rows cols) (hentry : ∃ i < rows, ∃ j < cols, 0 < a i j)
    {k l : Nat} (hk : 0 < k) (hl : 0 < l) {tol : K}
    (hclose : (scaling a rows cols k).Close a rows cols tol)
    (hclose' : (scaling a' rows' cols' l).Close a' rows' cols' tol) :
    1 - tol < skew K rows cols rows' cols' * (1 + tol)
      ∧ skew K rows cols rows' cols' * (1 - tol) < 1 + tol := by
  obtain ⟨i, hi, j, hj, hij⟩ := hentry
  have hrows : 0 < rows := Nat.zero_lt_of_lt hi
  have hcols : 0 < cols := Nat.zero_lt_of_lt hj
  obtain ⟨k, rfl⟩ := Nat.exists_eq_succ_of_ne_zero hk.ne'
  obtain ⟨l, rfl⟩ := Nat.exists_eq_succ_of_ne_zero hl.ne'
  have hnonempty : (occupiedCols a rows cols).Nonempty :=
    ⟨j, mem_occupiedCols.mpr ⟨hj, i, hi, hij⟩⟩
  have hcard : (0 : K) < (occupiedCols a rows cols).card :=
    Nat.cast_pos.mpr hnonempty.card_pos
  have hskew := h.skew_pos hrows hcols
  -- the two sums of relative column sums, which differ by the skew
  obtain ⟨hlow, hhigh⟩ := sum_bounds hnonempty fun j hj => by
    obtain ⟨hj, hocc⟩ := mem_occupiedCols.mp hj
    exact hclose.2 j hj ((colSum_scaling_pos_iff ha _ hj).mpr hocc)
  obtain ⟨hlow', hhigh'⟩ := sum_bounds hnonempty fun j hj => by
    obtain ⟨hj, hocc⟩ := mem_occupiedCols.mp hj
    have := ((h.close_iff ha tol _).mp hclose').2 j hj
      ((colSum_pos_iff ha (fun i _ => row_pos _ i) hj).mpr hocc)
    rwa [Nat.succ_eq_add_one, h.relative_eq ha hrows hcols l hj hocc] at this
  have hsame :
      ∑ j ∈ occupiedCols a rows cols,
        (scaling a rows cols (l + 1)).relative a rows j
      = ∑ j ∈ occupiedCols a rows cols,
        (scaling a rows cols (k + 1)).relative a rows j :=
    mul_left_cancel₀ (Nat.cast_pos.mpr hrows : (0 : K) < rows).ne'
      ((sum_relative ha l).trans (sum_relative ha k).symm)
  rw [← Finset.mul_sum, hsame] at hlow' hhigh'
  constructor
  · refine lt_of_mul_lt_mul_left ?_ hcard.le
    calc ((occupiedCols a rows cols).card : K) * (1 - tol)
        < skew K rows cols rows' cols' * _ := hlow'
      _ < skew K rows cols rows' cols'
          * ((occupiedCols a rows cols).card * (1 + tol)) :=
          mul_lt_mul_of_pos_left hhigh hskew
      _ = _ := by ring
  · refine lt_of_mul_lt_mul_left ?_ hcard.le
    calc ((occupiedCols a rows cols).card : K)
           * (skew K rows cols rows' cols' * (1 - tol))
        = skew K rows cols rows' cols'
          * ((occupiedCols a rows cols).card * (1 - tol)) := by ring
      _ < skew K rows cols rows' cols' * _ := mul_lt_mul_of_pos_left hlow hskew
      _ < _ := hhigh'

/-- **Close on both sides.** In terms of the dimensions: the ratios of the two
shapes differ by no more than the tolerance. -/
theorem ratio_of_close (h : Pads a rows cols a' rows' cols')
    (ha : Nonneg a rows cols) (hentry : ∃ i < rows, ∃ j < cols, 0 < a i j)
    {k l : Nat} (hk : 0 < k) (hl : 0 < l) {tol : K}
    (hclose : (scaling a rows cols k).Close a rows cols tol)
    (hclose' : (scaling a' rows' cols' l).Close a' rows' cols' tol) :
    (1 - tol) * (rows' * cols) < (1 + tol) * (rows * cols')
      ∧ (1 - tol) * (rows * cols') < (1 + tol) * (rows' * cols) := by
  obtain ⟨hlower, hupper⟩ := h.skew_of_close ha hentry hk hl hclose hclose'
  obtain ⟨i, hi, j, hj, -⟩ := hentry
  have hrows : 0 < rows := Nat.zero_lt_of_lt hi
  have hcols : 0 < cols := Nat.zero_lt_of_lt hj
  have hmul := h.skew_mul hrows hcols
  have hdim : (0 : K) < rows' * cols :=
    mul_pos (Nat.cast_pos.mpr (hrows.trans_le h.rows_le))
      (Nat.cast_pos.mpr hcols)
  constructor
  · calc (1 - tol) * (rows' * cols)
        < skew K rows cols rows' cols' * (1 + tol) * (rows' * cols) :=
          mul_lt_mul_of_pos_right hlower hdim
      _ = (1 + tol) * (skew K rows cols rows' cols' * (rows' * cols)) := by ring
      _ = _ := by rw [hmul]
  · calc (1 - tol) * (rows * cols')
        = skew K rows cols rows' cols' * (1 - tol) * (rows' * cols) := by
          rw [← hmul]; ring
      _ < _ := mul_lt_mul_of_pos_right hupper hdim

end Pads

end Balancing

end Equilibration
