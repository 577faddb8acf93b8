import Equilibration.Proofs.EntryRanges
import Equilibration.Proofs.Overwriting
import Equilibration.Proofs.Requests
import Equilibration.Proofs.SignedResults

/-!
# LostColumns — when a verdict of convergence is true

A run of balancing that reports convergence has compared the column sums it
could see. A column whose sum is not positive takes no part in that, and
neither does one whose deviation is no number. In exact arithmetic no column
with a positive entry can get lost in this way; with rounding it can, when a
sum or a factor leaves the format.

For entries that are not negative, the comparison that the verdict promises
is true for just the columns that took part (`Balancing.Measured`), and for
columns with a sum of zero if the tolerance is above one
(`Balancing.deviation_lt_iff`). As long as factors, entries and dimensions
are moderate every column with a positive entry takes part
(`Balancing.measured_of_range`). Otherwise a run may report that it
converged while its only column is lost
(`Session.converged_with_lost_column`).
-/

namespace Equilibration

open Checked FloatingPoint Rounding

namespace Balancing

variable {α : Type} [Scalar α] [FloatingPoint α] [StandardFloat α]

theorem log2_lt_exponentBias {n : ℕ} (hn : n < UInt64.size) :
    n.log2 < (model α).exponentBias := by
  rcases Nat.eq_zero_or_pos n with rfl | hpos
  · exact exponentBias_pos α
  · exact (Nat.log2_lt hpos.ne').mpr (hn.trans_le StandardFloat.word_le)

/-! ## Factors and sums -/

/-- Every factor is a number that is not negative, whatever the sum is. -/
theorem zero_le_factor {n : ℕ} (hn : n < UInt64.size) (s : α) :
    0 ≤ factor (Scalar.ofNat n) s := by
  obtain ⟨hfinite, hnonneg⟩ := ofNat_not_neg (α := α) (log2_lt_exponentBias hn)
  unfold factor
  split
  · next hs => exact zero_le_div hfinite hnonneg hs
  · exact FloatingPoint.zero_le_one

/-- Products of what is not negative are not negative, though they may be
infinite or no number. -/
theorem product_not_neg {W : SlicedMatrix α} (h : W.check = .ok (.ok ()))
    (hroom : W.HasRoom) (hW : ∀ v ∈ W.values, ¬ v < 0) (shape : Shape)
    {x y : Array α} (hx : ∀ v ∈ x, ¬ v < 0) :
    ∀ v ∈ W.product shape 1 0 x y, ¬ v < 0 := by
  intro v hv
  obtain ⟨k, hk, rfl⟩ := Array.mem_iff_getElem.mp hv
  obtain ⟨s, hvalue, -, hs⟩ := SlicedMatrix.product_element h hroom shape x
    (by simpa using hk : k < y.size)
  rw [Array.getElem?_eq_getElem hk, Option.some.injEq] at hvalue
  have hterm : ∀ t ∈ s.map (fun e => e.2 * x.getD e.1 0), ¬ t < 0 := by
    intro t ht
    obtain ⟨e, he, rfl⟩ := List.mem_map.mp ht
    refine mul_not_neg
      (hW _ (SlicedMatrix.value_mem_of_entries h shape hs he)) ?_
    by_cases hlt : e.1 < x.size
    · exact hx _ (Vec.getD_mem hlt 0)
    · rw [Array.getD, dif_neg hlt]
      exact not_neg_zero
  rw [hvalue, SlicedMatrix.combine_of_zero zero_beq_zero, dotOf_eq_foldl]
  exact mul_not_neg (zero_le_iff.mp FloatingPoint.zero_le_one).2
    (foldl_add_not_neg hterm not_neg_zero)

/-- The factors of every state of a run are numbers and not negative. -/
theorem zero_le_stateAfter (f : Shape → Array α → Array α → Array α)
    {rows cols : Nat} (hrows : rows < UInt64.size) (hcols : cols < UInt64.size)
    (d e : Array α) (k : Nat) :
    (∀ v ∈ (stateAfter f rows cols d e k).d, 0 ≤ v)
      ∧ ∀ v ∈ (stateAfter f rows cols d e k).e, 0 ≤ v := by
  have hones : ∀ x : Array α, ∀ v ∈ Vec.fill x 1, 0 ≤ v := by
    intro x v hv
    obtain ⟨_, -, rfl⟩ := Array.mem_map.mp hv
    exact FloatingPoint.zero_le_one
  induction k with
  | zero => exact ⟨hones d, hones e⟩
  | succ k ih =>
    rw [stateAfter_succ]
    constructor
    · intro v hv
      obtain ⟨s, -, rfl⟩ := Array.mem_map.mp hv
      exact zero_le_factor hcols s
    · intro v hv
      obtain ⟨j, hj, rfl⟩ := Array.mem_iff_getElem.mp hv
      simp only [next, Vec.overwrite, Array.getElem_mapIdx]
      split
      · exact zero_le_factor hrows _
      · exact ih.2 _ (Array.getElem_mem _)

/-! ## Deviations -/

section Deviation

variable {n : ℕ} (hn : 0 < n) (hword : n < UInt64.size) {s e : α}

include hn hword

theorem isNaN_deviation :
    Scalar.isNaN (deviation (Scalar.ofNat n) s e) = Scalar.isNaN (e * s) := by
  rw [deviation, FloatingPoint.isNaN_abs, isNaN_sub_one,
    isNaN_div_ofNat hn (log2_lt_exponentBias hword)]

/-- A sum of zero deviates by one. -/
theorem deviation_of_zero (hs : (s == 0) = true)
    (he : Scalar.isFinite e = true) :
    unpacked (deviation (Scalar.ofNat n) s e) = unpacked (1 : α) :=
  unpacked_abs_zero_sub_one
    (zero_of_div_ofNat hn (log2_lt_exponentBias hword) (zero_of_mul_zero he hs))

end Deviation

/-! ## What the verdict has seen -/

/-- A column takes part in the measurement if its sum is positive and its
deviation is a number, which it is unless an infinite sum meets a factor of
zero. -/
def Measured (s e : α) : Prop :=
  0 < s ∧ ¬ (Scalar.isFinite s = false ∧ (e == 0) = true)

omit [FloatingPoint α] [StandardFloat α] in
/-- The measurement takes the columns with a positive sum, and of those the
largest deviation. -/
theorem worstDeviation_eq (sums e : Array α) (target : α) :
    worstDeviation sums e target
      = (((sums.toList.zip e.toList).filter fun p => 0 < p.1).map fun p =>
          deviation target p.1 p.2).foldl Scalar.max 0 := by
  rw [List.foldl_map, List.foldl_filter]
  simp only [decide_eq_true_eq]
  rfl

/-- A verdict has seen all columns with a positive sum and a deviation. -/
theorem deviation_lt_of_close {sums e : Array α} {target tol : α}
    (hclose : worstDeviation sums e target < tol) {j : Nat} (hs : j < sums.size)
    (he : j < e.size) (hpos : 0 < sums[j])
    (hnumber : Scalar.isNaN (deviation target sums[j] e[j]) = false) :
    deviation target sums[j] e[j] < tol := by
  have hmem : (sums[j], e[j]) ∈ sums.toList.zip e.toList := by
    rw [List.mem_iff_getElem]
    exact ⟨j, by simpa using ⟨hs, he⟩, by simp⟩
  rw [worstDeviation_eq] at hclose
  refine FloatingPoint.lt_of_le_of_lt ((le_foldl_max _
    (isNaN_of_isFinite isFinite_zero.1)).2 _ ?_ hnumber) hclose
  exact List.mem_map_of_mem (List.mem_filter.mpr ⟨hmem, decide_eq_true hpos⟩)

/-- **What a verdict says of a column.** If the comparison is known of all
columns with a positive sum and a deviation, it is true for a column that
took part in the measurement. For any other it is true only with a sum of
zero, a finite factor and a tolerance above one. -/
theorem deviation_lt_iff {n : ℕ} (hn : 0 < n) (hword : n < UInt64.size)
    {s e tol : α} (hs : ¬ s < 0) (he : 0 ≤ e)
    (hseen : 0 < s → Scalar.isNaN (deviation (Scalar.ofNat n) s e) = false →
      deviation (Scalar.ofNat n) s e < tol) :
    deviation (Scalar.ofNat n) s e < tol
      ↔ Measured s e
        ∨ (s == 0) = true ∧ Scalar.isFinite e = true ∧ 1 < tol := by
  have hnan := isNaN_deviation hn hword (s := s) (e := e)
  rcases not_neg_cases hs with hpos | ⟨hzero, hbeq⟩ | hnumber
  · -- a positive sum is seen, unless it is infinite and meets a factor of zero
    obtain ⟨hle, hbeq⟩ := zero_le_of_pos hpos
    have hproduct := isNaN_mul_iff_of_zero_le he hle
    rw [hbeq] at hproduct ⊢
    by_cases hlost : Scalar.isFinite s = false ∧ (e == 0) = true
    · rw [hproduct.mpr (.inr ⟨hlost.2, hlost.1⟩)] at hnan
      exact iff_of_false (not_lt_of_isNaN hnan) (by simp [Measured, hlost])
    · refine iff_of_true
        (hseen hpos (hnan.trans (Bool.eq_false_iff.mpr fun h => hlost ?_)))
        (.inl ⟨hpos, hlost⟩)
      rcases hproduct.mp h with ⟨-, h⟩ | ⟨hfactor, hsum⟩
      · cases h
      · exact ⟨hsum, hfactor⟩
  · -- a sum of zero is never seen, and deviates by one if the factor is finite
    have hlost : ¬ Measured s e := fun h => by
      rw [(zero_le_of_pos h.1).2] at hbeq
      cases hbeq
    cases hfinite : Scalar.isFinite e with
    | false =>
      rw [(isNaN_mul_iff_of_zero_le he hzero).mpr (.inl ⟨hfinite, hbeq⟩)]
        at hnan
      exact iff_of_false (not_lt_of_isNaN hnan) (by simp [hlost])
    | true =>
      rw [or_iff_right hlost, lt_iff, lt_iff]
      have hone := deviation_of_zero hn hword hbeq hfinite
      unfold unpacked at hone
      rw [hone]
      simp [hbeq]
  · rw [isNaN_mul_right e hnumber] at hnan
    refine iff_of_false (not_lt_of_isNaN hnan) ?_
    rw [beq_zero_of_isNaN hnumber]
    rintro (h | h)
    · rw [(zero_le_iff.mp (zero_le_of_pos h.1).1).1] at hnumber
      cases hnumber
    · cases h.1

omit [StandardFloat α] in
/-- A column with a positive entry takes part, if factors and entries are
moderate. -/
theorem measured_of_range {W : SlicedMatrix α} (h : W.check = .ok (.ok ()))
    (hroom : W.HasRoom) {H q : ℕ} (hsized : W.Sized q)
    (hW : ∀ v ∈ W.values, SumOf (-H) H 1 v) {X : ℤ} (hX : 0 ≤ X) {x y : Array α}
    (hsize : x.size = W.rows) (hx : ∀ v ∈ x, Between .positive (-X) X v)
    (hhi : X + H + q ≤ (model α).exponentBias) {i j : Nat} {v : α}
    (hmem : (i, j, v) ∈ W.triplets) (hv : 0 < v) (hj : j < y.size) (e : α) :
    ∃ w, (W.product .transposed 1 0 x y)[j]? = some w ∧ Measured w e := by
  have hmin := minExponent_le (model α)
  obtain ⟨w, hw, -, hsum, hterms⟩ := factors_range h hroom hsized hW .transposed
    hX hx hhi hj hsized.rows_le fun h0 => by
    rw [SlicedMatrix.values_eq_empty h (.inl h0)]; rfl
  obtain ⟨hi, -⟩ := SlicedMatrix.lt_of_mem_triplets h hmem
  have hsv := hW v (SlicedMatrix.mem_values_of_mem_triplets h hmem)
  have hvalue : Between .positive (-H) H v :=
    hsv.cases.resolve_left fun h0 => ((zero_lt_iff hsv.finite).mp hv).ne' h0.2
  have hfactor : Between .positive (-X) X (x.getD i 0) :=
    hx _ (Vec.getD_mem (hsize.symm ▸ hi) 0)
  have hproduct := hvalue.mul hfactor (by omega) (by omega)
  have hpos : 0 < w := (zero_lt_iff hsum.finite).mpr
    (hproduct.toReal_pos.trans_le (hterms i j v rfl hmem))
  refine ⟨w, hw, hpos, fun hlost => ?_⟩
  rw [hsum.finite] at hlost
  cases hlost.1

end Balancing

/-! ## Verdicts of runs -/

section Moderate

variable {α : Type} [Scalar α] [FloatingPoint α] {W : SlicedMatrix α} {h q : ℕ}

/-- Moderate entries that are not negative. -/
theorem SlicedMatrix.Moderate.sumOf (hW : W.Moderate h q)
    (hsign : ∀ v ∈ W.values, ¬ v < 0) :
    ∀ v ∈ W.values, SumOf (-h) h 1 v := by
  intro v hv
  obtain ⟨hfinite, hzero⟩ | ⟨s, hs⟩ := hW.cases hv
  · exact sumOf_of_zero _ _ hfinite hzero
  · cases s with
    | positive => exact hs.sumOf
    | negative =>
      refine absurd ((lt_zero_iff hs.finite).mpr ?_) (hsign v hv)
      have hlow : 0 < -toReal v := (zpow_pos two_pos _).trans_le hs.lower
      linarith

omit [FloatingPoint α] [Scalar α] in
/-- Matrices of the same triplets store the same values. -/
theorem SlicedMatrix.mem_values_iff {V : SlicedMatrix α}
    (hV : V.check = .ok (.ok ())) (hW : W.check = .ok (.ok ()))
    (hperm : V.triplets.Perm W.triplets) {v : α} :
    v ∈ V.values ↔ v ∈ W.values := by
  constructor
  · intro hv
    obtain ⟨i, j, hmem⟩ := mem_triplets_of_mem_values hV hv
    exact mem_values_of_mem_triplets hW (hperm.mem_iff.mp hmem)
  · intro hv
    obtain ⟨i, j, hmem⟩ := mem_triplets_of_mem_values hW hv
    exact mem_values_of_mem_triplets hV (hperm.mem_iff.mpr hmem)

omit [FloatingPoint α] [Scalar α] in
theorem SlicedMatrix.mem_values_row (hcheck : W.check = .ok (.ok ()))
    (hroom : W.HasRoom) {v : α} :
    v ∈ (PairedMatrix.ofForm W).row.values ↔ v ∈ W.values :=
  mem_values_iff (PairedMatrix.check_forms hcheck hroom).1 hcheck
    (triplets_ofForm_perm hcheck).1

omit [FloatingPoint α] [Scalar α] in
theorem SlicedMatrix.mem_values_col (hcheck : W.check = .ok (.ok ()))
    (hroom : W.HasRoom) {v : α} :
    v ∈ (PairedMatrix.ofForm W).col.values ↔ v ∈ W.values :=
  mem_values_iff (PairedMatrix.check_forms hcheck hroom).2 hcheck
    (triplets_ofForm_perm hcheck).2

/-- The row form has as many rows, columns and entries, with the same
values. -/
theorem SlicedMatrix.Moderate.of_row (hcheck : W.check = .ok (.ok ()))
    (hroom : W.HasRoom) (hW : (PairedMatrix.ofForm W).row.Moderate h q) :
    W.Moderate h q := by
  obtain ⟨-, -, ⟨hrows, hcols⟩, -⟩ := PairedMatrix.dims_forms W
  obtain ⟨hcount, -⟩ := PairedMatrix.size_values_forms hcheck
  exact ⟨⟨hrows ▸ hW.rows_le, hcols ▸ hW.cols_le, hcount ▸ hW.count_le,
    hW.precise⟩, fun v hv => hW.values v ((mem_values_row hcheck hroom).mpr hv)⟩

end Moderate

namespace SolverMatrix

variable {α : Type} {M : SolverMatrix α} {W : SlicedMatrix α}

/-- The number of rows of a built matrix is a machine word. -/
theorem Holds.rows_lt (hM : M.Holds W) : M.rows < UInt64.size := by
  rw [hM.rows_eq]
  have hroom := hM.room.1
  have hword := (SlicedMatrix.of_check hM.check).1
  unfold SlicedMatrix.sliceCount at hword
  unfold SlicedMatrix.indexBound at hroom
  cases horder : W.order
  · rw [horder] at hword
    exact (Nat.lt_succ_self _).trans hword
  · rw [horder] at hroom
    exact (Nat.lt_succ_self _).trans (hroom.trans (by decide))

section Verdict

variable [Scalar α] [FloatingPoint α] (hM : M.Holds W) {d e sums₀ : Array α}
  {budget : Nat} {tol : α} {r : BalanceRun α} {record : BalanceRecord α}
  (hrun : Balancing.run M.operator d e budget tol () = .ok (r, ()))
  (hok : r.outcome = .ok record) (hsize : sums₀.size = M.cols)

include hM hrun hok

/-- A verdict of convergence is about the product with the row factors that
the run returns. -/
theorem Holds.close_of_converged (hsize : sums₀.size = M.cols)
    (hconverged : record.converged = true) :
    Balancing.worstDeviation (W.product .transposed 1 0 r.d sums₀) r.e
      (Scalar.ofNat M.rows)
      < tol := by
  obtain ⟨hd, he, hcols⟩ := Balancing.sizes_of_run hrun
  obtain ⟨record', hrun', hends⟩ :=
    Balancing.run_ends hM.computes hd he hcols budget tol
  rw [hrun] at hrun'
  cases hrun'
  cases hok
  obtain ⟨-, -, hclose⟩ := hends.close hconverged
  have hfits := Balancing.fits_stateAfter hM.computes hd he record.iterations
  rwa [SlicedMatrix.product_overwrites zero_beq_zero 1 .transposed
    (hsize.trans hfits.sums_size.symm)]

/-- Whatever happens, the factors that a run returns are numbers that are
not negative. -/
theorem Holds.zero_le_factors [StandardFloat α] :
    (r.d.size = M.rows ∧ ∀ v ∈ r.d, 0 ≤ v) ∧ r.e.size = M.cols ∧ ∀ v ∈ r.e,
      0 ≤ v := by
  obtain ⟨hd, he, hcols⟩ := Balancing.sizes_of_run hrun
  obtain ⟨record', hrun', -⟩ :=
    Balancing.run_ends hM.computes hd he hcols budget tol
  rw [hrun] at hrun'
  cases hrun'
  cases hok
  have hfits := Balancing.fits_stateAfter hM.computes hd he record.iterations
  obtain ⟨hd', he'⟩ :=
    Balancing.zero_le_stateAfter (fun shape x y => W.product shape 1 0 x y)
      hM.rows_lt (hcols.trans (by decide)) d e record.iterations
  exact ⟨⟨hfits.d_size, hd'⟩, hfits.e_size, he'⟩

/-- **What a verdict says of each column.** -/
theorem Holds.deviation_lt_iff [StandardFloat α] (hsize : sums₀.size = M.cols)
    (hconverged : record.converged = true) (hsign : ∀ v ∈ W.values, ¬ v < 0)
    (hrows : 0 < M.rows) {j : Nat} (hj : j < M.cols) :
    ∃ w ej, (W.product .transposed 1 0 r.d sums₀)[j]? = some w
      ∧ r.e[j]? = some ej
      ∧ (Balancing.deviation (Scalar.ofNat M.rows) w ej < tol
        ↔ Balancing.Measured w ej
          ∨ (w == 0) = true ∧ Scalar.isFinite ej = true ∧ 1 < tol) := by
  obtain ⟨⟨-, hd⟩, hesize, he⟩ := hM.zero_le_factors hrun hok
  have hjs : j < (W.product .transposed 1 0 r.d sums₀).size := by
    rwa [SlicedMatrix.size_product, hsize]
  have hje : j < r.e.size := hesize.symm ▸ hj
  refine ⟨_, _, Array.getElem?_eq_getElem hjs, Array.getElem?_eq_getElem hje,
    Balancing.deviation_lt_iff hrows hM.rows_lt ?_
      (he _ (Array.getElem_mem hje)) (Balancing.deviation_lt_of_close
        (hM.close_of_converged hrun hok hsize hconverged) hjs hje)⟩
  exact Balancing.product_not_neg hM.check hM.room hsign .transposed
    (fun v hv => (zero_le_iff.mp (hd v hv)).2) _ (Array.getElem_mem hjs)

/-- A few iterations keep the factors moderate. -/
theorem Holds.factors_of_iterations {h q : ℕ} (hW : W.Moderate h q)
    (hsign : ∀ v ∈ W.values, ¬ v < 0)
    (hhi : Balancing.spread h q record.iterations ≤ (model α).exponentBias) :
    ∀ v ∈ r.d, Between .positive (-Balancing.spread h q record.iterations)
      (Balancing.spread h q record.iterations) v := by
  obtain ⟨s, hs, -, -, hiter, hd, -⟩ :=
    Balancing.inRange_run hM.check hM.room hW.toSized
      (hW.sumOf hsign) hM.computes hM.rows_eq hM.cols_eq hrun hok hhi
  rw [hd, ← hiter]
  exact hs.d

end Verdict

end SolverMatrix

namespace Session

variable {α : Type} [Scalar α] [FloatingPoint α] [StandardFloat α]

omit [FloatingPoint α] [StandardFloat α] in
/-- A run on a matrix that was just built ends after the first iteration if
the sums are close by then. -/
theorem serve_balance_of_close [Displayed α] (input : MatrixInput α)
    {M : SolverMatrix α} (hM : M.input? = some input) (w : World)
    (d e d' e' : Array α) (budget : UInt32) (tol : α)
    (hcheck : input.check = .ok (.ok ()))
    (hmem : FitsMemory input.rows input.cols input.values.size)
    (hd : d.size = input.rows) (he : e.size = input.cols)
    (hbudget : 1 < budget.toNat) :
    let f := fun shape x y => input.matrix.product shape 1 0 x y
    let t := Balancing.stateAfter f input.rows input.cols d e 1
    Balancing.Close f input.rows tol t → t.d = d' → t.e = e' →
    ∃ s record, serveAll ⟨M, w⟩ [.call .build] = .ok ([.answer .done], s)
      ∧ s.matrix.Holds input.matrix
      ∧ s.serve (.balance d e budget tol)
        = .ok (.balanced ⟨d', e', .ok record⟩, s)
      ∧ record.iterations = 1 ∧ record.converged = true := by
  rintro f t hclose rfl rfl
  obtain ⟨s, hserve, hholds, -⟩ := serve_build_holds hcheck hmem hM w
  have hrows : s.matrix.operator.rows = input.rows := hholds.rows_eq
  have hcols : s.matrix.operator.cols = input.cols := hholds.cols_eq
  obtain ⟨record, hrun, hends⟩ :=
    Balancing.run_ends hholds.computes (hd.trans hrows.symm)
      (he.trans hcols.symm) (hcols.trans_lt (Nat.lt_of_succ_lt hmem.cols_lt))
      budget.toNat tol
  rw [hrows, hcols] at hrun hends
  obtain ⟨hconverged, hone⟩ := hends.of_first Nat.one_pos hbudget
    (fun _ => hclose) fun l hpos hlt => absurd hlt (Nat.not_lt.mpr hpos)
  rw [hone] at hrun
  exact ⟨s, record, hserve, hholds, bind_eq_ok_iff.mpr ⟨_, hrun, rfl⟩, hone,
    hconverged⟩

/-- **When a verdict of convergence is true.** Whatever is done with a matrix
of any input, let it be built with values that are not negative, let a
balancing run report convergence, and multiply the transpose with the row
factors that the run returns. The comparison that the report promises is then
true for a column with a positive entry just if the column took part in the
measurement, or if its sum is zero, its factor finite and the tolerance above
one. All such columns take part, and the comparison is true for them, if the
entries are zero or from `2 ^ -h` to `2 ^ h`, with at most `2 ^ q` rows,
columns and entries, and there is room in the format for the row factors
returned, or for those that could be returned after as many iterations. -/
theorem converged_unless_lost [Displayed α]
    [hmul : Std.Commutative fun a b : α => a * b] (input : MatrixInput α)
    (M : SolverMatrix α) (hM : M.input? = some input) (w : World)
    (requests : List (Request α)) (replies : List (Reply α)) (s s' : Session α)
    (hserve : serveAll ⟨M, w⟩ requests = .ok (replies, s)) (P : PairedMatrix α)
    (hP : s.matrix.pair = .ok P) (hsign : ∀ v ∈ P.row.values, 0 ≤ v)
    (d e : Array α) (budget : UInt32) (tol : α) (r : BalanceRun α)
    (hrun : s.serve (.balance d e budget tol) = .ok (.balanced r, s'))
    (record : BalanceRecord α) (hok : r.outcome = .ok record)
    (hconverged : record.converged = true) (sums₀ : Array α)
    (hsums : sums₀.size = input.cols) :
    ∃ sums, s.matrix.multiply .transposed 1 r.d 0 sums₀ = .ok (.ok sums)
      ∧ ∀ i j v, (i, j, v) ∈ P.row.triplets → 0 < v →
        ∃ sum ej, sums[j]? = some sum ∧ r.e[j]? = some ej
          ∧ (Balancing.deviation (Scalar.ofNat input.rows) sum ej < tol
            ↔ Balancing.Measured sum ej
              ∨ (sum == 0) = true ∧ Scalar.isFinite ej = true ∧ 1 < tol)
          ∧ ∀ h q X : ℕ,
            P.row.Moderate h q → X + h + q ≤ (model α).exponentBias →
            (∀ u ∈ r.d, Between .positive (-X) X u)
              ∨ 2 * (h + q) * record.iterations ≤ X →
            Balancing.deviation (Scalar.ofNat input.rows) sum ej < tol := by
  have hlives := ((Lives.of_input hM).serveAll hmul.comm hserve).1
  obtain ⟨-, f, hW⟩ := hlives.state.resolve_left fun hinput => by
    rw [SolverMatrix.pair_of_input hinput] at hP
    cases hP
  have hrows : s.matrix.rows = input.rows := hW.rows_eq
  have hcols : s.matrix.cols = input.cols := hW.cols_eq
  rw [hW.pair] at hP
  cases hP
  generalize input.matrix.mapEntries f = W at hW hsign
  have hsize : sums₀.size = s.matrix.cols := hsums.trans hcols.symm
  obtain ⟨⟨run, u⟩, hbalance, heq⟩ := bind_eq_ok_iff.mp hrun
  cases heq
  -- what is known of the row form holds of the matrix
  have hsign' : ∀ v ∈ W.values, ¬ v < 0 := fun v hv =>
    (zero_le_iff.mp
        (hsign v ((SlicedMatrix.mem_values_row hW.check hW.room).mpr hv))).2
  obtain ⟨hd, -⟩ := hW.zero_le_factors hbalance hok
  refine ⟨W.product .transposed 1 0 r.d sums₀,
    hW.multiply_eq_ok .transposed 1 0 hd.1 hsize, ?_⟩
  intro i j v hmem hv
  replace hmem := (SlicedMatrix.triplets_ofForm_perm hW.check).1.mem_iff.mp hmem
  obtain ⟨hi, hj⟩ := SlicedMatrix.lt_of_mem_triplets hW.check hmem
  rw [← hW.rows_eq] at hi
  rw [← hW.cols_eq] at hj
  obtain ⟨sum, ej, hsum, hej, hiff⟩ :=
    hW.deviation_lt_iff hbalance hok hsize hconverged hsign'
      (Nat.zero_lt_of_lt hi) hj
  rw [hrows] at hiff
  refine ⟨sum, ej, hsum, hej, hiff, fun h q X hmoderate hhi hfactors =>
    hiff.mpr (.inl ?_)⟩
  have hmoderate := hmoderate.of_row hW.check hW.room
  have hbetween : ∀ u ∈ r.d, Between .positive (-X) X u := by
    rcases hfactors with hfactors | hiterations
    · exact hfactors
    · have hspread : Balancing.spread h q record.iterations ≤ X := by
        unfold Balancing.spread
        exact_mod_cast hiterations
      intro u hu
      exact (hW.factors_of_iterations hbalance hok hmoderate hsign'
          (by omega) u hu).mono
        (by omega) (by omega)
  obtain ⟨sum', hsum', hmeasured⟩ :=
    Balancing.measured_of_range hW.check hW.room hmoderate.toSized
      (hmoderate.sumOf hsign') X.cast_nonneg (hd.1.trans hW.rows_eq) hbetween
      (by omega) hmem hv (hsize.symm ▸ hj) ej
  rw [hsum', Option.some.injEq] at hsum
  exact hsum ▸ hmeasured

/-- Two doubles in a row, which one iteration brings to their target. -/
theorem converged_unless_lost_row :
    let input : MatrixInput Float := ⟨.row, 1, 2, 2, #[0, 2], #[0, 1], #[1, 2]⟩
    let M := SolverMatrix.ofInput input .standard
    let w : World := { readings := fun n => n }
    ∃ s r record sums, serveAll ⟨M, w⟩ [.call .build] = .ok ([.answer .done], s)
      ∧ s.serve (.balance #[0] #[0, 0] 50 0.5) = .ok (.balanced r, s)
      ∧ r.outcome = .ok record ∧ record.converged = true
      ∧ s.matrix.multiply .transposed 1 r.d 0 #[7, 7] = .ok (.ok sums)
      ∧ ∀ i j v, (i, j, v) ∈ input.matrix.triplets → 0 < v →
        ∃ sum ej, sums[j]? = some sum ∧ r.e[j]? = some ej
          ∧ Balancing.deviation (Scalar.ofNat 1) sum ej < 0.5 := by
  intro input M w
  obtain ⟨s, record, hserve, hholds, hrun, hone, hconverged⟩ :=
    serve_balance_of_close input (M := M) rfl w #[0] #[0, 0] _ _ 50 0.5
      (by decide +kernel) ⟨by decide, by decide, by decide⟩ rfl rfl (by decide)
      (by unfold Balancing.Close; decide +kernel) rfl rfl
  have hmoderate : input.matrix.Moderate 1 1 := by
    have hvalues :
        ∀ v ∈ input.values, v = Scalar.ofNat 1 ∨ v = Scalar.ofNat 2 := by
      decide +kernel
    refine ⟨⟨by decide, by decide, by decide, by decide⟩, fun v hv => ?_⟩
    rcases hvalues v hv with rfl | rfl
    · exact ((between_ofNat (q := 0) (by decide) (by decide) (by decide)).mono
        (by decide) (by decide)).moderate
    · exact ((between_ofNat (q := 1) (by decide) (by decide) (by decide)).mono
        (by decide) (by decide)).moderate
  obtain ⟨sums, hsums, hcolumns⟩ :=
    converged_unless_lost input M rfl w [.call .build] [.answer .done] s s
      hserve (.ofForm input.matrix) hholds.pair (by decide +kernel) #[0] #[0, 0]
      50 0.5 _ hrun record rfl hconverged #[7, 7] rfl
  refine ⟨s, _, record, sums, hserve, hrun, rfl, hconverged, hsums,
    fun i j v hmem hv => ?_⟩
  obtain ⟨sum, ej, hsum, hej, -, hmoderately⟩ := hcolumns i j v hmem hv
  exact ⟨sum, ej, hsum, hej, hmoderately 1 1 4 hmoderate (by decide)
    (.inr (by rw [hone]))⟩

/-- Two doubles whose sum is infinite: the factor of the only column is zero,
its deviation no number, and the verdict is that the column is balanced. -/
theorem converged_with_lost_column :
    let large := Float.ofBits 0x7fe0000000000000
    let tol := Float.ofBits 0x3eb0c6f7a0b5ed8d
    let input : MatrixInput Float :=
      ⟨.row, 2, 1, 2, #[0, 1, 2], #[0, 0], #[large, large]⟩
    let M := SolverMatrix.ofInput input .standard
    let w : World := { readings := fun n => n }
    input.check = .ok (.ok ()) ∧ (Scalar.isFinite large = true ∧ 0 < large)
    ∧ (Scalar.isFinite tol = true ∧ 0 < tol)
    ∧ ∃ s P r record, serveAll ⟨M, w⟩ [.call .build] = .ok ([.answer .done], s)
      ∧ s.matrix.pair = .ok P ∧ P.row.triplets = [(0, 0, large), (1, 0, large)]
      ∧ s.serve (.balance #[0, 0] #[0] 50 tol) = .ok (.balanced r, s)
      ∧ r.outcome = .ok record ∧ record.converged = true
      ∧ s.matrix.multiply .transposed 1 r.d 0 #[0]
        = .ok (.ok #[Scalar.infinity])
      ∧ r.e = #[0]
      ∧ ¬ Balancing.deviation (Scalar.ofNat 2) Scalar.infinity 0 < tol := by
  intro large tol input M w
  obtain ⟨s, record, hserve, hholds, hrun, -, hconverged⟩ :=
    serve_balance_of_close input (M := M) rfl w #[0, 0] #[0] #[1, 1] #[0] 50 tol
      (by decide +kernel) ⟨by decide, by decide, by decide⟩ rfl rfl (by decide)
      (by unfold Balancing.Close; decide +kernel) (by decide +kernel)
      (by decide +kernel)
  have hsums : input.matrix.product .transposed 1 0 #[1, 1] #[0]
      = #[Scalar.infinity] := by
    decide +kernel
  refine ⟨by decide +kernel, by decide +kernel, by decide +kernel, s, _, _,
    record, hserve, hholds.pair, by decide +kernel, hrun, rfl, hconverged, ?_,
    rfl, by decide +kernel⟩
  have hrows : (#[1, 1] : Array Float).size = s.matrix.rows :=
    hholds.rows_eq.symm
  have hcols : (#[0] : Array Float).size = s.matrix.cols := hholds.cols_eq.symm
  rw [← hsums]
  exact hholds.multiply_eq_ok .transposed 1 0 hrows hcols

end Session

end Equilibration
