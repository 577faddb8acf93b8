import Equilibration.Proofs.ExactNorms
import Equilibration.Proofs.ExactScalings

/-!
# ExactBalancing — equal rows

Without rounding, an iteration of balancing ends with exact row sums: the
row factors are computed last, from the column factors that are returned
with them. Carried over to the entries of the equilibrated matrix this says
that all rows that are not zero have the same total
(`SolverMatrix.rowTotal_rescaled`), of squares or of magnitudes after the norm
that was balanced in.
-/

namespace Equilibration

open Checked Slices

variable {α : Type}

/-! ## Magnitudes and signs -/

namespace Magnitude

variable [ExactField α] (t : Magnitude)

theorem of_nonneg (v : α) : 0 ≤ t.of v := by
  cases t with
  | absolute =>
    show 0 ≤ Scalar.abs v
    rw [ExactOrderedField.abs_eq]
    exact abs_nonneg v
  | square => exact mul_self_nonneg v

theorem of_pos {v : α} (h : v ≠ 0) : 0 < t.of v := by
  cases t with
  | absolute =>
    show 0 < Scalar.abs v
    rw [ExactOrderedField.abs_eq]
    exact abs_pos.mpr h
  | square => exact mul_self_pos.mpr h

theorem of_mul (a b : α) : t.of (a * b) = t.of a * t.of b := by
  cases t with
  | absolute =>
    show Scalar.abs (a * b) = Scalar.abs a * Scalar.abs b
    rw [ExactOrderedField.abs_eq, ExactOrderedField.abs_eq,
      ExactOrderedField.abs_eq, abs_mul]
  | square => exact mul_mul_mul_comm a b a b

theorem undo_of (v : α) : t.undo (t.of v) = |v| := by
  cases t with
  | absolute => exact ExactOrderedField.abs_eq v
  | square => exact ExactField.sqrt_mul_self' v

/-- The factors for a matrix have the factors for its magnitudes for
magnitudes. -/
theorem of_factorsFor {x : Array α} {i : Nat} (h : 0 ≤ x.getD i 0) :
    t.of ((SolverMatrix.factorsFor t x).getD i 0) = x.getD i 0 := by
  cases t with
  | absolute =>
    show Scalar.abs (x.getD i 0) = _
    rw [ExactOrderedField.abs_eq, abs_of_nonneg h]
  | square =>
    show (Vec.sqrt x).getD i 0 * (Vec.sqrt x).getD i 0 = _
    rw [Vec.getD_sqrt, ExactField.sqrt_mul_self h]

theorem factorsFor_pos {x : Array α} {i : Nat} (h : 0 < x.getD i 0) :
    0 < (SolverMatrix.factorsFor t x).getD i 0 := by
  cases t with
  | absolute => exact h
  | square =>
    show 0 < (Vec.sqrt x).getD i 0
    rw [Vec.getD_sqrt]
    exact ExactField.sqrt_pos h

end Magnitude

/-- Magnitude and sign make up the value. -/
theorem PackedSigns.joinValue_of [ExactField α] (t : Magnitude) (v : α) :
    joinValue t (t.of v) (decide (v < 0)) = v := by
  rw [joinValue, t.undo_of]
  by_cases h : v < 0
  · rw [if_pos (decide_eq_true h), abs_of_neg h, neg_neg]
  · rw [if_neg (by simpa using h), abs_of_nonneg (not_lt.mp h)]

/-! ## Rows -/

namespace SlicedMatrix

section Triplets

/-- The triplets of a row are the entries of its slice. -/
theorem filter_triplets_of_row {A : SlicedMatrix α} (h : A.order = .row)
    (i : Nat) :
    (A.triplets.filter fun e => e.1 = i)
      = (A.slices[i]?.getD []).map fun e => (i, e.1, e.2) := by
  have hstep :
      ∀ k, (((A.slices[k]?.getD []).map fun e => (⟨k, e.1, e.2⟩ : Cell α)).map
        (Cell.triplet .row)).filter (fun e => e.1 = i)
      = if k = i then (A.slices[i]?.getD []).map (fun e => (i, e.1, e.2))
        else [] := by
    intro k
    rw [List.map_map]
    by_cases hk : k = i
    · subst hk
      rw [if_pos rfl, List.filter_eq_self.mpr]
      · rfl
      · intro e he
        obtain ⟨e', -, rfl⟩ := List.mem_map.mp he
        exact decide_eq_true rfl
    · rw [if_neg hk, List.filter_eq_nil_iff]
      intro e he
      obtain ⟨e', -, rfl⟩ := List.mem_map.mp he
      simpa [Cell.triplet] using hk
  rw [triplets, h, cells, List.map_flatMap, List.filter_flatMap]
  simp only [hstep]
  rw [flatMap_range_ite]
  by_cases hi : i < A.slices.length
  · rw [if_pos hi]
  · rw [if_neg hi, List.getElem?_eq_none (Nat.le_of_not_lt hi)]
    rfl

theorem lt_of_mem_triplets {A : SlicedMatrix α} (h : A.check = .ok (.ok ()))
    {e : Nat × Nat × α} (he : e ∈ A.triplets) :
    e.1 < A.rows ∧ e.2.1 < A.cols := by
  obtain ⟨c, hc, rfl⟩ := List.mem_map.mp he
  have hslice := slice_lt_of_mem_cells hc
  have hindex := (fits_slices h).index_lt_of_mem_cells hc
  rw [length_slices, sliceCount] at hslice
  rw [indexBound] at hindex
  generalize A.order = o at hslice hindex
  cases o
  · exact ⟨hslice, hindex⟩
  · exact ⟨hindex, hslice⟩

/-- Both forms hold the triplets of the input. -/
theorem triplets_ofForm_perm {A : SlicedMatrix α} (h : A.check = .ok (.ok ())) :
    (PairedMatrix.ofForm A).row.triplets.Perm A.triplets
      ∧ (PairedMatrix.ofForm A).col.triplets.Perm A.triplets := by
  cases horder : A.order
  · rw [PairedMatrix.ofForm_row horder]
    exact ⟨.refl _, triplets_flipped_perm h⟩
  · rw [PairedMatrix.ofForm_col horder]
    exact ⟨triplets_flipped_perm h, .refl _⟩

theorem triplets_forms_perm {A : SlicedMatrix α} (h : A.check = .ok (.ok ())) :
    (PairedMatrix.ofForm A).row.triplets.Perm
      (PairedMatrix.ofForm A).col.triplets :=
  (triplets_ofForm_perm h).1.trans (triplets_ofForm_perm h).2.symm

theorem lt_of_mem_forms {A : SlicedMatrix α} (h : A.check = .ok (.ok ()))
    {e : Nat × Nat × α} (he : e ∈ (PairedMatrix.ofForm A).row.triplets) :
    e.1 < A.rows ∧ e.2.1 < A.cols :=
  lt_of_mem_triplets h ((triplets_ofForm_perm h).1.mem_iff.mp he)

theorem values_eq_triplets {A : SlicedMatrix α} (h : A.check = .ok (.ok ())) :
    A.values = (A.triplets.map fun e => e.2.2).toArray := by
  conv_lhs => rw [← ofSlices_slices h]
  show (A.slices.flatten.map Prod.snd).toArray = _
  rw [← map_entry_cells, triplets, List.map_map, List.map_map]
  congr 2
  funext c
  cases A.order <;> rfl

theorem mem_values_of_mem_triplets {A : SlicedMatrix α}
    (h : A.check = .ok (.ok ())) {e : Nat × Nat × α} (he : e ∈ A.triplets) :
    e.2.2 ∈ A.values := by
  rw [values_eq_triplets h, List.mem_toArray]
  exact List.mem_map.mpr ⟨e, he, rfl⟩

theorem mem_triplets_of_mem_values {A : SlicedMatrix α}
    (h : A.check = .ok (.ok ())) {v : α} (hv : v ∈ A.values) :
    ∃ i j, (i, j, v) ∈ A.triplets := by
  rw [values_eq_triplets h, List.mem_toArray] at hv
  obtain ⟨⟨i, j, u⟩, he, rfl⟩ := List.mem_map.mp hv
  exact ⟨i, j, he⟩

end Triplets

variable [ExactField α]

/-- Some entry that is stored for the row is not zero. -/
def NonzeroRow (A : SlicedMatrix α) (i : Nat) : Prop :=
  ∃ j v, (i, j, v) ∈ A.triplets ∧ v ≠ 0

/-- The sum of the magnitudes of a row. -/
def rowTotal (A : SlicedMatrix α) (t : Magnitude) (i : Nat) : α :=
  ((A.triplets.filter fun e => e.1 = i).map fun e => t.of e.2.2).sum

theorem rowTotal_mapEntries (f : Nat → Nat → α → α) (A : SlicedMatrix α)
    (t : Magnitude) (i : Nat) :
    (A.mapEntries f).rowTotal t i
      = ((A.triplets.filter fun e => e.1 = i).map fun e =>
        t.of (f i e.2.1 e.2.2)).sum := by
  rw [rowTotal, triplets_mapEntries, List.filter_map, List.map_map]
  congr 1
  apply List.map_congr_left
  intro e he
  have hei : e.1 = i := of_decide_eq_true (List.mem_filter.mp he).2
  show t.of (f e.1 e.2.1 e.2.2) = _
  rw [hei]

/-- A product from the magnitudes, read off the triplets of the row form. -/
theorem product_magnitudes {A : SlicedMatrix α} (h : A.check = .ok (.ok ()))
    (t : Magnitude) {x y : Array α} {i : Nat} (hi : i < y.size) :
    ((SolverMatrix.magnitudes A t).product .normal 1 0 x y)[i]?
      = some (((PairedMatrix.ofForm A).row.triplets.filter fun e => e.1 = i).map
          fun e => t.of e.2.2 * x.getD e.2.1 0).sum := by
  obtain ⟨horder, -⟩ := PairedMatrix.dims_forms A
  rw [SolverMatrix.magnitudes, product_eq, gathering_mapEntries h,
    PairedMatrix.gathering, slices_mapEntries, Array.getElem?_mapIdx,
    Array.getElem?_eq_getElem hi, Option.map_some, getElem?_mapValues,
    filter_triplets_of_row horder, List.map_map, dotOf_eq_sum_map]
  cases (PairedMatrix.ofForm A).row.slices[i]? with
  | none => rfl
  | some s =>
    rw [Option.map_some, Option.getD_some, Option.getD_some, List.map_map]
    rfl

theorem rowTotal_perm {A B : SlicedMatrix α} (h : A.triplets.Perm B.triplets)
    (t : Magnitude) (i : Nat) : A.rowTotal t i = B.rowTotal t i :=
  ((h.filter _).map _).sum_eq

end SlicedMatrix

namespace Balancing

variable [ExactOrderedField α]

theorem ofNat_pos {n : Nat} (h : 0 < n) : (0 : α) < Scalar.ofNat n := by
  rw [ExactOrderedField.ofNat_eq]
  exact Nat.cast_pos.mpr h

/-- All factors are positive, and after an iteration the row factors are
computed from the column factors. -/
structure Balanced (f : Shape → Array α → Array α → Array α) (rows cols : Nat)
    (s : State α) :
    Prop where
  d_pos : 0 < cols → ∀ v ∈ s.d, 0 < v
  e_pos : 0 < rows → ∀ v ∈ s.e, 0 < v
  d_eq : 0 < s.record.iterations →
    s.d = (f .normal s.e s.d).map (factor (Scalar.ofNat cols))

theorem balanced_start (f : Shape → Array α → Array α → Array α)
    (rows cols : Nat) (d e sums : Array α) :
    Balanced f rows cols (start d e sums) where
  d_pos _ v hv := by
    obtain ⟨_, -, rfl⟩ := Array.mem_map.mp hv
    exact one_pos
  e_pos _ v hv := by
    obtain ⟨_, -, rfl⟩ := Array.mem_map.mp hv
    exact one_pos
  d_eq h := absurd h (Nat.lt_irrefl 0)

theorem Balanced.next {O : Operator Unit α}
    {f : Shape → Array α → Array α → Array α} (hO : O.Computes f)
    (hf : ∀ shape x y y', y.size = y'.size → f shape x y = f shape x y')
    {s : State α} (hfits : s.Fits O) (hs : Balanced f O.rows O.cols s) :
    Balanced f O.rows O.cols (next f O.rows O.cols s) where
  d_pos hcols v hv := by
    obtain ⟨_, -, rfl⟩ := Array.mem_map.mp hv
    exact factor_pos fun _ => ofNat_pos hcols
  e_pos hrows v hv := by
    obtain ⟨i, hi, rfl⟩ := Array.mem_iff_getElem.mp hv
    show 0 < (Vec.overwrite _ _ _)[i]
    simp only [Vec.overwrite, Array.getElem_mapIdx]
    split
    · exact factor_pos fun _ => ofNat_pos hrows
    · exact hs.e_pos hrows _ (Array.getElem_mem _)
  d_eq _ := by
    have hsize : s.d.size = (Balancing.next f O.rows O.cols s).d.size :=
      hfits.d_size.trans (hfits.next hO).d_size.symm
    conv_rhs => rw [hf .normal _ _ s.d hsize.symm]
    rfl

theorem Balanced.d_getD_pos {f : Shape → Array α → Array α → Array α}
    {rows cols : Nat} {s : State α} (hs : Balanced f rows cols s)
    (hcols : 0 < cols) {i : Nat} (hi : i < s.d.size) :
    0 < s.d.getD i 0 :=
  hs.d_pos hcols _ (Vec.getD_mem hi 0)

theorem Balanced.e_getD_pos {f : Shape → Array α → Array α → Array α}
    {rows cols : Nat} {s : State α} (hs : Balanced f rows cols s)
    (hrows : 0 < rows) {j : Nat} (hj : j < s.e.size) :
    0 < s.e.getD j 0 :=
  hs.e_pos hrows _ (Vec.getD_mem hj 0)

end Balancing

/-! ## Equal rows -/

namespace SolverMatrix

variable [ExactField α]

/-- What normalization gives to each of the two diagonals. -/
def share (norm : α) : α :=
  if 0 < norm then Scalar.recip (Scalar.sqrt norm) else 1

theorem share_mul_share (norm : α) :
    share norm * share norm = if 0 < norm then Scalar.recip norm else 1 := by
  unfold share
  split
  · next h =>
    rw [ExactField.recip_eq, ExactField.recip_eq, ← mul_inv,
      ExactField.sqrt_mul_self h.le]
  · exact one_mul 1

theorem share_pos (norm : α) : 0 < share norm := by
  unfold share
  split
  · next h => exact one_div_pos.mpr (ExactField.sqrt_pos h)
  · exact one_pos

/-- An equilibrated entry is the old entry between its two factors. -/
theorem rescaledEntry_eq (t : Magnitude) (norm : α) (d e : Array α) (i j : Nat)
    (v : α) :
    rescaledEntry t norm d e i j v
      = d.getD i 0 * share norm * v * (e.getD j 0 * share norm) := by
  have hfinite : (0 < norm ∧ Scalar.isFinite norm) ↔ 0 < norm :=
    and_iff_left (ExactOrderedField.isFinite_eq norm)
  have hshare : rescaledEntry t norm d e i j v
      = v * (d.getD i 0 * e.getD j 0) * (share norm * share norm) := by
    rw [share_mul_share, rescaledEntry, PackedSigns.joinValue_of]
    by_cases h : 0 < norm
    · rw [if_pos (hfinite.mpr h), if_pos h]
    · rw [if_neg (hfinite.not.mpr h), if_neg h, mul_one]
  rw [hshare]
  ring

theorem of_rescaledEntry (t : Magnitude) (norm : α) {d e : Array α} {i j : Nat}
    (hd : 0 ≤ d.getD i 0) (he : 0 ≤ e.getD j 0) (v : α) :
    t.of (rescaledEntry t norm (factorsFor t d) (factorsFor t e) i j v)
      = t.of (share norm)
        * t.of (share norm) * d.getD i 0 * (t.of v * e.getD j 0) := by
  rw [rescaledEntry_eq, t.of_mul, t.of_mul, t.of_mul, t.of_mul,
    t.of_factorsFor hd, t.of_factorsFor he]
  ring

section Rows

variable {A : SlicedMatrix α} (h : A.check = .ok (.ok ())) (t : Magnitude)
  {s : Balancing.State α} (hs : Balancing.Balanced
    (fun shape x y => (magnitudes A t).product shape 1 0 x y) A.rows A.cols s)
  (hd : s.d.size = A.rows) (he : s.e.size = A.cols)

include h hs hd he

/-- After an iteration the balanced magnitudes of a row add up to the number
of columns, unless they are all zero. -/
theorem rowSum_balanced (hiter : 0 < s.record.iterations) {i j : Nat} {u : α}
    (hu : (i, j, u) ∈ (PairedMatrix.ofForm A).row.triplets) (hu0 : u ≠ 0) :
    0 ≤ s.d.getD i 0 ∧ (∀ k, 0 ≤ s.e.getD k 0)
      ∧ s.d.getD i 0
        * (((PairedMatrix.ofForm A).row.triplets.filter fun e => e.1 = i).map
        fun e => t.of e.2.2 * s.e.getD e.2.1 0).sum = Scalar.ofNat A.cols := by
  obtain ⟨hi, hj⟩ := SlicedMatrix.lt_of_mem_forms h hu
  have henonneg : ∀ k, 0 ≤ s.e.getD k 0 := by
    intro k
    by_cases hk : k < s.e.size
    · exact (hs.e_getD_pos (Nat.zero_lt_of_lt hi) hk).le
    · rw [Array.getD, dif_neg hk]
  have hproduct :=
    SlicedMatrix.product_magnitudes h t (x := s.e) (y := s.d) (hd ▸ hi)
  have hmem : (i, j, u) ∈ (PairedMatrix.ofForm A).row.triplets.filter fun e =>
      e.1 = i :=
    List.mem_filter.mpr ⟨hu, decide_eq_true rfl⟩
  generalize (PairedMatrix.ofForm A).row.triplets.filter (fun e => e.1 = i) = L
    at hproduct hmem ⊢
  -- one term of the sum is positive, and none is negative
  have hpos : 0 < (L.map fun e => t.of e.2.2 * s.e.getD e.2.1 0).sum := by
    have hterm : 0 < t.of u * s.e.getD j 0 :=
      mul_pos (t.of_pos hu0) (hs.e_getD_pos (Nat.zero_lt_of_lt hi) (he ▸ hj))
    refine hterm.trans_le
      (List.single_le_sum ?_ _ (List.mem_map.mpr ⟨_, hmem, rfl⟩))
    intro a ha
    obtain ⟨e, -, rfl⟩ := List.mem_map.mp ha
    exact mul_nonneg (t.of_nonneg _) (henonneg _)
  have hfactor : s.d.getD i 0
      = Scalar.ofNat A.cols
        / (L.map fun e => t.of e.2.2 * s.e.getD e.2.1 0).sum := by
    rw [hs.d_eq hiter, Array.getD_eq_getD_getElem?, Array.getElem?_map,
      hproduct, Option.map_some, Option.getD_some, Balancing.factor,
      if_pos hpos]
  refine ⟨(hs.d_getD_pos (Nat.zero_lt_of_lt hj) (hd ▸ hi)).le, henonneg, ?_⟩
  rw [hfactor, div_mul_cancel₀ _ hpos.ne']

/-- **Rows are balanced.** After an iteration the rows of the equilibrated
matrix that are not zero have one total. -/
theorem rowTotal_rescaled (norm : α) (hiter : 0 < s.record.iterations) {i : Nat}
    (hrow : (PairedMatrix.ofForm (A.mapEntries (rescaledEntry t norm
      (factorsFor t s.d) (factorsFor t s.e)))).row.NonzeroRow i) :
    (PairedMatrix.ofForm (A.mapEntries (rescaledEntry t norm (factorsFor t s.d)
        (factorsFor t s.e)))).row.rowTotal t i
      = t.of (share norm) * t.of (share norm) * Scalar.ofNat A.cols := by
  obtain ⟨j, v, hmem, hv⟩ := hrow
  rw [PairedMatrix.ofForm_mapEntries h] at hmem ⊢
  replace hmem : (i, j, v) ∈ ((PairedMatrix.ofForm A).row.mapEntries
    (rescaledEntry t norm (factorsFor t s.d) (factorsFor t s.e))).triplets :=
    hmem
  show ((PairedMatrix.ofForm A).row.mapEntries _).rowTotal t i = _
  rw [SlicedMatrix.triplets_mapEntries] at hmem
  obtain ⟨⟨i, j, u⟩, hu, heq⟩ := List.mem_map.mp hmem
  cases heq
  have hu0 : u ≠ 0 := by
    rintro rfl
    exact hv (by rw [rescaledEntry_eq, mul_zero, zero_mul])
  obtain ⟨hdi, hej, hsum⟩ := rowSum_balanced h t hs hd he hiter hu hu0
  rw [SlicedMatrix.rowTotal_mapEntries]
  simp only [of_rescaledEntry t norm hdi (hej _)]
  rw [List.sum_map_mul_left, mul_assoc, hsum]

end Rows

/-- What holds of the factors of a run on magnitudes. -/
theorem Holds.balanced_of_run {M : SolverMatrix α} {A : SlicedMatrix α}
    (hM : M.Holds A) (t : Magnitude) {d e : Array α} {budget : Nat} {tol : α}
    {run : BalanceRun α} {record : BalanceRecord α}
    (h : Balancing.run (M.holding (magnitudes A t)).operator d e budget tol ()
      = .ok (run, ()))
    (hok : run.outcome = .ok record) :
    ∃ s : Balancing.State α,
      Balancing.Balanced (fun shape x y =>
        (magnitudes A t).product shape 1 0 x y) A.rows A.cols s
        ∧ (s.d.size = A.rows ∧ s.e.size = A.cols) ∧ (s.d = run.d ∧ s.e = run.e)
        ∧ s.record.iterations = record.iterations := by
  have hmag := hM.holding_magnitudes t
  have hrows : (M.holding (magnitudes A t)).operator.rows = A.rows := hM.rows_eq
  have hcols : (M.holding (magnitudes A t)).operator.cols = A.cols := hM.cols_eq
  have hproducts := SlicedMatrix.scaledProducts hmag.check 1
  obtain ⟨hd, he, hcap⟩ := Balancing.sizes_of_run h
  obtain ⟨s, record', hs, hfits, hiter, hrun⟩ :=
    Balancing.run_rule hmag.computes (Balancing.Balanced
      (fun shape x y => (magnitudes A t).product shape 1 0 x y) _ _)
    (Balancing.balanced_start _ _ _ d e _) (fun s hfits hs =>
      hs.next hmag.computes hproducts.overwrites hfits) hd he hcap budget tol
  rw [hrun] at h
  cases h
  cases hok
  rw [hrows, hcols] at hs
  exact ⟨s, hs, ⟨hfits.d_size.trans hrows, hfits.e_size.trans hcols⟩,
    ⟨rfl, rfl⟩, hiter.symm⟩

end SolverMatrix

end Equilibration
