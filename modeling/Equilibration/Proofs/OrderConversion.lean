import Equilibration.Proofs.CountingSort

/-!
# OrderConversion — conversion is a stable transpose

What conversion to the other storage order does to a matrix, said of the
matrix itself: its triplets of row, column and value, the values it stores
for a position, and its first entry for a position. `SlicedMatrix.inOrder`
keeps the triplets, sorts every slice, and keeps the order of the values
that are stored for one position.

Repeated positions are why the order matters: products add them up, but the
entry of a position is the first one stored for it.
-/

namespace Equilibration

open Checked

/-- Arrays for both storage forms of a matrix can be allocated: the
pointers of each form, and an index and a value for each entry. -/
structure FitsMemory (rows cols entries : Nat) : Prop where
  rows_lt : rows + 1 < capacity
  cols_lt : cols + 1 < capacity
  entries_lt : entries < capacity

theorem StorageOrder.eq_flip_of_ne (o : StorageOrder) {o' : StorageOrder}
    (h : o' ≠ o) :
    o' = o.flip := by
  cases o <;> cases o'
  · exact absurd rfl h
  · rfl
  · rfl
  · exact absurd rfl h

theorem FitsMemory.primary_lt {rows cols entries : Nat}
    (h : FitsMemory rows cols entries) (o : StorageOrder) :
    o.primary rows cols + 1 < capacity := by
  cases o
  · exact h.rows_lt
  · exact h.cols_lt

/-- The form in the opposite order can be allocated. -/
def SlicedMatrix.HasRoom {α : Type} (A : SlicedMatrix α) : Prop :=
  A.indexBound + 1 < capacity ∧ A.values.size < capacity

theorem FitsMemory.hasRoom {α : Type} {A : SlicedMatrix α}
    (h : FitsMemory A.rows A.cols A.values.size) : A.HasRoom :=
  ⟨h.primary_lt A.order.flip, h.entries_lt⟩

/-- The row, the column and the value of an entry. -/
def Cell.triplet {α : Type} (order : StorageOrder) (c : Cell α) :
    Nat × Nat × α :=
  match order with
  | .row => (c.slice, c.index, c.value)
  | .col => (c.index, c.slice, c.value)

theorem Cell.triplet_flip_swap {α : Type} (order : StorageOrder) (c : Cell α) :
    c.swap.triplet order.flip = c.triplet order := by cases order <;> rfl

namespace SlicedMatrix

open Slices

variable {α : Type}

/-- The row, the column and the value of every entry, as they are stored. -/
def triplets (A : SlicedMatrix α) : List (Nat × Nat × α) :=
  A.slices.cells.map (Cell.triplet A.order)

/-- The values stored for a position, as they are stored. -/
def valuesAt (A : SlicedMatrix α) (row col : Nat) : List α :=
  A.slices.valuesAt (A.order.locate row col).1 (A.order.locate row col).2

/-- The matrix in the opposite order, written down from its slices. -/
def flipped (A : SlicedMatrix α) : SlicedMatrix α :=
  ofSlices A.order.flip A.rows A.cols (A.slices.transposed A.indexBound)

/-- The matrix with every slice sorted by index, entries of one index in
their old order. -/
def stablySorted (A : SlicedMatrix α) : SlicedMatrix α :=
  ofSlices A.order A.rows A.cols (A.slices.map stableSort)

/-! ## The first entry of a position -/

theorem head?_valuesOf (s : List (Nat × α)) (j : Nat) :
    (valuesOf s j).head?
      = ((s.map Prod.fst).findIdx? (· == j)).bind fun p =>
        s[p]?.map Prod.snd := by
  induction s with
  | nil => rfl
  | cons e s ih =>
    rw [valuesOf_cons, List.map_cons, List.findIdx?_cons]
    by_cases h : e.1 = j
    · simp [h]
    · rw [if_neg h, ih, beq_false_of_ne h]
      cases (s.map Prod.fst).findIdx? (· == j) <;> rfl

/-- The entry of a position is the first value stored for it. -/
theorem entry_ofSlices {order : StorageOrder} {rows cols : Nat} {ss : Slices α}
    (hlen : ss.length = order.primary rows cols) {row col : Nat}
    (hrow : row < rows) (hcol : col < cols) :
    SlicedMatrix.entry? (ofSlices order rows cols ss) row col
      = .ok (ss.valuesAt (order.locate row col).1
        (order.locate row col).2).head? := by
  have hk : (order.locate row col).1 < ss.length := by
    rw [hlen]
    cases order
    · exact hrow
    · exact hcol
  generalize hkj : order.locate row col = kj at hk
  obtain ⟨k, j⟩ := kj
  unfold entry?
  rw [require_eq_ok ⟨hrow, hcol⟩, ok_bind]
  simp only [order_ofSlices, hkj, bounds_ofSlices hk, ok_bind,
    cut_indices_ofSlices hk]
  rw [Slices.valuesAt, List.getElem?_eq_getElem hk, Option.getD_some,
    head?_valuesOf]
  cases hfind : (ss[k].map Prod.fst).findIdx? (· == j) with
  | none => rfl
  | some p =>
    have hp : p < ss[k].length := by
      simpa using (List.findIdx?_eq_some_iff_getElem.mp hfind).1
    simp only [read_values_ofSlices hk hp, ok_bind, pure_eq_ok,
      Option.bind_some, List.getElem?_eq_getElem hp, Option.map_some]

theorem entry_eq_ok {A : SlicedMatrix α} (h : A.check = .ok (.ok ()))
    {row col : Nat} (hrow : row < A.rows) (hcol : col < A.cols) :
    A.entry? row col = .ok (A.valuesAt row col).head? := by
  have := entry_ofSlices (fits_slices h).length_eq hrow hcol
  rwa [ofSlices_slices h] at this

/-! ## The matrix in the opposite order -/

section Flipped

variable {A : SlicedMatrix α} (h : A.check = .ok (.ok ()))

include h

theorem length_flatten_slices : A.slices.flatten.length = A.values.size :=
  (WellCut.of_check h).length_flatten

theorem fits_transposed_slices :
    (A.slices.transposed A.indexBound).Fits (A.order.flip.primary A.rows A.cols)
      (A.order.flip.flip.primary A.rows A.cols) := by
  have := fits_transposed A.slices A.indexBound
  rwa [(fits_slices h).length_eq, sliceCount, ← A.order.flip_flip] at this

theorem slices_flipped : A.flipped.slices = A.slices.transposed A.indexBound :=
  slices_ofSlices (fits_transposed_slices h).length_eq

theorem check_flipped (hroom : A.HasRoom) : A.flipped.check = .ok (.ok ()) :=
  check_ofSlices (Nat.lt_trans hroom.1 (by decide)) (fits_transposed_slices h)

theorem size_values_flipped : A.flipped.values.size = A.values.size := by
  have hlen := (cells_transposed_perm (fits_slices h)).length_eq
  rw [List.length_map, length_cells, length_cells] at hlen
  rw [flipped, size_values_ofSlices, hlen, length_flatten_slices h]

theorem hasRoom_flipped (hmem : FitsMemory A.rows A.cols A.values.size) :
    A.flipped.HasRoom := by
  rw [HasRoom, size_values_flipped h]
  exact ⟨hmem.primary_lt A.order.flip.flip, hmem.entries_lt⟩

theorem triplets_flipped_perm : A.flipped.triplets.Perm A.triplets := by
  have hperm :=
    (cells_transposed_perm (fits_slices h)).map (Cell.triplet A.order.flip)
  rw [List.map_map] at hperm
  rw [triplets, slices_flipped h]
  refine hperm.trans (List.Perm.of_eq ?_)
  apply List.map_congr_left
  intro c _
  exact Cell.triplet_flip_swap A.order c

theorem sorted_flipped : A.flipped.slices.Sorted := by
  rw [slices_flipped h]
  exact sorted_transposed A.slices A.indexBound

theorem valuesAt_flipped (row col : Nat) :
    A.flipped.valuesAt row col = A.valuesAt row col := by
  rw [valuesAt, valuesAt, slices_flipped h]
  show (A.slices.transposed A.indexBound).valuesAt
    (A.order.flip.locate row col).1 (A.order.flip.locate row col).2 = _
  cases A.order
  · exact (fits_slices h).valuesAt_transposed col row
  · exact (fits_slices h).valuesAt_transposed row col

/-- Turning the order twice sorts the slices. -/
theorem flipped_flipped : A.flipped.flipped = A.stablySorted := by
  have htwice := transposed_transposed (fits_slices h)
  rw [flipped, slices_flipped h, stablySorted, ← htwice]
  show ofSlices A.order.flip.flip A.rows A.cols
    ((A.slices.transposed A.indexBound).transposed
      (A.order.flip.flip.primary A.rows A.cols)) = _
  rw [A.order.flip_flip]
  rfl

theorem stablySorted_of_sorted (hsorted : A.slices.Sorted) :
    A.stablySorted = A := by
  rw [stablySorted, map_stableSort_of_sorted hsorted, ofSlices_slices h]

theorem slices_stablySorted : A.stablySorted.slices = A.slices.map stableSort :=
  slices_ofSlices (by rw [List.length_map]; exact (fits_slices h).length_eq)

theorem stablySorted_eq_iff : A.stablySorted = A ↔ A.slices.Sorted := by
  constructor
  · intro heq
    have hslices := slices_stablySorted h
    rw [heq] at hslices
    exact map_stableSort_eq_iff.mp hslices.symm
  · exact stablySorted_of_sorted h

end Flipped

/-! ## Conversion -/

/-- What a conversion sets up before it moves an entry is room for its result
and a count for each index. -/
theorem WellCut.of_allocated {A : SlicedMatrix α} (h : A.WellCut) {count : Nat}
    {counts indices : Array Nat} (hcount : A.entryCount = .ok count)
    (hcounts : A.indexCounts = .ok counts)
    (hindices : allocate count 0 = .ok indices) :
    A.HasRoom ∧ ∀ j ∈ A.indices, j ≤ A.indexBound := by
  rw [h.entryCount_eq, Except.ok.injEq] at hcount
  rw [indexCounts, bind_eq_ok_iff] at hcounts
  obtain ⟨zeros, hzeros, hcounted⟩ := hcounts
  obtain ⟨hbound, rfl⟩ := allocate_eq_ok_iff.mp hzeros
  refine ⟨⟨hbound, hcount ▸ (allocate_eq_ok_iff.mp hindices).1⟩, ?_⟩
  intro j hj
  have := lt_size_of_counted hcounted j (Array.mem_toList_iff.mpr hj)
  rw [Array.size_replicate] at this
  exact Nat.le_of_lt_succ this

theorem WellCut.of_inOrder [Scalar α] {A B : SlicedMatrix α} (h : A.WellCut)
    (hB : A.inOrder A.order.flip = .ok B) :
    A.HasRoom ∧ ∀ j ∈ A.indices, j ≤ A.indexBound := by
  rw [inOrder, if_neg A.order.flip_ne, regroup, bind_eq_ok_iff] at hB
  obtain ⟨count, hcount, hB⟩ := hB
  rw [bind_eq_ok_iff] at hB
  obtain ⟨counts, hcounts, hB⟩ := hB
  rw [bind_eq_ok_iff] at hB
  obtain ⟨indices, hindices, -⟩ := hB
  exact h.of_allocated hcount hcounts hindices

section Conversion

variable [Scalar α] {A : SlicedMatrix α} (h : A.check = .ok (.ok ()))

include h

/-- A conversion that succeeds found room for its result. -/
theorem hasRoom_of_inOrder {B : SlicedMatrix α}
    (hB : A.inOrder A.order.flip = .ok B) :
    A.HasRoom :=
  ((WellCut.of_check h).of_inOrder hB).1

theorem inOrder_flip (hroom : A.HasRoom) :
    A.inOrder A.order.flip = .ok A.flipped := by
  have hregroup := regroup_of_fits (fits_slices h) hroom.1
    (by rw [length_flatten_slices h]; exact hroom.2)
  rw [inOrder, if_neg A.order.flip_ne]
  rwa [ofSlices_slices h] at hregroup

/-- Conversion succeeds if there is room, and has one result. -/
theorem inOrder_flip_iff {B : SlicedMatrix α} :
    A.inOrder A.order.flip = .ok B ↔ A.HasRoom ∧ B = A.flipped := by
  constructor
  · intro hB
    have hroom := hasRoom_of_inOrder h hB
    rw [inOrder_flip h hroom] at hB
    exact ⟨hroom, (Except.ok.inj hB).symm⟩
  · rintro ⟨hroom, rfl⟩
    exact inOrder_flip h hroom

theorem inOrder_flipped (hmem : FitsMemory A.rows A.cols A.values.size) :
    A.flipped.inOrder A.order = .ok A.stablySorted := by
  have := inOrder_flip (check_flipped h hmem.hasRoom) (hasRoom_flipped h hmem)
  rw [flipped_flipped h] at this
  rw [← this]
  show _ = A.flipped.inOrder A.order.flip.flip
  rw [A.order.flip_flip]

/-- A third conversion gives what the first one gave. -/
theorem inOrder_stablySorted (hmem : FitsMemory A.rows A.cols A.values.size) :
    A.stablySorted.inOrder A.order.flip = .ok A.flipped := by
  have hcheck := check_flipped h hmem.hasRoom
  have hmem' :
      FitsMemory A.flipped.rows A.flipped.cols A.flipped.values.size := by
    rw [size_values_flipped h]
    exact hmem
  have := inOrder_flipped hcheck hmem'
  rwa [flipped_flipped h, stablySorted_of_sorted hcheck (sorted_flipped h)]
    at this

end Conversion

/-- **Conversion is a stable transpose.** The result is well formed, holds
the same triplets, has sorted slices and keeps the order of the values of
each position. Converting back sorts the slices of the matrix, so it gives
the matrix itself exactly if they were sorted, and converting once more
changes nothing. The entry of a position is the same in every order. -/
theorem inOrder_stable_transpose [Scalar α] (A : SlicedMatrix α)
    (h : A.check = .ok (.ok ()))
    (hmem : FitsMemory A.rows A.cols A.values.size) :
    ∃ B, A.inOrder A.order.flip = .ok B
      ∧ B.check = .ok (.ok ())
      ∧ (B.order = A.order.flip ∧ B.rows = A.rows ∧ B.cols = A.cols)
      ∧ B.triplets.Perm A.triplets
      ∧ B.slices.Sorted
      ∧ (∀ row col, B.valuesAt row col = A.valuesAt row col)
      ∧ B.inOrder A.order = .ok A.stablySorted
      ∧ (B.inOrder A.order = .ok A ↔ A.slices.Sorted)
      ∧ A.stablySorted.inOrder A.order.flip = .ok B
      ∧ ∀ o, ∃ C, A.inOrder o = .ok C
          ∧ ∀ row col, row < A.rows → col < A.cols →
            C.entry? row col = A.entry? row col
              ∧ C.entry? row col = .ok (A.valuesAt row col).head? := by
  have hcheck := check_flipped h hmem.hasRoom
  refine ⟨A.flipped, inOrder_flip h hmem.hasRoom, hcheck, ⟨rfl, rfl, rfl⟩,
    triplets_flipped_perm h, sorted_flipped h, valuesAt_flipped h,
    inOrder_flipped h hmem, ?_, inOrder_stablySorted h hmem, ?_⟩
  · rw [inOrder_flipped h hmem, Except.ok.injEq, stablySorted_eq_iff h]
  · intro o
    by_cases ho : o = A.order
    · refine ⟨A, if_pos ho, ?_⟩
      intro row col hrow hcol
      exact ⟨rfl, entry_eq_ok h hrow hcol⟩
    · have hflip : o = A.order.flip := A.order.eq_flip_of_ne ho
      refine ⟨A.flipped, by rw [hflip, inOrder_flip h hmem.hasRoom], ?_⟩
      intro row col hrow hcol
      rw [entry_eq_ok h hrow hcol, entry_eq_ok hcheck hrow hcol,
        valuesAt_flipped h]
      exact ⟨rfl, rfl⟩

theorem inOrder_stable_transpose_repeated :
    let A : SlicedMatrix Float :=
      ⟨.row, 2, 3, #[0, 3, 4], #[2, 0, 2, 1], #[1, 2, 3, 4]⟩
    A.check = .ok (.ok ()) ∧ FitsMemory A.rows A.cols A.values.size
      ∧ ∃ B, A.inOrder .col = .ok B ∧ B.check = .ok (.ok ())
        ∧ B.inOrder .row = .ok A.stablySorted := by
  intro A
  have h : A.check = .ok (.ok ()) := by decide +kernel
  have hmem : FitsMemory A.rows A.cols A.values.size :=
    ⟨by decide, by decide, by decide⟩
  obtain ⟨B, hB, hcheck, -, -, -, -, hback, -⟩ :=
    inOrder_stable_transpose A h hmem
  exact ⟨h, hmem, B, hB, hcheck, hback⟩

end SlicedMatrix

end Equilibration
