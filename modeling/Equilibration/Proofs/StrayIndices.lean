import Equilibration.Proofs.OrderConversion

/-!
# StrayIndices — conversion of matrices with bad indices

Conversion does not check the indices it sorts by. Its array of places has one
cell more than the result has slices, so an index that equals the secondary
dimension is counted and placed like any other, and only a larger one is out
of range.

An entry with such a stray index does not get lost and does not disturb the
others. It ends up behind all slices of the result, in cells that no pointer
reaches: the result is the conversion of the entries that are in range, with
the stray entries behind it (`SlicedMatrix.inOrder_flip_of_wellCut`). Its last
pointer is too small for its arrays, and the check of the format says so. So a
conversion never turns a malformed matrix into a well-formed one
(`SlicedMatrix.conversion_keeps_faults`).
-/

namespace Equilibration

open Checked Slices

namespace Slices

variable {α : Type}

/-- The entries whose index lies below a bound. -/
def below (ss : Slices α) (bound : Nat) : Slices α :=
  ss.map fun s => s.filter fun e => e.1 < bound

@[simp] theorem length_below (ss : Slices α) (bound : Nat) :
    (ss.below bound).length = ss.length := List.length_map _

theorem fits_below (ss : Slices α) (bound : Nat) :
    (ss.below bound).Fits ss.length bound where
  length_eq := ss.length_below bound
  index_lt s hs e he := by
    obtain ⟨t, -, rfl⟩ := List.mem_map.mp hs
    exact of_decide_eq_true (List.mem_filter.mp he).2

theorem cells_below (ss : Slices α) (bound : Nat) :
    (ss.below bound).cells = ss.cells.filter fun c => c.index < bound := by
  rw [cells, cells, List.filter_flatMap, length_below]
  apply List.flatMap_congr
  intro k hk
  have hk' : k < ss.length := List.mem_range.mp hk
  rw [below, List.getElem?_map, List.getElem?_eq_getElem hk', Option.map_some,
    Option.getD_some, Option.getD_some, List.filter_map]
  rfl

theorem length_flatten_below_le (ss : Slices α) (bound : Nat) :
    (ss.below bound).flatten.length ≤ ss.flatten.length := by
  rw [← length_cells, ← length_cells, cells_below]
  exact List.length_filter_le _ _

/-- The entries of an index are there as long as the index is below the
bound. -/
theorem bucket_cells_below (ss : Slices α) {bound j : Nat} (hj : j < bound) :
    bucket (ss.below bound).cells j = bucket ss.cells j := by
  rw [cells_below, bucket, bucket, List.filterMap_filter]
  apply List.filterMap_congr
  intro c _
  by_cases h : c.index = j
  · simp [h, hj]
  · simp [h]

/-- Entries that are not dealt out make no difference to the others. -/
theorem transposed_below (ss : Slices α) (bound : Nat) :
    (ss.below bound).transposed bound = ss.transposed bound := by
  rw [transposed, transposed, dealt, dealt]
  apply List.map_congr_left
  intro j hj
  exact ss.bucket_cells_below (List.mem_range.mp hj)

theorem valuesAt_below (ss : Slices α) {bound j : Nat} (hj : j < bound)
    (k : Nat) :
    (ss.below bound).valuesAt k j = ss.valuesAt k j := by
  rw [valuesAt, valuesAt, below, List.getElem?_map]
  cases ss[k]? with
  | none => rfl
  | some s =>
    rw [Option.map_some, Option.getD_some, Option.getD_some, valuesOf, valuesOf,
      List.filterMap_filter]
    apply List.filterMap_congr
    intro e _
    by_cases h : e.1 = j
    · simp [h, hj]
    · simp [h]

end Slices

namespace SlicedMatrix

variable {α : Type}

/-- The matrix of the entries whose indices are in range. -/
def inRange (A : SlicedMatrix α) : SlicedMatrix α :=
  ofSlices A.order A.rows A.cols (A.slices.below A.indexBound)

/-- The entries whose index equals the secondary dimension, each with the slice
it comes from. -/
def strays (A : SlicedMatrix α) : List (Nat × α) :=
  bucket A.slices.cells A.indexBound

/-! ## The entries in range -/

theorem slices_inRange (A : SlicedMatrix α) :
    A.inRange.slices = A.slices.below A.indexBound :=
  slices_ofSlices ((A.slices.length_below _).trans A.length_slices)

theorem flipped_inRange (A : SlicedMatrix α) :
    A.inRange.flipped = A.flipped := by
  rw [flipped, slices_inRange]
  show ofSlices A.order.flip A.rows A.cols
    ((A.slices.below A.indexBound).transposed A.indexBound) = _
  rw [transposed_below]
  rfl

theorem valuesAt_inRange (A : SlicedMatrix α) {row col : Nat}
    (hrow : row < A.rows) (hcol : col < A.cols) :
    A.inRange.valuesAt row col = A.valuesAt row col := by
  have hindex : (A.order.locate row col).2 < A.indexBound := by
    unfold indexBound
    cases A.order
    · exact hcol
    · exact hrow
  rw [valuesAt, slices_inRange]
  exact A.slices.valuesAt_below hindex _

section WellCut

variable {A : SlicedMatrix α} (h : A.WellCut)

include h

theorem WellCut.check_inRange : A.inRange.check = .ok (.ok ()) := by
  have hfits := A.slices.fits_below A.indexBound
  rw [A.length_slices] at hfits
  exact check_ofSlices h.count_lt hfits

theorem WellCut.hasRoom_inRange (hroom : A.HasRoom) : A.inRange.HasRoom := by
  refine ⟨hroom.1, ?_⟩
  rw [inRange, size_values_ofSlices]
  exact Nat.lt_of_le_of_lt
    (h.length_flatten ▸ length_flatten_below_le A.slices _) hroom.2

/-! ## Indices and the check -/

theorem WellCut.map_index_cells :
    A.slices.cells.map Cell.index = A.indices.toList := by
  conv_rhs => rw [← h.ofSlices_slices]
  exact Slices.map_index_cells A.slices

theorem WellCut.length_strays :
    A.strays.length = A.indices.count A.indexBound := by
  rw [strays, length_bucket, h.map_index_cells, Array.count_toList]

/-- What the check asks beyond the pointers is a question about the indices. -/
theorem WellCut.check_eq_ok_iff :
    A.check = .ok (.ok ()) ↔ ∀ j ∈ A.indices, j < A.indexBound := by
  constructor
  · intro hcheck
    exact (SlicedMatrix.of_check hcheck).2.2.2.2.2.2
  · intro hindex
    rw [← h.ofSlices_slices]
    refine check_ofSlices h.count_lt ⟨A.length_slices, ?_⟩
    intro s hs e he
    apply hindex
    rw [← Array.mem_toList_iff, ← h.map_index_cells, Slices.map_index_cells]
    exact List.mem_map.mpr ⟨e, List.mem_flatten.mpr ⟨s, hs, he⟩, rfl⟩

theorem WellCut.index_lt_of_mem_cells
    (hle : ∀ j ∈ A.indices, j ≤ A.indexBound) :
    ∀ c ∈ A.slices.cells, c.index < A.indexBound + 1 := by
  intro c hc
  apply Nat.lt_succ_of_le
  apply hle
  rw [← Array.mem_toList_iff, ← h.map_index_cells]
  exact List.mem_map_of_mem hc

/-- Where no index is larger than the bound, strays are all that can be wrong.
-/
theorem WellCut.check_eq_ok_iff_of_le
    (hle : ∀ j ∈ A.indices, j ≤ A.indexBound) :
    A.check = .ok (.ok ()) ↔ A.strays = [] := by
  rw [h.check_eq_ok_iff, ← List.length_eq_zero_iff, h.length_strays,
    Array.count_eq_zero]
  constructor
  · intro hlt hmem
    exact Nat.lt_irrefl _ (hlt _ hmem)
  · intro hno j hj
    exact Nat.lt_of_le_of_ne (hle j hj) fun heq => hno (heq ▸ hj)

end WellCut

/-- In range or stray, every entry has its place. -/
theorem WellCut.length_transposed_add_strays {A : SlicedMatrix α}
    (h : A.WellCut) (hle : ∀ j ∈ A.indices, j ≤ A.indexBound) :
    (A.slices.transposed A.indexBound).flatten.length + A.strays.length
      = A.values.size := by
  have hall := length_flatten_dealt (h.index_lt_of_mem_cells hle)
  rw [dealt_succ, List.flatten_append, List.flatten_singleton,
    List.length_append, length_cells, h.length_flatten] at hall
  exact hall

/-! ## Conversion -/

/-- The last pointer of a matrix with entries behind its slices falls short of
its arrays. -/
theorem check_followedBy {order : StorageOrder} {rows cols : Nat}
    {ss : Slices α}
    {es : List (Nat × α)} (hlen : ss.length = order.primary rows cols)
    (hcap : order.primary rows cols + 1 < UInt64.size) (hes : es ≠ []) :
    ((ofSlices order rows cols ss).followedBy es).check
      = .ok (.error .lengthMismatch) := by
  have hsize : ((ofSlices order rows cols ss).followedBy es).indices.size
      = ((ofSlices order rows cols ss).followedBy es).values.size := by
    simp
  have hlast : ((ofSlices order rows cols ss).followedBy
      es).starts[order.primary rows cols]?
      ≠ some ((ofSlices order rows cols ss).followedBy es).indices.size := by
    have hpos := List.length_pos_iff.mpr hes
    rw [size_indices_followedBy, size_indices_ofSlices, followedBy, ← hlen,
      getElem?_starts_ofSlices (Nat.le_refl _), start_length]
    intro heq
    have := Option.some.inj heq
    omega
  refine (checkArrays_eq_ok hcap).trans ?_
  rw [if_neg (not_not.mpr hsize), checkSlices, if_pos (.inr hlast)]

section Conversion

variable [Scalar α] {A : SlicedMatrix α} (h : A.WellCut)

include h

/-- Conversion places the entries in range as if they were alone, and the
strays behind them. -/
theorem inOrder_flip_of_wellCut (hroom : A.HasRoom)
    (hle : ∀ j ∈ A.indices, j ≤ A.indexBound) :
    A.inOrder A.order.flip = .ok (A.flipped.followedBy A.strays) := by
  have hregroup := regroup_ofSlices A.length_slices hroom.1
    (by rw [h.length_flatten]; exact hroom.2) (h.index_lt_of_mem_cells hle)
  rw [h.ofSlices_slices] at hregroup
  rw [inOrder, if_neg A.order.flip_ne, hregroup]
  rfl

/-- A conversion stops for want of room or at an index beyond the secondary
dimension, and for no other reason. -/
theorem inOrder_flip_error_iff : (∃ v, A.inOrder A.order.flip = .error v)
    ↔ ¬ A.HasRoom ∨ ∃ j ∈ A.indices, A.indexBound < j := by
  constructor
  · rintro ⟨v, hv⟩
    by_contra hno
    rw [not_or, not_not] at hno
    have hle : ∀ j ∈ A.indices, j ≤ A.indexBound := by
      intro j hj
      exact Nat.le_of_not_lt fun hlt => hno.2 ⟨j, hj, hlt⟩
    rw [inOrder_flip_of_wellCut h hno.1 hle] at hv
    cases hv
  · intro hbad
    cases hB : A.inOrder A.order.flip with
    | error v => exact ⟨v, rfl⟩
    | ok B =>
      obtain ⟨hroom, hle⟩ := h.of_inOrder hB
      rcases hbad with hno | ⟨j, hj, hlt⟩
      · exact absurd hroom hno
      · exact absurd hlt (Nat.not_lt.mpr (hle j hj))

end Conversion

/-- **Conversion never hides a bad index.** Take a matrix whose pointers cut
its entries into slices, and let the indices be anything. Conversion to the
other order stops exactly if its result cannot be allocated or some index
exceeds the secondary dimension. A result passes the check exactly if the
matrix does. An index that equals the secondary dimension shows in the result
as a last pointer that falls short of the number of entries, by as many as
there are such indices, and the check names the mismatch.

The entries in range are not disturbed. They form a well-formed matrix of their
own, and its conversion is the result up to the stray entries that follow it. -/
theorem conversion_keeps_faults [Scalar α] (A : SlicedMatrix α)
    (h : A.WellCut) :
    ((∃ v, A.inOrder A.order.flip = .error v)
      ↔ ¬ A.HasRoom ∨ ∃ j ∈ A.indices, A.indexBound < j)
    ∧ ∀ B, A.inOrder A.order.flip = .ok B →
      (B.check = .ok (.ok ()) ↔ A.check = .ok (.ok ()))
      ∧ (A.indexBound ∈ A.indices → B.check = .ok (.error .lengthMismatch))
      ∧ (B.indices.size = A.indices.size ∧ B.values.size = A.values.size)
      ∧ (∃ last, B.entryCount = .ok last
        ∧ last + A.indices.count A.indexBound = B.indices.size)
      ∧ A.inRange.check = .ok (.ok ())
      ∧ (∀ row col, row < A.rows → col < A.cols →
        A.inRange.valuesAt row col = A.valuesAt row col)
      ∧ ∃ C, A.inRange.inOrder A.order.flip = .ok C
        ∧ C.check = .ok (.ok ())
        ∧ C.slices.Sorted
        ∧ (∀ row col, C.valuesAt row col = A.inRange.valuesAt row col)
        ∧ B = C.followedBy A.strays := by
  refine ⟨inOrder_flip_error_iff h, ?_⟩
  intro B hB
  obtain ⟨hroom, hle⟩ := h.of_inOrder hB
  rw [inOrder_flip_of_wellCut h hroom hle, Except.ok.injEq] at hB
  subst hB
  have hcheck := h.check_inRange
  have hroom' := h.hasRoom_inRange hroom
  have hflipped := check_flipped hcheck hroom'
  have hsorted := sorted_flipped hcheck
  have hvalues := valuesAt_flipped hcheck
  have hconverted := inOrder_flip hcheck hroom'
  rw [flipped_inRange] at hflipped hsorted hvalues hconverted
  have hcap : A.indexBound + 1 < UInt64.size := Nat.lt_trans hroom.1 (by decide)
  have hmismatch (hes : A.strays ≠ []) :
      (A.flipped.followedBy A.strays).check = .ok (.error .lengthMismatch) :=
    check_followedBy (by rw [length_transposed]; rfl) hcap hes
  have hstrays := h.check_eq_ok_iff_of_le hle
  have hsize := h.length_transposed_add_strays hle
  refine ⟨?_, ?_, ⟨?_, ?_⟩, ⟨(A.slices.transposed A.indexBound).flatten.length,
    ?_, ?_⟩, hcheck, fun _ _ => A.valuesAt_inRange, A.flipped, hconverted,
    hflipped, hsorted, hvalues, rfl⟩
  · rw [hstrays]
    constructor
    · intro hok
      by_contra hes
      rw [hmismatch hes] at hok
      cases hok
    · intro hnil
      rw [hnil, followedBy_nil]
      exact hflipped
  · intro hmem
    apply hmismatch
    intro hnil
    exact Nat.lt_irrefl _ (h.check_eq_ok_iff.mp (hstrays.mpr hnil) _ hmem)
  · rw [size_indices_followedBy, flipped, size_indices_ofSlices, hsize,
      h.size_indices]
  · rw [size_values_followedBy, flipped, size_values_ofSlices, hsize]
  · exact entryCount_ofSlices (by rw [length_transposed]; rfl)
  · rw [size_indices_followedBy, flipped, size_indices_ofSlices,
      h.length_strays]

/-- The first value and the fourth have the number of columns for an index. -/
theorem conversion_keeps_faults_overhanging :
    let A : SlicedMatrix Float :=
      ⟨.row, 2, 2, #[0, 3, 5], #[2, 0, 1, 2, 1], #[1, 2, 3, 4, 5]⟩
    let B : SlicedMatrix Float :=
      ⟨.col, 2, 2, #[0, 1, 3], #[0, 0, 1, 0, 1], #[2, 3, 5, 1, 4]⟩
    A.WellCut ∧ A.indexBound ∈ A.indices ∧ A.inOrder .col = .ok B
      ∧ B.check = .ok (.error .lengthMismatch)
      ∧ ∃ C, A.inRange.inOrder .col = .ok C ∧ C.check = .ok (.ok ())
        ∧ B = C.followedBy [(0, 1), (1, 4)] := by
  intro A B
  have h : A.WellCut :=
    ⟨by decide, by decide, by decide, by decide, by decide, by decide⟩
  have hmem : A.indexBound ∈ A.indices := by decide +kernel
  have hB : A.inOrder .col = .ok B := rfl
  obtain ⟨-, hmismatch, -, -, -, -, C, hC, hcheck, -, -, hBC⟩ :=
    (conversion_keeps_faults A h).2 B hB
  exact ⟨h, hmem, hB, hmismatch hmem, C, hC, hcheck, hBC⟩

end SlicedMatrix

end Equilibration
