import Equilibration.Proofs.Building
import Equilibration.Proofs.SignPacking

/-!
# EntryMaps — new values in an old pattern

Every kernel that changes a built matrix gives each entry a new value that
depends on the old one and on the position: `SlicedMatrix.mapEntries`. The
pattern stays, and giving new values commutes with conversion
(`flipped_mapEntries`). So a kernel that is run on both forms keeps them
consistent as soon as it is the same `mapEntries` on both
(`PairedMatrix.ofForm`).
-/

namespace Equilibration

open Checked Slices

theorem StorageOrder.locate_flip (o : StorageOrder) (k j : Nat) :
    o.flip.locate j k = ((o.locate k j).1, (o.locate k j).2) := by
  cases o <;> rfl

theorem StorageOrder.locate_locate (o : StorageOrder) (k j : Nat) :
    o.locate (o.locate k j).1 (o.locate k j).2 = (k, j) := by cases o <;> rfl

namespace Slices

variable {α β γ : Type}

theorem Fits.mapValues {ss : Slices α} {count bound : Nat}
    (h : ss.Fits count bound) (f : Nat → Nat → α → β) :
    (ss.mapValues f).Fits count bound where
  length_eq := (length_mapValues f ss).trans h.length_eq
  index_lt s hs e he := by
    obtain ⟨k, hk⟩ := List.getElem?_of_mem hs
    rw [getElem?_mapValues] at hk
    obtain ⟨s', hs', rfl⟩ := Option.map_eq_some_iff.mp hk
    obtain ⟨e', he', rfl⟩ := List.mem_map.mp he
    exact h.index_lt s' (List.mem_of_getElem? hs') e' he'

theorem mapValues_mapValues (g : Nat → Nat → β → γ) (f : Nat → Nat → α → β)
    (ss : Slices α) :
    (ss.mapValues f).mapValues g = ss.mapValues fun k j v =>
      g k j (f k j v) := by
  apply List.ext_getElem?
  intro k
  rw [getElem?_mapValues, getElem?_mapValues, getElem?_mapValues,
    Option.map_map]
  congr 1
  funext s
  simp

theorem map_length_mapValues (f : Nat → Nat → α → β) (ss : Slices α) :
    (ss.mapValues f).map List.length = ss.map List.length := by
  apply List.ext_getElem?
  intro k
  rw [List.getElem?_map, List.getElem?_map, getElem?_mapValues, Option.map_map]
  congr 1
  funext s
  simp

theorem start_mapValues (f : Nat → Nat → α → β) (ss : Slices α) (k : Nat) :
    (ss.mapValues f).start k = ss.start k := by
  rw [start, start, List.length_flatten, List.length_flatten, List.map_take,
    List.map_take, map_length_mapValues]

theorem map_index_flatten_mapValues (f : Nat → Nat → α → β) (ss : Slices α) :
    (ss.mapValues f).flatten.map Prod.fst = ss.flatten.map Prod.fst := by
  rw [← map_index_cells, ← map_index_cells, cells_mapValues, List.map_map]
  rfl

/-- A change that does not look at positions is a change of the column of
values. -/
theorem map_value_flatten_mapValues (f : α → β) (ss : Slices α) :
    (ss.mapValues fun _ _ v => f v).flatten.map Prod.snd
      = (ss.flatten.map Prod.snd).map f := by
  have h : (ss.mapValues fun _ _ v => f v) = ss.map fun s =>
      s.map fun e => (e.1, f e.2) := by
    apply List.ext_getElem?
    intro k
    rw [getElem?_mapValues, List.getElem?_map]
  rw [h, ← List.map_flatten, List.map_map, List.map_map]
  rfl

end Slices

namespace SlicedMatrix

variable {α β γ : Type}

/-- The matrix with new values, each made of its row, its column and the
old value. -/
def mapEntries (f : Nat → Nat → α → β) (A : SlicedMatrix α) : SlicedMatrix β :=
  ofSlices A.order A.rows A.cols (A.slices.mapValues fun k j v =>
      f (A.order.locate k j).1 (A.order.locate k j).2 v)

@[simp] theorem order_mapEntries (f : Nat → Nat → α → β) (A : SlicedMatrix α) :
    (A.mapEntries f).order = A.order := rfl

@[simp] theorem rows_mapEntries (f : Nat → Nat → α → β) (A : SlicedMatrix α) :
    (A.mapEntries f).rows = A.rows := rfl

@[simp] theorem cols_mapEntries (f : Nat → Nat → α → β) (A : SlicedMatrix α) :
    (A.mapEntries f).cols = A.cols := rfl

@[simp] theorem slices_mapEntries (f : Nat → Nat → α → β) (A : SlicedMatrix α) :
    (A.mapEntries f).slices
      = A.slices.mapValues fun k j v =>
        f (A.order.locate k j).1 (A.order.locate k j).2 v := by
  rw [mapEntries, slices_ofSlices]
  rw [length_mapValues, length_slices]
  rfl

theorem mapEntries_mapEntries (g : Nat → Nat → β → γ) (f : Nat → Nat → α → β)
    (A : SlicedMatrix α) :
    (A.mapEntries f).mapEntries g = A.mapEntries fun i j v =>
      g i j (f i j v) := by
  rw [mapEntries, slices_mapEntries, mapValues_mapValues]
  rfl

theorem valuesAt_mapEntries (f : Nat → Nat → α → β) (A : SlicedMatrix α)
    (i j : Nat) :
    (A.mapEntries f).valuesAt i j = (A.valuesAt i j).map (f i j) := by
  rw [valuesAt, valuesAt, slices_mapEntries, order_mapEntries, Slices.valuesAt,
    Slices.valuesAt, getElem?_mapValues]
  cases A.slices[(A.order.locate i j).1]? with
  | none => rfl
  | some s =>
    rw [Option.map_some, Option.getD_some, Option.getD_some, valuesOf, valuesOf,
      List.filterMap_map, List.map_filterMap]
    apply List.filterMap_congr
    rintro ⟨k, v⟩ -
    dsimp only [Function.comp]
    split
    · next hk => rw [hk, A.order.locate_locate, Option.map_some]
    · rfl

/-- The triplets stay where they are, with new values. -/
theorem triplets_mapEntries (f : Nat → Nat → α → β) (A : SlicedMatrix α) :
    (A.mapEntries f).triplets = A.triplets.map fun e =>
      (e.1, e.2.1, f e.1 e.2.1 e.2.2) := by
  rw [triplets, triplets, slices_mapEntries, cells_mapValues, List.map_map,
    List.map_map, order_mapEntries]
  apply List.map_congr_left
  intro c _
  cases A.order <;> rfl

theorem mem_triplets_mapEntries (f : Nat → Nat → α → β) {A : SlicedMatrix α}
    {i j : Nat} {v : α} (h : (i, j, v) ∈ A.triplets) :
    (i, j, f i j v) ∈ (A.mapEntries f).triplets := by
  rw [triplets_mapEntries]
  exact List.mem_map.mpr ⟨(i, j, v), h, rfl⟩

/-- New values position by position. -/
theorem getElem?_values_mapValues {order : StorageOrder} {rows cols : Nat}
    {ss : Slices α} (g : Nat → Nat → α → β) {k q : Nat} (hk : k < ss.length)
    (hq : q < ss[k].length) :
    (ofSlices order rows cols (ss.mapValues g)).values[ss.start k + q]?
      = some (g k ss[k][q].1 ss[k][q].2) := by
  have hk' : k < (ss.mapValues g).length := by rwa [length_mapValues]
  have hslice : (ss.mapValues g)[k] = ss[k].map fun e =>
      (e.1, g k e.1 e.2) := by
    simp [mapValues]
  have hq' : q < (ss.mapValues g)[k].length := by rwa [hslice, List.length_map]
  have hnew : (ofSlices order rows cols
      (ss.mapValues g)).values[(ss.mapValues g).start k + q]?
      = some (ss.mapValues g)[k][q].2 := getElem?_values_ofSlices hk' hq'
  rw [start_mapValues] at hnew
  simpa only [hslice, List.getElem_map] using hnew

section Pattern

variable {A : SlicedMatrix α} (h : A.check = .ok (.ok ()))
  (f : Nat → Nat → α → β)

include h

theorem check_mapEntries : (A.mapEntries f).check = .ok (.ok ()) :=
  check_ofSlices (of_check h).1 ((fits_slices h).mapValues _)

theorem starts_mapEntries : (A.mapEntries f).starts = A.starts := by
  conv_rhs => rw [← ofSlices_slices h]
  simp only [mapEntries, ofSlices, length_mapValues]
  exact congrArg List.toArray (List.map_congr_left fun k _ =>
      start_mapValues _ A.slices k)

theorem indices_mapEntries : (A.mapEntries f).indices = A.indices := by
  conv_rhs => rw [← ofSlices_slices h]
  rw [mapEntries, ofSlices, ofSlices]
  simp only [map_index_flatten_mapValues]

theorem size_values_mapEntries :
    (A.mapEntries f).values.size = A.values.size := by
  rw [← (of_check h).2.1, ← (of_check (check_mapEntries h f)).2.1,
    indices_mapEntries h f]

theorem hasRoom_mapEntries : (A.mapEntries f).HasRoom ↔ A.HasRoom := by
  rw [HasRoom, size_values_mapEntries h f]
  rfl

/-- New values and conversion commute. -/
theorem flipped_mapEntries :
    (A.mapEntries f).flipped = A.flipped.mapEntries f := by
  have hslices : (A.mapEntries f).slices.transposed A.indexBound
      = A.flipped.slices.mapValues fun k j v =>
        f (A.order.flip.locate k j).1 (A.order.flip.locate k j).2 v := by
    rw [slices_mapEntries, transposed_mapValues, slices_flipped h]
    simp only [A.order.locate_flip]
  show ofSlices A.order.flip A.rows A.cols
    ((A.mapEntries f).slices.transposed A.indexBound) = _
  rw [hslices]
  rfl

/-- A change that does not look at positions changes the array of values
and nothing else. -/
theorem values_mapEntries (g : α → β) :
    (A.mapEntries fun _ _ v => g v).values = A.values.map g := by
  conv_rhs => rw [← ofSlices_slices h]
  simp only [mapEntries, ofSlices, map_value_flatten_mapValues,
    List.map_toArray]

omit f in
theorem mapEntries_id : (A.mapEntries fun _ _ v => v) = A := by
  have hslices : (A.slices.mapValues fun _ _ v => v) = A.slices := by
    apply List.ext_getElem?
    intro k
    rw [getElem?_mapValues]
    simp
  rw [mapEntries, hslices, ofSlices_slices h]

/-- Only the values tell two changes of one matrix apart. -/
theorem withValues_mapEntries_mapEntries (g : Nat → Nat → α → β) :
    { A.mapEntries f with values := (A.mapEntries g).values }
      = A.mapEntries g := by
  have hstarts : (A.mapEntries f).starts = (A.mapEntries g).starts := by
    rw [starts_mapEntries h, starts_mapEntries h]
  have hindices : (A.mapEntries f).indices = (A.mapEntries g).indices := by
    rw [indices_mapEntries h, indices_mapEntries h]
  simp only [hstarts, hindices]
  rfl

omit f in
theorem withValues_mapEntries (f : Nat → Nat → α → α) :
    { A with values := (A.mapEntries f).values } = A.mapEntries f := by
  rw [← starts_mapEntries h f, ← indices_mapEntries h f]
  rfl

omit f in
theorem withValues_mapValues (g : Nat → Nat → α → α) :
    { A with
      values := (ofSlices A.order A.rows A.cols (A.slices.mapValues g)).values }
      = ofSlices A.order A.rows A.cols (A.slices.mapValues g) := by
  have := withValues_mapEntries h fun i j =>
    g (A.order.locate i j).1 (A.order.locate i j).2
  simpa only [mapEntries, StorageOrder.locate_locate] using this

end Pattern

end SlicedMatrix

end Equilibration
