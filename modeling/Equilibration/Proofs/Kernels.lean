import Equilibration.Proofs.EntryMaps

/-!
# Kernels — the changes of a built matrix

Scaling by a number, scaling by a diagonal from each side, and splitting
and joining signs, each as a `SlicedMatrix.mapEntries` of one form. On the
two forms of one matrix every kernel is therefore the same change, with one
proviso: the diagonal scaling multiplies the factors of a position in the
order slice before index, which is row before column in one form and column
before row in the other. There the multiplication must commute, and nowhere
else is any law needed.

Diagonal scaling works the slices off as independent items
(`independent_rescaleItems`): the pieces that it cuts off the values are the
slices, so each item finds its factors at the cells it rewrites.
-/

namespace Equilibration

open Checked Slices WorkItems

/-- What belongs to the rows and what belongs to the columns, sorted into what
belongs to the slices and what belongs to the indices. -/
def StorageOrder.sides {β : Type} (o : StorageOrder) (l r : β) : β × β :=
  match o with
  | .row => (l, r)
  | .col => (r, l)

theorem StorageOrder.size_sides {α : Type} {A : SlicedMatrix α} {l r : Array α}
    (hl : l.size = A.rows) (hr : r.size = A.cols) :
    (A.order.sides l r).1.size = A.sliceCount
      ∧ (A.order.sides l r).2.size = A.indexBound := by
  unfold SlicedMatrix.sliceCount SlicedMatrix.indexBound
  cases A.order
  · exact ⟨hl, hr⟩
  · exact ⟨hr, hl⟩

namespace SlicedMatrix

variable {α : Type} [Scalar α]

theorem scale_eq {A : SlicedMatrix α} (h : A.check = .ok (.ok ())) (c : α) :
    A.scale c = A.mapEntries fun _ _ v => v * c := by
  rw [← withValues_mapEntries h, values_mapEntries h]
  rfl

/-! ## Diagonal scaling -/

/-- The piece of slice `k`. -/
def pieceAt (ss : Slices α) (k : Nat) : Piece :=
  ⟨ss.start k, ss.start (k + 1) - ss.start k, k⟩

omit [Scalar α] in
theorem length_pieceAt {ss : Slices α} {k : Nat} (hk : k < ss.length) :
    (pieceAt ss k).length = ss[k].length := by
  rw [pieceAt, start_succ ss hk, Nat.add_sub_cancel_left]

omit [Scalar α] in
/-- The pieces that the pointers cut off are the slices. -/
theorem cutPieces_starts (ss : Slices α) (k n : Nat) (h : k + n = ss.length) :
    cutPieces k (ss.start k) (ss.flatten.length - ss.start k)
        ((List.range' k (n + 1)).map ss.start)
      = .ok ((List.range' k n).map (pieceAt ss)) := by
  induction n generalizing k with
  | zero => rfl
  | succ n ih =>
    have hle := ss.start_le_succ k
    have hle' := ss.start_le (k + 1)
    have hoffset : ss.start k + (ss.start (k + 1) - ss.start k)
        = ss.start (k + 1) := by omega
    have hroom :
        ss.flatten.length - ss.start k - (ss.start (k + 1) - ss.start k)
          = ss.flatten.length - ss.start (k + 1) := by omega
    have hrest := ih (k + 1) (by omega)
    rw [List.range'_succ, List.map_cons] at hrest
    rw [List.range'_succ, List.range'_succ, List.map_cons, List.map_cons,
      cutPieces, require_eq_ok ⟨hle, by omega⟩, ok_bind, hoffset, hroom, hrest,
      ok_bind, List.range'_succ, List.map_cons]
    rfl

omit [Scalar α] in
theorem cutPieces_slices {A : SlicedMatrix α} (h : A.check = .ok (.ok ())) :
    cutPieces 0 0 A.values.size A.starts.toList
      = .ok ((List.range A.slices.length).map (pieceAt A.slices)) := by
  have hstarts : A.starts.toList
      = (List.range (A.slices.length + 1)).map A.slices.start := by
    conv_lhs => rw [← ofSlices_slices h]
    rfl
  have hcut := cutPieces_starts A.slices 0 A.slices.length (Nat.zero_add _)
  rwa [start_zero, Nat.sub_zero, ← List.range_eq_range', ← List.range_eq_range',
    length_flatten_slices h, ← hstarts] at hcut

/-- The product of a value with the factors of its slice and its index. -/
def rescaledBy (primary secondary : Array α) (k j : Nat) (v : α) : α :=
  v * (primary.getD k 0 * secondary.getD j 0)

/-- Every value rescaled by the factors of its slice and its index. -/
def rescaled (A : SlicedMatrix α) (primary secondary : Array α) :
    SlicedMatrix α :=
  ofSlices A.order A.rows A.cols
    (A.slices.mapValues (rescaledBy primary secondary))

theorem size_values_rescaled {A : SlicedMatrix α} (h : A.check = .ok (.ok ()))
    (primary secondary : Array α) :
    (A.rescaled primary secondary).values.size = A.values.size := by
  rw [rescaled, size_values_ofSlices, ← start_length, length_mapValues,
    start_mapValues, start_length, length_flatten_slices h]

/-- The factors of a piece, read from the two vectors. -/
theorem factors_eq_ok {secondary : Array α} {s : List (Nat × α)}
    (hs : ∀ e ∈ s, e.1 < secondary.size) (pk : α) :
    (s.map Prod.fst).mapM (fun j => do
        let sj ← read secondary j
        pure (pk * sj))
      = .ok ((s.map Prod.fst).map fun j => pk * secondary.getD j 0) := by
  apply mapM_eq_ok
  intro j hj
  obtain ⟨e, he, rfl⟩ := List.mem_map.mp hj
  rw [read_eq_ok (hs e he), ok_bind, Array.getD, dif_pos (hs e he)]
  rfl

/-- The pieces of a diagonal scaling. -/
def rescaleItems (A : SlicedMatrix α) (primary secondary : Array α)
    (pieces : List Piece) :
    WorkItems (Array α) Piece Nat (Option α) :=
  onArray A.values.size pieces (A.rescalePiece primary secondary) fun p =>
    Set.Ico p.offset (p.offset + p.length)

section DiagonalScaling

variable {A : SlicedMatrix α} (h : A.check = .ok (.ok ()))
  {primary secondary : Array α} (hprimary : primary.size = A.sliceCount)
  (hsecondary : secondary.size = A.indexBound)

include h hprimary hsecondary

/-- Rescaling a piece rewrites its cells, whatever the others hold. -/
theorem rescalePiece_eq (values : Array α) {k : Nat}
    (hk : k < A.slices.length) :
    A.rescalePiece primary secondary values (pieceAt A.slices k)
      = updateFrom (· * ·) values (A.slices.start k)
          (A.slices[k].map fun e =>
            primary.getD k 0 * secondary.getD e.1 0) := by
  have hkp : k < primary.size := by rwa [hprimary, ← A.length_slices]
  have hget : primary.getD k 0 = primary[k] := by
    rw [Array.getD, dif_pos hkp]; rfl
  have hindex : ∀ e ∈ A.slices[k], e.1 < secondary.size := by
    intro e he
    rw [hsecondary]
    exact (fits_slices h).index_lt _ (List.getElem_mem hk) e he
  have hbounds : (ofSlices A.order A.rows A.cols A.slices).bounds k
      = .ok (A.slices.start k, A.slices.start (k + 1)) := bounds_ofSlices hk
  have hcut : cut (ofSlices A.order A.rows A.cols A.slices).indices
      (A.slices.start k) (A.slices.start (k + 1))
        = .ok (A.slices[k].map Prod.fst) := cut_indices_ofSlices hk
  rw [ofSlices_slices h] at hbounds hcut
  unfold rescalePiece
  rw [length_pieceAt hk]
  show (A.bounds k >>= _) = _
  rw [hbounds, ok_bind]
  show (cut A.indices (A.slices.start k) (A.slices.start (k + 1)) >>= _) = _
  rw [hcut, ok_bind]
  show (read primary k >>= _) = _
  rw [read_eq_ok hkp, ok_bind, List.take_of_length_le (by simp),
    factors_eq_ok hindex, ok_bind, List.map_map, hget]
  rfl

theorem acts_rescaleItems (pieces : List Piece) {k : Nat}
    (hk : k < A.slices.length) :
    (A.rescaleItems primary secondary pieces).Acts A.values
      (A.rescaled primary secondary).values
      (pieceAt A.slices k) := by
  intro z hz hzk
  have hlen := length_pieceAt hk
  have hend : A.slices.start k + A.slices[k].length ≤ z.size := by
    rw [← start_succ A.slices hk, show z.size = A.values.size from hz,
      ← length_flatten_slices h]
    exact A.slices.start_le _
  have hcells : ∀ j c, (A.slices[k].map fun e =>
        primary.getD k 0 * secondary.getD e.1 0)[j]? = some c →
      (A.rescaled primary secondary).values[A.slices.start k + j]?
        = z[A.slices.start k + j]?.map (· * c) := by
    intro j c hc
    obtain ⟨hj, rfl⟩ := List.getElem?_eq_some_iff.mp hc
    rw [List.length_map] at hj
    have hkeep : z[A.slices.start k + j]? = A.values[A.slices.start k + j]? :=
      hzk _ ⟨Nat.le_add_right _ _, Nat.add_lt_add_left (hlen.symm ▸ hj) _⟩
    rw [rescaled, getElem?_values_mapValues _ hk hj, hkeep,
      getElem?_values h hk hj, Option.map_some, List.getElem_map]
    rfl
  obtain ⟨z', hz', hsize, hinside, houtside⟩ := updateFrom_region (· * ·)
    (by rwa [List.length_map]) hcells
  rw [List.length_map, ← hlen] at hinside houtside
  exact ⟨z', (rescalePiece_eq h hprimary hsecondary z hk).trans hz',
    hsize.trans hz, hinside, houtside⟩

theorem independent_rescaleItems :
    (A.rescaleItems primary secondary
      ((List.range A.slices.length).map (pieceAt A.slices))).Independent
        A.values (A.rescaled primary secondary).values where
  start_shaped := rfl
  result_shaped := size_values_rescaled h primary secondary
  disjoint := by
    refine List.pairwise_map.mpr (List.pairwise_lt_range.imp ?_)
    intro k l hkl
    have hends : A.slices.start (k + 1) ≤ A.slices.start l :=
      A.slices.start_mono hkl
    have hpiece := A.slices.start_le_succ k
    rintro i ⟨-, hhigh⟩ ⟨hlow, -⟩
    simp only [pieceAt] at hhigh hlow
    omega
  covers i := by
    simp only [rescaleItems, onArray, Set.mem_Iio, List.mem_map, List.mem_range,
      exists_exists_and_eq_and, Set.mem_Ico, pieceAt,
      Nat.add_sub_cancel' (A.slices.start_le_succ _), ← length_flatten_slices h]
    constructor
    · intro hi
      exact (A.slices.existsUnique_slice hi).exists
    · rintro ⟨k, -, -, hhigh⟩
      exact Nat.lt_of_lt_of_le hhigh (A.slices.start_le _)
  acts p hp := by
    obtain ⟨k, hk, rfl⟩ := List.mem_map.mp hp
    exact acts_rescaleItems h hprimary hsecondary _ (List.mem_range.mp hk)

end DiagonalScaling

/-- Diagonal scaling multiplies every entry by the factor of its slice times
the factor of its index. -/
theorem scaleBySides_eq_rescaled {A : SlicedMatrix α}
    (h : A.check = .ok (.ok ())) {l r : Array α} (hl : l.size = A.rows)
    (hr : r.size = A.cols) :
    A.scaleBySides l r
      = .ok (A.rescaled (A.order.sides l r).1 (A.order.sides l r).2) := by
  obtain ⟨hprimary, hsecondary⟩ := StorageOrder.size_sides hl hr
  have hloop := (independent_rescaleItems h hprimary hsecondary).any_order
    (List.Perm.refl _)
  rw [scaleBySides, require_eq_ok hl, ok_bind, require_eq_ok hr, ok_bind,
    (WellCut.of_check h).entryCount_eq, ok_bind, require_eq_ok rfl, ok_bind]
  show (cutPieces 0 0 A.values.size A.starts.toList >>= fun pieces =>
    pieces.foldlM (A.rescalePiece (A.order.sides l r).1 (A.order.sides l r).2)
      A.values >>= fun values => pure { A with values }) = _
  rw [cutPieces_slices h, ok_bind]
  refine (congrArg (· >>= _) hloop).trans ?_
  rw [ok_bind, rescaled, withValues_mapValues h, pure_eq_ok]

/-- Diagonal scaling multiplies every entry by the factors of its row and
of its column. -/
theorem scaleBySides_eq_ok (hcomm : ∀ a b : α, a * b = b * a)
    {A : SlicedMatrix α} (h : A.check = .ok (.ok ())) {l r : Array α}
    (hl : l.size = A.rows) (hr : r.size = A.cols) :
    A.scaleBySides l r
      = .ok (A.mapEntries fun i j v => v * (l.getD i 0 * r.getD j 0)) := by
  rw [scaleBySides_eq_rescaled h hl hr, rescaled, mapEntries]
  congr 3
  funext k j v
  cases A.order
  · rfl
  · -- here the slices are columns, and the column factor comes first
    show v * (r.getD k 0 * l.getD j 0) = v * (l.getD j 0 * r.getD k 0)
    rw [hcomm (r.getD k 0)]

/-! ## Signs -/

theorem split_values {A : SlicedMatrix α} (h : A.check = .ok (.ok ()))
    (hroom : A.values.size < capacity) (t : Magnitude) :
    PackedSigns.split t A.values
      = .ok (.signsOf A.values.toList,
        (A.mapEntries fun _ _ v => t.of v).values) := by
  have hpadded : A.values.size + (PackedSigns.chunkSize - 1) < UInt64.size :=
    Nat.lt_trans (Nat.add_lt_add_right hroom _) (by decide)
  rw [PackedSigns.split_eq_ok t hpadded, values_mapEntries h]

theorem join_values {A : SlicedMatrix α} (h : A.check = .ok (.ok ()))
    (t : Magnitude) :
    (PackedSigns.signsOf A.values.toList).join t
      (A.mapEntries fun _ _ v => t.of v).values
      = .ok (A.mapEntries fun _ _ v =>
          PackedSigns.joinValue t (t.of v) (decide (v < 0))).values := by
  have hsize : (A.values.map t.of).size = A.values.size := Array.size_map
  rw [values_mapEntries h, values_mapEntries h,
    PackedSigns.join_signsOf t hsize, Array.zipWith_map_right]
  congr 1
  apply Array.ext
  · simp
  · intro p hp hp'
    simp

end SlicedMatrix

/-! ## Both forms -/

namespace PairedMatrix

section Forms

variable {α β : Type} {A : SlicedMatrix α} (h : A.check = .ok (.ok ()))

include h

theorem ofForm_mapEntries (f : Nat → Nat → α → β) :
    ofForm (A.mapEntries f)
      = { row := (ofForm A).row.mapEntries f
          col := (ofForm A).col.mapEntries f
          order := A.order } := by
  cases horder : A.order
  · rw [ofForm_row horder, ofForm_row (by exact horder),
      SlicedMatrix.flipped_mapEntries h]
  · rw [ofForm_col horder, ofForm_col (by exact horder),
      SlicedMatrix.flipped_mapEntries h]

end Forms

section Changes

variable {α : Type} [Scalar α] {A : SlicedMatrix α} (h : A.check = .ok (.ok ()))
  (hroom : A.HasRoom)

include h hroom

theorem scale_ofForm (c : α) :
    (ofForm A).scale c = ofForm (A.mapEntries fun _ _ v => v * c) := by
  obtain ⟨hrow, hcol⟩ := check_forms h hroom
  rw [scale, SlicedMatrix.scale_eq hrow, SlicedMatrix.scale_eq hcol,
    ofForm_mapEntries h, order_ofForm]

theorem scaleBySides_ofForm (hcomm : ∀ a b : α, a * b = b * a) {d e : Array α}
    (hd : d.size = A.rows) (he : e.size = A.cols) :
    (ofForm A).scaleBySides d e
      = .ok
        (ofForm (A.mapEntries fun i j v => v * (d.getD i 0 * e.getD j 0))) := by
  obtain ⟨hrow, hcol⟩ := check_forms h hroom
  obtain ⟨-, -, ⟨hrr, hrc⟩, hcr, hcc⟩ := dims_forms A
  rw [scaleBySides, SlicedMatrix.scaleBySides_eq_ok hcomm hrow
    (hd.trans hrr.symm) (he.trans hrc.symm), ok_bind,
    SlicedMatrix.scaleBySides_eq_ok hcomm hcol (hd.trans hcr.symm)
      (he.trans hcc.symm), ok_bind, ofForm_mapEntries h, order_ofForm]
  rfl

/-- The signs of both forms. -/
def signsOf (A : SlicedMatrix α) : PackedSigns × PackedSigns :=
  (.signsOf (ofForm A).row.values.toList, .signsOf (ofForm A).col.values.toList)

theorem splitSigns_ofForm (t : Magnitude) :
    (ofForm A).splitSigns t
      = .ok (signsOf A, ofForm (A.mapEntries fun _ _ v => t.of v)) := by
  obtain ⟨hrow, hcol⟩ := check_forms h hroom
  obtain ⟨hrowSize, hcolSize⟩ := size_values_forms h
  rw [splitSigns, SlicedMatrix.split_values hrow (hrowSize ▸ hroom.2), ok_bind]
  simp only [SlicedMatrix.split_values hcol (hcolSize ▸ hroom.2), ok_bind]
  rw [ofForm_mapEntries h, withValues, SlicedMatrix.withValues_mapEntries hrow,
    SlicedMatrix.withValues_mapEntries hcol, order_ofForm]
  rfl

/-- Signs that are joined to the magnitudes they were split from. -/
theorem joinSigns_ofForm (t : Magnitude) :
    (ofForm (A.mapEntries fun _ _ v => t.of v)).joinSigns (signsOf A) t
      = .ok (ofForm (A.mapEntries fun _ _ v =>
          PackedSigns.joinValue t (t.of v) (decide (v < 0)))) := by
  obtain ⟨hrow, hcol⟩ := check_forms h hroom
  rw [ofForm_mapEntries h, ofForm_mapEntries h, joinSigns, signsOf,
    SlicedMatrix.join_values hrow, ok_bind, SlicedMatrix.join_values hcol,
    ok_bind, withValues, SlicedMatrix.withValues_mapEntries_mapEntries hrow,
    SlicedMatrix.withValues_mapEntries_mapEntries hcol]
  rfl

end Changes

end PairedMatrix

end Equilibration
