import Equilibration.Proofs.Kernels
import Equilibration.Proofs.Products

/-!
# Schedules — the kernels that can be run in parallel

Four loops of the library rewrite another part of their output in every step:
the gathering product an element of `y`, diagonal scaling the values of a
slice, splitting a chunk of values and its byte, and joining a chunk of values.
Their steps are independent work items, so the order in which they are worked
off does not show (`work_items_independent`). The scattering product is not
among them: two of its steps may add to one element.
-/

namespace Equilibration

open Checked

/-- **The work items of the kernels are independent.** The elements of a
gathering product, the pieces of a diagonal scaling, and the chunks of
splitting and joining signs each write cells of their own, pairwise disjoint,
and together exactly the cells of the output: every element of `y`, every
value, and in splitting every value and every byte. Worked off one at a time,
in any order and on the shared output, they give the result of the kernel. -/
theorem work_items_independent {α : Type} [Scalar α] :
    (∀ A : SlicedMatrix α, A.check = .ok (.ok ()) → ∀ (x y : Array α) (a b : α),
      x.size = A.indexBound → y.size = A.sliceCount →
      ∃ y', A.gather y x a b = .ok y'
        ∧ (A.gatherItems x a b).Independent y y'
        ∧ ∀ ks : List Nat, ks.Perm (List.range y.size) →
          ks.foldlM (A.gatherElement x a b) y = .ok y')
    ∧ (∀ A : SlicedMatrix α, A.check = .ok (.ok ()) → ∀ l r : Array α,
      l.size = A.rows → r.size = A.cols →
      ∃ pieces B, cutPieces 0 0 A.values.size A.starts.toList = .ok pieces
        ∧ A.scaleBySides l r = .ok B
        ∧ (A.rescaleItems (A.order.sides l r).1
          (A.order.sides l r).2 pieces).Independent A.values B.values
        ∧ ∀ ks : List Piece, ks.Perm pieces →
          ks.foldlM (A.rescalePiece (A.order.sides l r).1 (A.order.sides l r).2)
            A.values = .ok B.values)
    ∧ (∀ (t : Magnitude) (values : Array α),
      values.size + (PackedSigns.chunkSize - 1) < UInt64.size →
      ∃ signs magnitudes, PackedSigns.split t values = .ok (signs, magnitudes)
        ∧ (PackedSigns.splitItems t values.size).Independent
          (values, Array.replicate (PackedSigns.chunkCount values.size) 0)
          (magnitudes, signs.bytes)
        ∧ ∀ ks : List Nat,
          ks.Perm (List.range (PackedSigns.chunkCount values.size)) →
          ks.foldlM (PackedSigns.splitChunk t)
              (values, Array.replicate (PackedSigns.chunkCount values.size) 0)
            = .ok (magnitudes, signs.bytes))
    ∧ ∀ (signs : PackedSigns) (t : Magnitude) (values : Array α),
      signs.bytes.size = PackedSigns.chunkCount signs.size →
      values.size = signs.size →
      ∃ values', signs.join t values = .ok values'
        ∧ (signs.joinItems t values.size).Independent values values'
        ∧ ∀ ks : List Nat,
          ks.Perm (List.range (PackedSigns.chunkCount values.size)) →
          ks.foldlM (signs.joinChunk t) values = .ok values' := by
  refine ⟨?_, ?_, ?_, ?_⟩
  · intro A h x y a b hx hy
    have hfits := SlicedMatrix.fits_slices h
    have hitems := SlicedMatrix.independent_gatherItems hfits a b hx hy
    have hgather := SlicedMatrix.gather_ofSlices hfits a b hx hy
    rw [SlicedMatrix.ofSlices_slices h] at hitems hgather
    refine ⟨_, hgather, hitems, ?_⟩
    intro ks hks
    rw [hy] at hks
    exact hitems.any_order hks
  · intro A h l r hl hr
    obtain ⟨hprimary, hsecondary⟩ := StorageOrder.size_sides hl hr
    have hitems := SlicedMatrix.independent_rescaleItems h hprimary hsecondary
    exact ⟨_, _, SlicedMatrix.cutPieces_slices h,
      SlicedMatrix.scaleBySides_eq_rescaled h hl hr,
      hitems, fun ks hks => hitems.any_order hks⟩
  · intro t values hsize
    have hitems := PackedSigns.independent_splitItems t values
    exact ⟨_, _, PackedSigns.split_eq_ok t hsize, hitems, fun ks hks =>
      hitems.any_order hks⟩
  · intro signs t values hbytes hsize
    have hitems := PackedSigns.independent_joinItems t (hsize ▸ hbytes)
    refine ⟨_, ?_, hitems, fun ks hks => hitems.any_order hks⟩
    rw [PackedSigns.join, require_eq_ok hsize, ok_bind]
    exact hitems.any_order (List.Perm.refl _)

/-- The last slice first, and the short last chunk before the full one. -/
theorem work_items_independent_shuffled :
    let A : SlicedMatrix Float :=
      ⟨.row, 3, 3, #[0, 2, 2, 3], #[2, 0, 1], #[1, -2, 3]⟩
    let values : Array Float := #[1, -2, 3, -4, 5, -6, 7, -8, 9, -10]
    A.check = .ok (.ok ())
      ∧ (∃ y, A.gather #[1, 1, 1] #[1, 2, 3] 2 0 = .ok y
        ∧ [2, 0, 1].foldlM (A.gatherElement #[1, 2, 3] 2 0) #[1, 1, 1] = .ok y)
      ∧ (∃ B, A.scaleBySides #[2, 3, 5] #[7, 11, 13] = .ok B
        ∧ [⟨2, 1, 2⟩, ⟨0, 2, 0⟩, ⟨2, 0, 1⟩].foldlM
          (A.rescalePiece #[2, 3, 5] #[7, 11, 13]) A.values = .ok B.values)
      ∧ ∃ signs magnitudes,
        PackedSigns.split .square values = .ok (signs, magnitudes)
        ∧ [1, 0].foldlM (PackedSigns.splitChunk .square)
            (values, Array.replicate 2 0)
          = .ok (magnitudes, signs.bytes)
        ∧ ∃ values', signs.join .square magnitudes = .ok values'
          ∧ [1, 0].foldlM (signs.joinChunk .square) magnitudes
            = .ok values' := by
  intro A values
  have h : A.check = .ok (.ok ()) := by decide +kernel
  obtain ⟨hgather, hscale, hsplit, hjoin⟩ := work_items_independent (α := Float)
  refine ⟨h, ?_, ?_, ?_⟩
  · obtain ⟨y, hy, -, hany⟩ := hgather A h #[1, 2, 3] #[1, 1, 1] 2 0 rfl rfl
    exact ⟨y, hy, hany [2, 0, 1] (by decide)⟩
  · obtain ⟨pieces, B, hpieces, hB, -, hany⟩ :=
      hscale A h #[2, 3, 5] #[7, 11, 13] rfl rfl
    obtain rfl : [⟨0, 2, 0⟩, ⟨2, 0, 1⟩, ⟨2, 1, 2⟩] = pieces :=
      Except.ok.inj hpieces
    exact ⟨B, hB, hany _ (by decide)⟩
  · obtain ⟨signs, magnitudes, hsigns, -, hany⟩ :=
      hsplit .square values (by decide)
    have hchunks : PackedSigns.chunkCount values.size = 2 := by decide
    rw [PackedSigns.split_eq_ok .square (by decide)] at hsigns
    obtain ⟨rfl, rfl⟩ := Prod.mk.inj (Except.ok.inj hsigns)
    obtain ⟨values', hvalues, -, hany'⟩ :=
      hjoin (.signsOf values.toList) .square (values.map Magnitude.square.of)
        (by simp [PackedSigns.signsOf]) Array.size_map
    rw [hchunks] at hany
    rw [Array.size_map, hchunks] at hany'
    exact ⟨_, _, PackedSigns.split_eq_ok .square (by decide),
      hany [1, 0] (by decide), values', hvalues, hany' [1, 0] (by decide)⟩

end Equilibration
