import Equilibration.Proofs.Sessions

/-!
# DiagonalScaling — scaling and conversion

Diagonal scaling hands the values out in consecutive pieces and looks the
factors up with the indices that the pointers cut off. That the pieces and the
cuts agree for ragged pointers shows in a formula for every position
(`getElem?_values_inSlice`): position `p` lies in one slice `k`, and its
value is multiplied by the factor of `k` times the factor of index `p`.

A change that looks only at the row, the column and the old value commutes with
conversion, whether there is room for the result or not
(`inOrder_mapEntries`). Scaling is such a change. The two forms of a matrix
multiply the two factors of a position in opposite orders, so for the diagonal
scaling the multiplication must commute (`scaling_commutes_with_conversion`).
For floating-point numbers it does, to the last bit, with all that is no number
taken as one value.
-/

namespace Equilibration

open Checked Slices

namespace SlicedMatrix

variable {α : Type}

/-- Position `p` of the arrays lies in slice `k`. -/
def InSlice (A : SlicedMatrix α) (k p : Nat) : Prop :=
  k < A.sliceCount ∧ A.starts.getD k 0 ≤ p ∧ p < A.starts.getD (k + 1) 0

/-- The other matrix holds values at the same positions. -/
structure SamePattern (A B : SlicedMatrix α) : Prop where
  order_eq : B.order = A.order
  rows_eq : B.rows = A.rows
  cols_eq : B.cols = A.cols
  starts_eq : B.starts = A.starts
  indices_eq : B.indices = A.indices
  size_eq : B.values.size = A.values.size

/-! ## Positions -/

section Positions

variable {A : SlicedMatrix α} (h : A.check = .ok (.ok ()))

include h

theorem getD_starts {k : Nat} (hk : k ≤ A.sliceCount) :
    A.starts.getD k 0 = A.slices.start k := by
  have hk' : k ≤ A.slices.length := by rwa [A.length_slices]
  have hstart : (ofSlices A.order A.rows A.cols A.slices).starts[k]?
      = some (A.slices.start k) :=
    getElem?_starts_ofSlices hk'
  rw [ofSlices_slices h] at hstart
  rw [Array.getD_eq_getD_getElem?, hstart, Option.getD_some]

theorem inSlice_iff {k p : Nat} : A.InSlice k p
    ↔ k < A.slices.length ∧ A.slices.start k ≤ p
      ∧ p < A.slices.start (k + 1) := by
  rw [InSlice, A.length_slices]
  constructor
  · rintro ⟨hk, hp⟩
    rw [getD_starts h (Nat.le_of_lt hk), getD_starts h hk] at hp
    exact ⟨hk, hp⟩
  · rintro ⟨hk, hp⟩
    rw [← getD_starts h (Nat.le_of_lt hk), ← getD_starts h hk] at hp
    exact ⟨hk, hp⟩

/-- Every position lies in one slice. -/
theorem existsUnique_inSlice {p : Nat} (hp : p < A.values.size) :
    ∃! k, A.InSlice k p := by
  simp only [inSlice_iff h]
  exact A.slices.existsUnique_slice (by rwa [length_flatten_slices h])

theorem getElem?_values_inSlice (g : Nat → Nat → α → α) {k p : Nat}
    (hp : A.InSlice k p) :
    (ofSlices A.order A.rows A.cols (A.slices.mapValues g)).values[p]?
      = A.values[p]?.map (g k (A.indices.getD p 0)) := by
  obtain ⟨hk, hlow, hhigh⟩ := (inSlice_iff h).mp hp
  obtain ⟨q, rfl⟩ := Nat.exists_eq_add_of_le hlow
  have hq : q < A.slices[k].length := by
    rw [start_succ A.slices hk] at hhigh
    omega
  rw [getElem?_values_mapValues g hk hq, getElem?_values h hk hq,
    Array.getD_eq_getD_getElem?, getElem?_indices h hk hq]
  rfl

theorem samePattern_mapEntries (f : Nat → Nat → α → α) :
    A.SamePattern (A.mapEntries f) :=
  ⟨rfl, rfl, rfl, starts_mapEntries h f, indices_mapEntries h f,
    size_values_mapEntries h f⟩

theorem samePattern_mapValues (g : Nat → Nat → α → α) :
    A.SamePattern (ofSlices A.order A.rows A.cols (A.slices.mapValues g)) := by
  have := samePattern_mapEntries h fun i j =>
    g (A.order.locate i j).1 (A.order.locate i j).2
  simpa only [mapEntries, StorageOrder.locate_locate] using this

end Positions

/-! ## Conversion and entries -/

theorem entry_of_outside (A : SlicedMatrix α) {row col : Nat}
    (hout : ¬ (row < A.rows ∧ col < A.cols)) :
    A.entry? row col = .error .index := by
  unfold entry? require
  rw [if_neg hout]
  rfl

/-- The entry of a position is changed like every value stored for it. -/
theorem entry_mapEntries {A : SlicedMatrix α} (h : A.check = .ok (.ok ()))
    (f : Nat → Nat → α → α) (row col : Nat) :
    SlicedMatrix.entry? (A.mapEntries f) row col
      = Option.map (f row col) <$> A.entry? row col := by
  by_cases hin : row < A.rows ∧ col < A.cols
  · rw [entry_eq_ok (check_mapEntries h f) hin.1 hin.2,
      entry_eq_ok h hin.1 hin.2, valuesAt_mapEntries, List.head?_map]
    rfl
  · rw [entry_of_outside A hin, entry_of_outside (A.mapEntries f) hin]
    rfl

section Conversion

variable [Scalar α] {A : SlicedMatrix α} (h : A.check = .ok (.ok ()))

include h

theorem check_of_inOrder {o : StorageOrder} {B : SlicedMatrix α}
    (hB : A.inOrder o = .ok B) :
    B.check = .ok (.ok ()) ∧ B.rows = A.rows ∧ B.cols = A.cols := by
  by_cases ho : o = A.order
  · rw [inOrder, if_pos ho, Except.ok.injEq] at hB
    subst hB
    exact ⟨h, rfl, rfl⟩
  · rw [A.order.eq_flip_of_ne ho] at hB
    obtain ⟨hroom, rfl⟩ := (inOrder_flip_iff h).mp hB
    exact ⟨check_flipped h hroom, rfl, rfl⟩

theorem inOrder_total (hroom : A.HasRoom) (o : StorageOrder) :
    ∃ B, A.inOrder o = .ok B := by
  by_cases ho : o = A.order
  · exact ⟨A, if_pos ho⟩
  · rw [A.order.eq_flip_of_ne ho]
    exact ⟨A.flipped, inOrder_flip h hroom⟩

/-- Without room a conversion ends before it looks at a value. -/
theorem regroup_mapEntries_of_not_hasRoom (hno : ¬ A.HasRoom)
    (f : Nat → Nat → α → α) :
    (A.mapEntries f).regroup = A.regroup := by
  have hcut := WellCut.of_check h
  have hcount : (A.mapEntries f).entryCount = A.entryCount := by
    rw [hcut.entryCount_eq,
      (WellCut.of_check (check_mapEntries h f)).entryCount_eq,
      size_values_mapEntries h f]
  have hcounts : (A.mapEntries f).indexCounts = A.indexCounts := by
    rw [indexCounts, indexCounts, indices_mapEntries h f]
    rfl
  rw [regroup, regroup, hcount, hcounts]
  apply bind_congr_ok
  intro count hcount
  apply bind_congr_ok
  intro counts hcounts
  apply bind_congr_ok
  intro indices hindices
  exact absurd (hcut.of_allocated hcount hcounts hindices).1 hno

/-- New values and conversion commute, and where one finds no room neither does
the other. -/
theorem inOrder_mapEntries (f : Nat → Nat → α → α) (o : StorageOrder) :
    (A.mapEntries f).inOrder o = (·.mapEntries f) <$> A.inOrder o := by
  by_cases ho : o = A.order
  · rw [show A.inOrder o = .ok A from if_pos ho]
    exact if_pos ho
  · rw [A.order.eq_flip_of_ne ho]
    by_cases hroom : A.HasRoom
    · have hmapped :=
        inOrder_flip (check_mapEntries h f) ((hasRoom_mapEntries h f).mpr hroom)
      rw [flipped_mapEntries h f, order_mapEntries] at hmapped
      rw [inOrder_flip h hroom, hmapped]
      rfl
    · -- both end where they set up their arrays, with the same violation
      have hnone : ∀ B, A.inOrder A.order.flip ≠ .ok B :=
        fun B hB => hroom (hasRoom_of_inOrder h hB)
      have hsame :
          (A.mapEntries f).inOrder A.order.flip = A.inOrder A.order.flip := by
        rw [inOrder, if_neg (by exact A.order.flip_ne), inOrder,
          if_neg A.order.flip_ne]
        exact regroup_mapEntries_of_not_hasRoom h hroom f
      rw [hsame]
      cases hB : A.inOrder A.order.flip with
      | error v => rfl
      | ok B => exact absurd hB (hnone B)

theorem inOrder_scale (c : α) (o : StorageOrder) :
    (·.scale c) <$> A.inOrder o = (A.scale c).inOrder o := by
  rw [scale_eq h, inOrder_mapEntries h]
  cases hB : A.inOrder o with
  | error v => rfl
  | ok B => exact congrArg Except.ok (scale_eq (check_of_inOrder h hB).1 c)

theorem inOrder_scaleBySides (hcomm : ∀ a b : α, a * b = b * a) {l r : Array α}
    (hl : l.size = A.rows) (hr : r.size = A.cols) (o : StorageOrder) :
    (A.inOrder o >>= fun C => C.scaleBySides l r)
      = (A.mapEntries
        fun i j v => v * (l.getD i 0 * r.getD j 0)).inOrder o := by
  rw [inOrder_mapEntries h]
  cases hB : A.inOrder o with
  | error v => rfl
  | ok B =>
    obtain ⟨hcheck, hrows, hcols⟩ := check_of_inOrder h hB
    exact scaleBySides_eq_ok hcomm hcheck (hl.trans hrows.symm)
      (hr.trans hcols.symm)

end Conversion

/-- **Diagonal scaling is `diag(l) * A * diag(r)`, and commutes with
conversion.** Take a matrix that passes the check, and vectors of its numbers
of rows and columns. Diagonal scaling leaves order, dimensions, pointers and
indices as they are. Every position lies in exactly one slice, and its value is
multiplied by the product of two factors, that of the slice and that of the
index, in this order.

Where the multiplication commutes, scaling and then converting is the same
computation as converting and then scaling with the same vectors, with equal
results and, where there is no room, with equal ends. The entry of a position
is the old one times the product of the factors of its row and its column.
Scaling by a number does the same with one factor, and needs no law. -/
theorem scaling_commutes_with_conversion [Scalar α] (A : SlicedMatrix α)
    (h : A.check = .ok (.ok ())) :
    (∀ p, p < A.values.size → ∃! k, A.InSlice k p)
    ∧ (∀ l r : Array α, l.size = A.rows → r.size = A.cols →
      ∃ B, A.scaleBySides l r = .ok B
        ∧ A.SamePattern B
        ∧ (∀ k p, A.InSlice k p → B.values[p]? = A.values[p]?.map fun v =>
          v * ((A.order.sides l r).1.getD k 0
            * (A.order.sides l r).2.getD (A.indices.getD p 0) 0))
        ∧ ((∀ a b : α, a * b = b * a) →
          (∀ o, (A.inOrder o >>= fun C => C.scaleBySides l r) = B.inOrder o)
          ∧ ∀ i j, B.entry? i j
            = Option.map (fun v => v * (l.getD i 0 * r.getD j 0))
              <$> A.entry? i j))
    ∧ (∀ c : α, A.SamePattern (A.scale c)
      ∧ (A.scale c).values = A.values.map (· * c)
      ∧ (∀ o, (·.scale c) <$> A.inOrder o = (A.scale c).inOrder o)
      ∧ ∀ i j, SlicedMatrix.entry? (A.scale c) i j
        = Option.map (· * c) <$> A.entry? i j)
    ∧ (A.HasRoom → ∀ o, ∃ C, A.inOrder o = .ok C) := by
  refine ⟨fun p => existsUnique_inSlice h, ?_, ?_, inOrder_total h⟩
  · intro l r hl hr
    refine ⟨_, scaleBySides_eq_rescaled h hl hr, samePattern_mapValues h _,
      fun k p => getElem?_values_inSlice h _, ?_⟩
    intro hcomm
    have hmap := scaleBySides_eq_ok hcomm h hl hr
    rw [scaleBySides_eq_rescaled h hl hr, Except.ok.injEq] at hmap
    rw [hmap]
    exact ⟨inOrder_scaleBySides h hcomm hl hr, entry_mapEntries h _⟩
  · intro c
    refine ⟨?_, rfl, inOrder_scale h c, ?_⟩
    · rw [scale_eq h]
      exact samePattern_mapEntries h _
    · rw [scale_eq h]
      exact entry_mapEntries h _

/-- Three columns, the second one empty, and the first one unsorted with two
values for one row. -/
theorem scaling_commutes_with_conversion_ragged :
    let A : SlicedMatrix Float :=
      ⟨.col, 3, 3, #[0, 3, 3, 4], #[2, 0, 2, 1], #[1, 2, 3, 4]⟩
    A.check = .ok (.ok ()) ∧ ∃ B, A.scaleBySides #[2, 3, 5] #[7, 11, 13] = .ok B
      ∧ B.starts = A.starts ∧ B.indices = A.indices
      ∧ B.values[2]? = some (3 * (7 * 5)) ∧ B.values[3]? = some (4 * (13 * 3))
      ∧ (A.inOrder .row >>= fun C => C.scaleBySides #[2, 3, 5] #[7, 11, 13])
        = B.inOrder .row
      ∧ B.entry? 2 0 = .ok (some (1 * (5 * 7))) := by
  intro A
  have h : A.check = .ok (.ok ()) := by decide +kernel
  have hcomm : ∀ a b : Float, a * b = b * a :=
    (inferInstance : Std.Commutative fun a b : Float => a * b).comm
  obtain ⟨-, hscale, -, -⟩ := scaling_commutes_with_conversion A h
  obtain ⟨B, hB, hpattern, hvalues, hboth⟩ :=
    hscale #[2, 3, 5] #[7, 11, 13] rfl rfl
  obtain ⟨hconvert, hentry⟩ := hboth hcomm
  refine ⟨h, B, hB, hpattern.starts_eq, hpattern.indices_eq, ?_, ?_,
    hconvert .row, ?_⟩
  · exact hvalues 0 2 ⟨by decide, by decide, by decide⟩
  · exact hvalues 2 3 ⟨by decide, by decide, by decide⟩
  · rw [hentry, entry_eq_ok h (by decide) (by decide)]
    rfl

end SlicedMatrix

end Equilibration
