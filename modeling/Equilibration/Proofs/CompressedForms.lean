import Equilibration.Proofs.Building

/-!
# CompressedForms — what the check accepts

A compressed form is written from a list of slices: the pointers are the
running totals of their lengths, the indices and the values are theirs one
after the other. `MatrixInput.Describes` says so of the arrays of a caller,
in terms of the list alone.

The check of an input knows nothing of slices. It compares a few lengths and
end points, then neighbouring pointers, then every index with the bound, and
stops at the first question that fails. Main statement: it accepts the
compressed forms and nothing else, it always comes to a verdict, and each
error names the first of the three questions that fails
(`MatrixInput.accepts_compressed_forms`).
-/

namespace Equilibration

open Checked

namespace Slices

variable {α : Type}

/-- The length of a slice is counted by the pointer after it. -/
theorem foldl_length_take (ss : Slices α) (k : Nat) :
    ((ss.map List.length).take k).foldl (· + ·) 0 = ss.start k := by
  rw [start, List.length_flatten, ← List.map_take, List.sum_eq_foldl]

/-- Where the slices start, as running totals of their lengths. -/
theorem scanl_length (ss : Slices α) :
    (ss.map List.length).scanl (· + ·) 0
      = (List.range (ss.length + 1)).map ss.start := by
  apply List.ext_getElem
  · simp
  · intro k hk hk'
    rw [List.getElem_scanl, foldl_length_take, List.getElem_map,
      List.getElem_range]

end Slices

/-- A list decreases somewhere if it is not a chain of growing elements. -/
theorem not_isChain_iff {l : List Nat} :
    ¬ l.IsChain (· ≤ ·)
      ↔ ∃ k s t, l[k]? = some s ∧ l[k + 1]? = some t ∧ t < s := by
  rw [List.isChain_iff_getElem]
  constructor
  · intro h
    by_contra hno
    refine h fun k hk =>
      Nat.le_of_not_lt fun hlt => hno ⟨k, l[k], l[k + 1], ?_, ?_, hlt⟩
    · exact List.getElem?_eq_getElem (by omega)
    · exact List.getElem?_eq_getElem hk
  · rintro ⟨k, s, t, hs, ht, hlt⟩ h
    obtain ⟨hk, rfl⟩ := List.getElem?_eq_some_iff.mp hs
    obtain ⟨hk', rfl⟩ := List.getElem?_eq_some_iff.mp ht
    exact Nat.not_lt.mpr (h k hk') hlt

namespace MatrixInput

variable {α : Type} {input : MatrixInput α}

/-- The arrays are written from a list of slices that fits the stated
dimensions, and the stated number of entries is theirs. -/
structure Describes (input : MatrixInput α) (ss : Slices α) : Prop where
  length_eq : ss.length = input.order.primary input.rows input.cols
  index_lt :
      ∀ s ∈ ss, ∀ e ∈ s, e.1 < input.order.flip.primary input.rows input.cols
  starts_eq : input.starts.toList = (ss.map List.length).scanl (· + ·) 0
  indices_eq : input.indices.toList = ss.flatten.map Prod.fst
  values_eq : input.values.toList = ss.flatten.map Prod.snd
  entryCount_eq : input.entryCount = ss.flatten.length

/-- All lengths agree with each other, with the dimensions and with the stated
number of entries, and the last pointer with them. -/
structure LengthsAgree (input : MatrixInput α) : Prop where
  values_eq : input.values.size = input.entryCount
  indices_eq : input.indices.size = input.values.size
  starts_eq : input.starts.size = input.order.primary input.rows input.cols + 1
  last_eq : input.starts[input.order.primary input.rows input.cols]?
      = some input.indices.size

/-- The pointers start at zero and never decrease. -/
def PointersRise (input : MatrixInput α) : Prop :=
  input.starts[0]? = some 0 ∧ input.starts.toList.IsChain (· ≤ ·)

/-- Every index lies below the secondary dimension. -/
def IndicesFit (input : MatrixInput α) : Prop :=
  ∀ j ∈ input.indices, j < input.order.flip.primary input.rows input.cols

theorem not_pointersRise_iff : ¬ input.PointersRise ↔ input.starts[0]? ≠ some 0
      ∨ ∃ k s t, input.starts[k]? = some s ∧ input.starts[k + 1]? = some t
        ∧ t < s := by
  rw [PointersRise, not_and_or, not_isChain_iff]
  simp only [Array.getElem?_toList]

theorem not_indicesFit_iff : ¬ input.IndicesFit ↔ ∃ j ∈ input.indices,
    input.order.flip.primary input.rows input.cols ≤ j := by
  simp only [IndicesFit, not_forall, Nat.not_lt, exists_prop]

/-! ## The verdict -/

section Verdict

variable (hcap : input.order.primary input.rows input.cols + 1 < UInt64.size)

include hcap

theorem check_of_lengths (h : ¬ input.LengthsAgree) :
    input.check = .ok (.error .lengthMismatch) := by
  unfold check
  split
  · rfl
  next hvalues =>
  rw [checkArrays_eq_ok hcap]
  split
  · rfl
  next hindices =>
  rw [checkSlices, if_pos]
  by_contra hends
  rw [not_or, not_not, not_not] at hends
  exact h ⟨not_not.mp hvalues, not_not.mp hindices, hends.1, hends.2⟩

/-- With lengths that agree the verdict depends on the pointers and then on the
indices. -/
theorem check_of_lengthsAgree (h : input.LengthsAgree)
    [Decidable input.PointersRise] [Decidable input.IndicesFit] :
    input.check = .ok (if ¬ input.PointersRise then .error .pointerOrder
      else if ¬ input.IndicesFit then .error .indexRange else .ok ()) := by
  have hpointers :
      (input.starts[0]? ≠ some 0 ∨ ¬ isNondecreasing input.starts.toList)
        ↔ ¬ input.PointersRise := by
    rw [PointersRise, not_and_or, SlicedMatrix.isNondecreasing_iff]
  have hindices :
      (¬ input.indices.all (· < input.order.flip.primary input.rows input.cols))
        ↔ ¬ input.IndicesFit := by
    rw [Array.all_eq_true_iff_forall_mem, IndicesFit]
    simp only [decide_eq_true_eq]
  rw [check, if_neg (not_not.mpr h.values_eq), checkArrays_eq_ok hcap,
    if_neg (not_not.mpr h.indices_eq), checkSlices,
    if_neg (by rw [not_or, not_not, not_not]; exact ⟨h.starts_eq, h.last_eq⟩)]
  simp only [hpointers, hindices]

/-- The check always comes to a verdict, and asks its questions in one
order. -/
theorem check_verdict :
    (¬ input.LengthsAgree ∧ input.check = .ok (.error .lengthMismatch))
    ∨ (input.LengthsAgree ∧ ¬ input.PointersRise
      ∧ input.check = .ok (.error .pointerOrder))
    ∨ (input.LengthsAgree ∧ input.PointersRise ∧ ¬ input.IndicesFit
      ∧ input.check = .ok (.error .indexRange))
    ∨ (input.LengthsAgree ∧ input.PointersRise ∧ input.IndicesFit
      ∧ input.check = .ok (.ok ())) := by
  classical
  by_cases hlengths : input.LengthsAgree
  · have hverdict := check_of_lengthsAgree hcap hlengths
    by_cases hpointers : input.PointersRise
    · rw [if_neg (not_not.mpr hpointers)] at hverdict
      by_cases hindices : input.IndicesFit
      · rw [if_neg (not_not.mpr hindices)] at hverdict
        exact .inr (.inr (.inr ⟨hlengths, hpointers, hindices, hverdict⟩))
      · rw [if_pos hindices] at hverdict
        exact .inr (.inr (.inl ⟨hlengths, hpointers, hindices, hverdict⟩))
    · rw [if_pos hpointers] at hverdict
      exact .inr (.inl ⟨hlengths, hpointers, hverdict⟩)
  · exact .inl ⟨hlengths, check_of_lengths hcap hlengths⟩

theorem check_eq_lengthMismatch_iff :
    input.check = .ok (.error .lengthMismatch) ↔ ¬ input.LengthsAgree := by
  rcases check_verdict hcap
    with ⟨h, hv⟩ | ⟨h, h', hv⟩ | ⟨h, h', h'', hv⟩ | ⟨h, h', h'', hv⟩ <;>
    simp [hv, h]

theorem check_eq_pointerOrder_iff :
    input.check = .ok (.error .pointerOrder)
      ↔ input.LengthsAgree ∧ ¬ input.PointersRise := by
  rcases check_verdict hcap
    with ⟨h, hv⟩ | ⟨h, h', hv⟩ | ⟨h, h', h'', hv⟩ | ⟨h, h', h'', hv⟩ <;>
    simp [*]

theorem check_eq_indexRange_iff :
    input.check = .ok (.error .indexRange)
      ↔ input.LengthsAgree ∧ input.PointersRise ∧ ¬ input.IndicesFit := by
  rcases check_verdict hcap
    with ⟨h, hv⟩ | ⟨h, h', hv⟩ | ⟨h, h', h'', hv⟩ | ⟨h, h', h'', hv⟩ <;>
    simp [*]

end Verdict

/-! ## The slices -/

/-- Arrays that describe slices are written from them. -/
theorem Describes.matrix_eq {ss : Slices α} (h : input.Describes ss) :
    input.matrix
      = SlicedMatrix.ofSlices input.order input.rows input.cols ss := by
  have hstarts := h.starts_eq
  rw [ss.scanl_length] at hstarts
  rw [matrix, SlicedMatrix.ofSlices, ← hstarts, ← h.indices_eq, ← h.values_eq]

theorem Describes.fits {ss : Slices α} (h : input.Describes ss) :
    ss.Fits (input.order.primary input.rows input.cols)
      (input.order.flip.primary input.rows input.cols) :=
  ⟨h.length_eq, h.index_lt⟩

/-- Only one list of slices can be read out of the arrays. -/
theorem Describes.slices_eq {ss : Slices α} (h : input.Describes ss) :
    ss = input.matrix.slices := by
  rw [h.matrix_eq, SlicedMatrix.slices_ofSlices h.length_eq]

theorem describes_iff {ss : Slices α} : input.Describes ss ↔
    ss.Fits (input.order.primary input.rows input.cols)
      (input.order.flip.primary input.rows input.cols)
      ∧ input.matrix
        = SlicedMatrix.ofSlices input.order input.rows input.cols ss
      ∧ input.entryCount = ss.flatten.length := by
  constructor
  · intro h
    exact ⟨h.fits, h.matrix_eq, h.entryCount_eq⟩
  · rintro ⟨hfits, hmatrix, hcount⟩
    have hstarts :
        input.starts = ((List.range (ss.length + 1)).map ss.start).toArray :=
      congrArg SlicedMatrix.starts hmatrix
    have hindices : input.indices = (ss.flatten.map Prod.fst).toArray :=
      congrArg SlicedMatrix.indices hmatrix
    have hvalues : input.values = (ss.flatten.map Prod.snd).toArray :=
      congrArg SlicedMatrix.values hmatrix
    exact ⟨hfits.length_eq, hfits.index_lt, by rw [hstarts, ss.scanl_length],
      by rw [hindices], by rw [hvalues], hcount⟩

theorem check_eq_ok_iff_describes
    (hcap : input.order.primary input.rows input.cols + 1 < UInt64.size) :
    input.check = .ok (.ok ()) ↔ ∃ ss, input.Describes ss := by
  rw [check_eq_ok_iff, SlicedMatrix.check_eq_ok_iff]
  constructor
  · rintro ⟨hcount, -, ss, hfits, hmatrix⟩
    have hsize : input.values.size = ss.flatten.length := by
      have := congrArg (fun A => A.values.size) hmatrix
      rwa [SlicedMatrix.size_values_ofSlices] at this
    exact ⟨ss, describes_iff.mpr ⟨hfits, hmatrix, hcount ▸ hsize⟩⟩
  · rintro ⟨ss, h⟩
    refine ⟨?_, hcap, ss, h.fits, h.matrix_eq⟩
    rw [h.entryCount_eq, ← Array.length_toList, h.values_eq, List.length_map]

/-! ## The owned copy -/

/-- A copy takes the arrays over as they are. -/
theorem eq_matrix_of_toSliced {A : SlicedMatrix α}
    (h : input.toSliced = .ok A) :
    A = input.matrix := by
  rw [toSliced, SlicedMatrix.ofArrays, bind_eq_ok_iff] at h
  obtain ⟨-, -, h⟩ := h
  rw [bind_eq_ok_iff] at h
  obtain ⟨-, -, h⟩ := h
  rw [bind_eq_ok_iff] at h
  obtain ⟨last, -, h⟩ := h
  rw [bind_eq_ok_iff] at h
  obtain ⟨-, -, h⟩ := h
  exact (Except.ok.inj h).symm

/-- The copy has the verdict of the input, but for the number of entries that
only the input states. -/
theorem check_eq_check_matrix : input.check
    = if input.values.size = input.entryCount then input.matrix.check
      else .ok (.error .lengthMismatch) := by
  by_cases h : input.values.size = input.entryCount
  · rw [check, if_neg (not_not.mpr h), if_pos h]
    rfl
  · rw [check, if_pos h, if_neg h]
    rfl

/-- **The check accepts the compressed forms and nothing else.** Take any
order, dimensions, stated number of entries and arrays, where the number of
pointers fits a machine word. The check passes exactly if there is a list of
slices, as many as the primary dimension and with all indices below the
secondary one, such that the pointers are zero followed by the running totals
of the lengths of the slices, the indices and values are those of the slices
one after the other, and the stated number is theirs; there is at most one
such list. Otherwise the first of three questions that fails is named: whether
all lengths and the last pointer agree, whether the pointers start at zero and
never decrease, and whether all indices lie below the dimension. So there
always is a verdict.

Arrays that pass can be copied, and the copy passes. A copy takes the arrays
over as they are and gets their verdict, whatever it is; it states no number of
entries of its own, so an input that states a wrong one is refused whatever the
copy. -/
theorem accepts_compressed_forms (input : MatrixInput α)
    (hcap : input.order.primary input.rows input.cols + 1 < UInt64.size) :
    (input.check = .ok (.ok ()) ↔ ∃ ss, input.Describes ss)
    ∧ (∀ ss ss', input.Describes ss → input.Describes ss' → ss = ss')
    ∧ (input.check = .ok (.error .lengthMismatch) ↔ ¬ input.LengthsAgree)
    ∧ (input.check = .ok (.error .pointerOrder) ↔ input.LengthsAgree
      ∧ (input.starts[0]? ≠ some 0
        ∨ ∃ k s t, input.starts[k]? = some s ∧ input.starts[k + 1]? = some t
          ∧ t < s))
    ∧ (input.check = .ok (.error .indexRange) ↔ input.LengthsAgree
      ∧ input.PointersRise
      ∧ ∃ j ∈ input.indices, input.order.flip.primary input.rows input.cols ≤ j)
    ∧ (∃ verdict, input.check = .ok verdict)
    ∧ (input.check = .ok (.ok ()) →
      ∃ A, input.toSliced = .ok A ∧ A.check = .ok (.ok ()))
    ∧ ∀ A, input.toSliced = .ok A → input.check
      = if A.values.size = input.entryCount then A.check
        else .ok (.error .lengthMismatch) := by
  refine ⟨check_eq_ok_iff_describes hcap, ?_, check_eq_lengthMismatch_iff hcap,
    ?_, ?_, ?_, ?_, ?_⟩
  · intro ss ss' h h'
    rw [h.slices_eq, h'.slices_eq]
  · rw [← not_pointersRise_iff]
    exact check_eq_pointerOrder_iff hcap
  · rw [← not_indicesFit_iff]
    exact check_eq_indexRange_iff hcap
  · rcases check_verdict hcap
      with ⟨-, h⟩ | ⟨-, -, h⟩ | ⟨-, -, -, h⟩ | ⟨-, -, -, h⟩ <;> exact ⟨_, h⟩
  · intro h
    have hmatrix := (check_eq_ok_iff.mp h).2
    exact ⟨input.matrix, toSliced_eq_ok hmatrix, hmatrix⟩
  · intro A hA
    rw [eq_matrix_of_toSliced hA]
    exact check_eq_check_matrix

/-- A slice may be empty, unsorted, and hold a position twice. -/
theorem accepts_compressed_forms_ragged :
    let input : MatrixInput Float :=
      ⟨.row, 3, 3, 4, #[0, 3, 3, 4], #[2, 0, 2, 1], #[1, 2, 3, 4]⟩
    input.order.primary input.rows input.cols + 1 < UInt64.size
      ∧ input.check = .ok (.ok ())
      ∧ ∀ ss, input.Describes ss
        ↔ ss = [[(2, 1), (0, 2), (2, 3)], [], [(1, 4)]] := by
  intro input
  have hcap : input.order.primary input.rows input.cols + 1 < UInt64.size := by
    decide
  have hforms : input.Describes [[(2, 1), (0, 2), (2, 3)], [], [(1, 4)]] :=
    ⟨rfl, by decide, rfl, rfl, rfl, rfl⟩
  obtain ⟨haccepted, hunique, -⟩ := accepts_compressed_forms input hcap
  refine ⟨hcap, haccepted.mpr ⟨_, hforms⟩, ?_⟩
  intro ss
  constructor
  · intro h
    exact hunique _ _ h hforms
  · rintro rfl
    exact hforms

end MatrixInput

end Equilibration
