import Mathlib.Data.List.Basic
import Mathlib.Data.Nat.Find
import Mathlib.Order.Basic
import Equilibration.Proofs.CheckedLoops
import Equilibration.Sliced.Wellformed

/-!
# Slices — a compressed matrix as a list of slices

The three arrays of a `SlicedMatrix` are one list of slices written in
three columns. `Slices` is that list, `SlicedMatrix.ofSlices` writes it
down and `SlicedMatrix.slices` reads it back.

The main statement is `check_eq_ok_iff`: the arrays that pass the check are
exactly those written from slices that fit the dimensions. After it no
proof looks at pointers again; every kernel is described by what it does to
the slices.
-/

namespace Equilibration

open Checked

/-- The entries of a matrix slice by slice, each an index and a value. -/
abbrev Slices (α : Type) := List (List (Nat × α))

namespace Slices

variable {α : Type}

/-- The number of entries before slice `k`. -/
def start (ss : Slices α) (k : Nat) : Nat := (ss.take k).flatten.length

/-- There are `count` slices, and every index lies below `bound`. -/
structure Fits (ss : Slices α) (count bound : Nat) : Prop where
  length_eq : ss.length = count
  index_lt : ∀ s ∈ ss, ∀ e ∈ s, e.1 < bound

/-! ## Where slices start -/

@[simp] theorem start_zero (ss : Slices α) : ss.start 0 = 0 := by simp [start]

theorem start_succ (ss : Slices α) {k : Nat} (h : k < ss.length) :
    ss.start (k + 1) = ss.start k + ss[k].length := by
  rw [start, start, List.take_succ_eq_append_getElem h, List.flatten_append,
    List.length_append, List.flatten_singleton]

@[simp] theorem start_length (ss : Slices α) :
    ss.start ss.length = ss.flatten.length := by
  simp [start]

theorem start_le_succ (ss : Slices α) (k : Nat) :
    ss.start k ≤ ss.start (k + 1) := by
  by_cases h : k < ss.length
  · rw [start_succ ss h]
    exact Nat.le_add_right _ _
  · have hk : ss.length ≤ k := Nat.le_of_not_lt h
    have heq : ss.start k = ss.start (k + 1) := by
      rw [start, start, List.take_of_length_le hk,
        List.take_of_length_le (Nat.le_succ_of_le hk)]
    exact Nat.le_of_eq heq

theorem start_mono (ss : Slices α) {k l : Nat} (h : k ≤ l) :
    ss.start k ≤ ss.start l := by
  induction h with
  | refl => exact Nat.le_refl _
  | step _ ih => exact Nat.le_trans ih (start_le_succ ss _)

theorem start_le (ss : Slices α) (k : Nat) :
    ss.start k ≤ ss.flatten.length := by
  rcases Nat.le_total k ss.length with h | h
  · rw [← start_length]
    exact start_mono ss h
  · have heq : ss.start k = ss.flatten.length := by
      rw [start, List.take_of_length_le h]
    exact Nat.le_of_eq heq

/-- Every position lies in exactly one slice. -/
theorem existsUnique_slice (ss : Slices α) {p : Nat}
    (hp : p < ss.flatten.length) :
    ∃! k, k < ss.length ∧ ss.start k ≤ p ∧ p < ss.start (k + 1) := by
  classical
  have hreached : ∃ k, p < ss.start k := ⟨ss.length, by rwa [start_length]⟩
  have hfirst := Nat.find_spec hreached
  have hle : Nat.find hreached ≤ ss.length :=
    Nat.find_min' hreached (by rwa [start_length])
  obtain ⟨k, hk⟩ : ∃ k, Nat.find hreached = k + 1 := by
    refine Nat.exists_eq_succ_of_ne_zero fun hzero => ?_
    rw [hzero, start_zero] at hfirst
    exact Nat.not_lt_zero p hfirst
  rw [hk] at hfirst hle
  have hbefore : ss.start k ≤ p :=
    Nat.le_of_not_lt (Nat.find_min hreached (by omega))
  refine ⟨k, ⟨hle, hbefore, hfirst⟩, ?_⟩
  rintro l ⟨-, hlow, hhigh⟩
  -- a slice that comes later starts behind the end of the earlier one
  rcases Nat.lt_trichotomy l k with hlt | heq | hgt
  · have : ss.start (l + 1) ≤ ss.start k := ss.start_mono hlt
    omega
  · exact heq
  · have : ss.start (k + 1) ≤ ss.start l := ss.start_mono hgt
    omega

theorem drop_start (ss : Slices α) (k : Nat) :
    ss.flatten.drop (ss.start k) = (ss.drop k).flatten := by
  have h : ss.flatten = (ss.take k).flatten ++ (ss.drop k).flatten := by
    rw [← List.flatten_append, List.take_append_drop]
  rw [h, start, List.drop_left]

theorem take_drop_start (ss : Slices α) {k : Nat} (h : k < ss.length) :
    (ss.flatten.drop (ss.start k)).take (ss.start (k + 1) - ss.start k)
      = ss[k] := by
  rw [drop_start, start_succ ss h, Nat.add_sub_cancel_left,
    List.drop_eq_getElem_cons h, List.flatten_cons, List.take_left]

theorem getElem?_flatten (ss : Slices α) {k p : Nat} (h : k < ss.length)
    (hp : p < ss[k].length) :
    ss.flatten[ss.start k + p]? = some ss[k][p] := by
  rw [← List.getElem?_drop, drop_start, List.drop_eq_getElem_cons h,
    List.flatten_cons,
    List.getElem?_append_left hp, List.getElem?_eq_getElem hp]

/-- A column of a slice is a piece of the column of all entries. -/
theorem extract_map {β : Type} (ss : Slices α) (f : Nat × α → β) {k : Nat}
    (h : k < ss.length) :
    ((ss.flatten.map f).toArray.extract (ss.start k) (ss.start (k + 1))).toList
      = ss[k].map f := by
  simp only [List.extract_toArray, List.extract_eq_take_drop]
  rw [← List.map_drop, ← List.map_take, take_drop_start ss h]

end Slices

namespace SlicedMatrix

variable {α : Type}

/-- The matrix whose arrays are written from slices. -/
def ofSlices (order : StorageOrder) (rows cols : Nat) (ss : Slices α) :
    SlicedMatrix α where
  order
  rows
  cols
  starts := ((List.range (ss.length + 1)).map ss.start).toArray
  indices := (ss.flatten.map Prod.fst).toArray
  values := (ss.flatten.map Prod.snd).toArray

/-- Slice `k` as the pointers cut it out; without pointers it is empty. -/
def sliceAt (A : SlicedMatrix α) (k : Nat) : List (Nat × α) :=
  let lo := A.starts[k]?.getD 0
  let hi := A.starts[k + 1]?.getD 0
  ((A.indices.toList.zip A.values.toList).drop lo).take (hi - lo)

/-- The slices of a matrix. -/
def slices (A : SlicedMatrix α) : Slices α :=
  (List.range A.sliceCount).map A.sliceAt

section OfSlices

variable {order : StorageOrder} {rows cols : Nat} {ss : Slices α}

@[simp] theorem order_ofSlices : (ofSlices order rows cols ss).order = order :=
  rfl

@[simp] theorem rows_ofSlices : (ofSlices order rows cols ss).rows = rows := rfl

@[simp] theorem cols_ofSlices : (ofSlices order rows cols ss).cols = cols := rfl

@[simp] theorem sliceCount_ofSlices :
    (ofSlices order rows cols ss).sliceCount = order.primary rows cols := rfl

@[simp] theorem indexBound_ofSlices :
    (ofSlices order rows cols ss).indexBound = order.flip.primary rows cols :=
  rfl

@[simp] theorem size_starts_ofSlices :
    (ofSlices order rows cols ss).starts.size = ss.length + 1 := by
  simp [ofSlices]

@[simp] theorem size_indices_ofSlices :
    (ofSlices order rows cols ss).indices.size = ss.flatten.length := by
  rw [ofSlices, List.size_toArray, List.length_map]

@[simp] theorem size_values_ofSlices :
    (ofSlices order rows cols ss).values.size = ss.flatten.length := by
  rw [ofSlices, List.size_toArray, List.length_map]

theorem getElem?_starts_ofSlices {k : Nat} (h : k ≤ ss.length) :
    (ofSlices order rows cols ss).starts[k]? = some (ss.start k) := by
  simp [ofSlices, List.getElem?_range (show k < ss.length + 1 by omega)]

theorem read_starts_ofSlices {k : Nat} (h : k ≤ ss.length) :
    read (ofSlices order rows cols ss).starts k = .ok (ss.start k) := by
  rw [read_eq_ok (by simp; omega)]
  simp [ofSlices]

theorem entryCount_ofSlices (h : ss.length = order.primary rows cols) :
    (ofSlices order rows cols ss).entryCount = .ok ss.flatten.length := by
  rw [entryCount, sliceCount_ofSlices, ← h,
    read_starts_ofSlices (Nat.le_refl _), Slices.start_length]

theorem bounds_ofSlices {k : Nat} (h : k < ss.length) :
    (ofSlices order rows cols ss).bounds k
      = .ok (ss.start k, ss.start (k + 1)) := by
  rw [bounds, read_starts_ofSlices (Nat.le_of_lt h), read_starts_ofSlices h]
  rfl

theorem cut_indices_ofSlices {k : Nat} (h : k < ss.length) :
    cut (ofSlices order rows cols ss).indices (ss.start k) (ss.start (k + 1))
      = .ok (ss[k].map Prod.fst) := by
  rw [cut_eq_ok (ss.start_le_succ k) (by simpa using ss.start_le (k + 1)),
    ofSlices, ss.extract_map Prod.fst h]

theorem cut_values_ofSlices {k : Nat} (h : k < ss.length) :
    cut (ofSlices order rows cols ss).values (ss.start k) (ss.start (k + 1))
      = .ok (ss[k].map Prod.snd) := by
  rw [cut_eq_ok (ss.start_le_succ k) (by simpa using ss.start_le (k + 1)),
    ofSlices, ss.extract_map Prod.snd h]

/-- The entries of slice `k` stand from its start on. -/
theorem getElem?_indices_ofSlices {k p : Nat} (h : k < ss.length)
    (hp : p < ss[k].length) :
    (ofSlices order rows cols ss).indices[ss.start k + p]?
      = some ss[k][p].1 := by
  rw [ofSlices, List.getElem?_toArray, List.getElem?_map,
    ss.getElem?_flatten h hp, Option.map_some]

theorem getElem?_values_ofSlices {k p : Nat} (h : k < ss.length)
    (hp : p < ss[k].length) :
    (ofSlices order rows cols ss).values[ss.start k + p]?
      = some ss[k][p].2 := by
  rw [ofSlices, List.getElem?_toArray, List.getElem?_map,
    ss.getElem?_flatten h hp, Option.map_some]

theorem read_values_ofSlices {k p : Nat} (h : k < ss.length)
    (hp : p < ss[k].length) :
    read (ofSlices order rows cols ss).values (ss.start k + p)
      = .ok ss[k][p].2 := by
  have hvalue :
      (ofSlices order rows cols ss).values[ss.start k + p]? = some ss[k][p].2 :=
    getElem?_values_ofSlices h hp
  obtain ⟨hlt, hget⟩ := Array.getElem?_eq_some_iff.mp hvalue
  rw [read_eq_ok hlt, hget]

/-- Cutting a slice out of its arrays gives the slice. -/
theorem slice_ofSlices {k : Nat} (h : k < ss.length) :
    (ofSlices order rows cols ss).slice k = .ok ss[k] := by
  simp only [slice, bounds_ofSlices h, ok_bind, cut_indices_ofSlices h,
    cut_values_ofSlices h, ← List.unzip_fst, ← List.unzip_snd, List.zip_unzip,
    pure_eq_ok]

/-- Reading a slice entry by entry gives the slice. -/
theorem entries_ofSlices {k : Nat} (h : k < ss.length) :
    (ofSlices order rows cols ss).entries k = .ok ss[k] := by
  have hindices : readRange (ofSlices order rows cols ss).indices (ss.start k)
      (ss.start (k + 1))
      = .ok (ss[k].map Prod.fst) := by
    rw [readRange_eq_ok (by simpa using ss.start_le (k + 1)), ofSlices,
      ss.extract_map _ h]
  have hvalues : readRange (ofSlices order rows cols ss).values (ss.start k)
      (ss.start (k + 1))
      = .ok (ss[k].map Prod.snd) := by
    rw [readRange_eq_ok (by simpa using ss.start_le (k + 1)), ofSlices,
      ss.extract_map _ h]
  simp only [entries, bounds_ofSlices h, ok_bind, hindices, hvalues,
    ← List.unzip_fst, ← List.unzip_snd, List.zip_unzip, pure_eq_ok]

theorem sliceAt_ofSlices {k : Nat} (h : k < ss.length) :
    (ofSlices order rows cols ss).sliceAt k = ss[k] := by
  rw [sliceAt, getElem?_starts_ofSlices (Nat.le_of_lt h),
    getElem?_starts_ofSlices h]
  simp only [Option.getD_some, ofSlices, ← List.unzip_fst, ← List.unzip_snd,
    List.zip_unzip]
  exact ss.take_drop_start h

theorem slices_ofSlices (h : ss.length = order.primary rows cols) :
    (ofSlices order rows cols ss).slices = ss := by
  apply List.ext_getElem
  · simp [slices, h]
  · intro k hk hk'
    simp only [slices, List.getElem_map, List.getElem_range]
    exact sliceAt_ofSlices hk'

end OfSlices

/-! ## The check -/

theorem isNondecreasing_iff (l : List Nat) :
    isNondecreasing l = true ↔ l.IsChain (· ≤ ·) := by
  fun_induction isNondecreasing l with
  | case1 s t rest ih => simp [ih]
  | case2 l h =>
    match l, h with
    | [], _ => simp
    | [_], _ => simp
    | s :: t :: rest, h => exact absurd rfl (h s t rest)

theorem isNondecreasing_starts (ss : Slices α) (n : Nat) :
    isNondecreasing ((List.range n).map ss.start) = true := by
  rw [isNondecreasing_iff, List.isChain_iff_getElem]
  intro k hk
  simp only [List.getElem_map, List.getElem_range]
  exact ss.start_le_succ k

theorem check_ofSlices {order : StorageOrder} {rows cols : Nat} {ss : Slices α}
    (hcap : order.primary rows cols + 1 < UInt64.size)
    (h : ss.Fits (order.primary rows cols) (order.flip.primary rows cols)) :
    (ofSlices order rows cols ss).check = .ok (.ok ()) := by
  have hindex : ∀ j ∈ (ofSlices order rows cols ss).indices,
      j < order.flip.primary rows cols := by
    intro j hj
    simp only [ofSlices, List.mem_toArray, List.mem_map, List.mem_flatten] at hj
    obtain ⟨e, ⟨s, hs, he⟩, rfl⟩ := hj
    exact h.index_lt s hs e he
  have hfirst : (ofSlices order rows cols ss).starts[0]? = some 0 := by
    rw [getElem?_starts_ofSlices (Nat.zero_le _), Slices.start_zero]
  have hlast : (ofSlices order rows cols ss).starts[order.primary rows cols]?
      = some (ofSlices order rows cols ss).indices.size := by
    rw [← h.length_eq, getElem?_starts_ofSlices (Nat.le_refl _),
      Slices.start_length, size_indices_ofSlices]
  have hmono :
      isNondecreasing (ofSlices order rows cols ss).starts.toList = true :=
    isNondecreasing_starts ss _
  rw [check, sliceCount_ofSlices, indexBound_ofSlices, checkArrays_eq_ok hcap,
    if_neg (by rw [size_indices_ofSlices, size_values_ofSlices, not_not]),
    checkSlices, if_neg, if_neg, if_neg]
  · rw [not_not, Array.all_eq_true_iff_forall_mem]
    exact fun j hj => decide_eq_true (hindex j hj)
  · rw [not_or, not_not, not_not]
    exact ⟨hfirst, hmono⟩
  · rw [not_or, not_not, not_not, size_starts_ofSlices, h.length_eq]
    exact ⟨rfl, hlast⟩

/-- What the check asks, with its questions written out. -/
theorem of_check {A : SlicedMatrix α} (h : A.check = .ok (.ok ())) :
    A.sliceCount + 1 < UInt64.size ∧ A.indices.size = A.values.size
      ∧ A.starts.size = A.sliceCount + 1
      ∧ A.starts[A.sliceCount]? = some A.indices.size
      ∧ A.starts[0]? = some 0 ∧ A.starts.toList.IsChain (· ≤ ·)
      ∧ ∀ j ∈ A.indices, j < A.indexBound := by
  rw [check, checkArrays] at h
  split at h
  · cases h
  next hvalues =>
  rw [require] at h
  split at h
  · next hcap =>
    replace h :
        checkSlices A.sliceCount A.indexBound A.starts A.indices = .ok () :=
      Except.ok.inj h
    rw [checkSlices] at h
    split at h
    · cases h
    next hends =>
    split at h
    · cases h
    next horder =>
    split at h
    · cases h
    next hindex =>
    simp only [not_or, not_not] at hends horder hindex hvalues
    rw [Array.all_eq_true_iff_forall_mem] at hindex
    exact ⟨hcap, hvalues, hends.1, hends.2, horder.1, (isNondecreasing_iff _).mp
      horder.2, fun j hj => of_decide_eq_true (hindex j hj)⟩
  · cases h

/-- The pointers cut the entries into slices, and nothing is asked of the
indices. -/
structure WellCut (A : SlicedMatrix α) : Prop where
  count_lt : A.sliceCount + 1 < UInt64.size
  size_indices : A.indices.size = A.values.size
  size_starts : A.starts.size = A.sliceCount + 1
  last_start : A.starts[A.sliceCount]? = some A.indices.size
  first_start : A.starts[0]? = some 0
  rising : A.starts.toList.IsChain (· ≤ ·)

theorem WellCut.of_check {A : SlicedMatrix α} (h : A.check = .ok (.ok ())) :
    A.WellCut := by
  obtain ⟨hcount, hvalues, hsize, hlast, hfirst, hchain, -⟩ :=
    SlicedMatrix.of_check h
  exact ⟨hcount, hvalues, hsize, hlast, hfirst, hchain⟩

section Wellformed

variable {A : SlicedMatrix α}

/-- The slices before slice `k` are what lies before its pointer. -/
theorem flatten_sliceAt (hfirst : A.starts[0]? = some 0)
    (hchain : A.starts.toList.IsChain (· ≤ ·)) {k : Nat}
    (hk : k < A.starts.size) :
    ((List.range k).map A.sliceAt).flatten
      = (A.indices.toList.zip A.values.toList).take (A.starts[k]?.getD 0) := by
  induction k with
  | zero => simp [hfirst]
  | succ k ih =>
    have hstep : A.starts[k] ≤ A.starts[k + 1] := by
      have := List.isChain_iff_getElem.mp hchain k (by simpa using hk)
      rwa [Array.getElem_toList, Array.getElem_toList] at this
    rw [List.range_succ, List.map_append, List.flatten_append, ih (by omega)]
    simp only [List.map_cons, List.map_nil, List.flatten_singleton, sliceAt,
      Array.getElem?_eq_getElem hk, Array.getElem?_eq_getElem
        (show k < A.starts.size by omega), Option.getD_some]
    rw [← List.take_add]
    congr 1
    omega

/-- Arrays that the pointers cut into slices are written from them. -/
theorem WellCut.ofSlices_slices (h : A.WellCut) :
    ofSlices A.order A.rows A.cols A.slices = A := by
  obtain ⟨-, hvalues, hsize, hlast, hfirst, hchain⟩ := h
  have hvalues' : A.indices.toList.length = A.values.toList.length := by
    simpa using hvalues
  have hcount : A.slices.length = A.sliceCount := by simp [slices]
  have hstart :
      ∀ k, k ≤ A.sliceCount → A.slices.start k = A.starts[k]?.getD 0 := by
    intro k hk
    have hle : A.starts[k]?.getD 0 ≤ A.indices.size := by
      have hpair :=
        List.pairwise_iff_getElem.mp (List.isChain_iff_pairwise.mp hchain)
      rcases Nat.lt_or_ge k A.sliceCount with hlt | hge
      · have := hpair k A.sliceCount (by simp; omega) (by simp; omega) hlt
        rw [Array.getElem?_eq_getElem (by omega)] at hlast ⊢
        simpa [Option.some.inj hlast] using this
      · have heq : A.starts[k]?.getD 0 = A.indices.size := by
          rw [show k = A.sliceCount by omega, hlast, Option.getD_some]
        exact Nat.le_of_eq heq
    have hflat :=
      flatten_sliceAt hfirst hchain (show k < A.starts.size by omega)
    rw [Slices.start, slices, ← List.map_take, List.take_range,
      Nat.min_eq_left hk, hflat, List.length_take, List.length_zip, hvalues',
      Nat.min_self, ← hvalues', Array.length_toList, Nat.min_eq_left hle]
  have hflat : A.slices.flatten = A.indices.toList.zip A.values.toList := by
    have :=
      flatten_sliceAt hfirst hchain (show A.sliceCount < A.starts.size by omega)
    have hlength :
        (A.indices.toList.zip A.values.toList).length = A.indices.size := by
      rw [List.length_zip, ← hvalues', Nat.min_self, Array.length_toList]
    rw [slices, this, hlast, Option.getD_some,
      List.take_of_length_le (Nat.le_of_eq hlength)]
  have hstarts : ((List.range (A.slices.length + 1)).map A.slices.start).toArray
      = A.starts := by
    apply Array.ext
    · simp [hcount, hsize]
    · intro k hk hk'
      simp only [List.getElem_toArray, List.getElem_map, List.getElem_range]
      rw [hstart k (by omega), Array.getElem?_eq_getElem hk', Option.getD_some]
  rw [ofSlices, hstarts, hflat, List.map_fst_zip (Nat.le_of_eq hvalues'),
    List.map_snd_zip (Nat.le_of_eq hvalues'.symm)]

theorem length_slices (A : SlicedMatrix α) :
    A.slices.length = A.sliceCount := by simp [slices]

theorem WellCut.length_flatten (h : A.WellCut) :
    A.slices.flatten.length = A.values.size := by
  conv_rhs => rw [← h.ofSlices_slices, size_values_ofSlices]

theorem WellCut.entryCount_eq (h : A.WellCut) :
    A.entryCount = .ok A.values.size := by
  rw [← h.length_flatten, ← entryCount_ofSlices A.length_slices]
  conv_lhs => rw [← h.ofSlices_slices]

/-- Arrays that pass the check are written from their slices. -/
theorem ofSlices_slices (h : A.check = .ok (.ok ())) :
    ofSlices A.order A.rows A.cols A.slices = A :=
  (WellCut.of_check h).ofSlices_slices

theorem fits_slices (h : A.check = .ok (.ok ())) :
    A.slices.Fits A.sliceCount A.indexBound where
  length_eq := by simp [slices]
  index_lt s hs e he := by
    obtain ⟨-, -, -, -, -, -, hindex⟩ := of_check h
    have hmem : e.1 ∈ (ofSlices A.order A.rows A.cols A.slices).indices := by
      simp only [ofSlices, List.mem_toArray, List.mem_map, List.mem_flatten]
      exact ⟨e, ⟨s, hs, he⟩, rfl⟩
    rw [ofSlices_slices h] at hmem
    exact hindex _ hmem

theorem getElem?_indices (h : A.check = .ok (.ok ())) {k q : Nat}
    (hk : k < A.slices.length) (hq : q < A.slices[k].length) :
    A.indices[A.slices.start k + q]? = some A.slices[k][q].1 := by
  have hindex :
      (ofSlices A.order A.rows A.cols A.slices).indices[A.slices.start k + q]?
        = some A.slices[k][q].1 := getElem?_indices_ofSlices hk hq
  rwa [ofSlices_slices h] at hindex

theorem getElem?_values (h : A.check = .ok (.ok ())) {k q : Nat}
    (hk : k < A.slices.length) (hq : q < A.slices[k].length) :
    A.values[A.slices.start k + q]? = some A.slices[k][q].2 := by
  have hvalue :
      (ofSlices A.order A.rows A.cols A.slices).values[A.slices.start k + q]?
        = some A.slices[k][q].2 := getElem?_values_ofSlices hk hq
  rwa [ofSlices_slices h] at hvalue

/-- The arrays that pass the check are those written from slices that fit. -/
theorem check_eq_ok_iff :
    A.check = .ok (.ok ()) ↔ A.sliceCount + 1 < UInt64.size
      ∧ ∃ ss : Slices α, ss.Fits A.sliceCount A.indexBound
        ∧ A = ofSlices A.order A.rows A.cols ss := by
  constructor
  · intro h
    exact ⟨(of_check h).1, A.slices, fits_slices h, (ofSlices_slices h).symm⟩
  · rintro ⟨hcap, ss, hfits, heq⟩
    rw [heq]
    exact check_ofSlices hcap hfits

end Wellformed

end SlicedMatrix

end Equilibration
