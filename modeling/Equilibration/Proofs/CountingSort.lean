import Mathlib.Algebra.BigOperators.Group.List.Basic
import Mathlib.Algebra.GroupWithZero.Nat
import Equilibration.Proofs.CheckedLoops
import Equilibration.Proofs.Transpose
import Equilibration.Sliced.Conversion

/-!
# CountingSort — conversion regroups the slices

`SlicedMatrix.regroup` in the language of slices (`regroup_ofSlices`): what
it leaves in its arrays is `Slices.transposed`.

The loop that moves the entries meets only states of one form,
`Fill.after`: every new slice holds the entries dealt out to it so far,
blank cells up to its final length, and its next free place is where the
blanks begin. One step turns the first blank of one slice into an entry.

The loop has one slice more than the result. An index equal to the
secondary dimension is dealt to that slice; `regroup_ofSlices` keeps it, and
where every index is below the dimension the slice is empty.
-/

namespace Equilibration

open Checked

/-! ## Blank cells -/

/-- A list filled up with blanks to a length. -/
def padTo {β : Type} (blank : β) (length : Nat) (l : List β) : List β :=
  l ++ List.replicate (length - l.length) blank

theorem length_padTo {β : Type} {blank : β} {length : Nat} {l : List β}
    (h : l.length ≤ length) :
    (padTo blank length l).length = length := by
  rw [padTo, List.length_append, List.length_replicate]
  omega

/-- Writing to the first blank appends. -/
theorem set_padTo {β : Type} (blank : β) {length : Nat} (l : List β)
    (h : l.length < length) (b : β) :
    (padTo blank length l).set l.length b = padTo blank length (l ++ [b]) := by
  rw [padTo, padTo, List.set_append_right _ _ (Nat.le_refl _), Nat.sub_self,
    List.length_append, List.length_singleton, List.append_assoc,
    show length - l.length = (length - (l.length + 1)) + 1 by omega,
    List.replicate_succ]
  rfl

/-- Writing to a cell of one of many lists. -/
theorem set_flatten {β : Type} {ls : List (List β)} {j t : Nat}
    (hj : j < ls.length) (ht : t < ls[j].length) (b : β) :
    ls.flatten.set ((ls.take j).flatten.length + t) b
      = (ls.set j (ls[j].set t b)).flatten := by
  induction ls generalizing j with
  | nil => simp at hj
  | cons l ls ih =>
    cases j with
    | zero =>
      have ht' : t < l.length := ht
      simp [List.set_append_left _ _ ht']
    | succ j =>
      have := ih (j := j) (by simpa using hj) (by simpa using ht)
      simp only [List.take_succ_cons, List.flatten_cons, List.length_append,
        List.set_cons_succ, List.getElem_cons_succ]
      rw [List.set_append_right _ _ (by omega), ← this]
      congr 2
      omega

namespace Slices

variable {α : Type}

/-! ## Counting -/

theorem bucket_append (cs ds : List (Cell α)) (j : Nat) :
    bucket (cs ++ ds) j = bucket cs j ++ bucket ds j := List.filterMap_append

theorem bucket_singleton (c : Cell α) (j : Nat) :
    bucket [c] j = if c.index = j then [(c.slice, c.value)] else [] := by
  by_cases h : c.index = j <;> simp [bucket, h]

/-- A bucket is as long as its index is frequent. -/
theorem length_bucket (cs : List (Cell α)) (j : Nat) :
    (bucket cs j).length = (cs.map Cell.index).count j := by
  induction cs with
  | nil => rfl
  | cons c cs ih =>
    rw [← List.singleton_append, bucket_append, bucket_singleton,
      List.length_append, ih, List.singleton_append, List.map_cons,
      List.count_cons]
    by_cases h : c.index = j
    · simp [h, Nat.add_comm]
    · simp [h]

/-- One slice more takes the entries of one index more. -/
theorem dealt_succ (n : Nat) (cs : List (Cell α)) :
    dealt (n + 1) cs = dealt n cs ++ [bucket cs n] := by
  rw [dealt, dealt, List.range_succ, List.map_append, List.map_singleton]

theorem length_bucket_prefix_lt (pre : List (Cell α)) (c : Cell α)
    (post : List (Cell α)) :
    (bucket pre c.index).length
      < (bucket (pre ++ c :: post) c.index).length := by
  rw [bucket_append, ← List.singleton_append, bucket_append, bucket_singleton,
    if_pos rfl]
  simp only [List.length_append, List.length_singleton]
  omega

theorem map_entry_cells (ss : Slices α) :
    (ss.cells.map fun c => (c.index, c.value)) = ss.flatten := by
  rw [cells, List.map_flatMap]
  simp only [List.map_map, Function.comp_def, List.map_id']
  rw [List.flatMap_def]
  congr 1
  apply List.ext_getElem
  · simp
  · intro k hk hk'
    simp [List.getElem?_eq_getElem hk']

theorem map_index_cells (ss : Slices α) :
    ss.cells.map Cell.index = ss.flatten.map Prod.fst := by
  rw [← map_entry_cells, List.map_map]
  rfl

theorem length_cells (ss : Slices α) : ss.cells.length = ss.flatten.length := by
  rw [← map_entry_cells, List.length_map]

/-- Together the buckets hold every entry whose index has one. -/
theorem length_flatten_dealt {cs : List (Cell α)} {n : Nat}
    (h : ∀ c ∈ cs, c.index < n) :
    (dealt n cs).flatten.length = cs.length := by
  have hperm := flatMap_filter_perm Cell.index cs n
  have hall : (cs.filter fun c => c.index < n) = cs :=
    List.filter_eq_self.mpr fun c hc => decide_eq_true (h c hc)
  rw [hall] at hperm
  rw [← hperm.length_eq, dealt, ← List.flatMap_def, List.length_flatMap,
    List.length_flatMap]
  congr 1
  apply List.map_congr_left
  intro j _
  have := congrArg List.length (map_cell_bucket cs j)
  rwa [List.length_map, List.length_map] at this

end Slices

/-- Running totals that fit a machine word are the totals of the lists cut
off before each element. -/
theorem runningTotals_eq_ok {total : Nat} {cs : List Nat}
    (h : total + cs.sum < UInt64.size) :
    runningTotals total cs
      = .ok ((List.range cs.length).map fun j => total + (cs.take j).sum) := by
  induction cs generalizing total with
  | nil => rfl
  | cons c cs ih =>
    rw [List.sum_cons] at h
    rw [runningTotals, addWords_eq_ok (by omega), ok_bind, ih (by omega),
      ok_bind, pure_eq_ok, List.length_cons, List.range_succ_eq_map,
      List.map_cons, List.map_map]
    simp [Function.comp_def, Nat.add_assoc]

/-! ## Filling -/

namespace Fill

open Slices

variable {α : Type}

/-- The cells of each slice when the entries `done` of `all` are placed. -/
def blocks {β : Type} (column : Nat × α → β) (blank : β) (n : Nat)
    (all done : List (Cell α)) :
    List (List β) :=
  (List.range n).map fun j =>
    padTo blank (bucket all j).length ((bucket done j).map column)

/-- The arrays when the entries `done` of `all` are placed in `n` slices. -/
def after (blank : α) (n : Nat) (all done : List (Cell α)) : Fill α where
  next := ((List.range n).map fun j =>
    (dealt n all).start j + (bucket done j).length).toArray
  indices := (blocks Prod.fst 0 n all done).flatten.toArray
  values := (blocks Prod.snd blank n all done).flatten.toArray

section Step

variable {β : Type} (column : Nat × α → β) (blank : β) {n : Nat}
  {pre post : List (Cell α)} {c : Cell α}

theorem length_bucket_le (pre post : List (Cell α)) (j : Nat) :
    (bucket pre j).length ≤ (bucket (pre ++ post) j).length := by
  rw [bucket_append, List.length_append]
  exact Nat.le_add_right _ _

/-- However many entries are placed, slice `j` begins at its final start. -/
theorem length_take_blocks (n : Nat) (pre post : List (Cell α)) (j : Nat) :
    ((blocks column blank n (pre ++ post) pre).take j).flatten.length
      = (dealt n (pre ++ post)).start j := by
  rw [blocks, dealt, Slices.start, ← List.map_take, ← List.map_take,
    List.length_flatten, List.length_flatten, List.map_map, List.map_map]
  congr 1
  apply List.map_congr_left
  intro i _
  exact length_padTo
    (by rw [List.length_map]; exact length_bucket_le pre post i)

theorem length_blocks_flatten (h : ∀ d ∈ pre ++ post, d.index < n) :
    (blocks column blank n (pre ++ post) pre).flatten.length
      = (pre ++ post).length := by
  have := length_take_blocks column blank n pre post n
  rw [List.take_of_length_le (by simp [blocks]), Slices.start,
    List.take_of_length_le (Nat.le_of_eq (length_dealt n _))] at this
  rw [this, length_flatten_dealt h]

/-- Placing one more entry writes to the first blank of its slice. -/
theorem set_blocks (hc : c.index < n) :
    (blocks column blank n (pre ++ c :: post) pre).flatten.set
        ((dealt n (pre ++ c :: post)).start c.index
          + (bucket pre c.index).length) (column (c.slice, c.value))
      = (blocks column blank n (pre ++ c :: post) (pre ++ [c])).flatten := by
  have hlen :
      c.index < (blocks column blank n (pre ++ c :: post) pre).length := by
    simpa [blocks] using hc
  have hlt := length_bucket_prefix_lt pre c post
  have hget : (blocks column blank n (pre ++ c :: post) pre)[c.index]
      = padTo blank (bucket (pre ++ c :: post) c.index).length
          ((bucket pre c.index).map column) := by simp [blocks]
  rw [← length_take_blocks column blank, set_flatten hlen
    (by rw [hget, length_padTo (by rw [List.length_map]; omega)]; exact hlt)]
  congr 1
  apply List.ext_getElem
  · simp [blocks]
  · intro j hj hj'
    rw [List.getElem_set]
    by_cases h : c.index = j
    · subst h
      have := set_padTo blank ((bucket pre c.index).map column)
        (by rw [List.length_map]; exact hlt) (column (c.slice, c.value))
      rw [List.length_map] at this
      rw [if_pos rfl, hget, this]
      simp [blocks, bucket_append, bucket_singleton]
    · rw [if_neg h]
      simp [blocks, bucket_append, bucket_singleton, h]

theorem start_add_lt (h : ∀ d ∈ pre ++ c :: post, d.index < n) :
    (dealt n (pre ++ c :: post)).start c.index
      + (bucket pre c.index).length < (pre ++ c :: post).length := by
  have hc : c.index < n := h c (by simp)
  have hlt := length_bucket_prefix_lt pre c post
  have hsucc := Slices.start_succ (dealt n (pre ++ c :: post))
    (k := c.index) (by simpa using hc)
  have hle := Slices.start_le (dealt n (pre ++ c :: post)) (c.index + 1)
  rw [length_flatten_dealt h] at hle
  rw [getElem_dealt] at hsucc
  omega

end Step

/-- **One step of the loop**: from the state after some entries to the state
after one entry more. -/
theorem place_after {blank : α} {n : Nat} {pre post : List (Cell α)}
    {c : Cell α} (h : ∀ d ∈ pre ++ c :: post, d.index < n)
    (hword : (pre ++ c :: post).length < UInt64.size) :
    (after blank n (pre ++ c :: post) pre).place c.index c.slice c.value
      = .ok (after blank n (pre ++ c :: post) (pre ++ [c])) := by
  have hc : c.index < n := h c (by simp)
  have hdest := start_add_lt h
  have hnext : c.index < (after blank n (pre ++ c :: post) pre).next.size := by
    simpa [after] using hc
  have hindices : (dealt n (pre ++ c :: post)).start c.index
      + (bucket pre c.index).length
      < (after blank n (pre ++ c :: post) pre).indices.size := by
    rw [after, List.size_toArray, length_blocks_flatten _ _ h]
    exact hdest
  have hvalues : (dealt n (pre ++ c :: post)).start c.index
      + (bucket pre c.index).length
      < (after blank n (pre ++ c :: post) pre).values.size := by
    rw [after, List.size_toArray, length_blocks_flatten _ _ h]
    exact hdest
  have hread : (after blank n (pre ++ c :: post) pre).next[c.index]
      = (dealt n (pre ++ c :: post)).start c.index
        + (bucket pre c.index).length := by simp [after]
  have hfree : addWords ((dealt n (pre ++ c :: post)).start c.index
      + (bucket pre c.index).length) 1
      = .ok ((dealt n (pre ++ c :: post)).start c.index
        + (bucket pre c.index).length + 1) :=
    addWords_eq_ok (by omega)
  rw [place, read_eq_ok hnext, ok_bind, hread, write_eq_ok hindices, ok_bind,
    write_eq_ok hvalues, ok_bind, hfree, ok_bind, write_eq_ok hnext, ok_bind,
    pure_eq_ok]
  congr 1
  simp only [after, Fill.mk.injEq]
  refine ⟨?_, ?_, ?_⟩
  · apply Array.ext
    · simp
    · intro j hj hj'
      rw [Array.getElem_set]
      by_cases hjc : c.index = j
      · subst hjc
        simp [bucket_append, bucket_singleton, Nat.add_assoc]
      · simp [hjc, bucket_append, bucket_singleton]
  · rw [List.set_toArray, set_blocks Prod.fst 0 hc]
  · rw [List.set_toArray, set_blocks Prod.snd blank hc]

/-- Placing every entry. -/
theorem foldlM_place_after {blank : α} {n : Nat} {cs : List (Cell α)}
    (h : ∀ c ∈ cs, c.index < n) (hword : cs.length < UInt64.size) :
    cs.foldlM (fun f c => f.place c.index c.slice c.value) (after blank n cs [])
      = .ok (after blank n cs cs) := by
  refine foldlM_eq_ok (after blank n cs) [] cs ?_
  intro pre c post heq
  rw [List.nil_append] at heq
  subst heq
  exact place_after h hword

theorem blocks_self {β : Type} (column : Nat × α → β) (blank : β) (n : Nat)
    (cs : List (Cell α)) :
    (blocks column blank n cs cs).flatten
      = (dealt n cs).flatten.map column := by
  rw [List.map_flatten, dealt, List.map_map, blocks]
  congr 1
  apply List.map_congr_left
  intro j _
  simp [padTo]

theorem blocks_nil {β : Type} (column : Nat × α → β) (blank : β) {n : Nat}
    {cs : List (Cell α)} (h : ∀ c ∈ cs, c.index < n) :
    (blocks column blank n cs []).flatten = List.replicate cs.length blank := by
  rw [List.eq_replicate_iff]
  constructor
  · rw [← List.nil_append cs] at h ⊢
    exact length_blocks_flatten column blank h
  · intro b hb
    simp only [blocks, List.mem_flatten, List.mem_map] at hb
    obtain ⟨l, ⟨j, -, rfl⟩, hb⟩ := hb
    simp only [bucket, List.filterMap_nil, List.map_nil, padTo, List.nil_append]
      at hb
    exact List.eq_of_mem_replicate hb

/-- Together the counts of the indices are as many as there are entries. -/
theorem sum_counts {n : Nat} {cs : List (Cell α)} (h : ∀ c ∈ cs, c.index < n) :
    ((List.range n).map (cs.map Cell.index).count).sum = cs.length := by
  rw [← length_flatten_dealt h, List.length_flatten, dealt, List.map_map]
  congr 1
  apply List.map_congr_left
  intro j _
  exact (length_bucket cs j).symm

/-- The running totals of the counts are the places where an empty fill
begins. -/
theorem runningTotals_counts (blank : α) {n : Nat} {cs : List (Cell α)}
    (h : ∀ c ∈ cs, c.index < n) (hword : cs.length < UInt64.size) :
    runningTotals 0 ((List.range n).map (cs.map Cell.index).count)
      = .ok (after blank n cs []).next.toList := by
  rw [runningTotals_eq_ok (by rw [sum_counts h]; omega)]
  simp only [after, List.length_map, List.length_range]
  congr 1
  apply List.map_congr_left
  intro j _
  rw [Slices.start, List.length_flatten, ← List.map_take, dealt,
    ← List.map_take, List.map_map, Nat.zero_add]
  simp only [bucket, List.filterMap_nil, List.length_nil, Nat.add_zero]
  congr 1
  apply List.map_congr_left
  intro i _
  exact (length_bucket cs i).symm

theorem after_nil (blank : α) {n : Nat} {cs : List (Cell α)}
    (h : ∀ c ∈ cs, c.index < n) :
    after blank n cs []
      = { next := (after blank n cs []).next
          indices := Array.replicate cs.length 0
          values := Array.replicate cs.length blank } := by
  simp only [after, blocks_nil _ _ h, List.toArray_replicate]

/-- The places behind the full slices, shifted back, are where the slices
begin. -/
theorem starts_after_self (blank : α) (n : Nat) (cs : List (Cell α)) :
    (after blank (n + 1) cs cs).starts
      = ((List.range (n + 1)).map (dealt (n + 1) cs).start).toArray := by
  have hnext :
      ∀ j ∈ List.range n, (dealt (n + 1) cs).start j + (bucket cs j).length
        = (dealt (n + 1) cs).start (j + 1) := by
    intro j hj
    rw [Slices.start_succ _
      (by rw [length_dealt]; have := List.mem_range.mp hj; omega),
      getElem_dealt]
  have hdrop : ((List.range (n + 1)).map fun j =>
        (dealt (n + 1) cs).start j + (bucket cs j).length).dropLast
      = (List.range n).map fun j => (dealt (n + 1) cs).start (j + 1) := by
    rw [List.range_succ, List.map_append, List.map_singleton,
      List.dropLast_concat, List.map_congr_left hnext]
  rw [starts, after, hdrop, List.range_succ_eq_map, List.map_cons, List.map_map,
    Slices.start_zero]
  rfl

end Fill

/-! ## Conversion -/

namespace SlicedMatrix

open Slices

variable {α : Type}

/-- A loop over the slices of a matrix, entry by entry, is a loop over its
cells. -/
theorem foldlM_entries_ofSlices {σ : Type} (order : StorageOrder)
    (rows cols : Nat) (ss : Slices α) (step : σ → Cell α → Checked σ) (s : σ) :
    (List.range ss.length).foldlM (fun s k => do
        let es ← (ofSlices order rows cols ss).entries k
        es.foldlM (fun s e => step s ⟨k, e.1, e.2⟩) s) s
      = ss.cells.foldlM step s := by
  rw [cells, foldlM_flatMap]
  apply foldlM_congr_mem
  intro s k hk
  have hk' : k < ss.length := List.mem_range.mp hk
  rw [entries_ofSlices hk', ok_bind, List.getElem?_eq_getElem hk',
    Option.getD_some, List.foldlM_map]

theorem indexCounts_ofSlices {order : StorageOrder} {rows cols : Nat}
    {ss : Slices α} (hcap : order.flip.primary rows cols + 1 < capacity)
    (hword : ss.flatten.length < UInt64.size)
    (h : ∀ c ∈ ss.cells, c.index < order.flip.primary rows cols + 1) :
    (ofSlices order rows cols ss).indexCounts
      = .ok ((List.range (order.flip.primary rows cols + 1)).map
          (ss.cells.map Cell.index).count).toArray := by
  generalize hn : order.flip.primary rows cols + 1 = n at hcap h
  have hzeros :
      Array.replicate n 0 = ((List.range n).map (List.count · [])).toArray := by
    apply Array.ext <;> simp
  have hlist : (ofSlices order rows cols ss).indices.toList
      = ss.cells.map Cell.index := by
    rw [map_index_cells]
    rfl
  rw [indexCounts, indexBound_ofSlices, hn, allocate_eq_ok hcap, ok_bind,
    hzeros, hlist]
  refine foldlM_eq_ok (fun l => ((List.range n).map l.count).toArray) [] _ ?_
  intro pre j post heq
  have hj : j < n := by
    have : j ∈ ss.cells.map Cell.index := by
      rw [List.nil_append] at heq
      rw [← heq]
      simp
    obtain ⟨c, hc, rfl⟩ := List.mem_map.mp this
    exact h c hc
  have hj' : j < ((List.range n).map pre.count).toArray.size := by
    simpa using hj
  -- a count is at most the number of indices counted so far
  have hcount :
      ((List.range n).map pre.count).toArray[j] + 1 < UInt64.size := by
    have hle : pre.count j ≤ pre.length := List.count_le_length
    have hlen := congrArg List.length heq
    rw [List.nil_append, List.length_map, length_cells, List.length_append,
      List.length_cons] at hlen
    simp only [List.getElem_toArray, List.getElem_map, List.getElem_range]
    omega
  rw [read_eq_ok hj', ok_bind, addWords_eq_ok hcount, ok_bind, write_eq_ok hj']
  congr 1
  apply Array.ext
  · simp
  · intro i hi hi'
    rw [Array.getElem_set]
    by_cases hij : j = i
    · simp [hij]
    · simp [hij, List.count_cons]

/-- The matrix with entries behind its last slice, where no pointer reaches. -/
def followedBy (A : SlicedMatrix α) (es : List (Nat × α)) : SlicedMatrix α :=
  { A with
    indices := A.indices ++ (es.map Prod.fst).toArray
    values := A.values ++ (es.map Prod.snd).toArray }

@[simp] theorem size_indices_followedBy (A : SlicedMatrix α)
    (es : List (Nat × α)) :
    (A.followedBy es).indices.size = A.indices.size + es.length := by
  simp [followedBy]

@[simp] theorem size_values_followedBy (A : SlicedMatrix α)
    (es : List (Nat × α)) :
    (A.followedBy es).values.size = A.values.size + es.length := by
  simp [followedBy]

theorem followedBy_nil (A : SlicedMatrix α) : A.followedBy [] = A := by
  rw [followedBy, List.map_nil, List.map_nil, Array.append_empty,
    Array.append_empty]

/-- The extra slice of a fill comes behind the slices of the matrix, and has a
start but no end. -/
theorem followedBy_eq (order : StorageOrder) (rows cols : Nat) (ss : Slices α)
    (es : List (Nat × α)) :
    (ofSlices order rows cols ss).followedBy es
      = { order, rows, cols
          starts :=
          ((List.range (ss.length + 1)).map (ss ++ [es]).start).toArray
          indices := ((ss ++ [es]).flatten.map Prod.fst).toArray
          values := ((ss ++ [es]).flatten.map Prod.snd).toArray } := by
  have hstart :
      ∀ k ∈ List.range (ss.length + 1), (ss ++ [es]).start k = ss.start k := by
    intro k hk
    have := List.mem_range.mp hk
    rw [start, start, List.take_append_of_le_length (by omega)]
  rw [followedBy, ofSlices, List.map_congr_left hstart]
  simp

/-- **Conversion in the language of slices.** Indices may equal the
secondary dimension; such entries end up behind all slices. -/
theorem regroup_ofSlices [Scalar α] {order : StorageOrder} {rows cols : Nat}
    {ss : Slices α} (hlen : ss.length = order.primary rows cols)
    (hcap : order.flip.primary rows cols + 1 < capacity)
    (hroom : ss.flatten.length < capacity)
    (h : ∀ c ∈ ss.cells, c.index < order.flip.primary rows cols + 1) :
    (ofSlices order rows cols ss).regroup
      = .ok ((ofSlices order.flip rows cols
          (ss.transposed (order.flip.primary rows cols))).followedBy
            (bucket ss.cells (order.flip.primary rows cols))) := by
  have hwords : ss.flatten.length < UInt64.size :=
    Nat.lt_trans hroom (by decide)
  have hwords' : ss.cells.length < UInt64.size := by rwa [length_cells]
  have hloop :
      (List.range ss.length).foldlM (ofSlices order rows cols ss).placeSlice
        (Fill.after (0 : α) (order.flip.primary rows cols + 1) ss.cells [])
      = .ok (Fill.after 0 (order.flip.primary rows cols + 1) ss.cells
        ss.cells) := by
    rw [← Fill.foldlM_place_after h hwords',
      ← foldlM_entries_ofSlices order rows cols]
    rfl
  rw [Fill.after_nil _ h, length_cells] at hloop
  rw [regroup, entryCount_ofSlices hlen, ok_bind, indexCounts_ofSlices hcap
    hwords h, ok_bind, allocate_eq_ok hroom, ok_bind, allocate_eq_ok hroom,
    ok_bind, List.toList_toArray, Fill.runningTotals_counts (0 : α) h hwords',
    ok_bind, Array.toArray_toList, sliceCount_ofSlices, ← hlen]
  show (do
    let full ← (List.range ss.length).foldlM
      (ofSlices order rows cols ss).placeSlice _
    pure _) = _
  rw [hloop, ok_bind, pure_eq_ok, Fill.starts_after_self, followedBy_eq,
    length_transposed, transposed, ← dealt_succ]
  simp only [Fill.after, Fill.blocks_self]
  rfl

/-- Conversion of a matrix whose slices fit. -/
theorem regroup_of_fits [Scalar α] {order : StorageOrder} {rows cols : Nat}
    {ss : Slices α}
    (h : ss.Fits (order.primary rows cols) (order.flip.primary rows cols))
    (hcap : order.flip.primary rows cols + 1 < capacity)
    (hroom : ss.flatten.length < capacity) :
    (ofSlices order rows cols ss).regroup
      = .ok (ofSlices order.flip rows cols
          (ss.transposed (order.flip.primary rows cols))) := by
  -- no entry has the extra index, so nothing comes behind the slices
  have hextra : bucket ss.cells (order.flip.primary rows cols) = [] := by
    rw [← List.length_eq_zero_iff, length_bucket, List.count_eq_zero]
    intro hmem
    obtain ⟨c, hc, heq⟩ := List.mem_map.mp hmem
    have := h.index_lt_of_mem_cells hc
    omega
  rw [regroup_ofSlices h.length_eq hcap hroom fun c hc =>
    Nat.lt_succ_of_lt (h.index_lt_of_mem_cells hc), hextra, followedBy_nil]

end SlicedMatrix

end Equilibration
