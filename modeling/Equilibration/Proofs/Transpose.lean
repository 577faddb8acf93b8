import Equilibration.Proofs.Slices

/-!
# Transpose — slices regrouped by index

`Slices.transposed` deals the entries out to new slices, one for each index,
in the order in which they stand. This is what the counting sort of the
library computes, without its arrays of counts and places.

* `valuesAt_transposed`: the values stored for a position keep their order,
  repeated positions included. Everything that only looks at positions
  (first entries, sums) therefore agrees on both forms.
* `sorted_transposed`: the new slices are sorted.
* `transposed_transposed`: regrouping twice sorts every slice, and keeps
  the order of equal indices.
-/

namespace Equilibration

/-- An entry and the slice that it stands in. -/
structure Cell (α : Type) where
  slice : Nat
  index : Nat
  value : α

namespace Cell

variable {α : Type}

/-- The same entry with slice and index exchanged. -/
def swap (c : Cell α) : Cell α := ⟨c.index, c.slice, c.value⟩

end Cell

namespace Slices

variable {α β : Type}

/-- The entries in the order in which they are stored. -/
def cells (ss : Slices α) : List (Cell α) :=
  (List.range ss.length).flatMap fun k =>
    (ss[k]?.getD []).map fun e => ⟨k, e.1, e.2⟩

/-- The entries of index `j`, each with the slice it comes from. -/
def bucket (cs : List (Cell α)) (j : Nat) : List (Nat × α) :=
  cs.filterMap fun c => if c.index = j then some (c.slice, c.value) else none

/-- Entries dealt out to `n` slices by their indices. -/
def dealt (n : Nat) (cs : List (Cell α)) : Slices α :=
  (List.range n).map (bucket cs)

/-- The same entries in slices of their indices. -/
def transposed (ss : Slices α) (bound : Nat) : Slices α := dealt bound ss.cells

/-- The values that one slice stores for index `j`. -/
def valuesOf (s : List (Nat × α)) (j : Nat) : List α :=
  s.filterMap fun e => if e.1 = j then some e.2 else none

/-- The values stored for slice `k` and index `j`. -/
def valuesAt (ss : Slices α) (k j : Nat) : List α := valuesOf (ss[k]?.getD []) j

/-- Every slice is sorted by index. -/
def Sorted (ss : Slices α) : Prop := ∀ s ∈ ss, s.Pairwise fun e f => e.1 ≤ f.1

/-- A slice sorted by index, entries of one index in their old order. -/
def stableSort (s : List (Nat × α)) : List (Nat × α) :=
  s.mergeSort fun e f => decide (e.1 ≤ f.1)

/-- The entries with new values, each made of its slice, its index and the
old value. -/
def mapValues (f : Nat → Nat → α → β) (ss : Slices α) : Slices β :=
  ss.mapIdx fun k s => s.map fun e => (e.1, f k e.1 e.2)

/-! ## Cells -/

/-- Every entry of a slice is a cell, and nothing else is. -/
theorem mem_cells {ss : Slices α} {c : Cell α} :
    c ∈ ss.cells ↔ ∃ s, ss[c.slice]? = some s ∧ (c.index, c.value) ∈ s := by
  simp only [cells, List.mem_flatMap, List.mem_range, List.mem_map]
  constructor
  · rintro ⟨k, hk, e, he, rfl⟩
    refine ⟨ss[k], List.getElem?_eq_getElem hk, ?_⟩
    rwa [List.getElem?_eq_getElem hk, Option.getD_some] at he
  · rintro ⟨s, hs, he⟩
    obtain ⟨hk, -⟩ := List.getElem?_eq_some_iff.mp hs
    exact ⟨c.slice, hk, (c.index, c.value), by rwa [hs, Option.getD_some], rfl⟩

theorem slice_lt_of_mem_cells {ss : Slices α} {c : Cell α} (h : c ∈ ss.cells) :
    c.slice < ss.length := by
  obtain ⟨s, hs, -⟩ := mem_cells.mp h
  exact (List.getElem?_eq_some_iff.mp hs).1

theorem Fits.index_lt_of_mem_cells {ss : Slices α} {count bound : Nat}
    (h : ss.Fits count bound) {c : Cell α} (hc : c ∈ ss.cells) :
    c.index < bound := by
  obtain ⟨s, hs, he⟩ := mem_cells.mp hc
  exact h.index_lt s (List.mem_of_getElem? hs) _ he

/-- The cells come slice after slice. -/
theorem pairwise_slice_cells (ss : Slices α) :
    ss.cells.Pairwise fun c d => c.slice ≤ d.slice := by
  rw [cells, List.pairwise_flatMap]
  constructor
  · intro k _
    rw [List.pairwise_map]
    exact List.pairwise_of_forall fun _ _ => Nat.le_refl k
  · refine List.pairwise_lt_range.imp ?_
    intro k l hkl c hc d hd
    simp only [List.mem_map] at hc hd
    obtain ⟨_, _, rfl⟩ := hc
    obtain ⟨_, _, rfl⟩ := hd
    exact Nat.le_of_lt hkl

theorem flatMap_range_ite (n i : Nat) (l : List β) :
    ((List.range n).flatMap fun k => if k = i then l else [])
      = if i < n then l else [] := by
  induction n with
  | zero => simp
  | succ n ih =>
    rw [List.range_succ, List.flatMap_append, ih, List.flatMap_singleton]
    by_cases h : n = i
    · simp [h]
    · rw [if_neg h, List.append_nil]
      by_cases hi : i < n
      · rw [if_pos hi, if_pos (by omega)]
      · rw [if_neg hi, if_neg (by omega)]

/-- The values stored for a position, found among the cells. -/
theorem valuesAt_eq_filterMap (ss : Slices α) (k j : Nat) :
    ss.valuesAt k j
      = ss.cells.filterMap fun c =>
        if c.slice = k ∧ c.index = j then some c.value else none := by
  have hstep :
      ∀ l, ((ss[l]?.getD []).map fun e => (⟨l, e.1, e.2⟩ : Cell α)).filterMap
        (fun c => if c.slice = k ∧ c.index = j then some c.value else none)
      = if l = k then ss.valuesAt k j else [] := by
    intro l
    rw [List.filterMap_map]
    by_cases h : l = k
    · subst h
      rw [if_pos rfl]
      simp only [valuesAt, valuesOf, Function.comp_def, true_and]
    · rw [if_neg h]
      simp [h]
  rw [cells, List.filterMap_flatMap]
  simp only [hstep]
  rw [flatMap_range_ite]
  by_cases h : k < ss.length
  · rw [if_pos h]
  · rw [if_neg h, valuesAt, List.getElem?_eq_none (Nat.le_of_not_lt h)]
    rfl

/-! ## The transposed slices -/

@[simp] theorem length_dealt (n : Nat) (cs : List (Cell α)) :
    (dealt n cs).length = n := by
  simp [dealt]

@[simp] theorem getElem_dealt {n : Nat} {cs : List (Cell α)} {j : Nat}
    (h : j < (dealt n cs).length) : (dealt n cs)[j] = bucket cs j := by
  simp [dealt]

@[simp] theorem length_transposed (ss : Slices α) (bound : Nat) :
    (ss.transposed bound).length = bound := length_dealt bound ss.cells

theorem getElem_transposed (ss : Slices α) (bound j : Nat)
    (h : j < (ss.transposed bound).length) :
    (ss.transposed bound)[j] = bucket ss.cells j := getElem_dealt h

theorem getElem?_transposed (ss : Slices α) {bound j : Nat} (h : j < bound) :
    (ss.transposed bound)[j]? = some (bucket ss.cells j) := by
  rw [List.getElem?_eq_getElem (by simpa using h), getElem_transposed]

theorem fits_transposed (ss : Slices α) (bound : Nat) :
    (ss.transposed bound).Fits bound ss.length where
  length_eq := length_transposed ss bound
  index_lt s hs e he := by
    obtain ⟨j, -, rfl⟩ := List.mem_map.mp hs
    obtain ⟨c, hc, heq⟩ := List.mem_filterMap.mp he
    split at heq
    · cases heq
      exact slice_lt_of_mem_cells hc
    · cases heq

/-- The new slices are sorted. -/
theorem sorted_transposed (ss : Slices α) (bound : Nat) :
    (ss.transposed bound).Sorted := by
  intro s hs
  obtain ⟨j, -, rfl⟩ := List.mem_map.mp hs
  rw [bucket, List.pairwise_filterMap]
  refine (pairwise_slice_cells ss).imp ?_
  intro c d hcd e he f hf
  split at he
  · split at hf
    · cases he
      cases hf
      exact hcd
    · cases hf
  · cases he

/-- The values stored for a position keep their order. -/
theorem valuesAt_transposed (ss : Slices α) {bound j : Nat} (hj : j < bound)
    (k : Nat) :
    (ss.transposed bound).valuesAt j k = ss.valuesAt k j := by
  rw [valuesAt_eq_filterMap ss, valuesAt, getElem?_transposed ss hj,
    Option.getD_some, valuesOf, bucket, List.filterMap_filterMap]
  congr 1
  funext c
  by_cases hi : c.index = j
  · by_cases hs : c.slice = k <;> simp [hi, hs]
  · simp [hi]

theorem map_cell_bucket (cs : List (Cell α)) (j : Nat) :
    ((bucket cs j).map fun e => (⟨j, e.1, e.2⟩ : Cell α))
      = (cs.filter fun c => c.index = j).map Cell.swap := by
  rw [bucket, List.map_filterMap, ← List.filterMap_eq_map,
    List.filterMap_filter]
  congr 1
  funext c
  by_cases h : c.index = j
  · simp [h, Cell.swap]
  · simp [h]

/-- The parts of a list by their keys are a permutation of the list. -/
theorem flatMap_filter_perm {γ : Type} (key : γ → Nat) (l : List γ) (n : Nat) :
    ((List.range n).flatMap fun j => l.filter fun c => key c = j).Perm
      (l.filter fun c => key c < n) := by
  induction n with
  | zero => simp
  | succ n ih =>
    have hsplit := List.filter_append_perm (fun c => decide (key c < n))
      (l.filter fun c => key c < n + 1)
    rw [List.filter_filter, List.filter_filter] at hsplit
    have hlow : (l.filter fun c => decide (key c < n) && decide (key c < n + 1))
        = l.filter fun c => key c < n := by
      congr 1
      funext c
      by_cases h : key c < n
      · simp [h, Nat.lt_succ_of_lt h]
      · simp [h]
    have hhigh :
        (l.filter fun c => !decide (key c < n) && decide (key c < n + 1))
          = l.filter fun c => key c = n := by
      congr 1
      funext c
      rw [← decide_not, ← Bool.decide_and, decide_eq_decide]
      omega
    rw [hlow, hhigh] at hsplit
    rw [List.range_succ, List.flatMap_append, List.flatMap_singleton]
    exact (ih.append_right _).trans hsplit

/-- Regrouping neither loses nor repeats an entry. -/
theorem cells_transposed_perm {ss : Slices α} {count bound : Nat}
    (h : ss.Fits count bound) :
    (ss.transposed bound).cells.Perm (ss.cells.map Cell.swap) := by
  have hcells : (ss.transposed bound).cells
      = ((List.range bound).flatMap fun j =>
        ss.cells.filter fun c => c.index = j).map Cell.swap := by
    rw [cells, length_transposed, List.map_flatMap]
    apply List.flatMap_congr
    intro j hj
    rw [getElem?_transposed ss (List.mem_range.mp hj), Option.getD_some,
      map_cell_bucket]
  have hall : (ss.cells.filter fun c => c.index < bound) = ss.cells := by
    rw [List.filter_eq_self]
    exact fun c hc => decide_eq_true (h.index_lt_of_mem_cells hc)
  rw [hcells]
  have hperm := flatMap_filter_perm Cell.index ss.cells bound
  rw [hall] at hperm
  exact hperm.map Cell.swap

/-! ## Sorting each slice -/

theorem valuesOf_cons (e : Nat × α) (s : List (Nat × α)) (j : Nat) :
    valuesOf (e :: s) j
      = if e.1 = j then e.2 :: valuesOf s j else valuesOf s j := by
  by_cases h : e.1 = j <;> simp [valuesOf, h]

theorem valuesOf_eq_nil {s : List (Nat × α)} {j : Nat} (h : ∀ e ∈ s, e.1 ≠ j) :
    valuesOf s j = [] := by
  rw [valuesOf, List.filterMap_eq_nil_iff]
  exact fun e he => if_neg (h e he)

/-- No values are stored for an index beyond the bound, before or after. -/
theorem Fits.valuesAt_transposed {ss : Slices α} {count bound : Nat}
    (h : ss.Fits count bound) (j k : Nat) :
    (ss.transposed bound).valuesAt j k = ss.valuesAt k j := by
  by_cases hj : j < bound
  · exact Slices.valuesAt_transposed ss hj k
  · have hout : (ss.transposed bound)[j]? = none :=
      List.getElem?_eq_none
        (by rw [length_transposed]; exact Nat.le_of_not_lt hj)
    rw [valuesAt, hout, Option.getD_none]
    symm
    apply valuesOf_eq_nil
    intro e he heq
    by_cases hk : k < ss.length
    · rw [List.getElem?_eq_getElem hk, Option.getD_some] at he
      have := h.index_lt _ (List.getElem_mem hk) e he
      omega
    · rw [List.getElem?_eq_none (Nat.le_of_not_lt hk)] at he
      cases he

/-- The first of two sorted slices cannot start below the second if both
store the same values for every index. -/
theorem head_le_of_valuesOf_eq {e f : Nat × α} {s t : List (Nat × α)}
    (ht : (f :: t).Pairwise fun e f => e.1 ≤ f.1)
    (h : ∀ j, valuesOf (e :: s) j = valuesOf (f :: t) j) : f.1 ≤ e.1 := by
  by_contra hlt
  have hnil : valuesOf (f :: t) e.1 = [] := by
    apply valuesOf_eq_nil
    intro g hg
    rcases List.mem_cons.mp hg with rfl | hg
    · omega
    · have := (List.pairwise_cons.mp ht).1 g hg
      omega
  have := h e.1
  rw [hnil, valuesOf_cons, if_pos rfl] at this
  cases this

/-- **Stable sorting has one result**: two sorted slices that store the same
values for every index, in the same order, are equal. -/
theorem eq_of_valuesOf_eq {s t : List (Nat × α)}
    (hs : s.Pairwise fun e f => e.1 ≤ f.1)
    (ht : t.Pairwise fun e f => e.1 ≤ f.1)
    (h : ∀ j, valuesOf s j = valuesOf t j) : s = t := by
  induction s generalizing t with
  | nil =>
    cases t with
    | nil => rfl
    | cons f t =>
      have := h f.1
      rw [valuesOf_cons, if_pos rfl] at this
      cases this
  | cons e s ih =>
    cases t with
    | nil =>
      have := h e.1
      rw [valuesOf_cons, if_pos rfl] at this
      cases this
    | cons f t =>
      have hkey : e.1 = f.1 :=
        Nat.le_antisymm (head_le_of_valuesOf_eq hs fun j => (h j).symm)
          (head_le_of_valuesOf_eq ht h)
      have hhead := h e.1
      rw [valuesOf_cons, valuesOf_cons, if_pos rfl, if_pos hkey.symm] at hhead
      have hvalue : e.2 = f.2 := (List.cons.inj hhead).1
      have htail : ∀ j, valuesOf s j = valuesOf t j := by
        intro j
        by_cases hj : e.1 = j
        · rw [← hj]
          exact (List.cons.inj hhead).2
        · have := h j
          rwa [valuesOf_cons, valuesOf_cons, if_neg hj, if_neg (hkey ▸ hj)]
            at this
      rw [Prod.ext hkey hvalue,
        ih (List.pairwise_cons.mp hs).2 (List.pairwise_cons.mp ht).2 htail]

section StableSort

private theorem le_trans_key (e f g : Nat × α) (h : decide (e.1 ≤ f.1) = true)
    (h' : decide (f.1 ≤ g.1) = true) : decide (e.1 ≤ g.1) = true :=
  decide_eq_true (Nat.le_trans (of_decide_eq_true h) (of_decide_eq_true h'))

private theorem le_total_key (e f : Nat × α) :
    (decide (e.1 ≤ f.1) || decide (f.1 ≤ e.1)) = true := by
  rw [← Bool.decide_or]
  exact decide_eq_true (Nat.le_total e.1 f.1)

theorem pairwise_stableSort (s : List (Nat × α)) :
    (stableSort s).Pairwise fun e f => e.1 ≤ f.1 :=
  (List.pairwise_mergeSort le_trans_key le_total_key s).imp of_decide_eq_true

theorem stableSort_of_pairwise {s : List (Nat × α)}
    (h : s.Pairwise fun e f => e.1 ≤ f.1) :
    stableSort s = s :=
  List.mergeSort_of_pairwise (h.imp decide_eq_true)

theorem filter_key_eq (s : List (Nat × α)) (j : Nat) :
    (s.filter fun e => e.1 = j) = (valuesOf s j).map fun v => (j, v) := by
  induction s with
  | nil => rfl
  | cons e s ih =>
    rw [valuesOf_cons]
    by_cases h : e.1 = j
    · rw [List.filter_cons_of_pos (by simpa using h), if_pos h, List.map_cons,
        ih, ← h]
    · rw [List.filter_cons_of_neg (by simpa using h), if_neg h, ih]

/-- Sorting a slice keeps the order of the values of one index. -/
theorem valuesOf_stableSort (s : List (Nat × α)) (j : Nat) :
    valuesOf (stableSort s) j = valuesOf s j := by
  -- the entries of one index are sorted, so they survive as a sublist; they
  -- are all the entries of that index, so nothing comes between them
  have hperm : (stableSort s).Perm s := List.mergeSort_perm s _
  have hsub : (s.filter fun e => e.1 = j).Sublist (stableSort s) := by
    apply List.sublist_mergeSort le_trans_key le_total_key _ List.filter_sublist
    rw [List.pairwise_filter]
    apply List.pairwise_of_forall
    intro e f he hf
    rw [of_decide_eq_true he, of_decide_eq_true hf]
    exact decide_eq_true (Nat.le_refl j)
  have hsub' := hsub.filter fun e => decide (e.1 = j)
  simp only [List.filter_filter, Bool.and_self] at hsub'
  have heq := hsub'.eq_of_length (hperm.filter _).length_eq.symm
  rw [filter_key_eq, filter_key_eq] at heq
  exact (List.map_injective_iff.mpr (fun _ _ hvw => (Prod.mk.inj hvw).2)
      heq).symm

end StableSort

/-- Regrouping twice sorts every slice by index, and keeps the order of
equal indices. -/
theorem transposed_transposed {ss : Slices α} {count bound : Nat}
    (h : ss.Fits count bound) :
    (ss.transposed bound).transposed count = ss.map stableSort := by
  apply List.ext_getElem
  · rw [length_transposed, List.length_map, h.length_eq]
  · intro k hk hk'
    have hkc : k < count := by simpa using hk
    have hks : k < ss.length := by rw [h.length_eq]; exact hkc
    apply eq_of_valuesOf_eq
    · exact sorted_transposed _ _ _ (List.getElem_mem hk)
    · rw [List.getElem_map]
      exact pairwise_stableSort _
    · intro j
      have htwice : valuesOf ((ss.transposed bound).transposed count)[k] j
          = (ss.transposed bound).valuesAt j k := by
        rw [← valuesAt_transposed (ss.transposed bound) hkc j, valuesAt,
          List.getElem?_eq_getElem hk, Option.getD_some]
      rw [htwice, h.valuesAt_transposed, List.getElem_map, valuesOf_stableSort,
        valuesAt, List.getElem?_eq_getElem hks, Option.getD_some]

theorem map_stableSort_of_sorted {ss : Slices α} (h : ss.Sorted) :
    ss.map stableSort = ss := by
  rw [List.map_congr_left fun s hs => stableSort_of_pairwise (h s hs),
    List.map_id']

/-- Slices that are sorted already are what regrouping twice gives. -/
theorem map_stableSort_eq_iff {ss : Slices α} :
    ss.map stableSort = ss ↔ ss.Sorted := by
  constructor
  · intro h s hs
    rw [← h] at hs
    obtain ⟨t, -, rfl⟩ := List.mem_map.mp hs
    exact pairwise_stableSort t
  · exact map_stableSort_of_sorted

/-! ## New values -/

@[simp] theorem length_mapValues (f : Nat → Nat → α → β) (ss : Slices α) :
    (ss.mapValues f).length = ss.length := by simp [mapValues]

theorem getElem?_mapValues (f : Nat → Nat → α → β) (ss : Slices α) (k : Nat) :
    (ss.mapValues f)[k]? = ss[k]?.map fun s =>
      s.map fun e => (e.1, f k e.1 e.2) := by
  simp [mapValues]

theorem cells_mapValues (f : Nat → Nat → α → β) (ss : Slices α) :
    (ss.mapValues f).cells
      = ss.cells.map fun c =>
        ⟨c.slice, c.index, f c.slice c.index c.value⟩ := by
  rw [cells, cells, length_mapValues, List.map_flatMap]
  apply List.flatMap_congr
  intro k hk
  have hk' : k < ss.length := List.mem_range.mp hk
  rw [getElem?_mapValues, List.getElem?_eq_getElem hk']
  simp [Function.comp_def]

/-- New values and regrouping commute. -/
theorem transposed_mapValues (f : Nat → Nat → α → β) (ss : Slices α)
    (bound : Nat) :
    (ss.mapValues f).transposed bound
      = (ss.transposed bound).mapValues fun j k v => f k j v := by
  apply List.ext_getElem?
  intro j
  rw [getElem?_mapValues]
  by_cases hj : j < bound
  · rw [getElem?_transposed _ hj, getElem?_transposed _ hj, Option.map_some,
      cells_mapValues, bucket, bucket, List.filterMap_map, List.map_filterMap]
    congr 2
    funext c
    by_cases h : c.index = j
    · simp [h]
    · simp [h]
  · rw [List.getElem?_eq_none (by simpa using hj),
      List.getElem?_eq_none (by simpa using hj), Option.map_none]

end Slices

end Equilibration
