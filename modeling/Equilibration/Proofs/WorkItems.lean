import Mathlib.Order.Interval.Set.Basic
import Equilibration.Proofs.CheckedLoops

/-!
# WorkItems — items that can be worked off in any order

A kernel whose loop rewrites another part of one output in every step is a list
of work items. The items could be handed to as many workers.

`WorkItems.Independent` says when this is sound. Every item has cells of its
own, no two items share a cell, and together they have the whole output. Run on
any state in which its own cells are still as they were at the start, whatever
the others hold, an item brings its cells to their final content and touches no
other. One step then keeps `WorkItems.DoneWith`, the invariant of a run of
which some items are done, and every order of the items, the listed one
included, leads to one result (`WorkItems.Independent.any_order`).
-/

namespace Equilibration

open Checked

/-- Work items on one output. -/
structure WorkItems (σ κ ι γ : Type) where
  /-- The items in the order in which they are listed. -/
  items : List κ
  /-- What an item does to a state of the output. -/
  run : σ → κ → Checked σ
  /-- The states that have the size of the output. -/
  Shaped : σ → Prop
  /-- The cells of the output. -/
  output : Set ι
  /-- What a cell holds. -/
  cell : σ → ι → γ
  /-- The cells that an item writes. -/
  region : κ → Set ι
  /-- A state of the output is what its cells hold. -/
  ext : ∀ {s s' : σ}, Shaped s → Shaped s' →
      (∀ i ∈ output, cell s i = cell s' i) → s = s'

namespace WorkItems

section Runs

variable {σ κ ι γ : Type} (W : WorkItems σ κ ι γ) (start result : σ)

/-- An item that finds its own cells as they were at the start brings them to
their final content, whatever the other cells hold, and leaves those alone. -/
def Acts (k : κ) : Prop :=
  ∀ s, W.Shaped s → (∀ i ∈ W.region k, W.cell s i = W.cell start i) →
    ∃ s', W.run s k = .ok s' ∧ W.Shaped s'
      ∧ (∀ i ∈ W.region k, W.cell s' i = W.cell result i)
      ∧ ∀ i, i ∉ W.region k → W.cell s' i = W.cell s i

/-- Two items that have no cell in common. -/
def Apart (k l : κ) : Prop := ∀ i, i ∈ W.region k → i ∉ W.region l

/-- The items share no cell, have all cells of the output together, and need
nothing of each other. -/
structure Independent : Prop where
  start_shaped : W.Shaped start
  result_shaped : W.Shaped result
  disjoint : W.items.Pairwise W.Apart
  covers : ∀ i, i ∈ W.output ↔ ∃ k ∈ W.items, i ∈ W.region k
  acts : ∀ k ∈ W.items, W.Acts start result k

/-- Some items are done, and the cells of all others are as at the start. -/
structure DoneWith (done : List κ) (s : σ) : Prop where
  shaped : W.Shaped s
  done_eq : ∀ k ∈ done, ∀ i ∈ W.region k, W.cell s i = W.cell result i
  rest_eq : ∀ i, (∀ k ∈ done, i ∉ W.region k) → W.cell s i = W.cell start i

variable {W start result}

/-- One item more. -/
theorem DoneWith.step {done : List κ} {s : σ}
    (h : W.DoneWith start result done s) {k : κ} (hk : W.Acts start result k)
    (hdisj : ∀ l ∈ done, W.Apart l k) :
    ∃ s', W.run s k = .ok s' ∧ W.DoneWith start result (done ++ [k]) s' := by
  have huntouched : ∀ i ∈ W.region k, W.cell s i = W.cell start i := by
    intro i hi
    apply h.rest_eq
    intro l hl hil
    exact hdisj l hl i hil hi
  obtain ⟨s', hrun, hshaped, hinside, houtside⟩ := hk s h.shaped huntouched
  refine ⟨s', hrun, hshaped, ?_, ?_⟩
  · intro l hl i hi
    rcases List.mem_append.mp hl with hl | hl
    · rw [houtside i (hdisj l hl i hi)]
      exact h.done_eq l hl i hi
    · rw [List.mem_singleton.mp hl] at hi
      exact hinside i hi
  · intro i hi
    rw [houtside i (hi k (by simp))]
    exact h.rest_eq i fun l hl => hi l (by simp [hl])

/-- All items that are left. -/
theorem DoneWith.run {done todo : List κ} {s : σ}
    (h : W.DoneWith start result done s)
    (hacts : ∀ k ∈ todo, W.Acts start result k)
    (hdisj : (done ++ todo).Pairwise W.Apart) :
    ∃ s', todo.foldlM W.run s = .ok s'
      ∧ W.DoneWith start result (done ++ todo) s' := by
  -- the item that was just run moves from the items left to the done ones
  induction todo generalizing done s with
  | nil => exact ⟨s, rfl, by rwa [List.append_nil]⟩
  | cons k todo ih =>
    obtain ⟨s', hrun, hs'⟩ := h.step (hacts k List.mem_cons_self) fun l hl =>
      (List.pairwise_append.mp hdisj).2.2 l hl k List.mem_cons_self
    have happend : done ++ k :: todo = done ++ [k] ++ todo := by simp
    rw [happend] at hdisj ⊢
    rw [List.foldlM_cons, hrun, ok_bind]
    exact ih hs' (fun l hl => hacts l (List.mem_cons_of_mem k hl)) hdisj

/-- **Independent items can be worked off in any order.** -/
theorem Independent.any_order (h : W.Independent start result) {ks : List κ}
    (hks : ks.Perm W.items) : ks.foldlM W.run start = .ok result := by
  have hnone : W.DoneWith start result [] start :=
    ⟨h.start_shaped, fun _ hk => absurd hk List.not_mem_nil, fun _ _ => rfl⟩
  have hdisj : ks.Pairwise W.Apart :=
    (hks.pairwise_iff fun hkl i hil hik => hkl i hik hil).mpr h.disjoint
  obtain ⟨s, hrun, hs⟩ :=
    hnone.run (fun k hk => h.acts k (hks.mem_iff.mp hk)) hdisj
  -- every cell belongs to some item, and all items are done
  rw [hrun, W.ext hs.shaped h.result_shaped]
  intro i hi
  obtain ⟨k, hk, hik⟩ := (h.covers i).mp hi
  exact hs.done_eq k (hks.mem_iff.mpr hk) i hik

end Runs

/-- Work items on the elements of an array. -/
def onArray {β κ : Type} (size : Nat) (items : List κ)
    (run : Array β → κ → Checked (Array β)) (region : κ → Set Nat) :
    WorkItems (Array β) κ Nat (Option β) where
  items
  run
  Shaped a := a.size = size
  output := Set.Iio size
  cell a i := a[i]?
  region
  ext {a a'} ha ha' h := by
    apply Array.ext_getElem?
    intro i
    by_cases hi : i < size
    · exact h i hi
    · rw [Array.getElem?_eq_none (by omega), Array.getElem?_eq_none (by omega)]

/-- An update acts on the cells that it rewrites. -/
theorem updateFrom_region {β γ : Type} (f : β → γ → β) {a result : Array β}
    {start : Nat} {cs : List γ} (h : start + cs.length ≤ a.size)
    (hresult : ∀ j c, cs[j]? = some c →
      result[start + j]? = a[start + j]?.map (f · c)) :
    ∃ a', updateFrom f a start cs = .ok a' ∧ a'.size = a.size
      ∧ (∀ i ∈ Set.Ico start (start + cs.length), a'[i]? = result[i]?)
      ∧ ∀ i, i ∉ Set.Ico start (start + cs.length) → a'[i]? = a[i]? := by
  obtain ⟨a', hrun, hsize, hinside, houtside⟩ := updateFrom_eq_ok f h
  refine ⟨a', hrun, hsize, ?_, ?_⟩
  · rintro i ⟨hlow, hhigh⟩
    obtain ⟨j, rfl⟩ := Nat.exists_eq_add_of_le hlow
    have hc := List.getElem?_eq_getElem (l := cs) (i := j) (by omega)
    rw [hinside j _ hc, hresult j _ hc]
  · intro i hi
    apply houtside
    by_contra hno
    rw [not_or, not_lt, not_le] at hno
    exact hi hno

end WorkItems

end Equilibration
