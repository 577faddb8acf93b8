import Mathlib.Algebra.BigOperators.Group.Finset.Piecewise
import Mathlib.Tactic.Ring
import Equilibration.Proofs.CountingSort
import Equilibration.Proofs.ExactArithmetic
import Equilibration.Proofs.WorkItems
import Equilibration.Sliced.Product

/-!
# Products — what the two kernels compute

The gathering and the scattering kernel as equations on slices, for any
scalars (`gather_ofSlices`, `scatter_ofSlices`), and over a ring the one
formula that both of them come to. The elements that gathering rewrites are
independent work items; scattering is one item after the other.

Over a ring a product along a slice is a sum over all indices of the values
stored for that index (`dotOf_eq_sum`). The scattering kernel adds the
same products to `y` one entry after the other; what an element of `y`
receives in the end is the product along a slice of the transposed
matrix (`getElem?_foldl_addTo`).
-/

namespace Equilibration

open Checked

namespace Slices

variable {α : Type} [Scalar α]

/-- The product of a slice with a vector, added up from left to right. -/
def dotOf (x : Array α) (s : List (Nat × α)) : α :=
  s.foldl (fun acc e => acc + e.2 * x.getD e.1 0) 0

/-- Adds to one element of a vector. -/
def addTo (y : Array α) (j : Nat) (v : α) : Array α := y.modify j (· + v)

@[simp] theorem size_addTo (y : Array α) (j : Nat) (v : α) :
    (addTo y j v).size = y.size := by
  simp [addTo]

end Slices

namespace SlicedMatrix

open Slices WorkItems

variable {α : Type}

section Kernels

variable [Scalar α] {order : StorageOrder} {rows cols : Nat} {ss : Slices α}

theorem dotSlice_eq_ok {x : Array α} {s : List (Nat × α)}
    (h : ∀ e ∈ s, e.1 < x.size) :
    dotSlice x s = .ok (dotOf x s) := by
  refine foldlM_of_inv (fun _ => True) ?_ trivial
  intro acc _ e he
  rw [read_eq_ok (h e he), ok_bind, pure_eq_ok, Array.getD, dif_pos (h e he)]
  exact ⟨rfl, trivial⟩

/-- The element that a gathering product puts in the place of `yk`. -/
def combine (a b yk dot : α) : α := if b == 0 then a * dot else b * yk + a * dot

/-- The elements of a gathering product. -/
def gatherItems (A : SlicedMatrix α) (x : Array α) (a b : α) :
    WorkItems (Array α) Nat Nat (Option α) :=
  onArray A.sliceCount (List.range A.sliceCount)
    (A.gatherElement x a b) fun k => {k}

section Gather

variable (h : ss.Fits (order.primary rows cols) (order.flip.primary rows cols))
  {x y : Array α} (a b : α) (hx : x.size = order.flip.primary rows cols)
  (hy : y.size = order.primary rows cols)

include h hx hy

/-- One step rewrites one element, whatever the others are. -/
theorem acts_gatherItems {k : Nat} (hk : k < order.primary rows cols) :
    ((ofSlices order rows cols ss).gatherItems x a b).Acts y
      (y.mapIdx fun k yk => combine a b yk (dotOf x (ss[k]?.getD []))) k := by
  intro z hz hzk
  have hkl : k < ss.length := by rwa [h.length_eq]
  have hky : k < y.size := hy ▸ hk
  have hkz : k < z.size := hz ▸ hk
  have hkeep : z[k]? = y[k]? := hzk k rfl
  rw [Array.getElem?_eq_getElem hkz, Array.getElem?_eq_getElem hky,
    Option.some.injEq] at hkeep
  have hdot : dotSlice x ss[k] = .ok (dotOf x ss[k]) := by
    apply dotSlice_eq_ok
    intro e he
    rw [hx]
    exact h.index_lt _ (List.getElem_mem hkl) e he
  have hrun : (ofSlices order rows cols ss).gatherElement x a b z k
      = .ok (z.set k (combine a b z[k] (dotOf x ss[k]))) := by
    rw [gatherElement, slice_ofSlices hkl, ok_bind, hdot, ok_bind,
      read_eq_ok hkz, ok_bind, write_eq_ok hkz]
    rfl
  refine ⟨_, hrun, (Array.size_set hkz).trans hz, ?_, ?_⟩
  · rintro i rfl
    simp [gatherItems, onArray, hkeep, hky, hkl]
  · intro i hi
    exact Array.getElem?_set_ne hkz fun hki => hi hki.symm

theorem independent_gatherItems :
    ((ofSlices order rows cols ss).gatherItems x a b).Independent y
      (y.mapIdx fun k yk => combine a b yk (dotOf x (ss[k]?.getD []))) where
  start_shaped := hy
  result_shaped := Array.size_mapIdx.trans hy
  disjoint := List.pairwise_lt_range.imp fun hkl _ hk hl =>
    hkl.ne (hk.symm.trans hl)
  covers i := by simp [gatherItems, onArray]
  acts k hk := acts_gatherItems h a b hx hy (List.mem_range.mp hk)

/-- Gathering rewrites every element by the product of its slice. -/
theorem gather_ofSlices :
    (ofSlices order rows cols ss).gather y x a b
      = .ok
        (y.mapIdx fun k yk => combine a b yk (dotOf x (ss[k]?.getD []))) := by
  rw [gather, entryCount_ofSlices h.length_eq, ok_bind, require_eq_ok
    size_values_ofSlices, ok_bind, indexBound_ofSlices, require_eq_ok hx,
    ok_bind, sliceCount_ofSlices, require_eq_ok hy, ok_bind, hy]
  exact (independent_gatherItems h a b hx hy).any_order (List.Perm.refl _)

end Gather

@[simp] theorem size_prescale (b : α) (y : Array α) :
    (prescale b y).size = y.size := by
  unfold prescale
  split
  · exact Vec.size_fill y 0
  · split
    · rfl
    · split
      · exact Vec.size_negate y
      · exact Vec.size_scale y b

/-- Reading an element and writing it back with something added. -/
theorem write_add_eq_ok {y : Array α} {j : Nat} (h : j < y.size) (v : α) :
    write y j (y[j] + v) = .ok (addTo y j v) := by
  rw [write_eq_ok h]
  congr 1
  apply Array.ext
  · simp
  · intro i hi hi'
    rw [Array.getElem_set]
    simp only [addTo, Array.getElem_modify]
    by_cases hij : j = i
    · subst hij
      rw [if_pos rfl]
    · rw [if_neg hij, if_neg hij]

/-- Scattering adds the products of all entries, one after the other. -/
theorem scatter_ofSlices
    (h : ss.Fits (order.primary rows cols) (order.flip.primary rows cols))
    {x y : Array α} (a b : α) (hx : x.size = order.primary rows cols)
    (hy : y.size = order.flip.primary rows cols) :
    (ofSlices order rows cols ss).scatter y x a b
      = .ok (if a == 0 then prescale b y
          else ss.cells.foldl
            (fun y c => addTo y c.index (c.value * (a * x.getD c.slice 0)))
            (prescale b y)) := by
  have hsize := size_prescale b y
  unfold scatter
  split
  · rfl
  · rw [entryCount_ofSlices h.length_eq, ok_bind, require_eq_ok
      size_values_ofSlices, ok_bind, sliceCount_ofSlices, require_eq_ok hx,
      ok_bind, indexBound_ofSlices, require_eq_ok (hsize.trans hy), ok_bind]
    -- the loop over the elements of `x` is a loop over the slices
    have hzip : x.toList.zipIdx = (List.range ss.length).map fun k =>
        (x.getD k 0, k) := by
      apply List.ext_getElem
      · simp [hx, h.length_eq]
      · intro k hk hk'
        have hkx : k < x.size := by simpa using hk
        simp [Array.getD, hkx]
    have hcells := foldlM_entries_ofSlices order rows cols ss
      (fun (y : Array α) c => do
        let yj ← read y c.index
        write y c.index (yj + c.value * (a * x.getD c.slice 0))) (prescale b y)
    rw [hzip, List.foldlM_map]
    refine Eq.trans hcells (foldlM_of_inv (fun y' => y'.size = y.size) ?_ hsize)
    intro z hz c hc
    have hcz : c.index < z.size := by
      rw [hz, hy]
      exact h.index_lt_of_mem_cells hc
    rw [read_eq_ok hcz, ok_bind, write_add_eq_ok hcz, size_addTo]
    exact ⟨rfl, hz⟩

end Kernels

/-! ## Over a ring -/

section Ring

variable [ExactRing α]

theorem dotOf_eq_sum_map (x : Array α) (s : List (Nat × α)) :
    dotOf x s = (s.map fun e => e.2 * x.getD e.1 0).sum := by
  have hacc : ∀ acc : α, s.foldl (fun acc e => acc + e.2 * x.getD e.1 0) acc
      = acc + (s.map fun e => e.2 * x.getD e.1 0).sum := by
    induction s with
    | nil => intro acc; simp
    | cons e s ih =>
      intro acc
      rw [List.foldl_cons, ih, List.map_cons, List.sum_cons, add_assoc]
  rw [dotOf, hacc, zero_add]

/-- A product along a slice, sorted by index. -/
theorem dotOf_eq_sum {x : Array α} {s : List (Nat × α)}
    (h : ∀ e ∈ s, e.1 < x.size) :
    dotOf x s = ∑ j ∈ Finset.range x.size, (valuesOf s j).sum * x.getD j 0 := by
  rw [dotOf_eq_sum_map]
  induction s with
  | nil => simp [valuesOf]
  | cons e s ih =>
    have hsplit : ∀ j, (valuesOf (e :: s) j).sum * x.getD j 0
        = (if j = e.1 then e.2 * x.getD e.1 0 else 0)
          + (valuesOf s j).sum * x.getD j 0 := by
      intro j
      rw [valuesOf_cons]
      by_cases hj : e.1 = j
      · rw [if_pos hj, if_pos hj.symm, List.sum_cons, add_mul, hj]
      · rw [if_neg hj, if_neg (Ne.symm hj), zero_add]
    rw [List.map_cons, List.sum_cons, ih fun f hf =>
      h f (List.mem_cons_of_mem e hf)]
    simp only [hsplit]
    rw [Finset.sum_add_distrib, Finset.sum_ite_eq',
      if_pos (Finset.mem_range.mpr (h e List.mem_cons_self))]

/-- The special cases of `b` do not show. -/
theorem getElem?_prescale (b : α) (y : Array α) (i : Nat) :
    (prescale b y)[i]? = y[i]?.map (b * ·) := by
  unfold prescale
  split
  · next h =>
    rw [eq_of_beq h]
    simp [Vec.fill]
  · split
    · next h =>
      rw [eq_of_beq h]
      simp
    · split
      · next h =>
        rw [eq_of_beq h]
        simp [Vec.negate]
      · simp [Vec.scale, mul_comm]

/-- What an element receives from a list of entries is the product along
the entries of its index. -/
theorem getElem?_foldl_addTo (a : α) (x : Array α) (cs : List (Cell α))
    (y : Array α) (i : Nat) :
    (cs.foldl
      (fun y c => addTo y c.index (c.value * (a * x.getD c.slice 0))) y)[i]?
      = y[i]?.map (· + a * dotOf x (bucket cs i)) := by
  induction cs generalizing y with
  | nil => simp [bucket, dotOf]
  | cons c cs ih =>
    rw [List.foldl_cons, ih, ← List.singleton_append, bucket_append,
      bucket_singleton, dotOf_eq_sum_map, dotOf_eq_sum_map, addTo,
      Array.getElem?_modify]
    by_cases hi : c.index = i
    · rw [if_pos hi, if_pos hi, Option.map_map]
      congr 1
      funext v
      simp only [Function.comp_apply, List.singleton_append, List.map_cons,
        List.sum_cons]
      ring
    · simp only [if_neg hi, List.nil_append]

theorem combine_eq (a b yk dot : α) :
    combine a b yk dot = a * dot + b * yk := by
  unfold combine
  split
  · next h => rw [eq_of_beq h, zero_mul, add_zero]
  · exact add_comm _ _

end Ring

end SlicedMatrix

end Equilibration
