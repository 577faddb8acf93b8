import Mathlib.Algebra.Ring.Int.Defs
import Equilibration.Proofs.ExactArithmetic
import Equilibration.Proofs.SignFlips

/-!
# PairwiseSums — how an inner product is added up

A sum of products is taken in blocks of consecutive positions, and the blocks
are added two by two. Which positions a block has depends on the length of
the vectors only: `Grouping.pairwise start length` halves a run of positions
given by its start and its length until it is shorter than `blockLength`.

Read from left to right, the blocks hold every position once
(`Grouping.positions_pairwise`), and the inner product is the sum that the
grouping describes, whatever `+` and `*` do (`dot_eq_grouped`). Where addition
is associative and zero is neutral, the grouping does not matter
(`Grouping.sum_eq_foldl`).
-/

namespace Equilibration.Vec

/-- How terms at consecutive positions are added up. -/
inductive Grouping where
  /-- The terms of a run of positions, one after the other to zero. -/
  | block (start length : Nat)
  /-- The sum of two sums. -/
  | halves (left right : Grouping)

namespace Grouping

/-- The positions of the terms, in the order in which they are added. -/
def positions : Grouping → List Nat
  | .block start length => List.range' start length
  | .halves left right => left.positions ++ right.positions

/-- The lengths of the blocks. -/
def blockLengths : Grouping → List Nat
  | .block _ length => [length]
  | .halves left right => left.blockLengths ++ right.blockLengths

/-- The sum of terms that are grouped in this way. -/
def sum {α : Type} [Zero α] [Add α] (term : Nat → α) : Grouping → α
  | .block start length =>
    (List.range' start length).foldl (fun acc i => acc + term i) 0
  | .halves left right => left.sum term + right.sum term

/-- A long run of positions is cut in half, a short one is a block. -/
def pairwise (start length : Nat) : Grouping :=
  if length < blockLength then .block start length
  else .halves (pairwise start (length / 2))
    (pairwise (start + length / 2) (length - length / 2))
termination_by length
decreasing_by
  all_goals
    rename_i h
    simp only [blockLength] at h
    omega

/-- **The blocks hold every position of the run once**, in order. -/
theorem positions_pairwise (start length : Nat) :
    (pairwise start length).positions = List.range' start length := by
  fun_induction pairwise start length with
  | case1 start length h => rfl
  | case2 start length h ihl ihr =>
    rw [positions, ihl, ihr, List.range'_append_1]
    congr 1
    omega

theorem blockLengths_lt (start length : Nat) :
    ∀ n ∈ (pairwise start length).blockLengths, n < blockLength := by
  fun_induction pairwise start length with
  | case1 start length h => simpa [blockLengths] using h
  | case2 start length h ihl ihr =>
    intro n hn
    rw [blockLengths, List.mem_append] at hn
    exact hn.elim (ihl n) (ihr n)

variable {α : Type}

/-- Only the terms at the positions of the grouping count. -/
theorem sum_congr [Zero α] [Add α] {g : Grouping} {f f' : Nat → α}
    (h : ∀ i ∈ g.positions, f i = f' i) : g.sum f = g.sum f' := by
  induction g with
  | block start length =>
    exact List.foldl_ext _ _ _ fun acc i hi => congrArg (acc + ·) (h i hi)
  | halves left right ihl ihr =>
    rw [sum, sum, ihl fun i hi => h i (List.mem_append_left _ hi),
      ihr fun i hi => h i (List.mem_append_right _ hi)]

section Monoid

variable [Zero α] [Add α] (hassoc : ∀ a b c : α, a + b + c = a + (b + c))
  (hzero : ∀ a : α, 0 + a = a ∧ a + 0 = a)

include hassoc hzero

theorem foldl_add_eq (l : List Nat) (f : Nat → α) (a : α) :
    l.foldl (fun acc i => acc + f i) a
      = a + l.foldl (fun acc i => acc + f i) 0 := by
  induction l generalizing a with
  | nil => exact (hzero a).2.symm
  | cons i l ih =>
    rw [List.foldl_cons, List.foldl_cons, ih, ih (0 + f i), (hzero _).1, hassoc]

/-- Where addition has the laws of a monoid, terms may be grouped in any
way. -/
theorem sum_eq_foldl (g : Grouping) (f : Nat → α) :
    g.sum f = g.positions.foldl (fun acc i => acc + f i) 0 := by
  induction g with
  | block start length => rfl
  | halves left right ihl ihr =>
    rw [sum, ihl, ihr, positions, List.foldl_append,
      foldl_add_eq hassoc hzero right.positions f (left.positions.foldl _ 0)]

end Monoid

end Grouping

variable {α : Type} [Scalar α]

open Grouping

/-- The terms of a run are those at its positions. -/
theorem map_getD_range' {terms : List α} {start length : Nat}
    (h : start + length ≤ terms.length) :
    (List.range' start length).map (terms.getD · 0)
      = (terms.drop start).take length := by
  apply List.ext_getElem
  · simp
    omega
  · intro i hi hi'
    simp at hi
    have hlt : start + i < terms.length := by omega
    simp [List.getD_eq_getElem?_getD, List.getElem?_eq_getElem hlt]

/-- A run of the terms is added up as its positions are grouped. The
induction is on the length of the run, for all starts. -/
theorem pairwiseSum_run {terms : List α} {start length : Nat}
    (h : start + length ≤ terms.length) :
    pairwiseSum ((terms.drop start).take length)
      = (pairwise start length).sum fun i => terms.getD i 0 := by
  have hlength : ((terms.drop start).take length).length = length := by
    rw [List.length_take, List.length_drop]
    omega
  fun_induction pairwise start length with
  | case1 start length hshort =>
    rw [pairwiseSum, dif_pos (by rwa [hlength]), Grouping.sum,
      ← map_getD_range' h, List.foldl_map]
  | case2 start length hlong ihl ihr =>
    have hleft :=
      ihl (by omega) (by rw [List.length_take, List.length_drop]; omega)
    have hright :=
      ihr (by omega) (by rw [List.length_take, List.length_drop]; omega)
    rw [pairwiseSum, dif_neg (by rwa [hlength]), hlength, Grouping.sum, ← hleft,
      ← hright, List.take_take, List.drop_take, List.drop_drop,
      min_eq_left (Nat.div_le_self _ _)]

theorem pairwiseSum_eq_grouped (terms : List α) :
    pairwiseSum terms = (pairwise 0 terms.length).sum fun i =>
      terms.getD i 0 := by
  have h : pairwiseSum ((terms.drop 0).take terms.length)
      = (pairwise 0 terms.length).sum fun i => terms.getD i 0 :=
    pairwiseSum_run (Nat.zero_add _).le
  rwa [List.drop_zero, List.take_length] at h

section Products

variable {x y : Array α} (h : x.size = y.size)

include h

theorem length_products : (products x y).length = x.size := by
  simp [products, h]

theorem getD_products {i : Nat} (hi : i < x.size) :
    (products x y).getD i 0 = x.getD i 0 * y.getD i 0 := by
  have hy : i < y.size := h ▸ hi
  simp [products, List.getD_eq_getElem?_getD, Array.getD, hi, hy]

/-- **The inner product adds the products as their positions are grouped**,
whatever the operations do. -/
theorem dot_eq_grouped :
    dot x y
      = .ok ((pairwise 0 x.size).sum fun i => x.getD i 0 * y.getD i 0) := by
  have hsum : pairwiseSum (products x y)
      = (pairwise 0 x.size).sum fun i => x.getD i 0 * y.getD i 0 := by
    rw [pairwiseSum_eq_grouped, length_products h]
    refine Grouping.sum_congr fun i hi => getD_products h ?_
    rw [positions_pairwise, List.mem_range'_1] at hi
    omega
  rw [← hsum, dot, Checked.require_eq_ok h]
  rfl

end Products

/-- Where products commute, so do inner products, also of vectors that do not
fit. -/
theorem dot_comm (hmul : ∀ a b : α, a * b = b * a) (x y : Array α) :
    dot x y = dot y x := by
  have hproducts : products x y = products y x := List.zipWith_comm_of_comm hmul
  rw [dot, dot, hproducts]
  by_cases h : x.size = y.size
  · rw [Checked.require_eq_ok h, Checked.require_eq_ok h.symm]
  · rw [Checked.require, Checked.require, if_neg h, if_neg (Ne.symm h)]

/-- **An inner product takes every product once.** For two vectors of one
length, any length, the positions of the vectors are grouped in blocks of less
than sixteen, every position once and in order, and the inner product is the
sum of the products at these positions in that grouping. If addition is
associative with zero as its neutral element, that is the plain sum from left
to right; up to fifteen elements it is the plain sum in any case. In both
floating-point types the vectors may change places. -/
theorem dot_takes_every_product_once :
    (∀ {α : Type} [Scalar α] (x y : Array α), x.size = y.size →
      (pairwise 0 x.size).positions = List.range x.size
      ∧ (∀ length ∈ (pairwise 0 x.size).blockLengths, length < 16)
      ∧ dot x y = .ok ((pairwise 0 x.size).sum fun i => x.getD i 0 * y.getD i 0)
      ∧ ((∀ a b c : α, a + b + c = a + (b + c)) →
        (∀ a : α, 0 + a = a ∧ a + 0 = a) →
        dot x y = .ok ((List.range x.size).foldl
          (fun acc i => acc + x.getD i 0 * y.getD i 0) 0))
      ∧ (x.size < 16 →
        dot x y = .ok ((List.range x.size).foldl
          (fun acc i => acc + x.getD i 0 * y.getD i 0) 0)))
    ∧ ∀ {α : Type} [Scalar α] [FloatingPoint α] [UniquelyPacked α]
      (x y : Array α), dot x y = dot y x := by
  refine ⟨fun x y h => ?_, fun x y => dot_comm FloatingPoint.mul_comm x y⟩
  have hpositions : (pairwise 0 x.size).positions = List.range x.size := by
    rw [positions_pairwise, List.range_eq_range']
  have hdot := dot_eq_grouped h
  refine ⟨hpositions, blockLengths_lt 0 x.size, hdot, fun hassoc hzero => ?_,
    fun hshort => ?_⟩
  · rw [hdot, Grouping.sum_eq_foldl hassoc hzero, hpositions]
  · rw [hdot, pairwise, if_pos (by exact hshort), Grouping.sum,
      List.range_eq_range']

/-- Forty whole numbers and their opposites in five blocks, and sixteen
doubles in two. -/
theorem dot_takes_every_product_once_long :
    letI := ExactRing.ofCommRing ℤ
    let x : Array ℤ := (Array.range 40).map Int.ofNat
    let y : Array ℤ := Array.replicate 40 (-1)
    let u : Array Float := (Array.range 16).map Scalar.ofNat
    x.size = y.size ∧ dot x y = .ok (-780)
      ∧ (pairwise 0 u.size).blockLengths = [8, 8]
      ∧ (pairwise 0 u.size).positions = List.range u.size
      ∧ dot (u.take 15) (u.take 15) = .ok (Scalar.ofNat 1015) := by
  let := ExactRing.ofCommRing ℤ
  intro x y u
  have hsize : x.size = y.size := by decide +kernel
  have hlong := (dot_takes_every_product_once.1 x y hsize).2.2.2.1 add_assoc
    fun a => ⟨zero_add a, add_zero a⟩
  have hgrouped := (dot_takes_every_product_once.1 u u rfl).1
  have hshort :=
    (dot_takes_every_product_once.1 (u.take 15) (u.take 15) rfl).2.2.2.2
      (by decide +kernel)
  refine ⟨hsize, ?_, by decide +kernel, hgrouped, ?_⟩
  · exact hlong.trans (congrArg Except.ok (by decide +kernel))
  · exact hshort.trans (congrArg Except.ok (by decide +kernel))

end Equilibration.Vec
