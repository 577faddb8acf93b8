import Equilibration.Proofs.ExactBalancing
import Equilibration.Proofs.Ranges

/-!
# VectorRanges — products and norms within bounds

Bounds for products of a matrix with a vector and for Euclidean norms, from
bounds for the entries. The entries behind an element of a product are the
triplets of its row or column, whichever form the product reads
(`SlicedMatrix.product_element`).

A norm that is not zero is not tiny either, because the sum of squares under
the root is a number of the format (`sumOf_norm`); and unless the squares
were too small for that, the norm is at least half of every element
(`abs_le_norm`).
-/

namespace Equilibration

open Checked Slices FloatingPoint Rounding

/-! ## The entries behind a product -/

/-- The order of the form that a product reads. -/
def Shape.order : Shape → StorageOrder
  | .normal => .row
  | .transposed => .col

namespace SlicedMatrix

variable {α : Type}

theorem mem_triplets_iff {A : SlicedMatrix α} {i j : Nat} {v : α} :
    (i, j, v) ∈ A.triplets
      ↔ ((A.order.locate i j).2, v)
        ∈ A.slices[(A.order.locate i j).1]?.getD [] := by
  have hcell : (i, j, v) ∈ A.triplets
      ↔ (⟨(A.order.locate i j).1, (A.order.locate i j).2, v⟩ : Cell α)
        ∈ A.slices.cells := by
    rw [triplets, List.mem_map]
    constructor
    · rintro ⟨⟨k, l, u⟩, hc, heq⟩
      cases hord : A.order <;> rw [hord] at heq <;> cases heq <;> exact hc
    · intro hc
      refine ⟨_, hc, ?_⟩
      cases A.order <;> rfl
  rw [hcell, mem_cells]
  constructor
  · rintro ⟨s, hs, he⟩
    rwa [hs, Option.getD_some]
  · intro he
    cases hs : A.slices[(A.order.locate i j).1]? with
    | none =>
      rw [hs] at he
      cases he
    | some s =>
      rw [hs] at he
      exact ⟨s, rfl, he⟩

theorem mem_valuesAt {A : SlicedMatrix α} {i j : Nat} {v : α} :
    v ∈ A.valuesAt i j ↔ (i, j, v) ∈ A.triplets := by
  rw [mem_triplets_iff, valuesAt, Slices.valuesAt, valuesOf, List.mem_filterMap]
  constructor
  · rintro ⟨⟨k, u⟩, he, heq⟩
    split at heq
    · next hk =>
      cases heq
      rwa [← hk]
    · cases heq
  · intro he
    exact ⟨_, he, if_pos rfl⟩

end SlicedMatrix

namespace PairedMatrix

variable {α : Type} {A : SlicedMatrix α} (h : A.check = .ok (.ok ()))

include h

/-- The slices that a product reads hold the triplets of the matrix. -/
theorem mem_gathering_iff (shape : Shape) {i j : Nat} {v : α} :
    ((shape.order.locate i j).2, v)
        ∈ ((ofForm A).gathering shape).slices[(shape.order.locate i j).1]?.getD
          []
      ↔ (i, j, v) ∈ A.triplets := by
  obtain ⟨hrow, hcol, -⟩ := dims_forms A
  have horder : ((ofForm A).gathering shape).order = shape.order := by
    cases shape
    · exact hrow
    · exact hcol
  have hperm : ((ofForm A).gathering shape).triplets.Perm A.triplets := by
    cases shape
    · exact (SlicedMatrix.triplets_ofForm_perm h).1
    · exact (SlicedMatrix.triplets_ofForm_perm h).2
  rw [← hperm.mem_iff, SlicedMatrix.mem_triplets_iff, horder]

theorem length_gathering_le (hroom : A.HasRoom) (shape : Shape) (k : Nat) :
    (((ofForm A).gathering shape).slices[k]?.getD []).length
      ≤ A.values.size := by
  obtain ⟨hrow, hcol⟩ := check_forms h hroom
  obtain ⟨hrowSize, hcolSize⟩ := size_values_forms h
  have hlen :
      ((ofForm A).gathering shape).slices.flatten.length = A.values.size := by
    cases shape
    · exact (SlicedMatrix.length_flatten_slices hrow).trans hrowSize
    · exact (SlicedMatrix.length_flatten_slices hcol).trans hcolSize
  rw [← hlen]
  cases hs : ((ofForm A).gathering shape).slices[k]? with
  | none => exact Nat.zero_le _
  | some s =>
    exact (List.sublist_flatten_of_mem (List.mem_of_getElem? hs)).length_le

end PairedMatrix

/-! ## Products -/

namespace SlicedMatrix

section Products

variable {α : Type} [Scalar α] {A : SlicedMatrix α} (h : A.check = .ok (.ok ()))
  (hroom : A.HasRoom) (shape : Shape) (x : Array α) {y : Array α}

include h hroom

/-- Every element of a product comes from a list of entries, which are the
triplets of its row or column. -/
theorem product_element {k : Nat} (hk : k < y.size) :
    ∃ s : List (Nat × α),
      (A.product shape 1 0 x y)[k]? = some (combine 1 0 y[k] (dotOf x s))
        ∧ s.length ≤ A.values.size
        ∧ ∀ i j v, (shape.order.locate i j).1 = k →
          (((shape.order.locate i j).2, v) ∈ s ↔ (i, j, v) ∈ A.triplets) := by
  refine ⟨_, ?_, PairedMatrix.length_gathering_le h hroom shape k, ?_⟩
  · simp [product, hk]
  · rintro i j v rfl
    exact PairedMatrix.mem_gathering_iff h shape

omit [Scalar α] hroom in
/-- Every entry of such a list is a triplet of the matrix. -/
theorem value_mem_of_entries {s : List (Nat × α)} {k : Nat}
    (hs : ∀ i j v, (shape.order.locate i j).1 = k →
      (((shape.order.locate i j).2, v) ∈ s ↔ (i, j, v) ∈ A.triplets))
    {e : Nat × α} (he : e ∈ s) : e.2 ∈ A.values := by
  have hlocate := shape.order.locate_locate k e.1
  have hmem := (hs (shape.order.locate k e.1).1 (shape.order.locate k e.1).2 e.2
    (by rw [hlocate])).mp (by rwa [hlocate])
  exact mem_values_of_mem_triplets h hmem

end Products

end SlicedMatrix

section ProductRanges

variable {α : Type} [Scalar α]

theorem dotOf_eq_foldl (x : Array α) (s : List (Nat × α)) :
    dotOf x s = (s.map fun e => e.2 * x.getD e.1 0).foldl (· + ·) 0 := by
  rw [dotOf, List.foldl_map]

variable [FloatingPoint α]

theorem getD_within {x : Array α} {hi : ℤ} {n : ℕ} (hx : ∀ v ∈ x, Within hi n v)
    (j : Nat) :
    Within hi n (x.getD j 0) := by
  by_cases hj : j < x.size
  · exact hx _ (Vec.getD_mem hj 0)
  · rw [Array.getD, dif_neg hj]
    exact within_zero hi n

theorem getD_sumOf {x : Array α} {lo hi : ℤ} {n : ℕ}
    (hx : ∀ v ∈ x, SumOf lo hi n v) (j : Nat) :
    SumOf lo hi n (x.getD j 0) := by
  by_cases hj : j < x.size
  · exact hx _ (Vec.getD_mem hj 0)
  · rw [Array.getD, dif_neg hj]
    exact sumOf_zero lo hi n

/-- A product along a slice is at most as large as all its terms together. -/
theorem within_dotOf {x : Array α} {s : List (Nat × α)} {b d : ℤ}
    (hs : ∀ e ∈ s, Within b 1 e.2) (hx : ∀ v ∈ x, Within d 1 v)
    (hrep : Representable α (b + d) s.length)
    (hhi : b + d ≤ (model α).exponentBias) :
    Within (b + d) s.length (dotOf x s) := by
  have hfold :=
    within_foldl (l := s.map fun e => e.2 * x.getD e.1 0) (fun t ht => by
    obtain ⟨e, he, rfl⟩ := List.mem_map.mp ht
    exact (hs e he).mul (getD_within hx e.1) hrep.exponent hhi)
      (within_zero (b + d) 0)
    (by rw [Nat.zero_add, List.length_map]; exact hrep)
  rwa [Nat.zero_add, List.length_map, ← dotOf_eq_foldl] at hfold

/-- With `a = 1` and `b = 0` the old element does not count, and the
multiplication by one is exact. -/
theorem toReal_combine {hi : ℤ} {n : ℕ} (yk : α) {dot : α}
    (hdot : Within hi n dot) (hrep : Representable α hi n) :
    Scalar.isFinite (SlicedMatrix.combine 1 0 yk dot) = true
      ∧ toReal (SlicedMatrix.combine 1 0 yk dot) = toReal dot := by
  obtain ⟨hone, hone'⟩ := isFinite_one (α := α)
  have hround := rounded_mul hone hdot.finite (by
    rw [hone', one_mul]
    exact hdot.le.trans hrep.bounded)
  rw [hone', one_mul] at hround
  rw [SlicedMatrix.combine, if_pos zero_beq_zero]
  exact ⟨hround.finite, hround.toReal_eq (grid_toReal dot)⟩

variable {a b c d : ℤ} {A : SlicedMatrix α} (h : A.check = .ok (.ok ()))
  (hroom : A.HasRoom) (shape : Shape) {x y : Array α}

include h hroom

/-- The elements of a product are at most as large as all their terms
together. -/
theorem within_product (hA : ∀ v ∈ A.values, Within b 1 v)
    (hx : ∀ v ∈ x, Within d 1 v) (hrep : Representable α (b + d) A.values.size)
    (hhi : b + d ≤ (model α).exponentBias) :
    ∀ v ∈ A.product shape 1 0 x y, Within (b + d) A.values.size v := by
  intro v hv
  obtain ⟨k, hk, rfl⟩ := Array.mem_iff_getElem.mp hv
  obtain ⟨s, hvalue, hlen, hs⟩ := SlicedMatrix.product_element h hroom shape x
    (by simpa using hk : k < y.size)
  rw [Array.getElem?_eq_getElem hk, Option.some.injEq] at hvalue
  have hdot : Within (b + d) s.length (dotOf x s) := within_dotOf
    (fun e he => hA _ (SlicedMatrix.value_mem_of_entries h shape hs he)) hx
    (hrep.mono hlen) hhi
  obtain ⟨hfin, heq⟩ := toReal_combine _ hdot (hrep.mono hlen)
  rw [hvalue]
  exact ⟨hfin, heq ▸ (hdot.mono hlen).le⟩

/-- An element of a product is at most as large as all its terms together. -/
theorem within_product_element {c : ℤ} {k : Nat} (hk : k < y.size)
    (hterms : ∀ i j u, (shape.order.locate i j).1 = k → (i, j, u) ∈ A.triplets →
      Within c 1 (u * x.getD (shape.order.locate i j).2 0))
    (hrep : Representable α c A.values.size) :
    ∃ v, (A.product shape 1 0 x y)[k]? = some v ∧ Within c A.values.size v := by
  obtain ⟨s, hvalue, hlen, hs⟩ :=
    SlicedMatrix.product_element h hroom shape x hk
  have hfold :=
    within_foldl (l := s.map fun e => e.2 * x.getD e.1 0) (fun t ht => by
    show Within c 1 t
    obtain ⟨e, he, rfl⟩ := List.mem_map.mp ht
    have hlocate := shape.order.locate_locate k e.1
    have := hterms (shape.order.locate k e.1).1 (shape.order.locate k e.1).2 e.2
      (by rw [hlocate]) ((hs _ _ e.2 (by rw [hlocate])).mp (by rwa [hlocate]))
    rwa [hlocate] at this) (within_zero c 0)
    (by rw [Nat.zero_add, List.length_map]; exact hrep.mono hlen)
  rw [Nat.zero_add, List.length_map, ← dotOf_eq_foldl] at hfold
  obtain ⟨hfin, heq⟩ := toReal_combine y[k] hfold (hrep.mono hlen)
  exact ⟨_, hvalue, hfin, heq ▸ (hfold.mono hlen).le⟩

/-- The elements of a product without negative terms are at least each of
their terms. -/
theorem sumOf_product (hA : ∀ v ∈ A.values, SumOf a b 1 v)
    (hx : ∀ v ∈ x, SumOf c d 1 v) (hlo : (model α).minExponent ≤ a + c)
    (hrep : Representable α (b + d) A.values.size)
    (hhi : b + d ≤ (model α).exponentBias) {k : Nat} (hk : k < y.size) :
    ∃ v, (A.product shape 1 0 x y)[k]? = some v
      ∧ SumOf (a + c) (b + d) A.values.size v
      ∧ ∀ i j u, (shape.order.locate i j).1 = k → (i, j, u) ∈ A.triplets →
        toReal (u * x.getD (shape.order.locate i j).2 0) ≤ toReal v := by
  obtain ⟨s, hvalue, hlen, hs⟩ :=
    SlicedMatrix.product_element h hroom shape x hk
  obtain ⟨hsum, -, hterms⟩ :=
    sumOf_foldl (l := s.map fun e => e.2 * x.getD e.1 0) (fun t ht => by
      obtain ⟨e, he, rfl⟩ := List.mem_map.mp ht
      exact (hA _ (SlicedMatrix.value_mem_of_entries h shape hs he)).mul
        (getD_sumOf hx e.1) hlo hhi) (sumOf_zero (a + c) (b + d) 0)
      (by rw [Nat.zero_add, List.length_map]; exact hrep.mono hlen)
  rw [Nat.zero_add, List.length_map, ← dotOf_eq_foldl] at hsum
  rw [← dotOf_eq_foldl] at hterms
  obtain ⟨hfin, heq⟩ := toReal_combine y[k] hsum.toWithin (hrep.mono hlen)
  refine ⟨_, hvalue, ⟨⟨hfin, heq ▸ (hsum.mono hlen).le⟩, heq ▸ hsum.atLeast⟩,
    ?_⟩
  intro i j u hkey hu
  rw [heq]
  exact hterms _ (List.mem_map.mpr ⟨_, (hs i j u hkey).mpr hu, rfl⟩)

end ProductRanges

/-! ## Norms -/

namespace Vec

variable {α : Type} [Scalar α] [FloatingPoint α]

/-- The exponent of the smallest root: the root of a positive number is at
least two to this power. -/
def leastRoot (α : Type) [Scalar α] [FloatingPoint α] : ℤ :=
  (model α).minExponent / 2

theorem leastRoot_bounds (α : Type) [Scalar α] [FloatingPoint α] :
    (model α).minExponent ≤ 2 * leastRoot α + 1
      ∧ 2 * leastRoot α ≤ (model α).minExponent := by
  unfold leastRoot
  omega

section Norm

variable {x : Array α} {b : ℤ} {q : ℕ} (hx : ∀ v ∈ x, Within b 1 v)
  (hsize : x.size ≤ 2 ^ q)
  (hq : q ≤ (model α).mantissaBits) (hlo : (model α).minExponent ≤ b + b)
  (hhi : b + b + q ≤ (model α).exponentBias)

include hx hsize hq hlo hhi

theorem sumOf_sumSquares :
    SumOf (model α).minExponent (b + b + q) 1 (sumSquares x)
      ∧ ∀ v ∈ x, toReal (v * v) ≤ toReal (sumSquares x) := by
  have hproducts : products x x = x.toList.map fun v => v * v := by
    rw [products, List.zipWith_self]
  have hterm : ∀ t ∈ products x x, SumOf (model α).minExponent (b + b) 1 t := by
    intro t ht
    rw [hproducts] at ht
    obtain ⟨v, hv, rfl⟩ := List.mem_map.mp ht
    have hv' := hx v (Array.mem_toList_iff.mp hv)
    exact (hv'.mul hv' hlo (by omega)).sumOf
      ((hv'.rounded_mul hv' hlo (by omega)).faithful.le_of_le (grid_zero _)
        (mul_self_nonneg _))
  have hlen : (products x x).length = x.size := by
    rw [hproducts, List.length_map, Array.length_toList]
  have hrep : Representable α (b + b) (products x x).length :=
    representable_of_le hlo (hlen.trans_le hsize) hq hhi
  obtain ⟨hsum, hle⟩ := sumOf_pairwiseSum _ hterm hrep
  refine ⟨hsum.of_count (hlen.trans_le hsize), ?_⟩
  intro v hv
  apply hle
  rw [hproducts]
  exact List.mem_map.mpr ⟨v, Array.mem_toList_iff.mpr hv, rfl⟩

theorem sumOf_norm : SumOf (leastRoot α) (b + q) 1 (norm x) := by
  obtain ⟨hsum, -⟩ := sumOf_sumSquares hx hsize hq hlo hhi
  have hmin := minExponent_nonpos (model α)
  have hbias := mantissaBits_le (α := α)
  exact hsum.sqrt (by unfold leastRoot; omega) (by omega)
    (by unfold leastRoot; omega) (by omega)

/-- A power of two that an element reaches is reached by the norm, if its square
is a power of the format. -/
theorem two_zpow_le_norm {v : α} (hv : v ∈ x) {i : ℤ}
    (hi : (model α).minExponent ≤ i + i) (hlow : (2 : ℝ) ^ i ≤ |toReal v|) :
    (2 : ℝ) ^ i ≤ toReal (norm x) := by
  obtain ⟨hsum, hle⟩ := sumOf_sumSquares hx hsize hq hlo hhi
  have hmin := minExponent_nonpos (model α)
  have hbias := mantissaBits_le (α := α)
  -- the square is a power of two at least, and so are the sum and the root
  have hsquare : (2 : ℝ) ^ (i + i) ≤ toReal v * toReal v := by
    rw [← abs_mul_abs_self, zpow_add₀ two_ne_zero]
    exact mul_self_le_mul_self (zpow_pos two_pos i).le hlow
  have hrounded :=
    ((hx v hv).rounded_mul (hx v hv) hlo (by omega)).faithful.le_of_le
      (grid_two_zpow hi) hsquare
  have htotal : (2 : ℝ) ^ (i + i) ≤ toReal (sumSquares x) :=
    hrounded.trans (hle v hv)
  have hbetween : Between .positive (i + i) (b + b + q) (sumSquares x) := by
    rcases hsum.cases with ⟨-, h0⟩ | h
    · rw [h0] at htotal
      exact absurd htotal (not_le.mpr (zpow_pos two_pos _))
    · exact ⟨h.finite, htotal, h.upper⟩
  exact (hbetween.sqrt (c := i) (d := b + q) (by omega) (by omega) (by omega)
      (by omega)).lower

/-- Every element is at most twice the norm, or so small that its square
does not count. -/
theorem abs_le_norm {v : α} (hv : v ∈ x) :
    |toReal v| ≤ 2 * toReal (norm x)
      ∨ |toReal v| ≤ (2 : ℝ) ^ (leastRoot α + 1) := by
  rcases le_or_gt |toReal v| ((2 : ℝ) ^ (leastRoot α + 1)) with hsmall | hlarge
  · exact .inr hsmall
  · left
    obtain ⟨i, hlow, hhigh⟩ :=
      exists_mem_Ico_zpow ((zpow_pos two_pos _).trans hlarge)
        (one_lt_two (α := ℝ))
    have hi : leastRoot α + 1 ≤ i := by
      have := (zpow_lt_zpow_iff_right₀ one_lt_two).mp (hlarge.trans hhigh)
      omega
    unfold leastRoot at hi
    have := two_zpow_le_norm hx hsize hq hlo hhi hv (by omega) hlow
    rw [zpow_add_one₀ two_ne_zero] at hhigh
    linarith

/-- Normalizing gives zero and leaves a vector alone whose squares vanish,
or gives the norm; the elements are then small. -/
theorem normalize_cases :
    SumOf (leastRoot α) (b + q) 1 (normalize x).1 ∧ ∀ v ∈ (normalize x).2,
      Within 2 1 v := by
  have hnorm := sumOf_norm hx hsize hq hlo hhi
  have hmin := minExponent_eq (model α)
  have hbits := mantissaBits_eq (model α)
  have hbias := mantissaBits_le (α := α)
  have hpos := (model α).hm
  unfold normalize
  dsimp only
  split
  · next hzero =>
    have h0 := (beq_zero_iff hnorm.finite).mp hzero
    refine ⟨sumOf_zero _ _ _, ?_⟩
    intro v hv
    refine ⟨(hx v hv).finite, ?_⟩
    rw [Nat.cast_one, one_mul]
    rcases abs_le_norm hx hsize hq hlo hhi hv with hle | hle
    · rw [h0, mul_zero] at hle
      exact hle.trans (zpow_pos two_pos 2).le
    · exact hle.trans (zpow_le_zpow.mpr (by unfold leastRoot; omega))
  · next hzero =>
    have h0 : toReal (norm x) ≠ 0 :=
      fun h => hzero ((beq_zero_iff hnorm.finite).mpr h)
    have hbetween : Between .positive (leastRoot α) (b + q) (norm x) :=
      hnorm.cases.resolve_left fun h => h0 h.2
    obtain ⟨i, hlow, hhigh⟩ :=
      exists_mem_Ico_zpow hbetween.toReal_pos (one_lt_two (α := ℝ))
    have hil : leastRoot α ≤ i := by
      have :=
        (zpow_lt_zpow_iff_right₀ one_lt_two).mp (hbetween.lower.trans_lt hhigh)
      omega
    have hih : i ≤ b + q := zpow_le_zpow.mp (hlow.trans hbetween.upper)
    have hroot : (model α).minExponent ≤ 2 * leastRoot α + 1 := by
      unfold leastRoot; omega
    refine ⟨hnorm, ?_⟩
    intro w hw
    obtain ⟨v, hv, rfl⟩ := Array.mem_map.mp hw
    have hrecip := within_recip hnorm.finite hlow (by omega) (by omega)
    have hvle : Within (i + 2) 1 v := by
      refine ⟨(hx v hv).finite, ?_⟩
      rw [Nat.cast_one, one_mul, zpow_add₀ two_ne_zero]
      rw [zpow_add_one₀ two_ne_zero] at hhigh
      rcases abs_le_norm hx hsize hq hlo hhi hv with hle | hle
      · have hfour : (2 : ℝ) ^ (2 : ℤ) = 4 := by norm_num
        rw [hfour]
        linarith
      · rw [← zpow_add₀ two_ne_zero]
        exact hle.trans (zpow_le_zpow.mpr (by omega))
    have hprod := hvle.mul hrecip (by omega) (by omega)
    exact hprod.widen (by omega)

end Norm

end Vec

end Equilibration
