import Equilibration.Proofs.NormRanges
import Equilibration.Proofs.PerturbedIteration
import Equilibration.Proofs.RelativeErrors

/-!
# ProductErrors — how far a product is off

A sum of products that is rounded after every step is off by a small part of
the sum of all magnitudes (`FloatingPoint.dotOf_error`). For the elements of a
product of a matrix with a vector that is a statement about the entries of the
matrix (`SlicedMatrix.product_error`), and for the product as a whole about
their Frobenius norm (`SlicedMatrix.product_near`).
-/

namespace Equilibration

open FloatingPoint Rounding Vec

namespace FloatingPoint

variable {α : Type} [Scalar α] [FloatingPoint α]

/-- **A product along a slice** is off by a small part of the sum of all
magnitudes and by a few of the smallest numbers. -/
theorem dotOf_error {x : Array α} {s : List (Nat × α)} {b d : ℤ} {q : ℕ}
    (hs : ∀ e ∈ s, Within b 1 e.2) (hx : ∀ v ∈ x, Within d 1 v)
    (hlen : s.length ≤ 2 ^ q)
    (hq : q + 2 ≤ (model α).mantissaBits) (hlo : (model α).minExponent ≤ b + d)
    (hhi : b + d + q ≤ (model α).exponentBias) :
    |toReal (Slices.dotOf x s) - (s.map fun e =>
      toReal e.2 * toReal (x.getD e.1 0)).sum|
      ≤ 4 * 2 ^ q
        * roundoff α * (s.map fun e => |toReal e.2 * toReal (x.getD e.1 0)|).sum
        + 2 * 2 ^ q * smallest α := by
  have hu := roundoff_nonneg α
  have hω := (smallest_pos α).le
  have hterms : ∀ e ∈ s, Within (b + d) 1 (e.2 * x.getD e.1 0)
      ∧ |toReal (e.2 * x.getD e.1 0) - toReal e.2 * toReal (x.getD e.1 0)|
        ≤ roundoff α * |toReal e.2 * toReal (x.getD e.1 0)| + smallest α :=
    fun e he =>
    ⟨(hs e he).mul (getD_within hx e.1) hlo (by omega),
      ((hs e he).rounded_mul (getD_within hx e.1) hlo (by omega)).abs_sub_le⟩
  obtain ⟨hdiff, hmass⟩ := sum_error fun e he => (hterms e he).2
  have hfold :=
    foldl_error (l := s.map fun e => e.2 * x.getD e.1 0) (b := b + d) (m := 0)
      (fun t ht => by
      obtain ⟨e, he, rfl⟩ := List.mem_map.mp ht
      exact (hterms e he).1) (within_zero (b + d) 0)
    (by
      rw [Nat.zero_add, List.length_map]
      exact representable_of_le hlo hlen (by omega) hhi)
  rw [← dotOf_eq_foldl, (isFinite_zero (α := α)).2, abs_zero, zero_add,
    zero_add, List.length_map, List.map_map, List.map_map] at hfold
  have hn : (s.length : ℝ) ≤ 2 ^ q := by exact_mod_cast hlen
  have hnu : s.length * roundoff α ≤ 1 / 2 :=
    (mul_le_mul_of_nonneg_right hn hu).trans (two_pow_mul_roundoff hq)
  have hgrowth := pow_le_one_add hu hnu
  have hgrowth1 : 1 ≤ (1 + roundoff α) ^ s.length := one_le_pow₀ (by linarith)
  have hone : (1 : ℝ) ≤ 2 ^ q := one_le_pow₀ one_le_two
  have hP : 0 ≤ (s.map fun e => |toReal e.2 * toReal (x.getD e.1 0)|).sum := by
    apply List.sum_nonneg
    intro a ha
    obtain ⟨e, -, rfl⟩ := List.mem_map.mp ha
    exact abs_nonneg _
  generalize (s.map fun e => |toReal e.2 * toReal (x.getD e.1 0)|).sum = P
    at hdiff hmass hP ⊢
  generalize (1 + roundoff α) ^ s.length = G at hfold hgrowth hgrowth1
  have hsplit := abs_sub_le (toReal (Slices.dotOf x s))
    (s.map fun e => toReal (e.2 * x.getD e.1 0)).sum
    (s.map fun e => toReal e.2 * toReal (x.getD e.1 0)).sum
  have hfold' : |toReal (Slices.dotOf x s) - (s.map fun e =>
      toReal (e.2 * x.getD e.1 0)).sum|
      ≤ (G - 1) * ((1 + roundoff α) * P + s.length * smallest α) :=
    hfold.trans (mul_le_mul_of_nonneg_left hmass (sub_nonneg.mpr hgrowth1))
  have hrelative : G * (1 + roundoff α) - 1 ≤ 4 * 2 ^ q * roundoff α := by
    have : G * (1 + roundoff α)
        ≤ (1 + 2 * (s.length * roundoff α)) * (1 + roundoff α) :=
      mul_le_mul_of_nonneg_right hgrowth (by linarith)
    nlinarith [mul_le_mul_of_nonneg_right hn hu,
      mul_le_mul_of_nonneg_right hone hu]
  have habsolute : G * (s.length * smallest α) ≤ 2 * 2 ^ q * smallest α := by
    have hG : G ≤ 2 := by linarith
    have := mul_le_mul_of_nonneg_right hn hω
    calc G * (s.length * smallest α) ≤ 2 * (2 ^ q * smallest α) :=
          mul_le_mul hG this (by positivity) two_pos.le
      _ = 2 * 2 ^ q * smallest α := by ring
  calc |toReal (Slices.dotOf x s) - (s.map fun e =>
           toReal e.2 * toReal (x.getD e.1 0)).sum|
      ≤ (G * (1 + roundoff α) - 1) * P + G * (s.length * smallest α) := by
        linarith
    _ ≤ _ := add_le_add (mul_le_mul_of_nonneg_right hrelative hP) habsolute

end FloatingPoint

/-! ## Products -/

/-- The real numbers as scalars. -/
@[reducible] noncomputable def realField : ExactField ℝ :=
  ExactField.ofField ℝ Real.sqrt (fun _ => Real.sqrt_nonneg _)
    Real.mul_self_sqrt

attribute [local instance] realField

namespace SlicedMatrix

variable {α : Type} [Scalar α] [FloatingPoint α]

/-- The entries of the matrix as real numbers. -/
noncomputable def realEntry (A : SlicedMatrix α) : ℕ → ℕ → ℝ :=
  (A.mapEntries fun _ _ v => toReal v).coefficient

/-- The sum of the magnitudes that are stored for an entry. -/
noncomputable def massEntry (A : SlicedMatrix α) : ℕ → ℕ → ℝ :=
  (A.mapEntries fun _ _ v => |toReal v|).coefficient

omit [Scalar α] [FloatingPoint α] in
/-- The sum over the slice of an element, as a sum over the elements of the
vector. -/
theorem sum_gathering {A : SlicedMatrix α} (h : A.check = .ok (.ok ()))
    (hroom : A.HasRoom) (shape : Shape) (f : α → ℝ) {x : Array ℝ} {k : ℕ}
    (hx : x.size = shape.domain A.rows A.cols)
    (hk : k < shape.codomain A.rows A.cols) :
    ((((PairedMatrix.ofForm A).gathering shape).slices[k]?.getD []).map
        fun e => f e.2 * x.getD e.1 0).sum
      = ∑ j ∈ Finset.range x.size,
        shape.entryOf (A.mapEntries fun _ _ v => f v).coefficient k j
          * x.getD j 0 := by
  have hcheck := check_mapEntries h fun _ _ v => f v
  have hroom' := (hasRoom_mapEntries h fun _ _ v => f v).mpr hroom
  have hy : (Array.replicate (shape.codomain A.rows A.cols) (0 : ℝ)).size
      = shape.codomain A.rows A.cols := Array.size_replicate
  have hdense := PairedMatrix.multiply_ofForm hcheck hroom' shape 1 0 hx hy
  rw [PairedMatrix.multiply_eq_ok hcheck hroom' shape 1 0 hx hy] at hdense
  have helement :=
    congrArg (fun z : Array ℝ => z.getD k 0) (Except.ok.inj hdense)
  rw [getD_denseProduct _ x (hk.trans_eq hy.symm), product_eq,
    Array.getD_eq_getD_getElem?, Array.getElem?_mapIdx,
    Array.getElem?_eq_getElem (hk.trans_eq hy.symm), Option.map_some,
    Option.getD_some, gathering_mapEntries h, slices_mapEntries,
    Slices.getElem?_mapValues, dotOf_eq_sum_map] at helement
  rw [← helement]
  cases ((PairedMatrix.ofForm A).gathering shape).slices[k]? with
  | none => rfl
  | some s =>
    rw [Option.map_some, Option.getD_some, Option.getD_some, List.map_map]
    rfl

/-- The magnitudes of the elements of a vector, as real numbers. -/
noncomputable def magnitudesOf (x : Array α) : Array ℝ :=
  x.map fun v => |toReal v|

theorem getD_map_toReal (x : Array α) (j : ℕ) :
    (x.map toReal).getD j 0 = toReal (x.getD j 0) := by
  rw [Array.getD_eq_getD_getElem?, Array.getD_eq_getD_getElem?,
    Array.getElem?_map]
  cases x[j]? with
  | none => exact isFinite_zero.2.symm
  | some v => rfl

theorem getD_magnitudesOf (x : Array α) (j : ℕ) :
    (magnitudesOf x).getD j 0 = |toReal (x.getD j 0)| := by
  rw [magnitudesOf, Array.getD_eq_getD_getElem?, Array.getD_eq_getD_getElem?,
    Array.getElem?_map]
  cases x[j]? with
  | none =>
    show (0 : ℝ) = |toReal (0 : α)|
    rw [isFinite_zero.2, abs_zero]
  | some v => rfl

/-- **An element of a product** is off by a small part of what the magnitudes
of the entries and of the vector multiply to, and by a few of the smallest
numbers. -/
theorem product_error {A : SlicedMatrix α} (h : A.check = .ok (.ok ()))
    (hroom : A.HasRoom) (shape : Shape) {x y : Array α} {b d : ℤ} {q : ℕ}
    (hA : ∀ v ∈ A.values, Within b 1 v)
    (hx : ∀ v ∈ x, Within d 1 v) (hxsize : x.size = shape.domain A.rows A.cols)
    (hysize : y.size = shape.codomain A.rows A.cols)
    (hcount : A.values.size ≤ 2 ^ q)
    (hq : q + 2 ≤ (model α).mantissaBits) (hlo : (model α).minExponent ≤ b + d)
    (hhi : b + d + q ≤ (model α).exponentBias) {k : ℕ} (hk : k < y.size) :
    |toReal ((A.product shape 1 0 x y).getD k 0)
        - (denseProducts A.realEntry shape (x.map toReal)
          (y.map toReal)).getD k 0|
      ≤ 4 * 2 ^ q * roundoff α
          * (denseProducts A.massEntry shape (magnitudesOf x)
            (magnitudesOf y)).getD k 0
        + 2 * 2 ^ q * smallest α := by
  have hk' : k < shape.codomain A.rows A.cols := hysize ▸ hk
  have hreal := sum_gathering h hroom shape toReal (x := x.map toReal)
    ((Array.size_map ..).trans hxsize) hk'
  have hmass :=
    sum_gathering h hroom shape (fun v => |toReal v|) (x := magnitudesOf x)
      ((Array.size_map ..).trans hxsize) hk'
  have hlen := (PairedMatrix.length_gathering_le h hroom shape k).trans hcount
  have hentries :
      ∀ e ∈ ((PairedMatrix.ofForm A).gathering shape).slices[k]?.getD [],
      Within b 1 e.2 := fun e he =>
    hA _ (value_mem_of_entries h shape (k := k) (fun i j v hkey => by
      subst hkey
      exact PairedMatrix.mem_gathering_iff h shape) he)
  have hkreal : k < (y.map toReal).size := hk.trans_eq (Array.size_map ..).symm
  have hkmass : k < (magnitudesOf y).size :=
    hk.trans_eq (Array.size_map ..).symm
  rw [denseProducts, getD_denseProduct _ _ hkreal, denseProducts,
    getD_denseProduct _ _ hkmass, realEntry, massEntry, ← hreal, ← hmass,
    product, Array.getD_eq_getD_getElem?, Array.getElem?_mapIdx,
    Array.getElem?_eq_getElem hk, Option.map_some, Option.getD_some]
  generalize ((PairedMatrix.ofForm A).gathering shape).slices[k]?.getD [] = s
    at hlen hentries ⊢
  have herror := dotOf_error hentries hx hlen hq hlo hhi
  have hrep :=
    representable_of_le hlo hlen (by omega : q ≤ (model α).mantissaBits) hhi
  have hdot := within_dotOf hentries hx hrep (by omega)
  rw [(toReal_combine y[k] hdot hrep).2]
  simp only [getD_map_toReal, getD_magnitudesOf, ← abs_mul]
  exact herror

end SlicedMatrix

/-! ## Products as a whole -/

namespace Vec

variable {α : Type} [Scalar α] [FloatingPoint α]

/-- The length of a vector, without rounding. -/
noncomputable def lengthOf (x : Array α) : ℝ := norm (x.map toReal)

theorem lengthOf_nonneg (x : Array α) : 0 ≤ lengthOf x := norm_nonneg _

theorem norm_magnitudesOf (x : Array α) :
    norm (SlicedMatrix.magnitudesOf x) = lengthOf x := by
  rw [lengthOf, norm, norm, sumSquares_eq_sum, sumSquares_eq_sum,
    SlicedMatrix.magnitudesOf, Array.toList_map, Array.toList_map, List.map_map,
    List.map_map]
  simp only [Function.comp_def, abs_mul_abs_self]

end Vec

namespace SlicedMatrix

variable {α : Type} [Scalar α] [FloatingPoint α]

/-- The Frobenius norm of the magnitudes that are stored. -/
noncomputable def massNorm (A : SlicedMatrix α) : ℝ :=
  SpectralNorm.frobenius A.massEntry A.rows A.cols

/-- How far a product may be off, relative to the length of its vector. -/
noncomputable def slack (A : SlicedMatrix α) (q : ℕ) : ℝ :=
  ((8 * 2 ^ q : ℕ) : ℝ) * roundoff α * A.massNorm

theorem slack_eq (A : SlicedMatrix α) (q : ℕ) :
    A.slack q = 8 * 2 ^ q * roundoff α * A.massNorm := by
  rw [slack, Nat.cast_mul, Nat.cast_pow, Nat.cast_ofNat, Nat.cast_ofNat]

theorem massNorm_nonneg (A : SlicedMatrix α) : 0 ≤ A.massNorm :=
  ExactField.sqrt_nonneg (SpectralNorm.frobenius_sum_nonneg _ _ _)

theorem slack_nonneg (A : SlicedMatrix α) (q : ℕ) : 0 ≤ A.slack q :=
  mul_nonneg (mul_nonneg (by positivity) (roundoff_nonneg α)) A.massNorm_nonneg

/-- A product with a vector that is not too short is off by a small part of its
length. -/
theorem product_near {A : SlicedMatrix α} (h : A.check = .ok (.ok ()))
    (hroom : A.HasRoom) {b d : ℤ} {q : ℕ} (hsized : A.Sized q)
    (hA : ∀ v ∈ A.values, Within b 1 v) (shape : Shape) {x y : Array α}
    (hx : ∀ v ∈ x, Within d 1 v) (hxsize : x.size = shape.domain A.rows A.cols)
    (hysize : y.size = shape.codomain A.rows A.cols)
    (hq : q + 2 ≤ (model α).mantissaBits) (hlo : (model α).minExponent ≤ b + d)
    (hhi : b + d + q ≤ (model α).exponentBias)
    (hfine : (2 : ℝ) ^ ((model α).minExponent + (model α).mantissaBits + q - 2)
      ≤ A.massNorm * lengthOf x) :
    Near (shape.codomain A.rows A.cols) ((A.product shape 1 0 x y).map toReal)
      (denseProducts A.realEntry shape (x.map toReal) (y.map toReal))
      (A.slack q * lengthOf x) := by
  have hu := roundoff_nonneg α
  have hω := (smallest_pos α).le
  have hcount : y.size ≤ 2 ^ q := by
    rw [hysize]
    cases shape
    · exact hsized.rows_le
    · exact hsized.cols_le
  have helements :
      ∀ k < y.size, |((A.product shape 1 0 x y).map toReal).getD k 0
        - (denseProducts A.realEntry shape (x.map toReal)
          (y.map toReal)).getD k 0|
      ≤ 4 * 2 ^ q * roundoff α
          * (denseProducts A.massEntry shape (magnitudesOf x)
            (magnitudesOf y)).getD k 0
        + 2 * 2 ^ q * smallest α := by
    intro k hk
    rw [getD_map_toReal]
    exact product_error h hroom shape hA hx hxsize hysize hsized.count_le hq
      hlo hhi hk
  have hmass := SpectralNorm.norm_denseProducts_le (a := A.massEntry) shape
    (x := magnitudesOf x) (y := magnitudesOf y)
    ((Array.size_map ..).trans hxsize) ((Array.size_map ..).trans hysize)
  rw [norm_magnitudesOf] at hmass
  have hnear := near_of_elements ((SpectralNorm.size_denseProducts A.massEntry
      shape (magnitudesOf x) (magnitudesOf y)).trans (Array.size_map ..))
    (by positivity) (by positivity) helements
  -- the smallest numbers together are no more than the relative part
  have hsmall : (y.size : ℝ) * (2 * 2 ^ q * smallest α)
      ≤ 4 * 2 ^ q * roundoff α * (A.massNorm * lengthOf x) :=
    calc (y.size : ℝ) * (2 * 2 ^ q * smallest α)
           ≤ 2 ^ q * (2 * 2 ^ q * smallest α) :=
          mul_le_mul_of_nonneg_right (by exact_mod_cast hcount) (by positivity)
      _ = 4 * 2 ^ q * roundoff α
            * 2 ^ ((model α).minExponent + (model α).mantissaBits + q - 2) := by
          rw [roundoff_eq, smallest_eq, zpow_sub₀ two_ne_zero,
            zpow_sub₀ two_ne_zero, zpow_add₀ two_ne_zero, zpow_add₀ two_ne_zero,
            zpow_natCast, zpow_natCast]
          field_simp
          norm_num
      _ ≤ _ := mul_le_mul_of_nonneg_left hfine (by positivity)
  rw [← hysize]
  refine hnear.mono ?_
  calc 4 * 2 ^ q * roundoff α * norm (denseProducts A.massEntry shape
           (magnitudesOf x) (magnitudesOf y))
         + (y.size : ℝ) * (2 * 2 ^ q * smallest α)
      ≤ 4 * 2 ^ q * roundoff α * (A.massNorm * lengthOf x)
          + 4 * 2 ^ q * roundoff α * (A.massNorm * lengthOf x) :=
        add_le_add (mul_le_mul_of_nonneg_left hmass (by positivity)) hsmall
    _ = A.slack q * lengthOf x := by
        rw [slack_eq]
        ring

/-- The slack in powers of two. -/
theorem slack_le (A : SlicedMatrix α) {q k : ℕ}
    (hk : q + k + 4 ≤ (model α).mantissaBits) :
    A.slack q ≤ 2 ^ (-k : ℤ) * A.massNorm := by
  rw [slack_eq]
  refine mul_le_mul_of_nonneg_right ?_ A.massNorm_nonneg
  calc 8 * 2 ^ q * roundoff α
         = (2 : ℝ) ^ (3 + q + (1 - (model α).mantissaBits) : ℤ) := by
        rw [roundoff_eq, zpow_add₀ two_ne_zero, zpow_add₀ two_ne_zero,
          zpow_natCast]
        norm_num
    _ ≤ 2 ^ (-k : ℤ) := zpow_le_zpow.mpr (by omega)

end SlicedMatrix

end Equilibration
