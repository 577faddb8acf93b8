import Equilibration.Proofs.ExactResults
import Equilibration.Proofs.SignFlips
import Equilibration.Proofs.VectorRanges

/-!
# ZeroProducts — products with a factor of zero

A matrix is multiplied by one of two kernels, depending on its storage order:
along its slices it gathers, against them it scatters. They compute the same
sums in another order of the terms, and with `a = 0` both should give `b * y`.
The scattering kernel does so without looking at the matrix or at `x`. The
gathering kernel multiplies its products by zero and adds them, and zero times
infinity is no number.

So what the kernels give is the same, up to the sign of a zero
(`FloatingPoint.Alike`), just where the product along the slice is finite or
where `b * y` is no number anyway (`SlicedMatrix.alike_combine_iff`). That is
the case everywhere for finite data of moderate size, and need not be for
others.

Main results: `SlicedMatrix.zero_products_agree_iff`, and where the two differ,
`SlicedMatrix.zero_products_differ`.
-/

namespace Equilibration

open Checked Slices FloatingPoint Rounding Float.Model Float.Model.UnpackedFloat

/-! ## Equality of numbers -/

/-- Numbers that compare as equal and are not zeros have one unpacked form. -/
theorem Rounding.eq_of_beq {u v : UnpackedFloat} (h : u.beq v = true)
    (hv : ∀ s, v ≠ .zero s) :
    u = v := by
  rcases u with (_ | _) | - | s | ⟨_ | _, m, e, hm⟩ <;>
    rcases v with (_ | _) | - | t | ⟨_ | _, n, f, hn⟩ <;>
    simp_all [UnpackedFloat.beq, UnpackedFloat.compare, Ordering.then_eq_eq]

namespace FloatingPoint

variable {α : Type} [Scalar α] [FloatingPoint α] {a b c u v : α}

/-- Equal as numbers, zeros of either sign included, or both no number. -/
def Alike (u v : α) : Prop :=
  (u == v) = true ∨ Scalar.isNaN u = true ∧ Scalar.isNaN v = true

instance (u v : α) : Decidable (Alike u v) :=
  inferInstanceAs (Decidable (_ ∨ _))

theorem eq_of_beq [UniquelyPacked α] (h : (a == b) = true)
    (hb : (b == 0) = false) : a = b := by
  rw [beq_eq] at h
  refine eq_of_unpacked (Rounding.eq_of_beq h fun s hs => ?_)
  rw [beq_zero_iff_unpacked.mpr ⟨s, hs⟩] at hb
  cases hb

theorem beq_of_zeros (ha : (a == 0) = true) (hb : (b == 0) = true) :
    (a == b) = true := by
  obtain ⟨s, ha⟩ := beq_zero_iff_unpacked.mp ha
  obtain ⟨t, hb⟩ := beq_zero_iff_unpacked.mp hb
  rw [beq_eq]
  show UnpackedFloat.beq (unpacked a) (unpacked b) = true
  rw [ha, hb]
  rfl

variable [StandardFloat α]

theorem Alike.refl (a : α) : Alike a a := by
  unfold Alike
  rw [beq_eq, StandardFloat.isNaN_eq]
  show UnpackedFloat.beq (unpacked a) (unpacked a) = true ∨ _
  cases unpacked a with
  | notANumber => exact .inr ⟨rfl, rfl⟩
  | infinity s => cases s <;> exact .inl rfl
  | zero s => exact .inl rfl
  | finite s m e hm =>
    left
    cases s <;> simp [UnpackedFloat.beq, UnpackedFloat.compare]

/-- Only what is no number is like what is no number. -/
theorem alike_iff_of_isNaN (hu : Scalar.isNaN u = true) :
    Alike u v ↔ Scalar.isNaN v = true := by
  refine ⟨fun h => h.elim (fun heq => ?_) And.right, fun hv => .inr ⟨hu, hv⟩⟩
  rw [StandardFloat.isNaN_eq] at hu
  rw [beq_eq] at heq
  change UnpackedFloat.beq (unpacked u) (unpacked v) = true at heq
  cases h : unpacked u with
  | notANumber =>
    rw [h] at heq
    cases heq
  | _ =>
    rw [h] at hu
    cases hu

theorem isNaN_add_right (a : α) (hb : Scalar.isNaN b = true) :
    Scalar.isNaN (a + b) = true := by
  rw [StandardFloat.isNaN_eq] at hb
  rw [isNaN_of_packed (unpacked_add a b)]
  cases h : unpacked b with
  | notANumber => cases unpacked a <;> rfl
  | _ =>
    rw [h] at hb
    cases hb

/-- Zero times what is not finite is no number. -/
theorem isNaN_zero_mul (ha : (a == 0) = true) (hb : Scalar.isFinite b = false) :
    Scalar.isNaN (a * b) = true := by
  obtain ⟨s, ha⟩ := beq_zero_iff_unpacked.mp ha
  rw [← isFinite_unpacked] at hb
  rw [isNaN_of_packed (unpacked_mul a b), ha]
  cases h : unpacked b with
  | notANumber => rfl
  | infinity t => rfl
  | zero t =>
    rw [h] at hb
    cases hb
  | finite t m e hm =>
    rw [h] at hb
    cases hb

/-- Adding a zero changes at most the sign of a zero. -/
theorem alike_add_zero [UniquelyPacked α] (c : α) (hb : (b == 0) = true) :
    Alike (c + b) c := by
  by_cases hc : (c == 0) = true
  · exact .inl (beq_of_zeros (zero_add_zero hc hb) hc)
  · obtain ⟨s, hb⟩ := beq_zero_iff_unpacked.mp hb
    have hsum :
        UnpackedFloat.add (model α) (unpacked c) (unpacked b) = unpacked c := by
      rw [hb]
      cases h : unpacked c with
      | zero t => exact absurd (beq_zero_iff_unpacked.mpr ⟨t, h⟩) hc
      | _ => rfl
    have heq : c + b = c :=
      eq_of_unpacked (by rw [unpacked_add, hsum, packed_unpacked])
    rw [heq]
    exact .refl c

end FloatingPoint

/-! ## The two kernels -/

namespace SlicedMatrix

variable {α : Type} [Scalar α]

/-- What is left of an element of the old vector: `b` times it, and zero if
`b` is zero. -/
def scaledBy (b v : α) : α := if b == 0 then 0 else b * v

variable [FloatingPoint α] [UniquelyPacked α]

/-- The special cases of `b` do not show in the first part of scattering. -/
theorem prescale_eq_map (b : α) (y : Array α) :
    prescale b y = y.map (scaledBy b) := by
  have hone : ((1 : α) == 0) = false := by
    rw [Bool.eq_false_iff, ne_eq, beq_zero_iff isFinite_one.1, isFinite_one.2]
    exact one_ne_zero
  unfold prescale scaledBy
  split
  · rfl
  · next hb =>
    split
    · next hone' =>
      obtain rfl : b = 1 := eq_of_beq hone' hone
      simp only [FloatingPoint.one_mul, Array.map_id']
    · split
      · next hneg =>
        obtain rfl : b = -1 := eq_of_beq hneg (by rw [neg_beq_zero, hone])
        simp only [FloatingPoint.neg_mul, FloatingPoint.one_mul, Vec.negate]
      · simp only [Vec.scale, FloatingPoint.mul_comm _ b]

section Zero

variable [StandardFloat α] {a : α} (ha : (a == 0) = true) (b v : α) {dot : α}

include ha

/-- **What gathering gives for a factor of zero.** Over a finite product it is
what scattering gives, and else it is no number. -/
theorem alike_combine (hdot : Scalar.isFinite dot = true) :
    Alike (combine a b v dot) (scaledBy b v) := by
  have hzero := zero_mul_of_finite ha hdot
  unfold combine scaledBy
  split
  · exact .inl (beq_of_zeros hzero zero_beq_zero)
  · exact alike_add_zero _ hzero

omit [UniquelyPacked α] in
theorem isNaN_combine (hdot : Scalar.isFinite dot = false) :
    Scalar.isNaN (combine a b v dot) = true := by
  have hnan := isNaN_zero_mul ha hdot
  unfold combine
  split
  · exact hnan
  · exact isNaN_add_right _ hnan

theorem alike_combine_iff : Alike (combine a b v dot) (scaledBy b v)
    ↔ Scalar.isFinite dot = true ∨ Scalar.isNaN (scaledBy b v) = true := by
  cases hdot : Scalar.isFinite dot with
  | true => exact iff_of_true (alike_combine ha b v hdot) (.inl rfl)
  | false =>
    rw [alike_iff_of_isNaN (isNaN_combine ha b v hdot),
      or_iff_right Bool.false_ne_true]

end Zero

omit [FloatingPoint α] [UniquelyPacked α] in
/-- Of a matrix and its flipped form, the one whose order is that of the result
gathers. -/
theorem multiply_gathering {A : SlicedMatrix α} (h : A.check = .ok (.ok ()))
    (hroom : A.HasRoom) (shape : Shape) {x y : Array α} (a b : α)
    (hx : x.size = shape.domain A.rows A.cols)
    (hy : y.size = shape.codomain A.rows A.cols) :
    (if A.order = shape.order then A else A.flipped).multiply shape y x a b
      = .ok (A.product shape a b x y) := by
  rw [← PairedMatrix.multiply_eq_ok h hroom shape a b hx hy]
  cases horder : A.order <;> cases shape
  · rw [PairedMatrix.ofForm_row horder]; rfl
  · rw [PairedMatrix.ofForm_row horder]; rfl
  · rw [PairedMatrix.ofForm_col horder]; rfl
  · rw [PairedMatrix.ofForm_col horder]; rfl

omit [FloatingPoint α] [UniquelyPacked α] in
/-- The other one scatters, and with a factor of zero it stops after the old
vector. -/
theorem multiply_scattering (A : SlicedMatrix α) (shape : Shape) {a : α}
    (ha : (a == 0) = true) (b : α) (x y : Array α) :
    (if A.order = shape.order then A.flipped else A).multiply shape y x a b
      = .ok (prescale b y) := by
  have hscatter : ∀ B : SlicedMatrix α, B.order = shape.order.flip →
      B.multiply shape y x a b = .ok (prescale b y) := by
    intro B hB
    rw [multiply.eq_def, hB]
    cases shape <;> exact if_pos ha
  split
  · next horder =>
    exact hscatter _ (by rw [← horder]; rfl)
  · next horder =>
    exact hscatter _ (StorageOrder.eq_flip_of_ne _ horder)

/-- **When products with a factor of zero agree.** Take a well-formed matrix of
any values and the form of it in the other storage order, and multiply either
one or its transpose by zero, with any `b` and any vectors that fit. The form
that scatters always gives `b * y`, or zeros if `b` is zero, and nothing of the
matrix or of `x`. The form that gathers gives the same, up to the sign of a
zero, in just those places where its product with `x` is finite or where
`b * y` is no number; elsewhere it gives no number. All products are finite,
and so both forms agree, if values and vector are finite and of moderate
size. -/
theorem zero_products_agree_iff [StandardFloat α] (A : SlicedMatrix α)
    (h : A.check = .ok (.ok ())) (hroom : A.HasRoom) :
    ∃ B, A.inOrder A.order.flip = .ok B
      ∧ ∀ (shape : Shape) (a b : α) (x y : Array α),
      (a == 0) = true → x.size = shape.domain A.rows A.cols →
      y.size = shape.codomain A.rows A.cols →
      let gathers := if A.order = shape.order then A else B
      let scatters := if A.order = shape.order then B else A
      scatters.multiply shape y x a b = .ok (y.map (scaledBy b))
      ∧ ∃ z products, gathers.multiply shape y x a b = .ok z
        ∧ gathers.multiply shape y x 1 0 = .ok products
        ∧ z.size = y.size ∧ products.size = y.size
        ∧ (∀ (k : Nat) (v : α), y[k]? = some v →
          ∃ u p, z[k]? = some u ∧ products[k]? = some p
            ∧ (Alike u (scaledBy b v)
              ↔ Scalar.isFinite p = true ∨ Scalar.isNaN (scaledBy b v) = true)
            ∧ (Scalar.isFinite p = false → Scalar.isNaN u = true))
        ∧ ∀ (c d : ℤ) (q : ℕ),
          (∀ v ∈ A.values, Within c 1 v) → (∀ v ∈ x, Within d 1 v) →
          A.values.size ≤ 2 ^ q → q ≤ (model α).mantissaBits →
          (model α).minExponent ≤ c + d → c + d + q ≤ (model α).exponentBias →
          ∀ p ∈ products, Scalar.isFinite p = true := by
  refine ⟨A.flipped, inOrder_flip h hroom, ?_⟩
  intro shape a b x y ha hx hy gathers scatters
  refine ⟨(multiply_scattering A shape ha b x y).trans
    (congrArg Except.ok (prescale_eq_map b y)), _, _, multiply_gathering h hroom
    shape a b hx hy, multiply_gathering h hroom shape 1 0 hx hy,
    size_product .., size_product .., ?_, ?_⟩
  · intro k v hv
    simp only [product, Array.getElem?_mapIdx, hv, Option.map_some,
      combine_of_zero zero_beq_zero, FloatingPoint.one_mul]
    exact ⟨_, _, rfl, rfl, alike_combine_iff ha b v, isNaN_combine ha b v⟩
  · intro c d q hA hxd hcount hq hlo hhi p hp
    exact (within_product h hroom shape hA hxd
        (representable_of_le hlo hcount hq hhi) (by omega) p hp).finite

/-- Doubles in rows, of which the first holds infinity: scattering multiplies
both elements, and gathering only the second. -/
theorem zero_products_agree_beside_infinity :
    let A : SlicedMatrix Float :=
      ⟨.row, 2, 2, #[0, 2, 3], #[0, 1, 1], #[1 / 0, 1, 2]⟩
    A.check = .ok (.ok ()) ∧ A.HasRoom ∧ ((-0 : Float) == 0) = true
    ∧ ∃ B z u v, A.inOrder .col = .ok B
      ∧ B.multiply .normal #[5, 5] #[1, 1] (-0) 3 = .ok #[15, 15]
      ∧ A.multiply .normal #[5, 5] #[1, 1] (-0) 3 = .ok z
      ∧ z[0]? = some u ∧ ¬ Alike u 15 ∧ z[1]? = some v ∧ Alike v 15 := by
  intro A
  have hcheck : A.check = .ok (.ok ()) := by decide +kernel
  have hroom : A.HasRoom := ⟨by decide, by decide⟩
  have hzero : ((-0 : Float) == 0) = true := by decide +kernel
  obtain ⟨B, hB, hproducts⟩ := zero_products_agree_iff A hcheck hroom
  obtain ⟨hscatter, z, products, hgather, hone, -, -, helements, -⟩ :=
    hproducts .normal (-0) 3 #[1, 1] #[5, 5] hzero rfl rfl
  have hvalue : scaledBy (3 : Float) 5 = 15 := by decide +kernel
  have hinfinite : A.multiply .normal #[5, 5] #[1, 1] 1 0
      = .ok #[1 / 0, 2] := by decide +kernel
  obtain rfl : #[1 / 0, 2] = products :=
    Except.ok.inj (hinfinite.symm.trans hone)
  obtain ⟨u, p, hu, hp, hiff, -⟩ := helements 0 5 rfl
  obtain ⟨v, q, hv, hq, hiff', -⟩ := helements 1 5 rfl
  cases hp
  cases hq
  rw [hvalue] at hiff hiff'
  have hscattered : #[(5 : Float), 5].map (scaledBy 3) = #[15, 15] := by
    decide +kernel
  exact ⟨hcheck, hroom, hzero, B, z, u, v, hB,
    hscatter.trans (congrArg Except.ok hscattered), hgather, hu,
    hiff.not.mpr (by decide +kernel), hv, hiff'.mpr (.inl (by decide +kernel))⟩

/-- One infinity, which zero times the product does not leave out when it
gathers. -/
theorem zero_products_differ :
    let A : SlicedMatrix Float := ⟨.row, 1, 1, #[0, 1], #[0], #[1 / 0]⟩
    A.check = .ok (.ok ()) ∧ ∃ B, A.inOrder .col = .ok B
      ∧ B.multiply .normal #[5] #[1] 0 1 = .ok #[5]
      ∧ ∃ u, A.multiply .normal #[5] #[1] 0 1 = .ok #[u]
        ∧ Scalar.isNaN u = true ∧ ¬ Alike u 5 := by
  intro A
  have hcheck : A.check = .ok (.ok ()) := by decide +kernel
  exact ⟨hcheck, A.flipped, inOrder_flip hcheck ⟨by decide, by decide⟩,
    by decide +kernel, 0 / 0, by decide +kernel, by decide +kernel,
    by decide +kernel⟩

end SlicedMatrix

end Equilibration
