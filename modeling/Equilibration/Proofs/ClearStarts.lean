import Equilibration.Proofs.Cancellation

/-!
# ClearStarts — estimates that stay positive

The norm estimate starts from the product of the transposed matrix with one
fixed vector. If so much of that product cancels that only rounding errors are
left, nothing can be said of the estimate. If no more than some bits cancel
(`SlicedMatrix.Clear`), every image of the iteration has its length up to a
part that grows with the number of iterations (`SpectralNorm.iterateOn_pos`),
and the estimate is a positive number (`SpectralNorm.estimateOn_pos`).
-/

namespace Equilibration

open Checked FloatingPoint Rounding Vec

attribute [local instance] realField

variable {α : Type} [Scalar α] [FloatingPoint α]

/-! ## Lengths -/

theorem two_zpow_neg (s : ℤ) : (2 : ℝ) ^ (-s) = 2 * 2 ^ (-(s + 1)) := by
  rw [← zpow_one_add₀ two_ne_zero]
  congr 1
  ring

namespace Vec

section Norm

variable {y : Array α} {b c : ℤ} {q : ℕ} (hy : ∀ v ∈ y, Within b 1 v)
  (hsize : y.size ≤ 2 ^ q)
  (hq : q ≤ (model α).mantissaBits) (hlength : (2 : ℝ) ^ c ≤ lengthOf y)
  (hlo : (model α).minExponent ≤ 2 * (c - q))
  (hhi : 2 * b + q + 2 ≤ (model α).exponentBias)

include hy hsize hq hlength hlo hhi

/-- The norm of a vector that is long enough, in powers of two around the
largest element. -/
theorem between_norm : ∃ i, c - q ≤ i ∧ i ≤ b ∧ (2 : ℝ) ^ i ≤ lengthOf y
    ∧ (∀ v ∈ y, Within (i + 1) 1 v)
    ∧ Between .positive i (i + 1 + q) (norm y) := by
  have hbias := mantissaBits_le (α := α)
  have hrange : (Finset.range y.size).Nonempty := by
    rw [Finset.nonempty_range_iff]
    intro h0
    have hzero : lengthOf y ≤ (y.map toReal).size * 0 :=
      norm_le_of_elements le_rfl fun j hj => by
      rw [Array.size_map, h0] at hj
      exact absurd hj j.not_lt_zero
    rw [mul_zero] at hzero
    exact absurd (hlength.trans hzero) (not_le.mpr (zpow_pos two_pos c))
  obtain ⟨k, hk, hmax⟩ :=
    Finset.exists_max_image _ (fun k => |toReal (y.getD k 0)|) hrange
  have hmem := Vec.getD_mem (Finset.mem_range.mp hk) (0 : α)
  have hbound : ∀ v ∈ y, |toReal v| ≤ |toReal (y.getD k 0)| := by
    intro v hv
    obtain ⟨j, hj, rfl⟩ := Array.mem_iff_getElem.mp hv
    have := hmax j (Finset.mem_range.mpr hj)
    rwa [Array.getD, dif_pos hj] at this
  generalize y.getD k 0 = top at hmem hbound
  -- the length is between the largest element and a multiple of it
  have hle : (2 : ℝ) ^ c ≤ 2 ^ q * |toReal top| := by
    refine hlength.trans
      ((norm_le_of_elements (abs_nonneg (toReal top)) fun j hj => ?_).trans ?_)
    · rw [SlicedMatrix.getD_map_toReal]
      exact hbound _ (Vec.getD_mem (hj.trans_eq (Array.size_map ..)) 0)
    · rw [Array.size_map]
      exact mul_le_mul_of_nonneg_right (by exact_mod_cast hsize) (abs_nonneg _)
  have hpos : 0 < |toReal top| :=
    pos_of_mul_pos_right ((zpow_pos two_pos c).trans_le hle) (by positivity)
  obtain ⟨i, hlow, hhigh⟩ := exists_mem_Ico_zpow hpos (one_lt_two (α := ℝ))
  have hci : c - q ≤ i := by
    have : (2 : ℝ) ^ c < 2 ^ (q + (i + 1) : ℤ) := by
      rw [zpow_add₀ two_ne_zero, zpow_natCast]
      exact hle.trans_lt (mul_lt_mul_of_pos_left hhigh (by positivity))
    have := (zpow_lt_zpow_iff_right₀ one_lt_two).mp this
    omega
  have hib : i ≤ b := by
    have := (hy top hmem).le
    rw [Nat.cast_one, one_mul] at this
    exact zpow_le_zpow.mp (hlow.trans this)
  have hwithin : ∀ v ∈ y, Within (i + 1) 1 v := fun v hv =>
    ⟨(hy v hv).finite, by
      rw [Nat.cast_one, one_mul]
      exact (hbound v hv).trans hhigh.le⟩
  have hnorm := sumOf_norm hwithin hsize hq (by omega) (by omega)
  have hlower :=
    two_zpow_le_norm hwithin hsize hq (by omega) (by omega) hmem (by omega) hlow
  refine ⟨i, hci, hib, ?_, hwithin, ?_⟩
  · obtain ⟨j, hj, rfl⟩ := Array.mem_iff_getElem.mp hmem
    refine hlow.trans ?_
    have := abs_getD_le_norm (y.map toReal) j
    rwa [SlicedMatrix.getD_map_toReal, Array.getD, dif_pos hj] at this
  · rcases hnorm.cases with ⟨-, h0⟩ | h
    · rw [h0] at hlower
      exact absurd hlower (not_le.mpr (zpow_pos two_pos i))
    · exact ⟨h.finite, hlower, h.upper⟩

/-- Scaling to norm one multiplies by a number, up to a small part of the
result, and the result is not much shorter than one. -/
theorem normalize_near
    (hfine : (model α).minExponent + (model α).mantissaBits + 2 * q ≤ 0) :
    ∃ i, c - q ≤ i ∧ i ≤ b ∧ Between .positive i (i + 1 + q) (normalize y).1
      ∧ (∀ v ∈ (normalize y).2, Within 2 1 v)
      ∧ ∃ ρ, 0 ≤ ρ ∧ (2 : ℝ) ^ (-(q + 1) : ℤ) ≤ ρ * lengthOf y
        ∧ Near y.size ((normalize y).2.map toReal) (scale (y.map toReal) ρ)
          (2 * roundoff α * (ρ * lengthOf y)) := by
  obtain ⟨i, hci, hib, hi, hwithin, hnorm⟩ :=
    between_norm hy hsize hq hlength hlo hhi
  have hmin := minExponent_eq (model α)
  have hbits := mantissaBits_eq (model α)
  have hbias := mantissaBits_le (α := α)
  have hu := roundoff_nonneg α
  have hω := smallest_pos α
  have hnormalize :
      normalize y = (norm y, scale y (Scalar.recip (norm y))) := by
    rw [normalize, if_neg]
    rw [beq_zero_iff hnorm.finite]
    exact hnorm.toReal_pos.ne'
  have hrecip :
      Between .positive (0 - (i + 1 + q)) (0 - i) (Scalar.recip (norm y)) :=
    between_one.div hnorm (by omega) (by omega)
  rw [hnormalize]
  dsimp only
  generalize Scalar.recip (norm y) = r at hrecip
  have hr := hrecip.toReal_pos.le
  have hlong : (2 : ℝ) ^ (-(q + 1) : ℤ) ≤ toReal r * lengthOf y := by
    calc (2 : ℝ) ^ (-(q + 1) : ℤ) = 2 ^ (0 - (i + 1 + q)) * 2 ^ i := by
          rw [← zpow_add₀ two_ne_zero]
          congr 1
          ring
      _ ≤ toReal r * lengthOf y :=
          mul_le_mul hrecip.lower hi (zpow_pos two_pos i).le hr
  refine ⟨i, hci, hib, hnorm, ?_, toReal r, hr, hlong, ?_⟩
  · intro w hw
    obtain ⟨v, hv, rfl⟩ := Array.mem_map.mp hw
    exact ((hwithin v hv).mul hrecip.within (by omega) (by omega)).widen
      (by omega)
  · have helements : ∀ k < y.size, |((scale y r).map toReal).getD k 0
        - (scale (y.map toReal) (toReal r)).getD k 0|
          ≤ roundoff α * toReal r * (SlicedMatrix.magnitudesOf y).getD k 0
            + smallest α := by
      intro k hk
      rw [getD_scale, SlicedMatrix.getD_map_toReal,
        SlicedMatrix.getD_map_toReal, SlicedMatrix.getD_magnitudesOf, scale,
        getD_map_of_lt hk]
      have hround :=
        ((hwithin _ (Vec.getD_mem hk 0)).rounded_mul hrecip.within (by omega)
          (by omega)).abs_sub_le
      rwa [abs_mul, abs_of_nonneg hr, mul_comm |_| (toReal _), ← mul_assoc]
        at hround
    have hnear :=
      near_of_elements (b := SlicedMatrix.magnitudesOf y) (Array.size_map ..)
        (mul_nonneg hu hr) hω.le helements
    -- the smallest numbers together are no more than the relative part
    have hcount :
        (y.size : ℝ) * smallest α ≤ roundoff α * (toReal r * lengthOf y) :=
      calc (y.size : ℝ) * smallest α ≤ 2 ^ q * smallest α :=
            mul_le_mul_of_nonneg_right (by exact_mod_cast hsize) hω.le
        _ ≤ roundoff α * 2 ^ (-(q + 1) : ℤ) := by
            rw [roundoff_eq, smallest_eq, ← zpow_natCast,
              ← zpow_add₀ two_ne_zero, ← zpow_add₀ two_ne_zero]
            exact zpow_le_zpow.mpr (by omega)
        _ ≤ _ := mul_le_mul_of_nonneg_left hlong hu
    rw [norm_magnitudesOf] at hnear
    exact hnear.mono (by linarith)

end Norm

end Vec

namespace SlicedMatrix

/-- The matrix is large enough, in relation to the format, for an estimate from
a start of which `s` bits cancel. -/
structure Estimable (A : SlicedMatrix α) (a b q s : ℕ) :
    Prop extends A.Tame b q where
  mass : (2 : ℝ) ^ (-a : ℤ) ≤ A.massNorm
  deep : 4 * (s + a + q) + 12 ≤ (model α).exponentBias
  fine : q + s + 8 ≤ (model α).mantissaBits

theorem Estimable.le_massNorm_mul {A : SlicedMatrix α} {a b q s : ℕ}
    (hA : A.Estimable a b q s) {c k : ℤ} {l : ℝ} (hl : (2 : ℝ) ^ c ≤ l)
    (hk : k ≤ c - a) : (2 : ℝ) ^ k ≤ A.massNorm * l := by
  refine le_trans ?_
    (mul_le_mul hA.mass hl (zpow_pos two_pos c).le A.massNorm_nonneg)
  rw [← zpow_add₀ two_ne_zero]
  exact zpow_le_zpow.mpr (by omega)

theorem Estimable.dims_ne {A : SlicedMatrix α} {a b q s : ℕ}
    (hA : A.Estimable a b q s) :
    ¬ (A.rows = 0 ∨ A.cols = 0) := by
  intro hempty
  refine absurd hA.mass (not_le.mpr ?_)
  have hzero : A.massNorm = 0 := by
    rw [massNorm, SpectralNorm.frobenius]
    rcases hempty with h | h <;> rw [h] <;> simp [ExactField.sqrt_zero]
  rw [hzero]
  exact zpow_pos two_pos _

/-- Between two iterations: `x` is almost a unit vector, and its image has
length `κ` at least, relative to `x`. -/
structure Carries (A : SlicedMatrix α) (q : ℕ) (κ : ℝ) (x w : Array α) :
    Prop where
  size_unit : x.size = A.cols
  size_image : w.size = A.rows
  unit : ∀ v ∈ x, Within 2 1 v
  long : (2 : ℝ) ^ (-(q + 2) : ℤ) ≤ lengthOf x
  image : κ * lengthOf x ≤ lengthOf (A.product .normal 1 0 x w)

end SlicedMatrix

namespace SpectralNorm

open SlicedMatrix

variable {A : SlicedMatrix α} (h : A.check = .ok (.ok ())) (hroom : A.HasRoom)
  {a b q s : ℕ} (hA : A.Estimable a b q s)

include h hroom hA

/-- From a second product of some length to the next unit vector. -/
theorem carries_of_second {w x₀ : Array α} {κ : ℝ} {c d : ℤ}
    (hw : w.size = A.rows) (hx₀ : x₀.size = A.cols)
    (hnear : Near A.cols ((A.product .transposed 1 0 w x₀).map toReal)
      (denseProducts A.realEntry .transposed (w.map toReal) (x₀.map toReal))
      (A.slack q * lengthOf w))
    (hd : ∀ v ∈ A.product .transposed 1 0 w x₀, Within d 1 v)
    (hpos : 0 < lengthOf w)
    (hκ : κ * lengthOf w ≤ lengthOf (A.product .transposed 1 0 w x₀))
    (hκ' : κ ≤ A.massNorm)
    (hc : (2 : ℝ) ^ c ≤ lengthOf (A.product .transposed 1 0 w x₀))
    (hlo : (model α).minExponent ≤ 2 * (c - q))
    (hhi : 2 * d + q + 2 ≤ (model α).exponentBias) :
    let y := A.product .transposed 1 0 w x₀
    ∃ i, c - q ≤ i ∧ i ≤ d ∧ Between .positive i (i + 1 + q) (normalize y).1
      ∧ A.Carries q (κ - 3 * A.slack q) (normalize y).2 w := by
  intro y
  have hmin := minExponent_eq (model α)
  have hroomy := hA.room
  have hdeep := hA.deep
  have hfine := hA.fine
  have hysize : y.size = A.cols :=
    (size_product A .transposed 1 0 w x₀).trans hx₀
  obtain ⟨i, hci, hid, hnorm, hunit, ρ, hρ, hlong, halong⟩ := normalize_near hd
    (hysize.trans_le hA.cols_le) (by omega) hc hlo hhi (by omega)
  have hu := roundoff_nonneg α
  have hu' : 8 * roundoff α ≤ 1 := by
    rw [roundoff_eq, show (8 : ℝ) = 2 ^ (3 : ℤ) by norm_num,
      ← zpow_add₀ two_ne_zero]
    exact zpow_le_one_of_nonpos₀ one_le_two (by omega)
  have hxsize : (normalize y).2.size = A.cols := (size_normalize y).trans hysize
  have hysize' : (y.map toReal).size = A.cols :=
    (Array.size_map ..).trans hysize
  have hxsize' : ((normalize y).2.map toReal).size = A.cols :=
    (Array.size_map ..).trans hxsize
  rw [hysize] at halong
  have haligned :=
    halong.aligned hxsize' hysize' hρ (by positivity) (by linarith)
  -- the unit vector is not much shorter than one
  have hx : (2 : ℝ) ^ (-(q + 2) : ℤ) ≤ lengthOf (normalize y).2 := by
    have hle := (halong.norm_le hxsize' ((size_scale _ ρ).trans hysize')
      (mul_nonneg (by positivity) (mul_nonneg hρ (lengthOf_nonneg y)))).2
    rw [norm_scale _ hρ] at hle
    have hhalf : (2 : ℝ) ^ (-(q + 2) : ℤ) * 2 = 2 ^ (-(q + 1) : ℤ) := by
      rw [← zpow_add_one₀ two_ne_zero]
      congr 1
    change ρ * lengthOf y ≤ lengthOf (normalize y).2 + _ at hle
    nlinarith [zpow_pos (two_pos (α := ℝ)) (-(q + 2) : ℤ)]
  have himage :=
    product_near h hroom hA.toSized hA.values .normal (y := w) hunit hxsize hw
      (by omega) (by omega) (by omega) (hA.le_massNorm_mul hx (by omega))
  have hlength := image_of_near hxsize' ((Array.size_map ..).trans hw)
    ((Array.size_map ..).trans hx₀) ((Array.size_map ..).trans hw)
    ((Array.size_map ..).trans ((size_product A .normal 1 0 _ w).trans hw))
    hnear himage haligned (by linarith) hpos hκ
  refine ⟨i, hci, hid, hnorm, hxsize, hw, hunit, hx, le_trans ?_ hlength⟩
  refine mul_le_mul_of_nonneg_right ?_ (lengthOf_nonneg _)
  have hturn : 2 * (2 * roundoff α) * κ ≤ A.slack q := by
    rw [slack_eq]
    refine (mul_le_mul_of_nonneg_left hκ' (by positivity)).trans
      (mul_le_mul_of_nonneg_right ?_ A.massNorm_nonneg)
    nlinarith [one_le_pow₀ (one_le_two (α := ℝ)) (n := q)]
  linarith

/-- One iteration gives a positive estimate, and loses no more than five times
the slack. -/
theorem carries_next {x w : Array α} {κ : ℝ} (hx : A.Carries q κ x w)
    (hlow : (2 : ℝ) ^ (-(s + 1) : ℤ) * A.massNorm ≤ κ) (hκ : κ ≤ A.massNorm) :
    let image := A.product .normal 1 0 x w
    let unit := normalize (A.product .transposed 1 0 image x)
    (norm image == 0) = false
      ∧ (∃ c d, Between .positive c d (unit.1 / norm image))
      ∧ A.Carries q (κ - 5 * A.slack q) unit.2 image := by
  intro image unit
  have hmin := minExponent_eq (model α)
  have hroomy := hA.room
  have hdeep := hA.deep
  have hfine := hA.fine
  have hF : 0 < A.massNorm := (zpow_pos two_pos _).trans_le hA.mass
  have hE := A.slack_nonneg q
  have hsize : image.size = A.rows :=
    (size_product A .normal 1 0 x w).trans hx.size_image
  obtain ⟨-, himage, -⟩ :=
    product_range h hroom hA.toTame .normal (y := w) hx.unit
      (hx.size_image.trans_le hA.rows_le) (by omega) (by omega) (by omega)
  -- the image and the second product have a length in relation to the format
  have hlength : (2 : ℝ) ^ (-(s + a + q + 3) : ℤ) ≤ lengthOf image := by
    refine le_trans ?_
      ((mul_le_mul_of_nonneg_right hlow (lengthOf_nonneg x)).trans hx.image)
    rw [mul_assoc, show (-(s + a + q + 3) : ℤ)
      = -(s + 1) + (-(q + 2) - a) by ring, zpow_add₀ two_ne_zero]
    exact mul_le_mul_of_nonneg_left (hA.le_massNorm_mul hx.long le_rfl)
      (zpow_pos two_pos _).le
  obtain ⟨i, hci, hib, -, hwithin, hnorm⟩ := between_norm himage
    (hsize.trans_le hA.rows_le) hA.precise.le hlength (by omega) (by omega)
  have hnear := product_near h hroom hA.toSized hA.values .normal
    (y := w) hx.unit hx.size_unit hx.size_image (by omega) (by omega) (by omega)
    (hA.le_massNorm_mul hx.long (by omega))
  have hnear' := product_near h hroom hA.toSized hA.values .transposed
    (y := x) hwithin hsize hx.size_unit (by omega) (by omega) (by omega)
    (hA.le_massNorm_mul hlength (by omega))
  have hsecond := second_of_near ((Array.size_map ..).trans hx.size_unit)
    ((Array.size_map ..).trans hsize) ((Array.size_map ..).trans
      ((size_product A .transposed 1 0 image x).trans hx.size_unit))
    ((Array.size_map ..).trans hx.size_unit)
    ((Array.size_map ..).trans hx.size_image) hnear hnear'
    ((zpow_pos two_pos _).trans_le hx.long) hx.image
  have hhalf : (2 : ℝ) ^ (-(s + 2) : ℤ) * A.massNorm ≤ κ - 2 * A.slack q := by
    have hslack := A.slack_le (q := q) (k := s + 3) (by omega)
    have hsplit : (2 : ℝ) ^ (-(s + 1) : ℤ) = 2 * 2 ^ (-(s + 2) : ℤ)
        ∧ (2 : ℝ) ^ (-(s + 2) : ℤ) = 2 * 2 ^ (-(s + 3 : ℕ) : ℤ) := by
      rw [← zpow_one_add₀ two_ne_zero, ← zpow_one_add₀ two_ne_zero]
      constructor <;> congr 1
    rw [hsplit.1] at hlow
    rw [hsplit.2] at hlow ⊢
    linarith
  have hlength' : (2 : ℝ) ^ (-(2 * s + 2 * a + q + 5) : ℤ)
      ≤ lengthOf (A.product .transposed 1 0 image x) := by
    refine le_trans ?_
      ((mul_le_mul_of_nonneg_right hhalf (lengthOf_nonneg image)).trans hsecond)
    rw [mul_assoc, show (-(2 * s + 2 * a + q + 5) : ℤ)
      = -(s + 2) + (-(s + a + q + 3) - a) by ring, zpow_add₀ two_ne_zero]
    exact mul_le_mul_of_nonneg_left (hA.le_massNorm_mul hlength le_rfl)
      (zpow_pos two_pos _).le
  obtain ⟨-, hrange, -⟩ :=
    product_range h hroom hA.toTame .transposed (y := x) hwithin
      (hx.size_unit.trans_le hA.cols_le) (by omega) (by omega) (by omega)
  obtain ⟨j, hcj, hjd, hlast, hcarries⟩ := carries_of_second h hroom hA hsize
    hx.size_unit hnear' hrange ((zpow_pos two_pos _).trans_le hlength) hsecond
    (by linarith) hlength' (by omega) (by omega)
  refine ⟨?_, ⟨_, _, hlast.div hnorm (by omega) (by omega)⟩, ?_⟩
  · rw [Bool.eq_false_iff, ne_eq, beq_zero_iff hnorm.finite]
    exact hnorm.toReal_pos.ne'
  · convert hcarries using 1
    ring

/-- From a state that carries enough for all iterations that are left, the
estimate is positive, unless there are no iterations left. -/
theorem iterateOn_pos (tol : α) (budget : ℕ) {last : α} {x w : Array α} {κ : ℝ}
    (hx : A.Carries q κ x w) (hκ : κ ≤ A.massNorm)
    (hlow : (2 : ℝ) ^ (-(s + 1) : ℤ) * A.massNorm + 5 * budget * A.slack q ≤ κ)
    (hlast : budget = 0 → ∃ c d, Between .positive c d last) :
    ∃ c d, Between .positive c d
      (iterateOn (fun shape x y =>
        A.product shape 1 0 x y) tol budget last x w) := by
  have hE := A.slack_nonneg q
  induction budget generalizing last x w κ with
  | zero => exact hlast rfl
  | succ budget ih =>
    push_cast at hlow
    have hleft : 0 ≤ 5 * (budget + 1 : ℝ) * A.slack q := by positivity
    obtain ⟨himage, hestimate, hnext⟩ :=
      carries_next h hroom hA hx (by linarith) hκ
    rw [iterateOn]
    dsimp only
    rw [if_neg (Bool.eq_false_iff.mp himage)]
    split
    · exact hestimate
    · exact ih hnext (by linarith) (by linarith) fun _ => hestimate

/-- A clear start carries enough for many iterations. -/
theorem carries_start {w x₀ : Array α} (hw : w.size = A.rows)
    (hx₀ : x₀.size = A.cols) (hwithin : ∀ v ∈ w, Within q 1 v)
    (hlong : 1 ≤ lengthOf w) (hclear : A.Clear s w) :
    let unit := normalize (A.product .transposed 1 0 w x₀)
    (unit.1 == 0) = false
      ∧ A.Carries q (2 ^ (-s : ℤ) * A.massNorm - 4 * A.slack q) unit.2 w := by
  intro unit
  have hmin := minExponent_eq (model α)
  have hroomy := hA.room
  have hdeep := hA.deep
  have hfine := hA.fine
  have hF : 0 < A.massNorm := (zpow_pos two_pos _).trans_le hA.mass
  have hE := A.slack_nonneg q
  have hlong' : (2 : ℝ) ^ (0 : ℤ) ≤ lengthOf w :=
    hlong.trans_eq' (zpow_zero 2).symm
  have hnear := product_near h hroom hA.toSized hA.values .transposed
    (y := x₀) hwithin hw hx₀
    (by omega) (by omega) (by omega) (hA.le_massNorm_mul hlong' (by omega))
  have hκ : 2 ^ (-s : ℤ) * A.massNorm * lengthOf w
      ≤ norm (denseProducts A.realEntry .transposed (w.map toReal)
        (x₀.map toReal)) := by
    have hzeros :
        (x₀.map toReal).size = (Array.replicate A.cols (0 : ℝ)).size :=
      ((Array.size_map ..).trans hx₀).trans Array.size_replicate.symm
    rw [denseProducts_congr A.realEntry .transposed _ hzeros, mul_assoc,
      zpow_neg, zpow_natCast]
    exact inv_mul_le_of_le_mul₀ (by positivity) (norm_nonneg _) hclear.le
  have hysize : (A.product .transposed 1 0 w x₀).size = A.cols :=
    (size_product A .transposed 1 0 w x₀).trans hx₀
  have hstart := start_of_near ((Array.size_map ..).trans hysize)
    ((Array.size_map ..).trans hx₀) hnear hE hκ
  have hhalf : (2 : ℝ) ^ (-(s + 1) : ℤ) * A.massNorm
      ≤ 2 ^ (-s : ℤ) * A.massNorm - A.slack q := by
    have hslack := A.slack_le (q := q) (k := s + 1) (by omega)
    rw [two_zpow_neg s]
    push_cast at hslack
    linarith
  have hlength : (2 : ℝ) ^ (-(s + 1 + a) : ℤ)
      ≤ lengthOf (A.product .transposed 1 0 w x₀) := by
    refine le_trans ?_
      ((mul_le_mul_of_nonneg_right hhalf (lengthOf_nonneg w)).trans hstart)
    rw [mul_assoc, show (-(s + 1 + a) : ℤ) = -(s + 1) + (0 - a) by ring,
      zpow_add₀ two_ne_zero]
    exact mul_le_mul_of_nonneg_left (hA.le_massNorm_mul hlong' le_rfl)
      (zpow_pos two_pos _).le
  obtain ⟨-, hrange, -⟩ :=
    product_range h hroom hA.toTame .transposed (y := x₀) hwithin
      (hx₀.trans_le hA.cols_le) (by omega) (by omega) (by omega)
  have hsmall : 2 ^ (-s : ℤ) * A.massNorm ≤ A.massNorm :=
    mul_le_of_le_one_left hF.le (zpow_le_one_of_nonpos₀ one_le_two (by omega))
  obtain ⟨i, -, -, hnorm, hcarries⟩ :=
    carries_of_second h hroom hA hw hx₀ hnear hrange
      (by linarith) hstart (by linarith) hlength (by omega) (by omega)
  refine ⟨?_, ?_⟩
  · rw [Bool.eq_false_iff, ne_eq, beq_zero_iff hnorm.finite]
    exact hnorm.toReal_pos.ne'
  · convert hcarries using 1
    ring

omit h hroom hA in
theorem normalize_fst_beq_zero (y : Array α) :
    ((normalize y).1 == 0) = (norm y == 0) := by
  unfold Vec.normalize
  dsimp only
  split
  · next hzero => rw [hzero, zero_beq_zero]
  · rfl

omit h hroom hA in
theorem one_le_lengthOf {w : Array α} (h : 1 ≤ toReal (w.getD 0 0)) :
    1 ≤ lengthOf w := by
  have := abs_getD_le_norm (w.map toReal) 0
  rw [getD_map_toReal] at this
  exact h.trans ((le_abs_self _).trans this)

/-- **An estimate from a clear start is positive.** -/
theorem estimateOn_pos (tol : α) {budget L : ℕ} (hpos : 0 < budget)
    (hbudget : budget < 2 ^ L) (hfine : q + L + s + 8 ≤ (model α).mantissaBits)
    (hclear : A.Clear s A.startVector) :
    ∃ c d, Between .positive c d
      (estimateOn (fun shape x y =>
        A.product shape 1 0 x y) A.rows A.cols budget tol) := by
  have hempty := hA.dims_ne
  have hF : 0 < A.massNorm := (zpow_pos two_pos _).trans_le hA.mass
  have hE := A.slack_nonneg q
  -- what a clear start carries is enough for the budget
  have henough : (2 : ℝ) ^ (-(s + 1) : ℤ) * A.massNorm + 5 * budget * A.slack q
      ≤ 2 ^ (-s : ℤ) * A.massNorm - 4 * A.slack q := by
    have hslack := A.slack_le (q := q) (k := s + L + 4) (by omega)
    have hcount : (5 * budget + 4 : ℝ) ≤ 2 ^ (L + 3) := by
      have : 5 * budget + 4 ≤ 2 ^ (L + 3) := by
        rw [pow_add]
        omega
      exact_mod_cast this
    have hspent :
        (5 * budget + 4 : ℝ) * A.slack q ≤ 2 ^ (-(s + 1) : ℤ) * A.massNorm :=
      calc (5 * budget + 4 : ℝ) * A.slack q
          ≤ 2 ^ (L + 3) * (2 ^ (-(s + L + 4 : ℕ) : ℤ) * A.massNorm) :=
            mul_le_mul hcount hslack hE (by positivity)
        _ = 2 ^ (-(s + 1) : ℤ) * A.massNorm := by
            rw [← mul_assoc, ← zpow_natCast, ← zpow_add₀ two_ne_zero]
            congr 2
            push_cast
            ring
    rw [two_zpow_neg s]
    linarith
  have hcarried : 2 ^ (-s : ℤ) * A.massNorm - 4 * A.slack q ≤ A.massNorm := by
    have : 2 ^ (-s : ℤ) * A.massNorm ≤ A.massNorm :=
      mul_le_of_le_one_left hF.le (zpow_le_one_of_nonpos₀ one_le_two (by omega))
    linarith
  have hzeros : (Array.replicate A.cols (0 : α)).size = A.cols :=
    Array.size_replicate
  have hsize := A.size_startVector
  have hrange := startVector_range hA.rows_le hA.precise
  have hlong : 1 ≤ lengthOf A.startVector := by
    have hrows : 0 < A.startVector.size :=
      (Nat.pos_of_ne_zero fun h0 => hempty (.inl h0)).trans_eq hsize.symm
    exact one_le_lengthOf (hrange _ (Vec.getD_mem hrows 0)).1
  have hwithin := fun v hv => (hrange v hv).2
  clear hrange
  unfold estimateOn
  rw [if_neg hempty]
  dsimp only
  rw [normalize_fst_beq_zero]
  unfold startVector at hclear hsize hlong hwithin
  split at hclear
  · next hvanish =>
    rw [if_pos hvanish] at hsize hlong hwithin ⊢
    obtain ⟨hunit, hcarries⟩ := carries_start h hroom hA hsize ((size_normalize
        (A.product .transposed 1 0 (.replicate A.rows 1) _)).trans
        ((size_product A .transposed 1 0 _ _).trans hzeros))
      hwithin hlong hclear
    rw [if_neg (Bool.eq_false_iff.mp hunit)]
    exact iterateOn_pos h hroom hA tol budget hcarries hcarried henough
      fun h0 => absurd h0 hpos.ne'
  · next hvanish =>
    rw [if_neg hvanish] at hsize hlong hwithin ⊢
    obtain ⟨-, hcarries⟩ :=
      carries_start h hroom hA hsize hzeros hwithin hlong hclear
    exact iterateOn_pos h hroom hA tol budget hcarries hcarried henough
      fun h0 => absurd h0 hpos.ne'

end SpectralNorm

end Equilibration
