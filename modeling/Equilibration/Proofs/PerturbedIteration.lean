import Equilibration.Proofs.PowerIteration

/-!
# PerturbedIteration — power iteration with errors

What is left of the rise of the estimates (`SpectralNorm.rises_from`) if every
vector of an iteration is a little off. From `x` the iteration goes to
`w ≈ A * x`, to `y ≈ A' * w` and to a multiple of `y`, and each of them may
differ from the exact vector by a part of its length (`Vec.Near`). The ratio of
the lengths, which without errors never falls, then falls by a few times the
part in question (`second_of_near`, `image_of_near`).
-/

namespace Equilibration

namespace Vec

variable {K : Type} [ExactField K] {n : ℕ} {x x₀ y : Array K} {η : K}

theorem inner_comm (n : ℕ) (x y : Array K) : inner n x y = inner n y x :=
  Finset.sum_congr rfl fun _ _ => mul_comm _ _

theorem norm_mul_norm_of_size (hx : x.size = n) :
    norm x * norm x = inner n x x :=
  hx ▸ norm_mul_norm x

theorem abs_getD_le_norm (x : Array K) (i : ℕ) : |x.getD i 0| ≤ norm x := by
  refine abs_le_of_sq_le_sq ?_ (norm_nonneg x)
  rw [sq, sq, norm_mul_norm]
  by_cases hi : i < x.size
  · exact Finset.single_le_sum (f := fun i => x.getD i 0 * x.getD i 0)
      (fun i _ => mul_self_nonneg (x.getD i 0)) (Finset.mem_range.mpr hi)
  · rw [Array.getD, dif_neg hi, mul_zero]
    exact Finset.sum_nonneg fun i _ => mul_self_nonneg (x.getD i 0)

/-- A bound for the elements, as a bound for the norm. -/
theorem norm_le_of_elements {M : K} (hM : 0 ≤ M)
    (h : ∀ i < x.size, |x.getD i 0| ≤ M) :
    norm x ≤ x.size * M := by
  refine (abs_le_of_sq_le_sq' ?_ (mul_nonneg (Nat.cast_nonneg _) hM)).2
  have hcount : (x.size : K) ≤ x.size * x.size := by
    exact_mod_cast Nat.le_mul_self x.size
  calc norm x ^ 2 = ∑ i ∈ Finset.range x.size, x.getD i 0 * x.getD i 0 := by
        rw [sq, norm_mul_norm]
        rfl
    _ ≤ ∑ i ∈ Finset.range x.size, M * M := by
        refine Finset.sum_le_sum fun i hi => ?_
        rw [← abs_mul_abs_self]
        exact mul_self_le_mul_self (abs_nonneg _) (h i (Finset.mem_range.mp hi))
    _ = x.size * (M * M) := by
        rw [Finset.sum_const, Finset.card_range, nsmul_eq_mul]
    _ ≤ x.size * x.size * (M * M) :=
        mul_le_mul_of_nonneg_right hcount (mul_self_nonneg M)
    _ = (x.size * M) ^ 2 := by ring

/-- Along every vector, `x` differs from `x₀` by at most `η` times its
length. -/
def Near (n : ℕ) (x x₀ : Array K) (η : K) : Prop :=
  ∀ u : Array K, u.size = n → |inner n x u - inner n x₀ u| ≤ η * norm u

/-- Vectors are near each other if their elements are. -/
theorem near_of_elements {b : Array K} {γ c : K} (hb : b.size = n) (hγ : 0 ≤ γ)
    (hc : 0 ≤ c)
    (h : ∀ i < n, |x.getD i 0 - x₀.getD i 0| ≤ γ * b.getD i 0 + c) :
    Near n x x₀ (γ * norm b + n * c) := by
  intro u hu
  have hcauchy :
      ∑ i ∈ Finset.range n, b.getD i 0 * |u.getD i 0| ≤ norm b * norm u := by
    refine (abs_le_of_sq_le_sq' ?_
        (mul_nonneg (norm_nonneg b) (norm_nonneg u))).2
    rw [mul_pow, sq (norm b), sq (norm u), norm_mul_norm_of_size hb,
      norm_mul_norm_of_size hu]
    refine (Finset.sum_mul_sq_le_sq_mul_sq _ _ _).trans_eq ?_
    simp only [inner, sq, abs_mul_abs_self]
  have hcount : ∑ i ∈ Finset.range n, |u.getD i 0| ≤ n * norm u := by
    refine (Finset.sum_le_sum fun i _ => abs_getD_le_norm u i).trans_eq ?_
    rw [Finset.sum_const, Finset.card_range, nsmul_eq_mul]
  calc |inner n x u - inner n x₀ u|
      = |∑ i ∈ Finset.range n, (x.getD i 0 - x₀.getD i 0) * u.getD i 0| := by
        rw [inner, inner, ← Finset.sum_sub_distrib]
        simp only [sub_mul]
    _ ≤ ∑ i ∈ Finset.range n, (γ * (b.getD i 0 * |u.getD i 0|)
          + c * |u.getD i 0|) := by
        refine (Finset.abs_sum_le_sum_abs _ _).trans
          (Finset.sum_le_sum fun i hi => ?_)
        rw [abs_mul, ← mul_assoc, ← add_mul]
        exact mul_le_mul_of_nonneg_right (h i (Finset.mem_range.mp hi))
          (abs_nonneg _)
    _ = γ * ∑ i ∈ Finset.range n, b.getD i 0 * |u.getD i 0|
          + c * ∑ i ∈ Finset.range n, |u.getD i 0| := by
        rw [Finset.sum_add_distrib, Finset.mul_sum, Finset.mul_sum]
    _ ≤ γ * (norm b * norm u) + c * (n * norm u) :=
        add_le_add (mul_le_mul_of_nonneg_left hcauchy hγ)
          (mul_le_mul_of_nonneg_left hcount hc)
    _ = (γ * norm b + n * c) * norm u := by ring

namespace Near

theorem mono {η' : K} (h : Near n x x₀ η) (hle : η ≤ η') : Near n x x₀ η' :=
  fun u hu =>
  (h u hu).trans (mul_le_mul_of_nonneg_right hle (norm_nonneg u))

/-- Neither of the two is much longer than the other. -/
theorem norm_le (h : Near n x x₀ η) (hx : x.size = n) (hx₀ : x₀.size = n)
    (hη : 0 ≤ η) :
    norm x ≤ norm x₀ + η ∧ norm x₀ ≤ norm x + η := by
  have hcancel : ∀ {s t : K}, 0 ≤ s → 0 ≤ t → s * s ≤ t * s → s ≤ t :=
    fun {s t} hs ht hle => by
    rcases hs.eq_or_lt with rfl | hs
    · exact ht
    · exact le_of_mul_le_mul_right hle hs
  constructor
  · refine hcancel (norm_nonneg x) (add_nonneg (norm_nonneg x₀) hη) ?_
    rw [norm_mul_norm_of_size hx, add_mul]
    have := (abs_le.mp (h x hx)).2
    linarith [inner_le_norm_mul_norm hx₀ hx]
  · refine hcancel (norm_nonneg x₀) (add_nonneg (norm_nonneg x) hη) ?_
    rw [norm_mul_norm_of_size hx₀, add_mul]
    have := (abs_le.mp (h x₀ hx₀)).1
    linarith [inner_le_norm_mul_norm hx hx₀]

/-- A vector that is near a multiple of `y` points almost in its direction. -/
theorem aligned {ρ ε : K} (h : Near n x (scale y ρ) (ε * (ρ * norm y)))
    (hx : x.size = n) (hy : y.size = n) (hρ : 0 ≤ ρ) (hε : 0 ≤ ε)
    (hε' : 2 * ε ≤ 1) :
    (1 - 2 * ε) * (norm y * norm x) ≤ inner n y x := by
  have hρy : 0 ≤ ρ * norm y := mul_nonneg hρ (norm_nonneg y)
  have hnorm := (h.norm_le hx ((size_scale y ρ).trans hy) (mul_nonneg hε hρy)).1
  rw [norm_scale y hρ] at hnorm
  have halong := (abs_le.mp (h y hy)).1
  rw [inner_scale, ← norm_mul_norm_of_size hy, inner_comm] at halong
  calc (1 - 2 * ε) * (norm y * norm x)
      ≤ (1 - 2 * ε) * (norm y * (ρ * norm y + ε * (ρ * norm y))) :=
        mul_le_mul_of_nonneg_left
          (mul_le_mul_of_nonneg_left hnorm (norm_nonneg y)) (by linarith)
    _ = (1 - ε) * (ρ * norm y * norm y)
        - 2 * (ε * ε) * (ρ * norm y * norm y) := by ring
    _ ≤ (1 - ε) * (ρ * norm y * norm y) :=
        sub_le_self _ (mul_nonneg (mul_nonneg two_pos.le (mul_nonneg hε hε))
          (mul_nonneg hρy (norm_nonneg y)))
    _ ≤ inner n y x := by linarith

end Near

end Vec

namespace SpectralNorm

open Vec

variable {K : Type} [ExactField K] {a : ℕ → ℕ → K} {rows cols : ℕ}

/-- The Frobenius norm is a bound of the matrix and of its transposed. -/
theorem norm_denseProducts_le (shape : Shape) {x y : Array K}
    (hx : x.size = shape.domain rows cols)
    (hy : y.size = shape.codomain rows cols) :
    norm (denseProducts a shape x y) ≤ frobenius a rows cols * norm x := by
  cases shape with
  | normal =>
    have hflip :
        frobenius (fun i j => a j i) cols rows = frobenius a rows cols := by
      rw [frobenius, frobenius, Finset.sum_comm]
    rw [← hflip,
      denseProducts_congr a .normal x (hy.trans Array.size_replicate.symm)]
    exact norm_transposed_le (a := fun i j => a j i) hx
  | transposed =>
    rw [denseProducts_congr a .transposed x
      (hy.trans Array.size_replicate.symm)]
    exact norm_transposed_le hx

variable {x w y x₀ w₀ : Array K} {E κ : K} (hx : x.size = cols)
  (hw : w.size = rows) (hy : y.size = cols) (hx₀ : x₀.size = cols)
  (hw₀ : w₀.size = rows)

include hy hx₀ in
/-- The product of the start vector, if its exact product has length `κ` at
least, relative to the vector. -/
theorem start_of_near
    (hsecond : Near cols y (denseProducts a .transposed w x₀) (E * norm w))
    (hE : 0 ≤ E) (hκ : κ * norm w ≤ norm (denseProducts a .transposed w x₀)) :
    (κ - E) * norm w ≤ norm y := by
  have :=
    (hsecond.norm_le hy ((size_denseProducts a .transposed w x₀).trans hx₀)
      (mul_nonneg hE (norm_nonneg w))).2
  linarith

include hx hw hx₀ hw₀

include hy in
/-- The second product of an iteration, if the first one has length `κ` at
least, relative to its vector. -/
theorem second_of_near
    (himage : Near rows w (denseProducts a .normal x w₀) (E * norm x))
    (hsecond : Near cols y (denseProducts a .transposed w x₀) (E * norm w))
    (hpos : 0 < norm x) (hκ : κ * norm x ≤ norm w) :
    (κ - 2 * E) * norm w ≤ norm y := by
  have hforth := (abs_le.mp (himage w hw)).2
  rw [inner_denseProducts a hx hw hx₀ hw₀, ← norm_mul_norm_of_size hw,
    inner_comm] at hforth
  have hback := (abs_le.mp (hsecond x hx)).1
  have hsquare := mul_le_mul_of_nonneg_left hκ (norm_nonneg w)
  refine le_of_mul_le_mul_right ?_ hpos
  calc (κ - 2 * E) * norm w * norm x
         = norm w * (κ * norm x) - 2 * (E * norm x * norm w) := by ring
    _ ≤ inner cols y x := by linarith
    _ ≤ norm y * norm x := inner_le_norm_mul_norm hy hx

/-- The image of a vector in almost the same direction as the second
product. -/
theorem image_of_near {w' : Array K} {ε : K} (hw' : w'.size = rows)
    (hsecond : Near cols y (denseProducts a .transposed w x₀) (E * norm w))
    (himage : Near rows w' (denseProducts a .normal x w₀) (E * norm x))
    (haligned : (1 - ε) * (norm y * norm x) ≤ inner cols y x) (hε : ε ≤ 1)
    (hpos : 0 < norm w) (hκ : κ * norm w ≤ norm y) :
    ((1 - ε) * κ - 2 * E) * norm x ≤ norm w' := by
  have hforth := (abs_le.mp (himage w hw)).1
  rw [inner_denseProducts a hx hw hx₀ hw₀, inner_comm cols] at hforth
  have hback := (abs_le.mp (hsecond x hx)).2
  have hlong :=
    mul_le_mul_of_nonneg_left (mul_le_mul_of_nonneg_right hκ (norm_nonneg x))
      (sub_nonneg.mpr hε)
  refine le_of_mul_le_mul_right ?_ hpos
  calc ((1 - ε) * κ - 2 * E) * norm x * norm w
      = (1 - ε) * (κ * norm w * norm x) - 2 * (E * norm x * norm w) := by ring
    _ ≤ inner rows w' w := by linarith
    _ ≤ norm w' * norm w := inner_le_norm_mul_norm hw' hw

end SpectralNorm

end Equilibration
