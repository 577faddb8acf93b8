import Mathlib.Algebra.Order.BigOperators.Ring.Finset
import Mathlib.Analysis.Real.Sqrt
import Equilibration.Proofs.ExactVectors
import Equilibration.Proofs.StatefulRuns
import Equilibration.Proofs.UnroundedRuns

/-!
# PowerIteration — estimates that rise

Without rounding, every iteration of the norm estimate raises it. From a unit
vector `x` the iteration takes the image `A * x` and from there `A' * A * x`,
and the estimate is the ratio of the two norms. Since one product is the
adjoint of the other, the ratio is at least the norm of the image that it was
computed from (`norm_image_le`), and at most that of the next one
(`rises_from`); so images, once there are any, never vanish again.

Main result: an estimate is a lower bound for every bound of the operator, and
does not fall when the budget grows (`SpectralNorm.estimates_rise`).
-/

namespace Equilibration

open Checked

/-! ## Inner products -/

namespace Vec

variable {K : Type} [ExactField K]

/-- The inner product of two vectors, over the first `n` places. -/
def inner (n : ℕ) (x y : Array K) : K :=
  ∑ i ∈ Finset.range n, x.getD i 0 * y.getD i 0

theorem sumSquares_eq_inner (x : Array K) :
    sumSquares x = inner x.size x x := by
  rw [sumSquares_eq_sum, inner, Finset.sum_range, ← Array.length_toList,
    ← Fin.sum_univ_fun_getElem]
  refine Finset.sum_congr rfl fun i _ => ?_
  have hi : i.val < x.size := i.isLt
  rw [Array.getD, dif_pos hi]
  rfl

theorem norm_mul_norm (x : Array K) : norm x * norm x = inner x.size x x := by
  rw [norm, ExactField.sqrt_mul_self (sumSquares_nonneg x), sumSquares_eq_inner]

/-- The inequality of Cauchy and Schwarz. -/
theorem inner_le_norm_mul_norm {n : ℕ} {x y : Array K} (hx : x.size = n)
    (hy : y.size = n) :
    inner n x y ≤ norm x * norm y := by
  have hsquare : inner n x y ^ 2 ≤ (norm x * norm y) ^ 2 := by
    have := Finset.sum_mul_sq_le_sq_mul_sq (Finset.range n)
      (fun i => x.getD i 0) fun i => y.getD i 0
    rw [mul_pow, sq (norm x), sq (norm y), norm_mul_norm, norm_mul_norm, hx, hy]
    simpa only [inner, sq] using this
  exact (abs_le_of_sq_le_sq' hsquare
      (mul_nonneg (norm_nonneg x) (norm_nonneg y))).2

theorem inner_scale (n : ℕ) (x y : Array K) (c : K) :
    inner n (scale x c) y = c * inner n x y := by
  rw [inner, inner, Finset.mul_sum]
  refine Finset.sum_congr rfl fun i _ => ?_
  rw [getD_scale]
  ring

/-- A vector that does not vanish is scaled to norm one. -/
theorem normalize_of_ne {x : Array K} (h : norm x ≠ 0) :
    normalize x = (norm x, scale x (norm x)⁻¹) ∧ norm (normalize x).2 = 1 := by
  have hnormalize : normalize x = (norm x, scale x (norm x)⁻¹) := by
    rw [normalize, if_neg (by rwa [beq_iff_eq]), ExactField.recip_eq]
  refine ⟨hnormalize, ?_⟩
  rw [hnormalize, norm_scale x (inv_nonneg.mpr (norm_nonneg x)),
    inv_mul_cancel₀ h]

theorem normalize_fst (x : Array K) : (normalize x).1 = norm x := by
  by_cases h : norm x = 0
  · rw [normalize, if_pos (by rwa [beq_iff_eq]), h]
  · rw [(normalize_of_ne h).1]

end Vec

namespace SpectralNorm

/-! ## The vectors of an iteration -/

section Iterates

variable {α : Type} [Scalar α] (f : Shape → Array α → Array α → Array α)
  (x w : Array α)

/-- The unit vector after `k` iterations, and the image that it comes from. -/
def iterates : ℕ → Array α × Array α
  | 0 => (x, w)
  | k + 1 =>
    let image := f .normal (iterates k).1 (iterates k).2
    ((Vec.normalize (f .transposed image (iterates k).1)).2, image)

/-- The image of the unit vector after `k` iterations. -/
def imageAfter (k : ℕ) : Array α :=
  f .normal (iterates f x w k).1 (iterates f x w k).2

/-- The estimate after `k` iterations. -/
def estimateAfter : ℕ → α
  | 0 => 0
  | k + 1 =>
    (Vec.normalize (f .transposed (imageAfter f x w k) (iterates f x w k).1)).1
      / Vec.norm (imageAfter f x w k)

/-- The estimates before and after the `k`-th iteration differ by less than the
given part of the newer one. -/
def Settled (tol : α) (k : ℕ) : Prop :=
  Scalar.abs (estimateAfter f x w k - estimateAfter f x w (k - 1))
    < tol * estimateAfter f x w k

variable {f x w} {tol : α}
  (himage : ∀ k, (Vec.norm (imageAfter f x w k) == 0) = false)

include himage

theorem iterateOn_of_settled {k : ℕ} (h : Settled f x w tol (k + 1))
    (budget : ℕ) :
    iterateOn f tol (budget + 1) (estimateAfter f x w k) (iterates f x w k).1
      (iterates f x w k).2
      = estimateAfter f x w (k + 1) := by
  rw [iterateOn]
  exact (if_neg (Bool.eq_false_iff.mp (himage k))).trans (if_pos h)

theorem iterateOn_of_not_settled {k : ℕ} (h : ¬ Settled f x w tol (k + 1))
    (budget : ℕ) :
    iterateOn f tol (budget + 1) (estimateAfter f x w k) (iterates f x w k).1
      (iterates f x w k).2
      = iterateOn f tol budget (estimateAfter f x w (k + 1))
        (iterates f x w (k + 1)).1
        (iterates f x w (k + 1)).2 := by
  rw [iterateOn]
  exact (if_neg (Bool.eq_false_iff.mp (himage k))).trans (if_neg h)

theorem iterateOn_of_moves (k : ℕ)
    (h : ∀ l, 0 < l → l ≤ k → ¬ Settled f x w tol l) (left : ℕ) :
    iterateOn f tol (left + k) 0 x w
      = iterateOn f tol left (estimateAfter f x w k) (iterates f x w k).1
        (iterates f x w k).2 := by
  induction k generalizing left with
  | zero => rfl
  | succ k ih =>
    rw [show left + (k + 1) = left + 1 + k by omega,
      ih (fun l hl hlk => h l hl (Nat.le_succ_of_le hlk)),
      iterateOn_of_not_settled himage (h (k + 1) k.succ_pos le_rfl)]

/-- While no image vanishes, the estimate is that of the iteration at which the
run stops. -/
theorem iterateOn_eq_estimateAfter {budget n : ℕ} {settled : Bool}
    (h : Stops (Settled f x w tol) budget n settled) :
    iterateOn f tol budget 0 x w = estimateAfter f x w n := by
  cases n with
  | zero =>
    cases settled with
    | true => exact absurd (h.close rfl).1 (lt_irrefl 0)
    | false =>
      rw [← h.spent rfl]
      rfl
  | succ n =>
    have hmoves := iterateOn_of_moves himage n
      fun l hl hln => h.not_close l hl (Nat.lt_succ_of_le hln)
    cases settled with
    | true =>
      obtain ⟨-, hlt, hclose⟩ := h.close rfl
      obtain ⟨left, rfl⟩ := Nat.exists_eq_add_of_lt hlt
      rw [show n + 1 + left + 1 = left + 1 + 1 + n by omega, hmoves]
      exact iterateOn_of_settled himage hclose _
    | false =>
      rw [← h.spent rfl, show n + 1 = 0 + 1 + n by omega, hmoves]
      by_cases hclose : Settled f x w tol (n + 1)
      · rw [iterateOn_of_settled himage hclose, Nat.zero_add, Nat.add_comm]
      · rw [iterateOn_of_not_settled himage hclose, Nat.zero_add, Nat.add_comm]
        rfl

end Iterates

/-! ## Without rounding -/

variable {K : Type} [ExactField K] (a : ℕ → ℕ → K) {rows cols : ℕ}

theorem size_denseProducts (shape : Shape) (x y : Array K) :
    (denseProducts a shape x y).size = y.size := by
  simp [denseProducts, denseProduct]

/-- One product is the adjoint of the other. -/
theorem inner_denseProducts {x u x' u' : Array K} (hx : x.size = cols)
    (hu : u.size = rows) (hx' : x'.size = cols) (hu' : u'.size = rows) :
    Vec.inner rows (denseProducts a .normal x u') u
      = Vec.inner cols x (denseProducts a .transposed u x') := by
  have hnormal : ∀ i ∈ Finset.range rows,
      (denseProducts a .normal x u').getD i 0 * u.getD i 0
        = ∑ j ∈ Finset.range cols, x.getD j 0 * (a i j * u.getD i 0) := by
    intro i hi
    rw [denseProducts, getD_denseProduct _ x
      ((Finset.mem_range.mp hi).trans_eq hu'.symm), hx, Finset.sum_mul]
    refine Finset.sum_congr rfl fun j _ => ?_
    show a i j * x.getD j 0 * u.getD i 0 = _
    ring
  have htransposed : ∀ j ∈ Finset.range cols,
      x.getD j 0 * (denseProducts a .transposed u x').getD j 0
        = ∑ i ∈ Finset.range rows, x.getD j 0 * (a i j * u.getD i 0) := by
    intro j hj
    rw [denseProducts, getD_denseProduct _ u
      ((Finset.mem_range.mp hj).trans_eq hx'.symm), hu, Finset.mul_sum]
    rfl
  rw [Vec.inner, Vec.inner, Finset.sum_congr rfl hnormal,
    Finset.sum_congr rfl htransposed, Finset.sum_comm]

/-- From a unit vector, the second product is at least the square of the
first. -/
theorem norm_image_le {x w : Array K} (hx : x.size = cols) (hw : w.size = rows)
    (hunit : Vec.norm x = 1) :
    Vec.norm (denseProducts a .normal x w)
      * Vec.norm (denseProducts a .normal x w)
      ≤ Vec.norm
        (denseProducts a .transposed (denseProducts a .normal x w) x) := by
  have himage := (size_denseProducts a .normal x w).trans hw
  have hsecond :=
    (size_denseProducts a .transposed (denseProducts a .normal x w) x).trans hx
  calc Vec.norm (denseProducts a .normal x w)
         * Vec.norm (denseProducts a .normal x w)
      = Vec.inner rows (denseProducts a .normal x w)
        (denseProducts a .normal x w) := by
        rw [Vec.norm_mul_norm, himage]
    _ = Vec.inner cols x
        (denseProducts a .transposed (denseProducts a .normal x w) x) :=
        inner_denseProducts a hx himage hx hw
    _ ≤ Vec.norm x * Vec.norm
        (denseProducts a .transposed (denseProducts a .normal x w) x) :=
        Vec.inner_le_norm_mul_norm hx hsecond
    _ = Vec.norm
        (denseProducts a .transposed (denseProducts a .normal x w) x) := by
        rw [hunit, one_mul]

/-- What comes out of a product, scaled to norm one, has an image at least as
long as the product was in relation to its vector. -/
theorem rises_from {u x w : Array K} (hu : u.size = rows) (hx : x.size = cols)
    (hw : w.size = rows)
    (hne : Vec.norm (denseProducts a .transposed u x) ≠ 0) :
    Vec.norm (denseProducts a .transposed u x)
      ≤ Vec.norm (denseProducts a .normal
          (Vec.normalize (denseProducts a .transposed u x)).2 w)
        * Vec.norm u := by
  have hy := (size_denseProducts a .transposed u x).trans hx
  have hunit :
      (Vec.normalize (denseProducts a .transposed u x)).2.size = cols :=
    (size_normalize _).trans hy
  have himage := (size_denseProducts a .normal
    (Vec.normalize (denseProducts a .transposed u x)).2 w).trans hw
  calc Vec.norm (denseProducts a .transposed u x)
      = (Vec.norm (denseProducts a .transposed u x))⁻¹
          * Vec.inner cols (denseProducts a .transposed u x)
            (denseProducts a .transposed u x) := by
        rw [← hy, ← Vec.norm_mul_norm, inv_mul_cancel_left₀ hne]
    _ = Vec.inner cols (Vec.normalize (denseProducts a .transposed u x)).2
          (denseProducts a .transposed u x) := by
        rw [(Vec.normalize_of_ne hne).1, Vec.inner_scale]
    _ = Vec.inner rows (denseProducts a .normal
          (Vec.normalize (denseProducts a .transposed u x)).2 w) u :=
        (inner_denseProducts a hunit hu hx hw).symm
    _ ≤ _ := Vec.inner_le_norm_mul_norm himage hu

/-- A product does not depend on what it overwrites. -/
theorem denseProducts_congr (shape : Shape) (x : Array K) {y y' : Array K}
    (h : y.size = y'.size) :
    denseProducts a shape x y = denseProducts a shape x y' := by
  apply Array.ext
  · rw [size_denseProducts, size_denseProducts, h]
  · intro i hi hi'
    simp only [denseProducts, denseProduct, Array.getElem_mapIdx, zero_mul]

/-- A unit vector whose image does not vanish. -/
structure Started (rows cols : ℕ) (x w : Array K) : Prop where
  size_unit : x.size = cols
  size_image : w.size = rows
  norm_unit : Vec.norm x = 1
  image_pos : 0 < Vec.norm (denseProducts a .normal x w)

variable {a}

/-- A vector that does not vanish under the transposed matrix gives a start. -/
theorem started_of_norm_ne {w z : Array K} (hw : w.size = rows)
    (hz : z.size = cols)
    (hne : Vec.norm (denseProducts a .transposed w z) ≠ 0) :
    Started a rows cols
      (Vec.normalize (denseProducts a .transposed w z)).2 w where
  size_unit :=
    (size_normalize _).trans ((size_denseProducts a .transposed w z).trans hz)
  size_image := hw
  norm_unit := (Vec.normalize_of_ne hne).2
  image_pos := by
    have hrise := rises_from a hw hz hw hne
    have hpos :=
      (Vec.norm_nonneg (denseProducts a .transposed w z)).lt_of_ne' hne
    exact pos_of_mul_pos_left (hpos.trans_le hrise) (Vec.norm_nonneg w)

namespace Started

variable {x w : Array K} (h : Started a rows cols x w)

include h

theorem sizes (k : ℕ) : (iterates (denseProducts a) x w k).1.size = cols
    ∧ (iterates (denseProducts a) x w k).2.size = rows := by
  induction k with
  | zero => exact ⟨h.size_unit, h.size_image⟩
  | succ k ih =>
    obtain ⟨hunit, himage⟩ := ih
    exact ⟨(size_normalize _).trans
      ((size_denseProducts a .transposed _ _).trans hunit),
      (size_denseProducts a .normal _ _).trans himage⟩

theorem size_imageAfter (k : ℕ) :
    (imageAfter (denseProducts a) x w k).size = rows :=
  (size_denseProducts a .normal _ _).trans (h.sizes k).2

omit h in
theorem estimateAfter_succ (k : ℕ) : estimateAfter (denseProducts a) x w (k + 1)
    = Vec.norm (denseProducts a .transposed (imageAfter (denseProducts a) x w k)
        (iterates (denseProducts a) x w k).1)
      / Vec.norm (imageAfter (denseProducts a) x w k) := by
  rw [estimateAfter, Vec.normalize_fst]

/-- The second product of an iteration does not vanish either. -/
theorem second_pos :
    0 < Vec.norm
      (denseProducts a .transposed (denseProducts a .normal x w) x) :=
  (mul_pos h.image_pos h.image_pos).trans_le
    (norm_image_le a h.size_unit h.size_image h.norm_unit)

/-- Images never vanish again. -/
theorem after (k : ℕ) : Started a rows cols (iterates (denseProducts a) x w k).1
    (iterates (denseProducts a) x w k).2 := by
  induction k with
  | zero => exact h
  | succ k ih =>
    exact started_of_norm_ne (h.size_imageAfter k) ih.size_unit
      ih.second_pos.ne'

theorem norm_imageAfter_pos (k : ℕ) :
    0 < Vec.norm (imageAfter (denseProducts a) x w k) :=
  (h.after k).image_pos

/-- An estimate is at least the norm of the image that it is made from. -/
theorem norm_imageAfter_le (k : ℕ) :
    Vec.norm (imageAfter (denseProducts a) x w k)
      ≤ estimateAfter (denseProducts a) x w (k + 1) := by
  have hk := h.after k
  rw [estimateAfter_succ, le_div_iff₀ (h.norm_imageAfter_pos k)]
  exact norm_image_le a hk.size_unit hk.size_image hk.norm_unit

/-- It is at most the norm of the next image. -/
theorem estimateAfter_le_norm (k : ℕ) :
    estimateAfter (denseProducts a) x w (k + 1)
      ≤ Vec.norm (imageAfter (denseProducts a) x w (k + 1)) := by
  have hk := h.after k
  rw [estimateAfter_succ, div_le_iff₀ (h.norm_imageAfter_pos k)]
  exact rises_from a (h.size_imageAfter k) hk.size_unit
    (h.size_imageAfter k) hk.second_pos.ne'

/-- The estimates rise. -/
theorem monotone : Monotone (estimateAfter (denseProducts a) x w) := by
  refine monotone_nat_of_le_succ fun k => ?_
  cases k with
  | zero => exact (h.norm_imageAfter_pos 0).le.trans (h.norm_imageAfter_le 0)
  | succ k =>
    exact (h.estimateAfter_le_norm k).trans (h.norm_imageAfter_le (k + 1))

theorem estimateAfter_pos {k : ℕ} (hk : 0 < k) :
    0 < estimateAfter (denseProducts a) x w k := by
  obtain ⟨k, rfl⟩ := Nat.exists_eq_succ_of_ne_zero hk.ne'
  exact (h.norm_imageAfter_pos k).trans_le (h.norm_imageAfter_le k)

/-- No estimate exceeds a bound of the transposed matrix. -/
theorem estimateAfter_le {c : K} (hc : 0 ≤ c)
    (hbound : ∀ y : Array K, y.size = rows →
      Vec.norm (denseProducts a .transposed y (.replicate cols 0))
      ≤ c * Vec.norm y)
    (k : ℕ) :
    estimateAfter (denseProducts a) x w k ≤ c := by
  cases k with
  | zero => exact hc
  | succ k =>
    have hzeros : (iterates (denseProducts a) x w k).1.size
        = (Array.replicate cols (0 : K)).size :=
      (h.sizes k).1.trans Array.size_replicate.symm
    rw [estimateAfter_succ, div_le_iff₀ (h.norm_imageAfter_pos k),
      denseProducts_congr a _ _ hzeros]
    exact hbound _ (h.size_imageAfter k)

theorem iterateOn_eq {budget n : ℕ} {settled : Bool} {tol : K}
    (hstops : Stops (Settled (denseProducts a) x w tol) budget n settled) :
    iterateOn (denseProducts a) tol budget 0 x w
      = estimateAfter (denseProducts a) x w n := by
  refine iterateOn_eq_estimateAfter (fun k => ?_) hstops
  rw [beq_eq_false_iff_ne]
  exact (h.norm_imageAfter_pos k).ne'

end Started

/-! ### Estimates -/

/-- The vector vanishes under the transposed matrix. -/
def Vanishes (a : ℕ → ℕ → K) (cols : ℕ) (w : Array K) : Prop :=
  Vec.norm (denseProducts a .transposed w (.replicate cols 0)) = 0

/-- The first unit vector from `w`. -/
def startFrom (a : ℕ → ℕ → K) (cols : ℕ) (w : Array K) : Array K :=
  (Vec.normalize (denseProducts a .transposed w (.replicate cols 0))).2

/-- The estimate has no start. -/
def NoStart (a : ℕ → ℕ → K) (rows cols : ℕ) : Prop :=
  (rows = 0 ∨ cols = 0)
    ∨ Vanishes a cols (.replicate rows 1) ∧ Vanishes a cols (ramp rows)

theorem started_startFrom {w : Array K} (hw : w.size = rows)
    (hne : ¬ Vanishes a cols w) :
    Started a rows cols (startFrom a cols w) w :=
  started_of_norm_ne hw Array.size_replicate hne

theorem estimateOn_of_noStart (h : NoStart a rows cols) (budget : ℕ) (tol : K) :
    estimateOn (denseProducts a) rows cols budget tol = 0 := by
  unfold estimateOn
  rcases h with hempty | ⟨hones, hramp⟩
  · rw [if_pos hempty]
  · have hsize : (Vec.normalize (denseProducts a .transposed (.replicate rows 1)
        (.replicate cols 0))).2.size = (Array.replicate cols (0 : K)).size :=
      (size_normalize _).trans (size_denseProducts a .transposed _ _)
    split
    · rfl
    · dsimp only
      rw [Vec.normalize_fst, if_pos (beq_iff_eq.mpr hones), Vec.normalize_fst,
        denseProducts_congr a .transposed _ hsize,
        if_pos (beq_iff_eq.mpr hramp)]

/-- With a start, the estimate iterates from the ones or from the ramp. -/
theorem estimateOn_of_start (h : ¬ NoStart a rows cols) :
    ∃ w : Array K, w.size = rows ∧ ¬ Vanishes a cols w
      ∧ ∀ (budget : ℕ)
        (tol : K), estimateOn (denseProducts a) rows cols budget tol
        = iterateOn (denseProducts a) tol budget 0 (startFrom a cols w) w := by
  obtain ⟨hempty, hstart⟩ := not_or.mp h
  have hsize : (Vec.normalize (denseProducts a .transposed (.replicate rows 1)
      (.replicate cols 0))).2.size = (Array.replicate cols (0 : K)).size :=
    (size_normalize _).trans (size_denseProducts a .transposed _ _)
  by_cases hones : Vanishes a cols (.replicate rows 1)
  · have hramp := not_and.mp hstart hones
    refine ⟨ramp rows, size_ramp rows, hramp, fun budget tol => ?_⟩
    unfold estimateOn
    rw [if_neg hempty]
    dsimp only
    rw [Vec.normalize_fst, if_pos (beq_iff_eq.mpr hones), Vec.normalize_fst,
      denseProducts_congr a .transposed _ hsize,
      if_neg (mt beq_iff_eq.mp hramp)]
    rfl
  · refine ⟨.replicate rows 1, Array.size_replicate, hones,
      fun budget tol => ?_⟩
    unfold estimateOn
    rw [if_neg hempty]
    dsimp only
    rw [Vec.normalize_fst, if_neg (mt beq_iff_eq.mp hones)]
    rfl

/-- Every estimate with a start is that of the iteration at which its run
stops. -/
theorem exists_estimateAfter (h : ¬ NoStart a rows cols) :
    ∃ w : Array K, Started a rows cols (startFrom a cols w) w
      ∧ ∀ (budget : ℕ) (tol : K),
      ∃ n settled, Stops
        (Settled (denseProducts a) (startFrom a cols w) w tol) budget n settled
        ∧ estimateOn (denseProducts a) rows cols budget tol
          = estimateAfter (denseProducts a) (startFrom a cols w) w n := by
  obtain ⟨w, hsize, hne, heq⟩ := estimateOn_of_start h
  have hstarted := started_startFrom hsize hne
  refine ⟨w, hstarted, fun budget tol => ?_⟩
  obtain ⟨n, settled, hstops⟩ := Stops.exists_stop
    (Settled (denseProducts a) (startFrom a cols w) w tol) budget
  exact ⟨n, settled, hstops,
    (heq budget tol).trans (hstarted.iterateOn_eq hstops)⟩

/-- The Frobenius norm of the matrix of a function. -/
def frobenius (a : ℕ → ℕ → K) (rows cols : ℕ) : K :=
  Scalar.sqrt (∑ i ∈ Finset.range rows, ∑ j ∈ Finset.range cols, a i j * a i j)

theorem frobenius_sum_nonneg (a : ℕ → ℕ → K) (rows cols : ℕ) :
    0 ≤ ∑ i ∈ Finset.range rows, ∑ j ∈ Finset.range cols, a i j * a i j :=
  Finset.sum_nonneg fun _ _ => Finset.sum_nonneg fun _ _ => mul_self_nonneg _

/-- The Frobenius norm is a bound of the transposed matrix. -/
theorem norm_transposed_le {y : Array K} (hy : y.size = rows) :
    Vec.norm (denseProducts a .transposed y (.replicate cols 0))
      ≤ frobenius a rows cols * Vec.norm y := by
  have hzeros : (Array.replicate cols (0 : K)).size = cols :=
    Array.size_replicate
  have hsize :=
    (size_denseProducts a .transposed y (.replicate cols 0)).trans hzeros
  have hentry : ∀ j ∈ Finset.range cols,
      (denseProducts a .transposed y (.replicate cols 0)).getD j 0
          * (denseProducts a .transposed y (.replicate cols 0)).getD j 0
        ≤ (∑ i ∈ Finset.range rows, a i j * a i j)
          * (Vec.norm y * Vec.norm y) := by
    intro j hj
    have := Finset.sum_mul_sq_le_sq_mul_sq (Finset.range rows) (fun i => a i j)
      fun i => y.getD i 0
    rw [denseProducts,
      getD_denseProduct _ y ((Finset.mem_range.mp hj).trans_eq hzeros.symm), hy,
      Vec.norm_mul_norm, hy]
    simpa only [Vec.inner, sq, Shape.entryOf] using this
  have hsquare :
      Vec.norm (denseProducts a .transposed y (.replicate cols 0)) ^ 2
        ≤ (frobenius a rows cols * Vec.norm y) ^ 2 := by
    calc Vec.norm (denseProducts a .transposed y (.replicate cols 0)) ^ 2
        = Vec.inner cols (denseProducts a .transposed y (.replicate cols 0))
            (denseProducts a .transposed y (.replicate cols 0)) := by
          rw [sq, Vec.norm_mul_norm, hsize]
      _ ≤ ∑ j ∈ Finset.range cols, (∑ i ∈ Finset.range rows, a i j * a i j)
              * (Vec.norm y * Vec.norm y) :=
          Finset.sum_le_sum hentry
      _ = (∑ i ∈ Finset.range rows, ∑ j ∈ Finset.range cols, a i j * a i j)
            * (Vec.norm y * Vec.norm y) := by
          rw [← Finset.sum_mul, Finset.sum_comm]
      _ = (frobenius a rows cols * Vec.norm y) ^ 2 := by
          rw [mul_pow, sq, sq (Vec.norm y), frobenius,
            ExactField.sqrt_mul_self (frobenius_sum_nonneg a rows cols)]
  have hnonneg :=
    mul_nonneg (ExactField.sqrt_nonneg (frobenius_sum_nonneg a rows cols))
      (Vec.norm_nonneg y)
  exact (abs_le_of_sq_le_sq' hsquare hnonneg).2

/-- What is known of an estimate, by budget and tolerance, for the matrix of
`a`. -/
structure Rises (a : ℕ → ℕ → K) (rows cols : ℕ) (r : ℕ → K → K) : Prop where
  nonneg (budget : ℕ) (tol : K) : 0 ≤ r budget tol
  /-- It exceeds no bound of the transposed matrix. -/
  le_bound (budget : ℕ) (tol : K) {c : K} (hc : 0 ≤ c)
    (hbound : ∀ y : Array K, y.size = rows →
      Vec.norm (denseProducts a .transposed y
        (.replicate cols 0)) ≤ c * Vec.norm y) :
    r budget tol ≤ c
  le_frobenius (budget : ℕ) (tol : K) : r budget tol ≤ frobenius a rows cols
  /-- It does not fall when the budget grows. -/
  mono (tol : K) : Monotone fun budget => r budget tol

theorem rises_estimateOn (a : ℕ → ℕ → K) (rows cols : ℕ) :
    Rises a rows cols (estimateOn (denseProducts a) rows cols) := by
  by_cases hstart : NoStart a rows cols
  · have hzero := estimateOn_of_noStart hstart
    exact ⟨fun budget tol => (hzero budget tol).ge,
      fun budget tol c hc _ => (hzero budget tol).trans_le hc,
      fun budget tol => (hzero budget tol).trans_le
        (ExactField.sqrt_nonneg (frobenius_sum_nonneg a rows cols)),
      fun tol budget budget' _ =>
      ((hzero budget tol).trans (hzero budget' tol).symm).le⟩
  · obtain ⟨w, hstarted, hvalue⟩ := exists_estimateAfter hstart
    have hbound : ∀ budget tol {c : K}, 0 ≤ c → (∀ y : Array K, y.size = rows →
        Vec.norm (denseProducts a .transposed y
          (.replicate cols 0)) ≤ c * Vec.norm y) →
        estimateOn (denseProducts a) rows cols budget tol ≤ c :=
      fun budget tol c hc hbound => by
      obtain ⟨n, settled, -, hn⟩ := hvalue budget tol
      exact hn.trans_le (hstarted.estimateAfter_le hc hbound n)
    refine ⟨fun budget tol => ?_, hbound, fun budget tol => ?_,
      fun tol budget budget' hle => ?_⟩
    · obtain ⟨n, settled, -, hn⟩ := hvalue budget tol
      exact (hstarted.monotone n.zero_le).trans_eq hn.symm
    · exact hbound budget tol
        (ExactField.sqrt_nonneg (frobenius_sum_nonneg a rows cols)) fun y hy =>
        norm_transposed_le hy
    · obtain ⟨n, settled, hstops, hn⟩ := hvalue budget tol
      obtain ⟨n', settled', hstops', hn'⟩ := hvalue budget' tol
      have hle' : n ≤ n' := by
        obtain ⟨hsettled, hspent⟩ := hstops.of_budget_le hstops' hle
        cases settled with
        | true => exact (hsettled rfl).1.ge
        | false => exact hstops.le_budget.trans (hspent rfl)
      exact hn.trans_le ((hstarted.monotone hle').trans_eq hn'.symm)

/-- **Estimates are lower bounds and rise with the budget**, for every operator
that multiplies by a matrix and for every matrix that was built from
well-formed arrays. From every start that does not vanish under the transposed
matrix, no image vanishes, and the result is the estimate of the iteration at
which the run stops. -/
theorem estimates_rise :
    (∀ (A : Operator Unit K) (a : ℕ → ℕ → K), A.Multiplies a →
      (A.rows = 0 ∨ A.cols = 0) ∨ A.rows < capacity ∧ A.cols < capacity →
      (∃ r, (∀ budget tol, (estimate A budget tol).run ()
        = .ok (.ok (r budget tol), ()))
        ∧ Rises a A.rows A.cols r)
      ∧ ∀ w : Array K, w.size = A.rows → ¬ Vanishes a A.cols w →
        (∀ k, Vec.norm
          (imageAfter (denseProducts a) (startFrom a A.cols w) w k) ≠ 0)
        ∧ ∀ budget tol, ∃ n settled,
          Stops (Settled (denseProducts a) (startFrom a A.cols w) w tol)
            budget n settled
          ∧ (iterate A tol budget 0 (startFrom a A.cols w) w).run ()
            = .ok (.ok
              (estimateAfter (denseProducts a) (startFrom a A.cols w) w n), ()))
    ∧ ∀ (M : SolverMatrix K) (input : MatrixInput K) (w : World)
      (out : Outcome K Unit),
      M.input? = some input → input.check = .ok (.ok ()) → M.build w = .ok out →
      (input.rows = 0 ∨ input.cols = 0)
        ∨ input.rows < capacity ∧ input.cols < capacity →
      ∃ r, (∀ options : Options K, out.matrix.normEstimate .two options
          = .ok (.ok (r options.normBudget.toNat options.normTolerance)))
        ∧ Rises input.coefficient input.rows input.cols r := by
  constructor
  · intro A a hA hroom
    refine ⟨⟨_, estimate_eq hA hroom, rises_estimateOn a A.rows A.cols⟩,
      fun w hw hne => ?_⟩
    have hstarted := started_startFrom hw hne
    refine ⟨fun k => (hstarted.norm_imageAfter_pos k).ne', fun budget tol => ?_⟩
    obtain ⟨n, settled, hstops⟩ := Stops.exists_stop
      (Settled (denseProducts a) (startFrom a A.cols w) w tol) budget
    refine ⟨n, settled, hstops, ?_⟩
    rw [iterate_eq hA tol budget 0 hstarted.size_unit hw,
      hstarted.iterateOn_eq hstops]
  · intro M input w out hinput hcheck hout hroom
    have hM := SolverMatrix.holds_of_build hcheck hinput hout
    have hrows : out.matrix.operator.rows = input.rows := hM.rows_eq
    have hcols : out.matrix.operator.cols = input.cols := hM.cols_eq
    rw [← hrows, ← hcols] at hroom
    rw [← hrows, ← hcols]
    refine ⟨_, fun options => ?_, rises_estimateOn input.coefficient _ _⟩
    exact bind_eq_ok_iff.mpr ⟨_, estimate_eq hM.multiplies hroom _ _, rfl⟩

/-- A column of three and four: the estimate is at most five, and from the ones
no image vanishes. -/
theorem estimates_rise_column :
    let _ := ExactField.ofField ℝ Real.sqrt
      (fun _ => Real.sqrt_nonneg _) Real.mul_self_sqrt
    let input : MatrixInput ℝ := ⟨.row, 2, 1, 2, #[0, 1, 2], #[0, 0], #[3, 4]⟩
    let options : Options ℝ := ⟨false, .one, .frobenius, 10, 0, 10, 0⟩
    input.check = .ok (.ok ())
      ∧ ∃ out, (SolverMatrix.ofInput input options).build
        { readings := fun n => n } = .ok out
        ∧ (∀ k, Vec.norm (imageAfter (denseProducts input.coefficient)
            (startFrom input.coefficient 1 #[1, 1]) #[1, 1] k) ≠ 0)
        ∧ ∃ r : ℕ → ℝ → ℝ,
          out.matrix.normEstimate .two options = .ok (.ok (r 10 0))
          ∧ r 1 0 ≤ r 10 0 ∧ r 10 0 ≤ 5 := by
  intro _ input options
  have hcheck : input.check = .ok (.ok ()) := by decide +kernel
  have hout :=
    (SolverMatrix.build_eq_ok_iff (M := SolverMatrix.ofInput input options)
      (w := { readings := fun n => n }) rfl hcheck).mpr
    ⟨⟨by decide, by decide⟩, rfl⟩
  have hcoefficient :
      input.coefficient 0 0 = 3 ∧ input.coefficient 1 0 = 4 := by
    simp [MatrixInput.coefficient, denseEntry, StorageOrder.locate, input]
  have hM := SolverMatrix.holds_of_build hcheck rfl hout
  have hne : ¬ Vanishes input.coefficient 1 #[1, 1] := by
    intro hzero
    have hentry : (denseProducts input.coefficient .transposed #[1, 1]
        (.replicate 1 0)).getD 0 0
        = 7 := by
      rw [denseProducts, getD_denseProduct _ _ (by decide)]
      simp [Finset.sum_range_succ, Shape.entryOf, hcoefficient]
      norm_num
    have hmem :=
      Vec.eq_zero_of_norm_eq_zero hzero (Vec.getD_mem (i := 0) (by decide) 0)
    rw [hentry] at hmem
    norm_num at hmem
  obtain ⟨r, hr, hrises⟩ := estimates_rise.2 _ input _ _ rfl hcheck hout
    (.inr ⟨by decide, by decide⟩)
  obtain ⟨-, hstart⟩ :=
    estimates_rise.1 _ _ hM.multiplies (.inr ⟨by decide, by decide⟩)
  have hfrobenius : frobenius input.coefficient 2 1 = 5 := by
    have hsum : ∑ i ∈ Finset.range 2, ∑ j ∈ Finset.range 1,
        input.coefficient i j * input.coefficient i j = 5 * 5 := by
      simp [Finset.sum_range_succ, hcoefficient]
      norm_num
    rw [frobenius, hsum]
    exact ExactField.sqrt_eq (by norm_num) rfl
  refine ⟨hcheck, _, hout, (hstart #[1, 1] rfl hne).1, r, hr options,
    hrises.mono 0 (by decide), (hrises.le_frobenius 10 0).trans_eq hfrobenius⟩

end SpectralNorm

end Equilibration
