import Equilibration.Proofs.BalancingRanges

/-!
# EntryRanges — moderate entries after an equilibration

What an equilibration makes of entries and factors that are neither very
large nor very small. The magnitudes of such entries can be balanced; an
entry then comes to lie between its two factors, where it is small enough
for an estimate of the norm (`SolverMatrix.tame_balanced`), and division by
that norm keeps its sign (`SolverMatrix.survives_rescaledEntry`).
-/

namespace Equilibration

open Checked FloatingPoint Rounding

variable {α : Type} [Scalar α] [FloatingPoint α]

/-- All values are zero or of magnitudes from `2 ^ -h` to `2 ^ h`. -/
structure SlicedMatrix.Moderate (A : SlicedMatrix α) (h q : ℕ) :
    Prop extends A.Sized q where
  values : ∀ v ∈ A.values, Scalar.isFinite v = true
    ∧ (toReal v = 0
      ∨ (2 : ℝ) ^ (-h : ℤ) ≤ |toReal v| ∧ |toReal v| ≤ (2 : ℝ) ^ h)

theorem SlicedMatrix.Moderate.cases {A : SlicedMatrix α} {h q : ℕ}
    (hA : A.Moderate h q) {v : α} (hv : v ∈ A.values) :
    (Scalar.isFinite v = true ∧ toReal v = 0) ∨ ∃ s, Between s (-h) h v := by
  obtain ⟨hfin, h0 | ⟨hlow, hhigh⟩⟩ := hA.values v hv
  · exact .inl ⟨hfin, h0⟩
  · right
    rw [← zpow_natCast] at hhigh
    rcases le_or_gt 0 (toReal v) with hpos | hneg
    · rw [abs_of_nonneg hpos] at hlow hhigh
      exact ⟨.positive, hfin, hlow, hhigh⟩
    · rw [abs_of_neg hneg] at hlow hhigh
      exact ⟨.negative, hfin, hlow, hhigh⟩

theorem FloatingPoint.Between.moderate {s : Float.Model.UnpackedFloat.Sign}
    {h : ℕ} {v : α} (hv : Between s (-h) h v) : Scalar.isFinite v = true
      ∧ (toReal v = 0
        ∨ (2 : ℝ) ^ (-h : ℤ) ≤ |toReal v| ∧ |toReal v| ≤ (2 : ℝ) ^ h) := by
  rw [hv.abs_eq, ← zpow_natCast]
  exact ⟨hv.finite, .inr ⟨hv.lower, hv.upper⟩⟩

/-! ## Magnitudes -/

namespace Magnitude

variable (t : Magnitude) {s : Float.Model.UnpackedFloat.Sign} {h : ℕ}
  {v z : α} {Y : ℤ}

/-- `Magnitude.undo` without rounding. -/
noncomputable def realUndo (y : ℝ) : ℝ :=
  match t with
  | .absolute => y
  | .square => √y

theorem realUndo_mul {y z : ℝ} (hy : 0 ≤ y) :
    t.realUndo (y * z) = t.realUndo y * t.realUndo z := by
  cases t
  · rfl
  · exact Real.sqrt_mul hy z

theorem realUndo_le {y z : ℝ} (hyz : y ≤ z) (hz : 1 ≤ z) :
    t.realUndo y ≤ z := by
  cases t
  · exact hyz
  · exact Real.sqrt_le_iff.mpr ⟨zero_le_one.trans hz,
      hyz.trans (le_self_pow₀ hz two_ne_zero)⟩

theorem realUndo_nonneg {y : ℝ} (hy : 0 ≤ y) : 0 ≤ t.realUndo y := by
  cases t
  · exact hy
  · exact Real.sqrt_nonneg y

/-- The magnitude of a number of moderate size. -/
theorem between_of (hv : Between s (-h) h v)
    (hhi : 2 * h ≤ (model α).exponentBias) :
    Between .positive (-(2 * h : ℕ)) (2 * h : ℕ) (t.of v) := by
  have hmin := minExponent_le (model α)
  cases t with
  | absolute => exact (hv.abs (by omega) (by omega)).mono (by omega) (by omega)
  | square =>
    have := hv.mul hv (by omega) (by omega)
    rw [sign_mul_self] at this
    exact this.mono (by omega) (by omega)

theorem of_zero (hv : Scalar.isFinite v = true) (h0 : toReal v = 0) :
    Scalar.isFinite (t.of v) = true ∧ toReal (t.of v) = 0 := by
  cases t with
  | absolute =>
    have hround := rounded_abs hv (by rw [h0, abs_zero]; positivity)
    rw [h0, abs_zero] at hround
    exact hround.of_zero
  | square => exact rounded_mul_zero hv hv (.inl h0)

theorem undo_zero (hz : Scalar.isFinite z = true) (h0 : toReal z = 0) :
    Scalar.isFinite (t.undo z) = true ∧ toReal (t.undo z) = 0 := by
  cases t with
  | absolute => exact ⟨hz, h0⟩
  | square =>
    have hround :=
      rounded_sqrt hz h0.ge (by rw [h0, Real.sqrt_zero]; positivity)
    rw [h0, Real.sqrt_zero] at hround
    exact hround.of_zero

/-- A root is closer to one. -/
theorem between_undo (hz : Between .positive (-Y) Y z)
    (hlo : (model α).minExponent ≤ -Y) (hhi : Y ≤ (model α).exponentBias) :
    Between .positive (-Y) Y (t.undo z) := by
  have hY := hz.le
  cases t with
  | absolute => exact hz
  | square => exact hz.sqrt (by omega) (by omega) hlo hhi

/-- Undoing a magnitude and its exact counterpart are within a factor of two
of each other. -/
theorem undo_bounds (hz : Between .positive (-Y) Y z)
    (hlo : (model α).minExponent ≤ -Y) (hhi : Y ≤ (model α).exponentBias) :
    toReal (t.undo z) ≤ 2 * t.realUndo (toReal z)
      ∧ t.realUndo (toReal z) ≤ 2 * toReal (t.undo z) := by
  have hY := hz.le
  cases t with
  | absolute =>
    have hdouble := le_mul_of_one_le_left hz.toReal_pos.le one_le_two
    exact ⟨hdouble, hdouble⟩
  | square =>
    have hroot :=
      (hz.sqrt_bounds (c := -Y) (d := Y) (by omega) (by omega)).1
    exact (hz.rounded_sqrt (d := Y) (by omega) hhi).le_two_mul
      ((zpow_le_zpow.mpr hlo).trans hroot)

/-- Taking the magnitude and undoing it gives a number of the same size. -/
theorem between_undo_of (hv : Between s (-h) h v)
    (hhi : 2 * h ≤ (model α).exponentBias) :
    Between .positive (-h) h (t.undo (t.of v)) := by
  have hmin := minExponent_le (model α)
  cases t with
  | absolute => exact hv.abs (by omega) (by omega)
  | square =>
    have hsquare := hv.mul hv (by omega) (by omega)
    rw [sign_mul_self] at hsquare
    exact hsquare.sqrt (by omega) (by omega) (by omega) (by omega)

/-- The magnitude with its sign put back. -/
theorem joinValue_of (hv : Between s (-h) h v)
    (hhi : 2 * h ≤ (model α).exponentBias) :
    Between s (-h) h (PackedSigns.joinValue t (t.of v) (decide (v < 0)))
      ∧ signed s (toReal (PackedSigns.joinValue t (t.of v) (decide (v < 0))))
        = toReal (t.undo (t.of v)) := by
  have hundo := t.between_undo_of hv hhi
  unfold PackedSigns.joinValue
  cases s with
  | positive =>
    have hsign : ¬ v < 0 := fun hneg =>
      ((lt_zero_iff hv.finite).mp hneg).not_gt hv.toReal_pos
    rw [if_neg (by simpa using hsign)]
    exact ⟨hundo, rfl⟩
  | negative =>
    have hneg :=
      rounded_neg hundo.finite (hundo.abs_eq.trans_le (hundo.upper.trans (by
      rw [← zpow_natCast]
      exact zpow_le_zpow.mpr (by omega))))
    have heq : signed .negative (toReal (-t.undo (t.of v)))
        = toReal (t.undo (t.of v)) := by
      rw [hneg.toReal_eq (grid_toReal _).neg]
      exact neg_neg _
    rw [if_pos (decide_eq_true hv.lt_zero)]
    exact ⟨⟨hneg.finite, hundo.lower.trans_eq heq.symm,
      heq.trans_le hundo.upper⟩, heq⟩

theorem joinValue_zero (hv : Scalar.isFinite v = true) (h0 : toReal v = 0) :
    Scalar.isFinite (PackedSigns.joinValue t (t.of v) (decide (v < 0))) = true
      ∧ toReal (PackedSigns.joinValue t (t.of v) (decide (v < 0))) = 0 := by
  have hsign : ¬ v < 0 := fun hneg => ((lt_zero_iff hv).mp hneg).ne h0
  obtain ⟨hof, hof'⟩ := t.of_zero hv h0
  unfold PackedSigns.joinValue
  rw [if_neg (by simpa using hsign)]
  exact t.undo_zero hof hof'

end Magnitude

/-! ## Entries between their factors -/

/-- The rounded roots of a magnitude and of its factors have a product that
is hardly larger than the exact root of their product. -/
theorem Magnitude.undo_mul_le (t : Magnitude) {X Y : ℤ} {m x y : α}
    (hm : Between .positive (-Y) Y m) (hx : Between .positive (-X) X x)
    (hy : Between .positive (-X) X y) (hY : Y ≤ (model α).exponentBias)
    (hX : 2 * X ≤ (model α).exponentBias) (hYlo : (model α).minExponent ≤ -Y)
    (hXlo : (model α).minExponent ≤ -(2 * X)) :
    toReal (t.undo m) * toReal (t.undo x * t.undo y)
      ≤ 16 * t.realUndo (toReal x * (toReal m * toReal y)) := by
  have hX0 := hx.le
  have hx' := t.between_undo hx (by omega) (by omega)
  have hy' := t.between_undo hy (by omega) (by omega)
  have hmle := (t.undo_bounds hm hYlo hY).1
  have hxle := (t.undo_bounds hx (by omega) (by omega)).1
  have hyle := (t.undo_bounds hy (by omega) (by omega)).1
  have hfactors := ((hx'.rounded_mul hy' (by omega)).le_two_mul
    ((zpow_le_zpow.mpr (by omega)).trans (hx'.mul_bounds hy').1)).1
  have hx0 := t.realUndo_nonneg hx.toReal_pos.le
  have hm0 := t.realUndo_nonneg hm.toReal_pos.le
  have hpos := (hx'.mul hy' (by omega) (by omega)).toReal_pos
  rw [t.realUndo_mul hx.toReal_pos.le, t.realUndo_mul hm.toReal_pos.le]
  calc toReal (t.undo m) * toReal (t.undo x * t.undo y)
      ≤ 2 * t.realUndo (toReal m)
          * (2
            * (2 * t.realUndo (toReal x) * (2 * t.realUndo (toReal y)))) := by
        refine mul_le_mul hmle (hfactors.trans ?_) hpos.le (by positivity)
        have := mul_le_mul hxle hyle hy'.toReal_pos.le (by positivity)
        linarith
    _ = 16 * (t.realUndo (toReal x)
          * (t.realUndo (toReal m) * t.realUndo (toReal y))) := by ring

/-- What an entry `v` becomes between its factors. -/
theorem between_balanced (t : Magnitude) {s : Float.Model.UnpackedFloat.Sign}
    {h q : ℕ} {X : ℤ} {v x y : α} (hv : Between s (-h) h v)
    (hx : Between .positive (-X) X x) (hy : Between .positive (-X) X y)
    (hhi : 2 * h + 2 * X ≤ (model α).exponentBias)
    (hprod : X = 0
      ∨ toReal x * (toReal (t.of v) * toReal y) ≤ (2 : ℝ) ^ (q + 2 : ℤ)) :
    Between s (-(h + 2 * X)) (q + h + 6)
      (PackedSigns.joinValue t (t.of v) (decide (v < 0))
        * (t.undo x * t.undo y)) := by
  have hmin := minExponent_le (model α)
  have hX := hx.le
  have hof := t.between_of hv (by omega)
  obtain ⟨hjoin, hjoin'⟩ := t.joinValue_of hv (by omega)
  have hfactors := (t.between_undo hx (by omega) (by omega)).mul
    (t.between_undo hy (by omega) (by omega)) (by omega) (by omega)
  have hbounds := hjoin.mul_bounds hfactors
  have hsign : s * (.positive * .positive) = s := by cases s <;> rfl
  refine (hjoin.rounded_mul hfactors (by omega)).between (by omega)
    ((zpow_le_zpow.mpr (by omega)).trans (hbounds.1.trans_eq (by rw [hsign])))
    ?_
  rcases hprod with rfl | hprod
  · -- all factors are one
    rw [← hsign]
    exact hbounds.2.trans (zpow_le_zpow.mpr (by omega))
  · have hroot : t.realUndo (toReal x * (toReal (t.of v) * toReal y))
        ≤ (2 : ℝ) ^ (q + 2 : ℤ) :=
      t.realUndo_le hprod (one_le_zpow₀ one_le_two (by omega))
    calc signed s (toReal (PackedSigns.joinValue t (t.of v) (decide (v < 0)))
            * toReal (t.undo x * t.undo y))
        = toReal (t.undo (t.of v)) * toReal (t.undo x * t.undo y) := by
          rw [← hjoin', ← hsign, signed_mul, hsign]
          rfl
      _ ≤ 16 * t.realUndo (toReal x * (toReal (t.of v) * toReal y)) :=
          t.undo_mul_le hof hx hy (by omega) (by omega) (by omega) (by omega)
      _ ≤ (2 : ℝ) ^ (4 : ℤ) * (2 : ℝ) ^ (q + 2 : ℤ) := by
          rw [show (2 : ℝ) ^ (4 : ℤ) = 16 by norm_num]
          linarith
      _ = (2 : ℝ) ^ (4 + (q + 2) : ℤ) := (zpow_add₀ two_ne_zero _ _).symm
      _ ≤ (2 : ℝ) ^ (q + h + 6 : ℤ) := zpow_le_zpow.mpr (by omega)

/-! ## The entries of an equilibrated matrix -/

/-- A value that is still of use after a change: it is finite, and if it was
not zero it has kept its sign. -/
structure Survives (v v' : α) : Prop where
  finite : Scalar.isFinite v' = true
  pos : 0 < v → 0 < v'
  neg : v < 0 → v' < 0

theorem Survives.of_zero {v v' : α} (hv : Scalar.isFinite v = true)
    (h0 : toReal v = 0) (hv' : Scalar.isFinite v' = true) : Survives v v' where
  finite := hv'
  pos h := absurd ((zero_lt_iff hv).mp h) h0.not_gt
  neg h := absurd ((lt_zero_iff hv).mp h) h0.not_lt

theorem Survives.of_between {s : Float.Model.UnpackedFloat.Sign} {a b c d : ℤ}
    {v v' : α} (hv : Between s a b v) (hv' : Between s c d v') :
    Survives v v' := by
  cases s with
  | positive =>
    exact ⟨hv'.finite, fun _ => hv'.zero_lt, fun h =>
      absurd ((lt_zero_iff hv.finite).mp h) hv.toReal_pos.not_gt⟩
  | negative =>
    exact ⟨hv'.finite, fun h => absurd ((zero_lt_iff hv.finite).mp h)
      ((lt_zero_iff hv.finite).mp hv.lt_zero).not_gt, fun _ => hv'.lt_zero⟩

theorem SlicedMatrix.Moderate.sumOf_magnitudes {A : SlicedMatrix α} {h q : ℕ}
    (hA : A.Moderate h q) (hcheck : A.check = .ok (.ok ())) (t : Magnitude)
    (hhi : 2 * h ≤ (model α).exponentBias) :
    ∀ v ∈ (SolverMatrix.magnitudes A t).values,
      SumOf (-(2 * h : ℕ)) (2 * h : ℕ) 1 v := by
  intro u hu
  rw [SolverMatrix.magnitudes, SlicedMatrix.values_mapEntries hcheck] at hu
  obtain ⟨v, hv, rfl⟩ := Array.mem_map.mp hu
  rcases hA.cases hv with ⟨hfin, h0⟩ | ⟨s, hs⟩
  · obtain ⟨hof, hof'⟩ := t.of_zero hfin h0
    exact sumOf_of_zero _ _ hof hof'
  · exact (t.between_of hs hhi).sumOf

namespace SolverMatrix

/-- Factors for the magnitudes of a matrix: they are between two powers of
two, and the magnitudes between them are small. -/
structure Factored (A : SlicedMatrix α) (t : Magnitude) (q : ℕ) (X : ℤ)
    (x y : Array α) :
    Prop where
  nonneg : 0 ≤ X
  x_size : x.size = A.rows
  y_size : y.size = A.cols
  x_between : ∀ v ∈ x, Between .positive (-X) X v
  y_between : ∀ v ∈ y, Between .positive (-X) X v
  entries : X = 0 ∨ ∀ i j v, (i, j, v) ∈ A.triplets → toReal (t.of v) ≠ 0 →
    toReal (x.getD i 0) * (toReal (t.of v) * toReal (y.getD j 0))
      ≤ (2 : ℝ) ^ (q + 2 : ℤ)

/-- A balancing run gives such factors. -/
theorem Holds.factored_of_run {M : SolverMatrix α} {A : SlicedMatrix α}
    (hM : M.Holds A) {h q : ℕ} (hA : A.Moderate h q) (t : Magnitude)
    {d e : Array α} {budget : Nat} {tol : α}
    {run : BalanceRun α} {record : BalanceRecord α}
    (hrun : Balancing.run (M.holding (magnitudes A t)).operator d e budget tol
      () = .ok (run, ()))
    (hok : run.outcome = .ok record) (hhi : 2 * h ≤ (model α).exponentBias)
    (hspread : Balancing.spread (2 * h) q record.iterations
      ≤ (model α).exponentBias) :
    Factored A t q (Balancing.spread (2 * h) q record.iterations)
      run.d run.e := by
  have hmag := hM.holding_magnitudes t
  obtain ⟨s, hs, hd, he, hiter, hrund, hrune⟩ :=
    Balancing.inRange_run hmag.check hmag.room
      (hA.toSized.mapEntries hM.check _) (hA.sumOf_magnitudes hM.check t hhi)
      hmag.computes hmag.rows_eq hmag.cols_eq hrun hok hspread
  rw [hrund, hrune, ← hiter]
  refine ⟨Balancing.spread_nonneg .., hd, he, hs.d, hs.e, ?_⟩
  rcases Nat.eq_zero_or_pos s.record.iterations with h0 | hpos
  · -- before the first iteration nothing is known of the products
    left
    rw [h0]
    exact mul_zero _
  · right
    intro i j v hv hv0
    exact hs.entries hpos i j (t.of v)
      (SlicedMatrix.mem_triplets_mapEntries _ hv) hv0

omit [FloatingPoint α] in
theorem getD_factorsFor (t : Magnitude) {x : Array α} {i : Nat}
    (hi : i < x.size) :
    (factorsFor t x).getD i 0 = t.undo (x.getD i 0) := by
  cases t with
  | absolute => rfl
  | square =>
    have hi' : i < (Vec.sqrt x).size := (size_factorsFor .square x).symm ▸ hi
    show (Vec.sqrt x).getD i 0 = _
    rw [Array.getD, Array.getD, dif_pos hi, dif_pos hi']
    exact Array.getElem_map ..

theorem between_factorsFor (t : Magnitude) {X : ℤ} {x : Array α}
    (hx : ∀ v ∈ x, Between .positive (-X) X v)
    (hlo : (model α).minExponent ≤ -X) (hhi : X ≤ (model α).exponentBias) :
    ∀ u ∈ factorsFor t x, Between .positive (-X) X u := by
  intro u hu
  cases t with
  | absolute => exact hx u hu
  | square =>
    obtain ⟨v, hv, rfl⟩ := Array.mem_map.mp hu
    exact Magnitude.square.between_undo (hx v hv) hlo hhi

theorem normExponent_balanced (h q : ℕ) :
    normExponent (q + h + 6) q = 3 * q + h + 8 := by
  unfold normExponent
  push_cast
  ring

section Moderate

variable {A : SlicedMatrix α} (hcheck : A.check = .ok (.ok ())) {h q : ℕ}
  (hA : A.Moderate h q) {t : Magnitude} {X : ℤ} {x y : Array α}
  (hF : Factored A t q X x y)
  (hroom : 2 * X + (12 * q + 4 * h + (model α).mantissaBits + 32)
    ≤ (model α).exponentBias)

include hcheck hA hF hroom

/-- A balanced entry is zero as before, or its sign and bounds are known. -/
theorem balanced_cases {i j : Nat} {v : α} (hv : (i, j, v) ∈ A.triplets) :
    let b := PackedSigns.joinValue t (t.of v) (decide (v < 0))
      * ((factorsFor t x).getD i 0 * (factorsFor t y).getD j 0)
    (Scalar.isFinite v = true ∧ toReal v = 0 ∧ Scalar.isFinite b = true
        ∧ toReal b = 0)
      ∨ ∃ s, Between s (-h) h v ∧ Between s (-(h + 2 * X)) (q + h + 6) b := by
  have hmin := minExponent_le (model α)
  have hX := hF.nonneg
  obtain ⟨hi, hj⟩ := SlicedMatrix.lt_of_mem_triplets hcheck hv
  rw [← hF.x_size] at hi
  rw [← hF.y_size] at hj
  have hx := hF.x_between _ (Vec.getD_mem hi 0)
  have hy := hF.y_between _ (Vec.getD_mem hj 0)
  rw [getD_factorsFor t hi, getD_factorsFor t hj]
  rcases hA.cases (SlicedMatrix.mem_values_of_mem_triplets hcheck hv)
    with ⟨hfin, h0⟩ | ⟨s, hs⟩
  · obtain ⟨hjoin, hjoin'⟩ := t.joinValue_zero hfin h0
    have hfactors := (t.between_undo hx (by omega) (by omega)).mul
      (t.between_undo hy (by omega) (by omega)) (by omega) (by omega)
    exact .inl ⟨hfin, h0, rounded_mul_zero hjoin hfactors.finite (.inl hjoin')⟩
  · have hof := t.between_of hs (by omega)
    exact .inr ⟨s, hs, between_balanced t hs hx hy (by omega)
      (hF.entries.imp_right fun hle => hle i j v hv hof.toReal_pos.ne')⟩

/-- A balanced matrix has a norm that can be estimated. -/
theorem tame_balanced :
    (balanced A t (factorsFor t x) (factorsFor t y)).Tame (q + h + 6) q where
  toSized := hA.toSized.mapEntries hcheck _
  values u hu := by
    obtain ⟨i, j, hmem⟩ := SlicedMatrix.mem_triplets_of_mem_values
      (SlicedMatrix.check_mapEntries hcheck _) hu
    rw [SlicedMatrix.triplets_mapEntries] at hmem
    obtain ⟨⟨i', j', v⟩, hv, heq⟩ := List.mem_map.mp hmem
    cases heq
    rcases balanced_cases hcheck hA hF hroom hv
      with ⟨-, -, hfin, h0⟩ | ⟨s, -, hb⟩
    · exact (sumOf_of_zero 0 _ hfin h0).toWithin
    · exact_mod_cast hb.within
  room := by
    have hX := hF.nonneg
    omega

section Normalization

variable {norm : α}
  (hnorm : 0 < norm → Between .positive (Vec.leastRoot α - normExponent
    (q + h + 6) q) (normExponent (q + h + 6) q) norm)

include hnorm

/-- Normalization keeps every entry, too. -/
theorem survives_rescaledEntry {i j : Nat} {v : α}
    (hv : (i, j, v) ∈ A.triplets) :
    Survives v
      (rescaledEntry t norm (factorsFor t x) (factorsFor t y) i j v) := by
  obtain ⟨hroot, hroot'⟩ := Vec.leastRoot_bounds α
  have hmin := minExponent_eq (model α)
  have hX := hF.nonneg
  rw [normExponent_balanced] at hnorm
  have hcases := balanced_cases hcheck hA hF hroom hv
  unfold rescaledEntry
  dsimp only at hcases ⊢
  generalize PackedSigns.joinValue t (t.of v) (decide (v < 0))
    * ((factorsFor t x).getD i 0 * (factorsFor t y).getD j 0) = b at hcases ⊢
  split
  · next hpos =>
    have hrecip := between_one.div (hnorm hpos.1) (by omega) (by omega)
    rcases hcases with ⟨hfin, h0, hb, hb0⟩ | ⟨s, hs, hb⟩
    · exact .of_zero hfin h0 (rounded_mul_zero hb hrecip.finite (.inl hb0)).1
    · have hentry := hb.mul hrecip (by omega) (by omega)
      have hsign : s * (.positive / .positive) = s := by cases s <;> rfl
      rw [hsign] at hentry
      exact .of_between hs hentry
  · rcases hcases with ⟨hfin, h0, hb, -⟩ | ⟨s, hs, hb⟩
    · exact .of_zero hfin h0 hb
    · exact .of_between hs hb

omit hcheck hA in
/-- The factors of an equilibration are positive numbers. -/
theorem usable_normalizedBy (M : SolverMatrix α) (B : SlicedMatrix α) :
    let N := M.normalizedBy B norm (factorsFor t x) (factorsFor t y)
    (N.d.size = A.rows ∧ ∀ u ∈ N.d, Scalar.isFinite u = true ∧ 0 < u)
      ∧ N.e.size = A.cols ∧ ∀ u ∈ N.e, Scalar.isFinite u = true ∧ 0 < u := by
  obtain ⟨hroot, hroot'⟩ := Vec.leastRoot_bounds α
  have hmin := minExponent_eq (model α)
  have hX := hF.nonneg
  rw [normExponent_balanced] at hnorm
  have hd := between_factorsFor t hF.x_between (by omega) (by omega)
  have he := between_factorsFor t hF.y_between (by omega) (by omega)
  have hdsize := (size_factorsFor t x).trans hF.x_size
  have hesize := (size_factorsFor t y).trans hF.y_size
  unfold normalizedBy
  split
  · next hpos =>
    have hsqrt :=
      (hnorm hpos.1).sqrt (c := (Vec.leastRoot α - (3 * q + h + 8)) / 2)
        (d := 3 * q + h + 8) (by omega) (by omega) (by omega) (by omega)
    have hshare := between_one.div hsqrt (by omega) (by omega)
    have hscale : ∀ {z : Array α}, (∀ u ∈ z, Between .positive (-X) X u) →
        ∀ u ∈ Vec.scale z (Scalar.recip (Scalar.sqrt norm)),
          Scalar.isFinite u = true ∧ 0 < u := by
      intro z hz u hu
      obtain ⟨v, hv, rfl⟩ := Array.mem_map.mp hu
      have hprod := (hz v hv).mul hshare (by omega) (by omega)
      exact ⟨hprod.finite, hprod.zero_lt⟩
    exact ⟨⟨(Vec.size_scale _ _).trans hdsize, hscale hd⟩,
      (Vec.size_scale _ _).trans hesize, hscale he⟩
  · exact ⟨⟨hdsize, fun u hu => ⟨(hd u hu).finite, (hd u hu).zero_lt⟩⟩,
      hesize, fun u hu => ⟨(he u hu).finite, (he u hu).zero_lt⟩⟩

end Normalization

end Moderate

end SolverMatrix

end Equilibration
