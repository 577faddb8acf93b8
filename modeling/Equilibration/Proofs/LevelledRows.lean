import Equilibration.Proofs.EntryRanges

/-!
# LevelledRows — balanced rows are not small

A row factor is the target divided by the sum that the column factors give, and
the sum is no more than its number of terms times the largest one. So after an
iteration the largest entry of a row is not small between its two factors
(`Balancing.levelled_next`), however far the factors have drifted apart by then.
-/

namespace Equilibration

open Checked FloatingPoint Rounding

variable {α : Type} [Scalar α] [FloatingPoint α]

namespace SlicedMatrix

omit [Scalar α] [FloatingPoint α] in
/-- The entry of a row for which a function is largest. -/
theorem exists_largest (A : SlicedMatrix α) (f : ℕ → α → ℝ) {i j : ℕ} {v : α}
    (hv : (i, j, v) ∈ A.triplets) : ∃ k u, (i, k, u) ∈ A.triplets
      ∧ ∀ k' u', (i, k', u') ∈ A.triplets → f k' u' ≤ f k u := by
  have hrow : A.triplets.filter (fun t => t.1 = i) ≠ [] :=
    List.ne_nil_of_mem (List.mem_filter.mpr ⟨hv, by simp⟩)
  obtain ⟨⟨i', k, u⟩, htop⟩ :=
    Option.ne_none_iff_exists'.mp (mt List.argmax_eq_none.mp
      hrow : List.argmax (fun t : ℕ × ℕ × α => f t.2.1 t.2.2) _ ≠ none)
  obtain ⟨hu, hi⟩ := List.mem_filter.mp (List.argmax_mem htop)
  obtain rfl : i' = i := by simpa using hi
  refine ⟨k, u, hu, fun k' u' hu' => ?_⟩
  have hle := List.le_of_mem_argmax (List.mem_filter.mpr ⟨hu', by simp⟩) htop
  exact hle

end SlicedMatrix

namespace Balancing

/-- A row factor times an entry and its column factor is not small, if the sum
that the factor is made from is not much larger than their product. -/
theorem le_factor_mul {H q N : ℕ} (hN : 1 ≤ N) (hNq : N ≤ 2 ^ q)
    (hq : q < (model α).mantissaBits) {X l : ℤ} {u x s : α}
    (hu : Between .positive (-H) H u) (hx : Between .positive (-X) X x)
    (hs : Between .positive (-(X + H)) (X + H + q) s)
    (hlow : (2 : ℝ) ^ l ≤ toReal (u * x))
    (hle : toReal s ≤ 2 ^ q * (2 : ℝ) ^ (l + 1))
    (hhi : X + H + q ≤ (model α).exponentBias) :
    (2 : ℝ) ^ (-(q + 3) : ℤ)
      ≤ toReal (factor (Scalar.ofNat N) s) * (toReal u * toReal x) := by
  have htarget := between_ofNat (α := α) hN hNq hq
  obtain ⟨hquot, hprod⟩ := factor_bounds hN hNq hq hu hx hs hhi
  have hone : 1 ≤ toReal (Scalar.ofNat N : α) :=
    htarget.lower.trans_eq' (zpow_zero 2).symm
  have hfactor : (2 : ℝ) ^ (-(q + l + 1) : ℤ)
      ≤ 2 * toReal (factor (Scalar.ofNat N) s) := by
    refine le_trans ?_ hquot.2
    rw [zpow_neg, ← one_div, add_assoc, zpow_add₀ two_ne_zero, zpow_natCast]
    exact div_le_div₀ (zero_le_one.trans hone) hone hs.toReal_pos hle
  have hpos : 0 ≤ toReal (factor (Scalar.ofNat N) s) := by
    linarith [zpow_pos (two_pos (α := ℝ)) (-(q + l + 1))]
  calc (2 : ℝ) ^ (-(q + 3) : ℤ) = 2 ^ (-(q + l + 1) : ℤ) * 2 ^ l / 4 := by
        rw [← zpow_add₀ two_ne_zero, show (4 : ℝ) = 2 ^ (2 : ℤ) by norm_num,
          ← zpow_sub₀ two_ne_zero]
        congr 1
        ring
    _ ≤ 2 * toReal (factor (Scalar.ofNat N) s)
        * (2 * (toReal u * toReal x)) / 4 := by
        refine div_le_div_of_nonneg_right ?_ (by norm_num)
        exact mul_le_mul hfactor (hlow.trans hprod.1) (zpow_pos two_pos l).le
          (mul_nonneg two_pos.le hpos)
    _ = toReal (factor (Scalar.ofNat N) s) * (toReal u * toReal x) := by ring

/-- After an iteration, every row with an entry that is not zero has one that is
not small between its factors. -/
structure Levelled (W : SlicedMatrix α) (q : ℕ) (s : State α) : Prop where
  row :
      0 < s.record.iterations → ∀ i j v, (i, j, v) ∈ W.triplets → toReal v ≠ 0 →
    ∃ k u, (i, k, u) ∈ W.triplets ∧ toReal u ≠ 0
      ∧ (2 : ℝ) ^ (-(q + 3) : ℤ)
        ≤ toReal (s.d.getD i 0) * (toReal u * toReal (s.e.getD k 0))

section Next

variable {W : SlicedMatrix α} (h : W.check = .ok (.ok ())) (hroom : W.HasRoom)
  {H q : ℕ} (hsized : W.Sized q) (hW : ∀ v ∈ W.values, SumOf (-H) H 1 v)

include h hroom hsized hW

/-- The sum of a row that is not zero, by its largest term. -/
theorem row_sum_range {X : ℤ} {x y : Array α} (hX : 0 ≤ X)
    (hx : ∀ v ∈ x, Between .positive (-X) X v) (hxsize : x.size = W.cols)
    (hysize : y.size = W.rows) (hhi : X + H + q ≤ (model α).exponentBias)
    {i j : ℕ} {v : α} (hv : (i, j, v) ∈ W.triplets) (hv0 : toReal v ≠ 0) :
    ∃ s k u, ∃ l : ℤ, (W.product .normal 1 0 x y)[i]? = some s
      ∧ (i, k, u) ∈ W.triplets
      ∧ toReal u ≠ 0 ∧ Between .positive (-H) H u
      ∧ Between .positive (-X) X (x.getD k 0)
      ∧ Between .positive (-(X + H)) (X + H + q) s
      ∧ (2 : ℝ) ^ l ≤ toReal (u * x.getD k 0)
      ∧ toReal s ≤ 2 ^ q * (2 : ℝ) ^ (l + 1) := by
  have hmin := minExponent_le (model α)
  have hfinite : ∀ {k u}, (i, k, u) ∈ W.triplets →
      SumOf (-H) H 1 u ∧ Between .positive (-X) X (x.getD k 0) :=
    fun {k u} hu =>
    ⟨hW u (SlicedMatrix.mem_values_of_mem_triplets h hu), hx _
      (Vec.getD_mem (hxsize.symm ▸ (SlicedMatrix.lt_of_mem_triplets h hu).2) 0)⟩
  have hterm : ∀ {k u}, (i, k, u) ∈ W.triplets → toReal u ≠ 0 →
      Between .positive (-H) H u
        ∧ Between .positive (-H + -X) (H + X) (u * x.getD k 0) :=
    fun {k u} hu hu0 => by
    obtain ⟨hvalue, hfactor⟩ := hfinite hu
    have hvalue := hvalue.cases.resolve_left fun h0 => hu0 h0.2
    exact ⟨hvalue, hvalue.mul hfactor (by omega) (by omega)⟩
  obtain ⟨hi, -⟩ := SlicedMatrix.lt_of_mem_triplets h hv
  obtain ⟨k, u, hu, hlargest⟩ :=
    W.exists_largest (fun k u => toReal (u * x.getD k 0)) hv
  have hpos : 0 < toReal (u * x.getD k 0) :=
    (hterm hv hv0).2.toReal_pos.trans_le (hlargest j v hv)
  have hu0 : toReal u ≠ 0 := fun h0 =>
    hpos.ne'
      (rounded_mul_zero (hfinite hu).1.finite (hfinite hu).2.finite (.inl h0)).2
  obtain ⟨hvalue, hproduct⟩ := hterm hu hu0
  obtain ⟨l, hlow, hhigh⟩ := exists_mem_Ioc_zpow hpos (one_lt_two (α := ℝ))
  have hl : -(H + X) ≤ l + 1 ∧ l < H + X := by
    constructor
    · have := zpow_le_zpow.mp (hproduct.lower.trans hhigh)
      omega
    · exact (zpow_lt_zpow_iff_right₀ one_lt_two).mp
        (hlow.trans_le hproduct.upper)
  obtain ⟨s, hs, -, hsum, hterms⟩ := factors_range h hroom hsized hW .normal
    (y := y) (k := i) hX hx hhi (hysize.symm ▸ hi) hsized.cols_le fun h0 => by
    rw [SlicedMatrix.values_eq_empty h (.inr h0)]; rfl
  -- all terms are at most the power above the largest one
  obtain ⟨s', hs', hwithin⟩ :=
    within_product_element h hroom .normal (x := x) (y := y) (c := l + 1)
      (hysize.symm ▸ hi) (fun i' k' u' hkey hu' => by
      obtain rfl : i' = i := hkey
      show Within (l + 1) 1 (u' * x.getD k' 0)
      by_cases h0 : toReal u' = 0
      · obtain ⟨hfin, hzero⟩ :=
          rounded_mul_zero (hfinite hu').1.finite (hfinite hu').2.finite
            (.inl h0)
        exact (sumOf_of_zero 0 _ hfin hzero).toWithin
      · have hbetween := (hterm hu' h0).2
        refine ⟨hbetween.finite, ?_⟩
        rw [Nat.cast_one, one_mul, abs_of_pos hbetween.toReal_pos]
        exact (hlargest k' u' hu').trans hhigh)
    (representable_of_le (by omega) hsized.count_le hsized.precise.le
      (by omega))
  obtain rfl : s' = s := Option.some.inj (hs'.symm.trans hs)
  refine ⟨s', k, u, l, hs, hu, hu0, hvalue, (hfinite hu).2, hsum.between
    hsized.count_le (hpos.trans_le (hterms i k u rfl hu)), hlow.le, ?_⟩
  refine (le_abs_self _).trans (hwithin.le.trans ?_)
  exact mul_le_mul_of_nonneg_right (by exact_mod_cast hsized.count_le)
    (zpow_pos two_pos _).le

/-- **An iteration levels the rows.** -/
theorem levelled_next {s : State α} (hs : InRange W H q s)
    (hd : s.d.size = W.rows)
    (he : s.e.size = W.cols) (hsums : s.sums.size = W.cols)
    (hhi : spread H q (s.record.iterations + 1) ≤ (model α).exponentBias) :
    Levelled W q
      (next (fun shape x y => W.product shape 1 0 x y) W.rows W.cols s) := by
  refine ⟨fun _ i j v hv hv0 => ?_⟩
  have hX := spread_nonneg H q s.record.iterations
  have hsucc := spread_succ H q s.record.iterations
  have he' := next_e h hroom hsized hW hs he hsums hhi rfl
  have hesize :
      (next (fun shape x y => W.product shape 1 0 x y) W.rows W.cols s).e.size
        = W.cols := by
    rw [← he]
    simp [next]
  obtain ⟨t, k, u, l, ht, hu, hu0, hvalue, hfactor, hsum, hlow, hle⟩ :=
    row_sum_range h hroom hsized hW (by omega) he' hesize hd (by omega) hv hv0
  obtain ⟨-, hj⟩ := SlicedMatrix.lt_of_mem_triplets h hv
  refine ⟨k, u, hu, hu0, ?_⟩
  have hdi : (next (fun shape x y => W.product shape 1 0 x y) W.rows W.cols
      s).d.getD i 0 = factor (Scalar.ofNat W.cols) t := by
    rw [Array.getD_eq_getD_getElem?]
    show ((Array.map _ (W.product .normal 1 0 _ s.d))[i]?).getD 0 = _
    rw [Array.getElem?_map]
    exact congrArg (fun o => (Option.map _ o).getD 0) ht
  rw [hdi]
  exact le_factor_mul (Nat.one_le_of_lt hj) hsized.cols_le hsized.precise hvalue
    hfactor hsum hlow hle (by omega)

end Next

end Balancing

/-! ## Entries between their factors -/

namespace Magnitude

variable (t : Magnitude) {X Y : ℤ} {m x y z : α}

theorem le_realUndo {y z : ℝ} (hz : 0 ≤ z) (hz' : z ≤ 1) (hzy : z ≤ y) :
    z ≤ t.realUndo y := by
  cases t
  · exact hzy
  · exact Real.le_sqrt_of_sq_le
      ((pow_le_of_le_one hz hz' two_ne_zero).trans hzy)

/-- The rounded roots of a magnitude and of its factors have a product that is
hardly smaller than the exact root of their product. -/
theorem le_undo_mul (hm : Between .positive (-Y) Y m)
    (hx : Between .positive (-X) X x) (hy : Between .positive (-X) X y)
    (hY : Y ≤ (model α).exponentBias) (hX : 2 * X ≤ (model α).exponentBias) :
    t.realUndo (toReal x * (toReal m * toReal y))
      ≤ 16 * (toReal (t.undo m) * toReal (t.undo x * t.undo y)) := by
  have hmin := minExponent_le (model α)
  have hX0 := hx.le
  have hm' := t.between_undo hm (by omega) (by omega)
  have hx' := t.between_undo hx (by omega) (by omega)
  have hy' := t.between_undo hy (by omega) (by omega)
  have hmle := (t.undo_bounds hm (by omega) hY).2
  have hxle := (t.undo_bounds hx (by omega) (by omega)).2
  have hyle := (t.undo_bounds hy (by omega) (by omega)).2
  have hfactors := ((hx'.rounded_mul hy' (by omega)).le_two_mul
    ((zpow_le_zpow.mpr (by omega)).trans (hx'.mul_bounds hy').1)).2
  have hy0 := t.realUndo_nonneg hy.toReal_pos.le
  have hx0 := t.realUndo_nonneg hx.toReal_pos.le
  rw [t.realUndo_mul hx.toReal_pos.le, t.realUndo_mul hm.toReal_pos.le,
    mul_left_comm]
  calc t.realUndo (toReal m) * (t.realUndo (toReal x) * t.realUndo (toReal y))
      ≤ 2 * toReal (t.undo m)
        * (2 * toReal (t.undo x) * (2 * toReal (t.undo y))) :=
        mul_le_mul hmle (mul_le_mul hxle hyle hy0 (by linarith))
          (mul_nonneg hx0 hy0) (by linarith [hm'.toReal_pos])
    _ = 8 * (toReal (t.undo m) * (toReal (t.undo x) * toReal (t.undo y))) := by
        ring
    _ ≤ 8 * (toReal (t.undo m) * (2 * toReal (t.undo x * t.undo y))) := by
        refine mul_le_mul_of_nonneg_left ?_ (by norm_num)
        exact mul_le_mul_of_nonneg_left hfactors hm'.toReal_pos.le
    _ = 16 * (toReal (t.undo m) * toReal (t.undo x * t.undo y)) := by ring

end Magnitude

/-- An entry that is not small between its factors is not small once it is
multiplied by their roots. -/
theorem le_abs_balanced (t : Magnitude) {s : Float.Model.UnpackedFloat.Sign}
    {h q : ℕ} {X : ℤ} {v x y : α} (hv : Between s (-h) h v)
    (hx : Between .positive (-X) X x) (hy : Between .positive (-X) X y)
    (hhi : 2 * h + 2 * X ≤ (model α).exponentBias)
    (hq : q + 7 ≤ (model α).exponentBias)
    (hprod : (2 : ℝ) ^ (-(q + 3) : ℤ)
      ≤ toReal x * (toReal (t.of v) * toReal y)) :
    (2 : ℝ) ^ (-(q + 7) : ℤ)
      ≤ |toReal (PackedSigns.joinValue t (t.of v) (decide (v < 0))
        * (t.undo x * t.undo y))| := by
  have hmin := minExponent_le (model α)
  have hX := hx.le
  obtain ⟨hjoin, hjoin'⟩ := t.joinValue_of hv (by omega)
  have hfactors := (t.between_undo hx (by omega) (by omega)).mul
    (t.between_undo hy (by omega) (by omega)) (by omega) (by omega)
  have hsign : s * (.positive * .positive) = s := by cases s <;> rfl
  have hround := (hjoin.rounded_mul hfactors (by omega)).faithful.signed s
  have hroot := (t.le_realUndo (zpow_pos two_pos _).le
    (zpow_le_one_of_nonpos₀ one_le_two (by omega)) hprod).trans
      (t.le_undo_mul (t.between_of hv (by omega)) hx hy (by omega) (by omega))
  rw [← abs_signed s]
  refine (hround.le_of_le (grid_two_zpow (by omega)) ?_).trans (le_abs_self _)
  calc (2 : ℝ) ^ (-(q + 7) : ℤ) = 2 ^ (-(q + 3) : ℤ) / 16 := by
        rw [show (16 : ℝ) = 2 ^ (4 : ℤ) by norm_num, ← zpow_sub₀ two_ne_zero]
        congr 1
    _ ≤ toReal (t.undo (t.of v)) * toReal (t.undo x * t.undo y) := by linarith
    _ = signed s (toReal (PackedSigns.joinValue t (t.of v) (decide (v < 0)))
          * toReal (t.undo x * t.undo y)) := by
        rw [← hjoin', ← hsign, signed_mul, hsign]
        rfl

namespace SolverMatrix

/-- After a balancing run with an iteration, the rows of the magnitudes are
level. -/
theorem Holds.levelled_of_run {M : SolverMatrix α} {A : SlicedMatrix α}
    (hM : M.Holds A) {h q : ℕ} (hA : A.Moderate h q) (t : Magnitude)
    {d e : Array α} {budget : Nat} {tol : α}
    {run : BalanceRun α} {record : BalanceRecord α} (hrun : Balancing.run
      (M.holding (magnitudes A t)).operator d e budget tol () = .ok (run, ()))
    (hok : run.outcome = .ok record) (hhi : 2 * h ≤ (model α).exponentBias)
    (hspread : Balancing.spread (2 * h) q record.iterations
      ≤ (model α).exponentBias)
    (hiter : 0 < record.iterations) {i j : ℕ} {v : α}
    (hv : (i, j, v) ∈ A.triplets) (hv0 : toReal (t.of v) ≠ 0) :
    ∃ k u, (i, k, u) ∈ A.triplets ∧ toReal (t.of u) ≠ 0
      ∧ (2 : ℝ) ^ (-(q + 3) : ℤ)
        ≤ toReal (run.d.getD i 0)
          * (toReal (t.of u) * toReal (run.e.getD k 0)) := by
  have hmag := hM.holding_magnitudes t
  have hsized := hA.toSized.mapEntries hM.check fun _ _ v => t.of v
  have hvalues := hA.sumOf_magnitudes hM.check t hhi
  obtain ⟨s, -, hlevel, -, -, hiter', hd, he⟩ := Balancing.inRange_rule
    hmag.check hmag.room hsized hvalues hmag.computes hmag.rows_eq hmag.cols_eq
    hrun hok hspread (Balancing.Levelled (magnitudes A t) q) (fun _ =>
      ⟨fun h0 => absurd h0 (Nat.lt_irrefl 0)⟩) fun s hs hd he hsums hspread _ =>
      Balancing.levelled_next hmag.check hmag.room hsized hvalues hs hd he
        hsums hspread
  obtain ⟨k, u, hu, hu0, hle⟩ := hlevel.row (hiter'.symm ▸ hiter) i j (t.of v)
    (SlicedMatrix.mem_triplets_mapEntries _ hv) hv0
  rw [magnitudes, SlicedMatrix.triplets_mapEntries] at hu
  obtain ⟨⟨i', k', w⟩, hw, heq⟩ := List.mem_map.mp hu
  cases heq
  rw [hd, he]
  exact ⟨_, w, hw, hu0, hle⟩

/-- **A balanced matrix is not small**, unless all entries are zero. -/
theorem Holds.exists_le_abs_balanced {M : SolverMatrix α} {A : SlicedMatrix α}
    (hM : M.Holds A) {h q : ℕ} (hA : A.Moderate h q) (t : Magnitude)
    {d e : Array α} {budget : Nat} {tol : α}
    {run : BalanceRun α} {record : BalanceRecord α} (hrun : Balancing.run
      (M.holding (magnitudes A t)).operator d e budget tol () = .ok (run, ()))
    (hok : run.outcome = .ok record)
    (hhi : 2 * Balancing.spread (2 * h) q record.iterations
      + (12 * q + 4 * h + (model α).mantissaBits + 32) ≤ (model α).exponentBias)
    {v : α} (hv : v ∈ A.values) (hv0 : toReal v ≠ 0) :
    ∃ i j b, (i, j, b)
      ∈ (balanced A t (factorsFor t run.d) (factorsFor t run.e)).triplets
      ∧ (2 : ℝ) ^ (-(h + q + 7) : ℤ) ≤ |toReal b| := by
  have hX := Balancing.spread_nonneg (2 * h) q record.iterations
  have hF := hM.factored_of_run hA t hrun hok (by omega) (by omega)
  obtain ⟨i, j, hmem⟩ := SlicedMatrix.mem_triplets_of_mem_values hM.check hv
  rcases Nat.eq_zero_or_pos record.iterations with h0 | hiter
  · -- all factors are one
    have hspread : Balancing.spread (2 * h) q record.iterations = 0 := by
      rw [h0]
      exact mul_zero _
    refine ⟨i, j, _, SlicedMatrix.mem_triplets_mapEntries _ hmem, ?_⟩
    rcases balanced_cases hM.check hA hF hhi hmem
      with ⟨-, hzero, -⟩ | ⟨s, -, hb⟩
    · exact absurd hzero hv0
    · rw [hb.abs_eq]
      exact (zpow_le_zpow.mpr (by omega)).trans hb.lower
  · obtain ⟨s, hs⟩ := (hA.cases hv).resolve_left fun h0 => hv0 h0.2
    obtain ⟨k, u, hu, hu0, hle⟩ :=
      hM.levelled_of_run hA t hrun hok (by omega) (by omega) hiter hmem
        (t.between_of hs (by omega)).toReal_pos.ne'
    obtain ⟨hi, hk⟩ := SlicedMatrix.lt_of_mem_triplets hM.check hu
    have humem := SlicedMatrix.mem_values_of_mem_triplets hM.check hu
    obtain ⟨s', hs'⟩ :=
      (hA.cases humem).resolve_left fun h0 => hu0 (t.of_zero h0.1 h0.2).2
    refine ⟨i, k, _, SlicedMatrix.mem_triplets_mapEntries _ hu, ?_⟩
    have hi' := hi.trans_eq hF.x_size.symm
    have hk' := hk.trans_eq hF.y_size.symm
    rw [getD_factorsFor t hi', getD_factorsFor t hk']
    exact (zpow_le_zpow.mpr (by omega)).trans (le_abs_balanced t hs'
      (hF.x_between _ (Vec.getD_mem hi' 0))
      (hF.y_between _ (Vec.getD_mem hk' 0)) (by omega) (by omega) hle)

end SolverMatrix

end Equilibration
