import Equilibration.Proofs.NormRanges

/-!
# BalancingRanges — factors within bounds

An iteration of balancing widens the range of the factors by a fixed number
of powers of two, so after a few iterations they are still far from the ends
of the format (`Balancing.InRange`). The row factors are computed from the
sums that the column factors give; so whatever the factors are, an entry
between its two factors is never large.
-/

namespace Equilibration

open Checked FloatingPoint Rounding

namespace Balancing

variable {α : Type} [Scalar α] [FloatingPoint α]

/-- The factor of a sum of `n` terms, some of which may be missing. -/
theorem between_factor {a : ℤ} {n q N : ℕ} {s : α} (hs : SumOf (-a) a n s)
    (hn : n ≤ 2 ^ q) (hN : N ≤ 2 ^ q) (hzero : N = 0 → n = 0)
    (hq : q < (model α).mantissaBits) (hlo : (model α).minExponent ≤ -(a + q))
    (hhi : a + q ≤ (model α).exponentBias) (ha : 0 ≤ a) :
    Between .positive (-(a + q)) (a + q) (factor (Scalar.ofNat N) s) := by
  unfold factor
  split
  · next hpos =>
    have hreal : 0 < toReal s := (zero_lt_iff hs.finite).mp hpos
    have hN0 : 1 ≤ N := by
      refine Nat.one_le_iff_ne_zero.mpr fun h0 => ?_
      have hle := hs.le
      rw [hzero h0, Nat.cast_zero, zero_mul] at hle
      exact hreal.ne' (abs_nonpos_iff.mp hle)
    have htarget := between_ofNat hN0 hN hq
    have hquot := htarget.div (hs.between hn hreal) (by omega) (by omega)
    exact hquot.mono (by omega) (by omega)
  · exact between_one.mono (by omega) (by omega)

/-- How many powers of two the factors may be away from one after some
iterations. -/
def spread (H q iterations : ℕ) : ℤ := 2 * (H + q) * iterations

theorem spread_succ (H q k : ℕ) :
    spread H q (k + 1) = spread H q k + 2 * (H + q) := by
  unfold spread
  push_cast
  ring

theorem spread_nonneg (H q k : ℕ) : 0 ≤ spread H q k := by
  unfold spread
  positivity

theorem two_mul_spread (h q n : ℕ) :
    2 * spread (2 * h) q n = (4 * n * (2 * h + q) : ℕ) := by
  unfold spread
  push_cast
  ring

/-- What holds between two iterations of balancing a matrix of numbers from
`2 ^ -H` to `2 ^ H`. -/
structure InRange (W : SlicedMatrix α) (H q : ℕ) (s : State α) : Prop where
  d : ∀ v ∈ s.d, Between .positive (-spread H q s.record.iterations)
    (spread H q s.record.iterations) v
  e : ∀ v ∈ s.e, Between .positive (-spread H q s.record.iterations)
    (spread H q s.record.iterations) v
  entries :
      0 < s.record.iterations → ∀ i j v, (i, j, v) ∈ W.triplets → toReal v ≠ 0 →
    toReal (s.d.getD i 0) * (toReal v * toReal (s.e.getD j 0))
      ≤ (2 : ℝ) ^ (q + 2 : ℤ)

theorem inRange_start (W : SlicedMatrix α) (H q : ℕ) (d e sums : Array α) :
    InRange W H q (start d e sums) where
  d v hv := by
    obtain ⟨_, -, rfl⟩ := Array.mem_map.mp hv
    exact between_one.mono (by simp [start, spread]) (by simp [start, spread])
  e v hv := by
    obtain ⟨_, -, rfl⟩ := Array.mem_map.mp hv
    exact between_one.mono (by simp [start, spread]) (by simp [start, spread])
  entries h := absurd h (Nat.lt_irrefl 0)

section Step

variable {W : SlicedMatrix α} (h : W.check = .ok (.ok ())) (hroom : W.HasRoom)
  {H q : ℕ} (hsized : W.Sized q) (hW : ∀ v ∈ W.values, SumOf (-H) H 1 v)

include h hroom hsized hW

/-- The factors of one side, from those of the other. -/
theorem factors_range (shape : Shape) {X : ℤ} {x y : Array α} (hX : 0 ≤ X)
    (hx : ∀ v ∈ x, Between .positive (-X) X v)
    (hhi : X + H + q ≤ (model α).exponentBias) {k N : Nat} (hk : k < y.size)
    (hN : N ≤ 2 ^ q) (hzero : N = 0 → W.values.size = 0) :
    ∃ v, (W.product shape 1 0 x y)[k]? = some v
      ∧ Between .positive (-(X + H + q)) (X + H + q) (factor (Scalar.ofNat N) v)
      ∧ SumOf (-(X + H)) (X + H) W.values.size v
      ∧ ∀ i j u, (shape.order.locate i j).1 = k → (i, j, u) ∈ W.triplets →
        toReal (u * x.getD (shape.order.locate i j).2 0) ≤ toReal v := by
  have hmin := minExponent_le (model α)
  have hrep : Representable α (H + X) W.values.size :=
    representable_of_le (by omega) hsized.count_le hsized.precise.le (by omega)
  obtain ⟨v, hv, hsum, hterms⟩ :=
    sumOf_product h hroom shape hW (fun v hv => (hx v hv).sumOf)
      (by omega) hrep (by omega) hk
  have hsum' : SumOf (-(X + H)) (X + H) W.values.size v := by
    rwa [neg_add, add_comm (-X), add_comm X]
  exact ⟨v, hv, between_factor hsum' hsized.count_le hN hzero hsized.precise
    (by omega) (by omega) (by omega), hsum', hterms⟩

omit h hroom hsized hW in
/-- The quotient in a row factor and the product of an entry and its column
factor are rounded by at most a factor of two. -/
theorem factor_bounds {N : Nat} (hN : 1 ≤ N) (hNq : N ≤ 2 ^ q)
    (hq : q < (model α).mantissaBits) {X : ℤ} {u x s : α}
    (hu : Between .positive (-H) H u) (hx : Between .positive (-X) X x)
    (hs : Between .positive (-(X + H)) (X + H + q) s)
    (hhi : X + H + q ≤ (model α).exponentBias) :
    (toReal (factor (Scalar.ofNat N) s)
      ≤ 2 * (toReal (Scalar.ofNat N : α) / toReal s)
        ∧ toReal (Scalar.ofNat N : α) / toReal s
          ≤ 2 * toReal (factor (Scalar.ofNat N) s))
      ∧ toReal (u * x) ≤ 2 * (toReal u * toReal x)
      ∧ toReal u * toReal x ≤ 2 * toReal (u * x) := by
  have hmin := minExponent_le (model α)
  have htarget := between_ofNat (α := α) hN hNq hq
  unfold factor
  rw [if_pos hs.zero_lt]
  exact ⟨(htarget.rounded_div hs (by omega)).le_two_mul
      ((zpow_le_zpow.mpr (by omega)).trans (htarget.div_bounds hs).1),
    (hu.rounded_mul hx (by omega)).le_two_mul
      ((zpow_le_zpow.mpr (by omega)).trans (hu.mul_bounds hx).1)⟩

omit h hroom hsized hW in
/-- A row factor times an entry and its column factor is never large: the
factor is the target divided by a sum that is at least their product. -/
theorem factor_mul_le {N : Nat} (hN : 1 ≤ N) (hNq : N ≤ 2 ^ q)
    (hq : q < (model α).mantissaBits) {X : ℤ} {u x s : α}
    (hu : Between .positive (-H) H u) (hx : Between .positive (-X) X x)
    (hs : Between .positive (-(X + H)) (X + H + q) s)
    (hle : toReal (u * x) ≤ toReal s)
    (hhi : X + H + q ≤ (model α).exponentBias) :
    toReal (factor (Scalar.ofNat N) s) * (toReal u * toReal x)
      ≤ (2 : ℝ) ^ (q + 2 : ℤ) := by
  have htarget := between_ofNat (α := α) hN hNq hq
  obtain ⟨hquot, hprod⟩ := factor_bounds hN hNq hq hu hx hs hhi
  have hs0 := hs.toReal_pos
  have hux0 : 0 ≤ toReal u * toReal x :=
    (mul_pos hu.toReal_pos hx.toReal_pos).le
  calc toReal (factor (Scalar.ofNat N) s) * (toReal u * toReal x)
      ≤ 2 * (toReal (Scalar.ofNat N : α) / toReal s) * (2 * toReal s) := by
        refine mul_le_mul hquot.1 (hprod.2.trans (by linarith)) hux0 ?_
        exact mul_nonneg two_pos.le (div_pos htarget.toReal_pos hs0).le
    _ = 4 * toReal (Scalar.ofNat N : α) := by
        field_simp
        ring
    _ ≤ 4 * (2 : ℝ) ^ (q : ℤ) := by
        linarith [show toReal (Scalar.ofNat N : α) ≤ _ from htarget.upper]
    _ = (2 : ℝ) ^ (q + 2 : ℤ) := by
        rw [zpow_add₀ two_ne_zero]
        norm_num
        ring

section Next

variable {s s' : State α} (hs : InRange W H q s) (hd : s.d.size = W.rows)
  (he : s.e.size = W.cols) (hsums : s.sums.size = W.cols)
  (hhi : spread H q (s.record.iterations + 1) ≤ (model α).exponentBias)
  (hnext : next (fun shape x y => W.product shape 1 0 x y) W.rows W.cols s = s')

include hs hd he hsums hhi hnext

omit hd in
theorem next_e : ∀ v ∈ s'.e,
      Between .positive (-(spread H q s.record.iterations + H + q))
        (spread H q s.record.iterations + H + q) v := by
  have hX := spread_nonneg H q s.record.iterations
  have hsucc := spread_succ H q s.record.iterations
  intro v hv
  obtain ⟨j, hj, rfl⟩ := Array.mem_iff_getElem.mp hv
  have hj' : j < s.sums.size := by
    rw [hsums, ← he]
    simpa [← hnext, next] using hj
  obtain ⟨t, ht, hfactor, -, -⟩ := factors_range h hroom hsized hW .transposed
    hX hs.d (by omega) hj' hsized.rows_le fun h0 => by
    rw [SlicedMatrix.values_eq_empty h (.inl h0)]; rfl
  have helem : s'.e[j] = factor (Scalar.ofNat W.rows) t := by
    simp only [← hnext, next, Vec.overwrite, Array.getElem_mapIdx, ht]
  rw [helem]
  exact hfactor

theorem next_d {i : Nat} (hi : i < W.rows) :
    ∃ t, s'.d[i]? = some (factor (Scalar.ofNat W.cols) t)
      ∧ Between .positive (-(spread H q s.record.iterations + H + q + H + q))
        (spread H q s.record.iterations + H + q + H + q)
        (factor (Scalar.ofNat W.cols) t)
      ∧ SumOf (-(spread H q s.record.iterations + H + q + H))
        (spread H q s.record.iterations + H + q + H) W.values.size t
      ∧ ∀ j u,
        (i, j, u) ∈ W.triplets → toReal (u * s'.e.getD j 0) ≤ toReal t := by
  have he' := next_e h hroom hsized hW hs he hsums hhi hnext
  have hX := spread_nonneg H q s.record.iterations
  have hsucc := spread_succ H q s.record.iterations
  obtain ⟨t, ht, hfactor, hsum, hterms⟩ :=
    factors_range h hroom hsized hW .normal (by omega) he'
      (by omega) (hd.symm ▸ hi : i < s.d.size) hsized.cols_le fun h0 => by
    rw [SlicedMatrix.values_eq_empty h (.inr h0)]; rfl
  refine ⟨t, ?_, hfactor, hsum, fun j u hu => hterms i j u rfl hu⟩
  subst hnext
  show (Array.map _ (W.product .normal 1 0 _ s.d))[i]? = _
  rw [Array.getElem?_map]
  exact congrArg (Option.map _) ht

/-- **One iteration widens the range** by `2 * (H + q)` powers of two. -/
theorem inRange_next : InRange W H q s' := by
  have hcount : s'.record.iterations = s.record.iterations + 1 := by
    rw [← hnext, iterations_next]
  have hdsize : s'.d.size = W.rows := by
    rw [← hnext, ← hd]
    simp [next]
  have hesize : s'.e.size = W.cols := by
    rw [← hnext, ← he]
    simp [next]
  have hmin := minExponent_le (model α)
  have hX := spread_nonneg H q s.record.iterations
  have hsucc := spread_succ H q s.record.iterations
  have he' := next_e h hroom hsized hW hs he hsums hhi hnext
  refine ⟨?_, ?_, ?_⟩
  · intro v hv
    obtain ⟨i, hi, rfl⟩ := Array.mem_iff_getElem.mp hv
    obtain ⟨t, ht, hfactor, -⟩ :=
      next_d h hroom hsized hW hs hd he hsums hhi hnext
        (hdsize ▸ hi : i < W.rows)
    rw [Array.getElem?_eq_getElem hi, Option.some.injEq] at ht
    rw [ht, hcount]
    exact hfactor.mono (by omega) (by omega)
  · intro v hv
    rw [hcount]
    exact (he' v hv).mono (by omega) (by omega)
  · intro _ i j v hv hv0
    obtain ⟨hi, hj⟩ := SlicedMatrix.lt_of_mem_triplets h hv
    obtain ⟨t, ht, -, hsum, hterms⟩ :=
      next_d h hroom hsized hW hs hd he hsums hhi hnext hi
    have hvalue : Between .positive (-H) H v :=
      (hW v (SlicedMatrix.mem_values_of_mem_triplets h hv)).cases.resolve_left
        fun h0 => hv0 h0.2
    have hej : Between .positive (-(spread H q s.record.iterations + H + q))
        (spread H q s.record.iterations + H + q) (s'.e.getD j 0) :=
      he' _ (Vec.getD_mem (hesize.symm ▸ hj) 0)
    have hle := hterms j v hv
    have ht0 : 0 < toReal t :=
      (hvalue.mul hej (by omega) (by omega)).toReal_pos.trans_le hle
    have hdi : s'.d.getD i 0 = factor (Scalar.ofNat W.cols) t := by
      rw [Array.getD_eq_getD_getElem?, ht, Option.getD_some]
    rw [hdi]
    exact factor_mul_le (Nat.one_le_of_lt hj) hsized.cols_le hsized.precise
      hvalue hej (hsum.between hsized.count_le ht0) hle (by omega)

end Next

end Step

section Run

variable {W : SlicedMatrix α} (h : W.check = .ok (.ok ())) (hroom : W.HasRoom)
  {H q : ℕ} (hsized : W.Sized q) (hW : ∀ v ∈ W.values, SumOf (-H) H 1 v)
  {O : Operator Unit α}
  (hO : O.Computes fun shape x y => W.product shape 1 0 x y)
  (hrows : O.rows = W.rows) (hcols : O.cols = W.cols) {d e : Array α}
  {budget : Nat} {tol : α} {r : BalanceRun α} {record : BalanceRecord α}
  (hrun : run O d e budget tol () = .ok (r, ())) (hok : r.outcome = .ok record)
  (hhi : spread H q record.iterations ≤ (model α).exponentBias)

include h hroom hsized hW hO hrows hcols hrun hok hhi

/-- What an iteration in range preserves holds after a run. -/
theorem inRange_rule (P : State α → Prop) (hstart : ∀ sums, P (start d e sums))
    (hnext : ∀ s, InRange W H q s → s.d.size = W.rows → s.e.size = W.cols →
      s.sums.size = W.cols →
      spread H q (s.record.iterations + 1) ≤ (model α).exponentBias → P s →
      P (next (fun shape x y => W.product shape 1 0 x y) W.rows W.cols s)) :
    ∃ s, InRange W H q s ∧ P s ∧ s.d.size = W.rows ∧ s.e.size = W.cols
      ∧ s.record.iterations = record.iterations ∧ r.d = s.d ∧ r.e = s.e := by
  obtain ⟨hd, he, hlt⟩ := sizes_of_run hrun
  -- states beyond the reported number of iterations do not matter
  obtain ⟨s, record', hs, hfits, hiter, hrun'⟩ := run_rule hO
    (fun s => s.record.iterations ≤ record.iterations → InRange W H q s ∧ P s)
    (fun _ => ⟨inRange_start W H q d e _, hstart _⟩) (fun s hfits hs hle => by
      rw [iterations_next] at hle
      obtain ⟨hrange, hP⟩ := hs (by omega)
      have hspread :
          spread H q (s.record.iterations + 1) ≤ (model α).exponentBias := by
        refine le_trans ?_ hhi
        unfold spread
        gcongr
      rw [hrows, hcols]
      exact ⟨inRange_next h hroom hsized hW hrange (hfits.d_size.trans hrows)
        (hfits.e_size.trans hcols) (hfits.sums_size.trans hcols) hspread rfl,
        hnext s hrange (hfits.d_size.trans hrows) (hfits.e_size.trans hcols)
          (hfits.sums_size.trans hcols) hspread hP⟩) hd he hlt budget tol
  rw [hrun] at hrun'
  cases hrun'
  cases hok
  obtain ⟨hrange, hP⟩ := hs hiter.ge
  exact ⟨s, hrange, hP, hfits.d_size.trans hrows, hfits.e_size.trans hcols,
    hiter.symm, rfl, rfl⟩

/-- **Factors after a run.** -/
theorem inRange_run :
    ∃ s, InRange W H q s ∧ s.d.size = W.rows ∧ s.e.size = W.cols
      ∧ s.record.iterations = record.iterations ∧ r.d = s.d ∧ r.e = s.e := by
  obtain ⟨s, hs, -, hrest⟩ :=
    inRange_rule h hroom hsized hW hO hrows hcols hrun hok hhi
      (fun _ => True) (fun _ => trivial) fun _ _ _ _ _ _ _ => trivial
  exact ⟨s, hs, hrest⟩

end Run

end Balancing

end Equilibration
