import Equilibration.Balancing
import Equilibration.Proofs.BuiltProducts
import Equilibration.SpectralNorm

/-!
# Iterations — balancing and norm estimation without failures

On an operator that computes its products, balancing is a loop that turns
one state into the next (`Balancing.next`), and what holds before the loop
and is kept by every iteration holds of the factors it returns
(`Balancing.iterate_rule`). Norm estimation always comes to an estimate.
-/

namespace Equilibration

open Checked

/-- The rest of a computation after a step with a known result. -/
theorem StateT.bind_of_ok {σ β γ : Type} {m : StateT σ Checked β}
    {k : β → StateT σ Checked γ} {s s' : σ} {b : β} (h : m s = .ok (b, s')) :
    (m >>= k) s = k b s' := by
  show (m s >>= fun p => k p.1 p.2) = _
  rw [h]
  rfl

namespace Balancing

variable {α : Type} [Scalar α] {A : Operator Unit α}
  {f : Shape → Array α → Array α → Array α}

/-- The state after one more iteration. -/
def next (f : Shape → Array α → Array α → Array α) (rows cols : Nat)
    (s : State α) : State α :=
  let sums := f .transposed s.d s.sums
  let e := Vec.overwrite (factor (Scalar.ofNat rows)) s.e sums
  let record := measure (Scalar.ofNat rows) sums s.e s.record
  { d := (f .normal e s.d).map (factor (Scalar.ofNat cols))
    e
    sums
    record := { record with iterations := record.iterations + 1 } }

theorem iterations_measure (target : α) (sums e : Array α)
    (record : BalanceRecord α) :
    (measure target sums e record).iterations = record.iterations := by
  unfold measure
  split <;> rfl

theorem iterations_next (f : Shape → Array α → Array α → Array α)
    (rows cols : Nat) (s : State α) :
    (next f rows cols s).record.iterations = s.record.iterations + 1 :=
  congrArg (· + 1) (iterations_measure _ _ _ _)

/-- The vectors of a state have the lengths that the operator asks for. -/
structure State.Fits (A : Operator Unit α) (s : State α) : Prop where
  d_size : s.d.size = A.rows
  e_size : s.e.size = A.cols
  sums_size : s.sums.size = A.cols

theorem State.Fits.next (hA : A.Computes f) {s : State α} (hs : s.Fits A) :
    (next f A.rows A.cols s).Fits A := by
  obtain ⟨-, hsums⟩ := hA .transposed s.d s.sums hs.d_size hs.sums_size
  have he : (Vec.overwrite (factor (Scalar.ofNat A.rows)) s.e
      (f .transposed s.d s.sums)).size
      = A.cols := by
    rw [Vec.size_overwrite]
    exact hs.e_size
  obtain ⟨-, hd⟩ := hA .normal _ s.d he hs.d_size
  refine ⟨?_, he, hsums.trans hs.sums_size⟩
  show (Array.map _ _).size = _
  rw [Array.size_map, hd]
  exact hs.d_size

/-- One step of the loop. -/
theorem iterate_succ (hA : A.Computes f) (tol : α) (budget : Nat) {s : State α}
    (hs : s.Fits A) :
    iterate A tol (budget + 1) s () =
      let record :=
        measure (Scalar.ofNat A.rows) (f .transposed s.d s.sums) s.e s.record
      if 0 < record.iterations ∧ record.residual < tol then
        .ok (⟨s.d, s.e, .ok { record with converged := true }⟩, ())
      else iterate A tol budget (next f A.rows A.cols s) () := by
  obtain ⟨hcolumns, -⟩ := hA .transposed s.d s.sums hs.d_size hs.sums_size
  obtain ⟨hrows, -⟩ := hA .normal _ s.d (hs.next hA).e_size hs.d_size
  rw [iterate, StateT.bind_of_ok hcolumns]
  dsimp only
  split
  · rfl
  · exact StateT.bind_of_ok hrows

/-- Nothing is close enough before the first iteration. -/
theorem iterate_first (hA : A.Computes f) (tol : α) (budget : Nat) {s : State α}
    (hs : s.Fits A) (hzero : s.record.iterations = 0) :
    iterate A tol (budget + 1) s ()
      = iterate A tol budget (next f A.rows A.cols s) () := by
  rw [iterate_succ hA tol budget hs]
  apply if_neg
  rw [iterations_measure, hzero]
  exact fun hstop => Nat.lt_irrefl 0 hstop.1

/-- **The rule of the balancing loop.** The factors that it returns are
those of a state in which every property holds that held at first and is
kept by an iteration. -/
theorem iterate_rule (hA : A.Computes f) {P : State α → Prop}
    (hnext : ∀ s, s.Fits A → P s → P (next f A.rows A.cols s)) (tol : α)
    (budget : Nat) {s : State α} (hfits : s.Fits A) (hs : P s) :
    ∃ (s' : State α) (record : BalanceRecord α), P s' ∧ s'.Fits A
      ∧ record.iterations = s'.record.iterations
      ∧ iterate A tol budget s () = .ok (⟨s'.d, s'.e, .ok record⟩, ()) := by
  induction budget generalizing s with
  | zero => exact ⟨s, s.record, hs, hfits, rfl, rfl⟩
  | succ budget ih =>
    rw [iterate_succ hA tol budget hfits]
    dsimp only
    split
    · -- close enough: the factors are those of this state
      exact ⟨s, { measure _ _ s.e s.record with converged := true }, hs, hfits,
        iterations_measure _ _ _ _, rfl⟩
    · exact ih (hfits.next hA) (hnext s hfits hs)

theorem fits_start {d e : Array α} (hd : d.size = A.rows)
    (he : e.size = A.cols) :
    (start d e (Array.replicate A.cols 0)).Fits A :=
  ⟨(Vec.size_fill d 1).trans hd, (Vec.size_fill e 1).trans he,
    Array.size_replicate⟩

theorem run_eq {d e : Array α} (hd : d.size = A.rows) (he : e.size = A.cols)
    (hcols : A.cols < capacity) (budget : Nat) (tol : α) :
    run A d e budget tol ()
      = iterate A tol budget (start d e (Array.replicate A.cols 0)) () := by
  unfold run
  rw [require_eq_ok hd, require_eq_ok he, allocate_eq_ok hcols]
  rfl

/-- The rule of the loop, for a whole run. -/
theorem run_rule (hA : A.Computes f) (P : State α → Prop) {d e : Array α}
    (hstart : P (start d e (Array.replicate A.cols 0)))
    (hnext : ∀ s, s.Fits A → P s → P (next f A.rows A.cols s))
    (hd : d.size = A.rows) (he : e.size = A.cols) (hcols : A.cols < capacity)
    (budget : Nat) (tol : α) :
    ∃ (s : State α) (record : BalanceRecord α), P s ∧ s.Fits A
      ∧ record.iterations = s.record.iterations
      ∧ run A d e budget tol () = .ok (⟨s.d, s.e, .ok record⟩, ()) := by
  rw [run_eq hd he hcols]
  exact iterate_rule hA hnext tol budget (fits_start hd he) hstart

/-- What a run must have been given if it has a result. -/
theorem sizes_of_run {d e : Array α} {budget : Nat} {tol : α}
    {r : BalanceRun α × Unit} (h : run A d e budget tol () = .ok r) :
    d.size = A.rows ∧ e.size = A.cols ∧ A.cols < capacity := by
  by_cases hd : d.size = A.rows
  · by_cases he : e.size = A.cols
    · by_cases hcols : A.cols < capacity
      · exact ⟨hd, he, hcols⟩
      · unfold run at h
        rw [require_eq_ok hd, require_eq_ok he, allocate, require, if_neg hcols]
          at h
        cases h
    · unfold run at h
      rw [require_eq_ok hd, require, if_neg he] at h
      cases h
  · unfold run at h
    rw [require, if_neg hd] at h
    cases h

/-- The first iteration is always made. -/
theorem iterations_pos (hA : A.Computes f) {d e : Array α} {budget : Nat}
    {tol : α} (hbudget : 0 < budget) {r : BalanceRun α}
    {record : BalanceRecord α} (h : run A d e budget tol () = .ok (r, ()))
    (hok : r.outcome = .ok record) :
    0 < record.iterations := by
  obtain ⟨hd, he, hcols⟩ := sizes_of_run h
  rw [run_eq hd he hcols] at h
  cases budget with
  | zero => exact absurd hbudget (Nat.lt_irrefl 0)
  | succ budget =>
    have hfits : (start d e (Array.replicate A.cols 0)).Fits A :=
      fits_start hd he
    rw [iterate_first hA tol budget hfits rfl] at h
    obtain ⟨s, record', hpos, -, hiter, hrun⟩ := iterate_rule hA
      (P := fun s => 0 < s.record.iterations) (fun s _ _ => Nat.succ_pos _) tol
      budget (hfits.next hA) (Nat.succ_pos _)
    rw [hrun] at h
    cases h
    cases hok
    rwa [hiter]

theorem iterations_iterate_le (hA : A.Computes f) (tol : α) (budget : Nat)
    {s : State α} (hs : s.Fits A) {r : BalanceRun α} {record : BalanceRecord α}
    (h : iterate A tol budget s () = .ok (r, ()))
    (hok : r.outcome = .ok record) :
    record.iterations ≤ s.record.iterations + budget := by
  induction budget generalizing s with
  | zero =>
    cases h
    cases hok
    exact le_rfl
  | succ budget ih =>
    rw [iterate_succ hA tol budget hs] at h
    dsimp only at h
    split at h
    · cases h
      cases hok
      exact (iterations_measure _ _ _ _).trans_le (Nat.le_add_right _ _)
    · refine (ih (hs.next hA) h).trans_eq ?_
      rw [iterations_next]
      omega

/-- A run stays within its budget. -/
theorem iterations_le (hA : A.Computes f) {d e : Array α} {budget : Nat}
    {tol : α} {r : BalanceRun α} {record : BalanceRecord α}
    (h : run A d e budget tol () = .ok (r, ())) (hok : r.outcome = .ok record) :
    record.iterations ≤ budget := by
  obtain ⟨hd, he, hcols⟩ := sizes_of_run h
  rw [run_eq hd he hcols] at h
  exact (iterations_iterate_le hA tol budget (fits_start hd he) h hok).trans_eq
    (Nat.zero_add _)

/-! ### Where a run ends -/

/-- The column sums of a state deviate by less than the tolerance. -/
def Close (f : Shape → Array α → Array α → Array α) (rows : Nat) (tol : α)
    (s : State α) : Prop :=
  worstDeviation (f .transposed s.d s.sums) s.e (Scalar.ofNat rows) < tol

theorem measured_lt_iff (target tol : α) (sums e : Array α)
    (record : BalanceRecord α) :
    (0 < (measure target sums e record).iterations
      ∧ (measure target sums e record).residual < tol)
      ↔ 0 < record.iterations ∧ worstDeviation sums e target < tol := by
  unfold measure
  split
  · next hzero => simp [hzero]
  · exact Iff.rfl

theorem converged_next (f : Shape → Array α → Array α → Array α)
    (rows cols : Nat) (s : State α) :
    (next f rows cols s).record.converged = s.record.converged := by
  show (measure _ _ _ s.record).converged = _
  unfold measure
  split <;> rfl

/-- The number of iterations and the verdict that a loop ends with: it is
close enough after the last one and was not before, or the budget is used
up. -/
structure Ends (f : Shape → Array α → Array α → Array α) (rows cols : Nat)
    (tol : α) (budget : Nat) (s : State α) (n : Nat) (converged : Bool) :
    Prop where
  le_budget : n ≤ budget
  not_close : ∀ l < n, 0 < ((next f rows cols)^[l] s).record.iterations →
    ¬ Close f rows tol ((next f rows cols)^[l] s)
  close : converged = true →
      n < budget ∧ 0 < ((next f rows cols)^[n] s).record.iterations
        ∧ Close f rows tol ((next f rows cols)^[n] s)
  spent : converged = false → n = budget

/-- The factors that a loop returns are those of the state after as many
iterations as it reports. -/
theorem iterate_ends (hA : A.Computes f) (tol : α) (budget : Nat) {s : State α}
    (hs : s.Fits A) (hconverged : s.record.converged = false) :
    ∃ (n : Nat) (record : BalanceRecord α),
      iterate A tol budget s ()
          = .ok (⟨((next f A.rows A.cols)^[n] s).d,
            ((next f A.rows A.cols)^[n] s).e, .ok record⟩, ())
        ∧ record.iterations = s.record.iterations + n
        ∧ Ends f A.rows A.cols tol budget s n record.converged := by
  induction budget generalizing s with
  | zero =>
    refine ⟨0, s.record, rfl, rfl, le_rfl,
      fun l hl => absurd hl (Nat.not_lt_zero l), fun h => ?_, fun _ => rfl⟩
    rw [hconverged] at h
    cases h
  | succ budget ih =>
    rw [iterate_succ hA tol budget hs]
    dsimp only
    by_cases hclose : 0 < s.record.iterations ∧ Close f A.rows tol s
    · rw [if_pos ((measured_lt_iff _ tol _ _ _).mpr hclose)]
      exact ⟨0, { measure _ _ s.e s.record with converged := true }, rfl,
        iterations_measure _ _ _ _, Nat.zero_le _, fun l hl =>
        absurd hl (Nat.not_lt_zero l),
        fun _ => ⟨Nat.succ_pos _, hclose⟩, fun h => nomatch h⟩
    · rw [if_neg ((measured_lt_iff _ tol _ _ _).not.mpr hclose)]
      obtain ⟨n, record, hrun, hiter, hends⟩ :=
        ih (hs.next hA) ((converged_next f A.rows A.cols s).trans hconverged)
      refine ⟨n + 1, record, hrun, ?_, Nat.succ_le_succ hends.le_budget,
        ?_, ?_, ?_⟩
      · rw [hiter, iterations_next]
        omega
      · intro l hl
        cases l with
        | zero => exact fun hpos h => hclose ⟨hpos, h⟩
        | succ l => exact hends.not_close l (Nat.lt_of_succ_lt_succ hl)
      · intro h
        obtain ⟨hlt, hclose⟩ := hends.close h
        exact ⟨Nat.succ_lt_succ hlt, hclose⟩
      · intro h
        rw [hends.spent h]

/-- The state of a run after `k` iterations. -/
def stateAfter (f : Shape → Array α → Array α → Array α) (rows cols : Nat)
    (d e : Array α) (k : Nat) : State α :=
  (next f rows cols)^[k] (start d e (Array.replicate cols 0))

theorem stateAfter_succ (f : Shape → Array α → Array α → Array α)
    (rows cols : Nat) (d e : Array α) (k : Nat) :
    stateAfter f rows cols d e (k + 1)
      = next f rows cols (stateAfter f rows cols d e k) :=
  Function.iterate_succ_apply' _ _ _

theorem iterations_stateAfter (f : Shape → Array α → Array α → Array α)
    (rows cols : Nat) (d e : Array α) (k : Nat) :
    (stateAfter f rows cols d e k).record.iterations = k := by
  induction k with
  | zero => rfl
  | succ k ih => rw [stateAfter_succ, iterations_next, ih]

theorem fits_stateAfter (hA : A.Computes f) {d e : Array α}
    (hd : d.size = A.rows) (he : e.size = A.cols) (k : Nat) :
    (stateAfter f A.rows A.cols d e k).Fits A := by
  induction k with
  | zero => exact fits_start hd he
  | succ k ih =>
    rw [stateAfter_succ]
    exact ih.next hA

/-- The verdict on a run after `k` iterations, of which the first is never
judged. -/
structure RunEnds (f : Shape → Array α → Array α → Array α) (rows cols : Nat)
    (d e : Array α) (budget : Nat) (tol : α) (k : Nat) (converged : Bool) :
    Prop where
  le_budget : k ≤ budget
  not_close :
      ∀ l, 0 < l → l < k → ¬ Close f rows tol (stateAfter f rows cols d e l)
  close : converged = true →
    0 < k ∧ k < budget ∧ Close f rows tol (stateAfter f rows cols d e k)
  spent : converged = false → k = budget

/-- A run that reaches the first close state within its budget ends there. -/
theorem RunEnds.of_first {f : Shape → Array α → Array α → Array α}
    {rows cols : Nat} {d e : Array α} {budget : Nat} {tol : α} {n : Nat}
    {converged : Bool} (h : RunEnds f rows cols d e budget tol n converged)
    {k : Nat} (hpos : 0 < k) (hbudget : k < budget)
    (hclose : k ≤ n → Close f rows tol (stateAfter f rows cols d e k))
    (hfirst : ∀ l, 0 < l → l < k → l ≤ n →
      ¬ Close f rows tol (stateAfter f rows cols d e l)) :
    converged = true ∧ n = k := by
  rcases Nat.lt_trichotomy n k with hlt | rfl | hgt
  · cases converged with
    | false => exact absurd (h.spent rfl) (hlt.trans hbudget).ne
    | true =>
      obtain ⟨hn, -, hclose⟩ := h.close rfl
      exact absurd hclose (hfirst n hn hlt le_rfl)
  · cases converged with
    | false => exact absurd (h.spent rfl) hbudget.ne
    | true => exact ⟨rfl, rfl⟩
  · exact absurd (hclose hgt.le) (h.not_close k hpos hgt)

/-- **Where a run ends.** -/
theorem run_ends (hA : A.Computes f) {d e : Array α} (hd : d.size = A.rows)
    (he : e.size = A.cols) (hcols : A.cols < capacity) (budget : Nat)
    (tol : α) :
    ∃ record : BalanceRecord α,
      run A d e budget tol ()
          = .ok (⟨(stateAfter f A.rows A.cols d e record.iterations).d,
              (stateAfter f A.rows A.cols d e record.iterations).e, .ok record⟩,
            ())
        ∧ RunEnds f A.rows A.cols d e budget tol record.iterations
          record.converged := by
  rw [run_eq hd he hcols]
  obtain ⟨k, record, hrun, hiter, hends⟩ :=
    iterate_ends hA tol budget (fits_start hd he) rfl
  obtain rfl : record.iterations = k := hiter.trans (Nat.zero_add k)
  have hpos := iterations_stateAfter f A.rows A.cols d e
  refine ⟨record, hrun, hends.le_budget, fun l hl hlk => ?_, fun h => ?_,
    hends.spent⟩
  · exact hends.not_close l hlk (hl.trans_eq (hpos l).symm)
  · obtain ⟨hlt, hiter, hclose⟩ := hends.close h
    exact ⟨hiter.trans_eq (hpos _), hlt, hclose⟩

end Balancing

namespace SpectralNorm

variable {α : Type} [Scalar α] {A : Operator Unit α}
  {f : Shape → Array α → Array α → Array α}

/-- The rest of an estimate after a product. -/
theorem apply_bind {β : Type} (hA : A.Computes f) (shape : Shape)
    {x y : Array α} (hx : x.size = shape.domain A.rows A.cols)
    (hy : y.size = shape.codomain A.rows A.cols)
    (k : Array α → ExceptT Refusal (StateT Unit Checked) β) :
    (A.apply shape x y >>= k).run () = (k (f shape x y)).run () := by
  obtain ⟨hmul, -⟩ := hA shape x y hx hy
  have happly : (A.apply shape x y).run () = .ok (.ok (f shape x y), ()) := by
    show (A.multiply shape 1 x 0 y >>= _) () = _
    rw [StateT.bind_of_ok hmul]
    rfl
  show ((A.apply shape x y).run >>= _) () = _
  rw [StateT.bind_of_ok happly]
  rfl

theorem size_normalize (x : Array α) : (Vec.normalize x).2.size = x.size := by
  unfold Vec.normalize
  dsimp only
  split
  · rfl
  · exact Vec.size_scale x _

/-- The iteration, on products that never fail. -/
def iterateOn (f : Shape → Array α → Array α → Array α) (tol : α) :
    (budget : Nat) → (last : α) → (x w : Array α) → α
  | 0, last, _, _ => last
  | budget + 1, last, x, w =>
    let w := f .normal x w
    let image := Vec.norm w
    if image == 0 then 0
    else
      let unit := Vec.normalize (f .transposed w x)
      let estimate := unit.1 / image
      if Scalar.abs (estimate - last) < tol * estimate then estimate
      else iterateOn f tol budget estimate unit.2 w

/-- The estimate, on products that never fail. -/
def estimateOn (f : Shape → Array α → Array α → Array α)
    (rows cols budget : Nat) (tol : α) : α :=
  if rows = 0 ∨ cols = 0 then 0
  else
    let ones := Array.replicate rows 1
    let unit := Vec.normalize (f .transposed ones (.replicate cols 0))
    if unit.1 == 0 then
      let unit := Vec.normalize (f .transposed (ramp rows) unit.2)
      if unit.1 == 0 then 0 else iterateOn f tol budget 0 unit.2 (ramp rows)
    else iterateOn f tol budget 0 unit.2 ones

theorem iterate_eq (hA : A.Computes f) (tol : α) (budget : Nat) (last : α)
    {x w : Array α} (hx : x.size = A.cols) (hw : w.size = A.rows) :
    (iterate A tol budget last x w).run ()
      = .ok (.ok (iterateOn f tol budget last x w), ()) := by
  induction budget generalizing last x w with
  | zero => rfl
  | succ budget ih =>
    obtain ⟨-, hw'⟩ := hA .normal x w hx hw
    obtain ⟨-, hx'⟩ := hA .transposed (f .normal x w) x (hw'.trans hw) hx
    rw [iterate, apply_bind hA .normal hx hw, iterateOn]
    dsimp only
    split
    · rfl
    · rw [apply_bind hA .transposed (hw'.trans hw) hx]
      split
      · rfl
      · exact ih _ ((size_normalize _).trans (hx'.trans hx)) (hw'.trans hw)

theorem size_ramp (size : Nat) : (ramp size : Array α).size = size := by
  simp [ramp]

/-- With room for its vectors, or without any, an estimate never fails. -/
theorem estimate_eq (hA : A.Computes f)
    (hroom : (A.rows = 0 ∨ A.cols = 0) ∨ A.rows < capacity ∧ A.cols < capacity)
    (budget : Nat) (tol : α) :
    (estimate A budget tol).run ()
      = .ok (.ok (estimateOn f A.rows A.cols budget tol), ()) := by
  have hones : (Array.replicate A.rows (1 : α)).size = A.rows :=
    Array.size_replicate
  have hzeros : (Array.replicate A.cols (0 : α)).size = A.cols :=
    Array.size_replicate
  obtain ⟨-, hy⟩ :=
    hA .transposed (.replicate A.rows 1) (.replicate A.cols 0) hones hzeros
  have hunit := (size_normalize
      (f .transposed (.replicate A.rows 1) (.replicate A.cols 0))).trans
    (hy.trans hzeros)
  unfold estimate estimateOn
  split
  · rfl
  · next hempty =>
    obtain ⟨hrows, hcols⟩ := hroom.resolve_left hempty
    rw [allocate_eq_ok hcols, allocate_eq_ok hrows]
    show (A.apply .transposed (.replicate A.rows 1) (.replicate A.cols 0)
        >>= _).run () = _
    rw [apply_bind hA .transposed hones hzeros]
    dsimp only
    split
    · -- the ones vanish, so the ramp is tried
      have hramp := size_ramp (α := α) A.rows
      obtain ⟨-, hz⟩ := hA .transposed (ramp A.rows) _ hramp hunit
      rw [apply_bind hA .transposed hramp hunit]
      split
      · rfl
      · exact iterate_eq hA tol budget 0
          ((size_normalize _).trans (hz.trans hunit)) hramp
    · exact iterate_eq hA tol budget 0 hunit hones

/-- An operator that fails at once ends the estimate with its error. -/
theorem estimate_of_refusing {r : Refusal}
    (hA : ∀ shape a x b y, A.multiply shape a x b y () = .ok (⟨y, some r⟩, ()))
    (hrows : A.rows < capacity) (hcols : A.cols < capacity) (budget : Nat)
    (tol : α) :
    ∃ result, (estimate A budget tol).run () = .ok (result, ()) := by
  unfold estimate
  split
  · exact ⟨.ok 0, rfl⟩
  · have happly :
        (A.apply .transposed (.replicate A.rows 1) (.replicate A.cols 0)).run ()
          = .ok (.error r, ()) := by
      show (A.multiply .transposed 1 (.replicate A.rows 1) 0 (.replicate A.cols
          0) >>= _) () = _
      rw [StateT.bind_of_ok (hA _ _ _ _ _)]
      rfl
    rw [allocate_eq_ok hcols, allocate_eq_ok hrows]
    refine ⟨.error r, ?_⟩
    show ((A.apply .transposed (.replicate A.rows 1) (.replicate A.cols 0)).run
        >>= _) () = _
    rw [StateT.bind_of_ok happly]
    rfl

/-- An estimate that comes to a result found room for its vectors, unless it
needed none. -/
theorem capacity_of_estimate {budget : Nat} {tol : α}
    {r : Except Refusal α × Unit} (h : (estimate A budget tol).run () = .ok r) :
    (A.rows = 0 ∨ A.cols = 0) ∨ A.rows < capacity ∧ A.cols < capacity := by
  by_cases hempty : A.rows = 0 ∨ A.cols = 0
  · exact .inl hempty
  · right
    by_cases hcols : A.cols < capacity
    · by_cases hrows : A.rows < capacity
      · exact ⟨hrows, hcols⟩
      · rw [estimate, if_neg hempty, allocate_eq_ok hcols, allocate, require,
          if_neg hrows] at h
        cases h
    · rw [estimate, if_neg hempty, allocate, require, if_neg hcols] at h
      cases h

/-- An estimate that comes to a result is that on products. -/
theorem of_estimate (hA : A.Computes f) {budget : Nat} {tol : α}
    {r : Except Refusal α × Unit} (h : (estimate A budget tol).run () = .ok r) :
    r = (.ok (estimateOn f A.rows A.cols budget tol), ()) := by
  rw [estimate_eq hA (capacity_of_estimate h)] at h
  exact (Except.ok.inj h).symm

end SpectralNorm

end Equilibration
