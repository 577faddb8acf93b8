import Equilibration.Proofs.StatefulRuns

/-!
# FailingProducts — what a failing product leaves behind

Take an operator whose products succeed, and let single ones fail
(`Operator.withFaults`). Up to the first failure that is reached everything
goes as without failures. The failure itself ends the run at once: balancing
returns the factors of the last half of an iteration that was completed
(`Balancing.run_of_fault`), and norm estimation returns the error
(`SpectralNorm.shadows_estimate`). No product is asked for after that, so a
failure that would come later is never noticed.
-/

namespace Equilibration

open Checked

variable {σ α : Type}

/-- The operator whose product number `k`, counted from zero, fails with the
error `fault k` if there is one, leaving the vector as it is. Its state
counts the products that were asked for. -/
def Operator.withFaults (A : Operator σ α) (fault : Nat → Option Refusal) :
    Operator (Nat × σ) α where
  rows := A.rows
  cols := A.cols
  multiply shape a x b y := fun (count, s) =>
    match fault count with
    | some err => .ok (⟨y, some err⟩, (count + 1, s))
    | none => do
      let (p, s') ← A.multiply shape a x b y s
      pure (p, (count + 1, s'))

namespace Operator

variable {A : Operator σ α} {fault : Nat → Option Refusal} {shape : Shape}
  {a b : α} {x y : Array α} {n : Nat} {s : σ}

@[simp] theorem rows_withFaults : (A.withFaults fault).rows = A.rows := rfl

@[simp] theorem cols_withFaults : (A.withFaults fault).cols = A.cols := rfl

theorem multiply_of_none (h : fault n = none) {p : Product α} {s' : σ}
    (hp : A.multiply shape a x b y s = .ok (p, s')) :
    (A.withFaults fault).multiply shape a x b y (n, s)
      = .ok (p, (n + 1, s')) := by
  unfold withFaults
  dsimp only
  rw [h, hp]
  rfl

theorem multiply_of_some {err : Refusal} (h : fault n = some err) :
    (A.withFaults fault).multiply shape a x b y (n, s)
      = .ok (⟨y, some err⟩, (n + 1, s)) := by
  unfold withFaults
  dsimp only
  rw [h]

end Operator

variable [Scalar α] {A : Operator σ α} {fault : Nat → Option Refusal}

/-! ## Balancing -/

namespace Balancing

/-- The number of products that a run asks for. -/
def callCount (budget n : Nat) (converged : Bool) : Nat :=
  if converged then 2 * n + 1 else 2 * budget

section Faults

variable (hA : A.Succeeds) {s : σ} {tol : α} {budget n : Nat} {converged : Bool}
  (hstops : Stops (CloseAfter A s tol) budget n converged)

include hA

theorem plays_withFaults {k : Nat} (hfirst : fault (2 * k) = none)
    (hsecond : fault (2 * k + 1) = none) :
    Plays A s (A.withFaults fault) k (2 * k, (vectors A s k).state)
      (2 * (k + 1), (vectors A s (k + 1)).state) := by
  obtain ⟨u, hcolumns, hrows⟩ := plays_self hA s k
  exact ⟨(2 * k + 1, u), Operator.multiply_of_none hfirst hcolumns,
    Operator.multiply_of_none hsecond hrows⟩

include hstops

omit hA in
theorem callCount_eq :
    callCount budget n converged = 2 * n + if converged then 1 else 0 := by
  cases converged with
  | false => rw [callCount, hstops.spent rfl]; rfl
  | true => rfl

omit hA in
/-- A product that is asked for belongs to an iteration of the run. -/
theorem le_of_lt_callCount {c : Nat} (hc : c < callCount budget n converged) :
    c / 2 < budget ∧ c / 2 ≤ n ∧ (c % 2 = 1 → c / 2 < n) := by
  rw [callCount_eq hstops] at hc
  cases converged with
  | false =>
    have := hstops.spent rfl
    simp only [Bool.false_eq_true, if_false] at hc
    omega
  | true =>
    have := (hstops.close rfl).2.1
    simp only [if_true] at hc
    omega

variable {d e : Array α} (hd : d.size = A.rows) (he : e.size = A.cols)
  (hcols : A.cols < capacity)

include hd he hcols

/-- Without a fault among the first `2 * j` products the run comes to the
state after `j` iterations. -/
theorem run_withFaults_eq {j : Nat} (hj : j ≤ n)
    (hnone : ∀ i < 2 * j, fault i = none) :
    run (A.withFaults fault) d e budget tol (0, s)
      = iterate (A.withFaults fault) tol (budget - j) (stage A s j)
          (2 * j, (vectors A s j).state) := by
  have hbudget : budget - j + j = budget :=
    Nat.sub_add_cancel (hj.trans hstops.le_budget)
  rw [run_eq_iterate (A := A.withFaults fault) hd he hcols,
    Operator.cols_withFaults, start_eq_stage (s := s) hd he]
  conv_lhs => rw [← hbudget]
  exact iterate_of_moves (A := A) (B := A.withFaults fault) rfl rfl
    (fun k => (2 * k, (vectors A s k).state)) j (budget - j)
    (fun l hl => plays_withFaults hA (hnone _ (by omega)) (hnone _ (by omega)))
    (fun l hpos hl => hstops.not_close l hpos (hl.trans_le hj))

/-- **Faults that are not reached** change nothing. -/
theorem run_of_no_fault
    (hnone : ∀ i < callCount budget n converged, fault i = none) :
    run (A.withFaults fault) d e budget tol (0, s)
      = .ok (outcome A s n converged,
          (callCount budget n converged, finalState A s n converged)) := by
  rw [callCount_eq hstops] at hnone ⊢
  rw [run_withFaults_eq hA hstops hd he hcols le_rfl fun i hi =>
    hnone i (by omega)]
  cases converged with
  | false =>
    rw [hstops.spent rfl, Nat.sub_self]
    rfl
  | true =>
    obtain ⟨hpos, hlt, hclose⟩ := hstops.close rfl
    have hfits := fits_vectors hA s n
    obtain ⟨left, hleft⟩ := Nat.exists_eq_add_of_lt hlt
    have hfirst := Operator.multiply_of_none (hnone (2 * n) (by simp))
      (hA.multiply_eq .transposed hfits.d_size hfits.sums_size
        (vectors A s n).state)
    rw [show budget - n = left + 1 by omega]
    exact iterate_stage_of_close (A := A) (B := A.withFaults fault) rfl hfirst
      hpos hclose left

/-- **The first fault that is reached** ends the run. The row factors are
those of the iterations completed before it, and so are the column factors,
unless they had already been replaced in the iteration at hand. -/
theorem run_of_fault {c : Nat} (hc : c < callCount budget n converged)
    (hnone : ∀ i < c, fault i = none) {err : Refusal}
    (herr : fault c = some err) :
    ∃ s', run (A.withFaults fault) d e budget tol (0, s)
      = .ok
        (⟨(vectors A s (c / 2)).d, (vectors A s ((c + 1) / 2)).e, .error err⟩,
          (c + 1, s')) := by
  obtain ⟨hbudget, hle, hodd⟩ := le_of_lt_callCount hstops hc
  rw [run_withFaults_eq hA hstops hd he hcols hle fun i hi =>
    hnone i (by omega)]
  obtain ⟨left, hleft⟩ : ∃ left, budget - c / 2 = left + 1 :=
    ⟨budget - c / 2 - 1, by omega⟩
  rw [hleft]
  rcases Nat.even_or_odd' c with ⟨j, rfl | rfl⟩
  · -- the column sums are missing: both vectors are as they were
    rw [show (2 * j + 1) / 2 = j by omega, show 2 * j / 2 = j by omega]
    exact ⟨_, iterate_of_failed_columns (Operator.multiply_of_some herr)⟩
  · -- the row sums are missing: the column factors are new
    rw [show (2 * j + 1) / 2 = j by omega] at hodd ⊢
    rw [show (2 * j + 1 + 1) / 2 = j + 1 by omega, vectors_succ]
    obtain ⟨u, hcolumns, -⟩ := plays_self hA s j
    exact ⟨_, iterate_of_failed_rows (v := stage A s j)
      (Operator.multiply_of_none (hnone (2 * j) (by omega)) hcolumns)
      (fun h => hstops.not_close j h.1 (hodd (by omega)) h.2)
      (Operator.multiply_of_some herr)⟩

end Faults

end Balancing

/-! ## Norm estimation -/

namespace SpectralNorm

section Binds

variable {τ β γ : Type} {m : ExceptT Refusal (StateT τ Checked) β}
  {g : β → ExceptT Refusal (StateT τ Checked) γ} {t t' : τ}

theorem run_bind_of_ok {b : β} (h : m.run t = .ok (.ok b, t')) :
    (m >>= g).run t = (g b).run t' := by
  show (m.run >>= _) t = _
  rw [StateT.bind_of_ok h]
  rfl

theorem run_bind_of_error {err : Refusal} (h : m.run t = .ok (.error err, t')) :
    (m >>= g).run t = .ok (.error err, t') := by
  show (m.run >>= _) t = _
  rw [StateT.bind_of_ok h]
  rfl

end Binds

/-- How a computation ends that asks for products, from number `n` on: the
one without faults with `b` and in the state `s'` after `calls` of them, and
the one with faults in the same way, unless a fault strikes before, and then
with its error and without another product. -/
structure Ending {β : Type} (n : Nat) (s : σ)
    (m : ExceptT Refusal (StateT σ Checked) β)
    (m' : (Nat → Option Refusal) → ExceptT Refusal (StateT (Nat × σ) Checked) β)
    (b : β) (calls : Nat) (s' : σ) : Prop where
  ends : m.run s = .ok (.ok b, s')
  unharmed : ∀ fault, (∀ i, n ≤ i → i < n + calls → fault i = none) →
    (m' fault).run (n, s) = .ok (.ok b, (n + calls, s'))
  struck : ∀ fault c err, n ≤ c → c < n + calls →
      (∀ i, n ≤ i → i < c → fault i = none) →
    fault c = some err →
    ∃ s'', (m' fault).run (n, s) = .ok (.error err, (c + 1, s''))

/-- Whenever it is begun, the computation `m` ends with a result that has the
property `P`, and `m'` is the same computation with faults. -/
def Shadows {β : Type} (P : β → Prop) (m : ExceptT Refusal (StateT σ Checked) β)
    (m' : (Nat → Option Refusal) →
      ExceptT Refusal (StateT (Nat × σ) Checked) β) : Prop :=
  ∀ n s, ∃ b calls s', P b ∧ Ending n s m m' b calls s'

namespace Shadows

variable {β γ : Type} {P : β → Prop} {Q : γ → Prop}

theorem pure {b : β} (hb : P b) :
    Shadows (σ := σ) P (Pure.pure b) (fun _ => Pure.pure b) :=
  fun _ s =>
    ⟨b, 0, s, hb, rfl, fun _ _ => rfl, fun _ _ _ hn hlt => absurd hlt hn.not_gt⟩

/-- A fault of a sequence strikes the first part or the second. -/
theorem bind {m : ExceptT Refusal (StateT σ Checked) β}
    {m' : (Nat → Option Refusal) → ExceptT Refusal (StateT (Nat × σ) Checked) β}
    {g : β → ExceptT Refusal (StateT σ Checked) γ}
    {g' : β → (Nat → Option Refusal) →
      ExceptT Refusal (StateT (Nat × σ) Checked) γ}
    (hm : Shadows P m m') (hg : ∀ b, P b → Shadows Q (g b) (g' b)) :
    Shadows Q (m >>= g) (fun fault => m' fault >>= fun b => g' b fault) := by
  intro n s
  obtain ⟨b, calls₁, s₁, hb, h₁⟩ := hm n s
  obtain ⟨r, calls₂, s₂, hr, h₂⟩ := hg b hb (n + calls₁) s₁
  refine ⟨r, calls₁ + calls₂, s₂, hr,
    (run_bind_of_ok h₁.ends).trans h₂.ends, ?_, ?_⟩
  · intro fault hnone
    have hfirst := h₁.unharmed fault fun i hn hlt => hnone i hn (by omega)
    have hsecond :=
      h₂.unharmed fault fun i hn hlt => hnone i (by omega) (by omega)
    rw [run_bind_of_ok hfirst, hsecond, Nat.add_assoc]
  · intro fault c err hn hlt hnone herr
    by_cases hc : c < n + calls₁
    · obtain ⟨s', hfirst⟩ := h₁.struck fault c err hn hc hnone herr
      exact ⟨s', run_bind_of_error hfirst⟩
    · have hfirst := h₁.unharmed fault fun i hi hlt' => hnone i hi (by omega)
      obtain ⟨s', hsecond⟩ := h₂.struck fault c err (by omega) (by omega)
        (fun i hi hlt' => hnone i (by omega) hlt') herr
      exact ⟨s', (run_bind_of_ok hfirst).trans hsecond⟩

theorem ite {p : Prop} [Decidable p]
    {m₁ m₂ : ExceptT Refusal (StateT σ Checked) β}
    {m₁' m₂' : (Nat → Option Refusal) →
      ExceptT Refusal (StateT (Nat × σ) Checked) β}
    (h₁ : p → Shadows P m₁ m₁') (h₂ : ¬ p → Shadows P m₂ m₂') :
    Shadows P (if p then m₁ else m₂)
      (fun fault => if p then m₁' fault else m₂' fault) := by
  by_cases hp : p
  · simpa only [if_pos hp] using h₁ hp
  · simpa only [if_neg hp] using h₂ hp

end Shadows

section Products

variable (hA : A.Succeeds)

include hA

/-- A product is one call. -/
theorem shadows_apply (shape : Shape) {x y : Array α}
    (hx : x.size = shape.domain A.rows A.cols)
    (hy : y.size = shape.codomain A.rows A.cols) :
    Shadows (fun z => z.size = y.size) (A.apply shape x y)
      (fun fault => (A.withFaults fault).apply shape x y) := by
  intro n s
  have hproduct := hA.multiply_eq shape hx hy s
  refine ⟨(A.answer shape x y s).1, 1, (A.answer shape x y s).2,
    hA.size_answer shape hx hy s, ?_, ?_, ?_⟩
  · show (A.multiply shape 1 x 0 y >>= _) s = _
    rw [StateT.bind_of_ok hproduct]
    rfl
  · intro fault hnone
    show ((A.withFaults fault).multiply shape 1 x 0 y >>= _) (n, s) = _
    rw [StateT.bind_of_ok (Operator.multiply_of_none
        (hnone n le_rfl (Nat.lt_succ_self n)) hproduct)]
    rfl
  · intro fault c err hn hlt _ herr
    obtain rfl : c = n := by omega
    refine ⟨s, ?_⟩
    show ((A.withFaults fault).multiply shape 1 x 0 y >>= _) (c, s) = _
    rw [StateT.bind_of_ok (Operator.multiply_of_some herr)]
    rfl

theorem shadows_iterate (tol : α) (budget : Nat) (last : α) {x w : Array α}
    (hx : x.size = A.cols) (hw : w.size = A.rows) :
    Shadows (fun _ => True) (iterate A tol budget last x w)
      (fun fault => iterate (A.withFaults fault) tol budget last x w) := by
  induction budget generalizing last x w with
  | zero => exact .pure trivial
  | succ budget ih =>
    simp only [iterate]
    refine (shadows_apply hA .normal hx hw).bind fun image himage => ?_
    refine .ite (fun _ => .pure trivial) fun _ => ?_
    refine (shadows_apply hA .transposed (himage.trans hw) hx).bind fun y hy =>
      ?_
    exact .ite (fun _ => .pure trivial) fun _ =>
      ih _ ((size_normalize y).trans (hy.trans hx)) (himage.trans hw)

/-- An estimate comes to a value without faults, and to the first error that
it reaches otherwise. -/
theorem shadows_estimate
    (hroom : (A.rows = 0 ∨ A.cols = 0) ∨ A.rows < capacity ∧ A.cols < capacity)
    (budget : Nat) (tol : α) :
    Shadows (fun _ => True) (estimate A budget tol)
      (fun fault => estimate (A.withFaults fault) budget tol) := by
  have hones : (Array.replicate A.rows (1 : α)).size = A.rows :=
    Array.size_replicate
  have hzeros : (Array.replicate A.cols (0 : α)).size = A.cols :=
    Array.size_replicate
  have hramp := size_ramp (α := α) A.rows
  simp only [estimate, Operator.rows_withFaults, Operator.cols_withFaults]
  refine .ite (fun _ => .pure trivial) fun hempty => ?_
  obtain ⟨hrows, hcols⟩ := hroom.resolve_left hempty
  rw [allocate_eq_ok hcols, allocate_eq_ok hrows]
  refine (shadows_apply hA .transposed hones hzeros).bind fun y hy => ?_
  have hunit := (size_normalize y).trans (hy.trans hzeros)
  refine .ite (fun _ => ?_) fun _ => shadows_iterate hA tol budget 0 hunit hones
  -- the ones vanish, so the ramp is tried
  refine (shadows_apply hA .transposed hramp hunit).bind fun z hz => ?_
  exact .ite (fun _ => .pure trivial) fun _ =>
    shadows_iterate hA tol budget 0
      ((size_normalize z).trans (hz.trans hunit)) hramp

end Products

end SpectralNorm

/-! ## Whole updates -/

/-- **Failing products leave only whole updates.** Let the products of an
operator succeed, and then let some of them fail, the first of these being
product number `c` or none before it. If the run without failures asks for
more than `c` products, balancing ends with the error of number `c` after
just `c + 1` products, with the row factors after `c / 2` iterations and the
column factors after `(c + 1) / 2`; otherwise nothing changes. In the same
way norm estimation ends with that error or is not affected. -/
theorem Operator.failing_products (hA : A.Succeeds) :
    (∀ (d e : Array α) (budget : Nat) (tol : α) (s : σ),
      d.size = A.rows → e.size = A.cols → A.cols < capacity →
      ∃ r record s', Balancing.run A d e budget tol s = .ok (r, s')
        ∧ r.outcome = .ok record
        ∧ ∀ (fault : Nat → Option Refusal) (c : Nat),
          (∀ i < c, fault i = none) →
          (Balancing.callCount budget record.iterations record.converged ≤ c →
            Balancing.run (A.withFaults fault) d e budget tol (0, s)
              = .ok (r, (Balancing.callCount budget record.iterations
                record.converged, s')))
          ∧ ∀ err,
            c < Balancing.callCount budget record.iterations record.converged →
            fault c = some err →
            ∃ s'', Balancing.run (A.withFaults fault) d e budget tol (0, s)
              = .ok (⟨(Balancing.vectors A s (c / 2)).d,
                  (Balancing.vectors A s ((c + 1) / 2)).e, .error err⟩,
                (c + 1, s'')))
    ∧ ∀ (budget : Nat) (tol : α) (s : σ),
      ((A.rows = 0 ∨ A.cols = 0) ∨ A.rows < capacity ∧ A.cols < capacity) →
      ∃ value calls s',
        (SpectralNorm.estimate A budget tol).run s = .ok (.ok value, s')
        ∧ ∀ (fault : Nat → Option Refusal) (c : Nat),
          (∀ i < c, fault i = none) →
          (calls ≤ c →
            (SpectralNorm.estimate (A.withFaults fault) budget tol).run (0, s)
              = .ok (.ok value, (calls, s')))
          ∧ ∀ err, c < calls → fault c = some err →
            ∃ s'',
              (SpectralNorm.estimate (A.withFaults fault) budget tol).run (0, s)
                = .ok (.error err, (c + 1, s'')) := by
  constructor
  · intro d e budget tol s hd he hcols
    obtain ⟨n, converged, hstops⟩ :=
      Stops.exists_stop (Balancing.CloseAfter A s tol) budget
    have hiterations :
        (Balancing.finalRecord A s n converged).iterations = n := by
      cases converged <;> rfl
    have hconverged :
        (Balancing.finalRecord A s n converged).converged = converged := by
      cases converged <;> rfl
    refine ⟨_, _, _, Balancing.run_eq_outcome hA hd he hcols hstops, rfl, ?_⟩
    intro fault c hnone
    rw [hiterations, hconverged]
    exact ⟨fun hc => Balancing.run_of_no_fault hA hstops hd he hcols fun i hi =>
        hnone i (hi.trans_le hc),
      fun err hc herr =>
        Balancing.run_of_fault hA hstops hd he hcols hc hnone herr⟩
  · intro budget tol s hroom
    obtain ⟨value, calls, s', -, h⟩ :=
      SpectralNorm.shadows_estimate hA hroom budget tol 0 s
    refine ⟨value, calls, s', h.ends, fun fault c hnone =>
      ⟨fun hc => ?_, fun err hc herr => ?_⟩⟩
    · have hunharmed := h.unharmed fault fun i _ hi => hnone i (by omega)
      rwa [Nat.zero_add] at hunharmed
    · exact h.struck fault c err (Nat.zero_le c) (by omega)
        (fun i _ hi => hnone i hi) herr

/-- A double that balances after one iteration, with three products. If the
second fails, the column factor is new and the row factor is not; if the
fourth does, nobody notices. -/
theorem Operator.failing_products_second :
    let input : MatrixInput Float := ⟨.row, 1, 1, 1, #[0, 1], #[0], #[2]⟩
    let M : SolverMatrix Float :=
      { SolverMatrix.ofInput input .standard with
          storage := .built (.ofForm input.matrix) }
    let fault (c i : Nat) : Option Refusal :=
      if i = c then some .alreadyBuilt else none
    M.operator.Succeeds
    ∧ (∃ s',
      Balancing.run (M.operator.withFaults (fault 1)) #[7] #[7] 5 0.5 (0, ())
        = .ok (⟨#[1], #[0.5], .error .alreadyBuilt⟩, (2, s')))
    ∧ (∃ r s', Balancing.run M.operator #[7] #[7] 5 0.5 () = .ok (r, s')
      ∧ Balancing.run (M.operator.withFaults (fault 3)) #[7] #[7] 5 0.5 (0, ())
        = .ok (r, (3, s')))
    ∧ ∃ value calls s',
      (SpectralNorm.estimate M.operator 5 0.5).run () = .ok (.ok value, s')
      ∧ (calls ≤ 100 →
        (SpectralNorm.estimate (M.operator.withFaults (fault 100)) 5 0.5).run
          (0, ()) = .ok (.ok value, (calls, s'))) := by
  intro input M fault
  have hnone : ∀ c i, i < c → fault c i = none := fun c i hi => if_neg hi.ne
  have hM : M.Holds input.matrix := ⟨rfl, rfl, rfl, by decide +kernel,
    FitsMemory.hasRoom ⟨by decide, by decide, by decide⟩⟩
  obtain ⟨hbalance, hestimate⟩ := failing_products hM.computes.succeeds
  obtain ⟨r, record, s', hrun, hok, hfault⟩ :=
    hbalance #[7] #[7] 5 0.5 () rfl rfl (by decide)
  have hrecord : record = ⟨1, true, 0⟩ := by
    have heval : ((Balancing.run M.operator #[7] #[7] 5 0.5 ()).toOption.bind
        fun p => p.1.outcome.toOption) = some ⟨1, true, 0⟩ := by decide +kernel
    rw [hrun] at heval
    exact Option.some.inj ((congrArg Except.toOption hok).symm.trans heval)
  rw [hrecord] at hfault
  obtain ⟨-, hsecond⟩ := hfault (fault 1) 1 (hnone 1)
  obtain ⟨hfourth, -⟩ := hfault (fault 3) 3 (hnone 3)
  obtain ⟨value, calls, t, hvalue, hlate⟩ :=
    hestimate 5 0.5 () (.inr ⟨by decide, by decide⟩)
  refine ⟨hM.computes.succeeds, ?_, ⟨r, s', hrun, hfourth (by decide)⟩, value,
    calls, t, hvalue, (hlate (fault 100) 100 (hnone 100)).1⟩
  obtain ⟨s'', hstruck⟩ := hsecond .alreadyBuilt (by decide) rfl
  have he : (Balancing.vectors M.operator () 1).e = #[0.5] := by decide +kernel
  exact ⟨s'', he ▸ hstruck⟩

end Equilibration
