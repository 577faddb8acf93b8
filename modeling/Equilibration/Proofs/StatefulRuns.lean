import Equilibration.Proofs.Iterations

/-!
# StatefulRuns — balancing an operator with a state

The answers of an operator may depend on what it was asked before and on
what the vector held. As long as its products succeed, the vectors after
`k` iterations depend on the operator alone (`Balancing.vectors`), and so
does the deviation that is measured there. The budget and the tolerance
only pick the number of iterations after which a run stops (`Stops`), and
the outcome follows from that number (`Balancing.run_eq_outcome`).

The loop is followed for every operator that makes the moves of such a run
(`Balancing.Plays`), so that the same steps serve an operator that fails
later on.
-/

namespace Equilibration

open Checked

/-! ## Where a run stops -/

/-- A run with a budget stops after `n` iterations: as soon as it is close,
which is asked after the first iteration and before every further one, or
with the budget used up. -/
structure Stops (close : Nat → Prop) (budget n : Nat) (converged : Bool) :
    Prop where
  not_close : ∀ l, 0 < l → l < n → ¬ close l
  close : converged = true → 0 < n ∧ n < budget ∧ close n
  spent : converged = false → n = budget

namespace Stops

variable {close close' : Nat → Prop} {N N' n n' : Nat}
  {converged converged' : Bool}

theorem exists_stop (close : Nat → Prop) (N : Nat) :
    ∃ n converged, Stops close N n converged := by
  classical
  by_cases h : ∃ l, 0 < l ∧ l < N ∧ close l
  · refine ⟨Nat.find h, true, ?_, fun _ => Nat.find_spec h, nofun⟩
    intro l hpos hlt hclose
    exact Nat.find_min h hlt ⟨hpos, hlt.trans (Nat.find_spec h).2.1, hclose⟩
  · exact ⟨N, false, fun l hpos hlt hclose => h ⟨l, hpos, hlt, hclose⟩, nofun,
      fun _ => rfl⟩

theorem le_budget (h : Stops close N n converged) : n ≤ N := by
  cases converged with
  | false => exact (h.spent rfl).le
  | true => exact (h.close rfl).2.1.le

theorem converged_iff (h : Stops close N n converged) :
    converged = true ↔ n < N := by
  refine ⟨fun hconverged => (h.close hconverged).2.1, fun hlt => ?_⟩
  cases converged with
  | false => exact absurd (h.spent rfl) hlt.ne
  | true => rfl

/-- A run does not pass a place where it is close. -/
theorem le_of_close (h : Stops close N n converged) {k : Nat} (hpos : 0 < k)
    (hclose : close k) :
    n ≤ k :=
  not_lt.mp fun hlt => h.not_close k hpos hlt hclose

/-- With a larger budget a run that stopped early stops at the same place,
and any other goes at least as far. -/
theorem of_budget_le (h : Stops close N n converged)
    (h' : Stops close N' n' converged') (hle : N ≤ N') :
    (converged = true → n' = n ∧ converged' = true)
      ∧ (converged = false → N ≤ n') := by
  constructor
  · intro hconverged
    obtain ⟨hpos, hlt, hclose⟩ := h.close hconverged
    have hn' : n' ≤ n := h'.le_of_close hpos hclose
    have hconverged' := h'.converged_iff.mpr ((hn'.trans_lt hlt).trans_le hle)
    obtain ⟨hpos', -, hclose'⟩ := h'.close hconverged'
    exact ⟨hn'.antisymm (h.le_of_close hpos' hclose'), hconverged'⟩
  · intro hconverged
    obtain rfl := h.spent hconverged
    cases converged' with
    | false => exact hle.trans_eq (h'.spent rfl).symm
    | true =>
      obtain ⟨hpos', -, hclose'⟩ := h'.close rfl
      exact h.le_of_close hpos' hclose'

/-- A run that is close in more places stops no later. -/
theorem of_imp (h : Stops close N n converged)
    (h' : Stops close' N n' converged') (himp : ∀ l, close l → close' l) :
    n' ≤ n ∧ (converged = true → converged' = true) := by
  cases converged with
  | false => exact ⟨h'.le_budget.trans_eq (h.spent rfl).symm, nofun⟩
  | true =>
    obtain ⟨hpos, hlt, hclose⟩ := h.close rfl
    have hn' : n' ≤ n := h'.le_of_close hpos (himp n hclose)
    exact ⟨hn', fun _ => h'.converged_iff.mpr (hn'.trans_lt hlt)⟩

end Stops

variable {σ τ α : Type} [Scalar α]

/-! ## Products that succeed -/

namespace Operator

/-- Every product `op(A) * x` of vectors with the right lengths succeeds,
whatever the operator was asked before. -/
def Succeeds (A : Operator σ α) : Prop :=
  ∀ shape x y s, x.size = shape.domain A.rows A.cols →
    y.size = shape.codomain A.rows A.cols →
    ∃ z s', A.multiply shape 1 x 0 y s = .ok (⟨z, none⟩, s') ∧ z.size = y.size

/-- The vector that `op(A) * x` leaves in place of `y`, and the state after
it. -/
def answer (A : Operator σ α) (shape : Shape) (x y : Array α) (s : σ) :
    Array α × σ :=
  match A.multiply shape 1 x 0 y s with
  | .ok (p, s') => (p.y, s')
  | .error _ => (y, s)

section Answers

variable {A : Operator σ α} (hA : A.Succeeds) (shape : Shape) {x y : Array α}
  (hx : x.size = shape.domain A.rows A.cols)
  (hy : y.size = shape.codomain A.rows A.cols) (s : σ)

include hA hx hy

theorem Succeeds.multiply_eq : A.multiply shape 1 x 0 y s
    = .ok (⟨(A.answer shape x y s).1, none⟩, (A.answer shape x y s).2) := by
  obtain ⟨z, s', h, -⟩ := hA shape x y s hx hy
  rw [answer, h]

theorem Succeeds.size_answer : (A.answer shape x y s).1.size = y.size := by
  obtain ⟨z, s', h, hz⟩ := hA shape x y s hx hy
  rw [answer, h]
  exact hz

end Answers

/-- An operator that computes its products always succeeds. -/
theorem Computes.succeeds {A : Operator Unit α}
    {f : Shape → Array α → Array α → Array α} (hA : A.Computes f) :
    A.Succeeds := by
  intro shape x y s hx hy
  obtain ⟨h, hsize⟩ := hA shape x y hx hy
  exact ⟨_, (), h, hsize⟩

end Operator

namespace Balancing

/-! ## One step of the loop -/

section Step

variable {B : Operator τ α} {tol : α} {budget : Nat} {v : State α}
  {z y : Array α} {t t' t'' : τ} {err : Refusal}

theorem iterate_of_failed_columns
    (hcolumns : B.multiply .transposed 1 v.d 0 v.sums t
      = .ok (⟨z, some err⟩, t')) :
    iterate B tol (budget + 1) v t = .ok (⟨v.d, v.e, .error err⟩, t') := by
  rw [iterate, StateT.bind_of_ok hcolumns]
  rfl

variable (hcolumns : B.multiply .transposed 1 v.d 0 v.sums t
    = .ok (⟨z, none⟩, t'))

include hcolumns

theorem iterate_of_close (hclose : 0 < v.record.iterations
      ∧ worstDeviation z v.e (Scalar.ofNat B.rows) < tol) :
    iterate B tol (budget + 1) v t
      = .ok (⟨v.d, v.e, .ok { measure (Scalar.ofNat B.rows) z v.e v.record with
          converged := true }⟩, t') := by
  rw [iterate, StateT.bind_of_ok hcolumns]
  dsimp only
  rw [if_pos ((measured_lt_iff _ tol z v.e v.record).mpr hclose)]
  rfl

variable (hopen : ¬ (0 < v.record.iterations
    ∧ worstDeviation z v.e (Scalar.ofNat B.rows) < tol))

include hopen

theorem iterate_of_failed_rows (hrows : B.multiply .normal 1
      (Vec.overwrite (factor (Scalar.ofNat B.rows)) v.e z) 0 v.d t'
      = .ok (⟨y, some err⟩, t'')) :
    iterate B tol (budget + 1) v t
      = .ok (⟨y, Vec.overwrite (factor (Scalar.ofNat B.rows)) v.e z,
        .error err⟩, t'') := by
  rw [iterate, StateT.bind_of_ok hcolumns]
  dsimp only
  rw [if_neg ((measured_lt_iff _ tol z v.e v.record).not.mpr hopen),
    StateT.bind_of_ok hrows]
  rfl

theorem iterate_of_rows (hrows : B.multiply .normal 1
      (Vec.overwrite (factor (Scalar.ofNat B.rows)) v.e z) 0 v.d t'
      = .ok (⟨y, none⟩, t'')) :
    iterate B tol (budget + 1) v t
      = iterate B tol budget
          { d := y.map (factor (Scalar.ofNat B.cols))
            e := Vec.overwrite (factor (Scalar.ofNat B.rows)) v.e z
            sums := z
            record := { measure (Scalar.ofNat B.rows) z v.e v.record with
              iterations := (measure (Scalar.ofNat B.rows) z v.e
                  v.record).iterations + 1 } }
          t'' := by
  rw [iterate, StateT.bind_of_ok hcolumns]
  dsimp only
  rw [if_neg ((measured_lt_iff _ tol z v.e v.record).not.mpr hopen),
    StateT.bind_of_ok hrows]

end Step

/-! ## The vectors of a run -/

/-- The factors between two iterations, with the column sums that were
formed last and the state of the operator. -/
structure Vectors (σ α : Type) where
  /-- The row factors. -/
  d : Array α
  /-- The column factors. -/
  e : Array α
  /-- The last column sums. -/
  sums : Array α
  /-- The state of the operator. -/
  state : σ

namespace Vectors

variable (A : Operator σ α) (v : Vectors σ α)

/-- Before the first iteration. -/
def ones (s : σ) : Vectors σ α where
  d := .replicate A.rows 1
  e := .replicate A.cols 1
  sums := .replicate A.cols 0
  state := s

/-- The column sums `A' * d`. -/
def columns : Array α × σ := A.answer .transposed v.d v.sums v.state

/-- The next column factors. -/
def columnFactors : Array α :=
  Vec.overwrite (factor (Scalar.ofNat A.rows)) v.e (v.columns A).1

/-- The row sums for the next column factors. -/
def rows : Array α × σ :=
  A.answer .normal (v.columnFactors A) v.d (v.columns A).2

/-- After one more iteration. -/
def next : Vectors σ α where
  d := (v.rows A).1.map (factor (Scalar.ofNat A.cols))
  e := v.columnFactors A
  sums := (v.columns A).1
  state := (v.rows A).2

/-- The deviation of the column sums. -/
def deviation : α := worstDeviation (v.columns A).1 v.e (Scalar.ofNat A.rows)

/-- The vectors have the lengths that the operator asks for. -/
structure Fits : Prop where
  d_size : v.d.size = A.rows
  e_size : v.e.size = A.cols
  sums_size : v.sums.size = A.cols

variable {A v}

theorem fits_ones (s : σ) : (ones A s).Fits A :=
  ⟨Array.size_replicate, Array.size_replicate, Array.size_replicate⟩

section Sizes

variable (hA : A.Succeeds) (hv : v.Fits A)

include hA hv

theorem Fits.size_columns : (v.columns A).1.size = A.cols :=
  (hA.size_answer .transposed hv.d_size hv.sums_size v.state).trans hv.sums_size

omit hA in
theorem Fits.size_columnFactors : (v.columnFactors A).size = A.cols :=
  (Vec.size_overwrite _ _ _).trans hv.e_size

theorem Fits.size_rows : (v.rows A).1.size = A.rows :=
  (hA.size_answer .normal hv.size_columnFactors hv.d_size _).trans hv.d_size

theorem Fits.next : (v.next A).Fits A where
  d_size := Array.size_map.trans (hv.size_rows hA)
  e_size := hv.size_columnFactors
  sums_size := hv.size_columns hA

end Sizes

end Vectors

/-- The vectors of a run from the state `s` after `k` iterations. -/
def vectors (A : Operator σ α) (s : σ) (k : Nat) : Vectors σ α :=
  (Vectors.next A)^[k] (.ones A s)

theorem vectors_succ (A : Operator σ α) (s : σ) (k : Nat) :
    vectors A s (k + 1) = (vectors A s k).next A :=
  Function.iterate_succ_apply' _ _ _

theorem fits_vectors {A : Operator σ α} (hA : A.Succeeds) (s : σ) (k : Nat) :
    (vectors A s k).Fits A := by
  induction k with
  | zero => exact Vectors.fits_ones s
  | succ k ih =>
    rw [vectors_succ]
    exact ih.next hA

/-- The column sums after `k` iterations deviate by less than `tol`. -/
def CloseAfter (A : Operator σ α) (s : σ) (tol : α) (k : Nat) : Prop :=
  (vectors A s k).deviation A < tol

/-! ## The loop -/

section Loop

variable (A : Operator σ α) (s : σ)

/-- The record after `k` iterations none of which was close. The last
deviation was measured before the last iteration, and none before the
first. -/
def openRecord (k : Nat) : BalanceRecord α where
  iterations := k
  converged := false
  residual :=
    if k ≤ 1 then Scalar.infinity else (vectors A s (k - 1)).deviation A

/-- The state of the loop after `k` iterations none of which was close. -/
def stage (k : Nat) : State α where
  d := (vectors A s k).d
  e := (vectors A s k).e
  sums := (vectors A s k).sums
  record := openRecord A s k

variable {A s} in
theorem start_eq_stage {d e : Array α} (hd : d.size = A.rows)
    (he : e.size = A.cols) :
    start d e (.replicate A.cols 0) = stage A s 0 := by
  have hfill : ∀ x : Array α, Vec.fill x 1 = .replicate x.size 1 :=
    fun _ => Array.map_const'
  unfold start
  rw [hfill, hfill, hd, he]
  rfl

/-- The record once the sums after `k` iterations are known. -/
def measured (k : Nat) : BalanceRecord α :=
  measure (Scalar.ofNat A.rows) ((vectors A s k).columns A).1 (vectors A s k).e
    (openRecord A s k)

theorem measured_next (k : Nat) :
    { measured A s k with iterations := (measured A s k).iterations + 1 }
      = openRecord A s (k + 1) := by
  cases k <;> rfl

theorem measured_of_pos {k : Nat} (hpos : 0 < k) :
    { measured A s k with converged := true }
      = ⟨k, true, (vectors A s k).deviation A⟩ := by
  cases k with
  | zero => exact absurd hpos (Nat.lt_irrefl 0)
  | succ k => rfl

/-- From the state `t`, the operator `B` makes the two products of iteration
`k` of a run of `A` with the same answers, and is in the state `t'` then. -/
def Plays (B : Operator τ α) (k : Nat) (t t' : τ) : Prop :=
  ∃ u, B.multiply .transposed 1 (vectors A s k).d 0 (vectors A s k).sums t
      = .ok (⟨((vectors A s k).columns A).1, none⟩, u)
    ∧ B.multiply .normal 1 ((vectors A s k).columnFactors A) 0
      (vectors A s k).d u
      = .ok (⟨((vectors A s k).rows A).1, none⟩, t')

variable {A s} {B : Operator τ α} {tol : α} (hrows : B.rows = A.rows)
  (hcols : B.cols = A.cols)

include hrows hcols

theorem iterate_of_plays {k : Nat} {t t' : τ} (hplays : Plays A s B k t t')
    (hopen : 0 < k → ¬ CloseAfter A s tol k) (budget : Nat) :
    iterate B tol (budget + 1) (stage A s k) t
      = iterate B tol budget (stage A s (k + 1)) t' := by
  obtain ⟨u, hfirst, hsecond⟩ := hplays
  have hopen' : ¬ (0 < k ∧ CloseAfter A s tol k) := fun h => hopen h.1 h.2
  rw [iterate_of_rows (v := stage A s k) hfirst (by rw [hrows]; exact hopen')
    (by rw [hrows]; exact hsecond), hrows, hcols]
  congr 1
  unfold stage
  rw [vectors_succ, ← measured_next]
  rfl

/-- An operator that makes the moves of a run passes all places that are not
close. -/
theorem iterate_of_moves (t : Nat → τ) (k budget : Nat)
    (hplays : ∀ l < k, Plays A s B l (t l) (t (l + 1)))
    (hopen : ∀ l, 0 < l → l < k → ¬ CloseAfter A s tol l) :
    iterate B tol (budget + k) (stage A s 0) (t 0)
      = iterate B tol budget (stage A s k) (t k) := by
  induction k generalizing budget with
  | zero => rfl
  | succ k ih =>
    rw [← iterate_of_plays hrows hcols (hplays k (Nat.lt_succ_self k))
        (fun hpos => hopen k hpos (Nat.lt_succ_self k)) budget,
      ← ih (budget + 1) (fun l hl => hplays l (hl.trans (Nat.lt_succ_self k)))
        (fun l hpos hl => hopen l hpos (hl.trans (Nat.lt_succ_self k)))]
    congr 1
    omega

omit hcols in
/-- At a close place the loop ends after the first product. -/
theorem iterate_stage_of_close {k : Nat} {t u : τ}
    (hfirst : B.multiply .transposed 1 (vectors A s k).d 0
      (vectors A s k).sums t
      = .ok (⟨((vectors A s k).columns A).1, none⟩, u))
    (hpos : 0 < k) (hclose : CloseAfter A s tol k) (budget : Nat) :
    iterate B tol (budget + 1) (stage A s k) t
      = .ok (⟨(vectors A s k).d, (vectors A s k).e,
          .ok ⟨k, true, (vectors A s k).deviation A⟩⟩, u) := by
  rw [iterate_of_close (v := stage A s k) hfirst
    (by rw [hrows]; exact ⟨hpos, hclose⟩), hrows, ← measured_of_pos A s hpos]
  rfl

end Loop

/-! ## Whole runs -/

section Runs

variable {A : Operator σ α}

theorem run_eq_iterate {d e : Array α} (hd : d.size = A.rows)
    (he : e.size = A.cols) (hcols : A.cols < capacity) (budget : Nat) (tol : α)
    (s : σ) :
    run A d e budget tol s
      = iterate A tol budget (start d e (.replicate A.cols 0)) s := by
  unfold run
  rw [require_eq_ok hd, require_eq_ok he, allocate_eq_ok hcols]
  rfl

theorem plays_self (hA : A.Succeeds) (s : σ) (k : Nat) :
    Plays A s A k (vectors A s k).state (vectors A s (k + 1)).state := by
  have hfits := fits_vectors hA s k
  rw [vectors_succ]
  exact ⟨_, hA.multiply_eq .transposed hfits.d_size hfits.sums_size _,
    hA.multiply_eq .normal hfits.size_columnFactors hfits.d_size _⟩

/-- The record of a run that stops after `n` iterations. -/
def finalRecord (A : Operator σ α) (s : σ) (n : Nat) (converged : Bool) :
    BalanceRecord α :=
  if converged then ⟨n, true, (vectors A s n).deviation A⟩ else openRecord A s n

/-- What a run leaves behind that stops after `n` iterations. -/
def outcome (A : Operator σ α) (s : σ) (n : Nat) (converged : Bool) :
    BalanceRun α where
  d := (vectors A s n).d
  e := (vectors A s n).e
  outcome := .ok (finalRecord A s n converged)

/-- The state of the operator after a run that stops after `n` iterations.
The sums that end a run that converged are one more product. -/
def finalState (A : Operator σ α) (s : σ) (n : Nat) (converged : Bool) : σ :=
  if converged then ((vectors A s n).columns A).2 else (vectors A s n).state

/-- **The outcome of a run** follows from where it stops. -/
theorem run_eq_outcome (hA : A.Succeeds) {d e : Array α} (hd : d.size = A.rows)
    (he : e.size = A.cols) (hcols : A.cols < capacity) {budget : Nat} {tol : α}
    {s : σ} {n : Nat} {converged : Bool}
    (hstops : Stops (CloseAfter A s tol) budget n converged) :
    run A d e budget tol s
      = .ok (outcome A s n converged, finalState A s n converged) := by
  rw [run_eq_iterate hd he hcols, start_eq_stage (s := s) hd he]
  have hmoves :=
    fun left => iterate_of_moves rfl rfl (fun k => (vectors A s k).state) n left
      (fun l _ => plays_self hA s l) hstops.not_close
  cases converged with
  | false =>
    have hspent := hmoves 0
    rw [Nat.zero_add, hstops.spent rfl] at hspent
    rw [hstops.spent rfl]
    exact hspent
  | true =>
    obtain ⟨hpos, hlt, hclose⟩ := hstops.close rfl
    obtain ⟨left, rfl⟩ := Nat.exists_eq_add_of_lt hlt
    have hfits := fits_vectors hA s n
    rw [show n + left + 1 = left + 1 + n by omega]
    exact (hmoves (left + 1)).trans (iterate_stage_of_close rfl
      (hA.multiply_eq .transposed hfits.d_size hfits.sums_size _) hpos
      hclose left)

end Runs

end Balancing

end Equilibration
