import Equilibration.Proofs.Unoriented

/-!
# Quietness — numbers that reports do not touch

The options say whether equilibrations print, and calls say where to. The
figures of a session (`Session.figures`) are its answers, apart from
durations and from those to redirections, and the matrix that is left, apart
from what says how to print. They depend on nothing that has to do with
printing: sessions that differ in it only, and lists of calls that are the
same once redirections are left out and every option is set to print
nothing, have the same figures (`Session.figures_congr`).

A report is made of what an equilibration has already come to. So each
operation is followed through on the matrix that does not print
(`SolverMatrix.silenced`): up to the report both do the same, step by step.
-/

namespace Equilibration

open Checked

variable {α : Type}

/-- The options with reports turned off. -/
def Options.quiet (o : Options α) : Options α := { o with verbose := false }

namespace SolverMatrix

/-- The matrix with reports turned off. -/
def silenced (M : SolverMatrix α) : SolverMatrix α :=
  { M with options := M.options.quiet }

/-- The matrix with reports turned off, no outlet of its own and its
stopwatches put away. -/
def quiet (M : SolverMatrix α) : SolverMatrix α := M.muted.silenced

end SolverMatrix

/-- What a part of an equilibration leaves behind, with reports turned
off. -/
def Rescaled.silenced {β : Type} (r : Rescaled α β) : Rescaled α β :=
  { r with matrix := r.matrix.silenced }

/-- What an equilibration leaves behind, apart from durations and from what
says how to print. -/
def Equilibrated.quiet (out : Equilibrated α) :
    Except Refusal (EquilibrationSummary α)
      × SolverMatrix α × Array α × Array α :=
  (out.timeless.1, out.timeless.2.1.silenced, out.timeless.2.2)

/-- The call with reports turned off in its options. -/
def Call.quiet : Call α → Call α
  | .setOptions options => .setOptions options.quiet
  | .estimateNorm norm options => .estimateNorm norm options.quiet
  | c => c

/-- The call with reports turned off in its options. A redirection is no
such call. -/
def Call.silent? : Call α → Option (Call α)
  | .printTo _ => none
  | c => some c.quiet

namespace Call

@[simp] theorem quiet_quiet (c : Call α) : c.quiet.quiet = c.quiet := by
  cases c <;> rfl

theorem eq_printTo_of_silent? {c : Call α} (h : c.silent? = none) :
    ∃ outlet, c = .printTo outlet := by
  cases c with
  | printTo outlet => exact ⟨outlet, rfl⟩
  | _ => cases h

theorem eq_quiet_of_silent? {c c' : Call α} (h : c.silent? = some c') :
    c' = c.quiet ∧ c'.silent? = some c' := by
  cases c <;> cases h <;> exact ⟨rfl, rfl⟩

end Call

/-- Steps that agree in what is looked at come to the same if all that is
looked at decides the rest. -/
theorem bind_congr_of_map {β γ δ : Type} {x y : Checked β} {f : β → γ}
    {k l : β → Checked δ} (h : x.map f = y.map f)
    (hk : ∀ b c, f b = f c → k b = l c) : (x >>= k) = (y >>= l) := by
  have := map_bind_congr (g := id) h fun b c hbc =>
    congrArg (Except.map id) (hk b c hbc)
  rwa [Except.map_id] at this

/-- After the same step, the rest gives an image as soon as it does for
every result. -/
theorem Timed.map_lift_bind_same {β γ : Type}
    {g : γ × Stopwatches × World → γ × Stopwatches × World}
    {s : Stopwatches × World} {k l : β → Timed γ} {c : Checked β}
    (hk : ∀ b, k b s = (l b s).map g) :
    ((c : Timed β) >>= k) s = (((c : Timed β) >>= l) s).map g := by
  cases c with
  | error v => rfl
  | ok b => exact hk b

namespace SolverMatrix

variable [Scalar α] (M : SolverMatrix α)

theorem build_silenced (w : World) :
    M.silenced.build w
      = (M.build w).map fun out =>
        { out with matrix := out.matrix.silenced } := by
  have hinput : M.silenced.input? = M.input? := rfl
  unfold build
  rw [hinput]
  cases M.input? with
  | none => rfl
  | some input =>
    dsimp only
    cases input.check with
    | error v => rfl
    | ok verdict =>
      cases verdict with
      | error reason => rfl
      | ok u =>
        show ((Timed.timed "build" (PairedMatrix.ofInput input)) (M.watches, w)
            >>= _)
          = Except.map _ ((Timed.timed "build" (PairedMatrix.ofInput input))
            (M.watches, w) >>= _)
        cases (Timed.timed "build" (PairedMatrix.ofInput input)) (M.watches, w)
          <;> rfl

theorem normalize_silenced (d e : Array α) :
    M.silenced.normalize d e = (M.normalize d e).map Rescaled.silenced := by
  have hestimate : M.silenced.normEstimate M.silenced.options.normalizeNorm
      M.silenced.options
      = M.normEstimate M.options.normalizeNorm M.options := rfl
  have hpair : M.silenced.pair = M.pair := rfl
  unfold normalize
  rw [hestimate, hpair]
  cases M.normEstimate M.options.normalizeNorm M.options with
  | error v => rfl
  | ok r =>
    cases r with
    | error error => rfl
    | ok norm =>
      simp only [ok_bind]
      split
      · cases M.pair <;> rfl
      · rfl

theorem rebalance_silenced (t : Magnitude) (d e : Array α)
    (s : Stopwatches × World) :
    M.silenced.rebalance t d e s = (M.rebalance t d e s).map fun r =>
      (r.1.silenced, r.2) := by
  have hpair : M.silenced.pair = M.pair := rfl
  unfold rebalance
  rw [hpair]
  cases M.pair with
  | error error => rfl
  | ok pair =>
    refine Timed.map_lift_bind_same ?_
    rintro ⟨signs, magnitudes⟩
    refine Timed.map_timed_bind ?_
    rintro ⟨run, _⟩
    dsimp only
    cases run.outcome with
    | error error => rfl
    | ok record =>
      refine Timed.map_lift_bind_same fun signed => ?_
      exact Timed.map_lift_bind_same fun balanced => rfl

/-- Up to the report, an equilibration is the same with reports turned
off. -/
theorem rescale_silenced (t : Magnitude) (d e : Array α)
    (s : Stopwatches × World) :
    M.silenced.rescale t d e s
      = (M.rescale t d e s).map fun r => (r.1.silenced, r.2) :=
  M.rescale_map silenced t d e s (M.rebalance_silenced t d e s)
    fun B _ _ => B.matrix.normalize_silenced B.d B.e

theorem equilibrate_silenced [Displayed α] (d e : Array α) (w : World) :
    (M.silenced.equilibrate d e w).map Equilibrated.quiet
      = (M.equilibrate d e w).map Equilibrated.quiet := by
  refine equilibrate_congr M M.silenced quiet (fun N N' hN =>
      congrArg silenced hN) rfl rfl rfl rfl rfl rfl d e w w fun s s' => ?_
  refine Eq.trans ?_
    (map_comp_congr Rescaled.silenced (M.rescale_timeless _ d e s s'))
  rw [M.rescale_silenced]
  cases M.rescale (magnitudeFor M.options.balanceNorm) d e s' <;> rfl

end SolverMatrix

namespace Session

variable [Scalar α] [Displayed α]

theorem perform_silenced (M : SolverMatrix α) (w : World) (c : Call α) :
    (perform ⟨M.silenced, w⟩ c.quiet).map
      (fun r => (r.1.timeless, r.2.matrix.quiet))
      = (perform ⟨M, w⟩ c).map fun r => (r.1.timeless, r.2.matrix.quiet) := by
  cases c with
  | build =>
    show (M.silenced.build w >>= _).map _ = _
    rw [SolverMatrix.build_silenced]
    show _ = (M.build w >>= _).map _
    cases M.build w <;> rfl
  | multiply shape a x b y =>
    refine map_bind_same fun r => ?_
    cases r <;> rfl
  | estimateNorm norm options =>
    refine map_bind_same (x := M.normEstimate norm options) fun r => ?_
    cases r <;> rfl
  | equilibrate d e =>
    refine map_bind_congr (M.equilibrate_silenced d e w) ?_
    intro out out' h
    exact congrArg₂ (fun a M => Except.ok (a, M))
      (Answer.timeless_congr SolverMatrix.quiet h) (congrArg (·.2.1) h)
  | setOptions options =>
    have hquiet : options.quiet.check = options.check := rfl
    rw [Call.quiet, perform, perform, SolverMatrix.withOptions,
      SolverMatrix.withOptions, hquiet]
    cases options.check <;> rfl
  | printTo outlet => rfl

theorem perform_quiet (M : SolverMatrix α) (w w' : World) (c : Call α) :
    (perform ⟨M.quiet, w'⟩ c.quiet).map
      (fun r => (r.1.timeless, r.2.matrix.quiet))
      = (perform ⟨M, w⟩ c).map fun r => (r.1.timeless, r.2.matrix.quiet) :=
  (perform_silenced M.muted w' c).trans
    (map_comp_congr (fun p => (p.1, p.2.silenced)) (perform_muted M w w' c))

/-- On matrices that differ in printing only, calls that differ in printing
only do the same apart from printing. -/
theorem perform_congr {M M' : SolverMatrix α} (h : M.quiet = M'.quiet)
    {c c' : Call α} (hc : c.quiet = c'.quiet) (w w' : World) :
    (perform ⟨M, w⟩ c).map (fun r => (r.1.timeless, r.2.matrix.quiet))
      = (perform ⟨M', w'⟩ c').map fun r =>
        (r.1.timeless, r.2.matrix.quiet) := by
  rw [← perform_quiet M w w, ← perform_quiet M' w' w, h, hc]

/-- The answers to the calls that redirect nothing, without durations. -/
def answersOf (calls : List (Call α)) (answers : List (Answer α)) :
    List (Answer α) :=
  (calls.zip answers).filterMap fun p => p.1.silent?.map fun _ => p.2.timeless

/-- What a session comes to apart from printing and from durations: its
answers and the matrix. -/
def figures (s : Session α) (calls : List (Call α)) :
    Checked (List (Answer α) × SolverMatrix α) :=
  (s.run calls).map fun r => (answersOf calls r.1, r.2.matrix.quiet)

theorem figures_cons (s : Session α) (c : Call α) (calls : List (Call α)) :
    s.figures (c :: calls) = s.perform c >>= fun r =>
      (r.2.figures calls).map fun p =>
        ((c.silent?.map fun _ => r.1.timeless).toList ++ p.1, p.2) := by
  have hrun : s.run (c :: calls)
      = s.perform c >>= fun r =>
        r.2.run calls >>= fun p => pure (r.1 :: p.1, p.2) := rfl
  unfold figures
  rw [hrun]
  cases s.perform c with
  | error v => rfl
  | ok r =>
    rw [ok_bind, ok_bind]
    cases r.2.run calls with
    | error v => rfl
    | ok p =>
      show Except.ok (answersOf (c :: calls) (r.1 :: p.1), p.2.matrix.quiet)
        = .ok (_, _)
      unfold answersOf
      rw [List.zip_cons_cons, List.filterMap_cons]
      cases c.silent? <;> rfl

/-- Redirections and reports can be left out. -/
theorem figures_silent {M M' : SolverMatrix α} (h : M.quiet = M'.quiet)
    (w w' : World) (calls : List (Call α)) :
    figures ⟨M, w⟩ calls = figures ⟨M', w'⟩ (calls.filterMap Call.silent?) := by
  induction calls generalizing M M' w w' with
  | nil =>
    show Except.ok ([], M.quiet) = .ok ([], M'.quiet)
    rw [h]
  | cons c calls ih =>
    cases hc : c.silent? with
    | none =>
      rw [List.filterMap_cons_none hc, figures_cons, hc]
      obtain ⟨outlet, rfl⟩ := Call.eq_printTo_of_silent? hc
      show (figures ⟨M.printTo outlet, w⟩ calls).map _ = _
      rw [ih (M := M.printTo outlet) h w w']
      cases figures ⟨M', w'⟩ (calls.filterMap Call.silent?) <;> rfl
    | some c' =>
      obtain ⟨rfl, hc'⟩ := Call.eq_quiet_of_silent? hc
      rw [List.filterMap_cons_some hc, figures_cons, figures_cons, hc, hc']
      refine bind_congr_of_map (perform_congr h c.quiet_quiet.symm w w') ?_
      intro r r' hr
      obtain ⟨hanswer, hmatrix⟩ := Prod.mk.inj hr
      rw [hanswer, ih hmatrix r.2.world r'.2.world]

/-- **Reports and where they go never show in the numbers.** -/
theorem figures_congr {M M' : SolverMatrix α} (h : M.quiet = M'.quiet)
    (w w' : World) {calls calls' : List (Call α)}
    (hcalls : calls.filterMap Call.silent? = calls'.filterMap Call.silent?) :
    figures ⟨M, w⟩ calls = figures ⟨M', w'⟩ calls' := by
  rw [figures_silent h w w' calls, hcalls]
  exact (figures_silent rfl w' w' calls').symm

end Session

end Equilibration
