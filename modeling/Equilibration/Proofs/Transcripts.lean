import Equilibration.Proofs.Requests

/-!
# Transcripts — what outlets and clocks cannot change

A transcript is what a session answers to a list of requests, with every
duration left out. It depends on nothing that has to do with printing or
with time: two matrices that differ in their outlets and stopwatches only
have the same transcripts, whatever clocks they look at
(`Session.transcript_congr`). Each operation is followed through with the
matrix muted (`SolverMatrix.muted`) and the results compared.
-/

namespace Equilibration

open Checked

variable {α : Type}

/-- The summary without its time. -/
def EquilibrationSummary.timeless (summary : EquilibrationSummary α) :
    EquilibrationSummary α :=
  { summary with time := 0 }

/-- The answer without durations. -/
def Answer.timeless : Answer α → Answer α
  | .equilibrated summary d e => .equilibrated summary.timeless d e
  | a => a

/-- The reply without durations. -/
def Reply.timeless : Reply α → Reply α
  | .answer a => .answer a.timeless
  | .shown facts => .shown { facts with timeSpent := 0 }
  | reply => reply

/-- The matrix with its stopwatches put away and no outlet of its own. -/
def SolverMatrix.muted (M : SolverMatrix α) : SolverMatrix α :=
  { M with outlet := .stdout, watches := {} }

/-- What a part of an equilibration leaves behind, with the matrix muted. -/
def Rescaled.muted {β : Type} (r : Rescaled α β) : Rescaled α β :=
  { r with matrix := r.matrix.muted }

/-- What an equilibration leaves behind, apart from durations, with as much of
the matrix as is looked at: the result, the matrix and the factors. -/
def Equilibrated.seen (look : SolverMatrix α → SolverMatrix α)
    (out : Equilibrated α) :
    Except Refusal (EquilibrationSummary α)
      × SolverMatrix α × Array α × Array α :=
  (out.result.map EquilibrationSummary.timeless, look out.matrix, out.d, out.e)

/-- What an equilibration leaves behind, apart from durations, with the
matrix muted: the result, the matrix and the factors. -/
def Equilibrated.timeless (out : Equilibrated α) :
    Except Refusal (EquilibrationSummary α)
      × SolverMatrix α × Array α × Array α :=
  (out.result.map EquilibrationSummary.timeless, out.matrix.muted, out.d, out.e)

/-- The answer that comes back, told from what an equilibration leaves
behind apart from durations. -/
def Answer.ofTimeless (p : Except Refusal (EquilibrationSummary α)
      × SolverMatrix α × Array α × Array α) : Answer α :=
  match p.1 with
  | .ok summary => .equilibrated summary p.2.2.1 p.2.2.2
  | .error r => .refused r

theorem Answer.timeless_eq (look : SolverMatrix α → SolverMatrix α)
    (out : Equilibrated α) :
    Answer.timeless (match out.result with
      | .ok summary => .equilibrated summary out.d out.e
      | .error r => .refused r) = ofTimeless (out.seen look) := by
  unfold ofTimeless Equilibrated.seen
  cases out.result <;> rfl

/-- Equilibrations that leave behind the same answer alike. -/
theorem Answer.timeless_congr (look : SolverMatrix α → SolverMatrix α)
    {out out' : Equilibrated α} (h : out.seen look = out'.seen look) :
    Answer.timeless (match out.result with
      | .ok summary => .equilibrated summary out.d out.e
      | .error r => .refused r)
    = Answer.timeless (match out'.result with
      | .ok summary => .equilibrated summary out'.d out'.e
      | .error r => .refused r) :=
  (timeless_eq look out).trans
    ((congrArg ofTimeless h).trans (timeless_eq look out').symm)

/-- What agrees agrees in everything that is told from it. -/
theorem map_comp_congr {β γ δ : Type} {x y : Checked β} {f : β → γ} (k : γ → δ)
    (h : x.map f = y.map f) :
    (x.map fun b => k (f b)) = y.map fun b => k (f b) := by
  have hmap : ∀ z : Checked β, (z.map fun b => k (f b)) = (z.map f).map k := by
    intro z
    cases z <;> rfl
  rw [hmap, hmap, h]

/-- Steps that agree in what is looked at agree as soon as their parts do,
as far as these are reached. -/
theorem map_bind_congr_ok {β γ δ ε : Type} {x y : Checked β} {f : β → γ}
    {k l : β → Checked δ} {g : δ → ε} (h : x.map f = y.map f)
    (hk : ∀ b c, x = .ok b → y = .ok c → f b = f c →
      (k b).map g = (l c).map g) :
    (x >>= k).map g = (y >>= l).map g := by
  cases x with
  | error v =>
    cases y with
    | error v' =>
      cases h
      rfl
    | ok c => cases h
  | ok b =>
    cases y with
    | error v => cases h
    | ok c => exact hk b c rfl rfl (Except.ok.inj h)

theorem map_bind_congr {β γ δ ε : Type} {x y : Checked β} {f : β → γ}
    {k l : β → Checked δ} {g : δ → ε} (h : x.map f = y.map f)
    (hk : ∀ b c, f b = f c → (k b).map g = (l c).map g) :
    (x >>= k).map g = (y >>= l).map g :=
  map_bind_congr_ok h fun b c _ _ => hk b c

theorem map_bind_same {β δ ε : Type} {x : Checked β} {k l : β → Checked δ}
    {g : δ → ε} (hk : ∀ b, (k b).map g = (l b).map g) :
    (x >>= k).map g = (x >>= l).map g := by
  cases x with
  | error v => rfl
  | ok b => exact hk b

namespace SolverMatrix

variable [Scalar α]

theorem build_muted (M : SolverMatrix α) (w w' : World) :
    (M.muted.build w').map (fun out => (out.result, out.matrix.muted))
      = (M.build w).map fun out => (out.result, out.matrix.muted) := by
  have hinput : M.muted.input? = M.input? := rfl
  unfold build StateT.run
  rw [hinput]
  cases M.input? with
  | none => rfl
  | some input =>
    refine map_bind_same fun verdict => ?_
    cases verdict with
    | error reason => rfl
    | ok u =>
      dsimp only
      rw [Timed.timed_lift, Timed.timed_lift]
      cases PairedMatrix.ofInput input <;> rfl

theorem normalize_muted (M : SolverMatrix α) (d e : Array α) :
    (M.muted.normalize d e).map Rescaled.muted
      = (M.normalize d e).map Rescaled.muted := by
  have hestimate : M.muted.normEstimate = M.normEstimate := rfl
  have hpair : M.muted.pair = M.pair := rfl
  unfold normalize
  rw [hestimate, hpair]
  refine map_bind_same fun r => ?_
  cases r with
  | error error => rfl
  | ok norm =>
    dsimp only
    split
    · cases M.pair <;> rfl
    · rfl

/-- Stopwatches and clock do not reach what is rescaled. -/
theorem rescale_muted (M : SolverMatrix α) (t : Magnitude) (d e : Array α)
    (s s' : Stopwatches × World) :
    (M.muted.rescale t d e s').map (fun r => r.1.muted)
      = (M.rescale t d e s).map fun r => r.1.muted := by
  have hpair : M.muted.pair = M.pair := rfl
  unfold rescale
  rw [hpair]
  cases M.pair with
  | error error => rfl
  | ok pair =>
    dsimp only
    cases pair.splitSigns t with
    | error v => rfl
    | ok split =>
      rw [Timed.lift_bind rfl, Timed.lift_bind rfl, Timed.timed_bind,
        Timed.timed_bind]
      -- both sides run the same operator with the same options
      refine map_bind_same fun ⟨run, _⟩ => ?_
      cases run.outcome with
      | error error => rfl
      | ok record =>
        cases split.2.joinSigns split.1 t with
        | error v => rfl
        | ok signed =>
          dsimp only
          rw [Timed.lift_bind rfl, Timed.lift_bind rfl]
          cases signed.scaleBySides (factorsFor t run.d) (factorsFor t run.e)
            with
          | error v => rfl
          | ok balanced =>
            rw [Timed.lift_bind rfl, Timed.lift_bind rfl, Timed.timed_bind,
              Timed.timed_bind]
            refine map_bind_congr
              (normalize_muted { M with storage := .built balanced } _ _) ?_
            intro N N' hN
            exact congrArg (fun N : Rescaled α α => Except.ok
              { N with result := N.result.map fun norm => (record, norm) }) hN

theorem muted_printReport [Displayed α] (M : SolverMatrix α)
    (summary : EquilibrationSummary α) (d e : Array α) (w : World) :
    (M.printReport summary d e w).1.muted = M.muted := by
  unfold printReport
  split <;> rfl

/-- Stopwatches and clock do not reach what is rescaled of one matrix. -/
theorem rescale_timeless (M : SolverMatrix α) (t : Magnitude) (d e : Array α)
    (s s' : Stopwatches × World) :
    (M.rescale t d e s').map (fun r => r.1.muted)
      = (M.rescale t d e s).map fun r => r.1.muted :=
  (M.rescale_muted t d e s' s).symm.trans (M.rescale_muted t d e s s)

/-- Two matrices that look alike, and after rescaling still do, look alike
after an equilibration, as long as outlets and stopwatches are not looked
at. -/
theorem equilibrate_congr [Displayed α] (M M' : SolverMatrix α)
    (look : SolverMatrix α → SolverMatrix α)
    (hlook : ∀ N N' : SolverMatrix α, N.muted = N'.muted → look N = look N')
    (hbuilt : M'.isBuilt = M.isBuilt) (hrows : M'.rows = M.rows)
    (hcols : M'.cols = M.cols)
    (hbalance : M'.options.balanceNorm = M.options.balanceNorm)
    (hnormalize : M'.options.normalizeNorm = M.options.normalizeNorm)
    (halike : look M' = look M) (d e : Array α) (w w' : World)
    (hrescale : ∀ s s',
      (M'.rescale (magnitudeFor M.options.balanceNorm) d e s').map
          (fun r => { r.1 with matrix := look r.1.matrix })
        = (M.rescale (magnitudeFor M.options.balanceNorm) d e s).map
          fun r => { r.1 with matrix := look r.1.matrix }) :
    (M'.equilibrate d e w').map (Equilibrated.seen look)
      = (M.equilibrate d e w).map (Equilibrated.seen look) := by
  unfold equilibrate StateT.run
  rw [hbuilt, hnormalize, hbalance, hrows, hcols]
  split
  · exact congrArg (fun N => Except.ok (_, N, d, e)) halike
  · split
    · exact congrArg (fun N => Except.ok (_, N, d, e)) halike
    · refine map_bind_same fun _ => map_bind_same fun _ => ?_
      rw [Timed.timed_eq, Timed.timed_eq]
      refine map_bind_congr
        (f := fun s => { s.1 with matrix := look s.1.matrix })
        (map_bind_congr (hrescale _ _) fun _ _ h => congrArg Except.ok h) ?_
      rintro ⟨⟨result, matrix, d, e⟩, watches, w⟩
        ⟨⟨result', matrix', d', e'⟩, watches', w'⟩ h
      obtain ⟨rfl, hmatrix, rfl, rfl⟩ := Rescaled.mk.inj h
      have hwatches : look { matrix with watches }
          = look { matrix' with watches := watches' } :=
        (hlook { matrix with watches } matrix rfl).trans (hmatrix.trans
            (hlook matrix' { matrix' with watches := watches' } rfl))
      cases result with
      | error error =>
        show Except.ok
          ((.error error : Except Refusal (EquilibrationSummary α)),
            look { matrix with watches }, d, e)
          = .ok (.error error, look { matrix' with watches := watches' }, d, e)
        rw [hwatches]
      | ok p =>
        -- the report may differ, but reaches nothing except outlet and world
        show Except.ok (Except.ok (⟨p.1, p.2, 0⟩ : EquilibrationSummary α),
            look (printReport _ _ _ _ _).1, d, e)
          = .ok (.ok ⟨p.1, p.2, 0⟩, look (printReport _ _ _ _ _).1, d, e)
        rw [hlook _ _ (muted_printReport ..), hlook _ _ (muted_printReport ..),
          hwatches]

theorem equilibrate_muted [Displayed α] (M : SolverMatrix α) (d e : Array α)
    (w w' : World) :
    (M.muted.equilibrate d e w').map Equilibrated.timeless
      = (M.equilibrate d e w).map Equilibrated.timeless :=
  equilibrate_congr M M.muted muted (fun _ _ h => h) rfl rfl rfl rfl rfl rfl
    d e w w' fun s s' => M.rescale_muted _ d e s s'

end SolverMatrix

namespace Session

variable [Scalar α] [Displayed α]

theorem perform_muted (M : SolverMatrix α) (w w' : World) (c : Call α) :
    (perform ⟨M.muted, w'⟩ c).map (fun r => (r.1.timeless, r.2.matrix.muted))
      = (perform ⟨M, w⟩ c).map fun r => (r.1.timeless, r.2.matrix.muted) := by
  cases c with
  | build =>
    refine map_bind_congr (M.build_muted w w') ?_
    rintro ⟨result, M₁, w₁⟩ ⟨result', M₂, w₂⟩ h
    obtain ⟨hresult, hmatrix⟩ := Prod.mk.inj h
    cases hresult
    exact congrArg (fun M => Except.ok (_, M)) hmatrix
  | multiply shape a x b y =>
    refine map_bind_same fun r => ?_
    cases r <;> rfl
  | estimateNorm norm options =>
    refine map_bind_same fun r => ?_
    cases r <;> rfl
  | equilibrate d e =>
    refine map_bind_congr (M.equilibrate_muted d e w w') ?_
    intro out out' h
    exact congrArg₂ (fun a M => Except.ok (a, M))
      (Answer.timeless_congr SolverMatrix.muted h) (congrArg (·.2.1) h)
  | setOptions options =>
    cases hcheck : options.check with
    | error e =>
      rw [perform, perform, SolverMatrix.withOptions,
        SolverMatrix.withOptions, hcheck]
      rfl
    | ok u =>
      rw [perform, perform, SolverMatrix.withOptions,
        SolverMatrix.withOptions, hcheck]
      rfl
  | printTo outlet => rfl

/-- What a session answers, durations left out. -/
def transcript (s : Session α) (requests : List (Request α)) :
    Checked (List (Reply α)) :=
  (s.serveAll requests).map fun r => r.1.map Reply.timeless

theorem serve_muted (M : SolverMatrix α) (w w' : World) (r : Request α) :
    (serve ⟨M.muted, w'⟩ r).map (fun p => (p.1.timeless, p.2.matrix.muted))
      = (serve ⟨M, w⟩ r).map fun p => (p.1.timeless, p.2.matrix.muted) := by
  cases r with
  | call c =>
    refine map_bind_congr (perform_muted M w w' c) ?_
    intro p p' h
    obtain ⟨hanswer, hmatrix⟩ := Prod.mk.inj h
    show Except.ok (Reply.answer p.1.timeless, p.2.matrix.muted)
      = .ok (.answer p'.1.timeless, p'.2.matrix.muted)
    rw [hanswer, hmatrix]
  | balance d e budget tolerance => exact map_bind_same fun _ => rfl
  | spectralNorm budget tolerance => exact map_bind_same fun _ => rfl
  | inspect => rfl
  | copy => rfl

/-- **Outlets, stopwatches and clocks never show in what is answered.** -/
theorem transcript_congr {M M' : SolverMatrix α} (h : M.muted = M'.muted)
    (w w' : World) (requests : List (Request α)) :
    transcript ⟨M, w⟩ requests = transcript ⟨M', w'⟩ requests := by
  induction requests generalizing M M' w w' with
  | nil => rfl
  | cons r requests ih =>
    have hserve : (serve ⟨M, w⟩ r).map (fun p =>
        (p.1.timeless, p.2.matrix.muted))
        = (serve ⟨M', w'⟩ r).map fun p => (p.1.timeless, p.2.matrix.muted) := by
      rw [← serve_muted M w w r, ← serve_muted M' w' w r, h]
    refine map_bind_congr hserve ?_
    intro p p' hp
    obtain ⟨hreply, hmatrix⟩ := Prod.mk.inj hp
    have hcons : ∀ (reply : Reply α) (x : Checked (List (Reply α) × Session α)),
        (x >>= fun r => pure (reply :: r.1, r.2)).map
            (fun r : List (Reply α) × Session α => r.1.map Reply.timeless)
          = (x.map fun r => r.1.map Reply.timeless).map
            (reply.timeless :: ·) := by
      intro reply x
      cases x <;> rfl
    refine (hcons _ _).trans (Eq.trans ?_ (hcons _ _).symm)
    rw [hreply]
    exact congrArg _ (ih hmatrix _ _)

end Session

end Equilibration
