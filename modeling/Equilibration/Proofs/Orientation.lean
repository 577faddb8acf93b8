import Equilibration.Proofs.SoundOptions
import Equilibration.Proofs.Unoriented

/-!
# Orientation — the order of the input does not show

A matrix with sorted slices can be handed over by rows or by columns. Both
inputs are built into the same two storage forms, and the only trace of the
difference is the remembered order of the input, which nothing depends on
but a look at the matrix and the Frobenius norm (`Request.Unoriented`). Of
an equilibration that ends with that norm only the balancing is the same.

Main result: `Session.orientation_unobservable`.
-/

namespace Equilibration

open Checked

variable {α : Type}

/-- The arrays of a matrix as an input. -/
def SlicedMatrix.asInput (A : SlicedMatrix α) : MatrixInput α where
  order := A.order
  rows := A.rows
  cols := A.cols
  entryCount := A.values.size
  starts := A.starts
  indices := A.indices
  values := A.values

theorem SlicedMatrix.check_asInput {A : SlicedMatrix α}
    (h : A.check = .ok (.ok ())) :
    A.asInput.check = .ok (.ok ()) := MatrixInput.check_eq_ok_iff.mpr ⟨rfl, h⟩

/-! ## Requests -/

/-- Nothing that is asked for depends on the order of the input. Under the
given options a Frobenius norm would. -/
def Request.Unoriented (o : Options α) : Request α → Prop
  | .call (.equilibrate _ _) => o.normalizeNorm ≠ .frobenius
  | .call (.estimateNorm norm _) => norm ≠ .frobenius
  | .inspect => False
  | _ => True

/-- The options that a request leaves a matrix with. -/
def Request.optionsAfter [Scalar α] (o : Options α) : Request α → Options α
  | .call c => c.optionsAfter o
  | _ => o

/-- Nothing that is asked for, one request after the other, depends on the
order of the input. -/
def Request.AllUnoriented [Scalar α] (o : Options α) : List (Request α) → Prop
  | [] => True
  | r :: rs => r.Unoriented o ∧ AllUnoriented (r.optionsAfter o) rs

namespace Session

variable [Scalar α] [Displayed α]

/-- What is compared: the reply without durations, and the matrix without
the order of its input, stopwatches and outlet. -/
def seen {β : Type} (told : β → β) (p : β × Session α) : β × SolverMatrix α :=
  (told p.1, p.2.matrix.muted.unoriented)

theorem perform_unoriented {M : SolverMatrix α} (hM : M.isBuilt = true)
    (w : World) {c : Call α} (hc : Request.Unoriented M.options (.call c)) :
    (perform ⟨M.unoriented, w⟩ c).map (seen Answer.timeless)
      = (perform ⟨M, w⟩ c).map (seen Answer.timeless) := by
  have hsame : M.unoriented.muted.unoriented = M.muted.unoriented :=
    congrArg SolverMatrix.muted M.unoriented_unoriented
  cases c with
  | build =>
    rw [perform, perform, SolverMatrix.build_of_isBuilt hM,
      SolverMatrix.build_of_isBuilt (M.isBuilt_unoriented.trans hM)]
    exact congrArg (fun N => Except.ok (Answer.refused .alreadyBuilt, N)) hsame
  | multiply shape a x b y =>
    rw [perform, perform, SolverMatrix.multiply_unoriented]
    refine map_bind_same fun r => ?_
    cases r with
    | error reason =>
      exact congrArg (fun N => Except.ok (Answer.refused reason, N)) hsame
    | ok y => exact congrArg (fun N => Except.ok (Answer.vector y, N)) hsame
  | estimateNorm norm options =>
    rw [perform, perform, SolverMatrix.normEstimate_unoriented M hc]
    refine map_bind_same fun r => ?_
    cases r with
    | error reason =>
      exact congrArg (fun N => Except.ok (Answer.refused reason, N)) hsame
    | ok v => exact congrArg (fun N => Except.ok (Answer.estimate v, N)) hsame
  | equilibrate d e =>
    refine map_bind_congr (M.equilibrate_unoriented hc d e w) ?_
    intro out out' h
    exact congrArg₂ (fun a N => Except.ok (a, N))
      (Answer.timeless_congr (fun N => N.unoriented.muted) h)
      (congrArg (·.2.1) h)
  | setOptions options =>
    cases hcheck : options.check with
    | error e =>
      rw [perform_setOptions_of_unsound _ hcheck,
        perform_setOptions_of_unsound _ hcheck]
      exact congrArg (fun N => Except.ok (Answer.unsound e, N)) hsame
    | ok u =>
      rw [perform_setOptions_of_sound _ hcheck,
        perform_setOptions_of_sound _ hcheck]
      exact congrArg
        (fun N => Except.ok (Answer.done, { N with options })) hsame
  | printTo outlet => exact congrArg (fun N => Except.ok (Answer.done, N)) hsame

theorem serve_unoriented {M : SolverMatrix α} (hM : M.isBuilt = true)
    (w : World) {r : Request α} (hr : r.Unoriented M.options) :
    (serve ⟨M.unoriented, w⟩ r).map (seen Reply.timeless)
      = (serve ⟨M, w⟩ r).map (seen Reply.timeless) := by
  have hsame : M.unoriented.muted.unoriented = M.muted.unoriented :=
    congrArg SolverMatrix.muted M.unoriented_unoriented
  cases r with
  | call c =>
    refine map_bind_congr (perform_unoriented hM w hr) ?_
    intro p p' h
    obtain ⟨hanswer, hmatrix⟩ := Prod.mk.inj h
    exact congrArg₂ (fun a N => Except.ok (Reply.answer a, N)) hanswer hmatrix
  | balance d e budget tolerance =>
    rw [serve, serve, SolverMatrix.operator_unoriented]
    exact map_bind_same fun p =>
      congrArg (fun N => Except.ok (Reply.balanced p.1, N)) hsame
  | spectralNorm budget tolerance =>
    rw [serve, serve, SolverMatrix.operator_unoriented]
    exact map_bind_same fun p =>
      congrArg (fun N => Except.ok (Reply.norm p.1, N)) hsame
  | inspect => exact hr.elim
  | copy =>
    rw [serve, serve, SolverMatrix.unbuiltCopy?, SolverMatrix.unbuiltCopy?,
      SolverMatrix.input?_eq_none hM,
      SolverMatrix.input?_eq_none (M.isBuilt_unoriented.trans hM)]
    exact congrArg (fun N => Except.ok (Reply.copied none, N)) hsame

theorem Lives.options_of_serve (hcomm : ∀ a b : α, a * b = b * a)
    {input : MatrixInput α} {s s' : Session α} {r : Request α} {reply : Reply α}
    (hs : Lives input s.matrix) (h : s.serve r = .ok (reply, s')) :
    s'.matrix.options = r.optionsAfter s.matrix.options := by
  rcases serve_cases h with ⟨hr, rfl⟩ | ⟨c, a, rfl, -, hperform⟩
  · cases r with
    | call c => exact absurd rfl (hr c)
    | balance | spectralNorm | inspect | copy => rfl
  · exact hs.options_of_perform hcomm hperform

theorem Lives.isBuilt_of_serve (hcomm : ∀ a b : α, a * b = b * a)
    {input : MatrixInput α} {s s' : Session α} {r : Request α} {reply : Reply α}
    (hs : Lives input s.matrix) (hbuilt : s.matrix.isBuilt = true)
    (h : s.serve r = .ok (reply, s')) :
    s'.matrix.isBuilt = true := by
  rcases serve_cases h with ⟨-, rfl⟩ | ⟨c, a, -, -, hperform⟩
  · exact hbuilt
  · exact (hs.perform hcomm hperform).2.mpr (.inl hbuilt)

/-- Two matrices that differ in the order of their input, in their outlets
and in their stopwatches only answer a request alike. -/
theorem serve_congr {M N : SolverMatrix α} (hM : M.isBuilt = true)
    (h : M.muted.unoriented = N.muted.unoriented) (w w' : World) {r : Request α}
    (hr : r.Unoriented M.options) :
    (serve ⟨M, w⟩ r).map (seen Reply.timeless)
      = (serve ⟨N, w'⟩ r).map (seen Reply.timeless) := by
  have hN : N.isBuilt = true := by
    have hbuilt : N.muted.unoriented.isBuilt = M.muted.unoriented.isBuilt := by
      rw [h]
    rw [SolverMatrix.isBuilt_unoriented, SolverMatrix.isBuilt_unoriented]
      at hbuilt
    exact hbuilt.trans hM
  have hoptions : N.muted.unoriented.options = M.muted.unoriented.options := by
    rw [h]
  have hmuted : ∀ (M : SolverMatrix α) (w w' : World),
      (serve ⟨M.muted, w'⟩ r).map (seen Reply.timeless)
        = (serve ⟨M, w⟩ r).map (seen Reply.timeless) :=
    fun M w w' =>
      map_comp_congr (fun p => (p.1, p.2.unoriented)) (serve_muted M w w' r)
  calc (serve ⟨M, w⟩ r).map (seen Reply.timeless)
      = (serve ⟨M.muted, w⟩ r).map (seen Reply.timeless) := (hmuted M w w).symm
    _ = (serve ⟨M.muted.unoriented, w⟩ r).map (seen Reply.timeless) :=
      (serve_unoriented (M := M.muted) hM w hr).symm
    _ = (serve ⟨N.muted.unoriented, w⟩ r).map (seen Reply.timeless) := by rw [h]
    _ = (serve ⟨N.muted, w⟩ r).map (seen Reply.timeless) :=
      serve_unoriented (M := N.muted) hN w (hoptions ▸ hr)
    _ = (serve ⟨N, w'⟩ r).map (seen Reply.timeless) := hmuted N w' w

/-- **The rule of unoriented requests.** As long as nothing that depends on
the order of the input is asked for, two matrices without other differences
answer alike and stay without other differences. -/
theorem serveAll_congr (hcomm : ∀ a b : α, a * b = b * a)
    {input : MatrixInput α} {s t : Session α}
    (hs : Lives input s.matrix) (hbuilt : s.matrix.isBuilt = true)
    (h : s.matrix.muted.unoriented = t.matrix.muted.unoriented)
    {requests : List (Request α)}
    (hrequests : Request.AllUnoriented s.matrix.options requests) :
    (s.serveAll requests).map (seen (List.map Reply.timeless))
      = (t.serveAll requests).map (seen (List.map Reply.timeless)) := by
  induction requests generalizing s t with
  | nil => exact congrArg (fun N => Except.ok (([] : List (Reply α)), N)) h
  | cons r requests ih =>
    obtain ⟨hr, hrest⟩ := hrequests
    refine map_bind_congr_ok (serve_congr hbuilt h s.world t.world hr) ?_
    rintro ⟨reply, s'⟩ ⟨reply', t'⟩ hserve - hseen
    obtain ⟨hreply, hmatrix⟩ := Prod.mk.inj hseen
    rw [← hs.options_of_serve hcomm hserve] at hrest
    refine map_bind_congr (ih (hs.serve hcomm hserve)
        (hs.isBuilt_of_serve hcomm hbuilt hserve) hmatrix hrest) ?_
    intro p p' hseen
    exact congrArg₂ (fun reply p => Except.ok (reply :: p.1, p.2)) hreply hseen

/-- A build of the arrays of a matrix stores its forms and changes nothing
else. -/
theorem serve_build_asInput {A : SlicedMatrix α} (h : A.check = .ok (.ok ()))
    (hroom : A.HasRoom) (options : Options α) (w : World) :
    ∃ s, serve ⟨.ofInput A.asInput options, w⟩ (.call .build)
      = .ok (.answer .done, s)
      ∧ s.matrix.muted
        = { SolverMatrix.ofInput A.asInput options with
          storage := .built (.ofForm A) } := by
  have hbuild :=
    (SolverMatrix.build_eq_ok_iff (M := .ofInput A.asInput options) (w := w) rfl
      (SlicedMatrix.check_asInput h)).mpr ⟨hroom, rfl⟩
  exact ⟨_, bind_eq_ok_iff.mpr ⟨_, bind_eq_ok_iff.mpr ⟨_, hbuild, rfl⟩, rfl⟩,
    rfl⟩

/-- **The orientation of the input cannot be observed.** Take any
well-formed matrix with sorted slices, in which indices may be repeated, and
its conversion to the other order, and build a solver matrix from the arrays
of each, with the same options, sound or not. Both builds succeed and store
the same row form and the same column form. Whatever is asked of both
afterwards, in any order, is answered alike, durations apart, and leaves
equal forms: products, balancing with its factors, estimates of the 2-norm
and equilibrations. Only a Frobenius norm must not be asked for, neither as
an estimate nor by an equilibration that normalizes by it; and even then
the equilibration reports the same balancing. -/
theorem orientation_unobservable [hmul : Std.Commutative fun a b : α => a * b]
    (A : SlicedMatrix α) (h : A.check = .ok (.ok ()))
    (hmem : FitsMemory A.rows A.cols A.values.size) (hsorted : A.slices.Sorted)
    (options : Options α) (w w' : World) :
    ∃ (B : SlicedMatrix α) (s t : Session α), A.inOrder A.order.flip = .ok B
      ∧ serve ⟨.ofInput A.asInput options, w⟩ (.call .build)
        = .ok (.answer .done, s)
      ∧ serve ⟨.ofInput B.asInput options, w'⟩ (.call .build)
        = .ok (.answer .done, t)
      ∧ (∃ P Q, s.matrix.pair = .ok P ∧ t.matrix.pair = .ok Q
        ∧ P.row = Q.row ∧ P.col = Q.col)
      ∧ ∀ requests, Request.AllUnoriented options requests →
        (s.serveAll requests).map
          (fun p => (p.1.map Reply.timeless, p.2.matrix.forms))
            = (t.serveAll requests).map
              (fun p => (p.1.map Reply.timeless, p.2.matrix.forms))
          ∧ ∀ replies replies' s' t',
            s.serveAll requests = .ok (replies, s') →
            t.serveAll requests = .ok (replies', t') →
            ∀ (d e : Array α) (u u' : World),
            (s'.matrix.equilibrate d e u).map SolverMatrix.reported
              = (t'.matrix.equilibrate d e u').map SolverMatrix.reported := by
  have hcomm : ∀ a b : α, a * b = b * a := hmul.comm
  obtain ⟨s, hs, hsM⟩ := serve_build_asInput h hmem.hasRoom options w
  obtain ⟨t, ht, htM⟩ :=
    serve_build_asInput (SlicedMatrix.check_flipped h hmem.hasRoom)
      (SlicedMatrix.hasRoom_flipped h hmem) options w'
  have hforms := PairedMatrix.unoriented_ofForm_flipped h hsorted
  have hpair : s.matrix.pair = .ok (.ofForm A) := congrArg SolverMatrix.pair hsM
  have hpair' : t.matrix.pair = .ok (.ofForm A.flipped) :=
    congrArg SolverMatrix.pair htM
  have hsame : s.matrix.muted.unoriented = t.matrix.muted.unoriented := by
    rw [hsM, htM]
    simp only [SolverMatrix.unoriented, Storage.unoriented,
      SolverMatrix.ofInput, hforms,
      SlicedMatrix.asInput, SlicedMatrix.size_values_flipped h]
    rfl
  have hlives : Lives A.asInput s.matrix := (Lives.of_input rfl).serve hcomm hs
  have hbuilt : s.matrix.isBuilt = true := congrArg SolverMatrix.isBuilt hsM
  have hoptions : s.matrix.options = options :=
    congrArg (fun M => M.options) hsM
  refine ⟨A.flipped, s, t, SlicedMatrix.inOrder_flip h hmem.hasRoom, hs, ht,
    ⟨_, _, hpair, hpair', congrArg (·.row) hforms.symm,
      congrArg (·.col) hforms.symm⟩, ?_⟩
  intro requests hrequests
  have hseen :=
    serveAll_congr hcomm hlives hbuilt hsame (hoptions.symm ▸ hrequests)
  constructor
  · have hshown : ∀ M : SolverMatrix α, M.muted.unoriented.forms = M.forms :=
      fun M => M.muted.forms_unoriented
    have hcompared := map_comp_congr (fun p => (p.1, p.2.forms)) hseen
    simpa only [seen, hshown] using hcompared
  · intro replies replies' s' t' hs' ht' d e u u'
    rw [hs', ht'] at hseen
    have hM : s'.matrix.muted.unoriented = t'.matrix.muted.unoriented :=
      (Prod.mk.inj (Except.ok.inj hseen)).2
    rw [← s'.matrix.reported_muted d e u u,
      ← s'.matrix.muted.reported_unoriented, hM,
      t'.matrix.muted.reported_unoriented, t'.matrix.reported_muted d e u' u]

/-- Rows with a repeated index and an infinite value, two equilibrations
that normalize by the 2-norm, and then options that ask for the Frobenius
norm. -/
theorem orientation_unobservable_repeated :
    let A : SlicedMatrix Float :=
      ⟨.row, 2, 3, #[0, 3, 4], #[0, 2, 2, 1], #[1, 1 / 0, -2, 4]⟩
    let two : Options Float :=
      { (.standard : Options Float) with normalizeNorm := .two }
    let requests : List (Request Float) :=
      [.call (.multiply .normal 1 #[1, 2, 3] 0 #[0, 0]),
        .balance #[1, 1] #[1, 1, 1] 7 0, .spectralNorm 5 0,
        .call (.equilibrate #[0, 0] #[0, 0, 0]),
        .call (.equilibrate #[0, 0] #[0, 0, 0]), .call (.setOptions .standard)]
    ∃ (B : SlicedMatrix Float) (s t : Session Float), A.inOrder .col = .ok B
      ∧ serve ⟨.ofInput A.asInput two, { readings := fun n => n }⟩
        (.call .build) = .ok (.answer .done, s)
      ∧ serve ⟨.ofInput B.asInput two, { readings := fun n => 2 * n }⟩
        (.call .build) = .ok (.answer .done, t)
      ∧ (s.serveAll requests).map
        (fun p => (p.1.map Reply.timeless, p.2.matrix.forms))
        = (t.serveAll requests).map
          (fun p => (p.1.map Reply.timeless, p.2.matrix.forms)) := by
  intro A two requests
  have h : A.check = .ok (.ok ()) := by decide +kernel
  have hmem : FitsMemory A.rows A.cols A.values.size :=
    ⟨by decide, by decide, by decide⟩
  have hsorted : A.slices.Sorted := by
    show ∀ s ∈ A.slices, s.Pairwise fun e f => e.1 ≤ f.1
    decide +kernel
  have hrequests : Request.AllUnoriented two requests :=
    ⟨trivial, trivial, trivial, nofun, nofun, trivial, trivial⟩
  obtain ⟨B, s, t, hB, hs, ht, -, hrun⟩ :=
    orientation_unobservable A h hmem hsorted two
      { readings := fun n => n } { readings := fun n => 2 * n }
  exact ⟨B, s, t, hB, hs, ht, (hrun requests hrequests).1⟩

end Session

end Equilibration
