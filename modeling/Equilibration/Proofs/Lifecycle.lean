import Equilibration.Proofs.Transcripts

/-!
# Lifecycle — before and after the build

A solver matrix is a machine with two states. Before the build it refuses
everything that needs the storage forms, and can be copied; after it, it
refuses a second build. The only way from one state to the other is a build
whose input passes the check, and there is no way back
(`Session.lifecycle`). Of the requests that change a built matrix, an
equilibration is either refused before it touches anything or carried
through (`Session.equilibration_all_or_nothing`).

Nothing is assumed of the input arrays: a matrix of arrays that describe no
matrix is just never built.
-/

namespace Equilibration

open Checked

variable {α : Type} [Scalar α] [Displayed α]

/-- How a matrix of some input acts as long as it is not built. -/
structure SolverMatrix.ActsUnbuilt (input : MatrixInput α)
    (M : SolverMatrix α) : Prop where
  /-- The check of the input decides a build. If it fails the matrix stays as
  it is, and if it succeeds the matrix is built and shows the arrays of the
  input. -/
  build : ∀ w, ∃ verdict out, input.check = .ok verdict ∧ M.build w = .ok out
    ∧ match verdict with
      | .error reason =>
        out = { result := .error (.malformed reason), matrix := M, world := w }
      | .ok () =>
        out.result = .ok () ∧ out.matrix.isBuilt = true
          ∧ out.matrix.values = .ok input.values
          ∧ out.matrix.starts = .ok input.starts
          ∧ out.matrix.indices = .ok input.indices
  /-- Products are refused whatever the lengths of the vectors, and leave the
  vector as it is. -/
  multiply : ∀ shape a x b y, M.multiply shape a x b y = .ok (.error .notBuilt)
    ∧ M.operator.multiply shape a x b y () = .ok (⟨y, some .notBuilt⟩, ())
  /-- Equilibrations are refused whatever the lengths of the vectors, and leave
  everything as it is. -/
  equilibrate : ∀ d e w, M.equilibrate d e w
      = .ok { result := .error .notBuilt, matrix := M, d, e, world := w }
  /-- There is nothing stored to show. -/
  shows : M.pair = .error .notBuilt ∧ M.values = .error .notBuilt
    ∧ M.starts = .error .notBuilt
    ∧ M.indices = .error .notBuilt
  /-- There is a copy, and whatever is asked of it and of the matrix, the same
  is answered, durations apart. -/
  copy : ∃ C, M.unbuiltCopy? = some C ∧ ∀ w w' (requests : List (Request α)),
    Session.transcript ⟨C, w⟩ requests = Session.transcript ⟨M, w'⟩ requests

/-- How a matrix acts once it is built. -/
structure SolverMatrix.ActsBuilt (M : SolverMatrix α) : Prop where
  /-- It is not built again. -/
  build : ∀ w, M.build w
      = .ok { result := .error .alreadyBuilt, matrix := M, world := w }
  /-- No product is refused. -/
  multiply :
      ∀ shape a x b y r, M.multiply shape a x b y = .ok r → ∃ y', r = .ok y'
  /-- No equilibration is refused for want of a build. -/
  equilibrate :
      ∀ d e w out, M.equilibrate d e w = .ok out → out.result ≠ .error .notBuilt
  /-- Everything that is stored is shown. -/
  shows : (∃ P, M.pair = .ok P) ∧ (∃ values, M.values = .ok values)
    ∧ (∃ starts, M.starts = .ok starts) ∧ ∃ indices, M.indices = .ok indices
  /-- There is no copy any more. -/
  copy : M.unbuiltCopy? = none

omit [Scalar α] [Displayed α] in
/-- The check comes to a verdict whatever the arrays hold. -/
theorem MatrixInput.check_total {input : MatrixInput α}
    (hword : input.order.primary input.rows input.cols + 1 < UInt64.size) :
    ∃ verdict, input.check = .ok verdict := by
  unfold check
  split
  · exact ⟨_, rfl⟩
  · exact ⟨_, checkArrays_eq_ok hword⟩

namespace SolverMatrix

variable {M : SolverMatrix α}

omit [Scalar α] [Displayed α] in
theorem muted_ofInput {input : MatrixInput α} (hM : M.input? = some input) :
    (ofInput input M.options).muted = M.muted := by
  obtain ⟨order, rows, cols, entryCount, storage, options, outlet, watches⟩ := M
  cases storage with
  | unbuilt starts indices values =>
    cases hM
    rfl
  | built pair => cases hM

omit [Scalar α] [Displayed α] in
theorem Holds.shows {A : SlicedMatrix α} (hM : M.Holds A) :
    M.values = .ok A.values ∧ M.starts = .ok A.starts
      ∧ M.indices = .ok A.indices := by
  have hform := PairedMatrix.inputForm_ofForm A
  unfold values starts indices
  rw [hM.pair]
  simp only [Except.map, hform, and_self]

/-- Normalization by the 1-norm is refused before anything else is looked
at. -/
theorem equilibrate_of_one (hM : M.isBuilt = true)
    (hnorm : M.options.normalizeNorm = .one) (d e : Array α) (w : World) :
    M.equilibrate d e w
      = .ok { result := .error (.unsupportedNorm .one), matrix := M, d, e,
              world := w } := by
  unfold equilibrate
  rw [if_neg (not_not.mpr hM), if_pos hnorm]
  rfl

omit [Displayed α] in
/-- A product that comes to a result is not refused. -/
theorem Holds.multiply_answers {A : SlicedMatrix α} (hM : M.Holds A)
    {shape : Shape} {a b : α} {x y : Array α} {r : Except Refusal (Array α)}
    (h : M.multiply shape a x b y = .ok r) :
    ∃ y', r = .ok y' := by
  unfold multiply at h
  rw [hM.pair] at h
  obtain ⟨_, -, h⟩ := bind_eq_ok_iff.mp h
  obtain ⟨_, -, h⟩ := bind_eq_ok_iff.mp h
  obtain ⟨y', -, h⟩ := bind_eq_ok_iff.mp h
  cases h
  exact ⟨y', rfl⟩

/-- A built matrix that is not to be normalized by the 1-norm is
equilibrated. -/
theorem Holds.summary_of_equilibrate {A : SlicedMatrix α} (hM : M.Holds A)
    (hcomm : ∀ a b : α, a * b = b * a) (hnorm : M.options.normalizeNorm ≠ .one)
    {d e : Array α} {w : World} {out : Equilibrated α}
    (h : M.equilibrate d e w = .ok out) :
    ∃ summary, out.result = .ok summary := by
  rcases hM.of_equilibrate hcomm h with ⟨hone, -⟩ |
    ⟨_, _, _, _, _, _, -, -, -, -, -, -, hresult, -, -, -⟩
  · exact absurd hone hnorm
  · exact ⟨_, hresult⟩

omit [Scalar α] [Displayed α] in
/-- The pointers of both forms bound the dimensions. -/
theorem Holds.dims_lt {A : SlicedMatrix α} (hM : M.Holds A)
    (hstarts : A.starts.size < capacity) :
    M.rows < capacity ∧ M.cols < capacity := by
  obtain ⟨-, -, hsize, -⟩ := SlicedMatrix.of_check hM.check
  have hslices : A.sliceCount < capacity := by omega
  have hbound : A.indexBound < capacity := Nat.lt_of_succ_lt hM.room.1
  rw [hM.rows_eq, hM.cols_eq]
  unfold SlicedMatrix.sliceCount at hslices
  unfold SlicedMatrix.indexBound at hbound
  cases horder : A.order <;> rw [horder] at hslices hbound
  · exact ⟨hslices, hbound⟩
  · exact ⟨hbound, hslices⟩

end SolverMatrix

namespace Session

variable {input : MatrixInput α} {M : SolverMatrix α}

theorem Lives.actsUnbuilt
    (hword : input.order.primary input.rows input.cols + 1 < UInt64.size)
    (hroom : input.check = .ok (.ok ()) → input.matrix.HasRoom)
    (hM : M.input? = some input) :
    M.ActsUnbuilt input where
  build w := by
    obtain ⟨verdict, hcheck⟩ := MatrixInput.check_total hword
    cases verdict with
    | error reason =>
      exact ⟨_, _, hcheck, SolverMatrix.build_of_malformed hM hcheck w, rfl⟩
    | ok u =>
      have hbuild := (SolverMatrix.build_eq_ok_iff (w := w) hM hcheck).mpr
        ⟨hroom hcheck, rfl⟩
      exact ⟨_, _, hcheck, hbuild, rfl, rfl,
        (SolverMatrix.holds_of_build hcheck hM hbuild).shows⟩
  multiply shape a x b y :=
    ⟨SolverMatrix.multiply_of_input hM shape a x b y,
      SolverMatrix.operator_of_input hM shape a x b y⟩
  equilibrate d e w := equilibrate_of_input hM d e w
  shows := by
    have hpair := SolverMatrix.pair_of_input hM
    unfold SolverMatrix.values SolverMatrix.starts SolverMatrix.indices
    rw [hpair]
    exact ⟨rfl, rfl, rfl, rfl⟩
  copy := by
    refine ⟨.ofInput input M.options,
      by rw [SolverMatrix.unbuiltCopy?, hM]; rfl, ?_⟩
    intro w w' requests
    exact transcript_congr (SolverMatrix.muted_ofInput hM) w w' requests

/-- A build of well-formed input is answered well. -/
theorem serve_build (hcheck : input.check = .ok (.ok ()))
    (hroom : input.matrix.HasRoom) (hM : M.input? = some input) (w : World) :
    ∃ s, serve ⟨M, w⟩ (.call .build) = .ok (.answer .done, s)
      ∧ s.matrix.isBuilt = true
      ∧ s.matrix.stated = M.stated ∧ s.matrix.options = M.options :=
  ⟨_, bind_eq_ok_iff.mpr ⟨_, bind_eq_ok_iff.mpr ⟨_,
    (SolverMatrix.build_eq_ok_iff hM hcheck).mpr ⟨hroom, rfl⟩, rfl⟩, rfl⟩, rfl,
    rfl, rfl⟩

/-- After such a build the matrix holds the input. -/
theorem serve_build_holds (hcheck : input.check = .ok (.ok ()))
    (hmem : FitsMemory input.rows input.cols input.values.size)
    (hM : M.input? = some input) (w : World) :
    ∃ s, serveAll ⟨M, w⟩ [.call .build] = .ok ([.answer .done], s)
      ∧ s.matrix.Holds input.matrix ∧ s.matrix.options = M.options := by
  have hbuild := (SolverMatrix.build_eq_ok_iff (w := w) hM hcheck).mpr
    ⟨hmem.hasRoom (A := input.matrix), rfl⟩
  have hserve : serve ⟨M, w⟩ (.call .build) = .ok (.answer .done, _) :=
    bind_eq_ok_iff.mpr ⟨_, perform_build_of_ok (s := ⟨M, w⟩) hbuild rfl, rfl⟩
  exact ⟨_, bind_eq_ok_iff.mpr ⟨_, hserve, rfl⟩,
    SolverMatrix.holds_of_build hcheck hM hbuild, rfl⟩

/-- A matrix of well-formed input that fits is built and equilibrated. -/
theorem run_build_equilibrate (hcomm : ∀ a b : α, a * b = b * a)
    (hcheck : input.check = .ok (.ok ()))
    (hmem : FitsMemory input.rows input.cols input.values.size)
    (hM : M.input? = some input) (hnorm : M.options.normalizeNorm ≠ .one)
    (w : World) {d e : Array α} (hd : d.size = input.rows)
    (he : e.size = input.cols) :
    ∃ summary d' e' s,
      run ⟨M, w⟩ [.build, .equilibrate d e]
        = .ok ([.done, .equilibrated summary d' e'], s)
        ∧ summary.balance.iterations ≤ M.options.balanceBudget.toNat := by
  obtain ⟨built, hbuild, hdone, hoptions⟩ :
      ∃ built, M.build w = .ok built ∧ built.result = .ok ()
        ∧ built.matrix.options = M.options :=
    ⟨_, (SolverMatrix.build_eq_ok_iff hM hcheck).mpr
      ⟨hmem.hasRoom (A := input.matrix), rfl⟩, rfl, rfl⟩
  have hs := SolverMatrix.holds_of_build hcheck hM hbuild
  have hrows : built.matrix.rows = input.rows := hs.rows_eq
  have hcols : built.matrix.cols = input.cols := hs.cols_eq
  obtain ⟨out, hout⟩ :=
    hs.equilibrate_total hcomm (hd.trans hrows.symm) (he.trans hcols.symm)
      (hrows ▸ Nat.lt_of_succ_lt hmem.rows_lt)
      (hcols ▸ Nat.lt_of_succ_lt hmem.cols_lt) built.world
  obtain ⟨summary, hok⟩ :=
    hs.summary_of_equilibrate hcomm (hoptions ▸ hnorm) hout
  have hbuilt := perform_build_of_ok (s := ⟨M, w⟩) hbuild hdone
  have hequilibrated :=
    perform_equilibrate_of_ok (s := ⟨built.matrix, built.world⟩) hout hok
  refine ⟨summary, out.d, out.e, ⟨out.matrix, out.world⟩, ?_,
    (hs.iterations_le_of_equilibrate hcomm hout hok).trans_eq
      (by rw [hoptions])⟩
  rw [run, hbuilt, ok_bind]
  dsimp only
  rw [run, hequilibrated]
  rfl

/-- What a run that builds and equilibrates comes from. -/
theorem of_run_build_equilibrate (hcheck : input.check = .ok (.ok ()))
    (hM : M.input? = some input) {w : World} {d e d' e' : Array α}
    {summary : EquilibrationSummary α} {s : Session α}
    (h : run ⟨M, w⟩ [.build, .equilibrate d e]
      = .ok ([.done, .equilibrated summary d' e'], s)) :
    ∃ (B : SolverMatrix α) (w' : World) (out : Equilibrated α),
      B.Holds input.matrix
        ∧ B.options = M.options ∧ B.equilibrate d e w' = .ok out
        ∧ out.result = .ok summary
        ∧ s.matrix = out.matrix ∧ d' = out.d ∧ e' = out.e := by
  obtain ⟨⟨a, s₁⟩, hbuild, h⟩ := bind_eq_ok_iff.mp h
  obtain ⟨⟨answers, s₂⟩, hrest, heq⟩ := bind_eq_ok_iff.mp h
  cases heq
  obtain ⟨⟨a, s₃⟩, hequilibrate, hrest⟩ := bind_eq_ok_iff.mp hrest
  cases hrest
  obtain ⟨built, hbuilt, heq⟩ := bind_eq_ok_iff.mp hbuild
  obtain ⟨-, rfl⟩ := Prod.mk.inj (Except.ok.inj heq)
  obtain ⟨out, hout, hok, hs, hd, he⟩ := equilibrated_of_perform hequilibrate
  have hoptions : built.matrix.options = M.options := by
    rw [((SolverMatrix.build_eq_ok_iff hM hcheck).mp hbuilt).2]
  exact ⟨built.matrix, built.world, out, SolverMatrix.holds_of_build hcheck hM
    hbuilt, hoptions, hout, hok, hs, hd, he⟩

/-- With the 1-norm for normalization, a matrix is built and not
equilibrated. -/
theorem run_build_refused (hcheck : input.check = .ok (.ok ()))
    (hmem : FitsMemory input.rows input.cols input.values.size)
    (hM : M.input? = some input) (hone : M.options.normalizeNorm = .one)
    (w : World) (d e : Array α) :
    ∃ s, run ⟨M, w⟩ [.build, .equilibrate d e]
      = .ok ([.done, .refused (.unsupportedNorm .one)], s) := by
  obtain ⟨built, hbuild, hdone, hbuilt, hoptions⟩ :
      ∃ built, M.build w = .ok built
        ∧ built.result = .ok () ∧ built.matrix.isBuilt = true
        ∧ built.matrix.options = M.options :=
    ⟨_, (SolverMatrix.build_eq_ok_iff hM hcheck).mpr
      ⟨hmem.hasRoom (A := input.matrix), rfl⟩, rfl, rfl, rfl⟩
  have hfirst := perform_build_of_ok (s := ⟨M, w⟩) hbuild hdone
  have hsecond : perform ⟨built.matrix, built.world⟩ (.equilibrate d e)
      = .ok
        (.refused (.unsupportedNorm .one), ⟨built.matrix, built.world⟩) := by
    rw [perform,
      SolverMatrix.equilibrate_of_one hbuilt (by rw [hoptions, hone])]
    rfl
  refine ⟨⟨built.matrix, built.world⟩, ?_⟩
  rw [run, hfirst, ok_bind]
  dsimp only
  rw [run, hsecond]
  rfl

theorem Built.actsBuilt (hcomm : ∀ a b : α, a * b = b * a)
    (hM : Built input M) :
    M.ActsBuilt := by
  have hbuilt := hM.isBuilt
  obtain ⟨f, hM⟩ := hM
  obtain ⟨hvalues, hstarts, hindices⟩ := hM.shows
  refine ⟨SolverMatrix.build_of_isBuilt hbuilt, ?_, ?_,
    ⟨⟨_, hM.pair⟩, ⟨_, hvalues⟩, ⟨_, hstarts⟩, ⟨_, hindices⟩⟩, ?_⟩
  · intro shape a x b y r hr
    exact hM.multiply_answers hr
  · intro d e w out hout
    rcases hM.of_equilibrate hcomm hout with ⟨hnorm, -⟩ |
      ⟨_, _, _, _, _, _, -, -, -, -, -, -, hresult, -, -, -⟩
    · rw [SolverMatrix.equilibrate_of_one hbuilt hnorm] at hout
      cases hout
      exact nofun
    · rw [hresult]
      exact nofun
  · rw [SolverMatrix.unbuiltCopy?, SolverMatrix.input?_eq_none hbuilt]
    rfl

/-- With room for the pointers, a built matrix that is not to be normalized
by the 1-norm is equilibrated whenever it is asked for. -/
theorem Lives.equilibrate_ok (hcomm : ∀ a b : α, a * b = b * a)
    {input : MatrixInput α} (hstarts : input.starts.size < capacity)
    {M : SolverMatrix α} (hM : Lives input M) (hbuilt : M.isBuilt = true)
    (hnorm : M.options.normalizeNorm ≠ .one) {d e : Array α}
    (hd : d.size = M.rows) (he : e.size = M.cols) (w : World) :
    ∃ out summary, M.equilibrate d e w = .ok out
      ∧ out.result = .ok summary := by
  obtain ⟨hcheck, f, hholds⟩ := hM.built hbuilt
  have hstarts' : (input.matrix.mapEntries f).starts.size < capacity := by
    rwa [SlicedMatrix.starts_mapEntries
      (MatrixInput.check_eq_ok_iff.mp hcheck).2]
  obtain ⟨hrows, hcols⟩ := hholds.dims_lt hstarts'
  obtain ⟨out, hout⟩ := hholds.equilibrate_total hcomm hd he hrows hcols w
  obtain ⟨summary, hok⟩ := hholds.summary_of_equilibrate hcomm hnorm hout
  exact ⟨out, summary, hout, hok⟩

/-- **The life of a solver matrix.** Take any input, well formed or not,
whose number of pointers is a machine word and whose second form can be
allocated if it comes to that. At any time the matrix shows what was stated
of its input; it is built exactly if one of the requests was a build that was
answered well; and it acts as an unbuilt matrix or as a built one. -/
theorem lifecycle [hmul : Std.Commutative fun a b : α => a * b]
    (input : MatrixInput α)
    (hword : input.order.primary input.rows input.cols + 1 < UInt64.size)
    (hroom : input.check = .ok (.ok ()) → input.matrix.HasRoom)
    (M : SolverMatrix α) (hM : M.input? = some input) (w : World)
    (requests : List (Request α)) (replies : List (Reply α)) (s : Session α)
    (hrun : serveAll ⟨M, w⟩ requests = .ok (replies, s)) :
    (s.matrix.order = input.order ∧ s.matrix.rows = input.rows
      ∧ s.matrix.cols = input.cols ∧ s.matrix.entryCount = input.entryCount)
      ∧ (s.matrix.isBuilt = true
        ↔ (.call .build, .answer .done) ∈ requests.zip replies)
      ∧ (s.matrix.isBuilt = false → s.matrix.ActsUnbuilt input)
      ∧ (s.matrix.isBuilt = true → s.matrix.ActsBuilt) := by
  have hcomm : ∀ a b : α, a * b = b * a := hmul.comm
  obtain ⟨hlives, hbuilt⟩ :=
    (Lives.of_input hM).serveAll hcomm (s := ⟨M, w⟩) hrun
  have hM' : ¬ M.isBuilt = true := by
    rw [SolverMatrix.isBuilt_of_input hM]
    exact Bool.false_ne_true
  rw [or_iff_right hM'] at hbuilt
  obtain ⟨horder, hrest⟩ := Prod.mk.inj hlives.stated
  obtain ⟨hrows, hrest⟩ := Prod.mk.inj hrest
  obtain ⟨hcols, hcount⟩ := Prod.mk.inj hrest
  exact ⟨⟨horder, hrows, hcols, hcount⟩, hbuilt,
    fun h => Lives.actsUnbuilt hword hroom (hlives.unbuilt h),
    fun h => (hlives.built h).2.actsBuilt hcomm⟩

/-- Unsorted and repeated indices, and an equilibration of vectors that do
not fit before the build. -/
theorem lifecycle_repeated :
    let input : MatrixInput Float :=
      ⟨.col, 3, 2, 4, #[0, 3, 4], #[2, 0, 2, 1], #[1, -2, 0 / 0, 3]⟩
    let M := SolverMatrix.ofInput input .standard
    let requests : List (Request Float) :=
      [.call (.equilibrate #[] #[1]), .call .build]
    input.check = .ok (.ok ()) ∧ ∃ replies s,
      serveAll ⟨M, { readings := fun n => n }⟩ requests = .ok (replies, s)
      ∧ s.matrix.isBuilt = true ∧ s.matrix.ActsBuilt ∧ s.matrix.cols = 2 := by
  intro input M requests
  have hcheck : input.check = .ok (.ok ()) := by decide +kernel
  have hroom : input.matrix.HasRoom := ⟨by decide, by decide⟩
  have hequilibrate :
      serve ⟨M, { readings := fun n => n }⟩ (.call (.equilibrate #[] #[1]))
        = .ok (.answer (.refused .notBuilt), ⟨M, { readings := fun n => n }⟩) :=
    rfl
  obtain ⟨s, hbuild, -⟩ :=
    serve_build (M := M) hcheck hroom rfl { readings := fun n => n }
  have hrun : serveAll ⟨M, { readings := fun n => n }⟩ requests
      = .ok ([.answer (.refused .notBuilt), .answer .done], s) :=
    bind_eq_ok_iff.mpr ⟨_, hequilibrate, bind_eq_ok_iff.mpr ⟨_,
      bind_eq_ok_iff.mpr ⟨_, hbuild, rfl⟩, rfl⟩⟩
  obtain ⟨⟨-, -, hcols, -⟩, hbuilt, -, hacts⟩ :=
    lifecycle input (by decide) (fun _ => hroom) M rfl _ requests _ s hrun
  have h : s.matrix.isBuilt = true := hbuilt.mpr (by simp [requests])
  exact ⟨hcheck, _, s, hrun, h, hacts h, hcols⟩

/-- **Equilibration is all or nothing.** In every session that is reached
from an unbuilt matrix of any input, with any options put in, an
equilibration is refused exactly if the matrix is not built or is to be
normalized by the 1-norm. It is then refused whatever the lengths of the
vectors, and matrix, vectors, stopwatches and printed text stay as they are.
In every other case vectors of the right lengths are given their factors.

That the pointers of the input are in memory bounds one dimension; the other
is bounded as soon as the matrix is built. -/
theorem equilibration_all_or_nothing
    [hmul : Std.Commutative fun a b : α => a * b] (input : MatrixInput α)
    (hstarts : input.starts.size < capacity) (M₀ : SolverMatrix α)
    (hM₀ : M₀.input? = some input) (w : World) (requests : List (Request α))
    (replies : List (Reply α)) (s : Session α)
    (hrun : serveAll ⟨M₀, w⟩ requests = .ok (replies, s)) (options : Options α)
    (d e : Array α) (w' : World) :
    let M : SolverMatrix α := { s.matrix with options }
    (M.isBuilt = false →
      M.equilibrate d e w'
        = .ok { result := .error .notBuilt, matrix := M, d, e, world := w' })
    ∧ (M.isBuilt = true → options.normalizeNorm = .one →
      M.equilibrate d e w'
        = .ok { result := .error (.unsupportedNorm .one), matrix := M, d, e,
                world := w' })
    ∧ (M.isBuilt = true → options.normalizeNorm ≠ .one →
      d.size = M.rows → e.size = M.cols →
      ∃ out summary, M.equilibrate d e w' = .ok out ∧ out.result = .ok summary)
    ∧ ∀ out r, M.equilibrate d e w' = .ok out → out.result = .error r →
      (r = .notBuilt ∧ M.isBuilt = false
        ∨ r = .unsupportedNorm .one ∧ M.isBuilt = true
          ∧ options.normalizeNorm = .one)
      ∧ out = { result := .error r, matrix := M, d, e, world := w' } := by
  intro M
  have hcomm : ∀ a b : α, a * b = b * a := hmul.comm
  have hlives : Lives input M :=
    ((Lives.of_input hM₀).serveAll hcomm (s := ⟨M₀, w⟩) hrun).1.of_rest
      options _ _
  have hunbuilt : M.isBuilt = false → M.equilibrate d e w'
      = .ok { result := .error .notBuilt, matrix := M, d, e, world := w' } :=
    fun h => equilibrate_of_input (hlives.unbuilt h) d e w'
  have hone : M.isBuilt = true → options.normalizeNorm = .one →
      M.equilibrate d e w'
        = .ok { result := .error (.unsupportedNorm .one), matrix := M, d, e,
                world := w' } :=
    fun h hnorm => SolverMatrix.equilibrate_of_one h hnorm d e w'
  refine ⟨hunbuilt, hone, ?_, ?_⟩
  · intro hbuilt hnorm hd he
    obtain ⟨hcheck, f, hholds⟩ := hlives.built hbuilt
    have hstarts' : (input.matrix.mapEntries f).starts.size < capacity := by
      rwa [SlicedMatrix.starts_mapEntries
        (MatrixInput.check_eq_ok_iff.mp hcheck).2]
    obtain ⟨hrows, hcols⟩ := hholds.dims_lt hstarts'
    obtain ⟨out, hout⟩ := hholds.equilibrate_total hcomm hd he hrows hcols w'
    obtain ⟨summary, hok⟩ := hholds.summary_of_equilibrate hcomm hnorm hout
    exact ⟨out, summary, hout, hok⟩
  · intro out r hout hr
    cases hbuilt : M.isBuilt with
    | false =>
      rw [hunbuilt hbuilt] at hout
      cases hout
      cases hr
      exact ⟨.inl ⟨rfl, rfl⟩, rfl⟩
    | true =>
      by_cases hnorm : options.normalizeNorm = .one
      · rw [hone hbuilt hnorm] at hout
        cases hout
        cases hr
        exact ⟨.inr ⟨rfl, rfl, hnorm⟩, rfl⟩
      · obtain ⟨-, f, hholds⟩ := hlives.built hbuilt
        obtain ⟨summary, hok⟩ := hholds.summary_of_equilibrate hcomm hnorm hout
        rw [hok] at hr
        cases hr

/-- A built matrix with sound options, and the 1-norm put in later. -/
theorem equilibration_all_or_nothing_one_norm :
    let input : MatrixInput Float :=
      ⟨.row, 2, 2, 2, #[0, 1, 2], #[1, 0], #[3, -0.5]⟩
    let M := SolverMatrix.ofInput input .standard
    let one : Options Float :=
      { (.standard : Options Float) with normalizeNorm := .one }
    ∃ s, serveAll ⟨M, { readings := fun n => n }⟩ [.call .build]
      = .ok ([.answer .done], s)
      ∧ (∃ out summary, s.matrix.equilibrate #[0, 0] #[0, 0] s.world = .ok out
        ∧ out.result = .ok summary)
      ∧ { s.matrix with options := one }.equilibrate #[7] #[] s.world
        = .ok { result := .error (.unsupportedNorm .one),
                matrix := { s.matrix with options := one }
                d := #[7], e := #[], world := s.world } := by
  intro input M one
  have hcheck : input.check = .ok (.ok ()) := by decide +kernel
  have hroom : input.matrix.HasRoom := ⟨by decide, by decide⟩
  obtain ⟨s, hbuild, hbuilt, hstated, hoptions⟩ :=
    serve_build (M := M) hcheck hroom rfl { readings := fun n => n }
  have hrun : serveAll ⟨M, { readings := fun n => n }⟩ [.call .build]
      = .ok ([.answer .done], s) := bind_eq_ok_iff.mpr ⟨_, hbuild, rfl⟩
  have hnothing :=
    equilibration_all_or_nothing input (by decide) M rfl _ _ _ s hrun
  have hnorm : s.matrix.options.normalizeNorm ≠ .one := by
    rw [hoptions]
    exact nofun
  obtain ⟨-, -, hdone, -⟩ := hnothing s.matrix.options #[0, 0] #[0, 0] s.world
  obtain ⟨-, hone, -, -⟩ := hnothing one #[7] #[] s.world
  refine ⟨s, hrun, hdone hbuilt hnorm ?_ ?_, hone hbuilt rfl⟩
  · exact (congrArg (fun p => p.2.1) hstated).symm
  · exact (congrArg (fun p => p.2.2.1) hstated).symm

end Session

end Equilibration
