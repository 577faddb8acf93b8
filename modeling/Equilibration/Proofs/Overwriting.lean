import Equilibration.Proofs.Lifecycle
import Equilibration.Proofs.Progress

/-!
# Overwriting — vectors that are written and never read

A product with `b = 0` overwrites its vector, balancing starts from factors
that are one, and so does an equilibration: what the vectors of the caller
held before reaches no result. The two kernels see to it in two ways. The
gathering kernel leaves the old element out (`combine_of_zero`); the
scattering kernel fills the vector first (`prescale_of_zero`).

A session cannot tell two requests apart that differ only in the contents
of such vectors (`Session.outputs_never_leak`).
-/

namespace Equilibration

open Checked

variable {α : Type}

theorem Vec.fill_congr {x x' : Array α} (h : x.size = x'.size) (c : α) :
    fill x c = fill x' c := by
  apply Array.ext
  · simp [h]
  · intro i hi hi'
    simp [fill]

namespace SlicedMatrix

variable [Scalar α]

/-- A gathering product with `b = 0` has no use for the old element. -/
theorem combine_of_zero {b : α} (hb : (b == 0) = true) (a yk dot : α) :
    combine a b yk dot = a * dot := if_pos hb

/-- A scattering product with `b = 0` starts from zeros. -/
theorem prescale_of_zero {b : α} (hb : (b == 0) = true) (y : Array α) :
    prescale b y = Vec.fill y 0 := if_pos hb

section Products

variable {A : SlicedMatrix α} {b : α} (hb : (b == 0) = true) (a : α)
  {x y y' : Array α}

include hb

theorem gather_overwrites (h : A.check = .ok (.ok ()))
    (hx : x.size = A.indexBound) (hy : y.size = A.sliceCount)
    (hy' : y'.size = A.sliceCount) :
    A.gather y x a b = A.gather y' x a b := by
  rw [gather_eq_ok h a b hx hy, gather_eq_ok h a b hx hy']
  congr 1
  apply Array.ext
  · simp [hy, hy']
  · intro k hk hk'
    simp only [Array.getElem_mapIdx, combine_of_zero hb]

theorem scatter_overwrites (hsize : y.size = y'.size) :
    A.scatter y x a b = A.scatter y' x a b := by
  unfold scatter
  rw [prescale_of_zero hb, prescale_of_zero hb, Vec.fill_congr hsize]

/-- Both kernels overwrite the vector of a product with `b = 0`. -/
theorem multiply_overwrites (h : A.check = .ok (.ok ())) (shape : Shape)
    (hx : x.size = shape.domain A.rows A.cols)
    (hy : y.size = shape.codomain A.rows A.cols)
    (hy' : y'.size = shape.codomain A.rows A.cols) :
    A.multiply shape y x a b = A.multiply shape y' x a b := by
  have hscatter : A.scatter y x a b = A.scatter y' x a b :=
    scatter_overwrites hb a (hy.trans hy'.symm)
  have hgather :
      x.size = A.indexBound → y.size = A.sliceCount → y'.size = A.sliceCount →
      A.gather y x a b = A.gather y' x a b := gather_overwrites hb a h
  unfold indexBound sliceCount at hgather
  rw [multiply.eq_def, multiply.eq_def]
  cases horder : A.order <;> cases shape <;> rw [horder] at hgather
  · exact hgather hx hy hy'
  · exact hscatter
  · exact hscatter
  · exact hgather hx hy hy'

theorem product_overwrites (shape : Shape) (hsize : y.size = y'.size) :
    A.product shape a b x y = A.product shape a b x y' := by
  apply Array.ext
  · simp [hsize]
  · intro k hk hk'
    simp only [product, Array.getElem_mapIdx, combine_of_zero hb]

end Products

end SlicedMatrix

/-- Balancing starts from ones. On no operator whatever, in no state of it,
does it matter what the two vectors held. -/
theorem Balancing.run_overwrites [Scalar α] {σ : Type} (A : Operator σ α)
    {d d' e e' : Array α} (hd : d.size = d'.size) (he : e.size = e'.size)
    (budget : Nat) (tol : α) :
    run A d e budget tol = run A d' e' budget tol := by
  have hstart : ∀ sums : Array α, start d e sums = start d' e' sums := by
    intro sums
    rw [start, start, Vec.fill_congr hd, Vec.fill_congr he]
  unfold run
  simp only [hd, he, hstart]

namespace SolverMatrix

variable [Scalar α] {M : SolverMatrix α}

/-- Vectors that do not fit are no exception: both end the product. -/
theorem Holds.multiply_overwrites {A : SlicedMatrix α} (hM : M.Holds A)
    (shape : Shape) (a : α) (x : Array α) {b : α} (hb : (b == 0) = true)
    {y y' : Array α} (hsize : y.size = y'.size) :
    M.multiply shape a x b y = M.multiply shape a x b y' := by
  have hproduct :
      ∀ z : Array α, z.size = y'.size → x.size = shape.domain A.rows A.cols →
      y'.size = shape.codomain A.rows A.cols →
      (PairedMatrix.ofForm A).multiply shape z x a b
        = .ok (A.product shape a b x y') := by
    intro z hz hx hy
    rw [PairedMatrix.multiply_eq_ok hM.check hM.room shape a b hx (hz.trans hy),
      SlicedMatrix.product_overwrites hb a shape hz]
  unfold multiply
  rw [hM.pair]
  simp only [hsize]
  rw [hM.rows_eq, hM.cols_eq]
  cases shape
  · refine require_bind_congr fun hx => require_bind_congr fun hy => ?_
    rw [hproduct y hsize hx hy, hproduct y' rfl hx hy]
  · refine require_bind_congr fun hx => require_bind_congr fun hy => ?_
    rw [hproduct y hsize hx hy, hproduct y' rfl hx hy]

/-- A summary comes only of a built matrix with a norm to normalize by. -/
theorem accepts_of_equilibrate_ok [Displayed α] {d e : Array α} {w : World}
    {out : Equilibrated α} (h : M.equilibrate d e w = .ok out)
    {summary : EquilibrationSummary α} (hok : out.result = .ok summary) :
    M.isBuilt = true ∧ M.options.normalizeNorm ≠ .one := by
  by_cases hbuilt : M.isBuilt = true
  · refine ⟨hbuilt, ?_⟩
    intro hnorm
    rw [equilibrate_of_one hbuilt hnorm] at h
    cases h
    cases hok
  · rw [equilibrate, if_pos hbuilt] at h
    cases h
    cases hok

theorem rescale_overwrites {P : PairedMatrix α} (hP : M.pair = .ok P)
    (t : Magnitude) {d d' e e' : Array α} (hd : d.size = d'.size)
    (he : e.size = e'.size) :
    M.rescale t d e = M.rescale t d' e' := by
  unfold rescale
  rw [hP]
  simp only [Balancing.run_overwrites _ hd he]

theorem equilibrate_overwrites [Displayed α] (hbuilt : M.isBuilt = true)
    (hnorm : M.options.normalizeNorm ≠ .one) {d d' e e' : Array α}
    (hd : d.size = d'.size) (he : e.size = e'.size) (w : World) :
    M.equilibrate d e w = M.equilibrate d' e' w := by
  obtain ⟨P, hP⟩ : ∃ P, M.pair = .ok P := by
    unfold isBuilt at hbuilt
    unfold pair
    split at hbuilt
    · cases hbuilt
    · exact ⟨_, rfl⟩
  unfold equilibrate
  rw [if_neg (not_not.mpr hbuilt), if_neg (not_not.mpr hbuilt), if_neg hnorm,
    if_neg hnorm, hd, he, rescale_overwrites hP _ hd he]

end SolverMatrix

/-- The two requests differ at most in the contents of vectors that are
overwritten. -/
inductive Request.SameButOutputs [Scalar α] : Request α → Request α → Prop
  | same (r : Request α) : SameButOutputs r r
  | multiply (shape : Shape) (a : α) (x : Array α) {b : α}
      (hb : (b == 0) = true) {y y' : Array α} (h : y.size = y'.size) :
      SameButOutputs (.call (.multiply shape a x b y))
        (.call (.multiply shape a x b y'))
  | equilibrate {d d' e e' : Array α} (hd : d.size = d'.size)
      (he : e.size = e'.size) :
      SameButOutputs (.call (.equilibrate d e)) (.call (.equilibrate d' e'))
  | balance {d d' e e' : Array α} (hd : d.size = d'.size)
      (he : e.size = e'.size) (budget : UInt32) (tolerance : α) :
      SameButOutputs (.balance d e budget tolerance)
        (.balance d' e' budget tolerance)

namespace Session

variable [Scalar α] [Displayed α] {input : MatrixInput α}

omit [Displayed α] in
theorem Lives.multiply_overwrites {M : SolverMatrix α} (hM : Lives input M)
    (shape : Shape) (a : α) (x : Array α) {b : α} (hb : (b == 0) = true)
    {y y' : Array α} (hsize : y.size = y'.size) :
    M.multiply shape a x b y = M.multiply shape a x b y' := by
  rcases hM.state with hinput | ⟨-, f, hholds⟩
  · rw [SolverMatrix.multiply_of_input hinput,
      SolverMatrix.multiply_of_input hinput]
  · exact hholds.multiply_overwrites shape a x hb hsize

/-- A refused equilibration says no more than why it is refused. -/
theorem perform_equilibrate_overwrites (s : Session α) {d d' e e' : Array α}
    (hd : d.size = d'.size) (he : e.size = e'.size) :
    s.perform (.equilibrate d e) = s.perform (.equilibrate d' e') := by
  rw [perform, perform]
  by_cases hbuilt : s.matrix.isBuilt = true
  · by_cases hnorm : s.matrix.options.normalizeNorm = .one
    · rw [SolverMatrix.equilibrate_of_one hbuilt hnorm,
        SolverMatrix.equilibrate_of_one hbuilt hnorm]
      rfl
    · rw [SolverMatrix.equilibrate_overwrites hbuilt hnorm hd he]
  · rw [SolverMatrix.equilibrate, SolverMatrix.equilibrate, if_pos hbuilt,
      if_pos hbuilt]
    rfl

theorem Lives.serve_overwrites {s : Session α} (hs : Lives input s.matrix)
    {r r' : Request α} (h : r.SameButOutputs r') : s.serve r = s.serve r' := by
  cases h with
  | same => rfl
  | multiply shape a x hb hsize =>
    rw [Session.serve, Session.serve, Session.perform, Session.perform,
       hs.multiply_overwrites shape a x hb hsize]
  | equilibrate hd he =>
    rw [Session.serve, Session.serve, s.perform_equilibrate_overwrites hd he]
  | balance hd he budget tolerance =>
    rw [Session.serve, Session.serve, Balancing.run_overwrites _ hd he]

theorem Lives.serveAll_overwrites (hcomm : ∀ a b : α, a * b = b * a)
    {s : Session α}
    (hs : Lives input s.matrix) {requests requests' : List (Request α)}
    (h : List.Forall₂ Request.SameButOutputs requests requests') :
    s.serveAll requests = s.serveAll requests' := by
  induction h generalizing s with
  | nil => rfl
  | cons hr hrs ih =>
    rw [Session.serveAll, Session.serveAll, hs.serve_overwrites hr]
    refine bind_congr_ok ?_
    rintro ⟨reply, t⟩ ht
    dsimp only
    rw [ih (hs.serve hcomm ht)]

/-- Neither the factors that an equilibration starts from nor the clocks
show in what it leaves behind. -/
theorem equilibrate_overwrites_timeless {M : SolverMatrix α}
    {d d' e e' : Array α} (hd : d.size = d'.size) (he : e.size = e'.size)
    {w : World} {out : Equilibrated α} (h : M.equilibrate d e w = .ok out)
    {summary : EquilibrationSummary α} (hok : out.result = .ok summary)
    (w' : World) :
    ∃ out', M.equilibrate d' e' w' = .ok out'
      ∧ out'.timeless = out.timeless := by
  obtain ⟨hbuilt, hnorm⟩ := SolverMatrix.accepts_of_equilibrate_ok h hok
  have hmuted : (M.equilibrate d e w).map Equilibrated.timeless
      = (M.equilibrate d' e' w').map Equilibrated.timeless := by
    rw [SolverMatrix.equilibrate_overwrites hbuilt hnorm hd he w,
      ← M.equilibrate_muted d' e' w w, M.equilibrate_muted d' e' w' w]
  rw [h] at hmuted
  cases hout' : M.equilibrate d' e' w' with
  | error v =>
    rw [hout'] at hmuted
    cases hmuted
  | ok out' =>
    rw [hout'] at hmuted
    exact ⟨out', rfl, (Except.ok.inj hmuted).symm⟩

/-- **What output vectors held never leaks.** A product with `b = 0`, of
either sign, with a well-formed matrix in either storage order or with the
matrix of a session, is the same for any two contents of its vector; values
and vectors may hold what is no number. A balancing run is the same for any
two contents of `d` and `e`, on every operator and in every state of it. An
equilibration with a summary is followed by the same results, factors and
stored values for any two contents of `d` and `e`, durations apart.

So no session, whatever is asked of it, tells requests apart that differ in
the contents of such vectors. -/
theorem outputs_never_leak [hmul : Std.Commutative fun a b : α => a * b] :
    (∀ A : SlicedMatrix α, A.check = .ok (.ok ()) →
      ∀ (shape : Shape) (a b : α) (x y y' : Array α),
      (b == 0) = true → x.size = shape.domain A.rows A.cols →
      y.size = shape.codomain A.rows A.cols →
      y'.size = shape.codomain A.rows A.cols →
      ∃ result, A.multiply shape y x a b = .ok result
        ∧ A.multiply shape y' x a b = .ok result)
    ∧ (∀ {σ : Type} (A : Operator σ α) (d d' e e' : Array α),
      d.size = d'.size → e.size = e'.size →
      ∀ (budget : Nat) (tolerance : α),
      Balancing.run A d e budget tolerance
        = Balancing.run A d' e' budget tolerance)
    ∧ (∀ (M : SolverMatrix α) (d d' e e' : Array α),
      d.size = d'.size → e.size = e'.size →
      ∀ (w w' : World) (out : Equilibrated α)
        (summary : EquilibrationSummary α),
      M.equilibrate d e w = .ok out → out.result = .ok summary →
      ∃ out', M.equilibrate d' e' w' = .ok out' ∧ out'.timeless = out.timeless)
    ∧ ∀ input : MatrixInput α, ∀ M₀ : SolverMatrix α, M₀.input? = some input →
      ∀ (w : World) (requests requests' : List (Request α)),
      List.Forall₂ Request.SameButOutputs requests requests' →
      serveAll ⟨M₀, w⟩ requests = serveAll ⟨M₀, w⟩ requests'
        ∧ ∀ replies s, serveAll ⟨M₀, w⟩ requests = .ok (replies, s) →
          ∀ (shape : Shape) (a b : α) (x y y' : Array α),
          (b == 0) = true → y.size = y'.size →
          s.matrix.multiply shape a x b y
            = s.matrix.multiply shape a x b y' := by
  have hcomm : ∀ a b : α, a * b = b * a := hmul.comm
  refine ⟨?_, ?_, ?_, ?_⟩
  · intro A h shape a b x y y' hb hx hy hy'
    obtain ⟨result, hresult⟩ := SlicedMatrix.multiply_total h shape a b hx hy
    exact ⟨result, hresult,
      (SlicedMatrix.multiply_overwrites hb a h shape hx hy hy') ▸ hresult⟩
  · intro σ A d d' e e' hd he budget tolerance
    exact Balancing.run_overwrites A hd he budget tolerance
  · intro M d d' e e' hd he w w' out summary h hok
    exact equilibrate_overwrites_timeless hd he h hok w'
  · intro input M₀ hM₀ w requests requests' hsame
    refine ⟨(Lives.of_input hM₀).serveAll_overwrites hcomm (s := ⟨M₀, w⟩) hsame,
      ?_⟩
    intro replies s hrun shape a b x y y' hb hsize
    have hlives := ((Lives.of_input hM₀).serveAll hcomm (s := ⟨M₀, w⟩) hrun).1
    exact hlives.multiply_overwrites shape a x hb hsize

/-- Columns with a value that is no number, scattered onto vectors that are
no better, with minus zero for `b`; and an equilibration of a built matrix,
into vectors with infinities and under another clock. -/
theorem outputs_never_leak_nan :
    let input : MatrixInput Float :=
      ⟨.col, 2, 2, 3, #[0, 2, 3], #[1, 0, 1], #[3, 0 / 0, -0.5]⟩
    (∃ result, input.matrix.multiply .normal #[0 / 0, 1 / 0] #[1, 2] 1 (-0)
        = .ok result
      ∧ input.matrix.multiply .normal #[7, 7] #[1, 2] 1 (-0) = .ok result)
    ∧ ∃ s out out',
      serve ⟨.ofInputStandard input, { readings := fun n => n }⟩ (.call .build)
        = .ok (.answer .done, s)
      ∧ s.matrix.equilibrate #[0, 0] #[0, 0] s.world = .ok out
      ∧ s.matrix.equilibrate #[1 / 0, 0 / 0] #[-0, 1]
        { readings := fun n => n * n } = .ok out'
      ∧ out'.timeless = out.timeless := by
  intro input
  obtain ⟨hproducts, -, hequilibrate, -⟩ := outputs_never_leak (α := Float)
  have hcomm : ∀ a b : Float, a * b = b * a :=
    (inferInstance : Std.Commutative fun a b : Float => a * b).comm
  have hcheck : input.check = .ok (.ok ()) := by decide +kernel
  refine ⟨hproducts input.matrix
    (MatrixInput.check_eq_ok_iff.mp hcheck).2 .normal 1 (-0) #[1, 2]
    #[0 / 0, 1 / 0] #[7, 7] (by decide +kernel) rfl rfl rfl, ?_⟩
  have hinput : (SolverMatrix.ofInputStandard input).input? = some input := rfl
  obtain ⟨s, hbuild, hbuilt, hstated, hoptions⟩ :=
    serve_build hcheck ⟨by decide, by decide⟩ hinput { readings := fun n => n }
  have hlives : Lives input s.matrix :=
    (Lives.of_input hinput).serve hcomm hbuild
  have hnorm : s.matrix.options.normalizeNorm ≠ .one := by
    rw [hoptions]
    exact nofun
  have hrows : s.matrix.rows = 2 := congrArg (fun p => p.2.1) hstated
  have hcols : s.matrix.cols = 2 := congrArg (fun p => p.2.2.1) hstated
  obtain ⟨out, summary, hout, hok⟩ :
      ∃ out summary, s.matrix.equilibrate #[0, 0] #[0, 0] s.world = .ok out
        ∧ out.result = .ok summary :=
    hlives.equilibrate_ok hcomm (by decide) hbuilt hnorm (d := #[0, 0])
      (e := #[0, 0]) hrows.symm hcols.symm s.world
  obtain ⟨out', hout', htimeless⟩ :=
    hequilibrate s.matrix #[0, 0] #[1 / 0, 0 / 0] #[0, 0] #[-0, 1]
      rfl rfl s.world { readings := fun n => n * n } out summary hout hok
  exact ⟨s, out, out', hbuild, hout, hout', htimeless⟩

end Session

end Equilibration
