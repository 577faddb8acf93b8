import Equilibration.Proofs.Rescaling

/-!
# Sessions — sequences of calls on one matrix

A session is a solver matrix with the world around it. A call gives an
answer and the session afterwards; refusals are answers, and a violated
precondition ends the run. `Session.perform_cases` says once what a call
can do to the matrix, and every invariant is proved from it.

Main result: whatever the calls, a matrix that is built from well-formed
input keeps both storage forms consistent (`Session.forms_stay_paired`).
-/

namespace Equilibration

open Checked

/-- A solver matrix and the world around it. -/
structure Session (α : Type) where
  matrix : SolverMatrix α
  world : World

/-- What can be asked of a solver matrix. -/
inductive Call (α : Type) where
  | build
  | multiply (shape : Shape) (a : α) (x : Array α) (b : α) (y : Array α)
  | estimateNorm (norm : NormPolicy) (options : Options α)
  | equilibrate (d e : Array α)
  | setOptions (options : Options α)
  | printTo (outlet : Outlet)

/-- What comes back. -/
inductive Answer (α : Type) where
  | done
  | refused (reason : Refusal)
  | unsound (reason : OptionsError)
  | vector (y : Array α)
  | estimate (norm : α)
  | equilibrated (summary : EquilibrationSummary α) (d e : Array α)

variable {α : Type}

/-- The row factors and the column factors that come back. -/
def Answer.factors : Answer α → Option (Array α × Array α)
  | .equilibrated _ d e => some (d, e)
  | _ => none

/-- The vectors of a call have the lengths that a matrix asks for. -/
def Call.Fits (rows cols : Nat) : Call α → Prop
  | .multiply shape _ x _ y =>
    x.size = shape.domain rows cols ∧ y.size = shape.codomain rows cols
  | .equilibrate d e => d.size = rows ∧ e.size = cols
  | _ => True

namespace Session

variable [Scalar α] [Displayed α]

/-- One call. -/
def perform (s : Session α) : Call α → Checked (Answer α × Session α)
  | .build => do
    let out ← s.matrix.build s.world
    let answer := match out.result with
      | .ok () => .done
      | .error r => .refused r
    pure (answer, ⟨out.matrix, out.world⟩)
  | .multiply shape a x b y => do
    match ← s.matrix.multiply shape a x b y with
    | .ok y => pure (.vector y, s)
    | .error r => pure (.refused r, s)
  | .estimateNorm norm options => do
    match ← s.matrix.normEstimate norm options with
    | .ok v => pure (.estimate v, s)
    | .error r => pure (.refused r, s)
  | .equilibrate d e => do
    let out ← s.matrix.equilibrate d e s.world
    let answer := match out.result with
      | .ok summary => .equilibrated summary out.d out.e
      | .error r => .refused r
    pure (answer, ⟨out.matrix, out.world⟩)
  | .setOptions options =>
    match s.matrix.withOptions options with
    | .ok M => pure (.done, { s with matrix := M })
    | .error e => pure (.unsound e, s)
  | .printTo outlet =>
    pure (.done, { s with matrix := s.matrix.printTo outlet })

/-- One call after the other. -/
def run (s : Session α) : List (Call α) → Checked (List (Answer α) × Session α)
  | [] => pure ([], s)
  | c :: cs => do
    let (a, s) ← s.perform c
    let (as, s) ← s.run cs
    pure (a :: as, s)

/-- **The rule of a run.** What one more call and its answer keep is kept
by all the calls of a run. -/
theorem run_rule {P : List (Call α) → List (Answer α) → Session α → Prop}
    (hstep : ∀ {cs as s c a s'}, P cs as s → s.perform c = .ok (a, s') →
      P (cs ++ [c]) (as ++ [a]) s')
    (cs : List (Call α)) (as : List (Answer α)) {calls : List (Call α)}
    {answers : List (Answer α)} {s s' : Session α} (hs : P cs as s)
    (h : s.run calls = .ok (answers, s')) :
    P (cs ++ calls) (as ++ answers) s' := by
  induction calls generalizing cs as s answers with
  | nil =>
    cases h
    rwa [List.append_nil, List.append_nil]
  | cons c calls ih =>
    obtain ⟨⟨a, t⟩, ht, h⟩ := bind_eq_ok_iff.mp h
    obtain ⟨⟨answers, t'⟩, ht', h⟩ := bind_eq_ok_iff.mp h
    cases h
    have := ih (cs ++ [c]) (as ++ [a]) (hstep hs ht) ht'
    rwa [List.append_assoc, List.append_assoc, List.singleton_append,
      List.singleton_append] at this

/-! ## What a call can do -/

theorem perform_setOptions (s : Session α) (options : Options α) :
    (∃ e, s.perform (.setOptions options) = .ok (.unsound e, s))
      ∨ s.perform (.setOptions options)
        = .ok (.done, { s with matrix := { s.matrix with options } }) := by
  cases hcheck : options.check with
  | error e =>
    left
    refine ⟨e, ?_⟩
    rw [perform, SolverMatrix.withOptions, hcheck]
    rfl
  | ok u =>
    right
    rw [perform, SolverMatrix.withOptions, hcheck]
    rfl

/-- Only a build and an equilibration touch the storage. -/
theorem perform_cases {s s' : Session α} {c : Call α} {a : Answer α}
    (h : s.perform c = .ok (a, s')) :
    (c ≠ .build ∧ a.factors = none
        ∧ ∃ options outlet, s'.matrix = { s.matrix with options, outlet })
    ∨ (c = .build ∧ a.factors = none
        ∧ ∃ out, s.matrix.build s.world = .ok out ∧ s'.matrix = out.matrix)
    ∨ ∃ d e out, c = .equilibrate d e
        ∧ s.matrix.equilibrate d e s.world = .ok out
        ∧ s'.matrix = out.matrix
        ∧ a = match out.result with
          | .ok summary => .equilibrated summary out.d out.e
          | .error r => .refused r := by
  cases c with
  | build =>
    right; left
    obtain ⟨out, hout, h⟩ := bind_eq_ok_iff.mp h
    cases h
    refine ⟨rfl, ?_, out, hout, rfl⟩
    cases out.result <;> rfl
  | multiply shape a x b y =>
    left
    obtain ⟨r, -, h⟩ := bind_eq_ok_iff.mp h
    cases r <;> cases h <;> exact ⟨nofun, rfl, _, _, rfl⟩
  | estimateNorm norm options =>
    left
    obtain ⟨r, -, h⟩ := bind_eq_ok_iff.mp h
    cases r <;> cases h <;> exact ⟨nofun, rfl, _, _, rfl⟩
  | equilibrate d e =>
    right; right
    obtain ⟨out, hout, h⟩ := bind_eq_ok_iff.mp h
    cases h
    exact ⟨d, e, out, rfl, hout, rfl, rfl⟩
  | setOptions options =>
    left
    rcases s.perform_setOptions options with ⟨e, he⟩ | hdone
    · rw [he] at h
      cases h
      exact ⟨nofun, rfl, _, _, rfl⟩
    · rw [hdone] at h
      cases h
      exact ⟨nofun, rfl, _, _, rfl⟩
  | printTo outlet =>
    left
    cases h
    exact ⟨nofun, rfl, _, _, rfl⟩

/-- The summary and the factors that come back are those of the
equilibration. -/
theorem equilibrated_of_perform {s s' : Session α} {d e d' e' : Array α}
    {summary : EquilibrationSummary α}
    (h : s.perform (.equilibrate d e) = .ok (.equilibrated summary d' e', s')) :
    ∃ out, s.matrix.equilibrate d e s.world = .ok out ∧ out.result = .ok summary
      ∧ s'.matrix = out.matrix ∧ d' = out.d ∧ e' = out.e := by
  obtain ⟨out, hout, h⟩ := bind_eq_ok_iff.mp h
  cases hresult : out.result with
  | error r =>
    rw [hresult] at h
    cases h
  | ok summary' =>
    rw [hresult] at h
    cases h
    exact ⟨out, hout, hresult, rfl, rfl, rfl⟩

theorem perform_build_of_ok {s : Session α} {out : Outcome α Unit}
    (h : s.matrix.build s.world = .ok out) (hok : out.result = .ok ()) :
    s.perform .build = .ok (.done, ⟨out.matrix, out.world⟩) := by
  rw [perform, h, ok_bind, hok]
  rfl

theorem perform_equilibrate_of_ok {s : Session α} {d e : Array α}
    {out : Equilibrated α} (h : s.matrix.equilibrate d e s.world = .ok out)
    {summary : EquilibrationSummary α} (hok : out.result = .ok summary) :
    s.perform (.equilibrate d e)
      = .ok (.equilibrated summary out.d out.e, ⟨out.matrix, out.world⟩) := by
  rw [perform, h, ok_bind, hok]
  rfl

/-! ## The invariant -/

/-- The matrix holds both forms of its input, with other values. -/
def Built (input : MatrixInput α) (M : SolverMatrix α) : Prop :=
  ∃ f : Nat → Nat → α → α, M.Holds (input.matrix.mapEntries f)

/-- Before the build the matrix holds its input as it is. -/
def Follows (input : MatrixInput α) (M : SolverMatrix α) : Prop :=
  M.input? = some input ∨ Built input M

theorem equilibrate_of_input {M : SolverMatrix α} {input : MatrixInput α}
    (hM : M.input? = some input) (d e : Array α) (w : World) :
    M.equilibrate d e w
      = .ok { result := .error .notBuilt, matrix := M, d, e, world := w } := by
  have hbuilt : ¬ M.isBuilt = true := by
    unfold SolverMatrix.input? at hM
    unfold SolverMatrix.isBuilt
    split at hM
    · exact Bool.false_ne_true
    · cases hM
  unfold SolverMatrix.equilibrate
  rw [if_pos hbuilt]
  rfl

section Steps

variable (hcomm : ∀ a b : α, a * b = b * a) {input : MatrixInput α}
  (hcheck : input.check = .ok (.ok ()))

include hcomm hcheck

omit hcheck in
/-- A built matrix stays built. -/
theorem Built.perform {s s' : Session α} {c : Call α} {a : Answer α}
    (hs : Built input s.matrix) (h : s.perform c = .ok (a, s')) :
    Built input s'.matrix := by
  obtain ⟨f, hs⟩ := hs
  rcases perform_cases h
    with ⟨-, -, options, outlet, hM⟩ | ⟨rfl, -, out, hout, hM⟩
    | ⟨d, e, out, rfl, hout, hM, -⟩
  · rw [hM]
    exact ⟨f, hs.of_rest options outlet _⟩
  · rw [hM, hs.build_eq hout]
    exact ⟨f, hs⟩
  · obtain ⟨g, hg⟩ := hs.holds_of_equilibrate hcomm hout
    rw [SlicedMatrix.mapEntries_mapEntries] at hg
    rw [hM]
    exact ⟨_, hg⟩

/-- Every call keeps the invariant. -/
theorem Follows.perform {s s' : Session α} {c : Call α} {a : Answer α}
    (hs : Follows input s.matrix) (h : s.perform c = .ok (a, s')) :
    Follows input s'.matrix ∧ (c = .build → Built input s'.matrix) := by
  rcases hs with hs | hs
  · rcases perform_cases h
      with ⟨hc, -, options, outlet, hM⟩ | ⟨rfl, -, out, hout, hM⟩
      | ⟨d, e, out, rfl, hout, hM, -⟩
    · have hs' : s'.matrix.input? = some input := by
        rw [hM]
        exact hs
      exact ⟨.inl hs', fun hbuild => absurd hbuild hc⟩
    · have hbuilt : Built input s'.matrix := by
        refine ⟨fun _ _ v => v, ?_⟩
        rw [hM,
          SlicedMatrix.mapEntries_id (MatrixInput.check_eq_ok_iff.mp hcheck).2]
        exact SolverMatrix.holds_of_build hcheck hs hout
      exact ⟨.inr hbuilt, fun _ => hbuilt⟩
    · rw [equilibrate_of_input hs] at hout
      cases hout
      rw [hM]
      exact ⟨.inl hs, nofun⟩
  · have hbuilt := hs.perform hcomm h
    exact ⟨.inr hbuilt, fun _ => hbuilt⟩

/-- Every sequence of calls keeps the invariant, and one that contains a
build leaves a built matrix. -/
theorem Follows.run {calls : List (Call α)} {s s' : Session α}
    {answers : List (Answer α)} (hs : Follows input s.matrix)
    (h : s.run calls = .ok (answers, s')) :
    Follows input s'.matrix ∧ (.build ∈ calls → Built input s'.matrix) := by
  refine run_rule (P := fun cs _ s => Follows input s.matrix ∧ (.build ∈ cs →
      Built input s.matrix)) ?_ [] [] ⟨hs, nofun⟩ h
  intro cs _ s c a s' ⟨hs, hbuilt⟩ h
  obtain ⟨hs', hbuild⟩ := hs.perform hcomm hcheck h
  refine ⟨hs', ?_⟩
  intro hmem
  rcases List.mem_append.mp hmem with hmem | hmem
  · exact (hbuilt hmem).perform hcomm h
  · exact hbuild (List.mem_singleton.mp hmem).symm

/-! ## Progress -/

omit hcomm hcheck [Scalar α] [Displayed α] in
theorem Follows.dims {M : SolverMatrix α} (hM : Follows input M) :
    M.rows = input.rows ∧ M.cols = input.cols := by
  rcases hM with hM | ⟨f, hM⟩
  · exact SolverMatrix.dims_of_input hM
  · exact ⟨hM.rows_eq, hM.cols_eq⟩

/-- A call with vectors that fit comes to an answer. -/
theorem Follows.perform_total
    (hmem : FitsMemory input.rows input.cols input.values.size)
    {s : Session α} (hs : Follows input s.matrix) {c : Call α}
    (hc : c.Fits input.rows input.cols) : ∃ r, s.perform c = .ok r := by
  obtain ⟨hrows, hcols⟩ := hs.dims
  have hrows' : s.matrix.rows < capacity :=
    hrows ▸ Nat.lt_of_succ_lt hmem.rows_lt
  have hcols' : s.matrix.cols < capacity :=
    hcols ▸ Nat.lt_of_succ_lt hmem.cols_lt
  cases c with
  | build =>
    obtain ⟨out, hout⟩ : ∃ out, s.matrix.build s.world = .ok out := by
      rcases hs with hs | ⟨f, hs⟩
      · exact ⟨_, (SolverMatrix.build_eq_ok_iff hs hcheck).mpr
          ⟨hmem.hasRoom (A := input.matrix), rfl⟩⟩
      · refine ⟨{ result := .error .alreadyBuilt, matrix := s.matrix,
                  world := s.world }, ?_⟩
        unfold SolverMatrix.build SolverMatrix.input?
        rw [hs.storage]
        rfl
    exact ⟨_, bind_eq_ok_iff.mpr ⟨out, hout, rfl⟩⟩
  | multiply shape a x b y =>
    obtain ⟨r, hr⟩ : ∃ r, s.matrix.multiply shape a x b y = .ok r := by
      rcases hs with hs | ⟨f, hs⟩
      · exact ⟨_, SolverMatrix.multiply_of_input hs shape a x b y⟩
      · exact ⟨_, hs.multiply_eq_ok shape a b (by rw [hrows, hcols]; exact hc.1)
          (by rw [hrows, hcols]; exact hc.2)⟩
    cases r with
    | error r => exact ⟨_, bind_eq_ok_iff.mpr ⟨_, hr, rfl⟩⟩
    | ok y => exact ⟨_, bind_eq_ok_iff.mpr ⟨_, hr, rfl⟩⟩
  | estimateNorm norm options =>
    obtain ⟨r, hr⟩ : ∃ r, s.matrix.normEstimate norm options = .ok r := by
      rcases hs with hs | ⟨f, hs⟩
      · exact SolverMatrix.normEstimate_of_input hs hrows' hcols' norm options
      · by_cases hnorm : norm = .one
        · rw [hnorm]
          exact ⟨_, rfl⟩
        · obtain ⟨v, hv⟩ := hs.normEstimate_total hnorm options hrows' hcols'
          exact ⟨_, hv⟩
    cases r with
    | error r => exact ⟨_, bind_eq_ok_iff.mpr ⟨_, hr, rfl⟩⟩
    | ok v => exact ⟨_, bind_eq_ok_iff.mpr ⟨_, hr, rfl⟩⟩
  | equilibrate d e =>
    obtain ⟨out, hout⟩ : ∃ out, s.matrix.equilibrate d e s.world = .ok out := by
      rcases hs with hs | ⟨f, hs⟩
      · exact ⟨_, equilibrate_of_input hs d e s.world⟩
      · exact hs.equilibrate_total hcomm (hc.1.trans hrows.symm)
          (hc.2.trans hcols.symm) hrows' hcols' s.world
    exact ⟨_, bind_eq_ok_iff.mpr ⟨out, hout, rfl⟩⟩
  | setOptions options =>
    rcases s.perform_setOptions options with ⟨e, he⟩ | hdone
    · exact ⟨_, he⟩
    · exact ⟨_, hdone⟩
  | printTo outlet => exact ⟨_, rfl⟩

theorem Follows.run_total
    (hmem : FitsMemory input.rows input.cols input.values.size)
    {calls : List (Call α)} {s : Session α} (hs : Follows input s.matrix)
    (hcalls : ∀ c ∈ calls, c.Fits input.rows input.cols) :
    ∃ r, s.run calls = .ok r := by
  induction calls generalizing s with
  | nil => exact ⟨_, rfl⟩
  | cons c calls ih =>
    obtain ⟨⟨a, t⟩, ht⟩ :=
      hs.perform_total hcomm hcheck hmem (hcalls c List.mem_cons_self)
    obtain ⟨r, hr⟩ := ih (hs.perform hcomm hcheck ht).1
      fun c' hc' => hcalls c' (List.mem_cons_of_mem c hc')
    exact ⟨_, bind_eq_ok_iff.mpr ⟨_, ht, bind_eq_ok_iff.mpr ⟨r, hr, rfl⟩⟩⟩

end Steps

/-! ## Both forms -/

section FloatingPoint

open Float.Model

omit [Scalar α] [Displayed α]

theorem unpackedMul_comm (format : Format) (x y : UnpackedFloat) :
    UnpackedFloat.mul format x y = UnpackedFloat.mul format y x := by
  have hsign : ∀ s t : UnpackedFloat.Sign, s * t = t * s := by
    intro s t
    cases s <;> cases t <;> rfl
  cases x <;> cases y
  case finite.finite s₁ m₁ e₁ _ s₂ m₂ e₂ _ =>
    show UnpackedFloat.roundWithAccuracy format (s₁ * s₂) (m₁ * m₂)
      (e₁ + e₂) .exact
      = UnpackedFloat.roundWithAccuracy format (s₂ * s₁) (m₂ * m₁)
        (e₂ + e₁) .exact
    rw [hsign, Nat.mul_comm, Int.add_comm]
  -- all other results are made of the signs
  all_goals first
    | rfl
    | exact congrArg UnpackedFloat.infinity (hsign _ _)
    | exact congrArg UnpackedFloat.zero (hsign _ _)

/-- Products of doubles commute, up to which pattern stands for a result
that is no number. -/
instance : Std.Commutative fun a b : Float => a * b where
  comm a b := by
    show Float.ofModel (pack _) = Float.ofModel (pack _)
    rw [unpackedMul_comm]

instance : Std.Commutative fun a b : Float32 => a * b where
  comm a b := by
    show Float32.ofModel (Float32.Model.pack _)
      = Float32.ofModel (Float32.Model.pack _)
    rw [unpackedMul_comm]

end FloatingPoint

/-- **Both storage forms stay consistent.** Take any input that passes the
check, any unbuilt matrix of it and any sequence of calls. If the vectors of
the calls fit, the sequence comes to an end; and in every session that is
reached in this way and holds a built matrix, both forms are well formed,
their pointers and indices are those they were built with, the caller's own
in the order of the input, and the other form is the conversion of that one,
position by position.

Of the arithmetic only commutativity of the product is used. On
floating-point numbers equality is equality of bit patterns, with all
results that are no number taken for one. -/
theorem forms_stay_paired [hmul : Std.Commutative fun a b : α => a * b]
    (input : MatrixInput α) (hcheck : input.check = .ok (.ok ()))
    (M : SolverMatrix α) (hM : M.input? = some input) (w : World)
    (calls : List (Call α)) :
    (FitsMemory input.rows input.cols input.values.size →
      (∀ c ∈ calls, c.Fits input.rows input.cols) →
        ∃ answers s, run ⟨M, w⟩ calls = .ok (answers, s))
    ∧ ∀ answers s, run ⟨M, w⟩ calls = .ok (answers, s) →
      (.build ∈ calls → ∃ P, s.matrix.pair = .ok P)
      ∧ ∀ P, s.matrix.pair = .ok P →
        (P.row.check = .ok (.ok ()) ∧ P.col.check = .ok (.ok ()))
        ∧ (P.order = input.order ∧ P.inputForm.starts = input.starts
          ∧ P.inputForm.indices = input.indices)
        ∧ (∃ P₀, PairedMatrix.ofInput input = .ok P₀
          ∧ (P.row.starts = P₀.row.starts ∧ P.row.indices = P₀.row.indices)
          ∧ P.col.starts = P₀.col.starts ∧ P.col.indices = P₀.col.indices)
        ∧ P.inputForm.inOrder input.order.flip = .ok P.otherForm := by
  have hcomm : ∀ a b : α, a * b = b * a := hmul.comm
  have hfollows : Follows input M := .inl hM
  have hmatrix := (MatrixInput.check_eq_ok_iff.mp hcheck).2
  constructor
  · intro hmem hcalls
    obtain ⟨⟨answers, s⟩, hrun⟩ :=
      hfollows.run_total hcomm hcheck hmem hcalls (s := ⟨M, w⟩)
    exact ⟨answers, s, hrun⟩
  · intro answers s hrun
    obtain ⟨hs, hbuild⟩ := Follows.run hcomm hcheck (s := ⟨M, w⟩) hfollows hrun
    constructor
    · intro hmem
      obtain ⟨f, hs⟩ := hbuild hmem
      exact ⟨_, hs.pair⟩
    intro P hP
    rcases hs with hs | ⟨f, hs⟩
    · -- an unbuilt matrix has no forms
      rw [SolverMatrix.pair_of_input hs] at hP
      cases hP
    · rw [hs.pair] at hP
      cases hP
      have hroom : input.matrix.HasRoom :=
        (SlicedMatrix.hasRoom_mapEntries hmatrix f).mp hs.room
      obtain ⟨hrow, hcol⟩ := PairedMatrix.check_forms hmatrix hroom
      refine ⟨PairedMatrix.check_forms hs.check hs.room, ⟨?_, ?_, ?_⟩,
        ⟨_, (PairedMatrix.ofInput_eq_ok_iff hmatrix).mpr ⟨hroom, rfl⟩, ?_⟩, ?_⟩
      · rw [PairedMatrix.order_ofForm]
        rfl
      · rw [PairedMatrix.inputForm_ofForm,
          SlicedMatrix.starts_mapEntries hmatrix]
        rfl
      · rw [PairedMatrix.inputForm_ofForm,
          SlicedMatrix.indices_mapEntries hmatrix]
        rfl
      · rw [PairedMatrix.ofForm_mapEntries hmatrix]
        exact ⟨⟨SlicedMatrix.starts_mapEntries hrow f,
          SlicedMatrix.indices_mapEntries hrow f⟩,
          SlicedMatrix.starts_mapEntries hcol f,
          SlicedMatrix.indices_mapEntries hcol f⟩
      · rw [PairedMatrix.inputForm_ofForm, PairedMatrix.otherForm_ofForm]
        exact SlicedMatrix.inOrder_flip hs.check hs.room

/-- A column with an unsorted and repeated index, a value that is no number
and a build that comes too late. -/
theorem forms_stay_paired_repeated :
    let input : MatrixInput Float :=
      ⟨.col, 3, 2, 4, #[0, 3, 4], #[2, 0, 2, 1], #[1, -2, 0 / 0, 3]⟩
    let M := SolverMatrix.ofInput input .standard
    let calls : List (Call Float) := [.multiply .normal 1 #[1, 1] 0 #[0, 0, 0],
      .build, .equilibrate #[0, 0, 0] #[0, 0], .build,
      .equilibrate #[1, 1, 1] #[1, 1]]
    input.check = .ok (.ok ())
      ∧ ∃ answers s, run ⟨M, { readings := fun n => n }⟩ calls
        = .ok (answers, s)
      ∧ ∃ P, s.matrix.pair = .ok P ∧ P.inputForm.indices = #[2, 0, 2, 1]
        ∧ P.inputForm.inOrder .row = .ok P.otherForm := by
  intro input M calls
  have hcheck : input.check = .ok (.ok ()) := by decide +kernel
  have hmem : FitsMemory input.rows input.cols input.values.size :=
    ⟨by decide, by decide, by decide⟩
  have hfits : ∀ c ∈ calls, c.Fits input.rows input.cols := by
    intro c hc
    simp only [calls, List.mem_cons, List.not_mem_nil, or_false] at hc
    rcases hc with rfl | rfl | rfl | rfl | rfl
    · exact ⟨rfl, rfl⟩
    · trivial
    · exact ⟨rfl, rfl⟩
    · trivial
    · exact ⟨rfl, rfl⟩
  obtain ⟨hprogress, hpaired⟩ := forms_stay_paired input hcheck M rfl
    { readings := fun n => n } calls
  obtain ⟨answers, s, hrun⟩ := hprogress hmem hfits
  obtain ⟨hbuilt, hforms⟩ := hpaired answers s hrun
  obtain ⟨P, hP⟩ := hbuilt (by simp [calls])
  obtain ⟨-, ⟨-, -, hindices⟩, -, hother⟩ := hforms P hP
  exact ⟨hcheck, answers, s, hrun, P, hP, hindices, hother⟩

end Session

end Equilibration
