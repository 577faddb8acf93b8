import Equilibration.Proofs.Sessions

/-!
# Requests — all that can be asked of a solver matrix

A request is a call, a run of balancing or of norm estimation on the matrix
as an operator, a look at what the matrix shows, or the wish for a copy.
Only calls change anything (`Session.serve_cases`).

`Session.Lives` says what holds of a matrix at any time, whatever its input
is worth: it keeps what was stated of the input, and it is built exactly if
a build was answered well (`Lives.serveAll`).
-/

namespace Equilibration

open Checked

/-- What the accessors of a solver matrix show. -/
structure Inspection (α : Type) where
  order : StorageOrder
  rows : Nat
  cols : Nat
  entryCount : Nat
  isBuilt : Bool
  options : Options α
  pair : Except Refusal (PairedMatrix α)
  values : Except Refusal (Array α)
  starts : Except Refusal (Array Nat)
  indices : Except Refusal (Array Nat)
  timeSpent : Nat

/-- All that a solver matrix shows. -/
def SolverMatrix.inspect {α : Type} (M : SolverMatrix α) : Inspection α where
  order := M.order
  rows := M.rows
  cols := M.cols
  entryCount := M.entryCount
  isBuilt := M.isBuilt
  options := M.options
  pair := M.pair
  values := M.values
  starts := M.starts
  indices := M.indices
  timeSpent := M.timeSpent

/-- What can be asked of a solver matrix and of the algorithms that take
one. -/
inductive Request (α : Type) where
  | call (c : Call α)
  | balance (d e : Array α) (budget : UInt32) (tolerance : α)
  | spectralNorm (budget : UInt32) (tolerance : α)
  | inspect
  | copy

/-- What comes back. -/
inductive Reply (α : Type) where
  | answer (a : Answer α)
  | balanced (run : BalanceRun α)
  | norm (result : Except Refusal α)
  | shown (facts : Inspection α)
  | copied (copy : Option (SolverMatrix α))

variable {α : Type}

/-- The vectors of a request have the lengths that a matrix asks for. -/
def Request.Fits (rows cols : Nat) : Request α → Prop
  | .call c => c.Fits rows cols
  | .balance d e _ _ => d.size = rows ∧ e.size = cols
  | _ => True

namespace Session

section Serving

variable [Scalar α] [Displayed α]

/-- One request. -/
def serve (s : Session α) : Request α → Checked (Reply α × Session α)
  | .call c => do
    let (a, s) ← s.perform c
    pure (.answer a, s)
  | .balance d e budget tolerance => do
    let (run, _)
      ← (Balancing.run s.matrix.operator d e budget.toNat tolerance).run ()
    pure (.balanced run, s)
  | .spectralNorm budget tolerance => do
    let (result, _)
      ← (SpectralNorm.estimate s.matrix.operator budget.toNat tolerance).run ()
    pure (.norm result, s)
  | .inspect => pure (.shown s.matrix.inspect, s)
  | .copy => pure (.copied s.matrix.unbuiltCopy?, s)

/-- One request after the other. -/
def serveAll (s : Session α) :
    List (Request α) → Checked (List (Reply α) × Session α)
  | [] => pure ([], s)
  | r :: rs => do
    let (reply, s) ← s.serve r
    let (replies, s) ← s.serveAll rs
    pure (reply :: replies, s)

/-- Requests other than calls leave everything as it is. -/
theorem serve_cases {s s' : Session α} {r : Request α} {reply : Reply α}
    (h : s.serve r = .ok (reply, s')) :
    ((∀ c, r ≠ .call c) ∧ s' = s)
      ∨ ∃ c a, r = .call c ∧ reply = .answer a ∧ s.perform c = .ok (a, s') := by
  cases r with
  | call c =>
    right
    obtain ⟨⟨a, t⟩, ht, h⟩ := bind_eq_ok_iff.mp h
    cases h
    exact ⟨c, a, rfl, rfl, ht⟩
  | balance d e budget tolerance =>
    left
    obtain ⟨_, -, h⟩ := bind_eq_ok_iff.mp h
    cases h
    refine ⟨?_, rfl⟩
    rintro c ⟨⟩
  | spectralNorm budget tolerance =>
    left
    obtain ⟨_, -, h⟩ := bind_eq_ok_iff.mp h
    cases h
    refine ⟨?_, rfl⟩
    rintro c ⟨⟩
  | inspect =>
    left
    cases h
    refine ⟨?_, rfl⟩
    rintro c ⟨⟩
  | copy =>
    left
    cases h
    refine ⟨?_, rfl⟩
    rintro c ⟨⟩

/-- **The rule of requests.** What every call keeps is kept by all requests
of a list. -/
theorem serveAll_rule {P : Session α → Prop}
    (hcall : ∀ {s c a s'}, P s → s.perform c = .ok (a, s') → P s')
    {requests : List (Request α)} {replies : List (Reply α)} {s s' : Session α}
    (hs : P s) (h : s.serveAll requests = .ok (replies, s')) : P s' := by
  induction requests generalizing s replies with
  | nil =>
    cases h
    exact hs
  | cons r requests ih =>
    obtain ⟨⟨reply, t⟩, ht, h⟩ := bind_eq_ok_iff.mp h
    obtain ⟨⟨replies, t'⟩, ht', h⟩ := bind_eq_ok_iff.mp h
    cases h
    refine ih ?_ ht'
    rcases serve_cases ht with ⟨-, rfl⟩ | ⟨c, a, -, -, hperform⟩
    · exact hs
    · exact hcall hs hperform

end Serving

end Session

/-! ## Builds -/

namespace SolverMatrix

/-- What the caller stated of the input. -/
def stated (M : SolverMatrix α) : StorageOrder × Nat × Nat × Nat :=
  (M.order, M.rows, M.cols, M.entryCount)

theorem input?_eq_none {M : SolverMatrix α} (h : M.isBuilt = true) :
    M.input? = none := by
  unfold isBuilt at h
  unfold input?
  split at h
  · cases h
  · rfl

theorem isBuilt_of_input {M : SolverMatrix α} {input : MatrixInput α}
    (h : M.input? = some input) : M.isBuilt = false := by
  cases hbuilt : M.isBuilt with
  | false => rfl
  | true =>
    rw [input?_eq_none hbuilt] at h
    cases h

theorem stated_of_input {M : SolverMatrix α} {input : MatrixInput α}
    (h : M.input? = some input) :
    M.stated = (input.order, input.rows, input.cols, input.entryCount) := by
  unfold input? at h
  split at h
  · cases h
    rfl
  · cases h

variable [Scalar α]

theorem build_of_isBuilt {M : SolverMatrix α} (h : M.isBuilt = true)
    (w : World) :
    M.build w
      = .ok { result := .error .alreadyBuilt, matrix := M, world := w } := by
  unfold build
  rw [input?_eq_none h]
  rfl

theorem build_of_malformed {M : SolverMatrix α} {input : MatrixInput α}
    (hM : M.input? = some input) {reason : LayoutError}
    (hcheck : input.check = .ok (.error reason)) (w : World) :
    M.build w = .ok
      { result := .error (.malformed reason), matrix := M, world := w } := by
  unfold build
  rw [hM]
  simp only [hcheck, ok_bind]
  rfl

/-- A build that comes to a result found out what the input is worth. -/
theorem verdict_of_build {M : SolverMatrix α} {input : MatrixInput α}
    (hM : M.input? = some input) {w : World} {out : Outcome α Unit}
    (h : M.build w = .ok out) :
    ∃ verdict, input.check = .ok verdict := by
  unfold build at h
  rw [hM] at h
  obtain ⟨verdict, hcheck, -⟩ := bind_eq_ok_iff.mp h
  exact ⟨verdict, hcheck⟩

end SolverMatrix

namespace SolverMatrix.Holds

variable [Scalar α] [Displayed α] {M : SolverMatrix α} {A : SlicedMatrix α}

/-- Only storage, stopwatches and outlet are touched. -/
theorem rest_of_equilibrate (hM : M.Holds A) (hcomm : ∀ a b : α, a * b = b * a)
    {d e : Array α} {w : World} {out : Equilibrated α}
    (h : M.equilibrate d e w = .ok out) :
    ∃ storage watches outlet, out.matrix
      = { M with storage, watches, outlet } := by
  rcases hM.of_equilibrate hcomm h with ⟨-, _, -, hmatrix⟩ |
    ⟨run, record, norm, time, watches, outlet, -, -, -, -, -, -, -, hmatrix, -⟩
  · exact ⟨_, _, _, hmatrix⟩
  · rw [matrix_normalizedBy] at hmatrix
    exact ⟨_, watches, outlet, hmatrix⟩

theorem stated_of_equilibrate (hM : M.Holds A)
    (hcomm : ∀ a b : α, a * b = b * a) {d e : Array α} {w : World}
    {out : Equilibrated α} (h : M.equilibrate d e w = .ok out) :
    out.matrix.stated = M.stated := by
  obtain ⟨storage, watches, outlet, hmatrix⟩ := hM.rest_of_equilibrate hcomm h
  rw [hmatrix]
  rfl

end SolverMatrix.Holds

/-! ## The life of a matrix -/

namespace Session

theorem Built.isBuilt {input : MatrixInput α} {M : SolverMatrix α}
    (h : Built input M) :
    M.isBuilt = true := by
  obtain ⟨f, hM⟩ := h
  exact not_not.mp hM.isBuilt

/-- What holds of the matrix of some input at any time. -/
structure Lives (input : MatrixInput α) (M : SolverMatrix α) : Prop where
  stated : M.stated = (input.order, input.rows, input.cols, input.entryCount)
  state : M.input? = some input ∨ input.check = .ok (.ok ()) ∧ Built input M

namespace Lives

variable {input : MatrixInput α} {M : SolverMatrix α}

theorem of_input (h : M.input? = some input) : Lives input M :=
  ⟨SolverMatrix.stated_of_input h, .inl h⟩

theorem unbuilt (hM : Lives input M) (h : M.isBuilt = false) :
    M.input? = some input := by
  rcases hM.state with hM | ⟨-, hM⟩
  · exact hM
  · rw [hM.isBuilt] at h
    cases h

theorem built (hM : Lives input M) (h : M.isBuilt = true) :
    input.check = .ok (.ok ()) ∧ Built input M := by
  rcases hM.state with hM | hM
  · rw [SolverMatrix.isBuilt_of_input hM] at h
    cases h
  · exact hM

/-- Options, outlet and stopwatches play no part in it. -/
theorem of_rest (hM : Lives input M) (options : Options α) (outlet : Outlet)
    (watches : Stopwatches) :
    Lives input { M with options, outlet, watches } := by
  refine ⟨hM.stated, ?_⟩
  rcases hM.state with hinput | ⟨hcheck, f, hholds⟩
  · exact .inl hinput
  · exact .inr ⟨hcheck, f, hholds.of_rest options outlet watches⟩

variable [Scalar α]

/-- A build that is answered well stores both forms of the input, and no
other build changes anything. -/
theorem build (hM : Lives input M) {w : World} {out : Outcome α Unit}
    (h : M.build w = .ok out) :
    out.matrix.stated = M.stated
      ∧ (out.result = .ok () ∧ input.check = .ok (.ok ())
        ∧ Built input out.matrix
        ∨ (∃ r, out.result = .error r) ∧ out.matrix = M) := by
  rcases hM.state with hinput | ⟨-, hbuilt⟩
  · obtain ⟨verdict, hcheck⟩ := SolverMatrix.verdict_of_build hinput h
    cases verdict with
    | error reason =>
      rw [SolverMatrix.build_of_malformed hinput hcheck] at h
      cases h
      exact ⟨rfl, .inr ⟨⟨_, rfl⟩, rfl⟩⟩
    | ok u =>
      have hholds := SolverMatrix.holds_of_build hcheck hinput h
      rw [← SlicedMatrix.mapEntries_id hholds.check] at hholds
      obtain ⟨-, rfl⟩ := (SolverMatrix.build_eq_ok_iff hinput hcheck).mp h
      exact ⟨rfl, .inl ⟨rfl, hcheck, _, hholds⟩⟩
  · rw [SolverMatrix.build_of_isBuilt hbuilt.isBuilt] at h
    cases h
    exact ⟨rfl, .inr ⟨⟨_, rfl⟩, rfl⟩⟩

variable [Displayed α]

/-- An equilibration keeps what was stated of the input, and what is built
stays built. -/
theorem equilibrate (hcomm : ∀ a b : α, a * b = b * a) (hM : Lives input M)
    {d e : Array α} {w : World} {out : Equilibrated α}
    (h : M.equilibrate d e w = .ok out) :
    Lives input out.matrix ∧ out.matrix.isBuilt = M.isBuilt := by
  rcases hM.state with hinput | ⟨hcheck, f, hholds⟩
  · rw [equilibrate_of_input hinput] at h
    cases h
    exact ⟨hM, rfl⟩
  · obtain ⟨g, hg⟩ := hholds.holds_of_equilibrate hcomm h
    rw [SlicedMatrix.mapEntries_mapEntries] at hg
    have hbuilt : Built input out.matrix := ⟨_, hg⟩
    refine ⟨⟨?_, .inr ⟨hcheck, hbuilt⟩⟩,
      hbuilt.isBuilt.trans (Built.isBuilt ⟨f, hholds⟩).symm⟩
    rw [hholds.stated_of_equilibrate hcomm h]
    exact hM.stated

/-- One call keeps what was stated of the input, and only a build that is
answered well makes a matrix built. -/
theorem perform (hcomm : ∀ a b : α, a * b = b * a) {s s' : Session α}
    {c : Call α} {a : Answer α} (hs : Lives input s.matrix)
    (h : s.perform c = .ok (a, s')) :
    Lives input s'.matrix
      ∧ (s'.matrix.isBuilt = true
        ↔ s.matrix.isBuilt = true ∨ c = .build ∧ a = .done) := by
  cases c with
  | build =>
    obtain ⟨out, hout, h⟩ := bind_eq_ok_iff.mp h
    cases h
    obtain ⟨hstated, ⟨hok, hcheck, hbuilt⟩ | ⟨⟨r, hr⟩, hsame⟩⟩ := hs.build hout
    · rw [hok]
      exact ⟨⟨hstated.trans hs.stated, .inr ⟨hcheck, hbuilt⟩⟩,
        iff_of_true hbuilt.isBuilt (.inr ⟨rfl, rfl⟩)⟩
    · rw [hr, hsame]
      exact ⟨hs, ⟨.inl, fun h => h.resolve_right nofun⟩⟩
  | equilibrate d e =>
    obtain ⟨out, hout, h⟩ := bind_eq_ok_iff.mp h
    cases h
    obtain ⟨hlives, hbuilt⟩ := hs.equilibrate hcomm hout
    refine ⟨hlives, ?_⟩
    rw [hbuilt]
    exact ⟨.inl, fun h => h.resolve_right nofun⟩
  | multiply | estimateNorm | setOptions | printTo =>
    rcases perform_cases h
      with ⟨-, -, options, outlet, hM⟩ | ⟨hc, -⟩ | ⟨d, e, out, hc, -⟩
    · rw [hM]
      exact ⟨hs.of_rest options outlet _,
        ⟨.inl, fun h => h.resolve_right nofun⟩⟩
    · cases hc
    · cases hc

theorem serve (hcomm : ∀ a b : α, a * b = b * a) {s s' : Session α}
    {r : Request α} {reply : Reply α} (hs : Lives input s.matrix)
    (h : s.serve r = .ok (reply, s')) :
    Lives input s'.matrix := by
  rcases serve_cases h with ⟨-, rfl⟩ | ⟨c, a, -, -, hperform⟩
  · exact hs
  · exact (hs.perform hcomm hperform).1

/-- At any time a matrix keeps what was stated of its input, and it is built
exactly if a build was answered well before. -/
theorem serveAll (hcomm : ∀ a b : α, a * b = b * a)
    {requests : List (Request α)} {replies : List (Reply α)} {s s' : Session α}
    (hs : Lives input s.matrix) (h : s.serveAll requests = .ok (replies, s')) :
    Lives input s'.matrix
      ∧ (s'.matrix.isBuilt = true ↔ s.matrix.isBuilt = true
        ∨ (.call .build, .answer .done) ∈ requests.zip replies) := by
  induction requests generalizing s replies with
  | nil =>
    cases h
    exact ⟨hs, by simp⟩
  | cons r requests ih =>
    obtain ⟨⟨reply, t⟩, ht, h⟩ := bind_eq_ok_iff.mp h
    obtain ⟨⟨replies, t'⟩, ht', h⟩ := bind_eq_ok_iff.mp h
    cases h
    rcases serve_cases ht with ⟨hr, rfl⟩ | ⟨c, a, rfl, rfl, hperform⟩
    · obtain ⟨hlives, hbuilt⟩ := ih hs ht'
      refine ⟨hlives, hbuilt.trans ?_⟩
      have hne :
          ((.call .build, .answer .done) : Request α × Reply α) ≠ (r, reply) :=
        fun heq => hr .build (congrArg Prod.fst heq).symm
      rw [List.zip_cons_cons, List.mem_cons, or_iff_right hne]
    · obtain ⟨hlives, hbuilt⟩ := hs.perform hcomm hperform
      obtain ⟨hlives', hbuilt'⟩ := ih hlives ht'
      refine ⟨hlives', hbuilt'.trans ?_⟩
      have heq : c = .build ∧ a = .done
          ↔ ((.call .build, .answer .done) : Request α × Reply α)
            = (.call c, .answer a) := by
        simp only [Prod.mk.injEq, Request.call.injEq, Reply.answer.injEq,
          eq_comm]
      rw [hbuilt, List.zip_cons_cons, List.mem_cons, or_assoc, heq]

end Lives

end Session

end Equilibration
