import Equilibration.Proofs.Lifecycle
import Equilibration.Proofs.Outlets
import Equilibration.Proofs.Quietness

/-!
# PrintedReports — what a session prints

The reports that a session owes are told from its calls and their answers
alone (`Session.reportsOf`): each equilibration owes one if the options in
force say so, and what it states is what was answered. A call leaves in the
outlet what the text of its report leaves there and changes nothing else of
the matrix except storage, options and stopwatches
(`Session.matrix_of_perform`), so a run leaves what the texts of all its
reports joined would.

Main result: reports never touch the numbers, and the outlet holds a prefix
of the reports (`Session.reports_only_print`).
-/

namespace Equilibration

open Checked

variable {α : Type}

/-- The texts of some reports, one after the other. -/
def Report.joined [Scalar α] [Displayed α] (reports : List (Report α)) :
    String :=
  String.join (reports.map text)

theorem Report.joined_append [Scalar α] [Displayed α]
    (reports reports' : List (Report α)) :
    joined (reports ++ reports') = joined reports ++ joined reports' := by
  unfold joined
  rw [List.map_append, String.join_append]

/-- What comes back of an equilibration. -/
def Equilibrated.answer (out : Equilibrated α) : Answer α :=
  match out.result with
  | .ok summary => .equilibrated summary out.d out.e
  | .error r => .refused r

/-- The options in force after a call. -/
def Options.after (o : Options α) : Call α → Answer α → Options α
  | .setOptions options, .done => options
  | _, _ => o

namespace SolverMatrix

variable [Scalar α] (M : SolverMatrix α)

/-- The report that an answer owes: that of an equilibration, if the options
ask for one. -/
def report? : Answer α → Option (Report α)
  | .equilibrated summary d e =>
    if M.options.verbose then some (M.report summary d e) else none
  | _ => none

/-! ## What an equilibration changes -/

theorem matrix_of_normalize {d e : Array α} {N : Rescaled α α}
    (h : M.normalize d e = .ok N) :
    ∃ storage, N.matrix = { M with storage } := by
  unfold normalize at h
  obtain ⟨r, -, h⟩ := bind_eq_ok_iff.mp h
  cases r with
  | error error =>
    cases h
    exact ⟨_, rfl⟩
  | ok norm =>
    dsimp only at h
    split at h
    · cases hpair : M.pair <;> rw [hpair] at h <;> cases h <;> exact ⟨_, rfl⟩
    · cases h
      exact ⟨_, rfl⟩

theorem matrix_of_rescale {t : Magnitude} {d e : Array α}
    {s s' : Stopwatches × World} {r : Rescaled α (BalanceRecord α × α)}
    (h : M.rescale t d e s = .ok (r, s')) :
    ∃ storage, r.matrix = { M with storage } := by
  rw [rescale_eq_bind] at h
  obtain ⟨⟨B, u⟩, hB, h⟩ := bind_eq_ok_iff.mp h
  obtain ⟨⟨storage, hmatrix⟩, -⟩ := M.of_rebalance hB
  dsimp only at h
  unfold thenNormalize at h
  cases hrecord : B.result with
  | error error =>
    rw [hrecord] at h
    cases h
    exact ⟨storage, hmatrix⟩
  | ok record =>
    rw [hrecord] at h
    dsimp only at h
    rw [Timed.timed_bind] at h
    obtain ⟨N, hN, h⟩ := bind_eq_ok_iff.mp h
    obtain ⟨storage', hN⟩ := matrix_of_normalize _ hN
    cases h
    refine ⟨storage', hN.trans ?_⟩
    rw [hmatrix]

theorem matrix_of_build {w : World} {out : Outcome α Unit}
    (h : M.build w = .ok out) :
    ∃ storage watches, out.matrix = { M with storage, watches } := by
  unfold build at h
  cases hinput : M.input? with
  | none =>
    rw [hinput] at h
    cases h
    exact ⟨_, _, rfl⟩
  | some input =>
    rw [hinput] at h
    obtain ⟨verdict, -, h⟩ := bind_eq_ok_iff.mp h
    cases verdict with
    | error reason =>
      cases h
      exact ⟨_, _, rfl⟩
    | ok u =>
      obtain ⟨⟨pair, watches, w'⟩, -, h⟩ := bind_eq_ok_iff.mp h
      cases h
      exact ⟨_, _, rfl⟩

variable [Displayed α]

/-- No report leaves the outlet as it is. -/
theorem eq_offer_nil :
    M = { M with
      outlet := M.outlet.offer (Report.joined ([] : List (Report α))) } := by
  show M = { M with outlet := M.outlet.offer "" }
  rw [Outlet.offer_empty]

/-- A report leaves in the outlet what its text leaves there. -/
theorem matrix_printReport (summary : EquilibrationSummary α) (d e : Array α)
    (w : World) :
    (M.printReport summary d e w).1 = { M with
      outlet := M.outlet.offer
        (Report.joined (M.report? (.equilibrated summary d e)).toList) } := by
  unfold printReport report?
  split
  · show { M with
        outlet := (M.outlet.writeLines (M.report summary d e).lines w).1 } = _
    rw [Outlet.writeLines_fst]
    show _ = { M with
        outlet := M.outlet.offer (String.join [(M.report summary d e).text]) }
    rw [String.join_cons, String.join_nil, String.append_empty]
    rfl
  · exact M.eq_offer_nil

/-- An equilibration changes the storage and the stopwatches, and the outlet
by its report. -/
theorem matrix_of_equilibrate {d e : Array α} {w : World} {out : Equilibrated α}
    (h : M.equilibrate d e w = .ok out) :
    ∃ storage watches, out.matrix = { M with
      storage, watches
      outlet :=
        M.outlet.offer (Report.joined (M.report? out.answer).toList) } := by
  unfold equilibrate at h
  split at h
  · cases h
    exact ⟨_, _, M.eq_offer_nil⟩
  split at h
  · cases h
    exact ⟨_, _, M.eq_offer_nil⟩
  obtain ⟨_, -, h⟩ := bind_eq_ok_iff.mp h
  obtain ⟨_, -, h⟩ := bind_eq_ok_iff.mp h
  obtain ⟨⟨r, watches, w'⟩, hr, h⟩ := bind_eq_ok_iff.mp h
  unfold StateT.run at hr
  rw [Timed.timed_eq] at hr
  obtain ⟨⟨r', watches', w''⟩, hrescale, heq⟩ := bind_eq_ok_iff.mp hr
  cases heq
  obtain ⟨storage, hmatrix⟩ := M.matrix_of_rescale hrescale
  dsimp only at h
  rw [hmatrix] at h
  cases hresult : r.result with
  | error error =>
    rw [hresult] at h
    cases h
    exact ⟨storage, _, eq_offer_nil _⟩
  | ok p =>
    rw [hresult] at h
    cases h
    exact ⟨storage, _, matrix_printReport _ _ _ _ _⟩

end SolverMatrix

namespace Session

/-- The reports that calls owe a matrix, told from their answers. -/
def reportsOf (M : SolverMatrix α) :
    List (Call α) → List (Answer α) → List (Report α)
  | c :: calls, a :: answers =>
    (M.report? a).toList
      ++ reportsOf { M with options := M.options.after c a } calls answers
  | _, _ => []

theorem reportsOf_frame (M : SolverMatrix α) (storage : Storage α)
    (watches : Stopwatches) (outlet : Outlet) (calls : List (Call α))
    (answers : List (Answer α)) :
    reportsOf { M with storage, watches, outlet } calls answers
      = reportsOf M calls answers := by
  induction calls generalizing M answers with
  | nil => rfl
  | cons c calls ih =>
    cases answers with
    | nil => rfl
    | cons a answers =>
      exact congrArg _ (ih { M with options := M.options.after c a } answers)

variable [Scalar α] [Displayed α]

/-- A call that redirects nothing changes storage, stopwatches, options and
the outlet, which takes the report that its answer owes. -/
theorem matrix_of_perform {s s' : Session α} {c : Call α} {a : Answer α}
    (hc : ∀ outlet, c ≠ .printTo outlet) (h : s.perform c = .ok (a, s')) :
    ∃ storage watches, s'.matrix = { s.matrix with
      storage, watches
      options := s.matrix.options.after c a
      outlet := s.matrix.outlet.offer
        (Report.joined (s.matrix.report? a).toList) } := by
  cases c with
  | build =>
    obtain ⟨out, hout, heq⟩ := bind_eq_ok_iff.mp h
    cases heq
    obtain ⟨storage, watches, hmatrix⟩ := s.matrix.matrix_of_build hout
    cases hresult : out.result with
    | error r =>
      exact ⟨storage, watches, hmatrix.trans (SolverMatrix.eq_offer_nil _)⟩
    | ok u =>
      exact ⟨storage, watches, hmatrix.trans (SolverMatrix.eq_offer_nil _)⟩
  | multiply shape a x b y =>
    obtain ⟨r, -, h⟩ := bind_eq_ok_iff.mp h
    cases r <;> cases h <;> exact ⟨_, _, s.matrix.eq_offer_nil⟩
  | estimateNorm norm options =>
    obtain ⟨r, -, h⟩ := bind_eq_ok_iff.mp h
    cases r <;> cases h <;> exact ⟨_, _, s.matrix.eq_offer_nil⟩
  | equilibrate d e =>
    obtain ⟨out, hout, heq⟩ := bind_eq_ok_iff.mp h
    cases heq
    exact s.matrix.matrix_of_equilibrate hout
  | setOptions options =>
    rcases s.perform_setOptions options with ⟨e, he⟩ | hdone
    · rw [he] at h
      cases h
      exact ⟨_, _, s.matrix.eq_offer_nil⟩
    · rw [hdone] at h
      cases h
      exact ⟨_, _, SolverMatrix.eq_offer_nil { s.matrix with options }⟩
  | printTo outlet => exact absurd rfl (hc outlet)

/-- A run that redirects nothing leaves in the outlet what the texts of all
its reports joined leave there. -/
theorem outlet_of_run {s s' : Session α} {calls : List (Call α)}
    {answers : List (Answer α)} (hcalls : ∀ outlet, .printTo outlet ∉ calls)
    (h : s.run calls = .ok (answers, s')) :
    s'.matrix.outlet
      = s.matrix.outlet.offer
        (Report.joined (reportsOf s.matrix calls answers)) := by
  induction calls generalizing s answers with
  | nil =>
    cases h
    exact s'.matrix.outlet.offer_empty.symm
  | cons c calls ih =>
    obtain ⟨⟨a, t⟩, ht, h⟩ := bind_eq_ok_iff.mp h
    obtain ⟨⟨answers, t'⟩, ht', h⟩ := bind_eq_ok_iff.mp h
    cases h
    have hc : ∀ outlet, c ≠ .printTo outlet := by
      intro outlet heq
      exact hcalls outlet (heq ▸ List.mem_cons_self)
    obtain ⟨storage, watches, hmatrix⟩ := matrix_of_perform hc ht
    have hoffered : t.matrix.outlet
        = s.matrix.outlet.offer
          (Report.joined (s.matrix.report? a).toList) := by rw [hmatrix]
    have howed : reportsOf t.matrix calls answers
        = reportsOf { s.matrix with options := s.matrix.options.after c a }
          calls answers := by
      rw [hmatrix]
      exact reportsOf_frame
        { s.matrix with options := s.matrix.options.after c a } storage watches
        _ calls answers
    calc s'.matrix.outlet
        = t.matrix.outlet.offer
          (Report.joined (reportsOf t.matrix calls answers)) :=
          ih (fun outlet hmem =>
            hcalls outlet (List.mem_cons_of_mem c hmem)) ht'
      _ = s.matrix.outlet.offer (Report.joined
          (reportsOf s.matrix (c :: calls) (a :: answers))) := by
        rw [hoffered, howed, ← Outlet.offer_append, ← Report.joined_append]
        rfl

/-- The outlet of a call that redirects reports. -/
def redirection? : Call α → Option Outlet
  | .printTo outlet => some outlet
  | _ => none

/-- The outlet that is installed last, after `outlet`. -/
def lastInstalled (outlet : Outlet) (calls : List (Call α)) : Outlet :=
  (calls.filterMap redirection?).getLast?.getD outlet

omit [Scalar α] [Displayed α] in
theorem lastInstalled_cons (outlet : Outlet) (c : Call α)
    (calls : List (Call α)) :
    lastInstalled outlet (c :: calls)
      = lastInstalled ((redirection? c).getD outlet) calls := by
  unfold lastInstalled
  cases hc : redirection? c with
  | none => rw [List.filterMap_cons_none hc, Option.getD_none]
  | some outlet' =>
    rw [List.filterMap_cons_some hc, List.getLast?_cons, Option.getD_some,
      Option.getD_some]

omit [Scalar α] [Displayed α] in
/-- Whether a buffer is installed last depends on the first outlet only in
whether that is a buffer. -/
theorem lastInstalled_congr {outlet outlet' : Outlet}
    (h : (∃ text, outlet = .buffer text) ↔ ∃ text, outlet' = .buffer text)
    (calls : List (Call α)) :
    (∃ text, lastInstalled outlet calls = .buffer text)
      ↔ ∃ text, lastInstalled outlet' calls = .buffer text := by
  unfold lastInstalled
  cases (calls.filterMap redirection?).getLast? with
  | none => exact h
  | some last => exact Iff.rfl

/-- The outlet is a buffer after a run exactly if the one that was installed
last is. -/
theorem exists_buffer_of_run {s s' : Session α} {calls : List (Call α)}
    {answers : List (Answer α)} (h : s.run calls = .ok (answers, s')) :
    (∃ text, s'.matrix.outlet = .buffer text)
      ↔ ∃ text, lastInstalled s.matrix.outlet calls = .buffer text := by
  induction calls generalizing s answers with
  | nil =>
    cases h
    exact Iff.rfl
  | cons c calls ih =>
    obtain ⟨⟨a, t⟩, ht, h⟩ := bind_eq_ok_iff.mp h
    obtain ⟨⟨answers, t'⟩, ht', h⟩ := bind_eq_ok_iff.mp h
    cases h
    rw [ih ht', lastInstalled_cons]
    refine lastInstalled_congr ?_ calls
    by_cases hc : ∃ outlet, c = .printTo outlet
    · obtain ⟨outlet, rfl⟩ := hc
      cases ht
      exact Iff.rfl
    · obtain ⟨storage, watches, hmatrix⟩ :=
        matrix_of_perform (fun outlet heq => hc ⟨outlet, heq⟩) ht
      have hnone : redirection? c = none := by
        cases c with
        | printTo outlet => exact absurd ⟨outlet, rfl⟩ hc
        | _ => rfl
      rw [hmatrix, hnone]
      exact Outlet.exists_offer_eq_buffer_iff _ _

/-- **Reports only print.** Two sessions whose matrices differ in printing
only come to the same answers, durations apart, and to the same matrix, or
violate the same precondition, whatever is redirected in between and whether
options ask for reports.

Take any session whose matrix has just opened an outlet (a matrix that was
never redirected has opened the standard output), and any calls that do not
redirect it. Afterwards a buffer holds the reports that were owed, one after
the other, and so does a file or a stream; a stream with room for `k` bytes
holds the first `k` of these bytes.

After any calls, what was printed can be shown exactly if the outlet that
was installed last is a buffer, and a buffer starts empty. -/
theorem reports_only_print :
    (∀ (s t : Session α) (calls calls' : List (Call α)),
      s.matrix.quiet = t.matrix.quiet →
      calls.filterMap Call.silent? = calls'.filterMap Call.silent? →
        s.figures calls = t.figures calls')
    ∧ (∀ (s s' : Session α) (target : PrintTarget) (calls : List (Call α))
        (answers : List (Answer α)),
        s.matrix.outlet = .opened target →
        (∀ outlet, .printTo outlet ∉ calls) →
        s.run calls = .ok (answers, s') →
        let text := Report.joined (reportsOf s.matrix calls answers)
        (target = .buffer → s'.matrix.outlet.bufferText = .ok text)
        ∧ (∀ k, target = .stream (some k) →
          s'.matrix.outlet.received = (Outlet.bytesOf text).take k)
        ∧ (target = .file ∨ target = .stream none →
          s'.matrix.outlet.received = Outlet.bytesOf text))
    ∧ (∀ (s s' : Session α) (calls : List (Call α)) (answers : List (Answer α)),
        s.run calls = .ok (answers, s') →
        ((∃ shown, s'.matrix.outlet.bufferText = .ok shown)
          ↔ ∃ text, lastInstalled s.matrix.outlet calls = .buffer text))
    ∧ ∀ M : SolverMatrix α,
      (M.printTo (.opened .buffer)).outlet.bufferText = .ok "" := by
  refine ⟨fun s t calls calls' h hcalls => figures_congr h s.world t.world
    hcalls, ?_, ?_, fun M => rfl⟩
  · intro s s' target calls answers hopened hcalls hrun text
    have houtlet : s'.matrix.outlet = (Outlet.opened target).offer text := by
      rw [← hopened]
      exact outlet_of_run hcalls hrun
    rw [houtlet]
    refine ⟨?_, ?_, Outlet.received_unlimited text⟩
    · rintro rfl
      exact Outlet.bufferText_buffer text
    · rintro k rfl
      exact Outlet.received_limited text k
  · intro s s' calls answers hrun
    rw [Outlet.exists_bufferText_iff, exists_buffer_of_run hrun]

/-- A report to a stream that has room for a part of its heading. -/
theorem reports_only_print_stopped :
    let input : MatrixInput Float := ⟨.row, 1, 1, 1, #[0, 1], #[0], #[4]⟩
    let M :=
      SolverMatrix.ofInput input { Options.standard with verbose := true }
    let w : World := { readings := fun n => n }
    let s : Session Float := ⟨M.printTo (.opened (.stream (some 7))), w⟩
    let calls : List (Call Float) := [.build, .equilibrate #[0] #[0]]
    figures ⟨.ofInputStandard input, w⟩ calls = s.figures calls
      ∧ ∃ summary d e s', s.run calls
        = .ok ([.done, .equilibrated summary d e], s')
        ∧ s'.matrix.outlet.received = Outlet.bytesOf "\nequili"
        ∧ ∀ shown, s'.matrix.outlet.bufferText ≠ .ok shown := by
  intro input M w s calls
  have hcheck : input.check = .ok (.ok ()) := by decide +kernel
  obtain ⟨summary, d, e, s', hrun, -⟩ := run_build_equilibrate (M := s.matrix)
    Std.Commutative.comm hcheck ⟨by decide, by decide, by decide⟩ rfl nofun w
    (d := #[0]) (e := #[0]) rfl rfl
  obtain ⟨hsame, hprinted, hshown, -⟩ := reports_only_print (α := Float)
  obtain ⟨-, hstream, -⟩ :=
    hprinted s s' (.stream (some 7)) calls _ rfl (by simp [calls]) hrun
  refine ⟨hsame _ s calls calls rfl rfl, summary, d, e, s', hrun, ?_, ?_⟩
  · have htext : Report.joined
        (reportsOf s.matrix calls [.done, .equilibrated summary d e])
        = (M.report summary d e).text := by
      show String.join [(M.report summary d e).text] = _
      rw [String.join_cons, String.join_nil, String.append_empty]
    rw [hstream 7 rfl, htext, Report.text, Report.lines, String.join_cons,
      Outlet.bytesOf_append, List.take_append_of_le_length (by decide)]
    decide
  · intro shown h
    obtain ⟨text, htext⟩ := (hshown s s' calls _ hrun).mp ⟨shown, h⟩
    cases htext

end Session

end Equilibration
