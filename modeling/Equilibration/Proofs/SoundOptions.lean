import Equilibration.Options.Choices
import Equilibration.Proofs.Lifecycle

/-!
# SoundOptions — options that pass their check

Options are checked in two places: choices when options are made of them,
and complete options when they replace those of a matrix. The two checks
agree, since what is left open takes a sound value (`Choices.toOptions_eq`).
A matrix that is made with sound options keeps sound options, whatever is
asked of it, and then no equilibration of the built matrix is refused
(`Session.sound_options_equilibrate`).
-/

namespace Equilibration

open Checked

/-- What the checks of options rest on: the standard options are sound, what
is no number is not at least zero, and minus zero is. -/
class OptionScalar (α : Type) [Interchange α] : Prop where
  standard_check : (Options.standard : Options α).check = .ok ()
  not_zero_le_of_isNaN (v : α) : Scalar.isNaN v = true → ¬ 0 ≤ v
  zero_le_neg_zero : (0 : α) ≤ -0

section FloatingPoint

open Float.Model

theorem unpackedLe_of_isNaN {u v : UnpackedFloat} (h : v.isNaN = true) :
    u.le v = false := by
  cases v <;> cases u <;> first | rfl | cases h

instance : OptionScalar Float where
  standard_check := by decide +kernel
  not_zero_le_of_isNaN v h hle :=
    Bool.false_ne_true
      ((unpackedLe_of_isNaN h).symm.trans (of_decide_eq_true hle))
  zero_le_neg_zero := by decide +kernel

instance : OptionScalar Float32 where
  standard_check := by decide +kernel
  not_zero_le_of_isNaN v h hle :=
    Bool.false_ne_true
      ((unpackedLe_of_isNaN h).symm.trans (of_decide_eq_true hle))
  zero_le_neg_zero := by decide +kernel

end FloatingPoint

variable {α : Type}

/-! ## The check -/

namespace Options

/-- The choice that the options make for a key. -/
def choice (o : Options α) : OptionKey → Choice α
  | .verbose => .verbose o.verbose
  | .balanceNorm => .balanceNorm o.balanceNorm
  | .normalizeNorm => .normalizeNorm o.normalizeNorm
  | .balanceBudget => .balanceBudget o.balanceBudget
  | .balanceTolerance => .balanceTolerance o.balanceTolerance
  | .normBudget => .normBudget o.normBudget
  | .normTolerance => .normTolerance o.normTolerance

theorem choice_set (o : Options α) (x : Choice α) (key : OptionKey) :
    (o.set x).choice key = if x.key = key then x else o.choice key := by
  cases x <;> cases key <;> rfl

section Check

variable [Scalar α]

/-- The options break the first rule that is not kept, of three. -/
theorem check_eq (o : Options α) :
    o.check =
      if o.normalizeNorm = .one then .error (.badValue .normalizeNorm)
      else if ¬ 0 ≤ o.balanceTolerance then .error (.badValue .balanceTolerance)
      else if ¬ 0 ≤ o.normTolerance then .error (.badValue .normTolerance)
      else .ok () := by
  unfold check checkNormalizeNorm checkTolerance
  by_cases hnorm : o.normalizeNorm = .one
  · rw [if_pos hnorm, if_pos hnorm]
    rfl
  · rw [if_neg hnorm, if_neg hnorm]
    by_cases hbalance : 0 ≤ o.balanceTolerance
    · rw [if_pos hbalance, if_neg (not_not.mpr hbalance)]
      by_cases htolerance : 0 ≤ o.normTolerance
      · rw [if_pos htolerance, if_neg (not_not.mpr htolerance)]
        rfl
      · rw [if_neg htolerance, if_pos htolerance]
        rfl
    · rw [if_neg hbalance, if_pos hbalance]
      rfl

theorem check_eq_ok_iff {o : Options α} :
    o.check = .ok ()
      ↔ o.normalizeNorm ≠ .one ∧ 0 ≤ o.balanceTolerance
        ∧ 0 ≤ o.normTolerance := by
  rw [check_eq]
  constructor
  · intro h
    split_ifs at h with hnorm hbalance htolerance
    exact ⟨hnorm, hbalance, htolerance⟩
  · rintro ⟨hnorm, hbalance, htolerance⟩
    rw [if_neg hnorm, if_neg (not_not.mpr hbalance),
      if_neg (not_not.mpr htolerance)]

end Check

variable [Interchange α] [OptionScalar α]

theorem checkTolerance_of_isNaN {v : α} (h : Scalar.isNaN v = true)
    (key : OptionKey) :
    checkTolerance key v = .error (.badValue key) :=
  if_neg (OptionScalar.not_zero_le_of_isNaN v h)

theorem checkTolerance_neg_zero (key : OptionKey) :
    checkTolerance key (-0 : α) = .ok () :=
  if_pos OptionScalar.zero_le_neg_zero

end Options

/-! ## Choices -/

namespace Choices

/-- The last choice for a key. -/
def last? (cs : List (Choice α)) (key : OptionKey) : Option (Choice α) :=
  cs.reverse.find? fun x => decide (x.key = key)

theorem last?_cons (x : Choice α) (cs : List (Choice α)) (key : OptionKey) :
    last? (x :: cs) key
      = (last? cs key).or (if x.key = key then some x else none) := by
  rw [last?, List.reverse_cons, List.find?_append]
  by_cases hx : x.key = key <;> simp [last?, hx]

/-- Options that are replaced one after the other hold the last choice for
every key, and where there is none what they held before. -/
theorem choice_foldl_set (cs : List (Choice α)) (o : Options α)
    (key : OptionKey) :
    (cs.foldl Options.set o).choice key
      = (last? cs key).getD (o.choice key) := by
  induction cs generalizing o with
  | nil => rfl
  | cons x cs ih =>
    rw [List.foldl_cons, ih, Options.choice_set, last?_cons]
    -- a later choice hides `x`
    cases last? cs key with
    | some y => rfl
    | none =>
      by_cases hx : x.key = key
      · rw [if_pos hx, if_pos hx]
        rfl
      · rw [if_neg hx, if_neg hx]
        rfl

/-- With what is left open taken from sound options, checking what is chosen
is checking all. -/
theorem check_applyTo [Scalar α] {o : Options α} (h : o.check = .ok ())
    (c : Choices α) :
    (c.applyTo o).check = c.check := by
  obtain ⟨hsound, hbalance, htolerance⟩ := Options.check_eq_ok_iff.mp h
  have hnorm' :
      Options.checkNormalizeNorm (c.normalizeNorm.getD o.normalizeNorm)
        = checkChosen Options.checkNormalizeNorm c.normalizeNorm := by
    cases c.normalizeNorm with
    | some norm => rfl
    | none => exact if_neg hsound
  have hbalance' : Options.checkTolerance .balanceTolerance
        (c.balanceTolerance.getD o.balanceTolerance)
      = checkChosen (Options.checkTolerance .balanceTolerance)
        c.balanceTolerance := by
    cases c.balanceTolerance with
    | some v => rfl
    | none => exact if_pos hbalance
  have htolerance' : Options.checkTolerance .normTolerance
      (c.normTolerance.getD o.normTolerance)
      = checkChosen (Options.checkTolerance .normTolerance)
        c.normTolerance := by
    cases c.normTolerance with
    | some v => rfl
    | none => exact if_pos htolerance
  unfold Options.check check applyTo
  rw [hnorm', hbalance', htolerance']

/-- Options are made of choices as if the choices replaced the standard
options one after the other, and the result were checked. -/
theorem toOptions_eq [Interchange α] [OptionScalar α] (cs : List (Choice α)) :
    (ofList cs).toOptions
      = (cs.foldl Options.set (.standard : Options α)).check.map
        fun _ => cs.foldl Options.set .standard := by
  have happly : (ofList cs).applyTo .standard
      = cs.foldl Options.set (.standard : Options α) :=
    applyTo_foldl_set cs {} .standard
  rw [← happly, check_applyTo OptionScalar.standard_check, toOptions]
  cases (ofList cs).check <;> rfl

/-- Options that were made of choices are sound. -/
theorem check_of_toOptions [Interchange α] [OptionScalar α] {c : Choices α}
    {o : Options α} (h : c.toOptions = .ok o) : o.check = .ok () := by
  unfold toOptions at h
  cases hcheck : c.check with
  | error e =>
    rw [hcheck] at h
    cases h
  | ok u =>
    rw [hcheck] at h
    cases h
    rw [check_applyTo OptionScalar.standard_check, hcheck]

end Choices

/-! ## Options of a session -/

/-- The options that a call leaves a matrix with. -/
def Call.optionsAfter [Scalar α] (o : Options α) : Call α → Options α
  | .setOptions o' => match o'.check with
    | .ok () => o'
    | .error _ => o
  | _ => o

theorem Call.check_optionsAfter [Scalar α] {o : Options α}
    (h : o.check = .ok ()) (c : Call α) :
    (c.optionsAfter o).check = .ok () := by
  cases c with
  | setOptions o' =>
    rw [optionsAfter]
    split
    · assumption
    · exact h
  | build | multiply | estimateNorm | equilibrate | printTo => exact h

namespace SolverMatrix

theorem options_of_build [Scalar α] {M : SolverMatrix α} {w : World}
    {out : Outcome α Unit} (h : M.build w = .ok out) :
    out.matrix.options = M.options := by
  unfold build at h
  split at h
  · cases h
    rfl
  · obtain ⟨verdict, -, h⟩ := bind_eq_ok_iff.mp h
    cases verdict with
    | error reason =>
      cases h
      rfl
    | ok u =>
      obtain ⟨_, -, h⟩ := bind_eq_ok_iff.mp h
      cases h
      rfl

end SolverMatrix

namespace Session

variable [Scalar α] [Displayed α]

theorem perform_setOptions_of_sound (s : Session α) {o : Options α}
    (h : o.check = .ok ()) :
    s.perform (.setOptions o)
      = .ok (.done, { s with matrix := { s.matrix with options := o } }) := by
  rw [perform, SolverMatrix.withOptions, h]
  rfl

theorem perform_setOptions_of_unsound (s : Session α) {o : Options α}
    {e : OptionsError} (h : o.check = .error e) :
    s.perform (.setOptions o) = .ok (.unsound e, s) := by
  rw [perform, SolverMatrix.withOptions, h]
  rfl

/-- Only options that pass the check replace those of a matrix. -/
theorem Lives.options_of_perform (hcomm : ∀ a b : α, a * b = b * a)
    {input : MatrixInput α} {s s' : Session α} {c : Call α} {a : Answer α}
    (hs : Lives input s.matrix) (h : s.perform c = .ok (a, s')) :
    s'.matrix.options = c.optionsAfter s.matrix.options := by
  cases c with
  | build =>
    obtain ⟨out, hout, h⟩ := bind_eq_ok_iff.mp h
    cases h
    exact SolverMatrix.options_of_build hout
  | equilibrate d e =>
    obtain ⟨out, hout, h⟩ := bind_eq_ok_iff.mp h
    cases h
    show out.matrix.options = s.matrix.options
    rcases hs.state with hinput | ⟨-, f, hholds⟩
    · rw [equilibrate_of_input hinput] at hout
      cases hout
      rfl
    · obtain ⟨storage, watches, outlet, hmatrix⟩ :=
        hholds.rest_of_equilibrate hcomm hout
      rw [hmatrix]
  | setOptions o =>
    cases hcheck : o.check with
    | error e =>
      rw [perform_setOptions_of_unsound s hcheck] at h
      cases h
      rw [Call.optionsAfter, hcheck]
    | ok u =>
      rw [perform_setOptions_of_sound s hcheck] at h
      cases h
      rw [Call.optionsAfter, hcheck]
  | multiply | estimateNorm =>
    obtain ⟨r, -, h⟩ := bind_eq_ok_iff.mp h
    cases r <;> cases h <;> rfl
  | printTo outlet =>
    cases h
    rfl

/-- A matrix with sound options keeps sound options. -/
theorem Lives.sound_serveAll (hcomm : ∀ a b : α, a * b = b * a)
    {input : MatrixInput α}
    {requests : List (Request α)} {replies : List (Reply α)} {s s' : Session α}
    (hs : Lives input s.matrix) (hsound : s.matrix.options.check = .ok ())
    (h : s.serveAll requests = .ok (replies, s')) :
    Lives input s'.matrix ∧ s'.matrix.options.check = .ok () := by
  refine serveAll_rule
    (P := fun s => Lives input s.matrix ∧ s.matrix.options.check = .ok ()) ?_
    ⟨hs, hsound⟩ h
  intro s c a s' ⟨hs, hsound⟩ h
  refine ⟨(hs.perform hcomm h).1, ?_⟩
  rw [hs.options_of_perform hcomm h]
  exact Call.check_optionsAfter hsound c

end Session

namespace Session

variable [Interchange α] [Displayed α] [OptionScalar α]

/-- **Sound options never stop an equilibration.** Whatever choices are made
one after the other, they stand for the options that hold the last choice
for each key and the standard value where there is none: those options are
what is made of the choices if they pass the check, and the error of the
check is reported if they do not. The check names the first of three rules
that is broken; what is no number is not a sound tolerance, and minus zero
is.

Take the matrix of any input, with the standard options or with options made
of choices. Whatever is asked of it, its options are sound afterwards: an
update with sound options replaces them, and every other update is refused
and changes nothing. So if the matrix is built, vectors of the right lengths
are given their factors. That the pointers of the input are in memory bounds
its dimensions. -/
theorem sound_options_equilibrate
    [hmul : Std.Commutative fun a b : α => a * b] :
    (∀ cs : List (Choice α), ∃ o : Options α,
      (∀ key, o.choice key
        = (Choices.last? cs key).getD (Options.standard.choice key))
        ∧ (Choices.ofList cs).toOptions = o.check.map fun _ => o)
    ∧ (∀ o : Options α, o.check =
        if o.normalizeNorm = .one then .error (.badValue .normalizeNorm)
        else if ¬ 0 ≤ o.balanceTolerance then
          .error (.badValue .balanceTolerance)
        else if ¬ 0 ≤ o.normTolerance then .error (.badValue .normTolerance)
        else .ok ())
    ∧ (∀ key, Options.checkTolerance key (-0 : α) = .ok ()
        ∧ ∀ v : α, Scalar.isNaN v = true →
          Options.checkTolerance key v = .error (.badValue key))
    ∧ ∀ input : MatrixInput α, input.starts.size < capacity →
      ∀ M₀ : SolverMatrix α,
      (M₀ = .ofInputStandard input
        ∨ ∃ (cs : List (Choice α)) (o : Options α),
          (Choices.ofList cs).toOptions = .ok o ∧ M₀ = .ofInput input o) →
      ∀ (w : World) (requests : List (Request α)) (replies : List (Reply α))
        (s : Session α),
        serveAll ⟨M₀, w⟩ requests = .ok (replies, s) →
        s.matrix.options.check = .ok ()
          ∧ (∀ o : Options α,
            (o.check = .ok () → s.perform (.setOptions o) = .ok
              (.done, { s with matrix := { s.matrix with options := o } }))
            ∧ ∀ e, o.check = .error e →
              s.perform (.setOptions o) = .ok (.unsound e, s))
          ∧ (s.matrix.isBuilt = true → ∀ (d e : Array α) (w' : World),
            d.size = s.matrix.rows → e.size = s.matrix.cols →
            ∃ out summary, s.matrix.equilibrate d e w' = .ok out
              ∧ out.result = .ok summary) := by
  have hcomm : ∀ a b : α, a * b = b * a := hmul.comm
  refine ⟨?_, Options.check_eq, ?_, ?_⟩
  · intro cs
    exact ⟨cs.foldl Options.set .standard,
      Choices.choice_foldl_set cs .standard, Choices.toOptions_eq cs⟩
  · intro key
    exact ⟨Options.checkTolerance_neg_zero key, fun _ h =>
      Options.checkTolerance_of_isNaN h key⟩
  intro input hstarts M₀ hM₀ w requests replies s hrun
  obtain ⟨hinput, hsound⟩ :
      M₀.input? = some input ∧ M₀.options.check = .ok () := by
    rcases hM₀ with rfl | ⟨cs, o, ho, rfl⟩
    · exact ⟨rfl, OptionScalar.standard_check⟩
    · exact ⟨rfl, Choices.check_of_toOptions ho⟩
  obtain ⟨hlives, hcheck⟩ :=
    (Lives.of_input hinput).sound_serveAll hcomm (s := ⟨M₀, w⟩) hsound hrun
  refine ⟨hcheck, ?_, ?_⟩
  · intro o
    exact ⟨s.perform_setOptions_of_sound, fun _ =>
      s.perform_setOptions_of_unsound⟩
  · intro hbuilt d e w' hd he
    exact hlives.equilibrate_ok hcomm hstarts hbuilt
      (Options.check_eq_ok_iff.mp hcheck).1 hd he w'

/-- Unsound choices that are made again, and an update that is refused
between the build and the equilibration. -/
theorem sound_options_equilibrate_refused :
    let input : MatrixInput Float :=
      ⟨.row, 2, 2, 2, #[0, 1, 2], #[1, 0], #[3, -0.5]⟩
    let cs : List (Choice Float) :=
      [.normalizeNorm .one, .balanceTolerance (0 / 0), .verbose true,
        .normalizeNorm .two, .balanceTolerance (-0)]
    let bad : Options Float :=
      { (.standard : Options Float) with normTolerance := 0 / 0 }
    ∃ o s, (Choices.ofList cs).toOptions = .ok o
      ∧ serveAll ⟨.ofInput input o, { readings := fun n => n }⟩
          [.call .build, .call (.setOptions bad)]
        = .ok ([.answer .done, .answer (.unsound (.badValue .normTolerance))],
          s)
      ∧ s.matrix.options = o
      ∧ ∃ out summary, s.matrix.equilibrate #[0, 0] #[0, 0] s.world = .ok out
        ∧ out.result = .ok summary := by
  intro input cs bad
  obtain ⟨-, -, -, hserved⟩ := sound_options_equilibrate (α := Float)
  have hsound :
      (cs.foldl Options.set (.standard : Options Float)).check = .ok () := by
    decide +kernel
  have hbad : bad.check = .error (.badValue .normTolerance) := by decide +kernel
  have hoptions :
      (Choices.ofList cs).toOptions = .ok (cs.foldl Options.set .standard) := by
    rw [Choices.toOptions_eq, hsound]
    rfl
  have hcheck : input.check = .ok (.ok ()) := by decide +kernel
  have hroom : input.matrix.HasRoom := ⟨by decide, by decide⟩
  obtain ⟨s, hbuild, hbuilt, hstated, hkept⟩ := serve_build
    (M := .ofInput input (cs.foldl Options.set .standard)) hcheck hroom rfl
    { readings := fun n => n }
  have hrun : serveAll ⟨.ofInput input (cs.foldl Options.set .standard),
      { readings := fun n => n }⟩ [.call .build, .call (.setOptions bad)]
        = .ok
          ([.answer .done, .answer (.unsound (.badValue .normTolerance))], s) :=
    bind_eq_ok_iff.mpr ⟨_, hbuild, bind_eq_ok_iff.mpr ⟨_, bind_eq_ok_iff.mpr ⟨_,
      bind_eq_ok_iff.mpr ⟨_, s.perform_setOptions_of_unsound hbad, rfl⟩, rfl⟩,
      rfl⟩⟩
  obtain ⟨-, -, hok⟩ :=
    hserved input (by decide) _ (.inr ⟨cs, _, hoptions, rfl⟩) _ _ _ s hrun
  refine ⟨_, s, hoptions, hrun, hkept, hok hbuilt #[0, 0] #[0, 0] s.world ?_ ?_⟩
  · exact (congrArg (fun p => p.2.1) hstated).symm
  · exact (congrArg (fun p => p.2.2.1) hstated).symm

end Session

end Equilibration
