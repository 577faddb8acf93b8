import Equilibration.Proofs.LostColumns
import Equilibration.Proofs.RangeEnds
import Equilibration.Proofs.SignFlips

/-!
# FactorSigns — factors are numbers that are not negative

Whatever the products of an operator return, no number and infinities
included, a factor is never negative and always a number: it is one, or the
quotient of a count and a positive sum (`Balancing.zero_le_factor`). So both
updates of an iteration keep that property, whatever the operator is, and a
run ends with it (`Balancing.zero_le_iterate`).

What follows a run in an equilibration keeps it, too. A root of such a number
is one, and the share of the norm that each diagonal takes is a positive
finite number whenever it is taken (`FloatingPoint.recip_sqrt_pos`), so that
no infinite factor meets a share of zero.

Main result: no factor is negative or no number
(`Balancing.factors_not_negative`). -/

namespace Equilibration

open Checked FloatingPoint Rounding Float.Model Float.Model.UnpackedFloat

/-- What the result of a computation says of a step that has no part in the
state. -/
theorem StateT.of_lift_bind {σ β γ : Type} {c : Checked β}
    {k : β → StateT σ Checked γ} {s : σ} {r : γ × σ}
    (h : ((c : StateT σ Checked β) >>= k) s = .ok r) :
    ∃ b, c = .ok b ∧ k b s = .ok r := by
  cases c with
  | error violation => cases h
  | ok b => exact ⟨b, rfl, h⟩

namespace FloatingPoint

variable {α : Type} [Scalar α] [FloatingPoint α] [StandardFloat α] {a b : α}

/-- A root of a number that is not negative is one. -/
theorem zero_le_sqrt (h : 0 ≤ a) : 0 ≤ Scalar.sqrt a := by
  rw [zero_le_iff, not_neg_iff, StandardFloat.isNaN_eq] at h
  rw [zero_le_iff, not_neg_iff, isNaN_of_packed (unpacked_sqrt a),
    unpacked_sqrt]
  obtain ⟨hnumber, hsign⟩ := h
  cases hu : unpacked a with
  | notANumber =>
    rw [hu] at hnumber
    cases hnumber
  | zero s => exact ⟨rfl, notNegative_packed trivial⟩
  | infinity s =>
    rw [hu] at hsign
    obtain rfl : s = .positive := hsign
    exact ⟨rfl, notNegative_packed rfl⟩
  | finite s m e hm =>
    rw [hu] at hsign
    obtain rfl : s = .positive := hsign
    exact ⟨isNaN_roundWithAccuracy _ _ _ _,
      notNegative_packed (notNegative_roundWithAccuracy _ _ _)⟩

/-- A product with a positive finite number is a number. -/
theorem zero_le_mul (ha : 0 ≤ a) (hb : 0 < b)
    (hfin : Scalar.isFinite b = true) : 0 ≤ a * b := by
  obtain ⟨hle, hnonzero⟩ := zero_le_of_pos hb
  refine zero_le_iff.mpr ⟨?_,
    mul_not_neg (zero_le_iff.mp ha).2 (zero_le_iff.mp hle).2⟩
  rw [Bool.eq_false_iff, Ne, isNaN_mul_iff_of_zero_le ha hle]
  simp [hnonzero, hfin]

omit [StandardFloat α] in
/-- One over the root of a positive finite number is one, too. -/
theorem recip_sqrt_pos (h : 0 < a) (hfin : Scalar.isFinite a = true) :
    0 < Scalar.recip (Scalar.sqrt a)
      ∧ Scalar.isFinite (Scalar.recip (Scalar.sqrt a)) = true := by
  have hpos := (zero_lt_iff hfin).mp h
  have hbias := mantissaBits_le (α := α)
  have hmin := minExponent_eq (model α)
  have hlow := minExponent_le (model α)
  have hbits := mantissaBits_eq (model α)
  have hrange : Between .positive (model α).minExponent
      ((model α).exponentBias + 1 : ℕ) a :=
    ⟨hfin, two_zpow_le_toReal hpos, by
      rw [zpow_natCast]
      exact (le_abs_self _).trans (abs_toReal_lt a).le⟩
  have hroot :=
    hrange.sqrt (c := (model α).minExponent / 2) (d := (model α).exponentBias)
      (by omega) (by push_cast; omega) (by omega) le_rfl
  have hshare := between_one.div hroot (by omega) (by omega)
  exact ⟨Between.zero_lt hshare, hshare.finite⟩

end FloatingPoint

/-! ## Balancing -/

namespace Balancing

variable {σ α : Type} [Scalar α] [FloatingPoint α] [StandardFloat α]

/-- No factor of a state is negative or no number. -/
structure State.NonNegative (s : State α) : Prop where
  d : ∀ v ∈ s.d, 0 ≤ v
  e : ∀ v ∈ s.e, 0 ≤ v

omit [Scalar α] [FloatingPoint α] [StandardFloat α] in
theorem mem_overwrite {f : α → α} {x v : Array α} {u : α}
    (h : u ∈ Vec.overwrite f x v) :
    u ∈ x ∨ ∃ s ∈ v, u = f s := by
  obtain ⟨i, hi, rfl⟩ := Array.mem_iff_getElem.mp h
  rw [Vec.overwrite, Array.size_mapIdx] at hi
  simp only [Vec.overwrite, Array.getElem_mapIdx]
  split
  · next s hs => exact .inr ⟨s, Array.mem_of_getElem? hs, rfl⟩
  · exact .inl (Array.getElem_mem _)

/-- **Both updates of an iteration give numbers that are not negative**,
whatever sums the operator returned. -/
theorem State.NonNegative.next {s : State α} (hs : s.NonNegative)
    {rows cols : Nat} (hrows : rows < UInt64.size) (hcols : cols < UInt64.size)
    (columnSums rowSums : Array α) (record : BalanceRecord α) :
    State.NonNegative
      { d := rowSums.map (factor (Scalar.ofNat cols))
        e := Vec.overwrite (factor (Scalar.ofNat rows)) s.e columnSums
        sums := columnSums
        record } where
  d v hv := by
    obtain ⟨sum, -, rfl⟩ := Array.mem_map.mp hv
    exact zero_le_factor hcols sum
  e v hv := by
    obtain hold | ⟨sum, -, rfl⟩ := mem_overwrite hv
    · exact hs.e v hold
    · exact zero_le_factor hrows sum

theorem nonNegative_start (d e sums : Array α) :
    (start d e sums).NonNegative := by
  have hones : ∀ x : Array α, ∀ v ∈ Vec.fill x 1, 0 ≤ v := by
    intro x v hv
    obtain ⟨-, -, rfl⟩ := Array.mem_map.mp hv
    exact FloatingPoint.zero_le_one
  exact ⟨hones d, hones e⟩

variable {A : Operator σ α}

omit [FloatingPoint α] [StandardFloat α] in
/-- What a step of a run that succeeds can do: end with the factors as they
are, or go on with factors for some sums that the operator returned. -/
theorem iterate_succ_cases {tol : α} {budget : Nat} {s : State α} {t t' : σ}
    {r : BalanceRun α} {record : BalanceRecord α}
    (h : iterate A tol (budget + 1) s t = .ok (r, t'))
    (hok : r.outcome = .ok record) :
    (r.d = s.d ∧ r.e = s.e)
    ∨ ∃ (columnSums rowSums : Array α) (record' : BalanceRecord α) (u : σ),
      iterate A tol budget
        { d := rowSums.map (factor (Scalar.ofNat A.cols))
          e := Vec.overwrite (factor (Scalar.ofNat A.rows)) s.e columnSums
          sums := columnSums
          record := record' } u = .ok (r, t') := by
  obtain ⟨⟨⟨z, failure⟩, u⟩, hcolumns, hrest⟩ := bind_eq_ok_iff.mp h
  cases failure with
  | some error =>
    cases hrest
    cases hok
  | none =>
    dsimp only at hrest
    split at hrest
    · cases hrest
      exact .inl ⟨rfl, rfl⟩
    · obtain ⟨⟨⟨y, failure⟩, u'⟩, -, hrest⟩ := bind_eq_ok_iff.mp hrest
      cases failure with
      | some error =>
        cases hrest
        cases hok
      | none => exact .inr ⟨z, y, _, u', hrest⟩

/-- The loop keeps it, for any operator. -/
theorem zero_le_iterate (hrows : A.rows < UInt64.size)
    (hcols : A.cols < UInt64.size) (tol : α) (budget : Nat) {s : State α}
    (hs : s.NonNegative) {t t' : σ} {r : BalanceRun α}
    {record : BalanceRecord α} (h : iterate A tol budget s t = .ok (r, t'))
    (hok : r.outcome = .ok record) : (∀ v ∈ r.d, 0 ≤ v) ∧ ∀ v ∈ r.e, 0 ≤ v := by
  induction budget generalizing s t with
  | zero =>
    cases h
    exact ⟨hs.d, hs.e⟩
  | succ budget ih =>
    obtain ⟨hd, he⟩ | ⟨columnSums, rowSums, record', u, hrest⟩ :=
      iterate_succ_cases h hok
    · rw [hd, he]
      exact ⟨hs.d, hs.e⟩
    · exact ih (hs.next hrows hcols columnSums rowSums record') hrest

/-- A run starts with it. -/
theorem zero_le_run (hrows : A.rows < UInt64.size) {d e : Array α}
    {budget : Nat} {tol : α} {t t' : σ} {r : BalanceRun α}
    {record : BalanceRecord α} (h : run A d e budget tol t = .ok (r, t'))
    (hok : r.outcome = .ok record) :
    (∀ v ∈ r.d, 0 ≤ v) ∧ ∀ v ∈ r.e, 0 ≤ v := by
  unfold run at h
  obtain ⟨-, -, h⟩ := StateT.of_lift_bind h
  obtain ⟨-, -, h⟩ := StateT.of_lift_bind h
  obtain ⟨sums, hallocate, h⟩ := StateT.of_lift_bind h
  have hcols := (allocate_eq_ok_iff.mp hallocate).1
  exact zero_le_iterate hrows (hcols.trans (by decide)) tol budget
    (nonNegative_start d e _) h hok

end Balancing

/-! ## Equilibrating -/

namespace SolverMatrix

variable {α : Type} [Scalar α] [FloatingPoint α] [StandardFloat α]
  {M : SolverMatrix α} {d e : Array α}

theorem zero_le_factorsFor (t : Magnitude) {x : Array α} (hx : ∀ v ∈ x, 0 ≤ v) :
    ∀ v ∈ factorsFor t x, 0 ≤ v := by
  cases t with
  | absolute => exact hx
  | square =>
    intro v hv
    obtain ⟨u, hu, rfl⟩ := Array.mem_map.mp hv
    exact zero_le_sqrt (hx u hu)

/-- A share of the norm keeps a diagonal as it should be. -/
theorem zero_le_scale {norm : α} (hpos : 0 < norm)
    (hfin : Scalar.isFinite norm = true) {x : Array α} (hx : ∀ v ∈ x, 0 ≤ v) :
    ∀ v ∈ Vec.scale x (Scalar.recip (Scalar.sqrt norm)), 0 ≤ v := by
  intro v hv
  obtain ⟨u, hu, rfl⟩ := Array.mem_map.mp hv
  obtain ⟨hshare, hshare'⟩ := recip_sqrt_pos hpos hfin
  exact zero_le_mul (hx u hu) hshare hshare'

theorem zero_le_normalize (hd : ∀ v ∈ d, 0 ≤ v) (he : ∀ v ∈ e, 0 ≤ v)
    {R : Rescaled α α} (h : M.normalize d e = .ok R) :
    (∀ v ∈ R.d, 0 ≤ v) ∧ ∀ v ∈ R.e, 0 ≤ v := by
  obtain ⟨estimate, -, h⟩ := bind_eq_ok_iff.mp h
  cases estimate with
  | error error =>
    cases h
    exact ⟨hd, he⟩
  | ok norm =>
    dsimp only at h
    split at h
    · next hnorm =>
      split at h
      · cases h
        exact ⟨hd, he⟩
      · cases h
        exact ⟨zero_le_scale hnorm.1 hnorm.2 hd,
          zero_le_scale hnorm.1 hnorm.2 he⟩
    · cases h
      exact ⟨hd, he⟩

theorem zero_le_rescale (hrows : M.rows < UInt64.size) {t : Magnitude}
    {s s' : Stopwatches × World} {R : Rescaled α (BalanceRecord α × α)}
    (h : M.rescale t d e s = .ok (R, s')) {p : BalanceRecord α × α}
    (hok : R.result = .ok p) :
    (∀ v ∈ R.d, 0 ≤ v) ∧ ∀ v ∈ R.e, 0 ≤ v := by
  unfold rescale at h
  cases hpair : M.pair with
  | error error =>
    rw [hpair] at h
    cases h
    cases hok
  | ok pair =>
    rw [hpair] at h
    obtain ⟨⟨signs, magnitudes⟩, -, h⟩ := StateT.of_lift_bind h
    dsimp only at h
    rw [Timed.timed_bind] at h
    obtain ⟨⟨run, u⟩, hrun, h⟩ := bind_eq_ok_iff.mp h
    dsimp only at h
    cases houtcome : run.outcome with
    | error error =>
      rw [houtcome] at h
      cases h
      cases hok
    | ok record =>
      rw [houtcome] at h
      obtain ⟨hd, he⟩ := Balancing.zero_le_run hrows hrun houtcome
      obtain ⟨signed, -, h⟩ := StateT.of_lift_bind h
      obtain ⟨balanced, -, h⟩ := StateT.of_lift_bind h
      rw [Timed.timed_bind] at h
      obtain ⟨normalized, hnormalized, h⟩ := bind_eq_ok_iff.mp h
      cases h
      exact zero_le_normalize (zero_le_factorsFor t hd)
        (zero_le_factorsFor t he) hnormalized

theorem zero_le_equilibrate [Displayed α] (hrows : M.rows < UInt64.size)
    {w : World} {out : Equilibrated α} (h : M.equilibrate d e w = .ok out)
    {summary : EquilibrationSummary α} (hok : out.result = .ok summary) :
    (∀ v ∈ out.d, 0 ≤ v) ∧ ∀ v ∈ out.e, 0 ≤ v := by
  unfold equilibrate at h
  split at h
  · cases h
    cases hok
  · split at h
    · cases h
      cases hok
    · obtain ⟨-, -, h⟩ := bind_eq_ok_iff.mp h
      obtain ⟨-, -, h⟩ := bind_eq_ok_iff.mp h
      obtain ⟨⟨rescaled, watches, w'⟩, htimed, h⟩ := bind_eq_ok_iff.mp h
      unfold StateT.run at htimed
      rw [Timed.timed_eq] at htimed
      obtain ⟨⟨R, s⟩, hrescale, heq⟩ := bind_eq_ok_iff.mp htimed
      obtain ⟨rfl, -⟩ := Prod.mk.inj (Except.ok.inj heq)
      dsimp only at h
      cases hresult : R.result with
      | error error =>
        rw [hresult] at h
        cases h
        cases hok
      | ok p =>
        rw [hresult] at h
        cases h
        exact zero_le_rescale hrows hrescale hresult

end SolverMatrix

namespace Balancing

variable {α : Type} [Scalar α] [FloatingPoint α] [StandardFloat α]

/-- **No factor is negative or no number.** An operator may return anything
for its products, no numbers, infinities and negative sums included, with a
state that changes as it likes: the factors of a run that ends well compare as
at least zero. And so do those of every equilibration that ends well, after
roots and normalization, whatever values the matrix holds and whatever its
options are. The dimensions of either are machine words. -/
theorem factors_not_negative [Displayed α] :
    (∀ {σ : Type} (A : Operator σ α), A.rows < UInt64.size →
      ∀ (d e : Array α) (budget : Nat) (tol : α) (s s' : σ) (r : BalanceRun α)
        (record : BalanceRecord α),
        run A d e budget tol s = .ok (r, s') → r.outcome = .ok record →
          (∀ v ∈ r.d, 0 ≤ v) ∧ ∀ v ∈ r.e, 0 ≤ v)
    ∧ ∀ M : SolverMatrix α, M.rows < UInt64.size →
      ∀ (d e : Array α) (w : World) (out : Equilibrated α)
        (summary : EquilibrationSummary α),
        M.equilibrate d e w = .ok out → out.result = .ok summary →
          (∀ v ∈ out.d, 0 ≤ v) ∧ ∀ v ∈ out.e, 0 ≤ v :=
  ⟨fun _ hrows _ _ _ _ _ _ _ _ hrun hok => zero_le_run hrows hrun hok,
    fun _ hrows _ _ _ _ _ hout hok =>
    SolverMatrix.zero_le_equilibrate hrows hout hok⟩

/-- An operator whose answers are no number, infinity and minus five in
turn. -/
def erratic : Operator Nat Float where
  rows := 2
  cols := 1
  multiply _ _ _ _ y := fun n =>
    .ok (⟨y.map fun _ => [0 / 0, 1 / 0, -5].getD (n % 3) 0, none⟩, n + 1)

/-- A run of the erratic operator, which ends when no column sum is positive,
and an equilibration of a matrix that holds no number, both infinities and a
zero. -/
theorem factors_not_negative_erratic :
    let input : MatrixInput Float :=
      ⟨.row, 2, 2, 4, #[0, 2, 4], #[0, 1, 0, 1], #[0 / 0, 1 / 0, -1 / 0, 0]⟩
    (erratic.rows < UInt64.size
      ∧ ∃ r s record, run erratic #[7, 7] #[7] 3 0.5 0 = .ok (r, s)
        ∧ r.outcome = .ok record
        ∧ (r.d, r.e) = (#[0, 0], #[1]) ∧ (∀ v ∈ r.d, 0 ≤ v) ∧ ∀ v ∈ r.e, 0 ≤ v)
    ∧ ∃ (M : SolverMatrix Float) (w : World) (out : Equilibrated Float)
        (summary : EquilibrationSummary Float), M.Holds input.matrix
      ∧ M.rows < UInt64.size
      ∧ M.equilibrate #[0, 0] #[0, 0] w = .ok out ∧ out.result = .ok summary
      ∧ (∀ v ∈ out.d, 0 ≤ v) ∧ ∀ v ∈ out.e, 0 ≤ v := by
  intro input
  obtain ⟨hruns, hequilibrations⟩ := factors_not_negative (α := Float)
  refine ⟨⟨by decide, ?_⟩, ?_⟩
  · have hevaluated : (run erratic #[7, 7] #[7] 3 0.5 0).map
        (fun p => (p.1.d, p.1.e, p.1.outcome.isOk))
          = .ok (#[0, 0], #[1], true) := by
      decide +kernel
    obtain ⟨⟨r, s⟩, hrun, hresult⟩ :
        ∃ p, run erratic #[7, 7] #[7] 3 0.5 0 = .ok p
          ∧ (p.1.d, p.1.e, p.1.outcome.isOk) = (#[0, 0], #[1], true) := by
      revert hevaluated
      cases run erratic #[7, 7] #[7] 3 0.5 0 with
      | error violation => exact nofun
      | ok p => exact fun h => ⟨p, rfl, Except.ok.inj h⟩
    obtain ⟨d, e, outcome⟩ := r
    cases outcome with
    | error error => cases hresult
    | ok record =>
      cases hresult
      exact ⟨_, s, record, hrun, rfl, rfl,
        hruns erratic (by decide) _ _ _ _ _ _ _ _ hrun rfl⟩
  · have hcheck : input.check = .ok (.ok ()) := by decide +kernel
    obtain ⟨summary, d', e', s, hrun, -⟩ := Session.run_build_equilibrate
      (FloatingPoint.mul_comm (α := Float)) hcheck ⟨by decide, by decide,
        by decide⟩
      (M := .ofInput input .standard) rfl (by decide) { readings := fun n => n }
      (d := #[0, 0]) (e := #[0, 0]) rfl rfl
    obtain ⟨M, w, out, hM, -, hout, hok, -⟩ :=
      Session.of_run_build_equilibrate hcheck rfl hrun
    exact ⟨M, w, out, summary, hM, hM.rows_lt, hout, hok,
      hequilibrations M hM.rows_lt _ _ _ _ _ hout hok⟩

end Balancing

end Equilibration
