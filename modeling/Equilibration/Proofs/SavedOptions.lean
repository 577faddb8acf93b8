import Equilibration.Proofs.JsonValues
import Equilibration.Proofs.SinglePrecision

/-!
# SavedOptions — options that are written and read again

The text of some options is read as the same options, except for what
becomes of the tolerances (`Options.ofText?_toText`): every option is read
from the member that was written for it. In single precision the tolerances
come back whenever they are finite, in double precision when they are written
with few enough digits (`Options.restored_from_text`). A double with more digits
may come back as its neighbour (`Options.eleventh_not_restored`).
-/

namespace Equilibration

open Decimal

/-! ## Values of options -/

namespace Json

namespace NumberLiteral

theorem wellFormed_ofNat (n : ℕ) : (ofNat n).WellFormed := by
  refine ⟨fun d => lt_ten_of_mem_digits, ?_, nofun, nofun⟩
  by_cases hn : n = 0
  · left
    rw [hn, ofNat, digits]
    rfl
  · exact .inr ⟨digits_ne_nil n, head_digits hn⟩

theorem count?_ofNat (n : UInt32) : (ofNat n.toNat).count? = some n := by
  have hwhole : (ofNat n.toNat).whole? = some n.toNat := by simp [whole?, ofNat]
  have hfits : ¬ ((ofNat n.toNat).negative = true ∨ UInt32.size ≤ n.toNat) := by
    simpa [ofNat] using n.toNat_lt
  unfold count?
  rw [hwhole]
  show (if _ ∨ _ then none else some (UInt32.ofNat n.toNat)) = _
  rw [if_neg hfits, UInt32.ofNat_toNat]

end NumberLiteral

variable {α : Type} [Interchange α]

/-- A choice that a value makes is for the key that was asked for. -/
theorem key_of_choice? {key : OptionKey} {j : Json} {x : Choice α}
    (h : j.choice? key = some x) :
    x.key = key := by
  cases key <;> obtain ⟨v, -, rfl⟩ := Option.map_eq_some_iff.mp h <;> rfl

theorem wellFormed_ofScalar [FloatingPoint α] [Stored α]
    (hf : FineGrids (Interchange.format α)) (x : α) :
    (ofScalar x).WellFormed := by
  by_cases hfin : Scalar.isFinite x = true
  · obtain ⟨negative, s, e, hx⟩ := Stored.isFinite_iff.mp hfin
    rcases Nat.eq_zero_or_pos s with rfl | hs
    · rw [ofScalar_of_zero hx]
      exact ⟨by simp, .inl rfl, by rintro _ ⟨⟩; simp, nofun⟩
    · rw [ofScalar_eq hx hs]
      exact NumberLiteral.wellFormed_ofScaled
        (coefficient_shortest_ne_zero hf hs (Stored.eq_ofBits hx).1.fits)
  · unfold ofScalar
    split
    · next hx => exact absurd (Stored.isFinite_iff.mpr ⟨_, _, _, hx⟩) hfin
    · trivial

end Json

/-! ## Members of the object -/

namespace Choices

variable {α : Type} [Interchange α]

/-- A member with a new name makes the choice of its value. -/
theorem addMember?_name {c : Choices α} {key : OptionKey}
    (h : c.isChosen key = false) (j : Json) :
    c.addMember? (some key.name, j) = (j.choice? key).map c.set := by
  unfold addMember?
  simp only [Option.bind_eq_bind, Option.bind_some, OptionKey.ofName?_name, h,
    Bool.false_eq_true, if_false]
  cases (j.choice? key : Option (Choice α)) <;> rfl

/-- **Members with different names are read one by one.** -/
theorem foldlM_addMember? (v : OptionKey → Json) {keys : List OptionKey}
    (hkeys : keys.Nodup) {c : Choices α}
    (hc : ∀ key ∈ keys, c.isChosen key = false) :
    (keys.map fun key => (some key.name, v key)).foldlM addMember? c
      = (keys.mapM fun key => (v key).choice? key).map fun xs =>
        xs.foldl set c := by
  induction keys generalizing c with
  | nil => rfl
  | cons key keys ih =>
    obtain ⟨hnew, hkeys⟩ := List.nodup_cons.mp hkeys
    rw [List.map_cons, List.foldlM_cons,
      addMember?_name (hc key List.mem_cons_self), List.mapM_cons]
    cases hx : ((v key).choice? key : Option (Choice α)) with
    | none => rfl
    | some x =>
      show ((keys.map fun key => (some key.name, v key)).foldlM addMember?
          (c.set x)) = _
      rw [ih hkeys]
      · cases (keys.mapM fun key =>
            (v key).choice? key : Option (List (Choice α))) <;> rfl
      · intro key' hkey'
        have hne : x.key ≠ key' := by
          rw [Json.key_of_choice? hx]
          rintro rfl
          exact hnew hkey'
        rw [isChosen_set, hc key' (List.mem_cons_of_mem key hkey'),
          Bool.or_false]
        exact decide_eq_false hne

end Choices

namespace Options

variable {α : Type} [Interchange α]

/-- Every option is chosen as it was, but for what becomes of the
tolerances. -/
theorem ofJson?_toJson (o : Options α) : ofJson? o.toJson
    = (Json.reread o.balanceTolerance).bind fun b =>
      (Json.reread o.normTolerance).map fun n =>
      { o with balanceTolerance := b, normTolerance := n } := by
  have hnorm : ∀ p : NormPolicy, (Json.ofName p.name).norm? = some p :=
    NormPolicy.ofName?_name
  have hcount : ∀ n : UInt32, (Json.ofCount n).count? = some n :=
    Json.NumberLiteral.count?_ofNat
  have hkeys : OptionKey.all.Nodup := by decide
  have hnone :
      ∀ key ∈ OptionKey.all, ({} : Choices α).isChosen key = false := by
    rintro key -
    cases key <;> rfl
  show ((OptionKey.all.map fun key => (some key.name, o.valueJson key)).foldlM
    Choices.addMember? {}).map _ = _
  rw [Choices.foldlM_addMember? o.valueJson hkeys hnone]
  simp only [OptionKey.all, List.mapM_cons, List.mapM_nil, Json.choice?,
    valueJson, hnorm, hcount, Json.bool?]
  show Option.map _ (Option.map _ _) = _
  unfold Json.reread
  cases (Json.ofScalar o.balanceTolerance).scalar? (α := α) <;>
    cases (Json.ofScalar o.normTolerance).scalar? (α := α) <;> rfl

variable [FloatingPoint α] [Stored α]

/-- **What a saved text is read as.** -/
theorem ofText?_toText (hf : FineGrids (Interchange.format α)) (o : Options α) :
    ofText? o.toText
      = (Json.reread o.balanceTolerance).bind fun b =>
        (Json.reread o.normTolerance).map fun n =>
        { o with balanceTolerance := b, normTolerance := n } := by
  have hwell : o.toJson.WellFormed :=
    ⟨trivial, trivial, trivial, Json.NumberLiteral.wellFormed_ofNat _,
      Json.wellFormed_ofScalar hf _, Json.NumberLiteral.wellFormed_ofNat _,
      Json.wellFormed_ofScalar hf _, trivial⟩
  rw [ofText?, toText, Json.ofText?_text hwell, Option.bind_some,
    ofJson?_toJson]

/-- The options come back if and only if both tolerances do. -/
theorem ofText?_toText_eq_some_iff (hf : FineGrids (Interchange.format α))
    {o : Options α} :
    ofText? o.toText = some o
      ↔ Json.reread o.balanceTolerance = some o.balanceTolerance
        ∧ Json.reread o.normTolerance = some o.normTolerance := by
  rw [ofText?_toText hf]
  constructor
  · intro h
    obtain ⟨b, hb, h⟩ := Option.bind_eq_some_iff.mp h
    obtain ⟨n, hn, h⟩ := Option.map_eq_some_iff.mp h
    rw [hb, hn, ← h]
    exact ⟨rfl, rfl⟩
  · rintro ⟨hbalance, hnorm⟩
    rw [hbalance, hnorm]
    rfl

/-! ## Restored options -/

/-- **Saved options are restored**, in single precision whenever both
tolerances are finite and in double precision whenever both are written
exactly. Otherwise they are restored just if both tolerances come back, and
nothing but the tolerances can change. -/
theorem restored_from_text (single : Options Float32) (double : Options Float) :
    (Scalar.isFinite single.balanceTolerance = true →
      Scalar.isFinite single.normTolerance = true →
      ofText? single.toText = some single)
    ∧ (Json.Exact double.balanceTolerance → Json.Exact double.normTolerance →
      ofText? double.toText = some double)
    ∧ (ofText? double.toText = some double
      ↔ Json.reread double.balanceTolerance = some double.balanceTolerance
        ∧ Json.reread double.normTolerance = some double.normTolerance)
    ∧ ofText? double.toText
      = (Json.reread double.balanceTolerance).bind fun b =>
        (Json.reread double.normTolerance).map fun n =>
          { double with balanceTolerance := b, normTolerance := n } := by
  have hiff := ofText?_toText_eq_some_iff fineGrids_binary64 (o := double)
  refine ⟨fun hbalance hnorm => ?_, fun hbalance hnorm => ?_, hiff, ?_⟩
  · exact (ofText?_toText_eq_some_iff fineGrids_binary32).mpr
      ⟨Json.reread_single hbalance, Json.reread_single hnorm⟩
  · exact hiff.mpr ⟨Json.reread_of_exact hbalance, Json.reread_of_exact hnorm⟩
  · exact ofText?_toText fineGrids_binary64 double

/-- Options with the smallest positive number and the negative zero. -/
def extreme : Options Float32 :=
  { (standard : Options Float32) with
    balanceTolerance := Float32.ofBits 1
    normTolerance := Float32.ofBits 0x80000000 }

theorem extreme_restored_from_text : ofText? extreme.toText = some extreme
    ∧ ofText? (standard : Options Float).toText
      = some (standard : Options Float) := by
  have h := restored_from_text extreme standard
  exact ⟨h.1 (by decide +kernel) (by decide +kernel),
    h.2.1 (by decide +kernel) (by decide +kernel)⟩

/-- Options with the double nearest to `1 / 11`, which takes sixteen
digits. -/
def eleventh : Options Float :=
  { (standard : Options Float) with
      balanceTolerance := Float.ofBits 0x3fb745d1745d1746 }

/-- The double nearest to `1 / 11` is read as the next one. -/
theorem eleventh_not_restored : Scalar.isFinite eleventh.balanceTolerance = true
    ∧ Scalar.isFinite eleventh.normTolerance = true
    ∧ ofText? eleventh.toText
      = some
        { eleventh with balanceTolerance := Float.ofBits 0x3fb745d1745d1747 }
    ∧ ofText? eleventh.toText ≠ some eleventh := by
  have hbalance : Json.reread eleventh.balanceTolerance
      = some (Float.ofBits 0x3fb745d1745d1747) := by decide +kernel
  have hnorm :
      Json.reread eleventh.normTolerance = some eleventh.normTolerance := by
    decide +kernel
  have hread : ofText? eleventh.toText
      = some { eleventh with
        balanceTolerance := Float.ofBits 0x3fb745d1745d1747 } := by
    rw [ofText?_toText fineGrids_binary64, hbalance, hnorm]
    rfl
  refine ⟨by decide +kernel, by decide +kernel, hread, ?_⟩
  rw [hread]
  decide +kernel

end Options

end Equilibration
