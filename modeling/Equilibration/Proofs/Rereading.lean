import Equilibration.Proofs.ReadNumbers

/-!
# Rereading — numbers that are written and read again

A finite number comes back if the reading of its literal lies in its interval
(`reread_of_double?`). Zero always does, with its sign. A double does if its
literal is read with exact operands (`Exact`); with more digits or a larger
power of ten the reading may be a neighbour of it.
-/

namespace Equilibration

open Rounding FloatingPoint Decimal

namespace Json

variable {α : Type} [Interchange α]

/-- What a scalar is read as after it has been written. -/
def reread (x : α) : Option α := (ofScalar x).scalar?

/-- The literal that a value is. -/
def literal? : Json → Option NumberLiteral
  | .number n => some n
  | _ => none

/-- A scalar that is written with few enough digits and a small enough power
of ten for both to be exact in double precision. -/
def Exact (x : α) : Prop :=
  ∃ n ∈ (ofScalar x).literal?, n.leading.coefficient < 2 ^ 53
    ∧ n.leading.exponent.natAbs ≤ 22

instance (x : α) : Decidable (Exact x) :=
  inferInstanceAs (Decidable (∃ n ∈ (ofScalar x).literal?, _))

theorem ofScalar_eq {x : α} {negative : Bool} {s : ℕ} {e : ℤ}
    (hx : Interchange.value x = .finite negative s e) (hs : 0 < s) :
    ofScalar x = .number (.ofScaled (Interchange.format α) negative
      (shortest (Interchange.format α) s e)) := by
  unfold ofScalar
  rw [hx]
  exact if_neg hs.ne'

theorem ofScalar_of_zero {x : α} {negative : Bool} {e : ℤ}
    (hx : Interchange.value x = .finite negative 0 e) :
    ofScalar x = .number ⟨negative, [0], some [0], none⟩ := by
  unfold ofScalar
  rw [hx]
  exact if_pos rfl

/-- Only a finite number has a literal. -/
theorem exists_value_of_literal? {x : α} {n : NumberLiteral}
    (h : n ∈ (ofScalar x).literal?) :
    ∃ negative s e, Interchange.value x = .finite negative s e := by
  unfold ofScalar at h
  split at h
  · next hx => exact ⟨_, _, _, hx⟩
  · cases h

section Reading

variable [FloatingPoint α] [Stored α] {x : α} {negative : Bool} {s : ℕ} {e : ℤ}

/-- A reading in the interval of a number is converted to it, whatever the
sign. -/
theorem ofDecimal?_eq_some (hx : Interchange.value x = .finite negative s e)
    (hs : 0 < s) {t : Scaled} {d : Float} (hd : t.double? = some d)
    (hfin : Scalar.isFinite d = true)
    (h : (Interchange.format α).Captures s e (toReal d)) :
    Interchange.ofDecimal? negative t = some x := by
  obtain ⟨m, k, -, hvalue, hreal⟩ := Stored.exists_value_of_pos hfin (h.pos hs)
  rw [hreal] at h
  rw [Interchange.ofDecimal?, hd, Option.map_some]
  congr 1
  cases negative
  · exact Stored.convert_eq hx hs hvalue h
  · exact Stored.convert_eq hx hs (Stored.value_neg hvalue) h

/-- **A number comes back** if the reading of its literal lies in its
interval. -/
theorem reread_of_double? (hx : Interchange.value x = .finite negative s e)
    (hs : 0 < s) {d : Float}
    (hd : (NumberLiteral.ofScaled (Interchange.format α) negative
      (shortest (Interchange.format α) s e)).leading.double? = some d)
    (hfin : Scalar.isFinite d = true)
    (h : (Interchange.format α).Captures s e (toReal d)) :
    reread x = some x := by
  rw [reread, ofScalar_eq hx hs]
  show NumberLiteral.scalar? _ = _
  rw [NumberLiteral.scalar?, NumberLiteral.isWord_ofScaled,
    if_neg Bool.false_ne_true, NumberLiteral.negative_ofScaled]
  exact ofDecimal?_eq_some hx hs hd hfin h

theorem double?_zero : (Scaled.mk 0 (-1)).double?.map Interchange.value
    = some (.finite false 0 (-1074)) := by
  decide +kernel

/-- Zero comes back with its sign. -/
theorem reread_of_zero (hx : Interchange.value x = .finite negative 0 e) :
    reread x = some x := by
  obtain ⟨d, hd, hvalue⟩ := Option.map_eq_some_iff.mp double?_zero
  rw [reread, ofScalar_of_zero hx]
  show Interchange.ofDecimal? negative (Scaled.mk 0 (-1)) = _
  rw [Interchange.ofDecimal?, hd, Option.map_some]
  congr 1
  cases negative
  · exact Stored.convert_of_zero hx hvalue
  · exact Stored.convert_of_zero hx (Stored.value_neg hvalue)

end Reading

/-- The digits of a decimal and the zeros behind them. -/
theorem real_scaled_ofScaled (f : Binary.Format) (negative : Bool)
    (t : Scaled) :
    ((NumberLiteral.ofScaled f negative t).scaled.coefficient : ℝ)
      * 10 ^ (NumberLiteral.ofScaled f negative t).scaled.exponent
      = t.coefficient * 10 ^ t.exponent := by
  obtain h | ⟨hexp, -, h⟩ : _ ∨ 0 ≤ t.exponent ∧ _ :=
    NumberLiteral.scaled_ofScaled (f := f) (s := t)
  · rw [h]
  · have hcast : (t.exponent.toNat : ℤ) = t.exponent := Int.toNat_of_nonneg hexp
    rw [h]
    push_cast
    rw [pow_succ, ← zpow_natCast, hcast, zpow_neg_one]
    field_simp

/-- **A double that is written exactly comes back.** -/
theorem reread_of_exact {x : Float} (h : Exact x) : reread x = some x := by
  obtain ⟨n, hn, hcoefficient, hexponent⟩ := h
  obtain ⟨negative, s, e, hx⟩ := exists_value_of_literal? hn
  rcases Nat.eq_zero_or_pos s with rfl | hs
  · exact reread_of_zero hx
  · have hc := (Stored.eq_ofBits hx).1
    have hf : FineGrids (Interchange.format Float) := fineGrids_binary64
    have hcaptured := (closest_shortest (e := e) hf hs hc.fits).captured
    have hne := coefficient_shortest_ne_zero (e := e) hf hs hc.fits
    rw [ofScalar_eq hx hs] at hn
    replace hn := Option.some.inj hn
    have hwell : n.WellFormed := hn ▸ NumberLiteral.wellFormed_ofScaled hne
    rw [← real_scaled_ofScaled (Interchange.format Float) negative, hn,
      ← NumberLiteral.leading_eq_scaled hwell
        (show 10 * n.leading.coefficient + 9 < 2 ^ 64 by omega)] at hcaptured
    obtain ⟨d, hd, hvalue⟩ := value_double? (hcaptured.coefficient_pos hs)
      hcoefficient hexponent hs hc hcaptured
    refine reread_of_double? hx hs (d := d) (by rw [hn]; exact hd)
      (Stored.isFinite_iff.mpr ⟨_, _, _, hvalue⟩) ?_
    rw [Stored.toReal_of_value hvalue]
    exact Binary.Format.captures_self hs

end Json

end Equilibration
