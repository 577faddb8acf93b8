import Equilibration.Decimal.Scientific
import Equilibration.Proofs.JsonValues
import Equilibration.Proofs.Ranges
import Equilibration.Proofs.ShortestDecimals
import Equilibration.Proofs.StoredNumbers

/-!
# ReportNumbers — numbers in scientific notation

A number in a report is rounded on the decimal grid of its own size
(`Decimal.roundTo_spec`): the mantissa is the nearest one, the even one of two,
and if it has a digit too many it is a power of ten and the exponent goes up.
The text is then that of a number literal
(`Decimal.Rounded.padExponent_text`) with one digit before the point and the
asked number of digits behind it, so that reading it as a decimal gives the
rounded number back (`Decimal.Rounded.scaled_literal`).

The exponent is written as it is and padded afterwards. Padding looks for the
mark, leaves what stands before it alone and puts at most a sign and a zero
behind it (`Decimal.padExponent_eq`).
-/

namespace Equilibration

open Json Rounding FloatingPoint

namespace Decimal

/-! ## Rounding -/

/-- `r` is `y` rounded to `places` decimals. -/
structure RoundsTo (places : ℕ) (y : ℝ) (r : Rounded) : Prop where
  lower : 10 ^ places ≤ r.mantissa
  upper : r.mantissa < 10 ^ (places + 1)
  nearest : Nearest (y / 10 ^ (r.exponent - places)) r.mantissa
  /-- The exponent is that of `y`, unless `y` rounds to the next power of
  ten. -/
  carry : ((10 : ℝ) ^ r.exponent ≤ y ∧ y < 10 ^ (r.exponent + 1))
    ∨ y < 10 ^ r.exponent ∧ r.mantissa = 10 ^ places
      ∧ Nearest (y / 10 ^ (r.exponent - 1 - places)) (10 ^ (places + 1))

/-- A number between two powers of ten has its nearest whole number between
them. -/
theorem nearest_bounds {z : ℝ} {m p : ℕ} (h : Nearest z m)
    (hlow : (10 : ℝ) ^ p ≤ z) (hhigh : z < 10 ^ (p + 1)) :
    10 ^ p ≤ m ∧ m ≤ 10 ^ (p + 1) := by
  obtain ⟨hbelow, habove⟩ := abs_le.mp h.near
  constructor
  · have hlt : (10 : ℝ) ^ p < m + 1 := by linarith
    exact Nat.lt_succ_iff.mp (by exact_mod_cast hlt)
  · have hlt : (m : ℝ) < 10 ^ (p + 1) + 1 := by linarith
    exact Nat.lt_succ_iff.mp (by exact_mod_cast hlt)

/-- On the next coarser grid a power of ten is nearest as well, and nothing is
halfway. -/
theorem nearest_div_ten {z : ℝ} {p : ℕ} (h : Nearest z (10 ^ (p + 1))) :
    Nearest (z / 10) (10 ^ p) := by
  have hscaled : |z / 10 - (10 ^ p : ℕ)| = |z - (10 ^ (p + 1) : ℕ)| / 10 := by
    rw [show z / 10 - (10 ^ p : ℕ)
      = (z - (10 ^ (p + 1) : ℕ)) / 10 by push_cast; ring, abs_div,
      abs_of_pos (show (0 : ℝ) < 10 by norm_num)]
  have hnear := h.near
  refine ⟨by linarith, fun hhalf => ?_⟩
  linarith

/-- **Rounding** takes the nearest mantissa, and a carry goes into the
exponent. -/
theorem roundTo_spec (places : ℕ) {r : Ratio} (hnum : r.num ≠ 0) :
    RoundsTo places r.real (roundTo places r) := by
  obtain ⟨hlow, hhigh⟩ := exponent10_spec hnum
  have hten : (10 : ℝ) ≠ 0 := by norm_num
  have hshift :
      ∀ e : ℤ, (r.shift 10 (places - e)).real = r.real / 10 ^ (e - places) := by
    intro e
    rw [Ratio.real_shift, Nat.cast_ofNat, div_eq_mul_inv, ← zpow_neg, neg_sub]
  have hnearest := (r.shift 10 (places - r.exponent10)).nearest_real
  rw [hshift] at hnearest
  have hpos : (0 : ℝ) < 10 ^ (r.exponent10 - places) := zpow_pos (by norm_num) _
  have hscaled_low :
      (10 : ℝ) ^ places ≤ r.real / 10 ^ (r.exponent10 - places) := by
    rw [le_div_iff₀ hpos, ← zpow_natCast, ← zpow_add₀ hten, add_sub_cancel]
    exact hlow
  have hscaled_high :
      r.real / 10 ^ (r.exponent10 - places) < (10 : ℝ) ^ (places + 1) := by
    rw [div_lt_iff₀ hpos, ← zpow_natCast, ← zpow_add₀ hten]
    refine hhigh.trans_eq (congrArg _ ?_)
    push_cast
    ring
  obtain ⟨hlower, hupper⟩ := nearest_bounds hnearest hscaled_low hscaled_high
  unfold roundTo
  dsimp only
  split
  · next hcarry =>
    have hcarry : ((r.shift 10 (places - r.exponent10)).nearest)
        = 10 ^ (places + 1) := hcarry
    rw [hcarry] at hnearest
    have hcoarse : r.real / 10 ^ (r.exponent10 + 1 - places)
        = r.real / 10 ^ (r.exponent10 - places) / 10 := by
      rw [add_sub_right_comm, zpow_add_one₀ hten, div_div]
    refine ⟨le_rfl, Nat.pow_lt_pow_right (by norm_num) (Nat.lt_succ_self _), ?_,
      .inr ?_⟩
    · rw [hcoarse]
      exact nearest_div_ten hnearest
    · refine ⟨hhigh, rfl, ?_⟩
      rwa [add_sub_cancel_right]
  · next hcarry =>
      exact ⟨hlower, hupper.lt_of_ne hcarry, hnearest, .inl ⟨hlow, hhigh⟩⟩

/-! ## Padding -/

/-- The digits of an exponent, at least two. -/
def padDigits (ds : List ℕ) : List ℕ := if ds.length = 1 then 0 :: ds else ds

theorem ofDigits_padDigits (ds : List ℕ) :
    ofDigits (padDigits ds) = ofDigits ds := by
  unfold padDigits
  split
  · simp [ofDigits]
  · rfl

theorem padDigits_ne_nil {ds : List ℕ} (h : ds ≠ []) : padDigits ds ≠ [] := by
  unfold padDigits
  split
  · exact List.cons_ne_nil _ _
  · exact h

theorem lt_ten_of_mem_padDigits {n d : ℕ} (h : d ∈ padDigits (digits n)) :
    d < 10 := by
  unfold padDigits at h
  split at h
  · rcases List.mem_cons.mp h with rfl | h
    · norm_num
    · exact lt_ten_of_mem_digits h
  · exact lt_ten_of_mem_digits h

/-- Two digits are enough, or there are more and the first is not zero. -/
theorem padDigits_digits (n : ℕ) : (padDigits (digits n)).length = 2
    ∨ 2 < (padDigits (digits n)).length
      ∧ (padDigits (digits n)).head? ≠ some 0 := by
  have hpos := length_digits_pos n
  unfold padDigits
  split
  · next hone => exact .inl (by rw [List.length_cons, hone])
  · next hmore =>
    rcases Nat.lt_or_ge 2 (digits n).length with hlong | hshort
    · refine .inr ⟨hlong, head_digits ?_⟩
      rintro rfl
      rw [digits] at hlong
      simp at hlong
    · exact .inl (by omega)

theorem digitChar_ne {d : ℕ} (h : d < 10) :
    digitChar d ≠ 'e' ∧ digitChar d ≠ '-' := by
  decide +revert

/-- **Padding an exponent** leaves the mantissa alone, writes the sign of the
exponent and puts a zero in front of a single digit. -/
theorem padExponent_eq {mantissa : List Char} (hmantissa : 'e' ∉ mantissa)
    (negative : Bool) {ds : List ℕ} (hds : ∀ d ∈ ds, d < 10) (hne : ds ≠ []) :
    padExponent (String.ofList (mantissa
          ++ 'e' :: ((if negative then ['-'] else []) ++ digitChars ds)))
      = String.ofList (mantissa
        ++ 'e'
          :: (if negative then '-' else '+') :: digitChars (padDigits ds)) := by
  have hmarked : ∀ c ∈ mantissa, decide (c ≠ 'e') = true := by
    intro c hc
    rw [decide_eq_true_iff]
    rintro rfl
    exact hmantissa hc
  obtain ⟨d, ds, rfl⟩ := List.exists_cons_of_ne_nil hne
  have hsign : (digitChar d == '-') = false :=
    beq_eq_false_iff_ne.mpr (digitChar_ne (hds d List.mem_cons_self)).2
  unfold padExponent
  rw [String.toList_ofList, List.dropWhile_append_of_pos hmarked,
    List.takeWhile_append_of_pos hmarked]
  -- a sign is or is not there, and so is a second digit
  have hzero : String.singleton (digitChar 0) = "0" := rfl
  cases negative <;> cases ds <;> simp [digitChars, padDigits, hsign, hzero]

/-! ## The literal of a rounded number -/

namespace Rounded

/-- The digits of the mantissa. Those of zero are all zeros. -/
def mantissaDigits (r : Rounded) (places : ℕ) : List ℕ :=
  digits r.mantissa
    ++ List.replicate (places + 1 - (digits r.mantissa).length) 0

/-- The literal with `places` digits behind the point. -/
def literal (r : Rounded) (places : ℕ) (negative : Bool) : NumberLiteral where
  negative := negative
  whole := (r.mantissaDigits places).take 1
  fraction := some ((r.mantissaDigits places).drop 1)
  exponent :=
    some (decide (r.exponent < 0), padDigits (digits r.exponent.natAbs))

variable {r : Rounded} {places : ℕ}

theorem lt_ten_of_mem_mantissaDigits {d : ℕ} (h : d ∈ r.mantissaDigits places) :
    d < 10 := by
  rcases List.mem_append.mp h with h | h
  · exact lt_ten_of_mem_digits h
  · rw [(List.mem_replicate.mp h).2]
    norm_num

/-- The sign, the digits and the point before the mark. -/
def mantissaChars (r : Rounded) (places : ℕ) (negative : Bool) : List Char :=
  (if negative then ['-'] else [])
    ++ digitChars ((r.mantissaDigits places).take 1)
    ++ '.' :: digitChars ((r.mantissaDigits places).drop 1)

theorem not_mem_mantissaChars (r : Rounded) (places : ℕ) (negative : Bool) :
    'e' ∉ r.mantissaChars places negative := by
  have hdigits : ∀ ds : List ℕ, (∀ d ∈ ds, d ∈ r.mantissaDigits places) →
      'e' ∉ digitChars ds := by
    intro ds hds hmem
    obtain ⟨d, hd, heq⟩ := List.mem_map.mp hmem
    exact (digitChar_ne (lt_ten_of_mem_mantissaDigits (hds d hd))).1 heq
  unfold mantissaChars
  simp only [List.mem_append, List.mem_cons, not_or]
  refine ⟨⟨?_, hdigits _ fun d => List.mem_of_mem_take⟩, by decide,
    hdigits _ fun d => List.mem_of_mem_drop⟩
  cases negative <;> decide

/-- Before it is padded, the text has the exponent as it is. -/
theorem text_eq (r : Rounded) (hplaces : places ≠ 0) (negative : Bool) :
    (if negative then "-" else "") ++ r.text places
      = String.ofList (r.mantissaChars places negative
        ++ 'e' :: ((if decide (r.exponent < 0) then ['-'] else [])
          ++ digitChars (digits r.exponent.natAbs))) := by
  have hzero : digitChar 0 = '0' := rfl
  apply String.toList_inj.mp
  unfold text mantissaChars mantissaDigits natText
  cases negative <;> by_cases hneg : r.exponent < 0 <;>
    simp [hplaces, hneg, hzero, digitChars, List.map_take]

theorem padExponent_text (r : Rounded) (hplaces : places ≠ 0)
    (negative : Bool) :
    padExponent ((if negative then "-" else "") ++ r.text places)
      = String.ofList (r.literal places negative).chars := by
  rw [r.text_eq hplaces,
    padExponent_eq (r.not_mem_mantissaChars places negative) _
      (fun d => lt_ten_of_mem_digits) (digits_ne_nil _)]
  rfl

/-- The mantissa is zero or has a digit before the point and `places` behind
it. -/
def Fits (r : Rounded) (places : ℕ) : Prop :=
  r.mantissa = 0 ∨ 10 ^ places ≤ r.mantissa ∧ r.mantissa < 10 ^ (places + 1)

theorem mantissaDigits_of_zero (h : r.mantissa = 0) :
    r.mantissaDigits places = List.replicate (places + 1) 0 := by
  have hdigits : digits 0 = [0] := by
    rw [digits]
    rfl
  rw [mantissaDigits, h, hdigits, List.length_singleton, Nat.add_sub_cancel,
    List.singleton_append, List.replicate_succ]

/-- A mantissa that is not zero is written as it is. -/
theorem mantissaDigits_of_bounds (hlower : 10 ^ places ≤ r.mantissa)
    (hupper : r.mantissa < 10 ^ (places + 1)) :
    (digits r.mantissa).length = places + 1
      ∧ r.mantissaDigits places = digits r.mantissa := by
  have hne : r.mantissa ≠ 0 :=
    (Nat.pow_pos (by norm_num) |>.trans_le hlower).ne'
  have hpos := length_digits_pos r.mantissa
  have hlow : places < (digits r.mantissa).length :=
    (Nat.pow_lt_pow_iff_right (by norm_num)).mp
      (hlower.trans_lt (lt_pow_length_digits _))
  have hhigh : (digits r.mantissa).length - 1 < places + 1 :=
    (Nat.pow_lt_pow_iff_right (by norm_num)).mp
      ((pow_length_digits_le hne).trans_lt hupper)
  have hlength : (digits r.mantissa).length = places + 1 := by omega
  refine ⟨hlength, ?_⟩
  rw [mantissaDigits, hlength, Nat.sub_self, List.replicate_zero,
    List.append_nil]

section Fits

variable (h : r.Fits places)

include h

theorem length_mantissaDigits :
    (r.mantissaDigits places).length = places + 1 := by
  rcases h with hzero | ⟨hlower, hupper⟩
  · rw [mantissaDigits_of_zero hzero, List.length_replicate]
  · obtain ⟨hlength, heq⟩ := mantissaDigits_of_bounds hlower hupper
    rw [heq, hlength]

theorem ofDigits_mantissaDigits :
    ofDigits (r.mantissaDigits places) = r.mantissa := by
  rcases h with hzero | ⟨hlower, hupper⟩
  · rw [mantissaDigits_of_zero hzero, ofDigits_replicate_zero, hzero]
  · rw [(mantissaDigits_of_bounds hlower hupper).2, ofDigits_digits]

/-- The digit before the point is a zero only if it is all of zero. -/
theorem whole_literal : (r.mantissaDigits places).take 1 = [0]
    ∨ (r.mantissaDigits places).take 1 ≠ []
      ∧ ((r.mantissaDigits places).take 1).head? ≠ some 0 := by
  rcases h with hzero | ⟨hlower, hupper⟩
  · left
    rw [mantissaDigits_of_zero hzero]
    rfl
  · right
    have hhead :=
      head_digits (Nat.pow_pos (show 0 < 10 by norm_num) |>.trans_le hlower).ne'
    obtain ⟨d, ds, hcons⟩ :=
      List.exists_cons_of_ne_nil (digits_ne_nil r.mantissa)
    rw [(mantissaDigits_of_bounds hlower hupper).2]
    rw [hcons] at hhead ⊢
    exact ⟨by simp, by simpa using hhead⟩

/-- **The literal writes the rounded number.** -/
theorem scaled_literal (negative : Bool) :
    (r.literal places negative).scaled = ⟨r.mantissa, r.exponent - places⟩ := by
  have hlength : ((r.mantissaDigits places).drop 1).length = places := by
    rw [List.length_drop, length_mantissaDigits h, Nat.add_sub_cancel]
  have hpower : (r.literal places negative).power = r.exponent := by
    simp only [NumberLiteral.power, literal, ofDigits_padDigits,
      ofDigits_digits, decide_eq_true_eq]
    split <;> omega
  rw [NumberLiteral.scaled, hpower]
  simp only [literal, Option.getD_some, List.take_append_drop, hlength,
    ofDigits_mantissaDigits h]

theorem wellFormed_literal (hplaces : places ≠ 0) (negative : Bool) :
    (r.literal places negative).WellFormed := by
  have hlength := length_mantissaDigits h
  refine ⟨fun d hd => ?_, whole_literal h, ?_, ?_⟩
  · exact lt_ten_of_mem_mantissaDigits (List.mem_of_mem_take hd)
  · rintro _ ⟨⟩
    refine ⟨fun hnil => ?_, fun d hd =>
      lt_ten_of_mem_mantissaDigits (List.mem_of_mem_drop hd)⟩
    have := congrArg List.length hnil
    rw [List.length_drop, List.length_nil] at this
    omega
  · rintro _ ⟨⟩
    exact ⟨padDigits_ne_nil (digits_ne_nil _), fun d => lt_ten_of_mem_padDigits⟩

end Fits

end Rounded

end Decimal

/-- Scientific notation with `places` decimals. The exponent has two digits,
or more if it needs them. -/
structure Json.NumberLiteral.IsScientific (places : ℕ) (n : NumberLiteral) :
    Prop where
  wellFormed : n.WellFormed
  whole : n.whole.length = 1
  fraction : ∃ ds, n.fraction = some ds ∧ ds.length = places
  exponent : ∃ e, n.exponent = some e
      ∧ (e.2.length = 2 ∨ 2 < e.2.length ∧ e.2.head? ≠ some 0)

theorem Json.text_number (n : NumberLiteral) :
    (Json.number n).text = String.ofList n.chars :=
  congrArg String.ofList (List.flatMap_singleton _ _)

namespace Decimal

theorem isScientific_literal {places : ℕ} (hplaces : places ≠ 0) {r : Rounded}
    (h : r.Fits places) (negative : Bool) :
    (r.literal places negative).IsScientific places := by
  have hlength := r.length_mantissaDigits h
  refine ⟨Rounded.wellFormed_literal h hplaces negative, ?_, ⟨_, rfl, ?_⟩,
    ⟨_, rfl, ?_⟩⟩
  · show ((r.mantissaDigits places).take 1).length = 1
    rw [List.length_take, hlength]
    omega
  · rw [List.length_drop, hlength, Nat.add_sub_cancel]
  · exact padDigits_digits _

/-! ## Numbers of a report -/

/-- What is shown of the number `y`. -/
structure Shows (places : ℕ) (y : ℝ) (r : Rounded) : Prop where
  nearest : Nearest (|y| / 10 ^ (r.exponent - places)) r.mantissa
  zero : y = 0 → r = ⟨0, 0⟩
  rounded : y ≠ 0 → RoundsTo places |y| r

section Shows

variable {places : ℕ} {y : ℝ}

theorem shows_zero : Shows places 0 ⟨0, 0⟩ where
  nearest := ⟨by simp, fun _ => rfl⟩
  zero _ := rfl
  rounded h := absurd rfl h

theorem RoundsTo.shows {r : Rounded} (hy : y ≠ 0) (h : RoundsTo places |y| r) :
    Shows places y r where
  nearest := h.nearest
  zero h := absurd h hy
  rounded _ := h

theorem Shows.fits {r : Rounded} (h : Shows places y r) : r.Fits places := by
  by_cases hy : y = 0
  · left
    rw [h.zero hy]
  · exact .inr ⟨(h.rounded hy).lower, (h.rounded hy).upper⟩

end Shows

section Stored

variable {α : Type} [Interchange α] [FloatingPoint α] [Stored α]
  {places : ℕ} {x : α}

/-- A report shows the rounded number behind the sign. -/
theorem scientific_of_value (places : ℕ) {negative : Bool} {s : ℕ} {e : ℤ}
    (hx : Interchange.value x = .finite negative s e) :
    ∃ r : Rounded, Shows places (toReal x) r
      ∧ Displayed.scientific places x
        = padExponent ((if negative then "-" else "") ++ r.text places) := by
  have hreal := Stored.toReal_of_value hx
  show ∃ r, _ ∧ Decimal.scientific places (Interchange.value x) = _
  rw [hx]
  rcases Nat.eq_zero_or_pos s with rfl | hs
  · have hzero : toReal x = 0 := by
      rw [hreal, Nat.cast_zero, zero_mul]
      cases negative <;> simp [signed, signOf]
    exact ⟨⟨0, 0⟩, hzero ▸ shows_zero, rfl⟩
  · have hpos : (0 : ℝ) < s * 2 ^ e :=
      mul_pos (by exact_mod_cast hs) (zpow_pos two_pos e)
    have habs : |toReal x| = s * 2 ^ e := by
      rw [hreal, abs_signed, abs_of_pos hpos]
    have hmagnitude : ((Ratio.ofNat s).shift 2 e).real = |toReal x| := by
      rw [Ratio.real_shift, Ratio.real_ofNat, habs, Nat.cast_ofNat]
    have hnum : ((Ratio.ofNat s).shift 2 e).num ≠ 0 := by
      intro hnum
      rw [← habs, ← hmagnitude, Ratio.real, hnum, Nat.cast_zero, zero_div]
        at hpos
      exact lt_irrefl _ hpos
    refine ⟨roundTo places ((Ratio.ofNat s).shift 2 e), RoundsTo.shows
      (abs_pos.mp (habs ▸ hpos)) (hmagnitude ▸ roundTo_spec places hnum), ?_⟩
    unfold Decimal.scientific
    dsimp only
    rw [if_neg hs.ne']

/-- **Numbers in a report are faithful.** The text of a finite number is
scientific notation with the asked number of decimals, the sign that of the
number. Read as a decimal it is the number rounded to its last digit. It is
written with its exponent as it is and then padded, and padding such a text
changes neither the mantissa nor the value of the exponent. -/
theorem scientific_is_faithful (hplaces : 0 < places)
    (hx : Scalar.isFinite x = true) :
    (∃ (n : NumberLiteral) (r : Rounded),
      Displayed.scientific places x
          = padExponent ((if n.negative then "-" else "") ++ r.text places)
        ∧ Displayed.scientific places x = String.ofList n.chars
        ∧ n.IsScientific places
        ∧ Json.ofText? (Displayed.scientific places x) = some (.number n)
        ∧ (∃ s e, Interchange.value x = .finite n.negative s e)
        ∧ n.scaled = ⟨r.mantissa, r.exponent - places⟩
        ∧ Shows places (toReal x) r)
    ∧ ∀ (mantissa : List Char) (negative : Bool) (ds : List ℕ), 'e' ∉ mantissa →
      (∀ d ∈ ds, d < 10) → ds ≠ [] →
      padExponent (String.ofList (mantissa
          ++ 'e' :: ((if negative then ['-'] else []) ++ digitChars ds)))
        = String.ofList (mantissa ++ 'e' :: (if negative then '-' else '+')
          :: digitChars (padDigits ds))
      ∧ ofDigits (padDigits ds) = ofDigits ds := by
  refine ⟨?_, fun mantissa negative ds hmantissa hds hne =>
    ⟨padExponent_eq hmantissa negative hds hne, ofDigits_padDigits ds⟩⟩
  obtain ⟨negative, s, e, hvalue⟩ := Stored.isFinite_iff.mp hx
  obtain ⟨r, hshows, htext⟩ := scientific_of_value places hvalue
  have hchars := htext.trans (r.padExponent_text hplaces.ne' negative)
  have hscientific := isScientific_literal hplaces.ne' hshows.fits negative
  refine ⟨r.literal places negative, r, htext, hchars, hscientific, ?_,
    ⟨s, e, hvalue⟩, Rounded.scaled_literal hshows.fits negative, hshows⟩
  rw [hchars, ← Json.text_number]
  exact Json.ofText?_text hscientific.wellFormed

/-- A double whose mantissa carries, and the negative zero of the other
type. -/
theorem carry_and_negative_zero :
    (∃ (n : NumberLiteral) (r : Rounded), "1.00e+03" = String.ofList n.chars
        ∧ n.IsScientific 2 ∧ Json.ofText? "1.00e+03" = some (.number n)
        ∧ n.scaled = ⟨r.mantissa, r.exponent - 2⟩
        ∧ Shows 2 (toReal (999.5 : Float)) r)
    ∧ (∃ (n : NumberLiteral) (r : Rounded),
      "-0.0000e+00" = String.ofList n.chars
        ∧ n.IsScientific 4 ∧ Json.ofText? "-0.0000e+00" = some (.number n)
        ∧ n.scaled = ⟨r.mantissa, r.exponent - 4⟩
        ∧ Shows 4 (toReal (-0 : Float32)) r)
    ∧ padExponent "1.00e3" = "1.00e+03" := by
  have hcarry : Displayed.scientific 2 (999.5 : Float) = "1.00e+03" := by
    decide +kernel
  have hzero : Displayed.scientific 4 (-0 : Float32) = "-0.0000e+00" := by
    decide +kernel
  obtain ⟨⟨n, r, -, hn, hscientific, hread, -, hscaled, hshows⟩, hpad⟩ :=
    scientific_is_faithful (x := (999.5 : Float)) (show 0 < 2 by decide)
      (by decide +kernel)
  obtain ⟨⟨n', r', -, hn', hscientific', hread', -, hscaled', hshows'⟩, -⟩ :=
    scientific_is_faithful (x := (-0 : Float32)) (show 0 < 4 by decide)
      (by decide +kernel)
  rw [hcarry] at hn hread
  rw [hzero] at hn' hread'
  exact ⟨⟨n, r, hn, hscientific, hread, hscaled, hshows⟩,
    ⟨n', r', hn', hscientific', hread', hscaled', hshows'⟩,
    (hpad ['1', '.', '0', '0'] false [3] (by decide) (by decide) (by decide)).1⟩

end Stored

end Decimal

end Equilibration
