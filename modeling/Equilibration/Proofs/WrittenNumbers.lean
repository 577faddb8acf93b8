import Mathlib.Data.Nat.Digits.Lemmas
import Equilibration.Options.Json
import Equilibration.Proofs.JsonTokens

/-!
# WrittenNumbers — the literal of a decimal

A decimal is written plainly or with an exponent. In either notation the
literal is well formed, writes the decimal itself up to zeros at its end
(`scaled_ofScaled`), and is never taken for a plain whole number. The
reader takes all of its digits as long as they fit a machine word
(`leading_eq_scaled`).
-/

namespace Equilibration

namespace Decimal

/-! ## Digits -/

/-- The digits as the library has them, the least significant first. -/
theorem digits_eq_reverse {n : Nat} (hn : n ≠ 0) :
    digits n = (Nat.digits 10 n).reverse := by
  fun_induction digits n with
  | case1 n h => rw [Nat.digits_of_lt 10 n hn h]; rfl
  | case2 n h ih =>
    rw [ih (by omega), Nat.digits_eq_cons_digits_div (by norm_num) hn,
      List.reverse_cons]

theorem length_digits_pos (n : Nat) : 0 < (digits n).length :=
  List.length_pos_of_ne_nil (digits_ne_nil n)

theorem lt_pow_length_digits (n : Nat) : n < 10 ^ (digits n).length := by
  by_cases hn : n = 0
  · rw [hn]
    exact Nat.pow_pos (by norm_num)
  · rw [digits_eq_reverse hn, List.length_reverse]
    exact Nat.lt_base_pow_length_digits (by norm_num)

theorem pow_length_digits_le {n : Nat} (hn : n ≠ 0) :
    10 ^ ((digits n).length - 1) ≤ n := by
  have h := Nat.base_pow_length_digits_le 10 n (by norm_num) hn
  rw [digits_eq_reverse hn, List.length_reverse]
  have hpos : 0 < (Nat.digits 10 n).length :=
    List.length_pos_of_ne_nil (Nat.digits_ne_nil_iff_ne_zero.mpr hn)
  obtain ⟨k, hk⟩ := Nat.exists_eq_succ_of_ne_zero hpos.ne'
  rw [hk, pow_succ] at h
  rw [hk, Nat.succ_sub_one]
  omega

/-- A positive number does not start with a zero. -/
theorem head_digits {n : Nat} (hn : n ≠ 0) : (digits n).head? ≠ some 0 := by
  rw [digits_eq_reverse hn, List.head?_reverse]
  intro h
  exact Nat.getLast_digit_ne_zero 10 hn (Option.some.inj
    ((List.getLast?_eq_some_getLast
      (Nat.digits_ne_nil_iff_ne_zero.mpr hn)).symm.trans h))

theorem ofDigits_append (a b : List Nat) :
    ofDigits (a ++ b) = ofDigits a * 10 ^ b.length + ofDigits b := by
  induction b using List.reverseRecOn with
  | nil => simp [ofDigits]
  | append_singleton b d ih =>
    rw [← List.append_assoc, ofDigits_append_singleton,
      ofDigits_append_singleton, ih, List.length_append, List.length_singleton,
      pow_succ]
    ring

theorem ofDigits_cons (d : Nat) (ds : List Nat) :
    ofDigits (d :: ds) = d * 10 ^ ds.length + ofDigits ds := by
  rw [← List.singleton_append, ofDigits_append]
  simp [ofDigits]

theorem ofDigits_replicate_zero (n : Nat) :
    ofDigits (List.replicate n 0) = 0 := by
  induction n with
  | zero => rfl
  | succ n ih => rw [List.replicate_succ', ofDigits_append_singleton, ih]

/-! ## Leading digits -/

/-- Either all digits are taken, or the number is so large that one more
digit did not fit. -/
theorem appendDigits_cases (n : Nat) {ds : List Nat} (hds : ∀ d ∈ ds, d < 10) :
    appendDigits n ds = (n * 10 ^ ds.length + ofDigits ds, ds.length)
      ∨ UInt64.size ≤ 10 * (appendDigits n ds).1 + 9 := by
  induction ds generalizing n with
  | nil => left; simp [appendDigits, ofDigits]
  | cons d ds ih =>
    have hd := hds d List.mem_cons_self
    rw [appendDigits]
    split
    · rcases ih (10 * n + d) fun d' hd' =>
        hds d' (List.mem_cons_of_mem d hd') with h | h
      · left
        rw [h, ofDigits_cons, List.length_cons, pow_succ]
        ext1
        · dsimp only
          ring
        · rfl
      · exact .inr h
    · right
      dsimp only
      omega

theorem appendDigits_le (n : Nat) (ds : List Nat) :
    (appendDigits n ds).1 ≤ n * 10 ^ ds.length + ofDigits ds := by
  induction ds generalizing n with
  | nil => simp [appendDigits, ofDigits]
  | cons d ds ih =>
    rw [appendDigits, ofDigits_cons, List.length_cons, pow_succ]
    split
    · refine (ih (10 * n + d)).trans (le_of_eq ?_)
      ring
    · dsimp only
      nlinarith [Nat.one_le_pow ds.length 10 (by norm_num)]

theorem le_appendDigits (n : Nat) (ds : List Nat) :
    n ≤ (appendDigits n ds).1 := by
  induction ds generalizing n with
  | nil => exact le_rfl
  | cons d ds ih =>
    rw [appendDigits]
    split
    · exact (by omega : n ≤ 10 * n + d).trans (ih _)
    · exact le_rfl

end Decimal

namespace Json.NumberLiteral

open Decimal

/-- The decimal that a literal writes, with all its digits. -/
def scaled (n : NumberLiteral) : Scaled where
  coefficient := ofDigits (n.whole ++ n.fraction.getD [])
  exponent := n.power - (n.fraction.getD []).length

/-- A reader that had room for one more digit took them all. -/
theorem leading_eq_scaled {n : NumberLiteral} (hn : n.WellFormed)
    (h : 10 * n.leading.coefficient + 9 < UInt64.size) :
    n.leading = n.scaled := by
  have hfraction : ∀ d ∈ n.fraction.getD [], d < 10 := by
    intro d hd
    cases hf : n.fraction with
    | none => rw [hf] at hd; cases hd
    | some ds => exact (hn.fraction_form ds hf).2 d (by rwa [hf] at hd)
  unfold leading Scaled.leading scaled at *
  dsimp only at *
  have hle := le_appendDigits (appendDigits 0 n.whole).1 (n.fraction.getD [])
  have hwhole := (appendDigits_cases 0 hn.whole_digits).resolve_right (by omega)
  have hrest :=
    (appendDigits_cases (appendDigits 0 n.whole).1 hfraction).resolve_right
      (by omega)
  rw [hrest, hwhole, ofDigits_append]
  simp

/-- What is taken is no larger than the number of all digits. -/
theorem leading_coefficient_le (n : NumberLiteral) :
    n.leading.coefficient ≤ n.scaled.coefficient := by
  unfold leading Scaled.leading scaled
  dsimp only
  rw [ofDigits_append]
  refine (appendDigits_le _ _).trans
    (Nat.add_le_add_right (Nat.mul_le_mul_right _ ?_) _)
  simpa using appendDigits_le 0 n.whole

/-! ## Notations -/

section OfScaled

variable {f : Binary.Format} {negative : Bool} {s : Scaled}
  (hs : s.coefficient ≠ 0)

theorem negative_ofScaled : (ofScaled f negative s).negative = negative := by
  unfold ofScaled
  dsimp only
  split
  · split <;> rfl
  · rfl

/-- A literal with a point or an exponent is no plain whole number. -/
theorem isWord_ofScaled : (ofScaled f negative s).isWord = false := by
  have hwhole : (ofScaled f negative s).whole? = none := by
    unfold ofScaled whole?
    dsimp only
    split
    · split <;> rfl
    · rw [if_neg]
      simp
  rw [isWord, hwhole]

/-- Zeros around the digits of a number are digits. -/
theorem lt_ten_of_mem_padded {c n m d : ℕ}
    (hd : d ∈ List.replicate n 0 ++ (digits c ++ List.replicate m 0)) :
    d < 10 := by
  simp only [List.mem_append, List.mem_replicate] at hd
  rcases hd with ⟨-, rfl⟩ | hd | ⟨-, rfl⟩
  · norm_num
  · exact lt_ten_of_mem_digits hd
  · norm_num

include hs

/-- The first digits of a number are a whole part. -/
theorem take_digits (n m : ℕ) :
    (digits s.coefficient ++ List.replicate m 0).take (n + 1) ≠ []
      ∧ ((digits s.coefficient ++ List.replicate m 0).take (n + 1)).head?
        ≠ some 0 := by
  have hhead := head_digits hs
  obtain ⟨d, ds, hcons⟩ :=
    List.exists_cons_of_ne_nil (digits_ne_nil s.coefficient)
  rw [hcons] at hhead ⊢
  exact ⟨by simp, by simpa using hhead⟩

theorem wellFormed_ofScaled : (ofScaled f negative s).WellFormed := by
  unfold ofScaled
  dsimp only
  split
  · split
    · -- only zeros stand before the first digit
      refine ⟨by simp, .inl rfl, ?_, nofun⟩
      intro ds hds
      cases hds
      refine ⟨List.append_ne_nil_of_right_ne_nil _ (digits_ne_nil _),
        fun d hd => ?_⟩
      exact lt_ten_of_mem_padded (m := 0) (by simpa using hd)
    · -- the first digit stands before the point
      refine ⟨fun d hd => ?_, .inr (take_digits hs _ _), ?_, nofun⟩
      · exact lt_ten_of_mem_padded (n := 0) (List.mem_of_mem_take hd)
      · intro ds hds
        cases hds
        split
        · exact ⟨by simp, by simp⟩
        · next hne =>
          exact ⟨hne, fun d hd =>
            lt_ten_of_mem_padded (n := 0) (List.mem_of_mem_drop hd)⟩
  · refine ⟨fun d hd => ?_, .inr (by simpa using take_digits hs 0 0), ?_, ?_⟩
    · exact lt_ten_of_mem_digits (List.mem_of_mem_take hd)
    · intro ds hds
      split at hds
      · cases hds
      · next hne =>
        cases hds
        exact ⟨hne, fun d hd => lt_ten_of_mem_digits (List.mem_of_mem_drop hd)⟩
    · intro e he
      cases he
      exact ⟨digits_ne_nil _, fun d => lt_ten_of_mem_digits⟩

omit hs in
/-- A literal writes its decimal. Only a whole number that is written plainly
has zeros at its end, up to the first place behind the point. -/
theorem scaled_ofScaled : (ofScaled f negative s).scaled = s
    ∨ 0 ≤ s.exponent ∧ s.firstExponent ≤ (plainRange f).2
      ∧ (ofScaled f negative s).scaled
        = ⟨s.coefficient * 10 ^ (s.exponent.toNat + 1), -1⟩ := by
  have hpos := length_digits_pos s.coefficient
  unfold ofScaled
  dsimp only
  split
  · next hplain =>
    split
    · next hneg =>
      left
      simp only [scaled, power, Option.getD_some]
      rw [ofDigits_append, ofDigits_append, ofDigits_replicate_zero,
        ofDigits_digits]
      unfold Scaled.firstExponent at hneg ⊢
      refine congrArg₂ Scaled.mk ?_ ?_
      · simp [ofDigits]
      · simp only [List.length_append, List.length_replicate]
        omega
    · next hnonneg =>
      unfold Scaled.firstExponent at hplain hnonneg ⊢
      by_cases hexp : 0 ≤ s.exponent
      · -- a whole number, with its zeros and one behind the point
        have hlength :
            (s.exponent + ((digits s.coefficient).length - 1 : Nat)).toNat + 1
              = (digits s.coefficient
                ++ List.replicate s.exponent.toNat 0).length := by
          rw [List.length_append, List.length_replicate]
          omega
        refine .inr ⟨hexp, hplain.2, ?_⟩
        simp only [scaled, power, Option.getD_some, hlength, List.take_length,
          List.drop_length, if_true]
        rw [ofDigits_append, ofDigits_append, ofDigits_replicate_zero,
          ofDigits_digits, List.length_replicate, pow_succ]
        refine congrArg₂ Scaled.mk ?_ ?_
        · simp [ofDigits]
          ring
        · simp
      · left
        have hzeros : List.replicate s.exponent.toNat 0 = [] := by
          rw [Int.toNat_of_nonpos (by omega)]
          rfl
        have hne : (digits s.coefficient).drop
            ((s.exponent + ((digits s.coefficient).length - 1 : Nat)).toNat + 1)
              ≠ [] := by
          intro h
          have := congrArg List.length h
          rw [List.length_drop, List.length_nil] at this
          omega
        simp only [scaled, power, Option.getD_some, hzeros, List.append_nil,
          if_neg hne, List.take_append_drop, ofDigits_digits, List.length_drop]
        refine congrArg₂ Scaled.mk ?_ ?_
        · rfl
        · omega
  · left
    have hfraction : (if (digits s.coefficient).drop 1 = [] then none
        else some ((digits s.coefficient).drop 1)).getD []
          = (digits s.coefficient).drop 1 := by
      split
      · next h => rw [h]; rfl
      · rfl
    simp only [scaled, power, hfraction, List.take_append_drop, ofDigits_digits,
      List.length_drop]
    refine congrArg₂ Scaled.mk ?_ ?_
    · rfl
    · unfold Scaled.firstExponent
      split
      · next h =>
        have := of_decide_eq_true h
        omega
      · next h =>
        have := of_decide_eq_false (Bool.not_eq_true _ ▸ h)
        omega

end OfScaled

end Json.NumberLiteral

end Equilibration
