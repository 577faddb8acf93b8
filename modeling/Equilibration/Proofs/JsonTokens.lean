import Equilibration.Json.Token

/-!
# JsonTokens — scanning undoes writing

The characters of a list of tokens are read as that list
(`Token.scanAll_flatMap`). The only tokens that do not say where they end
are numbers, so a number must be followed by something that ends it
(`Token.Separated`). Strings come back through their escapes, half of a
surrogate pair as a string without a text.
-/

namespace Equilibration.Json

open Decimal (digitOf? digitChar digitOf?_digitChar)

/-! ## Digits -/

/-- The text does not go on with a digit. -/
def NoDigit (cs : List Char) : Prop := ∀ c ∈ cs.head?, digitOf? c = none

/-- A number that stands before the text ends there. -/
def EndsNumber (cs : List Char) : Prop :=
  NoDigit cs ∧ ∀ c ∈ cs.head?, c ≠ '.' ∧ c ≠ 'e' ∧ c ≠ 'E'

theorem scanDigits_of_noDigit {rest : List Char} (h : NoDigit rest) :
    scanDigits rest = ([], rest) := by
  cases rest with
  | nil => rfl
  | cons c rest => simp [scanDigits, h c rfl]

theorem scanDigits_append {ds : List Nat} (hds : ∀ d ∈ ds, d < 10)
    {rest : List Char} (h : NoDigit rest) :
    scanDigits (digitChars ds ++ rest) = (ds, rest) := by
  induction ds with
  | nil => exact scanDigits_of_noDigit h
  | cons d ds ih =>
    have hd : digitOf? (digitChar d) = some d :=
      digitOf?_digitChar (hds d List.mem_cons_self)
    have hrest := ih fun d' hd' => hds d' (List.mem_cons_of_mem d hd')
    show scanDigits (digitChar d :: (digitChars ds ++ rest)) = _
    simp [scanDigits, hd, hrest]

theorem scanDigits1_append {ds : List Nat} (hne : ds ≠ [])
    (hds : ∀ d ∈ ds, d < 10) {rest : List Char} (h : NoDigit rest) :
    scanDigits1 (digitChars ds ++ rest) = some (ds, rest) := by
  unfold scanDigits1
  rw [scanDigits_append hds h]
  cases ds with
  | nil => exact absurd rfl hne
  | cons d ds => rfl

/-! ## Numbers -/

/-- A literal that the grammar allows. -/
structure NumberLiteral.WellFormed (n : NumberLiteral) : Prop where
  whole_digits : ∀ d ∈ n.whole, d < 10
  /-- There is a digit before the point, and the first one is zero only if it
  is the only one. -/
  whole_form : n.whole = [0] ∨ n.whole ≠ [] ∧ n.whole.head? ≠ some 0
  fraction_form : ∀ ds ∈ n.fraction, ds ≠ [] ∧ ∀ d ∈ ds, d < 10
  exponent_form : ∀ e ∈ n.exponent, e.2 ≠ [] ∧ ∀ d ∈ e.2, d < 10

theorem digitChar_eq_zero {d : Nat} (h : d < 10) (h0 : d ≠ 0) :
    digitChar d ≠ '0' := by
  intro heq
  have := digitOf?_digitChar h
  rw [heq] at this
  exact h0 (Option.some.inj this).symm

theorem scanWhole_append {ds : List Nat} (hds : ∀ d ∈ ds, d < 10)
    (hform : ds = [0] ∨ ds ≠ [] ∧ ds.head? ≠ some 0) {rest : List Char}
    (h : NoDigit rest) :
    scanWhole (digitChars ds ++ rest) = some (ds, rest) := by
  rcases hform with rfl | ⟨hne, hhead⟩
  · rfl
  · rw [← scanDigits1_append hne hds h]
    cases ds with
    | nil => exact absurd rfl hne
    | cons d ds =>
      have hd : digitChar d ≠ '0' :=
        digitChar_eq_zero (hds d List.mem_cons_self) fun h0 =>
          hhead (congrArg some h0)
      show scanWhole (digitChar d :: (digitChars ds ++ rest)) = _
      unfold scanWhole
      split
      · next heq => exact absurd (List.cons.inj heq).1 hd
      · rfl

/-- The characters after the digits before the point. -/
def fractionChars : Option (List Nat) → List Char
  | some ds => '.' :: digitChars ds
  | none => []

/-- The characters after the fraction. -/
def exponentChars : Option (Bool × List Nat) → List Char
  | some (negative, ds) =>
    'e' :: (if negative then '-' else '+') :: digitChars ds
  | none => []

theorem scanExponent_append {e : Option (Bool × List Nat)}
    (he : ∀ p ∈ e, p.2 ≠ [] ∧ ∀ d ∈ p.2, d < 10) {rest : List Char}
    (h : EndsNumber rest) :
    scanExponent (exponentChars e ++ rest) = some (e, rest) := by
  cases e with
  | none =>
    cases rest with
    | nil => rfl
    | cons c rest =>
      obtain ⟨-, he, hE⟩ := h.2 c rfl
      simp [exponentChars, scanExponent, he, hE]
  | some p =>
    obtain ⟨negative, ds⟩ := p
    obtain ⟨hne, hds⟩ := he _ rfl
    have hdigits := scanDigits1_append hne hds h.1
    cases negative
      <;> simp [exponentChars, scanExponent, scanExponentDigits, hdigits]

theorem noDigit_exponent {e : Option (Bool × List Nat)} {rest : List Char}
    (h : EndsNumber rest) :
    NoDigit (exponentChars e ++ rest) := by
  cases e with
  | none => exact h.1
  | some p =>
    intro c hc
    cases hc
    rfl

theorem scanFraction_append {f : Option (List Nat)}
    {e : Option (Bool × List Nat)} (hf : ∀ ds ∈ f, ds ≠ [] ∧ ∀ d ∈ ds, d < 10)
    {rest : List Char} (h : EndsNumber rest) :
    scanFraction (fractionChars f ++ (exponentChars e ++ rest))
      = some (f, exponentChars e ++ rest) := by
  cases f with
  | none =>
    cases e with
    | none =>
      cases rest with
      | nil => rfl
      | cons c rest =>
        have hc := (h.2 c rfl).1
        show scanFraction (c :: rest) = _
        unfold scanFraction
        split
        · next heq => exact absurd (List.cons.inj heq).1 hc
        · rfl
    | some p => rfl
  | some ds =>
    obtain ⟨hne, hds⟩ := hf ds rfl
    have hdigits := scanDigits1_append hne hds (noDigit_exponent (e := e) h)
    simp [fractionChars, scanFraction, hdigits]

theorem noDigit_fraction {f : Option (List Nat)} {e : Option (Bool × List Nat)}
    {rest : List Char} (h : EndsNumber rest) :
    NoDigit (fractionChars f ++ (exponentChars e ++ rest)) := by
  cases f with
  | none => exact noDigit_exponent h
  | some ds =>
    intro c hc
    cases hc
    rfl

/-- The characters of a literal after its sign. -/
def NumberLiteral.magnitudeChars (n : NumberLiteral) : List Char :=
  digitChars n.whole ++ (fractionChars n.fraction ++ exponentChars n.exponent)

theorem NumberLiteral.chars_eq (n : NumberLiteral) :
    n.chars = (if n.negative then ['-'] else []) ++ n.magnitudeChars := by
  unfold chars magnitudeChars
  rw [List.append_assoc, List.append_assoc]
  rfl

theorem scanMagnitude_append {n : NumberLiteral} (hn : n.WellFormed)
    {rest : List Char} (h : EndsNumber rest) :
    scanMagnitude n.negative (n.magnitudeChars ++ rest) = some (n, rest) := by
  have hwhole := scanWhole_append hn.whole_digits hn.whole_form
    (noDigit_fraction (f := n.fraction) (e := n.exponent) h)
  have hfraction := scanFraction_append (e := n.exponent) hn.fraction_form h
  have hexponent := scanExponent_append hn.exponent_form h
  unfold scanMagnitude NumberLiteral.magnitudeChars
  rw [List.append_assoc, List.append_assoc, hwhole]
  show (scanFraction _ >>= _) = _
  rw [hfraction]
  show (scanExponent _ >>= _) = _
  rw [hexponent]
  rfl

/-! ## Strings -/

/-- The piece that the character of a string is read as. -/
def pieceOf (c : Char) : Piece :=
  if c = '"' ∨ c = '\\' then .char c
  else if c.toNat < 0x20 then .unit c.toNat
  else .char c

theorem unitOf?_hexChar {n : Nat} (h : n < 32) :
    unitOf? '0' '0' (hexChar (n / 16)) (hexChar (n % 16)) = some n := by
  have hall : ∀ n < 32, unitOf? '0' '0' (hexChar (n / 16)) (hexChar (n % 16))
      = some n := by decide
  exact hall n h

theorem scanString_charText (c : Char) {rest rest' : List Char}
    {pieces : List Piece} (h : scanString rest = some (pieces, rest')) :
    scanString (charText c ++ rest) = some (pieceOf c :: pieces, rest') := by
  unfold charText pieceOf
  split
  · next hc =>
    rcases hc with rfl | rfl <;> simp [scanString, escapeOf?, h]
  · next hc =>
    obtain ⟨hquote, hslash⟩ := not_or.mp hc
    split
    · next hcontrol => simp [scanString, unitOf?_hexChar hcontrol, h]
    · next hcontrol => simp [scanString, hslash, hcontrol, h]

theorem scanString_text (cs : List Char) (rest : List Char) :
    scanString (cs.flatMap charText ++ '"' :: rest)
      = some (cs.map pieceOf, rest) := by
  induction cs with
  | nil => rfl
  | cons c cs ih =>
    rw [List.flatMap_cons, List.append_assoc]
    exact scanString_charText c ih

/-- No character that is written as a unit is half of a surrogate pair. -/
theorem joinPieces_unit {n : Nat} (h : n < 32) (pieces : List Piece) :
    joinPieces (.unit n :: pieces)
      = (joinPieces pieces).map (Char.ofNat n :: ·) := by
  have hhigh : isHighSurrogate n = false := by simp [isHighSurrogate]; omega
  have hlow : isLowSurrogate n = false := by simp [isLowSurrogate]; omega
  cases pieces with
  | nil => simp [joinPieces, hhigh, hlow]
  | cons p pieces => cases p <;> simp [joinPieces, hhigh, hlow]

theorem joinPieces_map_pieceOf (cs : List Char) :
    joinPieces (cs.map pieceOf) = some cs := by
  induction cs with
  | nil => rfl
  | cons c cs ih =>
    rw [List.map_cons, pieceOf]
    split
    · simp [joinPieces, ih]
    · split
      · next hcontrol => simp [joinPieces_unit hcontrol, ih]
      · simp [joinPieces, ih]

/-! ## Tokens -/

namespace Token

/-- A token that the grammar allows. -/
def WellFormed : Token → Prop
  | .number n => n.WellFormed
  | _ => True

/-- Whether a number that stands before the token ends there. -/
def Separates : Token → Prop
  | .closeBrace | .closeBracket | .comma | .colon => True
  | _ => False

/-- Every token is allowed, and every number is followed by a token that
separates it from the rest. -/
def Separated : List Token → Prop
  | [] => True
  | .number n :: ts =>
    n.WellFormed ∧ (∀ t ∈ ts.head?, t.Separates) ∧ Separated ts
  | _ :: ts => Separated ts

theorem endsNumber_of_separates {t : Token} (h : t.Separates)
    (rest : List Char) :
    EndsNumber (t.chars ++ rest) := by
  cases t <;> first | exact h.elim | skip
  all_goals
    refine ⟨?_, ?_⟩
    · intro c hc
      cases hc
      rfl
    · intro c hc
      cases hc
      decide

end Token

theorem whole_eq_cons {n : NumberLiteral} (hn : n.WellFormed) :
    ∃ d ds, n.whole = d :: ds := by
  rcases hn.whole_form with hform | ⟨hne, -⟩
  · exact ⟨0, [], hform⟩
  · exact List.exists_cons_of_ne_nil hne

/-- The first character of a number is none of those that tokens of other
kinds start with. -/
theorem scanToken_digit {d : Nat} (h : d < 10) (rest : List Char) :
    scanToken (digitChar d :: rest)
      = (scanMagnitude false (digitChar d :: rest)).map fun r =>
        (.number r.1, r.2) := by
  match d, h with
  | 0, _ | 1, _ | 2, _ | 3, _ | 4, _ | 5, _ | 6, _ | 7, _ | 8, _ | 9, _ => rfl

theorem scanToken_number {n : NumberLiteral} (hn : n.WellFormed)
    {rest : List Char} (h : EndsNumber rest) :
    scanToken (n.chars ++ rest) = some (.number n, rest) := by
  have hscan := scanMagnitude_append hn h
  rw [n.chars_eq]
  cases hnegative : n.negative with
  | true =>
    rw [hnegative] at hscan
    show (scanMagnitude true (n.magnitudeChars ++ rest)).map _ = _
    rw [hscan]
    rfl
  | false =>
    rw [hnegative] at hscan
    obtain ⟨d, ds, hwhole⟩ := whole_eq_cons hn
    have hd : d < 10 := hn.whole_digits d (hwhole ▸ List.mem_cons_self)
    have hcons : n.magnitudeChars = digitChar d :: (digitChars ds
        ++ (fractionChars n.fraction ++ exponentChars n.exponent)) := by
      rw [NumberLiteral.magnitudeChars, hwhole]
      rfl
    show scanToken (n.magnitudeChars ++ rest) = _
    rw [hcons] at hscan ⊢
    rw [List.cons_append] at hscan ⊢
    rw [scanToken_digit hd, hscan]
    rfl

theorem scanToken_string (s : Option String) (rest : List Char) :
    scanToken ((Token.string s).chars ++ rest) = some (.string s, rest) := by
  cases s with
  | none => rfl
  | some s =>
    show (scanString ((s.toList.flatMap charText ++ ['"']) ++ rest)).map _ = _
    rw [List.append_assoc, List.singleton_append, scanString_text]
    simp [joinPieces_map_pieceOf]

theorem scanToken_chars {t : Token} (ht : t.WellFormed) {rest : List Char}
    (h : ∀ n, t = .number n → EndsNumber rest) :
    scanToken (t.chars ++ rest) = some (t, rest) := by
  cases t with
  | number n => exact scanToken_number ht (h n rfl)
  | string s => exact scanToken_string s rest
  | bool b => cases b <;> rfl
  | openBrace | closeBrace | openBracket | closeBracket | colon | comma
  | null => rfl

theorem digitChar_not_blank {d : Nat} (h : d < 10) :
    isBlank (digitChar d) = false := by
  decide +revert

/-- No token starts with a blank. -/
theorem chars_eq_cons {t : Token} (ht : t.WellFormed) :
    ∃ c cs, t.chars = c :: cs ∧ isBlank c = false := by
  cases t with
  | number n =>
    obtain ⟨d, ds, hwhole⟩ := whole_eq_cons ht
    have hd : d < 10 := ht.whole_digits d (hwhole ▸ List.mem_cons_self)
    show ∃ c cs, n.chars = c :: cs ∧ _
    rw [n.chars_eq, NumberLiteral.magnitudeChars, hwhole]
    cases n.negative with
    | true => exact ⟨_, _, rfl, rfl⟩
    | false => exact ⟨_, _, rfl, digitChar_not_blank hd⟩
  | string s => cases s <;> exact ⟨_, _, rfl, rfl⟩
  | bool b => cases b <;> exact ⟨_, _, rfl, rfl⟩
  | openBrace | closeBrace | openBracket | closeBracket | colon | comma
  | null => exact ⟨_, _, rfl, rfl⟩

namespace Token

/-- Scanning goes on after a token. -/
theorem scanAll_token {cs rest : List Char} {t : Token}
    (hblank : ∀ c ∈ cs.head?, isBlank c = false)
    (h : scanToken cs = some (t, rest)) :
    scanAll cs = (scanAll rest).map (t :: ·) := by
  cases cs with
  | nil => cases h
  | cons c cs =>
    rw [scanAll, hblank c rfl, if_neg Bool.false_ne_true]
    split
    · next hnone =>
      rw [h] at hnone
      cases hnone
    · next hsome =>
      rw [h] at hsome
      cases hsome
      rfl

theorem scanAll_chars {t : Token} (ht : t.WellFormed) {rest : List Char}
    (h : ∀ n, t = .number n → EndsNumber rest) :
    scanAll (t.chars ++ rest) = (scanAll rest).map (t :: ·) := by
  obtain ⟨c, cs, hchars, hblank⟩ := chars_eq_cons ht
  refine scanAll_token ?_ (scanToken_chars ht h)
  rw [hchars]
  rintro _ ⟨⟩
  exact hblank

theorem Separated.head {t : Token} {ts : List Token} (h : Separated (t :: ts)) :
    t.WellFormed ∧ (∀ n, t = .number n → ∀ u ∈ ts.head?, u.Separates)
      ∧ Separated ts := by
  cases t with
  | number n => exact ⟨h.1, fun _ _ => h.2.1, h.2.2⟩
  | _ => exact ⟨trivial, nofun, h⟩

/-- **Scanning undoes writing.** -/
theorem scanAll_flatMap {ts : List Token} (h : Separated ts) :
    scanAll (ts.flatMap chars) = some ts := by
  induction ts with
  | nil => rw [List.flatMap_nil, scanAll]
  | cons t ts ih =>
    obtain ⟨ht, hends, hts⟩ := h.head
    have hrest : ∀ n, t = .number n → EndsNumber (ts.flatMap chars) := by
      intro n hn
      cases ts with
      | nil => simp [EndsNumber, NoDigit]
      | cons u us =>
        rw [List.flatMap_cons]
        exact endsNumber_of_separates (hends n hn u rfl) _
    rw [List.flatMap_cons, scanAll_chars ht hrest, ih hts]
    rfl

end Token

end Equilibration.Json
