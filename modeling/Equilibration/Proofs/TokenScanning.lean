import Equilibration.Proofs.JsonTokens

/-!
# TokenScanning — what a token takes off a text

A scanner takes a part off a text and looks at no more than one character
behind it, to see whether a number goes on. In front of any text at which it
stops alike, the same part gives the same result (`Takes`). This holds of the
scanner of each part of a token (`takes_scanToken`), and with it the tokens of
a text can be put together and taken apart: a text that ends a number may
follow any tokens (`Token.scanAll_append`), and a text can be cut after every
token (`Token.scanAll_split`).
-/

namespace Equilibration.Json

open Decimal (digitOf? digitChar)

/-! ## Parts of a text -/

/-- What stops before `rest` stops before `tail`: there is the same character,
or one that ends every number. -/
def StopsAlike (rest tail : List Char) : Prop :=
  EndsNumber tail ∨ tail.head? = rest.head?

/-- The scanner takes a part off the text, and takes the same part off every
text that goes on with something at which it stops alike. -/
def Takes {β : Type} (scan : List Char → Option (β × List Char))
    (cs : List Char) (v : β) (rest : List Char) : Prop :=
  ∃ used, cs = used ++ rest ∧ ∀ tail, StopsAlike rest tail →
    scan (used ++ tail) = some (v, tail)

theorem endsNumber_nil : EndsNumber [] := ⟨nofun, nofun⟩

namespace StopsAlike

variable {rest tail : List Char}

theorem append (h : StopsAlike rest tail) (used : List Char) :
    StopsAlike (used ++ rest) (used ++ tail) := by
  cases used with
  | nil => exact h
  | cons c used => exact .inr rfl

theorem noDigit (h : StopsAlike rest tail) (hrest : NoDigit rest) :
    NoDigit tail := by
  rcases h with h | h
  · exact h.1
  · intro c hc
    exact hrest c (h ▸ hc)

/-- A character at which no number ends is seen in both texts or in none. -/
theorem head_ne (h : StopsAlike rest tail) {c : Char}
    (hc : c = '.' ∨ c = 'e' ∨ c = 'E') (hrest : rest.head? ≠ some c) :
    tail.head? ≠ some c := by
  rcases h with h | h
  · intro htail
    obtain ⟨hpoint, he, hE⟩ := h.2 c htail
    rcases hc with rfl | rfl | rfl <;> contradiction
  · rwa [h]

end StopsAlike

namespace Takes

variable {β γ : Type} {scan : List Char → Option (β × List Char)}
  {cs rest : List Char} {v : β}

theorem map (h : Takes scan cs v rest) (f : β → γ) :
    Takes (fun cs => (scan cs).map fun r => (f r.1, r.2)) cs (f v) rest := by
  obtain ⟨used, hcs, hscan⟩ := h
  refine ⟨used, hcs, fun tail htail => ?_⟩
  show (scan (used ++ tail)).map _ = _
  rw [hscan tail htail]
  rfl

/-- A scanner that goes on after some characters. -/
theorem prepend {scan' : List Char → Option (β × List Char)}
    (h : Takes scan cs v rest) (before : List Char)
    (hscan' : ∀ cs, scan' (before ++ cs) = scan cs) :
    Takes scan' (before ++ cs) v rest := by
  obtain ⟨used, rfl, hscan⟩ := h
  refine ⟨before ++ used, (List.append_assoc _ _ _).symm, fun tail htail => ?_⟩
  rw [List.append_assoc, hscan', hscan tail htail]

/-- A scanner that takes some characters and nothing else. -/
theorem of_chars (used : List Char)
    (h : ∀ tail, scan (used ++ tail) = some (v, tail)) :
    Takes scan (used ++ rest) v rest :=
  ⟨used, rfl, fun tail _ => h tail⟩

end Takes

/-! ## Numbers -/

theorem noDigit_cons {c : Char} (h : digitOf? c = none) (cs : List Char) :
    NoDigit (c :: cs) := by
  rintro _ ⟨⟩
  exact h

theorem scanDigits_takes (cs : List Char) :
    ∃ used, cs = used ++ (scanDigits cs).2
      ∧ NoDigit (scanDigits cs).2
      ∧ ∀ tail,
      NoDigit tail → scanDigits (used ++ tail) = ((scanDigits cs).1, tail) := by
  induction cs with
  | nil => exact ⟨[], rfl, nofun, fun tail htail => scanDigits_of_noDigit htail⟩
  | cons c cs ih =>
    cases hc : digitOf? c with
    | none =>
      have hstop := noDigit_cons hc cs
      rw [scanDigits_of_noDigit hstop]
      exact ⟨[], rfl, hstop, fun tail htail => scanDigits_of_noDigit htail⟩
    | some d =>
      obtain ⟨used, hcs, hstop, hscan⟩ := ih
      have hcons : ∀ rest, scanDigits (c :: rest)
          = (d :: (scanDigits rest).1, (scanDigits rest).2) := by
        intro rest
        rw [scanDigits, hc]
      rw [hcons]
      refine ⟨c :: used, congrArg (c :: ·) hcs, hstop, fun tail htail => ?_⟩
      rw [List.cons_append, hcons, hscan tail htail]

variable {cs rest : List Char} {negative : Bool}

theorem takes_scanDigits1 {ds : List Nat}
    (h : scanDigits1 cs = some (ds, rest)) :
    Takes scanDigits1 cs ds rest := by
  obtain ⟨used, hcs, hstop, hscan⟩ := scanDigits_takes cs
  obtain ⟨hne, hdigits⟩ : ds ≠ [] ∧ scanDigits cs = (ds, rest) := by
    unfold scanDigits1 at h
    split at h
    · cases h
    · next hne heq =>
      cases h
      exact ⟨fun hnil => hne hnil, heq⟩
  rw [hdigits] at hcs hstop hscan
  refine ⟨used, hcs, fun tail htail => ?_⟩
  unfold scanDigits1
  rw [hscan tail (htail.noDigit hstop)]
  cases ds with
  | nil => exact absurd rfl hne
  | cons d ds => rfl

theorem scanWhole_of_head {cs : List Char} (h : cs.head? ≠ some '0') :
    scanWhole cs = scanDigits1 cs := by
  unfold scanWhole
  split
  · exact absurd rfl h
  · rfl

theorem takes_scanWhole {ds : List Nat} (h : scanWhole cs = some (ds, rest)) :
    Takes scanWhole cs ds rest := by
  by_cases hzero : cs.head? = some '0'
  · obtain ⟨cs, rfl⟩ : ∃ cs', cs = '0' :: cs' := List.head?_eq_some_iff.mp hzero
    cases h
    exact .of_chars ['0'] fun _ => rfl
  · rw [scanWhole_of_head hzero] at h
    obtain ⟨used, rfl, hscan⟩ := takes_scanDigits1 h
    refine ⟨used, rfl, fun tail htail => ?_⟩
    -- a digit is taken, so the text starts with it whatever follows
    cases used with
    | nil => exact absurd (length_lt_of_scanDigits1 h) (Nat.lt_irrefl _)
    | cons c used =>
      have hhead : (c :: used ++ tail).head? ≠ some '0' := hzero
      exact (scanWhole_of_head hhead).trans (hscan tail htail)

theorem scanFraction_of_head {cs : List Char} (h : cs.head? ≠ some '.') :
    scanFraction cs = some (none, cs) := by
  unfold scanFraction
  split
  · exact absurd rfl h
  · rfl

theorem takes_scanFraction {f : Option (List Nat)}
    (h : scanFraction cs = some (f, rest)) :
    Takes scanFraction cs f rest := by
  by_cases hpoint : cs.head? = some '.'
  · obtain ⟨cs, rfl⟩ : ∃ cs', cs = '.' :: cs' :=
      List.head?_eq_some_iff.mp hpoint
    obtain ⟨⟨ds, rest⟩, hdigits, hf⟩ := Option.map_eq_some_iff.mp h
    cases hf
    exact ((takes_scanDigits1 hdigits).map some).prepend ['.'] fun _ => rfl
  · rw [scanFraction_of_head hpoint] at h
    cases h
    exact ⟨[], rfl, fun tail htail =>
      scanFraction_of_head (htail.head_ne (.inl rfl) hpoint)⟩

theorem takes_scanExponentDigits {e : Option (Bool × List Nat)}
    (h : scanExponentDigits negative cs = some (e, rest)) :
    Takes (scanExponentDigits negative) cs e rest := by
  obtain ⟨⟨ds, rest⟩, hdigits, he⟩ := Option.map_eq_some_iff.mp h
  cases he
  exact (takes_scanDigits1 hdigits).map fun ds => some (negative, ds)

theorem scanExponent_of_head {cs : List Char} (he : cs.head? ≠ some 'e')
    (hE : cs.head? ≠ some 'E') : scanExponent cs = some (none, cs) := by
  cases cs with
  | nil => rfl
  | cons c cs =>
    have hmark : ¬ (c = 'e' ∨ c = 'E') := by
      rintro (rfl | rfl)
      · exact he rfl
      · exact hE rfl
    unfold scanExponent
    exact if_neg hmark

/-- An exponent that does not start with a sign. -/
theorem scanExponent_unsigned {c : Char} (hc : c = 'e' ∨ c = 'E')
    {cs : List Char} (hminus : cs.head? ≠ some '-')
    (hplus : cs.head? ≠ some '+') :
    scanExponent (c :: cs) = scanExponentDigits false cs := by
  unfold scanExponent
  dsimp only
  rw [if_pos hc]
  split
  · exact absurd rfl hminus
  · exact absurd rfl hplus
  · rfl

theorem takes_scanExponent {e : Option (Bool × List Nat)}
    (h : scanExponent cs = some (e, rest)) :
    Takes scanExponent cs e rest := by
  by_cases hmark : cs.head? = some 'e' ∨ cs.head? = some 'E'
  · obtain ⟨c, cs, rfl, hc⟩ : ∃ c cs', cs = c :: cs' ∧ (c = 'e' ∨ c = 'E') := by
      rcases hmark with hmark | hmark <;> obtain ⟨cs', rfl⟩ :=
        List.head?_eq_some_iff.mp hmark
      · exact ⟨_, _, rfl, .inl rfl⟩
      · exact ⟨_, _, rfl, .inr rfl⟩
    by_cases hminus : cs.head? = some '-'
    · obtain ⟨cs, rfl⟩ : ∃ cs', cs = '-' :: cs' :=
        List.head?_eq_some_iff.mp hminus
      have hsigned :
          ∀ cs, scanExponent ([c, '-'] ++ cs) = scanExponentDigits true cs :=
        fun cs => if_pos hc
      exact (takes_scanExponentDigits ((hsigned cs).symm.trans h)).prepend
        [c, '-'] hsigned
    · by_cases hplus : cs.head? = some '+'
      · obtain ⟨cs, rfl⟩ : ∃ cs', cs = '+' :: cs' :=
          List.head?_eq_some_iff.mp hplus
        have hsigned :
            ∀ cs, scanExponent ([c, '+'] ++ cs) = scanExponentDigits false cs :=
          fun cs => if_pos hc
        exact (takes_scanExponentDigits ((hsigned cs).symm.trans h)).prepend
          [c, '+'] hsigned
      · rw [scanExponent_unsigned hc hminus hplus] at h
        obtain ⟨used, rfl, hscan⟩ := takes_scanExponentDigits h
        refine ⟨c :: used, rfl, fun tail htail => ?_⟩
        cases used with
        | nil =>
          obtain ⟨⟨ds, rest⟩, hdigits, he⟩ := Option.map_eq_some_iff.mp h
          cases he
          exact absurd (length_lt_of_scanDigits1 hdigits) (Nat.lt_irrefl _)
        | cons d used =>
          have hhead : (d :: used ++ tail).head? ≠ some '-' := hminus
          exact (scanExponent_unsigned hc hhead hplus).trans (hscan tail htail)
  · obtain ⟨he, hE⟩ := not_or.mp hmark
    rw [scanExponent_of_head he hE] at h
    cases h
    exact ⟨[], rfl, fun tail htail => scanExponent_of_head
      (htail.head_ne (.inr (.inl rfl)) he) (htail.head_ne (.inr (.inr rfl)) hE)⟩

theorem takes_scanMagnitude {n : NumberLiteral}
    (h : scanMagnitude negative cs = some (n, rest)) :
    Takes (scanMagnitude negative) cs n rest := by
  obtain ⟨⟨whole, cs'⟩, hwhole, h⟩ := Option.bind_eq_some_iff.mp h
  obtain ⟨⟨fraction, cs''⟩, hfraction, h⟩ := Option.bind_eq_some_iff.mp h
  obtain ⟨⟨exponent, cs'''⟩, hexponent, h⟩ := Option.bind_eq_some_iff.mp h
  cases h
  obtain ⟨wholeUsed, rfl, htakeWhole⟩ := takes_scanWhole hwhole
  obtain ⟨fractionUsed, rfl, htakeFraction⟩ := takes_scanFraction hfraction
  obtain ⟨exponentUsed, rfl, htakeExponent⟩ := takes_scanExponent hexponent
  refine ⟨wholeUsed ++ (fractionUsed ++ exponentUsed), by simp,
    fun tail htail => ?_⟩
  -- each part stops where it did, at the next part or at what follows the
  -- number
  have hfollow := htail.append exponentUsed
  rw [List.append_assoc, List.append_assoc]
  unfold scanMagnitude
  rw [htakeWhole _ (hfollow.append fractionUsed)]
  show (scanFraction _ >>= _) = _
  rw [htakeFraction _ hfollow]
  show (scanExponent _ >>= _) = _
  rw [htakeExponent _ htail]
  rfl

/-- A number without a sign starts with a digit. -/
theorem digit_of_scanMagnitude {c : Char} {n : NumberLiteral}
    (h : scanMagnitude negative (c :: cs) = some (n, rest)) :
    ∃ d, digitOf? c = some d := by
  obtain ⟨⟨whole, cs'⟩, hwhole, -⟩ := Option.bind_eq_some_iff.mp h
  by_cases hzero : c = '0'
  · exact ⟨0, hzero ▸ rfl⟩
  · have hhead : (c :: cs).head? ≠ some '0' :=
      fun h => hzero (Option.some.inj h)
    rw [scanWhole_of_head hhead] at hwhole
    cases hc : digitOf? c with
    | some d => exact ⟨d, rfl⟩
    | none =>
      rw [scanDigits1, scanDigits_of_noDigit (noDigit_cons hc cs)] at hwhole
      cases hwhole

/-! ## Strings -/

theorem scanString_unit {a b c d : Char} {n : Nat}
    (h : unitOf? a b c d = some n) (cs : List Char) :
    scanString (['\\', 'u', a, b, c, d] ++ cs)
      = (scanString cs).map fun r => (.unit n :: r.1, r.2) := by
  show scanString ('\\' :: 'u' :: a :: b :: c :: d :: cs) = _
  rw [scanString, h]
  cases scanString cs <;> rfl

theorem scanString_escape {c e : Char} (h : escapeOf? c = some e)
    (cs : List Char) :
    scanString (['\\', c] ++ cs) = (scanString cs).map fun r =>
      (.char e :: r.1, r.2) := by
  have hunit : c ≠ 'u' := by
    rintro rfl
    cases h
  show scanString ('\\' :: c :: cs) = _
  rw [scanString, h]
  · cases scanString cs <;> rfl
  · intro _ _ _ _ _ hc
    exact absurd hc hunit

theorem scanString_plain {c : Char} (hquote : c ≠ '"') (hslash : c ≠ '\\')
    (hcontrol : ¬ c.toNat < 0x20) (cs : List Char) :
    scanString ([c] ++ cs) = (scanString cs).map fun r =>
      (.char c :: r.1, r.2) := by
  show scanString (c :: cs) = _
  rw [scanString, if_neg hcontrol]
  · cases scanString cs <;> rfl
  · exact hquote
  · intro _ _ _ _ _ hc
    exact absurd hc hslash
  · intro _ _ hc
    exact absurd hc hslash

theorem takes_scanString {pieces : List Piece}
    (h : scanString cs = some (pieces, rest)) :
    Takes scanString cs pieces rest := by
  fun_induction scanString cs generalizing pieces with
  | case1 =>
    cases h
    exact .of_chars ['"'] fun _ => rfl
  | case2 a b c d cs ih =>
    obtain ⟨n, hn, h⟩ := Option.bind_eq_some_iff.mp h
    obtain ⟨⟨pieces, rest⟩, hpieces, h⟩ := Option.bind_eq_some_iff.mp h
    cases h
    exact ((ih hpieces).map (.unit n :: ·)).prepend _ (scanString_unit hn)
  | case3 c cs _ ih =>
    obtain ⟨e, he, h⟩ := Option.bind_eq_some_iff.mp h
    obtain ⟨⟨pieces, rest⟩, hpieces, h⟩ := Option.bind_eq_some_iff.mp h
    cases h
    exact ((ih hpieces).map (.char e :: ·)).prepend _ (scanString_escape he)
  | case4 => cases h
  | case5 c cs hquote _ hslash hcontrol ih =>
    obtain ⟨⟨pieces, rest⟩, hpieces, h⟩ := Option.bind_eq_some_iff.mp h
    cases h
    -- a backslash is followed by something, and then it is an escape
    have hslash : c ≠ '\\' := by
      rintro rfl
      cases cs with
      | nil => cases hpieces
      | cons c cs => exact hslash c cs rfl rfl
    exact ((ih hpieces).map (.char c :: ·)).prepend _
      (scanString_plain hquote hslash hcontrol)
  | case6 => cases h

/-! ## Tokens -/

/-- A digit is the character of its digit. -/
theorem digitChar_of_digitOf? {c : Char} {d : Nat} (h : digitOf? c = some d) :
    d < 10 ∧ c = digitChar d := by
  unfold digitOf? at h
  split at h
  · next hrange =>
    cases h
    have hlow : 48 ≤ c.toNat := hrange.1
    have hhigh : c.toNat ≤ 57 := hrange.2
    constructor
    · show c.toNat - 48 < 10
      omega
    · show c = Char.ofNat (48 + (c.toNat - 48))
      rw [Nat.add_sub_cancel' hlow, Char.ofNat_toNat]
  · cases h

theorem scanToken_of_digitOf? {c : Char} {d : Nat} (h : digitOf? c = some d)
    (cs : List Char) :
    scanToken (c :: cs) = (scanMagnitude false (c :: cs)).map fun r =>
      (.number r.1, r.2) := by
  obtain ⟨hd, rfl⟩ := digitChar_of_digitOf? h
  exact scanToken_digit hd cs

theorem scanToken_mark {c : Char} {t : Token} (h : markOf? c = some t)
    (cs : List Char) :
    scanToken (c :: cs) = some (t, cs) := by
  unfold markOf? at h
  split at h <;> cases h <;> rfl

theorem takes_scanToken {t : Token} (h : scanToken cs = some (t, rest)) :
    Takes scanToken cs t rest := by
  unfold scanToken at h
  split at h
  · cases h
    exact .of_chars ['t', 'r', 'u', 'e'] fun _ => rfl
  · cases h
    exact .of_chars ['f', 'a', 'l', 's', 'e'] fun _ => rfl
  · cases h
    exact .of_chars ['n', 'u', 'l', 'l'] fun _ => rfl
  · obtain ⟨⟨pieces, rest⟩, hpieces, h⟩ := Option.map_eq_some_iff.mp h
    cases h
    exact ((takes_scanString hpieces).map fun pieces =>
      Token.string ((joinPieces pieces).map String.ofList)).prepend
        ['"'] fun _ => rfl
  · obtain ⟨⟨n, rest⟩, hn, h⟩ := Option.map_eq_some_iff.mp h
    cases h
    exact ((takes_scanMagnitude hn).map Token.number).prepend ['-'] fun _ => rfl
  · split at h
    · next hmark =>
      cases h
      exact .of_chars [_] (scanToken_mark hmark)
    · obtain ⟨⟨n, rest⟩, hn, h⟩ := Option.map_eq_some_iff.mp h
      cases h
      obtain ⟨d, hd⟩ := digit_of_scanMagnitude hn
      obtain ⟨used, hcs, hscan⟩ := takes_scanMagnitude hn
      refine ⟨used, hcs, fun tail htail => ?_⟩
      cases used with
      | nil =>
        exact absurd (length_lt_of_scanMagnitude hn) (hcs ▸ Nat.lt_irrefl _)
      | cons c' used =>
        obtain ⟨rfl, -⟩ := List.cons.inj hcs
        have hnumber := hscan tail htail
        rw [List.cons_append] at hnumber ⊢
        rw [scanToken_of_digitOf? hd, hnumber]
        rfl
  · cases h

/-- A mark is written in one way. -/
theorem eq_cons_of_scanToken_mark {c : Char} {t : Token}
    (hmark : markOf? c = some t) (h : scanToken cs = some (t, rest)) :
    cs = c :: rest := by
  have hunique : ∀ {c' : Char}, markOf? c' = some t → c' = c := by
    intro c' hmark'
    unfold markOf? at hmark hmark'
    split at hmark <;> cases hmark <;> split at hmark' <;>
      first
      | rfl
      | cases hmark'
  have hword : (∀ b, t ≠ .bool b) ∧ t ≠ .null ∧ (∀ s, t ≠ .string s)
      ∧ ∀ n, t ≠ .number n := by
    unfold markOf? at hmark
    split at hmark <;> cases hmark <;> exact ⟨nofun, nofun, nofun, nofun⟩
  obtain ⟨hbool, hnull, hstring, hnumber⟩ := hword
  unfold scanToken at h
  split at h
  · cases h
    exact absurd rfl (hbool _)
  · cases h
    exact absurd rfl (hbool _)
  · cases h
    exact absurd rfl hnull
  · obtain ⟨r, -, h⟩ := Option.map_eq_some_iff.mp h
    cases h
    exact absurd rfl (hstring _)
  · obtain ⟨r, -, h⟩ := Option.map_eq_some_iff.mp h
    cases h
    exact absurd rfl (hnumber _)
  · split at h
    · next hmark' =>
      cases h
      rw [hunique hmark']
    · obtain ⟨r, -, h⟩ := Option.map_eq_some_iff.mp h
      cases h
      exact absurd rfl (hnumber _)
  · cases h

/-! ## All tokens -/

namespace Token

/-- Only blanks. -/
def Blanks (cs : List Char) : Prop := ∀ c ∈ cs, isBlank c = true

theorem scanAll_blank {c : Char} (h : isBlank c = true) (cs : List Char) :
    scanAll (c :: cs) = scanAll cs := by
  rw [scanAll, h, if_pos rfl]

theorem scanAll_blanks_append {before : List Char} (h : Blanks before)
    (cs : List Char) :
    scanAll (before ++ cs) = scanAll cs := by
  induction before with
  | nil => rfl
  | cons c before ih =>
    rw [List.cons_append, scanAll_blank (h c List.mem_cons_self)]
    exact ih fun c hc => h c (List.mem_cons_of_mem _ hc)

theorem scanAll_blanks {before : List Char} (h : Blanks before) :
    scanAll before = some [] := by
  have := scanAll_blanks_append h []
  rwa [List.append_nil, scanAll] at this

/-- **The tokens of a text one by one.** What holds of the empty text, and
still holds with a blank or a token in front, holds of a text and its
tokens. -/
theorem scanAll_rule {P : List Char → List Token → Prop} (nil : P [] [])
    (blank : ∀ c cs ts, isBlank c = true → P cs ts → P (c :: cs) ts)
    (token : ∀ used rest t ts, scanToken (used ++ rest) = some (t, rest) →
      (∀ tail, StopsAlike rest tail →
      scanAll (used ++ tail) = (scanAll tail).map (t :: ·)) →
      scanAll rest = some ts → P rest ts → P (used ++ rest) (t :: ts))
    {cs : List Char} {ts : List Token} (h : scanAll cs = some ts) :
    P cs ts := by
  fun_induction scanAll cs generalizing ts with
  | case1 =>
    cases h
    exact nil
  | case2 c cs hblank ih => exact blank c cs ts hblank (ih h)
  | case3 => cases h
  | case4 c cs hblank t rest hscan ih =>
    obtain ⟨ts, hts, rfl⟩ := Option.map_eq_some_iff.mp h
    obtain ⟨used, hcs, htake⟩ := takes_scanToken hscan
    rw [hcs] at hscan ⊢
    refine token used rest t ts hscan (fun tail htail => ?_) hts (ih hts)
    cases used with
    | nil => exact absurd (length_lt_of_scanToken hscan) (Nat.lt_irrefl _)
    | cons c' used =>
      obtain ⟨rfl, -⟩ := List.cons.inj hcs
      refine scanAll_token ?_ (htake tail htail)
      rintro _ ⟨⟩
      exact Bool.not_eq_true _ ▸ hblank

/-- What stands before an end of numbers keeps its tokens. -/
theorem scanAll_append {ts : List Token} (h : scanAll cs = some ts)
    {tail : List Char} (htail : EndsNumber tail) :
    scanAll (cs ++ tail) = (scanAll tail).map (ts ++ ·) := by
  refine scanAll_rule
    (P := fun cs ts => scanAll (cs ++ tail) = (scanAll tail).map (ts ++ ·))
    ?nil ?blank ?token h
  case nil => simp
  case blank =>
    intro c cs ts hblank ih
    rw [List.cons_append, scanAll_blank hblank, ih]
  case token =>
    intro used rest t ts _ htake _ ih
    have halike : StopsAlike rest (rest ++ tail) := by
      cases rest with
      | nil => exact .inl htail
      | cons c rest => exact .inr rfl
    rw [List.append_assoc, htake _ halike, ih, Option.map_map]
    rfl

/-- **A text can be cut after every token.** -/
theorem scanAll_split {ts us : List Token} (h : scanAll cs = some (ts ++ us)) :
    ∃ a b, cs = a ++ b ∧ scanAll a = some ts ∧ scanAll b = some us := by
  have hnil : scanAll [] = some [] := by rw [scanAll]
  refine scanAll_rule
    (P := fun cs ws => ∀ ts us, ws = ts ++ us →
      ∃ a b, cs = a ++ b ∧ scanAll a = some ts ∧ scanAll b = some us)
    ?nil ?blank ?token h ts us rfl
  case nil =>
    intro ts us hws
    obtain ⟨rfl, rfl⟩ := List.append_eq_nil_iff.mp hws.symm
    exact ⟨[], [], rfl, hnil, hnil⟩
  case blank =>
    intro c cs ws hblank ih ts us hws
    obtain ⟨a, b, rfl, ha, hb⟩ := ih ts us hws
    exact ⟨c :: a, b, rfl, (scanAll_blank hblank a).trans ha, hb⟩
  case token =>
    intro used rest t ws _ htake hrest ih ts us hws
    cases ts with
    | nil =>
      refine ⟨[], used ++ rest, rfl, hnil, ?_⟩
      rw [htake rest (.inr rfl), hrest, ← List.nil_append us, ← hws]
      rfl
    | cons t' ts =>
      obtain ⟨rfl, rfl⟩ := List.cons.inj hws
      obtain ⟨a, b, rfl, ha, hb⟩ := ih ts us rfl
      have halike : StopsAlike (a ++ b) a := by
        cases a with
        | nil => exact .inl endsNumber_nil
        | cons c a => exact .inr rfl
      refine ⟨used ++ a, b, (List.append_assoc _ _ _).symm, ?_, hb⟩
      rw [htake a halike, ha]
      rfl

/-- A text without tokens is blank. -/
theorem blanks_of_scanAll (h : scanAll cs = some []) : Blanks cs := by
  refine scanAll_rule (P := fun cs ts => ts = [] → Blanks cs) ?nil ?blank
    ?token h rfl
  case nil => exact fun _ => nofun
  case blank =>
    intro c cs ts hblank ih hts
    exact List.forall_mem_cons.mpr ⟨hblank, ih hts⟩
  case token => exact fun _ _ _ _ _ _ _ _ => nofun

section Mark

variable {mark : Char} {t : Token}

/-- A number that stands before a mark ends there. -/
theorem endsNumber_mark (hmark : markOf? mark = some t) (cs : List Char) :
    EndsNumber (mark :: cs) := by
  unfold markOf? at hmark
  split at hmark <;> cases hmark <;> refine ⟨?_, ?_⟩ <;> rintro _ ⟨⟩ <;> decide

theorem scanAll_mark (hmark : markOf? mark = some t) (cs : List Char) :
    scanAll (mark :: cs) = (scanAll cs).map (t :: ·) := by
  refine scanAll_token ?_ (scanToken_mark hmark cs)
  rintro _ ⟨⟩
  unfold markOf? at hmark
  split at hmark <;> cases hmark <;> rfl

/-- A text with no token but a mark. -/
theorem eq_blanks_mark (hmark : markOf? mark = some t)
    (h : scanAll cs = some [t]) :
    ∃ before after, Blanks before ∧ Blanks after
      ∧ cs = before ++ mark :: after := by
  refine scanAll_rule (P := fun cs ts => ts = [t] → ∃ before after,
    Blanks before ∧ Blanks after ∧ cs = before ++ mark :: after)
    ?nil ?blank ?token h rfl
  case nil => exact nofun
  case blank =>
    intro c cs ts hblank ih hts
    obtain ⟨before, after, hbefore, hafter, rfl⟩ := ih hts
    exact ⟨c :: before, after, List.forall_mem_cons.mpr ⟨hblank, hbefore⟩,
      hafter, rfl⟩
  case token =>
    intro used rest t' ts hscan _ hrest _ hts
    cases hts
    exact ⟨[], rest, nofun, blanks_of_scanAll hrest,
      eq_cons_of_scanToken_mark hmark hscan⟩

end Mark

end Token

end Equilibration.Json
