import Equilibration.Decimal.Digits

/-!
# Json — Token

The words of a JSON text: punctuation, the three names, numbers and
strings. Blanks separate tokens and mean nothing, so a text is read as the
list of its tokens (`Token.ofText?`), and everything later works on that
list.

A number keeps its digits, since what a literal means depends on how it is
written: `5` may count iterations where `5.0` may not. A string whose
escapes hold half of a surrogate pair has no text; it may be skipped but
not used.
-/

namespace Equilibration.Json

open Decimal (digitOf? digitChar)

/-- A number as it is written. -/
structure NumberLiteral where
  /-- Whether it starts with a minus sign. -/
  negative : Bool
  /-- The digits before the point. -/
  whole : List Nat
  /-- The digits after the point, if there is one. -/
  fraction : Option (List Nat)
  /-- Whether the exponent is negative, and its digits, if there is one. -/
  exponent : Option (Bool × List Nat)
deriving DecidableEq, Repr

/-- The words of a JSON text. -/
inductive Token where
  | openBrace
  | closeBrace
  | openBracket
  | closeBracket
  | colon
  | comma
  | null
  | bool (value : Bool)
  | number (literal : NumberLiteral)
  /-- A string, without a text if it holds half of a surrogate pair. -/
  | string (text : Option String)
deriving DecidableEq, Repr

/-! ## Strings -/

/-- A part of a string: a character, or a 16-bit unit given by its
number. -/
inductive Piece where
  | char (c : Char)
  | unit (n : Nat)
deriving DecidableEq, Repr

/-- Whether a unit is the first half of a surrogate pair. -/
def isHighSurrogate (n : Nat) : Bool := decide (0xD800 ≤ n ∧ n ≤ 0xDBFF)

/-- Whether a unit is the second half of a surrogate pair. -/
def isLowSurrogate (n : Nat) : Bool := decide (0xDC00 ≤ n ∧ n ≤ 0xDFFF)

/-- The characters of a string. Two units make one character if they are a
surrogate pair; half of a pair makes none. -/
def joinPieces : List Piece → Option (List Char)
  | [] => some []
  | .char c :: rest => (joinPieces rest).map (c :: ·)
  | .unit n :: .unit n' :: rest =>
    if isHighSurrogate n then
      if isLowSurrogate n' then
        (joinPieces rest).map
          (Char.ofNat (0x10000 + (n - 0xD800) * 0x400 + (n' - 0xDC00)) :: ·)
      else none
    else if isLowSurrogate n then none
    else (joinPieces (.unit n' :: rest)).map (Char.ofNat n :: ·)
  | .unit n :: rest =>
    if isHighSurrogate n || isLowSurrogate n then none
    else (joinPieces rest).map (Char.ofNat n :: ·)

/-- The value of a hexadecimal digit. -/
def hexOf? (c : Char) : Option Nat :=
  if 'a'.toNat ≤ c.toNat ∧ c.toNat ≤ 'f'.toNat then
    some (c.toNat - 'a'.toNat + 10)
  else if 'A'.toNat ≤ c.toNat ∧ c.toNat ≤ 'F'.toNat then
    some (c.toNat - 'A'.toNat + 10)
  else digitOf? c

/-- The character that a one-letter escape stands for. -/
def escapeOf? : Char → Option Char
  | '"' => some '"'
  | '\\' => some '\\'
  | '/' => some '/'
  | 'b' => some '\x08'
  | 'f' => some '\x0c'
  | 'n' => some '\n'
  | 'r' => some '\r'
  | 't' => some '\t'
  | _ => none

/-- The unit of four hexadecimal digits. -/
def unitOf? (a b c d : Char) : Option Nat := do
  let a ← hexOf? a
  let b ← hexOf? b
  let c ← hexOf? c
  let d ← hexOf? d
  pure (((a * 16 + b) * 16 + c) * 16 + d)

/-- The pieces up to the closing quote, and what follows it. Control
characters must be escaped. -/
def scanString : List Char → Option (List Piece × List Char)
  | '"' :: rest => some ([], rest)
  | '\\' :: 'u' :: a :: b :: c :: d :: rest => do
    let n ← unitOf? a b c d
    let (pieces, rest) ← scanString rest
    pure (.unit n :: pieces, rest)
  | '\\' :: c :: rest => do
    let c ← escapeOf? c
    let (pieces, rest) ← scanString rest
    pure (.char c :: pieces, rest)
  | c :: rest =>
    if c.toNat < 0x20 then none
    else do
      let (pieces, rest) ← scanString rest
      pure (.char c :: pieces, rest)
  | [] => none

theorem length_lt_of_scanString {cs : List Char} {pieces : List Piece}
    {rest : List Char} (h : scanString cs = some (pieces, rest)) :
    rest.length < cs.length := by
  fun_induction scanString cs generalizing pieces rest <;>
    simp_all only [Option.some.injEq, Prod.mk.injEq, Option.bind_eq_bind,
      Option.bind_eq_some_iff, Option.pure_def, List.length_cons, Prod.exists,
      reduceCtorEq]
  · omega
  · next ih => obtain ⟨_, _, ps, r, hr, _, rfl⟩ := h; have := ih hr; omega
  · next ih => obtain ⟨_, _, ps, r, hr, _, rfl⟩ := h; have := ih hr; omega
  · next ih => obtain ⟨ps, r, hr, _, rfl⟩ := h; have := ih hr; omega

/-! ## Numbers -/

/-- The digits at the start of a text, and what follows them. -/
def scanDigits : List Char → List Nat × List Char
  | [] => ([], [])
  | c :: rest =>
    match digitOf? c with
    | some d => (d :: (scanDigits rest).1, (scanDigits rest).2)
    | none => ([], c :: rest)

theorem length_scanDigits (cs : List Char) :
    (scanDigits cs).1.length + (scanDigits cs).2.length = cs.length := by
  induction cs with
  | nil => rfl
  | cons c rest ih =>
    unfold scanDigits
    split
    · simp only [List.length_cons]; omega
    · simp

/-- At least one digit at the start of a text, and what follows. -/
def scanDigits1 (cs : List Char) : Option (List Nat × List Char) :=
  match scanDigits cs with
  | ([], _) => none
  | (ds, rest) => some (ds, rest)

theorem length_lt_of_scanDigits1 {cs : List Char} {ds : List Nat}
    {rest : List Char} (h : scanDigits1 cs = some (ds, rest)) :
    rest.length < cs.length := by
  have hl := length_scanDigits cs
  unfold scanDigits1 at h
  split at h
  · cases h
  · next ds' rest' hne heq =>
    simp only [Option.some.injEq, Prod.mk.injEq] at h
    obtain ⟨rfl, rfl⟩ := h
    rw [heq] at hl
    cases ds' with
    | nil => exact (hne rfl).elim
    | cons d ds => simp at hl; omega

/-- The digits before the point: a single zero, or digits that do not start
with zero. -/
def scanWhole : List Char → Option (List Nat × List Char)
  | '0' :: rest => some ([0], rest)
  | cs => scanDigits1 cs

/-- The digits after a point, if there is a point. -/
def scanFraction : List Char → Option (Option (List Nat) × List Char)
  | '.' :: rest => (scanDigits1 rest).map fun r => (some r.1, r.2)
  | cs => some (none, cs)

/-- The digits of an exponent after its sign. -/
def scanExponentDigits (negative : Bool) (cs : List Char) :
    Option (Option (Bool × List Nat) × List Char) :=
  (scanDigits1 cs).map fun r => (some (negative, r.1), r.2)

/-- The exponent, if there is one. -/
def scanExponent : List Char → Option (Option (Bool × List Nat) × List Char)
  | c :: rest =>
    if c = 'e' ∨ c = 'E' then
      match rest with
      | '-' :: rest => scanExponentDigits true rest
      | '+' :: rest => scanExponentDigits false rest
      | rest => scanExponentDigits false rest
    else some (none, c :: rest)
  | [] => some (none, [])

/-- A number without its sign, and what follows it. -/
def scanMagnitude (negative : Bool) (cs : List Char) :
    Option (NumberLiteral × List Char) := do
  let (whole, cs) ← scanWhole cs
  let (fraction, cs) ← scanFraction cs
  let (exponent, cs) ← scanExponent cs
  pure ({ negative, whole, fraction, exponent }, cs)

theorem length_lt_of_scanWhole {cs rest : List Char} {ds : List Nat}
    (h : scanWhole cs = some (ds, rest)) : rest.length < cs.length := by
  unfold scanWhole at h
  split at h
  · simp only [Option.some.injEq, Prod.mk.injEq] at h
    obtain ⟨_, rfl⟩ := h
    simp
  · exact length_lt_of_scanDigits1 h

theorem length_le_of_scanFraction {cs rest : List Char} {f : Option (List Nat)}
    (h : scanFraction cs = some (f, rest)) : rest.length ≤ cs.length := by
  unfold scanFraction at h
  split at h
  · simp only [Option.map_eq_some_iff, Prod.mk.injEq, Prod.exists] at h
    obtain ⟨ds, r, hr, _, rfl⟩ := h
    have := length_lt_of_scanDigits1 hr
    simp only [List.length_cons]; omega
  · simp only [Option.some.injEq, Prod.mk.injEq] at h
    obtain ⟨_, rfl⟩ := h
    exact Nat.le_refl _

theorem length_le_of_scanExponentDigits {negative : Bool} {cs rest : List Char}
    {e : Option (Bool × List Nat)}
    (h : scanExponentDigits negative cs = some (e, rest)) :
    rest.length ≤ cs.length := by
  simp only [scanExponentDigits, Option.map_eq_some_iff, Prod.mk.injEq,
    Prod.exists] at h
  obtain ⟨ds, r, hr, _, rfl⟩ := h
  exact Nat.le_of_lt (length_lt_of_scanDigits1 hr)

theorem length_le_of_scanExponent {cs rest : List Char}
    {e : Option (Bool × List Nat)} (h : scanExponent cs = some (e, rest)) :
    rest.length ≤ cs.length := by
  unfold scanExponent at h
  split at h
  · split at h
    · split at h
      all_goals
        have := length_le_of_scanExponentDigits h
        simp only [List.length_cons] at *
        omega
    · simp only [Option.some.injEq, Prod.mk.injEq] at h
      obtain ⟨_, rfl⟩ := h
      exact Nat.le_refl _
  · simp only [Option.some.injEq, Prod.mk.injEq] at h
    obtain ⟨_, rfl⟩ := h
    exact Nat.le_refl _

theorem length_lt_of_scanMagnitude {negative : Bool} {cs rest : List Char}
    {n : NumberLiteral} (h : scanMagnitude negative cs = some (n, rest)) :
    rest.length < cs.length := by
  simp only [scanMagnitude, Option.bind_eq_bind, Option.bind_eq_some_iff,
    Option.pure_def, Option.some.injEq, Prod.mk.injEq, Prod.exists] at h
  obtain ⟨ds, r, h1, f, r', h2, e, r'', h3, _, rfl⟩ := h
  have := length_lt_of_scanWhole h1
  have := length_le_of_scanFraction h2
  have := length_le_of_scanExponent h3
  omega

/-! ## Texts -/

/-- Whether a character only separates tokens. -/
def isBlank (c : Char) : Bool := c = ' ' || c = '\n' || c = '\t' || c = '\r'

/-- The punctuation mark that a character is. -/
def markOf? : Char → Option Token
  | '{' => some .openBrace
  | '}' => some .closeBrace
  | '[' => some .openBracket
  | ']' => some .closeBracket
  | ':' => some .colon
  | ',' => some .comma
  | _ => none

/-- The token at the start of a text that does not start with a blank, and
what follows it. -/
def scanToken : List Char → Option (Token × List Char)
  | 't' :: 'r' :: 'u' :: 'e' :: rest => some (.bool true, rest)
  | 'f' :: 'a' :: 'l' :: 's' :: 'e' :: rest => some (.bool false, rest)
  | 'n' :: 'u' :: 'l' :: 'l' :: rest => some (.null, rest)
  | '"' :: rest =>
    (scanString rest).map fun r =>
      (.string ((joinPieces r.1).map String.ofList), r.2)
  | '-' :: rest => (scanMagnitude true rest).map fun r => (.number r.1, r.2)
  | c :: rest =>
    match markOf? c with
    | some t => some (t, rest)
    | none => (scanMagnitude false (c :: rest)).map fun r => (.number r.1, r.2)
  | [] => none

theorem length_lt_of_scanToken {cs rest : List Char} {t : Token}
    (h : scanToken cs = some (t, rest)) : rest.length < cs.length := by
  unfold scanToken at h
  split at h
  · simp only [Option.some.injEq, Prod.mk.injEq] at h
    obtain ⟨_, rfl⟩ := h; simp only [List.length_cons]; omega
  · simp only [Option.some.injEq, Prod.mk.injEq] at h
    obtain ⟨_, rfl⟩ := h; simp only [List.length_cons]; omega
  · simp only [Option.some.injEq, Prod.mk.injEq] at h
    obtain ⟨_, rfl⟩ := h; simp only [List.length_cons]; omega
  · simp only [Option.map_eq_some_iff, Prod.mk.injEq, Prod.exists] at h
    obtain ⟨ps, r, hr, _, rfl⟩ := h
    have := length_lt_of_scanString hr
    simp only [List.length_cons]; omega
  · simp only [Option.map_eq_some_iff, Prod.mk.injEq, Prod.exists] at h
    obtain ⟨n, r, hr, _, rfl⟩ := h
    have := length_lt_of_scanMagnitude hr
    simp only [List.length_cons]; omega
  · split at h
    · simp only [Option.some.injEq, Prod.mk.injEq] at h
      obtain ⟨_, rfl⟩ := h; simp
    · simp only [Option.map_eq_some_iff, Prod.mk.injEq, Prod.exists] at h
      obtain ⟨n, r, hr, _, rfl⟩ := h
      exact length_lt_of_scanMagnitude hr
  · cases h

/-- The tokens of a text, if it consists of tokens and blanks. -/
def Token.scanAll (cs : List Char) : Option (List Token) :=
  match cs with
  | [] => some []
  | c :: rest =>
    if isBlank c then Token.scanAll rest
    else
      match _h : scanToken (c :: rest) with
      | none => none
      | some (t, rest') => (Token.scanAll rest').map (t :: ·)
termination_by cs.length
decreasing_by
  · simp
  · exact length_lt_of_scanToken ‹_›

/-- The tokens of a text. -/
def Token.ofText? (s : String) : Option (List Token) := Token.scanAll s.toList

/-! ## Writing -/

/-- The characters of some digits. -/
def digitChars (ds : List Nat) : List Char := ds.map digitChar

/-- A number as it is written. The exponent always has a sign. -/
def NumberLiteral.chars (n : NumberLiteral) : List Char :=
  (if n.negative then ['-'] else []) ++ digitChars n.whole ++
    (match n.fraction with
      | some ds => '.' :: digitChars ds
      | none => []) ++
    (match n.exponent with
      | some (negative, ds) =>
        'e' :: (if negative then '-' else '+') :: digitChars ds
      | none => [])

/-- The character of a hexadecimal digit. -/
def hexChar (d : Nat) : Char :=
  if d < 10 then digitChar d else Char.ofNat ('a'.toNat + (d - 10))

/-- A character inside a string. Quotes, backslashes and control characters
are escaped. -/
def charText (c : Char) : List Char :=
  if c = '"' ∨ c = '\\' then ['\\', c]
  else if c.toNat < 0x20 then
    ['\\', 'u', '0', '0', hexChar (c.toNat / 16), hexChar (c.toNat % 16)]
  else [c]

/-- A token as it is written. Half of a surrogate pair stands for a string
without a text. -/
def Token.chars : Token → List Char
  | .openBrace => ['{']
  | .closeBrace => ['}']
  | .openBracket => ['[']
  | .closeBracket => [']']
  | .colon => [':']
  | .comma => [',']
  | .null => ['n', 'u', 'l', 'l']
  | .bool true => ['t', 'r', 'u', 'e']
  | .bool false => ['f', 'a', 'l', 's', 'e']
  | .number n => n.chars
  | .string (some s) => '"' :: s.toList.flatMap charText ++ ['"']
  | .string none => ['"', '\\', 'u', 'd', '8', '0', '0', '"']

end Equilibration.Json
