import Equilibration.Json.Token

/-!
# Json — Value

JSON values, and the lists of tokens that write them. `Json.tokens` writes
a value, `Json.ofTokens?` reads one. Every value has one list of tokens, so
reading undoes writing and accepts nothing else; blanks, escapes and the
two cases of the exponent mark are gone before values come in.
-/

namespace Equilibration

/-- A JSON value. Members of an object keep their order and may repeat;
strings without a text hold half of a surrogate pair. -/
inductive Json where
  | null
  | bool (value : Bool)
  | number (literal : Json.NumberLiteral)
  | string (text : Option String)
  | array (items : List Json)
  | object (members : List (Option String × Json))

namespace Json

/-! ## Writing -/

mutual

/-- The tokens of a value. -/
def tokens : Json → List Token
  | .null => [.null]
  | .bool b => [.bool b]
  | .number n => [.number n]
  | .string s => [.string s]
  | .array [] => [.openBracket, .closeBracket]
  | .array (item :: items) => .openBracket :: (item.tokens ++ itemTokens items)
  | .object [] => [.openBrace, .closeBrace]
  | .object ((k, v) :: members) =>
    .openBrace :: .string k :: .colon :: (v.tokens ++ memberTokens members)

/-- The tokens after the first item of an array. -/
def itemTokens : List Json → List Token
  | [] => [.closeBracket]
  | item :: items => .comma :: (item.tokens ++ itemTokens items)

/-- The tokens after the first member of an object. -/
def memberTokens : List (Option String × Json) → List Token
  | [] => [.closeBrace]
  | (k, v) :: members =>
    .comma :: .string k :: .colon :: (v.tokens ++ memberTokens members)

end

/-- A value as it is written, without blanks. -/
def text (j : Json) : String := String.ofList (j.tokens.flatMap Token.chars)

/-! ## Reading -/

mutual

/-- The value at the start of a list of tokens, and what follows it. No
more than `budget` values are nested or follow one another. -/
def parseValue : (budget : Nat) → List Token → Option (Json × List Token)
  | 0, _ => none
  | budget + 1, ts =>
    match ts with
    | .null :: rest => some (.null, rest)
    | .bool b :: rest => some (.bool b, rest)
    | .number n :: rest => some (.number n, rest)
    | .string s :: rest => some (.string s, rest)
    | .openBracket :: .closeBracket :: rest => some (.array [], rest)
    | .openBracket :: rest => do
      let (item, rest) ← parseValue budget rest
      let (items, rest) ← parseItems budget rest
      pure (.array (item :: items), rest)
    | .openBrace :: .closeBrace :: rest => some (.object [], rest)
    | .openBrace :: .string k :: .colon :: rest => do
      let (v, rest) ← parseValue budget rest
      let (members, rest) ← parseMembers budget rest
      pure (.object ((k, v) :: members), rest)
    | _ => none

/-- The items after the first item of an array, and what follows the
array. -/
def parseItems : (budget : Nat) → List Token → Option (List Json × List Token)
  | 0, _ => none
  | budget + 1, ts =>
    match ts with
    | .closeBracket :: rest => some ([], rest)
    | .comma :: rest => do
      let (item, rest) ← parseValue budget rest
      let (items, rest) ← parseItems budget rest
      pure (item :: items, rest)
    | _ => none

/-- The members after the first member of an object, and what follows the
object. -/
def parseMembers : (budget : Nat) → List Token →
      Option (List (Option String × Json) × List Token)
  | 0, _ => none
  | budget + 1, ts =>
    match ts with
    | .closeBrace :: rest => some ([], rest)
    | .comma :: .string k :: .colon :: rest => do
      let (v, rest) ← parseValue budget rest
      let (members, rest) ← parseMembers budget rest
      pure ((k, v) :: members, rest)
    | _ => none

end

/-- The value that a list of tokens writes. Every step of reading uses up a
token, so their number is budget enough. -/
def ofTokens? (ts : List Token) : Option Json :=
  match parseValue (ts.length + 1) ts with
  | some (j, []) => some j
  | _ => none

/-- The value that a text writes. -/
def ofText? (s : String) : Option Json := (Token.ofText? s).bind ofTokens?

end Json

end Equilibration
