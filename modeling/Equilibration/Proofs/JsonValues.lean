import Equilibration.Json.Value
import Equilibration.Proofs.JsonTokens

/-!
# JsonValues — reading undoes writing

Every JSON value whose numbers the grammar allows is read from its own text
as it is (`Json.ofText?_text`): members in their order, repeated names,
numbers digit by digit. The tokens of a value separate its numbers, and the
reader takes exactly those tokens off a longer list.
-/

namespace Equilibration.Json

/-! ## Values -/

mutual

/-- The grammar allows all numbers of the value. -/
def WellFormed : Json → Prop
  | .number n => n.WellFormed
  | .array items => itemsWellFormed items
  | .object members => membersWellFormed members
  | _ => True

def itemsWellFormed : List Json → Prop
  | [] => True
  | item :: items => item.WellFormed ∧ itemsWellFormed items

def membersWellFormed : List (Option String × Json) → Prop
  | [] => True
  | (_, v) :: members => v.WellFormed ∧ membersWellFormed members

end

/-- The tokens after a value do not start in the middle of a number. -/
def Follows (ts : List Token) : Prop := ∀ t ∈ ts.head?, t.Separates

theorem follows_itemTokens (items : List Json) (ts : List Token) :
    Follows (itemTokens items ++ ts) := by
  intro t ht
  cases items <;> cases ht <;> trivial

theorem follows_memberTokens (members : List (Option String × Json))
    (ts : List Token) :
    Follows (memberTokens members ++ ts) := by
  intro t ht
  rcases members with - | ⟨⟨k, v⟩, members⟩ <;> cases ht <;> trivial

mutual

theorem separated_tokens {j : Json} (hj : j.WellFormed) {ts : List Token}
    (hfollows : Follows ts) (hts : Token.Separated ts) :
    Token.Separated (j.tokens ++ ts) := by
  match j with
  | .null | .bool _ | .string _ => exact hts
  | .number n => exact ⟨hj, hfollows, hts⟩
  | .array [] | .object [] => exact hts
  | .array (item :: items) =>
    show Token.Separated ((item.tokens ++ itemTokens items) ++ ts)
    rw [List.append_assoc]
    exact separated_tokens hj.1 (follows_itemTokens items ts)
      (separated_itemTokens hj.2 hts)
  | .object ((k, v) :: members) =>
    show Token.Separated ((v.tokens ++ memberTokens members) ++ ts)
    rw [List.append_assoc]
    exact separated_tokens hj.1 (follows_memberTokens members ts)
      (separated_memberTokens hj.2 hts)

theorem separated_itemTokens {items : List Json} (h : itemsWellFormed items)
    {ts : List Token} (hts : Token.Separated ts) :
    Token.Separated (itemTokens items ++ ts) := by
  match items with
  | [] => exact hts
  | item :: items =>
    show Token.Separated ((item.tokens ++ itemTokens items) ++ ts)
    rw [List.append_assoc]
    exact separated_tokens h.1 (follows_itemTokens items ts)
      (separated_itemTokens h.2 hts)

theorem separated_memberTokens {members : List (Option String × Json)}
    (h : membersWellFormed members) {ts : List Token}
    (hts : Token.Separated ts) :
    Token.Separated (memberTokens members ++ ts) := by
  match members with
  | [] => exact hts
  | (k, v) :: members =>
    show Token.Separated ((v.tokens ++ memberTokens members) ++ ts)
    rw [List.append_assoc]
    exact separated_tokens h.1 (follows_memberTokens members ts)
      (separated_memberTokens h.2 hts)

end

/-! ## Reading -/

/-- The first token of a value does not close an array. -/
theorem tokens_eq_cons (j : Json) :
    ∃ t ts, j.tokens = t :: ts ∧ t ≠ .closeBracket := by
  match j with
  | .null | .bool _ | .string _ | .number _ => exact ⟨_, _, rfl, nofun⟩
  | .array [] | .array (_ :: _) => exact ⟨_, _, rfl, nofun⟩
  | .object [] | .object ((_, _) :: _) => exact ⟨_, _, rfl, nofun⟩

/-- An array that is not closed at once goes on with an item. -/
theorem parseValue_openBracket (budget : Nat) {t : Token}
    (ht : t ≠ .closeBracket) (ts : List Token) :
    parseValue (budget + 1) (.openBracket :: t :: ts) = (do
      let (item, rest) ← parseValue budget (t :: ts)
      let (items, rest) ← parseItems budget rest
      pure (.array (item :: items), rest)) := by
  cases t <;> first | exact absurd rfl ht | rfl

mutual

/-- Reading a value takes exactly its own tokens off a list. -/
theorem parseValue_tokens (j : Json) (ts : List Token) (budget : Nat)
    (h : j.tokens.length ≤ budget) :
    parseValue budget (j.tokens ++ ts) = some (j, ts) := by
  match j, budget with
  | .null, budget + 1 | .bool _, budget + 1 | .string _, budget + 1 | .number _,
      budget + 1 => rfl
  | .array [], budget + 1 | .object [], budget + 1 => rfl
  | .array (item :: items), budget + 1 =>
    have hlength : item.tokens.length + (itemTokens items).length ≤ budget := by
      simpa [tokens] using h
    have hitem :=
      parseValue_tokens item (itemTokens items ++ ts) budget (by omega)
    have hitems := parseItems_itemTokens items ts budget (by omega)
    obtain ⟨t, us, htokens, ht⟩ := tokens_eq_cons item
    show parseValue (budget + 1)
      (.openBracket :: ((item.tokens ++ itemTokens items) ++ ts)) = _
    rw [List.append_assoc]
    rw [htokens, List.cons_append] at hitem ⊢
    rw [parseValue_openBracket budget ht, hitem]
    show (parseItems budget _ >>= _) = _
    rw [hitems]
    rfl
  | .object ((k, v) :: members), budget + 1 =>
    have hlength :
        v.tokens.length + (memberTokens members).length + 2 ≤ budget := by
      simp only [tokens, List.length_append, List.length_cons] at h
      omega
    have hvalue :=
      parseValue_tokens v (memberTokens members ++ ts) budget (by omega)
    have hmembers := parseMembers_memberTokens members ts budget (by omega)
    show (parseValue budget ((v.tokens ++ memberTokens members) ++ ts) >>= _)
      = _
    rw [List.append_assoc, hvalue]
    show (parseMembers budget _ >>= _) = _
    rw [hmembers]
    rfl

theorem parseItems_itemTokens (items : List Json) (ts : List Token)
    (budget : Nat) (h : (itemTokens items).length ≤ budget) :
    parseItems budget (itemTokens items ++ ts) = some (items, ts) := by
  match items, budget with
  | [], budget + 1 => rfl
  | item :: items, budget + 1 =>
    have hlength : item.tokens.length + (itemTokens items).length ≤ budget := by
      simpa [itemTokens] using h
    have hitem :=
      parseValue_tokens item (itemTokens items ++ ts) budget (by omega)
    have hitems := parseItems_itemTokens items ts budget (by omega)
    show (parseValue budget ((item.tokens ++ itemTokens items) ++ ts) >>= _) = _
    rw [List.append_assoc, hitem]
    show (parseItems budget _ >>= _) = _
    rw [hitems]
    rfl

theorem parseMembers_memberTokens (members : List (Option String × Json))
    (ts : List Token) (budget : Nat)
    (h : (memberTokens members).length ≤ budget) :
    parseMembers budget (memberTokens members ++ ts) = some (members, ts) := by
  match members, budget with
  | [], budget + 1 => rfl
  | (k, v) :: members, budget + 1 =>
    have hlength :
        v.tokens.length + (memberTokens members).length + 2 ≤ budget := by
      simp only [memberTokens, List.length_append, List.length_cons] at h
      omega
    have hvalue :=
      parseValue_tokens v (memberTokens members ++ ts) budget (by omega)
    have hmembers := parseMembers_memberTokens members ts budget (by omega)
    show (parseValue budget ((v.tokens ++ memberTokens members) ++ ts) >>= _)
      = _
    rw [List.append_assoc, hvalue]
    show (parseMembers budget _ >>= _) = _
    rw [hmembers]
    rfl

end

theorem ofTokens?_tokens (j : Json) : ofTokens? j.tokens = some j := by
  have hparse := parseValue_tokens j [] _ (Nat.le_succ j.tokens.length)
  rw [List.append_nil] at hparse
  rw [ofTokens?, hparse]

/-- **Reading undoes writing.** -/
theorem ofText?_text {j : Json} (hj : j.WellFormed) :
    ofText? j.text = some j := by
  have hseparated : Token.Separated (j.tokens ++ []) :=
    separated_tokens hj nofun trivial
  rw [List.append_nil] at hseparated
  have hscan : Token.ofText? j.text = some j.tokens := by
    rw [Token.ofText?, text, String.toList_ofList]
    exact Token.scanAll_flatMap hseparated
  rw [ofText?, hscan]
  exact ofTokens?_tokens j

end Equilibration.Json
