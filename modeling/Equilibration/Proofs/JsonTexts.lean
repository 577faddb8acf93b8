import Mathlib.Data.List.Forall2
import Mathlib.Logic.Relation
import Equilibration.Proofs.JsonValues
import Equilibration.Proofs.TokenScanning

/-!
# JsonTexts — the texts of a value

The reader takes nothing but the tokens of the value that it gives
(`parseValue_sound`), so a value is read from exactly the texts with its tokens
(`Json.ofText?_eq_some_iff`). For objects and arrays these are the texts of the
parts, joined by commas between two marks, with blanks wherever they may be
(`Json.ofText?_object_iff`, `Json.ofText?_array_iff`).

Blanks that are added between tokens, or at an end of the text, leave the
tokens as they are (`Token.AddsBlanks.ofText?_eq`). A text with tokens has such
a place wherever its list of tokens is cut (`Token.scanAll_split`).
-/

namespace Equilibration.Json

/-! ## Tokens of values -/

mutual

/-- A value is read from its own tokens. -/
theorem parseValue_sound {budget : Nat} {ts rest : List Token} {j : Json}
    (h : parseValue budget ts = some (j, rest)) : ts = j.tokens ++ rest := by
  match budget with
  | 0 => cases h
  | budget + 1 =>
    unfold parseValue at h
    split at h
    iterate 5
      · cases h
        rfl
    · obtain ⟨⟨item, rest'⟩, hitem, h⟩ := Option.bind_eq_some_iff.mp h
      obtain ⟨⟨items, rest''⟩, hitems, h⟩ := Option.bind_eq_some_iff.mp h
      cases h
      rw [parseValue_sound hitem, parseItems_sound hitems, ← List.append_assoc]
      rfl
    · cases h
      rfl
    · obtain ⟨⟨v, rest'⟩, hv, h⟩ := Option.bind_eq_some_iff.mp h
      obtain ⟨⟨members, rest''⟩, hmembers, h⟩ := Option.bind_eq_some_iff.mp h
      cases h
      rw [parseValue_sound hv, parseMembers_sound hmembers, ← List.append_assoc]
      rfl
    · cases h

theorem parseItems_sound {budget : Nat} {ts rest : List Token}
    {items : List Json} (h : parseItems budget ts = some (items, rest)) :
    ts = itemTokens items ++ rest := by
  match budget with
  | 0 => cases h
  | budget + 1 =>
    unfold parseItems at h
    split at h
    · cases h
      rfl
    · obtain ⟨⟨item, rest'⟩, hitem, h⟩ := Option.bind_eq_some_iff.mp h
      obtain ⟨⟨items, rest''⟩, hitems, h⟩ := Option.bind_eq_some_iff.mp h
      cases h
      rw [parseValue_sound hitem, parseItems_sound hitems, ← List.append_assoc]
      rfl
    · cases h

theorem parseMembers_sound {budget : Nat} {ts rest : List Token}
    {members : List (Option String × Json)}
    (h : parseMembers budget ts = some (members, rest)) :
    ts = memberTokens members ++ rest := by
  match budget with
  | 0 => cases h
  | budget + 1 =>
    unfold parseMembers at h
    split at h
    · cases h
      rfl
    · obtain ⟨⟨v, rest'⟩, hv, h⟩ := Option.bind_eq_some_iff.mp h
      obtain ⟨⟨members, rest''⟩, hmembers, h⟩ := Option.bind_eq_some_iff.mp h
      cases h
      rw [parseValue_sound hv, parseMembers_sound hmembers, ← List.append_assoc]
      rfl
    · cases h

end

theorem ofTokens?_eq_some_iff {ts : List Token} {j : Json} :
    ofTokens? ts = some j ↔ ts = j.tokens := by
  constructor
  · intro h
    unfold ofTokens? at h
    split at h
    · next hparse =>
      cases h
      rw [parseValue_sound hparse, List.append_nil]
    · cases h
  · rintro rfl
    exact ofTokens?_tokens j

/-- **A value is read from the texts with its tokens.** -/
theorem ofText?_eq_some_iff {s : String} {j : Json} :
    ofText? s = some j ↔ Token.ofText? s = some j.tokens := by
  constructor
  · intro h
    obtain ⟨ts, hts, hj⟩ := Option.bind_eq_some_iff.mp h
    rw [hts, ofTokens?_eq_some_iff.mp hj]
  · intro h
    rw [ofText?, h]
    exact ofTokens?_tokens j

/-! ## Objects and arrays -/

open Token (scanAll Blanks scanAll_append scanAll_split scanAll_blanks
    scanAll_blanks_append
  scanAll_mark eq_blanks_mark endsNumber_mark blanks_of_scanAll)

/-- Each text has the tokens of its part. -/
def Texts (texts : List (List Char)) (parts : List (List Token)) : Prop :=
  List.Forall₂ (fun text part => scanAll text = some part) texts parts

/-- The text has the parts between two marks, with commas between them. Blanks
may stand before and after the marks, and anywhere around the tokens of a
part. -/
def Encloses (opening closing : Char) (parts : List (List Token))
    (cs : List Char) : Prop :=
  ∃ before inner after, Blanks before ∧ Blanks after
    ∧ cs = before ++ opening :: (inner ++ closing :: after)
    ∧ (parts = [] ∧ Blanks inner
      ∨ parts ≠ [] ∧ ∃ texts, Texts texts parts
        ∧ inner = [','].intercalate texts)

theorem endsNumber_blanks {cs : List Char} (h : Blanks cs) : EndsNumber cs := by
  cases cs with
  | nil => exact endsNumber_nil
  | cons c cs =>
    have hc : isBlank c = true := h c List.mem_cons_self
    simp only [isBlank, Bool.or_eq_true, decide_eq_true_eq] at hc
    refine ⟨?_, ?_⟩ <;> rintro _ ⟨⟩ <;> rcases hc with ((rfl | rfl) | rfl) | rfl
      <;> decide

/-- Texts that are joined by commas have their tokens joined by commas. -/
theorem scanAll_intercalate {texts : List (List Char)}
    {parts : List (List Token)} (h : Texts texts parts) (hne : parts ≠ []) :
    scanAll ([','].intercalate texts) = some ([.comma].intercalate parts) := by
  induction h with
  | nil => exact absurd rfl hne
  | @cons text part texts parts htext hrest ih =>
    cases hrest with
    | nil => simpa using htext
    | cons hnext hrest =>
      rw [List.intercalate_cons_cons, List.intercalate_cons_cons,
        List.append_assoc, List.singleton_append,
        scanAll_append htext (endsNumber_mark (t := .comma) rfl _),
        scanAll_mark (t := .comma) rfl, ih (List.cons_ne_nil _ _)]
      simp

/-- A text whose tokens are joined by commas is that of texts joined by
commas. -/
theorem exists_texts {parts : List (List Token)} (hne : parts ≠ [])
    {cs : List Char} (h : scanAll cs = some ([.comma].intercalate parts)) :
    ∃ texts, Texts texts parts ∧ cs = [','].intercalate texts := by
  induction parts generalizing cs with
  | nil => exact absurd rfl hne
  | cons part parts ih =>
    cases parts with
    | nil =>
      rw [List.intercalate_singleton] at h
      exact ⟨[cs], .cons h .nil, List.intercalate_singleton.symm⟩
    | cons next parts =>
      rw [List.intercalate_cons_cons, List.append_assoc] at h
      obtain ⟨text, cs, rfl, htext, hjoined⟩ := scanAll_split h
      obtain ⟨mark, cs, rfl, hmark, hnext⟩ := scanAll_split hjoined
      have hcomma : markOf? ',' = some .comma := rfl
      obtain ⟨before, after, hbefore, hafter, rfl⟩ :=
        eq_blanks_mark hcomma hmark
      rw [← scanAll_blanks_append hafter] at hnext
      obtain ⟨texts, htexts, hcs⟩ := ih (List.cons_ne_nil _ _) hnext
      -- blanks before the comma belong to the part before it
      refine ⟨(text ++ before) :: texts, .cons ?_ htexts, ?_⟩
      · rw [scanAll_append htext (endsNumber_blanks hbefore),
          scanAll_blanks hbefore]
        simp
      · cases htexts with
        | cons _ _ =>
          rw [List.intercalate_cons_cons, ← hcs]
          simp

section Encloses

variable {opening closing : Char} {t t' : Token} {parts : List (List Token)}
  {cs : List Char}

/-- **The texts of a list of parts** between two marks. -/
theorem encloses_iff (hopening : markOf? opening = some t)
    (hclosing : markOf? closing = some t') :
    Encloses opening closing parts cs
      ↔ scanAll cs = some (t :: ([.comma].intercalate parts ++ [t'])) := by
  constructor
  · rintro ⟨before, inner, after, hbefore, hafter, rfl, hinner⟩
    have hparts : scanAll inner = some ([.comma].intercalate parts) := by
      rcases hinner with ⟨rfl, hblanks⟩ | ⟨hne, texts, htexts, rfl⟩
      · exact scanAll_blanks hblanks
      · exact scanAll_intercalate htexts hne
    rw [scanAll_blanks_append hbefore, scanAll_mark hopening,
      scanAll_append hparts (endsNumber_mark hclosing after),
      scanAll_mark hclosing, scanAll_blanks hafter]
    rfl
  · intro h
    rw [← List.singleton_append] at h
    obtain ⟨a, cs, rfl, ha, h⟩ := scanAll_split h
    obtain ⟨inner, b, rfl, hinner, hb⟩ := scanAll_split h
    obtain ⟨before, left, hbefore, hleft, rfl⟩ := eq_blanks_mark hopening ha
    obtain ⟨right, after, hright, hafter, rfl⟩ := eq_blanks_mark hclosing hb
    have hparts : scanAll (left ++ (inner ++ right))
        = some ([.comma].intercalate parts) := by
      rw [scanAll_blanks_append hleft,
        scanAll_append hinner (endsNumber_blanks hright), scanAll_blanks hright]
      simp
    refine ⟨before, left ++ (inner ++ right), after, hbefore, hafter,
      by simp, ?_⟩
    by_cases hne : parts = []
    · rw [hne] at hparts
      exact .inl ⟨hne, blanks_of_scanAll hparts⟩
    · exact .inr ⟨hne, exists_texts hne hparts⟩

end Encloses

/-- The tokens of a member. -/
def memberPart (member : Option String × Json) : List Token :=
  .string member.1 :: .colon :: member.2.tokens

/-- Parts that are written one after the other, each behind a comma but for the
first. -/
theorem intercalate_map_append {β : Type} {part : β → List Token}
    {rest : List β → List Token} {closing : Token} (hnil : rest [] = [closing])
    (hcons : ∀ x xs, rest (x :: xs) = .comma :: (part x ++ rest xs)) (x : β)
    (xs : List β) :
    [.comma].intercalate ((x :: xs).map part) ++ [closing]
      = part x ++ rest xs := by
  induction xs generalizing x with
  | nil => rw [List.map_singleton, List.intercalate_singleton, hnil]
  | cons next xs ih =>
    rw [List.map_cons, List.map_cons, List.intercalate_cons_cons,
      ← List.map_cons, List.append_assoc, ih, List.append_assoc, hcons]
    rfl

theorem tokens_object
    (members : List (Option String × Json)) : (object members).tokens
    = .openBrace
      :: ([.comma].intercalate (members.map memberPart) ++ [.closeBrace]) := by
  cases members with
  | nil => rfl
  | cons member members =>
    rw [intercalate_map_append (rfl : memberTokens [] = _) fun _ _ => rfl]
    rfl

theorem tokens_array (items : List Json) : (array items).tokens
    = .openBracket
      :: ([.comma].intercalate (items.map tokens) ++ [.closeBracket]) := by
  cases items with
  | nil => rfl
  | cons item items =>
    rw [intercalate_map_append (rfl : itemTokens [] = _) fun _ _ => rfl]
    rfl

/-- **The texts of an object** are those of its members, in their order,
between braces. -/
theorem ofText?_object_iff {s : String}
    {members : List (Option String × Json)} :
    ofText? s = some (.object members)
      ↔ Encloses '{' '}' (members.map memberPart) s.toList := by
  have hopening : markOf? '{' = some .openBrace := rfl
  have hclosing : markOf? '}' = some .closeBrace := rfl
  rw [ofText?_eq_some_iff, tokens_object, encloses_iff hopening hclosing]
  rfl

/-- **The texts of an array** are those of its items between brackets. -/
theorem ofText?_array_iff {s : String} {items : List Json} :
    ofText? s = some (.array items)
      ↔ Encloses '[' ']' (items.map tokens) s.toList := by
  have hopening : markOf? '[' = some .openBracket := rfl
  have hclosing : markOf? ']' = some .closeBracket := rfl
  rw [ofText?_eq_some_iff, tokens_array, encloses_iff hopening hclosing]
  rfl

/-! ## Blanks -/

namespace Token

/-- The second text has blanks added to the first at a place between tokens:
what stands before the place and what stands behind it have the tokens of the
text between them. -/
def AddsBlanks (s s' : String) : Prop :=
  ∃ a blanks b ts us, Blanks blanks ∧ s.toList = a ++ b
    ∧ s'.toList = a ++ (blanks ++ b)
    ∧ scanAll a = some ts ∧ scanAll b = some us ∧ ofText? s = some (ts ++ us)

/-- Blanks between tokens mean nothing. -/
theorem AddsBlanks.ofText?_eq {s s' : String} (h : AddsBlanks s s') :
    ofText? s' = ofText? s := by
  obtain ⟨a, blanks, b, ts, us, hblanks, hs, hs', ha, hb, htokens⟩ := h
  have hends : blanks = [] ∨ EndsNumber (blanks ++ b) := by
    cases blanks with
    | nil => exact .inl rfl
    | cons c blanks =>
      refine .inr ⟨fun c' hc' => ?_, fun c' hc' => ?_⟩
      · exact (endsNumber_blanks hblanks).1 c' hc'
      · exact (endsNumber_blanks hblanks).2 c' hc'
  rcases hends with rfl | hends
  · rw [ofText?, ofText?, hs, hs']
    rfl
  · rw [htokens, ofText?, hs', scanAll_append ha hends,
      scanAll_blanks_append hblanks, hb]
    rfl

/-- There is a place between any two neighbouring tokens. -/
theorem exists_addsBlanks {s : String} {ts us : List Token}
    (h : ofText? s = some (ts ++ us))
    {blanks : List Char} (hblanks : Blanks blanks) : ∃ a b, scanAll a = some ts
      ∧ scanAll b = some us
      ∧ AddsBlanks s (String.ofList (a ++ (blanks ++ b))) := by
  obtain ⟨a, b, hs, ha, hb⟩ := scanAll_split h
  exact ⟨a, b, ha, hb, a, blanks, b, ts, us, hblanks, hs, String.toList_ofList,
    ha, hb, h⟩

end Token

theorem ofText?_of_addsBlanks {s s' : String}
    (h : Relation.ReflTransGen Token.AddsBlanks s s') :
    ofText? s' = ofText? s := by
  have htokens : Token.ofText? s' = Token.ofText? s := by
    induction h with
    | refl => rfl
    | tail _ hstep ih => exact hstep.ofText?_eq.trans ih
  rw [ofText?, htokens, ofText?]

end Equilibration.Json
