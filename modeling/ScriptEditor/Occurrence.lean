import ScriptEditor.Token

namespace ScriptEditor

structure Occurrence where
  token : Token
  rest : List Token
deriving DecidableEq, Repr

def occurrencesOnto (seen : List Occurrence) : List Token → List Occurrence
  | [] => seen.reverse
  | t :: rest => occurrencesOnto (⟨t, rest⟩ :: seen) rest

/-- All tokens of the list in their order, each with what follows it. -/
def occurrences (tokens : List Token) : List Occurrence := occurrencesOnto [] tokens

theorem occurrencesOnto_eq (seen : List Occurrence) (tokens : List Token) :
    occurrencesOnto seen tokens = seen.reverse ++ occurrences tokens := by
  induction tokens generalizing seen with
  | nil => simp [occurrences, occurrencesOnto]
  | cons t rest ih =>
    rw [occurrences, occurrencesOnto, occurrencesOnto, ih, ih [_]]
    simp

@[simp] theorem occurrences_nil : occurrences [] = [] := rfl

@[simp] theorem occurrences_cons (t : Token) (rest : List Token) :
    occurrences (t :: rest) = ⟨t, rest⟩ :: occurrences rest := by
  rw [occurrences, occurrencesOnto, occurrencesOnto_eq]
  rfl

@[simp] theorem map_token_occurrences (tokens : List Token) :
    (occurrences tokens).map Occurrence.token = tokens := by
  induction tokens with
  | nil => rfl
  | cons t rest ih => rw [occurrences_cons, List.map_cons, ih]

theorem mem_occurrences {o : Occurrence} {tokens : List Token} :
    o ∈ occurrences tokens ↔ ∃ before, tokens = before ++ o.token :: o.rest := by
  induction tokens with
  | nil => simp
  | cons t rest ih =>
    rw [occurrences_cons, List.mem_cons, ih]
    constructor
    · rintro (rfl | ⟨before, h⟩)
      · exact ⟨[], rfl⟩
      · exact ⟨t :: before, by rw [h]; rfl⟩
    · rintro ⟨before, h⟩
      cases before with
      | nil =>
        obtain ⟨rfl, rfl⟩ := List.cons.inj h
        exact Or.inl rfl
      | cons b before => exact Or.inr ⟨before, (List.cons.inj h).2⟩

theorem drop_of_getElem? {tokens : List Token} {i : Nat} {t : Token} (h : tokens[i]? = some t) :
    tokens.drop i = t :: tokens.drop (i + 1) := by
  obtain ⟨hlt, rfl⟩ := List.getElem?_eq_some_iff.1 h
  exact List.drop_eq_getElem_cons hlt

theorem eq_append_of_getElem? {tokens : List Token} {i : Nat} {t : Token}
    (h : tokens[i]? = some t) : tokens = tokens.take i ++ t :: tokens.drop (i + 1) := by
  rw [← drop_of_getElem? h, List.take_append_drop]

/-- The tokens from the first one on that is not blank. -/
def skipBlanks (tokens : List Token) : List Token := tokens.dropWhile Token.isBlank

/-- The index of the first token at or behind the given one that is not blank, or the number of all
tokens. -/
def skipBlanksFrom (tokens : List Token) (index : Nat) : Nat :=
  min index tokens.length + ((tokens.drop index).takeWhile Token.isBlank).length

end ScriptEditor
