import ScriptEditor.Lexeme

/-! The grammar of string literals. -/

namespace ScriptEditor

/-- What may stand between the quotes of a closed literal. A backslash makes a pair with the
character behind it, whatever that is. -/
inductive IsLiteralBody : Text → Prop
  | nil : IsLiteralBody []
  | escape {c : Char} {b : Text} : IsLiteralBody b → IsLiteralBody ('\\' :: c :: b)
  | plain {c : Char} {b : Text} : c ≠ '"' → c ≠ '\\' → IsLiteralBody b → IsLiteralBody (c :: b)

theorem literalLength_add (n k : Nat) (t : Text) :
    literalLength (n + k) t = n + literalLength k t := by
  fun_induction literalLength k t with
  | case1 k => rfl
  | case2 k t => rfl
  | case3 k c t ih =>
    rw [literalLength, Nat.add_assoc, ih]
  | case4 k c t hq hs ih =>
    rw [literalLength.eq_4 _ _ _ hq hs, Nat.add_assoc, ih]

theorem le_literalLength (n : Nat) (t : Text) : n ≤ literalLength n t := by
  have h := literalLength_add n 0 t
  rw [Nat.add_zero] at h
  omega

/-- A character that neither closes the literal nor escapes another is passed over. -/
theorem literalLength_plain {c : Char} (hq : c ≠ '"') (hs : c ≠ '\\') (n : Nat) (t : Text) :
    literalLength n (c :: t) = literalLength (n + 1) t :=
  literalLength.eq_4 n c t hq fun _ _ h _ => hs h

theorem literalLength_body {b : Text} (hb : IsLiteralBody b) (r : Text) :
    literalLength 0 (b ++ '"' :: r) = b.length + 1 := by
  induction hb with
  | nil => rfl
  | @escape c b _ ih =>
    have h := literalLength_add 2 0 (b ++ '"' :: r)
    rw [ih] at h
    rw [List.cons_append, List.cons_append, literalLength, h]
    simp only [List.length_cons]
    omega
  | @plain c b hq hs _ ih =>
    have h := literalLength_add 1 0 (b ++ '"' :: r)
    rw [ih] at h
    rw [List.cons_append, literalLength_plain hq hs, h]
    simp only [List.length_cons]
    omega

/-- Either a closed literal begins with the quote in front of the text, or the literal takes all. -/
theorem literal_closes_or_takes_all (n : Nat) (t : Text) :
    (∃ b r, IsLiteralBody b ∧ t = b ++ '"' :: r) ∨ literalLength n t = n + t.length := by
  fun_induction literalLength n t with
  | case1 n => exact Or.inr rfl
  | case2 n t => exact Or.inl ⟨[], t, .nil, rfl⟩
  | case3 n c t ih =>
    rcases ih with ⟨b, r, hb, rfl⟩ | hall
    · exact Or.inl ⟨'\\' :: c :: b, r, .escape hb, rfl⟩
    · refine Or.inr ?_
      simp only [List.length_cons]
      omega
  | case4 n c t hq hs ih =>
    -- A backslash in this case is the last character, and has nothing to escape.
    by_cases hc : c = '\\'
    · cases t with
      | nil => exact Or.inr rfl
      | cons d t => exact (hs d t hc rfl).elim
    rcases ih with ⟨b, r, hb, rfl⟩ | hall
    · exact Or.inl ⟨c :: b, r, .plain hq hc hb, rfl⟩
    · refine Or.inr ?_
      simp only [List.length_cons]
      omega

theorem take_literalLength_body {b : Text} (hb : IsLiteralBody b) (r : Text) :
    (b ++ '"' :: r).take (literalLength 0 (b ++ '"' :: r)) = b ++ ['"'] := by
  have hsplit : b ++ '"' :: r = (b ++ ['"']) ++ r := by simp
  rw [literalLength_body hb, hsplit]
  exact List.take_left' (by simp)

/-- A quoted text in which the last quote is the first that no backslash takes. -/
def IsClosedLiteral (w : Text) : Prop := ∃ b, IsLiteralBody b ∧ w = '"' :: (b ++ ['"'])

/-- The literal at the front of a text that begins with a quote: the closed one that is there, and
all of the text if there is none. -/
def IsLiteralAt (t w : Text) : Prop :=
  (IsClosedLiteral w ∧ w <+: t) ∨ ((∀ v, IsClosedLiteral v → ¬ v <+: t) ∧ w = t)

theorem exists_body_of_closed_prefix {w t : Text} (hw : IsClosedLiteral w) (h : w <+: '"' :: t) :
    ∃ b r, IsLiteralBody b ∧ w = '"' :: (b ++ ['"']) ∧ t = b ++ '"' :: r := by
  obtain ⟨b, hb, rfl⟩ := hw
  obtain ⟨r, hr⟩ := h
  refine ⟨b, r, hb, rfl, ?_⟩
  have ht := (List.cons.inj hr).2
  simpa using ht.symm

theorem literalLength_of_open {t : Text} (hopen : ∀ v, IsClosedLiteral v → ¬ v <+: '"' :: t) :
    literalLength 0 t = t.length := by
  rcases literal_closes_or_takes_all 0 t with ⟨b, r, hb, rfl⟩ | hall
  · exact (hopen _ ⟨b, hb, rfl⟩ ⟨r, by simp⟩).elim
  · rw [hall, Nat.zero_add]

theorem isLiteralAt_iff (t w : Text) :
    IsLiteralAt ('"' :: t) w ↔ w = '"' :: t.take (literalLength 0 t) := by
  constructor
  · intro h
    rcases h with ⟨hw, hpre⟩ | ⟨hopen, rfl⟩
    · obtain ⟨b, r, hb, rfl, rfl⟩ := exists_body_of_closed_prefix hw hpre
      rw [take_literalLength_body hb]
    · rw [literalLength_of_open hopen, List.take_length]
  · intro h
    rw [h]
    by_cases hclosed : ∃ v, IsClosedLiteral v ∧ v <+: '"' :: t
    · obtain ⟨v, hv, hpre⟩ := hclosed
      obtain ⟨b, r, hb, rfl, rfl⟩ := exists_body_of_closed_prefix hv hpre
      rw [take_literalLength_body hb]
      exact Or.inl ⟨hv, hpre⟩
    · have hopen : ∀ v, IsClosedLiteral v → ¬ v <+: '"' :: t := fun v hv h => hclosed ⟨v, hv, h⟩
      rw [literalLength_of_open hopen, List.take_length]
      exact Or.inr ⟨hopen, rfl⟩

end ScriptEditor
