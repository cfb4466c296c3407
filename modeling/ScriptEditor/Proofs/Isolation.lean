import ScriptEditor.Proofs.Opacity

namespace ScriptEditor

section

variable {w r : Text}

theorem IsRun.alone {P : Char → Prop} (h : IsRun P (w ++ r) w) : IsRun P w w := by
  obtain ⟨-, -, hw, -⟩ := h
  refine ⟨[], (List.append_nil w).symm, hw, ?_⟩
  intro c hc
  cases hc

theorem IsLiteralAt.alone (h : IsLiteralAt (w ++ r) w) : IsLiteralAt w w := by
  rcases h with ⟨hclosed, -⟩ | ⟨hopen, hall⟩
  · exact .inl ⟨hclosed, List.prefix_refl w⟩
  · -- A literal that is not closed has taken all there is.
    exact .inr ⟨hall ▸ hopen, rfl⟩

/-- The rule that prescribes a token in front of other text prescribes it where that text is not. -/
theorem Prescribes.alone {kind : Kind} (h : Prescribes kind w (w ++ r)) : Prescribes kind w w := by
  by_cases hcomment : kind = .comment
  · subst hcomment
    -- The end of the text ends a comment as a line feed does.
    have hline : ∀ c ∈ ([] : Text).head?, c = '\n' := by
      intro c hc
      cases hc
    have halone := prescribes_comment (isComment_of_prescribes h).1 hline
    rwa [List.append_nil] at halone
  obtain ⟨c, v, rfl⟩ := List.exists_cons_of_ne_nil h.text_ne_nil
  -- Without a comment there are no two slashes in front, and so none in the text alone.
  have hslashes : ¬ ['/', '/'] <+: c :: (v ++ r) := by
    intro hprefix
    rw [List.cons_append, Prescribes, if_pos hprefix] at h
    exact hcomment h.1
  have hslashes' : ¬ ['/', '/'] <+: c :: v :=
    fun hv => hslashes (hv.trans (List.prefix_append (c :: v) r))
  rw [List.cons_append, Prescribes, if_neg hslashes, ← ofWord_eq] at h
  rw [Prescribes, if_neg hslashes', ← ofWord_eq]
  split_ifs at h ⊢
  case pos => exact ⟨h.1, IsLiteralAt.alone (r := r) h.2⟩
  case pos => exact ⟨h.1, IsRun.alone (r := r) h.2⟩
  case pos => exact ⟨h.1, IsRun.alone (r := r) h.2⟩
  case pos => exact h
  case neg => exact h

end

variable {source : Text} {t : Token}

theorem lex_text (h : t ∈ lex source) : lex t.text = [⟨t.kind, t.text, 0⟩] := by
  obtain ⟨before, after, hlex⟩ := List.append_of_mem h
  obtain ⟨q, -, hrule, -⟩ := exists_reading hlex
  apply lexAt_eq_cons_iff.2
  exact ⟨[], (List.append_nil t.text).symm, hrule.alone, rfl, lexAt_nil _⟩

theorem flatMap_lex_text {tokens : List Token} (h : ∀ t ∈ tokens, t ∈ lex source) :
    (tokens.flatMap fun t => (lex t.text).map (.shift t.start)) = tokens := by
  induction tokens with
  | nil => rfl
  | cons t tokens ih =>
    rw [List.forall_mem_cons] at h
    rw [List.flatMap_cons, lex_text h.1, ih h.2]
    rfl

theorem ofSpan?_whole (kind : Kind) (w : Text) :
    Token.ofSpan? kind w 0 w.byteLength = some ⟨kind, w, 0⟩ := by
  have h := Scan.ofSpan?_front kind [] (List.append_nil w)
  rwa [Text.byteLength_nil, Nat.zero_add, List.nil_append] at h

/-- Tokens are free of context. Wherever a token stands, its text alone is cut into that one token, of
the same kind and from end to end; so all tokens of a source are found again in their texts. -/
theorem lex_isContextFree (source : Text) :
    (∀ t ∈ lex source, lex t.text = [⟨t.kind, t.text, 0⟩] ∧
      Scan.tokens? t.text = some [⟨t.kind, t.text, 0⟩] ∧
      Token.ofSpan? t.kind t.text 0 t.text.byteLength = some ⟨t.kind, t.text, 0⟩) ∧
    ((lex source).flatMap fun t => (lex t.text).map (.shift t.start)) = lex source := by
  constructor
  · intro t ht
    have halone := lex_text ht
    refine ⟨halone, ?_, ofSpan?_whole t.kind t.text⟩
    rw [Scan.tokens?_eq_lex, halone]
  · exact flatMap_lex_text fun t ht => ht

/-- A number that letters touch, a slash alone, and a string that ends in a backslash. -/
theorem lex_isContextFree_touching :
    lex "1if/\"\\".toList = [⟨.value, ['1'], 0⟩, ⟨.keyword, "if".toList, 1⟩,
      ⟨.operator, ['/'], 3⟩, ⟨.string, ['"', '\\'], 4⟩] ∧
    lex ['"', '\\'] = [⟨.string, ['"', '\\'], 0⟩] := by
  have hlex : lex "1if/\"\\".toList = [⟨.value, ['1'], 0⟩, ⟨.keyword, "if".toList, 1⟩,
      ⟨.operator, ['/'], 3⟩, ⟨.string, ['"', '\\'], 4⟩] := by decide +kernel
  have hmem : ⟨.string, ['"', '\\'], 4⟩ ∈ lex "1if/\"\\".toList := by
    rw [hlex]
    simp
  exact ⟨hlex, ((lex_isContextFree _).1 _ hmem).1⟩

end ScriptEditor
