import ScriptEditor.Proofs.Carrying

namespace ScriptEditor

/-- The text of a comment, without the end of its line. -/
def IsComment (w : Text) : Prop := ['/', '/'] <+: w ∧ '\n' ∉ w

/-- The token may have `w` for its text: if it is a comment, any comment, and if it is a string that
is closed, any such string. -/
inductive Token.MayRead (t : Token) (w : Text) : Prop
  | comment (hkind : t.kind = .comment) (hw : IsComment w)
  | string (hkind : t.kind = .string) (hclosed : IsClosedLiteral t.text) (hw : IsClosedLiteral w)

/-- What is left of a token apart from its place. -/
def Token.content (t : Token) : Kind × Text := (t.kind, t.text)

section

variable {w q t : Text}

theorem ne_ofWord {kind : Kind} (h : kind.isOpaque) (v : Text) : kind ≠ .ofWord v := by
  rintro rfl
  rw [ofWord_eq] at h
  split_ifs at h <;> cases h

theorem prescribes_comment_iff :
    Prescribes .comment w t ↔ ['/', '/'] <+: t ∧ IsRun (· ≠ '\n') t w := by
  cases t with
  | nil => simp [Prescribes]
  | cons c t =>
    -- No other rule prescribes a comment; that a word is none is seen from the kinds of words.
    have hword (v : Text) : Kind.comment ≠ .ofWord v := ne_ofWord rfl v
    rw [Prescribes, ← ofWord_eq]
    split_ifs with hslashes <;> simp [hslashes, hword]

/-- A comment holds both its slashes and ends in front of a line feed. -/
theorem isComment_of_prescribes (h : Prescribes .comment w (w ++ q)) :
    IsComment w ∧ ∀ c ∈ q.head?, c = '\n' := by
  obtain ⟨hslashes, r, hr, hline, hstop⟩ := prescribes_comment_iff.1 h
  obtain rfl : q = r := List.append_cancel_left hr
  refine ⟨⟨?_, fun hfeed => hline _ hfeed rfl⟩, fun c hc => not_not.1 (hstop c hc)⟩
  obtain ⟨d, v, rfl⟩ := List.exists_cons_of_ne_nil h.text_ne_nil
  rw [List.cons_append, slashes_prefix_iff] at hslashes
  rw [slashes_prefix_iff]
  refine ⟨hslashes.1, ?_⟩
  cases v with
  | nil => exact absurd (by decide) (hstop '/' hslashes.2)
  | cons e v => exact hslashes.2

theorem head?_of_slashes (h : ['/', '/'] <+: t) : t.head? = some '/' := by
  obtain ⟨r, rfl⟩ := h
  rfl

theorem prescribes_comment (hw : IsComment w) (hq : ∀ c ∈ q.head?, c = '\n') :
    Prescribes .comment w (w ++ q) := by
  obtain ⟨hslashes, hline⟩ := hw
  apply prescribes_comment_iff.2
  refine ⟨hslashes.trans (List.prefix_append w q), q, rfl, ?_, ?_⟩
  · intro c hc hfeed
    exact hline (hfeed ▸ hc)
  · intro c hc hne
    exact hne (hq c hc)

theorem prescribes_string_iff :
    Prescribes .string w t ↔ t.head? = some '"' ∧ IsLiteralAt t w := by
  cases t with
  | nil => simp [Prescribes]
  | cons c t =>
    have hword (v : Text) : Kind.string ≠ .ofWord v := ne_ofWord rfl v
    rw [Prescribes, ← ofWord_eq]
    by_cases hquote : c = '"'
    · simp [hquote]
    · split_ifs <;> simp [hquote, hword]

theorem prescribes_string (hw : IsClosedLiteral w) (q : Text) : Prescribes .string w (w ++ q) := by
  apply prescribes_string_iff.2
  refine ⟨?_, .inl ⟨hw, List.prefix_append w q⟩⟩
  obtain ⟨b, -, rfl⟩ := hw
  rfl

end

section

variable {source w q : Text} {before after : List Token} {t : Token}

namespace Token.MayRead

theorem prescribes (hw : t.MayRead w) (ht : Prescribes t.kind t.text (t.text ++ q)) :
    Prescribes t.kind w (w ++ q) := by
  cases hw with
  | comment hkind hw =>
    rw [hkind] at ht ⊢
    exact prescribes_comment hw (isComment_of_prescribes ht).2
  | string hkind _ hw =>
    rw [hkind]
    exact prescribes_string hw q

/-- The character that the tokens in front may see is the same. -/
theorem head?_append (hw : t.MayRead w) (ht : Prescribes t.kind t.text (t.text ++ q)) :
    (w ++ q).head? = (t.text ++ q).head? := by
  cases hw with
  | comment hkind hw =>
    rw [hkind] at ht
    rw [head?_of_slashes (prescribes_comment_iff.1 ht).1,
      head?_of_slashes (hw.1.trans (List.prefix_append w q))]
  | string _ hclosed hw =>
    obtain ⟨b, -, htext⟩ := hclosed
    obtain ⟨d, -, rfl⟩ := hw
    rw [htext]
    rfl

theorem isOpaque (hw : t.MayRead w) : t.kind.isOpaque := by
  cases hw with
  | comment hkind =>
    rw [hkind]
    rfl
  | string hkind =>
    rw [hkind]
    rfl

/-- With the other text the token is where it was, the tokens in front of it are the same, and those
behind it are only moved. -/
theorem lex_eq (hw : t.MayRead w) (hlex : lex source = before ++ t :: after) :
    ∃ q, source = before.flatMap Token.text ++ t.text ++ q ∧
      after = (lex q).map (.shift t.stop) ∧
      lex (before.flatMap Token.text ++ w ++ q) =
        before ++ { t with text := w } :: (lex q).map (.shift (t.start + w.byteLength)) := by
  obtain ⟨q, hsource, hrule, hafter, hreads⟩ := exists_reading hlex
  refine ⟨q, ?_, ?_, ?_⟩
  · rw [hsource, List.append_assoc]
  · rw [← hafter, lexAt_eq_map_shift]
  · -- The tokens in front see one character of what follows them, and that one is the same.
    rw [List.append_assoc, ← lexAt_eq_map_shift]
    exact hreads w q (hw.head?_append hrule) (hw.prescribes hrule)

end Token.MayRead

theorem outlineFrom_map_shift (fresh : Bool) (n : Nat) (tokens : List Token) :
    outlineFrom fresh (tokens.map (.shift n)) = outlineFrom fresh tokens := by
  induction tokens generalizing fresh with
  | nil => rfl
  | cons t tokens ih =>
    rw [List.map_cons, outlineFrom, outlineFrom, ih, ih]
    rfl

theorem Mark.ofToken_opaque (ht : t.kind.isOpaque) (fresh : Bool) (w : Text) :
    ofToken fresh { t with text := w } = ofToken fresh t := by
  rw [ofToken, ofToken, if_pos ht, if_pos ht]

theorem not_isBlank_of_isOpaque (ht : t.kind.isOpaque) : ¬ t.isBlank := by
  intro hblank
  rw [beq_iff_eq.1 hblank] at ht
  cases ht

/-- Another text in the place of a comment or of a closed string leaves the kinds and the texts of all
other tokens and the names in each use. -/
theorem Token.MayRead.keeps_others (hw : t.MayRead w) (hlex : lex source = before ++ t :: after) :
    ∃ source' after' names names', source.splice? t.start t.stop w = some source' ∧
      lex source' = before ++ { t with text := w } :: after' ∧
      after'.map Token.content = after.map Token.content ∧
      Names.ofTokens? source (lex source) = some names ∧
      Names.ofTokens? source' (lex source') = some names' ∧ names.Agree names' := by
  have hstart := start_eq_of_lex hlex
  obtain ⟨q, hsource, hafter, hlex'⟩ := hw.lex_eq hlex
  refine ⟨_, _, _, _, ?_, hlex', ?_, ofTokens?_lex source, ofTokens?_lex _, ?_⟩
  · rw [Token.stop, Token.byteLength, hstart, hsource, Text.splice?_middle]
  · rw [hafter, List.map_map, List.map_map]
    rfl
  · have ht : ¬ t.isBlank := not_isBlank_of_isOpaque hw.isOpaque
    have ht' : ¬ Token.isBlank { t with text := w } := ht
    apply Names.agree_of_outline
    rw [hlex, hlex', hafter, outline, outline, outlineFrom_append_solid ht,
      outlineFrom_append_solid ht', outlineFrom_map_shift, outlineFrom_map_shift,
      Mark.ofToken_opaque hw.isOpaque _ w]

/-- A line feed, an escaped quote and a bracket in a string in front of a call. -/
theorem Token.MayRead.keeps_others_brackets :
    ∃ source' after' names names',
      Text.splice? "\"a\" f(b)".toList 0 3 "\"\n\\\"(\"".toList = some source' ∧
        lex source' = ⟨.string, "\"\n\\\"(\"".toList, 0⟩ :: after' ∧
        after'.map Token.content = [(.blank, [' ']), (.identifier, ['f']), (.operator, ['(']),
          (.identifier, ['b']), (.operator, [')'])] ∧
        Names.ofTokens? "\"a\" f(b)".toList (lex "\"a\" f(b)".toList) = some names ∧
        Names.ofTokens? source' (lex source') = some names' ∧ names.Agree names' := by
  let t : Token := ⟨.string, "\"a\"".toList, 0⟩
  have hold : IsClosedLiteral t.text := by
    refine ⟨['a'], ?_, rfl⟩
    exact .plain (by decide) (by decide) .nil
  have hnew : IsClosedLiteral "\"\n\\\"(\"".toList := by
    refine ⟨['\n', '\\', '"', '('], ?_, rfl⟩
    exact .plain (by decide) (by decide) (.escape (.plain (by decide) (by decide) .nil))
  have hlex : lex "\"a\" f(b)".toList = [] ++ t :: [⟨.blank, [' '], 3⟩, ⟨.identifier, ['f'], 4⟩,
      ⟨.operator, ['('], 5⟩, ⟨.identifier, ['b'], 6⟩, ⟨.operator, [')'], 7⟩] := by
    decide +kernel
  exact Token.MayRead.keeps_others (.string rfl hold hnew) hlex

end

end ScriptEditor
