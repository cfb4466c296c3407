import ScriptEditor.Proofs.Opacity

namespace ScriptEditor

/-- A string without its closing quote. -/
def Token.IsOpenString (t : Token) : Prop := t.kind = .string ∧ ¬ IsClosedLiteral t.text

/-- A blank that is put behind the token becomes a part of it. -/
def Token.Absorbs (c : Char) (t : Token) : Prop :=
  (t.kind = .comment ∧ c ≠ '\n') ∨ t.IsOpenString

variable {source q w : Text} {before after : List Token} {t : Token} {c : Char}

theorem ne_of_isBlank {d : Char} (hc : Text.isBlank c) (hd : ¬ Text.isBlank d) : c ≠ d := by
  rintro rfl
  exact hd hc

theorem prescribes_blank (hc : Text.isBlank c) (q : Text) : Prescribes .blank [c] (c :: q) := by
  have hword : ¬ isWordChar c := not_isWordChar_of_isBlank hc
  have hslashes : ¬ ['/', '/'] <+: c :: q := by
    rw [slashes_prefix_iff]
    intro h
    exact ne_of_isBlank hc (by decide) h.1
  have hquote : c ≠ '"' := ne_of_isBlank hc (by decide)
  rw [isWordChar_iff] at hword
  rw [Prescribes, if_neg hslashes, if_neg hquote, if_neg (by tauto), if_neg (by tauto), if_pos hc]
  exact ⟨rfl, rfl⟩

theorem IsRun.stop {P : Char → Prop} (h : IsRun P (w ++ q) w) (hc : ¬ P c) (r : Text) :
    IsRun P (w ++ c :: r) w := by
  obtain ⟨-, -, hw, -⟩ := h
  refine ⟨c :: r, rfl, hw, ?_⟩
  intro d hd
  rw [List.head?_cons, Option.mem_some_iff] at hd
  exact hd ▸ hc

/-- A blank ends each token that does not take it. -/
theorem Prescribes.behind_blank (h : Prescribes t.kind t.text (t.text ++ q)) (hc : Text.isBlank c)
    (hnot : ¬ t.Absorbs c) (r : Text) : Prescribes t.kind t.text (t.text ++ c :: r) := by
  have hword : ¬ isWordChar c := not_isWordChar_of_isBlank hc
  rw [isWordChar_iff] at hword
  by_cases hcomment : t.kind = .comment
  · rw [hcomment] at h ⊢
    apply prescribes_comment (isComment_of_prescribes h).1
    intro d hd
    rw [List.head?_cons, Option.mem_some_iff] at hd
    rw [← hd]
    by_contra hne
    exact hnot (.inl ⟨hcomment, hne⟩)
  by_cases hstring : t.kind = .string
  · rw [hstring]
    apply prescribes_string
    by_contra hopen
    exact hnot (.inr ⟨hstring, hopen⟩)
  -- The other rules read a run of characters, to which no blank belongs, or one character.
  obtain ⟨d, v, htext⟩ := List.exists_cons_of_ne_nil h.text_ne_nil
  rw [htext, List.cons_append, Prescribes, ← ofWord_eq] at h ⊢
  have hslashes : ¬ ['/', '/'] <+: d :: (v ++ q) := by
    intro hslashes
    rw [if_pos hslashes] at h
    exact hcomment h.1
  have hslashes' : ¬ ['/', '/'] <+: d :: (v ++ c :: r) := by
    rw [slashes_prefix_iff] at hslashes ⊢
    cases v with
    | nil =>
      intro hboth
      have hslash : c = '/' := by simpa using hboth.2
      exact ne_of_isBlank hc (by decide) hslash
    | cons e v => exact hslashes
  have hrun (P : Char → Prop) (hP : ¬ P c) (h : IsRun P (d :: (v ++ q)) (d :: v)) :
      IsRun P (d :: (v ++ c :: r)) (d :: v) :=
    IsRun.stop (w := d :: v) h hP r
  rw [if_neg hslashes] at h
  rw [if_neg hslashes']
  split_ifs at h ⊢
  case pos => exact absurd h.1 hstring
  case pos => exact ⟨h.1, hrun _ hword h.2⟩
  case pos =>
    have hdigit : ¬ IsDigit c := fun hdigit => hword (.inr (.inl hdigit))
    exact ⟨h.1, hrun _ hdigit h.2⟩
  case pos => exact h
  case neg => exact h

theorem not_isClosedLiteral_concat (hc : c ≠ '"') (w : Text) : ¬ IsClosedLiteral (w ++ [c]) := by
  rintro ⟨b, -, h⟩
  rw [← List.cons_append] at h
  exact hc (List.cons.inj (List.append_inj' h rfl).2).1

/-- A token that takes a blank is read with the blank as it was without. -/
theorem Prescribes.with_blank (h : Prescribes t.kind t.text (t.text ++ q)) (hc : Text.isBlank c)
    (ht : t.Absorbs c) : Prescribes t.kind (t.text ++ [c]) (t.text ++ [c] ++ q) := by
  rcases ht with ⟨hkind, hne⟩ | ⟨hkind, hopen⟩
  · rw [hkind] at h ⊢
    obtain ⟨⟨hslashes, hline⟩, hq⟩ := isComment_of_prescribes h
    refine prescribes_comment ⟨hslashes.trans (List.prefix_append _ _), ?_⟩ hq
    rw [List.mem_append, List.mem_singleton]
    intro hfeed
    exact hfeed.elim hline hne.symm
  · rw [hkind, prescribes_string_iff] at h ⊢
    obtain ⟨hquote, ⟨hclosed, -⟩ | ⟨hnone, hall⟩⟩ := h
    · exact absurd hclosed hopen
    -- The string goes on to the end of the source, and with the blank it is closed no more than before.
    obtain rfl : q = [] := by simpa using hall
    rw [List.append_nil] at hquote hnone ⊢
    refine ⟨by rw [List.head?_append, hquote, Option.some_or], .inr ⟨?_, rfl⟩⟩
    intro v hv hprefix
    rcases List.prefix_concat_iff.1 hprefix with rfl | hprefix
    · exact not_isClosedLiteral_concat (ne_of_isBlank hc (by decide)) _ hv
    · exact hnone v hv hprefix

theorem lexAt_blank (hc : Text.isBlank c) (n : Nat) (q : Text) :
    lexAt n (c :: q) = ⟨.blank, [c], n⟩ :: lexAt (n + c.utf8Size) q := by
  apply lexAt_eq_cons_iff.2
  exact ⟨q, rfl, prescribes_blank hc q, rfl, rfl⟩

/-- A blank behind a token that does not take it is a token of its own, and what is behind the blank
is cut as if nothing were in front of it. -/
theorem lex_append_blank (hlex : lex source = before ++ after)
    (hlast : ∀ t ∈ before.getLast?, ¬ t.Absorbs c) (hc : Text.isBlank c) (r : Text) :
    lex (before.flatMap Token.text ++ c :: r) =
      before ++ ⟨.blank, [c], Text.byteLength (before.flatMap Token.text)⟩ ::
        lexAt (Text.byteLength (before.flatMap Token.text) + c.utf8Size) r := by
  rcases List.eq_nil_or_concat' before with rfl | ⟨front, t, rfl⟩
  · exact lexAt_blank hc 0 r
  · rw [List.append_assoc, List.singleton_append] at hlex
    obtain ⟨q, -, hrule, -, hreads⟩ := exists_reading hlex
    have hne := hrule.text_ne_nil
    have hhead : (t.text ++ c :: r).head? = (t.text ++ q).head? := by
      rw [List.head?_append_of_ne_nil _ hne, List.head?_append_of_ne_nil _ hne]
    -- The last token in front reads with the blank as it did, and all in front of it with that.
    have hblank := hrule.behind_blank hc (hlast t List.getLast?_concat) r
    have hstop : t.start + t.text.byteLength =
        Text.byteLength ((front ++ [t]).flatMap Token.text) := by
      rw [start_eq_of_lex hlex, List.flatMap_append, List.flatMap_singleton,
        Text.byteLength_append]
    rw [List.flatMap_append, List.flatMap_singleton, List.append_assoc,
      hreads t.text _ hhead hblank, lexAt_blank hc, hstop]
    simp

/-- A token that takes a blank goes on with it, and what is behind the token is only moved. -/
theorem lex_absorb_blank (hlex : lex source = before ++ t :: after) (ht : t.Absorbs c)
    (hc : Text.isBlank c) : ∃ q, source = before.flatMap Token.text ++ t.text ++ q ∧
      lexAt t.stop q = after ∧
      lex (before.flatMap Token.text ++ t.text ++ c :: q) =
        before ++ { t with text := t.text ++ [c] } :: lexAt (t.stop + c.utf8Size) q := by
  obtain ⟨q, hsource, hrule, hafter, hreads⟩ := exists_reading hlex
  have hne := hrule.text_ne_nil
  have hhead : (t.text ++ [c] ++ q).head? = (t.text ++ q).head? := by
    rw [List.append_assoc, List.head?_append_of_ne_nil _ hne, List.head?_append_of_ne_nil _ hne]
  have hthere := hreads _ q hhead (hrule.with_blank hc ht)
  refine ⟨q, ?_, hafter, ?_⟩
  · rw [hsource, List.append_assoc]
  · simpa [Token.stop, Token.byteLength, Nat.add_assoc] using hthere

theorem outlineFrom_lexAt (fresh : Bool) (n : Nat) (q : Text) :
    outlineFrom fresh (lexAt n q) = outlineFrom fresh (lex q) := by
  rw [lexAt_eq_map_shift, outlineFrom_map_shift]

theorem outline_append_lineFeed (before after : List Token) (n : Nat) :
    outline (before ++ ⟨.blank, ['\n'], n⟩ :: after) = outline before ++ outline after := by
  rw [outline, outlineFrom_append, outlineFrom_blank rfl, beq_self_eq_true, Bool.or_true]
  rfl

theorem outline_append_blank (hc : c ≠ '\n') (before after : List Token) (n : Nat) :
    outline (before ++ ⟨.blank, [c], n⟩ :: after) = outline (before ++ after) := by
  have hfeed : ([c] == ['\n']) = false := beq_eq_false_iff_ne.2 fun h => hc (List.cons.inj h).1
  rw [outline, outlineFrom_append, outlineFrom_blank rfl, hfeed, Bool.or_false,
    ← outlineFrom_append, outline]

theorem Token.Absorbs.isOpaque (ht : t.Absorbs c) : t.kind.isOpaque := by
  rcases ht with ⟨hkind, -⟩ | ⟨hkind, -⟩
  · rw [hkind]
    rfl
  · rw [hkind]
    rfl

/-- A blank that ends no line leaves the outline as it is, wherever a token ends. -/
theorem outline_lex_insert {rest : Text} (hlex : lex source = before ++ after)
    (hsource : source = before.flatMap Token.text ++ rest) (hc : Text.isBlank c) (hne : c ≠ '\n') :
    outline (lex (before.flatMap Token.text ++ c :: rest)) = outline (lex source) := by
  by_cases hlast : ∀ t ∈ before.getLast?, ¬ t.Absorbs c
  -- The blank is one more token, which the outline drops.
  · have hafter : lexAt (Text.byteLength (before.flatMap Token.text)) rest = after := by
      obtain ⟨q, hq, hafter⟩ := exists_rest_of_lexAt hlex
      obtain rfl : rest = q := List.append_cancel_left (hsource.symm.trans hq)
      rwa [Nat.zero_add] at hafter
    rw [lex_append_blank hlex hlast hc, outline_append_blank hne, hlex, ← hafter, outline, outline,
      outlineFrom_append, outlineFrom_append, outlineFrom_lexAt, outlineFrom_lexAt]
  · push Not at hlast
    obtain ⟨t, ht, habsorbs⟩ := hlast
    obtain ⟨front, rfl⟩ := List.getLast?_eq_some_iff.1 ht
    rw [List.append_assoc, List.singleton_append] at hlex
    have htext : (front ++ [t]).flatMap Token.text = front.flatMap Token.text ++ t.text := by
      rw [List.flatMap_append, List.flatMap_singleton]
    obtain ⟨q, hq, hafter, hthere⟩ := lex_absorb_blank hlex habsorbs hc
    rw [htext] at hsource ⊢
    obtain rfl : rest = q := List.append_cancel_left (hsource.symm.trans hq)
    -- The token holds another text, of which the outline shows nothing.
    have hopaque := habsorbs.isOpaque
    have hsolid : ¬ t.isBlank := not_isBlank_of_isOpaque hopaque
    have hsolid' : ¬ Token.isBlank { t with text := t.text ++ [c] } := hsolid
    rw [hthere, hlex, ← hafter, outline, outline, outlineFrom_append_solid hsolid,
      outlineFrom_append_solid hsolid', outlineFrom_lexAt, outlineFrom_lexAt,
      Mark.ofToken_opaque hopaque]

/-- Two sources with a line feed between them, the first of which does not end in an open string, have
the tokens of both, and every use of a name that one of them shows. -/
theorem lex_joins_lines {a : Text} (ha : ∀ t ∈ (lex a).getLast?, ¬ t.IsOpenString) (b : Text) :
    lex (a ++ '\n' :: b) =
      lex a ++ ⟨.blank, ['\n'], a.byteLength⟩ :: (lex b).map (.shift (a.byteLength + 1)) ∧
    ∃ first second both,
      Names.ofTokens? a (lex a) = some first ∧ Names.ofTokens? b (lex b) = some second ∧
        Names.ofTokens? (a ++ '\n' :: b) (lex (a ++ '\n' :: b)) = some both ∧
        first.LiesIn both ∧ second.LiesIn both := by
  -- A comment at the end of the first source takes any blank but this one.
  have hlast : ∀ t ∈ (lex a).getLast?, ¬ t.Absorbs '\n' := by
    rintro t ht (⟨-, hne⟩ | hopen)
    · exact hne rfl
    · exact ha t ht hopen
  have hlex : lex (a ++ '\n' :: b) =
      lex a ++ ⟨.blank, ['\n'], a.byteLength⟩ :: (lex b).map (.shift (a.byteLength + 1)) := by
    have hthere := lex_append_blank (List.append_nil _).symm hlast (by decide) b
    have htext : (lex a).flatMap Token.text = a := flatMap_text_lexAt 0 a
    rw [htext, lexAt_eq_map_shift] at hthere
    exact hthere
  have houtline : outline (lex (a ++ '\n' :: b)) = outline (lex a) ++ outline (lex b) := by
    rw [hlex, outline_append_lineFeed]
    congr 1
    exact outlineFrom_map_shift true _ _
  refine ⟨hlex, _, _, _, ofTokens?_lex a, ofTokens?_lex b, ofTokens?_lex _, ?_, ?_⟩
  · apply Names.liesIn_of_outline
    rw [houtline]
    exact (List.prefix_append _ _).isInfix
  · apply Names.liesIn_of_outline
    rw [houtline]
    exact (List.suffix_append _ _).isInfix

/-- A call that is left open, in front of a comment with a quote and a bracket in it. -/
theorem lex_joins_lines_comment :
    (∀ t ∈ (lex "f(x // \"(".toList).getLast?, ¬ t.IsOpenString) ∧
    lex ("f(x // \"(".toList ++ '\n' :: ", é) = y".toList) =
      lex "f(x // \"(".toList ++
        ⟨.blank, ['\n'], 9⟩ :: (lex ", é) = y".toList).map (.shift (9 + 1)) ∧
    ∃ first second both,
      Names.ofTokens? "f(x // \"(".toList (lex "f(x // \"(".toList) = some first ∧
        Names.ofTokens? ", é) = y".toList (lex ", é) = y".toList) = some second ∧
        Names.ofTokens? ("f(x // \"(".toList ++ '\n' :: ", é) = y".toList)
          (lex ("f(x // \"(".toList ++ '\n' :: ", é) = y".toList)) = some both ∧
        first.LiesIn both ∧ second.LiesIn both := by
  have hlast : (lex "f(x // \"(".toList).getLast? = some ⟨.comment, "// \"(".toList, 4⟩ := by
    decide +kernel
  have ha : ∀ t ∈ (lex "f(x // \"(".toList).getLast?, ¬ t.IsOpenString := by
    intro t ht hopen
    rw [hlast, Option.mem_some_iff] at ht
    rw [Token.IsOpenString, ← ht] at hopen
    exact absurd hopen.1 (by decide)
  exact ⟨ha, lex_joins_lines ha ", é) = y".toList⟩

/-- A blank that ends no line, put in where a token ends or at the start, changes no use of a name. -/
theorem splice?_blank_keeps_names {p : Nat} (hp : IsTokenBoundary source p) (hc : Text.isBlank c)
    (hne : c ≠ '\n') : ∃ source' names names', source.splice? p p [c] = some source' ∧
      Names.ofTokens? source (lex source) = some names ∧
      Names.ofTokens? source' (lex source') = some names' ∧ names.Agree names' := by
  obtain ⟨before, after, hlex, rfl⟩ := hp.exists_parts
  obtain ⟨rest, hsource, -⟩ := exists_rest_of_lexAt hlex
  refine ⟨before.flatMap Token.text ++ c :: rest, _, _, ?_, ofTokens?_lex source, ofTokens?_lex _, ?_⟩
  · have hmiddle := Text.splice?_middle (before.flatMap Token.text) [] rest [c]
    simpa [← hsource] using hmiddle
  · apply Names.agree_of_outline
    rw [outline_lex_insert hlex hsource hc hne]

/-- A tab that a comment takes, and a wide blank between a name and the bracket behind it. -/
theorem splice?_blank_keeps_names_comment :
    IsTokenBoundary "// a\nf(é)".toList 4 ∧ IsTokenBoundary "// a\nf(é)".toList 6 ∧
    (∃ source' names names', Text.splice? "// a\nf(é)".toList 4 4 ['\t'] = some source' ∧
      Names.ofTokens? "// a\nf(é)".toList (lex "// a\nf(é)".toList) = some names ∧
      Names.ofTokens? source' (lex source') = some names' ∧ names.Agree names') ∧
    ∃ source' names names', Text.splice? "// a\nf(é)".toList 6 6 ['\u3000'] = some source' ∧
      Names.ofTokens? "// a\nf(é)".toList (lex "// a\nf(é)".toList) = some names ∧
      Names.ofTokens? source' (lex source') = some names' ∧ names.Agree names' := by
  have hcomment : IsTokenBoundary "// a\nf(é)".toList 4 := by decide +kernel
  have hname : IsTokenBoundary "// a\nf(é)".toList 6 := by decide +kernel
  exact ⟨hcomment, hname, splice?_blank_keeps_names hcomment (by decide) (by decide),
    splice?_blank_keeps_names hname (by decide) (by decide)⟩

end ScriptEditor
