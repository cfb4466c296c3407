import ScriptEditor.Proofs.Tokenization

/-! A token sees nothing behind the character at which its rule stopped. -/

namespace ScriptEditor

/-- The token in a text that has `n` bytes more in front. -/
def Token.shift (n : Nat) (t : Token) : Token := { t with start := n + t.start }

theorem slashes_prefix_iff {c : Char} {t : Text} :
    ['/', '/'] <+: c :: t ↔ c = '/' ∧ t.head? = some '/' := by
  rw [← List.isPrefixOf_iff_prefix, Scan.isPrefixOf_slashes, Bool.and_eq_true, beq_iff_eq, beq_iff_eq]

theorem Prescribes.text_ne_nil {kind : Kind} {w t : Text} (h : Prescribes kind w t) : w ≠ [] := by
  cases t with
  | nil => exact h.elim
  | cons c t =>
    rw [((prescribes_iff kind w c t).1 h).2]
    exact Lexeme.text_ne_nil c t

theorem IsRun.of_head?_eq {P : Char → Prop} {w r r' : Text} (h : IsRun P (w ++ r) w)
    (hhead : r'.head? = r.head?) : IsRun P (w ++ r') w := by
  obtain ⟨q, hq, hw, hstop⟩ := h
  have hr : r = q := List.append_cancel_left hq
  refine ⟨r', rfl, hw, ?_⟩
  rw [hhead, hr]
  exact hstop

/-- Of what is behind the token a rule sees the first character, and whether there is one. -/
theorem Prescribes.of_head?_eq {kind : Kind} {w r r' : Text} (h : Prescribes kind w (w ++ r))
    (hr : r ≠ []) (hhead : r'.head? = r.head?) : Prescribes kind w (w ++ r') := by
  -- The tests that choose the rule look at the first two characters, the second of which may be
  -- behind the token; a run looks at the character that ends it, and a closed literal at none.
  obtain ⟨c, v, rfl⟩ := List.exists_cons_of_ne_nil h.text_ne_nil
  have hsecond : (v ++ r').head? = (v ++ r).head? := by
    rw [List.head?_append, List.head?_append, hhead]
  have hrun (P : Char → Prop) (h : IsRun P (c :: (v ++ r)) (c :: v)) :
      IsRun P (c :: (v ++ r')) (c :: v) :=
    IsRun.of_head?_eq (w := c :: v) h hhead
  have hliteral : IsLiteralAt (c :: (v ++ r)) (c :: v) → IsLiteralAt (c :: (v ++ r')) (c :: v) := by
    rintro (⟨hclosed, -⟩ | ⟨-, hall⟩)
    · exact .inl ⟨hclosed, List.prefix_append (c :: v) r'⟩
    · have hnil : c :: v ++ [] = c :: v ++ r := by rw [List.append_nil]; exact hall
      exact absurd (List.append_cancel_left hnil).symm hr
  have hslashes : ['/', '/'] <+: c :: (v ++ r') ↔ ['/', '/'] <+: c :: (v ++ r) := by
    rw [slashes_prefix_iff, slashes_prefix_iff, hsecond]
  rw [List.cons_append, Prescribes, ← ofWord_eq] at h ⊢
  simp only [hslashes]
  split_ifs at h ⊢
  case pos => exact ⟨h.1, hrun _ h.2⟩
  case pos => exact ⟨h.1, hliteral h.2⟩
  case pos => exact ⟨h.1, hrun _ h.2⟩
  case pos => exact ⟨h.1, hrun _ h.2⟩
  case pos => exact h
  case neg => exact h

variable {offset : Nat} {source : Text} {before after : List Token} {t : Token}

theorem lexAt_eq_cons_iff : lexAt offset source = t :: after ↔
    ∃ rest, source = t.text ++ rest ∧ Prescribes t.kind t.text source ∧ t.start = offset ∧
      lexAt t.stop rest = after := by
  cases source with
  | nil =>
    rw [lexAt_nil]
    constructor
    · intro h
      cases h
    · rintro ⟨rest, -, hrule, -⟩
      exact hrule.elim
  | cons c q =>
    have hfront := Lexeme.text_append_rest c q
    rw [lexAt_cons, List.cons_eq_cons]
    constructor
    · rintro ⟨rfl, rfl⟩
      exact ⟨_, hfront.symm, (prescribes_iff _ _ c q).2 ⟨rfl, rfl⟩, rfl, rfl⟩
    · rintro ⟨rest, hsource, hrule, rfl, rfl⟩
      obtain ⟨hkind, htext⟩ := (prescribes_iff _ _ c q).1 hrule
      have hrest : (Lexeme.front c q).rest = rest := by
        rw [htext, ← hfront] at hsource
        exact List.append_cancel_left hsource
      rw [hrest, Token.stop, Token.byteLength, ← hkind, ← htext]
      exact ⟨rfl, rfl⟩

/-- What is left behind some of the tokens is cut as the rest of them. -/
theorem exists_rest_of_lexAt (h : lexAt offset source = before ++ after) :
    ∃ rest, source = before.flatMap Token.text ++ rest ∧
      lexAt (offset + Text.byteLength (before.flatMap Token.text)) rest = after := by
  induction before generalizing offset source with
  | nil => exact ⟨source, rfl, h⟩
  | cons b before ih =>
    obtain ⟨q, rfl, -, rfl, hq⟩ := lexAt_eq_cons_iff.1 h
    obtain ⟨rest, rfl, hrest⟩ := ih hq
    refine ⟨rest, ?_, ?_⟩
    · rw [List.flatMap_cons, List.append_assoc]
    · rw [List.flatMap_cons, Text.byteLength_append, ← Nat.add_assoc]
      exact hrest

/-- A text that goes on differently, but with the same character, keeps the tokens in front. -/
theorem lexAt_append_of_head?_eq {rest rest' : Text}
    (h : lexAt offset (before.flatMap Token.text ++ rest) =
      before ++ lexAt (offset + Text.byteLength (before.flatMap Token.text)) rest)
    (hrest : rest ≠ []) (hhead : rest'.head? = rest.head?) :
    lexAt offset (before.flatMap Token.text ++ rest') =
      before ++ lexAt (offset + Text.byteLength (before.flatMap Token.text)) rest' := by
  induction before generalizing offset with
  | nil => rfl
  | cons b before ih =>
    rw [List.flatMap_cons, List.append_assoc, List.cons_append] at h ⊢
    obtain ⟨q, hq, hrule, hstart, hafter⟩ := lexAt_eq_cons_iff.1 h
    have hq' : q = before.flatMap Token.text ++ rest := (List.append_cancel_left hq).symm
    have hnext : (before.flatMap Token.text ++ rest').head? =
        (before.flatMap Token.text ++ rest).head? := by
      rw [List.head?_append, List.head?_append, hhead]
    have hlength : offset + Text.byteLength (b.text ++ before.flatMap Token.text) =
        b.stop + Text.byteLength (before.flatMap Token.text) := by
      rw [Text.byteLength_append, ← Nat.add_assoc, ← hstart]
      rfl
    rw [hlength] at hafter ⊢
    apply lexAt_eq_cons_iff.2
    refine ⟨_, rfl, hrule.of_head?_eq ?_ hnext, hstart, ih (hq' ▸ hafter)⟩
    exact List.append_ne_nil_of_right_ne_nil _ hrest

theorem lexAt_add (m n : Nat) (t : Text) : lexAt (m + n) t = (lexAt n t).map (.shift m) := by
  induction t using Lexeme.induction generalizing n with
  | nil => rw [lexAt_nil, lexAt_nil, List.map_nil]
  | cons c t ih =>
    rw [lexAt_cons, lexAt_cons, List.map_cons, Nat.add_assoc, ih]
    rfl

theorem lexAt_eq_map_shift (n : Nat) (t : Text) : lexAt n t = (lex t).map (.shift n) :=
  lexAt_add n 0 t

/-- The source begins at the offset, or a token of it ends there. -/
def IsTokenBoundary (source : Text) (offset : Nat) : Prop :=
  offset = 0 ∨ ∃ t ∈ lex source, t.stop = offset

instance (source : Text) (offset : Nat) : Decidable (IsTokenBoundary source offset) :=
  inferInstanceAs (Decidable (_ ∨ _))

theorem start_eq_of_lex (h : lex source = before ++ t :: after) :
    t.start = Text.byteLength (before.flatMap Token.text) := by
  have hcovers := (isTokenization_lex source).covers
  rw [h] at hcovers
  rw [hcovers.start_eq, Nat.zero_add]

/-- A token, what is behind it, and what becomes of both where another text stands in their place that
begins with the same character and is read as such a token: the tokens in front do not change. -/
theorem exists_reading (h : lex source = before ++ t :: after) : ∃ q,
    source = before.flatMap Token.text ++ (t.text ++ q) ∧
      Prescribes t.kind t.text (t.text ++ q) ∧ lexAt t.stop q = after ∧
      ∀ w q', (w ++ q').head? = (t.text ++ q).head? → Prescribes t.kind w (w ++ q') →
        lex (before.flatMap Token.text ++ (w ++ q')) =
          before ++ { t with text := w } :: lexAt (t.start + w.byteLength) q' := by
  obtain ⟨rest, hsource, hrest⟩ := exists_rest_of_lexAt h
  obtain ⟨q, rfl, hrule, hstart, hafter⟩ := lexAt_eq_cons_iff.1 hrest
  refine ⟨q, hsource, hrule, hafter, ?_⟩
  intro w q' hhead hreads
  have hne : t.text ++ q ≠ [] := List.append_ne_nil_of_left_ne_nil hrule.text_ne_nil q
  have hfront := lexAt_append_of_head?_eq (hrest ▸ hsource ▸ h) hne hhead
  have hthere : lexAt t.start (w ++ q') =
      { t with text := w } :: lexAt (t.start + w.byteLength) q' :=
    lexAt_eq_cons_iff.2 ⟨q', rfl, hreads, rfl, rfl⟩
  rw [← hstart, hthere] at hfront
  exact hfront

theorem IsTokenBoundary.exists_parts (h : IsTokenBoundary source offset) :
    ∃ before after, lex source = before ++ after ∧
      Text.byteLength (before.flatMap Token.text) = offset := by
  rcases h with rfl | ⟨t, ht, rfl⟩
  · exact ⟨[], lex source, rfl, rfl⟩
  · obtain ⟨before, after, hlex⟩ := List.append_of_mem ht
    refine ⟨before ++ [t], after, ?_, ?_⟩
    · rw [hlex, List.append_assoc, List.singleton_append]
    · rw [List.flatMap_append, List.flatMap_singleton, Text.byteLength_append,
        ← start_eq_of_lex hlex]
      rfl

/-- The tokens behind a boundary are those that start there or later. -/
theorem filter_lex (h : lex source = before ++ after) :
    (lex source).filter (Text.byteLength (before.flatMap Token.text) ≤ ·.start) = after := by
  have hfront : ∀ t ∈ before, ¬ Text.byteLength (before.flatMap Token.text) ≤ t.start := by
    intro t ht
    obtain ⟨l, r, rfl⟩ := List.append_of_mem ht
    rw [List.append_assoc, List.cons_append] at h
    have hmem : t ∈ lex source := by rw [h]; simp
    have hpos : t.text.byteLength ≠ 0 :=
      mt Text.byteLength_eq_zero.1 (text_ne_nil_of_mem_lexAt hmem)
    rw [start_eq_of_lex h, List.flatMap_append, List.flatMap_cons, Text.byteLength_append,
      Text.byteLength_append]
    omega
  have hbehind : ∀ t ∈ after, Text.byteLength (before.flatMap Token.text) ≤ t.start := by
    intro t ht
    obtain ⟨l, r, rfl⟩ := List.append_of_mem ht
    rw [← List.append_assoc] at h
    rw [start_eq_of_lex h, List.flatMap_append, Text.byteLength_append]
    omega
  rw [h, List.filter_append, List.filter_eq_nil_iff.2, List.filter_eq_self.2, List.nil_append]
  · intro t ht
    exact decide_eq_true (hbehind t ht)
  · intro t ht
    simpa using hfront t ht

/-- The last token holds what is left behind the others, and only it looks at what is appended. -/
theorem lex_append {s : Text} (hs : s ≠ []) (t : Text) : ∃ last rest,
    (lex s).getLast? = some last ∧ Scan.behind? s last.start = some rest ∧
      lex (s ++ t) = (lex s).dropLast ++ (lex (rest ++ t)).map (.shift last.start) := by
  have hne : lex s ≠ [] := by
    intro hnil
    have hjoin := flatMap_text_lexAt 0 s
    rw [← lex, hnil] at hjoin
    exact hs hjoin.symm
  obtain ⟨before, last, hlex⟩ : ∃ before last, lex s = before ++ [last] :=
    ⟨_, _, (List.dropLast_concat_getLast hne).symm⟩
  have hstart : last.start = Text.byteLength (before.flatMap Token.text) := start_eq_of_lex hlex
  obtain ⟨rest, hrest, hlast⟩ := exists_rest_of_lexAt hlex
  -- The other tokens end in front of `rest`, so they see a character of it, and nothing of `t`.
  have hrestne : rest ≠ [] := by
    rintro rfl
    simp at hlast
  have hhead : (rest ++ t).head? = rest.head? := by
    obtain ⟨c, q, rfl⟩ := List.exists_cons_of_ne_nil hrestne
    rfl
  have hkeeps := lexAt_append_of_head?_eq (hlast ▸ hrest ▸ hlex) hrestne hhead
  refine ⟨last, rest, ?_, ?_, ?_⟩
  · rw [hlex, List.getLast?_concat]
  · rw [hstart, hrest, Scan.behind?_append]
  · rw [hlex, List.dropLast_concat, hstart, ← lexAt_eq_map_shift, hrest, List.append_assoc]
    rw [Nat.zero_add] at hkeeps
    exact hkeeps

/-- Cutting into tokens is local: a text that is appended changes the last token at most, and what is
behind a boundary has the tokens of a source of its own. -/
theorem lex_isLocal :
    (∀ s t : Text, s ≠ [] → ∃ last rest,
      (lex s).getLast? = some last ∧ Scan.behind? s last.start = some rest ∧
        lex (s ++ t) = (lex s).dropLast ++ (lex (rest ++ t)).map (.shift last.start)) ∧
    (∀ s t : Text, (lex s).dropLast <+: lex (s ++ t)) ∧
    ∀ (u : Text) (p : Nat), IsTokenBoundary u p → ∃ rest, Scan.behind? u p = some rest ∧
      (lex u).filter (p ≤ ·.start) = (lex rest).map (.shift p) := by
  refine ⟨?_, ?_, ?_⟩
  · intro s t hs
    exact lex_append hs t
  · intro s t
    by_cases hs : s = []
    · rw [hs, lex, lexAt_nil]
      exact List.nil_prefix
    · obtain ⟨last, rest, -, -, hlex⟩ := lex_append hs t
      rw [hlex]
      exact List.prefix_append _ _
  · intro u p hp
    obtain ⟨before, after, hlex, rfl⟩ := hp.exists_parts
    obtain ⟨rest, hrest, hafter⟩ := exists_rest_of_lexAt hlex
    rw [Nat.zero_add, lexAt_eq_map_shift] at hafter
    refine ⟨rest, ?_, ?_⟩
    · rw [hrest, Scan.behind?_append]
    · rw [filter_lex hlex, hafter]

/-- A slash at the end becomes a comment where another one is appended; a string that is not closed is
cut off from what is in front of it. -/
theorem lex_isLocal_slash :
    lex "é/".toList = [⟨.operator, ['é'], 0⟩, ⟨.operator, ['/'], 2⟩] ∧
    lex ("é/".toList ++ "/x".toList) = [⟨.operator, ['é'], 0⟩, ⟨.comment, "//x".toList, 2⟩] ∧
    (∃ last rest, (lex "é/".toList).getLast? = some last ∧
      Scan.behind? "é/".toList last.start = some rest ∧
        lex ("é/".toList ++ "/x".toList) =
          (lex "é/".toList).dropLast ++ (lex (rest ++ "/x".toList)).map (.shift last.start)) ∧
    IsTokenBoundary "é = \"b".toList 5 ∧
    ∃ rest, Scan.behind? "é = \"b".toList 5 = some rest ∧
      (lex "é = \"b".toList).filter (5 ≤ ·.start) = (lex rest).map (.shift 5) := by
  have hne : "é/".toList ≠ [] := by decide
  have hboundary : IsTokenBoundary "é = \"b".toList 5 := by decide +kernel
  exact ⟨by decide +kernel, by decide +kernel, lex_isLocal.1 _ _ hne, hboundary,
    lex_isLocal.2.2 _ _ hboundary⟩

end ScriptEditor
