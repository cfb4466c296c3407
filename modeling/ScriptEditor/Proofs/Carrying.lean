import ScriptEditor.Proofs.Outline

namespace ScriptEditor

section

variable {fresh fresh' : Bool} {t first last : Token} {n : Text} {c opening closing : Char}
variable {tokens before after gap inside : List Token} {marks : List Mark}

/-- Where an outline goes on as that of other tokens does, each of these has a token in its place. -/
theorem exists_place (ht : ¬ t.isBlank)
    (h : marks ++ outlineFrom fresh (before ++ t :: after) <+: outlineFrom fresh' tokens) :
    ∃ before' t' after', tokens = before' ++ t' :: after' ∧ ¬ t'.isBlank ∧
      outlineFrom fresh' before' = marks ++ outlineFrom fresh before ∧
      Mark.ofToken (isFresh fresh before) t = .ofToken (isFresh fresh' before') t' ∧
      outlineFrom false after <+: outlineFrom false after' := by
  obtain ⟨marks', h⟩ := h
  rw [outlineFrom_append_solid ht, ← List.append_assoc, List.append_assoc, List.cons_append] at h
  obtain ⟨before', t', after', htokens, ht', hbefore, hmark, hafter⟩ :=
    exists_parts_of_outlineFrom h.symm
  exact ⟨before', t', after', htokens, ht', hbefore, hmark.symm, marks', hafter.symm⟩

/-- The same for the first one that is not blank. -/
theorem exists_next (hgap : AreBlank gap) (ht : ¬ t.isBlank)
    (h : outlineFrom fresh (gap ++ t :: after) <+: outlineFrom fresh' tokens) :
    ∃ gap' t' after', tokens = gap' ++ t' :: after' ∧ AreBlank gap' ∧
      Mark.ofToken (isFresh fresh gap) t = .ofToken (isFresh fresh' gap') t' ∧
      outlineFrom false after <+: outlineFrom false after' := by
  rw [← List.nil_append (outlineFrom _ _)] at h
  obtain ⟨gap', t', after', htokens, -, hgap', hmark, hafter⟩ := exists_place ht h
  rw [outlineFrom_eq_nil_iff.2 hgap, List.nil_append, outlineFrom_eq_nil_iff] at hgap'
  exact ⟨gap', t', after', htokens, hgap', hmark, hafter⟩

theorem exists_name (ht : t.isIdentifier) (htext : t.text = n)
    (h : marks ++ outlineFrom fresh (before ++ t :: after) <+: outlineFrom fresh' tokens) :
    ∃ before' t' after', tokens = before' ++ t' :: after' ∧ t'.isIdentifier ∧ t'.text = n ∧
      outlineFrom false after <+: outlineFrom false after' := by
  obtain ⟨before', t', after', htokens, -, -, hmark, hafter⟩ :=
    exists_place (not_isBlank_of_isIdentifier ht) h
  obtain ⟨ht', htext'⟩ := isIdentifier_of_mark hmark ht htext
  exact ⟨before', t', after', htokens, ht', htext', hafter⟩

theorem exists_sign (hsigns : SignsAreOperators (gap ++ t :: after)) (hc : c ∈ signs)
    (hgap : AreBlank gap) (ht : t.isChar c)
    (h : outlineFrom fresh (gap ++ t :: after) <+: outlineFrom fresh' tokens) :
    ∃ gap' t' after', tokens = gap' ++ t' :: after' ∧ AreBlank gap' ∧ t'.isChar c ∧
      outlineFrom false after <+: outlineFrom false after' := by
  have hsolid : ¬ t.isBlank := hsigns.not_isBlank hc t (by simp) ht
  obtain ⟨gap', t', after', htokens, hgap', hmark, hafter⟩ := exists_next hgap hsolid h
  have ht' := isChar_of_mark hmark ht (hsigns t (by simp) c hc ht)
  exact ⟨gap', t', after', htokens, hgap', ht', hafter⟩

/-- A group that follows is there in the outline, with all that is in it. -/
theorem exists_group (hsigns : SignsAreOperators (gap ++ first :: (inside ++ last :: after)))
    (hsigns' : SignsAreOperators tokens) (hopening : opening ∈ signs) (hclosing : closing ∈ signs)
    (hgap : AreBlank gap) (hfirst : first.isChar opening)
    (hinside : IsBalanced (Token.isChar opening) (Token.isChar closing) inside)
    (hlast : last.isChar closing)
    (h : outlineFrom fresh (gap ++ first :: (inside ++ last :: after)) <+:
      outlineFrom fresh' tokens) :
    ∃ gap' first' inside' last' after',
      tokens = gap' ++ first' :: (inside' ++ last' :: after') ∧ AreBlank gap' ∧
        first'.isChar opening ∧ outlineFrom false inside' = outlineFrom false inside ∧
        IsBalanced (Token.isChar opening) (Token.isChar closing) inside' ∧ last'.isChar closing ∧
        outlineFrom false after <+: outlineFrom false after' := by
  have hbehind : SignsAreOperators (inside ++ last :: after) := hsigns.behind.tail
  have hsolid : ¬ last.isBlank := hbehind.not_isBlank hclosing last (by simp) hlast
  have hoperator : last.kind = .operator := hbehind last (by simp) closing hclosing hlast
  obtain ⟨gap', first', rest', rfl, hgap', hfirst', hrest⟩ :=
    exists_sign hsigns hopening hgap hfirst h
  rw [← List.nil_append (outlineFrom _ _)] at hrest
  obtain ⟨inside', last', after', rfl, -, heq, hmark, hafter⟩ := exists_place hsolid hrest
  rw [List.nil_append] at heq
  -- What is between the two places has the outline of `inside`, so it is balanced as `inside` is.
  have hbalanced := isBalanced_outlineFrom false hinside hbehind.front hopening hclosing
  rw [← heq] at hbalanced
  have hinside' := isBalanced_of_outlineFrom hbalanced hsigns'.behind.tail.front hopening hclosing
  have hlast' := isChar_of_mark hmark hlast hoperator
  exact ⟨gap', first', inside', last', after', rfl, hgap', hfirst', heq, hinside', hlast', hafter⟩

end

section

variable {tokens tokens' : List Token} {n : Text}

theorem Binds.of_outline (h : outline tokens <:+: outline tokens') (hn : Binds tokens n) :
    Binds tokens' n := by
  obtain @⟨before, gap, gap', after, opens, name, joins, rfl, hopens, hgap, hname, htext, hgap',
    hjoins⟩ := hn
  obtain ⟨marks, marks', hmarks⟩ := h
  obtain ⟨before', opens', rest', rfl, -, -, hmark, hrest⟩ :=
    exists_place (not_isBlank_of_isKeyword hopens) ⟨marks', hmarks⟩
  obtain ⟨gap₁, name', rest₁, rfl, hgap₁, hmark₁, hrest₁⟩ :=
    exists_next hgap (not_isBlank_of_isIdentifier hname) hrest
  obtain ⟨gap₂, joins', after', rfl, hgap₂, hmark₂, -⟩ :=
    exists_next hgap' (not_isBlank_of_isKeyword hjoins) hrest₁
  have hopens' := isKeyword_of_mark hmark hopens
  have hjoins' := isKeyword_of_mark hmark₂ hjoins
  obtain ⟨hname', htext'⟩ := isIdentifier_of_mark hmark₁ hname htext
  exact .loop rfl hopens' hgap₁ hname' htext' hgap₂ hjoins'

variable (hsigns : SignsAreOperators tokens) (hsigns' : SignsAreOperators tokens')
include hsigns

theorem Calls.of_outline (h : outline tokens <:+: outline tokens') (hn : Calls tokens n) :
    Calls tokens' n := by
  obtain @⟨before, gap, after, name, sign, rfl, hname, htext, hgap, hsign⟩ := hn
  obtain ⟨marks, marks', hmarks⟩ := h
  obtain ⟨before', name', rest', rfl, hname', htext', hrest⟩ :=
    exists_name hname htext ⟨marks', hmarks⟩
  obtain ⟨gap', sign', after', rfl, hgap', hsign', -⟩ :=
    exists_sign hsigns.behind.tail (by decide) hgap hsign hrest
  exact .call rfl hname' htext' hgap' hsign'

include hsigns'

theorem Assigns.of_outline (h : outline tokens <:+: outline tokens') (hn : Assigns tokens n) :
    Assigns tokens' n := by
  obtain ⟨marks, marks', hmarks⟩ := h
  cases hn with
  | @whole before gap after name sign htokens hname htext hgap hsign =>
    subst htokens
    obtain ⟨before', name', rest', rfl, hname', htext', hrest⟩ :=
      exists_name hname htext ⟨marks', hmarks⟩
    obtain ⟨gap', sign', after', rfl, hgap', hsign', -⟩ :=
      exists_sign hsigns.behind.tail (by decide) hgap hsign hrest
    exact .whole rfl hname' htext' hgap' hsign'
  | @atIndex before gap index gap' after name sign htokens hname htext hgap hindex hgap' hsign =>
    obtain ⟨first, inside, last, rfl, hfirst, hinside, hlast⟩ := hindex
    simp only [List.cons_append, List.append_assoc, List.nil_append] at htokens
    subst htokens
    have hrests := hsigns.behind.tail
    obtain ⟨before', name', rest', rfl, hname', htext', hrest⟩ :=
      exists_name hname htext ⟨marks', hmarks⟩
    obtain ⟨gap₁, first', inside', last', rest₁, rfl, hgap₁, hfirst', -, hinside', hlast', hrest₁⟩ :=
      exists_group hrests hsigns'.behind.tail (by decide) (by decide) hgap hfirst hinside hlast hrest
    obtain ⟨gap₂, sign', after', rfl, hgap₂, hsign', -⟩ :=
      exists_sign hrests.behind.tail.behind.tail (by decide) hgap' hsign hrest₁
    have hparts : first' :: (inside' ++ last' :: (gap₂ ++ sign' :: after')) =
        first' :: (inside' ++ [last']) ++ (gap₂ ++ sign' :: after') := by simp
    rw [hparts]
    exact .atIndex rfl hname' htext' hgap₁ ⟨first', inside', last', rfl, hfirst', hinside', hlast'⟩
      hgap₂ hsign'

end

section

variable {source source' : Text} {n : Text}

theorem Declares.of_outline (h : outline (lex source) <:+: outline (lex source'))
    (hn : Declares source (lex source) n) : Declares source' (lex source') n := by
  obtain @⟨before, gap, inside, after, function, first, last, name, line, hlex, hfunction, hgap,
    hfirst, hinside, hlast, hline, hdeclares, hmem, hname, htext⟩ := hn
  have hsigns : SignsAreOperators (lex source) := signsAreOperators_lex source
  have hsigns' : SignsAreOperators (lex source') := signsAreOperators_lex source'
  have hsolid := not_isBlank_of_isIdentifier hfunction
  -- The lines in the two sources differ; what the rule sees of them is in the outlines.
  rw [hline.eq_lineBefore, ← introducesDeclaration_iff,
    introducesDeclaration_lineBefore_iff hlex hsolid] at hdeclares
  obtain ⟨marks, marks', hmarks⟩ := h
  rw [hlex] at hsigns hmarks
  obtain ⟨before', function', rest', hlex', hsolid', hbefore, hmark, hrest⟩ :=
    exists_place hsolid ⟨marks', hmarks⟩
  rw [hlex'] at hsigns'
  obtain ⟨gap', first', inside', last', after', rfl, hgap', hfirst', heq, hinside', hlast', -⟩ :=
    exists_group hsigns.behind.tail hsigns'.behind.tail (by decide) (by decide) hgap hfirst hinside
      hlast hrest
  have hdeclares' : introducesDeclaration (source'.lineBefore function'.start) := by
    have hsame : isFresh true before = isFresh true before' := congrArg Mark.opensLine hmark
    rw [introducesDeclaration_lineBefore_iff hlex' hsolid', outline, hbefore, ← hsame]
    apply hdeclares.imp_right
    rintro ⟨m, hm, hends⟩
    refine ⟨m, ?_, hends⟩
    rw [Option.mem_def, outline] at hm
    rw [List.getLast?_append, hm]
    rfl
  obtain ⟨front, back, rfl⟩ := List.append_of_mem hmem
  have hprefix : [] ++ outlineFrom false (front ++ name :: back) <+: outlineFrom false inside' :=
    heq ▸ List.prefix_refl _
  obtain ⟨front', name', back', rfl, hname', htext', -⟩ := exists_name hname htext hprefix
  obtain ⟨hfunction', -⟩ := isIdentifier_of_mark hmark hfunction rfl
  have hcut := isBoundary_start_of_mem_lex function' (by rw [hlex']; simp)
  exact .param hlex' hfunction' hgap' hfirst' hinside' hlast' (Text.isLineUpTo_lineBefore hcut)
    (introducesDeclaration_iff.1 hdeclares') (by simp) hname' htext'

/-- Every use of a name is one among the other names too. -/
structure Names.LiesIn (names others : Names) : Prop where
  assigned : names.assigned ⊆ others.assigned
  looped : names.looped ⊆ others.looped
  params : names.params ⊆ others.params
  functions : names.functions ⊆ others.functions

/-- A source whose outline holds that of another has all its names. -/
theorem Names.liesIn_of_outline (h : outline (lex source) <:+: outline (lex source')) :
    (ofTokens source (lex source)).LiesIn (ofTokens source' (lex source')) := by
  have hsigns : SignsAreOperators (lex source) := signsAreOperators_lex source
  have hsigns' : SignsAreOperators (lex source') := signsAreOperators_lex source'
  constructor
  · intro n hn
    rw [mem_assigned_iff hsigns] at hn
    exact (mem_assigned_iff hsigns').2 (hn.of_outline hsigns hsigns' h)
  · intro n hn
    rw [mem_looped_iff] at hn
    exact mem_looped_iff.2 (hn.of_outline h)
  · intro n hn
    rw [mem_params_iff hsigns isBoundary_start_of_mem_lex] at hn
    exact (mem_params_iff hsigns' isBoundary_start_of_mem_lex).2 (hn.of_outline h)
  · intro n hn
    rw [mem_functions_iff hsigns] at hn
    exact (mem_functions_iff hsigns').2 (hn.of_outline hsigns h)

/-- The same names have the same uses, in whatever order. -/
def Names.Agree (names others : Names) : Prop := names.LiesIn others ∧ others.LiesIn names

theorem Names.agree_of_outline (h : outline (lex source) = outline (lex source')) :
    (ofTokens source (lex source)).Agree (ofTokens source' (lex source')) := by
  have hright : outline (lex source) <:+: outline (lex source') := h ▸ List.infix_refl _
  have hleft : outline (lex source') <:+: outline (lex source) := h ▸ List.infix_refl _
  exact ⟨liesIn_of_outline hright, liesIn_of_outline hleft⟩

end

end ScriptEditor
