import Mathlib.Data.List.DropRight
import ScriptEditor.Names
import ScriptEditor.Proofs.Borders

/-! The rule for declarations looks at the text of a line; this is what it sees of the tokens. -/

namespace ScriptEditor

theorem introducesDeclaration_of_blank {t : Text} (h : ∀ c ∈ t, Text.isBlank c) :
    introducesDeclaration t := by
  have hall : t.reverse.dropWhile Text.isBlank = [] := by
    rw [List.dropWhile_eq_nil_iff]
    intro c hc
    exact h c (List.mem_reverse.1 hc)
  rw [← List.reverse_reverse t, ← introducesDeclarationAtEnd_eq, introducesDeclarationAtEnd, hall]
  rfl

theorem introducesDeclaration_append_cons {c : Char} {b : Text} (a : Text) (hc : ¬ Text.isBlank c)
    (hb : ∀ d ∈ b, Text.isBlank d) :
    introducesDeclaration (a ++ c :: b) ↔ Word.opensFunction <:+ a ++ [c] := by
  -- Read from its end, the text has the blanks of `b` first, and `c` stops the dropping.
  have hdrop : (a ++ c :: b).reverse.dropWhile Text.isBlank = (a ++ [c]).reverse := by
    have hblank : ∀ d ∈ b.reverse, Text.isBlank d := by
      intro d hd
      exact hb d (List.mem_reverse.1 hd)
    rw [List.reverse_append, List.reverse_cons, List.append_assoc,
      List.dropWhile_append_of_pos hblank, List.singleton_append, List.dropWhile_cons_of_neg hc,
      List.reverse_append]
    rfl
  have hne : (a ++ [c]).reverse.isEmpty = false := by simp
  rw [← List.reverse_reverse (a ++ c :: b), ← introducesDeclarationAtEnd_eq,
    introducesDeclarationAtEnd, hdrop, hne, Bool.false_or, List.isPrefixOf_iff_prefix,
    List.reverse_prefix]

/-- The blanks behind the last token that is not one. -/
def blanksBehind (tokens : List Token) : List Token := tokens.rtakeWhile Token.isBlank

/-- The last token that is not blank. -/
def lastSolid? (tokens : List Token) : Option Token := (tokens.rdropWhile Token.isBlank).getLast?

/-- A line ends among the blanks behind the last token that is not one. -/
def EndsLine (tokens : List Token) : Prop := ∃ b ∈ blanksBehind tokens, b.text = ['\n']

/-- The rule for what stands in front of a call: no token, or none on its line, or the keyword for
functions as the last one. -/
def IsDeclaredBehind (before : List Token) : Prop :=
  lastSolid? before = none ∨ EndsLine before ∨
    ∃ p ∈ lastSolid? before, p.isKeyword Word.opensFunction

/-- The last token in front, on the same line, is a name that ends in the letters of the keyword. -/
def IsMistakenBehind (before : List Token) : Prop :=
  ¬ EndsLine before ∧ ∃ p ∈ lastSolid? before, p.isIdentifier ∧ Word.opensFunction <:+ p.text

instance : DecidablePred EndsLine := fun _ => inferInstanceAs (Decidable (∃ _ ∈ _, _))

instance : DecidablePred IsDeclaredBehind := fun _ => inferInstanceAs (Decidable (_ ∨ _ ∨ _))

instance : DecidablePred IsMistakenBehind := fun _ => inferInstanceAs (Decidable (_ ∧ _))

/-- Of the tokens that end in the letters of the keyword, only the keyword is not a name: a literal
value has other letters, a string ends in its quote, and a comment ends with its line. -/
theorem Token.Borders.opensFunction_suffix_iff {p next : Token} (h : p.Borders next)
    (hnext : ¬ (next.isBlank ∧ next.text = ['\n'])) :
    Word.opensFunction <:+ p.text ↔
      p.isKeyword Word.opensFunction ∨ (p.isIdentifier ∧ Word.opensFunction <:+ p.text) := by
  constructor
  · intro hsuffix
    obtain ⟨a, ha⟩ := hsuffix
    have hmem : 'n' ∈ p.text := by
      rw [← ha]
      exact List.mem_append_right a (by decide)
    have hlength : 1 < p.text.length := by
      rw [← ha, List.length_append]
      exact Nat.lt_add_left a.length (by decide)
    cases h with
    | comment _ hblank hfeed => exact absurd ⟨hblank, hfeed⟩ hnext
    | string _ w hw =>
      have hlast : Word.opensFunction.getLast? = some 'n' := by decide
      have hquote : p.text.getLast? = some '"' := by rw [hw, List.getLast?_concat]
      rw [← ha, List.getLast?_append, hlast, Option.some_or] at hquote
      exact absurd hquote (by decide)
    | word hkind =>
      rw [ofWord_eq] at hkind
      split at hkind
      case isTrue hkeyword =>
        have hall : ∀ w ∈ Word.keywords, Word.opensFunction <:+ w → w = Word.opensFunction := by
          decide
        have htext := hall _ hkeyword ⟨a, ha⟩
        left
        rw [Token.isKeyword, hkind, htext]
        rfl
      split at hkind
      case isTrue hliteral =>
        have hnone : ∀ w ∈ Word.literals, ¬ Word.opensFunction <:+ w := by decide
        exact absurd ⟨a, ha⟩ (hnone _ hliteral)
      · right
        rw [Token.isIdentifier, hkind]
        exact ⟨rfl, a, ha⟩
    | number _ hchars =>
      have hdigit := hchars 'n' hmem
      exact absurd hdigit (by decide)
    | blank _ c hc => simp [hc] at hlength
    | operator _ c hc => simp [hc] at hlength
  · intro h
    rcases h with hkeyword | ⟨-, hsuffix⟩
    · rw [Token.isKeyword, Bool.and_eq_true, beq_iff_eq, beq_iff_eq] at hkeyword
      exact hkeyword.2 ▸ List.suffix_refl _
    · exact hsuffix

section

variable {before after : List Token} {t p : Token}

theorem exists_solid (h : lastSolid? before = some p) :
    ¬ p.isBlank ∧ ∃ us, before = us ++ p :: blanksBehind before := by
  obtain ⟨us, hus⟩ := List.getLast?_eq_some_iff.1 h
  have hsplit : before.rdropWhile Token.isBlank ++ blanksBehind before = before :=
    List.rdropWhile_append_rtakeWhile
  have hsolid := List.rdropWhile_last_not Token.isBlank before
  simp only [hus, List.append_assoc, List.singleton_append] at hsplit hsolid
  constructor
  · simpa using hsolid (by simp)
  · exact ⟨us, hsplit.symm⟩

theorem exists_borders {us rest : List Token}
    (hchain : (us ++ p :: rest ++ t :: after).IsChain Token.Borders) :
    ∃ next ∈ rest ++ [t], p.Borders next := by
  rw [List.append_assoc, List.cons_append] at hchain
  cases rest with
  | nil => exact ⟨t, by simp, (List.isChain_append_cons_cons.1 hchain).2.1⟩
  | cons next rest => exact ⟨next, by simp, (List.isChain_append_cons_cons.1 hchain).2.1⟩

theorem exists_of_mem_blanksBehind (hchain : (before ++ t :: after).IsChain Token.Borders) {b : Token}
    (hb : b ∈ blanksBehind before) : ∃ c, b.text = [c] ∧ Text.isBlank c := by
  have hblank : b.isBlank := List.mem_rtakeWhile_imp hb
  have hmem : b ∈ before := (List.rtakeWhile_suffix Token.isBlank before).mem hb
  obtain ⟨us, rest, rfl⟩ := List.append_of_mem hmem
  obtain ⟨next, -, hborders⟩ := exists_borders hchain
  exact hborders.exists_of_isBlank hblank

theorem mem_blanks_iff (hchain : (before ++ t :: after).IsChain Token.Borders) (c : Char) :
    c ∈ (blanksBehind before).flatMap Token.text ↔
      Text.isBlank c ∧ ∃ b ∈ blanksBehind before, b.text = [c] := by
  rw [List.mem_flatMap]
  constructor
  · rintro ⟨b, hb, hcb⟩
    obtain ⟨d, hd, hblank⟩ := exists_of_mem_blanksBehind hchain hb
    rw [hd, List.mem_singleton] at hcb
    subst hcb
    exact ⟨hblank, b, hb, hd⟩
  · rintro ⟨-, b, hb, htext⟩
    exact ⟨b, hb, htext ▸ List.mem_singleton_self c⟩

/-- The line is blank if there is no token in front, and if there is none on the line. -/
theorem isBlank_lastLine (hchain : (before ++ t :: after).IsChain Token.Borders)
    (h : lastSolid? before = none ∨ EndsLine before) :
    ∀ c ∈ Text.lastLine (before.flatMap Token.text), Text.isBlank c := by
  intro c hc
  have hmem : c ∈ (blanksBehind before).flatMap Token.text := by
    rcases h with hnone | hends
    · have hall : blanksBehind before = before := by
        rw [lastSolid?, List.getLast?_eq_none_iff, List.rdropWhile_eq_nil_iff] at hnone
        exact List.rtakeWhile_eq_self_iff.2 hnone
      rw [hall]
      exact (Text.lastLine_suffix _).mem hc
    · obtain ⟨us, hus⟩ := List.rtakeWhile_suffix Token.isBlank before
      have hfeed : '\n' ∈ (blanksBehind before).flatMap Token.text :=
        (mem_blanks_iff hchain '\n').2 ⟨by decide, hends⟩
      rw [← hus, List.flatMap_append] at hc
      exact (Text.lastLine_append_suffix hfeed _).mem hc
  exact ((mem_blanks_iff hchain c).1 hmem).1

/-- Of what stands in front on the line, only the end of the last token counts. -/
theorem introducesDeclaration_behind {us : List Token} {next : Token} {b : Text}
    (hchain : (us ++ [p]).IsChain Token.Borders) (hne : ∀ u ∈ us ++ [p], u.text ≠ [])
    (hsolid : ¬ p.isBlank) (hborders : p.Borders next)
    (hnext : ¬ (next.isBlank ∧ next.text = ['\n'])) (hb : ∀ c ∈ b, Text.isBlank c)
    (hfeed : '\n' ∉ b) :
    introducesDeclaration (Text.lastLine ((us ++ [p]).flatMap Token.text ++ b)) ↔
      Word.opensFunction <:+ p.text := by
  have hletters : Word.opensFunction.all isWordStart := by decide
  -- The last character of `p` is where trimming stops, so it must not be blank itself.
  obtain ⟨w, c, hp⟩ : ∃ w c, p.text = w ++ [c] := by
    rcases List.eq_nil_or_concat' p.text with hnil | h
    · exact absurd hnil (hne p (by simp))
    · exact h
  have hc : ¬ Text.isBlank c := by
    intro hblank
    rcases hborders.isBlank_last hp hblank with h | h
    · exact hsolid h
    · exact hnext h
  have htext : (us ++ [p]).flatMap Token.text = us.flatMap Token.text ++ w ++ [c] := by
    rw [List.flatMap_append, List.flatMap_singleton, hp, List.append_assoc]
  have hline : Text.lastLine ((us ++ [p]).flatMap Token.text) =
      Text.lastLine (us.flatMap Token.text ++ w) ++ [c] := by
    rw [htext, Text.lastLine_append_singleton, if_neg]
    rintro rfl
    exact hc (by decide)
  rw [Text.lastLine_append_of_not_mem hfeed, hline, List.append_assoc, List.singleton_append,
    introducesDeclaration_append_cons _ hc hb, ← hline, Text.suffix_lastLine_iff (by decide),
    suffix_flatMap_iff (List.all_eq_true.1 hletters) hchain hne]

theorem introducesDeclaration_of_solid (hchain : (before ++ t :: after).IsChain Token.Borders)
    (hne : ∀ u ∈ before, u.text ≠ []) (ht : ¬ t.isBlank) (hp : lastSolid? before = some p)
    (hends : ¬ EndsLine before) :
    introducesDeclaration (Text.lastLine (before.flatMap Token.text)) ↔
      p.isKeyword Word.opensFunction ∨ (p.isIdentifier ∧ Word.opensFunction <:+ p.text) := by
  obtain ⟨hsolid, us, hbefore⟩ := exists_solid hp
  -- A comment would have the end of its line behind it, and so would not be the last on this one.
  obtain ⟨next, hmem, hborders⟩ := exists_borders (hbefore ▸ hchain)
  have hnext : ¬ (next.isBlank ∧ next.text = ['\n']) := by
    rintro ⟨hblank, hbreaks⟩
    rcases List.mem_append.1 hmem with hgap | hlast
    · exact hends ⟨next, hgap, hbreaks⟩
    · rw [List.mem_singleton.1 hlast] at hblank
      exact ht hblank
  have hfront : (us ++ [p]) ++ blanksBehind before = before := by
    rw [List.append_assoc, List.singleton_append, ← hbefore]
  have hpchain : (us ++ [p]).IsChain Token.Borders := by
    rw [← hfront, List.append_assoc] at hchain
    exact hchain.left_of_append
  have hpne : ∀ u ∈ us ++ [p], u.text ≠ [] := by
    intro u hu
    exact hne u (hfront ▸ List.mem_append_left _ hu)
  have hblank : ∀ c ∈ (blanksBehind before).flatMap Token.text, Text.isBlank c := by
    intro c hc
    exact ((mem_blanks_iff hchain c).1 hc).1
  have hfeed : '\n' ∉ (blanksBehind before).flatMap Token.text := by
    intro hmem
    exact hends ((mem_blanks_iff hchain '\n').1 hmem).2
  have htext : before.flatMap Token.text =
      (us ++ [p]).flatMap Token.text ++ (blanksBehind before).flatMap Token.text := by
    rw [← List.flatMap_append, hfront]
  rw [htext, introducesDeclaration_behind hpchain hpne hsolid hborders hnext hblank hfeed]
  exact hborders.opensFunction_suffix_iff hnext

/-- What the line in front of a token shows of the tokens on it. -/
theorem introducesDeclaration_lastLine_iff (hchain : (before ++ t :: after).IsChain Token.Borders)
    (hne : ∀ u ∈ before, u.text ≠ []) (ht : ¬ t.isBlank) :
    introducesDeclaration (Text.lastLine (before.flatMap Token.text)) ↔
      IsDeclaredBehind before ∨ IsMistakenBehind before := by
  by_cases hblank : lastSolid? before = none ∨ EndsLine before
  · have hline := introducesDeclaration_of_blank (isBlank_lastLine hchain hblank)
    exact iff_of_true hline (.inl (hblank.imp_right .inl))
  · rw [not_or] at hblank
    obtain ⟨hsome, hends⟩ := hblank
    obtain ⟨p, hp⟩ := Option.ne_none_iff_exists'.1 hsome
    rw [introducesDeclaration_of_solid hchain hne ht hp hends, IsDeclaredBehind, IsMistakenBehind, hp]
    simp [hends]

theorem not_isDeclaredBehind (h : IsMistakenBehind before) : ¬ IsDeclaredBehind before := by
  obtain ⟨hends, p, hp, hname, -⟩ := h
  rintro (hnone | hfeed | ⟨q, hq, hkeyword⟩)
  · rw [hnone] at hp
    cases hp
  · exact hends hfeed
  · rw [Option.mem_unique hq hp, Token.isKeyword, Bool.and_eq_true, beq_iff_eq] at hkeyword
    rw [Token.isIdentifier, hkeyword.1] at hname
    cases hname

end

/-- The text in front of a call gives it for a declaration where the rule for tokens does, and where a
longer name is mistaken for the keyword, and nowhere else. -/
theorem introducesDeclaration_iff_of_isCall {source : Text} {before after : List Token} {t : Token}
    (hlex : lex source = before ++ t :: after) (hcall : Occurrence.isCall ⟨t, after⟩) :
    ∃ line, source.lineBefore? t.start = some line ∧
      (introducesDeclaration line ↔ IsDeclaredBehind before ∨ IsMistakenBehind before) ∧
      ((introducesDeclaration line ↔ IsDeclaredBehind before) ↔ ¬ IsMistakenBehind before) := by
  have hchain : (before ++ t :: after).IsChain Token.Borders := hlex ▸ isChain_lexAt 0 source
  have hne : ∀ u ∈ before, u.text ≠ [] := by
    intro u hu
    have hmem : u ∈ lex source := hlex ▸ List.mem_append_left _ hu
    exact text_ne_nil_of_mem_lexAt hmem
  have hname : t.kind = .identifier := by
    rw [Occurrence.isCall, Bool.and_eq_true] at hcall
    exact beq_iff_eq.1 hcall.1
  have ht : ¬ t.isBlank := by
    rw [Token.isBlank, hname]
    decide
  have hstart : t.start = Text.byteLength (before.flatMap Token.text) := by
    have hcovers := (isTokenization_lex source).covers
    rw [hlex] at hcovers
    rw [hcovers.start_eq, Nat.zero_add]
  have hsource : source = before.flatMap Token.text ++ (t :: after).flatMap Token.text := by
    rw [← List.flatMap_append, ← hlex]
    exact (flatMap_text_lexAt 0 source).symm
  have hline : source.lineBefore? t.start = some (Text.lastLine (before.flatMap Token.text)) := by
    have hcut : source.isBoundary t.start := Text.isBoundary_iff.2 ⟨_, _, hsource, hstart.symm⟩
    rw [Text.lineBefore?, if_pos hcut, Text.lineBefore, hstart, hsource, Text.takeBytes_byteLength]
  have hiff := introducesDeclaration_lastLine_iff hchain hne ht
  refine ⟨_, hline, hiff, ?_⟩
  rw [hiff]
  constructor
  · intro hagree hmistaken
    exact not_isDeclaredBehind hmistaken (hagree.1 (.inr hmistaken))
  · intro hnot
    constructor
    · intro h
      exact h.resolve_right hnot
    · exact .inl

/-- A string that goes over the end of a line, the keyword behind it, and then a call: a declaration. -/
theorem introducesDeclaration_iff_of_isCall_keyword :
    ∃ before t after, lex "\"a\nb\" function f (x)".toList = before ++ t :: after ∧
      Occurrence.isCall ⟨t, after⟩ ∧ IsDeclaredBehind before ∧ ¬ IsMistakenBehind before ∧
      ∃ line, Text.lineBefore? "\"a\nb\" function f (x)".toList t.start = some line ∧
        introducesDeclaration line := by
  let source := "\"a\nb\" function f (x)".toList
  let before := (lex source).take 4
  let after := (lex source).drop 5
  have hlex : lex source = before ++ ⟨.identifier, ['f'], 15⟩ :: after := by decide +kernel
  have hcall : Occurrence.isCall ⟨⟨.identifier, ['f'], 15⟩, after⟩ := by decide +kernel
  have hdeclared : IsDeclaredBehind before := by decide +kernel
  have hnot : ¬ IsMistakenBehind before := by decide +kernel
  obtain ⟨line, hline, hiff, -⟩ := introducesDeclaration_iff_of_isCall hlex hcall
  exact ⟨before, _, after, hlex, hcall, hdeclared, hnot, line, hline, hiff.2 (.inl hdeclared)⟩

/-- A longer name in front of a call is mistaken for the keyword: the call counts as a declaration,
though what stands on its line in front of it is a name. -/
theorem introducesDeclaration_longer_name :
    ∃ before t after, lex "xfunction f(a)".toList = before ++ t :: after ∧
      Occurrence.isCall ⟨t, after⟩ ∧
      Text.lineBefore? "xfunction f(a)".toList t.start = some "xfunction ".toList ∧
      introducesDeclaration "xfunction ".toList ∧ ¬ IsDeclaredBehind before := by
  let source := "xfunction f(a)".toList
  refine ⟨(lex source).take 2, ⟨.identifier, ['f'], 10⟩, (lex source).drop 3, ?_, ?_, ?_, ?_, ?_⟩
  · decide +kernel
  · decide +kernel
  · decide +kernel
  · decide +kernel
  · decide +kernel

end ScriptEditor
