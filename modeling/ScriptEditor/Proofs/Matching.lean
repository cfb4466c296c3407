import ScriptEditor.Names
import ScriptEditor.Proofs.Borders
import ScriptEditor.Proofs.Grouping
import ScriptEditor.Proofs.Locality

/-! The uses of names as patterns of tokens, said without the functions that look for them. -/

namespace ScriptEditor

def AreBlank (tokens : List Token) : Prop := ∀ t ∈ tokens, t.isBlank

/-- The line is what the source holds in front of the offset, from behind the last line feed on. -/
def Text.IsLineUpTo (source : Text) (offset : Nat) (line : Text) : Prop :=
  ∃ a b, source = a ++ line ++ b ∧ (a ++ line).byteLength = offset ∧ '\n' ∉ line ∧
    ∀ c ∈ a.getLast?, c = '\n'

/-- A name between the keywords of a loop. -/
inductive Binds (tokens : List Token) (n : Text) : Prop
  | loop {before gap gap' after : List Token} {opens name joins : Token}
      (htokens : tokens = before ++ opens :: (gap ++ name :: (gap' ++ joins :: after)))
      (hopens : opens.isKeyword Word.opensLoop) (hgap : AreBlank gap)
      (hname : name.isIdentifier) (htext : name.text = n) (hgap' : AreBlank gap')
      (hjoins : joins.isKeyword Word.joinsLoop)

/-- A name in front of an equals sign, with or without an index. -/
inductive Assigns (tokens : List Token) (n : Text) : Prop
  | whole {before gap after : List Token} {name sign : Token}
      (htokens : tokens = before ++ name :: (gap ++ sign :: after))
      (hname : name.isIdentifier) (htext : name.text = n) (hgap : AreBlank gap)
      (hsign : sign.isChar '=')
  | atIndex {before gap index gap' after : List Token} {name sign : Token}
      (htokens : tokens = before ++ name :: (gap ++ (index ++ (gap' ++ sign :: after))))
      (hname : name.isIdentifier) (htext : name.text = n) (hgap : AreBlank gap)
      (hindex : IsGroup (Token.isChar '[') (Token.isChar ']') index) (hgap' : AreBlank gap')
      (hsign : sign.isChar '=')

/-- A name in front of a parenthesis. -/
inductive Calls (tokens : List Token) (n : Text) : Prop
  | call {before gap after : List Token} {name sign : Token}
      (htokens : tokens = before ++ name :: (gap ++ sign :: after))
      (hname : name.isIdentifier) (htext : name.text = n) (hgap : AreBlank gap)
      (hsign : sign.isChar '(')

/-- A name within the parentheses behind a name whose line holds nothing in front of it, or what ends
in the keyword for functions, blanks aside. -/
inductive Declares (source : Text) (tokens : List Token) (n : Text) : Prop
  | param {before gap inside after : List Token} {function first last name : Token} {line : Text}
      (htokens : tokens = before ++ function :: (gap ++ first :: (inside ++ last :: after)))
      (hfunction : function.isIdentifier) (hgap : AreBlank gap) (hfirst : first.isChar '(')
      (hinside : IsBalanced (Token.isChar '(') (Token.isChar ')') inside) (hlast : last.isChar ')')
      (hline : source.IsLineUpTo function.start line)
      (hdeclares : line.trim = [] ∨ Word.opensFunction <:+ line.trim)
      (hmem : name ∈ inside) (hname : name.isIdentifier) (htext : name.text = n)

/-- Behind blanks comes a group in the brackets. -/
def HasGroup (opening closing : Char) (tokens : List Token) : Prop :=
  ∃ gap group after, tokens = gap ++ (group ++ after) ∧ AreBlank gap ∧
    IsGroup (Token.isChar opening) (Token.isChar closing) group

theorem Text.isLineUpTo_lineBefore {source : Text} {offset : Nat} (h : source.isBoundary offset) :
    source.IsLineUpTo offset (source.lineBefore offset) := by
  obtain ⟨p, q, rfl, rfl⟩ := isBoundary_iff.1 h
  rw [lineBefore, takeBytes_byteLength]
  refine ⟨(p.reverse.dropWhile (· != '\n')).reverse, q, ?_, ?_, not_mem_lastLine p, ?_⟩
  · rw [lastLine, ← List.reverse_append, List.takeWhile_append_dropWhile, List.reverse_reverse]
  · rw [lastLine, ← List.reverse_append, List.takeWhile_append_dropWhile, List.reverse_reverse]
  · intro c hc
    have hnot := List.head?_dropWhile_not (· != '\n') p.reverse
    rw [List.getLast?_reverse] at hc
    rw [Option.mem_def.1 hc] at hnot
    simpa using hnot

theorem Text.IsLineUpTo.eq_lineBefore {source line : Text} {offset : Nat}
    (h : source.IsLineUpTo offset line) : line = source.lineBefore offset := by
  obtain ⟨a, b, rfl, rfl, hline, hbreak⟩ := h
  have ha : lastLine a = [] := by
    rcases List.eq_nil_or_concat' a with rfl | ⟨a, c, rfl⟩
    · rfl
    · have hc : c = '\n' := hbreak c (by rw [List.getLast?_concat]; rfl)
      rw [lastLine_append_singleton, if_pos hc]
  rw [lineBefore, takeBytes_byteLength, lastLine_append_of_not_mem hline, ha, List.nil_append]

theorem introducesDeclaration_iff {line : Text} :
    introducesDeclaration line ↔ line.trim = [] ∨ Word.opensFunction <:+ line.trim := by
  simp [introducesDeclaration]

/-- The characters that the rules for names look for. -/
def signs : List Char := ['=', '(', ')', '[', ']']

/-- Among the tokens, those that are signs are operators. -/
def SignsAreOperators (tokens : List Token) : Prop :=
  ∀ t ∈ tokens, ∀ c ∈ signs, t.isChar c → t.kind = .operator

theorem Lexeme.kind_of_sign {c : Char} (hc : c ∈ signs) (t : Text) :
    (front c t).kind = .operator := by
  simp only [signs, List.mem_cons, List.not_mem_nil, or_false] at hc
  rcases hc with rfl | rfl | rfl | rfl | rfl <;> rfl

theorem signsAreOperators_lexAt (offset : Nat) (source : Text) :
    SignsAreOperators (lexAt offset source) := by
  intro t ht c hc hchar
  induction source using Lexeme.induction generalizing offset with
  | nil => simp at ht
  | cons d source ih =>
    rw [lexAt_cons, List.mem_cons] at ht
    rcases ht with rfl | ht
    · -- The rule was chosen by the first character of the token, and a sign is all of it.
      have htext : (Lexeme.front d source).text = [c] := Token.isChar_iff.1 hchar
      have hhead := Lexeme.head?_text d source
      rw [htext] at hhead
      cases hhead
      exact Lexeme.kind_of_sign hc source
    · exact ih _ ht

theorem signsAreOperators_lex (source : Text) : SignsAreOperators (lex source) :=
  signsAreOperators_lexAt 0 source

section

variable {tokens : List Token} {o : Occurrence} {c : Char} {n : Text}

theorem SignsAreOperators.not_isBlank (h : SignsAreOperators tokens) (hc : c ∈ signs) :
    ∀ t ∈ tokens, t.isChar c → ¬ t.isBlank := by
  intro t ht hchar
  rw [Token.isBlank, h t ht c hc hchar]
  decide

theorem SignsAreOperators.front {front behind : List Token}
    (h : SignsAreOperators (front ++ behind)) : SignsAreOperators front :=
  fun t ht => h t (List.mem_append_left behind ht)

theorem SignsAreOperators.behind {front behind : List Token}
    (h : SignsAreOperators (front ++ behind)) : SignsAreOperators behind :=
  fun t ht => h t (List.mem_append_right front ht)

theorem SignsAreOperators.tail {t : Token} (h : SignsAreOperators (t :: tokens)) :
    SignsAreOperators tokens :=
  fun u hu => h u (List.mem_cons_of_mem t hu)

theorem skipBlanks_append {gap : List Token} (hgap : AreBlank gap) {t : Token} (ht : ¬ t.isBlank)
    (after : List Token) : skipBlanks (gap ++ t :: after) = t :: after := by
  rw [skipBlanks, List.dropWhile_append_of_pos hgap, List.dropWhile_cons_of_neg ht]

theorem exists_gap_of_skipBlanks {t : Token} {after : List Token}
    (h : skipBlanks tokens = t :: after) :
    ¬ t.isBlank ∧ ∃ gap, tokens = gap ++ t :: after ∧ AreBlank gap := by
  constructor
  · have hnot := List.head?_dropWhile_not Token.isBlank tokens
    rw [← skipBlanks, h] at hnot
    simpa using hnot
  · refine ⟨tokens.takeWhile Token.isBlank, ?_, fun t ht => List.mem_takeWhile_imp ht⟩
    rw [← h, skipBlanks, List.takeWhile_append_dropWhile]

/-- A test of what follows, of a kind that no blank passes. -/
theorem any_head?_skipBlanks_iff {test : Token → Bool} (htest : ∀ t ∈ tokens, test t → ¬ t.isBlank) :
    (skipBlanks tokens).head?.any test ↔
      ∃ gap t after, tokens = gap ++ t :: after ∧ AreBlank gap ∧ test t := by
  constructor
  · intro h
    cases hskip : skipBlanks tokens with
    | nil =>
      rw [hskip] at h
      cases h
    | cons t after =>
      rw [hskip] at h
      obtain ⟨-, gap, htokens, hgap⟩ := exists_gap_of_skipBlanks hskip
      exact ⟨gap, t, after, htokens, hgap, h⟩
  · rintro ⟨gap, t, after, rfl, hgap, ht⟩
    rw [skipBlanks_append hgap (htest t (by simp) ht)]
    exact ht

theorem isFollowedBy_iff (hsigns : SignsAreOperators o.rest) (hc : c ∈ signs) :
    o.isFollowedBy c ↔ ∃ gap sign after, o.rest = gap ++ sign :: after ∧ AreBlank gap ∧
      sign.isChar c :=
  any_head?_skipBlanks_iff (hsigns.not_isBlank hc)

/-- A group that follows, and what is within it and behind it. -/
theorem splitGroup?_skipBlanks_iff {opening closing : Char} (hne : opening ≠ closing)
    (hsigns : SignsAreOperators tokens) (hopening : opening ∈ signs) (inside behind : List Token) :
    (skipBlanks tokens).head?.any (Token.isChar opening) ∧
        splitGroup? opening closing (skipBlanks tokens) = some (inside, behind) ↔
      ∃ gap first last, tokens = gap ++ first :: (inside ++ last :: behind) ∧ AreBlank gap ∧
        first.isChar opening ∧ IsBalanced (Token.isChar opening) (Token.isChar closing) inside ∧
        last.isChar closing := by
  constructor
  · rintro ⟨hhead, hsplit⟩
    cases hskip : skipBlanks tokens with
    | nil =>
      rw [hskip] at hhead
      cases hhead
    | cons first rest =>
      rw [hskip] at hhead hsplit
      obtain ⟨-, gap, htokens, hgap⟩ := exists_gap_of_skipBlanks hskip
      obtain ⟨last, rfl, hinside, hlast⟩ := (splitGroup?_cons_eq_some_iff hne hhead).1 hsplit
      exact ⟨gap, first, last, htokens, hgap, hhead, hinside, hlast⟩
  · rintro ⟨gap, first, last, rfl, hgap, hfirst, hinside, hlast⟩
    rw [skipBlanks_append hgap (hsigns.not_isBlank hopening first (by simp) hfirst)]
    exact ⟨hfirst, (splitGroup?_cons_eq_some_iff hne hfirst).2 ⟨last, rfl, hinside, hlast⟩⟩

theorem not_isBlank_of_isIdentifier {t : Token} (h : t.isIdentifier) : ¬ t.isBlank := by
  rw [Token.isBlank, beq_iff_eq.1 h]
  decide

theorem not_isBlank_of_isKeyword {w : Text} {t : Token} (h : t.isKeyword w) : ¬ t.isBlank := by
  rw [Token.isKeyword, Bool.and_eq_true, beq_iff_eq] at h
  rw [Token.isBlank, h.1]
  decide

theorem loopName?_eq_some_iff : o.loopName? = some n ↔
    o.token.isKeyword Word.opensLoop ∧ ∃ gap name gap' joins after,
      o.rest = gap ++ name :: (gap' ++ joins :: after) ∧ AreBlank gap ∧ name.isIdentifier ∧
        name.text = n ∧ AreBlank gap' ∧ joins.isKeyword Word.joinsLoop := by
  have hjoin (tokens : List Token) :
      (skipBlanks tokens).head?.any (Token.isKeyword Word.joinsLoop) ↔
        ∃ gap t after, tokens = gap ++ t :: after ∧ AreBlank gap ∧ t.isKeyword Word.joinsLoop :=
    any_head?_skipBlanks_iff fun _ _ => not_isBlank_of_isKeyword
  constructor
  · intro h
    rw [Occurrence.loopName?] at h
    split at h
    case isFalse => cases h
    case isTrue hopens =>
      cases hskip : skipBlanks o.rest with
      | nil =>
        rw [hskip] at h
        cases h
      | cons name rest =>
        rw [hskip] at h
        obtain ⟨htest, htext⟩ := Option.ite_none_right_eq_some.1 h
        rw [Bool.and_eq_true, hjoin] at htest
        obtain ⟨hname, gap', joins, after, rfl, hgap', hjoins⟩ := htest
        obtain ⟨-, gap, hrest, hgap⟩ := exists_gap_of_skipBlanks hskip
        exact ⟨hopens, gap, name, gap', joins, after, hrest, hgap, hname, Option.some.inj htext,
          hgap', hjoins⟩
  · rintro ⟨hopens, gap, name, gap', joins, after, hrest, hgap, hname, rfl, hgap', hjoins⟩
    have hnext := (hjoin (gap' ++ joins :: after)).2 ⟨gap', joins, after, rfl, hgap', hjoins⟩
    rw [Occurrence.loopName?, if_pos hopens, hrest,
      skipBlanks_append hgap (not_isBlank_of_isIdentifier hname)]
    dsimp only
    rw [hname, hnext]
    rfl

/-- A sign that follows is the only one to follow. -/
theorem isFollowedBy_of_gap {gap after : List Token} {sign : Token} (hgap : AreBlank gap)
    (hsign : ¬ sign.isBlank) (hrest : o.rest = gap ++ sign :: after) :
    o.isFollowedBy c = sign.isChar c := by
  rw [Occurrence.isFollowedBy, hrest, skipBlanks_append hgap hsign]
  rfl

theorem isAssigned_iff (hsigns : SignsAreOperators o.rest) : o.isAssigned ↔
    o.token.isIdentifier ∧
      ((∃ gap sign after, o.rest = gap ++ sign :: after ∧ AreBlank gap ∧ sign.isChar '=') ∨
        ∃ gap index gap' sign after, o.rest = gap ++ (index ++ (gap' ++ sign :: after)) ∧
          AreBlank gap ∧ IsGroup (Token.isChar '[') (Token.isChar ']') index ∧ AreBlank gap' ∧
          sign.isChar '=') := by
  have hbrackets : '[' ≠ ']' := by decide
  have hgroup := splitGroup?_skipBlanks_iff hbrackets hsigns (by decide)
  have hequals {tokens : List Token} (h : SignsAreOperators tokens) :=
    any_head?_skipBlanks_iff (h.not_isBlank (c := '=') (by decide))
  rw [Occurrence.isAssigned, Bool.and_eq_true]
  apply and_congr_right
  intro hname
  constructor
  · intro h
    split at h
    case isTrue hbracket =>
      split at h
      case h_1 inside behind hsplit =>
        obtain ⟨gap, first, last, hrest, hgap, hfirst, hinside, hlast⟩ :=
          (hgroup inside behind).1 ⟨hbracket, hsplit⟩
        have hindex : o.rest = gap ++ (first :: (inside ++ [last]) ++ behind) := by
          rw [hrest]
          simp
        rw [hindex] at hsigns
        obtain ⟨gap', sign, after, rfl, hgap', hsign⟩ := (hequals hsigns.behind.behind).1 h
        exact .inr ⟨gap, first :: (inside ++ [last]), gap', sign, after, hindex, hgap,
          ⟨first, inside, last, rfl, hfirst, hinside, hlast⟩, hgap', hsign⟩
      case h_2 => cases h
    case isFalse => exact .inl ((hequals hsigns).1 h)
  · rintro (⟨gap, sign, after, hrest, hgap, hsign⟩ |
      ⟨gap, index, gap', sign, after, hrest, hgap, hindex, hgap', hsign⟩)
    · -- The sign right behind the name is no bracket, so no index is looked for.
      have hblank := hsigns.not_isBlank (c := '=') (by decide) sign (by simp [hrest]) hsign
      have hbracket : o.isFollowedBy '[' = false := by
        rw [isFollowedBy_of_gap hgap hblank hrest]
        exact Bool.eq_false_iff.2 (not_isChar_of_ne (by decide) hsign)
      rw [hbracket, if_neg Bool.false_ne_true, isFollowedBy_of_gap hgap hblank hrest]
      exact hsign
    · obtain ⟨first, inside, last, rfl, hfirst, hinside, hlast⟩ := hindex
      have hparts : o.rest = gap ++ first :: (inside ++ last :: (gap' ++ sign :: after)) := by
        rw [hrest]
        simp
      obtain ⟨hbracket, hsplit⟩ :=
        (hgroup inside _).2 ⟨gap, first, last, hparts, hgap, hfirst, hinside, hlast⟩
      rw [hrest] at hsigns
      rw [Occurrence.isFollowedBy, if_pos hbracket, hsplit]
      exact (hequals hsigns.behind.behind).2 ⟨gap', sign, after, rfl, hgap', hsign⟩

theorem mem_argumentNames_iff (hsigns : SignsAreOperators o.rest) (hcall : o.isFollowedBy '(') :
    n ∈ o.argumentNames ↔ ∃ gap first inside last after,
      o.rest = gap ++ first :: (inside ++ last :: after) ∧ AreBlank gap ∧ first.isChar '(' ∧
        IsBalanced (Token.isChar '(') (Token.isChar ')') inside ∧ last.isChar ')' ∧
        ∃ name ∈ inside, name.isIdentifier ∧ name.text = n := by
  have hparentheses : '(' ≠ ')' := by decide
  have hgroup := splitGroup?_skipBlanks_iff hparentheses hsigns (by decide)
  have hmem (inside : List Token) : n ∈ (inside.filter Token.isIdentifier).map Token.text ↔
      ∃ name ∈ inside, name.isIdentifier ∧ name.text = n := by
    simp [and_assoc]
  constructor
  · intro h
    rw [Occurrence.argumentNames] at h
    split at h
    case h_1 inside behind hsplit =>
      obtain ⟨gap, first, last, hrest, hgap, hfirst, hinside, hlast⟩ :=
        (hgroup inside behind).1 ⟨hcall, hsplit⟩
      exact ⟨gap, first, inside, last, behind, hrest, hgap, hfirst, hinside, hlast, (hmem inside).1 h⟩
    case h_2 => cases h
  · rintro ⟨gap, first, inside, last, behind, hrest, hgap, hfirst, hinside, hlast, hname⟩
    obtain ⟨-, hsplit⟩ :=
      (hgroup inside behind).2 ⟨gap, first, last, hrest, hgap, hfirst, hinside, hlast⟩
    rw [Occurrence.argumentNames, hsplit]
    exact (hmem inside).2 hname

end

section

variable {source : Text} {tokens : List Token} {n : Text}

theorem mem_looped_iff : n ∈ (Names.ofTokens source tokens).looped ↔ Binds tokens n := by
  simp only [Names.ofTokens, List.mem_eraseDups, List.mem_filterMap, mem_occurrences,
    loopName?_eq_some_iff]
  constructor
  · rintro ⟨⟨opens, rest⟩, ⟨before, rfl⟩, hopens, gap, name, gap', joins, after, rfl, hgap, hname,
      htext, hgap', hjoins⟩
    exact .loop rfl hopens hgap hname htext hgap' hjoins
  · intro h
    obtain @⟨before, gap, gap', after, opens, name, joins, htokens, hopens, hgap, hname, htext,
      hgap', hjoins⟩ := h
    exact ⟨⟨opens, _⟩, ⟨before, htokens⟩, hopens, gap, name, gap', joins, after, rfl, hgap, hname,
      htext, hgap', hjoins⟩

theorem mem_assigned_iff (hsigns : SignsAreOperators tokens) :
    n ∈ (Names.ofTokens source tokens).assigned ↔ Assigns tokens n := by
  simp only [Names.ofTokens, List.mem_eraseDups, List.mem_map, List.mem_filter, mem_occurrences]
  constructor
  · rintro ⟨⟨name, rest⟩, ⟨⟨before, rfl⟩, hassigned⟩, htext⟩
    rw [isAssigned_iff (o := ⟨name, rest⟩) hsigns.behind.tail] at hassigned
    obtain ⟨hname, ⟨gap, sign, after, rfl, hgap, hsign⟩ |
      ⟨gap, index, gap', sign, after, rfl, hgap, hindex, hgap', hsign⟩⟩ := hassigned
    · exact .whole rfl hname htext hgap hsign
    · exact .atIndex rfl hname htext hgap hindex hgap' hsign
  · intro h
    cases h with
    | @whole before gap after name sign htokens hname htext hgap hsign =>
      subst htokens
      refine ⟨⟨name, gap ++ sign :: after⟩, ⟨⟨before, rfl⟩, ?_⟩, htext⟩
      apply (isAssigned_iff hsigns.behind.tail).2
      exact ⟨hname, .inl ⟨gap, sign, after, rfl, hgap, hsign⟩⟩
    | @atIndex before gap index gap' after name sign htokens hname htext hgap hindex hgap' hsign =>
      subst htokens
      refine ⟨⟨name, gap ++ (index ++ (gap' ++ sign :: after))⟩, ⟨⟨before, rfl⟩, ?_⟩, htext⟩
      apply (isAssigned_iff hsigns.behind.tail).2
      exact ⟨hname, .inr ⟨gap, index, gap', sign, after, rfl, hgap, hindex, hgap', hsign⟩⟩

theorem mem_functions_iff (hsigns : SignsAreOperators tokens) :
    n ∈ (Names.ofTokens source tokens).functions ↔ Calls tokens n := by
  simp only [Names.ofTokens, List.mem_eraseDups, List.mem_map, List.mem_filter, mem_occurrences,
    Occurrence.isCall, Bool.and_eq_true]
  constructor
  · rintro ⟨⟨name, rest⟩, ⟨⟨before, rfl⟩, hname, hcall⟩, htext⟩
    rw [isFollowedBy_iff (o := ⟨name, rest⟩) hsigns.behind.tail (by decide)] at hcall
    obtain ⟨gap, sign, after, rfl, hgap, hsign⟩ := hcall
    exact .call rfl hname htext hgap hsign
  · intro h
    obtain @⟨before, gap, after, name, sign, rfl, hname, htext, hgap, hsign⟩ := h
    refine ⟨⟨name, gap ++ sign :: after⟩, ⟨⟨before, rfl⟩, hname, ?_⟩, htext⟩
    apply (isFollowedBy_iff hsigns.behind.tail (by decide)).2
    exact ⟨gap, sign, after, rfl, hgap, hsign⟩

theorem mem_params_iff (hsigns : SignsAreOperators tokens)
    (hcuts : ∀ t ∈ tokens, source.isBoundary t.start) :
    n ∈ (Names.ofTokens source tokens).params ↔ Declares source tokens n := by
  simp only [Names.params_ofTokens, List.mem_eraseDups, List.mem_flatMap, List.mem_filter,
    mem_occurrences, Occurrence.isDeclaration, Occurrence.isCall, Bool.and_eq_true]
  constructor
  · rintro ⟨⟨call, rest⟩, ⟨⟨before, rfl⟩, ⟨hname, hcall⟩, hdeclares⟩, hn⟩
    rw [mem_argumentNames_iff (o := ⟨call, rest⟩) hsigns.behind.tail hcall] at hn
    obtain ⟨gap, first, inside, last, after, rfl, hgap, hfirst, hinside, hlast, name, hmem, hident,
      htext⟩ := hn
    exact .param rfl hname hgap hfirst hinside hlast (Text.isLineUpTo_lineBefore (hcuts call (by simp)))
      (introducesDeclaration_iff.1 hdeclares) hmem hident htext
  · intro h
    obtain @⟨before, gap, inside, after, function, first, last, name, line, rfl, hfunction, hgap,
      hfirst, hinside, hlast, hup, hdeclares, hmem, hname, htext⟩ := h
    let o : Occurrence := ⟨function, gap ++ first :: (inside ++ last :: after)⟩
    have hrest : SignsAreOperators o.rest := hsigns.behind.tail
    have hcall : o.isFollowedBy '(' :=
      (isFollowedBy_iff hrest (by decide)).2 ⟨gap, first, _, rfl, hgap, hfirst⟩
    -- There is only one line up to an offset, so the rule was asked about the line of the pattern.
    rw [hup.eq_lineBefore] at hdeclares
    refine ⟨o, ⟨⟨before, rfl⟩, ⟨hfunction, hcall⟩, introducesDeclaration_iff.2 hdeclares⟩, ?_⟩
    apply (mem_argumentNames_iff hrest hcall).2
    exact ⟨gap, first, inside, last, after, rfl, hgap, hfirst, hinside, hlast, name, hmem, hname,
      htext⟩

end

theorem isBoundary_start_of_mem_lex {source : Text} :
    ∀ t ∈ lex source, source.isBoundary t.start := by
  intro t ht
  obtain ⟨before, after, hlex⟩ := List.append_of_mem ht
  obtain ⟨rest, hsource, -⟩ := exists_rest_of_lexAt hlex
  rw [start_eq_of_lex hlex]
  exact Text.isBoundary_iff.2 ⟨_, rest, hsource, rfl⟩

theorem ofTokens?_lex (source : Text) :
    Names.ofTokens? source (lex source) = some (Names.ofTokens source (lex source)) :=
  Names.ofTokens?_of_isBoundary isBoundary_start_of_mem_lex

/-- The lookup of names in the tokens of a source never fails, and finds exactly the names that the
patterns show. A bracket that is never closed shows nothing. -/
theorem ofTokens?_lex_iff_patterns (source : Text) :
    ∃ names, Names.ofTokens? source (lex source) = some names ∧
      (∀ n, n ∈ names.looped ↔ Binds (lex source) n) ∧
      (∀ n, n ∈ names.assigned ↔ Assigns (lex source) n) ∧
      (∀ n, n ∈ names.functions ↔ Calls (lex source) n) ∧
      (∀ n, n ∈ names.params ↔ Declares source (lex source) n) ∧
      ∀ o ∈ occurrences (lex source),
        (o.isFollowedBy '[' → ¬ HasGroup '[' ']' o.rest → ¬ o.isAssigned) ∧
        (o.isFollowedBy '(' → ¬ HasGroup '(' ')' o.rest → o.argumentNames = []) := by
  have hsigns : SignsAreOperators (lex source) := signsAreOperators_lexAt 0 source
  refine ⟨_, ofTokens?_lex source, ?_, ?_, ?_, ?_, ?_⟩
  · exact fun n => mem_looped_iff
  · exact fun n => mem_assigned_iff hsigns
  · exact fun n => mem_functions_iff hsigns
  · exact fun n => mem_params_iff hsigns isBoundary_start_of_mem_lex
  · intro o ho
    obtain ⟨before, hlex⟩ := mem_occurrences.1 ho
    rw [hlex] at hsigns
    constructor
    · intro hbracket hnone hassigned
      obtain ⟨-, ⟨gap, sign, after, hrest, hgap, hsign⟩ |
        ⟨gap, index, gap', sign, after, hrest, hgap, hindex, -⟩⟩ :=
          (isAssigned_iff hsigns.behind.tail).1 hassigned
      · have hblank := hsigns.behind.tail.not_isBlank (c := '=') (by decide) sign (by simp [hrest]) hsign
        rw [isFollowedBy_of_gap hgap hblank hrest] at hbracket
        exact not_isChar_of_ne (by decide) hsign hbracket
      · exact hnone ⟨gap, index, _, hrest, hgap, hindex⟩
    · intro hcall hnone
      apply List.eq_nil_iff_forall_not_mem.2
      intro n hn
      obtain ⟨gap, first, inside, last, after, hrest, hgap, hfirst, hinside, hlast, -⟩ :=
        (mem_argumentNames_iff hsigns.behind.tail hcall).1 hn
      refine hnone ⟨gap, first :: (inside ++ [last]), after, ?_, hgap, ?_⟩
      · rw [hrest]
        simp
      · exact ⟨first, inside, last, rfl, hfirst, hinside, hlast⟩

end ScriptEditor
