import ScriptEditor.Proofs.Declaring
import ScriptEditor.Proofs.Matching

/-! All that the uses of names depend on. -/

namespace ScriptEditor

/-- The text of such a token shows nothing of names. -/
def Kind.isOpaque : Kind → Bool
  | comment | string => true
  | keyword | value | identifier | blank | operator => false

/-- What is seen of a token that is not blank. -/
structure Mark where
  kind : Kind
  text : Text
  opensLine : Bool
deriving DecidableEq, Repr

def Mark.ofToken (opensLine : Bool) (t : Token) : Mark :=
  ⟨t.kind, if t.kind.isOpaque then [] else t.text, opensLine⟩

/-- Whether a line is still without tokens behind the given ones, blanks aside, if it was without any
in front of them. -/
def isFresh (fresh : Bool) : List Token → Bool
  | [] => fresh
  | t :: rest => isFresh (t.isBlank && (fresh || t.text == ['\n'])) rest

def outlineFrom (fresh : Bool) : List Token → List Mark
  | [] => []
  | t :: rest =>
    if t.isBlank then outlineFrom (fresh || t.text == ['\n']) rest
    else .ofToken fresh t :: outlineFrom false rest

/-- The marks of tokens from the start of a line on. -/
def outline (tokens : List Token) : List Mark := outlineFrom true tokens

section

variable {fresh : Bool} {t : Token} {before after gap : List Token}

theorem isFresh_append (fresh : Bool) (before after : List Token) :
    isFresh fresh (before ++ after) = isFresh (isFresh fresh before) after := by
  induction before generalizing fresh with
  | nil => rfl
  | cons t before ih => exact ih _

theorem outlineFrom_blank (ht : t.isBlank) :
    outlineFrom fresh (t :: after) = outlineFrom (fresh || t.text == ['\n']) after := by
  rw [outlineFrom, if_pos ht]

theorem outlineFrom_solid (ht : ¬ t.isBlank) :
    outlineFrom fresh (t :: after) = .ofToken fresh t :: outlineFrom false after := by
  rw [outlineFrom, if_neg ht]

theorem outlineFrom_append (fresh : Bool) (before after : List Token) :
    outlineFrom fresh (before ++ after) =
      outlineFrom fresh before ++ outlineFrom (isFresh fresh before) after := by
  induction before generalizing fresh with
  | nil => rfl
  | cons t before ih =>
    by_cases ht : t.isBlank
    · rw [List.cons_append, outlineFrom_blank ht, outlineFrom_blank ht, ih, isFresh, ht,
        Bool.true_and]
    · rw [List.cons_append, outlineFrom_solid ht, outlineFrom_solid ht, ih, isFresh,
        Bool.eq_false_iff.2 ht, Bool.false_and, List.cons_append]

theorem outlineFrom_eq_nil_iff : outlineFrom fresh gap = [] ↔ AreBlank gap := by
  induction gap generalizing fresh with
  | nil => simp [outlineFrom, AreBlank]
  | cons t gap ih =>
    by_cases ht : t.isBlank
    · rw [outlineFrom_blank ht, ih]
      simp [AreBlank, ht]
    · rw [outlineFrom_solid ht]
      simp [AreBlank, ht]

/-- A token that is not blank has its mark between those in front of it and those behind it. -/
theorem outlineFrom_append_solid (ht : ¬ t.isBlank) (fresh : Bool) (before after : List Token) :
    outlineFrom fresh (before ++ t :: after) =
      outlineFrom fresh before ++
        .ofToken (isFresh fresh before) t :: outlineFrom false after := by
  rw [outlineFrom_append, outlineFrom_solid ht]

/-- Each mark is that of a token, with the marks in front of it in front of that token. -/
theorem exists_parts_of_outlineFrom {tokens : List Token} {marks marks' : List Mark} {m : Mark}
    (h : outlineFrom fresh tokens = marks ++ m :: marks') :
    ∃ before t after, tokens = before ++ t :: after ∧ ¬ t.isBlank ∧
      outlineFrom fresh before = marks ∧ Mark.ofToken (isFresh fresh before) t = m ∧
        outlineFrom false after = marks' := by
  induction tokens generalizing fresh marks with
  | nil => simp [outlineFrom] at h
  | cons u tokens ih =>
    by_cases hu : u.isBlank
    · -- A blank has no mark; it joins the tokens in front, and only counts for whether a line is open.
      rw [outlineFrom_blank hu] at h
      obtain ⟨before, t, after, rfl, ht, hbefore, hmark, hafter⟩ := ih h
      refine ⟨u :: before, t, after, rfl, ht, ?_, ?_, hafter⟩
      · rw [outlineFrom_blank hu, hbefore]
      · rw [isFresh, hu, Bool.true_and, hmark]
    · rw [outlineFrom_solid hu] at h
      cases marks with
      | nil =>
        obtain ⟨hmark, hafter⟩ := List.cons.inj h
        exact ⟨[], u, tokens, rfl, hu, rfl, hmark, hafter⟩
      | cons k marks =>
        obtain ⟨hmark, hrest⟩ := List.cons.inj h
        obtain ⟨before, t, after, rfl, ht, hbefore, hmark', hafter⟩ := ih hrest
        refine ⟨u :: before, t, after, rfl, ht, ?_, ?_, hafter⟩
        · rw [outlineFrom_solid hu, hmark, hbefore]
        · rw [isFresh, Bool.eq_false_iff.2 hu, Bool.false_and, hmark']

theorem exists_gap_of_outlineFrom {tokens : List Token} {marks : List Mark} {m : Mark}
    (h : outlineFrom fresh tokens = m :: marks) :
    ∃ gap t after, tokens = gap ++ t :: after ∧ AreBlank gap ∧ ¬ t.isBlank ∧
      Mark.ofToken (isFresh fresh gap) t = m ∧ outlineFrom false after = marks := by
  rw [← List.nil_append (m :: marks)] at h
  obtain ⟨gap, t, after, htokens, ht, hgap, hmark, hafter⟩ := exists_parts_of_outlineFrom h
  exact ⟨gap, t, after, htokens, outlineFrom_eq_nil_iff.1 hgap, ht, hmark, hafter⟩

end

section

variable {fresh fresh' : Bool} {t t' : Token} {n w : Text} {c : Char}

theorem Mark.kind_eq (h : ofToken fresh t = ofToken fresh' t') : t.kind = t'.kind :=
  congrArg Mark.kind h

theorem Mark.text_eq (h : ofToken fresh t = ofToken fresh' t') (ht : ¬ t.kind.isOpaque) :
    t.text = t'.text := by
  have htext := congrArg Mark.text h
  dsimp only [ofToken] at htext
  rwa [← kind_eq h, if_neg ht, if_neg ht] at htext

theorem isIdentifier_of_mark (h : Mark.ofToken fresh t = .ofToken fresh' t') (ht : t.isIdentifier)
    (htext : t.text = n) : t'.isIdentifier ∧ t'.text = n := by
  have hkind : t.kind = .identifier := beq_iff_eq.1 ht
  have hsame := Mark.text_eq h (by rw [hkind]; decide)
  rw [Token.isIdentifier, ← Mark.kind_eq h, ← hsame]
  exact ⟨ht, htext⟩

theorem isKeyword_of_mark (h : Mark.ofToken fresh t = .ofToken fresh' t') (ht : t.isKeyword w) :
    t'.isKeyword w := by
  have hkind : t.kind = .keyword := by
    rw [Token.isKeyword, Bool.and_eq_true, beq_iff_eq] at ht
    exact ht.1
  have hsame := Mark.text_eq h (by rw [hkind]; decide)
  rw [Token.isKeyword, ← Mark.kind_eq h, ← hsame]
  exact ht

theorem isChar_of_mark (h : Mark.ofToken fresh t = .ofToken fresh' t') (ht : t.isChar c)
    (hkind : t.kind = .operator) : t'.isChar c := by
  have hsame := Mark.text_eq h (by rw [hkind]; decide)
  rw [Token.isChar_iff, ← hsame]
  exact Token.isChar_iff.1 ht

/-- The mark is a character that stands for itself. -/
def Mark.isChar (c : Char) (m : Mark) : Bool := m.text == [c]

theorem Mark.isChar_ofToken (ht : t.isChar c → t.kind = .operator) :
    (ofToken fresh t).isChar c ↔ t.isChar c := by
  rw [isChar, beq_iff_eq, ofToken, Token.isChar_iff]
  rw [Token.isChar_iff] at ht
  by_cases hopaque : t.kind.isOpaque
  · -- The text is left out, and it was no sign, as a sign is an operator.
    have hchar : ¬ t.text = [c] := by
      intro htext
      rw [ht htext] at hopaque
      cases hopaque
    rw [if_pos hopaque]
    exact iff_of_false (List.cons_ne_nil c []).symm hchar
  · rw [if_neg hopaque]

end

section

variable {fresh : Bool} {tokens gap inside : List Token} {opening closing : Char}

theorem AreBlank.isBalanced (hgap : AreBlank gap) (hsigns : SignsAreOperators gap)
    (hopening : opening ∈ signs) (hclosing : closing ∈ signs) :
    IsBalanced (Token.isChar opening) (Token.isChar closing) gap := by
  apply IsBalanced.of_others
  intro t ht
  constructor
  · intro hchar
    exact hsigns.not_isBlank hopening t ht hchar (hgap t ht)
  · intro hchar
    exact hsigns.not_isBlank hclosing t ht hchar (hgap t ht)

/-- Brackets that are balanced among the tokens are so in their outline. -/
theorem isBalanced_outlineFrom (fresh : Bool)
    (h : IsBalanced (Token.isChar opening) (Token.isChar closing) tokens)
    (hsigns : SignsAreOperators tokens) (hopening : opening ∈ signs) (hclosing : closing ∈ signs) :
    IsBalanced (Mark.isChar opening) (Mark.isChar closing) (outlineFrom fresh tokens) := by
  induction h generalizing fresh with
  | nil => exact .nil
  | @other t rest hopen hclose _ ih =>
    have ht (c : Char) (hc : c ∈ signs) := hsigns t List.mem_cons_self c hc
    by_cases hblank : t.isBlank
    · rw [outlineFrom_blank hblank]
      exact ih _ hsigns.tail
    · rw [outlineFrom_solid hblank]
      apply IsBalanced.other
      · rwa [Mark.isChar_ofToken (ht opening hopening)]
      · rwa [Mark.isChar_ofToken (ht closing hclosing)]
      · exact ih _ hsigns.tail
  | @group first last inside rest hopen _ hclose _ ihinside ih =>
    have hfirst : ¬ first.isBlank := hsigns.not_isBlank hopening first (by simp) hopen
    have hlast : ¬ last.isBlank := hsigns.not_isBlank hclosing last (by simp) hclose
    rw [outlineFrom_solid hfirst, outlineFrom_append_solid hlast]
    apply IsBalanced.group
    · rwa [Mark.isChar_ofToken (hsigns first (by simp) opening hopening)]
    · exact ihinside _ hsigns.tail.front
    · rwa [Mark.isChar_ofToken (hsigns last (by simp) closing hclosing)]
    · exact ih _ hsigns.tail.behind.tail

/-- And they are balanced among the tokens where they are in the outline. -/
theorem isBalanced_of_outlineFrom
    (h : IsBalanced (Mark.isChar opening) (Mark.isChar closing) (outlineFrom fresh tokens))
    (hsigns : SignsAreOperators tokens) (hopening : opening ∈ signs) (hclosing : closing ∈ signs) :
    IsBalanced (Token.isChar opening) (Token.isChar closing) tokens := by
  -- The induction is on the grammar of the marks. The tokens are cut where the marks have brackets,
  -- and the blanks in front of each mark are balanced by themselves.
  generalize hmarks : outlineFrom fresh tokens = marks at h
  induction h generalizing fresh tokens with
  | nil => exact (outlineFrom_eq_nil_iff.1 hmarks).isBalanced hsigns hopening hclosing
  | other hopen hclose _ ih =>
    obtain ⟨gap, t, after, rfl, hgap, -, rfl, hafter⟩ := exists_gap_of_outlineFrom hmarks
    have ht (c : Char) (hc : c ∈ signs) := hsigns t (by simp) c hc
    rw [Mark.isChar_ofToken (ht opening hopening)] at hopen
    rw [Mark.isChar_ofToken (ht closing hclosing)] at hclose
    apply (hgap.isBalanced hsigns.front hopening hclosing).append
    exact .other hopen hclose (ih hsigns.behind.tail hafter)
  | group hopen _ hclose _ ihinside ih =>
    obtain ⟨gap, first, rest, rfl, hgap, -, rfl, hrest⟩ := exists_gap_of_outlineFrom hmarks
    obtain ⟨inside, last, after, rfl, -, hinside, rfl, hafter⟩ := exists_parts_of_outlineFrom hrest
    have hbehind : SignsAreOperators (inside ++ last :: after) := hsigns.behind.tail
    rw [Mark.isChar_ofToken (hsigns first (by simp) opening hopening)] at hopen
    rw [Mark.isChar_ofToken (hsigns last (by simp) closing hclosing)] at hclose
    apply (hgap.isBalanced hsigns.front hopening hclosing).append
    exact .group hopen (ihinside hbehind.front hinside) hclose (ih hbehind.behind.tail hafter)

end

/-- The token is the keyword for functions, or a name that ends in its letters. -/
def Mark.EndsInFunction (m : Mark) : Prop :=
  (m.kind = .keyword ∧ m.text = Word.opensFunction) ∨
    (m.kind = .identifier ∧ Word.opensFunction <:+ m.text)

section

variable {fresh : Bool} {source : Text} {before after gap : List Token} {t p : Token}

theorem Mark.endsInFunction_ofToken : (ofToken fresh t).EndsInFunction ↔
    t.isKeyword Word.opensFunction ∨ (t.isIdentifier ∧ Word.opensFunction <:+ t.text) := by
  rw [EndsInFunction, Token.isKeyword, Token.isIdentifier, Bool.and_eq_true, beq_iff_eq, beq_iff_eq]
  cases hkind : t.kind <;> simp [ofToken, hkind, Kind.isOpaque]

theorem isFresh_gap (hgap : AreBlank gap) :
    isFresh fresh gap ↔ fresh ∨ ∃ b ∈ gap, b.text = ['\n'] := by
  induction gap generalizing fresh with
  | nil => simp [isFresh]
  | cons b gap ih =>
    have hb : b.isBlank := hgap b List.mem_cons_self
    rw [isFresh, hb, ih fun u hu => hgap u (List.mem_cons_of_mem b hu)]
    simp [or_assoc]

theorem areBlank_blanksBehind (before : List Token) : AreBlank (blanksBehind before) :=
  fun _ h => List.mem_rtakeWhile_imp h

theorem areBlank_of_lastSolid?_eq_none (h : lastSolid? before = none) : AreBlank before := by
  rwa [lastSolid?, List.getLast?_eq_none_iff, List.rdropWhile_eq_nil_iff] at h

theorem isFresh_iff : isFresh true before ↔ lastSolid? before = none ∨ EndsLine before := by
  cases hp : lastSolid? before with
  | none => simp [isFresh_gap (areBlank_of_lastSolid?_eq_none hp)]
  | some p =>
    -- The last token that is not blank takes its line, so only what is behind it counts.
    obtain ⟨hsolid, us, hbefore⟩ := exists_solid hp
    have hfresh : isFresh true before = isFresh false (blanksBehind before) := by
      conv_lhs => rw [hbefore]
      rw [isFresh_append, isFresh, Bool.eq_false_iff.2 hsolid, Bool.false_and]
    rw [hfresh, isFresh_gap (areBlank_blanksBehind before), EndsLine]
    simp

theorem getLast?_outline (hp : lastSolid? before = some p) :
    ∃ fresh, (outline before).getLast? = some (.ofToken fresh p) := by
  obtain ⟨hsolid, us, hbefore⟩ := exists_solid hp
  refine ⟨isFresh true us, ?_⟩
  rw [outline, hbefore, outlineFrom_append_solid hsolid,
    outlineFrom_eq_nil_iff.2 (areBlank_blanksBehind before), List.getLast?_concat]

theorem isDeclaredBehind_or_isMistakenBehind_iff :
    IsDeclaredBehind before ∨ IsMistakenBehind before ↔
      isFresh true before ∨ ∃ m ∈ (outline before).getLast?, m.EndsInFunction := by
  rw [isFresh_iff, IsDeclaredBehind, IsMistakenBehind]
  cases hp : lastSolid? before with
  | none => simp
  | some p =>
    obtain ⟨fresh, hlast⟩ := getLast?_outline hp
    by_cases hends : EndsLine before
    · simp [hends]
    · simp [hends, hlast, Mark.endsInFunction_ofToken]

/-- Of a line the rule for declarations sees what the outline holds. -/
theorem introducesDeclaration_lineBefore_iff (hlex : lex source = before ++ t :: after)
    (ht : ¬ t.isBlank) : introducesDeclaration (source.lineBefore t.start) ↔
      isFresh true before ∨ ∃ m ∈ (outline before).getLast?, m.EndsInFunction := by
  have hchain : (before ++ t :: after).IsChain Token.Borders := hlex ▸ isChain_lexAt 0 source
  have hne : ∀ u ∈ before, u.text ≠ [] := by
    intro u hu
    have hmem : u ∈ lex source := hlex ▸ List.mem_append_left _ hu
    exact text_ne_nil_of_mem_lexAt hmem
  obtain ⟨rest, hsource, -⟩ := exists_rest_of_lexAt hlex
  have hline : source.lineBefore t.start = Text.lastLine (before.flatMap Token.text) := by
    rw [Text.lineBefore, start_eq_of_lex hlex, hsource, Text.takeBytes_byteLength]
  rw [hline, introducesDeclaration_lastLine_iff hchain hne ht,
    isDeclaredBehind_or_isMistakenBehind_iff]

end

end ScriptEditor
