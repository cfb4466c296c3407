import ScriptEditor.Markup
import ScriptEditor.Proofs.Matching

namespace ScriptEditor

/-- Behind the token with the index comes a parenthesis, blanks aside. -/
def IsCalledAt (tokens : List Token) (i : Nat) : Prop :=
  ∃ gap sign after, tokens.drop (i + 1) = gap ++ sign :: after ∧ AreBlank gap ∧ sign.isChar '('

/-- The name is assigned to, with or without an index, or bound by a loop. -/
def IsSet (tokens : List Token) (n : Text) : Prop := Assigns tokens n ∨ Binds tokens n

/-- The style of the name `n` at the index `i`: that of the first of the three uses that there is. -/
structure FollowsUses (source : Text) (i : Nat) (n : Text) (s : Option Style) : Prop where
  called : s = some .function ↔ IsCalledAt (lex source) i
  set : s = some .variable ↔ ¬ IsCalledAt (lex source) i ∧ IsSet (lex source) n
  declared : s = some .param ↔
    ¬ IsCalledAt (lex source) i ∧ ¬ IsSet (lex source) n ∧ Declares source (lex source) n
  unused : s = none ↔
    ¬ IsCalledAt (lex source) i ∧ ¬ IsSet (lex source) n ∧ ¬ Declares source (lex source) n

section

variable {source n : Text} {tokens : List Token} {t : Token} {i j : Nat} {s s' : Option Style}

theorem followsUses_of_tests {called set declared : Bool} (hcalled : called ↔ IsCalledAt (lex source) i)
    (hset : set ↔ IsSet (lex source) n) (hdeclared : declared ↔ Declares source (lex source) n) :
    FollowsUses source i n
      (if called then some .function else if set then some .variable
        else if declared then some .param else none) := by
  constructor
  -- What is left are the three tests alone, without the source.
  all_goals
    simp only [← hcalled, ← hset, ← hdeclared]
    cases called <;> cases set <;> cases declared <;> decide

/-- Where it is not called, a name has one style. -/
theorem FollowsUses.eq_of_not_called (h : FollowsUses source i n s) (h' : FollowsUses source j n s')
    (hi : ¬ IsCalledAt (lex source) i) (hj : ¬ IsCalledAt (lex source) j) : s = s' := by
  by_cases hset : IsSet (lex source) n
  · rw [h.set.2 ⟨hi, hset⟩, h'.set.2 ⟨hj, hset⟩]
  by_cases hdeclared : Declares source (lex source) n
  · rw [h.declared.2 ⟨hi, hset, hdeclared⟩, h'.declared.2 ⟨hj, hset, hdeclared⟩]
  · rw [h.unused.2 ⟨hi, hset, hdeclared⟩, h'.unused.2 ⟨hj, hset, hdeclared⟩]

theorem styleAt?_of_getElem? (names : Names) (h : tokens[i]? = some t) :
    styleAt? names tokens i = Occurrence.style? names ⟨t, tokens.drop (i + 1)⟩ := by
  rw [styleAt?, drop_of_getElem? h]

theorem style?_of_isIdentifier (names : Names) (o : Occurrence) (h : o.token.isIdentifier) :
    o.style? names =
      if o.isFollowedBy '(' && names.isFunction o.token.text then some .function
      else if names.isVariable o.token.text then some .variable
      else if names.isParam o.token.text then some .param
      else none := by
  rw [Occurrence.style?, beq_iff_eq.1 h]

/-- A use of a name gives its style to names only. -/
theorem style?_of_not_isIdentifier (names : Names) (o : Occurrence) (h : ¬ o.token.isIdentifier) :
    o.style? names ≠ some .function ∧ o.style? names ≠ some .variable ∧
      o.style? names ≠ some .param := by
  rw [Token.isIdentifier, beq_iff_eq] at h
  rw [Occurrence.style?]
  cases hkind : o.token.kind
  case identifier => exact absurd hkind h
  all_goals simp

/-- A name in front of a parenthesis is among the functions of the source, so that this second test of
its style never fails. -/
theorem isFunction_of_isFollowedBy (h : (lex source)[i]? = some t) (ht : t.isIdentifier) :
    (Occurrence.isFollowedBy '(' ⟨t, (lex source).drop (i + 1)⟩ &&
        (Names.ofTokens source (lex source)).isFunction t.text) ↔ IsCalledAt (lex source) i := by
  have hsigns : SignsAreOperators (lex source) := signsAreOperators_lex source
  have hsplit := eq_append_of_getElem? h
  have hrest : SignsAreOperators ((lex source).drop (i + 1)) := by
    rw [hsplit] at hsigns
    exact hsigns.behind.tail
  have hfollowed := isFollowedBy_iff (o := ⟨t, (lex source).drop (i + 1)⟩) (c := '(') hrest (by decide)
  rw [Bool.and_eq_true, hfollowed, Names.isFunction, List.contains_iff_mem, mem_functions_iff hsigns]
  constructor
  · intro hboth
    exact hboth.1
  -- This call is itself one of those that the set of functions is made of.
  · intro hcalled
    refine ⟨hcalled, ?_⟩
    obtain ⟨gap, sign, after, hafter, hgap, hsign⟩ := hcalled
    rw [hafter] at hsplit
    exact .call hsplit ht rfl hgap hsign

theorem isVariable_iff : (Names.ofTokens source (lex source)).isVariable n ↔ IsSet (lex source) n := by
  rw [Names.isVariable, Bool.or_eq_true, List.contains_iff_mem, List.contains_iff_mem,
    mem_assigned_iff (signsAreOperators_lex source), mem_looped_iff]
  rfl

theorem isParam_iff :
    (Names.ofTokens source (lex source)).isParam n ↔ Declares source (lex source) n := by
  rw [Names.isParam, List.contains_iff_mem,
    mem_params_iff (signsAreOperators_lex source) isBoundary_start_of_mem_lex]

theorem followsUses_styleAt? (h : (lex source)[i]? = some t) (ht : t.isIdentifier) :
    FollowsUses source i t.text
      (styleAt? (Names.ofTokens source (lex source)) (lex source) i) := by
  rw [styleAt?_of_getElem? _ h, style?_of_isIdentifier _ _ ht]
  exact followsUses_of_tests (isFunction_of_isFollowedBy h ht) isVariable_iff isParam_iff

theorem exists_styleAt?_of_mem_functions (hn : n ∈ (Names.ofTokens source (lex source)).functions) :
    ∃ i t, (lex source)[i]? = some t ∧ t.isIdentifier ∧ t.text = n ∧
      styleAt? (Names.ofTokens source (lex source)) (lex source) i = some .function := by
  rw [mem_functions_iff (signsAreOperators_lex source)] at hn
  obtain @⟨before, gap, after, name, sign, hlex, hname, htext, hgap, hsign⟩ := hn
  have hplace : (lex source)[before.length]? = some name := by
    rw [hlex]
    simp
  have hcalled : IsCalledAt (lex source) before.length := by
    refine ⟨gap, sign, after, ?_, hgap, hsign⟩
    rw [hlex]
    simp
  exact ⟨before.length, name, hplace, hname, htext, (followsUses_styleAt? hplace hname).called.2 hcalled⟩

end

/-- Each name in the tokens of a source has the style that its uses prescribe, so one style wherever it is
not called; each function is shown as one somewhere, and no other token gets a style of names. -/
theorem styleAt?_follows_uses (source : Text) :
    ∃ names, Names.ofTokens? source (lex source) = some names ∧
      (∀ i t, (lex source)[i]? = some t → t.isIdentifier →
        FollowsUses source i t.text (styleAt? names (lex source) i)) ∧
      (∀ i j t u, (lex source)[i]? = some t → (lex source)[j]? = some u → t.isIdentifier →
        u.isIdentifier → t.text = u.text → ¬ IsCalledAt (lex source) i →
        ¬ IsCalledAt (lex source) j →
          styleAt? names (lex source) i = styleAt? names (lex source) j) ∧
      (∀ n ∈ names.functions, ∃ i t, (lex source)[i]? = some t ∧ t.isIdentifier ∧ t.text = n ∧
        styleAt? names (lex source) i = some .function) ∧
      ∀ i t, (lex source)[i]? = some t → ¬ t.isIdentifier →
        styleAt? names (lex source) i ≠ some .function ∧
          styleAt? names (lex source) i ≠ some .variable ∧
          styleAt? names (lex source) i ≠ some .param := by
  refine ⟨_, ofTokens?_lex source, ?_, ?_, ?_, ?_⟩
  · intro i t h ht
    exact followsUses_styleAt? h ht
  · intro i j t u hi hj ht hu htext hnot hnot'
    have hthere := followsUses_styleAt? hj hu
    rw [← htext] at hthere
    exact (followsUses_styleAt? hi ht).eq_of_not_called hthere hnot hnot'
  · intro n hn
    exact exists_styleAt?_of_mem_functions hn
  · intro i t h ht
    rw [styleAt?_of_getElem? _ h]
    exact style?_of_not_isIdentifier _ _ ht

/-- A parameter that is assigned to further on is a variable in the parentheses too. -/
theorem styleAt?_follows_uses_assigned :
    ∃ names, Names.ofTokens? "f(a) a = g".toList (lex "f(a) a = g".toList) = some names ∧
      Declares "f(a) a = g".toList (lex "f(a) a = g".toList) ['a'] ∧
      IsSet (lex "f(a) a = g".toList) ['a'] ∧ ¬ IsCalledAt (lex "f(a) a = g".toList) 2 ∧
      ¬ IsCalledAt (lex "f(a) a = g".toList) 5 ∧
      styleAt? names (lex "f(a) a = g".toList) 2 = some .variable ∧
      styleAt? names (lex "f(a) a = g".toList) 2 = styleAt? names (lex "f(a) a = g".toList) 5 := by
  let source := "f(a) a = g".toList
  obtain ⟨names, hnames, huses, hsame, -, -⟩ := styleAt?_follows_uses source
  obtain rfl : Names.ofTokens source (lex source) = names :=
    Option.some.inj ((ofTokens?_lex source).symm.trans hnames)
  have hfirst : (lex source)[2]? = some ⟨.identifier, ['a'], 2⟩ := by decide +kernel
  have hsecond : (lex source)[5]? = some ⟨.identifier, ['a'], 5⟩ := by decide +kernel
  have hvariable : styleAt? (Names.ofTokens source (lex source)) (lex source) 2 =
      some .variable := by
    decide +kernel
  have hvariable' : styleAt? (Names.ofTokens source (lex source)) (lex source) 5 =
      some .variable := by
    decide +kernel
  have hdeclared : Declares source (lex source) ['a'] := by
    rw [← isParam_iff]
    decide +kernel
  obtain ⟨hnot, hset⟩ := (huses 2 _ hfirst rfl).set.1 hvariable
  have hnot' := ((huses 5 _ hsecond rfl).set.1 hvariable').1
  exact ⟨_, hnames, hdeclared, hset, hnot, hnot', hvariable,
    hsame 2 5 _ _ hfirst hsecond rfl rfl rfl hnot hnot'⟩

end ScriptEditor
