import ScriptEditor.Group
import ScriptEditor.Text.Blank
import ScriptEditor.Text.LineTable
import ScriptEditor.Word

namespace ScriptEditor

namespace Occurrence

/-- The token that follows, blanks aside, is the one character. -/
def isFollowedBy (c : Char) (o : Occurrence) : Bool :=
  (skipBlanks o.rest).head?.any (Token.isChar c)

/-- The name that a loop binds at the keyword which opens it. -/
def loopName? (o : Occurrence) : Option Text :=
  if o.token.isKeyword Word.opensLoop then
    match skipBlanks o.rest with
    | [] => none
    | name :: rest =>
      if name.isIdentifier && (skipBlanks rest).head?.any (Token.isKeyword Word.joinsLoop) then
        some name.text
      else none
  else none

/-- An equals sign follows the name, or an index in square brackets and then the sign. -/
def isAssigned (o : Occurrence) : Bool :=
  o.token.isIdentifier &&
    if o.isFollowedBy '[' then
      match splitGroup? '[' ']' (skipBlanks o.rest) with
      | some (_, behind) => (skipBlanks behind).head?.any (Token.isChar '=')
      | none => false
    else o.isFollowedBy '='

def isCall (o : Occurrence) : Bool := o.token.isIdentifier && o.isFollowedBy '('

/-- The names between the parentheses that follow; none if these are not closed. -/
def argumentNames (o : Occurrence) : List Text :=
  match splitGroup? '(' ')' (skipBlanks o.rest) with
  | some (inside, _) => (inside.filter Token.isIdentifier).map Token.text
  | none => []

end Occurrence

/-- A call declares its function if its line holds nothing in front of it, or what ends in the
keyword for functions, blanks aside. -/
def introducesDeclaration (before : Text) : Bool :=
  let t := Text.trim before
  t.isEmpty || Word.opensFunction.isSuffixOf t

/-- The same for a line that is held last character first: only the end of the line counts. -/
def introducesDeclarationAtEnd (head : Text) : Bool :=
  let r := head.dropWhile Text.isBlank
  r.isEmpty || Word.opensFunction.reverse.isPrefixOf r

theorem suffix_dropWhile_iff {p : Char → Bool} {c : Char} {w t : Text} (hc : p c = false) :
    c :: w <:+ t.dropWhile p ↔ c :: w <:+ t := by
  constructor
  · exact fun h => h.trans (List.dropWhile_suffix p)
  · rintro ⟨a, rfl⟩
    rw [List.dropWhile_append, List.dropWhile_cons_of_neg (by simp [hc])]
    split
    · exact List.suffix_refl _
    · exact List.suffix_append _ _

theorem introducesDeclarationAtEnd_eq (head : Text) :
    introducesDeclarationAtEnd head = introducesDeclaration head.reverse := by
  have hempty : (head.dropWhile Text.isBlank).reverse.dropWhile Text.isBlank = [] ↔
      head.dropWhile Text.isBlank = [] := by
    cases hr : head.dropWhile Text.isBlank with
    | nil => simp
    | cons c r =>
      have hc := List.head_dropWhile_not Text.isBlank (hr ▸ List.cons_ne_nil c r)
      simp only [hr, List.head_cons] at hc
      rw [List.reverse_cons, List.dropWhile_append]
      split <;> simp [hc]
  have hsuffix : Word.opensFunction <:+
        (head.dropWhile Text.isBlank).reverse.dropWhile Text.isBlank ↔
      Word.opensFunction.reverse <+: head.dropWhile Text.isBlank := by
    rw [← List.reverse_suffix, List.reverse_reverse]
    exact suffix_dropWhile_iff (by decide)
  rw [Bool.eq_iff_iff]
  simp [introducesDeclarationAtEnd, introducesDeclaration, Text.trim, Text.trimEnd, hempty, hsuffix]

/-- The occurrence declares a function of the source. -/
def Occurrence.isDeclaration (source : Text) (o : Occurrence) : Bool :=
  o.isCall && introducesDeclaration (Text.lineBefore source o.token.start)

/-- The names of a script by their uses, in the order in which they first show, each once. -/
structure Names where
  assigned : List Text := []
  looped : List Text := []
  params : List Text := []
  functions : List Text := []
deriving DecidableEq, Repr

namespace Names

def isVariable (names : Names) (n : Text) : Bool :=
  names.assigned.contains n || names.looped.contains n

def isParam (names : Names) (n : Text) : Bool := names.params.contains n

def isFunction (names : Names) (n : Text) : Bool := names.functions.contains n

def isEmpty (names : Names) : Bool :=
  names.assigned.isEmpty && names.looped.isEmpty && names.params.isEmpty && names.functions.isEmpty

/-- The uses that the tokens of the source show. -/
def ofTokens (source : Text) (tokens : List Token) : Names :=
  let places := occurrences tokens
  let lines := LineTable.ofText source
  let isDeclaration (o : Occurrence) : Bool :=
    o.isCall && introducesDeclarationAtEnd (lines.head o.token.start)
  { assigned := ((places.filter Occurrence.isAssigned).map (·.token.text)).eraseDups
    looped := (places.filterMap Occurrence.loopName?).eraseDups
    params := ((places.filter isDeclaration).flatMap Occurrence.argumentNames).eraseDups
    functions := ((places.filter Occurrence.isCall).map (·.token.text)).eraseDups }

theorem params_ofTokens (source : Text) (tokens : List Token) :
    (ofTokens source tokens).params =
      (((occurrences tokens).filter (·.isDeclaration source)).flatMap
        Occurrence.argumentNames).eraseDups := by
  simp [ofTokens, Occurrence.isDeclaration, introducesDeclarationAtEnd_eq]

/-- The uses that the tokens show, if every call among them starts at a boundary of the source. -/
def ofTokens? (source : Text) (tokens : List Token) : Option Names :=
  if (occurrences tokens).all fun o => !o.isCall || Text.isBoundary source o.token.start then
    some (ofTokens source tokens)
  else none

theorem ofTokens?_of_isBoundary {source : Text} {tokens : List Token}
    (h : ∀ t ∈ tokens, Text.isBoundary source t.start) :
    ofTokens? source tokens = some (ofTokens source tokens) := by
  apply if_pos
  rw [List.all_eq_true]
  intro o ho
  have hmem : o.token ∈ tokens := by
    rw [← map_token_occurrences tokens]
    exact List.mem_map_of_mem ho
  rw [h o.token hmem, Bool.or_true]

/-- Names in the order of their characters' codes, which is also that of their bytes. -/
def sorted (names : List Text) : List Text := names.mergeSort Text.le

end Names

end ScriptEditor
