import ScriptEditor.Lexeme
import ScriptEditor.Names
import ScriptEditor.Style

namespace ScriptEditor

namespace Markup

/-- Stands for an empty text, so that the surface that shows it keeps its height. -/
def placeholder : Text := "&nbsp;".toList

def escapeChar (c : Char) : Text :=
  if c = '&' then "&amp;".toList
  else if c = '<' then "&lt;".toList
  else if c = '>' then "&gt;".toList
  else [c]

def escape (t : Text) : Text := t.flatMap escapeChar

def orPlaceholder (t : Text) : Text := if t.isEmpty then placeholder else t

def openTag (c : Text) : Text := "<span class=\"".toList ++ c ++ "\">".toList

def closeTag : Text := "</span>".toList

end Markup

/-- A name that is called is a function there, whatever else it is; of its other uses a variable
comes before a parameter. -/
def Occurrence.style? (names : Names) (o : Occurrence) : Option Style :=
  match o.token.kind with
  | .comment => some .comment
  | .string | .value => some .value
  | .keyword => some .keyword
  | .identifier =>
    if o.isFollowedBy '(' && names.isFunction o.token.text then some .function
    else if names.isVariable o.token.text then some .variable
    else if names.isParam o.token.text then some .param
    else none
  | .blank | .operator => none

/-- The style of the token with the index; past the last token there is none. -/
def styleAt? (names : Names) (tokens : List Token) (index : Nat) : Option Style :=
  match tokens.drop index with
  | [] => none
  | t :: rest => Occurrence.style? names ⟨t, rest⟩

namespace Markup

def element (sheet : StyleSheet) (names : Names) (o : Occurrence) : Text :=
  match o.style? names with
  | some s => openTag (sheet.classOf s) ++ escape o.token.text ++ closeTag
  | none => escape o.token.text

def ofTokens (sheet : StyleSheet) (names : Names) (tokens : List Token) : Text :=
  orPlaceholder ((occurrences tokens).flatMap (element sheet names))

/-- The markup of a script. -/
def ofSource (sheet : StyleSheet) (source : Text) : Text :=
  let tokens := lex source
  ofTokens sheet (Names.ofTokens source tokens) tokens

/-- The text alone, without styles. -/
def plain (source : Text) : Text := orPlaceholder (escape source)

end Markup

end ScriptEditor
