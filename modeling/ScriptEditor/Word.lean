import ScriptEditor.Text

namespace ScriptEditor

inductive WordKind
  | keyword
  | literal
  | name
deriving DecidableEq, Repr

namespace Word

def opensLoop : Text := "for".toList

def joinsLoop : Text := "in".toList

def opensFunction : Text := "function".toList

def keywords : List Text :=
  ["for", "if", "else", "then", "do", "return", "in", "of", "while", "end", "break", "next",
    "continue", "to", "foreach", "skip", "function", "mod", "step", "repeat", "until", "exit",
    "class", "instance"].map String.toList

def literals : List Text := ["true", "false", "null", "none"].map String.toList

def isKeyword (w : Text) : Bool := keywords.contains w

def isLiteral (w : Text) : Bool := literals.contains w

def kindOf (w : Text) : WordKind :=
  if isKeyword w then .keyword else if isLiteral w then .literal else .name

end Word

end ScriptEditor
