import ScriptEditor.Text

namespace ScriptEditor

inductive Kind
  | comment
  | string
  | keyword
  | value
  | identifier
  | blank
  | operator
deriving DecidableEq, Repr

def Kind.name : Kind → String
  | comment => "comment"
  | string => "string"
  | keyword => "keyword"
  | value => "value"
  | identifier => "identifier"
  | blank => "whitespace"
  | operator => "operator"

structure Token where
  kind : Kind
  text : Text
  start : Nat
deriving DecidableEq, Repr

namespace Token

def byteLength (t : Token) : Nat := Text.byteLength t.text

def stop (t : Token) : Nat := t.start + t.byteLength

/-- The token that covers the source between two boundaries. -/
def ofSpan? (kind : Kind) (source : Text) (start stop : Nat) : Option Token :=
  (Text.slice? source start stop).map fun text => ⟨kind, text, start⟩

def isEmpty (t : Token) : Bool := t.text.isEmpty

def isBlank (t : Token) : Bool := t.kind == .blank

def isIdentifier (t : Token) : Bool := t.kind == .identifier

/-- The token is the one character, of whatever kind. -/
def isChar (c : Char) (t : Token) : Bool :=
  match t.text with
  | [d] => d == c
  | _ => false

theorem isChar_iff {c : Char} {t : Token} : t.isChar c ↔ t.text = [c] := by
  unfold isChar
  split
  · rename_i d h
    simp [h]
  · rename_i h
    simpa using fun e => h c e

def isKeyword (w : Text) (t : Token) : Bool := t.kind == .keyword && t.text == w

end Token

end ScriptEditor
