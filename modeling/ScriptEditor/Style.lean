import ScriptEditor.Text

namespace ScriptEditor

inductive Style
  | comment
  | value
  | keyword
  | function
  | variable
  | param
deriving DecidableEq, Repr

namespace Style

def all : List Style := [.comment, .value, .keyword, .function, .variable, .param]

def name : Style → String
  | .comment => "comment"
  | .value => "value"
  | .keyword => "keyword"
  | .function => "function"
  | .variable => "variable"
  | .param => "param"

/-- The class of a style that a sheet has no entry for: the style's own name. -/
def ownClass (s : Style) : Text := s.name.toList

end Style

/-- Classes for some of the styles. -/
abbrev Theme := Style → Option Text

/-- The classes in force. Two sheets may differ in their entries and still show every style under
the same class. -/
structure StyleSheet where
  entries : Theme

namespace StyleSheet

def standard : StyleSheet := ⟨fun s => some s.ownClass⟩

instance : Inhabited StyleSheet := ⟨standard⟩

/-- The class under which the sheet shows a style. -/
def classOf (sheet : StyleSheet) (s : Style) : Text := (sheet.entries s).getD s.ownClass

def insert (sheet : StyleSheet) (s : Style) (c : Text) : StyleSheet :=
  ⟨fun s' => if s' = s then some c else sheet.entries s'⟩

/-- Sets the class of every style that the theme has an entry for. -/
def override (sheet : StyleSheet) (theme : Theme) : StyleSheet :=
  ⟨fun s => (theme s).or (sheet.entries s)⟩

inductive Edit
  | insert (s : Style) (c : Text)
  | reset
  | load (theme : Theme)

/-- To load a theme puts it in the place of all entries. -/
def edit (sheet : StyleSheet) : Edit → StyleSheet
  | .insert s c => sheet.insert s c
  | .reset => standard
  | .load theme => ⟨theme⟩

/-- Equality of the entries, an absent one differing from each that is present. -/
instance : DecidableEq StyleSheet := fun a b =>
  if h : ∀ s ∈ Style.all, a.entries s = b.entries s then
    isTrue (by
      cases a; cases b
      congr
      funext s
      exact h s (by cases s <;> decide))
  else isFalse fun e => h fun _ _ => e ▸ rfl

end StyleSheet

end ScriptEditor
