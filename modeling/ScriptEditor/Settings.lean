import ScriptEditor.Text

namespace ScriptEditor

/-- The number of spaces for a tab, whether the display is styled, and the markup behind the text,
which keeps an empty last line in sight. -/
structure Settings where
  tabWidth : Nat := 4
  styled : Bool := true
  trailing : Text := "<br>&nbsp;".toList
deriving DecidableEq, Repr

namespace Settings

def standard : Settings := {}

def unstyled : Settings := { styled := false }

/-- No text has more bytes. -/
def maxBytes : Nat := 0x7FFFFFFFFFFFFFFF

/-- The text of a tab, if it fits into memory. -/
def tabText? (s : Settings) : Option Text :=
  if s.tabWidth ≤ maxBytes then some (List.replicate s.tabWidth ' ') else none

end Settings

end ScriptEditor
