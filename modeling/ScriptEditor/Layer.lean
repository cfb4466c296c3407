import ScriptEditor.Painter
import ScriptEditor.Settings
import ScriptEditor.Text.Lines

namespace ScriptEditor

structure Layer where
  markup : Text
  numbers : Text
deriving DecidableEq, Repr

/-- The layer that settings and text ask for. -/
def Layer.ofText (settings : Settings) (text : Text) : Layer :=
  let markup := if settings.styled then Markup.ofSource .standard text else Markup.plain text
  ⟨markup ++ settings.trailing, Text.gutter text⟩

variable [Fingerprint]

namespace Painter

/-- A painter for pages with the settings. -/
def ofSettings (settings : Settings) : Painter := { enabled := settings.styled }

def paintLayer (p : Painter) (settings : Settings) (text : Text) : Layer × Painter :=
  let (markup, p) := p.paint text
  (⟨markup ++ settings.trailing, Text.gutter text⟩, p)

def paintLayer? (p : Painter) (settings : Settings) (text : Text) : Option (Layer × Painter) :=
  (p.paint? text).map fun (markup, p) => (⟨markup ++ settings.trailing, Text.gutter text⟩, p)

end Painter

end ScriptEditor
