import ScriptEditor.Change
import ScriptEditor.Layer

namespace ScriptEditor

/-- Offsets of a surface in pixels. -/
structure Scroll where
  top : Nat := 0
  left : Nat := 0
deriving DecidableEq, Repr

/-- Offsets of the selected bytes. -/
structure Selection where
  start : Nat := 0
  stop : Nat := 0
deriving DecidableEq, Repr

namespace Selection

def caret (offset : Nat) : Selection := ⟨offset, offset⟩

def isCaret (s : Selection) : Bool := s.start == s.stop

/-- The selection between two offsets, each moved down to a boundary of the text. -/
def between (text : Text) (a b : Nat) : Selection :=
  let a := text.floorBoundary a
  let b := text.floorBoundary b
  ⟨min a b, max a b⟩

end Selection

structure Page where
  settings : Settings
  painter : Painter
  text : Text
  selection : Selection
  editorScroll : Scroll := {}
  layerScroll : Scroll := {}
  gutterScroll : Scroll := {}
  unsaved : Bool := false
  layer : Layer

variable [Fingerprint]

namespace Page

/-- A page that shows the text, with the caret at its end. The first pass of a painter can always be
counted. -/
def ofText (settings : Settings) (text : Text) : Page :=
  let (layer, painter) := (Painter.ofSettings settings).paintLayer settings text
  { settings, painter, text, layer, selection := .caret text.byteLength }

def empty (settings : Settings) : Page := ofText settings []

/-- Shows another text, which is not saved yet, if the painter can paint it. -/
def display? (p : Page) (text : Text) : Option Page :=
  (p.painter.paintLayer? p.settings text).map fun (layer, painter) =>
    { p with painter, text, layer, unsaved := true }

def select (p : Page) (a b : Nat) : Page := { p with selection := .between p.text a b }

/-- The surface reports that it holds the text now. -/
def input? (p : Page) (text : Text) : Option (Change × Page) :=
  (p.display? text).map fun q =>
    (.ofInput p.text text, q.select p.selection.start p.selection.stop)

/-- Puts the spaces of a tab in the place of the selection, and the caret behind them. -/
def tab? (p : Page) : Option (Change × Page) := do
  let tab ← p.settings.tabText?
  let ⟨start, stop⟩ := p.selection
  let change ← Change.ofTab? p.text start stop tab
  let text ← p.text.splice? start stop tab
  let q ← p.display? text
  return (change, { q with selection := .caret (start + tab.byteLength) })

def clear? (p : Page) : Option (Change × Page) :=
  (p.display? []).map fun q =>
    (.ofClear p.text,
      { q with selection := {}, editorScroll := {}, layerScroll := {}, gutterScroll := {} })

/-- The surface scrolls: the layer goes along, and the gutter up and down only. -/
def scroll (p : Page) (offset : Scroll) : Page :=
  { p with editorScroll := offset, layerScroll := offset, gutterScroll := { top := offset.top } }

def save (p : Page) : Page := { p with unsaved := false }

inductive Event
  | input (text : Text)
  | select (a b : Nat)
  | tab
  | clear
  | scroll (offset : Scroll)
  | save
deriving DecidableEq, Repr

/-- What an event changes in the text, if it is one that touches it, and the page afterwards. -/
def handle? (p : Page) : Event → Option (Option Change × Page)
  | .input text => (p.input? text).map fun (c, p) => (some c, p)
  | .select a b => some (none, p.select a b)
  | .tab => p.tab?.map fun (c, p) => (some c, p)
  | .clear => p.clear?.map fun (c, p) => (some c, p)
  | .scroll offset => some (none, p.scroll offset)
  | .save => some (none, p.save)

end Page

end ScriptEditor
