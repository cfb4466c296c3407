import ScriptEditor.Page

/-! A history is for those who follow a page from outside; the page itself knows nothing of it. -/

namespace ScriptEditor

/-- Whether the event touches the text, be it to leave it as it was. -/
def Page.Event.isEdit : Event → Bool
  | input _ | tab | clear => true
  | select _ _ | scroll _ | save => false

structure Edit where
  event : Page.Event
  before : Text
  after : Text
  change : Change
deriving DecidableEq, Repr

def Edit.changesText (e : Edit) : Bool := e.before != e.after

structure History where
  page : Page
  first : Text
  edits : List Edit := []

namespace History

/-- All texts that the page has shown. -/
def texts (h : History) : List Text := h.first :: h.edits.map Edit.after

variable [Fingerprint]

def start (settings : Settings) (text : Text) : History :=
  { page := .ofText settings text, first := text }

def step? (h : History) (event : Page.Event) : Option History :=
  (h.page.handle? event).map fun (change?, page) =>
    { h with page, edits := h.edits ++ change?.toList.map fun change =>
      { event, before := h.page.text, after := page.text, change } }

def run? (h : History) (events : List Page.Event) : Option History := events.foldlM step? h

theorem run?_cons (h : History) (event : Page.Event) (rest : List Page.Event) :
    h.run? (event :: rest) = (h.step? event).bind (·.run? rest) := rfl

end History

end ScriptEditor
