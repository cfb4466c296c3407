import ScriptEditor.Text.Lines

namespace ScriptEditor

inductive Cause
  | input
  | tab
  | clear
deriving DecidableEq, Repr

def Cause.name : Cause → String
  | input => "input"
  | tab => "tab"
  | clear => "clear"

/-- The range from `start` to `stop` is replaced by `inserted` bytes, and the text has `lines` lines
more than before. -/
structure Change where
  start : Nat
  stop : Nat
  inserted : Nat
  lines : Int
  cause : Cause
deriving DecidableEq, Repr

namespace Change

/-- Takes the characters that two texts share off their fronts, and adds their bytes to `n`. -/
def dropShared (n : Nat) : Text → Text → Nat × Text × Text
  | a :: s, b :: t => if a = b then dropShared (n + a.utf8Size) s t else (n, a :: s, b :: t)
  | s, t => (n, s, t)

/-- The change that leaves alone what the texts share at their fronts, and then at their ends. -/
def ofInput (old new : Text) : Change :=
  let (start, s, t) := dropShared 0 old new
  let (_, removed, inserted) := dropShared 0 s.reverse t.reverse
  { start
    stop := start + Text.byteLength removed
    inserted := Text.byteLength inserted
    lines := Text.addedLines old new
    cause := .input }

/-- The change that a tab makes, which puts spaces, and so no line feed, in the place of a range. -/
def ofTab? (old : Text) (start stop : Nat) (inserted : Text) : Option Change :=
  (Text.slice? old start stop).map fun removed =>
    { start, stop
      inserted := Text.byteLength inserted
      lines := Text.addedLines removed []
      cause := .tab }

def ofClear (old : Text) : Change :=
  { start := 0
    stop := Text.byteLength old
    inserted := 0
    lines := Text.addedLines old []
    cause := .clear }

/-- Nothing is removed, as the range ends where it starts or before, and nothing is inserted. -/
def isEmpty (c : Change) : Bool := c.stop ≤ c.start && c.inserted == 0

end Change

end ScriptEditor
