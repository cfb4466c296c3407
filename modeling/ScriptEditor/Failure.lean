import ScriptEditor.Text

namespace ScriptEditor

inductive Failure
  | disconnected
  | crashed
  | notStarted (cause : Text)
  | unreadable (path cause : Text)
deriving DecidableEq, Repr

namespace Failure

def message : Failure → Text
  | disconnected => "highlight worker is no longer running".toList
  | crashed => "highlight worker panicked".toList
  | notStarted cause => "failed to spawn highlight worker: ".toList ++ cause
  | unreadable path cause => "I/O error reading ".toList ++ path ++ ": ".toList ++ cause

def cause? : Failure → Option Text
  | disconnected | crashed => none
  | notStarted cause | unreadable _ cause => some cause

end Failure

end ScriptEditor
