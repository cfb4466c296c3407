import ScriptEditor.Duration

namespace ScriptEditor

inductive SizeClass
  | small
  | medium
  | large
  | extraLarge
deriving DecidableEq, Repr

namespace SizeClass

def all : List SizeClass := [small, medium, large, extraLarge]

theorem mem_all (s : SizeClass) : s ∈ all := by
  cases s <;> decide

def ofBytes (bytes : Nat) : SizeClass :=
  if bytes < 1024 then small
  else if bytes < 10 * 1024 then medium
  else if bytes < 100 * 1024 then large
  else extraLarge

def name : SizeClass → String
  | small => "Small (< 1KB)"
  | medium => "Medium (1KB - 10KB)"
  | large => "Large (10KB - 100KB)"
  | extraLarge => "Extra Large (> 100KB)"

/-- Inputs of the largest class may take any time. -/
def budget? : SizeClass → Option Duration
  | small => Duration.ofNanos? 5000000
  | medium => Duration.ofNanos? 20000000
  | large => Duration.ofNanos? 100000000
  | extraLarge => none

end SizeClass

end ScriptEditor
