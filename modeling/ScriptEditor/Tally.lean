import ScriptEditor.Duration
import ScriptEditor.Painter

/-! What a tally counts comes from outside, so its counts are checked. -/

namespace ScriptEditor

structure Tally extends Counts where
  total : Duration := .zero
  average : Duration := .zero
  longest : Duration := .zero
deriving DecidableEq, Repr

namespace Tally

/-- Adds a pass that took the time and found so many tokens. There is no tally if the counts or the
total time do not fit, or no average can be taken. -/
def pass? (t : Tally) (time : Duration) (tokens : Nat) : Option Tally := do
  let counts ← (t.toCounts.pass tokens).fit?
  let total ← t.total.add? time
  let average ← total.divide? counts.passes
  return { toCounts := counts, total, average, longest := t.longest.max time }

inductive Event
  | pass (time : Duration) (tokens : Nat)
  | hit
  | miss
  | reset
deriving DecidableEq, Repr

def record? (t : Tally) : Event → Option Tally
  | .pass time tokens => t.pass? time tokens
  | .hit => t.toCounts.hit.fit?.map fun n => { t with toCounts := n }
  | .miss => t.toCounts.miss.fit?.map fun n => { t with toCounts := n }
  | .reset => some {}

/-- The tally after the events, if there is one after each of them. -/
def run? (events : List Event) : Option Tally := events.foldlM record? {}

end Tally

end ScriptEditor
