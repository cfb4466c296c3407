import Mathlib.Data.Nat.PSub
import ScriptEditor.Change
import ScriptEditor.Scan

namespace ScriptEditor.Compare

/-- The offset of the first character that differs from the one in its place in the other text. Where
there is none, one text continues the other, and the shorter one is shared. -/
def frontLength (a b : Text) : Nat :=
  match ((Scan.charOffsets 0 a).zip b).find? fun x => x.1.2 != x.2 with
  | some x => x.1.1
  | none => min a.byteLength b.byteLength

/-- The bytes of the characters, from the end on, that are the same in both texts. -/
def backLength (a b : Text) : Nat :=
  Text.byteLength (((a.reverse.zip b.reverse).takeWhile fun x => x.1 == x.2).map Prod.fst)

/-- The change from one text to the other. What they share at their ends is looked for behind what
they share at their fronts, so that the two never overlap. -/
def change? (old new : Text) : Option Change := do
  let front := frontLength old new
  let s ← Scan.behind? old front
  let t ← Scan.behind? new front
  let back := backLength s t
  let stop ← Nat.psub old.byteLength back
  let inserted ← (Nat.psub new.byteLength back).bind (Nat.psub · front)
  return { start := front, stop, inserted, lines := Text.addedLines old new, cause := .input }

end ScriptEditor.Compare
