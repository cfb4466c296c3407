import ScriptEditor.Occurrence

namespace ScriptEditor

/-- The index of the token at which the depth of open brackets comes back to zero. A token that opens
is never looked at as one that closes. -/
def closingIndex? (opening closing : Char) (depth index : Nat) : List Token → Option Nat
  | [] => none
  | t :: rest =>
    if t.isChar opening then closingIndex? opening closing (depth + 1) (index + 1) rest
    else if t.isChar closing then
      match depth with
      | 0 => none
      | 1 => some index
      | d + 2 => closingIndex? opening closing (d + 1) (index + 1) rest
    else closingIndex? opening closing depth (index + 1) rest

/-- The index of the token that closes the bracket opened at the given index. -/
def matchingIndex? (opening closing : Char) (tokens : List Token) (index : Nat) : Option Nat :=
  closingIndex? opening closing 0 index (tokens.drop index)

/-- The scan with a counter that holds no number above `limit`; there is no result where it would have
to. -/
def countedIndex? (opening closing : Char) (limit depth index : Nat) :
    List Token → Option (Option Nat)
  | [] => some none
  | t :: rest =>
    if t.isChar opening then
      if depth < limit then countedIndex? opening closing limit (depth + 1) (index + 1) rest
      else none
    else if t.isChar closing then
      match depth with
      | 0 => some none
      | 1 => some (some index)
      | d + 2 => countedIndex? opening closing limit (d + 1) (index + 1) rest
    else countedIndex? opening closing limit depth (index + 1) rest

/-- The tokens inside the brackets of the group at the front of the list, and those behind it. -/
def splitGroup? (opening closing : Char) (tokens : List Token) :
    Option (List Token × List Token) :=
  (closingIndex? opening closing 0 0 tokens).map fun i => ((tokens.take i).drop 1, tokens.drop (i + 1))

end ScriptEditor
