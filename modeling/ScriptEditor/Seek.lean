import ScriptEditor.Markup
import ScriptEditor.Scan

/-! Finding tokens by their indices. There is no result if a slice misses its list. -/

namespace ScriptEditor.Seek

/-- The tokens between two indices that are in order. -/
def slice? (tokens : List Token) (start stop : Nat) : Option (List Token) :=
  if start ≤ stop ∧ stop ≤ tokens.length then some ((tokens.drop start).take (stop - start))
  else none

/-- The index that is `n` further on: that of a token, or the number of all tokens. -/
def advance? (tokens : List Token) (index n : Nat) : Option Nat :=
  if index + n ≤ tokens.length then some (index + n) else none

/-- The index of the first token at or behind the given one that is not blank, or the number of all
tokens. -/
def skipBlanks? (tokens : List Token) (index : Nat) : Option Nat := do
  let behind ← slice? tokens (min index tokens.length) tokens.length
  match behind.findIdx? fun t => !t.isBlank with
  | some n => advance? tokens index n
  | none => return tokens.length

/-- The index of the token that closes the bracket opened at the given index. The counter of open
brackets holds no number above that of the tokens. -/
def matchingIndex? (opening closing : Char) (tokens : List Token) (index : Nat) :
    Option (Option Nat) :=
  countedIndex? opening closing tokens.length 0 index (tokens.drop index)

/-- The line that holds the offset, up to the offset. -/
def lineBefore? (source : Text) (offset : Nat) : Option Text := do
  let before ← Text.slice? source 0 offset
  match (Scan.charOffsets 0 before).reverse.find? fun x => x.2 == '\n' with
  | some (n, _) => Scan.behind? before (n + 1)
  | none => Scan.behind? before 0

/-- The first token behind the index that is not blank, with its own index. -/
def next? (tokens : List Token) (index : Nat) : Option (Nat × Option Token) := do
  let next ← skipBlanks? tokens (← advance? tokens index 1)
  return (next, tokens[next]?)

/-- The name that a loop binds, if its keyword has the index. -/
def loopName? (tokens : List Token) (index : Nat) : Option (Option Text) := do
  match ← next? tokens index with
  | (_, none) => return none
  | (nameIndex, some name) =>
    if name.isIdentifier then
      let (_, join) ← next? tokens nameIndex
      return if join.any (Token.isKeyword Word.joinsLoop) then some name.text else none
    else return none

/-- An equals sign follows the token with the index, or an index in square brackets and then the
sign. -/
def isAssigned? (tokens : List Token) (index : Nat) : Option Bool := do
  match ← next? tokens index with
  | (_, none) => return false
  | (signIndex, some sign) =>
    if sign.isChar '[' then
      match ← matchingIndex? '[' ']' tokens signIndex with
      | none => return false
      | some close =>
        let (_, behind) ← next? tokens close
        return behind.any (Token.isChar '=')
    else return sign.isChar '='

/-- The names between the parentheses of which the first has the index; none if these are not
closed. -/
def argumentNames? (tokens : List Token) (index : Nat) : Option (List Text) := do
  match ← matchingIndex? '(' ')' tokens index with
  | none => return []
  | some close =>
    let inside ← slice? tokens (← advance? tokens index 1) close
    return (inside.filter Token.isIdentifier).map Token.text

/-- Puts the names that are not there yet behind those that are. -/
def put (names : List Text) (more : List Text) : List Text :=
  more.foldl (fun names n => if names.contains n then names else names ++ [n]) names

/-- Adds the uses that the token with the index shows. -/
def note? (source : Text) (tokens : List Token) (names : Names) (x : Token × Nat) :
    Option Names := do
  let (t, index) := x
  if t.isKeyword Word.opensLoop then
    let looped ← loopName? tokens index
    return { names with looped := put names.looped looped.toList }
  else if t.isIdentifier then
    let assigned ← isAssigned? tokens index
    let names := if assigned then { names with assigned := put names.assigned [t.text] } else names
    let (nextIndex, sign) ← next? tokens index
    if sign.any (Token.isChar '(') then
      let names := { names with functions := put names.functions [t.text] }
      if introducesDeclaration (← lineBefore? source t.start) then
        let params ← argumentNames? tokens nextIndex
        return { names with params := put names.params params }
      else return names
    else return names
  else return names

/-- The uses of names that the tokens show, one token after another. -/
def names? (source : Text) (tokens : List Token) : Option Names :=
  tokens.zipIdx.foldlM (note? source tokens) {}

/-- The style of the token with the index; past the last token there is none. -/
def style? (names : Names) (tokens : List Token) (index : Nat) : Option (Option Style) :=
  match tokens[index]? with
  | none => some none
  | some t =>
    match t.kind with
    | .comment => some (some .comment)
    | .string | .value => some (some .value)
    | .keyword => some (some .keyword)
    | .identifier => do
      let (_, sign) ← next? tokens index
      return if sign.any (Token.isChar '(') && names.isFunction t.text then some .function
        else if names.isVariable t.text then some .variable
        else if names.isParam t.text then some .param
        else none
    | .blank | .operator => some none

/-- Puts the markup of the token with the index behind the text. -/
def write? (sheet : StyleSheet) (names : Names) (tokens : List Token) (out : Text)
    (x : Token × Nat) : Option Text := do
  let (t, index) := x
  match ← style? names tokens index with
  | some s =>
    return out ++ Markup.openTag (sheet.classOf s) ++ Markup.escape t.text ++ Markup.closeTag
  | none => return out ++ Markup.escape t.text

/-- The markup of the tokens, one token after another. -/
def markup? (sheet : StyleSheet) (names : Names) (tokens : List Token) : Option Text :=
  (tokens.zipIdx.foldlM (write? sheet names tokens) []).map Markup.orPlaceholder

/-- The number of bytes that are set aside for the markup before any of it is there: twice the lengths
of the tokens. -/
def room (tokens : List Token) : Nat := tokens.foldl (fun n t => n + t.byteLength) 0 * 2

end ScriptEditor.Seek
