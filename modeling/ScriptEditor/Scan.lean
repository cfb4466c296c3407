import ScriptEditor.Lexeme

/-! Cutting a source by offsets. Each look into it is a slice between two boundaries. -/

namespace ScriptEditor.Scan

/-- What the source holds from the offset on. -/
def behind? (source : Text) (offset : Nat) : Option Text :=
  Text.slice? source offset source.byteLength

/-- The characters of a text that starts at the offset, each with its own offset. -/
def charOffsets (offset : Nat) : Text → List (Nat × Char)
  | [] => []
  | c :: t => (offset, c) :: charOffsets (offset + c.utf8Size) t

/-- The offset of the first character from `start` on that the test fits, or the end of the source. -/
def firstOffset? (source : Text) (start : Nat) (test : Char → Bool) : Option Nat := do
  let t ← behind? source start
  match (charOffsets 0 t).find? fun x => test x.2 with
  | some (n, _) => return start + n
  | none => return source.byteLength

/-- The offset of the first quote that no backslash takes as the character it escapes. -/
def closingQuote? : List (Nat × Char) → Option Nat
  | [] => none
  | (_, '\\') :: [] => none
  | (_, '\\') :: _ :: rest => closingQuote? rest
  | (n, '"') :: _ => some n
  | _ :: rest => closingQuote? rest

/-- The end of the string literal of which the opening quote is at `start`. -/
def literalEnd? (source : Text) (start : Nat) : Option Nat := do
  let t ← behind? source (start + 1)
  match closingQuote? (charOffsets 0 t) with
  | some n => return start + 1 + n + 1
  | none => return source.byteLength

/-- The token that starts at the offset, where the source has the character `c`. -/
def token? (source : Text) (start : Nat) (c : Char) : Option Token := do
  let t ← behind? source start
  if ['/', '/'].isPrefixOf t then
    let stop ← firstOffset? source start (· == '\n')
    Token.ofSpan? .comment source start stop
  else if c == '"' then
    let stop ← literalEnd? source start
    Token.ofSpan? .string source start stop
  else if isWordStart c then
    let stop ← firstOffset? source start fun d => !isWordChar d
    let w ← Text.slice? source start stop
    Token.ofSpan? (.ofWord w) source start stop
  else if c.isDigit then
    let stop ← firstOffset? source start fun d => !d.isDigit
    Token.ofSpan? .value source start stop
  else if Text.isBlank c then Token.ofSpan? .blank source start (start + c.utf8Size)
  else Token.ofSpan? .operator source start (start + c.utf8Size)

/-- The tokens from the offset on. The loop cannot go on behind a token that leaves it where it is, or
outside of the source. -/
def tokensFrom? (source : Text) (offset : Nat) : Option (List Token) := do
  match ← behind? source offset with
  | [] => return []
  | c :: _ =>
    let t ← token? source offset c
    if offset < t.stop ∧ t.stop ≤ source.byteLength then
      let rest ← tokensFrom? source t.stop
      return t :: rest
    else none
termination_by source.byteLength - offset

def tokens? (source : Text) : Option (List Token) := tokensFrom? source 0

end ScriptEditor.Scan
