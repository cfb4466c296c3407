import ScriptEditor.Text.Blank
import ScriptEditor.Token
import ScriptEditor.Word

/-! Cutting a source into tokens: at each place the first rule that fits decides. -/

namespace ScriptEditor

def isWordStart (c : Char) : Bool := c.isAlpha || c == '_'

def isWordChar (c : Char) : Bool := c.isAlphanum || c == '_'

theorem isWordChar_of_isWordStart {c : Char} (h : isWordStart c) : isWordChar c := by
  unfold isWordStart at h
  unfold isWordChar Char.isAlphanum
  grind

def Kind.ofWord (w : Text) : Kind :=
  match Word.kindOf w with
  | .keyword => .keyword
  | .literal => .value
  | .name => .identifier

/-- Adds to `n` the characters that belong to a string literal behind its opening quote: up to the
first quote that no backslash takes as the character it escapes, or all of them. -/
def literalLength (n : Nat) : Text → Nat
  | [] => n
  | '"' :: _ => n + 1
  | '\\' :: _ :: t => literalLength (n + 2) t
  | _ :: t => literalLength (n + 1) t

/-- The characters at the front of a text that make up one token, and what is left behind them. -/
structure Lexeme where
  kind : Kind
  text : Text
  rest : Text
deriving DecidableEq, Repr

namespace Lexeme

/-- The lexeme at the front of the text that `c` opens and `t` continues: a line comment, a string
literal, a word, a run of digits, one blank, or one character of any other sort. -/
def front (c : Char) (t : Text) : Lexeme :=
  if c == '/' && t.head? == some '/' then
    ⟨.comment, c :: t.takeWhile (· != '\n'), t.dropWhile (· != '\n')⟩
  else if c == '"' then
    let n := literalLength 0 t
    ⟨.string, c :: t.take n, t.drop n⟩
  else if isWordStart c then
    let w := c :: t.takeWhile isWordChar
    ⟨.ofWord w, w, t.dropWhile isWordChar⟩
  else if c.isDigit then
    ⟨.value, c :: t.takeWhile Char.isDigit, t.dropWhile Char.isDigit⟩
  else if Text.isBlank c then ⟨.blank, [c], t⟩
  else ⟨.operator, [c], t⟩

theorem text_append_rest (c : Char) (t : Text) :
    (front c t).text ++ (front c t).rest = c :: t := by
  simp only [front]
  repeat' split
  all_goals simp

theorem text_ne_nil (c : Char) (t : Text) : (front c t).text ≠ [] := by
  simp only [front]
  repeat' split
  all_goals simp

theorem length_rest_lt (c : Char) (t : Text) : (front c t).rest.length < (c :: t).length := by
  rw [← text_append_rest c t, List.length_append]
  have := List.length_pos_iff.2 (text_ne_nil c t)
  omega

/-- Induction along the cutting of a text: from what is left behind a lexeme to the whole. -/
@[elab_as_elim]
theorem induction {motive : Text → Prop} (nil : motive [])
    (cons : ∀ c t, motive (front c t).rest → motive (c :: t)) (t : Text) : motive t := by
  induction h : t.length using Nat.strongRecOn generalizing t with
  | ind n ih =>
    cases t with
    | nil => exact nil
    | cons c t => exact cons c t (ih _ (h ▸ length_rest_lt c t) _ rfl)

end Lexeme

/-- Puts the tokens of a text that starts at the offset behind `seen`, which is held last token
first. -/
def lexOnto (seen : List Token) (offset : Nat) : Text → List Token
  | [] => seen.reverse
  | c :: t =>
    let l := Lexeme.front c t
    let token : Token := ⟨l.kind, l.text, offset⟩
    lexOnto (token :: seen) token.stop l.rest
termination_by t => t.length
decreasing_by exact Lexeme.length_rest_lt c t

/-- The tokens of a text that starts at the offset. -/
def lexAt (offset : Nat) (t : Text) : List Token := lexOnto [] offset t

/-- The tokens of the source. -/
def lex (source : Text) : List Token := lexAt 0 source

theorem lexOnto_eq (seen : List Token) (offset : Nat) (t : Text) :
    lexOnto seen offset t = seen.reverse ++ lexAt offset t := by
  induction t using Lexeme.induction generalizing seen offset with
  | nil => simp [lexAt, lexOnto]
  | cons c t ih =>
    rw [lexAt, lexOnto, lexOnto, ih, ih [_]]
    simp

@[simp] theorem lexAt_nil (offset : Nat) : lexAt offset [] = [] := by
  simp [lexAt, lexOnto]

theorem lexAt_cons (offset : Nat) (c : Char) (t : Text) :
    lexAt offset (c :: t) =
      ⟨(Lexeme.front c t).kind, (Lexeme.front c t).text, offset⟩ ::
        lexAt (offset + Text.byteLength (Lexeme.front c t).text) (Lexeme.front c t).rest := by
  rw [lexAt, lexOnto, lexOnto_eq]
  rfl

end ScriptEditor
