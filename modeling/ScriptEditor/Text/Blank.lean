import ScriptEditor.Text

/-! Blank characters: the twenty-five of Unicode's White_Space property. -/

namespace ScriptEditor.Text

def isBlank (c : Char) : Bool :=
  let n := c.toNat
  (0x9 ≤ n && n ≤ 0xD) || n == 0x20 || n == 0x85 || n == 0xA0 || n == 0x1680 ||
    (0x2000 ≤ n && n ≤ 0x200A) || n == 0x2028 || n == 0x2029 || n == 0x202F || n == 0x205F ||
    n == 0x3000

/-- The text without the blanks at its end. -/
def trimEnd (t : Text) : Text := (t.reverse.dropWhile isBlank).reverse

/-- The text without the blanks at its end and at its front. -/
def trim (t : Text) : Text := (trimEnd t).dropWhile isBlank

end ScriptEditor.Text
