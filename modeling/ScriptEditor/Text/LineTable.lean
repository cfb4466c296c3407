import ScriptEditor.Text.Lines

namespace ScriptEditor

/-- The lines up to all offsets of a text, each last character first, so that a line shares what it
holds with the line up to the next offset. -/
structure LineTable where
  heads : Array Text

namespace LineTable

/-- Adds to the table the lines up to the offsets in a text that goes on with `t` after `line`. -/
def extend (heads : Array Text) (line : Text) : Text → Array Text
  | [] => heads.push line
  | c :: t =>
    extend (heads ++ Array.replicate c.utf8Size line) (if c = '\n' then [] else c :: line) t

def ofText (t : Text) : LineTable := ⟨extend #[] [] t⟩

/-- The line up to the offset, last character first, and the last line for an offset past the
end. -/
def head (table : LineTable) (offset : Nat) : Text :=
  table.heads.getD offset (table.heads.back?.getD [])

/-- What `extend` adds. -/
def rows (line : Text) : Text → List Text
  | [] => [line]
  | c :: t => List.replicate c.utf8Size line ++ rows (if c = '\n' then [] else c :: line) t

theorem toList_extend (heads : Array Text) (line t : Text) :
    (extend heads line t).toList = heads.toList ++ rows line t := by
  induction t generalizing heads line with
  | nil => simp [extend, rows]
  | cons c t ih => simp [extend, rows, ih]

theorem reverse_lastLine_append_singleton (p : Text) (c : Char) :
    (Text.lastLine (p ++ [c])).reverse =
      if c = '\n' then [] else c :: (Text.lastLine p).reverse := by
  rw [Text.lastLine_append_singleton]
  split <;> simp

theorem getLast?_rows (p t : Text) :
    (rows (Text.lastLine p).reverse t).getLast? = some (Text.lastLine (p ++ t)).reverse := by
  induction t generalizing p with
  | nil => simp [rows]
  | cons c t ih =>
    rw [rows, ← reverse_lastLine_append_singleton, List.getLast?_append, ih (p ++ [c])]
    simp

/-- The row at an offset holds the line that the text has up to there. -/
theorem getD_rows (p t : Text) (offset : Nat) :
    (rows (Text.lastLine p).reverse t).getD offset (Text.lastLine (p ++ t)).reverse =
      (Text.lastLine (p ++ Text.takeBytes offset t)).reverse := by
  induction t generalizing p offset with
  | nil => cases offset <;> simp [rows]
  | cons c t ih =>
    have hp : p ++ c :: t = (p ++ [c]) ++ t := by simp
    rw [rows, ← reverse_lastLine_append_singleton, Text.takeBytes_cons, List.getD_eq_getElem?_getD]
    by_cases h : c.utf8Size ≤ offset
    · rw [if_pos h, List.getElem?_append_right (by simpa using h), List.length_replicate,
        ← List.getD_eq_getElem?_getD, hp, ih]
      simp
    · rw [if_neg h, List.getElem?_append_left (by simpa using h)]
      simp [Nat.lt_of_not_le h]

@[simp] theorem reverse_head_ofText (t : Text) (offset : Nat) :
    ((ofText t).head offset).reverse = Text.lineBefore t offset := by
  have hheads : (extend #[] [] t).toList = rows [] t := toList_extend #[] [] t
  have hlast : (extend #[] [] t).back? = some (Text.lastLine t).reverse := by
    rw [← Array.getLast?_toList, hheads]
    exact getLast?_rows [] t
  have hrow := getD_rows [] t offset
  simp only [Text.lastLine_nil, List.reverse_nil, List.nil_append, ← hheads] at hrow
  rw [head, ofText, hlast, Option.getD_some, Array.getD_eq_getD_getElem?,
    ← Array.getElem?_toList, ← List.getD_eq_getElem?_getD, hrow, List.reverse_reverse]
  rfl

end LineTable

end ScriptEditor
