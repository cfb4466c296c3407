import ScriptEditor.Text

/-! Only the line feed breaks a line, so a text has one line more than line feeds. -/

namespace ScriptEditor.Text

def countLines (t : Text) : Nat := t.count '\n' + 1

/-- The numbers of the lines of the text, one a line, as the gutter shows them. -/
def gutter (t : Text) : Text :=
  List.intercalate ['\n'] ((List.range (countLines t)).map fun k => Nat.toDigits 10 (k + 1))

/-- What the second text has more lines than the first. -/
def addedLines (before after : Text) : Int := (countLines after : Int) - countLines before

/-- What follows the last line feed. -/
def lastLine (t : Text) : Text := (t.reverse.takeWhile (· != '\n')).reverse

/-- The line that holds the offset, up to the offset. -/
def lineBefore (t : Text) (offset : Nat) : Text := lastLine (takeBytes offset t)

/-- The line up to the offset, of an offset that is a boundary. -/
def lineBefore? (t : Text) (offset : Nat) : Option Text :=
  if isBoundary t offset then some (lineBefore t offset) else none

/-- The lines of the text, without the line feeds between them. -/
def lines (t : Text) : List Text := t.splitOn '\n'

@[simp] theorem lines_nil : lines [] = [[]] := List.splitOn_nil '\n'

theorem lines_lineFeed (t : Text) : lines ('\n' :: t) = [] :: lines t := by
  unfold lines
  rw [List.splitOn_eq_splitOnP, List.splitOnP_cons_eq_if_modifyHead, if_pos (beq_self_eq_true _),
    List.splitOn_eq_splitOnP]

theorem lines_cons {c : Char} (h : c ≠ '\n') (t : Text) :
    lines (c :: t) = (lines t).modifyHead (c :: ·) := by
  unfold lines
  rw [List.splitOn_eq_splitOnP, List.splitOnP_cons_eq_if_modifyHead, if_neg (mt eq_of_beq h),
    List.splitOn_eq_splitOnP]

theorem lines_append {w : Text} (h : '\n' ∉ w) (t : Text) :
    lines (w ++ t) = (lines t).modifyHead (w ++ ·) := by
  induction w with
  | nil =>
    change lines t = (lines t).modifyHead id
    rw [List.modifyHead_id, id]
  | cons c w ih =>
    obtain ⟨hc, hw⟩ := not_or.1 (mt List.mem_cons.2 h)
    rw [List.cons_append, lines_cons (Ne.symm hc), ih hw, List.modifyHead_modifyHead]
    rfl

theorem lines_line {w : Text} (h : '\n' ∉ w) (t : Text) :
    lines (w ++ '\n' :: t) = w :: lines t := by
  rw [lines_append h, lines_lineFeed, List.modifyHead_cons, List.append_nil]

/-- Lines with their line feeds, and what comes behind them. -/
theorem lines_flatMap_lines {ls : List Text} (h : ∀ l ∈ ls, '\n' ∉ l) (t : Text) :
    lines (ls.flatMap (· ++ ['\n']) ++ t) = ls ++ lines t := by
  induction ls with
  | nil => rfl
  | cons l ls ih =>
    rw [List.forall_mem_cons] at h
    rw [List.flatMap_cons, List.append_assoc, List.append_assoc, List.singleton_append,
      lines_line h.1, ih h.2, List.cons_append]

theorem length_lines (t : Text) : (lines t).length = countLines t := by
  induction t with
  | nil => rfl
  | cons c t ih =>
    by_cases h : c = '\n'
    · rw [h, lines_lineFeed, List.length_cons, ih, countLines, countLines, List.count_cons_self]
    · rw [lines_cons h, List.length_modifyHead, ih, countLines, countLines,
        List.count_cons_of_ne h]

/-- The gutter has the decimal numerals from one on, one a line. -/
theorem lines_gutter (t : Text) :
    lines (gutter t) = (List.range' 1 (countLines t)).map fun n => (toString n).toList := by
  have hnumerals : (List.range (countLines t)).map (fun k => Nat.toDigits 10 (k + 1)) =
      (List.range' 1 (countLines t)).map fun n => (toString n).toList := by
    rw [List.range'_eq_map_range, List.map_map]
    apply List.map_congr_left
    intro k _
    rw [Function.comp_apply, Nat.add_comm 1 k]
    exact Nat.toList_repr.symm
  have hdigits : ∀ l ∈ (List.range (countLines t)).map fun k => Nat.toDigits 10 (k + 1),
      '\n' ∉ l := by
    intro l hl hmem
    obtain ⟨k, -, rfl⟩ := List.mem_map.1 hl
    exact absurd (Nat.isDigit_of_mem_toDigits (by decide) (by decide) hmem) (by decide)
  have hne : (List.range (countLines t)).map (fun k => Nat.toDigits 10 (k + 1)) ≠ [] := by
    rw [countLines, List.range_succ_eq_map]
    exact List.cons_ne_nil _ _
  rw [lines, gutter, List.splitOn_intercalate '\n' hdigits hne, hnumerals]

@[simp] theorem lastLine_nil : lastLine [] = [] := rfl

theorem lastLine_append_singleton (t : Text) (c : Char) :
    lastLine (t ++ [c]) = if c = '\n' then [] else lastLine t ++ [c] := by
  by_cases h : c = '\n' <;> simp [lastLine, h]

theorem lastLine_suffix (t : Text) : lastLine t <:+ t := by
  rw [← List.reverse_prefix, lastLine, List.reverse_reverse]
  exact List.takeWhile_prefix _

theorem not_mem_lastLine (t : Text) : '\n' ∉ lastLine t := by
  intro h
  rw [lastLine, List.mem_reverse] at h
  have := List.all_eq_true.1 List.all_takeWhile _ h
  simp at this

theorem lastLine_append_of_not_mem {b : Text} (h : '\n' ∉ b) (a : Text) :
    lastLine (a ++ b) = lastLine a ++ b := by
  have hb : ∀ c ∈ b.reverse, (c != '\n') = true := by
    intro c hc
    exact bne_iff_ne.2 fun e => h (e ▸ List.mem_reverse.1 hc)
  rw [lastLine, List.reverse_append, List.takeWhile_append_of_pos hb, List.reverse_append,
    List.reverse_reverse]
  rfl

/-- The last line starts behind every line feed. -/
theorem lastLine_append_suffix {b : Text} (h : '\n' ∈ b) (a : Text) : lastLine (a ++ b) <:+ b := by
  rcases List.suffix_or_suffix_of_suffix (lastLine_suffix (a ++ b)) (List.suffix_append a b) with
    hle | hle
  · exact hle
  · exact absurd (hle.mem h) (not_mem_lastLine (a ++ b))

theorem suffix_lastLine_iff {w t : Text} (h : '\n' ∉ w) : w <:+ lastLine t ↔ w <:+ t := by
  constructor
  · exact fun hw => hw.trans (lastLine_suffix t)
  · rintro ⟨a, rfl⟩
    rw [lastLine_append_of_not_mem h]
    exact List.suffix_append _ w

end ScriptEditor.Text
