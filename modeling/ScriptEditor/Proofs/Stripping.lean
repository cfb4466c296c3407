import ScriptEditor.Proofs.Display
import ScriptEditor.Proofs.Painting

namespace ScriptEditor.Markup

/-- What follows the tag at the front of the text, if one is there: an opening tag of an element with
whatever class, or a closing tag. -/
def dropTag? (m : Text) : Option Text :=
  (m.dropPrefix? closeTag).or
    ((m.dropPrefix? "<span class=\"".toList).bind fun m =>
      (m.dropWhile (· != '"')).dropPrefix? "\">".toList)

theorem length_lt_of_dropTag? {m rest : Text} (h : dropTag? m = some rest) :
    rest.length < m.length := by
  rcases Option.or_eq_some_iff.1 h with hclose | ⟨-, hopen⟩
  · have hlength := length_of_dropPrefix? hclose
    have hpos : 0 < closeTag.length := by decide
    omega
  · obtain ⟨m', hfront, hend⟩ := Option.bind_eq_some_iff.1 hopen
    have hfrontLength := length_of_dropPrefix? hfront
    have hendLength := length_of_dropPrefix? hend
    have hclass := length_dropWhile_le (· != '"') m'
    have hpos : 0 < "\">".toList.length := by decide
    omega

/-- Deletes all tags, from the front on. -/
def stripTags (m : Text) : Text :=
  match m with
  | [] => []
  | c :: m =>
    match _h : dropTag? (c :: m) with
    | some rest => stripTags rest
    | none => c :: stripTags m
termination_by m.length
decreasing_by
  · exact length_lt_of_dropTag? (by assumption)
  · exact Nat.lt_succ_self _

@[simp] theorem stripTags_nil : stripTags [] = [] := by
  rw [stripTags]

theorem dropTag?_closeTag (rest : Text) : dropTag? (closeTag ++ rest) = some rest := by
  rw [dropTag?, dropPrefix?_append]
  rfl

theorem dropTag?_openTag {c : Text} (hc : '"' ∉ c) (rest : Text) :
    dropTag? (openTag c ++ rest) = some rest := by
  have hclass : ∀ d ∈ c, (d != '"') = true := by
    intro d hd
    exact bne_iff_ne.2 fun heq => hc (heq ▸ hd)
  have hend : "\">".toList = ['"', '>'] := rfl
  have hquote : (c ++ ("\">".toList ++ rest)).dropWhile (· != '"') = "\">".toList ++ rest := by
    rw [hend]
    exact dropWhile_until hclass (by decide) ('>' :: rest)
  have hfront : openTag c ++ rest = "<span class=\"".toList ++ (c ++ ("\">".toList ++ rest)) := by
    rw [openTag_eq, List.append_assoc, List.append_assoc]
  have hclose : (openTag c ++ rest).dropPrefix? closeTag = none := rfl
  rw [dropTag?, hclose, hfront, dropPrefix?_append, Option.none_or, Option.bind_some, hquote,
    dropPrefix?_append]

theorem dropPrefix?_cons_of_ne {c d : Char} (h : c ≠ d) (m w : Text) :
    (c :: m).dropPrefix? (d :: w) = none := by
  rw [List.dropPrefix?, if_neg (mt eq_of_beq h)]

theorem dropTag?_cons_of_ne {c : Char} (hc : c ≠ '<') (m : Text) : dropTag? (c :: m) = none := by
  have hslash : closeTag = '<' :: "/span>".toList := rfl
  have hspan : "<span class=\"".toList = '<' :: "span class=\"".toList := rfl
  rw [dropTag?, hslash, hspan, dropPrefix?_cons_of_ne hc, dropPrefix?_cons_of_ne hc]
  rfl

theorem stripTags_of_dropTag? {m rest : Text} (h : dropTag? m = some rest) :
    stripTags m = stripTags rest := by
  cases m with
  | nil => cases h
  | cons c m =>
    rw [stripTags]
    split
    case h_1 rest' h' => rw [Option.some.inj (h.symm.trans h')]
    case h_2 h' => cases h.symm.trans h'

theorem stripTags_closeTag (rest : Text) : stripTags (closeTag ++ rest) = stripTags rest :=
  stripTags_of_dropTag? (dropTag?_closeTag rest)

theorem stripTags_openTag {c : Text} (hc : '"' ∉ c) (rest : Text) :
    stripTags (openTag c ++ rest) = stripTags rest :=
  stripTags_of_dropTag? (dropTag?_openTag hc rest)

theorem stripTags_cons_of_ne {c : Char} (hc : c ≠ '<') (m : Text) :
    stripTags (c :: m) = c :: stripTags m := by
  rw [stripTags]
  split
  case h_1 rest h => cases (dropTag?_cons_of_ne hc m).symm.trans h
  case h_2 => rfl

theorem stripTags_append {e : Text} (he : '<' ∉ e) (m : Text) :
    stripTags (e ++ m) = e ++ stripTags m := by
  induction e with
  | nil => rfl
  | cons c e ih =>
    obtain ⟨hc, he⟩ := not_or.1 (mt List.mem_cons.2 he)
    rw [List.cons_append, stripTags_cons_of_ne (Ne.symm hc), ih he, List.cons_append]

theorem stripTags_of_not_mem {e : Text} (he : '<' ∉ e) : stripTags e = e := by
  have hstrip := stripTags_append he []
  rwa [stripTags_nil, List.append_nil] at hstrip

theorem lt_not_mem_plain (source : Text) : '<' ∉ plain source := by
  rw [plain_eq]
  split
  · decide
  · exact not_mem_escape (Or.inl rfl) source

theorem stripTags_flatMap_markup {pieces : List Piece} (h : AreApart pieces) :
    stripTags (pieces.flatMap Piece.markup) = escape (pieces.flatMap Piece.content) := by
  -- No tag starts in escaped text, so the deletion goes over it to the next piece.
  have hescaped (t : Text) : '<' ∉ escape t := not_mem_escape (Or.inl rfl) t
  induction h with
  | nil => exact stripTags_nil
  | @element c t pieces hc _ ih =>
    have hmarkup : (Piece.element c t :: pieces).flatMap Piece.markup =
        openTag c ++ (escape t ++ (closeTag ++ pieces.flatMap Piece.markup)) := by
      rw [List.flatMap_cons, Piece.markup, List.append_assoc, List.append_assoc]
    rw [hmarkup, stripTags_openTag hc, stripTags_append (hescaped t), stripTags_closeTag, ih,
      List.flatMap_cons, escape_append]
    rfl
  | @text t pieces _ _ _ ih =>
    rw [List.flatMap_cons, List.flatMap_cons, escape_append, ← ih]
    exact stripTags_append (hescaped t) _

theorem stripTags_ofSource {sheet : StyleSheet} (hsafe : sheet.IsSafe) (source : Text) :
    stripTags (ofSource sheet source) = plain source := by
  by_cases h : source = []
  · rw [h, ofSource_nil]
    exact stripTags_of_not_mem (lt_not_mem_plain [])
  · rw [ofSource_eq_markup sheet h, stripTags_flatMap_markup (areApart_displayed hsafe source),
      content_displayed, plain_eq, if_neg h]

/-- The display with styles, less its tags, is what a painter that is not enabled writes for the same
text, whatever it painted before. -/
theorem stripTags_ofSource_eq_paint [Fingerprint] (sheet : StyleSheet) (hsafe : sheet.IsSafe)
    (source : Text) (p : Painter) (hdisabled : p.enabled = false) :
    stripTags (ofSource sheet source) = (p.paint source).1 := by
  rw [stripTags_ofSource hsafe, Painter.paint_of_disabled hdisabled]

/-- A tag in the text of the script is no tag of its markup. -/
theorem stripTags_ofSource_eq_paint_tags :
    (StyleSheet.standard.insert .value "a b".toList).IsSafe ∧
    ({ enabled := false } : Painter).enabled = false ∧
    ofSource (StyleSheet.standard.insert .value "a b".toList) "x=\"</span>\"".toList =
      "<span class=\"variable\">x</span>=<span class=\"a b\">\"&lt;/span&gt;\"</span>".toList ∧
    stripTags (ofSource (StyleSheet.standard.insert .value "a b".toList)
        "x=\"</span>\"".toList) = "x=\"&lt;/span&gt;\"".toList := by
  have hsafe : (StyleSheet.standard.insert .value "a b".toList).IsSafe := by
    intro s
    cases s <;> decide
  refine ⟨hsafe, rfl, by decide +kernel, ?_⟩
  rw [stripTags_ofSource_eq_paint _ hsafe _ { enabled := false } rfl]
  decide +kernel

end ScriptEditor.Markup
