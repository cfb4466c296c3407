import ScriptEditor.Proofs.Stripping

namespace ScriptEditor

namespace Text

/-- The function does to a text what it does to each of its lines. -/
def ActsOnLines (g : Text → Text) (t : Text) : Prop := lines (g t) = (lines t).map g

variable {g : Text → Text} {t : Text}

theorem ActsOnLines.lineFeed (hnil : g [] = []) (hg : ∀ l, g ('\n' :: l) = '\n' :: g l)
    (h : ActsOnLines g t) : ActsOnLines g ('\n' :: t) := by
  unfold ActsOnLines at h ⊢
  rw [hg, lines_lineFeed, lines_lineFeed, List.map_cons, hnil, h]

/-- At the front of the first line the function may put something else in the place of what is
there. -/
theorem ActsOnLines.append {w v : Text} (hw : '\n' ∉ w) (hv : '\n' ∉ v)
    (hg : ∀ l, g (w ++ l) = v ++ g l) (h : ActsOnLines g t) : ActsOnLines g (w ++ t) := by
  unfold ActsOnLines at h ⊢
  rw [hg, lines_append hv, lines_append hw, h]
  cases lines t with
  | nil => rfl
  | cons l ls => exact congrArg (· :: ls.map g) (hg l).symm

theorem ActsOnLines.deleted {w : Text} (hw : '\n' ∉ w) (hg : ∀ l, g (w ++ l) = g l)
    (h : ActsOnLines g t) : ActsOnLines g (w ++ t) :=
  h.append hw List.not_mem_nil fun l => (hg l).trans (List.nil_append (g l)).symm

theorem ActsOnLines.countLines_eq (h : ActsOnLines g t) : countLines (g t) = countLines t := by
  rw [← length_lines, ← length_lines, h, List.length_map]

end Text

namespace Markup

open Text

theorem lineFeed_not_mem_escapeChar {c : Char} (hc : c ≠ '\n') : '\n' ∉ escapeChar c := by
  by_cases hspecial : IsSpecial c
  · have htails : ∀ tail ∈ entityTails, '\n' ∉ '&' :: tail := by decide
    obtain ⟨tail, htail, heq⟩ := escapeChar_of_special hspecial
    rw [heq]
    exact htails tail htail
  · rw [escapeChar_of_plain hspecial]
    exact mt List.mem_singleton.1 (Ne.symm hc)

theorem actsOnLines_escape (t : Text) : ActsOnLines escape t := by
  induction t with
  | nil => rfl
  | cons c t ih =>
    by_cases hc : c = '\n'
    · rw [hc]
      exact ih.lineFeed rfl fun l => escape_cons '\n' l
    · have hsingle : '\n' ∉ [c] := mt List.mem_singleton.1 (Ne.symm hc)
      exact ih.append hsingle (lineFeed_not_mem_escapeChar hc) fun l => escape_cons c l

theorem unescape?_lines_escape (t : Text) :
    (lines (escape t)).map unescape? = (lines t).map some := by
  rw [actsOnLines_escape t, List.map_map]
  exact List.map_congr_left fun l _ => unescape?_escape l

theorem countLines_plain (t : Text) : countLines (plain t) = countLines t := by
  by_cases h : t = []
  · rw [h]
    rfl
  · rw [plain_eq, if_neg h]
    exact (actsOnLines_escape t).countLines_eq

theorem actsOnLines_stripTags_append {e m : Text} (he : '<' ∉ e) (h : ActsOnLines stripTags m) :
    ActsOnLines stripTags (e ++ m) := by
  induction e with
  | nil => exact h
  | cons c e ih =>
    obtain ⟨hc, he'⟩ := not_or.1 (mt List.mem_cons.2 he)
    have hrest := ih he'
    have hstrip (l : Text) : stripTags (c :: l) = c :: stripTags l :=
      stripTags_cons_of_ne (Ne.symm hc) l
    by_cases hfeed : c = '\n'
    · subst hfeed
      exact hrest.lineFeed stripTags_nil hstrip
    · have hsingle : '\n' ∉ [c] := mt List.mem_singleton.1 (Ne.symm hfeed)
      have hcons := hrest.append hsingle hsingle hstrip
      exact hcons

theorem actsOnLines_stripTags_nil : ActsOnLines stripTags [] := by
  rw [ActsOnLines, stripTags_nil, lines_nil, List.map_singleton, stripTags_nil]

theorem actsOnLines_stripTags_of_not_mem {e : Text} (he : '<' ∉ e) : ActsOnLines stripTags e := by
  have happend := actsOnLines_stripTags_append he actsOnLines_stripTags_nil
  rwa [List.append_nil] at happend

theorem lineFeed_not_mem_openTag {c : Text} (hc : '\n' ∉ c) : '\n' ∉ openTag c := by
  have hfront : '\n' ∉ "<span class=\"".toList := by decide
  have hend : '\n' ∉ "\">".toList := by decide
  intro h
  rcases List.mem_append.1 h with h | h
  · exact (List.mem_append.1 h).elim hfront hc
  · exact hend h

/-- A tag is deleted from the line that it is on, whatever else is there. -/
theorem actsOnLines_stripTags {pieces : List Piece} (h : AreApart pieces)
    (hbreaks : ∀ c t, Piece.element c t ∈ pieces → '\n' ∉ c) :
    ActsOnLines stripTags (pieces.flatMap Piece.markup) := by
  have hescaped (t : Text) : '<' ∉ escape t := not_mem_escape (Or.inl rfl) t
  induction h with
  | nil => exact actsOnLines_stripTags_nil
  | @element c t pieces hc _ ih =>
    have hrest := ih fun d u hd => hbreaks d u (List.mem_cons_of_mem _ hd)
    have hopen := lineFeed_not_mem_openTag (hbreaks c t List.mem_cons_self)
    have hclose : '\n' ∉ closeTag := by decide
    have hmarkup : (Piece.element c t :: pieces).flatMap Piece.markup =
        openTag c ++ (escape t ++ (closeTag ++ pieces.flatMap Piece.markup)) := by
      rw [List.flatMap_cons, Piece.markup, List.append_assoc, List.append_assoc]
    -- The tags break no line. What stands between them may, but holds no tag itself.
    have hbehind := hrest.deleted hclose stripTags_closeTag
    have hcontent := actsOnLines_stripTags_append (hescaped t) hbehind
    rw [hmarkup]
    exact hcontent.deleted hopen (stripTags_openTag hc)
  | @text t pieces _ _ _ ih =>
    have hrest := ih fun d u hd => hbreaks d u (List.mem_cons_of_mem _ hd)
    exact actsOnLines_stripTags_append (hescaped t) hrest

theorem exists_style_of_mem_displayed {sheet : StyleSheet} {source c t : Text}
    (h : Piece.element c t ∈ displayed sheet source) : ∃ s, sheet.classOf s = c := by
  have hmem : (c, t) ∈ (displayed sheet source).filterMap Piece.element? :=
    List.mem_filterMap.2 ⟨_, h, rfl⟩
  rw [displayed, elements_joinTexts] at hmem
  obtain ⟨p, hp, hpiece⟩ := List.mem_filterMap.1 hmem
  obtain ⟨o, -, rfl⟩ := List.mem_map.1 hp
  rw [element?_ofOccurrence] at hpiece
  obtain ⟨s, -, hs⟩ := Option.map_eq_some_iff.1 hpiece
  exact ⟨s, (Prod.mk.inj hs).1⟩

theorem actsOnLines_stripTags_ofSource {sheet : StyleSheet} (hsafe : sheet.IsSafe)
    (hbreaks : ∀ s, '\n' ∉ sheet.classOf s) (source : Text) :
    ActsOnLines stripTags (ofSource sheet source) := by
  by_cases h : source = []
  · have hplaceholder : '<' ∉ placeholder := by decide
    rw [h, ofSource_nil]
    exact actsOnLines_stripTags_of_not_mem hplaceholder
  · rw [ofSource_eq_markup sheet h]
    apply actsOnLines_stripTags (areApart_displayed hsafe source)
    intro c t hmem
    obtain ⟨s, rfl⟩ := exists_style_of_mem_displayed hmem
    exact hbreaks s

theorem stripTags_markup {mode : Mode} (hsafe : mode.sheet.IsSafe) (text : Text) :
    stripTags (mode.markup text) = plain text := by
  unfold Mode.markup
  split
  · exact stripTags_ofSource hsafe text
  · exact stripTags_of_not_mem (lt_not_mem_plain text)

theorem actsOnLines_stripTags_markup {mode : Mode} (hsafe : mode.sheet.IsSafe)
    (hbreaks : ∀ s, '\n' ∉ mode.sheet.classOf s) (text : Text) :
    ActsOnLines stripTags (mode.markup text) := by
  unfold Mode.markup
  split
  · exact actsOnLines_stripTags_ofSource hsafe hbreaks text
  · exact actsOnLines_stripTags_of_not_mem (lt_not_mem_plain text)

end Markup

open Markup

/-- Each line of the markup, without its tags and with its entities read, is a line of the text, and
the gutter numbers them from one on. -/
structure Layer.IsAligned (settings : Settings) (text : Text) (layer : Layer) : Prop where
  count_eq : layer.markup.count '\n' = text.count '\n'
  lines_eq : text ≠ [] → ∃ body, layer.markup = body ++ settings.trailing ∧
    body.lines.map (fun l => unescape? (stripTags l)) = text.lines.map some
  numbers_eq : layer.numbers.lines =
    (List.range' 1 text.countLines).map fun n => (toString n).toList
  countLines_numbers : layer.numbers.countLines = text.countLines

theorem Mode.isAligned (mode : Mode) (hsafe : mode.sheet.IsSafe)
    (hbreaks : ∀ s, '\n' ∉ mode.sheet.classOf s) {settings : Settings}
    (htrailing : '\n' ∉ settings.trailing) (text : Text) :
    Layer.IsAligned settings text ⟨mode.markup text ++ settings.trailing, text.gutter⟩ := by
  have hlines := actsOnLines_stripTags_markup hsafe hbreaks text
  have hstrip := stripTags_markup hsafe text
  refine ⟨?_, ?_, Text.lines_gutter text, ?_⟩
  · have hcount : (mode.markup text).countLines = text.countLines := by
      rw [← hlines.countLines_eq, hstrip, countLines_plain]
    rw [List.count_append, List.count_eq_zero.2 htrailing]
    exact Nat.succ.inj hcount
  · intro h
    refine ⟨mode.markup text, rfl, ?_⟩
    calc
      (mode.markup text).lines.map (fun l => unescape? (stripTags l))
        = ((mode.markup text).lines.map stripTags).map unescape? := (List.map_map).symm
      _ = (plain text).lines.map unescape? := by rw [← hlines, hstrip]
      _ = (escape text).lines.map unescape? := by rw [plain_eq, if_neg h]
      _ = text.lines.map some := unescape?_lines_escape text
  · rw [← Text.length_lines, Text.lines_gutter, List.length_map, List.length_range']

variable [Fingerprint]

theorem Painter.isAligned_paintLayer {p : Painter} (hsafe : p.sheet.IsSafe)
    (hbreaks : ∀ s, '\n' ∉ p.sheet.classOf s) {settings : Settings}
    (htrailing : '\n' ∉ settings.trailing) {texts : List Text}
    (hseparates : Fingerprint.Separates texts) (hp : p.Remembers texts) {text : Text}
    (htext : text ∈ texts) : Layer.IsAligned settings text (p.paintLayer settings text).1 := by
  have hlayer : (p.paintLayer settings text).1 =
      ⟨p.mode.markup text ++ settings.trailing, text.gutter⟩ := by
    rw [← markup_paint hseparates hp htext]
    rfl
  rw [hlayer]
  exact p.mode.isAligned hsafe hbreaks htrailing text

/-- Under classes and a trailing text that break no line, every layer of a painter is aligned with its
text: the first one, and those after any run of commands. -/
theorem Painter.run_isAligned (sheet : StyleSheet) (hsafe : sheet.IsSafe)
    (hbreaks : ∀ s, '\n' ∉ sheet.classOf s) (settings : Settings)
    (htrailing : '\n' ∉ settings.trailing) (text : Text) :
    (∀ enabled, Layer.IsAligned settings text
      (({ sheet, enabled } : Painter).paintLayer settings text).1) ∧
    ∀ (first : StyleSheet) (commands : List Command),
      (({ sheet := first } : Painter).run commands).2.sheet = sheet →
      Fingerprint.Separates (text :: commands.filterMap Command.source?) →
      Layer.IsAligned settings text
        ((({ sheet := first } : Painter).run commands).2.paintLayer settings text).1 := by
  constructor
  · intro enabled
    have hp : ({ sheet, enabled } : Painter).Remembers [text] := remembers_of_none rfl [text]
    exact isAligned_paintLayer hsafe hbreaks htrailing (separates_singleton text) hp
      List.mem_cons_self
  · rintro first commands rfl hseparates
    have hcommands := mem_texts_of_source? commands (List.subset_cons_self text _)
    have hfirst : ({ sheet := first } : Painter).Remembers
        (text :: commands.filterMap Command.source?) := remembers_of_none rfl _
    have hp := remembers_run hfirst commands hcommands
    exact isAligned_paintLayer hsafe hbreaks htrailing hseparates hp List.mem_cons_self

end ScriptEditor

namespace ScriptEditor.Painter

/-- Values under two classes. -/
def spaced : StyleSheet := StyleSheet.standard.insert .value "a b".toList

/-- An element reaches over two lines, the first time and after another text was painted. -/
theorem run_isAligned_multiline :
    spaced.IsSafe ∧ (∀ s, '\n' ∉ spaced.classOf s) ∧ '\n' ∉ Settings.standard.trailing ∧
    (({ sheet := spaced } : Painter).paintLayer .standard "s=\"a\n<\"\n".toList).1 =
      ⟨"<span class=\"variable\">s</span>=<span class=\"a b\">\"a\n&lt;\"</span>\n<br>&nbsp;".toList,
        "1\n2\n3".toList⟩ ∧
    Layer.IsAligned .standard "s=\"a\n<\"\n".toList
      (({ sheet := spaced } : Painter).paintLayer .standard "s=\"a\n<\"\n".toList).1 ∧
    Layer.IsAligned .standard "s=\"a\n<\"\n".toList
      ((({ sheet := .standard } : Painter).run [.paint "if".toList, .setSheet spaced]).2.paintLayer
        .standard "s=\"a\n<\"\n".toList).1 := by
  have hsafe : spaced.IsSafe := by
    intro s
    cases s <;> decide
  have hbreaks : ∀ s, '\n' ∉ spaced.classOf s := by
    intro s
    cases s <;> decide
  have htrailing : '\n' ∉ Settings.standard.trailing := by decide
  have haligned := run_isAligned spaced hsafe hbreaks .standard htrailing "s=\"a\n<\"\n".toList
  refine ⟨hsafe, hbreaks, htrailing, by decide +kernel, haligned.1 true, ?_⟩
  exact haligned.2 .standard [.paint "if".toList, .setSheet spaced] rfl (by decide +kernel)

end ScriptEditor.Painter
