import ScriptEditor.Proofs.Reading

namespace ScriptEditor

/-- No class of the sheet can end the attribute or the tag that it stands in. -/
def StyleSheet.IsSafe (sheet : StyleSheet) : Prop :=
  ∀ s, '"' ∉ sheet.classOf s ∧ '<' ∉ sheet.classOf s ∧ '>' ∉ sheet.classOf s

namespace Markup

/-- Escaped text and elements in a row, none inside another, and no element empty. -/
inductive IsFlat (sheet : StyleSheet) : Text → Prop
  | nil : IsFlat sheet []
  | text {e m : Text} : IsEscaped e → IsFlat sheet m → IsFlat sheet (e ++ m)
  | element {s : Style} {e m : Text} : IsEscaped e → e ≠ [] → IsFlat sheet m →
      IsFlat sheet (openTag (sheet.classOf s) ++ e ++ closeTag ++ m)

theorem isFlat_flatMap_element (sheet : StyleSheet) (names : Names) {places : List Occurrence}
    (h : ∀ o ∈ places, o.token.text ≠ []) : IsFlat sheet (places.flatMap (element sheet names)) := by
  induction places with
  | nil => exact .nil
  | cons o places ih =>
    have hrest := ih fun o' ho' => h o' (List.mem_cons_of_mem o ho')
    have ho : o.token.text ≠ [] := h o List.mem_cons_self
    rw [List.flatMap_cons, element]
    cases o.style? names with
    | none => exact .text (isEscaped_escape _) hrest
    | some s => exact .element (isEscaped_escape _) (mt escape_eq_nil.1 ho) hrest

/-- The occurrence as an element, with its class and its text, if it has a style. -/
def styled? (sheet : StyleSheet) (names : Names) (o : Occurrence) : Option (Text × Text) :=
  (o.style? names).map fun s => (sheet.classOf s, o.token.text)

/-- The places of a script, with the uses of its names. -/
def places (source : Text) : List Occurrence := occurrences (lex source)

def namesOf (source : Text) : Names := Names.ofTokens source (lex source)

/-- What the sheet shows of a script. -/
def displayed (sheet : StyleSheet) (source : Text) : List Piece :=
  joinTexts ((places source).map (Piece.ofOccurrence sheet (namesOf source)))

theorem element?_ofOccurrence (sheet : StyleSheet) (names : Names) (o : Occurrence) :
    (Piece.ofOccurrence sheet names o).element? = styled? sheet names o := by
  unfold Piece.ofOccurrence styled?
  cases o.style? names <;> rfl

theorem content_ofOccurrence (sheet : StyleSheet) (names : Names) (o : Occurrence) :
    (Piece.ofOccurrence sheet names o).content = o.token.text := by
  unfold Piece.ofOccurrence
  cases o.style? names <;> rfl

theorem text_ne_nil_of_mem_places {source : Text} {o : Occurrence} (h : o ∈ places source) :
    o.token.text ≠ [] := by
  have hmem : o.token ∈ (occurrences (lex source)).map Occurrence.token := List.mem_map_of_mem h
  rw [map_token_occurrences] at hmem
  exact text_ne_nil_of_mem_lexAt hmem

theorem content_displayed (sheet : StyleSheet) (source : Text) :
    (displayed sheet source).flatMap Piece.content = source := by
  have hjoin (t u : Text) : (Piece.text (t ++ u)).content =
      (Piece.text t).content ++ (Piece.text u).content := rfl
  have htokens := map_token_occurrences (lex source)
  calc (displayed sheet source).flatMap Piece.content
      = (places source).flatMap fun o => o.token.text := by
        rw [displayed, flatMap_joinTexts hjoin, List.flatMap_map]
        simp only [content_ofOccurrence]
    _ = (lex source).flatMap Token.text := by
        rw [← htokens, List.flatMap_map]
        rfl
    _ = source := flatMap_text_lexAt 0 source

theorem markup_displayed (sheet : StyleSheet) (source : Text) :
    (displayed sheet source).flatMap Piece.markup =
      (places source).flatMap (element sheet (namesOf source)) := by
  rw [displayed, flatMap_joinTexts escape_append, List.flatMap_map]
  simp only [markup_ofOccurrence]

theorem areApart_displayed {sheet : StyleSheet} (h : sheet.IsSafe) (source : Text) :
    AreApart (displayed sheet source) := by
  apply areApart_joinTexts
  · intro p hp
    obtain ⟨o, ho, rfl⟩ := List.mem_map.1 hp
    rw [content_ofOccurrence]
    exact text_ne_nil_of_mem_places ho
  · intro c t hp hquote
    obtain ⟨o, -, ho⟩ := List.mem_map.1 hp
    unfold Piece.ofOccurrence at ho
    cases hs : o.style? (namesOf source) with
    | none => simp [hs] at ho
    | some s =>
      rw [hs] at ho
      obtain ⟨rfl, -⟩ := Piece.element.inj ho
      exact (h s).1 hquote

theorem element_ne_nil (sheet : StyleSheet) (names : Names) {o : Occurrence}
    (h : o.token.text ≠ []) : element sheet names o ≠ [] := by
  unfold element
  cases o.style? names with
  | none => exact mt escape_eq_nil.1 h
  | some s =>
    have hclose : closeTag ≠ [] := by decide
    exact List.append_ne_nil_of_right_ne_nil _ hclose

/-- The markup of a script that is not empty is what its pieces look like. -/
theorem ofSource_eq_markup (sheet : StyleSheet) {source : Text} (h : source ≠ []) :
    ofSource sheet source = (displayed sheet source).flatMap Piece.markup := by
  have hne : (places source).flatMap (element sheet (namesOf source)) ≠ [] := by
    intro hnil
    rw [List.flatMap_eq_nil_iff] at hnil
    have hplaces : places source = [] := by
      rw [List.eq_nil_iff_forall_not_mem]
      intro o ho
      exact element_ne_nil _ _ (text_ne_nil_of_mem_places ho) (hnil o ho)
    have hcontent := content_displayed sheet source
    rw [displayed, hplaces] at hcontent
    exact h hcontent.symm
  rw [markup_displayed]
  change orPlaceholder ((places source).flatMap (element sheet (namesOf source))) = _
  rw [orPlaceholder, if_neg fun hempty => hne (List.isEmpty_iff.1 hempty)]

theorem read?_ofSource {sheet : StyleSheet} (hsafe : sheet.IsSafe) {source : Text}
    (h : source ≠ []) : read? (ofSource sheet source) = some (displayed sheet source) := by
  rw [ofSource_eq_markup sheet h]
  exact read?_flatMap_markup (areApart_displayed hsafe source)

theorem ofSource_nil (sheet : StyleSheet) : ofSource sheet [] = placeholder := by
  unfold ofSource lex
  rw [lexAt_nil]
  rfl

/-- The ampersand of the placeholder begins none of the three entities. -/
theorem read?_placeholder : read? placeholder = none := by
  have hfront : placeholder = '&' :: "nbsp;".toList := rfl
  have hrun : "nbsp;".toList.takeWhile (· != '<') = "nbsp;".toList := by decide
  have hunescape : unescape? ('&' :: "nbsp;".toList) = none := by decide
  rw [hfront, read?, if_neg (by decide), hrun, hunescape]
  rfl

theorem ofSource_eq_placeholder_iff {sheet : StyleSheet} (hsafe : sheet.IsSafe) (source : Text) :
    ofSource sheet source = placeholder ↔ source = [] := by
  constructor
  · intro h
    by_contra hne
    have hread := read?_ofSource hsafe hne
    rw [h, read?_placeholder] at hread
    cases hread
  · intro h
    rw [h]
    exact ofSource_nil sheet

theorem ofSource_injective {sheet : StyleSheet} (hsafe : sheet.IsSafe) :
    Function.Injective (ofSource sheet) := by
  intro a b h
  by_cases ha : a = []
  · rw [ha, ofSource_nil] at h
    rw [ha, (ofSource_eq_placeholder_iff hsafe b).1 h.symm]
  · by_cases hb : b = []
    · rw [hb, ofSource_nil] at h
      exact absurd ((ofSource_eq_placeholder_iff hsafe a).1 h) ha
    · have hread := read?_ofSource hsafe ha
      rw [h, read?_ofSource hsafe hb] at hread
      rw [← content_displayed sheet a, ← content_displayed sheet b, Option.some.inj hread]

/-- Markup under safe classes is flat and reads back as the pieces of the script, so it tells the
script, and the placeholder is kept for the empty one. -/
theorem ofSource_reads_back (sheet : StyleSheet) (hsafe : sheet.IsSafe) :
    (∀ source ≠ [], IsFlat sheet (ofSource sheet source) ∧
      read? (ofSource sheet source) = some (displayed sheet source) ∧
      (displayed sheet source).filterMap Piece.element? =
        (places source).filterMap (styled? sheet (namesOf source)) ∧
      (displayed sheet source).flatMap Piece.content = source) ∧
    Function.Injective (ofSource sheet) ∧
    ∀ source, ofSource sheet source = placeholder ↔ source = [] := by
  refine ⟨?_, ofSource_injective hsafe, ofSource_eq_placeholder_iff hsafe⟩
  intro source h
  refine ⟨?_, read?_ofSource hsafe h, ?_, content_displayed sheet source⟩
  · rw [ofSource_eq_markup sheet h, markup_displayed]
    exact isFlat_flatMap_element sheet _ fun o ho => text_ne_nil_of_mem_places ho
  · rw [displayed, elements_joinTexts, List.filterMap_map]
    congr 1
    funext o
    exact element?_ofOccurrence sheet _ o

/-- Tags and entities in the text of a script are read back as the text that they are. -/
theorem ofSource_reads_back_tags :
    (StyleSheet.standard.insert .value "a&b".toList).IsSafe ∧
    "f(\"</span>\") &nbsp;".toList ≠ [] ∧
    read? (ofSource (StyleSheet.standard.insert .value "a&b".toList)
        "f(\"</span>\") &nbsp;".toList) =
      some [.element "function".toList "f".toList, .text "(".toList,
        .element "a&b".toList "\"</span>\"".toList, .text ") &nbsp;".toList] := by
  have hsafe : (StyleSheet.standard.insert .value "a&b".toList).IsSafe := by
    intro s
    cases s <;> decide
  have hne : "f(\"</span>\") &nbsp;".toList ≠ [] := by decide
  refine ⟨hsafe, hne, ?_⟩
  rw [((ofSource_reads_back _ hsafe).1 _ hne).2.1]
  decide +kernel

end Markup

end ScriptEditor
