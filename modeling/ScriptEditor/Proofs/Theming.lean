import Mathlib.Data.List.Induction
import ScriptEditor.Proofs.Display

namespace ScriptEditor

namespace StyleSheet

variable {sheet : StyleSheet} {edits : List Edit} {s : Style} {c : Text}

/-- The class that the edit has for a style. -/
def Edit.given? (e : Edit) (s : Style) : Option Text :=
  match e with
  | .insert s' c => if s' = s then some c else none
  | .reset => none
  | .load theme => theme s

/-- The edit puts aside all entries that there are. -/
def Edit.dropsAll : Edit → Bool
  | .insert _ _ => false
  | .reset | .load _ => true

/-- The sheet that the edits make of the standard one. -/
def run (edits : List Edit) : StyleSheet := edits.foldl edit standard

/-- One of the edits gave the class to the style, and no edit behind it gave another or put it aside. -/
def IsLatest (edits : List Edit) (s : Style) (c : Text) : Prop :=
  ∃ before e behind, edits = before ++ e :: behind ∧ e.given? s = some c ∧
    ∀ e' ∈ behind, e'.given? s = none ∧ e'.dropsAll = false

theorem run_concat (edits : List Edit) (e : Edit) : run (edits ++ [e]) = (run edits).edit e :=
  List.foldl_concat _ _ _ _

theorem classOf_edit (sheet : StyleSheet) (e : Edit) (s : Style) :
    (sheet.edit e).classOf s =
      (e.given? s).getD (if e.dropsAll then s.ownClass else sheet.classOf s) := by
  cases e with
  | insert s' c =>
    by_cases h : s = s'
    · simp [edit, insert, classOf, Edit.given?, h]
    · simp [edit, insert, classOf, Edit.given?, Edit.dropsAll, h, Ne.symm h]
  | reset => rfl
  | load theme => rfl

theorem not_isLatest_nil : ¬ IsLatest [] s c := by
  rintro ⟨before, e, behind, hnil, -⟩
  simp at hnil

theorem isLatest_concat_iff {e : Edit} : IsLatest (edits ++ [e]) s c ↔
    e.given? s = some c ∨ (e.given? s = none ∧ e.dropsAll = false ∧ IsLatest edits s c) := by
  constructor
  · rintro ⟨before, e', behind, hsplit, hgiven, hbehind⟩
    -- The edit that counts is the last one, or it stands in front of it.
    rcases List.eq_nil_or_concat' behind with rfl | ⟨behind, last, rfl⟩
    · cases (List.append_inj' hsplit rfl).2
      exact .inl hgiven
    · rw [← List.cons_append, ← List.append_assoc] at hsplit
      obtain ⟨rfl, hlast⟩ := List.append_inj' hsplit rfl
      cases hlast
      obtain ⟨hnone, hkeeps⟩ := hbehind e List.mem_concat_self
      refine .inr ⟨hnone, hkeeps, before, e', behind, rfl, hgiven, ?_⟩
      intro x hx
      exact hbehind x (List.mem_append_left _ hx)
  · rintro (hgiven | ⟨hnone, hkeeps, before, e', behind, rfl, hgiven, hbehind⟩)
    · exact ⟨edits, e, [], rfl, hgiven, by simp⟩
    · refine ⟨before, e', behind ++ [e], by simp, hgiven, ?_⟩
      intro x hx
      rcases List.mem_append.1 hx with hx | hx
      · exact hbehind x hx
      · rw [List.mem_singleton.1 hx]
        exact ⟨hnone, hkeeps⟩

theorem classOf_run_eq_iff : (run edits).classOf s = c ↔
    IsLatest edits s c ∨ (c = s.ownClass ∧ ∀ d, ¬ IsLatest edits s d) := by
  -- From the end on: the last edit decides, unless it has nothing for the style and drops nothing.
  induction edits using List.reverseRecOn with
  | nil =>
    simp only [not_isLatest_nil, not_false_eq_true, implies_true, and_true, false_or]
    exact eq_comm
  | append_singleton edits e ih =>
    rw [run_concat, classOf_edit]
    simp only [isLatest_concat_iff]
    cases hgiven : e.given? s with
    | some d => simp
    | none =>
      cases hdrops : e.dropsAll with
      | false => simpa using ih
      | true => simp [eq_comm]

/-- A theme gives its classes one after another. -/
def insertions (theme : Theme) : List Edit := Style.all.filterMap fun s => (theme s).map (.insert s)

theorem foldl_insertions (theme : Theme) (styles : List Style) (sheet : StyleSheet) :
    (styles.filterMap fun s => (theme s).map (Edit.insert s)).foldl edit sheet =
      ⟨fun s => if s ∈ styles then (theme s).or (sheet.entries s) else sheet.entries s⟩ := by
  -- Each class changes the sheet that the others are inserted into, so the sheet is any.
  induction styles generalizing sheet with
  | nil => simp
  | cons s styles ih =>
    rw [List.filterMap_cons]
    cases hs : theme s with
    | none =>
      rw [Option.map_none, ih]
      congr
      funext s'
      by_cases h : s' = s
      · simp [h, hs]
      · simp [h]
    | some c =>
      rw [Option.map_some, List.foldl_cons, ih]
      congr
      funext s'
      by_cases h : s' = s
      · simp [h, hs, edit, insert]
      · simp [h, edit, insert]

theorem run_insertions (theme : Theme) : run (insertions theme) = standard.override theme := by
  rw [run, insertions, foldl_insertions, override]
  congr
  funext s
  exact if_pos (by cases s <;> decide)

end StyleSheet

namespace Markup

/-- The texts of the tokens of a script, each with its style if it has one. -/
def styledTexts (source : Text) : List (Option Style × Text) :=
  (places source).map fun o => (o.style? (namesOf source), o.token.text)

/-- What the sheet makes of a text with its style. -/
def dressed (sheet : StyleSheet) (x : Option Style × Text) : Text :=
  match x.1 with
  | some s => openTag (sheet.classOf s) ++ escape x.2 ++ closeTag
  | none => escape x.2

/-- A sheet comes in only where styled texts are dressed. -/
theorem ofSource_eq_dressed (sheet : StyleSheet) (source : Text) :
    ofSource sheet source = orPlaceholder ((styledTexts source).flatMap (dressed sheet)) := by
  rw [styledTexts, List.flatMap_map]
  rfl

theorem ofSource_congr {a b : StyleSheet} (h : ∀ s, a.classOf s = b.classOf s) (source : Text) :
    ofSource a source = ofSource b source := by
  have hdressed : dressed a = dressed b := by
    funext x
    simp only [dressed, h]
  rw [ofSource_eq_dressed, ofSource_eq_dressed, hdressed]

variable {a b : StyleSheet} {source : Text} {s : Style}

theorem orPlaceholder_of_ne_nil {t : Text} (h : t ≠ []) : orPlaceholder t = t :=
  if_neg (mt List.isEmpty_iff.1 h)

theorem flatMap_dressed_ne_nil (sheet : StyleSheet) (front behind : List (Option Style × Text))
    (s : Style) (w : Text) : (front ++ (some s, w) :: behind).flatMap (dressed sheet) ≠ [] := by
  have hclose : closeTag ≠ [] := by decide
  rw [List.flatMap_append, List.flatMap_cons]
  apply List.append_ne_nil_of_right_ne_nil
  apply List.append_ne_nil_of_left_ne_nil
  exact List.append_ne_nil_of_right_ne_nil _ hclose

theorem openTag_inj {c d : Text} (h : openTag c = openTag d) : c = d := by
  unfold openTag at h
  exact List.append_cancel_left (List.append_cancel_right h)

/-- A styled text between others that both sheets dress alike tells their classes apart. -/
theorem classOf_eq_of_ofSource_eq (front behind : List (Option Style × Text)) (w : Text)
    (hcut : styledTexts source = front ++ (some s, w) :: behind)
    (hfront : ∀ x ∈ front, dressed a x = dressed b x)
    (hbehind : ∀ x ∈ behind, dressed a x = dressed b x) (h : ofSource a source = ofSource b source) :
    a.classOf s = b.classOf s := by
  rw [ofSource_eq_dressed, ofSource_eq_dressed, hcut,
    orPlaceholder_of_ne_nil (flatMap_dressed_ne_nil a front behind s w),
    orPlaceholder_of_ne_nil (flatMap_dressed_ne_nil b front behind s w), List.flatMap_append, List.flatMap_append,
    List.flatMap_congr hfront, List.append_right_inj, List.flatMap_cons, List.flatMap_cons,
    List.flatMap_congr hbehind, List.append_left_inj] at h
  have helement : openTag (a.classOf s) ++ escape w ++ closeTag =
      openTag (b.classOf s) ++ escape w ++ closeTag := h
  exact openTag_inj (List.append_cancel_right (List.append_cancel_right helement))

theorem classOf_eq_of_forall (h : ∀ source, ofSource a source = ofSource b source) (s : Style) :
    a.classOf s = b.classOf s := by
  have hfunction : a.classOf .function = b.classOf .function :=
    classOf_eq_of_ofSource_eq [] [(none, ['('])] ['f'] (by decide +kernel) (by simp)
      (by simp [dressed]) (h "f(".toList)
  match s with
  | .comment =>
    exact classOf_eq_of_ofSource_eq [] [] "//".toList (by decide +kernel) (by simp) (by simp)
      (h "//".toList)
  | .value =>
    exact classOf_eq_of_ofSource_eq [] [] ['0'] (by decide +kernel) (by simp) (by simp) (h ['0'])
  | .keyword =>
    exact classOf_eq_of_ofSource_eq [] [] "if".toList (by decide +kernel) (by simp) (by simp)
      (h "if".toList)
  | .function => exact hfunction
  | .variable =>
    exact classOf_eq_of_ofSource_eq [] [(none, ['='])] ['x'] (by decide +kernel) (by simp)
      (by simp [dressed]) (h "x=".toList)
  | .param =>
    -- A parameter only stands behind a function, whose class is known by now.
    exact classOf_eq_of_ofSource_eq [(some .function, ['f']), (none, ['('])] [(none, [')'])] ['a']
      (by decide +kernel) (by simp [dressed, hfunction]) (by simp [dressed]) (h "f(a)".toList)

end Markup

namespace StyleSheet

theorem classOf_override (theme : Theme) (s : Style) :
    (standard.override theme).classOf s = (⟨theme⟩ : StyleSheet).classOf s := by
  simp only [classOf, override, standard]
  cases theme s <;> rfl

theorem eq_override_iff (theme : Theme) :
    ⟨theme⟩ = standard.override theme ↔ ∀ s, (theme s).isSome := by
  have hentries (s : Style) : theme s = (theme s).or (some s.ownClass) ↔ (theme s).isSome := by
    cases theme s <;> simp
  rw [override, StyleSheet.mk.injEq, funext_iff]
  exact forall_congr' hentries

/-- However a sheet was edited, it shows each style under the class given last, or else its own name.
Two sheets write the same markup for all scripts exactly if they show all styles alike. -/
theorem run_showsLatest :
    (∀ (edits : List Edit) (s : Style) (c : Text), (run edits).classOf s = c ↔
      IsLatest edits s c ∨ (c = s.ownClass ∧ ∀ d, ¬ IsLatest edits s d)) ∧
    (∀ a b : StyleSheet, b.edit (.load a.entries) = a) ∧
    (∀ a b : StyleSheet, (∀ s, a.classOf s = b.classOf s) ↔
      ∀ source, Markup.ofSource a source = Markup.ofSource b source) ∧
    ∀ theme : Theme,
      (∀ source, Markup.ofSource (run [.load theme]) source =
        Markup.ofSource (run (insertions theme)) source) ∧
      (run [.load theme] = run (insertions theme) ↔ ∀ s, (theme s).isSome) := by
  refine ⟨fun edits s c => classOf_run_eq_iff, fun a b => rfl, ?_, ?_⟩
  · intro a b
    exact ⟨Markup.ofSource_congr, Markup.classOf_eq_of_forall⟩
  · intro theme
    rw [run_insertions]
    refine ⟨?_, eq_override_iff theme⟩
    exact Markup.ofSource_congr fun s => (classOf_override theme s).symm

example : run [.load fun s => if s = .param then some "arg".toList else none] ≠
    run [.insert .param "arg".toList] := by decide

end StyleSheet

end ScriptEditor
