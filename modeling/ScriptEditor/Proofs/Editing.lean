import ScriptEditor.Page.History
import ScriptEditor.Proofs.Painting
import ScriptEditor.Proofs.Splicing

namespace ScriptEditor

namespace Text

theorem isBoundary_floorBoundary (t : Text) (offset : Nat) : t.isBoundary (t.floorBoundary offset) :=
  isBoundary_iff.2 ⟨_, _, (takeBytes_append_dropBytes offset t).symm, rfl⟩

theorem exists_slice? {t : Text} {start stop : Nat} (hle : start ≤ stop) (hstart : t.isBoundary start)
    (hstop : t.isBoundary stop) : ∃ s, t.slice? start stop = some s := by
  have hcuts : (start ≤ stop && t.isBoundary start && t.isBoundary stop) = true := by
    rw [hstart, hstop, decide_eq_true hle]
    rfl
  exact ⟨_, if_pos hcuts⟩

end Text

namespace Selection

/-- The selection is a part of the text, cut out between characters. -/
def IsIn (s : Selection) (t : Text) : Prop := ∃ inside, t.slice? s.start s.stop = some inside

theorem isIn_caret (p q : Text) : (caret p.byteLength).IsIn (p ++ q) := by
  have h := Scan.slice?_middle p [] q
  rw [List.append_nil, Text.byteLength_nil, Nat.add_zero] at h
  exact ⟨[], h⟩

theorem isIn_between (t : Text) (a b : Nat) : (between t a b).IsIn t := by
  have ha := t.isBoundary_floorBoundary a
  have hb := t.isBoundary_floorBoundary b
  simp only [IsIn, between]
  rcases Nat.le_total (t.floorBoundary a) (t.floorBoundary b) with h | h
  · rw [Nat.min_eq_left h, Nat.max_eq_right h]
    exact Text.exists_slice? h ha hb
  · rw [Nat.min_eq_right h, Nat.max_eq_left h]
    exact Text.exists_slice? h hb ha

theorem IsIn.exists_parts {s : Selection} {t : Text} (h : s.IsIn t) :
    ∃ front inside behind : Text, t = front ++ inside ++ behind ∧
      s = ⟨front.byteLength, front.byteLength + inside.byteLength⟩ := by
  obtain ⟨inside, hinside⟩ := h
  obtain ⟨front, behind, ht, hstart, hstop⟩ := Text.slice?_eq_some_iff.1 hinside
  refine ⟨front, inside, behind, ht, ?_⟩
  rw [hstart, hstop]

end Selection

namespace Change

theorem describes_ofInput (old new : Text) : (ofInput old new).Describes old new := by
  obtain ⟨p, x, y, q, h⟩ := exists_isTightSplit old new
  rw [ofInput_eq_ofSplit h]
  exact describes_ofSplit h

theorem describes_ofClear (old : Text) : (ofClear old).Describes old [] := by
  have h : (ofClear old).Describes ([] ++ old ++ []) ([] ++ [] ++ []) := by
    apply describes_of_parts
    · rfl
    · exact (Nat.zero_add _).symm
    · rfl
    · rw [List.nil_append, List.append_nil]
      rfl
  rwa [List.nil_append, List.append_nil] at h

theorem addedLines_parts (p x y q : Text) :
    Text.addedLines (p ++ x ++ q) (p ++ y ++ q) = Text.addedLines x y := by
  simp only [Text.addedLines, Text.countLines, List.count_append]
  omega

/-- What a tab reports where it replaces a part of the text by spaces. -/
def ofSpaces (front removed : Text) (width : Nat) : Change where
  start := front.byteLength
  stop := front.byteLength + removed.byteLength
  inserted := Text.byteLength (List.replicate width ' ')
  lines := Text.addedLines removed []
  cause := .tab

/-- A tab takes away the lines of the part that it replaces, and adds none. -/
theorem describes_ofSpaces (front removed behind : Text) (width : Nat) :
    (ofSpaces front removed width).Describes (front ++ removed ++ behind)
      (front ++ List.replicate width ' ' ++ behind) := by
  have hspaces : Text.countLines (List.replicate width ' ') = Text.countLines [] := by
    simp [Text.countLines, List.count_replicate]
  apply describes_of_parts front removed (List.replicate width ' ') behind rfl rfl rfl
  rw [addedLines_parts, Text.addedLines, hspaces]
  rfl

theorem ofTab?_middle (front removed behind : Text) (width : Nat) :
    ofTab? (front ++ removed ++ behind) front.byteLength (front.byteLength + removed.byteLength)
      (List.replicate width ' ') = some (ofSpaces front removed width) := by
  rw [ofTab?, Scan.slice?_middle]
  rfl

end Change

/-- The text after an edit is what its event makes of the text before it. A tab puts its spaces in the
place of the part that the change names. -/
def Edit.Performs (tabWidth : Nat) (e : Edit) : Prop :=
  match e.event with
  | .input text => e.after = text
  | .tab => ∃ front removed behind : Text, e.before = front ++ removed ++ behind ∧
      e.after = front ++ List.replicate tabWidth ' ' ++ behind ∧
      e.change.start = front.byteLength ∧ e.change.stop = front.byteLength + removed.byteLength
  | .clear => e.after = []
  | .select _ _ | .scroll _ | .save => False

variable [Fingerprint]

namespace Page

variable {p q : Page}

/-- The page when its painter painted the text. -/
def showing (p : Page) (text : Text) : Page :=
  let (layer, painter) := p.painter.paintLayer p.settings text
  { p with painter, text, layer, unsaved := true }

theorem display?_eq (p : Page) (text : Text) :
    p.display? text = (p.painter.paint? text).map fun _ => p.showing text := by
  rw [display?, Painter.paintLayer?, Option.map_map]
  cases hpaint : p.painter.paint? text with
  | none => rfl
  | some r =>
    rw [Painter.eq_paint_of_paint? hpaint]
    rfl

/-- The page behind a tab that replaces the part between `front` and `behind`. -/
def afterTab (p : Page) (front behind : Text) : Page :=
  let typed := front ++ List.replicate p.settings.tabWidth ' '
  { p.showing (typed ++ behind) with selection := .caret typed.byteLength }

theorem tab?_of_parts (hfits : p.settings.tabWidth ≤ Settings.maxBytes) {front removed behind : Text}
    (htext : p.text = front ++ removed ++ behind)
    (hselection : p.selection = ⟨front.byteLength, front.byteLength + removed.byteLength⟩) :
    p.tab? = (p.painter.paint? (front ++ List.replicate p.settings.tabWidth ' ' ++ behind)).map
      fun _ => (.ofSpaces front removed p.settings.tabWidth, p.afterTab front behind) := by
  have hcaret : front.byteLength + Text.byteLength (List.replicate p.settings.tabWidth ' ') =
      (front ++ List.replicate p.settings.tabWidth ' ').byteLength :=
    (Text.byteLength_append _ _).symm
  simp only [tab?, Settings.tabText?, if_pos hfits, hselection, htext, Change.ofTab?_middle,
    Text.splice?_middle, Option.bind_eq_bind, Option.bind_some, hcaret, display?_eq, Option.bind_map]
  cases p.painter.paint? (front ++ List.replicate p.settings.tabWidth ' ' ++ behind) <;> rfl

theorem tab?_of_wide (hwide : Settings.maxBytes < p.settings.tabWidth) : p.tab? = none := by
  rw [tab?, Settings.tabText?, if_neg (Nat.not_le.2 hwide)]
  rfl

theorem isIn_of_tab? {r : Change × Page} (h : p.tab? = some r) : p.selection.IsIn p.text := by
  simp only [tab?, Option.bind_eq_bind, Option.bind_eq_some_iff] at h
  obtain ⟨tab, -, c, hc, -⟩ := h
  obtain ⟨inside, hinside, -⟩ := Option.map_eq_some_iff.1 hc
  exact ⟨inside, hinside⟩

/-- A tab that succeeds replaces the selected part. -/
theorem exists_of_tab? {c : Change} (h : p.tab? = some (c, q)) :
    ∃ front removed behind : Text, p.text = front ++ removed ++ behind ∧
      p.selection = ⟨front.byteLength, front.byteLength + removed.byteLength⟩ ∧
      c = .ofSpaces front removed p.settings.tabWidth ∧ q = p.afterTab front behind := by
  obtain ⟨front, removed, behind, htext, hselection⟩ := (isIn_of_tab? h).exists_parts
  rcases Nat.lt_or_ge Settings.maxBytes p.settings.tabWidth with hwide | hfits
  · rw [tab?_of_wide hwide] at h
    cases h
  · rw [tab?_of_parts hfits htext hselection] at h
    obtain ⟨_, -, heq⟩ := Option.map_eq_some_iff.1 h
    cases heq
    exact ⟨front, removed, behind, htext, hselection, rfl, rfl⟩

/-- The text that an event puts on the page, if it is one that touches the text. -/
def aim? (p : Page) : Event → Option Text
  | .input text => some text
  | .tab => p.settings.tabText?.bind (p.text.splice? p.selection.start p.selection.stop)
  | .clear => some []
  | .select _ _ | .scroll _ | .save => none

/-- Why a page cannot handle an event: a tab does not fit into memory, or the text that is to be shown
takes a pass of which the number is zero in 32 bits. -/
def Blocks (p : Page) (event : Event) : Prop :=
  event = .tab ∧ Settings.maxBytes < p.settings.tabWidth ∨
    ∃ text ∈ p.aim? event, p.painter.Misses text ∧
      (p.painter.counts.passes + 1) % Duration.countLimit = 0

omit [Fingerprint] in
theorem aim?_tab_of_parts (hfits : p.settings.tabWidth ≤ Settings.maxBytes)
    {front removed behind : Text} (htext : p.text = front ++ removed ++ behind)
    (hselection : p.selection = ⟨front.byteLength, front.byteLength + removed.byteLength⟩) :
    p.aim? .tab = some (front ++ List.replicate p.settings.tabWidth ' ' ++ behind) := by
  rw [aim?, Settings.tabText?, if_pos hfits, htext, hselection]
  exact Text.splice?_middle _ _ _ _

theorem tab?_eq_none_iff (hselected : p.selection.IsIn p.text) : p.tab? = none ↔ p.Blocks .tab := by
  obtain ⟨front, removed, behind, htext, hselection⟩ := hselected.exists_parts
  rcases Nat.lt_or_ge Settings.maxBytes p.settings.tabWidth with hwide | hfits
  · exact iff_of_true (tab?_of_wide hwide) (.inl ⟨rfl, hwide⟩)
  · have hnot : ¬ Settings.maxBytes < p.settings.tabWidth := Nat.not_lt.2 hfits
    rw [tab?_of_parts hfits htext hselection, Option.map_eq_none_iff, Painter.paint?_eq_none_iff, Blocks,
      aim?_tab_of_parts hfits htext hselection]
    simp [hnot]

/-- The page `q` comes from `p` by painting the text that `q` shows. -/
structure Repaints (p q : Page) : Prop where
  settings_eq : q.settings = p.settings
  painter_eq : q.painter = (p.painter.paintLayer p.settings q.text).2
  layer_eq : q.layer = (p.painter.paintLayer p.settings q.text).1

/-- The page `q` differs from `p` at most in selection, scroll offsets and the unsaved mark. -/
structure Keeps (p q : Page) : Prop where
  settings_eq : q.settings = p.settings
  painter_eq : q.painter = p.painter
  text_eq : q.text = p.text
  layer_eq : q.layer = p.layer

/-- An edit reports a change that describes it, and paints the text; no other event does either. -/
inductive Handles (p : Page) (event : Event) : Option Change × Page → Prop
  | edits (c : Change) (q : Page) (hedit : event.isEdit)
      (hperforms : Edit.Performs p.settings.tabWidth ⟨event, p.text, q.text, c⟩)
      (hdescribes : c.Describes p.text q.text) (hrepaints : p.Repaints q) : Handles p event (some c, q)
  | keeps (q : Page) (hedit : event.isEdit = false) (hkeeps : p.Keeps q) : Handles p event (none, q)

theorem of_handle?_input {text : Text} {change? : Option Change}
    (h : p.handle? (.input text) = some (change?, q)) :
    change? = some (.ofInput p.text text) ∧
      q = (p.showing text).select p.selection.start p.selection.stop := by
  rw [handle?, input?, display?_eq] at h
  simp only [Option.map_map, Option.map_eq_some_iff] at h
  obtain ⟨_, -, heq⟩ := h
  cases heq
  exact ⟨rfl, rfl⟩

theorem of_handle?_clear {change? : Option Change} (h : p.handle? .clear = some (change?, q)) :
    change? = some (.ofClear p.text) ∧ q = { p.showing [] with
      selection := {}, editorScroll := {}, layerScroll := {}, gutterScroll := {} } := by
  rw [handle?, clear?, display?_eq] at h
  simp only [Option.map_map, Option.map_eq_some_iff] at h
  obtain ⟨_, -, heq⟩ := h
  cases heq
  exact ⟨rfl, rfl⟩

theorem exists_of_handle?_tab {change? : Option Change} (h : p.handle? .tab = some (change?, q)) :
    ∃ front removed behind : Text, p.text = front ++ removed ++ behind ∧
      p.selection = ⟨front.byteLength, front.byteLength + removed.byteLength⟩ ∧
      change? = some (.ofSpaces front removed p.settings.tabWidth) ∧ q = p.afterTab front behind := by
  obtain ⟨⟨c, q'⟩, htab, heq⟩ := Option.map_eq_some_iff.1 h
  cases heq
  obtain ⟨front, removed, behind, htext, hselection, rfl, rfl⟩ := exists_of_tab? htab
  exact ⟨front, removed, behind, htext, hselection, rfl, rfl⟩

theorem handles_of_handle? {event : Event} {change? : Option Change}
    (h : p.handle? event = some (change?, q)) : p.Handles event (change?, q) := by
  cases event with
  | input text =>
    obtain ⟨rfl, rfl⟩ := of_handle?_input h
    exact .edits _ _ rfl rfl (Change.describes_ofInput p.text text) ⟨rfl, rfl, rfl⟩
  | select a b =>
    cases h
    exact .keeps _ rfl ⟨rfl, rfl, rfl, rfl⟩
  | tab =>
    -- That the tab went through says that the selection was a part of the text.
    obtain ⟨front, removed, behind, htext, -, rfl, rfl⟩ := exists_of_handle?_tab h
    refine .edits _ _ rfl ⟨front, removed, behind, htext, rfl, rfl, rfl⟩ ?_ ⟨rfl, rfl, rfl⟩
    rw [htext]
    exact Change.describes_ofSpaces front removed behind _
  | clear =>
    obtain ⟨rfl, rfl⟩ := of_handle?_clear h
    exact .edits _ _ rfl rfl (Change.describes_ofClear p.text) ⟨rfl, rfl, rfl⟩
  | scroll offset =>
    cases h
    exact .keeps _ rfl ⟨rfl, rfl, rfl, rfl⟩
  | save =>
    cases h
    exact .keeps _ rfl ⟨rfl, rfl, rfl, rfl⟩

theorem isIn_of_handle? {event : Event} {change? : Option Change}
    (hselected : p.selection.IsIn p.text) (h : p.handle? event = some (change?, q)) :
    q.selection.IsIn q.text := by
  cases event with
  | input text =>
    obtain ⟨-, rfl⟩ := of_handle?_input h
    exact Selection.isIn_between text _ _
  | select a b =>
    cases h
    exact Selection.isIn_between p.text a b
  | tab =>
    obtain ⟨front, removed, behind, -, -, -, rfl⟩ := exists_of_handle?_tab h
    -- The caret stands right behind the spaces, in front of what was not selected.
    exact Selection.isIn_caret (front ++ List.replicate p.settings.tabWidth ' ') behind
  | clear =>
    obtain ⟨-, rfl⟩ := of_handle?_clear h
    exact Selection.isIn_caret [] []
  | scroll offset =>
    cases h
    exact hselected
  | save =>
    cases h
    exact hselected

theorem handle?_eq_none_iff {event : Event} (hselected : p.selection.IsIn p.text) :
    p.handle? event = none ↔ p.Blocks event := by
  cases event with
  | tab => rw [handle?, Option.map_eq_none_iff, tab?_eq_none_iff hselected]
  | input text => simp [handle?, input?, display?_eq, Painter.paint?_eq_none_iff, Blocks, aim?]
  | clear => simp [handle?, clear?, display?_eq, Painter.paint?_eq_none_iff, Blocks, aim?]
  | _ => simp [handle?, Blocks, aim?]

/-- An event goes through if a tab fits into memory and one pass more can be counted. -/
theorem exists_handle? {event : Event} (hselected : p.selection.IsIn p.text)
    (hfits : event = .tab → p.settings.tabWidth ≤ Settings.maxBytes)
    (hfew : p.painter.enabled → event.isEdit → p.painter.counts.passes + 1 < Duration.countLimit) :
    ∃ change? q, p.handle? event = some (change?, q) := by
  have hsome : p.handle? event ≠ none := by
    intro hnone
    rcases (handle?_eq_none_iff hselected).1 hnone with
      ⟨htab, hwide⟩ | ⟨text, haim, hmisses, hcount⟩
    · exact Nat.not_le.2 hwide (hfits htab)
    · have hedit : event.isEdit := by
        cases event with
        | input _ | tab | clear => rfl
        | select _ _ | scroll _ | save => cases haim
      -- Below the limit, a number is zero in 32 bits only if it is zero.
      rw [Nat.mod_eq_of_lt (hfew hmisses.1 hedit)] at hcount
      exact Nat.succ_ne_zero _ hcount
  obtain ⟨⟨change?, q⟩, hhandle⟩ := Option.ne_none_iff_exists'.1 hsome
  exact ⟨change?, q, hhandle⟩

end Page

namespace History

variable {h h' : History} {events : List Page.Event}

/-- The history after an edit that reports the change and leaves the page `q`. -/
def afterEdit (h : History) (event : Page.Event) (c : Change) (q : Page) : History :=
  { h with page := q, edits := h.edits ++ [⟨event, h.page.text, q.text, c⟩] }

omit [Fingerprint] in
theorem texts_afterEdit (h : History) (event : Page.Event) (c : Change) (q : Page) :
    (h.afterEdit event c q).texts = h.texts ++ [q.text] := by
  simp only [texts, afterEdit, List.map_append]
  rfl

/-- A step writes down what an edit did, and nothing of other events. -/
inductive Steps (h : History) (event : Page.Event) : History → Prop
  | edits (c : Change) (q : Page) (hedit : event.isEdit)
      (hperforms : Edit.Performs h.page.settings.tabWidth ⟨event, h.page.text, q.text, c⟩)
      (hdescribes : c.Describes h.page.text q.text) (hrepaints : h.page.Repaints q) :
      Steps h event (h.afterEdit event c q)
  | keeps (q : Page) (hedit : event.isEdit = false) (hkeeps : h.page.Keeps q) :
      Steps h event { h with page := q }

theorem steps_of_step? {event : Page.Event} (hstep : h.step? event = some h') :
    h.Steps event h' := by
  obtain ⟨⟨change?, q⟩, hhandle, rfl⟩ := Option.map_eq_some_iff.1 hstep
  cases Page.handles_of_handle? hhandle with
  | edits c q hedit hperforms hdescribes hrepaints =>
    exact .edits c q hedit hperforms hdescribes hrepaints
  | keeps q hedit hkeeps =>
    simp only [Option.toList_none, List.map_nil, List.append_nil]
    exact .keeps q hedit hkeeps

theorem run?_concat (h : History) (events : List Page.Event) (event : Page.Event) :
    h.run? (events ++ [event]) = (h.run? events).bind (·.step? event) := by
  rw [run?, List.foldlM_append, run?]
  simp

/-- What every step keeps, a run keeps. -/
theorem invariant_run? {P : History → Prop}
    (hkeeps : ∀ h event h', P h → h.Steps event h' → P h') (hstart : P h)
    (hrun : h.run? events = some h') : P h' := by
  induction events generalizing h with
  | nil =>
    cases hrun
    exact hstart
  | cons event rest ih =>
    rw [run?_cons] at hrun
    obtain ⟨next, hstep, hrest⟩ := Option.bind_eq_some_iff.1 hrun
    exact ih (hkeeps h event next hstart (steps_of_step? hstep)) hrest

/-- The edits of a run are its events that touch the text, in their order. -/
theorem events_run? (hrun : h.run? events = some h') :
    h'.edits.map Edit.event = h.edits.map Edit.event ++ events.filter Page.Event.isEdit := by
  induction events generalizing h with
  | nil =>
    cases hrun
    exact (List.append_nil _).symm
  | cons event rest ih =>
    rw [run?_cons] at hrun
    obtain ⟨next, hstep, hrest⟩ := Option.bind_eq_some_iff.1 hrun
    rw [ih hrest]
    cases steps_of_step? hstep with
    | edits c q hedit =>
      rw [afterEdit, List.map_append, List.filter_cons_of_pos hedit, List.append_assoc]
      rfl
    | keeps q hedit hkeeps => rw [List.filter_cons_of_neg (by simp [hedit])]

end History

end ScriptEditor
