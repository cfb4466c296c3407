import ScriptEditor.Proofs.Editing

namespace ScriptEditor.History

/-- The lines that the reported changes add up to. -/
def reportedLines (h : History) : Int := h.edits.foldl (fun n e => n + e.change.lines) 0

/-- The bytes that the reported changes add up to. -/
def reportedBytes (h : History) : Int := h.edits.foldl (fun n e => n + e.change.growth) 0

/-- Each edit goes on from the text that the one before it left, does what its event asks for and is
described by its change, and the changes add up. -/
structure IsReported (text : Text) (h : History) : Prop where
  follows : h.edits.map Edit.before ++ [h.page.text] = text :: h.edits.map Edit.after
  performs : ∀ e ∈ h.edits, e.Performs h.page.settings.tabWidth
  describes : ∀ e ∈ h.edits, e.change.Describes e.before e.after
  lines_eq : h.reportedLines = Text.addedLines text h.page.text
  bytes_eq : h.reportedBytes = (h.page.text.byteLength : Int) - text.byteLength

variable {settings : Settings} {text : Text} {h h' : History}

theorem IsReported.edits (hreported : h.IsReported text) {event : Page.Event} {c : Change} {q : Page}
    (hsettings : q.settings = h.page.settings)
    (hperforms : Edit.Performs h.page.settings.tabWidth ⟨event, h.page.text, q.text, c⟩)
    (hdescribes : c.Describes h.page.text q.text) : (h.afterEdit event c q).IsReported text where
  follows := by
    have hfollows := congrArg (· ++ [q.text]) hreported.follows
    simpa [afterEdit] using hfollows
  performs e he := by
    change e.Performs q.settings.tabWidth
    rw [hsettings]
    rcases List.mem_append.1 he with he | he
    · exact hreported.performs e he
    · rw [List.mem_singleton.1 he]
      exact hperforms
  describes e he := by
    rcases List.mem_append.1 he with he | he
    · exact hreported.describes e he
    · rw [List.mem_singleton.1 he]
      exact hdescribes
  lines_eq := by
    have hsum : (h.afterEdit event c q).reportedLines = h.reportedLines + c.lines :=
      List.foldl_concat _ _ _ _
    rw [hsum, hreported.lines_eq, hdescribes.lines_eq]
    simp only [Text.addedLines, afterEdit]
    omega
  bytes_eq := by
    have hsum : (h.afterEdit event c q).reportedBytes = h.reportedBytes + c.growth :=
      List.foldl_concat _ _ _ _
    rw [hsum, hreported.bytes_eq, hdescribes.growth_eq]
    simp only [afterEdit]
    omega

theorem IsReported.keeps (hreported : h.IsReported text) {q : Page} (hkeeps : h.page.Keeps q) :
    IsReported text { h with page := q } := by
  obtain ⟨hfollows, hperforms, hdescribes, hlines, hbytes⟩ := hreported
  rw [← hkeeps.text_eq] at hfollows hlines hbytes
  rw [← hkeeps.settings_eq] at hperforms
  exact ⟨hfollows, hperforms, hdescribes, hlines, hbytes⟩

variable [Fingerprint] {events : List Page.Event}

theorem isReported_start (settings : Settings) (text : Text) :
    (start settings text).IsReported text where
  follows := rfl
  performs e he := by cases he
  describes e he := by cases he
  lines_eq := (Int.sub_self _).symm
  bytes_eq := (Int.sub_self _).symm

theorem isReported_run? (hrun : (start settings text).run? events = some h) : h.IsReported text := by
  refine invariant_run? ?_ (isReported_start settings text) hrun
  intro h event h' hreported hsteps
  cases hsteps with
  | edits c q hedit hperforms hdescribes hrepaints =>
    exact hreported.edits hrepaints.settings_eq hperforms hdescribes
  | keeps q hedit hkeeps => exact hreported.keeps hkeeps

/-- The events come to one that the page, as they leave it, cannot handle. -/
def Stops (h : History) (events : List Page.Event) : Prop :=
  ∃ front event behind h', events = front ++ event :: behind ∧ h.run? front = some h' ∧
    h'.page.Blocks event

theorem step?_eq_none_iff (event : Page.Event) (hselected : h.page.selection.IsIn h.page.text) :
    h.step? event = none ↔ h.page.Blocks event := by
  rw [step?, Option.map_eq_none_iff, Page.handle?_eq_none_iff hselected]

theorem isIn_step? {event : Page.Event} (hselected : h.page.selection.IsIn h.page.text)
    (hstep : h.step? event = some h') : h'.page.selection.IsIn h'.page.text := by
  obtain ⟨⟨change?, q⟩, hhandle, rfl⟩ := Option.map_eq_some_iff.1 hstep
  exact Page.isIn_of_handle? hselected hhandle

theorem stops_cons_of_blocks {event : Page.Event} (hblocks : h.page.Blocks event)
    (rest : List Page.Event) : h.Stops (event :: rest) :=
  ⟨[], event, rest, h, rfl, rfl, hblocks⟩

theorem stops_cons_iff {event : Page.Event} (hselected : h.page.selection.IsIn h.page.text)
    (hstep : h.step? event = some h') (rest : List Page.Event) :
    h.Stops (event :: rest) ↔ h'.Stops rest := by
  have hgoes (front : List Page.Event) : h.run? (event :: front) = h'.run? front := by
    rw [run?_cons, hstep, Option.bind_some]
  constructor
  · rintro ⟨front, e, behind, g, hevents, hrun, hblocks⟩
    cases front with
    | nil =>
      cases hrun
      obtain ⟨rfl, rfl⟩ := List.cons.inj hevents
      rw [(step?_eq_none_iff event hselected).2 hblocks] at hstep
      cases hstep
    | cons first front =>
      obtain ⟨rfl, hrest⟩ := List.cons.inj hevents
      rw [hgoes] at hrun
      exact ⟨front, e, behind, g, hrest, hrun, hblocks⟩
  · rintro ⟨front, e, behind, g, rfl, hrun, hblocks⟩
    exact ⟨event :: front, e, behind, g, rfl, (hgoes front).trans hrun, hblocks⟩

theorem run?_eq_none_iff (hselected : h.page.selection.IsIn h.page.text) :
    h.run? events = none ↔ h.Stops events := by
  induction events generalizing h with
  | nil =>
    refine iff_of_false (Option.some_ne_none h) ?_
    rintro ⟨front, event, behind, -, hevents, -, -⟩
    exact List.append_ne_nil_of_right_ne_nil front (List.cons_ne_nil event behind) hevents.symm
  | cons event rest ih =>
    -- The selection stays in the text, so each event fails for what blocks it or not at all.
    have hfails := step?_eq_none_iff event hselected
    cases hstep : h.step? event with
    | none =>
      rw [run?_cons, hstep, Option.bind_none]
      exact iff_of_true rfl (stops_cons_of_blocks (hfails.1 hstep) rest)
    | some next =>
      rw [run?_cons, hstep, Option.bind_some, ih (isIn_step? hselected hstep),
        stops_cons_iff hselected hstep]

theorem isIn_start (settings : Settings) (text : Text) :
    (start settings text).page.selection.IsIn (start settings text).page.text := by
  have h := Selection.isIn_caret text []
  rwa [List.append_nil] at h

/-- The painter makes at most one pass for the first text, and one for each edit. -/
structure IsCounted (settings : Settings) (h : History) : Prop where
  settings_eq : h.page.settings = settings
  enabled_eq : h.page.painter.enabled = settings.styled
  passes_le : h.page.painter.counts.passes ≤ h.edits.length + 1

theorem isCounted_start (settings : Settings) (text : Text) :
    (start settings text).IsCounted settings where
  settings_eq := rfl
  enabled_eq := congrArg Mode.enabled (Painter.mode_paint (.ofSettings settings) text)
  passes_le := Painter.passes_paint_le (.ofSettings settings) text

theorem IsCounted.steps (hcounted : h.IsCounted settings) {event : Page.Event}
    (hsteps : h.Steps event h') : h'.IsCounted settings := by
  cases hsteps with
  | edits c q hedit hperforms hdescribes hrepaints =>
    have hpainter : q.painter = (h.page.painter.paint q.text).2 := hrepaints.painter_eq
    have hpasses := Painter.passes_paint_le h.page.painter q.text
    have hbefore := hcounted.passes_le
    refine ⟨hrepaints.settings_eq.trans hcounted.settings_eq, ?_, ?_⟩
    · change q.painter.enabled = _
      rw [hpainter, ← hcounted.enabled_eq]
      exact congrArg Mode.enabled (Painter.mode_paint _ _)
    · rw [← hpainter] at hpasses
      change q.painter.counts.passes ≤ (h.edits ++ [_]).length + 1
      rw [List.length_append, List.length_singleton]
      omega
  | keeps q hedit hkeeps =>
    refine ⟨hkeeps.settings_eq.trans hcounted.settings_eq, ?_, ?_⟩
    · rw [hkeeps.painter_eq]
      exact hcounted.enabled_eq
    · rw [hkeeps.painter_eq]
      exact hcounted.passes_le

theorem length_edits_steps {event : Page.Event} (hsteps : h.Steps event h') :
    h'.edits.length = h.edits.length + if event.isEdit then 1 else 0 := by
  cases hsteps with
  | edits c q hedit => rw [afterEdit, List.length_append, if_pos hedit, List.length_singleton]
  | keeps q hedit =>
    rw [hedit]
    rfl

theorem IsCounted.exists_run? (hcounted : h.IsCounted settings)
    (hselected : h.page.selection.IsIn h.page.text)
    (hfits : .tab ∈ events → settings.tabWidth ≤ Settings.maxBytes)
    (hfew : settings.styled →
      h.edits.length + events.countP Page.Event.isEdit + 1 < Duration.countLimit) :
    ∃ h', h.run? events = some h' := by
  induction events generalizing h with
  | nil => exact ⟨h, rfl⟩
  | cons event rest ih =>
    -- Each edit takes a pass at most, so the edits up to here leave room for those to come.
    have hpasses := hcounted.passes_le
    rw [List.countP_cons] at hfew
    have hnow : ∃ change? q, h.page.handle? event = some (change?, q) := by
      apply Page.exists_handle? hselected
      · intro htab
        rw [hcounted.settings_eq]
        exact hfits (htab ▸ List.mem_cons_self)
      · intro henabled hedit
        have hlt := hfew (hcounted.enabled_eq ▸ henabled)
        rw [if_pos hedit] at hlt
        omega
    obtain ⟨change?, q, hhandle⟩ := hnow
    obtain ⟨next, hstep⟩ : ∃ next, h.step? event = some next := by
      rw [step?, hhandle]
      exact ⟨_, rfl⟩
    have hlength := length_edits_steps (steps_of_step? hstep)
    rw [run?_cons, hstep, Option.bind_some]
    apply ih (hcounted.steps (steps_of_step? hstep)) (isIn_step? hselected hstep)
    · exact fun htab => hfits (List.mem_cons_of_mem event htab)
    · intro hstyled
      have hlt := hfew hstyled
      omega

/-- The tabs among the events fit into memory, and one pass for each edit can be counted. -/
structure Allows (settings : Settings) (events : List Page.Event) : Prop where
  tab_fits : .tab ∈ events → settings.tabWidth ≤ Settings.maxBytes
  passes_lt : settings.styled → events.countP Page.Event.isEdit + 1 < Duration.countLimit

theorem exists_run? (text : Text) (hallows : Allows settings events) :
    ∃ h, (start settings text).run? events = some h := by
  apply (isCounted_start settings text).exists_run? (isIn_start settings text) hallows.tab_fits
  intro hstyled
  have hlt := hallows.passes_lt hstyled
  change 0 + _ + 1 < _
  omega

/-- However the events follow each other, the reported changes tell what became of the text. Every
event that touches the text reports one, unless the page cannot handle it. -/
theorem run?_isReported (settings : Settings) (text : Text) (events : List Page.Event) :
    ((start settings text).run? events = none ↔ (start settings text).Stops events) ∧
    (Allows settings events → ∃ h, (start settings text).run? events = some h) ∧
    ∀ h, (start settings text).run? events = some h →
      h.edits.map Edit.event = events.filter Page.Event.isEdit ∧ h.IsReported text := by
  refine ⟨run?_eq_none_iff (isIn_start settings text), exists_run? text, ?_⟩
  intro h hrun
  exact ⟨events_run? hrun, isReported_run? hrun⟩

end ScriptEditor.History

namespace ScriptEditor.History

/-- A tab in the place of a line feed and what stands around it, and a text typed after a clearing. -/
def retabbing : List Page.Event :=
  [.input "é\nb".toList, .select 4 2, .tab, .scroll ⟨9, 0⟩, .clear, .input "\n\n".toList]

theorem run?_isReported_retabbing : ∃ h : History,
    (start .standard "x".toList).run? retabbing = some h ∧
      h.edits.map (fun e => (e.after, e.change.lines)) =
        [("é\nb".toList, 1), ("é    ".toList, -1), ([], 0), ("\n\n".toList, 2)] ∧
      h.reportedLines = 2 ∧ h.reportedBytes = 1 ∧ h.IsReported "x".toList := by
  have hend : ((start .standard "x".toList).run? retabbing).map (fun h =>
      (h.edits.map fun e => (e.after, e.change.lines), h.reportedLines, h.reportedBytes)) =
      some ([("é\nb".toList, 1), ("é    ".toList, -1), ([], 0), ("\n\n".toList, 2)], 2, 1) := by
    decide +kernel
  obtain ⟨h, hrun, heq⟩ := Option.map_eq_some_iff.1 hend
  obtain ⟨hedits, hsums⟩ := Prod.mk.inj heq
  obtain ⟨hlines, hbytes⟩ := Prod.mk.inj hsums
  obtain ⟨-, -, hreports⟩ := run?_isReported .standard "x".toList retabbing
  exact ⟨h, hrun, hedits, hlines, hbytes, (hreports h hrun).2⟩

end ScriptEditor.History
