import ScriptEditor.Proofs.Editing
import ScriptEditor.Proofs.Escape

namespace ScriptEditor

variable [Fingerprint]

namespace History

/-- The painter remembers the text that is shown. It missed the first text and each one that differed
from the text before it, and no other. -/
structure CountsEdits (h : History) : Prop where
  last_eq : h.page.painter.last = some (Painter.Memory.of .standard h.page.text)
  misses_eq : h.page.painter.counts.misses = 1 + h.edits.countP Edit.changesText
  hits_eq : h.page.painter.counts.hits = h.edits.countP (!·.changesText)

variable {settings : Settings} {text : Text} {h h' : History} {events : List Page.Event}

theorem countsEdits_start (hstyled : settings.styled) (text : Text) :
    (start settings text).CountsEdits := by
  have hpainter : (start settings text).page.painter = ((Painter.ofSettings settings).paint text).2 := rfl
  have hunknown : ∀ m ∈ (Painter.ofSettings settings).last, ¬ m.knows text := by
    intro m hm
    cases hm
  have hpaint := Painter.paint_of_unknown hstyled hunknown
  constructor
  · rw [hpainter, hpaint]
    rfl
  · rw [hpainter, hpaint]
    rfl
  · rw [hpainter, hpaint]
    rfl

theorem CountsEdits.edits (hcounts : h.CountsEdits)
    (hmode : h.page.painter.mode = ⟨.standard, true⟩) {q : Page} (hrepaints : h.page.Repaints q)
    {event : Page.Event} {c : Change} {texts : List Text}
    (hseparates : Fingerprint.Separates texts) (hbefore : h.page.text ∈ texts) (hafter : q.text ∈ texts) :
    (h.afterEdit event c q).CountsEdits := by
  have hsheet : h.page.painter.sheet = .standard := congrArg Mode.sheet hmode
  have henabled : h.page.painter.enabled = true := congrArg Mode.enabled hmode
  have hlast := hcounts.last_eq
  have hmisses := hcounts.misses_eq
  have hhits := hcounts.hits_eq
  have hpainter : q.painter = (h.page.painter.paint q.text).2 := hrepaints.painter_eq
  rw [← hsheet] at hlast
  have hcount (test : Edit → Bool) : (h.afterEdit event c q).edits.countP test =
      h.edits.countP test + if test ⟨event, h.page.text, q.text, c⟩ then 1 else 0 := by
    rw [afterEdit, List.countP_append, List.countP_singleton]
  by_cases hsame : h.page.text = q.text
  · -- The text is painted again: a hit, and the edit changed nothing.
    have hchanges : Edit.changesText ⟨event, h.page.text, q.text, c⟩ = false := by
      rw [Edit.changesText, hsame]
      exact bne_self_eq_false _
    rw [hsame] at hlast
    rw [Painter.paint_shown henabled hlast] at hpainter
    constructor
    · rw [afterEdit, hpainter, ← hsheet]
      exact hlast
    · rw [hcount, hchanges, afterEdit, hpainter]
      exact hmisses
    · rw [hcount, hchanges, afterEdit, hpainter]
      exact congrArg (· + 1) hhits
  · -- The text is another one: a miss, and it is the one to remember.
    have hchanges : Edit.changesText ⟨event, h.page.text, q.text, c⟩ = true := bne_iff_ne.2 hsame
    have hshown : h.page.painter.last =
        (some h.page.text).map (Painter.Memory.of h.page.painter.sheet) := hlast
    have hmem : ∀ t ∈ some h.page.text, t ∈ texts := by
      intro t ht
      exact Option.some.inj ht ▸ hbefore
    have hother : some h.page.text ≠ some q.text := mt Option.some.inj hsame
    rw [Painter.paint_other henabled hshown hmem hother hseparates hafter] at hpainter
    constructor
    · rw [afterEdit, hpainter, ← hsheet]
    · rw [hcount, hchanges, afterEdit, hpainter]
      exact congrArg (· + 1) hmisses
    · rw [hcount, hchanges, afterEdit, hpainter]
      exact hhits

/-- The page shows its text as its settings ask for, and counts the edits if it is styled. -/
structure IsPainted (settings : Settings) (h : History) : Prop where
  settings_eq : h.page.settings = settings
  mode_eq : h.page.painter.mode = ⟨.standard, settings.styled⟩
  remembers : h.page.painter.Remembers h.texts
  shown : h.page.text ∈ h.texts
  layer_eq : h.page.layer = Layer.ofText settings h.page.text
  styled : settings.styled = true → h.CountsEdits
  unstyled : settings.styled = false → h.page.painter.counts = {}

theorem isPainted_start (settings : Settings) (text : Text) :
    IsPainted settings (start settings text) where
  settings_eq := rfl
  mode_eq := Painter.mode_paint (.ofSettings settings) text
  remembers := by
    apply Painter.remembers_paint
    · exact Painter.remembers_of_none rfl _
    · exact List.mem_cons_self
  shown := List.mem_cons_self
  layer_eq := Painter.layer_pageOfText settings text
  styled hstyled := countsEdits_start hstyled text
  unstyled hplain := by
    have hpaint := Painter.paint_of_disabled (p := .ofSettings settings) hplain text
    exact congrArg (fun r => r.2.counts) hpaint

theorem IsPainted.keeps (hpainted : h.IsPainted settings) {q : Page} (hkeeps : h.page.Keeps q) :
    IsPainted settings { h with page := q } := by
  cases q
  obtain ⟨hsettings, hpainter, htext, hlayer⟩ := hkeeps
  dsimp only at hsettings hpainter htext hlayer
  subst hsettings hpainter htext hlayer
  exact { hpainted with styled := fun hstyled => { hpainted.styled hstyled with } }

theorem IsPainted.edits (hpainted : h.IsPainted settings) {event : Page.Event} {c : Change} {q : Page}
    (hrepaints : h.page.Repaints q)
    (hseparates : Fingerprint.Separates (h.afterEdit event c q).texts) :
    IsPainted settings (h.afterEdit event c q) := by
  have htexts := texts_afterEdit h event c q
  have hsub : h.texts ⊆ (h.afterEdit event c q).texts := by
    rw [htexts]
    exact List.subset_append_left _ _
  have hafter : q.text ∈ (h.afterEdit event c q).texts := by
    rw [htexts]
    exact List.mem_append_right _ List.mem_cons_self
  have hbefore := hsub hpainted.shown
  have hremembers := hpainted.remembers.mono hsub
  have hpainter : q.painter = (h.page.painter.paint q.text).2 := hrepaints.painter_eq
  refine ⟨?_, ?_, ?_, hafter, ?_, ?_, ?_⟩
  · exact hrepaints.settings_eq.trans hpainted.settings_eq
  · change q.painter.mode = _
    rw [hpainter, Painter.mode_paint]
    exact hpainted.mode_eq
  · change q.painter.Remembers _
    rw [hpainter]
    exact Painter.remembers_paint hremembers hafter
  · change q.layer = _
    rw [hrepaints.layer_eq, hpainted.settings_eq]
    exact Painter.layer_paintLayer hseparates hremembers hpainted.mode_eq hafter
  · intro hstyled
    have hmode := hpainted.mode_eq
    rw [hstyled] at hmode
    exact (hpainted.styled hstyled).edits hmode hrepaints hseparates hbefore hafter
  · intro hplain
    have hdisabled : h.page.painter.enabled = false :=
      (congrArg Mode.enabled hpainted.mode_eq).trans hplain
    change q.painter.counts = {}
    rw [hpainter, Painter.paint_of_disabled hdisabled]
    exact hpainted.unstyled hplain

theorem isPainted_run? (hrun : (start settings text).run? events = some h)
    (hseparates : Fingerprint.Separates h.texts) : h.IsPainted settings := by
  -- Later texts must be told apart from earlier ones, and only then.
  let P (h : History) : Prop := Fingerprint.Separates h.texts → h.IsPainted settings
  have hstart : P (start settings text) := fun _ => isPainted_start settings text
  refine invariant_run? (P := P) ?_ hstart hrun hseparates
  intro h event h' hpainted hsteps hlater
  cases hsteps with
  | edits c q hedit hperforms hdescribes hrepaints =>
    have hsub : h.texts ⊆ (h.afterEdit event c q).texts := by
      rw [texts_afterEdit]
      exact List.subset_append_left _ _
    exact (hpainted (hlater.mono hsub)).edits hrepaints hlater
  | keeps q hedit hkeeps => exact (hpainted hlater).keeps hkeeps

/-- What a page shows after a run of events, and how often its painter had to paint for it. -/
structure IsUpToDate (settings : Settings) (h : History) : Prop where
  markup_eq : h.page.layer.markup =
    (if settings.styled then Markup.ofSource .standard h.page.text
      else if h.page.text = [] then Markup.placeholder
      else Markup.escape h.page.text) ++ settings.trailing
  numbers_eq : h.page.layer.numbers = h.page.text.gutter
  /-- A styled page misses its first text and each text that an edit changed; an edit that changed
  nothing is a hit. A page without styles counts neither. -/
  misses_eq : h.page.painter.counts.misses =
    if settings.styled then 1 + h.edits.countP Edit.changesText else 0
  hits_eq : h.page.painter.counts.hits =
    if settings.styled then h.edits.countP (!·.changesText) else 0

theorem IsPainted.isUpToDate (hpainted : h.IsPainted settings) : h.IsUpToDate settings := by
  refine ⟨?_, ?_, ?_, ?_⟩
  · rw [hpainted.layer_eq, Layer.ofText, Markup.plain_eq]
  · rw [hpainted.layer_eq]
    rfl
  · split
    case isTrue hstyled => exact (hpainted.styled hstyled).misses_eq
    case isFalse hplain => rw [hpainted.unstyled (Bool.eq_false_iff.2 hplain)]
  · split
    case isTrue hstyled => exact (hpainted.styled hstyled).hits_eq
    case isFalse hplain => rw [hpainted.unstyled (Bool.eq_false_iff.2 hplain)]

/-- However the events follow each other, the page is up to date, if fingerprints tell apart the texts
that it showed. The edits that are counted are the events that touch the text. -/
theorem run?_isUpToDate (settings : Settings) (text : Text) (events : List Page.Event) (h : History)
    (hrun : (start settings text).run? events = some h)
    (hseparates : Fingerprint.Separates h.texts) :
    h.IsUpToDate settings ∧ h.edits.map Edit.event = events.filter Page.Event.isEdit :=
  ⟨(isPainted_run? hrun hseparates).isUpToDate, events_run? hrun⟩

end History

end ScriptEditor

namespace ScriptEditor.History

/-- A text is typed, typed again, replaced by a tab, cleared twice and typed once more, with other
events between. -/
def retyping : List Page.Event :=
  [.input "x<".toList, .select 0 9, .input "x<".toList, .save, .tab, .clear, .scroll { top := 3 },
    .clear, .input "if".toList]

theorem run?_isUpToDate_retyping : ∃ h : History,
    (start .standard "if".toList).run? retyping = some h ∧
    Fingerprint.Separates h.texts ∧
    h.page.painter.counts.misses = 5 ∧ h.page.painter.counts.hits = 2 ∧
    h.IsUpToDate .standard := by
  have hend : ((start .standard "if".toList).run? retyping).map (fun h =>
      (h.texts, h.page.painter.counts.misses, h.page.painter.counts.hits)) =
      some (["if".toList, "x<".toList, "x<".toList, "    ".toList, [], [], "if".toList], 5, 2) := by
    decide +kernel
  obtain ⟨h, hrun, heq⟩ := Option.map_eq_some_iff.1 hend
  obtain ⟨htexts, hcounts⟩ := Prod.mk.inj heq
  obtain ⟨hmisses, hhits⟩ := Prod.mk.inj hcounts
  have hseparates : Fingerprint.Separates h.texts := by
    rw [htexts]
    decide +kernel
  exact ⟨h, hrun, hseparates, hmisses, hhits, (run?_isUpToDate .standard _ _ h hrun hseparates).1⟩

end ScriptEditor.History
