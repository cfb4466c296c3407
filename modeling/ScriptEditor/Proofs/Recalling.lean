import Mathlib.Data.List.DropRight
import ScriptEditor.Proofs.Selecting

namespace ScriptEditor

namespace Page

namespace Event

/-- The events behind the last one that is `mark`. -/
def since (mark : Event) (events : List Event) : List Event := events.rtakeWhile (· ≠ mark)

def offset? : Event → Option Scroll
  | .scroll offset => some offset
  | .input _ | .select _ _ | .tab | .clear | .save => none

/-- There was an edit since the last save, be it one that left the text as it was. -/
def leaveUnsaved (events : List Event) : Bool := (since .save events).any isEdit

/-- The offset of the last scroll since the text was cleared, and zero if there was none. -/
def lastOffset (events : List Event) : Scroll :=
  ((since .clear events).filterMap offset?).getLast?.getD {}

theorem since_concat (mark : Event) (events : List Event) (event : Event) :
    since mark (events ++ [event]) = if event = mark then [] else since mark events ++ [event] := by
  rw [since, List.rtakeWhile_concat]
  by_cases h : event = mark <;> simp [h, since]

theorem leaveUnsaved_concat (events : List Event) (event : Event) :
    leaveUnsaved (events ++ [event]) =
      if event = .save then false else (leaveUnsaved events || event.isEdit) := by
  rw [leaveUnsaved, since_concat]
  split
  · rfl
  · simp only [List.any_append, List.any_cons, List.any_nil, Bool.or_false]
    rfl

theorem lastOffset_concat (events : List Event) (event : Event) :
    lastOffset (events ++ [event]) =
      if event = .clear then {} else event.offset?.getD (lastOffset events) := by
  rw [lastOffset, since_concat]
  split
  · rfl
  · rw [List.filterMap_append]
    cases hoffset : event.offset? with
    | none => simp [hoffset, lastOffset]
    | some offset => simp [hoffset]

end Event

/-- The offsets of the editor, the layer and the gutter. -/
def offsets (p : Page) : Scroll × Scroll × Scroll := (p.editorScroll, p.layerScroll, p.gutterScroll)

/-- The offsets of the three surfaces when the editor is scrolled: the layer goes along, and the
gutter up and down only. -/
def aligned (offset : Scroll) : Scroll × Scroll × Scroll := (offset, offset, { top := offset.top })

/-- What the page holds of the events that made it. -/
structure Recalls (p : Page) (events : List Event) : Prop where
  unsaved_eq : p.unsaved = Event.leaveUnsaved events
  offsets_eq : p.offsets = aligned (Event.lastOffset events)

/-- What an event does not touch. -/
def Spares (p q : Page) : Event → Prop
  | .input _ | .tab => q.offsets = p.offsets ∧ q.settings = p.settings
  | .select _ _ => q = { p with selection := q.selection }
  | .clear => q.settings = p.settings
  | .scroll _ => q = { p with
      editorScroll := q.editorScroll, layerScroll := q.layerScroll, gutterScroll := q.gutterScroll }
  | .save => q = { p with unsaved := q.unsaved }

variable [Fingerprint] {p q : Page} {event : Event} {change? : Option Change}

theorem spares_of_handle? (h : p.handle? event = some (change?, q)) : p.Spares q event := by
  cases event with
  | tab =>
    obtain ⟨front, removed, behind, -, -, -, rfl⟩ := exists_of_handle?_tab h
    exact ⟨rfl, rfl⟩
  | input text =>
    obtain ⟨-, rfl⟩ := of_handle?_input h
    exact ⟨rfl, rfl⟩
  | select a b =>
    cases h
    rfl
  | clear =>
    obtain ⟨-, rfl⟩ := of_handle?_clear h
    rfl
  | scroll offset =>
    cases h
    rfl
  | save =>
    cases h
    rfl

theorem unsaved_of_handle? (h : p.handle? event = some (change?, q)) :
    q.unsaved = if event = .save then false else (p.unsaved || event.isEdit) := by
  cases event with
  | tab =>
    obtain ⟨front, removed, behind, -, -, -, rfl⟩ := exists_of_handle?_tab h
    exact (Bool.or_true p.unsaved).symm
  | input text =>
    obtain ⟨-, rfl⟩ := of_handle?_input h
    exact (Bool.or_true p.unsaved).symm
  | clear =>
    obtain ⟨-, rfl⟩ := of_handle?_clear h
    exact (Bool.or_true p.unsaved).symm
  | select a b =>
    cases h
    exact (Bool.or_false p.unsaved).symm
  | scroll offset =>
    cases h
    exact (Bool.or_false p.unsaved).symm
  | save =>
    cases h
    rfl

theorem offsets_of_handle? (h : p.handle? event = some (change?, q)) :
    q.offsets = if event = .clear then aligned {} else (event.offset?.map aligned).getD p.offsets := by
  cases event with
  | tab => exact (spares_of_handle? h).1
  | input text => exact (spares_of_handle? h).1
  | clear =>
    obtain ⟨-, rfl⟩ := of_handle?_clear h
    rfl
  | select a b =>
    cases h
    rfl
  | scroll offset =>
    cases h
    rfl
  | save =>
    cases h
    rfl

theorem exists_handle?_of_not_isEdit (h : event.isEdit = false) :
    ∃ q, p.handle? event = some (none, q) := by
  cases event with
  | select _ _ | scroll _ | save => exact ⟨_, rfl⟩
  | input _ | tab | clear => cases h

theorem Recalls.handles {events : List Event} (hrecalls : p.Recalls events)
    (h : p.handle? event = some (change?, q)) : q.Recalls (events ++ [event]) where
  -- Page and list of events change by the same equation.
  unsaved_eq := by
    rw [unsaved_of_handle? h, hrecalls.unsaved_eq, Event.leaveUnsaved_concat]
  offsets_eq := by
    rw [offsets_of_handle? h, hrecalls.offsets_eq, Event.lastOffset_concat, apply_ite aligned,
      Option.getD_map]

end Page

namespace History

variable [Fingerprint] {h h' : History} {past events : List Page.Event}

theorem recalls_start (settings : Settings) (text : Text) : (start settings text).page.Recalls [] :=
  ⟨rfl, rfl⟩

theorem recalls_run? (hrecalls : h.page.Recalls past) (hrun : h.run? events = some h') :
    h'.page.Recalls (past ++ events) := by
  -- Event by event, from what is still to come to what is past.
  induction events generalizing h past with
  | nil =>
    cases hrun
    rwa [List.append_nil]
  | cons event rest ih =>
    rw [run?_cons] at hrun
    obtain ⟨next, hstep, hrest⟩ := Option.bind_eq_some_iff.1 hrun
    obtain ⟨⟨change?, q⟩, hhandle, rfl⟩ := Option.map_eq_some_iff.1 hstep
    have hnow := ih (hrecalls.handles hhandle) hrest
    rwa [List.append_assoc] at hnow

/-- Unsaved mark and offsets tell what the events were, and the next event touches nothing but its
own. An event that is no edit always goes through, and leaves text, layer and painter as they are. -/
theorem run?_recalls (settings : Settings) (text : Text) (events : List Page.Event) :
    (Allows settings events → ∃ h, (start settings text).run? events = some h) ∧
    ∀ h, (start settings text).run? events = some h → h.page.Recalls events ∧
      ∀ event, (event.isEdit = false → ∃ q, h.page.handle? event = some (none, q) ∧ h.page.Keeps q) ∧
        ∀ change? q, h.page.handle? event = some (change?, q) → h.page.Spares q event := by
  refine ⟨exists_run? text, ?_⟩
  intro h hrun
  refine ⟨recalls_run? (recalls_start settings text) hrun, ?_⟩
  intro event
  constructor
  · intro hplain
    obtain ⟨q, hhandle⟩ := Page.exists_handle?_of_not_isEdit (p := h.page) hplain
    cases Page.handles_of_handle? hhandle with
    | keeps q _ hkeeps => exact ⟨q, hhandle, hkeeps⟩
  · intro change? q hhandle
    exact Page.spares_of_handle? hhandle

end History

end ScriptEditor

namespace ScriptEditor.History

/-- An edit that changes nothing behind a save, and a scroll on either side of a clearing. -/
def scrolling : List Page.Event :=
  [.scroll ⟨40, 12⟩, .tab, .save, .clear, .clear, .scroll ⟨7, 3⟩, .select 0 9]

theorem run?_recalls_scrolling : ∃ h : History,
    (start .standard "é".toList).run? scrolling = some h ∧
      h.page.unsaved = true ∧ h.page.offsets = (⟨7, 3⟩, ⟨7, 3⟩, ⟨7, 0⟩) ∧
      h.page.Recalls scrolling := by
  obtain ⟨hsome, hrun⟩ := run?_recalls .standard "é".toList scrolling
  obtain ⟨h, hh⟩ := hsome ⟨fun _ => by decide, fun _ => by decide⟩
  have hrecalls := (hrun h hh).1
  have hunsaved : Page.Event.leaveUnsaved scrolling = true := by decide
  have hoffset : Page.Event.lastOffset scrolling = ⟨7, 3⟩ := by decide
  refine ⟨h, hh, ?_, ?_, hrecalls⟩
  · rw [hrecalls.unsaved_eq, hunsaved]
  · rw [hrecalls.offsets_eq, hoffset]
    rfl

end ScriptEditor.History
