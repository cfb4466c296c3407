import ScriptEditor.Proofs.Selecting

namespace ScriptEditor

namespace Change

variable {c : Change}

theorem isEmpty_iff : c.isEmpty ↔ c.stop ≤ c.start ∧ c.inserted = 0 := by
  rw [isEmpty, Bool.and_eq_true, decide_eq_true_eq, beq_iff_eq]

/-- Texts that are compared share all they have if they are the same, and only then. -/
theorem isEmpty_ofInput (old new : Text) : (ofInput old new).isEmpty ↔ new = old := by
  obtain ⟨p, x, y, q, h⟩ := exists_isTightSplit old new
  rw [ofInput_eq_ofSplit h, isEmpty_ofSplit h]
  exact eq_comm

theorem isEmpty_ofSpaces (front removed : Text) (width : Nat) :
    (ofSpaces front removed width).isEmpty ↔ removed = [] ∧ width = 0 := by
  rw [isEmpty_iff, ← Text.byteLength_eq_zero]
  change front.byteLength + removed.byteLength ≤ front.byteLength ∧
    Text.byteLength (List.replicate width ' ') = 0 ↔ _
  rw [Page.byteLength_spaces]
  omega

theorem isEmpty_ofClear (old : Text) : (ofClear old).isEmpty ↔ [] = old := by
  rw [isEmpty_iff, eq_comm (a := []), ← Text.byteLength_eq_zero]
  change old.byteLength ≤ 0 ∧ 0 = 0 ↔ _
  omega

end Change

namespace Page

variable {p q : Page} {event : Event} {c : Change}

/-- The event is a tab, and the spaces that it puts in the place of the selection are there already. -/
def Respaces (p : Page) (event : Event) : Prop :=
  event = .tab ∧ 0 < p.settings.tabWidth ∧
    p.text.slice? p.selection.start p.selection.stop = some (List.replicate p.settings.tabWidth ' ')

/-- The step from the page `p` to the page `q` keeps the text exactly if its change is empty or if it
types spaces over themselves, and it is never both. -/
structure TellsIdle (p q : Page) (event : Event) (c : Change) : Prop where
  text_eq_iff : q.text = p.text ↔ c.isEmpty ∨ p.Respaces event
  not_both : ¬ (c.isEmpty ∧ p.Respaces event)

theorem tellsIdle_of_ne_tab (hevent : event ≠ .tab) (hempty : c.isEmpty ↔ q.text = p.text) :
    p.TellsIdle q event c := by
  have hspaces : ¬ p.Respaces event := fun h => hevent h.1
  constructor
  · rw [or_iff_left hspaces, hempty]
  · exact fun h => hspaces h.2

theorem respaces_tab_iff {front removed behind : Text} (htext : p.text = front ++ removed ++ behind)
    (hselection : p.selection = ⟨front.byteLength, front.byteLength + removed.byteLength⟩) :
    p.Respaces .tab ↔
      0 < p.settings.tabWidth ∧ List.replicate p.settings.tabWidth ' ' = removed := by
  rw [Respaces, htext, hselection, Scan.slice?_middle, Option.some.injEq, eq_comm (a := removed)]
  exact and_iff_right rfl

variable [Fingerprint]

theorem tellsIdle_afterTab {front removed behind : Text} (htext : p.text = front ++ removed ++ behind)
    (hselection : p.selection = ⟨front.byteLength, front.byteLength + removed.byteLength⟩) :
    p.TellsIdle (p.afterTab front behind) .tab (.ofSpaces front removed p.settings.tabWidth) := by
  have hsame : (p.afterTab front behind).text = p.text ↔
      List.replicate p.settings.tabWidth ' ' = removed := by
    rw [htext]
    change front ++ List.replicate p.settings.tabWidth ' ' ++ behind = _ ↔ _
    rw [List.append_left_inj, List.append_right_inj]
  constructor
  · rw [hsame, Change.isEmpty_ofSpaces, respaces_tab_iff htext hselection]
    -- A tab without width removes what is selected, and puts nothing there.
    rcases Nat.eq_zero_or_pos p.settings.tabWidth with hzero | hpos
    · simp [hzero, eq_comm]
    · simp [hpos, Nat.ne_of_gt hpos]
  · rw [Change.isEmpty_ofSpaces, respaces_tab_iff htext hselection]
    rintro ⟨⟨-, hzero⟩, hpos, -⟩
    exact Nat.ne_of_gt hpos hzero

theorem tellsIdle_of_handle? (h : p.handle? event = some (some c, q)) : p.TellsIdle q event c := by
  cases event with
  | input text =>
    obtain ⟨hchange, rfl⟩ := of_handle?_input h
    cases hchange
    exact tellsIdle_of_ne_tab (by simp) (Change.isEmpty_ofInput p.text text)
  | tab =>
    obtain ⟨front, removed, behind, htext, hselection, hchange, rfl⟩ := exists_of_handle?_tab h
    cases hchange
    exact tellsIdle_afterTab htext hselection
  | clear =>
    obtain ⟨hchange, rfl⟩ := of_handle?_clear h
    cases hchange
    exact tellsIdle_of_ne_tab (by simp) (Change.isEmpty_ofClear p.text)
  | select a b => cases h
  | scroll offset => cases h
  | save => cases h

end Page

namespace History

variable [Fingerprint]

/-- However a page came to be as it is, an edit reports an empty change exactly if it leaves the text as
it is, unless it types spaces over themselves: then the text is the same, and the change is not empty. -/
theorem run?_tellsIdle (settings : Settings) (text : Text) (events : List Page.Event)
    (event : Page.Event) (hedit : event.isEdit) :
    (Allows settings (events ++ [event]) → ∃ h change? q,
      (start settings text).run? events = some h ∧ h.page.handle? event = some (change?, q)) ∧
    ∀ h change? q, (start settings text).run? events = some h →
      h.page.handle? event = some (change?, q) →
      ∃ c, change? = some c ∧ h.page.TellsIdle q event c := by
  constructor
  · intro hallows
    obtain ⟨h', hrun⟩ := exists_run? text hallows
    rw [run?_concat] at hrun
    obtain ⟨h, hbefore, hstep⟩ := Option.bind_eq_some_iff.1 hrun
    obtain ⟨⟨change?, q⟩, hhandle, -⟩ := Option.map_eq_some_iff.1 hstep
    exact ⟨h, change?, q, hbefore, hhandle⟩
  · intro h change? q _ hhandle
    -- An edit always reports a change.
    cases Page.handles_of_handle? hhandle with
    | edits c q => exact ⟨c, rfl, Page.tellsIdle_of_handle? hhandle⟩
    | keeps q hnone =>
      rw [hedit] at hnone
      cases hnone

end History

end ScriptEditor

namespace ScriptEditor.History

/-- Two spaces between other characters, and the selection around them. -/
def respacing : List Page.Event := [.input "é  →".toList, .select 2 4]

theorem run?_tellsIdle_respacing :
    Page.Event.isEdit .tab ∧ ∃ h c q, (start { tabWidth := 2 } []).run? respacing = some h ∧
      h.page.handle? .tab = some (some c, q) ∧ h.page.TellsIdle q .tab c := by
  obtain ⟨hsome, htells⟩ := run?_tellsIdle { tabWidth := 2 } [] respacing .tab rfl
  obtain ⟨h, change?, q, hrun, hhandle⟩ := hsome ⟨fun _ => by decide, fun _ => by decide⟩
  obtain ⟨c, rfl, hidle⟩ := htells h change? q hrun hhandle
  exact ⟨rfl, h, c, q, hrun, hhandle, hidle⟩

/-- A tab over four spaces keeps the text, and its change is not empty. -/
theorem run?_tab_over_spaces : ∃ (h : History) (c : Change) (q : Page),
    (start .standard "    ".toList).run? [.select 0 4] = some h ∧
      h.page.handle? .tab = some (some c, q) ∧ q.text = h.page.text ∧ c.isEmpty = false := by
  have hend : ((start .standard "    ".toList).run? [.select 0 4]).bind (fun h =>
      (h.page.handle? .tab).map fun r => (r.1.map Change.isEmpty, r.2.text == h.page.text)) =
      some (some false, true) := by
    decide +kernel
  obtain ⟨h, hrun, hmap⟩ := Option.bind_eq_some_iff.1 hend
  obtain ⟨⟨c?, q⟩, hhandle, heq⟩ := Option.map_eq_some_iff.1 hmap
  obtain ⟨hempty, htext⟩ := Prod.mk.inj heq
  obtain ⟨c, rfl, hc⟩ := Option.map_eq_some_iff.1 hempty
  exact ⟨h, c, q, hrun, hhandle, eq_of_beq htext, hc⟩

end ScriptEditor.History
