import Mathlib.Order.Bounds.Basic
import ScriptEditor.Proofs.Lasting
import ScriptEditor.Proofs.Reporting

namespace ScriptEditor

/-- The greatest boundary of the text that is neither behind the offset nor behind the end. -/
def Text.IsFloor (t : Text) (offset floor : Nat) : Prop :=
  IsGreatest {n | t.isBoundary n ∧ n ≤ min offset t.byteLength} floor

namespace Text

theorem le_byteLength_of_isBoundary {t : Text} {n : Nat} (h : t.isBoundary n) : n ≤ t.byteLength := by
  obtain ⟨p, q, rfl, rfl⟩ := isBoundary_iff.1 h
  rw [byteLength_append]
  omega

theorem isFloor_floorBoundary (t : Text) (offset : Nat) : t.IsFloor offset (t.floorBoundary offset) := by
  have hboundary := t.isBoundary_floorBoundary offset
  constructor
  · refine ⟨hboundary, Nat.le_min.2 ⟨?_, ?_⟩⟩
    · exact byteLength_takeBytes_le offset t
    · exact le_byteLength_of_isBoundary hboundary
  · rintro n ⟨hn, hle⟩
    obtain ⟨p, q, rfl, rfl⟩ := isBoundary_iff.1 hn
    -- All of `p` fits in front of the offset, so it is taken.
    obtain ⟨k, hk⟩ := Nat.exists_eq_add_of_le (hle.trans (Nat.min_le_left _ _))
    rw [floorBoundary, hk, takeBytes_append, byteLength_append]
    omega

theorem floorBoundary_mono (t : Text) {a b : Nat} (h : a ≤ b) :
    t.floorBoundary a ≤ t.floorBoundary b := by
  obtain ⟨ha, hle⟩ := (t.isFloor_floorBoundary a).1
  apply (t.isFloor_floorBoundary b).2
  exact ⟨ha, hle.trans (by omega)⟩

end Text

namespace Selection

/-- The ends of the selection are in order, and are boundaries of the text. -/
structure IsWithin (s : Selection) (t : Text) : Prop where
  start_le_stop : s.start ≤ s.stop
  stop_le : s.stop ≤ t.byteLength
  isBoundary_start : t.isBoundary s.start
  isBoundary_stop : t.isBoundary s.stop

theorem IsIn.isWithin {s : Selection} {t : Text} (h : s.IsIn t) : s.IsWithin t := by
  obtain ⟨front, inside, behind, rfl, rfl⟩ := h.exists_parts
  have hstop : (front ++ inside ++ behind).isBoundary (front.byteLength + inside.byteLength) :=
    Text.isBoundary_iff.2 ⟨front ++ inside, behind, rfl, Text.byteLength_append front inside⟩
  refine ⟨Nat.le_add_right _ _, Text.le_byteLength_of_isBoundary hstop, ?_, hstop⟩
  rw [List.append_assoc]
  exact Text.isBoundary_iff.2 ⟨front, inside ++ behind, rfl, rfl⟩

theorem between_eq (t : Text) (a b : Nat) :
    between t a b = ⟨t.floorBoundary (min a b), t.floorBoundary (max a b)⟩ := by
  rw [between]
  rcases Nat.le_total a b with h | h
  · have hfloor := t.floorBoundary_mono h
    rw [Nat.min_eq_left h, Nat.max_eq_right h, Nat.min_eq_left hfloor, Nat.max_eq_right hfloor]
  · have hfloor := t.floorBoundary_mono h
    rw [Nat.min_eq_right h, Nat.max_eq_left h, Nat.min_eq_right hfloor, Nat.max_eq_left hfloor]

theorem isFloor_between (t : Text) (a b : Nat) :
    t.IsFloor (min a b) (between t a b).start ∧ t.IsFloor (max a b) (between t a b).stop := by
  rw [between_eq]
  exact ⟨t.isFloor_floorBoundary _, t.isFloor_floorBoundary _⟩

end Selection

namespace Page

/-- What an event makes of the text and of the selection of a page. -/
def Selects (p q : Page) : Event → Prop
  | .input text => q.text = text ∧ text.IsFloor p.selection.start q.selection.start ∧
      text.IsFloor p.selection.stop q.selection.stop
  | .select a b => q.text = p.text ∧ p.text.IsFloor (min a b) q.selection.start ∧
      p.text.IsFloor (max a b) q.selection.stop
  | .tab => ∃ front behind, p.text.slice? 0 p.selection.start = some front ∧
      Scan.behind? p.text p.selection.stop = some behind ∧
      q.text = front ++ List.replicate p.settings.tabWidth ' ' ++ behind ∧
      q.selection = .caret (p.selection.start + p.settings.tabWidth)
  | .clear => q.text = [] ∧ q.selection = .caret 0
  | .scroll _ | .save => q.text = p.text ∧ q.selection = p.selection

theorem byteLength_spaces (n : Nat) : Text.byteLength (List.replicate n ' ') = n := by
  have hspace : Char.utf8Size ' ' = 1 := rfl
  rw [Text.byteLength_replicate, hspace, Nat.mul_one]

variable [Fingerprint] {p q : Page}

theorem selects_afterTab {front removed behind : Text} (htext : p.text = front ++ removed ++ behind)
    (hselection : p.selection = ⟨front.byteLength, front.byteLength + removed.byteLength⟩) :
    p.Selects (p.afterTab front behind) .tab := by
  refine ⟨front, behind, ?_, ?_, rfl, ?_⟩
  · have hfront := Scan.slice?_middle [] front (removed ++ behind)
    rw [Text.byteLength_nil, Nat.zero_add, List.nil_append, ← List.append_assoc] at hfront
    rw [htext, hselection]
    exact hfront
  · rw [htext, hselection, ← Text.byteLength_append]
    exact Scan.behind?_append (front ++ removed) behind
  · have hcaret : (front ++ List.replicate p.settings.tabWidth ' ').byteLength =
        front.byteLength + p.settings.tabWidth := by
      rw [Text.byteLength_append, byteLength_spaces]
    rw [hselection]
    exact congrArg Selection.caret hcaret

theorem selects_of_handle? {event : Event} {change? : Option Change}
    (hselected : p.selection.IsIn p.text) (h : p.handle? event = some (change?, q)) :
    p.Selects q event := by
  cases event with
  | input text =>
    obtain ⟨-, rfl⟩ := of_handle?_input h
    -- The old selection was in order, so its ends are the lesser and the greater offset.
    have hle := hselected.isWithin.start_le_stop
    have hfloor := Selection.isFloor_between text p.selection.start p.selection.stop
    rw [Nat.min_eq_left hle, Nat.max_eq_right hle] at hfloor
    exact ⟨rfl, hfloor⟩
  | select a b =>
    cases h
    exact ⟨rfl, Selection.isFloor_between p.text a b⟩
  | tab =>
    obtain ⟨front, removed, behind, htext, hselection, rfl, rfl⟩ := exists_of_handle?_tab h
    exact selects_afterTab htext hselection
  | clear =>
    obtain ⟨-, rfl⟩ := of_handle?_clear h
    exact ⟨rfl, rfl⟩
  | scroll offset =>
    cases h
    exact ⟨rfl, rfl⟩
  | save =>
    cases h
    exact ⟨rfl, rfl⟩

end Page

namespace History

variable [Fingerprint] {h h' : History} {events : List Page.Event}

theorem isIn_run? (hselected : h.page.selection.IsIn h.page.text) (hrun : h.run? events = some h') :
    h'.page.selection.IsIn h'.page.text := by
  induction events generalizing h with
  | nil =>
    cases hrun
    exact hselected
  | cons event rest ih =>
    rw [run?_cons] at hrun
    obtain ⟨next, hstep, hrest⟩ := Option.bind_eq_some_iff.1 hrun
    exact ih (isIn_step? hselected hstep) hrest

/-- However the events follow each other, the selection is a part of the text, and the text can be cut
and spliced there. An event does to both what it should, if nothing else blocks it. -/
theorem run?_selects (settings : Settings) (text : Text) (events : List Page.Event) :
    (Allows settings events → ∃ h, (start settings text).run? events = some h) ∧
    ∀ h, (start settings text).run? events = some h →
      h.page.selection.IsWithin h.page.text ∧
      (∀ inserted : Text,
        (Change.ofTab? h.page.text h.page.selection.start h.page.selection.stop inserted).isSome ∧
        (h.page.text.splice? h.page.selection.start h.page.selection.stop inserted).isSome) ∧
      ∀ event, (h.page.handle? event = none ↔ h.page.Blocks event) ∧
        ∀ change? q, h.page.handle? event = some (change?, q) → h.page.Selects q event := by
  refine ⟨exists_run? text, ?_⟩
  intro h hrun
  have hselected := isIn_run? (isIn_start settings text) hrun
  refine ⟨hselected.isWithin, ?_, ?_⟩
  · intro inserted
    obtain ⟨inside, hinside⟩ := hselected
    rw [Change.ofTab?, Text.splice?, hinside]
    exact ⟨rfl, rfl⟩
  · intro event
    refine ⟨Page.handle?_eq_none_iff hselected, ?_⟩
    intro change? q hhandle
    exact Page.selects_of_handle? hselected hhandle

/-- The page shows a text of those in turn, and its painter made a pass for each one up to it. -/
structure ShowsTurn (n : Nat) (p : Page) : Prop where
  settings_eq : p.settings = .standard
  text_eq : p.text = turn n
  enabled : p.painter.enabled
  last_eq : p.painter.last = some (Painter.Memory.of p.painter.sheet (turn n))
  passes_eq : p.painter.counts.passes = n + 1

theorem showsTurn_start : ShowsTurn 0 (start .standard []).page where
  settings_eq := rfl
  text_eq := rfl
  enabled := rfl
  last_eq := rfl
  passes_eq := rfl

theorem ShowsTurn.misses {n : Nat} {p : Page} (hp : ShowsTurn n p) {source : Text}
    (hbytes : (turn n).byteLength ≠ source.byteLength) : p.painter.Misses source := by
  refine ⟨hp.enabled, ?_⟩
  intro m hm hknows
  rw [hp.last_eq] at hm
  obtain rfl := Option.some.inj hm
  exact hbytes (Painter.knows_iff.1 hknows).2

theorem ShowsTurn.exists_handle? {n : Nat} {p : Page} (hp : ShowsTurn n p)
    (hn : n + 2 < Duration.countLimit) :
    ∃ change? q, p.handle? (.input (turn (n + 1))) = some (change?, q) ∧ ShowsTurn (n + 1) q := by
  have hmisses : p.painter.Misses (turn (n + 1)) := by
    apply hp.misses
    rw [byteLength_turn, byteLength_turn]
    omega
  have hcount : Duration.canDivide (p.painter.counts.passes + 1) := by
    rw [hp.passes_eq]
    exact Duration.canDivide_of_lt (Nat.succ_pos _) hn
  have hpainted := Painter.paint_of_misses hmisses
  refine ⟨some (.ofInput p.text (turn (n + 1))),
    (p.showing (turn (n + 1))).select p.selection.start p.selection.stop, ?_, ?_⟩
  · rw [Page.handle?, Page.input?, Page.display?_eq, Painter.paint?_eq_some fun _ => hcount]
    rfl
  · have hpainter : ((p.showing (turn (n + 1))).select p.selection.start p.selection.stop).painter =
        (p.painter.paint (turn (n + 1))).2 := rfl
    rw [hpainted] at hpainter
    refine ⟨hp.settings_eq, rfl, ?_, ?_, ?_⟩
    · rw [hpainter]
      exact hp.enabled
    · rw [hpainter]
    · rw [hpainter]
      exact congrArg (· + 1) hp.passes_eq

/-- The texts in turn are typed one after another. -/
def typing (n : Nat) : List Page.Event := (List.range n).map fun i => .input (turn (i + 1))

theorem exists_run?_typing {n : Nat} (hn : n + 1 < Duration.countLimit) :
    ∃ h, (start .standard []).run? (typing n) = some h ∧ ShowsTurn n h.page := by
  induction n with
  | zero => exact ⟨_, rfl, showsTurn_start⟩
  | succ n ih =>
    obtain ⟨h, hrun, hp⟩ := ih (by omega)
    obtain ⟨change?, q, hhandle, hq⟩ := hp.exists_handle? hn
    have hevents : typing (n + 1) = typing n ++ [.input (turn (n + 1))] := by
      rw [typing, List.range_succ, List.map_append]
      rfl
    rw [hevents, run?_concat, hrun, Option.bind_some, step?, hhandle]
    exact ⟨_, rfl, hq⟩

end History

end ScriptEditor

namespace ScriptEditor.History

/-- Offsets within characters, in the wrong order, a tab, and a text in which the caret behind the
tab is within a character. -/
def reselecting : List Page.Event :=
  [.input "→é".toList, .select 4 1, .tab, .input "→é".toList]

theorem run?_selects_reselecting : ∃ (h : History) (change? : Option Change) (q : Page),
    (start .standard "abc".toList).run? reselecting = some h ∧
      h.page.selection = .caret 3 ∧ h.page.selection.IsWithin h.page.text ∧
      h.page.handle? .tab = some (change?, q) ∧ h.page.Selects q .tab := by
  have hend : ((start .standard "abc".toList).run? reselecting).bind (fun h =>
      (h.page.handle? .tab).map fun _ => h.page.selection) = some (.caret 3) := by
    decide +kernel
  obtain ⟨h, hrun, hmap⟩ := Option.bind_eq_some_iff.1 hend
  obtain ⟨⟨change?, q⟩, hhandle, hselection⟩ := Option.map_eq_some_iff.1 hmap
  obtain ⟨-, hselects⟩ := run?_selects .standard "abc".toList reselecting
  obtain ⟨hwithin, -, hevents⟩ := hselects h hrun
  exact ⟨h, change?, q, hrun, hselection, hwithin, hhandle, (hevents .tab).2 change? q hhandle⟩

/-- The painter has made 2 ^ 32 - 1 passes, and makes no more: a tab that fits into memory fails. -/
theorem run?_typing : Settings.standard.tabWidth ≤ Settings.maxBytes ∧
    ∃ h, (start .standard []).run? (typing (Duration.countLimit - 2)) = some h ∧ h.page.text = [] ∧
      h.page.selection.IsWithin h.page.text ∧ h.page.handle? .tab = none := by
  have hfits : Settings.standard.tabWidth ≤ Settings.maxBytes := by decide
  obtain ⟨h, hrun, hp⟩ := exists_run?_typing (n := Duration.countLimit - 2) (by decide)
  have hselected := isIn_run? (isIn_start .standard []) hrun
  obtain ⟨front, removed, behind, htext, hselection⟩ := hselected.exists_parts
  refine ⟨hfits, h, hrun, hp.text_eq, hselected.isWithin,
    (Page.handle?_eq_none_iff hselected).2 (.inr ?_)⟩
  -- The text is longer by the tab than the one that the painter remembers.
  have hsettings := hp.settings_eq
  rw [← hsettings] at hfits
  refine ⟨_, Page.aim?_tab_of_parts hfits htext hselection, ?_, ?_⟩
  · apply hp.misses
    rw [byteLength_turn, Text.byteLength_append, Text.byteLength_append, Page.byteLength_spaces,
      hsettings]
    have hwidth : Settings.standard.tabWidth = 4 := rfl
    omega
  · rw [hp.passes_eq]
    rfl

end ScriptEditor.History
