import ScriptEditor.Page

namespace ScriptEditor

/-- The text that the command asks to paint. -/
def Painter.Command.source? : Command → Option Text
  | .paint source => some source
  | _ => none

theorem Painter.mem_texts_of_source? {texts : List Text} (commands : List Command)
    (hsub : commands.filterMap Command.source? ⊆ texts) :
    ∀ command ∈ commands, ∀ source ∈ command.source?, source ∈ texts := by
  intro command hcommand source hsource
  exact hsub (List.mem_filterMap.2 ⟨command, hcommand, hsource⟩)

/-- What decides how a text is shown: the sheet in force, and whether there are styles at all. -/
structure Mode where
  sheet : StyleSheet
  enabled : Bool

namespace Mode

/-- The markup of a text, painted afresh. -/
def markup (mode : Mode) (source : Text) : Text :=
  if mode.enabled then Markup.ofSource mode.sheet source else Markup.plain source

/-- The mode in force after a command. -/
def after (mode : Mode) : Painter.Command → Mode
  | .paint _ => mode
  | .enable enabled => { mode with enabled }
  | .setSheet sheet => { mode with sheet }
  | .resetCounts => mode
  | .forget => mode

/-- The answers to a run of commands, where each text is painted afresh in the mode in force. -/
def answers (mode : Mode) : List Painter.Command → List (Option Text)
  | [] => []
  | command :: rest => command.source?.map mode.markup :: answers (mode.after command) rest

end Mode

variable [Fingerprint]

namespace Painter

/-- The answers to a run of commands, and the painter afterwards, if no request goes unanswered. -/
def run (p : Painter) : List Command → List (Option Text) × Painter
  | [] => ([], p)
  | command :: rest =>
    let now := p.obey command
    let later := run now.2 rest
    (now.1 :: later.1, later.2)

def mode (p : Painter) : Mode := ⟨p.sheet, p.enabled⟩

theorem knows_iff {m : Memory} {source : Text} :
    m.knows source ↔ m.fingerprint = Fingerprint.ofText source ∧ m.bytes = source.byteLength := by
  rw [Memory.knows, Bool.and_eq_true, beq_iff_eq, beq_iff_eq]

/-- The memory of a text that was painted afresh. -/
def Memory.of (sheet : StyleSheet) (source : Text) : Memory :=
  ⟨Fingerprint.ofText source, source.byteLength, Markup.ofSource sheet source⟩

theorem paint_of_disabled {p : Painter} (h : p.enabled = false) (source : Text) :
    p.paint source = (Markup.plain source, p) := by
  rw [paint, h]
  rfl

theorem paint_of_known {p : Painter} (h : p.enabled) {m : Memory} (hlast : p.last = some m)
    {source : Text} (hm : m.knows source) :
    p.paint source = (m.markup, { p with counts := p.counts.hit }) := by
  have hsome : p.last.filter (·.knows source) = some m := by
    rw [hlast]
    simp [hm]
  rw [paint, if_pos h, hsome]

theorem paint_of_unknown {p : Painter} (h : p.enabled) {source : Text}
    (hlast : ∀ m ∈ p.last, ¬ m.knows source) :
    p.paint source = (Markup.ofSource p.sheet source, { p with
      last := some (Memory.of p.sheet source)
      counts := p.counts.miss.pass (lex source).length }) := by
  have hnone : p.last.filter (·.knows source) = none := by
    rw [Option.filter_eq_none_iff]
    exact hlast
  rw [paint, if_pos h, hnone]
  rfl

/-- A request for the text takes a pass over it. -/
def Misses (p : Painter) (source : Text) : Prop := p.enabled ∧ ∀ m ∈ p.last, ¬ m.knows source

theorem passes_paint_of_misses {p : Painter} {source : Text} (h : p.Misses source) :
    (p.paint source).2.counts.passes = p.counts.passes + 1 := by
  rw [paint_of_unknown h.1 h.2]
  rfl

theorem passes_paint_of_not_misses {p : Painter} {source : Text} (h : ¬ p.Misses source) :
    (p.paint source).2.counts.passes = p.counts.passes := by
  by_cases henabled : p.enabled
  · by_cases hknown : ∃ m ∈ p.last, m.knows source
    · obtain ⟨m, hlast, hm⟩ := hknown
      rw [paint_of_known henabled hlast hm]
      rfl
    · exact absurd ⟨henabled, fun m hm hknows => hknown ⟨m, hm, hknows⟩⟩ h
  · rw [paint_of_disabled (Bool.eq_false_iff.2 henabled)]

theorem passes_paint_le (p : Painter) (source : Text) :
    (p.paint source).2.counts.passes ≤ p.counts.passes + 1 := by
  by_cases h : p.Misses source
  · exact Nat.le_of_eq (passes_paint_of_misses h)
  · rw [passes_paint_of_not_misses h]
    exact Nat.le_succ _

theorem eq_paint_of_paint? {p : Painter} {source : Text} {r : Text × Painter}
    (h : p.paint? source = some r) : r = p.paint source := by
  unfold paint? at h
  dsimp only at h
  split at h
  case isTrue => cases h
  case isFalse => exact (Option.some.inj h).symm

/-- A request goes unanswered only for the number of its pass. -/
theorem paint?_eq_none_iff {p : Painter} {source : Text} :
    p.paint? source = none ↔
      p.Misses source ∧ (p.counts.passes + 1) % Duration.countLimit = 0 := by
  rw [← Duration.canDivide_eq_false_iff]
  by_cases h : p.Misses source
  · simp [paint?, passes_paint_of_misses h, h]
  · simp [paint?, passes_paint_of_not_misses h, h]

theorem paint?_eq_some {p : Painter} {source : Text}
    (h : p.Misses source → Duration.canDivide (p.counts.passes + 1)) :
    p.paint? source = some (p.paint source) := by
  have hsome : p.paint? source ≠ none := by
    intro hnone
    obtain ⟨hmisses, hcount⟩ := paint?_eq_none_iff.1 hnone
    exact absurd (h hmisses) (Bool.eq_false_iff.1 (Duration.canDivide_eq_false_iff.2 hcount))
  obtain ⟨r, hr⟩ := Option.ne_none_iff_exists'.1 hsome
  rw [hr, eq_paint_of_paint? hr]

/-- What is remembered is what one of the texts looks like under the sheet in force. -/
def Remembers (texts : List Text) (p : Painter) : Prop :=
  ∀ m ∈ p.last, ∃ t ∈ texts, m = Memory.of p.sheet t

theorem remembers_of_none {p : Painter} (h : p.last = none) (texts : List Text) :
    p.Remembers texts := by
  intro m hm
  rw [h] at hm
  cases hm

theorem Remembers.mono {texts more : List Text} {p : Painter} (h : p.Remembers texts)
    (hsub : texts ⊆ more) : p.Remembers more := by
  intro m hm
  obtain ⟨t, ht, hof⟩ := h m hm
  exact ⟨t, hsub ht, hof⟩

/-- A memory that knows a text is the memory of that text, if fingerprints tell the texts apart. -/
theorem eq_of_knows {texts : List Text} (hseparates : Fingerprint.Separates texts) {sheet : StyleSheet}
    {s t : Text} (hs : s ∈ texts) (ht : t ∈ texts) (hm : (Memory.of sheet t).knows s) : t = s := by
  obtain ⟨hprint, hbytes⟩ := knows_iff.1 hm
  exact hseparates t ht s hs hbytes hprint

variable {texts : List Text} {p : Painter}

/-- The text that was painted last is known again. -/
theorem paint_shown (henabled : p.enabled) {shown : Text}
    (hlast : p.last = some (Memory.of p.sheet shown)) :
    p.paint shown = (Markup.ofSource p.sheet shown, { p with counts := p.counts.hit }) :=
  paint_of_known henabled hlast (knows_iff.2 ⟨rfl, rfl⟩)

/-- No other text is taken for it. -/
theorem misses_other (henabled : p.enabled) {shown? : Option Text}
    (hlast : p.last = shown?.map (Memory.of p.sheet)) (hshown : ∀ t ∈ shown?, t ∈ texts)
    {source : Text} (hne : shown? ≠ some source) (hseparates : Fingerprint.Separates texts)
    (hsource : source ∈ texts) : p.Misses source := by
  refine ⟨henabled, ?_⟩
  intro m hm hknows
  rw [hlast] at hm
  obtain ⟨t, ht, rfl⟩ := Option.map_eq_some_iff.1 hm
  have heq : t = source := eq_of_knows hseparates hsource (hshown t ht) hknows
  exact hne (heq ▸ ht)

theorem paint_of_misses {source : Text} (h : p.Misses source) :
    p.paint source = (Markup.ofSource p.sheet source, { p with
      last := some (Memory.of p.sheet source)
      counts := p.counts.miss.pass (lex source).length }) :=
  paint_of_unknown h.1 h.2

theorem paint_other (henabled : p.enabled) {shown? : Option Text}
    (hlast : p.last = shown?.map (Memory.of p.sheet)) (hshown : ∀ t ∈ shown?, t ∈ texts)
    {source : Text} (hne : shown? ≠ some source) (hseparates : Fingerprint.Separates texts)
    (hsource : source ∈ texts) :
    p.paint source = (Markup.ofSource p.sheet source, { p with
      last := some (Memory.of p.sheet source)
      counts := p.counts.miss.pass (lex source).length }) :=
  paint_of_misses (misses_other henabled hlast hshown hne hseparates hsource)

/-- What is painted is the markup of one of the texts, which a memory of it takes for the source. -/
theorem exists_markup_paint (hp : p.Remembers texts) {source : Text} (hsource : source ∈ texts) :
    ∃ t ∈ texts, (Memory.of p.sheet t).knows source ∧ (p.paint source).1 = p.mode.markup t := by
  have hitself : (Memory.of p.sheet source).knows source := knows_iff.2 ⟨rfl, rfl⟩
  by_cases henabled : p.enabled
  · have hmode (t : Text) : p.mode.markup t = Markup.ofSource p.sheet t := if_pos henabled
    by_cases hknown : ∃ m ∈ p.last, m.knows source
    · obtain ⟨m, hlast, hm⟩ := hknown
      obtain ⟨t, ht, rfl⟩ := hp m hlast
      refine ⟨t, ht, hm, ?_⟩
      rw [paint_of_known henabled hlast hm, hmode]
      rfl
    · have hlast : ∀ m ∈ p.last, ¬ m.knows source := fun m hm h => hknown ⟨m, hm, h⟩
      refine ⟨source, hsource, hitself, ?_⟩
      rw [paint_of_unknown henabled hlast, hmode]
  · have hmode : p.mode.markup source = Markup.plain source := if_neg henabled
    refine ⟨source, hsource, hitself, ?_⟩
    rw [paint_of_disabled (Bool.eq_false_iff.2 henabled), hmode]

theorem markup_paint (hseparates : Fingerprint.Separates texts) (hp : p.Remembers texts)
    {source : Text} (hsource : source ∈ texts) : (p.paint source).1 = p.mode.markup source := by
  obtain ⟨t, ht, hknows, hmarkup⟩ := exists_markup_paint hp hsource
  rw [hmarkup, eq_of_knows hseparates hsource ht hknows]

theorem remembers_paint (hp : p.Remembers texts) {source : Text} (hsource : source ∈ texts) :
    (p.paint source).2.Remembers texts := by
  by_cases henabled : p.enabled
  · by_cases hknown : ∃ m ∈ p.last, m.knows source
    · obtain ⟨m, hlast, hm⟩ := hknown
      rw [paint_of_known henabled hlast hm]
      exact hp
    · have hlast : ∀ m ∈ p.last, ¬ m.knows source := fun m hm h => hknown ⟨m, hm, h⟩
      rw [paint_of_unknown henabled hlast]
      intro m hm
      exact ⟨source, hsource, (Option.some.inj hm).symm⟩
  · rw [paint_of_disabled (Bool.eq_false_iff.2 henabled)]
    exact hp

theorem mode_paint (p : Painter) (source : Text) : (p.paint source).2.mode = p.mode := by
  unfold paint
  split
  · split <;> rfl
  · rfl

theorem exists_layer_paintLayer (hp : p.Remembers texts) {settings : Settings}
    (hmode : p.mode = ⟨.standard, settings.styled⟩) {source : Text} (hsource : source ∈ texts) :
    ∃ t ∈ texts, Fingerprint.ofText t = Fingerprint.ofText source ∧ t.byteLength = source.byteLength ∧
      (p.paintLayer settings source).1 = ⟨(Layer.ofText settings t).markup, source.gutter⟩ := by
  obtain ⟨t, ht, hknows, hmarkup⟩ := exists_markup_paint hp hsource
  obtain ⟨hprint, hbytes⟩ := knows_iff.1 hknows
  rw [hmode] at hmarkup
  refine ⟨t, ht, hprint, hbytes, ?_⟩
  exact congrArg (fun markup => (⟨markup ++ settings.trailing, source.gutter⟩ : Layer)) hmarkup

theorem layer_paintLayer (hseparates : Fingerprint.Separates texts) (hp : p.Remembers texts)
    {settings : Settings} (hmode : p.mode = ⟨.standard, settings.styled⟩) {source : Text}
    (hsource : source ∈ texts) :
    (p.paintLayer settings source).1 = Layer.ofText settings source := by
  obtain ⟨t, ht, hprint, hbytes, hlayer⟩ := exists_layer_paintLayer hp hmode hsource
  obtain rfl : t = source := hseparates t ht source hsource hbytes hprint
  exact hlayer

/-- A text is told apart from all others as long as there are none. -/
theorem separates_singleton (text : Text) : Fingerprint.Separates [text] := by
  intro s hs t ht _ _
  rw [List.mem_singleton.1 hs, List.mem_singleton.1 ht]

theorem layer_pageOfText (settings : Settings) (text : Text) :
    (Page.ofText settings text).layer = Layer.ofText settings text := by
  apply layer_paintLayer (separates_singleton text)
  · exact remembers_of_none rfl [text]
  · rfl
  · exact List.mem_cons_self

/-- Every command keeps what is remembered right: a new sheet comes with an empty memory, and no
other command but painting touches either. -/
theorem remembers_obey (hp : p.Remembers texts) (command : Command)
    (hcommand : ∀ source ∈ command.source?, source ∈ texts) :
    (p.obey command).2.Remembers texts := by
  cases command with
  | paint source => exact remembers_paint hp (hcommand source rfl)
  | enable enabled => exact hp
  | setSheet sheet => exact remembers_of_none rfl texts
  | resetCounts => exact hp
  | forget => exact remembers_of_none rfl texts

theorem mode_obey (p : Painter) (command : Command) :
    (p.obey command).2.mode = p.mode.after command := by
  cases command with
  | paint source => exact mode_paint p source
  | enable enabled => rfl
  | setSheet sheet => rfl
  | resetCounts => rfl
  | forget => rfl

theorem answer_obey (hseparates : Fingerprint.Separates texts) (hp : p.Remembers texts)
    (command : Command) (hcommand : ∀ source ∈ command.source?, source ∈ texts) :
    (p.obey command).1 = command.source?.map p.mode.markup := by
  cases command with
  | paint source => exact congrArg some (markup_paint hseparates hp (hcommand source rfl))
  | enable enabled => rfl
  | setSheet sheet => rfl
  | resetCounts => rfl
  | forget => rfl

theorem remembers_run (hp : p.Remembers texts) (commands : List Command)
    (hcommands : ∀ command ∈ commands, ∀ source ∈ command.source?, source ∈ texts) :
    (p.run commands).2.Remembers texts := by
  induction commands generalizing p with
  | nil => exact hp
  | cons command rest ih =>
    have hnow := remembers_obey hp command (hcommands command List.mem_cons_self)
    exact ih hnow fun c hc => hcommands c (List.mem_cons_of_mem command hc)

theorem answers_run (hseparates : Fingerprint.Separates texts) (hp : p.Remembers texts)
    (commands : List Command)
    (hcommands : ∀ command ∈ commands, ∀ source ∈ command.source?, source ∈ texts) :
    (p.run commands).1 = p.mode.answers commands := by
  induction commands generalizing p with
  | nil => rfl
  | cons command rest ih =>
    have hnow := hcommands command List.mem_cons_self
    have hlater := ih (remembers_obey hp command hnow) fun c hc =>
      hcommands c (List.mem_cons_of_mem command hc)
    rw [run, Mode.answers, answer_obey hseparates hp command hnow, hlater, mode_obey]

theorem eq_obey_of_obey? {command : Command} {r : Option Text × Painter}
    (h : p.obey? command = some r) : r = p.obey command := by
  cases command with
  | paint source =>
    obtain ⟨painted, hpaint, rfl⟩ := Option.map_eq_some_iff.1 h
    rw [eq_paint_of_paint? hpaint]
    rfl
  | _ => exact (Option.some.inj h).symm

theorem run?_cons_eq_some_iff {command : Command} {commands : List Command}
    {r : List (Option Text) × Painter} :
    p.run? (command :: commands) = some r ↔
      ∃ now later, p.obey? command = some now ∧ now.2.run? commands = some later ∧
        r = (now.1 :: later.1, later.2) := by
  simp only [run?, Option.bind_eq_bind, Option.bind_eq_some_iff, Option.pure_def, Option.some.injEq]
  constructor
  · rintro ⟨now, hnow, later, hlater, rfl⟩
    exact ⟨now, later, hnow, hlater, rfl⟩
  · rintro ⟨now, later, hnow, hlater, rfl⟩
    exact ⟨now, hnow, later, hlater, rfl⟩

theorem eq_run_of_run? {commands : List Command} {r : List (Option Text) × Painter}
    (h : p.run? commands = some r) : r = p.run commands := by
  induction commands generalizing p r with
  | nil => exact (Option.some.inj h).symm
  | cons command rest ih =>
    obtain ⟨now, later, hnow, hlater, rfl⟩ := run?_cons_eq_some_iff.1 h
    rw [ih hlater, eq_obey_of_obey? hnow]
    rfl

end Painter

end ScriptEditor
