import Mathlib.Algebra.Ring.Nat
import ScriptEditor.Proofs.Painting

/-! The counts of a painter, told from its commands alone. -/

namespace ScriptEditor

namespace Painter

/-- Whether a painter is enabled after the commands; it was enabled at first. -/
def isEnabledAfter : List Command → Bool
  | [] => true
  | .enable enabled :: _ => enabled
  | .paint _ :: past | .setSheet _ :: past | .resetCounts :: past | .forget :: past =>
    isEnabledAfter past

/-- The text of the latest request to the enabled painter, unless the sheet was replaced or the
memory emptied since. -/
def lastRequest? : List Command → Option Text
  | [] => none
  | .paint source :: past => if isEnabledAfter past then some source else lastRequest? past
  | .setSheet _ :: _ | .forget :: _ => none
  | .enable _ :: past | .resetCounts :: past => lastRequest? past

/-- A text that an enabled painter is asked for, and whether it was asked for it the last time too. -/
structure Request where
  source : Text
  isRepeated : Bool
deriving DecidableEq, Repr

/-- The requests to the enabled painter since the counts were reset, the latest first. -/
def requests : List Command → List Request
  | [] => []
  | .resetCounts :: _ => []
  | .paint source :: past =>
    if isEnabledAfter past then ⟨source, lastRequest? past = some source⟩ :: requests past
    else requests past
  | .enable _ :: past | .setSheet _ :: past | .forget :: past => requests past

/-- The counts that requests come to. -/
def countsOf : List Request → Counts
  | [] => {}
  | r :: earlier =>
    if r.isRepeated then (countsOf earlier).hit
    else (countsOf earlier).miss.pass (lex r.source).length

theorem hits_countsOf (rs : List Request) : (countsOf rs).hits = rs.countP Request.isRepeated := by
  induction rs with
  | nil => rfl
  | cons r earlier ih =>
    rw [countsOf, List.countP_cons]
    split
    · exact congrArg (· + 1) ih
    · exact ih

theorem misses_countsOf (rs : List Request) : (countsOf rs).misses = rs.countP (!·.isRepeated) := by
  induction rs with
  | nil => rfl
  | cons r earlier ih =>
    rw [countsOf, List.countP_cons]
    cases r.isRepeated with
    | true => exact ih
    | false => exact congrArg (· + 1) ih

theorem passes_countsOf (rs : List Request) : (countsOf rs).passes = (countsOf rs).misses := by
  induction rs with
  | nil => rfl
  | cons r earlier ih =>
    rw [countsOf]
    split
    · exact ih
    · exact congrArg (· + 1) ih

theorem tokens_countsOf (rs : List Request) :
    (countsOf rs).tokens =
      ((rs.filter (!·.isRepeated)).map fun r => (lex r.source).length).sum := by
  induction rs with
  | nil => rfl
  | cons r earlier ih =>
    rw [countsOf, List.filter_cons]
    cases r.isRepeated with
    | true => exact ih
    | false =>
      change (countsOf earlier).tokens + (lex r.source).length = _
      rw [ih, Nat.add_comm]
      rfl

variable [Fingerprint]

/-- The painter is one that obeyed the commands: it is enabled as they say, it remembers the last
request, which is one of the texts, and it has counted them all. -/
structure Obeyed (texts : List Text) (past : List Command) (p : Painter) : Prop where
  enabled_eq : p.enabled = isEnabledAfter past
  last_eq : p.last = (lastRequest? past).map (Memory.of p.sheet)
  last_mem : ∀ t ∈ lastRequest? past, t ∈ texts
  counts_eq : p.counts = countsOf (requests past)

variable {texts : List Text} {past : List Command} {p : Painter} {source : Text}

theorem Obeyed.paint_disabled (h : Obeyed texts past p) (henabled : isEnabledAfter past = false) :
    p.paint source = (Markup.plain source, p) :=
  paint_of_disabled (h.enabled_eq.trans henabled) source

theorem Obeyed.paint_repeated (h : Obeyed texts past p) (henabled : isEnabledAfter past)
    (hlast : lastRequest? past = some source) :
    p.paint source = (Markup.ofSource p.sheet source, { p with counts := p.counts.hit }) := by
  have hmemory := h.last_eq
  rw [hlast] at hmemory
  exact paint_shown (h.enabled_eq.trans henabled) hmemory

theorem Obeyed.paint_new (h : Obeyed texts past p) (henabled : isEnabledAfter past)
    (hlast : lastRequest? past ≠ some source) (hseparates : Fingerprint.Separates texts)
    (hsource : source ∈ texts) :
    p.paint source = (Markup.ofSource p.sheet source, { p with
      last := some (Memory.of p.sheet source)
      counts := p.counts.miss.pass (lex source).length }) :=
  paint_other (h.enabled_eq.trans henabled) h.last_eq h.last_mem hlast hseparates hsource

theorem obeyed_start (texts : List Text) (sheet : StyleSheet) : Obeyed texts [] { sheet } where
  enabled_eq := rfl
  last_eq := rfl
  last_mem := by
    intro t ht
    cases ht
  counts_eq := rfl

theorem Obeyed.paints (h : Obeyed texts past p) (hseparates : Fingerprint.Separates texts)
    (hsource : source ∈ texts) : Obeyed texts (.paint source :: past) (p.paint source).2 := by
  by_cases henabled : isEnabledAfter past
  · have hrequest : lastRequest? (.paint source :: past) = some source := if_pos henabled
    have hmem : ∀ t ∈ lastRequest? (.paint source :: past), t ∈ texts := by
      rw [hrequest]
      intro t ht
      exact Option.some.inj ht ▸ hsource
    have hrequests : requests (.paint source :: past) =
        ⟨source, lastRequest? past = some source⟩ :: requests past := if_pos henabled
    by_cases hlast : lastRequest? past = some source
    · -- A hit: the memory stays, and is that of the request already.
      rw [h.paint_repeated henabled hlast]
      refine ⟨h.enabled_eq, ?_, hmem, ?_⟩
      · rw [hrequest, ← hlast]
        exact h.last_eq
      · rw [hrequests, countsOf, if_pos (decide_eq_true hlast)]
        exact congrArg Counts.hit h.counts_eq
    · rw [h.paint_new henabled hlast hseparates hsource]
      refine ⟨h.enabled_eq, ?_, hmem, ?_⟩
      · rw [hrequest]
        rfl
      · rw [hrequests, countsOf, if_neg (by simpa using hlast)]
        exact congrArg (fun n => n.miss.pass (lex source).length) h.counts_eq
  · -- Nothing changes, and looking back nothing is seen of the command.
    have hrequest : lastRequest? (.paint source :: past) = lastRequest? past := if_neg henabled
    have hrequests : requests (.paint source :: past) = requests past := if_neg henabled
    rw [h.paint_disabled (Bool.eq_false_iff.2 henabled)]
    refine ⟨h.enabled_eq, ?_, ?_, ?_⟩
    · rw [hrequest]
      exact h.last_eq
    · rw [hrequest]
      exact h.last_mem
    · rw [hrequests]
      exact h.counts_eq

theorem Obeyed.obeys (h : Obeyed texts past p) (hseparates : Fingerprint.Separates texts)
    (command : Command) (hcommand : ∀ source ∈ command.source?, source ∈ texts) :
    Obeyed texts (command :: past) (p.obey command).2 := by
  cases command with
  | paint source => exact h.paints hseparates (hcommand source rfl)
  | enable enabled => exact { h with enabled_eq := rfl }
  | setSheet sheet =>
    exact { h with
      last_eq := rfl
      last_mem := by
        intro t ht
        cases ht }
  | resetCounts => exact { h with counts_eq := rfl }
  | forget =>
    exact { h with
      last_eq := rfl
      last_mem := by
        intro t ht
        cases ht }

theorem Obeyed.runs (h : Obeyed texts past p) (hseparates : Fingerprint.Separates texts)
    (commands : List Command)
    (hcommands : ∀ command ∈ commands, ∀ source ∈ command.source?, source ∈ texts) :
    Obeyed texts (commands.reverse ++ past) (p.run commands).2 := by
  induction commands generalizing past p with
  | nil => exact h
  | cons command rest ih =>
    have hnow := h.obeys hseparates command (hcommands command List.mem_cons_self)
    have hlater := ih hnow fun c hc => hcommands c (List.mem_cons_of_mem command hc)
    rw [List.reverse_cons, List.append_assoc]
    exact hlater

/-- The counts are those of the requests since the last reset: each of them is a hit or a miss, and
each miss is one pass, over all tokens of its text. -/
structure CountsRequests (past : List Command) (p : Painter) : Prop where
  hits_eq : p.counts.hits = (requests past).countP Request.isRepeated
  misses_eq : p.counts.misses = (requests past).countP (!·.isRepeated)
  all_eq : p.counts.hits + p.counts.misses = (requests past).length
  passes_eq : p.counts.passes = p.counts.misses
  tokens_eq : p.counts.tokens =
    (((requests past).filter (!·.isRepeated)).map fun r => (lex r.source).length).sum

/-- What painting the text changes, after the commands: nothing if the painter is not enabled, one
hit if the text is the last request, and else one miss with its pass. -/
structure CountsNext (past : List Command) (source : Text) (p : Painter) : Prop where
  disabled : isEnabledAfter past = false → (p.paint source).2 = p
  repeated : isEnabledAfter past = true → lastRequest? past = some source →
    (p.paint source).2 = { p with counts := { p.counts with hits := p.counts.hits + 1 } }
  new : isEnabledAfter past = true → lastRequest? past ≠ some source →
    (p.paint source).2.counts = { p.counts with
      misses := p.counts.misses + 1
      passes := p.counts.passes + 1
      tokens := p.counts.tokens + (lex source).length }

theorem Obeyed.countsRequests (h : Obeyed texts past p) : p.CountsRequests past := by
  have hhits : p.counts.hits = (requests past).countP Request.isRepeated := by
    rw [h.counts_eq, hits_countsOf]
  have hmisses : p.counts.misses = (requests past).countP (!·.isRepeated) := by
    rw [h.counts_eq, misses_countsOf]
  refine ⟨hhits, hmisses, ?_, ?_, ?_⟩
  · rw [hhits, hmisses, List.length_eq_countP_add_countP Request.isRepeated]
    simp only [Bool.not_eq_true, Bool.decide_eq_false]
  · rw [h.counts_eq, passes_countsOf]
  · rw [h.counts_eq, tokens_countsOf]

theorem Obeyed.countsNext (h : Obeyed texts past p) (hseparates : Fingerprint.Separates texts)
    (hsource : source ∈ texts) : p.CountsNext past source where
  disabled henabled := by rw [h.paint_disabled henabled]
  repeated henabled hlast := by
    rw [h.paint_repeated henabled hlast]
    rfl
  new henabled hlast := by
    rw [h.paint_new henabled hlast hseparates hsource]
    rfl

/-- However the commands follow each other, the painter has counted its requests since the last reset,
and counts the next one by what was asked for before. -/
theorem run_countsRequests (sheet : StyleSheet) (commands : List Command) (source : Text)
    (hseparates : Fingerprint.Separates (source :: commands.filterMap Command.source?)) :
    (({ sheet } : Painter).run commands).2.CountsRequests commands.reverse ∧
    (({ sheet } : Painter).run commands).2.CountsNext commands.reverse source := by
  have hcommands := mem_texts_of_source? commands (List.subset_cons_self source _)
  have hobeyed := (obeyed_start _ sheet).runs hseparates commands hcommands
  rw [List.append_nil] at hobeyed
  exact ⟨hobeyed.countsRequests, hobeyed.countsNext hseparates List.mem_cons_self⟩

end Painter

end ScriptEditor

namespace ScriptEditor.Painter

/-- A text is asked for again after it was asked for in vain, after a reset, under another sheet and
with an emptied memory. -/
def resetting : List Command :=
  [.paint "if".toList, .paint "x<".toList, .enable false, .paint "if".toList, .enable true,
    .paint "x<".toList, .resetCounts, .paint "x<".toList,
    .setSheet (StyleSheet.standard.insert .keyword "k".toList), .paint "x<".toList, .forget,
    .paint "x<".toList]

theorem run_countsRequests_resetting :
    Fingerprint.Separates ("x<".toList :: resetting.filterMap Command.source?) ∧
    requests resetting.reverse =
      [⟨"x<".toList, false⟩, ⟨"x<".toList, false⟩, ⟨"x<".toList, true⟩] ∧
    lastRequest? resetting.reverse = some "x<".toList ∧
    (({ sheet := .standard } : Painter).run resetting).2.CountsRequests resetting.reverse ∧
    (({ sheet := .standard } : Painter).run resetting).2.CountsNext resetting.reverse
      "x<".toList := by
  have hseparates :
      Fingerprint.Separates ("x<".toList :: resetting.filterMap Command.source?) := by
    decide +kernel
  exact ⟨hseparates, by decide, by decide,
    run_countsRequests .standard resetting "x<".toList hseparates⟩

end ScriptEditor.Painter
