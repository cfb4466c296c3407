import ScriptEditor.Proofs.Counting

/-! A painter answers until the number of its passes is one by which no span can be divided. -/

namespace ScriptEditor

/-- The empty text and another one, in turn. -/
def turn (i : Nat) : Text := if i % 2 = 0 then [] else ['a']

def turns (n : Nat) : List Text := (List.range n).map turn

theorem byteLength_turn (i : Nat) : (turn i).byteLength = i % 2 := by
  rw [turn]
  split
  case isTrue h => exact h.symm
  case isFalse h => exact (Nat.mod_two_ne_zero.1 h).symm

theorem turn_succ_ne (i : Nat) : turn (i + 1) ≠ turn i := by
  intro h
  have hbytes := congrArg Text.byteLength h
  rw [byteLength_turn, byteLength_turn] at hbytes
  omega

theorem turns_succ (n : Nat) : turns (n + 1) = turns n ++ [turn n] := by
  rw [turns, List.range_succ, List.map_append]
  rfl

theorem eq_of_mem_turns {n : Nat} {t : Text} (h : t ∈ turns n) : t = [] ∨ t = ['a'] := by
  obtain ⟨i, -, rfl⟩ := List.mem_map.1 h
  rw [turn]
  split
  · exact .inl rfl
  · exact .inr rfl

/-- The two texts have different lengths, so every fingerprint tells them apart. -/
theorem separates_turns [Fingerprint] (n : Nat) : Fingerprint.Separates (turns n) := by
  intro s hs t ht hbytes _
  rcases eq_of_mem_turns hs with rfl | rfl <;> rcases eq_of_mem_turns ht with rfl | rfl
  · rfl
  · cases hbytes
  · cases hbytes
  · rfl

namespace Painter

/-- How many requests took a pass since the last reset; the latest command comes first. -/
def passesSince (past : List Command) : Nat := (requests past).countP (!·.isRepeated)

/-- At any time the passes since the last reset can be counted with 32 bits. -/
def StaysCountable (commands : List Command) : Prop :=
  ∀ past, past <+: commands → passesSince past.reverse < Duration.countLimit

theorem length_requests_le (past : List Command) : (requests past).length ≤ past.length := by
  induction past with
  | nil => exact Nat.le_refl 0
  | cons command past ih =>
    cases command with
    | paint source =>
      rw [requests]
      split
      · exact Nat.succ_le_succ ih
      · exact Nat.le_succ_of_le ih
    | resetCounts => exact Nat.zero_le _
    | _ => exact Nat.le_succ_of_le ih

/-- Runs of fewer than 2 ^ 32 commands are short enough. -/
theorem staysCountable_of_length_lt {commands : List Command}
    (h : commands.length < Duration.countLimit) : StaysCountable commands := by
  intro past hpast
  have hrequests : passesSince past.reverse ≤ (requests past.reverse).length := List.countP_le_length
  have hpassed := length_requests_le past.reverse
  have hlength := hpast.length_le
  rw [List.length_reverse] at hpassed
  omega

section

variable [Fingerprint] {texts : List Text} {past : List Command} {p : Painter}

theorem Obeyed.passes_eq (h : Obeyed texts past p) : p.counts.passes = passesSince past :=
  h.countsRequests.passes_eq.trans h.countsRequests.misses_eq

theorem Obeyed.obey?_eq_none_iff (h : Obeyed texts past p) (hseparates : Fingerprint.Separates texts)
    (hfew : passesSince past < Duration.countLimit) (command : Command)
    (hcommand : ∀ source ∈ command.source?, source ∈ texts) :
    p.obey? command = none ↔ ¬ passesSince (command :: past) < Duration.countLimit := by
  have hnow := h.obeys hseparates command hcommand
  cases command with
  | paint source =>
    have hcount : (p.paint source).2.counts.passes = passesSince (.paint source :: past) :=
      hnow.passes_eq
    rw [← hcount, obey?, Option.map_eq_none_iff, paint?_eq_none_iff]
    by_cases hmisses : p.Misses source
    · -- Up to now the count was below the limit, so the next one can fail only by reaching it.
      have hbefore : p.counts.passes < Duration.countLimit := h.passes_eq ▸ hfew
      rw [passes_paint_of_misses hmisses, ← Duration.canDivide_succ_iff hbefore, Bool.not_eq_true,
        Duration.canDivide_eq_false_iff]
      exact and_iff_right hmisses
    · rw [passes_paint_of_not_misses hmisses, h.passes_eq]
      exact iff_of_false (fun hnone => hmisses hnone.1) (not_not_intro hfew)
  | resetCounts =>
    have hzero : 0 < Duration.countLimit := by decide
    exact iff_of_false (Option.some_ne_none _) (not_not_intro hzero)
  | _ => exact iff_of_false (Option.some_ne_none _) (not_not_intro hfew)

theorem Obeyed.exists_run?_iff (h : Obeyed texts past p) (hseparates : Fingerprint.Separates texts)
    (hfew : passesSince past < Duration.countLimit) (commands : List Command)
    (hcommands : ∀ command ∈ commands, ∀ source ∈ command.source?, source ∈ texts) :
    (∃ r, p.run? commands = some r) ↔
      ∀ front, front <+: commands → passesSince (front.reverse ++ past) < Duration.countLimit := by
  induction commands generalizing past p with
  | nil =>
    constructor
    · intro _ front hfront
      rw [List.prefix_nil.1 hfront]
      exact hfew
    · exact fun _ => ⟨([], p), rfl⟩
  | cons command rest ih =>
    have hcommand := hcommands command List.mem_cons_self
    have hrest : ∀ c ∈ rest, ∀ source ∈ c.source?, source ∈ texts :=
      fun c hc => hcommands c (List.mem_cons_of_mem command hc)
    have hfails := h.obey?_eq_none_iff hseparates hfew command hcommand
    have hobeyed := h.obeys hseparates command hcommand
    have hreverse (front : List Command) :
        (command :: front).reverse ++ past = front.reverse ++ command :: past := by
      rw [List.reverse_cons, List.append_assoc]
      rfl
    constructor
    · rintro ⟨r, hr⟩
      obtain ⟨now, later, hnow, hlater, -⟩ := run?_cons_eq_some_iff.1 hr
      have hnext : passesSince (command :: past) < Duration.countLimit := by
        apply Decidable.not_not.1
        rw [← hfails, hnow]
        exact Option.some_ne_none now
      rw [eq_obey_of_obey? hnow] at hlater
      intro front hfront
      rcases List.prefix_cons_iff.1 hfront with rfl | ⟨behind, rfl, hbehind⟩
      · exact hfew
      · rw [hreverse]
        exact (ih hobeyed hnext hrest).1 ⟨later, hlater⟩ behind hbehind
    · intro hall
      have hnext : passesSince (command :: past) < Duration.countLimit :=
        hall [command] (List.prefix_append [command] rest)
      obtain ⟨now, hnow⟩ := Option.ne_none_iff_exists'.1 fun hnone => hfails.1 hnone hnext
      obtain ⟨later, hlater⟩ := (ih hobeyed hnext hrest).2 fun front hfront =>
        hreverse front ▸ hall (command :: front) (List.cons_prefix_cons.2 ⟨rfl, hfront⟩)
      rw [← eq_obey_of_obey? hnow] at hlater
      exact ⟨_, run?_cons_eq_some_iff.2 ⟨now, later, hnow, hlater, rfl⟩⟩

theorem exists_run?_iff (sheet : StyleSheet) (commands : List Command)
    (hseparates : Fingerprint.Separates (commands.filterMap Command.source?)) :
    (∃ r, ({ sheet } : Painter).run? commands = some r) ↔ StaysCountable commands := by
  have hcommands := mem_texts_of_source? commands (List.Subset.refl _)
  have hstart : passesSince [] < Duration.countLimit := by decide
  have hiff := (obeyed_start _ sheet).exists_run?_iff hseparates hstart commands hcommands
  simp only [List.append_nil] at hiff
  exact hiff

/-- A painter that starts with an empty memory answers as if it had none, if fingerprints tell apart
the texts that the run paints; and it answers until its passes are too many for 32 bits. -/
theorem run?_paints_afresh (sheet : StyleSheet) (commands : List Command)
    (hseparates : Fingerprint.Separates (commands.filterMap Command.source?)) :
    ((∃ r, ({ sheet } : Painter).run? commands = some r) ↔ StaysCountable commands) ∧
      ∀ r, ({ sheet } : Painter).run? commands = some r →
        r.1 = Mode.answers ⟨sheet, true⟩ commands := by
  refine ⟨exists_run?_iff sheet commands hseparates, ?_⟩
  intro r hr
  rw [eq_run_of_run? hr]
  apply answers_run hseparates
  · exact remembers_of_none rfl _
  · exact mem_texts_of_source? commands (List.Subset.refl _)

end

/-- Requests for the two texts in turn. -/
def alternating (n : Nat) : List Command := (turns n).map .paint

theorem reverse_alternating_succ (n : Nat) :
    (alternating (n + 1)).reverse = .paint (turn n) :: (alternating n).reverse := by
  rw [alternating, turns_succ, List.map_append, List.reverse_append]
  rfl

theorem isEnabledAfter_alternating (n : Nat) : isEnabledAfter (alternating n).reverse := by
  induction n with
  | zero => rfl
  | succ n ih =>
    rw [reverse_alternating_succ]
    exact ih

theorem lastRequest?_alternating_ne (n : Nat) :
    lastRequest? (alternating n).reverse ≠ some (turn n) := by
  cases n with
  | zero => exact (Option.some_ne_none _).symm
  | succ n =>
    have hlast : lastRequest? (alternating (n + 1)).reverse = some (turn n) := by
      rw [reverse_alternating_succ]
      exact if_pos (isEnabledAfter_alternating n)
    rw [hlast]
    exact fun h => turn_succ_ne n (Option.some.inj h).symm

/-- Each of them takes a pass. -/
theorem passesSince_alternating (n : Nat) : passesSince (alternating n).reverse = n := by
  induction n with
  | zero => rfl
  | succ n ih =>
    have hnew : decide (lastRequest? (alternating n).reverse = some (turn n)) = false :=
      decide_eq_false (lastRequest?_alternating_ne n)
    rw [passesSince, reverse_alternating_succ, requests, if_pos (isEnabledAfter_alternating n), hnew,
      List.countP_cons_of_pos rfl]
    exact congrArg (· + 1) ih

theorem separates_alternating [Fingerprint] (n : Nat) :
    Fingerprint.Separates ((alternating n).filterMap Command.source?) := by
  have hsources : (alternating n).filterMap Command.source? = turns n := by
    rw [alternating, List.filterMap_map]
    exact List.filterMap_some
  rw [hsources]
  exact separates_turns n

end Painter

end ScriptEditor

namespace ScriptEditor.Painter

/-- Two texts of one length in turn, with a theme, an escaped text and an emptied memory between. -/
def repainting : List Command :=
  [.paint "if".toList, .paint "x<".toList, .enable false, .paint "if".toList, .enable true,
    .setSheet (StyleSheet.standard.insert .keyword "k".toList), .paint "x<".toList, .forget,
    .resetCounts, .paint "if".toList]

theorem run?_paints_afresh_repainting :
    Fingerprint.Separates (repainting.filterMap Command.source?) ∧
    ∃ p, ({ sheet := .standard } : Painter).run? repainting =
      some (Mode.answers ⟨.standard, true⟩ repainting, p) := by
  have hseparates : Fingerprint.Separates (repainting.filterMap Command.source?) := by
    decide +kernel
  obtain ⟨hiff, hanswers⟩ := run?_paints_afresh .standard repainting hseparates
  obtain ⟨r, hr⟩ := hiff.2 (staysCountable_of_length_lt (by decide))
  refine ⟨hseparates, r.2, ?_⟩
  rw [← hanswers r hr]
  exact hr

/-- The last of 2 ^ 32 requests for the two texts in turn is not answered. -/
theorem run?_alternating :
    Fingerprint.Separates ((alternating Duration.countLimit).filterMap Command.source?) ∧
    ({ sheet := .standard } : Painter).run? (alternating Duration.countLimit) = none := by
  have hseparates := separates_alternating Duration.countLimit
  refine ⟨hseparates, Option.eq_none_iff_forall_ne_some.2 ?_⟩
  intro r hr
  have hstays := (exists_run?_iff .standard _ hseparates).1 ⟨r, hr⟩
  have hfew := hstays _ (List.prefix_refl _)
  rw [passesSince_alternating] at hfew
  exact Nat.lt_irrefl _ hfew

end ScriptEditor.Painter
