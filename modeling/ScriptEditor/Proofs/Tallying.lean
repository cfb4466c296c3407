import Mathlib.Algebra.Ring.Nat
import Mathlib.Data.List.Induction
import ScriptEditor.Tally

namespace ScriptEditor

namespace Tally

/-- The events behind the last reset. -/
def sinceReset (events : List Event) : List Event :=
  (events.reverse.takeWhile (· != .reset)).reverse

def Event.time? : Event → Option Duration
  | .pass time _ => some time
  | .hit | .miss | .reset => none

def Event.tokens? : Event → Option Nat
  | .pass _ tokens => some tokens
  | .hit | .miss | .reset => none

/-- The times of the passes among the events. -/
def timesOf (events : List Event) : List Duration := events.filterMap Event.time?

/-- The numbers of tokens that the passes among the events found. -/
def tokensOf (events : List Event) : List Nat := events.filterMap Event.tokens?

/-- The tally says of events without a reset what they come to; the average is rounded down, and zero
like the longest time where there was no pass. -/
structure TellsOf (events : List Event) (t : Tally) : Prop where
  total_eq : t.total.nanos = ((timesOf events).map Duration.nanos).sum
  longest_eq : t.longest.nanos = ((timesOf events).map Duration.nanos).max?.getD 0
  passes_eq : t.passes = (timesOf events).length
  tokens_eq : t.tokens = (tokensOf events).sum
  average_eq : t.average.nanos =
    if t.passes = 0 then 0 else ((timesOf events).map Duration.nanos).sum / t.passes
  hits_eq : t.hits = events.count .hit
  misses_eq : t.misses = events.count .miss

/-- The total time of events without a reset is a span of time, and their counts fit into counters. -/
structure IsInRange (events : List Event) : Prop where
  total_lt : ((timesOf events).map Duration.nanos).sum <
    Duration.secondsLimit * Duration.nanosPerSecond
  passes_lt : (timesOf events).length < Counts.limit
  tokens_lt : (tokensOf events).sum < Counts.limit
  hits_lt : events.count .hit < Counts.limit
  misses_lt : events.count .miss < Counts.limit

/-- Nothing leaves its range at any time. -/
def StaysInRange (events : List Event) : Prop :=
  ∀ past, past <+: events → IsInRange (sinceReset past)

/-- The passes since the last reset can be counted with 32 bits at any time. -/
def StaysCountable (events : List Event) : Prop :=
  ∀ past, past <+: events → (timesOf (sinceReset past)).length < Duration.countLimit

section

variable {events : List Event} {e : Event} {t t' : Tally} {time : Duration} {n : Nat}

theorem sinceReset_concat (events : List Event) (e : Event) :
    sinceReset (events ++ [e]) = if e = .reset then [] else sinceReset events ++ [e] := by
  by_cases h : e = .reset <;> simp [sinceReset, h]

theorem timesOf_concat (events : List Event) (e : Event) :
    timesOf (events ++ [e]) = timesOf events ++ e.time?.toList := by
  rw [timesOf, List.filterMap_append]
  cases e <;> rfl

theorem tokensOf_concat (events : List Event) (e : Event) :
    tokensOf (events ++ [e]) = tokensOf events ++ e.tokens?.toList := by
  rw [tokensOf, List.filterMap_append]
  cases e <;> rfl

theorem tellsOf_empty : TellsOf [] {} where
  total_eq := rfl
  longest_eq := rfl
  passes_eq := rfl
  tokens_eq := rfl
  average_eq := rfl
  hits_eq := rfl
  misses_eq := rfl

theorem pass?_eq_some_iff : t.pass? time n = some t' ↔
    ∃ total average, (t.toCounts.pass n).fits ∧ total.nanos = t.total.nanos + time.nanos ∧
      (t.passes + 1) % Duration.countLimit ≠ 0 ∧
      average.nanos = total.nanos / ((t.passes + 1) % Duration.countLimit) ∧
      t' = { toCounts := t.toCounts.pass n, total, average, longest := t.longest.max time } := by
  simp only [pass?, Option.bind_eq_bind, Option.bind_eq_some_iff, Counts.fit?_eq_some_iff,
    Duration.add?, Duration.ofNanos?_eq_some_iff, Duration.divide?_eq_some_iff, Option.pure_def,
    Option.some.injEq]
  constructor
  · rintro ⟨counts, ⟨hfits, rfl⟩, total, htotal, average, ⟨hcount, haverage⟩, rfl⟩
    exact ⟨total, average, hfits, htotal, hcount, haverage, rfl⟩
  · rintro ⟨total, average, hfits, htotal, hcount, haverage, rfl⟩
    exact ⟨_, ⟨hfits, rfl⟩, total, htotal, average, ⟨hcount, haverage⟩, rfl⟩

/-- A tally that has room for its counts tells of events in range: its total is a span of time. -/
theorem TellsOf.isInRange (h : TellsOf events t) (hfits : t.toCounts.fits) : IsInRange events := by
  obtain ⟨hpasses, htokens, hhits, hmisses⟩ := Counts.fits_iff.1 hfits
  refine ⟨?_, ?_, ?_, ?_, ?_⟩
  · exact h.total_eq ▸ t.total.fits
  · exact h.passes_eq ▸ hpasses
  · exact h.tokens_eq ▸ htokens
  · exact h.hits_eq ▸ hhits
  · exact h.misses_eq ▸ hmisses

theorem TellsOf.fits (h : TellsOf events t) (hrange : IsInRange events) : t.toCounts.fits := by
  apply Counts.fits_iff.2
  refine ⟨?_, ?_, ?_, ?_⟩
  · exact h.passes_eq ▸ hrange.passes_lt
  · exact h.tokens_eq ▸ hrange.tokens_lt
  · exact h.hits_eq ▸ hrange.hits_lt
  · exact h.misses_eq ▸ hrange.misses_lt

/-- A pass that was counted within 32 bits is divided by as it was counted. -/
theorem TellsOf.passes (h : TellsOf events t) {total average : Duration}
    (htotal : total.nanos = t.total.nanos + time.nanos)
    (hcount : t.passes + 1 < Duration.countLimit)
    (haverage : average.nanos = total.nanos / ((t.passes + 1) % Duration.countLimit)) :
    TellsOf (events ++ [.pass time n])
      { toCounts := t.toCounts.pass n, total, average, longest := t.longest.max time } := by
  have htimes : timesOf (events ++ [.pass time n]) = timesOf events ++ [time] := timesOf_concat _ _
  have hsum : ((timesOf events ++ [time]).map Duration.nanos).sum = total.nanos := by
    rw [htotal, h.total_eq]
    simp
  have hlongest : t.longest = Duration.longest (timesOf events) := by
    apply Duration.ext
    rw [h.longest_eq, Duration.nanos_longest]
  refine ⟨?_, ?_, ?_, ?_, ?_, ?_, ?_⟩
  · rw [htimes, hsum]
  · rw [htimes, ← Duration.nanos_longest, Duration.longest_concat, ← hlongest]
  · rw [htimes, List.length_append, ← h.passes_eq]
    rfl
  · rw [tokensOf_concat, List.sum_append, ← h.tokens_eq]
    rfl
  · rw [htimes, hsum, haverage, Nat.mod_eq_of_lt hcount]
    rfl
  · rw [List.count_append, ← h.hits_eq]
    rfl
  · rw [List.count_append, ← h.misses_eq]
    rfl

/-- What is no pass touches neither the times nor the tokens. -/
theorem TellsOf.counts (h : TellsOf events t) (htime : e.time? = none) (htokens : e.tokens? = none)
    {counts : Counts} (hpasses : counts.passes = t.passes) (hfound : counts.tokens = t.tokens)
    (hhits : counts.hits = (events ++ [e]).count .hit)
    (hmisses : counts.misses = (events ++ [e]).count .miss) :
    TellsOf (events ++ [e]) { t with toCounts := counts } := by
  have htimes : timesOf (events ++ [e]) = timesOf events := by
    rw [timesOf_concat, htime]
    exact List.append_nil _
  have hnumbers : tokensOf (events ++ [e]) = tokensOf events := by
    rw [tokensOf_concat, htokens]
    exact List.append_nil _
  refine ⟨?_, ?_, ?_, ?_, ?_, hhits, hmisses⟩
  · rw [htimes]
    exact h.total_eq
  · rw [htimes]
    exact h.longest_eq
  · rw [htimes, hpasses]
    exact h.passes_eq
  · rw [hnumbers, hfound]
    exact h.tokens_eq
  · rw [htimes, hpasses]
    exact h.average_eq

theorem TellsOf.hits (h : TellsOf events t) :
    TellsOf (events ++ [.hit]) { t with toCounts := t.toCounts.hit } := by
  have hpasses : t.toCounts.hit.passes = t.passes := rfl
  refine h.counts rfl rfl hpasses rfl ?_ ?_
  · rw [List.count_append, ← h.hits_eq]
    rfl
  · rw [List.count_append, ← h.misses_eq]
    rfl

theorem TellsOf.misses (h : TellsOf events t) :
    TellsOf (events ++ [.miss]) { t with toCounts := t.toCounts.miss } := by
  have hpasses : t.toCounts.miss.passes = t.passes := rfl
  refine h.counts rfl rfl hpasses rfl ?_ ?_
  · rw [List.count_append, ← h.hits_eq]
    rfl
  · rw [List.count_append, ← h.misses_eq]
    rfl

/-- An event after which there is a tally was told, and nothing left its range. -/
theorem TellsOf.of_record? (h : TellsOf events t) (he : e ≠ .reset)
    (hfew : (timesOf events).length < Duration.countLimit) (hsome : t.record? e = some t') :
    TellsOf (events ++ [e]) t' ∧ IsInRange (events ++ [e]) ∧
      (timesOf (events ++ [e])).length < Duration.countLimit := by
  rw [← h.passes_eq] at hfew
  cases e with
  | pass time n =>
    obtain ⟨total, average, hfits, htotal, hcount, haverage, rfl⟩ := pass?_eq_some_iff.1 hsome
    have hlt : t.passes + 1 < Duration.countLimit :=
      (Duration.canDivide_succ_iff hfew).1 (decide_eq_true hcount)
    have htells : TellsOf (events ++ [.pass time n]) _ := h.passes htotal hlt haverage
    exact ⟨htells, htells.isInRange hfits, htells.passes_eq ▸ hlt⟩
  | hit =>
    obtain ⟨counts, hcounts, rfl⟩ := Option.map_eq_some_iff.1 hsome
    obtain ⟨hfits, rfl⟩ := Counts.fit?_eq_some_iff.1 hcounts
    exact ⟨h.hits, h.hits.isInRange hfits, h.hits.passes_eq ▸ hfew⟩
  | miss =>
    obtain ⟨counts, hcounts, rfl⟩ := Option.map_eq_some_iff.1 hsome
    obtain ⟨hfits, rfl⟩ := Counts.fit?_eq_some_iff.1 hcounts
    exact ⟨h.misses, h.misses.isInRange hfits, h.misses.passes_eq ▸ hfew⟩
  | reset => exact absurd rfl he

/-- There is a tally after an event that leaves everything in range. -/
theorem TellsOf.exists_record? (h : TellsOf events t) (he : e ≠ .reset)
    (hrange : IsInRange (events ++ [e]))
    (hfew : (timesOf (events ++ [e])).length < Duration.countLimit) :
    ∃ t', t.record? e = some t' := by
  cases e with
  | pass time n =>
    have htimes : timesOf (events ++ [.pass time n]) = timesOf events ++ [time] := timesOf_concat _ _
    have htotal := hrange.total_lt
    rw [htimes, List.map_append, List.sum_append, ← h.total_eq] at htotal
    rw [htimes, List.length_append, ← h.passes_eq] at hfew
    change t.passes + 1 < Duration.countLimit at hfew
    have hcount : (t.passes + 1) % Duration.countLimit ≠ 0 := by
      rw [Nat.mod_eq_of_lt hfew]
      exact Nat.succ_ne_zero _
    obtain ⟨total, htotal⟩ := Duration.exists_ofNanos? htotal
    obtain ⟨average, haverage⟩ := total.exists_divide? hcount
    rw [Duration.ofNanos?_eq_some_iff] at htotal
    rw [Duration.divide?_eq_some_iff] at haverage
    have htells : TellsOf (events ++ [.pass time n]) _ := h.passes htotal hfew haverage.2
    exact ⟨_, pass?_eq_some_iff.2
      ⟨total, average, htells.fits hrange, htotal, hcount, haverage.2, rfl⟩⟩
  | hit =>
    have hfit := Counts.fit?_eq_some_iff.2 ⟨h.hits.fits hrange, rfl⟩
    exact ⟨_, Option.map_eq_some_iff.2 ⟨_, hfit, rfl⟩⟩
  | miss =>
    have hfit := Counts.fit?_eq_some_iff.2 ⟨h.misses.fits hrange, rfl⟩
    exact ⟨_, Option.map_eq_some_iff.2 ⟨_, hfit, rfl⟩⟩
  | reset => exact absurd rfl he

theorem run?_concat (events : List Event) (e : Event) :
    run? (events ++ [e]) = (run? events).bind (·.record? e) := by
  rw [run?, List.foldlM_append, run?]
  simp

theorem isInRange_nil : IsInRange [] :=
  ⟨by decide, by decide, by decide, by decide, by decide⟩

theorem sinceReset_reset (events : List Event) : sinceReset (events ++ [.reset]) = [] := by
  rw [sinceReset_concat, if_pos rfl]

theorem sinceReset_of_ne (h : e ≠ .reset) (events : List Event) :
    sinceReset (events ++ [e]) = sinceReset events ++ [e] := by
  rw [sinceReset_concat, if_neg h]

/-- What holds at any time holds now and held at any time before. -/
theorem forall_prefix_concat {P : List Event → Prop} :
    (∀ past, past <+: events ++ [e] → P past) ↔
      P (events ++ [e]) ∧ ∀ past, past <+: events → P past := by
  simp only [List.prefix_concat_iff, forall_eq_or_imp]

theorem StaysCountable.now (h : StaysCountable events) :
    (timesOf (sinceReset events)).length < Duration.countLimit :=
  h events (List.prefix_refl events)

/-- As long as there is a tally, it tells of the events, and nothing has left its range. -/
theorem tellsOf_run? (hrun : run? events = some t) :
    TellsOf (sinceReset events) t ∧ StaysInRange events ∧ StaysCountable events := by
  induction events using List.reverseRecOn generalizing t with
  | nil =>
    cases hrun
    refine ⟨tellsOf_empty, ?_, ?_⟩
    · intro past hpast
      rw [List.prefix_nil.1 hpast]
      exact isInRange_nil
    · intro past hpast
      rw [List.prefix_nil.1 hpast]
      decide
  | append_singleton events e ih =>
    rw [run?_concat] at hrun
    obtain ⟨s, hs, hrecord⟩ := Option.bind_eq_some_iff.1 hrun
    obtain ⟨htells, hrange, hfew⟩ := ih hs
    rw [StaysInRange, StaysCountable, forall_prefix_concat, forall_prefix_concat]
    by_cases he : e = .reset
    · subst he
      cases hrecord
      rw [sinceReset_reset]
      exact ⟨tellsOf_empty, ⟨isInRange_nil, hrange⟩, by decide, hfew⟩
    · obtain ⟨hnow, hinside, hcount⟩ := htells.of_record? he hfew.now hrecord
      rw [sinceReset_of_ne he]
      exact ⟨hnow, ⟨hinside, hrange⟩, hcount, hfew⟩

/-- As long as nothing leaves its range, there is a tally. -/
theorem exists_run? (hrange : StaysInRange events) (hfew : StaysCountable events) :
    ∃ t, run? events = some t := by
  induction events using List.reverseRecOn with
  | nil => exact ⟨{}, rfl⟩
  | append_singleton events e ih =>
    obtain ⟨hinside, hrange⟩ := forall_prefix_concat.1 hrange
    obtain ⟨hcount, hfew⟩ := forall_prefix_concat.1 hfew
    obtain ⟨t, ht⟩ := ih hrange hfew
    rw [run?_concat, ht, Option.bind_some]
    by_cases he : e = .reset
    · subst he
      exact ⟨{}, rfl⟩
    · rw [sinceReset_of_ne he] at hinside hcount
      exact (tellsOf_run? ht).1.exists_record? he hinside hcount

/-- There is a tally exactly if nothing left its range at any time and the passes between two resets
never were too many for 32 bits; it says what the events behind the last reset come to. -/
theorem run?_tellsOf (events : List Event) :
    ((∃ t, run? events = some t) ↔ StaysInRange events ∧ StaysCountable events) ∧
      ∀ t, run? events = some t → TellsOf (sinceReset events) t := by
  constructor
  · constructor
    · rintro ⟨t, ht⟩
      exact (tellsOf_run? ht).2
    · rintro ⟨hrange, hfew⟩
      exact exists_run? hrange hfew
  · intro t ht
    exact (tellsOf_run? ht).1

/-- Passes that take no time and find nothing. -/
def emptyPasses (n : Nat) : List Event := List.replicate n (.pass .zero 0)

theorem timesOf_emptyPasses (n : Nat) : timesOf (emptyPasses n) = List.replicate n .zero :=
  List.filterMap_replicate_of_some rfl

theorem tokensOf_emptyPasses (n : Nat) : tokensOf (emptyPasses n) = List.replicate n 0 :=
  List.filterMap_replicate_of_some rfl

theorem sinceReset_emptyPasses (n : Nat) : sinceReset (emptyPasses n) = emptyPasses n := by
  simp [sinceReset, emptyPasses]

theorem isInRange_emptyPasses (h : n < Counts.limit) : IsInRange (emptyPasses n) := by
  have hnone (e : Event) (he : .pass .zero 0 ≠ e) : (emptyPasses n).count e = 0 := by
    rw [emptyPasses, List.count_replicate, if_neg (mt eq_of_beq he)]
  refine ⟨?_, ?_, ?_, ?_, ?_⟩
  · rw [timesOf_emptyPasses, List.map_replicate, List.sum_replicate_nat]
    change n * 0 < _
    rw [Nat.mul_zero]
    decide
  · rw [timesOf_emptyPasses, List.length_replicate]
    exact h
  · rw [tokensOf_emptyPasses, List.sum_replicate_nat, Nat.mul_zero]
    decide
  · rw [hnone .hit (by decide)]
    decide
  · rw [hnone .miss (by decide)]
    decide

/-- They stay in range as long as they can be counted. -/
theorem staysInRange_emptyPasses (h : n < Counts.limit) : StaysInRange (emptyPasses n) := by
  intro past hpast
  obtain ⟨hle, heq⟩ := List.prefix_replicate_iff.1 hpast
  have hpasses : past = emptyPasses past.length := heq
  rw [hpasses, sinceReset_emptyPasses]
  exact isInRange_emptyPasses (Nat.lt_of_le_of_lt hle h)

/-- So many passes that their number is zero in 32 bits: nothing leaves its range, and there is no
tally. -/
theorem run?_emptyPasses : StaysInRange (emptyPasses Duration.countLimit) ∧
    run? (emptyPasses Duration.countLimit) = none := by
  constructor
  · exact staysInRange_emptyPasses (by decide)
  · apply Option.eq_none_iff_forall_ne_some.2
    intro t ht
    have hfew := (tellsOf_run? ht).2.2.now
    rw [sinceReset_emptyPasses, timesOf_emptyPasses, List.length_replicate] at hfew
    exact Nat.lt_irrefl _ hfew

end

end Tally

end ScriptEditor
