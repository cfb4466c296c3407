import Mathlib.Algebra.BigOperators.Group.List.Basic
import Mathlib.Data.List.Forall2
import Mathlib.Data.List.Induction
import ScriptEditor.Benchmark
import ScriptEditor.Proofs.Averaging
import ScriptEditor.Text.Lines

namespace ScriptEditor

namespace Benchmark

/-- The times of the passes over inputs of the class. -/
def timesOf (size : SizeClass) (passes : List Pass) : List Duration :=
  (passes.filter fun p => SizeClass.ofBytes p.bytes = size).map Pass.time

/-- The benchmark holds the passes: for each class its times, and their mean, rounded down, if there
are any. -/
structure Gathers (passes : List Pass) (b : Benchmark) : Prop where
  times_eq : ∀ s, b.times s = timesOf s passes
  averages_none : ∀ s, timesOf s passes = [] → b.averages s = none
  averages_some : ∀ s, timesOf s passes ≠ [] → ∃ a, b.averages s = some a ∧
    a.nanos = ((timesOf s passes).map Duration.nanos).sum / (timesOf s passes).length
  passes_eq : b.passes = passes.length

/-- What the report says of a class that has an average: how many passes there were, the average that
is kept, and the longest time, both in whole microseconds. -/
def classLine? (b : Benchmark) (s : SizeClass) : Option Text :=
  (b.averages s).bind fun average =>
    ((b.times s).map Duration.nanos).max?.map fun longest =>
      "  ".toList ++ s.name.toList ++ ": ".toList ++ Decimal.digits (b.times s).length ++
        " operations, avg ".toList ++ Decimal.digits (average.nanos / 1000) ++ "us, max ".toList ++
        Decimal.digits (longest / 1000) ++ "us".toList

/-- The report has one line for each class that has an average, in the order of their sizes, between
its heading and the rates. -/
def Reports (b : Benchmark) : Prop :=
  ∀ elapsed, Text.lines (b.report elapsed) =
    ["=== Performance Baseline Report ===".toList, [], "Highlighting Performance:".toList] ++
      SizeClass.all.filterMap b.classLine? ++
      Text.lines (b.rateLines elapsed ++ "\n=== End Report ===\n".toList)

/-- The average time of the class is above its budget. -/
def Exceeds (b : Benchmark) (s : SizeClass) : Prop :=
  ∃ average ∈ b.averages s, ∃ budget ∈ s.budget?, budget.nanos < average.nanos

instance (b : Benchmark) : DecidablePred b.Exceeds :=
  fun _ => inferInstanceAs (Decidable (∃ _ ∈ _, ∃ _ ∈ _, _))

/-- The issue names the class, its budget and its average. -/
def IsIssue (b : Benchmark) (s : SizeClass) (issue : Text) : Prop :=
  ∃ average ∈ b.averages s, ∃ budget ∈ s.budget?,
    issue = "Highlighting for ".toList ++ s.name.toList ++ " exceeds ".toList ++
      Decimal.digits (budget.nanos / 1000000) ++ "ms budget: ".toList ++
      Decimal.digits (average.nanos / 1000) ++ "us".toList

/-- The verdict is right, and there is one issue for each class above its budget, in the order of
their sizes. -/
structure Judges (b : Benchmark) : Prop where
  meetsBudgets_iff : b.meetsBudgets ↔ ∀ s, ¬ b.Exceeds s
  issues : List.Forall₂ b.IsIssue (SizeClass.all.filter fun s => b.Exceeds s) b.issues

/-- Both benchmarks say the same of every class. -/
structure Agrees (b b' : Benchmark) : Prop where
  meetsBudgets_eq : b.meetsBudgets = b'.meetsBudgets
  issues_eq : b.issues = b'.issues
  classLine?_eq : ∀ s, b.classLine? s = b'.classLine? s

section

variable {b b' : Benchmark} {p : Pass} {passes passes' : List Pass} {s : SizeClass}

theorem timesOf_concat (s : SizeClass) (passes : List Pass) (p : Pass) :
    timesOf s (passes ++ [p]) =
      if s = SizeClass.ofBytes p.bytes then timesOf s passes ++ [p.time] else timesOf s passes := by
  by_cases h : s = SizeClass.ofBytes p.bytes
  · simp [timesOf, h]
  · simp [timesOf, h, Ne.symm h]

theorem length_timesOf_le (s : SizeClass) (passes : List Pass) :
    (timesOf s passes).length ≤ passes.length := by
  rw [timesOf, List.length_map]
  exact List.length_filter_le _ _

theorem gathers_empty : Gathers [] {} where
  times_eq _ := rfl
  averages_none _ _ := rfl
  averages_some _ h := absurd rfl h
  passes_eq := rfl

theorem Gathers.start (h : Gathers passes b) : Gathers passes b.start :=
  ⟨h.times_eq, h.averages_none, h.averages_some, h.passes_eq⟩

theorem Gathers.recordCounts (h : Gathers passes b) (n : Counts) :
    Gathers passes (b.recordCounts n) :=
  ⟨h.times_eq, h.averages_none, h.averages_some, h.passes_eq⟩

theorem Gathers.isSome_averages_iff (h : Gathers passes b) (s : SizeClass) :
    (b.averages s).isSome ↔ timesOf s passes ≠ [] := by
  by_cases hnil : timesOf s passes = []
  · rw [h.averages_none s hnil]
    exact iff_of_false Bool.false_ne_true (not_not_intro hnil)
  · obtain ⟨a, ha, -⟩ := h.averages_some s hnil
    rw [ha]
    exact iff_of_true rfl hnil

/-- What a pass changes: the times and the average of its class. -/
theorem exists_of_pass? (h : b.pass? p = some b') :
    ∃ average, Duration.average? (b.times (SizeClass.ofBytes p.bytes) ++ [p.time]) = some average ∧
      b'.passes = b.passes + 1 ∧
      (∀ s, b'.times s =
        if s = SizeClass.ofBytes p.bytes then b.times s ++ [p.time] else b.times s) ∧
      ∀ s, b'.averages s = if s = SizeClass.ofBytes p.bytes then some average else b.averages s := by
  rw [pass?] at h
  simp only [Option.bind_eq_bind, Option.bind_eq_some_iff] at h
  obtain ⟨average, haverage, hb⟩ := h
  cases hb
  refine ⟨average, haverage, rfl, ?_, fun _ => rfl⟩
  intro s
  dsimp only
  split
  case isTrue hs => rw [hs]
  case isFalse => rfl

theorem exists_pass? {average : Duration}
    (h : Duration.average? (b.times (SizeClass.ofBytes p.bytes) ++ [p.time]) = some average) :
    ∃ b', b.pass? p = some b' := by
  rw [pass?, h]
  exact ⟨_, rfl⟩

/-- A pass that is recorded is gathered with those before, and the times of each class can still be
averaged. -/
theorem Gathers.of_pass? (h : Gathers passes b) (hcan : ∀ s, Duration.CanAverage (timesOf s passes))
    (hp : b.pass? p = some b') :
    Gathers (passes ++ [p]) b' ∧ ∀ s, Duration.CanAverage (timesOf s (passes ++ [p])) := by
  obtain ⟨average, haverage, hpasses, htimes, haverages⟩ := exists_of_pass? hp
  rw [h.times_eq] at haverage
  have hsize := (hcan _).of_average? haverage
  -- Each class is either that of the pass, or as it was before.
  refine ⟨⟨?_, ?_, ?_, ?_⟩, ?_⟩
  · intro s
    rw [htimes, timesOf_concat, h.times_eq]
  · intro s hnil
    rw [timesOf_concat] at hnil
    rw [haverages]
    split at hnil
    case isTrue => exact absurd hnil (List.append_ne_nil_of_right_ne_nil _ (List.cons_ne_nil _ _))
    case isFalse hs =>
      rw [if_neg hs]
      exact h.averages_none s hnil
  · intro s hne
    rw [timesOf_concat] at hne ⊢
    rw [haverages]
    split at hne
    case isTrue hs =>
      rw [if_pos hs, if_pos hs, hs]
      exact ⟨average, rfl, (hsize.average?_eq_some_iff (hs ▸ hne)).1 haverage⟩
    case isFalse hs =>
      rw [if_neg hs, if_neg hs]
      exact h.averages_some s hne
  · rw [hpasses, h.passes_eq, List.length_append, List.length_singleton]
  · intro s
    rw [timesOf_concat]
    split
    case isTrue hs => exact hs ▸ hsize
    case isFalse => exact hcan s

theorem Gathers.exists_pass? (h : Gathers passes b)
    (hcan : ∀ s, Duration.CanAverage (timesOf s (passes ++ [p]))) : ∃ b', b.pass? p = some b' := by
  have hsize := hcan (SizeClass.ofBytes p.bytes)
  rw [timesOf_concat, if_pos rfl] at hsize
  obtain ⟨average, haverage⟩ :=
    hsize.exists_average? (List.append_ne_nil_of_right_ne_nil _ (List.cons_ne_nil _ _))
  rw [← h.times_eq] at haverage
  exact Benchmark.exists_pass? haverage

theorem passAll?_concat (b : Benchmark) (passes : List Pass) (p : Pass) :
    b.passAll? (passes ++ [p]) = (b.passAll? passes).bind (·.pass? p) := by
  rw [passAll?, List.foldlM_append, passAll?]
  simp

theorem canAverage_front (h : ∀ s, Duration.CanAverage (timesOf s (passes ++ [p]))) (s : SizeClass) :
    Duration.CanAverage (timesOf s passes) := by
  have hs := h s
  rw [timesOf_concat] at hs
  split at hs
  case isTrue => exact hs.front
  case isFalse => exact hs

/-- A benchmark that recorded passes one after another gathers them, and can average the times of each
class. -/
theorem gathers_passAll? (hb : Gathers [] b) (hrun : b.passAll? passes = some b') :
    Gathers passes b' ∧ ∀ s, Duration.CanAverage (timesOf s passes) := by
  induction passes using List.reverseRecOn generalizing b' with
  | nil =>
    cases hrun
    exact ⟨hb, fun _ => Duration.canAverage_nil⟩
  | append_singleton passes p ih =>
    rw [passAll?_concat] at hrun
    obtain ⟨c, hc, hp⟩ := Option.bind_eq_some_iff.1 hrun
    obtain ⟨hgathers, hcan⟩ := ih hc
    exact hgathers.of_pass? hcan hp

theorem exists_passAll? (hb : Gathers [] b) (hcan : ∀ s, Duration.CanAverage (timesOf s passes)) :
    ∃ b', b.passAll? passes = some b' := by
  induction passes using List.reverseRecOn with
  | nil => exact ⟨b, rfl⟩
  | append_singleton passes p ih =>
    obtain ⟨c, hc⟩ := ih (canAverage_front hcan)
    rw [passAll?_concat, hc, Option.bind_some]
    exact (gathers_passAll? hb hc).1.exists_pass? hcan

theorem exists_max? {ns : List Nat} (h : ns ≠ []) : ∃ m, ns.max? = some m :=
  Option.isSome_iff_exists.1 (List.isSome_max?_iff.2 h)

/-- The average that is kept is the one that the report computes again. -/
theorem Gathers.sizeLine_eq (h : Gathers passes b)
    (hcan : ∀ s, Duration.CanAverage (timesOf s passes)) (s : SizeClass) :
    sizeLine s (b.times s) = ((b.classLine? s).map (· ++ ['\n'])).getD [] := by
  by_cases htimes : timesOf s passes = []
  · rw [classLine?, h.averages_none s htimes, h.times_eq, htimes]
    rfl
  · obtain ⟨average, haverage, hnanos⟩ := h.averages_some s htimes
    have hagain : Duration.average? (b.times s) = some average := by
      rw [h.times_eq]
      exact ((hcan s).average?_eq_some_iff htimes).2 hnanos
    obtain ⟨longest, hlongest⟩ := exists_max? (mt List.map_eq_nil_iff.1 htimes)
    rw [← h.times_eq] at hlongest
    have hmicros : (Duration.longest (b.times s)).micros = longest / 1000 := by
      rw [Duration.micros, Duration.nanos_longest, hlongest]
      rfl
    have hbreak : "us\n".toList = "us".toList ++ ['\n'] := rfl
    rw [sizeLine, hagain, classLine?, haverage, Option.bind_some, hlongest, Option.map_some,
      Option.map_some, Option.getD_some]
    dsimp only
    rw [hmicros, hbreak, ← List.append_assoc]
    rfl

theorem lineFeed_not_mem_digits (n : Nat) : '\n' ∉ Decimal.digits n := by
  intro h
  exact absurd (Decimal.isDigit_of_mem_digits h) (by decide)

theorem lineFeed_not_mem_name (s : SizeClass) : '\n' ∉ s.name.toList := by
  cases s <;> decide

theorem lineFeed_not_mem_classLine {l : Text} (h : b.classLine? s = some l) : '\n' ∉ l := by
  obtain ⟨average, -, hlongest⟩ := Option.bind_eq_some_iff.1 h
  obtain ⟨longest, -, rfl⟩ := Option.map_eq_some_iff.1 hlongest
  simp only [List.mem_append, not_or, lineFeed_not_mem_digits, lineFeed_not_mem_name,
    not_false_eq_true, and_true]
  decide

theorem flatMap_sizeLine {size : SizeClass → Text} {line? : SizeClass → Option Text}
    (h : ∀ s, size s = ((line? s).map (· ++ ['\n'])).getD []) (sizes : List SizeClass) :
    sizes.flatMap size = (sizes.filterMap line?).flatMap (· ++ ['\n']) := by
  induction sizes with
  | nil => rfl
  | cons s rest ih =>
    rw [List.flatMap_cons, ih, h]
    cases hs : line? s with
    | none => rw [List.filterMap_cons_none hs, Option.map_none, Option.getD_none, List.nil_append]
    | some l => rw [List.filterMap_cons_some hs, List.flatMap_cons, Option.map_some, Option.getD_some]

theorem Gathers.reports (h : Gathers passes b)
    (hcan : ∀ s, Duration.CanAverage (timesOf s passes)) : b.Reports := by
  intro elapsed
  have hnone : ∀ l ∈ SizeClass.all.filterMap b.classLine?, '\n' ∉ l := by
    intro l hl
    obtain ⟨s, -, hs⟩ := List.mem_filterMap.1 hl
    exact lineFeed_not_mem_classLine hs
  have hheading : "=== Performance Baseline Report ===\n\n".toList =
      "=== Performance Baseline Report ===".toList ++ '\n' :: ([] ++ ['\n']) := rfl
  have htitle : "Highlighting Performance:\n".toList =
      "Highlighting Performance:".toList ++ ['\n'] := rfl
  -- Every line but those of the rates is known to hold no line feed of its own.
  unfold report
  rw [hheading, htitle, flatMap_sizeLine (h.sizeLine_eq hcan)]
  simp only [List.append_assoc, List.cons_append, List.nil_append]
  rw [Text.lines_line (by decide), Text.lines_lineFeed, Text.lines_line (by decide),
    Text.lines_flatMap_lines hnone]

theorem isSome_issue?_iff : ((b.averages s).bind (issue? s)).isSome ↔ b.Exceeds s := by
  rw [Option.isSome_iff_exists]
  constructor
  · rintro ⟨issue, hissue⟩
    obtain ⟨average, haverage, h⟩ := Option.bind_eq_some_iff.1 hissue
    obtain ⟨budget, hbudget, h⟩ := Option.bind_eq_some_iff.1 h
    exact ⟨average, haverage, budget, hbudget, (Option.ite_none_right_eq_some.1 h).1⟩
  · rintro ⟨average, haverage, budget, hbudget, hlt⟩
    rw [haverage, Option.bind_some, issue?, hbudget, Option.bind_eq_bind, Option.bind_some,
      if_pos hlt]
    exact ⟨_, rfl⟩

theorem isIssue_of_issue? {issue : Text} (h : (b.averages s).bind (issue? s) = some issue) :
    b.IsIssue s issue := by
  obtain ⟨average, haverage, h⟩ := Option.bind_eq_some_iff.1 h
  obtain ⟨budget, hbudget, h⟩ := Option.bind_eq_some_iff.1 h
  have htext := Option.some.inj (Option.ite_none_right_eq_some.1 h).2
  exact ⟨average, haverage, budget, hbudget, htext.symm⟩

theorem forall₂_issues (b : Benchmark) (sizes : List SizeClass) :
    List.Forall₂ b.IsIssue (sizes.filter fun s => b.Exceeds s)
      (sizes.filterMap fun s => (b.averages s).bind (issue? s)) := by
  induction sizes with
  | nil => exact .nil
  | cons s rest ih =>
    cases hs : (b.averages s).bind (issue? s) with
    | none =>
      have hnot : ¬ b.Exceeds s := by
        rw [← isSome_issue?_iff, hs]
        exact Bool.false_ne_true
      rw [List.filter_cons_of_neg (by simpa using hnot)]
      simpa only [List.filterMap_cons, hs] using ih
    | some issue =>
      have hexceeds : b.Exceeds s := by
        rw [← isSome_issue?_iff, hs]
        rfl
      rw [List.filter_cons_of_pos (by simpa using hexceeds)]
      simpa only [List.filterMap_cons, hs] using List.Forall₂.cons (isIssue_of_issue? hs) ih

theorem judges (b : Benchmark) : b.Judges := by
  have hissues : List.Forall₂ b.IsIssue _ b.issues := forall₂_issues b SizeClass.all
  refine ⟨?_, hissues⟩
  rw [meetsBudgets, List.isEmpty_iff_length_eq_zero, ← hissues.length_eq,
    List.length_eq_zero_iff, List.filter_eq_nil_iff]
  constructor
  · intro h s hs
    exact h s (SizeClass.mem_all s) (decide_eq_true hs)
  · intro h s _ hs
    exact h s (of_decide_eq_true hs)

theorem timesOf_perm (h : passes.Perm passes') (s : SizeClass) :
    (timesOf s passes).Perm (timesOf s passes') :=
  (h.filter _).map _

theorem max?_eq_of_perm {ms ns : List Nat} (h : ms.Perm ns) : ms.max? = ns.max? := by
  apply Option.ext
  intro m
  rw [List.max?_eq_some_iff, List.max?_eq_some_iff, h.mem_iff]
  simp only [h.mem_iff]

theorem Gathers.averages_eq (h : Gathers passes b) (h' : Gathers passes' b')
    (hperm : passes.Perm passes') (s : SizeClass) : b.averages s = b'.averages s := by
  have htimes := timesOf_perm hperm s
  by_cases hnil : timesOf s passes = []
  · have hnil' : timesOf s passes' = [] := List.nil_perm.1 (hnil ▸ htimes)
    rw [h.averages_none s hnil, h'.averages_none s hnil']
  · have hnil' : timesOf s passes' ≠ [] := by
      intro hnil'
      exact hnil (List.perm_nil.1 (hnil' ▸ htimes))
    obtain ⟨a, ha, hnanos⟩ := h.averages_some s hnil
    obtain ⟨a', ha', hnanos'⟩ := h'.averages_some s hnil'
    have heq : a = a' := by
      apply Duration.ext
      rw [hnanos, hnanos', (htimes.map _).sum_eq, htimes.length_eq]
    rw [ha, ha', heq]

theorem Gathers.agrees (h : Gathers passes b) (h' : Gathers passes' b')
    (hperm : passes.Perm passes') : b.Agrees b' := by
  have haverages : b.averages = b'.averages := funext (h.averages_eq h' hperm)
  have hissues : b.issues = b'.issues := by rw [issues, issues, haverages]
  refine ⟨?_, hissues, ?_⟩
  · rw [meetsBudgets, meetsBudgets, hissues]
  · intro s
    have htimes := timesOf_perm hperm s
    rw [classLine?, classLine?, haverages, h.times_eq, h'.times_eq, htimes.length_eq,
      max?_eq_of_perm (htimes.map _)]

/-- Passes whose times can be averaged class by class make a benchmark that gathers them, reports them
and judges them; in any other order they make one that says the same of every class. -/
theorem passAll?_gathers (passes : List Pass)
    (h : ∀ s, Duration.CanAverage (timesOf s passes)) :
    ∃ b, ({} : Benchmark).passAll? passes = some b ∧ b.Gathers passes ∧ b.Reports ∧ b.Judges ∧
      ∀ reordered, reordered.Perm passes → ∃ b', ({} : Benchmark).passAll? reordered = some b' ∧
        b'.Gathers reordered ∧ b'.Reports ∧ b'.Agrees b := by
  obtain ⟨b, hb⟩ := exists_passAll? gathers_empty h
  have hgathers := (gathers_passAll? gathers_empty hb).1
  refine ⟨b, hb, hgathers, hgathers.reports h, judges b, ?_⟩
  intro reordered hperm
  have hcan (s : SizeClass) : Duration.CanAverage (timesOf s reordered) :=
    (h s).of_perm (timesOf_perm hperm.symm s)
  obtain ⟨b', hb'⟩ := exists_passAll? gathers_empty hcan
  have hgathers' := (gathers_passAll? gathers_empty hb').1
  exact ⟨b', hb', hgathers', hgathers'.reports hcan, hgathers'.agrees hgathers hperm⟩

/-- Two passes over small inputs, one of them slow, among passes over larger ones. -/
def unevenPasses : List Pass :=
  [⟨100, ⟨1000000, by decide⟩, 20⟩, ⟨5000, ⟨2000000, by decide⟩, 900⟩,
    ⟨200, ⟨50000001, by decide⟩, 40⟩, ⟨200000, ⟨9000000000, by decide⟩, 7⟩]

theorem passAll?_gathers_unevenPasses :
    (∀ s, Duration.CanAverage (timesOf s unevenPasses)) ∧
      ∃ b, ({} : Benchmark).passAll? unevenPasses = some b ∧ b.Judges ∧ ¬ b.meetsBudgets ∧
        b.issues = ["Highlighting for Small (< 1KB) exceeds 5ms budget: 25500us".toList] ∧
        ∃ b', ({} : Benchmark).passAll? unevenPasses.reverse = some b' ∧ b'.Agrees b := by
  have hcan (s : SizeClass) : Duration.CanAverage (timesOf s unevenPasses) := by
    cases s <;> exact ⟨by decide, by decide⟩
  obtain ⟨b, hb, -, -, hjudges, horders⟩ := passAll?_gathers unevenPasses hcan
  obtain ⟨b', hb', -, -, hagrees⟩ := horders _ (List.reverse_perm _)
  have hissues : (({} : Benchmark).passAll? unevenPasses).map issues =
      some ["Highlighting for Small (< 1KB) exceeds 5ms budget: 25500us".toList] := by
    decide +kernel
  rw [hb, Option.map_some, Option.some.injEq] at hissues
  refine ⟨hcan, b, hb, hjudges, ?_, hissues, b', hb', hagrees⟩
  rw [meetsBudgets, hissues]
  exact Bool.false_ne_true

end

end Benchmark

end ScriptEditor
