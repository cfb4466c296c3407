import ScriptEditor.Proofs.Gathering
import ScriptEditor.Proofs.Lasting

namespace ScriptEditor

namespace Benchmark

/-- The input with the index is the first one, or another text than the one before it. -/
def IsNew (inputs : List Text) (i : Nat) : Prop := i = 0 ∨ inputs[i]? ≠ inputs[i - 1]?

instance (inputs : List Text) : DecidablePred (IsNew inputs) :=
  fun _ => inferInstanceAs (Decidable (_ ∨ _))

/-- The new inputs with their indices. -/
def newInputs (inputs : List Text) : List (Text × Nat) :=
  inputs.zipIdx.filter fun x => IsNew inputs x.2

/-- The new inputs of the class. -/
def newInputsOf (size : SizeClass) (inputs : List Text) : List (Text × Nat) :=
  (newInputs inputs).filter fun x => SizeClass.ofBytes x.1.byteLength = size

/-- The pass over an input, which takes as long as the first request for it. -/
def passOver (clock : Nat → Reading) (repeats : Nat) (x : Text × Nat) : Pass :=
  ⟨x.1.byteLength, (clock (x.2 * repeats)).request, (lex x.1).length⟩

/-- One pass for each new input, if there is any request. -/
def passesOver (clock : Nat → Reading) (repeats : Nat) (inputs : List Text) : List Pass :=
  if repeats = 0 then [] else (newInputs inputs).map (passOver clock repeats)

/-- How long the painter says that its passes took. -/
def passTimes (clock : Nat → Reading) (repeats : Nat) (inputs : List Text) : List Duration :=
  if repeats = 0 then [] else (newInputs inputs).map fun x => (clock (x.2 * repeats)).pass

/-- The times have a sum. -/
def FitTogether (times : List Duration) : Prop :=
  (times.map Duration.nanos).sum < Duration.secondsLimit * Duration.nanosPerSecond

/-- The benchmark holds one pass for each new input, if there is any request, and the ratio of the
requests that were no passes. -/
structure Measures (clock : Nat → Reading) (repeats : Nat) (inputs : List Text) (b : Benchmark) :
    Prop where
  gathers : b.Gathers (passesOver clock repeats inputs)
  passes_eq : b.passes = if repeats = 0 then 0 else (newInputs inputs).length
  lengths_eq : ∀ s, (b.times s).length = if repeats = 0 then 0 else (newInputsOf s inputs).length
  averages_iff : ∀ s, (b.averages s).isSome ↔ repeats ≠ 0 ∧ newInputsOf s inputs ≠ []
  hitRatio_eq : ∃ hits, hits + b.passes = repeats * inputs.length ∧
    b.hitRatio = if repeats * inputs.length = 0 then 0.0
      else Float.ofNat hits / Float.ofNat (repeats * inputs.length)

section

variable {clock : Nat → Reading} {b : Benchmark} {t t' : Trial} {p : Painter} {source : Text}
  {front inputs : List Text} {n repeats : Nat}

theorem fitTogether_of_zero {times : List Duration} (h : ∀ d ∈ times, d = .zero) :
    FitTogether times := by
  have hsum : (times.map Duration.nanos).sum = 0 := by
    apply List.sum_eq_zero
    intro n hn
    obtain ⟨d, hd, rfl⟩ := List.mem_map.1 hn
    rw [h d hd]
    rfl
  rw [FitTogether, hsum]
  decide

theorem fitTogether_nil : FitTogether [] := by
  apply fitTogether_of_zero
  intro d hd
  cases hd

theorem isNew_append_iff {i : Nat} (hi : i < front.length) (behind : List Text) :
    IsNew (front ++ behind) i ↔ IsNew front i := by
  rw [IsNew, IsNew, List.getElem?_append_left hi, List.getElem?_append_left (by omega)]

theorem isNew_length_iff : IsNew (front ++ [source]) front.length ↔ front.getLast? ≠ some source := by
  rw [IsNew, List.getElem?_concat_length, List.getLast?_eq_getElem?]
  cases front with
  | nil => simp
  | cons t rest =>
    have hpos : (t :: rest).length ≠ 0 := Nat.succ_ne_zero _
    have hlt : (t :: rest).length - 1 < (t :: rest).length := by omega
    rw [List.getElem?_append_left hlt, or_iff_right hpos, ne_comm]

theorem newInputs_concat (front : List Text) (source : Text) :
    newInputs (front ++ [source]) =
      newInputs front ++ if front.getLast? = some source then [] else [(source, front.length)] := by
  -- Only the inputs up to an index decide whether that one is new.
  have hfront : front.zipIdx.filter (fun x => IsNew (front ++ [source]) x.2) = newInputs front := by
    apply List.filter_congr
    intro x hx
    have hlt : x.2 < front.length := by
      have := (List.mem_zipIdx hx).2.1
      omega
    rw [decide_eq_decide, isNew_append_iff hlt]
  have hlast : [source].zipIdx (0 + front.length) = [(source, front.length)] := by
    rw [Nat.zero_add]
    rfl
  rw [newInputs, List.zipIdx_append, List.filter_append, hfront, hlast]
  by_cases hsame : front.getLast? = some source
  · have hnot : ¬ IsNew (front ++ [source]) front.length := fun h => isNew_length_iff.1 h hsame
    rw [if_pos hsame, List.filter_cons_of_neg (by simpa using hnot), List.filter_nil]
  · have hnew : IsNew (front ++ [source]) front.length := isNew_length_iff.2 hsame
    rw [if_neg hsame, List.filter_cons_of_pos (by simpa using hnew), List.filter_nil]

theorem map_newInputs_concat {α : Type} (f : Text × Nat → α) (front : List Text) (source : Text) :
    (newInputs (front ++ [source])).map f = (newInputs front).map f ++
      if front.getLast? = some source then [] else [f (source, front.length)] := by
  rw [newInputs_concat, List.map_append]
  split <;> rfl

theorem passesOver_concat (clock : Nat → Reading) (n : Nat) (front : List Text) (source : Text) :
    passesOver clock (n + 1) (front ++ [source]) = passesOver clock (n + 1) front ++
      if front.getLast? = some source then [] else [passOver clock (n + 1) (source, front.length)] := by
  simp only [passesOver, if_neg (Nat.succ_ne_zero n)]
  exact map_newInputs_concat _ front source

theorem passTimes_concat (clock : Nat → Reading) (n : Nat) (front : List Text) (source : Text) :
    passTimes clock (n + 1) (front ++ [source]) = passTimes clock (n + 1) front ++
      if front.getLast? = some source then [] else [(clock (front.length * (n + 1))).pass] := by
  simp only [passTimes, if_neg (Nat.succ_ne_zero n)]
  exact map_newInputs_concat (fun x => (clock (x.2 * (n + 1))).pass) front source

theorem length_passesOver (clock : Nat → Reading) (repeats : Nat) (inputs : List Text) :
    (passesOver clock repeats inputs).length =
      if repeats = 0 then 0 else (newInputs inputs).length := by
  rw [passesOver]
  split
  case isTrue => rfl
  case isFalse => exact List.length_map _

theorem length_timesOf_passesOver (s : SizeClass) (clock : Nat → Reading) (repeats : Nat)
    (inputs : List Text) : (timesOf s (passesOver clock repeats inputs)).length =
      if repeats = 0 then 0 else (newInputsOf s inputs).length := by
  rw [passesOver]
  split
  case isTrue => rfl
  case isFalse =>
    rw [timesOf, List.length_map, List.filter_map, List.length_map]
    rfl

theorem length_flatMap_replicate (n : Nat) (ts : List Text) :
    (ts.flatMap (List.replicate n)).length = ts.length * n := by
  induction ts with
  | nil => exact (Nat.zero_mul n).symm
  | cons t ts ih =>
    rw [List.flatMap_cons, List.length_append, List.length_replicate, ih, List.length_cons,
      Nat.succ_mul, Nat.add_comm]

/-- The painter after so many hits more. -/
def withHits (p : Painter) (n : Nat) : Painter :=
  { p with counts := { p.counts with hits := p.counts.hits + n } }

theorem withHits_hit (p : Painter) (n : Nat) :
    withHits { p with counts := p.counts.hit } n = withHits p (n + 1) := by
  have hhits : p.counts.hits + 1 + n = p.counts.hits + (n + 1) := by omega
  simp only [withHits, Counts.hit, hhits]

variable [Fingerprint]

/-- The painter after a text that was not the one it showed. -/
def afterOther (p : Painter) (source : Text) : Painter :=
  { p with
    last := some (Painter.Memory.of p.sheet source)
    counts := p.counts.miss.pass (lex source).length }

/-- The painter was asked for each input so many times. It shows the last one, missed the new ones and
hit in all other requests. -/
structure HasShown (repeats : Nat) (inputs : List Text) (p : Painter) : Prop where
  enabled : p.enabled
  last_eq : p.last = inputs.getLast?.map (Painter.Memory.of p.sheet)
  passes_eq : p.counts.passes = (newInputs inputs).length
  misses_eq : p.counts.misses = (newInputs inputs).length
  all_eq : p.counts.hits + p.counts.misses = repeats * inputs.length

theorem hasShown_nil (repeats : Nat) : HasShown repeats [] {} :=
  ⟨rfl, rfl, rfl, rfl, rfl⟩

theorem HasShown.again (h : HasShown repeats front p) (hsame : front.getLast? = some source) :
    HasShown repeats (front ++ [source]) (withHits p repeats) := by
  obtain ⟨henabled, hlast, hpasses, hmisses, hall⟩ := h
  have hinputs : newInputs (front ++ [source]) = newInputs front := by
    rw [newInputs_concat, if_pos hsame, List.append_nil]
  refine ⟨henabled, ?_, ?_, ?_, ?_⟩
  · rw [List.getLast?_concat, ← hsame]
    exact hlast
  · rw [hinputs]
    exact hpasses
  · rw [hinputs]
    exact hmisses
  · rw [List.length_append, List.length_singleton, Nat.mul_succ]
    dsimp only [withHits]
    omega

theorem HasShown.other (h : HasShown (n + 1) front p) (hother : front.getLast? ≠ some source) :
    HasShown (n + 1) (front ++ [source]) (withHits (afterOther p source) n) := by
  obtain ⟨henabled, -, hpasses, hmisses, hall⟩ := h
  have hpass : (withHits (afterOther p source) n).counts.passes = p.counts.passes + 1 := rfl
  have hmiss : (withHits (afterOther p source) n).counts.misses = p.counts.misses + 1 := rfl
  have hlength : (newInputs (front ++ [source])).length = (newInputs front).length + 1 := by
    rw [newInputs_concat, if_neg hother, List.length_append, List.length_singleton]
  refine ⟨henabled, ?_, ?_, ?_, ?_⟩
  · rw [List.getLast?_concat]
    rfl
  · rw [hlength, hpass, hpasses]
  · rw [hlength, hmiss, hmisses]
  · rw [List.length_append, List.length_singleton, Nat.mul_succ, hmiss, ← hall]
    dsimp only [withHits, afterOther, Counts.miss, Counts.pass]
    omega

theorem requestAll?_append (t : Trial) (index : Nat) (xs ys : List Text) :
    t.requestAll? clock index (xs ++ ys) =
      (t.requestAll? clock index xs).bind (·.requestAll? clock (index + xs.length) ys) := by
  induction xs generalizing t index with
  | nil => rfl
  | cons source xs ih =>
    have hlength : index + (source :: xs).length = index + 1 + xs.length := by
      rw [List.length_cons]
      omega
    rw [List.cons_append, Trial.requestAll?, Trial.requestAll?, hlength]
    simp only [Option.bind_eq_bind, Option.bind_assoc, ih]

/-- A text that is shown costs no pass, however often it is asked for. -/
theorem requestAll?_shown (henabled : t.painter.enabled)
    (hlast : t.painter.last = some (Painter.Memory.of t.painter.sheet source)) (n index : Nat) :
    t.requestAll? clock index (List.replicate n source) =
      some { t with painter := withHits t.painter n } := by
  induction n generalizing t index with
  | zero => rfl
  | succ n ih =>
    have hknown : ¬ t.painter.Misses source := fun h => h.2 _ hlast (Painter.knows_iff.2 ⟨rfl, rfl⟩)
    have hanswer := Painter.paint?_eq_some fun h => absurd h hknown
    have hsame : ¬ t.painter.counts.passes < t.painter.counts.hit.passes := Nat.lt_irrefl _
    have hrest := ih (t := { t with painter := { t.painter with counts := t.painter.counts.hit } })
      henabled hlast (index + 1)
    rw [withHits_hit] at hrest
    rw [List.replicate_succ, Trial.requestAll?, Trial.request?, hanswer,
      Painter.paint_shown henabled hlast]
    simp only [Option.bind_eq_bind, Option.bind_some, Trial.record?, if_neg hsame]
    exact hrest

theorem request?_of_misses (hmisses : t.painter.Misses source) (reading : Reading) :
    t.request? source reading = some t' ↔
      Duration.canDivide (t.painter.counts.passes + 1) ∧
      t'.total.nanos = t.total.nanos + reading.pass.nanos ∧
      t.benchmark.pass? ⟨source.byteLength, reading.request, (lex source).length⟩ =
        some t'.benchmark ∧
      t'.painter = afterOther t.painter source := by
  by_cases hcount : Duration.canDivide (t.painter.counts.passes + 1)
  · have hanswer := Painter.paint?_eq_some fun _ : t.painter.Misses source => hcount
    have hpasses : t.painter.counts.passes < (afterOther t.painter source).counts.passes :=
      Nat.lt_succ_self _
    have htokens : (afterOther t.painter source).counts.tokens - t.painter.counts.tokens =
        (lex source).length :=
      Nat.add_sub_cancel_left _ _
    rw [Trial.request?, hanswer, Painter.paint_of_misses hmisses, Option.bind_eq_bind,
      Option.bind_some]
    change t.record? source (afterOther t.painter source) reading = some t' ↔ _
    rw [Trial.record?, if_pos hpasses, htokens]
    simp only [Option.bind_eq_bind, Option.bind_eq_some_iff, Duration.add?,
      Duration.ofNanos?_eq_some_iff, Option.pure_def, Option.some.injEq]
    constructor
    · rintro ⟨total, htotal, benchmark, hpass, rfl⟩
      exact ⟨hcount, htotal, hpass, rfl⟩
    · rintro ⟨-, htotal, hpass, hpainter⟩
      exact ⟨t'.total, htotal, t'.benchmark, hpass, hpainter ▸ rfl⟩
  · have hzero := Duration.canDivide_eq_false_iff.1 (Bool.eq_false_iff.2 hcount)
    have hnone := Painter.paint?_eq_none_iff.2 ⟨hmisses, hzero⟩
    rw [Trial.request?, hnone]
    exact iff_of_false (Option.some_ne_none t').symm fun h => hcount h.1

/-- Another text costs one pass, and is shown from then on. -/
theorem requestAll?_of_misses (hmisses : t.painter.Misses source) (n index : Nat) :
    t.requestAll? clock index (List.replicate (n + 1) source) = some t' ↔
      Duration.canDivide (t.painter.counts.passes + 1) ∧
      t'.total.nanos = t.total.nanos + (clock index).pass.nanos ∧
      t.benchmark.pass? ⟨source.byteLength, (clock index).request, (lex source).length⟩ =
        some t'.benchmark ∧
      t'.painter = withHits (afterOther t.painter source) n := by
  -- The first request takes the pass, and the others find the text shown.
  have hrest {u : Trial} (hu : u.painter = afterOther t.painter source) :
      u.requestAll? clock (index + 1) (List.replicate n source) =
        some { u with painter := withHits u.painter n } := by
    apply requestAll?_shown
    · rw [hu]
      exact hmisses.1
    · rw [hu]
      rfl
  rw [List.replicate_succ, Trial.requestAll?, Option.bind_eq_bind, Option.bind_eq_some_iff]
  constructor
  · rintro ⟨u, hu, hlater⟩
    obtain ⟨hcount, htotal, hpass, hpainter⟩ := (request?_of_misses hmisses _).1 hu
    rw [hrest hpainter] at hlater
    cases hlater
    exact ⟨hcount, htotal, hpass, congrArg (withHits · n) hpainter⟩
  · rintro ⟨hcount, htotal, hpass, hpainter⟩
    refine ⟨{ t' with painter := afterOther t.painter source }, ?_, ?_⟩
    · exact (request?_of_misses hmisses _).2 ⟨hcount, htotal, hpass, rfl⟩
    · rw [hrest rfl, ← hpainter]

omit [Fingerprint] in
theorem sum_passTimes_concat (clock : Nat → Reading) (n : Nat) (hnew : front.getLast? ≠ some source) :
    ((passTimes clock (n + 1) (front ++ [source])).map Duration.nanos).sum =
      ((passTimes clock (n + 1) front).map Duration.nanos).sum +
        (clock (front.length * (n + 1))).pass.nanos := by
  rw [passTimes_concat, if_neg hnew, List.map_append, List.sum_append]
  rfl

theorem exists_requestAll? (clock : Nat → Reading) (n : Nat)
    (hseparates : Fingerprint.Separates inputs) :
    ∃ p, HasShown (n + 1) inputs p ∧ ∀ t,
      ({} : Trial).requestAll? clock 0 (inputs.flatMap (List.replicate (n + 1))) = some t ↔
        (newInputs inputs).length < Duration.countLimit ∧
        t.total.nanos = ((passTimes clock (n + 1) inputs).map Duration.nanos).sum ∧
        ({} : Benchmark).start.passAll? (passesOver clock (n + 1) inputs) = some t.benchmark ∧
        t.painter = p := by
  -- What the painter shows after the inputs in front decides what the next one costs, so the induction
  -- puts one input more behind the others.
  induction inputs using List.reverseRecOn with
  | nil =>
    refine ⟨{}, hasShown_nil (n + 1), ?_⟩
    intro t
    constructor
    · rintro ⟨⟩
      exact ⟨by decide, rfl, rfl, rfl⟩
    · rintro ⟨-, htotal, hbenchmark, hpainter⟩
      obtain ⟨b, p, d⟩ := t
      obtain rfl : d = .zero := Duration.ext htotal
      cases hpainter
      cases hbenchmark
      rfl
  | append_singleton front source ih =>
    obtain ⟨p, hp, hrun⟩ := ih (hseparates.mono (List.subset_append_left front [source]))
    have hmem : ∀ t ∈ front.getLast?, t ∈ front ++ [source] := by
      intro t ht
      exact List.mem_append_left _ (List.mem_of_getLast? ht)
    rw [List.flatMap_append, List.flatMap_singleton, requestAll?_append, length_flatMap_replicate,
      Nat.zero_add]
    simp only [Option.bind_eq_some_iff, hrun]
    by_cases hsame : front.getLast? = some source
    · refine ⟨withHits p (n + 1), hp.again hsame, ?_⟩
      have hlast := hp.last_eq
      rw [hsame] at hlast
      rw [passesOver_concat, newInputs_concat, passTimes_concat, if_pos hsame, if_pos hsame,
        if_pos hsame, List.append_nil, List.append_nil, List.append_nil]
      intro t
      constructor
      · rintro ⟨u, ⟨hfew, htotal, hbenchmark, rfl⟩, hlater⟩
        rw [requestAll?_shown hp.enabled hlast] at hlater
        cases hlater
        exact ⟨hfew, htotal, hbenchmark, rfl⟩
      · rintro ⟨hfew, htotal, hbenchmark, hpainter⟩
        refine ⟨{ t with painter := p }, ⟨hfew, htotal, hbenchmark, rfl⟩, ?_⟩
        rw [requestAll?_shown hp.enabled hlast, ← hpainter]
    · refine ⟨withHits (afterOther p source) n, hp.other hsame, ?_⟩
      have hmisses : p.Misses source := Painter.misses_other hp.enabled hp.last_eq hmem hsame hseparates
        (List.mem_append_right _ List.mem_cons_self)
      have hlength : (newInputs (front ++ [source])).length = p.counts.passes + 1 := by
        rw [newInputs_concat, if_neg hsame, hp.passes_eq, List.length_append, List.length_singleton]
      have hpasses : passesOver clock (n + 1) (front ++ [source]) =
          passesOver clock (n + 1) front ++ [passOver clock (n + 1) (source, front.length)] := by
        rw [passesOver_concat, if_neg hsame]
      rw [hlength, hpasses, sum_passTimes_concat clock n hsame, passAll?_concat, ← hp.passes_eq]
      intro t
      rw [Option.bind_eq_some_iff]
      constructor
      · rintro ⟨u, ⟨hfew, htotal, hbenchmark, rfl⟩, hlater⟩
        obtain ⟨hcount, hnow, hpass, hpainter⟩ := (requestAll?_of_misses hmisses _ _).1 hlater
        rw [htotal] at hnow
        exact ⟨(Duration.canDivide_succ_iff hfew).1 hcount, hnow, ⟨u.benchmark, hbenchmark, hpass⟩,
          hpainter⟩
      · rintro ⟨hfew, htotal, ⟨c, hbenchmark, hpass⟩, hpainter⟩
        have hbefore : p.counts.passes < Duration.countLimit := Nat.lt_of_succ_lt hfew
        -- The total before the pass is a span of time, as the total with it is one.
        obtain ⟨d, hd⟩ := Duration.exists_ofNanos?
          (Nat.lt_of_le_of_lt (Nat.le_add_right _ _) (htotal ▸ t.total.fits))
        rw [Duration.ofNanos?_eq_some_iff] at hd
        refine ⟨⟨c, p, d⟩, ⟨hbefore, hd, hbenchmark, rfl⟩, ?_⟩
        apply (requestAll?_of_misses (t := ⟨c, p, d⟩) hmisses _ _).2
        refine ⟨(Duration.canDivide_succ_iff hbefore).2 hfew, ?_, hpass, hpainter⟩
        rw [htotal, hd]

theorem exists_run? (clock : Nat → Reading) (repeats : Nat)
    (hseparates : Fingerprint.Separates inputs) :
    ∃ counts : Counts, counts.misses = (passesOver clock repeats inputs).length ∧
      counts.hits + counts.misses = repeats * inputs.length ∧
      ∀ b, run? clock inputs repeats = some b ↔
        (passesOver clock repeats inputs).length < Duration.countLimit ∧
        FitTogether (passTimes clock repeats inputs) ∧
        ∃ b', ({} : Benchmark).start.passAll? (passesOver clock repeats inputs) = some b' ∧
          b = b'.recordCounts counts := by
  cases repeats with
  | zero =>
    have hnone : inputs.flatMap (List.replicate 0) = [] := by simp
    refine ⟨{}, rfl, (Nat.zero_mul _).symm, ?_⟩
    intro b
    have hpos : 0 < Duration.countLimit := by decide
    rw [run?, hnone]
    constructor
    · rintro ⟨⟩
      exact ⟨hpos, fitTogether_nil, _, rfl, rfl⟩
    · rintro ⟨-, -, b', hb', rfl⟩
      cases hb'
      rfl
  | succ n =>
    obtain ⟨p, hp, hrun⟩ := exists_requestAll? clock n hseparates
    have hlength : (passesOver clock (n + 1) inputs).length = (newInputs inputs).length := by
      rw [length_passesOver, if_neg (Nat.succ_ne_zero n)]
    refine ⟨p.counts, hp.misses_eq.trans hlength.symm, hp.all_eq, ?_⟩
    intro b
    rw [run?, hlength]
    simp only [Option.map_eq_some_iff, hrun]
    constructor
    · rintro ⟨t, ⟨hfew, htotal, hbenchmark, rfl⟩, rfl⟩
      refine ⟨hfew, ?_, t.benchmark, hbenchmark, rfl⟩
      rw [FitTogether, ← htotal]
      exact t.total.fits
    · rintro ⟨hfew, hfit, b', hb', rfl⟩
      exact ⟨⟨b', p, ⟨_, hfit⟩⟩, ⟨hfew, rfl, hb', rfl⟩, rfl⟩

/-- There is a benchmark exactly if the painter makes fewer than 2 ^ 32 passes and no sum of times is
too long. It measures one pass for each new input, whatever the clock reads. -/
theorem run?_measures (clock : Nat → Reading) (inputs : List Text) (repeats : Nat)
    (hseparates : Fingerprint.Separates inputs) :
    ((∃ b, run? clock inputs repeats = some b) ↔
      (passesOver clock repeats inputs).length < Duration.countLimit ∧
      FitTogether (passTimes clock repeats inputs) ∧
      ∀ s, FitTogether (timesOf s (passesOver clock repeats inputs))) ∧
    ∀ b, run? clock inputs repeats = some b → b.Measures clock repeats inputs := by
  obtain ⟨counts, hmisses, hall, hrun⟩ := exists_run? clock repeats hseparates
  have hstart : Gathers [] ({} : Benchmark).start := gathers_empty.start
  constructor
  · constructor
    · rintro ⟨b, hb⟩
      obtain ⟨hfew, hfit, b', hb', -⟩ := (hrun b).1 hb
      exact ⟨hfew, hfit, fun s => ((gathers_passAll? hstart hb').2 s).sum_lt⟩
    · rintro ⟨hfew, hfit, hsum⟩
      have hcan (s : SizeClass) :
          Duration.CanAverage (timesOf s (passesOver clock repeats inputs)) :=
        ⟨hsum s, Nat.lt_of_le_of_lt (length_timesOf_le s _) hfew⟩
      obtain ⟨b', hb'⟩ := exists_passAll? hstart hcan
      exact ⟨_, (hrun _).2 ⟨hfew, hfit, b', hb', rfl⟩⟩
  · intro b hb
    obtain ⟨-, -, b', hb', rfl⟩ := (hrun b).1 hb
    have hgathers := ((gathers_passAll? hstart hb').1).recordCounts counts
    have hpasses : counts.misses = (b'.recordCounts counts).passes := by
      rw [hmisses, hgathers.passes_eq]
    refine ⟨hgathers, ?_, ?_, ?_, counts.hits, ?_, ?_⟩
    · rw [hgathers.passes_eq, length_passesOver]
    · intro s
      rw [hgathers.times_eq, length_timesOf_passesOver]
    · intro s
      rw [hgathers.isSome_averages_iff, ne_eq, ← List.length_eq_zero_iff, length_timesOf_passesOver,
        ne_eq (newInputsOf s inputs), ← List.length_eq_zero_iff]
      split
      case isTrue hzero => exact iff_of_false (not_not_intro rfl) fun h => h.1 hzero
      case isFalse hpos => exact (and_iff_right hpos).symm
    · rw [← hpasses, hall]
    · rw [← hall]
      rfl

end

/-- A text that comes twice in a row and once more later on, and an empty one. -/
def recurring : List Text := ["a".toList, "a".toList, "b c".toList, "a".toList, []]

/-- A clock by which the first requests take longer than the others. -/
def warmingUp (i : Nat) : Reading :=
  if i < 3 then ⟨⟨5000, by decide⟩, ⟨4000, by decide⟩⟩ else ⟨⟨70, by decide⟩, ⟨60, by decide⟩⟩

theorem run?_measures_recurring :
    Fingerprint.Separates recurring ∧
    newInputs recurring = [("a".toList, 0), ("b c".toList, 2), ("a".toList, 3), ([], 4)] ∧
    ∃ b, run? warmingUp recurring 3 = some b ∧ b.Measures warmingUp 3 recurring ∧ b.passes = 4 ∧
      (b.times .small).length = 4 ∧ b.averages .medium = none ∧
      b.hitRatio = Float.ofNat 11 / Float.ofNat 15 := by
  have hseparates : Fingerprint.Separates recurring := by decide +kernel
  have hfew : (passesOver warmingUp 3 recurring).length < Duration.countLimit := by
    decide +kernel
  have hfit : FitTogether (passTimes warmingUp 3 recurring) := by
    unfold FitTogether
    decide +kernel
  have hsum (s : SizeClass) : FitTogether (timesOf s (passesOver warmingUp 3 recurring)) := by
    unfold FitTogether
    cases s <;> decide +kernel
  obtain ⟨hsome, hmeasures⟩ := run?_measures warmingUp recurring 3 hseparates
  obtain ⟨b, hb⟩ := hsome.2 ⟨hfew, hfit, hsum⟩
  have hmedium : newInputsOf .medium recurring = [] := by decide +kernel
  have hpasses : b.passes = 4 := by
    rw [(hmeasures b hb).passes_eq]
    decide +kernel
  refine ⟨hseparates, by decide +kernel, b, hb, hmeasures b hb, hpasses, ?_, ?_, ?_⟩
  · rw [(hmeasures b hb).lengths_eq]
    decide +kernel
  · apply Option.not_isSome_iff_eq_none.1
    intro h
    exact (((hmeasures b hb).averages_iff .medium).1 h).2 hmedium
  · obtain ⟨hits, hall, hratio⟩ := (hmeasures b hb).hitRatio_eq
    have hrequests : 3 * recurring.length = 15 := rfl
    have hhits : hits = 11 := by omega
    rw [hratio, hrequests, hhits]
    exact if_neg (by decide)

theorem length_newInputs_turns (n : Nat) : (newInputs (turns n)).length = n := by
  induction n with
  | zero => rfl
  | succ n ih =>
    have hother : (turns n).getLast? ≠ some (turn n) := by
      cases n with
      | zero => exact (Option.some_ne_none _).symm
      | succ n =>
        rw [turns_succ, List.getLast?_concat]
        exact fun h => turn_succ_ne n (Option.some.inj h).symm
    rw [turns_succ, newInputs_concat, if_neg hother, List.length_append, ih]
    rfl

/-- A clock that stands still. -/
def standingStill (_ : Nat) : Reading := ⟨.zero, .zero⟩

/-- There is no benchmark of 2 ^ 32 inputs that are all new, though no time was too long. -/
theorem run?_turns :
    Fingerprint.Separates (turns Duration.countLimit) ∧
    FitTogether (passTimes standingStill 1 (turns Duration.countLimit)) ∧
    (∀ s, FitTogether (timesOf s (passesOver standingStill 1 (turns Duration.countLimit)))) ∧
    run? standingStill (turns Duration.countLimit) 1 = none := by
  have hseparates := separates_turns Duration.countLimit
  refine ⟨hseparates, ?_, ?_, ?_⟩
  · apply fitTogether_of_zero
    intro d hd
    obtain ⟨x, -, rfl⟩ := List.mem_map.1 hd
    rfl
  · intro s
    apply fitTogether_of_zero
    intro d hd
    obtain ⟨pass, hpass, rfl⟩ := List.mem_map.1 hd
    obtain ⟨x, -, rfl⟩ := List.mem_map.1 (List.mem_of_mem_filter hpass)
    rfl
  · obtain ⟨counts, -, -, hrun⟩ := exists_run? standingStill 1 hseparates
    apply Option.eq_none_iff_forall_ne_some.2
    intro b hb
    have hfew := ((hrun b).1 hb).1
    rw [length_passesOver, if_neg (by decide), length_newInputs_turns] at hfew
    exact Nat.lt_irrefl _ hfew

end Benchmark

end ScriptEditor
