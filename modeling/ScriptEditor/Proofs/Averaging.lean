import Mathlib.Algebra.BigOperators.Group.List.Basic
import Mathlib.Algebra.Ring.Nat
import ScriptEditor.Duration

namespace ScriptEditor.Duration

variable {ds : List Duration} {a d : Duration}

theorem sum?_eq_some_iff :
    sum? ds = some d ↔ d.nanos = (ds.map nanos).sum := by
  have hfold (n : Nat) : ds.foldl (fun n d => n + d.nanos) n = n + (ds.map nanos).sum := by
    induction ds generalizing n with
    | nil => rfl
    | cons d rest ih => rw [List.foldl_cons, ih, List.map_cons, List.sum_cons, Nat.add_assoc]
  rw [sum?, ofNanos?_eq_some_iff, hfold, Nat.zero_add]

theorem average?_eq_some_iff :
    average? ds = some a ↔ (ds.map nanos).sum < secondsLimit * nanosPerSecond ∧
      ds.length % countLimit ≠ 0 ∧ a.nanos = (ds.map nanos).sum / (ds.length % countLimit) := by
  simp only [average?, Option.bind_eq_bind, Option.bind_eq_some_iff, sum?_eq_some_iff,
    divide?_eq_some_iff]
  constructor
  · rintro ⟨d, hd, hcount, ha⟩
    exact ⟨hd ▸ d.fits, hcount, hd ▸ ha⟩
  · rintro ⟨hsum, hcount, ha⟩
    exact ⟨⟨_, hsum⟩, rfl, hcount, ha⟩

/-- The spans have a sum, and their number fits into 32 bits. -/
structure CanAverage (ds : List Duration) : Prop where
  sum_lt : (ds.map nanos).sum < secondsLimit * nanosPerSecond
  length_lt : ds.length < countLimit

theorem canAverage_nil : CanAverage [] := ⟨by decide, by decide⟩

theorem CanAverage.front (h : CanAverage (ds ++ [d])) : CanAverage ds := by
  obtain ⟨hsum, hlength⟩ := h
  rw [List.map_append, List.sum_append] at hsum
  rw [List.length_append] at hlength
  exact ⟨by omega, by omega⟩

theorem CanAverage.of_perm {ds' : List Duration} (h : CanAverage ds) (hperm : ds.Perm ds') :
    CanAverage ds' := by
  obtain ⟨hsum, hlength⟩ := h
  rw [(hperm.map nanos).sum_eq] at hsum
  rw [hperm.length_eq] at hlength
  exact ⟨hsum, hlength⟩

/-- Their average is the mean, rounded down. -/
theorem CanAverage.average?_eq_some_iff (h : CanAverage ds) (hne : ds ≠ []) :
    average? ds = some a ↔ a.nanos = (ds.map nanos).sum / ds.length := by
  have hpos : ds.length ≠ 0 := mt List.length_eq_zero_iff.1 hne
  rw [Duration.average?_eq_some_iff, Nat.mod_eq_of_lt h.length_lt]
  exact ⟨fun ha => ha.2.2, fun ha => ⟨h.sum_lt, hpos, ha⟩⟩

theorem CanAverage.exists_average? (h : CanAverage ds) (hne : ds ≠ []) :
    ∃ a, average? ds = some a :=
  ⟨⟨(ds.map nanos).sum / ds.length, Nat.lt_of_le_of_lt (Nat.div_le_self _ _) h.sum_lt⟩,
    (h.average?_eq_some_iff hne).2 rfl⟩

/-- One more can be averaged with the others if there is an average: their number has just grown by
one, so it is not zero in 32 bits unless it left them. -/
theorem CanAverage.of_average? (h : CanAverage ds) (ha : average? (ds ++ [d]) = some a) :
    CanAverage (ds ++ [d]) := by
  obtain ⟨hsum, hcount, -⟩ := Duration.average?_eq_some_iff.1 ha
  have hlength := h.length_lt
  rw [List.length_append, List.length_singleton] at hcount
  refine ⟨hsum, ?_⟩
  rw [List.length_append, List.length_singleton]
  unfold countLimit at *
  omega

end ScriptEditor.Duration
