namespace ScriptEditor

/-- The first number of seconds that is too large for a span of time. -/
def Duration.secondsLimit : Nat := 0x10000000000000000

def Duration.nanosPerSecond : Nat := 1000000000

/-- The first count that does not fit into 32 bits. -/
def Duration.countLimit : Nat := 0x100000000

@[ext]
structure Duration where
  nanos : Nat
  fits : nanos < Duration.secondsLimit * Duration.nanosPerSecond
deriving DecidableEq

namespace Duration

instance : Repr Duration := ⟨fun d _ => repr d.nanos⟩

def zero : Duration := ⟨0, by decide⟩

instance : Inhabited Duration := ⟨zero⟩

def ofNanos? (n : Nat) : Option Duration :=
  if h : n < secondsLimit * nanosPerSecond then some ⟨n, h⟩ else none

def seconds (d : Duration) : Nat := d.nanos / nanosPerSecond

/-- The nanoseconds behind the whole seconds. -/
def subsecond (d : Duration) : Nat := d.nanos % nanosPerSecond

def millis (d : Duration) : Nat := d.nanos / 1000000

def micros (d : Duration) : Nat := d.nanos / 1000

def add? (a b : Duration) : Option Duration := ofNanos? (a.nanos + b.nanos)

def max (a b : Duration) : Duration := if a.nanos < b.nanos then b else a

def longest (ds : List Duration) : Duration := ds.foldl max zero

/-- Whether a span can be divided by the count: its low 32 bits are not zero. -/
def canDivide (count : Nat) : Bool := count % countLimit ≠ 0

/-- The span divided by a count of which the low 32 bits are taken, rounded down; there is none
if these are zero. -/
def divide? (d : Duration) (count : Nat) : Option Duration :=
  let n := count % countLimit
  if n = 0 then none
  else some ⟨d.nanos / n, Nat.lt_of_le_of_lt (Nat.div_le_self _ _) d.fits⟩

def sum? (ds : List Duration) : Option Duration := ofNanos? (ds.foldl (fun n d => n + d.nanos) 0)

def average? (ds : List Duration) : Option Duration := do
  (← sum? ds).divide? ds.length

/-- The seconds as a number with a fraction: whole seconds and the rest are rounded apart and then
added. -/
def toFloat (d : Duration) : Float := Float.ofNat d.seconds + Float.ofNat d.subsecond / 1e9

theorem ofNanos?_eq_some_iff {n : Nat} {d : Duration} : ofNanos? n = some d ↔ d.nanos = n := by
  unfold ofNanos?
  split
  case isTrue h =>
    rw [Option.some.injEq, Duration.ext_iff]
    exact eq_comm
  case isFalse h =>
    constructor
    · intro hnone
      cases hnone
    · intro hd
      exact absurd (hd ▸ d.fits) h

theorem exists_ofNanos? {n : Nat} (h : n < secondsLimit * nanosPerSecond) :
    ∃ d, ofNanos? n = some d :=
  ⟨⟨n, h⟩, ofNanos?_eq_some_iff.2 rfl⟩

theorem divide?_eq_some_iff {d a : Duration} {count : Nat} :
    d.divide? count = some a ↔
      count % countLimit ≠ 0 ∧ a.nanos = d.nanos / (count % countLimit) := by
  unfold divide?
  dsimp only
  split
  case isTrue h =>
    constructor
    · intro hnone
      cases hnone
    · intro ha
      exact absurd h ha.1
  case isFalse h =>
    rw [Option.some.injEq, Duration.ext_iff]
    exact ⟨fun ha => ⟨h, ha.symm⟩, fun ha => ha.2.symm⟩

theorem canDivide_eq_false_iff {count : Nat} : canDivide count = false ↔ count % countLimit = 0 := by
  rw [canDivide, decide_eq_false_iff_not, Decidable.not_not]

theorem divide?_eq_none_iff {d : Duration} {count : Nat} :
    d.divide? count = none ↔ canDivide count = false := by
  rw [canDivide_eq_false_iff, divide?]
  split
  case isTrue h => exact iff_of_true rfl h
  case isFalse h => exact iff_of_false (Option.some_ne_none _) h

theorem canDivide_of_lt {count : Nat} (hpos : 0 < count) (hlt : count < countLimit) :
    canDivide count := by
  rw [canDivide, Nat.mod_eq_of_lt hlt]
  exact decide_eq_true (Nat.ne_of_gt hpos)

/-- The first count by which no span can be divided is the limit. -/
theorem canDivide_succ_iff {n : Nat} (h : n < countLimit) :
    canDivide (n + 1) ↔ n + 1 < countLimit := by
  constructor
  · intro hdivide
    have hne : (n + 1) % countLimit ≠ 0 := of_decide_eq_true hdivide
    unfold countLimit at *
    omega
  · exact canDivide_of_lt (Nat.succ_pos n)

theorem exists_divide? (d : Duration) {count : Nat} (h : count % countLimit ≠ 0) :
    ∃ a, d.divide? count = some a :=
  ⟨⟨d.nanos / (count % countLimit), Nat.lt_of_le_of_lt (Nat.div_le_self _ _) d.fits⟩,
    divide?_eq_some_iff.2 ⟨h, rfl⟩⟩

theorem nanos_max (a b : Duration) : (a.max b).nanos = Max.max a.nanos b.nanos := by
  unfold Duration.max
  split <;> omega

theorem longest_concat (ds : List Duration) (d : Duration) :
    longest (ds ++ [d]) = (longest ds).max d := by
  rw [longest, List.foldl_append]
  rfl

theorem nanos_longest (ds : List Duration) :
    (longest ds).nanos = (ds.map nanos).max?.getD 0 := by
  have hfold (d : Duration) :
      (ds.foldl Duration.max d).nanos = (ds.map nanos).foldl Max.max d.nanos := by
    induction ds generalizing d with
    | nil => rfl
    | cons e rest ih => rw [List.foldl_cons, ih, nanos_max, List.map_cons, List.foldl_cons]
  rw [longest, hfold, List.foldl_max]
  exact Nat.zero_max _

end Duration

end ScriptEditor
