import ScriptEditor.Benchmark.SizeClass
import ScriptEditor.Decimal
import ScriptEditor.Painter

namespace ScriptEditor

/-- One pass over an input of so many bytes. -/
structure Pass where
  bytes : Nat
  time : Duration
  tokens : Nat
deriving DecidableEq, Repr

/-- The times of each class in the order of the passes, their averages, the running averages of
tokens and bytes a second, and the ratio of requests that a painter answered from memory. -/
structure Benchmark where
  times : SizeClass → List Duration := fun _ => []
  averages : SizeClass → Option Duration := fun _ => none
  tokenRate : Float := 0.0
  byteRate : Float := 0.0
  hitRatio : Float := 0.0
  passes : Nat := 0
  started : Bool := false

namespace Benchmark

def start (b : Benchmark) : Benchmark := { b with started := true }

/-- The running average after the last of `n` passes, which had `amount` in `seconds`. -/
def runningRate (rate n amount seconds : Float) : Float :=
  (rate * (n - 1.0) + amount / seconds) / n

/-- Records a pass. A pass that took no time leaves the rates as they are. There is no benchmark if
the times of the class no longer fit together, or no average can be taken. -/
def pass? (b : Benchmark) (pass : Pass) : Option Benchmark := do
  let size := SizeClass.ofBytes pass.bytes
  let times := b.times size ++ [pass.time]
  let average ← Duration.average? times
  let n := b.passes + 1
  let seconds := pass.time.toFloat
  let rate (old : Float) (amount : Nat) : Float :=
    if seconds > 0.0 then runningRate old (Float.ofNat n) (Float.ofNat amount) seconds else old
  return { b with
    times := fun s => if s = size then times else b.times s
    averages := fun s => if s = size then some average else b.averages s
    passes := n
    tokenRate := rate b.tokenRate pass.tokens
    byteRate := rate b.byteRate pass.bytes }

/-- Records passes one after another. -/
def passAll? (b : Benchmark) (passes : List Pass) : Option Benchmark := passes.foldlM pass? b

def recordCounts (b : Benchmark) (n : Counts) : Benchmark := { b with hitRatio := n.hitRatio }

def sizeLine (size : SizeClass) (times : List Duration) : Text :=
  match Duration.average? times with
  | some average =>
    "  ".toList ++ size.name.toList ++ ": ".toList ++ Decimal.digits times.length ++
      " operations, avg ".toList ++ Decimal.digits average.micros ++ "us, max ".toList ++
      Decimal.digits (Duration.longest times).micros ++ "us\n".toList
  | none => []

/-- The lines of the rates. `elapsed` is what a benchmark that was started shows as its milliseconds
so far. -/
def rateLines (b : Benchmark) (elapsed : Text) : Text :=
  "  Token Generation Rate: ".toList ++ Decimal.ofFloat 0 b.tokenRate ++ " tokens/sec\n".toList ++
    "  Throughput: ".toList ++ Decimal.ofFloat 0 b.byteRate ++ " bytes/sec\n".toList ++
    "  Cache Hit Ratio: ".toList ++ Decimal.ofFloat 1 (b.hitRatio * 100.0) ++ "%\n".toList ++
    (if b.started then "  Session Time: ".toList ++ elapsed ++ "ms\n".toList else [])

def report (b : Benchmark) (elapsed : Text) : Text :=
  "=== Performance Baseline Report ===\n\n".toList ++
    "Highlighting Performance:\n".toList ++
    SizeClass.all.flatMap (fun s => sizeLine s (b.times s)) ++
    b.rateLines elapsed ++
    "\n=== End Report ===\n".toList

def issue? (size : SizeClass) (average : Duration) : Option Text := do
  let budget ← size.budget?
  if budget.nanos < average.nanos then
    return "Highlighting for ".toList ++ size.name.toList ++ " exceeds ".toList ++
      Decimal.digits budget.millis ++ "ms budget: ".toList ++ Decimal.digits average.micros ++
      "us".toList
  else none

/-- One issue for each class whose average time is above its budget. -/
def issues (b : Benchmark) : List Text :=
  SizeClass.all.filterMap fun s => (b.averages s).bind (issue? s)

def meetsBudgets (b : Benchmark) : Bool := b.issues.isEmpty

/-- How long a request took, and how long the pass in it, if there was one. -/
structure Reading where
  request : Duration
  pass : Duration

/-- A benchmark with the painter it asks, and the total time of the passes that this painter made. -/
structure Trial where
  benchmark : Benchmark := ({} : Benchmark).start
  painter : Painter := {}
  total : Duration := .zero

namespace Trial

/-- Records a request for the text that left the painter `after`, if it took a pass. The painter adds
up the times of its passes. -/
def record? (t : Trial) (source : Text) (after : Painter) (reading : Reading) : Option Trial :=
  let before := t.painter.counts
  if before.passes < after.counts.passes then do
    let total ← t.total.add? reading.pass
    let tokens := after.counts.tokens - before.tokens
    let benchmark ← t.benchmark.pass? ⟨source.byteLength, reading.request, tokens⟩
    return { benchmark, painter := after, total }
  else some { t with painter := after }

def finish (t : Trial) : Benchmark := t.benchmark.recordCounts t.painter.counts

variable [Fingerprint]

def request? (t : Trial) (source : Text) (reading : Reading) : Option Trial := do
  let (_, after) ← t.painter.paint? source
  t.record? source after reading

/-- Asks for the texts one after another; the clock reads the request with each index. -/
def requestAll? (clock : Nat → Reading) (t : Trial) (index : Nat) : List Text → Option Trial
  | [] => some t
  | source :: rest => do
    let t ← t.request? source (clock index)
    requestAll? clock t (index + 1) rest

end Trial

/-- Asks one painter for each input so many times. -/
def run? [Fingerprint] (clock : Nat → Reading) (inputs : List Text) (repeats : Nat) :
    Option Benchmark :=
  (({} : Trial).requestAll? clock 0 (inputs.flatMap (List.replicate repeats))).map Trial.finish

end Benchmark

end ScriptEditor
