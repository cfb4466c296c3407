import ScriptEditor.Benchmark
import ScriptEditor.Benchmark.Sample
import ScriptEditor.Disk
import ScriptEditor.Page
import ScriptEditor.Tally

namespace ScriptEditor.CommandLine

def repeats : Nat := 5

def put (t : Text) : IO Unit := IO.println (String.ofList t)

def causeOf : IO.Error → Text
  | .noFileOrDirectory .. => ReadFault.notFound.message
  | .inappropriateType none .. => ReadFault.isFolder.message
  | .inappropriateType (some _) .. => ReadFault.notFolder.message
  | .invalidArgument (some path) .. =>
    if path.toList.contains '\x00' then ReadFault.nulInPath.message
    else ReadFault.pathTooLong.message
  | e => (toString e).toList

def load (path : String) : IO (Except Failure Text) := do
  try
    let bytes ← IO.FS.readBinFile path
    return (Disk.decode bytes).mapError fun f => .unreadable path.toList f.message
  catch e => return .error (.unreadable path.toList (causeOf e))

def loadAll : List String → IO (Except Failure (List Text))
  | [] => return .ok []
  | path :: rest => do
    match ← load path with
    | .error f => return .error f
    | .ok t => return (← loadAll rest).map (t :: ·)

/-- What the action gives, and how long it took. -/
def timed (f : Unit → α) : IO (α × Duration) := do
  let start ← IO.monoNanosNow
  let a ← IO.lazyPure f
  let time := (← IO.monoNanosNow) - start
  return (a, (Duration.ofNanos? time).getD .zero)

/-- Asks one painter for each input so many times. A pass takes nearly all of the time of its request. -/
def measure (inputs : List Text) : IO Benchmark := do
  let mut trial : Benchmark.Trial := {}
  for source in inputs do
    for _ in [0:repeats] do
      let before := trial
      let (answer?, time) ← timed fun _ => before.painter.paint? source
      trial := (answer?.bind fun (_, after) => before.record? source after ⟨time, time⟩).getD before
  return trial.finish

/-- Types the sample script into a page, one character after another. -/
def replay : IO Unit := do
  let mut page := Page.empty .standard
  let mut typed : Text := []
  let mut tally : Tally := {}
  for c in Sample.script do
    let text := typed ++ [c]
    let before := page
    let (answer?, time) ← timed fun _ => before.input? text
    typed := text
    page := (answer?.map Prod.snd).getD before
    tally := (tally.pass? time 0).getD tally
  put <| "  ".toList ++ Decimal.digits typed.length ++ " keystrokes in ".toList ++
    Decimal.digits tally.total.millis ++ "ms (avg ".toList ++ Decimal.digits tally.average.micros ++
    "us, max ".toList ++ Decimal.digits tally.longest.micros ++ "us per highlight)".toList
  put <| "  ".toList ++ Decimal.digits (Text.countLines page.layer.numbers) ++
    " lines in the final gutter".toList

def run (inputs : List Text) : IO UInt32 := do
  put "=== Highlighter Performance Baseline ===".toList
  put <| "Measuring ".toList ++ Decimal.digits inputs.length ++ " inputs, ".toList ++
    Decimal.digits repeats ++ " passes each\n".toList
  let start ← IO.monoNanosNow
  let b ← measure inputs
  let elapsed := (← IO.monoNanosNow) - start
  put <| "Baseline test completed in ".toList ++
    Decimal.ofFloat 2 (Float.ofNat elapsed / 1e9) ++ "s\n".toList
  put (b.report (Decimal.digits (elapsed / 1000000)))
  put "=== Replaying Keystrokes Through An Editor Session ===".toList
  replay
  if b.meetsBudgets then
    put "\nAll performance budgets met.".toList
    return 0
  else
    put "\nPerformance issues detected:".toList
    for issue in b.issues do
      put ("  - ".toList ++ issue)
    return 1

end ScriptEditor.CommandLine

open ScriptEditor in
def main (args : List String) : IO UInt32 := do
  let inputs ← if args.isEmpty then pure (.ok (Sample.inputs.map Prod.snd))
    else CommandLine.loadAll args
  match inputs with
  | .ok inputs => CommandLine.run inputs
  | .error f => do
    IO.eprintln ("error: " ++ String.ofList f.message)
    return 1
