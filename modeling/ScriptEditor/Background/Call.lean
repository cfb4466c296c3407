import ScriptEditor.Background
import ScriptEditor.Duration

namespace ScriptEditor.Background

inductive Call
  | submit (request : Request)
  | receive
  | receiveWithin (time : Duration)
  | newest
  | shutDown
deriving DecidableEq

/-- What a call that does not fail gives: nothing to speak of, a reply, or no reply in time. -/
inductive Answer
  | done
  | reply (r : Reply)
  | nothing
deriving DecidableEq, Repr

def Answer.reply? : Answer → Option Reply
  | reply r => some r
  | done | nothing => none

variable [Fingerprint]

namespace State

/-- Waiting for the next reply. There is no answer where the worker has to come first. -/
def receiveAnswer? (s : State) : Option (Except Failure Answer × State) :=
  match s.receive? with
  | some (.ok (reply, s')) => some (.ok (.reply reply), s')
  | some (.error failure) => some (.error failure, s)
  | none => none

def newestAnswer (s : State) : Except Failure Answer × State :=
  match s.newest with
  | .ok (some reply, s') => (.ok (.reply reply), s')
  | .ok (none, s') => (.ok .nothing, s')
  | .error failure => (.error failure, s)

/-- What a call answers. A call that fails leaves the state as it is, and so does one whose time
runs out. -/
def call? (s : State) : Call → Option (Except Failure Answer × State)
  | .submit request =>
    match s.submit request with
    | .ok s' => some (.ok .done, s')
    | .error failure => some (.error failure, s)
  | .receive => s.receiveAnswer?
  | .receiveWithin _ => s.receiveAnswer?.getD (.ok .nothing, s)
  | .newest => s.newestAnswer
  | .shutDown => some (.ok .done, s.finish)

/-- The answers to calls that follow each other, and the state after the last. -/
def calls? (s : State) : List Call → Option (List (Except Failure Answer) × State)
  | [] => some ([], s)
  | call :: rest => do
    let (answer, s') ← s.call? call
    let (answers, s'') ← s'.calls? rest
    return (answer :: answers, s'')

end State

end ScriptEditor.Background
