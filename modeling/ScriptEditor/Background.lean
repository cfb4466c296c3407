import ScriptEditor.Failure
import ScriptEditor.Layer

/-! Requests wait in a queue; the worker paints the newest of them and lets the others go. -/

namespace ScriptEditor.Background

structure Request where
  revision : Nat
  text : Text
deriving DecidableEq, Repr

structure Reply where
  revision : Nat
  layer : Layer
deriving DecidableEq, Repr

/-- Where the loop of the worker stands: it waits for a request, looks for a newer one than the one
it has, paints it, or has ended. -/
inductive Stage
  | waiting
  | collecting (newest : Request)
  | painting (request : Request)
  | stopped
deriving DecidableEq, Repr

structure State where
  settings : Settings
  painter : Painter
  stage : Stage := .waiting
  accepting : Bool := true
  requests : List Request := []
  replies : List Reply := []

variable [Fingerprint]

namespace State

def start (settings : Settings) : State := { settings, painter := .ofSettings settings }

/-- The next step of the worker, whose painter answers every request; none while it waits in vain and
once it has ended. It ends when nothing waits and nothing more can come. -/
def work? (s : State) : Option State :=
  match s.stage, s.requests with
  | .waiting, r :: rest => some { s with stage := .collecting r, requests := rest }
  | .waiting, [] => if s.accepting then none else some { s with stage := .stopped }
  | .collecting _, r :: rest => some { s with stage := .collecting r, requests := rest }
  | .collecting r, [] => some { s with stage := .painting r }
  | .painting r, _ =>
    let (layer, painter) := s.painter.paintLayer s.settings r.text
    some { s with painter, stage := .waiting, replies := s.replies ++ [⟨r.revision, layer⟩] }
  | .stopped, _ => none

/-- An upper bound of the steps that the worker can make before it waits. -/
def workLeft (s : State) : Nat :=
  4 * s.requests.length +
    match s.stage with
    | .waiting => 1
    | .collecting _ => 3
    | .painting _ => 2
    | .stopped => 0

theorem workLeft_lt {s s' : State} (h : s.work? = some s') : s'.workLeft < s.workLeft := by
  unfold work? at h
  split at h <;> grind [workLeft]

/-- Lets the worker go on until it waits or has ended. -/
def settle (s : State) : State :=
  match _h : s.work? with
  | some s' => s'.settle
  | none => s
termination_by s.workLeft
decreasing_by exact workLeft_lt (by assumption)

def submit (s : State) (r : Request) : Except Failure State :=
  if s.accepting then .ok { s with requests := s.requests ++ [r] } else .error .disconnected

/-- The reply that is first in the queue. Where there is none the client has to wait, unless the
worker has ended. -/
def receive? (s : State) : Option (Except Failure (Reply × State)) :=
  match s.replies with
  | r :: rest => some (.ok (r, { s with replies := rest }))
  | [] => if s.stage = .stopped then some (.error .disconnected) else none

/-- The last reply in the queue, if any; those before it are lost. -/
def newest (s : State) : Except Failure (Option Reply × State) :=
  match s.replies.getLast? with
  | some r => .ok (some r, { s with replies := [] })
  | none => if s.stage = .stopped then .error .disconnected else .ok (none, s)

/-- Receives until a reply has the revision. -/
def receiveRevision? (s : State) (revision : Nat) : Option (Except Failure (Reply × State)) :=
  State.receive? { s with replies := s.replies.dropWhile (·.revision != revision) }

/-- Nothing can be submitted any more. -/
def close (s : State) : State := { s with accepting := false }

/-- Waits for the worker to finish what is in the queue and to end. -/
def finish (s : State) : State := s.close.settle

end State

end ScriptEditor.Background
