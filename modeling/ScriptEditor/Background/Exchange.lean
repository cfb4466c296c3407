import ScriptEditor.Background

/-! A client and the worker go on in steps, and a step of one may come between any two of the other. -/

namespace ScriptEditor.Background

/-- What a call gave to the client: the next reply, or the newest, after some that were dropped. -/
inductive Delivery
  | next (reply : Reply)
  | newest (dropped : List Reply) (reply : Reply)
deriving DecidableEq, Repr

namespace Delivery

def reply : Delivery → Reply
  | next reply => reply
  | newest _ reply => reply

/-- All replies that were taken out of the queue for it. -/
def taken : Delivery → List Reply
  | next reply => [reply]
  | newest dropped reply => dropped ++ [reply]

end Delivery

/-- Whether the client is in the middle of looking for the newest reply, and what it has found. -/
inductive Client
  | idle
  | looking (dropped : List Reply) (newest : Reply)
deriving DecidableEq, Repr

namespace Client

def keep : Client → Reply → Client
  | idle, reply => looking [] reply
  | looking dropped newest, reply => looking (dropped ++ [newest]) reply

/-- The replies that were taken out of the queue and not delivered yet. -/
def held : Client → List Reply
  | idle => []
  | looking dropped newest => dropped ++ [newest]

/-- What looking for the newest reply gives, if it ends now. -/
def delivery? : Client → Option Delivery
  | idle => none
  | looking dropped newest => some (.newest dropped newest)

theorem keep_eq (client : Client) (reply : Reply) : client.keep reply = looking client.held reply := by
  cases client with
  | idle => rfl
  | looking dropped newest => rfl

@[simp] theorem held_keep (client : Client) (reply : Reply) :
    (client.keep reply).held = client.held ++ [reply] := by
  rw [keep_eq, held]

theorem foldl_keep_concat (client : Client) (replies : List Reply) (reply : Reply) :
    (replies ++ [reply]).foldl keep client = looking (client.held ++ replies) reply := by
  induction replies generalizing client with
  | nil =>
    rw [List.append_nil, ← keep_eq]
    rfl
  | cons r rest ih =>
    rw [List.cons_append, List.foldl_cons, ih, held_keep, List.append_assoc]
    rfl

theorem flatMap_taken_delivery (client : Client) :
    client.delivery?.toList.flatMap Delivery.taken = client.held := by
  cases client with
  | idle => rfl
  | looking dropped newest => exact List.append_nil _

end Client

structure Exchange where
  state : State
  client : Client := .idle
  submitted : List Request := []
  sent : List Reply := []
  delivered : List Delivery := []

/-- A step of the worker, or one of the client: it submits, takes the next reply or gives up waiting
for it, takes one look for the newest reply, or lets the worker end. -/
inductive Move
  | work
  | submit (request : Request)
  | receive
  | giveUp
  | look
  | close
deriving DecidableEq, Repr

variable [Fingerprint]

namespace Exchange

def start (settings : Settings) : Exchange := { state := .start settings }

/-- The exchange after a move, if the move is possible. While the client looks for the newest reply it
can do nothing else, save that others may submit. -/
def step? (e : Exchange) : Move → Option Exchange
  | .work => e.state.work?.map fun state =>
    { e with state, sent := e.sent ++ state.replies.drop e.state.replies.length }
  | .submit request =>
    match e.state.submit request with
    | .ok state => some { e with state, submitted := e.submitted ++ [request] }
    | .error _ => some e
  | .receive =>
    match e.client, e.state.receive? with
    | .idle, some (.ok (reply, state)) =>
      some { e with state, delivered := e.delivered ++ [.next reply] }
    | .idle, some (.error _) => some e
    | _, _ => none
  | .giveUp => if e.client = .idle then some e else none
  | .look =>
    match e.state.receive? with
    | some (.ok (reply, state)) => some { e with state, client := e.client.keep reply }
    | _ => some { e with
        client := .idle, delivered := e.delivered ++ e.client.delivery?.toList }
  | .close => if e.client = .idle then some { e with state := e.state.close } else none

def run? (e : Exchange) (moves : List Move) : Option Exchange := moves.foldlM step? e

theorem run?_cons (e : Exchange) (move : Move) (rest : List Move) :
    e.run? (move :: rest) = (e.step? move).bind (·.run? rest) := rfl

end Exchange

end ScriptEditor.Background
