import ScriptEditor.Background.Call
import ScriptEditor.Proofs.Answering

namespace ScriptEditor.Background

/-- What a delivery gives is the last that was taken for it. -/
theorem Delivery.getLast?_flatMap_taken (deliveries : List Delivery) :
    (deliveries.flatMap taken).getLast? = (deliveries.map reply).getLast? := by
  have htaken (d : Delivery) : d.taken.getLast? = some d.reply := by
    cases d with
    | next reply => rfl
    | newest dropped reply => exact List.getLast?_concat
  rcases List.eq_nil_or_concat' deliveries with rfl | ⟨front, d, rfl⟩
  · rfl
  · rw [List.flatMap_append, List.flatMap_singleton, List.getLast?_append, htaken, List.map_append,
      List.map_singleton, List.getLast?_concat, Option.some_or]

theorem exists_getLast?_of_forall₂ {α β : Type} {R : α → β → Prop} {xs : List α} {ys : List β}
    (h : List.Forall₂ R xs ys) {x : α} (hx : xs.getLast? = some x) :
    ∃ y, ys.getLast? = some y ∧ R x y := by
  obtain ⟨rest, hreverse⟩ := List.head?_eq_some_iff.1 (List.head?_reverse.trans hx)
  have hback := List.forall₂_reverse_iff.2 h
  rw [hreverse, List.forall₂_cons_left_iff] at hback
  obtain ⟨y, others, hxy, _, hys⟩ := hback
  refine ⟨y, ?_, hxy⟩
  rw [← List.head?_reverse, hys, List.head?_cons]

/-- The reply that was sent last waits at the end of the queue or was delivered last. -/
theorem Exchange.last_sent {e : Exchange} (haccounted : e.IsAccounted) (hidle : e.client = .idle)
    {reply : Reply} (hlast : e.sent.getLast? = some reply) :
    e.state.replies.getLast? = some reply ∨
      e.state.replies = [] ∧ (e.delivered.map Delivery.reply).getLast? = some reply := by
  rw [haccounted, hidle, Client.held, List.append_nil] at hlast
  by_cases hempty : e.state.replies = []
  · rw [hempty, List.append_nil, Delivery.getLast?_flatMap_taken] at hlast
    exact .inr ⟨hempty, hlast⟩
  · rw [List.getLast?_append_of_ne_nil _ hempty] at hlast
    exact .inl hlast

namespace Call

/-- Whether the call takes the next reply. -/
def receives : Call → Bool
  | receive | receiveWithin _ => true
  | submit _ | newest | shutDown => false

/-- The answer where nothing is left to receive. -/
def refusal : Call → Except Failure Answer
  | shutDown => .ok .done
  | submit _ | receive | receiveWithin _ | newest => .error .disconnected

/-- What a call gives to a client whose worker was shut down, with the replies in the queue before
it and after it. -/
inductive Gives : Call → List Reply → Except Failure Answer → List Reply → Prop
  | submit (request : Request) (queue : List Reply) :
      Gives (submit request) queue (.error .disconnected) queue
  | receive (r : Reply) (rest : List Reply) : Gives receive (r :: rest) (.ok (.reply r)) rest
  | receiveWithin (time : Duration) (r : Reply) (rest : List Reply) :
      Gives (receiveWithin time) (r :: rest) (.ok (.reply r)) rest
  | newest (dropped : List Reply) (r : Reply) :
      Gives newest (dropped ++ [r]) (.ok (.reply r)) []
  | shutDown (queue : List Reply) : Gives shutDown queue (.ok .done) queue
  | late (call : Call) : Gives call [] call.refusal []

/-- The same for calls that follow each other. -/
inductive GiveAll : List Call → List Reply → List (Except Failure Answer) → List Reply → Prop
  | none (queue : List Reply) : GiveAll [] queue [] queue
  | next {call : Call} {calls : List Call} {queue after rest : List Reply}
      {answer : Except Failure Answer} {answers : List (Except Failure Answer)}
      (hfirst : call.Gives queue answer after) (hrest : GiveAll calls after answers rest) :
      GiveAll (call :: calls) queue (answer :: answers) rest

/-- The replies among the answers. -/
def handed (answers : List (Except Failure Answer)) : List Reply :=
  answers.filterMap fun answer => answer.toOption.bind Answer.reply?

/-- A call that takes the next reply takes the first in the queue, and only looking for the newest
takes any other. -/
theorem Gives.handed_eq {call : Call} {queue after : List Reply} {answer : Except Failure Answer}
    (h : call.Gives queue answer after) (hcall : call ≠ .newest) :
    handed [answer] = queue.take ([call].countP receives) ∧
      after = queue.drop ([call].countP receives) := by
  cases h with
  | submit request queue => exact ⟨rfl, rfl⟩
  | receive r rest => exact ⟨rfl, rfl⟩
  | receiveWithin time r rest => exact ⟨rfl, rfl⟩
  | newest dropped r => exact absurd rfl hcall
  | shutDown queue => exact ⟨rfl, rfl⟩
  | late =>
    rw [List.take_nil, List.drop_nil]
    cases call <;> exact ⟨rfl, rfl⟩

/-- Each reply in the queue is handed over once, in order. -/
theorem GiveAll.handed_eq {calls : List Call} {queue rest : List Reply}
    {answers : List (Except Failure Answer)} (h : GiveAll calls queue answers rest)
    (hcalls : .newest ∉ calls) :
    handed answers = queue.take (calls.countP receives) ∧
      rest = queue.drop (calls.countP receives) := by
  induction h with
  | none queue => exact ⟨rfl, rfl⟩
  | @next call calls queue after rest answer answers hfirst hrest ih =>
    rw [List.mem_cons, not_or] at hcalls
    obtain ⟨hnow, hafter⟩ := hfirst.handed_eq (Ne.symm hcalls.1)
    obtain ⟨hlater, hlast⟩ := ih hcalls.2
    have hcount : (call :: calls).countP receives =
        [call].countP receives + calls.countP receives := by
      rw [← List.countP_append]
      rfl
    have hhanded : handed (answer :: answers) = handed [answer] ++ handed answers := by
      rw [handed, handed, handed, ← List.filterMap_append]
      rfl
    constructor
    · rw [hhanded, hnow, hlater, hafter, hcount, List.take_add]
    · rw [hlast, hafter, hcount, List.drop_drop]

end Call

theorem State.receiveAnswer?_of_cons {s : State} {r : Reply} {rest : List Reply}
    (hreplies : s.replies = r :: rest) :
    s.receiveAnswer? = some (.ok (.reply r), { s with replies := rest }) := by
  rw [receiveAnswer?, receive?, hreplies]

theorem State.newestAnswer_of_concat {s : State} {dropped : List Reply} {r : Reply}
    (hreplies : s.replies = dropped ++ [r]) :
    s.newestAnswer = (.ok (.reply r), { s with replies := [] }) := by
  rw [newestAnswer, State.newest, hreplies, List.getLast?_concat]

variable [Fingerprint]

/-- Nothing can be submitted any more, and the worker has ended. -/
structure State.IsShutDown (s : State) : Prop where
  closed : s.accepting = false
  ended : s.stage = .stopped

namespace State.IsShutDown

variable {s : State}

theorem finish_eq (h : s.IsShutDown) : s.finish = s := by
  have hclose : s.close = s := by rw [close, ← h.closed]
  have hwork : s.work? = none := by rw [work?, h.ended]
  rw [finish, hclose, settle_of_none hwork]

theorem submit_eq (h : s.IsShutDown) (request : Request) :
    s.call? (.submit request) = some (.error .disconnected, s) := by
  rw [call?, submit, h.closed]
  rfl

theorem shutDown_eq (h : s.IsShutDown) : s.call? .shutDown = some (.ok .done, s) := by
  rw [call?, h.finish_eq]

/-- With no replies left the worker stays as it is, and every call is refused. -/
theorem refuses (h : s.IsShutDown) (hreplies : s.replies = []) (call : Call) :
    s.call? call = some (call.refusal, s) := by
  have hreceive : s.receiveAnswer? = some (.error .disconnected, s) := by
    rw [receiveAnswer?, receive?, hreplies, if_pos h.ended]
  have hnewest : s.newestAnswer = (.error .disconnected, s) := by
    simp [newestAnswer, State.newest, hreplies, h.ended]
  cases call with
  | submit request => exact h.submit_eq request
  | receive => exact hreceive
  | receiveWithin time =>
    rw [call?, hreceive]
    rfl
  | newest =>
    rw [call?, hnewest]
    rfl
  | shutDown => exact h.shutDown_eq

/-- A call touches nothing but the replies in the queue. -/
theorem exists_call? (h : s.IsShutDown) (call : Call) :
    ∃ answer rest, s.call? call = some (answer, { s with replies := rest }) ∧
      call.Gives s.replies answer rest := by
  by_cases hempty : s.replies = []
  · have hsame : { s with replies := [] } = s := by rw [← hempty]
    refine ⟨call.refusal, [], ?_, hempty ▸ .late call⟩
    rw [h.refuses hempty, hsame]
  · obtain ⟨r, rest, hcons⟩ := List.exists_cons_of_ne_nil hempty
    have hreceive := receiveAnswer?_of_cons hcons
    cases call with
    | submit request => exact ⟨_, s.replies, h.submit_eq request, .submit request s.replies⟩
    | receive => exact ⟨_, rest, hreceive, hcons ▸ .receive r rest⟩
    | receiveWithin time =>
      have hcall : s.call? (.receiveWithin time) =
          some (.ok (.reply r), { s with replies := rest }) := by
        rw [call?, hreceive]
        rfl
      exact ⟨_, rest, hcall, hcons ▸ .receiveWithin time r rest⟩
    | newest =>
      -- This call alone looks at the queue from its end.
      obtain ⟨dropped, last, hconcat⟩ := (List.eq_nil_or_concat' s.replies).resolve_left hempty
      have hcall : s.call? .newest = some (.ok (.reply last), { s with replies := [] }) := by
        rw [call?, newestAnswer_of_concat hconcat]
      exact ⟨_, [], hcall, hconcat ▸ .newest dropped last⟩
    | shutDown => exact ⟨_, s.replies, h.shutDown_eq, .shutDown s.replies⟩

theorem exists_calls? (h : s.IsShutDown) (calls : List Call) :
    ∃ answers rest, s.calls? calls = some (answers, { s with replies := rest }) ∧
      Call.GiveAll calls s.replies answers rest := by
  induction calls generalizing s with
  | nil => exact ⟨[], s.replies, rfl, .none s.replies⟩
  | cons call calls ih =>
    obtain ⟨answer, after, hcall, hgives⟩ := h.exists_call? call
    have hafter : State.IsShutDown { s with replies := after } := { h with }
    obtain ⟨answers, rest, hcalls, hall⟩ := ih hafter
    refine ⟨answer :: answers, rest, ?_, .next hgives hall⟩
    rw [calls?, hcall]
    simp [hcalls]

theorem refuses_all (h : s.IsShutDown) (hreplies : s.replies = []) (calls : List Call) :
    s.calls? calls = some (calls.map Call.refusal, s) := by
  induction calls with
  | nil => rfl
  | cons call calls ih =>
    rw [calls?, h.refuses hreplies]
    simp [ih]

end State.IsShutDown

namespace Exchange

/-- A call that shut the worker down has returned, and no other is under way. -/
structure IsShutDown (e : Exchange) : Prop where
  idle : e.client = .idle
  state : e.state.IsShutDown

/-- A client that calls nothing else can shut the worker down: it will end. -/
theorem exists_isShutDown {e : Exchange} (hidle : e.client = .idle) :
    ∃ n e', e.run? (.close :: List.replicate n .work) = some e' ∧ e'.IsShutDown ∧
      e.state.call? .shutDown = some (.ok .done, e'.state) ∧
      e'.submitted = e.submitted ∧ e'.delivered = e.delivered := by
  have hclose : e.step? .close = some { e with state := e.state.close } := if_pos hidle
  obtain ⟨n, e', hrun, hstate, hclient, hkept⟩ := exists_settled { e with state := e.state.close }
  have hcall : e.state.call? .shutDown = some (.ok .done, e'.state) := by
    rw [State.call?, hstate, State.finish]
  refine ⟨n, e', ?_, ⟨hclient.trans hidle, ?_, ?_⟩, hcall, hkept⟩
  · rw [run?_cons, hclose]
    exact hrun
  · rw [hstate, State.accepting_settle, State.close]
  · rw [hstate]
    exact e.state.stage_finish

/-- What a client finds when the worker was shut down, and what its calls give from then on. -/
structure LosesNothing (settings : Settings) (e : Exchange) : Prop where
  consumed : e.state.requests = []
  /-- What was sent answers submissions at increasing indices, and the last of all at the end. -/
  answers : ∃ indices : List (Fin e.submitted.length),
    indices.Pairwise (· < ·) ∧
    List.Forall₂ (fun i reply => (e.submitted.get i).IsAnsweredBy settings e.texts reply)
      indices e.sent ∧
    ∀ last : Fin e.submitted.length, last + 1 = e.submitted.length → indices.getLast? = some last
  /-- The reply to the last submission ends the queue, or was the last to be delivered. -/
  last_reply : ∀ r ∈ e.submitted.getLast?, ∃ reply,
    r.IsAnsweredBy settings e.texts reply ∧ e.sent.getLast? = some reply ∧
    (e.state.replies.getLast? = some reply ∨
      e.state.replies = [] ∧ (e.delivered.map Delivery.reply).getLast? = some reply)
  /-- Calls never wait and take replies from the queue only: each of them once and in order, as long
  as the client does not look for the newest. -/
  later : ∀ calls, ∃ answers rest,
    e.state.calls? calls = some (answers, { e.state with replies := rest }) ∧
    Call.GiveAll calls e.state.replies answers rest ∧
    (.newest ∉ calls →
      Call.handed answers = e.state.replies.take (calls.countP Call.receives) ∧
      rest = e.state.replies.drop (calls.countP Call.receives))
  /-- Once the queue is empty, all that follows is refused. -/
  refused : ∀ calls, State.calls? { e.state with replies := [] } calls =
    some (calls.map Call.refusal, { e.state with replies := [] })

/-- However the moves of the client and the worker follow each other, a client that calls nothing
else can shut the worker down, and nothing is lost by it. -/
theorem run_shutsDown (settings : Settings) (moves : List Move) (e : Exchange)
    (hrun : (start settings).run? moves = some e) :
    (e.client = .idle → ∃ n e',
      e.run? (.close :: List.replicate n .work) = some e' ∧ e'.IsShutDown ∧
        e.state.call? .shutDown = some (.ok .done, e'.state) ∧
        e'.submitted = e.submitted ∧ e'.delivered = e.delivered) ∧
    (e.IsShutDown → e.LosesNothing settings) := by
  refine ⟨exists_isShutDown, ?_⟩
  intro hshut
  obtain ⟨passed, picked, hserved⟩ := hasServed_run hrun
  -- The worker has no request in hand and none is waiting: it is done with all that were submitted.
  have hrequests := (leavesNothing_run hrun hshut.state.ended).1
  have hheld : e.state.stage.held = [] := by rw [hshut.state.ended, Stage.held]
  have hpassed : e.submitted = passed := by
    rw [hserved.submitted_eq, hheld, hrequests, List.append_nil, List.append_nil]
  have hlast : picked.getLast? = e.submitted.getLast? := hpassed ▸ hserved.last_eq hheld
  have hempty : State.IsShutDown { e.state with replies := [] } := { hshut.state with }
  refine ⟨hrequests, ?_, ?_, ?_, hempty.refuses_all rfl⟩
  · obtain ⟨indices, hpicked, hincreasing, hfinal⟩ :=
      exists_indices (hpassed ▸ hserved.sublist) hlast
    have hanswered := hserved.answered
    rw [hpicked, List.forall₂_map_left_iff] at hanswered
    exact ⟨indices, hincreasing, hanswered, hfinal⟩
  · intro r hr
    obtain ⟨reply, hsent, hreply⟩ := exists_getLast?_of_forall₂ hserved.answered (hlast.trans hr)
    exact ⟨reply, hreply, hsent, last_sent (isAccounted_run hrun) hshut.idle hsent⟩
  · intro calls
    obtain ⟨answers, rest, hcalls, hall⟩ := hshut.state.exists_calls? calls
    exact ⟨answers, rest, hcalls, hall, hall.handed_eq⟩

end Exchange

end ScriptEditor.Background

namespace ScriptEditor.Background.Exchange

/-- The first reply is delivered. The worker is about to pass the second request over for the third
when the client is free to shut it down. -/
def queued : List Move :=
  [.submit ⟨1, "if".toList⟩, .work, .work, .work, .look, .look,
    .submit ⟨2, "x<".toList⟩, .work, .submit ⟨3, "if".toList⟩]

theorem run_shutsDown_queued : ∃ e n e', (start .standard).run? queued = some e ∧
    e.client = .idle ∧ e.state.requests = [⟨3, "if".toList⟩] ∧
    e.run? (.close :: List.replicate n .work) = some e' ∧ e'.IsShutDown ∧
    e'.LosesNothing .standard := by
  have hend : ((start .standard).run? queued).map (fun e => (e.client, e.state.requests)) =
      some (.idle, [⟨3, "if".toList⟩]) := by decide +kernel
  obtain ⟨e, hrun, heq⟩ := Option.map_eq_some_iff.1 hend
  obtain ⟨hidle, hrequests⟩ := Prod.mk.inj heq
  obtain ⟨n, e', hclose, hshut, _⟩ := (run_shutsDown .standard queued e hrun).1 hidle
  have hboth : (start .standard).run? (queued ++ .close :: List.replicate n .work) = some e' := by
    rw [run?, List.foldlM_append, ← run?, hrun]
    exact hclose
  exact ⟨e, n, e', hrun, hidle, hrequests, hclose, hshut,
    (run_shutsDown .standard _ e' hboth).2 hshut⟩

end ScriptEditor.Background.Exchange
