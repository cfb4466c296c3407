import ScriptEditor.Background.Exchange

namespace ScriptEditor.Background

/-- The request that the worker has taken and not answered yet. -/
def Stage.held : Stage → List Request
  | waiting => []
  | collecting newest => [newest]
  | painting request => [request]
  | stopped => []

theorem State.replies_of_receive? {s s' : State} {reply : Reply}
    (h : s.receive? = some (.ok (reply, s'))) :
    ∃ rest, s.replies = reply :: rest ∧ s' = { s with replies := rest } := by
  unfold receive? at h
  split at h
  case h_1 r rest hreplies =>
    cases h
    exact ⟨rest, hreplies, rfl⟩
  case h_2 =>
    split at h
    · cases h
    · cases h

variable [Fingerprint]

/-- The steps of the worker: it takes the first request, or a newer one, ends, turns to the request
that it has, or answers it. -/
inductive State.Works (s : State) : State → Prop
  | takes (r : Request) (rest : List Request) (hstage : s.stage = .waiting)
      (hrequests : s.requests = r :: rest) :
      Works s { s with stage := .collecting r, requests := rest }
  | passes (old r : Request) (rest : List Request) (hstage : s.stage = .collecting old)
      (hrequests : s.requests = r :: rest) :
      Works s { s with stage := .collecting r, requests := rest }
  | ends (hstage : s.stage = .waiting) (hrequests : s.requests = []) (hclosed : s.accepting = false) :
      Works s { s with stage := .stopped }
  | turns (r : Request) (hstage : s.stage = .collecting r) (hrequests : s.requests = []) :
      Works s { s with stage := .painting r }
  | answers (r : Request) (hstage : s.stage = .painting r) :
      Works s { s with
        painter := (s.painter.paintLayer s.settings r.text).2
        stage := .waiting
        replies := s.replies ++ [⟨r.revision, (s.painter.paintLayer s.settings r.text).1⟩] }

theorem State.works_of_work? {s s' : State} (h : s.work? = some s') : s.Works s' := by
  unfold work? at h
  split at h
  case h_1 r rest hstage hrequests =>
    cases h
    exact .takes r rest hstage hrequests
  case h_2 hstage hrequests =>
    split at h
    · cases h
    · next hclosed =>
      cases h
      exact .ends hstage hrequests (Bool.eq_false_iff.2 hclosed)
  case h_3 old r rest hstage hrequests =>
    cases h
    exact .passes old r rest hstage hrequests
  case h_4 r hstage hrequests =>
    cases h
    exact .turns r hstage hrequests
  case h_5 r hstage =>
    cases h
    exact .answers r hstage
  case h_6 => cases h

theorem State.settle_of_some {s s' : State} (h : s.work? = some s') : s.settle = s'.settle := by
  rw [settle]
  split
  · next next hnext => rw [Option.some.inj (hnext.symm.trans h)]
  · next hnone => cases hnone.symm.trans h

theorem State.settle_of_none {s : State} (h : s.work? = none) : s.settle = s := by
  rw [settle]
  split
  · next next hnext => cases hnext.symm.trans h
  · rfl

theorem State.work?_settle (s : State) : s.settle.work? = none := by
  induction s using State.settle.induct with
  | case1 s s' hwork ih => rw [settle_of_some hwork, ih]
  | case2 s hwork => rw [settle_of_none hwork, hwork]

theorem State.accepting_settle (s : State) : s.settle.accepting = s.accepting := by
  induction s using State.settle.induct with
  | case1 s s' hwork ih =>
    have hkeeps : s'.accepting = s.accepting := by cases works_of_work? hwork <;> rfl
    rw [settle_of_some hwork, ih, hkeeps]
  | case2 s hwork => rw [settle_of_none hwork]

/-- The worker of a closed exchange does not wait: it ends. -/
theorem State.stage_finish (s : State) : s.finish.stage = .stopped := by
  have hwork : s.finish.work? = none := work?_settle s.close
  have hclosed : s.finish.accepting = false := accepting_settle s.close
  unfold work? at hwork
  split at hwork
  case h_2 =>
    rw [hclosed] at hwork
    cases hwork
  case h_6 hstage => exact hstage
  all_goals cases hwork

namespace Exchange

/-- The moves of an exchange, seen from what they change. -/
inductive Moves (e : Exchange) : Exchange → Prop
  | works (state : State) (h : e.state.Works state) :
      Moves e { e with state, sent := e.sent ++ state.replies.drop e.state.replies.length }
  | submits (r : Request) (haccepting : e.state.accepting = true) :
      Moves e { e with
        state := { e.state with requests := e.state.requests ++ [r] }
        submitted := e.submitted ++ [r] }
  | receives (reply : Reply) (rest : List Reply) (hidle : e.client = .idle)
      (hreplies : e.state.replies = reply :: rest) :
      Moves e { e with
        state := { e.state with replies := rest }, delivered := e.delivered ++ [.next reply] }
  | looks (reply : Reply) (rest : List Reply) (hreplies : e.state.replies = reply :: rest) :
      Moves e { e with
        state := { e.state with replies := rest }, client := e.client.keep reply }
  | looksInVain :
      Moves e { e with client := .idle, delivered := e.delivered ++ e.client.delivery?.toList }
  | closes : Moves e { e with state := e.state.close }
  | rests : Moves e e

theorem moves_of_step? {e e' : Exchange} {move : Move} (h : e.step? move = some e') : e.Moves e' := by
  cases move with
  | work =>
    obtain ⟨state, hwork, rfl⟩ := Option.map_eq_some_iff.1 h
    exact .works state (State.works_of_work? hwork)
  | submit request =>
    by_cases haccepting : e.state.accepting
    · simp only [step?, State.submit, if_pos haccepting] at h
      cases h
      exact .submits request haccepting
    · simp only [step?, State.submit, if_neg haccepting] at h
      cases h
      exact .rests
  | receive =>
    simp only [step?] at h
    split at h
    case h_1 reply state hclient hreceive =>
      obtain ⟨rest, hreplies, rfl⟩ := State.replies_of_receive? hreceive
      cases h
      exact .receives reply rest hclient hreplies
    case h_2 =>
      cases h
      exact .rests
    case h_3 => cases h
  | giveUp =>
    simp only [step?] at h
    split at h
    · cases h
      exact .rests
    · cases h
  | look =>
    simp only [step?] at h
    split at h
    case h_1 reply state hreceive =>
      obtain ⟨rest, hreplies, rfl⟩ := State.replies_of_receive? hreceive
      cases h
      exact .looks reply rest hreplies
    case h_2 =>
      cases h
      exact .looksInVain
  | close =>
    simp only [step?] at h
    split at h
    · cases h
      exact .closes
    · cases h

variable {settings : Settings} {e e' : Exchange}

/-- The texts that were submitted. -/
def texts (e : Exchange) : List Text := e.submitted.map Request.text

theorem submitted_grows (hmoves : e.Moves e') : e.submitted <+: e'.submitted := by
  cases hmoves with
  | submits r haccepting => exact List.prefix_append _ _
  | _ => exact List.prefix_rfl

theorem texts_subset (hmoves : e.Moves e') : e.texts ⊆ e'.texts :=
  List.map_subset _ (submitted_grows hmoves).subset

/-- What every move keeps, a run keeps. -/
theorem invariant_run {P : Exchange → Prop} (hkeeps : ∀ e e', P e → e.Moves e' → P e')
    {moves : List Move} (h : P e) (hrun : e.run? moves = some e') : P e' := by
  induction moves generalizing e with
  | nil =>
    cases hrun
    exact h
  | cons move rest ih =>
    rw [run?_cons] at hrun
    obtain ⟨next, hstep, hrest⟩ := Option.bind_eq_some_iff.1 hrun
    have hnext := hkeeps e next h (moves_of_step? hstep)
    exact ih hnext hrest

/-- Every reply that was sent was delivered or dropped for one, or is in the hands of the client, or
waits in the queue, in this order. -/
def IsAccounted (e : Exchange) : Prop :=
  e.sent = e.delivered.flatMap Delivery.taken ++ e.client.held ++ e.state.replies

theorem replies_grow {s s' : State} (hworks : s.Works s') : s.replies <+: s'.replies := by
  cases hworks with
  | answers r hstage => exact List.prefix_append _ _
  | _ => exact List.prefix_rfl

theorem IsAccounted.moves (h : e.IsAccounted) (hmoves : e.Moves e') : e'.IsAccounted := by
  unfold IsAccounted at h ⊢
  cases hmoves with
  | works state hworks =>
    have hreplies := List.prefix_iff_eq_append.1 (replies_grow hworks)
    calc
      e.sent ++ state.replies.drop e.state.replies.length
        = e.delivered.flatMap Delivery.taken ++ e.client.held ++
            (e.state.replies ++ state.replies.drop e.state.replies.length) := by
          rw [h, List.append_assoc _ e.state.replies]
      _ = e.delivered.flatMap Delivery.taken ++ e.client.held ++ state.replies := by
          rw [hreplies]
  | submits r haccepting => exact h
  | receives reply rest hidle hreplies =>
    rw [hidle, Client.held, hreplies] at h
    rw [hidle, Client.held, h, List.flatMap_append]
    simp [Delivery.taken]
  | looks reply rest hreplies =>
    rw [hreplies] at h
    rw [Client.held_keep, h]
    simp
  | looksInVain =>
    rw [List.flatMap_append, Client.flatMap_taken_delivery, Client.held, List.append_nil]
    exact h
  | closes => exact h
  | rests => exact h

theorem isAccounted_run {moves : List Move} (hrun : (start settings).run? moves = some e) :
    e.IsAccounted := by
  have hstart : (start settings).IsAccounted := rfl
  exact invariant_run (fun _ _ => IsAccounted.moves) hstart hrun

theorem step?_look_of_cons {reply : Reply} {rest : List Reply}
    (hreplies : e.state.replies = reply :: rest) :
    e.step? .look = some { e with
      state := { e.state with replies := rest }, client := e.client.keep reply } := by
  rw [step?, State.receive?, hreplies]

theorem step?_look_of_nil (hreplies : e.state.replies = []) :
    e.step? .look = some { e with
      client := .idle, delivered := e.delivered ++ e.client.delivery?.toList } := by
  rw [step?, State.receive?, hreplies]
  by_cases hstopped : e.state.stage = .stopped
  · rw [if_pos hstopped]
  · rw [if_neg hstopped]

theorem run?_looks (e : Exchange) :
    e.run? (List.replicate (e.state.replies.length + 1) .look) = some { e with
      state := { e.state with replies := [] }
      client := .idle
      delivered := e.delivered ++ (e.state.replies.foldl Client.keep e.client).delivery?.toList } := by
  induction hreplies : e.state.replies generalizing e with
  | nil =>
    have hstate : { e.state with replies := [] } = e.state := by rw [← hreplies]
    rw [hstate, List.length_nil, List.replicate_one, run?_cons, step?_look_of_nil hreplies]
    rfl
  | cons reply rest ih =>
    rw [List.length_cons, List.replicate_succ, run?_cons, step?_look_of_cons hreplies]
    exact ih _ rfl

/-- A client whose looks follow each other without a break gets what `State.newest` gives. -/
theorem run?_looks_of_newest {reply : Reply} {s : State} (hidle : e.client = .idle)
    (hnewest : e.state.newest = .ok (some reply, s)) :
    e.run? (List.replicate (e.state.replies.length + 1) .look) = some { e with
      state := s
      delivered := e.delivered ++ [.newest e.state.replies.dropLast reply] } := by
  unfold State.newest at hnewest
  split at hnewest
  case h_1 r hlast =>
    cases hnewest
    obtain ⟨front, hreplies⟩ := List.getLast?_eq_some_iff.1 hlast
    have hfound : e.state.replies.foldl Client.keep e.client = .looking front reply := by
      rw [hidle, hreplies, Client.foldl_keep_concat]
      rfl
    have hdropped : e.state.replies.dropLast = front := by
      rw [hreplies, List.dropLast_concat]
    rw [run?_looks, hfound, hdropped, hidle]
    rfl
  case h_2 =>
    split at hnewest
    · cases hnewest
    · cases hnewest

/-- A worker that has ended left no request behind, and none can come any more. -/
def LeavesNothing (e : Exchange) : Prop :=
  e.state.stage = .stopped → e.state.requests = [] ∧ e.state.accepting = false

theorem LeavesNothing.moves (h : e.LeavesNothing) (hmoves : e.Moves e') : e'.LeavesNothing := by
  intro hstopped
  cases hmoves with
  | works state hworks =>
    cases hworks with
    | ends hstage hrequests hclosed => exact ⟨hrequests, hclosed⟩
    | _ => cases hstopped
  | submits r haccepting =>
    have hclosed := (h hstopped).2
    rw [haccepting] at hclosed
    cases hclosed
  | closes => exact ⟨(h hstopped).1, rfl⟩
  | _ => exact h hstopped

theorem leavesNothing_run {moves : List Move} (hrun : (start settings).run? moves = some e) :
    e.LeavesNothing := by
  have hstart : (start settings).LeavesNothing := by
    intro hstopped
    cases hstopped
  exact invariant_run (fun _ _ => LeavesNothing.moves) hstart hrun

theorem step?_work {state : State} (hwork : e.state.work? = some state) :
    e.step? .work = some { e with
      state, sent := e.sent ++ state.replies.drop e.state.replies.length } := by
  rw [step?, hwork]
  rfl

/-- Steps of the worker alone settle it, and touch nothing that is the client's. -/
theorem exists_settled (e : Exchange) :
    ∃ n e', e.run? (List.replicate n .work) = some e' ∧ e'.state = e.state.settle ∧
      e'.client = e.client ∧ e'.submitted = e.submitted ∧ e'.delivered = e.delivered := by
  induction hs : e.state using State.settle.induct generalizing e with
  | case1 s state hwork ih =>
    have hwork' : e.state.work? = some state := hs ▸ hwork
    obtain ⟨n, e', hrun, hstate, hclient⟩ := ih
      { e with state, sent := e.sent ++ state.replies.drop e.state.replies.length } rfl
    refine ⟨n + 1, e', ?_, ?_, hclient⟩
    · rw [List.replicate_succ, run?_cons, step?_work hwork']
      exact hrun
    · rw [hstate, State.settle_of_some hwork]
  | case2 s hwork =>
    refine ⟨0, e, rfl, ?_, rfl, rfl, rfl⟩
    rw [hs, State.settle_of_none hwork]

end Exchange

end ScriptEditor.Background
