import ScriptEditor.Proofs.Moves
import ScriptEditor.Proofs.Painting
import Mathlib.Data.List.Forall2

namespace ScriptEditor.Background

variable [Fingerprint]

/-- The reply with the layer that a page shows for the text of the request. -/
def Request.answer (settings : Settings) (r : Request) : Reply :=
  ⟨r.revision, (Page.ofText settings r.text).layer⟩

/-- A reply to a request, where the texts are those that the painter may remember. -/
def Request.IsAnsweredBy (settings : Settings) (texts : List Text) (r : Request) (reply : Reply) :
    Prop :=
  ∃ t ∈ texts, Fingerprint.ofText t = Fingerprint.ofText r.text ∧ t.byteLength = r.text.byteLength ∧
    reply = ⟨r.revision, (Layer.ofText settings t).markup, r.text.gutter⟩

theorem Request.IsAnsweredBy.mono {settings : Settings} {texts more : List Text} {r : Request}
    {reply : Reply} (h : r.IsAnsweredBy settings texts reply) (hsub : texts ⊆ more) :
    r.IsAnsweredBy settings more reply := by
  obtain ⟨t, ht, halike⟩ := h
  exact ⟨t, hsub ht, halike⟩

namespace Exchange

/-- The worker is done with the requests `passed`, of which it answered those in `picked`. Unless it
has another in hand, it answered the last. -/
structure HasServed (settings : Settings) (passed picked : List Request) (e : Exchange) : Prop where
  settings_eq : e.state.settings = settings
  mode_eq : e.state.painter.mode = ⟨.standard, settings.styled⟩
  remembers : e.state.painter.Remembers e.texts
  submitted_eq : e.submitted = passed ++ e.state.stage.held ++ e.state.requests
  sublist : picked.Sublist passed
  last_eq : e.state.stage.held = [] → picked.getLast? = passed.getLast?
  answered : List.Forall₂ (Request.IsAnsweredBy settings e.texts) picked e.sent

variable {settings : Settings} {passed picked : List Request} {e e' : Exchange}

theorem hasServed_start (settings : Settings) : HasServed settings [] [] (start settings) where
  settings_eq := rfl
  mode_eq := rfl
  remembers := Painter.remembers_of_none rfl []
  submitted_eq := rfl
  sublist := List.Sublist.slnil
  last_eq _ := rfl
  answered := List.Forall₂.nil

/-- What the worker paints for a request is a reply to it. -/
theorem HasServed.isAnsweredBy (h : HasServed settings passed picked e) {r : Request}
    (hr : r ∈ e.submitted) :
    r.IsAnsweredBy settings e.texts
      ⟨r.revision, (e.state.painter.paintLayer e.state.settings r.text).1⟩ := by
  have htext : r.text ∈ e.texts := List.mem_map_of_mem hr
  obtain ⟨t, ht, hprint, hbytes, hlayer⟩ :=
    Painter.exists_layer_paintLayer h.remembers h.mode_eq htext
  refine ⟨t, ht, hprint, hbytes, ?_⟩
  rw [h.settings_eq, hlayer]

theorem HasServed.works (h : HasServed settings passed picked e) {state : State}
    (hworks : e.state.Works state) :
    ∃ passed picked, HasServed settings passed picked
      { e with state, sent := e.sent ++ state.replies.drop e.state.replies.length } := by
  have hsubmitted := h.submitted_eq
  have hnone : List.Forall₂ (Request.IsAnsweredBy settings e.texts) picked
      (e.sent ++ e.state.replies.drop e.state.replies.length) := by
    rw [List.drop_length, List.append_nil]
    exact h.answered
  cases hworks with
  | takes r rest hstage hrequests =>
    rw [hstage, hrequests] at hsubmitted
    refine ⟨passed, picked, { h with submitted_eq := ?_, last_eq := ?_, answered := hnone }⟩
    · rw [hsubmitted, Stage.held, Stage.held, List.append_nil, List.append_assoc]
      rfl
    · intro hheld
      cases hheld
  | passes old r rest hstage hrequests =>
    -- The request in hand is let go for the newer one: it is passed, but not picked.
    rw [hstage, hrequests] at hsubmitted
    refine ⟨passed ++ [old], picked, { h with
      submitted_eq := ?_, sublist := ?_, last_eq := ?_, answered := hnone }⟩
    · rw [hsubmitted, Stage.held, Stage.held, List.append_assoc (passed ++ [old])]
      rfl
    · exact List.sublist_append_of_sublist_left h.sublist
    · intro hheld
      cases hheld
  | ends hstage hrequests hclosed =>
    have hlast := h.last_eq
    rw [hstage] at hsubmitted hlast
    exact ⟨passed, picked, { h with
      submitted_eq := hsubmitted, last_eq := hlast, answered := hnone }⟩
  | turns r hstage hrequests =>
    have hlast := h.last_eq
    rw [hstage] at hsubmitted hlast
    exact ⟨passed, picked, { h with
      submitted_eq := hsubmitted, last_eq := hlast, answered := hnone }⟩
  | answers r hstage =>
    -- The request in hand is passed and picked at once, so that both end with it.
    rw [hstage] at hsubmitted
    have hr : r ∈ e.submitted := by
      rw [hsubmitted, Stage.held]
      simp
    have htext : r.text ∈ e.texts := List.mem_map_of_mem hr
    refine ⟨passed ++ [r], picked ++ [r], {
      settings_eq := h.settings_eq
      mode_eq := ?_
      remembers := ?_
      submitted_eq := ?_
      sublist := ?_
      last_eq := ?_
      answered := ?_ }⟩
    · exact (Painter.mode_paint _ _).trans h.mode_eq
    · exact Painter.remembers_paint h.remembers htext
    · rw [hsubmitted, Stage.held, Stage.held, List.append_nil]
    · exact (List.append_sublist_append_right [r]).2 h.sublist
    · intro _
      rw [List.getLast?_concat, List.getLast?_concat]
    · rw [List.drop_left]
      exact List.rel_append h.answered (List.Forall₂.cons (h.isAnsweredBy hr) List.Forall₂.nil)

theorem HasServed.moves (h : HasServed settings passed picked e) (hmoves : e.Moves e') :
    ∃ passed picked, HasServed settings passed picked e' := by
  have hsub := texts_subset hmoves
  cases hmoves with
  | works state hworks => exact h.works hworks
  | submits r haccepting =>
    have hsubmitted : e.submitted ++ [r] =
        passed ++ e.state.stage.held ++ (e.state.requests ++ [r]) := by
      rw [h.submitted_eq, List.append_assoc (passed ++ e.state.stage.held)]
    have hanswered := h.answered.imp fun _ _ hreply => hreply.mono hsub
    exact ⟨passed, picked, { h with
      submitted_eq := hsubmitted, remembers := h.remembers.mono hsub, answered := hanswered }⟩
  | receives reply rest hidle hreplies => exact ⟨passed, picked, { h with }⟩
  | looks reply rest hreplies => exact ⟨passed, picked, { h with }⟩
  | looksInVain => exact ⟨passed, picked, { h with }⟩
  | closes => exact ⟨passed, picked, { h with }⟩
  | rests => exact ⟨passed, picked, h⟩

theorem hasServed_run {moves : List Move} (hrun : (start settings).run? moves = some e) :
    ∃ passed picked, HasServed settings passed picked e := by
  let P (e : Exchange) : Prop := ∃ passed picked, HasServed settings passed picked e
  have hstart : P (start settings) := ⟨[], [], hasServed_start settings⟩
  refine invariant_run (P := P) ?_ hstart hrun
  intro e e' ⟨passed, picked, h⟩ hmoves
  exact h.moves hmoves

end Exchange

end ScriptEditor.Background
