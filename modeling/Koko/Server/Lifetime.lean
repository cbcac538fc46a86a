import Koko.Server.System

/-! How long a session lives, and the event loop: a session is kept by its one operation in flight
or by the handler that answers its request, and the loop by what is left to wait for. -/
namespace Koko.Server
open Koko.Lib Koko.Http Koko.Handlers Koko.Session

inductive Activity where
  | waiting (operation : Operation)
  | answering
  | ended
deriving DecidableEq

def Activity.operations : Activity → List Operation
  | .waiting operation => [operation]
  | .answering => []
  | .ended => []

/-- What a session does once this was the last it did. -/
def activityAfter (setting : Setting) : Event → Activity
  | .handshakeStarted => .waiting .handshake
  | .readStarted => .waiting .read
  | .writeStarted res => .waiting (.write (closes setting res))
  | .readDone (.request _ _ _) => .answering
  | _ => .ended

/-- What a session is doing, by the last event of its trace. -/
def activity (setting : Setting) (session : SessionState) : Activity :=
  (session.trace.getLast?.map (activityAfter setting)).getD .ended

/-- The operation in flight is the one the session is doing. -/
def Busy (setting : Setting) (session : SessionState) : Prop :=
  session.outstanding = (activity setting session).operations

section
variable {setting : Setting} {session session' : SessionState}

theorem activity_of_trace {trace : List Event} {event : Event} (h : session.trace = trace ++ [event]) :
    activity setting session = activityAfter setting event := by
  rw [activity, h, List.getLast?_concat]
  rfl

theorem busy_start (setting : Setting) (t : Transport) : Busy setting (SessionState.start t) := by
  cases t with
  | tcp => exact Eq.refl [Operation.read]
  | ssl => exact Eq.refl [Operation.handshake]

/-- The operation that ends was the only one. -/
theorem Busy.complete (hb : Busy setting session) {operation : Operation} {event : Event}
    (h : session.complete operation event = some session') :
    activity setting session = .waiting operation ∧ session' = { session with
      outstanding := [], trace := session.trace ++ [event] } := by
  unfold SessionState.complete at h
  split_ifs at h with hm
  obtain rfl := Option.some.inj h
  unfold Busy at hb
  rw [hb] at hm ⊢
  cases ha : activity setting session with
  | waiting own =>
    rw [ha] at hm
    obtain rfl := List.mem_singleton.mp hm
    exact ⟨rfl, by simp [Activity.operations]⟩
  | answering =>
    rw [ha] at hm
    cases hm
  | ended =>
    rw [ha] at hm
    cases hm

/-- A session that is doing what its last event says, and that is not to answer a request. -/
theorem busy_after {trace : List Event} {event : Event} (ht : session.trace = trace ++ [event])
    (hout : session.outstanding = (activityAfter setting event).operations)
    (hne : activityAfter setting event ≠ .answering) :
    Busy setting session ∧ activity setting session ≠ .answering := by
  rw [Busy, activity_of_trace ht]
  exact ⟨hout, hne⟩

theorem busy_doRead (hout : session.outstanding = []) :
    Busy setting session.doRead ∧ activity setting session.doRead ≠ .answering := by
  refine busy_after (show _ = session.trace ++ [.readStarted] from rfl) ?_ (by simp [activityAfter])
  rw [SessionState.doRead, hout]
  rfl

theorem busy_respond (hout : session.outstanding = []) (res : Response) :
    Busy setting (session.respond setting res) ∧ activity setting (session.respond setting res) ≠ .answering := by
  refine busy_after (show _ = session.trace ++ [.writeStarted res] from rfl) ?_ (by simp [activityAfter])
  rw [SessionState.respond, SessionState.asyncWriteStream, hout]
  rfl

/-- A completion that brings no request leaves the next operation in flight, or none. -/
theorem Busy.step (hb : Busy setting session) {completion : Completion} (harrival : isArrival completion = false)
    (h : Session.step setting session completion = some session') :
    Busy setting session' ∧ activity setting session' ≠ .answering := by
  cases completion with
  | handshake ok =>
    obtain ⟨s₁, h₁, h₂⟩ := Option.bind_eq_some_iff.mp h
    obtain rfl := Option.some.inj h₂
    obtain ⟨-, rfl⟩ := hb.complete h₁
    cases ok with
    | true => exact busy_doRead rfl
    | false => exact busy_after rfl rfl (by simp [activityAfter])
  | read outcome =>
    obtain ⟨s₁, h₁, h₂⟩ := Option.bind_eq_some_iff.mp h
    rw [toOption_eq_some_iff] at h₂
    obtain ⟨-, rfl⟩ := hb.complete h₁
    cases outcome with
    | request request env log => cases harrival
    | timeout =>
      obtain rfl := Except.ok.inj h₂
      exact busy_after rfl rfl (by simp [activityAfter])
    | endOfStream =>
      obtain rfl := Except.ok.inj h₂
      exact busy_after rfl rfl (by simp [activityAfter])
    | otherError =>
      obtain rfl := Except.ok.inj h₂
      have hclose : closes setting badRequest = true := if_pos (connection_errorResponse _ _)
      refine busy_after (show _ = (session.trace ++ [.readDone .otherError]) ++ [.writeStarted badRequest] from rfl) ?_
        (by simp [activityAfter])
      rw [activityAfter, hclose]
      rfl
  | write close ok =>
    obtain ⟨s₁, h₁, h₂⟩ := Option.bind_eq_some_iff.mp h
    obtain rfl := Option.some.inj h₂
    obtain ⟨-, rfl⟩ := hb.complete h₁
    unfold SessionState.finishedWrite
    split_ifs
    · exact busy_after rfl rfl (by simp [activityAfter])
    · exact busy_after rfl rfl (by simp [activityAfter])
    · exact busy_doRead rfl

end

/-- Every session is doing what its trace says, and answers where a call is under way. -/
structure Settled (setting : Setting) (s : System) : Prop where
  busy : ∀ (i : Nat) (session : SessionState), s.server.sessions[i]? = some session → Busy setting session
  answering : ∀ (i : Nat) (session : SessionState), s.server.sessions[i]? = some session →
    ((s.calls i).isSome = true ↔ activity setting session = .answering)
  session_exists : ∀ i call, s.calls i = some call → i < s.server.sessions.length
  not_returned : ∀ i call, s.calls i = some call → ∀ reply, call.phase ≠ .returned reply

section
variable {setting : Setting} {s s' : System} {i : Nat} {session session' : SessionState}

/-- One session goes on, with or without a call. -/
theorem Settled.set (h : Settled setting s) (hlt : i < s.server.sessions.length) {own : Option Call}
    (hsessions : s'.server.sessions = s.server.sessions.set i session') (hcalls : s'.calls = Function.update s.calls i own)
    (hb : Busy setting session') (ha : own.isSome = true ↔ activity setting session' = .answering)
    (hown : ∀ call, own = some call → ∀ reply, call.phase ≠ .returned reply) : Settled setting s' where
  busy j other hj := by
    rw [hsessions, List.getElem?_set] at hj
    split_ifs at hj with hij
    · exact Option.some.inj hj ▸ hb
    · exact h.busy j other hj
  answering j other hj := by
    rw [hsessions, List.getElem?_set] at hj
    rw [hcalls]
    split_ifs at hj with hij
    · subst hij
      rw [Function.update_self, ← Option.some.inj hj]
      exact ha
    · rw [Function.update_of_ne (Ne.symm hij)]
      exact h.answering j other hj
  session_exists j call hj := by
    rw [hsessions, List.length_set]
    rw [hcalls] at hj
    by_cases hij : j = i
    · exact hij ▸ hlt
    · rw [Function.update_of_ne hij] at hj
      exact h.session_exists j call hj
  not_returned j call hj := by
    rw [hcalls] at hj
    by_cases hij : j = i
    · subst hij
      rw [Function.update_self] at hj
      exact hown call hj
    · rw [Function.update_of_ne hij] at hj
      exact h.not_returned j call hj

private theorem Settled.setPhase (h : Settled setting s) {call : Call} {phase : Handlers.Phase}
    (hc : s.calls i = some call) (hp : ∀ reply, phase ≠ .returned reply) : Settled setting (s.setPhase i call phase) := by
  have hlt := h.session_exists i call hc
  have hi : s.server.sessions[i]? = some s.server.sessions[i] := List.getElem?_eq_getElem hlt
  refine h.set hlt (List.set_getElem_self hlt).symm rfl (h.busy i _ hi) ?_ ?_
  · rw [← h.answering i _ hi, hc]
    exact Iff.rfl
  · rintro _ ⟨⟩
    exact hp

private theorem Settled.accept (h : Settled setting s) {t : Transport} {server : ServerState}
    (hs : server.sessions = s.server.sessions ++ [SessionState.start t]) : Settled setting { s with server } where
  busy j other hj := by
    rcases List.mem_append.mp (hs ▸ List.mem_of_getElem? hj) with hm | hm
    · obtain ⟨k, hk⟩ := List.mem_iff_getElem?.mp hm
      exact h.busy k other hk
    · obtain rfl := List.mem_singleton.mp hm
      exact busy_start setting t
  answering j other hj := by
    rw [hs, List.getElem?_append] at hj
    split_ifs at hj with hlt
    · exact h.answering j other hj
    · obtain rfl := List.mem_singleton.mp (List.mem_of_getElem? hj)
      have hcalls : s.calls j = none :=
        Option.eq_none_iff_forall_ne_some.mpr fun call hcall => hlt (h.session_exists j call hcall)
      rw [hcalls]
      cases t with
      | tcp => simp [activity, SessionState.start, SessionState.doRead, activityAfter]
      | ssl => simp [activity, SessionState.start, SessionState.doHandshake, activityAfter]
  session_exists j call hj := by
    rw [hs, List.length_append]
    exact Nat.lt_add_right _ (h.session_exists j call hj)
  not_returned := h.not_returned

theorem settled_next {event : SystemEvent} (h : Settled setting s) (he : System.Effect setting s event s') :
    Settled setting s' := by
  cases he with
  | @accepted t err server hp hlistens ha =>
    rcases sessions_handleAcceptOn ha with hsame | ⟨-, hmore⟩
    · exact ⟨hsame ▸ h.busy, hsame ▸ h.answering, hsame ▸ h.session_exists, h.not_returned⟩
    · exact h.accept hmore
  | @finished i completion session session' hidle harrival hi hstep =>
    obtain ⟨hb, hne⟩ := (h.busy i session hi).step harrival hstep
    refine h.set (List.getElem?_eq_some_iff.mp hi).1 rfl (Function.update_eq_self_iff.mpr hidle.symm).symm hb ?_ (by simp)
    exact iff_of_false (by simp) hne
  | @unrouted i request env session session' hidle hi hc hroute =>
    obtain ⟨-, rfl⟩ := (h.busy i session hi).complete hc
    refine h.set (List.getElem?_eq_some_iff.mp hi).1 rfl (Function.update_eq_self_iff.mpr hidle.symm).symm
      (busy_respond rfl notFoundError).1 ?_ (by simp)
    exact iff_of_false (by simp) (busy_respond rfl notFoundError).2
  | @routed i request env session session' handler hidle hi hc hroute =>
    obtain ⟨-, rfl⟩ := (h.busy i session hi).complete hc
    refine h.set (List.getElem?_eq_some_iff.mp hi).1 rfl rfl ?_ ?_ ?_
    · rw [Busy, activity_of_trace rfl]
      rfl
    · rw [activity_of_trace rfl]
      exact iff_of_true rfl rfl
    · rintro _ ⟨⟩ reply
      simp
  | @copied i call hc hp hb => exact h.setPhase hc (by simp)
  | @replied i call response hc hp hb hres => exact h.setPhase hc (by simp)
  | @counted i call urlInfo names hc hp => exact h.setPhase hc (by simp)
  | @recorded i call reply session hc hp hi =>
    have hout : session.outstanding = [] := by
      rw [h.busy i session hi, (h.answering i session hi).mp (by rw [hc]; rfl)]
      rfl
    obtain ⟨hb, hne⟩ := busy_respond hout (finalResponse call.handler reply.response)
    refine h.set (List.getElem?_eq_some_iff.mp hi).1 rfl rfl hb ?_ (by simp)
    exact iff_of_false (by simp) hne

theorem settled_start {server : ServerState} (hnew : server.sessions = []) (log : SharedLog) :
    Settled setting (.start server log) := by
  refine ⟨?_, ?_, ?_, ?_⟩
  · intro i session hi
    simp [System.start, hnew] at hi
  · intro i session hi
    simp [System.start, hnew] at hi
  · intro i call hc
    cases hc
  · intro i call hc
    cases hc

theorem settled_run {events : List SystemEvent} (h : Settled setting s) (hrun : s.run setting events = some s') :
    Settled setting s' :=
  foldlM_invariant (Settled setting) (fun _ _ _ _ hu hstep => settled_next hu (System.next_cases hstep)) h hrun

theorem outstanding_of_complete {operation : Operation} {event : Event}
    (h : session.complete operation event = some session') : session.outstanding ≠ [] := by
  intro hnil
  unfold SessionState.complete at h
  rw [hnil, if_neg (by simp)] at h
  cases h

theorem outstanding_of_step {completion : Completion} (h : Session.step setting session completion = some session') :
    session.outstanding ≠ [] := by
  cases completion with
  | handshake ok =>
    obtain ⟨u, hu, -⟩ := Option.bind_eq_some_iff.mp h
    exact outstanding_of_complete hu
  | read outcome =>
    obtain ⟨u, hu, -⟩ := Option.bind_eq_some_iff.mp h
    exact outstanding_of_complete hu
  | write close ok =>
    obtain ⟨u, hu, -⟩ := Option.bind_eq_some_iff.mp h
    exact outstanding_of_complete hu

/-- Nothing happens any more in a session without an operation in flight and without a call. -/
theorem over_next {event : SystemEvent} (he : System.Effect setting s event s') (hi : s.server.sessions[i]? = some session)
    (hout : session.outstanding = []) (hidle : s.calls i = none) :
    s'.server.sessions[i]? = some session ∧ s'.calls i = none := by
  have hlt : i < s.server.sessions.length := (List.getElem?_eq_some_iff.mp hi).1
  -- the session that goes on is another one
  have hwaiting : ∀ {j : Nat} {other : SessionState}, s.server.sessions[j]? = some other → other.outstanding ≠ [] →
      j ≠ i := by
    rintro j other hj hne rfl
    exact hne (Option.some.inj (hj.symm.trans hi) ▸ hout)
  have hworking : ∀ {j : Nat} {call : Call}, s.calls j = some call → j ≠ i := by
    rintro j call hj rfl
    rw [hidle] at hj
    cases hj
  have hsessions : ∀ {j : Nat} (next : SessionState), j ≠ i → (s.server.sessions.set j next)[i]? = some session :=
    fun next hne => (List.getElem?_set_ne hne).trans hi
  have hcalls : ∀ {j : Nat} (own : Option Call), j ≠ i → Function.update s.calls j own i = none :=
    fun own hne => (Function.update_of_ne hne.symm _ _).trans hidle
  cases he with
  | @accepted t err server hp hlistens ha =>
    refine ⟨?_, hidle⟩
    rcases sessions_handleAcceptOn ha with hsame | ⟨-, hmore⟩
    · exact hsame ▸ hi
    · exact hmore ▸ (List.getElem?_append_left hlt).trans hi
  | finished _ _ hj hstep => exact ⟨hsessions _ (hwaiting hj (outstanding_of_step hstep)), hidle⟩
  | unrouted _ hj hc _ => exact ⟨hsessions _ (hwaiting hj (outstanding_of_complete hc)), hidle⟩
  | routed _ hj hc _ =>
    have hne := hwaiting hj (outstanding_of_complete hc)
    exact ⟨hsessions _ hne, hcalls _ hne⟩
  | copied hc _ _ => exact ⟨hi, hcalls _ (hworking hc)⟩
  | replied hc _ _ _ => exact ⟨hi, hcalls _ (hworking hc)⟩
  | counted hc _ => exact ⟨hi, hcalls _ (hworking hc)⟩
  | recorded hc _ _ => exact ⟨hsessions _ (hworking hc), hcalls _ (hworking hc)⟩

end

/-- In every state of the server a session has at most one operation in flight, the one its trace
ends with, and none while its request is answered; once it has neither, nothing happens to it in
all that follows. -/
theorem session_lifetime {setting : Setting} {o : StartOutcome} {server : ServerState}
    (hserver : serveForever o = .ok server) (log : SharedLog) {before after : List SystemEvent} {now later : System}
    (hnow : (System.start server log).run setting before = some now) (hlater : now.run setting after = some later)
    {i : Nat} {session : SessionState} (hi : now.server.sessions[i]? = some session) :
    session.outstanding = (activity setting session).operations ∧
      ((now.calls i).isSome = true ↔ activity setting session = .answering) ∧
      (activity setting session = .ended → later.server.sessions[i]? = some session ∧ later.calls i = none) := by
  have hs := settled_run (settled_start (sessions_serveForever hserver) log) hnow
  refine ⟨hs.busy i session hi, hs.answering i session hi, fun hover => ?_⟩
  have hout : session.outstanding = [] := by rw [hs.busy i session hi, hover, Activity.operations]
  have hidle : now.calls i = none := by
    rw [← Option.not_isSome_iff_eq_none, hs.answering i session hi, hover]
    simp
  refine foldlM_invariant (fun u : System => u.server.sessions[i]? = some session ∧ u.calls i = none) ?_ ⟨hi, hidle⟩ hlater
  rintro u event v - ⟨hu, hc⟩ hstep
  exact over_next (System.next_cases hstep) hu hout hc

/-- A client asks for nothing the server has, is told so, and the connection is over; then the
accept of another client fails. -/
def lastClient : List SystemEvent :=
  [.accepted .tcp false, .arrived 0 ⟨ascii "GET", ascii "/", 11, [], []⟩ idleEnvironment, .finished 0 (.write true true),
    .accepted .tcp true]

/-- While another client is served, the first connection stays over. -/
theorem last_client_over :
    ∃ server now later session, serveForever plainStart = .ok server ∧
      (System.start server ⟨[], []⟩).run emptySetting (lastClient.take 3) = some now ∧
      now.run emptySetting [.accepted .tcp false, .finished 1 (.read .endOfStream)] = some later ∧
      now.server.sessions[0]? = some session ∧ activity emptySetting session = .ended ∧
      later.server.sessions[0]? = some session := by
  have hruns : ∃ server now later session, serveForever plainStart = .ok server ∧
      (System.start server ⟨[], []⟩).run emptySetting (lastClient.take 3) = some now ∧
      now.run emptySetting [.accepted .tcp false, .finished 1 (.read .endOfStream)] = some later ∧
      now.server.sessions[0]? = some session ∧ activity emptySetting session = .ended :=
    ⟨_, _, _, _, rfl, rfl, rfl, rfl, rfl⟩
  obtain ⟨server, now, later, session, hserver, hnow, hlater, hi, hover⟩ := hruns
  exact ⟨server, now, later, session, hserver, hnow, hlater, hi, hover,
    ((session_lifetime hserver _ hnow hlater hi).2.2 hover).1⟩

/-- No accept is pending, no operation in flight and no handler at work: `run` returns. -/
structure Finished (s : System) : Prop where
  pending : ∀ t, (s.server.acceptor t).pending = 0
  calls : ∀ i, s.calls i = none
  outstanding : ∀ session ∈ s.server.sessions, session.outstanding = []

section
variable {setting : Setting} {s s' : System} {i : Nat} {session session' : SessionState}

theorem fire_worked (h : Settled setting s) {call : Call} (hc : s.calls i = some call) :
    s.fire setting (.worked i) ≠ none := by
  have hlt := h.session_exists i call hc
  have hi : s.server.sessions[i]? = some s.server.sessions[i] := List.getElem?_eq_getElem hlt
  show s.work setting i ≠ none
  unfold System.work
  rw [hc, Option.bind_eq_bind, Option.bind_some]
  cases ht : System.throws s.log call with
  | some exn => simp
  | none =>
    cases hp : call.phase with
    | begun =>
      by_cases hb : call.handler.behaviour = .status
      · simp [Call.act, hp, hb]
      · cases hres : call.handler.handleRequest call.env s.log call.request with
        | ok response => simp [Call.act, hp, hb, hres]
        | error exn => simp [System.throws, hp, hres, hb] at ht
    | copied urlInfo names => simp [Call.act, hp]
    | answered reply => simp [Call.act, hp, hi]
    | returned reply => exact absurd hp (h.not_returned i call hc reply)

private theorem fire_finished (h : Settled setting s) (hidle : s.calls i = none)
    (hi : s.server.sessions[i]? = some session) (hout : session.outstanding ≠ []) :
    ∃ completion, s.fire setting (.finished i completion) ≠ none := by
  have hfire : ∀ completion session', isArrival completion = false → step setting session completion = some session' →
      s.fire setting (.finished i completion) ≠ none := by
    intro completion session' ha hstep
    show (s.finish setting i completion).map Except.ok ≠ none
    simp [System.finish, hidle, ha, hi, hstep]
  have hb := h.busy i session hi
  unfold Busy at hb
  cases ha : activity setting session with
  | answering => exact absurd (hb.trans (by rw [ha]; rfl)) hout
  | ended => exact absurd (hb.trans (by rw [ha]; rfl)) hout
  | waiting operation =>
    have hcomplete : ∀ event, session.complete operation event = some { session with
        outstanding := session.outstanding.erase operation, trace := session.trace ++ [event] } := by
      intro event
      refine if_pos ?_
      rw [hb, ha]
      exact List.mem_singleton_self operation
    cases operation with
    | handshake => exact ⟨.handshake false, hfire _ _ rfl (Option.bind_eq_some_iff.mpr ⟨_, hcomplete _, rfl⟩)⟩
    | read => exact ⟨.read .timeout, hfire _ _ rfl (Option.bind_eq_some_iff.mpr ⟨_, hcomplete _, rfl⟩)⟩
    | write close => exact ⟨.write close false, hfire _ _ rfl (Option.bind_eq_some_iff.mpr ⟨_, hcomplete _, rfl⟩)⟩

private theorem complete_of_nil (hout : session.outstanding = []) (operation : Operation) (event : Event) :
    session.complete operation event = none := by
  refine if_neg ?_
  rw [hout]
  exact List.not_mem_nil

/-- Nothing can happen any more exactly when there is nothing left to wait for. -/
theorem fire_eq_none_iff (h : Settled setting s) : (∀ event, s.fire setting event = none) ↔ Finished s := by
  constructor
  · intro hnone
    have hcalls : ∀ i, s.calls i = none := fun i =>
      Option.eq_none_iff_forall_ne_some.mpr fun call hc => fire_worked h hc (hnone _)
    refine ⟨fun t => ?_, hcalls, fun session hm => ?_⟩
    · by_contra hp
      have haccept := accept_eq_some_iff.mpr ⟨hp, (fun herr : true = false => by cases herr), rfl⟩
      have hfire : s.accept t true = none := hnone (.accepted t true)
      rw [System.accept, haccept] at hfire
      cases hfire
    · by_contra hout
      obtain ⟨i, hi⟩ := List.mem_iff_getElem?.mp hm
      obtain ⟨completion, hfire⟩ := fire_finished h (hcalls i) hi hout
      exact hfire (hnone _)
  · intro hf event
    cases event with
    | accepted t err => exact congrArg (Option.map _) (if_pos (.inl (hf.pending t)))
    | finished i completion =>
      show (s.finish setting i completion).map Except.ok = none
      rw [Option.map_eq_none_iff, System.finish]
      split_ifs
      · rfl
      · cases hi : s.server.sessions[i]? with
        | none => rfl
        | some session =>
          have hstep : step setting session completion = none := Option.eq_none_iff_forall_ne_some.mpr fun session' hs =>
            outstanding_of_step hs (hf.outstanding session (List.mem_of_getElem? hi))
          simp [hstep]
    | arrived i request env =>
      show (s.arrive setting i request env).map Except.ok = none
      rw [Option.map_eq_none_iff, System.arrive]
      split_ifs
      · rfl
      · cases hi : s.server.sessions[i]? with
        | none => rfl
        | some session =>
          rw [Option.bind_eq_bind, Option.bind_some, complete_of_nil (hf.outstanding session (List.mem_of_getElem? hi))]
          rfl
    | worked i =>
      show s.work setting i = none
      rw [System.work, hf.calls i]
      rfl

/-- An acceptor that may be waiting for one connection. -/
def Awaits (a : Acceptor) : Prop := a.pending = 0 ∨ (a.pending = 1 ∧ a.serving = true)

/-- Only a failed accept changes an acceptor: none follows it. -/
theorem acceptor_next {event : SystemEvent} (he : System.Effect setting s event s') {t : Transport}
    (ha : Awaits (s.server.acceptor t)) :
    (event = .accepted t true ∧ s'.server.acceptor t = { s.server.acceptor t with pending := 0 }) ∨
      (event ≠ .accepted t true ∧ s'.server.acceptor t = s.server.acceptor t) := by
  cases he with
  | @accepted t' err server hp hlistens hstart =>
    by_cases htt : t' = t
    · subst htt
      obtain ⟨hone, hserving⟩ := ha.resolve_left hp
      cases err with
      | true =>
        obtain rfl := Except.ok.inj hstart
        refine .inl ⟨rfl, ?_⟩
        simp [ServerState.setAcceptor, hone]
      | false =>
        refine .inr ⟨by simp, ?_⟩
        have hsame : ∀ a : Acceptor, a.pending = 1 → { a with pending := a.pending - 1 + 1 } = a := by
          rintro ⟨isOpen, listening, serving, pending⟩ rfl
          rfl
        show server.acceptor t' = _
        rw [acceptor_startAcceptingOn hstart]
        simpa [ServerState.setAcceptor, hserving] using hsame _ hone
    · refine .inr ⟨by simp [htt], ?_⟩
      show server.acceptor t = _
      cases err with
      | true =>
        obtain rfl := Except.ok.inj hstart
        simp [ServerState.setAcceptor, Function.update_of_ne (Ne.symm htt)]
      | false =>
        rw [acceptor_startAcceptingOn hstart]
        simp [ServerState.setAcceptor, Function.update_of_ne (Ne.symm htt)]
  | finished => exact .inr ⟨by simp, rfl⟩
  | unrouted => exact .inr ⟨by simp, rfl⟩
  | routed => exact .inr ⟨by simp, rfl⟩
  | copied => exact .inr ⟨by simp, rfl⟩
  | replied => exact .inr ⟨by simp, rfl⟩
  | counted => exact .inr ⟨by simp, rfl⟩
  | recorded => exact .inr ⟨by simp, rfl⟩

/-- After a run an acceptor waits for no connection if it did not before or an accept failed. -/
theorem pending_run {events : List SystemEvent} {t : Transport} (ha : Awaits (s.server.acceptor t))
    (h : s.run setting events = some s') :
    (s'.server.acceptor t).pending = 0 ↔ (s.server.acceptor t).pending = 0 ∨ .accepted t true ∈ events := by
  induction events generalizing s with
  | nil =>
    obtain rfl := Option.some.inj h
    simp
  | cons event events ih =>
    rw [System.run, List.foldlM_cons, Option.bind_eq_bind, Option.bind_eq_some_iff] at h
    obtain ⟨u, hu, h⟩ := h
    rcases acceptor_next (System.next_cases hu) ha with ⟨rfl, hfailed⟩ | ⟨hne, hsame⟩
    · have hzero : (u.server.acceptor t).pending = 0 := by rw [hfailed]
      rw [ih (.inl hzero) h]
      simp [hzero]
    · rw [ih (by rwa [hsame]) h, hsame, List.mem_cons, or_iff_right (Ne.symm hne)]

theorem awaits_of_armed {server : ServerState} (h : Armed server) (t : Transport) : Awaits (server.acceptor t) := by
  have ht := h t
  split_ifs at ht with hs
  · exact .inr ⟨ht, hs⟩
  · exact .inl ht

/-- The sessions of a settled state are over where they have nothing in flight and no call. -/
theorem Settled.over_iff (h : Settled setting s) :
    ((∀ i, s.calls i = none) ∧ ∀ session ∈ s.server.sessions, session.outstanding = []) ↔
      ∀ session ∈ s.server.sessions, activity setting session = .ended := by
  constructor
  · rintro ⟨hcalls, hout⟩ session hm
    obtain ⟨i, hi⟩ := List.mem_iff_getElem?.mp hm
    have hb := h.busy i session hi
    unfold Busy at hb
    cases ha : activity setting session with
    | ended => rfl
    | answering =>
      have hsome := (h.answering i session hi).mpr ha
      rw [hcalls i] at hsome
      cases hsome
    | waiting operation =>
      rw [ha, hout session hm] at hb
      cases hb
  · intro hover
    refine ⟨fun i => ?_, fun session hm => ?_⟩
    · refine Option.eq_none_iff_forall_ne_some.mpr fun call hc => ?_
      have hlt := h.session_exists i call hc
      have hi : s.server.sessions[i]? = some s.server.sessions[i] := List.getElem?_eq_getElem hlt
      have hanswering := (h.answering i _ hi).mp (by rw [hc]; rfl)
      rw [hover _ (List.getElem_mem hlt)] at hanswering
      cases hanswering
    · obtain ⟨i, hi⟩ := List.mem_iff_getElem?.mp hm
      rw [h.busy i session hi, hover session hm, Activity.operations]

end

/-- After any run the event loop is at its end exactly if an accept has failed on every acceptor
that was serving and all sessions are over; until then something can still happen. -/
theorem event_loop_ends_iff {setting : Setting} {o : StartOutcome} {server : ServerState}
    (hserver : serveForever o = .ok server) (log : SharedLog) {events : List SystemEvent} {s : System}
    (h : (System.start server log).run setting events = some s) :
    (∀ event, s.fire setting event = none) ↔
      (∀ t, (server.acceptor t).serving = true → .accepted t true ∈ events) ∧
        ∀ session ∈ s.server.sessions, activity setting session = .ended := by
  have hs := settled_run (settled_start (sessions_serveForever hserver) log) h
  have harmed := armed_serveForever hserver
  rw [fire_eq_none_iff hs, ← hs.over_iff]
  have hpending : ∀ t, (s.server.acceptor t).pending = 0 ↔
      ((server.acceptor t).serving = true → .accepted t true ∈ events) := by
    intro t
    have hstart : ((System.start server log).server.acceptor t).pending = 0 ↔ ¬ (server.acceptor t).serving = true := by
      show (server.acceptor t).pending = 0 ↔ _
      rw [harmed t]
      split_ifs with hserving <;> simp [hserving]
    rw [pending_run (awaits_of_armed harmed t) h, hstart, ← imp_iff_not_or]
  constructor
  · rintro ⟨hp, hc, ho⟩
    exact ⟨fun t => (hpending t).mp (hp t), hc, ho⟩
  · rintro ⟨hp, hc, ho⟩
    exact ⟨fun t => (hpending t).mpr (hp t), hc, ho⟩

theorem last_client_ends_loop :
    ∃ server s, serveForever plainStart = .ok server ∧
      (System.start server ⟨[], []⟩).run emptySetting lastClient = some s ∧ ∀ event, s.fire emptySetting event = none := by
  have hruns : ∃ server s, serveForever plainStart = .ok server ∧
      (System.start server ⟨[], []⟩).run emptySetting lastClient = some s ∧
      s.server.sessions.all (fun session => activity emptySetting session = .ended) = true ∧
      (server.acceptor .ssl).serving = false := ⟨_, _, rfl, rfl, rfl, rfl⟩
  obtain ⟨server, s, hserver, hrun, hover, hssl⟩ := hruns
  refine ⟨server, s, hserver, hrun, (event_loop_ends_iff hserver _ hrun).2 ⟨fun t ht => ?_, fun session hm => ?_⟩⟩
  · cases t with
    | tcp => simp [lastClient]
    | ssl => simp [hssl] at ht
  · exact of_decide_eq_true (List.all_eq_true.mp hover session hm)

end Koko.Server
