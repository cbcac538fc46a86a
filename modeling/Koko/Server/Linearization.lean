import Koko.Server.System

/-! The sessions at work together do what one session would that answers the same requests one
after another, in the order in which their handlers return. -/
namespace Koko.Server
open Koko.Lib Koko.Http Koko.Handlers Koko.Session

/-- The request of a session that waits for its response, and what was answered before. -/
structure Transcript where
  waiting : Option Arrival
  answered : List (Arrival × Response)

namespace Transcript

/-- The transcript of session `i` after one more event; a write without a request in front of it
answers none. -/
def note (i : Nat) (t : Transcript) : Event → Transcript
  | .readDone (.request request env _) => { t with waiting := some ⟨i, env, request⟩ }
  | .writeStarted res => ⟨none, t.answered ++ (t.waiting.map (fun a => (a, res))).toList⟩
  | _ => t

end Transcript

def transcript (i : Nat) (session : SessionState) : Transcript := session.trace.foldl (Transcript.note i) ⟨none, []⟩

section
variable {setting : Setting} {i : Nat} {session session' : SessionState}

theorem transcript_of_trace (i : Nat) {events : List Event} (h : session'.trace = session.trace ++ events) :
    transcript i session' = events.foldl (Transcript.note i) (transcript i session) := by
  rw [transcript, h, List.foldl_append, transcript]

theorem trace_complete {operation : Operation} {event : Event} (h : session.complete operation event = some session') :
    session'.trace = session.trace ++ [event] := by
  unfold SessionState.complete at h
  split_ifs at h
  obtain rfl := Option.some.inj h
  rfl

theorem trace_respond (res : Response) : (session.respond setting res).trace = session.trace ++ [.writeStarted res] := rfl

private theorem note_write (i : Nat) {t : Transcript} (hw : t.waiting = none) (res : Response) :
    t.note i (.writeStarted res) = t := by
  obtain ⟨waiting, answered⟩ := t
  obtain rfl : waiting = none := hw
  simp [Transcript.note]

/-- A completion that brings no request answers none. -/
theorem transcript_step {completion : Completion} (ha : isArrival completion = false)
    (hw : (transcript i session).waiting = none) (h : step setting session completion = some session') :
    transcript i session' = transcript i session := by
  cases completion with
  | handshake ok =>
    obtain ⟨s₁, h₁, h₂⟩ := Option.bind_eq_some_iff.mp h
    obtain rfl := Option.some.inj h₂
    rw [← show transcript i s₁ = transcript i session from transcript_of_trace i (trace_complete h₁)]
    cases ok with
    | true => exact transcript_of_trace i (show s₁.doRead.trace = s₁.trace ++ [.readStarted] from rfl)
    | false => rfl
  | read outcome =>
    obtain ⟨s₁, h₁, h₂⟩ := Option.bind_eq_some_iff.mp h
    rw [toOption_eq_some_iff] at h₂
    have h₃ := transcript_of_trace i (trace_complete h₁)
    cases outcome with
    | request request env log => cases ha
    | timeout =>
      obtain rfl := Except.ok.inj h₂
      exact h₃
    | endOfStream =>
      obtain rfl := Except.ok.inj h₂
      exact h₃
    | otherError =>
      obtain rfl := Except.ok.inj h₂
      rw [transcript_of_trace i (show _ = s₁.trace ++ [.writeStarted badRequest] from rfl), h₃]
      exact note_write i hw badRequest
  | write close ok =>
    obtain ⟨s₁, h₁, h₂⟩ := Option.bind_eq_some_iff.mp h
    obtain rfl := Option.some.inj h₂
    rw [← show transcript i s₁ = transcript i session from transcript_of_trace i (trace_complete h₁)]
    unfold SessionState.finishedWrite
    split_ifs
    · rfl
    · rfl
    · exact transcript_of_trace i (show s₁.doRead.trace = s₁.trace ++ [.readStarted] from rfl)

end

/-- The request a call answers, as it came in on session `i`. -/
def arrivalOf (i : Nat) (call : Call) : Arrival := ⟨i, call.env, call.request⟩

/-- A status page for the request, from a copy of a part of the log and a size the log had later. -/
structure Reports (log : SharedLog) (a : Arrival) (report : StatusReport) : Prop where
  target : report.target = a.request.target
  now : report.now = a.env.now
  part : report.urlInfo <+: log.urlInfo
  copy_le : report.urlInfo.length ≤ report.urlInfoSize
  size_le : report.urlInfoSize ≤ log.urlInfo.length
  names : report.urlToHandlerName = log.urlToHandlerName

/-- The same request with the same response, but a status page may be out of date. -/
def Agrees (setting : Setting) (log : SharedLog) (e e' : Arrival × Response) : Prop :=
  e.1 = e'.1 ∧ (e.2 = e'.2 ∨ ∃ handler report,
    (route setting.beyond setting.urlToHandler e.1.request.target).correctHandler = some handler ∧
      handler.behaviour = .status ∧ Reports log e.1 report ∧
      e.2 = finalResponse handler (okResponse textHtml report.text))

/-- The requests served one after another leave the log as it is, and their responses agree. -/
def Replayed (setting : Setting) (start : Service) (log : SharedLog) (served : List (Arrival × Response)) : Prop :=
  ∃ t, start.serveAll setting.beyond setting.urlToHandler (served.map Prod.fst) = .ok t ∧ t.log = log ∧
    ∃ answered, t.answered = start.answered ++ answered ∧ List.Forall₂ (Agrees setting log) served answered

/-- Every session got its responses in the order served, and waits for that of its call. -/
def Transcribed (sessions : List SessionState) (calls : Nat → Option Call) (served : List (Arrival × Response)) : Prop :=
  ∀ i session, sessions[i]? = some session →
    transcript i session = ⟨(calls i).map (arrivalOf i), served.filter (fun e => e.1.session = i)⟩

/-- What a call has found out so far. -/
def Genuine (log : SharedLog) (i : Nat) (call : Call) : Prop :=
  match call.phase with
  | .begun => True
  | .copied urlInfo names =>
    call.handler.behaviour = .status ∧ urlInfo <+: log.urlInfo ∧ names = log.urlToHandlerName
  | .answered (.status report) => call.handler.behaviour = .status ∧ Reports log (arrivalOf i call) report
  | .answered (.other res) =>
    call.handler.behaviour ≠ .status ∧ ∀ log, call.handler.handleRequest call.env log call.request = .ok res
  | .returned _ => False

/-- The request came in on its session. -/
def CameIn (past : List SystemEvent) (a : Arrival) : Prop := .arrived a.session a.request a.env ∈ past

/-- The calls under way are those of existing sessions, and of the handlers their requests are routed to; what
they answer has come in, and so has what was served. -/
structure Sound (setting : Setting) (past : List SystemEvent) (s : System) (served : List (Arrival × Response)) : Prop where
  session_exists : ∀ i call, s.calls i = some call → i < s.server.sessions.length
  routed : ∀ i call, s.calls i = some call →
    (route setting.beyond setting.urlToHandler call.request.target).correctHandler = some call.handler
  genuine : ∀ i call, s.calls i = some call → Genuine s.log i call
  served_exists : ∀ e ∈ served, e.1.session < s.server.sessions.length
  cameIn : ∀ i call, s.calls i = some call → CameIn past (arrivalOf i call)
  served_cameIn : ∀ e ∈ served, CameIn past e.1

section
variable {setting : Setting} {sessions : List SessionState} {calls calls' : Nat → Option Call}
  {served more : List (Arrival × Response)} {i : Nat} {session session' : SessionState}

/-- A session goes on; the others and what they wait for stay as they are. -/
theorem Transcribed.set (h : Transcribed sessions calls served) (hi : sessions[i]? = some session)
    (hcalls : ∀ j, j ≠ i → calls' j = calls j) (hmore : ∀ e ∈ more, e.1.session = i)
    (ht : transcript i session' = ⟨(calls' i).map (arrivalOf i), (transcript i session).answered ++ more⟩) :
    Transcribed (sessions.set i session') calls' (served ++ more) := by
  intro j other hj
  rw [List.filter_append]
  by_cases hij : j = i
  · subst hij
    have hlt : j < sessions.length := (List.getElem?_eq_some_iff.mp hi).1
    rw [List.getElem?_set_self hlt] at hj
    obtain rfl := Option.some.inj hj
    have hall : more.filter (fun e => e.1.session = j) = more := by
      rw [List.filter_eq_self]
      exact fun e he => decide_eq_true (hmore e he)
    rw [ht, h j session hi, hall]
  · rw [List.getElem?_set_ne (Ne.symm hij)] at hj
    have hnone : more.filter (fun e => e.1.session = j) = [] := by
      rw [List.filter_eq_nil_iff]
      intro e he hd
      exact hij ((of_decide_eq_true hd).symm.trans (hmore e he))
    rw [h j other hj, hcalls j hij, hnone, List.append_nil]

/-- A new session has got nothing yet. -/
theorem Transcribed.accept (h : Transcribed sessions calls served) (t : Transport)
    (hcalls : calls sessions.length = none) (hserved : ∀ e ∈ served, e.1.session < sessions.length) :
    Transcribed (sessions ++ [SessionState.start t]) calls served := by
  intro j other hj
  rw [List.getElem?_append] at hj
  split_ifs at hj with hlt
  · exact h j other hj
  · obtain ⟨hzero, rfl⟩ : j - sessions.length = 0 ∧ other = SessionState.start t := by
      rw [List.getElem?_singleton] at hj
      split_ifs at hj with hz
      exact ⟨hz, (Option.some.inj hj).symm⟩
    obtain rfl : j = sessions.length := by omega
    have hnone : served.filter (fun e => e.1.session = sessions.length) = [] := by
      rw [List.filter_eq_nil_iff]
      intro e he hd
      exact (hserved e he).ne (of_decide_eq_true hd)
    rw [hcalls, hnone]
    cases t <;> rfl

end

/-- The second log is the first and what was recorded since. -/
structure Extends (log log' : SharedLog) : Prop where
  urlInfo : log.urlInfo <+: log'.urlInfo
  names : log.urlToHandlerName = log'.urlToHandlerName

section
variable {setting : Setting} {log log' : SharedLog} {i : Nat} {call : Call}

theorem Extends.refl (log : SharedLog) : Extends log log := ⟨List.prefix_refl _, rfl⟩

theorem Extends.record (log : SharedLog) (info : URLInfo) :
    Extends log { log with urlInfo := log.urlInfo ++ [info] } := ⟨List.prefix_append _ _, rfl⟩

theorem Reports.mono {a : Arrival} {report : StatusReport} (h : Reports log a report) (he : Extends log log') :
    Reports log' a report where
  target := h.target
  now := h.now
  part := h.part.trans he.urlInfo
  copy_le := h.copy_le
  size_le := h.size_le.trans he.urlInfo.length_le
  names := h.names.trans he.names

theorem Agrees.mono {e e' : Arrival × Response} (h : Agrees setting log e e') (he : Extends log log') :
    Agrees setting log' e e' := by
  obtain ⟨ha, hr⟩ := h
  refine ⟨ha, hr.imp_right ?_⟩
  rintro ⟨handler, report, hroute, hb, hreports, hres⟩
  exact ⟨handler, report, hroute, hb, hreports.mono he, hres⟩

theorem Genuine.mono (h : Genuine log i call) (he : Extends log log') : Genuine log' i call := by
  unfold Genuine at h ⊢
  cases hp : call.phase with
  | begun => trivial
  | copied urlInfo names =>
    rw [hp] at h
    exact ⟨h.1, h.2.1.trans he.urlInfo, h.2.2.trans he.names⟩
  | answered reply =>
    rw [hp] at h
    cases reply with
    | status report => exact ⟨h.1, h.2.mono he⟩
    | other res => exact h
  | returned reply =>
    rw [hp] at h
    exact h

/-- Only the status page reads the log. -/
theorem handleRequest_of_not_status {handler : RequestHandler} (hb : handler.behaviour ≠ .status) (env : Environment)
    (log log' : SharedLog) (request : Request) :
    handler.handleRequest env log request = handler.handleRequest env log' request := by
  unfold RequestHandler.handleRequest
  cases hh : handler.behaviour with
  | status => exact absurd hh hb
  | _ => rfl

/-- One more request is served behind the others. -/
theorem Replayed.snoc {start : Service} {served : List (Arrival × Response)} {e : Arrival × Response}
    (h : Replayed setting start log served) (he : Extends log log')
    (hanswer : ∀ name, ∃ answer, constructResponse setting.beyond setting.urlToHandler e.1.env log name e.1.request =
      .ok answer ∧ answer.log = log' ∧ Agrees setting log' e (e.1, answer.response)) :
    Replayed setting start log' (served ++ [e]) := by
  obtain ⟨t, ht, rfl, answered, ha, hall⟩ := h
  obtain ⟨answer, hc, hl, hagrees⟩ := hanswer (t.names e.1.session)
  refine ⟨⟨Function.update t.names e.1.session answer.name, answer.log, t.answered ++ [(e.1, answer.response)]⟩, ?_, hl,
    answered ++ [(e.1, answer.response)], ?_, ?_⟩
  · have hserve : t.serve setting.beyond setting.urlToHandler e.1 =
        .ok ⟨Function.update t.names e.1.session answer.name, answer.log, t.answered ++ [(e.1, answer.response)]⟩ := by
      rw [Service.serve, bind_eq_ok_iff]
      exact ⟨answer, hc, rfl⟩
    rw [Service.serveAll, List.map_append, List.foldlM_append, bind_eq_ok_iff]
    refine ⟨t, ht, ?_⟩
    rw [List.map_singleton, List.foldlM_cons, bind_eq_ok_iff]
    exact ⟨_, hserve, rfl⟩
  · rw [ha, List.append_assoc]
  · refine List.rel_append (hall.imp fun a b hab => hab.mono he) ?_
    exact .cons hagrees .nil

theorem constructResponse_unrouted {request : Request}
    (hr : (route setting.beyond setting.urlToHandler request.target).correctHandler = none) (env : Environment)
    (log : SharedLog) (name : Bytes) :
    constructResponse setting.beyond setting.urlToHandler env log name request = .ok ⟨notFoundError, log, name⟩ :=
  constructResponse_of_no_entry (Option.map_eq_none_iff.mpr hr)

theorem constructResponse_routed {handler : RequestHandler} {env : Environment} {request : Request} {res : Response}
    (hr : (route setting.beyond setting.urlToHandler request.target).correctHandler = some handler)
    (h : handler.handleRequest env log request = .ok res) (name : Bytes) :
    constructResponse setting.beyond setting.urlToHandler env log name request =
      .ok (answerOf handler env log name request res) := by
  have hentry : (route setting.beyond setting.urlToHandler request.target).entry =
      some ((route setting.beyond setting.urlToHandler request.target).handlerUrl, handler) :=
    Option.map_eq_some_iff.mpr ⟨handler, hr, rfl⟩
  rw [constructResponse_of_entry hentry, h]
  rfl

/-- A call that is about to be recorded has the response a session working alone would get now. -/
theorem Genuine.agrees {reply : Reply} (hg : Genuine log i call) (hp : call.phase = .answered reply)
    (hr : (route setting.beyond setting.urlToHandler call.request.target).correctHandler = some call.handler)
    (hl : log' = { log with urlInfo := log.urlInfo ++ [⟨call.request.target, reply.response.result, call.env.now⟩] })
    (name : Bytes) :
    ∃ answer, constructResponse setting.beyond setting.urlToHandler call.env log name call.request = .ok answer ∧
      answer.log = log' ∧
      Agrees setting log' (arrivalOf i call, finalResponse call.handler reply.response) (arrivalOf i call, answer.response) := by
  have hext : Extends log log' := hl ▸ Extends.record log _
  unfold Genuine at hg
  rw [hp] at hg
  cases reply with
  | status report =>
    obtain ⟨hb, hreports⟩ := hg
    refine ⟨_, constructResponse_routed hr (RequestHandler.handleRequest_status hb call.env log call.request) name,
      ?_, rfl, .inr ⟨call.handler, report, hr, hb, hreports.mono hext, rfl⟩⟩
    -- both pages have the same status
    rw [hl, show (Reply.status report).response.result = 200 from result_okResponse _ _, answerOf, result_okResponse]
  | other res =>
    obtain ⟨hb, hres⟩ := hg
    exact ⟨_, constructResponse_routed hr (hres log) name, hl.symm, rfl, .inl rfl⟩

end

/-- What is served in this order leaves the log and the responses as they are, for the log and for
every session. -/
structure Linearized (setting : Setting) (start : Service) (s : System) (served : List (Arrival × Response)) : Prop where
  replayed : Replayed setting start s.log served
  transcribed : Transcribed s.server.sessions s.calls served

section
variable {setting : Setting} {start : Service} {past : List SystemEvent} {event : SystemEvent} {s s' : System}
  {served more : List (Arrival × Response)}

theorem CameIn.concat {a : Arrival} (h : CameIn past a) (event : SystemEvent) : CameIn (past ++ [event]) a :=
  List.mem_append_left _ h

/-- Every call of the new state is one of the old state, or sound itself. -/
theorem Sound.next (h : Sound setting past s served) (hlength : s.server.sessions.length ≤ s'.server.sessions.length)
    (hext : Extends s.log s'.log)
    (hmore : ∀ e ∈ more, e.1.session < s'.server.sessions.length ∧ CameIn (past ++ [event]) e.1)
    (hcalls : ∀ i call, s'.calls i = some call → s.calls i = some call ∨ (i < s'.server.sessions.length ∧
      (route setting.beyond setting.urlToHandler call.request.target).correctHandler = some call.handler ∧
      Genuine s'.log i call ∧ CameIn (past ++ [event]) (arrivalOf i call))) :
    Sound setting (past ++ [event]) s' (served ++ more) where
  session_exists i call hc := by
    rcases hcalls i call hc with hold | hnew
    · exact (h.session_exists i call hold).trans_le hlength
    · exact hnew.1
  routed i call hc := by
    rcases hcalls i call hc with hold | hnew
    · exact h.routed i call hold
    · exact hnew.2.1
  genuine i call hc := by
    rcases hcalls i call hc with hold | hnew
    · exact (h.genuine i call hold).mono hext
    · exact hnew.2.2.1
  served_exists e he := by
    rcases List.mem_append.mp he with he | he
    · exact (h.served_exists e he).trans_le hlength
    · exact (hmore e he).1
  cameIn i call hc := by
    rcases hcalls i call hc with hold | hnew
    · exact (h.cameIn i call hold).concat event
    · exact hnew.2.2.2
  served_cameIn e he := by
    rcases List.mem_append.mp he with he | he
    · exact (h.served_cameIn e he).concat event
    · exact (hmore e he).2

/-- The calls after that of session `i` was set. -/
theorem calls_update {calls : Nat → Option Call} {i j : Nat} {own : Option Call} {call : Call}
    (h : Function.update calls i own j = some call) : calls j = some call ∨ (j = i ∧ own = some call) := by
  by_cases hij : j = i
  · subst hij
    rw [Function.update_self] at h
    exact .inr ⟨rfl, h⟩
  · rw [Function.update_of_ne hij] at h
    exact .inl h

private theorem linearized_setPhase {i : Nat} {call : Call} {phase : Handlers.Phase} (hl : Linearized setting start s served)
    (hs : Sound setting past s served) (hc : s.calls i = some call) (hg : Genuine s.log i { call with phase }) :
    Linearized setting start (s.setPhase i call phase) served ∧
      Sound setting (past ++ [event]) (s.setPhase i call phase) served := by
  refine ⟨⟨hl.replayed, fun j session hj => ?_⟩, ?_⟩
  · -- the request that waits is the same in every phase
    rw [hl.transcribed j session hj]
    by_cases hij : j = i
    · subst hij
      rw [System.setPhase_calls, Function.update_self, hc]
      rfl
    · rw [System.setPhase_calls, Function.update_of_ne hij]
  · rw [← List.append_nil served]
    refine hs.next le_rfl (Extends.refl _) (by simp) fun j own hown => ?_
    rcases calls_update hown with hold | ⟨rfl, hnew⟩
    · exact .inl hold
    · obtain rfl := Option.some.inj hnew
      exact .inr ⟨hs.session_exists _ _ hc, hs.routed _ call hc, hg, (hs.cameIn _ call hc).concat event⟩

/-- A new session has asked for nothing yet. -/
private theorem linearized_accept {t : Transport} {err : Bool} {old server : ServerState}
    (hl : Linearized setting start s served) (hs : Sound setting past s served)
    (ha : old.handleAcceptOn t err = .ok server) (hold : old.sessions = s.server.sessions) :
    Linearized setting start { s with server } served ∧ Sound setting (past ++ [event]) { s with server } served := by
  have hnext : ∀ sessions : List SessionState, server.sessions = sessions → s.server.sessions.length ≤ sessions.length →
      Sound setting (past ++ [event]) { s with server } served := by
    rintro _ rfl hle
    rw [← List.append_nil served]
    exact hs.next hle (Extends.refl _) (by simp) fun i call hc => .inl hc
  rcases sessions_handleAcceptOn ha with hsame | ⟨-, hmore⟩
  · rw [hold] at hsame
    exact ⟨⟨hl.replayed, hsame.symm ▸ hl.transcribed⟩, hnext _ hsame le_rfl⟩
  · rw [hold] at hmore
    have hcalls : s.calls s.server.sessions.length = none :=
      Option.eq_none_iff_forall_ne_some.mpr fun call hcall => (hs.session_exists _ call hcall).false
    refine ⟨⟨hl.replayed, ?_⟩, hnext _ hmore (List.prefix_append _ _).length_le⟩
    exact hmore.symm ▸ hl.transcribed.accept t hcalls hs.served_exists

/-- One event serves one request more, or none. -/
theorem linearized_next (hl : Linearized setting start s served) (hs : Sound setting past s served)
    (h : System.Effect setting s event s') :
    ∃ more, Linearized setting start s' (served ++ more) ∧ Sound setting (past ++ [event]) s' (served ++ more) := by
  cases h with
  | @accepted t err server hp hlistens ha =>
    refine ⟨[], ?_⟩
    rw [List.append_nil]
    exact linearized_accept hl hs ha rfl
  | @finished i completion session session' hidle harrival hi hstep =>
    have ht := hl.transcribed i session hi
    have hwaiting : (transcript i session).waiting = none := by
      rw [ht, hidle]
      rfl
    refine ⟨[], ⟨(List.append_nil served).symm ▸ hl.replayed, ?_⟩, ?_⟩
    · refine hl.transcribed.set hi (fun _ _ => rfl) (by simp) ?_
      rw [transcript_step harrival hwaiting hstep, List.append_nil, System.setSession_calls, ht]
    · exact hs.next (by simp) (Extends.refl _) (by simp) fun j call hc => .inl hc
  | @unrouted i request env session session' hidle hi hc hroute =>
    have hlt : i < s.server.sessions.length := (List.getElem?_eq_some_iff.mp hi).1
    refine ⟨[(⟨i, env, request⟩, notFoundError)], ⟨?_, ?_⟩, ?_⟩
    · refine hl.replayed.snoc (Extends.refl _) fun name => ⟨_, constructResponse_unrouted hroute env s.log name, rfl, ?_⟩
      exact ⟨rfl, .inl rfl⟩
    · refine hl.transcribed.set hi (fun _ _ => rfl) (by simp) ?_
      rw [transcript_of_trace i (trace_respond _), transcript_of_trace i (trace_complete hc), System.setSession_calls, hidle]
      rfl
    · exact hs.next (by simp) (Extends.refl _) (by simpa [CameIn] using hlt) fun j call hc => .inl hc
  | @routed i request env session session' handler hidle hi hc hroute =>
    have hlt : i < s.server.sessions.length := (List.getElem?_eq_some_iff.mp hi).1
    refine ⟨[], ⟨(List.append_nil served).symm ▸ hl.replayed, ?_⟩, ?_⟩
    · refine hl.transcribed.set hi (fun j hj => Function.update_of_ne hj _ _) (by simp) ?_
      have htrace : transcript i { session' with name := labelled handler session'.name } = transcript i session' := rfl
      dsimp only
      rw [htrace, transcript_of_trace i (trace_complete hc), Function.update_self, List.append_nil]
      rfl
    · refine hs.next (by simp) (Extends.refl _) (by simp) fun j own hown => ?_
      rcases calls_update hown with hold | ⟨rfl, hnew⟩
      · exact .inl hold
      · obtain rfl := Option.some.inj hnew
        exact .inr ⟨by simpa using hlt, hroute, trivial, List.mem_append_right _ List.mem_cons_self⟩
  | @copied i call hc hp hb =>
    refine ⟨[], ?_⟩
    rw [List.append_nil]
    exact linearized_setPhase hl hs hc ⟨hb, List.prefix_refl _, rfl⟩
  | @replied i call response hc hp hb hres =>
    refine ⟨[], ?_⟩
    rw [List.append_nil]
    refine linearized_setPhase hl hs hc ⟨hb, fun log => ?_⟩
    rw [handleRequest_of_not_status hb call.env log s.log, hres]
  | @counted i call urlInfo names hc hp =>
    refine ⟨[], ?_⟩
    rw [List.append_nil]
    have hg := hs.genuine i call hc
    unfold Genuine at hg
    rw [hp] at hg
    obtain ⟨hb, hpart, hnames⟩ := hg
    exact linearized_setPhase hl hs hc ⟨hb, rfl, rfl, hpart, hpart.length_le, le_rfl, hnames⟩
  | @recorded i call reply session hc hp hi =>
    have hlt : i < s.server.sessions.length := (List.getElem?_eq_some_iff.mp hi).1
    refine ⟨[(arrivalOf i call, finalResponse call.handler reply.response)], ⟨?_, ?_⟩, ?_⟩
    · refine hl.replayed.snoc (Extends.record _ _) fun name => ?_
      exact Genuine.agrees (hs.genuine i call hc) hp (hs.routed i call hc) rfl name
    · refine hl.transcribed.set hi (fun j hj => Function.update_of_ne hj _ _) (by simp [arrivalOf]) ?_
      dsimp only
      rw [transcript_of_trace i (trace_respond _), hl.transcribed i session hi, hc, Function.update_self]
      rfl
    · refine hs.next (by simp) (Extends.record _ _) (fun e he => ?_) fun j own hown => ?_
      · rw [List.mem_singleton.mp he]
        exact ⟨by simpa [arrivalOf] using hlt, (hs.cameIn i call hc).concat _⟩
      · rcases calls_update hown with hold | ⟨rfl, hnew⟩
        · exact .inl hold
        · cases hnew

/-- A run serves its requests behind those served before it. -/
theorem linearized_run {events : List SystemEvent} (hl : Linearized setting start s served)
    (hs : Sound setting past s served) (h : s.run setting events = some s') :
    ∃ more, Linearized setting start s' (served ++ more) ∧ Sound setting (past ++ events) s' (served ++ more) := by
  refine foldlM_history
    (fun past u => ∃ more, Linearized setting start u (served ++ more) ∧ Sound setting past u (served ++ more)) ?_
    ⟨[], by rwa [List.append_nil], by rwa [List.append_nil]⟩ h
  rintro past u event v ⟨more, hlu, hsu⟩ hstep
  obtain ⟨rest, hlv, hsv⟩ := linearized_next hlu hsu (System.next_cases hstep)
  rw [List.append_assoc] at hlv hsv
  exact ⟨more ++ rest, hlv, hsv⟩

theorem linearized_start {server : ServerState} (hnew : server.sessions = []) (names : Nat → Bytes) (log : SharedLog) :
    Linearized setting ⟨names, log, []⟩ (.start server log) [] ∧ Sound setting [] (.start server log) [] := by
  refine ⟨⟨⟨_, rfl, rfl, [], rfl, .nil⟩, fun i session hi => ?_⟩, ⟨?_, ?_, ?_, by simp, ?_, by simp⟩⟩
  · simp [System.start, hnew] at hi
  · intro i call hc
    cases hc
  · intro i call hc
    cases hc
  · intro i call hc
    cases hc
  · intro i call hc
    cases hc

end

def checkSetting : Setting := ⟨checkTable, fun _ => 0, fun _ => false⟩

/-- A status page is asked for on one session while a health check is answered on another. -/
def twoSessions : List SystemEvent :=
  [.accepted .tcp false, .accepted .tcp false, .arrived 0 (getRequest (ascii "/status")) idleEnvironment,
    .arrived 1 (getRequest (ascii "/health")) idleEnvironment, .worked 0, .worked 1]

end Koko.Server
