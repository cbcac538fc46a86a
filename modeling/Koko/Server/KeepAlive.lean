import Koko.Server.Lifetime
import Koko.Session.Guarantees

/-! Which connections the server keeps. What becomes of one after a response is decided by the location its
request went to, and by nothing else that happens on the server. -/
namespace Koko.Server
open Koko.Lib Koko.Http Koko.Handlers Koko.Session

/-- The target is routed to a location that keeps its connections alive. -/
def keepsOpen (setting : Setting) (target : Bytes) : Bool :=
  (route setting.beyond setting.urlToHandler target).correctHandler.any (·.keepAlive)

/-- Where a connection stands between two events of its session. -/
inductive Stage where
  | begun
  | handshaking
  | dueRead
  | reading
  | asked (target : Bytes)
  | malformed
  | writing (kept : Bool)
  | ended

inductive Advances (setting : Setting) : Stage → Event → Stage → Prop where
  | start : Advances setting .begun .readStarted .reading
  | startHandshake : Advances setting .begun .handshakeStarted .handshaking
  | shaken : Advances setting .handshaking (.handshakeDone true) .dueRead
  | unshaken : Advances setting .handshaking (.handshakeDone false) .ended
  | next : Advances setting .dueRead .readStarted .reading
  | timeout : Advances setting .reading (.readDone .timeout) .ended
  | endOfStream : Advances setting .reading (.readDone .endOfStream) .ended
  | asked {request env log} : Advances setting .reading (.readDone (.request request env log)) (.asked request.target)
  | answered {target res} : Advances setting (.asked target) (.writeStarted res) (.writing (keepsOpen setting target))
  | malformed : Advances setting .reading (.readDone .otherError) .malformed
  | refused : Advances setting .malformed (.writeStarted badRequest) (.writing false)
  | failed {kept} : Advances setting (.writing kept) (.writeDone false) .ended
  | kept : Advances setting (.writing true) (.writeDone true) .dueRead
  | closed : Advances setting (.writing false) (.writeDone true) .ended

/-- The call answers a request for this target, and what it answers closes the connection or not as its
location does. -/
def Decides (setting : Setting) (target : Bytes) (call : Call) : Prop :=
  (route setting.beyond setting.urlToHandler target).correctHandler = some call.handler ∧
    ∀ reply, call.phase = .answered reply →
      closes setting (finalResponse call.handler reply.response) = !call.handler.keepAlive

/-- What is in flight and under way for a session at rest in a stage. -/
def Stage.Rests (setting : Setting) (call : Option Call) (outstanding : List Operation) : Stage → Prop
  | .handshaking => call = none ∧ outstanding = [.handshake]
  | .reading => call = none ∧ outstanding = [.read]
  | .asked target => outstanding = [] ∧ ∃ own, call = some own ∧ Decides setting target own
  | .writing kept => call = none ∧ outstanding = [.write (!kept)]
  | .ended => call = none ∧ outstanding = []
  | _ => False

/-- The stage in which a session waits for this operation. -/
def awaited : Operation → Stage
  | .handshake => .handshaking
  | .read => .reading
  | .write close => .writing (!close)

/-- The session's trace is one of the connection's ways, and rests where its operations say. -/
def Conversing (setting : Setting) (call : Option Call) (session : SessionState) : Prop :=
  ∃ stage : Stage, Path (Advances setting) .begun session.trace stage ∧ stage.Rests setting call session.outstanding

section
variable {setting : Setting} {session session' : SessionState}

theorem conversing_start (setting : Setting) (t : Transport) : Conversing setting none (SessionState.start t) := by
  cases t with
  | tcp => exact ⟨.reading, ⟨_, .start, rfl⟩, rfl, rfl⟩
  | ssl => exact ⟨.handshaking, ⟨_, .startHandshake, rfl⟩, rfl, rfl⟩

theorem stage_of_rests {stage : Stage} {operation : Operation} (h : stage.Rests setting none [operation]) :
    stage = awaited operation := by
  cases stage with
  | handshaking | reading =>
    obtain rfl := List.singleton_inj.mp h.2
    rfl
  | writing kept =>
    obtain rfl := List.singleton_inj.mp h.2
    rw [awaited, Bool.not_not]
  | asked target => cases h.1
  | ended => cases h.2
  | _ => exact h.elim

/-- The operation that ends is the one of the stage, and leaves nothing in flight. -/
theorem Conversing.complete (hc : Conversing setting none session) {operation : Operation} {event : Event}
    (h : session.complete operation event = some session') :
    session' = { session with outstanding := [], trace := session.trace ++ [event] } ∧
      Path (Advances setting) .begun session.trace (awaited operation) := by
  obtain ⟨stage, hpath, hrests⟩ := hc
  unfold SessionState.complete at h
  split_ifs at h with hm
  obtain rfl := Option.some.inj h
  obtain ⟨own, hout⟩ : ∃ own, session.outstanding = [own] := by
    cases stage with
    | handshaking | reading | writing kept => exact ⟨_, hrests.2⟩
    | asked target =>
      obtain ⟨own, hown, -⟩ := hrests.2
      cases hown
    | ended =>
      rw [hrests.2] at hm
      cases hm
    | _ => exact hrests.elim
  rw [hout] at hm hrests ⊢
  obtain rfl := List.mem_singleton.mp hm
  rw [← stage_of_rests hrests]
  exact ⟨by simp, hpath⟩

theorem keepsOpen_of_routed {target : Bytes} {handler : RequestHandler}
    (h : (route setting.beyond setting.urlToHandler target).correctHandler = some handler) :
    keepsOpen setting target = handler.keepAlive := by
  rw [keepsOpen, h, Option.any_some]

theorem keepsOpen_of_unrouted {target : Bytes}
    (h : (route setting.beyond setting.urlToHandler target).correctHandler = none) : keepsOpen setting target = false := by
  rw [keepsOpen, h, Option.any_none]

/-- A completion that brings no request leads to another stage of the connection. -/
theorem Conversing.step (hc : Conversing setting none session) {completion : Completion}
    (harrival : isArrival completion = false) (h : Session.step setting session completion = some session') :
    Conversing setting none session' := by
  cases completion with
  | handshake ok =>
    obtain ⟨s₁, h₁, h₂⟩ := Option.bind_eq_some_iff.mp h
    obtain rfl := Option.some.inj h₂
    obtain ⟨rfl, hpath⟩ := hc.complete h₁
    cases ok with
    | true => exact ⟨.reading, (hpath.snoc .shaken).snoc .next, rfl, rfl⟩
    | false => exact ⟨.ended, hpath.snoc .unshaken, rfl, rfl⟩
  | read outcome =>
    obtain ⟨s₁, h₁, h₂⟩ := Option.bind_eq_some_iff.mp h
    rw [toOption_eq_some_iff] at h₂
    obtain ⟨rfl, hpath⟩ := hc.complete h₁
    cases outcome with
    | request request env log => cases harrival
    | timeout =>
      obtain rfl := Except.ok.inj h₂
      exact ⟨.ended, hpath.snoc .timeout, rfl, rfl⟩
    | endOfStream =>
      obtain rfl := Except.ok.inj h₂
      exact ⟨.ended, hpath.snoc .endOfStream, rfl, rfl⟩
    | otherError =>
      obtain rfl := Except.ok.inj h₂
      exact ⟨.writing false, (hpath.snoc .malformed).snoc .refused, rfl, rfl⟩
  | write close ok =>
    obtain ⟨s₁, h₁, h₂⟩ := Option.bind_eq_some_iff.mp h
    obtain rfl := Option.some.inj h₂
    obtain ⟨rfl, hpath⟩ := hc.complete h₁
    cases ok with
    | false => exact ⟨.ended, hpath.snoc .failed, rfl, rfl⟩
    | true =>
      cases close with
      | true => exact ⟨.ended, hpath.snoc .closed, rfl, rfl⟩
      | false => exact ⟨.reading, (hpath.snoc .kept).snoc .next, rfl, rfl⟩

/-- A request is read, and the connection waits for its answer. -/
theorem Conversing.ask (hc : Conversing setting none session) {request : Request} {env : Environment} {log : SharedLog}
    (h : session.complete .read (.readDone (.request request env log)) = some session') :
    session'.outstanding = [] ∧ Path (Advances setting) .begun session'.trace (.asked request.target) := by
  obtain ⟨rfl, hpath⟩ := hc.complete h
  exact ⟨rfl, hpath.snoc .asked⟩

/-- A response that closes the connection as the location does is written. -/
theorem conversing_respond {target : Bytes} (hout : session.outstanding = [])
    (hpath : Path (Advances setting) .begun session.trace (.asked target)) {res : Response}
    (hres : closes setting res = !keepsOpen setting target) : Conversing setting none (session.respond setting res) := by
  refine ⟨.writing (keepsOpen setting target), hpath.snoc .answered, rfl, ?_⟩
  rw [← hres, SessionState.respond, SessionState.asyncWriteStream, hout]
  rfl

/-- A response for which the library needs no end of the stream closes the connection as its header says. -/
theorem closes_finalResponse (he : NeedsNoEof setting.needEof) {handler : RequestHandler} {res : Response}
    (h : handler.keepAlive = true → res.Framed ∧ res.version = 11) :
    closes setting (finalResponse handler res) = !handler.keepAlive := by
  unfold closes finalResponse
  cases hk : handler.keepAlive with
  | false => exact if_pos (Response.get?_set_self _ _ _)
  | true =>
    obtain ⟨hframed, hversion⟩ := h hk
    have hkeeps : KeepsAlive (res.set connectionField keepAliveValue) := Response.get?_set_self _ _ _
    have hlength := hframed.set keepAliveValue (show iequals connectionField contentLengthField = false by decide)
    rw [if_pos rfl, if_neg (fun hclose => not_keepsAlive_of_close hclose hkeeps)]
    exact he _ hversion (Option.isSome_of_eq_some hlength) hkeeps

/-- Handlers of a created table that keep connections alive make up their responses themselves. -/
theorem own_of_keepAlive (hc : Created setting.urlToHandler) {target : Bytes} {handler : RequestHandler}
    (hr : (route setting.beyond setting.urlToHandler target).correctHandler = some handler) {env : Environment}
    {log : SharedLog} {request : Request} {res : Response} (h : handler.handleRequest env log request = .ok res)
    (hk : handler.keepAlive = true) : res.Framed ∧ res.version = 11 := by
  obtain ⟨urlPrefix, handlerName, block, -, hcreate⟩ := created_of_routed hc hr
  refine RequestHandler.own_response (fun proxy hproxy => ?_) h
  simpa [hproxy, hk] using createHandler_cases hcreate

end

section
variable {setting : Setting} {s s' : System} {session : SessionState} {call : Option Call}

def AllConversing (setting : Setting) (s : System) : Prop :=
  ∀ i session, s.server.sessions[i]? = some session → Conversing setting (s.calls i) session

/-- One session goes on; the others and their calls stay as they are. -/
theorem AllConversing.set (h : AllConversing setting s) {i : Nat} {session' : SessionState} {own : Option Call}
    (hsessions : s'.server.sessions = s.server.sessions.set i session') (hcalls : s'.calls = Function.update s.calls i own)
    (hown : Conversing setting own session') : AllConversing setting s' := by
  intro j other hj
  rw [hsessions, List.getElem?_set] at hj
  rw [hcalls]
  split_ifs at hj with hij
  · subst hij
    rw [Function.update_self, ← Option.some.inj hj]
    exact hown
  · rw [Function.update_of_ne (Ne.symm hij)]
    exact h j other hj

/-- A call goes on and still decides what its location does. -/
theorem AllConversing.setPhase (h : AllConversing setting s) (hs : Settled setting s) {i : Nat} {call : Call}
    {phase : Handlers.Phase} (hc : s.calls i = some call)
    (hdecides : ∀ target, Decides setting target call → Decides setting target { call with phase }) :
    AllConversing setting (s.setPhase i call phase) := by
  have hlt := hs.session_exists i call hc
  have hi : s.server.sessions[i]? = some s.server.sessions[i] := List.getElem?_eq_getElem hlt
  refine h.set (List.set_getElem_self hlt).symm rfl ?_
  obtain ⟨stage, hpath, hrests⟩ := h i _ hi
  rw [hc] at hrests
  cases stage with
  | asked target =>
    obtain ⟨hout, own, hown, hd⟩ := hrests
    obtain rfl := Option.some.inj hown
    exact ⟨.asked target, hpath, hout, _, rfl, hdecides target hd⟩
  | handshaking | reading | writing kept | ended => cases hrests.1
  | _ => exact hrests.elim

theorem AllConversing.next (hc : Created setting.urlToHandler) (hn : NeedsNoEof setting.needEof)
    (h : AllConversing setting s) (hs : Settled setting s) {event : SystemEvent} (he : System.Effect setting s event s') :
    AllConversing setting s' := by
  cases he with
  | @accepted t err server hp hlistens ha =>
    rcases sessions_handleAcceptOn ha with hsame | ⟨-, hmore⟩
    · intro i session hi
      rw [hsame] at hi
      exact h i session hi
    · intro i session hi
      rw [hmore, List.getElem?_append] at hi
      split_ifs at hi with hlt
      · exact h i session hi
      · obtain rfl := List.mem_singleton.mp (List.mem_of_getElem? hi)
        have hidle : s.calls i = none :=
          Option.eq_none_iff_forall_ne_some.mpr fun call hcall => hlt (hs.session_exists i call hcall)
        show Conversing setting (s.calls i) _
        rw [hidle]
        exact conversing_start setting t
  | @finished i completion session session' hidle harrival hi hstep =>
    have hsession := h i session hi
    rw [hidle] at hsession
    exact h.set rfl (Function.update_eq_self_iff.mpr hidle.symm).symm (hsession.step harrival hstep)
  | @unrouted i request env session session' hidle hi hcomplete hroute =>
    have hsession := h i session hi
    rw [hidle] at hsession
    obtain ⟨hout, hpath⟩ := hsession.ask hcomplete
    refine h.set rfl (Function.update_eq_self_iff.mpr hidle.symm).symm (conversing_respond hout hpath ?_)
    rw [keepsOpen_of_unrouted hroute]
    exact if_pos (connection_errorResponse _ _)
  | @routed i request env session session' handler hidle hi hcomplete hroute =>
    have hsession := h i session hi
    rw [hidle] at hsession
    obtain ⟨hout, hpath⟩ := hsession.ask hcomplete
    exact h.set rfl rfl ⟨.asked request.target, hpath, hout, _, rfl, hroute, nofun⟩
  | copied hcall _ _ => exact h.setPhase hs hcall (fun target hd => ⟨hd.1, nofun⟩)
  | @replied i call response hcall _ _ hres =>
    refine h.setPhase hs hcall (fun target hd => ⟨hd.1, fun reply hreply => ?_⟩)
    obtain rfl := Handlers.Phase.answered.inj hreply
    exact closes_finalResponse hn (own_of_keepAlive hc hd.1 hres)
  | @counted i call urlInfo names hcall _ =>
    refine h.setPhase hs hcall (fun target hd => ⟨hd.1, fun reply hreply => ?_⟩)
    obtain rfl := Handlers.Phase.answered.inj hreply
    exact closes_finalResponse hn (fun _ => ⟨framed_okResponse _ _, rfl⟩)
  | @recorded i call reply session hcall hp hi =>
    obtain ⟨stage, hpath, hrests⟩ := h i session hi
    rw [hcall] at hrests
    cases stage with
    | asked target =>
      obtain ⟨hout, own, hown, hd⟩ := hrests
      obtain rfl := Option.some.inj hown
      refine h.set rfl rfl (conversing_respond hout hpath ?_)
      rw [keepsOpen_of_routed hd.1]
      exact hd.2 reply hp
    | handshaking | reading | writing kept | ended => cases hrests.1
    | _ => exact hrests.elim

/-- Every connection goes one of its ways, whatever happens on the others. -/
theorem allConversing_run (hc : Created setting.urlToHandler) (hn : NeedsNoEof setting.needEof)
    (h : AllConversing setting s) (hs : Settled setting s) {events : List SystemEvent}
    (hrun : s.run setting events = some s') : AllConversing setting s' := by
  refine (foldlM_invariant (fun u => AllConversing setting u ∧ Settled setting u) ?_ ⟨h, hs⟩ hrun).1
  rintro u event v - ⟨hu, hsettled⟩ hstep
  exact ⟨hu.next hc hn hsettled (System.next_cases hstep), settled_next hsettled (System.next_cases hstep)⟩

/-- Behind the end of a connection nothing happens on it. -/
theorem nil_of_ended {trace : List Event} {stage : Stage} (h : Path (Advances setting) .ended trace stage) : trace = [] := by
  cases trace with
  | nil => rfl
  | cons event trace =>
    obtain ⟨_, hturn, -⟩ := h
    cases hturn

/-- The next request is read behind a stage that is due to. -/
theorem head_of_dueRead {trace : List Event} {stage : Stage} {call : Option Call} {outstanding : List Operation}
    (h : Path (Advances setting) .dueRead trace stage) (hrests : stage.Rests setting call outstanding) :
    trace.head? = some .readStarted := by
  cases trace with
  | nil =>
    obtain rfl : Stage.dueRead = stage := h
    exact hrests.elim
  | cons event trace =>
    obtain ⟨_, hturn, -⟩ := h
    cases hturn
    rfl

/-- What follows an exchange on its connection. -/
theorem Conversing.follows (hc : Conversing setting call session) {front rest : List Event} {request : Request}
    {env : Environment} {found : SharedLog} {res : Response} {ok : Bool}
    (ht : session.trace = front ++ .readDone (.request request env found) :: .writeStarted res :: .writeDone ok :: rest) :
    (ok = true ∧ keepsOpen setting request.target = true ∧ rest.head? = some .readStarted) ∨
      ((ok = false ∨ keepsOpen setting request.target = false) ∧ rest = []) := by
  obtain ⟨stage, hpath, hrests⟩ := hc
  rw [ht] at hpath
  obtain ⟨_, -, _, hasked, _, hanswered, stage', hdone, hrest⟩ := (path_append_iff _ _).mp hpath
  cases hasked
  cases hanswered
  cases hk : keepsOpen setting request.target with
  | false =>
    rw [hk] at hdone
    cases hdone with
    | failed | closed => exact .inr ⟨.inr rfl, nil_of_ended hrest⟩
  | true =>
    rw [hk] at hdone
    cases hdone with
    | failed => exact .inr ⟨.inl rfl, nil_of_ended hrest⟩
    | kept => exact .inl ⟨rfl, rfl, head_of_dueRead hrest hrests⟩

end

/-- In every state of the server, whatever its other sessions and the upstreams do, another request is
read from a connection behind a response exactly if the response could be written and the request went
to a location that keeps connections alive; else nothing happens on the connection any more. -/
theorem connection_kept_iff {setting : Setting} (hc : Created setting.urlToHandler) (hn : NeedsNoEof setting.needEof)
    {o : StartOutcome} {server : ServerState} (hserver : serveForever o = .ok server) (log : SharedLog)
    {events : List SystemEvent} {s : System} (h : (System.start server log).run setting events = some s) {i : Nat}
    {session : SessionState} (hi : s.server.sessions[i]? = some session) {front rest : List Event} {request : Request}
    {env : Environment} {found : SharedLog} {res : Response} {ok : Bool}
    (ht : session.trace = front ++ .readDone (.request request env found) :: .writeStarted res :: .writeDone ok :: rest) :
    (rest.head? = some .readStarted ↔ ok = true ∧ keepsOpen setting request.target = true) ∧
      (rest = [] ↔ ¬ (ok = true ∧ keepsOpen setting request.target = true)) := by
  have hstart : AllConversing setting (System.start server log) := by
    intro j other hj
    simp [System.start, sessions_serveForever hserver] at hj
  have hall := allConversing_run hc hn hstart (settled_start (sessions_serveForever hserver) log) h
  rcases (hall i session hi).follows ht with ⟨rfl, hk, hhead⟩ | ⟨hclosed, rfl⟩
  · refine ⟨iff_of_true hhead ⟨rfl, hk⟩, iff_of_false ?_ (not_not.mpr ⟨rfl, hk⟩)⟩
    rintro rfl
    cases hhead
  · have hno : ¬ (ok = true ∧ keepsOpen setting request.target = true) := by
      rcases hclosed with h | h <;> simp [h]
    exact ⟨iff_of_false (by simp) hno, iff_of_true rfl hno⟩


def echoSetting : Setting := ⟨echoTable.urlToHandler, fun _ => 0, lengthNeedEof⟩

/-- One client is answered by a location that keeps connections, while another finds nothing. -/
def echoAndMissing : List SystemEvent :=
  [.accepted .tcp false, .accepted .tcp false, .arrived 0 ⟨ascii "GET", ascii "/echo", 11, [], []⟩ idleEnvironment, .worked 0,
    .arrived 1 ⟨ascii "GET", ascii "/missing", 11, [], []⟩ idleEnvironment, .worked 0, .finished 1 (.write true true),
    .finished 0 (.write false true)]

theorem echo_connection_kept :
    ∃ server s session found res rest, serveForever plainStart = .ok server ∧
      (System.start server ⟨[], []⟩).run echoSetting echoAndMissing = some s ∧ s.server.sessions[0]? = some session ∧
      session.trace = [.readStarted] ++ .readDone (.request ⟨ascii "GET", ascii "/echo", 11, [], []⟩ idleEnvironment found) ::
        .writeStarted res :: .writeDone true :: rest ∧ rest.head? = some .readStarted := by
  have hc : Created echoSetting.urlToHandler :=
    created_createAllHandlers (show createAllHandlers echoConfig [] = some echoTable from rfl)
  have hruns : ∃ server s session found res rest, serveForever plainStart = .ok server ∧
      (System.start server ⟨[], []⟩).run echoSetting echoAndMissing = some s ∧ s.server.sessions[0]? = some session ∧
      session.trace = [.readStarted] ++ .readDone (.request ⟨ascii "GET", ascii "/echo", 11, [], []⟩ idleEnvironment found) ::
        .writeStarted res :: .writeDone true :: rest := ⟨_, _, _, _, _, _, rfl, rfl, rfl, rfl⟩
  obtain ⟨server, s, session, found, res, rest, hserver, hrun, hi, ht⟩ := hruns
  exact ⟨server, s, session, found, res, rest, hserver, hrun, hi, ht,
    (connection_kept_iff hc needsNoEof_lengthNeedEof hserver _ hrun hi ht).1.mpr ⟨rfl, by decide⟩⟩

end Koko.Server
