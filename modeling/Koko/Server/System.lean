import Koko.Handlers.StatusSnapshot
import Koko.Server.Listening
import Koko.Server.Registration
import Koko.Session.RequestLog

/-! The whole server at work: its acceptors, its sessions and the request log they share. The completion
handlers of one session run one after another; those of different sessions interleave, at their
accesses to the log. -/
namespace Koko.Server
open Koko.Lib Koko.Http Koko.Handlers Koko.Session

/-- The sessions' calls of `get_response` that are under way, by the number of the session. -/
structure System where
  server : ServerState
  calls : Nat → Option Call
  log : SharedLog

inductive SystemEvent where
  | accepted (t : Transport) (err : Bool)
  | finished (i : Nat) (completion : Completion)
  | arrived (i : Nat) (request : Request) (env : Environment)
  | worked (i : Nat)

/-- A read that brought a request. -/
def isArrival : Completion → Bool
  | .read (.request _ _ _) => true
  | _ => false

namespace System

def setSession (s : System) (i : Nat) (session : SessionState) : System :=
  { s with server := { s.server with sessions := s.server.sessions.set i session } }

def setPhase (s : System) (i : Nat) (call : Call) (phase : Handlers.Phase) : System :=
  { s with calls := Function.update s.calls i (some { call with phase }) }

/-- A connection is accepted, or the accept failed. -/
def accept (s : System) (t : Transport) (err : Bool) : Option (Except Exn System) :=
  (s.server.accept t err).map (Except.map (fun server => { s with server }))

/-- An operation ends that brings no request. -/
def finish (setting : Setting) (s : System) (i : Nat) (completion : Completion) : Option System :=
  if (s.calls i).isSome ∨ isArrival completion then none
  else do
    let session ← s.server.sessions[i]?
    let session ← step setting session completion
    return s.setSession i session

/-- A request comes in: it is answered at once if there is no handler for it, and else the call of the
handler begins. -/
def arrive (setting : Setting) (s : System) (i : Nat) (request : Request) (env : Environment) : Option System :=
  if (s.calls i).isSome then none
  else do
    let session ← s.server.sessions[i]?
    let session ← session.complete .read (.readDone (.request request env s.log))
    match (route setting.beyond setting.urlToHandler request.target).correctHandler with
    | none => return s.setSession i (session.respond setting notFoundError)
    | some handler =>
      return { s.setSession i { session with name := labelled handler session.name } with
        calls := Function.update s.calls i (some ⟨handler, env, request, .begun⟩) }

/-- The handler throws before its call gets to the log again. -/
def throws (log : SharedLog) (call : Call) : Option Exn :=
  match call.phase, call.handler.handleRequest call.env log call.request with
  | .begun, .error exn => if call.handler.behaviour = .status then none else some exn
  | _, _ => none

/-- A call gets to its next access to the log. With the record it returns, and the response is written. -/
def work (setting : Setting) (s : System) (i : Nat) : Option (Except Exn System) := do
  let call ← s.calls i
  match throws s.log call with
  | some exn => some (.error exn)
  | none =>
    let (log, call) ← call.act s.log
    match call.phase with
    | .returned reply =>
      let session ← s.server.sessions[i]?
      some (.ok { s.setSession i (session.respond setting (finalResponse call.handler reply.response)) with
        log, calls := Function.update s.calls i none })
    | _ => some (.ok { s with log, calls := Function.update s.calls i (some call) })

/-- One event: none if it cannot happen, an exception if a handler throws. -/
def fire (setting : Setting) (s : System) : SystemEvent → Option (Except Exn System)
  | .accepted t err => s.accept t err
  | .finished i completion => (s.finish setting i completion).map .ok
  | .arrived i request env => (s.arrive setting i request env).map .ok
  | .worked i => s.work setting i

def next (setting : Setting) (s : System) (event : SystemEvent) : Option System :=
  (s.fire setting event).bind Except.toOption

def run (setting : Setting) (s : System) (events : List SystemEvent) : Option System :=
  events.foldlM (next setting) s

/-- The server as `serve_forever` leaves it to the event loop. -/
def start (server : ServerState) (log : SharedLog) : System := ⟨server, fun _ => none, log⟩

@[simp] theorem setSession_sessions (s : System) (i : Nat) (session : SessionState) :
    (s.setSession i session).server.sessions = s.server.sessions.set i session := rfl
@[simp] theorem setSession_acceptor (s : System) (i : Nat) (session : SessionState) :
    (s.setSession i session).server.acceptor = s.server.acceptor := rfl
@[simp] theorem setSession_calls (s : System) (i : Nat) (session : SessionState) :
    (s.setSession i session).calls = s.calls := rfl
@[simp] theorem setSession_log (s : System) (i : Nat) (session : SessionState) :
    (s.setSession i session).log = s.log := rfl
@[simp] theorem setPhase_calls (s : System) (i : Nat) (call : Call) (phase : Handlers.Phase) :
    (s.setPhase i call phase).calls = Function.update s.calls i (some { call with phase }) := rfl

/-- One event, with the guards it passed and the state it leaves. -/
inductive Effect (setting : Setting) (s : System) : SystemEvent → System → Prop where
  | accepted {t err server} : (s.server.acceptor t).pending ≠ 0 → (err = false → (s.server.acceptor t).listening = true) →
      (s.server.setAcceptor t { s.server.acceptor t with pending := (s.server.acceptor t).pending - 1 }).handleAcceptOn t
        err = .ok server → Effect setting s (.accepted t err) { s with server }
  | finished {i completion session session'} : s.calls i = none → isArrival completion = false →
      s.server.sessions[i]? = some session → step setting session completion = some session' →
      Effect setting s (.finished i completion) (s.setSession i session')
  | unrouted {i request env session session'} : s.calls i = none → s.server.sessions[i]? = some session →
      session.complete .read (.readDone (.request request env s.log)) = some session' →
      (route setting.beyond setting.urlToHandler request.target).correctHandler = none →
      Effect setting s (.arrived i request env) (s.setSession i (session'.respond setting notFoundError))
  | routed {i request env session session' handler} : s.calls i = none → s.server.sessions[i]? = some session →
      session.complete .read (.readDone (.request request env s.log)) = some session' →
      (route setting.beyond setting.urlToHandler request.target).correctHandler = some handler →
      Effect setting s (.arrived i request env)
        { s.setSession i { session' with name := labelled handler session'.name } with
          calls := Function.update s.calls i (some ⟨handler, env, request, .begun⟩) }
  | copied {i call} : s.calls i = some call → call.phase = .begun → call.handler.behaviour = .status →
      Effect setting s (.worked i) (s.setPhase i call (.copied s.log.urlInfo s.log.urlToHandlerName))
  | replied {i call response} : s.calls i = some call → call.phase = .begun → call.handler.behaviour ≠ .status →
      call.handler.handleRequest call.env s.log call.request = .ok response →
      Effect setting s (.worked i) (s.setPhase i call (.answered (.other response)))
  | counted {i call urlInfo names} : s.calls i = some call → call.phase = .copied urlInfo names →
      Effect setting s (.worked i) (s.setPhase i call (.answered (.status
        ⟨call.request.target, call.env.now, urlInfo, s.log.urlInfo.length, names⟩)))
  | recorded {i call reply session} : s.calls i = some call → call.phase = .answered reply →
      s.server.sessions[i]? = some session →
      Effect setting s (.worked i)
        { s.setSession i (session.respond setting (finalResponse call.handler reply.response)) with
          log := { s.log with
            urlInfo := s.log.urlInfo ++ [⟨call.request.target, reply.response.result, call.env.now⟩] }
          calls := Function.update s.calls i none }

section
variable {setting : Setting} {s s' : System} {i : Nat}

private theorem effect_accepted {t : Transport} {err : Bool} (h : s.next setting (.accepted t err) = some s') :
    Effect setting s (.accepted t err) s' := by
  obtain ⟨result, hf, hr⟩ := Option.bind_eq_some_iff.mp h
  replace hf : s.accept t err = some result := hf
  obtain ⟨accepted, haccept, rfl⟩ := Option.map_eq_some_iff.mp hf
  obtain ⟨hp, hl, rfl⟩ := accept_eq_some_iff.mp haccept
  obtain ⟨server, hs, rfl⟩ := map_eq_ok_iff.mp (toOption_eq_some_iff.mp hr)
  exact .accepted hp hl hs

private theorem effect_finished {completion : Completion} (h : s.next setting (.finished i completion) = some s') :
    Effect setting s (.finished i completion) s' := by
  obtain ⟨result, hf, hr⟩ := Option.bind_eq_some_iff.mp h
  obtain ⟨s₁, hfinish, rfl⟩ := Option.map_eq_some_iff.mp hf
  obtain rfl := Option.some.inj hr
  replace hf : s.finish setting i completion = some s₁ := hfinish
  unfold finish at hf
  split_ifs at hf with hbusy
  rw [not_or, Option.not_isSome_iff_eq_none, Bool.not_eq_true] at hbusy
  obtain ⟨session, hs, hf⟩ := Option.bind_eq_some_iff.mp hf
  obtain ⟨session', hstep, hf⟩ := Option.bind_eq_some_iff.mp hf
  obtain rfl := Option.some.inj hf
  exact .finished hbusy.1 hbusy.2 hs hstep

private theorem effect_arrived {request : Request} {env : Environment}
    (h : s.next setting (.arrived i request env) = some s') : Effect setting s (.arrived i request env) s' := by
  obtain ⟨result, hf, hr⟩ := Option.bind_eq_some_iff.mp h
  obtain ⟨s₁, harrive, rfl⟩ := Option.map_eq_some_iff.mp hf
  obtain rfl := Option.some.inj hr
  replace hf : s.arrive setting i request env = some s₁ := harrive
  unfold arrive at hf
  split_ifs at hf with hbusy
  rw [Option.not_isSome_iff_eq_none] at hbusy
  obtain ⟨session, hs, hf⟩ := Option.bind_eq_some_iff.mp hf
  obtain ⟨session', hc, hf⟩ := Option.bind_eq_some_iff.mp hf
  cases hroute : (route setting.beyond setting.urlToHandler request.target).correctHandler with
  | none =>
    rw [hroute] at hf
    obtain rfl := Option.some.inj hf
    exact .unrouted hbusy hs hc hroute
  | some handler =>
    rw [hroute] at hf
    obtain rfl := Option.some.inj hf
    exact .routed hbusy hs hc hroute

private theorem effect_worked (h : s.next setting (.worked i) = some s') : Effect setting s (.worked i) s' := by
  obtain ⟨result, hf, hr⟩ := Option.bind_eq_some_iff.mp h
  rw [toOption_eq_some_iff] at hr
  subst hr
  obtain ⟨call, hcall, hf⟩ := Option.bind_eq_some_iff.mp hf
  cases ht : throws s.log call with
  | some exn =>
    rw [ht] at hf
    cases hf
  | none =>
    simp only [ht] at hf
    obtain ⟨⟨log, call'⟩, hact, hf⟩ := Option.bind_eq_some_iff.mp hf
    unfold Call.act at hact
    cases hp : call.phase with
    | begun =>
      simp only [hp] at hact
      by_cases hb : call.handler.behaviour = .status
      · rw [if_pos hb] at hact
        obtain ⟨rfl, rfl⟩ := Prod.mk.inj (Option.some.inj hact)
        obtain rfl := Except.ok.inj (Option.some.inj hf)
        exact .copied hcall hp hb
      · rw [if_neg hb] at hact
        cases hres : call.handler.handleRequest call.env s.log call.request with
        | error exn =>
          rw [hres] at hact
          cases hact
        | ok response =>
          rw [hres] at hact
          obtain ⟨rfl, rfl⟩ := Prod.mk.inj (Option.some.inj hact)
          obtain rfl := Except.ok.inj (Option.some.inj hf)
          exact .replied hcall hp hb hres
    | copied urlInfo names =>
      simp only [hp] at hact
      obtain ⟨rfl, rfl⟩ := Prod.mk.inj (Option.some.inj hact)
      obtain rfl := Except.ok.inj (Option.some.inj hf)
      exact .counted hcall hp
    | answered reply =>
      simp only [hp] at hact
      obtain ⟨rfl, rfl⟩ := Prod.mk.inj (Option.some.inj hact)
      obtain ⟨session, hs, hf⟩ := Option.bind_eq_some_iff.mp hf
      obtain rfl := Except.ok.inj (Option.some.inj hf)
      exact @Effect.recorded setting s i call reply session hcall hp hs
    | returned reply =>
      simp only [hp] at hact
      cases hact

/-- Everything one event can do to the server. -/
theorem next_cases {event : SystemEvent} (h : s.next setting event = some s') : Effect setting s event s' := by
  cases event with
  | accepted t err => exact effect_accepted h
  | finished i completion => exact effect_finished h
  | arrived i request env => exact effect_arrived h
  | worked i => exact effect_worked h

end

end System

/-- The handler of a routed request is an entry of the table, created for its prefix. -/
theorem created_of_routed {setting : Setting} (hc : Created setting.urlToHandler) {target : Bytes}
    {handler : RequestHandler} (hr : (route setting.beyond setting.urlToHandler target).correctHandler = some handler) :
    ∃ urlPrefix handlerName block, (route setting.beyond setting.urlToHandler target).entry = some (urlPrefix, handler) ∧
      createHandler urlPrefix handlerName block = some (some handler) := by
  have hentry : (route setting.beyond setting.urlToHandler target).entry =
      some ((route setting.beyond setting.urlToHandler target).handlerUrl, handler) := by
    rw [Selection.entry, hr]
    rfl
  obtain ⟨handlerName, block, hcreate⟩ := hc _ (serves_of_route hentry).1
  exact ⟨_, handlerName, block, hentry, hcreate⟩

theorem sessions_handleAcceptOn {t : Transport} {server server' : ServerState} {err : Bool}
    (h : server.handleAcceptOn t err = .ok server') :
    server'.sessions = server.sessions ∨
      err = false ∧ server'.sessions = server.sessions ++ [SessionState.start t] := by
  cases err with
  | true =>
    obtain rfl := Except.ok.inj h
    exact .inl rfl
  | false =>
    obtain ⟨a, -, h⟩ := bind_eq_ok_iff.mp h
    obtain rfl := Except.ok.inj h
    exact .inr ⟨rfl, rfl⟩

theorem sessions_serveForever {o : StartOutcome} {server : ServerState} (h : serveForever o = .ok server) :
    server.sessions = [] := by
  obtain ⟨plain, hplain, h⟩ := bind_eq_ok_iff.mp h
  obtain ⟨a, -, hplain⟩ := bind_eq_ok_iff.mp hplain
  obtain rfl := Except.ok.inj hplain
  obtain ⟨b, -, h⟩ := bind_eq_ok_iff.mp h
  obtain rfl := Except.ok.inj h
  rfl

end Koko.Server
