import Koko.Server.Lifetime
import Koko.Session.FileServing

/-! The exceptions that reach the event loop. One that leaves a worker thread ends the program, and so does one
that leaves the main thread while the workers run. -/
namespace Koko.Session
open Koko.Lib Koko.Http Koko.Handlers

/-- A path that the handler asks about has no status, or the file that it opens cannot be read. -/
def FileRoute.Unreadable {beyond : Nat → Byte} {table : Table RequestHandler} {target : Bytes}
    (r : FileRoute beyond table target) (fs : FileSystem) : Prop :=
  r.file.invalidConfig = false ∧
    ¬ (Answerable (fs r.file.linuxDir) ∧ (fs r.file.linuxDir = .directory → Answerable (fs r.joined)))

/-- Only a file handler throws, and only if what it is to serve is unreadable. -/
theorem FileRoute.throws_iff {beyond : Nat → Byte} {table : Table RequestHandler} {request : Request}
    (r : FileRoute beyond table request.target) (env : Environment) (log : SharedLog) :
    (∃ exn, r.handler.handleRequest env log request = .error exn) ↔ r.Unreadable env.fileSystem := by
  have hok := r.handleRequest_iff env log (fun _ => True)
  simp only [and_true] at hok
  rw [r.file_response_iff] at hok
  unfold Unreadable
  rw [← Bool.not_eq_true, ← not_or, ← hok]
  cases r.handler.handleRequest env log request with
  | ok res => simp
  | error exn => simp

end Koko.Session

namespace Koko.Server
open Koko.Lib Koko.Http Koko.Handlers Koko.Session

/-- The event is one of session `i`. -/
def touches (i : Nat) : SystemEvent → Bool
  | .accepted _ _ => false
  | .finished j _ => j = i
  | .arrived j _ _ => j = i
  | .worked j => j = i

/-- The last event of session `i`. -/
def latest (i : Nat) (events : List SystemEvent) : Option SystemEvent := (events.filter (touches i)).getLast?

theorem latest_concat_of_touches {i : Nat} {event : SystemEvent} (h : touches i event = true) (past : List SystemEvent) :
    latest i (past ++ [event]) = some event := by
  simp [latest, h]

theorem latest_concat_of_not_touches {i : Nat} {event : SystemEvent} (h : touches i event = false)
    (past : List SystemEvent) : latest i (past ++ [event]) = latest i past := by
  simp [latest, h]

/-- A call has begun where a routed request is the last that happened to its session. -/
structure Traced (setting : Setting) (past : List SystemEvent) (s : System) : Prop where
  begins : ∀ i request env, latest i past = some (.arrived i request env) →
    s.calls i = (route setting.beyond setting.urlToHandler request.target).correctHandler.map
      (fun handler => ⟨handler, env, request, .begun⟩)
  begun : ∀ i call, s.calls i = some call → call.phase = .begun →
    latest i past = some (.arrived i call.request call.env) ∧
      (route setting.beyond setting.urlToHandler call.request.target).correctHandler = some call.handler

section
variable {setting : Setting} {s s' : System} {past : List SystemEvent}

/-- The calls of the other sessions stay as they are. -/
theorem calls_of_not_touches {event : SystemEvent} (he : System.Effect setting s event s') {i : Nat}
    (h : touches i event = false) : s'.calls i = s.calls i := by
  cases he with
  | accepted | finished | unrouted => rfl
  | routed | recorded => exact Function.update_of_ne (Ne.symm (of_decide_eq_false h)) _ _
  | copied | replied | counted =>
    rw [System.setPhase_calls]
    exact Function.update_of_ne (Ne.symm (of_decide_eq_false h)) _ _

/-- What an event leaves of the call of its own session: none that has begun, but for an arrival. -/
theorem calls_of_touches {event : SystemEvent} (he : System.Effect setting s event s') {i : Nat}
    (h : touches i event = true) :
    (∃ request env, event = .arrived i request env ∧
      s'.calls i = (route setting.beyond setting.urlToHandler request.target).correctHandler.map
        (fun handler => ⟨handler, env, request, .begun⟩)) ∨
      ((∀ request env, event ≠ .arrived i request env) ∧ ∀ call, s'.calls i = some call → call.phase ≠ .begun) := by
  cases he with
  | accepted => cases h
  | @finished j completion session session' hidle _ _ _ =>
    obtain rfl : j = i := of_decide_eq_true h
    refine .inr ⟨nofun, fun call hc => ?_⟩
    rw [System.setSession_calls, hidle] at hc
    cases hc
  | @unrouted j request env session session' hidle _ _ hroute =>
    obtain rfl : j = i := of_decide_eq_true h
    refine .inl ⟨request, env, rfl, ?_⟩
    rw [System.setSession_calls, hidle, hroute]
    rfl
  | @routed j request env session session' handler _ _ _ hroute =>
    obtain rfl : j = i := of_decide_eq_true h
    refine .inl ⟨request, env, rfl, ?_⟩
    rw [hroute]
    exact Function.update_self _ _ _
  | @copied j call hc _ _ | @replied j call response hc _ _ _ | @counted j call urlInfo names hc _ =>
    obtain rfl : j = i := of_decide_eq_true h
    refine .inr ⟨nofun, fun call' hc' => ?_⟩
    rw [System.setPhase_calls, Function.update_self] at hc'
    obtain rfl := Option.some.inj hc'
    exact nofun
  | @recorded j call reply session hc _ _ =>
    obtain rfl : j = i := of_decide_eq_true h
    refine .inr ⟨nofun, fun call' hc' => ?_⟩
    replace hc' : Function.update s.calls j none j = some call' := hc'
    rw [Function.update_self] at hc'
    cases hc'

theorem traced_start (setting : Setting) (server : ServerState) (log : SharedLog) :
    Traced setting [] (System.start server log) := by
  constructor
  · intro i request env h
    cases h
  · intro i call h
    cases h

theorem Traced.next (ht : Traced setting past s) {event : SystemEvent} (he : System.Effect setting s event s') :
    Traced setting (past ++ [event]) s' := by
  constructor
  · intro i request env h
    cases hi : touches i event with
    | false =>
      rw [latest_concat_of_not_touches hi] at h
      rw [calls_of_not_touches he hi]
      exact ht.begins i request env h
    | true =>
      rw [latest_concat_of_touches hi] at h
      obtain rfl := Option.some.inj h
      rcases calls_of_touches he hi with ⟨request', env', heq, hcalls⟩ | ⟨hne, -⟩
      · obtain ⟨-, rfl, rfl⟩ := SystemEvent.arrived.inj heq
        exact hcalls
      · exact absurd rfl (hne request env)
  · intro i call hc hb
    cases hi : touches i event with
    | false =>
      rw [calls_of_not_touches he hi] at hc
      rw [latest_concat_of_not_touches hi]
      exact ht.begun i call hc hb
    | true =>
      rcases calls_of_touches he hi with ⟨request, env, rfl, hcalls⟩ | ⟨-, hbegun⟩
      · rw [hcalls] at hc
        obtain ⟨handler, hroute, rfl⟩ := Option.map_eq_some_iff.mp hc
        exact ⟨latest_concat_of_touches hi past, hroute⟩
      · exact absurd hb (hbegun call hc)

/-- An acceptor never waits for more than one connection, and for none without the flag. -/
theorem awaits_run {events : List SystemEvent} {t : Transport} (ha : Awaits (s.server.acceptor t))
    (h : s.run setting events = some s') : Awaits (s'.server.acceptor t) := by
  refine foldlM_invariant (fun u : System => Awaits (u.server.acceptor t)) ?_ ha h
  intro u event v _ hu hstep
  rcases acceptor_next (System.next_cases hstep) hu with ⟨-, hfailed⟩ | ⟨-, hsame⟩
  · exact .inl (by rw [hfailed])
  · rwa [hsame]

/-- An acceptor with the flag waits for the next connection. -/
theorem startAcceptingOn_of_serving {t : Transport} {server : ServerState} (h : (server.acceptor t).serving = true) :
    ∃ server', server.startAcceptingOn t = .ok server' := by
  refine ⟨server.setAcceptor t { server.acceptor t with pending := (server.acceptor t).pending + 1 }, ?_⟩
  unfold ServerState.startAcceptingOn Acceptor.startAccepting
  simp only [h, Bool.not_true, Bool.false_eq_true, if_false]
  rfl

/-- A connection that is waited for is accepted without an exception. -/
theorem accept_ne_error {t : Transport} (ha : Awaits (s.server.acceptor t)) (err : Bool) (exn : Exn) :
    s.accept t err ≠ some (.error exn) := by
  intro h
  obtain ⟨result, haccept, hresult⟩ := Option.map_eq_some_iff.mp h
  obtain ⟨hp, -, rfl⟩ := accept_eq_some_iff.mp haccept
  obtain ⟨-, hserving⟩ := ha.resolve_left hp
  cases err with
  | true => cases hresult
  | false =>
    obtain ⟨server, hserver⟩ : ∃ server,
        (s.server.setAcceptor t { s.server.acceptor t with pending := (s.server.acceptor t).pending - 1 }).handleAcceptOn
          t false = .ok server :=
      startAcceptingOn_of_serving (by simpa [ServerState.setAcceptor] using hserving)
    rw [hserver] at hresult
    cases hresult

theorem throws_eq_some_iff {log : SharedLog} {call : Call} {exn : Exn} :
    System.throws log call = some exn ↔
      call.phase = .begun ∧ call.handler.handleRequest call.env log call.request = .error exn := by
  unfold System.throws
  constructor
  · intro h
    split at h
    · rename_i exn' hp he
      split_ifs at h
      obtain rfl := Option.some.inj h
      exact ⟨hp, he⟩
    · cases h
  · rintro ⟨hp, he⟩
    have hb : call.handler.behaviour ≠ .status := by
      intro hb
      rw [RequestHandler.handleRequest_status hb] at he
      cases he
    rw [hp, he]
    exact if_neg hb

/-- A step of a call throws exactly if the handler does, with which the call begins. -/
theorem work_error_iff {i : Nat} {exn : Exn} :
    s.work setting i = some (.error exn) ↔ ∃ call, s.calls i = some call ∧ call.phase = .begun ∧
      call.handler.handleRequest call.env s.log call.request = .error exn := by
  unfold System.work
  constructor
  · intro h
    obtain ⟨call, hc, h⟩ := Option.bind_eq_some_iff.mp h
    cases ht : System.throws s.log call with
    | some exn' =>
      rw [ht] at h
      obtain rfl := Except.error.inj (Option.some.inj h)
      exact ⟨call, hc, throws_eq_some_iff.mp ht⟩
    | none =>
      simp only [ht] at h
      obtain ⟨⟨log, call'⟩, -, h⟩ := Option.bind_eq_some_iff.mp h
      cases hp : call'.phase with
      | returned reply =>
        simp only [hp] at h
        obtain ⟨session, -, h⟩ := Option.bind_eq_some_iff.mp h
        cases h
      | _ =>
        simp only [hp] at h
        cases h
  · rintro ⟨call, hc, hthrows⟩
    rw [hc, Option.bind_eq_bind, Option.bind_some, throws_eq_some_iff.mpr hthrows]

end

/-- The handlers other than those of files catch what they cannot do. -/
theorem file_of_error {handler : RequestHandler} {env : Environment} {log : SharedLog} {request : Request} {exn : Exn}
    (h : handler.handleRequest env log request = .error exn) :
    ∃ file, handler.behaviour = .file file ∨ handler.behaviour = .compressedFile file := by
  unfold RequestHandler.handleRequest at h
  cases hb : handler.behaviour with
  | file file => exact ⟨file, .inl rfl⟩
  | compressedFile file => exact ⟨file, .inr rfl⟩
  | _ =>
    rw [hb] at h
    cases h

/-- A request that a registered file handler answers. -/
theorem fileRoute_of_routed {setting : Setting} (hc : Created setting.urlToHandler) {target : Bytes}
    {handler : RequestHandler}
    (hr : (route setting.beyond setting.urlToHandler target).correctHandler = some handler) {file : FileHandler}
    (hb : handler.behaviour = .file file ∨ handler.behaviour = .compressedFile file) :
    ∃ r : FileRoute setting.beyond setting.urlToHandler target, r.handler = handler := by
  obtain ⟨urlPrefix, handlerName, block, hentry, hcreate⟩ := created_of_routed hc hr
  exact ⟨⟨urlPrefix, handlerName, block, handler, file, hcreate, hb, hentry⟩, rfl⟩

/-- After any run of the server an event throws, and ends the program, exactly if it lets a handler go
to work on a request that was just read, the request is routed to a file handler, and what this is to serve
is unreadable; where a file that opens has a length, no other event does it: no accept, no read or write
that fails, nothing an upstream does. -/
theorem brought_down_iff {setting : Setting} (hc : Created setting.urlToHandler) {o : StartOutcome} {server : ServerState}
    (hserver : serveForever o = .ok server) (log : SharedLog) {events : List SystemEvent} {s : System}
    (h : (System.start server log).run setting events = some s) (event : SystemEvent) :
    (∃ exn, s.fire setting event = some (.error exn)) ↔
      ∃ i request env, event = .worked i ∧ latest i events = some (.arrived i request env) ∧
        ∃ r : FileRoute setting.beyond setting.urlToHandler request.target, r.Unreadable env.fileSystem := by
  have ht : Traced setting events s :=
    foldlM_history (Traced setting) (fun _ _ _ _ hu hstep => hu.next (System.next_cases hstep))
      (traced_start setting server log) h
  have ha : ∀ t, Awaits (s.server.acceptor t) := fun t => awaits_run (awaits_of_armed (armed_serveForever hserver) t) h
  constructor
  · rintro ⟨exn, hfire⟩
    cases event with
    | accepted t err => exact absurd hfire (accept_ne_error (ha t) err exn)
    | finished i completion =>
      obtain ⟨_, -, he⟩ := Option.map_eq_some_iff.mp hfire
      cases he
    | arrived i request env =>
      obtain ⟨_, -, he⟩ := Option.map_eq_some_iff.mp hfire
      cases he
    | worked i =>
      obtain ⟨call, hcall, hbegun, herror⟩ := work_error_iff.mp hfire
      obtain ⟨hlatest, hroute⟩ := ht.begun i call hcall hbegun
      obtain ⟨file, hfile⟩ := file_of_error herror
      obtain ⟨r, hr⟩ := fileRoute_of_routed hc hroute hfile
      rw [← hr] at herror
      exact ⟨i, call.request, call.env, rfl, hlatest, r, (r.throws_iff call.env s.log).mp ⟨exn, herror⟩⟩
  · rintro ⟨i, request, env, rfl, hlatest, r, hr⟩
    obtain ⟨exn, herror⟩ := (r.throws_iff env s.log).mpr hr
    obtain ⟨handler, hhandler, he⟩ := Option.map_eq_some_iff.mp r.routed
    obtain rfl : handler = r.handler := (Prod.mk.inj he).2
    have hcall := ht.begins i request env hlatest
    rw [hhandler] at hcall
    exact ⟨exn, work_error_iff.mpr ⟨_, hcall, rfl, herror⟩⟩

def staticSetting : Setting := ⟨staticTable, fun _ => 0, fun _ => false⟩

/-- A client asks for a page that may not be read. -/
def unreadablePage : List SystemEvent :=
  [.accepted .tcp false, .arrived 0 (getRequest (ascii "/static/index.html"))
    (fileEnvironment (fun path => if path = ascii "/srv/static" then .directory else .unopenable))]

theorem unreadable_page_brings_down :
    ∃ server s, serveForever plainStart = .ok server ∧
      (System.start server ⟨[], []⟩).run staticSetting unreadablePage = some s ∧
      ∃ exn, s.fire staticSetting (.worked 0) = some (.error exn) := by
  have hcreated : Created staticSetting.urlToHandler := by
    intro e he
    rw [List.mem_singleton.mp he]
    exact ⟨ascii "StaticHandler", staticBlock, rfl⟩
  have hruns : ∃ server s, serveForever plainStart = .ok server ∧
      (System.start server ⟨[], []⟩).run staticSetting unreadablePage = some s := ⟨_, _, rfl, rfl⟩
  obtain ⟨server, s, hserver, hrun⟩ := hruns
  refine ⟨server, s, hserver, hrun, (brought_down_iff hcreated hserver _ hrun _).mpr ?_⟩
  exact ⟨0, _, _, rfl, rfl, pageRoute, rfl, by decide⟩

end Koko.Server
