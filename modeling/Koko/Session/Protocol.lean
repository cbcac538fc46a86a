import Koko.Handlers.Framing
import Koko.Lib.Path
import Koko.Server.Registration
import Koko.Session.Session

/-! The protocol a session follows on its connection, as an automaton over the events of
the session, and the proof that every run follows it. -/
namespace Koko.Session
open Koko.Lib Koko.Http Koko.Handlers Koko.Server

/-- Where a conversation stands: between a completion and the operation its handler starts
there is a `due` phase. -/
inductive Phase where
  | begun
  | handshaking
  | dueRead
  | reading
  | due (res : Response)
  | writing (res : Response)
  | over

def KeepsAlive (res : Response) : Prop := res.get? connectionField = some keepAliveValue

instance (res : Response) : Decidable (KeepsAlive res) := inferInstanceAs (Decidable (_ = _))

/-- The header says one of the two things a client can act on. -/
def SaysConnection (res : Response) : Prop := res.get? connectionField = some closeValue ∨ KeepsAlive res

/-- The response is the one `construct_response` computes from the request. -/
def Answers (setting : Setting) (request : Request) (env : Environment) (log : SharedLog) (res : Response) : Prop :=
  ∃ name answer, constructResponse setting.beyond setting.urlToHandler env log name request = .ok answer ∧
    answer.response = res

/-- One event of the conversation. -/
inductive Turn (setting : Setting) : Phase → Event → Phase → Prop where
  | start : Turn setting .begun .readStarted .reading
  | startHandshake : Turn setting .begun .handshakeStarted .handshaking
  | shaken : Turn setting .handshaking (.handshakeDone true) .dueRead
  | refused : Turn setting .handshaking (.handshakeDone false) .over
  | next : Turn setting .dueRead .readStarted .reading
  | timeout : Turn setting .reading (.readDone .timeout) .over
  | endOfStream : Turn setting .reading (.readDone .endOfStream) .over
  | malformed : Turn setting .reading (.readDone .otherError) (.due badRequest)
  | request {request env log res} : Answers setting request env log res →
      Turn setting .reading (.readDone (.request request env log)) (.due res)
  | respond {res} : SaysConnection res → Turn setting (.due res) (.writeStarted res) (.writing res)
  | failed {res} : Turn setting (.writing res) (.writeDone false) .over
  | kept {res} : KeepsAlive res → Turn setting (.writing res) (.writeDone true) .dueRead
  | closed {res} : ¬ KeepsAlive res → Turn setting (.writing res) (.writeDone true) .over

/-- The operations in flight while a conversation rests in a phase. -/
def Phase.operations : Phase → Option (List Operation)
  | .handshaking => some [.handshake]
  | .reading => some [.read]
  | .writing res => some [.write (¬ KeepsAlive res)]
  | .over => some []
  | _ => none

/-- The session's trace follows the protocol and rests where its operations say. -/
def Follows (setting : Setting) (s : SessionState) : Prop :=
  ∃ phase, Path (Turn setting) .begun s.trace phase ∧ phase.operations = some s.outstanding

/-- What the session relies on of `need_eof`: a response of known length that keeps the
connection alive does not need it closed. -/
def NeedsNoEof (needEof : Response → Bool) : Prop :=
  ∀ res, res.version = 11 → (res.get? contentLengthField).isSome = true → KeepsAlive res → needEof res = false

theorem follows_start (setting : Setting) (transport : Transport) : Follows setting (SessionState.start transport) := by
  cases transport with
  | tcp => exact ⟨.reading, ⟨_, .start, rfl⟩, rfl⟩
  | ssl => exact ⟨.handshaking, ⟨_, .startHandshake, rfl⟩, rfl⟩

private theorem closeValue_ne_keepAliveValue : closeValue ≠ keepAliveValue := by decide

theorem not_keepsAlive_of_close {res : Response} (h : res.get? connectionField = some closeValue) : ¬ KeepsAlive res := by
  unfold KeepsAlive
  rw [h]
  simpa using closeValue_ne_keepAliveValue

/-- An answer from a created table says what becomes of the connection, and one that keeps it
alive is of version 1.1 and known length. -/
theorem answer_connection {setting : Setting} (hc : Created setting.urlToHandler) {request : Request}
    {env : Environment} {log : SharedLog} {name : Bytes} {answer : Answer}
    (h : constructResponse setting.beyond setting.urlToHandler env log name request = .ok answer) :
    answer.response.get? connectionField = some closeValue ∨
      (KeepsAlive answer.response ∧ answer.response.version = 11 ∧
        (answer.response.get? contentLengthField).isSome = true) := by
  rcases constructResponse_cases h with ⟨-, rfl⟩ | ⟨urlPrefix, handler, res, hr, hres, rfl⟩
  · exact .inl (connection_errorResponse _ _)
  · obtain ⟨handlerName, block, hcreate⟩ := hc _ (serves_of_route hr).1
    unfold answerOf finalResponse
    cases hk : handler.keepAlive with
    | false => exact .inl (Response.get?_set_self _ _ _)
    | true =>
      have hb : ∀ h, handler.behaviour ≠ .proxy h := by
        intro h hh
        simpa [hh, hk] using createHandler_cases hcreate
      obtain ⟨hframed, hversion⟩ := RequestHandler.own_response hb hres
      refine .inr ⟨Response.get?_set_self _ _ _, hversion, ?_⟩
      have hset := hframed.set keepAliveValue (show iequals connectionField contentLengthField = false by decide)
      exact Option.isSome_of_eq_some hset

/-- A resting conversation has at most one operation in flight. -/
theorem length_operations_le {phase : Phase} {operations : List Operation} (h : phase.operations = some operations) :
    operations.length ≤ 1 := by
  cases phase with
  | begun | dueRead | due res => cases h
  | _ =>
    obtain rfl := Option.some.inj h
    simp

private theorem operations_single {phase : Phase} {operations : List Operation} {operation : Operation}
    (h : phase.operations = some operations) (hm : operation ∈ operations) : operations = [operation] := by
  have hlen : operations.length ≤ 1 := length_operations_le h
  cases operations with
  | nil => cases hm
  | cons first rest =>
    cases rest with
    | nil => rw [List.mem_singleton.mp hm]
    | cons second rest => simp at hlen

/-- The session with nothing in flight, once the event has been seen. -/
def SessionState.idleAfter (s : SessionState) (event : Event) : SessionState :=
  { s with outstanding := [], trace := s.trace ++ [event] }

@[simp] theorem outstanding_idleAfter (s : SessionState) (event : Event) : (s.idleAfter event).outstanding = [] := rfl

private theorem complete_cases {setting : Setting} {s s' : SessionState} {operation : Operation} {event : Event}
    (hf : Follows setting s) (h : s.complete operation event = some s') :
    ∃ phase, Path (Turn setting) .begun s.trace phase ∧ phase.operations = some [operation] ∧
      s' = s.idleAfter event := by
  obtain ⟨phase, hpath, hops⟩ := hf
  unfold SessionState.complete at h
  split_ifs at h with hmem
  have hsingle := operations_single hops hmem
  obtain rfl := Option.some.inj h
  refine ⟨phase, hpath, by rw [hops, hsingle], ?_⟩
  simp [SessionState.idleAfter, hsingle]

private theorem follows_handshake {setting : Setting} {s : SessionState} {phase : Phase}
    (hpath : Path (Turn setting) .begun s.trace phase) (hops : phase.operations = some [.handshake]) (ok : Bool) :
    Follows setting ((s.idleAfter (.handshakeDone ok)).afterHandshake ok) := by
  obtain rfl : phase = .handshaking := by
    cases phase <;> simp_all [Phase.operations]
  cases ok with
  | true => exact ⟨.reading, (hpath.snoc .shaken).snoc .next, rfl⟩
  | false => exact ⟨.over, hpath.snoc .refused, rfl⟩

private theorem follows_write {setting : Setting} {s : SessionState} {phase : Phase} {close : Bool}
    (hpath : Path (Turn setting) .begun s.trace phase) (hops : phase.operations = some [.write close]) (ok : Bool) :
    Follows setting ((s.idleAfter (.writeDone ok)).finishedWrite close ok) := by
  obtain ⟨res, rfl, hclose⟩ : ∃ res, phase = .writing res ∧ close = decide (¬ KeepsAlive res) := by
    cases phase <;> simp_all [Phase.operations]
  subst hclose
  cases ok with
  | false => exact ⟨.over, hpath.snoc .failed, rfl⟩
  | true =>
    by_cases hk : KeepsAlive res
    · simp only [hk, not_true_eq_false, decide_false]
      exact ⟨.reading, (hpath.snoc (.kept hk)).snoc .next, rfl⟩
    · simp only [hk, not_false_eq_true, decide_true]
      exact ⟨.over, hpath.snoc (.closed hk), rfl⟩

/-- The bit bound to the write says whether the response keeps the connection alive. -/
private theorem closes_eq {setting : Setting} (he : NeedsNoEof setting.needEof) {res : Response}
    (h : res.get? connectionField = some closeValue ∨
      (KeepsAlive res ∧ res.version = 11 ∧ (res.get? contentLengthField).isSome = true)) :
    closes setting res = decide (¬ KeepsAlive res) := by
  unfold closes
  rcases h with hc | ⟨hk, hv, hl⟩
  · rw [if_pos hc, decide_eq_true (not_keepsAlive_of_close hc)]
  · rw [if_neg (fun hc => not_keepsAlive_of_close hc hk), he res hv hl hk]
    simp [hk]

private theorem follows_read {setting : Setting} (hc : Created setting.urlToHandler)
    (he : NeedsNoEof setting.needEof) {s s' : SessionState} {phase : Phase}
    (hpath : Path (Turn setting) .begun s.trace phase) (hops : phase.operations = some [.read])
    (outcome : ReadOutcome)
    (h : (s.idleAfter (.readDone outcome)).onRead setting outcome = .ok s') :
    Follows setting s' := by
  obtain rfl : phase = .reading := by
    cases phase <;> simp_all [Phase.operations]
  cases outcome with
  | timeout =>
    obtain rfl := Except.ok.inj h
    exact ⟨.over, hpath.snoc .timeout, rfl⟩
  | endOfStream =>
    obtain rfl := Except.ok.inj h
    exact ⟨.over, hpath.snoc .endOfStream, rfl⟩
  | otherError =>
    obtain rfl := Except.ok.inj h
    have hclose : badRequest.get? connectionField = some closeValue := connection_errorResponse _ _
    refine ⟨.writing badRequest, (hpath.snoc .malformed).snoc (.respond (.inl hclose)), ?_⟩
    simp [Phase.operations, SessionState.asyncWriteStream, not_keepsAlive_of_close hclose]
  | request request env log =>
    obtain ⟨answer, ha, h⟩ := bind_eq_ok_iff.mp h
    have hconn := answer_connection hc ha
    obtain rfl := Except.ok.inj h
    have hsays : SaysConnection answer.response := hconn.imp_right And.left
    refine ⟨.writing answer.response, (hpath.snoc (.request ⟨s.name, answer, ha, rfl⟩)).snoc (.respond hsays), ?_⟩
    rw [SessionState.respond, closes_eq he hconn]
    rfl

/-- A completion keeps the session in the protocol. -/
theorem follows_step {setting : Setting} (hc : Created setting.urlToHandler) (he : NeedsNoEof setting.needEof)
    {s s' : SessionState} {completion : Completion} (hf : Follows setting s)
    (h : step setting s completion = some s') : Follows setting s' := by
  cases completion with
  | handshake ok =>
    obtain ⟨s₁, h₁, h₂⟩ := Option.bind_eq_some_iff.mp h
    obtain ⟨phase, hpath, hops, rfl⟩ := complete_cases hf h₁
    obtain rfl := Option.some.inj h₂
    exact follows_handshake hpath hops ok
  | read outcome =>
    obtain ⟨s₁, h₁, h₂⟩ := Option.bind_eq_some_iff.mp h
    obtain ⟨phase, hpath, hops, rfl⟩ := complete_cases hf h₁
    exact follows_read hc he hpath hops outcome (toOption_eq_some_iff.mp h₂)
  | write close ok =>
    obtain ⟨s₁, h₁, h₂⟩ := Option.bind_eq_some_iff.mp h
    obtain ⟨phase, hpath, hops, rfl⟩ := complete_cases hf h₁
    obtain rfl := Option.some.inj h₂
    exact follows_write hpath hops ok

/-- Every run follows the protocol. -/
theorem follows_run {setting : Setting} (hc : Created setting.urlToHandler) (he : NeedsNoEof setting.needEof)
    {transport : Transport} {completions : List Completion} {s : SessionState}
    (h : run setting transport completions = some s) : Follows setting s := by
  refine foldlM_invariant (Follows setting) ?_ (follows_start setting transport) h
  intro s completion s' _ hf hs
  exact follows_step hc he hf hs

end Koko.Session
