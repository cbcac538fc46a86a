import Koko.Lib.Path
import Koko.Session.Session

/-! The calls a session makes on its stream: the timer set by `set_expiration`, the asynchronous
operations, and `shutdown_stream`. -/
namespace Koko.Session
open Koko.Lib Koko.Http Koko.Handlers

/-- `shutdown_both` and `shutdown_send`. -/
inductive Direction where
  | both | send
deriving DecidableEq

inductive StreamCall where
  | expiresAfter (seconds : Nat)
  | asyncHandshake
  | asyncRead
  | asyncWrite (res : Response)
  | shutdown (what : Direction)

def Transport.direction : Transport → Direction
  | .tcp => .both
  | .ssl => .send

/-- A session and its calls on the stream so far. -/
structure StreamSession where
  transport : Transport
  session : SessionState
  calls : List StreamCall

namespace StreamSession

def setExpiration (s : StreamSession) (seconds : Nat) : StreamSession :=
  { s with calls := s.calls ++ [.expiresAfter seconds] }

def shutdownStream (s : StreamSession) : StreamSession :=
  { s with calls := s.calls ++ [.shutdown s.transport.direction] }

def asyncReadStream (s : StreamSession) : StreamSession :=
  { s with session := s.session.doRead, calls := s.calls ++ [.asyncRead] }

def doRead (s : StreamSession) : StreamSession := (s.setExpiration 30).asyncReadStream

def asyncWriteStream (s : StreamSession) (close : Bool) : StreamSession :=
  { s with session := s.session.asyncWriteStream close, calls := s.calls ++ [.asyncWrite s.session.res] }

def asyncHandshake (s : StreamSession) : StreamSession :=
  { s with session := s.session.doHandshake, calls := s.calls ++ [.asyncHandshake] }

def doHandshake (s : StreamSession) : StreamSession := (s.setExpiration 30).asyncHandshake

def afterHandshake (s : StreamSession) (ok : Bool) : StreamSession := if ok then s.doRead else s

/-- Only the end of the stream, and not a timeout, shuts it down here. -/
def onRead (setting : Setting) (s : StreamSession) : ReadOutcome → Except Exn StreamSession
  | .timeout => .ok s
  | .endOfStream => .ok s.shutdownStream
  | .otherError => .ok ({ s with session := { s.session with res := badRequest } }.asyncWriteStream true)
  | .request request env log => do
    let answer ← constructResponse setting.beyond setting.urlToHandler env log s.session.name request
    return { s with session := { s.session with name := answer.name, res := answer.response } }.asyncWriteStream
      (closes setting answer.response)

def finishedWrite (s : StreamSession) (close ok : Bool) : StreamSession :=
  if !ok then s
  else if close then s.shutdownStream
  else { s with session := { s.session with res := newResponse 200 } }.doRead

def start : Transport → StreamSession
  | .tcp => doRead ⟨.tcp, ⟨ascii "sessionTCP: ", newResponse 200, [], []⟩, []⟩
  | .ssl => doHandshake ⟨.ssl, ⟨ascii "sessionSSL: ", newResponse 200, [], []⟩, []⟩

def complete (s : StreamSession) (operation : Operation) (event : Event) : Option StreamSession :=
  (s.session.complete operation event).map (fun session => { s with session })

def step (setting : Setting) (s : StreamSession) : Completion → Option StreamSession
  | .handshake ok => do
    let s ← s.complete .handshake (.handshakeDone ok)
    return s.afterHandshake ok
  | .read outcome => do
    let s ← s.complete .read (.readDone outcome)
    (s.onRead setting outcome).toOption
  | .write close ok => do
    let s ← s.complete (.write close) (.writeDone ok)
    return s.finishedWrite close ok

def run (setting : Setting) (transport : Transport) (completions : List Completion) : Option StreamSession :=
  completions.foldlM (step setting) (start transport)

variable {setting : Setting} {s : StreamSession}

theorem session_afterHandshake (ok : Bool) : (s.afterHandshake ok).session = s.session.afterHandshake ok := by
  cases ok <;> rfl

theorem session_finishedWrite (close ok : Bool) :
    (s.finishedWrite close ok).session = s.session.finishedWrite close ok := by
  cases close <;> cases ok <;> rfl

theorem session_onRead (outcome : ReadOutcome) :
    (s.onRead setting outcome).map session = s.session.onRead setting outcome := by
  cases outcome with
  | timeout => rfl
  | endOfStream => rfl
  | otherError => rfl
  | request request env log =>
    simp only [onRead, SessionState.onRead]
    cases constructResponse setting.beyond setting.urlToHandler env log s.session.name request <;> rfl

/-- Without its calls the session steps as before. -/
theorem session_step (completion : Completion) :
    (s.step setting completion).map session = Koko.Session.step setting s.session completion := by
  cases completion with
  | handshake ok =>
    simp only [step, complete, Koko.Session.step]
    cases s.session.complete .handshake (.handshakeDone ok) with
    | none => rfl
    | some s₁ => exact congrArg some (session_afterHandshake ok)
  | read outcome =>
    simp only [step, complete, Koko.Session.step]
    cases s.session.complete .read (.readDone outcome) with
    | none => rfl
    | some s₁ =>
      have hread := @session_onRead setting ⟨s.transport, s₁, s.calls⟩ outcome
      simp only [Option.map_some, Option.bind_eq_bind, Option.bind_some, ← hread]
      cases (StreamSession.mk s.transport s₁ s.calls).onRead setting outcome <;> rfl
  | write close ok =>
    simp only [step, complete, Koko.Session.step]
    cases s.session.complete (.write close) (.writeDone ok) with
    | none => rfl
    | some s₁ => exact congrArg some (session_finishedWrite close ok)

theorem session_run (setting : Setting) (transport : Transport) (completions : List Completion) :
    (run setting transport completions).map session = Koko.Session.run setting transport completions := by
  have hfold : ∀ s : StreamSession, (completions.foldlM (step setting) s).map session =
      completions.foldlM (Koko.Session.step setting) s.session := by
    induction completions with
    | nil => exact fun s => rfl
    | cons completion completions ih =>
      intro s
      rw [List.foldlM_cons, List.foldlM_cons, ← session_step]
      cases s.step setting completion with
      | none => rfl
      | some next => exact ih next
  have hstart : (start transport).session = SessionState.start transport := by
    cases transport <;> rfl
  rw [run, hfold, hstart]
  rfl

end StreamSession

/-- Where the use of a stream stands. -/
inductive StreamPhase where
  | fresh
  | dueHandshake
  | handshaking
  | dueRead
  | reading
  | writing
  | shut
deriving DecidableEq

/-- One call on the stream. A write runs under the timer of the read before it, and after a shutdown
there is no call. -/
inductive CallTurn (transport : Transport) : StreamPhase → StreamCall → StreamPhase → Prop where
  | opened : transport = .tcp → CallTurn transport .fresh (.expiresAfter 30) .dueRead
  | secured : transport = .ssl → CallTurn transport .fresh (.expiresAfter 30) .dueHandshake
  | handshake : CallTurn transport .dueHandshake .asyncHandshake .handshaking
  | shaken : CallTurn transport .handshaking (.expiresAfter 30) .dueRead
  | read : CallTurn transport .dueRead .asyncRead .reading
  | write {res} : CallTurn transport .reading (.asyncWrite res) .writing
  | written : CallTurn transport .writing (.expiresAfter 30) .dueRead
  | ended : CallTurn transport .reading (.shutdown transport.direction) .shut
  | closed : CallTurn transport .writing (.shutdown transport.direction) .shut

/-- The completions at which a session shuts its stream down: the client has ended it, or the
response that closes the connection has been written. -/
def Completion.Closes : Completion → Prop
  | .read .endOfStream | .write true true => True
  | _ => False

/-- The phase in which an operation is in flight. -/
def Operation.phase : Operation → StreamPhase
  | .handshake => .handshaking
  | .read => .reading
  | .write _ => .writing

/-- The calls so far are in order; an operation in flight is the one that was started last, and
nothing is in flight on a stream that was shut down. -/
structure Ordered (transport : Transport) (s : StreamSession) (phase : StreamPhase) : Prop where
  transport_eq : s.transport = transport
  path : Path (CallTurn transport) .fresh s.calls phase
  busy : s.session.outstanding = [] ∨ ∃ operation, s.session.outstanding = [operation] ∧ phase = operation.phase

section Ordered
variable {transport : Transport} {s s' : StreamSession} {phase : StreamPhase}

/-- What completes is the one operation in flight. -/
theorem Ordered.complete (h : Ordered transport s phase) {operation : Operation} {event : Event}
    (hc : s.complete operation event = some s') :
    Ordered transport s' operation.phase ∧ s'.session.outstanding = [] := by
  obtain ⟨session, hs, rfl⟩ := Option.map_eq_some_iff.mp hc
  unfold SessionState.complete at hs
  split_ifs at hs with hmem
  obtain rfl := Option.some.inj hs
  rcases h.busy with hidle | ⟨inFlight, hone, hphase⟩
  · rw [hidle] at hmem
    cases hmem
  · rw [hone, List.mem_singleton] at hmem
    subst hmem
    have hidle : s.session.outstanding.erase operation = [] := by
      rw [hone]
      simp
    exact ⟨⟨h.transport_eq, hphase ▸ h.path, .inl hidle⟩, hidle⟩

theorem Ordered.doRead (h : Ordered transport s phase) (hidle : s.session.outstanding = [])
    (hturn : CallTurn transport phase (.expiresAfter 30) .dueRead) : Ordered transport s.doRead .reading := by
  refine ⟨h.transport_eq, (h.path.snoc hturn).snoc .read, .inr ⟨.read, ?_, rfl⟩⟩
  change s.session.outstanding ++ [.read] = [.read]
  rw [hidle]
  rfl

theorem Ordered.asyncWriteStream (h : Ordered transport s .reading) (hidle : s.session.outstanding = []) (close : Bool) :
    Ordered transport (s.asyncWriteStream close) .writing := by
  refine ⟨h.transport_eq, h.path.snoc .write, .inr ⟨.write close, ?_, rfl⟩⟩
  change s.session.outstanding ++ [.write close] = [.write close]
  rw [hidle]
  rfl

theorem Ordered.shutdownStream (h : Ordered transport s phase) (hidle : s.session.outstanding = [])
    (hturn : CallTurn transport phase (.shutdown transport.direction) .shut) :
    Ordered transport s.shutdownStream .shut := by
  refine ⟨h.transport_eq, ?_, .inl hidle⟩
  have hpath := h.path.snoc hturn
  rw [← h.transport_eq] at hpath ⊢
  exact hpath

theorem Ordered.afterHandshake (h : Ordered transport s .handshaking) (hidle : s.session.outstanding = []) (ok : Bool) :
    ∃ next, Ordered transport (s.afterHandshake ok) next ∧ next ≠ .shut := by
  cases ok with
  | false => exact ⟨.handshaking, h, by decide⟩
  | true => exact ⟨.reading, h.doRead hidle .shaken, by decide⟩

theorem Ordered.onRead {setting : Setting} (h : Ordered transport s .reading) (hidle : s.session.outstanding = [])
    {outcome : ReadOutcome} (hr : s.onRead setting outcome = .ok s') :
    ∃ next, Ordered transport s' next ∧ (next = .shut ↔ (Completion.read outcome).Closes) := by
  cases outcome with
  | timeout =>
    obtain rfl := Except.ok.inj hr
    exact ⟨.reading, h, iff_of_false (by decide) id⟩
  | endOfStream =>
    obtain rfl := Except.ok.inj hr
    exact ⟨.shut, h.shutdownStream hidle .ended, iff_of_true rfl trivial⟩
  | otherError =>
    obtain rfl := Except.ok.inj hr
    have h' : Ordered transport { s with session := { s.session with res := badRequest } } .reading :=
      ⟨h.transport_eq, h.path, h.busy⟩
    exact ⟨.writing, h'.asyncWriteStream hidle true, iff_of_false (by decide) id⟩
  | request request env log =>
    obtain ⟨answer, -, ha⟩ := bind_eq_ok_iff.mp hr
    obtain rfl := Except.ok.inj ha
    have h' : Ordered transport
        { s with session := { s.session with name := answer.name, res := answer.response } } .reading :=
      ⟨h.transport_eq, h.path, h.busy⟩
    exact ⟨.writing, h'.asyncWriteStream hidle _, iff_of_false (by decide) id⟩

theorem Ordered.finishedWrite (h : Ordered transport s .writing) (hidle : s.session.outstanding = []) (close ok : Bool) :
    ∃ next, Ordered transport (s.finishedWrite close ok) next ∧ (next = .shut ↔ (Completion.write close ok).Closes) := by
  cases ok with
  | false => exact ⟨.writing, h, iff_of_false (by decide) (by cases close <;> exact id)⟩
  | true =>
    cases close with
    | true => exact ⟨.shut, h.shutdownStream hidle .closed, iff_of_true rfl trivial⟩
    | false =>
      have h' : Ordered transport { s with session := { s.session with res := newResponse 200 } } .writing :=
        ⟨h.transport_eq, h.path, h.busy⟩
      exact ⟨.reading, h'.doRead hidle .written, iff_of_false (by decide) id⟩

/-- A completion keeps the calls in order, and shuts the stream down exactly if it is one of those
that do. -/
theorem Ordered.step {setting : Setting} (h : Ordered transport s phase) {completion : Completion}
    (hs : s.step setting completion = some s') :
    ∃ next, Ordered transport s' next ∧ (next = .shut ↔ completion.Closes) := by
  cases completion with
  | handshake ok =>
    obtain ⟨s₁, h₁, h₂⟩ := Option.bind_eq_some_iff.mp hs
    obtain ⟨hordered, hidle⟩ := h.complete h₁
    obtain rfl := Option.some.inj h₂
    obtain ⟨next, hnext, hopen⟩ := hordered.afterHandshake hidle ok
    exact ⟨next, hnext, iff_of_false hopen id⟩
  | read outcome =>
    obtain ⟨s₁, h₁, h₂⟩ := Option.bind_eq_some_iff.mp hs
    obtain ⟨hordered, hidle⟩ := h.complete h₁
    exact hordered.onRead hidle (toOption_eq_some_iff.mp h₂)
  | write close ok =>
    obtain ⟨s₁, h₁, h₂⟩ := Option.bind_eq_some_iff.mp hs
    obtain ⟨hordered, hidle⟩ := h.complete h₁
    obtain rfl := Option.some.inj h₂
    exact hordered.finishedWrite hidle close ok

theorem Ordered.idle_of_shut (h : Ordered transport s .shut) : s.session.outstanding = [] := by
  rcases h.busy with hidle | ⟨operation, -, hphase⟩
  · exact hidle
  · cases operation <;> cases hphase

end Ordered

theorem ordered_start (transport : Transport) :
    ∃ phase, Ordered transport (StreamSession.start transport) phase ∧ phase ≠ .shut := by
  cases transport with
  | tcp => exact ⟨.reading, ⟨rfl, ⟨_, .opened rfl, _, .read, rfl⟩, .inr ⟨.read, rfl, rfl⟩⟩, by decide⟩
  | ssl =>
    exact ⟨.handshaking, ⟨rfl, ⟨_, .secured rfl, _, .handshake, rfl⟩, .inr ⟨.handshake, rfl, rfl⟩⟩, by decide⟩

/-- In every run of a session the calls on the stream come in order: each handshake and each read
starts with the timer set anew, a response comes only behind a read, and a shutdown comes last. It has come
exactly if the run ended with the client's end of stream or with a closing response written, and
then nothing is in flight. -/
theorem stream_calls_ordered {setting : Setting} {transport : Transport} {completions : List Completion}
    {session : SessionState} (h : run setting transport completions = some session) :
    ∃ s phase, StreamSession.run setting transport completions = some s ∧ s.session = session ∧
      Path (CallTurn transport) .fresh s.calls phase ∧
      (phase = .shut ↔ ∃ last ∈ completions.getLast?, last.Closes) ∧
      (phase = .shut → session.outstanding = []) := by
  rw [← StreamSession.session_run] at h
  obtain ⟨s, hs, rfl⟩ := Option.map_eq_some_iff.mp h
  have hordered : ∃ phase, Ordered transport s phase ∧ (phase = .shut ↔ ∃ last ∈ completions.getLast?, last.Closes) := by
    clear h
    induction completions using List.reverseRecOn generalizing s with
    | nil =>
      obtain rfl := Option.some.inj hs
      obtain ⟨phase, hphase, hopen⟩ := ordered_start transport
      exact ⟨phase, hphase, iff_of_false hopen (by simp)⟩
    | append_singleton completions last ih =>
      rw [StreamSession.run, List.foldlM_append] at hs
      obtain ⟨s₁, h₁, h₂⟩ := Option.bind_eq_some_iff.mp hs
      obtain ⟨phase, hphase, -⟩ := ih s₁ h₁
      rw [List.foldlM_cons] at h₂
      obtain ⟨s₂, hstep, he⟩ := Option.bind_eq_some_iff.mp h₂
      obtain rfl := Option.some.inj he
      obtain ⟨next, hnext, hcloses⟩ := hphase.step hstep
      exact ⟨next, hnext, by simpa using hcloses⟩
  obtain ⟨phase, hphase, hcloses⟩ := hordered
  exact ⟨s, phase, hs, rfl, hphase.path, hcloses, fun hshut => (hshut ▸ hphase).idle_of_shut⟩

/-- A handshake, a request nobody serves, and the answer that closes the connection. -/
def unservedRequest : List Completion :=
  [.handshake true, .read (.request ⟨ascii "GET", ascii "/", 11, [], []⟩
    ⟨fun _ => [], fun _ => .missing, id, fun _ _ _ => ⟨false, false, false, .other, newResponse 200, .other⟩, []⟩
    ⟨[], []⟩), .write true true]

theorem unserved_request_shuts_down :
    ∃ s phase, StreamSession.run ⟨[], fun _ => 0, fun _ => false⟩ .ssl unservedRequest = some s ∧
      Path (CallTurn .ssl) .fresh s.calls phase ∧ phase = .shut ∧ s.session.outstanding = [] := by
  have hrun : ∃ session, run ⟨[], fun _ => 0, fun _ => false⟩ .ssl unservedRequest = some session := ⟨_, rfl⟩
  obtain ⟨session, hsession⟩ := hrun
  obtain ⟨s, phase, hs, rfl, hpath, hcloses, hidle⟩ := stream_calls_ordered hsession
  have hshut : phase = .shut := hcloses.mpr ⟨_, rfl, trivial⟩
  exact ⟨s, phase, hs, hpath, hshut, hidle hshut⟩

end Koko.Session
