import Koko.Lib.Path
import Koko.Session.Session
import Mathlib.Logic.Function.Basic

/-! The two acceptors of the server: binding them, the flags that say whether to accept, and the
accepts pending on them in every run of the event loop. -/
namespace Koko.Server
open Koko.Lib Koko.Handlers Koko.Session

/-- Which of the four calls that set up an acceptor succeed. -/
structure BindCalls where
  opens : Bool
  setsReuse : Bool
  binds : Bool
  listens : Bool
deriving DecidableEq

def bindAcceptor (calls : BindCalls) : Bool :=
  if !calls.opens then false
  else if !calls.setsReuse then false
  else if !calls.binds then false
  else if !calls.listens then false
  else true

/-- An acceptor, the server's flag for it, and the number of accepts pending on it. It listens if all
four calls succeeded, whatever the flag says. -/
structure Acceptor where
  isOpen : Bool
  listening : Bool
  serving : Bool
  pending : Nat
deriving DecidableEq

namespace Acceptor

def construct (calls : BindCalls) : Acceptor := ⟨calls.opens, bindAcceptor calls, bindAcceptor calls, 0⟩

/-- Without the flag only the local port is logged, and asking a closed acceptor for it throws. -/
def startAccepting (a : Acceptor) : Except Exn Acceptor :=
  if !a.serving then if a.isOpen then .ok a else .error .systemError
  else .ok { a with pending := a.pending + 1 }

end Acceptor

/-- The plain sessions come from one acceptor and the encrypted ones from the other. -/
structure ServerState where
  acceptor : Transport → Acceptor
  sessions : List SessionState

namespace ServerState

def setAcceptor (s : ServerState) (t : Transport) (a : Acceptor) : ServerState :=
  { s with acceptor := Function.update s.acceptor t a }

def startAcceptingOn (t : Transport) (s : ServerState) : Except Exn ServerState := do
  let a ← (s.acceptor t).startAccepting
  return s.setAcceptor t a

def startAccepting (s : ServerState) : Except Exn ServerState := s.startAcceptingOn .tcp

def startAcceptingHttps (s : ServerState) : Except Exn ServerState := s.startAcceptingOn .ssl

/-- An error ends the handler; otherwise a session is started and the next accept is. -/
def handleAcceptOn (t : Transport) (s : ServerState) (err : Bool) : Except Exn ServerState :=
  if err then .ok s
  else { s with sessions := s.sessions ++ [SessionState.start t] }.startAcceptingOn t

def handleAccept (s : ServerState) (err : Bool) : Except Exn ServerState := s.handleAcceptOn .tcp err

def handleAcceptHttps (s : ServerState) (err : Bool) : Except Exn ServerState := s.handleAcceptOn .ssl err

/-- A pending accept completes: with an error, or with a connection if the acceptor listens. -/
def accept (s : ServerState) (t : Transport) (err : Bool) : Option (Except Exn ServerState) :=
  if (s.acceptor t).pending = 0 ∨ (err = false ∧ (s.acceptor t).listening = false) then none
  else
    let s := s.setAcceptor t { s.acceptor t with pending := (s.acceptor t).pending - 1 }
    match t with
    | .tcp => some (s.handleAccept err)
    | .ssl => some (s.handleAcceptHttps err)

def construct (http https : BindCalls) : ServerState :=
  ⟨fun | .tcp => .construct http | .ssl => .construct https, []⟩

end ServerState

/-- What the start of the server depends on. -/
structure StartOutcome where
  http : BindCalls
  https : BindCalls
  loadedCerts : Bool
deriving DecidableEq

/-- `serve_forever` up to the event loop; the flag for HTTPS is overwritten. -/
def serveForever (o : StartOutcome) : Except Exn ServerState := do
  let s := ServerState.construct o.http o.https
  let s := s.setAcceptor .ssl { s.acceptor .ssl with serving := o.loadedCerts }
  let s ← s.startAccepting
  s.startAcceptingHttps

/-- A completion in the event loop: of an accept, or of an operation of some session. -/
inductive LoopEvent where
  | accepted (t : Transport) (err : Bool)
  | session (i : Nat) (completion : Completion)

/-- One completion and what its handler does. -/
def loopStep (setting : Setting) (s : ServerState) : LoopEvent → Option ServerState
  | .accepted t err => (s.accept t err).bind Except.toOption
  | .session i completion => do
    let session ← s.sessions[i]?
    let session ← step setting session completion
    return { s with sessions := s.sessions.set i session }

def runLoop (setting : Setting) (s : ServerState) (events : List LoopEvent) : Option ServerState :=
  events.foldlM (loopStep setting) s

/-- Exactly one accept is pending on the HTTP acceptor if it was bound, and on the HTTPS acceptor
if it was bound and the certificates were loaded; else none is. -/
def Listening (o : StartOutcome) (s : ServerState) : Prop :=
  (s.acceptor .tcp).pending = (if bindAcceptor o.http then 1 else 0) ∧
    (s.acceptor .ssl).pending = if bindAcceptor o.https ∧ o.loadedCerts then 1 else 0

theorem startAccepting_eq {a b : Acceptor} (h : a.startAccepting = .ok b) :
    b = { a with pending := a.pending + if a.serving then 1 else 0 } := by
  obtain ⟨isOpen, listening, serving, pending⟩ := a
  cases serving with
  | true => exact (Except.ok.inj h).symm
  | false =>
    cases isOpen with
    | true => exact (Except.ok.inj h).symm
    | false => cases h

theorem acceptor_startAcceptingOn {t : Transport} {s next : ServerState} (h : s.startAcceptingOn t = .ok next) :
    next.acceptor = Function.update s.acceptor t
      { s.acceptor t with pending := (s.acceptor t).pending + if (s.acceptor t).serving then 1 else 0 } := by
  unfold ServerState.startAcceptingOn at h
  cases ha : (s.acceptor t).startAccepting with
  | error exn =>
    rw [ha] at h
    cases h
  | ok a =>
    rw [ha] at h
    obtain rfl := Except.ok.inj h
    rw [← startAccepting_eq ha]
    rfl

/-- Once started, one accept is pending on each acceptor whose flag is set. -/
theorem serveForever_spec {o : StartOutcome} {s : ServerState} (h : serveForever o = .ok s) :
    s.acceptor .tcp =
        ⟨o.http.opens, bindAcceptor o.http, bindAcceptor o.http, if bindAcceptor o.http then 1 else 0⟩ ∧
      s.acceptor .ssl = ⟨o.https.opens, bindAcceptor o.https, o.loadedCerts, if o.loadedCerts then 1 else 0⟩ := by
  unfold serveForever ServerState.startAccepting ServerState.startAcceptingHttps at h
  dsimp only at h
  cases hhttp : ServerState.startAcceptingOn .tcp ((ServerState.construct o.http o.https).setAcceptor .ssl
      { (ServerState.construct o.http o.https).acceptor .ssl with serving := o.loadedCerts }) with
  | error exn =>
    rw [hhttp] at h
    cases h
  | ok started =>
    rw [hhttp] at h
    rw [acceptor_startAcceptingOn h, acceptor_startAcceptingOn hhttp]
    simp [ServerState.setAcceptor, ServerState.construct, Acceptor.construct, Function.update]

/-- On each acceptor one accept is pending if its flag is set, and none otherwise. -/
def Armed (s : ServerState) : Prop := ∀ t, (s.acceptor t).pending = if (s.acceptor t).serving then 1 else 0

theorem armed_serveForever {o : StartOutcome} {s : ServerState} (h : serveForever o = .ok s) : Armed s := by
  obtain ⟨hhttp, hhttps⟩ := serveForever_spec h
  intro t
  cases t with
  | tcp => rw [hhttp]
  | ssl => rw [hhttps]

/-- An accept can complete if it is pending, and with a connection only if the acceptor listens. -/
theorem accept_eq_some_iff {s : ServerState} {t : Transport} {err : Bool} {result : Except Exn ServerState} :
    s.accept t err = some result ↔
      (s.acceptor t).pending ≠ 0 ∧ (err = false → (s.acceptor t).listening = true) ∧
        (s.setAcceptor t { s.acceptor t with pending := (s.acceptor t).pending - 1 }).handleAcceptOn t err = result := by
  have heq : s.accept t err = if (s.acceptor t).pending = 0 ∨ (err = false ∧ (s.acceptor t).listening = false) then none
      else some ((s.setAcceptor t { s.acceptor t with pending := (s.acceptor t).pending - 1 }).handleAcceptOn t err) := by
    cases t <;> rfl
  rw [heq]
  split_ifs with h
  · refine iff_of_false (by simp) ?_
    rintro ⟨hp, hl, -⟩
    rcases h with h | ⟨herr, h⟩
    · exact hp h
    · rw [hl herr] at h
      cases h
  · rw [not_or, not_and, Bool.not_eq_false] at h
    simp only [Option.some.injEq, ne_eq, h.1, not_false_eq_true, true_and]
    exact (and_iff_right h.2).symm

private theorem loopStep_accepted_iff {setting : Setting} {s next : ServerState} {t : Transport} {err : Bool} :
    loopStep setting s (.accepted t err) = some next ↔ s.accept t err = some (.ok next) := by
  show (s.accept t err).bind Except.toOption = some next ↔ _
  rw [Option.bind_eq_some_iff]
  constructor
  · rintro ⟨result, hresult, hok⟩
    rw [hresult, toOption_eq_some_iff.mp hok]
  · intro h
    exact ⟨_, h, rfl⟩

/-- A failed accept is not followed by another. -/
theorem loopStep_error {setting : Setting} {s next : ServerState} {t : Transport}
    (h : loopStep setting s (.accepted t true) = some next) :
    0 < (s.acceptor t).pending ∧ (next.acceptor t).pending = (s.acceptor t).pending - 1 := by
  obtain ⟨hp, -, h⟩ := accept_eq_some_iff.mp (loopStep_accepted_iff.mp h)
  obtain rfl := Except.ok.inj h
  exact ⟨by omega, by simp [ServerState.setAcceptor]⟩

private theorem taken_and_repeated {a : Acceptor} (hs : a.serving = true) (hp : 0 < a.pending) :
    ⟨a.isOpen, a.listening, true, a.pending - 1 + 1⟩ = a := by
  obtain ⟨isOpen, listening, serving, pending⟩ := a
  simp only [Acceptor.mk.injEq, true_and]
  exact ⟨hs.symm, Nat.sub_add_cancel hp⟩

/-- A successful one is, if the flag is set. -/
theorem loopStep_accepted {setting : Setting} {s next : ServerState} {t : Transport} (hs : Armed s)
    (h : loopStep setting s (.accepted t false) = some next) : next.acceptor = s.acceptor := by
  obtain ⟨hp, -, h⟩ := accept_eq_some_iff.mp (loopStep_accepted_iff.mp h)
  have ht := hs t
  have hserving : (s.acceptor t).serving = true := by
    by_contra hn
    rw [if_neg hn] at ht
    exact hp ht
  have hsame := taken_and_repeated hserving (by omega)
  rw [acceptor_startAcceptingOn h]
  simp [ServerState.setAcceptor, hserving, hsame]

theorem loopStep_session {setting : Setting} {s next : ServerState} {i : Nat} {completion : Completion}
    (h : loopStep setting s (.session i completion) = some next) : next.acceptor = s.acceptor := by
  simp only [loopStep, Option.bind_eq_bind, Option.bind_eq_some_iff] at h
  obtain ⟨session, -, session', -, h⟩ := h
  obtain rfl := Option.some.inj h
  rfl

/-- Events without a failed accept leave both acceptors as they are. -/
theorem acceptor_runLoop {setting : Setting} {s final : ServerState} (hs : Armed s) {events : List LoopEvent}
    (hok : ∀ t, .accepted t true ∉ events) (h : runLoop setting s events = some final) :
    final.acceptor = s.acceptor := by
  refine foldlM_invariant (fun u => u.acceptor = s.acceptor) (fun u event next he hu hstep => ?_) rfl h
  have harmed : Armed u := by
    intro t
    rw [hu]
    exact hs t
  cases event with
  | accepted t err =>
    cases err with
    | true => exact absurd he (hok t)
    | false => exact (loopStep_accepted harmed hstep).trans hu
  | session i completion => exact (loopStep_session hstep).trans hu

private theorem listening_start_iff {o : StartOutcome} {s : ServerState} (h : serveForever o = .ok s) :
    Listening o s ↔ (o.loadedCerts = true → bindAcceptor o.https = true) := by
  obtain ⟨hhttp, hhttps⟩ := serveForever_spec h
  unfold Listening
  rw [hhttp, hhttps]
  cases o.loadedCerts with
  | false => simp
  | true => simp

/-- In every state the event loop reaches the server listens as it should, if HTTPS is bound
whenever the certificates are loaded and no accept fails, and only then. -/
theorem keeps_listening_iff {o : StartOutcome} {s final : ServerState} (h : serveForever o = .ok s) (setting : Setting)
    {events : List LoopEvent} (hrun : runLoop setting s events = some final) :
    (∀ before t, before <+: events → runLoop setting s before = some t → Listening o t) ↔
      (o.loadedCerts = true → bindAcceptor o.https = true) ∧ ∀ t, .accepted t true ∉ events := by
  rw [← listening_start_iff h]
  constructor
  · intro hall
    refine ⟨hall [] s List.nil_prefix rfl, fun t ht => ?_⟩
    obtain ⟨before, after, rfl⟩ := List.append_of_mem ht
    rw [runLoop, List.foldlM_append, Option.bind_eq_bind, Option.bind_eq_some_iff] at hrun
    obtain ⟨u, hu, hrun⟩ := hrun
    rw [List.foldlM_cons, Option.bind_eq_bind, Option.bind_eq_some_iff] at hrun
    obtain ⟨v, hv, -⟩ := hrun
    have hlisten := hall before u (List.prefix_append _ _) hu
    have hlisten' := hall (before ++ [.accepted t true]) v (by simp) (by simp [runLoop, hu, hv])
    have hsame : (u.acceptor t).pending = (v.acceptor t).pending := by
      cases t with
      | tcp => exact hlisten.1.trans hlisten'.1.symm
      | ssl => exact hlisten.2.trans hlisten'.2.symm
    obtain ⟨hpos, hless⟩ := loopStep_error hv
    omega
  · intro hcond before t hb ht
    have hok : ∀ t, .accepted t true ∉ before := fun t ht => hcond.2 t (hb.subset ht)
    unfold Listening
    rw [acceptor_runLoop (armed_serveForever h) hok ht]
    exact hcond.1

def BindCalls.good : BindCalls := ⟨true, true, true, true⟩

/-- The certificates are there, but the HTTPS port is taken. -/
def portTaken : StartOutcome := ⟨.good, ⟨true, true, false, true⟩, true⟩

def plainStart : StartOutcome := ⟨.good, .good, false⟩

def emptySetting : Setting := ⟨[], fun _ => 0, fun _ => false⟩

/-- One failed accept and the server accepts no more; and with the HTTPS port taken an accept is
pending on an acceptor that was never bound. -/
theorem failed_accept_not_repeated :
    (∃ s final, serveForever plainStart = .ok s ∧ runLoop emptySetting s [.accepted .tcp true] = some final ∧
      bindAcceptor plainStart.http = true ∧ (final.acceptor .tcp).pending = 0) ∧
    ∃ s, serveForever portTaken = .ok s ∧ bindAcceptor portTaken.https = false ∧ (s.acceptor .ssl).pending = 1 :=
  ⟨⟨_, _, rfl, rfl, rfl, rfl⟩, _, rfl, rfl, rfl⟩

/-- Two connections, and the HTTP acceptor still listens. -/
theorem two_connections_listening :
    ∃ s final, serveForever plainStart = .ok s ∧
      runLoop emptySetting s [.accepted .tcp false, .accepted .tcp false] = some final ∧ Listening plainStart final := by
  have hrun : ∃ s final, serveForever plainStart = .ok s ∧
      runLoop emptySetting s [.accepted .tcp false, .accepted .tcp false] = some final := ⟨_, _, rfl, rfl⟩
  obtain ⟨s, final, hs, hf⟩ := hrun
  have hall := (keeps_listening_iff hs emptySetting hf).2 ⟨by decide, fun t => by simp⟩
  exact ⟨s, final, hs, hf, hall _ final (List.prefix_refl _) hf⟩

end Koko.Server
