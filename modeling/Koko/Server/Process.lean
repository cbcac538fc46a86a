import Koko.Server.Lifetime
import Koko.Server.Ports
import Koko.Server.Registration

/-! `main` and `load_server_certificate`: what the program makes of its arguments and files before
it serves, and what that says of the connections it can come to have. -/
namespace Koko.Server
open Koko.Lib Koko.Http Koko.Config Koko.Handlers Koko.Session

/-- What a path leads to; a regular file that cannot be opened reads as empty. -/
inductive PathStatus where
  | missing
  | regular (content : Bytes)
  | other
  | statusError
deriving DecidableEq

/-- What the program finds: the configuration files that can be opened, the file system, the
certificates and keys the library takes, and the calls that set up an acceptor on a port. -/
structure Machine where
  files : Bytes → Option Bytes
  paths : Bytes → PathStatus
  usesCertificate : Bytes → Bytes → Bool
  http : Nat → BindCalls
  https : Nat → BindCalls

namespace Machine

/-- `exists` and `is_regular_file`; both throw if the status cannot be had. -/
def regularFile (m : Machine) (path : Bytes) : Except Exn Bool :=
  match m.paths path with
  | .statusError => .error .filesystemError
  | .regular _ => .ok true
  | _ => .ok false

def readContent (m : Machine) (path : Bytes) : Bytes :=
  match m.paths path with
  | .regular content => content
  | _ => []

def loadServerCertificate (m : Machine) (config : NginxConfig) : Defined (Except Exn Bool) := do
  let certPath ← getStr config (ascii "certificate")
  let keyPath ← getStr config (ascii "privateKey")
  if certPath = [] then return .ok false
  if keyPath = [] then return .ok false
  return do
    if !(← m.regularFile certPath) then return false
    if !(← m.regularFile keyPath) then return false
    return m.usesCertificate (m.readContent certPath) (m.readContent keyPath)

end Machine

/-- How far the program gets: it exits, an exception leaves `main`, or the event loop runs. -/
inductive Started where
  | exited (code : Nat)
  | terminated
  | serving (server : ServerState) (registered : Registered)

namespace Machine

/-- `serve_forever` up to the event loop. The certificates are loaded outside of its `try` block, so only a
later exception is caught. -/
def serveConfig (m : Machine) (config : NginxConfig) : Defined Started := do
  match ← m.loadServerCertificate config with
  | .error _ => return .terminated
  | .ok loadedCerts =>
    let port ← port config
    let httpsPort ← httpsPort config
    let registered ← createAllHandlers config []
    match serveForever ⟨m.http port, m.https httpsPort, loadedCerts⟩ with
    | .error _ => return .exited 0
    | .ok server => return .serving server registered

def main (m : Machine) (argv : List Bytes) : Defined Started := do
  match ← mainConfig m.files argv with
  | .exit code => return .exited code
  | .proceed _ config => m.serveConfig config

/-- The configuration names two regular files, and the library takes them for certificate and key. -/
def Certified (m : Machine) (config : NginxConfig) : Prop :=
  ∃ certPath keyPath cert key, getStr config (ascii "certificate") = some certPath ∧
    getStr config (ascii "privateKey") = some keyPath ∧ certPath ≠ [] ∧ keyPath ≠ [] ∧
    m.paths certPath = .regular cert ∧ m.paths keyPath = .regular key ∧ m.usesCertificate cert key = true

/-- All calls that set up the HTTP acceptor on the configured port succeed. -/
def Bound (m : Machine) (config : NginxConfig) : Prop :=
  ∃ p, port config = some p ∧ bindAcceptor (m.http p) = true

def BoundHttps (m : Machine) (config : NginxConfig) : Prop :=
  ∃ q, httpsPort config = some q ∧ bindAcceptor (m.https q) = true

section
variable {m : Machine} {config : NginxConfig}

theorem regularFile_eq_true_iff {path : Bytes} :
    m.regularFile path = .ok true ↔ ∃ content, m.paths path = .regular content := by
  unfold regularFile
  cases m.paths path <;> simp

/-- The certificates are loaded exactly if the configuration and the files allow it. -/
theorem loadServerCertificate_eq_true_iff : m.loadServerCertificate config = some (.ok true) ↔ m.Certified config := by
  unfold loadServerCertificate Certified
  cases hc : getStr config (ascii "certificate") with
  | none => simp
  | some certPath =>
    cases hk : getStr config (ascii "privateKey") with
    | none => simp
    | some keyPath =>
      simp only [Option.bind_eq_bind, Option.bind_some, Option.pure_def]
      by_cases hcn : certPath = []
      · simp [hcn]
      by_cases hkn : keyPath = []
      · simp [hkn]
      rw [if_neg hcn, if_neg hkn]
      constructor
      · intro h
        obtain ⟨isCert, hcert, h⟩ := bind_eq_ok_iff.mp (Option.some.inj h)
        cases isCert with
        | false => cases h
        | true =>
          obtain ⟨isKey, hkey, h⟩ := bind_eq_ok_iff.mp h
          cases isKey with
          | false => cases h
          | true =>
            obtain ⟨cert, hcp⟩ := regularFile_eq_true_iff.mp hcert
            obtain ⟨key, hkp⟩ := regularFile_eq_true_iff.mp hkey
            refine ⟨certPath, keyPath, cert, key, rfl, rfl, hcn, hkn, hcp, hkp, ?_⟩
            simpa [readContent, hcp, hkp] using Except.ok.inj h
      · rintro ⟨_, _, cert, key, ⟨⟩, ⟨⟩, -, -, hcp, hkp, huses⟩
        have hcert := regularFile_eq_true_iff.mpr ⟨cert, hcp⟩
        have hkey := regularFile_eq_true_iff.mpr ⟨key, hkp⟩
        refine congrArg some (bind_eq_ok_iff.mpr ⟨true, hcert, bind_eq_ok_iff.mpr ⟨true, hkey, congrArg Except.ok ?_⟩⟩)
        simpa [readContent, hcp, hkp] using huses

/-- A program that serves was started from a configuration, and its flags say what that allows. -/
theorem main_serving {argv : List Bytes} {server : ServerState} {registered : Registered}
    (h : m.main argv = some (.serving server registered)) :
    ∃ returned config o, mainConfig m.files argv = some (.proceed returned config) ∧ serveForever o = .ok server ∧
      createAllHandlers config [] = some registered ∧ (o.loadedCerts = true ↔ m.Certified config) ∧
      (bindAcceptor o.http = true ↔ m.Bound config) ∧ (bindAcceptor o.https = true ↔ m.BoundHttps config) := by
  obtain ⟨outcome, hargs, h⟩ := Option.bind_eq_some_iff.mp h
  cases outcome with
  | exit code => cases h
  | proceed returned config =>
    obtain ⟨loaded, hload, h⟩ := Option.bind_eq_some_iff.mp h
    cases loaded with
    | error exn => cases h
    | ok loadedCerts =>
      obtain ⟨p, hp, h⟩ := Option.bind_eq_some_iff.mp h
      obtain ⟨q, hq, h⟩ := Option.bind_eq_some_iff.mp h
      obtain ⟨reg, hreg, h⟩ := Option.bind_eq_some_iff.mp h
      cases hserve : serveForever ⟨m.http p, m.https q, loadedCerts⟩ with
      | error exn =>
        rw [hserve] at h
        cases h
      | ok started =>
        rw [hserve] at h
        cases h
        refine ⟨returned, config, _, hargs, hserve, hreg, ?_, ?_, ?_⟩
        · rw [← loadServerCertificate_eq_true_iff, hload]
          simp
        · simp [Bound, hp]
        · simp [BoundHttps, hq]

end
end Machine

/-- The first thing on the connection is a request. -/
def Plain (session : SessionState) : Prop := ∃ rest, session.trace = .readStarted :: rest

/-- The first thing on the connection is a handshake. -/
def Encrypted (session : SessionState) : Prop := ∃ rest, session.trace = .handshakeStarted :: rest

/-- The connection is plain, or nothing is read from it before a handshake succeeded. -/
def Guarded (session : SessionState) : Prop :=
  Plain session ∨ session.trace = [.handshakeStarted] ∨ session.trace = [.handshakeStarted, .handshakeDone false] ∨
    ∃ rest, session.trace = .handshakeStarted :: .handshakeDone true :: .readStarted :: rest

section
variable {setting : Setting} {session session' : SessionState}

theorem guarded_start (t : Transport) : Guarded (SessionState.start t) := by
  cases t with
  | tcp => exact .inl ⟨[], rfl⟩
  | ssl => exact .inr (.inl rfl)

/-- What follows a read keeps the connection guarded. -/
theorem Guarded.append (hg : Guarded session) (hh : activity setting session ≠ .waiting .handshake)
    (ho : activity setting session ≠ .ended) {events : List Event} (ht : session'.trace = session.trace ++ events) :
    Guarded session' := by
  rcases hg with ⟨rest, hr⟩ | hr | hr | ⟨rest, hr⟩
  · exact .inl ⟨rest ++ events, by rw [ht, hr, List.cons_append]⟩
  · exact absurd (activity_of_trace (show _ = [] ++ [Event.handshakeStarted] from hr)) hh
  · exact absurd (activity_of_trace (show _ = [Event.handshakeStarted] ++ [.handshakeDone false] from hr)) ho
  · exact .inr (.inr (.inr ⟨rest ++ events, by rw [ht, hr]; rfl⟩))

private theorem Guarded.handshake (hg : Guarded session) (ho : activity setting session ≠ .ended) {ok : Bool}
    (ht : session'.trace = session.trace ++ .handshakeDone ok :: if ok then [.readStarted] else []) : Guarded session' := by
  rcases hg with ⟨rest, hr⟩ | hr | hr | ⟨rest, hr⟩
  · exact .inl ⟨_, by rw [ht, hr, List.cons_append]⟩
  · cases ok with
    | true => exact .inr (.inr (.inr ⟨[], by rw [ht, hr]; rfl⟩))
    | false => exact .inr (.inr (.inl (by rw [ht, hr]; rfl)))
  · exact absurd (activity_of_trace (show _ = [Event.handshakeStarted] ++ [.handshakeDone false] from hr)) ho
  · exact .inr (.inr (.inr ⟨rest ++ _, by rw [ht, hr]; rfl⟩))

theorem trace_afterHandshake (ok : Bool) :
    (session.afterHandshake ok).trace = session.trace ++ if ok then [.readStarted] else [] := by
  cases ok with
  | true => rfl
  | false => exact (List.append_nil _).symm

theorem trace_onRead {outcome : ReadOutcome} (h : session.onRead setting outcome = .ok session') :
    ∃ events, session'.trace = session.trace ++ events := by
  cases outcome with
  | timeout => exact ⟨[], by rw [← Except.ok.inj h, List.append_nil]⟩
  | endOfStream => exact ⟨[], by rw [← Except.ok.inj h, List.append_nil]⟩
  | otherError => exact ⟨_, by rw [← Except.ok.inj h]; rfl⟩
  | request request env log =>
    obtain ⟨answer, -, h⟩ := bind_eq_ok_iff.mp h
    exact ⟨_, by rw [← Except.ok.inj h]; rfl⟩

theorem trace_finishedWrite (close ok : Bool) :
    ∃ events, (session.finishedWrite close ok).trace = session.trace ++ events := by
  unfold SessionState.finishedWrite
  split_ifs
  · exact ⟨[], (List.append_nil _).symm⟩
  · exact ⟨[], (List.append_nil _).symm⟩
  · exact ⟨_, rfl⟩

theorem trace_step (hb : Busy setting session) {completion : Completion}
    (h : Session.step setting session completion = some session') : ∃ events, session'.trace = session.trace ++ events := by
  cases completion with
  | handshake ok =>
    obtain ⟨s₁, h₁, h₂⟩ := Option.bind_eq_some_iff.mp h
    obtain rfl := Option.some.inj h₂
    obtain ⟨-, rfl⟩ := hb.complete h₁
    exact ⟨_, (trace_afterHandshake ok).trans (List.append_assoc _ _ _)⟩
  | read outcome =>
    obtain ⟨s₁, h₁, h₂⟩ := Option.bind_eq_some_iff.mp h
    obtain ⟨-, rfl⟩ := hb.complete h₁
    obtain ⟨events, ht⟩ := trace_onRead (toOption_eq_some_iff.mp h₂)
    exact ⟨_, ht.trans (List.append_assoc _ _ _)⟩
  | write close ok =>
    obtain ⟨s₁, h₁, h₂⟩ := Option.bind_eq_some_iff.mp h
    obtain rfl := Option.some.inj h₂
    obtain ⟨-, rfl⟩ := hb.complete h₁
    obtain ⟨events, ht⟩ := trace_finishedWrite close ok
    exact ⟨_, ht.trans (List.append_assoc _ _ _)⟩

/-- A completion keeps the connection guarded: only a handshake can end before the first read. -/
theorem Guarded.step (hg : Guarded session) (hb : Busy setting session) {completion : Completion}
    (h : Session.step setting session completion = some session') : Guarded session' := by
  obtain ⟨events, ht⟩ := trace_step hb h
  cases completion with
  | handshake ok =>
    obtain ⟨s₁, h₁, h₂⟩ := Option.bind_eq_some_iff.mp h
    obtain rfl := Option.some.inj h₂
    obtain ⟨ha, rfl⟩ := hb.complete h₁
    exact hg.handshake (by rw [ha]; simp) ((trace_afterHandshake ok).trans (List.append_assoc _ _ _))
  | read outcome =>
    obtain ⟨s₁, h₁, -⟩ := Option.bind_eq_some_iff.mp h
    obtain ⟨ha, -⟩ := hb.complete h₁
    exact hg.append (by rw [ha]; simp) (by rw [ha]; simp) ht
  | write close ok =>
    obtain ⟨s₁, h₁, -⟩ := Option.bind_eq_some_iff.mp h
    obtain ⟨ha, -⟩ := hb.complete h₁
    exact hg.append (by rw [ha]; simp) (by rw [ha]; simp) ht

/-- The first event stays the first. -/
theorem Guarded.head (hg : Guarded session) {events : List Event} (ht : session'.trace = session.trace ++ events) :
    (Plain session' → Plain session) ∧ (Encrypted session' → Encrypted session) := by
  have hcons : ∃ event rest, session.trace = event :: rest := by
    rcases hg with ⟨rest, hr⟩ | hr | hr | ⟨rest, hr⟩
    · exact ⟨_, _, hr⟩
    · exact ⟨_, _, hr⟩
    · exact ⟨_, _, hr⟩
    · exact ⟨_, _, hr⟩
  obtain ⟨event, rest, hr⟩ := hcons
  rw [hr, List.cons_append] at ht
  constructor
  · rintro ⟨rest', hp⟩
    exact ⟨rest, by rw [hr, (List.cons.inj (ht.symm.trans hp)).1]⟩
  · rintro ⟨rest', hp⟩
    exact ⟨rest, by rw [hr, (List.cons.inj (ht.symm.trans hp)).1]⟩

/-- Connections come from an acceptor that listens and whose flag is set. -/
def Acceptor.Admits (a : Acceptor) : Prop := a.serving = true ∧ a.listening = true

/-- The sessions and acceptors of a server as they come from its start. -/
structure Admitted (setting : Setting) (server : ServerState) (s : System) : Prop where
  settled : Settled setting s
  awaits : ∀ t, Awaits (s.server.acceptor t)
  admits : ∀ t, (s.server.acceptor t).Admits ↔ (server.acceptor t).Admits
  guarded : ∀ session ∈ s.server.sessions, Guarded session
  plain : ∀ session ∈ s.server.sessions, Plain session → (server.acceptor .tcp).Admits
  encrypted : ∀ session ∈ s.server.sessions, Encrypted session → (server.acceptor .ssl).Admits

/-- Where the sessions of the next state come from. -/
theorem sessions_next {s s' : System} {event : SystemEvent} (hs : Settled setting s)
    (ha : ∀ t, Awaits (s.server.acceptor t)) (he : System.Effect setting s event s') (hm : session' ∈ s'.server.sessions) :
    session' ∈ s.server.sessions ∨ (∃ t, (s.server.acceptor t).Admits ∧ session' = SessionState.start t) ∨
      ∃ session ∈ s.server.sessions, (∃ events, session'.trace = session.trace ++ events) ∧
        (Guarded session → Guarded session') := by
  have hset : ∀ {i : Nat} {old new : SessionState}, session' ∈ s.server.sessions.set i new →
      s.server.sessions[i]? = some old → session' ∈ s.server.sessions ∨
        (session' = new ∧ old ∈ s.server.sessions ∧ Busy setting old) := by
    intro i old new hmem hi
    rcases List.mem_or_eq_of_mem_set hmem with hold | rfl
    · exact .inl hold
    · exact .inr ⟨rfl, List.mem_of_getElem? hi, hs.busy i old hi⟩
  -- a request is read or answered only behind the handshake
  have hgrown : ∀ {old : SessionState} {events : List Event}, old ∈ s.server.sessions →
      activity setting old = .waiting .read ∨ activity setting old = .answering →
      session'.trace = old.trace ++ events → ∃ session ∈ s.server.sessions,
        (∃ events, session'.trace = session.trace ++ events) ∧ (Guarded session → Guarded session') := by
    intro old events hold ha ht
    have hh : activity setting old ≠ .waiting .handshake := by rcases ha with ha | ha <;> simp [ha]
    have ho : activity setting old ≠ .ended := by rcases ha with ha | ha <;> simp [ha]
    exact ⟨old, hold, ⟨events, ht⟩, fun hg => hg.append hh ho ht⟩
  cases he with
  | @accepted t err server hp hlistens hstart =>
    rcases sessions_handleAcceptOn hstart with hsame | ⟨herr, hmore⟩
    · exact .inl (hsame ▸ hm)
    · rcases List.mem_append.mp (hmore ▸ hm) with hold | hnew
      · exact .inl hold
      · exact .inr (.inl ⟨t, ⟨((ha t).resolve_left hp).2, hlistens herr⟩, List.mem_singleton.mp hnew⟩)
  | @finished i completion old new hidle harrival hi hstep =>
    rcases hset hm hi with hold | ⟨rfl, hold, hb⟩
    · exact .inl hold
    · exact .inr (.inr ⟨old, hold, trace_step hb hstep, fun hg => hg.step hb hstep⟩)
  | @unrouted i request env old new hidle hi hc hroute =>
    rcases hset hm hi with hold | ⟨rfl, hold, hb⟩
    · exact .inl hold
    · obtain ⟨ha, rfl⟩ := hb.complete hc
      exact .inr (.inr (hgrown hold (.inl ha) (List.append_assoc _ _ _)))
  | @routed i request env old new handler hidle hi hc hroute =>
    rcases hset hm hi with hold | ⟨rfl, hold, hb⟩
    · exact .inl hold
    · obtain ⟨ha, rfl⟩ := hb.complete hc
      exact .inr (.inr (hgrown hold (.inl ha) rfl))
  | copied => exact .inl hm
  | replied => exact .inl hm
  | counted => exact .inl hm
  | @recorded i call reply old hc hp hi =>
    rcases hset hm hi with hold | ⟨rfl, hold, hb⟩
    · exact .inl hold
    · have ha := (hs.answering i old hi).mp (by rw [hc]; rfl)
      exact .inr (.inr (hgrown hold (.inr ha) rfl))

theorem admitted_next {server : ServerState} {s s' : System} {event : SystemEvent} (h : Admitted setting server s)
    (he : System.Effect setting s event s') : Admitted setting server s' where
  settled := settled_next h.settled he
  awaits t := by
    rcases acceptor_next he (h.awaits t) with ⟨-, hfailed⟩ | ⟨-, hsame⟩
    · exact .inl (by rw [hfailed])
    · exact hsame ▸ h.awaits t
  admits t := by
    rw [← h.admits t]
    rcases acceptor_next he (h.awaits t) with ⟨-, hfailed⟩ | ⟨-, hsame⟩
    · rw [hfailed]
      exact Iff.rfl
    · rw [hsame]
  guarded session' hm := by
    rcases sessions_next h.settled h.awaits he hm with hold | ⟨t, -, rfl⟩ | ⟨session, hold, -, hg⟩
    · exact h.guarded session' hold
    · exact guarded_start t
    · exact hg (h.guarded session hold)
  plain session' hm hp := by
    rcases sessions_next h.settled h.awaits he hm with hold | ⟨t, hadmits, rfl⟩ | ⟨session, hold, ⟨events, ht⟩, -⟩
    · exact h.plain session' hold hp
    · cases t with
      | tcp => exact (h.admits .tcp).mp hadmits
      | ssl =>
        obtain ⟨rest, hr⟩ := hp
        cases hr
    · exact h.plain session hold (((h.guarded session hold).head ht).1 hp)
  encrypted session' hm hp := by
    rcases sessions_next h.settled h.awaits he hm with hold | ⟨t, hadmits, rfl⟩ | ⟨session, hold, ⟨events, ht⟩, -⟩
    · exact h.encrypted session' hold hp
    · cases t with
      | tcp =>
        obtain ⟨rest, hr⟩ := hp
        cases hr
      | ssl => exact (h.admits .ssl).mp hadmits
    · exact h.encrypted session hold (((h.guarded session hold).head ht).2 hp)

theorem admitted_run {o : StartOutcome} {server : ServerState} (hserver : serveForever o = .ok server) {log : SharedLog}
    {events : List SystemEvent} {s : System} (h : (System.start server log).run setting events = some s) :
    Admitted setting server s := by
  have hnew := sessions_serveForever hserver
  refine foldlM_invariant (Admitted setting server) (fun _ _ _ _ hu hstep => admitted_next hu (System.next_cases hstep))
    ⟨settled_start hnew log, awaits_of_armed (armed_serveForever hserver), fun _ => Iff.rfl, ?_, ?_, ?_⟩ h
  · intro session hm
    simp [System.start, hnew] at hm
  · intro session hm
    simp [System.start, hnew] at hm
  · intro session hm
    simp [System.start, hnew] at hm

end

/-- An accept that succeeds, right after the start. -/
theorem first_connection {o : StartOutcome} {server : ServerState} (hserver : serveForever o = .ok server) (log : SharedLog)
    (setting : Setting) {t : Transport} (ht : (server.acceptor t).Admits) :
    ∃ s, (System.start server log).run setting [.accepted t false] = some s ∧ SessionState.start t ∈ s.server.sessions := by
  obtain ⟨hserving, hlistening⟩ := ht
  have hpending : (server.acceptor t).pending ≠ 0 := by simp [armed_serveForever hserver t, hserving]
  have hstart : ∃ server', (server.setAcceptor t
      { server.acceptor t with pending := (server.acceptor t).pending - 1 }).handleAcceptOn t false = .ok server' ∧
        SessionState.start t ∈ server'.sessions := by
    simp [ServerState.handleAcceptOn, ServerState.startAcceptingOn, Acceptor.startAccepting, ServerState.setAcceptor,
      hserving, bind, Except.bind, pure, Except.pure]
  obtain ⟨server', hstart, hm⟩ := hstart
  have haccept := accept_eq_some_iff.mpr ⟨hpending, fun _ => hlistening, hstart⟩
  refine ⟨⟨server', fun _ => none, log⟩, ?_, hm⟩
  have hnext : System.next setting (System.start server log) (.accepted t false) = some ⟨server', fun _ => none, log⟩ := by
    show ((server.accept t false).map _).bind Except.toOption = _
    rw [haccept]
    rfl
  rw [System.run, List.foldlM_cons, hnext]
  rfl

/-- The program can come to have plain connections exactly if the HTTP acceptor was bound, and
encrypted ones exactly if the HTTPS acceptor was and the configured certificate and key were loaded;
from an encrypted one nothing is ever read before a handshake succeeded. -/
theorem connections_admitted {m : Machine} {argv : List Bytes} {server : ServerState} {registered : Registered}
    (h : m.main argv = some (.serving server registered)) (setting : Setting) (log : SharedLog) :
    ∃ returned config, mainConfig m.files argv = some (.proceed returned config) ∧
      ((∃ events s, (System.start server log).run setting events = some s ∧ ∃ session ∈ s.server.sessions, Plain session) ↔
        m.Bound config) ∧
      ((∃ events s, (System.start server log).run setting events = some s ∧ ∃ session ∈ s.server.sessions,
        Encrypted session) ↔ m.Certified config ∧ m.BoundHttps config) ∧
      ∀ events s, (System.start server log).run setting events = some s →
        ∀ session ∈ s.server.sessions, Guarded session := by
  obtain ⟨returned, config, o, hargs, hserver, -, hcerts, hbound, hboundHttps⟩ := Machine.main_serving h
  obtain ⟨hhttp, hhttps⟩ := serveForever_spec hserver
  have hplain : (server.acceptor .tcp).Admits ↔ m.Bound config := by
    rw [hhttp, ← hbound]
    exact and_self_iff
  have hencrypted : (server.acceptor .ssl).Admits ↔ m.Certified config ∧ m.BoundHttps config := by
    rw [hhttps, ← hcerts, ← hboundHttps]
    exact Iff.rfl
  refine ⟨returned, config, hargs, ?_, ?_, fun events s hrun => (admitted_run hserver hrun).guarded⟩
  · rw [← hplain]
    constructor
    · rintro ⟨events, s, hrun, session, hm, hp⟩
      exact (admitted_run hserver hrun).plain session hm hp
    · intro hb
      obtain ⟨s, hrun, hm⟩ := first_connection hserver log setting hb
      exact ⟨_, s, hrun, _, hm, [], rfl⟩
  · rw [← hencrypted]
    constructor
    · rintro ⟨events, s, hrun, session, hm, hp⟩
      exact (admitted_run hserver hrun).encrypted session hm hp
    · intro hc
      obtain ⟨s, hrun, hm⟩ := first_connection hserver log setting hc
      exact ⟨_, s, hrun, _, hm, [], rfl⟩

/-- A machine with a configuration file, a certificate and a key for it. -/
def certifiedMachine : Machine where
  files _ := some (ascii "certificate c.pem; privateKey k.pem; port 8080;")
  paths path := if path = ascii "c.pem" ∨ path = ascii "k.pem" then .regular path else .missing
  usesCertificate _ _ := true
  http _ := .good
  https _ := .good

def certifiedConfig : NginxConfig :=
  [.mk [ascii "certificate", ascii "c.pem"] none, .mk [ascii "privateKey", ascii "k.pem"] none,
    .mk [ascii "port", ascii "8080"] none]

/-- Started with its configuration file it can come to have an encrypted connection. -/
theorem certified_machine_admits :
    ∃ server registered, certifiedMachine.main [ascii "webserver", ascii "koko.conf"] = some (.serving server registered) ∧
      ∃ events s, (System.start server ⟨[], []⟩).run emptySetting events = some s ∧
        ∃ session ∈ s.server.sessions, Encrypted session := by
  have hparse : parse (.ofList (ascii "certificate c.pem; privateKey k.pem; port 8080;")) [] =
      some ⟨true, certifiedConfig, ""⟩ := by decide +kernel
  have hargs : mainConfig certifiedMachine.files [ascii "webserver", ascii "koko.conf"] =
      some (.proceed 0 certifiedConfig) := by
    show (parse _ []).map (fun r => ArgsOutcome.proceed 0 r.config) = _
    rw [hparse]
    rfl
  have hserving : ∃ server registered, certifiedMachine.serveConfig certifiedConfig = some (.serving server registered) :=
    ⟨_, _, rfl⟩
  obtain ⟨server, registered, hserving⟩ := hserving
  have h : certifiedMachine.main [ascii "webserver", ascii "koko.conf"] = some (.serving server registered) := by
    rw [Machine.main, hargs]
    exact hserving
  obtain ⟨returned, config, hproceed, -, hencrypted, -⟩ := connections_admitted h emptySetting ⟨[], []⟩
  rw [hargs] at hproceed
  obtain ⟨-, rfl⟩ := ArgsOutcome.proceed.inj (Option.some.inj hproceed)
  refine ⟨server, registered, h, hencrypted.2 ?_⟩
  refine ⟨⟨ascii "c.pem", ascii "k.pem", ascii "c.pem", ascii "k.pem", rfl, rfl, by decide, by decide, rfl, rfl, rfl⟩, ?_⟩
  exact ⟨_, rfl, rfl⟩

end Koko.Server
