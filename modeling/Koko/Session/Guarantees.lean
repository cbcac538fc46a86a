import Koko.Session.Protocol

/-! What a client can rely on in every run of a session, read off the protocol. -/
namespace Koko.Session
open Koko.Lib Koko.Http Koko.Config Koko.Handlers Koko.Server

def Event.isStart : Event → Bool
  | .handshakeStarted | .readStarted | .writeStarted _ => true
  | _ => false

def Event.isDone : Event → Bool
  | .handshakeDone _ | .readDone _ | .writeDone _ => true
  | _ => false

/-- Exactly one write, at once, and none after it before another read has ended. -/
def OneWrite (rest : List Event) (res : Response) : Prop :=
  ∃ rest', rest = .writeStarted res :: rest' ∧
    ∀ mid res' post, rest' = mid ++ .writeStarted res' :: post → ∃ outcome, Event.readDone outcome ∈ mid

/-- The promises of a session, over its whole trace. -/
structure Guarantees (setting : Setting) (trace : List Event) : Prop where
  one_in_flight : ∀ pre, pre <+: trace → pre.countP Event.isStart ≤ pre.countP Event.isDone + 1
  request_answered : ∀ pre request env log post, trace = pre ++ .readDone (.request request env log) :: post →
    ∃ res, Answers setting request env log res ∧ OneWrite post res
  malformed_answered : ∀ pre post, trace = pre ++ .readDone .otherError :: post → OneWrite post badRequest
  connection_said : ∀ res, Event.writeStarted res ∈ trace → SaysConnection res
  write_ends : ∀ pre res post, trace = pre ++ .writeStarted res :: post →
    post = [] ∨ ∃ ok rest, post = .writeDone ok :: rest
  read_after_write : ∀ pre res ok post, trace = pre ++ .writeStarted res :: .writeDone ok :: post →
    ((∃ rest, post = .readStarted :: rest) ↔ ok = true ∧ KeepsAlive res)
  silent_after_write : ∀ pre res ok post, trace = pre ++ .writeStarted res :: .writeDone ok :: post →
    ok = false ∨ res.get? connectionField = some closeValue → post = []
  silent_after_timeout : ∀ pre post, trace = pre ++ .readDone .timeout :: post → post = []
  silent_after_end : ∀ pre post, trace = pre ++ .readDone .endOfStream :: post → post = []

/-- Operations in flight in a phase. -/
def Phase.inFlight : Phase → Nat
  | .handshaking | .reading | .writing _ => 1
  | _ => 0

section Paths
variable {setting : Setting} {phase phase' : Phase} {trace : List Event}

private theorem turn_counts {event : Event} (h : Turn setting phase event phase') :
    event.isStart.toNat + phase.inFlight = event.isDone.toNat + phase'.inFlight := by
  cases h <;> rfl

private theorem countP_cons_toNat (p : Event → Bool) (event : Event) (trace : List Event) :
    (event :: trace).countP p = (p event).toNat + trace.countP p := by
  rw [List.countP_cons, Nat.add_comm]
  cases p event <;> rfl

private theorem path_counts (h : Path (Turn setting) phase trace phase') :
    trace.countP Event.isStart + phase.inFlight = trace.countP Event.isDone + phase'.inFlight := by
  induction trace generalizing phase with
  | nil =>
    obtain rfl := h
    rfl
  | cons event trace ih =>
    obtain ⟨next, hturn, hpath⟩ := h
    have h₁ := turn_counts hturn
    have h₂ := ih hpath
    rw [countP_cons_toNat, countP_cons_toNat]
    omega

/-- Nothing follows once a conversation is over. -/
private theorem nil_of_over (h : Path (Turn setting) .over trace phase') : trace = [] := by
  cases trace with
  | nil => rfl
  | cons event trace =>
    obtain ⟨next, hturn, -⟩ := h
    cases hturn

private theorem split_path {event : Event} {pre post : List Event}
    (h : Path (Turn setting) phase (pre ++ event :: post) phase') :
    ∃ before after, Path (Turn setting) phase pre before ∧ Turn setting before event after ∧
      Path (Turn setting) after post phase' := by
  obtain ⟨before, hpre, after, hturn, hpost⟩ := (path_append_iff pre (event :: post)).mp h
  exact ⟨before, after, hpre, hturn, hpost⟩

/-- Phases from which a write is only reached through the end of a read. -/
private def Quiet : Phase → Prop
  | .due _ | .begun | .handshaking => False
  | _ => True

private theorem quiet_turn {event : Event} (hq : Quiet phase) (h : Turn setting phase event phase') :
    Quiet phase' ∨ ∃ outcome, event = .readDone outcome := by
  cases h <;> simp_all [Quiet]

private theorem readDone_before_write {res res' : Response} {mid post : List Event}
    (h : Path (Turn setting) (.writing res) (mid ++ .writeStarted res' :: post) phase') :
    ∃ outcome, Event.readDone outcome ∈ mid := by
  obtain ⟨before, after, hmid, hturn, -⟩ := split_path h
  by_contra hno
  have hq : Quiet before := by
    refine hmid.invariant Quiet ?_ trivial
    intro b e d he hb ht
    rcases quiet_turn hb ht with hd | ⟨outcome, rfl⟩
    · exact hd
    · exact absurd ⟨outcome, he⟩ hno
  cases hturn
  exact hq

/-- From a due response a resting conversation has started exactly its write. -/
private theorem oneWrite_of_due {res : Response} {post : List Event} {operations : List Operation}
    (h : Path (Turn setting) (.due res) post phase') (hr : phase'.operations = some operations) : OneWrite post res := by
  cases post with
  | nil =>
    obtain rfl := h
    cases hr
  | cons event post =>
    obtain ⟨next, hturn, hpost⟩ := h
    cases hturn
    refine ⟨post, rfl, ?_⟩
    rintro mid res' rest rfl
    exact readDone_before_write hpost

/-- A trace that follows the protocol and rests keeps all promises. -/
theorem guarantees_of_path {operations : List Operation} (h : Path (Turn setting) .begun trace phase)
    (hr : phase.operations = some operations) : Guarantees setting trace where
  one_in_flight := by
    rintro pre ⟨post, rfl⟩
    obtain ⟨middle, hpre, -⟩ := (path_append_iff pre post).mp h
    have hcount := path_counts hpre
    have hle : middle.inFlight ≤ 1 := by cases middle <;> simp [Phase.inFlight]
    have hbegun : Phase.begun.inFlight = 0 := rfl
    omega
  request_answered := by
    rintro pre request env log post rfl
    obtain ⟨before, after, -, hturn, hpost⟩ := split_path h
    cases hturn with
    | request ha => exact ⟨_, ha, oneWrite_of_due hpost hr⟩
  malformed_answered := by
    rintro pre post rfl
    obtain ⟨before, after, -, hturn, hpost⟩ := split_path h
    cases hturn
    exact oneWrite_of_due hpost hr
  connection_said := by
    intro res hm
    obtain ⟨pre, post, rfl⟩ := List.append_of_mem hm
    obtain ⟨before, after, -, hturn, -⟩ := split_path h
    cases hturn with
    | respond hs => exact hs
  write_ends := by
    rintro pre res post rfl
    obtain ⟨before, after, -, hturn, hpost⟩ := split_path h
    cases hturn
    cases post with
    | nil => exact .inl rfl
    | cons event post =>
      obtain ⟨next, hnext, -⟩ := hpost
      right
      cases hnext <;> exact ⟨_, _, rfl⟩
  read_after_write := by
    rintro pre res ok post rfl
    obtain ⟨before, after, -, hturn, next, hnext, hpost⟩ := split_path h
    cases hturn
    cases hnext with
    | failed =>
      rw [nil_of_over hpost]
      simp
    | closed hk =>
      rw [nil_of_over hpost]
      simp [hk]
    | kept hk =>
      cases post with
      | nil =>
        obtain rfl := hpost
        cases hr
      | cons event post =>
        obtain ⟨_, hstart, -⟩ := hpost
        cases hstart
        simp [hk]
  silent_after_write := by
    rintro pre res ok post rfl hc
    obtain ⟨before, after, -, hturn, next, hnext, hpost⟩ := split_path h
    cases hturn
    cases hnext with
    | failed => exact nil_of_over hpost
    | closed hk => exact nil_of_over hpost
    | kept hk =>
      rcases hc with hc | hc
      · cases hc
      · exact absurd hk (not_keepsAlive_of_close hc)
  silent_after_timeout := by
    rintro pre post rfl
    obtain ⟨before, after, -, hturn, hpost⟩ := split_path h
    cases hturn
    exact nil_of_over hpost
  silent_after_end := by
    rintro pre post rfl
    obtain ⟨before, after, -, hturn, hpost⟩ := split_path h
    cases hturn
    exact nil_of_over hpost

end Paths

/-- In every run of a session on a configured table at most one operation is in flight, and its
trace keeps all promises. -/
theorem session_protocol {config : NginxConfig} {names : List (Bytes × Bytes)} {registered : Registered}
    (hc : createAllHandlers config names = some registered) (beyond : Nat → Byte) {needEof : Response → Bool}
    (he : NeedsNoEof needEof) {transport : Transport} {completions : List Completion} {s : SessionState}
    (h : run ⟨registered.urlToHandler, beyond, needEof⟩ transport completions = some s) :
    s.outstanding.length ≤ 1 ∧ Guarantees ⟨registered.urlToHandler, beyond, needEof⟩ s.trace := by
  obtain ⟨phase, hpath, hops⟩ := follows_run (created_createAllHandlers hc) he h
  exact ⟨length_operations_le hops, guarantees_of_path hpath hops⟩

/-- `need_eof` of the library, on responses of known length. -/
def lengthNeedEof (res : Response) : Bool :=
  if (res.get? contentLengthField).isSome then res.get? connectionField = some closeValue else true

def echoConfig : NginxConfig :=
  [⟨[ascii "location", ascii "/echo", ascii "EchoHandler"], some [⟨[ascii "keep-alive", ascii "1"], none⟩]⟩]

def echoTable : Registered :=
  ⟨[(ascii "/echo", ⟨ascii "Echo", true, .echo⟩)], [(ascii "/echo", ascii "EchoHandler")]⟩

def echoRequest : Completion :=
  .read (.request ⟨ascii "GET", ascii "/echo", 11, [], []⟩
    ⟨fun r => r.target, fun _ => .missing, id, fun _ _ _ => ⟨false, false, false, .other, newResponse 0, .other⟩, []⟩
    ⟨[], []⟩)

theorem needsNoEof_lengthNeedEof : NeedsNoEof lengthNeedEof := by
  intro res _ hl hk
  rw [lengthNeedEof, if_pos hl, decide_eq_false]
  intro hc
  exact not_keepsAlive_of_close hc hk

/-- Two requests on one connection, and a timeout. -/
theorem session_protocol_echo :
    ∃ s, run ⟨echoTable.urlToHandler, fun _ => 0, lengthNeedEof⟩ .tcp
        [echoRequest, .write false true, echoRequest, .write false true, .read .timeout] = some s ∧
      s.outstanding.length ≤ 1 ∧ Guarantees ⟨echoTable.urlToHandler, fun _ => 0, lengthNeedEof⟩ s.trace := by
  have hc : createAllHandlers echoConfig [] = some echoTable := rfl
  have hrun : (run ⟨echoTable.urlToHandler, fun _ => 0, lengthNeedEof⟩ .tcp
      [echoRequest, .write false true, echoRequest, .write false true, .read .timeout]).isSome = true := by decide
  obtain ⟨s, hs⟩ := Option.isSome_iff_exists.mp hrun
  exact ⟨s, hs, session_protocol hc (fun _ => 0) needsNoEof_lengthNeedEof hs⟩

end Koko.Session
