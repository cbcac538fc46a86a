import Koko.Session.ConstructResponse
import Mathlib.Logic.Function.Basic
import Mathlib.Data.List.Forall2

/-! The request log over a whole run of answered requests: a request is recorded by the handler
it is routed to, so one that is routed to none is answered and leaves no entry. -/
namespace Koko.Session
open Koko.Lib Koko.Http Koko.Handlers

/-- A request that comes in on a session, with the world it finds. -/
structure Arrival where
  session : Nat
  env : Environment
  request : Request

/-- The names of the sessions, the shared log, and what was answered so far. -/
structure Service where
  names : Nat → Bytes
  log : SharedLog
  answered : List (Arrival × Response)

namespace Service

/-- One request is answered on its session. -/
def serve (beyond : Nat → Byte) (table : Table RequestHandler) (s : Service) (a : Arrival) : Except Exn Service := do
  let answer ← constructResponse beyond table a.env s.log (s.names a.session) a.request
  return ⟨Function.update s.names a.session answer.name, answer.log, s.answered ++ [(a, answer.response)]⟩

/-- Requests answered one after another. -/
def serveAll (beyond : Nat → Byte) (table : Table RequestHandler) (s : Service) (arrivals : List Arrival) :
    Except Exn Service :=
  arrivals.foldlM (serve beyond table) s

end Service

/-- Some entry of the table serves the request. -/
def Routed (beyond : Nat → Byte) (table : Table RequestHandler) (a : Arrival) : Prop :=
  (route beyond table a.request.target).entry.isSome = true

instance (beyond : Nat → Byte) (table : Table RequestHandler) (a : Arrival) : Decidable (Routed beyond table a) :=
  inferInstanceAs (Decidable (_ = true))

/-- A log entry holds the target of an answered request and the status of its response. -/
def RecordOf (e : Arrival × Response) (info : URLInfo) : Prop :=
  info.url = e.1.request.target ∧ info.resCode = e.2.result

/-- The log of the second service is that of the first and one entry for each request. -/
def Recorded (s t : Service) (answered : List (Arrival × Response)) : Prop :=
  ∃ infos, t.log.urlInfo = s.log.urlInfo ++ infos ∧ List.Forall₂ RecordOf answered infos

variable {beyond : Nat → Byte} {table : Table RequestHandler}

/-- One answered request: it is recorded if it was routed. -/
theorem serve_spec {s t : Service} {a : Arrival} (h : s.serve beyond table a = .ok t) :
    ∃ response, t.answered = s.answered ++ [(a, response)] ∧
      Recorded s t ([(a, response)].filter (fun e => Routed beyond table e.1)) := by
  unfold Service.serve at h
  obtain ⟨answer, ha, hs⟩ := bind_eq_ok_iff.mp h
  obtain rfl := Except.ok.inj hs
  rcases constructResponse_cases ha with ⟨he, rfl⟩ | ⟨urlPrefix, handler, res, he, -, rfl⟩
  · refine ⟨_, rfl, [], (List.append_nil _).symm, ?_⟩
    simp [Routed, he]
  · refine ⟨_, rfl, [⟨a.request.target, res.result, a.env.now⟩], rfl, ?_⟩
    simp [Routed, he, RecordOf, answerOf, finalResponse]

/-- A run answers its requests in order and records those that were routed. -/
theorem serveAll_spec {s t : Service} {arrivals : List Arrival} (h : s.serveAll beyond table arrivals = .ok t) :
    ∃ answered, t.answered = s.answered ++ answered ∧ answered.map Prod.fst = arrivals ∧
      Recorded s t (answered.filter (fun e => Routed beyond table e.1)) := by
  induction arrivals generalizing s with
  | nil =>
    obtain rfl := Except.ok.inj h
    exact ⟨[], (List.append_nil _).symm, rfl, [], (List.append_nil _).symm, .nil⟩
  | cons a arrivals ih =>
    obtain ⟨next, hn, hrest⟩ := foldlM_cons_eq_ok_iff.mp h
    obtain ⟨response, ha, first, hf, hr⟩ := serve_spec hn
    obtain ⟨answered, has, hm, rest, hl, hrs⟩ := ih hrest
    refine ⟨(a, response) :: answered, ?_, by rw [List.map_cons, hm], first ++ rest, ?_, ?_⟩
    · rw [has, ha, List.append_assoc, List.singleton_append]
    · rw [hl, hf, List.append_assoc]
    · rw [← List.singleton_append, List.filter_append]
      exact List.rel_append hr hrs

/-- The headline of a status page that counts this many requests. -/
def totalLine (count : Nat) : Bytes :=
  ascii "<h3>Total Requests Received: " ++ decimal count ++ ascii "</h3>"

theorem totalLine_in_statusPage (target now : Bytes) (urlInfo : List URLInfo) (size : Nat)
    (urlToHandlerName : List (Bytes × Bytes)) :
    totalLine (size + 1) <:+: statusPage target now urlInfo size urlToHandlerName := by
  unfold statusPage totalLine
  iterate 14 refine List.IsInfix.trans ?_ (List.prefix_append _ _).isInfix
  rw [List.append_assoc _ (ascii "<h3>Total Requests Received: "), List.append_assoc _ (_ ++ decimal _)]
  exact (List.suffix_append _ _).isInfix

private theorem recorded_filter_iff {s t : Service} {answered : List (Arrival × Response)}
    (h : Recorded s t (answered.filter (fun e => Routed beyond table e.1))) :
    Recorded s t answered ↔ ∀ e ∈ answered, Routed beyond table e.1 := by
  constructor
  · intro hall
    obtain ⟨infos, hl, hr⟩ := h
    obtain ⟨infos', hl', hr'⟩ := hall
    obtain rfl := List.append_cancel_left (hl.symm.trans hl')
    have hlength := hr.length_eq.trans hr'.length_eq.symm
    intro e he
    exact of_decide_eq_true (List.length_filter_eq_length_iff.1 hlength e he)
  · intro hall
    rwa [List.filter_eq_self.2 (fun e he => decide_eq_true (hall e he))] at h

/-- After a run of requests the log has grown by one entry for each of them, in their order, and
a status page counts them all, if every request was routed to a handler, and only then. -/
theorem request_log_complete_iff {s t : Service} {arrivals : List Arrival}
    (h : s.serveAll beyond table arrivals = .ok t) :
    (∃ answered, t.answered = s.answered ++ answered ∧ answered.map Prod.fst = arrivals ∧ Recorded s t answered ∧
      ∀ handler : RequestHandler, handler.behaviour = .status → ∀ env request, ∃ page,
        handler.handleRequest env t.log request = .ok page ∧
          totalLine (s.log.urlInfo.length + arrivals.length + 1) <:+: page.body) ↔
      ∀ a ∈ arrivals, Routed beyond table a := by
  obtain ⟨answered, ha, hm, hr⟩ := serveAll_spec h
  have hrouted : Recorded s t answered ↔ ∀ a ∈ arrivals, Routed beyond table a := by
    rw [recorded_filter_iff hr, ← hm]
    exact List.forall_mem_map.symm
  rw [← hrouted]
  constructor
  · intro hcomplete
    obtain ⟨answered', ha', -, hrecorded, -⟩ := hcomplete
    rwa [List.append_cancel_left (ha.symm.trans ha')]
  · intro hrecorded
    refine ⟨answered, ha, hm, hrecorded, fun handler hb env request =>
      ⟨_, RequestHandler.handleRequest_status hb env t.log request, ?_⟩⟩
    obtain ⟨infos, hl, hf⟩ := hrecorded
    have hsize : t.log.urlInfo.length = s.log.urlInfo.length + arrivals.length := by
      rw [hl, List.length_append, ← hf.length_eq, ← hm, List.length_map]
    rw [← hsize]
    exact totalLine_in_statusPage _ _ _ _ _

/-- A server with a health check and a status page, asked for the first. -/
def checkTable : Table RequestHandler :=
  [(ascii "/health", ⟨ascii "Health", false, .health⟩), (ascii "/status", ⟨ascii "Status", false, .status⟩)]

def idleEnvironment : Environment :=
  ⟨fun _ => [], fun _ => .missing, id, fun _ _ _ => ⟨false, false, false, .other, newResponse 0, .other⟩, []⟩

def arrivalFor (target : Bytes) : Arrival := ⟨0, idleEnvironment, ⟨ascii "GET", target, 11, [], []⟩⟩

def freshService : Service := ⟨fun _ => ascii "sessionTCP: ", ⟨[], []⟩, []⟩

/-- A request no location serves is answered with 404 and not recorded. -/
theorem unrouted_request_unrecorded :
    ∃ t, freshService.serveAll (fun _ => 0) checkTable [arrivalFor (ascii "/missing")] = .ok t ∧
      t.answered = [(arrivalFor (ascii "/missing"), notFoundError)] ∧ t.log.urlInfo = [] :=
  ⟨_, rfl, rfl, rfl⟩

/-- Two health checks are recorded and counted. -/
theorem health_checks_recorded :
    ∃ t, freshService.serveAll (fun _ => 0) checkTable [arrivalFor (ascii "/health"), arrivalFor (ascii "/health/")] =
        .ok t ∧
      ∃ answered, t.answered = [] ++ answered ∧
        answered.map Prod.fst = [arrivalFor (ascii "/health"), arrivalFor (ascii "/health/")] ∧
        Recorded freshService t answered := by
  obtain ⟨t, ht⟩ : ∃ t, freshService.serveAll (fun _ => 0) checkTable
      [arrivalFor (ascii "/health"), arrivalFor (ascii "/health/")] = .ok t := ⟨_, rfl⟩
  have hrouted : ∀ a ∈ [arrivalFor (ascii "/health"), arrivalFor (ascii "/health/")],
      Routed (fun _ => 0) checkTable a := by
    simp only [List.forall_mem_cons]
    exact ⟨by decide, by decide, List.forall_mem_nil _⟩
  obtain ⟨answered, ha, hm, hr, -⟩ := (request_log_complete_iff ht).2 hrouted
  exact ⟨t, ht, answered, ha, hm, hr⟩

end Koko.Session
