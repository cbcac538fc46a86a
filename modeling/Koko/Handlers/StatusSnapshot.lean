import Koko.Handlers.StatusMarkup
import Koko.Lib.Interleaving

/-! The calls of `get_response` that run at the same time. They share the request log; copying it,
asking for its size and appending to it are atomic. The status page is made from a copy and a
later size. -/
namespace Koko.Handlers
open Koko.Lib Koko.Http

/-- What a status page is made of when it is put together. -/
structure StatusReport where
  target : Bytes
  now : Bytes
  urlInfo : List URLInfo
  urlInfoSize : Nat
  urlToHandlerName : List (Bytes × Bytes)

namespace StatusReport

/-- The number printed behind `Total Requests Received`. -/
def total (report : StatusReport) : Nat := report.urlInfoSize + 1

def rows (report : StatusReport) : List Bytes := requestRows report.target report.now report.urlInfo

def text (report : StatusReport) : Bytes :=
  statusPage report.target report.now report.urlInfo report.urlInfoSize report.urlToHandlerName

theorem text_eq (report : StatusReport) :
    report.text = pageHead ++ decimal report.total ++ pageRequests ++ report.rows.flatten ++ pageHandlers ++
      report.urlToHandlerName.flatMap handlerRow ++ pageTail := statusPage_eq _ _ _ _ _

theorem total_eq_rows_iff (report : StatusReport) :
    report.total = report.rows.length ↔ report.urlInfoSize = report.urlInfo.length := by
  simp [total, rows, requestRows]

end StatusReport

/-- What `handle_request` returned: a page, or the response of another handler. -/
inductive Reply where
  | status (report : StatusReport)
  | other (response : Response)

def Reply.response : Reply → Response
  | status report => okResponse textHtml report.text
  | other response => response

/-- How far a call is: it has the copies of the log and of the handler names, or the reply of
`handle_request`, or has recorded it. -/
inductive Phase where
  | begun
  | copied (urlInfo : List URLInfo) (urlToHandlerName : List (Bytes × Bytes))
  | answered (reply : Reply)
  | returned (reply : Reply)

structure Call where
  handler : RequestHandler
  env : Environment
  request : Request
  phase : Phase

namespace Call

/-- The next access to the log and what leads to it; there is none after the record, or if the
handler throws. -/
def act (log : SharedLog) (call : Call) : Option (SharedLog × Call) :=
  match call.phase with
  | .begun =>
    if call.handler.behaviour = .status then
      some (log, { call with phase := .copied log.urlInfo log.urlToHandlerName })
    else
      match call.handler.handleRequest call.env log call.request with
      | .ok response => some (log, { call with phase := .answered (.other response) })
      | .error _ => none
  | .copied urlInfo urlToHandlerName =>
    some (log, { call with phase := .answered (.status
      ⟨call.request.target, call.env.now, urlInfo, log.urlInfo.length, urlToHandlerName⟩) })
  | .answered reply =>
    some ({ log with urlInfo := log.urlInfo ++ [⟨call.request.target, reply.response.result, call.env.now⟩] },
      { call with phase := .returned reply })
  | .returned _ => none

/-- A call that runs alone returns what `get_response` does and leaves its log. -/
theorem run_alone {handler : RequestHandler} {env : Environment} {request : Request} {log log' : SharedLog}
    {response : Response} (h : handler.getResponse env log request = .ok (response, log')) :
    ∃ schedule reply, Pool.run act ⟨log, [⟨handler, env, request, .begun⟩]⟩ schedule =
      some ⟨log', [⟨handler, env, request, .returned reply⟩]⟩ ∧ reply.response = response := by
  unfold RequestHandler.getResponse at h
  by_cases hb : handler.behaviour = .status
  · rw [RequestHandler.handleRequest_status hb] at h
    obtain ⟨rfl, rfl⟩ := Prod.mk.inj (Except.ok.inj h)
    refine ⟨[0, 0, 0], .status ⟨request.target, env.now, log.urlInfo, log.urlInfo.length, log.urlToHandlerName⟩, ?_, rfl⟩
    have hact : act log ⟨handler, env, request, .begun⟩ =
        some (log, ⟨handler, env, request, .copied log.urlInfo log.urlToHandlerName⟩) := if_pos hb
    rw [Pool.run, List.foldlM_cons, Pool.step]
    simp only [List.getElem?_cons_zero, Option.bind_eq_bind, Option.bind_some, hact]
    rfl
  · cases hr : handler.handleRequest env log request with
    | error exn =>
      rw [hr] at h
      cases h
    | ok res =>
      rw [hr] at h
      obtain ⟨rfl, rfl⟩ := Prod.mk.inj (Except.ok.inj h)
      refine ⟨[0, 0], .other res, ?_, rfl⟩
      have hact : act log ⟨handler, env, request, .begun⟩ =
          some (log, ⟨handler, env, request, .answered (.other res)⟩) := by
        rw [act, if_neg hb, hr]
      rw [Pool.run, List.foldlM_cons, Pool.step]
      simp only [List.getElem?_cons_zero, Option.bind_eq_bind, Option.bind_some, hact]
      rfl

/-- What the next access can be: the first copy, the reply of another handler, the size, the record. -/
theorem act_cases {log log' : SharedLog} {call call' : Call} (h : call.act log = some (log', call')) :
    (call.phase = .begun ∧ log' = log ∧
      call'.phase = .copied log.urlInfo log.urlToHandlerName) ∨
    (call.phase = .begun ∧ log' = log ∧ ∃ response, call'.phase = .answered (.other response)) ∨
    (∃ urlInfo names, call.phase = .copied urlInfo names ∧ log' = log ∧ call'.phase = .answered (.status
      ⟨call.request.target, call.env.now, urlInfo, log.urlInfo.length, names⟩)) ∨
    (∃ reply info, call.phase = .answered reply ∧ log'.urlInfo = log.urlInfo ++ [info] ∧
      call'.phase = .returned reply) := by
  unfold act at h
  cases hp : call.phase with
  | begun =>
    simp only [hp] at h
    split_ifs at h
    · obtain ⟨rfl, rfl⟩ := Prod.mk.inj (Option.some.inj h)
      exact .inl ⟨rfl, rfl, rfl⟩
    · cases hr : call.handler.handleRequest call.env log call.request with
      | error exn =>
        rw [hr] at h
        cases h
      | ok response =>
        rw [hr] at h
        obtain ⟨rfl, rfl⟩ := Prod.mk.inj (Option.some.inj h)
        exact .inr (.inl ⟨rfl, rfl, response, rfl⟩)
  | copied urlInfo names =>
    simp only [hp] at h
    obtain ⟨rfl, rfl⟩ := Prod.mk.inj (Option.some.inj h)
    exact .inr (.inr (.inl ⟨urlInfo, names, rfl, rfl, rfl⟩))
  | answered reply =>
    simp only [hp] at h
    obtain ⟨rfl, rfl⟩ := Prod.mk.inj (Option.some.inj h)
    exact .inr (.inr (.inr ⟨reply, _, rfl, rfl, rfl⟩))
  | returned reply =>
    simp only [hp] at h
    cases h

end Call

namespace Phase

/-- The copy is a part of the log. -/
def Bounded (log : SharedLog) : Phase → Prop
  | copied urlInfo _ => urlInfo.length ≤ log.urlInfo.length
  | _ => True

/-- Nothing was recorded behind the copy's back. -/
def UpToDate (log : SharedLog) : Phase → Prop
  | copied urlInfo _ => log.urlInfo.length = urlInfo.length
  | answered (.status report) | returned (.status report) => report.urlInfoSize = report.urlInfo.length
  | _ => True

end Phase

abbrev Calls := Pool SharedLog Call

namespace Calls

def phaseAt (calls : Calls) (i : Nat) : Option Phase := calls.locals[i]?.map Call.phase

/-- The step is a record of another call while this one has copied the log and not asked for its
size. -/
def Disturbs (i : Nat) (calls : Calls) (j : Nat) : Prop :=
  ∃ urlInfo names reply, phaseAt calls i = some (.copied urlInfo names) ∧ phaseAt calls j = some (.answered reply)

/-- What is known of a call's phase in every state of a run. -/
def BoundedAt (i : Nat) (calls : Calls) : Prop := ∀ phase, phaseAt calls i = some phase → phase.Bounded calls.shared

def UpToDateAt (i : Nat) (calls : Calls) : Prop := ∀ phase, phaseAt calls i = some phase → phase.UpToDate calls.shared

variable {i j : Nat} {calls next : Calls}

private theorem upToDateAt_iff {phase : Phase} (h : phaseAt calls i = some phase) :
    UpToDateAt i calls ↔ phase.UpToDate calls.shared :=
  ⟨fun hu => hu phase h, fun hu _ h' => Option.some.inj (h.symm.trans h') ▸ hu⟩

/-- A call's own step: the copy is up to date, and its size is the one asked for next. -/
private theorem own_step {log log' : SharedLog} {call call' : Call} (h : call.act log = some (log', call')) :
    call'.phase.Bounded log' ∧ (call'.phase.UpToDate log' ↔ call.phase.UpToDate log) := by
  rcases Call.act_cases h with ⟨hp, rfl, hp'⟩ | ⟨hp, rfl, response, hp'⟩ | ⟨urlInfo, names, hp, rfl, hp'⟩ |
    ⟨reply, info, hp, hl, hp'⟩
  · rw [hp, hp']
    exact ⟨Nat.le_refl _, iff_of_true rfl trivial⟩
  · rw [hp, hp']
    exact ⟨trivial, Iff.rfl⟩
  · rw [hp, hp']
    exact ⟨trivial, Iff.rfl⟩
  · rw [hp, hp']
    cases reply with
    | status report => exact ⟨trivial, Iff.rfl⟩
    | other response => exact ⟨trivial, Iff.rfl⟩

/-- Another call's step: only its record changes the log, and makes a copy fall behind. -/
private theorem other_step {log log' : SharedLog} {call call' : Call} (h : call.act log = some (log', call'))
    {phase : Phase} (hb : phase.Bounded log) :
    phase.Bounded log' ∧ (phase.UpToDate log' ↔ phase.UpToDate log ∧
      ¬ ∃ urlInfo names reply, phase = .copied urlInfo names ∧ call.phase = .answered reply) := by
  rcases Call.act_cases h with ⟨hp, rfl, -⟩ | ⟨hp, rfl, -⟩ | ⟨urlInfo, names, hp, rfl, -⟩ | ⟨reply, info, hp, hl, -⟩
  · exact ⟨hb, by simp [hp]⟩
  · exact ⟨hb, by simp [hp]⟩
  · exact ⟨hb, by simp [hp]⟩
  · have hlength : log'.urlInfo.length = log.urlInfo.length + 1 := by simp [hl]
    cases phase with
    | copied urlInfo names =>
      have hle : urlInfo.length ≤ log.urlInfo.length := hb
      refine ⟨?_, iff_of_false ?_ ?_⟩
      · rw [Phase.Bounded, hlength]
        omega
      · rw [Phase.UpToDate, hlength]
        omega
      · rintro ⟨-, hn⟩
        exact hn ⟨urlInfo, names, reply, rfl, hp⟩
    | begun => exact ⟨trivial, by simp [Phase.UpToDate]⟩
    | answered reply => cases reply <;> exact ⟨trivial, by simp [Phase.UpToDate]⟩
    | returned reply => cases reply <;> exact ⟨trivial, by simp [Phase.UpToDate]⟩

/-- After a step a call is up to date if it was before and the step did not disturb it. -/
theorem upToDateAt_step (hb : BoundedAt i calls) (h : calls.step Call.act j = some next) :
    BoundedAt i next ∧ (UpToDateAt i next ↔ UpToDateAt i calls ∧ ¬ Disturbs i calls j) := by
  obtain ⟨own, log', own', hown, hact, rfl⟩ := Pool.step_cases h
  have hj : phaseAt calls j = some own.phase := by rw [phaseAt, hown, Option.map_some]
  have hphase : phaseAt ⟨log', calls.locals.set j own'⟩ i = if j = i then some own'.phase else phaseAt calls i := by
    rw [phaseAt, Pool.getElem?_locals_set hown]
    split_ifs <;> rfl
  by_cases hij : j = i
  · subst hij
    rw [if_pos rfl] at hphase
    obtain ⟨hbound, hup⟩ := own_step hact
    have hcalm : ¬ Disturbs j calls j := by
      rintro ⟨urlInfo, names, reply, hc, ha⟩
      rw [hc] at ha
      cases ha
    refine ⟨fun phase hp => ?_, ?_⟩
    · rw [hphase] at hp
      exact Option.some.inj hp ▸ hbound
    · rw [upToDateAt_iff hphase, upToDateAt_iff hj, and_iff_left hcalm]
      exact hup
  · rw [if_neg hij] at hphase
    cases hi : phaseAt calls i with
    | none =>
      rw [hi] at hphase
      refine ⟨fun phase hp => by simp [hphase] at hp, iff_of_true (fun phase hp => by simp [hphase] at hp) ⟨?_, ?_⟩⟩
      · exact fun phase hp => by simp [hi] at hp
      · rintro ⟨urlInfo, names, reply, hc, -⟩
        simp [hi] at hc
    | some phase =>
      rw [hi] at hphase
      obtain ⟨hbound, hup⟩ := other_step hact (hb phase hi)
      refine ⟨fun phase' hp => ?_, ?_⟩
      · rw [hphase] at hp
        exact Option.some.inj hp ▸ hbound
      · rw [upToDateAt_iff hphase, upToDateAt_iff hi, Disturbs, hi, hj]
        simpa using hup

end Calls
open Calls

/-- In a run of calls that begin with any log, the total printed on a status page is the number of
its request rows if no other call records between the copy and the size, and only then. -/
theorem status_page_snapshot_iff {log : SharedLog} {calls : List Call} (hbegun : ∀ call ∈ calls, call.phase = .begun)
    {schedule : List Nat} {final : Calls} (hrun : Pool.run Call.act ⟨log, calls⟩ schedule = some final) {i : Nat}
    {report : StatusReport} (hreport : phaseAt final i = some (.answered (.status report)) ∨
      phaseAt final i = some (.returned (.status report))) :
    (Reply.status report).response.body =
      pageHead ++ decimal report.total ++ pageRequests ++ report.rows.flatten ++ pageHandlers ++
        report.urlToHandlerName.flatMap handlerRow ++ pageTail ∧
    (report.total = report.rows.length ↔
      Pool.Always Call.act (fun calls j => ¬ Disturbs i calls j) ⟨log, calls⟩ schedule) := by
  refine ⟨report.text_eq, ?_⟩
  have hinit : ∀ phase, phaseAt ⟨log, calls⟩ i = some phase → phase = .begun := by
    intro phase hp
    obtain ⟨call, hc, rfl⟩ := Option.map_eq_some_iff.mp hp
    exact hbegun call (List.mem_of_getElem? hc)
  have hbound : BoundedAt i ⟨log, calls⟩ := fun phase hp => by
    rw [hinit phase hp]
    trivial
  have hstart : UpToDateAt i ⟨log, calls⟩ := fun phase hp => by
    rw [hinit phase hp]
    trivial
  have hend : UpToDateAt i final ↔ report.urlInfoSize = report.urlInfo.length := by
    rcases hreport with hp | hp
    · exact upToDateAt_iff hp
    · exact upToDateAt_iff hp
  have hall := Pool.always_iff (fun _ _ _ hb hs => upToDateAt_step hb hs) hbound hrun
  rw [report.total_eq_rows_iff, ← hend, hall, and_iff_right hstart]

/-- A status page and a health check that are asked for at the same time. -/
def twoCalls : List Call :=
  [⟨statusHandler, noonEnvironment, statusRequest, .begun⟩,
    ⟨⟨ascii "Health", false, .health⟩, noonEnvironment, ⟨ascii "GET", ascii "/health", 11, [], []⟩, .begun⟩]

/-- The health check is recorded behind the copy and counted in the total: two requests, one row. -/
theorem recorded_behind_copy :
    ∃ final report, Pool.run Call.act ⟨⟨[], []⟩, twoCalls⟩ [0, 1, 1, 0] = some final ∧
      phaseAt final 0 = some (.answered (.status report)) ∧ report.total = 2 ∧ report.rows.length = 1 :=
  ⟨_, _, rfl, rfl, rfl, rfl⟩

/-- Recorded before the copy it has a row. -/
theorem recorded_before_copy :
    ∃ final report, Pool.run Call.act ⟨⟨[], []⟩, twoCalls⟩ [1, 1, 0, 0] = some final ∧
      phaseAt final 0 = some (.answered (.status report)) ∧ report.total = report.rows.length := by
  have hbegun : ∀ call ∈ twoCalls, call.phase = .begun := by simp [twoCalls]
  obtain ⟨final, report, hrun, hphase⟩ : ∃ final report, Pool.run Call.act ⟨⟨[], []⟩, twoCalls⟩ [1, 1, 0, 0] = some final ∧
      phaseAt final 0 = some (.answered (.status report)) := ⟨_, _, rfl, rfl⟩
  refine ⟨final, report, hrun, hphase, (status_page_snapshot_iff hbegun hrun (.inl hphase)).2.2 ?_⟩
  refine ⟨(fun ⟨_, _, _, hcopied, _⟩ => nomatch hcopied), fun _ hnext => ?_⟩
  cases hnext
  refine ⟨(fun ⟨_, _, _, hcopied, _⟩ => nomatch hcopied), fun _ hnext => ?_⟩
  cases hnext
  refine ⟨(fun ⟨_, _, _, hcopied, _⟩ => nomatch hcopied), fun _ hnext => ?_⟩
  cases hnext
  exact ⟨(fun ⟨_, _, _, _, hanswered⟩ => nomatch hanswered), fun _ _ => trivial⟩

end Koko.Handlers
