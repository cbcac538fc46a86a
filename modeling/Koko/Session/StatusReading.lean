import Koko.Handlers.StatusMarkup
import Koko.Lib.Delimited
import Koko.Session.RequestLog

/-! The status page as a format: what is printed on it can be read off it, and so the requests a
server has recorded. -/
namespace Koko.Handlers
open Koko.Lib Koko.Http

/-- No text of the entry makes a tag. -/
def PlainInfo (info : URLInfo) : Prop := Plain info.url ∧ Plain info.reqTime

/-- Nor one of the log. -/
def PlainLog (log : SharedLog) : Prop :=
  (∀ info ∈ log.urlInfo, PlainInfo info) ∧ ∀ m ∈ log.urlToHandlerName, Plain m.1 ∧ Plain m.2

/-- A cell of a table ends where the next tag begins. -/
private theorem cell_inj (tag : Bytes) {x y : Bytes} (hx : Plain x) (hy : Plain y) {u v : Bytes}
    (h : x ++ (chr '<' :: tag ++ u) = y ++ (chr '<' :: tag ++ v)) : x = y ∧ u = v := by
  rw [← List.append_assoc, ← List.append_assoc] at h
  exact delimited_by (chr '<') tag hx hy h

theorem delimited_urlInfoRow : Delimited PlainInfo urlInfoRow := by
  intro a b ha hb u v h
  simp only [urlInfoRow, List.append_assoc] at h
  obtain ⟨hurl, h₁⟩ := cell_inj (ascii "/td>") ha.1 hb.1 (List.append_cancel_left (List.append_cancel_left h))
  obtain ⟨hcode, h₂⟩ := cell_inj (ascii "/td>") (plain_decimal _) (plain_decimal _) (List.append_cancel_left h₁)
  obtain ⟨htime, h₃⟩ := cell_inj (ascii "/td>") ha.2 hb.2 (List.append_cancel_left h₂)
  refine ⟨?_, List.append_cancel_left h₃⟩
  obtain ⟨url, code, time⟩ := a
  obtain ⟨url', code', time'⟩ := b
  obtain rfl : url = url' := hurl
  obtain rfl : code = code' := decimal_inj hcode
  obtain rfl : time = time' := htime
  rfl

theorem delimited_handlerRow : Delimited (fun m => Plain m.1 ∧ Plain m.2) handlerRow := by
  intro a b ha hb u v h
  simp only [handlerRow, List.append_assoc] at h
  obtain ⟨hurl, h₁⟩ := cell_inj (ascii "/td><td>") ha.1 hb.1 (List.append_cancel_left h)
  obtain ⟨hname, h₂⟩ := cell_inj (ascii "/td></tr>") ha.2 hb.2 h₁
  exact ⟨Prod.ext hurl hname, h₂⟩

theorem delimited_statusRequestRow :
    Delimited (fun r : Bytes × Bytes => Plain r.1 ∧ Plain r.2) (fun r => statusRequestRow r.1 r.2) := by
  intro a b ha hb u v h
  simp only [statusRequestRow, List.append_assoc] at h
  obtain ⟨htarget, h₁⟩ := cell_inj (ascii "/td><td>200</td>") ha.1 hb.1 (List.append_cancel_left h)
  obtain ⟨hnow, h₂⟩ := cell_inj (ascii "/td>") ha.2 hb.2 (List.append_cancel_left h₁)
  exact ⟨Prod.ext htarget hnow, List.append_cancel_left h₂⟩

/-- The rows of a table, up to the tag that ends it. -/
private theorem delimited_rows {α : Type} {valid : α → Prop} {row : α → Bytes} (h : Delimited valid row)
    (hrow : ∀ a, ∃ rest, row a = chr '<' :: chr 't' :: rest) {stop : Bytes}
    (hstop : ∃ rest, stop = chr '<' :: chr '/' :: rest) :
    Delimited (fun as : List α => ∀ a ∈ as, valid a) (fun as => as.flatMap row ++ stop) := by
  refine h.flatMap fun a u v _ he => ?_
  obtain ⟨rest, hr⟩ := hrow a
  obtain ⟨more, rfl⟩ := hstop
  rw [hr] at he
  have htags := (List.cons.inj (List.cons.inj he).2).1
  exact absurd htags (by decide)

/-- Two status pages with plain texts that read the same show the same request, the same log and the
same handlers. -/
theorem statusPage_inj {target now target' now' : Bytes} {log log' : SharedLog} {size size' : Nat}
    (hr : Plain target ∧ Plain now) (hr' : Plain target' ∧ Plain now') (hl : PlainLog log) (hl' : PlainLog log')
    (h : statusPage target now log.urlInfo size log.urlToHandlerName =
      statusPage target' now' log'.urlInfo size' log'.urlToHandlerName) :
    target = target' ∧ now = now' ∧ size = size' ∧ log = log' := by
  rw [statusPage_eq, statusPage_eq] at h
  simp only [requestRows, List.flatten_cons, ← List.flatMap_def, List.append_assoc] at h
  have hrows : Delimited (fun infos : List URLInfo => ∀ info ∈ infos, PlainInfo info)
      (fun infos => infos.flatMap urlInfoRow ++ pageHandlers) :=
    delimited_rows delimited_urlInfoRow (fun a => ⟨_, rfl⟩) ⟨_, rfl⟩
  have hnames : Delimited (fun names : List (Bytes × Bytes) => ∀ m ∈ names, Plain m.1 ∧ Plain m.2)
      (fun names => names.flatMap handlerRow ++ pageTail) :=
    delimited_rows delimited_handlerRow (fun a => ⟨_, rfl⟩) ⟨_, rfl⟩
  obtain ⟨hsize, h₁⟩ := cell_inj pageRequests.tail (plain_decimal (size + 1)) (plain_decimal (size' + 1))
    (List.append_cancel_left h)
  obtain ⟨hrequest, h₂⟩ := delimited_statusRequestRow (a := (target, now)) (b := (target', now')) hr hr' h₁
  obtain ⟨hinfo, h₃⟩ := hrows (a := log.urlInfo.reverse) (b := log'.urlInfo.reverse) (by simpa using hl.1)
    (by simpa using hl'.1) (by rw [List.append_assoc, List.append_assoc]; exact h₂)
  obtain ⟨hhandlers, -⟩ := hnames (a := log.urlToHandlerName) (b := log'.urlToHandlerName) (u := []) (v := []) hl.2 hl'.2
    (by rw [List.append_nil, List.append_nil]; exact h₃)
  obtain ⟨rfl, rfl⟩ := Prod.mk.inj hrequest
  refine ⟨rfl, rfl, Nat.succ.inj (decimal_inj hsize), ?_⟩
  obtain ⟨infos, names⟩ := log
  obtain ⟨infos', names'⟩ := log'
  obtain rfl : infos = infos' := List.reverse_injective hinfo
  obtain rfl : names = names' := hhandlers
  rfl

end Koko.Handlers

namespace Koko.Session
open Koko.Lib Koko.Http Koko.Handlers

/-- The texts that the request leaves in the log. -/
def PlainArrival (a : Arrival) : Prop := Plain a.request.target ∧ Plain a.env.now

instance (a : Arrival) : Decidable (PlainArrival a) := inferInstanceAs (Decidable (_ ∧ _))

section
variable {beyond : Nat → Byte} {table : Table RequestHandler} {s t : Service}

theorem plainLog_serve {a : Arrival} (ha : PlainArrival a) (hs : PlainLog s.log) (h : s.serve beyond table a = .ok t) :
    PlainLog t.log := by
  obtain ⟨answer, hanswer, ht⟩ := bind_eq_ok_iff.mp h
  obtain rfl := Except.ok.inj ht
  rcases constructResponse_cases hanswer with ⟨-, rfl⟩ | ⟨urlPrefix, handler, res, -, -, rfl⟩
  · exact hs
  · refine ⟨fun info hinfo => ?_, hs.2⟩
    rcases List.mem_append.mp hinfo with hinfo | hinfo
    · exact hs.1 info hinfo
    · rw [List.mem_singleton.mp hinfo]
      exact ha

/-- Plain requests leave a plain log. -/
theorem plainLog_serveAll {arrivals : List Arrival} (ha : ∀ a ∈ arrivals, PlainArrival a) (hs : PlainLog s.log)
    (h : s.serveAll beyond table arrivals = .ok t) : PlainLog t.log := by
  induction arrivals generalizing s with
  | nil =>
    obtain rfl := Except.ok.inj h
    exact hs
  | cons a arrivals ih =>
    obtain ⟨next, hnext, hrest⟩ := foldlM_cons_eq_ok_iff.mp h
    exact ih (fun a ha' => ha a (List.mem_cons_of_mem _ ha')) (plainLog_serve (ha a List.mem_cons_self) hs hnext) hrest

/-- What a server has answered and recorded: targets and statuses. -/
def recordedRequests (beyond : Nat → Byte) (table : Table RequestHandler) (s : Service) : List (Bytes × Nat) :=
  (s.answered.filter (fun e => Routed beyond table e.1)).map (fun e => (e.1.request.target, e.2.result))

private theorem map_of_records {answered : List (Arrival × Response)} {infos : List URLInfo}
    (h : List.Forall₂ RecordOf answered infos) :
    answered.map (fun e => (e.1.request.target, e.2.result)) = infos.map (fun info => (info.url, info.resCode)) := by
  induction h with
  | nil => rfl
  | cons hr _ ih => rw [List.map_cons, List.map_cons, ih, hr.1, hr.2]

theorem recordedRequests_eq {names : Nat → Bytes} {handlerNames : List (Bytes × Bytes)} {arrivals : List Arrival}
    (h : Service.serveAll beyond table ⟨names, ⟨[], handlerNames⟩, []⟩ arrivals = .ok t) :
    recordedRequests beyond table t = t.log.urlInfo.map (fun info => (info.url, info.resCode)) := by
  obtain ⟨answered, ha, -, infos, hlog, hrecords⟩ := serveAll_spec h
  rw [recordedRequests, ha, hlog, List.nil_append, List.nil_append]
  exact map_of_records hrecords

end

/-- Let two servers have answered plain requests, any number and in any order, and let each be asked
for its status page. If the pages read the same, the servers have recorded the same requests with
the same statuses and times, and have the same handlers. -/
theorem status_page_tells_history {beyond : Nat → Byte} {table table' : Table RequestHandler} {names : Nat → Bytes}
    {handlerNames handlerNames' : List (Bytes × Bytes)} {arrivals arrivals' : List Arrival} {t t' : Service}
    (h : Service.serveAll beyond table ⟨names, ⟨[], handlerNames⟩, []⟩ arrivals = .ok t)
    (h' : Service.serveAll beyond table' ⟨names, ⟨[], handlerNames'⟩, []⟩ arrivals' = .ok t')
    (hn : ∀ m ∈ handlerNames, Plain m.1 ∧ Plain m.2) (hn' : ∀ m ∈ handlerNames', Plain m.1 ∧ Plain m.2)
    {asked asked' : Arrival} (ha : ∀ a ∈ asked :: arrivals, PlainArrival a)
    (ha' : ∀ a ∈ asked' :: arrivals', PlainArrival a) {handler handler' : RequestHandler}
    (hb : handler.behaviour = .status) (hb' : handler'.behaviour = .status) {page page' : Response}
    (hp : handler.handleRequest asked.env t.log asked.request = .ok page)
    (hp' : handler'.handleRequest asked'.env t'.log asked'.request = .ok page') (hsame : page.body = page'.body) :
    recordedRequests beyond table t = recordedRequests beyond table' t' ∧ t.log = t'.log ∧
      asked.request.target = asked'.request.target ∧ asked.env.now = asked'.env.now := by
  rw [RequestHandler.handleRequest_status hb] at hp
  rw [RequestHandler.handleRequest_status hb'] at hp'
  obtain rfl := Except.ok.inj hp
  obtain rfl := Except.ok.inj hp'
  rw [body_okResponse, body_okResponse] at hsame
  rw [List.forall_mem_cons] at ha ha'
  have hplain := plainLog_serveAll ha.2 (show PlainLog _ from ⟨by simp, hn⟩) h
  have hplain' := plainLog_serveAll ha'.2 (show PlainLog _ from ⟨by simp, hn'⟩) h'
  obtain ⟨htarget, hnow, -, hlog⟩ := statusPage_inj ha.1 ha'.1 hplain hplain' hsame
  exact ⟨by rw [recordedRequests_eq h, recordedRequests_eq h', hlog], hlog, htarget, hnow⟩

/-- A request that nobody serves leaves no trace on the page. -/
theorem unserved_request_not_told :
    ∃ t t' page, Service.serveAll (fun _ => 0) checkTable ⟨fun _ => [], ⟨[], []⟩, []⟩ [arrivalFor (ascii "/health")] = .ok t ∧
      Service.serveAll (fun _ => 0) checkTable ⟨fun _ => [], ⟨[], []⟩, []⟩
        [arrivalFor (ascii "/missing"), arrivalFor (ascii "/health")] = .ok t' ∧
      statusHandler.handleRequest idleEnvironment t.log (arrivalFor (ascii "/status")).request = .ok page ∧
      statusHandler.handleRequest idleEnvironment t'.log (arrivalFor (ascii "/status")).request = .ok page ∧
      recordedRequests (fun _ => 0) checkTable t = recordedRequests (fun _ => 0) checkTable t' := by
  obtain ⟨t, t', h, h', hlog⟩ : ∃ t t', Service.serveAll (fun _ => 0) checkTable ⟨fun _ => [], ⟨[], []⟩, []⟩
        [arrivalFor (ascii "/health")] = .ok t ∧
      Service.serveAll (fun _ => 0) checkTable ⟨fun _ => [], ⟨[], []⟩, []⟩
        [arrivalFor (ascii "/missing"), arrivalFor (ascii "/health")] = .ok t' ∧ t.log = t'.log := ⟨_, _, rfl, rfl, rfl⟩
  have hb : statusHandler.behaviour = .status := rfl
  have ha : ∀ a ∈ arrivalFor (ascii "/status") :: [arrivalFor (ascii "/health")], PlainArrival a := by decide
  have ha' : ∀ a ∈ arrivalFor (ascii "/status") :: [arrivalFor (ascii "/missing"), arrivalFor (ascii "/health")],
      PlainArrival a := by decide
  have hp := RequestHandler.handleRequest_status hb idleEnvironment t.log (arrivalFor (ascii "/status")).request
  have hp' := hp
  rw [hlog] at hp'
  have hsame := status_page_tells_history h h' (by simp) (by simp) ha ha' hb hb hp hp' (by rw [hlog])
  exact ⟨t, t', _, h, h', hp, by rw [← hlog]; exact hp, hsame.1⟩

end Koko.Session
