import Koko.Handlers.Dispatch
import Koko.Session.Routing

/-! `session::construct_response`: the routed handler answers, and the connection header
of its answer is set from the handler's setting. -/
namespace Koko.Session
open Koko.Lib Koko.Http Koko.Handlers

/-- The response, with the request log and the session's name as they are left. -/
structure Answer where
  response : Response
  log : SharedLog
  name : Bytes

/-- The connection header is set on what the handler returned. -/
def finalResponse (handler : RequestHandler) (res : Response) : Response :=
  res.set connectionField (if handler.keepAlive then keepAliveValue else closeValue)

/-- The name a session has while the handler answers; a compressed file is told in it. -/
def labelled (handler : RequestHandler) (name : Bytes) : Bytes :=
  if handler.name = ascii "CompressedFileHandler" then name ++ ascii "CompressedFileHandler: " else name

def constructResponse (beyond : Nat → Byte) (table : Table RequestHandler) (env : Environment) (log : SharedLog)
    (name : Bytes) (request : Request) : Except Exn Answer :=
  match (route beyond table request.target).correctHandler with
  | none => .ok ⟨notFoundError, log, name⟩
  | some handler => do
    let name := labelled handler name
    let (res, log) ← handler.getResponse env log request
    return ⟨finalResponse handler res, log, name⟩

/-- What becomes of the routed handler's response. -/
def answerOf (handler : RequestHandler) (env : Environment) (log : SharedLog) (name : Bytes) (request : Request)
    (res : Response) : Answer :=
  ⟨finalResponse handler res, { log with urlInfo := log.urlInfo ++ [⟨request.target, res.result, env.now⟩] },
    labelled handler name⟩

section
variable {beyond : Nat → Byte} {table : Table RequestHandler} {env : Environment} {log : SharedLog} {name : Bytes}
  {request : Request}

theorem constructResponse_of_entry {urlPrefix : Bytes} {handler : RequestHandler}
    (hr : (route beyond table request.target).entry = some (urlPrefix, handler)) :
    constructResponse beyond table env log name request =
      (handler.handleRequest env log request).map (answerOf handler env log name request) := by
  obtain ⟨h, hh, he⟩ := Option.map_eq_some_iff.mp hr
  obtain ⟨-, rfl⟩ := Prod.mk.inj he
  unfold constructResponse RequestHandler.getResponse
  rw [hh]
  cases hq : h.handleRequest env log request with
  | error e => simp [bind, Except.bind, Except.map, hq]
  | ok res => simp [bind, Except.bind, pure, Except.pure, Except.map, hq, answerOf]

theorem constructResponse_of_no_entry (hr : (route beyond table request.target).entry = none) :
    constructResponse beyond table env log name request = .ok ⟨notFoundError, log, name⟩ := by
  unfold constructResponse
  rw [Option.map_eq_none_iff.mp hr]

/-- The answer is the prepared 404, or made from the response of the selected handler. -/
theorem constructResponse_cases {answer : Answer}
    (h : constructResponse beyond table env log name request = .ok answer) :
    ((route beyond table request.target).entry = none ∧ answer = ⟨notFoundError, log, name⟩) ∨
      ∃ urlPrefix handler res, (route beyond table request.target).entry = some (urlPrefix, handler) ∧
        handler.handleRequest env log request = .ok res ∧ answer = answerOf handler env log name request res := by
  cases hr : (route beyond table request.target).entry with
  | none =>
    rw [constructResponse_of_no_entry hr] at h
    exact .inl ⟨rfl, (Except.ok.inj h).symm⟩
  | some entry =>
    rw [constructResponse_of_entry hr] at h
    obtain ⟨res, hres, he⟩ := map_eq_ok_iff.mp h
    exact .inr ⟨entry.1, entry.2, res, rfl, hres, he.symm⟩

end

theorem stripQuery_starts (target : Bytes) : stripQuery target <+: target := by
  unfold stripQuery
  split
  · exact List.prefix_refl _
  · split
    · exact List.prefix_refl _
    · exact List.take_prefix _ _

/-- A served prefix other than the root begins the target itself. -/
theorem starts_of_serves {urlPrefix target : Bytes} (h : Serves urlPrefix (routedTarget target))
    (hr : urlPrefix ≠ ascii "/") : urlPrefix <+: target := by
  rcases h with ⟨he, -⟩ | ⟨-, hp⟩
  · exact absurd he hr
  · have hs : urlPrefix <+: stripQuery target := by
      apply List.prefix_of_prefix_length_le ((List.prefix_append _ _).trans hp) (List.prefix_append _ _)
      have := hp.length_le
      simp only [routedTarget, List.length_append] at this
      omega
    exact hs.trans (stripQuery_starts target)

theorem eraseTrailingSlash_starts (s : Bytes) : eraseTrailingSlash s <+: s := by
  unfold eraseTrailingSlash
  split_ifs
  · exact List.dropLast_prefix s
  · exact List.prefix_refl s

private theorem eraseTrailingSlash_starts_erase {a s : Bytes} (h : a <+: s) :
    eraseTrailingSlash a <+: eraseTrailingSlash s := by
  obtain ⟨r, rfl⟩ := h
  rcases List.eq_nil_or_concat r with rfl | ⟨r, c, rfl⟩
  · simp
  · have hd : ∀ x : Bytes, x <+: a → x <+: eraseTrailingSlash (a ++ (r ++ [c])) := by
      intro x hx
      unfold eraseTrailingSlash
      rw [← List.append_assoc, List.dropLast_concat]
      split_ifs
      · exact hx.trans (List.prefix_append _ _)
      · exact (hx.trans (List.prefix_append _ _)).trans (List.prefix_append _ _)
    rw [List.concat_eq_append]
    exact hd _ (eraseTrailingSlash_starts a)

/-- The prefix a handler stores begins what the file handler removes it from. -/
theorem stored_starts_of_serves {urlPrefix target : Bytes} (h : Serves urlPrefix (routedTarget target)) :
    eraseTrailingSlash urlPrefix <+: eraseTrailingSlash target := by
  by_cases hr : urlPrefix = ascii "/"
  · rw [hr, show eraseTrailingSlash (ascii "/") = [] by decide]
    exact List.nil_prefix
  · exact eraseTrailingSlash_starts_erase (starts_of_serves h hr)

/-- A routed entry is in the table and serves the target. -/
theorem serves_of_route {beyond : Nat → Byte} {table : Table RequestHandler} {target : Bytes}
    {e : Bytes × RequestHandler} (h : (route beyond table target).entry = some e) :
    e ∈ table ∧ Serves e.1 (routedTarget target) := by
  rw [route_entry] at h
  obtain ⟨hm, hs⟩ := mem_of_bestMatch h
  exact ⟨hm, matchLength_pos.mp hs⟩

end Koko.Session
