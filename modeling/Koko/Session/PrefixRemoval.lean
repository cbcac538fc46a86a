import Koko.Session.FileServing

/-! The prefix a routed handler stores can be removed from the target it was routed by: the
matching on a shortened copy of the target and the removal from the target itself agree. -/
namespace Koko.Session
open Koko.Lib Koko.Http Koko.Config Koko.Handlers Koko.Server

theorem createHandler_proxy {urlPrefix handlerName : Bytes} {subconfig : NginxConfig} {handler : RequestHandler}
    (h : createHandler urlPrefix handlerName subconfig = some (some handler)) {proxy : ProxyRequestHandler}
    (hb : handler.behaviour = .proxy proxy) : proxy.urlPrefix = eraseTrailingSlash urlPrefix := by
  have hproxy : proxy = ProxyRequestHandler.new urlPrefix subconfig := by
    have hcases := createHandler_cases h
    rw [hb] at hcases
    simpa using (hcases.resolve_left (by simp)).2
  rw [hproxy, ProxyRequestHandler.urlPrefix_new]

private theorem answerFor_ne_outOfRange (path : Bytes) (status : FileStatus) :
    FileHandler.answerFor path status ≠ .error .outOfRange := by
  cases status with
  | regular content =>
    rw [FileHandler.answerFor]
    split_ifs <;> simp
  | _ => simp [FileHandler.answerFor]

namespace FileRoute
variable {beyond : Nat → Byte} {table : Table RequestHandler} {target : Bytes}

private theorem file_ne_outOfRange {request : Request} (r : FileRoute beyond table request.target) (fs : FileSystem) :
    r.file.handleRequest fs request ≠ .error .outOfRange := by
  cases hi : r.file.invalidConfig with
  | true => simp [FileHandler.handleRequest, hi]
  | false =>
    rw [FileHandler.handleRequest_eq hi r.filepath_eq]
    split <;> exact answerFor_ne_outOfRange _ _

theorem handleRequest_ne_outOfRange {request : Request} (r : FileRoute beyond table request.target) (env : Environment)
    (log : SharedLog) : r.handler.handleRequest env log request ≠ .error .outOfRange := by
  have hfile := r.file_ne_outOfRange env.fileSystem
  unfold RequestHandler.handleRequest
  rcases r.behaves with hb | hb
  · rw [hb]
    exact hfile
  · rw [hb]
    change handleCompressedRequest env.gzip r.file env.fileSystem request ≠ _
    rw [handleCompressedRequest_eq]
    cases hf : r.file.handleRequest env.fileSystem request with
    | error exn =>
      rw [hf] at hfile
      exact hfile
    | ok res => exact nofun

end FileRoute

theorem upstreamTarget_ok {h : ProxyRequestHandler} {target : Bytes} (hl : h.urlPrefix.length ≤ target.length) :
    ∃ upstream, h.upstreamTarget target = .ok upstream := by
  unfold ProxyRequestHandler.upstreamTarget
  rw [if_neg (by omega)]
  dsimp only
  split_ifs <;> exact ⟨_, rfl⟩

private theorem proxyReq_ne_outOfRange {h : ProxyRequestHandler} {request : Request}
    (hl : h.urlPrefix.length ≤ request.target.length) : h.proxyReq request ≠ .error .outOfRange := by
  obtain ⟨upstream, hu⟩ := upstreamTarget_ok hl
  unfold ProxyRequestHandler.proxyReq
  rw [hu]
  simp only [bind, Except.bind, prepareRequest]
  split_ifs <;> simp

/-- The table of a configuration routes a request to a file or proxy handler only if the target
begins with the prefix the handler stores, and the removal of it never throws. -/
theorem routed_prefix_removable {config : NginxConfig} {names : List (Bytes × Bytes)} {registered : Registered}
    (h : createAllHandlers config names = some registered) (beyond : Nat → Byte) (request : Request)
    {e : Bytes × RequestHandler} (hr : (route beyond registered.urlToHandler request.target).entry = some e) :
    (∀ file, e.2.behaviour = .file file ∨ e.2.behaviour = .compressedFile file →
      file.urlPrefix <+: request.target ∧ file.urlPrefix.length ≤ (eraseTrailingSlash request.target).length ∧
        (∃ path, file.filepath request.target = .ok path) ∧
        ∀ env log, e.2.handleRequest env log request ≠ .error .outOfRange) ∧
    (∀ proxy, e.2.behaviour = .proxy proxy →
      proxy.urlPrefix <+: request.target ∧ proxy.urlPrefix.length ≤ request.target.length ∧
        (∃ upstream, proxy.upstreamTarget request.target = .ok upstream) ∧
        proxy.proxyReq request ≠ .error .outOfRange) := by
  obtain ⟨hmem, hserves⟩ := serves_of_route hr
  obtain ⟨handlerName, block, hcreated⟩ := created_createAllHandlers h e hmem
  constructor
  · intro file hb
    let r : FileRoute beyond registered.urlToHandler request.target :=
      ⟨e.1, handlerName, block, e.2, file, hcreated, hb, hr⟩
    have hstarts := r.stored_starts.trans (eraseTrailingSlash_starts request.target)
    exact ⟨hstarts, r.stored_starts.length_le, ⟨_, r.filepath_eq⟩, r.handleRequest_ne_outOfRange⟩
  · intro proxy hb
    have hstarts : proxy.urlPrefix <+: request.target := by
      rw [createHandler_proxy hcreated hb]
      exact (stored_starts_of_serves hserves).trans (eraseTrailingSlash_starts request.target)
    exact ⟨hstarts, hstarts.length_le, upstreamTarget_ok hstarts.length_le, proxyReq_ne_outOfRange hstarts.length_le⟩

/-- A static location asked for itself, with a trailing slash in both texts. -/
theorem static_prefix_removable :
    ∃ registered e file,
      createAllHandlers [.mk [ascii "location", ascii "/static/", ascii "StaticHandler"] (some staticBlock)] [] =
        some registered ∧
      (route (fun _ => 0) registered.urlToHandler (ascii "/static/")).entry = some e ∧
      e.2.behaviour = .file file ∧ file.urlPrefix <+: ascii "/static/" ∧
      file.urlPrefix.length ≤ (eraseTrailingSlash (ascii "/static/")).length := by
  have h : createAllHandlers [.mk [ascii "location", ascii "/static/", ascii "StaticHandler"] (some staticBlock)] [] =
      some ⟨staticTable, [(ascii "/static", ascii "StaticHandler")]⟩ := by
    rfl
  have hr : (route (fun _ => 0) staticTable (getRequest (ascii "/static/")).target).entry =
      some (ascii "/static", staticHandler) := by
    decide
  obtain ⟨hstarts, hlength, -⟩ := (routed_prefix_removable h (fun _ => 0) _ hr).1 staticFile (.inl rfl)
  exact ⟨_, _, staticFile, h, hr, rfl, hstarts, hlength⟩

end Koko.Session
