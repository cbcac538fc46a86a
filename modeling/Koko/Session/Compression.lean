import Koko.Handlers.AcceptEncoding
import Koko.Lib.Lockstep
import Koko.Server.RegistrationSafety
import Koko.Session.RequestLog

/-! Compression is transparent: a server that compresses and one that serves the same locations
without compression give a client that decodes what it gets the same contents. -/
namespace Koko.Session
open Koko.Lib Koko.Http Koko.Config Koko.Handlers Koko.Server

def plainHandlerName (handlerName : Bytes) : Bytes :=
  if handlerName = ascii "CompressedFileHandler" then ascii "StaticHandler" else handlerName

/-- A location whose files would be compressed, with its files served as they are. -/
def uncompressed (s : NginxConfigStatement) : NginxConfigStatement :=
  match s.tokens with
  | [keyword, location, handlerName] =>
    if keyword = ascii "location" then .mk [keyword, location, plainHandlerName handlerName] s.childBlock else s
  | _ => s

/-- The handler that serves the same files as they are. -/
def plainHandler (handler : RequestHandler) : RequestHandler :=
  match handler.behaviour with
  | .compressedFile h => ⟨ascii "File", handler.keepAlive, .file h⟩
  | _ => handler

/-- What a client sees in the body, once it has undone the encoding the header names. -/
def decoded (gunzip : Bytes → Bytes) (res : Response) : Bytes :=
  if res.get? contentEncodingField = some (ascii "gzip") then gunzip res.body else res.body

/-- The second response has the contents of the first and, but for encoding and length, its
header. -/
structure SameContents (gunzip : Bytes → Bytes) (res plain : Response) : Prop where
  version : res.version = plain.version
  result : res.result = plain.result
  contents : decoded gunzip res = decoded gunzip plain
  framed : plain.Framed → res.Framed
  fields : ∀ name, iequals contentEncodingField name = false → iequals contentLengthField name = false →
    res.get? name = plain.get? name

theorem SameContents.refl (gunzip : Bytes → Bytes) (res : Response) : SameContents gunzip res res :=
  ⟨rfl, rfl, rfl, id, fun _ _ _ => rfl⟩

private theorem get?_congr (res : Response) {a b : Bytes} (h : iequals a b = true) : res.get? a = res.get? b := by
  simp only [iequals, decide_eq_true_eq] at h
  simp only [Response.get?, Fields.get?, iequals, h]

theorem SameContents.set {gunzip : Bytes → Bytes} {res plain : Response} (h : SameContents gunzip res plain)
    (value : Bytes) : SameContents gunzip (res.set connectionField value) (plain.set connectionField value) := by
  have hencoding : iequals connectionField contentEncodingField = false := by decide
  have hlength : iequals connectionField contentLengthField = false := by decide
  refine ⟨h.version, h.result, ?_, ?_, fun name he hl => ?_⟩
  · unfold decoded
    rw [Response.get?_set_of_ne _ _ hencoding, Response.get?_set_of_ne _ _ hencoding]
    exact h.contents
  · unfold Response.Framed
    rw [Response.get?_set_of_ne _ _ hlength, Response.get?_set_of_ne _ _ hlength]
    exact h.framed
  · cases hn : iequals connectionField name with
    | false => rw [Response.get?_set_of_ne _ _ hn, Response.get?_set_of_ne _ _ hn, h.fields name he hl]
    | true =>
      rw [← get?_congr _ hn, ← get?_congr _ hn, Response.get?_set_self, Response.get?_set_self]

theorem sameContents_compressResponse {gunzip gzip : Bytes → Bytes} (hg : Function.LeftInverse gunzip gzip) {res : Response}
    (hn : res.get? contentEncodingField = none) : SameContents gunzip (compressResponse gzip res) res := by
  have hencoding : (compressResponse gzip res).get? contentEncodingField = some (ascii "gzip") := by
    unfold compressResponse
    rw [Response.get?_set_of_ne _ _ (by decide), Response.get?_set_self]
  refine ⟨rfl, rfl, ?_, fun _ => Response.get?_set_self _ _ _, fun name he hl => ?_⟩
  · rw [decoded, if_pos hencoding, decoded, if_neg (by rw [hn]; simp)]
    exact hg res.body
  · unfold compressResponse
    rw [Response.get?_set_of_ne _ _ hl, Response.get?_set_of_ne _ _ he]
    rfl

/-- The plain handler throws when the handler does, and returns the same contents unless it is the
status page, which shows the names of the handlers. -/
theorem lockstep_handleRequest {gunzip : Bytes → Bytes} (handler : RequestHandler) {env : Environment}
    (hg : Function.LeftInverse gunzip env.gzip) (log log' : SharedLog) (request : Request) :
    Lockstep (fun res plain => res.result = plain.result ∧ (handler.behaviour ≠ .status → SameContents gunzip res plain))
      (handler.handleRequest env log request) ((plainHandler handler).handleRequest env log' request) := by
  have hself : ∀ x : Except Exn Response, Lockstep (fun res plain => res.result = plain.result ∧
      (handler.behaviour ≠ .status → SameContents gunzip res plain)) x x :=
    lockstep_self (fun res => ⟨rfl, fun _ => .refl gunzip res⟩)
  obtain ⟨name, keepAlive, behaviour⟩ := handler
  cases behaviour with
  | echo | sleepEcho | file h | notFound | proxy h | health => exact hself _
  | status =>
    have hresult : ∀ body, (okResponse textHtml body).result = 200 := fun _ => rfl
    exact ⟨(hresult _).trans (hresult _).symm, fun hn => absurd rfl hn⟩
  | compressedFile h =>
    change Lockstep _ (handleCompressedRequest env.gzip h env.fileSystem request) (h.handleRequest env.fileSystem request)
    rw [handleCompressedRequest_eq]
    cases hr : h.handleRequest env.fileSystem request with
    | error exn => rfl
    | ok res =>
      have hsame : SameContents gunzip
          (if toCompress request.fields = true then compressResponse env.gzip res else res) res := by
        split_ifs
        · exact sameContents_compressResponse hg (FileHandler.not_encoded hr)
        · exact .refl gunzip res
      exact ⟨hsame.result, fun _ => hsame⟩

section Tables
variable {H H' : Type} (f : H → H')

private theorem foldl_keepBest_map (target : Bytes) (table : Table H) (best : Option (Bytes × H)) :
    (table.map (Prod.map id f)).foldl (keepBest (matchLength target)) (best.map (Prod.map id f)) =
      (table.foldl (keepBest (matchLength target)) best).map (Prod.map id f) := by
  induction table generalizing best with
  | nil => rfl
  | cons e table ih =>
    have hkeep : keepBest (matchLength target) (best.map (Prod.map id f)) (Prod.map id f e) =
        (keepBest (matchLength target) best e).map (Prod.map id f) := by
      unfold keepBest
      have hbest : ((best.map (Prod.map id f)).map (matchLength target)).getD 0 = (best.map (matchLength target)).getD 0 := by
        cases best <;> rfl
      rw [hbest, show matchLength target (Prod.map id f e) = matchLength target e from rfl]
      split_ifs <;> rfl
    rw [List.map_cons, List.foldl_cons, List.foldl_cons, hkeep, ih]

/-- A table with other handlers under the same prefixes routes to the one that took the place. -/
theorem route_map (beyond : Nat → Byte) (table : Table H) (target : Bytes) :
    (route beyond (table.map (Prod.map id f)) target).entry =
      (route beyond table target).entry.map (Prod.map id f) := by
  rw [route_entry, route_entry, bestMatch, bestMatch, ← foldl_keepBest_map]
  rfl

end Tables

/-- The table with its files served as they are. -/
def plainTable (table : Table RequestHandler) : Table RequestHandler := table.map (Prod.map id plainHandler)

/-- What is registered, with the files served as they are. -/
def plainRegistered (registered : Registered) : Registered :=
  ⟨plainTable registered.urlToHandler, registered.urlToHandlerName.map (Prod.map id plainHandlerName)⟩

theorem createHandler_plain (urlPrefix handlerName : Bytes) (block : NginxConfig) :
    createHandler urlPrefix (plainHandlerName handlerName) block =
      (createHandler urlPrefix handlerName block).map (Option.map plainHandler) := by
  by_cases hn : handlerName = ascii "CompressedFileHandler"
  · rw [plainHandlerName, if_pos hn, hn]
    change (setKeepAliveFromConfig block).bind _ = ((setKeepAliveFromConfig block).bind _).map _
    cases setKeepAliveFromConfig block <;> rfl
  · rw [plainHandlerName, if_neg hn]
    unfold createHandler
    split_ifs
    all_goals first | rfl | (cases setKeepAliveFromConfig block <;> rfl)

theorem registerStatement_uncompressed (registered : Registered) (s : NginxConfigStatement) :
    registerStatement (plainRegistered registered) (uncompressed s) =
      (registerStatement registered s).map plainRegistered := by
  by_cases h : ∃ location name, Locates s location name
  · obtain ⟨location, name, h⟩ := h
    have hs : uncompressed s = .mk [ascii "location", location, plainHandlerName name] s.childBlock := by
      rw [uncompressed, show s.tokens = [ascii "location", location, name] from h]
      rfl
    have hplain : Locates (uncompressed s) location (plainHandlerName name) := by rw [hs]; rfl
    cases hp : registeredPrefix location with
    | none =>
      unfold registerStatement
      rw [show s.tokens = [ascii "location", location, name] from h,
        show (uncompressed s).tokens = [ascii "location", location, plainHandlerName name] from hplain]
      simp [hp]
    | some urlPrefix =>
      rw [registerStatement_of_locates _ h hp, registerStatement_of_locates _ hplain hp,
        show (uncompressed s).childBlock = s.childBlock by rw [hs]; rfl]
      cases s.childBlock with
      | none => rfl
      | some block =>
        rw [Option.bind_some, Option.bind_some, createHandler_plain]
        cases createHandler urlPrefix name block with
        | none => rfl
        | some created =>
          cases created with
          | none => simp [plainRegistered, plainTable]
          | some handler => simp [plainRegistered, plainTable]
  · simp only [not_exists] at h
    have hs : uncompressed s = s := by
      unfold uncompressed
      split
      · rename_i keyword location name ht
        exact if_neg (fun hk => h location name (by rw [Locates, ht, hk]))
      · rfl
    rw [hs, registerStatement_of_not_locates _ h, registerStatement_of_not_locates _ h]
    rfl

theorem createAllHandlers_uncompressed (config : NginxConfig) (names : List (Bytes × Bytes)) :
    createAllHandlers (config.map uncompressed) (names.map (Prod.map id plainHandlerName)) =
      (createAllHandlers config names).map plainRegistered := by
  have hfold : ∀ registered : Registered, (config.map uncompressed).foldlM registerStatement (plainRegistered registered) =
      (config.foldlM registerStatement registered).map plainRegistered := by
    induction config with
    | nil => exact fun registered => rfl
    | cons s config ih =>
      intro registered
      rw [List.map_cons, List.foldlM_cons, List.foldlM_cons, registerStatement_uncompressed]
      cases registerStatement registered s with
      | none => rfl
      | some next => exact ih next
  exact hfold ⟨[], names⟩

/-- The request is one for the status page. -/
def AsksStatus (beyond : Nat → Byte) (table : Table RequestHandler) (a : Arrival) : Prop :=
  ∃ e, (route beyond table a.request.target).entry = some e ∧ e.2.behaviour = .status

/-- What was answered is the same, request by request, but for the names on status pages. -/
structure SameAnswers (beyond : Nat → Byte) (table : Table RequestHandler) (gunzip : Bytes → Bytes) (s plain : Service) :
    Prop where
  urlInfo : s.log.urlInfo = plain.log.urlInfo
  answered : List.Forall₂ (fun e e' => e.1 = e'.1 ∧ e.2.result = e'.2.result ∧
    (¬ AsksStatus beyond table e.1 → SameContents gunzip e.2 e'.2)) s.answered plain.answered

section Runs
variable {beyond : Nat → Byte} {table : Table RequestHandler} {gunzip : Bytes → Bytes} {s plain : Service}

private theorem serve_eq_map (table : Table RequestHandler) (s : Service) (a : Arrival) :
    s.serve beyond table a =
      (constructResponse beyond table a.env s.log (s.names a.session) a.request).map (fun answer =>
        ⟨Function.update s.names a.session answer.name, answer.log, s.answered ++ [(a, answer.response)]⟩) := by
  unfold Service.serve
  cases constructResponse beyond table a.env s.log (s.names a.session) a.request <;> rfl

private theorem keepAlive_plainHandler (handler : RequestHandler) : (plainHandler handler).keepAlive = handler.keepAlive := by
  unfold plainHandler
  split <;> rfl

/-- The answers made from the responses of a handler and of the plain one. -/
theorem lockstep_answers (handler : RequestHandler) {env : Environment} (hg : Function.LeftInverse gunzip env.gzip)
    {log log' : SharedLog} (hlog : log.urlInfo = log'.urlInfo) (name name' : Bytes) (request : Request) :
    Lockstep (fun answer answer' : Answer => answer.log.urlInfo = answer'.log.urlInfo ∧
        answer.response.result = answer'.response.result ∧
        (handler.behaviour ≠ .status → SameContents gunzip answer.response answer'.response))
      ((handler.handleRequest env log request).map (answerOf handler env log name request))
      (((plainHandler handler).handleRequest env log' request).map (answerOf (plainHandler handler) env log' name' request)) := by
  refine (lockstep_handleRequest handler hg log log' request).map ?_
  rintro res res' - - ⟨hresult, hsame⟩
  refine ⟨?_, hresult, fun hb => ?_⟩
  · change log.urlInfo ++ [⟨request.target, res.result, env.now⟩] = log'.urlInfo ++ [⟨request.target, res'.result, env.now⟩]
    rw [hlog, hresult]
  · unfold answerOf finalResponse
    rw [keepAlive_plainHandler]
    exact (hsame hb).set _

/-- One request, answered by both. -/
theorem lockstep_serve (h : SameAnswers beyond table gunzip s plain) {a : Arrival}
    (hg : Function.LeftInverse gunzip a.env.gzip) :
    Lockstep (SameAnswers beyond table gunzip) (s.serve beyond table a) (plain.serve beyond (plainTable table) a) := by
  have hroute : (route beyond (plainTable table) a.request.target).entry = _ :=
    route_map plainHandler beyond table a.request.target
  rw [serve_eq_map, serve_eq_map]
  cases hr : (route beyond table a.request.target).entry with
  | none =>
    rw [hr, Option.map_none] at hroute
    rw [constructResponse_of_no_entry hr, constructResponse_of_no_entry hroute]
    exact ⟨h.urlInfo, List.rel_append h.answered (.cons ⟨rfl, rfl, fun _ => .refl gunzip _⟩ .nil)⟩
  | some e =>
    obtain ⟨urlPrefix, handler⟩ := e
    rw [hr, Option.map_some] at hroute
    rw [constructResponse_of_entry hr, constructResponse_of_entry hroute]
    refine (lockstep_answers handler hg h.urlInfo (s.names a.session) (plain.names a.session) a.request).map ?_
    rintro answer answer' - - ⟨hlog, hresult, hsame⟩
    refine ⟨hlog, List.rel_append h.answered (.cons ⟨rfl, hresult, fun hn => hsame fun hb => hn ?_⟩ .nil)⟩
    exact ⟨_, hr, hb⟩

end Runs

/-- Let a configuration be served by one server, and by another one with the files of all its
locations served as they are. On any requests the two throw together, record the same, and answer
with the same status, header and contents; only status pages, which name the handlers, can differ. -/
theorem compression_transparent {config : NginxConfig} {registered : Registered}
    (h : createAllHandlers config [] = some registered) :
    ∃ plain, createAllHandlers (config.map uncompressed) [] = some plain ∧
      ∀ (beyond : Nat → Byte) (gunzip : Bytes → Bytes) (names : Nat → Bytes) (arrivals : List Arrival),
        (∀ a ∈ arrivals, Function.LeftInverse gunzip a.env.gzip) →
          Lockstep (SameAnswers beyond registered.urlToHandler gunzip)
            (Service.serveAll beyond registered.urlToHandler ⟨names, ⟨[], registered.urlToHandlerName⟩, []⟩ arrivals)
            (Service.serveAll beyond plain.urlToHandler ⟨names, ⟨[], plain.urlToHandlerName⟩, []⟩ arrivals) := by
  have hplain := createAllHandlers_uncompressed config []
  rw [h] at hplain
  refine ⟨_, hplain, fun beyond gunzip names arrivals hg => ?_⟩
  have hstart : SameAnswers beyond registered.urlToHandler gunzip ⟨names, ⟨[], registered.urlToHandlerName⟩, []⟩
      ⟨names, ⟨[], (plainRegistered registered).urlToHandlerName⟩, []⟩ := ⟨rfl, .nil⟩
  refine lockstep_foldlM ?_ hstart
  intro s plain a ha hs
  exact lockstep_serve hs (hg a ha)

/-- A location with compressed files. -/
def pagesConfig : NginxConfig :=
  [.mk [ascii "location", ascii "/pages", ascii "CompressedFileHandler"] (some [.mk [ascii "root", ascii "/srv"] none])]

def pagesRegistered : Registered :=
  ⟨[(ascii "/pages", ⟨ascii "CompressedFileHandler", false, .compressedFile ⟨ascii "/pages", ascii "/srv", false⟩⟩)],
    [(ascii "/pages", ascii "CompressedFileHandler")]⟩

/-- A page and its compressed form; other contents are only marked. -/
def textPage : Bytes := ascii "aaaaaaaaaaaaaaaa"

def compressedPage : Bytes :=
  [31, 139, 8, 0, 0, 0, 0, 0, 2, 255, 75, 76, 68, 5, 0, 213, 104, 214, 207, 16, 0, 0, 0]

def pageGzip (contents : Bytes) : Bytes := if contents = textPage then compressedPage else 0 :: contents

def pageGunzip (coded : Bytes) : Bytes := if coded = compressedPage then textPage else coded.tail

def pageEnvironment : Environment :=
  { idleEnvironment with
    fileSystem := fun path =>
      if path = ascii "/srv" then .directory else if path = ascii "/srv/page.txt" then .regular textPage else .missing
    gzip := pageGzip }

def pageArrival : Arrival :=
  ⟨0, pageEnvironment, ⟨ascii "GET", ascii "/pages/page.txt", 11, [(acceptEncodingField, ascii "gzip")], []⟩⟩

theorem leftInverse_pageGunzip : Function.LeftInverse pageGunzip pageGzip := by
  intro contents
  unfold pageGzip
  split_ifs with h
  · rw [pageGunzip, if_pos rfl, h]
  · rw [pageGunzip, if_neg (by simp [compressedPage])]
    rfl

/-- The page, sent compressed and sent as it is. -/
theorem compressed_page_transparent :
    ∃ plain t t', createAllHandlers pagesConfig [] = some pagesRegistered ∧
      createAllHandlers (pagesConfig.map uncompressed) [] = some plain ∧
      Service.serveAll (fun _ => 0) pagesRegistered.urlToHandler
        ⟨fun _ => [], ⟨[], pagesRegistered.urlToHandlerName⟩, []⟩ [pageArrival] = .ok t ∧
      Service.serveAll (fun _ => 0) plain.urlToHandler ⟨fun _ => [], ⟨[], plain.urlToHandlerName⟩, []⟩
        [pageArrival] = .ok t' ∧
      t.answered.map (fun e => e.2.body) = [compressedPage] ∧ t'.answered.map (fun e => e.2.body) = [textPage] ∧
      SameAnswers (fun _ => 0) pagesRegistered.urlToHandler pageGunzip t t' := by
  have hpages : createAllHandlers pagesConfig [] = some pagesRegistered := rfl
  obtain ⟨plain, hplain, hruns⟩ := compression_transparent hpages
  have hrun := hruns (fun _ => 0) pageGunzip (fun _ => []) [pageArrival]
    (fun a ha => by rw [List.mem_singleton.mp ha]; exact leftInverse_pageGunzip)
  obtain rfl : plainRegistered pagesRegistered = plain := Option.some.inj hplain
  exact ⟨_, _, _, hpages, hplain, rfl, rfl, by decide +kernel, by decide +kernel, hrun⟩

end Koko.Session
