import Koko.Config.Tree
import Koko.Handlers.Handler
import Koko.Lib.ReplaceAll

/-! `ProxyRequestHandler`: the request is sent on to the configured host, and links in
the answer are made relative to the proxy. The network is a parameter. -/
namespace Koko.Handlers
open Koko.Lib Koko.Http Koko.Config

/-- Codes that tell apart what the exchange tests for. -/
inductive ErrorCode where
  | success | notConnected | other
deriving DecidableEq

/-- What the network does in one exchange; a failing read may leave part of a response. -/
structure Exchange where
  resolves : Bool
  connects : Bool
  writes : Bool
  readResult : ErrorCode
  response : Response
  shutdownResult : ErrorCode
deriving DecidableEq

/-- The network: host, port and request decide an exchange. -/
abbrev Network := Bytes → Bytes → Request → Exchange

structure ProxyRequestHandler where
  urlPrefix : Bytes
  proxyDest : Bytes
  mPort : Bytes
  invalidConfig : Bool
deriving DecidableEq

/-- The bytes of a C string: those before the first NUL. -/
def cStr (s : Bytes) : Bytes := s.takeWhile (· ≠ 0)

/-- The statements named `dest` and `port`; `at` throws on a missing token. -/
def readDestPort : NginxConfig → Bytes × Bytes → Option (Bytes × Bytes)
  | [], found => some found
  | statement :: rest, (proxyDest, mPort) => do
    let name ← statement.tokens[0]?
    let proxyDest ← if cStr name = ascii "dest" then statement.tokens[1]? else some proxyDest
    let mPort ← if cStr name = ascii "port" then statement.tokens[1]? else some mPort
    readDestPort rest (proxyDest, mPort)

/-- A `TRACE` request must not have a body; methods that may have one announce its length. -/
def prepareRequest (request : Request) : Except Exn Request :=
  if request.method = ascii "TRACE" ∧ request.body ≠ [] then .error .invalidArgument
  else if request.body ≠ [] ∨ request.method ∈ [ascii "OPTIONS", ascii "PUT", ascii "POST"] then
    .ok { request with fields := request.fields.set contentLengthField (decimal request.body.length) }
  else .ok request

theorem target_of_prepareRequest {request r : Request} (h : prepareRequest request = .ok r) : r.target = request.target := by
  unfold prepareRequest at h
  split_ifs at h
  · obtain rfl := Except.ok.inj h
    rfl
  · obtain rfl := Except.ok.inj h
    rfl

theorem prepareRequest_ok {request : Request} (h : request.method = ascii "TRACE" → request.body = []) :
    ∃ r, prepareRequest request = .ok r := by
  unfold prepareRequest
  rw [if_neg (fun hn => hn.2 (h hn.1))]
  split_ifs
  · exact ⟨_, rfl⟩
  · exact ⟨_, rfl⟩

/-- Results whose body must be empty for `prepare_payload` to succeed. -/
def bodilessResults : List Nat := [100, 101, 102, 204, 304]

/-- The known results of the redirection class. -/
def redirectionResults : List Nat := [300, 301, 302, 303, 304, 305, 307, 308]

/-- The second error code overwrites that of the read. -/
def reqSynchronous (exchange : Exchange) : Except Exn Response :=
  if !exchange.resolves then .error .systemError
  else if !exchange.connects then .error .systemError
  else if !exchange.writes then .error .systemError
  else
    let ec := exchange.shutdownResult
    if ec ≠ .success ∧ ec ≠ .notConnected then .error .systemError
    else if exchange.response.result ∈ bodilessResults ∧ exchange.response.body ≠ [] then .error .invalidArgument
    else .ok exchange.response.preparePayload

/-- The eight global replacements of `replace_relative_html_links`. -/
def replaceRelativeHtmlLinks (urlPrefix body : Bytes) : Bytes :=
  if urlPrefix = ascii "/" ∨ urlPrefix = [] then body
  else
    let encodedPrefix := replaceAll (ascii "/") (ascii "\\2f") urlPrefix
    let body := replaceAll (ascii "href=\"/") (ascii "href=\"" ++ urlPrefix ++ ascii "/") body
    let body := replaceAll (ascii "src=\"/") (ascii "src=\"" ++ urlPrefix ++ ascii "/") body
    let body := replaceAll (ascii "url(\"/") (ascii "url(\"" ++ urlPrefix ++ ascii "/") body
    let body := replaceAll (ascii "url(\\2f") (ascii "url(" ++ encodedPrefix ++ ascii "\\2f") body
    let body := replaceAll (ascii "href=\"" ++ urlPrefix ++ ascii "//") (ascii "href=\"//") body
    let body := replaceAll (ascii "src=\"" ++ urlPrefix ++ ascii "//") (ascii "src=\"//") body
    let body := replaceAll (ascii "url(\"" ++ urlPrefix ++ ascii "//") (ascii "url(\"//") body
    replaceAll (ascii "url(" ++ encodedPrefix ++ ascii "\\2f\\2f") (ascii "url(\\2f\\2f") body

namespace ProxyRequestHandler

def new (urlPrefix : Bytes) (config : NginxConfig) : ProxyRequestHandler :=
  match readDestPort config ([], []) with
  | some (proxyDest, mPort) => ⟨eraseTrailingSlash urlPrefix, proxyDest, mPort, proxyDest = [] ∨ mPort = []⟩
  | none => ⟨eraseTrailingSlash urlPrefix, [], [], true⟩

@[simp] theorem urlPrefix_new (urlPrefix : Bytes) (config : NginxConfig) :
    (new urlPrefix config).urlPrefix = eraseTrailingSlash urlPrefix := by
  unfold new
  split <;> rfl

/-- The target asked of the upstream host. -/
def upstreamTarget (h : ProxyRequestHandler) (target : Bytes) : Except Exn Bytes :=
  if target.length < h.urlPrefix.length then .error .outOfRange
  else
    let target := target.drop h.urlPrefix.length
    let target := if target = [] then ascii "/" else target
    if target.head? ≠ some (chr '/') then .ok (ascii "/" ++ target) else .ok target

/-- The request sent on, before it is written. -/
def proxyReq (h : ProxyRequestHandler) (request : Request) : Except Exn Request := do
  let target ← h.upstreamTarget request.target
  prepareRequest { request with
    target := target
    fields := (request.fields.set hostField h.proxyDest).set acceptEncodingField (ascii "identity") }

/-- A redirect that says where to. -/
def isRedirect (res : Response) : Bool := res.result ∈ redirectionResults ∧ (res.get? locationField).isSome

def isHtml (res : Response) : Bool :=
  match res.get? contentTypeField with
  | some contentType => textHtml <:+: contentType
  | none => false

/-- What is sent to the client for an upstream response. -/
def rewriteResponse (h : ProxyRequestHandler) (res : Response) : Response :=
  if isRedirect res then
    let location := (res.get? locationField).getD []
    res.set locationField (if location.head? = some (chr '/') then h.urlPrefix ++ location else location)
  else if isHtml res then { res with body := replaceRelativeHtmlLinks h.urlPrefix res.body }
  else res

/-- The response, and the request that was written upstream if any was. -/
def handleRequest (h : ProxyRequestHandler) (network : Network) (request : Request) : Response × Option Request :=
  if h.invalidConfig then (internalServerError, none)
  else
    match h.proxyReq request with
    | .error _ => (internalServerError, none)
    | .ok proxyReq =>
      let exchange := network h.proxyDest h.mPort proxyReq
      let sent := if exchange.resolves ∧ exchange.connects then some proxyReq else none
      match reqSynchronous exchange with
      | .error _ => (internalServerError, sent)
      | .ok res => (h.rewriteResponse res, sent)

theorem upstreamTarget_append (h : ProxyRequestHandler) {u : Bytes} (hu : u.head? = some (chr '/')) :
    h.upstreamTarget (h.urlPrefix ++ u) = .ok u := by
  have hne : u ≠ [] := by
    rintro rfl
    simp at hu
  unfold upstreamTarget
  rw [if_neg (by simp)]
  simp [hne, hu]

/-- The request for a target under the prefix asks the upstream host for the rest of it. -/
theorem proxyReq_target {h : ProxyRequestHandler} {request r : Request} {u : Bytes} (hu : u.head? = some (chr '/'))
    (ht : request.target = h.urlPrefix ++ u) (hr : h.proxyReq request = .ok r) : r.target = u := by
  unfold proxyReq at hr
  rw [ht, upstreamTarget_append h hu] at hr
  exact target_of_prepareRequest hr

theorem proxyReq_ok {h : ProxyRequestHandler} {request : Request} {u : Bytes} (hu : u.head? = some (chr '/'))
    (ht : request.target = h.urlPrefix ++ u) (hb : request.method = ascii "TRACE" → request.body = []) :
    ∃ r, h.proxyReq request = .ok r := by
  unfold proxyReq
  rw [ht, upstreamTarget_append h hu]
  exact prepareRequest_ok hb

/-- Only the prepared request is ever written upstream, and it is once there is a connection. -/
theorem sent_iff (h : ProxyRequestHandler) (network : Network) (request r : Request) :
    (h.handleRequest network request).2 = some r ↔
      h.invalidConfig = false ∧ h.proxyReq request = .ok r ∧
        (network h.proxyDest h.mPort r).resolves = true ∧ (network h.proxyDest h.mPort r).connects = true := by
  unfold handleRequest
  cases h.invalidConfig with
  | true => simp
  | false =>
    cases h.proxyReq request with
    | error e => simp
    | ok proxyReq =>
      have hsent : (if (network h.proxyDest h.mPort proxyReq).resolves ∧ (network h.proxyDest h.mPort proxyReq).connects
          then some proxyReq else none) = some r ↔ proxyReq = r ∧
            (network h.proxyDest h.mPort r).resolves = true ∧ (network h.proxyDest h.mPort r).connects = true := by
        split_ifs with hc
        · constructor
          · rintro ⟨rfl⟩
            exact ⟨rfl, hc⟩
          · rintro ⟨rfl, -⟩
            rfl
        · refine iff_of_false (by simp) ?_
          rintro ⟨rfl, hn⟩
          exact hc hn
      simp only [Bool.false_eq_true, if_false, true_and, Except.ok.injEq]
      rw [← hsent]
      cases reqSynchronous (network h.proxyDest h.mPort proxyReq) with
      | error e => rfl
      | ok res => rfl

/-- A redirect to a path of the upstream site is sent to the path under the proxy, and any other
stays as it is. -/
theorem location_rewriteResponse (h : ProxyRequestHandler) {page : Response} {u : Bytes}
    (hr : page.result ∈ redirectionResults) (hl : page.get? locationField = some u) :
    (h.rewriteResponse page).get? locationField =
      some (if u.head? = some (chr '/') then h.urlPrefix ++ u else u) := by
  have hred : isRedirect page = true := by simp [isRedirect, hr, hl]
  unfold rewriteResponse
  rw [if_pos hred, Response.get?_set_self, hl]
  rfl

end ProxyRequestHandler
end Koko.Handlers
