import Koko.Handlers.Dispatch
import Koko.Handlers.LinkRewriting

/-! When the length header of a response tells the size of its body: for every handler
and every request, except a page whose links the proxy rewrites. -/
namespace Koko.Handlers
open Koko.Lib Koko.Http

/-- The upstream response is taken up: the read's own error is not asked for. -/
def Exchange.Completes (e : Exchange) : Prop :=
  (e.resolves = true ∧ e.connects = true ∧ e.writes = true) ∧
    (e.shutdownResult = .success ∨ e.shutdownResult = .notConnected) ∧
    (e.response.result ∈ bodilessResults → e.response.body = [])

theorem reqSynchronous_eq_ok_iff {e : Exchange} {res : Response} :
    reqSynchronous e = .ok res ↔ e.Completes ∧ res = e.response.preparePayload := by
  unfold reqSynchronous Exchange.Completes
  simp only [Bool.not_eq_true']
  split_ifs with hresolves hconnects hwrites hshutdown hbody
  · simp [hresolves]
  · simp [hconnects]
  · simp [hwrites]
  · refine iff_of_false (by simp) ?_
    rintro ⟨⟨-, hs | hs, -⟩, -⟩
    · exact hshutdown.1 hs
    · exact hshutdown.2 hs
  · refine iff_of_false (by simp) ?_
    rintro ⟨⟨-, -, hb⟩, -⟩
    exact hbody.2 (hb hbody.1)
  · simp only [Bool.not_eq_false] at hresolves hconnects hwrites
    have hs : e.shutdownResult = .success ∨ e.shutdownResult = .notConnected :=
      or_iff_not_and_not.mpr hshutdown
    have hb : e.response.result ∈ bodilessResults → e.response.body = [] :=
      fun hr => not_not.mp (fun hn => hbody ⟨hr, hn⟩)
    rw [Except.ok.injEq, eq_comm]
    exact (and_iff_right ⟨⟨hresolves, hconnects, hwrites⟩, hs, hb⟩).symm

namespace ProxyRequestHandler

@[simp] theorem isRedirect_preparePayload (res : Response) : isRedirect res.preparePayload = isRedirect res := by
  unfold isRedirect Response.preparePayload
  rw [Response.get?_set_of_ne _ _ (by decide), Response.result_set]

@[simp] theorem isHtml_preparePayload (res : Response) : isHtml res.preparePayload = isHtml res := by
  unfold isHtml Response.preparePayload
  rw [Response.get?_set_of_ne _ _ (by decide)]

/-- The upstream page is rewritten to another length: it has a root-relative link, or the prefix
is one that misleads the replacements and they do not balance. -/
def Resizes (h : ProxyRequestHandler) (page : Response) : Prop :=
  isRedirect page = false ∧ isHtml page = true ∧ h.urlPrefix ≠ [] ∧ h.urlPrefix ≠ ascii "/" ∧
    (PlainPrefix h.urlPrefix → HasRootLink page.body) ∧
    (¬ PlainPrefix h.urlPrefix →
      (replaceRelativeHtmlLinks h.urlPrefix page.body).length ≠ page.body.length)

private theorem resized_iff (h : ProxyRequestHandler) {page : Response} (hr : isRedirect page = false)
    (hh : isHtml page = true) :
    (replaceRelativeHtmlLinks h.urlPrefix page.body).length ≠ page.body.length ↔ h.Resizes page := by
  unfold Resizes
  by_cases hroot : h.urlPrefix = ascii "/" ∨ h.urlPrefix = []
  · rw [replaceRelativeHtmlLinks, if_pos hroot]
    rcases hroot with he | he <;> simp [he]
  · rw [not_or] at hroot
    by_cases hp : PlainPrefix h.urlPrefix
    · rw [replaceRelativeHtmlLinks_eq hp hroot.1, ne_eq, length_insertAtLinks_iff hp]
      simp [hr, hh, hroot, hp]
    · simp [hr, hh, hroot, hp]

/-- Without its leading slash a prefix is also taken out where the page spells it: the one link
grows by as much as the other shrinks. -/
example : (replaceRelativeHtmlLinks (ascii "x") (ascii "href=\"/a\" href=\"x//b\"")).length = 21 ∧
    (ascii "href=\"/a\" href=\"x//b\"").length = 21 := by decide

theorem not_resizes_of_untouched {h : ProxyRequestHandler} {page : Response}
    (hu : Untouched h.urlPrefix page.body) : ¬ h.Resizes page := by
  intro hs
  apply (resized_iff h hs.1 hs.2.1).mpr hs
  rw [replaceRelativeHtmlLinks_of_untouched hu]

/-- The client's response keeps the framing of the upstream response unless it is resized. -/
theorem framed_rewriteResponse_iff (h : ProxyRequestHandler) (page : Response) :
    (h.rewriteResponse page.preparePayload).Framed ↔ ¬ h.Resizes page := by
  unfold rewriteResponse
  rw [isRedirect_preparePayload, isHtml_preparePayload]
  cases hr : isRedirect page with
  | true =>
    refine iff_of_true ((Response.framed_preparePayload page).set _ (by decide)) ?_
    simp [Resizes, hr]
  | false =>
    cases hh : isHtml page with
    | false =>
      refine iff_of_true (Response.framed_preparePayload page) ?_
      simp [Resizes, hh]
    | true =>
      rw [← resized_iff h hr hh, ne_eq, not_not]
      have hlen : page.preparePayload.get? contentLengthField = some (decimal page.body.length) :=
        Response.framed_preparePayload page
      constructor
      · intro hf
        have he : some (decimal page.body.length) =
            some (decimal (replaceRelativeHtmlLinks h.urlPrefix page.body).length) := hlen.symm.trans hf
        exact (decimal_inj (Option.some.inj he)).symm
      · intro hl
        refine hlen.trans ?_
        rw [← hl]
        rfl

/-- The exchange this request leads to, if it is sent on at all. -/
def exchangeFor (h : ProxyRequestHandler) (network : Network) (request : Request) : Option Exchange :=
  if h.invalidConfig then none
  else
    match h.proxyReq request with
    | .ok proxyReq => some (network h.proxyDest h.mPort proxyReq)
    | .error _ => none

/-- The response is the prepared error, or the rewritten answer of a completed exchange. -/
theorem handleRequest_cases (h : ProxyRequestHandler) (network : Network) (request : Request) :
    (∃ e, h.exchangeFor network request = some e ∧ e.Completes ∧
      (h.handleRequest network request).1 = h.rewriteResponse e.response.preparePayload) ∨
    ((∀ e, h.exchangeFor network request = some e → ¬ e.Completes) ∧
      (h.handleRequest network request).1 = internalServerError) := by
  unfold handleRequest exchangeFor
  cases h.invalidConfig with
  | true => simp
  | false =>
    cases h.proxyReq request with
    | error e => simp
    | ok proxyReq =>
      simp only [Bool.false_eq_true, if_false, Option.some.injEq]
      cases hs : reqSynchronous (network h.proxyDest h.mPort proxyReq) with
      | ok res =>
        obtain ⟨hc, rfl⟩ := reqSynchronous_eq_ok_iff.mp hs
        exact .inl ⟨_, rfl, hc, rfl⟩
      | error e =>
        refine .inr ⟨?_, rfl⟩
        rintro e rfl hc
        rw [reqSynchronous_eq_ok_iff.mpr ⟨hc, rfl⟩] at hs
        cases hs

/-- The answer of a completed exchange is rewritten. -/
theorem response_of_exchange {h : ProxyRequestHandler} {network : Network} {request : Request} {e : Exchange}
    (he : h.exchangeFor network request = some e) (hc : e.Completes) :
    (h.handleRequest network request).1 = h.rewriteResponse e.response.preparePayload := by
  obtain ⟨e', he', -, hres⟩ | ⟨hn, -⟩ := h.handleRequest_cases network request
  · obtain rfl : e' = e := Option.some.inj (he'.symm.trans he)
    exact hres
  · exact absurd hc (hn e he)

theorem response_of_no_exchange {h : ProxyRequestHandler} {network : Network} {request : Request}
    (hn : ∀ e, h.exchangeFor network request = some e → ¬ e.Completes) :
    (h.handleRequest network request).1 = internalServerError := by
  obtain ⟨e, he, hc, -⟩ | ⟨-, hres⟩ := h.handleRequest_cases network request
  · exact absurd hc (hn e he)
  · exact hres

end ProxyRequestHandler

/-- A file handler answers with a prepared error or with a file. -/
theorem FileHandler.response_shape {h : FileHandler} {fs : FileSystem} {request : Request} {res : Response}
    (hr : h.handleRequest fs request = .ok res) :
    (∃ result body, res = errorResponse result body) ∨ ∃ contentType body, res = okResponse contentType body := by
  unfold FileHandler.handleRequest at hr
  split_ifs at hr
  · exact .inl ⟨_, _, (Except.ok.inj hr).symm⟩
  · obtain ⟨path, -, hr⟩ := bind_eq_ok_iff.mp hr
    cases path with
    | none => exact .inl ⟨_, _, (Except.ok.inj hr).symm⟩
    | some path =>
      obtain ⟨body, -, hr⟩ := bind_eq_ok_iff.mp hr
      exact .inr ⟨_, _, (Except.ok.inj hr).symm⟩

/-- Compression gives a file handler's response, or that with its body replaced. -/
theorem compressed_shape {gzip : Bytes → Bytes} {h : FileHandler} {fs : FileSystem} {request : Request}
    {res : Response} (hr : handleCompressedRequest gzip h fs request = .ok res) :
    ∃ page, h.handleRequest fs request = .ok page ∧ (res = page ∨ res = compressResponse gzip page) := by
  rw [handleCompressedRequest_eq] at hr
  obtain ⟨page, hpage, rfl⟩ := map_eq_ok_iff.mp hr
  refine ⟨page, hpage, ?_⟩
  split_ifs
  · exact .inr rfl
  · exact .inl rfl

private theorem file_own {h : FileHandler} {fs : FileSystem} {request : Request} {res : Response}
    (hr : h.handleRequest fs request = .ok res) : res.Framed ∧ res.version = 11 := by
  rcases FileHandler.response_shape hr with ⟨_, _, rfl⟩ | ⟨_, _, rfl⟩
  · exact ⟨framed_errorResponse _ _, rfl⟩
  · exact ⟨framed_okResponse _ _, rfl⟩

/-- A response the server makes up itself is framed and of version 1.1. -/
theorem RequestHandler.own_response {handler : RequestHandler} {env : Environment} {log : SharedLog}
    {request : Request} {res : Response} (hb : ∀ h, handler.behaviour ≠ .proxy h)
    (hr : handler.handleRequest env log request = .ok res) : res.Framed ∧ res.version = 11 := by
  unfold RequestHandler.handleRequest at hr
  cases hk : handler.behaviour with
  | proxy h => exact absurd hk (hb h)
  | file h =>
    rw [hk] at hr
    exact file_own hr
  | compressedFile h =>
    rw [hk] at hr
    obtain ⟨page, hp, rfl | rfl⟩ := compressed_shape hr
    · exact file_own hp
    · exact ⟨Response.get?_set_self _ _ _, (file_own hp).2⟩
  | notFound =>
    rw [hk] at hr
    obtain rfl := Except.ok.inj hr
    exact ⟨framed_errorResponse _ _, rfl⟩
  | _ =>
    rw [hk] at hr
    obtain rfl := Except.ok.inj hr
    exact ⟨framed_okResponse _ _, rfl⟩

private theorem framed_iff (handler : RequestHandler) (env : Environment) (log : SharedLog) (request : Request) :
    (∀ res log', handler.getResponse env log request = .ok (res, log') → res.Framed) ↔
      ∀ h, handler.behaviour = .proxy h → ∀ e, h.exchangeFor env.network request = some e → e.Completes →
        ¬ h.Resizes e.response := by
  have hget : (∀ res log', handler.getResponse env log request = .ok (res, log') → res.Framed) ↔
      ∀ res, handler.handleRequest env log request = .ok res → res.Framed := by
    unfold RequestHandler.getResponse
    cases handler.handleRequest env log request with
    | error e => simp [bind, Except.bind]
    | ok res => simp [bind, Except.bind, pure, Except.pure]
  rw [hget]
  by_cases hb : ∃ h, handler.behaviour = .proxy h
  · obtain ⟨h, hb⟩ := hb
    unfold RequestHandler.handleRequest
    simp only [hb, Except.ok.injEq, forall_eq', Behaviour.proxy.injEq]
    rcases h.handleRequest_cases env.network request with ⟨e, he, hc, hres⟩ | ⟨hn, hres⟩
    · rw [hres, h.framed_rewriteResponse_iff, he]
      simp [hc]
    · refine iff_of_true ?_ (fun e he hc => absurd hc (hn e he))
      rw [hres]
      exact framed_errorResponse _ _
  · rw [not_exists] at hb
    exact iff_of_true (fun res hr => (RequestHandler.own_response hb hr).1) (fun h hh => absurd hh (hb h))

/-- Every response but a resized page tells the size of its body; whatever the prefix of a proxy
is, a page is not resized if none of the searched texts occurs in it. -/
theorem response_framed_iff (handler : RequestHandler) (env : Environment) (log : SharedLog) (request : Request) :
    ((∀ res log', handler.getResponse env log request = .ok (res, log') → res.Framed) ↔
      ∀ h, handler.behaviour = .proxy h → ∀ e, h.exchangeFor env.network request = some e → e.Completes →
        ¬ h.Resizes e.response) ∧
    ((∀ h, handler.behaviour = .proxy h → ∀ e, h.exchangeFor env.network request = some e → e.Completes →
        Untouched h.urlPrefix e.response.body) →
      ∀ res log', handler.getResponse env log request = .ok (res, log') → res.Framed) := by
  refine ⟨framed_iff handler env log request, fun hu => (framed_iff handler env log request).mpr ?_⟩
  intro h hb e he hc
  exact ProxyRequestHandler.not_resizes_of_untouched (hu h hb e he hc)

/-- A proxy for another site, which answers every request with a page of one link. -/
def siteProxy : RequestHandler :=
  ⟨ascii "ProxyRequest", false, .proxy (ProxyRequestHandler.new (ascii "/uw")
    [⟨[ascii "dest", ascii "www.washington.edu"], none⟩, ⟨[ascii "port", ascii "80"], none⟩])⟩

def sitePage : Response := ⟨11, 200, [(contentTypeField, textHtml)], ascii "<a href=\"/about\">"⟩

def siteEnvironment : Environment :=
  ⟨fun _ => [], fun _ => .missing, id, fun _ _ _ => ⟨true, true, true, .success, sitePage, .success⟩, []⟩

/-- The link grows by the prefix and the header still tells the old length. -/
theorem rewritten_page_misframed :
    ∃ res log, siteProxy.getResponse siteEnvironment ⟨[], []⟩ ⟨ascii "GET", ascii "/uw/", 11, [], []⟩ = .ok (res, log) ∧
      res.body = ascii "<a href=\"/uw/about\">" ∧ res.get? contentLengthField = some (ascii "17") ∧ ¬ res.Framed := by
  refine ⟨_, _, rfl, ?_⟩
  decide

end Koko.Handlers
