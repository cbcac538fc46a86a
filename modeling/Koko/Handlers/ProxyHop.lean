import Koko.Handlers.Framing
import Koko.Handlers.ProxyChain

/-! A proxy whose host is another server of this program, where a second proxy answers: what goes over
the connection between them, and what both together do as one proxy under both prefixes does it. -/
namespace Koko.Handlers
open Koko.Lib Koko.Http LinkKind

/-- What is read of a response at the other end of a connection: of the body as much as the header
announces, and an error if it ends before. -/
def readOf (res : Response) : ErrorCode × Response :=
  match res.get? contentLengthField with
  | none => (.success, res)
  | some digits =>
    (if res.body.length < ofDecimal digits then .other else .success,
      { res with body := res.body.take (ofDecimal digits) })

theorem readOf_announced {res : Response} {n : Nat} (h : res.get? contentLengthField = some (decimal n)) :
    (readOf res).2 = { res with body := res.body.take n } := by
  unfold readOf
  simp only [h, ofDecimal_decimal]

theorem readOf_framed {res : Response} (h : res.Framed) : (readOf res).2 = res := by
  rw [readOf_announced h, List.take_length]

theorem body_readOf_of_nil {res : Response} (h : res.body = []) : (readOf res).2.body = [] := by
  unfold readOf
  split
  · exact h
  · simp [h]

theorem result_readOf (res : Response) : (readOf res).2.result = res.result := by
  unfold readOf
  split <;> rfl

theorem sublist_insertAtLinks (urlPrefix t : Bytes) : t.Sublist (insertAtLinks urlPrefix t) := by
  unfold insertAtLinks
  induction t using site_induction with
  | nil => simp
  | raw c s hs ih =>
    rw [render_cons hs]
    exact ih.cons_cons c
  | site k s hk ih =>
    rw [render_key hk, List.append_assoc]
    exact (List.Sublist.refl _).append (ih.trans (List.sublist_append_right _ _))

theorem replaceRelativeHtmlLinks_of_no_link {urlPrefix body : Bytes} (hs : Stored urlPrefix) (h : ¬ HasRootLink body) :
    replaceRelativeHtmlLinks urlPrefix body = body := by
  rcases hs with rfl | ⟨hp, hr⟩
  · exact if_pos (.inr rfl)
  · rw [replaceRelativeHtmlLinks_eq hp hr]
    exact ((sublist_insertAtLinks urlPrefix body).eq_of_length ((length_insertAtLinks_iff hp body).mpr h).symm).symm

/-- The fields a proxy for this host sets on a request. -/
def forwardedFields (dest : Bytes) : Fields := [(hostField, dest), (acceptEncodingField, ascii "identity")]

/-- The request as a proxy sends it on, before its length is announced. -/
def forwarded (dest target : Bytes) (request : Request) : Request :=
  { request with target, fields := request.fields.setAll (forwardedFields dest) }

theorem prepareRequest_announced {request : Request} (ht : ¬ (request.method = ascii "TRACE" ∧ request.body ≠ []))
    (hb : request.body ≠ [] ∨ request.method ∈ [ascii "OPTIONS", ascii "PUT", ascii "POST"]) :
    prepareRequest request =
      .ok { request with fields := request.fields.set contentLengthField (decimal request.body.length) } := by
  rw [prepareRequest, if_neg ht, if_pos hb]

theorem prepareRequest_plain {request : Request} (ht : ¬ (request.method = ascii "TRACE" ∧ request.body ≠ []))
    (hb : ¬ (request.body ≠ [] ∨ request.method ∈ [ascii "OPTIONS", ascii "PUT", ascii "POST"])) :
    prepareRequest request = .ok request := by
  rw [prepareRequest, if_neg ht, if_neg hb]

/-- A request sent on twice is the one sent on by the second proxy alone. -/
theorem prepareRequest_forwarded (dest dest' target target' : Bytes) (request : Request) :
    (prepareRequest (forwarded dest target request) >>= fun r => prepareRequest (forwarded dest' target' r)) =
      prepareRequest (forwarded dest' target' request) := by
  by_cases ht : request.method = ascii "TRACE" ∧ request.body ≠ []
  · have herror : ∀ d t, prepareRequest (forwarded d t request) = .error .invalidArgument := fun d t => if_pos ht
    rw [herror, herror]
    rfl
  by_cases hb : request.body ≠ [] ∨ request.method ∈ [ascii "OPTIONS", ascii "PUT", ascii "POST"]
  · have hnames : [hostField, acceptEncodingField, contentLengthField].Pairwise (fun a b => iequals a b = false) := by
      decide
    have hset : (((request.fields.setAll (forwardedFields dest)).set contentLengthField
        (decimal request.body.length)).setAll (forwardedFields dest')).set contentLengthField
          (decimal request.body.length) =
        (request.fields.setAll (forwardedFields dest')).set contentLengthField (decimal request.body.length) :=
      @Fields.setAll_setAll request.fields
        [(hostField, dest), (acceptEncodingField, ascii "identity"), (contentLengthField, decimal request.body.length)]
        [(hostField, dest'), (acceptEncodingField, ascii "identity"), (contentLengthField, decimal request.body.length)]
        rfl hnames
    have hannounced : ∀ d t, prepareRequest (forwarded d t request) = .ok { forwarded d t request with
        fields := (request.fields.setAll (forwardedFields d)).set contentLengthField (decimal request.body.length) } :=
      fun d t => prepareRequest_announced ht hb
    rw [hannounced, hannounced, ← hset]
    exact prepareRequest_announced ht hb
  · have hnames : [hostField, acceptEncodingField].Pairwise (fun a b => iequals a b = false) := by decide
    have hset := @Fields.setAll_setAll request.fields (forwardedFields dest) (forwardedFields dest') rfl hnames
    have hplain : ∀ d t, prepareRequest (forwarded d t request) = .ok (forwarded d t request) :=
      fun d t => prepareRequest_plain ht hb
    have hagain : prepareRequest (forwarded dest' target' (forwarded dest target request)) =
        .ok (forwarded dest' target' (forwarded dest target request)) := prepareRequest_plain ht hb
    have hsame : forwarded dest' target' (forwarded dest target request) = forwarded dest' target' request :=
      congrArg (fun fields => { request with target := target', fields }) hset
    rw [hplain, hplain, ← hsame, ← hagain]
    rfl

namespace ProxyRequestHandler
variable {outer inner : ProxyRequestHandler} {network : Network} {request q : Request} {u : Bytes}

/-- What the session writes for the proxy: the connection is not kept. -/
def served (h : ProxyRequestHandler) (network : Network) (request : Request) : Response :=
  (h.handleRequest network request).1.set connectionField closeValue

/-- The network of a proxy whose host is a server at which this one answers every request. -/
def behind (inner : ProxyRequestHandler) (network : Network) : Network := fun _ _ request =>
  ⟨true, true, true, (readOf (inner.served network request)).1, (readOf (inner.served network request)).2, .success⟩

/-- The one proxy that is to stand for both: the inner one, under both prefixes. -/
def under (inner : ProxyRequestHandler) (outerPrefix : Bytes) : ProxyRequestHandler :=
  { inner with urlPrefix := outerPrefix ++ inner.urlPrefix }

/-- What is left of a target, as the path asked for. -/
def rooted (u : Bytes) : Bytes := if u.head? = some (chr '/') then u else ascii "/" ++ u

theorem head?_rooted (u : Bytes) : (rooted u).head? = some (chr '/') := by
  unfold rooted
  split_ifs with h
  · exact h
  · rfl

theorem upstreamTarget_under (h : ProxyRequestHandler) (u : Bytes) :
    h.upstreamTarget (h.urlPrefix ++ u) = .ok (rooted u) := by
  unfold upstreamTarget rooted
  rw [if_neg (by simp), List.drop_left]
  by_cases hu : u = []
  · subst hu
    rfl
  · simp only [hu, if_false]
    by_cases hs : u.head? = some (chr '/')
    · rw [if_neg (not_not.mpr hs), if_pos hs]
    · rw [if_pos hs, if_neg hs]

theorem upstreamTarget_rooted (hi : Stored inner.urlPrefix) (u : Bytes) :
    inner.upstreamTarget (rooted (inner.urlPrefix ++ u)) = .ok (rooted u) := by
  rcases hi with he | ⟨hp, -⟩
  · have h := upstreamTarget_append inner (head?_rooted u)
    rwa [he, List.nil_append] at h ⊢
  · have hs : (inner.urlPrefix ++ u).head? = some (chr '/') := by
      rw [List.head?_append, hp.slash]
      rfl
    rw [rooted, if_pos hs, upstreamTarget_under]

theorem proxyReq_of_target (h : ProxyRequestHandler) {target : Bytes} (ht : h.upstreamTarget request.target = .ok target) :
    h.proxyReq request = prepareRequest (forwarded h.proxyDest target request) := by
  unfold proxyReq
  rw [ht]
  rfl

/-- The request of the first proxy, sent on by the second, is that of the one proxy. -/
theorem proxyReq_comp (hi : Stored inner.urlPrefix) (ht : request.target = outer.urlPrefix ++ (inner.urlPrefix ++ u)) :
    (outer.proxyReq request >>= inner.proxyReq) = (inner.under outer.urlPrefix).proxyReq request := by
  have ho : outer.upstreamTarget request.target = .ok (rooted (inner.urlPrefix ++ u)) := by
    rw [ht, upstreamTarget_under]
  have hb : (inner.under outer.urlPrefix).upstreamTarget request.target = .ok (rooted u) := by
    rw [ht, ← List.append_assoc]
    exact upstreamTarget_under (inner.under outer.urlPrefix) u
  have hdest : (inner.under outer.urlPrefix).proxyDest = inner.proxyDest := rfl
  rw [proxyReq_of_target outer ho, proxyReq_of_target _ hb, hdest,
    ← prepareRequest_forwarded outer.proxyDest inner.proxyDest (rooted (inner.urlPrefix ++ u)) (rooted u) request]
  cases hr : prepareRequest (forwarded outer.proxyDest (rooted (inner.urlPrefix ++ u)) request) with
  | error exn => rfl
  | ok r =>
    have htarget : inner.upstreamTarget r.target = .ok (rooted u) := by
      rw [target_of_prepareRequest hr]
      exact upstreamTarget_rooted hi u
    exact proxyReq_of_target inner htarget

theorem exchangeFor_of_ok (h : ProxyRequestHandler) (hv : h.invalidConfig = false) (hq : h.proxyReq request = .ok q) :
    h.exchangeFor network request = some (network h.proxyDest h.mPort q) := by
  rw [exchangeFor, if_neg (by simp [hv]), hq]

theorem exchangeFor_of_error (h : ProxyRequestHandler) {exn : Exn} (hq : h.proxyReq request = .error exn) :
    h.exchangeFor network request = none := by
  unfold exchangeFor
  rw [hq]
  split_ifs <;> rfl

/-- The second proxy and the one proxy have the same exchange with the upstream host. -/
theorem exchangeFor_comp (hi : Stored inner.urlPrefix) (ht : request.target = outer.urlPrefix ++ (inner.urlPrefix ++ u))
    (hq : outer.proxyReq request = .ok q) :
    inner.exchangeFor network q = (inner.under outer.urlPrefix).exchangeFor network request := by
  have hreq : inner.proxyReq q = (inner.under outer.urlPrefix).proxyReq request := by
    rw [← proxyReq_comp hi ht, hq]
    rfl
  unfold exchangeFor
  rw [hreq]
  rfl

/-- Where a redirect of the upstream host leads through the proxy. -/
def moved (h : ProxyRequestHandler) (location : Bytes) : Bytes :=
  if location.head? = some (chr '/') then h.urlPrefix ++ location else location

theorem moved_moved (hi : Stored inner.urlPrefix) (location : Bytes) :
    outer.moved (inner.moved location) = (inner.under outer.urlPrefix).moved location := by
  unfold moved under
  by_cases hl : location.head? = some (chr '/')
  · rw [if_pos hl, if_pos hl, if_pos (head?_append_of_stored hi hl), List.append_assoc]
  · rw [if_neg hl, if_neg hl, if_neg hl]

theorem rewriteResponse_redirect (h : ProxyRequestHandler) {res : Response} (hr : isRedirect res = true) {location : Bytes}
    (hl : res.get? locationField = some location) : h.rewriteResponse res = res.set locationField (h.moved location) := by
  rw [rewriteResponse, if_pos hr, hl]
  rfl

theorem rewriteResponse_page (h : ProxyRequestHandler) {res : Response} (hr : isRedirect res = false) :
    h.rewriteResponse res =
      { res with body := if isHtml res then replaceRelativeHtmlLinks h.urlPrefix res.body else res.body } := by
  rw [rewriteResponse, if_neg (by simp [hr])]
  split_ifs <;> rfl

/-- The response of the second server, as the first proxy takes it up. -/
def relayed (res : Response) : Response := (res.set connectionField closeValue).preparePayload

theorem get?_relayed (res : Response) {name : Bytes} (hc : iequals connectionField name = false)
    (hl : iequals contentLengthField name = false) : (relayed res).get? name = res.get? name := by
  rw [relayed, Response.preparePayload, Response.get?_set_of_ne _ _ hl, Response.get?_set_of_ne _ _ hc]

theorem isRedirect_relayed (res : Response) : isRedirect (relayed res) = isRedirect res := by
  unfold isRedirect
  rw [get?_relayed res (by decide) (by decide)]
  rfl

theorem isHtml_relayed (res : Response) : isHtml (relayed res) = isHtml res := by
  unfold isHtml
  rw [get?_relayed res (by decide) (by decide)]

private theorem redirect_twice (hi : Stored inner.urlPrefix) {page : Response} (hr : isRedirect page = true) :
    (outer.rewriteResponse (relayed (inner.rewriteResponse page.preparePayload))).set connectionField closeValue =
      ((inner.under outer.urlPrefix).rewriteResponse page.preparePayload).set connectionField closeValue := by
  obtain ⟨hresult, hsome⟩ := of_decide_eq_true hr
  obtain ⟨location, hl⟩ := Option.isSome_iff_exists.mp hsome
  have hr' : isRedirect page.preparePayload = true := (isRedirect_preparePayload page).trans hr
  have hl' : page.preparePayload.get? locationField = some location :=
    (Response.get?_set_of_ne page _ (by decide)).trans hl
  have hrelayed : (relayed (page.preparePayload.set locationField (inner.moved location))).get? locationField =
      some (inner.moved location) := by
    rw [get?_relayed _ (by decide) (by decide), Response.get?_set_self]
  have hagain : isRedirect (relayed (page.preparePayload.set locationField (inner.moved location))) = true := by
    rw [isRedirect_relayed]
    exact decide_eq_true ⟨hresult, by rw [Response.get?_set_self]; rfl⟩
  rw [rewriteResponse_redirect inner hr' hl', rewriteResponse_redirect outer hagain hrelayed,
    rewriteResponse_redirect _ hr' hl', moved_moved hi]
  have hset := @Fields.setAll_setAll page.fields
    [(contentLengthField, decimal page.body.length), (locationField, inner.moved location), (connectionField, closeValue)]
    [(contentLengthField, decimal page.body.length), (locationField, (inner.under outer.urlPrefix).moved location),
      (connectionField, closeValue)] rfl
    (by show [contentLengthField, locationField, connectionField].Pairwise _; decide)
  exact congrArg (fun fields => ({ page with fields } : Response)) hset

/-- A page that is not resized keeps its links, or only the first proxy changes them. -/
private theorem body_of_not_resizes (ho : Stored outer.urlPrefix) (hi : Stored inner.urlPrefix) {page : Response}
    (hr : isRedirect page = false) (hh : isHtml page = true) (hn : ¬ inner.Resizes page) :
    replaceRelativeHtmlLinks inner.urlPrefix page.body = page.body ∧
      replaceRelativeHtmlLinks outer.urlPrefix page.body =
        replaceRelativeHtmlLinks (outer.urlPrefix ++ inner.urlPrefix) page.body := by
  rcases id hi with he | ⟨hp, hroot⟩
  · rw [he, List.append_nil]
    exact ⟨if_pos (.inr rfl), rfl⟩
  · have hne : inner.urlPrefix ≠ [] := fun he => absurd (he ▸ hp.slash) (by simp)
    have hlink : ¬ HasRootLink page.body := fun hlink =>
      hn ⟨hr, hh, hne, hroot, fun _ => hlink, fun hplain => absurd hp hplain⟩
    rw [replaceRelativeHtmlLinks_of_no_link hi hlink, replaceRelativeHtmlLinks_of_no_link ho hlink,
      replaceRelativeHtmlLinks_of_no_link (ho.append hi) hlink]
    exact ⟨rfl, rfl⟩

/-- An answer that is not resized is changed by both proxies as by the one. -/
theorem rewriteResponse_twice (ho : Stored outer.urlPrefix) (hi : Stored inner.urlPrefix) {page : Response}
    (hn : ¬ inner.Resizes page) :
    (outer.rewriteResponse (relayed (inner.rewriteResponse page.preparePayload))).set connectionField closeValue =
      ((inner.under outer.urlPrefix).rewriteResponse page.preparePayload).set connectionField closeValue := by
  cases hr : isRedirect page with
  | true => exact redirect_twice hi hr
  | false =>
    have hr' : isRedirect page.preparePayload = false := (isRedirect_preparePayload page).trans hr
    have hset := @Fields.setAll_setAll page.fields
      [(contentLengthField, decimal page.body.length), (connectionField, closeValue)]
      [(contentLengthField, decimal page.body.length), (connectionField, closeValue)] rfl
      (by show [contentLengthField, connectionField].Pairwise _; decide)
    have hinner : inner.rewriteResponse page.preparePayload = page.preparePayload := by
      rw [rewriteResponse_page inner hr', isHtml_preparePayload]
      split_ifs with hh
      · exact congrArg (fun body => ({ page.preparePayload with body } : Response)) (body_of_not_resizes ho hi hr hh hn).1
      · rfl
    have hrelayed : isRedirect (relayed page.preparePayload) = false := (isRedirect_relayed _).trans hr'
    rw [hinner, rewriteResponse_page outer hrelayed, rewriteResponse_page _ hr', isHtml_relayed, isHtml_preparePayload]
    split_ifs with hh
    · refine (congrArg (fun fields => ({ page with
        fields, body := replaceRelativeHtmlLinks outer.urlPrefix page.body } : Response)) hset).trans ?_
      rw [(body_of_not_resizes ho hi hr hh hn).2]
      rfl
    · exact congrArg (fun fields => ({ page with fields } : Response)) hset

/-- The connection between the servers holds: what the second one answers is taken up by the first. -/
theorem completes_behind (hi : Stored inner.urlPrefix) (network : Network) (host port : Bytes) (q : Request) :
    (inner.behind network host port q).Completes := by
  refine ⟨⟨rfl, rfl, rfl⟩, .inl rfl, fun hresult => body_readOf_of_nil ?_⟩
  replace hresult : (readOf (inner.served network q)).2.result ∈ bodilessResults := hresult
  rw [result_readOf, served, Response.result_set] at hresult
  rw [served, Response.body_set]
  rcases inner.handleRequest_cases network q with ⟨e, -, ⟨-, -, hnil⟩, hres⟩ | ⟨-, hres⟩
  · rw [hres] at hresult ⊢
    cases hr : isRedirect e.response.preparePayload with
    | true =>
      obtain ⟨location, hl⟩ := Option.isSome_iff_exists.mp (of_decide_eq_true hr).2
      rw [rewriteResponse_redirect inner hr hl] at hresult ⊢
      exact hnil hresult
    | false =>
      rw [rewriteResponse_page inner hr] at hresult ⊢
      have hbody : e.response.preparePayload.body = [] := hnil hresult
      have hlink : ¬ HasRootLink [] := by
        rintro ⟨a, k, s, he, -⟩
        rw [key_cons] at he
        simp at he
      simp only [hbody, replaceRelativeHtmlLinks_of_no_link hi hlink, ite_self]
  · rw [hres] at hresult
    exact absurd hresult (by decide)

theorem response_behind (hi : Stored inner.urlPrefix) (hv : outer.invalidConfig = false)
    (hq : outer.proxyReq request = .ok q) :
    (outer.handleRequest (inner.behind network) request).1 =
      outer.rewriteResponse (readOf (inner.served network q)).2.preparePayload :=
  response_of_exchange (exchangeFor_of_ok outer hv hq) (completes_behind hi network _ _ q)

/-- A prepared error is handed on as it is. -/
theorem rewriteResponse_error (h : ProxyRequestHandler) :
    (h.rewriteResponse (relayed internalServerError)).set connectionField closeValue =
      internalServerError.set connectionField closeValue := by
  rw [rewriteResponse_page h (by decide), if_neg (by decide)]
  decide +kernel

/-- The two proxies answer as the one, unless the second resizes the page. -/
theorem served_behind (ho : Stored outer.urlPrefix) (hi : Stored inner.urlPrefix) (hv : outer.invalidConfig = false)
    (ht : request.target = outer.urlPrefix ++ (inner.urlPrefix ++ u))
    (hsize : ∀ e, (inner.under outer.urlPrefix).exchangeFor network request = some e → e.Completes →
      ¬ inner.Resizes e.response) :
    outer.served (inner.behind network) request = (inner.under outer.urlPrefix).served network request := by
  unfold served
  cases hq : outer.proxyReq request with
  | error exn =>
    have hboth : (inner.under outer.urlPrefix).proxyReq request = .error exn := by
      rw [← proxyReq_comp hi ht, hq]
      rfl
    have hnone : ∀ (h : ProxyRequestHandler) (network : Network), h.proxyReq request = .error exn →
        (h.handleRequest network request).1 = internalServerError := by
      intro h network herror
      refine response_of_no_exchange fun e he => ?_
      rw [exchangeFor_of_error h herror] at he
      cases he
    rw [hnone outer _ hq, hnone _ network hboth]
  | ok q =>
    have hexchange : inner.exchangeFor network q = (inner.under outer.urlPrefix).exchangeFor network request :=
      exchangeFor_comp hi ht hq
    rw [response_behind hi hv hq]
    by_cases hc : ∃ e, (inner.under outer.urlPrefix).exchangeFor network request = some e ∧ e.Completes
    · obtain ⟨e, he, hc⟩ := hc
      have hn := hsize e he hc
      have hinner := response_of_exchange (hexchange.trans he) hc
      have hframed : (inner.served network q).Framed := by
        rw [served, hinner]
        exact ((framed_rewriteResponse_iff inner e.response).mpr hn).set _ (by decide)
      rw [readOf_framed hframed, served, hinner, response_of_exchange he hc]
      exact rewriteResponse_twice ho hi hn
    · have hnone : ∀ e, (inner.under outer.urlPrefix).exchangeFor network request = some e → ¬ e.Completes :=
        fun e he hcompletes => hc ⟨e, he, hcompletes⟩
      have hinner := response_of_no_exchange (hexchange ▸ hnone)
      have hframed : (inner.served network q).Framed := by
        rw [served, hinner]
        exact (framed_errorResponse _ _).set _ (by decide)
      rw [readOf_framed hframed, served, hinner, response_of_no_exchange hnone]
      exact rewriteResponse_error outer

/-- The upstream host is asked for the same by the two proxies as by the one. -/
theorem sent_behind (hi : Stored inner.urlPrefix) (hv : outer.invalidConfig = false)
    (ht : request.target = outer.urlPrefix ++ (inner.urlPrefix ++ u)) :
    ((outer.handleRequest (inner.behind network) request).2.bind fun q => (inner.handleRequest network q).2) =
      ((inner.under outer.urlPrefix).handleRequest network request).2 := by
  ext r
  rw [Option.bind_eq_some_iff, sent_iff, ← proxyReq_comp hi ht, bind_eq_ok_iff]
  simp only [sent_iff]
  constructor
  · rintro ⟨q, ⟨-, hq, -⟩, hvalid, hr, hreached⟩
    exact ⟨hvalid, ⟨q, hq, hr⟩, hreached⟩
  · rintro ⟨hvalid, ⟨q, hq, hr⟩, hreached⟩
    exact ⟨q, ⟨hv, hq, rfl, rfl⟩, hvalid, hr, hreached⟩

end ProxyRequestHandler

end Koko.Handlers
