import Koko.Handlers.ProxyHop
import Koko.Server.Registration
import Koko.Session.ConstructResponse

/-! Links through a proxy: what the client is given for an upstream link, and where it
leads when the client follows it. -/
namespace Koko.Session
open Koko.Lib Koko.Http Koko.Config Koko.Handlers Koko.Server

/-- What a redirect becomes. -/
theorem location_of_exchange {h : ProxyRequestHandler} {network : Network} {request : Request} {e : Exchange}
    (he : h.exchangeFor network request = some e) (hc : e.Completes) {u : Bytes}
    (hr : e.response.result ∈ redirectionResults) (hl : e.response.get? locationField = some u) :
    (h.handleRequest network request).1.get? locationField =
      some (if u.head? = some (chr '/') then h.urlPrefix ++ u else u) := by
  have hl' : e.response.preparePayload.get? locationField = some u := by
    rw [Response.preparePayload, Response.get?_set_of_ne _ _ (by decide)]
    exact hl
  have hr' : e.response.preparePayload.result ∈ redirectionResults := hr
  rw [ProxyRequestHandler.response_of_exchange he hc, h.location_rewriteResponse hr' hl']

/-- A request routed to a proxy is answered by what the proxy hands on, and the connection is not kept. -/
theorem constructResponse_of_proxy {h : ProxyRequestHandler} {beyond : Nat → Byte} {table : Table RequestHandler}
    {env : Environment} {log : SharedLog} {name urlPrefix : Bytes} {request : Request}
    (hr : (route beyond table request.target).entry = some (urlPrefix, ⟨ascii "ProxyRequest", false, .proxy h⟩)) :
    (constructResponse beyond table env log name request).map Answer.response = .ok (h.served env.network request) := by
  rw [constructResponse_of_entry hr]
  rfl

theorem trigger_starts_address {u : Bytes} (hs : u.head? = some (chr '/')) (v : Bytes) :
    LinkKind.href.trigger <+: u ++ v := by
  obtain ⟨u', rfl⟩ : ∃ u', u = chr '/' :: u' := ⟨u.tail, (List.cons_head?_tail hs).symm⟩
  exact ⟨u' ++ v, rfl⟩

/-- An address in quotes names another host if it begins with two slashes. -/
theorem doubled_address_iff (u post : Bytes) : Doubled .href (u ++ chr '\"' :: post) ↔ ascii "//" <+: u := by
  refine ⟨fun hd => ?_, fun h => h.trans (List.prefix_append _ _)⟩
  rcases Nat.lt_or_ge u.length 2 with hl | hl
  · have hq : chr '\"' ∈ LinkKind.href.trigger ++ LinkKind.href.trigger := by
      have hp : u ++ [chr '\"'] <+: u ++ chr '\"' :: post := by
        rw [List.prefix_append_right_inj]
        exact ⟨post, rfl⟩
      have hm := List.prefix_of_prefix_length_le hp hd (by rw [List.length_append]; exact hl)
      exact hm.subset (by simp)
    exact absurd hq (by decide)
  · exact List.prefix_of_prefix_length_le hd (List.prefix_append _ _) hl

/-- A proxy location as the configuration has it, with the prefix registered for it. -/
structure ProxyLocation where
  location : Bytes
  block : NginxConfig
  urlPrefix : Bytes
  registered : registeredPrefix location = some urlPrefix
  oneSlash : ¬ ascii "//" <:+ location
  plain : ∀ b ∈ [chr '\"', chr '(', chr '\\', chr '?'], b ∉ location

/-- A link from the root of the upstream site. -/
structure UpstreamLink (u : Bytes) : Prop where
  slash : u.head? = some (chr '/')
  notDoubled : ¬ ascii "//" <+: u
  plain : ∀ b ∈ [chr '?', chr '\"', chr '('], b ∉ u

namespace UpstreamLink
variable {u : Bytes}

theorem unquoted (h : UpstreamLink u) : Unquoted u := ⟨h.plain _ (by simp), h.plain _ (by simp)⟩

theorem trigger_starts (h : UpstreamLink u) (v : Bytes) : LinkKind.href.trigger <+: u ++ v :=
  trigger_starts_address h.slash v

theorem not_doubled (h : UpstreamLink u) (post : Bytes) : ¬ Doubled .href (u ++ chr '\"' :: post) :=
  fun hd => h.notDoubled ((doubled_address_iff u post).mp hd)

end UpstreamLink

namespace ProxyLocation

def proxy (l : ProxyLocation) : ProxyRequestHandler := ProxyRequestHandler.new l.urlPrefix l.block

def handler (l : ProxyLocation) : RequestHandler := ⟨ascii "ProxyRequest", false, .proxy l.proxy⟩

theorem stored_eq (l : ProxyLocation) : l.proxy.urlPrefix = eraseTrailingSlash l.urlPrefix :=
  ProxyRequestHandler.urlPrefix_new l.urlPrefix l.block

/-- The stored prefix is empty for the root, and else the registered one. -/
theorem stored_cases (l : ProxyLocation) :
    (l.urlPrefix = ascii "/" ∧ l.proxy.urlPrefix = []) ∨
    (l.proxy.urlPrefix = l.urlPrefix ∧ l.urlPrefix ≠ ascii "/" ∧ PlainPrefix l.urlPrefix ∧ chr '?' ∉ l.urlPrefix) := by
  rw [l.stored_eq]
  rcases registeredPrefix_spec l.registered l.oneSlash with he | ⟨hhead, hlast, hmem⟩
  · left
    rw [he]
    exact ⟨rfl, rfl⟩
  · right
    have hfree : ∀ b ∈ [chr '\"', chr '(', chr '\\', chr '?'], b ∉ l.urlPrefix := by
      intro b hb hm
      rcases hmem b hm with rfl | hm
      · revert hb
        decide
      · exact l.plain b hb hm
    refine ⟨if_neg hlast, ?_, ⟨hhead, hfree _ (by simp), hfree _ (by simp)⟩, hfree _ (by simp)⟩
    intro he
    rw [he] at hlast
    exact hlast rfl

theorem stored_no_query (l : ProxyLocation) : chr '?' ∉ l.proxy.urlPrefix := by
  rcases l.stored_cases with ⟨-, he⟩ | ⟨he, -, -, hq⟩
  · rw [he]
    simp
  · rwa [he]

/-- The link in a page becomes the link through the proxy, where it stands in the page. -/
theorem replaceRelativeHtmlLinks_link (l : ProxyLocation) {u : Bytes} (hu : UpstreamLink u) (pre post : Bytes) :
    ∃ rest, replaceRelativeHtmlLinks l.proxy.urlPrefix (pre ++ ascii "href=\"" ++ u ++ ascii "\"" ++ post) =
      replaceRelativeHtmlLinks l.proxy.urlPrefix pre ++ ascii "href=\"" ++ (l.proxy.urlPrefix ++ u) ++ ascii "\"" ++
        rest := by
  rcases l.stored_cases with ⟨-, he⟩ | ⟨he, hr, hp, -⟩
  · rw [he]
    exact ⟨post, by simp [replaceRelativeHtmlLinks]⟩
  · rw [he, replaceRelativeHtmlLinks_eq hp hr, replaceRelativeHtmlLinks_eq hp hr]
    obtain ⟨rest, hrest⟩ := insertAtLinks_unquoted l.urlPrefix hu.unquoted post
    have hbody : pre ++ ascii "href=\"" ++ u ++ ascii "\"" ++ post =
        pre ++ (LinkKind.href.key ++ (u ++ chr '\"' :: post)) := by simp [LinkKind.key, ascii]
    rw [hbody, insertAtLinks_append_key l.urlPrefix pre (hu.trigger_starts _) (hu.not_doubled post), hrest]
    exact ⟨rest, by simp [LinkKind.key, insertion, ascii]⟩

theorem routedTarget_link (l : ProxyLocation) {u : Bytes} (hu : UpstreamLink u) :
    routedTarget (l.proxy.urlPrefix ++ u) = l.proxy.urlPrefix ++ u ++ ascii "/" := by
  apply routedTarget_of_no_query
  simp only [List.mem_append, not_or]
  exact ⟨l.stored_no_query, hu.plain _ (by simp)⟩

/-- The registered prefix serves every link through the proxy. -/
theorem serves_link (l : ProxyLocation) {u : Bytes} (hu : UpstreamLink u) :
    Serves l.urlPrefix (routedTarget (l.proxy.urlPrefix ++ u)) := by
  have hslash : ascii "/" <+: u ++ ascii "/" := hu.trigger_starts (ascii "/")
  rw [l.routedTarget_link hu, List.append_assoc]
  rcases l.stored_cases with ⟨hroot, he⟩ | ⟨he, -, hp, -⟩
  · left
    rw [he, hroot]
    exact ⟨rfl, hslash⟩
  · right
    rw [he]
    refine ⟨?_, (List.prefix_append_right_inj _).mpr hslash⟩
    intro hn
    rw [hn] at hp
    exact absurd hp.slash (by simp)

/-- A link through the proxy is routed to it, unless a longer prefix serves the link. -/
theorem route_link (l : ProxyLocation) (beyond : Nat → Byte) {u : Bytes} (hu : UpstreamLink u)
    {before after : Table RequestHandler} (hfirst : ∀ e ∈ before, e.1 ≠ l.urlPrefix)
    (hlonger : ∀ e ∈ before ++ (l.urlPrefix, l.handler) :: after, l.urlPrefix.length < e.1.length →
      ¬ Serves e.1 (routedTarget (l.proxy.urlPrefix ++ u))) :
    (route beyond (before ++ (l.urlPrefix, l.handler) :: after) (l.proxy.urlPrefix ++ u)).entry =
      some (l.urlPrefix, l.handler) := by
  have hserves := l.serves_link hu
  have hscore : matchLength (routedTarget (l.proxy.urlPrefix ++ u)) (l.urlPrefix, l.handler) = l.urlPrefix.length :=
    if_pos hserves
  have hle : ∀ e ∈ before ++ (l.urlPrefix, l.handler) :: after,
      matchLength (routedTarget (l.proxy.urlPrefix ++ u)) e ≤ l.urlPrefix.length := by
    intro e he
    unfold matchLength
    split_ifs with hs
    · by_contra hlt
      exact hlonger e he (by omega) hs
    · exact Nat.zero_le _
  rw [route_entry, bestMatch_eq_some_iff]
  refine ⟨before, after, rfl, ?_, ?_, ?_⟩
  · rw [hscore]
    exact hserves.length_pos
  · intro e he
    rw [hscore]
    refine Nat.lt_of_le_of_ne (hle e (by simp [he])) fun heq => hfirst e he ?_
    have hs : Serves e.1 (routedTarget (l.proxy.urlPrefix ++ u)) :=
      matchLength_pos.mp (by rw [heq]; exact hserves.length_pos)
    have hlen : e.1.length = l.urlPrefix.length := by rwa [matchLength, if_pos hs] at heq
    exact (List.prefix_of_prefix_length_le hs.starts hserves.starts (by omega)).eq_of_length hlen
  · intro e he
    rw [hscore]
    exact hle e (by simp [he])

/-- For an upstream link the client is given the link through the proxy, in a page where the
link stands, and in a redirect. -/
def GivesLink (l : ProxyLocation) (u : Bytes) : Prop :=
  ∀ network request e, l.proxy.exchangeFor network request = some e → e.Completes →
    (∀ pre post, e.response.body = pre ++ ascii "href=\"" ++ u ++ ascii "\"" ++ post →
      ProxyRequestHandler.isHtml e.response = true → ProxyRequestHandler.isRedirect e.response = false →
      ∃ rest, (l.proxy.handleRequest network request).1.body =
        replaceRelativeHtmlLinks l.proxy.urlPrefix pre ++ ascii "href=\"" ++ (l.proxy.urlPrefix ++ u) ++ ascii "\"" ++
          rest) ∧
    (e.response.result ∈ redirectionResults → e.response.get? locationField = some u →
      (l.proxy.handleRequest network request).1.get? locationField = some (l.proxy.urlPrefix ++ u))

/-- A request for the link through the proxy is answered by the proxy, and what it sends
upstream, if there is a connection, asks for the link itself. -/
def LeadsBack (l : ProxyLocation) (beyond : Nat → Byte) (table : Table RequestHandler) (u : Bytes) : Prop :=
  (route beyond table (l.proxy.urlPrefix ++ u)).entry = some (l.urlPrefix, l.handler) ∧
  ∀ env log name request, request.target = l.proxy.urlPrefix ++ u →
    constructResponse beyond table env log name request =
      .ok (answerOf l.handler env log name request (l.proxy.handleRequest env.network request).1) ∧
    (∀ r, (l.proxy.handleRequest env.network request).2 = some r → r.target = u) ∧
    (l.proxy.invalidConfig = false → (request.method = ascii "TRACE" → request.body = []) →
      ∃ r, r.target = u ∧ ((env.network l.proxy.proxyDest l.proxy.mPort r).resolves = true →
        (env.network l.proxy.proxyDest l.proxy.mPort r).connects = true →
        (l.proxy.handleRequest env.network request).2 = some r))

theorem givesLink (l : ProxyLocation) {u : Bytes} (hu : UpstreamLink u) : l.GivesLink u := by
  intro network request e he hc
  refine ⟨?_, ?_⟩
  · intro pre post hbody hhtml hredirect
    obtain ⟨rest, hrest⟩ := l.replaceRelativeHtmlLinks_link hu pre post
    refine ⟨rest, ?_⟩
    rw [ProxyRequestHandler.response_of_exchange he hc, ← hrest, ← hbody]
    simp [ProxyRequestHandler.rewriteResponse, hhtml, hredirect]
  · intro hr hl
    rw [location_of_exchange he hc hr hl, if_pos hu.slash]

theorem leadsBack (l : ProxyLocation) {beyond : Nat → Byte} {table : Table RequestHandler} {u : Bytes}
    (hu : UpstreamLink u)
    (hr : (route beyond table (l.proxy.urlPrefix ++ u)).entry = some (l.urlPrefix, l.handler)) :
    l.LeadsBack beyond table u := by
  refine ⟨hr, ?_⟩
  intro env log name request ht
  rw [← ht] at hr
  refine ⟨constructResponse_of_entry hr, ?_, ?_⟩
  · intro r hs
    exact ProxyRequestHandler.proxyReq_target hu.slash ht ((l.proxy.sent_iff env.network request r).mp hs).2.1
  · intro hv hb
    obtain ⟨r, hreq⟩ := ProxyRequestHandler.proxyReq_ok hu.slash ht hb
    refine ⟨r, ProxyRequestHandler.proxyReq_target hu.slash ht hreq, fun hres hcon => ?_⟩
    exact (l.proxy.sent_iff env.network request r).mpr ⟨hv, hreq, hres, hcon⟩

/-- Following a rewritten link leads back to the same upstream resource, unless a longer prefix
of the table takes the link over. -/
theorem proxy_link_round_trip (l : ProxyLocation) (beyond : Nat → Byte) {u : Bytes} (hu : UpstreamLink u)
    (before after : Table RequestHandler) (hfirst : ∀ e ∈ before, e.1 ≠ l.urlPrefix) :
    createHandler l.urlPrefix (ascii "ProxyRequestHandler") l.block = some (some l.handler) ∧ l.GivesLink u ∧
    ((∀ e ∈ before ++ (l.urlPrefix, l.handler) :: after, l.urlPrefix.length < e.1.length →
        ¬ Serves e.1 (routedTarget (l.proxy.urlPrefix ++ u))) →
      l.LeadsBack beyond (before ++ (l.urlPrefix, l.handler) :: after) u) :=
  ⟨rfl, l.givesLink hu, fun hlonger => l.leadsBack hu (l.route_link beyond hu hfirst hlonger)⟩

end ProxyLocation

/-- A location written with a trailing slash. -/
def siteLocation : ProxyLocation where
  location := ascii "/uw/"
  block := [⟨[ascii "dest", ascii "www.washington.edu"], none⟩, ⟨[ascii "port", ascii "80"], none⟩]
  urlPrefix := ascii "/uw"
  registered := rfl
  oneSlash := by decide +kernel
  plain := by simp [ascii, chr]

/-- Between a status page and a longer proxy, `/uw/about` leads back to `/about`. -/
theorem proxy_link_round_trip_about :
    siteLocation.LeadsBack (fun _ => 0)
      ([(ascii "/status", ⟨ascii "Status", false, .status⟩)] ++
        (ascii "/uw", siteLocation.handler) :: [(ascii "/uw/cs", ⟨ascii "NotFound", false, .notFound⟩)])
      (ascii "/about") :=
  (siteLocation.proxy_link_round_trip (fun _ => 0) ⟨by decide, by decide +kernel, by simp [ascii, chr]⟩
    [(ascii "/status", ⟨ascii "Status", false, .status⟩)] [(ascii "/uw/cs", ⟨ascii "NotFound", false, .notFound⟩)]
    (by decide)).2.2 (by decide)

end Koko.Session
