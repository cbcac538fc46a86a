import Koko.Handlers.ProxyHop

/-! Two proxies are one under both prefixes if the second is at the root, and only then: of a page that the
second makes longer the first reads no more than was announced. -/
namespace Koko.Handlers
open Koko.Lib Koko.Http LinkKind

/-- A link, and as much text behind it as is told. -/
def longLink (n : Nat) : Bytes := key href ++ (trigger href ++ List.replicate n (chr 'a'))

theorem insertAtLinks_longLink (urlPrefix : Bytes) (n : Nat) :
    insertAtLinks urlPrefix (longLink n) =
      key href ++ (urlPrefix ++ (trigger href ++ List.replicate n (chr 'a'))) := by
  have hd : ¬ Doubled href (trigger href ++ List.replicate n (chr 'a')) := by
    unfold Doubled
    rw [List.prefix_append_right_inj]
    rintro ⟨rest, hrest⟩
    have hmem : chr '/' ∈ List.replicate n (chr 'a') := by
      rw [← hrest]
      exact List.mem_cons_self
    exact absurd (List.eq_of_mem_replicate hmem) (by decide)
  have hpad : ∀ k, initial k ∉ trigger href ++ List.replicate n (chr 'a') := by
    intro k hk
    rcases List.mem_append.mp hk with hk | hk
    · exact initial_not_mem_trigger k href hk
    · have ha := List.eq_of_mem_replicate hk
      cases k <;> exact absurd ha (by decide)
  unfold insertAtLinks longLink
  rw [render_key (List.prefix_append _ _), if_neg hd]
  have hcopied := render_append_of_initial
    (x := fun k s => if Doubled k s then [] else insertion urlPrefix k) hpad []
  rw [List.append_nil, render_nil, List.append_nil] at hcopied
  rw [hcopied, List.append_assoc]
  rfl

/-- A page of one link and much text. -/
def longPage (n : Nat) : Response := ⟨11, 200, [(contentTypeField, textHtml)], longLink n⟩

def longNetwork (n : Nat) : Network := fun _ _ _ => ⟨true, true, true, .success, longPage n, .success⟩

theorem longPage_completes (n : Nat) : Exchange.Completes ⟨true, true, true, .success, longPage n, .success⟩ :=
  ⟨⟨rfl, rfl, rfl⟩, .inl rfl, fun h => absurd (show 200 ∈ bodilessResults from h) (by decide)⟩

namespace ProxyRequestHandler
variable {outer inner : ProxyRequestHandler} {network : Network} {request q : Request} {u : Bytes}

theorem isHtml_longPage (n : Nat) : isHtml (longPage n) = true := decide_eq_true (List.infix_refl textHtml)

theorem body_served_page (h : ProxyRequestHandler) {e : Exchange} (he : h.exchangeFor network request = some e)
    (hc : e.Completes) (hr : isRedirect e.response = false) (hh : isHtml e.response = true) :
    (h.served network request).body = replaceRelativeHtmlLinks h.urlPrefix e.response.body := by
  have hr' : isRedirect e.response.preparePayload = false := (isRedirect_preparePayload _).trans hr
  have hh' : isHtml e.response.preparePayload = true := (isHtml_preparePayload _).trans hh
  rw [served, response_of_exchange he hc, rewriteResponse_page h hr', if_pos hh']
  rfl

/-- Of a page the first proxy reads no more bytes than it had before the second changed its links. -/
theorem body_behind_page (hi : Stored inner.urlPrefix) (hv : outer.invalidConfig = false)
    (ht : request.target = outer.urlPrefix ++ (inner.urlPrefix ++ u)) {e : Exchange}
    (he : (inner.under outer.urlPrefix).exchangeFor network request = some e) (hc : e.Completes)
    (hr : isRedirect e.response = false) (hh : isHtml e.response = true) :
    (outer.served (inner.behind network) request).body = replaceRelativeHtmlLinks outer.urlPrefix
      ((replaceRelativeHtmlLinks inner.urlPrefix e.response.body).take e.response.body.length) := by
  cases hq : outer.proxyReq request with
  | error exn =>
    have hboth : (inner.under outer.urlPrefix).proxyReq request = .error exn := by
      rw [← proxyReq_comp hi ht, hq]
      rfl
    rw [exchangeFor_of_error _ hboth] at he
    cases he
  | ok q =>
    have hr' : isRedirect e.response.preparePayload = false := (isRedirect_preparePayload _).trans hr
    have hh' : isHtml e.response.preparePayload = true := (isHtml_preparePayload _).trans hh
    have hinner : inner.served network q = ({ e.response.preparePayload with
        body := replaceRelativeHtmlLinks inner.urlPrefix e.response.body } : Response).set connectionField closeValue := by
      rw [served, response_of_exchange ((exchangeFor_comp hi ht hq).trans he) hc, rewriteResponse_page inner hr',
        if_pos hh']
      rfl
    have hannounced : (inner.served network q).get? contentLengthField = some (decimal e.response.body.length) := by
      rw [hinner, Response.get?_set_of_ne _ _ (by decide)]
      exact Response.get?_set_self e.response contentLengthField _
    have hread : (readOf (inner.served network q)).2.preparePayload = relayed { e.response.preparePayload with
        body := (replaceRelativeHtmlLinks inner.urlPrefix e.response.body).take e.response.body.length } := by
      rw [readOf_announced hannounced, hinner]
      rfl
    have hredirect : isRedirect (relayed { e.response.preparePayload with
        body := (replaceRelativeHtmlLinks inner.urlPrefix e.response.body).take e.response.body.length }) = false :=
      (isRedirect_relayed _).trans hr'
    have hhtml : isHtml (relayed { e.response.preparePayload with
        body := (replaceRelativeHtmlLinks inner.urlPrefix e.response.body).take e.response.body.length }) = true :=
      (isHtml_relayed _).trans hh'
    rw [served, response_behind hi hv hq, hread, rewriteResponse_page outer hredirect, if_pos hhtml]
    rfl

/-- The first proxy gets only the first part of the page with the long link, and changes it. -/
private theorem length_cut_link (ho : Stored outer.urlPrefix) (hp : PlainPrefix inner.urlPrefix) :
    (replaceRelativeHtmlLinks outer.urlPrefix (key href ++ (inner.urlPrefix ++ trigger href))).length ≤
      (key href).length + outer.urlPrefix.length + inner.urlPrefix.length + 1 := by
  rcases ho with he | ⟨hop, hor⟩
  · rw [he, replaceRelativeHtmlLinks, if_pos (.inr rfl)]
    simp only [List.length_append, List.length_nil]
    exact Nat.le_of_eq (by rw [show (trigger href).length = 1 from rfl]; omega)
  · have hpage : key href ++ (inner.urlPrefix ++ trigger href) = insertAtLinks inner.urlPrefix (sampleLink href) := by
      have hlong := insertAtLinks_longLink inner.urlPrefix 0
      rw [longLink, List.replicate_zero, List.append_nil] at hlong
      exact hlong.symm
    rw [replaceRelativeHtmlLinks_eq hop hor, hpage, insertAtLinks_insertAtLinks hp, sampleLink_rendered,
      if_neg (not_doubled_trigger href)]
    have hcut : (if DoublesAt inner.urlPrefix href then [] else insertion outer.urlPrefix href).length ≤
        outer.urlPrefix.length := by
      split_ifs
      · exact Nat.zero_le _
      · exact Nat.le_refl _
    simp only [List.length_append]
    rw [show (trigger href).length = 1 from rfl, show insertion inner.urlPrefix href = inner.urlPrefix from rfl]
    omega

/-- On a page with a long link the second proxy's prefix takes the place of the end of the page. -/
theorem served_behind_ne (ho : Stored outer.urlPrefix) (hp : PlainPrefix inner.urlPrefix)
    (hroot : inner.urlPrefix ≠ ascii "/") (hov : outer.invalidConfig = false) (hiv : inner.invalidConfig = false) :
    ∃ network request u, request.target = outer.urlPrefix ++ (inner.urlPrefix ++ u) ∧
      outer.served (inner.behind network) request ≠ (inner.under outer.urlPrefix).served network request := by
  have hi : Stored inner.urlPrefix := .inr ⟨hp, hroot⟩
  have hne : inner.urlPrefix ≠ [] := fun he => absurd (he ▸ hp.slash) (by simp)
  obtain ⟨hboth, hbothr⟩ := (ho.append hi).resolve_left (fun h => hne (List.append_eq_nil_iff.mp h).2)
  have ht : (getRequest (outer.urlPrefix ++ (inner.urlPrefix ++ ascii "/"))).target =
    outer.urlPrefix ++ (inner.urlPrefix ++ ascii "/") := rfl
  refine ⟨longNetwork inner.urlPrefix.length, _, ascii "/", ht, fun heq => ?_⟩
  obtain ⟨r, hr⟩ := proxyReq_ok (h := inner.under outer.urlPrefix) (u := ascii "/") (by decide)
    (ht.trans (List.append_assoc _ _ _).symm) (fun _ => rfl)
  have he : (inner.under outer.urlPrefix).exchangeFor (longNetwork inner.urlPrefix.length)
      (getRequest (outer.urlPrefix ++ (inner.urlPrefix ++ ascii "/"))) =
      some ⟨true, true, true, .success, longPage inner.urlPrefix.length, .success⟩ :=
    exchangeFor_of_ok (inner.under outer.urlPrefix) hiv hr
  have hc := longPage_completes inner.urlPrefix.length
  have hhtml := isHtml_longPage inner.urlPrefix.length
  have hbodies := congrArg Response.body heq
  rw [body_behind_page hi hov ht he hc rfl hhtml, body_served_page _ he hc rfl hhtml] at hbodies
  have hcut : (replaceRelativeHtmlLinks inner.urlPrefix (longLink inner.urlPrefix.length)).take
      (longLink inner.urlPrefix.length).length = key href ++ (inner.urlPrefix ++ trigger href) := by
    rw [replaceRelativeHtmlLinks_eq hp hroot, insertAtLinks_longLink, longLink]
    have hlength : (key href ++ (trigger href ++ List.replicate inner.urlPrefix.length (chr 'a'))).length =
        (key href ++ (inner.urlPrefix ++ trigger href)).length := by
      simp only [List.length_append, List.length_replicate]
      omega
    have hsplit : key href ++ (inner.urlPrefix ++ (trigger href ++ List.replicate inner.urlPrefix.length (chr 'a'))) =
        key href ++ (inner.urlPrefix ++ trigger href) ++ List.replicate inner.urlPrefix.length (chr 'a') := by
      simp only [List.append_assoc]
    rw [hlength, hsplit, List.take_left]
  have hwhole : (replaceRelativeHtmlLinks (inner.under outer.urlPrefix).urlPrefix
      (longPage inner.urlPrefix.length).body).length =
      (key href).length + (outer.urlPrefix.length + inner.urlPrefix.length + (1 + inner.urlPrefix.length)) := by
    show (replaceRelativeHtmlLinks (outer.urlPrefix ++ inner.urlPrefix) (longLink inner.urlPrefix.length)).length = _
    rw [replaceRelativeHtmlLinks_eq hboth hbothr, insertAtLinks_longLink]
    simp only [List.length_append, List.length_replicate]
    rfl
  have hshort := length_cut_link ho hp
  have hpage : (longPage inner.urlPrefix.length).body = longLink inner.urlPrefix.length := rfl
  rw [hpage, hcut] at hbodies
  have hlengths := congrArg List.length hbodies
  have hpos := List.length_pos_iff.mpr hne
  rw [hpage] at hwhole
  omega

end ProxyRequestHandler
end Koko.Handlers
