import Koko.Session.ProxyLinks

/-! A redirect and a link in a page, for the same upstream address: what the client is given for
each, and when it is the same. -/
namespace Koko.Session
open Koko.Lib Koko.Http Koko.Config Koko.Handlers Koko.Server LinkKind

theorem insertAtLinks_of_no_root_link (urlPrefix : Bytes) {t : Bytes} (h : ¬ HasRootLink t) :
    insertAtLinks urlPrefix t = t := by
  unfold insertAtLinks
  induction t using site_induction with
  | nil => exact render_nil
  | raw c s hs ih =>
    rw [hasRootLink_cons hs] at h
    rw [render_cons hs, ih h]
  | site k s hk ih =>
    rw [hasRootLink_key hk, not_or, not_not] at h
    have hd : Doubled k s := h.1
    rw [render_key hk, ih h.2, if_pos hd, List.append_nil]

/-- No link begins in an address and the quote that ends it. -/
theorem no_root_link_in_address {u : Bytes} (hu : Unquoted u) : ¬ HasRootLink (u ++ [chr '\"']) := by
  intro h
  obtain ⟨a, k, s, he, ht, -⟩ := h
  obtain ⟨c, rest, hc, -⟩ := trigger_cons k
  rcases List.eq_nil_or_concat s with rfl | ⟨s, d, rfl⟩
  · rw [hc] at ht
    simp at ht
  · have he' : u ++ [chr '\"'] = a ++ (key k ++ s) ++ [d] := by
      rw [he]
      simp
    apply hu.delimiter k
    rw [(List.append_inj' he' rfl).1, key_eq]
    simp

private theorem no_root_link_before {w : Bytes} (hw : ∀ k, initial k ∉ w) {s : Bytes} (h : ¬ HasRootLink s) :
    ¬ HasRootLink (w ++ s) := by
  induction w with
  | nil => exact h
  | cons c w ih =>
    have hs : siteAt (c :: (w ++ s)) = none := siteAt_of_initial (fun k he => hw k (by simp [he])) _
    rw [List.cons_append, hasRootLink_cons hs]
    exact ih (fun k hm => hw k (List.mem_cons_of_mem c hm))

/-- An address that does not begin with a slash is no link from the root. -/
private theorem no_root_link_absolute {u : Bytes} (hu : Unquoted u) (hs : u.head? ≠ some (chr '/')) :
    ¬ HasRootLink (key href ++ (u ++ [chr '\"'])) := by
  have hstart : ¬ trigger href <+: u ++ [chr '\"'] := by
    cases u with
    | nil => decide
    | cons c u =>
      intro ht
      obtain ⟨hc, -⟩ := List.cons_prefix_cons.mp (show chr '/' :: [] <+: c :: (u ++ [chr '\"']) from ht)
      exact hs (by simp [hc])
  have hsite : siteAt (key href ++ (u ++ [chr '\"'])) = none := by
    cases hsome : siteAt (key href ++ (u ++ [chr '\"'])) with
    | none => rfl
    | some k =>
      obtain ⟨s, he, ht⟩ := exists_of_siteAt hsome
      cases k with
      | href =>
        rw [← List.append_cancel_left he] at ht
        exact absurd ht hstart
      | _ => simp [key, ascii, chr] at he
  rw [key_cons, List.cons_append] at hsite ⊢
  rw [hasRootLink_cons hsite]
  exact no_root_link_before (fun k => initial_not_mem_tail k href) (no_root_link_in_address hu)

/-- What a link in a page becomes. -/
def pageLink (urlPrefix u : Bytes) : Bytes :=
  if urlPrefix = [] ∨ urlPrefix = ascii "/" then u
  else if u.head? = some (chr '/') ∧ ¬ ascii "//" <+: u then urlPrefix ++ u
  else u

/-- A link in a page becomes what is said. -/
theorem replaceRelativeHtmlLinks_href {urlPrefix u : Bytes} (hp : urlPrefix = [] ∨ PlainPrefix urlPrefix)
    (hu : Unquoted u) :
    replaceRelativeHtmlLinks urlPrefix (ascii "href=\"" ++ u ++ ascii "\"") =
      ascii "href=\"" ++ pageLink urlPrefix u ++ ascii "\"" := by
  unfold pageLink
  by_cases hroot : urlPrefix = [] ∨ urlPrefix = ascii "/"
  · rw [if_pos hroot, replaceRelativeHtmlLinks, if_pos hroot.symm]
  · rw [if_neg hroot]
    rw [not_or] at hroot
    have hbody : ascii "href=\"" ++ u ++ ascii "\"" = key href ++ (u ++ [chr '\"']) := List.append_assoc _ _ _
    rw [replaceRelativeHtmlLinks_eq (hp.resolve_left hroot.1) hroot.2, hbody]
    by_cases hs : u.head? = some (chr '/')
    · have ht := trigger_starts_address hs [chr '\"']
      by_cases hd : ascii "//" <+: u
      · have hnone : ¬ HasRootLink (key href ++ (u ++ [chr '\"'])) := by
          rw [hasRootLink_key ht, not_or, not_not]
          exact ⟨(doubled_address_iff u []).mpr hd, no_root_link_in_address hu⟩
        rw [if_neg (fun h => h.2 hd), insertAtLinks_of_no_root_link urlPrefix hnone]
        exact hbody.symm
      · have hsingle : ¬ Doubled href (u ++ [chr '\"']) := fun h => hd ((doubled_address_iff u []).mp h)
        have hlink := insertAtLinks_append_key urlPrefix [] ht hsingle
        rw [insertAtLinks_of_no_root_link urlPrefix (no_root_link_in_address hu)] at hlink
        rw [if_pos ⟨hs, hd⟩]
        refine hlink.trans ?_
        simp [insertAtLinks, insertion, key, ascii]
    · rw [if_neg (fun h => hs h.1), insertAtLinks_of_no_root_link urlPrefix (no_root_link_absolute hu hs)]
      exact hbody.symm

/-- The stored prefix is empty, or begins with a slash as well. -/
theorem stored_plain {location urlPrefix : Bytes} (h : registeredPrefix location = some urlPrefix)
    (hu : Unquoted (eraseTrailingSlash urlPrefix)) :
    eraseTrailingSlash urlPrefix = [] ∨ PlainPrefix (eraseTrailingSlash urlPrefix) := by
  by_cases hempty : eraseTrailingSlash urlPrefix = []
  · exact .inl hempty
  · refine .inr ⟨?_, hu⟩
    have hhead := head?_registeredPrefix h
    obtain ⟨rest, hrest⟩ := eraseTrailingSlash_starts urlPrefix
    rwa [← hrest, List.head?_append_of_ne_nil _ hempty] at hhead

private theorem redirect_eq_pageLink_iff (urlPrefix u : Bytes) :
    (if u.head? = some (chr '/') then urlPrefix ++ u else u) = pageLink urlPrefix u ↔
      urlPrefix = [] ∨ u.head? ≠ some (chr '/') ∨ (urlPrefix ≠ ascii "/" ∧ ¬ ascii "//" <+: u) := by
  unfold pageLink
  by_cases hs : u.head? = some (chr '/')
  · by_cases hn : urlPrefix = []
    · simp [hn]
    · by_cases hr : urlPrefix = ascii "/"
      · simp [hs, hr, ascii]
      · by_cases hd : ascii "//" <+: u
        · simp [hs, hn, hr, hd]
        · simp [hs, hn, hr, hd]
  · simp [hs]

/-- For every redirect that comes back from upstream, the client is given the address that a link
in a page becomes, if the proxy is the root, the address names a host, or it is a path and the
proxy's prefix is not a single slash; and only then. -/
theorem redirect_agrees_iff {location urlPrefix : Bytes} (hp : registeredPrefix location = some urlPrefix)
    (block : NginxConfig) (hplain : ∀ b ∈ [chr '\"', chr '(', chr '\\'], b ∉ eraseTrailingSlash urlPrefix) {u : Bytes}
    (hu : ∀ b ∈ [chr '\"', chr '('], b ∉ u) {network : Network} {request : Request} {e : Exchange}
    (he : (ProxyRequestHandler.new urlPrefix block).exchangeFor network request = some e) (hc : e.Completes)
    (hr : e.response.result ∈ redirectionResults) (hl : e.response.get? locationField = some u) :
    (∀ v, replaceRelativeHtmlLinks (ProxyRequestHandler.new urlPrefix block).urlPrefix
        (ascii "href=\"" ++ u ++ ascii "\"") = ascii "href=\"" ++ v ++ ascii "\"" →
      ((ProxyRequestHandler.new urlPrefix block).handleRequest network request).1.get? locationField = some v) ↔
      (eraseTrailingSlash urlPrefix = [] ∨ u.head? ≠ some (chr '/') ∨
        (eraseTrailingSlash urlPrefix ≠ ascii "/" ∧ ¬ ascii "//" <+: u)) := by
  have hquote : Unquoted u := ⟨hu _ (by simp), hu _ (by simp)⟩
  have hstored := stored_plain hp ⟨hplain _ (by simp), hplain _ (by simp)⟩
  rw [location_of_exchange he hc hr hl, ProxyRequestHandler.urlPrefix_new,
    replaceRelativeHtmlLinks_href hstored hquote]
  have hsame : (∀ v, ascii "href=\"" ++ pageLink (eraseTrailingSlash urlPrefix) u ++ ascii "\"" =
      ascii "href=\"" ++ v ++ ascii "\"" →
        some (if u.head? = some (chr '/') then eraseTrailingSlash urlPrefix ++ u else u) = some v) ↔
      (if u.head? = some (chr '/') then eraseTrailingSlash urlPrefix ++ u else u) =
        pageLink (eraseTrailingSlash urlPrefix) u := by
    constructor
    · intro h
      exact Option.some.inj (h _ rfl)
    · intro h v hv
      rw [h, List.append_cancel_left (List.append_cancel_right hv)]
  rw [hsame]
  exact redirect_eq_pageLink_iff (eraseTrailingSlash urlPrefix) u

/-- The upstream site sends this address on. -/
def redirectTo (u : Bytes) : Network := fun _ _ _ =>
  ⟨true, true, true, .success, (newResponse 302).set locationField u, .success⟩

/-- Under `/uw` an address on another host stays in a page, and is led astray in a redirect. -/
theorem redirect_to_host_rewritten :
    replaceRelativeHtmlLinks siteLocation.proxy.urlPrefix (ascii "href=\"//host/x\"") = ascii "href=\"//host/x\"" ∧
    (siteLocation.proxy.handleRequest (redirectTo (ascii "//host/x"))
      ⟨ascii "GET", ascii "/uw/a", 11, [], []⟩).1.get? locationField = some (ascii "/uw//host/x") := by
  refine ⟨by decide +kernel, by decide +kernel⟩

/-- A redirect to a path agrees. -/
theorem redirect_to_path_agrees :
    ((ProxyRequestHandler.new (ascii "/uw") siteLocation.block).handleRequest (redirectTo (ascii "/about"))
      ⟨ascii "GET", ascii "/uw/a", 11, [], []⟩).1.get? locationField = some (ascii "/uw/about") := by
  have hplain : ∀ b ∈ [chr '\"', chr '(', chr '\\'], b ∉ eraseTrailingSlash (ascii "/uw") := by decide +kernel
  have hpage : replaceRelativeHtmlLinks (ProxyRequestHandler.new (ascii "/uw") siteLocation.block).urlPrefix
      (ascii "href=\"" ++ ascii "/about" ++ ascii "\"") = ascii "href=\"" ++ ascii "/uw/about" ++ ascii "\"" := by
    decide +kernel
  have hlink : ∀ b ∈ [chr '\"', chr '('], b ∉ ascii "/about" := by decide +kernel
  have hcompletes : (redirectTo (ascii "/about") [] [] ⟨[], [], 11, [], []⟩).Completes :=
    ⟨⟨rfl, rfl, rfl⟩, .inl rfl, fun _ => rfl⟩
  exact (redirect_agrees_iff siteLocation.registered siteLocation.block hplain hlink rfl hcompletes
    (by decide) rfl).mpr (.inr (.inr ⟨by decide, by decide +kernel⟩)) _ hpage

end Koko.Session
