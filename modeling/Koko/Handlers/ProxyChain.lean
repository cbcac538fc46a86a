import Koko.Handlers.LinkInsertion

/-! The links of a page rewritten under one prefix and then under another are those rewritten once under
both, if the inner prefix does not begin like the address of another host. -/
namespace Koko.Handlers
open Koko.Lib Koko.Http LinkKind

/-- Text without quotes and brackets in front of a slash is copied. -/
theorem render_append_unquoted {y : LinkKind → Bytes → Bytes} {w : Bytes} (hw : Unquoted w) {k : LinkKind} {s : Bytes}
    (hs : trigger k <+: s) : render y (w ++ s) = w ++ render y s := by
  induction w with
  | nil => rfl
  | cons c w ih =>
    have hw' : Unquoted w := ⟨fun h => hw.1 (List.mem_cons_of_mem c h), fun h => hw.2 (List.mem_cons_of_mem c h)⟩
    have hsite : siteAt (c :: (w ++ s)) = none := by
      rw [siteAt, List.find?_eq_none]
      intro j _ hj
      rw [decide_eq_true_eq] at hj
      -- the key's last byte is no byte of the text, and the slash behind it is no byte of the key
      have hkey : key j <+: c :: w ++ s := (List.prefix_append _ _).trans hj
      rcases Nat.lt_or_ge (c :: w).length (key j).length with hlt | hge
      · obtain ⟨d, rest, hd, hq, hp, hstem⟩ := trigger_cons k
        have hshort : c :: w ++ [d] <+: key j := by
          refine List.prefix_of_prefix_length_le ?_ hkey (by rw [List.length_append]; exact hlt)
          rw [List.prefix_append_right_inj]
          exact List.IsPrefix.trans ⟨rest, hd.symm⟩ hs
        have hm : d ∈ key j := hshort.subset (by simp)
        rw [key_eq, List.mem_append, List.mem_singleton] at hm
        rcases hm with hm | hm
        · exact hstem j hm
        · cases j
          · exact hq hm
          · exact hq hm
          · exact hq hm
          · exact hp hm
      · have hinside := List.prefix_of_prefix_length_le hkey (List.prefix_append _ _) hge
        exact hw.delimiter j (hinside.subset (by rw [key_eq]; simp))
    rw [List.cons_append, render_cons hsite, ih hw', List.cons_append]

theorem siteAt_render {x : LinkKind → Bytes → Bytes} {c : Byte} {s : Bytes} (h : siteAt (c :: s) = none) :
    siteAt (c :: render x s) = none := by
  rw [siteAt, List.find?_eq_none]
  intro j _ hj
  exact not_starts_copied (unquoted_trigger j) (List.prefix_refl _) h (of_decide_eq_true hj)

/-- Two slashes, as the links of a kind spell them, begin the prefix and what follows it. -/
def DoublesAt (urlPrefix : Bytes) (k : LinkKind) : Prop := Doubled k (insertion urlPrefix k ++ trigger k)

instance (urlPrefix : Bytes) (k : LinkKind) : Decidable (DoublesAt urlPrefix k) :=
  inferInstanceAs (Decidable (Doubled _ _))

theorem insertion_append (outer inner : Bytes) (k : LinkKind) :
    insertion (outer ++ inner) k = insertion outer k ++ insertion inner k := by
  rw [insertion_eq, insertion_eq, insertion_eq]
  split_ifs
  · exact List.flatMap_append
  · rfl

/-- What was inserted decides whether the link still begins with one slash. -/
theorem doubled_insertion_iff {inner : Bytes} (hi : PlainPrefix inner) {k : LinkKind} {s : Bytes} (hs : trigger k <+: s) :
    Doubled k (insertion inner k ++ s) ↔ DoublesAt inner k := by
  obtain ⟨r, rfl⟩ := hs
  unfold DoublesAt Doubled
  rw [← List.append_assoc]
  constructor
  · intro h
    refine List.prefix_of_prefix_length_le h (List.prefix_append _ _) ?_
    rw [List.length_append, List.length_append]
    exact Nat.add_le_add_right (hi.trigger_starts_insertion k).length_le _
  · intro h
    exact h.trans (List.prefix_append _ _)

/-- Two passes over a page: at a link of one slash the second inserts in front of what the first has
inserted, unless that makes it the address of another host. -/
theorem insertAtLinks_insertAtLinks {outer inner : Bytes} (hi : PlainPrefix inner) (t : Bytes) :
    insertAtLinks outer (insertAtLinks inner t) = render (fun k s =>
      if Doubled k s then [] else (if DoublesAt inner k then [] else insertion outer k) ++ insertion inner k) t := by
  unfold insertAtLinks
  induction t using site_induction with
  | nil => rw [render_nil, render_nil, render_nil]
  | raw c s hs ih => rw [render_cons hs, render_cons (siteAt_render hs), render_cons hs, ih]
  | site k s hk ih =>
    have hk' : trigger k <+: render (fun k s => if Doubled k s then [] else insertion inner k) s := by
      rw [starts_render_iff (keyFree_unquoted (unquoted_trigger k))]
      exact hk
    rw [render_key hk, render_key hk]
    by_cases hd : Doubled k s
    · have hd' : Doubled k (render (fun k s => if Doubled k s then [] else insertion inner k) s) := by
        unfold Doubled
        rw [starts_render_iff (keyFree_unquoted ((unquoted_trigger k).append (unquoted_trigger k)))]
        exact hd
      rw [if_pos hd, if_pos hd, List.append_nil, render_key hk', if_pos hd', ih, List.append_nil]
    · rw [if_neg hd, if_neg hd, List.append_assoc,
        render_key ((hi.trigger_starts_insertion k).trans (List.prefix_append _ _)),
        render_append_unquoted (hi.unquoted_insertion k) hk', ih, if_congr (doubled_insertion_iff hi hk') rfl rfl]
      simp only [List.append_assoc]

/-- A link for each kind, to compare two ways to rewrite a page. -/
def sampleLink (k : LinkKind) : Bytes := key k ++ trigger k

theorem sampleLink_rendered (k : LinkKind) (x : LinkKind → Bytes → Bytes) :
    render x (sampleLink k) = key k ++ x k (trigger k) ++ trigger k := by
  have ht : render x (trigger k) = trigger k := by
    have h := render_trigger (x := x) k []
    rwa [List.append_nil, render_nil, List.append_nil] at h
  rw [sampleLink, render_key (List.prefix_refl _), ht]

theorem not_doubled_trigger (k : LinkKind) : ¬ Doubled k (trigger k) := by
  cases k <;> decide

/-- Two passes are one with both prefixes exactly if the inner prefix leaves links of one slash. -/
theorem insertAtLinks_comp_iff {outer inner : Bytes} (ho : PlainPrefix outer) (hi : PlainPrefix inner) :
    (∀ t, insertAtLinks outer (insertAtLinks inner t) = insertAtLinks (outer ++ inner) t) ↔ ∀ k, ¬ DoublesAt inner k := by
  constructor
  · intro h k hk
    have hsample := h (sampleLink k)
    rw [insertAtLinks_insertAtLinks hi, insertAtLinks, sampleLink_rendered, sampleLink_rendered,
      if_neg (not_doubled_trigger k), if_neg (not_doubled_trigger k), if_pos hk, insertion_append] at hsample
    have hempty : insertion outer k = [] := by
      have hlength := congrArg List.length hsample
      simp only [List.length_append, List.length_nil] at hlength
      exact List.eq_nil_of_length_eq_zero (by omega)
    have hstarts := ho.trigger_starts_insertion k
    obtain ⟨c, rest, hc, -⟩ := trigger_cons k
    rw [hempty, hc, List.prefix_nil] at hstarts
    exact absurd hstarts (List.cons_ne_nil _ _)
  · intro h t
    rw [insertAtLinks_insertAtLinks hi, insertAtLinks]
    congr 1
    funext k s
    rw [if_neg (h k), insertion_append]

theorem encodeSlashes_slash (q : Bytes) : encodeSlashes (chr '/' :: q) = ascii "\\2f" ++ encodeSlashes q := rfl

theorem encodeSlashes_cons {c : Byte} (h : c ≠ chr '/') (q : Bytes) : encodeSlashes (c :: q) = c :: encodeSlashes q := by
  rw [encodeSlashes, List.flatMap_cons, if_neg h]
  rfl

/-- A text of other bytes begins the encoded prefix exactly if it begins the prefix. -/
private theorem starts_encoded_iff {y : Bytes} (hs : chr '/' ∉ y) (hb : chr '\\' ∉ y) (q : Bytes) :
    y <+: encodeSlashes q ++ ascii "\\2f" ↔ y <+: q := by
  induction y generalizing q with
  | nil => simp
  | cons d y ih =>
    rw [List.mem_cons, not_or] at hs hb
    have hd : ∀ s, ¬ d :: y <+: ascii "\\2f" ++ s := fun s h => hb.1 (List.cons_prefix_cons.mp h).1.symm
    cases q with
    | nil => exact iff_of_false (List.append_nil (ascii "\\2f") ▸ hd []) (by simp)
    | cons c q =>
      by_cases hc : c = chr '/'
      · rw [hc, encodeSlashes_slash, List.append_assoc, List.cons_prefix_cons]
        exact iff_of_false (hd _) (fun h => hs.1 h.1.symm)
      · rw [encodeSlashes_cons hc, List.cons_append, List.cons_prefix_cons, List.cons_prefix_cons, ih hs.2 hb.2]

private theorem encoded_starts_iff (q : Bytes) :
    ascii "\\2f" <+: encodeSlashes q ++ ascii "\\2f" ↔ q = [] ∨ ascii "/" <+: q ∨ ascii "\\2f" <+: q := by
  cases q with
  | nil => exact iff_of_true (List.prefix_refl _) (.inl rfl)
  | cons c q =>
    by_cases hc : c = chr '/'
    · rw [hc, encodeSlashes_slash, List.append_assoc]
      exact iff_of_true (List.prefix_append _ _) (.inr (.inl ⟨q, rfl⟩))
    · have hslash : ¬ ascii "/" <+: c :: q := fun h => hc (List.cons_prefix_cons.mp h).1.symm
      rw [encodeSlashes_cons hc, List.cons_append, or_iff_right (List.cons_ne_nil c q), or_iff_right hslash]
      show chr '\\' :: ascii "2f" <+: _ ↔ chr '\\' :: ascii "2f" <+: _
      rw [List.cons_prefix_cons, List.cons_prefix_cons, starts_encoded_iff (by decide) (by decide)]

/-- The prefix begins with two slashes, or with a slash and an encoded one. -/
def BeginsDoubled (urlPrefix : Bytes) : Prop := ascii "//" <+: urlPrefix ∨ ascii "/\\2f" <+: urlPrefix

instance (urlPrefix : Bytes) : Decidable (BeginsDoubled urlPrefix) := inferInstanceAs (Decidable (_ ∨ _))

theorem doublesAt_iff {urlPrefix : Bytes} (hp : PlainPrefix urlPrefix) (hr : urlPrefix ≠ ascii "/") :
    (∃ k, DoublesAt urlPrefix k) ↔ BeginsDoubled urlPrefix := by
  obtain ⟨q, rfl⟩ : ∃ q, urlPrefix = chr '/' :: q := ⟨urlPrefix.tail, (List.cons_head?_tail hp.slash).symm⟩
  have hq : q ≠ [] := by
    rintro rfl
    exact hr rfl
  have hplain : ∀ k, k ≠ urlEncoded → (DoublesAt (chr '/' :: q) k ↔ ascii "//" <+: chr '/' :: q) := by
    intro k hk
    have ht : trigger k = ascii "/" := by
      cases k <;> first | rfl | exact absurd rfl hk
    obtain ⟨c, r, rfl⟩ := List.exists_cons_of_ne_nil hq
    rw [DoublesAt, Doubled, insertion_eq, if_neg hk, ht]
    show chr '/' :: chr '/' :: [] <+: chr '/' :: c :: (r ++ _) ↔ chr '/' :: chr '/' :: [] <+: chr '/' :: c :: r
    simp only [List.cons_prefix_cons, List.nil_prefix]
  have hencoded : DoublesAt (chr '/' :: q) urlEncoded ↔ BeginsDoubled (chr '/' :: q) := by
    rw [DoublesAt, Doubled, insertion_eq, if_pos rfl, encodeSlashes_slash, List.append_assoc]
    show ascii "\\2f" ++ ascii "\\2f" <+: ascii "\\2f" ++ (encodeSlashes q ++ ascii "\\2f") ↔
      chr '/' :: ascii "/" <+: chr '/' :: q ∨ chr '/' :: ascii "\\2f" <+: chr '/' :: q
    rw [List.prefix_append_right_inj, encoded_starts_iff, or_iff_right hq, List.prefix_cons_inj, List.prefix_cons_inj]
  constructor
  · rintro ⟨k, hk⟩
    by_cases he : k = urlEncoded
    · exact hencoded.mp (he ▸ hk)
    · exact .inl ((hplain k he).mp hk)
  · intro h
    exact ⟨urlEncoded, hencoded.mpr h⟩

/-- The stored prefix of a location: that of the root, or a path in which nothing misleads the replacements. -/
def Stored (urlPrefix : Bytes) : Prop := urlPrefix = [] ∨ (PlainPrefix urlPrefix ∧ urlPrefix ≠ ascii "/")

theorem head?_append_of_stored {urlPrefix u : Bytes} (h : Stored urlPrefix) (hu : u.head? = some (chr '/')) :
    (urlPrefix ++ u).head? = some (chr '/') := by
  rcases h with rfl | ⟨hp, -⟩
  · exact hu
  · rw [List.head?_append, hp.slash]
    rfl

theorem Stored.append {outer inner : Bytes} (ho : Stored outer) (hi : Stored inner) : Stored (outer ++ inner) := by
  rcases ho with rfl | ⟨hop, hor⟩
  · exact hi
  rcases hi with rfl | ⟨hip, hir⟩
  · rw [List.append_nil]
    exact .inr ⟨hop, hor⟩
  refine .inr ⟨⟨head?_append_of_stored (.inr ⟨hop, hor⟩) hip.slash, hop.unquoted.append hip.unquoted⟩, fun h => ?_⟩
  rcases List.append_eq_singleton_iff.mp (show outer ++ inner = [chr '/'] from h) with ⟨rfl, -⟩ | ⟨hone, -⟩
  · exact absurd hop.slash (by simp)
  · exact hor hone

/-- The links of a page rewritten twice are those rewritten once under both prefixes, if the outer proxy
is the root or the inner prefix does not begin like the address of another host; and only then. -/
theorem replaceRelativeHtmlLinks_comp_iff {outer inner : Bytes} (ho : Stored outer) (hi : Stored inner) :
    (∀ body, replaceRelativeHtmlLinks outer (replaceRelativeHtmlLinks inner body) =
      replaceRelativeHtmlLinks (outer ++ inner) body) ↔ outer = [] ∨ ¬ BeginsDoubled inner := by
  have hroot : ∀ body, replaceRelativeHtmlLinks [] body = body := fun body => if_pos (.inr rfl)
  have hboth := ho.append hi
  rcases ho with rfl | ⟨ho, hor⟩
  · exact iff_of_true (fun body => hroot _) (.inl rfl)
  rcases hi with rfl | ⟨hi, hir⟩
  · refine iff_of_true (fun body => ?_) (.inr (by decide))
    rw [hroot, List.append_nil]
  have hne : outer ≠ [] := by
    rintro rfl
    exact absurd ho.slash (by simp)
  obtain ⟨hbothp, hbothr⟩ := hboth.resolve_left (fun h => hne (List.append_eq_nil_iff.mp h).1)
  rw [or_iff_right hne, ← doublesAt_iff hi hir, not_exists, ← insertAtLinks_comp_iff ho hi]
  simp only [replaceRelativeHtmlLinks_eq ho hor, replaceRelativeHtmlLinks_eq hi hir,
    replaceRelativeHtmlLinks_eq hbothp hbothr]

end Koko.Handlers
