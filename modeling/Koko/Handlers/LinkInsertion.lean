import Koko.Handlers.LinkRewriting

/-! The rewritten page position by position: what is inserted between two parts of a page is
told by how the first ends and how the second begins. -/
namespace Koko.Handlers
open Koko.Lib LinkKind

def encodeSlashes (urlPrefix : Bytes) : Bytes :=
  urlPrefix.flatMap (fun c => if c = chr '/' then ascii "\\2f" else [c])

/-- The text to insert between two parts of a page: the prefix where a link of one slash begins,
its encoded form where one of one encoded slash does. -/
def insertBetween (urlPrefix before after : Bytes) : Bytes :=
  if (ascii "href=\"" <:+ before ∨ ascii "src=\"" <:+ before ∨ ascii "url(\"" <:+ before) ∧
      ascii "/" <+: after ∧ ¬ ascii "//" <+: after then urlPrefix
  else if ascii "url(" <:+ before ∧ ascii "\\2f" <+: after ∧ ¬ ascii "\\2f\\2f" <+: after then
    encodeSlashes urlPrefix
  else []

/-- One pass from left to right over the rest of a page. -/
def insertFrom (urlPrefix : Bytes) (before : Bytes) : Bytes → Bytes
  | [] => []
  | c :: after => insertBetween urlPrefix before (c :: after) ++ c :: insertFrom urlPrefix (before ++ [c]) after

theorem insertion_eq (urlPrefix : Bytes) (k : LinkKind) :
    insertion urlPrefix k = if k = urlEncoded then encodeSlashes urlPrefix else urlPrefix := by
  cases k
  · rfl
  · rfl
  · rfl
  · exact replaceAll_singleton (chr '/') urlPrefix

/-- Text is inserted only before a slash or its encoded form. -/
theorem insertBetween_eq_nil {urlPrefix before after : Bytes} (h : ∀ k, key k <:+ before → ¬ trigger k <+: after) :
    insertBetween urlPrefix before after = [] := by
  unfold insertBetween
  rw [if_neg, if_neg]
  · rintro ⟨hk, ht, -⟩
    exact h urlEncoded hk ht
  · rintro ⟨hk | hk | hk, ht, -⟩
    · exact h href hk ht
    · exact h src hk ht
    · exact h urlQuoted hk ht

private theorem insertBetween_slash {urlPrefix before after : Bytes}
    (hk : ascii "href=\"" <:+ before ∨ ascii "src=\"" <:+ before ∨ ascii "url(\"" <:+ before)
    (ht : ascii "/" <+: after) :
    insertBetween urlPrefix before after = if ascii "//" <+: after then [] else urlPrefix := by
  have hslash : ¬ ascii "\\2f" <+: after := by
    obtain ⟨r, rfl⟩ := ht
    intro h
    exact absurd (List.cons_prefix_cons.mp h).1 (by decide)
  unfold insertBetween
  by_cases hd : ascii "//" <+: after
  · rw [if_neg (fun h => h.2.2 hd), if_neg (fun h => hslash h.2.1), if_pos hd]
  · rw [if_pos ⟨hk, ht, hd⟩, if_neg hd]

private theorem insertBetween_encoded {urlPrefix before after : Bytes} (hk : ascii "url(" <:+ before)
    (ht : ascii "\\2f" <+: after) :
    insertBetween urlPrefix before after = if ascii "\\2f\\2f" <+: after then [] else encodeSlashes urlPrefix := by
  have hslash : ¬ ascii "/" <+: after := by
    obtain ⟨r, rfl⟩ := ht
    intro h
    exact absurd (List.cons_prefix_cons.mp h).1 (by decide)
  unfold insertBetween
  rw [if_neg (fun h => hslash h.2.1)]
  by_cases hd : ascii "\\2f\\2f" <+: after
  · rw [if_neg (fun h => h.2.2 hd), if_pos hd]
  · rw [if_pos ⟨hk, ht, hd⟩, if_neg hd]

theorem insertBetween_key (urlPrefix before : Bytes) {k : LinkKind} {s : Bytes} (h : trigger k <+: s) :
    insertBetween urlPrefix (before ++ key k) s = if Doubled k s then [] else insertion urlPrefix k := by
  have hends : key k <:+ before ++ key k := List.suffix_append _ _
  rw [insertion_eq]
  cases k with
  | href => exact insertBetween_slash (.inl hends) h
  | src => exact insertBetween_slash (.inr (.inl hends)) h
  | urlQuoted => exact insertBetween_slash (.inr (.inr hends)) h
  | urlEncoded => exact insertBetween_encoded hends h

/-- The first byte of a slash is in no key. -/
private theorem not_starts_of_mem_key {j k : LinkKind} {c : Byte} (h : c ∈ key j) (s : Bytes) : ¬ trigger k <+: c :: s := by
  obtain ⟨d, rest, hd, hq, hp, hstem⟩ := trigger_cons k
  rw [hd, List.cons_prefix_cons]
  rintro ⟨rfl, -⟩
  rw [key_eq, List.mem_append, List.mem_singleton] at h
  rcases h with h | h
  · exact hstem j h
  · cases j
    · exact hq h
    · exact hq h
    · exact hq h
    · exact hp h

/-- Nothing is inserted in front of or inside a key. -/
theorem insertFrom_append_key (urlPrefix before : Bytes) (k : LinkKind) (s : Bytes) :
    insertFrom urlPrefix before (key k ++ s) = key k ++ insertFrom urlPrefix (before ++ key k) s := by
  have hall : ∀ w, (∀ c ∈ w, c ∈ key k) → ∀ before,
      insertFrom urlPrefix before (w ++ s) = w ++ insertFrom urlPrefix (before ++ w) s := by
    intro w
    induction w with
    | nil => simp
    | cons c w ih =>
      intro hw before
      have hc : insertBetween urlPrefix before (c :: (w ++ s)) = [] :=
        insertBetween_eq_nil fun j _ => not_starts_of_mem_key (hw c (by simp)) _
      rw [List.cons_append, insertFrom, hc, ih (fun d hd => hw d (by simp [hd]))]
      simp
  exact hall (key k) (fun _ h => h) before

/-- No key lies across the border, up to a slash behind it. -/
def Clear (before after : Bytes) : Prop :=
  ∀ k a b, key k = a ++ b → a ≠ [] → b ≠ [] → a <:+ before → ¬ b ++ trigger k <+: after

theorem clear_nil (after : Bytes) : Clear [] after :=
  fun _ _ _ _ ha _ hs _ => ha (List.suffix_nil.mp hs)

/-- A key does not go on behind a slash. -/
theorem clear_of_trigger {k : LinkKind} {after : Bytes} (h : trigger k <+: after) (before : Bytes) :
    Clear before after := by
  intro j a b hj _ hb _ hstarts
  obtain ⟨c, rest, rfl⟩ := List.exists_cons_of_ne_nil hb
  obtain ⟨r, rfl⟩ := hstarts
  have hc : c ∈ key j := by simp [hj]
  exact not_starts_of_mem_key hc _ h

/-- A byte at which no link begins: the border moves over it and nothing is inserted behind. -/
theorem Clear.cons {before after : Bytes} {c : Byte} (h : Clear before (c :: after)) (hs : siteAt (c :: after) = none)
    (k : LinkKind) {a b : Bytes} (hk : key k = a ++ b) (ha : a ≠ []) (hsuffix : a <:+ before ++ [c]) :
    ¬ b ++ trigger k <+: after := by
  intro hb
  obtain ⟨a, d, rfl⟩ := (List.eq_nil_or_concat a).resolve_left ha
  rw [List.concat_eq_append] at hk hsuffix
  obtain ⟨hd, hends⟩ : d = c ∧ a <:+ before := by
    obtain ⟨l, hl⟩ := hsuffix
    rw [← List.append_assoc] at hl
    obtain ⟨h₁, h₂⟩ := List.append_inj' hl rfl
    exact ⟨(List.cons.inj h₂).1, l, h₁⟩
  subst hd
  have hstarts : d :: b ++ trigger k <+: d :: after := List.cons_prefix_cons.mpr ⟨rfl, hb⟩
  cases a with
  | nil =>
    apply not_starts_of_siteAt hs k
    rw [hk]
    exact hstarts
  | cons e a =>
    refine h k (e :: a) (d :: b) ?_ (List.cons_ne_nil _ _) (List.cons_ne_nil _ _) hends hstarts
    rw [hk]
    simp

/-- The pass from a border on is what goes in at the border and the pass over the rest. -/
theorem insertFrom_eq (urlPrefix : Bytes) {before after : Bytes} (h : Clear before after) :
    insertFrom urlPrefix before after =
      insertBetween urlPrefix before after ++ insertAtLinks urlPrefix after := by
  unfold insertAtLinks
  induction after using site_induction generalizing before with
  | nil =>
    have hnil : insertBetween urlPrefix before [] = [] := insertBetween_eq_nil fun k _ ht => by
      obtain ⟨c, rest, hc, -⟩ := trigger_cons k
      rw [hc] at ht
      exact absurd (List.prefix_nil.mp ht) (List.cons_ne_nil _ _)
    rw [hnil, render_nil]
    rfl
  | raw c s hs ih =>
    have hnone : insertBetween urlPrefix (before ++ [c]) s = [] := insertBetween_eq_nil fun k hk => by
      have hne : key k ≠ [] := by
        rw [key_cons]
        exact List.cons_ne_nil _ _
      exact h.cons hs k (List.append_nil _).symm hne hk
    have hclear : Clear (before ++ [c]) s := fun k a b hk ha _ hsuffix => h.cons hs k hk ha hsuffix
    rw [insertFrom, ih hclear, hnone, render_cons hs, List.nil_append]
  | site k s hk ih =>
    have hnone : insertBetween urlPrefix before (key k ++ s) = [] := insertBetween_eq_nil fun j _ => by
      have hc : initial k ∈ key k := by
        rw [key_cons]
        exact List.mem_cons_self
      rw [key_cons, List.cons_append]
      exact not_starts_of_mem_key hc _
    rw [insertFrom_append_key, ih (clear_of_trigger hk _), insertBetween_key urlPrefix before hk, hnone,
      render_key hk, List.nil_append, List.append_assoc]

/-- The eight replacements insert the prefix right behind each `href="`, `src="` and `url("` that
is followed by one slash, its encoded form behind each `url(` that is followed by one encoded
slash, and change nothing else. -/
theorem replaced_links_inserted {urlPrefix : Bytes} (hslash : urlPrefix.head? = some (chr '/'))
    (hroot : urlPrefix ≠ ascii "/") (hquote : chr '\"' ∉ urlPrefix) (hbracket : chr '(' ∉ urlPrefix) (body : Bytes) :
    replaceRelativeHtmlLinks urlPrefix body = insertFrom urlPrefix [] body := by
  have hnone : insertBetween urlPrefix [] body = [] := insertBetween_eq_nil fun k hk => by
    rw [List.suffix_nil, key_cons] at hk
    exact absurd hk (List.cons_ne_nil _ _)
  rw [replaceRelativeHtmlLinks_eq ⟨hslash, hquote, hbracket⟩ hroot, insertFrom_eq urlPrefix (clear_nil body), hnone,
    List.nil_append]

/-- A page that already holds the prefix, a link to another host and an encoded link. -/
theorem replaced_links_inserted_uw :
    replaceRelativeHtmlLinks (ascii "/uw") (ascii "href=\"/uw//a\" src=\"//b\" url(\\2f c)") =
      ascii "href=\"/uw/uw//a\" src=\"//b\" url(\\2fuw\\2f c)" := by
  rw [replaced_links_inserted (by decide) (by decide) (by decide) (by decide)]
  decide +kernel

end Koko.Handlers
