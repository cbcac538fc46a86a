import Koko.Handlers.LinkSites

/-! The eight replacements of `replace_relative_html_links` as one pass: the prefix is
inserted at each link that begins with exactly one slash. -/
namespace Koko.Handlers
open Koko.Lib LinkKind

/-- Neither a double quote nor an opening bracket. -/
def Unquoted (w : Bytes) : Prop := chr '\"' ∉ w ∧ chr '(' ∉ w

theorem Unquoted.append {v w : Bytes} (hv : Unquoted v) (hw : Unquoted w) : Unquoted (v ++ w) := by
  unfold Unquoted at *
  simp only [List.mem_append]
  tauto

theorem unquoted_trigger (k : LinkKind) : Unquoted (trigger k) := by
  cases k <;> exact ⟨by decide, by decide⟩

theorem Unquoted.delimiter {w : Bytes} (h : Unquoted w) (k : LinkKind) : k.delimiter ∉ w := by
  cases k
  · exact h.1
  · exact h.1
  · exact h.1
  · exact h.2

private theorem infix_of_infix_append {a v w : Bytes} {z : Byte} (hz : z ∉ w) (h : a ++ [z] <:+: v ++ w) :
    a ++ [z] <:+: v := by
  obtain ⟨l, r, he⟩ := h
  rcases List.append_eq_append_iff.mp he with ⟨m, hv, -⟩ | ⟨m, hl, hw⟩
  · exact ⟨l, m, hv.symm⟩
  · rcases List.eq_nil_or_concat m with rfl | ⟨m, c, rfl⟩
    · exact ⟨l, [], by rw [List.append_nil, hl, List.append_nil]⟩
    · have hc : z = c := by
        have := congrArg List.getLast? hl
        simpa using this
      exact absurd (by simp [hw, hc]) hz

/-- Past its first letter a search text holds no key. -/
theorem keyFree_search (j : LinkKind) {b : Bytes} (hb : Unquoted b) : KeyFree ((key j).tail ++ b) := by
  intro k hk
  rw [key_eq k] at hk
  have hi := infix_of_infix_append (hb.delimiter k) hk
  rw [← key_eq k] at hi
  revert hi
  cases j <;> cases k <;> decide

theorem keyFree_unquoted {w : Bytes} (hw : Unquoted w) : KeyFree w := by
  intro k hk
  rw [key_eq k] at hk
  exact hw.delimiter k (hk.subset (by simp))

variable {x : LinkKind → Bytes → Bytes} {format : Bytes}

/-- A search text that begins like a link is not found at a copied byte. -/
theorem not_starts_copied {j : LinkKind} {b : Bytes} (hb : Unquoted b) (ht : trigger j <+: b) {c : Byte} {s : Bytes}
    (hs : siteAt (c :: s) = none) : ¬ key j ++ b <+: c :: render x s := by
  rw [key_cons, List.cons_append, List.cons_prefix_cons, starts_render_iff (keyFree_search j hb),
    ← List.cons_prefix_cons, ← List.cons_append, ← key_cons]
  intro h
  apply not_starts_of_siteAt hs j
  exact ((List.prefix_append_right_inj (key j)).mpr ht).trans h

/-- Bytes that begin no key are passed over. -/
theorem replaceAll_append_of_initial {j : LinkKind} {w : Bytes} (hw : initial j ∉ w) (b s : Bytes) :
    replaceAll (key j ++ b) format (w ++ s) = w ++ replaceAll (key j ++ b) format s := by
  rw [key_cons, List.cons_append]
  exact replaceAll_append_of_head hw s

theorem replaceAll_trigger (j k : LinkKind) (b s : Bytes) :
    replaceAll (key j ++ b) format (trigger k ++ s) = trigger k ++ replaceAll (key j ++ b) format s :=
  replaceAll_append_of_initial (initial_not_mem_trigger j k) b s

theorem key_append_ne_nil (j : LinkKind) (b : Bytes) : key j ++ b ≠ [] := by
  rw [key_cons]
  simp

/-- A link that is not searched for is passed over with what was inserted there. -/
theorem replaceAll_skip_link {j k : LinkKind} {b w : Bytes} {s : Bytes} (hw : Unquoted w) (hs : trigger k <+: s)
    (hn : ¬ key j ++ b <+: key k ++ w ++ s) :
    replaceAll (key j ++ b) format (key k ++ w ++ s) = key k ++ w ++ replaceAll (key j ++ b) format s := by
  obtain ⟨c, rest, hc, hq, hp, hstem⟩ := trigger_cons k
  obtain ⟨r, rfl⟩ := hs
  have hfree : replaceAll (key j ++ b) format (w ++ (trigger k ++ r)) =
      w ++ replaceAll (key j ++ b) format (trigger k ++ r) := by
    rw [hc, List.cons_append, key_eq, List.append_assoc, List.singleton_append]
    apply replaceAll_append_of_free (hw.delimiter j)
    · cases j
      · exact hq
      · exact hq
      · exact hq
      · exact hp
    · exact hstem j
  rw [key_cons k, List.append_assoc, List.cons_append] at hn ⊢
  rw [replaceAll_cons hn, replaceAll_append_of_initial (initial_not_mem_tail j k), hfree]
  simp

/-- What is inserted at a link. -/
def insertion (urlPrefix : Bytes) : LinkKind → Bytes
  | urlEncoded => replaceAll (ascii "/") (ascii "\\2f") urlPrefix
  | _ => urlPrefix

/-- None of the eight searched texts occurs. -/
def Untouched (urlPrefix body : Bytes) : Prop :=
  ∀ k, ¬ key k ++ trigger k <:+: body ∧ ¬ key k ++ insertion urlPrefix k ++ (trigger k ++ trigger k) <:+: body

/-- Whatever the prefix is, a page without the searched texts stays as it is. -/
theorem replaceRelativeHtmlLinks_of_untouched {urlPrefix body : Bytes} (h : Untouched urlPrefix body) :
    replaceRelativeHtmlLinks urlPrefix body = body := by
  have hinsert : ∀ k format text, text = body → replaceAll (key k ++ trigger k) format text = body := by
    rintro k format _ rfl
    exact replaceAll_of_not_infix (h k).1
  have hrevert : ∀ k format text, text = body →
      replaceAll (key k ++ insertion urlPrefix k ++ (trigger k ++ trigger k)) format text = body := by
    rintro k format _ rfl
    exact replaceAll_of_not_infix (h k).2
  unfold replaceRelativeHtmlLinks
  split_ifs
  · rfl
  · have hbody := hinsert href (key href ++ urlPrefix ++ ascii "/") body rfl
    have hbody := hinsert src (key src ++ urlPrefix ++ ascii "/") _ hbody
    have hbody := hinsert urlQuoted (key urlQuoted ++ urlPrefix ++ ascii "/") _ hbody
    have hbody := hinsert urlEncoded (key urlEncoded ++ insertion urlPrefix urlEncoded ++ ascii "\\2f") _ hbody
    have hbody := hrevert href (ascii "href=\"//") _ hbody
    have hbody := hrevert src (ascii "src=\"//") _ hbody
    have hbody := hrevert urlQuoted (ascii "url(\"//") _ hbody
    exact hrevert urlEncoded (ascii "url(\\2f\\2f") _ hbody

/-- A prefix that the replacements insert without being misled by it. -/
structure PlainPrefix (urlPrefix : Bytes) : Prop where
  slash : urlPrefix.head? = some (chr '/')
  unquoted : Unquoted urlPrefix

namespace PlainPrefix
variable {urlPrefix : Bytes}

theorem unquoted_insertion (h : PlainPrefix urlPrefix) (k : LinkKind) : Unquoted (insertion urlPrefix k) := by
  have hmem : ∀ b, b ∉ ascii "\\2f" → b ∉ urlPrefix → b ∉ insertion urlPrefix urlEncoded :=
    fun b h₁ h₂ hm => (mem_of_mem_replaceAll hm).elim h₁ h₂
  cases k
  · exact h.unquoted
  · exact h.unquoted
  · exact h.unquoted
  · exact ⟨hmem _ (by decide) h.unquoted.1, hmem _ (by decide) h.unquoted.2⟩

theorem trigger_starts_insertion (h : PlainPrefix urlPrefix) (k : LinkKind) : trigger k <+: insertion urlPrefix k := by
  obtain ⟨rest, rfl⟩ : ∃ rest, urlPrefix = chr '/' :: rest := ⟨urlPrefix.tail, (List.cons_head?_tail h.slash).symm⟩
  have hplain : ascii "/" <+: chr '/' :: rest := ⟨rest, rfl⟩
  have hencoded : ascii "\\2f" <+: insertion (chr '/' :: rest) urlEncoded :=
    ⟨replaceAll (ascii "/") (ascii "\\2f") rest, (replaceAll_append (by decide) rest).symm⟩
  cases k
  · exact hplain
  · exact hplain
  · exact hplain
  · exact hencoded

end PlainPrefix

/-- Two slashes: the link names another host. -/
def Doubled (k : LinkKind) (s : Bytes) : Prop := trigger k ++ trigger k <+: s

instance (k : LinkKind) (s : Bytes) : Decidable (Doubled k s) := inferInstanceAs (Decidable (_ <+: _))

/-- The insertions after some of the replacements: `inserted` kinds have had their first one
made, `reverted` kinds also their second. -/
def staged (urlPrefix : Bytes) (inserted reverted : LinkKind → Bool) (k : LinkKind) (s : Bytes) : Bytes :=
  if inserted k = true ∧ ¬ (reverted k = true ∧ Doubled k s) then insertion urlPrefix k else []

/-- What stands at a link depends on the stage of its own kind only. -/
theorem staged_congr {urlPrefix : Bytes} {inserted reverted inserted' reverted' : LinkKind → Bool} {k : LinkKind}
    (hi : inserted' k = inserted k) (hr : reverted' k = reverted k) (s : Bytes) :
    staged urlPrefix inserted' reverted' k s = staged urlPrefix inserted reverted k s := by
  unfold staged
  rw [hi, hr]

section Stages
variable {urlPrefix : Bytes} {inserted reverted : LinkKind → Bool} (hp : PlainPrefix urlPrefix)
include hp

theorem unquoted_staged (k : LinkKind) (s : Bytes) : Unquoted (staged urlPrefix inserted reverted k s) := by
  unfold staged
  split_ifs
  · exact hp.unquoted_insertion k
  · exact ⟨by simp, by simp⟩

/-- A link still begins with a slash after the insertion. -/
theorem trigger_starts_staged {k : LinkKind} {s : Bytes} (hs : trigger k <+: s) :
    trigger k <+: staged urlPrefix inserted reverted k s ++ render (staged urlPrefix inserted reverted) s := by
  unfold staged
  split_ifs
  · exact (hp.trigger_starts_insertion k).trans (List.prefix_append _ _)
  · obtain ⟨r, rfl⟩ := hs
    rw [List.nil_append, render_trigger]
    exact List.prefix_append _ _

/-- A replacement for one kind leaves the links of the others alone. -/
theorem replaceAll_other_kind {j k : LinkKind} (hjk : j ≠ k) {b format s : Bytes} (ht : trigger j <+: b)
    (hs : trigger k <+: s) :
    replaceAll (key j ++ b) format
        (key k ++ staged urlPrefix inserted reverted k s ++ render (staged urlPrefix inserted reverted) s) =
      key k ++ staged urlPrefix inserted reverted k s ++
        replaceAll (key j ++ b) format (render (staged urlPrefix inserted reverted) s) := by
  have hr : trigger k <+: render (staged urlPrefix inserted reverted) s := by
    obtain ⟨r, rfl⟩ := hs
    rw [render_trigger]
    exact List.prefix_append _ _
  apply replaceAll_skip_link (unquoted_staged hp k s) hr
  have ht' : trigger k <+: staged urlPrefix inserted reverted k s ++ render (staged urlPrefix inserted reverted) s :=
    trigger_starts_staged hp hs
  rintro ⟨a, ha⟩
  obtain ⟨r, hr⟩ := ht'
  obtain ⟨b', rfl⟩ := ht
  rw [List.append_assoc (key k), ← hr] at ha
  apply hjk
  apply kind_unique (a := b' ++ a) (b := r)
  simpa using ha

/-- The first replacement for a kind inserts at all its links. -/
theorem replaceAll_insert {j : LinkKind} (hi : inserted j = false) (hr : reverted j = false) (t : Bytes) :
    replaceAll (key j ++ trigger j) (key j ++ insertion urlPrefix j ++ trigger j)
        (render (staged urlPrefix inserted reverted) t) =
      render (staged urlPrefix (Function.update inserted j true) reverted) t := by
  apply replaceAll_render
  · intro c s hs
    exact not_starts_copied (unquoted_trigger j) (List.prefix_refl _) hs
  · intro k s hs
    by_cases hjk : j = k
    · subst hjk
      obtain ⟨r, rfl⟩ := hs
      simp only [staged, hi, hr, Function.update_self, Bool.false_eq_true, false_and, not_false_eq_true, and_true,
        if_true, if_false, List.append_nil]
      rw [render_trigger, replaceAll_trigger, ← List.append_assoc, replaceAll_append (key_append_ne_nil j _)]
      simp
    · rw [staged_congr (Function.update_of_ne (Ne.symm hjk) true inserted) rfl]
      exact replaceAll_other_kind hp hjk (List.prefix_refl _) hs

/-- At a link of its kind the second replacement takes the insertion back if there are two slashes. -/
theorem replaceAll_revert_link {j : LinkKind} (hi : inserted j = true) (hr : reverted j = false) {s : Bytes}
    (hs : trigger j <+: s) :
    replaceAll (key j ++ (insertion urlPrefix j ++ (trigger j ++ trigger j))) (key j ++ (trigger j ++ trigger j))
        (key j ++ staged urlPrefix inserted reverted j s ++ render (staged urlPrefix inserted reverted) s) =
      key j ++ staged urlPrefix inserted (Function.update reverted j true) j s ++
        replaceAll (key j ++ (insertion urlPrefix j ++ (trigger j ++ trigger j))) (key j ++ (trigger j ++ trigger j))
          (render (staged urlPrefix inserted reverted) s) := by
  obtain ⟨r, rfl⟩ := hs
  have hx : staged urlPrefix inserted reverted j (trigger j ++ r) = insertion urlPrefix j := by
    simp [staged, hi, hr]
  rw [hx]
  by_cases hd : trigger j <+: r
  · have hx' : staged urlPrefix inserted (Function.update reverted j true) j (trigger j ++ r) = [] := by
      simp [staged, Doubled, List.prefix_append_right_inj, hd]
    obtain ⟨r', rfl⟩ := hd
    rw [hx', render_trigger, render_trigger, replaceAll_trigger, replaceAll_trigger, List.append_nil]
    calc
      _ = replaceAll (key j ++ (insertion urlPrefix j ++ (trigger j ++ trigger j)))
            (key j ++ (trigger j ++ trigger j))
            ((key j ++ (insertion urlPrefix j ++ (trigger j ++ trigger j))) ++
              render (staged urlPrefix inserted reverted) r') := by simp only [List.append_assoc]
      _ = _ := by rw [replaceAll_append (key_append_ne_nil j _)]; simp only [List.append_assoc]
  · have hx' : staged urlPrefix inserted (Function.update reverted j true) j (trigger j ++ r) =
        insertion urlPrefix j := by
      simp [staged, hi, Doubled, List.prefix_append_right_inj, hd]
    rw [hx', render_trigger]
    apply replaceAll_skip_link (hp.unquoted_insertion j) (List.prefix_append _ _)
    rw [List.append_assoc, List.prefix_append_right_inj, List.prefix_append_right_inj,
      List.prefix_append_right_inj, starts_render_iff (keyFree_unquoted (unquoted_trigger j))]
    exact hd

/-- The second replacement for a kind leaves the insertion at its links of one slash only. -/
theorem replaceAll_revert {j : LinkKind} (hi : inserted j = true) (hr : reverted j = false) (t : Bytes) :
    replaceAll (key j ++ (insertion urlPrefix j ++ (trigger j ++ trigger j))) (key j ++ (trigger j ++ trigger j))
        (render (staged urlPrefix inserted reverted) t) =
      render (staged urlPrefix inserted (Function.update reverted j true)) t := by
  have hu : Unquoted (insertion urlPrefix j ++ (trigger j ++ trigger j)) :=
    (hp.unquoted_insertion j).append ((unquoted_trigger j).append (unquoted_trigger j))
  have hb : trigger j <+: insertion urlPrefix j ++ (trigger j ++ trigger j) :=
    (hp.trigger_starts_insertion j).trans (List.prefix_append _ _)
  apply replaceAll_render
  · intro c s hs
    exact not_starts_copied hu hb hs
  · intro k s hs
    by_cases hjk : j = k
    · subst hjk
      exact replaceAll_revert_link hp hi hr hs
    · rw [staged_congr rfl (Function.update_of_ne (Ne.symm hjk) true reverted)]
      exact replaceAll_other_kind hp hjk hb hs

end Stages

/-- One pass: the prefix goes to each link that begins with one slash and not with two. -/
def insertAtLinks (urlPrefix : Bytes) : Bytes → Bytes :=
  render (fun k s => if Doubled k s then [] else insertion urlPrefix k)

private theorem insert_step {urlPrefix t body : Bytes} {inserted reverted : LinkKind → Bool}
    (hp : PlainPrefix urlPrefix) (j : LinkKind) (hi : inserted j = false) (hr : reverted j = false)
    (h : body = render (staged urlPrefix inserted reverted) t) :
    replaceAll (key j ++ trigger j) (key j ++ insertion urlPrefix j ++ trigger j) body =
      render (staged urlPrefix (Function.update inserted j true) reverted) t := by
  rw [h]
  exact replaceAll_insert hp hi hr t

private theorem revert_step {urlPrefix t body : Bytes} {inserted reverted : LinkKind → Bool}
    (hp : PlainPrefix urlPrefix) (j : LinkKind) (hi : inserted j = true) (hr : reverted j = false)
    (h : body = render (staged urlPrefix inserted reverted) t) :
    replaceAll (key j ++ insertion urlPrefix j ++ (trigger j ++ trigger j)) (key j ++ (trigger j ++ trigger j)) body =
      render (staged urlPrefix inserted (Function.update reverted j true)) t := by
  rw [h, List.append_assoc]
  exact replaceAll_revert hp hi hr t

/-- The eight global replacements amount to the one pass. -/
theorem replaceRelativeHtmlLinks_eq {urlPrefix : Bytes} (hp : PlainPrefix urlPrefix) (hr : urlPrefix ≠ ascii "/")
    (body : Bytes) : replaceRelativeHtmlLinks urlPrefix body = insertAtLinks urlPrefix body := by
  have hne : urlPrefix ≠ [] := by
    rintro rfl
    exact absurd hp.slash (by simp)
  have hstart : body = render (staged urlPrefix (fun _ => false) (fun _ => false)) body := by
    have hx : staged urlPrefix (fun _ => false) (fun _ => false) = fun _ _ => [] := by
      funext k s
      simp [staged]
    rw [hx, render_nothing]
  have hend : render (fun k s => if Doubled k s then [] else insertion urlPrefix k) =
      render (staged urlPrefix (fun _ => true) (fun _ => true)) := by
    congr 1
    funext k s
    simp [staged]
  rw [replaceRelativeHtmlLinks, if_neg (by simp [hr, hne]), insertAtLinks, hend]
  have h := insert_step hp href rfl rfl hstart
  have h := insert_step hp src rfl rfl h
  have h := insert_step hp urlQuoted rfl rfl h
  have h := insert_step hp urlEncoded rfl rfl h
  have h := revert_step hp href rfl rfl h
  have h := revert_step hp src rfl rfl h
  have h := revert_step hp urlQuoted rfl rfl h
  have h := revert_step hp urlEncoded rfl rfl h
  refine Eq.trans h ?_
  congr 2
  · funext k
    cases k <;> rfl
  · funext k
    cases k <;> rfl

/-- The pass changes the length exactly when there is a link to change. -/
theorem length_insertAtLinks_iff {urlPrefix : Bytes} (hp : PlainPrefix urlPrefix) (t : Bytes) :
    (insertAtLinks urlPrefix t).length = t.length ↔ ¬ HasRootLink t := by
  have hpos : ∀ k, 0 < (insertion urlPrefix k).length := by
    intro k
    obtain ⟨c, rest, hc, -⟩ := trigger_cons k
    have := (hp.trigger_starts_insertion k).length_le
    rw [hc, List.length_cons] at this
    omega
  suffices h : t.length ≤ (insertAtLinks urlPrefix t).length ∧
      ((insertAtLinks urlPrefix t).length = t.length ↔ ¬ HasRootLink t) from h.2
  unfold insertAtLinks
  induction t using site_induction with
  | nil =>
    refine ⟨by simp, iff_of_true (by simp) ?_⟩
    rintro ⟨a, k, s, he, -⟩
    rw [key_cons] at he
    simp at he
  | raw c s hs ih =>
    rw [render_cons hs, hasRootLink_cons hs, List.length_cons, List.length_cons, Nat.add_left_inj]
    exact ⟨by omega, ih.2⟩
  | site k s hk ih =>
    rw [render_key hk, hasRootLink_key hk, List.length_append, List.length_append, List.length_append]
    by_cases hd : Doubled k s
    · rw [if_pos hd, List.length_nil, Nat.add_zero, Nat.add_right_inj, ih.2]
      refine ⟨by omega, ?_⟩
      simp [show trigger k ++ trigger k <+: s from hd]
    · have := hpos k
      rw [if_neg hd]
      refine ⟨by omega, iff_of_false (by omega) ?_⟩
      exact not_not.mpr (.inl hd)

private theorem initial_not_mem_triggers (j k : LinkKind) : initial j ∉ trigger k ++ trigger k := by
  simp [initial_not_mem_trigger]

/-- A link in a page is given the prefix where it stands. -/
theorem insertAtLinks_append_key (urlPrefix a : Bytes) {k : LinkKind} {s : Bytes} (hs : trigger k <+: s)
    (hd : ¬ Doubled k s) :
    insertAtLinks urlPrefix (a ++ (key k ++ s)) =
      insertAtLinks urlPrefix a ++ (key k ++ insertion urlPrefix k ++ insertAtLinks urlPrefix s) := by
  unfold insertAtLinks
  rw [render_append_key, render_key hs, if_neg hd]
  intro j a s
  exact if_congr (starts_append_key_iff (initial_not_mem_triggers k j) a s) rfl rfl

private theorem render_unquoted {x : LinkKind → Bytes → Bytes} {u : Bytes} (hu : Unquoted u) (post : Bytes) :
    ∃ rest, render x (u ++ chr '\"' :: post) = u ++ chr '\"' :: rest := by
  induction ht : u ++ chr '\"' :: post using site_induction generalizing u with
  | nil => simp at ht
  | raw c s hs ih =>
    rw [render_cons hs]
    cases u with
    | nil =>
      obtain ⟨rfl, -⟩ := List.cons.inj ht
      exact ⟨_, rfl⟩
    | cons d u =>
      obtain ⟨rfl, hs'⟩ := List.cons.inj ht
      obtain ⟨rest, hrest⟩ := ih ⟨fun h => hu.1 (List.mem_cons_of_mem _ h), fun h => hu.2 (List.mem_cons_of_mem _ h)⟩ hs'
      exact ⟨rest, by rw [hrest, List.cons_append]⟩
  | site k s hk ih =>
    rw [render_key hk]
    rcases List.append_eq_append_iff.mp ht with ⟨m, hm, hs'⟩ | ⟨m, hm, -⟩
    · cases m with
      | nil =>
        rw [List.append_nil] at hm
        exact absurd (by rw [← hm, key_eq]; simp) (hu.delimiter k)
      | cons b m =>
        obtain ⟨rfl, -⟩ := List.cons.inj hs'
        exact ⟨m ++ (x k s ++ render x s), by rw [hm]; simp⟩
    · exact absurd (by rw [hm, key_eq]; simp) (hu.delimiter k)

/-- Up to the closing quote the rest of a link stays as it is. -/
theorem insertAtLinks_unquoted (urlPrefix : Bytes) {u : Bytes} (hu : Unquoted u) (post : Bytes) :
    ∃ rest, insertAtLinks urlPrefix (u ++ chr '\"' :: post) = u ++ chr '\"' :: rest := render_unquoted hu post

end Koko.Handlers
