import Koko.Handlers.Proxy

/-! Places in a page where a root-relative link begins, and one left-to-right pass that
inserts text at these places. -/
namespace Koko.Handlers
open Koko.Lib

inductive LinkKind where
  | href | src | urlQuoted | urlEncoded
deriving DecidableEq

namespace LinkKind

/-- The text before a link's first slash. -/
def key : LinkKind → Bytes
  | href => ascii "href=\""
  | src => ascii "src=\""
  | urlQuoted => ascii "url(\""
  | urlEncoded => ascii "url("

/-- The slash as the link spells it. -/
def trigger : LinkKind → Bytes
  | urlEncoded => ascii "\\2f"
  | _ => ascii "/"

/-- A key is some letters and the quote or bracket that ends it. -/
def stem : LinkKind → Bytes
  | href => ascii "href="
  | src => ascii "src="
  | urlQuoted => ascii "url("
  | urlEncoded => ascii "url"

def delimiter : LinkKind → Byte
  | urlEncoded => chr '('
  | _ => chr '\"'

def initial : LinkKind → Byte
  | href => chr 'h'
  | src => chr 's'
  | _ => chr 'u'

def all : List LinkKind := [href, src, urlQuoted, urlEncoded]

theorem mem_all (k : LinkKind) : k ∈ all := by cases k <;> decide

theorem key_eq (k : LinkKind) : key k = stem k ++ [delimiter k] := by cases k <;> rfl

theorem key_cons (k : LinkKind) : key k = initial k :: (key k).tail := by cases k <;> rfl

theorem length_lt_key (k : LinkKind) (s : Bytes) : s.length < (key k ++ s).length := by
  rw [key_cons, List.cons_append, List.length_cons, List.length_append]
  omega

theorem initial_not_mem_tail (j k : LinkKind) : initial j ∉ (key k).tail := by cases j <;> cases k <;> decide

theorem initial_not_mem_trigger (j k : LinkKind) : initial j ∉ trigger k := by cases j <;> cases k <;> decide

theorem trigger_cons (k : LinkKind) : ∃ c rest, trigger k = c :: rest ∧ c ≠ chr '\"' ∧ c ≠ chr '(' ∧ ∀ j, c ∉ stem j := by
  cases k
  · exact ⟨chr '/', [], by decide, by decide, by decide, fun j => by cases j <;> decide⟩
  · exact ⟨chr '/', [], by decide, by decide, by decide, fun j => by cases j <;> decide⟩
  · exact ⟨chr '/', [], by decide, by decide, by decide, fun j => by cases j <;> decide⟩
  · exact ⟨chr '\\', ascii "2f", by decide, by decide, by decide, fun j => by cases j <;> decide⟩

end LinkKind
open LinkKind

/-- The kind of link that begins the text. -/
def siteAt (text : Bytes) : Option LinkKind := LinkKind.all.find? (fun k => key k ++ trigger k <+: text)

theorem exists_of_siteAt {text : Bytes} {k : LinkKind} (h : siteAt text = some k) :
    ∃ s, text = key k ++ s ∧ trigger k <+: s := by
  have hp := List.find?_some h
  simp only [decide_eq_true_eq] at hp
  obtain ⟨r, rfl⟩ := hp
  exact ⟨trigger k ++ r, by simp, List.prefix_append _ _⟩

theorem not_starts_of_siteAt {text : Bytes} (h : siteAt text = none) (k : LinkKind) :
    ¬ key k ++ trigger k <+: text := by
  have hn := List.find?_eq_none.mp h k (mem_all k)
  simpa using hn

/-- At one place at most one kind of link begins. -/
theorem kind_unique {j k : LinkKind} {a b : Bytes} (h : key j ++ trigger j ++ a = key k ++ trigger k ++ b) : j = k := by
  cases j <;> cases k <;> first | rfl | (simp [key, trigger, ascii, chr] at h)

theorem siteAt_key {k : LinkKind} {s : Bytes} (h : trigger k <+: s) : siteAt (key k ++ s) = some k := by
  obtain ⟨r, rfl⟩ := h
  cases hs : siteAt (key k ++ (trigger k ++ r)) with
  | none =>
    refine absurd ?_ (not_starts_of_siteAt hs k)
    rw [← List.append_assoc]
    exact List.prefix_append _ _
  | some j =>
    obtain ⟨s, he, ⟨r', rfl⟩⟩ := exists_of_siteAt hs
    rw [kind_unique (j := j) (k := k) (by rw [List.append_assoc, List.append_assoc]; exact he.symm)]

theorem siteAt_of_initial {c : Byte} (h : ∀ k, initial k ≠ c) (s : Bytes) : siteAt (c :: s) = none := by
  cases hs : siteAt (c :: s) with
  | none => rfl
  | some k =>
    obtain ⟨r, he, -⟩ := exists_of_siteAt hs
    rw [key_cons] at he
    exact absurd (List.cons.inj he).1.symm (h k)

/-- Copy the text and, after the key of each link, insert what `x` says for the rest of it. -/
def render (x : LinkKind → Bytes → Bytes) (text : Bytes) : Bytes :=
  match _h : siteAt text with
  | some k =>
    key k ++ x k (text.drop (key k).length) ++ render x (text.drop (key k).length)
  | none =>
    match text with
    | [] => []
    | c :: s => c :: render x s
termination_by text.length
decreasing_by
  · obtain ⟨s, rfl, -⟩ := exists_of_siteAt _h
    rw [List.drop_left]
    exact length_lt_key k s
  · simp

variable {x : LinkKind → Bytes → Bytes}

@[simp] theorem render_nil : render x [] = [] := by
  rw [render]
  rfl

theorem render_cons {c : Byte} {s : Bytes} (h : siteAt (c :: s) = none) : render x (c :: s) = c :: render x s := by
  rw [render]
  split
  · simp_all
  · rfl

theorem render_key {k : LinkKind} {s : Bytes} (h : trigger k <+: s) :
    render x (key k ++ s) = key k ++ x k s ++ render x s := by
  rw [render]
  split
  · rename_i j hj
    obtain rfl : k = j := Option.some.inj ((siteAt_key h).symm.trans hj)
    rw [List.drop_left]
  · rename_i hn
    rw [siteAt_key h] at hn
    cases hn

/-- Induction along the pass: a link begins here, or one byte is copied. -/
theorem site_induction {p : Bytes → Prop} (nil : p [])
    (raw : ∀ c s, siteAt (c :: s) = none → p s → p (c :: s))
    (site : ∀ k s, trigger k <+: s → p s → p (key k ++ s)) (t : Bytes) : p t := by
  induction hn : t.length using Nat.strongRecOn generalizing t with
  | ind n ih =>
    subst hn
    cases hs : siteAt t with
    | some k =>
      obtain ⟨s, rfl, hk⟩ := exists_of_siteAt hs
      exact site k s hk (ih s.length (length_lt_key k s) s rfl)
    | none =>
      cases t with
      | nil => exact nil
      | cons c s => exact raw c s hs (ih s.length (by simp) s rfl)

/-- No key occurs in the text. -/
def KeyFree (y : Bytes) : Prop := ∀ k, ¬ key k <:+: y

theorem KeyFree.tail {c : Byte} {y : Bytes} (h : KeyFree (c :: y)) : KeyFree y :=
  fun k hk => h k (hk.trans (List.suffix_cons c y).isInfix)

private theorem starts_key_iff {y : Bytes} (hy : KeyFree y) (k : LinkKind) (v : Bytes) :
    y <+: key k ++ v ↔ y <+: key k := by
  constructor
  · intro h
    rcases Nat.le_total y.length (key k).length with hl | hl
    · exact List.prefix_of_prefix_length_le h (List.prefix_append _ _) hl
    · exact absurd (List.prefix_of_prefix_length_le (List.prefix_append _ _) h hl).isInfix (hy k)
  · intro h
    exact h.trans (List.prefix_append _ _)

/-- A text without keys begins the output exactly when it begins the input. -/
theorem starts_render_iff {y : Bytes} (hy : KeyFree y) (t : Bytes) : y <+: render x t ↔ y <+: t := by
  induction t using site_induction generalizing y with
  | nil => rw [render_nil]
  | raw c s hs ih =>
    rw [render_cons hs]
    cases y with
    | nil => simp
    | cons d y =>
      rw [List.cons_prefix_cons, List.cons_prefix_cons, ih hy.tail]
  | site k s hk ih =>
    rw [render_key hk, List.append_assoc, starts_key_iff hy, starts_key_iff hy]

/-- Bytes that begin no link are copied. -/
theorem render_append_of_initial {w : Bytes} (h : ∀ k, initial k ∉ w) (s : Bytes) :
    render x (w ++ s) = w ++ render x s := by
  induction w with
  | nil => rfl
  | cons c w ih =>
    have hc : siteAt (c :: (w ++ s)) = none :=
      siteAt_of_initial (fun k he => h k (by simp [he])) _
    rw [List.cons_append, render_cons hc, ih (fun k hm => h k (List.mem_cons_of_mem c hm)), List.cons_append]

theorem render_trigger (k : LinkKind) (s : Bytes) : render x (trigger k ++ s) = trigger k ++ render x s :=
  render_append_of_initial (fun j => initial_not_mem_trigger j k) s

theorem render_nothing (t : Bytes) : render (fun _ _ => []) t = t := by
  induction t using site_induction with
  | nil => exact render_nil
  | raw c s hs ih => rw [render_cons hs, ih]
  | site k s hk ih => rw [render_key hk, ih, List.append_nil]

/-- A replacement on an output is another output, if it does nothing at copied bytes and
turns one insertion into the other at each link. -/
theorem replaceAll_render {search format : Bytes} {x' : LinkKind → Bytes → Bytes}
    (raw : ∀ c s, siteAt (c :: s) = none → ¬ search <+: c :: render x s)
    (site : ∀ k s, trigger k <+: s → replaceAll search format (key k ++ x k s ++ render x s) =
      key k ++ x' k s ++ replaceAll search format (render x s)) (t : Bytes) :
    replaceAll search format (render x t) = render x' t := by
  induction t using site_induction with
  | nil => rw [render_nil, render_nil, replaceAll_nil]
  | raw c s hs ih => rw [render_cons hs, render_cons hs, replaceAll_cons (raw c s hs), ih]
  | site k s hk ih => rw [render_key hk, render_key hk, site k s hk, ih]

/-- A text without the first letter of a key does not reach into the key. -/
theorem starts_append_key_iff {k : LinkKind} {y : Bytes} (hy : initial k ∉ y) (a s : Bytes) :
    y <+: a ++ (key k ++ s) ↔ y <+: a := by
  constructor
  · intro h
    rcases Nat.lt_or_ge a.length y.length with hl | hl
    · have ha : a ++ [initial k] <+: a ++ (key k ++ s) := by
        rw [List.prefix_append_right_inj, key_cons]
        exact ⟨(key k).tail ++ s, by simp⟩
      have hm := List.prefix_of_prefix_length_le ha h (by rw [List.length_append]; exact hl)
      exact absurd (hm.subset (by simp)) hy
    · exact List.prefix_of_prefix_length_le h (List.prefix_append _ _) hl
  · intro h
    exact h.trans (List.prefix_append _ _)

/-- What comes before a link is rendered on its own, if the insertions there do not look so far. -/
theorem render_append_key {k : LinkKind} (hx : ∀ j a s, x j (a ++ (key k ++ s)) = x j a) {s : Bytes} (a : Bytes) :
    render x (a ++ (key k ++ s)) = render x a ++ render x (key k ++ s) := by
  induction a using site_induction with
  | nil => rw [render_nil, List.nil_append, List.nil_append]
  | raw c a hs ih =>
    have hs' : siteAt (c :: (a ++ (key k ++ s))) = none := by
      rw [siteAt, List.find?_eq_none]
      intro j _ hj
      rw [decide_eq_true_eq, key_cons, List.cons_append, List.cons_prefix_cons,
        starts_append_key_iff (by simp [initial_not_mem_tail, initial_not_mem_trigger]), ← List.cons_prefix_cons,
        ← List.cons_append, ← key_cons] at hj
      exact not_starts_of_siteAt hs j hj
    rw [List.cons_append, render_cons hs', render_cons hs, ih, List.cons_append]
  | site j a hj ih =>
    have hj' : trigger j <+: a ++ (key k ++ s) := hj.trans (List.prefix_append _ _)
    rw [List.append_assoc, render_key hj', render_key hj, hx, ih, List.append_assoc, List.append_assoc,
      List.append_assoc]

/-- A link of one slash, of any kind, somewhere in the text. -/
def HasRootLink (t : Bytes) : Prop :=
  ∃ a k s, t = a ++ (key k ++ s) ∧ trigger k <+: s ∧ ¬ trigger k ++ trigger k <+: s

theorem hasRootLink_cons {c : Byte} {s : Bytes} (h : siteAt (c :: s) = none) :
    HasRootLink (c :: s) ↔ HasRootLink s := by
  constructor
  · rintro ⟨a, k, r, he, hk, hd⟩
    cases a with
    | nil =>
      rw [List.nil_append] at he
      rw [he, siteAt_key hk] at h
      cases h
    | cons d a => exact ⟨a, k, r, (List.cons.inj he).2, hk, hd⟩
  · rintro ⟨a, k, r, rfl, hk, hd⟩
    exact ⟨c :: a, k, r, rfl, hk, hd⟩

theorem hasRootLink_key {k : LinkKind} {s : Bytes} (h : trigger k <+: s) :
    HasRootLink (key k ++ s) ↔ ¬ trigger k ++ trigger k <+: s ∨ HasRootLink s := by
  constructor
  · rintro ⟨a, j, r, he, hj, hd⟩
    cases a with
    | nil =>
      obtain ⟨b, rfl⟩ := h
      obtain ⟨b', rfl⟩ := hj
      obtain rfl : k = j := kind_unique (a := b) (b := b') (by simpa using he)
      left
      rwa [List.append_cancel_left he]
    | cons c a =>
      right
      rw [key_cons k, List.cons_append, List.cons_append] at he
      rcases List.append_eq_append_iff.mp (List.cons.inj he).2 with ⟨m, rfl, hm⟩ | ⟨m, hm, hr⟩
      · exact ⟨m, j, r, hm, hj, hd⟩
      · cases m with
        | nil => exact ⟨[], j, r, hr.symm, hj, hd⟩
        | cons b m =>
          rw [key_cons j] at hr
          have hmem : initial j ∈ (key k).tail := by
            rw [hm, (List.cons.inj hr).1]
            simp
          exact absurd hmem (initial_not_mem_tail j k)
  · rintro (hd | ⟨a, j, r, rfl, hj, hd⟩)
    · exact ⟨[], k, s, rfl, h, hd⟩
    · exact ⟨key k ++ a, j, r, by simp, hj, hd⟩

end Koko.Handlers
