import Koko.Config.SpelledValues
import Koko.Config.WordTokens

/-! The trees that accepted texts build, and a text for each of them. -/
namespace Koko.Config
open Koko.Lib NginxConfig Position
open InputStream (live)

mutual
def NginxConfigStatement.Headed : NginxConfigStatement → Prop
  | .mk ts none => ts ≠ []
  | .mk ts (some ss) => ts ≠ [] ∧ Headed ss
/-- Every statement has a token, at every depth. -/
def Headed : List NginxConfigStatement → Prop
  | [] => True
  | s :: ss => s.Headed ∧ Headed ss
end

/-- A value in double quotes, or bare where the closing quote would be taken into the value. -/
def spell (t : Bytes) : Bytes := if t.getLast? = some (chr '\\') then t else writeToken (chr '"') t

def spellTokens (ts : List Bytes) : Bytes := ts.flatMap (fun t => spell t ++ [chr ' '])

mutual
def formatStatement : NginxConfigStatement → Bytes
  | .mk ts none => spellTokens ts ++ [chr ';']
  | .mk ts (some ss) => spellTokens ts ++ ([chr ' ', chr '{'] ++ formatStatements ss ++ [chr '}'])
/-- A text for a tree: every token in its spelling, with a blank behind it. -/
def formatStatements : List NginxConfigStatement → Bytes
  | [] => []
  | s :: ss => formatStatement s ++ formatStatements ss
end

section Words

/-- A word in a token sequence is one that `ParseToken` returned. -/
theorem parseToken_of_mem_tokenSequence (input : Stream) {v : Bytes} (h : (.normal, v) ∈ tokenSequence input) :
    ∃ input' : Stream, (parseToken input' []).1 = .normal ∧ (parseToken input' []).2.1 = v := by
  induction input using tokenSequence.induct with
  | case1 input tt token rest hl hstop =>
    rw [tokenSequence_of_stop (by rw [hl]; exact hstop), hl, List.mem_singleton] at h
    obtain ⟨rfl, -⟩ := Prod.mk.inj h
    exact absurd hstop (by decide)
  | case2 input token rest hl hstop ih =>
    rw [tokenSequence_of_token hl (by decide) (by decide), if_pos rfl] at h
    exact ih h
  | case3 input tt token rest hl hstop hcomment ih =>
    rw [not_or] at hstop
    rw [tokenSequence_of_token hl hstop.1 hstop.2, if_neg hcomment] at h
    rcases List.mem_cons.mp h with he | hrest
    · obtain ⟨rfl, rfl⟩ := Prod.mk.inj he
      exact ⟨input, by rw [hl], by rw [hl]⟩
    · exact ih hrest

theorem spellable_of_mem_tokenSequence {input : Stream} {v : Bytes} (h : v ∈ wordValues (tokenSequence input)) :
    v ≠ [] ∧ Spellable v := by
  refine ⟨fun he => tokenSequence_ne_nil input (he ▸ h), ?_⟩
  obtain ⟨⟨tt, w⟩, ht, rfl⟩ := List.mem_map.mp h
  obtain ⟨ht, hn⟩ := List.mem_filter.mp ht
  obtain rfl : tt = .normal := of_decide_eq_true hn
  obtain ⟨input', htype, hvalue⟩ := parseToken_of_mem_tokenSequence input ht
  cases hg : input'.good with
  | false =>
    rw [parseToken, loop_stopped _ _ hg, endOfInput] at htype
    simp at htype
  | true =>
    rw [InputStream.eq_live_of_good hg] at htype hvalue
    rw [← hvalue]
    exact spellable_of_normal htype

end Words

/-- Text that takes the scanner from between tokens to between tokens emits what it puts out. -/
theorem emits_of_feed {text : Bytes} {ts : List Token} (h : scanner.feed .gap text = (ts, some .gap)) : Emits text ts := by
  intro past rest
  exact ⟨[], by rw [tokenSequence_eq_results, Transducer.results_append_go h, tokenSequence_eq_results]⟩

private theorem feed_word {v : Bytes} (hv : ∀ c ∈ v, endsWord c = false) (value : Bytes) :
    scanner.feed (.word value) v = ([], some (.word (value ++ v))) := by
  induction v generalizing value with
  | nil => rw [List.append_nil]; rfl
  | cons c v ih =>
    have hs : scanner.step (.word value) c = ([], some (.word (value ++ [c]))) :=
      if_neg (by rw [hv c List.mem_cons_self]; decide)
    rw [Transducer.feed_cons_go hs, ih (fun d hd => hv d (List.mem_cons_of_mem _ hd)), List.append_assoc]
    rfl

private theorem feed_bare {v : Bytes} (h : Bare v) : scanner.feed .gap (v ++ [chr ' ']) = ([(.normal, v)], some .gap) := by
  obtain ⟨⟨c, hc, hs⟩, hall⟩ := h
  obtain ⟨rest, rfl⟩ : ∃ rest, v = c :: rest := ⟨v.tail, (List.cons_head?_tail hc).symm⟩
  have hfirst : scanner.step .gap c = ([], some (.word [c])) := by
    simp only [startsWord, endsWord, not_or, decide_eq_true_eq] at hs
    obtain ⟨⟨h₁, h₂, h₃, h₄, h₅, h₆⟩, h₇, h₈, h₉, h₁₀⟩ := hs
    change Context.inGap c = _
    unfold Context.inGap
    simp [h₁, h₂, h₃, h₄, h₅, h₆, h₇, h₈, h₉, h₁₀]
  have hword : scanner.feed .gap (c :: rest) = ([], some (.word (c :: rest))) := by
    rw [Transducer.feed_cons_go hfirst, feed_word (fun d hd => hall d (List.mem_cons_of_mem _ hd))]
    rfl
  rw [Transducer.feed_append_go hword]
  rfl

private theorem emits_space : Emits [chr ' '] [] := emits_of_feed rfl

/-- A spelled value and the blank behind it are read as one word. -/
theorem emits_spell {t : Bytes} (hne : t ≠ []) (h : Spellable t) : Emits (spell t ++ [chr ' ']) [(.normal, t)] := by
  by_cases hl : t.getLast? = some (chr '\\')
  · rw [spell, if_pos hl]
    exact emits_of_feed (feed_bare (h.resolve_left (fun hn => hn hl)))
  · rw [spell, if_neg hl]
    intro past rest
    have hread := parseToken_writeToken (.inr rfl) ⟨hne, hl⟩ (d := chr ' ') (.inl (by decide)) past rest
    obtain ⟨past', hspace⟩ := emits_space ((writeToken (chr '"') t).reverse ++ past) rest
    refine ⟨past', ?_⟩
    rw [List.append_assoc, List.singleton_append, tokenSequence_of_token hread (by decide) (by decide), if_neg (by decide),
      show chr ' ' :: rest = [chr ' '] ++ rest from rfl, hspace]
    rfl

theorem emits_spellTokens {ts : List Bytes} (h : ∀ t ∈ ts, t ≠ [] ∧ Spellable t) : Emits (spellTokens ts) (words ts) := by
  induction ts with
  | nil => exact emits_nil
  | cons t ts ih =>
    obtain ⟨hne, hs⟩ := h t List.mem_cons_self
    exact (emits_spell hne hs).append (ih (fun u hu => h u (List.mem_cons_of_mem _ hu)))

mutual
theorem emits_formatStatement (s : NginxConfigStatement) (hs : s.Headed) (h : ∀ t ∈ s.stored, t ≠ [] ∧ Spellable t) :
    ∃ u, DerivesStatement u s ∧ Emits (formatStatement s) u := by
  match s, hs, h with
  | .mk ts none, hs, h => exact ⟨_, .line hs, (emits_spellTokens h).append emits_semicolon⟩
  | .mk ts (some ss), hs, h =>
    simp only [NginxConfigStatement.stored, List.mem_append, or_imp, forall_and] at h
    obtain ⟨body, hd, hb⟩ := emits_formatStatements ss hs.2 (fun t ht => ⟨h.1.2 t ht, h.2.2 t ht⟩)
    have htokens := emits_spellTokens (fun t ht => ⟨h.1.1 t ht, h.2.1 t ht⟩)
    exact ⟨_, .block hs.1 hd, htokens.append ((emits_startBlock.append hb).append emits_endBlock)⟩
theorem emits_formatStatements (ss : List NginxConfigStatement) (hs : Headed ss)
    (h : ∀ t ∈ stored ss, t ≠ [] ∧ Spellable t) : ∃ w, DerivesStatements w ss ∧ Emits (formatStatements ss) w := by
  match ss, hs, h with
  | [], _, _ => exact ⟨[], .nil, emits_nil⟩
  | s :: ss, hs, h =>
    simp only [stored, List.mem_append, or_imp, forall_and] at h
    obtain ⟨u, hu, hfirst⟩ := emits_formatStatement s hs.1 (fun t ht => ⟨h.1.1 t ht, h.2.1 t ht⟩)
    obtain ⟨w, hw, hothers⟩ := emits_formatStatements ss hs.2 (fun t ht => ⟨h.1.2 t ht, h.2.2 t ht⟩)
    exact ⟨u ++ w, .cons hu hw, hfirst.append hothers⟩
end

mutual
theorem DerivesStatement.headed {u : List Token} {s : NginxConfigStatement} (h : DerivesStatement u s) : s.Headed := by
  cases h with
  | line ne => exact ne
  | block ne inner => exact ⟨ne, inner.headed⟩
theorem DerivesStatements.headed {w : List Token} {ss : NginxConfig} (h : DerivesStatements w ss) : Headed ss := by
  cases h with
  | nil => trivial
  | cons first others => exact ⟨first.headed, others.headed⟩
end

/-- The text for a tree is accepted and gives the tree back. -/
theorem parse_formatStatements {ss : NginxConfig} (hne : ss ≠ []) (hh : Headed ss)
    (hs : ∀ t ∈ stored ss, t ≠ [] ∧ Spellable t) :
    ∃ r, parse (.ofList (formatStatements ss)) [] = some r ∧ r.returned = true ∧ r.config = ss := by
  obtain ⟨w, hd, he⟩ := emits_formatStatements ss hh hs
  obtain ⟨past, htokens⟩ := he [] []
  have hend : tokenSequence (live past []) = [(.eof, [])] := tokenSequence_eq_results past []
  rw [hend, List.append_nil] at htokens
  obtain ⟨m, hp⟩ := parse_eq_run (.ofList (formatStatements ss)) []
  obtain ⟨last, hrun⟩ := run_of_derives ⟨hne, hd⟩ [] [] []
  rw [show tokenSequence (.ofList (formatStatements ss)) = _ from htokens, hrun] at hp
  exact ⟨_, hp, rfl, rfl⟩

/-- The trees that `Parse` builds for the texts it accepts are those that are not empty, have a
token in every statement, and no token that is empty or ends in a backslash without being bare. -/
theorem accepted_trees_iff (ss : NginxConfig) :
    (∃ text r, parse (.ofList text) [] = some r ∧ r.returned = true ∧ r.config = ss) ↔
      ss ≠ [] ∧ Headed ss ∧ ∀ t ∈ stored ss, t ≠ [] ∧ Spellable t := by
  constructor
  · rintro ⟨text, r, hp, hr, rfl⟩
    obtain ⟨m, hrun⟩ := parse_eq_run (.ofList text) []
    obtain rfl := Option.some.inj (hp.symm.trans hrun)
    obtain ⟨w, v, ss, hw, hd⟩ := (run_true_iff _ _).mp hr
    obtain ⟨last, hlast⟩ := run_of_derives hd [] v []
    obtain ⟨us, ⟨vs, hu⟩, -, hstored⟩ := stored_run (between [] [] .start) (tokenSequence (.ofList text))
    have hconfig : ((between [] [] .start).run (tokenSequence (.ofList text))).2.state.config = ss := by
      rw [hw, hlast]
      rfl
    rw [hconfig] at hstored ⊢
    refine ⟨hd.1, hd.2.headed, fun t ht => ?_⟩
    have hword : t ∈ wordValues (tokenSequence (.ofList text)) := by
      rw [hstored] at ht
      rw [← hu, wordValues_append]
      exact List.mem_append_left _ ht
    exact spellable_of_mem_tokenSequence hword
  · rintro ⟨hne, hh, hs⟩
    exact ⟨_, parse_formatStatements hne hh hs⟩

end Koko.Config
