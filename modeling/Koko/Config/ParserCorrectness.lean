import Koko.Config.Grammar

/-! The parser accepts exactly the words of the grammar and builds exactly the
tree of the derivation. -/
namespace Koko.Config
open Koko.Lib NginxConfig Position

/-- The pointer machine follows the abstract parser. -/
theorem iterate_advance {p p' : Position} {t : Token} (h : p.advance t = some p') :
    iterate p.state t.1 t.2 = some (.next p'.state) := by
  cases advance_cases h with
  | firstWord blocks done last v =>
    cases last <;> simp [iterate, Position.state, Boundary.type, emplaceBack, pushToken]
  | @closeBlock outer before done ws last v hl =>
    have hd : ¬ ((outer.length : Int) < 0) := by omega
    cases last <;> simp_all [iterate, Position.state, Boundary.type, pointers, plug]
  | nextWord blocks done ws v => simp [iterate, Position.state, pushToken]
  | endStatement blocks done ws v => simp [iterate, Position.state, Boundary.type]
  | openBlock blocks done ws v =>
    simp [iterate, Position.state, Boundary.type, resetChildBlock, plug, pointers, pointer]

/-- Where the abstract parser is stuck, the machine breaks out of its loop and the
tree stays as it is. -/
theorem iterate_stuck {p : Position} {t : Token} (h : p.advance t = none) (ht : t.1 ≠ .eof) :
    ∃ s, iterate p.state t.1 t.2 = some (.breakLoop s) ∧ s.config = p.state.config := by
  obtain ⟨tt, v⟩ := t
  cases p with
  | between blocks done last =>
    cases tt <;> simp only [advance, reduceCtorEq, ne_eq, not_true_eq_false] at h ht
    case endBlock =>
      cases blocks with
      | nil => cases last <;> exact ⟨_, rfl, rfl⟩
      | cons b outer =>
        obtain ⟨before, ws⟩ := b
        simp only at h
        split_ifs at h with hl
        subst hl
        exact ⟨_, rfl, rfl⟩
    all_goals cases last <;> exact ⟨_, rfl, rfl⟩
  | inside blocks done ws =>
    cases tt <;> simp only [advance, reduceCtorEq, ne_eq, not_true_eq_false] at h ht <;> exact ⟨_, rfl, rfl⟩

theorem iterate_eof (p : Position) (v : Bytes) :
    iterate p.state .eof v = some (if p.Accepting then .returnTrue p.state else .breakLoop p.state) := by
  cases p with
  | between blocks done last =>
    cases blocks with
    | nil => cases last <;> rfl
    | cons b outer =>
      have hd : (outer.length : Int) + 1 ≠ 0 := by omega
      cases last <;> simp [iterate, Position.state, Accepting, Boundary.type, hd]
  | inside blocks done ws => rfl

/-- The run of the abstract parser: whether it accepts, and where it stops. -/
def Position.run : Position → List Token → Bool × Position
  | p, [] => (false, p)
  | p, t :: ts =>
    if t.1 = .error then (false, p)
    else if t.1 = .eof then (decide p.Accepting, p)
    else match p.advance t with
      | none => (false, p)
      | some p' => p'.run ts

/-- A token sequence that reaches end of file or an error. -/
def Terminated (ts : List Token) : Prop := ∃ t ∈ ts, t.1 = .eof ∨ t.1 = .error

/-- On a terminated sequence the machine returns, without undefined behaviour, what
the abstract parser decides and the tree at the position where it stops. -/
theorem runTokens_state (p : Position) (ts : List Token) (ht : Terminated ts) :
    ∃ message, runTokens p.state ts = some ⟨(p.run ts).1, (p.run ts).2.state.config, message⟩ := by
  induction ts generalizing p with
  | nil => simp [Terminated] at ht
  | cons t ts ih =>
    obtain ⟨tt, v⟩ := t
    by_cases he : tt = .error
    · simp [runTokens, Position.run, he, badTransition]
    by_cases hf : tt = .eof
    · subst hf
      by_cases ha : p.Accepting <;>
        simp [runTokens, Position.run, iterate_eof, ha, badTransition]
    have hrest : Terminated ts := by
      obtain ⟨u, hu, hu'⟩ := ht
      rcases List.mem_cons.mp hu with rfl | hm
      · exact absurd hu' (by simp [he, hf])
      · exact ⟨u, hm, hu'⟩
    cases ha : p.advance (tt, v) with
    | none =>
      obtain ⟨s, hs, hc⟩ := iterate_stuck ha hf
      simp [runTokens, Position.run, he, hf, ha, hs, badTransition, hc]
    | some p' =>
      have hi := iterate_advance ha
      simp only at hi
      simpa [runTokens, Position.run, he, hf, ha, hi] using ih p' hrest

theorem parseLoop_eq_runTokens (s : ParseState) (input : Stream) :
    parseLoop s input = runTokens s (tokenSequence input) := by
  induction hn : input.unread.length using Nat.strongRecOn generalizing s input with
  | ind n ih =>
  rw [parseLoop, tokenSequence]
  rcases hl : parseToken input [] with ⟨tt, v, rest⟩
  dsimp only
  by_cases he : tt = .error
  · simp [he, runTokens]
  by_cases hf : tt = .eof
  · subst hf
    simp only [reduceCtorEq, if_false, true_or, dif_pos, runTokens]
    split <;> simp_all [iterate_eof_ne_next]
  have hlt := parseToken_progress hl hf he
  simp only [he, hf, or_self, if_false, dif_neg, not_false_eq_true]
  split_ifs with hc
  · exact ih _ (hn ▸ hlt) s rest rfl
  · simp only [runTokens, he, if_false]
    split <;> simp_all
    exact ih _ (hn ▸ hlt) _ rest rfl

/-- The token sequence of a stream stops at its first end of file or error. -/
theorem tokenSequence_split (input : Stream) :
    ∃ ts last, tokenSequence input = ts ++ [last] ∧ (last.1 = .eof ∨ last.1 = .error) ∧
      ∀ t ∈ ts, t.1 ≠ .eof ∧ t.1 ≠ .error := by
  induction hn : input.unread.length using Nat.strongRecOn generalizing input with
  | ind n ih =>
  rw [tokenSequence]
  rcases hl : parseToken input [] with ⟨tt, v, rest⟩
  dsimp only
  split_ifs with hstop hc
  · exact ⟨[], (tt, v), rfl, hstop, by simp⟩
  · exact ih _ (hn ▸ parseToken_progress hl (fun h => hstop (.inl h)) (fun h => hstop (.inr h))) rest rfl
  · obtain ⟨ts, last, he, hlast, hts⟩ :=
      ih _ (hn ▸ parseToken_progress hl (fun h => hstop (.inl h)) (fun h => hstop (.inr h))) rest rfl
    refine ⟨(tt, v) :: ts, last, by rw [he, List.cons_append], hlast, ?_⟩
    intro t ht
    rcases List.mem_cons.mp ht with rfl | hm
    · exact not_or.mp hstop
    · exact hts t hm

theorem terminated_tokenSequence (input : Stream) : Terminated (tokenSequence input) := by
  obtain ⟨ts, last, he, hlast, _⟩ := tokenSequence_split input
  exact ⟨last, by rw [he]; simp, hlast⟩

/-- `Parse` always returns, and returns what the abstract parser decides. -/
theorem parse_eq_run (input : Stream) (c : NginxConfig) :
    ∃ message, parse input c =
      some ⟨((between [] c .start).run (tokenSequence input)).1,
        ((between [] c .start).run (tokenSequence input)).2.state.config, message⟩ := by
  rw [parse, parseLoop_eq_runTokens]
  exact runTokens_state (between [] c .start) _ (terminated_tokenSequence input)

section Soundness

/-- The tokens read so far derive the finished statements of every open block, on
top of what the caller's tree already held. -/
inductive Opened (base : NginxConfig) : List Token → List OpenBlock → NginxConfig → Prop where
  | root {w : List Token} {ss : NginxConfig} (h : DerivesStatements w ss) :
      Opened base w [] (base ++ ss)
  | enter {w body : List Token} {outer : List OpenBlock} {before done : NginxConfig}
      {ws : List Bytes} {v : Bytes} (h : Opened base w outer before) (ne : ws ≠ [])
      (inner : DerivesStatements body done) :
      Opened base (w ++ (words ws ++ (.startBlock, v) :: body)) ((before, ws) :: outer) done

theorem Opened.snoc {base done : NginxConfig} {w u : List Token} {blocks : List OpenBlock}
    {s : NginxConfigStatement} (h : Opened base w blocks done) (hs : DerivesStatement u s) :
    Opened base (w ++ u) blocks (done ++ [s]) := by
  cases h with
  | root h => simpa using Opened.root (h.snoc hs)
  | enter h ne inner => simpa using Opened.enter h ne (inner.snoc hs)

/-- What the tokens read so far say about a position. -/
def Reached (base : NginxConfig) (w : List Token) : Position → Prop
  | between blocks done last => Opened base w blocks done ∧ (last ≠ .start → w ≠ [])
  | inside blocks done ws => ws ≠ [] ∧ ∃ w', w = w' ++ words ws ∧ Opened base w' blocks done

theorem reached_start (c : NginxConfig) : Reached c [] (between [] c .start) := by
  have h : Opened c [] [] (c ++ []) := .root .nil
  exact ⟨by simpa using h, by simp⟩

theorem reached_advance {base : NginxConfig} {w : List Token} {p p' : Position} {t : Token}
    (hr : Reached base w p) (h : p.advance t = some p') : Reached base (w ++ [t]) p' := by
  cases advance_cases h with
  | firstWord blocks done last v => exact ⟨by simp, w, rfl, hr.1⟩
  | closeBlock outer before done ws v hl =>
    cases hr.1 with
    | enter ho ne inner =>
      refine ⟨?_, by simp⟩
      simpa using ho.snoc (.block ne inner)
  | nextWord blocks done ws v =>
    obtain ⟨ne, w', rfl, ho⟩ := hr
    exact ⟨by simp, w', by simp [words], ho⟩
  | endStatement blocks done ws v =>
    obtain ⟨ne, w', rfl, ho⟩ := hr
    refine ⟨?_, by simp⟩
    simpa using ho.snoc (.line ne)
  | openBlock blocks done ws v =>
    obtain ⟨ne, w', rfl, ho⟩ := hr
    refine ⟨?_, by simp⟩
    simpa using Opened.enter ho ne .nil

/-- Acceptance yields a derivation of the tokens before the end of file. -/
theorem derives_of_run {base : NginxConfig} {w ts : List Token} {p : Position}
    (hr : Reached base w p) {q : Position} (h : p.run ts = (true, q)) :
    ∃ us v rest ss, ts = us ++ (.eof, v) :: rest ∧ Derives (w ++ us) ss ∧
      (∀ t ∈ us, t.1 ≠ .eof) ∧ q.state.config = base ++ ss := by
  induction ts generalizing w p with
  | nil => simp [Position.run] at h
  | cons t ts ih =>
    rw [Position.run] at h
    split_ifs at h with he hf
    · simp at h
    · simp only [Prod.mk.injEq, decide_eq_true_eq] at h
      obtain ⟨hacc, rfl⟩ := h
      match p, hr, hacc with
      | between [] done last, hr, hacc =>
        obtain ⟨ho, hne⟩ := hr
        cases ho with
        | root hd =>
          have hw := hne (by rcases hacc with rfl | rfl <;> simp)
          exact ⟨[], t.2, ts, _, by simp [← hf], ⟨hd.ne_nil hw, by simpa using hd⟩, by simp, rfl⟩
    · cases ha : p.advance t with
      | none => simp [ha] at h
      | some p' =>
        simp only [ha] at h
        obtain ⟨us, v, rest, ss, rfl, hd, hu, hq⟩ := ih (reached_advance hr ha) h
        refine ⟨t :: us, v, rest, ss, rfl, by simpa using hd, ?_, hq⟩
        intro u hm
        rcases List.mem_cons.mp hm with rfl | hm
        · exact hf
        · exact hu u hm

end Soundness

section Completeness

/-- Words at a boundary or inside a statement are collected in order. -/
theorem run_words (blocks : List OpenBlock) (done : NginxConfig) (vs ws : List Bytes)
    (ts : List Token) :
    (inside blocks done vs).run (words ws ++ ts) = (inside blocks done (vs ++ ws)).run ts := by
  induction ws generalizing vs with
  | nil => simp [words]
  | cons w ws ih =>
    have h := ih (vs ++ [w])
    simpa [words, Position.run, advance] using h

theorem run_words_between (blocks : List OpenBlock) (done : NginxConfig) (last : Boundary)
    {ws : List Bytes} (ne : ws ≠ []) (ts : List Token) :
    (between blocks done last).run (words ws ++ ts) = (inside blocks done ws).run ts := by
  obtain ⟨w, ws, rfl⟩ := List.exists_cons_of_ne_nil ne
  have h := run_words blocks done [w] ws ts
  simpa [words, Position.run, advance] using h

/-- Reading a derived word leaves the parser behind the statements it derives. -/
def Consumes (w : List Token) (ss : NginxConfig) : Prop :=
  ∀ (blocks : List OpenBlock) (done : NginxConfig) (last : Boundary) (ts : List Token),
    ∃ last', (between blocks done last).run (w ++ ts) = (between blocks (done ++ ss) last').run ts ∧
      if ss = [] then last' = last else last' = .statementEnd ∨ last' = .endBlock

mutual
theorem DerivesStatement.consumes {u : List Token} {s : NginxConfigStatement}
    (h : DerivesStatement u s) : Consumes u [s] := by
  intro blocks done last ts
  cases h with
  | line ne =>
    refine ⟨.statementEnd, ?_, by simp⟩
    rw [List.append_assoc, run_words_between _ _ _ ne]
    simp [Position.run, advance]
  | @block ws v v' body ss ne inner =>
    refine ⟨.endBlock, ?_, by simp⟩
    obtain ⟨last', hrun, hlast⟩ := inner.consumes ((done, ws) :: blocks) [] .startBlock ((.endBlock, v') :: ts)
    have hns : last' ≠ .start := by
      split_ifs at hlast
      · simp [hlast]
      · rcases hlast with rfl | rfl <;> simp
    rw [List.append_assoc, run_words_between _ _ _ ne]
    simp only [List.cons_append, List.append_assoc, Position.run, reduceCtorEq,
      if_false, advance]
    rw [List.nil_append] at hrun
    simp [hrun, Position.run, advance, hns]
theorem DerivesStatements.consumes {w : List Token} {ss : NginxConfig}
    (h : DerivesStatements w ss) : Consumes w ss := by
  intro blocks done last ts
  cases h with
  | nil => exact ⟨last, by simp, by simp⟩
  | @cons u w s ss first others =>
    obtain ⟨last₁, h₁, hl₁⟩ := first.consumes blocks done last (w ++ ts)
    obtain ⟨last₂, h₂, hl₂⟩ := others.consumes blocks (done ++ [s]) last₁ ts
    refine ⟨last₂, ?_, ?_⟩
    · rw [List.append_assoc, h₁, h₂]
      simp
    · split_ifs at hl₂ with hn
      · subst hl₂
        simpa using hl₁
      · simpa using hl₂
end

theorem run_of_derives {w : List Token} {ss : NginxConfig} (h : Derives w ss) (c : NginxConfig)
    (v : Bytes) (ts : List Token) :
    ∃ last, (between [] c .start).run (w ++ (.eof, v) :: ts) = (true, between [] (c ++ ss) last) := by
  obtain ⟨last, hrun, hlast⟩ := h.2.consumes [] c .start ((.eof, v) :: ts)
  rw [if_neg h.1] at hlast
  exact ⟨last, by simp [hrun, Position.run, Accepting, hlast]⟩

end Completeness

/-- The token sequence is a word of the grammar followed by end of file. -/
def Grammatical (input : Stream) : Prop :=
  ∃ w v ss, tokenSequence input = w ++ [(.eof, v)] ∧ Derives w ss

private theorem eof_last {input : Stream} {us rest : List Token} {v : Bytes}
    (h : tokenSequence input = us ++ (.eof, v) :: rest) : rest = [] := by
  obtain ⟨ts, last, he, _, hts⟩ := tokenSequence_split input
  rcases List.eq_nil_or_concat rest with rfl | ⟨rest', t, rfl⟩
  · rfl
  · rw [h, show us ++ (TokenType.eof, v) :: rest'.concat t = (us ++ (.eof, v) :: rest') ++ [t] by simp] at he
    obtain ⟨rfl, -⟩ := List.append_inj' he rfl
    exact absurd rfl (hts (.eof, v) (by simp)).1

theorem run_true_iff (input : Stream) (c : NginxConfig) :
    ((between [] c .start).run (tokenSequence input)).1 = true ↔ Grammatical input := by
  constructor
  · intro h
    obtain ⟨us, v, rest, ss, he, hd, -, -⟩ := derives_of_run (reached_start c) (Prod.ext h rfl)
    obtain rfl := eof_last he
    exact ⟨us, v, ss, he, by simpa using hd⟩
  · rintro ⟨w, v, ss, he, hd⟩
    obtain ⟨last, hrun⟩ := run_of_derives hd c v []
    rw [he, hrun]

/-- `Parse` accepts a stream iff its tokens are a word of the grammar, and then
appends the tree of the one derivation to the caller's configuration. -/
theorem parse_accepts_iff_derives (input : Stream) (c : NginxConfig) :
    ∃ r, parse input c = some r ∧
      (r.returned = true ↔ ∃ w v ss, tokenSequence input = w ++ [(.eof, v)] ∧ Derives w ss) ∧
      (r.returned = true → ∀ w v, tokenSequence input = w ++ [(.eof, v)] →
        ∃ ss, Derives w ss ∧ (∀ ss', Derives w ss' → ss' = ss) ∧ r.config = c ++ ss) := by
  obtain ⟨message, hp⟩ := parse_eq_run input c
  refine ⟨_, hp, run_true_iff input c, ?_⟩
  intro hr w v hw
  obtain ⟨w', v', ss, hw', hd⟩ := (run_true_iff input c).mp hr
  obtain ⟨rfl, -⟩ := List.append_inj' (hw.symm.trans hw') rfl
  have tree (ss' : NginxConfig) (hd' : Derives w ss') :
      ((between [] c .start).run (tokenSequence input)).2.state.config = c ++ ss' := by
    obtain ⟨last, hrun⟩ := run_of_derives hd' c v []
    rw [hw, hrun]
    rfl
  exact ⟨ss, hd, fun ss' hd' => List.append_cancel_left ((tree ss' hd').symm.trans (tree ss hd)), tree ss hd⟩

end Koko.Config
