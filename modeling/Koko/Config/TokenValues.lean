import Koko.Config.ParserCorrectness

/-! The parser stores the values of word tokens in reading order and looks only at types:
renaming the values of the tokens renames the tree, and nothing else happens. -/
namespace Koko.Config
open Koko.Lib NginxConfig Position

mutual
def NginxConfigStatement.mapTokens (f : Bytes → Bytes) : NginxConfigStatement → NginxConfigStatement
  | .mk ts none => .mk (ts.map f) none
  | .mk ts (some ss) => .mk (ts.map f) (some (mapTokens f ss))
/-- Apply a function to every token of a tree. -/
def mapTokens (f : Bytes → Bytes) : List NginxConfigStatement → List NginxConfigStatement
  | [] => []
  | s :: ss => s.mapTokens f :: mapTokens f ss
end

mutual
def NginxConfigStatement.stored : NginxConfigStatement → List Bytes
  | .mk ts none => ts
  | .mk ts (some ss) => ts ++ stored ss
/-- All tokens of a tree in the order in which they are written. -/
def stored : List NginxConfigStatement → List Bytes
  | [] => []
  | s :: ss => s.stored ++ stored ss
end

/-- The value of a token, renamed. -/
def Token.map (f : Bytes → Bytes) (t : Token) : Token := (t.1, f t.2)

/-- The values of the word tokens. -/
def wordValues (ts : List Token) : List Bytes := (ts.filter (fun t => t.1 = .normal)).map Prod.snd

theorem wordValues_append (ts us : List Token) : wordValues (ts ++ us) = wordValues ts ++ wordValues us := by
  rw [wordValues, List.filter_append, List.map_append]
  rfl

section Trees
variable (f : Bytes → Bytes)

theorem mapTokens_append (ss ss' : NginxConfig) : mapTokens f (ss ++ ss') = mapTokens f ss ++ mapTokens f ss' := by
  induction ss with
  | nil => rfl
  | cons s ss ih => simp only [List.cons_append, mapTokens, ih]

theorem stored_append (ss ss' : NginxConfig) : stored (ss ++ ss') = stored ss ++ stored ss' := by
  induction ss with
  | nil => rfl
  | cons s ss ih => simp only [List.cons_append, stored, ih, List.append_assoc]

@[simp] theorem stored_singleton (s : NginxConfigStatement) : stored [s] = s.stored := by
  simp [stored]

theorem mem_stored_of_mem {s : NginxConfigStatement} {config : NginxConfig} (hs : s ∈ config) {t : Bytes}
    (ht : t ∈ s.tokens) : t ∈ stored config := by
  obtain ⟨before, after, rfl⟩ := List.append_of_mem hs
  have hstored : t ∈ s.stored := by
    obtain ⟨ts, block⟩ := s
    cases block with
    | none => exact ht
    | some ss => exact List.mem_append_left _ ht
  rw [stored_append]
  exact List.mem_append_right _ (List.mem_append_left _ hstored)

private theorem map_eq_self_iff (ts : List Bytes) : ts.map f = ts ↔ ∀ t ∈ ts, f t = t := by
  have h := List.map_inj_left (f := f) (g := id) (l := ts)
  rwa [List.map_id] at h

mutual
theorem NginxConfigStatement.mapTokens_eq_self_iff (s : NginxConfigStatement) :
    s.mapTokens f = s ↔ ∀ t ∈ s.stored, f t = t := by
  match s with
  | .mk ts none => simp [NginxConfigStatement.mapTokens, NginxConfigStatement.stored, map_eq_self_iff]
  | .mk ts (some ss) =>
    simp [NginxConfigStatement.mapTokens, NginxConfigStatement.stored, map_eq_self_iff, mapTokens_eq_self_iff ss,
      or_imp, forall_and]
/-- A renaming leaves a tree alone exactly if it leaves every stored token alone. -/
theorem mapTokens_eq_self_iff (ss : List NginxConfigStatement) :
    mapTokens f ss = ss ↔ ∀ t ∈ stored ss, f t = t := by
  match ss with
  | [] => simp [mapTokens, stored]
  | s :: ss =>
    simp [mapTokens, stored, NginxConfigStatement.mapTokens_eq_self_iff s, mapTokens_eq_self_iff ss, or_imp,
      forall_and]
end

def mapBlock (b : OpenBlock) : OpenBlock := (mapTokens f b.1, b.2.map f)

theorem mapTokens_plug (blocks : List OpenBlock) (block : NginxConfig) :
    mapTokens f (plug blocks block) = plug (blocks.map (mapBlock f)) (mapTokens f block) := by
  induction blocks generalizing block with
  | nil => rfl
  | cons b outer ih =>
    obtain ⟨before, ws⟩ := b
    simp only [plug, List.map_cons, mapBlock, ih, mapTokens_append]
    rfl

def storedBefore : List OpenBlock → List Bytes
  | [] => []
  | (before, ws) :: outer => storedBefore outer ++ stored before ++ ws

theorem stored_plug (blocks : List OpenBlock) (block : NginxConfig) :
    stored (plug blocks block) = storedBefore blocks ++ stored block := by
  induction blocks generalizing block with
  | nil => rfl
  | cons b outer ih =>
    obtain ⟨before, ws⟩ := b
    rw [plug, ih, storedBefore, stored_append, stored_singleton]
    simp [NginxConfigStatement.stored]

end Trees

namespace Position
variable (f : Bytes → Bytes)

def mapTokens : Position → Position
  | between blocks done last => between (blocks.map (mapBlock f)) (Config.mapTokens f done) last
  | inside blocks done ws => inside (blocks.map (mapBlock f)) (Config.mapTokens f done) (ws.map f)

theorem config_mapTokens (p : Position) :
    (p.mapTokens f).state.config = Config.mapTokens f p.state.config := by
  cases p with
  | between blocks done last => exact (mapTokens_plug f blocks done).symm
  | inside blocks done ws =>
    rw [state, mapTokens_plug, mapTokens_append]
    rfl

theorem accepting_mapTokens (p : Position) : (p.mapTokens f).Accepting ↔ p.Accepting := by
  cases p with
  | between blocks done last => cases blocks <;> rfl
  | inside blocks done ws => rfl

theorem advance_mapTokens (p : Position) (t : Token) :
    (p.mapTokens f).advance (t.map f) = (p.advance t).map (mapTokens f) := by
  obtain ⟨tt, v⟩ := t
  cases p with
  | between blocks done last =>
    cases blocks with
    | nil => cases tt <;> rfl
    | cons b outer =>
      obtain ⟨before, ws⟩ := b
      cases tt <;> try rfl
      simp only [mapTokens, Token.map, List.map_cons, mapBlock, advance]
      split_ifs
      · rfl
      · simp only [Option.map_some, mapTokens, mapTokens_append]
        rfl
  | inside blocks done ws =>
    cases tt <;> try rfl
    · simp [mapTokens, Token.map, advance]
    · simp only [mapTokens, Token.map, advance, Option.map_some, mapTokens_append]
      rfl

/-- A run on renamed tokens is the renamed run. -/
theorem run_mapTokens (p : Position) (ts : List Token) :
    (p.mapTokens f).run (ts.map (Token.map f)) = ((p.run ts).1, (p.run ts).2.mapTokens f) := by
  induction ts generalizing p with
  | nil => rfl
  | cons t ts ih =>
    rw [List.map_cons, run, run, advance_mapTokens]
    have ht : (t.map f).1 = t.1 := rfl
    rw [ht]
    split_ifs
    · rfl
    · simp only [accepting_mapTokens]
    · cases p.advance t with
      | none => rfl
      | some next => exact ih next

/-- A word fits everywhere. -/
theorem exists_advance_word (p : Position) (v : Bytes) : ∃ next, p.advance (.normal, v) = some next := by
  cases p <;> exact ⟨_, rfl⟩

/-- The position after tokens that are all taken in. -/
def follow (p : Position) (ts : List Token) : Option Position := ts.foldlM advance p

theorem follow_cons {p next : Position} {t : Token} (h : p.advance t = some next) (ts : List Token) :
    p.follow (t :: ts) = next.follow ts := by
  rw [follow, List.foldlM_cons, h]
  rfl

theorem advance_of_follow {p q : Position} {t : Token} {ts : List Token} (h : p.follow (t :: ts) = some q) :
    ∃ next, p.advance t = some next ∧ next.follow ts = some q := by
  rw [follow, List.foldlM_cons, Option.bind_eq_bind, Option.bind_eq_some_iff] at h
  exact h

theorem follow_append (p : Position) (ts us : List Token) :
    p.follow (ts ++ us) = (p.follow ts).bind (fun q => q.follow us) := List.foldlM_append

theorem follow_mapTokens (p : Position) (ts : List Token) :
    (p.mapTokens f).follow (ts.map (Token.map f)) = (p.follow ts).map (mapTokens f) := by
  induction ts generalizing p with
  | nil => rfl
  | cons t ts ih =>
    have h := advance_mapTokens f p t
    cases ha : p.advance t with
    | none =>
      rw [ha] at h
      rw [follow, follow, List.map_cons, List.foldlM_cons, List.foldlM_cons, h, ha]
      rfl
    | some next =>
      rw [ha] at h
      rw [List.map_cons, follow_cons h, follow_cons ha, ih]

/-- Tokens that are all taken in are left behind by a run. -/
theorem run_of_follow {p q : Position} {us : List Token} (h : p.follow us = some q) (ts : List Token) :
    p.run (us ++ ts) = q.run ts := by
  induction us generalizing p with
  | nil =>
    obtain rfl := Option.some.inj h
    rfl
  | cons t us ih =>
    obtain ⟨next, ha, hf⟩ := advance_of_follow h
    have ht : t.1 ≠ .error ∧ t.1 ≠ .eof := by
      obtain ⟨tt, v⟩ := t
      constructor
      · rintro rfl
        cases p <;> cases ha
      · rintro rfl
        cases p <;> cases ha
    rw [List.cons_append, run, if_neg ht.1, if_neg ht.2, ha]
    exact ih hf

/-- A run takes in the tokens up to where it stops. -/
theorem exists_follow_run (p : Position) (ts : List Token) :
    ∃ us, us <+: ts ∧ p.follow us = some (p.run ts).2 := by
  induction ts generalizing p with
  | nil => exact ⟨[], List.nil_prefix, rfl⟩
  | cons t ts ih =>
    rw [run]
    split_ifs
    · exact ⟨[], List.nil_prefix, rfl⟩
    · exact ⟨[], List.nil_prefix, rfl⟩
    · cases ha : p.advance t with
      | none => exact ⟨[], List.nil_prefix, rfl⟩
      | some next =>
        obtain ⟨us, hu, hf⟩ := ih next
        refine ⟨t :: us, by simpa using hu, ?_⟩
        rw [follow_cons ha, hf]

/-- A word is stored behind all earlier ones, and no other token changes what is stored. -/
theorem stored_advance {p next : Position} {t : Token} (h : p.advance t = some next) :
    stored next.state.config = stored p.state.config ++ wordValues [t] := by
  cases advance_cases h with
  | firstWord => simp [state, stored_plug, stored_append, NginxConfigStatement.stored, wordValues]
  | closeBlock => simp [state, stored_plug, stored_append, storedBefore, NginxConfigStatement.stored, wordValues]
  | nextWord => simp [state, stored_plug, stored_append, NginxConfigStatement.stored, wordValues]
  | endStatement => simp [state, stored_plug, stored_append, NginxConfigStatement.stored, wordValues]
  | openBlock => simp [state, stored_plug, stored_append, storedBefore, stored, NginxConfigStatement.stored, wordValues]

theorem stored_follow {p q : Position} {ts : List Token} (h : p.follow ts = some q) :
    stored q.state.config = stored p.state.config ++ wordValues ts := by
  induction ts generalizing p with
  | nil =>
    obtain rfl := Option.some.inj h
    simp [wordValues]
  | cons t ts ih =>
    obtain ⟨next, ha, hf⟩ := advance_of_follow h
    rw [ih hf, stored_advance ha, List.append_assoc, ← wordValues_append, List.singleton_append]

/-- What is stored before a run stays in front. -/
theorem stored_run (p : Position) (ts : List Token) :
    ∃ us, us <+: ts ∧ p.follow us = some (p.run ts).2 ∧
      stored (p.run ts).2.state.config = stored p.state.config ++ wordValues us := by
  obtain ⟨us, hu, hf⟩ := exists_follow_run p ts
  exact ⟨us, hu, hf, stored_follow hf⟩

end Position

/-- `Parse` on a stream whose tokens are those of another with their values renamed. -/
theorem parse_mapTokens (f : Bytes → Bytes) {input input' : Stream}
    (h : tokenSequence input' = (tokenSequence input).map (Token.map f)) (c : NginxConfig) :
    ∃ r r', parse input c = some r ∧ parse input' (mapTokens f c) = some r' ∧
      r'.returned = r.returned ∧ r'.config = mapTokens f r.config := by
  obtain ⟨m, hp⟩ := parse_eq_run input c
  obtain ⟨m', hp'⟩ := parse_eq_run input' (mapTokens f c)
  have hrun := run_mapTokens f (between [] c .start) (tokenSequence input)
  rw [← h] at hrun
  have hrun' : (between [] (mapTokens f c) .start).run (tokenSequence input') = _ := hrun
  rw [hrun'] at hp'
  exact ⟨_, _, hp, hp', rfl, config_mapTokens f _⟩

end Koko.Config
