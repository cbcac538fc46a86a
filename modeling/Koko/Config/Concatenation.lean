import Koko.Config.Layout

/-! A configuration in parts: reading one text into a configuration object and then the next is
reading them as one text. -/
namespace Koko.Config
open Koko.Lib Position
open InputStream (live)

/-- There is no token in the text but the end of file. -/
def NoToken (text : Bytes) : Prop := (tokenSequence (.ofList text)).head?.map Prod.fst = some .eof

instance (text : Bytes) : Decidable (NoToken text) := inferInstanceAs (Decidable (_ = _))

/-- A run over tokens that all advance goes on where they lead. -/
theorem run_append_of_accepted {p : Position} {ts : List Token} {v : Bytes}
    (hts : ∀ t ∈ ts, t.1 ≠ .eof ∧ t.1 ≠ .error) (h : (p.run (ts ++ [(.eof, v)])).1 = true) :
    ∃ q : Position, q.Accepting ∧ ∀ us, p.run (ts ++ us) = q.run us := by
  induction ts generalizing p with
  | nil =>
    simp only [List.nil_append, Position.run, reduceCtorEq, if_false, if_true, decide_eq_true_eq] at h
    exact ⟨p, h, fun us => rfl⟩
  | cons t ts ih =>
    obtain ⟨heof, herror⟩ := hts t List.mem_cons_self
    cases ha : p.advance t with
    | none =>
      rw [List.cons_append, Position.run, if_neg herror, if_neg heof, ha] at h
      cases h
    | some p' =>
      have hrun : ∀ us, p.run (t :: ts ++ us) = p'.run (ts ++ us) := by
        intro us
        rw [List.cons_append, Position.run, if_neg herror, if_neg heof, ha]
      rw [hrun] at h
      obtain ⟨q, hq, hqs⟩ := ih (fun t ht => hts t (List.mem_cons_of_mem _ ht)) h
      exact ⟨q, hq, fun us => (hrun us).trans (hqs us)⟩

/-- At the end of a statement the parser stands as at the start, but that it may stop there. -/
theorem run_of_accepting {done : NginxConfig} {last : Boundary} (hl : (between [] done last).Accepting) (ts : List Token) :
    ((between [] done last).run ts).2.state.config = ((between [] done .start).run ts).2.state.config ∧
      (((between [] done last).run ts).1 = true ↔
        ((between [] done .start).run ts).1 = true ∨ ts.head?.map Prod.fst = some .eof) := by
  cases ts with
  | nil => exact ⟨rfl, by simp [Position.run]⟩
  | cons t ts =>
    obtain ⟨tt, v⟩ := t
    have hadvance : (between [] done last).advance (tt, v) = (between [] done .start).advance (tt, v) := by
      cases tt <;> rfl
    rw [Position.run, Position.run]
    by_cases herror : tt = .error
    · simp [herror, Position.state]
    by_cases heof : tt = .eof
    · simp [heof, hl, Position.state]
    · simp only [herror, heof, if_false, hadvance, List.head?_cons, Option.map_some, Option.some.injEq, or_false]
      cases ha : (between [] done .start).advance (tt, v) with
      | none => exact ⟨rfl, Iff.rfl⟩
      | some q => exact ⟨rfl, Iff.rfl⟩

section Onto
variable (base : NginxConfig)

/-- The open blocks and the innermost of them, with other statements in front of the outermost. -/
def placeOnto : List OpenBlock → NginxConfig → List OpenBlock × NginxConfig
  | [], block => ([], base ++ block)
  | (before, ws) :: outer, block => (((placeOnto outer before).2, ws) :: (placeOnto outer before).1, block)

theorem placeOnto_append (blocks : List OpenBlock) (block ss : NginxConfig) :
    placeOnto base blocks (block ++ ss) = ((placeOnto base blocks block).1, (placeOnto base blocks block).2 ++ ss) := by
  cases blocks with
  | nil => simp [placeOnto]
  | cons b outer => rfl

theorem plug_placeOnto (blocks : List OpenBlock) (block : NginxConfig) :
    plug (placeOnto base blocks block).1 (placeOnto base blocks block).2 = base ++ plug blocks block := by
  induction blocks generalizing block with
  | nil => rfl
  | cons b outer ih =>
    obtain ⟨before, ws⟩ := b
    rw [plug, ← ih, placeOnto_append]
    rfl

namespace Position

def onto : Position → Position
  | between blocks done last => between (placeOnto base blocks done).1 (placeOnto base blocks done).2 last
  | inside blocks done ws => inside (placeOnto base blocks done).1 (placeOnto base blocks done).2 ws

theorem config_onto (p : Position) : (p.onto base).state.config = base ++ p.state.config := by
  cases p with
  | between blocks done last => exact plug_placeOnto base blocks done
  | inside blocks done ws =>
    rw [state, ← plug_placeOnto, placeOnto_append]
    rfl

theorem accepting_onto (p : Position) : (p.onto base).Accepting ↔ p.Accepting := by
  cases p with
  | between blocks done last => cases blocks <;> rfl
  | inside blocks done ws => rfl

theorem advance_onto (p : Position) (t : Token) : (p.onto base).advance t = (p.advance t).map (onto base) := by
  obtain ⟨tt, v⟩ := t
  cases p with
  | between blocks done last =>
    cases blocks with
    | nil => cases tt <;> rfl
    | cons b outer =>
      obtain ⟨before, ws⟩ := b
      cases tt <;> try rfl
      simp only [onto, placeOnto, advance]
      split_ifs
      · rfl
      · simp only [Option.map_some, onto, placeOnto_append]
  | inside blocks done ws =>
    cases tt <;> try rfl
    simp only [onto, advance, Option.map_some, placeOnto_append]

/-- The parser reads on in the same way whatever stands before. -/
theorem run_onto (p : Position) (ts : List Token) :
    (p.onto base).run ts = ((p.run ts).1, (p.run ts).2.onto base) := by
  induction ts generalizing p with
  | nil => rfl
  | cons t ts ih =>
    rw [run, run, advance_onto]
    split_ifs
    · rfl
    · simp only [accepting_onto]
    · cases p.advance t with
      | none => rfl
      | some next => exact ih next

end Position

/-- `Parse` adds to the configuration it is given what it would have read into an empty one, also
where it rejects. -/
theorem parse_onto (input : Stream) :
    ∃ r r', parse input [] = some r ∧ parse input base = some r' ∧ r'.returned = r.returned ∧
      r'.config = base ++ r.config := by
  obtain ⟨m, hp⟩ := parse_eq_run input []
  obtain ⟨m', hp'⟩ := parse_eq_run input base
  have hrun := run_onto base (between [] [] .start) (tokenSequence input)
  rw [show (between [] [] .start).onto base = between [] base .start by simp [onto, placeOnto]] at hrun
  refine ⟨_, _, hp, hp', by rw [hrun], ?_⟩
  rw [hrun]
  exact config_onto base _

end Onto

private theorem inGap_goes_on (c : Byte) : (Context.inGap c).2 ≠ none := by
  unfold Context.inGap
  split_ifs <;> simp

private theorem inQuotes_goes_on (quote : Quote) (value : Bytes) (c : Byte) : (Context.inQuotes quote value c).2 ≠ none := by
  unfold Context.inQuotes
  split_ifs <;> simp

/-- A step that stops puts out an error. -/
theorem error_of_step_stop {context : Context} {c : Byte} (h : (context.step c).2 = none) :
    ∃ v, (context.step c).1 = [(.error, v)] := by
  cases context with
  | gap => exact absurd h (inGap_goes_on c)
  | word value =>
    rw [Context.step] at h
    split_ifs at h
    exact absurd h (inGap_goes_on c)
  | comment value =>
    rw [Context.step] at h
    split_ifs at h
  | quoted quote value => exact absurd h (inQuotes_goes_on quote value c)
  | escape quote value =>
    rw [Context.step] at h ⊢
    split_ifs at h ⊢
    exact ⟨value, rfl⟩
  | backslash quote value =>
    rw [Context.step] at h
    split_ifs at h
    exact absurd h (inQuotes_goes_on quote value c)
  | closing quote value =>
    rw [Context.step] at h ⊢
    split_ifs at h ⊢
    · exact absurd h (inGap_goes_on c)
    · exact ⟨value, rfl⟩

/-- A scanner that gives up puts out an error. -/
theorem error_of_feed_stop {context : Context} {text : Bytes} (h : (scanner.feed context text).2 = none) :
    ∃ v, (TokenType.error, v) ∈ (scanner.feed context text).1 := by
  induction text generalizing context with
  | nil => cases h
  | cons c text ih =>
    rcases hs : scanner.step context c with ⟨out, next⟩
    cases next with
    | none =>
      obtain ⟨v, hv⟩ := error_of_step_stop (show (context.step c).2 = none from congrArg Prod.snd hs)
      rw [Transducer.feed_cons_stop hs]
      exact ⟨v, by rw [← show (context.step c).1 = out from congrArg Prod.fst hs, hv]; exact List.mem_singleton_self _⟩
    | some next =>
      rw [Transducer.feed_cons_go hs] at h ⊢
      obtain ⟨v, hv⟩ := ih h
      exact ⟨v, List.mem_append_right _ hv⟩

/-- A line end that is read between tokens. -/
theorem endsOutside_line {text : Bytes} (hl : text.getLast? = some (chr '\n'))
    (hg : (scanner.feed .gap text).2 = some .gap) : EndsOutside text := by
  refine .inr ⟨⟨chr '\n', by decide, hl⟩, ?_⟩
  intro context hc
  obtain rfl : context = .gap := Option.some.inj (hc.symm.trans hg)
  exact id

/-- The tokens of an accepted text that ends outside, and those of what follows it. -/
theorem tokenSequence_of_accepted {x : Bytes} (hx : EndsOutside x) (ha : Grammatical (.ofList x)) :
    ∃ ts, (∀ t ∈ ts, t.1 ≠ .eof ∧ t.1 ≠ .error) ∧ tokenSequence (.ofList x) = ts ++ [(.eof, [])] ∧
      ∀ y, tokenSequence (.ofList (x ++ y)) = ts ++ tokenSequence (.ofList y) := by
  have htokens : ∀ y, tokenSequence (.ofList y) = scanner.results .gap y := fun y => tokenSequence_eq_results [] y
  obtain ⟨w, v, ss, hw, -⟩ := ha
  obtain ⟨us, last, hus, -, hplain⟩ := tokenSequence_split (.ofList x)
  obtain ⟨rfl, hlast⟩ := List.append_inj' (hw.symm.trans hus) rfl
  rcases hf : scanner.feed .gap x with ⟨out, context⟩
  have hgap := feed_of_endsOutside hx
  rw [hf] at hgap
  rcases hgap with rfl | rfl
  · -- an error among the tokens of an accepted text
    obtain ⟨u, hu⟩ := error_of_feed_stop (congrArg Prod.snd hf)
    rw [hf] at hu
    have hmem : (TokenType.error, u) ∈ w ++ [(.eof, v)] := by
      rw [← hw, htokens, Transducer.results, hf]
      exact List.mem_append_left _ hu
    rcases List.mem_append.mp hmem with hm | hm
    · exact absurd rfl (hplain _ hm).2
    · simp at hm
  · have hx : tokenSequence (.ofList x) = out ++ [(.eof, [])] := by
      rw [htokens, Transducer.results, hf]
      rfl
    obtain ⟨rfl, -⟩ := List.append_inj' (hw.symm.trans hx) rfl
    exact ⟨w, hplain, hx, fun y => by rw [htokens, Transducer.results_append_go hf, htokens]⟩

/-- A text read behind an accepted one is read into the configuration that one left. -/
theorem parse_append {x : Bytes} (hx : EndsOutside x) {c : NginxConfig} {r : ParseResult}
    (hr : parse (.ofList x) c = some r) (ha : r.returned = true) (y : Bytes) :
    ¬ NoToken (x ++ y) ∧ ∃ r₁ r₂, parse (.ofList (x ++ y)) c = some r₁ ∧ parse (.ofList y) r.config = some r₂ ∧
      r₁.config = r₂.config ∧ (r₁.returned = true ↔ r₂.returned = true ∨ NoToken y) := by
  obtain ⟨m, hp⟩ := parse_eq_run (.ofList x) c
  obtain rfl := Option.some.inj (hr.symm.trans hp)
  obtain ⟨ts, hts, htx, htokens⟩ := tokenSequence_of_accepted hx ((run_true_iff _ c).mp ha)
  dsimp only at ha ⊢
  rw [htx] at ha ⊢
  obtain ⟨q, hq, hrun⟩ := run_append_of_accepted hts ha
  refine ⟨?_, ?_⟩
  · have hne : ts ≠ [] := by
      rintro rfl
      simp [Position.run, Accepting] at ha
    obtain ⟨t, rest, rfl⟩ := List.exists_cons_of_ne_nil hne
    rw [NoToken, htokens]
    intro h
    exact (hts t List.mem_cons_self).1 (Option.some.inj h)
  · obtain ⟨m₁, h₁⟩ := parse_eq_run (.ofList (x ++ y)) c
    obtain ⟨done, last, rfl⟩ : ∃ done last, q = between [] done last := by
      cases q with
      | inside blocks done ws => exact absurd hq id
      | between blocks done last =>
        cases blocks with
        | nil => exact ⟨done, last, rfl⟩
        | cons b outer => exact absurd hq id
    have hconfig : ((between [] c .start).run (ts ++ [(.eof, [])])).2.state.config = done := by
      rw [hrun]
      simp [Position.run, Position.state, plug]
    rw [hconfig]
    obtain ⟨m₂, h₂⟩ := parse_eq_run (.ofList y) done
    rw [htokens, hrun] at h₁
    obtain ⟨hsame, hreturned⟩ := run_of_accepting hq (tokenSequence (.ofList y))
    exact ⟨_, _, h₁, h₂, hsame, hreturned⟩

/-- What is in the configuration once a text was read, be it accepted or not. -/
def tree (text : Bytes) : NginxConfig := ((parse (.ofList text) []).map ParseResult.config).getD []

/-- Nothing, or a text that is accepted. -/
def Complete (text : Bytes) : Prop := text = [] ∨ ∃ r, parse (.ofList text) [] = some r ∧ r.returned = true

theorem tree_of_parse {text : Bytes} {r : ParseResult} (h : parse (.ofList text) [] = some r) : tree text = r.config := by
  rw [tree, h]
  rfl

/-- The trees of a complete text and of what follows it stand one behind the other. -/
theorem tree_append {x : Bytes} (hx : EndsOutside x) (hc : Complete x) (y : Bytes) : tree (x ++ y) = tree x ++ tree y := by
  rcases hc with rfl | ⟨r, hr, ha⟩
  · have hnil : tree [] = [] := by decide +kernel
    rw [hnil, List.nil_append, List.nil_append]
  · obtain ⟨-, r₁, r₂, h₁, h₂, hsame, -⟩ := parse_append hx hr ha y
    obtain ⟨r₃, r₄, h₃, h₄, -, honto⟩ := parse_onto r.config (.ofList y)
    obtain rfl := Option.some.inj (h₂.symm.trans h₄)
    rw [tree_of_parse hr, tree_of_parse h₁, tree_of_parse h₃, hsame, honto]

/-- Several texts, read one after another into the same configuration, all accepted. -/
def parseParts (parts : List Bytes) (config : NginxConfig) : Option NginxConfig :=
  parts.foldlM (fun config part => do
    let r ← parse (.ofList part) config
    if r.returned then some r.config else none) config

theorem parseParts_cons {part : Bytes} {parts : List Bytes} {c c' : NginxConfig} (h : parseParts (part :: parts) c = some c') :
    ∃ r, parse (.ofList part) c = some r ∧ r.returned = true ∧ parseParts parts r.config = some c' := by
  rw [parseParts, List.foldlM_cons] at h
  obtain ⟨c₁, h₁, h⟩ := Option.bind_eq_some_iff.mp h
  obtain ⟨r, hr, h₁⟩ := Option.bind_eq_some_iff.mp h₁
  split_ifs at h₁ with hret
  obtain rfl := Option.some.inj h₁
  exact ⟨r, hr, hret, h⟩

/-- Parts of a configuration that are accepted one after another may stand in one text: it builds
what they build, also for a last part that is rejected, and it is accepted exactly if that last
part is, or has no token and is not all there is. -/
theorem parse_parts {parts : List Bytes} (houtside : ∀ part ∈ parts, EndsOutside part) {c c' : NginxConfig}
    (h : parseParts parts c = some c') (y : Bytes) :
    ∃ r r', parse (.ofList (parts.flatten ++ y)) c = some r ∧ parse (.ofList y) c' = some r' ∧
      r.config = r'.config ∧ (r.returned = true ↔ r'.returned = true ∨ (parts ≠ [] ∧ NoToken y)) := by
  induction parts generalizing c with
  | nil =>
    obtain rfl := Option.some.inj h
    obtain ⟨m, hp⟩ := parse_eq_run (.ofList y) c
    exact ⟨_, _, hp, hp, rfl, by simp⟩
  | cons part parts ih =>
    obtain ⟨r₀, hr₀, hret, hrest⟩ := parseParts_cons h
    obtain ⟨r, r', hr, hr', hsame, hreturned⟩ := ih (fun x hx => houtside x (List.mem_cons_of_mem _ hx)) hrest
    obtain ⟨-, r₁, r₂, h₁, h₂, hsame₁, hreturned₁⟩ :=
      parse_append (houtside part List.mem_cons_self) hr₀ hret (parts.flatten ++ y)
    obtain rfl := Option.some.inj (hr.symm.trans h₂)
    refine ⟨r₁, r', ?_, hr', hsame₁.trans hsame, ?_⟩
    · rw [List.flatten_cons, List.append_assoc, h₁]
    · rw [hreturned₁, hreturned]
      -- a part that is accepted begins with another token than the end of file
      cases parts with
      | nil => simp
      | cons next parts =>
        obtain ⟨r₃, hr₃, hret₃, -⟩ := parseParts_cons hrest
        have hsome : ¬ NoToken ((next :: parts).flatten ++ y) := by
          rw [List.flatten_cons, List.append_assoc]
          exact (parse_append (houtside next (by simp)) hr₃ hret₃ (parts.flatten ++ y)).1
        rw [or_iff_left hsome]
        simp

/-- Two accepted parts and a comment that would be rejected alone. -/
theorem parse_parts_comment :
    parseParts [ascii "port 80;\n", ascii "location '/a' Echo \x7b\x7d\n"] [] =
        some [.mk [ascii "port", ascii "80"] none, .mk [ascii "location", ascii "/a", ascii "Echo"] (some [])] ∧
      ∃ r r', parse (.ofList ([ascii "port 80;\n", ascii "location '/a' Echo \x7b\x7d\n"].flatten ++ ascii "# end\n")) [] = some r ∧
        parse (.ofList (ascii "# end\n"))
          [.mk [ascii "port", ascii "80"] none, .mk [ascii "location", ascii "/a", ascii "Echo"] (some [])] = some r' ∧
        r.config = r'.config ∧ (r.returned = true ↔ r'.returned = true ∨
          ([ascii "port 80;\n", ascii "location '/a' Echo \x7b\x7d\n"] ≠ [] ∧ NoToken (ascii "# end\n"))) := by
  have hparts : parseParts [ascii "port 80;\n", ascii "location '/a' Echo \x7b\x7d\n"] [] =
      some [.mk [ascii "port", ascii "80"] none, .mk [ascii "location", ascii "/a", ascii "Echo"] (some [])] := by
    decide +kernel
  refine ⟨hparts, parse_parts ?_ hparts (ascii "# end\n")⟩
  intro part hpart
  simp only [List.mem_cons, List.not_mem_nil, or_false] at hpart
  rcases hpart with rfl | rfl
  · exact endsOutside_line (by decide +kernel) (by decide +kernel)
  · exact endsOutside_line (by decide +kernel) (by decide +kernel)

end Koko.Config
