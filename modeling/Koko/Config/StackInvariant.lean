import Koko.Config.LexerProgress
import Koko.Config.WordTokens

/-! What holds each time at the head of the parse loop: how the stack of pointers, the brace counter, the
last token type and the half-built tree hang together. -/
namespace Koko.Config
open Koko.Lib NginxConfig Position

/-- A statement as the parser finishes it: words, none of them empty, and so in its block. -/
inductive Worded : NginxConfigStatement → Prop where
  | mk {tokens : List Bytes} {childBlock : Option NginxConfig} (ne : tokens ≠ []) (filled : [] ∉ tokens)
      (inner : ∀ block, childBlock = some block → ∀ s ∈ block, Worded s) : Worded (.mk tokens childBlock)

/-- One pointer leads to the child block of the last statement of the block the other leads to. -/
def ChildOfLast (config : NginxConfig) (upper lower : Pointer) : Prop :=
  ∃ block s child, config.deref lower = some block ∧ block.getLast? = some s ∧ s.childBlock = some child ∧
    upper = lower ++ [block.length - 1] ∧ config.deref upper = some child

/-- The invariant of the parse loop on a caller's configuration. -/
structure StackInvariant (caller : NginxConfig) (s : ParseState) : Prop where
  depth : (s.configStack.length : Int) = s.bracesDepth + 1
  bottom : s.configStack.getLast? = some []
  chained : s.configStack.IsChain (ChildOfLast s.config)
  worded : ∃ added, s.config = caller ++ added ∧ ∀ statement ∈ added, Worded statement
  open_of_normal : s.lastTokenType = .normal → ∃ top block statement, s.configStack.head? = some top ∧
    s.config.deref top = some block ∧ block.getLast? = some statement ∧ statement.childBlock = none

/-- Every block is still where it was, with at least as many statements. -/
def Kept (config config' : NginxConfig) : Prop :=
  ∀ pointer block, config.deref pointer = some block →
    ∃ block', config'.deref pointer = some block' ∧ block.length ≤ block'.length

section Stack

theorem length_pointers (blocks : List OpenBlock) : (pointers blocks).length = blocks.length + 1 := by
  induction blocks with
  | nil => rfl
  | cons b outer ih => rw [pointers, List.length_cons, ih, List.length_cons]

theorem getLast?_pointers (blocks : List OpenBlock) : (pointers blocks).getLast? = some [] := by
  induction blocks with
  | nil => rfl
  | cons b outer ih => rw [pointers, List.getLast?_cons, ih]; rfl

theorem isChain_pointers (blocks : List OpenBlock) (block : NginxConfig) :
    (pointers blocks).IsChain (ChildOfLast (plug blocks block)) := by
  induction blocks generalizing block with
  | nil => exact .singleton _
  | cons b outer ih =>
    obtain ⟨before, ws⟩ := b
    let last := NginxConfigStatement.mk ws (some block)
    have hlower : deref (plug ((before, ws) :: outer) block) (pointer outer) = some (before ++ [last]) :=
      deref_plug outer (before ++ [last])
    have hchild : ChildOfLast (plug ((before, ws) :: outer) block) (pointer ((before, ws) :: outer)) (pointer outer) := by
      refine ⟨before ++ [last], last, block, hlower, List.getLast?_concat, rfl, ?_, deref_plug ((before, ws) :: outer) block⟩
      rw [List.length_append]
      rfl
    have hbelow := ih (before ++ [last])
    cases outer with
    | nil => exact .cons_cons hchild hbelow
    | cons b outer => exact .cons_cons hchild hbelow

end Stack

section Words

/-- The statements before, in and around the open blocks, with the words that head these. -/
def OpenWorded (caller : NginxConfig) : List OpenBlock → NginxConfig → Prop
  | [], done => ∃ added, done = caller ++ added ∧ ∀ s ∈ added, Worded s
  | (before, ws) :: outer, done => (∀ s ∈ done, Worded s) ∧ (ws ≠ [] ∧ [] ∉ ws) ∧ OpenWorded caller outer before

theorem OpenWorded.snoc {caller done : NginxConfig} {blocks : List OpenBlock} (h : OpenWorded caller blocks done)
    {s : NginxConfigStatement} (hs : Worded s) : OpenWorded caller blocks (done ++ [s]) := by
  have hall {ss : NginxConfig} (hss : ∀ s ∈ ss, Worded s) : ∀ s' ∈ ss ++ [s], Worded s' := by
    intro s' hs'
    rcases List.mem_append.mp hs' with hm | hm
    · exact hss s' hm
    · rwa [List.mem_singleton.mp hm]
  cases blocks with
  | nil =>
    obtain ⟨added, rfl, hadded⟩ := h
    exact ⟨added ++ [s], List.append_assoc _ _ _, hall hadded⟩
  | cons b outer => exact ⟨hall h.1, h.2⟩

theorem worded_line {ws : List Bytes} (h : ws ≠ [] ∧ [] ∉ ws) : Worded (.mk ws none) :=
  .mk h.1 h.2 (fun _ he => by cases he)

theorem worded_block {ws : List Bytes} (h : ws ≠ [] ∧ [] ∉ ws) {block : NginxConfig} (hb : ∀ s ∈ block, Worded s) :
    Worded (.mk ws (some block)) :=
  .mk h.1 h.2 (fun _ he => by cases he; exact hb)

/-- Closing all blocks leaves the caller's statements and worded ones. -/
theorem OpenWorded.plug {caller : NginxConfig} {blocks : List OpenBlock} {done : NginxConfig}
    (h : OpenWorded caller blocks done) : ∃ added, plug blocks done = caller ++ added ∧ ∀ s ∈ added, Worded s := by
  induction blocks generalizing done with
  | nil => exact h
  | cons b outer ih => exact ih (h.2.2.snoc (worded_block h.2.1 h.1))

def Position.Worded (caller : NginxConfig) : Position → Prop
  | between blocks done _ => OpenWorded caller blocks done
  | inside blocks done ws => OpenWorded caller blocks done ∧ ws ≠ [] ∧ [] ∉ ws

theorem worded_advance {caller : NginxConfig} {p p' : Position} {t : Token} (hp : p.Worded caller)
    (ht : t.1 = .normal → t.2 ≠ []) (h : p.advance t = some p') : p'.Worded caller := by
  cases advance_cases h with
  | firstWord blocks done last v => exact ⟨hp, List.cons_ne_nil v [], by simpa [eq_comm] using ht rfl⟩
  | closeBlock outer before done ws v hl => exact hp.2.2.snoc (worded_block hp.2.1 hp.1)
  | nextWord blocks done ws v =>
    have hv : v ≠ [] := ht rfl
    exact ⟨hp.1, by simp, by simp [hp.2.2, hv.symm]⟩
  | endStatement blocks done ws v => exact hp.1.snoc (worded_line hp.2)
  | openBlock blocks done ws v => exact ⟨fun s hs => absurd hs List.not_mem_nil, hp.2, hp.1⟩

/-- The lexer returns no empty word. -/
theorem parseToken_normal_ne_nil {input rest : Stream} {v : Bytes} (h : parseToken input [] = (.normal, v, rest)) :
    v ≠ [] := by
  rintro rfl
  apply tokenSequence_ne_nil input
  rw [tokenSequence_of_token h (by simp) (by simp)]
  simp [wordValues]

end Words

/-- The state of the machine at a position is in the invariant. -/
theorem stackInvariant_state {caller : NginxConfig} {p : Position} (h : p.Worded caller) :
    StackInvariant caller p.state := by
  cases p with
  | between blocks done last =>
    refine ⟨?_, getLast?_pointers blocks, isChain_pointers blocks done, OpenWorded.plug h, ?_⟩
    · change ((pointers blocks).length : Int) = blocks.length + 1
      rw [length_pointers]
      rfl
    · intro hn
      cases last <;> cases hn
  | inside blocks done ws =>
    refine ⟨?_, getLast?_pointers blocks, isChain_pointers blocks _, OpenWorded.plug (h.1.snoc (worded_line h.2)), ?_⟩
    · change ((pointers blocks).length : Int) = blocks.length + 1
      rw [length_pointers]
      rfl
    · exact fun _ => ⟨pointer blocks, _, _, head_pointers blocks, deref_plug blocks _, List.getLast?_concat, rfl⟩

section Blocks

theorem Kept.refl (config : NginxConfig) : Kept config config :=
  fun _ block h => ⟨block, h, Nat.le_refl _⟩

/-- Statements that had a block still have it, and kept it. -/
theorem kept_of_statements {config config' : NginxConfig} (hlen : config.length ≤ config'.length)
    (h : ∀ (i : Nat) (s : NginxConfigStatement) child, config[i]? = some s → s.childBlock = some child →
      ∃ (s' : NginxConfigStatement) (child' : NginxConfig),
        config'[i]? = some s' ∧ s'.childBlock = some child' ∧ Kept child child') : Kept config config' := by
  intro pointer block hblock
  cases pointer with
  | nil =>
    obtain rfl := Option.some.inj hblock
    exact ⟨config', rfl, hlen⟩
  | cons i pointer =>
    obtain ⟨s, hs, hrest⟩ := Option.bind_eq_some_iff.mp hblock
    obtain ⟨child, hchild, hrest⟩ := Option.bind_eq_some_iff.mp hrest
    obtain ⟨s', child', hs', hchild', hkept⟩ := h i s child hs hchild
    obtain ⟨block', hblock', hle⟩ := hkept pointer block hrest
    refine ⟨block', ?_, hle⟩
    simp only [deref, hs', hchild', Option.bind_eq_bind, Option.bind_some, hblock']

theorem kept_emplaceBack (done : NginxConfig) (s : NginxConfigStatement) : Kept done (done ++ [s]) := by
  refine kept_of_statements (by simp) ?_
  intro i s' child hs' hchild
  exact ⟨s', child, by rw [List.getElem?_append_left (List.getElem?_eq_some_iff.mp hs').1, hs'], hchild, .refl child⟩

/-- Of the last statement only what is in its block counts. -/
theorem kept_last (done : NginxConfig) {s s' : NginxConfigStatement}
    (h : ∀ child, s.childBlock = some child → ∃ child', s'.childBlock = some child' ∧ Kept child child') :
    Kept (done ++ [s]) (done ++ [s']) := by
  refine kept_of_statements (by simp) ?_
  intro i t child ht hchild
  rcases Nat.lt_or_ge i done.length with hi | hi
  · rw [List.getElem?_append_left hi] at ht
    exact ⟨t, child, by rw [List.getElem?_append_left hi, ht], hchild, .refl child⟩
  · rw [List.getElem?_append_right hi] at ht
    obtain ⟨hi', ht⟩ := List.getElem?_eq_some_iff.mp ht
    obtain rfl : s = t := by simpa using ht
    obtain ⟨child', hchild', hkept⟩ := h child hchild
    refine ⟨s', child', ?_, hchild', hkept⟩
    have hlast : i - done.length = 0 := by simpa using hi'
    rw [List.getElem?_append_right hi, hlast]
    rfl

theorem Kept.plug {block block' : NginxConfig} (h : Kept block block') (blocks : List OpenBlock) :
    Kept (plug blocks block) (plug blocks block') := by
  induction blocks generalizing block block' with
  | nil => exact h
  | cons b outer ih =>
    apply ih
    apply kept_last
    rintro child he
    obtain rfl := Option.some.inj he
    exact ⟨block', rfl, h⟩

theorem kept_advance {p p' : Position} {t : Token} (h : p.advance t = some p') : Kept p.state.config p'.state.config := by
  cases advance_cases h with
  | firstWord blocks done last v => exact (kept_emplaceBack done _).plug blocks
  | closeBlock outer before done ws v hl => exact .refl _
  | nextWord blocks done ws v => exact (kept_last done (fun child he => by cases he)).plug blocks
  | endStatement blocks done ws v => exact .refl _
  | openBlock blocks done ws v => exact (kept_last done (fun child he => by cases he)).plug blocks

end Blocks

/-- What the machine does with a token: it goes on to the next position, or stops with the tree as it is. -/
theorem iterate_position (p : Position) (tokenType : TokenType) (token : Bytes) :
    (∃ p', p.advance (tokenType, token) = some p' ∧ iterate p.state tokenType token = some (.next p'.state)) ∨
    ∃ s, s.config = p.state.config ∧
      (iterate p.state tokenType token = some (.breakLoop s) ∨ iterate p.state tokenType token = some (.returnTrue s)) := by
  by_cases hf : tokenType = .eof
  · rw [hf, iterate_eof]
    right
    refine ⟨p.state, rfl, ?_⟩
    split_ifs
    · exact .inr rfl
    · exact .inl rfl
  cases ha : p.advance (tokenType, token) with
  | none =>
    obtain ⟨s, hs, hconfig⟩ := iterate_stuck ha hf
    exact .inr ⟨s, hconfig, .inl hs⟩
  | some p' => exact .inl ⟨p', rfl, iterate_advance ha⟩

/-- Whatever comes next, no operation on a container is undefined. -/
theorem iterate_isSome (p : Position) (tokenType : TokenType) (token : Bytes) :
    (iterate p.state tokenType token).isSome = true := by
  rcases iterate_position p tokenType token with ⟨p', -, hi⟩ | ⟨s, -, hi | hi⟩ <;> rw [hi] <;> rfl

/-- A pass from a position skips a comment or advances by a token, or leaves the loop with the tree as it is. -/
theorem parsePass_state (p : Position) (input : Stream) :
    (parsePass (p.state, input)).Meets
      (fun head => head.1 = p.state ∨ ∃ t p', (t.1 = .normal → t.2 ≠ []) ∧ p.advance t = some p' ∧ head.1 = p'.state)
      (fun r => ∃ result, r = some result ∧ result.config = p.state.config) := by
  rw [parsePass]
  rcases hl : parseToken input [] with ⟨tt, v, rest⟩
  dsimp only
  split_ifs
  · exact ⟨_, rfl, rfl⟩
  · exact .inl rfl
  · rcases iterate_position p tt v with ⟨p', ha, hi⟩ | ⟨s, hconfig, hi | hi⟩
    · rw [hi]
      refine .inr ⟨(tt, v), p', ?_, ha, rfl⟩
      rintro rfl
      exact parseToken_normal_ne_nil hl
    · rw [hi]
      exact ⟨_, rfl, hconfig⟩
    · rw [hi]
      exact ⟨_, rfl, hconfig⟩

theorem exists_position_of_visits {input rest : Stream} {caller : NginxConfig} {s : ParseState}
    (h : Pass.Visits parsePass (parseStart caller, input) (s, rest)) : ∃ p : Position, s = p.state ∧ p.Worded caller := by
  refine Pass.inv_of_visits (P := fun head : ParseState × Stream => ∃ p : Position, head.1 = p.state ∧ p.Worded caller)
    (Q := fun _ => True) ?_ h ?_
  · rintro ⟨s, input⟩ ⟨p, rfl, hp⟩
    have hpass := parsePass_state p input
    cases hb : parsePass (p.state, input) with
    | again head =>
      rw [hb] at hpass
      rcases hpass with hs | ⟨t, p', ht, ha, hs⟩
      · exact ⟨p, hs, hp⟩
      · exact ⟨p', hs, worded_advance hp ht ha⟩
    | leave r => exact trivial
  · exact ⟨between [] caller .start, rfl, [], (List.append_nil caller).symm, fun s hs => absurd hs List.not_mem_nil⟩

/-- On every stream, each time at the head of the parse loop: the invariant holds, no token that may come
next makes a container operation undefined, and a pass overwrites no block. So `Parse` returns, whether it
accepts or not, and with the tree it had at the last head. -/
theorem parse_stack_invariant (input : Stream) (caller : NginxConfig) :
    (∀ s rest, Pass.Visits parsePass (parseStart caller, input) (s, rest) →
      StackInvariant caller s ∧ (∀ tokenType token, (iterate s tokenType token).isSome = true) ∧
      (∀ s' rest', parsePass (s, rest) = .again (s', rest') → Kept s.config s'.config) ∧
      ∀ r, parsePass (s, rest) = .leave r → ∃ result, r = some result ∧ result.config = s.config) ∧
    ∃ result, parse input caller = some result := by
  constructor
  · intro s rest hvisits
    obtain ⟨p, rfl, hp⟩ := exists_position_of_visits hvisits
    have hpass := parsePass_state p rest
    refine ⟨stackInvariant_state hp, iterate_isSome p, ?_, ?_⟩
    · intro s' rest' hagain
      rw [hagain] at hpass
      rcases hpass with hs | ⟨t, p', -, ha, hs⟩
      · obtain rfl : s' = p.state := hs
        exact .refl _
      · obtain rfl : s' = p'.state := hs
        exact kept_advance ha
    · intro r hleave
      rw [hleave] at hpass
      exact hpass
  · obtain ⟨message, hp⟩ := parse_eq_run input caller
    exact ⟨_, hp⟩

/-- A word and a brace put a second pointer on the stack. -/
theorem open_block_on_stack :
    ∃ s rest, Pass.Visits parsePass (parseStart [], .ofList (ascii "a\x7b")) (s, rest) ∧
      s.configStack = [[0], []] ∧ s.bracesDepth = 1 ∧ StackInvariant [] s := by
  have hword : parseToken (.ofList (ascii "a\x7b")) [] = (.normal, ascii "a", .live (ascii "a") (ascii "\x7b")) := by
    decide +kernel
  have hbrace : parseToken (.live (ascii "a") (ascii "\x7b")) [] =
      (.startBlock, ascii "\x7b", .live (ascii "\x7ba") []) := by
    decide +kernel
  have hfirst : parsePass (parseStart [], .ofList (ascii "a\x7b")) =
      .again (⟨[.mk [ascii "a"] none], [[]], .normal, 0⟩, .live (ascii "a") (ascii "\x7b")) := by
    rw [parsePass, hword]
    rfl
  have hsecond : parsePass (⟨[.mk [ascii "a"] none], [[]], .normal, 0⟩, .live (ascii "a") (ascii "\x7b")) =
      .again (⟨[.mk [ascii "a"] (some [])], [[0], []], .startBlock, 1⟩, .live (ascii "\x7ba") []) := by
    rw [parsePass, hbrace]
    rfl
  have hvisits : Pass.Visits parsePass (parseStart [], .ofList (ascii "a\x7b"))
      (⟨[.mk [ascii "a"] (some [])], [[0], []], .startBlock, 1⟩, .live (ascii "\x7ba") []) :=
    .tail (.tail .refl hfirst) hsecond
  exact ⟨_, _, hvisits, rfl, rfl, ((parse_stack_invariant _ _).1 _ _ hvisits).1⟩

end Koko.Config
