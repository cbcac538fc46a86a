import Koko.Config.ParserCorrectness
import Koko.Lib.ReadAccount
import Koko.Lib.WhileLoop

/-! The two loops of the parser by their bodies. The token loop is written over any kind of stream, so
that it also runs on one that keeps account of what the call has read. -/
namespace Koko.Config
open Koko.Lib
open InputStream (live)

namespace TokenLoop
variable {S T : Type} (ops : StreamOps S Byte)

/-- The variables of the token loop: its state, the value collected and the stream. -/
abbrev Head (S : Type) := TokenParserState × Bytes × S

def consumeEscapeChar (input : S) (value : Bytes) (quote : Byte) : String × Bytes × S :=
  if ¬ (quote = chr '\'' ∨ quote = chr '"') then
    ("string cannot be quoted with given quote in the config", value, input)
  else
    let (next, input) := ops.peek input
    let peeked := peekedChar next
    if peeked ∉ escapeChars then ("non-escape char following \\ in config", value, input)
    else
      let (_, input) := ops.get input
      let value := setLast value peeked
      if peeked = chr '\\' then
        let (next, input) := ops.peek input
        if next = some quote then
          let (_, input) := ops.get input
          ("", setLast value quote, input)
        else ("", value, input)
      else ("", value, input)

def endOfInput (state : TokenParserState) (value : Bytes) (input : S) : TokenType × Bytes × S :=
  if state = .singleQuote ∨ state = .doubleQuote then (.error, value, input)
  else (.eof, value, input)

def closeQuote (quote : Byte) (value : Bytes) (input : S) : TokenType × Bytes × S :=
  let (next, input) := ops.peek input
  let peeked := peekedChar next
  if isSpace peeked ∨ peeked = chr ';' then (.normal, removeQuotes value quote, input)
  else (.error, value, input)

/-- A byte inside quotes. -/
def quotedPass (state : TokenParserState) (quote : Byte) (value : Bytes) (c : Byte) (input : S) :
    Pass (Head S) (TokenType × Bytes × S) :=
  if c = chr '\\' then
    match consumeEscapeChar ops input (value ++ [c]) quote with
    | (err, value, input) => if err ≠ "" then .leave (.error, value, input) else .again (state, value, input)
  else if c = quote then .leave (closeQuote ops quote (value ++ [c]) input)
  else .again (state, value ++ [c], input)

/-- A byte before a token. The stream is not touched. -/
def gapPass (value : Bytes) (c : Byte) : Pass (TokenParserState × Bytes) (TokenType × Bytes) :=
  if c = chr '{' then .leave (.startBlock, [c])
  else if c = chr '}' then .leave (.endBlock, [c])
  else if c = chr '#' then .again (.comment, [c])
  else if c = chr '"' then .again (.doubleQuote, [c])
  else if c = chr '\'' then .again (.singleQuote, [c])
  else if c = chr ';' then .leave (.statementEnd, [c])
  else if c = chr ' ' ∨ c = chr '\t' ∨ c = chr '\n' ∨ c = chr '\r' then .again (.initialWhitespace, value)
  else .again (.normal, value ++ [c])

/-- One pass of the token loop. -/
def pass : Head S → Pass (Head S) (TokenType × Bytes × S)
  | (state, value, input) =>
    if ops.good input then
      match ops.get input with
      | (none, input) => .leave (endOfInput state value input)
      | (some c, input) =>
        match state with
        | .initialWhitespace => (gapPass value c).map (fun h => (h.1, h.2, input)) (fun r => (r.1, r.2, input))
        | .singleQuote => quotedPass ops .singleQuote (chr '\'') value c input
        | .doubleQuote => quotedPass ops .doubleQuote (chr '"') value c input
        | .comment =>
          if c = chr '\n' ∨ c = chr '\r' then .leave (.comment, value, input)
          else .again (.comment, value ++ [c], input)
        | .normal =>
          if endsWord c then .leave (.normal, value, ops.unget input)
          else .again (.normal, value ++ [c], input)
    else .leave (endOfInput state value input)

section
variable {ops} {P Q : S → Prop}

/-- Reads and look-aheads are all that an escape and a closing quote do. -/
theorem consumeEscapeChar_stream (hkeeps : ops.Keeps P) {input : S} (h : P input) (value : Bytes) (quote : Byte) :
    P (consumeEscapeChar ops input value quote).2.2 := by
  have hpeeked := hkeeps.peek _ h
  have hread := hkeeps.get _ hpeeked
  have hpeeked' := hkeeps.peek _ hread
  unfold consumeEscapeChar
  dsimp only
  split_ifs
  · exact hkeeps.get _ hpeeked'
  · exact hpeeked'
  · exact hread
  · exact hpeeked
  · exact h

theorem closeQuote_stream (hkeeps : ops.Keeps P) {input : S} (h : P input) (quote : Byte) (value : Bytes) :
    P (closeQuote ops quote value input).2.2 := by
  unfold closeQuote
  dsimp only
  split_ifs <;> exact hkeeps.peek _ h

/-- The two predicates on the stream that a pass hands on and on the one it returns. -/
abbrev Leaves (P Q : S → Prop) : Pass (Head S) (TokenType × Bytes × S) → Prop :=
  Pass.Meets (fun head => P head.2.2) (fun r => Q r.2.2)

theorem quotedPass_stream (hkeeps : ops.Keeps P) (hsub : ∀ s, P s → Q s) {input : S} (h : P input)
    (state : TokenParserState) (quote : Byte) (value : Bytes) (c : Byte) :
    Leaves P Q (quotedPass ops state quote value c input) := by
  unfold quotedPass
  split_ifs
  · have hescape := consumeEscapeChar_stream hkeeps h (value ++ [c]) quote
    dsimp only
    split_ifs
    · exact hsub _ hescape
    · exact hescape
  · exact hsub _ (closeQuote_stream hkeeps h quote _)
  · exact h

/-- What one successful read gives and further reads and look-aheads keep, a pass hands on. A pass may
also return the stream after a failed read, or with the one byte it read stepped back over. -/
theorem pass_stream (hkeeps : ops.Keeps P) (hsub : ∀ s, P s → Q s) {input : S} (hinput : Q input)
    (hfailed : Q (ops.get input).2)
    (hread : ∀ c, (ops.get input).1 = some c → P (ops.get input).2 ∧ Q (ops.unget (ops.get input).2))
    (state : TokenParserState) (value : Bytes) : Leaves P Q (pass ops (state, value, input)) := by
  have hend (input : S) (h : Q input) : Q (endOfInput state value input).2.2 := by
    unfold endOfInput
    split_ifs <;> exact h
  rw [pass]
  split_ifs
  · rcases hg : ops.get input with ⟨next, input'⟩
    rw [hg] at hfailed hread
    cases next with
    | none => exact hend input' hfailed
    | some c =>
      obtain ⟨h, hunget⟩ := hread c rfl
      cases state with
      | initialWhitespace =>
        dsimp only
        cases gapPass value c with
        | again _ => exact h
        | leave _ => exact hsub _ h
      | singleQuote => exact quotedPass_stream hkeeps hsub h _ _ _ _
      | doubleQuote => exact quotedPass_stream hkeeps hsub h _ _ _ _
      | comment =>
        dsimp only
        split_ifs
        · exact hsub _ h
        · exact h
      | normal =>
        dsimp only
        split_ifs
        · exact hunget
        · exact h
  · exact hend input hinput

end

section
variable {ops} {ops' : StreamOps T Byte} {f : S → T}

private theorem consumeEscapeChar_view (h : ops.View ops' f) (input : S) (value : Bytes) (quote : Byte) :
    consumeEscapeChar ops' (f input) value quote =
      let r := consumeEscapeChar ops input value quote
      (r.1, r.2.1, f r.2.2) := by
  unfold consumeEscapeChar
  simp only [h.peek, h.get]
  split_ifs <;> rfl

private theorem quotedPass_view (h : ops.View ops' f) (state : TokenParserState) (quote : Byte) (value : Bytes)
    (c : Byte) (input : S) : quotedPass ops' state quote value c (f input) =
      (quotedPass ops state quote value c input).map (Prod.map id (Prod.map id f)) (Prod.map id (Prod.map id f)) := by
  unfold quotedPass closeQuote
  simp only [consumeEscapeChar_view h, h.peek]
  split_ifs <;> rfl

/-- A pass sees no more of a stream than its operations. -/
theorem pass_view (h : ops.View ops' f) (head : Head S) :
    pass ops' (Prod.map id (Prod.map id f) head) =
      (pass ops head).map (Prod.map id (Prod.map id f)) (Prod.map id (Prod.map id f)) := by
  obtain ⟨state, value, input⟩ := head
  have hend (input : S) : endOfInput state value (f input) = Prod.map id (Prod.map id f) (endOfInput state value input) := by
    unfold endOfInput
    split_ifs <;> rfl
  simp only [pass, Prod.map_apply, id_eq, h.good, h.get]
  split_ifs
  · rcases ops.get input with ⟨next, input'⟩
    cases next with
    | none => exact congrArg Pass.leave (hend input')
    | some c =>
      cases state with
      | initialWhitespace =>
        dsimp only
        cases gapPass value c <;> rfl
      | singleQuote => exact quotedPass_view h _ _ _ _ _
      | doubleQuote => exact quotedPass_view h _ _ _ _ _
      | comment =>
        dsimp only
        split_ifs <;> rfl
      | normal =>
        dsimp only
        rw [h.unget]
        split_ifs <;> rfl
  · exact congrArg Pass.leave (hend input)

end

private theorem pass_stopped (state : TokenParserState) (value : Bytes) {input : Stream} (h : input.good = false) :
    pass InputStream.ops (state, value, input) = .leave (Config.endOfInput state value input) := by
  rw [pass, if_neg (by simpa [InputStream.ops] using h)]
  rfl

/-- How the token loop goes on after a pass. -/
def resume : Pass (Head Stream) Lexed → Lexed := Pass.elim (fun h => parseTokenLoop h.1 h.2.1 h.2.2) id

private theorem loop_gapPass (value past rest : Bytes) (c : Byte) :
    parseTokenLoop .initialWhitespace value (live past (c :: rest)) =
      resume ((gapPass value c).map (fun h => (h.1, h.2, live (c :: past) rest)) (fun r => (r.1, r.2, live (c :: past) rest))) := by
  rw [loop_initialWhitespace]
  simp only [gapPass, apply_ite (Pass.map _ _), apply_ite resume]
  rfl

private theorem loop_quotedPass {state : TokenParserState} {quote : Byte} (hq : QuotedBy state quote)
    (value past rest : Bytes) (c : Byte) :
    parseTokenLoop state value (live past (c :: rest)) =
      resume (quotedPass InputStream.ops state quote value c (live (c :: past) rest)) := by
  rw [loop_quoted past rest value c hq]
  simp only [quotedPass, apply_ite resume]
  rfl

/-- The token loop goes on as its pass says. -/
theorem parseTokenLoop_eq_resume (head : Head Stream) :
    parseTokenLoop head.1 head.2.1 head.2.2 = resume (pass InputStream.ops head) := by
  obtain ⟨state, value, input⟩ := head
  dsimp only
  cases hg : input.good with
  | false =>
    rw [pass_stopped state value hg, loop_stopped value state hg]
    rfl
  | true =>
    obtain ⟨past, unread, rfl⟩ : ∃ past unread, input = live past unread :=
      ⟨_, _, InputStream.eq_live_of_good hg⟩
    have hgood : InputStream.ops.good (live past unread) = true := rfl
    rw [pass, if_pos hgood]
    cases unread with
    | nil =>
      rw [loop_nil]
      rfl
    | cons c rest =>
      cases state with
      | initialWhitespace => exact loop_gapPass value past rest c
      | singleQuote => exact loop_quotedPass (.inl ⟨rfl, rfl⟩) value past rest c
      | doubleQuote => exact loop_quotedPass (.inr ⟨rfl, rfl⟩) value past rest c
      | comment =>
        rw [loop_comment]
        dsimp only [InputStream.ops, InputStream.get_live_cons]
        rw [apply_ite resume]
        rfl
      | normal =>
        rw [loop_normal]
        dsimp only [InputStream.ops, InputStream.get_live_cons]
        rw [apply_ite resume]
        rfl

/-- A pass that goes around has read something. -/
theorem pass_unread_lt (state : TokenParserState) (value : Bytes) (input : Stream) :
    Leaves (fun s => s.unread.length < input.unread.length) (fun _ => True) (pass InputStream.ops (state, value, input)) := by
  have hkeeps : InputStream.ops.Keeps (fun s : Stream => s.unread.length < input.unread.length) := by
    refine ⟨fun s h => Nat.lt_of_le_of_lt s.unread_get_le h, ?_⟩
    intro s h
    change s.peek.2.unread.length < input.unread.length
    rwa [InputStream.unread_peek]
  refine pass_stream hkeeps (fun _ _ => trivial) trivial trivial ?_ state value
  exact fun c hc => ⟨InputStream.unread_lt_of_get_some (Prod.ext hc rfl), trivial⟩

/-- The token loop takes at most one pass for each unread byte, and one more. -/
theorem loop_pass {fuel : Nat} (state : TokenParserState) (value : Bytes) {input : Stream}
    (h : input.unread.length < fuel) :
    Pass.loop (pass InputStream.ops) fuel (state, value, input) = some (parseTokenLoop state value input) := by
  exact Pass.loop_of_measure (m := fun head : Head Stream => head.2.2.unread.length) parseTokenLoop_eq_resume
    (fun head => pass_unread_lt head.1 head.2.1 head.2.2) h

theorem balanced_pass {past : Bytes} {account : ReadAccount Byte} (h : account.Balanced past) (state : TokenParserState)
    (value : Bytes) :
    Leaves (·.Balanced past) (·.Balanced past) (pass ReadAccount.ops (state, value, account)) := by
  refine pass_stream (ReadAccount.keeps_balanced past) (fun _ h => h) h h.get ?_ state value
  exact fun c hc => ⟨h.get, h.unget_get hc⟩

/-- The token loop on an account of the stream: it returns the same, and stays within the account. -/
theorem loop_account {fuel : Nat} (value : Bytes) {input : Stream} (h : input.unread.length < fuel) :
    ∃ tt v account, Pass.loop (pass ReadAccount.ops) fuel (.initialWhitespace, value, .start input) = some (tt, v, account) ∧
      parseToken input value = (tt, v, account.stream) ∧ account.Balanced input.past := by
  have hview := Pass.loop_map (pass_view ReadAccount.view) fuel (.initialWhitespace, value, .start input)
  have hloop := loop_pass .initialWhitespace value h
  obtain ⟨⟨tt, v, account⟩, hrun, he⟩ := Option.map_eq_some_iff.mp (hview.symm.trans hloop)
  refine ⟨tt, v, account, hrun, he.symm, ?_⟩
  exact Pass.post_of_loop (P := fun head : Head (ReadAccount Byte) => head.2.2.Balanced input.past)
    (Q := fun r : TokenType × Bytes × ReadAccount Byte => r.2.2.Balanced input.past)
    (fun head h => balanced_pass h head.1 head.2.1) hrun (ReadAccount.balanced_start input)

end TokenLoop

/-- One pass of the parse loop. -/
def parsePass : ParseState × Stream → Pass (ParseState × Stream) (Defined ParseResult)
  | (s, configFile) =>
    match parseToken configFile [] with
    | (tokenType, token, rest) =>
      if tokenType = .error then .leave (some (badTransition s tokenType))
      else if tokenType = .comment then .again (s, rest)
      else match iterate s tokenType token with
        | none => .leave none
        | some (.next s') => .again (s', rest)
        | some (.breakLoop s') => .leave (some (badTransition s' tokenType))
        | some (.returnTrue s') => .leave (some ⟨true, s'.config, ""⟩)

/-- The parse loop goes on as its pass says. -/
theorem parseLoop_eq_elim (head : ParseState × Stream) :
    parseLoop head.1 head.2 = (parsePass head).elim (fun h => parseLoop h.1 h.2) id := by
  obtain ⟨s, input⟩ := head
  rw [parsePass, parseLoop]
  rcases parseToken input [] with ⟨tt, v, rest⟩
  dsimp only
  split_ifs
  · rfl
  · rfl
  · cases iterate s tt v with
    | none => rfl
    | some iteration => cases iteration <;> rfl

/-- A pass that goes around has read something. -/
theorem parsePass_unread_lt (s : ParseState) (input : Stream) :
    (parsePass (s, input)).Meets (fun head => head.2.unread.length < input.unread.length) (fun _ => True) := by
  rw [parsePass]
  rcases hl : parseToken input [] with ⟨tt, v, rest⟩
  dsimp only
  split_ifs with he hc
  · trivial
  · exact parseToken_progress hl (by simp [hc]) he
  · cases hi : iterate s tt v with
    | none => trivial
    | some iteration =>
      cases iteration with
      | next s' =>
        refine parseToken_progress hl ?_ he
        rintro rfl
        exact iterate_eof_ne_next s s' v hi
      | breakLoop s' => trivial
      | returnTrue s' => trivial

theorem loop_parsePass {fuel : Nat} (s : ParseState) {input : Stream} (h : input.unread.length < fuel) :
    Pass.loop parsePass fuel (s, input) = some (parseLoop s input) :=
  Pass.loop_of_measure (m := fun head : ParseState × Stream => head.2.unread.length) parseLoop_eq_elim
    (fun head => parsePass_unread_lt head.1 head.2) h

/-- A call that finds a token leaves fewer unread bytes, and no call steps back over a byte from before
it; both loops end after at most one pass more than there are unread bytes, and `Parse` with a result. -/
theorem lexing_progress_parse_ends (input : Stream) :
    (∀ value tt v rest, parseToken input value = (tt, v, rest) → tt ≠ .eof → tt ≠ .error →
      rest.unread.length < input.unread.length) ∧
    (∀ value, Pass.loop (TokenLoop.pass InputStream.ops) (input.unread.length + 1)
      (.initialWhitespace, value, input) = some (parseToken input value)) ∧
    (∀ value, ∃ tt v account, Pass.loop (TokenLoop.pass ReadAccount.ops) (input.unread.length + 1)
        (.initialWhitespace, value, .start input) = some (tt, v, account) ∧
      parseToken input value = (tt, v, account.stream) ∧
      account.overdrawn = false ∧ account.stream.past = account.read ++ input.past) ∧
    ∀ config, ∃ r, Pass.loop parsePass (input.unread.length + 1) (parseStart config, input) = some (some r) ∧
      parse input config = some r := by
  refine ⟨fun value tt v rest h => parseToken_progress h,
    fun value => TokenLoop.loop_pass .initialWhitespace value (Nat.lt_succ_self _), fun value => ?_, fun config => ?_⟩
  · obtain ⟨tt, v, account, hrun, htoken, hbalanced⟩ := TokenLoop.loop_account value (Nat.lt_succ_self _)
    exact ⟨tt, v, account, hrun, htoken, hbalanced.within, hbalanced.past_eq⟩
  · obtain ⟨message, hp⟩ := parse_eq_run input config
    refine ⟨_, ?_, hp⟩
    rw [loop_parsePass _ (Nat.lt_succ_self _), ← parse, hp]

/-- The semicolon behind a word is put back, and one byte is left of three. -/
theorem delimiter_put_back :
    parseToken (.ofList (ascii "ab;")) [] = (.normal, ascii "ab", .live (ascii "ba") (ascii ";")) ∧
    (InputStream.live (ascii "ba") (ascii ";")).unread.length < (InputStream.ofList (ascii "ab;")).unread.length := by
  have htoken : parseToken (.ofList (ascii "ab;")) [] = (.normal, ascii "ab", .live (ascii "ba") (ascii ";")) := by
    decide +kernel
  exact ⟨htoken, (lexing_progress_parse_ends _).1 _ _ _ _ htoken (by decide) (by decide)⟩

end Koko.Config
